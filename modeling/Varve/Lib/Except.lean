/-!
# Fallible computations

Reading a successful computation as the successes of its parts.
-/

namespace Result

def ensure (p : Prop) [Decidable p] (e : ε) : Except ε Unit := if p then .ok () else .error e

variable {ε : Type u} {α β : Type v}

theorem bind_ok {x : Except ε α} {f : α → Except ε β} {b : β} :
    x >>= f = .ok b ↔ ∃ a, x = .ok a ∧ f a = .ok b := by
  cases x with
  | error e => simp [bind, Except.bind]
  | ok a => simp [bind, Except.bind]

theorem ok_of_isOk {x : Except ε α} (h : x.isOk = true) : ∃ a, x = .ok a := by
  cases x with
  | ok a => exact ⟨a, rfl⟩
  | error e => cases h

@[simp] theorem ok_bind {a : α} {f : α → Except ε β} : (Except.ok a >>= f) = f a := rfl

@[simp] theorem error_bind {e : ε} {f : α → Except ε β} : (Except.error e >>= f) = .error e := rfl

theorem ensure_ok {p : Prop} [Decidable p] {e : ε} : ensure p e = .ok () ↔ p := by
  unfold ensure
  split <;> simp [*]

@[simp] theorem ensure_pos {p : Prop} [Decidable p] {e : ε} (h : p) : ensure p e = .ok () :=
  ensure_ok.mpr h

@[simp] theorem ensure_neg {p : Prop} [Decidable p] {e : ε} (h : ¬p) : ensure p e = .error e :=
  if_neg h

theorem ensure_bind {p : Prop} [Decidable p] {γ : Type} {e : ε} {f : Unit → Except ε γ}
    {b : γ} :
    ensure p e >>= f = .ok b ↔ p ∧ f () = .ok b := by
  by_cases h : p
  · simp [h]
  · simp [h]

theorem forM_ok {α : Type w} {l : List α} {f : α → Except ε Unit} :
    l.forM f = .ok () ↔ ∀ a ∈ l, f a = .ok () := by
  induction l with
  | nil => exact ⟨fun _ _ h => (List.not_mem_nil h).elim, fun _ => rfl⟩
  | cons a l ih =>
    rw [show (a :: l).forM f = f a >>= fun _ => l.forM f from List.forM_cons, bind_ok,
      List.forall_mem_cons, ← ih]
    exact ⟨fun ⟨_, ha, hl⟩ => ⟨ha, hl⟩, fun ⟨ha, hl⟩ => ⟨(), ha, hl⟩⟩

end Result
