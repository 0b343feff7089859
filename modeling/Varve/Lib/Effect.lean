import Varve.Lib.Except

/-!
# Effects that survive their errors

A computation over a state that may fail and keeps what it has done to the state.
-/

def Effect (σ α : Type) : Type := σ → Except String α × σ

namespace Effect

variable {σ α β : Type}

def bind (m : Effect σ α) (f : α → Effect σ β) : Effect σ β := fun s =>
  match m s with
  | (.ok a, t) => f a t
  | (.error e, t) => (.error e, t)

instance : Monad (Effect σ) where
  pure a := fun s => (.ok a, s)
  bind := bind

def get : Effect σ σ := fun s => (.ok s, s)

def modify (f : σ → σ) : Effect σ Unit := fun s => (.ok (), f s)

def lift (x : Except String α) : Effect σ α := fun s => (x, s)

def check (p : Prop) [Decidable p] (e : String) : Effect σ Unit := lift (Result.ensure p e)

def context (x : Option α) (e : String) : Effect σ α :=
  lift (match x with
    | some a => .ok a
    | none => .error e)

section
variable {s t : σ} {m : Effect σ α} {f : α → Effect σ β} {e : String} {p : Prop} [Decidable p]

theorem bind_of_ok {a : α} (h : m s = (.ok a, t)) : (m >>= f) s = f a t := by
  show Effect.bind m f s = _
  rw [Effect.bind, h]

theorem bind_of_error (h : m s = (.error e, t)) : (m >>= f) s = (.error e, t) := by
  show Effect.bind m f s = _
  rw [Effect.bind, h]

theorem context_some {a : α} : (context (some a) e : Effect σ α) s = (.ok a, s) := rfl

theorem context_none : (context none e : Effect σ α) s = (.error e, s) := rfl

theorem check_of (h : p) : (check p e : Effect σ Unit) s = (.ok (), s) := by
  show (Result.ensure p e, s) = _
  rw [Result.ensure_pos h]

theorem check_of_not (h : ¬p) : (check p e : Effect σ Unit) s = (.error e, s) := by
  show (Result.ensure p e, s) = _
  rw [Result.ensure_neg h]

end

structure Spec (m : Effect σ α) (s : σ) (R : σ → Prop) (Q : α → σ → Prop) : Prop where
  always : R (m s).2
  success : ∀ a t, m s = (.ok a, t) → Q a t

section
variable {s : σ} {R : σ → Prop} {Q : α → σ → Prop} {Q' : β → σ → Prop} {m : Effect σ α}
  {f : α → Effect σ β} {e : String} {p : Prop} [Decidable p]

theorem Spec.bind (hm : Spec m s R Q) (hf : ∀ a t, R t → Q a t → Spec (f a) t R Q') :
    Spec (m >>= f) s R Q' := by
  obtain ⟨hR, hQ⟩ := hm
  cases hms : m s with
  | mk result t =>
    rw [hms] at hR
    cases result with
    | error e =>
      have hrun : (m >>= f) s = (.error e, t) := bind_of_error hms
      refine ⟨hrun ▸ hR, fun b u hb => ?_⟩
      rw [hrun] at hb
      cases hb
    | ok a =>
      have hrun : (m >>= f) s = f a t := bind_of_ok hms
      obtain ⟨hR', hQ'⟩ := hf a t hR (hQ a t hms)
      exact ⟨hrun ▸ hR', fun b u hb => hQ' b u (hrun ▸ hb)⟩

theorem Spec.pure {a : α} (hR : R s) (hQ : Q a s) : Spec (Pure.pure a) s R Q := by
  refine ⟨hR, fun b t h => ?_⟩
  cases h
  exact hQ

theorem Spec.modify {g : σ → σ} {Q : Unit → σ → Prop} (hR : R (g s)) (hQ : Q () (g s)) :
    Spec (Effect.modify g) s R Q := by
  refine ⟨hR, fun b t h => ?_⟩
  cases h
  exact hQ

theorem Spec.lift {x : Except String α} (hR : R s) (hQ : ∀ a, x = .ok a → Q a s) :
    Spec (Effect.lift x) s R Q := by
  refine ⟨hR, fun b t h => ?_⟩
  obtain ⟨hx, rfl⟩ := Prod.mk.inj h
  exact hQ b hx

theorem Spec.check {Q : Unit → σ → Prop} (hR : R s)
    (hQ : p → Q () s) : Spec (Effect.check p e) s R Q :=
  Spec.lift hR fun _ h => hQ (Result.ensure_ok.mp h)

-- A step that only reads the state, or changes it in a known way, leaves the rest of the
-- computation at a known state.

theorem Spec.get_bind {f : σ → Effect σ β} (h : Spec (f s) s R Q') :
    Spec (Effect.get >>= f) s R Q' :=
  ⟨h.always, fun a t ha => h.success a t ha⟩

theorem Spec.modify_bind {g : σ → σ} {f : Unit → Effect σ β} (h : Spec (f ()) (g s) R Q') :
    Spec (Effect.modify g >>= f) s R Q' :=
  ⟨h.always, fun a t ha => h.success a t ha⟩

theorem Spec.lift_bind {x : Except String α} (hR : R s)
    (h : ∀ a, x = .ok a → Spec (f a) s R Q') : Spec (Effect.lift x >>= f) s R Q' := by
  refine Spec.bind (Q := fun a t => x = .ok a ∧ t = s) (Spec.lift hR fun _ hx => ⟨hx, rfl⟩) ?_
  rintro a t - ⟨hx, rfl⟩
  exact h a hx

theorem Spec.check_bind {f : Unit → Effect σ β} (hR : R s)
    (h : p → Spec (f ()) s R Q') : Spec (Effect.check p e >>= f) s R Q' :=
  Spec.lift_bind hR fun _ hp => h (Result.ensure_ok.mp hp)

theorem Spec.context_bind {x : Option α} (hR : R s)
    (h : ∀ a, x = some a → Spec (f a) s R Q') : Spec (Effect.context x e >>= f) s R Q' := by
  refine Spec.lift_bind hR fun a hx => h a ?_
  cases x with
  | none => cases hx
  | some b =>
    cases hx
    rfl

theorem Spec.mono {Q₁ : α → σ → Prop} (h : Spec m s R Q₁) (hQ : ∀ a t, Q₁ a t → Q a t) :
    Spec m s R Q :=
  ⟨h.always, fun a t hm => hQ a t (h.success a t hm)⟩

end

end Effect
