import Mathlib.Algebra.BigOperators.Fin
import Varve.Lib.Run

/-!
# Admission to a shared budget

Threads run programs against one budget.
-/

namespace Admission

inductive Phase where
  | lock
  | check (additional : Nat)
  | write (bytes : Nat)
  | remove (bytes : Nat)
  | unlock
deriving DecidableEq, Repr

def writes : List Phase → Nat
  | [] => 0
  | .write n :: rest => n + writes rest
  | _ :: rest => writes rest

def Unchecked (p : List Phase) : Prop := ∀ n, .check n ∉ p

instance : Decidable (Unchecked p) :=
  decidable_of_iff (p.all fun ph => match ph with | .check _ => false | _ => true) <| by
    simp only [List.all_eq_true, Unchecked]
    constructor
    · intro h n hn
      simpa using h _ hn
    · intro h ph hph
      cases ph with
      | check n => exact absurd hph (h n)
      | lock | write _ | remove _ | unlock => rfl

/-- The bytes a thread may still write without being checked. -/
def pending (p : List Phase) : Nat := if Unchecked p then writes p else 0

/-- The check ahead covers everything the program writes. -/
def Covered (reserve : Nat) : List Phase → Prop
  | [] => False
  | .check n :: rest => Unchecked rest ∧ writes rest ≤ n + reserve
  | .write _ :: _ => False
  | _ :: rest => Covered reserve rest

/-- `k` threads, of which one may hold the lock. -/
structure State (k : Nat) where
  used : Nat
  lock : Option (Fin k)
  threads : Fin k → List Phase

inductive Action (k : Nat) where
  | start (i : Fin k) (p : List Phase)
  | phase (i : Fin k)
  | stop (i : Fin k)

section
variable {k : Nat} (limit reserve : Nat)

namespace State

def release (s : State k) (i : Fin k) : Option (Fin k) := if s.lock = some i then none else s.lock

def set (s : State k) (i : Fin k) (p : List Phase) : State k :=
  { s with threads := Function.update s.threads i p }

/-- The next phase of a thread; a refused program ends and a lock held elsewhere blocks. -/
def phase (s : State k) (i : Fin k) : Option (State k) :=
  match s.threads i with
  | [] => none
  | .lock :: rest =>
    if s.lock = none ∨ s.lock = some i then some { s.set i rest with lock := some i } else none
  | .check n :: rest =>
    if s.used + n + reserve ≤ limit then some (s.set i rest)
    else some { s.set i [] with lock := s.release i }
  | .write n :: rest => some { s.set i rest with used := s.used + n }
  | .remove n :: rest => some { s.set i rest with used := s.used - n }
  | .unlock :: rest => some { s.set i rest with lock := s.release i }

/-- What the threads may still write without being checked. -/
def outstanding (s : State k) : Nat := ∑ i, pending (s.threads i)

def others (s : State k) (i : Fin k) : Nat := ∑ j ∈ Finset.univ.erase i, pending (s.threads j)

end State

/-- Programs start on idle threads, and an error may end a program anywhere. -/
inductive Step (Path : List Phase → Prop) : State k → Action k → State k → Prop where
  | start (hi : s.threads i = []) (hp : Path p) : Step Path s (.start i p) (s.set i p)
  | phase (h : s.phase limit reserve i = some s') : Step Path s (.phase i) s'
  | stop : Step Path s (.stop i) { s.set i [] with lock := s.release i }

/-- Room for what the others have been admitted to write: at every check that admits, and at the
start of a program that is never checked. -/
def Roomy (s : State k) : Action k → Prop
  | .start _ p => Unchecked p → s.used + s.outstanding + writes p ≤ limit
  | .phase i => ∀ n rest, s.threads i = .check n :: rest → s.used + n + reserve ≤ limit →
      s.used + s.others i + n + reserve ≤ limit
  | .stop _ => True

def machine (Path : List Phase → Prop) : Machine (State k) (Action k) where
  init s := s.used ≤ limit ∧ ∀ i, s.threads i = []
  step := Step limit reserve Path

end

-- The invariant

variable {k limit reserve : Nat} {Path : List Phase → Prop} {s s' : State k} {i : Fin k}
  {p rest : List Phase}

structure Inv (limit reserve : Nat) (s : State k) : Prop where
  within : s.used + s.outstanding ≤ limit
  thread : ∀ i, Covered reserve (s.threads i) ∨ Unchecked (s.threads i)

theorem unchecked_nil : Unchecked [] := fun _ => List.not_mem_nil

theorem unchecked_cons (h : Unchecked (ph :: rest)) : Unchecked rest :=
  fun n hn => h n (List.mem_cons_of_mem _ hn)

theorem Covered.checked (h : Covered reserve p) : ¬Unchecked p := by
  induction p with
  | nil => cases h
  | cons ph rest ih =>
    cases ph with
    | check n => exact fun hu => hu n List.mem_cons_self
    | write n => cases h
    | lock | remove _ | unlock => exact fun hu => ih h (unchecked_cons hu)

theorem pending_covered (h : Covered reserve p) : pending p = 0 := if_neg h.checked

theorem pending_unchecked (h : Unchecked p) : pending p = writes p := if_pos h

@[simp] theorem writes_append : writes (p ++ rest) = writes p + writes rest := by
  induction p with
  | nil => simp [writes]
  | cons ph p ih =>
    cases ph with
    | write n => simp [writes, ih, Nat.add_assoc]
    | lock | check _ | remove _ | unlock => simpa [writes] using ih

theorem unchecked_append (hp : Unchecked p) (hr : Unchecked rest) : Unchecked (p ++ rest) :=
  fun n hn => (List.mem_append.mp hn).elim (hp n) (hr n)

theorem covered_removes {freed : List Nat} (h : Covered reserve rest) :
    Covered reserve (freed.map .remove ++ rest) := by
  induction freed with
  | nil => exact h
  | cons n freed ih => exact ih

theorem pending_nil : pending [] = 0 := rfl

theorem used_set (s : State k) (i : Fin k) (p : List Phase) : (s.set i p).used = s.used := rfl

theorem outstanding_eq (s : State k) (i : Fin k) :
    s.outstanding = pending (s.threads i) + s.others i :=
  (Finset.add_sum_erase _ _ (Finset.mem_univ i)).symm

theorem outstanding_set (s : State k) (i : Fin k) (p : List Phase) :
    (s.set i p).outstanding = pending p + s.others i := by
  rw [outstanding_eq _ i]
  congr 1
  · simp [State.set]
  · refine Finset.sum_congr rfl fun j hj => ?_
    simp [State.set, Function.update_of_ne (Finset.ne_of_mem_erase hj)]

theorem Inv.set (h : Inv limit reserve s) (hp : Covered reserve p ∨ Unchecked p)
    (hw : used + pending p + s.others i ≤ limit) (lock : Option (Fin k)) :
    Inv limit reserve { s.set i p with used := used, lock := lock } where
  within := by
    have : State.outstanding { s.set i p with used := used, lock := lock } =
        pending p + s.others i :=
      outstanding_set s i p
    rw [this]
    simpa [Nat.add_assoc] using hw
  thread j := by
    by_cases hj : j = i
    · subst hj
      simpa [State.set] using hp
    · simpa [State.set, Function.update_of_ne hj] using h.thread j

theorem account_cons (hp : Covered reserve (ph :: rest) ∨ Unchecked (ph :: rest))
    (hc : ∀ n, ph ≠ .check n) (hw : ∀ n, ph ≠ .write n) :
    (Covered reserve rest ∨ Unchecked rest) ∧ pending rest = pending (ph :: rest) := by
  rcases hp with hp | hp
  · have hrest : Covered reserve rest := by
      cases ph with
      | check n => exact absurd rfl (hc n)
      | write n => exact absurd rfl (hw n)
      | lock | remove _ | unlock => exact hp
    exact ⟨.inl hrest, by rw [pending_covered hrest, pending_covered hp]⟩
  · refine ⟨.inr (unchecked_cons hp), ?_⟩
    rw [pending_unchecked (unchecked_cons hp), pending_unchecked hp]
    cases ph with
    | write n => exact absurd rfl (hw n)
    | lock | check _ | remove _ | unlock => rfl

theorem inv_phase (h : Inv limit reserve s) (hr : Roomy limit reserve s (.phase i))
    (hs : s.phase limit reserve i = some s') : Inv limit reserve s' := by
  have hwithin := h.within
  rw [outstanding_eq s i] at hwithin
  have ht := h.thread i
  unfold State.phase at hs
  cases hp : s.threads i with
  | nil =>
    rw [hp] at hs
    cases hs
  | cons ph rest =>
    rw [hp] at hwithin ht
    simp only [hp] at hs
    cases ph with
    | lock =>
      obtain ⟨hrest, hacc⟩ := account_cons ht nofun nofun
      simp only at hs
      split at hs
      · cases hs
        exact h.set hrest (by rw [used_set]; omega) _
      · cases hs
    | unlock =>
      obtain ⟨hrest, hacc⟩ := account_cons ht nofun nofun
      cases hs
      exact h.set hrest (by rw [used_set]; omega) _
    | remove n =>
      obtain ⟨hrest, hacc⟩ := account_cons ht nofun nofun
      cases hs
      exact h.set hrest (by omega) _
    | write n =>
      have hu : Unchecked (.write n :: rest) := ht.resolve_left nofun
      rw [pending_unchecked hu] at hwithin
      cases hs
      refine h.set (.inr (unchecked_cons hu)) ?_ _
      rw [pending_unchecked (unchecked_cons hu)]
      simp only [writes] at hwithin
      omega
    | check n =>
      have hc : Unchecked rest ∧ writes rest ≤ n + reserve :=
        ht.resolve_right fun hu => hu n List.mem_cons_self
      simp only at hs
      split at hs
      · rename_i hadmit
        have hroom := hr n rest hp hadmit
        cases hs
        refine h.set (.inr hc.1) ?_ _
        rw [pending_unchecked hc.1]
        omega
      · cases hs
        exact h.set (.inr unchecked_nil) (by rw [pending_nil, used_set]; omega) _

theorem inv_step (hpath : ∀ p, Path p → Covered reserve p ∨ Unchecked p)
    (h : Inv limit reserve s) (hr : Roomy limit reserve s a) (hs : Step limit reserve Path s a s') :
    Inv limit reserve s' := by
  cases hs with
  | start hi hp =>
    rename_i p j
    have hw := h.within
    have heq := outstanding_eq s j
    rw [hi, pending_nil] at heq
    refine h.set (hpath p hp) ?_ _
    rcases hpath p hp with hc | hu
    · rw [pending_covered hc]
      omega
    · rw [pending_unchecked hu]
      have := hr hu
      omega
  | phase hs => exact inv_phase h hr hs
  | stop =>
    rename_i j
    have hw := h.within
    rw [outstanding_eq s j] at hw
    exact h.set (.inr unchecked_nil) (by rw [pending_nil, used_set]; omega) _

theorem roomy_alone {s : State 1} {i : Fin 1} : Roomy limit reserve s (.phase i) := by
  intro n rest _ h
  have hz : s.others i = 0 := Finset.sum_eq_zero fun j hj =>
    absurd (Subsingleton.elim j i) (Finset.ne_of_mem_erase hj)
  rw [hz]
  exact h

def State.phases (limit reserve : Nat) (s : State k) : List (Fin k) → Option (State k)
  | [] => some s
  | i :: is => (s.phase limit reserve i).bind fun s => s.phases limit reserve is

theorem reachable_phases {M : Machine (State k) (Action k)} {is : List (Fin k)}
    (h : M.Reachable s) (hs : s.phases limit reserve is = some s')
    (hM : ∀ s i s', s.phase limit reserve i = some s' → M.step s (.phase i) s') :
    M.Reachable s' := by
  induction is generalizing s with
  | nil =>
    cases hs
    exact h
  | cons i is ih =>
    obtain ⟨s₁, h₁, hs⟩ := Option.bind_eq_some_iff.mp hs
    exact ih (h.step (hM s i s₁ h₁)) hs

theorem within_of_reachable (hpath : ∀ p, Path p → Covered reserve p ∨ Unchecked p)
    (h : ((machine limit reserve Path).restrict (Roomy limit reserve)).Reachable s) :
    s.used ≤ limit := by
  have hi : Inv limit reserve s := by
    refine h.invariant (fun s h0 => ⟨?_, fun i => ?_⟩) fun s a s' hi hs =>
      inv_step hpath hi hs.1 hs.2
    · have hz : s.outstanding = 0 := Finset.sum_eq_zero fun i _ => by rw [h0.2 i]; rfl
      rw [hz]
      exact h0.1
    · rw [h0.2 i]
      exact .inr unchecked_nil
  exact (Nat.le_add_right _ _).trans hi.within

end Admission
