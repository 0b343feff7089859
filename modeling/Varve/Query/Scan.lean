import Mathlib.Algebra.BigOperators.Group.Finset.Basic
import Mathlib.Algebra.BigOperators.Group.List.Basic
import Mathlib.Algebra.Order.Group.Multiset
import Mathlib.Data.Fintype.Card
import Mathlib.Tactic.Abel
import Varve.Lib.Path

/-!
# The native scanner

`exec_impl` in `query/native/scan.rs`: callbacks over several local states claim the work items of
one scanner from a shared counter and return the rows of their item chunk by chunk.
-/

namespace Varve.Query.Scan

/-- The rows of a scanner: raw batches, or one relation. -/
inductive ScannerRows (R : Type) where
  | raw (batches : List (List R))
  | rollup (rows : List R)
  | catalog (rows : List R)

structure Position where
  work : Nat
  row : Nat
deriving DecidableEq, Repr

variable {R ι : Type}

def workCount : ScannerRows R → Nat
  | .raw batches => batches.length
  | .rollup rows => if rows.isEmpty then 0 else 1
  | .catalog rows => if rows.isEmpty then 0 else 1

def workLen (work : Nat) : ScannerRows R → Nat
  | .raw batches => (batches[work]?.map List.length).getD 0
  | .rollup rows => (if work = 0 then 1 else 0) * rows.length
  | .catalog rows => (if work = 0 then 1 else 0) * rows.length

/-- The row that `cell` reads. -/
def rowAt (p : Position) : ScannerRows R → Option R
  | .raw batches => batches[p.work]?.bind (·[p.row]?)
  | .rollup rows => rows[p.row]?
  | .catalog rows => rows[p.row]?

def ScannerRows.all : ScannerRows R → List R
  | .raw batches => batches.flatten
  | .rollup rows => rows
  | .catalog rows => rows

/-- Where a local state is: between two callbacks, at the head of the loop, in the loop over the
rows of its item, after the loop, or done with an empty chunk. -/
inductive Phase where
  | idle
  | loop (positions : List Position)
  | copy (work : Nat) (positions : List Position)
  | publish (positions : List Position)
  | ended
deriving DecidableEq, Repr

structure Local where
  work : Option Nat
  row : Nat
  phase : Phase

structure State (ι : Type) where
  nextWork : Nat
  locals : ι → Local
  /-- The chunks that callbacks have returned. -/
  chunks : List (ι × List Position)

section
variable (rows : ScannerRows R) (vectorSize : Nat)

/-- A step of a local state, with the counter after it. -/
def Local.step (next : Nat) (l : Local) : Local × Nat :=
  match l.phase with
  | .idle => ({ l with phase := .loop [] }, next)
  | .loop positions =>
    if positions.length < vectorSize then
      match l.work with
      | some work => ({ l with phase := .copy work positions }, next)
      | none =>
        if next < workCount rows then (⟨some next, 0, .copy next positions⟩, next + 1)
        else ({ l with phase := .publish positions }, next + 1)
    else ({ l with phase := .publish positions }, next)
  | .copy work positions =>
    if l.row < workLen work rows ∧ positions.length < vectorSize then
      ({ l with row := l.row + 1, phase := .copy work (positions ++ [⟨work, l.row⟩]) }, next)
    else
      ({ l with
        work := if workLen work rows ≤ l.row then none else l.work
        phase := .loop positions }, next)
  | .publish positions => ({ l with phase := if positions = [] then .ended else .idle }, next)
  | .ended => (l, next)

def Local.returned (l : Local) : Option (List Position) :=
  match l.phase with
  | .publish positions => some positions
  | _ => none

variable [DecidableEq ι]

def State.advance (s : State ι) (i : ι) : State ι where
  nextWork := ((s.locals i).step rows vectorSize s.nextWork).2
  locals := Function.update s.locals i ((s.locals i).step rows vectorSize s.nextWork).1
  chunks := s.chunks ++ (s.locals i).returned.toList.map (i, ·)

def scanning : Machine (State ι) ι where
  init s := s = ⟨0, fun _ => ⟨none, 0, .idle⟩, []⟩
  step s i s' := (s.locals i).phase ≠ .ended ∧ s' = s.advance rows vectorSize i

end

def State.emitted (s : State ι) : List Position := s.chunks.flatMap Prod.snd

section
variable {rows : ScannerRows R} {vectorSize next : Nat} {l : Local}

def positionsFrom (rows : ScannerRows R) (work row : Nat) : List Position :=
  (List.range' row (workLen work rows - row)).map (⟨work, ·⟩)

def unclaimed (rows : ScannerRows R) (next : Nat) : List Position :=
  (List.range' next (workCount rows - next)).flatMap (positionsFrom rows · 0)

theorem positionsFrom_cons (h : row < workLen work rows) :
    positionsFrom rows work row = ⟨work, row⟩ :: positionsFrom rows work (row + 1) := by
  obtain ⟨n, hn⟩ : ∃ n, workLen work rows - row = n + 1 := ⟨workLen work rows - row - 1, by omega⟩
  have hn' : workLen work rows - (row + 1) = n := by omega
  rw [positionsFrom, positionsFrom, hn, hn', List.range'_succ, List.map_cons]

theorem positionsFrom_nil (h : workLen work rows ≤ row) : positionsFrom rows work row = [] := by
  rw [positionsFrom, Nat.sub_eq_zero_of_le h]
  rfl

theorem unclaimed_cons (h : next < workCount rows) :
    unclaimed rows next = positionsFrom rows next 0 ++ unclaimed rows (next + 1) := by
  obtain ⟨n, hn⟩ : ∃ n, workCount rows - next = n + 1 := ⟨workCount rows - next - 1, by omega⟩
  have hn' : workCount rows - (next + 1) = n := by omega
  rw [unclaimed, unclaimed, hn, hn', List.range'_succ, List.flatMap_cons]

theorem unclaimed_nil (h : workCount rows ≤ next) : unclaimed rows next = [] := by
  rw [unclaimed, Nat.sub_eq_zero_of_le h]
  rfl

-- A step of a local state

def Local.gathered (l : Local) : List Position :=
  match l.phase with
  | .loop positions => positions
  | .copy _ positions => positions
  | .publish positions => positions
  | _ => []

/-- The rows of its item that a local state has not come to. -/
def Local.left (rows : ScannerRows R) (l : Local) : List Position :=
  l.work.elim [] (positionsFrom rows · l.row)

/-- An empty chunk is only on its way when everything is claimed. -/
def Local.Ok (rows : ScannerRows R) (next : Nat) (l : Local) : Prop :=
  match l.phase with
  | .copy work _ => l.work = some work
  | .publish [] => l.work = none ∧ workCount rows ≤ next
  | .ended => l.work = none ∧ workCount rows ≤ next
  | _ => True

theorem Local.Ok.mono (h : l.Ok rows next) (hn : next ≤ next') : l.Ok rows next' := by
  unfold Local.Ok at h ⊢
  split at h
  · exact h
  · exact ⟨h.1, h.2.trans hn⟩
  · exact ⟨h.1, h.2.trans hn⟩
  · trivial

theorem Local.next_le : next ≤ (l.step rows vectorSize next).2 := by
  unfold Local.step
  split
  · exact Nat.le_refl _
  · split
    · split
      · exact Nat.le_refl _
      · split <;> exact Nat.le_succ _
    · exact Nat.le_refl _
  · split <;> exact Nat.le_refl _
  · exact Nat.le_refl _
  · exact Nat.le_refl _

theorem Local.Ok.step (hv : 0 < vectorSize) (h : l.Ok rows next) :
    (l.step rows vectorSize next).1.Ok rows (l.step rows vectorSize next).2 := by
  obtain ⟨work, row, phase⟩ := l
  cases phase with
  | idle => trivial
  | loop positions =>
    simp only [Local.step]
    split
    · split
      · rfl
      · split
        · rfl
        · rename_i hroom hnone hclaimed
          cases positions with
          | nil => exact ⟨rfl, by dsimp only; omega⟩
          | cons p positions => trivial
    · rename_i hfull
      cases positions with
      | nil => exact absurd hv hfull
      | cons p positions => trivial
  | copy item positions =>
    simp only [Local.step]
    split
    · exact h
    · trivial
  | publish positions =>
    cases positions with
    | nil => exact h
    | cons p positions => trivial
  | ended => exact h

theorem Local.Ok.conserves (h : l.Ok rows next) :
    (l.returned.getD [] ++ ((l.step rows vectorSize next).1.gathered ++
        (l.step rows vectorSize next).1.left rows) ++
      unclaimed rows (l.step rows vectorSize next).2).Perm
      (l.gathered ++ l.left rows ++ unclaimed rows next) := by
  obtain ⟨work, row, phase⟩ := l
  cases phase with
  | idle => exact .refl _
  | loop positions =>
    simp only [Local.step, Local.returned]
    split
    · split
      · exact .refl _
      · split
        · rename_i hclaim
          rw [unclaimed_cons hclaim]
          simp [Local.gathered, Local.left]
        · rename_i hclaimed
          have hnone : unclaimed rows next = [] := unclaimed_nil (Nat.le_of_not_lt hclaimed)
          have hnone' : unclaimed rows (next + 1) = [] :=
            unclaimed_nil (Nat.le_succ_of_le (Nat.le_of_not_lt hclaimed))
          rw [hnone, hnone']
          exact .refl _
    · exact .refl _
  | copy item positions =>
    have hwork : work = some item := h
    subst hwork
    simp only [Local.step, Local.returned]
    split
    · rename_i hrow
      simp [Local.gathered, Local.left, positionsFrom_cons hrow.1]
    · by_cases hend : workLen item rows ≤ row
      · simp [Local.gathered, Local.left, hend, positionsFrom_nil hend]
      · simp [Local.gathered, Local.left, hend]
  | publish positions =>
    cases positions with
    | nil => exact .refl _
    | cons p positions => simp [Local.step, Local.returned, Local.gathered, Local.left]
  | ended => exact .refl _

-- The number of steps

/-- Steps that a local state can take before it needs a row or an item. A chunk with rows is
followed by another callback. -/
def Local.rank (vectorSize : Nat) (l : Local) : Nat :=
  match l.phase with
  | .idle => 5
  | .loop [] => if l.work = none then 2 else 4
  | .loop positions => if l.work = none ∨ vectorSize ≤ positions.length then 7 else 9
  | .copy _ [] => 3
  | .copy _ _ => 8
  | .publish [] => 1
  | .publish _ => 6
  | .ended => 0

def Local.todo (rows : ScannerRows R) (vectorSize : Nat) (l : Local) : Nat :=
  6 * (l.left rows).length + l.rank vectorSize

def unclaimedTodo (rows : ScannerRows R) (next : Nat) : Nat :=
  6 * (unclaimed rows next).length + 2 * (workCount rows - next)

theorem length_positionsFrom (work row : Nat) :
    (positionsFrom rows work row).length = workLen work rows - row := by
  simp [positionsFrom]

theorem Local.Ok.todo_lt (hv : 0 < vectorSize) (h : l.Ok rows next) (he : l.phase ≠ .ended) :
    (l.step rows vectorSize next).1.todo rows vectorSize +
        unclaimedTodo rows (l.step rows vectorSize next).2 <
      l.todo rows vectorSize + unclaimedTodo rows next := by
  obtain ⟨work, row, phase⟩ := l
  cases phase with
  | idle =>
    cases work with
    | none => simp [Local.step, Local.todo, Local.left, Local.rank]
    | some item => simp [Local.step, Local.todo, Local.left, Local.rank]
  | loop positions =>
    simp only [Local.step]
    split
    · rename_i hroom
      cases work with
      | some item =>
        cases positions with
        | nil => simp [Local.todo, Local.left, Local.rank]
        | cons p positions =>
          have hnot : ¬vectorSize ≤ positions.length + 1 := Nat.not_le_of_lt hroom
          simp [Local.todo, Local.left, Local.rank, hnot]
      | none =>
        dsimp only
        split
        · rename_i hclaim
          cases positions with
          | nil =>
            simp [Local.todo, Local.left, Local.rank, unclaimedTodo, unclaimed_cons hclaim]
            omega
          | cons p positions =>
            simp [Local.todo, Local.left, Local.rank, unclaimedTodo, unclaimed_cons hclaim]
            omega
        · rename_i hclaimed
          have hnone : unclaimed rows (next + 1) = [] :=
            unclaimed_nil (Nat.le_succ_of_le (Nat.le_of_not_lt hclaimed))
          cases positions with
          | nil =>
            simp [Local.todo, Local.left, Local.rank, unclaimedTodo, hnone]
            omega
          | cons p positions =>
            simp [Local.todo, Local.left, Local.rank, unclaimedTodo, hnone]
            omega
    · rename_i hfull
      cases positions with
      | nil => exact absurd hv hfull
      | cons p positions =>
        simp only [List.length_cons, Nat.not_lt] at hfull
        simp [Local.todo, Local.rank, hfull, Local.left]
  | copy item positions =>
    have hwork : work = some item := h
    subst hwork
    simp only [Local.step]
    split
    · rename_i hrow
      cases positions with
      | nil =>
        simp [Local.todo, Local.left, Local.rank, length_positionsFrom]
        omega
      | cons p positions =>
        simp [Local.todo, Local.left, Local.rank, length_positionsFrom]
        omega
    · rename_i hstop
      by_cases hend : workLen item rows ≤ row
      · cases positions with
        | nil => simp [Local.todo, Local.left, Local.rank, hend]
        | cons p positions => simp [Local.todo, Local.left, Local.rank, hend]
      · cases positions with
        | nil => exact absurd ⟨Nat.lt_of_not_le hend, hv⟩ hstop
        | cons p positions =>
          have hfull : vectorSize ≤ (p :: positions).length :=
            Nat.le_of_not_lt fun hroom => hstop ⟨Nat.lt_of_not_le hend, hroom⟩
          simp only [List.length_cons] at hfull
          simp [Local.todo, Local.left, Local.rank, hend, hfull]
  | publish positions =>
    cases positions with
    | nil => simp [Local.step, Local.todo, Local.left, Local.rank]
    | cons p positions => simp [Local.step, Local.todo, Local.left, Local.rank]
  | ended => exact absurd rfl he

end

theorem map_getElem?_range (l : List α) :
    (List.range' 0 l.length).map (l[·]?) = l.map some := by
  refine List.ext_getElem? fun i => ?_
  by_cases hi : i < l.length
  · simp [hi]
  · simp [hi]

theorem rowAt_relation {rows : List R} (h : rows ≠ []) :
    unclaimed (.rollup rows) 0 = (List.range' 0 rows.length).map (⟨0, ·⟩) ∧
      unclaimed (.catalog rows) 0 = (List.range' 0 rows.length).map (⟨0, ·⟩) := by
  simp [unclaimed, positionsFrom, workCount, workLen, h]

theorem map_rowAt_unclaimed (rows : ScannerRows R) :
    (unclaimed rows 0).map (rowAt · rows) = rows.all.map some := by
  cases rows with
  | raw batches =>
    have hitem (work : Nat) : (positionsFrom (.raw batches) work 0).map (rowAt · (.raw batches)) =
        batches[work]?.elim [] (List.map some) := by
      cases hb : batches[work]? with
      | none => simp [positionsFrom, workLen, hb]
      | some batch =>
        rw [Option.elim_some, ← map_getElem?_range batch]
        simp [positionsFrom, workLen, rowAt, hb]
    calc (unclaimed (.raw batches) 0).map (rowAt · (.raw batches))
      _ = (List.range' 0 batches.length).flatMap fun work =>
          batches[work]?.elim [] (List.map some) := by
        simp only [unclaimed, List.map_flatMap, hitem]
        rfl
      _ = ((List.range' 0 batches.length).map (batches[·]?)).flatMap
          (·.elim [] (List.map some)) := by
        rw [List.flatMap_map]
      _ = batches.flatten.map some := by
        rw [map_getElem?_range, List.flatMap_map, List.map_flatten, List.flatMap]
        rfl
  | rollup rows =>
    by_cases h : rows = []
    · subst h
      rfl
    · rw [(rowAt_relation h).1, List.map_map]
      exact map_getElem?_range rows
  | catalog rows =>
    by_cases h : rows = []
    · subst h
      rfl
    · rw [(rowAt_relation h).2, List.map_map]
      exact map_getElem?_range rows

theorem nodup_unclaimed (rows : ScannerRows R) : (unclaimed rows 0).Nodup := by
  refine List.nodup_flatMap.mpr ⟨fun work _ => ?_, ?_⟩
  · refine List.Nodup.map (fun a b h => ?_) List.nodup_range'
    cases h
    rfl
  · have hrange : (List.range' 0 (workCount rows - 0)).Nodup := List.nodup_range'
    refine hrange.imp fun hne p hp hq => hne ?_
    obtain ⟨_, -, rfl⟩ := List.mem_map.mp hp
    obtain ⟨_, -, h⟩ := List.mem_map.mp hq
    exact (congrArg Position.work h).symm

-- Runs

section
variable [Fintype ι] [DecidableEq ι] {rows : ScannerRows R} {vectorSize : Nat} {s s' : State ι}
  {i : ι}

theorem sum_update {M : Type} [AddCommMonoid M] (f : Local → M) (x : ι → Local) (i : ι)
    (l : Local) : ∑ j, f (Function.update x i l j) + f (x i) = ∑ j, f (x j) + f l := by
  have hrest : ∑ j ∈ Finset.univ.erase i, f (Function.update x i l j) =
      ∑ j ∈ Finset.univ.erase i, f (x j) :=
    Finset.sum_congr rfl fun j hj => by rw [Function.update_of_ne (Finset.ne_of_mem_erase hj)]
  rw [← Finset.add_sum_erase _ _ (Finset.mem_univ i),
    ← Finset.add_sum_erase _ (fun j => f (x j)) (Finset.mem_univ i), hrest,
    Function.update_self]
  abel

theorem exchange {M : Type} [AddCancelCommMonoid M] {e e' x x' y y' u u' all : M}
    (hx : x' + y = x + y') (hy : e' + y' + u' = y + u) (h : e + x + u = all) :
    e + e' + x' + u' = all := by
  refine add_right_cancel (b := y) ?_
  calc e + e' + x' + u' + y
    _ = e + e' + (x' + y) + u' := by abel
    _ = e + x + (e' + y' + u') := by rw [hx]; abel
    _ = e + x + u + y := by rw [hy]; abel
    _ = all + y := by rw [h]

def Local.held (rows : ScannerRows R) (l : Local) : Multiset Position :=
  (l.gathered ++ l.left rows : List Position)

/-- Every position has been returned, is with one local state, or is unclaimed. -/
structure Inv (rows : ScannerRows R) (s : State ι) : Prop where
  ok : ∀ i, (s.locals i).Ok rows s.nextWork
  conserved : (s.emitted : Multiset Position) + ∑ i, (s.locals i).held rows +
    (unclaimed rows s.nextWork : Multiset Position) = (unclaimed rows 0 : Multiset Position)

omit [Fintype ι] in
theorem emitted_advance (s : State ι) (i : ι) :
    (s.advance rows vectorSize i).emitted = s.emitted ++ (s.locals i).returned.getD [] := by
  rw [State.emitted, State.advance, List.flatMap_append]
  cases (s.locals i).returned <;> simp [State.emitted]

theorem inv_init (h : (scanning rows vectorSize).init s) : Inv rows s := by
  cases h
  refine ⟨fun _ => trivial, ?_⟩
  simp [State.emitted, Local.held, Local.gathered, Local.left]

theorem Inv.step (hv : 0 < vectorSize) (h : Inv rows s)
    (hs : (scanning rows vectorSize).step s i s') : Inv rows s' := by
  obtain ⟨-, rfl⟩ := hs
  refine ⟨fun j => ?_, ?_⟩
  · by_cases hj : j = i
    · subst hj
      simpa [State.advance] using (h.ok j).step hv
    · simpa [State.advance, hj] using (h.ok j).mono Local.next_le
  · have hperm : ((s.locals i).returned.getD [] : Multiset Position) +
        ((s.locals i).step rows vectorSize s.nextWork).1.held rows +
        (unclaimed rows ((s.locals i).step rows vectorSize s.nextWork).2 : Multiset Position) =
          (s.locals i).held rows + (unclaimed rows s.nextWork : Multiset Position) :=
      Multiset.coe_eq_coe.mpr (h.ok i).conserves
    rw [emitted_advance, ← Multiset.coe_add]
    exact exchange (sum_update (Local.held rows) s.locals i _) hperm h.conserved

theorem Inv.reachable (hv : 0 < vectorSize) (h : (scanning rows vectorSize).Reachable s) :
    Inv rows s :=
  h.invariant (fun _ => inv_init) fun _ _ _ hi hs => hi.step hv hs

def State.todo (rows : ScannerRows R) (vectorSize : Nat) (s : State ι) : Nat :=
  ∑ i, (s.locals i).todo rows vectorSize + unclaimedTodo rows s.nextWork

theorem todo_step (hv : 0 < vectorSize) (h : Inv rows s)
    (hs : (scanning rows vectorSize).step s i s') :
    s'.todo rows vectorSize + 1 ≤ s.todo rows vectorSize := by
  obtain ⟨hne, rfl⟩ := hs
  have hlocal := (h.ok i).todo_lt hv hne
  have hsum := sum_update (Local.todo rows vectorSize) s.locals i
    ((s.locals i).step rows vectorSize s.nextWork).1
  have hafter : (s.advance rows vectorSize i).todo rows vectorSize =
      ∑ j, (Function.update s.locals i ((s.locals i).step rows vectorSize s.nextWork).1 j).todo
        rows vectorSize + unclaimedTodo rows ((s.locals i).step rows vectorSize s.nextWork).2 := rfl
  rw [hafter, State.todo]
  omega

section
omit [DecidableEq ι]

theorem Inv.complete [Nonempty ι] (h : Inv rows s) (he : ∀ i, (s.locals i).phase = .ended) :
    s.emitted.Perm (unclaimed rows 0) := by
  have hended (i : ι) : (s.locals i).work = none ∧ workCount rows ≤ s.nextWork := by
    have hok := h.ok i
    rw [Local.Ok, he i] at hok
    exact hok
  have hheld (i : ι) : (s.locals i).held rows = 0 := by
    simp [Local.held, Local.gathered, Local.left, he i, (hended i).1]
  have hconserved := h.conserved
  rw [unclaimed_nil (hended (Classical.arbitrary ι)).2] at hconserved
  simp only [hheld, Finset.sum_const_zero, add_zero, Multiset.coe_nil] at hconserved
  exact Multiset.coe_eq_coe.mp hconserved

theorem Inv.nodup (h : Inv rows s) : s.emitted.Nodup := by
  have hle : (s.emitted : Multiset Position) ≤ (unclaimed rows 0 : Multiset Position) := by
    rw [← h.conserved, add_assoc]
    exact Multiset.le_add_right _ _
  exact Multiset.coe_nodup.mp
    (Multiset.nodup_of_le hle (Multiset.coe_nodup.mpr (nodup_unclaimed rows)))

theorem Inv.empty_chunk (h : Inv rows s) (hr : (s.locals i).returned = some []) :
    (s.locals i).left rows = [] ∧ workCount rows ≤ s.nextWork := by
  have hphase : (s.locals i).phase = .publish [] := by
    unfold Local.returned at hr
    split at hr
    · rename_i positions hp
      rw [hp, Option.some.inj hr]
    · cases hr
  have hok := h.ok i
  rw [Local.Ok, hphase] at hok
  exact ⟨by rw [Local.left, hok.1]; rfl, hok.2⟩

end

theorem length_unclaimed (rows : ScannerRows R) : (unclaimed rows 0).length = rows.all.length := by
  simpa using congrArg List.length (map_rowAt_unclaimed rows)

theorem todo_init (h : (scanning rows vectorSize).init s) :
    s.todo rows vectorSize = 5 * Fintype.card ι + 6 * rows.all.length + 2 * workCount rows := by
  cases h
  simp [State.todo, Local.todo, Local.left, Local.rank, unclaimedTodo, length_unclaimed]
  omega

/-- Every row of a scanner is returned once, whatever the order of the steps of its callbacks, and a
scan ends. -/
theorem scan_distributes [Nonempty ι] (rows : ScannerRows R) (hv : 0 < vectorSize) :
    (∀ s : State ι, (scanning rows vectorSize).Reachable s →
      s.emitted.Nodup ∧
      ((∀ i, (s.locals i).phase = .ended) →
        (s.emitted.map (rowAt · rows)).Perm (rows.all.map some)) ∧
      (∀ i, (s.locals i).returned = some [] →
        (s.locals i).left rows = [] ∧ workCount rows ≤ s.nextWork) ∧
      ((∀ i, (s.locals i).phase = .ended) ∨ ∃ i s', (scanning rows vectorSize).step s i s')) ∧
    ∀ (s s' : State ι) (steps : List ι), (scanning rows vectorSize).init s →
      (scanning rows vectorSize).Path s steps s' →
      steps.length ≤ 5 * Fintype.card ι + 6 * rows.all.length + 2 * workCount rows := by
  refine ⟨fun s hs => ?_, fun s s' steps h0 hpath => ?_⟩
  · have hinv := Inv.reachable hv hs
    refine ⟨hinv.nodup, fun he => ?_, fun i hi => hinv.empty_chunk hi, ?_⟩
    · rw [← map_rowAt_unclaimed]
      exact (hinv.complete he).map _
    · by_cases hall : ∀ i, (s.locals i).phase = .ended
      · exact .inl hall
      · obtain ⟨i, hi⟩ := not_forall.mp hall
        exact .inr ⟨i, _, hi, rfl⟩
  · have hbound := @Machine.Path.countP_le _ _ _ _ _ _ (fun _ => true) (fun _ => true)
      (State.todo rows vectorSize) hpath (.init h0) (fun _ _ => rfl)
      fun t i t' ht _ hstep => todo_step hv (Inv.reachable hv ht) hstep
    rw [todo_init h0, List.countP_true] at hbound
    omega

end

/-- The state after the local states have moved in this order; one that has ended stays. -/
def scheduled [DecidableEq ι] (rows : ScannerRows R) (vectorSize : Nat) (steps : List ι) :
    State ι :=
  steps.foldl (State.advance rows vectorSize) ⟨0, fun _ => ⟨none, 0, .idle⟩, []⟩

theorem advance_ended [DecidableEq ι] (rows : ScannerRows R) (vectorSize : Nat) {s : State ι}
    (h : (s.locals i).phase = .ended) : s.advance rows vectorSize i = s := by
  obtain ⟨next, locals, chunks⟩ := s
  have hstep : (locals i).step rows vectorSize next = (locals i, next) := by
    rw [Local.step, h]
  have hnone : (locals i).returned = none := by
    rw [Local.returned, h]
  simp [State.advance, hstep, hnone]

theorem reachable_scheduled [DecidableEq ι] (rows : ScannerRows R) (vectorSize : Nat)
    (steps : List ι) : (scanning rows vectorSize).Reachable (scheduled rows vectorSize steps) := by
  induction steps using List.reverseRecOn with
  | nil => exact .init rfl
  | append_singleton steps i ih =>
    rw [scheduled, List.foldl_append, List.foldl_cons, List.foldl_nil]
    by_cases h : ((scheduled rows vectorSize steps).locals i).phase = .ended
    · have hsame := advance_ended rows vectorSize h
      rw [scheduled] at hsame ih
      rwa [hsame]
    · exact ih.step ⟨h, rfl⟩

theorem scan_distributes_threeBatches :
    ∃ s : State Bool, (scanning (.raw [[1, 2, 3], [], [4]]) 2).Reachable s ∧
      (s.emitted.map (rowAt · (.raw [[1, 2, 3], [], [4]]))).Perm [some 1, some 2, some 3, some 4] ∧
      s.chunks.map Prod.snd = [[⟨0, 0⟩, ⟨0, 1⟩], [⟨2, 0⟩], [], [⟨0, 2⟩], []] := by
  have hr := reachable_scheduled (.raw [[1, 2, 3], [], [4]]) 2
    (List.replicate 16 [true, false]).flatten
  exact ⟨_, hr, ((scan_distributes _ (by decide)).1 _ hr).2.1 (by decide), by decide⟩

end Varve.Query.Scan
