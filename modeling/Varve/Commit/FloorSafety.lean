import Varve.Commit.Rebase

/-!
# The floors over every run

Groups, maintenance, checkpoints and policy changes move the floors one after the other under the
commit lease.
-/

namespace Varve.Commit

open Result (bind_ok)
open Engine (Table Manifest parseTimedRequestId checkedCutoff i64Min context_ok)

variable {F : Type} {s : State (Manifest F)} {group : List Request}

-- Runs

/-- A group that has left preparation with the commit lease. -/
structure Held where
  floorsBefore : Map (Option Int)
  floors : Map Int
  duplicateFloors : Map Int
  items : List AppendItem

/-- `tail` holds the requests committed after the durable root, each with whether its table had a
window then; `captured` is how many of them a checkpoint in preparation covers, and the floors it
saw. -/
structure Registry (F : Type) where
  state : State (Manifest F)
  held : Option Held
  tail : List (AppendItem × Bool)
  captured : Option (Nat × Map Int)

/-- A change of the catalog that is no checkpoint: tables keep their floor, new ones have none. -/
def FloorsKept (c c' : Manifest F) : Prop :=
  ∀ (t : Text) table', c'.tables[t]? = some table' →
    table'.idempotencyFloorUs = none ∨ ∃ table, c.tables[t]? = some table ∧
      table'.idempotencyFloorUs = table.idempotencyFloorUs

def withFloors (s : State (Manifest F)) (floors : Map Int) : State (Manifest F) :=
  { s with idempotencyFloors := floors }

def withContent (s : State (Manifest F)) (content : Manifest F) : State (Manifest F) :=
  { s with content := content }

def checkpointed (s : State (Manifest F)) : State (Manifest F) :=
  withContent s (applyIdempotencyCheckpoint s.idempotencyFloors s.content)

/-- The state after `PreparedEpoch::fail`. -/
def failed (s : State (Manifest F)) (h : Held) : State (Manifest F) :=
  installDuplicateFloors (restoreGroupFloors s h.floorsBefore) h.duplicateFloors

inductive FloorStep : Registry F → Unit → Registry F → Prop where
  /-- A pressure checkpoint of a group, whose floors are fresh. -/
  | restore (hg : w.held = none) (group : List Request) :
      FloorStep w () { w with
        state := restoreGroupFloors w.state (groupCheckpointFloors w.state group) }
  | advance (hg : w.held = none) (nowUs : Int) :
      FloorStep w () { w with state := advanceIdempotencyFloors w.state nowUs }
  | duplicates (hg : w.held = none) (group : List Request) :
      FloorStep w () { w with state := commitGroupDuplicateFloors w.state group }
  /-- The clocks of a group that adds no row, or of a direct write before its checkpoint. -/
  | extend (hg : w.held = none) (sequence : Nat) (admitted : AppendItem → Bool)
      (group : List Request) :
      FloorStep w () { w with
        state := (withFloors w.state
          (w.state.idempotencyFloors ∪ (overlay w.state sequence admitted group).floors)) }
  | prepare (hg : w.held = none) (sequence : Nat) (admitted : AppendItem → Bool)
      (group : List Request) (hi : ∀ item ∈ items, Taken w.state sequence admitted group item) :
      FloorStep w () { w with held := some ⟨groupCheckpointFloors w.state group,
        (overlay w.state sequence admitted group).floors, duplicateFloors, items⟩ }
  | fail (hh : w.held = some h) :
      FloorStep w () { w with state := failed w.state h, held := none }
  | install (hh : w.held = some h) (hc : FloorsKept w.state.content content) :
      FloorStep w () { w with
        state := installDuplicateFloors (withFloors (withContent w.state content)
          (w.state.idempotencyFloors ∪ h.floors)) h.duplicateFloors
        held := none
        tail := w.tail ++ h.items.map fun item => (item, timed w.state item.table) }
  | control (hg : w.held = none) (hc : FloorsKept w.state.content content) :
      FloorStep w () { w with state := withContent w.state content }
  | checkpoint (hg : w.held = none) :
      FloorStep w () { w with state := checkpointed w.state, tail := [], captured := none }
  | capture : FloorStep w () { w with captured := some (w.tail.length, w.state.idempotencyFloors) }
  | publish (hg : w.held = none) (hc : w.captured = some (n, w.state.idempotencyFloors)) :
      FloorStep w () { w with
        state := checkpointed w.state
        tail := w.tail.drop n
        captured := none }
  | abandon : FloorStep w () { w with captured := none }

def IssuedFrom (floor : Option Int) (item : AppendItem) : Prop :=
  ∃ issued, parseTimedRequestId item.requestId = .ok issued ∧ AtLeast (some issued) floor

/-- A committed request is allowed by the durable floor of its table. -/
def Replays (c : Manifest F) (x : AppendItem × Bool) : Prop :=
  x.2 = true → IssuedFrom (c.tables[x.1.table]?.bind (·.idempotencyFloorUs)) x.1

/-- An opened database: the floors are the durable ones, and the records after the root have been
replayed. -/
def FloorsOpened (w : Registry F) : Prop :=
  (∀ (t : Text) table, w.state.content.tables[t]? = some table →
    w.state.idempotencyFloors[t]? = table.idempotencyFloorUs) ∧
  w.held = none ∧ w.captured = none ∧ ∀ x ∈ w.tail, Replays w.state.content x

def floorMachine (F : Type) : Machine (Registry F) Unit := ⟨FloorsOpened, FloorStep⟩

-- What every change does to the floors

def Raised (floors floors' : Map Int) : Prop := ∀ t : Text, AtLeast floors'[t]? floors[t]?

theorem lookup_restore (floors : Map (Option Int)) (t : Text) :
    (restoreGroupFloors s floors).idempotencyFloors[t]? =
      floors[t]?.getD s.idempotencyFloors[t]? := by
  have h := Map.lookup_foldl (fun (live : Map Int) (p : Text × Option Int) =>
    p.2.elim (live.erase p.1) (live.insert p.1)) (fun _ v _ => v) (fun m p t => by
      cases p.2 with
      | none => simp
      | some v => simp) floors s.idempotencyFloors t
  refine Eq.trans h ?_
  cases floors[t]? <;> rfl

theorem raised_restore {floors : Map (Option Int)}
    (h : ∀ (t : Text) v, floors[t]? = some v → AtLeast v s.idempotencyFloors[t]?) :
    Raised s.idempotencyFloors (restoreGroupFloors s floors).idempotencyFloors := by
  intro t
  rw [lookup_restore]
  cases hf : floors[t]? with
  | none => exact .refl _
  | some v => exact h t v hf

theorem lookup_installDuplicateFloors (floors : Map Int) (t : Text) :
    (installDuplicateFloors s floors).idempotencyFloors[t]? =
      floors[t]?.elim s.idempotencyFloors[t]? fun floor =>
        some (s.idempotencyFloors[t]?.elim floor (max · floor)) :=
  Map.lookup_foldl (fun (live : Map Int) (p : Text × Int) =>
    live.insert p.1 (live[p.1]?.elim p.2 fun old => max old p.2))
    (fun _ v old => some (old.elim v fun old => max old v)) (fun m p t => by
      rw [Map.lookup_insert]
      split
      · rename_i he
        rw [he]
      · rfl) floors s.idempotencyFloors t

theorem raised_installDuplicateFloors (floors : Map Int) :
    Raised s.idempotencyFloors (installDuplicateFloors s floors).idempotencyFloors := by
  intro t
  rw [lookup_installDuplicateFloors]
  cases floors[t]? with
  | none => exact .refl _
  | some v =>
    intro x hx
    rw [hx]
    exact ⟨max x v, rfl, Int.le_max_left _ _⟩

theorem lookup_duplicates (floors : Map Int) (group : List Request) (t : Text) :
    (group.foldl (raiseDuplicate s) floors)[t]? =
      (group.foldl (raiseDuplicate s) ∅)[t]?.elim floors[t]? fun floor =>
        some (max (floors[t]?.getD i64Min) floor) := by
  induction group using List.reverseRecOn with
  | nil => simp
  | append_singleton group x ih =>
    simp only [List.foldl_append, List.foldl_cons, List.foldl_nil]
    match x with
    | (.error _, _) | (.ok _, some (.error _)) | (.ok _, none) => exact ih
    | (.ok item, some (.ok r)) =>
      simp only [raiseDuplicate]
      cases hd : duplicateClockFloor s item with
      | none => exact ih
      | some floor =>
        have hmin := i64Min_le_duplicateClockFloor hd
        simp only [Option.elim_some, raise, Map.lookup_insert]
        split
        · subst t
          rw [ih]
          cases (group.foldl (raiseDuplicate s) ∅)[item.table]? with
          | none =>
            simp only [Option.elim_none, Option.elim_some, Option.getD_none]
            exact congrArg some (by omega)
          | some old =>
            simp only [Option.elim_some, Option.getD_some]
            exact congrArg some (by omega)
        · exact ih

/-- A refused group leaves what it would leave without its new requests: the clocks of its durable
duplicates. -/
theorem restored_duplicates (group : List Request) :
    installDuplicateFloors (restoreGroupFloors s (groupCheckpointFloors s group))
      (group.foldl (raiseDuplicate s) ∅) = commitGroupDuplicateFloors s group := by
  refine congrArg (withFloors s) (Std.ExtTreeMap.ext_getElem? fun t => ?_)
  refine (lookup_installDuplicateFloors (s := restoreGroupFloors s _) _ t).trans ?_
  rw [lookup_restore, lookup_groupCheckpointFloors, lookup_duplicates s.idempotencyFloors]
  cases hd : (group.foldl (raiseDuplicate s) ∅)[t]? with
  | none =>
    simp only [Option.elim_none]
    cases hb : (baseline s group)[t]? with
    | none => rfl
    | some v => exact baseline_live (by simp) hb
  | some floor =>
    rw [baseline_duplicate hd]
    simp only [Option.elim_some, Option.getD_some]
    exact congrArg some (by omega)

theorem raised_advance (nowUs : Int) :
    Raised s.idempotencyFloors (advanceIdempotencyFloors s nowUs).idempotencyFloors := by
  intro t
  have h := Map.lookup_foldl (fun (floors : Map Int) (p : Text × Table F) =>
    p.2.config.idempotencyWindowUs.elim floors fun window =>
      floors.insert p.1 (max (floors[p.1]?.getD (p.2.idempotencyFloorUs.getD i64Min))
        (checkedCutoff nowUs window)))
    (fun _ table old => table.config.idempotencyWindowUs.elim old fun window =>
      some (max (old.getD (table.idempotencyFloorUs.getD i64Min)) (checkedCutoff nowUs window)))
    (fun m p t => by
      cases p.2.config.idempotencyWindowUs with
      | none => simp
      | some window =>
        simp only [Option.elim_some, Map.lookup_insert]
        split
        · rename_i he
          rw [he]
        · rfl) s.content.tables s.idempotencyFloors t
  rw [show (advanceIdempotencyFloors s nowUs).idempotencyFloors[t]? = _ from h]
  cases s.content.tables[t]? with
  | none => exact .refl _
  | some table =>
    simp only [Option.elim_some]
    cases table.config.idempotencyWindowUs with
    | none => exact .refl _
    | some window =>
      intro x hx
      rw [hx]
      exact ⟨_, rfl, Int.le_max_left _ _⟩

theorem raised_duplicates (group : List Request) :
    Raised s.idempotencyFloors (commitGroupDuplicateFloors s group).idempotencyFloors := by
  unfold commitGroupDuplicateFloors
  generalize s.idempotencyFloors = floors
  induction group generalizing floors with
  | nil => exact fun t => .refl _
  | cons x group ih =>
    refine fun t => (ih _ t).trans ?_
    unfold raiseDuplicate
    split
    · cases duplicateClockFloor s _ with
      | none => exact .refl _
      | some floor =>
        simp only [Option.elim_some, raise, Map.lookup_insert]
        split
        · subst t
          exact atLeast_some (Int.le_max_left _ _)
        · exact .refl _
    · exact .refl _

theorem raised_overlay (sequence : Nat) (admitted : AppendItem → Bool) (group : List Request) :
    Raised s.idempotencyFloors
      (s.idempotencyFloors ∪ (overlay s sequence admitted group).floors) := by
  intro t
  rw [Std.ExtTreeMap.getElem?_union]
  exact overlay_live group t

-- The invariant

theorem checkIssued_ok {table : Table F} : checkIssued table true item = .ok () ↔
    IssuedFrom table.idempotencyFloorUs item := by
  simp only [checkIssued, if_true]
  rw [bind_ok]
  simp only [Result.ensure_ok, Option.all_eq_true, decide_eq_true_eq, IssuedFrom]
  refine exists_congr fun issued => and_congr_right fun _ => ?_
  exact ⟨fun h x hx => ⟨issued, rfl, h x hx⟩, fun h x hx => by
    obtain ⟨_, ⟨⟩, hle⟩ := h x hx
    exact hle⟩

theorem IssuedFrom.mono (h : IssuedFrom a item) (hab : AtLeast a b) : IssuedFrom b item := by
  obtain ⟨issued, hp, ha⟩ := h
  exact ⟨issued, hp, ha.trans hab⟩

theorem Taken.issuedFrom {sequence : Nat} (h : Taken s sequence admitted group item)
    (ht : timed s item.table = true) : IssuedFrom s.idempotencyFloors[item.table]? item := by
  obtain ⟨table, htab, hw⟩ := (Option.any_eq_true _ _).mp ht
  obtain ⟨window, hw⟩ := Option.isSome_iff_exists.mp hw
  obtain ⟨issued, hp, hle⟩ := h.issued htab hw
  exact ⟨issued, hp, atLeast_some hle⟩

structure FloorInv (w : Registry F) : Prop where
  durable : ∀ (t : Text) table, w.state.content.tables[t]? = some table →
    AtLeast w.state.idempotencyFloors[t]? table.idempotencyFloorUs
  before : ∀ h, w.held = some h → ∀ (t : Text) v, h.floorsBefore[t]? = some v →
    AtLeast v w.state.idempotencyFloors[t]?
  pending : ∀ h, w.held = some h →
    Raised w.state.idempotencyFloors (w.state.idempotencyFloors ∪ h.floors)
  items : ∀ h, w.held = some h → ∀ item ∈ h.items, timed w.state item.table = true →
    IssuedFrom w.state.idempotencyFloors[item.table]? item
  tail : ∀ x ∈ w.tail, Replays w.state.content x
  captured : ∀ n f, w.captured = some (n, f) → Raised f w.state.idempotencyFloors ∧
    ∀ x ∈ w.tail.drop n, x.2 = true → IssuedFrom f[x.1.table]? x.1

variable {w : Registry F}

theorem floorInv_opened (h : FloorsOpened w) : FloorInv w := by
  obtain ⟨hd, hh, hc, ht⟩ := h
  refine ⟨fun t table htab => ?_, ?_, ?_, ?_, ht, ?_⟩
  · rw [hd t table htab]
    exact .refl _
  · simp [hh]
  · simp [hh]
  · simp [hh]
  · simp [hc]

theorem FloorInv.raise (hi : FloorInv w) (hc : s.content = w.state.content)
    (hr : Raised w.state.idempotencyFloors s.idempotencyFloors) :
    FloorInv { w with state := s, held := none } where
  durable t table ht := (hr t).trans (hi.durable t table (hc ▸ ht))
  before := by rintro h ⟨⟩
  pending := by rintro h ⟨⟩
  items := by rintro h ⟨⟩
  tail x hx := hc ▸ hi.tail x hx
  captured n f hcap :=
    ⟨fun t => (hr t).trans ((hi.captured n f hcap).1 t), (hi.captured n f hcap).2⟩

/-- The durable floor of a table, of which an unknown table has none. -/
def durableFloor (c : Manifest F) (t : Text) : Option Int :=
  c.tables[t]?.bind (·.idempotencyFloorUs)

theorem FloorsKept.atLeast {c c' : Manifest F} (h : FloorsKept c c') (t : Text) :
    AtLeast (durableFloor c t) (durableFloor c' t) := by
  cases ht : c'.tables[t]? with
  | none =>
    rw [durableFloor, durableFloor, ht]
    exact .none _
  | some table' =>
    obtain hn | ⟨table, htab, he⟩ := h t table' ht
    · rw [durableFloor, durableFloor, ht, Option.bind_some, hn]
      exact .none _
    · rw [durableFloor, durableFloor, ht, htab, Option.bind_some, Option.bind_some, he]
      exact .refl _

theorem FloorInv.live (hi : FloorInv w) (t : Text) :
    AtLeast w.state.idempotencyFloors[t]? (durableFloor w.state.content t) := by
  cases ht : w.state.content.tables[t]? with
  | none =>
    rw [durableFloor, ht]
    exact .none _
  | some table =>
    rw [durableFloor, ht]
    exact hi.durable t table ht

theorem pruned_config (floors : Map Int) (table : Table F) :
    (pruned floors t table).config = table.config := by
  unfold pruned
  split
  · rfl
  · cases floors[t]? <;> rfl

theorem lookup_filter {m : Map α} {f : Text → α → Bool} {k : Text} {v : α} :
    (m.filter f)[k]? = some v ↔ m[k]? = some v ∧ f k v = true := by
  rw [Std.ExtTreeMap.getElem?_filter', Option.filter_eq_some_iff]

theorem pruned_receipts {floors : Map Int} {table : Table F} {k t : Text}
    (h : (pruned floors t table).receipts[k]? = some r) : table.receipts[k]? = some r := by
  unfold pruned at h
  split at h
  · exact h
  · cases hf : floors[t]? with
    | none =>
      rw [hf] at h
      exact (lookup_filter.mp h).1
    | some live =>
      rw [hf] at h
      exact (lookup_filter.mp (lookup_filter.mp h).1).1

theorem elim_max (h : AtLeast (some live) old) : old.elim live (max live) = live := by
  cases old with
  | none => rfl
  | some x =>
    obtain ⟨_, ⟨⟩, hle⟩ := h x rfl
    exact max_eq_left hle

theorem pruned_receipt {floors : Map Int} {table : Table F} {k t : Text}
    (h : AtLeast floors[t]? table.idempotencyFloorUs) (hr : table.receipts[k]? = some r) :
    (pruned floors t table).receipts[k]? = some r ∨
      (pruned floors t table).receipts[k]? = none ∧ table.config.idempotencyWindowUs.isSome ∧
        ∀ issued, r.issuedUs = some issued → ∃ live, floors[t]? = some live ∧ issued < live := by
  by_cases hw : table.config.idempotencyWindowUs.isNone = true
  · left
    rw [pruned, if_pos hw]
    exact hr
  · have hsome := Option.isSome_iff_ne_none.mpr (mt Option.isNone_iff_eq_none.mpr hw)
    rw [pruned, if_neg hw]
    cases hf : floors[t]? with
    | none =>
      cases hi : r.issuedUs with
      | none => exact .inr ⟨by simp [hr, hi], hsome, by simp⟩
      | some issued => exact .inl (lookup_filter.mpr ⟨hr, by rw [hi]; rfl⟩)
    | some live =>
      simp only [Option.elim_some, elim_max (hf ▸ h)]
      cases hi : r.issuedUs with
      | none => exact .inr ⟨by simp [hr, hi], hsome, by simp⟩
      | some issued =>
        by_cases hle : live ≤ issued
        · refine .inl (lookup_filter.mpr ⟨lookup_filter.mpr ⟨hr, by rw [hi]; rfl⟩, ?_⟩)
          simp [hi, hle]
        · refine .inr ⟨by simp [hr, hi, hle], hsome, ?_⟩
          rintro _ ⟨⟩
          exact ⟨live, rfl, Int.not_le.mp hle⟩

theorem tables_checkpointed (t : Text) : (checkpointed s).content.tables[t]? =
    s.content.tables[t]?.map (pruned s.idempotencyFloors t) := by
  simp only [checkpointed, withContent, applyIdempotencyCheckpoint, Std.ExtTreeMap.getElem?_map]

theorem lookup_checkpointed (t : Text) :
    durableFloor (checkpointed s).content t =
      s.content.tables[t]?.bind fun table =>
        if table.config.idempotencyWindowUs.isNone then table.idempotencyFloorUs
        else s.idempotencyFloors[t]?.elim table.idempotencyFloorUs fun live =>
          some (table.idempotencyFloorUs.elim live (max live)) := by
  rw [durableFloor, tables_checkpointed]
  cases s.content.tables[t]? with
  | none => rfl
  | some table =>
    simp only [Option.map_some, Option.bind_some, pruned]
    split
    · rfl
    · cases s.idempotencyFloors[t]? <;> rfl

theorem checkpointed_floor (hd : AtLeast s.idempotencyFloors[t]? (durableFloor s.content t))
    (hl : AtLeast a s.idempotencyFloors[t]?) :
    AtLeast a (durableFloor (checkpointed s).content t) := by
  refine hl.trans ?_
  rw [lookup_checkpointed]
  unfold durableFloor at hd
  cases ht : s.content.tables[t]? with
  | none => exact .none _
  | some table =>
    rw [ht, Option.bind_some] at hd
    simp only [Option.bind_some]
    split
    · exact hd
    · cases hlive : s.idempotencyFloors[t]? with
      | none =>
        rw [hlive] at hd
        exact hd
      | some live =>
        rw [hlive] at hd
        simp only [Option.elim_some]
        rintro x ⟨⟩
        refine ⟨live, rfl, ?_⟩
        cases hf : table.idempotencyFloorUs with
        | none => exact Int.le_refl _
        | some old =>
          obtain ⟨_, ⟨⟩, hle⟩ := hd old hf
          simp only [Option.elim_some]
          omega

theorem FloorInv.control {content : Manifest F} (hi : FloorInv w)
    (hg : w.held = none) (hk : FloorsKept w.state.content content) :
    FloorInv { w with state := withContent w.state content } where
  durable t table' ht := by
    have h := (hi.live t).trans (hk.atLeast t)
    rw [durableFloor, show content.tables[t]? = some table' from ht] at h
    exact h
  before h hh := by simp [hg] at hh
  pending h hh := by simp [hg] at hh
  items h hh := by simp [hg] at hh
  tail x hx hb := (hi.tail x hx hb).mono (hk.atLeast x.1.table)
  captured := hi.captured

theorem FloorInv.publish {tail : List (AppendItem × Bool)} (hi : FloorInv w)
    (hg : w.held = none) (ht : ∀ x ∈ tail, x ∈ w.tail ∧
      (x.2 = true → IssuedFrom w.state.idempotencyFloors[x.1.table]? x.1)) :
    FloorInv { w with state := checkpointed w.state, tail := tail, captured := none } where
  durable t table' hm := by
    have h := checkpointed_floor (hi.live t) (.refl _)
    rw [durableFloor, hm] at h
    exact h
  before h hh := by simp [hg] at hh
  pending h hh := by simp [hg] at hh
  items h hh := by simp [hg] at hh
  tail x hx hb := ((ht x hx).2 hb).mono (checkpointed_floor (hi.live _) (.refl _))
  captured := by rintro n f ⟨⟩

theorem FloorInv.install {content : Manifest F} (hi : FloorInv w)
    (hh : w.held = some h) (hk : FloorsKept w.state.content content) :
    FloorInv { w with
      state := installDuplicateFloors (withFloors (withContent w.state content)
        (w.state.idempotencyFloors ∪ h.floors)) h.duplicateFloors
      held := none
      tail := w.tail ++ h.items.map fun item => (item, timed w.state item.table) } := by
  have hr : Raised w.state.idempotencyFloors (installDuplicateFloors (withFloors
      (withContent w.state content) (w.state.idempotencyFloors ∪ h.floors))
      h.duplicateFloors).idempotencyFloors := fun t =>
    (raised_installDuplicateFloors h.duplicateFloors t).trans (hi.pending h hh t)
  have hnew : ∀ x ∈ h.items.map fun item => (item, timed w.state item.table), x.2 = true →
      IssuedFrom w.state.idempotencyFloors[x.1.table]? x.1 := by
    intro x hx hb
    obtain ⟨item, hm, rfl⟩ := List.mem_map.mp hx
    exact hi.items h hh item hm hb
  refine ⟨fun t table' ht => ?_, by rintro _ ⟨⟩, by rintro _ ⟨⟩, by rintro _ ⟨⟩,
    fun x hx hb => ?_, fun n f hc => ?_⟩
  · have h := (hr t).trans ((hi.live t).trans (hk.atLeast t))
    rw [durableFloor, show content.tables[t]? = some table' from ht] at h
    exact h
  · rcases List.mem_append.mp hx with hx | hx
    · exact (hi.tail x hx hb).mono (hk.atLeast x.1.table)
    · exact (hnew x hx hb).mono ((hi.live _).trans (hk.atLeast x.1.table))
  · obtain ⟨hf, hold⟩ := hi.captured n f hc
    refine ⟨fun t => (hr t).trans (hf t), fun x hx hb => ?_⟩
    rw [List.drop_append] at hx
    rcases List.mem_append.mp hx with hx | hx
    · exact hold x hx hb
    · exact (hnew x (List.mem_of_mem_drop hx) hb).mono (hf x.1.table)

theorem floorInv_step {w w' : Registry F} (hi : FloorInv w) (hs : FloorStep w () w') :
    FloorInv w' := by
  have hgroup : ∀ group (t : Text) v, (groupCheckpointFloors w.state group)[t]? = some v →
      AtLeast v w.state.idempotencyFloors[t]? := fun _ _ _ => groupCheckpointFloors_live
  have hkeep : ∀ {s : State (Manifest F)}, w.held = none → s.content = w.state.content →
      Raised w.state.idempotencyFloors s.idempotencyFloors → FloorInv { w with state := s } :=
    fun hg hc hr => by simpa [hg] using hi.raise hc hr
  cases hs with
  | restore hg group => exact hkeep hg rfl (raised_restore (hgroup group))
  | advance hg nowUs => exact hkeep hg rfl (raised_advance nowUs)
  | duplicates hg group => exact hkeep hg rfl (raised_duplicates group)
  | extend hg sequence admitted group =>
    exact hkeep hg rfl (raised_overlay sequence admitted group)
  | prepare hg sequence admitted group hitems =>
    refine { hi with before := ?_, pending := ?_, items := ?_ }
    · rintro _ ⟨⟩
      exact hgroup group
    · rintro _ ⟨⟩
      exact raised_overlay sequence admitted group
    · rintro _ ⟨⟩ item hm ht
      exact (hitems item hm).issuedFrom ht
  | fail hh =>
    exact hi.raise rfl fun t =>
      (raised_installDuplicateFloors _ t).trans (raised_restore (hi.before _ hh) t)
  | install hh hk => exact hi.install hh hk
  | control hg hk => exact hi.control hg hk
  | checkpoint hg => exact hi.publish hg (by simp)
  | capture =>
    refine { hi with captured := ?_ }
    rintro n f ⟨⟩
    exact ⟨fun t => .refl _, by simp⟩
  | publish hg hc =>
    exact hi.publish hg fun x hx => ⟨List.mem_of_mem_drop hx, (hi.captured _ _ hc).2 x hx⟩
  | abandon =>
    refine { hi with captured := ?_ }
    rintro n f ⟨⟩

-- Results

/-- After a restore no table is below what it was, nor below its durable floor. -/
def RestoresUp (s : State (Manifest F)) (floors : Map (Option Int)) : Prop :=
  ∀ t : Text, AtLeast (restoreGroupFloors s floors).idempotencyFloors[t]? s.idempotencyFloors[t]? ∧
    AtLeast (restoreGroupFloors s floors).idempotencyFloors[t]? (durableFloor s.content t)

/-- The state of a group after the checkpoint that makes room for it. -/
def makeRoom (s : State (Manifest F)) (group : List Request) : State (Manifest F) :=
  checkpointed (restoreGroupFloors s (groupCheckpointFloors s group))

/-- The receipts that the group names in tables with a window have the issue times of their ids. -/
def Timestamped (s : State (Manifest F)) (group : List Request) : Prop :=
  ∀ item outcome table receipt, (.ok item, outcome) ∈ group →
    s.content.tables[item.table]? = some table → table.config.idempotencyWindowUs.isSome →
    table.receipts[item.requestId]? = some receipt →
    receipt.issuedUs = (parseTimedRequestId item.requestId).toOption

def AllSpared (s : State (Manifest F)) (sequence : Nat) (admitted : AppendItem → Bool)
    (group : List Request) : Prop :=
  ∀ item issued, Eligible s sequence admitted group item →
    parseTimedRequestId item.requestId = .ok issued → Spared s group item.table issued

structure FloorsSafe (w : Registry F) : Prop where
  chosen : ∀ group (t : Text) floor, (groupCheckpointFloors w.state group)[t]? = some floor →
    AtLeast floor w.state.idempotencyFloors[t]? ∧ AtLeast floor (durableFloor w.state.content t)
  /-- The chosen floors allow a request that is still eligible exactly if it is spared. -/
  eligible : ∀ group sequence admitted item issued, Eligible w.state sequence admitted group item →
    parseTimedRequestId item.requestId = .ok issued →
    ((∀ floor, (groupCheckpointFloors w.state group)[item.table]? = some (some floor) →
      floor ≤ issued) ↔ Spared w.state group item.table issued)
  /-- A checkpoint that makes room for the group makes none of them fail, if all are spared. -/
  room : ∀ group sequence admitted, Timestamped w.state group →
    AllSpared w.state sequence admitted group → ∀ item,
      Eligible w.state sequence admitted group item →
    Taken (makeRoom w.state group) sequence admitted group item ∧
      preflightFloor (makeRoom w.state group).content item = .ok ()
  restored : ∀ group, RestoresUp w.state (groupCheckpointFloors w.state group)
  failed : ∀ h, w.held = some h → RestoresUp w.state h.floorsBefore
  /-- Whatever passes the retry passes the preflight, also after a checkpoint. -/
  live : ∀ group sequence admitted item, Taken w.state sequence admitted group item →
    preflightFloor w.state.content item = .ok ()
  replayed : ∀ x ∈ w.tail, ∀ table, w.state.content.tables[x.1.table]? = some table →
    checkIssued table x.2 x.1 = .ok ()

theorem Taken.preflight {sequence : Nat} (hi : FloorInv w)
    (h : Taken w.state sequence admitted group item) :
    preflightFloor w.state.content item = .ok () := by
  obtain ⟨_, _, ⟨r, o'⟩, _, hr⟩ := id h
  obtain ⟨table, -, ht, -⟩ := retry_ok.mp hr
  refine bind_ok.mpr ⟨table, context_ok.mpr ht, ?_⟩
  cases hw : table.config.idempotencyWindowUs.isSome with
  | false => rfl
  | true =>
    exact checkIssued_ok.mpr ((h.issuedFrom (by rw [timed_eq ht, hw])).mono (hi.durable _ _ ht))

theorem rebased_makeRoom (hi : FloorInv w) (hts : Timestamped w.state group) :
    Rebased w.state (makeRoom w.state group) group := by
  have hraised := raised_restore (s := w.state) fun t v
    (h : (groupCheckpointFloors w.state group)[t]? = some v) => groupCheckpointFloors_live h
  refine ⟨hraised, fun t => ?_, fun item outcome table table' hm ht ht' => ?_⟩
  · rw [makeRoom, tables_checkpointed, Option.map_map]
    exact congrArg (Option.map · _) (funext fun table => pruned_config _ table)
  · rw [makeRoom, tables_checkpointed] at ht'
    obtain ⟨_, htable, rfl⟩ := Option.map_eq_some_iff.mp ht'
    cases ht.symm.trans htable
    cases hr : table.receipts[item.requestId]? with
    | none =>
      left
      cases hp : (pruned _ item.table table).receipts[item.requestId]? with
      | none => rfl
      | some r => exact absurd (hr.symm.trans (pruned_receipts hp)) (by simp)
    | some r =>
      refine (pruned_receipt ((hraised _).trans (hi.durable _ _ ht)) hr).imp id ?_
      rintro ⟨hgone, hw, hbelow⟩
      refine ⟨hgone, hw, fun issued hp => hbelow issued ?_⟩
      rw [hts item outcome table r hm ht hw hr, hp]
      rfl

theorem keeps_makeRoom {sequence : Nat} (hs : AllSpared s sequence admitted group) :
    Keeps s (makeRoom s group) sequence admitted group := by
  intro item he _ issued hp floor hf
  obtain ⟨htaken, table, ht, hw, -⟩ := id he
  replace hf : (restoreGroupFloors s _).idempotencyFloors[item.table]? = some floor := hf
  rw [lookup_restore] at hf
  cases hc : (groupCheckpointFloors s group)[item.table]? with
  | none =>
    obtain ⟨window, hwindow⟩ := Option.isSome_iff_exists.mp hw
    obtain ⟨issued', hp', hlive⟩ := htaken.issued ht hwindow
    cases hp.symm.trans hp'
    rw [hc, Option.getD_none] at hf
    rw [hf] at hlive
    exact hlive
  | some v =>
    rw [hc, Option.getD_some] at hf
    exact (groupCheckpointFloors_le_iff htaken ht hw hp).mpr (hs item issued he hp) floor (hf ▸ hc)

/-- A table with a window of 1000 microseconds and one receipt. -/
def metrics : Table Unit where
  config := ⟨1, 1000000, none, none, none, [], none, some 1000⟩
  creationConfig := none
  createdSequence := 1
  segments := []
  receipts := (∅ : Map _).insert "v1:1500:c".toList
    ⟨2, 1, "dc".toList, some 1500, none⟩
  rollups := ∅
  cutoffUs := none
  rollupCutoffUs := none
  idempotencyFloorUs := none

def metricsState : State (Manifest Unit) where
  content := ⟨1, [], 0, false, (∅ : Map _).insert "metrics".toList metrics, ∅, ∅, []⟩
  sequence := 2
  generation := 2
  walBytes := 0
  hotEpochs := []
  idempotencyFloors := ∅
  fenced := none

def metricsItem (requestId digest : String) (nowUs : Int) : AppendItem :=
  ⟨"metrics".toList, requestId.toList, 1, digest.toList, nowUs⟩

/-- A new request, one that repeats its id with other data and a late clock, an older request, and
a retry of the durable one. -/
def conflicting : List Request :=
  [(.ok (metricsItem "v1:1000:x" "da" 100), none),
    (.ok (metricsItem "v1:1000:x" "db" 1000), none),
    (.ok (metricsItem "v1:-500:d" "dd" 200), none),
    (.ok (metricsItem "v1:1500:c" "dc" 900), some (.ok ⟨2, 1, true⟩))]

def metricsOpened : Registry Unit := ⟨metricsState, none, [], none⟩

theorem opened_metrics : FloorsOpened metricsOpened := by
  refine ⟨fun t table ht => ?_, rfl, rfl, by simp [metricsOpened]⟩
  simp only [metricsOpened, metricsState, Map.lookup_insert] at ht ⊢
  split at ht
  · cases ht
    simp [metrics]
  · simp at ht

end Varve.Commit
