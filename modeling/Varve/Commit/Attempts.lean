import Varve.Commit.Driver
import Varve.Commit.Safety

/-!
# What an attempt leaves

Every step of `prepare_group_attempts` lets the sequence, the log and the live floors only grow,
whether it succeeds or not.
-/

namespace Varve.Commit

open Result (bind_ok)
open Journal (Digest)
open Engine (F64 Table Manifest Segment)
open Effect (Spec)

variable {F D P : Type} {sv : Services F D P} {limits : Limits} {mode : WriteMode}

def LiveFloors (s : State (Manifest F)) : Prop :=
  ∀ t : Text, AtLeast s.idempotencyFloors[t]? (durableFloor s.content t)

/-- From one database to a later one, with the records that these writes have added. -/
structure Grows (db db' : Db F) (records : List (Record F)) : Prop where
  sequence : db.state.sequence ≤ db'.state.sequence
  wal : db.world.wal <+: db'.world.wal
  committed : db'.committed = db.committed ++ records
  live : LiveFloors db.state → LiveFloors db'.state
  bounds : ∀ r ∈ records, db.state.sequence < r.sequence ∧ r.sequence ≤ db'.state.sequence ∧
    ⟨r.sequence, r.bytes⟩ ∈ db'.world.wal
  sorted : records.Pairwise fun a b => a.sequence < b.sequence

theorem Grows.trans {a b c : Db F} (h : Grows a b r) (h' : Grows b c r') :
    Grows a c (r ++ r') where
  sequence := h.sequence.trans h'.sequence
  wal := h.wal.trans h'.wal
  committed := by rw [h'.committed, h.committed, List.append_assoc]
  live hl := h'.live (h.live hl)
  bounds x hx := by
    rcases List.mem_append.mp hx with hx | hx
    · obtain ⟨hlt, hle, hmem⟩ := h.bounds x hx
      exact ⟨hlt, hle.trans h'.sequence, h'.wal.subset hmem⟩
    · obtain ⟨hlt, hle, hmem⟩ := h'.bounds x hx
      exact ⟨h.sequence.trans_lt hlt, hle, hmem⟩
  sorted := by
    refine List.pairwise_append.mpr ⟨h.sorted, h'.sorted, fun x hx y hy => ?_⟩
    exact (h.bounds x hx).2.1.trans_lt (h'.bounds y hy).1

theorem grows_of {db db' : Db F} (hs : db'.state.sequence = db.state.sequence)
    (hw : db'.world.wal = db.world.wal) (hc : db'.committed = db.committed)
    (hl : LiveFloors db.state → LiveFloors db'.state) : Grows db db' [] where
  sequence := hs.ge
  wal := hw ▸ List.prefix_rfl
  committed := by rw [hc, List.append_nil]
  live := hl
  bounds := by simp
  sorted := .nil

theorem Grows.refl (db : Db F) : Grows db db [] := grows_of rfl rfl rfl id

theorem LiveFloors.raise {s s' : State (Manifest F)} (h : LiveFloors s)
    (hc : s'.content = s.content) (hr : Raised s.idempotencyFloors s'.idempotencyFloors) :
    LiveFloors s' := by
  intro t
  rw [hc]
  exact (hr t).trans (h t)

/-- The others keep to the same rules, and what an input adds to the catalog leaves the durable
floors alone. -/
structure Services.Honest (sv : Services F D P) : Prop where
  others : ∀ n db, Grows db (sv.others n db) []
  offLock : ∀ n db, Grows db (sv.offLock n db).2 []
  install : ∀ d c, FloorsKept c (sv.install d c)

theorem grows_onState {db : Db F} {f : State (Manifest F) → State (Manifest F)}
    (hs : (f db.state).sequence = db.state.sequence) (hc : (f db.state).content = db.state.content)
    (hr : Raised db.state.idempotencyFloors (f db.state).idempotencyFloors) :
    Grows db (db.onState f) [] :=
  grows_of hs rfl rfl fun h => h.raise hc hr

theorem durableFloor_addSegments (segments : Text → List Segment) (c : Manifest F) (t : Text) :
    durableFloor (addSegments segments c) t = durableFloor c t := by
  simp only [durableFloor, addSegments, Std.ExtTreeMap.getElem?_map]
  cases c.tables[t]? <;> rfl

theorem grows_checkpointed (db : Db F) (segments : Text → List Segment)
    (walBytes generation : Nat) :
    Grows db (db.checkpointed segments walBytes generation) [] := by
  refine grows_of rfl rfl rfl fun h t => ?_
  show AtLeast db.state.idempotencyFloors[t]?
    (durableFloor (addSegments segments (checkpointed db.state).content) t)
  rw [durableFloor_addSegments]
  exact checkpointed_floor (h t) (.refl _)

def Duplicates (entries : List (Entry F)) : Prop :=
  ∀ e ∈ entries, ∀ r, e.durable = some (.ok r) → r.duplicate = true

/-- What every step of a call keeps, and an error with it. -/
structure Since (db₀ : Db F) (inputs : List (Input F)) (s : Session F) : Prop where
  grows : Grows db₀ s.db []
  inputs : s.entries.map Entry.input = inputs
  duplicates : Duplicates s.entries

structure SameFlags (s s' : Session F) : Prop where
  entries : s'.entries = s.entries
  checkpointRetry : s'.checkpointRetry = s.checkpointRetry
  offlockUsed : s'.offlockUsed = s.offlockUsed

section
variable {db₀ : Db F} {inputs : List (Input F)} {s : Session F}

theorem SameFlags.refl (s : Session F) : SameFlags s s := ⟨rfl, rfl, rfl⟩

theorem Since.db (h : Since db₀ inputs s) {db : Db F} (hg : Grows s.db db []) :
    Since db₀ inputs { s with db := db } :=
  ⟨h.grows.trans hg, h.inputs, h.duplicates⟩

theorem Since.flags (h : Since db₀ inputs s) (initial retry off : Bool) :
    Since db₀ inputs ⟨s.db, s.entries, initial, retry, off⟩ :=
  ⟨h.grows, h.inputs, h.duplicates⟩

theorem ask_spec (h : Since db₀ inputs s) :
    Spec ask s (Since db₀ inputs) fun n s' =>
      n = s.db.tick ∧ s' = { s with db := { s.db with tick := s.db.tick + 1 } } := by
  refine Spec.get_bind (Spec.modify_bind (Spec.pure ?_ ⟨rfl, rfl⟩))
  exact h.db (grows_of rfl rfl rfl id)

theorem lockGate_spec (h : Since db₀ inputs s) :
    Spec lockGate s (Since db₀ inputs) fun _ s' => SameFlags s s' := by
  refine Spec.get_bind (Spec.lift_bind h fun held _ => Spec.modify ?_ ⟨rfl, rfl, rfl⟩)
  exact h.db (grows_of rfl rfl rfl id)

theorem enter_spec (hsv : sv.Honest) (h : Since db₀ inputs s) :
    Spec (enter sv) s (Since db₀ inputs) fun _ s' => SameFlags s s' := by
  refine Spec.bind (ask_spec h) ?_
  rintro n _ h₁ ⟨rfl, rfl⟩
  have h₂ := h₁.db (hsv.others s.db.tick _)
  refine Spec.modify_bind (Spec.bind (lockGate_spec h₂) fun _ s₁ h₁ hf => ?_)
  exact Spec.get_bind (Spec.lift h₁ fun _ _ => ⟨hf.entries, hf.checkpointRetry, hf.offlockUsed⟩)

end

-- Checkpoints under the locks

theorem dueWith_of {s : State (Manifest F)} {floor : Text → Option Int}
    (h : ∀ (t : Text) table, s.content.tables[t]? = some table → dueTable floor t table = false) :
    dueWith s floor = false := by
  rw [dueWith, List.any_eq_false]
  intro p hp
  rw [h p.1 p.2 (Map.mem_toList.mp hp)]
  exact Bool.false_ne_true

theorem dueTable_of {floor : Text → Option Int} {table : Table F}
    (hn : ∀ (k : Text) r, table.receipts[k]? = some r → r.issuedUs.isSome = true)
    (hf : ∀ f, floor t = some f → table.idempotencyFloorUs = some f ∧
      ∀ (k : Text) r i, table.receipts[k]? = some r → r.issuedUs = some i → f ≤ i) :
    dueTable floor t table = false := by
  have hissued : table.receipts.toList.any (fun r => r.2.issuedUs.isNone) = false := by
    rw [List.any_eq_false]
    intro p hp hnone
    have := hn p.1 p.2 (Map.mem_toList.mp hp)
    rw [Option.isNone_iff_eq_none.mp hnone] at this
    cases this
  rw [dueTable, hissued, Bool.false_or]
  cases hfloor : floor t with
  | none => simp
  | some f =>
    obtain ⟨htable, hold⟩ := hf f hfloor
    have hany : table.receipts.toList.any (fun r => r.2.issuedUs.any (· < f)) = false := by
      rw [List.any_eq_false]
      intro p hp hlt
      cases hi : p.2.issuedUs with
      | none =>
        rw [hi] at hlt
        cases hlt
      | some i =>
        have hle := hold p.1 p.2 i (Map.mem_toList.mp hp) hi
        rw [hi, Option.any_some, decide_eq_true_eq] at hlt
        exact absurd hlt (Int.not_lt.mpr hle)
    simp [htable, hany]

theorem due_pruned {floors : Map Int} {table : Table F}
    (h : AtLeast floors[t]? table.idempotencyFloorUs) :
    dueTable (fun t => floors[t]?) t (pruned floors t table) = false := by
  by_cases hw : table.config.idempotencyWindowUs.isNone = true
  · have : table.config.idempotencyWindowUs.isSome = false := by
      rw [Option.isNone_iff_eq_none.mp hw]
      rfl
    rw [dueTable, pruned_config, this, Bool.false_and]
  · refine dueTable_of (fun k r hr => ?_) fun f hf => ?_
    · rw [pruned, if_neg hw] at hr
      cases hl : floors[t]? with
      | none =>
        rw [hl] at hr
        exact (lookup_filter.mp hr).2
      | some live =>
        rw [hl] at hr
        exact (lookup_filter.mp (lookup_filter.mp hr).1).2
    · have hfloor := elim_max (hf ▸ h)
      rw [pruned, if_neg hw, hf, Option.elim_some]
      simp only [hfloor, true_and]
      intro k r i hr hi
      have := (lookup_filter.mp hr).2
      rw [hi] at this
      simpa using this

/-- What a checkpoint under the locks does to the receipts and the floors. -/
structure Settles (s s' : State (Manifest F)) : Prop where
  floors : s'.idempotencyFloors = s.idempotencyFloors
  table : ∀ (t : Text) table, s.content.tables[t]? = some table → ∃ table',
    s'.content.tables[t]? = some table' ∧ table'.config = table.config ∧
      ∀ k : Text, table.receipts[k]? = none → table'.receipts[k]? = none
  due : LiveFloors s → idempotencyCheckpointDue s' = false

theorem settles_checkpointed (db : Db F) (segments : Text → List Segment)
    (walBytes generation : Nat) :
    Settles db.state (db.checkpointed segments walBytes generation).state := by
  have hlookup (t : Text) :
      (db.checkpointed segments walBytes generation).state.content.tables[t]? =
      db.state.content.tables[t]?.map fun table =>
        { pruned db.state.idempotencyFloors t table with
          segments := (pruned db.state.idempotencyFloors t table).segments ++ segments t } := by
    show (addSegments segments (checkpointed db.state).content).tables[t]? = _
    rw [addSegments, Std.ExtTreeMap.getElem?_map, tables_checkpointed, Option.map_map]
    rfl
  refine ⟨rfl, fun t table ht => ⟨_, by rw [hlookup, ht]; rfl, ?_, fun k hk => ?_⟩, fun h => ?_⟩
  · exact pruned_config _ _
  · cases hr : (pruned db.state.idempotencyFloors t table).receipts[k]? with
    | none => rfl
    | some r =>
      rw [pruned_receipts hr] at hk
      cases hk
  · refine dueWith_of fun t table' ht => ?_
    rw [hlookup] at ht
    obtain ⟨table, htable, rfl⟩ := Option.map_eq_some_iff.mp ht
    have hlive := h t
    rw [durableFloor, htable] at hlive
    exact due_pruned hlive

section
variable {db₀ : Db F} {inputs : List (Input F)} {s : Session F}

theorem checkpointLocked_spec (h : Since db₀ inputs s) :
    Spec (checkpointLocked sv) s (Since db₀ inputs) fun _ s' =>
      SameFlags s s' ∧ Settles s.db.state s'.db.state := by
  refine Spec.get_bind ?_
  split
  · rename_i hup
    refine Spec.pure h ⟨.refl s, rfl, fun t table ht => ⟨table, ht, rfl, fun _ hk => hk⟩, ?_⟩
    intro _
    simp only [upToDate, Bool.and_eq_true, Bool.not_eq_true'] at hup
    exact hup.1.2
  · refine Spec.bind (ask_spec h) ?_
    rintro n _ h₁ ⟨-, rfl⟩
    cases hlocked : sv.locked n with
    | failed message fence =>
      refine Spec.modify_bind (Spec.lift ?_ fun _ he => nomatch he)
      exact h₁.db (grows_of rfl rfl rfl id)
    | done segments walBytes generation swept =>
      refine Spec.modify_bind (Spec.lift ?_ fun _ _ => ⟨⟨rfl, rfl, rfl⟩, ?_⟩)
      · exact h₁.db (grows_checkpointed _ _ _ _)
      · exact settles_checkpointed { s.db with tick := s.db.tick + 1 } segments walBytes generation

theorem pressure_spec (hsv : sv.Honest) (h : Since db₀ inputs s) :
    Spec (pressure sv limits) s (Since db₀ inputs) fun _ s' =>
      SameFlags s s' ∧
        (limits.checkpointFrozenPrefix = false → Settles s.db.state s'.db.state) := by
  unfold pressure
  split
  · rename_i hfrozen
    have h₁ : Since db₀ inputs { s with db := s.db.leave } := h.db (grows_of rfl rfl rfl id)
    have h₂ := h₁.db (hsv.offLock s.db.tick s.db.leave)
    refine Spec.get_bind (Spec.modify_bind ?_)
    refine Spec.bind (Q := fun _ s' => SameFlags s s') ?_ fun _ s₁ h₁ hf => ?_
    · exact Spec.get_bind (Spec.modify_bind (Spec.lift h₂ fun _ _ => ⟨rfl, rfl, rfl⟩))
    · refine Spec.bind (enter_spec hsv h₁) fun _ s₂ h₂ hf' => ?_
      refine Spec.get_bind (Spec.check h₂ fun _ => ⟨?_, fun hn => ?_⟩)
      · exact ⟨hf'.entries.trans hf.entries, hf'.checkpointRetry.trans hf.checkpointRetry,
          hf'.offlockUsed.trans hf.offlockUsed⟩
      · rw [hfrozen] at hn
        cases hn
  · refine (checkpointLocked_spec h).mono ?_
    rintro ⟨⟩ s' ⟨hf, hs⟩
    exact ⟨hf, fun _ => hs⟩

end

-- Durable outcomes

theorem retryWithReceipt_duplicate {table : Table F}
    (h : retryWithReceipt table receipt previous item = .ok (some r, floor)) :
    r.duplicate = true := by
  obtain ⟨-, -, hr⟩ := retryWithReceipt_ok.mp h
  obtain ⟨x, -, rfl⟩ := Option.map_eq_some_iff.mp hr.symm
  rfl

theorem retry_duplicate {s : State (Manifest F)} {o o' : Overlay}
    (h : o.retry s item = .ok (some r, o')) : r.duplicate = true := by
  obtain ⟨table, floor, -, hr, -⟩ := retry_ok.mp h
  exact retryWithReceipt_duplicate hr

theorem retried_duplicate {s : State (Manifest F)} {floors : Map Int}
    (h : retried (groupRetryWithFloors s.content floors item) = .ok r) : r.duplicate = true := by
  cases hg : groupRetryWithFloors s.content floors item with
  | error e =>
    rw [hg] at h
    cases h
  | ok x =>
    obtain ⟨receipt, floors'⟩ := x
    rw [hg] at h
    cases receipt with
    | none => cases h
    | some r' =>
      cases h
      obtain ⟨table, floor, -, hr, -⟩ := groupRetryWithFloors_ok.mp hg
      exact retryWithReceipt_duplicate hr

def Entry.Duplicate (e : Entry F) : Prop := ∀ r, e.durable = some (.ok r) → r.duplicate = true

structure Entry.Keeps (e e' : Entry F) : Prop where
  input : e'.input = e.input
  duplicate : e.Duplicate → e'.Duplicate

theorem Entry.Keeps.refl (e : Entry F) : e.Keeps e := ⟨rfl, id⟩

theorem keeps_durable (e : Entry F) {o : Option Outcome}
    (h : ∀ r, o = some (.ok r) → r.duplicate = true) : e.Keeps { e with durable := o } :=
  ⟨rfl, fun _ => h⟩

theorem resolveEntry_keeps (s : State (Manifest F)) (floors : Map Int) (e : Entry F) :
    e.Keeps (resolveEntry s floors e).1 := by
  unfold resolveEntry
  split
  · exact keeps_durable e fun r hr => nomatch hr
  · exact .refl e
  · exact .refl e
  · refine keeps_durable e fun r hr => ?_
    split at hr
    · exact retried_duplicate (Option.some.inj hr)
    · cases hr

theorem resolveTerminalEntry_keeps (s : State (Manifest F)) (floors : Map Int) (e : Entry F) :
    e.Keeps (resolveTerminalEntry s floors e).1 := by
  unfold resolveTerminalEntry
  split
  · exact .refl e
  · split
    · split
      · exact .refl e
      · exact keeps_durable e fun r hr => retried_duplicate (Option.some.inj hr)
    · exact .refl e

theorem sweep_keeps {f : Map Int → Entry F → Entry F × Map Int}
    (h : ∀ floors (e : Entry F), e.Keeps (f floors e).1) (floors : Map Int)
    (entries : List (Entry F)) :
    (sweep f floors entries).map Entry.input = entries.map Entry.input ∧
      (Duplicates entries → Duplicates (sweep f floors entries)) := by
  induction entries generalizing floors with
  | nil => exact ⟨rfl, id⟩
  | cons e entries ih =>
    obtain ⟨hinputs, hdup⟩ := ih (f floors e).2
    refine ⟨?_, fun hd => ?_⟩
    · rw [sweep, List.map_cons, List.map_cons, hinputs, (h floors e).input]
    · obtain ⟨he, hrest⟩ := List.forall_mem_cons.mp hd
      exact List.forall_mem_cons.mpr ⟨(h floors e).duplicate he, hdup hrest⟩

section
variable {db₀ : Db F} {inputs : List (Input F)} {s : Session F}

theorem Since.resolved (h : Since db₀ inputs s) : Since db₀ inputs s.resolved := by
  obtain ⟨hinputs, hdup⟩ := sweep_keeps (resolveEntry_keeps s.db.state)
    (s.entries.foldl (noteFloor s.db.state) ∅) s.entries
  exact ⟨h.grows, hinputs.trans h.inputs, hdup h.duplicates⟩

theorem raised_groupRetry {s : State (Manifest F)} {floors floors' : Map Int}
    (h : groupRetryWithFloors s.content floors item = .ok (r, floors')) :
    Raised floors floors' := by
  obtain ⟨table, floor, -, hr, rfl⟩ := groupRetryWithFloors_ok.mp h
  obtain ⟨hc, -⟩ := retryWithReceipt_ok.mp hr
  intro t
  cases hw : table.config.idempotencyWindowUs with
  | none =>
    rw [clockFloor_none hw] at hc
    cases hc
    exact .refl _
  | some window =>
    obtain ⟨issued, -, -, -, rfl⟩ := (clockFloor_ok hw).mp hc
    simp only [Option.elim_some, Map.lookup_insert]
    split
    · subst t
      exact atLeast_some (Int.le_max_left _ _)
    · exact .refl _

theorem raised_clockFloors {floors : Map Int} (h : clockFloors mode s = .ok floors) :
    Raised s.db.state.idempotencyFloors floors := by
  unfold clockFloors at h
  split at h
  · rename_i p _
    cases hg : groupRetryWithFloors s.db.state.content s.db.state.idempotencyFloors p.request with
    | error e =>
      rw [hg] at h
      cases h
    | ok x =>
      rw [hg] at h
      cases h
      exact raised_groupRetry hg
  · cases h
    exact fun t => .refl _

theorem grows_restore {db : Db F} {floors : Map (Option Int)}
    (h : ∀ (t : Text) v, floors[t]? = some v → AtLeast v db.state.idempotencyFloors[t]?) :
    Grows db (db.onState (restoreGroupFloors · floors)) [] :=
  grows_onState rfl rfl (raised_restore h)

theorem initialCheckpoint_spec (hsv : sv.Honest) (h : Since db₀ inputs s) :
    Spec (initialCheckpoint sv limits mode) s (Since db₀ inputs) fun _ _ => True := by
  have h₁ : Since db₀ inputs { s with initialPending := true } :=
    ⟨h.grows, h.inputs, h.duplicates⟩
  refine Spec.modify_bind (Spec.bind (Q := fun _ _ => True) ?_ fun _ s₂ h₂ _ => ?_)
  · refine Spec.get_bind (Spec.lift_bind h₁ fun floors hf => Spec.modify ?_ trivial)
    exact h₁.db (grows_onState rfl rfl (raised_clockFloors hf))
  · refine Spec.modify_bind (Spec.bind (pressure_spec hsv ?_) fun _ s₃ h₃ _ => ?_)
    · exact h₂.db (grows_restore fun t v hv => groupCheckpointFloors_live hv)
    · exact Spec.modify (h₃.flags _ _ _) trivial

theorem start_spec (hsv : sv.Honest) (h : Since db₀ inputs s) :
    Spec (start sv limits mode) s (Since db₀ inputs) fun _ s' =>
      s'.offlockUsed = true → s'.checkpointRetry = false := by
  refine Spec.bind (enter_spec hsv h) fun _ s₁ h₁ _ => Spec.modify_bind ?_
  refine Spec.bind (Q := fun _ _ => True) ?_ fun _ s₂ h₂ _ => ?_
  · refine Spec.get_bind ?_
    split
    · exact initialCheckpoint_spec hsv h₁.resolved
    · exact Spec.pure h₁.resolved trivial
  · refine Spec.modify (h₂.flags _ _ _) fun hoff => ?_
    show (!s₂.offlockUsed && _) = false
    rw [show s₂.offlockUsed = true from hoff]
    rfl

end

/-- A new input that was accepted, with the sequence of its receipt. -/
def accepted (input : Input F) (outcome : Outcome) : Option (PreparedWrite F × Nat) :=
  match input, outcome with
  | .ok p, .ok r => if r.duplicate then none else some (p, r.sequence)
  | _, _ => none

def acceptedOf (inputs : List (Input F)) (outcomes : List Outcome) :
    List (PreparedWrite F × Nat) :=
  (inputs.zip outcomes).filterMap fun x => accepted x.1 x.2

theorem accepted_duplicate {i : Input F} (h : r.duplicate = true) : accepted i (.ok r) = none := by
  cases i with
  | error e => rfl
  | ok p => simp [accepted, h]

theorem accepted_error (i : Input F) (e : String) : accepted i (.error e) = none := by
  cases i <;> rfl

theorem acceptedOf_append {a b : List (Input F)} {x y : List Outcome} (h : a.length = x.length) :
    acceptedOf (a ++ b) (x ++ y) = acceptedOf a x ++ acceptedOf b y := by
  rw [acceptedOf, List.zip_append h, List.filterMap_append]
  rfl

theorem acceptedOf_singleton {i : Input F} {o : Outcome} :
    acceptedOf [i] [o] = (accepted i o).toList := by
  simp only [acceptedOf, List.zip_cons_cons, List.zip_nil_right]
  cases h : accepted i o with
  | none => simp [h]
  | some x => simp [h]

theorem acceptedOf_failResults {inputs : List (Input F)} {outcomes : List Outcome}
    (h : ∀ x ∈ acceptedOf inputs outcomes, x.2 = n) :
    acceptedOf inputs (failResults n m outcomes) = [] := by
  rw [acceptedOf, failResults, List.zip_map_right, List.filterMap_map, List.filterMap_eq_nil_iff]
  rintro ⟨i, o⟩ hx
  cases o with
  | error e => exact accepted_error i e
  | ok r =>
    simp only [Function.comp, Prod.map, id]
    split
    · exact accepted_error i m
    · rename_i hne
      cases ha : accepted i (.ok r) with
      | none => rfl
      | some y =>
        have hmem : y ∈ acceptedOf inputs outcomes := List.mem_filterMap.mpr ⟨_, hx, ha⟩
        have hy := h y hmem
        cases i with
        | error e => cases ha
        | ok p =>
          simp only [accepted] at ha
          split at ha
          · cases ha
          · cases ha
            exact absurd hy hne

-- Staging

/-- The inputs so far have an outcome each, and those accepted are the items in order. -/
structure Staged (mode : WriteMode) (st : State (Manifest F)) (sequence : Nat)
    (front : List (Entry F)) (pass : Pass F D) : Prop where
  inputs : pass.entries.map Entry.input = front.map Entry.input
  length : pass.outcomes.length = front.length
  duplicates : Duplicates pass.entries
  accepted : acceptedOf (front.map Entry.input) pass.outcomes = pass.items.map (·, sequence)
  floors : ∀ t : Text, AtLeast (pass.overlay.floor st t) st.idempotencyFloors[t]?
  encoded : mode = .group → pass.encoded = none

section
variable {st : State (Manifest F)} {sequence : Nat} {front : List (Entry F)} {pass : Pass F D}
  {e : Entry F}

theorem Staged.overlay (h : Staged mode st sequence front pass) {o : Overlay}
    (ho : ∀ t : Text, AtLeast (o.floor st t) (pass.overlay.floor st t)) :
    Staged mode st sequence front { pass with overlay := o } :=
  ⟨h.inputs, h.length, h.duplicates, h.accepted, fun t => (ho t).trans (h.floors t), h.encoded⟩

theorem Staged.push {e' : Entry F} {o : Outcome} (h : Staged mode st sequence front pass)
    (hi : e'.input = e.input) (hd : e'.Duplicate) (ha : Commit.accepted e.input o = none) :
    Staged mode st sequence (front ++ [e]) (pass.push e' o) := by
  refine ⟨?_, ?_, ?_, ?_, h.floors, h.encoded⟩
  · simp [Pass.push, h.inputs, hi]
  · simp [Pass.push, h.length]
  · intro x hx
    rcases List.mem_append.mp hx with hx | hx
    · exact h.duplicates x hx
    · rw [List.mem_singleton.mp hx]
      exact hd
  · rw [List.map_append, Pass.push, acceptedOf_append (by rw [List.length_map, h.length]),
      h.accepted, List.map_singleton, acceptedOf_singleton, ha, Option.toList_none, List.append_nil]

theorem Staged.refuse (h : Staged mode st sequence front pass) (hd : e.Duplicate)
    (refusal : Refusal) : Staged mode st sequence (front ++ [e]) (pass.refuse e refusal) :=
  Staged.push ⟨h.inputs, h.length, h.duplicates, h.accepted, h.floors, h.encoded⟩ rfl hd
    (accepted_error _ _)

theorem Staged.accept (h : Staged mode st sequence front pass) (hd : e.Duplicate)
    (hi : e.input = .ok p) (delta : D) (encoded : Option Wal.EncodedRecord)
    (he : mode = .group → encoded = none) :
    Staged mode st sequence (front ++ [e]) (pass.accept e sequence p delta encoded) := by
  refine ⟨?_, ?_, ?_, ?_, h.floors, he⟩
  · simp [Pass.accept, Pass.push, h.inputs]
  · simp [Pass.accept, Pass.push, h.length]
  · intro x hx
    rcases List.mem_append.mp hx with hx | hx
    · exact h.duplicates x hx
    · rw [List.mem_singleton.mp hx]
      exact hd
  · rw [List.map_append, Pass.accept, Pass.push,
      acceptedOf_append (by rw [List.length_map, h.length]), h.accepted, List.map_singleton,
      acceptedOf_singleton, hi]
    simp [Commit.accepted]

theorem recheck_spec {o : Overlay} {p : PreparedWrite F} {result outcome : Outcome}
    (h : recheck st o p result = (outcome, o')) (hr : ∀ r, result = .ok r → r.duplicate = true) :
    (∀ r, outcome = .ok r → r.duplicate = true) ∧
      ∀ t : Text, AtLeast (o'.floor st t) (o.floor st t) := by
  unfold recheck at h
  split at h
  · cases h
    exact ⟨hr, fun t => .refl _⟩
  · split at h
    · split at h
      · rename_i hretry
        cases h
        exact ⟨fun r hr => by cases hr; exact retry_duplicate hretry, fun t => floor_retry hretry t⟩
      · rename_i hretry
        cases h
        exact ⟨fun r hr => (nomatch hr), fun t => floor_retry hretry t⟩
      · cases h
        exact ⟨fun r hr => (nomatch hr), fun t => .refl _⟩
    · cases h
      exact ⟨fun r hr => (nomatch hr), fun t => .refl _⟩

theorem Staged.settle (h : Staged mode st sequence front pass) (hd : e.Duplicate)
    (he : e.durable = some result) :
    Staged mode st sequence (front ++ [e]) (pass.settle st e result) := by
  unfold Pass.settle
  split
  · rename_i m hi
    refine h.push rfl hd ?_
    rw [hi]
    rfl
  · rename_i p hi
    have hresult : ∀ r, result = .ok r → r.duplicate = true := by
      rintro r rfl
      exact hd r he
    split
    · rename_i r o hc
      obtain ⟨hdup, hfloor⟩ := recheck_spec hc hresult
      refine (h.overlay fun t => (floor_durableDuplicate t).trans (hfloor t)).push rfl ?_ ?_
      · rintro r' hr'
        cases hr'
        exact hdup r rfl
      · exact accepted_duplicate (hdup r rfl)
    · rename_i m o hc
      obtain ⟨-, hfloor⟩ := recheck_spec hc hresult
      exact (h.overlay hfloor).push rfl hd (accepted_error _ _)

variable [F64 F] {H : Digest} {s : Session F}

theorem admission_encoded {delta : D} {encoded : Option Wal.EncodedRecord} {p : PreparedWrite F}
    (h : admission H sv limits s sequence pass p mode = .ok (delta, encoded)) :
    mode = .group → encoded = none := by
  rintro rfl
  simp only [admission, bind_ok] at h
  obtain ⟨_, -, _, -, _, -, h⟩ := h
  cases h
  rfl

theorem Staged.stage (h : Staged mode s.db.state sequence front pass) (hd : e.Duplicate) :
    Staged mode s.db.state sequence (front ++ [e]) (pass.stage H sv limits mode s sequence e) := by
  unfold Pass.stage
  split
  · rename_i result he
    exact h.settle hd he
  · unfold Pass.offer
    split
    · exact h.refuse hd _
    · rename_i p hi
      split
      · exact h.refuse hd _
      · rename_i r o hr
        exact (h.overlay fun t => floor_retry hr t).push rfl hd
          (accepted_duplicate (retry_duplicate hr))
      · rename_i o hr
        have h' := h.overlay fun t => floor_retry hr t
        split
        · exact h'.refuse hd _
        · rename_i delta encoded ha
          exact h'.accept hd hi delta encoded (admission_encoded ha)

theorem staged_foldl {rest : List (Entry F)} (h : Staged mode s.db.state sequence front pass)
    (hd : Duplicates rest) : Staged mode s.db.state sequence (front ++ rest)
      (rest.foldl (Pass.stage H sv limits mode s sequence) pass) := by
  induction rest generalizing front pass with
  | nil => rwa [List.append_nil]
  | cons e rest ih =>
    obtain ⟨he, hrest⟩ := List.forall_mem_cons.mp hd
    rw [List.append_cons]
    exact ih (h.stage he) hrest

theorem staged_passOf (hd : Duplicates s.entries) :
    Staged mode s.db.state sequence s.entries (passOf H sv limits mode s sequence) := by
  have hempty : Staged mode s.db.state sequence []
      (⟨⟨∅, []⟩, sv.derived s.db, [], [], [], 0, false, false, none⟩ : Pass F D) := by
    refine ⟨rfl, rfl, by simp [Duplicates], rfl, fun t => ?_, fun _ => rfl⟩
    simp [Overlay.floor, AtLeast.refl]
  exact staged_foldl hempty hd

end

end Varve.Commit
