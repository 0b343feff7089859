import Varve.Commit.Rounds

/-!
# Groups of writes

Every input of `write_prepared_group` gets its outcome, whichever group it falls into, and the
records of the accepted inputs follow the order of the inputs.
-/

namespace Varve.Commit

open Journal (Digest)
open Engine (F64 Manifest)

variable {F D P : Type} {sv : Services F D P} {limits : Limits} {mode : WriteMode}
  {inputs : List (Input F)} {db : Db F}

-- Publication

/-- The log grows and the floors rise; the rest of the state stays. -/
structure Mild (w w' : World (Manifest F)) : Prop where
  sequence : w'.state.sequence = w.state.sequence
  content : w'.state.content = w.state.content
  floors : Raised w.state.idempotencyFloors w'.state.idempotencyFloors
  wal : w.wal <+: w'.wal

section
variable {w w' w'' : World (Manifest F)} {e : PreparedEpoch (Manifest F)}
  {p : PreparedPublication (Manifest F)}

theorem Mild.trans (h : Mild w w') (h' : Mild w' w'') : Mild w w'' :=
  ⟨h'.sequence.trans h.sequence, h'.content.trans h.content,
    fun t => (h'.floors t).trans (h.floors t), h.wal.trans h'.wal⟩

theorem mild_disturbed (sv : Services F D P) (w : World (Manifest F)) (n : Nat) :
    Mild w (disturbed sv w n) :=
  ⟨rfl, rfl, fun _ => .refl _, List.prefix_rfl⟩

theorem mild_append (w : World (Manifest F)) (records : List EncodedRecord) :
    Mild w { w with wal := w.wal ++ records } :=
  ⟨rfl, rfl, fun _ => .refl _, List.prefix_append _ _⟩

theorem fail_mild (hp : e.publication = some p)
    (hb : ∀ (t : Text) v, p.floorsBefore[t]? = some v → AtLeast v w.state.idempotencyFloors[t]?)
    (m : String) (ambiguous : Bool) :
    (e.fail m ambiguous w).1.results = failResults p.sequence m e.results ∧
      Mild w (e.fail m ambiguous w).2 := by
  unfold PreparedEpoch.fail
  rw [hp]
  cases hl : w.lock with
  | error x => exact ⟨rfl, rfl, rfl, fun _ => .refl _, List.prefix_rfl⟩
  | ok st =>
    obtain ⟨-, rfl⟩ := lock_ok.mp hl
    have hraise : Raised w.state.idempotencyFloors (installDuplicateFloors
        (restoreGroupFloors w.state p.floorsBefore) e.duplicateFloors).idempotencyFloors :=
      fun t => (raised_installDuplicateFloors _ t).trans (raised_restore hb t)
    cases ambiguous with
    | false => exact ⟨rfl, rfl, rfl, hraise, List.prefix_rfl⟩
    | true => exact ⟨rfl, rfl, rfl, hraise, List.prefix_rfl⟩

end

theorem sync_mild {w : World (Manifest F)} {e : PreparedEpoch (Manifest F)}
    {p : PreparedPublication (Manifest F)} (hp : e.publication = some p)
    (hb : ∀ (t : Text) v, p.floorsBefore[t]? = some v → AtLeast v w.state.idempotencyFloors[t]?)
    (io : Append) :
    (∃ size, e.sync io w = (⟨{ e with publication := some { p with commit := ⟨true⟩ } }, some size⟩,
      { w with wal := w.wal ++ [p.encoded] })) ∨
    ∃ e' w' m, e.sync io w = (⟨e', none⟩, w') ∧ e'.results = failResults p.sequence m e.results ∧
      Mild w w' := by
  have harmed : { e with publication := some { p with commit := ⟨true⟩ } }.publication =
      some { p with commit := ⟨true⟩ } := rfl
  unfold PreparedEpoch.sync
  rw [hp]
  cases hl : w.lock >>= healthy with
  | error m => exact .inr ⟨_, _, m, rfl, fail_mild hp hb m false⟩
  | ok u =>
    cases io with
    | done size => exact .inl ⟨size, rfl⟩
    | refused m => exact .inr ⟨_, _, m, rfl, fail_mild harmed hb m false⟩
    | failed m kept =>
      have hmild := mild_append w (if kept then [p.encoded] else [])
      obtain ⟨hresults, hfail⟩ := fail_mild (w := { w with
        wal := w.wal ++ if kept then [p.encoded] else [] }) harmed hb m true
      exact .inr ⟨_, _, m, rfl, hresults, hmild.trans hfail⟩

def Record.receipts (r : Record F) : List (PreparedWrite F × Nat) := r.items.map (·, r.sequence)

structure Wrote (limits : Limits) (mode : WriteMode) (inputs : List (Input F)) (db : Db F)
    (out : List Outcome) (db' : Db F) (records : List (Record F)) : Prop where
  length : out.length = inputs.length
  grows : Grows db db' records
  accepted : acceptedOf inputs out = records.flatMap Record.receipts
  mode : ∀ r ∈ records, r.mode = mode ∧ (mode = .group → r.bytes.length ≤ limits.maxBatchBytes)

theorem wrote_nothing {out : List Outcome} {db' : Db F} (hlen : out.length = inputs.length)
    (hnone : acceptedOf inputs out = []) (hm : Mild db.world db'.world)
    (hc : db'.committed = db.committed) : Wrote limits mode inputs db out db' [] where
  length := hlen
  grows := ⟨hm.sequence.ge, hm.wal, by rw [hc, List.append_nil],
    fun h => h.raise hm.content hm.floors, by simp, .nil⟩
  accepted := hnone
  mode := by simp

section
variable {r : Ready F} {record : Record F} {p : PreparedPublication (Manifest F)}

theorem Publishes.failed {results : List Outcome}
    (h : Publishes limits mode inputs db results p record) (m : String) :
    acceptedOf inputs (failResults p.sequence m results) = [] := by
  refine acceptedOf_failResults fun x hx => ?_
  rw [h.accepted] at hx
  obtain ⟨_, -, rfl⟩ := List.mem_map.mp hx
  exact h.sequence.symm

theorem Publishes.visible {results : List Outcome} {w : World (Manifest F)} {db' : Db F}
    (h : Publishes limits mode inputs db results p record) (hlen : results.length = inputs.length)
    (hm : Mild db.world w) (hmem : p.encoded ∈ w.wal) (size : Nat) (duplicates : Map Int)
    (hstate : db'.world.state = p.visible size duplicates w.state) (hwal : db'.world.wal = w.wal)
    (hc : db'.committed = db.committed ++ [record]) :
    Wrote limits mode inputs db results db' [record] := by
  have hseq : db'.state.sequence = record.sequence := by
    rw [Db.state, hstate]
    exact h.sequence
  have hnext := h.next
  refine ⟨hlen, ⟨by omega, hwal ▸ hm.wal, hc, fun hl t => ?_, ?_, List.pairwise_singleton _ _⟩,
    ?_, ?_⟩
  · have hfloors : AtLeast (p.pending.floors[t]?.or w.state.idempotencyFloors[t]?)
        db.state.idempotencyFloors[t]? := by
      cases hf : p.pending.floors[t]? with
      | none => exact hm.floors t
      | some x =>
        have := h.floors t
        rwa [hf] at this
    have hvisible : AtLeast db'.state.idempotencyFloors[t]?
        (p.pending.floors[t]?.or w.state.idempotencyFloors[t]?) := by
      rw [Db.state, hstate, ← Std.ExtTreeMap.getElem?_union]
      exact raised_installDuplicateFloors duplicates t
    have hdurable : AtLeast (durableFloor db.state.content t)
        (durableFloor db'.state.content t) := by
      have hcontent : db'.state.content = p.pending.install db.state.content := by
        rw [Db.state, hstate]
        show p.pending.install w.state.content = _
        rw [hm.content]
        rfl
      rw [hcontent]
      exact (h.install _).atLeast t
    exact hvisible.trans (hfloors.trans ((hl t).trans hdurable))
  · refine List.forall_mem_singleton.mpr ⟨by omega, hseq.ge, ?_⟩
    rw [hwal, ← h.encoded]
    exact hmem
  · rw [h.accepted]
    simp [Record.receipts]
  · exact List.forall_mem_singleton.mpr ⟨h.mode, h.bytes⟩

theorem publish_spec (hf : r.Fits limits mode inputs db) :
    ∃ records, Wrote limits mode inputs db (publish sv r db).1 (publish sv r db).2 records := by
  cases hrec : r.record with
  | none =>
    obtain ⟨hpub, hnone⟩ := hf.none hrec
    refine ⟨[], ?_⟩
    simp only [publish, PreparedEpoch.sync, hpub, DurableEpoch.install, hrec, Option.toList_none,
      ite_self, List.append_nil]
    exact wrote_nothing hf.length hnone ((mild_disturbed sv _ _).trans (mild_disturbed sv _ _)) rfl
  | some record =>
    obtain ⟨p, hpub, hp⟩ := hf.some record hrec
    have hfailed (m : String) :
        (failResults p.sequence m r.epoch.results).length = inputs.length := by
      rw [failResults, List.length_map, hf.length]
    have hw := mild_disturbed sv db.world db.tick
    rcases sync_mild (w := disturbed sv db.world db.tick) hpub hp.before (sv.append db.tick) with
      ⟨size, hsync⟩ | ⟨e', w', m, hsync, hresults, hmild⟩
    · have hw' := (hw.trans (mild_append _ [p.encoded])).trans
        (mild_disturbed sv _ (db.tick + 1))
      cases hl : (disturbed sv { disturbed sv db.world db.tick with
          wal := (disturbed sv db.world db.tick).wal ++ [p.encoded] } (db.tick + 1)).lock >>=
            healthy with
      | error m =>
        obtain ⟨hresults, hmild⟩ := fail_mild (e := { r.epoch with
          publication := some { p with commit := ⟨true⟩ } }) rfl
          (w := disturbed sv { disturbed sv db.world db.tick with
            wal := (disturbed sv db.world db.tick).wal ++ [p.encoded] } (db.tick + 1))
          hp.before m true
        refine ⟨[], ?_⟩
        simp only [publish, hsync, visible, DurableEpoch.install, hl, Except.isOk, Except.toBool,
          Bool.and_false, Bool.false_eq_true, if_false, List.append_nil]
        exact wrote_nothing (hresults ▸ hfailed m) (hresults ▸ hp.failed m) (hw'.trans hmild) rfl
      | ok u =>
        refine ⟨[record], ?_⟩
        simp only [publish, hsync, visible, DurableEpoch.install, hl, hrec, Except.isOk,
          Except.toBool, Option.isSome_some, Bool.and_self, if_true, Option.toList_some]
        refine hp.visible hf.length hw' ?_ size r.epoch.duplicateFloors rfl rfl rfl
        exact List.mem_append_right _ (List.mem_singleton_self _)
    · refine ⟨[], ?_⟩
      simp only [publish, hsync, visible, DurableEpoch.install, Option.isSome_none, Bool.false_and,
        Bool.false_eq_true, if_false, List.append_nil]
      refine wrote_nothing (hresults ▸ hfailed m) (hresults ▸ hp.failed m) ?_ rfl
      exact (hw.trans hmild).trans (mild_disturbed sv _ _)

end

theorem writeGroupAttempts_spec [F64 F] {H : Digest} (hsv : sv.Honest)
    (hone : mode = .single → inputs.length = 1)
    (hlive : LiveFloors db.state) (hfuel : 3 ≤ fuel) :
    ∃ out db' records, writeGroupAttempts H sv limits fuel mode inputs db = (some out, db') ∧
      Wrote limits mode inputs db out db' records := by
  obtain ⟨r, db₁, hprep, hgrows, hfits⟩ :=
    prepareGroupAttempts_spec (H := H) hsv hone hlive hfuel
  obtain ⟨records, hw⟩ : ∃ records,
      Wrote limits mode inputs db₁ (publish sv r db₁).1 (publish sv r db₁).2 records :=
    publish_spec hfits
  refine ⟨(publish sv r db₁).1, (publish sv r db₁).2, records, ?_, hw.length, ?_, hw.accepted,
    hw.mode⟩
  · rw [writeGroupAttempts, hprep]
  · exact hgrows.trans hw.grows

-- The results of a batch

/-- The result of an input that waits in the batch, or that failed before. -/
def waiting : Input F → Option Outcome
  | .error e => some (.error e)
  | .ok _ => none

def pending (back : List (Input F)) : List (PreparedWrite F) := back.filterMap Except.toOption

def positions : Nat → List (Input F) → List Nat
  | _, [] => []
  | n, .error _ :: back => positions (n + 1) back
  | n, .ok _ :: back => n :: positions (n + 1) back

def fill : List (Input F) → List Outcome → List Outcome
  | .error e :: back, out => .error e :: fill back out
  | .ok _ :: back, o :: out => o :: fill back out
  | _, _ => []

section
variable {back : List (Input F)} {out : List Outcome}

theorem setAll_fill (pre post : List (Option Outcome)) (h : out.length = (pending back).length) :
    setAll (pre ++ back.map waiting ++ post) ((positions pre.length back).zip out) =
      pre ++ (fill back out).map some ++ post := by
  induction back generalizing pre out with
  | nil => rfl
  | cons i back ih =>
    cases i with
    | error e =>
      have := ih (pre ++ [some (.error e)]) h
      simpa [waiting, positions, fill] using this
    | ok p =>
      cases out with
      | nil => cases h
      | cons o out =>
        have := ih (pre ++ [some o]) (Nat.succ.inj h)
        simpa [waiting, positions, fill, setAll] using this

theorem length_fill (h : out.length = (pending back).length) :
    (fill back out).length = back.length := by
  induction back generalizing out with
  | nil => rfl
  | cons i back ih =>
    cases i with
    | error e => exact congrArg Nat.succ (ih h)
    | ok p =>
      cases out with
      | nil => cases h
      | cons o out => exact congrArg Nat.succ (ih (Nat.succ.inj h))

theorem acceptedOf_cons {i : Input F} {o : Outcome} :
    acceptedOf (i :: back) (o :: out) = (accepted i o).toList ++ acceptedOf back out := by
  have h : acceptedOf ([i] ++ back) ([o] ++ out) = acceptedOf [i] [o] ++ acceptedOf back out :=
    acceptedOf_append rfl
  rwa [acceptedOf_singleton] at h

theorem acceptedOf_fill (h : out.length = (pending back).length) :
    acceptedOf back (fill back out) = acceptedOf ((pending back).map .ok) out := by
  induction back generalizing out with
  | nil => rfl
  | cons i back ih =>
    cases i with
    | error e =>
      rw [fill, acceptedOf_cons, accepted_error]
      exact ih h
    | ok p =>
      cases out with
      | nil => cases h
      | cons o out =>
        show acceptedOf (.ok p :: back) (o :: fill back out) =
          acceptedOf (.ok p :: (pending back).map .ok) (o :: out)
        rw [acceptedOf_cons, acceptedOf_cons, ih (Nat.succ.inj h)]

theorem pending_error (back : List (Input F)) (e : String) :
    pending (back ++ [.error e]) = pending back := by
  simp [pending, Except.toOption]

theorem pending_ok (back : List (Input F)) (p : PreparedWrite F) :
    pending (back ++ [.ok p]) = pending back ++ [p] := by
  simp [pending, Except.toOption]

theorem positions_error (n : Nat) (back : List (Input F)) (e : String) :
    positions n (back ++ [.error e]) = positions n back := by
  induction back generalizing n with
  | nil => rfl
  | cons i back ih => cases i <;> simp [positions, ih]

theorem positions_ok (n : Nat) (back : List (Input F)) (p : PreparedWrite F) :
    positions n (back ++ [.ok p]) = positions n back ++ [n + back.length] := by
  induction back generalizing n with
  | nil => rfl
  | cons i back ih =>
    cases i <;> simp [positions, ih, Nat.add_assoc, Nat.add_comm 1]

theorem positions_nil {n : Nat} (h : pending back = []) : positions n back = [] := by
  induction back generalizing n with
  | nil => rfl
  | cons i back ih =>
    cases i with
    | error e => exact ih h
    | ok p => cases h

def ErrorsKept (inputs : List (Input F)) (out : List Outcome) : Prop :=
  ∀ x ∈ inputs.zip out, ∀ e, x.1 = .error e → x.2 = .error e

theorem ErrorsKept.append {a b : List (Input F)} {x y : List Outcome} (h : ErrorsKept a x)
    (h' : ErrorsKept b y) (hl : a.length = x.length) : ErrorsKept (a ++ b) (x ++ y) := by
  intro z hz
  rw [List.zip_append hl] at hz
  exact (List.mem_append.mp hz).elim (h z) (h' z)

theorem errorsKept_fill : ErrorsKept back (fill back out) := by
  induction back generalizing out with
  | nil => exact fun x hx => nomatch hx
  | cons i back ih =>
    cases i with
    | error e =>
      refine List.forall_mem_cons.mpr ⟨fun e' he' => ?_, ih⟩
      cases he'
      rfl
    | ok p =>
      cases out with
      | nil => exact fun x hx => nomatch hx
      | cons o out => exact List.forall_mem_cons.mpr ⟨fun e' he' => (nomatch he'), ih⟩

end

-- The driver

def rowsOf (items : List (PreparedWrite F)) : Nat := (items.map fun p => p.item.rows.length).sum

def Bounded (limits : Limits) (r : Record F) : Prop :=
  r.mode = .group → r.items.length ≤ Wal.maxGroupRequests ∧ rowsOf r.items ≤ limits.rowLimit ∧
    r.bytes.length ≤ limits.maxBatchBytes

/-- The inputs so far: those with their outcomes, and behind them the batch with the failed inputs
in between. -/
structure Gathered (limits : Limits) (db : Db F) (front : List (Input F)) (out : List Outcome)
    (back : List (Input F)) (rest : Nat) (records : List (Record F)) (d : Driver F) : Prop where
  grows : Grows db d.db records
  length : front.length = out.length
  results : d.results = out.map some ++ back.map waiting ++ List.replicate rest none
  group : d.batch.group = pending back
  indices : d.batch.indices = positions out.length back
  rows : d.batch.rows = rowsOf (pending back)
  bytes : 128 ≤ d.batch.bytes
  count : (pending back).length ≤ Wal.maxGroupRequests
  limit : rowsOf (pending back) ≤ limits.rowLimit
  accepted : acceptedOf front out = records.flatMap Record.receipts
  errors : ErrorsKept front out
  bounded : ∀ r ∈ records, Bounded limits r

section
variable {front back : List (Input F)} {out : List Outcome} {records : List (Record F)}
  {d : Driver F}

theorem accepted_sublist (group : List (PreparedWrite F)) (out : List Outcome) :
    ((acceptedOf (group.map .ok) out).map Prod.fst).Sublist group := by
  induction group generalizing out with
  | nil => exact .refl _
  | cons p group ih =>
    cases out with
    | nil => exact List.nil_sublist _
    | cons o out =>
      rw [List.map_cons, acceptedOf_cons]
      cases ha : accepted (.ok p) o with
      | none => exact (ih out).cons p
      | some x =>
        have hx : x.1 = p := by
          cases o with
          | error e => cases ha
          | ok r =>
            simp only [accepted] at ha
            split at ha
            · cases ha
            · cases ha
              rfl
        rw [Option.toList_some, List.singleton_append, List.map_cons, hx]
        exact (ih out).cons_cons p

theorem rowsOf_sublist {a b : List (PreparedWrite F)} (h : a.Sublist b) : rowsOf a ≤ rowsOf b :=
  (h.map _).sum_le_sum fun _ _ => Nat.zero_le _

theorem rowsOf_concat (items : List (PreparedWrite F)) (p : PreparedWrite F) :
    rowsOf (items ++ [p]) = rowsOf items + p.item.rows.length := by
  simp [rowsOf]

theorem map_fst_receipts (r : Record F) : r.receipts.map Prod.fst = r.items := by
  rw [Record.receipts, List.map_map]
  exact List.map_id _

theorem items_sublist {group : List (PreparedWrite F)} {r : Record F}
    (h : acceptedOf (group.map .ok) out = records.flatMap Record.receipts) (hr : r ∈ records) :
    r.items.Sublist group := by
  rw [← map_fst_receipts r]
  refine List.Sublist.trans ?_ (accepted_sublist group out)
  rw [h]
  rw [List.flatMap_def]
  exact (List.sublist_flatten_of_mem (List.mem_map_of_mem hr)).map _

theorem Gathered.flush [F64 F] {H : Digest} (hsv : sv.Honest) (hfuel : 3 ≤ fuel)
    (hlive : LiveFloors db.state)
    (h : Gathered limits db front out back rest records d) :
    ∃ out' more, Gathered limits db (front ++ back) (out ++ out') [] rest (records ++ more)
      (d.flush H sv limits fuel) := by
  obtain ⟨new, db', more, hwrite, hw⟩ : ∃ new db' more,
      writeGroupAttempts H sv limits fuel .group (d.batch.group.map .ok) d.db = (some new, db') ∧
        Wrote limits .group (d.batch.group.map .ok) d.db new db' more :=
    writeGroupAttempts_spec hsv (fun hm => nomatch hm) (h.grows.live hlive) hfuel
  have hlen : new.length = (pending back).length := by rw [hw.length, List.length_map, h.group]
  have hacc : acceptedOf ((pending back).map .ok) new = more.flatMap Record.receipts :=
    h.group ▸ hw.accepted
  refine ⟨fill back new, more, ?_⟩
  simp only [Driver.flush, hwrite]
  refine ⟨h.grows.trans hw.grows, ?_, ?_, rfl, rfl, rfl, Nat.le_refl _, Nat.zero_le _,
    Nat.zero_le _, ?_, ?_, ?_⟩
  · rw [List.length_append, List.length_append, h.length, length_fill hlen]
  · have hpos : out.length = (out.map some).length := (List.length_map _).symm
    rw [h.results, h.indices, Option.getD_some, hpos, setAll_fill _ _ hlen]
    simp
  · rw [acceptedOf_append h.length, h.accepted, acceptedOf_fill hlen, hacc, List.flatMap_append]
  · exact h.errors.append errorsKept_fill h.length
  · intro r hr
    rcases List.mem_append.mp hr with hr | hr
    · exact h.bounded r hr
    · intro _
      have hsub := items_sublist hacc hr
      exact ⟨hsub.length_le.trans h.count, (rowsOf_sublist hsub).trans h.limit,
        (hw.mode r hr).2 rfl⟩

theorem Gathered.close (h : Gathered limits db front out back rest records d)
    (hb : pending back = []) :
    Gathered limits db (front ++ back) (out ++ fill back []) [] rest records d := by
  have hlen : ([] : List Outcome).length = (pending back).length := by
    rw [hb]
    rfl
  have hfill := setAll_fill (out.map some) (List.replicate rest none) hlen
  rw [List.zip_nil_right] at hfill
  have hgroup := h.group
  have hindices := h.indices
  have hrows := h.rows
  rw [hb] at hgroup hrows
  rw [positions_nil hb] at hindices
  refine ⟨h.grows, ?_, ?_, hgroup, hindices, hrows, h.bytes, Nat.zero_le _, Nat.zero_le _, ?_, ?_,
    h.bounded⟩
  · rw [List.length_append, List.length_append, h.length, length_fill hlen]
  · rw [h.results]
    refine Eq.trans hfill ?_
    simp
  · rw [acceptedOf_append h.length, h.accepted, acceptedOf_fill hlen, hb]
    exact List.append_nil _
  · exact h.errors.append errorsKept_fill h.length

theorem set_next (a : List (Option Outcome)) (x y : Option Outcome) (b : List (Option Outcome)) :
    (a ++ x :: b).set a.length y = a ++ y :: b := by
  simp

theorem Gathered.next (h : Gathered limits db front out back (rest + 1) records d)
    (y : Option Outcome) : d.results.set (front ++ back).length y =
      out.map some ++ back.map waiting ++ y :: List.replicate rest none := by
  have hlen : (front ++ back).length = (out.map some ++ back.map waiting).length := by
    simp [h.length]
  rw [h.results, List.replicate_succ, hlen, set_next]

theorem Gathered.error (h : Gathered limits db front out back (rest + 1) records d) (e : String) :
    Gathered limits db front out (back ++ [.error e]) rest records
      { d with results := d.results.set (front ++ back).length (some (.error e)) } := by
  refine ⟨h.grows, h.length, ?_, ?_, ?_, ?_, h.bytes, ?_, ?_, h.accepted, h.errors, h.bounded⟩
  · rw [h.next]
    simp [waiting]
  · rw [pending_error]
    exact h.group
  · rw [positions_error]
    exact h.indices
  · rw [pending_error]
    exact h.rows
  · rw [pending_error]
    exact h.count
  · rw [pending_error]
    exact h.limit

theorem Gathered.push (h : Gathered limits db front out back (rest + 1) records d)
    {p : PreparedWrite F} (hcount : (pending back).length + 1 ≤ Wal.maxGroupRequests)
    (hlimit : rowsOf (pending back) + p.item.rows.length ≤ limits.rowLimit) :
    Gathered limits db front out (back ++ [.ok p]) rest records
      { d with batch := d.batch.push (front ++ back).length p } := by
  refine ⟨h.grows, h.length, ?_, ?_, ?_, ?_, ?_, ?_, ?_, h.accepted, h.errors, h.bounded⟩
  · rw [h.results]
    simp [waiting, List.replicate_succ]
  · rw [pending_ok, Batch.push, h.group]
  · rw [positions_ok, Batch.push, h.indices, List.length_append, h.length]
  · rw [pending_ok, rowsOf_concat, Batch.push, h.rows]
  · exact h.bytes.trans (Nat.le_add_right _ _)
  · rw [pending_ok, List.length_append]
    exact hcount
  · rw [pending_ok, rowsOf_concat]
    exact hlimit

theorem Gathered.single [F64 F] {H : Digest} (hsv : sv.Honest) (hfuel : 3 ≤ fuel)
    (hlive : LiveFloors db.state) (h : Gathered limits db front out [] (rest + 1) records d)
    (p : PreparedWrite F) :
    ∃ o more, Gathered limits db (front ++ [.ok p]) (out ++ [o]) [] rest (records ++ more)
      (d.single H sv limits fuel front.length p) := by
  obtain ⟨new, db', more, hwrite, hw⟩ : ∃ new db' more,
      writeGroupAttempts H sv limits fuel .single [.ok p] d.db = (some new, db') ∧
        Wrote limits .single [.ok p] d.db new db' more :=
    writeGroupAttempts_spec hsv (fun _ => rfl) (h.grows.live hlive) hfuel
  obtain ⟨o, rfl⟩ := List.length_eq_one_iff.mp hw.length
  refine ⟨o, more, ?_⟩
  simp only [Driver.single, hwrite]
  have hnext := h.next (some o)
  rw [List.append_nil] at hnext
  refine ⟨h.grows.trans hw.grows, ?_, ?_, h.group, ?_, h.rows, h.bytes, Nat.zero_le _,
    Nat.zero_le _, ?_, ?_, ?_⟩
  · rw [List.length_append, List.length_append, h.length]
    rfl
  · refine Eq.trans hnext ?_
    simp
  · exact h.indices
  · rw [acceptedOf_append h.length, h.accepted, hw.accepted, List.flatMap_append]
  · refine h.errors.append ?_ h.length
    rintro x hx e he
    rw [List.mem_singleton.mp hx] at he
    cases he
  · intro r hr
    rcases List.mem_append.mp hr with hr | hr
    · exact h.bounded r hr
    · intro hm
      rw [(hw.mode r hr).1] at hm
      cases hm

end

-- Runs of the driver

def Reached (limits : Limits) (db : Db F) (taken : List (Input F)) (rest : Nat) (d : Driver F) :
    Prop :=
  ∃ front out back records, taken = front ++ back ∧
    Gathered limits db front out back rest records d

section
variable [F64 F] {H : Digest} {taken : List (Input F)} {d : Driver F} {p : PreparedWrite F}

theorem Reached.flush (hsv : sv.Honest) (hfuel : 3 ≤ fuel) (hlive : LiveFloors db.state)
    (h : Reached limits db taken rest d) : ∃ out records,
      Gathered limits db taken out [] rest records (d.flush H sv limits fuel) := by
  obtain ⟨front, out, back, records, rfl, hg⟩ := h
  obtain ⟨out', more, hg'⟩ := hg.flush (H := H) hsv hfuel hlive
  exact ⟨_, _, hg'⟩

omit [F64 F] in
theorem full_of_oversized (hb : 128 ≤ d.batch.bytes) (hg : d.batch.group ≠ [])
    (h : oversized limits p = true) : d.batch.full limits p = true := by
  simp only [oversized, Bool.or_eq_true, decide_eq_true_eq] at h
  simp only [Batch.full, Bool.and_eq_true, Bool.not_eq_true', Bool.or_eq_true, decide_eq_true_eq]
  refine ⟨by simpa using hg, ?_⟩
  rcases h with h | h
  · exact .inl (.inr (by omega))
  · exact .inr (by omega)

omit [F64 F] in
theorem Gathered.fits {front back : List (Input F)} {out : List Outcome}
    {records : List (Record F)} (h : Gathered limits db front out back rest records d)
    (hroom : d.batch.group = [] ∨ d.batch.full limits p = false)
    (hp : p.item.rows.length ≤ limits.rowLimit) :
    (pending back).length + 1 ≤ Wal.maxGroupRequests ∧
      rowsOf (pending back) + p.item.rows.length ≤ limits.rowLimit := by
  by_cases hempty : d.batch.group = []
  · rw [← h.group, hempty]
    refine ⟨?_, ?_⟩
    · show 0 + 1 ≤ 1024
      decide
    · show 0 + _ ≤ _
      omega
  · have hfull := hroom.resolve_left hempty
    simp only [Batch.full, Bool.and_eq_false_iff, Bool.or_eq_false_iff, Bool.not_eq_false',
      decide_eq_false_iff_not, List.isEmpty_iff, hempty, false_or, Nat.not_lt] at hfull
    obtain ⟨⟨hne, hrows⟩, -⟩ := hfull
    have hcount := h.count
    rw [h.group] at hne
    rw [h.rows] at hrows
    exact ⟨by omega, hrows⟩

theorem Reached.place (hsv : sv.Honest) (hfuel : 3 ≤ fuel) (hlive : LiveFloors db.state)
    (h : Reached limits db taken (rest + 1) d)
    (hroom : d.batch.group = [] ∨ d.batch.full limits p = false) :
    Reached limits db (taken ++ [.ok p]) rest (d.place H sv limits fuel taken.length p) := by
  obtain ⟨front, out, back, records, rfl, hg⟩ := h
  unfold Driver.place
  split
  · rename_i hover
    have hempty : pending back = [] := by
      rw [← hg.group]
      rcases hroom with hroom | hroom
      · exact hroom
      · by_contra hne
        rw [full_of_oversized hg.bytes hne hover] at hroom
        cases hroom
    obtain ⟨o, more, hs⟩ := (hg.close hempty).single (H := H) hsv hfuel hlive p
    exact ⟨_, _, [], _, (List.append_nil _).symm, hs⟩
  · rename_i hover
    simp only [oversized, Bool.or_eq_true, decide_eq_true_eq, not_or, Nat.not_lt] at hover
    obtain ⟨hcount, hlimit⟩ := hg.fits hroom hover.1
    exact ⟨front, out, back ++ [.ok p], records, List.append_assoc _ _ _, hg.push hcount hlimit⟩

theorem Reached.take (hsv : sv.Honest) (hfuel : 3 ≤ fuel) (hlive : LiveFloors db.state)
    (h : Reached limits db taken (rest + 1) d) (i : Input F) :
    Reached limits db (taken ++ [i]) rest (d.take H sv limits fuel (i, taken.length)) := by
  cases i with
  | error e =>
    obtain ⟨front, out, back, records, rfl, hg⟩ := h
    exact ⟨front, out, _, records, List.append_assoc _ _ _, hg.error e⟩
  | ok p =>
    unfold Driver.take
    dsimp only
    split
    · obtain ⟨out, records, hg⟩ := h.flush (H := H) hsv hfuel hlive
      have hr : Reached limits db taken (rest + 1) (d.flush H sv limits fuel) :=
        ⟨taken, out, [], records, (List.append_nil _).symm, hg⟩
      exact hr.place hsv hfuel hlive (.inl hg.group)
    · rename_i hfull
      exact h.place hsv hfuel hlive (.inr (Bool.eq_false_iff.mpr hfull))

theorem Reached.foldl (hsv : sv.Honest) (hfuel : 3 ≤ fuel) (hlive : LiveFloors db.state)
    (more : List (Input F)) (h : Reached limits db taken more.length d) :
    Reached limits db (taken ++ more) 0
      ((more.zipIdx taken.length).foldl (Driver.take H sv limits fuel) d) := by
  induction more generalizing taken d with
  | nil => rwa [List.append_nil]
  | cons i more ih =>
    have hnext := h.take (H := H) hsv hfuel hlive i
    have hlen : (taken ++ [i]).length = taken.length + 1 := List.length_append
    rw [List.append_cons, List.zipIdx_cons, List.foldl_cons, ← hlen]
    exact ih hnext

omit [F64 F] in
theorem reached_start : Reached limits db ([] : List (Input F)) inputs.length
    ⟨db, List.replicate inputs.length none, .empty⟩ :=
  ⟨[], [], [], [], rfl, .refl db, rfl, rfl, rfl, rfl, rfl, Nat.le_refl _, Nat.zero_le _,
    Nat.zero_le _, rfl, fun _ hx => (nomatch hx), fun _ hr => (nomatch hr)⟩

theorem Reached.finish (hsv : sv.Honest) (hfuel : 3 ≤ fuel) (hlive : LiveFloors db.state)
    (h : Reached limits db taken rest d) : ∃ out records,
      Gathered limits db taken out [] rest records (d.finish H sv limits fuel) := by
  unfold Driver.finish
  split
  · rename_i hempty
    obtain ⟨front, out, back, records, rfl, hg⟩ := h
    exact ⟨_, _, hg.close (by rw [← hg.group, List.isEmpty_iff.mp hempty])⟩
  · exact h.flush hsv hfuel hlive

theorem mapM_some (out : List Outcome) : (out.map some).mapM id = some out := by
  induction out with
  | nil => rfl
  | cons o out ih => simp [ih]

omit [F64 F] in
theorem sequences_sorted {records : List (Record F)}
    (h : records.Pairwise fun a b => a.sequence < b.sequence) :
    ((records.flatMap Record.receipts).map Prod.snd).Pairwise (· ≤ ·) := by
  rw [List.pairwise_map, List.pairwise_flatMap]
  refine ⟨fun r _ => ?_, h.imp fun hlt x hx y hy => ?_⟩
  · rw [Record.receipts, List.pairwise_map]
    exact List.pairwise_of_forall fun _ _ => Nat.le_refl _
  · obtain ⟨_, -, rfl⟩ := List.mem_map.mp hx
    obtain ⟨_, -, rfl⟩ := List.mem_map.mp hy
    exact hlt.le

end

def plainDigest : Digest := ⟨fun _ => List.replicate 32 0, fun _ => List.length_replicate⟩

/-- No other threads, and a log that takes what it is given. -/
def alone : Services Unit Unit Unit where
  derived _ := ()
  preflight _ _ _ _ _ _ := .ok ()
  finish _ _ _ _ := .ok ()
  prove _ _ _ _ := .ok ()
  install _ c := c
  required _ bytes := .ok bytes.length
  materialize _ := .ok ()
  append _ := .done 0
  fence _ := none
  poison _ := false
  locked _ := .failed "read-only file system" none
  others _ db := db
  offLock _ db := (.ok (), db)

theorem alone_honest : alone.Honest :=
  ⟨fun _ db => .refl db, fun _ db => .refl db, fun _ _ _ table h => .inr ⟨table, h, rfl⟩⟩

def metricsDb : Db Unit where
  world := ⟨⟨false, false⟩, metricsState, false, [], [], [], false⟩
  hotRows := 0
  hotBytes := 0
  rootEpoch := 0
  derivedMissing := false
  committed := []
  tick := 0

theorem metricsDb_live : LiveFloors metricsDb.state := by
  intro t
  rw [durableFloor]
  cases h : metricsDb.state.content.tables[t]? with
  | none => exact .none _
  | some table =>
    have htable : table = metrics := by
      simp only [metricsDb, Db.state, metricsState, Map.lookup_insert] at h
      split at h
      · exact (Option.some.inj h).symm
      · simp at h
    rw [htable]
    exact .none _

def metricsWrite : PreparedWrite Unit where
  item := ⟨"metrics".toList, "v1:2000:n".toList, "dn".toList, [⟨2000, ['t'], ['s'], (), ∅⟩],
    some 2000⟩
  nowUs := 2000
  admissionBytes := 600
  residentBytes := 200

def wideLimits : Limits := ⟨100, 100, 10000, 10000, 10000, 10, false⟩

end Varve.Commit
