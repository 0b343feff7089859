import Varve.Commit.Attempts

/-!
# The rounds of a grouped write

A pass of the loop asks for another one only with a checkpoint that it may take once, so that three
passes are enough.
-/

namespace Varve.Commit

open Result (bind_ok)
open Journal (Digest)
open Engine (F64 Manifest checkedCutoff i64Min)
open Effect (Spec)

variable {F D P : Type} [F64 F] {H : Digest} {sv : Services F D P} {limits : Limits}
  {mode : WriteMode} {db₀ : Db F} {inputs : List (Input F)} {s s' : Session F} {sequence : Nat}
  {e : Entry F} {pass : Pass F D}

-- Direct writes

/-- A pass whose clocks leave nothing for a checkpoint to forget. -/
def Quiet (H : Digest) (sv : Services F D P) (limits : Limits) (s : Session F) : Prop :=
  ∀ sequence, (passOf H sv limits .single s.resolved sequence).overlay.checkpointDue s.db.state =
    false

omit [F64 F] in
theorem settle_needsHeadroom (st : State (Manifest F)) (result : Outcome) :
    (pass.settle st e result).needsHeadroom = pass.needsHeadroom := by
  unfold Pass.settle
  split
  · rfl
  · split <;> rfl

theorem offer_headroom (hp : pass.needsHeadroom = false) (he : pass.entries = [])
    (h : (pass.offer H sv limits mode s sequence e).needsHeadroom = true) :
    ∃ p o, e.input = .ok p ∧ pass.overlay.retry s.db.state p.request = .ok (none, o) ∧
      (pass.offer H sv limits mode s sequence e).overlay = o ∧
      ∃ v, (pass.offer H sv limits mode s sequence e).entries = [{ e with validation := v }] := by
  have hfalse {x : Pass F D} (hx : pass.offer H sv limits mode s sequence e = x)
      (hn : x.needsHeadroom = false) : False := by
    rw [hx, hn] at h
    cases h
  cases hi : e.input with
  | error m =>
    exact (hfalse (by rw [Pass.offer, hi]) (by simp [Pass.refuse, Pass.push, hp])).elim
  | ok p =>
    cases hr : pass.overlay.retry s.db.state p.request with
    | error m =>
      refine (hfalse (x := pass.refuse e (.other m)) ?_ (by simp [Pass.refuse, Pass.push, hp])).elim
      simp only [Pass.offer, hi, hr]
    | ok x =>
      obtain ⟨receipt, o⟩ := x
      cases receipt with
      | some r =>
        refine (hfalse (x := { pass with overlay := o }.push { e with validation := none } (.ok r))
          ?_ hp).elim
        simp only [Pass.offer, hi, hr]
      | none =>
        cases ha : admission H sv limits s sequence { pass with overlay := o } p mode with
        | error refusal =>
          have hx : pass.offer H sv limits mode s sequence e =
              { pass with overlay := o }.refuse e refusal := by
            simp only [Pass.offer, hi, hr, ha]
          rw [hx]
          exact ⟨p, o, rfl, hr, rfl, some refusal.text, by simp [Pass.refuse, Pass.push, he, hi]⟩
        | ok y =>
          refine (hfalse (x := { pass with overlay := o }.accept e sequence p y.1 y.2) ?_ hp).elim
          simp only [Pass.offer, hi, hr, ha]

theorem offer_floors {Q : Map Int → Prop} (hi : e.input = .ok p) (h0 : Q pass.overlay.floors)
    (h1 : ∀ r o, pass.overlay.retry s.db.state p.request = .ok (r, o) → Q o.floors) :
    Q (pass.offer H sv limits mode s sequence e).overlay.floors := by
  unfold Pass.offer
  rw [hi]
  dsimp only
  split
  · exact h0
  · rename_i r o hr
    exact h1 _ o hr
  · rename_i o hr
    split <;> exact h1 _ o hr

omit [F64 F] in
theorem retry_again {st st' : State (Manifest F)} {item : AppendItem} {o o' : Overlay}
    (h : Overlay.retry ⟨∅, []⟩ st item = .ok (none, o))
    (hs : Settles (withFloors st (st.idempotencyFloors ∪ o.floors)) st')
    (h' : Overlay.retry ⟨∅, []⟩ st' item = .ok (r, o')) (t : Text) :
    o'.floors[t]?.or st'.idempotencyFloors[t]? = st'.idempotencyFloors[t]? := by
  obtain ⟨table, floor, ht, hr, rfl⟩ := retry_ok.mp h
  obtain ⟨hc, -⟩ := retryWithReceipt_ok.mp hr
  obtain ⟨table', floor', ht', hr', rfl⟩ := retry_ok.mp h'
  obtain ⟨hc', -⟩ := retryWithReceipt_ok.mp hr'
  obtain ⟨table'', ht'', hconfig, -⟩ := hs.table item.table table ht
  rw [ht'] at ht''
  cases ht''
  cases hw : table.config.idempotencyWindowUs with
  | none =>
    rw [clockFloor_none (by rw [hconfig, hw])] at hc'
    cases hc'
    simp
  | some window =>
    obtain ⟨-, -, -, -, rfl⟩ := (clockFloor_ok hw).mp hc
    obtain ⟨-, -, -, -, rfl⟩ := (clockFloor_ok (hconfig ▸ hw)).mp hc'
    have hfloor : st'.idempotencyFloors[item.table]? =
        some (max ((st.idempotencyFloors[item.table]?).getD i64Min)
          (checkedCutoff item.nowUs window)) := by
      rw [hs.floors, withFloors, Std.ExtTreeMap.getElem?_union]
      simp [Overlay.floor]
    simp only [Option.elim_some, Map.lookup_insert]
    split
    · subst t
      simp [Overlay.floor, hfloor]
    · simp

theorem quiet_of_headroom (hone : s.entries = [e]) (hlive : LiveFloors s.db.state)
    (hd : e.Duplicate)
    (hn : (passOf H sv limits .single s sequence).needsHeadroom = true)
    (he : s'.entries = (passOf H sv limits .single s sequence).entries)
    (hs : Settles (withFloors s.db.state (s.db.state.idempotencyFloors ∪
      (passOf H sv limits .single s sequence).overlay.floors)) s'.db.state) :
    Quiet H sv limits s' := by
  have hstaged : Staged .single s.db.state sequence s.entries
      (passOf H sv limits .single s sequence) := by
    refine staged_passOf ?_
    rw [hone]
    exact List.forall_mem_singleton.mpr hd
  have hraise : LiveFloors (withFloors s.db.state (s.db.state.idempotencyFloors ∪
      (passOf H sv limits .single s sequence).overlay.floors)) := by
    refine hlive.raise rfl fun t => ?_
    rw [withFloors, Std.ExtTreeMap.getElem?_union]
    exact hstaged.floors t
  have hdue := hs.due hraise
  rw [passOf, hone, List.foldl_cons, List.foldl_nil, Pass.stage] at hn he hs
  cases hdur : e.durable with
  | some result =>
    rw [hdur] at hn
    dsimp only at hn
    rw [settle_needsHeadroom] at hn
    cases hn
  | none =>
    rw [hdur] at hn he hs
    dsimp only at hn he hs
    obtain ⟨p, o, hi, hr, ho, v, hentries⟩ := offer_headroom rfl rfl hn
    rw [hentries] at he
    rw [ho] at hs
    obtain ⟨table, floor, ht, hreceipt, -⟩ := retry_ok.mp hr
    obtain ⟨-, -, hnone⟩ := retryWithReceipt_ok.mp hreceipt
    obtain ⟨-, hcat⟩ := Option.or_eq_none_iff.mp (Option.map_eq_none_iff.mp hnone.symm)
    obtain ⟨table', ht', -, hkeep⟩ := hs.table p.item.table table ht
    have hknown : known s'.db.state p = false := by
      rw [known, ht']
      show table'.receipts[p.item.requestId]?.isSome = false
      rw [show table'.receipts[p.item.requestId]? = none from hkeep _ hcat]
      rfl
    intro sequence'
    have hresolved : s'.resolved.entries = [{ e with validation := v }] := by
      simp only [Session.resolved, resolveGroupDurable, he, sweep, resolveEntry, hi, hdur, hknown]
      simp
    rw [passOf, hresolved, List.foldl_cons, List.foldl_nil, Pass.stage]
    simp only [hdur]
    rw [Overlay.checkpointDue, ← hdue, idempotencyCheckpointDue]
    congr 1
    funext t
    refine offer_floors (Q := fun floors => floors[t]?.or s'.db.state.idempotencyFloors[t]? =
      s'.db.state.idempotencyFloors[t]?) hi ?_ fun r o' hr' => ?_
    · simp
    · exact retry_again hr hs hr' t

def Left (H : Digest) (sv : Services F D P) (limits : Limits) (mode : WriteMode) :
    Nat → Session F → Prop
  | 0, _ => False
  | 1, s => s.offlockUsed = true ∧ s.checkpointRetry = false
  | 2, s => s.checkpointRetry = false ∧
      (s.offlockUsed = true ∨ mode = .group ∨ Quiet H sv limits s)
  | _, s => s.offlockUsed = true → s.checkpointRetry = false

theorem Left.of_used (hoff : s'.offlockUsed = true) (hretry : s'.checkpointRetry = false)
    (hs : s.offlockUsed = true → s.checkpointRetry = false → False)
    (h : Left H sv limits mode (n + 1) s) : Left H sv limits mode n s' := by
  match n with
  | 0 => exact hs h.1 h.2
  | 1 => exact ⟨hoff, hretry⟩
  | 2 => exact ⟨hretry, .inl hoff⟩
  | _ + 3 => exact fun _ => hretry

theorem Left.of_room {s₁ : Session F} (hw : wantsRoom mode s₁ pass = true)
    (hflags : s₁.offlockUsed = s.offlockUsed ∧ s₁.checkpointRetry = s.checkpointRetry)
    (hdue : Quiet H sv limits s → pass.overlay.checkpointDue s₁.db.state = false ∨ mode = .group)
    (hoff : s'.offlockUsed =
      (s₁.offlockUsed || limits.checkpointFrozenPrefix || pass.needsDirect))
    (hretry : s'.checkpointRetry = false)
    (hquiet : mode = .single → limits.checkpointFrozenPrefix = false → pass.needsHeadroom = true →
      Quiet H sv limits s')
    (h : Left H sv limits mode (n + 1) s) : Left H sv limits mode n s' := by
  obtain ⟨hused₁, hretry₁⟩ := hflags
  rw [hused₁] at hoff
  simp only [wantsRoom, hused₁, hretry₁, Bool.or_eq_true, Bool.and_eq_true,
    Bool.not_eq_true'] at hw
  match n with
  | 0 =>
    obtain ⟨hused, hno⟩ := h
    simp [hused, hno] at hw
  | 1 =>
    obtain ⟨hno, hcases⟩ := h
    refine ⟨?_, hretry⟩
    rw [hoff]
    rcases hw with ⟨-, hw | ⟨⟨hgrouped, hused⟩, hcheck⟩⟩ | ⟨hdirect, -⟩
    · rw [hno] at hw
      cases hw
    · rcases hcases with hc | hc | hc
      · rw [hc] at hused
        cases hused
      · simp [WriteMode.grouped, hc] at hgrouped
      · rcases hdue hc with hdue | hdue
        · rw [hdue] at hcheck
          cases hcheck
        · simp [WriteMode.grouped, hdue] at hgrouped
    · simp [hdirect]
  | 2 =>
    refine ⟨hretry, ?_⟩
    cases hm : mode with
    | group => exact .inr (.inl rfl)
    | single =>
      rcases hw with ⟨hheadroom, -⟩ | ⟨hdirect, -⟩
      · cases hf : limits.checkpointFrozenPrefix with
        | true => exact .inl (by rw [hoff, hf]; simp)
        | false => exact .inr (.inr (hquiet hm hf hheadroom))
      · exact .inl (by rw [hoff, hdirect, Bool.or_true])
  | _ + 3 => exact fun _ => hretry

-- A pass

/-- The publication of a record that continues the state. -/
structure Publishes (limits : Limits) (mode : WriteMode) (inputs : List (Input F)) (db : Db F)
    (results : List Outcome) (p : PreparedPublication (Manifest F)) (record : Record F) : Prop where
  sequence : p.sequence = record.sequence
  next : record.sequence = db.state.sequence + 1
  encoded : p.encoded = ⟨record.sequence, record.bytes⟩
  accepted : acceptedOf inputs results = record.items.map (·, record.sequence)
  bytes : mode = .group → record.bytes.length ≤ limits.maxBatchBytes
  mode : record.mode = mode
  before : ∀ (t : Text) v, p.floorsBefore[t]? = some v →
    AtLeast v db.state.idempotencyFloors[t]?
  floors : ∀ t : Text, AtLeast (p.pending.floors[t]?.or db.state.idempotencyFloors[t]?)
    db.state.idempotencyFloors[t]?
  install : ∀ c, FloorsKept c (p.pending.install c)

structure Ready.Fits (limits : Limits) (mode : WriteMode) (inputs : List (Input F)) (db : Db F)
    (r : Ready F) : Prop where
  length : r.epoch.results.length = inputs.length
  none : r.record = none → r.epoch.publication = none ∧ acceptedOf inputs r.epoch.results = []
  some : ∀ record, r.record = some record → ∃ p, r.epoch.publication = some p ∧
    Publishes limits mode inputs db r.epoch.results p record

structure Round (H : Digest) (sv : Services F D P) (limits : Limits) (mode : WriteMode)
    (inputs : List (Input F)) (s : Session F) (ready : Option (Ready F)) (s' : Session F) :
    Prop where
  fits : ∀ r, ready = some r → r.Fits limits mode inputs s'.db
  left : ready = none → ∀ n, Left H sv limits mode (n + 1) s → Left H sv limits mode n s'

omit [F64 F] in
theorem fits_settled {results : List Outcome} (hlen : results.length = inputs.length)
    (hnone : acceptedOf inputs results = []) (floors : Map Int) (db : Db F) :
    Ready.Fits limits mode inputs db ⟨⟨results, floors, none⟩, none⟩ :=
  ⟨hlen, fun _ => ⟨rfl, hnone⟩, fun _ h => nomatch h⟩

theorem settled_spec {results : List Outcome} (h : Since db₀ inputs s') (s : Session F)
    (hlen : results.length = inputs.length) (hnone : acceptedOf inputs results = []) :
    Spec (settled results) s' (Since db₀ inputs) (Round H sv limits mode inputs s) := by
  refine Spec.modify_bind (Spec.pure ?_ ⟨?_, fun hn => nomatch hn⟩)
  · refine h.db ?_
    have hraise : Grows s'.db (s'.db.onState (commitGroupDuplicateFloors · s'.requests)) [] :=
      grows_onState rfl rfl (raised_duplicates _)
    exact hraise.trans (grows_of rfl rfl rfl id)
  · rintro r ⟨⟩
    exact fits_settled hlen hnone _ _

theorem refused_ok {x : Except String α} : refused x = .ok a ↔ x = .ok a := by
  cases x <;> simp [refused, Except.mapError]

theorem publication_ok {before : Map (Option Int)} {p : PreparedPublication (Manifest F)}
    (h : publication H sv limits mode s sequence pass before = .ok (p, bytes)) :
    p.sequence = sequence ∧ p.encoded = ⟨sequence, bytes⟩ ∧ p.floorsBefore = before ∧
      p.pending.floors = pass.overlay.floors ∧ (∃ delta, p.pending.install = sv.install delta) ∧
      (mode = .group → bytes.length ≤ limits.maxBatchBytes) := by
  simp only [publication, bind_ok, refused_ok] at h
  obtain ⟨encoded, -, _, hsize, _, -, _, -, now, -, needed, -, _, -, delta, -, _, -, h⟩ := h
  cases h
  exact ⟨rfl, rfl, rfl, rfl, ⟨delta, rfl⟩, (Result.ensure_ok.mp hsize).1⟩

/-- What is known of a pass when its outcomes are settled. -/
structure Passed (mode : WriteMode) (inputs : List (Input F)) (s : Session F) (sequence : Nat)
    (pass : Pass F D) (before : Map (Option Int)) : Prop where
  next : sequence = s.db.state.sequence + 1
  length : pass.outcomes.length = inputs.length
  accepted : acceptedOf inputs pass.outcomes = pass.items.map (·, sequence)
  floors : ∀ t : Text, AtLeast (pass.overlay.floor s.db.state t) s.db.state.idempotencyFloors[t]?
  before : ∀ (t : Text) v, before[t]? = some v → AtLeast v s.db.state.idempotencyFloors[t]?

variable {before : Map (Option Int)}

section
omit [F64 F]

theorem Passed.failed (h : Passed mode inputs s sequence pass before) (m : String) :
    (failResults sequence m pass.outcomes).length = inputs.length ∧
      acceptedOf inputs (failResults sequence m pass.outcomes) = [] := by
  refine ⟨by rw [failResults, List.length_map, h.length], acceptedOf_failResults fun x hx => ?_⟩
  rw [h.accepted] at hx
  obtain ⟨_, -, rfl⟩ := List.mem_map.mp hx
  rfl

theorem raised_union {st : State (Manifest F)} {floors : Map Int}
    (h : ∀ t : Text, AtLeast (floors[t]?.or st.idempotencyFloors[t]?) st.idempotencyFloors[t]?) :
    Raised st.idempotencyFloors (st.idempotencyFloors ∪ floors) := by
  intro t
  rw [Std.ExtTreeMap.getElem?_union]
  exact h t

theorem takeRoom_spec (hsv : sv.Honest) (h : Since db₀ inputs s)
    (hp : Passed mode inputs s sequence pass before) :
    Spec (takeRoom sv limits mode pass before) s (Since db₀ inputs) fun ready s' =>
      ready = none ∧ s'.entries = s.entries ∧ s'.checkpointRetry = false ∧
        s'.offlockUsed = (s.offlockUsed || limits.checkpointFrozenPrefix || pass.needsDirect) ∧
        (limits.checkpointFrozenPrefix = false →
          Settles (retryFloors mode pass before s.db.state) s'.db.state) := by
  have hg : Grows s.db (s.db.onState (retryFloors mode pass before)) [] := by
    cases mode with
    | group => exact grows_restore hp.before
    | single => exact grows_onState rfl rfl (raised_union hp.floors)
  have h₁ : Since db₀ inputs { s with
      checkpointRetry := false, db := s.db.onState (retryFloors mode pass before) } :=
    ⟨h.grows.trans hg, h.inputs, h.duplicates⟩
  refine Spec.modify_bind (Spec.bind (pressure_spec hsv h₁) ?_)
  rintro ⟨⟩ s₂ h₂ ⟨hf, hs⟩
  refine Spec.modify_bind (Spec.pure (h₂.flags _ _ _) ⟨rfl, hf.entries, hf.checkpointRetry, ?_, hs⟩)
  show (s₂.offlockUsed || _ || _) = _
  rw [hf.offlockUsed]

end

theorem abandon_spec (hsv : sv.Honest) (h : Since db₀ inputs s)
    (hp : Passed mode inputs s sequence pass before) (s₁ : Session F)
    (hoff : s₁.offlockUsed = s.offlockUsed) (refusal : Refusal) :
    Spec (abandon sv limits sequence pass before refusal) s (Since db₀ inputs)
      (Round H sv limits mode inputs s₁) := by
  have hg : Since db₀ inputs { s with db := s.db.onState (restoreGroupFloors · before) } :=
    h.db (grows_restore hp.before)
  refine Spec.modify_bind (Spec.get_bind ?_)
  split
  · rename_i hc
    refine Spec.bind (pressure_spec hsv hg) fun _ s₂ h₂ _ => ?_
    refine Spec.modify_bind (Spec.pure (h₂.flags _ _ _) ⟨fun r hr => (nomatch hr), ?_⟩)
    intro _ n hl
    refine hl.of_used rfl rfl fun hused _ => ?_
    rw [hoff, show s.offlockUsed = false from hc.2] at hused
    cases hused
  · obtain ⟨hlen, hnone⟩ := hp.failed refusal.text
    exact settled_spec hg s₁ hlen hnone

theorem materialize_spec (hsv : sv.Honest) (h : Since db₀ inputs s)
    (hp : Passed mode inputs s sequence pass before) (s₁ : Session F)
    {p : PreparedPublication (Manifest F)}
    (hpub : publication H sv limits mode s sequence pass before = .ok (p, bytes)) :
    Spec (materialize sv mode sequence pass p bytes) s (Since db₀ inputs)
      (Round H sv limits mode inputs s₁) := by
  obtain ⟨hseq, henc, hbefore, hfloors, ⟨delta, hinstall⟩, hbytes⟩ := publication_ok hpub
  refine Spec.get_bind (Spec.bind (ask_spec h) ?_)
  rintro n _ h₁ ⟨-, rfl⟩
  cases sv.materialize n with
  | error m =>
    obtain ⟨hlen, hnone⟩ := hp.failed m
    refine Spec.modify_bind (Spec.pure (h₁.db ?_) ⟨?_, fun hn => nomatch hn⟩)
    · have hg (floors : Map Int) (db : Db F) (hdb : db.state = s.db.state) :
          Grows db (db.onState fun st =>
            installDuplicateFloors (restoreGroupFloors st before) floors) [] :=
        grows_onState rfl rfl fun t => (raised_installDuplicateFloors _ t).trans
          (raised_restore (hdb ▸ hp.before) t)
      rw [hbefore]
      exact (hg (terminalFloors s) { s.db with tick := s.db.tick + 1 } rfl).trans
        (grows_of rfl rfl rfl id)
    · rintro r ⟨⟩
      exact fits_settled hlen hnone _ _
  | ok u =>
    refine Spec.pure h₁ ⟨?_, fun hn => nomatch hn⟩
    rintro r ⟨⟩
    refine ⟨hp.length, fun hn => (nomatch hn), ?_⟩
    rintro record ⟨⟩
    refine ⟨p, rfl, hseq, hp.next, henc, hp.accepted, hbytes, rfl, ?_, ?_, fun c => ?_⟩
    · rw [hbefore]
      exact hp.before
    · rw [hfloors]
      exact hp.floors
    · rw [hinstall]
      exact hsv.install delta c

theorem conclude_spec (hsv : sv.Honest) (h : Since db₀ inputs s)
    (hp : Passed mode inputs s sequence pass before) (s₁ : Session F)
    (hoff : s₁.offlockUsed = s.offlockUsed) :
    Spec (conclude H sv limits mode sequence pass before) s (Since db₀ inputs)
      (Round H sv limits mode inputs s₁) := by
  refine Spec.get_bind ?_
  cases hpub : publication H sv limits mode s sequence pass before with
  | ok x =>
    obtain ⟨p, bytes⟩ := x
    exact materialize_spec hsv h hp s₁ hpub
  | error refusal => exact abandon_spec hsv h hp s₁ hoff refusal

theorem attempt_spec (hsv : sv.Honest) (hone : mode = .single → inputs.length = 1)
    (hlive : LiveFloors db₀.state) (h : Since db₀ inputs s) :
    Spec (attempt H sv limits mode) s (Since db₀ inputs) (Round H sv limits mode inputs s) := by
  have hr := h.resolved
  refine Spec.modify_bind (Spec.get_bind (Spec.lift_bind hr fun sequence hseq => ?_))
  obtain ⟨-, hnext⟩ := nextSequence_ok.mp hseq
  have hst : Staged mode s.db.state sequence s.resolved.entries
      (passOf H sv limits mode s.resolved sequence) := staged_passOf hr.duplicates
  have h' : Since db₀ inputs { s.resolved with
      entries := (passOf H sv limits mode s.resolved sequence).entries } :=
    ⟨hr.grows, hst.inputs.trans hr.inputs, hst.duplicates⟩
  have hp : Passed mode inputs { s.resolved with
      entries := (passOf H sv limits mode s.resolved sequence).entries } sequence
      (passOf H sv limits mode s.resolved sequence)
      (groupCheckpointFloors s.db.state
        ((passOf H sv limits mode s.resolved sequence).entries.map Entry.request)) := by
    refine ⟨hnext, ?_, hr.inputs ▸ hst.accepted, hst.floors, fun t v => groupCheckpointFloors_live⟩
    rw [hst.length, ← hr.inputs, List.length_map]
  refine Spec.modify_bind ?_
  dsimp only
  split
  · rename_i hwants
    refine (takeRoom_spec hsv h' hp).mono ?_
    rintro ready s' ⟨rfl, hentries, hretry, hoff, hsettles⟩
    refine ⟨fun r hr => (nomatch hr), fun _ n hl =>
      Left.of_room (s := s) hwants ⟨rfl, rfl⟩ ?_ hoff hretry ?_ hl⟩
    · intro hq
      cases mode with
      | group => exact .inr rfl
      | single => exact .inl (hq sequence)
    · rintro rfl hf hheadroom
      have hlen : s.resolved.entries.length = 1 := by
        rw [← List.length_map (f := Entry.input), hr.inputs]
        exact hone rfl
      obtain ⟨e, he⟩ := List.length_eq_one_iff.mp hlen
      refine quiet_of_headroom he (hr.grows.live hlive) ?_ hheadroom hentries (hsettles hf)
      exact hr.duplicates e (by rw [he]; exact List.mem_singleton_self e)
  · split
    · rename_i hempty
      have hnone :
          acceptedOf inputs (passOf H sv limits mode s.resolved sequence).outcomes = [] := by
        rw [hp.accepted, List.isEmpty_iff.mp hempty]
        rfl
      refine Spec.modify_bind (settled_spec (h'.db ?_) s hp.length hnone)
      exact grows_onState rfl rfl (raised_union hst.floors)
    · exact conclude_spec hsv h' hp s rfl

theorem attempts_spec (hsv : sv.Honest) (hone : mode = .single → inputs.length = 1)
    (hlive : LiveFloors db₀.state) (h : Since db₀ inputs s) (hl : Left H sv limits mode n s)
    (hn : n ≤ fuel) :
    Spec (attempts H sv limits mode fuel) s (Since db₀ inputs) fun ready s' =>
      ∃ r, ready = some r ∧ r.Fits limits mode inputs s'.db := by
  induction fuel generalizing s n with
  | zero =>
    cases Nat.le_zero.mp hn
    exact hl.elim
  | succ fuel ih =>
    cases n with
    | zero => exact hl.elim
    | succ n =>
      refine Spec.bind (attempt_spec hsv hone hlive h) fun ready s' h' hround => ?_
      cases ready with
      | none => exact ih h' (hround.left rfl n hl) (Nat.le_of_succ_le_succ hn)
      | some r => exact Spec.pure h' ⟨r, rfl, hround.fits r rfl⟩

-- Errors

omit [F64 F] in
theorem acceptedOf_outcomes {entries : List (Entry F)} (h : Duplicates entries) (m : String) :
    acceptedOf (entries.map Entry.input) (entries.map (Entry.outcome m)) = [] := by
  induction entries with
  | nil => rfl
  | cons e entries ih =>
    obtain ⟨he, hrest⟩ := List.forall_mem_cons.mp h
    have hnone : accepted e.input (e.outcome m) = none := by
      cases hd : e.durable with
      | none =>
        rw [Entry.outcome, hd]
        exact accepted_error _ _
      | some outcome =>
        rw [Entry.outcome, hd]
        cases outcome with
        | error x => exact accepted_error _ _
        | ok r => exact accepted_duplicate (he r hd)
    have hcons := acceptedOf_append (a := [e.input]) (x := [e.outcome m])
      (b := entries.map Entry.input) (y := entries.map (Entry.outcome m)) rfl
    rw [acceptedOf_singleton, hnone, ih hrest] at hcons
    exact hcons

omit [F64 F] in
theorem Since.salvage (hsv : sv.Honest) (h : Since db₀ inputs s) :
    Since db₀ inputs (Commit.salvage sv s) := by
  have hleave : Grows s.db s.db.leave [] := grows_of rfl rfl rfl id
  have hg : Grows db₀ (sv.others s.db.tick s.db.leave) [] :=
    (h.grows.trans hleave).trans (hsv.others _ _)
  unfold Commit.salvage
  dsimp only
  split
  · exact ⟨hg, h.inputs, h.duplicates⟩
  · have hraise (group : List Request) : Grows (sv.others s.db.tick s.db.leave)
        ((sv.others s.db.tick s.db.leave).onState (commitGroupDuplicateFloors · group)) [] :=
      grows_onState rfl rfl (raised_duplicates _)
    refine ⟨hg.trans (hraise _), ?_, ?_⟩
    · dsimp only
      split
      · exact (sweep_keeps (resolveTerminalEntry_keeps _) ∅ s.entries).1.trans h.inputs
      · exact h.inputs
    · dsimp only
      split
      · exact (sweep_keeps (resolveTerminalEntry_keeps _) ∅ s.entries).2 h.duplicates
      · exact h.duplicates

theorem prepareGroupAttempts_spec (hsv : sv.Honest) (hone : mode = .single → inputs.length = 1)
    (hlive : LiveFloors db₀.state) (hfuel : 3 ≤ fuel) :
    ∃ r db, prepareGroupAttempts H sv limits fuel mode inputs db₀ = (some r, db) ∧
      Grows db₀ db [] ∧ r.Fits limits mode inputs db := by
  have h : Since db₀ inputs ⟨db₀, inputs.map (⟨·, none, none⟩), false, false, false⟩ := by
    refine ⟨.refl db₀, ?_, fun e he r hr => ?_⟩
    · rw [List.map_map]
      exact List.map_id _
    · obtain ⟨i, -, rfl⟩ := List.mem_map.mp he
      cases hr
  have hspec : Spec (do start sv limits mode; attempts H sv limits mode fuel)
      ⟨db₀, inputs.map (⟨·, none, none⟩), false, false, false⟩ (Since db₀ inputs) fun ready s' =>
        ∃ r, ready = some r ∧ r.Fits limits mode inputs s'.db :=
    Spec.bind (start_spec hsv h) fun _ s' h' hl =>
      attempts_spec (n := 3) hsv hone hlive h' hl hfuel
  obtain ⟨hsince, hok⟩ := hspec
  unfold prepareGroupAttempts
  split
  · rename_i ready s' hrun
    rw [hrun] at hsince
    obtain ⟨r, rfl, hfits⟩ := hok _ _ hrun
    exact ⟨r, _, rfl, hsince.grows, hfits⟩
  · rename_i m s' hrun
    rw [hrun] at hsince
    have hs := hsince.salvage hsv
    refine ⟨_, _, rfl, hs.grows, fits_settled ?_ ?_ _ _⟩
    · rw [List.length_map, ← hs.inputs, List.length_map]
    · have := acceptedOf_outcomes hs.duplicates m
      rwa [hs.inputs] at this

end Varve.Commit
