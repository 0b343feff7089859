import Varve.Lib.Run
import Varve.Journal.Writing

/-!
# Crash recovery of the journal

Runs of a journal and its directory: operations that complete, are refused or are cut short after
any of their I/O, checkpoints that become durable in the root, crashes at any time, and reopenings
that may be cut short themselves.
-/

namespace Varve.Journal

open Disk (Through run view)

inductive Call where
  | append (records : List Bytes)
  | sealSnapshot
  | reclaim (checkpointSequence : Nat)
deriving DecidableEq, Repr

namespace Call

def records : Call → List Bytes
  | .append records => records
  | .sealSnapshot | .reclaim _ => []

/-- Only a checkpoint that is durable in the root is reclaimed through. -/
def Authorised (root : Nat) : Call → Prop
  | .reclaim c => c ≤ root
  | .append _ | .sealSnapshot => True

/-- The I/O of an operation and the journal it leaves. -/
def execute (H : Digest) (j : Journal) : Call → Except String (List Io × Journal)
  | .append records => do
    let (ops, j, _) ← j.appendGroup H records
    .ok (ops, j)
  | .sealSnapshot =>
    let (ops, j, _) := j.sealSnapshot H
    .ok (ops, j)
  | .reclaim c => j.reclaimThrough H c

end Call

/-- A directory, the journal open on it, the latest durable checkpoint, the
payloads committed under sequences one and up, and those of an append that was
cut short. -/
structure System where
  disk : Directory
  journal : Option Journal
  root : Nat
  committed : List Bytes
  inflight : List Bytes

inductive Event where
  | checkpoint (checkpointSequence : Nat)
  | call (op : Call)
  | cut (op : Call) (n : Nat)
  | crash
  | reopen
  | cutReopen (n : Nat)
deriving DecidableEq, Repr

def Event.call? : Event → Option Call
  | .call op | .cut op _ => some op
  | _ => none

inductive Step (H : Digest) (config : JournalConfig) : System → Event → System → Prop where
  | checkpoint (hj : s.journal = some j) (hr : s.root ≤ c) (hd : c ≤ j.durableSequence) :
      Step H config s (.checkpoint c) { s with root := c }
  | call (hj : s.journal = some j) (ha : op.Authorised s.root)
      (h : op.execute H j = .ok (ops, j')) :
      Step H config s (.call op)
        { s with
          disk := run s.disk ops
          journal := some j'
          committed := s.committed ++ op.records }
  | refused (hj : s.journal = some j) (h : op.execute H j = .error e) :
      Step H config s (.call op) s
  | cut (hj : s.journal = some j) (ha : op.Authorised s.root)
      (h : op.execute H j = .ok (ops, j')) (hd : Disk.Crash (run s.disk (ops.take n)) d) :
      Step H config s (.cut op n) { s with disk := d, journal := none, inflight := op.records }
  | crash (hd : Disk.Crash s.disk d) :
      Step H config s .crash { s with disk := d, journal := none }
  /-- Of an append that was cut short, what a reopening recovers is committed. -/
  | reopen (hj : s.journal = none) (hl : listing.Perm (view s.disk))
      (h : openWithCheckpoint H config s.root listing = .ok (ops, j)) :
      Step H config s .reopen
        { s with
          disk := run s.disk ops
          journal := some j
          committed := s.committed ++ s.inflight.take (j.durableSequence - s.committed.length)
          inflight := [] }
  | cutReopen (hj : s.journal = none) (hl : listing.Perm (view s.disk))
      (h : openWithCheckpoint H config s.root listing = .ok (ops, j))
      (hd : Disk.Crash (run s.disk (ops.take n)) d) :
      Step H config s (.cutReopen n) { s with disk := d }

def machine (H : Digest) (config : JournalConfig) : Machine System Event where
  init s := s = ⟨[], none, 0, [], []⟩
  step := Step H config

/-- No `reclaim_through(0)` retires two segments or more. -/
def Allowed (s : System) (e : Event) : Prop :=
  ∀ j, s.journal = some j → e.call? = some (.reclaim 0) → j.retires 0 ≤ 1

-- The invariant

variable {H : Digest} {config : JournalConfig} {s s' : System}

theorem Matches.root_lt (h : Matches H config root K L j) : root + 1 < 2 ^ 64 := by
  have := h.stored.checkpoint_le
  have := h.bound
  omega

theorem Matches.execute {op : Call} (hv : config.Valid) (h : Matches H config root K L j)
    (ha : op.Authorised root) (hsafe : op = .reclaim 0 → j.retires 0 ≤ 1)
    (he : op.execute H j = .ok (ops, j')) :
    ∃ L', Matches H config root (K ++ op.records) L' j' ∧
      Through (Interrupted H config root K op.records) (settledDir H L) ops ∧
      run (settledDir H L) ops = settledDir H L' := by
  cases op with
  | append records =>
    obtain ⟨⟨ops', j₁, receipt⟩, happend, he⟩ := Result.bind_ok.mp he
    cases he
    exact h.appendGroup hv happend
  | sealSnapshot =>
    obtain ⟨j₁, hseal, hm, -⟩ := h.sealActive
    obtain ⟨hthrough, hrun⟩ := h.stored.through_seal (H := H) (g := [])
    simp only [Call.execute, sealSnapshot, hseal] at he
    cases he
    exact ⟨L.close, (List.append_nil K).symm ▸ hm, hthrough, hrun⟩
  | reclaim c =>
    obtain ⟨L', hm, hthrough, hrun⟩ := h.reclaimThrough (g := []) ha
      (fun hc => hc ▸ hsafe (congrArg Call.reclaim hc)) he
    exact ⟨L', (List.append_nil K).symm ▸ hm, hthrough, hrun⟩

/-- The directories that no journal is open on, given by the checkpoint, what is
committed and what was in flight: `D` holds of what an operation leaves when it is
cut short, and stays true through crashes and reopenings. -/
structure Closed (H : Digest) (config : JournalConfig) (safe : Journal → Call → Prop)
    (D : Nat → List Bytes → List Bytes → Directory → Prop) : Prop where
  settled : ∀ {c K g L}, Stored config c K L → D c K g (settledDir H L)
  execute : ∀ {root K L j op ops j'}, Matches H config root K L j → op.Authorised root →
    safe j op → op.execute H j = .ok (ops, j') →
    ∃ L', Matches H config root (K ++ op.records) L' j' ∧
      Through (D root K op.records) (settledDir H L) ops ∧
      run (settledDir H L) ops = settledDir H L'
  crash : ∀ {c K g d d'}, D c K g d → Disk.Crash d d' → D c K g d'
  opens : ∀ {c K g d listing ops j}, c + 1 < 2 ^ 64 → D c K g d → listing.Perm (view d) →
    openWithCheckpoint H config c listing = .ok (ops, j) →
    ∃ tail L discarded, AllOrNone g tail ∧ Stored config c (K ++ tail) L ∧
      j = reopened H config c discarded L ∧ Through (D c K g) d ops ∧ run d ops = settledDir H L

theorem closed_interrupted (hv : config.validate = .ok ()) :
    Closed H config (fun j op => op = .reclaim 0 → j.retires 0 ≤ 1) (Interrupted H config) where
  settled := Stored.interrupted
  execute hm ha hsafe he := hm.execute (JournalConfig.valid hv) ha hsafe he
  crash := Interrupted.crash
  opens hc hd hl ho := by
    obtain ⟨tail, ops, L, discarded, ht, hL, ho', hthrough, hrun⟩ := hd.opens hv hc hl
    obtain ⟨rfl, rfl⟩ := Prod.mk.inj (Except.ok.inj (ho.symm.trans ho'))
    exact ⟨tail, L, discarded, ht, hL, rfl, hthrough, hrun⟩

/-- Without a restriction on `reclaim_through(0)`, the segments of the empty log
may be missing in any combination. -/
def Down (H : Digest) (config : JournalConfig) (checkpoint : Nat) (K inflight : List Bytes)
    (d : Directory) : Prop :=
  Interrupted H config checkpoint K inflight d ∨
    checkpoint = 0 ∧ K = [] ∧ inflight = [] ∧ Emptied H config d

theorem closed_down (hv : config.validate = .ok ()) :
    Closed H config (fun _ _ => True) (Down H config) where
  settled h := .inl h.interrupted
  execute := by
    intro root K L j op ops j' hm ha _ he
    cases op with
    | reclaim c =>
      obtain ⟨L', hm', hthrough, hrun⟩ := hm.reclaimThrough_any (g := []) ha he
      refine ⟨L', (List.append_nil K).symm ▸ hm', hthrough.mono fun d hd => ?_, hrun⟩
      exact hd.imp_right fun ⟨hroot, hK, hd⟩ => ⟨hroot, hK, rfl, hd⟩
    | append | sealSnapshot =>
      obtain ⟨L', hm', hthrough, hrun⟩ := hm.execute (JournalConfig.valid hv) ha nofun he
      exact ⟨L', hm', hthrough.mono fun _ hd => .inl hd, hrun⟩
  crash hd hcrash := hd.imp (·.crash hcrash) fun ⟨hc, hK, hg, hd⟩ => ⟨hc, hK, hg, hd.crash hcrash⟩
  opens := by
    rintro c K g d listing ops j hc (hd | ⟨rfl, rfl, rfl, hd⟩) hl ho
    · obtain ⟨tail, L, discarded, ht, hL, hj, hthrough, hrun⟩ :=
        (closed_interrupted hv).opens hc hd hl ho
      exact ⟨tail, L, discarded, ht, hL, hj, hthrough.mono fun _ hd => .inl hd, hrun⟩
    · obtain ⟨L, hL, hj, hthrough, hrun⟩ := hd.opens hv hl ho
      exact ⟨[], L, 0, .inl rfl, hL, hj,
        hthrough.mono fun _ hd => .inr ⟨rfl, rfl, rfl, hd⟩, hrun⟩

/-- An open journal matches a settled directory; without one, the directory is
as `D` has it. -/
def Consistent (H : Digest) (config : JournalConfig)
    (D : Nat → List Bytes → List Bytes → Directory → Prop) (s : System) : Prop :=
  match s.journal with
  | some j => s.inflight = [] ∧
    ∃ L, s.disk = settledDir H L ∧ Matches H config s.root s.committed L j
  | none => s.root + 1 < 2 ^ 64 ∧ D s.root s.committed s.inflight s.disk

section
variable {D : Nat → List Bytes → List Bytes → Directory → Prop}

theorem consistent_open (hj : s.journal = some j) : Consistent H config D s ↔
    s.inflight = [] ∧ ∃ L, s.disk = settledDir H L ∧ Matches H config s.root s.committed L j := by
  rw [Consistent, hj]

theorem consistent_closed (hj : s.journal = none) : Consistent H config D s ↔
    s.root + 1 < 2 ^ 64 ∧ D s.root s.committed s.inflight s.disk := by
  rw [Consistent, hj]

theorem take_allOrNone (h : AllOrNone g tail) : g.take tail.length = tail := by
  rcases h with rfl | rfl
  · rfl
  · exact List.take_length

theorem Step.consistent {safe : Journal → Call → Prop} (hD : Closed H config safe D)
    (h : Consistent H config D s)
    (ha : ∀ j op, s.journal = some j → e.call? = some op → safe j op)
    (hs : Step H config s e s') : Consistent H config D s' := by
  cases hs with
  | checkpoint hj hr hd =>
    obtain ⟨hin, L, hdisk, hm⟩ := (consistent_open hj).mp h
    exact (consistent_open (by exact hj)).mpr ⟨hin, L, hdisk, hm.advance hr (hm.durable ▸ hd)⟩
  | call hj hauth he =>
    obtain ⟨hin, L, hdisk, hm⟩ := (consistent_open hj).mp h
    obtain ⟨L', hm', -, hrun⟩ := hD.execute hm hauth (ha _ _ hj rfl) he
    exact ⟨hin, L', hdisk ▸ hrun, hm'⟩
  | refused => exact h
  | cut hj hauth he hd =>
    obtain ⟨-, L, hdisk, hm⟩ := (consistent_open hj).mp h
    obtain ⟨-, -, hthrough, -⟩ := hD.execute hm hauth (ha _ _ hj rfl) he
    rw [hdisk] at hd
    exact ⟨hm.root_lt, hD.crash (hthrough _) hd⟩
  | crash hd =>
    cases hj : s.journal with
    | none =>
      obtain ⟨hroot, hdisk⟩ := (consistent_closed hj).mp h
      exact ⟨hroot, hD.crash hdisk hd⟩
    | some j =>
      obtain ⟨-, L, hdisk, hm⟩ := (consistent_open hj).mp h
      rw [hdisk] at hd
      exact ⟨hm.root_lt, hD.crash (hD.settled hm.stored) hd⟩
  | reopen hj hl ho =>
    obtain ⟨hroot, hdisk⟩ := (consistent_closed hj).mp h
    obtain ⟨tail, L, discarded, ht, hL, rfl, -, hrun⟩ := hD.opens hroot hdisk hl ho
    have hm : Matches H config s.root (s.committed ++ tail) L
        (reopened H config s.root discarded L) := hL.matches_reopened hroot
    have hdurable : (reopened H config s.root discarded L).durableSequence - s.committed.length =
        tail.length := by
      rw [hm.durable, List.length_append, Nat.add_sub_cancel_left]
    refine ⟨rfl, L, hrun, ?_⟩
    rw [hdurable, take_allOrNone ht]
    exact hm
  | cutReopen hj hl ho hd =>
    obtain ⟨hroot, hdisk⟩ := (consistent_closed hj).mp h
    obtain ⟨tail, L, discarded, -, -, -, hthrough, -⟩ := hD.opens hroot hdisk hl ho
    exact (consistent_closed (by exact hj)).mpr ⟨hroot, hD.crash (hthrough _) hd⟩

theorem consistent_init (hD : Closed H config safe D) (hs : (machine H config).init s) :
    Consistent H config D s := by
  obtain rfl := hs
  exact ⟨by decide, hD.settled stored_empty⟩

end

theorem recoverable_of_reachable (hv : config.validate = .ok ())
    (hr : ((machine H config).restrict Allowed).Reachable s) :
    Consistent H config (Interrupted H config) s := by
  have hD := closed_interrupted (H := H) hv
  refine hr.invariant (fun s hs => consistent_init hD hs) ?_
  rintro s e s' h ⟨ha, hs⟩
  exact hs.consistent hD h (fun j op hj hop heq => ha j hj (heq ▸ hop))

theorem matches_of_reachable (hv : config.validate = .ok ())
    (hr : (machine H config).Reachable s) (hj : s.journal = some j) :
    ∃ L, s.disk = settledDir H L ∧ Matches H config s.root s.committed L j := by
  have hD := closed_down (H := H) hv
  have h : Consistent H config (Down H config) s := by
    refine hr.invariant (fun s hs => consistent_init hD hs) ?_
    intro s e s' h hs
    exact hs.consistent hD h fun _ _ _ _ => trivial
  exact ((consistent_open hj).mp h).2

-- Recovery

theorem Stored.scan {files : Listing} (hv : config.Valid) (h : Stored config c K L)
    (hs : (files.map Prod.fst).Nodup) (hf : ∀ file ∈ L.files H, file ∈ files) :
    scan H (reopened H config c discarded L) files = .ok (replayed L.pieces) := by
  have hmax : max 1 ((reopened H config c discarded L).checkpointSequence + 1) = c + 1 :=
    Nat.max_eq_right (Nat.succ_le_succ (Nat.zero_le c))
  have hscan := scanSegments_layout (H := H) (j := reopened H config c discarded L) (m := 1) hv
    h.pieces hs hf rfl
  rw [hmax] at hscan
  exact hscan

theorem Stored.nodup_files (h : Stored config c K L) : ((L.files H).map Prod.fst).Nodup :=
  (List.pairwise_map.mpr (pairwise_files h.sorted)).imp fun h => Nat.ne_of_lt h

/-- The next reopening succeeds, whatever order the directory is listed in, and
the records it visits above the checkpoint are those committed, followed by all
or none of those in flight. -/
def Recovers (H : Digest) (config : JournalConfig) (s : System) : Prop :=
  ∀ listing, listing.Perm (view s.disk) → ∃ ops j visited tail,
    openWithCheckpoint H config s.root listing = .ok (ops, j) ∧
    scan H j (view (run s.disk ops)) = .ok visited ∧ AllOrNone s.inflight tail ∧
    above s.root (visited.flatMap ReplayGroup.items) =
      above s.root (numbered 1 (s.committed ++ tail))

/-- As long as no `reclaim_through(0)` retires several segments, every crash of
every run is recovered from. -/
theorem crash_recovery (hv : config.validate = .ok ())
    (hr : ((machine H config).restrict Allowed).Reachable s) (hj : s.journal = none) :
    Recovers H config s := by
  obtain ⟨hroot, hdisk⟩ := (consistent_closed hj).mp (recoverable_of_reachable hv hr)
  intro listing hl
  obtain ⟨tail, ops, L, discarded, ht, hL, ho, -, hrun⟩ := hdisk.opens hv hroot hl
  have hvalid := JournalConfig.valid hv
  refine ⟨ops, _, replayed L.pieces, tail, ho, ?_, ht, ?_⟩
  · rw [hrun, view_settledDir]
    exact hL.scan hvalid hL.nodup_files fun _ hf => hf
  · rw [items_replayed hvalid hL.pieces]
    exact hL.above_eq

def smallConfig : JournalConfig where
  maxTotalBytes := 1024
  segmentBytes := 512
  maxSegments := 4
  maxFrameBytes := 256
  maxRecordBytes := 64
  maxRecordsPerGroup := 4

theorem allowed_closed (hj : s.journal = none) : Allowed s e := by
  intro j h
  rw [hj] at h
  cases h

theorem allowed_of_call (he : e.call? ≠ some (.reclaim 0)) : Allowed s e :=
  fun _ _ h => absurd h he

theorem settled_settledDir : ∀ e ∈ settledDir H L, e.2 = .settled e.2.content := by
  intro e he
  rcases List.mem_append.mp he with he | he
  · exact settled_entries e he
  · obtain ⟨p, -, rfl⟩ := List.mem_map.mp he
    rfl

theorem reachable_new : ((machine H smallConfig).restrict Allowed).Reachable
    ⟨[], some (reopened H smallConfig 0 0 ⟨[], none⟩), 0, [], []⟩ := by
  have ho : openWithCheckpoint H smallConfig 0 [] =
      .ok ([.syncDir], reopened H smallConfig 0 0 ⟨[], none⟩) := rfl
  have hs : Step H smallConfig ⟨[], none, 0, [], []⟩ .reopen _ := .reopen rfl (.refl []) ho
  exact .step (.init rfl) ⟨allowed_closed rfl, hs⟩

theorem crash_recovery_one_record : ∃ s,
    ((machine blake3 smallConfig).restrict Allowed).Reachable s ∧ s.journal = none ∧
      s.committed = [[7]] ∧ Recovers blake3 smallConfig s := by
  have happend : ∃ ops j, (Call.append [[7]]).execute blake3
      (reopened blake3 smallConfig 0 0 ⟨[], none⟩) = .ok (ops, j) := ⟨_, _, rfl⟩
  obtain ⟨ops, j, happend⟩ := happend
  have hs : Step blake3 smallConfig ⟨[], some _, 0, [], []⟩ (.call (.append [[7]])) _ :=
    .call rfl trivial happend
  have hr := reachable_new.step ⟨allowed_of_call (by decide), hs⟩
  obtain ⟨-, L, hdisk, -⟩ := recoverable_of_reachable (by decide) hr
  have hcrash := Disk.Crash.refl_of_settled (settled_settledDir (H := blake3) (L := L))
  rw [← hdisk] at hcrash
  have hr := hr.step ⟨allowed_of_call (e := .crash) (by decide), .crash hcrash⟩
  exact ⟨_, hr, rfl, rfl, crash_recovery (by decide) hr rfl⟩

-- The empty log with two segments

theorem run_syncOps : run (settledDir H L) (syncOps L) = settledDir H L :=
  Disk.run_eq_self_of_settled settled_settledDir fun _ => mem_syncOps

theorem reachable_reopen (hv : config.validate = .ok ())
    (hr : (machine H config).Reachable ⟨settledDir H L, none, 0, [], g⟩)
    (hL : Stored config 0 [] L) : (machine H config).Reachable
      ⟨settledDir H L, some (reopened H config 0 0 L), 0, [], []⟩ := by
  have hview : (L.files H).Perm (view (settledDir H L)) := view_settledDir (H := H) ▸ .refl _
  have ho := hL.opens hv (by decide) (.refl (L.files H))
  have hs : Step H config ⟨settledDir H L, none, 0, [], g⟩ .reopen _ := .reopen rfl hview ho
  have hdurable : (reopened H config 0 0 L).durableSequence = 0 :=
    (hL.matches_reopened (H := H) (by decide)).durable
  simp only [run_syncOps, hdurable, List.length_nil, Nat.sub_zero, List.take_zero,
    List.append_nil] at hs
  exact hr.step hs

theorem reachable_start (hr : (machine H config).Reachable
    ⟨settledDir H ⟨ps, none⟩, some j, 0, [], []⟩)
    (he : (Call.append g).execute H j = .ok (startOps H k 1 ++ more, j'))
    (h : Stored config 0 [] ⟨ps, none⟩) (hL : Stored config 0 [] ⟨ps, some ⟨k, 1, []⟩⟩) :
    (machine H config).Reachable ⟨settledDir H ⟨ps, some ⟨k, 1, []⟩⟩, none, 0, [], g⟩ := by
  obtain ⟨-, hrun⟩ := h.through_start (H := H) (g := g) hL (.inr rfl)
  have htake : (startOps H k 1 ++ more).take 4 = startOps H k 1 := List.take_left' rfl
  have hcrash : Disk.Crash (run (settledDir H ⟨ps, none⟩) ((startOps H k 1 ++ more).take 4))
      (settledDir H ⟨ps, some ⟨k, 1, []⟩⟩) := by
    rw [htake, hrun]
    exact .refl_of_settled settled_settledDir
  have hs : Step H config ⟨settledDir H ⟨ps, none⟩, some j, 0, [], []⟩ (.cut (.append g) 4) _ :=
    .cut rfl trivial he hcrash
  exact hr.step hs

theorem stored_one : Stored smallConfig 0 [] ⟨[], some ⟨1, 1, []⟩⟩ :=
  stored_empty.start (JournalConfig.valid rfl) (.inl rfl) (by decide) (by decide) (by decide)
    (by decide)

theorem stored_two : Stored smallConfig 0 [] ⟨[⟨1, 1, []⟩], some ⟨2, 1, []⟩⟩ :=
  stored_one.close.start (JournalConfig.valid rfl) (.inl rfl) (by decide) (by decide) (by decide)
    (by decide)

theorem reachable_two : (machine H smallConfig).Reachable
    ⟨settledDir H ⟨[⟨1, 1, []⟩], some ⟨2, 1, []⟩⟩,
      some (reopened H smallConfig 0 0 ⟨[⟨1, 1, []⟩], some ⟨2, 1, []⟩⟩), 0, [], []⟩ := by
  have hnew := (reachable_new (H := H)).of_restrict
  have hone := reachable_reopen rfl
    (reachable_start (g := [[0]]) hnew rfl stored_empty stored_one) stored_one
  obtain ⟨j₁, hseal⟩ : ∃ j₁, Call.sealSnapshot.execute H
      (reopened H smallConfig 0 0 ⟨[], some ⟨1, 1, []⟩⟩) =
        .ok ([.append 1 (Piece.sealBytes H ⟨1, 1, []⟩), .sync 1], j₁) := ⟨_, rfl⟩
  obtain ⟨-, hrun⟩ := stored_one.through_seal_active (H := H) (g := [])
  have hcrash : Disk.Crash (run (settledDir H ⟨[], some ⟨1, 1, []⟩⟩)
      [.append 1 (Piece.sealBytes H ⟨1, 1, []⟩), .sync 1]) (settledDir H ⟨[⟨1, 1, []⟩], none⟩) := by
    refine hrun.symm ▸ .refl_of_settled settled_settledDir
  have hs : Step H smallConfig ⟨_, some _, 0, [], []⟩ (.cut .sealSnapshot 2) _ :=
    .cut rfl trivial hseal hcrash
  have hsealed := reachable_reopen rfl (hone.step hs) stored_one.close
  exact reachable_reopen rfl
    (reachable_start (g := [[0]]) hsealed rfl stored_one.close stored_two) stored_two

/-- The second segment without the first: of two unlinks, a crash kept only the
one that came last. -/
theorem reachable_gap : ∃ s, (machine H smallConfig).Reachable s ∧ s.journal = none ∧
    s.root = 0 ∧ view s.disk = [sealedFile H ⟨2, 1, []⟩] := by
  have htwo := reachable_two (H := H)
  obtain ⟨j, hreclaim⟩ : ∃ j, (Call.reclaim 0).execute H
      (reopened H smallConfig 0 0 ⟨[⟨1, 1, []⟩], some ⟨2, 1, []⟩⟩) =
        .ok ([.append 2 (Piece.sealBytes H ⟨2, 1, []⟩), .sync 2, .unlink 2, .unlink 1, .syncDir],
          j) := ⟨_, rfl⟩
  obtain ⟨-, hrun⟩ := stored_two.through_seal_active (H := H) (g := [])
  have hunlink : run (settledDir H ⟨[⟨1, 1, []⟩], some ⟨2, 1, []⟩⟩)
      [.append 2 (Piece.sealBytes H ⟨2, 1, []⟩), .sync 2, .unlink 2, .unlink 1] =
        [sealedEntry H (⟨1, 1, []⟩, false), sealedEntry H (⟨2, 1, []⟩, false)] := by
    rw [show [_, _, _, _] = [_, _] ++ [_, _] from rfl, Disk.run_append]
    exact congrArg (fun d : Directory => run d [.unlink 2, .unlink 1]) hrun
  have hcrash : Disk.Crash [sealedEntry H (⟨1, 1, []⟩, false), sealedEntry H (⟨2, 1, []⟩, false)]
      [sealedEntry H (⟨1, 1, []⟩, false), sealedEntry H (⟨2, 1, []⟩, true)] :=
    .keep (.removed rfl rfl) (.keep (.kept (.inr rfl) (Disk.File.survives_settled.mpr rfl)) .nil)
  have hs : Step H smallConfig ⟨_, some _, 0, [], []⟩ (.cut (.reclaim 0) 4) _ :=
    .cut rfl (Nat.le_refl 0) hreclaim (hunlink ▸ hcrash)
  exact ⟨_, htwo.step hs, rfl, rfl, rfl⟩

/-- Such a directory does not open. -/
theorem unrecovered_gap : ∃ s, (machine blake3 smallConfig).Reachable s ∧ s.journal = none ∧
    ¬Recovers blake3 smallConfig s := by
  obtain ⟨s, hr, hj, hroot, hview⟩ := reachable_gap (H := blake3)
  refine ⟨s, hr, hj, fun h => ?_⟩
  obtain ⟨ops, j, -, -, ho, -⟩ := h _ (.refl _)
  rw [hroot, hview] at ho
  obtain ⟨recovered, hrec⟩ := recoverSegments_of_open ho (.refl _) (List.pairwise_singleton _ _)
  have hok : ∀ p ∈ [Piece.mk 2 1 []], p.Ok smallConfig := by
    intro p hp
    exact stored_two.pieces p (List.mem_append_right _ hp)
  obtain ⟨⟨-, -, hids⟩, -⟩ := chain_of_recoverSegments (JournalConfig.valid rfl) hok
    (fun _ => rfl) hrec
  simp at hids

end Varve.Journal
