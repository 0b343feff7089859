import Varve.Commit.FloorSafety
import Varve.Lib.Effect
import Varve.Wal.Encoding

/-!
# The grouped write driver

`write_prepared_group` and `prepare_group_attempts` in `engine.rs`: inputs are
gathered into groups within the limits, and a group is staged against the
committed state, once more after each checkpoint that makes room for it. What
the rows of an input add to the derived state is a parameter, as are the other
threads, the disk and the log; `tick` counts how often one of them was asked.
-/

namespace Varve.Commit

open Result (ensure)
open Journal (Digest)
open Engine (F64 Table Manifest Segment checkedCutoff context)
open Effect (get modify lift check)

inductive WriteMode where
  | single
  | group
deriving DecidableEq, Repr

def WriteMode.grouped (mode : WriteMode) : Bool := mode = .group

/-- The limits of `Config` that a write reads. -/
structure Limits where
  maxBatchRows : Nat
  hotMaxRows : Nat
  maxBatchBytes : Nat
  hotMaxBytes : Nat
  walMaxBytes : Nat
  maxIdempotencyKeys : Nat
  checkpointFrozenPrefix : Bool

/-- A validated input with its clock. -/
structure PreparedWrite (F : Type) where
  item : Wal.AppendItem F
  nowUs : Int
  admissionBytes : Nat
  residentBytes : Nat

abbrev Input (F : Type) := Except String (PreparedWrite F)

/-- Why an input is not accepted; the first two ask for a checkpoint. -/
inductive Refusal where
  | headroom
  | offLock
  | other (message : String)
deriving DecidableEq, Repr

def Refusal.text : Refusal → String
  | .headroom => "projected checkpoint exceeds metadata byte budget"
  | .offLock => "group requires an off-lock checkpoint"
  | .other message => message

def refused (x : Except String α) : Except Refusal α := x.mapError .other

/-- What the disk makes of a checkpoint under the locks. -/
inductive Checkpoint where
  | failed (message : String) (fence : Option String)
  | done (segments : Text → List Segment) (walBytes generation : Nat) (sweep : Except String Unit)

/-- A record that has become visible, and its inputs. -/
structure Record (F : Type) where
  mode : WriteMode
  sequence : Nat
  items : List (PreparedWrite F)
  bytes : Bytes

structure Db (F : Type) where
  world : World (Manifest F)
  hotRows : Nat
  hotBytes : Nat
  rootEpoch : Nat
  derivedMissing : Bool
  committed : List (Record F)
  tick : Nat

/-- What a write asks of others: `D` is the derived state with the inputs accepted so far, `P` an
input's part of it before the last limits are checked. -/
structure Services (F D P : Type) where
  derived : Db F → D
  preflight : Db F → D → WriteMode → Nat → Nat → PreparedWrite F → Except Refusal P
  finish : Db F → D → WriteMode → P → Except Refusal D
  prove : Db F → D → Nat → Option Text → Except String D
  install : D → Manifest F → Manifest F
  required : Nat → Bytes → Except String Nat
  materialize : Nat → Except String Unit
  append : Nat → Append
  fence : Nat → Option String
  poison : Nat → Bool
  locked : Nat → Checkpoint
  /-- Everything the other threads do until the locks are taken. -/
  others : Nat → Db F → Db F
  /-- A checkpoint taken while the locks are free for the other threads. -/
  offLock : Nat → Db F → Except String Unit × Db F

/-- An input, its outcome by durable state and the last error of its validation. -/
structure Entry (F : Type) where
  input : Input F
  durable : Option Outcome
  validation : Option String

/-- What a call of `prepare_group_attempts` keeps when an error ends it. -/
structure Session (F : Type) where
  db : Db F
  entries : List (Entry F)
  initialPending : Bool
  checkpointRetry : Bool
  offlockUsed : Bool

abbrev Run (F : Type) := Effect (Session F)

variable {F D P : Type}

def PreparedWrite.request (p : PreparedWrite F) : AppendItem :=
  ⟨p.item.table, p.item.requestId, p.item.rows.length, p.item.digest, p.nowUs⟩

def Entry.request (e : Entry F) : Request := (e.input.map PreparedWrite.request, e.durable)

def Db.state (db : Db F) : State (Manifest F) := db.world.state

def Db.onState (f : State (Manifest F) → State (Manifest F)) (db : Db F) : Db F :=
  { db with world := { db.world with state := f db.world.state } }

def Session.requests (s : Session F) : List Request := s.entries.map Entry.request

def onDb (f : Db F → Db F) : Run F Unit := modify fun s => { s with db := f s.db }

/-- A table whose receipts a checkpoint would change under these floors. -/
def dueTable (floor : Text → Option Int) (name : Text) (table : Table F) : Bool :=
  table.config.idempotencyWindowUs.isSome &&
    (table.receipts.toList.any (fun r => r.2.issuedUs.isNone) ||
      (floor name).any fun f => table.idempotencyFloorUs ≠ some f ||
        table.receipts.toList.any fun r => r.2.issuedUs.any (· < f))

def dueWith (s : State (Manifest F)) (floor : Text → Option Int) : Bool :=
  s.content.tables.toList.any fun p => dueTable floor p.1 p.2

def idempotencyCheckpointDue (s : State (Manifest F)) : Bool :=
  dueWith s fun t => s.idempotencyFloors[t]?

def Overlay.checkpointDue (o : Overlay) (s : State (Manifest F)) : Bool := dueWith s (o.floor s)

def receiptCount (s : State (Manifest F)) : Nat :=
  (s.content.tables.toList.map fun p => p.2.receipts.size).sum

def hasReceipt (s : State (Manifest F)) (p : PreparedWrite F) : Bool :=
  s.content.tables[p.item.table]?.any fun table => table.receipts[p.item.requestId]?.isSome

/-- A durable retry or conflict, or an unknown table. -/
def known (s : State (Manifest F)) (p : PreparedWrite F) : Bool :=
  s.content.tables[p.item.table]?.all fun table => table.receipts[p.item.requestId]?.isSome

def noteFloor (s : State (Manifest F)) (floors : Map Int) (e : Entry F) : Map Int :=
  match e.input with
  | .error _ => floors
  | .ok p => s.idempotencyFloors[p.item.table]?.elim floors (floors.insert p.item.table)

def retried : Except String (Option WriteReceipt × Map Int) → Outcome
  | .error e => .error e
  | .ok (none, _) => .error "existing durable receipt"
  | .ok (some r, _) => .ok r

/-- One input of the loop of `resolve_group_durable`. -/
def resolveEntry (s : State (Manifest F)) (floors : Map Int) (e : Entry F) : Entry F × Map Int :=
  match e.input, e.durable with
  | .error m, _ => ({ e with durable := some (.error m) }, floors)
  | .ok p, some (.ok _) =>
    (e, (duplicateClockFloor s p.request).elim floors (raise floors p.item.table))
  | .ok _, some (.error _) => (e, floors)
  | .ok p, none =>
    let result := groupRetryWithFloors s.content floors p.request
    ({ e with durable := if known s p then some (retried result) else none },
      (result.toOption.map Prod.snd).getD floors)

/-- The inputs in order, with floors that follow them. -/
def sweep (f : Map Int → Entry F → Entry F × Map Int) : Map Int → List (Entry F) → List (Entry F)
  | _, [] => []
  | floors, e :: entries => (f floors e).1 :: sweep f (f floors e).2 entries

def resolveGroupDurable (s : State (Manifest F)) (entries : List (Entry F)) : List (Entry F) :=
  sweep (resolveEntry s) (entries.foldl (noteFloor s) ∅) entries

/-- One input of the loop of `resolve_terminal_durable`. -/
def resolveTerminalEntry (s : State (Manifest F)) (floors : Map Int) (e : Entry F) :
    Entry F × Map Int :=
  match e.input with
  | .error _ => (e, floors)
  | .ok p =>
    if hasReceipt s p then
      let floors := s.idempotencyFloors[p.item.table]?.elim floors fun floor =>
        floors.insert p.item.table (max (floors[p.item.table]?.getD floor) floor)
      match e.durable with
      | some (.ok _) => (e, (duplicateClockFloor s p.request).elim floors fun floor =>
          floors.insert p.item.table (max (floors[p.item.table]?.getD floor) floor))
      | _ =>
        let result := groupRetryWithFloors s.content floors p.request
        ({ e with durable := some (retried result) },
          (result.toOption.map Prod.snd).getD floors)
    else (e, floors)

def resolveTerminalDurable (s : State (Manifest F)) (entries : List (Entry F)) : List (Entry F) :=
  sweep (resolveTerminalEntry s) ∅ entries

-- Locks and checkpoints

section
variable (sv : Services F D P) (limits : Limits)

def ask : Run F Nat := do
  let s ← get
  onDb fun db => { db with tick := db.tick + 1 }
  pure s.db.tick

def lockGate : Run F Unit := do
  let s ← get
  let held ← lift s.db.world.gate.lock
  onDb fun db => { db with world := { db.world with gate := held.2 } }

def enter : Run F Unit := do
  let n ← ask
  onDb (sv.others n)
  lockGate
  let s ← get
  lift (s.db.world.lock >>= healthy)

def Db.leave (db : Db F) : Db F :=
  { db with world := { db.world with gate := Lease.drop ⟨false⟩ false db.world.gate } }

def upToDate (db : Db F) : Bool :=
  db.state.sequence = db.state.content.checkpointSequence && db.hotRows = 0 &&
    !idempotencyCheckpointDue db.state && !db.derivedMissing

def addSegments (segments : Text → List Segment) (c : Manifest F) : Manifest F :=
  { c with tables := c.tables.map fun name t => { t with segments := t.segments ++ segments name } }

def Db.checkpointed (db : Db F) (segments : Text → List Segment) (walBytes generation : Nat) :
    Db F :=
  let content := addSegments segments (Commit.checkpointed db.state).content
  { db with
    world := { db.world with state := { db.state with
      content := { content with checkpointSequence := db.state.sequence }
      walBytes := walBytes
      generation := generation
      hotEpochs := [] } }
    hotRows := 0
    hotBytes := 0
    rootEpoch := db.rootEpoch + 1
    derivedMissing := false }

def Db.fenced (db : Db F) (fence : Option String) : Db F :=
  db.onState fun s => { s with fenced := s.fenced.or fence }

def takeCheckpoint : Checkpoint → Run F Unit
  | .failed message fence => do
    onDb (·.fenced fence)
    lift (.error message)
  | .done segments walBytes generation sweep => do
    onDb (·.checkpointed segments walBytes generation)
    lift sweep

def checkpointLocked : Run F Unit := do
  let s ← get
  if upToDate s.db then pure () else do
    let n ← ask
    takeCheckpoint (sv.locked n)

def checkpointPrepared : Run F Unit := do
  let s ← get
  onDb fun db => (sv.offLock s.db.tick db).2
  lift (sv.offLock s.db.tick s.db).1

/-- A checkpoint that makes room: with the locks given up if the prefix is frozen, under them
otherwise. -/
def pressure : Run F Unit :=
  if limits.checkpointFrozenPrefix then do
    let s ← get
    onDb Db.leave
    checkpointPrepared sv
    enter sv
    let t ← get
    check (s.db.rootEpoch < t.db.rootEpoch)
      "pressure checkpoint did not publish a new durable root"
  else checkpointLocked sv

def Session.news (s : Session F) : List (PreparedWrite F) :=
  s.entries.filterMap fun e =>
    match e.durable, e.input with
    | none, .ok p => if known s.db.state p then none else some p
    | _, _ => none

/-- A durable duplicate whose clock raises the floor of its table. -/
def raises (s : State (Manifest F)) (e : Entry F) : Bool :=
  match e.durable, e.input with
  | some (.ok _), .ok p => (duplicateClockFloor s p.request).any
      (s.idempotencyFloors[p.item.table]?.getD Engine.i64Min < ·)
  | _, _ => false

def initialPressure (mode : WriteMode) (s : Session F) : Bool :=
  let rows := (s.news.map fun p => p.item.rows.length).sum
  let bytes := (s.news.map fun p => if mode.grouped then p.admissionBytes else p.residentBytes).sum
  !s.news.isEmpty &&
    (mode.grouped || (rows ≤ limits.hotMaxRows && bytes ≤ limits.hotMaxBytes)) &&
    (limits.hotMaxRows < s.db.hotRows + rows || limits.hotMaxBytes < s.db.hotBytes + bytes ||
      (mode.grouped && limits.walMaxBytes < s.db.state.walBytes + bytes + 128) ||
      (limits.maxIdempotencyKeys < receiptCount s.db.state + s.news.length &&
        (idempotencyCheckpointDue s.db.state || s.entries.any (raises s.db.state))))

def clockFloors (mode : WriteMode) (s : Session F) : Except String (Map Int) :=
  match mode, s.entries.head?.map Entry.input with
  | .single, some (.ok p) =>
    (groupRetryWithFloors s.db.state.content s.db.state.idempotencyFloors p.request).map Prod.snd
  | _, _ => .ok s.db.state.idempotencyFloors

def directClock (mode : WriteMode) : Run F Unit := do
  let s ← get
  let floors ← lift (clockFloors mode s)
  onDb (·.onState (withFloors · floors))

def restoreFresh : Run F Unit := modify fun s =>
  { s with db := s.db.onState (restoreGroupFloors · (groupCheckpointFloors s.db.state s.requests)) }

def initialCheckpoint (mode : WriteMode) : Run F Unit := do
  modify fun s => { s with initialPending := true }
  directClock mode
  restoreFresh
  pressure sv limits
  modify fun s => { s with offlockUsed := limits.checkpointFrozenPrefix }

def relieve (mode : WriteMode) : Run F Unit := do
  let s ← get
  if initialPressure limits mode s then initialCheckpoint sv limits mode else pure ()

def Session.resolved (s : Session F) : Session F :=
  { s with entries := resolveGroupDurable s.db.state s.entries }

def Session.started (s : Session F) : Session F :=
  { s with
    initialPending := false
    checkpointRetry := !s.offlockUsed &&
      (s.db.state.sequence ≠ s.db.state.content.checkpointSequence || 0 < s.db.hotRows ||
        idempotencyCheckpointDue s.db.state) }

def start (mode : WriteMode) : Run F Unit := do
  enter sv
  modify Session.resolved
  relieve sv limits mode
  modify Session.started

end

-- Staging

/-- An `AppendOverlay` with what the loop over the inputs keeps beside it. -/
structure Pass (F D : Type) where
  overlay : Overlay
  delta : D
  entries : List (Entry F)
  outcomes : List Outcome
  items : List (PreparedWrite F)
  acceptedRows : Nat
  needsHeadroom : Bool
  needsDirect : Bool
  encoded : Option Wal.EncodedRecord

def checkLateness (s : State (Manifest F)) (p : PreparedWrite F) : Except String Unit := do
  let table ← context s.content.tables[p.item.table]? "unknown table"
  ensure (table.config.lateAfterUs.all fun age =>
    p.item.rows.all fun row => checkedCutoff p.nowUs age ≤ row.timestampUs)
    "row exceeds allowed lateness"

def room (needed limit : Nat) (mayCheckpoint : Bool) (message : String) : Except Refusal Unit :=
  if needed ≤ limit then .ok ()
  else if mayCheckpoint then .error .offLock else .error (.other message)

section
variable [F64 F] (H : Digest) (sv : Services F D P) (limits : Limits)

def WriteMode.encode : WriteMode → Nat → List (PreparedWrite F) → Except String Wal.EncodedRecord
  | .single, sequence, [p] => Wal.EncodedRecord.append H sequence p.item
  | .single, _, _ => .error "direct write requires one input"
  | .group, sequence, items =>
    Wal.EncodedRecord.appendGroup H sequence (items.map PreparedWrite.item)

/-- A direct write first drops the receipts that its clock has made old. -/
def directKeys (s : Session F) (o : Overlay) : Except Refusal Unit :=
  if !s.offlockUsed && o.checkpointDue s.db.state &&
    limits.maxIdempotencyKeys ≤ receiptCount s.db.state then .error .offLock else .ok ()

/-- The checks of a new input, and its frame if it is written alone. -/
def admission (s : Session F) (sequence : Nat) (p : Pass F D) (item : PreparedWrite F) :
    WriteMode → Except Refusal (D × Option Wal.EncodedRecord)
  | .group => do
    refused (checkLateness s.db.state item)
    let part ← sv.preflight s.db p.delta .group sequence p.acceptedRows item
    let delta ← sv.finish s.db p.delta .group part
    .ok (delta, none)
  | .single => do
    directKeys limits s p.overlay
    refused (checkLateness s.db.state item)
    let part ← sv.preflight s.db p.delta .single sequence p.acceptedRows item
    let encoded ← refused (WriteMode.encode H .single sequence [item])
    refused (ensure (encoded.bytes.length ≤ limits.walMaxBytes) "batch exceeds WAL capacity")
    let needed ← refused (sv.required s.db.tick encoded.bytes)
    room (s.db.state.walBytes + needed) limits.walMaxBytes (!s.offlockUsed)
      "batch exceeds remaining WAL capacity after bounded checkpoint retry"
    let delta ← sv.finish s.db p.delta .single part
    .ok (delta, some encoded)

/-- A durable error may be one that only the clocks of refused inputs have caused. -/
def recheck (s : State (Manifest F)) (o : Overlay) (p : PreparedWrite F) :
    Outcome → Outcome × Overlay
  | .ok r => (.ok r, o)
  | .error e =>
    if hasReceipt s p then
      match o.retry s p.request with
      | .ok (some r, o') => (.ok r, o')
      | .ok (none, o') => (.error "durable receipt", o')
      | .error e => (.error e, o)
    else (.error e, o)

namespace Pass

def push (pass : Pass F D) (e : Entry F) (outcome : Outcome) : Pass F D :=
  { pass with entries := pass.entries ++ [e], outcomes := pass.outcomes ++ [outcome] }

def refuse (pass : Pass F D) (e : Entry F) (refusal : Refusal) : Pass F D :=
  { pass with
    needsHeadroom := pass.needsHeadroom || (refusal == Refusal.headroom)
    needsDirect := pass.needsDirect || (refusal == Refusal.offLock) }.push
      { e with validation := some refusal.text } (.error refusal.text)

def settle (s : State (Manifest F)) (pass : Pass F D) (e : Entry F) (result : Outcome) : Pass F D :=
  match e.input with
  | .error _ => pass.push e result
  | .ok p =>
    match recheck s pass.overlay p result with
    | (.ok r, o) => { pass with overlay := o.durableDuplicate s p.request }.push
        { e with durable := some (.ok r) } (.ok r)
    | (.error m, o) => { pass with overlay := o }.push e (.error m)

def accept (pass : Pass F D) (e : Entry F) (sequence : Nat) (p : PreparedWrite F) (delta : D)
    (encoded : Option Wal.EncodedRecord) : Pass F D :=
  { pass with
    overlay := ⟨pass.overlay.floors, (p.item.table, p.item.requestId,
      stagedReceipt sequence p.request) :: pass.overlay.receipts⟩
    delta := delta
    items := pass.items ++ [p]
    acceptedRows := pass.acceptedRows + p.item.rows.length
    encoded := encoded }.push { e with validation := none }
      (.ok ⟨sequence, p.item.rows.length, false⟩)

def offer (mode : WriteMode) (s : Session F) (sequence : Nat) (pass : Pass F D) (e : Entry F) :
    Pass F D :=
  match e.input with
  | .error m => pass.refuse e (.other m)
  | .ok p =>
    match pass.overlay.retry s.db.state p.request with
    | .error m => pass.refuse e (.other m)
    | .ok (some r, o) => { pass with overlay := o }.push { e with validation := none } (.ok r)
    | .ok (none, o) =>
      match admission H sv limits s sequence { pass with overlay := o } p mode with
      | .error refusal => { pass with overlay := o }.refuse e refusal
      | .ok (delta, encoded) => { pass with overlay := o }.accept e sequence p delta encoded

def stage (mode : WriteMode) (s : Session F) (sequence : Nat) (pass : Pass F D) (e : Entry F) :
    Pass F D :=
  match e.durable with
  | some result => pass.settle s.db.state e result
  | none => pass.offer H sv limits mode s sequence e

end Pass

def passOf (mode : WriteMode) (s : Session F) (sequence : Nat) : Pass F D :=
  s.entries.foldl (Pass.stage H sv limits mode s sequence)
    ⟨⟨∅, []⟩, sv.derived s.db, [], [], [], 0, false, false, none⟩

-- An attempt

structure Ready (F : Type) where
  epoch : PreparedEpoch (Manifest F)
  record : Option (Record F)

/-- Staging has failed for want of room that a checkpoint can still make. -/
def wantsRoom (mode : WriteMode) (s : Session F) (pass : Pass F D) : Bool :=
  (pass.needsHeadroom && (s.checkpointRetry ||
    (!mode.grouped && !s.offlockUsed && pass.overlay.checkpointDue s.db.state))) ||
    (pass.needsDirect && !s.offlockUsed)

/-- The floors that a checkpoint between two attempts may make durable. -/
def retryFloors (mode : WriteMode) (pass : Pass F D) (floorsBefore : Map (Option Int))
    (s : State (Manifest F)) : State (Manifest F) :=
  if mode.grouped then restoreGroupFloors s floorsBefore
  else withFloors s (s.idempotencyFloors ∪ pass.overlay.floors)

def takeRoom (mode : WriteMode) (pass : Pass F D) (floorsBefore : Map (Option Int)) :
    Run F (Option (Ready F)) := do
  modify fun s => { s with
    checkpointRetry := false
    db := s.db.onState (retryFloors mode pass floorsBefore) }
  pressure sv limits
  modify fun s => { s with
    offlockUsed := s.offlockUsed || limits.checkpointFrozenPrefix || pass.needsDirect }
  pure none

def settled (results : List Outcome) : Run F (Option (Ready F)) := do
  modify fun s => { s with
    db := (s.db.onState (commitGroupDuplicateFloors · s.requests)).leave }
  pure (some ⟨⟨results, ∅, none⟩, none⟩)

/-- The checks of a group before its publication is built. -/
def publication (mode : WriteMode) (s : Session F) (sequence : Nat) (pass : Pass F D)
    (floorsBefore : Map (Option Int)) :
    Except Refusal (PreparedPublication (Manifest F) × Bytes) := do
  let encoded ← refused (pass.encoded.elim (mode.encode H sequence pass.items) .ok)
  refused (ensure ((mode = .group → encoded.bytes.length ≤ limits.maxBatchBytes) ∧
    encoded.bytes.length ≤ limits.walMaxBytes) "group exceeds WAL/recovery byte capacity")
  let proof := encoded.groupFingerprint H
  refused (ensure (proof.isSome = mode.grouped) "group proof mode mismatch")
  refused (ensure (proof.all fun p => p.length = 64) "group proof reservation mismatch")
  let publishedNow ← refused
    (context (pass.items.head?.map PreparedWrite.nowUs) "live group request missing clock")
  let needed ← refused (sv.required s.db.tick encoded.bytes)
  room (s.db.state.walBytes + needed) limits.walMaxBytes (s.checkpointRetry && !s.offlockUsed)
    "group exceeds remaining WAL capacity after bounded checkpoint retry"
  let delta ← refused (sv.prove s.db pass.delta sequence proof)
  refused (ensure (s.db.state.generation + 1 < 2 ^ 64) "state generation exhausted")
  .ok (⟨⟨sv.install delta, pass.overlay.floors⟩, ⟨sequence, encoded.bytes⟩, sequence,
    s.db.state.generation + 1, publishedNow, floorsBefore, ⟨false⟩⟩, encoded.bytes)

/-- The clocks of the durable duplicates, which outlive the inputs. -/
def terminalFloors (s : Session F) : Map Int := s.requests.foldl (raiseDuplicate s.db.state) ∅

def materialize (mode : WriteMode) (sequence : Nat) (pass : Pass F D)
    (p : PreparedPublication (Manifest F)) (bytes : Bytes) : Run F (Option (Ready F)) := do
  let s ← get
  let floors := terminalFloors s
  let n ← ask
  match sv.materialize n with
  | .error m => do
    onDb fun db => (db.onState fun st =>
      installDuplicateFloors (restoreGroupFloors st p.floorsBefore) floors).leave
    pure (some ⟨⟨failResults sequence m pass.outcomes, floors, none⟩, none⟩)
  | .ok () =>
    pure (some ⟨⟨pass.outcomes, floors, some p⟩, some ⟨mode, sequence, pass.items, bytes⟩⟩)

def abandon (sequence : Nat) (pass : Pass F D) (floorsBefore : Map (Option Int))
    (refusal : Refusal) : Run F (Option (Ready F)) := do
  onDb (·.onState (restoreGroupFloors · floorsBefore))
  let s ← get
  if refusal = .offLock ∧ s.offlockUsed = false then do
    pressure sv limits
    modify fun s => { s with offlockUsed := true, checkpointRetry := false }
    pure none
  else settled (failResults sequence refusal.text pass.outcomes)

def conclude (mode : WriteMode) (sequence : Nat) (pass : Pass F D)
    (floorsBefore : Map (Option Int)) : Run F (Option (Ready F)) := do
  let s ← get
  match publication H sv limits mode s sequence pass floorsBefore with
  | .ok (p, bytes) => materialize sv mode sequence pass p bytes
  | .error refusal => abandon sv limits sequence pass floorsBefore refusal

/-- One pass of the loop; `none` is another one. -/
def attempt (mode : WriteMode) : Run F (Option (Ready F)) := do
  modify Session.resolved
  let s ← get
  let sequence ← lift (nextSequence s.db.state)
  let pass := passOf H sv limits mode s sequence
  modify fun s => { s with entries := pass.entries }
  let floorsBefore := groupCheckpointFloors s.db.state (pass.entries.map Entry.request)
  if wantsRoom mode s pass then takeRoom sv limits mode pass floorsBefore
  else if pass.items.isEmpty then do
    onDb (·.onState fun st => withFloors st (st.idempotencyFloors ∪ pass.overlay.floors))
    settled pass.outcomes
  else conclude H sv limits mode sequence pass floorsBefore

def attempts (mode : WriteMode) : Nat → Run F (Option (Ready F))
  | 0 => pure none
  | fuel + 1 => do
    let ready ← attempt H sv limits mode
    match ready with
    | some r => pure (some r)
    | none => attempts mode fuel

/-- After an error no new input is acknowledged; durable duplicates keep their clocks. -/
def salvage (s : Session F) : Session F :=
  let db := sv.others s.db.tick s.db.leave
  if db.world.gate.poisoned || db.world.lockPoisoned then { s with db := db }
  else
    let entries := if s.initialPending then resolveTerminalDurable db.state s.entries else s.entries
    { s with
      entries := entries
      db := db.onState (commitGroupDuplicateFloors · (entries.map Entry.request)) }

def Entry.outcome (message : String) (e : Entry F) : Outcome :=
  e.durable.getD (.error (e.validation.getD message))

/-- `none` if the loop has not ended. -/
def prepareGroupAttempts (fuel : Nat) (mode : WriteMode) (inputs : List (Input F)) (db : Db F) :
    Option (Ready F) × Db F :=
  match (do start sv limits mode; attempts H sv limits mode fuel : Run F (Option (Ready F)))
    ⟨db, inputs.map (⟨·, none, none⟩), false, false, false⟩ with
  | (.ok ready, s) => (ready, s.db)
  | (.error m, s) =>
    (some ⟨⟨(salvage sv s).entries.map (Entry.outcome m), ∅, none⟩, none⟩, (salvage sv s).db)

/-- What may happen to the state while only the lease is held. -/
def disturbed (w : World (Manifest F)) (n : Nat) : World (Manifest F) :=
  { w with
    state := { w.state with fenced := w.state.fenced.or (sv.fence n) }
    lockPoisoned := w.lockPoisoned || sv.poison n }

/-- A publication whose record is in the log and whose state is visible. -/
def visible (d : DurableEpoch (Manifest F)) (w : World (Manifest F)) : Bool :=
  d.size.isSome && (w.lock >>= healthy).isOk

/-- `PreparedEpoch::publish`. -/
def publish (r : Ready F) (db : Db F) : List Outcome × Db F :=
  let (d, w) := r.epoch.sync (sv.append db.tick) (disturbed sv db.world db.tick)
  let w := disturbed sv w (db.tick + 1)
  let (out, w') := d.install w
  let records := if visible d w then r.record.toList else []
  let items := records.flatMap Record.items
  (out, { db with
    world := w'
    hotRows := db.hotRows + (items.map fun p => p.item.rows.length).sum
    hotBytes := db.hotBytes + (items.map PreparedWrite.residentBytes).sum
    committed := db.committed ++ records
    tick := db.tick + 2 })

def writeGroupAttempts (fuel : Nat) (mode : WriteMode) (inputs : List (Input F)) (db : Db F) :
    Option (List Outcome) × Db F :=
  match prepareGroupAttempts H sv limits fuel mode inputs db with
  | (none, db) => (none, db)
  | (some r, db) => let (out, db) := publish sv r db; (some out, db)

structure Batch (F : Type) where
  group : List (PreparedWrite F)
  indices : List Nat
  rows : Nat
  bytes : Nat

def Batch.empty : Batch F := ⟨[], [], 0, 128⟩

def Limits.rowLimit (limits : Limits) : Nat := min limits.maxBatchRows limits.hotMaxRows

def Limits.byteLimit (limits : Limits) : Nat :=
  min (min (min limits.maxBatchBytes limits.hotMaxBytes) limits.walMaxBytes) Wal.maxFrameBytes

def Batch.full (b : Batch F) (p : PreparedWrite F) : Bool :=
  !b.group.isEmpty && (b.group.length = Wal.maxGroupRequests ||
    limits.rowLimit < b.rows + p.item.rows.length || limits.byteLimit < b.bytes + p.admissionBytes)

def oversized (p : PreparedWrite F) : Bool :=
  limits.rowLimit < p.item.rows.length || limits.byteLimit < p.admissionBytes + 128

def Batch.push (b : Batch F) (index : Nat) (p : PreparedWrite F) : Batch F :=
  ⟨b.group ++ [p], b.indices ++ [index], b.rows + p.item.rows.length, b.bytes + p.admissionBytes⟩

/-- A result that is still missing at the end is a panic of the source. -/
structure Driver (F : Type) where
  db : Db F
  results : List (Option Outcome)
  batch : Batch F

def setAll (results : List (Option Outcome)) (l : List (Nat × Outcome)) : List (Option Outcome) :=
  l.foldl (fun results x => results.set x.1 (some x.2)) results

def Driver.flush (fuel : Nat) (d : Driver F) : Driver F :=
  let (out, db) := writeGroupAttempts H sv limits fuel .group (d.batch.group.map .ok) d.db
  ⟨db, setAll d.results (d.batch.indices.zip (out.getD [])), .empty⟩

def Driver.single (fuel : Nat) (d : Driver F) (index : Nat) (p : PreparedWrite F) : Driver F :=
  let (out, db) := writeGroupAttempts H sv limits fuel .single [.ok p] d.db
  { d with db := db, results := d.results.set index (out.bind List.getLast?) }

def Driver.place (fuel : Nat) (d : Driver F) (index : Nat) (p : PreparedWrite F) : Driver F :=
  if oversized limits p then d.single H sv limits fuel index p
  else { d with batch := d.batch.push index p }

def Driver.take (fuel : Nat) (d : Driver F) (x : Input F × Nat) : Driver F :=
  match x.1 with
  | .error e => { d with results := d.results.set x.2 (some (.error e)) }
  | .ok p => Driver.place H sv limits fuel
      (if d.batch.full limits p then d.flush H sv limits fuel else d) x.2 p

def Driver.finish (fuel : Nat) (d : Driver F) : Driver F :=
  if d.batch.group.isEmpty then d else d.flush H sv limits fuel

def writePreparedGroup (fuel : Nat) (inputs : List (Input F)) (db : Db F) :
    Option (List Outcome) × Db F :=
  let d := inputs.zipIdx.foldl (Driver.take H sv limits fuel)
    ⟨db, List.replicate inputs.length none, .empty⟩
  ((d.finish H sv limits fuel).results.mapM id, (d.finish H sv limits fuel).db)

end

end Varve.Commit
