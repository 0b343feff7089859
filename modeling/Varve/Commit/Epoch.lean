import Varve.Lib.Map
import Varve.Lib.Run

/-!
# Commit epochs

The durable append boundary: the commit gate and its lease
(`publication_gate.rs`), and the typed epochs that carry a prepared group
through the write-ahead log into the visible state (`commit_boundary.rs`). What
a group adds to the catalog, the hot rows, the receipts and the accounting is a
function prepared under the lease; the log is the list of records written so
far.
-/

namespace Varve.Commit

open Result (ensure)

structure Gate where
  held : Bool
  poisoned : Bool
deriving DecidableEq

structure Lease where
  armed : Bool
deriving DecidableEq

def Gate.lock (g : Gate) : Except String (Lease × Gate) := do
  ensure (g.poisoned = false) "commit gate poisoned; reopen for recovery"
  .ok (⟨false⟩, { g with held := true })

def Lease.drop (l : Lease) (panicking : Bool) (g : Gate) : Gate :=
  ⟨false, g.poisoned || l.armed || panicking⟩

structure WriteReceipt where
  sequence : Nat
  rows : Nat
  duplicate : Bool
deriving DecidableEq

abbrev Outcome := Except String WriteReceipt

structure EncodedRecord where
  sequence : Nat
  bytes : Bytes
deriving DecidableEq

/-- `content` is the catalog with its receipts and rollups, the hot batches and the accounting. -/
structure State (C : Type) where
  content : C
  sequence : Nat
  generation : Nat
  walBytes : Nat
  hotEpochs : List (Nat × Int)
  idempotencyFloors : Map Int
  fenced : Option String

structure PendingAppend (C : Type) where
  install : C → C
  floors : Map Int

structure PreparedPublication (C : Type) where
  pending : PendingAppend C
  encoded : EncodedRecord
  sequence : Nat
  generation : Nat
  publishedNow : Int
  floorsBefore : Map (Option Int)
  commit : Lease

structure PreparedEpoch (C : Type) where
  results : List Outcome
  duplicateFloors : Map Int
  publication : Option (PreparedPublication C)

structure DurableEpoch (C : Type) where
  epoch : PreparedEpoch C
  size : Option Nat

/-- `lockPoisoned` is the state mutex after a panic of its holder. `wal` holds every record this
process wrote. `broken` remembers an ambiguous append, or an armed lease dropped uninstalled. -/
structure World (C : Type) where
  gate : Gate
  state : State C
  lockPoisoned : Bool
  wal : List EncodedRecord
  prepared : List (PreparedEpoch C)
  durable : List (DurableEpoch C)
  broken : Bool

variable {C : Type}

def healthy (s : State C) : Except String Unit :=
  match s.fenced with
  | some reason => .error ("database fenced; reopen for recovery: " ++ reason)
  | none => .ok ()

def World.lock (w : World C) : Except String (State C) := do
  ensure (w.lockPoisoned = false) "database state mutex poisoned; reopen for recovery"
  .ok w.state

def restoreGroupFloors (s : State C) (floors : Map (Option Int)) : State C :=
  { s with idempotencyFloors := floors.toList.foldl (fun live (table, floor) =>
      floor.elim (live.erase table) (live.insert table)) s.idempotencyFloors }

def installDuplicateFloors (s : State C) (floors : Map Int) : State C :=
  { s with idempotencyFloors := floors.toList.foldl (fun live (table, floor) =>
      live.insert table (live[table]?.elim floor fun old => max old floor)) s.idempotencyFloors }

-- Publication

/-- What the log answers: the bytes it grew by, a refusal before any I/O, or a failure after which
the record may or may not be there. -/
inductive Append where
  | done (size : Nat)
  | refused (error : String)
  | failed (error : String) (kept : Bool)

/-- The results of an epoch whose record did not become visible. -/
def failResults (sequence : Nat) (message : String) (results : List Outcome) : List Outcome :=
  results.map fun result =>
    match result with
    | .ok r => if r.sequence = sequence then .error message else .ok r
    | .error e => .error e

namespace PreparedEpoch

def fail (e : PreparedEpoch C) (message : String) (ambiguous : Bool) (w : World C) :
    PreparedEpoch C × World C :=
  match e.publication with
  | none => (e, w)
  | some p =>
    let state := match w.lock with
      | .ok s =>
        let s := installDuplicateFloors (restoreGroupFloors s p.floorsBefore) e.duplicateFloors
        if ambiguous then { s with fenced := some ("ambiguous WAL publication: " ++ message) }
        else s
      | .error _ => w.state
    let lease : Lease := if ambiguous then p.commit else ⟨false⟩
    ({ e with results := failResults p.sequence message e.results, publication := none },
      { w with state := state, gate := lease.drop false w.gate, broken := w.broken || ambiguous })

/-- The record is written with the lease armed and the state unlocked. -/
def sync (e : PreparedEpoch C) (io : Append) (w : World C) : DurableEpoch C × World C :=
  match e.publication with
  | none => (⟨e, none⟩, w)
  | some p =>
    match w.lock >>= healthy with
    | .error message => let (e, w) := e.fail message false w; (⟨e, none⟩, w)
    | .ok () =>
      let e := { e with publication := some { p with commit := ⟨true⟩ } }
      match io with
      | .done size => (⟨e, some size⟩, { w with wal := w.wal ++ [p.encoded] })
      | .failed message kept =>
        let (e, w) := e.fail message true
          { w with wal := w.wal ++ if kept then [p.encoded] else [] }
        (⟨e, none⟩, w)
      | .refused message => let (e, w) := e.fail message false w; (⟨e, none⟩, w)

end PreparedEpoch

def PreparedPublication.visible (p : PreparedPublication C) (size : Nat) (duplicates : Map Int)
    (s : State C) : State C :=
  installDuplicateFloors
    { s with
      content := p.pending.install s.content
      idempotencyFloors := s.idempotencyFloors ∪ p.pending.floors
      walBytes := s.walBytes + size
      sequence := p.sequence
      generation := p.generation
      hotEpochs := s.hotEpochs ++ [(p.sequence, p.publishedNow)] } duplicates

def DurableEpoch.install (d : DurableEpoch C) (w : World C) : List Outcome × World C :=
  match d.size, d.epoch.publication with
  | some size, some p =>
    match w.lock >>= healthy with
    | .error message => let (e, w) := d.epoch.fail message true w; (e.results, w)
    | .ok () =>
      (d.epoch.results, { w with
        state := p.visible size d.epoch.duplicateFloors w.state
        gate := Lease.drop ⟨false⟩ false w.gate })
  | _, _ => (d.epoch.results, w)

/-- Dropping an epoch drops the lease of its publication. -/
def dropEpoch (e : PreparedEpoch C) (panicking : Bool) (w : World C) : World C :=
  match e.publication with
  | none => w
  | some p => { w with
    gate := p.commit.drop panicking w.gate
    broken := w.broken || p.commit.armed }

/-- What preparation decides of one request: `repeated` repeats a request the group accepted. -/
inductive Verdict where
  | rejected (error : String)
  | durable (sequence rows : Nat)
  | accepted (rows : Nat)
  | repeated (rows : Nat)

def Verdict.outcome (sequence : Nat) : Verdict → Outcome
  | .rejected e => .error e
  | .durable sequence rows => .ok ⟨sequence, rows, true⟩
  | .accepted rows => .ok ⟨sequence, rows, false⟩
  | .repeated rows => .ok ⟨sequence, rows, true⟩

def Verdict.settle (message : String) : Verdict → Outcome
  | .rejected e => .error e
  | .durable sequence rows => .ok ⟨sequence, rows, true⟩
  | .accepted _ | .repeated _ => .error message

/-- A prepared group: the verdicts in input order, what it adds, its encoding and its clocks. -/
structure Group (C : Type) where
  verdicts : List Verdict
  pending : PendingAppend C
  bytes : Bytes
  publishedNow : Int
  floorsBefore : Map (Option Int)
  duplicateFloors : Map Int

def nextSequence (s : State C) : Except String Nat := do
  ensure (s.sequence + 1 < 2 ^ 64) "sequence exhausted"
  .ok (s.sequence + 1)

def Group.epoch (g : Group C) (sequence generation : Nat) (lease : Lease) : PreparedEpoch C where
  results := g.verdicts.map (Verdict.outcome sequence)
  duplicateFloors := g.duplicateFloors
  publication := some
    { pending := g.pending
      encoded := ⟨sequence, g.bytes⟩
      sequence := sequence
      generation := generation
      publishedNow := g.publishedNow
      floorsBefore := g.floorsBefore
      commit := lease }

/-- Preparation of a group that adds rows, under a lease that stays with the epoch. -/
def prepare (g : Group C) (w : World C) : Except String (PreparedEpoch C × World C) := do
  let (lease, gate) ← w.gate.lock
  let s ← w.lock
  healthy s
  let sequence ← nextSequence s
  ensure (s.generation + 1 < 2 ^ 64) "state generation exhausted"
  .ok (g.epoch sequence (s.generation + 1) lease, { w with gate := gate })

/-- Preparation that adds no rows: every request is settled, or it failed with `message`. It leaves
no lease, and of the state only clocks change. -/
def prepareSettled (verdicts : List Verdict) (message : String) (floors : Map Int) (w : World C) :
    PreparedEpoch C × World C :=
  (⟨verdicts.map (Verdict.settle message), ∅, none⟩,
    { w with state := { w.state with idempotencyFloors := floors } })

/-- `commit_record` and what follows it: `applied` is the state that the replay of the record
leaves, fenced or not. -/
def commitRecord (bytes : Bytes) (io : Append) (applied : State C) (w : World C) :
    Except String (World C) := do
  let (lease, gate) ← w.gate.lock
  let s ← w.lock
  healthy s
  let sequence ← nextSequence s
  let w := { w with gate := lease.drop false gate }
  match io with
  | .done _ => .ok { w with wal := w.wal ++ [⟨sequence, bytes⟩], state := applied }
  | .refused _ => .ok w
  | .failed message kept => .ok { w with
      wal := w.wal ++ if kept then [⟨sequence, bytes⟩] else []
      state := { s with fenced := some ("ambiguous journal publication: " ++ message) }
      broken := true }

/-- Checkpoints, compaction, retention and reclamation: they change the state under the lease and
write no record; `next` is fenced if they failed ambiguously. -/
def maintain (next : State C) (panicking : Bool) (w : World C) : Except String (World C) := do
  let (lease, gate) ← w.gate.lock
  let s ← w.lock
  healthy s
  .ok { w with gate := lease.drop panicking gate, state := next }

/-- One step and the outcomes it returns to a caller. A lock that would wait takes no step. What
preparation makes of a state is `ready`; without the lease it changes no clock. -/
inductive Step (ready : State C → PreparedEpoch C → Prop) :
    World C → List Outcome → World C → Prop where
  | prepare (hw : w.gate.held = false) (h : prepare g w = .ok (e, w')) (he : ready w.state e) :
      Step ready w [] { w' with prepared := e :: w'.prepared }
  | prepareSettled (hw : w.gate.held = false ∨ floors = w.state.idempotencyFloors)
      (h : prepareSettled verdicts message floors w = (e, w')) :
      Step ready w [] { w' with prepared := e :: w'.prepared }
  | sync (he : w.prepared = before ++ e :: after)
      (h : e.sync io { w with prepared := before ++ after } = (d, w')) :
      Step ready w [] { w' with durable := d :: w'.durable }
  | install (hd : w.durable = before ++ d :: after)
      (h : d.install { w with durable := before ++ after } = (out, w')) : Step ready w out w'
  | dropPrepared (panicking : Bool) (he : w.prepared = before ++ e :: after) :
      Step ready w [] (dropEpoch e panicking { w with prepared := before ++ after })
  | dropDurable (panicking : Bool) (hd : w.durable = before ++ d :: after) :
      Step ready w [] (dropEpoch d.epoch panicking { w with durable := before ++ after })
  | commitRecord (hw : w.gate.held = false) (h : commitRecord bytes io applied w = .ok w') :
      Step ready w [] w'
  | maintain (hw : w.gate.held = false) (h : maintain next panicking w = .ok w') :
      Step ready w [] w'
  | fence (reason : String) : Step ready w []
      { w with state := { w.state with fenced := some reason } }
  | poisonLock : Step ready w [] { w with lockPoisoned := true }

/-- The events after which this process must write nothing: an append whose outcome is unknown, and
the drop of an armed lease without installation. -/
inductive Breaks : World C → World C → Prop where
  | sync (he : w.prepared = before ++ e :: after) (hp : e.publication = some p)
      (hu : w.lockPoisoned = false ∧ w.state.fenced = none)
      (h : e.sync (.failed m kept) { w with prepared := before ++ after } = (d, w')) :
      Breaks w { w' with durable := d :: w'.durable }
  | install (hd : w.durable = before ++ d :: after) (hp : d.epoch.publication = some p)
      (hu : ¬(w.lockPoisoned = false ∧ w.state.fenced = none))
      (h : d.install { w with durable := before ++ after } = (out, w')) : Breaks w w'
  | dropPrepared (panicking : Bool) (he : w.prepared = before ++ e :: after)
      (hp : e.publication = some p) (ha : p.commit.armed = true) :
      Breaks w (dropEpoch e panicking { w with prepared := before ++ after })
  | dropDurable (panicking : Bool) (hd : w.durable = before ++ d :: after)
      (hp : d.epoch.publication = some p) (ha : p.commit.armed = true) :
      Breaks w (dropEpoch d.epoch panicking { w with durable := before ++ after })
  | commitRecord (hw : w.gate.held = false)
      (h : commitRecord bytes (.failed m kept) applied w = .ok w') : Breaks w w'

/-- A process that has opened a database and committed nothing yet. -/
def Opened (w : World C) : Prop :=
  w.gate = ⟨false, false⟩ ∧ w.wal = [] ∧ w.prepared = [] ∧ w.durable = [] ∧ w.broken = false

def machine (ready : State C → PreparedEpoch C → Prop) (init : World C → Prop) :
    Machine (World C) (List Outcome) := ⟨init, Step ready⟩

end Varve.Commit
