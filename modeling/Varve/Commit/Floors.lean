import Varve.Commit.Epoch
import Varve.Engine.Catalog

/-!
# Idempotency floors of a group

A table with an idempotency window refuses requests issued before its floor.
-/

namespace Varve.Commit

open Result (ensure)
open Engine (Table Manifest ReceiptEntry parseTimedRequestId checkedCutoff saturatingAdd
  idempotencyMaxFutureSkewUs i64Min i64Max context)

variable {F : Type}

structure AppendItem where
  table : Text
  requestId : Text
  rows : Nat
  digest : Text
  nowUs : Int
deriving DecidableEq

/-- A request of a group and the outcome that durable state already gives it. -/
abbrev Request := Except String AppendItem × Option Outcome

def receiptFor (receipt : ReceiptEntry) (duplicate : Bool) : WriteReceipt :=
  ⟨receipt.sequence, receipt.rows, duplicate⟩

/-- The floor a request sets, if its table has a window and the request is not refused by it. -/
def clockFloor (table : Table F) (known : Bool) (previous : Option Int) (item : AppendItem) :
    Except String (Option Int) :=
  match table.config.idempotencyWindowUs with
  | none => .ok none
  | some window => do
    let issued ← parseTimedRequestId item.requestId
    let floor := max (previous.getD i64Min) (checkedCutoff item.nowUs window)
    ensure (floor ≤ issued) "request_id is outside the idempotency window"
    ensure (known = true ∨ issued ≤ saturatingAdd item.nowUs idempotencyMaxFutureSkewUs)
      "request_id issue time exceeds the future-skew limit"
    .ok (some floor)

def retryWithReceipt (table : Table F) (receipt : Option ReceiptEntry) (previous : Option Int)
    (item : AppendItem) : Except String (Option WriteReceipt × Option Int) := do
  let floor ← clockFloor table receipt.isSome previous item
  match receipt with
  | none => .ok (none, floor)
  | some receipt => do
    ensure (receipt.digest = item.digest) "request_id conflicts with different data"
    .ok (some (receiptFor receipt true), floor)

def groupRetryWithFloors (catalog : Manifest F) (floors : Map Int) (item : AppendItem) :
    Except String (Option WriteReceipt × Map Int) := do
  let table ← context catalog.tables[item.table]? "unknown table"
  let (receipt, floor) ←
    retryWithReceipt table table.receipts[item.requestId]? floors[item.table]? item
  .ok (receipt, floor.elim floors (floors.insert item.table))

def duplicateClockFloor (s : State (Manifest F)) (item : AppendItem) : Option Int :=
  s.content.tables[item.table]?.bind fun table =>
    table.config.idempotencyWindowUs.map (checkedCutoff item.nowUs)

def raise (floors : Map Int) (table : Text) (floor : Int) : Map Int :=
  floors.insert table (max (floors[table]?.getD i64Min) floor)

def lower (ceilings : Map Int) (table : Text) (issued : Int) : Map Int :=
  ceilings.insert table (min (ceilings[table]?.getD i64Max) issued)

def timed (s : State (Manifest F)) (table : Text) : Bool :=
  s.content.tables[table]?.any fun t => t.config.idempotencyWindowUs.isSome

def noteTable (s : State (Manifest F)) (floors : Map (Option Int)) : Request → Map (Option Int)
  | (.error _, _) => floors
  | (.ok item, _) => if timed s item.table then
      floors.insert item.table s.idempotencyFloors[item.table]? else floors

/-- The live floors of the tables with a window that the group names. -/
def baseline (s : State (Manifest F)) (group : List Request) : Map (Option Int) :=
  group.foldl (noteTable s) ∅

structure Scan where
  simulated : Map Int
  ceilings : Map Int
  duplicateFloors : Map Int

/-- The issue time of a request of the group caps the floor of its table, which the baseline has
exactly when it is timed. -/
def Scan.cap (a : Scan) (s : State (Manifest F)) (item : AppendItem) : Scan :=
  if timed s item.table then
    match parseTimedRequestId item.requestId with
    | .ok issued => { a with ceilings := lower a.ceilings item.table issued }
    | .error _ => a
  else a

/-- A durable receipt that the floors before the group still allow. -/
def retained (s : State (Manifest F)) (item : AppendItem) : Bool :=
  s.content.tables[item.table]?.any fun table =>
    table.receipts[item.requestId]?.any fun receipt =>
      (retryWithReceipt table (some receipt) s.idempotencyFloors[item.table]? item).isOk

/-- One request of the loop of `group_checkpoint_floors`. -/
def scanRequest (s : State (Manifest F)) (a : Scan) : Request → Scan
  | (.error _, _) => a
  | (.ok item, some (.ok _)) =>
    match duplicateClockFloor s item with
    | none => a
    | some floor => { a with
        simulated := raise a.simulated item.table floor
        duplicateFloors := raise a.duplicateFloors item.table floor }
  | (.ok item, some (.error _)) => if retained s item then a.cap s item else a
  | (.ok item, none) =>
    match groupRetryWithFloors s.content a.simulated item with
    | .error _ => a
    | .ok (some _, simulated) => { a with simulated := simulated }
    | .ok (none, simulated) => { a with simulated := simulated }.cap s item

def startScan (s : State (Manifest F)) (group : List Request) : Scan :=
  ⟨(baseline s group).toList.foldl (fun m (table, floor) => floor.elim m (m.insert table)) ∅, ∅, ∅⟩

def groupCheckpointFloors (s : State (Manifest F)) (group : List Request) : Map (Option Int) :=
  let a := group.foldl (scanRequest s) (startScan s group)
  a.duplicateFloors.toList.foldl (fun floors (table, floor) =>
    let safe := min floor (a.ceilings[table]?.getD i64Max)
    floors.insert table (some (max ((floors[table]?.getD none).getD i64Min) safe)))
    (baseline s group)

/-- The clocks and the receipts of the requests staged so far. -/
structure Overlay where
  floors : Map Int
  receipts : List (Text × Text × ReceiptEntry)

def Overlay.floor (o : Overlay) (s : State (Manifest F)) (table : Text) : Option Int :=
  o.floors[table]?.or s.idempotencyFloors[table]?

def Overlay.staged (o : Overlay) (item : AppendItem) : Option ReceiptEntry :=
  (o.receipts.find? fun r => r.1 = item.table ∧ r.2.1 = item.requestId).map (·.2.2)

def Overlay.retry (o : Overlay) (s : State (Manifest F)) (item : AppendItem) :
    Except String (Option WriteReceipt × Overlay) := do
  let table ← context s.content.tables[item.table]? "unknown table"
  let (receipt, floor) ← retryWithReceipt table
    ((o.staged item).or table.receipts[item.requestId]?) (o.floor s item.table) item
  .ok (receipt, { o with floors := floor.elim o.floors (o.floors.insert item.table) })

def Overlay.durableDuplicate (o : Overlay) (s : State (Manifest F)) (item : AppendItem) : Overlay :=
  match duplicateClockFloor s item with
  | none => o
  | some floor => { o with
      floors := o.floors.insert item.table (max ((o.floor s item.table).getD i64Min) floor) }

/-- The receipt of an accepted request; its group proof is filled in once the group is encoded. -/
def stagedReceipt (sequence : Nat) (item : AppendItem) : ReceiptEntry :=
  ⟨sequence, item.rows, item.digest, (parseTimedRequestId item.requestId).toOption, none⟩

/-- One request of the staging loop; `admitted` stands for the checks of the rows. -/
def Overlay.stage (s : State (Manifest F)) (sequence : Nat) (admitted : AppendItem → Bool)
    (o : Overlay) : Request → Overlay
  | (.error _, _) => o
  | (.ok item, some (.ok _)) => o.durableDuplicate s item
  | (.ok item, some (.error _)) =>
    if s.content.tables[item.table]?.any fun t => t.receipts[item.requestId]?.isSome then
      match o.retry s item with
      | .ok (_, o) => o.durableDuplicate s item
      | .error _ => o
    else o
  | (.ok item, none) =>
    match o.retry s item with
    | .error _ => o
    | .ok (some _, o) => o
    | .ok (none, o) =>
      if admitted item then ⟨o.floors,
        (item.table, item.requestId, stagedReceipt sequence item) :: o.receipts⟩ else o

def overlay (s : State (Manifest F)) (sequence : Nat) (admitted : AppendItem → Bool)
    (group : List Request) : Overlay :=
  group.foldl (Overlay.stage s sequence admitted) ⟨∅, []⟩

def advanceIdempotencyFloors (s : State (Manifest F)) (nowUs : Int) : State (Manifest F) :=
  { s with idempotencyFloors := s.content.tables.toList.foldl (fun floors (name, table) =>
      table.config.idempotencyWindowUs.elim floors fun window =>
        floors.insert name (max (floors[name]?.getD (table.idempotencyFloorUs.getD i64Min))
          (checkedCutoff nowUs window))) s.idempotencyFloors }

def raiseDuplicate (s : State (Manifest F)) (floors : Map Int) : Request → Map Int
  | (.ok item, some (.ok _)) => (duplicateClockFloor s item).elim floors (raise floors item.table)
  | _ => floors

def commitGroupDuplicateFloors (s : State (Manifest F)) (group : List Request) :
    State (Manifest F) :=
  { s with idempotencyFloors := group.foldl (raiseDuplicate s) s.idempotencyFloors }

/-- What `apply_idempotency_checkpoint` makes of a table. -/
def pruned (floors : Map Int) (name : Text) (table : Table F) : Table F :=
  if table.config.idempotencyWindowUs.isNone then table else
  let timed := table.receipts.filter fun _ r => r.issuedUs.isSome
  floors[name]?.elim { table with receipts := timed } fun live =>
    let floor := table.idempotencyFloorUs.elim live (max live)
    { table with
      idempotencyFloorUs := some floor
      receipts := timed.filter fun _ r => r.issuedUs.any (floor ≤ ·) }

def applyIdempotencyCheckpoint (floors : Map Int) (catalog : Manifest F) : Manifest F :=
  { catalog with tables := catalog.tables.map (pruned floors) }

/-- The check of `preflight_append` on the issue time. -/
def checkIssued (table : Table F) (timed : Bool) (item : AppendItem) : Except String Unit :=
  if timed then do
    let issued ← parseTimedRequestId item.requestId
    ensure (table.idempotencyFloorUs.all (· ≤ issued))
      "WAL request_id precedes the durable idempotency floor"
  else .ok ()

def preflightFloor (catalog : Manifest F) (item : AppendItem) : Except String Unit := do
  let table ← context catalog.tables[item.table]? "WAL references unknown table"
  checkIssued table table.config.idempotencyWindowUs.isSome item

end Varve.Commit
