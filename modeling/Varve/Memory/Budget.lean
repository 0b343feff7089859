import Varve.Lib.Run
import Varve.Lib.Slots
import Varve.Engine.Model

/-!
# The raw memory budget

`raw_memory.rs`: credit for raw rows is acquired before an allocation, moves into it, and is
returned when the last owner drops.
-/

namespace Varve.Memory

open Engine (StoredRow)

def usizeMax : Nat := 2 ^ 64 - 1

inductive Fault where
  | absent
  | arithmetic
deriving DecidableEq, Repr

def plus (a b : Nat) : Except Fault Nat :=
  if a + b ≤ usizeMax then .ok (a + b) else .error .arithmetic

def minus (a b : Nat) : Except Fault Nat := if b ≤ a then .ok (a - b) else .error .arithmetic

/-- A total that changes only for credit of its class. -/
def onClass (inClass : Bool) (total : Nat) (f : Nat → Except Fault Nat) : Except Fault Nat :=
  if inClass then f total else .ok total

def owned (o : Option α) : Except Fault α := o.elim (.error .absent) .ok

structure RawMemoryStatus where
  limitBytes : Nat
  workingLimitBytes : Nat
  /-- All outstanding reservations, with those of live allocations. -/
  reservedBytes : Nat
  liveBytes : Nat
  workingBytes : Nat
  pinnedBytes : Nat
  peakBytes : Nat
  rejections : Nat
deriving DecidableEq, Repr

inductive RawReservationError where
  | tooLarge
  | pressure
deriving DecidableEq, Repr

inductive Failure where
  | reservation (e : RawReservationError)
  | message (text : String)
deriving DecidableEq, Repr

structure RawReservation where
  bytes : Nat
  working : Bool
  live : Bool
deriving DecidableEq, Repr

namespace RawMemoryStatus

def new (limitBytes workingLimitBytes : Nat) : Except String RawMemoryStatus := do
  Result.ensure (0 < limitBytes ∧ 0 < workingLimitBytes ∧ limitBytes + workingLimitBytes ≤ usizeMax)
    "raw memory limits must be positive and their sum must fit usize"
  .ok ⟨limitBytes, workingLimitBytes, 0, 0, 0, 0, 0, 0⟩

/-- The bytes in use of the pool that a class draws on. -/
def used (s : RawMemoryStatus) (working : Bool) : Except Fault Nat :=
  if working then .ok s.workingBytes else minus s.reservedBytes s.workingBytes

def limit (s : RawMemoryStatus) (working : Bool) : Nat :=
  if working then s.workingLimitBytes else s.limitBytes

def reject (s : RawMemoryStatus) : RawMemoryStatus :=
  { s with rejections := min (s.rejections + 1) usizeMax }

def refusal (s : RawMemoryStatus) (working : Bool) (bytes : Nat) : Failure :=
  .reservation (if s.limit working < bytes then .tooLarge else .pressure)

def acquire (s : RawMemoryStatus) (bytes : Nat) (working : Bool) :
    Except Fault (Except Failure RawReservation × RawMemoryStatus) := do
  let used ← s.used working
  let free ← minus (s.limit working) used
  if free < bytes then .ok (.error (s.refusal working bytes), s.reject)
  else do
    let reservedBytes ← plus s.reservedBytes bytes
    let workingBytes ← onClass working s.workingBytes (plus · bytes)
    .ok (.ok ⟨bytes, working, false⟩,
      { s with reservedBytes, workingBytes, peakBytes := max s.peakBytes reservedBytes })

def replace (total old new : Nat) : Except Fault Nat := do
  let rest ← minus total old
  plus rest new

/-- The new size is above the limit, or above what the others leave of it. -/
def refuses (s : RawMemoryStatus) (r : RawReservation) (bytes : Nat) : Except Fault Bool := do
  let used ← s.used r.working
  if s.limit r.working < bytes then .ok true
  else do
    let others ← minus used r.bytes
    let free ← minus (s.limit r.working) others
    .ok (decide (free < bytes))

def resize (s : RawMemoryStatus) (r : RawReservation) (bytes : Nat) :
    Except Fault (Except Failure RawReservation × RawMemoryStatus) := do
  let refused ← s.refuses r bytes
  if refused then .ok (.error (s.refusal r.working bytes), s.reject)
  else do
    let reservedBytes ← replace s.reservedBytes r.bytes bytes
    let workingBytes ← onClass r.working s.workingBytes (replace · r.bytes bytes)
    let liveBytes ← onClass r.live s.liveBytes (replace · r.bytes bytes)
    .ok (.ok { r with bytes },
      { s with reservedBytes, workingBytes, liveBytes, peakBytes := max s.peakBytes reservedBytes })

def refund (s : RawMemoryStatus) (r : RawReservation) : Except Fault RawMemoryStatus := do
  let reservedBytes ← minus s.reservedBytes r.bytes
  let workingBytes ← onClass r.working s.workingBytes (minus · r.bytes)
  let liveBytes ← onClass r.live s.liveBytes (minus · r.bytes)
  .ok { s with reservedBytes, workingBytes, liveBytes }

end RawMemoryStatus

-- Allocations and handles

def saturate (n : Nat) : Nat := min n usizeMax

def logicalBytes (rows : List (StoredRow F)) : Nat :=
  rows.foldl (fun n r => saturate (n + r.row.estimatedBytes)) 0

def rowCharge (logical : Nat) : Nat := saturate (saturate (logical * 8) + 256)

def maxTagsJsonBytes (rows : List (StoredRow F)) : Nat :=
  rows.foldl (fun n r => max n (Text.len (Map.json Json.string r.row.tags))) 0

/-- Immutable rows and the credit that covers them; `strong` counts the handles. -/
structure RawAllocation (F : Type) where
  rows : List (StoredRow F)
  identity : Nat
  maxTagsJsonBytes : Nat
  pins : Nat
  reservation : RawReservation
  strong : Nat

/-- A role of an allocation; `strong` counts the `SharedRawRows` that share it.
At zero the handle is being dropped: it gives up its pin and then its allocation. -/
structure RawHandle where
  allocation : Nat
  pinned : Bool
  strong : Nat
deriving DecidableEq, Repr

structure Pool (F : Type) where
  status : RawMemoryStatus
  reservations : Slots RawReservation
  allocations : Slots (RawAllocation F)
  handles : Slots RawHandle
  nextIdentity : Nat

namespace Pool

def new (status : RawMemoryStatus) : Pool F := ⟨status, [], [], [], 1⟩

/-- What an operation reports, and the pool after it. -/
abbrev Outcome (F : Type) := Except Failure Unit × Pool F

variable {F : Type} (p : Pool F)

def acquire (bytes : Nat) (working : Bool) : Except Fault (Outcome F) := do
  match ← p.status.acquire bytes working with
  | (.error e, status) => .ok (.error e, { p with status })
  | (.ok r, status) => .ok (.ok (), { p with status, reservations := p.reservations.add r })

def resize (i bytes : Nat) : Except Fault (Outcome F) := do
  let r ← owned (p.reservations.get i)
  match ← p.status.resize r bytes with
  | (.error e, status) => .ok (.error e, { p with status })
  | (.ok r, status) => .ok (.ok (), { p with status, reservations := p.reservations.put i r })

def shrink (i bytes : Nat) : Except Fault (Outcome F) := do
  let r ← owned (p.reservations.get i)
  if bytes ≤ r.bytes then p.resize i bytes
  else .ok (.error (.message "raw credit shrink cannot grow"), p)

def split (i bytes : Nat) : Except Fault (Outcome F) := do
  let r ← owned (p.reservations.get i)
  if r.live = false ∧ bytes ≤ r.bytes then do
    let rest ← minus r.bytes bytes
    let kept := p.reservations.put i { r with bytes := rest }
    .ok (.ok (), { p with reservations := kept.add ⟨bytes, r.working, false⟩ })
  else .ok (.error (.message "invalid raw credit split"), p)

def dropReservation (i : Nat) : Except Fault (Pool F) := do
  let r ← owned (p.reservations.get i)
  let status ← p.status.refund r
  .ok { p with status, reservations := p.reservations.free i }

/-- The rows of a build, checked against the reservation that covers them. -/
def allocated (r : RawReservation) (allocate : Except Failure (List (StoredRow F))) :
    Except Failure (List (StoredRow F)) := do
  let rows ← allocate
  Result.ensure (rowCharge (logicalBytes rows) ≤ r.bytes)
    (.message "raw allocation exceeds its pre-allocation reservation")
  Result.ensure (p.nextIdentity + 1 ≤ usizeMax) (.message "raw allocation identity exhausted")
  .ok rows

/-- The reservation is consumed: it becomes part of the allocation or is dropped. -/
def build (i : Nat) (allocate : Except Failure (List (StoredRow F))) :
    Except Fault (Outcome F) := do
  let r ← owned (p.reservations.get i)
  match p.allocated r allocate with
  | .error e => do
    let p' ← p.dropReservation i
    .ok (.error e, p')
  | .ok rows => do
    let liveBytes ← plus p.status.liveBytes r.bytes
    let allocation : RawAllocation F :=
      ⟨rows, p.nextIdentity, maxTagsJsonBytes rows, 0, { r with live := true }, 1⟩
    .ok (.ok (),
      { p with
        status := { p.status with liveBytes }
        reservations := p.reservations.free i
        allocations := p.allocations.add allocation
        handles := p.handles.add ⟨p.allocations.length, false, 1⟩
        nextIdentity := p.nextIdentity + 1 })

/-- A handle that some `SharedRawRows` still holds. -/
def sharedHandle (h : Nat) : Except Fault RawHandle := do
  let handle ← owned (p.handles.get h)
  if 0 < handle.strong then .ok handle else .error .absent

/-- The clone of a `SharedRawRows`. -/
def clone (h : Nat) : Except Fault (Outcome F) := do
  let handle ← p.sharedHandle h
  .ok (.ok (), { p with handles := p.handles.put h { handle with strong := handle.strong + 1 } })

def pin (h : Nat) : Except Fault (Outcome F) := do
  let handle ← p.sharedHandle h
  let allocation ← owned (p.allocations.get handle.allocation)
  let pinnedBytes ← onClass (allocation.pins == 0) p.status.pinnedBytes
    (plus · allocation.reservation.bytes)
  .ok (.ok (),
    { p with
      status := { p.status with pinnedBytes }
      allocations := p.allocations.put handle.allocation
        { allocation with pins := allocation.pins + 1, strong := allocation.strong + 1 }
      handles := p.handles.add ⟨handle.allocation, true, 1⟩ })

def drop (i : Nat) : Except Fault (Outcome F) := do
  let p' ← p.dropReservation i
  .ok (.ok (), p')

/-- The drop of a `SharedRawRows`. -/
def dropRows (h : Nat) : Except Fault (Outcome F) := do
  let handle ← p.sharedHandle h
  .ok (.ok (), { p with handles := p.handles.put h { handle with strong := handle.strong - 1 } })

/-- `RawHandle::drop`, once the last `SharedRawRows` of the handle is gone. -/
def unpin (h : Nat) : Except Fault (Outcome F) := do
  let handle ← owned (p.handles.get h)
  if handle.strong = 0 ∧ handle.pinned = true then do
    let allocation ← owned (p.allocations.get handle.allocation)
    let pins ← minus allocation.pins 1
    let pinnedBytes ← onClass (pins == 0) p.status.pinnedBytes
      (minus · allocation.reservation.bytes)
    .ok (.ok (),
      { p with
        status := { p.status with pinnedBytes }
        allocations := p.allocations.put handle.allocation { allocation with pins }
        handles := p.handles.put h { handle with pinned := false } })
  else .error .absent

/-- The drop of the handle's own field, which gives up the allocation. -/
def release (h : Nat) : Except Fault (Outcome F) := do
  let handle ← owned (p.handles.get h)
  if handle.strong = 0 ∧ handle.pinned = false then do
    let allocation ← owned (p.allocations.get handle.allocation)
    let strong ← minus allocation.strong 1
    .ok (.ok (),
      { p with
        allocations := p.allocations.put handle.allocation { allocation with strong }
        handles := p.handles.free h })
  else .error .absent

/-- The drop of an allocation that the last handle has given up. -/
def deallocate (a : Nat) : Except Fault (Outcome F) := do
  let allocation ← owned (p.allocations.get a)
  if allocation.strong = 0 then do
    let status ← p.status.refund allocation.reservation
    .ok (.ok (), { p with status, allocations := p.allocations.free a })
  else .error .absent

end Pool

/-- The operations of the owners, and the steps that their drops are made of. -/
inductive Op (F : Type) where
  | acquire (bytes : Nat) (working : Bool)
  | resize (i bytes : Nat)
  | shrink (i bytes : Nat)
  | split (i bytes : Nat)
  | build (i : Nat) (allocate : Except Failure (List (StoredRow F)))
  | clone (h : Nat)
  | pin (h : Nat)
  | drop (i : Nat)
  | dropRows (h : Nat)
  | unpin (h : Nat)
  | release (h : Nat)
  | deallocate (a : Nat)

variable {F : Type}

def Pool.run (p : Pool F) : Op F → Except Fault (Pool.Outcome F)
  | .acquire bytes working => p.acquire bytes working
  | .resize i bytes => p.resize i bytes
  | .shrink i bytes => p.shrink i bytes
  | .split i bytes => p.split i bytes
  | .build i allocate => p.build i allocate
  | .clone h => p.clone h
  | .pin h => p.pin h
  | .drop i => p.drop i
  | .dropRows h => p.dropRows h
  | .unpin h => p.unpin h
  | .release h => p.release h
  | .deallocate a => p.deallocate a

/-- Every order of operations and drops, with the failures among them. -/
def machine (F : Type) : Machine (Pool F) (Op F) where
  init p := ∃ limitBytes workingLimitBytes status,
    RawMemoryStatus.new limitBytes workingLimitBytes = .ok status ∧ p = .new status
  step p op p' := ∃ result, p.run op = .ok (result, p')

end Varve.Memory
