import Varve.Flow.Ring

/-!
# The ingestion pipeline

`ingest.rs`, `ingest_flow.rs` and `ingest_flow_workers.rs` over the ring of `flow.rs`: admission,
the registry of terminal senders, and the four workers.
-/

namespace Varve.Ingest

open Varve.Flow (Shape)

-- Configuration

/-- A configuration `Ingestor::new` accepted, with its limits clamped. -/
structure Config where
  queueCapacity : Nat
  maxPendingBytes : Nat
  maxGroupRequests : Nat
  maxGroupRows : Nat
  maxGroupBytes : Nat
  capacity_pos : 0 < queueCapacity
  capacity_le : queueCapacity ≤ 1000000
  pending_pos : 0 < maxPendingBytes
  requests_pos : 0 < maxGroupRequests

/-- Validation, preparation, commit and completion in a chain. -/
def Config.shape (c : Config) : Shape where
  capacity := c.queueCapacity
  maxBytes := c.maxPendingBytes
  dependencies := [[], [0], [1], [2]]
  capacity_pos := c.capacity_pos
  capacity_le := c.capacity_le
  maxBytes_pos := c.pending_pos
  stages_pos := by decide
  stages_le := by decide
  earlier i parents h p hp := by
    match i, h with
    | 0, h | 1, h | 2, h | 3, h =>
      obtain rfl := Option.some.inj h
      simp at hp <;> omega
    | i + 4, h => simp at h

-- State

structure Event where
  bytes : Nat
  rows : Nat
  write : Bool
deriving DecidableEq

abbrev Ring (c : Config) := Flow.State c.shape Event

/-- A result is the sequence of a receipt, or nothing for an error. -/
abbrev Outcome := Option Nat

/-- `PreparedEpoch`: the results of its requests, and the sequence it will publish. -/
structure Epoch where
  results : List Outcome
  publication : Option Nat
deriving DecidableEq

/-- `sync` and `install`; a publication that fails takes the receipts of its sequence back. -/
def Epoch.publish (epoch : Epoch) (installs : Bool) : List Outcome :=
  match epoch.publication with
  | none => epoch.results
  | some sequence =>
    if installs then epoch.results
    else epoch.results.map fun r => if r = some sequence then none else r

inductive Payload where
  | input
  | validated
  | epoch (count : Nat) (epoch : Epoch)
  | member
  | written (result : Outcome)
  | barrier (result : Option Outcome)
  | empty
deriving DecidableEq

/-- A registered request. Its completion is that of a write or of a flush, as its event is. -/
structure Entry where
  sequence : Nat
  event : Event
deriving DecidableEq

inductive Pc where
  | idle
  | held
  | grouping (count : Nat)
  | published (results : List Outcome)
  | finished (last : Nat)
  | awaiting (last : Nat)
  | leaving (clean : Bool)
  | stopped
deriving DecidableEq

/-- The registry of terminal senders with the counters of `IngestStats`. `doomed` are the entries
`fail_pending` took; `results` is a history no operation reads. -/
structure Book where
  entries : List Entry
  doomed : List Entry
  pendingRequests : Nat
  pendingBytes : Nat
  results : Nat → List Outcome

namespace Book

def enter (b : Book) (entry : Entry) : Book :=
  { b with
    entries := b.entries ++ [entry]
    pendingRequests := b.pendingRequests + if entry.event.write then 1 else 0
    pendingBytes := b.pendingBytes + if entry.event.write then entry.event.bytes else 0 }

/-- `Pending::finish`, or the send of a flush. -/
def finish (b : Book) (entry : Entry) (result : Outcome) : Book :=
  { b with
    pendingRequests := b.pendingRequests - if entry.event.write then 1 else 0
    pendingBytes := b.pendingBytes - if entry.event.write then entry.event.bytes else 0
    results := Function.update b.results entry.sequence (b.results entry.sequence ++ [result]) }

def remove (b : Book) (entry : Entry) : Book := { b with entries := b.entries.erase entry }

/-- What `fail_pending` takes at once. -/
def doom (b : Book) : Book := { b with entries := [], doomed := b.doomed ++ b.entries }

end Book

/-- The cell of an event is found by its sequence; `epoch` is the one the commit worker took.
`prepared` is a history no operation reads. -/
structure State (c : Config) where
  flow : Ring c
  cells : Nat → Payload
  book : Book
  validated : Nat
  published : Nat
  closed : Bool
  failure : Option String
  workers : Nat → Pc
  workersLeft : Nat
  epoch : Epoch
  prepared : List (Nat × List Event)

variable {c : Config}

def new (c : Config) : State c where
  flow := Flow.State.new c.shape Event
  cells _ := .empty
  book := ⟨[], [], 0, 0, fun _ => []⟩
  validated := 0
  published := 0
  closed := false
  failure := none
  workers _ := .idle
  workersLeft := 4
  epoch := ⟨[], none⟩
  prepared := []

/-- Cells `first, first + 1, …` set to the given payloads. -/
def fill (cells : Nat → Payload) (first : Nat) (payloads : List Payload) (q : Nat) : Payload :=
  if first ≤ q then (payloads[q - first]?).getD (cells q) else cells q

namespace State

def goto (s : State c) (i : Nat) (pc : Pc) : State c :=
  { s with workers := Function.update s.workers i pc }

def enqueue (s : State c) (f : Ring c) (q : Nat) (e : Event) (p : Payload) : State c :=
  { s with
    flow := f
    cells := Function.update s.cells q p
    book := s.book.enter ⟨q, e⟩ }

def close (s : State c) : State c :=
  { s with
    closed := true
    flow := { s.flow with core := s.flow.core.close } }

/-- `Runtime::fence`. -/
def fence (s : State c) (message : String) : State c :=
  { s with
    closed := true
    failure := s.failure.or (some (String.ofList (message.toList.take 256)))
    flow := s.flow.fence message }

/-- A worker writes a cell and finishes its delivery. -/
def finishCell (s : State c) (i : Nat) (f : Ring c) (q : Nat) (p : Payload) (pc : Pc) : State c :=
  { s with
    flow := f
    cells := Function.update s.cells q p }.goto i pc

def prepare (s : State c) (f : Ring c) (first : Nat) (events : List Event) (epoch : Epoch) :
    State c :=
  { s with
    flow := f
    cells := fill s.cells first
      (.epoch events.length epoch :: List.replicate (events.length - 1) .member)
    prepared := s.prepared ++ [(first, events)] }.goto 1 (.awaiting (first + events.length - 1))

def takeEpoch (s : State c) (q n : Nat) (epoch : Epoch) : State c :=
  { s with
    cells := Function.update s.cells q .empty
    epoch }.goto 2 (.grouping n)

def publish (s : State c) (first n : Nat) (installs : Bool) : State c :=
  { s with
    cells := fill s.cells (first + 1) (List.replicate (n - 1) .empty) }.goto 2
      (.published (s.epoch.publish installs))

def store (s : State c) (f : Ring c) (first : Nat) (rs : List Outcome) : State c :=
  { s with
    flow := f
    cells := fill s.cells first (rs.map .written) }.goto 2 (.finished (first + rs.length - 1))

def complete (s : State c) (f : Ring c) (entry : Entry) (result : Outcome) : State c :=
  { s with
    flow := f
    cells := Function.update s.cells entry.sequence .empty
    book := (s.book.remove entry).finish entry result }.goto 3 .idle

/-- A worker is gone with its stage and some of the payloads it had taken. -/
def drop (s : State c) (i : Nat) (f : Ring c) (cells : Nat → Payload) (clean : Bool) : State c :=
  { s with flow := f, cells }.goto i (.leaving clean)

/-- `worker_finished`, up to the test for the last worker. -/
def finished (s : State c) (clean : Bool) (message : String) : State c :=
  if clean = true ∧ s.flow.core.fenced = false then s else s.fence message

def leave (s : State c) (i : Nat) (book : Book) : State c :=
  { s with workersLeft := s.workersLeft - 1, book }.goto i .stopped

end State

-- The groups of preparation

/-- The loop of `group_len`. -/
def groupCount (c : Config) (validated : Nat) : Nat → Nat → Nat → List Entry → Nat
  | count, _, _, [] => count
  | count, rows, bytes, entry :: entries =>
    if validated < entry.sequence then count
    else if !entry.event.write ∨ c.maxGroupRows < rows + entry.event.rows ∨
        c.maxGroupBytes < bytes + entry.event.bytes then count
    else if count + 1 = c.maxGroupRequests ∨ rows + entry.event.rows = c.maxGroupRows ∨
        bytes + entry.event.bytes = c.maxGroupBytes then count + 1
    else groupCount c validated (count + 1) (rows + entry.event.rows)
      (bytes + entry.event.bytes) entries

/-- `group_len` at a write; it waits for more only while it may. -/
def groupLen (s : State c) (first : Nat) : Nat :=
  max (groupCount c s.validated 0 0 128 (s.book.entries.filter fun e => first ≤ e.sequence)) 1

-- Workers

def validateCell : Payload → Option Payload
  | .input => some .validated
  | .barrier none => some (.barrier none)
  | _ => none

/-- The terminal state completion expects of an entry. -/
def terminal (event : Event) : Payload → Option Outcome
  | .written result => if event.write then some result else none
  | .barrier (some result) => if event.write then none else some result
  | _ => none

/-- The conditions under which a worker returns an error. -/
def Faulty (s : State c) (i : Nat) : Prop :=
  match s.workers i, s.flow.owners i with
  | .idle, _ => s.flow.core.failed.isSome
  | .held, .delivery q (some e) =>
    if i = 0 then validateCell (s.cells q) = none
    else if i = 3 then ∀ entry ∈ s.book.entries, entry.sequence = q →
      terminal entry.event (s.cells q) = none
    else if e.write then
      if i = 1 then s.failure.isSome ∨ ∀ entry ∈ s.book.entries, entry.sequence ≠ q
      else ∀ n epoch, s.cells q ≠ .epoch n epoch
    else s.cells q ≠ .barrier none
  | .grouping n, .delivery _ _ => s.flow.core.failed.isSome ∨ n = 0
  | .grouping _, .coalescing _ _ _ => s.flow.core.failed.isSome
  | .grouping n, .batch first values => values.length ≠ n ∨ none ∈ values ∨
    if i = 1 then ∃ k < n, s.cells (first + k) ≠ .validated
    else ∃ k < n, 0 < k ∧ s.cells (first + k) ≠ .member
  | .published rs, .batch _ values => rs.length ≠ values.length
  | .awaiting last, _ => s.published < last ∧ s.failure.isSome
  | _, _ => False

/-- The sequences a worker has been handed and has not finished. -/
def holds : Flow.Owner Event → Nat → Prop
  | .delivery first _, q => q = first
  | .coalescing first values _, q | .batch first values, q =>
    first ≤ q ∧ q < first + values.length
  | _, _ => False

/-- Some of the payloads a worker has taken are gone with it. -/
def Lost (s : State c) (i : Nat) (cells : Nat → Payload) : Prop :=
  ∀ q, cells q = s.cells q ∨ cells q = .empty ∧ holds (s.flow.owners i) q

/-- A worker's delivery and stage dropped, by a return or by a panic. -/
inductive Unwound (f : Ring c) (i : Nat) : Ring c → Prop where
  | idle {f' : Ring c} (h : f.owners i = .idle)
      (hs : f.step (.dropStage i) = .ok f') : Unwound f i f'
  | holding {f₁ f' : Ring c} (hd : f.step (.dropDelivery i) = .ok f₁)
      (hs : f₁.step (.dropStage i) = .ok f') : Unwound f i f'

/-- Who takes a step: a caller, a worker, a worker that panics, or the loops that free slots of
the ring and send the errors of a fenced stream. `prepare` is the step of worker 1 that the
history records. -/
inductive Label where
  | caller
  | worker (i : Nat)
  | prepare
  | panic (i : Nat)
  | sweep
deriving DecidableEq

def Label.actor : Label → Option Nat
  | worker i | panic i => some i
  | prepare => some 1
  | caller | sweep => none

inductive Step : State c → Label → State c → Prop where
  -- admission
  | submit {s : State c} {e : Event} {q : Nat} {f₁ f₂ f : Ring c} (hw : e.write = true)
      (hrows : e.rows ≤ c.maxGroupRows) (hgroup : e.bytes + 128 ≤ c.maxGroupBytes)
      (hbytes : e.bytes ≤ c.maxPendingBytes) (ho : s.closed = false)
      (hp : s.book.pendingBytes + e.bytes ≤ c.maxPendingBytes)
      (hr : s.flow.step (.reserve e.bytes) = .ok f₁) (ha : f₁.step (.advance e.bytes) = .ok f₂)
      (hq : f₂.claims = [⟨q, e.bytes⟩]) (hf : f₂.step (.publish ⟨q, e.bytes⟩ e) = .ok f) :
      Step s .caller (s.enqueue f q e .input)
  | flush {s : State c} {q : Nat} {f₁ f₂ f : Ring c} (ho : s.closed = false)
      (hr : s.flow.step (.reserve 0) = .ok f₁) (ha : f₁.step (.advance 0) = .ok f₂)
      (hq : f₂.claims = [⟨q, 0⟩]) (hf : f₂.step (.publish ⟨q, 0⟩ ⟨0, 0, false⟩) = .ok f) :
      Step s .caller (s.enqueue f q ⟨0, 0, false⟩ (.barrier none))
  | refused {s : State c} {bytes : Nat} {f₁ f : Ring c} (ho : s.closed = false)
      (hr : s.flow.step (.reserve bytes) = .ok f₁) (ha : f₁.step (.advance bytes) = .ok f)
      (hq : f.claims = []) : Step s .caller { s with flow := f }
  | close {s : State c} : Step s .caller s.close
  | fence {s : State c} (message : String) : Step s .caller (s.fence message)
  -- `next_until`
  | next {s : State c} {i q : Nat} {v : Option Event} {f : Ring c} (hi : i < 4)
      (hp : s.workers i = .idle) (hf : s.flow.step (.nextUntil i) = .ok f)
      (hd : f.owners i = .delivery q v) : Step s (.worker i) ({ s with flow := f }.goto i .held)
  | drained {s : State c} {i : Nat} {f : Ring c} (hi : i < 4) (hp : s.workers i = .idle)
      (hn : s.flow.core.failed.isSome = false) (hc : s.flow.core.closed = true)
      (hh : s.flow.core.head ≤ s.flow.core.finished i)
      (hf : s.flow.step (.dropStage i) = .ok f) : Step s (.worker i) (s.drop i f s.cells true)
  /-- A claim that was dropped. -/
  | cancelled {s : State c} {i q : Nat} {f : Ring c} (hi : i < 4) (hp : s.workers i = .held)
      (ho : s.flow.owners i = .delivery q none) (hf : s.flow.step (.finish i) = .ok f) :
      Step s (.worker i) ({ s with flow := f }.goto i
        (if i = 0 ∨ i = 2 then .finished q else .idle))
  -- validation
  | validate {s : State c} {q : Nat} {e : Event} {p : Payload} {f : Ring c}
      (hp : s.workers 0 = .held) (ho : s.flow.owners 0 = .delivery q (some e))
      (hc : validateCell (s.cells q) = some p) (hf : s.flow.step (.finish 0) = .ok f) :
      Step s (.worker 0) (s.finishCell 0 f q p (.finished q))
  | markValidated {s : State c} {q : Nat} (hp : s.workers 0 = .finished q) :
      Step s (.worker 0) ({ s with validated := q }.goto 0 .idle)
  -- preparation
  | passBarrier {s : State c} {q : Nat} {e : Event} {f : Ring c} (hp : s.workers 1 = .held)
      (ho : s.flow.owners 1 = .delivery q (some e)) (hw : e.write = false)
      (hc : s.cells q = .barrier none) (hf : s.flow.step (.finish 1) = .ok f) :
      Step s (.worker 1) (s.finishCell 1 f q (.barrier none) .idle)
  | group {s : State c} {q : Nat} {e : Event} (hp : s.workers 1 = .held)
      (ho : s.flow.owners 1 = .delivery q (some e)) (hw : e.write = true)
      (hn : s.failure = none) (he : ∃ entry ∈ s.book.entries, entry.sequence = q) :
      Step s (.worker 1) (s.goto 1 (.grouping (groupLen s q)))
  | coalesce {s : State c} {i n first : Nat} {v : Option Event} {f : Ring c} (hi : i < 4)
      (hp : s.workers i = .grouping n) (ho : s.flow.owners i = .delivery first v) (h0 : n ≠ 0)
      (hn : s.flow.core.failed.isSome = false) (hf : s.flow.step (.coalesce i n) = .ok f) :
      Step s (.worker i) { s with flow := f }
  | coalesceNext {s : State c} {i n first limit : Nat} {values : List (Option Event)}
      {f : Ring c} (hi : i < 4) (hp : s.workers i = .grouping n)
      (ho : s.flow.owners i = .coalescing first values limit)
      (hn : s.flow.core.failed.isSome = false)
      (hf : s.flow.step (.coalesceNext i true) = .ok f) : Step s (.worker i) { s with flow := f }
  /-- `prepare_epoch` returns some epoch. -/
  | prepare {s : State c} {first : Nat} {events : List Event} {epoch : Epoch} {f : Ring c}
      (hp : s.workers 1 = .grouping events.length)
      (ho : s.flow.owners 1 = .batch first (events.map some))
      (hc : ∀ k < events.length, s.cells (first + k) = .validated)
      (hf : s.flow.step (.finish 1) = .ok f) : Step s .prepare (s.prepare f first events epoch)
  | await {s : State c} {last : Nat} (hp : s.workers 1 = .awaiting last)
      (hl : last ≤ s.published) : Step s (.worker 1) (s.goto 1 .idle)
  -- commit
  | commitBarrier {s : State c} {q : Nat} {e : Event} {committed : Outcome} {f : Ring c}
      (hp : s.workers 2 = .held) (ho : s.flow.owners 2 = .delivery q (some e))
      (hw : e.write = false) (hc : s.cells q = .barrier none)
      (hf : s.flow.step (.finish 2) = .ok f) :
      Step s (.worker 2) (s.finishCell 2 f q (.barrier (some committed)) (.finished q))
  | takeEpoch {s : State c} {q n : Nat} {e : Event} {epoch : Epoch} (hp : s.workers 2 = .held)
      (ho : s.flow.owners 2 = .delivery q (some e)) (hw : e.write = true)
      (hc : s.cells q = .epoch n epoch) : Step s (.worker 2) (s.takeEpoch q n epoch)
  | publish {s : State c} {first n : Nat} {values : List (Option Event)} (installs : Bool)
      (hp : s.workers 2 = .grouping n) (ho : s.flow.owners 2 = .batch first values)
      (hn : values.length = n) (hc : ∀ k < n, 0 < k → s.cells (first + k) = .member) :
      Step s (.worker 2) (s.publish first n installs)
  | store {s : State c} {first : Nat} {values : List (Option Event)} {rs : List Outcome}
      {f : Ring c} (hp : s.workers 2 = .published rs)
      (ho : s.flow.owners 2 = .batch first values) (hn : rs.length = values.length)
      (hf : s.flow.step (.finish 2) = .ok f) : Step s (.worker 2) (s.store f first rs)
  | markPublished {s : State c} {q : Nat} (hp : s.workers 2 = .finished q) :
      Step s (.worker 2) ({ s with published := q }.goto 2 .idle)
  -- completion
  | complete {s : State c} {e : Event} {entry : Entry} {result : Outcome} {f : Ring c}
      (hp : s.workers 3 = .held) (ho : s.flow.owners 3 = .delivery entry.sequence (some e))
      (he : entry ∈ s.book.entries)
      (ht : terminal entry.event (s.cells entry.sequence) = some result)
      (hf : s.flow.step (.finish 3) = .ok f) : Step s (.worker 3) (s.complete f entry result)
  | reclaim {s : State c} {f : Ring c} (hf : s.flow.step .reclaimSlot = .ok f) :
      Step s .sweep { s with flow := f }
  -- stopping
  | bail {s : State c} {i : Nat} {cells : Nat → Payload} {f : Ring c} (hi : i < 4)
      (h : Faulty s i) (hl : Lost s i cells) (hf : Unwound s.flow i f) :
      Step s (.worker i) (s.drop i f cells false)
  | panic {s : State c} {i : Nat} {cells : Nat → Payload} {f : Ring c} (hi : i < 4)
      (hl : Lost s i cells) (hf : Unwound s.flow i f) : Step s (.panic i) (s.drop i f cells false)
  /-- A worker leaves others behind, or a stream that was drained. -/
  | leave {s : State c} {i : Nat} {clean : Bool} {message : String} (hi : i < 4)
      (hp : s.workers i = .leaving clean)
      (hl : s.workersLeft ≠ 1 ∨ (s.finished clean message).flow.core.fenced = false) :
      Step s (.worker i) ((s.finished clean message).leave i s.book)
  /-- The last worker of a fenced stream calls `fail_pending`. -/
  | leaveLast {s : State c} {i : Nat} {clean : Bool} {message : String} (hi : i < 4)
      (hp : s.workers i = .leaving clean) (hl : s.workersLeft = 1)
      (hf : (s.finished clean message).flow.core.fenced = true) :
      Step s (.worker i) ((s.finished clean message).leave i s.book.doom)
  | fail {s : State c} {entry : Entry} {doomed : List Entry}
      (h : s.book.doomed = entry :: doomed) :
      Step s .sweep { s with book := { s.book with doomed }.finish entry none }

def machine (c : Config) : Machine (State c) Label where
  init s := s = new c
  step := Step

end Varve.Ingest
