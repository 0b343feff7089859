import Mathlib.Logic.Function.Basic
import Mathlib.Algebra.BigOperators.Intervals
import Varve.Lib.Run

/-!
# The bounded sequenced broadcast

`flow.rs` as a state machine.
-/

namespace Varve.Flow

def maxStages : Nat := 64
def sequenceMask : Nat := 2 ^ 63 - 1

inductive FlowError where
  | invalidConfig (message : String)
  | full
  | tooLarge
  | closed
  | deadline
  | failed (message : String)
deriving DecidableEq, Repr

-- Accepted graphs

/-- The parameters `bounded` accepts. -/
structure Shape where
  capacity : Nat
  maxBytes : Nat
  dependencies : List (List Nat)
  capacity_pos : 0 < capacity
  capacity_le : capacity ≤ 1000000
  maxBytes_pos : 0 < maxBytes
  stages_pos : 0 < dependencies.length
  stages_le : dependencies.length ≤ maxStages
  earlier : ∀ (i : Nat) (parents : List Nat), dependencies[i]? = some parents → ∀ p ∈ parents, p < i

namespace Shape

def stages (S : Shape) : Nat := S.dependencies.length

def parents (S : Shape) (stage : Nat) : List Nat := (S.dependencies[stage]?).getD []

/-- `gates_reclamation`: no stage depends on this one. -/
def gates (S : Shape) (stage : Nat) : Bool :=
  !S.dependencies.any fun children => children.contains stage

def position (S : Shape) (sequence : Nat) : Nat := (sequence - 1) % S.capacity

theorem parent_lt {S : Shape} (h : p ∈ S.parents i) : p < i := by
  unfold parents at h
  cases hd : S.dependencies[i]? with
  | none => simp [hd] at h
  | some parents => exact S.earlier i parents hd p (by simpa [hd] using h)

theorem exists_child {S : Shape} (h : S.gates i = false) : ∃ j < S.stages, i ∈ S.parents j := by
  simp only [gates, Bool.not_eq_false', List.any_eq_true, List.contains_iff_mem] at h
  obtain ⟨children, hc, hi⟩ := h
  obtain ⟨j, hj, rfl⟩ := List.mem_iff_getElem.mp hc
  exact ⟨j, hj, by simp [parents, List.getElem?_eq_getElem hj, hi]⟩

end Shape

/-- The per-stage checks of `bounded`, from stage `index` on. -/
def checkParents (index : Nat) : List (List Nat) → Except FlowError Unit
  | [] => .ok ()
  | parents :: rest =>
    if parents.length > maxStages || parents.any (fun parent => index ≤ parent) then
      .error (.invalidConfig "dependencies must name earlier stages")
    else if !decide parents.Nodup then
      .error (.invalidConfig "duplicate dependency")
    else checkParents (index + 1) rest

theorem checkParents_ok (h : checkParents index deps = .ok ()) :
    ∀ i parents, deps[i]? = some parents → ∀ p ∈ parents, p < index + i := by
  induction deps generalizing index with
  | nil => simp
  | cons parents rest ih =>
    simp only [checkParents] at h
    split at h
    · cases h
    · rename_i hp
      split at h
      · cases h
      · intro i ps hi p hmem
        cases i with
        | zero =>
          simp only [List.getElem?_cons_zero, Option.some.injEq] at hi
          subst hi
          simp only [Bool.or_eq_true, decide_eq_true_eq, List.any_eq_true, not_or, not_exists,
            not_and, not_le] at hp
          exact hp.2 p hmem
        | succ i =>
          have := ih h i ps (by simpa using hi) p hmem
          omega

def bounded (capacity maxBytes : Nat) (dependencies : List (List Nat)) :
    Except FlowError Shape :=
  if h : capacity = 0 ∨ capacity > 1000000 ∨ maxBytes = 0 ∨ dependencies = [] ∨
      dependencies.length > maxStages then
    .error (.invalidConfig "nonzero bounded slots, bytes and stages required")
  else
    match hd : checkParents 0 dependencies with
    | .error e => .error e
    | .ok () => .ok
      { capacity, maxBytes, dependencies
        capacity_pos := by omega
        capacity_le := by omega
        maxBytes_pos := by omega
        stages_pos := List.length_pos_iff.mpr fun hn => h (.inr (.inr (.inr (.inl hn))))
        stages_le := by omega
        earlier := fun i ps hi p hp => by simpa using checkParents_ok hd i ps hi p hp }

-- The ring

structure Entry (T : Type) where
  charge : Nat
  value : Option T
deriving DecidableEq, Repr

structure Slot (T : Type) where
  published : Nat
  entry : Option (Entry T)
deriving DecidableEq, Repr

structure Claim where
  sequence : Nat
  charge : Nat
deriving DecidableEq, Repr

/-- Why an action has no successor: its handle does not exist, or the code
panics. -/
inductive Stop where
  | disabled
  | panic (message : String)
deriving DecidableEq, Repr

structure Core (S : Shape) (T : Type) where
  slots : Nat → Slot T
  finished : Nat → Nat
  head : Nat
  closed : Bool
  reclaimed : Nat
  charged : Nat
  failure : Option String
  fenced : Bool

namespace Core

variable {S : Shape} {T : Type}

def new (S : Shape) (T : Type) : Core S T where
  slots _ := ⟨0, none⟩
  finished _ := 0
  head := 0
  closed := false
  reclaimed := 0
  charged := 0
  failure := none
  fenced := false

def failed (c : Core S T) : Option FlowError :=
  if c.fenced then c.failure.map .failed else none

def closedError (c : Core S T) : FlowError := c.failed.getD .closed

def fence (c : Core S T) (message : String) : Core S T :=
  { c with
    failure := c.failure.or (some (String.ofList (message.toList.take 256)))
    fenced := true
    closed := true }

def close (c : Core S T) : Core S T := { c with closed := true }

def publish (c : Core S T) (claim : Claim) (value : Option T) : Core S T :=
  let slot : Slot T := ⟨claim.sequence, some ⟨claim.charge, value⟩⟩
  { c with slots := Function.update c.slots (S.position claim.sequence) slot }

/-- `try_claim` up to the update of `charged`. -/
def reserve (c : Core S T) (charge : Nat) : Except FlowError (Core S T) :=
  if charge > S.maxBytes then .error .tooLarge
  else if c.closed then .error c.closedError
  else if c.head - c.reclaimed ≥ S.capacity then .error .full
  else if c.charged + charge ≤ S.maxBytes then .ok { c with charged := c.charged + charge }
  else .error .full

/-- `try_claim` from the update of `head` on. -/
def advance (c : Core S T) (charge : Nat) : Except FlowError Claim × Core S T :=
  if !c.closed && c.head != sequenceMask && decide (c.head - c.reclaimed < S.capacity) then
    (.ok ⟨c.head + 1, charge⟩, { c with head := c.head + 1 })
  else
    let refunded := { c with charged := c.charged - charge }
    if c.closed then (.error refunded.closedError, refunded)
    else if c.head = sequenceMask then
      let fenced := refunded.fence "sequence exhausted"
      (.error fenced.closedError, fenced)
    else (.error .full, refunded)

/-- The test of `next_until` and `coalesce`: every parent has finished the
sequence and it is published. -/
def ready (c : Core S T) (stage sequence : Nat) : Bool :=
  (S.parents stage).all (fun parent => decide (sequence ≤ c.finished parent)) &&
    (c.slots (S.position sequence)).published == sequence

def read (c : Core S T) (sequence : Nat) : Except Stop (Option T) :=
  match (c.slots (S.position sequence)).entry with
  | none => .error (.panic "published slot has entry")
  | some entry => .ok entry.value

def gating (_ : Core S T) : List Nat := (List.range S.stages).filter S.gates

def minimum (c : Core S T) : Nat := ((c.gating.map c.finished).min?).getD 0

/-- One iteration of the loop of `reclaim`. -/
def reclaimSlot (c : Core S T) : Except Stop (Core S T) :=
  match (c.slots (c.reclaimed % S.capacity)).entry with
  | none => .error (.panic "finished slot retains its entry")
  | some entry => .ok { c with
      slots := Function.update c.slots (c.reclaimed % S.capacity) ⟨0, none⟩
      charged := c.charged - entry.charge
      reclaimed := c.reclaimed + 1 }

end Core

-- The machine

inductive Owner (T : Type) where
  | idle
  | delivery (sequence : Nat) (value : Option T)
  | coalescing (first : Nat) (values : List (Option T)) (limit : Nat)
  | batch (first : Nat) (values : List (Option T))
  | dropped
deriving DecidableEq, Repr

structure State (S : Shape) (T : Type) where
  core : Core S T
  reservations : List Nat
  claims : List Claim
  owners : Nat → Owner T
  charges : Nat → Nat
  published : Nat → Option (Option T)
  delivered : Nat → List (Nat × Option T)

inductive Action (T : Type) where
  | reserve (charge : Nat)
  | advance (charge : Nat)
  | publish (claim : Claim) (value : T)
  | dropClaim (claim : Claim)
  | nextUntil (stage : Nat)
  | coalesce (stage maxItems : Nat)
  | coalesceNext (stage : Nat) (accepted : Bool)
  | finish (stage : Nat)
  | reclaimSlot
  | dropDelivery (stage : Nat)
  | dropStage (stage : Nat)
  | close
  | fence (reason : String)
deriving DecidableEq, Repr

namespace State

variable {S : Shape} {T : Type} {s : State S T}

def new (S : Shape) (T : Type) : State S T where
  core := Core.new S T
  reservations := []
  claims := []
  owners _ := .idle
  charges _ := 0
  published _ := none
  delivered _ := []

def own (s : State S T) (stage : Nat) (owner : Owner T) : State S T :=
  { s with owners := Function.update s.owners stage owner }

@[simp] theorem own_core : (s.own i o).core = s.core := rfl
@[simp] theorem own_delivered : (s.own i o).delivered = s.delivered := rfl

@[simp] theorem own_owners : (s.own i o).owners j = if j = i then o else s.owners j := by
  by_cases h : j = i
  · subst h
    simp [own]
  · simp [own, h]

def deliver (s : State S T) (stage sequence : Nat) (value : Option T) (owner : Owner T) :
    State S T :=
  let log := s.delivered stage ++ [(sequence, value)]
  { s.own stage owner with delivered := Function.update s.delivered stage log }

@[simp] theorem deliver_core : (s.deliver i q v o).core = s.core := rfl

def fence (s : State S T) (reason : String) : State S T := { s with core := s.core.fence reason }

/-- Dropping what the owner holds without finishing it. -/
def abandon (s : State S T) (stage : Nat) (reason : String) : State S T :=
  (s.fence reason).own stage .idle

def reserve (s : State S T) (charge : Nat) : Except Stop (State S T) :=
  match s.core.reserve charge with
  | .error _ => .ok s
  | .ok core => .ok { s with core, reservations := charge :: s.reservations }

def advance (s : State S T) (charge : Nat) : Except Stop (State S T) :=
  if charge ∈ s.reservations then
    let reservations := s.reservations.erase charge
    match s.core.advance charge with
    | (.error _, core) => .ok { s with core, reservations }
    | (.ok claim, core) => .ok { s with
        core, reservations
        claims := claim :: s.claims
        charges := Function.update s.charges claim.sequence charge }
  else .error .disabled

def publish (s : State S T) (claim : Claim) (value : Option T) : Except Stop (State S T) :=
  if claim ∈ s.claims then .ok { s with
    core := s.core.publish claim value
    claims := s.claims.erase claim
    published := Function.update s.published claim.sequence (some value) }
  else .error .disabled

def nextUntil (s : State S T) (stage : Nat) : Except Stop (State S T) :=
  match s.owners stage with
  | .idle =>
    let next := s.core.finished stage + 1
    if s.core.failed.isSome then .ok s
    else if s.core.closed && decide (s.core.head < next) then .ok s
    else if s.core.ready stage next then do
      let value ← s.core.read next
      .ok (s.deliver stage next value (.delivery next value))
    else .ok s
  | _ => .error .disabled

def coalesce (s : State S T) (stage maxItems : Nat) : Except Stop (State S T) :=
  match s.owners stage with
  | .delivery first value =>
    if maxItems == 0 || s.core.failed.isSome then
      .ok (s.abandon stage "required delivery abandoned without completion")
    else .ok (s.own stage (.coalescing first [value] (min maxItems S.capacity)))
  | _ => .error .disabled

/-- One iteration of `coalesce`; `accepted` is the answer of `accept_next`. -/
def coalesceNext (s : State S T) (stage : Nat) (accepted : Bool) : Except Stop (State S T) :=
  match s.owners stage with
  | .coalescing first values limit =>
    let next := first + values.length
    if s.core.failed.isSome then
      .ok (s.abandon stage "required delivery abandoned without completion")
    else if decide (values.length < limit) && s.core.ready stage next then do
      let value ← s.core.read next
      if accepted then
        .ok (s.deliver stage next value (.coalescing first (values ++ [value]) limit))
      else .ok (s.own stage (.batch first values))
    else .ok (s.own stage (.batch first values))
  | _ => .error .disabled

/-- The store of `finish`: the cursor moves to the last sequence held. -/
def finishAt (s : State S T) (stage sequence : Nat) : State S T :=
  { s.own stage .idle with
    core := { s.core with finished := Function.update s.core.finished stage sequence } }

@[simp] theorem finishAt_finished :
    (s.finishAt i q).core.finished j = if j = i then q else s.core.finished j := by
  by_cases h : j = i
  · subst h
    simp [finishAt]
  · simp [finishAt, h]

@[simp] theorem finishAt_owners :
    (s.finishAt i q).owners j = if j = i then .idle else s.owners j := own_owners

@[simp] theorem finishAt_delivered : (s.finishAt i q).delivered = s.delivered := rfl

def finish (s : State S T) (stage : Nat) : Except Stop (State S T) :=
  match s.owners stage with
  | .delivery sequence _ => .ok (s.finishAt stage sequence)
  | .batch first values => .ok (s.finishAt stage (first + values.length - 1))
  | _ => .error .disabled

def reclaimSlot (s : State S T) : Except Stop (State S T) :=
  if s.core.reclaimed < s.core.minimum then do
    let core ← s.core.reclaimSlot
    .ok { s with core }
  else .error .disabled

def dropDelivery (s : State S T) (stage : Nat) : Except Stop (State S T) :=
  match s.owners stage with
  | .delivery _ _ => .ok (s.abandon stage "required delivery abandoned without completion")
  -- a panic of the caller's predicate unwinds through the delivery
  | .coalescing _ _ _ => .ok (s.abandon stage "required delivery abandoned without completion")
  | .batch _ _ => .ok (s.abandon stage "required batch abandoned without completion")
  | _ => .error .disabled

def dropStage (s : State S T) (stage : Nat) : Except Stop (State S T) :=
  match s.owners stage with
  | .idle =>
    let s' := s.own stage .dropped
    if s.core.closed && decide (s.core.head ≤ s.core.finished stage) then .ok s'
    else .ok (s'.fence "required stage abandoned before closed stream drained")
  | _ => .error .disabled

def step (s : State S T) : Action T → Except Stop (State S T)
  | .reserve charge => s.reserve charge
  | .advance charge => s.advance charge
  | .publish claim value => s.publish claim (some value)
  | .dropClaim claim => s.publish claim none
  | .nextUntil stage => if stage < S.stages then s.nextUntil stage else .error .disabled
  | .coalesce stage maxItems => s.coalesce stage maxItems
  | .coalesceNext stage accepted => s.coalesceNext stage accepted
  | .finish stage => s.finish stage
  | .reclaimSlot => s.reclaimSlot
  | .dropDelivery stage => s.dropDelivery stage
  | .dropStage stage => if stage < S.stages then s.dropStage stage else .error .disabled
  | .close => .ok { s with core := s.core.close }
  | .fence reason => .ok (s.fence reason)

end State

/-- Every interleaving of the callers' actions on a fresh ring. -/
def machine (S : Shape) (T : Type) : Machine (State S T) (Action T) :=
  .ofStep (· = State.new S T) State.step

end Varve.Flow
