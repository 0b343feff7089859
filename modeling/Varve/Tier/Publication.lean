import Varve.Lib.Run
import Varve.Tier.Intent

/-!
# Publishing a remote head

`compare_and_swap_with_intent`, `save_binding` and `load_binding` of `tier.rs` (the latter as
`open_locked` calls it, after a sync of the directory), one file operation at a time.
-/

namespace Varve.Tier

open Journal (Digest)
open Result (ensure)

structure Entry (α : Type) where
  visible : Option α
  durable : Option α
deriving DecidableEq

namespace Entry

def sync (e : Entry α) : Entry α := ⟨e.visible, e.visible⟩

def Lost (e e' : Entry α) : Prop := e' = ⟨e.visible, e.visible⟩ ∨ e' = ⟨e.durable, e.durable⟩

end Entry

structure Files where
  intent : Entry Bytes
  reservation : Entry Nat
  binding : Entry Binding
deriving DecidableEq

inductive FileOp where
  | reserve (bytes : Nat)
  | writeIntent (bytes : Bytes)
  | shrink (bytes : Nat)
  /-- The reservation, filled and synced, is renamed to the binding. -/
  | bind (binding : Binding)
  | replaceBinding (binding : Binding)
  | removeIntent
  | removeReservation
  | syncDir
deriving DecidableEq

namespace Files

def apply (f : Files) : FileOp → Files
  | .reserve bytes => { f with reservation := { f.reservation with visible := some bytes } }
  | .writeIntent bytes => { f with intent := { f.intent with visible := some bytes } }
  | .shrink bytes => { f with reservation :=
      ⟨f.reservation.visible.map fun _ => bytes, f.reservation.durable.map fun _ => bytes⟩ }
  | .bind b => { f with
      reservation := { f.reservation with visible := none }
      binding := { f.binding with visible := some b } }
  | .replaceBinding b => { f with binding := { f.binding with visible := some b } }
  | .removeIntent => { f with intent := { f.intent with visible := none } }
  | .removeReservation => { f with reservation := { f.reservation with visible := none } }
  | .syncDir => ⟨f.intent.sync, f.reservation.sync, f.binding.sync⟩

def Settled (f : Files) : Prop :=
  f.intent.visible = f.intent.durable ∧ f.reservation.visible = f.reservation.durable ∧
    f.binding.visible = f.binding.durable

inductive Crash (f : Files) : Files → Prop where
  | kill : Crash f f
  | power (hi : f.intent.Lost i) (hr : f.reservation.Lost r) (hb : f.binding.Lost b) :
      Crash f ⟨i, r, b⟩

end Files

def removePendingPublication : List FileOp := [.removeIntent, .removeReservation, .syncDir]

-- Loading and saving a binding

structure Current where
  token : Text
  bytes : Bytes
deriving DecidableEq, Repr

/-- The remote part of the state of an open database. -/
structure Memory where
  binding : Option Binding
  fenced : Option String
  attached : Bool
deriving DecidableEq

def Memory.token (m : Memory) : Option Text := m.binding.map Binding.token

section
variable (J : Json) (H : Digest) (isUuid : Text → Bool)

def installBindingFromReservation (f : Files) (b : Binding) (intent : PublicationIntent) :
    Except String (List FileOp) := do
  validateToken b.token
  ensure (J.bindingLength b ≤ intent.bindingReservationBytes)
    "remote binding exceeds its physical reservation"
  match f.reservation.visible with
  | none => .error "open reserved file"
  | some length =>
    ensure (0 < length ∧ length ≤ intent.bindingReservationBytes)
      "reserved file has unexpected size"
    ensure (J.bindingLength b ≤ length) "reserved file is smaller than publication"
    .ok [.shrink (J.bindingLength b), .bind b, .syncDir]

def readBinding (loc : Local) (f : Files) : Except String (Option Binding) :=
  match f.binding.visible with
  | none => .ok none
  | some b => do
    validateToken b.token
    let head ← Head.parse J isUuid (J.head b.head)
    ensure (head.databaseId = loc.databaseId ∧ head.sequence ≤ loc.sequence)
      "remote binding does not match local recovery state"
    .ok (some ⟨b.token, head⟩)

def readIntent (f : Files) : Except String (Option PublicationIntent) :=
  match f.intent.visible with
  | none => .ok none
  | some bytes => do
    let intent ← decodeIntent J H bytes
    .ok (some intent)

/-- The first look of `load_binding` at an intent; `remote` is the head of the store, if there is
a store. -/
def checkIntent (remote : Option (Option Current)) (binding : Option Binding)
    (intent : PublicationIntent) (intended : Head) : Except String (List FileOp) :=
  match binding with
  | some existing =>
    if bindingMatchesIntent J existing intent then
      match remote with
      | none => .ok []
      | some current =>
        if current = some ⟨existing.token, intent.intendedHead⟩ then .ok removePendingPublication
        else .error "durable binding and publication intent disagree with the remote head"
    else do
      ensure (intent.expectedToken = some existing.token)
        "publication intent expected token does not match durable binding"
      ensure (intended.databaseId = existing.head.databaseId ∧
        intended.owner = existing.head.owner ∧
        existing.head.sequence ≤ intended.sequence)
        "publication intent does not advance the durable binding"
      .ok []
  | none => do
    ensure (intent.expectedToken = none) "unbound publication intent unexpectedly has a prior token"
    .ok []

/-- The second look: the operations left, the binding and the fence. -/
def resolveIntent (f : Files) (current : Option Current) (binding : Option Binding)
    (intent : PublicationIntent) (intended : Head) :
    Except String (List FileOp × Option Binding × Option String) :=
  if current.map Current.bytes = some intent.intendedHead then do
    let token := (current.map Current.token).getD []
    validateToken token
    if ∃ existing ∈ binding, existing.token = token ∧ bindingMatchesIntent J existing intent then
      .ok (removePendingPublication, binding, none)
    else do
      let ops ← installBindingFromReservation J f ⟨token, intended⟩ intent
      .ok (ops ++ removePendingPublication, some ⟨token, intended⟩, none)
  else if current.map Current.token = intent.expectedToken then
    .ok (removePendingPublication, binding, none)
  else
    .ok ([], binding, some "pending publication intent does not match the exact remote head")

/-- The operations of `save_binding`. -/
def saveBinding (f : Files) (token : Text) (head : Head) : Except String (List FileOp) := do
  match ← readIntent J H f with
  | some intent =>
    ensure (intent.intendedHead = J.head head) "publication result does not match durable intent"
    let ops ← installBindingFromReservation J f ⟨token, head⟩ intent
    .ok (ops ++ removePendingPublication)
  | none =>
    validateToken token
    .ok [.replaceBinding ⟨token, head⟩, .syncDir]

def bindingReservationBytes (head : Head) : Except String Nat := do
  let reserved := J.bindingLength ⟨[], head⟩ + maxRemoteTokenBytes * 6
  ensure (reserved ≤ Wal.maxFrameBytes) "remote binding exceeds local format limit"
  .ok reserved

/-- `prepare_publication_intent` within the disk budget. -/
def preparePublicationIntent (loc : Local) (f : Files) (m : Memory) (head : Head) :
    Except String (List FileOp) := do
  ensure (f.intent.visible = none ∧ f.reservation.visible = none)
    "pending publication intent must be reconciled before another remote CAS"
  ensure ((J.head head).length ≤ Wal.maxFrameBytes) "remote head exceeds size limit"
  let reserved ← bindingReservationBytes J head
  ensure (loc.databaseId = head.databaseId) "publication intent database identity mismatch"
  m.token.elim (.ok ()) validateToken
  let bytes ← encodeIntent J H
    { formatVersion := formatVersion
      rootDigest := loc.rootDigest
      databaseId := loc.databaseId
      owner := head.owner
      sequence := head.sequence
      expectedToken := m.token
      intendedHeadDigest := Text.toHex (H.hash (J.head head))
      intendedHead := J.head head
      bindingReservationBytes := reserved }
  .ok [.reserve reserved, .syncDir, .writeIntent bytes, .syncDir]

-- Runs

/-- Where a process is; it has file operations left to do there. -/
inductive Stage where
  | down
  | opening
  | checking (binding : Option Binding) (intent : PublicationIntent) (intended : Head)
  | resolving (m : Memory)
  | opened (m : Memory)
  | preparing (m : Memory) (head : Head)
  /-- Cleaning up after an error. -/
  | abandoning (m : Memory)
  | intended (m : Memory) (head : Head)
  /-- The swap returned an error. -/
  | unsure (m : Memory) (head : Head)
  | swapped (m : Memory) (token : Text) (head : Head)
  | saving (before m : Memory)
deriving DecidableEq

/-- `history` holds the heads of the store, newest first. `taken` is the head that the swap of the
latest intent put there, if it took effect. -/
structure Site where
  files : Files
  history : List Current
  taken : Option Current
  stage : Stage
  ops : List FileOp
deriving DecidableEq

def Site.current (w : Site) : Option Current := w.history.head?

def Memory.fence (m : Memory) (reason : String) : Memory := { m with fenced := some reason }

inductive Stage.Fails : Stage → Stage → List FileOp → Prop where
  | opening : Fails .opening .down []
  | checking : Fails (.checking b i h) .down []
  | resolving : Fails (.resolving m) .down []
  | reserve : Fails (.preparing m h) (.abandoning m) [.removeReservation]
  | write : Fails (.preparing m h) (.abandoning m) removePendingPublication
  | abandoning : Fails (.abandoning m) (.opened m) []
  | install (reason : String) : Fails (.saving m m') (.opened (m.fence reason)) []
  | clear (reason : String) : Fails (.saving m m') (.opened (m'.fence reason)) []

inductive Publish : Site → Site → Prop where
  /-- Another publisher swaps the head. -/
  | elsewhere (hc : ∀ x ∈ w.history, x.token ≠ c.token) :
      Publish w { w with history := c :: w.history }
  | crash (h : w.files.Crash f) : Publish w { w with files := f, stage := .down, ops := [] }
  | exec (h : w.ops = op :: rest) : Publish w { w with files := w.files.apply op, ops := rest }
  | ioError (h : w.ops = op :: rest) (hf : f = w.files ∨ f = w.files.apply op)
      (hs : w.stage.Fails stage ops) : Publish w { w with files := f, stage := stage, ops := ops }
  /-- `open_locked` syncs the directory before it loads the binding. -/
  | enter (hs : w.stage = .down) : Publish w { w with stage := .opening, ops := [.syncDir] }
  | load (hs : w.stage = .opening) (ho : w.ops = [])
      (hb : readBinding J isUuid loc w.files = .ok b) (hi : readIntent J H w.files = .ok none) :
      Publish w { w with
        stage := .resolving ⟨b, none, attached⟩
        ops := if w.files.reservation.visible.isSome then [.removeReservation, .syncDir] else [] }
  | check (hs : w.stage = .opening) (ho : w.ops = [])
      (hb : readBinding J isUuid loc w.files = .ok b)
      (hi : readIntent J H w.files = .ok (some i)) (hv : validateIntent J isUuid loc i = .ok h)
      (hc : checkIntent J (some w.current) b i h = .ok ops) :
      Publish w { w with stage := .checking b i h, ops := ops }
  /-- Without a store an intent stays where it is. -/
  | detached (hs : w.stage = .opening) (ho : w.ops = [])
      (hb : readBinding J isUuid loc w.files = .ok b)
      (hi : readIntent J H w.files = .ok (some i)) (hv : validateIntent J isUuid loc i = .ok h)
      (hc : checkIntent J none b i h = .ok ops) :
      Publish w { w with stage := .resolving ⟨b, none, false⟩, ops := [] }
  | resolve (hs : w.stage = .checking b i h) (ho : w.ops = [])
      (hr : resolveIntent J w.files w.current b i h = .ok (ops, b', fenced)) :
      Publish w { w with stage := .resolving ⟨b', fenced, true⟩, ops := ops }
  | opened (hs : w.stage = .resolving m) (ho : w.ops = []) :
      Publish w { w with stage := .opened m }
  | prepare (hs : w.stage = .opened m) (hf : m.fenced = none) (ha : m.attached = true)
      (hp : preparePublicationIntent J H loc w.files m head = .ok ops) :
      Publish w { w with stage := .preparing m head, ops := ops, taken := none }
  | prepared (hs : w.stage = .preparing m head) (ho : w.ops = []) :
      Publish w { w with stage := .intended m head }
  | abandoned (hs : w.stage = .abandoning m) (ho : w.ops = []) :
      Publish w { w with stage := .opened m }
  /-- The swap takes effect, and its answer arrives or not. -/
  | swap (token : Text) (reason : String) (hs : w.stage = .intended m head)
      (he : w.current.map Current.token = m.token) (hc : ∀ x ∈ w.history, x.token ≠ token)
      (ha : stage = .swapped m token head ∧ validateToken token = .ok () ∨
        stage = .opened (m.fence reason) ∨ stage = .unsure m head) :
      Publish w { w with
        history := ⟨token, J.head head⟩ :: w.history
        taken := some ⟨token, J.head head⟩
        stage := stage }
  | swapError (hs : w.stage = .intended m head) : Publish w { w with stage := .unsure m head }
  | committed (hs : w.stage = .unsure m head) (hc : w.current = some ⟨token, J.head head⟩)
      (ht : validateToken token = .ok ()) :
      Publish w { w with stage := .swapped m token head }
  | rejected (hs : w.stage = .unsure m head) (hn : w.current.map Current.bytes ≠ some (J.head head))
      (hu : w.current.map Current.token = m.token) :
      Publish w { w with stage := .abandoning m, ops := removePendingPublication }
  | ambiguous (reason : String) (hs : w.stage = .unsure m head) :
      Publish w { w with stage := .opened (m.fence reason) }
  | save (hs : w.stage = .swapped m token head)
      (hv : saveBinding J H w.files token head = .ok ops) :
      Publish w { w with stage := .saving m { m with binding := some ⟨token, head⟩ }, ops := ops }
  | unsaved (hs : w.stage = .swapped m token head) :
      Publish w { w with stage := .opened { m with fenced := fenced } }
  | saved (hs : w.stage = .saving m m') (ho : w.ops = []) :
      Publish w { w with stage := .opened m' }

def Site.Held (w : Site) (b : Binding) : Prop := ⟨b.token, J.head b.head⟩ ∈ w.history

/-- A process that is down, with a settled directory that holds no intent, bound or not. -/
def Site.Start (w : Site) : Prop :=
  w.stage = .down ∧ w.ops = [] ∧ w.taken = none ∧ (w.history.map Current.token).Nodup ∧
    w.files.Settled ∧ w.files.intent.visible = none ∧
    ∀ b, w.files.binding.visible = some b → w.Held J b

def publication : Machine Site Unit := ⟨Site.Start J, fun w _ w' => Publish J H isUuid w w'⟩

end

end Varve.Tier
