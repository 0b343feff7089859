import Mathlib.Data.Finset.SDiff
import Mathlib.Data.Finset.Union
import Varve.Lib.Run

/-!
# The threads of a database and its files

Which path of the engine creates, renames or deletes which file, under which of the commit, state
and disk locks and the remote gate.
-/

namespace Varve.Files

inductive Dir where
  | segments
  | cache
  | derived
  | root
  | wal
deriving DecidableEq, Repr

inductive Lock where
  | commit
  | state
  | disk
  | gate
deriving DecidableEq, Repr

section
variable (Name : Type)

abbrev File := Dir × Name

/-- A temporary file: its directory and the UUID of its name. -/
abbrev Temp := Dir × Nat

structure Root where
  segments : Finset Name
  pages : Finset Name

structure Thread where
  /-- It is counted by `readers`. -/
  pinned : Bool
  /-- It held the state lock while it was pinned. -/
  drained : Bool
  /-- The names its pins count. -/
  pins : Finset Name
  /-- Paths it has resolved under its pins. -/
  resolved : Finset (File Name)
  /-- Outputs it has renamed and neither published nor given up. -/
  staged : Finset (File Name)
  temp : Option Temp
  /-- It is inside `prepare_publication_intent`. -/
  intent : Bool
  /-- A cached file that was found without pins. -/
  victim : Option Name
  /-- It has found no readers and deletes raw files. -/
  sweeping : Bool
  /-- The segments of the root it is shipping. -/
  ship : Option (Finset Name)
  /-- It has bound the head that it shipped. -/
  bound : Bool

structure World (k : Nat) where
  files : Finset (File Name)
  temps : Finset Temp
  root : Root Name
  /-- Segments in the remote store. -/
  remote : Finset Name
  /-- Segments of the remote head. -/
  head : Finset Name
  /-- `remote_segment_ids`. -/
  remoteIds : Finset Name
  locks : Lock → Option (Fin k)
  threads : Fin k → Thread Name

inductive Action (k : Nat) where
  /-- The registration of a pin. -/
  | pin (i : Fin k) (names : Finset Name)
  /-- A deletion by `cleanup_temporaries`. -/
  | cleanup (i : Fin k)
  | other

end

variable {Name : Type} {k : Nat}

def Thread.idle : Thread Name := ⟨false, false, ∅, ∅, ∅, none, false, none, false, none, false⟩

section
variable {α β : Type} [DecidableEq α] {f : α → β} {a x : α} {b c : β}

def upd (f : α → β) (a : α) (b : β) : α → β :=
  fun x => if x = a then b else f x

@[simp] theorem upd_self : upd f a b a = b := if_pos rfl

@[simp] theorem upd_upd : upd (upd f a b) a c = upd f a c := by
  funext x
  by_cases h : x = a <;> simp [upd, h]

theorem upd_ne (h : x ≠ a) : upd f a b x = f x := if_neg h

@[grind =] theorem upd_apply : upd f a b x = if x = a then b else f x := rfl

end

/-- Deletable without readers: unreferenced raw files. -/
def Dir.Raw : Dir → Prop
  | .segments | .cache => True
  | .derived | .root | .wal => False

/-- Swept by `cleanup_temporaries`. -/
def Dir.Swept : Dir → Prop
  | .root | .wal => True
  | .segments | .cache | .derived => False

/-- The locks under which a temporary is written in a directory. -/
def Writes (w : World Name k) (i : Fin k) : Dir → Prop
  | .wal => w.locks .commit = some i
  -- the manifest, the binding and the job runtime
  | .root => w.locks .state = some i
  -- raw outputs, cold fetches and prefetches
  | .segments | .cache => w.locks .disk = some i ∧
      ((w.threads i).drained = true ∨ w.locks .state = some i)
  | .derived => w.locks .disk = some i ∧ (w.threads i).pinned = true

variable [DecidableEq Name]

/-- One thread takes a lock, reads or changes files, or changes what it holds. -/
inductive Step : World Name k → Action Name k → World Name k → Prop where
  | acquire (h : w.locks l = none) : Step w .other { w with locks := upd w.locks l (some i) }
  | release (h : w.locks l = some i) (ht : (w.threads i).temp = none)
      (hv : (w.threads i).victim = none) (hs : (w.threads i).sweeping = false)
      (hg : l = .gate → (w.threads i).ship = none)
      -- outputs left unpublished are pinned
      (hp : l = .state → ∀ f ∈ (w.threads i).staged, f.2 ∈ (w.threads i).pins ∧
        ((w.threads i).drained = true ∨ f.1 = .derived)) :
      Step w .other { w with
        locks := upd w.locks l none
        threads := (upd w.threads i { w.threads i with
          bound := (w.threads i).bound && decide (l ≠ .gate) }) }
  /-- A scan, a query, a backfill, a prefetch, a compaction or a ship takes its snapshot. -/
  | pin (h : w.locks .state = some i) (hp : (w.threads i).pinned = false)
      (hs : (w.threads i).sweeping = false) (hn : names ⊆ w.root.segments ∪ w.root.pages) :
      Step w (.pin i names) { w with
        threads := (upd w.threads i { w.threads i with
          pinned := true
          drained := true
          pins := names }) }
  /-- The pin of outputs, registered without a lock. -/
  | pinOutputs (hp : (w.threads i).pinned = false) : Step w .other { w with
      threads := (upd w.threads i { w.threads i with
        pinned := true, drained := false, pins := ∅ }) }
  /-- `write_partitioned_rows` waits for a collection that found no readers. -/
  | drain (h : w.locks .state = some i) (hp : (w.threads i).pinned = true)
      (hs : (w.threads i).sweeping = false) :
      Step w .other { w with threads := (upd w.threads i { w.threads i with drained := true }) }
  /-- `Pin::add`, under disk admission. -/
  | protect (h : w.locks .disk = some i) (hp : (w.threads i).pinned = true)
      (hv : (w.threads i).victim = none) : Step w .other { w with
        threads := (upd w.threads i { w.threads i with pins := insert x (w.threads i).pins }) }
  | unpin (ht : (w.threads i).temp = none)
      (hp : (w.threads i).staged = ∅ ∨ w.locks .state = some i) :
      Step w .other { w with
        threads := (upd w.threads i { w.threads i with
          pinned := false
          drained := false
          pins := ∅
          resolved := ∅ }) }
  | resolve (hf : f ∈ w.files) (hd : f.1.Raw) (hp : f.2 ∈ (w.threads i).pins)
      (hs : (w.threads i).drained = true) : Step w .other { w with
        threads := (upd w.threads i { w.threads i with
          resolved := insert f (w.threads i).resolved }) }
  /-- `resolve_segment_reserved` finds a cached file without pins. -/
  | choose (h : w.locks .disk = some i) (hf : (.cache, v) ∈ w.files)
      (hp : ∀ j, v ∉ (w.threads j).pins) :
      Step w .other { w with threads := (upd w.threads i { w.threads i with victim := some v }) }
  | evict (h : (w.threads i).victim = some v) : Step w .other { w with
      files := w.files.erase (.cache, v)
      threads := (upd w.threads i { w.threads i with victim := none }) }
  | create (h : Writes w i d) (ht : (w.threads i).temp = none)
      (hs : (w.threads i).sweeping = false) (hu : (d, u) ∉ w.temps) : Step w .other { w with
        temps := insert (d, u) w.temps
        threads := (upd w.threads i { w.threads i with temp := some (d, u), intent := false }) }
  /-- `prepare_publication_intent`, under disk admission only. -/
  | createIntent (h : w.locks .disk = some i) (ht : (w.threads i).temp = none)
      (hs : (w.threads i).sweeping = false) (hu : (.root, u) ∉ w.temps) : Step w .other { w with
        temps := insert (.root, u) w.temps
        threads := (upd w.threads i { w.threads i with temp := some (.root, u), intent := true }) }
  /-- A temporary renamed to a file outside this model, or given up. -/
  | finish (h : (w.threads i).temp = some x) : Step w .other { w with
      temps := w.temps.erase x
      threads := (upd w.threads i { w.threads i with temp := none, intent := false }) }
  /-- A cold fetch to the cache, or a prefetch to the segments. -/
  | fetched (h : (w.threads i).temp = some (d, u)) (hd : d.Raw) (hx : x ∈ w.remote) :
      Step w .other { w with
        files := insert (d, x) w.files
        temps := w.temps.erase (d, u)
        threads := (upd w.threads i { w.threads i with temp := none }) }
  | staged (h : (w.threads i).temp = some (d, u)) (hd : d = .segments ∨ d = .derived)
      (hx : x ∈ (w.threads i).pins) : Step w .other { w with
        files := insert (d, x) w.files
        temps := w.temps.erase (d, u)
        threads := (upd w.threads i { w.threads i with
          temp := none
          staged := insert (d, x) (w.threads i).staged }) }
  /-- An output that was there already. -/
  | restaged (h : Writes w i d) (hs : (w.threads i).sweeping = false)
      (hd : d = .segments ∨ d = .derived) (hf : (d, x) ∈ w.files)
      (hx : x ∈ (w.threads i).pins) : Step w .other { w with
        threads := (upd w.threads i { w.threads i with
          staged := insert (d, x) (w.threads i).staged }) }
  /-- The outputs of a publication are published or given up. -/
  | settle : Step w .other { w with threads := (upd w.threads i { w.threads i with staged := ∅ }) }
  /-- The manifest is renamed: the new root keeps references and adds staged outputs. -/
  | publish (hc : w.locks .commit = some i) (h : w.locks .state = some i)
      (ht : (w.threads i).temp = some (.root, u))
      (hs : ∀ x ∈ r.segments, x ∈ w.root.segments ∨ (.segments, x) ∈ (w.threads i).staged)
      (hp : ∀ x ∈ r.pages, x ∈ w.root.pages ∨ (.derived, x) ∈ (w.threads i).staged) :
      Step w .other { w with
        root := r
        temps := w.temps.erase (.root, u)
        threads := (upd w.threads i { w.threads i with temp := none, intent := false }) }
  | cleanup (hc : w.locks .commit = some i) (h : w.locks .state = some i)
      (ht : (w.threads i).temp = none) (hx : x.1.Swept) :
      Step w (.cleanup i) { w with temps := w.temps.erase x }
  /-- `gc_locked` on the derived pages. -/
  | sweepPage (h : w.locks .state = some i) (hd : w.locks .disk = some i)
      (hs : (w.threads i).staged = ∅) (hx : x ∉ w.root.pages)
      (hp : ∀ j, x ∉ (w.threads j).pins) :
      Step w .other { w with files := w.files.erase (.derived, x) }
  | sweepPageTemp (h : w.locks .state = some i) (hd : w.locks .disk = some i)
      (ht : (w.threads i).temp = none) :
      Step w .other { w with temps := w.temps.erase (.derived, u) }
  /-- `gc_locked` and `archive_locked` find `readers` to be zero. -/
  | observe (hc : w.locks .commit = some i) (h : w.locks .state = some i)
      (ht : (w.threads i).temp = none) (hs : (w.threads i).staged = ∅)
      (hr : ∀ j, (w.threads j).pinned = false) :
      Step w .other { w with threads := (upd w.threads i { w.threads i with sweeping := true }) }
  | sweepRaw (h : (w.threads i).sweeping = true) (hd : d.Raw) (hx : x ∉ w.root.segments) :
      Step w .other { w with files := w.files.erase (d, x) }
  | sweepRawTemp (h : (w.threads i).sweeping = true) (hd : d.Raw) :
      Step w .other { w with temps := w.temps.erase (d, u) }
  /-- `archive_locked`, after the head was bound. -/
  | archive (h : (w.threads i).sweeping = true) (hb : (w.threads i).bound = true)
      (hn : (w.threads i).ship = none) (hx : x ∈ w.remoteIds) :
      Step w .other { w with files := w.files.erase (.segments, x) }
  | swept : Step w .other { w with
      threads := (upd w.threads i { w.threads i with sweeping := false }) }
  /-- `cleanup_unpublished_segments`. -/
  | unpublished (h : w.locks .state = some i) (hd : w.locks .disk = some i)
      (hs : (w.threads i).staged = ∅) (hx : x ∉ w.root.segments)
      (hp : ∀ j, x ∉ (w.threads j).pins) :
      Step w .other { w with files := w.files.erase (.segments, x) }
  | capture (hg : w.locks .gate = some i) (h : w.locks .state = some i) : Step w .other { w with
      threads := (upd w.threads i { w.threads i with
        ship := some w.root.segments, bound := false }) }
  | upload (h : (w.threads i).ship = some S) (hx : x ∈ S) :
      Step w .other { w with remote := insert x w.remote }
  | swap (h : (w.threads i).ship = some S) (hS : S ⊆ w.remote) : Step w .other { w with
      head := S, threads := (upd w.threads i { w.threads i with bound := false }) }
  | bind (hg : w.locks .gate = some i) (h : w.locks .state = some i) : Step w .other { w with
      remoteIds := w.head
      threads := (upd w.threads i { w.threads i with ship := none, bound := true }) }
  | giveUp : Step w .other { w with threads := (upd w.threads i { w.threads i with ship := none }) }
  | vacuum (hg : w.locks .gate = some i) (hx : x ∉ w.head) :
      Step w .other { w with remote := w.remote.erase x }

structure Opened (w : World Name k) : Prop where
  segments : ∀ x ∈ w.root.segments, (.segments, x) ∈ w.files ∨ x ∈ w.head
  pages : ∀ x ∈ w.root.pages, (.derived, x) ∈ w.files
  head : w.head ⊆ w.remote
  locks : ∀ l, w.locks l = none
  threads : ∀ i, w.threads i = .idle

def machine (Name : Type) [DecidableEq Name] (k : Nat) :
    Machine (World Name k) (Action Name k) where
  init := Opened
  step := Step

end Varve.Files
