import Mathlib.Logic.Function.Basic
import Mathlib.Data.List.Infix

/-!
# Files, directories and power loss

A file system as numbered nodes.
-/

namespace Inodes

inductive Node (ν β : Type) where
  | file (content synced : List β)
  | dir (entries synced : ν → Option Nat)

structure FileSystem (ν β : Type) where
  node : Nat → Node ν β
  /-- Nodes from here on are unused. -/
  next : Nat

variable {ν β : Type}

namespace Node

def entries : Node ν β → ν → Option Nat
  | .file _ _ => fun _ => none
  | .dir entries _ => entries

def isDir : Node ν β → Bool
  | .file _ _ => false
  | .dir _ _ => true

def sync : Node ν β → Node ν β
  | .file content _ => .file content content
  | .dir entries _ => .dir entries entries

def settle : Node ν β → Node ν β
  | .file _ synced => .file synced synced
  | .dir _ synced => .dir synced synced

/-- A file keeps its bytes, and what is synced of them is no more than before or all of them; a
directory keeps its entries. -/
inductive Grows : Node ν β → Node ν β → Prop where
  | file (h : synced' = synced ∨ synced' = content) :
      Grows (.file content synced) (.file content synced')
  | dir (h : ∀ name i, held name = some i → held' name = some i) :
      Grows (.dir held synced) (.dir held' synced')

theorem Grows.refl (n : Node ν β) : Grows n n := by
  cases n with
  | file content synced => exact .file (.inl rfl)
  | dir entries synced => exact .dir fun _ _ h => h

theorem Grows.trans {a b c : Node ν β} (h : Grows a b) (h' : Grows b c) : Grows a c := by
  cases h with
  | file hs =>
    cases h' with
    | file hs' =>
      rcases hs' with rfl | rfl
      · exact .file hs
      · exact .file (.inr rfl)
  | dir he =>
    cases h' with
    | dir he' => exact .dir fun name i hi => he' name i (he name i hi)

theorem Grows.sync (n : Node ν β) : Grows n n.sync := by
  cases n with
  | file content synced => exact .file (.inr rfl)
  | dir entries synced => exact .dir fun _ _ h => h

theorem entries_sync (n : Node ν β) : n.sync.entries = n.entries := by
  cases n <;> rfl

theorem Grows.isDir {a b : Node ν β} (h : Grows a b) : b.isDir = a.isDir := by
  cases h <;> rfl

theorem Grows.entries {a b : Node ν β} (h : Grows a b) (he : a.entries name = some i) :
    b.entries name = some i := by
  cases h with
  | file hs => cases he
  | dir hk => exact hk name i he

end Node

namespace FileSystem

def entry (fs : FileSystem ν β) (i : Nat) (name : ν) : Option Nat := (fs.node i).entries name

def lookup (fs : FileSystem ν β) : Nat → List ν → Option Nat
  | i, [] => some i
  | i, name :: path => (fs.entry i name).bind fun j => fs.lookup j path

def powerLoss (fs : FileSystem ν β) : FileSystem ν β :=
  { fs with node := fun i => (fs.node i).settle }

def set (fs : FileSystem ν β) (i : Nat) (n : Node ν β) : FileSystem ν β :=
  { fs with node := Function.update fs.node i n }

def sync (fs : FileSystem ν β) (i : Nat) : FileSystem ν β := fs.set i (fs.node i).sync

def write (fs : FileSystem ν β) (i : Nat) (data : List β) : FileSystem ν β :=
  match fs.node i with
  | .file content synced => fs.set i (.file (content ++ data) synced)
  | .dir _ _ => fs

variable [DecidableEq ν]

/-- A name of a directory is made to stand for another node, or for none. -/
def enter (fs : FileSystem ν β) (d : Nat) (name : ν) (target : Option Nat) : FileSystem ν β :=
  match fs.node d with
  | .file _ _ => fs
  | .dir entries synced => fs.set d (.dir (Function.update entries name target) synced)

def create (fs : FileSystem ν β) (d : Nat) (name : ν) (n : Node ν β) : FileSystem ν β :=
  enter ⟨Function.update fs.node fs.next n, fs.next + 1⟩ d name (some fs.next)

def unlink (fs : FileSystem ν β) (d : Nat) (name : ν) : FileSystem ν β := fs.enter d name none

def rename (fs : FileSystem ν β) (d : Nat) (old new : ν) : FileSystem ν β :=
  (fs.enter d old none).enter d new (fs.entry d old)

end FileSystem

open FileSystem

structure WellFormed (fs : FileSystem ν β) : Prop where
  closed : ∀ i name j, fs.entry i name = some j → j < fs.next
  unused : ∀ i, fs.next ≤ i → ∀ name, fs.entry i name = none

structure Grows (fs fs' : FileSystem ν β) : Prop where
  next : fs.next ≤ fs'.next
  node : ∀ i < fs.next, (fs.node i).Grows (fs'.node i)

def Unnamed (fs : FileSystem ν β) (name : ν) : Prop := ∀ i, fs.entry i name = none

variable {fs fs' fs'' : FileSystem ν β} {i j d : Nat} {path : List ν}

theorem Grows.refl (fs : FileSystem ν β) : Grows fs fs := ⟨Nat.le_refl _, fun _ _ => .refl _⟩

theorem Grows.trans (h : Grows fs fs') (h' : Grows fs' fs'') : Grows fs fs'' :=
  ⟨h.next.trans h'.next, fun i hi => (h.node i hi).trans (h'.node i (Nat.lt_of_lt_of_le hi h.next))⟩

theorem lookup_cons : fs.lookup i (name :: path) = some j ↔
    ∃ k, fs.entry i name = some k ∧ fs.lookup k path = some j := by
  rw [lookup, Option.bind_eq_some_iff]

theorem lookup_append : fs.lookup i (path ++ more) = some j ↔
    ∃ k, fs.lookup i path = some k ∧ fs.lookup k more = some j := by
  induction path generalizing i with
  | nil => simp [lookup]
  | cons name path ih =>
    rw [List.cons_append, lookup_cons]
    constructor
    · rintro ⟨k, hk, hl⟩
      obtain ⟨m, hm, hl⟩ := ih.mp hl
      exact ⟨m, lookup_cons.mpr ⟨k, hk, hm⟩, hl⟩
    · rintro ⟨m, hm, hl⟩
      obtain ⟨k, hk, hm⟩ := lookup_cons.mp hm
      exact ⟨k, hk, ih.mpr ⟨m, hm, hl⟩⟩

theorem Grows.lookup (h : Grows fs fs') (hw : WellFormed fs) (hi : i < fs.next)
    (hl : fs.lookup i path = some j) : j < fs.next ∧ fs'.lookup i path = some j := by
  induction path generalizing i with
  | nil =>
    cases hl
    exact ⟨hi, rfl⟩
  | cons name path ih =>
    obtain ⟨k, hk, hl⟩ := lookup_cons.mp hl
    obtain ⟨hj, hl'⟩ := ih (hw.closed i name k hk) hl
    exact ⟨hj, lookup_cons.mpr ⟨k, (h.node i hi).entries hk, hl'⟩⟩

theorem lookup_powerLoss (hl : fs.lookup i path = some j)
    (hs : ∀ front name rest, path = front ++ name :: rest → ∀ k, fs.lookup i front = some k →
      ∃ entries, fs.node k = .dir entries entries) : fs.powerLoss.lookup i path = some j := by
  induction path generalizing i with
  | nil => exact hl
  | cons name path ih =>
    obtain ⟨k, hk, hl⟩ := lookup_cons.mp hl
    obtain ⟨entries, hnode⟩ := hs [] name path rfl i rfl
    refine lookup_cons.mpr ⟨k, ?_, ih hl fun front name' rest heq m hm => ?_⟩
    · have hentry : fs.powerLoss.entry i name = fs.entry i name := by
        simp only [entry, powerLoss, hnode]
        rfl
      rw [hentry, hk]
    · exact hs (name :: front) name' rest (by rw [heq]; rfl) m (lookup_cons.mpr ⟨k, hk, hm⟩)

theorem entry_sync (k : Nat) (name : ν) : (fs.sync i).entry k name = fs.entry k name := by
  unfold FileSystem.sync FileSystem.set entry
  by_cases hk : k = i
  · subst hk
    simp [Node.entries_sync]
  · simp [hk]

theorem lookup_sync : (fs.sync i).lookup k path = fs.lookup k path := by
  induction path generalizing k with
  | nil => rfl
  | cons name path ih =>
    rw [lookup, lookup, entry_sync]
    congr 1
    funext j
    exact ih

theorem node_sync (fs : FileSystem ν β) (i : Nat) : (fs.sync i).node i = (fs.node i).sync := by
  simp [FileSystem.sync, FileSystem.set]

theorem node_sync_of_ne (h : k ≠ i) : (fs.sync i).node k = fs.node k := by
  simp [FileSystem.sync, FileSystem.set, h]

theorem grows_sync (fs : FileSystem ν β) (i : Nat) : Grows fs (fs.sync i) := by
  refine ⟨Nat.le_refl _, fun k _ => ?_⟩
  by_cases hk : k = i
  · subst hk
    rw [node_sync]
    exact .sync _
  · rw [node_sync_of_ne hk]
    exact .refl _

theorem WellFormed.sync (h : WellFormed fs) (i : Nat) : WellFormed (fs.sync i) :=
  ⟨fun k name j hj => h.closed k name j (entry_sync k name ▸ hj),
    fun k hk name => (entry_sync k name).trans (h.unused k hk name)⟩

theorem Unnamed.sync (h : Unnamed fs name) (i : Nat) : Unnamed (fs.sync i) name :=
  fun k => (entry_sync k name).trans (h k)

-- New nodes

variable [DecidableEq ν] {name : ν} {n : Node ν β}

/-- `fs'` is `fs` with one more node, entered in a directory under a name that was free. -/
structure Adds (fs fs' : FileSystem ν β) (d : Nat) (name : ν) (n : Node ν β) : Prop where
  next : fs'.next = fs.next + 1
  fresh : fs'.node fs.next = n
  same : ∀ i, i ≠ fs.next → i ≠ d → fs'.node i = fs.node i
  dir : ∃ entries synced, fs.node d = .dir entries synced ∧
    fs'.node d = .dir (Function.update entries name (some fs.next)) synced

theorem adds_create (hd : d < fs.next) (hdir : (fs.node d).isDir = true) :
    Adds fs (fs.create d name n) d name n := by
  cases hnode : fs.node d with
  | file content synced =>
    rw [hnode] at hdir
    cases hdir
  | dir entries synced =>
    have hne : d ≠ fs.next := hd.ne
    have hcreate : fs.create d name n = ⟨Function.update (Function.update fs.node fs.next n) d
        (.dir (Function.update entries name (some fs.next)) synced), fs.next + 1⟩ := by
      simp [create, enter, FileSystem.set, hne, hnode]
    rw [hcreate]
    refine ⟨rfl, ?_, ?_, entries, synced, hnode, ?_⟩
    · simp [hne.symm]
    · intro i hi hid
      simp [hi, hid]
    · simp

theorem Adds.set (h : Adds fs fs' d name n) (hd : d < fs.next) (n' : Node ν β) :
    Adds fs (fs'.set fs.next n') d name n' := by
  obtain ⟨entries, synced, hold, hnew⟩ := h.dir
  refine ⟨h.next, by simp [FileSystem.set], ?_, entries, synced, hold, ?_⟩
  · intro i hi hid
    simp [FileSystem.set, hi, h.same i hi hid]
  · simp [FileSystem.set, hd.ne, hnew]

theorem Adds.entry (h : Adds fs fs' d name n) (hd : d < fs.next)
    (hn : ∀ name, n.entries name = none)
    (hw : WellFormed fs) (i : Nat) (x : ν) :
    fs'.entry i x = if i = d ∧ x = name then some fs.next else fs.entry i x := by
  obtain ⟨entries, synced, hold, hnew⟩ := h.dir
  by_cases hid : i = d
  · subst hid
    by_cases hx : x = name
    · simp [FileSystem.entry, hnew, Node.entries, hx]
    · simp [FileSystem.entry, hnew, hold, Node.entries, hx]
  · rw [if_neg fun hc => hid hc.1]
    by_cases hi : i = fs.next
    · subst hi
      rw [hw.unused fs.next (Nat.le_refl _), FileSystem.entry, h.fresh, hn]
    · rw [FileSystem.entry, h.same i hi hid, FileSystem.entry]

theorem Adds.grows (h : Adds fs fs' d name n) (hfree : fs.entry d name = none) : Grows fs fs' := by
  obtain ⟨entries, synced, hold, hnew⟩ := h.dir
  refine ⟨by rw [h.next]; exact Nat.le_succ _, fun i hi => ?_⟩
  by_cases hid : i = d
  · subst hid
    rw [hold, hnew]
    refine .dir fun x j hx => ?_
    have hne : x ≠ name := by
      rintro rfl
      rw [FileSystem.entry, hold, Node.entries, hx] at hfree
      cases hfree
    rw [Function.update_of_ne hne]
    exact hx
  · rw [h.same i hi.ne hid]
    exact .refl _

theorem Adds.wellFormed (h : Adds fs fs' d name n) (hd : d < fs.next)
    (hn : ∀ name, n.entries name = none) (hw : WellFormed fs) : WellFormed fs' := by
  have hnext := h.next
  refine ⟨fun i x j hj => ?_, fun i hi x => ?_⟩
  · rw [h.entry hd hn hw] at hj
    split at hj
    · cases hj
      omega
    · have := hw.closed i x j hj
      omega
  · rw [h.entry hd hn hw, if_neg (by omega)]
    exact hw.unused i (by omega) x

theorem Adds.unnamed {other : ν} (h : Adds fs fs' d name n) (hd : d < fs.next)
    (hn : ∀ name, n.entries name = none) (hw : WellFormed fs) (hu : Unnamed fs other)
    (hne : other ≠ name) : Unnamed fs' other := by
  intro i
  rw [h.entry hd hn hw, if_neg fun hc => hne hc.2]
  exact hu i

theorem unlink_free (h : fs.entry d name = none) : fs.unlink d name = fs := by
  unfold FileSystem.unlink enter
  cases hnode : fs.node d with
  | file content synced => rfl
  | dir entries synced =>
    rw [FileSystem.entry, hnode, Node.entries] at h
    have hsame : Function.update entries name none = entries := by
      rw [← h, Function.update_eq_self]
    dsimp only
    rw [hsame, FileSystem.set, ← hnode, Function.update_eq_self]

theorem Adds.back (h : Adds fs fs' d name n) (hfree : fs.entry d name = none) :
    ∃ entries synced, fs.node d = .dir entries synced ∧
      fs'.node d = .dir (Function.update entries name (some fs.next)) synced ∧
      Function.update (Function.update entries name (some fs.next)) name none = entries := by
  obtain ⟨entries, synced, hold, hnew⟩ := h.dir
  rw [FileSystem.entry, hold, Node.entries] at hfree
  exact ⟨entries, synced, hold, hnew, by
    rw [Function.update_idem, ← hfree, Function.update_eq_self]⟩

theorem Adds.unlink (h : Adds fs fs' d name n) (hn : ∀ name, n.entries name = none)
    (hw : WellFormed fs) (hd : d < fs.next) (hfree : fs.entry d name = none) :
    Grows fs (fs'.unlink d name) ∧ WellFormed (fs'.unlink d name) := by
  obtain ⟨entries, synced, hold, hnew, hback⟩ := h.back hfree
  have hunlink : fs'.unlink d name = fs'.set d (.dir entries synced) := by
    simp [FileSystem.unlink, enter, hnew, hback]
  rw [hunlink]
  have hnext : (fs'.set d (.dir entries synced)).next = fs.next + 1 := h.next
  have hsame (i : Nat) (hi : i ≠ fs.next) :
      (fs'.set d (.dir entries synced)).node i = fs.node i := by
    by_cases hid : i = d
    · subst hid
      simp [FileSystem.set, hold]
    · simp [FileSystem.set, hid, h.same i hi hid]
  have hentry (i : Nat) (x : ν) :
      (fs'.set d (.dir entries synced)).entry i x = fs.entry i x := by
    by_cases hi : i = fs.next
    · subst hi
      rw [hw.unused fs.next (Nat.le_refl _)]
      simp [FileSystem.entry, FileSystem.set, hd.ne', h.fresh, hn]
    · rw [FileSystem.entry, hsame i hi, FileSystem.entry]
  refine ⟨⟨by omega, fun i hi => ?_⟩, fun i x j hj => ?_, fun i hi x => ?_⟩
  · rw [hsame i hi.ne]
    exact .refl _
  · rw [hentry] at hj
    have := hw.closed i x j hj
    omega
  · rw [hentry]
    exact hw.unused i (by omega) x

theorem Adds.rename {other : ν} (h : Adds fs fs' d name n) (hd : d < fs.next)
    (hfree : fs.entry d name = none) :
    Adds fs (fs'.rename d name other) d other n := by
  obtain ⟨entries, synced, hold, hnew, hback⟩ := h.back hfree
  have hentry : fs'.entry d name = some fs.next := by
    simp [FileSystem.entry, hnew, Node.entries]
  have hrename : fs'.rename d name other =
      fs'.set d (.dir (Function.update entries other (some fs.next)) synced) := by
    simp [FileSystem.rename, enter, hnew, hback, hentry, FileSystem.set]
  rw [hrename]
  refine ⟨h.next, ?_, ?_, entries, synced, hold, by simp [FileSystem.set]⟩
  · simp [FileSystem.set, hd.ne', h.fresh]
  · intro i hi hid
    simp [FileSystem.set, hid, h.same i hi hid]

end Inodes
