import Mathlib.Data.Finset.Image
import Varve.Lib.Run
import Varve.Lib.Text

/-!
# Several databases on one remote store

Shipping, archiving, vacuuming and restoring as in `tier.rs` and `policy.rs`, by any number of
processes, each step one request to the store or one change under a local lock.
-/

namespace Varve.Tier.Fleet

/-- The object keys under the five listed parts of the store. -/
inductive Key where
  | segment (id : Text)
  | manifest (digest : Text)
  | wal (name : Text)
  | page (name : Text)
  | journal (name : Text)
deriving DecidableEq, Repr

inductive LockKind where
  | restore
  | gc
deriving DecidableEq, Repr

structure Lock where
  kind : LockKind
  owner : Text
deriving DecidableEq, Repr

/-- A head document, with what its manifest refers to. -/
structure Doc where
  owner : Text
  lock : Option Lock
  checkpoint : Text
  segments : Finset Text
  pages : Finset Text
  wal : Finset Text
  journal : Finset Text
deriving DecidableEq

def Doc.closure (d : Doc) : Finset Key :=
  insert (.manifest d.checkpoint) (d.segments.image .segment ∪ d.pages.image .page ∪
    d.wal.image .wal ∪ d.journal.image .journal)

/-- What follows once the binding to a swapped head is saved. -/
inductive After where
  | ship
  | lock
  | release (finished : Bool)
  | reopen
deriving DecidableEq

inductive Job where
  | idle
  | shipping (doc : Doc) (todo : List Key)
  | swapped (token : Text) (doc : Doc) (after : After)
  /-- `maintain` has shipped and may archive. -/
  | shipped
  | vacuuming
  | deleting (keys : List Key)
  | restoring (token : Text) (doc : Doc)
deriving DecidableEq

/-- A database of one process; `files` are the segment files it has, `pages` those of its root. -/
structure Node where
  owner : Text
  token : Option Text
  bound : Option Doc
  remoteIds : Finset Text
  catalog : Finset Text
  pages : Finset Text
  pins : Finset Key
  files : Finset Text
  fenced : Bool
  job : Job
deriving DecidableEq

namespace Node

def Refers (n : Node) (id : Text) : Prop := id ∈ n.catalog ∨ .segment id ∈ n.pins

/-- `protected_segment_keys`. -/
def Protects (n : Node) : Key → Prop
  | .segment id => n.Refers id
  | .page name => name ∈ n.pages ∨ .page name ∈ n.pins
  | _ => False

/-- The state after `apply_binding`. -/
def bind (n : Node) (token : Text) (doc : Doc) : After → Node
  | .ship => { n with
      token := some token, bound := some doc, remoteIds := doc.segments, job := .shipped }
  | .lock => { n with token := some token, bound := some doc, job := .vacuuming }
  | .release finished => { n with
      token := some token, bound := some doc
      remoteIds := if finished then doc.segments else n.remoteIds
      job := .idle }
  | .reopen => { n with token := some token, bound := some doc, job := .idle }

/-- What a reopened process keeps: the intent of a swap that took effect. -/
def reopen (n : Node) : Node := { n with
  pins := ∅
  remoteIds := ∅
  job := match n.job with
    | .swapped token doc _ => .swapped token doc .reopen
    | _ => .idle }

end Node

/-- `history` holds the heads of the store, newest first. -/
structure World where
  objects : Finset Key
  history : List (Text × Doc)
  nodes : Nat → Option Node

def World.head (w : World) : Option (Text × Doc) := w.history.head?

def World.token (w : World) : Option Text := w.head.map Prod.fst

def World.set (w : World) (i : Nat) (n : Node) : World :=
  { w with nodes := Function.update w.nodes i (some n) }

def World.swap (w : World) (token : Text) (doc : Doc) : World :=
  { w with history := (token, doc) :: w.history }

def World.Fresh (w : World) (token : Text) : Prop := ∀ x ∈ w.history, x.1 ≠ token

def World.NewOwner (w : World) (owner : Text) : Prop :=
  (∀ j m, w.nodes j = some m → m.owner ≠ owner) ∧ ∀ x ∈ w.history, x.2.owner ≠ owner

/-- The head is the one the process is bound to, and its own. -/
def World.Matches (w : World) (n : Node) (doc : Doc) : Prop :=
  ∃ token, w.head = some (token, doc) ∧ n.token = some token ∧ doc.owner = n.owner

/-- Changes of a database that its remote gate does not order. -/
inductive LocalStep : Node → Node → Prop where
  /-- A checkpoint or a compaction adds a segment it has written. -/
  | add (id : Text) : LocalStep n { n with
      catalog := insert id n.catalog, files := insert id n.files }
  /-- Compaction and retention drop segments. -/
  | drop (h : c ⊆ n.catalog) : LocalStep n { n with catalog := c }
  | root (pages : Finset Text) : LocalStep n { n with pages := pages }
  /-- Readers pin what the catalog has, and a writer what it staged. -/
  | pin (h : ∀ id, .segment id ∈ keys → id ∈ n.catalog ∨ id ∈ n.files) :
      LocalStep n { n with pins := n.pins ∪ keys }
  | unpin (keys : Finset Key) : LocalStep n { n with pins := n.pins \ keys }
  | gc (id : Text) (h : ¬n.Refers id) : LocalStep n { n with files := n.files.erase id }
  | fence : LocalStep n { n with fenced := true }

inductive Step : World → Nat → World → Prop where
  | create (hi : w.nodes i = none) (ho : w.NewOwner owner) (hc : catalog ⊆ files) :
      Step w i (w.set i ⟨owner, none, none, ∅, catalog, pages, ∅, files, false, .idle⟩)
  | here (hi : w.nodes i = some n) (hl : LocalStep n n') : Step w i (w.set i n')
  | crash (hi : w.nodes i = some n) (hj : ∀ t d, n.job ≠ .restoring t d) :
      Step w i (w.set i n.reopen)
  /-- An operation under the gate ends, for whatever reason. -/
  | finish (hi : w.nodes i = some n) (hj : ∀ t d, n.job ≠ .restoring t d)
      (hs : ∀ t d a, n.job ≠ .swapped t d a) : Step w i (w.set i { n with job := .idle })
  | reconcile (hi : w.nodes i = some n) (hj : n.job = .idle) (hf : n.fenced = false)
      (ht : n.token.isSome) (hw : w.head = some (token, doc)) (ho : doc.owner = n.owner)
      (hl : doc.lock = none) :
      Step w i (w.set i
        { n with token := some token, bound := some doc, remoteIds := doc.segments })
  | ship (hi : w.nodes i = some n) (hj : n.job = .idle) (hf : n.fenced = false)
      (hm : w.head = none ∧ n.token = none ∨ ∃ old, w.Matches n old ∧ old.lock = none)
      (ho : doc.owner = n.owner) (hl : doc.lock = none) (hc : doc.segments ⊆ n.catalog)
      (hk : ∀ k ∈ doc.closure, k ∈ keys) : Step w i (w.set i { n with job := .shipping doc keys })
  /-- An immutable object is stored if it was not; a segment is read here or from the store. -/
  | put (hi : w.nodes i = some n) (hj : n.job = .shipping doc (key :: todo))
      (ha : ∀ id, key = .segment id → id ∈ n.files ∨ key ∈ w.objects) :
      Step w i ({ w with objects := insert key w.objects }.set i
        { n with job := .shipping doc todo })
  | publish (hi : w.nodes i = some n) (hj : n.job = .shipping doc []) (ht : w.token = n.token)
      (hn : w.Fresh token) :
      Step w i ((w.swap token doc).set i { n with job := .swapped token doc .ship })
  /-- Archiving follows the shipping of the same maintenance run. -/
  | archive (id : Text) (hi : w.nodes i = some n) (hj : n.job = .shipped) (hc : id ∈ n.catalog)
      (hr : id ∈ n.remoteIds) : Step w i (w.set i { n with files := n.files.erase id })
  | lock (hi : w.nodes i = some n) (hj : n.job = .idle ∨ n.job = .shipped) (hf : n.fenced = false)
      (hm : w.Matches n doc) (hl : doc.lock = none) (hn : w.Fresh token) :
      Step w i ((w.swap token { doc with lock := some ⟨.gc, n.owner⟩ }).set i
        { n with job := .swapped token { doc with lock := some ⟨.gc, n.owner⟩ } .lock })
  | resume (hi : w.nodes i = some n) (hj : n.job = .idle) (hf : n.fenced = false)
      (hm : w.Matches n doc) (hl : doc.lock = some ⟨.gc, n.owner⟩) :
      Step w i (w.set i { n with job := .vacuuming })
  /-- One page of a listing, and what is neither live nor protected of it. -/
  | list (hi : w.nodes i = some n) (hj : n.job = .vacuuming) (hf : n.fenced = false)
      (hb : n.bound = some doc) (hk : ∀ k ∈ keys, k ∉ doc.closure ∧ ¬n.Protects k) :
      Step w i (w.set i { n with job := .deleting keys })
  | delete (hi : w.nodes i = some n) (hj : n.job = .deleting (key :: keys)) :
      Step w i ({ w with objects := w.objects.erase key }.set i { n with job := .deleting keys })
  | listed (hi : w.nodes i = some n) (hj : n.job = .deleting []) :
      Step w i (w.set i { n with job := .vacuuming })
  | release (finished : Bool) (hi : w.nodes i = some n) (hj : n.job = .vacuuming)
      (hb : n.bound = some doc) (ht : w.token = n.token) (hn : w.Fresh token) :
      Step w i ((w.swap token { doc with lock := none }).set i
        { n with job := .swapped token { doc with lock := none } (.release finished) })
  | bind (hi : w.nodes i = some n) (hj : n.job = .swapped token doc after) (ha : after ≠ .reopen) :
      Step w i (w.set i (n.bind token doc after))
  /-- The intent of the swap is resolved by `load_binding` at the same document. -/
  | recover (hi : w.nodes i = some n) (hj : n.job = .swapped token doc .reopen)
      (hw : w.head = some (token', doc)) : Step w i (w.set i (n.bind token' doc .reopen))
  /-- It is not resolved: the process is fenced, or keeps its old binding. -/
  | unresolved (hi : w.nodes i = some n) (hj : n.job = .swapped token doc .reopen) (fenced : Bool) :
      Step w i (w.set i { n with job := .idle, fenced := n.fenced || fenced })
  | restoreLock (hi : w.nodes i = none) (ho : w.NewOwner owner) (hw : w.head = some (old, doc))
      (hl : doc.lock = none) (hn : w.Fresh token) :
      Step w i ((w.swap token { doc with lock := some ⟨.restore, owner⟩ }).set i
        ⟨owner, none, none, ∅, ∅, ∅, ∅, ∅, false,
          .restoring token { doc with lock := some ⟨.restore, owner⟩ }⟩)
  /-- The restored database may have written segments of its own while it opened. -/
  | restored (hi : w.nodes i = some n) (hj : n.job = .restoring token doc)
      (ht : w.token = some token) (hn : w.Fresh token') (hc : catalog ⊆ doc.segments ∪ files) :
      Step w i ((w.swap token' { doc with lock := none, owner := n.owner }).set i
        { n with
          token := some token', bound := some { doc with lock := none, owner := n.owner }
          remoteIds := catalog, catalog := catalog, pages := pages, pins := ∅, files := files
          job := .idle })
  /-- The lease is released after a restore that failed. -/
  | unrestored (hi : w.nodes i = some n) (hj : n.job = .restoring token doc)
      (ht : w.token = some token) (hn : w.Fresh token') :
      Step w i ((w.swap token' { doc with lock := none }).set i
        { n with job := .idle, fenced := true })

def Start (w : World) : Prop := w.objects = ∅ ∧ w.history = [] ∧ ∀ i, w.nodes i = none

def machine (init : World → Prop) : Machine World Nat := ⟨init, Step⟩

end Varve.Tier.Fleet
