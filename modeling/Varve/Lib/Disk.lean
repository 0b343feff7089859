import Mathlib.Data.List.Infix
import Mathlib.Data.List.Forall2
import Mathlib.Data.List.Nodup

/-!
# A directory of files under crashes

A file remembers what its last sync made durable, what it holds now and what it has held since that
sync.
-/

namespace Disk

structure File (β : Type u) where
  synced : List β
  content : List β
  older : List (List β)
  linked : Bool
  durable : Bool
deriving DecidableEq, Repr

inductive Op (κ : Type u) (β : Type v) where
  | create (key : κ)
  | append (key : κ) (data : List β)
  /-- Writing from the start of the file. -/
  | rewrite (key : κ) (data : List β)
  | truncate (key : κ) (length : Nat)
  | sync (key : κ)
  | unlink (key : κ)
  | syncDir
deriving DecidableEq, Repr

section
variable {κ : Type u} {β : Type v}

namespace File

/-- A file that holds what its last sync made durable. -/
def settled (data : List β) : File β := ⟨data, data, [], true, true⟩

def fresh : File β := ⟨[], [], [], true, false⟩

def replace (f : File β) (data : List β) (torn : List (List β)) : File β :=
  { f with content := data, older := torn ++ f.content :: f.older }

def append (f : File β) (data : List β) : File β := f.replace (f.content ++ data) []

def rewrite (f : File β) (data : List β) : File β :=
  let torn n := data.take n ++ f.content.drop n
  f.replace (torn data.length) ((List.range data.length).map torn)

def truncate (f : File β) (length : Nat) : File β := f.replace (f.content.take length) []

def sync (f : File β) : File β := { f with synced := f.content, older := [] }

def Survives (f : File β) (data : List β) : Prop :=
  f.synced <+: data ∧ ∃ image ∈ f.content :: f.older, data <+: image

inductive Crash (f : File β) : Option (File β) → Prop where
  | kept (h : f.linked = true ∨ f.durable = true) (hd : f.Survives data) :
      Crash f (some { f with content := data, older := [], linked := true })
  | lost (h : f.durable = false) : Crash f none
  | removed (h : f.linked = false) (hd : f.durable = true) : Crash f (some f)

end File

abbrev Dir (κ : Type u) (β : Type v) := List (κ × File β)

def modify [DecidableEq κ] (d : Dir κ β) (key : κ) (f : File β → File β) : Dir κ β :=
  d.map fun entry => if entry.1 = key then (entry.1, f entry.2) else entry

def apply [DecidableEq κ] (d : Dir κ β) : Op κ β → Dir κ β
  | .create key => d ++ [(key, .fresh)]
  | .append key data => modify d key (·.append data)
  | .rewrite key data => modify d key (·.rewrite data)
  | .truncate key length => modify d key (·.truncate length)
  | .sync key => modify d key .sync
  | .unlink key => modify d key fun f => { f with linked := false }
  | .syncDir => (d.filter (·.2.linked)).map fun entry => (entry.1, { entry.2 with durable := true })

def run [DecidableEq κ] (d : Dir κ β) (ops : List (Op κ β)) : Dir κ β := ops.foldl apply d

/-- What a reader sees: the visible entries and their contents. -/
def view (d : Dir κ β) : List (κ × List β) :=
  (d.filter (·.2.linked)).map fun entry => (entry.1, entry.2.content)

inductive Crash : Dir κ β → Dir κ β → Prop where
  | nil : Crash [] []
  | keep (hf : f.Crash (some f')) (h : Crash d d') : Crash ((key, f) :: d) ((key, f') :: d')
  | lose (hf : f.Crash none) (h : Crash d d') : Crash ((key, f) :: d) d'

namespace File

variable {f : File β} {x y data : List β}

theorem survives_settled : (settled data).Survives x ↔ x = data := by
  constructor
  · rintro ⟨hs, image, hi, hx⟩
    obtain rfl := List.mem_singleton.mp hi
    exact hx.eq_of_length_le hs.length_le
  · rintro rfl
    exact ⟨List.prefix_rfl, _, List.mem_singleton_self _, List.prefix_rfl⟩

theorem Survives.trans (h : f.Survives x)
    (hy : Survives { f with content := x, older := [], linked := true } y) : f.Survives y := by
  obtain ⟨-, image, hi, hx⟩ := h
  obtain ⟨hs, image', hi', hy⟩ := hy
  obtain rfl := List.mem_singleton.mp hi'
  exact ⟨hs, image, hi, hy.trans hx⟩

theorem Survives.of_truncate (h : (f.truncate n).Survives x) : f.Survives x := by
  obtain ⟨hs, image, hi, hx⟩ := h
  refine ⟨hs, ?_⟩
  rcases List.mem_cons.mp hi with rfl | hi
  · exact ⟨f.content, List.mem_cons_self, hx.trans (List.take_prefix _ _)⟩
  · exact ⟨image, hi, hx⟩

theorem Survives.of_append (h : (f.append data).Survives x) :
    f.Survives x ∨ f.synced <+: x ∧ x <+: f.content ++ data := by
  obtain ⟨hs, image, hi, hx⟩ := h
  rcases List.mem_cons.mp hi with rfl | hi
  · exact .inr ⟨hs, hx⟩
  · exact .inl ⟨hs, image, hi, hx⟩

theorem Survives.of_rewrite (hc : f.content <+: data) (h : (f.rewrite data).Survives x) :
    f.Survives x ∨ f.synced <+: x ∧ x <+: data := by
  have htorn (n : Nat) : data.take n ++ f.content.drop n <+: data := by
    obtain ⟨rest, rfl⟩ := hc
    rcases Nat.le_total n f.content.length with hn | hn
    · rw [List.take_append_of_le_length hn, List.take_append_drop]
      exact List.prefix_append _ _
    · rw [List.drop_eq_nil_of_le hn, List.append_nil]
      exact List.take_prefix _ _
  obtain ⟨hs, image, hi, hx⟩ := h
  rcases List.mem_cons.mp hi with rfl | hi
  · exact .inr ⟨hs, hx.trans (htorn _)⟩
  · rcases List.mem_append.mp hi with hi | hi
    · obtain ⟨n, -, rfl⟩ := List.mem_map.mp hi
      exact .inr ⟨hs, hx.trans (htorn n)⟩
    · exact .inl ⟨hs, image, hi, hx⟩

theorem content_rewrite (h : f.content <+: data) : (f.rewrite data).content = data := by
  have hdrop : f.content.drop data.length = [] := List.drop_eq_nil_of_le h.length_le
  simp [rewrite, replace, hdrop]

end File

-- Runs

section
variable [DecidableEq κ] {d : Dir κ β} {key : κ} {f : File β}

theorem run_append {ops more : List (Op κ β)} : run d (ops ++ more) = run (run d ops) more :=
  List.foldl_append

theorem run_eq_self {ops : List (Op κ β)} (h : ∀ op ∈ ops, apply d op = d) : run d ops = d := by
  induction ops with
  | nil => rfl
  | cons op ops ih =>
    show run (apply d op) ops = d
    rw [h op List.mem_cons_self, ih fun o ho => h o (List.mem_cons_of_mem _ ho)]

/-- An operation on a file leaves a directory alone if it leaves every entry of
that name alone. -/
theorem modify_eq_self {g : File β → File β} (h : ∀ e ∈ d, e.1 = key → g e.2 = e.2) :
    modify d key g = d := by
  refine (List.map_congr_left fun e he => ?_).trans (List.map_id d)
  split
  · rename_i hk
    rw [h e he hk]
    rfl
  · rfl

theorem run_eq_self_of_settled {ops : List (Op κ β)}
    (h : ∀ e ∈ d, e.2 = .settled e.2.content)
    (hops : ∀ op ∈ ops, op = .syncDir ∨ ∃ key, op = .sync key) : run d ops = d := by
  refine run_eq_self fun op hop => ?_
  rcases hops op hop with rfl | ⟨key, rfl⟩
  · have hfilter : d.filter (·.2.linked) = d := by
      refine List.filter_eq_self.mpr fun e he => ?_
      rw [h e he]
      rfl
    rw [apply, hfilter]
    refine (List.map_congr_left fun e he => ?_).trans (List.map_id d)
    have hdurable : e.2.durable = true := by rw [h e he]; rfl
    rw [← hdurable]
    rfl
  · refine modify_eq_self fun e he _ => ?_
    rw [h e he]
    rfl

theorem modify_append {g : File β → File β} :
    modify (d ++ e) key g = modify d key g ++ modify e key g :=
  List.map_append

theorem modify_concat (h : ∀ e ∈ d, e.1 ≠ key) (g : File β → File β) :
    modify (d ++ [(key, f)]) key g = d ++ [(key, g f)] := by
  rw [modify_append, modify_eq_self fun e he hk => absurd hk (h e he)]
  simp [modify]

theorem modify_middle (h : ((d ++ (key, f) :: e).map Prod.fst).Nodup) (g : File β → File β) :
    modify (d ++ (key, f) :: e) key g = d ++ (key, g f) :: e := by
  rw [List.map_append, List.map_cons, List.nodup_middle, List.nodup_cons, List.mem_append] at h
  have hmem {x : κ × File β} (hx : x ∈ d ∨ x ∈ e) : x.1 ≠ key := by
    intro hk
    rcases hx with hx | hx
    · exact h.1 (.inl (List.mem_map.mpr ⟨x, hx, hk⟩))
    · exact h.1 (.inr (List.mem_map.mpr ⟨x, hx, hk⟩))
  have hd := modify_eq_self (g := g) fun x hx hk => absurd hk (hmem (.inl hx))
  have he := modify_eq_self (g := g) fun x hx hk => absurd hk (hmem (.inr hx))
  rw [modify_append, hd]
  simp only [modify, List.map_cons, if_true] at he ⊢
  rw [he]

/-- A property of the directory before every operation and after the last. -/
def Through (P : Dir κ β → Prop) (d : Dir κ β) (ops : List (Op κ β)) : Prop :=
  ∀ n, P (run d (ops.take n))

variable {P : Dir κ β → Prop} {op : Op κ β} {ops more : List (Op κ β)}

theorem Through.mono {Q : Dir κ β → Prop} (h : Through P d ops) (hpq : ∀ d, P d → Q d) :
    Through Q d ops :=
  fun n => hpq _ (h n)

theorem through_nil : Through P d [] ↔ P d := by simp [Through, run]

theorem through_cons : Through P d (op :: ops) ↔ P d ∧ Through P (apply d op) ops := by
  constructor
  · intro h
    exact ⟨h 0, fun n => h (n + 1)⟩
  · rintro ⟨hd, h⟩ n
    cases n with
    | zero => exact hd
    | succ n => exact h n

theorem Through.append (h : Through P d ops) (hm : Through P (run d ops) more) :
    Through P d (ops ++ more) := by
  intro n
  rw [List.take_append, run_append]
  rcases Nat.le_total n ops.length with hn | hn
  · rw [Nat.sub_eq_zero_of_le hn]
    exact h n
  · rw [List.take_of_length_le hn]
    exact hm _

theorem through_of_step (hd : P d) (h : ∀ d, P d → ∀ op ∈ ops, P (apply d op)) :
    Through P d ops := by
  induction ops generalizing d with
  | nil => exact through_nil.mpr hd
  | cons op ops ih =>
    exact through_cons.mpr ⟨hd, ih (h d hd op List.mem_cons_self) fun d hd o ho =>
      h d hd o (List.mem_cons_of_mem _ ho)⟩

theorem through_of_fixed (hd : P d) (h : ∀ op ∈ ops, apply d op = d) : Through P d ops := by
  intro n
  rw [run_eq_self fun op hop => h op (List.mem_of_mem_take hop)]
  exact hd

end

section
variable {d e d' : Dir κ β}

theorem Crash.append_inv (h : Crash (d ++ e) d') :
    ∃ a b, d' = a ++ b ∧ Crash d a ∧ Crash e b := by
  induction d generalizing d' with
  | nil => exact ⟨[], d', rfl, .nil, h⟩
  | cons entry d ih =>
    cases h with
    | keep hf h =>
      obtain ⟨a, b, rfl, ha, hb⟩ := ih h
      exact ⟨_ :: a, b, rfl, .keep hf ha, hb⟩
    | lose hf h =>
      obtain ⟨a, b, rfl, ha, hb⟩ := ih h
      exact ⟨a, b, rfl, .lose hf ha, hb⟩

theorem File.crash_settled {f : File β} {o : Option (File β)} (hf : f = settled f.content)
    (h : f.Crash o) : o = some f := by
  rw [hf] at h ⊢
  cases h with
  | kept _ hd => rw [survives_settled.mp hd]; rfl
  | lost h => cases h
  | removed h => cases h

theorem Crash.refl_of_settled (hd : ∀ entry ∈ d, entry.2 = .settled entry.2.content) :
    Crash d d := by
  induction d with
  | nil => exact .nil
  | cons entry d ih =>
    obtain ⟨key, f⟩ := entry
    refine .keep ?_ (ih fun entry he => hd entry (List.mem_cons_of_mem _ he))
    have hf : f = .settled f.content := hd _ List.mem_cons_self
    rw [hf]
    exact .kept (.inl rfl) (File.survives_settled.mpr rfl)

theorem Crash.eq_of_settled (hd : ∀ entry ∈ d, entry.2 = .settled entry.2.content)
    (h : Crash d d') : d' = d := by
  induction h with
  | nil => rfl
  | keep hf _ ih =>
    have := File.crash_settled (hd _ List.mem_cons_self) hf
    cases this
    rw [ih fun entry he => hd entry (List.mem_cons_of_mem _ he)]
  | lose hf _ ih => cases File.crash_settled (hd _ List.mem_cons_self) hf

end

end

end Disk
