import Varve.Files.Threads

/-!
# Local reclamation

What the threads' locks, pins and the reader counter keep from deletion, along every run.
-/

namespace Varve.Files

variable {Name : Type} {k : Nat} {w w' : World Name k} {a : Action Name k} {i : Fin k}

structure Kept (w : World Name k) : Prop where
  segments : ∀ x ∈ w.root.segments,
    (.segments, x) ∈ w.files ∨ (.cache, x) ∈ w.files ∨ x ∈ w.remote
  pages : ∀ x ∈ w.root.pages, (.derived, x) ∈ w.files
  resolved : ∀ i, ∀ f ∈ (w.threads i).resolved, f ∈ w.files
  staged : ∀ i, ∀ f ∈ (w.threads i).staged, f ∈ w.files
  temps : ∀ i x, (w.threads i).temp = some x → x ∈ w.temps

/-- Pins are not registered between the check and the deletion of an eviction, and temporaries
are not cleaned up inside a `prepare_publication_intent`. -/
def Apart (w : World Name k) : Action Name k → Prop
  | .pin _ names => ∀ j v, (w.threads j).victim = some v → v ∉ names
  | .cleanup _ => ∀ j, (w.threads j).intent = false
  | .other => True

structure Holds (w : World Name k) (i : Fin k) (t : Thread Name) : Prop where
  resolved : ∀ f ∈ t.resolved, f ∈ w.files ∧ f.2 ∈ t.pins ∧ t.drained = true
  staged : ∀ f ∈ t.staged, f ∈ w.files ∧ (f.1 = .segments ∨ f.1 = .derived) ∧
    (f.2 ∈ t.pins ∧ (t.drained = true ∨ f.1 = .derived) ∨ w.locks .state = some i)
  temps : ∀ x, t.temp = some x → x ∈ w.temps
  raw : ∀ x, t.temp = some x → x.1.Raw → t.drained = true ∨ w.locks .state = some i
  derived : ∀ x, t.temp = some x → x.1 = .derived → w.locks .disk = some i
  swept : ∀ x, t.temp = some x → x.1.Swept →
    w.locks .commit = some i ∨ w.locks .state = some i ∨ t.intent = true
  victim : t.victim ≠ none → w.locks .disk = some i
  sweeping : t.sweeping = true → w.locks .state = some i ∧ w.locks .commit = some i ∧
    t.temp = none ∧ t.staged = ∅
  ship : ∀ S, t.ship = some S → w.locks .gate = some i ∧
    ∀ x ∈ w.root.segments, (.segments, x) ∈ w.files ∨ x ∈ S
  bound : t.bound = true → w.locks .gate = some i ∧ ∀ x ∈ w.remoteIds, x ∈ w.head
  unpinned : t.pinned = false → t.drained = false ∧ t.pins = ∅

structure Inv (w : World Name k) : Prop where
  segments : ∀ x ∈ w.root.segments, (.segments, x) ∈ w.files ∨ x ∈ w.head
  pages : ∀ x ∈ w.root.pages, (.derived, x) ∈ w.files
  head : ∀ x ∈ w.head, x ∈ w.remote
  thread : ∀ i, Holds w i (w.threads i)
  unique : ∀ i j x, (w.threads i).temp = some x → (w.threads j).temp = some x → i = j
  victim : ∀ i v, (w.threads i).victim = some v → ∀ j, v ∉ (w.threads j).pins
  sweeping : ∀ i, (w.threads i).sweeping = true → ∀ j, (w.threads j).drained = false

theorem Inv.kept (h : Inv w) : Kept w where
  segments x hx := (h.segments x hx).imp_right fun hh => .inr (h.head x hh)
  pages := h.pages
  resolved i f hf := ((h.thread i).resolved f hf).1
  staged i f hf := ((h.thread i).staged f hf).1
  temps i := (h.thread i).temps

theorem inv_opened (h : Opened w) : Inv w where
  segments := h.segments
  pages := h.pages
  head _ hx := h.head hx
  thread i := by
    rw [h.threads i]
    constructor <;> simp [Thread.idle]
  unique i j x hx := by simp [h.threads, Thread.idle] at hx
  victim i v hv := by simp [h.threads, Thread.idle] at hv
  sweeping i hs := by simp [h.threads, Thread.idle] at hs

theorem Holds.threads {threads : Fin k → Thread Name} (h : Holds w i t) :
    Holds { w with threads := threads } i t :=
  ⟨h.1, h.2, h.3, h.4, h.5, h.6, h.7, h.8, h.9, h.10, h.11⟩

theorem Inv.set (h : Inv w) (ht : Holds w i t)
    (htemp : ∀ j x, j ≠ i → (w.threads j).temp = some x → t.temp ≠ some x)
    (hvictim : ∀ v, t.victim = some v → v ∉ t.pins ∧ ∀ j, j ≠ i → v ∉ (w.threads j).pins)
    (hpins : ∀ j v, j ≠ i → (w.threads j).victim = some v → v ∉ t.pins)
    (hsweep : t.sweeping = true → t.drained = false ∧ ∀ j, j ≠ i → (w.threads j).drained = false)
    (hdrain : ∀ j, j ≠ i → (w.threads j).sweeping = true → t.drained = false) :
    Inv { w with threads := upd w.threads i t } := by
  refine { h with thread := ?_, unique := ?_, victim := ?_, sweeping := ?_ }
  · intro j
    by_cases hji : j = i
    · subst hji
      simpa only [upd_self] using ht.threads
    · simpa only [upd_ne hji] using (h.thread j).threads
  · have hu := h.unique
    grind
  · have hv := h.victim
    grind
  · have hs := h.sweeping
    grind

theorem Inv.shrink (h : Inv w) (ht : Holds w i t) (hpins : t.pins ⊆ (w.threads i).pins)
    (hdrain : t.drained = true → (w.threads i).drained = true)
    (htemp : t.temp = none ∨ t.temp = (w.threads i).temp)
    (hvictim : t.victim = none ∨ t.victim = (w.threads i).victim)
    (hsweep : t.sweeping = true → (w.threads i).sweeping = true) :
    Inv { w with threads := upd w.threads i t } := by
  have hu := h.unique
  have hv := h.victim
  have hs := h.sweeping
  refine h.set ht ?_ ?_ ?_ ?_ ?_ <;> grind

-- Files

theorem Inv.deleteTemp (h : Inv w) {x : Temp} (hx : ∀ i, (w.threads i).temp ≠ some x) :
    Inv { w with temps := w.temps.erase x } where
  __ := h
  thread i := { h.thread i with
    temps := fun y hy => Finset.mem_erase.mpr ⟨fun he => hx i (he ▸ hy), (h.thread i).temps y hy⟩ }

theorem Inv.dropTemp (h : Inv w) (hx : (w.threads i).temp = some x) (b : Bool) :
    Inv { w with
      temps := w.temps.erase x
      threads := upd w.threads i { w.threads i with temp := none, intent := b } } := by
  have ht := h.thread i
  have hi : Inv { w with
      threads := upd w.threads i { w.threads i with temp := none, intent := b } } :=
    h.shrink { ht with
      temps := nofun, raw := nofun, derived := nofun, swept := nofun
      sweeping := fun hs => by simp [(ht.sweeping hs).2.2.1] at hx }
      (Finset.Subset.refl _) id (.inl rfl) (.inr rfl) id
  refine hi.deleteTemp fun j => ?_
  have hu := h.unique
  grind

theorem Inv.quiet (h : Inv w) (hs : (w.threads i).sweeping = true) (j : Fin k) :
    (w.threads j).resolved = ∅ ∧ (∀ f ∈ (w.threads j).staged, f.1 = .derived) ∧
    ∀ x, (w.threads j).temp = some x → ¬x.1.Raw := by
  obtain ⟨hl, -, ht, hst⟩ := (h.thread i).sweeping hs
  have hd := h.sweeping i hs j
  refine ⟨?_, fun f hf => ?_, fun x hx hr => ?_⟩
  · refine Finset.eq_empty_of_forall_notMem fun f hf => ?_
    cases ((h.thread j).resolved f hf).2.2.symm.trans hd
  · rcases ((h.thread j).staged f hf).2.2 with ⟨-, hp | hp⟩ | hj
    · cases hp.symm.trans hd
    · exact hp
    · cases hl.symm.trans hj
      rw [hst] at hf
      cases hf
  · rcases (h.thread j).raw x hx hr with hp | hj
    · cases hp.symm.trans hd
    · cases hl.symm.trans hj
      cases ht.symm.trans hx

theorem Inv.unpinned (h : Inv w) (hl : w.locks .state = some i) (hs : (w.threads i).staged = ∅)
    (hp : ∀ j, x ∉ (w.threads j).pins) (d : Dir) (j : Fin k) :
    (d, x) ∉ (w.threads j).resolved ∧ (d, x) ∉ (w.threads j).staged := by
  refine ⟨fun hf => hp j ((h.thread j).resolved _ hf).2.1, fun hf => ?_⟩
  rcases ((h.thread j).staged _ hf).2.2 with ⟨hj, -⟩ | hj
  · exact hp j hj
  · cases hl.symm.trans hj
    rw [hs] at hf
    cases hf

theorem inv_cleanup (h : Inv w) (hc : w.locks .commit = some i) (hl : w.locks .state = some i)
    (ht : (w.threads i).temp = none) (hx : x.1.Swept) (ha : ∀ j, (w.threads j).intent = false) :
    Inv { w with temps := w.temps.erase x } := by
  refine h.deleteTemp fun j hj => ?_
  rcases (h.thread j).swept x hj hx with hi | hi | hi
  · cases hc.symm.trans hi
    cases ht.symm.trans hj
  · cases hl.symm.trans hi
    cases ht.symm.trans hj
  · cases hi.symm.trans (ha j)

theorem inv_sweepPageTemp (h : Inv w) (hd : w.locks .disk = some i)
    (ht : (w.threads i).temp = none) : Inv { w with temps := w.temps.erase (.derived, u) } := by
  refine h.deleteTemp fun j hj => ?_
  cases hd.symm.trans ((h.thread j).derived _ hj rfl)
  cases ht.symm.trans hj

variable [DecidableEq Name]

theorem Inv.create (h : Inv w) (f : File Name) : Inv { w with files := insert f w.files } := by
  have hf : ∀ {g}, g ∈ w.files → g ∈ insert f w.files := Finset.mem_insert_of_mem
  refine { h with
    segments := fun x hx => (h.segments x hx).imp_left hf
    pages := fun x hx => hf (h.pages x hx)
    thread := fun i => { h.thread i with
      resolved := fun g hg => ((h.thread i).resolved g hg).imp_left hf
      staged := fun g hg => ((h.thread i).staged g hg).imp_left hf
      ship := fun S hS => ((h.thread i).ship S hS).imp_right fun hx x hr =>
        (hx x hr).imp_left hf } }

theorem Inv.delete (h : Inv w) {f : File Name} (hp : f.1 = .derived → f.2 ∉ w.root.pages)
    (hs : f.1 = .segments → f.2 ∈ w.root.segments →
      f.2 ∈ w.head ∧ ∀ i S, (w.threads i).ship = some S → f.2 ∈ S)
    (hr : ∀ i, f ∉ (w.threads i).resolved) (ho : ∀ i, f ∉ (w.threads i).staged) :
    Inv { w with files := w.files.erase f } := by
  have hfile : ∀ g : File Name, g ≠ f → g ∈ w.files → g ∈ w.files.erase f :=
    fun g hg hm => Finset.mem_erase.mpr ⟨hg, hm⟩
  refine { h with segments := ?_, pages := ?_, thread := fun i => { h.thread i with
    resolved := ?_, staged := ?_, ship := ?_ } }
  · intro x hx
    by_cases hf : (.segments, x) = f
    · subst hf
      exact .inr (hs rfl hx).1
    · exact (h.segments x hx).imp_left (hfile _ hf)
  · intro x hx
    refine hfile _ ?_ (h.pages x hx)
    rintro rfl
    exact hp rfl hx
  · intro g hg
    exact ((h.thread i).resolved g hg).imp_left (hfile g fun he => hr i (he ▸ hg))
  · intro g hg
    exact ((h.thread i).staged g hg).imp_left (hfile g fun he => ho i (he ▸ hg))
  · intro S hS
    refine ((h.thread i).ship S hS).imp_right fun hx x hm => ?_
    by_cases hf : (.segments, x) = f
    · subst hf
      exact .inr ((hs rfl hm).2 i S hS)
    · exact (hx x hm).imp_left (hfile _ hf)

theorem inv_sweepRaw (h : Inv w) (hs : (w.threads i).sweeping = true) (hd : d.Raw)
    (hx : x ∉ w.root.segments) : Inv { w with files := w.files.erase (d, x) } := by
  refine h.delete (f := (d, x)) ?_ (fun _ hm => absurd hm hx) (fun j hf => ?_) fun j hf => ?_
  · rintro rfl
    exact hd.elim
  · rw [(h.quiet hs j).1] at hf
    cases hf
  · cases (h.quiet hs j).2.1 _ hf
    exact hd

theorem inv_archive (h : Inv w) (hs : (w.threads i).sweeping = true)
    (hb : (w.threads i).bound = true) (hn : (w.threads i).ship = none) (hx : x ∈ w.remoteIds) :
    Inv { w with files := w.files.erase (.segments, x) } := by
  obtain ⟨hg, hids⟩ := (h.thread i).bound hb
  refine h.delete (f := (.segments, x)) nofun (fun _ _ => ⟨hids x hx, fun j S hS => ?_⟩)
    (fun j hf => ?_) fun j hf => ?_
  · cases hg.symm.trans ((h.thread j).ship S hS).1
    cases hn.symm.trans hS
  · rw [(h.quiet hs j).1] at hf
    cases hf
  · cases (h.quiet hs j).2.1 _ hf

theorem inv_sweepPage (h : Inv w) (hl : w.locks .state = some i) (hs : (w.threads i).staged = ∅)
    (hx : x ∉ w.root.pages) (hp : ∀ j, x ∉ (w.threads j).pins) :
    Inv { w with files := w.files.erase (.derived, x) } :=
  h.delete (f := (.derived, x)) (fun _ => hx) nofun (fun j => (h.unpinned hl hs hp _ j).1)
    fun j => (h.unpinned hl hs hp _ j).2

theorem inv_unpublished (h : Inv w) (hl : w.locks .state = some i) (hs : (w.threads i).staged = ∅)
    (hx : x ∉ w.root.segments) (hp : ∀ j, x ∉ (w.threads j).pins) :
    Inv { w with files := w.files.erase (.segments, x) } :=
  h.delete (f := (.segments, x)) nofun (fun _ hm => absurd hm hx)
    (fun j => (h.unpinned hl hs hp _ j).1) fun j => (h.unpinned hl hs hp _ j).2

theorem inv_evict (h : Inv w) (hv : (w.threads i).victim = some v) :
    Inv { w with files := w.files.erase (.cache, v) } := by
  refine h.delete (f := (.cache, v)) nofun nofun (fun j hf => ?_) fun j hf => ?_
  · exact h.victim i v hv j ((h.thread j).resolved _ hf).2.1
  · rcases ((h.thread j).staged _ hf).2.1 with hd | hd <;> cases hd

-- Locks and pins

section
omit [DecidableEq Name]

theorem Holds.locks {locks : Lock → Option (Fin k)} (h : Holds w i t)
    (hl : ∀ l, w.locks l = some i → locks l = some i) : Holds { w with locks := locks } i t where
  resolved := h.resolved
  staged f hf := (h.staged f hf).imp_right (And.imp_right (Or.imp_right (hl _)))
  temps := h.temps
  raw x hx hd := (h.raw x hx hd).imp_right (hl _)
  derived x hx hd := hl _ (h.derived x hx hd)
  swept x hx hd := (h.swept x hx hd).imp (hl _) (Or.imp_left (hl _))
  victim hv := hl _ (h.victim hv)
  sweeping hs := (h.sweeping hs).imp (hl _) (And.imp_left (hl _))
  ship S hS := (h.ship S hS).imp_left (hl _)
  bound hb := (h.bound hb).imp_left (hl _)
  unpinned := h.unpinned

theorem inv_acquire (h : Inv w) (hl : w.locks l = none) :
    Inv { w with locks := upd w.locks l (some i) } where
  __ := h
  thread j := (h.thread j).locks fun m hm => by
    have hne : m ≠ l := by
      rintro rfl
      cases hl.symm.trans hm
    exact (if_neg hne).trans hm

theorem inv_release (h : Inv w) (hl : w.locks l = some i) (ht : (w.threads i).temp = none)
    (hv : (w.threads i).victim = none) (hs : (w.threads i).sweeping = false)
    (hg : l = .gate → (w.threads i).ship = none)
    (hp : l = .state → ∀ f ∈ (w.threads i).staged, f.2 ∈ (w.threads i).pins ∧
      ((w.threads i).drained = true ∨ f.1 = .derived)) :
    Inv { w with
      locks := upd w.locks l none
      threads := (upd w.threads i
        { w.threads i with bound := (w.threads i).bound && decide (l ≠ .gate) }) } := by
  have hi := h.thread i
  have hlock : ∀ m, m ≠ l → upd w.locks l none m = w.locks m := fun m hm => upd_ne hm
  have hb : Inv { w with threads := (upd w.threads i
      { w.threads i with bound := (w.threads i).bound && decide (l ≠ .gate) }) } :=
    h.shrink { hi with bound := fun hb => hi.bound (Bool.and_eq_true_iff.mp hb).1 }
      (Finset.Subset.refl _) id (.inr rfl) (.inr rfl) id
  have hown : Holds { w with locks := upd w.locks l none } i
      { w.threads i with bound := (w.threads i).bound && decide (l ≠ .gate) } := {
    resolved := hi.resolved
    staged := fun f hf => by
      obtain ⟨hm, hd, hpin⟩ := hi.staged f hf
      by_cases hls : l = .state
      · exact ⟨hm, hd, .inl (hp hls f hf)⟩
      · exact ⟨hm, hd, hpin.imp_right (hlock _ (Ne.symm hls)).trans⟩
    temps := by simp [ht]
    raw := by simp [ht]
    derived := by simp [ht]
    swept := by simp [ht]
    victim := by simp [hv]
    sweeping := by simp [hs]
    ship := fun S hS => by
      have hne : .gate ≠ l := fun he => by cases (hg he.symm).symm.trans hS
      exact (hi.ship S hS).imp_left (hlock _ hne).trans
    bound := fun hb => by
      simp only [Bool.and_eq_true, decide_eq_true_eq] at hb
      exact (hi.bound hb.1).imp_left (hlock _ (Ne.symm hb.2)).trans
    unpinned := hi.unpinned }
  refine { hb with thread := fun j => ?_ }
  by_cases hj : j = i
  · subst hj
    simpa only [upd_self] using hown.threads
  · refine (hb.thread j).locks fun m hm => ?_
    have hne : m ≠ l := by
      rintro rfl
      exact hj (Option.some_injective _ (hm.symm.trans hl))
    exact (hlock m hne).trans hm

theorem Inv.noSweeper (h : Inv w) (hl : w.locks .state = some i) (hj : j ≠ i) :
    (w.threads j).sweeping = false := by
  refine Bool.eq_false_iff.mpr fun hs => hj ?_
  exact Option.some_injective _ (((h.thread j).sweeping hs).1.symm.trans hl)

theorem inv_pin (h : Inv w) (hl : w.locks .state = some i) (hp : (w.threads i).pinned = false)
    (hs : (w.threads i).sweeping = false)
    (ha : ∀ j v, (w.threads j).victim = some v → v ∉ names) :
    Inv { w with threads := (upd w.threads i
      { w.threads i with pinned := true, drained := true, pins := names }) } := by
  have hi := h.thread i
  obtain ⟨hd, he⟩ := hi.unpinned hp
  have hr : ∀ f, f ∉ (w.threads i).resolved := fun f hf => by
    cases (hi.resolved f hf).2.2.symm.trans hd
  refine h.set { hi with
      resolved := fun f hf => absurd hf (hr f)
      staged := fun f hf => ⟨(hi.staged f hf).1, (hi.staged f hf).2.1, .inr hl⟩
      raw := fun x hx hd => .inr hl
      unpinned := nofun } ?_ ?_ ?_ ?_ ?_
  · exact fun j x hj hx hi => hj (h.unique j i x hx hi)
  · exact fun v hv => ⟨ha i v hv, fun j _ => h.victim i v hv j⟩
  · exact fun j v _ hv => ha j v hv
  · exact fun hs' => by cases hs.symm.trans hs'
  · exact fun j hj hs' => by cases (h.noSweeper hl hj).symm.trans hs'

theorem inv_pinOutputs (h : Inv w) (hp : (w.threads i).pinned = false) :
    Inv { w with threads := (upd w.threads i
      { w.threads i with pinned := true, drained := false, pins := ∅ }) } := by
  have hi := h.thread i
  obtain ⟨hd, he⟩ := hi.unpinned hp
  refine h.shrink { hi with
      resolved := fun f hf => ?_, staged := fun f hf => ?_, raw := fun x hx hr => ?_
      unpinned := nofun } (Finset.empty_subset _) nofun (.inr rfl) (.inr rfl) id
  · cases (hi.resolved f hf).2.2.symm.trans hd
  · obtain ⟨hm, hdir, hp | hl⟩ := hi.staged f hf
    · rw [he] at hp
      cases hp.1
    · exact ⟨hm, hdir, .inr hl⟩
  · exact .inr ((hi.raw x hx hr).resolve_left (by simp [hd]))

theorem inv_choose (h : Inv w) (hl : w.locks .disk = some i) (hp : ∀ j, v ∉ (w.threads j).pins) :
    Inv { w with threads := upd w.threads i { w.threads i with victim := some v } } := by
  refine h.set { h.thread i with victim := fun _ => hl } ?_ ?_ ?_ ?_ ?_
  · exact fun j x hj hx hi => hj (h.unique j i x hx hi)
  · rintro _ ⟨⟩
    exact ⟨hp i, fun j _ => hp j⟩
  · exact fun j v _ hv => h.victim j v hv i
  · exact fun hs => ⟨h.sweeping i hs i, fun j _ => h.sweeping i hs j⟩
  · exact fun j _ hs => h.sweeping j hs i

theorem inv_observe (h : Inv w) (hc : w.locks .commit = some i) (hl : w.locks .state = some i)
    (ht : (w.threads i).temp = none) (hs : (w.threads i).staged = ∅)
    (hr : ∀ j, (w.threads j).pinned = false) :
    Inv { w with threads := upd w.threads i { w.threads i with sweeping := true } } := by
  have hd : ∀ j, (w.threads j).drained = false := fun j => ((h.thread j).unpinned (hr j)).1
  refine h.set { h.thread i with sweeping := fun _ => ⟨hl, hc, ht, hs⟩ } ?_ ?_ ?_ ?_ ?_
  · exact fun j x hj hx hi => hj (h.unique j i x hx hi)
  · exact fun v hv => ⟨h.victim i v hv i, fun j _ => h.victim i v hv j⟩
  · exact fun j v _ hv => h.victim j v hv i
  · exact fun _ => ⟨hd i, fun j _ => hd j⟩
  · exact fun _ _ _ => hd i

theorem inv_drain (h : Inv w) (hl : w.locks .state = some i) (hp : (w.threads i).pinned = true)
    (hs : (w.threads i).sweeping = false) :
    Inv { w with threads := upd w.threads i { w.threads i with drained := true } } := by
  have hi := h.thread i
  refine h.set { hi with
      resolved := fun f hf => ⟨(hi.resolved f hf).1, (hi.resolved f hf).2.1, rfl⟩
      staged := fun f hf => ⟨(hi.staged f hf).1, (hi.staged f hf).2.1, .inr hl⟩
      raw := fun x hx hd => .inl rfl
      unpinned := fun hf => by cases hp.symm.trans hf } ?_ ?_ ?_ ?_ ?_
  · exact fun j x hj hx hi => hj (h.unique j i x hx hi)
  · exact fun v hv => ⟨h.victim i v hv i, fun j _ => h.victim i v hv j⟩
  · exact fun j v _ hv => h.victim j v hv i
  · exact fun hs' => by cases hs.symm.trans hs'
  · exact fun j hj hs' => by cases (h.noSweeper hl hj).symm.trans hs'

end

theorem inv_protect (h : Inv w) (hl : w.locks .disk = some i) (hp : (w.threads i).pinned = true)
    (hv : (w.threads i).victim = none) :
    Inv { w with
      threads := upd w.threads i { w.threads i with pins := insert x (w.threads i).pins } } := by
  have hi := h.thread i
  refine h.set { hi with
      resolved := fun f hf => ⟨(hi.resolved f hf).1,
        Finset.mem_insert_of_mem (hi.resolved f hf).2.1,
        (hi.resolved f hf).2.2⟩
      staged := fun f hf => ⟨(hi.staged f hf).1, (hi.staged f hf).2.1,
        (hi.staged f hf).2.2.imp_left (And.imp_left Finset.mem_insert_of_mem)⟩
      unpinned := fun hf => by cases hp.symm.trans hf } ?_ ?_ ?_ ?_ ?_
  · exact fun j x hj hx hi => hj (h.unique j i x hx hi)
  · exact fun v hv' => by cases hv.symm.trans hv'
  · intro j v hj hv'
    have hd := (h.thread j).victim (by simp [hv'])
    exact absurd (Option.some_injective _ (hd.symm.trans hl)) hj
  · exact fun hs => ⟨h.sweeping i hs i, fun j _ => h.sweeping i hs j⟩
  · exact fun j _ hs => h.sweeping j hs i

omit [DecidableEq Name] in
theorem inv_unpin (h : Inv w) (ht : (w.threads i).temp = none)
    (hp : (w.threads i).staged = ∅ ∨ w.locks .state = some i) :
    Inv { w with threads := (upd w.threads i
      { w.threads i with pinned := false, drained := false, pins := ∅, resolved := ∅ }) } := by
  have hi := h.thread i
  refine h.shrink { hi with
      resolved := by simp
      staged := fun f hf => ⟨(hi.staged f hf).1, (hi.staged f hf).2.1, .inr ?_⟩
      raw := by simp [ht]
      unpinned := fun _ => ⟨rfl, rfl⟩ } (Finset.empty_subset _) nofun (.inr rfl) (.inr rfl) id
  rcases hp with he | hl
  · rw [he] at hf
    cases hf
  · exact hl

theorem inv_resolve (h : Inv w) (hf : f ∈ w.files) (hp : f.2 ∈ (w.threads i).pins)
    (hd : (w.threads i).drained = true) :
    Inv { w with threads := (upd w.threads i
      { w.threads i with resolved := insert f (w.threads i).resolved }) } := by
  have hi := h.thread i
  refine h.shrink { hi with resolved := fun g hg => ?_ } (Finset.Subset.refl _) id (.inr rfl)
    (.inr rfl) id
  rcases Finset.mem_insert.mp hg with rfl | hg
  · exact ⟨hf, hp, hd⟩
  · exact hi.resolved g hg

-- Temporaries and outputs

omit [DecidableEq Name] in
theorem inv_temp (h : Inv w) {x : Temp} (hx : x ∉ w.temps) (hs : (w.threads i).sweeping = false)
    (hraw : x.1.Raw → (w.threads i).drained = true ∨ w.locks .state = some i)
    (hder : x.1 = .derived → w.locks .disk = some i)
    (hswept : x.1.Swept → w.locks .commit = some i ∨ w.locks .state = some i ∨ b = true) :
    Inv { w with
      temps := insert x w.temps
      threads := (upd w.threads i { w.threads i with temp := some x, intent := b }) } := by
  have hi := h.thread i
  have hw : Inv { w with temps := insert x w.temps } :=
    { h with thread := fun j => { h.thread j with
        temps := fun y hy => Finset.mem_insert_of_mem ((h.thread j).temps y hy) } }
  refine hw.set { hw.thread i with
      temps := fun y hy => by cases hy; exact Finset.mem_insert_self _ _
      raw := fun y hy => by cases hy; exact hraw
      derived := fun y hy => by cases hy; exact hder
      swept := fun y hy => by cases hy; exact hswept
      sweeping := fun hs' => by cases hs.symm.trans hs' } ?_ ?_ ?_ ?_ ?_
  · intro j y _ hy he
    cases he
    exact hx ((h.thread j).temps x hy)
  · exact fun v hv => ⟨h.victim i v hv i, fun j _ => h.victim i v hv j⟩
  · exact fun j v _ hv => h.victim j v hv i
  · exact fun hs' => by cases hs.symm.trans hs'
  · exact fun j _ hs => h.sweeping j hs i

omit [DecidableEq Name] in
theorem inv_create (h : Inv w) (hw : Writes w i d) (hs : (w.threads i).sweeping = false)
    (hu : (d, u) ∉ w.temps) :
    Inv { w with
      temps := insert (d, u) w.temps
      threads := (upd w.threads i { w.threads i with temp := some (d, u), intent := false }) } := by
  refine inv_temp h hu hs (fun hr => ?_) (fun hd => ?_) fun hsw => ?_
  · cases d with
    | segments | cache => exact hw.2
    | derived | root | wal => exact hr.elim
  · cases hd
    exact hw.1
  · cases d with
    | wal => exact .inl hw
    | root => exact .inr (.inl hw)
    | segments | cache | derived => exact hsw.elim

theorem inv_restaged (h : Inv w) (hf : f ∈ w.files) (hd : f.1 = .segments ∨ f.1 = .derived)
    (hp : f.2 ∈ (w.threads i).pins) (hs : (w.threads i).sweeping = false)
    (hr : f.1 = .segments → (w.threads i).drained = true ∨ w.locks .state = some i) :
    Inv { w with threads := (upd w.threads i
      { w.threads i with staged := insert f (w.threads i).staged }) } := by
  have hi := h.thread i
  refine h.shrink { hi with
      staged := fun g hg => ?_
      sweeping := fun hs' => by cases hs.symm.trans hs' }
    (Finset.Subset.refl _) id (.inr rfl) (.inr rfl) id
  rcases Finset.mem_insert.mp hg with rfl | hg
  · refine ⟨hf, hd, ?_⟩
    rcases hd with hd | hd
    · exact (hr hd).imp (fun hdr => ⟨hp, .inl hdr⟩) id
    · exact .inl ⟨hp, .inr hd⟩
  · exact hi.staged g hg

theorem inv_staged (h : Inv w) (ht : (w.threads i).temp = some (d, u))
    (hd : d = .segments ∨ d = .derived) (hx : x ∈ (w.threads i).pins) :
    Inv { w with
      files := insert (d, x) w.files
      temps := w.temps.erase (d, u)
      threads := (upd w.threads i
        { w.threads i with temp := none, staged := insert (d, x) (w.threads i).staged }) } := by
  have hs : (w.threads i).sweeping = false := Bool.eq_false_iff.mpr fun hs => by
    cases ((h.thread i).sweeping hs).2.2.1.symm.trans ht
  have hst := inv_restaged (h.create (d, x)) (Finset.mem_insert_self _ _) hd hx hs
    fun hseg => (h.thread i).raw _ ht (by cases hseg; trivial)
  have hdrop := hst.dropTemp (i := i) (x := (d, u)) (by simpa using ht) (w.threads i).intent
  simpa using hdrop

section
omit [DecidableEq Name]

theorem inv_settle (h : Inv w) :
    Inv { w with threads := (upd w.threads i { w.threads i with staged := ∅ }) } := by
  have hi := h.thread i
  exact h.shrink { hi with
      staged := by simp
      sweeping := fun hs => ⟨(hi.sweeping hs).1, (hi.sweeping hs).2.1,
        (hi.sweeping hs).2.2.1, rfl⟩ }
    (Finset.Subset.refl _) id (.inr rfl) (.inr rfl) id

theorem inv_root (h : Inv w) {r : Root Name}
    (hs : ∀ x ∈ r.segments, x ∈ w.root.segments ∨ (.segments, x) ∈ (w.threads i).staged)
    (hp : ∀ x ∈ r.pages, x ∈ w.root.pages ∨ (.derived, x) ∈ (w.threads i).staged) :
    Inv { w with root := r } := by
  have hseg : ∀ x ∈ r.segments, x ∈ w.root.segments ∨ (.segments, x) ∈ w.files :=
    fun x hx => (hs x hx).imp_right fun hm => ((h.thread i).staged _ hm).1
  refine { h with
    segments := fun x hx => (hseg x hx).elim (h.segments x) .inl
    pages := fun x hx => (hp x hx).elim (h.pages x) fun hm => ((h.thread i).staged _ hm).1
    thread := fun j => { h.thread j with
      ship := fun S hS => ((h.thread j).ship S hS).imp_right fun ho x hx =>
        (hseg x hx).elim (ho x) .inl } }

theorem Inv.gate (h : Inv w) (hg : w.locks .gate = some i) (hj : j ≠ i) :
    (w.threads j).ship = none ∧ (w.threads j).bound = false := by
  have hne : w.locks .gate ≠ some j := fun he =>
    hj (Option.some_injective _ (he.symm.trans hg))
  refine ⟨Option.eq_none_iff_forall_ne_some.mpr fun S hS => hne ((h.thread j).ship S hS).1, ?_⟩
  exact Bool.eq_false_iff.mpr fun hb => hne ((h.thread j).bound hb).1

theorem inv_swap (h : Inv w) (hS : (w.threads i).ship = some S) (hsub : S ⊆ w.remote) :
    Inv { w with
      head := S
      threads := (upd w.threads i { w.threads i with bound := false }) } := by
  obtain ⟨hg, hroot⟩ := (h.thread i).ship S hS
  have hb : Inv { w with threads := (upd w.threads i { w.threads i with bound := false }) } :=
    h.shrink { h.thread i with bound := nofun } (Finset.Subset.refl _) id (.inr rfl) (.inr rfl) id
  refine { hb with
    segments := hroot
    head := fun x hx => hsub hx
    thread := fun j => { hb.thread j with bound := fun hbj => ?_ } }
  by_cases hj : j = i
  · subst hj
    simp at hbj
  · simp [upd_ne hj, (h.gate hg hj).2] at hbj

theorem inv_bind (h : Inv w) (hg : w.locks .gate = some i) :
    Inv { w with
      remoteIds := w.head
      threads := (upd w.threads i { w.threads i with ship := none, bound := true }) } := by
  have hw : Inv { w with remoteIds := w.head } :=
    { h with thread := fun j => { h.thread j with
        bound := fun hb => ⟨((h.thread j).bound hb).1, fun x hx => hx⟩ } }
  exact hw.shrink { hw.thread i with
      ship := nofun
      bound := fun _ => ⟨hg, fun x hx => hx⟩ }
    (Finset.Subset.refl _) id (.inr rfl) (.inr rfl) id

end

-- Runs

theorem inv_step (h : Inv w) (ha : Apart w a) (hs : Step w a w') : Inv w' := by
  cases hs with
  | acquire hl => exact inv_acquire h hl
  | release hl ht hv hs hg hp => exact inv_release h hl ht hv hs hg hp
  | pin hl hp hs hn => exact inv_pin h hl hp hs ha
  | pinOutputs hp => exact inv_pinOutputs h hp
  | drain hl hp hs => exact inv_drain h hl hp hs
  | protect hl hp hv => exact inv_protect h hl hp hv
  | unpin ht hp => exact inv_unpin h ht hp
  | resolve hf hd hp hs => exact inv_resolve h hf hp hs
  | choose hl hf hp => exact inv_choose h hl hp
  | evict hv =>
    rename_i v i
    have he := inv_evict h hv
    exact he.shrink { he.thread i with victim := fun hn => absurd rfl hn }
      (Finset.Subset.refl _) id (.inr rfl) (.inl rfl) id
  | create hw ht hs hu => exact inv_create h hw hs hu
  | createIntent hl ht hs hu => exact inv_temp h hu hs nofun nofun fun _ => .inr (.inr rfl)
  | finish hx => exact h.dropTemp hx false
  | fetched ht hd hx => exact (h.create _).dropTemp ht _
  | staged ht hd hx => exact inv_staged h ht hd hx
  | restaged hw hs hd hf hx =>
    exact inv_restaged h hf hd hx hs fun hseg => by cases hseg; exact hw.2
  | settle => exact inv_settle h
  | publish hc hl ht hs hp => exact (inv_root h hs hp).dropTemp ht false
  | cleanup hc hl ht hx => exact inv_cleanup h hc hl ht hx ha
  | sweepPage hl hd hs hx hp => exact inv_sweepPage h hl hs hx hp
  | sweepPageTemp hl hd ht => exact inv_sweepPageTemp h hd ht
  | observe hc hl ht hs hr => exact inv_observe h hc hl ht hs hr
  | sweepRaw hs hd hx => exact inv_sweepRaw h hs hd hx
  | sweepRawTemp hs hd => exact h.deleteTemp fun j hj => (h.quiet hs j).2.2 _ hj hd
  | archive hs hb hn hx => exact inv_archive h hs hb hn hx
  | swept =>
    rename_i i
    exact h.shrink { h.thread i with sweeping := nofun } (Finset.Subset.refl _) id (.inr rfl)
      (.inr rfl) nofun
  | unpublished hl hd hs hx hp => exact inv_unpublished h hl hs hx hp
  | capture hg hl =>
    rename_i i
    exact h.shrink { h.thread i with
        ship := fun S hS => by cases hS; exact ⟨hg, fun x hx => .inr hx⟩
        bound := nofun } (Finset.Subset.refl _) id (.inr rfl) (.inr rfl) id
  | upload hS hx => exact { h with
      head := fun y hy => Finset.mem_insert_of_mem (h.head y hy)
      thread := fun j => { h.thread j with } }
  | swap hS hsub => exact inv_swap h hS hsub
  | bind hg hl => exact inv_bind h hg
  | giveUp =>
    rename_i i
    exact h.shrink { h.thread i with ship := nofun } (Finset.Subset.refl _) id (.inr rfl)
      (.inr rfl) id
  | vacuum hg hx => exact { h with
      head := fun y hy => Finset.mem_erase.mpr ⟨fun he => hx (he ▸ hy), h.head y hy⟩
      thread := fun j => { h.thread j with } }

/-- Where pins stay apart from evictions and clean-ups from publication intents, nothing that is
still needed is deleted. -/
theorem files_kept (h : ((machine Name k).restrict Apart).Reachable w) : Kept w :=
  (h.invariant (fun _ => inv_opened) fun _ _ _ hi hs => inv_step hi hs.1 hs.2).kept

/-- Two archived segments, of which the first is in the cache. -/
def archived : World Nat 2 where
  files := {(.cache, 1)}
  temps := ∅
  root := ⟨{1, 2}, ∅⟩
  remote := {1, 2}
  head := {1, 2}
  remoteIds := {1, 2}
  locks _ := none
  threads _ := .idle

theorem opened_archived : Opened archived :=
  ⟨by decide, by decide, by decide, fun _ => rfl, fun _ => rfl⟩

/-- A scan has resolved the cached segment. -/
theorem files_kept_scanned : ∃ w, ((machine Nat 2).restrict Apart).Reachable w ∧
    (.cache, 1) ∈ (w.threads 1).resolved ∧ Kept w := by
  have h0 : ((machine Nat 2).restrict Apart).Reachable archived := .init opened_archived
  have h1 := h0.step (a := Action.other) ⟨trivial, .acquire (l := .state) (i := 1) rfl⟩
  have h2 := h1.step (a := Action.pin 1 {1}) ⟨nofun, .pin rfl rfl rfl (by decide)⟩
  have h3 := h2.step (a := Action.other)
    ⟨trivial, .resolve (i := 1) (f := (.cache, 1)) (by decide) trivial (by decide) rfl⟩
  exact ⟨_, h3, by decide, files_kept h3⟩

/-- The scan pins and resolves a cached segment that an eviction has just found without pins; and
a collection cleans up the temporary of a publication intent. -/
theorem files_deleted :
    (∃ w, (machine Nat 2).Reachable w ∧
      (.cache, 1) ∈ (w.threads 1).resolved ∧ (.cache, 1) ∉ w.files) ∧
    ∃ w, (machine Nat 2).Reachable w ∧
      (w.threads 0).temp = some (.root, 7) ∧ (.root, 7) ∉ w.temps := by
  have h0 : (machine Nat 2).Reachable archived := .init opened_archived
  constructor
  · -- Thread 0 fetches the second segment and chooses the first to make room.
    have h1 := h0.step (.acquire (l := .state) (i := 0) rfl)
    have h2 := h1.step (a := Action.pin 0 {2}) (.pin rfl rfl rfl (by decide))
    have h3 := h2.step (.release (l := .state) (i := 0) rfl rfl rfl rfl nofun (by decide))
    have h4 := h3.step (.acquire (l := .disk) (i := 0) rfl)
    have h5 := h4.step (.choose (i := 0) (v := 1) rfl (by decide) (by decide))
    have h6 := h5.step (.acquire (l := .state) (i := 1) rfl)
    have h7 := h6.step (a := Action.pin 1 {1}) (.pin rfl rfl rfl (by decide))
    have h8 := h7.step (.release (l := .state) (i := 1) rfl rfl rfl rfl nofun (by decide))
    have h9 := h8.step (.resolve (i := 1) (f := (.cache, 1)) (by decide) trivial (by decide) rfl)
    exact ⟨_, h9.step (.evict (i := 0) (v := 1) rfl), by decide, by decide⟩
  · have h1 := h0.step (.acquire (l := .disk) (i := 0) rfl)
    have h2 := h1.step (.createIntent (i := 0) (u := 7) rfl rfl rfl (by decide))
    have h3 := h2.step (.acquire (l := .commit) (i := 1) rfl)
    have h4 := h3.step (.acquire (l := .state) (i := 1) rfl)
    exact ⟨_, h4.step (.cleanup (i := 1) (x := (.root, 7)) rfl rfl rfl trivial), rfl, by decide⟩

end Varve.Files
