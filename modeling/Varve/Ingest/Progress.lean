import Varve.Ingest.Outcomes

/-!
# Every request is answered

Whichever worker goes next, and wherever one panics, the workers come to an end, and no accepted
request is left without a result.
-/

namespace Varve.Ingest

open Varve.Flow (finish_ok)

variable {c : Config} {s s' : State c} {l : Label}
variable {i : Nat} {f : Ring c}

-- What the commit worker has marked

/-- The commit worker has marked the end of a closed stream. -/
def Done (s : State c) : Prop :=
  s.published = s.flow.core.finished 2 ∧ s.flow.core.closed = true ∧
    s.flow.core.head ≤ s.flow.core.finished 2

def Marked (s : State c) : Pc → Prop
  | .finished q => q = s.flow.core.finished 2
  | .leaving clean => clean = true → Done s
  | .stopped => s.failure.isSome ∨ Done s
  | _ => s.published = s.flow.core.finished 2

/-- Preparation waits for its last group, and commit marks what it has finished. -/
structure Marks (s : State c) : Prop where
  awaiting : ∀ last, s.workers 1 = .awaiting last → last = s.flow.core.finished 1
  marked : Marked s (s.workers 2)

theorem Done.frame (h : Done s) (hm : Moved l s s')
    (hf : s'.flow.core.finished 2 = s.flow.core.finished 2) (hp : s'.published = s.published) :
    Done s' := by
  refine ⟨by rw [hp, hf]; exact h.1, hm.ends.closed h.2.1, ?_⟩
  rw [hm.ends.head h.2.1, hf]
  exact h.2.2

theorem Marked.frame {pc : Pc} (h : Marked s pc) (hm : Moved l s s')
    (hf : s'.flow.core.finished 2 = s.flow.core.finished 2) (hp : s'.published = s.published) :
    Marked s' pc := by
  cases pc with
  | finished q => exact Eq.trans h hf.symm
  | leaving clean => exact fun hc => (h hc).frame hm hf hp
  | stopped => exact h.imp hm.failure fun hd => hd.frame hm hf hp
  | _ => exact hp.trans (Eq.trans h hf.symm)

theorem marked_step (hi : Inv s) (h : Marked s (s.workers 2)) (hs : Step s l s') :
    Marked s' (s'.workers 2) := by
  have hm := moved_step hi hs
  by_cases hl : l.actor = some 2
  · cases hs with
    | next hi' hp hf hd =>
      obtain rfl := Option.some.inj hl
      rw [hp] at h
      rw [goto_worker]
      exact Eq.trans h (congrFun (nextUntil_finished hf) 2).symm
    | drained hi' hp hn hc hh hf =>
      obtain rfl := Option.some.inj hl
      rw [hp] at h
      have hd : Done s := ⟨h, hc, hh⟩
      rw [State.drop, goto_worker]
      exact fun _ => hd.frame hm (congrFun (gone_dropStage hf).finished 2) rfl
    | cancelled hi' hp ho hf => exact absurd rfl (hi.handed ho).2.2
    | coalesce hi' hp ho h0 hn hf =>
      obtain rfl := Option.some.inj hl
      obtain ⟨first, v, rfl⟩ := Flow.coalesce_open hn h0 hf
      exact h.frame hm rfl rfl
    | coalesceNext hi' hp ho hn hf =>
      obtain rfl := Option.some.inj hl
      obtain ⟨first, values, limit, -, ⟨v, -, rfl⟩ | rfl⟩ := Flow.coalesceNext_open hn hf
      · exact h.frame hm rfl rfl
      · exact h.frame hm rfl rfl
    | commitBarrier hp ho hw hc hf =>
      rw [State.finishCell, goto_worker]
      obtain ⟨q, v, ho', rfl⟩ | ⟨first, values, ho', rfl⟩ := finish_ok hf
      · obtain ⟨rfl, -⟩ := Flow.Owner.delivery.inj (ho.symm.trans ho')
        show _ = (Flow.State.finishAt s.flow 2 _).core.finished 2
        simp
      · cases ho.symm.trans ho'
    | store hp ho hn hf =>
      rw [State.store, goto_worker]
      obtain ⟨q, v, ho', rfl⟩ | ⟨first, values, ho', rfl⟩ := finish_ok hf
      · cases ho.symm.trans ho'
      · obtain ⟨rfl, rfl⟩ := Flow.Owner.batch.inj (ho.symm.trans ho')
        show _ = (Flow.State.finishAt s.flow 2 _).core.finished 2
        simp [hn]
    | takeEpoch hp ho hw hc =>
      rw [hp] at h
      rw [State.takeEpoch, goto_worker]
      exact h
    | publish installs hp ho hn hc =>
      rw [hp] at h
      rw [State.publish, goto_worker]
      exact h
    | markPublished hp =>
      rw [hp] at h
      rw [goto_worker]
      exact h
    | bail hi' hx hlost hf | panic hi' hlost hf =>
      obtain rfl := Option.some.inj hl
      rw [State.drop, goto_worker]
      exact fun hc => by cases hc
    | leave hi' hp hl' | leaveLast hi' hp hl' hf =>
      rename_i i clean message
      obtain rfl := Option.some.inj hl
      rw [State.leave, goto_worker]
      by_cases hx : clean = true ∧ s.flow.core.fenced = false
      · rw [hp] at h
        simp only [State.finished, hx, and_self, if_true]
        exact .inr (h hx.1)
      · simp only [State.finished, hx, if_false]
        exact .inl (by simp [State.fence, State.goto])
    | _ => simp [Label.actor] at hl
  · obtain ⟨hstill, hw⟩ := hm.still 2 hl
    rw [hw]
    exact h.frame hm hstill.finished (hm.marked hl)

theorem awaiting_step (hi : Inv s)
    (h : ∀ last, s.workers 1 = .awaiting last → last = s.flow.core.finished 1)
    (hs : Step s l s') :
    ∀ last, s'.workers 1 = .awaiting last → last = s'.flow.core.finished 1 := by
  intro last hlast
  by_cases hl : l.actor = some 1
  · cases hs with
    | coalesce hi' hp ho h0 hn hf =>
      obtain rfl := Option.some.inj hl
      cases hp.symm.trans hlast
    | coalesceNext hi' hp ho hn hf =>
      obtain rfl := Option.some.inj hl
      cases hp.symm.trans hlast
    | prepare hp ho hc hf =>
      rw [State.prepare, goto_worker] at hlast
      obtain rfl := Pc.awaiting.inj hlast
      obtain ⟨q, v, ho', rfl⟩ | ⟨first, values, ho', rfl⟩ := finish_ok hf
      · cases ho.symm.trans ho'
      · obtain ⟨rfl, rfl⟩ := Flow.Owner.batch.inj (ho.symm.trans ho')
        simp [State.prepare, State.goto]
    | cancelled hi' hp ho hf => exact absurd rfl (hi.handed ho).2.2
    | next | drained | bail | panic | leave | leaveLast =>
      obtain rfl := Option.some.inj hl
      exact absurd (goto_worker.symm.trans hlast) (by simp)
    | passBarrier | group | await => exact absurd (goto_worker.symm.trans hlast) (by simp)
    | _ => simp [Label.actor] at hl
  · obtain ⟨hstill, hw⟩ := (moved_step hi hs).still 1 hl
    rw [hstill.finished]
    exact h last (hw ▸ hlast)

theorem marks_of_reachable (h : (machine c).Reachable s) : Inv s ∧ Marks s := by
  refine h.invariant (I := fun s => Inv s ∧ Marks s) (fun _ h0 => ?_) fun _ _ _ ih hs =>
    ⟨inv_step ih.1 hs, awaiting_step ih.1 ih.2.awaiting hs, marked_step ih.1 ih.2.marked hs⟩
  subst h0
  exact ⟨inv_new c, by simp [new], rfl⟩

-- Workers that can go on

def Label.fair : Label → Bool
  | caller | panic _ => false
  | _ => true

def Active (s : State c) : Prop := ∃ l s', l.fair = true ∧ Step s l s'

theorem unwound_exists (hi : i < 4) (ho : f.owners i ≠ .dropped) :
    ∃ f', Unwound f i f' := by
  have hdrop : ∀ g : Ring c, g.owners i = .idle → ∃ g', g.step (.dropStage i) = .ok g' := by
    intro g hg
    simp only [Flow.State.step, Flow.State.dropStage, hg, if_pos (show i < c.shape.stages from hi)]
    split <;> exact ⟨_, rfl⟩
  have hhold : ∀ m, f.step (.dropDelivery i) = .ok (f.abandon i m) → ∃ f', Unwound f i f' := by
    intro m hd
    obtain ⟨f', hf⟩ := hdrop (f.abandon i m) (by simp [Flow.State.abandon])
    exact ⟨f', .holding hd hf⟩
  cases h : f.owners i with
  | idle =>
    obtain ⟨f', hf⟩ := hdrop f h
    exact ⟨f', .idle h hf⟩
  | dropped => exact absurd h ho
  | delivery | coalescing | batch =>
    exact hhold _ (by simp only [Flow.State.step, Flow.State.dropDelivery, h]; rfl)

theorem active_bail (hi : i < 4) (ho : s.flow.owners i ≠ .dropped) (h : Faulty s i) :
    Active s := by
  obtain ⟨f, hf⟩ := unwound_exists hi ho
  exact ⟨_, _, rfl, .bail hi h (fun _ => .inl rfl) hf⟩

theorem finish_delivery {i q : Nat} {v : Option Event}
    (h : f.owners i = .delivery q v) : f.step (.finish i) = .ok (f.finishAt i q) := by
  simp only [Flow.State.step, Flow.State.finish, h]

theorem finish_batch {i first : Nat} {values : List (Option Event)}
    (h : f.owners i = .batch first values) :
    f.step (.finish i) = .ok (f.finishAt i (first + values.length - 1)) := by
  simp only [Flow.State.step, Flow.State.finish, h]

theorem Inv.active_held (h : Inv s) (hi : i < 4) (hp : s.workers i = .held) :
    Active s := by
  have hpc := h.pcs i hi
  rw [hp] at hpc
  obtain ⟨q, v, ho⟩ := hpc
  obtain ⟨e, rfl⟩ := Option.ne_none_iff_exists'.mp (h.handed ho).2.2
  have hf := finish_delivery ho
  by_cases hx : Faulty s i
  · exact active_bail hi (by simp [ho]) hx
  simp only [Faulty, hp, ho] at hx
  obtain rfl | rfl | rfl | rfl : i = 0 ∨ i = 1 ∨ i = 2 ∨ i = 3 := by omega
  · obtain ⟨p, hc⟩ := Option.ne_none_iff_exists'.mp hx
    exact ⟨_, _, rfl, .validate hp ho hc hf⟩
  · cases hw : e.write with
    | false => exact ⟨_, _, rfl, .passBarrier hp ho hw (by simpa [hw] using hx) hf⟩
    | true =>
      obtain ⟨hn, he⟩ : s.failure = none ∧ ∃ entry ∈ s.book.entries, entry.sequence = q := by
        simpa [hw] using hx
      exact ⟨_, _, rfl, .group hp ho hw hn he⟩
  · cases hw : e.write with
    | false =>
      exact ⟨_, s.finishCell 2 _ q (.barrier (some none)) _, rfl,
        .commitBarrier hp ho hw (by simpa [hw] using hx) hf⟩
    | true =>
      obtain ⟨n, epoch, hc⟩ : ∃ n epoch, s.cells q = .epoch n epoch := by simpa [hw] using hx
      exact ⟨_, _, rfl, .takeEpoch hp ho hw hc⟩
  · obtain ⟨entry, he, rfl, ht⟩ : ∃ entry ∈ s.book.entries, entry.sequence = q ∧
        terminal entry.event (s.cells q) ≠ none := by simpa using hx
    obtain ⟨r, hr⟩ := Option.ne_none_iff_exists'.mp ht
    exact ⟨_, _, rfl, .complete hp ho he hr hf⟩

theorem coalesceNext_exists (hr : Flow.Inv f) {i first limit : Nat}
    {values : List (Option Event)} (ho : f.owners i = .coalescing first values limit) :
    ∃ f', f.step (.coalesceNext i true) = .ok f' := by
  have hown := hr.owners i
  rw [ho] at hown
  simp only [Flow.State.step, Flow.State.coalesceNext, ho]
  split_ifs with hf hready
  · exact ⟨_, rfl⟩
  · obtain ⟨v, hv⟩ := hr.read_ready (q := first + values.length) (by rw [hown.1]; omega)
      (Bool.and_eq_true_iff.mp hready).2
    rw [hv]
    exact ⟨_, rfl⟩
  · exact ⟨_, rfl⟩

theorem exists_events {values : List (Option Event)} (h : none ∉ values) :
    ∃ events : List Event, values = events.map some := by
  induction values with
  | nil => exact ⟨[], rfl⟩
  | cons v values ih =>
    obtain ⟨events, rfl⟩ := ih fun hn => h (List.mem_cons_of_mem _ hn)
    cases v with
    | none => simp at h
    | some e => exact ⟨e :: events, rfl⟩

theorem Inv.active_grouping (h : Inv s) {i n : Nat} (hi : i < 4)
    (hp : s.workers i = .grouping n) : Active s := by
  have hpc := h.pcs i hi
  rw [hp] at hpc
  obtain ⟨hi', hown⟩ := hpc
  by_cases hx : Faulty s i
  · refine active_bail hi (fun hd => ?_) hx
    simp [hd] at hown
  rcases hown with ⟨q, v, ho⟩ | ⟨first, values, limit, ho⟩ | ⟨first, values, ho⟩
  · simp only [Faulty, hp, ho, not_or, Bool.not_eq_true] at hx
    refine ⟨_, _, rfl, .coalesce hi hp ho hx.2 hx.1
      (f := s.flow.own i (.coalescing q [v] (min n c.shape.capacity))) ?_⟩
    simp [Flow.State.step, Flow.State.coalesce, ho, hx.1, hx.2]
  · simp only [Faulty, hp, ho, Bool.not_eq_true] at hx
    obtain ⟨f, hf⟩ := coalesceNext_exists h.ring ho
    exact ⟨_, _, rfl, .coalesceNext hi hp ho hx hf⟩
  · simp only [Faulty, hp, ho, not_or, not_not] at hx
    obtain ⟨rfl, hnone, hcells⟩ := hx
    have hf := finish_batch ho
    obtain rfl | rfl := hi'
    · obtain ⟨events, rfl⟩ := exists_events hnone
      rw [List.length_map] at hp hcells
      exact ⟨_, s.prepare _ first events ⟨[], none⟩, rfl,
        .prepare hp ho (by simpa using hcells) hf⟩
    · exact ⟨_, _, rfl, .publish true hp ho rfl (by simpa using hcells)⟩

theorem Inv.active_busy (h : Inv s) (hi : i < 4) (h0 : s.workers i ≠ .idle)
    (h1 : s.workers i ≠ .stopped) (h2 : ∀ last, s.workers i ≠ .awaiting last) : Active s := by
  have hpc := h.pcs i hi
  cases hp : s.workers i with
  | idle => exact absurd hp h0
  | stopped => exact absurd hp h1
  | awaiting last => exact absurd hp (h2 last)
  | held => exact h.active_held hi hp
  | grouping n => exact h.active_grouping hi hp
  | published rs =>
    rw [hp] at hpc
    obtain ⟨rfl, first, values, ho⟩ := hpc
    by_cases hx : rs.length = values.length
    · exact ⟨_, _, rfl, .store hp ho hx (finish_batch ho)⟩
    · exact active_bail hi (by simp [ho]) (by simpa [Faulty, hp, ho] using hx)
  | finished q =>
    rw [hp] at hpc
    obtain ⟨-, rfl | rfl⟩ := hpc
    · exact ⟨_, _, rfl, .markValidated hp⟩
    · exact ⟨_, _, rfl, .markPublished hp⟩
  | leaving clean =>
    by_cases hf : (s.finished clean "").flow.core.fenced = false
    · exact ⟨_, _, rfl, .leave hi hp (.inr hf)⟩
    · by_cases hl : s.workersLeft = 1
      · exact ⟨_, _, rfl, .leaveLast hi hp hl (by simpa using hf)⟩
      · exact ⟨_, (s.finished clean "").leave i s.book, rfl, .leave hi hp (.inl hl)⟩

theorem Inv.active_next (h : Inv s) (hi : i < 4) (hp : s.workers i = .idle)
    (hlt : s.flow.core.finished i < s.flow.core.head)
    (hpar : ∀ p ∈ c.shape.parents i, s.flow.core.finished i < s.flow.core.finished p) :
    Active s := by
  have ho : s.flow.owners i = .idle := by simpa [hp, PcOk] using h.pcs i hi
  by_cases hn : s.flow.core.failed.isSome
  · exact active_bail hi (by simp [ho]) (by simpa [Faulty, hp] using hn)
  obtain ⟨e, he, -⟩ := h.events (s.flow.core.finished i + 1) (by omega) hlt
  have hslot := h.ring.retained _ _ (Nat.lt_succ_of_le (h.ring.reclaimed i hi)) he
  have hready : s.flow.core.ready i (s.flow.core.finished i + 1) :=
    Flow.Core.ready_iff.mpr ⟨fun p hp => hpar p hp, by rw [hslot]⟩
  have hread : s.flow.core.read (s.flow.core.finished i + 1) = .ok (some e) :=
    Flow.Core.read_ok.mpr ⟨_, by rw [hslot], rfl⟩
  refine ⟨_, _, rfl, .next hi hp (q := s.flow.core.finished i + 1) (v := some e)
    (f := s.flow.deliver i (s.flow.core.finished i + 1) (some e)
      (.delivery (s.flow.core.finished i + 1) (some e))) ?_ Flow.deliver_owner⟩
  have hnot : ¬(s.flow.core.closed && decide (s.flow.core.head < s.flow.core.finished i + 1)) := by
    simp only [Bool.and_eq_true, decide_eq_true_eq]
    omega
  simp only [Flow.State.step, if_pos (show i < c.shape.stages from hi), Flow.State.nextUntil, ho,
    hn, hnot, hready, hread]
  rfl

theorem Inv.active_awaiting (h : Inv s) (hm : Marks s) {last : Nat}
    (hp : s.workers 1 = .awaiting last) : Active s := by
  by_cases hle : last ≤ s.published
  · exact ⟨_, _, rfl, .await hp hle⟩
  have hlast := hm.awaiting last hp
  have hmark := hm.marked
  have hcur := h.cursors
  have ho : s.flow.owners 1 ≠ .dropped := by
    have := h.pcs 1 (by decide)
    rw [hp] at this
    simp [this.1]
  by_cases h0 : s.workers 2 = .idle
  · rw [h0] at hmark
    have hmark : s.published = s.flow.core.finished 2 := hmark
    refine h.active_next (i := 2) (by decide) h0 (by omega) fun p hp => ?_
    obtain rfl : p = 1 := by simpa [parents_shape (c := c) (i := 1) (by decide)] using hp
    omega
  by_cases h1 : s.workers 2 = .stopped
  · rw [h1] at hmark
    rcases hmark with hf | hd
    · exact active_bail (i := 1) (by decide) ho (by simpa [Faulty, hp, hf] using hle)
    · have := hd.1
      have := hd.2.2
      omega
  refine h.active_busy (i := 2) (by decide) h0 h1 fun n hn => ?_
  have := h.pcs 2 (by decide)
  rw [hn] at this
  simp [PcOk] at this

theorem Inv.active_worker (h : Inv s) (hm : Marks s) (hi : i < 4)
    (h0 : s.workers i ≠ .idle) (h1 : s.workers i ≠ .stopped) : Active s := by
  by_cases hw : ∃ last, s.workers i = .awaiting last
  · obtain ⟨last, hw⟩ := hw
    have hpc := h.pcs i hi
    rw [hw] at hpc
    obtain rfl := hpc.2
    exact h.active_awaiting hm hw
  · exact h.active_busy hi h0 h1 fun last hl => hw ⟨last, hl⟩

theorem exists_behind (hlt : s.flow.core.finished 3 < s.flow.core.head) :
    ∃ i < 4, s.flow.core.finished i < s.flow.core.head ∧
      ∀ p ∈ c.shape.parents i, s.flow.core.finished i < s.flow.core.finished p := by
  have hnext : ∀ i < 3, s.flow.core.finished (i + 1) < s.flow.core.head →
      ¬s.flow.core.finished i < s.flow.core.head →
      ∀ p ∈ c.shape.parents (i + 1), s.flow.core.finished (i + 1) < s.flow.core.finished p := by
    intro i hi hlt hge p hp
    obtain rfl : p = i := by simpa [parents_shape hi] using hp
    omega
  by_cases h0 : s.flow.core.finished 0 < s.flow.core.head
  · exact ⟨0, by decide, h0, by simp [Config.shape, Flow.Shape.parents]⟩
  by_cases h1 : s.flow.core.finished 1 < s.flow.core.head
  · exact ⟨1, by decide, h1, hnext 0 (by decide) h1 h0⟩
  by_cases h2 : s.flow.core.finished 2 < s.flow.core.head
  · exact ⟨2, by decide, h2, hnext 1 (by decide) h2 h1⟩
  · exact ⟨3, by decide, hlt, hnext 2 (by decide) hlt h2⟩

theorem Inv.active (h : Inv s) (hm : Marks s) (hu : unanswered s ≠ []) : Active s := by
  cases hd : s.book.doomed with
  | cons entry doomed => exact ⟨_, _, rfl, .fail hd⟩
  | nil =>
    have hne : s.book.entries ≠ [] := fun he => hu (List.nil_perm.mp (by
      simpa [Book.pending, he, hd] using h.unanswered_perm))
    obtain ⟨-, hes, hstop⟩ := h.registry.resolve_right fun hx => hne hx.1
    have hlt : s.flow.core.finished 3 < s.flow.core.head := by
      by_contra hge
      rw [Nat.sub_eq_zero_of_le (by omega)] at hes
      exact hne (by simpa using hes)
    obtain ⟨i, hi, hbehind, hpar⟩ := exists_behind hlt
    by_cases h0 : s.workers i = .idle
    · exact h.active_next hi h0 hbehind hpar
    by_cases h1 : s.workers i = .stopped
    · -- the stage is gone, so the ring has failed and the others return
      have hdrop : s.flow.owners i = .dropped := by simpa [h1, PcOk] using h.pcs i hi
      have hfail := (h.dropped hdrop).2.resolve_right (by omega)
      obtain ⟨j, hj, hne'⟩ : ∃ j < 4, s.workers j ≠ .stopped := by
        by_contra hall
        exact hne (hstop (by simpa using hall))
      by_cases hidle : s.workers j = .idle
      · have ho : s.flow.owners j = .idle := by simpa [hidle, PcOk] using h.pcs j hj
        exact active_bail hj (by simp [ho]) (by simpa [Faulty, hidle] using hfail)
      · exact h.active_worker hm hj hidle hne'
    · exact h.active_worker hm hi h0 h1

-- The work that is left

/-- What a worker has before it in one round of its loop. -/
def phase (capacity : Nat) : Pc → Flow.Owner Event → Nat
  | .finished _, _ | .awaiting _, _ => capacity + 8
  | .idle, _ => capacity + 7
  | .held, _ => capacity + 6
  | .grouping _, .delivery _ _ => capacity + 5
  | .grouping _, .coalescing _ values limit => limit - values.length + 4
  | .grouping _, _ => 3
  | .published _, _ => 2
  | .leaving _, _ => 1
  | .stopped, _ => 0

def share (s : State c) (i : Nat) : Nat :=
  (c.queueCapacity + 9) * (s.flow.core.head - s.flow.core.finished i) +
    phase c.queueCapacity (s.workers i) (s.flow.owners i)

def weight (s : State c) : Nat :=
  share s 0 + share s 1 + share s 2 + share s 3 + s.book.pending.length +
    (s.flow.core.head - s.flow.core.reclaimed)

theorem share_congr (hs : Flow.Still s.flow s'.flow i)
    (hh : s'.flow.core.head = s.flow.core.head) (hw : s'.workers i = s.workers i) :
    share s' i = share s i := by
  rw [share, share, hh, hs.finished, hs.owner, hw]

theorem share_phase (hh : s'.flow.core.head = s.flow.core.head)
    (hf : s'.flow.core.finished i = s.flow.core.finished i)
    (hp : phase c.queueCapacity (s'.workers i) (s'.flow.owners i) <
      phase c.queueCapacity (s.workers i) (s.flow.owners i)) : share s' i < share s i := by
  rw [share, share, hh, hf]
  omega

theorem Inv.share_finish (h : Inv s) (hf : s.flow.step (.finish i) = .ok f)
    (hs : s'.flow = f) (hp : phase c.queueCapacity (s'.workers i) (s'.flow.owners i) ≤
      c.queueCapacity + 8) : share s' i < share s i := by
  obtain ⟨-, -, hlt, hle⟩ := h.finishes hf
  have hh : f.core.head = s.flow.core.head := ((Flow.frame_step hf).keeps rfl).head
  have hmul := Nat.mul_le_mul_left (c.queueCapacity + 9)
    (show f.core.head - f.core.finished i + 1 ≤ s.flow.core.head - s.flow.core.finished i by omega)
  rw [share, share]
  rw [hs] at hp ⊢
  rw [Nat.mul_add] at hmul
  omega

theorem weight_worker (hm : Moved l s s') (hi : i < 4) (hl : l.actor = some i)
    (hs : share s' i < share s i) (hb : s'.book.pending.length ≤ s.book.pending.length) :
    weight s' < weight s := by
  have hh := (hm.keeps (by rintro rfl; cases hl)).head
  have hr := hm.ends.reclaimed
  have hother : ∀ j, j ≠ i → share s' j = share s j := fun j hj => by
    obtain ⟨hstill, hw⟩ := hm.still j (by rw [hl]; simpa using hj.symm)
    exact share_congr hstill hh hw
  rw [weight, weight, hh]
  obtain rfl | rfl | rfl | rfl : i = 0 ∨ i = 1 ∨ i = 2 ∨ i = 3 := by omega
  · rw [hother 1 (by decide), hother 2 (by decide), hother 3 (by decide)]
    omega
  · rw [hother 0 (by decide), hother 2 (by decide), hother 3 (by decide)]
    omega
  · rw [hother 0 (by decide), hother 1 (by decide), hother 3 (by decide)]
    omega
  · rw [hother 0 (by decide), hother 1 (by decide), hother 2 (by decide)]
    omega

theorem Inv.weight_drop (h : Inv s) {cells : Nat → Payload} {clean : Bool}
    (hm : Moved l s (s.drop i f cells clean)) (hi : i < 4) (hl : l.actor = some i)
    (hg : Gone s.flow f i) : weight (s.drop i f cells clean) < weight s := by
  refine weight_worker hm hi hl ?_ (Nat.le_refl _)
  refine share_phase hg.keeps.head (congrFun hg.finished i) ?_
  have hpc := h.pcs i hi
  rw [State.drop, goto_worker]
  show 1 < _
  cases hp : s.workers i with
  | leaving | stopped =>
    rw [hp] at hpc
    exact absurd hpc hg.live
  | grouping n => cases s.flow.owners i <;> simp only [phase] <;> omega
  | _ => simp [phase]

theorem weight_step (hi : Inv s) (hs : Step s l s') (hl : l ≠ .caller) : weight s' < weight s := by
  have hm := moved_step hi hs
  cases hs with
  | submit | flush | refused | close | fence => exact absurd rfl hl
  | next hi' hp hf hd =>
    refine weight_worker hm hi' rfl (share_phase ?_ ?_ ?_) (Nat.le_refl _)
    · exact (hm.keeps hl).head
    · exact congrFun (nextUntil_finished hf) _
    · rw [goto_worker, hp]
      simp [phase]
  | drained hi' hp hn hc hh hf => exact hi.weight_drop hm hi' rfl (gone_dropStage hf)
  | cancelled hi' hp ho hf => exact absurd rfl (hi.handed ho).2.2
  | validate hp ho hc hf | passBarrier hp ho hw hc hf | prepare hp ho hc hf
  | commitBarrier hp ho hw hc hf | store hp ho hn hf =>
    refine weight_worker hm (by decide) rfl (hi.share_finish hf rfl ?_) (Nat.le_refl _)
    simp [phase, State.finishCell, State.prepare, State.store]
  | complete hp ho he ht hf =>
    refine weight_worker hm (by decide) rfl (hi.share_finish hf rfl ?_) ?_
    · simp [phase, State.complete]
    · obtain ⟨rest, hes, -⟩ := hi.first_entry hp ho he
      simp [State.complete, State.goto, Book.pending, Book.finish, Book.remove, hes]
  | markValidated hp | await hp _ | markPublished hp =>
    refine weight_worker hm (by decide) rfl (share_phase rfl rfl ?_) (Nat.le_refl _)
    rw [goto_worker, hp]
    simp [phase]
  | group hp ho hw hn he | takeEpoch hp ho hw hc =>
    refine weight_worker hm (by decide) rfl (share_phase rfl rfl ?_) (Nat.le_refl _)
    simp [phase, hp, ho, State.takeEpoch, State.goto]
  | publish installs hp ho hn hc =>
    refine weight_worker hm (by decide) rfl (share_phase rfl rfl ?_) (Nat.le_refl _)
    simp [phase, hp, ho, State.publish, State.goto]
  | coalesce hi' hp ho h0 hn hf =>
    obtain ⟨first, v, rfl⟩ := Flow.coalesce_open hn h0 hf
    refine weight_worker hm hi' rfl (share_phase rfl rfl ?_) (Nat.le_refl _)
    simp only [hp, ho, phase, Flow.State.own_owners, if_true, List.length_singleton]
    show min _ c.queueCapacity - 1 + 4 < _
    omega
  | coalesceNext hi' hp ho hn hf =>
    obtain ⟨first, values, limit, ho', ⟨v, hlt, rfl⟩ | rfl⟩ := Flow.coalesceNext_open hn hf
    · refine weight_worker hm hi' rfl (share_phase rfl rfl ?_) (Nat.le_refl _)
      simp only [hp, ho', phase, Flow.deliver_owner, List.length_append, List.length_singleton]
      omega
    · refine weight_worker hm hi' rfl (share_phase rfl rfl ?_) (Nat.le_refl _)
      simp only [hp, ho', phase, Flow.State.own_owners, if_true]
      omega
  | reclaim hf =>
    have hk := (hm.keeps hl).head
    have hsame : ∀ j, share _ j = share s j := fun j =>
      share_congr (hm.still j (by simp [Label.actor])).1 hk rfl
    simp only [Flow.State.step, Flow.State.reclaimSlot] at hf
    split_ifs at hf with hmin
    obtain ⟨core, hc, hf⟩ := Result.bind_ok.mp hf
    cases hf
    unfold Flow.Core.reclaimSlot at hc
    split at hc <;> cases hc
    have hle := Flow.Core.minimum_le_finished hi.ring.cursor_le_parent c.shape.stages_pos
    have hcur := hi.cursors
    rw [weight, weight, hsame, hsame, hsame, hsame]
    show _ + s.book.pending.length + (s.flow.core.head - (s.flow.core.reclaimed + 1)) < _
    omega
  | bail hi' hx hlost hf | panic hi' hlost hf => exact hi.weight_drop hm hi' rfl (gone_unwound hf)
  | leave hi' hp hl' | leaveLast hi' hp hl' hf =>
    refine weight_worker hm hi' rfl (share_phase (hm.keeps hl).head ?_ ?_) ?_
    · rcases finished_eq (s := s) _ _ with hx | hx <;> rw [hx] <;> rfl
    · rw [State.leave, goto_worker, hp]
      exact Nat.one_pos
    · simp [State.leave, State.goto, Book.doom, Book.pending, Nat.add_comm]
  | fail hd =>
    show share s 0 + share s 1 + share s 2 + share s 3 + _ + _ < _
    simp [weight, Book.pending, Book.finish, hd]

/-- However the pipeline goes on, with or without panics, it comes to a state in which every
accepted request has its result. -/
inductive Answered : State c → Prop where
  | now {s : State c} (h : unanswered s = []) : Answered s
  | later {s : State c} (ha : Active s)
      (h : ∀ l s', l ≠ .caller → Step s l s' → Answered s') : Answered s

theorem always_answered (h : (machine c).Reachable s) : Answered s := by
  induction hn : weight s using Nat.strong_induction_on generalizing s with
  | _ n ih =>
    obtain ⟨hi, hm⟩ := marks_of_reachable h
    by_cases hu : unanswered s = []
    · exact .now hu
    · refine .later (hi.active hm hu) fun l s' hl hs => ?_
      exact ih (weight s') (hn ▸ weight_step hi hs hl) (h.step hs) rfl

theorem always_answered_sample : ∃ s : State sample, (machine sample).Reachable s ∧
    unanswered s = [1] ∧ Answered s := by
  have h0 : (machine sample).Reachable (new sample) := .init rfl
  have h1 := h0.step (Step.submit (e := request) (q := 1) rfl (by decide) (by decide) (by decide)
    rfl (by decide) rfl rfl rfl rfl)
  exact ⟨_, h1, by decide, always_answered h1⟩

end Varve.Ingest
