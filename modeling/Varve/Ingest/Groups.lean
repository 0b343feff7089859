import Varve.Ingest.Registry

/-!
# Groups in the order of the ring

Preparation cuts the stream into groups within the limits, one after the other.
-/

namespace Varve.Ingest

open Varve.Flow (Keeps Still Ends frame_step finish_ok stageOf)

variable {c : Config} {s s' : State c} {l : Label}

-- What a step moves

structure Moved (l : Label) (s s' : State c) : Prop where
  still : ∀ j, l.actor ≠ some j → Still s.flow s'.flow j ∧ s'.workers j = s.workers j
  keeps : l ≠ .caller → Keeps s.flow s'.flow
  ends : Ends s.flow.core s'.flow.core
  published : ∀ q ≤ s.flow.core.head, s'.flow.published q = s.flow.published q
  head : s.flow.core.head ≤ s'.flow.core.head
  failure : s.failure.isSome → s'.failure.isSome
  marked : l.actor ≠ some 2 → s'.published = s.published
  prepared : l ≠ .prepare → s'.prepared = s.prepared

theorem failure_fence (message : String) (h : s.failure.isSome) :
    (s.fence message).failure.isSome := by
  obtain ⟨m, hm⟩ := Option.isSome_iff_exists.mp h
  simp [State.fence, hm]

theorem moved_worker {i : Nat} {t : State c} {pc : Pc} (hl : l.actor = some i)
    (hk : Keeps s.flow t.flow) (hends : Ends s.flow.core t.flow.core)
    (hs : ∀ j, j ≠ i → Still s.flow t.flow j) (hw : t.workers = s.workers)
    (hf : s.failure.isSome → t.failure.isSome)
    (hm : l.actor ≠ some 2 → t.published = s.published)
    (hp : l ≠ .prepare → t.prepared = s.prepared) : Moved l s (t.goto i pc) where
  still j hj := by
    have hne : j ≠ i := fun h => hj (h ▸ hl)
    exact ⟨hs j hne, by rw [goto_workers, if_neg hne, hw]⟩
  keeps _ := hk
  ends := hends
  published q _ := congrFun hk.published q
  head := hk.head.ge
  failure := hf
  marked := hm
  prepared := hp

theorem moved_other (hs : ∀ j, Still s.flow s'.flow j) (hk : l ≠ .caller → Keeps s.flow s'.flow)
    (hends : Ends s.flow.core s'.flow.core)
    (hpub : ∀ q ≤ s.flow.core.head, s'.flow.published q = s.flow.published q)
    (hh : s.flow.core.head ≤ s'.flow.core.head) (hw : s'.workers = s.workers)
    (hf : s.failure.isSome → s'.failure.isSome) (hm : s'.published = s.published)
    (hp : s'.prepared = s.prepared) : Moved l s s' :=
  ⟨fun j _ => ⟨hs j, congrFun hw j⟩, hk, hends, hpub, hh, hf, fun _ => hm, fun _ => hp⟩

theorem moved_enqueue {q : Nat} {e : Event} {f : Ring c} {p : Payload}
    (h : Claimed s.flow f q e) : Moved .caller s (s.enqueue f q e p) := by
  refine moved_other h.still (absurd rfl) h.ends (fun r hr => ?_) ?_ rfl id rfl rfl
  · simp only [State.enqueue, h.published]
    have := h.sequence
    exact Function.update_of_ne (by omega) _ _
  · simp only [State.enqueue, h.head]
    omega

theorem moved_act (h : Inv s) {i : Nat} {a : Flow.Action Event} {t : State c} {pc : Pc}
    (hf : s.flow.step a = .ok t.flow) (ha : stageOf a = some i) (hr : Flow.Reads a = true)
    (hl : l.actor = some i) (hw : t.workers = s.workers) (hn : t.failure = s.failure)
    (hm : t.published = s.published) (hp : l ≠ .prepare → t.prepared = s.prepared) :
    Moved l s (t.goto i pc) := by
  obtain ⟨-, hk, hstill⟩ := h.act hf ha hr
  exact moved_worker hl hk (frame_step hf).ends hstill hw (by rw [hn]; exact id) (fun _ => hm) hp

theorem moved_goto {i : Nat} {t : State c} {pc : Pc} (hl : l.actor = some i)
    (ht : t.flow = s.flow) (hw : t.workers = s.workers) (hn : t.failure = s.failure)
    (hm : l.actor ≠ some 2 → t.published = s.published) (hp : t.prepared = s.prepared) :
    Moved l s (t.goto i pc) :=
  moved_worker hl (ht ▸ .refl _) (ht ▸ .refl _) (fun _ _ => ht ▸ .refl _ _) hw
    (by rw [hn]; exact id) hm fun _ => hp

theorem moved_step (h : Inv s) (hs : Step s l s') : Moved l s s' := by
  cases hs with
  | submit hw hrows hgroup hbytes ho hp hr ha hq hf =>
    exact moved_enqueue (claimed_ok h.reservations h.claims hr ha hq hf)
  | flush ho hr ha hq hf => exact moved_enqueue (claimed_ok h.reservations h.claims hr ha hq hf)
  | refused ho hr ha hq =>
    obtain ⟨hk, hstill⟩ := refused_ok h.reservations hr ha hq
    exact moved_other hstill (fun _ => hk) ((frame_step hr).ends.trans (frame_step ha).ends)
      (fun q _ => congrFun hk.published q) hk.head.ge rfl id rfl rfl
  | close =>
    exact moved_other (fun _ => ⟨rfl, rfl, rfl⟩) (absurd rfl) (frame_step (a := .close) rfl).ends
      (fun _ _ => rfl) (Nat.le_refl _) rfl id rfl rfl
  | fence message =>
    exact moved_other (fun _ => ⟨rfl, rfl, rfl⟩) (absurd rfl) (.fence _ _) (fun _ _ => rfl)
      (Nat.le_refl _) rfl (failure_fence message) rfl rfl
  | fail =>
    exact moved_other (fun _ => .refl _ _) (fun _ => .refl _) (.refl _) (fun _ _ => rfl)
      (Nat.le_refl _) rfl id rfl rfl
  | reclaim hf =>
    have hk := (frame_step hf).keeps rfl
    exact moved_other (fun j => (frame_step hf).still j (by simp [stageOf])) (fun _ => hk)
      (frame_step hf).ends (fun q _ => congrFun hk.published q) hk.head.ge rfl id rfl rfl
  | next _ _ hf | validate _ _ _ hf | passBarrier _ _ _ _ hf | commitBarrier _ _ _ _ hf
  | store _ _ _ hf | complete _ _ _ _ hf =>
    exact moved_act h hf rfl rfl rfl rfl rfl rfl fun _ => rfl
  | prepare hp ho hc hf => exact moved_act h hf rfl rfl rfl rfl rfl rfl (absurd rfl)
  | coalesce hi hp ho h0 hn hf | coalesceNext hi hp ho hn hf =>
    rw [← goto_self (s := { s with flow := _ })]
    exact moved_act h hf rfl rfl rfl rfl rfl rfl fun _ => rfl
  | drained hi hp hn hc hh hf =>
    have hg := gone_dropStage hf
    exact moved_worker rfl hg.keeps hg.ends hg.still rfl id (fun _ => rfl) fun _ => rfl
  | cancelled hi hp ho hf => exact absurd rfl (h.handed ho).2.2
  | markValidated | group | await | takeEpoch | publish =>
    exact moved_goto rfl rfl rfl rfl (fun _ => rfl) rfl
  | markPublished => exact moved_goto rfl rfl rfl rfl (absurd rfl) rfl
  | bail hi hf hl hu | panic hi hl hu =>
    have hg := gone_unwound hu
    exact moved_worker rfl hg.keeps hg.ends hg.still rfl id (fun _ => rfl) fun _ => rfl
  | leave hi hp hl | leaveLast hi hp hl hf =>
    rcases finished_eq (s := s) _ _ with hx | hx <;> rw [hx]
    · exact moved_goto rfl rfl rfl rfl (fun _ => rfl) rfl
    · exact moved_worker rfl ⟨rfl, rfl, rfl, rfl⟩ (.fence _ _) (fun _ _ => ⟨rfl, rfl, rfl⟩) rfl
        (failure_fence _) (fun _ => rfl) fun _ => rfl

theorem parents_shape {i : Nat} (hi : i < 3) : c.shape.parents (i + 1) = [i] := by
  obtain rfl | rfl | rfl : i = 0 ∨ i = 1 ∨ i = 2 := by omega
  all_goals rfl

theorem Inv.cursors (h : Inv s) : s.flow.core.finished 3 ≤ s.flow.core.finished 2 ∧
    s.flow.core.finished 2 ≤ s.flow.core.finished 1 ∧
    s.flow.core.finished 1 ≤ s.flow.core.finished 0 ∧
    s.flow.core.finished 0 ≤ s.flow.core.head := by
  have hchain : ∀ i < 3, s.flow.core.finished (i + 1) ≤ s.flow.core.finished i := fun i hi =>
    h.ring.cursor_le_parent (i + 1) (show i + 1 < 4 by omega) i (by simp [parents_shape hi])
  exact ⟨hchain 2 (by decide), hchain 1 (by decide), hchain 0 (by decide),
    (h.ring.owners 0).cursor_le.trans h.ring.handed_le_head⟩

-- The size of a group

def rowSum (entries : List Entry) : Nat := (entries.map fun e => e.event.rows).sum

theorem groupCount_ok (validated count rows bytes : Nat) (entries : List Entry)
    (hc : count < c.maxGroupRequests) (hr : rows ≤ c.maxGroupRows) :
    ∃ k ≤ entries.length, groupCount c validated count rows bytes entries = count + k ∧
      count + k ≤ c.maxGroupRequests ∧ rows + rowSum (entries.take k) ≤ c.maxGroupRows := by
  induction entries generalizing count rows bytes with
  | nil => exact ⟨0, Nat.le_refl _, rfl, hc.le, by simpa [rowSum] using hr⟩
  | cons entry entries ih =>
    simp only [groupCount]
    split_ifs with h1 h2 h3
    · exact ⟨0, Nat.zero_le _, rfl, hc.le, by simpa [rowSum] using hr⟩
    · exact ⟨0, Nat.zero_le _, rfl, hc.le, by simpa [rowSum] using hr⟩
    · simp only [not_or, not_lt] at h2
      exact ⟨1, by simp, rfl, hc, by simpa [rowSum] using h2.2.1⟩
    · simp only [not_or, not_lt] at h2 h3
      obtain ⟨k, hk, he, hn, hs⟩ := ih (count + 1) (rows + entry.event.rows)
        (bytes + entry.event.bytes) (by omega) h2.2.1
      refine ⟨k + 1, by simpa using hk, by rw [he]; omega, by omega, ?_⟩
      simp only [rowSum, List.take_succ_cons, List.map_cons, List.sum_cons] at hs ⊢
      omega

/-- The rows of the event published under a sequence. -/
def rowsAt (published : Nat → Option (Option Event)) (q : Nat) : Nat :=
  match published q with
  | some (some e) => e.rows
  | _ => 0

def rowsFrom (published : Nat → Option (Option Event)) (first n : Nat) : Nat :=
  ((List.range' first n).map (rowsAt published)).sum

theorem rowsFrom_congr {pub pub' : Nat → Option (Option Event)} {first n head : Nat}
    (h : ∀ q ≤ head, pub' q = pub q) (hn : first + n ≤ head + 1) :
    rowsFrom pub' first n = rowsFrom pub first n := by
  refine congrArg List.sum (List.map_congr_left fun q hq => ?_)
  rw [List.mem_range'_1] at hq
  rw [rowsAt, rowsAt, h q (by omega)]

theorem range'_filter_le {a n q : Nat} (ha : a ≤ q) (hq : q ≤ a + n) :
    (List.range' a n).filter (fun x => q ≤ x) = List.range' q (a + n - q) := by
  have hsplit : List.range' a n = List.range' a (q - a) ++ List.range' q (a + n - q) := by
    have := List.range'_append_1 (s := a) (m := q - a) (n := a + n - q)
    rw [show a + (q - a) = q by omega, show q - a + (a + n - q) = n by omega] at this
    exact this.symm
  rw [hsplit, List.filter_append]
  have hlow : (List.range' a (q - a)).filter (fun x => q ≤ x) = [] := by
    rw [List.filter_eq_nil_iff]
    intro x hx
    rw [List.mem_range'_1] at hx
    simp only [decide_eq_true_eq]
    omega
  have hhigh : (List.range' q (a + n - q)).filter (fun x => q ≤ x) = List.range' q (a + n - q) := by
    rw [List.filter_eq_self]
    intro x hx
    rw [List.mem_range'_1] at hx
    simpa using hx.1
  rw [hlow, hhigh, List.nil_append]

theorem Inv.entries_from (h : Inv s) {i q : Nat} (hi : i < 4) (hw : s.workers i ≠ .stopped)
    (hq : s.flow.core.finished 3 < q) (hle : q ≤ s.flow.core.head) :
    (s.book.entries.filter fun e => q ≤ e.sequence).map Entry.sequence =
      List.range' q (s.flow.core.head + 1 - q) := by
  obtain ⟨-, hes⟩ := h.entries_eq hi hw
  have hfilter : (s.book.entries.filter fun e => q ≤ e.sequence).map Entry.sequence =
      (s.book.entries.map Entry.sequence).filter fun x => q ≤ x := by
    rw [List.filter_map]
    rfl
  rw [hfilter, hes, range'_filter_le (by omega) (by omega)]
  congr 1
  omega

theorem Inv.rowSum_take (h : Inv s) {i q k : Nat} (hi : i < 4) (hw : s.workers i ≠ .stopped)
    (hq : s.flow.core.finished 3 < q) (hle : q ≤ s.flow.core.head)
    (hk : k ≤ (s.book.entries.filter fun e => q ≤ e.sequence).length) :
    q + k ≤ s.flow.core.head + 1 ∧
      rowSum ((s.book.entries.filter fun e => q ≤ e.sequence).take k) =
        rowsFrom s.flow.published q k := by
  have hmap := h.entries_from hi hw hq hle
  have hlen := congrArg List.length hmap
  rw [List.length_map, List.length_range'] at hlen
  have hfit : q + k ≤ s.flow.core.head + 1 := by omega
  refine ⟨hfit, ?_⟩
  have htake : ((s.book.entries.filter fun e => q ≤ e.sequence).take k).map Entry.sequence =
      List.range' q k := by
    rw [List.map_take, hmap, List.take_range'_of_length_ge (by omega)]
  rw [rowsFrom, ← htake, List.map_map, rowSum]
  refine congrArg List.sum (List.map_congr_left fun e he => ?_)
  have hmem : e ∈ s.book.pending := by
    have := List.mem_of_mem_take he
    exact List.mem_append_left _ (List.mem_filter.mp this).1
  simp [rowsAt, h.accounts.owned e hmem]

theorem Inv.groupLen_ok (h : Inv s) {q : Nat} (hw : s.workers 1 ≠ .stopped)
    (hq : s.flow.core.finished 3 < q) (hle : q ≤ s.flow.core.head) :
    groupLen s q ≤ c.maxGroupRequests ∧ q + groupLen s q ≤ s.flow.core.head + 1 ∧
      rowsFrom s.flow.published q (groupLen s q) ≤ c.maxGroupRows := by
  obtain ⟨k, hk, he, hn, hs⟩ := groupCount_ok (c := c) s.validated 0 0 128
    (s.book.entries.filter fun e => q ≤ e.sequence) c.requests_pos (Nat.zero_le _)
  rw [Nat.zero_add] at he hn hs
  obtain ⟨hfit, hrows⟩ := h.rowSum_take (i := 1) (by decide) hw hq hle hk
  rw [groupLen, he]
  cases k with
  | zero =>
    -- the first request alone, which admission bounded
    obtain ⟨e, hpub, hrow⟩ := h.events q (by omega) hle
    refine ⟨c.requests_pos, by omega, ?_⟩
    simpa [rowsFrom, rowsAt, hpub] using hrow
  | succ k =>
    rw [max_eq_left (by omega)]
    exact ⟨hn, hfit, hrows ▸ hs⟩

-- Preparation in ring order

/-- The prepared groups, and the one preparation is about to take from the ring. -/
structure Prepared (s : State c) : Prop where
  ordered : s.prepared.Pairwise fun a b => a.1 + a.2.length ≤ b.1
  limits : ∀ g ∈ s.prepared, g.2.length ≤ c.maxGroupRequests ∧
    (g.2.map Event.rows).sum ≤ c.maxGroupRows
  behind : ∀ g ∈ s.prepared, g.1 + g.2.length ≤ s.flow.core.finished 1 + 1
  stream : ∀ g ∈ s.prepared, ∀ k e, g.2[k]? = some e →
    s.flow.published (g.1 + k) = some (some e)
  grouping : ∀ n, s.workers 1 = .grouping n → n ≤ c.maxGroupRequests ∧
    s.flow.core.finished 1 + n ≤ s.flow.core.head ∧
    rowsFrom s.flow.published (s.flow.core.finished 1 + 1) n ≤ c.maxGroupRows

theorem Prepared.published (h : Prepared s) (hi : Inv s) (hm : Moved l s s')
    {g : Nat × List Event} (hg : g ∈ s.prepared) {k : Nat} {e : Event} (hk : g.2[k]? = some e) :
    s'.flow.published (g.1 + k) = some (some e) := by
  have hlt := (List.getElem?_eq_some_iff.mp hk).1
  have hb := h.behind g hg
  have hcur := hi.cursors
  rw [hm.published _ (by omega)]
  exact h.stream g hg k e hk

theorem Prepared.frame (h : Prepared s) (hi : Inv s) (hm : Moved l s s')
    (hp : s'.prepared = s.prepared) (hf : s.flow.core.finished 1 ≤ s'.flow.core.finished 1)
    (hg : ∀ n, s'.workers 1 = .grouping n → s.workers 1 = .grouping n ∧
      s'.flow.core.finished 1 = s.flow.core.finished 1) : Prepared s' := by
  refine ⟨by rw [hp]; exact h.ordered, by rw [hp]; exact h.limits, ?_, ?_, ?_⟩
  · intro g hmem
    rw [hp] at hmem
    exact (h.behind g hmem).trans (by omega)
  · intro g hmem k e hk
    exact h.published hi hm (hp ▸ hmem) hk
  · intro n hn
    obtain ⟨hn', he⟩ := hg n hn
    obtain ⟨h1, h2, h3⟩ := h.grouping n hn'
    have hhead := hm.head
    rw [he]
    refine ⟨h1, by omega, ?_⟩
    rw [rowsFrom_congr hm.published (by omega)]
    exact h3

theorem Prepared.idle {pc : Pc} (h : Prepared s) (hi : Inv s) (hm : Moved l s s')
    (hp : s'.prepared = s.prepared) (hf : s'.flow.core.finished 1 = s.flow.core.finished 1)
    (hw : s'.workers 1 = pc) (hpc : ∀ n, pc ≠ .grouping n) : Prepared s' :=
  h.frame hi hm hp hf.ge fun n hn => absurd (hw.symm.trans hn) (hpc n)

theorem rowsFrom_map {pub : Nat → Option (Option Event)} {first : Nat} {events : List Event}
    (h : ∀ k v, (events.map some)[k]? = some v → pub (first + k) = some v) :
    rowsFrom pub first events.length = (events.map Event.rows).sum := by
  refine congrArg List.sum (List.ext_getElem (by simp) fun k hk hk' => ?_)
  have hlt : k < events.length := by simpa using hk'
  have hk := h k (some events[k]) (by simp [hlt])
  simp only [List.getElem_map, List.getElem_range', Nat.one_mul, rowsAt, hk]

theorem prepared_prepare (hi : Inv s) (h : Prepared s) {first : Nat} {events : List Event}
    {epoch : Epoch} {f : Ring c} (hp : s.workers 1 = .grouping events.length)
    (ho : s.flow.owners 1 = .batch first (events.map some))
    (hf : s.flow.step (.finish 1) = .ok f)
    (hm : Moved l s (s.prepare f first events epoch)) :
    Prepared (s.prepare f first events epoch) := by
  have hown := hi.ring.owners 1
  have htells := Flow.tells_of_reachable hi.reach 1
  rw [ho] at hown htells
  obtain ⟨hfirst, hne, -⟩ : first = s.flow.core.finished 1 + 1 ∧ events.map some ≠ [] ∧ _ := hown
  have hpos : 0 < events.length := List.length_pos_iff.mpr fun hx => hne (by simp [hx])
  obtain ⟨h1, h2, h3⟩ := h.grouping _ hp
  have hfin : f.core.finished 1 = s.flow.core.finished 1 + events.length := by
    obtain ⟨q, v, ho', rfl⟩ | ⟨first', values', ho', rfl⟩ := finish_ok hf
    · cases ho.symm.trans ho'
    · obtain ⟨rfl, rfl⟩ := Flow.Owner.batch.inj (ho.symm.trans ho')
      simp only [Flow.State.finishAt_finished, if_true, List.length_map]
      omega
  have hrows : (events.map Event.rows).sum ≤ c.maxGroupRows := by
    rw [← hfirst, rowsFrom_map htells] at h3
    exact h3
  refine ⟨?_, ?_, ?_, ?_, fun n hn => by simp [State.prepare] at hn⟩
  · show (s.prepared ++ [(first, events)]).Pairwise _
    rw [List.pairwise_append]
    refine ⟨h.ordered, List.pairwise_singleton _ _, fun a ha b hb => ?_⟩
    obtain rfl := List.mem_singleton.mp hb
    have := h.behind a ha
    show _ ≤ first
    omega
  · intro g hg
    rcases List.mem_append.mp hg with hg | hg
    · exact h.limits g hg
    · obtain rfl := List.mem_singleton.mp hg
      exact ⟨h1, hrows⟩
  · intro g hg
    show _ ≤ f.core.finished 1 + 1
    rcases List.mem_append.mp hg with hg | hg
    · have := h.behind g hg
      omega
    · obtain rfl := List.mem_singleton.mp hg
      show first + events.length ≤ _
      omega
  · intro g hg k e hk
    rcases List.mem_append.mp hg with hg | hg
    · exact h.published hi hm hg hk
    · obtain rfl := List.mem_singleton.mp hg
      have hpub := htells k (some e) (by simp [hk])
      rw [hm.published _ (hi.ring.published _ _ hpub).2]
      exact hpub

theorem prepared_step (hi : Inv s) (h : Prepared s) (hs : Step s l s') : Prepared s' := by
  have hm := moved_step hi hs
  by_cases hl : l.actor = some 1
  · cases hs with
    | next hi' hp hf hd =>
      obtain rfl := Option.some.inj hl
      exact h.idle hi hm rfl (congrFun (nextUntil_finished hf) 1) goto_worker (by simp)
    | drained hi' hp hn hc hh hf =>
      obtain rfl := Option.some.inj hl
      exact h.idle hi hm rfl (congrFun (gone_dropStage hf).finished 1)
        goto_worker (by simp)
    | cancelled hi' hp ho hf => exact absurd rfl (hi.handed ho).2.2
    | passBarrier hp ho hw hc hf =>
      exact h.frame hi hm rfl (hi.finishes hf).2.2.1.le fun n hn => by simp [State.finishCell] at hn
    | group hp ho hw hn he =>
      rename_i q e
      have hown := hi.ring.owners 1
      rw [ho] at hown
      have hq : q = s.flow.core.finished 1 + 1 := hown.1
      have hcur := hi.cursors
      obtain ⟨h1, h2, h3⟩ := hi.groupLen_ok (q := q) (by simp [hp]) (by omega) (hi.handed ho).2.1
      refine ⟨h.ordered, h.limits, h.behind, h.stream, fun n hn' => ?_⟩
      rw [goto_workers, if_pos rfl] at hn'
      obtain rfl := Pc.grouping.inj hn'
      refine ⟨h1, ?_, ?_⟩
      · show s.flow.core.finished 1 + _ ≤ s.flow.core.head
        omega
      · show rowsFrom s.flow.published (s.flow.core.finished 1 + 1) _ ≤ _
        rw [← hq]
        exact h3
    | coalesce hi' hp ho h0 hn hf =>
      obtain ⟨first, v, rfl⟩ := Flow.coalesce_open hn h0 hf
      exact h.frame hi hm rfl (Nat.le_refl _) fun n hn => ⟨hn, rfl⟩
    | coalesceNext hi' hp ho hn hf =>
      obtain ⟨first, values, limit, -, ⟨v, -, rfl⟩ | rfl⟩ := Flow.coalesceNext_open hn hf
      · exact h.frame hi hm rfl (Nat.le_refl _) fun n hn => ⟨hn, rfl⟩
      · exact h.frame hi hm rfl (Nat.le_refl _) fun n hn => ⟨hn, rfl⟩
    | prepare hp ho hc hf => exact prepared_prepare hi h hp ho hf hm
    | await hp hl => exact h.idle hi hm rfl rfl goto_worker (by simp)
    | bail hi' hx hlost hf | panic hi' hlost hf =>
      obtain rfl := Option.some.inj hl
      exact h.idle hi hm rfl (congrFun (gone_unwound hf).finished 1)
        goto_worker (by simp)
    | leave hi' hp hl' | leaveLast hi' hp hl' hf =>
      obtain rfl := Option.some.inj hl
      rcases finished_eq (s := s) _ _ with hx | hx <;> rw [hx] at hm ⊢ <;>
        exact h.idle hi hm rfl rfl goto_worker (by simp)
    | _ => simp [Label.actor] at hl
  · obtain ⟨hstill, hw⟩ := hm.still 1 hl
    exact h.frame hi hm (hm.prepared (by rintro rfl; exact hl rfl)) hstill.finished.ge fun n hn =>
      ⟨hw ▸ hn, hstill.finished⟩

end Varve.Ingest
