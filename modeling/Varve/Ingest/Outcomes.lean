import Varve.Ingest.Groups

/-!
# Terminal outcomes

What holds of the pipeline in every state that callers, workers and panics can reach.
-/

namespace Varve.Ingest

variable {c : Config} {s s' : State c}

-- Requests without a result

def eventAt (s : State c) (q : Nat) : Option Event := (s.flow.published q).join

/-- The accepted events that have no result, in the order of the ring. -/
def unanswered (s : State c) : List Nat :=
  (List.range' 1 s.flow.core.head).filter fun q => (s.book.results q).isEmpty

def unansweredWrites (s : State c) : List Event :=
  ((unanswered s).filterMap (eventAt s)).filter (·.write)

theorem mem_unanswered {q : Nat} :
    q ∈ unanswered s ↔ (0 < q ∧ q ≤ s.flow.core.head) ∧ s.book.results q = [] := by
  rw [unanswered, List.mem_filter, List.mem_range'_1, List.isEmpty_iff]
  exact and_congr_left' (by omega)

theorem Inv.unanswered_perm (h : Inv s) :
    (s.book.pending.map Entry.sequence).Perm (unanswered s) := by
  have hn : (unanswered s).Nodup := List.Nodup.filter _ List.nodup_range'
  refine (List.perm_ext_iff_of_nodup h.accounts.nodup hn).mpr fun q => ?_
  rw [mem_unanswered]
  constructor
  · intro hq
    obtain ⟨e, he, rfl⟩ := List.mem_map.mp hq
    have hle := h.ring.published _ _ (h.accounts.owned e he)
    rcases h.accounts.once _ hle.1 hle.2 with hx | hx
    · exact ⟨hle, hx.2⟩
    · exact absurd hq hx.1
  · rintro ⟨⟨h0, hle⟩, hq⟩
    rcases h.accounts.once q h0 hle with hx | hx
    · exact hx.1
    · simp [hq] at hx

theorem Inv.writes_perm (h : Inv s) :
    ((s.book.pending.filter (·.event.write)).map Entry.event).Perm (unansweredWrites s) := by
  have hmap : (s.book.pending.map Entry.sequence).filterMap (eventAt s) =
      s.book.pending.map Entry.event := by
    rw [List.filterMap_map, ← List.filterMap_eq_map]
    exact List.filterMap_congr fun e he => by simp [eventAt, h.accounts.owned e he]
  have hperm := (h.unanswered_perm.filterMap (eventAt s)).filter (·.write)
  rw [hmap, List.filter_map] at hperm
  exact hperm

/-- What the callers of the pipeline see of a request and of the counters. -/
structure Settling (s : State c) : Prop where
  once : ∀ q, (s.book.results q).length ≤ 1
  accepted : ∀ q, s.book.results q ≠ [] → 0 < q ∧ q ≤ s.flow.core.head
  requests : s.book.pendingRequests = (unansweredWrites s).length
  bytes : s.book.pendingBytes = ((unansweredWrites s).map Event.bytes).sum
  budget : s.book.pendingBytes ≤ c.maxPendingBytes
  stopped : (∀ i < 4, s.workers i = .stopped) → s.book.doomed = [] →
    unanswered s = [] ∧ s.book.pendingRequests = 0 ∧ s.book.pendingBytes = 0

theorem settling (h : (machine c).Reachable s) : Settling s := by
  have hinv := inv_of_reachable h
  have hreq : s.book.pendingRequests = (unansweredWrites s).length := by
    rw [hinv.accounts.requests, ← hinv.writes_perm.length_eq, List.length_map]
  have hbytes : s.book.pendingBytes = ((unansweredWrites s).map Event.bytes).sum := by
    rw [hinv.accounts.bytes, ← (hinv.writes_perm.map Event.bytes).sum_eq, List.map_map]
    rfl
  refine ⟨fun q => ?_, fun q hq => ?_, hreq, hbytes, hinv.accounts.budget, fun hs hd => ?_⟩
  · by_cases hq : 0 < q ∧ q ≤ s.flow.core.head
    · rcases hinv.accounts.once q hq.1 hq.2 with hx | hx <;> simp [hx.2]
    · simp [hinv.accounts.silent q (by omega)]
  · by_contra hx
    exact hq (hinv.accounts.silent q (by omega))
  · have hnil : unanswered s = [] := by
      have hentries : s.book.entries = [] := hinv.registry.elim (fun hx => hx.2.2 hs) fun hx => hx.1
      exact List.nil_perm.mp (by simpa [Book.pending, hentries, hd] using hinv.unanswered_perm)
    exact ⟨hnil, by simp [hreq, unansweredWrites, hnil], by simp [hbytes, unansweredWrites, hnil]⟩

-- Groups

theorem groups_of_reachable (h : (machine c).Reachable s) : Inv s ∧ Prepared s := by
  refine h.invariant (I := fun s => Inv s ∧ Prepared s) (fun _ h0 => ?_) fun _ _ _ ih hs =>
    ⟨inv_step ih.1 hs, prepared_step ih.1 ih.2 hs⟩
  subst h0
  refine ⟨inv_new c, ⟨.nil, ?_, ?_, ?_, ?_⟩⟩ <;> simp [new]

/-- Preparation cuts the stream into groups within the limits, one behind the other. -/
theorem prepared_in_order (h : (machine c).Reachable s) :
    s.prepared.Pairwise (fun a b => a.1 + a.2.length ≤ b.1) ∧
      ∀ g ∈ s.prepared, g.2.length ≤ c.maxGroupRequests ∧
        (g.2.map Event.rows).sum ≤ c.maxGroupRows ∧
        ∀ k e, g.2[k]? = some e → s.flow.published (g.1 + k) = some (some e) := by
  obtain ⟨-, hp⟩ := groups_of_reachable h
  exact ⟨hp.ordered, fun g hg => ⟨(hp.limits g hg).1, (hp.limits g hg).2, hp.stream g hg⟩⟩

-- A request from its submission to its receipt

def sample : Config where
  queueCapacity := 4
  maxPendingBytes := 1000
  maxGroupRequests := 2
  maxGroupRows := 10
  maxGroupBytes := 512
  capacity_pos := by decide
  capacity_le := by decide
  pending_pos := by decide
  requests_pos := by decide

def request : Event := ⟨10, 3, true⟩

def epoch7 : Epoch := ⟨[some 7], some 7⟩

theorem sample_run : ∃ s : State sample, (machine sample).Reachable s ∧
    s.book.results 1 = [some 7] ∧ s.prepared = [(1, [request]), (2, [request])] := by
  have h0 : (machine sample).Reachable (new sample) := .init rfl
  have h1 := h0.step (Step.submit (e := request) (q := 1) rfl (by decide) (by decide) (by decide)
    rfl (by decide) rfl rfl rfl rfl)
  have h2 := h1.step (Step.next (i := 0) (by decide) rfl rfl rfl)
  have h3 := h2.step (Step.validate rfl rfl rfl rfl)
  have h4 := h3.step (Step.markValidated rfl)
  have h5 := h4.step (Step.next (i := 1) (by decide) rfl rfl rfl)
  have h6 := h5.step (Step.group rfl rfl rfl rfl ⟨⟨1, request⟩, by decide, rfl⟩)
  have h7 := h6.step (Step.coalesce (i := 1) (by decide) rfl rfl (by decide) rfl rfl)
  have h8 := h7.step (Step.coalesceNext (i := 1) (by decide) rfl rfl rfl rfl)
  have h9 := h8.step (show Step _ _ (State.prepare _ _ 1 [request] epoch7) from
    Step.prepare rfl rfl (by decide) rfl)
  have h10 := h9.step (Step.next (i := 2) (by decide) rfl rfl rfl)
  have h11 := h10.step (Step.takeEpoch rfl rfl rfl rfl)
  have h12 := h11.step (Step.coalesce (i := 2) (by decide) rfl rfl (by decide) rfl rfl)
  have h13 := h12.step (Step.coalesceNext (i := 2) (by decide) rfl rfl rfl rfl)
  have h14 := h13.step (Step.publish true rfl rfl rfl (by decide))
  have h15 := h14.step (Step.store rfl rfl rfl rfl)
  have h16 := h15.step (Step.next (i := 3) (by decide) rfl rfl rfl)
  have h17 := h16.step (Step.complete rfl rfl (show (⟨1, request⟩ : Entry) ∈ _ by decide) rfl rfl)
  have h18 := h17.step (Step.submit (e := request) (q := 2) rfl (by decide) (by decide)
    (by decide) rfl (by decide) rfl rfl rfl rfl)
  have h19 := h18.step (Step.next (i := 0) (by decide) rfl rfl rfl)
  have h20 := h19.step (Step.validate rfl rfl rfl rfl)
  have h21 := h20.step (Step.markValidated rfl)
  have h22 := h21.step (Step.markPublished rfl)
  have h23 := h22.step (Step.await rfl (by decide))
  have h24 := h23.step (Step.next (i := 1) (by decide) rfl rfl rfl)
  have h25 := h24.step (Step.group rfl rfl rfl rfl ⟨⟨2, request⟩, by decide, rfl⟩)
  have h26 := h25.step (Step.coalesce (i := 1) (by decide) rfl rfl (by decide) rfl rfl)
  have h27 := h26.step (Step.coalesceNext (i := 1) (by decide) rfl rfl rfl rfl)
  have h28 := h27.step (show Step _ _ (State.prepare _ _ 2 [request] epoch7) from
    Step.prepare rfl rfl (by decide) rfl)
  exact ⟨_, h28, rfl, rfl⟩

theorem settling_sample : ∃ s : State sample, (machine sample).Reachable s ∧
    s.book.results 1 = [some 7] ∧ Settling s := by
  obtain ⟨s, h, hr, -⟩ := sample_run
  exact ⟨s, h, hr, settling h⟩

theorem prepared_in_order_sample : ∃ s : State sample, (machine sample).Reachable s ∧
    s.prepared = [(1, [request]), (2, [request])] ∧
    s.flow.published 1 = some (some request) ∧ s.flow.published 2 = some (some request) := by
  obtain ⟨s, h, -, hp⟩ := sample_run
  obtain ⟨-, hgroup⟩ := prepared_in_order h
  exact ⟨s, h, hp, (hgroup (1, [request]) (by simp [hp])).2.2 0 request rfl,
    (hgroup (2, [request]) (by simp [hp])).2.2 0 request rfl⟩

end Varve.Ingest
