import Varve.Flow.Frame
import Varve.Ingest.Workers

/-!
# The registry of requests

Every request that was admitted stands in the registry until it gets its one result, from
completion or from the last worker of a fenced stream.
-/

namespace Varve.Ingest

open Varve.Flow (Keeps Still Ends frame_step finish_ok stageOf)

variable {c : Config} {s s' : State c}

-- Calls on the ring

abbrev Reached (f : Ring c) : Prop := (Flow.machine c.shape Event).Reachable f

section
variable {f f' : Ring c} {i : Nat}

/-- A worker that is gone leaves its stage dropped and the rest as it was. -/
structure Gone (f f' : Ring c) (i : Nat) : Prop where
  reach : Reached f → Reached f'
  keeps : Keeps f f'
  ends : Ends f.core f'.core
  still : ∀ j, j ≠ i → Still f f' j
  owner : f'.owners i = .dropped
  live : f.owners i ≠ .dropped
  finished : f'.core.finished = f.core.finished

theorem gone_dropStage (h : f.step (.dropStage i) = .ok f') : Gone f f' i := by
  have hframe := frame_step h
  have hstill : ∀ j, j ≠ i → Still f f' j := fun j hj =>
    hframe.still j (by simpa [stageOf] using hj.symm)
  obtain ⟨ho, ⟨-, -, rfl⟩ | rfl⟩ := Flow.dropStage_ok h
  · exact ⟨fun hr => .step hr h, hframe.keeps rfl, hframe.ends, hstill, by simp, by simp [ho], rfl⟩
  · exact ⟨fun hr => .step hr h, hframe.keeps rfl, hframe.ends, hstill, by simp [Flow.State.fence],
      by simp [ho], rfl⟩

theorem gone_unwound (h : Unwound f i f') : Gone f f' i := by
  cases h with
  | idle _ hs => exact gone_dropStage hs
  | holding hd hs =>
    have hg := gone_dropStage hs
    have hframe := frame_step hd
    obtain ⟨hlive, message, rfl⟩ := Flow.dropDelivery_ok hd
    exact ⟨fun hr => hg.reach (.step hr hd), (hframe.keeps rfl).trans hg.keeps,
      hframe.ends.trans hg.ends, fun j hj =>
      (hframe.still j (by simpa [stageOf] using hj.symm)).trans (hg.still j hj), hg.owner, hlive,
      hg.finished⟩

/-- An admitted event has the next sequence and is published under it. -/
structure Claimed (f f' : Ring c) (q : Nat) (e : Event) : Prop where
  reach : Reached f → Reached f'
  reservations : f'.reservations = []
  claims : f'.claims = []
  sequence : q = f.core.head + 1
  head : f'.core.head = f.core.head + 1
  published : f'.published = Function.update f.published q (some (some e))
  still : ∀ j, Still f f' j
  ends : Ends f.core f'.core
  unclosed : f.core.closed = false

theorem reserve_ok {bytes : Nat} {f₁ : Ring c} (hr0 : f.reservations = [])
    (hr : f.step (.reserve bytes) = .ok f₁) (ha : f₁.step (.advance bytes) = .ok f') :
    f₁ = { f with
      core := { f.core with charged := f.core.charged + bytes }
      reservations := [bytes] } := by
  simp only [Flow.State.step, Flow.State.reserve] at hr
  split at hr
  · cases hr
    simp [Flow.State.step, Flow.State.advance, hr0] at ha
  · rename_i core hcore
    cases hr
    unfold Flow.Core.reserve at hcore
    split_ifs at hcore
    cases hcore
    rw [hr0]

theorem claimed_ok {q bytes : Nat} {e : Event} {f₁ f₂ : Ring c} (hr0 : f.reservations = [])
    (hc0 : f.claims = []) (hr : f.step (.reserve bytes) = .ok f₁)
    (ha : f₁.step (.advance bytes) = .ok f₂) (hq : f₂.claims = [⟨q, bytes⟩])
    (hf : f₂.step (.publish ⟨q, bytes⟩ e) = .ok f') : Claimed f f' q e := by
  have hreach : Reached f → Reached f' := fun h => .step (.step (.step h hr) ha) hf
  have hends := ((frame_step hr).ends.trans (frame_step ha).ends).trans (frame_step hf).ends
  obtain rfl := reserve_ok hr0 hr ha
  simp only [Flow.State.step, Flow.State.advance, Flow.Core.advance, List.mem_cons,
    List.not_mem_nil, or_false, if_true, List.erase_cons_head] at ha
  split_ifs at ha with hopen
  · cases ha
    simp only [Bool.and_eq_true, Bool.not_eq_true'] at hopen
    simp only [hc0, List.cons.injEq, and_true, Flow.Claim.mk.injEq] at hq
    obtain rfl := hq
    simp only [Flow.State.step, Flow.State.publish, hc0, List.mem_cons, List.not_mem_nil,
      or_false, if_true, List.erase_cons_head] at hf
    cases hf
    exact ⟨hreach, rfl, rfl, rfl, rfl, rfl, fun j => ⟨rfl, rfl, rfl⟩, hends, hopen.1.1⟩
  all_goals
    cases ha
    simp [hc0] at hq

theorem refused_ok {bytes : Nat} {f₁ : Ring c} (hr0 : f.reservations = [])
    (hr : f.step (.reserve bytes) = .ok f₁) (ha : f₁.step (.advance bytes) = .ok f')
    (hq : f'.claims = []) : Keeps f f' ∧ ∀ j, Still f f' j := by
  refine ⟨?_, fun j => ((frame_step hr).still j (by simp [stageOf])).trans
    ((frame_step ha).still j (by simp [stageOf]))⟩
  obtain rfl := reserve_ok hr0 hr ha
  simp only [Flow.State.step, Flow.State.advance, Flow.Core.advance, List.mem_cons,
    List.not_mem_nil, or_false, if_true, List.erase_cons_head] at ha
  split_ifs at ha <;> cases ha
  · simp at hq
  all_goals exact ⟨rfl, rfl, rfl, hr0.symm⟩

end

-- The registry

def Book.pending (b : Book) : List Entry := b.entries ++ b.doomed

/-- Every sequence of the stream has its entry or its one result. -/
structure Accounts (f : Ring c) (b : Book) : Prop where
  owned : ∀ e ∈ b.pending, f.published e.sequence = some (some e.event)
  nodup : (b.pending.map Entry.sequence).Nodup
  once : ∀ q, 0 < q → q ≤ f.core.head →
    q ∈ b.pending.map Entry.sequence ∧ b.results q = [] ∨
      q ∉ b.pending.map Entry.sequence ∧ (b.results q).length = 1
  silent : ∀ q, q = 0 ∨ f.core.head < q → b.results q = []
  requests : b.pendingRequests = (b.pending.filter (·.event.write)).length
  bytes : b.pendingBytes = ((b.pending.filter (·.event.write)).map (·.event.bytes)).sum
  budget : b.pendingBytes ≤ c.maxPendingBytes

section
variable {f f' : Ring c} {b b' : Book} {entry : Entry}

theorem Accounts.frame (h : Accounts f b) (hk : Keeps f f') : Accounts f' b := by
  refine ⟨?_, h.nodup, ?_, ?_, h.requests, h.bytes, h.budget⟩
  · rw [hk.published]
    exact h.owned
  · rw [hk.head]
    exact h.once
  · rw [hk.head]
    exact h.silent

theorem Accounts.doom (h : Accounts f b) (hd : b.doomed = []) : Accounts f b.doom := by
  have hp : b.doom.pending = b.pending := by simp [Book.pending, Book.doom, hd]
  exact ⟨hp ▸ h.owned, hp ▸ h.nodup, hp ▸ h.once, h.silent, hp ▸ h.requests, hp ▸ h.bytes,
    h.budget⟩

theorem Accounts.enter {q : Nat} {e : Event} (hi : Flow.Inv f) (h : Accounts f b)
    (hf : Claimed f f' q e) (hd : b.doomed = [])
    (hb : (b.enter ⟨q, e⟩).pendingBytes ≤ c.maxPendingBytes) :
    Accounts f' (b.enter ⟨q, e⟩) := by
  have hq := hf.sequence
  have hp : (b.enter ⟨q, e⟩).pending = b.pending ++ [⟨q, e⟩] := by
    simp [Book.pending, Book.enter, hd]
  have hle : ∀ x ∈ b.pending, x.sequence ≤ f.core.head := fun x hx =>
    (hi.published _ _ (h.owned x hx)).2
  have hnew : q ∉ b.pending.map Entry.sequence := fun hx => by
    obtain ⟨x, hx, hxq⟩ := List.mem_map.mp hx
    have := hle x hx
    omega
  have hother : ∀ r, r ≤ f.core.head → f'.published r = f.published r := fun r hr => by
    rw [hf.published, Function.update_of_ne (by omega)]
  refine ⟨?_, ?_, ?_, ?_, ?_, ?_, hb⟩
  · rw [hp]
    simp only [List.mem_append, List.mem_singleton]
    rintro x (hx | rfl)
    · rw [hother _ (hle x hx)]
      exact h.owned x hx
    · rw [hf.published, Function.update_self]
  · rw [hp, List.map_append, List.nodup_append]
    refine ⟨h.nodup, by simp, ?_⟩
    rintro a ha b hb rfl
    simp only [List.map_cons, List.map_nil, List.mem_singleton] at hb
    exact hnew (hb ▸ ha)
  · intro r h0 hr
    rw [hp, List.map_append, List.mem_append]
    rw [hf.head] at hr
    by_cases hrq : r = q
    · exact .inl ⟨.inr (by simp [hrq]), h.silent r (by omega)⟩
    · simpa [hrq, Book.enter] using h.once r h0 (by omega)
  · intro r hr
    rw [hf.head] at hr
    exact h.silent r (by omega)
  · rw [hp, List.filter_append, List.length_append, ← h.requests]
    cases hw : e.write <;> simp [Book.enter, hw]
  · rw [hp, List.filter_append, List.map_append, List.sum_append, ← h.bytes]
    cases hw : e.write <;> simp [Book.enter, hw]

theorem Accounts.finish {result : Outcome} (hi : Flow.Inv f) (h : Accounts f b)
    (hp : b.pending = entry :: b'.pending) (hres : b'.results = b.results)
    (hr : b'.pendingRequests = b.pendingRequests) (hb : b'.pendingBytes = b.pendingBytes) :
    Accounts f (b'.finish entry result) := by
  have hpub := h.owned entry (by simp [hp])
  obtain ⟨h0, hle⟩ := hi.published _ _ hpub
  have hnodup := h.nodup
  rw [hp, List.map_cons, List.nodup_cons] at hnodup
  have hnone : b.results entry.sequence = [] := by
    rcases h.once _ h0 hle with hx | hx
    · exact hx.2
    · simp [hp] at hx
  have hresult : ∀ q, (b'.finish entry result).results q =
      if q = entry.sequence then [result] else b.results q := fun q => by
    simp only [Book.finish, hres]
    by_cases hq : q = entry.sequence
    · subst hq
      simp [hnone]
    · simp [hq]
  refine ⟨fun e he => h.owned e (by rw [hp]; exact List.mem_cons_of_mem _ he), hnodup.2, ?_, ?_,
    ?_, ?_, ?_⟩
  · intro q hq0 hq
    rw [hresult]
    show q ∈ b'.pending.map Entry.sequence ∧ _ ∨ q ∉ b'.pending.map Entry.sequence ∧ _
    by_cases hqe : q = entry.sequence
    · subst hqe
      exact .inr ⟨hnodup.1, by simp⟩
    · simpa [hp, hqe] using h.once q hq0 hq
  · intro q hq
    rw [hresult, if_neg (by omega)]
    exact h.silent q hq
  · show b'.pendingRequests - _ = (b'.pending.filter (·.event.write)).length
    rw [hr, h.requests, hp]
    cases hw : entry.event.write <;> simp [hw]
  · show b'.pendingBytes - _ = ((b'.pending.filter (·.event.write)).map (·.event.bytes)).sum
    rw [hb, h.bytes, hp]
    cases hw : entry.event.write <;> simp [hw]
  · show b'.pendingBytes - _ ≤ _
    rw [hb]
    exact (Nat.sub_le _ _).trans h.budget

end

-- The invariant

/-- What a worker holds of the ring at each point of its loop. -/
def PcOk (i : Nat) (o : Flow.Owner Event) : Pc → Prop
  | .idle => o = .idle
  | .finished _ => o = .idle ∧ (i = 0 ∨ i = 2)
  | .awaiting _ => o = .idle ∧ i = 1
  | .held => ∃ q v, o = .delivery q v
  | .grouping _ => (i = 1 ∨ i = 2) ∧ ((∃ q v, o = .delivery q v) ∨ (∃ first values limit,
      o = .coalescing first values limit) ∨ ∃ first values, o = .batch first values)
  | .published _ => i = 2 ∧ ∃ first values, o = .batch first values
  | .leaving _ | .stopped => o = .dropped

def running (pc : Pc) : Nat := if pc = .stopped then 0 else 1

/-- The registry has what completion has not finished, until the last worker empties it. -/
def Registered (f : Ring c) (closed stopped : Prop) (b : Book) : Prop :=
  b.doomed = [] ∧ b.entries.map Entry.sequence =
      List.range' (f.core.finished 3 + 1) (f.core.head - f.core.finished 3) ∧
    (stopped → b.entries = []) ∨
  b.entries = [] ∧ closed ∧ stopped

structure Inv (s : State c) : Prop where
  reach : Reached s.flow
  claims : s.flow.claims = []
  reservations : s.flow.reservations = []
  events : ∀ q, 0 < q → q ≤ s.flow.core.head →
    ∃ e, s.flow.published q = some (some e) ∧ e.rows ≤ c.maxGroupRows
  pcs : ∀ i < 4, PcOk i (s.flow.owners i) (s.workers i)
  left : s.workersLeft = running (s.workers 0) + running (s.workers 1) + running (s.workers 2) +
    running (s.workers 3)
  registry : Registered s.flow (s.closed = true) (∀ i < 4, s.workers i = .stopped) s.book
  accounts : Accounts s.flow s.book

theorem inv_new (c : Config) : Inv (new c) where
  reach := .init rfl
  claims := rfl
  reservations := rfl
  events q h0 hq := by simp [new, Flow.State.new, Flow.Core.new] at hq; omega
  pcs _ _ := rfl
  left := rfl
  registry := .inl ⟨rfl, rfl, fun _ => rfl⟩
  accounts :=
    { owned := by simp [Book.pending, new]
      nodup := by simp [Book.pending, new]
      once := fun q h0 hq => by simp [new, Flow.State.new, Flow.Core.new] at hq; omega
      silent := fun _ _ => rfl
      requests := rfl
      bytes := rfl
      budget := Nat.zero_le _ }

theorem Inv.ring (h : Inv s) : Flow.Inv s.flow := Flow.inv_of_reachable h.reach

@[simp] theorem goto_workers {i j : Nat} {pc : Pc} :
    (s.goto i pc).workers j = if j = i then pc else s.workers j := by
  by_cases h : j = i
  · subst h
    simp [State.goto]
  · simp [State.goto, h]

variable {i : Nat} {f : Ring c}

theorem goto_worker {pc : Pc} : (s.goto i pc).workers i = pc := by
  rw [goto_workers, if_pos rfl]

theorem goto_self (i : Nat) : s.goto i (s.workers i) = s := by
  simp [State.goto]

theorem Inv.not_stopped (h : Inv s) (hi : i < 4) (ho : s.flow.owners i ≠ .dropped) :
    s.workers i ≠ .stopped := fun hs => ho (by simpa [hs, PcOk] using h.pcs i hi)

theorem Inv.grouper (h : Inv s) {i n : Nat} (hi : i < 4) (hp : s.workers i = .grouping n) :
    i = 1 ∨ i = 2 := by
  have hpc := h.pcs i hi
  rw [hp] at hpc
  exact hpc.1

theorem Inv.entries_eq (h : Inv s) (hi : i < 4) (hw : s.workers i ≠ .stopped) :
    s.book.doomed = [] ∧ s.book.entries.map Entry.sequence =
      List.range' (s.flow.core.finished 3 + 1) (s.flow.core.head - s.flow.core.finished 3) := by
  obtain ⟨hd, he, -⟩ := h.registry.resolve_right fun hx => hw (hx.2.2 i hi)
  exact ⟨hd, he⟩

theorem Inv.dropped (h : Inv s) (ho : s.flow.owners i = .dropped) :
    s.flow.core.closed = true ∧
      (s.flow.core.failed.isSome ∨ s.flow.core.head ≤ s.flow.core.finished i) := by
  have := Flow.tells_of_reachable h.reach i
  rwa [ho] at this

theorem Inv.handed (h : Inv s) {i q : Nat} {v : Option Event}
    (ho : s.flow.owners i = .delivery q v) : 0 < q ∧ q ≤ s.flow.core.head ∧ v ≠ none := by
  have hown := h.ring.owners i
  have htells := Flow.tells_of_reachable h.reach i
  rw [ho] at hown htells
  obtain ⟨hq, hlen⟩ : q = s.flow.core.finished i + 1 ∧ (s.flow.delivered i).length = q := hown
  have hle := h.ring.handed_le_head (i := i)
  obtain ⟨e, he, -⟩ := h.events q (by omega) (by omega)
  refine ⟨by omega, by omega, ?_⟩
  rintro rfl
  cases he.symm.trans htells

theorem Inv.frame (h : Inv s) (hreach : Reached s'.flow) (hk : Keeps s.flow s'.flow)
    (hfin : s'.flow.core.finished 3 = s.flow.core.finished 3)
    (hpcs : ∀ i < 4, PcOk i (s'.flow.owners i) (s'.workers i))
    (hstop : ∀ i < 4, s'.workers i = .stopped ↔ s.workers i = .stopped)
    (hleft : s'.workersLeft = s.workersLeft) (hbook : s'.book = s.book)
    (hclosed : s.closed = true → s'.closed = true) : Inv s' := by
  have hall : (∀ i < 4, s'.workers i = .stopped) ↔ ∀ i < 4, s.workers i = .stopped :=
    forall₂_congr hstop
  have hrun : ∀ i < 4, running (s'.workers i) = running (s.workers i) := fun i hi => by
    simp [running, hstop i hi]
  refine ⟨hreach, hk.claims.trans h.claims, hk.reservations.trans h.reservations, ?_, hpcs, ?_, ?_,
    by rw [hbook]; exact h.accounts.frame hk⟩
  · rw [hk.head, hk.published]
    exact h.events
  · rw [hleft, h.left, hrun 0 (by decide), hrun 1 (by decide), hrun 2 (by decide),
      hrun 3 (by decide)]
  · rw [Registered, hbook, hfin, hk.head, hall]
    exact h.registry.imp_right fun hx => ⟨hx.1, hclosed hx.2.1, hx.2.2⟩

theorem Inv.move (h : Inv s) {t : State c} {pc : Pc} (hreach : Reached t.flow)
    (hk : Keeps s.flow t.flow) (hs : ∀ j, j ≠ i → Still s.flow t.flow j)
    (hfin : t.flow.core.finished 3 = s.flow.core.finished 3) (hw : t.workers = s.workers)
    (hbook : t.book = s.book) (hleft : t.workersLeft = s.workersLeft)
    (hclosed : t.closed = s.closed) (hpc : PcOk i (t.flow.owners i) pc)
    (hlive : s.workers i ≠ .stopped) (hpc' : pc ≠ .stopped) : Inv (t.goto i pc) := by
  refine h.frame hreach hk hfin ?_ ?_ hleft hbook (hclosed.trans ·)
  · intro j hj
    rw [goto_workers]
    show PcOk j (t.flow.owners j) _
    split
    next he =>
      subst he
      exact hpc
    next he =>
      rw [(hs j he).owner, hw]
      exact h.pcs j hj
  · intro j hj
    rw [goto_workers, hw]
    split
    next he =>
      subst he
      simp [hpc', hlive]
    next => rfl

-- Steps

theorem inv_enqueue (h : Inv s) {q : Nat} {e : Event} {p : Payload}
    (hf : Claimed s.flow f q e) (hrows : e.rows ≤ c.maxGroupRows) (ho : s.closed = false)
    (hb : (s.book.enter ⟨q, e⟩).pendingBytes ≤ c.maxPendingBytes) :
    Inv (s.enqueue f q e p) := by
  obtain ⟨hd, he, -⟩ := h.registry.resolve_right fun hx => by simp [ho] at hx
  refine ⟨hf.reach h.reach, hf.claims, hf.reservations, ?_, ?_, h.left, .inl ⟨hd, ?_, ?_⟩,
    h.accounts.enter h.ring hf hd hb⟩
  · intro r h0 hr
    show ∃ e, f.published r = _ ∧ _
    rw [hf.published]
    rw [show (s.enqueue f q e p).flow.core.head = _ from hf.head] at hr
    have hq := hf.sequence
    by_cases hrq : r = q
    · exact ⟨e, by rw [hrq, Function.update_self], hrows⟩
    · rw [Function.update_of_ne hrq]
      exact h.events r h0 (by omega)
  · intro i hi
    show PcOk i (f.owners i) _
    rw [(hf.still i).owner]
    exact h.pcs i hi
  · have hcur : s.flow.core.finished 3 ≤ s.flow.core.head :=
      (h.ring.owners 3).cursor_le.trans h.ring.handed_le_head
    show (s.book.entries ++ [(⟨q, e⟩ : Entry)]).map Entry.sequence =
      List.range' (f.core.finished 3 + 1) (f.core.head - f.core.finished 3)
    rw [List.map_append, he, (hf.still 3).finished, hf.head,
      show s.flow.core.head + 1 - s.flow.core.finished 3 =
        (s.flow.core.head - s.flow.core.finished 3) + 1 by omega, List.range'_concat]
    simp only [List.map_cons, List.map_nil, hf.sequence, Nat.one_mul]
    congr 2
    omega
  · intro hx
    -- a stage that is gone has closed the stream
    have hdrop : s.flow.owners 3 = .dropped := by
      simpa [show s.workers 3 = .stopped from hx 3 (by decide), PcOk] using h.pcs 3
    have := (h.dropped hdrop).1
    simp [hf.unclosed] at this

theorem Inv.first_entry (h : Inv s) {v : Option Event} {entry : Entry} (hp : s.workers 3 = .held)
    (ho : s.flow.owners 3 = .delivery entry.sequence v) (he : entry ∈ s.book.entries) :
    ∃ rest, s.book.entries = entry :: rest ∧ rest.map Entry.sequence =
      List.range' (entry.sequence + 1) (s.flow.core.head - entry.sequence) := by
  obtain ⟨hd, hes⟩ := h.entries_eq (i := 3) (by decide) (by simp [hp])
  have hle := (h.handed ho).2.1
  have hown := h.ring.owners 3
  rw [ho] at hown
  have hq : entry.sequence = s.flow.core.finished 3 + 1 := hown.1
  cases hc : s.book.entries with
  | nil => simp [hc] at he
  | cons e rest =>
    rw [hc, List.map_cons, show s.flow.core.head - s.flow.core.finished 3 =
      (s.flow.core.head - entry.sequence) + 1 by omega, List.range'_succ, List.cons.injEq] at hes
    have hnodup := h.accounts.nodup
    rw [Book.pending, hd, List.append_nil] at hnodup
    have heq : e = entry := List.inj_on_of_nodup_map hnodup (by simp [hc]) he (by omega)
    exact ⟨rest, by rw [heq], by rw [hes.2, hq]⟩

theorem inv_complete (h : Inv s) {e : Event} {entry : Entry} {result : Outcome}
    (hp : s.workers 3 = .held) (ho : s.flow.owners 3 = .delivery entry.sequence (some e))
    (he : entry ∈ s.book.entries) (hf : s.flow.step (.finish 3) = .ok f) :
    Inv (s.complete f entry result) := by
  obtain ⟨rest, hes, hrest⟩ := h.first_entry hp ho he
  obtain ⟨hd, -⟩ := h.entries_eq (i := 3) (by decide) (by simp [hp])
  have hframe := frame_step hf
  have hk := hframe.keeps rfl
  have hfin : f = s.flow.finishAt 3 entry.sequence := by
    obtain ⟨q, v, ho', rfl⟩ | ⟨first, values, ho', rfl⟩ := finish_ok hf
    · rw [(Flow.Owner.delivery.inj (ho.symm.trans ho')).1]
    · cases ho.symm.trans ho'
  have herase : s.book.entries.erase entry = rest := by rw [hes, List.erase_cons_head]
  have hbook : Accounts s.flow ((s.book.remove entry).finish entry result) := by
    refine h.accounts.finish h.ring ?_ rfl rfl rfl
    simp [Book.pending, Book.remove, hes]
  refine ⟨.step h.reach hf, hk.claims.trans h.claims, hk.reservations.trans h.reservations, ?_, ?_,
    ?_, .inl ⟨hd, ?_, fun hx => by simpa [State.complete] using hx 3 (by decide)⟩,
    hbook.frame hk⟩
  · show ∀ q, 0 < q → q ≤ f.core.head → ∃ e, f.published q = some (some e) ∧ e.rows ≤ _
    rw [hk.head, hk.published]
    exact h.events
  · intro i hi
    rw [State.complete, goto_workers]
    show PcOk i (f.owners i) _
    split
    next hi3 =>
      subst hi3
      simp [hfin, PcOk]
    next hi3 =>
      rw [(hframe.still i (by simpa [stageOf] using Ne.symm hi3)).owner]
      exact h.pcs i hi
  · show s.workersLeft = _
    rw [h.left]
    simp [State.complete, hp, running]
  · show (s.book.entries.erase entry).map Entry.sequence =
      List.range' (f.core.finished 3 + 1) (f.core.head - f.core.finished 3)
    have hf3 : f.core.finished 3 = entry.sequence := by simp [hfin]
    rw [herase, hrest, hk.head, hf3]

theorem inv_fail (h : Inv s) {entry : Entry} {doomed : List Entry}
    (hd : s.book.doomed = entry :: doomed) :
    Inv { s with book := { s.book with doomed }.finish entry none } := by
  have hreg := h.registry.resolve_left fun hx => by simp [hx.1] at hd
  refine { h with registry := .inr hreg, accounts := ?_ }
  refine h.accounts.finish h.ring ?_ rfl rfl rfl
  simp [Book.pending, hreg.1, hd]

theorem Inv.fence (h : Inv s) (message : String) : Inv (s.fence message) :=
  h.frame (Flow.reachable_step (.fence message) h.reach rfl) ⟨rfl, rfl, rfl, rfl⟩ rfl h.pcs
    (fun _ _ => .rfl) rfl rfl (fun _ => rfl)

theorem finished_eq (clean : Bool) (message : String) :
    s.finished clean message = s ∨ s.finished clean message = s.fence message := by
  unfold State.finished
  split <;> simp

theorem Inv.finished (h : Inv s) (clean : Bool) (message : String) :
    Inv (s.finished clean message) ∧ (s.finished clean message).workers = s.workers ∧
      (s.finished clean message).workersLeft = s.workersLeft ∧
      (s.finished clean message).book = s.book ∧
      ((s.finished clean message).flow.core.fenced = true →
        (s.finished clean message).closed = true) := by
  unfold State.finished
  split
  next hx => exact ⟨h, rfl, rfl, rfl, fun hf => by simp [hx.2] at hf⟩
  next => exact ⟨h.fence message, rfl, rfl, rfl, fun _ => rfl⟩

theorem forall_worker {P : Nat → Prop} : (∀ j < 4, P j) ↔ P 0 ∧ P 1 ∧ P 2 ∧ P 3 := by
  refine ⟨fun h => ⟨h 0 (by decide), h 1 (by decide), h 2 (by decide), h 3 (by decide)⟩, ?_⟩
  rintro ⟨h0, h1, h2, h3⟩ j hj
  obtain rfl | rfl | rfl | rfl : j = 0 ∨ j = 1 ∨ j = 2 ∨ j = 3 := by omega
  all_goals assumption

theorem Inv.last (h : Inv s) {clean : Bool} (hi : i < 4)
    (hp : s.workers i = .leaving clean) :
    s.workersLeft = 1 ↔ ∀ j < 4, j ≠ i → s.workers j = .stopped := by
  rw [forall_worker, h.left]
  obtain rfl | rfl | rfl | rfl : i = 0 ∨ i = 1 ∨ i = 2 ∨ i = 3 := by omega
  all_goals
    simp only [running, hp, reduceCtorEq, if_false]
    split_ifs <;> simp_all

theorem inv_leave (h : Inv s) {clean : Bool} {b : Book} (hi : i < 4)
    (hp : s.workers i = .leaving clean) (hb : Accounts s.flow b)
    (hreg : Registered s.flow (s.closed = true) (s.workersLeft = 1) b) : Inv (s.leave i b) := by
  have hw : ∀ j, (s.leave i b).workers j = if j = i then .stopped else s.workers j :=
    fun j => goto_workers
  have hall : (∀ j < 4, (s.leave i b).workers j = .stopped) ↔ s.workersLeft = 1 := by
    rw [h.last hi hp]
    refine forall₂_congr fun j hj => ?_
    rw [hw]
    by_cases he : j = i <;> simp [he]
  refine ⟨h.reach, h.claims, h.reservations, h.events, ?_, ?_, ?_, hb⟩
  · intro j hj
    have hpc := h.pcs j hj
    rw [hw]
    split
    next he =>
      subst he
      rw [hp] at hpc
      exact hpc
    next => exact hpc
  · show s.workersLeft - 1 = _
    simp only [hw]
    rw [h.left]
    obtain rfl | rfl | rfl | rfl : i = 0 ∨ i = 1 ∨ i = 2 ∨ i = 3 := by omega
    all_goals
      simp only [hp, running]
      simp
      try omega
  · rw [hall]
    exact hreg

theorem Inv.drained (h : Inv s) {clean : Bool} (hi : i < 4)
    (hp : s.workers i = .leaving clean) (hl : s.workersLeft = 1)
    (hf : s.flow.core.fenced = false) : s.book.entries = [] := by
  have hdrop : s.flow.owners 3 = .dropped := by
    by_cases h3 : 3 = i
    · subst h3
      simpa [hp, PcOk] using h.pcs 3 hi
    · simpa [(h.last hi hp).mp hl 3 (by decide) h3, PcOk] using h.pcs 3
  have hle := (h.dropped hdrop).2.resolve_left (by simp [Flow.Core.failed, hf])
  have hes := (h.entries_eq hi (by simp [hp])).2
  rw [Nat.sub_eq_zero_of_le hle, List.range'_zero] at hes
  exact List.map_eq_nil_iff.mp hes

theorem Inv.act (h : Inv s) {a : Flow.Action Event}
    (hf : s.flow.step a = .ok f) (ha : stageOf a = some i) (hr : Flow.Reads a = true) :
    Reached f ∧ Keeps s.flow f ∧ ∀ j, j ≠ i → Still s.flow f j :=
  ⟨.step h.reach hf, (frame_step hf).keeps hr, fun j hj =>
    (frame_step hf).still j (by simpa [ha] using hj.symm)⟩

theorem Inv.finishes (h : Inv s) (hf : s.flow.step (.finish i) = .ok f) :
    f.owners i = .idle ∧ s.flow.owners i ≠ .dropped ∧
      s.flow.core.finished i < f.core.finished i ∧ f.core.finished i ≤ s.flow.core.head := by
  have hown := h.ring.owners i
  have hle := h.ring.handed_le_head (i := i)
  obtain ⟨q, v, ho, rfl⟩ | ⟨first, values, ho, rfl⟩ := finish_ok hf
  · rw [ho] at hown
    obtain ⟨hq, hlen⟩ : q = s.flow.core.finished i + 1 ∧ (s.flow.delivered i).length = q := hown
    simp only [Flow.State.finishAt_owners, Flow.State.finishAt_finished, if_true]
    exact ⟨trivial, by simp [ho], by omega, by omega⟩
  · rw [ho] at hown
    obtain ⟨hfirst, hne, hlen⟩ : first = s.flow.core.finished i + 1 ∧ values ≠ [] ∧
      (s.flow.delivered i).length = s.flow.core.finished i + values.length := hown
    have hpos := List.length_pos_iff.mpr hne
    simp only [Flow.State.finishAt_owners, Flow.State.finishAt_finished, if_true]
    exact ⟨trivial, by simp [ho], by omega, by omega⟩

theorem inv_ended (h : Inv s) {cells : Nat → Payload} {pc : Pc}
    {prepared : List (Nat × List Event)} (hi : i < 3) (hf : s.flow.step (.finish i) = .ok f)
    (hpc : ∀ o, o = .idle → PcOk i o pc) (hpc' : pc ≠ .stopped) :
    Inv ({ s with flow := f, cells, prepared }.goto i pc) := by
  obtain ⟨hreach, hk, hstill⟩ := h.act hf rfl rfl
  have hown := h.finishes hf
  exact h.move hreach hk hstill (hstill 3 (by omega)).finished rfl rfl rfl rfl (hpc _ hown.1)
    (h.not_stopped (by omega) hown.2.1) hpc'

theorem inv_drop (h : Inv s) {cells : Nat → Payload} {clean : Bool}
    (hi : i < 4) (hg : Gone s.flow f i) : Inv (s.drop i f cells clean) := by
  exact h.move (hg.reach h.reach) hg.keeps hg.still (congrFun hg.finished 3) rfl rfl rfl rfl
    hg.owner (h.not_stopped hi hg.live) (by simp)

theorem inv_gather (h : Inv s) {i n : Nat} {a : Flow.Action Event}
    (hp : s.workers i = .grouping n) (hf : s.flow.step a = .ok f) (ha : stageOf a = some i)
    (hr : Flow.Reads a = true) (hfin : f.core.finished = s.flow.core.finished)
    (hpc : PcOk i (f.owners i) (.grouping n)) : Inv { s with flow := f } := by
  obtain ⟨hreach, hk, hstill⟩ := h.act hf ha hr
  have hinv : Inv (State.goto { s with flow := f } i (.grouping n)) :=
    h.move hreach hk hstill (congrFun hfin 3) rfl rfl rfl rfl hpc (by simp [hp]) (by simp)
  rw [← hp] at hinv
  exact goto_self (s := { s with flow := f }) i ▸ hinv

theorem inv_resume (h : Inv s) {i validated published : Nat} (hi : i < 4)
    (ho : s.flow.owners i = .idle) : Inv ({ s with validated, published }.goto i .idle) :=
  h.move h.reach (.refl _) (fun _ _ => .refl _ _) rfl rfl rfl rfl rfl ho
    (h.not_stopped hi (by simp [ho])) (by simp)

theorem nextUntil_finished {f f' : Ring c} (h : f.step (.nextUntil i) = .ok f') :
    f'.core.finished = f.core.finished := by
  simp only [Flow.State.step] at h
  split_ifs at h
  obtain rfl | ⟨-, -, -, w, -, rfl⟩ := Flow.State.nextUntil_ok h <;> rfl

theorem inv_step (h : Inv s) {l : Label} (hs : Step s l s') : Inv s' := by
  cases hs with
  | submit hw hrows hgroup hbytes ho hp hr ha hq hf =>
    exact inv_enqueue h (claimed_ok h.reservations h.claims hr ha hq hf) hrows ho
      (by simpa [Book.enter, hw] using hp)
  | flush ho hr ha hq hf =>
    exact inv_enqueue h (claimed_ok h.reservations h.claims hr ha hq hf) (Nat.zero_le _) ho
      (by simpa [Book.enter] using h.accounts.budget)
  | refused ho hr ha hq =>
    obtain ⟨hk, hstill⟩ := refused_ok h.reservations hr ha hq
    refine h.frame (.step (.step h.reach hr) ha) hk (hstill 3).finished (fun i hi => ?_)
      (fun _ _ => .rfl) rfl rfl id
    rw [(hstill i).owner]
    exact h.pcs i hi
  | close =>
    exact h.frame (Flow.reachable_step .close h.reach rfl) ⟨rfl, rfl, rfl, rfl⟩ rfl h.pcs
      (fun _ _ => .rfl) rfl rfl (fun _ => rfl)
  | fence message => exact h.fence message
  | next hi hp hf hd =>
    obtain ⟨hreach, hk, hstill⟩ := h.act hf rfl rfl
    exact h.move hreach hk hstill (congrFun (nextUntil_finished hf) 3) rfl rfl rfl rfl ⟨_, _, hd⟩
      (by simp [hp]) (by simp)
  | drained hi hp hn hc hh hf => exact inv_drop h hi (gone_dropStage hf)
  | cancelled hi hp ho hf => exact absurd rfl (h.handed ho).2.2
  | validate hp ho hc hf =>
    exact inv_ended h (by decide) hf (fun _ ho => ⟨ho, .inl rfl⟩) (by simp)
  | passBarrier hp ho hw hc hf => exact inv_ended h (by decide) hf (fun _ ho => ho) (by simp)
  | markValidated hp => exact inv_resume h (by decide) (by simpa [hp, PcOk] using h.pcs 0)
  | await hp hl => exact inv_resume h (by decide) (by simpa [hp, PcOk] using h.pcs 1)
  | markPublished hp => exact inv_resume h (by decide) (by simpa [hp, PcOk] using h.pcs 2)
  | group hp ho hw hn he =>
    exact h.move h.reach (.refl _) (fun _ _ => .refl _ _) rfl rfl rfl rfl rfl
      ⟨by simp, .inl ⟨_, _, ho⟩⟩
      (by simp [hp]) (by simp)
  | coalesce hi hp ho h0 hn hf =>
    obtain ⟨first, v, rfl⟩ := Flow.coalesce_open hn h0 hf
    exact inv_gather h hp hf rfl rfl rfl ⟨h.grouper hi hp, .inr (.inl ⟨first, [v], _, by
      rw [Flow.State.own_owners, if_pos rfl]⟩)⟩
  | coalesceNext hi hp ho hn hf =>
    obtain ⟨first, values, limit, -, ⟨v, -, rfl⟩ | rfl⟩ := Flow.coalesceNext_open hn hf
    · exact inv_gather h hp hf rfl rfl rfl ⟨h.grouper hi hp,
        .inr (.inl ⟨first, _, limit, Flow.deliver_owner⟩)⟩
    · exact inv_gather h hp hf rfl rfl rfl ⟨h.grouper hi hp,
        .inr (.inr ⟨first, values, by simp⟩)⟩
  | prepare hp ho hc hf => exact inv_ended h (by decide) hf (fun _ ho => ⟨ho, rfl⟩) (by simp)
  | commitBarrier hp ho hw hc hf =>
    exact inv_ended h (by decide) hf (fun _ ho => ⟨ho, .inr rfl⟩) (by simp)
  | takeEpoch hp ho hw hc =>
    exact h.move h.reach (.refl _) (fun _ _ => .refl _ _) rfl rfl rfl rfl rfl
      ⟨by simp, .inl ⟨_, _, ho⟩⟩ (by simp [hp]) (by simp)
  | publish installs hp ho hn hc =>
    exact h.move h.reach (.refl _) (fun _ _ => .refl _ _) rfl rfl rfl rfl rfl ⟨rfl, _, _, ho⟩
      (by simp [hp]) (by simp)
  | store hp ho hn hf => exact inv_ended h (by decide) hf (fun _ ho => ⟨ho, .inr rfl⟩) (by simp)
  | complete hp ho he ht hf => exact inv_complete h hp ho he hf
  | reclaim hf =>
    have hframe := frame_step hf
    have hstill : ∀ j, Still s.flow _ j := fun j => hframe.still j (by simp [stageOf])
    refine h.frame (.step h.reach hf) (hframe.keeps rfl) (hstill 3).finished (fun i hi => ?_)
      (fun _ _ => .rfl) rfl rfl id
    rw [(hstill i).owner]
    exact h.pcs i hi
  | bail hi hx hl hf => exact inv_drop h hi (gone_unwound hf)
  | panic hi hl hf => exact inv_drop h hi (gone_unwound hf)
  | leave hi hp hl =>
    rename_i i clean message
    obtain ⟨hinv, hw, hn, hb, -⟩ := h.finished clean message
    rw [← hw] at hp
    rw [← hn] at hl
    rw [← hb]
    obtain ⟨hd, hes⟩ := hinv.entries_eq hi (by simp [hp])
    exact inv_leave hinv hi hp hinv.accounts (.inl ⟨hd, hes, fun h1 =>
      hinv.drained hi hp h1 (hl.resolve_left fun hne => hne h1)⟩)
  | leaveLast hi hp hl hf =>
    rename_i i clean message
    obtain ⟨hinv, hw, hn, hb, hc⟩ := h.finished clean message
    rw [← hw] at hp
    rw [← hn] at hl
    rw [← hb]
    obtain ⟨hd, -⟩ := hinv.entries_eq hi (by simp [hp])
    exact inv_leave hinv hi hp (hinv.accounts.doom hd) (.inr ⟨rfl, hc hf, hl⟩)
  | fail hd => exact inv_fail h hd

theorem inv_of_reachable (h : (machine c).Reachable s) : Inv s :=
  h.invariant (fun _ h0 => h0 ▸ inv_new c) fun _ _ _ ih hs => inv_step ih hs

end Varve.Ingest
