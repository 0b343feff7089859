import Mathlib.Data.Nat.ModEq
import Mathlib.Data.Int.ModEq
import Varve.Lib.Except
import Varve.Flow.Machine

/-!
# Safety of the ring

The invariant ties the two histories to the ring.
-/

namespace Varve.Flow

open Result (bind_ok)

section
variable {S : Shape} {T : Type} {c : Core S T} {s s' : State S T}

namespace Core

theorem failed_isSome : c.failed.isSome ↔ c.fenced = true ∧ c.failure.isSome := by
  cases hf : c.fenced <;> simp [failed, hf]

theorem failed_fence (c : Core S T) (reason : String) : (c.fence reason).failed.isSome := by
  simp [failed_isSome, fence]

theorem ready_iff : c.ready i q ↔
    (∀ p ∈ S.parents i, q ≤ c.finished p) ∧ (c.slots (S.position q)).published = q := by
  simp [ready, List.all_eq_true]

theorem read_ok : c.read q = .ok v ↔ ∃ e, (c.slots (S.position q)).entry = some e ∧
    e.value = v := by
  unfold read
  cases (c.slots (S.position q)).entry <;> simp

theorem minimum_le (hi : i < S.stages) (hg : S.gates i) : c.minimum ≤ c.finished i := by
  have hmem : c.finished i ∈ c.gating.map c.finished :=
    List.mem_map_of_mem (List.mem_filter.mpr ⟨List.mem_range.mpr hi, hg⟩)
  unfold minimum
  cases hm : (c.gating.map c.finished).min? with
  | none => simp [List.min?_eq_none_iff.mp hm] at hmem
  | some m => exact ((List.min?_eq_some_iff).mp hm).2 _ hmem

theorem minimum_le_finished (hc : ∀ j < S.stages, ∀ p ∈ S.parents j, c.finished j ≤ c.finished p)
    (hi : i < S.stages) : c.minimum ≤ c.finished i := by
  by_cases hg : S.gates i
  · exact minimum_le hi hg
  · obtain ⟨j, hj, hij⟩ := Shape.exists_child (by simpa using hg)
    have := Shape.parent_lt hij
    exact (minimum_le_finished hc hj).trans (hc j hj i hij)
termination_by S.stages - i

end Core

/-- How far a stage has been handed the stream, by what its owner holds. An
abandoned delivery leaves the log ahead of the cursor for ever. -/
def OwnerOk (c : Core S T) (cursor handed : Nat) : Owner T → Prop
  | .idle => cursor ≤ handed ∧ (handed = cursor ∨ c.failed.isSome)
  | .delivery sequence _ => sequence = cursor + 1 ∧ handed = sequence
  | .coalescing first values _ => first = cursor + 1 ∧ values ≠ [] ∧
      handed = cursor + values.length
  | .batch first values => first = cursor + 1 ∧ values ≠ [] ∧ handed = cursor + values.length
  | .dropped => cursor ≤ handed

theorem OwnerOk.cursor_le (h : OwnerOk c cursor handed o) : cursor ≤ handed := by
  cases o <;> simp only [OwnerOk] at h <;> omega

theorem OwnerOk.mono (c' : Core S T) (hf : c.failed.isSome → c'.failed.isSome)
    (h : OwnerOk c cursor handed o) : OwnerOk c' cursor handed o := by
  cases o with
  | idle => exact ⟨h.1, h.2.imp_right hf⟩
  | _ => exact h

structure Inv (s : State S T) : Prop where
  capacity : s.core.head ≤ s.core.reclaimed + S.capacity
  reclaimed : ∀ i < S.stages, s.core.reclaimed ≤ s.core.finished i
  parents : ∀ i, ∀ p ∈ S.parents i, (s.delivered i).length ≤ s.core.finished p
  owners : ∀ i, OwnerOk s.core (s.core.finished i) (s.delivered i).length (s.owners i)
  sequences : ∀ i, (s.delivered i).map Prod.fst = List.range' 1 (s.delivered i).length
  values : ∀ i, ∀ d ∈ s.delivered i, s.published d.1 = some d.2
  published : ∀ q v, s.published q = some v → 0 < q ∧ q ≤ s.core.head
  retained : ∀ q v, s.core.reclaimed < q → s.published q = some v →
    s.core.slots (S.position q) = ⟨q, some ⟨s.charges q, v⟩⟩
  ready : ∀ q, 0 < q → (s.core.slots (S.position q)).published = q →
    s.core.reclaimed < q ∧ ∃ v, s.published q = some v
  claims : ∀ k ∈ s.claims, s.core.reclaimed < k.sequence ∧ k.sequence ≤ s.core.head ∧
    s.published k.sequence = none ∧ s.charges k.sequence = k.charge
  nodup : (s.claims.map Claim.sequence).Nodup
  charged : s.core.charged = s.reservations.sum +
    ∑ q ∈ Finset.Ioc s.core.reclaimed s.core.head, s.charges q
  maxBytes : s.core.charged ≤ S.maxBytes

theorem inv_new (S : Shape) (T : Type) : Inv (State.new S T) where
  capacity := Nat.zero_le _
  reclaimed _ _ := Nat.le_refl _
  parents _ _ _ := Nat.le_refl _
  owners _ := ⟨Nat.le_refl _, .inl rfl⟩
  sequences _ := rfl
  values _ _ h := by cases h
  published _ _ h := by cases h
  retained _ _ _ h := by cases h
  ready q h0 h := absurd h.symm (Nat.pos_iff_ne_zero.mp h0)
  claims _ h := by cases h
  nodup := List.nodup_nil
  charged := by simp [State.new, Core.new]
  maxBytes := Nat.zero_le _

-- One action

theorem position_inj {r q q' : Nat} (hq : r < q ∧ q ≤ r + S.capacity)
    (hq' : r < q' ∧ q' ≤ r + S.capacity) (h : S.position q = S.position q') : q = q' := by
  wlog hle : q ≤ q' generalizing q q'
  · exact (this hq' hq h.symm (by omega)).symm
  have hdvd : S.capacity ∣ (q' - 1) - (q - 1) := (Nat.modEq_iff_dvd' (by omega)).mp h
  have := Nat.eq_zero_of_dvd_of_lt hdvd (by omega)
  omega

theorem Inv.fence (h : Inv s) (reason : String) : Inv (s.fence reason) where
  __ := h
  owners i := (h.owners i).mono _ fun _ => Core.failed_fence _ _

theorem Inv.close (h : Inv s) : Inv { s with core := s.core.close } where
  __ := h
  owners i := (h.owners i).mono _ id

theorem Inv.own (h : Inv s)
    (ho : OwnerOk s.core (s.core.finished i) (s.delivered i).length o) : Inv (s.own i o) where
  __ := h
  owners j := by
    by_cases hji : j = i
    · subst hji
      simpa using ho
    · simpa [hji] using h.owners j

theorem Inv.abandon (h : Inv s) (reason : String) :
    Inv (s.abandon i reason) :=
  (h.fence reason).own ⟨(h.owners i).cursor_le, .inr (Core.failed_fence _ _)⟩

theorem Inv.deliver (h : Inv s) (hq : q = (s.delivered i).length + 1)
    (hr : s.core.ready i q) (hv : s.core.read q = .ok v)
    (ho : OwnerOk s.core (s.core.finished i) q o) : Inv (s.deliver i q v o) := by
  obtain ⟨hparents, hslot⟩ := Core.ready_iff.mp hr
  obtain ⟨hlive, w, hw⟩ := h.ready q (by omega) hslot
  obtain ⟨e, he, rfl⟩ := Core.read_ok.mp hv
  have hvalue : s.published q = some e.value := by
    rw [h.retained q w hlive hw] at he
    cases he
    exact hw
  have hlog : (s.deliver i q e.value o).delivered i = s.delivered i ++ [(q, e.value)] := by
    simp [State.deliver]
  have hother : ∀ j, j ≠ i → (s.deliver i q e.value o).delivered j = s.delivered j := by
    intro j hji
    simp [State.deliver, Function.update_of_ne hji]
  refine { h with parents := ?_, owners := ?_, sequences := ?_, values := ?_ }
  · intro j p hp
    by_cases hji : j = i
    · subst hji
      rw [hlog]
      simpa [← hq] using hparents p hp
    · rw [hother j hji]
      exact h.parents j p hp
  · intro j
    by_cases hji : j = i
    · subst hji
      rw [hlog]
      simpa [State.deliver, ← hq] using ho
    · rw [hother j hji]
      simpa [State.deliver, hji] using h.owners j
  · intro j
    by_cases hji : j = i
    · subst hji
      rw [hlog]
      rw [List.map_append, h.sequences j, List.length_append, List.length_singleton,
        List.range'_1_concat, hq, Nat.add_comm 1]
      rfl
    · rw [hother j hji]
      exact h.sequences j
  · intro j d hd
    by_cases hji : j = i
    · subst hji
      rw [hlog] at hd
      rcases List.mem_append.mp hd with hd | hd
      · exact h.values j d hd
      · rw [List.mem_singleton.mp hd]
        exact hvalue
    · rw [hother j hji] at hd
      exact h.values j d hd

theorem Inv.finishAt (h : Inv s) (hq : q = (s.delivered i).length) : Inv (s.finishAt i q) := by
  have hle : ∀ j, s.core.finished j ≤ (s.finishAt i q).core.finished j := by
    intro j
    have := (h.owners i).cursor_le
    by_cases hji : j = i
    · subst hji
      simpa [hq] using this
    · simp [hji]
  refine { h with reclaimed := ?_, parents := ?_, owners := ?_ }
  · intro j hj
    exact (h.reclaimed j hj).trans (hle j)
  · intro j p hp
    exact (h.parents j p hp).trans (hle p)
  · intro j
    by_cases hji : j = i
    · subst hji
      simp [OwnerOk, hq]
    · simpa [hji] using (h.owners j).mono (s.finishAt i q).core id

theorem Inv.finish (h : Inv s) (hs : s.finish i = .ok s') : Inv s' := by
  have ho := h.owners i
  unfold State.finish at hs
  split at hs
  · rename_i he
    cases hs
    rw [he] at ho
    exact h.finishAt ho.2.symm
  · rename_i he
    cases hs
    rw [he] at ho
    obtain ⟨hf, hne, hlen⟩ := ho
    have := List.length_pos_iff.mpr hne
    exact h.finishAt (by omega)
  · cases hs

theorem State.nextUntil_ok (hs : s.nextUntil i = .ok s') : s' = s ∨
    s.owners i = .idle ∧ s.core.failed.isSome = false ∧ s.core.ready i (s.core.finished i + 1) ∧
      ∃ v, s.core.read (s.core.finished i + 1) = .ok v ∧
        s' = s.deliver i (s.core.finished i + 1) v (.delivery (s.core.finished i + 1) v) := by
  cases ho : s.owners i with
  | idle =>
    simp only [nextUntil, ho] at hs
    split_ifs at hs with hf hc hr
    · exact .inl (by cases hs; rfl)
    · exact .inl (by cases hs; rfl)
    · obtain ⟨v, hv, hs⟩ := bind_ok.mp hs
      cases hs
      exact .inr ⟨rfl, by simpa using hf, hr, v, hv, rfl⟩
    · exact .inl (by cases hs; rfl)
  | _ => simp [nextUntil, ho] at hs

theorem Inv.nextUntil (h : Inv s) (hs : s.nextUntil i = .ok s') : Inv s' := by
  obtain rfl | ⟨he, hf, hr, v, hv, rfl⟩ := State.nextUntil_ok hs
  · exact h
  · have ho := h.owners i
    rw [he] at ho
    have hlen : (s.delivered i).length = s.core.finished i := ho.2.resolve_right (by simp [hf])
    exact h.deliver (by omega) hr hv ⟨rfl, rfl⟩

theorem Inv.coalesce (h : Inv s) (hs : s.coalesce i n = .ok s') : Inv s' := by
  cases he : s.owners i with
  | delivery first value =>
    simp only [State.coalesce, he] at hs
    split_ifs at hs
    · cases hs
      exact h.abandon _
    · cases hs
      have ho := h.owners i
      rw [he] at ho
      exact h.own ⟨ho.1, by simp, by simp [ho.2, ho.1]⟩
  | _ => simp [State.coalesce, he] at hs

theorem Inv.coalesceNext (h : Inv s) (hs : s.coalesceNext i accepted = .ok s') : Inv s' := by
  cases he : s.owners i with
  | coalescing first values limit =>
    have ho := h.owners i
    rw [he] at ho
    obtain ⟨hfirst, hne, hlen⟩ := ho
    simp only [State.coalesceNext, he] at hs
    split_ifs at hs with hf hr ha
    · cases hs
      exact h.abandon _
    · simp only [Bool.and_eq_true] at hr
      obtain ⟨v, hv, hs⟩ := bind_ok.mp hs
      cases hs
      refine h.deliver (by omega) hr.2 hv ⟨hfirst, by simp, ?_⟩
      rw [List.length_append, List.length_singleton]
      omega
    · obtain ⟨v, -, hs⟩ := bind_ok.mp hs
      cases hs
      exact h.own ⟨hfirst, hne, hlen⟩
    · cases hs
      exact h.own ⟨hfirst, hne, hlen⟩
  | _ => simp [State.coalesceNext, he] at hs

theorem Inv.dropDelivery (h : Inv s) (hs : s.dropDelivery i = .ok s') : Inv s' := by
  unfold State.dropDelivery at hs
  split at hs <;> cases hs <;> exact h.abandon _

theorem Inv.dropStage (h : Inv s) (hs : s.dropStage i = .ok s') : Inv s' := by
  have hdrop : Inv (s.own i .dropped) := h.own (h.owners i).cursor_le
  cases he : s.owners i with
  | idle =>
    simp only [State.dropStage, he] at hs
    split_ifs at hs
    · cases hs
      exact hdrop
    · cases hs
      exact hdrop.fence _
  | _ => simp [State.dropStage, he] at hs

theorem Inv.reserve (h : Inv s) (hs : s.reserve charge = .ok s') : Inv s' := by
  unfold State.reserve at hs
  split at hs
  · cases hs
    exact h
  · rename_i core hc
    cases hs
    unfold Core.reserve at hc
    split_ifs at hc with _ _ _ hfits
    cases hc
    refine { h with owners := ?_, charged := ?_, maxBytes := hfits }
    · intro i
      exact (h.owners i).mono _ id
    · simp [h.charged, Nat.add_comm, Nat.add_left_comm]

theorem Inv.refund (h : Inv s) (hk : charge ∈ s.reservations) :
    Inv ({ s with
      core := { s.core with charged := s.core.charged - charge }
      reservations := s.reservations.erase charge } : State S T) := by
  have hsum := List.sum_erase hk
  refine { h with owners := ?_, charged := ?_, maxBytes := ?_ }
  · intro i
    exact (h.owners i).mono _ id
  · have := h.charged
    dsimp only
    omega
  · exact (Nat.sub_le _ _).trans h.maxBytes

theorem Inv.handed_published (h : Inv s) (h0 : 0 < q) (hq : q ≤ (s.delivered i).length) :
    ∃ v, s.published q = some v := by
  have hmem : q ∈ (s.delivered i).map Prod.fst := by
    rw [h.sequences i, List.mem_range'_1]
    omega
  obtain ⟨d, hd, rfl⟩ := List.mem_map.mp hmem
  exact ⟨d.2, h.values i d hd⟩

theorem Inv.handed_le_head (h : Inv s) : (s.delivered i).length ≤ s.core.head := by
  by_cases h0 : 0 < (s.delivered i).length
  · obtain ⟨v, hv⟩ := h.handed_published (i := i) h0 (Nat.le_refl _)
    exact (h.published _ v hv).2
  · omega

theorem Inv.reclaimed_le_head (h : Inv s) : s.core.reclaimed ≤ s.core.head :=
  (h.reclaimed 0 S.stages_pos).trans ((h.owners 0).cursor_le.trans h.handed_le_head)

theorem Inv.claim (h : Inv s) (hk : charge ∈ s.reservations)
    (hc : s.core.head - s.core.reclaimed < S.capacity) :
    Inv ({ s with
      core := { s.core with head := s.core.head + 1 }
      reservations := s.reservations.erase charge
      claims := ⟨s.core.head + 1, charge⟩ :: s.claims
      charges := Function.update s.charges (s.core.head + 1) charge } : State S T) := by
  have hold : ∀ q ≤ s.core.head,
      Function.update s.charges (s.core.head + 1) charge q = s.charges q := by
    intro q hq
    exact Function.update_of_ne (by omega) _ _
  have htail := h.reclaimed_le_head
  refine { h with
    capacity := ?_, owners := ?_, published := ?_, retained := ?_, claims := ?_, nodup := ?_
    charged := ?_ }
  · dsimp only
    omega
  · intro i
    exact (h.owners i).mono _ id
  · intro q v hv
    exact ⟨(h.published q v hv).1, (h.published q v hv).2.trans (Nat.le_succ _)⟩
  · intro q v hq hv
    dsimp only
    rw [hold q (h.published q v hv).2]
    exact h.retained q v hq hv
  · intro k hmem
    rcases List.mem_cons.mp hmem with rfl | hmem
    · refine ⟨Nat.lt_succ_of_le htail, Nat.le_refl _, ?_, Function.update_self _ _ _⟩
      cases hv : s.published (s.core.head + 1) with
      | none => rfl
      | some v => exact absurd (h.published _ v hv).2 (by omega)
    · obtain ⟨hlive, hle, hnone, hcharge⟩ := h.claims k hmem
      exact ⟨hlive, hle.trans (Nat.le_succ _), hnone, (hold _ hle).trans hcharge⟩
  · rw [List.map_cons, List.nodup_cons]
    refine ⟨?_, h.nodup⟩
    rintro hmem
    obtain ⟨k, hk, heq⟩ := List.mem_map.mp hmem
    have := (h.claims k hk).2.1
    dsimp only at heq
    omega
  · have hsum := List.sum_erase hk
    have hcongr : ∑ q ∈ Finset.Ioc s.core.reclaimed s.core.head,
        Function.update s.charges (s.core.head + 1) charge q =
          ∑ q ∈ Finset.Ioc s.core.reclaimed s.core.head, s.charges q :=
      Finset.sum_congr rfl fun q hq => hold q (Finset.mem_Ioc.mp hq).2
    have := h.charged
    dsimp only
    rw [Finset.sum_Ioc_succ_top htail, hcongr, Function.update_self]
    omega

theorem Inv.advance (h : Inv s) (hs : s.advance charge = .ok s') : Inv s' := by
  unfold State.advance at hs
  split_ifs at hs with hk
  dsimp only [Core.advance] at hs
  split_ifs at hs with hopen hclosed hmask
  · cases hs
    simp only [Bool.and_eq_true, decide_eq_true_eq] at hopen
    exact h.claim hk hopen.2
  · cases hs
    exact h.refund hk
  · cases hs
    exact (h.refund hk).fence _
  · cases hs
    exact h.refund hk

theorem Inv.live_lt (h : Inv s) (hq : s.published q = some v) : q ≤ s.core.reclaimed + S.capacity :=
  (h.published q v hq).2.trans h.capacity

theorem Inv.publish (h : Inv s) (hs : s.publish k value = .ok s') : Inv s' := by
  unfold State.publish at hs
  split_ifs at hs with hk
  cases hs
  obtain ⟨hlive, hle, hnone, hcharge⟩ := h.claims k hk
  have hother : ∀ q v, s.published q = some v → q ≠ k.sequence := by
    rintro q v hq rfl
    cases hnone.symm.trans hq
  have hpub : ∀ q v, s.published q = some v →
      Function.update s.published k.sequence (some value) q = some v := by
    intro q v hq
    rwa [Function.update_of_ne (hother q v hq)]
  have hclaim : ∀ j ∈ s.claims.erase k, j ∈ s.claims ∧ j.sequence ≠ k.sequence := by
    intro j hj
    have hj' := (h.nodup.of_map _).mem_erase_iff.mp hj
    exact ⟨hj'.2, fun he => hj'.1 (List.inj_on_of_nodup_map h.nodup hj'.2 hk he)⟩
  refine { h with
    owners := ?_, values := ?_, published := ?_, retained := ?_, ready := ?_, claims := ?_
    nodup := ?_ }
  · intro i
    exact (h.owners i).mono _ id
  · intro i d hd
    exact hpub _ _ (h.values i d hd)
  · intro q v hv
    by_cases hq : q = k.sequence
    · subst hq
      exact ⟨by omega, hle⟩
    · exact h.published q v ((Function.update_of_ne hq _ _).symm.trans hv)
  · intro q v hq hv
    by_cases hqk : q = k.sequence
    · subst hqk
      cases (Function.update_self _ _ _).symm.trans hv
      simp [Core.publish, Shape.position, hcharge]
    · have hv' : s.published q = some v := (Function.update_of_ne hqk _ _).symm.trans hv
      have hpos : S.position q ≠ S.position k.sequence := fun he =>
        hqk (position_inj ⟨hq, h.live_lt hv'⟩ ⟨hlive, hle.trans h.capacity⟩ he)
      exact (Function.update_of_ne hpos _ _).trans (h.retained q v hq hv')
  · intro q h0 hq
    by_cases hpos : S.position q = S.position k.sequence
    · have hqk : k.sequence = q := by
        simpa [Core.publish, Shape.position, show (q - 1) % S.capacity = _ from hpos] using hq
      subst hqk
      exact ⟨hlive, value, Function.update_self _ _ _⟩
    · have hq' : (s.core.slots (S.position q)).published = q := by
        simpa [Core.publish, Function.update_of_ne hpos] using hq
      obtain ⟨hr, v, hv⟩ := h.ready q h0 hq'
      exact ⟨hr, v, hpub q v hv⟩
  · intro j hj
    obtain ⟨hj, hne⟩ := hclaim j hj
    obtain ⟨hl, hh, hn, hc⟩ := h.claims j hj
    exact ⟨hl, hh, (Function.update_of_ne hne _ _).trans hn, hc⟩
  · exact h.nodup.sublist (List.erase_sublist.map _)

theorem Inv.cursor_le_parent (h : Inv s) : ∀ i < S.stages, ∀ p ∈ S.parents i,
    s.core.finished i ≤ s.core.finished p :=
  fun i _ p hp => (h.owners i).cursor_le.trans (h.parents i p hp)

theorem Inv.tail_slot (h : Inv s) (hm : s.core.reclaimed < s.core.minimum) :
    ∃ v, s.published (s.core.reclaimed + 1) = some v ∧
      s.core.slots (s.core.reclaimed % S.capacity) =
        ⟨s.core.reclaimed + 1, some ⟨s.charges (s.core.reclaimed + 1), v⟩⟩ := by
  have hfin := Core.minimum_le_finished h.cursor_le_parent S.stages_pos
  obtain ⟨v, hv⟩ := h.handed_published (i := 0) (Nat.succ_pos _)
    (hm.trans_le (hfin.trans (h.owners 0).cursor_le))
  exact ⟨v, hv, h.retained _ v (Nat.lt_succ_self _) hv⟩

theorem Inv.reclaimSlot (h : Inv s) (hs : s.reclaimSlot = .ok s') : Inv s' := by
  unfold State.reclaimSlot at hs
  split_ifs at hs with hm
  obtain ⟨v, hv, hslot⟩ := h.tail_slot hm
  simp only [Core.reclaimSlot, hslot, bind, Except.bind] at hs
  cases hs
  have hbound := h.live_lt hv
  have hmove : ∀ q v, s.core.reclaimed + 1 < q → s.published q = some v →
      S.position q ≠ s.core.reclaimed % S.capacity := by
    intro q v hq hv' he
    have : q = s.core.reclaimed + 1 :=
      position_inj ⟨(Nat.lt_succ_self _).trans hq, h.live_lt hv'⟩ ⟨Nat.lt_succ_self _, hbound⟩ he
    omega
  refine { h with
    capacity := ?_, reclaimed := ?_, owners := ?_, retained := ?_, ready := ?_, claims := ?_
    charged := ?_, maxBytes := ?_ }
  · have := h.capacity
    dsimp only
    omega
  · intro i hi
    exact hm.trans_le (Core.minimum_le_finished h.cursor_le_parent hi)
  · intro i
    exact (h.owners i).mono _ id
  · intro q w hq hw
    refine (Function.update_of_ne (hmove q w hq hw) _ _).trans (h.retained q w ?_ hw)
    exact (Nat.lt_succ_self _).trans hq
  · intro q h0 hq
    by_cases hpos : S.position q = s.core.reclaimed % S.capacity
    · have hq0 : 0 = q := by
        simpa [Shape.position, show (q - 1) % S.capacity = _ from hpos] using hq
      omega
    · obtain ⟨hr, hp⟩ := h.ready q h0 (by
        simpa [Function.update_of_ne hpos] using hq)
      have : q ≠ s.core.reclaimed + 1 := by
        rintro rfl
        exact hpos rfl
      exact ⟨by dsimp only; omega, hp⟩
  · intro k hk
    obtain ⟨hl, hh, hn, hc⟩ := h.claims k hk
    have : k.sequence ≠ s.core.reclaimed + 1 := by
      intro he
      rw [he, hv] at hn
      cases hn
    exact ⟨by dsimp only; omega, hh, hn, hc⟩
  · have hle := (h.published _ v hv).2
    have hsum : s.charges (s.core.reclaimed + 1) +
        ∑ q ∈ Finset.Ioc (s.core.reclaimed + 1) s.core.head, s.charges q =
          ∑ q ∈ Finset.Ioc s.core.reclaimed s.core.head, s.charges q := by
      rw [← Finset.sum_Ioc_consecutive s.charges (Nat.le_succ _) hle, Nat.succ_eq_add_one,
        Nat.Ioc_succ_singleton, Finset.sum_singleton]
    have := h.charged
    dsimp only
    omega
  · exact (Nat.sub_le _ _).trans h.maxBytes

theorem inv_step (h : Inv s) (hs : s.step a = .ok s') : Inv s' := by
  cases a with
  | reserve charge => exact h.reserve hs
  | advance charge => exact h.advance hs
  | publish k value => exact h.publish hs
  | dropClaim k => exact h.publish hs
  | nextUntil i =>
    simp only [State.step] at hs
    split_ifs at hs
    exact h.nextUntil hs
  | coalesce i n => exact h.coalesce hs
  | coalesceNext i accepted => exact h.coalesceNext hs
  | finish i => exact h.finish hs
  | reclaimSlot => exact h.reclaimSlot hs
  | dropDelivery i => exact h.dropDelivery hs
  | dropStage i =>
    simp only [State.step] at hs
    split_ifs at hs
    exact h.dropStage hs
  | close =>
    cases hs
    exact h.close
  | fence reason =>
    cases hs
    exact h.fence reason

theorem inv_of_reachable (h : (machine S T).Reachable s) : Inv s := by
  refine h.invariant ?_ fun _ _ _ => inv_step
  rintro _ rfl
  exact inv_new S T

end

end Varve.Flow
