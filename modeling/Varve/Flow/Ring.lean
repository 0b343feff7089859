import Varve.Flow.Safety

/-!
# What the stages of a ring may rely on

The safety of the ring in terms of what `bounded` was given, the panics that no run reaches, and
the calls of the public interface as runs of the machine: whatever holds in every interleaving of
atomic accesses holds in every interleaving of whole calls.
-/

namespace Varve.Flow

section
variable {S : Shape} {T : Type} {s s' : State S T}

-- Safety

structure RingSafe (capacity : Nat) (dependencies : List (List Nat)) (s : State S T) : Prop where
  /-- A stage is handed 1, 2, 3 and so on, each once. -/
  in_order : ∀ i < dependencies.length,
    (s.delivered i).map Prod.fst = List.range' 1 (s.delivered i).length
  claimed : ∀ i < dependencies.length, ∀ d ∈ s.delivered i, d.1 ≤ s.core.head
  /-- `some none` is the mark of a dropped claim. -/
  value : ∀ i < dependencies.length, ∀ d ∈ s.delivered i, s.published d.1 = some d.2
  /-- An open claim has not been published, so no publication replaces another. -/
  once : ∀ k ∈ s.claims, s.published k.sequence = none
  after_parents : ∀ (i : Nat) (parents : List Nat), dependencies[i]? = some parents →
    ∀ p ∈ parents, ∀ d ∈ s.delivered i, d.1 ≤ s.core.finished p
  handed : ∀ i < dependencies.length, s.core.finished i ≤ (s.delivered i).length
  /-- While some stage has yet to finish it, a published sequence is in its slot. -/
  kept : ∀ q v, s.published q = some v → (∃ i < dependencies.length, s.core.finished i < q) →
    s.core.slots ((q - 1) % capacity) = ⟨q, some ⟨s.charges q, v⟩⟩
  reclaimed : ∀ i < dependencies.length, s.core.reclaimed ≤ s.core.finished i
  /-- The previous holder of a claimed slot, `q - capacity`, is finished everywhere. -/
  reused : ∀ q ≤ s.core.head, ∀ i < dependencies.length, q - capacity ≤ s.core.finished i
  bounded : s.core.head - s.core.reclaimed ≤ capacity

theorem Inv.le_handed (h : Inv s) (hd : d ∈ s.delivered i) : d.1 ≤ (s.delivered i).length := by
  have hmem := List.mem_map_of_mem (f := Prod.fst) hd
  rw [h.sequences i, List.mem_range'_1] at hmem
  omega

theorem Inv.ringSafe (h : Inv s) : RingSafe S.capacity S.dependencies s where
  in_order i _ := h.sequences i
  claimed i _ d hd := (h.le_handed hd).trans h.handed_le_head
  value i _ := h.values i
  once k hk := (h.claims k hk).2.2.1
  after_parents i parents hi p hp d hd :=
    (h.le_handed hd).trans (h.parents i p (by simpa [Shape.parents, hi] using hp))
  handed i _ := (h.owners i).cursor_le
  kept q v hv hi := by
    obtain ⟨i, hi, hq⟩ := hi
    exact h.retained q v ((h.reclaimed i hi).trans_lt hq) hv
  reclaimed := h.reclaimed
  reused q hq i hi := by
    have := h.reclaimed i hi
    have := h.capacity
    omega
  bounded := Nat.sub_le_iff_le_add'.mpr h.capacity

theorem bounded_ok (h : bounded capacity maxBytes dependencies = .ok S) :
    S.capacity = capacity ∧ S.maxBytes = maxBytes ∧ S.dependencies = dependencies := by
  unfold bounded at h
  split_ifs at h
  split at h
  · cases h
  · cases h
    exact ⟨rfl, rfl, rfl⟩

theorem ring_safety (hb : bounded capacity maxBytes dependencies = .ok S)
    (hr : (machine S T).Reachable s) : RingSafe capacity dependencies s := by
  obtain ⟨rfl, -, rfl⟩ := bounded_ok hb
  exact (inv_of_reachable hr).ringSafe

def chain : Shape := (bounded 2 16 [[], [0]]).toOption.get rfl

/-- One value through both stages, and a dropped claim handed to both. -/
def chainRun : List (Action Nat) :=
  [.reserve 3, .reserve 5, .advance 5, .advance 3, .dropClaim ⟨2, 3⟩, .publish ⟨1, 5⟩ 7,
   .nextUntil 0, .coalesce 0 4, .coalesceNext 0 true, .coalesceNext 0 true, .finish 0,
   .nextUntil 1, .finish 1, .reclaimSlot, .nextUntil 1]

def chainState : State chain Nat :=
  match chainRun.foldlM State.step (State.new chain Nat) with
  | .ok s => s
  | .error _ => State.new chain Nat

theorem ring_safety_chain : bounded 2 16 [[], [0]] = .ok chain ∧
    (machine chain Nat).Reachable chainState ∧
    chainState.delivered 1 = [(1, some 7), (2, none)] ∧ chainState.core.reclaimed = 1 ∧
    RingSafe 2 [[], [0]] chainState := by
  have hb : bounded 2 16 [[], [0]] = .ok chain := rfl
  have hs : chainRun.foldlM State.step (State.new chain Nat) = .ok chainState := rfl
  have hr : (machine chain Nat).Reachable chainState := .foldlM (.init rfl) hs
  exact ⟨hb, hr, rfl, rfl, ring_safety hb hr⟩

theorem Inv.read_ready (h : Inv s) (h0 : 0 < q) (hr : s.core.ready i q) :
    ∃ v, s.core.read q = .ok v := by
  obtain ⟨hlive, v, hv⟩ := h.ready q h0 (Core.ready_iff.mp hr).2
  exact ⟨v, Core.read_ok.mpr ⟨_, by rw [h.retained q v hlive hv], rfl⟩⟩

theorem no_panic (hr : (machine S T).Reachable s) (a : Action T) (message : String) :
    s.step a ≠ .error (.panic message) := by
  have h := inv_of_reachable hr
  cases a with
  | nextUntil i =>
    cases he : s.owners i with
    | idle =>
      simp only [State.step, State.nextUntil, he]
      split_ifs with hi hf hc hready
      · simp
      · simp
      · obtain ⟨v, hv⟩ := h.read_ready (Nat.succ_pos _) hready
        simp [hv, bind, Except.bind]
      · simp
      · simp
    | _ =>
      simp only [State.step, State.nextUntil, he]
      split_ifs <;> simp
  | coalesceNext i accepted =>
    have ho := h.owners i
    cases he : s.owners i with
    | coalescing first values limit =>
      rw [he] at ho
      simp only [State.step, State.coalesceNext, he]
      split_ifs with hf hready ha
      · simp
      · obtain ⟨v, hv⟩ := h.read_ready (q := first + values.length) (by rw [ho.1]; omega)
          (Bool.and_eq_true_iff.mp hready).2
        simp [hv, bind, Except.bind]
      · obtain ⟨v, hv⟩ := h.read_ready (q := first + values.length) (by rw [ho.1]; omega)
          (Bool.and_eq_true_iff.mp hready).2
        simp [hv, bind, Except.bind]
      · simp
    | _ => simp [State.step, State.coalesceNext, he]
  | reclaimSlot =>
    simp only [State.step, State.reclaimSlot]
    split_ifs with hm
    · obtain ⟨v, -, hslot⟩ := h.tail_slot hm
      simp [Core.reclaimSlot, hslot, bind, Except.bind]
    · simp
  | reserve charge =>
    simp only [State.step, State.reserve]
    split <;> simp
  | advance charge =>
    simp only [State.step, State.advance]
    split_ifs
    · split <;> simp
    · simp
  | publish k v | dropClaim k =>
    simp only [State.step, State.publish]
    split_ifs <;> simp
  | coalesce i n =>
    simp only [State.step, State.coalesce]
    split
    · split_ifs <;> simp
    · simp
  | finish i =>
    simp only [State.step, State.finish]
    cases s.owners i <;> simp
  | dropDelivery i =>
    simp only [State.step, State.dropDelivery]
    cases s.owners i <;> simp
  | dropStage i =>
    simp only [State.step, State.dropStage]
    split
    · split
      · split_ifs <;> simp
      · simp
    · simp
  | close => simp [State.step]
  | fence reason => simp [State.step]

/-- The last action of the run reads the slot of the dropped claim. -/
theorem no_panic_chain : ∃ s, (machine chain Nat).Reachable s ∧
    s.step (.nextUntil 1) = .ok chainState ∧
    ∀ message, s.step (.nextUntil 1) ≠ .error (.panic message) := by
  have hs : chainRun.dropLast.foldlM State.step (State.new chain Nat) = .ok _ := rfl
  have hr : (machine chain Nat).Reachable _ := .foldlM (.init rfl) hs
  exact ⟨_, hr, rfl, no_panic hr (.nextUntil 1)⟩

theorem reachable_step (a : Action T) (hr : (machine S T).Reachable s) (hs : s.step a = .ok s') :
    (machine S T).Reachable s' :=
  .step hr hs

end

end Varve.Flow
