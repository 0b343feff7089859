import Varve.Flow.Ring

/-!
# What an action leaves of the ring

An action moves the stage it belongs to and no other.
-/

namespace Varve.Flow

open Result (bind_ok)

variable {S : Shape} {T : Type} {f f' f'' : State S T} {a : Action T} {i j q : Nat}

structure Keeps (f f' : State S T) : Prop where
  published : f'.published = f.published
  head : f'.core.head = f.core.head
  claims : f'.claims = f.claims
  reservations : f'.reservations = f.reservations

structure Still (f f' : State S T) (j : Nat) : Prop where
  owner : f'.owners j = f.owners j
  delivered : f'.delivered j = f.delivered j
  finished : f'.core.finished j = f.core.finished j

/-- A failure and a close are for ever, and a closed stream does not grow. -/
structure Ends (c c' : Core S T) : Prop where
  failed : c.failed.isSome → c'.failed.isSome
  closed : c.closed = true → c'.closed = true
  head : c.closed = true → c'.head = c.head
  reclaimed : c.reclaimed ≤ c'.reclaimed

theorem Keeps.refl (f : State S T) : Keeps f f := ⟨rfl, rfl, rfl, rfl⟩

theorem Keeps.trans (h : Keeps f f') (h' : Keeps f' f'') : Keeps f f'' :=
  ⟨h'.published.trans h.published, h'.head.trans h.head, h'.claims.trans h.claims,
    h'.reservations.trans h.reservations⟩

theorem Still.refl (f : State S T) (j : Nat) : Still f f j := ⟨rfl, rfl, rfl⟩

theorem Still.trans (h : Still f f' j) (h' : Still f' f'' j) : Still f f'' j :=
  ⟨h'.owner.trans h.owner, h'.delivered.trans h.delivered, h'.finished.trans h.finished⟩

theorem Ends.refl (c : Core S T) : Ends c c := ⟨id, id, fun _ => rfl, Nat.le_refl _⟩

theorem Ends.trans {c c' c'' : Core S T} (h : Ends c c') (h' : Ends c' c'') : Ends c c'' :=
  ⟨fun x => h'.failed (h.failed x), fun x => h'.closed (h.closed x),
    fun x => (h'.head (h.closed x)).trans (h.head x), h.reclaimed.trans h'.reclaimed⟩

theorem Ends.fence (c : Core S T) (message : String) : Ends c (c.fence message) :=
  ⟨fun _ => Core.failed_fence c message, fun _ => rfl, fun _ => rfl, Nat.le_refl _⟩

def Reads : Action T → Bool
  | .reserve _ | .advance _ | .publish _ _ | .dropClaim _ => false
  | _ => true

def stageOf : Action T → Option Nat
  | .nextUntil i | .coalesce i _ | .coalesceNext i _ | .finish i | .dropDelivery i
  | .dropStage i => some i
  | _ => none

structure Frame (a : Action T) (f f' : State S T) : Prop where
  keeps : Reads a = true → Keeps f f'
  still : ∀ j, stageOf a ≠ some j → Still f f' j
  ends : Ends f.core f'.core

theorem frame_writer (ha : Reads a = false) (hs : ∀ j, Still f f' j) (he : Ends f.core f'.core) :
    Frame a f f' :=
  ⟨fun h => absurd h (by simp [ha]), fun j _ => hs j, he⟩

theorem frame_own {o : Owner T} (ha : stageOf a = some i) : Frame a f (f.own i o) :=
  ⟨fun _ => ⟨rfl, rfl, rfl, rfl⟩,
    fun j hj => ⟨by simp [show j ≠ i from fun he => hj (he ▸ ha)], rfl, rfl⟩, .refl _⟩

theorem frame_deliver {v : Option T} {o : Owner T} (ha : stageOf a = some i) :
    Frame a f (f.deliver i q v o) := by
  refine ⟨fun _ => ⟨rfl, rfl, rfl, rfl⟩, fun j hj => ?_, .refl _⟩
  have hne : j ≠ i := fun he => hj (he ▸ ha)
  exact ⟨by simp [State.deliver, State.own, hne], by simp [State.deliver, hne], rfl⟩

theorem frame_abandon {message : String} (ha : stageOf a = some i) :
    Frame a f (f.abandon i message) :=
  ⟨fun _ => ⟨rfl, rfl, rfl, rfl⟩, fun j hj => ⟨by simp [State.abandon, State.fence,
    show j ≠ i from fun he => hj (he ▸ ha)], rfl, rfl⟩, .fence _ message⟩

theorem frame_finishAt (ha : stageOf a = some i) : Frame a f (f.finishAt i q) := by
  refine ⟨fun _ => ⟨rfl, rfl, rfl, rfl⟩, fun j hj => ?_, ⟨id, id, fun _ => rfl, Nat.le_refl _⟩⟩
  have hne : j ≠ i := fun he => hj (he ▸ ha)
  exact ⟨by simp [hne], by simp, by simp [hne]⟩

theorem dropStage_ok (h : f.step (.dropStage i) = .ok f') : f.owners i = .idle ∧
    (f.core.closed = true ∧ f.core.head ≤ f.core.finished i ∧ f' = f.own i .dropped ∨
      f' = (f.own i .dropped).fence "required stage abandoned before closed stream drained") := by
  simp only [State.step, State.dropStage] at h
  split_ifs at h with hi hd
  · split at h
    · rename_i ho
      simp only [Bool.and_eq_true, decide_eq_true_eq] at hd
      cases h
      exact ⟨ho, .inl ⟨hd.1, hd.2, rfl⟩⟩
    · cases h
  · split at h
    · rename_i ho
      cases h
      exact ⟨ho, .inr rfl⟩
    · cases h

theorem coalesce_ok {n : Nat} (h : f.step (.coalesce i n) = .ok f') :
    ∃ first value, f.owners i = .delivery first value ∧
      ((n = 0 ∨ f.core.failed.isSome) ∧
          f' = f.abandon i "required delivery abandoned without completion" ∨
        f' = f.own i (.coalescing first [value] (min n S.capacity))) := by
  simp only [State.step, State.coalesce] at h
  split at h
  · rename_i first value ho
    split_ifs at h with hn
    · cases h
      exact ⟨first, value, ho, .inl ⟨by simpa using hn, rfl⟩⟩
    · cases h
      exact ⟨first, value, ho, .inr rfl⟩
  · cases h

theorem coalesce_open {n : Nat} (hn : f.core.failed.isSome = false) (h0 : n ≠ 0)
    (h : f.step (.coalesce i n) = .ok f') :
    ∃ first value, f' = f.own i (.coalescing first [value] (min n S.capacity)) := by
  obtain ⟨first, value, -, ⟨hx, -⟩ | rfl⟩ := coalesce_ok h
  · simp [h0, hn] at hx
  · exact ⟨first, value, rfl⟩

theorem coalesceNext_ok {accepted : Bool} (h : f.step (.coalesceNext i accepted) = .ok f') :
    ∃ first values limit, f.owners i = .coalescing first values limit ∧
      ((f.core.failed.isSome ∧
          f' = f.abandon i "required delivery abandoned without completion") ∨
        (∃ v, f.core.ready i (first + values.length) ∧
          f.core.read (first + values.length) = .ok v ∧ values.length < limit ∧
          f' = f.deliver i (first + values.length) v
            (.coalescing first (values ++ [v]) limit)) ∨ f' = f.own i (.batch first values)) := by
  simp only [State.step, State.coalesceNext] at h
  split at h
  · rename_i first values limit ho
    refine ⟨first, values, limit, ho, ?_⟩
    split_ifs at h with hf hr
    · cases h
      exact .inl ⟨hf, rfl⟩
    · obtain ⟨v, hv, h⟩ := bind_ok.mp h
      cases h
      simp only [Bool.and_eq_true, decide_eq_true_eq] at hr
      exact .inr (.inl ⟨v, hr.2, hv, hr.1, rfl⟩)
    · obtain ⟨v, -, h⟩ := bind_ok.mp h
      cases h
      exact .inr (.inr rfl)
    · cases h
      exact .inr (.inr rfl)
  · cases h

theorem coalesceNext_open {accepted : Bool} (hn : f.core.failed.isSome = false)
    (h : f.step (.coalesceNext i accepted) = .ok f') :
    ∃ first values limit, f.owners i = .coalescing first values limit ∧
      ((∃ v, values.length < limit ∧ f' = f.deliver i (first + values.length) v
          (.coalescing first (values ++ [v]) limit)) ∨ f' = f.own i (.batch first values)) := by
  obtain ⟨first, values, limit, ho, ⟨hx, -⟩ | ⟨v, -, -, hlt, rfl⟩ | rfl⟩ := coalesceNext_ok h
  · simp [hn] at hx
  · exact ⟨first, values, limit, ho, .inl ⟨v, hlt, rfl⟩⟩
  · exact ⟨first, values, limit, ho, .inr rfl⟩

theorem finish_ok (h : f.step (.finish i) = .ok f') :
    (∃ q v, f.owners i = .delivery q v ∧ f' = f.finishAt i q) ∨
      ∃ first values, f.owners i = .batch first values ∧
        f' = f.finishAt i (first + values.length - 1) := by
  simp only [State.step, State.finish] at h
  split at h
  · rename_i q v ho
    cases h
    exact .inl ⟨q, v, ho, rfl⟩
  · rename_i first values ho
    cases h
    exact .inr ⟨first, values, ho, rfl⟩
  · cases h

theorem dropDelivery_ok (h : f.step (.dropDelivery i) = .ok f') :
    f.owners i ≠ .dropped ∧ ∃ message, f' = f.abandon i message := by
  simp only [State.step, State.dropDelivery] at h
  split at h <;> cases h <;> rename_i ho <;> exact ⟨by simp [ho], _, rfl⟩

theorem frame_step (h : f.step a = .ok f') : Frame a f f' := by
  cases a with
  | reserve charge =>
    simp only [State.step, State.reserve] at h
    split at h
    · cases h
      exact frame_writer rfl (.refl f) (.refl _)
    · rename_i core hc
      cases h
      unfold Core.reserve at hc
      split_ifs at hc
      cases hc
      exact frame_writer rfl (fun _ => ⟨rfl, rfl, rfl⟩) ⟨id, id, fun _ => rfl, Nat.le_refl _⟩
  | advance charge =>
    simp only [State.step, State.advance, Core.advance] at h
    split_ifs at h with _ hopen <;> cases h
    · simp only [Bool.and_eq_true, Bool.not_eq_true'] at hopen
      exact frame_writer rfl (fun _ => ⟨rfl, rfl, rfl⟩)
        ⟨id, id, fun hc => by simp [hopen.1.1] at hc, Nat.le_refl _⟩
    · exact frame_writer rfl (fun _ => ⟨rfl, rfl, rfl⟩) ⟨id, id, fun _ => rfl, Nat.le_refl _⟩
    · exact frame_writer rfl (fun _ => ⟨rfl, rfl, rfl⟩)
        ⟨fun _ => Core.failed_fence _ _, fun _ => rfl, fun _ => rfl, Nat.le_refl _⟩
    · exact frame_writer rfl (fun _ => ⟨rfl, rfl, rfl⟩) ⟨id, id, fun _ => rfl, Nat.le_refl _⟩
  | publish k v | dropClaim k =>
    simp only [State.step, State.publish] at h
    split_ifs at h
    cases h
    exact frame_writer rfl (fun _ => ⟨rfl, rfl, rfl⟩) ⟨id, id, fun _ => rfl, Nat.le_refl _⟩
  | nextUntil i =>
    simp only [State.step] at h
    split_ifs at h
    obtain rfl | ⟨-, -, -, v, -, rfl⟩ := State.nextUntil_ok h
    · exact ⟨fun _ => .refl _, fun j _ => .refl _ j, .refl _⟩
    · exact frame_deliver rfl
  | coalesce i n =>
    obtain ⟨first, value, -, ⟨-, rfl⟩ | rfl⟩ := coalesce_ok h
    · exact frame_abandon rfl
    · exact frame_own rfl
  | coalesceNext i accepted =>
    obtain ⟨first, values, limit, -, ⟨-, rfl⟩ | ⟨v, -, -, -, rfl⟩ | rfl⟩ := coalesceNext_ok h
    · exact frame_abandon rfl
    · exact frame_deliver rfl
    · exact frame_own rfl
  | finish i =>
    obtain ⟨q, v, -, rfl⟩ | ⟨first, values, -, rfl⟩ := finish_ok h
    · exact frame_finishAt rfl
    · exact frame_finishAt rfl
  | reclaimSlot =>
    simp only [State.step, State.reclaimSlot] at h
    split_ifs at h
    obtain ⟨core, hc, h⟩ := bind_ok.mp h
    cases h
    unfold Core.reclaimSlot at hc
    split at hc <;> cases hc
    exact ⟨fun _ => ⟨rfl, rfl, rfl, rfl⟩, fun j _ => ⟨rfl, rfl, rfl⟩,
      ⟨id, id, fun _ => rfl, Nat.le_succ _⟩⟩
  | dropDelivery i =>
    obtain ⟨-, message, rfl⟩ := dropDelivery_ok h
    exact frame_abandon rfl
  | dropStage i =>
    obtain ⟨-, ⟨-, -, rfl⟩ | rfl⟩ := dropStage_ok h
    · exact frame_own rfl
    · exact ⟨fun _ => ⟨rfl, rfl, rfl, rfl⟩, fun j hj => ⟨by simp [State.fence,
        show j ≠ i from fun he => hj (by rw [he]; rfl)], rfl, rfl⟩, .fence _ _⟩
  | close =>
    cases h
    exact ⟨fun _ => ⟨rfl, rfl, rfl, rfl⟩, fun j _ => ⟨rfl, rfl, rfl⟩,
      ⟨id, fun _ => rfl, fun _ => rfl, Nat.le_refl _⟩⟩
  | fence reason =>
    cases h
    exact ⟨fun _ => ⟨rfl, rfl, rfl, rfl⟩, fun j _ => ⟨rfl, rfl, rfl⟩, .fence _ _⟩

-- What a stage holds

/-- What a stage holds was published. A stage is dropped at the end of the stream, or fences it. -/
def Tells (f : State S T) (i : Nat) : Owner T → Prop
  | .idle => True
  | .delivery q v => f.published q = some v
  | .coalescing first values _ | .batch first values =>
    ∀ k v, values[k]? = some v → f.published (first + k) = some v
  | .dropped => f.core.closed = true ∧ (f.core.failed.isSome ∨ f.core.head ≤ f.core.finished i)

theorem Tells.mono {o : Owner T} (h : Tells f i o)
    (hp : ∀ q v, f.published q = some v → f'.published q = some v) (he : Ends f.core f'.core)
    (hf : f'.core.finished i = f.core.finished i) : Tells f' i o := by
  cases o with
  | idle => trivial
  | delivery q v => exact hp q v h
  | coalescing first values limit | batch first values => exact fun k v hk => hp _ v (h k v hk)
  | dropped =>
    refine ⟨he.closed h.1, h.2.imp he.failed fun hle => ?_⟩
    rwa [he.head h.1, hf]

theorem published_step {v : Option T} (hi : Inv f) (h : f.step a = .ok f')
    (hq : f.published q = some v) : f'.published q = some v := by
  cases ha : Reads a with
  | true => rwa [((frame_step h).keeps ha).published]
  | false =>
    cases a with
    | reserve charge =>
      simp only [State.step, State.reserve] at h
      split at h <;> cases h <;> exact hq
    | advance charge =>
      simp only [State.step, State.advance] at h
      split_ifs at h
      split at h <;> cases h <;> exact hq
    | publish k w | dropClaim k =>
      simp only [State.step, State.publish] at h
      split_ifs at h with hk
      cases h
      refine (Function.update_of_ne ?_ _ _).trans hq
      rintro rfl
      cases (hi.claims k hk).2.2.1.symm.trans hq
    | _ => cases ha

theorem read_published {v : Option T} (h : Inv f) (h0 : 0 < q) (hr : f.core.ready i q)
    (hv : f.core.read q = .ok v) : f.published q = some v := by
  obtain ⟨hlive, w, hw⟩ := h.ready q h0 (Core.ready_iff.mp hr).2
  obtain ⟨e, he, rfl⟩ := Core.read_ok.mp hv
  rw [h.retained q w hlive hw] at he
  obtain rfl := Option.some.inj he
  exact hw

theorem deliver_owner {v : Option T} {o : Owner T} : (f.deliver i q v o).owners i = o := by
  simp [State.deliver, State.own]

theorem tells_own (hi : Inv f) (h : Tells f i (f.owners i)) (hs : f.step a = .ok f')
    (ha : stageOf a = some i) : Tells f' i (f'.owners i) := by
  cases a with
  | nextUntil j =>
    obtain rfl := Option.some.inj ha
    simp only [State.step] at hs
    split_ifs at hs
    obtain rfl | ⟨-, -, hr, v, hv, rfl⟩ := State.nextUntil_ok hs
    · exact h
    · have hnew := read_published hi (Nat.succ_pos _) hr hv
      rw [deliver_owner]
      exact hnew
  | coalesce j n =>
    obtain rfl := Option.some.inj ha
    obtain ⟨first, value, ho, ⟨-, rfl⟩ | rfl⟩ := coalesce_ok hs
    · simp [State.abandon, Tells]
    · rw [ho] at h
      rw [State.own_owners, if_pos rfl]
      intro k v hk
      cases k with
      | zero =>
        obtain rfl := Option.some.inj hk
        exact h
      | succ k => simp at hk
  | coalesceNext j accepted =>
    obtain rfl := Option.some.inj ha
    have hown := hi.owners j
    obtain ⟨first, values, limit, ho, ⟨-, rfl⟩ | ⟨w, hr, hw, -, rfl⟩ | rfl⟩ := coalesceNext_ok hs
    · simp [State.abandon, Tells]
    · rw [ho] at h hown
      have h0 : 0 < first + values.length := by
        have : first = f.core.finished j + 1 := hown.1
        omega
      have hnew := read_published hi h0 hr hw
      rw [deliver_owner]
      intro k v hk
      rw [List.getElem?_append] at hk
      split_ifs at hk
      · exact h k v hk
      · obtain ⟨hlt, rfl⟩ := List.getElem?_eq_some_iff.mp hk
        obtain rfl : k = values.length := by simp at hlt; omega
        simp only [Nat.sub_self, List.getElem_cons_zero]
        exact hnew
    · rw [ho] at h
      rw [State.own_owners, if_pos rfl]
      exact h
  | finish j =>
    obtain rfl := Option.some.inj ha
    obtain ⟨q, v, -, rfl⟩ | ⟨first, values, -, rfl⟩ := finish_ok hs
    · simp [Tells]
    · simp [Tells]
  | dropDelivery j =>
    obtain rfl := Option.some.inj ha
    obtain ⟨-, message, rfl⟩ := dropDelivery_ok hs
    simp [State.abandon, Tells]
  | dropStage j =>
    obtain rfl := Option.some.inj ha
    obtain ⟨-, ⟨hc, hh, rfl⟩ | rfl⟩ := dropStage_ok hs
    · simp [Tells, hc, hh]
    · rw [show (State.fence _ _).owners j = .dropped by simp [State.fence]]
      exact ⟨rfl, .inl (Core.failed_fence _ _)⟩
  | _ => cases ha

theorem tells_step (hi : Inv f) (h : ∀ j, Tells f j (f.owners j)) (hs : f.step a = .ok f')
    (j : Nat) : Tells f' j (f'.owners j) := by
  by_cases ha : stageOf a = some j
  · exact tells_own hi (h j) hs ha
  · have hframe := frame_step hs
    rw [(hframe.still j ha).owner]
    exact (h j).mono (fun _ _ => published_step hi hs) hframe.ends (hframe.still j ha).finished

theorem tells_of_reachable (h : (machine S T).Reachable f) (i : Nat) : Tells f i (f.owners i) := by
  refine (h.invariant (I := fun f => Inv f ∧ ∀ i, Tells f i (f.owners i)) ?_ ?_).2 i
  · rintro _ rfl
    exact ⟨inv_new S T, fun _ => trivial⟩
  · intro _ _ _ ih hs
    exact ⟨inv_step ih.1 hs, tells_step ih.1 ih.2 hs⟩

end Varve.Flow
