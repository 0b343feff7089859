import Varve.Commit.Floors

/-!
# The floors chosen for a group

What `group_checkpoint_floors` chooses, and when that spares a request which staging takes.
-/

namespace Varve.Commit

open Result (ensure_bind bind_ok)
open Engine (Table Manifest parseTimedRequestId checkedCutoff saturatingAdd
  idempotencyMaxFutureSkewUs i64Min i64Max context context_ok)

variable {F : Type} {s : State (Manifest F)} {group : List Request} {t : Text}

/-- `none` is below every floor. -/
def AtLeast (a b : Option Int) : Prop := ∀ x, b = some x → ∃ y, a = some y ∧ x ≤ y

theorem AtLeast.refl (a : Option Int) : AtLeast a a := fun x h => ⟨x, h, Int.le_refl x⟩

theorem AtLeast.trans (h : AtLeast a b) (h' : AtLeast b c) : AtLeast a c := by
  intro x hx
  obtain ⟨y, hy, hxy⟩ := h' x hx
  obtain ⟨z, hz, hyz⟩ := h y hy
  exact ⟨z, hz, by omega⟩

theorem AtLeast.none (a : Option Int) : AtLeast a none := by rintro x ⟨⟩

theorem atLeast_some {a : Option Int} (h : a.getD i64Min ≤ n) : AtLeast (some n) a := by
  rintro x rfl
  exact ⟨n, rfl, h⟩

theorem AtLeast.getD (h : AtLeast a b) (hn : i64Min ≤ n) :
    max (b.getD i64Min) n ≤ max (a.getD i64Min) n := by
  cases b with
  | none => simp [hn]
  | some x =>
    obtain ⟨y, rfl, hxy⟩ := h x rfl
    simp only [Option.getD_some]
    omega

theorem i64Min_le_checkedCutoff : i64Min ≤ checkedCutoff now window := by
  simp only [checkedCutoff, Engine.saturatingSub, Engine.clamp, i64Min, i64Max]
  omega

-- What a retry sets

theorem clockFloor_none {table : Table F} (hw : table.config.idempotencyWindowUs = none) :
    clockFloor table known previous item = .ok none := by
  rw [clockFloor, hw]

theorem clockFloor_ok {table : Table F} (hw : table.config.idempotencyWindowUs = some window) :
    clockFloor table known previous item = .ok floor ↔
      ∃ issued, parseTimedRequestId item.requestId = .ok issued ∧
        max (previous.getD i64Min) (checkedCutoff item.nowUs window) ≤ issued ∧
        (known = true ∨ issued ≤ saturatingAdd item.nowUs idempotencyMaxFutureSkewUs) ∧
        floor = some (max (previous.getD i64Min) (checkedCutoff item.nowUs window)) := by
  simp only [clockFloor, hw]
  rw [bind_ok]
  simp only [ensure_bind, Except.ok.injEq, eq_comm (a := floor)]

theorem retryWithReceipt_ok {table : Table F} :
    retryWithReceipt table receipt previous item = .ok (r, floor) ↔
      clockFloor table receipt.isSome previous item = .ok floor ∧
        (∀ e, receipt = some e → e.digest = item.digest) ∧ r = receipt.map (receiptFor · true) := by
  unfold retryWithReceipt
  rw [bind_ok]
  cases receipt with
  | none => simp [eq_comm]
  | some e =>
    simp only [ensure_bind, Except.ok.injEq, Prod.mk.injEq, Option.some.injEq, forall_eq',
      Option.map_some, Option.isSome_some]
    constructor
    · rintro ⟨_, hf, hd, rfl, rfl⟩
      exact ⟨hf, hd, rfl⟩
    · rintro ⟨hf, hd, rfl⟩
      exact ⟨_, hf, hd, rfl, rfl⟩

theorem context_bind_ok {o : Option α} {f : α → Except String (β × γ)} {g : γ → δ} {b : β}
    {d : δ} :
    (context o e >>= fun a => f a >>= fun x => .ok (x.1, g x.2)) = .ok (b, d) ↔
      ∃ a c, o = some a ∧ f a = .ok (b, c) ∧ d = g c := by
  rw [bind_ok]
  simp only [context_ok]
  constructor
  · rintro ⟨a, ha, h⟩
    obtain ⟨⟨b', c⟩, hf, h⟩ := bind_ok.mp h
    cases h
    exact ⟨a, c, ha, hf, rfl⟩
  · rintro ⟨a, c, ha, hf, rfl⟩
    exact ⟨a, ha, bind_ok.mpr ⟨(b, c), hf, rfl⟩⟩

theorem groupRetryWithFloors_ok {floors floors' : Map Int} :
    groupRetryWithFloors s.content floors item = .ok (r, floors') ↔
      ∃ table floor, s.content.tables[item.table]? = some table ∧
        retryWithReceipt table table.receipts[item.requestId]? floors[item.table]? item =
          .ok (r, floor) ∧ floors' = floor.elim floors (floors.insert item.table) :=
  context_bind_ok (g := fun floor : Option Int => floor.elim floors (floors.insert item.table))

theorem retry_ok {o o' : Overlay} :
    o.retry s item = .ok (r, o') ↔
      ∃ table floor, s.content.tables[item.table]? = some table ∧
        retryWithReceipt table ((o.staged item).or table.receipts[item.requestId]?)
          (o.floor s item.table) item = .ok (r, floor) ∧
        o' = { o with floors := floor.elim o.floors (o.floors.insert item.table) } :=
  context_bind_ok (g := fun floor : Option Int =>
    ({ o with floors := floor.elim o.floors (o.floors.insert item.table) } : Overlay))

theorem timed_eq (ht : s.content.tables[t]? = some table) :
    timed s t = table.config.idempotencyWindowUs.isSome := by
  simp [timed, ht]

theorem floor_insert {o : Overlay} {t t' : Text} :
    Overlay.floor { o with floors := o.floors.insert t f } s t' =
      if t = t' then some f else o.floor s t' := by
  simp only [Overlay.floor, Map.lookup_insert]
  split <;> simp

theorem floor_retry {o o' : Overlay} (h : o.retry s item = .ok (r, o')) (t : Text) :
    AtLeast (o'.floor s t) (o.floor s t) := by
  obtain ⟨table, floor, -, hr, rfl⟩ := retry_ok.mp h
  obtain ⟨hc, -⟩ := retryWithReceipt_ok.mp hr
  cases hw : table.config.idempotencyWindowUs with
  | none =>
    rw [clockFloor_none hw] at hc
    cases hc
    exact .refl _
  | some window =>
    obtain ⟨issued, -, -, -, rfl⟩ := (clockFloor_ok hw).mp hc
    simp only [Option.elim_some, floor_insert]
    split
    · subst t
      exact atLeast_some (Int.le_max_left _ _)
    · exact .refl _

theorem floor_durableDuplicate {o : Overlay} (t : Text) :
    AtLeast ((o.durableDuplicate s item).floor s t) (o.floor s t) := by
  unfold Overlay.durableDuplicate
  split
  · exact .refl _
  · rw [floor_insert]
    split
    · subst t
      exact atLeast_some (Int.le_max_left _ _)
    · exact .refl _

section
variable {a : Scan} {o : Overlay}

theorem i64Min_le_duplicateClockFloor (h : duplicateClockFloor s item = some floor) :
    i64Min ≤ floor := by
  obtain ⟨table, -, h⟩ := Option.bind_eq_some_iff.mp h
  obtain ⟨window, -, rfl⟩ := Option.map_eq_some_iff.mp h
  exact i64Min_le_checkedCutoff

theorem duplicateClockFloor_le_i64Max (h : duplicateClockFloor s item = some floor) :
    floor ≤ i64Max := by
  obtain ⟨table, -, h⟩ := Option.bind_eq_some_iff.mp h
  obtain ⟨window, -, rfl⟩ := Option.map_eq_some_iff.mp h
  simp only [checkedCutoff, Engine.saturatingSub, Engine.clamp, i64Min, i64Max]
  omega

theorem floor_stage {sequence : Nat} (x : Request) (t : Text) :
    AtLeast ((o.stage s sequence admitted x).floor s t) (o.floor s t) := by
  unfold Overlay.stage
  split
  · exact .refl _
  · exact floor_durableDuplicate t
  · split
    · split
      · rename_i h
        exact (floor_durableDuplicate t).trans (floor_retry h t)
      · exact .refl _
    · exact .refl _
  · split
    · exact .refl _
    · rename_i h
      exact floor_retry h t
    · rename_i h
      split
      · exact floor_retry h t
      · exact floor_retry h t

end

-- The chosen floors

theorem baseline_live {l : List Request} {m : Map (Option Int)}
    (hm : ∀ (t : Text) v, m[t]? = some v → v = s.idempotencyFloors[t]?) {t : Text}
    (h : (l.foldl (noteTable s) m)[t]? = some v) : v = s.idempotencyFloors[t]? := by
  induction l generalizing m with
  | nil => exact hm t v h
  | cons x l ih =>
    refine ih (fun t v hv => ?_) h
    unfold noteTable at hv
    split at hv
    · exact hm t v hv
    · split at hv
      · rw [Map.lookup_insert] at hv
        split at hv
        · subst t
          cases hv
          rfl
        · exact hm t v hv
      · exact hm t v hv

theorem baseline_mem {l : List Request} {m : Map (Option Int)}
    (h : m[t]?.isSome ∨ ∃ item outcome, (.ok item, outcome) ∈ l ∧ item.table = t ∧
      timed s t = true) : (l.foldl (noteTable s) m)[t]?.isSome := by
  induction l generalizing m with
  | nil =>
    obtain h | ⟨_, _, hm, -⟩ := h
    · exact h
    · cases hm
  | cons x l ih =>
    refine ih ?_
    obtain h | ⟨item, outcome, hm, rfl, ht⟩ := h
    · left
      unfold noteTable
      split
      · exact h
      · split
        · rw [Map.lookup_insert]
          split
          · rfl
          · exact h
        · exact h
    · rcases List.mem_cons.mp hm with rfl | hm
      · left
        simp [noteTable, ht]
      · exact .inr ⟨item, outcome, hm, rfl, ht⟩

theorem duplicateFloors_cap {a : Scan} : (a.cap s item).duplicateFloors = a.duplicateFloors := by
  unfold Scan.cap
  split
  · split <;> rfl
  · rfl

theorem duplicateFloors_scanRequest {a : Scan} :
    (scanRequest s a x).duplicateFloors = raiseDuplicate s a.duplicateFloors x := by
  obtain ⟨request, outcome⟩ := x
  cases request with
  | error e => rfl
  | ok item =>
    match outcome with
    | some (.ok r) =>
      simp only [scanRequest, raiseDuplicate]
      cases duplicateClockFloor s item <;> rfl
    | some (.error e) =>
      simp only [scanRequest, raiseDuplicate]
      split
      · exact duplicateFloors_cap
      · rfl
    | none =>
      simp only [scanRequest, raiseDuplicate]
      split <;> first | rfl | exact duplicateFloors_cap

theorem duplicateFloors_scan (a : Scan) : (group.foldl (scanRequest s) a).duplicateFloors =
    group.foldl (raiseDuplicate s) a.duplicateFloors := by
  induction group generalizing a with
  | nil => rfl
  | cons x group ih => rw [List.foldl_cons, ih, duplicateFloors_scanRequest, List.foldl_cons]

theorem lookup_raiseDuplicate {floors : Map Int}
    (h : (raiseDuplicate s floors x)[t]? ≠ floors[t]?) :
    ∃ item r floor, x = (.ok item, some (.ok r)) ∧ item.table = t ∧
      duplicateClockFloor s item = some floor ∧ timed s t = true ∧
      (raiseDuplicate s floors x)[t]? = some (max (floors[t]?.getD i64Min) floor) := by
  unfold raiseDuplicate at h ⊢
  split at h
  · rename_i item r
    cases hd : duplicateClockFloor s item with
    | none => simp [hd] at h
    | some floor =>
      by_cases htable : item.table = t
      · subst htable
        obtain ⟨table, ht, hw⟩ := Option.bind_eq_some_iff.mp hd
        obtain ⟨window, hw, -⟩ := Option.map_eq_some_iff.mp hw
        exact ⟨item, r, floor, rfl, rfl, hd, by rw [timed_eq ht, hw]; rfl, by simp [raise]⟩
      · simp [hd, raise, htable] at h
  · simp at h

theorem duplicateFloors_mem {floors : Map Int}
    (h : (group.foldl (raiseDuplicate s) floors)[t]?.isSome) : floors[t]?.isSome ∨
      ∃ item outcome, (.ok item, outcome) ∈ group ∧ item.table = t ∧ timed s t = true := by
  induction group generalizing floors with
  | nil => exact .inl h
  | cons x group ih =>
    obtain h | ⟨item, outcome, hm, ht⟩ := ih h
    · by_cases hx : (raiseDuplicate s floors x)[t]? = floors[t]?
      · exact .inl (hx ▸ h)
      · obtain ⟨item, r, floor, rfl, ht, -, htimed, -⟩ := lookup_raiseDuplicate hx
        exact .inr ⟨item, _, List.mem_cons_self, ht, htimed⟩
    · exact .inr ⟨item, outcome, List.mem_cons_of_mem _ hm, ht⟩

theorem baseline_duplicate
    (h : (group.foldl (raiseDuplicate s) ∅)[t]? = some floor) :
    (baseline s group)[t]? = some s.idempotencyFloors[t]? := by
  obtain hnone | hmem := duplicateFloors_mem (by rw [h]; rfl)
  · simp at hnone
  · obtain ⟨v, hv⟩ := Option.isSome_iff_exists.mp (baseline_mem (m := ∅) (.inr hmem))
    rw [← baseline_live (by simp) hv]
    exact hv

theorem lookup_groupCheckpointFloors (t : Text) :
    (groupCheckpointFloors s group)[t]? =
      (group.foldl (raiseDuplicate s) ∅)[t]?.elim (baseline s group)[t]? fun floor =>
        some (some (max (((baseline s group)[t]?.getD none).getD i64Min) (min floor
          (((group.foldl (scanRequest s) (startScan s group)).ceilings)[t]?.getD i64Max)))) := by
  have hscan : (group.foldl (scanRequest s) (startScan s group)).duplicateFloors =
      group.foldl (raiseDuplicate s) ∅ := duplicateFloors_scan _
  rw [← hscan]
  refine Map.lookup_foldl _ (fun t floor old => some (some (max ((old.getD none).getD i64Min)
    (min floor (((group.foldl (scanRequest s) (startScan s group)).ceilings)[t]?.getD i64Max)))))
    (fun m p t => ?_) _ _ t
  simp only [Map.lookup_insert]
  split
  · rename_i he
    rw [he]
  · rfl

theorem groupCheckpointFloors_live
    (h : (groupCheckpointFloors s group)[t]? = some floor) :
    AtLeast floor s.idempotencyFloors[t]? := by
  rw [lookup_groupCheckpointFloors] at h
  cases hd : (group.foldl (raiseDuplicate s) ∅)[t]? with
  | none =>
    rw [hd] at h
    rw [baseline_live (by simp) h]
    exact .refl _
  | some f =>
    rw [hd] at h
    cases h
    rw [baseline_duplicate hd]
    exact atLeast_some (Int.le_max_left _ _)

-- Requests that staging takes

/-- A request without a durable outcome that the retry of the staging loop lets pass. -/
def Taken (s : State (Manifest F)) (sequence : Nat) (admitted : AppendItem → Bool)
    (group : List Request) (item : AppendItem) : Prop :=
  ∃ before after r, group = before ++ (.ok item, none) :: after ∧
    (overlay s sequence admitted before).retry s item = .ok r

/-- A request that is new to the durable state of a timed table. -/
def Eligible (s : State (Manifest F)) (sequence : Nat) (admitted : AppendItem → Bool)
    (group : List Request) (item : AppendItem) : Prop :=
  Taken s sequence admitted group item ∧
    ∃ table, s.content.tables[item.table]? = some table ∧
      table.config.idempotencyWindowUs.isSome ∧ table.receipts[item.requestId]? = none

section
variable {sequence : Nat} {admitted : AppendItem → Bool} {item : AppendItem}

theorem overlay_live (l : List Request) (t : Text) :
    AtLeast ((overlay s sequence admitted l).floor s t) s.idempotencyFloors[t]? := by
  have hgen : ∀ o : Overlay, AtLeast ((l.foldl (Overlay.stage s sequence admitted) o).floor s t)
      (o.floor s t) := by
    induction l with
    | nil => exact fun o => .refl _
    | cons x l ih => exact fun o => (ih _).trans (floor_stage x t)
  have hf : Overlay.floor ⟨∅, []⟩ s t = s.idempotencyFloors[t]? := by simp [Overlay.floor]
  rw [← hf]
  exact hgen _

theorem Taken.issued (h : Taken s sequence admitted group item)
    (ht : s.content.tables[item.table]? = some table)
    (hw : table.config.idempotencyWindowUs = some window) :
    ∃ issued, parseTimedRequestId item.requestId = .ok issued ∧
      s.idempotencyFloors[item.table]?.getD i64Min ≤ issued := by
  obtain ⟨before, after, ⟨r, o'⟩, -, hr⟩ := h
  obtain ⟨table', floor, ht', hr, -⟩ := retry_ok.mp hr
  rw [ht] at ht'
  cases ht'
  obtain ⟨issued, hp, hle, -, -⟩ := (clockFloor_ok hw).mp (retryWithReceipt_ok.mp hr).1
  refine ⟨issued, hp, ?_⟩
  have hmin : i64Min ≤ checkedCutoff item.nowUs window := i64Min_le_checkedCutoff
  have hlive : AtLeast ((overlay s sequence admitted before).floor s item.table)
      s.idempotencyFloors[item.table]? := overlay_live before item.table
  have := hlive.getD hmin
  omega

end

-- Requests that the chosen floors spare

/-- The scan lets the request pass as a new one, or its durable receipt is still allowed. -/
def Counted (s : State (Manifest F)) (a : Scan) : Request → Prop
  | (.ok item, none) =>
    ∃ simulated, groupRetryWithFloors s.content a.simulated item = .ok (none, simulated)
  | (.ok item, some (.error _)) => retained s item = true
  | _ => False

/-- A counted request of the table was issued no later. -/
def CappedAt (s : State (Manifest F)) (a : Scan) (group : List Request) (t : Text) (n : Int) :
    Prop :=
  ∃ before after item outcome issued, group = before ++ (.ok item, outcome) :: after ∧
    Counted s (before.foldl (scanRequest s) a) (.ok item, outcome) ∧ item.table = t ∧
    parseTimedRequestId item.requestId = .ok issued ∧ issued ≤ n

/-- The clock of a durable duplicate of the table is later. -/
def Overtaken (s : State (Manifest F)) (group : List Request) (t : Text) (n : Int) : Prop :=
  ∃ item r floor, (.ok item, some (.ok r)) ∈ group ∧ item.table = t ∧
    duplicateClockFloor s item = some floor ∧ n < floor

/-- A request of the table that was issued then is spared: no durable duplicate overtakes it, or
the scan counts one that is no later. -/
def Spared (s : State (Manifest F)) (group : List Request) (t : Text) (issued : Int) : Prop :=
  Overtaken s group t issued → CappedAt s (startScan s group) group t issued

theorem parseI64_le (h : Engine.parseI64 key = some n) : n ≤ i64Max := by
  unfold Engine.parseI64 at h
  split at h
  simp only [Option.ite_none_right_eq_some, Option.some.injEq] at h
  obtain ⟨⟨-, -, -, hle⟩, rfl⟩ := h
  exact hle

theorem parseTimedRequestId_le (h : parseTimedRequestId key = .ok issued) : issued ≤ i64Max := by
  obtain ⟨-, h⟩ := ensure_bind.mp h
  obtain ⟨rest, -, h⟩ := bind_ok.mp h
  obtain ⟨value, hv, h⟩ := bind_ok.mp h
  obtain ⟨-, h⟩ := ensure_bind.mp h
  cases h
  exact parseI64_le (context_ok.mp hv)

variable {a : Scan}

theorem cap_le (ht : timed s t = true) :
    (∃ c, (a.cap s item).ceilings[t]? = some c ∧ c ≤ n) ↔
      (∃ c, a.ceilings[t]? = some c ∧ c ≤ n) ∨
        item.table = t ∧ ∃ issued, parseTimedRequestId item.requestId = .ok issued ∧
          issued ≤ n := by
  unfold Scan.cap
  by_cases htable : item.table = t
  · subst htable
    rw [if_pos ht]
    cases hp : parseTimedRequestId item.requestId with
    | error e => simp
    | ok issued =>
      have := parseTimedRequestId_le hp
      simp only [lower, Map.lookup_insert, if_true, Option.some.injEq, exists_eq_left',
        Except.ok.injEq, true_and]
      cases hc : a.ceilings[item.table]? with
      | none =>
        simp only [Option.getD_none, reduceCtorEq, false_and, exists_false, false_or]
        omega
      | some c =>
        simp only [Option.getD_some, Option.some.injEq, exists_eq_left']
        omega
  · have hsame : (∀ issued, (lower a.ceilings item.table issued)[t]? = a.ceilings[t]?) := by
      intro issued
      simp [lower, htable]
    split
    · split
      · simp [hsame, htable]
      · simp [htable]
    · simp [htable]

theorem scanRequest_le (ht : timed s t = true) :
    (∃ c, (scanRequest s a x).ceilings[t]? = some c ∧ c ≤ n) ↔
      (∃ c, a.ceilings[t]? = some c ∧ c ≤ n) ∨
        ∃ item outcome issued, x = (.ok item, outcome) ∧ Counted s a x ∧ item.table = t ∧
          parseTimedRequestId item.requestId = .ok issued ∧ issued ≤ n := by
  obtain ⟨request, outcome⟩ := x
  cases request with
  | error e => simp [scanRequest]
  | ok item =>
    match outcome with
    | some (.ok r) =>
      simp only [scanRequest, Counted]
      split <;> simp
    | some (.error e) =>
      simp only [scanRequest, Counted]
      by_cases hk : retained s item = true
      · rw [if_pos hk, cap_le ht]
        simp [hk]
      · rw [if_neg hk]
        simp [hk]
    | none =>
      simp only [scanRequest, Counted]
      split
      · rename_i hr
        simp [hr]
      · rename_i hr
        simp [hr]
      · rename_i hr
        rw [cap_le (a := { a with simulated := _ }) ht]
        simp [hr]

theorem cappedAt_iff (ht : timed s t = true) :
    (∃ c, ((group.foldl (scanRequest s) a).ceilings)[t]? = some c ∧ c ≤ n) ↔
      (∃ c, a.ceilings[t]? = some c ∧ c ≤ n) ∨ CappedAt s a group t n := by
  induction group generalizing a with
  | nil => simp [CappedAt]
  | cons x group ih =>
    rw [List.foldl_cons, ih, scanRequest_le ht, or_assoc]
    refine or_congr_right ?_
    constructor
    · rintro (⟨item, outcome, issued, rfl, hc, h⟩ | ⟨before, after, item, outcome, issued, rfl, h⟩)
      · exact ⟨[], group, item, outcome, issued, rfl, hc, h⟩
      · exact ⟨x :: before, after, item, outcome, issued, rfl, h⟩
    · rintro ⟨before, after, item, outcome, issued, hg, h⟩
      cases before with
      | nil =>
        obtain ⟨rfl, rfl⟩ := List.cons.inj hg
        exact .inl ⟨item, outcome, issued, rfl, h⟩
      | cons y before =>
        obtain ⟨rfl, rfl⟩ := List.cons.inj hg
        exact .inr ⟨before, after, item, outcome, issued, rfl, h⟩

theorem scanRequest_lt :
    (∃ c, (scanRequest s a x).duplicateFloors[t]? = some c ∧ n < c) ↔
      (∃ c, a.duplicateFloors[t]? = some c ∧ n < c) ∨
        ∃ item r floor, x = (.ok item, some (.ok r)) ∧ item.table = t ∧
          duplicateClockFloor s item = some floor ∧ n < floor := by
  obtain ⟨request, outcome⟩ := x
  cases request with
  | error e => simp [scanRequest]
  | ok item =>
    match outcome with
    | some (.ok r) =>
      cases hd : duplicateClockFloor s item with
      | none => simp [scanRequest, hd]
      | some floor =>
        have hmin := i64Min_le_duplicateClockFloor hd
        simp only [scanRequest, hd, raise, Map.lookup_insert]
        by_cases htable : item.table = t
        · subst htable
          cases hc : a.duplicateFloors[item.table]? with
          | none => simp [hd, hmin]
          | some c => simp [hd]
        · simp [htable]
    | some (.error e) =>
      simp only [scanRequest]
      split <;> simp [duplicateFloors_cap]
    | none =>
      simp only [scanRequest]
      split <;> simp [duplicateFloors_cap]

theorem overtaken_iff :
    (∃ c, ((group.foldl (scanRequest s) a).duplicateFloors)[t]? = some c ∧ n < c) ↔
      (∃ c, a.duplicateFloors[t]? = some c ∧ n < c) ∨ Overtaken s group t n := by
  induction group generalizing a with
  | nil => simp [Overtaken]
  | cons x group ih =>
    rw [List.foldl_cons, ih, scanRequest_lt, or_assoc]
    refine or_congr_right ?_
    constructor
    · rintro (⟨item, r, floor, rfl, h⟩ | ⟨item, r, floor, hm, h⟩)
      · exact ⟨item, r, floor, List.mem_cons_self, h⟩
      · exact ⟨item, r, floor, List.mem_cons_of_mem _ hm, h⟩
    · rintro ⟨item, r, floor, hm, h⟩
      rcases List.mem_cons.mp hm with rfl | hm
      · exact .inl ⟨item, r, floor, rfl, h⟩
      · exact .inr ⟨item, r, floor, hm, h⟩

section
variable {sequence : Nat} {admitted : AppendItem → Bool} {item : AppendItem}

theorem groupCheckpointFloors_le_iff (h : Taken s sequence admitted group item)
    (ht : s.content.tables[item.table]? = some table)
    (hw : table.config.idempotencyWindowUs.isSome)
    (hp : parseTimedRequestId item.requestId = .ok issued) :
    (∀ floor, (groupCheckpointFloors s group)[item.table]? = some (some floor) → floor ≤ issued) ↔
      Spared s group item.table issued := by
  obtain ⟨window, hwindow⟩ := Option.isSome_iff_exists.mp hw
  obtain ⟨issued', hp', hlive⟩ := h.issued ht hwindow
  rw [hp] at hp'
  cases hp'
  have htimed : timed s item.table = true := by rw [timed_eq ht, hw]
  have hbase : ∀ v, (baseline s group)[item.table]? = some v →
      v = s.idempotencyFloors[item.table]? := fun v hv => baseline_live (by simp) hv
  have hcap : (∃ c, ((group.foldl (scanRequest s) (startScan s group)).ceilings)[item.table]? =
      some c ∧ c ≤ issued) ↔ CappedAt s (startScan s group) group item.table issued :=
    (cappedAt_iff htimed).trans (or_iff_right (by simp [startScan]))
  have hdup : (∃ c, ((group.foldl (scanRequest s)
    (startScan s group)).duplicateFloors)[item.table]? =
      some c ∧ issued < c) ↔ Overtaken s group item.table issued :=
    overtaken_iff.trans (or_iff_right (by simp [startScan]))
  have hmax : Overtaken s group item.table issued → issued < i64Max := by
    rintro ⟨d, r, floor, -, -, hd, hlt⟩
    exact hlt.trans_le (duplicateClockFloor_le_i64Max hd)
  rw [lookup_groupCheckpointFloors, Spared, ← hcap]
  rw [duplicateFloors_scan] at hdup
  cases hd : (group.foldl (raiseDuplicate s) ∅)[item.table]? with
  | none =>
    refine iff_of_true (fun floor hf => ?_) fun ho => ?_
    · rw [Option.elim_none] at hf
      rw [← hbase _ hf] at hlive
      exact hlive
    · obtain ⟨c, hc, -⟩ := hdup.mpr ho
      cases hd.symm.trans hc
  | some f =>
    have hover : Overtaken s group item.table issued ↔ issued < f := by
      rw [← hdup, show (startScan s group).duplicateFloors = ∅ from rfl, hd]
      simp
    have hb : ((baseline s group)[item.table]?.getD none).getD i64Min ≤ issued := by
      rw [baseline_duplicate hd]
      exact hlive
    rw [hover] at hmax ⊢
    simp only [Option.elim_some, Option.some.injEq, forall_eq']
    cases ((group.foldl (scanRequest s) (startScan s group)).ceilings)[item.table]? with
    | none =>
      simp only [Option.getD_none, reduceCtorEq, false_and, exists_false, imp_false, Int.not_lt]
      omega
    | some c =>
      simp only [Option.getD_some, Option.some.injEq, exists_eq_left']
      omega

end

end Varve.Commit
