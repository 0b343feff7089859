import Varve.Commit.FloorChoice

/-!
# Staging a group on raised floors

A group that is staged again after the floors of its tables have moved takes the same requests, if
none of those it took is below the new floors.
-/

namespace Varve.Commit

open Engine (Table Manifest parseTimedRequestId checkedCutoff i64Min)

variable {F : Type} {s s' : State (Manifest F)} {group : List Request} {item : AppendItem}
  {o o' o₁ : Overlay} {t : Text}

def join (a b : Option Int) : Option Int := Option.merge max a b

theorem join_of_atLeast (h : AtLeast b a) : join a b = b := by
  cases a with
  | none => cases b <;> rfl
  | some x =>
    obtain ⟨y, rfl, hle⟩ := h x rfl
    exact congrArg some (by omega)

theorem getD_join (hn : i64Min ≤ n) : max ((join a b).getD i64Min) n =
    max (max (a.getD i64Min) n) (max (b.getD i64Min) n) := by
  cases a <;> cases b <;> simp only [join, Option.merge, Option.getD_none, Option.getD_some] <;>
    omega

theorem join_max (hn : i64Min ≤ n) :
    some (max ((join a b).getD i64Min) n) = join (some (max (a.getD i64Min) n)) b := by
  cases a <;> cases b <;> simp only [join, Option.merge, Option.getD_none, Option.getD_some] <;>
    exact congrArg some (by omega)

/-- The same tables with raised floors; of the receipts that the group names only those below the
floors may be gone. -/
structure Rebased (s s' : State (Manifest F)) (group : List Request) : Prop where
  floors : ∀ t : Text, AtLeast s'.idempotencyFloors[t]? s.idempotencyFloors[t]?
  tables : ∀ t : Text, s'.content.tables[t]?.map (·.config) = s.content.tables[t]?.map (·.config)
  receipts : ∀ item outcome table table', (.ok item, outcome) ∈ group →
    s.content.tables[item.table]? = some table → s'.content.tables[item.table]? = some table' →
    table'.receipts[item.requestId]? = table.receipts[item.requestId]? ∨
      table'.receipts[item.requestId]? = none ∧ table.config.idempotencyWindowUs.isSome ∧
        ∀ issued, parseTimedRequestId item.requestId = .ok issued →
          ∃ floor, s'.idempotencyFloors[item.table]? = some floor ∧ issued < floor

def Clears (s : State (Manifest F)) (item : AppendItem) : Prop :=
  timed s item.table = true → ∀ issued, parseTimedRequestId item.requestId = .ok issued →
    ∀ floor, s.idempotencyFloors[item.table]? = some floor → floor ≤ issued

structure Shifted (s s' : State (Manifest F)) (o o' : Overlay) : Prop where
  receipts : o'.receipts = o.receipts
  floors : ∀ t, o'.floor s' t = join (o.floor s t) s'.idempotencyFloors[t]?

theorem shifted_start (h : Rebased s s' group) : Shifted s s' ⟨∅, []⟩ ⟨∅, []⟩ where
  receipts := rfl
  floors t := by
    simp only [Overlay.floor, Std.ExtTreeMap.getElem?_empty, Option.none_or]
    exact (join_of_atLeast (h.floors t)).symm

theorem Rebased.table {table : Table F} (h : Rebased s s' group)
    (ht : s.content.tables[t]? = some table) :
    ∃ table', s'.content.tables[t]? = some table' ∧ table'.config = table.config := by
  have hc := h.tables t
  rw [ht, Option.map_some] at hc
  exact Option.map_eq_some_iff.mp hc

theorem Rebased.table_none (h : Rebased s s' group) (ht : s.content.tables[t]? = none) :
    s'.content.tables[t]? = none := by
  have hc := h.tables t
  rw [ht, Option.map_none] at hc
  exact Option.map_eq_none_iff.mp hc

theorem Rebased.duplicateClockFloor (h : Rebased s s' group) :
    duplicateClockFloor s' item = duplicateClockFloor s item := by
  unfold Commit.duplicateClockFloor
  cases ht : s.content.tables[item.table]? with
  | none => rw [h.table_none ht]
  | some table =>
    obtain ⟨table', ht', hc⟩ := h.table ht
    simp [ht', hc]

theorem Rebased.timed {table : Table F} (h : Rebased s s' group)
    (ht : s.content.tables[t]? = some table) :
    Commit.timed s' t = table.config.idempotencyWindowUs.isSome := by
  obtain ⟨table', ht', hc⟩ := h.table ht
  rw [timed_eq ht', hc]

theorem Shifted.staged (h : Shifted s s' o o') : o'.staged item = o.staged item := by
  rw [Overlay.staged, h.receipts, Overlay.staged]

theorem Shifted.insert (h : Shifted s s' o o')
    (hn : some n' = join (some n) s'.idempotencyFloors[t]?) :
    Shifted s s' { o with floors := o.floors.insert t n }
      { o' with floors := o'.floors.insert t n' } where
  receipts := h.receipts
  floors t' := by
    rw [floor_insert, floor_insert]
    split
    · subst t'
      exact hn
    · exact h.floors t'

theorem Shifted.below (h : Shifted s s' o o') (hf : s'.idempotencyFloors[t]? = some floor)
    (ho : ∀ x, o.floor s t = some x → x ≤ floor) (hn : n ≤ floor) :
    Shifted s s' { o with floors := o.floors.insert t n } o' where
  receipts := h.receipts
  floors t' := by
    rw [floor_insert, h.floors]
    split
    · subst t'
      rw [hf]
      cases hx : o.floor s t with
      | none => exact congrArg some (by omega)
      | some x =>
        have := ho x hx
        exact congrArg some (by omega)
    · rfl

theorem Clears.getD (h : Clears s' item) (ht : timed s' item.table = true)
    (hp : parseTimedRequestId item.requestId = .ok issued) (hn : n ≤ issued) (hmin : i64Min ≤ n) :
    s'.idempotencyFloors[item.table]?.getD i64Min ≤ issued := by
  cases hf : s'.idempotencyFloors[item.table]? with
  | none => exact hmin.trans hn
  | some floor => exact h ht issued hp floor hf

theorem Shifted.retry_ok (hs : Shifted s s' o o') (h : Rebased s s' group)
    (hm : (.ok item, outcome) ∈ group) (hr : o.retry s item = .ok (r, o₁))
    (hc : Clears s' item) :
    ∃ o₁', o'.retry s' item = .ok (r, o₁') ∧ Shifted s s' o₁ o₁' := by
  obtain ⟨table, floor, ht, hretry, rfl⟩ := Commit.retry_ok.mp hr
  obtain ⟨hf, hd, hres⟩ := retryWithReceipt_ok.mp hretry
  obtain ⟨table', ht', hconfig⟩ := h.table ht
  have htimed := h.timed ht
  cases hw : table.config.idempotencyWindowUs with
  | none =>
    have hreceipt : table'.receipts[item.requestId]? = table.receipts[item.requestId]? := by
      rcases h.receipts item outcome table table' hm ht ht' with he | ⟨-, hsome, -⟩
      · exact he
      · simp [hw] at hsome
    rw [clockFloor_none hw] at hf
    cases hf
    refine ⟨o', Commit.retry_ok.mpr ⟨table', none, ht', retryWithReceipt_ok.mpr
      ⟨clockFloor_none (hconfig ▸ hw), ?_, ?_⟩, rfl⟩, hs⟩
    · rwa [hs.staged, hreceipt]
    · rwa [hs.staged, hreceipt]
  | some window =>
    obtain ⟨issued, hp, hle, hskew, rfl⟩ := (clockFloor_ok hw).mp hf
    have hmin : i64Min ≤ checkedCutoff item.nowUs window := i64Min_le_checkedCutoff
    have hclear := hc.getD (htimed.trans (by rw [hw]; rfl)) hp
      ((Int.le_max_right _ _).trans hle) hmin
    have hreceipt : table'.receipts[item.requestId]? = table.receipts[item.requestId]? := by
      rcases h.receipts item outcome table table' hm ht ht' with he | ⟨-, -, hbelow⟩
      · exact he
      · obtain ⟨floor, hfloor, hlt⟩ := hbelow issued hp
        rw [hfloor, Option.getD_some] at hclear
        omega
    refine ⟨_, Commit.retry_ok.mpr ⟨table', some _, ht', retryWithReceipt_ok.mpr
      ⟨(clockFloor_ok (hconfig ▸ hw)).mpr ⟨issued, hp, ?_, ?_, rfl⟩, ?_, ?_⟩, rfl⟩, ?_⟩
    · rw [hs.floors, getD_join hmin]
      omega
    · rwa [hs.staged, hreceipt]
    · rwa [hs.staged, hreceipt]
    · rwa [hs.staged, hreceipt]
    · exact hs.insert (by rw [hs.floors, join_max hmin])

theorem Shifted.retry_below (hs : Shifted s s' o o') (h : Rebased s s' group)
    (hr : o.retry s item = .ok (r, o₁)) (hc : ¬Clears s' item) :
    (∃ e, o'.retry s' item = .error e) ∧ Shifted s s' o₁ o' ∧
      Shifted s s' (o₁.durableDuplicate s item) o' := by
  obtain ⟨table, floor, ht, hretry, rfl⟩ := Commit.retry_ok.mp hr
  obtain ⟨hf, -, -⟩ := retryWithReceipt_ok.mp hretry
  obtain ⟨table', ht', hconfig⟩ := h.table ht
  simp only [Clears, not_forall, Int.not_le] at hc
  obtain ⟨htimed, issued, hp, floor', hfloor, hlt⟩ := hc
  rw [h.timed ht] at htimed
  obtain ⟨window, hw⟩ := Option.isSome_iff_exists.mp htimed
  obtain ⟨issued', hp', hle, -, rfl⟩ := (clockFloor_ok hw).mp hf
  obtain rfl : issued' = issued := Except.ok.inj (hp'.symm.trans hp)
  have hmin : i64Min ≤ checkedCutoff item.nowUs window := i64Min_le_checkedCutoff
  have hbelow : ∀ x, o.floor s item.table = some x → x ≤ floor' := by
    intro x hx
    rw [hx, Option.getD_some] at hle
    omega
  have hfirst := hs.below hfloor hbelow (n := max ((o.floor s item.table).getD i64Min)
    (checkedCutoff item.nowUs window)) (by omega)
  refine ⟨?_, hfirst, ?_⟩
  · cases hres : o'.retry s' item with
    | error e => exact ⟨e, rfl⟩
    | ok x =>
      obtain ⟨table'', _, ht'', hr', -⟩ := Commit.retry_ok.mp hres
      rw [ht'] at ht''
      cases ht''
      obtain ⟨hf', -, -⟩ := retryWithReceipt_ok.mp hr'
      obtain ⟨_, hp'', hle', -, -⟩ := (clockFloor_ok (hconfig ▸ hw)).mp hf'
      cases Except.ok.inj (hp.symm.trans hp'')
      rw [hs.floors, getD_join hmin, hfloor, Option.getD_some] at hle'
      omega
  · have hclock : duplicateClockFloor s item = some (checkedCutoff item.nowUs window) := by
      simp [duplicateClockFloor, ht, hw]
    simp only [Overlay.durableDuplicate, hclock]
    refine hfirst.below hfloor (fun x hx => ?_) ?_
    · rw [floor_insert, if_pos rfl] at hx
      cases hx
      omega
    · rw [Option.elim_some, floor_insert, if_pos rfl, Option.getD_some]
      omega

theorem Shifted.retry_error (hs : Shifted s s' o o') (h : Rebased s s' group)
    (hm : (.ok item, outcome) ∈ group) (hr : o.retry s item = .error e) :
    ∃ e', o'.retry s' item = .error e' := by
  cases hres : o'.retry s' item with
  | error e => exact ⟨e, rfl⟩
  | ok x =>
    obtain ⟨r, o₁⟩ := x
    obtain ⟨table', floor, ht', hr', -⟩ := Commit.retry_ok.mp hres
    obtain ⟨hf, hd, -⟩ := retryWithReceipt_ok.mp hr'
    cases ht : s.content.tables[item.table]? with
    | none => simp [h.table_none ht] at ht'
    | some table =>
    obtain ⟨table'', ht'', hconfig⟩ := h.table ht
    rw [ht'] at ht''
    cases ht''
    have hreceipts := h.receipts item outcome table table' hm ht ht'
    -- the old floors and receipts let it pass as well
    suffices ∃ r o₁, o.retry s item = .ok (r, o₁) by
      obtain ⟨_, _, hok⟩ := this
      simp [hok] at hr
    cases hw : table.config.idempotencyWindowUs with
    | none =>
      rcases hreceipts with he | ⟨-, hsome, -⟩
      · rw [hs.staged, he] at hd
        exact ⟨_, _, Commit.retry_ok.mpr ⟨table, none, ht, retryWithReceipt_ok.mpr
          ⟨clockFloor_none hw, hd, rfl⟩, rfl⟩⟩
      · simp [hw] at hsome
    | some window =>
      obtain ⟨issued, hp, hle, hskew, -⟩ := (clockFloor_ok (hconfig ▸ hw)).mp hf
      have hmin : i64Min ≤ checkedCutoff item.nowUs window := i64Min_le_checkedCutoff
      rw [hs.floors, getD_join hmin] at hle
      rcases hreceipts with he | ⟨-, -, hbelow⟩
      · rw [hs.staged, he] at hd hskew
        exact ⟨_, _, Commit.retry_ok.mpr ⟨table, some _, ht, retryWithReceipt_ok.mpr
          ⟨(clockFloor_ok hw).mpr ⟨issued, hp, by omega, hskew, rfl⟩, hd, rfl⟩, rfl⟩⟩
      · obtain ⟨floor, hfloor, hlt⟩ := hbelow issued hp
        rw [hfloor, Option.getD_some] at hle
        omega

theorem Shifted.durableDuplicate (hs : Shifted s s' o o') (h : Rebased s s' group) :
    Shifted s s' (o.durableDuplicate s item) (o'.durableDuplicate s' item) := by
  unfold Overlay.durableDuplicate
  rw [h.duplicateClockFloor]
  cases hd : duplicateClockFloor s item with
  | none => exact hs
  | some floor =>
    exact hs.insert (by rw [hs.floors, join_max (i64Min_le_duplicateClockFloor hd)])

theorem Rebased.hasReceipt (h : Rebased s s' group) (hm : (.ok item, outcome) ∈ group)
    (hn : ¬(s.content.tables[item.table]?.any fun t => t.receipts[item.requestId]?.isSome) = true) :
    ¬(s'.content.tables[item.table]?.any fun t => t.receipts[item.requestId]?.isSome) = true := by
  cases ht : s.content.tables[item.table]? with
  | none => simp [h.table_none ht]
  | some table =>
    obtain ⟨table', ht', -⟩ := h.table ht
    rw [ht, Option.any_some] at hn
    rw [ht', Option.any_some]
    rcases h.receipts item outcome table table' hm ht ht' with he | ⟨he, -⟩
    · rwa [he]
    · rw [he]
      exact Bool.false_ne_true

theorem Rebased.hasReceipt_of_clears (h : Rebased s s' group) (hm : (.ok item, outcome) ∈ group)
    (hr : o.retry s item = .ok (r, o₁)) (hc : Clears s' item)
    (hk : (s.content.tables[item.table]?.any fun t => t.receipts[item.requestId]?.isSome) = true) :
    (s'.content.tables[item.table]?.any fun t => t.receipts[item.requestId]?.isSome) = true := by
  obtain ⟨table, floor, ht, hretry, -⟩ := Commit.retry_ok.mp hr
  obtain ⟨table', ht', -⟩ := h.table ht
  rw [ht, Option.any_some] at hk
  rw [ht', Option.any_some]
  rcases h.receipts item outcome table table' hm ht ht' with he | ⟨-, hw, hbelow⟩
  · rwa [he]
  · obtain ⟨window, hwindow⟩ := Option.isSome_iff_exists.mp hw
    obtain ⟨issued, hp, -, -, -⟩ :=
      (clockFloor_ok hwindow).mp (retryWithReceipt_ok.mp hretry).1
    obtain ⟨floor, hfloor, hlt⟩ := hbelow issued hp
    have := hc ((h.timed ht).trans hw) issued hp floor hfloor
    omega

theorem Shifted.stage {sequence : Nat} {admitted : AppendItem → Bool} (hs : Shifted s s' o o')
    (h : Rebased s s' group) (hm : x ∈ group)
    (hnew : ∀ item o₁, x = (.ok item, none) → o.retry s item = .ok (none, o₁) → Clears s' item) :
    Shifted s s' (o.stage s sequence admitted x) (o'.stage s' sequence admitted x) := by
  obtain ⟨request, outcome⟩ := x
  cases request with
  | error e => exact hs
  | ok item =>
    match outcome, hm, hnew with
    | some (.ok _), hm, _ => exact hs.durableDuplicate h
    | some (.error e), hm, _ =>
      simp only [Overlay.stage]
      split
      · rename_i hknown
        cases hr : o.retry s item with
        | error e =>
          obtain ⟨e', hr'⟩ := hs.retry_error h hm hr
          simp only [hr', ite_self]
          exact hs
        | ok x =>
          obtain ⟨r, o₁⟩ := x
          by_cases hc : Clears s' item
          · obtain ⟨o₁', hr', hs'⟩ := hs.retry_ok h hm hr hc
            rw [hr', if_pos (h.hasReceipt_of_clears hm hr hc hknown)]
            exact hs'.durableDuplicate h
          · obtain ⟨⟨e, hr'⟩, -, hs'⟩ := hs.retry_below h hr hc
            simp only [hr', ite_self]
            exact hs'
      · rename_i hunknown
        rw [if_neg (h.hasReceipt hm hunknown)]
        exact hs
    | none, hm, hnew =>
      simp only [Overlay.stage]
      cases hr : o.retry s item with
      | error e =>
        obtain ⟨e', hr'⟩ := hs.retry_error h hm hr
        rw [hr']
        exact hs
      | ok x =>
        obtain ⟨r, o₁⟩ := x
        cases r with
        | none =>
          obtain ⟨o₁', hr', hs'⟩ := hs.retry_ok h hm hr (hnew item o₁ rfl hr)
          rw [hr']
          dsimp only
          split
          · exact ⟨congrArg (_ :: ·) hs'.receipts, hs'.floors⟩
          · exact hs'
        | some r =>
          by_cases hc : Clears s' item
          · obtain ⟨o₁', hr', hs'⟩ := hs.retry_ok h hm hr hc
            rw [hr']
            exact hs'
          · obtain ⟨⟨e, hr'⟩, hs', -⟩ := hs.retry_below h hr hc
            rw [hr']
            exact hs'

/-- No new request that staging takes is below the raised floors. -/
def Keeps (s s' : State (Manifest F)) (sequence : Nat) (admitted : AppendItem → Bool)
    (group : List Request) : Prop :=
  ∀ item, Eligible s sequence admitted group item → Clears s' item

section
variable {sequence : Nat} {admitted : AppendItem → Bool}

theorem Rebased.shifted (h : Rebased s s' group) (hk : Keeps s s' sequence admitted group)
    (hg : group = before ++ after) :
    Shifted s s' (overlay s sequence admitted before) (overlay s' sequence admitted before) := by
  induction before using List.reverseRecOn generalizing after with
  | nil => exact shifted_start h
  | append_singleton before x ih =>
    rw [List.append_assoc, List.singleton_append] at hg
    have hs := ih hg
    simp only [overlay, List.foldl_append, List.foldl_cons, List.foldl_nil]
    refine hs.stage h (hg ▸ List.mem_append_right _ List.mem_cons_self) fun item o₁ hx hr => ?_
    subst hx
    -- a new request of a table with a window is one that staging takes
    intro htimed
    obtain ⟨table, floor, ht, hretry, -⟩ := Commit.retry_ok.mp hr
    obtain ⟨-, -, hnone⟩ := retryWithReceipt_ok.mp hretry
    obtain ⟨-, hreceipt⟩ := Option.or_eq_none_iff.mp (Option.map_eq_none_iff.mp hnone.symm)
    have hw := (h.timed ht).symm.trans htimed
    exact hk item ⟨⟨before, after, _, hg, hr⟩, table, ht, hw, hreceipt⟩ htimed

theorem Rebased.staged_again (h : Rebased s s' group) (hk : Keeps s s' sequence admitted group) :
    (overlay s' sequence admitted group).receipts = (overlay s sequence admitted group).receipts ∧
      ∀ item, Eligible s sequence admitted group item →
        Taken s' sequence admitted group item := by
  refine ⟨(h.shifted hk (List.append_nil group).symm).receipts, fun item he => ?_⟩
  obtain ⟨before, after, ⟨r, o₁⟩, hg, hr⟩ := he.1
  obtain ⟨o₁', hr', -⟩ := (h.shifted hk hg).retry_ok h
    (hg ▸ List.mem_append_right _ List.mem_cons_self) hr (hk item he)
  exact ⟨before, after, _, hg, hr'⟩

end

end Varve.Commit
