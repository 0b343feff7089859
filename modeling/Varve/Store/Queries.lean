import Varve.Query.Pruning
import Varve.Store.Steps

/-!
# Queries over a store

What a query is given of a table, in every state a store reaches.
-/

namespace Varve.Store

open Engine
open Query (BaseSource Holds Meaning PruningSound ScanPlan sourceRow)

variable {F : Type} [F64 F] {config : Config F} {d : Db F} {name : Text}
  {t : Table F}

/-- The files that the segments of a table name, and its rows in memory as one batch. -/
def Inv.stored (h : Inv config d) (ht : d.table name = some t) : Query.Stored t where
  files := t.segments.map fun seg => ⟨seg, [], (d.files[seg.id]?).getD []⟩
  segments := by
    rw [List.map_map]
    exact (List.map_id _).symm
  described := by
    intro w hw
    obtain ⟨seg, hseg, rfl⟩ := List.mem_map.mp hw
    obtain ⟨rows, hrows, hdescribes⟩ := (h.live.tables name t ht).held seg hseg
    rw [hrows]
    exact hdescribes
  hot := [rowsOf name d.live.hot]

theorem Inv.stored_rows (h : Inv config d) (ht : d.table name = some t) :
    (h.stored ht).rows.Perm ((rowsOf name d.live.committed).filter (Rollup.above t.cutoffUs)) := by
  have hrows := (h.live.tables name t ht).rows
  rw [segmentRows] at hrows
  simpa [Query.Stored.rows, Inv.stored, List.flatMap_map] using hrows

/-- A committed row that retention has left and that the `WHERE` is true of is given to the query,
with retained inputs or without. -/
theorem query_given [DecidableEq F] (hd : (machine config).Reachable d) (ht : d.table name = some t)
    {source : BaseSource} {plan : ScanPlan} (hp : PruningSound source plan)
    (hraw : plan.rollup = false) (retained : Bool) (m : Meaning) :
    ∀ r ∈ rowsOf name d.live.committed, i64Min ≤ r.row.timestampUs →
      r.row.timestampUs ≤ i64Max → Rollup.above t.cutoffUs r = true →
      Holds m (sourceRow r) source →
      r ∈ ((inv_reachable hd).stored ht).selected (some plan) retained := by
  intro r hr hlow hhigh habove hholds
  have hrow : r ∈ ((inv_reachable hd).stored ht).rows :=
    ((inv_reachable hd).stored_rows ht).mem_iff.mpr (List.mem_filter.mpr ⟨hr, habove⟩)
  exact hp.kept hraw t _ retained m r hrow hlow hhigh (of_decide_eq_true habove) hholds

end Varve.Store
