import Varve.Rollup.Summary

/-!
# Maps of rollups that track rows

A map of rollups tracks rows when the buckets in its scope have the figures of their rows.
-/

namespace Varve.Rollup

open Engine
open Result (bind_ok ensure_bind)

variable {F : Type} [LinearOrder F] [F64 F]

-- Maps of rollups

/-- Rollups of the widths `W`, exact about the rows `view` has of each bucket in scope. -/
structure Tracks (W : List Int) (scope : Bucket → Prop) (view : Bucket → List (StoredRow F))
    (m : Text → Option (RollupRow F)) : Prop where
  agree : ∀ b, scope b → Exact b (view b) (m b.key)
  built : ∀ key agg, m key = some agg → Built key agg ∧ agg.widthUs ∈ W

/-- The rows of a bucket after one more row was merged at width `w`. -/
def gain (w : Int) (r : StoredRow F) (b : Bucket) : List (StoredRow F) :=
  if bucketOf w r.row = b then [r] else []

section
variable {W W' : List Int} {scope scope' : Bucket → Prop} {view view' : Bucket → List (StoredRow F)}
  {m : Text → Option (RollupRow F)} {w : Int} {r : StoredRow F}

theorem Tracks.mono (h : Tracks W scope view m) (hW : ∀ w ∈ W, w ∈ W')
    (hs : ∀ b, scope' b → scope b ∧ (view b).Perm (view' b)) : Tracks W' scope' view' m where
  agree b hb := (h.agree b (hs b hb).1).perm (hs b hb).2
  built key agg hk := ⟨(h.built key agg hk).1, hW _ (h.built key agg hk).2⟩

theorem Tracks.bucket (h : Tracks W scope view m) {b : Bucket} {agg : RollupRow F}
    (hm : m b.key = some agg) : rollupBucket agg = b :=
  (Bucket.key_injective (h.built _ _ hm).1.key_eq).symm

theorem Tracks.merge (hF : Ordered F) {agg : RollupRow F} (h : Tracks W scope view m) (hw : w ∈ W)
    (hpos : 0 < w) (hs : i64Min ≤ (bucketOf w r.row).startUs) (hr : Admitted r)
    (hm : Rollup.merge w (m (bucketOf w r.row).key) r = .ok agg) :
    Tracks W scope (fun b => view b ++ gain w r b)
      (fun k => if (bucketOf w r.row).key = k then some agg else m k) where
  agree b hb := by
    by_cases he : bucketOf w r.row = b
    · subst he
      simpa [gain] using (h.agree _ hb).merge hF hm
    · have hk : (bucketOf w r.row).key ≠ b.key := fun hk => he (Bucket.key_injective hk)
      simpa [gain, he, hk] using h.agree b hb
  built key a ha := by
    split at ha
    next hk =>
      obtain rfl := Option.some.inj ha
      have hb := Built.merge hF (fun old ho => (h.built _ _ ho).1) hpos hs hr hm
      have hwidth : w = agg.widthUs := congrArg Bucket.widthUs (Bucket.key_injective hb.key_eq)
      exact ⟨hk ▸ hb, hwidth ▸ hw⟩
    next => exact h.built key a ha

theorem Tracks.skip (h : Tracks W scope view m) (hn : ¬scope (bucketOf w r.row)) :
    Tracks W scope (fun b => view b ++ gain w r b) m := by
  refine h.mono (fun _ hw => hw) fun b hb => ⟨hb, ?_⟩
  have he : bucketOf w r.row ≠ b := fun he => hn (he ▸ hb)
  simp [gain, he]

theorem Tracks.union {n : Text → Option (RollupRow F)} {scopeB : Bucket → Prop}
    (h : Tracks W scope view m) (hn : Tracks [w] scopeB view n)
    (hW : ∀ v, v ∈ W' ↔ v ∈ W ∨ v = w) (hmem : ∀ b, scope' b → b.widthUs ∈ W')
    (hold : ∀ b, scope' b → b.widthUs ∈ W → scope b)
    (hnew : ∀ b, scope' b → b.widthUs = w → scopeB b) :
    Tracks W' scope' view fun k => (n k).or (m k) where
  agree b hb := by
    cases ho : n b.key with
    | some agg =>
      have hwidth : b.widthUs = w := by
        rw [← hn.bucket ho]
        exact List.mem_singleton.mp (hn.built _ _ ho).2
      simpa [ho] using hn.agree b (hnew b hb hwidth)
    | none =>
      rw [Option.none_or]
      by_cases hin : b.widthUs ∈ W
      · exact h.agree b (hold b hb hin)
      -- the width is new, so nothing of it was stored before
      have hwidth : b.widthUs = w := ((hW _).mp (hmem b hb)).resolve_left hin
      have hempty : view b = [] := by simpa [Exact, ho] using hn.agree b (hnew b hb hwidth)
      cases hm : m b.key with
      | none => exact hempty
      | some agg =>
        have := (h.built _ _ hm).2
        rw [show agg.widthUs = b.widthUs from congrArg Bucket.widthUs (h.bucket hm)] at this
        exact absurd this hin
  built key agg hk := by
    rcases Option.or_eq_some_iff.mp hk with hk | ⟨-, hk⟩
    · obtain ⟨hb, hw⟩ := hn.built key agg hk
      exact ⟨hb, (hW _).mpr (.inr (List.mem_singleton.mp hw))⟩
    · obtain ⟨hb, hw⟩ := h.built key agg hk
      exact ⟨hb, (hW _).mpr (.inl hw)⟩

theorem Tracks.filter {t : Map (RollupRow F)} {keep : RollupRow F → Bool}
    (h : Tracks W scope view (t[·]?)) (hs : ∀ b, scope' b → scope b)
    (hkeep : ∀ key agg, Built key agg → scope' (rollupBucket agg) → keep agg = true)
    (hW : ∀ agg : RollupRow F, keep agg = true → agg.widthUs ∈ W → agg.widthUs ∈ W') :
    Tracks W' scope' view ((t.filter fun _ agg => keep agg)[·]?) where
  agree b hb := by
    have ha := h.agree b (hs b hb)
    rw [Std.ExtTreeMap.getElem?_filter']
    cases hm : t[b.key]? with
    | none => simpa [hm] using ha
    | some agg =>
      have hk : keep agg = true := by
        refine hkeep _ agg (h.built _ _ hm).1 ?_
        rw [h.bucket hm]
        exact hb
      simpa [hm, Option.filter, hk] using ha
  built key agg hk := by
    rw [Std.ExtTreeMap.getElem?_filter', Option.filter_eq_some_iff] at hk
    obtain ⟨hb, hw⟩ := h.built key agg hk.1
    exact ⟨hb, hW agg hk.2 hw⟩

end

-- Appended rows

/-- The buckets a table answers for: of an active width and above both cutoffs. -/
def Scope (t : Table F) (b : Bucket) : Prop :=
  b.widthUs ∈ t.config.rollupWidthsUs ∧ (∀ cutoff ∈ t.cutoffUs, cutoff ≤ b.startUs) ∧
    ∀ cutoff ∈ t.rollupCutoffUs, cutoff < b.startUs + b.widthUs

def Updates.see (t : Table F) (u : Updates F) (key : Text) : Option (RollupRow F) :=
  u.rows[key]?.or t.rollups[key]?

omit [LinearOrder F] [F64 F] in
theorem windowStart_ok {ts width b : Int} (h : windowStart ts width = .ok b) :
    0 < width ∧ i64Min ≤ ts / width * width ∧ b = ts / width * width := by
  simp only [windowStart, ensure_bind, Except.ok.injEq] at h
  exact ⟨h.1, h.2.1, h.2.2.symm⟩

theorem saturatingAdd_le {a width cutoff : Int} (ha : i64Min ≤ a) (hw : 0 < width)
    (hc : cutoff < i64Max) (h : saturatingAdd a width ≤ cutoff) : a + width ≤ cutoff := by
  simp only [saturatingAdd, clamp] at h
  omega

theorem lt_saturatingAdd {a width cutoff : Int} (hc : cutoff < i64Max)
    (h : cutoff < a + width) : cutoff < saturatingAdd a width := by
  simp only [saturatingAdd, clamp]
  omega

omit [LinearOrder F] in
theorem updateWidth_ok {t : Table F} {r : StoredRow F} {budget : Nat} {u u' : Updates F} {w : Int}
    (h : updateWidth t r.row r.sequence r.ordinal budget (t.rollups[·]?) u w = .ok u') :
    0 < w ∧ i64Min ≤ (bucketOf w r.row).startUs ∧
    ((∃ cutoff ∈ t.rollupCutoffUs, saturatingAdd (bucketOf w r.row).startUs w ≤ cutoff) ∧ u' = u ∨
      ∃ agg, merge w (u.see t (bucketOf w r.row).key) r = .ok agg ∧
        u'.rows = u.rows.insert (bucketOf w r.row).key agg) := by
  obtain ⟨b, hb, h⟩ := bind_ok.mp h
  obtain ⟨hw, hs, rfl⟩ := windowStart_ok hb
  refine ⟨hw, hs, ?_⟩
  split at h
  next hc => exact .inl ⟨hc, (Except.ok.inj h).symm⟩
  next =>
    simp only [ensure_bind] at h
    obtain ⟨-, h⟩ := h
    simp only [Updates.see, merge, Bucket.key, bucketOf]
    split at h
    next old ho =>
      obtain ⟨agg, hagg, h⟩ := bind_ok.mp h
      exact .inr ⟨agg, by simpa [ho, RollupRow.add] using hagg, by rw [← Except.ok.inj h]⟩
    next ho =>
      obtain ⟨agg, hagg, h⟩ := bind_ok.mp h
      exact .inr ⟨agg, by simpa [ho] using hagg, by rw [← Except.ok.inj h]⟩

section
variable {t : Table F} {r : StoredRow F} {budget : Nat} {u u' : Updates F} {w : Int} {W : List Int}
  {view : Bucket → List (StoredRow F)}

theorem Tracks.updateWidth (hF : Ordered F) (hc : ∀ c ∈ t.rollupCutoffUs, c < i64Max)
    (h : Tracks W (Scope t) view (u.see t)) (hw : w ∈ W) (hr : Admitted r)
    (hu : updateWidth t r.row r.sequence r.ordinal budget (t.rollups[·]?) u w = .ok u') :
    Tracks W (Scope t) (fun b => view b ++ gain w r b) (u'.see t) := by
  obtain ⟨hpos, hs, ⟨⟨c, hcut, hle⟩, rfl⟩ | ⟨agg, hm, hrows⟩⟩ := updateWidth_ok hu
  · refine h.skip fun hscope => ?_
    have hlt := hscope.2.2 c hcut
    have hle' := saturatingAdd_le hs hpos (hc c hcut) hle
    exact absurd hle' (not_le.mpr hlt)
  · have hsee : u'.see t = fun k => if (bucketOf w r.row).key = k then some agg else u.see t k := by
      funext k
      simp only [Updates.see, hrows, Map.lookup_insert]
      split <;> rfl
    rw [hsee]
    exact h.merge hF hw hpos hs hr hm

theorem Tracks.updateWidths (hF : Ordered F) (hc : ∀ c ∈ t.rollupCutoffUs, c < i64Max)
    (hr : Admitted r) {ws : List Int} (hws : ∀ w ∈ ws, w ∈ W)
    (h : Tracks W (Scope t) view (u.see t))
    (hu : ws.foldlM (Rollup.updateWidth t r.row r.sequence r.ordinal budget (t.rollups[·]?)) u =
      .ok u') :
    Tracks W (Scope t) (fun b => view b ++ ws.flatMap fun w => gain w r b) (u'.see t) := by
  induction ws generalizing u view with
  | nil =>
    obtain rfl := Except.ok.inj hu
    simpa using h
  | cons w ws ih =>
    obtain ⟨v, hv, hu⟩ := bind_ok.mp hu
    have hstep := h.updateWidth hF hc (hws w List.mem_cons_self) hr hv
    have := ih (fun w hw => hws w (List.mem_cons_of_mem _ hw)) hstep hu
    simpa only [List.flatMap_cons, List.append_assoc] using this

end

omit [LinearOrder F] [F64 F] in
theorem flatMap_gain {ws : List Int} {r : StoredRow F} {b : Bucket} (hn : ws.Nodup)
    (hb : b.widthUs ∈ ws) : (ws.flatMap fun w => gain w r b) = b.rows [r] := by
  have hother : ∀ w, w ≠ b.widthUs → gain w r b = [] := fun w hw => by
    have he : bucketOf w r.row ≠ b := fun he => hw (congrArg Bucket.widthUs he)
    simp [gain, he]
  have hown : gain b.widthUs r b = b.rows [r] := by
    simp only [gain, Bucket.rows, List.filter_cons, List.filter_nil, decide_eq_true_eq]
  induction ws with
  | nil => cases hb
  | cons w ws ih =>
    obtain ⟨hw, hn⟩ := List.nodup_cons.mp hn
    rcases List.mem_cons.mp hb with rfl | hb
    · have hrest : (ws.flatMap fun w => gain w r b) = [] := by
        simp only [List.flatMap_eq_nil_iff]
        intro v hv
        exact hother v fun he => hw (he ▸ hv)
      rw [List.flatMap_cons, hrest, hown, List.append_nil]
    · have hne : w ≠ b.widthUs := fun he => hw (he ▸ hb)
      rw [List.flatMap_cons, hother w hne, ih hn hb, List.nil_append]

theorem Tracks.updateRows (hF : Ordered F) {t : Table F} {sequence budget : Nat}
    {rows : List (Row F × Nat)} {u u' : Updates F} {committed : List (StoredRow F)}
    (hc : ∀ c ∈ t.rollupCutoffUs, c < i64Max) (hn : t.config.rollupWidthsUs.Nodup)
    (hr : ∀ p ∈ rows, Admitted ⟨p.1, sequence, p.2⟩)
    (h : Tracks t.config.rollupWidthsUs (Scope t) (fun b => b.rows committed) (u.see t))
    (hu : rows.foldlM (fun updates (row, ordinal) => t.config.rollupWidthsUs.foldlM
      (Rollup.updateWidth t row sequence ordinal budget (t.rollups[·]?)) updates) u = .ok u') :
    Tracks t.config.rollupWidthsUs (Scope t)
      (fun b => b.rows (committed ++ rows.map fun (row, ordinal) => ⟨row, sequence, ordinal⟩))
      (u'.see t) := by
  induction rows generalizing u committed with
  | nil =>
    obtain rfl := Except.ok.inj hu
    simpa using h
  | cons p rows ih =>
    obtain ⟨v, hv, hu⟩ := bind_ok.mp hu
    have hstep := Tracks.updateWidths hF hc (hr p List.mem_cons_self) (fun _ hw => hw) h hv
    have hstep' : Tracks t.config.rollupWidthsUs (Scope t)
        (fun b => b.rows (committed ++ [⟨p.1, sequence, p.2⟩])) (v.see t) := by
      refine hstep.mono (fun _ hw => hw) fun b hb => ⟨hb, ?_⟩
      rw [flatMap_gain hn hb.1, Bucket.rows_append]
    simpa using ih (fun q hq => hr q (List.mem_cons_of_mem _ hq)) hstep' hu

-- Backfilled rows

omit [LinearOrder F] in
theorem backfillRow_ok {w : Int} {cutoff : Option Int} {budget : Nat} {b b' : Backfill F}
    {r : StoredRow F} (h : backfillRow w cutoff budget b r = .ok b') :
    (∃ c ∈ cutoff, r.row.timestampUs < c) ∧ b' = b ∨
    0 < w ∧ i64Min ≤ (bucketOf w r.row).startUs ∧
      ∃ agg, merge w b.output[(bucketOf w r.row).key]? r = .ok agg ∧
        b'.output = b.output.insert (bucketOf w r.row).key agg := by
  unfold backfillRow at h
  split at h
  next hc => exact .inl ⟨hc, (Except.ok.inj h).symm⟩
  next =>
    obtain ⟨start, hs, h⟩ := bind_ok.mp h
    obtain ⟨hw, hmin, rfl⟩ := windowStart_ok hs
    refine .inr ⟨hw, hmin, ?_⟩
    simp only [merge, Bucket.key, bucketOf]
    dsimp only at h
    split at h
    next old ho =>
      obtain ⟨agg, ha, h⟩ := bind_ok.mp h
      simp only [Result.ok_bind, ensure_bind, Except.ok.injEq] at h
      exact ⟨agg, by simpa [ho] using ha, by rw [← h.2]⟩
    next ho =>
      obtain ⟨agg, ha, h⟩ := bind_ok.mp h
      simp only [RollupRow.fromRow, hs, Result.ok_bind] at ha
      simp only [Result.ok_bind, ensure_bind, Except.ok.injEq] at h
      exact ⟨agg, by simpa [ho] using ha, by rw [← h.2.2]⟩

section
variable {w : Int} {cutoff : Option Int} {budget : Nat} {done : List (StoredRow F)}

def Above (w : Int) (cutoff : Option Int) (b : Bucket) : Prop :=
  b.widthUs = w ∧ ∀ c ∈ cutoff, c ≤ b.startUs

theorem Tracks.backfillRow (hF : Ordered F) (hpos : 0 < w) {b b' : Backfill F} {r : StoredRow F}
    (h : Tracks [w] (Above w cutoff) (fun c => c.rows done) (b.output[·]?)) (hr : Admitted r)
    (hb : Rollup.backfillRow w cutoff budget b r = .ok b') :
    Tracks [w] (Above w cutoff) (fun c => c.rows (done ++ [r])) (b'.output[·]?) := by
  have hgain : Tracks [w] (Above w cutoff) (fun c => c.rows done ++ gain w r c)
      (b'.output[·]?) := by
    obtain ⟨⟨c, hc, hlt⟩, rfl⟩ | ⟨-, hs, agg, hm, ho⟩ := backfillRow_ok hb
    · refine h.skip fun hscope => ?_
      have hstart := bucketOf_start_le hpos r.row
      exact absurd (hscope.2 c hc) (not_le.mpr (hstart.trans_lt hlt))
    · have hlook : (b'.output[·]?) =
          fun k => if (bucketOf w r.row).key = k then some agg else b.output[k]? := by
        funext k
        rw [ho, Map.lookup_insert]
      rw [hlook]
      exact h.merge hF List.mem_cons_self hpos hs hr hm
  refine hgain.mono (fun _ hw => hw) fun c hc => ⟨hc, ?_⟩
  have hone : ([w].flatMap fun v => gain v r c) = c.rows [r] :=
    flatMap_gain (by simp) (by simp [hc.1])
  rw [List.flatMap_singleton] at hone
  rw [hone, Bucket.rows_append]

theorem Tracks.backfillRows (hF : Ordered F) (hpos : 0 < w) {b b' : Backfill F}
    {rows : List (StoredRow F)}
    (h : Tracks [w] (Above w cutoff) (fun c => c.rows done) (b.output[·]?))
    (hr : ∀ r ∈ rows, Admitted r)
    (hb : rows.foldlM (Rollup.backfillRow w cutoff budget) b = .ok b') :
    Tracks [w] (Above w cutoff) (fun c => c.rows (done ++ rows)) (b'.output[·]?) := by
  induction rows generalizing b done with
  | nil =>
    obtain rfl := Except.ok.inj hb
    simpa using h
  | cons r rows ih =>
    obtain ⟨mid, hmid, hb⟩ := bind_ok.mp hb
    have hstep := h.backfillRow hF hpos (hr r List.mem_cons_self) hmid
    simpa using ih hstep (fun x hx => hr x (List.mem_cons_of_mem _ hx)) hb

theorem Tracks.aggregateWidth (hF : Ordered F) (hpos : 0 < w) {out out' : Map (RollupRow F)}
    {rows : List (StoredRow F)}
    (h : Tracks [w] (Above w cutoff) (fun c => c.rows done) (out[·]?)) (hr : ∀ r ∈ rows, Admitted r)
    (hb : Rollup.aggregateWidth w cutoff budget out rows = .ok out') :
    Tracks [w] (Above w cutoff) (fun c => c.rows (done ++ rows)) (out'[·]?) := by
  obtain ⟨b', hfold, ho⟩ := bind_ok.mp hb
  obtain rfl := Except.ok.inj ho
  exact Tracks.backfillRows hF hpos h hr hfold

theorem Tracks.segments (hF : Ordered F) (hpos : 0 < w) {out out' : Map (RollupRow F)}
    {parts : List (List (StoredRow F))}
    (h : Tracks [w] (Above w cutoff) (fun c => c.rows done) (out[·]?))
    (hr : ∀ r ∈ parts.flatten, Admitted r)
    (hb : parts.foldlM (Rollup.aggregateWidth w cutoff budget) out = .ok out') :
    Tracks [w] (Above w cutoff) (fun c => c.rows (done ++ parts.flatten)) (out'[·]?) := by
  induction parts generalizing out done with
  | nil =>
    obtain rfl := Except.ok.inj hb
    simpa using h
  | cons rows parts ih =>
    simp only [List.flatten_cons, List.mem_append] at hr
    obtain ⟨mid, hmid, hb⟩ := bind_ok.mp hb
    have hstep := h.aggregateWidth hF hpos (fun r hx => hr r (.inl hx)) hmid
    simpa using ih hstep (fun r hx => hr r (.inr hx)) hb

theorem tracks_backfill (hF : Ordered F) (hpos : 0 < w) {out : Map (RollupRow F)}
    {parts : List (List (StoredRow F))} (hr : ∀ r ∈ parts.flatten, Admitted r)
    (hb : parts.foldlM (Rollup.aggregateWidth w cutoff budget) ∅ = .ok out) :
    Tracks [w] (Above w cutoff) (fun c => c.rows parts.flatten) (out[·]?) := by
  have hempty : Tracks [w] (Above w cutoff) (fun c => c.rows ([] : List (StoredRow F)))
      ((∅ : Map (RollupRow F))[·]?) := ⟨fun _ _ => by simp [Exact, Bucket.rows], by simp⟩
  simpa using hempty.segments hF hpos hr hb

end

end Varve.Rollup
