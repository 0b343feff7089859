import Varve.Commit.FloorSafety

/-!
# What the commit protocol guarantees

One invariant links the gate, the leases of the live epochs, the log and the fence.
-/

namespace Varve.Commit

open Result (ensure_bind)
open Engine (Manifest)

variable {C : Type} {w w' : World C} {e : PreparedEpoch C} {d : DurableEpoch C}
  {p : PreparedPublication C} {out : List Outcome} {ready : State C → PreparedEpoch C → Prop}

def World.live (w : World C) : List (PreparedPublication C) :=
  w.prepared.filterMap PreparedEpoch.publication ++ w.durable.filterMap (·.epoch.publication)

/-- A publication continues the state it was prepared on. -/
structure Continues (s : State C) (p : PreparedPublication C) : Prop where
  sequence : p.sequence = s.sequence + 1
  generation : p.generation = s.generation + 1
  sequence_lt : p.sequence < 2 ^ 64
  generation_lt : p.generation < 2 ^ 64
  encoded : p.encoded.sequence = p.sequence

/-- New receipts stand for the record of the publication, and without one there are none. -/
structure Sound (e : PreparedEpoch C) : Prop where
  settled : e.publication = none → ∀ r, .ok r ∈ e.results → r.duplicate = true
  pending : ∀ p, e.publication = some p → ∀ r, .ok r ∈ e.results → r.duplicate = false →
    r.sequence = p.sequence

structure Inv (w : World C) : Prop where
  live : w.live.length = if w.gate.held then 1 else 0
  clean : w.gate.held = true → w.gate.poisoned = false
  continues : ∀ p ∈ w.live, Continues w.state p
  prepared : ∀ e ∈ w.prepared, Sound e ∧ ∀ p, e.publication = some p → p.commit.armed = false
  durable : ∀ d ∈ w.durable, Sound d.epoch ∧ ∀ p, d.epoch.publication = some p →
    p.commit.armed = true ∧ d.size.isSome ∧ p.encoded ∈ w.wal
  dead : w.broken = true →
    w.gate.held = false ∧ (w.gate.poisoned = true ∨ w.state.fenced.isSome)

theorem inv_opened (h : Opened w) : Inv w := by
  obtain ⟨hg, hw, hp, hd, hb⟩ := h
  refine ⟨?_, ?_, ?_, ?_, ?_, ?_⟩ <;> simp [World.live, hg, hp, hd, hb]

-- The parts of a step

theorem lock_ok {s : State C} : w.lock = .ok s ↔ w.lockPoisoned = false ∧ s = w.state := by
  simp only [World.lock, ensure_bind, Except.ok.injEq]
  exact and_congr_right fun _ => eq_comm

theorem healthy_ok {s : State C} : healthy s = .ok () ↔ s.fenced = none := by
  unfold healthy
  cases s.fenced <;> simp

theorem gate_lock_ok {g g' : Gate} {l : Lease} :
    g.lock = .ok (l, g') ↔ g.poisoned = false ∧ l = ⟨false⟩ ∧ g' = { g with held := true } := by
  simp only [Gate.lock, ensure_bind, Except.ok.injEq, Prod.mk.injEq]
  exact and_congr_right fun _ => and_congr eq_comm eq_comm

theorem usable_ok : (w.lock >>= healthy) = .ok () ↔
    w.lockPoisoned = false ∧ w.state.fenced = none := by
  rw [Result.bind_ok]
  constructor
  · rintro ⟨s, hs, hh⟩
    obtain ⟨hl, rfl⟩ := lock_ok.mp hs
    exact ⟨hl, healthy_ok.mp hh⟩
  · rintro ⟨hl, hf⟩
    exact ⟨w.state, lock_ok.mpr ⟨hl, rfl⟩, healthy_ok.mpr hf⟩

theorem nextSequence_ok {s : State C} {n : Nat} :
    nextSequence s = .ok n ↔ s.sequence + 1 < 2 ^ 64 ∧ n = s.sequence + 1 := by
  simp only [nextSequence, ensure_bind, Except.ok.injEq]
  exact and_congr_right fun _ => eq_comm

theorem failResults_duplicate {results : List Outcome}
    (h : ∀ r, .ok r ∈ results → r.duplicate = false → r.sequence = n) :
    ∀ r, .ok r ∈ failResults n m results → r.duplicate = true := by
  intro r hr
  obtain ⟨x, hx, hxr⟩ := List.mem_map.mp hr
  cases x with
  | error e => cases hxr
  | ok r' =>
    simp only at hxr
    split at hxr
    · cases hxr
    · cases hxr
      by_contra hd
      exact absurd (h r hx (by simpa using hd)) ‹_›

theorem fail_eq (m : String) (ambiguous : Bool) (w : World C) (hp : e.publication = some p) :
    ∃ floors fenced,
    e.fail m ambiguous w = ({ e with
      results := failResults p.sequence m e.results, publication := none },
      { w with
        state := { w.state with idempotencyFloors := floors, fenced := fenced }
        gate := Lease.drop (if ambiguous then p.commit else ⟨false⟩) false w.gate
        broken := w.broken || ambiguous }) ∧
    (ambiguous = false → fenced = w.state.fenced) ∧
    (w.state.fenced.isSome → fenced.isSome) := by
  unfold PreparedEpoch.fail
  rw [hp]
  cases hl : w.lock with
  | error x => exact ⟨w.state.idempotencyFloors, w.state.fenced, rfl, fun _ => rfl, id⟩
  | ok s =>
    obtain ⟨-, rfl⟩ := lock_ok.mp hl
    cases ambiguous with
    | false => exact ⟨_, w.state.fenced, rfl, fun _ => rfl, id⟩
    | true =>
      exact ⟨_, some ("ambiguous WAL publication: " ++ m), rfl, fun h => (nomatch h), fun _ => rfl⟩

theorem fail_broken (hp : e.publication = some p) : (e.fail m true w).2.broken = true := by
  obtain ⟨floors, fenced, hf, -⟩ := fail_eq m true w hp
  simp [hf]

theorem sync_cases (hp : e.publication = some p) (h : e.sync io w = (d, w')) :
    (∃ size, d = ⟨{ e with publication := some { p with commit := ⟨true⟩ } }, some size⟩ ∧
      w' = { w with wal := w.wal ++ [p.encoded] }) ∨
    ∃ l m ambiguous wal, d.size = none ∧ (ambiguous = true → l = ⟨true⟩) ∧
      PreparedEpoch.fail { e with publication := some { p with commit := l } } m ambiguous
        { w with wal := wal } = (d.epoch, w') := by
  unfold PreparedEpoch.sync at h
  rw [hp] at h
  cases hl : w.lock >>= healthy with
  | error m =>
    simp only [hl] at h
    cases h
    refine .inr ⟨p.commit, m, false, w.wal, rfl, fun h => (nomatch h), ?_⟩
    rw [show some { p with commit := p.commit } = e.publication from hp.symm]
  | ok u =>
    simp only [hl] at h
    cases io with
    | done size =>
      cases h
      exact .inl ⟨size, rfl, rfl⟩
    | refused m =>
      cases h
      exact .inr ⟨⟨true⟩, m, false, w.wal, rfl, fun h => (nomatch h), rfl⟩
    | failed m kept =>
      cases h
      exact .inr ⟨⟨true⟩, m, true, _, rfl, fun _ => rfl, rfl⟩

theorem verdict_settle {verdicts : List Verdict} :
    ∀ r, .ok r ∈ verdicts.map (Verdict.settle m) → r.duplicate = true := by
  intro r hr
  obtain ⟨v, -, hvr⟩ := List.mem_map.mp hr
  cases v with
  | durable n k => cases hvr; rfl
  | rejected e => cases hvr
  | accepted k => cases hvr
  | repeated k => cases hvr

theorem verdict_outcome {verdicts : List Verdict} :
    ∀ r, .ok r ∈ verdicts.map (Verdict.outcome n) → r.duplicate = false → r.sequence = n := by
  intro r hr hd
  obtain ⟨v, -, hvr⟩ := List.mem_map.mp hr
  cases v with
  | rejected e => cases hvr
  | durable n k => cases hvr; cases hd
  | accepted k => cases hvr; rfl
  | repeated k => cases hvr; cases hd

theorem prepare_ok {g : Group C} (h : prepare g w = .ok (e, w')) :
    w.gate.poisoned = false ∧ w.state.fenced = none ∧ w' = { w with gate := ⟨true, false⟩ } ∧
    Sound e ∧ ∃ p, e.publication = some p ∧ p.commit = ⟨false⟩ ∧ Continues w.state p := by
  simp only [prepare, Result.bind_ok, Prod.exists, gate_lock_ok, lock_ok,
    nextSequence_ok] at h
  obtain ⟨l, g', ⟨hpo, rfl, rfl⟩, s, ⟨hl, rfl⟩, _, hf, n, ⟨hn, rfl⟩, _, hg, h⟩ := h
  cases h
  refine ⟨hpo, healthy_ok.mp hf, by rw [hpo], ⟨by rintro ⟨⟩, ?_⟩, _, rfl, rfl, rfl, rfl, hn,
    Result.ensure_ok.mp hg, rfl⟩
  rintro p hp r hr hd
  cases hp
  exact verdict_outcome r hr hd

-- The invariant

structure Settled (w : World C) : Prop where
  prepared : ∀ e ∈ w.prepared, Sound e ∧ e.publication = none
  durable : ∀ d ∈ w.durable, Sound d.epoch ∧ d.epoch.publication = none

theorem Settled.live (h : Settled w) : w.live = [] := by
  simp only [World.live, List.append_eq_nil_iff, List.filterMap_eq_nil_iff]
  exact ⟨fun e he => (h.prepared e he).2, fun d hd => (h.durable d hd).2⟩

theorem Settled.of_live (hl : w.live = []) (hp : ∀ e ∈ w.prepared, Sound e)
    (hd : ∀ d ∈ w.durable, Sound d.epoch) : Settled w := by
  simp only [World.live, List.append_eq_nil_iff, List.filterMap_eq_nil_iff] at hl
  exact ⟨fun e he => ⟨hp e he, hl.1 e he⟩, fun d hm => ⟨hd d hm, hl.2 d hm⟩⟩

theorem Settled.inv (h : Settled w) (hh : w.gate.held = false)
    (hb : w.broken = true → w.gate.poisoned = true ∨ w.state.fenced.isSome) : Inv w where
  live := by simp [h.live, hh]
  clean := by simp [hh]
  continues := by simp [h.live]
  prepared e he := ⟨(h.prepared e he).1, by simp [(h.prepared e he).2]⟩
  durable d hd := ⟨(h.durable d hd).1, by simp [(h.durable d hd).2]⟩
  dead hw := ⟨hh, hb hw⟩

theorem Inv.idle (hi : Inv w) (hh : w.gate.held = false) : Settled w := by
  refine .of_live ?_ (fun e he => (hi.prepared e he).1) fun d hd => (hi.durable d hd).1
  exact List.length_eq_zero_iff.mp (by simpa [hh] using hi.live)

theorem live_prepared (he : w.prepared = before ++ e :: after) : w.live.Perm
    (e.publication.toList ++ World.live { w with prepared := before ++ after }) := by
  simp only [World.live, he, List.filterMap_append, List.filterMap_cons]
  cases e.publication with
  | none => simp
  | some p => simp [List.perm_middle]

theorem live_durable (hd : w.durable = before ++ d :: after) : w.live.Perm
    (d.epoch.publication.toList ++ World.live { w with durable := before ++ after }) := by
  simp only [World.live, hd, List.filterMap_append, List.filterMap_cons]
  cases d.epoch.publication with
  | none => simp
  | some p =>
    simp only [Option.toList_some, List.singleton_append]
    rw [← List.append_assoc, ← List.append_assoc]
    exact List.perm_middle

theorem Inv.alone (hi : Inv w) {rest : List (PreparedPublication C)}
    (hl : w.live.Perm (p :: rest)) : w.gate.held = true ∧ rest = [] ∧ Continues w.state p := by
  have hlen := hl.length_eq
  rw [hi.live] at hlen
  cases hh : w.gate.held with
  | false => simp [hh] at hlen
  | true =>
    refine ⟨rfl, ?_, hi.continues p (hl.mem_iff.mpr List.mem_cons_self)⟩
    rw [hh] at hlen
    exact List.length_eq_zero_iff.mp (by simpa using hlen.symm)

theorem Inv.alone_prepared (hi : Inv w) (he : w.prepared = before ++ e :: after)
    (hp : e.publication = some p) : w.gate = ⟨true, false⟩ ∧ w.broken = false ∧
    Settled { w with prepared := before ++ after } ∧ Continues w.state p := by
  have hl := live_prepared he
  rw [hp] at hl
  obtain ⟨hh, hr, hc⟩ := hi.alone hl
  refine ⟨by rw [← hh, ← hi.clean hh], ?_, .of_live hr (fun x hx => ?_) fun d hd =>
    (hi.durable d hd).1, hc⟩
  · by_contra hb
    exact absurd (hi.dead (by simpa using hb)).1 (by simp [hh])
  · exact (hi.prepared x (by simp only [he, List.mem_append, List.mem_cons] at hx ⊢; tauto)).1

theorem Inv.alone_durable (hi : Inv w) (hd : w.durable = before ++ d :: after)
    (hp : d.epoch.publication = some p) : w.gate = ⟨true, false⟩ ∧ w.broken = false ∧
    Settled { w with durable := before ++ after } ∧ Continues w.state p := by
  have hl := live_durable hd
  rw [hp] at hl
  obtain ⟨hh, hr, hc⟩ := hi.alone hl
  refine ⟨by rw [← hh, ← hi.clean hh], ?_, .of_live hr (fun x hx => (hi.prepared x hx).1)
    fun x hx => ?_, hc⟩
  · by_contra hb
    exact absurd (hi.dead (by simpa using hb)).1 (by simp [hh])
  · exact (hi.durable x (by simp only [hd, List.mem_append, List.mem_cons] at hx ⊢; tauto)).1

theorem Inv.settled (hi : Inv w) (hp : ∀ e ∈ v.prepared, e ∈ w.prepared ∨ Sound e ∧
    e.publication = none)
    (hd : ∀ d ∈ v.durable, d ∈ w.durable ∨ Sound d.epoch ∧ d.epoch.publication = none)
    (hl : v.live.Perm w.live) (hg : v.gate = w.gate) (hw : v.wal = w.wal) (hb : v.broken = w.broken)
    (hs : v.state.sequence = w.state.sequence ∧ v.state.generation = w.state.generation)
    (hf : w.state.fenced.isSome → v.state.fenced.isSome) : Inv v where
  live := by rw [hl.length_eq, hg, hi.live]
  clean := by rw [hg]; exact hi.clean
  continues p hp := by
    obtain ⟨h₁, h₂, h₃, h₄, h₅⟩ := hi.continues p (hl.mem_iff.mp hp)
    exact ⟨hs.1 ▸ h₁, hs.2 ▸ h₂, h₃, h₄, h₅⟩
  prepared e he := (hp e he).elim (hi.prepared e) fun ⟨hse, hn⟩ => ⟨hse, by simp [hn]⟩
  durable d hm := hw ▸ (hd d hm).elim (hi.durable d) fun ⟨hse, hn⟩ => ⟨hse, by simp [hn]⟩
  dead h := by
    rw [hb] at h
    rw [hg]
    exact (hi.dead h).imp id (Or.imp id hf)

/-- An epoch that fails leaves a settled world; after an ambiguous append nobody gets the lease. -/
theorem inv_fail (hs : Settled w) (hg : w.gate = ⟨true, false⟩) (hb : w.broken = false)
    (he : Sound e) (hp : e.publication = some p) (ha : ambiguous = true → p.commit.armed = true)
    (h : e.fail m ambiguous w = (e', w')) : Settled w' ∧ w'.gate = ⟨false, ambiguous⟩ ∧
      w'.broken = ambiguous ∧ Sound e' ∧ e'.publication = none := by
  obtain ⟨floors, fenced, hf, -, -⟩ := fail_eq m ambiguous w hp
  rw [hf] at h
  cases h
  refine ⟨⟨hs.prepared, hs.durable⟩, ?_, by simp [hb], ⟨fun _ => ?_, fun q hq => (nomatch hq)⟩, rfl⟩
  · cases ambiguous with
    | false => simp [Lease.drop, hg]
    | true => simp [Lease.drop, hg, ha rfl]
  · exact failResults_duplicate (he.pending p hp)

theorem inv_prepare (hi : Inv w) (hw : w.gate.held = false) {g : Group C}
    (h : prepare g w = .ok (e, w')) : Inv { w' with prepared := e :: w'.prepared } := by
  obtain ⟨hpo, hf, rfl, hs, p, hp, hc, hn⟩ := prepare_ok h
  have hl := (hi.idle hw).live
  have hl' : World.live { w with gate := ⟨true, false⟩, prepared := e :: w.prepared } = [p] := by
    simpa [World.live, hp] using hl
  refine ⟨by rw [hl']; rfl, fun _ => rfl, ?_, ?_, hi.durable, ?_⟩
  · rw [hl']
    rintro q hq
    cases List.mem_singleton.mp hq
    exact hn
  · rintro x hx
    cases List.mem_cons.mp hx with
    | inl hx => cases hx; exact ⟨hs, fun q hq => by cases hp.symm.trans hq; rw [hc]⟩
    | inr hx => exact hi.prepared x hx
  · intro hb
    exact absurd (hi.dead hb).2 (by simp [hpo, hf])

theorem inv_sync (hi : Inv w) (he : w.prepared = before ++ e :: after)
    (h : e.sync io { w with prepared := before ++ after } = (d, w')) :
    Inv { w' with durable := d :: w'.durable } := by
  have hm : e ∈ w.prepared := by simp [he]
  cases hp : e.publication with
  | none =>
    have hl := live_prepared he
    simp only [PreparedEpoch.sync, hp] at h
    cases h
    refine hi.settled (fun x hx => .inl ?_) (fun x hx => ?_) ?_ rfl rfl rfl ⟨rfl, rfl⟩ id
    · simp only [he, List.mem_append, List.mem_cons] at hx ⊢
      tauto
    · cases List.mem_cons.mp hx with
      | inl hx => exact .inr (hx ▸ ⟨(hi.prepared e hm).1, hp⟩)
      | inr hx => exact .inl hx
    · rw [hp] at hl
      exact .trans (by simp [World.live, hp]) hl.symm
  | some p =>
    obtain ⟨hg, hb, hs, hc⟩ := hi.alone_prepared he hp
    have hse := (hi.prepared e hm).1
    rcases sync_cases hp h with ⟨size, rfl, rfl⟩ | ⟨l, m, ambiguous, wal, hsize, ha, hf⟩
    · refine ⟨?_, ?_, ?_, ?_, ?_, ?_⟩
      · have := hs.live
        simp only [World.live, List.append_eq_nil_iff] at this
        simp [World.live, this, hg]
      · simp [hg]
      · have := hs.live
        simp only [World.live, List.append_eq_nil_iff] at this
        simpa [World.live, this] using ⟨hc.1, hc.2, hc.3, hc.4, hc.5⟩
      · exact fun x hx => ⟨(hs.prepared x hx).1, by simp [(hs.prepared x hx).2]⟩
      · rintro x hx
        cases List.mem_cons.mp hx with
        | inl hx =>
          subst hx
          refine ⟨⟨fun h => (nomatch h), fun q hq => ?_⟩, fun q hq => ?_⟩
          · cases hq
            exact hse.pending p hp
          · cases hq
            exact ⟨rfl, rfl, by simp⟩
        | inr hx => exact ⟨(hs.durable x hx).1, by simp [(hs.durable x hx).2]⟩
      · simp [hb]
    · have hs' : Settled { w with prepared := before ++ after, wal := wal } := ⟨hs.1, hs.2⟩
      have hse' : Sound { e with publication := some { p with commit := l } } :=
        ⟨fun h => (nomatch h), fun q hq => by cases hq; exact hse.pending p hp⟩
      obtain ⟨hs', hg', hb', hse', hn⟩ := inv_fail hs' hg hb hse' rfl (fun h => by rw [ha h]) hf
      refine Settled.inv ⟨hs'.1, ?_⟩ (by simp [hg']) fun h => .inl ?_
      rotate_left
      · rw [show (World.gate _) = _ from hg', ← hb', h]
      rintro x hx
      cases List.mem_cons.mp hx with
      | inl hx => exact hx ▸ ⟨hse', hn⟩
      | inr hx => exact hs'.durable x hx

theorem install_cases (hp : d.epoch.publication = some p) (hz : d.size = some size)
    (h : d.install w = (out, w')) :
    (w.lockPoisoned = false ∧ w.state.fenced = none ∧ out = d.epoch.results ∧
      w' = { w with
        state := p.visible size d.epoch.duplicateFloors w.state
        gate := Lease.drop ⟨false⟩ false w.gate }) ∨
    ∃ m e, d.epoch.fail m true w = (e, w') ∧ out = e.results := by
  unfold DurableEpoch.install at h
  rw [hp, hz] at h
  cases hl : w.lock >>= healthy with
  | error m =>
    simp only [hl] at h
    cases h
    exact .inr ⟨m, _, rfl, rfl⟩
  | ok u =>
    simp only [hl] at h
    cases h
    obtain ⟨h₁, h₂⟩ := usable_ok.mp hl
    exact .inl ⟨h₁, h₂, rfl, rfl⟩

theorem install_none (hp : d.epoch.publication = none) (h : d.install w = (out, w')) :
    out = d.epoch.results ∧ w' = w := by
  unfold DurableEpoch.install at h
  rw [hp] at h
  cases hz : d.size <;> · rw [hz] at h; cases h; exact ⟨rfl, rfl⟩

theorem Inv.erase_durable (hi : Inv w) (hd : w.durable = before ++ d :: after)
    (hp : d.epoch.publication = none) : Inv { w with durable := before ++ after } := by
  have hl := live_durable hd
  rw [hp] at hl
  refine hi.settled (fun x hx => .inl hx) (fun x hx => .inl ?_) hl.symm rfl rfl rfl ⟨rfl, rfl⟩ id
  simp only [hd, List.mem_append, List.mem_cons] at hx ⊢
  tauto

theorem Inv.erase_prepared (hi : Inv w) (he : w.prepared = before ++ e :: after)
    (hp : e.publication = none) : Inv { w with prepared := before ++ after } := by
  have hl := live_prepared he
  rw [hp] at hl
  refine hi.settled (fun x hx => .inl ?_) (fun x hx => .inl hx) hl.symm rfl rfl rfl ⟨rfl, rfl⟩ id
  simp only [he, List.mem_append, List.mem_cons] at hx ⊢
  tauto

theorem inv_install (hi : Inv w) (hd : w.durable = before ++ d :: after)
    (h : d.install { w with durable := before ++ after } = (out, w')) : Inv w' := by
  have hm : d ∈ w.durable := by simp [hd]
  cases hp : d.epoch.publication with
  | none =>
    obtain ⟨-, rfl⟩ := install_none hp h
    exact hi.erase_durable hd hp
  | some p =>
    obtain ⟨hg, hb, hs, hc⟩ := hi.alone_durable hd hp
    obtain ⟨hse, hpd⟩ := hi.durable d hm
    obtain ⟨harm, hz, -⟩ := hpd p hp
    obtain ⟨size, hz⟩ := Option.isSome_iff_exists.mp hz
    rcases install_cases hp hz h with ⟨-, -, -, rfl⟩ | ⟨m, e, hf, -⟩
    · exact Settled.inv ⟨hs.1, hs.2⟩ rfl (by simp [hb])
    · obtain ⟨hs', hg', hb', -⟩ := inv_fail hs hg hb hse hp (fun _ => harm) hf
      exact hs'.inv (by rw [hg']) (by simp [hg'])

theorem inv_dropPrepared (hi : Inv w) (he : w.prepared = before ++ e :: after) :
    Inv (dropEpoch e panicking { w with prepared := before ++ after }) := by
  cases hp : e.publication with
  | none =>
    simp only [dropEpoch, hp]
    exact hi.erase_prepared he hp
  | some p =>
    obtain ⟨hg, hb, hs, -⟩ := hi.alone_prepared he hp
    have harm := (hi.prepared e (by simp [he])).2 p hp
    simp only [dropEpoch, hp]
    exact Settled.inv ⟨hs.1, hs.2⟩ rfl (by simp [hb, harm])

theorem inv_dropDurable (hi : Inv w) (hd : w.durable = before ++ d :: after) :
    Inv (dropEpoch d.epoch panicking { w with durable := before ++ after }) := by
  cases hp : d.epoch.publication with
  | none =>
    simp only [dropEpoch, hp]
    exact hi.erase_durable hd hp
  | some p =>
    obtain ⟨hg, hb, hs, -⟩ := hi.alone_durable hd hp
    have harm := ((hi.durable d (by simp [hd])).2 p hp).1
    simp only [dropEpoch, hp]
    exact Settled.inv ⟨hs.1, hs.2⟩ rfl (by simp [Lease.drop, harm])

theorem commitRecord_ok {s : State C} (h : commitRecord bytes io s w = .ok w') :
    w.gate.poisoned = false ∧ w.state.fenced = none ∧ ∃ wal state broken,
      w' = { w with
        gate := ⟨false, false⟩, wal := wal, state := state, broken := w.broken || broken } ∧
      (broken = true → state.fenced.isSome) := by
  simp only [commitRecord, Result.bind_ok, Prod.exists, gate_lock_ok, lock_ok, nextSequence_ok] at h
  obtain ⟨l, g, ⟨hpo, rfl, rfl⟩, s', ⟨-, rfl⟩, _, hf, n, ⟨-, rfl⟩, h⟩ := h
  refine ⟨hpo, healthy_ok.mp hf, ?_⟩
  cases io with
  | done size =>
    cases h
    exact ⟨_, _, false, by simp only [Lease.drop, hpo, Bool.or_false]; rfl, nofun⟩
  | refused m =>
    cases h
    exact ⟨w.wal, w.state, false, by simp [Lease.drop, hpo], by simp⟩
  | failed m kept =>
    cases h
    exact ⟨_, _, true, by simp only [Lease.drop, hpo, Bool.or_false, Bool.or_true]; rfl,
      fun _ => rfl⟩

theorem maintain_ok {s : State C} (h : maintain s panicking w = .ok w') :
    w.gate.poisoned = false ∧ w.state.fenced = none ∧
      w' = { w with gate := ⟨false, panicking⟩, state := s } := by
  simp only [maintain, Result.bind_ok, Prod.exists, gate_lock_ok, lock_ok] at h
  obtain ⟨l, g, ⟨hpo, rfl, rfl⟩, s', ⟨-, rfl⟩, _, hf, h⟩ := h
  cases h
  exact ⟨hpo, healthy_ok.mp hf, by simp [Lease.drop, hpo]⟩

theorem Inv.unbroken (hi : Inv w) (hp : w.gate.poisoned = false) (hf : w.state.fenced = none) :
    w.broken = false := by
  by_contra hb
  exact absurd (hi.dead (by simpa using hb)).2 (by simp [hp, hf])

theorem inv_step (hi : Inv w) (h : Step ready w out w') : Inv w' := by
  cases h with
  | prepare hw h _ => exact inv_prepare hi hw h
  | prepareSettled _ h =>
    cases h
    refine hi.settled (fun x hx => ?_) (fun x hx => .inl hx) (by simp [World.live]) rfl rfl rfl
      ⟨rfl, rfl⟩ id
    cases List.mem_cons.mp hx with
    | inl hx => exact .inr (hx ▸ ⟨⟨fun _ => verdict_settle, fun q hq => (nomatch hq)⟩, rfl⟩)
    | inr hx => exact .inl hx
  | sync he h => exact inv_sync hi he h
  | install hd h => exact inv_install hi hd h
  | dropPrepared panicking he => exact inv_dropPrepared hi he
  | dropDurable panicking hd => exact inv_dropDurable hi hd
  | commitRecord hw h =>
    obtain ⟨hp, hf, wal, state, broken, rfl, hb⟩ := commitRecord_ok h
    have hs := hi.idle hw
    exact Settled.inv ⟨hs.1, hs.2⟩ rfl (by simpa [hi.unbroken hp hf] using hb)
  | maintain hw h =>
    obtain ⟨hp, hf, rfl⟩ := maintain_ok h
    have hs := hi.idle hw
    exact Settled.inv ⟨hs.1, hs.2⟩ rfl (by simp [hi.unbroken hp hf])
  | fence reason =>
    exact hi.settled (fun x => .inl) (fun x => .inl) .rfl rfl rfl rfl ⟨rfl, rfl⟩ fun _ => rfl
  | poisonLock =>
    exact hi.settled (fun x => .inl) (fun x => .inl) .rfl rfl rfl rfl ⟨rfl, rfl⟩ id

theorem inv_reachable (h : (machine ready Opened).Reachable w) : Inv w :=
  h.invariant (fun _ => inv_opened) fun _ _ _ hi hs => inv_step hi hs

-- After a break

theorem broken_step (hi : Inv w) (hb : w.broken = true) (h : Step ready w out w') :
    w'.broken = true ∧ w'.wal = w.wal ∧ ∀ r, .ok r ∈ out → r.duplicate = true := by
  obtain ⟨hh, hd⟩ := hi.dead hb
  have hs := hi.idle hh
  have hlock : ¬(w.gate.poisoned = false ∧ w.state.fenced = none) := by
    rintro ⟨h₁, h₂⟩
    simp [h₁, h₂] at hd
  cases h with
  | prepare hw h _ =>
    obtain ⟨h₁, h₂, -⟩ := prepare_ok h
    exact absurd ⟨h₁, h₂⟩ hlock
  | prepareSettled _ h => cases h; exact ⟨hb, rfl, nofun⟩
  | sync he h =>
    have hp := (hs.prepared _ (he ▸ List.mem_append_right _ List.mem_cons_self)).2
    simp only [PreparedEpoch.sync, hp] at h
    cases h
    exact ⟨hb, rfl, nofun⟩
  | install hd h =>
    obtain ⟨hse, hp⟩ := hs.durable _ (hd ▸ List.mem_append_right _ List.mem_cons_self)
    obtain ⟨rfl, rfl⟩ := install_none hp h
    exact ⟨hb, rfl, hse.settled hp⟩
  | dropPrepared panicking he =>
    have hp := (hs.prepared _ (he ▸ List.mem_append_right _ List.mem_cons_self)).2
    rw [dropEpoch, hp]
    exact ⟨hb, rfl, nofun⟩
  | dropDurable panicking hd =>
    have hp := (hs.durable _ (hd ▸ List.mem_append_right _ List.mem_cons_self)).2
    rw [dropEpoch, hp]
    exact ⟨hb, rfl, nofun⟩
  | commitRecord hw h =>
    obtain ⟨h₁, h₂, -⟩ := commitRecord_ok h
    exact absurd ⟨h₁, h₂⟩ hlock
  | maintain hw h =>
    obtain ⟨h₁, h₂, -⟩ := maintain_ok h
    exact absurd ⟨h₁, h₂⟩ hlock
  | fence reason => exact ⟨hb, rfl, nofun⟩
  | poisonLock => exact ⟨hb, rfl, nofun⟩

theorem broken_run (hi : Inv w) (hb : w.broken = true) (hr : (machine ready (· = w)).Reachable v) :
    Inv v ∧ v.broken = true ∧ v.wal = w.wal := by
  refine hr.invariant (I := fun v => Inv v ∧ v.broken = true ∧ v.wal = w.wal) ?_ ?_
  · rintro _ rfl
    exact ⟨hi, hb, rfl⟩
  · rintro s out s' ⟨hi, hb, hw⟩ h
    obtain ⟨hb', hw', -⟩ := broken_step hi hb h
    exact ⟨inv_step hi h, hb', hw'.trans hw⟩

theorem sync_failed (hp : e.publication = some p) (h : e.sync (.failed m kept) w = (d, w'))
    (hu : w.lockPoisoned = false ∧ w.state.fenced = none) : w'.broken = true := by
  simp only [PreparedEpoch.sync, hp, usable_ok.mpr hu] at h
  cases h
  exact fail_broken rfl

theorem install_unusable (hp : d.epoch.publication = some p) (hz : d.size.isSome)
    (h : d.install w = (out, w')) (hu : ¬(w.lockPoisoned = false ∧ w.state.fenced = none)) :
    w'.broken = true := by
  obtain ⟨size, hz⟩ := Option.isSome_iff_exists.mp hz
  rcases install_cases hp hz h with ⟨h₁, h₂, -⟩ | ⟨m, e, hf, -⟩
  · exact absurd ⟨h₁, h₂⟩ hu
  · exact (congrArg (·.2.broken) hf).symm.trans (fail_broken hp)

theorem breaks_broken (h : Breaks w w') (hi : Inv w) :
    w'.broken = true ∧ ∃ out, Step ready w out w' := by
  cases h with
  | sync he hp hu h =>
    have hb := sync_failed hp h hu
    exact ⟨hb, _, .sync he h⟩
  | install hd hp hu h =>
    have hz := ((hi.durable _ (hd ▸ List.mem_append_right _ List.mem_cons_self)).2 _ hp).2.1
    have hb := install_unusable hp hz h hu
    exact ⟨hb, _, .install hd h⟩
  | dropPrepared panicking he hp ha =>
    exact ⟨by simp [dropEpoch, hp, ha], _, .dropPrepared panicking he⟩
  | dropDurable panicking hd hp ha =>
    exact ⟨by simp [dropEpoch, hp, ha], _, .dropDurable panicking hd⟩
  | commitRecord hw h =>
    refine ⟨?_, _, .commitRecord hw h⟩
    simp only [commitRecord, Result.bind_ok, Prod.exists] at h
    obtain ⟨_, _, -, _, -, _, -, _, -, h⟩ := h
    cases h
    rfl

theorem prepare_of (hg : w.gate.poisoned = false) (hl : w.lockPoisoned = false)
    (hf : w.state.fenced = none) (hs : w.state.sequence + 1 < 2 ^ 64)
    (hn : w.state.generation + 1 < 2 ^ 64) (g : Group C) :
    prepare g w = .ok (g.epoch (w.state.sequence + 1) (w.state.generation + 1) ⟨false⟩,
      { w with gate := { w.gate with held := true } }) := by
  simp only [prepare, gate_lock_ok.mpr ⟨hg, rfl, rfl⟩, lock_ok.mpr ⟨hl, rfl⟩, healthy_ok.mpr hf,
    nextSequence_ok.mpr ⟨hs, rfl⟩, Result.ok_bind, Result.ensure_pos hn]

/-- What a failure before any I/O leaves of the state. -/
def released (e : PreparedEpoch C) (p : PreparedPublication C) (w : World C) : State C :=
  if w.lockPoisoned then w.state
  else installDuplicateFloors (restoreGroupFloors w.state p.floorsBefore) e.duplicateFloors

theorem fail_unambiguous (hp : e.publication = some p) (h : e.fail m false w = (e', w')) :
    w'.wal = w.wal ∧ w'.gate = Lease.drop ⟨false⟩ false w.gate ∧ w'.state = released e p w := by
  simp only [PreparedEpoch.fail, hp] at h
  cases h
  refine ⟨rfl, rfl, ?_⟩
  unfold World.lock released
  cases w.lockPoisoned <;> rfl

/-- The append fails before any I/O: the state is fenced or its lock poisoned, or the log refuses.
-/
theorem sync_refused (hp : e.publication = some p) (h : e.sync io w = (d, w'))
    (hio : ¬(w.lockPoisoned = false ∧ w.state.fenced = none) ∨ ∃ m, io = .refused m) :
    d.size = none ∧ w'.wal = w.wal ∧ w'.gate = Lease.drop ⟨false⟩ false w.gate ∧
      w'.state = released e p w := by
  cases hl : w.lock >>= healthy with
  | error m =>
    simp only [PreparedEpoch.sync, hp, hl] at h
    cases h
    exact ⟨rfl, fail_unambiguous hp rfl⟩
  | ok u =>
    rcases hio with hu | ⟨m, rfl⟩
    · exact absurd (usable_ok.mp hl) hu
    · simp only [PreparedEpoch.sync, hp, hl] at h
      cases h
      have hfail := fail_unambiguous (e :=
        { e with publication := some { p with commit := ⟨true⟩ } })
        (p := { p with commit := ⟨true⟩ }) (m := m) (w := w) rfl rfl
      exact ⟨rfl, hfail⟩

theorem install_receipt (hi : Inv w) (hm : w.durable = before ++ d :: after)
    (h : d.install { w with durable := before ++ after } = (out, w')) (hr : .ok r ∈ out)
    (hd : r.duplicate = false) : ∃ p size, d.epoch.publication = some p ∧
      p.encoded.sequence = r.sequence ∧ p.encoded ∈ w'.wal ∧
      w'.state = p.visible size d.epoch.duplicateFloors w.state := by
  obtain ⟨hse, hpd⟩ := hi.durable d (by simp [hm])
  cases hp : d.epoch.publication with
  | none =>
    obtain ⟨rfl, -⟩ := install_none hp h
    exact absurd (hse.settled hp r hr) (by simp [hd])
  | some p =>
    obtain ⟨harm, hz, hw⟩ := hpd p hp
    obtain ⟨size, hz⟩ := Option.isSome_iff_exists.mp hz
    obtain ⟨hg, hb, hs, hc⟩ := hi.alone_durable hm hp
    rcases install_cases hp hz h with ⟨-, -, rfl, rfl⟩ | ⟨m, e, hf, rfl⟩
    · refine ⟨p, size, rfl, ?_, hw, rfl⟩
      rw [hc.encoded, hse.pending p hp r hr hd]
    · obtain ⟨-, -, -, hse', hn⟩ := inv_fail hs hg hb hse hp (fun _ => harm) hf
      exact absurd (hse'.settled hn r hr) (by simp [hd])

-- The state under the lease

/-- The epochs that carry a publication were prepared on the state as it still is. -/
def Fresh (ready : State C → PreparedEpoch C → Prop) (w : World C) : Prop :=
  ∀ e ∈ w.prepared, e.publication.isSome → ready w.state e

theorem Fresh.of_none (h : ∀ e ∈ w.prepared, e.publication = none) : Fresh ready w := by
  intro e he hs
  rw [h e he] at hs
  cases hs

theorem fail_prepared (hp : e.publication = some p) (h : e.fail m ambiguous w = (e', w')) :
    w'.prepared = w.prepared := by
  obtain ⟨floors, fenced, hf, -⟩ := fail_eq m ambiguous w hp
  rw [hf] at h
  cases h
  rfl

theorem sync_prepared (hp : e.publication = some p) (h : e.sync io w = (d, w')) :
    w'.prepared = w.prepared := by
  rcases sync_cases hp h with ⟨size, -, rfl⟩ | ⟨l, m, ambiguous, wal, -, -, hf⟩
  · rfl
  · exact fail_prepared (e := { e with publication := some { p with commit := l } })
      (w := { w with wal := wal }) rfl hf

theorem install_prepared (hp : d.epoch.publication = some p) (hz : d.size = some size)
    (h : d.install w = (out, w')) : w'.prepared = w.prepared := by
  rcases install_cases hp hz h with ⟨-, -, -, rfl⟩ | ⟨m, e, hf, -⟩
  · rfl
  · exact fail_prepared hp hf

theorem dropEpoch_same (panicking : Bool) : (dropEpoch e panicking w).prepared = w.prepared ∧
    (dropEpoch e panicking w).state = w.state := by
  unfold dropEpoch
  split <;> exact ⟨rfl, rfl⟩

theorem fresh_sync (hi : Inv w) (hf : Fresh ready w) (he : w.prepared = before ++ e :: after)
    (h : e.sync io { w with prepared := before ++ after } = (d, w')) :
    Fresh ready { w' with durable := d :: w'.durable } := by
  cases hp : e.publication with
  | none =>
    simp only [PreparedEpoch.sync, hp] at h
    cases h
    refine fun x hx => hf x ?_
    simp only [he, List.mem_append, List.mem_cons] at hx ⊢
    tauto
  | some p =>
    obtain ⟨-, -, hs, -⟩ := hi.alone_prepared he hp
    refine .of_none fun x hx => (hs.prepared x ?_).2
    rw [← sync_prepared hp h]
    exact hx

theorem fresh_install (hi : Inv w) (hf : Fresh ready w) (hd : w.durable = before ++ d :: after)
    (h : d.install { w with durable := before ++ after } = (out, w')) : Fresh ready w' := by
  cases hp : d.epoch.publication with
  | none =>
    obtain ⟨-, rfl⟩ := install_none hp h
    exact hf
  | some p =>
    obtain ⟨-, -, hs, -⟩ := hi.alone_durable hd hp
    obtain ⟨-, hz, -⟩ := (hi.durable d (by simp [hd])).2 p hp
    obtain ⟨size, hz⟩ := Option.isSome_iff_exists.mp hz
    refine .of_none fun x hx => (hs.prepared x ?_).2
    rw [install_prepared hp hz h] at hx
    exact hx

theorem fresh_step (hfence : ∀ s e reason, ready s e → ready { s with fenced := some reason } e)
    (hi : Inv w) (hf : Fresh ready w) (h : Step ready w out w') : Fresh ready w' := by
  cases h with
  | prepare hw h hready =>
    obtain ⟨-, -, rfl, -⟩ := prepare_ok h
    intro x hx hs
    rcases List.mem_cons.mp hx with rfl | hx
    · exact hready
    · rw [((hi.idle hw).prepared x hx).2] at hs
      cases hs
  | prepareSettled hw h =>
    cases h
    intro x hx hs
    rcases List.mem_cons.mp hx with rfl | hx
    · cases hs
    · rcases hw with hw | rfl
      · rw [((hi.idle hw).prepared x hx).2] at hs
        cases hs
      · exact hf x hx hs
  | sync he h => exact fresh_sync hi hf he h
  | install hd h => exact fresh_install hi hf hd h
  | dropPrepared panicking he =>
    intro x hx
    rw [(dropEpoch_same panicking).1] at hx
    rw [(dropEpoch_same panicking).2]
    refine hf x ?_
    simp only [he, List.mem_append, List.mem_cons] at hx ⊢
    tauto
  | dropDurable panicking hd =>
    intro x hx
    rw [(dropEpoch_same panicking).1] at hx
    rw [(dropEpoch_same panicking).2]
    exact hf x hx
  | commitRecord hw h =>
    obtain ⟨-, -, wal, state, broken, rfl, -⟩ := commitRecord_ok h
    exact .of_none fun x hx => ((hi.idle hw).prepared x hx).2
  | maintain hw h =>
    obtain ⟨-, -, rfl⟩ := maintain_ok h
    exact .of_none fun x hx => ((hi.idle hw).prepared x hx).2
  | fence reason => exact fun x hx hs => hfence _ _ _ (hf x hx hs)
  | poisonLock => exact hf

theorem fresh_reachable (hfence : ∀ s e reason, ready s e →
    ready { s with fenced := some reason } e)
    (h : (machine ready Opened).Reachable w) : Fresh ready w := by
  refine (h.invariant (I := fun w => Inv w ∧ Fresh ready w) (fun w ho => ⟨inv_opened ho, ?_⟩)
    fun _ _ _ hi hs => ⟨inv_step hi.1 hs, fresh_step hfence hi.1 hi.2 hs⟩).2
  obtain ⟨-, -, hp, -⟩ := ho
  exact .of_none (by simp [hp])

section
variable {F : Type} {w : World (Manifest F)}

/-- The epoch has the clocks and the retry floors of these requests on this state. -/
def PreparedFrom (s : State (Manifest F)) (requests : List Request)
    (e : PreparedEpoch (Manifest F)) : Prop :=
  e.duplicateFloors = requests.foldl (raiseDuplicate s) ∅ ∧
    ∀ p, e.publication = some p → p.floorsBefore = groupCheckpointFloors s requests

/-- What `prepare_group_attempts` makes of a state. -/
def Prepares (s : State (Manifest F)) (e : PreparedEpoch (Manifest F)) : Prop :=
  ∃ requests, PreparedFrom s requests e

theorem PreparedFrom.released {e : PreparedEpoch (Manifest F)}
    {p : PreparedPublication (Manifest F)} (h : PreparedFrom w.state requests e)
    (hp : e.publication = some p) : released e p w =
      if w.lockPoisoned then w.state else commitGroupDuplicateFloors w.state requests := by
  rw [Commit.released, h.1, h.2 p hp, restored_duplicates]

theorem commitGroupDuplicateFloors_same {s : State (Manifest F)}
    (h : ∀ item r, (.ok item, some (.ok r)) ∈ requests → timed s item.table = false) :
    commitGroupDuplicateFloors s requests = s := by
  suffices ∀ floors, requests.foldl (raiseDuplicate s) floors = floors from
    congrArg (withFloors s) (this _)
  induction requests with
  | nil => exact fun _ => rfl
  | cons x requests ih =>
    intro floors
    rw [List.foldl_cons, ih fun item r hm => h item r (List.mem_cons_of_mem _ hm)]
    refine Std.ExtTreeMap.ext_getElem? fun t => ?_
    by_contra hne
    obtain ⟨item, r, floor, rfl, rfl, -, htimed, -⟩ := lookup_raiseDuplicate hne
    exact absurd htimed (by simp [h item r List.mem_cons_self])

theorem rebased_duplicates (s : State (Manifest F)) (requests : List Request) :
    Rebased s (commitGroupDuplicateFloors s requests) requests where
  floors := raised_duplicates requests
  tables _ := rfl
  receipts item outcome table table' _ ht ht' := by
    cases ht.symm.trans ht'
    exact .inl rfl

/-- The requests that staging takes, and the receipts it stages, are those it had on `s`. -/
def TakesAgain (s s' : State (Manifest F)) (requests : List Request) : Prop :=
  ∀ sequence admitted, Keeps s s' sequence admitted requests →
    (overlay s' sequence admitted requests).receipts =
      (overlay s sequence admitted requests).receipts ∧
      ∀ item, Eligible s sequence admitted requests item → Taken s' sequence admitted requests item

/-- What a receipt, an ambiguous append, the drop of an armed lease and a failure before any I/O
leave, in every run. -/
theorem commit_epochs (hr : (machine Prepares Opened).Reachable w) :
    (∀ out w' r, Step Prepares w out w' → .ok r ∈ out → r.duplicate = false →
      ∃ d ∈ w.durable, ∃ p size, d.epoch.publication = some p ∧ p.encoded.sequence = r.sequence ∧
        p.encoded ∈ w'.wal ∧ w'.state = p.visible size d.epoch.duplicateFloors w.state) ∧
    (∀ w', Breaks w w' → ∀ v, (machine Prepares (· = w')).Reachable v → v.wal = w'.wal ∧
      ∀ out v' r, Step Prepares v out v' → .ok r ∈ out → r.duplicate = true) ∧
    (∀ before e after p io d w', w.prepared = before ++ e :: after → e.publication = some p →
      (¬(w.lockPoisoned = false ∧ w.state.fenced = none) ∨ ∃ m, io = .refused m) →
      e.sync io { w with prepared := before ++ after } = (d, w') →
      d.size = none ∧ w'.wal = w.wal ∧ w'.gate = ⟨false, false⟩ ∧
        (∃ requests, PreparedFrom w.state requests e) ∧
        ∀ requests, PreparedFrom w.state requests e →
          w'.state = (if w.lockPoisoned then w.state
            else commitGroupDuplicateFloors w.state requests) ∧
          ((∀ item r, (.ok item, some (.ok r)) ∈ requests → timed w.state item.table = false) →
            w'.state = w.state) ∧
          TakesAgain w.state w'.state requests) := by
  have hi := inv_reachable hr
  refine ⟨fun out w' r h hrm hd => ?_, fun w' h v hv => ?_,
    fun before e after p io d w' he hp hio h => ?_⟩
  · cases h with
    | install hm h =>
      obtain ⟨p, size, hp⟩ := install_receipt hi hm h hrm hd
      exact ⟨_, hm ▸ List.mem_append_right _ List.mem_cons_self, p, size, hp⟩
    | _ => cases hrm
  · obtain ⟨hb, out, hs⟩ : w'.broken = true ∧ ∃ out, Step Prepares w out w' := breaks_broken h hi
    obtain ⟨hv, hvb, hw⟩ := broken_run (inv_step hi hs) hb hv
    exact ⟨hw, fun out v' r h hrm => (broken_step hv hvb h).2.2 r hrm⟩
  · obtain ⟨hg, -, -, hc⟩ := hi.alone_prepared he hp
    obtain ⟨hz, hw, hg', hs⟩ := sync_refused hp h hio
    have hfresh := fresh_reachable (fun s e reason h => h) hr e (by simp [he]) (by rw [hp]; rfl)
    refine ⟨hz, hw, by rw [hg', hg]; rfl, hfresh, fun requests hreq => ?_⟩
    rw [hs, PreparedFrom.released (w := { w with prepared := before ++ after }) hreq hp]
    refine ⟨rfl, fun hnone => ?_, ?_⟩
    · rw [commitGroupDuplicateFloors_same hnone, ite_self]
    · split
      · exact fun _ _ _ => ⟨rfl, fun item he => he.1⟩
      · exact fun _ _ hk => (rebased_duplicates w.state requests).staged_again hk

end

-- A refused group of the table of metrics

/-- A new request, and a retry of the durable one by a later clock. -/
def retrying : List Request :=
  [(.ok (metricsItem "v1:1000:x" "da" 1500), none),
    (.ok (metricsItem "v1:1500:c" "dc" 2400), some (.ok ⟨2, 1, true⟩))]

def retryingGroup : Group (Manifest Unit) where
  verdicts := [.accepted 1, .durable 2 1]
  pending := ⟨id, (overlay metricsState 3 (fun _ => true) retrying).floors⟩
  bytes := [1, 2]
  publishedNow := 1500
  floorsBefore := groupCheckpointFloors metricsState retrying
  duplicateFloors := retrying.foldl (raiseDuplicate metricsState) ∅

def retryingWorld : World (Manifest Unit) where
  gate := ⟨true, false⟩
  state := metricsState
  lockPoisoned := false
  wal := []
  prepared := [retryingGroup.epoch 3 3 ⟨false⟩]
  durable := []
  broken := false

theorem preparedFrom_retrying :
    PreparedFrom metricsState retrying (retryingGroup.epoch 3 3 ⟨false⟩) :=
  ⟨rfl, by rintro _ ⟨⟩; rfl⟩

theorem retryingWorld_reachable : (machine Prepares Opened).Reachable retryingWorld := by
  have h0 : (machine (Prepares (F := Unit)) Opened).Reachable
      { retryingWorld with gate := ⟨false, false⟩, prepared := [] } :=
    .init ⟨rfl, rfl, rfl, rfl, rfl⟩
  have h : prepare retryingGroup { retryingWorld with gate := ⟨false, false⟩, prepared := [] } =
      .ok (retryingGroup.epoch 3 3 ⟨false⟩, { retryingWorld with prepared := [] }) :=
    prepare_of rfl rfl rfl (by decide) (by decide) retryingGroup
  exact h0.step (.prepare rfl h ⟨retrying, preparedFrom_retrying⟩)

def refusedRetrying : DurableEpoch (Manifest Unit) × World (Manifest Unit) :=
  (retryingGroup.epoch 3 3 ⟨false⟩).sync (.refused "disk budget exceeded")
    { retryingWorld with prepared := [] }

theorem commit_epochs_retrying : refusedRetrying.2.gate = ⟨false, false⟩ ∧
    refusedRetrying.2.state = commitGroupDuplicateFloors metricsState retrying ∧
    TakesAgain metricsState refusedRetrying.2.state retrying := by
  obtain ⟨-, -, hg, -, h⟩ := (commit_epochs retryingWorld_reachable).2.2 [] _ [] _
    (.refused "disk budget exceeded") _ _ rfl rfl (.inr ⟨_, rfl⟩) rfl
  obtain ⟨hs, -, ht⟩ := h retrying preparedFrom_retrying
  exact ⟨hg, hs, ht⟩

/-- After the refusal the clock of the retry, which came second, refuses the new request. -/
theorem refused_group_loses_member : (machine Prepares Opened).Reachable retryingWorld ∧
    retryingWorld.prepared = [retryingGroup.epoch 3 3 ⟨false⟩] ∧
    PreparedFrom retryingWorld.state retrying (retryingGroup.epoch 3 3 ⟨false⟩) ∧
    refusedRetrying.1.size = none ∧
    Eligible retryingWorld.state 3 (fun _ => true) retrying (metricsItem "v1:1000:x" "da" 1500) ∧
    ((overlay refusedRetrying.2.state 3 (fun _ => true) []).retry refusedRetrying.2.state
      (metricsItem "v1:1000:x" "da" 1500)).map Prod.fst =
        .error "request_id is outside the idempotency window" := by
  refine ⟨retryingWorld_reachable, rfl, preparedFrom_retrying, rfl,
    ⟨⟨[], retrying.drop 1, ?_⟩, metrics, ?_, ?_, ?_⟩, ?_⟩
  · obtain ⟨r, hr⟩ := Result.ok_of_isOk (x := (overlay metricsState 3 (fun _ => true) []).retry
      metricsState
      (metricsItem "v1:1000:x" "da" 1500)) (by decide +kernel)
    exact ⟨r, rfl, hr⟩
  all_goals decide +kernel

end Varve.Commit
