import Varve.Lib.Admission
import Varve.Journal.Writing

/-!
# The disk budget

Which path of the engine locks disk admission, what it asks `ensure_budget` for, and what it then
writes to the database directory, in which order.
-/

namespace Varve.Budget

open Journal (Digest Io frameSize headerBytes reservedSealBytes appendPlan_ok length_encode)
open Admission (Phase writes Unchecked Covered)

def segmentLen (j : Journal) (id : Nat) : Nat :=
  ((j.segments.find? fun s => s.id == id).map Journal.Segment.len).getD 0

/-- What `observe` and the journal's own writing do at one I/O of the journal. -/
def observe (j : Journal) : Io → List Phase
  | .append _ data => [.lock, .write data.length]
  | .create _ | .rewrite _ _ | .truncate _ _ => [.lock]
  | .unlink id => [.lock, .remove (segmentLen j id)]
  | .sync _ | .syncDir => [.unlock]

inductive Path (H : Digest) (segmented : Bool) : List Phase → Prop where
  /-- `commit_log::append`. -/
  | append {j j' : Journal} {ops : List Io} (hs : segmented = true)
      (hg : j.requiredAppendBytes [record] = .ok growth)
      (ha : j.appendGroup H [record] = .ok (ops, j', receipt)) :
      Path H segmented (.lock :: .check growth :: (ops.flatMap (observe j) ++ [.unlock]))
  /-- `publish_append` to the WAL: written and synced, then renamed and the directory synced. -/
  | wal (hs : segmented = false) (record : Nat) :
      Path H segmented [.lock, .check record, .write record, .unlock, .lock, .unlock]
  /-- A root, a staged dependency, the job runtime or a prefetched segment, under one lock. -/
  | file (bytes replaced : Nat) :
      Path H segmented [.lock, .check bytes, .write bytes, .remove replaced, .unlock]
  /-- `resolve_segment_reserved`: cached files go before the segment is admitted. -/
  | fetch (evicted : List Nat) (bytes : Nat) :
      Path H segmented (.lock :: (evicted.map .remove ++ [.check bytes, .write bytes, .unlock]))
  /-- `prepare_publication_intent`. -/
  | intent (reservation bytes : Nat) :
      Path H segmented
        [.lock, .check (bytes + reservation), .write reservation, .write bytes, .unlock]
  /-- A binding installed in its reservation, and the removal of an intent. -/
  | install (freed : Nat) : Path H segmented [.remove freed]
  /-- `save_binding` without an intent. -/
  | rebind (bytes replaced : Nat) : Path H segmented [.write bytes, .remove replaced]
  /-- `tier_journal::capture`. -/
  | snapshot (hs : segmented = true) (j : Journal) :
      Path H segmented
        (.lock :: .check 0 :: ((j.sealActive H).1.flatMap (observe j) ++ [.unlock]))
  /-- `commit_log::reclaim`, which may seal the active segment. -/
  | reclaim {j j' : Journal} {ops : List Io} {through : Nat} (hs : segmented = true)
      (hr : j.reclaimThrough H through = .ok (ops, j')) :
      Path H segmented (.lock :: (ops.flatMap (observe (j.sealActive H).2) ++ [.unlock]))
  /-- Collection of files. -/
  | collect (freed : List Nat) : Path H segmented (.lock :: (freed.map .remove ++ [.unlock]))

/-- What every check keeps back for the seal of the active segment. -/
def reserved (segmented : Bool) : Nat := if segmented then reservedSealBytes else 0

/-- The engine's threads on a directory that may hold `limit` bytes. -/
def machine (H : Digest) (segmented : Bool) (limit k : Nat) :
    Machine (Admission.State k) (Admission.Action k) :=
  Admission.machine limit (reserved segmented) (Path H segmented)

-- Every check covers its path

variable {H : Digest} {i j j' : Journal}

theorem sealActive_observed : (j.sealActive H).1.flatMap (observe i) =
    if j.active.isSome then [.lock, .write reservedSealBytes, .unlock] else [] := by
  unfold Journal.sealActive
  cases j.active with
  | none => rfl
  | some a => simp [observe]

theorem rotate_observed : (j.rotate H).1.flatMap (observe i) =
    (if j.active.isSome then [.lock, .write reservedSealBytes, .unlock] else []) ++
      [.lock, .lock, .write headerBytes, .unlock, .unlock] := by
  rw [← sealActive_observed (H := H) (i := i)]
  simp [Journal.rotate, observe]

theorem appendGroup_observed (h : j.appendGroup H records = .ok (ops, j', receipt)) :
    ops.flatMap (observe i) = (if j.mustRotate (frameSize records) then
        (if j.active.isSome then [.lock, .write reservedSealBytes, .unlock] else []) ++
          [.lock, .lock, .write headerBytes, .unlock, .unlock]
      else []) ++ [.lock, .write (frameSize records), .unlock] := by
  unfold Journal.appendGroup at h
  obtain ⟨plan, hp, h⟩ := Result.bind_ok.mp h
  obtain ⟨-, rfl⟩ := appendPlan_ok.mp hp
  cases hr : j.mustRotate (frameSize records) with
  | false =>
    simp only [Journal.planned, hr] at h
    cases h
    simp [Journal.writeFrame, observe, length_encode]
  | true =>
    simp only [Journal.planned, hr] at h
    cases h
    rw [List.flatMap_append]
    congr 1
    · exact rotate_observed
    · simp [Journal.writeFrame, observe, length_encode]

theorem sealActive_writes :
    writes ((j.sealActive H).1.flatMap (observe i)) ≤ reservedSealBytes := by
  rw [sealActive_observed]
  split <;> decide

theorem appendGroup_writes (h : j.appendGroup H records = .ok (ops, j', receipt))
    (hg : j.requiredAppendBytes records = .ok growth) :
    writes (ops.flatMap (observe i)) = growth := by
  obtain ⟨plan, hp, hg⟩ := Result.bind_ok.mp hg
  obtain ⟨-, rfl⟩ := appendPlan_ok.mp hp
  cases hg
  rw [appendGroup_observed h]
  simp only [Journal.planned, Journal.reserve, Admission.writes_append]
  split
  · split <;> simp [writes, reservedSealBytes, headerBytes] <;> omega
  · simp [writes]

theorem unchecked_observed {ops : List Io} : Unchecked (ops.flatMap (observe i)) := by
  intro n hn
  obtain ⟨op, -, hn⟩ := List.mem_flatMap.mp hn
  cases op <;> simp [observe] at hn

theorem covered_or_unchecked (h : Path H segmented p) :
    Covered (reserved segmented) p ∨ Unchecked p := by
  cases h with
  | append hs hg ha =>
    refine .inl ⟨Admission.unchecked_append unchecked_observed (by decide), ?_⟩
    rw [Admission.writes_append, appendGroup_writes ha hg]
    simp [writes]
  | wal hs record => exact .inl ⟨by simp [Unchecked], by simp [writes]⟩
  | file bytes replaced => exact .inl ⟨by simp [Unchecked], by simp [writes]⟩
  | fetch evicted bytes =>
    refine .inl (Admission.covered_removes ⟨by simp [Unchecked], ?_⟩)
    simp [writes]
  | intent reservation bytes =>
    refine .inl ⟨by simp [Unchecked], ?_⟩
    simp [writes]
    omega
  | install freed => exact .inr (by simp [Unchecked])
  | rebind bytes replaced => exact .inr (by simp [Unchecked])
  | snapshot hs j =>
    refine .inl ⟨Admission.unchecked_append unchecked_observed (by decide), ?_⟩
    have hw := sealActive_writes (H := H) (i := j) (j := j)
    rw [Admission.writes_append, hs]
    simpa [writes, reserved] using hw
  | reclaim hs hr =>
    refine .inr fun n hn => ?_
    simp only [List.mem_cons, reduceCtorEq, false_or] at hn
    exact Admission.unchecked_append unchecked_observed (by decide) n hn
  | collect freed => exact .inr (by simp [Unchecked])

/-- Where every admission leaves room for what the other threads have been admitted to write, the
directory stays within its budget. -/
theorem disk_budget {k limit : Nat} {s : Admission.State k}
    (h : ((machine H segmented limit k).restrict
      (Admission.Roomy limit (reserved segmented))).Reachable s) :
    s.used ≤ limit :=
  Admission.within_of_reachable (fun _ => covered_or_unchecked) h

def opened : Journal := ⟨⟨65536, 65536, 65, 65408, 65272, 1⟩, [], none, 1, 1, 0, 0, 0, 0⟩

def record : Bytes := List.replicate 200 0

theorem admitted_opened (checkCapacity : Bool) : opened.Admitted [record] checkCapacity where
  group := ⟨by decide +kernel, by decide +kernel, by decide +kernel, by decide +kernel⟩
  next := by decide +kernel
  ids _ := by decide +kernel
  count _ _ := by decide +kernel
  bytes _ := by decide +kernel

/-- The first append: the directory is synced, and admission released, before the frame. -/
def firstAppend : List Phase := [.lock, .check 400, .lock, .lock, .write 64, .unlock, .unlock,
  .lock, .write 336, .unlock, .unlock]

theorem path_firstAppend : Path H true firstAppend := by
  have hp := appendPlan_ok.mpr ⟨admitted_opened true, rfl⟩
  have hf := appendPlan_ok.mpr ⟨admitted_opened false, rfl⟩
  have ha : opened.appendGroup H [record] = .ok (_, _, _) := Result.bind_ok.mpr ⟨_, hp, rfl⟩
  have hg : opened.requiredAppendBytes [record] = .ok 400 := by
    have hgrowth : (Journal.planned opened [record]).growth = 400 := by decide +kernel
    exact Result.bind_ok.mpr ⟨_, hf, congrArg _ hgrowth⟩
  have h := Path.append rfl hg ha
  have hsize : frameSize [record] = 336 := by decide +kernel
  rw [appendGroup_observed ha, hsize] at h
  exact h

def idle (k used : Nat) : Admission.State k := ⟨used, none, fun _ => []⟩

/-- An append admitted to the last byte, and a fetch admitted between its header and its frame. -/
theorem disk_budget_exceeded : ∃ s, (machine Journal.blake3 true 1000000 2).Reachable s ∧
    1000000 < s.used := by
  have h0 : (machine Journal.blake3 true 1000000 2).Reachable (idle 2 999536) :=
    .init ⟨by decide, fun _ => rfl⟩
  have h1 := h0.step (.start (i := 0) rfl path_firstAppend)
  have h2 := h1.step (.start (i := 1) rfl (.fetch [] 336))
  -- The append up to its header, the whole fetch, then the frame.
  have hrun : (Admission.State.phases 1000000 64
      (((idle 2 999536).set 0 firstAppend).set 1 [.lock, .check 336, .write 336, .unlock])
      [0, 0, 0, 0, 0, 0, 1, 1, 1, 1, 0, 0, 0]).any (fun s => 1000000 < s.used) = true := by
    decide +kernel
  obtain ⟨s, hs, hused⟩ := Option.any_eq_true _ _ |>.mp hrun
  exact ⟨s, Admission.reachable_phases h2 hs fun _ _ _ => .phase, of_decide_eq_true hused⟩

/-- A fetch alone fits. -/
theorem disk_budget_fetched : ∃ s, ((machine Journal.blake3 true 1000000 1).restrict
      (Admission.Roomy 1000000 (reserved true))).Reachable s ∧
    s.used = 336 ∧ s.used ≤ 1000000 := by
  have h0 : ((machine Journal.blake3 true 1000000 1).restrict
      (Admission.Roomy 1000000 (reserved true))).Reachable (idle 1 0) :=
    .init ⟨by decide, fun _ => rfl⟩
  have hstart : (machine Journal.blake3 true 1000000 1).step (idle 1 0)
      (.start 0 [.lock, .check 336, .write 336, .unlock]) _ := .start rfl (.fetch [] 336)
  have hroom : Admission.Roomy 1000000 (reserved true) (idle 1 0)
      (.start 0 [.lock, .check 336, .write 336, .unlock]) :=
    fun hu => absurd (List.mem_cons_of_mem _ List.mem_cons_self) (hu 336)
  have h1 := h0.step ⟨hroom, hstart⟩
  have hrun : (Admission.State.phases 1000000 64
      ((idle 1 0).set 0 [.lock, .check 336, .write 336, .unlock]) [0, 0, 0, 0]).any
        (fun s => s.used = 336) = true := by
    decide +kernel
  obtain ⟨s, hs, hused⟩ := Option.any_eq_true _ _ |>.mp hrun
  have hr := Admission.reachable_phases h1 hs fun _ _ _ h => ⟨Admission.roomy_alone, .phase h⟩
  exact ⟨s, hr, of_decide_eq_true hused, disk_budget hr⟩

end Varve.Budget
