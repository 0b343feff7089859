import Varve.Jobs.Machine

/-!
# What holds in every run of the jobs

The journal on disk and the runtimes in memory both know every run that was started, so that no run
id comes back.
-/

namespace Varve.Jobs

open Result (ensure ensure_bind bind_ok forM_ok)
open Text (len)
open Journal (Digest)
open Engine

section
variable {m : Map JobRuntime} {jobs jobs' : Map JobDefinition} {name : Text}

theorem generation_runtimeFor : (runtimeFor m job).generation = job.updatedSequence := by
  unfold runtimeFor
  cases h : (m[job.name]?).filter fun r => r.generation = job.updatedSequence with
  | none => rfl
  | some r => simpa using (Option.filter_eq_some_iff.mp h).2

theorem generation_begun : ((runtimeFor m job).begun run).generation = job.updatedSequence :=
  generation_runtimeFor

theorem generation_ended : ((runtimeFor m job).ended run n).generation = job.updatedSequence :=
  generation_runtimeFor

theorem runtimeFor_of_lookup (h : m[job.name]? = some r) (hg : r.generation = job.updatedSequence) :
    runtimeFor m job = r := by
  simp [runtimeFor, h, Option.filter_some, hg]

theorem runtimeFor_insert (hn : job.name = name) (hg : r.generation = job.updatedSequence) :
    runtimeFor (m.insert name r) job = r :=
  runtimeFor_of_lookup (by simp [hn]) hg

theorem runtimeFor_insert_of_ne (hn : job.name ≠ name) :
    runtimeFor (m.insert name r) job = runtimeFor m job := by
  simp [runtimeFor, Ne.symm hn]

theorem runtimeFor_recovered (hj : jobs[job.name]? = some job) :
    runtimeFor (recovered jobs m) job = runtimeFor m job := by
  refine runtimeFor_of_lookup ?_ generation_runtimeFor
  simp [recovered, hj, runtimeFor]

-- Runtime maps

def Keyed (jobs : Map JobDefinition) : Prop :=
  ∀ (name : Text) job, jobs[name]? = some job → job.name = name

/-- What `persist_runtime_map` checks of a map. -/
def Accepted (jobs : Map JobDefinition) (m : Map JobRuntime) : Prop :=
  ∀ (name : Text) r, m[name]? = some r →
    r.Valid ∧ ∃ job, jobs[name]? = some job ∧ r.generation = job.updatedSequence

theorem checkRuntimes_ok : checkRuntimes jobs m = .ok () ↔ Accepted jobs m := by
  have hentry : ∀ (name : Text) (r : JobRuntime), (do
      let job ← context jobs[name]? "job runtime has no definition"
      ensure (r.generation = job.updatedSequence) "stale job runtime generation"
      validateRuntime r) = .ok () ↔
      r.Valid ∧ ∃ job, jobs[name]? = some job ∧ r.generation = job.updatedSequence := by
    intro name r
    rw [bind_ok]
    simp only [context_ok, ensure_bind]
    constructor
    · rintro ⟨job, hj, hg, hv⟩
      exact ⟨checkRuntime_ok.mp hv, job, hj, hg⟩
    · rintro ⟨hv, job, hj, hg⟩
      exact ⟨job, hj, hg, checkRuntime_ok.mpr hv⟩
  rw [checkRuntimes, forM_ok]
  constructor
  · intro h name r hr
    exact (hentry name r).mp (h (name, r) (Map.mem_toList.mpr hr))
  · intro h p hp
    exact (hentry p.1 p.2).mpr (h p.1 p.2 (Map.mem_toList.mp hp))

def Covers (history : List (Text × JobRun)) (name : Text) (r : JobRuntime) : Prop :=
  ∀ run, (name, run) ∈ history → ∃ last, r.latestRun = some last ∧ run.runId ≤ last.runId

/-- A map that gives every job a valid runtime that knows of its runs. -/
def Sound (jobs : Map JobDefinition) (history : List (Text × JobRun)) (m : Map JobRuntime) : Prop :=
  ∀ (name : Text) job, jobs[name]? = some job →
    (runtimeFor m job).Valid ∧ Covers history name (runtimeFor m job)

theorem Accepted.insert (h : Accepted jobs m) (hj : jobs'[name]? = some job)
    (ho : ∀ n, n ≠ name → jobs'[n]? = jobs[n]?) (hv : r.Valid)
    (hg : r.generation = job.updatedSequence) : Accepted jobs' (m.insert name r) := by
  intro n r' hr
  rw [Map.lookup_insert] at hr
  split at hr
  · subst n
    cases hr
    exact ⟨hv, job, hj, hg⟩
  · rename_i hne
    rw [ho n (Ne.symm hne)]
    exact h n r' hr

theorem Sound.insert (h : Sound jobs history m) (hk : Keyed jobs') (hj : jobs'[name]? = some job)
    (ho : ∀ n, n ≠ name → jobs'[n]? = jobs[n]?) (hv : r.Valid)
    (hg : r.generation = job.updatedSequence) (hc : Covers history name r) :
    Sound jobs' history (m.insert name r) := by
  intro n job' hj'
  by_cases hn : n = name
  · subst hn
    rw [hj] at hj'
    cases hj'
    rw [runtimeFor_insert (hk _ _ hj) hg]
    exact ⟨hv, hc⟩
  · rw [runtimeFor_insert_of_ne (by rwa [hk _ _ hj'])]
    exact h n job' (ho n hn ▸ hj')

theorem Sound.weaken (h : Sound jobs (p :: history) m) : Sound jobs history m :=
  fun name job hj => ⟨(h name job hj).1, fun run hr =>
    (h name job hj).2 run (List.mem_cons_of_mem _ hr)⟩

theorem Sound.recovered (h : Sound jobs history m) (hk : Keyed jobs) :
    Sound jobs history (recovered jobs m) := by
  intro name job hj
  rw [runtimeFor_recovered (by rwa [hk _ _ hj])]
  exact h name job hj

theorem accepted_recovered (h : Sound jobs history m) (hk : Keyed jobs) :
    Accepted jobs (recovered jobs m) := by
  intro name r hr
  obtain ⟨job, hj, rfl⟩ : ∃ job, jobs[name]? = some job ∧ runtimeFor m job = r := by
    simp only [Jobs.recovered, Std.ExtTreeMap.getElem?_map, Option.map_eq_some_iff] at hr
    obtain ⟨job, hj, hr⟩ := hr
    exact ⟨job, hj, by rw [runtimeFor, hk _ _ hj]; exact hr⟩
  exact ⟨(h name job hj).1, job, hj, generation_runtimeFor⟩

end

/-- Run ids of a job never decrease, and a first attempt has a larger one than every run before. -/
def Later (newer older : Text × JobRun) : Prop :=
  newer.1 = older.1 → older.2.runId ≤ newer.2.runId ∧
    (newer.2.attempt = 1 → older.2.runId < newer.2.runId)

def RunsOrdered (history : List (Text × JobRun)) : Prop := history.Pairwise Later

theorem nextRun_ok (h : nextRun r nowUs = .ok run) (hv : r.Valid) (hc : Covers history name r) :
    (0 < run.runId ∧ 0 < run.attempt ∧ run.attempt ≤ maxJobAttempts) ∧ run.error = none ∧
      run.finishedUs = none ∧ ∀ p ∈ history, Later (name, run) p := by
  have hfive : maxJobAttempts = 5 := rfl
  unfold nextRun at h
  split at h
  · -- a retry keeps the run id, and its attempt is at least the second
    obtain ⟨prior, hp, h⟩ := bind_ok.mp h
    rw [context_ok] at hp
    rw [ensure_bind] at h
    obtain ⟨-, h⟩ := h
    cases h
    obtain ⟨hid, hat, -⟩ := hv.run prior hp
    refine ⟨⟨hid, Nat.lt_min.mpr ⟨Nat.succ_pos _, by decide⟩, Nat.min_le_right _ _⟩, rfl, rfl, ?_⟩
    rintro ⟨n, older⟩ hm rfl
    obtain ⟨last, hl, hle⟩ := hc older hm
    rw [hp] at hl
    cases hl
    refine ⟨hle, fun h1 => ?_⟩
    simp only at h1
    omega
  · rw [ensure_bind] at h
    obtain ⟨-, h⟩ := h
    cases h
    refine ⟨⟨Nat.succ_pos _, Nat.one_pos, Nat.succ_le_succ (Nat.zero_le 4)⟩, rfl, rfl, ?_⟩
    rintro ⟨n, older⟩ hm rfl
    obtain ⟨last, hl, hle⟩ := hc older hm
    simp only [hl, Option.elim_some]
    omega

-- The invariant

/-- The runtimes of the process, with that of an alteration in progress. -/
def State.runtimes (s : State) : Map JobRuntime :=
  match s.unjournaled with
  | none => s.jobRuntime
  | some (name, r) => s.jobRuntime.insert name r

section
variable (H : Digest)

structure Holds (file : Option Bytes) (m : Map JobRuntime) : Prop where
  valid : ∀ (name : Text) r, m[name]? = some r → r.Valid
  content : file = none ∧ m = ∅ ∨ ∃ bytes, file = some bytes ∧ encode H m = .ok bytes

structure Inv (s : State) : Prop where
  keyed : Keyed s.jobs
  entries : ∀ (name : Text) r, s.jobRuntime[name]? = some r → r.Valid
  ordered : RunsOrdered s.history
  attempts : ∀ p ∈ s.history, p.2.attempt ≤ maxJobAttempts
  memory : s.live = true → Accepted s.jobs s.runtimes ∧ Sound s.jobs s.history s.runtimes
  running : ∀ (name : Text) x, s.running[name]? = some x → ∃ job, s.jobs[name]? = some job ∧
    (runtimeFor s.runtimes job).running = true ∧
    (runtimeFor s.runtimes job).latestRun = some x.run
  file : ∃ m, Holds H s.file m ∧ (s.unjournaled = none → Sound s.jobs s.history m)
  dead : s.live = false → s.unjournaled = none

end

section
variable {H : Digest} {R : Reader} {s s' : State} {name : Text} {next : Map JobRuntime}

theorem Holds.load (h : Holds H file m) : load H R file = .ok m := by
  obtain ⟨rfl, rfl⟩ | ⟨bytes, rfl, he⟩ := h.content
  · rfl
  · exact load_encode he h.valid

theorem Accepted.holds (h : Accepted jobs next) (he : encode H next = .ok bytes) :
    Holds H (some bytes) next :=
  ⟨fun name r hr => (h name r hr).1, .inr ⟨bytes, rfl, he⟩⟩

/-- A write fails without a trace, or replaces the file by the journal of an accepted map; only a
write that is reported changes the memory. -/
theorem persistRuntimeMap_cases (s : State) (next : Map JobRuntime) (w : Write) :
    (∃ e, persistRuntimeMap H s next w = (s, .error e)) ∨
    ∃ bytes, Accepted s.jobs next ∧ encode H next = .ok bytes ∧
      (persistRuntimeMap H s next w = ({ s with jobRuntime := next, file := some bytes }, .ok ()) ∨
        ∃ e, persistRuntimeMap H s next w = ({ s with file := some bytes }, .error e)) := by
  unfold persistRuntimeMap
  split
  · exact .inl ⟨_, rfl⟩
  · rename_i bytes h
    obtain ⟨⟨⟩, hc, he⟩ := bind_ok.mp h
    cases w with
    | done => exact .inr ⟨bytes, checkRuntimes_ok.mp hc, he, .inl rfl⟩
    | refused e => exact .inl ⟨e, rfl⟩
    | unsynced e => exact .inr ⟨bytes, checkRuntimes_ok.mp hc, he, .inr ⟨e, rfl⟩⟩

theorem runtimes_of_none (h : s.unjournaled = none) : s.runtimes = s.jobRuntime := by
  rw [State.runtimes, h]

theorem runtimes_of_some (h : s.unjournaled = some (name, r)) :
    s.runtimes = s.jobRuntime.insert name r := by
  rw [State.runtimes, h]

theorem inv_initial (h : Initial s) : Inv H s := by
  obtain ⟨hjobs, hm, -, hr, hu, hf, hl, hh⟩ := h
  have hfrom : ∀ job, runtimeFor ∅ job = .fromDefinition job := fun job => by simp [runtimeFor]
  have hsound : Sound s.jobs s.history ∅ := by
    intro name job hj
    rw [hfrom]
    refine ⟨valid_fromDefinition (hjobs name job hj).2, fun run hr => ?_⟩
    rw [hh] at hr
    cases hr
  refine ⟨fun name job hj => (hjobs name job hj).1, ?_, ?_, ?_, fun _ => ?_, ?_, ?_, ?_⟩
  · simp [hm]
  · rw [hh]
    exact .nil
  · simp [hh]
  · rw [runtimes_of_none hu, hm]
    exact ⟨fun n r hr => by simp at hr, hsound⟩
  · simp [hr]
  · exact ⟨∅, ⟨fun n r hr => by simp at hr, .inl ⟨hf, rfl⟩⟩, fun _ => hsound⟩
  · simp [hl]

theorem Inv.write (hi : Inv H s) (ha : Accepted s.jobs next) (he : encode H next = .ok bytes)
    (hs : s.unjournaled = none → Sound s.jobs s.history next) :
    Inv H { s with file := some bytes } :=
  { hi with file := ⟨next, ha.holds he, hs⟩ }

theorem beginJob_ok (h : beginJob s name nowUs force = .ok (some (started, next))) :
    ∃ job, s.jobs[name]? = some job ∧
      nextRun (runtimeFor s.jobRuntime job) nowUs = .ok started.run ∧
      next = s.jobRuntime.insert name ((runtimeFor s.jobRuntime job).begun started.run) := by
  unfold beginJob at h
  obtain ⟨⟨⟩, -, h⟩ := bind_ok.mp h
  obtain ⟨job, hj, h⟩ := bind_ok.mp h
  refine ⟨job, context_ok.mp hj, ?_⟩
  dsimp only at h
  split at h
  · cases h
  · obtain ⟨run, hr, h⟩ := bind_ok.mp h
    cases h
    exact ⟨hr, rfl⟩

theorem Sound.cons (h : Sound jobs history m) (hj : jobs[name]? = some job)
    (hc : Covers ((name, run) :: history) name (runtimeFor m job)) :
    Sound jobs ((name, run) :: history) m := by
  intro n job' hj'
  refine ⟨(h n job' hj').1, fun run' hm => ?_⟩
  rcases List.mem_cons.mp hm with he | hm
  · cases he
    rw [hj] at hj'
    cases hj'
    exact hc run List.mem_cons_self
  · exact (h n job' hj').2 run' hm

theorem Inv.of_map (hk : Keyed s.jobs) (hu : s.unjournaled = none) (hf : s.file = some bytes)
    (he : encode H s.jobRuntime = .ok bytes) (ha : Accepted s.jobs s.jobRuntime)
    (hs : Sound s.jobs s.history s.jobRuntime) (ho : RunsOrdered s.history)
    (hat : ∀ p ∈ s.history, p.2.attempt ≤ maxJobAttempts)
    (hr : ∀ (name : Text) x, s.running[name]? = some x → ∃ job, s.jobs[name]? = some job ∧
      (runtimeFor s.jobRuntime job).running = true ∧
      (runtimeFor s.jobRuntime job).latestRun = some x.run) : Inv H s where
  keyed := hk
  entries name r h := (ha name r h).1
  ordered := ho
  attempts := hat
  memory _ := by
    rw [runtimes_of_none hu]
    exact ⟨ha, hs⟩
  running := by
    rw [runtimes_of_none hu]
    exact hr
  file := ⟨s.jobRuntime, hf ▸ ha.holds he, fun _ => hs⟩
  dead _ := hu

theorem Inv.running_insert (hi : Inv H s) (hu : s.unjournaled = none) (hn : n ≠ name)
    (hx : s.running[n]? = some x) : ∃ job, s.jobs[n]? = some job ∧
      (runtimeFor (s.jobRuntime.insert name r) job).running = true ∧
      (runtimeFor (s.jobRuntime.insert name r) job).latestRun = some x.run := by
  obtain ⟨job, hj, hr⟩ := hi.running n x hx
  rw [runtimes_of_none hu] at hr
  rw [← hi.keyed n job hj] at hn
  exact ⟨job, hj, by rwa [runtimeFor_insert_of_ne hn]⟩

theorem valid_begun {r : JobRuntime} (hid : 0 < run.runId) (hpos : 0 < run.attempt)
    (hmax : run.attempt ≤ maxJobAttempts) (herr : run.error = none)
    (hfin : run.finishedUs = none) : (r.begun run).Valid := by
  refine ⟨hmax, ?_, by rintro ⟨⟩⟩
  rintro last ⟨⟩
  exact ⟨hid, hpos, hmax, by simp [herr], by rw [hfin]; rfl⟩

theorem Inv.start (hi : Inv H s) (hl : s.live = true) (hu : s.unjournaled = none) :
    Inv H (startJob H s name nowUs force w).1 := by
  unfold startJob
  split
  · exact hi
  split
  · exact hi
  · exact hi
  rename_i started next hb
  obtain ⟨job, hj, hrun, rfl⟩ := beginJob_ok hb
  obtain ⟨hacc, hsound⟩ := hi.memory hl
  rw [runtimes_of_none hu] at hacc hsound
  obtain ⟨hv, hc⟩ := hsound name job hj
  obtain ⟨⟨hid, hpos, hmax⟩, herr, hfin, hlater⟩ := nextRun_ok hrun hv hc
  have hself : runtimeFor (s.jobRuntime.insert name
      ((runtimeFor s.jobRuntime job).begun started.run)) job =
      (runtimeFor s.jobRuntime job).begun started.run :=
    runtimeFor_insert (hi.keyed _ _ hj) generation_begun
  have hcov : Covers ((name, started.run) :: s.history) name
      ((runtimeFor s.jobRuntime job).begun started.run) := by
    intro run hm
    refine ⟨started.run, rfl, ?_⟩
    rcases List.mem_cons.mp hm with he | hm
    · cases he
      exact Nat.le_refl _
    · exact (hlater _ hm rfl).1
  have hnext : Sound s.jobs ((name, started.run) :: s.history) (s.jobRuntime.insert name
      ((runtimeFor s.jobRuntime job).begun started.run)) := by
    refine Sound.cons (hsound.insert hi.keyed hj (fun _ _ => rfl)
      (valid_begun hid hpos hmax herr hfin) generation_begun ?_) hj (by rwa [hself])
    exact fun run hm => hcov run (List.mem_cons_of_mem _ hm)
  obtain ⟨e, hp⟩ | ⟨bytes, ha, he, hp | ⟨e, hp⟩⟩ :=
    persistRuntimeMap_cases (H := H) s
      (s.jobRuntime.insert name ((runtimeFor s.jobRuntime job).begun started.run)) w
  · rw [hp]
    exact hi
  · rw [hp]
    refine .of_map hi.keyed hu rfl he ha hnext ?_ ?_ ?_
    · exact List.pairwise_cons.mpr ⟨hlater, hi.ordered⟩
    · exact List.forall_mem_cons.mpr ⟨hmax, hi.attempts⟩
    · intro n x hx
      rw [Map.lookup_insert] at hx
      split at hx
      · subst n
        cases hx
        exact ⟨job, hj, by rw [hself]; exact ⟨rfl, rfl⟩⟩
      · rename_i hn
        exact hi.running_insert hu (Ne.symm hn) hx
  · rw [hp]
    exact hi.write ha he fun _ => hnext.weaken

theorem Inv.erase (hi : Inv H s) : Inv H { s with running := s.running.erase name } :=
  { hi with
    running := fun n x hx => by
      rw [Map.lookup_erase] at hx
      split at hx
      · cases hx
      · exact hi.running n x hx }

theorem completeJob_ok (h : completeJob s name started action = .ok next) :
    ∃ job last nextRunUs, s.jobs[name]? = some job ∧
      (runtimeFor s.jobRuntime job).latestRun = some last ∧ last.runId = started.run.runId ∧
      next = s.jobRuntime.insert name
        ((runtimeFor s.jobRuntime job).ended (completedRun started action) nextRunUs) := by
  unfold completeJob at h
  dsimp only at h
  rw [ensure_bind] at h
  obtain ⟨⟨⟩, -, h⟩ := bind_ok.mp h.2
  obtain ⟨job, hj, h⟩ := bind_ok.mp h
  obtain ⟨last, hl, h⟩ := bind_ok.mp h
  rw [ensure_bind] at h
  obtain ⟨⟨-, hid, -⟩, h⟩ := h
  cases h
  exact ⟨job, last, _, context_ok.mp hj, context_ok.mp hl, hid, rfl⟩

theorem Inv.finish (hi : Inv H s) (hl : s.live = true) (hu : s.unjournaled = none) :
    Inv H (finishJob H s name started action w).1 := by
  unfold finishJob
  dsimp only
  have hi' : Inv H { s with running := s.running.erase name } := hi.erase
  split
  · exact hi'
  rename_i next hb
  obtain ⟨job, last, nextRunUs, hj, hlast, hid, rfl⟩ := completeJob_ok hb
  obtain ⟨-, hsound⟩ := hi.memory hl
  rw [runtimes_of_none hu] at hsound
  have hcov : Covers s.history name
      ((runtimeFor s.jobRuntime job).ended (completedRun started action) nextRunUs) := by
    intro run hm
    obtain ⟨last', hl', hle⟩ := (hsound name job hj).2 run hm
    rw [hlast] at hl'
    cases hl'
    exact ⟨completedRun started action, rfl, hid ▸ hle⟩
  obtain ⟨e, hp⟩ | ⟨bytes, ha, he, hp⟩ :=
    persistRuntimeMap_cases (H := H) { s with running := s.running.erase name }
      (s.jobRuntime.insert name
        ((runtimeFor s.jobRuntime job).ended (completedRun started action) nextRunUs)) w
  · rw [hp]
    exact hi'
  have hnext := hsound.insert hi.keyed hj (fun _ _ => rfl) (ha name _ (by simp)).1
    generation_ended hcov
  obtain hp | ⟨e, hp⟩ := hp
  · rw [hp]
    refine .of_map hi.keyed hu rfl he ha hnext hi.ordered hi.attempts ?_
    intro n x hx
    rw [Map.lookup_erase] at hx
    split at hx
    · cases hx
    · rename_i hn
      exact hi.running_insert hu (Ne.symm hn) hx
  · rw [hp]
    exact hi'.write ha he fun _ => hnext

theorem alterJob_ok (h : alterJob s name alter = .ok s') :
    ∃ old job r, s.jobs[name]? = some old ∧ (runtimeFor s.jobRuntime old).running = false ∧
      job.name = old.name ∧ r.generation = job.updatedSequence ∧
      r.running = (runtimeFor s.jobRuntime old).running ∧
      r.attempts = (runtimeFor s.jobRuntime old).attempts ∧
      r.latestRun = (runtimeFor s.jobRuntime old).latestRun ∧
      s' = { s with
        jobs := s.jobs.insert name job
        sequence := s.sequence + 1
        unjournaled := some (name, r) } := by
  unfold alterJob at h
  obtain ⟨⟨⟩, -, h⟩ := bind_ok.mp h
  obtain ⟨⟨⟩, -, h⟩ := bind_ok.mp h
  rw [ensure_bind] at h
  obtain ⟨⟨⟩, -, h⟩ := bind_ok.mp h.2
  rw [ensure_bind] at h
  obtain ⟨old, hj, h⟩ := bind_ok.mp h.2
  dsimp only at h
  rw [ensure_bind] at h
  obtain ⟨hr, h⟩ := h
  cases h
  refine ⟨old, _, _, context_ok.mp hj, hr, ?_, ?_, ?_, ?_, ?_, rfl⟩ <;> rfl

theorem Inv.alter (hi : Inv H s) (hl : s.live = true) (hu : s.unjournaled = none)
    (h : alterJob s name a = .ok s') : Inv H s' := by
  obtain ⟨old, job, r, hj, hidle, hn, hg, hrun, hatt, hlast, rfl⟩ := alterJob_ok h
  obtain ⟨hacc, hsound⟩ := hi.memory hl
  rw [runtimes_of_none hu] at hacc hsound
  obtain ⟨hv, hc⟩ := hsound name old hj
  have hrv : r.Valid :=
    ⟨hatt ▸ hv.attempts, by rw [hlast, hrun]; exact hv.run, by rw [hlast, hrun]; exact hv.idle⟩
  have hcov : Covers s.history name r := by
    rw [Covers, hlast]
    exact hc
  have hself : (s.jobs.insert name job)[name]? = some job := by simp
  have hother : ∀ n, n ≠ name → (s.jobs.insert name job)[n]? = s.jobs[n]? :=
    fun n hne => by simp [Ne.symm hne]
  have hkeyed : Keyed (s.jobs.insert name job) := by
    intro n job' hj'
    rw [Map.lookup_insert] at hj'
    split at hj'
    · subst n
      cases hj'
      rw [hn, hi.keyed _ _ hj]
    · exact hi.keyed n job' hj'
  obtain ⟨m, hm, -⟩ := hi.file
  refine ⟨hkeyed, hi.entries, hi.ordered, hi.attempts, fun _ => ?_, ?_, ⟨m, hm, by rintro ⟨⟩⟩, ?_⟩
  · exact ⟨hacc.insert hself hother hrv hg, hsound.insert hkeyed hself hother hrv hg hcov⟩
  · intro n x hx
    have hne : n ≠ name := by
      rintro rfl
      obtain ⟨job', hj', hr', -⟩ := hi.running n x hx
      rw [hj] at hj'
      cases hj'
      rw [runtimes_of_none hu, hidle] at hr'
      cases hr'
    obtain ⟨job', hj', hr'⟩ := hi.running_insert hu hne hx
    exact ⟨job', by rw [hother n hne]; exact hj', hr'⟩
  · intro hd
    rw [show s.live = false from hd] at hl
    cases hl

theorem Inv.fence (hi : Inv H s) : Inv H { s with fenced := true } :=
  { hi with }

theorem Inv.journal (hi : Inv H s) (hl : s.live = true) (hu : s.unjournaled = some (name, r)) :
    Inv H (journalAlter H s name r w) := by
  unfold journalAlter
  obtain ⟨ha, hs⟩ := hi.memory hl
  have hr := hi.running
  rw [runtimes_of_some hu] at ha hs hr
  obtain ⟨e, hp⟩ | ⟨bytes, -, he, hp | ⟨e, hp⟩⟩ :=
    persistRuntimeMap_cases (H := H) s (s.jobRuntime.insert name r) w
  · rw [hp]
    exact hi.fence
  · rw [hp]
    exact .of_map hi.keyed rfl rfl he ha hs hi.ordered hi.attempts hr
  · rw [hp]
    exact (hi.write ha he fun _ => hs).fence

theorem Inv.crash (hi : Inv H s) (hu : s.unjournaled = none) : Inv H (crash s) := by
  obtain ⟨m, hm, hs⟩ := hi.file
  exact ⟨hi.keyed, hi.entries, hi.ordered, hi.attempts, by rintro ⟨⟩,
    fun n x hx => by simp [Jobs.crash] at hx, ⟨m, hm, fun _ => hs hu⟩, fun _ => rfl⟩

theorem Inv.reopen (hi : Inv H s) (hl : s.live = false) (h : reopen H R s = .ok s') :
    Inv H s' := by
  obtain ⟨m, hm, hs⟩ := hi.file
  have hsound := hs (hi.dead hl)
  rw [Jobs.reopen, hm.load, Result.ok_bind] at h
  cases h
  have hacc := accepted_recovered hsound hi.keyed
  exact ⟨hi.keyed, fun n r hr => (hacc n r hr).1, hi.ordered, hi.attempts,
    fun _ => ⟨hacc, hsound.recovered hi.keyed⟩, fun n x hx => by simp at hx,
    ⟨m, hm, fun _ => hsound⟩, fun _ => rfl⟩

end

-- Results

/-- The process does not die between the commit of an alteration and its write. -/
def AfterJournal (s : State) (e : Event) : Prop := e = .crash → s.unjournaled = none

/-- The kept part of the error is within the bound in bytes, and the next run within the clock. -/
def Bounded (started : Started) (action : Except Text Unit) : Prop :=
  (∀ error, action = .error error → len (error.take 2048) ≤ 2048) ∧
    i64Min ≤ started.run.startedUs + retryDelay started action ∧
    started.run.startedUs + retryDelay started action ≤ i64Max

section
variable (H : Digest) (R : Reader)

structure Safe (s : State) : Prop where
  attempts : (∀ (name : Text) r, s.jobRuntime[name]? = some r → r.attempts ≤ 5) ∧
    ∀ p ∈ s.history, p.2.attempt ≤ 5
  ordered : RunsOrdered s.history
  /-- A completion passes the checks, and is in memory and in the file once the disk takes it. -/
  completes : s.live = true → s.fenced = false → s.unjournaled = none →
    ∀ (name : Text) started action, s.running[name]? = some started → Bounded started action →
      ∃ next r, completeJob s name started action = .ok next ∧ checkRuntimes s.jobs next = .ok () ∧
        next[name]? = some r ∧ r.running = false ∧
        ∀ bytes, encode H next = .ok bytes → finishJob H s name started action .done = ({ s with
          running := s.running.erase name
          jobRuntime := next
          file := some bytes }, .ok ())
  loads : ∃ m, load H R s.file = .ok m

end

section
variable {H : Digest} {R : Reader} {s : State}

theorem inv_step (hi : Inv H s) (ha : AfterJournal s e) (hs : Step H R s e s') : Inv H s' := by
  cases hs with
  | start hl hu => exact hi.start hl hu
  | finish hl hu => exact hi.finish hl hu
  | alter hl hu h => exact hi.alter hl hu h
  | journal hl hf hu => exact hi.journal hl hu
  | commit => exact { hi with }
  | fence => exact hi.fence
  | crash => exact hi.crash (ha rfl)
  | reopen hl h => exact hi.reopen hl h

theorem inv_reachable (hr : ((machine H R).restrict AfterJournal).Reachable s) : Inv H s :=
  hr.invariant (fun _ => inv_initial) fun _ _ _ hi h => inv_step hi h.1 h.2

theorem valid_ended {r : JobRuntime} (hv : r.Valid) (hl : r.latestRun = some started.run)
    (hb : Bounded started action) : (r.ended (completedRun started action) n).Valid := by
  obtain ⟨hid, hpos, hmax, -, -⟩ := hv.run _ hl
  refine ⟨hmax, ?_, by rintro ⟨⟩⟩
  rintro last ⟨⟩
  refine ⟨hid, hpos, hmax, ?_, rfl⟩
  intro error he
  cases action with
  | ok => cases he
  | error text =>
    cases he
    exact hb.1 text rfl

variable {name : Text} {next : Map JobRuntime}

theorem Inv.completes (hi : Inv H s) (hl : s.live = true) (hf : s.fenced = false)
    (hu : s.unjournaled = none) (hx : s.running[name]? = some started)
    (hb : Bounded started action) :
    ∃ r, completeJob s name started action = .ok (s.jobRuntime.insert name r) ∧
      Accepted s.jobs (s.jobRuntime.insert name r) ∧ r.running = false := by
  obtain ⟨job, hj, hrun, hlast⟩ := hi.running name started hx
  obtain ⟨hacc, hsound⟩ := hi.memory hl
  rw [runtimes_of_none hu] at hrun hlast hacc hsound
  refine ⟨(runtimeFor s.jobRuntime job).ended (completedRun started action)
    (started.run.startedUs + retryDelay started action), ?_, ?_, rfl⟩
  · have hclock : i64Min ≤ (completedRun started action).startedUs + retryDelay started action ∧
        (completedRun started action).startedUs + retryDelay started action ≤ i64Max := hb.2
    simp only [completeJob, healthy, Result.ensure_pos hclock, Result.ensure_pos hf, hj,
      context_ok.mpr rfl, Result.ok_bind, hlast, hrun]
    exact ensure_bind.mpr ⟨⟨trivial, rfl, rfl⟩, rfl⟩
  · exact hacc.insert hj (fun _ _ => rfl) (valid_ended (hsound name job hj).1 hlast hb)
      generation_ended

theorem finishJob_done
    (hc : completeJob s name x a = .ok next) (ha : Accepted s.jobs next)
    (he : encode H next = .ok bytes) :
    finishJob H s name x a .done = ({ s with
      running := s.running.erase name
      jobRuntime := next
      file := some bytes }, .ok ()) := by
  have hc' : completeJob { s with running := s.running.erase name } name x a = .ok next := hc
  simp only [finishJob, hc', persistRuntimeMap, checkRuntimes_ok.mpr ha, Result.ok_bind, he]

theorem finishJob_refused
    (hc : completeJob s name x a = .ok next) (hb : checkRuntimes s.jobs next = .error e) :
    finishJob H s name x a w = ({ s with running := s.running.erase name }, .error e) := by
  have hc' : completeJob { s with running := s.running.erase name } name x a = .ok next := hc
  simp only [finishJob, hc', persistRuntimeMap, hb, Result.error_bind]

/-- No attempt is past the fifth, run ids only grow, and every bounded completion is accepted. -/
theorem job_runs (hr : ((machine H R).restrict AfterJournal).Reachable s) : Safe H R s := by
  have hi := inv_reachable hr
  refine ⟨⟨fun name r h => (hi.entries name r h).attempts, hi.attempts⟩, hi.ordered, ?_, ?_⟩
  · intro hl hf hu name started action hx hb
    obtain ⟨r, hc, ha, hrun⟩ := hi.completes hl hf hu hx hb
    exact ⟨_, r, hc, checkRuntimes_ok.mpr ha, by simp, hrun, fun _ he => finishJob_done hc ha he⟩
  · obtain ⟨m, hm, -⟩ := hi.file
    exact ⟨m, hm.load⟩

end

-- The two ways out

section
variable {H : Digest} {R : Reader}

theorem encode_ok (h : 8 + len (RuntimeJournal.json ⟨1, m⟩) + 32 ≤ maxJournalBytes) :
    encode H m = .ok (sealText H journalMagic (RuntimeJournal.json ⟨1, m⟩)) := by
  rw [encode, Result.ensure_pos h]
  rfl

theorem startJob_done (hn : name ∉ s.running)
    (hb : beginJob s name t f = .ok (some (x, next))) (hc : checkRuntimes s.jobs next = .ok ())
    (he : encode H next = .ok bytes) :
    startJob H s name t f .done = ({ s with
      jobRuntime := next
      file := some bytes
      running := s.running.insert name x
      history := (name, x.run) :: s.history }, .ok ()) := by
  simp only [startJob, if_neg hn, hb, persistRuntimeMap, hc, Result.ok_bind, he]

def maintenance : JobDefinition where
  name := builtinMaintenanceJob
  kind := .maintain
  intervalUs := 60000000
  paused := false
  nextRunUs := some 60000000
  running := false
  attempts := 0
  createdSequence := 0
  updatedSequence := 0
  latestRun := none

def booted : State where
  jobs := (∅ : Map _).insert builtinMaintenanceJob maintenance
  sequence := 0
  jobRuntime := ∅
  fenced := false
  running := ∅
  unjournaled := none
  file := none
  live := true
  history := []

theorem initial_booted : Initial booted := by
  refine ⟨fun name job hj => ?_, rfl, rfl, rfl, rfl, rfl, rfl, rfl⟩
  rw [booted, Map.lookup_insert] at hj
  split at hj
  · subst name
    cases hj
    exact ⟨rfl, by rfl⟩
  · simp at hj

def firstRun : Started := ⟨.maintain, 60000000, 1, 60000000, 7, none, 1, none, none⟩

def begunRuntimes : Map JobRuntime := (∅ : Map _).insert builtinMaintenanceJob
  ((JobRuntime.fromDefinition maintenance).begun firstRun.run)

def executing (H : Digest) : State :=
  { booted with
    jobRuntime := begunRuntimes
    file := some (sealText H journalMagic (RuntimeJournal.json ⟨1, begunRuntimes⟩))
    running := (∅ : Map _).insert builtinMaintenanceJob firstRun
    history := [(builtinMaintenanceJob, firstRun.run)] }

theorem step_booted :
    Step H R booted (.start builtinMaintenanceJob 7 true .done) (executing H) := by
  have hs : Step H R booted (.start builtinMaintenanceJob 7 true .done)
      (startJob H booted builtinMaintenanceJob 7 true .done).1 := .start rfl rfl
  have hb : beginJob booted builtinMaintenanceJob 7 true = .ok (some (firstRun, begunRuntimes)) :=
    rfl
  rwa [startJob_done (by simp [booted]) hb rfl (encode_ok (by decide +kernel))] at hs

theorem reachable_executing : ((machine H R).restrict AfterJournal).Reachable (executing H) :=
  .step (.init initial_booted) ⟨by rintro ⟨⟩, step_booted⟩

def longError : Text := List.replicate 513 (Char.ofNat 128512)

theorem finish_longError :
    finishJob H (executing H) builtinMaintenanceJob firstRun (.error longError) .done =
      ({ executing H with running := (executing H).running.erase builtinMaintenanceJob },
        .error "invalid private job run") := by
  have hc : completeJob (executing H) builtinMaintenanceJob firstRun (.error longError) =
      .ok (begunRuntimes.insert builtinMaintenanceJob
        (((JobRuntime.fromDefinition maintenance).begun firstRun.run).ended
          (completedRun firstRun (.error longError)) 1000007)) := rfl
  refine finishJob_refused hc ?_
  show checkRuntimes booted.jobs _ = _
  decide +kernel

def endedRuntimes : Map JobRuntime := begunRuntimes.insert builtinMaintenanceJob
  (((JobRuntime.fromDefinition maintenance).begun firstRun.run).ended
    (completedRun firstRun (.ok ())) 60000007)

def idle (H : Digest) : State :=
  { executing H with
    jobRuntime := endedRuntimes
    file := some (sealText H journalMagic (RuntimeJournal.json ⟨1, endedRuntimes⟩))
    running := (executing H).running.erase builtinMaintenanceJob }

def altered (H : Digest) : State :=
  { idle H with
    jobs := (idle H).jobs.insert builtinMaintenanceJob { maintenance with updatedSequence := 1 }
    sequence := 1
    unjournaled := some (builtinMaintenanceJob,
      { ((JobRuntime.fromDefinition maintenance).begun firstRun.run).ended
          (completedRun firstRun (.ok ())) 60000007 with generation := 1 }) }

def reopened (H : Digest) : State :=
  { crash (altered H) with
    jobRuntime := recovered (altered H).jobs endedRuntimes
    fenced := false
    live := true }

theorem step_executing :
    Step H R (executing H) (.finish builtinMaintenanceJob (.ok ()) .done) (idle H) := by
  have hs : Step H R (executing H) (.finish builtinMaintenanceJob (.ok ()) .done)
      (finishJob H (executing H) builtinMaintenanceJob firstRun (.ok ()) .done).1 :=
    .finish rfl rfl (by simp [executing])
  have hc : completeJob (executing H) builtinMaintenanceJob firstRun (.ok ()) =
      .ok endedRuntimes := rfl
  rwa [finishJob_done hc (checkRuntimes_ok.mp rfl) (encode_ok (by decide +kernel))] at hs

theorem step_idle :
    Step H R (idle H) (.alter builtinMaintenanceJob ⟨none, some false⟩) (altered H) :=
  .alter rfl rfl rfl

theorem step_crashed : Step H R (crash (altered H)) .reopen (reopened H) := by
  refine .reopen rfl ?_
  have hload : load H R (crash (altered H)).file = .ok endedRuntimes :=
    load_encode (encode_ok (by decide +kernel)) fun name r hr =>
      (checkRuntimes_ok.mp (show checkRuntimes booted.jobs endedRuntimes = .ok () from rfl)
        name r hr).1
  rw [reopen, hload]
  rfl

theorem start_reopened : (startJob H (reopened H) builtinMaintenanceJob 7 true .done).1.history =
    [(builtinMaintenanceJob, firstRun.run), (builtinMaintenanceJob, firstRun.run)] := by
  have hb : beginJob (reopened H) builtinMaintenanceJob 7 true = .ok (some (firstRun,
      (recovered (altered H).jobs endedRuntimes).insert builtinMaintenanceJob
        ((JobRuntime.fromDefinition { maintenance with updatedSequence := 1 }).begun
          firstRun.run))) := rfl
  rw [startJob_done (by simp [reopened, crash]) hb rfl (encode_ok ?_)]
  · rfl
  · show 8 + len (RuntimeJournal.json ⟨1, (recovered (booted.jobs.insert builtinMaintenanceJob
      { maintenance with updatedSequence := 1 }) endedRuntimes).insert builtinMaintenanceJob _⟩) +
      32 ≤ _
    decide +kernel

theorem reachable_reopened : (machine H R).Reachable (reopened H) :=
  .step (.step (.step (.step reachable_executing.of_restrict step_executing) step_idle)
    (.crash rfl)) step_crashed

/-- A completion whose error is long in bytes leaves the job marked as running, and a crash before
the write of an alteration brings a run id back. -/
theorem completion_refused_and_run_repeated :
    (∃ s name started action,
      ((machine Journal.blake3 textReader).restrict AfterJournal).Reachable s ∧ s.live = true ∧
      s.fenced = false ∧ s.unjournaled = none ∧ s.running[name]? = some started ∧
      ∃ s', finishJob Journal.blake3 s name started action .done =
          (s', .error "invalid private job run") ∧ name ∉ s'.running ∧
        ∃ r, s'.jobRuntime[name]? = some r ∧ r.running = true) ∧
    ∃ s, (machine Journal.blake3 textReader).Reachable s ∧ ¬RunsOrdered s.history := by
  refine ⟨⟨executing Journal.blake3, builtinMaintenanceJob, firstRun, .error longError,
    reachable_executing, rfl, rfl, rfl, by simp [executing], _, finish_longError, by simp,
    (JobRuntime.fromDefinition maintenance).begun firstRun.run, by simp [executing, begunRuntimes],
    rfl⟩,
    (startJob _ (reopened _) builtinMaintenanceJob 7 true .done).1,
    .step reachable_reopened (.start rfl rfl), ?_⟩
  rw [start_reopened]
  intro h
  have := (List.pairwise_cons.mp h).1 _ List.mem_cons_self rfl
  exact absurd (this.2 rfl) (Nat.lt_irrefl _)

/-- The first run of the built-in job completes. -/
theorem job_runs_maintenance :
    Bounded firstRun (.ok ()) ∧ Safe Journal.blake3 textReader (executing Journal.blake3) :=
  ⟨⟨by rintro _ ⟨⟩, by decide, by decide⟩, job_runs reachable_executing⟩

end

end Varve.Jobs
