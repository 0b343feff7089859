import Varve.Jobs.Runtime
import Varve.Lib.Run

/-!
# Job runs

`tick` and `run_job_now` start a run under the commit lock, execute its action without it and
complete the run under the lock again.
-/

namespace Varve.Jobs

open Result (ensure)
open Journal (Digest)
open Engine

structure Started where
  kind : JobKind
  intervalUs : Int
  run : JobRun

structure State where
  /-- `catalog.jobs`, which the log makes durable with every commit. -/
  jobs : Map JobDefinition
  sequence : Nat
  jobRuntime : Map JobRuntime
  fenced : Bool
  /-- `jobs_running`, with the run of each execution. -/
  running : Map Started
  /-- The runtime of an alteration that is committed and not in the journal. -/
  unjournaled : Option (Text × JobRuntime)
  file : Option Bytes
  live : Bool
  /-- The runs that were started, newest first. -/
  history : List (Text × JobRun)

/-- How the write of a journal ends: it is refused before the file is replaced, or the file is
replaced and its directory is not synced. -/
inductive Write where
  | done
  | refused (reason : String)
  | unsynced (reason : String)

def runtimeFor (runtimes : Map JobRuntime) (job : JobDefinition) : JobRuntime :=
  ((runtimes[job.name]?).filter fun r => r.generation = job.updatedSequence).getD
    (.fromDefinition job)

def healthy (s : State) : Except String Unit :=
  ensure (s.fenced = false) "database fenced; reopen for recovery"

def checkRuntimes (jobs : Map JobDefinition) (next : Map JobRuntime) : Except String Unit :=
  next.toList.forM fun (name, runtime) => do
    let job ← context jobs[name]? "job runtime has no definition"
    ensure (runtime.generation = job.updatedSequence) "stale job runtime generation"
    validateRuntime runtime

section
variable (H : Digest)

def persistRuntimeMap (s : State) (next : Map JobRuntime) (w : Write) :
    State × Except String Unit :=
  match checkRuntimes s.jobs next >>= fun _ => encode H next with
  | .error e => (s, .error e)
  | .ok bytes =>
    match w with
    | .done => ({ s with jobRuntime := next, file := some bytes }, .ok ())
    | .refused e => (s, .error e)
    | .unsynced e => ({ s with file := some bytes }, .error e)

/-- The run a job starts next: the latest one again, or the one after it. -/
def nextRun (runtime : JobRuntime) (nowUs : Int) : Except String JobRun := do
  if runtime.running = true ∨ runtime.latestRun.any (fun run =>
      run.success = some false ∧ run.attempt < maxJobAttempts) then do
    let prior ← context runtime.latestRun "retrying job has no prior run"
    ensure (prior.attempt + 1 < 2 ^ 32) "job attempt overflow"
    .ok ⟨prior.runId, prior.scheduledUs, nowUs, none, min (prior.attempt + 1) maxJobAttempts, none,
      none⟩
  else do
    let prior := runtime.latestRun.elim 0 (·.runId)
    ensure (prior + 1 < 2 ^ 64) "job run id overflow"
    .ok ⟨prior + 1, runtime.nextRunUs.getD nowUs, nowUs, none, 1, none, none⟩

def JobRuntime.begun (r : JobRuntime) (run : JobRun) : JobRuntime :=
  { r with running := true, attempts := run.attempt, latestRun := some run }

/-- The first turn of `execute_job`, up to its write. -/
def beginJob (s : State) (name : Text) (nowUs : Int) (force : Bool) :
    Except String (Option (Started × Map JobRuntime)) := do
  healthy s
  let definition ← context s.jobs[name]? "job does not exist"
  let runtime := runtimeFor s.jobRuntime definition
  if (definition.paused = true ∧ force = false) ∨
      (force = false ∧ runtime.running = false ∧ runtime.nextRunUs.all (nowUs < ·)) then .ok none
  else do
    let run ← nextRun runtime nowUs
    .ok (some (⟨definition.kind, definition.intervalUs, run⟩,
      s.jobRuntime.insert name (runtime.begun run)))

def startJob (s : State) (name : Text) (nowUs : Int) (force : Bool) (w : Write) :
    State × Except String Unit :=
  if name ∈ s.running then (s, .ok ()) else
  match beginJob s name nowUs force with
  | .error e => (s, .error e)
  | .ok none => (s, .ok ())
  | .ok (some (started, next)) =>
    match persistRuntimeMap H s next w with
    | (s', .error e) => (s', .error e)
    | (s', .ok ()) =>
      ({ s' with
          running := s'.running.insert name started
          history := (name, started.run) :: s'.history }, .ok ())

/-- The run with the outcome of its action, which may be any text of error. -/
def completedRun (started : Started) (action : Except Text Unit) : JobRun :=
  { started.run with
    finishedUs := some started.run.startedUs
    success := some (action matches .ok _)
    error :=
      match action with
      | .ok _ => none
      | .error text => some (text.take 2048) }

/-- The interval, or before the last attempt a delay that doubles with every failure. -/
def retryDelay (started : Started) (action : Except Text Unit) : Int :=
  if (action matches .ok _) ∨ maxJobAttempts ≤ started.run.attempt then started.intervalUs
  else min started.intervalUs (min i64Max (1000000 * 2 ^ min (started.run.attempt - 1) 20))

def JobRuntime.ended (r : JobRuntime) (run : JobRun) (nextRunUs : Int) : JobRuntime :=
  { r with
    running := false
    attempts := run.attempt
    latestRun := some run
    nextRunUs := some nextRunUs }

/-- The second turn of `execute_job`, up to its write. -/
def completeJob (s : State) (name : Text) (started : Started) (action : Except Text Unit) :
    Except String (Map JobRuntime) := do
  let run := completedRun started action
  let nextRunUs := run.startedUs + retryDelay started action
  ensure (i64Min ≤ nextRunUs ∧ nextRunUs ≤ i64Max) "job next-run overflow"
  healthy s
  let definition ← context s.jobs[name]? "job disappeared during run"
  let runtime := runtimeFor s.jobRuntime definition
  let active ← context runtime.latestRun "job has no active run"
  ensure (runtime.running = true ∧ active.runId = run.runId ∧ active.attempt = run.attempt)
    "job completion does not match private active run"
  .ok (s.jobRuntime.insert name (runtime.ended run nextRunUs))

def finishJob (s : State) (name : Text) (started : Started) (action : Except Text Unit)
    (w : Write) : State × Except String Unit :=
  let s' := { s with running := s.running.erase name }
  match completeJob s' name started action with
  | .error e => (s', .error e)
  | .ok next => persistRuntimeMap H s' next w

/-- `alter_job` up to its commit. -/
def alterJob (s : State) (name : Text) (alter : JobAlter) : Except String State := do
  validateName name
  alter.intervalUs.elim (.ok ()) validateInterval
  ensure (alter.intervalUs.isSome ∨ alter.paused.isSome) "empty job alteration"
  healthy s
  ensure (s.sequence + 1 < 2 ^ 64) "sequence exhausted"
  let definition ← context s.jobs[name]? "job does not exist"
  let runtime := runtimeFor s.jobRuntime definition
  ensure (runtime.running = false) "cannot alter a running job"
  let job := { definition with
    intervalUs := alter.intervalUs.getD definition.intervalUs
    paused := alter.paused.getD definition.paused
    updatedSequence := s.sequence + 1 }
  let runtime := { runtime with
    generation := s.sequence + 1
    nextRunUs := alter.intervalUs.elim runtime.nextRunUs fun interval =>
      runtime.nextRunUs.map (min · interval) }
  .ok { s with
    jobs := s.jobs.insert name job
    sequence := s.sequence + 1
    unjournaled := some (name, runtime) }

/-- `persist_committed_runtime` after the commit; a failure fences the database. -/
def journalAlter (s : State) (name : Text) (runtime : JobRuntime) (w : Write) : State :=
  match persistRuntimeMap H s (s.jobRuntime.insert name runtime) w with
  | (s', .ok ()) => { s' with unjournaled := none }
  | (s', .error _) => { s' with fenced := true }

/-- Entries of another generation are dropped, jobs without an entry get that of their
definition. -/
def recovered (jobs : Map JobDefinition) (loaded : Map JobRuntime) : Map JobRuntime :=
  jobs.map fun name job =>
    ((loaded[name]?).filter fun r => r.generation = job.updatedSequence).getD (.fromDefinition job)

def reopen (R : Reader) (s : State) : Except String State := do
  let loaded ← load H R s.file
  .ok { s with
    jobRuntime := recovered s.jobs loaded
    fenced := false
    running := ∅
    unjournaled := none
    live := true }

def crash (s : State) : State := { s with running := ∅, unjournaled := none, live := false }

inductive Event where
  | start (name : Text) (nowUs : Int) (force : Bool) (w : Write)
  | finish (name : Text) (action : Except Text Unit) (w : Write)
  | alter (name : Text) (alter : JobAlter)
  | journal (w : Write)
  | commit
  | fence
  | crash
  | reopen

variable (R : Reader)

/-- The commit lock is held from an alteration's commit to the end of its write. -/
inductive Step : State → Event → State → Prop where
  | start (hl : s.live = true) (hu : s.unjournaled = none) :
      Step s (.start name nowUs force w) (startJob H s name nowUs force w).1
  | finish (hl : s.live = true) (hu : s.unjournaled = none) (hx : s.running[name]? = some started) :
      Step s (.finish name action w) (finishJob H s name started action w).1
  | alter (hl : s.live = true) (hu : s.unjournaled = none) (h : alterJob s name a = .ok s') :
      Step s (.alter name a) s'
  | journal (hl : s.live = true) (hf : s.fenced = false)
      (hu : s.unjournaled = some (name, runtime)) :
      Step s (.journal w) (journalAlter H s name runtime w)
  | commit (hl : s.live = true) (hf : s.fenced = false) (hu : s.unjournaled = none) :
      Step s .commit { s with sequence := s.sequence + 1 }
  | fence (hl : s.live = true) (hu : s.unjournaled = none) : Step s .fence { s with fenced := true }
  | crash (hl : s.live = true) : Step s .crash (crash s)
  | reopen (hl : s.live = false) (h : reopen H R s = .ok s') : Step s .reopen s'

/-- A database with its definitions checked, none of whose jobs has a runtime of its own. -/
def Initial (s : State) : Prop :=
  (∀ (name : Text) job, s.jobs[name]? = some job →
    job.name = name ∧ validateJob job s.sequence = .ok ()) ∧
  s.jobRuntime = ∅ ∧ s.fenced = false ∧ s.running = ∅ ∧ s.unjournaled = none ∧ s.file = none ∧
  s.live = true ∧ s.history = []

def machine : Machine State Event where
  init := Initial
  step := Step H R

end

end Varve.Jobs
