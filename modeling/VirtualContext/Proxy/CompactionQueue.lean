import Mathlib.Logic.Basic
import VirtualContext.Library.Reach

/-!
# The compaction queue of a proxy

Compaction requests of one `ProxyState` go to a pool with one worker.  While a
run is pending a request is coalesced with it, waits behind it as the queued
request, or is dropped as covered by the queued request.  Every critical section
is one step, and so is each of the three steps of a submission: the active
target is published, the job is handed to the pool, the future is stored.
-/

namespace VirtualContext

/-! ## Data -/

inductive CompactionPriority where
  | soft | hard | takeover
  deriving DecidableEq, Repr

structure CompactionRequest where
  targetEnd : Nat
  priority : CompactionPriority
  deriving DecidableEq, Repr

/-- A call of `_run_compact_wrapper` that the pool was given, with its future. -/
structure CompactionJob where
  future : Nat
  targetEnd : Nat
  deriving DecidableEq, Repr

/-- What a call of `_submit_compaction_request` does next. -/
inductive SubmissionStage where
  | publish
  | submit
  | assign (future : Nat)
  deriving DecidableEq, Repr

structure Submission where
  targetEnd : Nat
  stage : SubmissionStage := .publish
  deriving DecidableEq, Repr

/-- Where the call of `_run_compact_wrapper` is that the worker makes. -/
inductive RunStage where
  | compacting
  | compacted
  | followUp (submission : Submission)
  | returning
  deriving DecidableEq, Repr

structure CompactionRun where
  job : CompactionJob
  stage : RunStage
  deriving DecidableEq, Repr

/--
The requests that no run with their target was started for, and that were not
discarded when the watermark had reached them: `submitted` to the pool or
coalesced with a run that is still to start, `waiting` behind the active run, or
`joined` to a run that had started already.
-/
structure RequestLog where
  submitted : List Nat := []
  waiting : List Nat := []
  joined : List Nat := []
  deriving DecidableEq, Repr

/--
The compaction state of a `ProxyState`: the fields of the object, the calls of
`_submit_compaction_request` that are under way, the pool and its worker.
-/
structure CompactionQueue where
  pendingCompact : Option Nat := none
  queuedCompactionRequest : Option CompactionRequest := none
  activeCompactionTargetEnd : Int := -1
  lastCompletedCompactionTargetEnd : Int := -1
  compactedPrefixMessages : Nat
  submissions : List Submission := []
  compactPool : List CompactionJob := []
  running : Option CompactionRun := none
  futures : Nat := 0
  log : RequestLog := {}
  deriving DecidableEq, Repr

/-! ## Which runs are still to come -/

namespace Submission

/-- The job was not handed to the pool. -/
def unstarted (submission : Submission) : List Nat :=
  match submission.stage with
  | .publish | .submit => [submission.targetEnd]
  | .assign _ => []

/-- The target was published, and the pool does not have the job. -/
def published (submission : Submission) : List Nat :=
  match submission.stage with
  | .submit => [submission.targetEnd]
  | .publish | .assign _ => []

/-- A bound of the steps to the end of the run that is submitted. -/
def stepsLeft (submission : Submission) : Nat :=
  match submission.stage with
  | .publish => 7
  | .submit => 6
  | .assign _ => 1

end Submission

namespace RunStage

def submissions : RunStage → List Submission
  | .followUp submission => [submission]
  | .compacting | .compacted | .returning => []

/-- The last critical section of the run is still to come. -/
def isOpen : RunStage → Bool
  | .compacting | .compacted => true
  | .followUp _ | .returning => false

def stepsLeft : RunStage → Nat
  | .compacting => 3
  | .compacted => 2
  | .followUp submission => submission.stepsLeft + 1
  | .returning => 1

end RunStage

namespace CompactionQueue

variable (s : CompactionQueue)

/-- The follow-up that the worker is submitting. -/
def followUps : List Submission :=
  s.running.toList.flatMap fun run => run.stage.submissions

/-- The target of the run in progress. -/
def inProgress : List Nat :=
  s.running.toList.flatMap fun run =>
    if run.stage.isOpen then [run.job.targetEnd] else []

/-- The targets of the jobs that were not handed to the pool, or did not start. -/
def toStart : List Nat :=
  (s.submissions ++ s.followUps).flatMap Submission.unstarted ++
    s.compactPool.map CompactionJob.targetEnd

/-- The targets of the runs whose last critical section is still to come. -/
def toFinish : List Nat :=
  s.toStart ++ s.inProgress

/-- The published targets of the runs whose last critical section is to come. -/
def published : List Nat :=
  (s.submissions ++ s.followUps).flatMap Submission.published ++
    s.compactPool.map CompactionJob.targetEnd ++ s.inProgress

/-- `Future.done` -/
def isDone (future : Nat) : Bool :=
  !(s.compactPool.any (·.future == future) ||
    s.running.any (·.job.future == future))

/-- There is a pending run, and its future is not done. -/
def isPending : Bool :=
  s.pendingCompact.any fun future => !s.isDone future

end CompactionQueue

/-! ## Requests -/

/-- `_compaction_priority_rank` -/
def compactionPriorityRank : CompactionPriority → Nat
  | .hard => 2
  | .soft | .takeover => 1

/-- `int(request.get("target_end", -1) or -1)` -/
def CompactionRequest.targetOrUnset (request : CompactionRequest) : Int :=
  if request.targetEnd = 0 then -1 else request.targetEnd

/-- `_should_replace_compaction_request` -/
def shouldReplaceCompactionRequest (existing : Option CompactionRequest)
    (request : CompactionRequest) : Bool :=
  match existing with
  | none => true
  | some existing =>
      if (request.targetEnd : Int) > existing.targetOrUnset then true
      else if (request.targetEnd : Int) < existing.targetOrUnset then false
      else compactionPriorityRank request.priority >
        compactionPriorityRank existing.priority

namespace RequestLog

variable (log : RequestLog)

/-- A run starts: it serves the requests up to its target. -/
def serve (targetEnd : Nat) : RequestLog where
  submitted := log.submitted.filter (targetEnd < ·)
  waiting := log.waiting.filter (targetEnd < ·)
  joined := log.joined.filter (targetEnd < ·)

/-- The waiting requests are taken along by the follow-up. -/
def followUp : RequestLog :=
  { log with submitted := log.submitted ++ log.waiting, waiting := [] }

/-- The waiting requests are discarded at a watermark. -/
def discard (watermark : Nat) : RequestLog :=
  { log with waiting := log.waiting.filter (watermark < ·) }

end RequestLog

namespace CompactionQueue

variable (s : CompactionQueue)

/-- A call of `_submit_compaction_request` begins. -/
def beginSubmission (targetEnd : Nat) : CompactionQueue :=
  { s with
    submissions := s.submissions ++ [{ targetEnd }]
    log.submitted := s.log.submitted ++ [targetEnd] }

/-- The request is coalesced with the active run. -/
def coalesce (targetEnd : Nat) : CompactionQueue :=
  if targetEnd ≤ s.compactedPrefixMessages then s
  else if s.toStart.any (targetEnd ≤ ·) then
    { s with log.submitted := s.log.submitted ++ [targetEnd] }
  else if s.queuedCompactionRequest.any (targetEnd ≤ ·.targetEnd) then
    { s with log.waiting := s.log.waiting ++ [targetEnd] }
  else
    { s with log.joined := s.log.joined ++ [targetEnd] }

/-- `_queue_compaction`, to the end of its critical section -/
def queueCompaction (request : CompactionRequest) : CompactionQueue :=
  if s.isPending then
    if (request.targetEnd : Int) ≤ s.activeCompactionTargetEnd then
      s.coalesce request.targetEnd
    else if shouldReplaceCompactionRequest s.queuedCompactionRequest request then
      { s with
        queuedCompactionRequest := some request
        log.waiting := s.log.waiting ++ [request.targetEnd] }
    else
      { s with log.waiting := s.log.waiting ++ [request.targetEnd] }
  else
    s.beginSubmission request.targetEnd

/-! ## Steps -/

/-- `_submit_compaction_request`: its next step, and what is left of the call. -/
def submit (submission : Submission) : CompactionQueue × List Submission :=
  match submission.stage with
  | .publish =>
      ({ s with activeCompactionTargetEnd := submission.targetEnd },
        [{ submission with stage := .submit }])
  | .submit =>
      ({ s with
          compactPool := s.compactPool ++ [⟨s.futures, submission.targetEnd⟩]
          futures := s.futures + 1 },
        [{ submission with stage := .assign s.futures }])
  | .assign future =>
      ({ s with pendingCompact := some future }, [])

/-- The state after the last critical section, up to what comes next. -/
def release (job : CompactionJob) (stage : RunStage) (log : RequestLog) :
    CompactionQueue :=
  { s with
    lastCompletedCompactionTargetEnd :=
      max s.lastCompletedCompactionTargetEnd job.targetEnd
    activeCompactionTargetEnd := -1
    queuedCompactionRequest := none
    running := some ⟨job, stage⟩
    log := log }

/-- The last critical section of `_run_compact_wrapper`. -/
def finish (job : CompactionJob) : CompactionQueue :=
  match s.queuedCompactionRequest with
  | none => s.release job .returning s.log
  | some queued =>
      if queued.targetOrUnset > s.compactedPrefixMessages then
        s.release job (.followUp { targetEnd := queued.targetEnd }) s.log.followUp
      else
        s.release job .returning (s.log.discard s.compactedPrefixMessages)

/-- The steps of the requesters and of the worker. -/
inductive Step where
  /-- `_queue_compaction` -/
  | queue (request : CompactionRequest)
  /-- `_submit_compaction_request` by `handle_prepare_payload` -/
  | takeover (targetEnd : Nat)
  /-- The next step of one of the calls of `_submit_compaction_request`. -/
  | submit (call : Nat)
  /-- The worker takes the next job. -/
  | start
  /-- `_run_compact` ends, and leaves a watermark. -/
  | compact (watermark : Nat)
  | finish
  /-- The next step of the submission of the follow-up. -/
  | followUp
  /-- The future of the run is done. -/
  | return
  deriving DecidableEq, Repr

/-- The state after a step, if the step can be made. -/
def step : Step → Option CompactionQueue
  | .queue request => some (s.queueCompaction request)
  | .takeover targetEnd => some (s.beginSubmission targetEnd)
  | .submit call =>
      s.submissions[call]?.map fun submission =>
        let (next, rest) := s.submit submission
        { next with
          submissions :=
            s.submissions.take call ++ rest ++ s.submissions.drop (call + 1) }
  | .start =>
      match s.running, s.compactPool with
      | none, job :: pool =>
          some { s with
            compactPool := pool
            running := some ⟨job, .compacting⟩
            log := s.log.serve job.targetEnd }
      | _, _ => none
  | .compact watermark =>
      match s.running with
      | some ⟨job, .compacting⟩ =>
          some { s with
            compactedPrefixMessages := watermark
            running := some ⟨job, .compacted⟩ }
      | _ => none
  | .finish =>
      match s.running with
      | some ⟨job, .compacted⟩ => some (s.finish job)
      | _ => none
  | .followUp =>
      match s.running with
      | some ⟨job, .followUp submission⟩ =>
          let (next, rest) := s.submit submission
          some { next with
            running := some ⟨job, (rest.head?.map .followUp).getD .returning⟩ }
      | _ => none
  | .return =>
      match s.running with
      | some ⟨_, .returning⟩ => some { s with running := none }
      | _ => none

/-! ## What a step can do -/

variable {s} {s' : CompactionQueue}

/-- The state after a step of a submission, and what is left of the call. -/
def afterSubmit (s : CompactionQueue) (submission : Submission)
    (before after : List Submission) : CompactionQueue :=
  { (s.submit submission).1 with
    submissions := before ++ (s.submit submission).2 ++ after }

theorem step_submit {call : Nat} (h : s.step (.submit call) = some s') :
    ∃ before submission after, s.submissions = before ++ submission :: after ∧
      s.submissions[call]? = some submission ∧
        s' = s.afterSubmit submission before after := by
  simp only [step, Option.map_eq_some_iff] at h
  obtain ⟨submission, hcall, h⟩ := h
  obtain ⟨hlt, hget⟩ := List.getElem?_eq_some_iff.1 hcall
  refine ⟨s.submissions.take call, submission, s.submissions.drop (call + 1),
    ?_, hcall, h.symm⟩
  rw [← hget, List.getElem_cons_drop, List.take_append_drop]

theorem step_start (h : s.step .start = some s') :
    ∃ job pool, s.running = none ∧ s.compactPool = job :: pool ∧
      s' = { s with
        compactPool := pool
        running := some ⟨job, .compacting⟩
        log := s.log.serve job.targetEnd } := by
  simp only [step] at h
  split at h
  next job pool hrunning hpool => exact ⟨job, pool, hrunning, hpool, by simpa using h.symm⟩
  next => cases h

theorem step_compact {watermark : Nat} (h : s.step (.compact watermark) = some s') :
    ∃ job, s.running = some ⟨job, .compacting⟩ ∧
      s' = { s with
        compactedPrefixMessages := watermark
        running := some ⟨job, .compacted⟩ } := by
  simp only [step] at h
  split at h
  next job hrunning => exact ⟨job, hrunning, by simpa using h.symm⟩
  next => cases h

theorem step_finish (h : s.step .finish = some s') :
    ∃ job, s.running = some ⟨job, .compacted⟩ ∧ s' = s.finish job := by
  simp only [step] at h
  split at h
  next job hrunning => exact ⟨job, hrunning, by simpa using h.symm⟩
  next => cases h

theorem finish_cases (s : CompactionQueue) (job : CompactionJob) :
    (s.queuedCompactionRequest = none ∧
      s.finish job = s.release job .returning s.log) ∨
    (∃ queued, s.queuedCompactionRequest = some queued ∧
      s.finish job =
        s.release job (.followUp { targetEnd := queued.targetEnd }) s.log.followUp) ∨
    (∃ queued, s.queuedCompactionRequest = some queued ∧
      queued.targetEnd ≤ s.compactedPrefixMessages ∧
        s.finish job =
          s.release job .returning (s.log.discard s.compactedPrefixMessages)) := by
  unfold finish
  cases s.queuedCompactionRequest with
  | none => exact .inl ⟨rfl, rfl⟩
  | some queued =>
      dsimp only
      by_cases hfollow : queued.targetOrUnset > s.compactedPrefixMessages
      · rw [if_pos hfollow]
        exact .inr (.inl ⟨queued, rfl, rfl⟩)
      · rw [if_neg hfollow]
        refine .inr (.inr ⟨queued, rfl, ?_, rfl⟩)
        unfold CompactionRequest.targetOrUnset at hfollow
        split at hfollow <;> omega

theorem step_followUp (h : s.step .followUp = some s') :
    ∃ job submission, s.running = some ⟨job, .followUp submission⟩ ∧
      s' = { (s.submit submission).1 with
        running := some
          ⟨job, ((s.submit submission).2.head?.map .followUp).getD .returning⟩ } := by
  simp only [step] at h
  split at h
  next job submission hrunning =>
    exact ⟨job, submission, hrunning, by simpa using h.symm⟩
  next => cases h

theorem step_return (h : s.step .return = some s') :
    ∃ job, s.running = some ⟨job, .returning⟩ ∧ s' = { s with running := none } := by
  simp only [step] at h
  split at h
  next job hrunning => exact ⟨job, hrunning, by simpa using h.symm⟩
  next => cases h

/-- The step is not a new request. -/
def Step.isInternal : Step → Bool
  | .queue _ | .takeover _ => false
  | _ => true

end CompactionQueue

end VirtualContext
