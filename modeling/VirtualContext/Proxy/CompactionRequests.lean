import Mathlib.Algebra.GroupWithZero.Nat
import Mathlib.Tactic.ByContra
import Mathlib.Tactic.SplitIfs
import VirtualContext.Proxy.CompactionQueue

/-!
# Every compaction request is served

A request that waits behind a run whose last critical section is over is read by
no one: the future of the run is not done yet, so the request is queued, and
nothing submits it.
-/

namespace VirtualContext

open VirtualContext.Library

namespace CompactionQueue

variable {s s' : CompactionQueue}

/-! ## The property and its conditions -/

/-- A `ProxyState` as it is created, with the watermark that was stored. -/
def Start (s : CompactionQueue) : Prop :=
  ∃ watermark, s = { compactedPrefixMessages := watermark }

/-- A step of the worker, or of a submission that was begun. -/
def Internal : CompactionQueue → CompactionQueue → Prop :=
  StepWhere step fun _ step => step.isInternal = true

/--
Every request is followed by the start of a run with its target, or discarded
when the watermark has reached it.
-/
def RequestsServed (s : CompactionQueue) : Prop :=
  Eventually Internal (fun s => s.log = {}) s

/-- The same, of the requests that were not coalesced with a started run. -/
def UnstartedServed (s : CompactionQueue) : Prop :=
  Eventually Internal (fun s => s.log.submitted = [] ∧ s.log.waiting = []) s

/-- The active target is the target of the run in progress. -/
def ActiveMatches (s : CompactionQueue) : Prop :=
  ∀ t ∈ s.inProgress, s.activeCompactionTargetEnd = t

/-- A request is queued only if some run is still to read the queued request. -/
def QueuesBeforeFinish (s : CompactionQueue) : Step → Prop
  | .queue request =>
      s.isPending = true → ¬ (request.targetEnd : Int) ≤ s.activeCompactionTargetEnd →
        shouldReplaceCompactionRequest s.queuedCompactionRequest request = true →
          s.toFinish ≠ []
  | _ => True

/--
A request is coalesced only if a run with its target is still to start or the
queued request has its target, or if the watermark has reached it.
-/
def JoinsBeforeStart (s : CompactionQueue) : Step → Prop
  | .queue request =>
      s.isPending = true → (request.targetEnd : Int) ≤ s.activeCompactionTargetEnd →
        request.targetEnd ≤ s.compactedPrefixMessages ∨
          (∃ t ∈ s.toStart, request.targetEnd ≤ t) ∨
          ∃ queued, s.queuedCompactionRequest = some queued ∧
            request.targetEnd ≤ queued.targetEnd
  | _ => True

/-- A target is published only if no published run is still to be finished. -/
def PublishesAlone (s : CompactionQueue) : Step → Prop
  | .submit call =>
      ∀ submission ∈ s.submissions[call]?, submission.stage = .publish → s.published = []
  | .followUp =>
      ∀ submission ∈ s.followUps, submission.stage = .publish → s.published = []
  | _ => True

instance : ∀ step, Decidable (QueuesBeforeFinish s step)
  | .queue _ => inferInstanceAs (Decidable (_ → _))
  | .takeover _ | .submit _ | .start | .compact _ | .finish | .followUp | .return =>
      isTrue trivial

instance : ∀ step, Decidable (JoinsBeforeStart s step)
  | .queue request =>
      have : Decidable (∃ queued, s.queuedCompactionRequest = some queued ∧
          request.targetEnd ≤ queued.targetEnd) :=
        decidable_of_iff (s.queuedCompactionRequest.any (request.targetEnd ≤ ·.targetEnd))
          (by simp [Option.any_eq_true])
      inferInstanceAs (Decidable (_ → _))
  | .takeover _ | .submit _ | .start | .compact _ | .finish | .followUp | .return =>
      isTrue trivial

instance : ∀ step, Decidable (PublishesAlone s step)
  | .submit _ => inferInstanceAs (Decidable (∀ _ ∈ _, _))
  | .followUp => inferInstanceAs (Decidable (∀ _ ∈ _, _))
  | .queue _ | .takeover _ | .start | .compact _ | .finish | .return => isTrue trivial

/-! ## The runs that are to come -/

theorem toStart_afterSubmit {submission : Submission} {before after : List Submission}
    (h : s.submissions = before ++ submission :: after) :
    (s.afterSubmit submission before after).toStart.Perm s.toStart := by
  obtain ⟨targetEnd, stage⟩ := submission
  rw [List.perm_iff_count]
  intro t
  cases stage <;>
    simp [toStart, followUps, h, afterSubmit, submit, Submission.unstarted,
      List.count_cons] <;> omega

/-- The queued request and the log are not touched by a submission. -/
theorem submit_fields (s : CompactionQueue) (submission : Submission) :
    (s.submit submission).1.log = s.log ∧
      (s.submit submission).1.queuedCompactionRequest = s.queuedCompactionRequest := by
  obtain ⟨targetEnd, stage⟩ := submission
  cases stage <;> exact ⟨rfl, rfl⟩

theorem inProgress_afterSubmit {submission : Submission} {before after : List Submission} :
    (s.afterSubmit submission before after).inProgress = s.inProgress := by
  obtain ⟨targetEnd, stage⟩ := submission
  cases stage <;> rfl

theorem toStart_followUp {submission : Submission} {job : CompactionJob}
    (h : s.running = some ⟨job, .followUp submission⟩)
    (hs' : s' = { (s.submit submission).1 with
      running := some
        ⟨job, ((s.submit submission).2.head?.map .followUp).getD .returning⟩ }) :
    s'.toStart.Perm s.toStart := by
  obtain ⟨targetEnd, stage⟩ := submission
  subst hs'
  rw [List.perm_iff_count]
  intro t
  cases stage <;>
    simp [toStart, followUps, h, submit, Submission.unstarted, RunStage.submissions,
      List.count_cons]

theorem inProgress_followUp {submission : Submission} {job : CompactionJob}
    (h : s.running = some ⟨job, .followUp submission⟩)
    (hs' : s' = { (s.submit submission).1 with
      running := some
        ⟨job, ((s.submit submission).2.head?.map .followUp).getD .returning⟩ }) :
    s'.inProgress = s.inProgress := by
  obtain ⟨targetEnd, stage⟩ := submission
  subst hs'
  cases stage <;> simp [inProgress, h, submit, RunStage.isOpen]

/-! ## The invariant -/

structure QueueInvariant (s : CompactionQueue) : Prop where
  submitted : ∀ t ∈ s.log.submitted, ∃ target ∈ s.toStart, t ≤ target
  waiting : ∀ t ∈ s.log.waiting, ∃ queued,
    s.queuedCompactionRequest = some queued ∧ t ≤ queued.targetEnd
  awaited : s.queuedCompactionRequest ≠ none → s.toFinish ≠ []

theorem queueInvariant_start (h : Start s) : QueueInvariant s := by
  obtain ⟨watermark, rfl⟩ := h
  exact ⟨by simp, by simp, by simp⟩

namespace QueueInvariant

/-- The requests are as before, and so are the runs that are to come. -/
theorem of_runs (h : QueueInvariant s) (hlog : s'.log = s.log)
    (hqueued : s'.queuedCompactionRequest = s.queuedCompactionRequest)
    (hstart : ∀ t ∈ s.toStart, t ∈ s'.toStart)
    (hfinish : s.toFinish ≠ [] → s'.toFinish ≠ []) : QueueInvariant s' where
  submitted t ht := by
    rw [hlog] at ht
    obtain ⟨target, htarget, hle⟩ := h.submitted t ht
    exact ⟨target, hstart target htarget, hle⟩
  waiting t ht := by
    rw [hlog] at ht
    rw [hqueued]
    exact h.waiting t ht
  awaited hne := hfinish (h.awaited (hqueued ▸ hne))

/-- The runs that are to come are the same up to their order. -/
theorem of_perm (h : QueueInvariant s) (hlog : s'.log = s.log)
    (hqueued : s'.queuedCompactionRequest = s.queuedCompactionRequest)
    (hstart : s'.toStart.Perm s.toStart) (hprogress : s'.inProgress = s.inProgress) :
    QueueInvariant s' := by
  refine h.of_runs hlog hqueued (fun t ht => hstart.mem_iff.2 ht) fun hne hnil => hne ?_
  have hperm : s'.toFinish.Perm s.toFinish := by
    rw [toFinish, toFinish, hprogress]
    exact hstart.append_right _
  exact List.perm_nil.1 (hnil ▸ hperm.symm)

theorem beginSubmission (h : QueueInvariant s) (targetEnd : Nat) :
    QueueInvariant (s.beginSubmission targetEnd) where
  submitted t ht := by
    have hstart : ∀ target ∈ s.toStart, target ∈ (s.beginSubmission targetEnd).toStart := by
      simp only [toStart, CompactionQueue.beginSubmission, followUps, List.mem_append,
        List.flatMap_append]
      grind
    rcases List.mem_append.1 ht with ht | ht
    · obtain ⟨target, htarget, hle⟩ := h.submitted t ht
      exact ⟨target, hstart target htarget, hle⟩
    · refine ⟨targetEnd, ?_, by simp_all⟩
      simp [toStart, CompactionQueue.beginSubmission, Submission.unstarted]
  waiting := h.waiting
  awaited _ := by
    simp [toFinish, toStart, CompactionQueue.beginSubmission, Submission.unstarted]

theorem coalesce (h : QueueInvariant s) (targetEnd : Nat) :
    QueueInvariant (s.coalesce targetEnd) := by
  unfold CompactionQueue.coalesce
  split_ifs with hwatermark hstart hqueued
  · exact h
  · refine ⟨fun t ht => ?_, h.waiting, h.awaited⟩
    rcases List.mem_append.1 ht with ht | ht
    · exact h.submitted t ht
    · obtain rfl : t = targetEnd := by simpa using ht
      obtain ⟨target, htarget, hle⟩ := List.any_eq_true.1 hstart
      exact ⟨target, htarget, of_decide_eq_true hle⟩
  · refine ⟨h.submitted, fun t ht => ?_, h.awaited⟩
    rcases List.mem_append.1 ht with ht | ht
    · exact h.waiting t ht
    · obtain rfl : t = targetEnd := by simpa using ht
      simpa [Option.any_eq_true] using hqueued
  · exact ⟨h.submitted, h.waiting, h.awaited⟩

/-- The queued request covers a request that is dropped. -/
theorem covered_of_not_replaced {existing : Option CompactionRequest}
    {request : CompactionRequest}
    (h : ¬ shouldReplaceCompactionRequest existing request = true) :
    ∃ queued, existing = some queued ∧ request.targetEnd ≤ queued.targetEnd := by
  cases existing with
  | none => simp [shouldReplaceCompactionRequest] at h
  | some queued =>
      refine ⟨queued, rfl, ?_⟩
      by_contra hlt
      refine h (if_pos ?_)
      unfold CompactionRequest.targetOrUnset
      split_ifs <;> omega

theorem le_of_replaced {queued request : CompactionRequest}
    (h : shouldReplaceCompactionRequest (some queued) request = true) :
    queued.targetEnd ≤ request.targetEnd := by
  by_contra hlt
  have htarget : queued.targetOrUnset = queued.targetEnd := by
    unfold CompactionRequest.targetOrUnset
    rw [if_neg (by omega)]
  have hless : (request.targetEnd : Int) < queued.targetEnd := by omega
  have hnot : ¬ (request.targetEnd : Int) > queued.targetEnd := by omega
  simp [shouldReplaceCompactionRequest, htarget, hless, hnot] at h

theorem queueCompaction (h : QueueInvariant s) {request : CompactionRequest}
    (hqueue : QueuesBeforeFinish s (.queue request)) :
    QueueInvariant (s.queueCompaction request) := by
  unfold CompactionQueue.queueCompaction
  split_ifs with hpending hactive hreplace
  · exact h.coalesce _
  · refine ⟨h.submitted, fun t ht => ⟨request, rfl, ?_⟩, fun _ => ?_⟩
    · rcases List.mem_append.1 ht with ht | ht
      · obtain ⟨queued, hqueued, hle⟩ := h.waiting t ht
        exact Nat.le_trans hle (le_of_replaced (hqueued ▸ hreplace))
      · simp_all
    · exact hqueue hpending hactive hreplace
  · refine ⟨h.submitted, fun t ht => ?_, h.awaited⟩
    rcases List.mem_append.1 ht with ht | ht
    · exact h.waiting t ht
    · obtain rfl : t = request.targetEnd := by simpa using ht
      exact covered_of_not_replaced hreplace
  · exact h.beginSubmission _

theorem finish (h : QueueInvariant s) {job : CompactionJob}
    (hrunning : s.running = some ⟨job, .compacted⟩) :
    QueueInvariant (s.finish job) := by
  have hstart : ∀ stage log, ∀ t ∈ s.toStart, t ∈ (s.release job stage log).toStart := by
    intro stage log t ht
    simp only [toStart, followUps, release, hrunning, List.mem_append,
      List.flatMap_append] at ht ⊢
    rcases ht with (ht | ht) | ht
    · exact .inl (.inl ht)
    · simp [RunStage.submissions] at ht
    · exact .inr ht
  have hsubmitted : ∀ stage log, ∀ t ∈ s.log.submitted,
      ∃ target ∈ (s.release job stage log).toStart, t ≤ target := by
    intro stage log t ht
    obtain ⟨target, htarget, hle⟩ := h.submitted t ht
    exact ⟨target, hstart stage log target htarget, hle⟩
  rcases s.finish_cases job with ⟨hnone, heq⟩ | ⟨queued, hqueued, heq⟩ |
    ⟨queued, hqueued, hreached, heq⟩
  · rw [heq]
    refine ⟨hsubmitted _ _, fun t ht => ?_, fun hne => absurd rfl hne⟩
    obtain ⟨queued, hqueued, -⟩ := h.waiting t ht
    rw [hnone] at hqueued
    cases hqueued
  · rw [heq]
    refine ⟨fun t ht => ?_, fun t ht => (by cases ht), fun hne => absurd rfl hne⟩
    rcases List.mem_append.1 ht with ht | ht
    · exact hsubmitted _ _ t ht
    · obtain ⟨queued', hqueued', hle⟩ := h.waiting t ht
      obtain rfl : queued = queued' := by simpa [hqueued] using hqueued'
      refine ⟨queued.targetEnd, ?_, hle⟩
      simp [toStart, followUps, release, RunStage.submissions, Submission.unstarted]
  · rw [heq]
    refine ⟨hsubmitted _ _, fun t ht => ?_, fun hne => absurd rfl hne⟩
    -- what waited was covered by the queued request, which the watermark reached
    obtain ⟨ht, hlt⟩ := List.mem_filter.1 ht
    obtain ⟨queued', hqueued', hle⟩ := h.waiting t ht
    obtain rfl : queued = queued' := by simpa [hqueued] using hqueued'
    simp at hlt
    omega

theorem start (h : QueueInvariant s) (hstep : s.step .start = some s') :
    QueueInvariant s' := by
  obtain ⟨job, pool, hrunning, hpool, rfl⟩ := step_start hstep
  refine ⟨fun t ht => ?_, fun t ht => ?_, fun _ => ?_⟩
  · obtain ⟨ht, hlt⟩ := List.mem_filter.1 ht
    obtain ⟨target, htarget, hle⟩ := h.submitted t ht
    refine ⟨target, ?_, hle⟩
    have hne : target ≠ job.targetEnd := by
      simp at hlt
      omega
    simpa [toStart, followUps, hrunning, hpool, RunStage.submissions, hne]
      using htarget
  · exact h.waiting t (List.mem_filter.1 ht).1
  · simp [toFinish, inProgress, RunStage.isOpen]

theorem step (h : QueueInvariant s) {step : Step} (hqueue : QueuesBeforeFinish s step)
    (hstep : s.step step = some s') : QueueInvariant s' := by
  cases step with
  | queue request =>
      obtain rfl := Option.some.inj hstep
      exact h.queueCompaction hqueue
  | takeover targetEnd =>
      obtain rfl := Option.some.inj hstep
      exact h.beginSubmission targetEnd
  | submit call =>
      obtain ⟨before, submission, after, hsubmissions, -, rfl⟩ := step_submit hstep
      have hfields := s.submit_fields submission
      exact h.of_perm hfields.1 hfields.2 (toStart_afterSubmit hsubmissions)
        inProgress_afterSubmit
  | start => exact h.start hstep
  | compact watermark =>
      obtain ⟨job, hrunning, rfl⟩ := step_compact hstep
      refine h.of_perm rfl rfl (.of_eq ?_) ?_
      · simp [toStart, followUps, hrunning, RunStage.submissions]
      · simp [inProgress, hrunning, RunStage.isOpen]
  | finish =>
      obtain ⟨job, hrunning, rfl⟩ := step_finish hstep
      exact h.finish hrunning
  | followUp =>
      obtain ⟨job, submission, hrunning, rfl⟩ := step_followUp hstep
      have hfields := s.submit_fields submission
      refine h.of_perm hfields.1 hfields.2 (toStart_followUp hrunning rfl)
        (inProgress_followUp hrunning rfl)
  | «return» =>
      obtain ⟨job, hrunning, rfl⟩ := step_return hstep
      refine h.of_perm rfl rfl (.of_eq ?_) ?_
      · simp [toStart, followUps, hrunning, RunStage.submissions]
      · simp [inProgress, hrunning, RunStage.isOpen]

end QueueInvariant

/-! ## The queue comes to rest -/

/-- A bound of the steps that are made if there are no new requests. -/
def stepsLeft (s : CompactionQueue) : Nat :=
  (s.submissions.map Submission.stepsLeft).sum + 4 * s.compactPool.length +
    (s.running.toList.map fun run => run.stage.stepsLeft).sum +
    7 * s.queuedCompactionRequest.toList.length

theorem stepsLeft_lt (h : Internal s s') : s'.stepsLeft < s.stepsLeft := by
  obtain ⟨step, hinternal, hstep⟩ := h
  cases step with
  | queue request => cases hinternal
  | takeover targetEnd => cases hinternal
  | submit call =>
      obtain ⟨before, ⟨targetEnd, stage⟩, after, hsubmissions, -, rfl⟩ :=
        step_submit hstep
      cases stage <;>
        simp [stepsLeft, afterSubmit, CompactionQueue.submit, hsubmissions,
          Submission.stepsLeft] <;> omega
  | start =>
      obtain ⟨job, pool, hrunning, hpool, rfl⟩ := step_start hstep
      simp [stepsLeft, hrunning, hpool, RunStage.stepsLeft]
      omega
  | compact watermark =>
      obtain ⟨job, hrunning, rfl⟩ := step_compact hstep
      simp [stepsLeft, hrunning, RunStage.stepsLeft]
  | finish =>
      obtain ⟨job, hrunning, rfl⟩ := step_finish hstep
      rcases s.finish_cases job with ⟨hqueued, heq⟩ | ⟨queued, hqueued, heq⟩ |
        ⟨queued, hqueued, -, heq⟩
      all_goals
        simp [heq, stepsLeft, release, hrunning, hqueued, RunStage.stepsLeft,
          Submission.stepsLeft]
  | followUp =>
      obtain ⟨job, ⟨targetEnd, stage⟩, hrunning, rfl⟩ := step_followUp hstep
      cases stage <;>
        simp [stepsLeft, CompactionQueue.submit, hrunning, RunStage.stepsLeft,
          Submission.stepsLeft] <;> omega
  | «return» =>
      obtain ⟨job, hrunning, rfl⟩ := step_return hstep
      simp [stepsLeft, hrunning, RunStage.stepsLeft]

/-- Where no step is left nothing is under way. -/
theorem rest_of_no_step (h : ¬ ∃ s', Internal s s') :
    s.submissions = [] ∧ s.running = none ∧ s.compactPool = [] := by
  have hnone : ∀ step : Step, step.isInternal = true → s.step step = none := by
    intro step hinternal
    cases hstep : s.step step with
    | none => rfl
    | some s' => exact absurd ⟨s', step, hinternal, hstep⟩ h
  have hsubmissions : s.submissions = [] := by
    have := hnone (.submit 0) rfl
    cases hsubmissions : s.submissions with
    | nil => rfl
    | cons submission rest => simp [step, hsubmissions] at this
  have hrunning : s.running = none := by
    cases hrunning : s.running with
    | none => rfl
    | some run =>
        obtain ⟨job, stage⟩ := run
        cases stage with
        | compacting =>
            have := hnone (.compact 0) rfl
            simp [step, hrunning] at this
        | compacted =>
            have := hnone .finish rfl
            simp [step, hrunning] at this
        | followUp submission =>
            have := hnone .followUp rfl
            simp [step, hrunning] at this
        | returning =>
            have := hnone .return rfl
            simp [step, hrunning] at this
  refine ⟨hsubmissions, hrunning, ?_⟩
  have := hnone .start rfl
  cases hpool : s.compactPool with
  | nil => rfl
  | cons job pool => simp [step, hrunning, hpool] at this

/-- At rest every request was served. -/
theorem QueueInvariant.served_of_rest (h : QueueInvariant s)
    (hrest : ¬ ∃ s', Internal s s') :
    s.log.submitted = [] ∧ s.log.waiting = [] := by
  obtain ⟨hsubmissions, hrunning, hpool⟩ := rest_of_no_step hrest
  have hstart : s.toStart = [] := by
    simp [toStart, followUps, hsubmissions, hrunning, hpool]
  have hfinish : s.toFinish = [] := by
    simp [toFinish, inProgress, hstart, hrunning]
  refine ⟨?_, ?_⟩
  · refine List.eq_nil_iff_forall_not_mem.2 fun t ht => ?_
    obtain ⟨target, htarget, -⟩ := h.submitted t ht
    simp [hstart] at htarget
  · refine List.eq_nil_iff_forall_not_mem.2 fun t ht => ?_
    obtain ⟨queued, hqueued, -⟩ := h.waiting t ht
    exact h.awaited (by simp [hqueued]) hfinish

/-- An internal step is no request, so it meets every condition on requests. -/
theorem Internal.queuesBeforeFinish {step : Step} (h : step.isInternal = true) :
    QueuesBeforeFinish s step ∧ JoinsBeforeStart s step := by
  cases step with
  | queue request => cases h
  | _ => exact ⟨trivial, trivial⟩

theorem QueueInvariant.unstartedServed (h : QueueInvariant s) : UnstartedServed s :=
  Eventually.of_measure (I := QueueInvariant) stepsLeft
    (fun _ _ hs ⟨_, hinternal, hstep⟩ =>
      hs.step (Internal.queuesBeforeFinish hinternal).1 hstep)
    (fun _ _ _ => stepsLeft_lt) (fun _ hs hrest => hs.served_of_rest hrest) h

/-! ## Requests that join a started run -/

theorem joined_step {step : Step} (h : s.log.joined = [])
    (hjoins : JoinsBeforeStart s step) (hstep : s.step step = some s') :
    s'.log.joined = [] := by
  cases step with
  | queue request =>
      obtain rfl := Option.some.inj hstep
      unfold CompactionQueue.queueCompaction
      split_ifs with hpending hactive hreplace
      · unfold CompactionQueue.coalesce
        split_ifs with hwatermark hstart hqueued
        · exact h
        · exact h
        · exact h
        · rcases hjoins hpending hactive with hle | ⟨t, ht, hle⟩ | ⟨queued, heq, hle⟩
          · exact absurd hle hwatermark
          · exact absurd (List.any_eq_true.2 ⟨t, ht, decide_eq_true hle⟩) hstart
          · exact absurd (by simpa [heq] using hle) hqueued
      · exact h
      · exact h
      · exact h
  | takeover targetEnd =>
      obtain rfl := Option.some.inj hstep
      exact h
  | submit call =>
      obtain ⟨before, submission, after, -, -, rfl⟩ := step_submit hstep
      exact (congrArg RequestLog.joined (s.submit_fields submission).1).trans h
  | start =>
      obtain ⟨job, pool, -, -, rfl⟩ := step_start hstep
      simp [RequestLog.serve, h]
  | compact watermark =>
      obtain ⟨job, -, rfl⟩ := step_compact hstep
      exact h
  | finish =>
      obtain ⟨job, -, rfl⟩ := step_finish hstep
      rcases s.finish_cases job with ⟨-, heq⟩ | ⟨queued, -, heq⟩ | ⟨queued, -, -, heq⟩
      all_goals
        rw [heq]
        exact h
  | followUp =>
      obtain ⟨job, submission, -, rfl⟩ := step_followUp hstep
      exact (congrArg RequestLog.joined (s.submit_fields submission).1).trans h
  | «return» =>
      obtain ⟨job, -, rfl⟩ := step_return hstep
      exact h

/-! ## The active target -/

/-- At most one target is published, and it is the active one. -/
def PublishInvariant (s : CompactionQueue) : Prop :=
  s.published = [] ∨ ∃ t, s.published = [t] ∧ s.activeCompactionTargetEnd = t


theorem PublishInvariant.of_perm (h : PublishInvariant s)
    (hpublished : s'.published.Perm s.published)
    (hactive : s'.activeCompactionTargetEnd = s.activeCompactionTargetEnd) :
    PublishInvariant s' := by
  rcases h with h | ⟨t, h, ht⟩
  · exact .inl (List.perm_nil.1 (h ▸ hpublished))
  · exact .inr ⟨t, List.perm_singleton.1 (h ▸ hpublished), hactive.trans ht⟩

theorem published_afterSubmit {submission : Submission} {before after : List Submission}
    (h : s.submissions = before ++ submission :: after)
    (hstage : submission.stage ≠ .publish) :
    (s.afterSubmit submission before after).published.Perm s.published ∧
      (s.afterSubmit submission before after).activeCompactionTargetEnd =
        s.activeCompactionTargetEnd := by
  obtain ⟨targetEnd, stage⟩ := submission
  cases stage with
  | publish => exact absurd rfl hstage
  | submit =>
      refine ⟨List.perm_iff_count.2 fun t => ?_, rfl⟩
      simp [published, followUps, inProgress, h, afterSubmit, submit,
        Submission.published, List.count_cons]
      omega
  | assign future =>
      refine ⟨List.perm_iff_count.2 fun t => ?_, rfl⟩
      simp [published, followUps, inProgress, h, afterSubmit, submit,
        Submission.published]

theorem published_followUp {submission : Submission} {job : CompactionJob}
    (h : s.running = some ⟨job, .followUp submission⟩)
    (hstage : submission.stage ≠ .publish)
    (hs' : s' = { (s.submit submission).1 with
      running := some
        ⟨job, ((s.submit submission).2.head?.map .followUp).getD .returning⟩ }) :
    s'.published.Perm s.published ∧
      s'.activeCompactionTargetEnd = s.activeCompactionTargetEnd := by
  obtain ⟨targetEnd, stage⟩ := submission
  subst hs'
  cases stage with
  | publish => exact absurd rfl hstage
  | submit =>
      refine ⟨List.perm_iff_count.2 fun t => ?_, rfl⟩
      simp [published, followUps, inProgress, h, submit, Submission.published,
        RunStage.submissions, RunStage.isOpen, List.count_cons]
  | assign future =>
      refine ⟨List.perm_iff_count.2 fun t => ?_, rfl⟩
      simp [published, followUps, inProgress, h, submit, Submission.published,
        RunStage.submissions, RunStage.isOpen]

theorem PublishInvariant.beginSubmission (h : PublishInvariant s) (targetEnd : Nat) :
    PublishInvariant (s.beginSubmission targetEnd) := by
  refine h.of_perm (.of_eq ?_) rfl
  simp [published, followUps, inProgress, CompactionQueue.beginSubmission,
    Submission.published]

/-- No other run is published, so the active target is reset for this one. -/
theorem PublishInvariant.finish (h : PublishInvariant s) {job : CompactionJob}
    (hrunning : s.running = some ⟨job, .compacted⟩) :
    PublishInvariant (s.finish job) := by
  have hpublished : s.published = s.submissions.flatMap Submission.published ++
      s.compactPool.map CompactionJob.targetEnd ++ [job.targetEnd] := by
    simp [published, followUps, inProgress, hrunning, RunStage.isOpen,
      RunStage.submissions]
  have hothers : s.submissions.flatMap Submission.published ++
      s.compactPool.map CompactionJob.targetEnd = [] := by
    rcases h with h | ⟨t, h, -⟩
    · simp [hpublished] at h
    · have hlength := congrArg List.length (hpublished.symm.trans h)
      rw [List.length_append, List.length_singleton] at hlength
      exact List.eq_nil_of_length_eq_zero (Nat.add_right_cancel hlength)
  obtain ⟨hsubmissions, hpool⟩ := List.append_eq_nil_iff.1 hothers
  rcases s.finish_cases job with ⟨-, heq⟩ | ⟨queued, -, heq⟩ | ⟨queued, -, -, heq⟩
  all_goals
    rw [heq]
    refine .inl ?_
    simp [published, followUps, inProgress, release, hsubmissions, hpool,
      RunStage.isOpen, RunStage.submissions, Submission.published]

theorem PublishInvariant.step (h : PublishInvariant s) {step : Step}
    (halone : PublishesAlone s step) (hstep : s.step step = some s') :
    PublishInvariant s' := by
  cases step with
  | queue request =>
      obtain rfl := Option.some.inj hstep
      unfold CompactionQueue.queueCompaction CompactionQueue.coalesce
      split_ifs
      all_goals first
        | exact h.of_perm (.refl _) rfl
        | exact h.beginSubmission _
  | takeover targetEnd =>
      obtain rfl := Option.some.inj hstep
      exact h.beginSubmission targetEnd
  | submit call =>
      obtain ⟨before, submission, after, hsubmissions, hcall, rfl⟩ := step_submit hstep
      by_cases hstage : submission.stage = .publish
      · have hnone := halone submission hcall hstage
        obtain ⟨targetEnd, stage⟩ := submission
        obtain rfl : stage = .publish := hstage
        refine .inr ⟨targetEnd, List.perm_singleton.1 ?_, rfl⟩
        rw [← hnone, List.perm_iff_count]
        intro t
        simp [published, followUps, inProgress, hsubmissions, afterSubmit,
          CompactionQueue.submit, Submission.published, List.count_cons]
        omega
      · have hsame := published_afterSubmit hsubmissions hstage
        exact h.of_perm hsame.1 hsame.2
  | start =>
      obtain ⟨job, pool, hrunning, hpool, rfl⟩ := step_start hstep
      refine h.of_perm (List.perm_iff_count.2 fun t => ?_) rfl
      simp [published, followUps, inProgress, hrunning, hpool, RunStage.isOpen,
        RunStage.submissions, List.count_cons]
  | compact watermark =>
      obtain ⟨job, hrunning, rfl⟩ := step_compact hstep
      refine h.of_perm (.of_eq ?_) rfl
      simp [published, followUps, inProgress, hrunning, RunStage.isOpen,
        RunStage.submissions]
  | finish =>
      obtain ⟨job, hrunning, rfl⟩ := step_finish hstep
      exact h.finish hrunning
  | followUp =>
      obtain ⟨job, submission, hrunning, rfl⟩ := step_followUp hstep
      by_cases hstage : submission.stage = .publish
      · have hnone := halone submission (by simp [followUps, hrunning, RunStage.submissions])
          hstage
        obtain ⟨targetEnd, stage⟩ := submission
        obtain rfl : stage = .publish := hstage
        refine .inr ⟨targetEnd, List.perm_singleton.1 ?_, rfl⟩
        rw [← hnone, List.perm_iff_count]
        intro t
        simp [published, followUps, inProgress, hrunning, RunStage.submissions,
          RunStage.isOpen, CompactionQueue.submit, Submission.published,
          List.count_cons]
        omega
      · have hsame := published_followUp hrunning hstage rfl
        exact h.of_perm hsame.1 hsame.2
  | «return» =>
      obtain ⟨job, hrunning, rfl⟩ := step_return hstep
      refine h.of_perm (.of_eq ?_) rfl
      simp [published, followUps, inProgress, hrunning, RunStage.isOpen,
        RunStage.submissions]

theorem PublishInvariant.activeMatches (h : PublishInvariant s) : ActiveMatches s := by
  intro t ht
  have hpublished : t ∈ s.published := List.mem_append_right _ ht
  rcases h with h | ⟨target, h, hactive⟩
  · simp [h] at hpublished
  · obtain rfl : t = target := by simpa [h] using hpublished
    exact hactive

/-! ## Runs -/

theorem queueInvariant_of_reach
    (reach : Reach Start (StepWhere step QueuesBeforeFinish) s) : QueueInvariant s :=
  reach.invariant (fun _ => queueInvariant_start)
    fun _ _ hs ⟨_, hqueue, hstep⟩ => hs.step hqueue hstep

/--
In runs that queue a request only while some run is still to read it, every
request that was not coalesced with a started run is served.  None is coalesced
so, and all are served, in runs that join a request only to what covers it and
is still to come.  And in runs that publish a target only after the last one was
finished the active target is the target of the run in progress.
-/
theorem requests_served_of_queued_in_time (s : CompactionQueue) :
    (Reach Start (StepWhere step QueuesBeforeFinish) s → UnstartedServed s) ∧
    (Reach Start (StepWhere step fun s step =>
        QueuesBeforeFinish s step ∧ JoinsBeforeStart s step) s → RequestsServed s) ∧
    (Reach Start (StepWhere step PublishesAlone) s → ActiveMatches s) := by
  refine ⟨fun reach => ?_, fun reach => ?_, fun reach => ?_⟩
  · exact (queueInvariant_of_reach reach).unstartedServed
  · have hinvariant : QueueInvariant s ∧ s.log.joined = [] := by
      refine Reach.invariant (I := fun s => QueueInvariant s ∧ s.log.joined = []) reach
        (fun s hs => ⟨queueInvariant_start hs, ?_⟩) ?_
      · obtain ⟨watermark, rfl⟩ := hs
        rfl
      · rintro s s' ⟨hs, hjoined⟩ ⟨step, ⟨hqueue, hjoins⟩, hstep⟩
        exact ⟨hs.step hqueue hstep, joined_step hjoined hjoins hstep⟩
    refine Eventually.of_measure (I := fun s => QueueInvariant s ∧ s.log.joined = [])
      stepsLeft ?_ (fun _ _ _ => stepsLeft_lt) ?_ hinvariant
    · rintro s s' ⟨hs, hjoined⟩ ⟨step, hinternal, hstep⟩
      have hconditions := Internal.queuesBeforeFinish (s := s) hinternal
      exact ⟨hs.step hconditions.1 hstep, joined_step hjoined hconditions.2 hstep⟩
    · rintro s ⟨hs, hjoined⟩ hrest
      obtain ⟨hsubmitted, hwaiting⟩ := hs.served_of_rest hrest
      generalize s.log = log at *
      obtain ⟨submitted, waiting, joined⟩ := log
      simp_all
  · have hinvariant : PublishInvariant s := by
      refine reach.invariant (fun s hs => ?_) fun _ _ hs ⟨_, halone, hstep⟩ =>
        hs.step halone hstep
      obtain ⟨watermark, rfl⟩ := hs
      exact .inl rfl
    exact hinvariant.activeMatches

/-! ## A request that nothing reads -/

/-- A run to 10 is finished; a request for 20 comes before its future is done. -/
def lateRequest : List Step :=
  [.queue ⟨10, .soft⟩, .submit 0, .submit 0, .submit 0, .start, .compact 10,
    .finish, .queue ⟨20, .soft⟩, .return]

/-- The takeover publishes its target while a run to 10 is in progress. -/
def takeoverDuringRun : List Step :=
  [.queue ⟨10, .soft⟩, .submit 0, .submit 0, .submit 0, .start, .takeover 20,
    .submit 0]

theorem request_queued_behind_finished_run :
    ¬ (∀ s, Reach Start (StepWhere step fun _ _ => True) s → RequestsServed s) ∧
      ¬ (∀ s, Reach Start (StepWhere step fun _ _ => True) s → ActiveMatches s) := by
  have hstart : Reach Start (StepWhere step fun _ _ => True)
      { compactedPrefixMessages := 0 } := .start ⟨0, rfl⟩
  refine ⟨fun h => ?_, fun h => ?_⟩
  · have hrun : runSteps step { compactedPrefixMessages := 0 } lateRequest = some {
        pendingCompact := some 0
        queuedCompactionRequest := some ⟨20, .soft⟩
        lastCompletedCompactionTargetEnd := 10
        compactedPrefixMessages := 10
        futures := 1
        log := { waiting := [20] } } := by decide
    cases h _ (Reach.of_run _ hstart (by decide) hrun) with
    | now hlog => exact absurd hlog (by decide)
    | later runs _ =>
        obtain ⟨s', step, hinternal, hstep⟩ := runs
        cases step <;> simp [Step.isInternal, step] at hinternal hstep
  · have hrun : ∃ s, runSteps step { compactedPrefixMessages := 0 }
        takeoverDuringRun = some s ∧ ¬ ActiveMatches s := by
      refine ⟨_, rfl, fun hmatches => ?_⟩
      exact absurd (hmatches 10 (by decide)) (by decide)
    obtain ⟨s, hrun, hnot⟩ := hrun
    exact hnot (h s (Reach.of_run _ hstart (by decide) hrun))

/-- A request for 20 while a run to 10 is in progress. -/
def requestDuringRun : List Step :=
  [.queue ⟨10, .soft⟩, .submit 0, .submit 0, .submit 0, .start, .queue ⟨20, .soft⟩]

theorem requests_served_behind_run :
    ∃ s, runSteps step { compactedPrefixMessages := 0 } requestDuringRun = some s ∧
      s.log.waiting = [20] ∧ UnstartedServed s ∧ RequestsServed s ∧ ActiveMatches s := by
  refine ⟨_, rfl, rfl, ?_, ?_, ?_⟩
  · refine (requests_served_of_queued_in_time _).1
      (Reach.of_run requestDuringRun (.start ⟨0, rfl⟩) ?_ rfl)
    decide
  · refine (requests_served_of_queued_in_time _).2.1
      (Reach.of_run requestDuringRun (.start ⟨0, rfl⟩) ?_ rfl)
    decide
  · refine (requests_served_of_queued_in_time _).2.2
      (Reach.of_run requestDuringRun (.start ⟨0, rfl⟩) ?_ rfl)
    decide

end CompactionQueue

end VirtualContext
