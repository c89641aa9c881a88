/-
# Every interleaving of calls

A run of the system of calls and worker is any number of steps in any order, so that what holds
along every run does so for every interleaving.

A request goes from the queue into work, then to its answer, and each of these three moves
keeps the order.  What came into the queue is therefore, in order, what was answered, what is to
be answered, what is in work and what is in the queue.  That no job is done twice and no answer
goes astray follows from this, since no call puts two requests into the queue.
-/

import BitLang.Proofs.Editor.Service
import Mathlib.Data.List.Induction
import Mathlib.Data.List.Nodup

namespace BitLang.Editor.Service

variable {Call Job α : Type} [DecidableEq Call] {job : Call → Job}

namespace Run

section Any

variable {s t u : Service Call Job α} {events more : List (Event Call Job α)}

theorem append (h : Run job s events t) (hmore : Run job t more u) :
    Run job s (events ++ more) u := by
  induction hmore with
  | start => rwa [List.append_nil]
  | step _ hstep ih =>
      rw [← List.append_assoc]
      exact ih.step hstep

theorem exists_step {e : Event Call Job α} (h : Run job s (events ++ [e]) u) :
    ∃ t, Run job s events t ∧ Step job t e u := by
  generalize hall : events ++ [e] = all at h
  cases h with
  | start => simp at hall
  | @step _ _ t _ hrun hstep =>
      obtain ⟨rfl, heq⟩ := List.append_inj' hall rfl
      cases heq
      exact ⟨t, hrun, hstep⟩

/-- A run goes through a state in the middle. -/
theorem exists_of_append (h : Run job s (events ++ more) u) :
    ∃ t, Run job s events t ∧ Run job t more u := by
  induction more using List.reverseRecOn generalizing u with
  | nil => exact ⟨u, by rwa [List.append_nil] at h, .start⟩
  | append_singleton more e ih =>
      rw [← List.append_assoc] at h
      obtain ⟨last, hrun, hstep⟩ := h.exists_step
      obtain ⟨t, hbefore, hafter⟩ := ih hrun
      exact ⟨t, hbefore, hafter.step hstep⟩

end Any

variable {s : Service Call Job α} {events : List (Event Call Job α)}

/-- What came into the queue has been started, in order, or is in the queue. -/
theorem entered_eq (h : Run job initial events s) : entered events = started events ++ s.queue := by
  induction h with
  | start => rfl
  | step hrun hstep ih =>
      rw [entered_concat, started_concat, ih, List.append_assoc, hstep.queue_eq,
        List.append_assoc]

/-- What was started has ended, in order, or is in work. -/
theorem started_eq (h : Run job initial events s) :
    started events = ended events ++ s.activity.inWork := by
  induction h with
  | start => rfl
  | step hrun hstep ih =>
      rw [started_concat, ended_concat, ih, List.append_assoc, hstep.inWork_eq,
        List.append_assoc]

/-- What has ended was answered, in order, or is to be answered. -/
theorem ended_eq (h : Run job initial events s) :
    ended events = answered events ++ s.activity.toAnswer := by
  induction h with
  | start => rfl
  | step hrun hstep ih =>
      rw [ended_concat, answered_concat, ih, List.append_assoc, hstep.toAnswer_eq,
        List.append_assoc]

theorem stop_mem_iff (h : Run job initial events s) :
    .stop ∈ events ↔ s.worker = .stopped := by
  induction h with
  | start => simp [initial]
  | step hrun hstep ih =>
      rw [List.mem_append, List.mem_singleton, ih, hstep.stopped_iff, eq_comm (a := Event.stop)]

/-- Every request has the job of its call. -/
theorem job_eq_of_mem_entered (h : Run job initial events s) :
    ∀ request ∈ entered events, request.job = job request.call := by
  induction h with
  | start => exact List.forall_mem_nil _
  | step hrun hstep ih =>
      rw [entered_concat, List.forall_mem_append]
      refine ⟨ih, fun request hmem => ?_⟩
      exact (hstep.of_entered? (Option.mem_toList.mp hmem)).1

/-- A call whose request came into the queue may enter no more. -/
theorem mayEnter_eq_false (h : Run job initial events s) :
    ∀ request ∈ entered events, (s.stage request.call).mayEnter = false := by
  induction h with
  | start => exact List.forall_mem_nil _
  | step hrun hstep ih =>
      rw [entered_concat, List.forall_mem_append]
      constructor
      · intro request hmem
        exact (hstep.advances _).mayEnter_eq_false (.inl (ih request hmem))
      · intro request hmem
        exact (hstep.advances _).mayEnter_eq_false
          (.inr ⟨request, Option.mem_toList.mp hmem, rfl⟩)

/-- No call puts two requests into the queue. -/
theorem nodup_entered (h : Run job initial events s) :
    ((entered events).map Request.call).Nodup := by
  induction h with
  | start => exact List.nodup_nil
  | @step events e t u hrun hstep ih =>
      rw [entered_concat, List.map_append]
      cases hentered : e.entered? with
      | none => simpa using ih
      | some request =>
          refine List.Nodup.append ih (List.nodup_singleton _) ?_
          rw [Option.toList_some, List.map_singleton, List.disjoint_singleton]
          intro hmem
          obtain ⟨earlier, hearlier, hcall⟩ := List.mem_map.mp hmem
          have hfalse := hrun.mayEnter_eq_false earlier hearlier
          rw [hcall, (hstep.of_entered? hentered).2] at hfalse
          cases hfalse

/-- What the worker has done came into the queue before. -/
theorem mem_entered_of_mem_ended (h : Run job initial events s) {request : Request Call Job}
    (hmem : request ∈ ended events) : request ∈ entered events := by
  rw [h.entered_eq, h.started_eq]
  exact List.mem_append_left _ (List.mem_append_left _ hmem)

theorem mem_entered_of_mem_answered (h : Run job initial events s) {request : Request Call Job}
    (hmem : request ∈ answered events) : request ∈ entered events := by
  apply h.mem_entered_of_mem_ended
  rw [h.ended_eq]
  exact List.mem_append_left _ hmem

theorem eq_of_mem_ended (h : Run job initial events s) {request : Request Call Job}
    (hmem : request ∈ ended events) : request = ⟨job request.call, request.call⟩ := by
  rw [← h.job_eq_of_mem_entered request (h.mem_entered_of_mem_ended hmem)]

/-- What is to be answered is the outcome of the job. -/
theorem exists_ends_of_answering (h : Run job initial events s) {request : Request Call Job}
    {answer : Except JobError α} (hanswering : s.activity = .answering request answer) :
    ∃ outcome, .ends request outcome ∈ events ∧ answer = Worker.running.perform outcome := by
  induction h with
  | start => cases hanswering
  | step hrun hstep ih =>
      rcases hstep.of_answering hanswering with hbefore | ⟨outcome, rfl, rfl⟩
      · obtain ⟨outcome, hmem, heq⟩ := ih hbefore
        exact ⟨outcome, List.mem_append_left _ hmem, heq⟩
      · exact ⟨outcome, List.mem_append_right _ (List.mem_singleton_self _), rfl⟩

/-- What is in the slot of a call is the outcome of its own job, and its request was answered. -/
theorem exists_ends_of_slot (h : Run job initial events s) {c : Call}
    {answer : Except JobError α} (hslot : s.slot c = some answer) :
    ⟨job c, c⟩ ∈ answered events ∧
      ∃ outcome, .ends ⟨job c, c⟩ outcome ∈ events ∧ answer = Worker.running.perform outcome := by
  induction h with
  | start => cases hslot
  | step hrun hstep ih =>
      rw [answered_concat]
      rcases hstep.of_slot hslot with hbefore | ⟨request, rfl, rfl, hanswering⟩
      · obtain ⟨hanswered, outcome, hmem, heq⟩ := ih hbefore
        exact ⟨List.mem_append_left _ hanswered, outcome, List.mem_append_left _ hmem, heq⟩
      · obtain ⟨outcome, hmem, heq⟩ := hrun.exists_ends_of_answering hanswering
        have hended : request ∈ ended _ := List.mem_filterMap.mpr ⟨_, hmem, rfl⟩
        rw [← hrun.eq_of_mem_ended hended]
        exact ⟨List.mem_append_right _ (List.mem_singleton_self _), outcome,
          List.mem_append_left _ hmem, heq⟩

/-- A call returns the outcome of its own job, or that the worker was stopped. -/
theorem of_returned (h : Run job initial events s) {c : Call} {answer : Except JobError α}
    (hreturned : s.stage c = .returned answer) :
    (∃ outcome, .ends ⟨job c, c⟩ outcome ∈ events ∧ answer = Worker.running.perform outcome) ∨
      answer = .error .stopped ∧ .stop ∈ events := by
  induction h with
  | start => cases hreturned
  | step hrun hstep ih =>
      have hadvances := hstep.advances c
      rw [hreturned] at hadvances
      generalize hstage : Stage.returned answer = stage at hadvances
      cases hadvances with
      | stays hother =>
          rcases ih hstage.symm with ⟨outcome, hmem, heq⟩ | ⟨heq, hstop⟩
          · exact .inl ⟨outcome, List.mem_append_left _ hmem, heq⟩
          · exact .inr ⟨heq, List.mem_append_left _ hstop⟩
      | begins | admitted | enters => cases hstage
      | receives hwaiting hslot =>
          cases hstage
          obtain ⟨-, outcome, hmem, heq⟩ := hrun.exists_ends_of_slot hslot
          exact .inl ⟨outcome, List.mem_append_left _ hmem, heq⟩
      | stopped hidle hnone hstopped =>
          cases hstage
          exact .inr ⟨rfl, List.mem_append_left _ (hrun.stop_mem_iff.mpr hstopped)⟩

/-- A call that waits has its request in the queue or beyond, and once that is answered the
answer is in its slot. -/
theorem of_waiting (h : Run job initial events s) {c : Call} (hwaiting : s.stage c = .waiting) :
    ⟨job c, c⟩ ∈ entered events ∧
      (⟨job c, c⟩ ∈ answered events → ∃ answer, s.slot c = some answer) := by
  induction h with
  | start => cases hwaiting
  | @step events e t u hrun hstep ih =>
      rw [entered_concat, answered_concat, List.mem_append, List.mem_append]
      have hadvances := hstep.advances c
      rw [hwaiting] at hadvances
      generalize hstage : Stage.waiting = stage at hadvances
      cases hadvances with
      | stays hother =>
          obtain ⟨hentered, hslot⟩ := ih hstage.symm
          refine ⟨.inl hentered, ?_⟩
          rintro (hanswered | hnew)
          · obtain ⟨answer, hfull⟩ := hslot hanswered
            exact ⟨answer, hstep.slot_eq_some hwaiting hfull⟩
          · exact hstep.exists_slot_of_answered? (Option.mem_toList.mp hnew)
      | enters hoffering =>
          refine ⟨.inr (List.mem_singleton_self _), ?_⟩
          rintro (hanswered | hnew)
          · have hentered := hrun.mem_entered_of_mem_answered hanswered
            have hmay := hrun.mayEnter_eq_false _ hentered
            rw [hoffering] at hmay
            cases hmay
          · cases hnew
      | begins | admitted | receives | stopped => cases hstage

/-! ## Calls that begin too late -/

/-- A call that has begun when the worker was stopped already gets no further than being
turned away. -/
theorem late {t : Service Call Job α} {more : List (Event Call Job α)}
    (h : Run job s more t) {c : Call} (hstopped : s.worker = .stopped)
    (hbegun : s.stage c = .begun) :
    t.worker = .stopped ∧ (t.stage c = .begun ∨ t.stage c = .returned (.error .stopped)) ∧
      ∀ request ∈ entered more, request.call ≠ c := by
  induction h with
  | start => exact ⟨hstopped, .inl hbegun, List.forall_mem_nil _⟩
  | @step events e t u hrun hstep ih =>
      obtain ⟨hworker, hstage, hothers⟩ := ih
      refine ⟨hstep.stopped_iff.mpr (.inl hworker), ?_, ?_⟩
      · have hadvances := hstep.advances c
        generalize u.stage c = stage at hadvances
        cases hadvances with
        | stays => exact hstage
        | stopped => exact .inr rfl
        | begins hidle | enters hidle | receives hidle _ => simp [hidle] at hstage
        | admitted _ hrunning =>
            rw [hworker] at hrunning
            cases hrunning
      · rw [entered_concat, List.forall_mem_append]
        refine ⟨hothers, fun request hmem hcall => ?_⟩
        cases hstep with
        | enters hoffering hroom =>
            cases Option.mem_toList.mp hmem
            cases hcall
            simp [hoffering] at hstage
        | _ => cases hmem

/-! ## Calls that can be served -/

theorem running_of_stop_not_mem (h : Run job initial events s) (hstop : .stop ∉ events) :
    s.worker = .running := by
  rw [h.stop_mem_iff] at hstop
  cases hworker : s.worker with
  | running => rfl
  | stopped => exact absurd hworker hstop

/-- The worker leaves only after it was stopped. -/
theorem stopped_of_gone (h : Run job initial events s) (hgone : s.activity = .gone) :
    s.worker = .stopped := by
  induction h with
  | start => cases hgone
  | step hrun hstep ih =>
      cases hstep with
      | leaves hfree hstopped => exact hstopped
      | stop hrunning => rfl
      | starts | ends | answers => cases hgone
      | _ => exact ih hgone

/-- The slot of a request is empty until it is answered, so the worker never waits there. -/
theorem slot_eq_none (h : Run job initial events s) {request : Request Call Job}
    (hmem : request ∈ s.activity.toAnswer) : s.slot request.call = none := by
  have hended : ((answered events ++ s.activity.toAnswer).map Request.call).Nodup := by
    have hentered := h.nodup_entered
    rw [h.entered_eq, h.started_eq, h.ended_eq, List.append_assoc, List.append_assoc,
      ← List.append_assoc, List.map_append] at hentered
    exact hentered.of_append_left
  rw [List.map_append] at hended
  rw [Option.eq_none_iff_forall_ne_some]
  intro answer hslot
  obtain ⟨hanswered, -⟩ := h.exists_ends_of_slot hslot
  have hearlier : request.call ∈ (answered events).map Request.call :=
    List.mem_map.mpr ⟨_, hanswered, rfl⟩
  exact List.disjoint_of_nodup_append hended hearlier (List.mem_map_of_mem hmem)

/-- The worker can always finish what it is at. -/
theorem exists_free (h : Run job initial events s) (hstop : .stop ∉ events) :
    ∃ more t, Run job s more t ∧ .stop ∉ more ∧ t.activity = .free ∧ t.queue = s.queue ∧
      t.stage = s.stage := by
  cases hactivity : s.activity with
  | free => exact ⟨[], s, .start, List.not_mem_nil, hactivity, rfl, rfl⟩
  | answering request answer =>
      have hslot : s.slot request.call = none :=
        h.slot_eq_none (by simp [hactivity, Activity.toAnswer])
      exact ⟨_, _, Run.start.step (.answers hactivity hslot), by simp, rfl, rfl, rfl⟩
  | doing request =>
      have hends : Step job s _ _ := .ends hactivity (.error [])
      have hslot := (h.step hends).slot_eq_none (List.mem_singleton_self request)
      exact ⟨_, _, (Run.start.step hends).step (.answers rfl hslot), by simp, rfl, rfl, rfl⟩
  | gone =>
      have hstopped := h.stopped_of_gone hactivity
      rw [h.running_of_stop_not_mem hstop] at hstopped
      cases hstopped

/-- The worker can always do everything that is in the queue. -/
theorem exists_drained (h : Run job initial events s) (hstop : .stop ∉ events) :
    ∃ more t, Run job s more t ∧ .stop ∉ more ∧ t.activity = .free ∧ t.queue = [] ∧
      t.stage = s.stage := by
  generalize hqueue : s.queue = queue
  induction queue generalizing events s with
  | nil =>
      obtain ⟨more, t, hrun, hmore, hfree, heq, hstage⟩ := h.exists_free hstop
      exact ⟨more, t, hrun, hmore, hfree, heq.trans hqueue, hstage⟩
  | cons request rest ih =>
      obtain ⟨more, t, hrun, hmore, hfree, heq, hstage⟩ := h.exists_free hstop
      have hstarts : Step job t _ _ := .starts hfree (heq.trans hqueue)
      have hnext := (h.append hrun).step hstarts
      obtain ⟨last, u, hlast, hnone, hu, hempty, hsame⟩ := ih hnext (by simp [hstop, hmore]) rfl
      exact ⟨_, u, (hrun.step hstarts).append hlast, by simp [hmore, hnone], hu, hempty,
        hsame.trans hstage⟩

/-- A call that has not put its request into the queue still can. -/
theorem exists_waiting (h : Run job initial events s) (hstop : .stop ∉ events) {c : Call}
    (hstage : (s.stage c).mayEnter = true) :
    ∃ more t, Run job s more t ∧ .stop ∉ more ∧ t.stage c = .waiting := by
  obtain ⟨more, t, hrun, hmore, hfree, hempty, hsame⟩ := h.exists_drained hstop
  have hrunning : t.worker = .running :=
    (h.append hrun).running_of_stop_not_mem (by simp [hstop, hmore])
  have hroom : t.queue.length < capacity := by simp [hempty, capacity]
  rw [← hsame] at hstage
  cases ht : t.stage c with
  | idle =>
      have hbegun := hrun.step (.begins ht)
      have hoffering := hbegun.step (.admitted (setStage_stage_self ..) hrunning)
      exact ⟨_, _, hoffering.step (.enters (setStage_stage_self ..) hroom), by simp [hmore],
        setStage_stage_self ..⟩
  | begun =>
      have hoffering := hrun.step (.admitted ht hrunning)
      exact ⟨_, _, hoffering.step (.enters (setStage_stage_self ..) hroom), by simp [hmore],
        setStage_stage_self ..⟩
  | offering =>
      exact ⟨_, _, hrun.step (.enters ht hroom), by simp [hmore], setStage_stage_self ..⟩
  | waiting | returned =>
      rw [ht] at hstage
      cases hstage

/-- A call that waits can still get its answer. -/
theorem exists_returned (h : Run job initial events s) (hstop : .stop ∉ events) {c : Call}
    (hwaiting : s.stage c = .waiting) :
    ∃ more t outcome, Run job s more t ∧ .stop ∉ more ∧
      .ends ⟨job c, c⟩ outcome ∈ events ++ more ∧
      t.stage c = .returned (Worker.running.perform outcome) := by
  obtain ⟨more, t, hrun, hmore, hfree, hempty, hsame⟩ := h.exists_drained hstop
  have hall := h.append hrun
  rw [← hsame] at hwaiting
  obtain ⟨hentered, hslot⟩ := hall.of_waiting hwaiting
  rw [hall.entered_eq, hall.started_eq, hall.ended_eq, hempty, hfree] at hentered
  obtain ⟨answer, hslot⟩ := hslot (by simpa [Activity.inWork, Activity.toAnswer] using hentered)
  obtain ⟨-, outcome, hmem, rfl⟩ := hall.exists_ends_of_slot hslot
  refine ⟨_, _, outcome, hrun.step (.receives hwaiting hslot), by simp [hmore], ?_, ?_⟩
  · rw [← List.append_assoc]
    exact List.mem_append_left _ hmem
  · exact setStage_stage_self ..

/-- As long as the worker is not stopped, every call that has not returned can still be served,
whatever came of other jobs. -/
theorem exists_served (h : Run job initial events s) (hstop : .stop ∉ events) {c : Call}
    (hstage : ∀ answer, s.stage c ≠ .returned answer) :
    ∃ more t outcome, Run job s more t ∧ .stop ∉ more ∧
      .ends ⟨job c, c⟩ outcome ∈ events ++ more ∧
      t.stage c = .returned (Worker.running.perform outcome) := by
  cases hmay : (s.stage c).mayEnter with
  | true =>
      obtain ⟨more, t, hrun, hmore, hwaiting⟩ := h.exists_waiting hstop hmay
      obtain ⟨last, u, outcome, hlast, hnone, hends, hreturned⟩ :=
        (h.append hrun).exists_returned (by simp [hstop, hmore]) hwaiting
      refine ⟨more ++ last, u, outcome, hrun.append hlast, by simp [hmore, hnone], ?_, hreturned⟩
      rwa [← List.append_assoc]
  | false =>
      cases hs : s.stage c with
      | waiting => exact h.exists_returned hstop hs
      | returned answer => exact absurd hs (hstage answer)
      | idle | begun | offering =>
          rw [hs] at hmay
          cases hmay

/-! ## Everything that can happen -/

/-- The requests whose jobs are being done are those that the worker has in work. -/
theorem mem_inWork_of_executing (h : Run job initial events s) {request : Request Call Job}
    (hexecuting : Executing events request) : request ∈ s.activity.inWork := by
  obtain ⟨hstarted, hended⟩ := hexecuting
  rw [h.started_eq, List.mem_append] at hstarted
  exact hstarted.resolve_left hended

/-- The request of a call that began after the worker was stopped never comes into the queue. -/
theorem not_mem_entered_of_late {before after : List (Event Call Job α)} {c : Call}
    (h : Run job initial (before ++ .begins c :: after) s) (hstop : .stop ∈ before) :
    ⟨job c, c⟩ ∉ entered (before ++ .begins c :: after) := by
  rw [List.append_cons] at h ⊢
  obtain ⟨t, hbegun, hafter⟩ := h.exists_of_append
  have hstopped : t.worker = .stopped :=
    hbegun.stop_mem_iff.mp (List.mem_append_left _ hstop)
  have hstage : t.stage c = .begun := by
    obtain ⟨u, -, hstep⟩ := hbegun.exists_step
    cases hstep
    exact setStage_stage_self ..
  intro hmem
  rw [entered, List.filterMap_append, List.mem_append] at hmem
  rcases hmem with hmem | hmem
  · have hmay := hbegun.mayEnter_eq_false _ hmem
    rw [hstage] at hmay
    cases hmay
  · exact (hafter.late hstopped hstage).2.2 _ hmem rfl

/-- Whatever happens, in whatever order: no two jobs are done at a time.  The jobs are done in
the order in which their requests came into the queue, and none is done twice.  A call returns
what came of its own job, or, only once the worker was stopped, that it is stopped.  Until it is
stopped the worker can serve every call that has not returned, also after jobs that broke off.
The job of a call that begins after that is never done. -/
theorem orderly (h : Run job initial events s) :
    (∀ first second, Executing events first → Executing events second → first = second) ∧
      started events <+: entered events ∧ (entered events).Nodup ∧
      (∀ c answer, s.stage c = .returned answer → answer ≠ .error .stopped →
        ∃ outcome, .ends ⟨job c, c⟩ outcome ∈ events ∧
          answer = Worker.running.perform outcome) ∧
      (∀ c, s.stage c = .returned (.error .stopped) → .stop ∈ events) ∧
      (.stop ∉ events → ∀ c, (∀ answer, s.stage c ≠ .returned answer) →
        ∃ more t outcome, Run job s more t ∧ .stop ∉ more ∧
          .ends ⟨job c, c⟩ outcome ∈ events ++ more ∧
          t.stage c = .returned (Worker.running.perform outcome)) ∧
      ∀ before c after, events = before ++ .begins c :: after → .stop ∈ before →
        ⟨job c, c⟩ ∉ started events := by
  have horder : started events <+: entered events := ⟨s.queue, h.entered_eq.symm⟩
  refine ⟨?_, horder, h.nodup_entered.of_map _, ?_, ?_, fun hstop _ => h.exists_served hstop, ?_⟩
  · intro first second hfirst hsecond
    have hfirst := h.mem_inWork_of_executing hfirst
    have hsecond := h.mem_inWork_of_executing hsecond
    cases hactivity : s.activity with
    | doing request =>
        rw [hactivity, Activity.inWork, List.mem_singleton] at hfirst hsecond
        rw [hfirst, hsecond]
    | free | answering | gone =>
        rw [hactivity] at hfirst
        cases hfirst
  · intro c answer hreturned hanswer
    rcases h.of_returned hreturned with hown | ⟨hstopped, -⟩
    · exact hown
    · exact absurd hstopped hanswer
  · intro c hreturned
    rcases h.of_returned hreturned with ⟨outcome, -, hperform⟩ | ⟨-, hstop⟩
    · cases outcome <;> cases hperform
    · exact hstop
  · rintro before c after rfl hstop hstarted
    exact h.not_mem_entered_of_late hstop (horder.subset hstarted)

end Run

/-- Three calls: the second comes into the queue before the first and its job breaks off.  The
worker is stopped, yet starts the job of the first, which is not waited for.  The third call
begins too late. -/
def crossed : List (Event (Fin 3) Char Nat) :=
  [.begins 0, .begins 1, .admitted 1, .admitted 0, .enters ⟨'b', 1⟩, .enters ⟨'a', 0⟩,
    .starts ⟨'b', 1⟩, .ends ⟨'b', 1⟩ (.error [0x21]), .stop,
    .answers ⟨'b', 1⟩ (.error (.brokenOff [0x21])), .begins 2, .starts ⟨'a', 0⟩, .abandons 0,
    .receives 1 (.error (.brokenOff [0x21])), .turnedAway 2, .ends ⟨'a', 0⟩ (.ok 7),
    .answers ⟨'a', 0⟩ (.ok 7), .leaves]

/-- The jobs of the three calls. -/
def crossedJob : Fin 3 → Char
  | 0 => 'a'
  | 1 => 'b'
  | 2 => 'c'

theorem orderly_crossed :
    ∃ s, Run crossedJob initial crossed s ∧ s.stage 0 = .returned (.error .stopped) ∧
      s.stage 1 = .returned (.error (.brokenOff [0x21])) ∧
      started crossed = [⟨'b', 1⟩, ⟨'a', 0⟩] ∧ started crossed <+: entered crossed ∧
      (∃ outcome, .ends ⟨'b', 1⟩ outcome ∈ crossed ∧
        .error (.brokenOff [0x21]) = Worker.running.perform outcome) ∧
      ⟨'c', 2⟩ ∉ started crossed := by
  have hbefore : Run crossedJob (initial : Service (Fin 3) Char Nat) _ _ :=
    Run.start.step (.begins (c := 0) rfl) |>.step (.begins (c := 1) rfl)
      |>.step (.admitted (c := 1) rfl rfl) |>.step (.admitted (c := 0) rfl rfl)
      |>.step (.enters (c := 1) rfl (by decide)) |>.step (.enters (c := 0) rfl (by decide))
      |>.step (.starts rfl rfl) |>.step (.ends rfl (.error [0x21]))
  have hrun := hbefore.step (.stop rfl) |>.step (.answers rfl rfl)
    |>.step (.begins (c := 2) rfl) |>.step (.starts rfl rfl) |>.step (.abandons (c := 0) rfl rfl)
    |>.step (.receives (c := 1) rfl rfl) |>.step (.turnedAway (c := 2) rfl rfl)
    |>.step (.ends rfl (.ok 7)) |>.step (.answers rfl rfl) |>.step (.leaves rfl rfl)
  have hcrossed : Run crossedJob initial crossed _ := hrun
  obtain ⟨-, horder, -, hown, -, -, hlate⟩ := Run.orderly hcrossed
  exact ⟨_, hcrossed, rfl, rfl, rfl, horder, hown 1 _ rfl nofun,
    hlate (crossed.take 10) 2 (crossed.drop 11) rfl (by simp [crossed])⟩

end BitLang.Editor.Service
