/-
# One worker for many calls

Handlers of an editor's messages run side by side, and each that has something to evaluate calls
the one worker.  A call puts a request into a queue and waits for the answer in a slot of its
own.  The worker takes the requests from the front of the queue, one at a time.  Once it is
stopped, calls and worker may notice that wherever they wait, and whether they do before
anything else happens is up to chance.

Here the calls, the queue, the slots and the worker are one system that takes a step at a time,
whichever is possible.  This module says what a step does to each of its parts.
-/

import BitLang.Editor.Worker
import Mathlib.Logic.Function.Basic

namespace BitLang.Editor

/-- A job, and the call that waits for it. -/
structure Request (Call Job : Type) where
  job : Job
  call : Call
deriving DecidableEq, Repr

/-- How far a call has got. -/
inductive Stage (α : Type) where
  | idle
  | begun
  | offering
  | waiting
  | returned (answer : Except JobError α)

/-- What the worker is at. -/
inductive Activity (Call Job α : Type) where
  | free
  | doing (request : Request Call Job)
  | answering (request : Request Call Job) (answer : Except JobError α)
  | gone

/-- Calls, queue, slots and worker at one moment. -/
structure Service (Call Job α : Type) where
  stage : Call → Stage α
  queue : List (Request Call Job)
  slot : Call → Option (Except JobError α)
  activity : Activity Call Job α
  worker : Worker

/-- What can happen.  A call that finds the worker stopped is turned away at first, withdraws
its offer later, and abandons its request once that is in the queue. -/
inductive Event (Call Job α : Type) where
  | begins (c : Call)
  | turnedAway (c : Call)
  | admitted (c : Call)
  | enters (request : Request Call Job)
  | withdraws (c : Call)
  | starts (request : Request Call Job)
  | ends (request : Request Call Job) (outcome : Except Bytes α)
  | answers (request : Request Call Job) (answer : Except JobError α)
  | receives (c : Call) (answer : Except JobError α)
  | abandons (c : Call)
  | stop
  | leaves

namespace Service

variable {Call Job α : Type}

/-- The number of requests that the queue has room for. -/
def capacity : Nat := 64

/-- Before anything has happened. -/
def initial : Service Call Job α := ⟨fun _ => .idle, [], fun _ => none, .free, .running⟩

variable [DecidableEq Call]

/-- A call has got to a stage. -/
def setStage (s : Service Call Job α) (c : Call) (stage : Stage α) : Service Call Job α :=
  { s with stage := Function.update s.stage c stage }

/-- A slot has been filled or emptied. -/
def setSlot (s : Service Call Job α) (c : Call) (content : Option (Except JobError α)) :
    Service Call Job α :=
  { s with slot := Function.update s.slot c content }

variable (job : Call → Job)

/-- One step, when each call has its job.  The first look at whether the worker is stopped does
not wait; every other choice is between whatever is possible. -/
inductive Step : Service Call Job α → Event Call Job α → Service Call Job α → Prop
  | begins {s : Service Call Job α} {c : Call} (hstage : s.stage c = .idle) :
      Step s (.begins c) (s.setStage c .begun)
  | turnedAway {s : Service Call Job α} {c : Call} (hstage : s.stage c = .begun)
      (hstopped : s.worker = .stopped) :
      Step s (.turnedAway c) (s.setStage c (.returned (.error .stopped)))
  | admitted {s : Service Call Job α} {c : Call} (hstage : s.stage c = .begun)
      (hrunning : s.worker = .running) : Step s (.admitted c) (s.setStage c .offering)
  | enters {s : Service Call Job α} {c : Call} (hstage : s.stage c = .offering)
      (hroom : s.queue.length < capacity) :
      Step s (.enters ⟨job c, c⟩)
        { s.setStage c .waiting with queue := s.queue ++ [⟨job c, c⟩] }
  | withdraws {s : Service Call Job α} {c : Call} (hstage : s.stage c = .offering)
      (hstopped : s.worker = .stopped) :
      Step s (.withdraws c) (s.setStage c (.returned (.error .stopped)))
  | starts {s : Service Call Job α} {request : Request Call Job}
      {rest : List (Request Call Job)} (hfree : s.activity = .free)
      (hqueue : s.queue = request :: rest) :
      Step s (.starts request) { s with queue := rest, activity := .doing request }
  | ends {s : Service Call Job α} {request : Request Call Job}
      (hdoing : s.activity = .doing request) (outcome : Except Bytes α) :
      Step s (.ends request outcome)
        { s with activity := .answering request (Worker.running.perform outcome) }
  | answers {s : Service Call Job α} {request : Request Call Job} {answer : Except JobError α}
      (hanswering : s.activity = .answering request answer)
      (hslot : s.slot request.call = none) :
      Step s (.answers request answer)
        { s.setSlot request.call (some answer) with activity := .free }
  | receives {s : Service Call Job α} {c : Call} {answer : Except JobError α}
      (hstage : s.stage c = .waiting) (hslot : s.slot c = some answer) :
      Step s (.receives c answer) ((s.setStage c (.returned answer)).setSlot c none)
  | abandons {s : Service Call Job α} {c : Call} (hstage : s.stage c = .waiting)
      (hstopped : s.worker = .stopped) :
      Step s (.abandons c) (s.setStage c (.returned (.error .stopped)))
  | stop {s : Service Call Job α} (hrunning : s.worker = .running) :
      Step s .stop { s with worker := .stopped }
  | leaves {s : Service Call Job α} (hfree : s.activity = .free)
      (hstopped : s.worker = .stopped) : Step s .leaves { s with activity := .gone }

/-- Any number of steps, with what happened in them. -/
inductive Run (s : Service Call Job α) :
    List (Event Call Job α) → Service Call Job α → Prop
  | start : Run s [] s
  | step {events : List (Event Call Job α)} {e : Event Call Job α} {t u : Service Call Job α}
      (hrun : Run s events t) (hstep : Step job t e u) : Run s (events ++ [e]) u

end Service

/-! ## What has happened to requests -/

namespace Event

variable {Call Job α : Type}

/-- The request that has come into the queue. -/
def entered? : Event Call Job α → Option (Request Call Job)
  | enters request => some request
  | _ => none

/-- The request whose job has been started. -/
def started? : Event Call Job α → Option (Request Call Job)
  | starts request => some request
  | _ => none

/-- The request whose job has ended. -/
def ended? : Event Call Job α → Option (Request Call Job)
  | ends request _ => some request
  | _ => none

/-- The request that has been answered. -/
def answered? : Event Call Job α → Option (Request Call Job)
  | answers request _ => some request
  | _ => none

end Event

section Histories

variable {Call Job α : Type}

/-- The requests that came into the queue, in order. -/
def entered (events : List (Event Call Job α)) : List (Request Call Job) :=
  events.filterMap Event.entered?

/-- The requests whose jobs were started, in order. -/
def started (events : List (Event Call Job α)) : List (Request Call Job) :=
  events.filterMap Event.started?

/-- The requests whose jobs ended, in order. -/
def ended (events : List (Event Call Job α)) : List (Request Call Job) :=
  events.filterMap Event.ended?

/-- The requests that were answered, in order. -/
def answered (events : List (Event Call Job α)) : List (Request Call Job) :=
  events.filterMap Event.answered?

/-- The job was started and has not ended. -/
def Executing (events : List (Event Call Job α)) (request : Request Call Job) : Prop :=
  request ∈ started events ∧ request ∉ ended events

namespace Activity

/-- The request whose job is being done. -/
def inWork : Activity Call Job α → List (Request Call Job)
  | doing request => [request]
  | _ => []

/-- The request whose job is done and which is not answered yet. -/
def toAnswer : Activity Call Job α → List (Request Call Job)
  | answering request _ => [request]
  | _ => []

end Activity

/-- The call has not put its request into the queue and has not returned. -/
def Stage.mayEnter : Stage α → Bool
  | idle | begun | offering => true
  | waiting | returned _ => false

section Concat

variable (events : List (Event Call Job α)) (e : Event Call Job α)

theorem filterMap_concat {β : Type} (f : Event Call Job α → Option β) :
    (events ++ [e]).filterMap f = events.filterMap f ++ (f e).toList := by
  cases h : f e <;> simp [h]

theorem entered_concat : entered (events ++ [e]) = entered events ++ e.entered?.toList :=
  filterMap_concat ..

theorem started_concat : started (events ++ [e]) = started events ++ e.started?.toList :=
  filterMap_concat ..

theorem ended_concat : ended (events ++ [e]) = ended events ++ e.ended?.toList :=
  filterMap_concat ..

theorem answered_concat : answered (events ++ [e]) = answered events ++ e.answered?.toList :=
  filterMap_concat ..

end Concat

end Histories

namespace Service

/-! ## One step -/

section Stages

variable {Call Job α : Type} {job : Call → Job}

/-- What an event means for one call: how far it has got afterwards. -/
inductive Advances (job : Call → Job) (s : Service Call Job α) (c : Call) :
    Event Call Job α → Stage α → Prop
  | stays {e : Event Call Job α}
      (hother : ∀ request, e.entered? = some request → request.call ≠ c) :
      Advances job s c e (s.stage c)
  | begins (hstage : s.stage c = .idle) : Advances job s c (.begins c) .begun
  | admitted (hstage : s.stage c = .begun) (hrunning : s.worker = .running) :
      Advances job s c (.admitted c) .offering
  | enters (hstage : s.stage c = .offering) : Advances job s c (.enters ⟨job c, c⟩) .waiting
  | receives {answer : Except JobError α} (hstage : s.stage c = .waiting)
      (hslot : s.slot c = some answer) : Advances job s c (.receives c answer) (.returned answer)
  | stopped {e : Event Call Job α} (hstage : s.stage c ≠ .idle) (hnone : e.entered? = none)
      (hstopped : s.worker = .stopped) : Advances job s c e (.returned (.error .stopped))

namespace Advances

variable {s : Service Call Job α} {c : Call} {e : Event Call Job α} {stage : Stage α}

/-- A call that may enter no more never may again. -/
theorem mayEnter_eq_false (h : Advances job s c e stage)
    (hstage : (s.stage c).mayEnter = false ∨ ∃ request, e.entered? = some request ∧
      request.call = c) : stage.mayEnter = false := by
  cases h with
  | stays hother =>
      rcases hstage with hstage | ⟨request, hentered, hcall⟩
      · exact hstage
      · exact absurd hcall (hother request hentered)
  | begins hidle | admitted hidle _ =>
      rcases hstage with hstage | ⟨_, hentered, -⟩
      · rw [hidle] at hstage
        cases hstage
      · cases hentered
  | enters | receives | stopped => rfl

end Advances

end Stages

variable {Call Job α : Type} [DecidableEq Call] {job : Call → Job}

section Fields

variable (s : Service Call Job α) (c : Call)

@[simp] theorem setStage_queue (stage : Stage α) : (s.setStage c stage).queue = s.queue := rfl

@[simp] theorem setStage_slot (stage : Stage α) : (s.setStage c stage).slot = s.slot := rfl

@[simp] theorem setStage_activity (stage : Stage α) :
    (s.setStage c stage).activity = s.activity := rfl

@[simp] theorem setStage_worker (stage : Stage α) : (s.setStage c stage).worker = s.worker := rfl

@[simp] theorem setSlot_stage (content : Option (Except JobError α)) :
    (s.setSlot c content).stage = s.stage := rfl

@[simp] theorem setSlot_queue (content : Option (Except JobError α)) :
    (s.setSlot c content).queue = s.queue := rfl

@[simp] theorem setSlot_activity (content : Option (Except JobError α)) :
    (s.setSlot c content).activity = s.activity := rfl

@[simp] theorem setSlot_worker (content : Option (Except JobError α)) :
    (s.setSlot c content).worker = s.worker := rfl

theorem setStage_stage_self (stage : Stage α) : (s.setStage c stage).stage c = stage :=
  Function.update_self ..

theorem setStage_stage (stage : Stage α) (other : Call) :
    (s.setStage c stage).stage other = if other = c then stage else s.stage other :=
  Function.update_apply ..

theorem setSlot_slot (content : Option (Except JobError α)) (other : Call) :
    (s.setSlot c content).slot other = if other = c then content else s.slot other :=
  Function.update_apply ..

end Fields

/-- An event of one call leaves every other where it was. -/
theorem Advances.setStage {s : Service Call Job α} {c : Call} {e : Event Call Job α}
    {stage : Stage α} (h : Advances job s c e stage)
    (hown : ∀ request, e.entered? = some request → request.call = c) (other : Call) :
    Advances job s other e ((s.setStage c stage).stage other) := by
  rw [setStage_stage]
  split
  · next heq => rwa [heq]
  · next hne => exact .stays fun request hentered => hown request hentered ▸ Ne.symm hne

namespace Step

variable {s t : Service Call Job α} {e : Event Call Job α}

/-- Requests come into the queue at its end and leave it, started, at its front. -/
theorem queue_eq (h : Step job s e t) :
    s.queue ++ e.entered?.toList = e.started?.toList ++ t.queue := by
  cases h with
  | starts hfree hqueue => simp [Event.entered?, Event.started?, hqueue]
  | _ => simp [Event.entered?, Event.started?]

/-- A job is in work from its start to its end, and no other then. -/
theorem inWork_eq (h : Step job s e t) :
    s.activity.inWork ++ e.started?.toList = e.ended?.toList ++ t.activity.inWork := by
  cases h with
  | starts hactivity _ | ends hactivity _ | answers hactivity _ | leaves hactivity _ =>
      simp [Event.started?, Event.ended?, hactivity, Activity.inWork]
  | _ => simp [Event.started?, Event.ended?]

/-- A request whose job has ended is to be answered until it is. -/
theorem toAnswer_eq (h : Step job s e t) :
    s.activity.toAnswer ++ e.ended?.toList = e.answered?.toList ++ t.activity.toAnswer := by
  cases h with
  | starts hactivity _ | ends hactivity _ | answers hactivity _ | leaves hactivity _ =>
      simp [Event.ended?, Event.answered?, hactivity, Activity.toAnswer]
  | _ => simp [Event.ended?, Event.answered?]

/-- What is to be answered comes from a job that has ended. -/
theorem of_answering (h : Step job s e t) {request : Request Call Job}
    {answer : Except JobError α} (hanswering : t.activity = .answering request answer) :
    s.activity = .answering request answer ∨
      ∃ outcome, e = .ends request outcome ∧ answer = Worker.running.perform outcome := by
  cases h with
  | ends hdoing outcome =>
      cases hanswering
      exact .inr ⟨outcome, rfl, rfl⟩
  | starts _ _ | answers _ _ | leaves _ _ => cases hanswering
  | _ => exact .inl hanswering

/-- A slot is filled by the answer to a request of its call. -/
theorem of_slot (h : Step job s e t) {c : Call} {answer : Except JobError α}
    (hslot : t.slot c = some answer) :
    s.slot c = some answer ∨ ∃ request, request.call = c ∧ e = .answers request answer ∧
      s.activity = .answering request answer := by
  cases h with
  | @answers request answer' hanswering hempty =>
      simp only [setSlot_slot] at hslot
      split at hslot
      · next heq =>
        cases hslot
        exact .inr ⟨request, heq.symm, rfl, hanswering⟩
      · exact .inl hslot
  | @receives d answer' hstage hfull =>
      rw [setSlot_slot] at hslot
      split at hslot
      · cases hslot
      · exact .inl hslot
  | _ => exact .inl hslot

/-- What is in the slot of a call that waits stays there. -/
theorem slot_eq_some (h : Step job s e t) {c : Call} {answer : Except JobError α}
    (hwaiting : t.stage c = .waiting) (hslot : s.slot c = some answer) :
    t.slot c = some answer := by
  cases h with
  | @answers request answer' hanswering hempty =>
      have hne : c ≠ request.call := by
        rintro rfl
        rw [hempty] at hslot
        cases hslot
      simpa [setSlot_slot, hne] using hslot
  | @receives d answer' hstage hfull =>
      have hne : c ≠ d := by
        rintro rfl
        simp [setStage_stage] at hwaiting
      simpa [setSlot_slot, hne] using hslot
  | _ => exact hslot

/-- An answer is put into the slot of the call. -/
theorem exists_slot_of_answered? (h : Step job s e t) {request : Request Call Job}
    (hanswered : e.answered? = some request) : ∃ answer, t.slot request.call = some answer := by
  cases h with
  | @answers request answer hanswering hempty =>
      cases hanswered
      exact ⟨answer, by simp [setSlot_slot]⟩
  | _ => cases hanswered

/-- The worker is stopped by being stopped, and stays so. -/
theorem stopped_iff (h : Step job s e t) :
    t.worker = .stopped ↔ s.worker = .stopped ∨ e = .stop := by
  cases h with
  | stop hrunning => simp
  | _ => simp

/-- A call goes through its stages as its own events say. -/
theorem advances (h : Step job s e t) (c : Call) : Advances job s c e (t.stage c) := by
  cases h with
  | begins hstage => exact Advances.setStage (.begins hstage) nofun c
  | admitted hstage hrunning => exact Advances.setStage (.admitted hstage hrunning) nofun c
  | enters hstage hroom =>
      refine Advances.setStage (.enters hstage) ?_ c
      rintro request ⟨⟩
      rfl
  | receives hstage hslot => exact Advances.setStage (.receives hstage hslot) nofun c
  | turnedAway hstage hstopped | withdraws hstage hstopped | abandons hstage hstopped =>
      exact Advances.setStage (.stopped (by simp [hstage]) rfl hstopped) (by nofun) c
  | starts _ _ | ends _ _ | answers _ _ | stop _ | leaves _ _ => exact .stays nofun

end Step

/-- A request comes into the queue from the call that waits for it, with the job of that call. -/
theorem Step.of_entered? {s t : Service Call Job α} {e : Event Call Job α}
    (h : Step job s e t) {request : Request Call Job} (hentered : e.entered? = some request) :
    request.job = job request.call ∧ (s.stage request.call).mayEnter = true := by
  cases h with
  | enters hstage hroom =>
      cases hentered
      exact ⟨rfl, by rw [hstage]; rfl⟩
  | _ => cases hentered

end Service

end BitLang.Editor
