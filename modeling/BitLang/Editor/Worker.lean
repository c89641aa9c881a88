/-
# The evaluation worker

All evaluation for an editor goes through one worker.  A job that breaks off ends
with its own message and does the worker no harm; once the worker is stopped it
takes no more jobs.
-/

import BitLang.Eval.Machine

namespace BitLang.Editor

/-- Whether jobs are still taken. -/
inductive Worker where
  | running
  | stopped
deriving DecidableEq, Repr

/-- Why a job has no result. -/
inductive JobError where
  | brokenOff (message : Bytes)
  | stopped
deriving DecidableEq, Repr

/-- The error in words. -/
def JobError.message : JobError → Bytes
  | brokenOff message => message
  | stopped => utf8 "worker stopped"

/-- Does a job, which has a result or breaks off with a message. -/
def Worker.perform {α : Type} (worker : Worker) (job : Except Bytes α) : Except JobError α :=
  match worker with
  | .running => job.mapError .brokenOff
  | .stopped => .error .stopped

end BitLang.Editor
