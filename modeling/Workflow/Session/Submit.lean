import Workflow.Session.Basic

/-!
# Submitting a draft

A draft is compiled and handed to a store. While the store has not answered, no
other submission can begin; after the answer, good or bad, one can. A submission
never changes the draft, so one that failed can be repeated.
-/

namespace Workflow

/-- How a draft was stored. -/
inductive Submitted where
  /-- As a new definition. -/
  | created
  /-- In the place of a stored definition. -/
  | updated (id : String)
  deriving DecidableEq, Repr

/-- Why a draft was not stored. -/
inductive SubmitError where
  /-- Another submission is under way. -/
  | inFlight
  /-- The draft is not compiled. -/
  | compile (cause : CompileError)
  /-- The store has not taken the draft. -/
  | client (cause : ClientError)
  deriving DecidableEq, Repr

/-- The sentence that reports a draft that was not stored. -/
def SubmitError.message : SubmitError → String
  | .inFlight => "A submission for this session is already in flight"
  | .compile cause => cause.message
  | .client cause => cause.message

namespace Submission

/-- What the store is asked to do. -/
def call (x : Submission) : Call :=
  match x.replaces with
  | some id => .update id x.draft
  | none => .create x.draft

/-- How the draft is stored when the store takes it. -/
def outcome (x : Submission) : Submitted := x.replaces.elim .created .updated

end Submission

namespace Session

variable (s : Session)

/-- Whether a submission is under way. -/
def isSubmitting : Bool := s.submission.isSome

/-- Begins a submission. -/
def beginSubmission : Except SubmitError (Session × Submission) :=
  if s.isSubmitting then .error .inFlight
  else
    match s.compile with
    | .error cause => .error (.compile cause)
    | .ok definition =>
      let x : Submission := ⟨s.definitionId, ⟨definition, s.snapshot⟩⟩
      .ok ({ s with submission := some x }, x)

/-- Gives up the submission that is under way. -/
def endSubmission : Session := { s with submission := none }

/-- What the answer of the store means for a submission. -/
def result (x : Submission) : Except ClientError Unit → Except SubmitError Submitted
  | .ok () => .ok x.outcome
  | .error cause => .error (.client cause)

/-- Submits the draft to a store. -/
def submit {m : Type → Type} [Monad m] (store : Call → m (Except ClientError Unit)) :
    m (Session × Except SubmitError Submitted) :=
  match s.beginSubmission with
  | .error e => pure (s, .error e)
  | .ok (begun, x) => do
    let answer ← store x.call
    return (begun.endSubmission, result x answer)

end Session

end Workflow
