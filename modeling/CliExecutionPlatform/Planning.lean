/-
`SecurityPolicyValidator` (`llm/validator.py`) and `LLMPlanRetryExecutor`
(`llm/retry.py`): from a request to an executed plan.

* `policyViolation` — the policy check of one action, with the text of the
  violation; looking a path up can raise as well;
* `validateActions` — the check of a plan: the first violation is logged and
  ends it; `.scad` content that fails the static validation and a path that
  cannot be looked up end it without a trace;
* `feedbackFor` — which exceptions are retried, and what the next request is
  told about them;
* `generateActions` — the retry loop.
-/
import CliExecutionPlatform.Attempt

open Files Process

namespace CliExecutionPlatform

open LocalStorage (root)

/-! ### The security policy -/

/-- `text.lower()`, as far as the comparisons with ASCII texts need it. -/
def lower (text : String) : String := String.ofList (text.toList.map Char.toLower)

namespace SecurityPolicyValidator

/-- `NAME_MAX` and `PATH_MAX`, in bytes; the latter counts the byte that ends the text. -/
def nameMax : ℕ := 255
def pathMax : ℕ := 4096

/-- The bytes of the text of an absolute path. -/
def pathSize (p : Path) : ℕ := p.foldr (fun name n => 1 + (utf8 name).length + n) 0

/-- `lstat` refuses the path with these names below the directory of a job, which is not
looked up itself.  Only the first of them can be found too long, since a workspace holds no
directories when a plan is checked. -/
def tooLong (jobDir : Path) : Path → Bool
  | [] => false
  | name :: names =>
    nameMax < (utf8 name).length || pathMax ≤ pathSize (jobDir ++ name :: names)

/-- What it raises then. -/
def nameError (p : Path) : Exn :=
  .os "OSError" ("[Errno 36] File name too long: " ++ pathText p)

/-- The walk from a path up to the directory of the job.  The trees hold no symbolic links,
so that it finds none, but the first `lstat` can raise. -/
def searchLinks (jobDir : Path) (path : String) : Except Exn Unit :=
  if tooLong jobDir (relativeParts path) then .error (nameError (jobDir ++ relativeParts path))
  else .ok ()

/-- The path rules; `walks` if the path is also searched for symbolic links.  Resolving a
text with a NUL character raises. -/
def pathViolation (base : Path) (j : Uuid) (walks : Bool) (path : String) :
    Except Exn (Option String) :=
  if contains path "../" || contains path "..\\" then
    .ok (some
      ("Access denied. Security policy violation: Path traversal attempt detected: " ++ path))
  else if startsWith path "/" || startsWith path "\\" || isAbsolute path then
    .ok (some ("Access denied. Security policy violation: Absolute path not allowed: " ++ path))
  else if LocalStorage.hasNul path then .error LocalStorage.nulError
  else if ¬ root base .jobs j <+: resolve (root base .jobs j) path then
    .ok (some
      ("Access denied. Security policy violation: Path is not relative to the workspace: " ++
        path))
  else if walks then do
    searchLinks (root base .jobs j) path
    pure none
  else .ok none

def policyViolation (base : Path) (j : Uuid) : Action → Except Exn (Option String)
  | .runTool toolName _ =>
    if strip (lower toolName) = "openscad" then .ok none
    else .ok (some
      ("Access denied. Security policy violation: Unauthorized tool: " ++ toolName))
  | .createDirectory path => pathViolation base j false path
  | .writeFile path _ | .createArtifact path => pathViolation base j true path

/-- The static validation of the contents of `.scad` files. -/
def contentCheck (parts : Parts) : Action → Except Exn Unit
  | .writeFile path content =>
    if ".scad".toList <:+ (lower path).toList then parts.scadValidate content else .ok ()
  | _ => .ok ()

/-- `_log_and_raise_violation`. -/
def logAndRaiseViolation (j : Uuid) (message : String) : Task Unit := do
  perform (.db (.logEvents j [(.securityAlert, message)]))
  throw (.planValidation message 403 "FORBIDDEN_ACCESS")

/-- The checks of one action. -/
def validateAction (parts : Parts) (j : Uuid) (action : Action) : Task Unit :=
  match policyViolation parts.base j action with
  | .error e => throw e
  | .ok (some message) => logAndRaiseViolation j message
  | .ok none => Task.ofExcept (contentCheck parts action)

/-- `validate_actions`. -/
def validateActions (parts : Parts) (j : Uuid) : List Action → Task Unit
  | [] => pure ()
  | action :: rest => do
    validateAction parts j action
    validateActions parts j rest

end SecurityPolicyValidator

/-! ### Retries -/

namespace LLMPlanRetryExecutor

/-- The feedback for the next request, if the exception is one that is
retried. -/
def feedbackFor (parts : Parts) : Exn → Option String
  | .llmClient _ _ retryable =>
    if retryable then
      some "The previous request failed temporarily. Return a valid action plan."
    else none
  | .planRetryable _ _ position =>
    some ("Previous action plan parse failed: " ++
      match position with
      | some p => if p = "" then "invalid JSON" else p
      | none => "invalid JSON")
  | .planValidation message statusCode _ => if statusCode = 403 then none else some message
  | e => if e.isCliExecution then some (parts.runtimeFeedback e) else none

variable (parts : Parts) (onAttempt : ℕ → Task Unit)
  (validationCb executionCb : List Action → Task Unit)

/-- The body of the `try`: one plan, parsed, validated and executed. -/
def oneAttempt (request : LLMRequest) : Task (List Action) := do
  let response ← perform (.sys (.generatePlan request))
  let actions ← Task.ofExcept (parts.parse response)
  validationCb actions
  executionCb actions
  pure actions

/-- `generate_actions` from attempt number `attempt` on, with the delays that
are left. -/
def generateActions : List ℕ → ℕ → LLMRequest → Task (List Action)
  | [], attempt, request => do
    onAttempt attempt
    oneAttempt parts validationCb executionCb request
  | delay :: delays, attempt, request => do
    onAttempt attempt
    tryExcept (fun e => (feedbackFor parts e).isSome)
      (oneAttempt parts validationCb executionCb request) fun e => do
        perform (.sys (.sleep delay))
        generateActions delays (attempt + 1)
          (request.withRetryFeedback ((feedbackFor parts e).getD ""))

end LLMPlanRetryExecutor

end CliExecutionPlatform
