/-
The data of the platform: identifiers, rows, actions and exceptions.

* `Uuid` with its text form; `Uuid.str_injective` and `Uuid.plain_str` say that
  the text names one directory entry, a different one for every identifier;
* `Status`, `JobRow`, `EventRow`, `ArtifactRow` — `jobs/models.py`;
* `Action`, `LLMRequest` — `llm/schemas.py`, `llm/client.py`;
* `Exn` — every exception the modelled code raises or lets through, with the
  name of its class and its text.
-/
import CliExecutionPlatform.PosixPath
import Mathlib.Tactic.NormNum

open Files

namespace CliExecutionPlatform

/-! ### Identifiers -/

/-- `uuid.UUID`: 128 bits. -/
structure Uuid where
  bits : BitVec 128
  deriving DecidableEq

namespace Uuid

/-- A hexadecimal digit. -/
def hexDigit (d : ℕ) : Char :=
  ['0', '1', '2', '3', '4', '5', '6', '7', '8', '9', 'a', 'b', 'c', 'd', 'e', 'f'].getD d '0'

/-- The last `n` hexadecimal digits of `x`. -/
def hexDigits : ℕ → ℕ → List Char
  | 0, _ => []
  | n + 1, x => hexDigits n (x / 16) ++ [hexDigit (x % 16)]

/-- `str(uuid)`: the digits in groups of 8, 4, 4, 4 and 12. -/
def str (u : Uuid) : String :=
  let ds := hexDigits 32 u.bits.toNat
  String.ofList (ds.take 8 ++ '-' :: (ds.drop 8).take 4 ++ '-' :: (ds.drop 12).take 4 ++
    '-' :: (ds.drop 16).take 4 ++ '-' :: ds.drop 20)

theorem hexDigit_inj : ∀ c < 16, ∀ d < 16, hexDigit c = hexDigit d → c = d := by decide

theorem hexDigit_ne_dash : ∀ d < 16, hexDigit d ≠ '-' := by decide

theorem length_hexDigits (n x : ℕ) : (hexDigits n x).length = n := by
  induction n generalizing x with
  | zero => rfl
  | succ n ih => rw [hexDigits, List.length_append, ih, List.length_singleton]

theorem ne_dash_of_mem {n x : ℕ} {c : Char} (h : c ∈ hexDigits n x) : c ≠ '-' := by
  induction n generalizing x with
  | zero => exact absurd h List.not_mem_nil
  | succ n ih =>
    rw [hexDigits, List.mem_append, List.mem_singleton] at h
    rcases h with h | rfl
    · exact ih h
    · exact hexDigit_ne_dash _ (Nat.mod_lt _ (by omega))

/-- Enough digits determine the number. -/
theorem hexDigits_inj {n x y : ℕ} (hx : x < 16 ^ n) (hy : y < 16 ^ n)
    (h : hexDigits n x = hexDigits n y) : x = y := by
  induction n generalizing x y with
  | zero =>
    rw [Nat.pow_zero] at hx hy
    omega
  | succ n ih =>
    rw [hexDigits, hexDigits] at h
    obtain ⟨hhigh, hlow⟩ := List.append_inj h (by rw [length_hexDigits, length_hexDigits])
    rw [Nat.pow_succ] at hx hy
    have h₁ : x / 16 = y / 16 := ih (by omega) (by omega) hhigh
    have h₂ : x % 16 = y % 16 :=
      hexDigit_inj _ (Nat.mod_lt _ (by omega)) _ (Nat.mod_lt _ (by omega)) (List.cons.inj hlow).1
    omega

/-- Without the dashes, the text is the list of all digits. -/
theorem filter_str (u : Uuid) :
    u.str.toList.filter (· ≠ '-') = hexDigits 32 u.bits.toNat := by
  have keep : ∀ l : List Char, (∀ c ∈ l, c ∈ hexDigits 32 u.bits.toNat) →
      l.filter (· ≠ '-') = l := by
    intro l hl
    rw [List.filter_eq_self]
    intro c hc
    exact decide_eq_true (ne_dash_of_mem (hl c hc))
  set ds := hexDigits 32 u.bits.toNat with hds
  have e₁ := keep (ds.take 8) fun c hc => List.mem_of_mem_take hc
  have e₂ := keep ((ds.drop 8).take 4) fun c hc => List.mem_of_mem_drop (List.mem_of_mem_take hc)
  have e₃ := keep ((ds.drop 12).take 4) fun c hc => List.mem_of_mem_drop (List.mem_of_mem_take hc)
  have e₄ := keep ((ds.drop 16).take 4) fun c hc => List.mem_of_mem_drop (List.mem_of_mem_take hc)
  have e₅ := keep (ds.drop 20) fun c hc => List.mem_of_mem_drop hc
  have hdash : ∀ l : List Char, ('-' :: l).filter (· ≠ '-') = l.filter (· ≠ '-') := by
    intro l
    rw [List.filter_cons_of_neg (by simp)]
  rw [str, String.toList_ofList]
  simp only [List.filter_append, hdash, ← hds, e₁, e₂, e₃, e₄, e₅]
  -- glue the groups together again, from the right
  have glue : ∀ a b, (ds.drop b).take a ++ ds.drop (b + a) = ds.drop b := by
    intro a b
    rw [← List.drop_drop, List.take_append_drop]
  simp only [List.append_assoc, glue 4 16, glue 4 12, glue 4 8, List.take_append_drop]

theorem str_injective : Function.Injective str := by
  intro u v h
  have hd : hexDigits 32 u.bits.toNat = hexDigits 32 v.bits.toNat := by
    rw [← filter_str, ← filter_str, h]
  have hn := hexDigits_inj (by simpa using u.bits.isLt) (by simpa using v.bits.isLt) hd
  cases u
  cases v
  exact congrArg Uuid.mk (BitVec.eq_of_toNat_eq hn)

/-- The text of an identifier is one ordinary path component. -/
theorem plain_str (u : Uuid) : Plain u.str := by
  have hlen : 8 < u.str.toList.length := by
    rw [str, String.toList_ofList]
    simp only [List.length_append, List.length_cons, List.length_take, List.length_drop,
      length_hexDigits]
    omega
  refine ⟨?_, ?_, ?_⟩ <;> intro h <;> rw [h] at hlen <;> exact absurd hlen (by decide)

end Uuid

/-! ### Text -/

/-- The characters that `str.strip` removes. -/
def isSpace (c : Char) : Bool :=
  c ∈ [' ', '\t', '\n', '\r', '\x0b', '\x0c', '\x1c', '\x1d', '\x1e', '\x1f', '\u0085',
    '\u00a0', '\u1680', '\u2028', '\u2029', '\u202f', '\u205f', '\u3000'] ∨
    ('\u2000' ≤ c ∧ c ≤ '\u200a')

/-- `text.strip()`. -/
def strip (text : String) : String :=
  String.ofList (((text.toList.dropWhile isSpace).reverse.dropWhile isSpace).reverse)

/-! ### Rows -/

/-- The status of a job. -/
inductive Status
  | created
  | running
  | completed
  | failed
  deriving DecidableEq, Repr

def Status.text : Status → String
  | .created => "CREATED"
  | .running => "RUNNING"
  | .completed => "COMPLETED"
  | .failed => "FAILED"

/-- `TERMINAL_JOB_STATUSES`. -/
def Status.terminal : Status → Bool
  | .completed | .failed => true
  | .created | .running => false

/-- One action of a plan. -/
inductive Action
  | createDirectory (path : String)
  | writeFile (path content : String)
  | runTool (toolName : String) (args : List String)
  | createArtifact (path : String)
  deriving DecidableEq

/-- A row of `jobs`, without its key.  Times are counted in microseconds. -/
structure JobRow where
  parentJobId : Option Uuid
  prompt : String
  status : Status
  actionPlan : Option (List Action)
  updatedAt : ℕ
  deriving DecidableEq

/-- The values of `event_logs.event_type`. -/
inductive EventType
  | system
  | systemEvent
  | cliOutput
  | securityAlert
  deriving DecidableEq

def EventType.text : EventType → String
  | .system => "SYSTEM"
  | .systemEvent => "SYSTEM_EVENT"
  | .cliOutput => "CLI_OUTPUT"
  | .securityAlert => "SECURITY_ALERT"

/-- A row of `event_logs`. -/
structure EventRow where
  id : ℕ
  jobId : Uuid
  eventType : EventType
  message : String
  createdAt : ℕ
  deriving DecidableEq

/-- A row of `artifacts`. -/
structure ArtifactRow where
  id : Uuid
  jobId : Uuid
  relativePath : String
  filename : String
  contentType : String
  deriving DecidableEq

/-- The codes that system events start with. -/
inductive EventCode
  | orchestrationStarted
  | orchestrationCompleted
  | orchestrationFailed
  | orchestrationQueueTimeout
  | staleJobRecovered
  | refinementContextCopied
  | llmAttempt
  | planExecuted
  | timeout
  deriving DecidableEq

def EventCode.text : EventCode → String
  | .orchestrationStarted => "ORCHESTRATION_STARTED"
  | .orchestrationCompleted => "ORCHESTRATION_COMPLETED"
  | .orchestrationFailed => "ORCHESTRATION_FAILED"
  | .orchestrationQueueTimeout => "ORCHESTRATION_QUEUE_TIMEOUT"
  | .staleJobRecovered => "STALE_JOB_RECOVERED"
  | .refinementContextCopied => "REFINEMENT_CONTEXT_COPIED"
  | .llmAttempt => "LLM_ATTEMPT"
  | .planExecuted => "PLAN_EXECUTED"
  | .timeout => "TIMEOUT"

/-- The text of a system event: the code in brackets, then the message. -/
def EventCode.message (code : EventCode) (text : String) : String :=
  "[" ++ code.text ++ "] " ++ text

/-! ### Requests to the language model -/

/-- `LLMRequest`. -/
structure LLMRequest where
  prompt : String
  context : List (String × String)
  allowedActions : List String
  retryFeedback : Option String
  deriving DecidableEq

/-- `LLMRequest.with_retry_feedback`. -/
def LLMRequest.withRetryFeedback (request : LLMRequest) (feedback : String) : LLMRequest :=
  { request with retryFeedback := some feedback }

/-! ### Exceptions -/

/-- The exceptions of the modelled code.  `database` and `os` stand for the
classes below `SQLAlchemyError` and `OSError`, with the name and text of the
one that was raised. -/
inductive Exn
  | cancelled
  | database (name detail : String)
  | os (name detail : String)
  | permission (detail : String)
  | fileNotFound (detail : String)
  | runtime (detail : String)
  | value (detail : String)
  | recursion (detail : String)
  | unicodeDecode (detail : String)
  | queueTimeout (detail : String)
  | llmClient (name message : String) (retryable : Bool)
  | planRetryable (message rawContent : String) (errorPosition : Option String)
  | planValidation (message : String) (statusCode : ℕ) (errorCode : String)
  | cliExecution (message : String) (exitCode : Option ℤ) (stdout stderr : String)
  | cliLaunch (message targetPath : String) (attempts : ℕ)
  | cliTimeout (message : String) (timeoutLimit : String)
  | cliArgument (offendingArg : String)
  | artifactPermission (detail : String)
  | artifactNotFound (detail : String)
  | refinementNotFound (detail : String)
  | refinementConflict (detail : String)
  | refinementContextTooLarge (detail : String)
  deriving DecidableEq

namespace Exn

/-- `except Exception` catches everything but the cancellation of a task. -/
def isException : Exn → Bool
  | .cancelled => false
  | _ => true

/-- `type(exc).__name__`. -/
def typeName : Exn → String
  | .cancelled => "CancelledError"
  | .database name _ | .os name _ | .llmClient name _ _ => name
  | .permission _ => "PermissionError"
  | .fileNotFound _ => "FileNotFoundError"
  | .runtime _ => "RuntimeError"
  | .value _ => "ValueError"
  | .recursion _ => "RecursionError"
  | .unicodeDecode _ => "UnicodeDecodeError"
  | .queueTimeout _ => "OrchestrationQueueTimeoutError"
  | .planRetryable _ _ _ => "LLMPlanRetryableException"
  | .planValidation _ _ _ => "LLMPlanValidationError"
  | .cliExecution _ _ _ _ => "CLIExecutionError"
  | .cliLaunch _ _ _ => "CLIExecutionLaunchError"
  | .cliTimeout _ _ => "CLIExecutionTimeoutError"
  | .cliArgument _ => "CLIArgumentValidationError"
  | .artifactPermission _ => "ArtifactPermissionError"
  | .artifactNotFound _ => "ArtifactNotFoundError"
  | .refinementNotFound _ => "RefinementNotFoundError"
  | .refinementConflict _ => "RefinementConflictError"
  | .refinementContextTooLarge _ => "RefinementContextTooLargeError"

/-- `CLIExecutionError.__str__`. -/
def cliText (message stdout stderr : String) : String :=
  "\n".intercalate ([message] ++
    (if stdout = "" then [] else ["stdout (bounded tail):\n" ++ stdout]) ++
    (if stderr = "" then [] else ["stderr (bounded tail):\n" ++ stderr]))

/-- `str(exc)`, where `repr` is Python's `repr` of a string. -/
def str (repr : String → String) : Exn → String
  | .cancelled => ""
  | .database _ detail | .os _ detail | .permission detail | .fileNotFound detail
  | .runtime detail | .value detail | .recursion detail | .unicodeDecode detail
  | .queueTimeout detail
  | .artifactPermission detail | .artifactNotFound detail | .refinementNotFound detail
  | .refinementConflict detail | .refinementContextTooLarge detail => detail
  | .llmClient _ message _ | .planRetryable message _ _ | .planValidation message _ _
  | .cliLaunch message _ _ | .cliTimeout message _ => message
  | .cliExecution message _ stdout stderr => cliText message stdout stderr
  | .cliArgument arg =>
    "Argument validation failed: unsafe characters detected in argument: " ++ repr arg ++
      ". Only alphanumerics, '.', '/', ':', '_', '-', '=', ',' are permitted."

/-- `isinstance(exc, OSError)`. -/
def isOSError : Exn → Bool
  | .os _ _ | .permission _ | .fileNotFound _ => true
  | _ => false

/-- `isinstance(exc, SQLAlchemyError)`. -/
def isDatabase : Exn → Bool
  | .database _ _ => true
  | _ => false

/-- `isinstance(exc, CLIExecutionError)`: the class itself or one of its two
subclasses. -/
def isCliExecution : Exn → Bool
  | .cliExecution _ _ _ _ | .cliLaunch _ _ _ | .cliTimeout _ _ => true
  | _ => false

end Exn

end CliExecutionPlatform
