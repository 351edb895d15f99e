/-
`JobOrchestratorService` (`orchestrator/service.py`), stale recovery
(`orchestrator/repository.py`) and `JobService` (`jobs/service.py`), and the
system that all of it forms.

A call is one invocation: a run of a job on some server process, a recovery, a
request that creates or refines a job, or a drain left behind by a tool run.
A run is scheduled by the request that created the job, once the job exists and
its workspace is initialised; duplicates of a run are possible at any time
after that.
-/
import CliExecutionPlatform.Planning

open Files Process

namespace CliExecutionPlatform

/-! ### Transactions and file tests with their types -/

def getJob (j : Uuid) : Task (Option JobRecord) := perform (.db (.getJob j))

def recoverOne (cutoff : ℕ) (j : Uuid) : Task Bool := perform (.db (.recoverOne j cutoff))

def insertJob (prompt : String) (parent : Option Uuid) : Task Uuid :=
  perform (.db (.insertJob prompt parent))

def workspaceFileExists (j : Uuid) (filename : String) : Task Bool :=
  perform (.fs (.workspaceFileExists j filename))

def workspaceFileSize (j : Uuid) (filename : String) : Task ℕ :=
  perform (.fs (.workspaceFileSize j filename))

/-! ### Orchestration -/

namespace JobOrchestratorService

variable (parts : Parts) (server : ℕ)

def inheritedFiles : List String := ["model.scad", "design-spec.md"]

def allowedActions : List String :=
  ["CREATE_DIRECTORY", "WRITE_FILE", "RUN_TOOL", "CREATE_ARTIFACT"]

/-- `RETRY_DELAYS_SECONDS`, in milliseconds. -/
def retryDelays : List ℕ := [1000, 2000]

/-- `bytes.decode("utf-8")`. -/
def decodeStrict (data : List UInt8) : Except Exn String :=
  match String.fromUTF8? ⟨data.toArray⟩ with
  | some text => .ok text
  | none => .error (.unicodeDecode "invalid utf-8")

/-- Copy and read the files that a refinement inherits. -/
def inheritFiles (parent j : Uuid) : List String → Task (List (String × String))
  | [] => pure []
  | filename :: rest => do
    perform (.fs (.copyWorkspaceFile parent j filename))
    let data ← perform (.fs (.readFile j filename))
    let text ← Task.ofExcept (decodeStrict data)
    let context ← inheritFiles parent j rest
    pure ((filename, text) :: context)

/-- The context of the request: empty unless the job has a parent. -/
def inheritContext (j : Uuid) : Option Uuid → Task (List (String × String))
  | none => pure []
  | some parent => do
    let context ← inheritFiles parent j inheritedFiles
    perform (.db (.appendEvent j .refinementContextCopied "Parent design context copied."))
    pure context

def onAttempt (j : Uuid) (attempt : ℕ) : Task Unit :=
  perform (.db (.appendEvent j .llmAttempt
    ("LLM plan request attempt " ++ toString attempt ++ ".")))

def executionCb (j : Uuid) (actions : List Action) : Task Unit :=
  ActionExecutor.executeAttempt parts server j actions (perform (.db (.saveActionPlan j actions)))

/-- The generation and execution of the plan of a job. -/
def planAndExecute (j : Uuid) (request : LLMRequest) : Task (List Action) :=
  LLMPlanRetryExecutor.generateActions parts (onAttempt j)
    (SecurityPolicyValidator.validateActions parts j) (executionCb parts server j)
    retryDelays 1 request

@[reducible] def startOp (j : Uuid) : Op :=
  .db (.transition j [.created] .running .orchestrationStarted "Orchestration started.")

def startJob (j : Uuid) : Task Bool := perform (startOp j)

@[reducible] def completeOp (j : Uuid) : Op :=
  .db (.transition j [.running] .completed .orchestrationCompleted "Orchestration completed.")

@[reducible] def queueTimeoutOp (j : Uuid) : Op :=
  .db (.transition j [.created] .failed .orchestrationQueueTimeout
    "Job exceeded the orchestration queue wait limit.")

@[reducible] def failOp (j : Uuid) (e : Exn) : Op :=
  .db (.transition j [.created, .running] .failed .orchestrationFailed
    ("Orchestration failed: " ++ e.typeName ++ ". Detail: " ++ e.str parts.repr))

@[reducible] def planExecutedOp (j : Uuid) : Op :=
  .db (.appendEvent j .planExecuted "Final action plan validated, executed, and persisted.")

/-- The body of the `try` of `_run_in_slot`, once the job has been read. -/
def runRow (j : Uuid) (job : JobRecord) : Task Bool := do
  let context ← inheritContext j job.parentJobId
  let _ ← planAndExecute parts server j ⟨job.prompt, context, allowedActions, none⟩
  perform (planExecutedOp j)
  let _ ← perform (completeOp j)
  pure true

/-- The body of the `try` of `_run_in_slot`. -/
def runBody (j : Uuid) : Task Bool := do
  match ← getJob j with
  | none => throw (.runtime "Job disappeared after orchestration start.")
  | some job => runRow parts server j job

/-- `_run_in_slot`. -/
def runInSlot (j : Uuid) : Task Bool := do
  let started ← startJob j
  if started then
    tryExcept Exn.isException (runBody parts server j) fun e => do
      tryExcept Exn.isException (do let _ ← perform (failOp parts j e); pure ()) fun _ => pure ()
      pure false
  else pure false

/-- `run`. -/
def run (j : Uuid) : Task Bool :=
  tryExcept (fun e => e = queueTimeoutError)
    (do
      perform (.sys (.acquireGate server))
      tryFinally (runInSlot parts server j) (attemptOnly (.sys (.releaseGate server))))
    fun _ => do
      let _ ← perform (queueTimeoutOp j)
      pure false

/-- The loop of `recover_stale`. -/
def recoverAll (cutoff : ℕ) : List Uuid → Task ℕ
  | [] => pure 0
  | j :: rest => do
    let recovered ← recoverOne cutoff j
    let n ← recoverAll cutoff rest
    pure (if recovered then n + 1 else n)

/-- `recover_stale`. -/
def recoverStale (cutoff : ℕ) : Task ℕ := do
  let ids ← perform (.db (.scanStale cutoff))
  recoverAll cutoff ids

end JobOrchestratorService

/-! ### Creating jobs -/

namespace JobService

/-- `MAX_REFINEMENT_CONTEXT_BYTES`. -/
def maxRefinementContextBytes : ℕ := 5 * 1024 * 1024

/-- `create_job`; `refresh` reads the row again. -/
def createJob (prompt : String) (parent : Option Uuid) : Task Uuid := do
  let j ← insertJob prompt parent
  let _ ← getJob j
  perform (.fs (.createWorkspace j))
  perform (.db (.logEvents j [(.system, "Job created and workspace initialized.")]))
  let _ ← getJob j
  pure j

/-- The total size of the files a refinement needs, or what is missing. -/
def contextSize (parent : Uuid) : List String → ℕ → Task ℕ
  | [], total => pure total
  | filename :: rest, total => do
    let present ← workspaceFileExists parent filename
    if present then
      let size ← workspaceFileSize parent filename
      contextSize parent rest (total + size)
    else throw (.refinementConflict ("Required parent file is missing: " ++ filename))

/-- `create_refinement_job`. -/
def createRefinementJob (parent : Uuid) (prompt : String) : Task Uuid := do
  match ← getJob parent with
  | none => throw (.refinementNotFound "Parent Job was not found.")
  | some row =>
    if row.status ≠ .completed then
      throw (.refinementConflict "Parent Job must be COMPLETED.")
    else
      let total ← contextSize parent JobOrchestratorService.inheritedFiles 0
      if maxRefinementContextBytes < total then
        throw (.refinementContextTooLarge "Refinement context exceeds 5MB.")
      else createJob prompt (some parent)

/-- The request handlers: the run is scheduled when the job is ready. -/
def createRequest (prompt : String) : Task Uuid := do
  let j ← createJob prompt none
  perform (.sys (.schedule j))
  pure j

def refineRequest (parent : Uuid) (prompt : String) : Task Uuid := do
  let j ← createRefinementJob parent prompt
  perform (.sys (.schedule j))
  pure j

end JobService

/-! ### The system -/

inductive Call
  | run (server : ℕ) (j : Uuid)
  | recover (cutoff : ℕ)
  | create (prompt : String)
  | refine (parent : Uuid) (prompt : String)
  | orphan (o : Orphan)

/-- What an invocation returns. -/
inductive Reply
  | ran (result : Bool)
  | recovered (count : ℕ)
  | created (j : Uuid)
  | drained

variable (parts : Parts)

def drainOrphan (o : Orphan) : Task Unit := do
  perform (.sys (.takeOrphan o))
  Runner.drainOrphan parts o.job o.chunks ⟨o.buffer, [], false⟩

def Call.body : Call → Task Reply
  | run server j => Reply.ran <$> JobOrchestratorService.run parts server j
  | recover cutoff => Reply.recovered <$> JobOrchestratorService.recoverStale cutoff
  | create prompt => Reply.created <$> JobService.createRequest prompt
  | refine parent prompt => Reply.created <$> JobService.refineRequest parent prompt
  | orphan o => (fun _ => Reply.drained) <$> drainOrphan parts o

def Call.enabled : Call → World → Bool
  | run _ j, w => j ∈ w.scheduled
  | orphan o, w => o ∈ w.orphans
  | recover _, _ | create _, _ | refine _ _, _ => true

/-- The platform: any calls, in any number, interleaved in any way. -/
def platform : System Op Res Env World Call (Except Exn Reply) where
  exec := exec parts.base
  enabled := Call.enabled
  body := fun c => (c.body parts).run

/-- A state of the running platform. -/
abbrev State := Machine Op Res World Call (Except Exn Reply)

/-- The platform before the first request. -/
def start : State := System.initial (World.initial parts.base)

end CliExecutionPlatform
