/-
The operations that each call of the platform can issue.

`Call.ops c` bounds the operations of the call `c`: a run only acts on its own
job and sets the status along four transitions, a recovery only scans and
recovers, a request only creates jobs, and an orphaned drain only logs output.

* `Op.Checked` — what the code has made sure of about the arguments of the
  operations that it issues;
* `body_calls` — every operation that a call issues is one of `Call.ops`, and
  `body_checked` — it is checked.
-/
import CliExecutionPlatform.Orchestrator

open Files Process

namespace CliExecutionPlatform

/-! ### Bounds -/

/-- The pairs of expected statuses and target status that runs use. -/
def statusEdges : List (List Status × Status) :=
  [([.created], .running), ([.running], .completed), ([.created], .failed),
    ([.created, .running], .failed)]

/-- The storage methods that planning and executing job `j` uses. -/
def FsOp.OfJob (j : Uuid) : FsOp → Prop
  | createDirectory k _ | writeFile k _ _ | readFile k _ | saveArtifact k _ | removeCopy k _
  | beginAttempt k | rollbackAttempt k _ | completeAttempt k _ | stage k | copyOut k _ _ => k = j
  | createWorkspace _ | copyWorkspaceFile _ _ _ | workspaceFileExists _ _
  | workspaceFileSize _ _ => False

/-- What a run of job `j` waits for. -/
def SysOp.OfJob (j : Uuid) : SysOp → Prop
  | detach o => o.job = j
  | takeOrphan _ | schedule _ => False
  | _ => True

/-- The operations of planning and executing job `j`. -/
def Working (j : Uuid) : Op → Prop
  | .db (.getJob _) => True
  | .db (.appendEvent k _ _) | .db (.saveActionPlan k _) | .db (.logEvents k _)
  | .db (.flushArtifact k _ _ _) | .db (.commitArtifacts k _) | .db (.rollbackSession k) => k = j
  | .db (.transition _ _ _ _ _) | .db (.scanStale _) | .db (.recoverOne _ _)
  | .db (.insertJob _ _) => False
  | .fs o => o.OfJob j
  | .sys o => o.OfJob j

/-- The operations of a run of job `j` that may inherit files from the jobs in
`P`. -/
def OfJob (j : Uuid) (P : Uuid → Prop) : Op → Prop
  | .db (.transition k expected target _ _) => k = j ∧ (expected, target) ∈ statusEdges
  | .fs (.copyWorkspaceFile source k _) => k = j ∧ P source
  | o => Working j o

/-- The operations of an attempt of job `j`, up to its commit, or to its rollback. -/
def OfAttempt (j : Uuid) : Op → Prop
  | .db (.logEvents k _) | .db (.flushArtifact k _ _ _) | .db (.rollbackSession k) => k = j
  | .db _ => False
  | .fs o => o.OfJob j
  | .sys o => o.OfJob j

/-- The operations while a process of job `j` runs. -/
def OfProcess (j : Uuid) : Op → Prop
  | .db (.logEvents k _) => k = j
  | .db _ | .fs _ => False
  | .sys o => o.OfJob j

section Bounds

variable {j : Uuid} {P : Uuid → Prop} {o : Op}

theorem Working.ofJob (h : Working j o) : OfJob j P o := by
  cases o with
  | db o =>
    cases o with
    | transition k expected target code message => exact absurd h id
    | _ => exact h
  | fs o =>
    cases o with
    | copyWorkspaceFile source k rel => exact absurd h id
    | _ => exact h
  | sys o => exact h

theorem OfAttempt.working (h : OfAttempt j o) : Working j o := by
  cases o with
  | db o =>
    cases o with
    | logEvents k rows => exact h
    | flushArtifact k rel name type => exact h
    | rollbackSession k => exact h
    | _ => exact absurd h id
  | fs o => exact h
  | sys o => exact h

theorem OfProcess.ofAttempt (h : OfProcess j o) : OfAttempt j o := by
  cases o with
  | db o =>
    cases o with
    | logEvents k rows => exact h
    | _ => exact absurd h id
  | fs o => exact absurd h id
  | sys o => exact h

theorem OfJob.mono {Q : Uuid → Prop} (hPQ : ∀ k, P k → Q k) (h : OfJob j P o) : OfJob j Q o := by
  cases o with
  | db o => cases o <;> exact h
  | fs o =>
    cases o with
    | copyWorkspaceFile source k rel => exact ⟨h.1, hPQ source h.2⟩
    | _ => exact h
  | sys o => exact h

end Bounds

/-- The operations of a recovery. -/
def OfRecovery : Op → Prop
  | .db (.scanStale _) | .db (.recoverOne _ _) => True
  | _ => False

/-- The operations of a request that creates a job. -/
def OfRequest : Op → Prop
  | .db (.insertJob _ _) | .db (.getJob _) | .db (.logEvents _ _) => True
  | .fs (.createWorkspace _) | .fs (.workspaceFileExists _ _) | .fs (.workspaceFileSize _ _) =>
    True
  | .sys (.schedule _) => True
  | _ => False

/-- The checks of the files of job `k` before it is refined. -/
def Measures (k : Uuid) : Op → Prop
  | .fs (.workspaceFileExists i _) | .fs (.workspaceFileSize i _) => i = k
  | _ => False

theorem Measures.ofRequest {k : Uuid} {o : Op} (h : Measures k o) : OfRequest o := by
  cases o with
  | fs o => cases o <;> trivial
  | db o => exact absurd h id
  | sys o => exact absurd h id

/-- The operations of an orphaned drain. -/
def OfOrphan (o : Orphan) : Op → Prop
  | .sys (.takeOrphan o') => o' = o
  | .db (.logEvents k _) => k = o.job
  | _ => False

def Call.ops : Call → Op → Prop
  | run _ j => OfJob j fun _ => True
  | recover _ => OfRecovery
  | create _ | refine _ _ => OfRequest
  | orphan o => OfOrphan o

/-! ### Arguments of operations -/

/-- The events that go with a new status. -/
def statusEvents : List (Status × EventCode) :=
  [(.running, .orchestrationStarted), (.completed, .orchestrationCompleted),
    (.failed, .orchestrationQueueTimeout), (.failed, .orchestrationFailed)]

/-- The events that are logged without a new status. -/
def progressEvents : List EventCode := [.refinementContextCopied, .llmAttempt, .planExecuted]

/-- The code that issues the operation has chosen or checked its arguments:
each status has its event, logs of output hold no other system event than the
timeout marker, and a tool is launched with arguments that were validated. -/
def Op.Checked : Op → Prop
  | .db (.transition _ _ target code _) => (target, code) ∈ statusEvents
  | .db (.appendEvent _ code _) => code ∈ progressEvents
  | .db (.logEvents _ rows) => ∀ row ∈ rows, row.1 = .systemEvent →
    ∃ text, row.2 = EventCode.timeout.message text
  | .sys (.launch args staged) => validateArgs args = .ok () ∧
    checkOutput (outputFile args) = .ok () ∧ makeOutputDir staged (outputFile args) = .ok ()
  | _ => True

/-- The operations in `S` with checked arguments. -/
def Within (S : Op → Prop) : Op → Prop := fun o => S o ∧ o.Checked

theorem Within.mono {S T : Op → Prop} (h : ∀ o, S o → T o) (o : Op) (ho : Within S o) :
    Within T o := ⟨h o ho.1, ho.2⟩

/-! ### Programs -/

section Programs

variable {S : Op → Prop} {α β : Type}

theorem calls_op {o : Op} (h : S o) : Calls S (perform o).run := calls_perform h

theorem calls_value (a : α) : Calls S (pure a : Task α).run := calls_ret _

theorem calls_throw (e : Exn) : Calls S (throw e : Task α).run := calls_ret _

theorem calls_ofExcept (r : Except Exn α) : Calls S (Task.ofExcept r).run := calls_ret _

/-- What follows a computation only runs with its value. -/
theorem calls_ofExcept_bind {r : Except Exn α} {f : α → Task β}
    (h : ∀ a, r = .ok a → Calls S (f a).run) : Calls S (Task.ofExcept r >>= f).run := by
  rw [run_bind]
  cases r with
  | ok a => exact h a rfl
  | error e => exact calls_ret _

theorem calls_of_within {p : Prog Op Res α} (h : Calls (Within S) p) : Calls S p :=
  calls_mono (fun _ ho => ho.1) h

theorem calls_attemptOnly {o : Op} (h : S o) : Calls S (attemptOnly o) :=
  calls_bind (calls_perform h) fun _ => calls_ret ()

theorem calls_map {f : α → β} {x : Task α} (h : Calls S x.run) : Calls S (f <$> x).run := by
  have heq : f <$> x = x >>= fun a => pure (f a) := rfl
  rw [heq]
  exact calls_bindE h fun _ => calls_ret _

variable {parts : Parts} {server : ℕ} {j : Uuid}

/-- An event of a run that goes without a new status. -/
theorem progress_calls {code : EventCode} {message : String}
    (h : S (.db (.appendEvent j code message))) (hcode : code ∈ progressEvents) :
    Calls (Within S) (perform (.db (.appendEvent j code message))).run :=
  calls_op ⟨h, hcode⟩

/-- A new status of a run, with its event. -/
theorem transition_calls {P : Uuid → Prop} {expected : List Status} {target : Status}
    {code : EventCode} {message : String} (hedge : (expected, target) ∈ statusEdges)
    (hcode : (target, code) ∈ statusEvents) :
    Calls (Within (OfJob j P)) (perform (.db (.transition j expected target code message))).run :=
  calls_op ⟨⟨rfl, hedge⟩, hcode⟩

theorem persist_calls (h : ∀ lines, S (.db (.logEvents j (Drain.records lines))))
    (lines : List String) : Calls S (Runner.persist j lines).run := by
  rw [Runner.persist]
  by_cases hr : Drain.records lines = []
  · rw [if_pos hr]
    exact calls_value ()
  · rw [if_neg hr]
    exact calls_op (h _)

/-- The lines of a tool are no system events. -/
theorem records_checked (lines : List String) :
    (Op.db (.logEvents j (Drain.records lines))).Checked := by
  intro row hrow hsystem
  obtain ⟨line, -, rfl⟩ := List.mem_map.mp hrow
  exact absurd hsystem (by simp)

theorem collect_calls (arrivals : List (Stream × List UInt8)) (ds : Stream → Drain) :
    Calls (Within (OfProcess j)) (Runner.collect parts j arrivals ds).run := by
  induction arrivals generalizing ds with
  | nil => exact calls_value ds
  | cons a rest ih =>
    refine calls_bindE ?_ fun ds' => ih ds'
    refine calls_bindE (calls_tryExcept (persist_calls (fun _ => ⟨rfl, records_checked _⟩) _)
      fun e => ?_) fun _ => calls_value _
    by_cases hf : (ds a.1.other).finished
    · rw [if_pos hf]
      exact calls_throw e
    · rw [if_neg hf]
      exact calls_bindE (calls_op (o := .sys (.detach _)) ⟨rfl, trivial⟩) fun _ => calls_throw e

theorem drainOrphan_calls (h : ∀ lines, S (.db (.logEvents j (Drain.records lines))))
    (chunks : List (List UInt8)) (d : Drain) :
    Calls S (Runner.drainOrphan parts j chunks d).run := by
  induction chunks generalizing d with
  | nil => exact persist_calls h _
  | cons chunk rest ih => exact calls_bindE (persist_calls h _) fun _ => ih _

theorem launchWithRetry_calls {args : List String} {staged : Staged}
    (hlaunch : S (.sys (.launch args staged))) (hsleep : ∀ ms, S (.sys (.sleep ms))) (n : ℕ) :
    Calls S (Runner.launchWithRetry parts args staged n).run := by
  induction n with
  | zero => exact calls_tryExcept (calls_op hlaunch) fun e => calls_throw _
  | succ n ih =>
    exact calls_tryExcept (calls_op hlaunch) fun _ =>
      calls_bindE (calls_op (hsleep 500)) fun _ => ih

theorem awaitProcess_calls (pid : ℕ) (b : Behaviour) :
    Calls (Within (OfProcess j)) (Runner.awaitProcess parts j pid b).run := by
  have hmarker : ∀ text, (Op.db (.logEvents j
      [(.systemEvent, EventCode.timeout.message text)])).Checked := by
    intro text row hrow _
    rw [List.mem_singleton.mp hrow]
    exact ⟨text, rfl⟩
  refine calls_bindE (collect_calls _ _) fun ds => ?_
  rcases b.ending with code | _ | _
  · exact calls_bindE (calls_op (o := .sys (.waitProcess _ _)) ⟨trivial, trivial⟩)
      fun _ => calls_value _
  · exact calls_bindE (calls_op (o := .sys (.killProcess _)) ⟨trivial, trivial⟩) fun _ =>
      calls_bindE (calls_op (o := .sys (.waitProcess _ _)) ⟨trivial, trivial⟩) fun _ =>
      calls_bindE (calls_op (o := .db (.logEvents _ _)) ⟨rfl, hmarker _⟩) fun _ => calls_throw _
  · exact calls_throw _

theorem copyOutAll_calls (output : Option String) (files : List TmpFile) :
    Calls (Within (OfAttempt j)) (Runner.copyOutAll j output files).run := by
  induction files with
  | nil => exact calls_value ()
  | cons f rest ih =>
    exact calls_bindE (calls_op (o := .fs (.copyOut _ _ _)) ⟨rfl, trivial⟩) fun _ => ih

theorem runTool_calls (args : List String) :
    Calls (Within (OfAttempt j)) (Runner.runTool parts server j args).run := by
  have process : ∀ {α : Type} {p : Prog Op Res α}, Calls (Within (OfProcess j)) p →
      Calls (Within (OfAttempt j)) p := calls_mono (Within.mono fun _ => OfProcess.ofAttempt)
  refine calls_ofExcept_bind fun _ hvalid =>
    calls_bindE (calls_op (o := .sys (.acquireCli _)) ⟨trivial, trivial⟩) fun _ =>
      calls_tryFinally ?_ (calls_attemptOnly (o := .sys (.releaseCli _)) ⟨trivial, trivial⟩)
  refine calls_bindE (calls_op (o := .fs (.stage _)) ⟨rfl, trivial⟩) fun staged =>
    calls_ofExcept_bind fun _ hout => calls_ofExcept_bind fun _ hdir =>
      calls_bindE (launchWithRetry_calls ⟨trivial, hvalid, hout, hdir⟩
        (fun _ => ⟨trivial, trivial⟩) _) fun _ =>
        calls_bindE (process (awaitProcess_calls _ _)) fun exit => ?_
  by_cases hc : exit.code ≠ 0
  · rw [if_pos hc]
    exact calls_throw _
  · rw [if_neg hc]
    exact calls_bindE (copyOutAll_calls _ _) fun _ => calls_value _

theorem executeAction_calls (a : Action) :
    Calls (Within (OfAttempt j)) (ActionExecutor.executeAction parts server j a).run := by
  cases a with
  | createDirectory path => exact calls_op (o := .fs (.createDirectory _ _)) ⟨rfl, trivial⟩
  | writeFile path content => exact calls_op (o := .fs (.writeFile _ _ _)) ⟨rfl, trivial⟩
  | runTool name args => exact calls_bindE (runTool_calls args) fun _ => calls_value ()
  | createArtifact path => exact calls_throw _

theorem executeActions_calls (actions : List Action) :
    Calls (Within (OfAttempt j)) (ActionExecutor.executeActions parts server j actions).run := by
  induction actions with
  | nil => exact calls_value ()
  | cons a rest ih =>
    cases a with
    | createArtifact path => exact ih
    | createDirectory path => exact calls_bindE (executeAction_calls _) fun _ => ih
    | writeFile path content => exact calls_bindE (executeAction_calls _) fun _ => ih
    | runTool name args => exact calls_bindE (executeAction_calls _) fun _ => ih

theorem registerArtifact_calls (path : String) :
    Calls (Within (OfAttempt j)) (ArtifactService.registerArtifact parts j path).run :=
  calls_bindE (calls_ofExcept _) fun _ =>
    calls_op (o := .db (.flushArtifact _ _ _ _)) ⟨rfl, trivial⟩

theorem promote_calls (paths copied : List String) (drafts : List ArtifactDraft) :
    Calls (Within (OfAttempt j)) (ActionExecutor.promote parts j paths copied drafts) := by
  induction paths generalizing copied drafts with
  | nil => exact calls_ret _
  | cons path rest ih =>
    refine calls_bind (calls_op (o := .fs (.saveArtifact _ _)) ⟨rfl, trivial⟩) fun r => ?_
    cases r with
    | error e => exact calls_ret _
    | ok u =>
      refine calls_bind (registerArtifact_calls path) fun r => ?_
      cases r with
      | error e => exact calls_ret _
      | ok draft => exact ih _ _

theorem cleanUp_calls (paths : List String) :
    Calls (Within (OfAttempt j)) (ActionExecutor.cleanUp j paths) := by
  induction paths with
  | nil => exact calls_ret _
  | cons path rest ih =>
    exact calls_bind (calls_attemptOnly (o := .fs (.removeCopy _ _)) ⟨rfl, trivial⟩) fun _ => ih

theorem rollback_calls (left : ActionExecutor.Unfinished) :
    Calls (Within (OfAttempt j)) (ActionExecutor.rollback j left).run := by
  rw [ActionExecutor.rollback]
  by_cases hopen : left.inTransaction
  · rw [if_pos hopen]
    exact calls_op (o := .db (.rollbackSession _)) ⟨rfl, trivial⟩
  · rw [if_neg hopen]
    exact calls_value ()

theorem conclude_calls (token : String) (r : ActionExecutor.Unfinished × Except Exn Unit) :
    Calls (Within (OfAttempt j)) (ActionExecutor.conclude j token r).run := by
  obtain ⟨left, r⟩ := r
  cases r with
  | ok u => exact calls_op (o := .fs (.completeAttempt _ _)) ⟨rfl, trivial⟩
  | error e =>
    show Calls _ (ExceptT.run (if e.isException then _ else _))
    by_cases he : e.isException
    · rw [if_pos he]
      refine calls_bindE (rollback_calls left) fun _ => ?_
      exact calls_bind (cleanUp_calls left.copied) fun _ =>
        calls_bindE (calls_op (o := .fs (.rollbackAttempt _ _)) ⟨rfl, trivial⟩) fun _ =>
          calls_throw e
    · rw [if_neg he]
      exact calls_throw e

theorem body_attempt_calls (actions : List Action) {onSuccess : Task Unit}
    (h : Calls (Within (Working j)) onSuccess.run) :
    Calls (Within (Working j)) (ActionExecutor.body parts server j actions onSuccess) := by
  refine calls_bind (calls_mono (Within.mono fun _ => OfAttempt.working)
    (executeActions_calls actions)) fun r => ?_
  cases r with
  | error e => exact calls_ret _
  | ok u =>
    refine calls_bind (calls_mono (Within.mono fun _ => OfAttempt.working)
      (promote_calls _ _ _)) fun r => ?_
    obtain ⟨left, r⟩ := r
    cases r with
    | error e => exact calls_ret _
    | ok drafts =>
      exact calls_bind (calls_bindE (calls_op (o := .db (.commitArtifacts _ _)) ⟨rfl, trivial⟩)
        fun _ => h) fun _ => calls_ret _

theorem executeAttempt_calls (actions : List Action) {onSuccess : Task Unit}
    (h : Calls (Within (Working j)) onSuccess.run) :
    Calls (Within (Working j))
      (ActionExecutor.executeAttempt parts server j actions onSuccess).run :=
  calls_bindE (calls_op (o := .fs (.beginAttempt _)) ⟨rfl, trivial⟩) fun token =>
    calls_bind (body_attempt_calls actions h) fun r =>
      calls_mono (Within.mono fun _ => OfAttempt.working) (conclude_calls token r)

theorem validateActions_calls (actions : List Action) :
    Calls (Within (OfProcess j)) (SecurityPolicyValidator.validateActions parts j actions).run := by
  induction actions with
  | nil => exact calls_value ()
  | cons a rest ih =>
    refine calls_bindE ?_ fun _ => ih
    rw [SecurityPolicyValidator.validateAction]
    rcases SecurityPolicyValidator.policyViolation parts.base j a with e | _ | message
    · exact calls_throw e
    · exact calls_ofExcept _
    · exact calls_bindE (calls_op (o := .db (.logEvents _ _)) ⟨rfl, by simp [Op.Checked]⟩)
        fun _ => calls_throw _

theorem oneAttempt_calls (request : LLMRequest) :
    Calls (Within (Working j)) (LLMPlanRetryExecutor.oneAttempt parts
      (SecurityPolicyValidator.validateActions parts j)
      (JobOrchestratorService.executionCb parts server j) request).run :=
  calls_bindE (calls_op (o := .sys (.generatePlan _)) ⟨trivial, trivial⟩) fun _ =>
    calls_bindE (calls_ofExcept _) fun _ =>
    calls_bindE (calls_mono (Within.mono fun _ h => h.ofAttempt.working)
      (validateActions_calls _)) fun _ =>
    calls_bindE (executeAttempt_calls _
      (calls_op (o := .db (.saveActionPlan _ _)) ⟨rfl, trivial⟩)) fun _ =>
    calls_value _

theorem generateActions_calls (delays : List ℕ) (attempt : ℕ) (request : LLMRequest) :
    Calls (Within (Working j)) (LLMPlanRetryExecutor.generateActions parts
      (JobOrchestratorService.onAttempt j) (SecurityPolicyValidator.validateActions parts j)
      (JobOrchestratorService.executionCb parts server j) delays attempt request).run := by
  induction delays generalizing attempt request with
  | nil =>
    exact calls_bindE (progress_calls rfl (by simp [progressEvents])) fun _ => oneAttempt_calls _
  | cons delay delays ih =>
    exact calls_bindE (progress_calls rfl (by simp [progressEvents])) fun _ =>
      calls_tryExcept (oneAttempt_calls _) fun _ =>
        calls_bindE (calls_op (o := .sys (.sleep _)) ⟨trivial, trivial⟩) fun _ => ih _ _

theorem inheritFiles_calls (parent : Uuid) (filenames : List String) :
    Calls (Within (OfJob j fun k => k = parent))
      (JobOrchestratorService.inheritFiles parent j filenames).run := by
  induction filenames with
  | nil => exact calls_value _
  | cons filename rest ih =>
    exact calls_bindE (calls_op (o := .fs (.copyWorkspaceFile _ _ _)) ⟨⟨rfl, rfl⟩, trivial⟩)
      fun _ => calls_bindE (calls_op (o := .fs (.readFile _ _)) ⟨rfl, trivial⟩) fun _ =>
      calls_bindE (calls_ofExcept _) fun _ => calls_bindE ih fun _ => calls_value _

theorem inheritContext_calls (parent : Option Uuid) :
    Calls (Within (OfJob j fun k => parent = some k))
      (JobOrchestratorService.inheritContext j parent).run := by
  cases parent with
  | none => exact calls_value _
  | some parent =>
    refine calls_bindE (calls_mono (Within.mono fun _ => OfJob.mono ?_)
      (inheritFiles_calls parent _)) fun _ =>
      calls_bindE (progress_calls rfl (by simp [progressEvents])) fun _ => calls_value _
    exact fun k hk => congrArg some hk.symm

/-- What a run does after it has read its row: files are inherited from the
parent only. -/
theorem runRow_calls (job : JobRecord) :
    Calls (Within (OfJob j fun k => job.parentJobId = some k))
      (JobOrchestratorService.runRow parts server j job).run :=
  calls_bindE (inheritContext_calls _) fun _ =>
    calls_bindE (calls_mono (Within.mono fun _ => Working.ofJob)
      (generateActions_calls _ _ _)) fun _ =>
    calls_bindE (progress_calls rfl (by simp [progressEvents])) fun _ =>
    calls_bindE (transition_calls (by decide) (by simp [statusEvents])) fun _ =>
    calls_value _

theorem runBody_calls :
    Calls (Within (OfJob j fun _ => True)) (JobOrchestratorService.runBody parts server j).run := by
  refine calls_bindE (calls_op (o := .db (.getJob _)) ⟨trivial, trivial⟩) fun row => ?_
  cases row with
  | none => exact calls_throw _
  | some job =>
    exact calls_mono (Within.mono fun _ => OfJob.mono fun _ _ => trivial) (runRow_calls job)

theorem runInSlot_calls :
    Calls (Within (OfJob j fun _ => True))
      (JobOrchestratorService.runInSlot parts server j).run := by
  refine calls_bindE (transition_calls (by decide) (by simp [statusEvents])) fun started => ?_
  cases started with
  | false => exact calls_value _
  | true =>
    exact calls_tryExcept runBody_calls fun e => calls_bindE (calls_tryExcept
      (calls_bindE (transition_calls (by decide) (by simp [statusEvents])) fun _ =>
        calls_value _) fun _ => calls_value _) fun _ => calls_value _

theorem run_calls :
    Calls (Within (OfJob j fun _ => True)) (JobOrchestratorService.run parts server j).run :=
  calls_tryExcept (calls_bindE (calls_op (o := .sys (.acquireGate _)) ⟨trivial, trivial⟩) fun _ =>
      calls_tryFinally runInSlot_calls
        (calls_attemptOnly (o := .sys (.releaseGate _)) ⟨trivial, trivial⟩))
    fun _ => calls_bindE (transition_calls (by decide) (by simp [statusEvents])) fun _ =>
      calls_value _

theorem recoverStale_calls (cutoff : ℕ) :
    Calls (Within OfRecovery) (JobOrchestratorService.recoverStale cutoff).run := by
  refine calls_bindE (calls_op (o := .db (.scanStale _)) ⟨trivial, trivial⟩) fun ids => ?_
  show Calls (Within OfRecovery) (JobOrchestratorService.recoverAll cutoff ids).run
  induction ids with
  | nil => exact calls_value _
  | cons j rest ih =>
    exact calls_bindE (calls_op (o := .db (.recoverOne _ _)) ⟨trivial, trivial⟩) fun _ =>
      calls_bindE ih fun _ => calls_value _

theorem createJob_calls (prompt : String) (parent : Option Uuid) :
    Calls (Within OfRequest) (JobService.createJob prompt parent).run :=
  calls_bindE (calls_op (o := .db (.insertJob _ _)) ⟨trivial, trivial⟩) fun _ =>
    calls_bindE (calls_op (o := .db (.getJob _)) ⟨trivial, trivial⟩) fun _ =>
    calls_bindE (calls_op (o := .fs (.createWorkspace _)) ⟨trivial, trivial⟩) fun _ =>
    calls_bindE (calls_op (o := .db (.logEvents _ _)) ⟨trivial, by simp [Op.Checked]⟩) fun _ =>
    calls_bindE (calls_op (o := .db (.getJob _)) ⟨trivial, trivial⟩) fun _ => calls_value _

theorem contextSize_calls (parent : Uuid) (filenames : List String) (total : ℕ) :
    Calls (Within (Measures parent)) (JobService.contextSize parent filenames total).run := by
  induction filenames generalizing total with
  | nil => exact calls_value _
  | cons filename rest ih =>
    refine calls_bindE (calls_op (o := .fs (.workspaceFileExists _ _)) ⟨rfl, trivial⟩)
      fun present => ?_
    cases present with
    | false => exact calls_throw _
    | true =>
      exact calls_bindE (calls_op (o := .fs (.workspaceFileSize _ _)) ⟨rfl, trivial⟩) fun _ => ih _

theorem createRefinementJob_calls (parent : Uuid) (prompt : String) :
    Calls (Within OfRequest) (JobService.createRefinementJob parent prompt).run := by
  refine calls_bindE (calls_op (o := .db (.getJob _)) ⟨trivial, trivial⟩) fun row => ?_
  cases row with
  | none => exact calls_throw _
  | some row =>
    show Calls (Within OfRequest) (ExceptT.run (if row.status ≠ .completed then _ else _))
    by_cases hs : row.status ≠ .completed
    · rw [if_pos hs]
      exact calls_throw _
    · rw [if_neg hs]
      refine calls_bindE
        (calls_mono (Within.mono fun _ => Measures.ofRequest) (contextSize_calls _ _ _))
        fun total => ?_
      by_cases ht : JobService.maxRefinementContextBytes < total
      · rw [if_pos ht]
        exact calls_throw _
      · rw [if_neg ht]
        exact createJob_calls _ _

theorem body_within (parts : Parts) (c : Call) :
    Calls (Within c.ops) ((platform parts).body c) := by
  have scheduled : ∀ {x : Task Uuid}, Calls (Within OfRequest) x.run →
      Calls (Within OfRequest)
        (x >>= fun j => do perform (.sys (.schedule j)); pure j : Task Uuid).run :=
    fun h => calls_bindE h fun _ =>
      calls_bindE (calls_op (o := .sys (.schedule _)) ⟨trivial, trivial⟩) fun _ => calls_value _
  cases c with
  | run server j => exact calls_map run_calls
  | recover cutoff => exact calls_map (recoverStale_calls cutoff)
  | create prompt => exact calls_map (scheduled (createJob_calls prompt none))
  | refine parent prompt => exact calls_map (scheduled (createRefinementJob_calls parent prompt))
  | orphan o =>
    exact calls_map (calls_bindE (calls_op (o := .sys (.takeOrphan _)) ⟨rfl, trivial⟩) fun _ =>
      drainOrphan_calls (fun _ => ⟨rfl, records_checked _⟩) _ _)

/-- **Every operation that a call issues is one of its `Call.ops`.** -/
theorem body_calls (parts : Parts) (c : Call) : Calls c.ops ((platform parts).body c) :=
  calls_of_within (body_within parts c)

/-- **Every operation that a call issues is checked.** -/
theorem body_checked (parts : Parts) (c : Call) : Calls Op.Checked ((platform parts).body c) :=
  calls_mono (fun _ h => h.2) (body_within parts c)

end Programs

end CliExecutionPlatform
