/-
The course of a run, for any protocol.

`_run_in_slot` is a fixed frame around one part that varies: the execution of plans
that the policy has accepted.  The rules here go once through the frame.  To show that
runs keep to the phases `I` of a protocol, it is enough to look at the operations of the
frame and at the attempts, in an attempt at the execution of an accepted plan, and there
at the single actions.

* `Op.Frames` — the operations of the frame; `Op.Brackets` — those that every attempt
  issues around its actions;
* `Op.RunsTool`, `executeWithTimeout_calls` — those of a tool run that has its slot;
* `executionCb_preserves` — the execution of a plan, from its actions;
  `oneAttempt_preserves_of` — an attempt, from the execution of accepted plans;
* **`runInSlot_preserves_of`** — a run, from its attempts.
-/
import CliExecutionPlatform.PathPolicies
import CliExecutionPlatform.Protocol

open Files Process

namespace CliExecutionPlatform

open JobOrchestratorService (onAttempt executionCb inheritFiles inheritContext runRow)

/-- The operations of a run of job `j` outside the execution of plans, besides its
transitions. -/
def Op.Frames (j : Uuid) : Op → Prop
  | .db (.getJob k) | .db (.appendEvent k _ _) | .db (.logEvents k _) => k = j
  | .fs (.copyWorkspaceFile _ k _) | .fs (.readFile k _) => k = j
  | .sys (.generatePlan _) | .sys (.sleep _) => True
  | _ => False

/-- The operations around the actions of an attempt of job `j`. -/
def Op.Brackets (j : Uuid) : Op → Prop
  | .fs (.beginAttempt k) | .fs (.rollbackAttempt k _) | .fs (.completeAttempt k _)
  | .fs (.removeCopy k _) | .db (.rollbackSession k) => k = j
  | _ => False

/-- The operations that promote one artifact of job `j`. -/
def Op.Promotes (j : Uuid) (path : String) : Op → Prop
  | .fs (.saveArtifact k p) => k = j ∧ p = path
  | .db (.flushArtifact k p _ _) => k = j ∧ p = path
  | _ => False

/-- The operations of a tool run of job `j` between taking its slot and giving it back. -/
def Op.RunsTool (j : Uuid) (args : List String) : Op → Prop
  | .db (.logEvents k _) | .fs (.stage k) => k = j
  | .fs (.copyOut k output _) => k = j ∧ output = outputFile args
  | .sys (.launch args' _) => args' = args
  | .sys (.sleep _) | .sys (.killProcess _) | .sys (.waitProcess _ _)
  | .sys (.detach _) => True
  | _ => False

theorem executeWithTimeout_calls (parts : Parts) (j : Uuid) (args : List String) :
    Calls (Op.RunsTool j args) (Runner.executeWithTimeout parts j args).run := by
  have hcollect : ∀ arrivals ds,
      Calls (Op.RunsTool j args) (Runner.collect parts j arrivals ds).run := by
    intro arrivals
    induction arrivals with
    | nil => exact fun ds => calls_value ds
    | cons a rest ih =>
      intro ds
      refine calls_bindE ?_ fun ds' => ih ds'
      refine calls_bindE (calls_tryExcept (persist_calls (fun _ => rfl) _) fun e => ?_)
        fun _ => calls_value _
      by_cases hf : (ds a.1.other).finished
      · rw [if_pos hf]
        exact calls_throw e
      · rw [if_neg hf]
        exact calls_bindE (calls_op (o := .sys (.detach _)) trivial) fun _ => calls_throw e
  have hcopy : ∀ files,
      Calls (Op.RunsTool j args) (Runner.copyOutAll j (outputFile args) files).run := by
    intro files
    induction files with
    | nil => exact calls_value ()
    | cons f rest ih =>
      exact calls_bindE (calls_op (o := .fs (.copyOut _ _ _)) ⟨rfl, rfl⟩) fun _ => ih
  refine calls_bindE (calls_op (o := .fs (.stage _)) rfl) fun staged => ?_
  refine calls_bindE (calls_ofExcept _) fun _ => calls_bindE (calls_ofExcept _) fun _ => ?_
  refine calls_bindE (launchWithRetry_calls (S := Op.RunsTool j args) rfl (fun _ => trivial) 2)
    fun process => ?_
  refine calls_bindE (calls_bindE (hcollect _ _) fun ds => ?_) fun exit => ?_
  · rcases process.2.ending with code | _ | _
    · exact calls_bindE (calls_op (o := .sys (.waitProcess _ _)) trivial) fun _ => calls_value _
    · exact calls_bindE (calls_op (o := .sys (.killProcess _)) trivial) fun _ =>
        calls_bindE (calls_op (o := .sys (.waitProcess _ _)) trivial) fun _ =>
        calls_bindE (calls_op (o := .db (.logEvents _ _)) rfl) fun _ => calls_throw _
    · exact calls_throw _
  · by_cases hc : exit.code ≠ 0
    · rw [if_pos hc]
      exact calls_throw _
    · rw [if_neg hc]
      exact calls_bindE (hcopy _) fun _ => calls_value _

section Walk

variable {Q : Type} {P : Protocol Op Res Q} {I : Q → Prop} {parts : Parts} {server : ℕ} {j : Uuid}

/-! ### The execution of a plan -/

section Attempt

variable {actions : List Action}

theorem executeActions_preserves_of
    (hact : ∀ a ∈ actions, Preserves P I (ActionExecutor.executeAction parts server j a).run) :
    Preserves P I (ActionExecutor.executeActions parts server j actions).run := by
  induction actions with
  | nil => exact preserves_ret _
  | cons a rest ih =>
    have hrest := ih fun b hb => hact b (List.mem_cons_of_mem _ hb)
    cases a with
    | createArtifact path => exact hrest
    | createDirectory path => exact preserves_bindE (hact _ List.mem_cons_self) fun _ => hrest
    | writeFile path content => exact preserves_bindE (hact _ List.mem_cons_self) fun _ => hrest
    | runTool name args => exact preserves_bindE (hact _ List.mem_cons_self) fun _ => hrest

theorem mem_artifactPaths {path : String} (h : path ∈ ActionExecutor.artifactPaths actions) :
    .createArtifact path ∈ actions := by
  induction actions with
  | nil => exact absurd h List.not_mem_nil
  | cons a rest ih =>
    cases a with
    | createArtifact p =>
      rcases List.mem_cons.mp h with rfl | h
      · exact List.mem_cons_self
      · exact List.mem_cons_of_mem _ (ih h)
    | _ => exact List.mem_cons_of_mem _ (ih h)

theorem promote_preserves_of {paths copied : List String} {drafts : List ArtifactDraft}
    (hpromote : ∀ path ∈ paths, ∀ o : Op, o.Promotes j path → Preserves P I (perform o).run) :
    Preserves P I (ActionExecutor.promote parts j paths copied drafts) := by
  induction paths generalizing copied drafts with
  | nil => exact preserves_ret _
  | cons path rest ih =>
    have hpath := hpromote path List.mem_cons_self
    refine preserves_bind (hpath (.fs (.saveArtifact j path)) ⟨rfl, rfl⟩) fun r => ?_
    cases r with
    | error e => exact preserves_ret _
    | ok u =>
      have hflush := hpath (.db (.flushArtifact j path (baseName path)
        (ArtifactService.contentType parts (baseName path)))) ⟨rfl, rfl⟩
      refine preserves_bind (preserves_bindE (preserves_ret _) fun _ => hflush) fun r => ?_
      cases r with
      | error e => exact preserves_ret _
      | ok draft => exact ih fun p hp => hpromote p (List.mem_cons_of_mem _ hp)

variable (hbracket : ∀ o : Op, o.Brackets j → Preserves P I (perform o).run)

include hbracket

theorem attemptOnly_preserves_of {o : Op} (ho : o.Brackets j) : Preserves P I (attemptOnly o) :=
  preserves_bind (hbracket o ho) fun _ => preserves_ret _

theorem rollback_preserves_of (left : ActionExecutor.Unfinished) :
    Preserves P I (ActionExecutor.rollback j left).run := by
  rw [ActionExecutor.rollback]
  by_cases hopen : left.inTransaction
  · rw [if_pos hopen]
    exact hbracket (.db (.rollbackSession j)) rfl
  · rw [if_neg hopen]
    exact preserves_ret _

theorem conclude_preserves_of (token : String)
    (r : ActionExecutor.Unfinished × Except Exn Unit) :
    Preserves P I (ActionExecutor.conclude j token r).run := by
  have hclean : ∀ copied, Preserves P I (ActionExecutor.cleanUp j copied) := by
    intro copied
    induction copied with
    | nil => exact preserves_ret _
    | cons path rest ih =>
      have hremove : (Op.fs (.removeCopy j path)).Brackets j := rfl
      exact preserves_bind (attemptOnly_preserves_of hbracket hremove) fun _ => ih
  obtain ⟨left, r⟩ := r
  cases r with
  | ok u => exact hbracket (.fs (.completeAttempt j token)) rfl
  | error e =>
    show Preserves P I (ExceptT.run (if e.isException then _ else _))
    by_cases he : e.isException
    · rw [if_pos he]
      refine preserves_bindE (rollback_preserves_of hbracket left) fun _ => ?_
      refine preserves_bind (hclean left.copied) fun _ => ?_
      exact preserves_bindE (hbracket (.fs (.rollbackAttempt j token)) rfl) fun _ => preserves_ret _
    · rw [if_neg he]
      exact preserves_ret _

/-- The execution of a plan keeps to `I` if its actions, its promotions, the commit and the
saving of the plan do.  The commit may rely on what the promotions say about the drafts. -/
theorem executionCb_preserves_of {D : List ArtifactDraft → Q → Prop}
    (hact : ∀ a ∈ actions, Preserves P I (ActionExecutor.executeAction parts server j a).run)
    (hpromote : ∀ q, I q → Obeys P (fun r q' => I q' ∧ ∀ drafts, r.2 = .ok drafts → D drafts q')
      (ActionExecutor.promote parts j (ActionExecutor.artifactPaths actions) [] []) q)
    (hcommit : ∀ drafts q, I q → D drafts q →
      Obeys P (fun _ => I) (perform (.db (.commitArtifacts j drafts))).run q)
    (hsave : Preserves P I (perform (.db (.saveActionPlan j actions))).run) :
    Preserves P I (executionCb parts server j actions).run := by
  refine preserves_bindE (hbracket (.fs (.beginAttempt j)) rfl) fun token => ?_
  refine preserves_bind ?_ fun r => conclude_preserves_of hbracket token r
  refine preserves_bind (executeActions_preserves_of hact) fun r => ?_
  cases r with
  | error e => exact preserves_ret _
  | ok u =>
    intro q hq
    refine obeys_bind (hpromote q hq) fun r q' hr => ?_
    obtain ⟨left, r⟩ := r
    cases r with
    | error e => exact obeys_ret hr.1
    | ok drafts =>
      refine obeys_bind ?_ fun _ _ hq' => obeys_ret hq'
      exact obeys_bindE (hcommit drafts q' hr.1 (hr.2 drafts rfl))
        (fun _ q'' hq'' => hsave q'' hq'') fun _ _ hq'' => hq''

theorem executionCb_preserves
    (hact : ∀ a ∈ actions, Preserves P I (ActionExecutor.executeAction parts server j a).run)
    (hpromote : ∀ path, .createArtifact path ∈ actions →
      ∀ o : Op, o.Promotes j path → Preserves P I (perform o).run)
    (hcommit : ∀ drafts, Preserves P I (perform (.db (.commitArtifacts j drafts))).run)
    (hsave : Preserves P I (perform (.db (.saveActionPlan j actions))).run) :
    Preserves P I (executionCb parts server j actions).run := by
  refine executionCb_preserves_of (D := fun _ _ => True) hbracket hact (fun q hq => ?_)
    (fun drafts q hq _ => hcommit drafts q hq) hsave
  exact (promote_preserves_of (fun path hpath => hpromote path (mem_artifactPaths hpath)) q hq).mono
    fun _ _ hq' => ⟨hq', fun _ _ => trivial⟩

end Attempt

/-! ### A run -/

/-- The validator only returns for plans that it accepts. -/
theorem validateActions_returns (actions : List Action) :
    Returns (fun r => ∀ u, r = .ok u → Accepted parts j actions)
      (SecurityPolicyValidator.validateActions parts j actions).run := by
  have hnone : ∀ {r : Except Exn Unit} {e : Exn} {p : Prop}, r = .error e →
      ∀ u, r = .ok u → p := fun he u hu => absurd (he.symm.trans hu) (by simp)
  simp only [Accepted, SecurityPolicyValidator.validateActions_eq]
  induction actions with
  | nil => exact fun _ _ => rfl
  | cons a rest ih =>
    rcases hp : SecurityPolicyValidator.policyViolation parts.base j a with e | _ | message
    · rw [SecurityPolicyValidator.auditActions_raised hp]
      exact hnone rfl
    · rcases hc : SecurityPolicyValidator.contentCheck parts a with e | ⟨⟩
      · rw [SecurityPolicyValidator.auditActions_refused hp hc]
        exact hnone rfl
      · rw [SecurityPolicyValidator.auditActions_passed hp hc]
        exact ih
    · rw [SecurityPolicyValidator.auditActions_violation hp]
      intro r
      cases r with
      | error e => exact hnone rfl
      | ok v => exact hnone rfl

theorem validateActions_preserves_of
    (hlog : ∀ rows, Preserves P I (perform (.db (.logEvents j rows))).run)
    (actions : List Action) :
    Preserves P I (SecurityPolicyValidator.validateActions parts j actions).run := by
  induction actions with
  | nil => exact preserves_ret _
  | cons a rest ih =>
    refine preserves_bindE ?_ fun _ => ih
    rw [SecurityPolicyValidator.validateAction]
    rcases SecurityPolicyValidator.policyViolation parts.base j a with e | _ | message
    · exact preserves_ret _
    · exact preserves_ret _
    · exact preserves_bindE (hlog _) fun _ => preserves_ret _

/-- An attempt, from the execution of accepted plans. -/
theorem oneAttempt_preserves_of {request : LLMRequest}
    (hplan : Preserves P I (perform (.sys (.generatePlan request))).run)
    (hlog : ∀ rows, Preserves P I (perform (.db (.logEvents j rows))).run)
    (hexec : ∀ actions, Accepted parts j actions →
      Preserves P I (executionCb parts server j actions).run) :
    Preserves P I (LLMPlanRetryExecutor.oneAttempt parts
      (SecurityPolicyValidator.validateActions parts j) (executionCb parts server j)
      request).run := by
  refine preserves_bindE hplan fun _ => ?_
  refine preserves_bindE (preserves_ret _) fun actions => ?_
  -- only a plan that was accepted is executed
  refine preserves_bindE_of_returns (validateActions_preserves_of hlog actions)
    (validateActions_returns actions) fun _ haccepted => ?_
  exact preserves_bindE (hexec actions haccepted) fun _ => preserves_ret _

theorem inheritFiles_preserves_of (parent : Uuid)
    (hcopy : ∀ f, Preserves P I (perform (.fs (.copyWorkspaceFile parent j f))).run)
    (hread : ∀ f, Preserves P I (perform (.fs (.readFile j f))).run) (files : List String) :
    Preserves P I (inheritFiles parent j files).run := by
  induction files with
  | nil => exact preserves_ret _
  | cons f rest ih =>
    refine preserves_bindE (hcopy f) fun _ => ?_
    refine preserves_bindE (hread f) fun _ => ?_
    refine preserves_bindE (preserves_ret _) fun _ => ?_
    exact preserves_bindE ih fun _ => preserves_ret _

variable (hframe : ∀ o : Op, o.Frames j → Preserves P I (perform o).run)

include hframe

theorem inheritContext_preserves_of (parent : Option Uuid) :
    Preserves P I (inheritContext j parent).run := by
  cases parent with
  | none => exact preserves_ret _
  | some parent =>
    refine preserves_bindE (inheritFiles_preserves_of parent
      (fun f => hframe (.fs (.copyWorkspaceFile parent j f)) rfl)
      (fun f => hframe (.fs (.readFile j f)) rfl) _) fun context => ?_
    exact preserves_bindE (hframe (.db (.appendEvent j _ _)) rfl) fun _ => preserves_ret _

variable (hone : ∀ request, Preserves P I (LLMPlanRetryExecutor.oneAttempt parts
  (SecurityPolicyValidator.validateActions parts j) (executionCb parts server j) request).run)

include hone

theorem generateActions_preserves_of (delays : List ℕ) (attempt : ℕ) (request : LLMRequest) :
    Preserves P I (LLMPlanRetryExecutor.generateActions parts (onAttempt j)
      (SecurityPolicyValidator.validateActions parts j) (executionCb parts server j) delays attempt
      request).run := by
  have hnote : ∀ n, Preserves P I (onAttempt j n).run := fun n =>
    hframe (.db (.appendEvent j _ _)) rfl
  induction delays generalizing attempt request with
  | nil => exact preserves_bindE (hnote attempt) fun _ => hone request
  | cons delay delays ih =>
    refine preserves_bindE (hnote attempt) fun _ => ?_
    refine preserves_tryExcept (hone request) fun e => ?_
    exact preserves_bindE (hframe (.sys (.sleep delay)) trivial) fun _ => ih _ _

/-- **A run keeps to `I`** if its transitions, the operations of its frame and its attempts
do. -/
theorem runInSlot_preserves_of (htransition : ∀ expected target code message,
      Preserves P I (perform (.db (.transition j expected target code message))).run) :
    Preserves P I (JobOrchestratorService.runInSlot parts server j).run := by
  refine preserves_bindE (htransition _ _ _ _) fun started => ?_
  cases started with
  | false => exact preserves_ret _
  | true =>
    refine preserves_tryExcept ?_ fun e => ?_
    · refine preserves_bindE (hframe (.db (.getJob j)) rfl) fun row => ?_
      cases row with
      | none => exact preserves_ret _
      | some record =>
        refine preserves_bindE (inheritContext_preserves_of hframe _) fun context => ?_
        refine preserves_bindE (generateActions_preserves_of hframe hone _ _ _) fun _ => ?_
        refine preserves_bindE (hframe (JobOrchestratorService.planExecutedOp j) rfl) fun _ => ?_
        exact preserves_bindE (htransition _ _ _ _) fun _ => preserves_ret _
    · refine preserves_bindE ?_ fun _ => preserves_ret _
      refine preserves_tryExcept ?_ fun _ => preserves_ret _
      exact preserves_bindE (htransition _ _ _ _) fun _ => preserves_ret _

end Walk

end CliExecutionPlatform
