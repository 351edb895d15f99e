/-
What the model is told.

Prompts, files and feedback of all jobs go through one client to one model.  A run reads its
row, copies the files of the parent into its workspace, reads each copy back and decodes it,
and repeats the request with feedback when an attempt fails.  Other threads create, run and
refine jobs meanwhile.  The phases below follow what a run has found out so far; relating
them to the shared state shows that nothing else can get into a request.  The feedback is a
matter of what the run itself did: a second protocol records all its operations.

* `Brief`, `briefing` — what a run has read, and the operations it may issue then;
  `body_briefing` — every call keeps to it;
* `FollowsUp`, `followUps` — a request is the first one, or the one before it with the
  feedback for the exception that ended that attempt; `body_followUps` — every call keeps
  to it;
* `Known`, `known_step` — what was read is what the database and the parent hold, and no
  step changes that;
* **`requests_carry_own_context`** — in every reachable state, every request that was made
  carries the prompt of the job that its thread runs and, in a refinement, exactly the two
  files of the `COMPLETED` parent, and after a failed attempt the feedback for this failure.
-/
import CliExecutionPlatform.JobStore
import CliExecutionPlatform.RunWalk

open Files Process

namespace CliExecutionPlatform

open LocalStorage (root)
open JobOrchestratorService (onAttempt executionCb inheritFiles inheritContext inheritedFiles
  allowedActions decodeStrict)

/-! ### Phases -/

/-- The files that a run has read, with their bytes. -/
abbrev Contents := List (String × List UInt8)

/-- What a run has found out. -/
inductive Brief
  | idle
  | started
  | informed (record : JobRecord) (files : Contents)
  /-- The file `f` of the parent has just been copied. -/
  | copied (record : JobRecord) (files : Contents) (f : String)

namespace Brief

def next (j : Uuid) (q : Brief) (o : Op) (r : Res o) : Brief :=
  match q, o, r with
  | .idle, .db (.transition k _ .running _ _), .ok true => if k = j then .started else .idle
  | .started, .db (.getJob k), .ok (some record) =>
    if k = j then .informed record [] else .started
  | .informed record files, .fs (.copyWorkspaceFile _ _ f), .ok _ => .copied record files f
  | .copied record files f, .fs (.readFile _ _), .ok data => .informed record (files ++ [(f, data)])
  | .copied record files _, .fs (.readFile _ _), .error _ => .informed record files
  | q, _, _ => q

/-- No copy waits to be read. -/
def Settled (q : Brief) : Prop := ∀ record files f, q ≠ .copied record files f

end Brief

/-- The request is made from the row and the files. -/
structure Conveys (record : JobRecord) (files : Contents) (request : LLMRequest) : Prop where
  prompt : request.prompt = record.prompt
  allowed : request.allowedActions = allowedActions
  names : request.context.map Prod.fst =
    if record.parentJobId.isSome then inheritedFiles else []
  texts : ∀ f text, (f, text) ∈ request.context →
    ∃ data, (f, data) ∈ files ∧ decodeStrict data = .ok text

/-- The operations that a run may issue. -/
def Brief.Allows (j : Uuid) (q : Brief) : Op → Prop
  | .sys (.generatePlan request) =>
    ∃ record files, q = .informed record files ∧ Conveys record files request
  | .fs (.copyWorkspaceFile source k f) =>
    ∃ record files, q = .informed record files ∧ k = j ∧ record.parentJobId = some source ∧
      f ∈ inheritedFiles
  | .fs (.readFile k f) => ∃ record files, q = .copied record files f ∧ k = j
  | _ => q.Settled

/-- The protocol of a run of job `j`. -/
def runBriefing (j : Uuid) : Protocol Op Res Brief where
  next := Brief.next j
  allows := Brief.Allows j

/-- The protocol of a call: only runs ask the model. -/
def briefing : Call → Protocol Op Res Brief
  | .run _ j => runBriefing j
  | _ => ⟨fun q _ _ => q, fun _ _ => True⟩

/-! ### Programs -/

section Programs

variable {parts : Parts} {server : ℕ} {j : Uuid} {o : Op} {record : JobRecord} {files : Contents}

/-- The operations that find out nothing. -/
def Op.Aloof : Op → Prop
  | .fs (.copyWorkspaceFile _ _ _) | .fs (.readFile _ _) | .sys (.generatePlan _) => False
  | .db (.getJob _) | .db (.transition _ _ .running _ _) => False
  | _ => True

theorem Op.Aloof.allows {q : Brief} (ho : o.Aloof) (hq : q.Settled) : q.Allows j o := by
  cases o with
  | db o => exact hq
  | fs o => cases o <;> first | exact absurd ho id | exact hq
  | sys o => cases o <;> first | exact absurd ho id | exact hq

theorem Op.Aloof.next (ho : o.Aloof) (q : Brief) (r : Res o) : q.next j o r = q := by
  unfold Brief.next
  split <;> first | exact absurd ho id | rfl

/-- An operation that finds out nothing leaves a settled run where it is. -/
theorem preserves_aloof {α : Type} {p : Prog Op Res α} {I : Brief → Prop}
    (hI : ∀ q, I q → q.Settled) (h : Calls Op.Aloof p) : Preserves (runBriefing j) I p :=
  preserves_of_calls h fun q hq _ ho => ⟨ho.allows (hI q hq), ho.next q⟩

theorem settled_informed : (Brief.informed record files).Settled := fun _ _ _ h => by cases h

theorem settled_of_informed (q : Brief) (hq : q = .informed record files) : q.Settled := by
  rw [hq]
  exact settled_informed

theorem Op.Brackets.aloof (ho : o.Brackets j) : o.Aloof := by
  cases o with
  | db o => cases o <;> first | exact absurd ho id | trivial
  | fs o => cases o <;> first | exact absurd ho id | trivial
  | sys o => exact absurd ho id

theorem Op.Promotes.aloof {path : String} (ho : o.Promotes j path) : o.Aloof := by
  cases o with
  | db o => cases o <;> first | exact absurd ho id | trivial
  | fs o => cases o <;> first | exact absurd ho id | trivial
  | sys o => exact absurd ho id

theorem Op.RunsTool.aloof {args : List String} (ho : o.RunsTool j args) : o.Aloof := by
  cases o with
  | db o => cases o <;> first | exact absurd ho id | trivial
  | fs o => cases o <;> first | exact absurd ho id | trivial
  | sys o => cases o <;> first | exact absurd ho id | trivial

theorem executeAction_aloof (a : Action) :
    Calls Op.Aloof (ActionExecutor.executeAction parts server j a).run := by
  cases a with
  | createDirectory path => exact calls_op (o := .fs (.createDirectory j path)) trivial
  | writeFile path content => exact calls_op (o := .fs (.writeFile _ _ _)) trivial
  | createArtifact path => exact calls_throw _
  | runTool name args =>
    refine calls_bindE ?_ fun _ => calls_value _
    refine calls_bindE (calls_ofExcept _) fun _ => calls_bindE
      (calls_op (o := .sys (.acquireCli server)) trivial) fun _ => calls_tryFinally ?_
        (calls_attemptOnly (o := .sys (.releaseCli server)) trivial)
    exact calls_mono (fun o ho => ho.aloof) (executeWithTimeout_calls parts j args)

/-- The execution of a plan finds out nothing. -/
theorem executionCb_aloof {Q : Type} {P : Protocol Op Res Q} {I : Q → Prop}
    (hP : ∀ q, I q → ∀ o : Op, o.Aloof → P.allows q o ∧ ∀ r, I (P.next q o r))
    (actions : List Action) : Preserves P I (executionCb parts server j actions).run := by
  have haloof : ∀ o : Op, o.Aloof → Preserves P I (perform o).run :=
    fun o ho => preserves_of_kept (calls_op ho) hP
  exact executionCb_preserves (fun o ho => haloof o ho.aloof)
    (fun a _ => preserves_of_kept (executeAction_aloof a) hP)
    (fun path _ o ho => haloof o ho.aloof) (fun drafts => haloof _ trivial) (haloof _ trivial)

/-- An attempt with a request that was made from what the run knows. -/
theorem oneAttempt_briefing {request : LLMRequest} (h : Conveys record files request) :
    Preserves (runBriefing j) (fun q => q = .informed record files)
      (LLMPlanRetryExecutor.oneAttempt parts (SecurityPolicyValidator.validateActions parts j)
        (executionCb parts server j) request).run := by
  refine oneAttempt_preserves_of ?_
    (fun rows => preserves_aloof settled_of_informed (calls_op trivial)) ?_
  · rintro q rfl
    have hallows : (runBriefing j).allows (.informed record files)
        (.sys (.generatePlan request)) := ⟨record, files, rfl, h⟩
    exact obeys_op hallows fun _ => rfl
  · intro actions _
    refine executionCb_aloof ?_ actions
    rintro q rfl o ho
    exact ⟨ho.allows settled_informed, fun r => ho.next _ r⟩

/-- A retry changes the feedback alone. -/
theorem Conveys.retry {request : LLMRequest} (h : Conveys record files request)
    (feedback : String) : Conveys record files (request.withRetryFeedback feedback) where
  prompt := h.prompt
  allowed := h.allowed
  names := h.names
  texts := h.texts

theorem generateActions_briefing (delays : List ℕ) (attempt : ℕ) {request : LLMRequest}
    (h : Conveys record files request) :
    Preserves (runBriefing j) (fun q => q = .informed record files)
      (LLMPlanRetryExecutor.generateActions parts (onAttempt j)
        (SecurityPolicyValidator.validateActions parts j) (executionCb parts server j) delays
        attempt request).run := by
  have hnote : ∀ n, Preserves (runBriefing j) (fun q => q = .informed record files)
      (onAttempt j n).run := fun n => preserves_aloof settled_of_informed (calls_op trivial)
  induction delays generalizing attempt request with
  | nil => exact preserves_bindE (hnote attempt) fun _ => oneAttempt_briefing h
  | cons delay delays ih =>
    refine preserves_bindE (hnote attempt) fun _ q hq => ?_
    refine obeys_tryExcept (oneAttempt_briefing h q hq) (fun _ _ hq => hq) ?_ fun _ _ _ hq => hq
    intro e q _ hq
    exact preserves_bindE
      (preserves_aloof settled_of_informed (calls_op (o := .sys (.sleep delay)) trivial))
      (fun _ => ih _ (h.retry _)) q hq

/-- What is known after the files have been inherited: their bytes, which decode to the
context. -/
def ReadBack (record : JobRecord) (before : Contents) (names : List String)
    (r : Except Exn (List (String × String))) (q : Brief) : Prop :=
  q.Settled ∧ ∀ context, r = .ok context → ∃ files, q = .informed record (before ++ files) ∧
    context.map Prod.fst = names ∧
    ∀ f text, (f, text) ∈ context → ∃ data, (f, data) ∈ files ∧ decodeStrict data = .ok text

theorem readBack_error {before : Contents} {names : List String} {e : Exn} {q : Brief}
    (hq : q.Settled) : ReadBack record before names (.error e) q :=
  ⟨hq, fun _ h => absurd h (by simp)⟩

/-- The loop over the files of the parent. -/
theorem inheritFiles_briefing {parent : Uuid} (hparent : record.parentJobId = some parent)
    (names : List String) (hnames : ∀ f ∈ names, f ∈ inheritedFiles) (before : Contents) :
    Obeys (runBriefing j) (ReadBack record before names)
      (inheritFiles parent j names).run (.informed record before) := by
  induction names generalizing before with
  | nil =>
    refine obeys_ret ⟨settled_informed, fun context h => ?_⟩
    obtain rfl : [] = context := Except.ok.inj h
    exact ⟨[], by rw [List.append_nil], rfl, fun _ _ h => absurd h List.not_mem_nil⟩
  | cons f rest ih =>
    have hcopy : (runBriefing j).allows (.informed record before)
        (.fs (.copyWorkspaceFile parent j f)) :=
      ⟨record, before, rfl, rfl, hparent, hnames f List.mem_cons_self⟩
    have hread : (runBriefing j).allows (.copied record before f) (.fs (.readFile j f)) :=
      ⟨record, before, rfl, rfl⟩
    refine obeys_bindE (R := fun r q => q = Brief.next j (.informed record before)
      (.fs (.copyWorkspaceFile parent j f)) r) (obeys_op hcopy fun _ => rfl) ?_ ?_
    · rintro u _ rfl
      refine obeys_bindE (R := fun r q => q = Brief.next j (.copied record before f)
        (.fs (.readFile j f)) r) (obeys_op hread fun _ => rfl) ?_ ?_
      · rintro data _ rfl
        refine obeys_bindE (R := fun r q => r = decodeStrict data ∧
          q = .informed record (before ++ [(f, data)])) (obeys_ret ⟨rfl, rfl⟩) ?_ ?_
        · rintro text _ ⟨htext, rfl⟩
          refine obeys_bindE (ih (fun g hg => hnames g (List.mem_cons_of_mem f hg)) _) ?_
            fun e q hq => readBack_error hq.1
          rintro context q ⟨hq, hcontext⟩
          refine obeys_ret ⟨hq, fun context' h => ?_⟩
          obtain rfl : (f, text) :: context = context' := Except.ok.inj h
          obtain ⟨files, hinformed, hfst, htexts⟩ := hcontext context rfl
          refine ⟨(f, data) :: files, ?_, ?_, fun g text' hmem => ?_⟩
          · rw [hinformed, List.append_assoc]
            rfl
          · rw [List.map_cons, hfst]
          · rcases List.mem_cons.mp hmem with heq | hmem
            · obtain ⟨rfl, rfl⟩ := Prod.mk.inj heq
              exact ⟨data, List.mem_cons_self, htext.symm⟩
            · obtain ⟨data', hdata', hdecode⟩ := htexts g text' hmem
              exact ⟨data', List.mem_cons_of_mem _ hdata', hdecode⟩
        · rintro e _ ⟨-, rfl⟩
          exact readBack_error settled_informed
      · rintro e _ rfl
        exact readBack_error settled_informed
    · rintro e _ rfl
      exact readBack_error settled_informed

/-- The context of the requests. -/
theorem inheritContext_briefing :
    Obeys (runBriefing j)
      (fun r q => q.Settled ∧ ∀ context, r = .ok context → ∃ files, q = .informed record files ∧
        Conveys record files ⟨record.prompt, context, allowedActions, none⟩)
      (inheritContext j record.parentJobId).run (.informed record []) := by
  rcases hparent : record.parentJobId with _ | parent
  · refine obeys_ret ⟨settled_informed, fun context h => ?_⟩
    obtain rfl : [] = context := Except.ok.inj h
    refine ⟨[], rfl, rfl, rfl, ?_, fun _ _ h => absurd h List.not_mem_nil⟩
    rw [hparent]
    rfl
  · refine obeys_bindE (inheritFiles_briefing hparent inheritedFiles (fun _ hf => hf) []) ?_ ?_
    · rintro context q ⟨-, hcontext⟩
      obtain ⟨files, rfl, hfst, htexts⟩ := hcontext context rfl
      refine obeys_bindE (preserves_aloof settled_of_informed
        (calls_op (o := .db (.appendEvent j _ _)) trivial) _ rfl) ?_ ?_
      · rintro u _ rfl
        refine obeys_ret ⟨settled_informed, fun context' h => ?_⟩
        obtain rfl : context = context' := Except.ok.inj h
        refine ⟨files, rfl, rfl, rfl, ?_, htexts⟩
        rw [hparent]
        exact hfst
      · rintro e _ rfl
        exact ⟨settled_informed, fun _ h => absurd h (by simp)⟩
    · rintro e q ⟨hq, -⟩
      exact ⟨hq, fun _ h => absurd h (by simp)⟩

theorem settled_idle : Brief.idle.Settled := fun _ _ _ h => by cases h

theorem settled_started : Brief.started.Settled := fun _ _ _ h => by cases h

theorem runBody_briefing :
    Obeys (runBriefing j) (fun _ q => q.Settled)
      (JobOrchestratorService.runBody parts server j).run .started := by
  have hget : (runBriefing j).allows .started (.db (.getJob j)) := settled_started
  refine obeys_bindE (R := fun r q => q = Brief.next j .started (.db (.getJob j)) r)
    (obeys_op hget fun _ => rfl) ?_ ?_
  · rintro row _ rfl
    cases row with
    | none => exact obeys_ret settled_started
    | some record =>
      have hinformed : Brief.next j .started (.db (.getJob j)) (.ok (some record)) =
          .informed record [] := if_pos rfl
      rw [hinformed]
      refine obeys_bindE inheritContext_briefing ?_ fun _ _ hq => hq.1
      rintro context q ⟨-, hcontext⟩
      obtain ⟨files, rfl, hconveys⟩ := hcontext context rfl
      have hend : Calls Op.Aloof (do
          perform (JobOrchestratorService.planExecutedOp j)
          let _ ← perform (JobOrchestratorService.completeOp j)
          pure true : Task Bool).run :=
        calls_bindE (calls_op trivial) fun _ =>
          calls_bindE (calls_op trivial) fun _ => calls_value _
      refine (preserves_bindE (generateActions_briefing _ _ hconveys) (fun _ =>
        preserves_aloof settled_of_informed hend) _ rfl).mono fun _ => settled_of_informed
  · rintro e _ rfl
    exact settled_started

theorem runInSlot_briefing :
    Obeys (runBriefing j) (fun _ q => q.Settled)
      (JobOrchestratorService.runInSlot parts server j).run .idle := by
  have hstart : (runBriefing j).allows .idle (JobOrchestratorService.startOp j) :=
    settled_idle
  refine obeys_bindE (R := fun r q => q = Brief.next j .idle (JobOrchestratorService.startOp j) r)
    (obeys_op hstart fun _ => rfl) ?_ ?_
  · rintro started _ rfl
    cases started with
    | false => exact obeys_ret settled_idle
    | true =>
      have hnext : Brief.next j .idle (JobOrchestratorService.startOp j) (.ok true) = .started :=
        if_pos rfl
      rw [hnext]
      refine obeys_tryExcept runBody_briefing (fun _ _ hq => hq) ?_ fun _ _ _ hq => hq
      intro e q _ hq
      refine preserves_aloof (fun _ hq => hq) ?_ q hq
      refine calls_bindE (calls_tryExcept ?_ fun _ => calls_value _) fun _ => calls_value _
      exact calls_bindE (calls_op trivial) fun _ => calls_value _
  · rintro e _ rfl
    exact settled_idle

theorem run_briefing :
    Obeys (runBriefing j) (fun _ q => q.Settled)
      (JobOrchestratorService.run parts server j).run .idle := by
  refine obeys_tryExcept (R := fun _ q => q.Settled) ?_ (fun _ _ hq => hq) ?_ fun _ _ _ hq => hq
  · refine obeys_bindE (preserves_aloof (I := fun q => q = .idle)
      (fun q hq => by rw [hq]; exact settled_idle)
      (calls_op (o := .sys (.acquireGate server)) trivial) _ rfl) ?_ ?_
    · rintro _ _ rfl
      refine obeys_tryFinally runInSlot_briefing fun _ q hq => ?_
      exact preserves_aloof (fun _ hq => hq)
        (calls_attemptOnly (o := .sys (.releaseGate server)) trivial) q hq
    · rintro e _ rfl
      exact settled_idle
  · intro e q _ hq
    refine preserves_aloof (fun _ hq => hq) ?_ q hq
    exact calls_bindE (calls_op (o := JobOrchestratorService.queueTimeoutOp j) trivial)
      fun _ => calls_value _

/-- **Every call keeps to the briefing.** -/
theorem body_briefing (parts : Parts) (c : Call) :
    Obeys (briefing c) (fun _ _ => True) ((platform parts).body c) .idle := by
  cases c with
  | run server j =>
    exact obeys_bindE run_briefing (fun _ _ _ => obeys_ret trivial) fun _ _ _ => trivial
  | _ => exact obeys_sink (fun _ => trivial) (fun _ _ => rfl) (fun _ => trivial) _

end Programs

/-! ### Feedback -/

/-- The request of an operation that asks the model. -/
def Op.request : Op → Option LLMRequest
  | .sys (.generatePlan request) => some request
  | _ => none

theorem generatePlan_of_request {o : Op} {request : LLMRequest} (h : o.request = some request) :
    o = .sys (.generatePlan request) := by
  unfold Op.request at h
  split at h
  · rw [Option.some.inj h]
  · exact absurd h (by simp)

section Feedback

variable {parts : Parts} {server : ℕ} {j : Uuid} {request : LLMRequest}
  {done : List ((o : Op) × Res o)}

/-- No request was made. -/
def Unasked (done : List ((o : Op) × Res o)) : Prop := ∀ x ∈ done, x.1.request = none

/-- The request that the operations `done` of a run of job `j` lead to.  It is the first one
and has no feedback, or it repeats the one of the attempt before, with the feedback for the
exception that ended this attempt. -/
def FollowsUp (parts : Parts) (server : ℕ) (j : Uuid) (done : List ((o : Op) × Res o))
    (request : LLMRequest) : Prop :=
  (Unasked done ∧ request.retryFeedback = none) ∨
    ∃ before attempt pause earlier e feedback, done = before ++ attempt ++ pause ∧
      Trace (LLMPlanRetryExecutor.oneAttempt parts
        (SecurityPolicyValidator.validateActions parts j) (executionCb parts server j)
        earlier).run attempt (.error e) ∧
      Unasked pause ∧ LLMPlanRetryExecutor.feedbackFor parts e = some feedback ∧
      request = earlier.withRetryFeedback feedback

/-- The requests that a call may make. -/
def followUps (parts : Parts) : Call → Protocol Op Res (List ((o : Op) × Res o))
  | .run server j => recorder fun done o =>
    ∀ request, o.request = some request → FollowsUp parts server j done request
  | _ => ⟨fun done _ _ => done, fun _ _ => True⟩

theorem Unasked.append {x : (o : Op) × Res o} (h : Unasked done) (hx : x.1.request = none) :
    Unasked (done ++ [x]) := by
  intro y hy
  rcases List.mem_append.mp hy with hy | hy
  · exact h y hy
  · rw [List.mem_singleton.mp hy]
    exact hx

theorem FollowsUp.append {x : (o : Op) × Res o} (h : FollowsUp parts server j done request)
    (hx : x.1.request = none) : FollowsUp parts server j (done ++ [x]) request := by
  rcases h with ⟨hunasked, hnone⟩ | ⟨before, attempt, pause, earlier, e, feedback, rfl, htrace,
    hpause, hfeedback, hrequest⟩
  · exact .inl ⟨hunasked.append hx, hnone⟩
  · exact .inr ⟨before, attempt, pause ++ [x], earlier, e, feedback, List.append_assoc .., htrace,
      hpause.append hx, hfeedback, hrequest⟩

/-- Other operations may be issued at any time. -/
theorem preserves_unasked {α : Type} {p : Prog Op Res α}
    {I : List ((o : Op) × Res o) → Prop} (hp : Calls (fun o => o.request = none) p)
    (hI : ∀ done (x : (o : Op) × Res o), I done → x.1.request = none → I (done ++ [x])) :
    Preserves (followUps parts (.run server j)) I p := by
  refine preserves_of_kept hp fun done hdone o ho => ⟨fun request hrequest => ?_, fun r => ?_⟩
  · rw [ho] at hrequest
    exact absurd hrequest (by simp)
  · exact hI done ⟨o, r⟩ hdone ho

theorem unasked_op {o : Op} (ho : o.request = none) :
    Preserves (followUps parts (.run server j)) Unasked (perform o).run :=
  preserves_unasked (calls_op ho) fun _ _ hdone hx => hdone.append hx

theorem obeys_unasked {α : Type} {p : Prog Op Res α} (hp : Calls (fun o => o.request = none) p)
    (done : List ((o : Op) × Res o)) :
    Obeys (followUps parts (.run server j)) (fun _ _ => True) p done :=
  preserves_unasked hp (fun _ _ _ _ => trivial) done trivial

theorem Op.Aloof.request_eq_none {o : Op} (ho : o.Aloof) : o.request = none := by
  unfold Op.request
  split
  · exact absurd ho id
  · rfl

/-- The context is read before the first request. -/
theorem inheritContext_unasked (parent : Option Uuid) :
    Preserves (followUps parts (.run server j)) Unasked (inheritContext j parent).run := by
  cases parent with
  | none => exact preserves_ret _
  | some parent =>
    refine preserves_bindE (inheritFiles_preserves_of parent (fun f => unasked_op rfl)
      (fun f => unasked_op rfl) _) fun context => ?_
    exact preserves_bindE (unasked_op rfl) fun _ => preserves_ret _

theorem oneAttempt_followUps (h : FollowsUp parts server j done request) :
    Obeys (followUps parts (.run server j)) (fun _ _ => True)
      (LLMPlanRetryExecutor.oneAttempt parts (SecurityPolicyValidator.validateActions parts j)
        (executionCb parts server j) request).run done := by
  have hother : ∀ o : Op, o.request = none → Preserves (followUps parts (.run server j))
      (fun _ => True) (perform o).run := fun o ho =>
    preserves_unasked (calls_op ho) fun _ _ _ _ => trivial
  have hplan : (followUps parts (.run server j)).allows done (.sys (.generatePlan request)) := by
    intro request' hrequest
    obtain rfl := Option.some.inj hrequest
    exact h
  refine obeys_bindE (R := fun _ _ => True) (obeys_op hplan fun _ => trivial) ?_
    fun _ _ _ => trivial
  intro response done' _
  refine preserves_bindE (I := fun _ => True) (preserves_ret _) (fun actions => ?_) done' trivial
  refine preserves_bindE (validateActions_preserves_of (fun rows => hother _ rfl) actions)
    fun _ => ?_
  refine preserves_bindE (executionCb_aloof (fun done _ o ho => ?_) actions)
    fun _ => preserves_ret _
  exact ⟨(hother o ho.request_eq_none done trivial).head, fun _ => trivial⟩

/-- **The retries.**  What an attempt did up to its exception stands before the next
request. -/
theorem generateActions_followUps (delays : List ℕ) (attempt : ℕ)
    (h : FollowsUp parts server j done request) :
    Obeys (followUps parts (.run server j)) (fun _ _ => True)
      (LLMPlanRetryExecutor.generateActions parts (onAttempt j)
        (SecurityPolicyValidator.validateActions parts j) (executionCb parts server j) delays
        attempt request).run done := by
  have hother : ∀ (o : Op) (request : LLMRequest), o.request = none →
      Preserves (followUps parts (.run server j))
        (fun done => FollowsUp parts server j done request) (perform o).run := fun o request ho =>
    preserves_unasked (calls_op ho) fun _ _ hdone hx => hdone.append hx
  have hnote : ∀ n request, Preserves (followUps parts (.run server j))
      (fun done => FollowsUp parts server j done request) (onAttempt j n).run :=
    fun n request => hother _ request rfl
  induction delays generalizing attempt request done with
  | nil =>
    exact obeys_bindE (hnote attempt request done h) (fun _ _ hdone => oneAttempt_followUps hdone)
      fun _ _ _ => trivial
  | cons delay delays ih =>
    refine obeys_bindE (hnote attempt request done h) ?_ fun _ _ _ => trivial
    intro _ done' hdone
    refine obeys_tryExcept (obeys_recorder (oneAttempt_followUps hdone)) (fun _ _ _ => trivial) ?_
      fun _ _ _ _ => trivial
    rintro e _ he ⟨-, ops, rfl, htrace⟩
    obtain ⟨feedback, hfeedback⟩ := Option.isSome_iff_exists.mp he
    have hnext : FollowsUp parts server j (done' ++ ops)
        (request.withRetryFeedback ((LLMPlanRetryExecutor.feedbackFor parts e).getD "")) := by
      rw [hfeedback]
      exact .inr ⟨done', ops, [], request, e, feedback, (List.append_nil _).symm, htrace,
        fun x hx => absurd hx List.not_mem_nil, hfeedback, rfl⟩
    exact obeys_bindE (hother (.sys (.sleep delay)) _ rfl _ hnext) (fun _ _ hdone => ih _ hdone)
      fun _ _ _ => trivial

theorem runBody_followUps (hdone : Unasked done) :
    Obeys (followUps parts (.run server j)) (fun _ _ => True)
      (JobOrchestratorService.runBody parts server j).run done := by
  refine obeys_bindE (unasked_op (o := .db (.getJob j)) rfl done hdone) ?_ fun _ _ _ => trivial
  intro row done hdone
  cases row with
  | none => exact obeys_ret trivial
  | some record =>
    refine obeys_bindE (inheritContext_unasked record.parentJobId done hdone) ?_
      fun _ _ _ => trivial
    intro context done hdone
    refine obeys_bindE (generateActions_followUps _ _ (.inl ⟨hdone, rfl⟩)) ?_ fun _ _ _ => trivial
    intro _ done _
    exact obeys_unasked (calls_bindE (calls_op rfl) fun _ =>
      calls_bindE (calls_op rfl) fun _ => calls_value _) done

theorem runInSlot_followUps (hdone : Unasked done) :
    Obeys (followUps parts (.run server j)) (fun _ _ => True)
      (JobOrchestratorService.runInSlot parts server j).run done := by
  refine obeys_bindE (unasked_op (o := JobOrchestratorService.startOp j) rfl done hdone) ?_
    fun _ _ _ => trivial
  intro started done hdone
  cases started with
  | false => exact obeys_ret trivial
  | true =>
    refine obeys_tryExcept (runBody_followUps hdone) (fun _ _ _ => trivial) ?_
      fun _ _ _ _ => trivial
    intro e done _ _
    refine obeys_unasked (calls_bindE (calls_tryExcept ?_ fun _ => calls_value _)
      fun _ => calls_value _) done
    exact calls_bindE (calls_op rfl) fun _ => calls_value _

theorem run_followUps :
    Obeys (followUps parts (.run server j)) (fun _ _ => True)
      (JobOrchestratorService.run parts server j).run [] := by
  have hnothing : Unasked [] := fun x hx => absurd hx List.not_mem_nil
  refine obeys_tryExcept (R := fun _ _ => True) ?_ (fun _ _ _ => trivial) ?_ fun _ _ _ _ => trivial
  · refine obeys_bindE (unasked_op (o := .sys (.acquireGate server)) rfl [] hnothing) ?_
      fun _ _ _ => trivial
    intro _ done hdone
    exact obeys_tryFinally (runInSlot_followUps hdone) fun _ done _ =>
      obeys_unasked (calls_attemptOnly (o := .sys (.releaseGate server)) rfl) done
  · intro e done _ _
    exact obeys_unasked (calls_bindE (calls_op (o := JobOrchestratorService.queueTimeoutOp j) rfl)
      fun _ => calls_value _) done

/-- **Every call keeps to the follow-ups.** -/
theorem body_followUps (parts : Parts) (c : Call) :
    Obeys (followUps parts c) (fun _ _ => True) ((platform parts).body c) [] := by
  cases c with
  | run server j =>
    exact obeys_bindE run_followUps (fun _ _ _ => obeys_ret trivial) fun _ _ _ => trivial
  | _ => exact obeys_sink (fun _ => trivial) (fun _ _ => rfl) (fun _ => trivial) _

end Feedback

/-! ### What was read -/

section Known

variable {parts : Parts} {j : Uuid} {m m' : State} {record : JobRecord} {files : Contents}

/-- The row says what the record says, and the files are those of the parent, which is
`COMPLETED`. -/
structure Known (base : Path) (j : Uuid) (record : JobRecord) (files : Contents) (w : World) :
    Prop where
  row : (w.db.job j).map JobRow.origin = some (record.parentJobId, record.prompt)
  files : ∀ x ∈ files, ∃ parent, record.parentJobId = some parent ∧ IsCompleted parent w ∧
    (held base parent w).workspace [x.1] = some (.file x.2)

theorem exec_origin {base : Path} {e : Env} {o : Op} {r : Res o} {w w' : World}
    {origin : Option Uuid × String} (h : exec base e o w = some (r, w'))
    (horigin : (w.db.job j).map JobRow.origin = some origin) :
    (w'.db.job j).map JobRow.origin = some origin := by
  rcases exec_origins h j with hsame | ⟨hnone, -⟩
  · exact hsame.trans horigin
  · rw [hnone] at horigin
    exact absurd horigin (by simp)

/-- **No step changes what a run has read.** -/
theorem known_step (hm : (platform parts).Reach (start parts) m)
    (hstep : (platform parts).Step m m')
    (h : Known parts.base j record files m.view.state) :
    Known parts.base j record files m'.view.state := by
  constructor
  · cases hstep with
    | invoke c _ => exact h.row
    | perform t c o k e r s ht he => exact exec_origin he h.row
  · intro x hx
    obtain ⟨parent, hparent, hdone, hfile⟩ := h.files x hx
    obtain ⟨hdone', hheld⟩ := completed_step hm hstep hdone
    refine ⟨parent, hparent, hdone', ?_⟩
    rw [hheld]
    exact hfile

/-- The row that was read. -/
theorem exec_getJob_origin {base : Path} {e : Env} {w w' : World}
    (h : exec base e (.db (.getJob j)) w = some (.ok (some record), w')) :
    (w.db.job j).map JobRow.origin = some (record.parentJobId, record.prompt) := by
  rcases exec_db_cases h with ⟨db, hrun, -⟩ | ⟨⟨name, detail, hr⟩, -⟩
  · have hrow : (w.db.job j).map (fun row => (⟨j, row.parentJobId, row.prompt, row.status⟩ :
        JobRecord)) = some record := Except.ok.inj (Prod.mk.inj (Option.some.inj hrun)).1
    obtain ⟨row, hjob, rfl⟩ := Option.map_eq_some_iff.mp hrow
    rw [hjob]
    rfl
  · cases hr

theorem exec_readFile {base : Path} {e : Env} {w w' : World} {f : String} {data : List UInt8}
    (hf : f ∈ inheritedFiles) (h : exec base e (.fs (.readFile j f)) w = some (.ok data, w')) :
    (held base j w).workspace [f] = some (.file data) := by
  obtain ⟨target, htarget, hread⟩ := Disk.ofExcept_bind_ok (exec_fs_ok h).2
  rw [validateSafePath_inherited hf] at htarget
  obtain rfl := Except.ok.inj htarget
  exact (LocalStorage.contents_ok hread).1

/-- What the phase of a run of job `j` says about the shared state. -/
def Brief.Holds (base : Path) (j : Uuid) (w : World) : Brief → Prop
  | .idle | .started => True
  | .informed record files => Known base j record files w
  | .copied record files f =>
    f ∈ inheritedFiles ∧ Known base j record files w ∧
      ∃ parent data, record.parentJobId = some parent ∧ IsCompleted parent w ∧
        (held base parent w).workspace [f] = some (.file data) ∧
        (held base j w).workspace [f] = some (.file data)

/-- A thread that runs job `j` holds what its phase says, and it has started the job. -/
def Briefed (parts : Parts) (c : Call) (t : ℕ) (q : Brief) (v : View World Op Res) : Prop :=
  ∀ server j, c = .run server j →
    q.Holds parts.base j v.state ∧ (q ≠ .idle → SeenBy (starts j) t v.history)

theorem next_idle {o : Op} {r : Res o} (h : starts j o r = false) :
    Brief.next j .idle o r = .idle := by
  unfold Brief.next
  split
  case h_1 heq _ => exact if_neg (of_decide_eq_false h)
  all_goals first | rfl | simp_all

/-- The files of a parent are copied when it is `COMPLETED`, and the copy is what it holds. -/
theorem holds_copied {t : ℕ} {source : Uuid} {f : String} {u : Unit}
    (hm : (platform parts).Reach (start parts) m)
    (h : Performs parts t (.fs (.copyWorkspaceFile source j f)) (.ok u) m m')
    (hparent : record.parentJobId = some source) (hf : f ∈ inheritedFiles)
    (hknown : Known parts.base j record files m.view.state) :
    (Brief.copied record files f).Holds parts.base j m'.view.state := by
  have hdone := (inspected_of_performs (j := source) hm h (decide_eq_true rfl)).1
  obtain ⟨hdone', hheld⟩ := completed_step hm h.1 hdone
  obtain ⟨e, hexec⟩ := h.exec
  obtain ⟨q, q', data, hq, hq', hdata, hcopy⟩ := exec_copyWorkspaceFile hexec
  -- the names of the inherited files are single segments
  rw [validateSafePath_inherited hf] at hq hq'
  obtain rfl : [f] = q := List.append_cancel_left (Except.ok.inj hq)
  obtain rfl : [f] = q' := List.append_cancel_left (Except.ok.inj hq')
  refine ⟨hf, known_step hm h.1 hknown, source, data, hparent, hdone', ?_, ?_⟩
  · rw [hheld]
    exact hdata
  · rw [hcopy]
    show ((held parts.base j m.view.state).workspace.writeAt [f] data) [f] = _
    rw [Tree.writeAt_apply, if_pos rfl]

/-- After a copy its thread reads the file and does nothing else. -/
theorem allows_copied {f : String} {o : Op}
    (h : (Brief.copied record files f).Allows j o) : o = .fs (.readFile j f) := by
  unfold Brief.Allows at h
  split at h
  · obtain ⟨_, _, hq, -⟩ := h
    cases hq
  · obtain ⟨_, _, hq, -⟩ := h
    cases hq
  · obtain ⟨_, _, hq, rfl⟩ := h
    cases hq
    rfl
  · exact absurd rfl (h record files f)

/-- The copy that was read is what the parent holds. -/
theorem holds_read {t : ℕ} {f : String} {data : List UInt8}
    (hm : (platform parts).Reach (start parts) m)
    (h : Performs parts t (.fs (.readFile j f)) (.ok data) m m')
    (hq : (Brief.copied record files f).Holds parts.base j m.view.state) :
    Known parts.base j record (files ++ [(f, data)]) m'.view.state := by
  obtain ⟨hf, hknown, parent, data', hparent, hdone, hfile, hcopy⟩ := hq
  have hkeep := known_step hm h.1 hknown
  refine ⟨hkeep.row, fun x hx => ?_⟩
  rcases List.mem_append.mp hx with hx | hx
  · exact hkeep.files x hx
  · obtain rfl := List.mem_singleton.mp hx
    obtain ⟨e, hexec⟩ := h.exec
    obtain ⟨hdone', hheld⟩ := completed_step hm h.1 hdone
    have hread : some (Node.file data) = some (.file data') :=
      (exec_readFile hf hexec).symm.trans hcopy
    refine ⟨parent, hparent, hdone', ?_⟩
    rw [hheld, hread]
    exact hfile

/-- **One operation of a run.**  What its phase says stays true. -/
theorem holds_own {t : ℕ} {q : Brief} {o : Op} {r : Res o}
    (hm : (platform parts).Reach (start parts) m) (h : Performs parts t o r m m')
    (hallows : q.Allows j o) (hq : q.Holds parts.base j m.view.state) :
    (q.next j o r).Holds parts.base j m'.view.state := by
  unfold Brief.next
  split
  · split_ifs <;> trivial
  · rename_i k record
    by_cases hk : k = j
    · rw [if_pos hk]
      subst hk
      obtain ⟨e, hexec⟩ := h.exec
      exact ⟨exec_origin hexec (exec_getJob_origin hexec), fun x hx => absurd hx List.not_mem_nil⟩
    · rw [if_neg hk]
      trivial
  · obtain ⟨_, _, heq, rfl, hparent, hf⟩ := hallows
    cases heq
    exact holds_copied hm h hparent hf hq
  · obtain ⟨_, _, heq, rfl⟩ := hallows
    cases heq
    exact holds_read hm h hq
  · exact known_step hm h.1 hq.2.1
  · rename_i hread hfail
    cases q with
    | idle => trivial
    | started => trivial
    | informed record files => exact known_step hm h.1 hq
    | copied record files f =>
      -- only the file is read, and that was treated above
      obtain rfl := allows_copied hallows
      rcases r with x | data
      · exact absurd HEq.rfl (hfail record files f j f x rfl rfl)
      · exact absurd HEq.rfl (hread record files f j f data rfl rfl)

/-- An operation of another thread: the job belongs to the thread that has started it. -/
theorem holds_other {t u : ℕ} {q : Brief} (hm : (platform parts).Reach (start parts) m)
    (hstep : (platform parts).Step m m') (hG : Guar parts j u m.view m'.view) (hut : u ≠ t)
    (hstarted : q ≠ .idle → SeenBy (starts j) t m.view.history)
    (hq : q.Holds parts.base j m.view.state) : q.Holds parts.base j m'.view.state := by
  cases q with
  | idle => trivial
  | started => trivial
  | informed record files => exact known_step hm hstep hq
  | copied record files f =>
    obtain ⟨hf, hknown, parent, data, hparent, hdone, hfile, hcopy⟩ := hq
    obtain ⟨hdone', hheld⟩ := completed_step hm hstep hdone
    have hown := ((hG.others t (Ne.symm hut)).1 (hstarted (by simp))).1
    refine ⟨hf, known_step hm hstep hknown, parent, data, hparent, hdone', ?_, ?_⟩
    · rw [hheld]
      exact hfile
    · rw [hown]
      exact hcopy

/-- **In every reachable state, what the phase of a run says is true.** -/
theorem briefed_of_reach (hm : (platform parts).Reach (start parts) m) {t : ℕ} {c : Call}
    {p : Prog Op Res (Except Exn Reply)} (ht : m.threads[t]? = some (c, p)) :
    Briefed parts c t ((briefing c).phase .idle t m.view.history) m.view := by
  refine System.Reach.phase_view (body_briefing parts) (J := Briefed parts) ?_ ?_ ?_ hm ht
  · intro m c t _ _ server j _
    exact ⟨trivial, fun hq => absurd rfl hq⟩
  · rintro m c t q o k e r s hm ht hallows hexec h server j rfl
    obtain ⟨hholds, hstarted⟩ := h server j rfl
    have hperforms : Performs parts t o r m ⟨m.view.push t o r s, m.threads.set t (_, k r)⟩ :=
      ⟨System.Step.perform m t _ o k e r s ht hexec, rfl⟩
    refine ⟨holds_own hm hperforms hallows hholds, fun hnext => ?_⟩
    rw [View.push_history, seenBy_cons]
    by_cases hstart : starts j o r = true
    · exact .inl ⟨rfl, hstart⟩
    · refine .inr (hstarted fun hq => hnext ?_)
      rw [hq]
      exact next_idle (by simpa using hstart)
  · rintro m m' c t q l hm hstep hlabel hlt h server j rfl
    obtain ⟨hholds, hstarted⟩ := h server j rfl
    rcases guar_of_step (j := j) hm hstep with hview | ⟨l', hl', hG⟩
    · rw [hview]
      exact ⟨hholds, hstarted⟩
    · obtain rfl : l' = l := (List.cons.inj (hl'.symm.trans hlabel)).1
      exact ⟨holds_other hm hstep hG hlt hstarted hholds,
        fun hq => (hstarted hq).mono hG.history⟩

/-- The requests of a history were made from rows and files that are still there. -/
theorem request_of_reach (hm : (platform parts).Reach (start parts) m) {t : ℕ}
    {request : LLMRequest} {r : Res (.sys (.generatePlan request))}
    (hcall : ⟨t, .sys (.generatePlan request), r⟩ ∈ m.view.history) :
    ∃ server j p record files, m.threads[t]? = some (.run server j, p) ∧
      Known parts.base j record files m.view.state ∧ Conveys record files request := by
  induction hm with
  | refl => exact absurd hcall List.not_mem_nil
  | @tail m₁ m₂ hm hstep ih =>
    -- an old request keeps its thread, and what it was made from
    have hold : ⟨t, .sys (.generatePlan request), r⟩ ∈ m₁.view.history →
        ∃ server j p record files, m₂.threads[t]? = some (.run server j, p) ∧
          Known parts.base j record files m₂.view.state ∧ Conveys record files request := by
      intro hcall
      obtain ⟨server, j, p, record, files, ht, hknown, hconveys⟩ := ih hcall
      obtain ⟨p', hp'⟩ := hstep.call_kept ht
      exact ⟨server, j, p', record, files, hp', known_step hm hstep hknown, hconveys⟩
    have hstep' := hstep
    cases hstep with
    | invoke c _ => exact hold hcall
    | perform u c o k e r' s ht he =>
      rcases List.mem_cons.mp hcall with hlabel | hcall
      · cases hlabel
        have hops := (System.Reach.calls (body_calls parts) hm ht).head
        have hallows := (System.Reach.obeys (body_briefing parts) hm ht).head
        have hbriefed := briefed_of_reach hm ht
        cases c with
        | run server j =>
          obtain ⟨record, files, hphase, hconveys⟩ := hallows
          have hknown := (hbriefed server j rfl).1
          rw [hphase] at hknown
          exact ⟨server, j, k r, record, files,
            List.getElem?_set_self (List.getElem?_eq_some_iff.mp ht).1,
            known_step hm hstep' hknown, hconveys⟩
        | _ => exact absurd hops id
      · exact hold hcall

end Known

/-- **Requests carry the context of their own job.**  In every reachable state, every request
to the model was made by the run of a job.  It carries the prompt of this job, the allowed
actions, and as context nothing or, if the job refines a parent, the two files that the
`COMPLETED` parent holds, decoded.  The first request of a run has no feedback; each later one
repeats the request of the attempt that this run made before, with the feedback for the
exception that ended this attempt. -/
theorem requests_carry_own_context (parts : Parts) {m : State}
    (hm : (platform parts).Reach (start parts) m) {t : ℕ} {request : LLMRequest}
    {r : Res (.sys (.generatePlan request))} {before : List (Label Op Res)}
    (hcall : ⟨t, .sys (.generatePlan request), r⟩ :: before <:+ m.view.history) :
    ∃ server j p row, m.threads[t]? = some (.run server j, p) ∧
      m.view.state.db.job j = some row ∧ request.prompt = row.prompt ∧
      request.allowedActions = allowedActions ∧
      (row.parentJobId = none → request.context = []) ∧
      (∀ parent, row.parentJobId = some parent → m.status parent = some .completed ∧
        request.context.map Prod.fst = inheritedFiles ∧
        ∀ f text, (f, text) ∈ request.context → ∃ data,
          m.view.state.fs.node (root parts.base .jobs parent ++ [f]) = some (.file data) ∧
          decodeStrict data = .ok text) ∧
      FollowsUp parts server j (doneBy t before) request := by
  obtain ⟨server, j, p, record, files, ht, hknown, hconveys⟩ :=
    request_of_reach hm (hcall.subset List.mem_cons_self)
  have hfollows : FollowsUp parts server j (doneBy t before) request := by
    obtain ⟨c, p', hthread, hallows⟩ := System.Reach.allowed (body_followUps parts) hm hcall
    obtain rfl : Call.run server j = c :=
      (Prod.mk.inj (Option.some.inj (ht.symm.trans hthread))).1
    rw [← phase_recorder]
    exact hallows request rfl
  obtain ⟨row, hrow, horigin⟩ := Option.map_eq_some_iff.mp hknown.row
  obtain ⟨hparent, hprompt⟩ := Prod.mk.inj horigin
  refine ⟨server, j, p, row, ht, hrow, hconveys.prompt.trans hprompt.symm, hconveys.allowed,
    ?_, ?_, hfollows⟩
  · intro hnone
    have hnames := hconveys.names
    rw [← hparent, hnone] at hnames
    exact List.map_eq_nil_iff.mp hnames
  · intro parent hsome
    have hnames := hconveys.names
    rw [← hparent, hsome] at hnames
    have hheld : ∀ x ∈ files, IsCompleted parent m.view.state ∧
        (held parts.base parent m.view.state).workspace [x.1] = some (.file x.2) := by
      intro x hx
      obtain ⟨parent', hparent', hdone, hdata⟩ := hknown.files x hx
      rw [← hparent, hsome] at hparent'
      obtain rfl := Option.some.inj hparent'
      exact ⟨hdone, hdata⟩
    refine ⟨?_, hnames, fun f text hmem => ?_⟩
    · -- there is a first file, and it was copied from a `COMPLETED` job
      have hfirst : "model.scad" ∈ request.context.map Prod.fst := by
        rw [hnames]
        exact List.mem_cons_self
      obtain ⟨⟨f, text⟩, hmem, -⟩ := List.mem_map.mp hfirst
      obtain ⟨data, hdata, -⟩ := hconveys.texts f text hmem
      exact (hheld (f, data) hdata).1
    · obtain ⟨data, hdata, hdecode⟩ := hconveys.texts f text hmem
      exact ⟨data, (hheld (f, data) hdata).2, hdecode⟩

/-- The refinement of the sample job asks the model, which is out of reach for a moment, and
asks it again. -/
def Sample.retried : List (System.Move Env Call) :=
  let unreachable := { Sample.calmChild with
    answer := .error (.llmClient "LLMClientError" "LLM endpoint is temporarily unavailable." true) }
  Sample.beforeCheck ++ .perform 2 Sample.calmChild :: Sample.beforeCopy ++
    List.replicate 6 (.perform 3 Sample.calmChild) ++ .perform 3 unreachable ::
    List.replicate 3 (.perform 3 Sample.calmChild)

set_option maxRecDepth 100000 in
theorem requests_carry_own_context_retried :
    ∃ (m : State) (l : Label Op Res) (before : List (Label Op Res)) (request : LLMRequest)
      (server : ℕ) (j parent : Uuid) (data : List UInt8),
      (platform (Sample.parts Sample.design)).Reach (start (Sample.parts Sample.design)) m ∧
      l :: before <:+ m.view.history ∧ l.op = .sys (.generatePlan request) ∧
      ("model.scad", "cube(1);") ∈ request.context ∧ m.status parent = some .completed ∧
      m.view.state.fs.node (root ["srv"] .jobs parent ++ ["model.scad"]) = some (.file data) ∧
      decodeStrict data = .ok "cube(1);" ∧ request.retryFeedback.isSome ∧
      ∃ attempt earlier e, attempt <:+: doneBy l.tid before ∧
        Trace (LLMPlanRetryExecutor.oneAttempt (Sample.parts Sample.design)
          (SecurityPolicyValidator.validateActions (Sample.parts Sample.design) j)
          (executionCb (Sample.parts Sample.design) server j) earlier).run attempt (.error e) ∧
        request.retryFeedback =
          LLMPlanRetryExecutor.feedbackFor (Sample.parts Sample.design) e := by
  obtain ⟨m, hm, hgood⟩ := Sample.reached (Sample.parts Sample.design) Sample.retried
    (fun m => m.view.history.any fun l => l.op.request.any fun request =>
      ("model.scad", "cube(1);") ∈ request.context ∧ request.retryFeedback.isSome)
    (by decide +kernel)
  obtain ⟨⟨t, o, r⟩, hl, hasks⟩ := List.any_eq_true.mp hgood
  obtain ⟨request, hrequest, hfound⟩ := (Option.any_eq_true _ _).mp hasks
  obtain rfl := generatePlan_of_request hrequest
  obtain ⟨hmem, hfeedback⟩ := of_decide_eq_true hfound
  obtain ⟨after, before, hsplit⟩ := List.append_of_mem hl
  have hcall : ⟨t, .sys (.generatePlan request), r⟩ :: before <:+ m.view.history :=
    ⟨after, hsplit.symm⟩
  obtain ⟨server, j, -, row, -, -, -, -, hnone, hsome, hfollows⟩ :=
    requests_carry_own_context _ hm hcall
  rcases hparent : row.parentJobId with _ | parent
  · rw [hnone hparent] at hmem
    exact absurd hmem List.not_mem_nil
  obtain ⟨hdone, -, htexts⟩ := hsome parent hparent
  obtain ⟨data, hdata, hdecode⟩ := htexts _ _ hmem
  refine ⟨m, _, before, request, server, j, parent, data, hm, hcall, rfl, hmem, hdone, hdata,
    hdecode, hfeedback, ?_⟩
  rcases hfollows with ⟨-, hfirst⟩ | ⟨front, attempt, pause, earlier, e, feedback, hdoneBy, htrace,
    -, he, hrepeat⟩
  · rw [hfirst] at hfeedback
    exact absurd hfeedback (by simp)
  · refine ⟨attempt, earlier, e, ⟨front, pause, hdoneBy.symm⟩, htrace, ?_⟩
    rw [he, hrepeat]
    rfl

end CliExecutionPlatform
