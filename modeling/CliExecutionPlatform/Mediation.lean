/-
Complete mediation: nothing that the language model asks for happens unchecked.

A run asks the model up to three times.  The answer of the last time, read by the
parser, is the plan in force.  Everything by which plans take effect (directories,
files, processes, the files that these leave, promoted artifacts, their rows and the commit
of these, the stored plan) is an action of the plan in force of that very run, and the whole
plan has passed the policy and the static checks before its first action takes effect.

* `Op.acts`, `Op.Enacts` — the operations by which plans take effect, and the action that
  each of them belongs to;
* `planInForce` — what the last answer to a thread is read as;
* **`complete_mediation`** — every such operation, in every history;
* **`stored_plans_accepted`** — every plan in the database is an answer of the model that
  was accepted.
-/
import CliExecutionPlatform.Ended
import CliExecutionPlatform.RunWalk

open Files Process

namespace CliExecutionPlatform

open JobOrchestratorService (executionCb)

/-- The operations by which the actions of a plan take effect. -/
def Op.acts : Op → Bool
  | .fs (.createDirectory _ _) | .fs (.writeFile _ _ _) | .sys (.launch _ _)
  | .fs (.copyOut _ _ _) | .fs (.saveArtifact _ _) | .db (.flushArtifact _ _ _ _)
  | .db (.commitArtifacts _ _) | .db (.saveActionPlan _ _) => true
  | _ => false

/-- The operation is a step of executing this plan for job `j`. -/
def Op.Enacts (j : Uuid) (actions : List Action) : Op → Prop
  | .fs (.createDirectory k path) => k = j ∧ .createDirectory path ∈ actions
  | .fs (.writeFile k path content) =>
    k = j ∧ ∃ text, content = .text text ∧ .writeFile path text ∈ actions
  | .sys (.launch args _) => ∃ toolName, .runTool toolName args ∈ actions
  | .fs (.copyOut k output _) =>
    k = j ∧ ∃ toolName args, output = outputFile args ∧ .runTool toolName args ∈ actions
  | .fs (.saveArtifact k path) => k = j ∧ .createArtifact path ∈ actions
  | .db (.flushArtifact k path _ _) => k = j ∧ .createArtifact path ∈ actions
  | .db (.commitArtifacts k drafts) =>
    k = j ∧ ∀ d ∈ drafts, .createArtifact d.relativePath ∈ actions
  | .db (.saveActionPlan k plan) => k = j ∧ plan = actions
  | _ => False

/-! ### The plan in force -/

section Plan

variable (parts : Parts)

/-- The plan in force after an operation: an answer of the model puts it in force. -/
def planAfter : Option (List Action) → (o : Op) → Res o → Option (List Action)
  | _, .sys (.generatePlan _), .ok answer => (parts.parse answer).toOption
  | _, .sys (.generatePlan _), .error _ => none
  | plan, _, _ => plan

/-- Whether every flush so far has given a row with the path that it was for. -/
def faithfulAfter : Bool → (o : Op) → Res o → Bool
  | faithful, .db (.flushArtifact _ path _ _), .ok draft => faithful && draft.relativePath = path
  | faithful, _, _ => faithful

/-- What a thread goes by. -/
structure Force where
  plan : Option (List Action)
  faithful : Bool

/-- The protocol of a call: it takes effect only by actions of the plan in force, after
this has been accepted.  What it commits is what the flushes have given. -/
def planProtocol (c : Call) : Protocol Op Res Force where
  next := fun q o r => ⟨planAfter parts q.plan o r, faithfulAfter q.faithful o r⟩
  allows := fun q o => o.acts = true → ∃ server j actions, c = .run server j ∧
    q.plan = some actions ∧ Accepted parts j actions ∧ (q.faithful = true → o.Enacts j actions)

/-- What the last answer of the model to thread `t` is read as. -/
def planInForce (t : ℕ) (h : History) : Option (List Action) :=
  ((planProtocol parts (.recover 0)).phase ⟨none, true⟩ t h).plan

variable {parts}

theorem phase_eq_planInForce (c : Call) (t : ℕ) (h : History) :
    ((planProtocol parts c).phase ⟨none, true⟩ t h).plan = planInForce parts t h := by
  rw [planInForce]
  exact congrArg Force.plan (Protocol.phase_congr (by rfl) h)

theorem planInForce_own {t : ℕ} {h : History} (o : Op) (r : Res o) :
    planInForce parts t (⟨t, o, r⟩ :: h) = planAfter parts (planInForce parts t h) o r :=
  congrArg Force.plan (Protocol.phase_own o r)

theorem planInForce_other {t : ℕ} {h : History} {l : Label Op Res} (hl : l.tid ≠ t) :
    planInForce parts t (l :: h) = planInForce parts t h :=
  congrArg Force.plan (Protocol.phase_other hl)

theorem planAfter_of_ne {plan : Option (List Action)} {o : Op}
    (ho : ∀ request, o ≠ .sys (.generatePlan request)) (r : Res o) :
    planAfter parts plan o r = plan := by
  cases o with
  | db o => rfl
  | fs o => rfl
  | sys o =>
    cases o with
    | generatePlan request => exact absurd rfl (ho request)
    | _ => rfl

/-- A plan in force is what some answer to the thread was read as. -/
theorem answer_of_planInForce {t : ℕ} {h : History} {actions : List Action}
    (hplan : planInForce parts t h = some actions) :
    ∃ request answer, ⟨t, .sys (.generatePlan request), .ok answer⟩ ∈ h ∧
      parts.parse answer = .ok actions := by
  induction h with
  | nil => exact absurd hplan (by simp [planInForce, Protocol.phase])
  | cons l h ih =>
    have hold : planInForce parts t h = some actions → ∃ request answer,
        ⟨t, .sys (.generatePlan request), .ok answer⟩ ∈ l :: h ∧
          parts.parse answer = .ok actions := by
      intro hplan
      obtain ⟨request, answer, hmem, hparse⟩ := ih hplan
      exact ⟨request, answer, List.mem_cons_of_mem _ hmem, hparse⟩
    obtain ⟨u, o, r⟩ := l
    by_cases hu : u = t
    · subst hu
      rw [planInForce_own] at hplan
      by_cases ho : ∃ request, o = .sys (.generatePlan request)
      · obtain ⟨request, rfl⟩ := ho
        rcases r with e | answer
        · exact absurd hplan (by simp [planAfter])
        · refine ⟨request, answer, List.mem_cons_self, ?_⟩
          rcases hparse : parts.parse answer with e | plan
          · rw [planAfter, hparse] at hplan
            exact absurd hplan (by simp [Except.toOption])
          · rw [planAfter, hparse] at hplan
            rw [Option.some.inj hplan]
      · rw [planAfter_of_ne (fun request heq => ho ⟨request, heq⟩)] at hplan
        exact hold hplan
    · rw [planInForce_other hu] at hplan
      exact hold hplan

end Plan

/-! ### Runs keep to the plan in force -/

section Programs

variable {parts : Parts} {server : ℕ} {j : Uuid} {I : Force → Prop} {o : Op}
  {actions : List Action}

/-- An operation by which no plan takes effect, and that gets no answer. -/
def Op.Idles (o : Op) : Prop := o.acts = false ∧ ∀ request, o ≠ .sys (.generatePlan request)

theorem faithfulAfter_of_idles (ho : o.Idles) (faithful : Bool) (r : Res o) :
    faithfulAfter faithful o r = faithful := by
  cases o with
  | db o =>
    cases o with
    | flushArtifact k path name type => exact absurd ho.1 (by simp [Op.acts])
    | _ => rfl
  | fs o => rfl
  | sys o => rfl

theorem planProtocol_of_idles (parts : Parts) (c : Call) (ho : o.Idles) (q : Force) :
    (planProtocol parts c).allows q o ∧ ∀ r, (planProtocol parts c).next q o r = q :=
  ⟨fun h => absurd (h.symm.trans ho.1) (by simp), fun r => by
    simp only [planProtocol, planAfter_of_ne ho.2, faithfulAfter_of_idles ho]⟩

theorem preserves_idles {c : Call} (ho : o.Idles) :
    Preserves (planProtocol parts c) I (perform o).run :=
  preserves_of_calls (calls_op ho) fun q _ _ ho => planProtocol_of_idles _ c ho q

theorem Op.Enacts.ne_generatePlan (ho : o.Enacts j actions) (request : LLMRequest) :
    o ≠ .sys (.generatePlan request) := by
  rintro rfl
  exact ho

/-- Enacting the accepted plan in force keeps it in force. -/
theorem preserves_enacts {α : Type} {p : Prog Op Res α} (hacc : Accepted parts j actions)
    (hp : Calls (fun o => o.Idles ∨ o.Enacts j actions) p) :
    Preserves (planProtocol parts (.run server j)) (fun q => q.plan = some actions) p := by
  refine preserves_of_kept hp ?_
  rintro q hq o (ho | ho)
  · obtain ⟨hallows, hnext⟩ := planProtocol_of_idles parts (.run server j) ho q
    exact ⟨hallows, fun r => by rw [hnext r]; exact hq⟩
  · refine ⟨fun _ => ⟨server, j, actions, rfl, hq, hacc, fun _ => ho⟩, fun r => ?_⟩
    exact (planAfter_of_ne ho.ne_generatePlan r).trans hq

theorem Op.Brackets.idles (ho : o.Brackets j) : o.Idles := by
  cases o with
  | db o => cases o <;> first | exact absurd ho id | exact ⟨rfl, by simp⟩
  | fs o => cases o <;> first | exact absurd ho id | exact ⟨rfl, by simp⟩
  | sys o => exact absurd ho id

theorem Op.RunsTool.enacts {name : String} {args : List String}
    (hrun : .runTool name args ∈ actions) (ho : o.RunsTool j args) :
    o.Idles ∨ o.Enacts j actions := by
  cases o with
  | db o => cases o <;> first | exact .inl ⟨rfl, by simp⟩ | exact absurd ho id
  | fs o =>
    cases o with
    | copyOut k output file => exact .inr ⟨ho.1, name, args, ho.2, hrun⟩
    | stage k => exact .inl ⟨rfl, by simp⟩
    | _ => exact absurd ho id
  | sys o =>
    cases o with
    | launch args' staged =>
      obtain rfl : args' = args := ho
      exact .inr ⟨name, hrun⟩
    | generatePlan request => exact absurd ho id
    | _ => exact .inl ⟨rfl, by simp⟩

/-- An action of the plan takes effect as itself. -/
theorem executeAction_enacts {a : Action} (ha : a ∈ actions) :
    Calls (fun o => o.Idles ∨ o.Enacts j actions)
      (ActionExecutor.executeAction parts server j a).run := by
  cases a with
  | createDirectory path => exact calls_op (.inr ⟨rfl, ha⟩)
  | writeFile path content => exact calls_op (.inr ⟨rfl, content, rfl, ha⟩)
  | createArtifact path => exact calls_throw _
  | runTool name args =>
    refine calls_bindE ?_ fun _ => calls_value _
    have hidle : ∀ o : SysOp, (Op.sys o).acts = false → (∀ request, o ≠ .generatePlan request) →
        (Op.sys o).Idles := fun o hacts hne => ⟨hacts, fun request h => hne request (Op.sys.inj h)⟩
    refine calls_bindE (calls_ofExcept _) fun _ => calls_bindE
      (calls_op (.inl (hidle (.acquireCli server) rfl (by simp)))) fun _ => calls_tryFinally ?_
        (calls_attemptOnly (.inl (hidle (.releaseCli server) rfl (by simp))))
    exact calls_mono (fun o ho => ho.enacts ha) (executeWithTimeout_calls parts j args)

/-- The drafts are those of artifacts of the plan, unless a flush has given another row. -/
def Named (actions : List Action) (drafts : List ArtifactDraft) (q : Force) : Prop :=
  q.faithful = true → ∀ d ∈ drafts, .createArtifact d.relativePath ∈ actions

/-- The promotions give drafts of the artifacts of the plan. -/
theorem promote_enacts (hacc : Accepted parts j actions) {paths copied : List String}
    {drafts : List ArtifactDraft} (hpaths : ∀ path ∈ paths, .createArtifact path ∈ actions)
    {q : Force} (hq : q.plan = some actions) (hdrafts : Named actions drafts q) :
    Obeys (planProtocol parts (.run server j))
      (fun r q' => q'.plan = some actions ∧ ∀ all, r.2 = .ok all → Named actions all q')
      (ActionExecutor.promote parts j paths copied drafts) q := by
  induction paths generalizing copied drafts q with
  | nil =>
    refine obeys_ret ⟨hq, fun all hall => ?_⟩
    rw [← Except.ok.inj hall]
    exact hdrafts
  | cons path rest ih =>
    have hpath := hpaths path List.mem_cons_self
    have hrest : ∀ p ∈ rest, .createArtifact p ∈ actions := fun p hp =>
      hpaths p (List.mem_cons_of_mem _ hp)
    -- A promotion that raises gives no drafts.
    have hraised : ∀ (left : ActionExecutor.Unfinished) (e : Exn) (q' : Force),
        q'.plan = some actions → Obeys (planProtocol parts (.run server j))
          (fun r q'' => q''.plan = some actions ∧ ∀ all, r.2 = .ok all → Named actions all q'')
          (.ret (left, (.error e : Except Exn (List ArtifactDraft)))) q' :=
      fun left e q' hq' => obeys_ret ⟨hq', fun all hall => absurd hall (by simp)⟩
    have hsave : Obeys (planProtocol parts (.run server j)) (fun _ q' => q' = q)
        (perform (.fs (.saveArtifact j path))).run q :=
      obeys_op (P := planProtocol parts (.run server j))
        (fun _ => ⟨server, j, actions, rfl, hq, hacc, fun _ => ⟨rfl, hpath⟩⟩) fun _ => rfl
    have hflush : Obeys (planProtocol parts (.run server j))
        (fun r q' => q'.plan = some actions ∧ ∀ d, r = .ok d → Named actions (drafts ++ [d]) q')
        (ArtifactService.registerArtifact parts j path).run q := by
      refine obeys_bindE (R := fun _ q' => q' = q) (obeys_ret rfl) ?_
        fun e q' hq' => ⟨hq' ▸ hq, fun d hd => absurd hd (by simp)⟩
      rintro _ _ rfl
      refine obeys_op (P := planProtocol parts (.run server j)) (o := .db (.flushArtifact ..))
        (fun _ => ⟨server, j, actions, rfl, hq, hacc, fun _ => ⟨rfl, hpath⟩⟩) ?_
      rintro (e | d)
      · exact ⟨hq, fun d hd => absurd hd (by simp)⟩
      · refine ⟨hq, fun d' hd' hfaithful d'' hd'' => ?_⟩
        obtain rfl := Except.ok.inj hd'
        obtain ⟨hbefore, hnamed⟩ := (Bool.and_eq_true _ _).mp hfaithful
        rcases List.mem_append.mp hd'' with hmem | hmem
        · exact hdrafts hbefore d'' hmem
        · rw [List.mem_singleton.mp hmem, of_decide_eq_true hnamed]
          exact hpath
    refine obeys_bind hsave ?_
    rintro (e | u) _ rfl
    · exact hraised _ e _ hq
    refine obeys_bind hflush ?_
    rintro (e | d) q' ⟨hq', hd⟩
    · exact hraised _ e _ hq'
    · exact ih hrest hq' (hd d rfl)

/-- An attempt puts the answer of the model in force, and executes nothing else. -/
theorem oneAttempt_enacts (request : LLMRequest) :
    Preserves (planProtocol parts (.run server j)) (fun _ => True)
      (LLMPlanRetryExecutor.oneAttempt parts (SecurityPolicyValidator.validateActions parts j)
        (executionCb parts server j) request).run := by
  intro q _
  have hanswer : Obeys (planProtocol parts (.run server j))
      (fun r q' => ∀ answer, r = .ok answer → q'.plan = (parts.parse answer).toOption)
      (perform (.sys (.generatePlan request))).run q := by
    refine obeys_op (P := planProtocol parts (.run server j))
      (fun h => absurd h (by simp [Op.acts])) fun r answer hr => ?_
    subst hr
    rfl
  refine obeys_bindE hanswer (fun answer q' hplan => ?_) fun _ _ _ => trivial
  have hforce := hplan answer rfl
  rcases hparse : parts.parse answer with e | actions
  · exact obeys_ret trivial
  · -- from here on the plan in force stays the same
    rw [hparse] at hforce
    have hlog : ∀ rows, Preserves (planProtocol parts (.run server j))
        (fun q => q.plan = some actions) (perform (.db (.logEvents j rows))).run :=
      fun rows => preserves_idles ⟨rfl, by simp⟩
    have hrest : Preserves (planProtocol parts (.run server j)) (fun q => q.plan = some actions)
        (do SecurityPolicyValidator.validateActions parts j actions
            executionCb parts server j actions
            pure actions : Task (List Action)).run := by
      refine preserves_bindE_of_returns (validateActions_preserves_of hlog actions)
        (validateActions_returns actions) fun _ hacc => ?_
      refine preserves_bindE (executionCb_preserves_of (fun o ho => preserves_idles ho.idles)
        (fun a ha => preserves_enacts hacc (executeAction_enacts ha))
        (fun q hq => promote_enacts hacc (fun path => mem_artifactPaths) hq
          fun _ d hd => absurd hd List.not_mem_nil) ?_ ?_) fun _ => preserves_ret _
      · intro drafts q hq hnamed
        refine obeys_op (P := planProtocol parts (.run server j)) (fun _ => ?_) fun _ => hq
        exact ⟨server, j, actions, rfl, hq, hacc, fun hfaithful => ⟨rfl, hnamed hfaithful⟩⟩
      · exact preserves_enacts hacc (calls_op (.inr ⟨rfl, rfl⟩))
    exact (hrest _ hforce).mono fun _ _ _ => trivial

/-- **A run keeps to the plan in force.** -/
theorem run_enacts :
    Preserves (planProtocol parts (.run server j)) (fun _ => True)
      (JobOrchestratorService.run parts server j).run := by
  have hframe : ∀ o : Op, o.Frames j → Preserves (planProtocol parts (.run server j))
      (fun _ => True) (perform o).run := by
    intro o ho plan _
    refine obeys_op (P := planProtocol parts (.run server j)) (fun hacts => ?_) fun _ => trivial
    cases o with
    | db o => cases o <;> first | exact absurd ho id | exact absurd hacts (by simp [Op.acts])
    | fs o => cases o <;> first | exact absurd ho id | exact absurd hacts (by simp [Op.acts])
    | sys o => cases o <;> first | exact absurd ho id | exact absurd hacts (by simp [Op.acts])
  refine preserves_tryExcept ?_ fun _ => ?_
  · refine preserves_bindE (preserves_idles (o := .sys (.acquireGate server)) ⟨rfl, by simp⟩)
      fun _ => ?_
    refine preserves_tryFinally (runInSlot_preserves_of hframe oneAttempt_enacts
      fun _ _ _ _ => preserves_idles ⟨rfl, by simp⟩) ?_
    exact preserves_bind (preserves_idles (o := .sys (.releaseGate server)) ⟨rfl, by simp⟩)
      fun _ => preserves_ret _
  · exact preserves_bindE (preserves_idles (o := JobOrchestratorService.queueTimeoutOp j)
      ⟨rfl, by simp⟩) fun _ => preserves_ret _

/-- Only runs put plans into effect. -/
theorem Call.idles {c : Call} (hc : ∀ server j, c ≠ .run server j) (ho : c.ops o) : o.Idles := by
  cases c with
  | run server j => exact absurd rfl (hc server j)
  | recover cutoff =>
    cases o with
    | db o => cases o <;> first | exact absurd ho id | exact ⟨rfl, by simp⟩
    | fs o => exact absurd ho id
    | sys o => exact absurd ho id
  | orphan x =>
    cases o with
    | db o => cases o <;> first | exact absurd ho id | exact ⟨rfl, by simp⟩
    | fs o => exact absurd ho id
    | sys o => cases o <;> first | exact absurd ho id | exact ⟨rfl, by simp⟩
  | _ =>
    cases o with
    | db o => cases o <;> first | exact absurd ho id | exact ⟨rfl, by simp⟩
    | fs o => cases o <;> first | exact absurd ho id | exact ⟨rfl, by simp⟩
    | sys o => cases o <;> first | exact absurd ho id | exact ⟨rfl, by simp⟩

theorem body_enacts (parts : Parts) (c : Call) :
    Obeys (planProtocol parts c) (fun _ _ => True) ((platform parts).body c) ⟨none, true⟩ := by
  have hother : (∀ server j, c ≠ .run server j) →
      Obeys (planProtocol parts c) (fun _ _ => True) ((platform parts).body c) ⟨none, true⟩ := by
    intro hc
    refine (obeys_of_calls (calls_mono (fun _ => c.idles hc) (body_calls parts c)) ?_).mono
      fun _ _ _ => trivial
    exact fun _ ho => planProtocol_of_idles _ c ho _
  cases c with
  | run server j => exact preserves_bindE run_enacts (fun _ => preserves_ret _) _ trivial
  | _ => exact hother (by simp)

end Programs

/-! ### The platform -/

/-- The database gives rows with the paths that they are flushed for. -/
theorem faithful_reach {parts : Parts} {m : State} (hm : (platform parts).Reach (start parts) m)
    {t : ℕ} {c : Call} {p : Prog Op Res (Except Exn Reply)} (ht : m.threads[t]? = some (c, p)) :
    ((planProtocol parts c).phase ⟨none, true⟩ t m.view.history).faithful = true := by
  refine System.Reach.phase_view (J := fun _ _ q _ => q.faithful = true) (body_enacts parts)
    (fun _ _ _ _ _ => rfl) ?_ (fun _ _ _ _ _ _ _ _ _ _ h => h) hm ht
  intro m c t q o k e r s _ _ _ hexec hq
  show faithfulAfter q.faithful o r = true
  rw [hq]
  cases o with
  | db o =>
    cases o with
    | flushArtifact i path name type =>
      rcases r with x | draft
      · rfl
      · have hdraft := exec_flushArtifact (show exec parts.base e _ _ = _ from hexec)
        exact decide_eq_true (congrArg ArtifactDraft.relativePath hdraft)
    | _ => rfl
  | fs o => rfl
  | sys o => rfl

/-- An operation by which a plan takes effect is a step of the accepted plan in force. -/
theorem enacts_of_acts {parts : Parts} {m : State} (hm : (platform parts).Reach (start parts) m)
    {l : Label Op Res} {before : History} (hl : l :: before <:+ m.view.history)
    (hacts : l.op.acts = true) :
    ∃ server j p actions, m.threads[l.tid]? = some (.run server j, p) ∧
      planInForce parts l.tid before = some actions ∧ Accepted parts j actions ∧
      l.op.Enacts j actions := by
  obtain ⟨m₁, c, k, hfirst, hrest, rfl, ht⟩ := System.Reach.performed_at hm hl
  obtain ⟨p, hp⟩ := System.Reach.call_kept hrest ht
  obtain ⟨server, j, actions, rfl, hplan, hacc, henacts⟩ :=
    (System.Reach.obeys (body_enacts parts) hfirst ht).head hacts
  rw [phase_eq_planInForce] at hplan
  exact ⟨server, j, p, actions, hp, hplan, hacc, henacts (faithful_reach hfirst ht)⟩

/-- **Complete mediation.**  Whenever, in any history of the platform, a directory or file
is written for a plan, a tool is launched or a file that it has left is copied back, an
artifact is promoted, registered or committed, or a plan is stored, then by a run of a job, as
a step of the plan that the last answer of the model to this run was read as; and this plan
has passed the policy and the static checks. -/
theorem complete_mediation (parts : Parts) {m : State}
    (hm : (platform parts).Reach (start parts) m) {l : Label Op Res} {before : History}
    (hl : l :: before <:+ m.view.history) (hacts : l.op.acts = true) :
    ∃ server j p actions, m.threads[l.tid]? = some (.run server j, p) ∧
      planInForce parts l.tid before = some actions ∧ Accepted parts j actions ∧
      l.op.Enacts j actions :=
  enacts_of_acts hm hl hacts

set_option maxRecDepth 100000 in
/-- The artifact of the sample plan is promoted as an action of the accepted plan. -/
theorem complete_mediation_promoted :
    ∃ (m : State) (j : Uuid) (actions : List Action),
      (platform (Sample.parts Sample.plan)).Reach (start (Sample.parts Sample.plan)) m ∧
      m.view.history.head?.any (fun l => l.op.acts) = true ∧
      planInForce (Sample.parts Sample.plan) 1 m.view.history.tail = some actions ∧
      Accepted (Sample.parts Sample.plan) j actions := by
  obtain ⟨m, hm, hgood⟩ := Sample.reached (Sample.parts Sample.plan) (Sample.running 8)
    (fun m => m.view.history.head?.any fun l => l.tid = 1 ∧ l.op.acts = true) (by decide +kernel)
  rcases hhist : m.view.history with _ | ⟨l, before⟩
  · rw [hhist] at hgood
    exact absurd hgood (by simp)
  · rw [hhist] at hgood
    obtain ⟨htid, hacts⟩ := of_decide_eq_true hgood
    obtain ⟨-, j, -, actions, -, hplan, hacc, -⟩ :=
      complete_mediation _ hm (show l :: before <:+ _ by rw [hhist]) hacts
    rw [htid] at hplan
    refine ⟨m, j, actions, hm, ?_, ?_, hacc⟩
    · rw [hhist]
      exact hacts
    · rw [hhist]
      exact hplan

/-- The plan of a job is stored by `save_action_plan` and by nothing else. -/
theorem exec_plan {base : Path} {e : Env} {o : Op} {r : Res o} {w w' : World} {j : Uuid}
    {plan : List Action} (h : exec base e o w = some (r, w'))
    (hplan : (held base j w').plan = some plan) :
    (held base j w).plan = some plan ∨ o = .db (.saveActionPlan j plan) := by
  by_cases hquiet : o.Quiet
  · rw [exec_quiet hquiet h] at hplan
    exact .inl hplan
  cases o with
  | sys o => exact absurd trivial hquiet
  | fs o =>
    refine .inl ?_
    rw [← hplan]
    simp only [held, (exec_fs_held h).1]
  | db o =>
    by_cases haff : (Op.db o).affects r = some j
    · cases o with
      | saveActionPlan k actions =>
        obtain rfl : k = j := Option.some.inj haff
        rcases exec_saveActionPlan h with ⟨-, hheld⟩ | ⟨-, hheld⟩
        · rw [hheld] at hplan
          obtain rfl : actions = plan := Option.some.inj hplan
          exact .inr rfl
        · rw [hheld] at hplan
          exact .inl hplan
      | commitArtifacts k drafts =>
        obtain rfl : k = j := Option.some.inj haff
        rcases exec_commitArtifacts h with ⟨-, hheld⟩ | ⟨-, hheld⟩
        · rw [hheld] at hplan
          exact .inl hplan
        · rw [hheld] at hplan
          exact .inl hplan
      | insertJob prompt parent =>
        -- a new job has no plan
        rcases exec_db_cases h with ⟨db, hrun, rfl⟩ | ⟨-, rfl⟩
        · obtain ⟨-, rfl, rfl⟩ := DbOp.run_insertJob hrun
          obtain rfl : e.fresh = j := Option.some.inj haff
          simp only [held, Db.job_insert, if_true] at hplan
          exact absurd hplan (by simp)
        · exact .inl hplan
      | _ => exact absurd trivial hquiet
    · have hcell := exec_frame h haff
      have hrow : w'.db.job j = w.db.job j := congrArg Cell.row hcell
      refine .inl ?_
      rw [← hplan]
      simp only [held, hrow]

/-- Where the plan of a job comes from. -/
theorem origin_of_plan {parts : Parts} {m : State} (hm : (platform parts).Reach (start parts) m)
    {j : Uuid} {plan : List Action}
    (hheld : (held parts.base j m.view.state).plan = some plan) :
    Accepted parts j plan ∧ ∃ t server p request answer,
      m.threads[t]? = some (.run server j, p) ∧
      ⟨t, .sys (.generatePlan request), .ok answer⟩ ∈ m.view.history ∧
      parts.parse answer = .ok plan := by
  induction hm with
  | refl => exact absurd hheld (by simp [held, start, System.initial, World.initial, Db.empty])
  | @tail m₁ m₂ hm hstep ih =>
    -- what was stored before stays explained
    have hold : (held parts.base j m₁.view.state).plan = some plan → Accepted parts j plan ∧
        ∃ t server p request answer, m₂.threads[t]? = some (.run server j, p) ∧
          ⟨t, .sys (.generatePlan request), .ok answer⟩ ∈ m₂.view.history ∧
          parts.parse answer = .ok plan := by
      intro hheld
      obtain ⟨hacc, t, server, p, request, answer, hthread, hmem, hparse⟩ := ih hheld
      obtain ⟨p', hp'⟩ := hstep.call_kept hthread
      refine ⟨hacc, t, server, p', request, answer, hp', ?_, hparse⟩
      exact (history_of_reach (.single hstep)).subset hmem
    have hreach := hm.tail hstep
    cases hstep with
    | invoke c _ => exact hold hheld
    | perform t c o k e r s ht he =>
      rcases exec_plan he hheld with hbefore | rfl
      · exact hold hbefore
      · obtain ⟨server, i, p, actions, hthread, hforce, hacc, hi, rfl⟩ :=
          enacts_of_acts hreach (l := ⟨t, _, r⟩) (List.suffix_refl _) rfl
        obtain rfl : j = i := hi
        obtain ⟨request, answer, hmem, hparse⟩ := answer_of_planInForce hforce
        exact ⟨hacc, t, server, p, request, answer, hthread, List.mem_cons_of_mem _ hmem, hparse⟩

/-- **Stored plans were accepted.**  In every reachable state, the plan of a job is what
some answer of the model to a run of this job was read as, and it has passed the policy and
the static checks. -/
theorem stored_plans_accepted (parts : Parts) {m : State}
    (hm : (platform parts).Reach (start parts) m) {j : Uuid} {row : JobRow}
    {plan : List Action} (hrow : m.view.state.db.job j = some row)
    (hplan : row.actionPlan = some plan) :
    Accepted parts j plan ∧ ∃ t server p request answer,
      m.threads[t]? = some (.run server j, p) ∧
      ⟨t, .sys (.generatePlan request), .ok answer⟩ ∈ m.view.history ∧
      parts.parse answer = .ok plan := by
  refine origin_of_plan hm ?_
  simp only [held, hrow]
  exact hplan

set_option maxRecDepth 100000 in
theorem stored_plans_accepted_sample :
    Accepted (Sample.parts Sample.plan) Sample.job Sample.plan ∧
      ∃ m : State, (platform (Sample.parts Sample.plan)).Reach
        (start (Sample.parts Sample.plan)) m ∧
        (m.view.state.db.job Sample.job).bind JobRow.actionPlan = some Sample.plan := by
  obtain ⟨m, hm, hgood⟩ := Sample.reached (Sample.parts Sample.plan) (Sample.running 15)
    (fun m => (m.view.state.db.job Sample.job).bind JobRow.actionPlan = some Sample.plan)
    (by decide +kernel)
  have hstored := of_decide_eq_true hgood
  obtain ⟨row, hrow, hplan⟩ := Option.bind_eq_some_iff.mp hstored
  exact ⟨(stored_plans_accepted _ hm hrow hplan).1, m, hm, hstored⟩

end CliExecutionPlatform
