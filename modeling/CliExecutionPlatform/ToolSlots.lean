/-
The processes of the tool and the slots of the CLI semaphore.

`run_tool` takes a slot, launches a process, drains its output and waits for it, and
gives the slot back when the block is left.  Only the deadline kills the process: an
exception raised while the output is drained, and the cancellation of the task,
leave the block while the process is alive.

* `toolProtocol` — the order of these operations, `lost` once a process is left alone;
  `run_preserves` — a run follows it and ends outside of it;
* `holders`, `launcher` — who holds the slots of a server, and who launched a process;
* `Accounted` — every live process belongs to one holder of a slot, and the holders and
  the free slots are all slots there are; `Accounted.step` — it is kept by a step that
  does not leave a process alone;
* **`live_processes_bounded`** — in every state before which no run of the tool was cut
  off, every live process has the slot of its run, and a server has at most two of
  them; `cut_off_processes_live` is a state with three of them and no slot taken.
-/
import CliExecutionPlatform.Ended
import CliExecutionPlatform.Protocol
import Mathlib.Data.List.Perm.Subperm

open Files Process

namespace CliExecutionPlatform

/-! ### The protocol of the tool -/

/-- The phases of a run: it has no slot, it has one and no process, it has both, or it
no longer looks after a process that it has launched. -/
inductive ToolPhase
  | outside
  | holding (server : ℕ)
  | running (server pid : ℕ)
  | lost
  deriving DecidableEq

namespace ToolPhase

/-- The operation cuts a run of the tool off: its task is cancelled between the launch
of the process and the end of the wait for it, or output cannot be written to the
database. -/
def cut : ToolPhase → Mark
  | holding _, .sys (.launch _ _), .ok (_, behaviour) => behaviour.ending = .cancelled
  | running _ _, .sys (.killProcess _), .error _ => true
  | running _ _, .sys (.waitProcess _ _), .error _ => true
  | running _ _, .db (.logEvents _ _), .error _ => true
  | _, _, _ => false

/-- The phase after an operation that does not cut the run off. -/
def after : ToolPhase → (o : Op) → Res o → ToolPhase
  | outside, .sys (.acquireCli server), .ok _ => holding server
  | holding _, .sys (.releaseCli _), _ => outside
  | holding server, .sys (.launch _ _), .ok (pid, _) => running server pid
  | running server _, .sys (.waitProcess _ _), .ok _ => holding server
  | q, _, _ => q

def next (q : ToolPhase) (o : Op) (r : Res o) : ToolPhase :=
  if q.cut o r then lost else q.after o r

/-- The operations on slots and processes that a phase allows to a run on `site`. -/
def allows (site : Option ℕ) : ToolPhase → Op → Prop
  | lost, _ => True
  | outside, .sys (.acquireCli s) => site = some s
  | holding s, .sys (.releaseCli s') => s' = s
  | holding _, .sys (.launch _ _) => True
  | running _ pid, .sys (.waitProcess pid' _) => pid' = pid
  | _, .sys (.acquireCli _) | _, .sys (.releaseCli _) | _, .sys (.launch _ _)
  | _, .sys (.waitProcess _ _) => False
  | _, _ => True

/-- The slot that a run holds. -/
def slot : ToolPhase → Option ℕ
  | holding server | running server _ => some server
  | outside | lost => none

/-- The phases between two runs of the tool. -/
def Idle (q : ToolPhase) : Prop := q = outside ∨ q = lost

end ToolPhase

/-- The protocol of the runs on one server, and of calls that run on none. -/
def toolProtocol (site : Option ℕ) : Protocol Op Res ToolPhase where
  next := ToolPhase.next
  allows := ToolPhase.allows site

/-- The operation concerns neither the slots nor a process. -/
def Op.NoTool : Op → Prop
  | .sys (.acquireCli _) | .sys (.releaseCli _) | .sys (.launch _ _)
  | .sys (.waitProcess _ _) => False
  | _ => True

section Programs

variable {parts : Parts} {j : Uuid} {server : ℕ} {site : Option ℕ} {q : ToolPhase} {o : Op}

theorem ToolPhase.next_lost (o : Op) (r : Res o) : ToolPhase.next .lost o r = .lost := by
  simp [ToolPhase.next, ToolPhase.cut, ToolPhase.after]

theorem ToolPhase.allows_of_noTool (ho : o.NoTool) : q.allows site o := by
  cases o with
  | db o => cases q <;> trivial
  | fs o => cases q <;> trivial
  | sys o => cases o <;> first | exact absurd ho id | (cases q <;> trivial)

theorem ToolPhase.after_of_noTool (ho : o.NoTool) (r : Res o) : q.after o r = q := by
  cases o with
  | db o => cases q <;> rfl
  | fs o => cases q <;> rfl
  | sys o => cases o <;> first | exact absurd ho id | (cases q <;> rfl)

/-- Without a process, only a launch can cut a run off. -/
theorem ToolPhase.cut_of_noTool (hq : ∀ s pid, q ≠ .running s pid) (ho : o.NoTool) (r : Res o) :
    q.cut o r = false := by
  cases q with
  | outside => rfl
  | lost => rfl
  | running s pid => exact absurd rfl (hq s pid)
  | holding s =>
    cases o with
    | db o => rfl
    | fs o => rfl
    | sys o =>
      cases o with
      | launch args staged => exact absurd ho id
      | _ => rfl

theorem toolProtocol_of_noTool (hq : ∀ s pid, q ≠ .running s pid) (ho : o.NoTool) :
    (toolProtocol site).allows q o ∧ ∀ r, (toolProtocol site).next q o r = q := by
  refine ⟨ToolPhase.allows_of_noTool ho, fun r => ?_⟩
  show q.next o r = q
  rw [ToolPhase.next, ToolPhase.cut_of_noTool hq ho, if_neg (by simp)]
  exact ToolPhase.after_of_noTool ho r

/-- In phases without a process, other operations do not matter. -/
theorem preserves_noTool {α : Type} {I : ToolPhase → Prop} {p : Prog Op Res α}
    (hI : ∀ s pid, ¬ I (.running s pid)) (hp : Calls Op.NoTool p) :
    Preserves (toolProtocol site) I p :=
  preserves_of_calls hp fun _ hq _ ho =>
    toolProtocol_of_noTool (fun s pid h => hI s pid (h ▸ hq)) ho

/-- Nothing is asked of a run that has lost its process. -/
theorem obeys_lost {α : Type} {Post : α → ToolPhase → Prop} (hpost : ∀ a, Post a .lost)
    (p : Prog Op Res α) : Obeys (toolProtocol site) Post p .lost :=
  obeys_sink (fun _ => trivial) ToolPhase.next_lost hpost p

/-! ### One run of the tool -/

/-- The run has its slot and no process, or it has lost the process. -/
def Ready (server : ℕ) (q : ToolPhase) : Prop := q = .holding server ∨ q = .lost

/-- After the attempts to launch the process. -/
def Launched (server : ℕ) : Except Exn (ℕ × Behaviour) → ToolPhase → Prop
  | .ok (pid, behaviour), q =>
    (q = .running server pid ∧ behaviour.ending ≠ .cancelled) ∨ q = .lost
  | .error _, q => Ready server q

/-- While the output is drained: an exception leaves the process alone. -/
def Draining {α : Type} (server pid : ℕ) (r : Except Exn α) (q : ToolPhase) : Prop :=
  (q = .running server pid ∧ ∃ a, r = .ok a) ∨ q = .lost

theorem Draining.lost_of_error {α : Type} {pid : ℕ} {e : Exn}
    (h : Draining server pid (.error e : Except Exn α) q) : q = .lost := by
  rcases h with ⟨-, a, ha⟩ | h
  · exact absurd ha (by simp)
  · exact h

theorem preserves_ready {α : Type} {p : Prog Op Res α} (hp : Calls Op.NoTool p) :
    Preserves (toolProtocol (some server)) (Ready server) p :=
  preserves_noTool (by rintro s pid (h | h) <;> exact absurd h (by simp)) hp

theorem launch_obeys (args : List String) (staged : Staged) (hq : Ready server q) :
    Obeys (toolProtocol (some server)) (Launched server)
      (perform (.sys (.launch args staged))).run q := by
  rcases hq with rfl | rfl
  · refine obeys_op (P := toolProtocol (some server)) (o := .sys (.launch args staged)) trivial ?_
    intro r
    show Launched server r (ToolPhase.next (.holding server) (.sys (.launch args staged)) r)
    rcases r with e | ⟨pid, behaviour⟩
    · exact .inl rfl
    · by_cases hb : behaviour.ending = .cancelled
      · exact .inr (if_pos (decide_eq_true hb))
      · exact .inl ⟨if_neg (by simpa [ToolPhase.cut] using hb), hb⟩
  · refine obeys_lost (fun r => ?_) _
    rcases r with e | ⟨pid, behaviour⟩
    · exact .inr rfl
    · exact .inr rfl

theorem launchWithRetry_obeys (args : List String) (staged : Staged) (n : ℕ)
    (hq : Ready server q) :
    Obeys (toolProtocol (some server)) (Launched server)
      (Runner.launchWithRetry parts args staged n).run q := by
  induction n generalizing q with
  | zero =>
    exact obeys_tryExcept (launch_obeys args staged hq) (fun _ _ h => h)
      (fun _ _ _ h => obeys_ret h) fun _ _ _ h => h
  | succ n ih =>
    refine obeys_tryExcept (launch_obeys args staged hq) (fun _ _ h => h) ?_ fun _ _ _ h => h
    intro e q' _ hq'
    have hsleep : Preserves (toolProtocol (some server)) (Ready server)
        (perform (.sys (.sleep 500))).run :=
      preserves_ready (calls_op (o := .sys (.sleep 500)) trivial)
    exact obeys_bindE (hsleep q' hq') (fun _ _ h => ih h) fun _ _ h => h

/-- A line is written, or the process is left alone. -/
theorem persist_obeys (pid : ℕ) (lines : List String) :
    Obeys (toolProtocol (some server)) (Draining server pid) (Runner.persist j lines).run
      (.running server pid) := by
  rw [Runner.persist]
  by_cases hr : Drain.records lines = []
  · rw [if_pos hr]
    exact obeys_ret (.inl ⟨rfl, (), rfl⟩)
  · rw [if_neg hr]
    refine obeys_op (P := toolProtocol (some server))
      (o := .db (.logEvents j (Drain.records lines)))
      trivial ?_
    intro r
    rcases r with e | u
    · exact .inr rfl
    · exact .inl ⟨rfl, u, rfl⟩

theorem collect_obeys (pid : ℕ) (arrivals : List (Stream × List UInt8)) (ds : Stream → Drain) :
    Obeys (toolProtocol (some server)) (Draining server pid)
      (Runner.collect parts j arrivals ds).run
      (.running server pid) := by
  have hlost : ∀ {α : Type} (r : Except Exn α), Draining server pid r .lost := fun _ => .inr rfl
  induction arrivals generalizing ds with
  | nil => exact obeys_ret (.inl ⟨rfl, ds, rfl⟩)
  | cons a rest ih =>
    -- what follows a read without an exception
    refine obeys_bindE (R := Draining server pid) ?_ ?_ ?_
    · refine obeys_bindE (R := Draining server pid) ?_ ?_ ?_
      · refine obeys_tryExcept (persist_obeys pid _) (fun _ _ h => h) ?_ fun _ _ _ h => h
        intro e q _ hq
        rw [hq.lost_of_error]
        exact obeys_lost hlost _
      · rintro u q (⟨rfl, -⟩ | rfl)
        · exact obeys_ret (.inl ⟨rfl, _, rfl⟩)
        · exact obeys_lost hlost _
      · exact fun e q hq => .inr hq.lost_of_error
    · rintro ds' q (⟨rfl, -⟩ | rfl)
      · exact ih ds'
      · exact obeys_lost hlost _
    · exact fun e q hq => .inr hq.lost_of_error

/-- Waiting for the process ends with its slot alone. -/
theorem waitProcess_obeys (pid : ℕ) (connected : Bool) :
    Obeys (toolProtocol (some server)) (fun _ => Ready server)
      (perform (.sys (.waitProcess pid connected))).run (.running server pid) := by
  refine obeys_op (P := toolProtocol (some server)) (o := .sys (.waitProcess pid connected)) rfl ?_
  intro r
  rcases r with e | u
  · exact .inr rfl
  · exact .inl rfl

theorem awaitProcess_obeys {pid : ℕ} {b : Behaviour} (hq : Launched server (.ok (pid, b)) q) :
    Obeys (toolProtocol (some server)) (fun _ => Ready server)
      (Runner.awaitProcess parts j pid b).run q := by
  have hlost : ∀ r : Except Exn Runner.Exit, Ready server .lost := fun _ => .inr rfl
  obtain ⟨rfl, hb⟩ | rfl := hq
  · refine obeys_bindE (collect_obeys pid _ _) ?_ ?_
    · rintro ds q (⟨rfl, -⟩ | rfl)
      · cases hend : b.ending with
        | exited code =>
          exact obeys_bindE (waitProcess_obeys pid false) (fun _ _ h => obeys_ret h) fun _ _ h => h
        | deadline connected =>
          -- the only branch that kills the process
          have hkill : Obeys (toolProtocol (some server)) (Draining server pid)
              (perform (.sys (.killProcess pid))).run (.running server pid) := by
            refine obeys_op (P := toolProtocol (some server))
              (o := .sys (.killProcess pid)) trivial ?_
            intro r
            rcases r with e | u
            · exact .inr rfl
            · exact .inl ⟨rfl, u, rfl⟩
          refine obeys_bindE hkill ?_ ?_
          · rintro _ _ (⟨rfl, -⟩ | rfl)
            · refine obeys_bindE (waitProcess_obeys pid connected) ?_ fun _ _ h => h
              intro _ q hq
              have hmarker : ∀ rows, Preserves (toolProtocol (some server)) (Ready server)
                  (perform (.db (.logEvents j rows))).run := fun rows =>
                preserves_ready (calls_op (o := .db (.logEvents j rows)) trivial)
              exact obeys_bindE (hmarker _ q hq) (fun _ _ h => obeys_ret h) fun _ _ h => h
            · exact obeys_lost hlost _
          · exact fun e q hq => .inr hq.lost_of_error
        | cancelled => exact absurd hend hb
      · exact obeys_lost hlost _
    · exact fun e q hq => .inr hq.lost_of_error
  · exact obeys_lost hlost _

theorem copyOutAll_noTool (output : Option String) (files : List TmpFile) :
    Calls Op.NoTool (Runner.copyOutAll j output files).run := by
  induction files with
  | nil => exact calls_value ()
  | cons f rest ih => exact calls_bindE (calls_op (o := .fs (.copyOut _ _ _)) trivial) fun _ => ih

theorem executeWithTimeout_preserves (args : List String) :
    Preserves (toolProtocol (some server)) (Ready server)
      (Runner.executeWithTimeout parts j args).run := by
  refine preserves_bindE (preserves_ready (calls_op (o := .fs (.stage j)) trivial)) fun staged => ?_
  refine preserves_bindE (preserves_ready (calls_ofExcept _)) fun _ => ?_
  refine preserves_bindE (preserves_ready (calls_ofExcept _)) fun _ => ?_
  intro q hq
  refine obeys_bindE (launchWithRetry_obeys args staged 2 hq) ?_ fun _ _ h => h
  intro process q' hq'
  refine obeys_bindE (awaitProcess_obeys hq') ?_ fun _ _ h => h
  intro exit q'' hq''
  refine preserves_ready ?_ q'' hq''
  by_cases hc : exit.code ≠ 0
  · rw [if_pos hc]
    exact calls_throw _
  · rw [if_neg hc]
    exact calls_bindE (copyOutAll_noTool _ _) fun _ => calls_value _

/-- **A run of the tool** starts without a slot and ends without one, unless it has
left its process alone. -/
theorem runTool_preserves (args : List String) :
    Preserves (toolProtocol (some server)) ToolPhase.Idle
      (Runner.runTool parts server j args).run := by
  rintro q (rfl | rfl)
  · refine obeys_bindE (R := fun _ q => q = .outside) (obeys_ret rfl) ?_ fun _ _ h => .inl h
    rintro _ _ rfl
    -- A slot that was not acquired is not released.
    have hacquire : Obeys (toolProtocol (some server))
        (fun r q => (∃ u, r = .ok u) ∧ q = .holding server ∨ (∃ e, r = .error e) ∧ q = .outside)
        (perform (.sys (.acquireCli server))).run .outside := by
      refine obeys_op (P := toolProtocol (some server)) (o := .sys (.acquireCli server)) rfl ?_
      intro r
      rcases r with e | u
      · exact .inr ⟨⟨e, rfl⟩, rfl⟩
      · exact .inl ⟨⟨u, rfl⟩, rfl⟩
    refine obeys_bindE hacquire ?_ ?_
    · rintro _ _ (⟨-, rfl⟩ | ⟨⟨e, he⟩, -⟩)
      · refine obeys_tryFinally (executeWithTimeout_preserves args _ (.inl rfl)) ?_
        intro r q hq
        refine obeys_bind (R := fun _ => ToolPhase.Idle) ?_ fun _ _ h => obeys_ret h
        rcases hq with rfl | rfl
        · exact obeys_op (P := toolProtocol (some server)) (o := .sys (.releaseCli server)) rfl
            fun _ => .inl rfl
        · exact obeys_lost (fun _ => .inr rfl) _
      · exact absurd he (by simp)
    · rintro e _ (⟨⟨u, hu⟩, -⟩ | ⟨-, rfl⟩)
      · exact absurd hu (by simp)
      · exact .inl rfl
  · exact obeys_lost (fun _ => .inr rfl) _

/-! ### The run of a job -/

theorem preserves_idle {α : Type} {p : Prog Op Res α} (hp : Calls Op.NoTool p) :
    Preserves (toolProtocol site) ToolPhase.Idle p :=
  preserves_noTool (by rintro s pid (h | h) <;> exact absurd h (by simp)) hp

theorem preserves_idle_op (ho : o.NoTool) :
    Preserves (toolProtocol (some server)) ToolPhase.Idle (perform o).run :=
  preserves_idle (calls_op ho)

theorem executeActions_preserves (actions : List Action) :
    Preserves (toolProtocol (some server)) ToolPhase.Idle
      (ActionExecutor.executeActions parts server j actions).run := by
  induction actions with
  | nil => exact preserves_ret _
  | cons a rest ih =>
    cases a with
    | createArtifact path => exact ih
    | createDirectory path =>
      exact preserves_bindE (preserves_idle_op (o := .fs (.createDirectory ..)) trivial) fun _ => ih
    | writeFile path content =>
      exact preserves_bindE (preserves_idle_op (o := .fs (.writeFile ..)) trivial) fun _ => ih
    | runTool name args =>
      exact preserves_bindE
        (preserves_bindE (runTool_preserves args) fun _ => preserves_ret _) fun _ => ih

theorem promote_noTool (paths copied : List String) (drafts : List ArtifactDraft) :
    Calls Op.NoTool (ActionExecutor.promote parts j paths copied drafts) := by
  induction paths generalizing copied drafts with
  | nil => exact calls_ret _
  | cons path rest ih =>
    refine calls_bind (calls_op (o := .fs (.saveArtifact ..)) trivial) fun r => ?_
    cases r with
    | error e => exact calls_ret _
    | ok u =>
      refine calls_bind (calls_bindE (calls_ofExcept _) fun _ =>
        calls_op (o := .db (.flushArtifact ..)) trivial) fun r => ?_
      cases r with
      | error e => exact calls_ret _
      | ok draft => exact ih _ _

theorem cleanUp_noTool (paths : List String) :
    Calls Op.NoTool (ActionExecutor.cleanUp j paths) := by
  induction paths with
  | nil => exact calls_ret _
  | cons path rest ih =>
    exact calls_bind (calls_attemptOnly (o := .fs (.removeCopy ..)) trivial) fun _ => ih

theorem rollback_noTool (left : ActionExecutor.Unfinished) :
    Calls Op.NoTool (ActionExecutor.rollback j left).run := by
  rw [ActionExecutor.rollback]
  by_cases hopen : left.inTransaction
  · rw [if_pos hopen]
    exact calls_op (o := .db (.rollbackSession ..)) trivial
  · rw [if_neg hopen]
    exact calls_value ()

theorem conclude_noTool (token : String) (r : ActionExecutor.Unfinished × Except Exn Unit) :
    Calls Op.NoTool (ActionExecutor.conclude j token r).run := by
  obtain ⟨left, r⟩ := r
  cases r with
  | ok u => exact calls_op (o := .fs (.completeAttempt ..)) trivial
  | error e =>
    show Calls _ (ExceptT.run (if e.isException then _ else _))
    by_cases he : e.isException
    · rw [if_pos he]
      refine calls_bindE (rollback_noTool left) fun _ => ?_
      exact calls_bind (cleanUp_noTool left.copied) fun _ =>
        calls_bindE (calls_op (o := .fs (.rollbackAttempt ..)) trivial) fun _ => calls_throw e
    · rw [if_neg he]
      exact calls_throw e

theorem executeAttempt_preserves (actions : List Action) :
    Preserves (toolProtocol (some server)) ToolPhase.Idle
      (JobOrchestratorService.executionCb parts server j actions).run := by
  refine preserves_bindE (preserves_idle_op (o := .fs (.beginAttempt j)) trivial) fun token => ?_
  refine preserves_bind ?_ fun r => preserves_idle (conclude_noTool token r)
  refine preserves_bind (executeActions_preserves actions) fun r => ?_
  cases r with
  | error e => exact preserves_ret _
  | ok u =>
    refine preserves_bind (preserves_idle (promote_noTool _ _ _)) fun r => ?_
    obtain ⟨left, r⟩ := r
    cases r with
    | error e => exact preserves_ret _
    | ok drafts =>
      refine preserves_bind ?_ fun _ => preserves_ret _
      exact preserves_bindE (preserves_idle_op (o := .db (.commitArtifacts ..)) trivial)
        fun _ => preserves_idle_op (o := .db (.saveActionPlan ..)) trivial

theorem validateActions_noTool (actions : List Action) :
    Calls Op.NoTool (SecurityPolicyValidator.validateActions parts j actions).run := by
  induction actions with
  | nil => exact calls_value ()
  | cons a rest ih =>
    refine calls_bindE ?_ fun _ => ih
    rw [SecurityPolicyValidator.validateAction]
    rcases SecurityPolicyValidator.policyViolation parts.base j a with e | _ | message
    · exact calls_throw e
    · exact calls_ofExcept _
    · exact calls_bindE (calls_op (o := .db (.logEvents ..)) trivial) fun _ => calls_throw _

theorem oneAttempt_preserves (request : LLMRequest) :
    Preserves (toolProtocol (some server)) ToolPhase.Idle (LLMPlanRetryExecutor.oneAttempt parts
      (SecurityPolicyValidator.validateActions parts j)
      (JobOrchestratorService.executionCb parts server j) request).run := by
  refine preserves_bindE (preserves_idle_op (o := .sys (.generatePlan ..)) trivial) fun _ => ?_
  refine preserves_bindE (preserves_idle (calls_ofExcept _)) fun actions => ?_
  refine preserves_bindE (preserves_idle (validateActions_noTool actions)) fun _ => ?_
  exact preserves_bindE (executeAttempt_preserves actions) fun _ => preserves_ret _

theorem generateActions_preserves (delays : List ℕ) (attempt : ℕ) (request : LLMRequest) :
    Preserves (toolProtocol (some server)) ToolPhase.Idle
      (LLMPlanRetryExecutor.generateActions parts
      (JobOrchestratorService.onAttempt j) (SecurityPolicyValidator.validateActions parts j)
      (JobOrchestratorService.executionCb parts server j) delays attempt request).run := by
  induction delays generalizing attempt request with
  | nil =>
    exact preserves_bindE (preserves_idle_op (o := .db (.appendEvent ..)) trivial)
      fun _ => oneAttempt_preserves _
  | cons delay delays ih =>
    refine preserves_bindE (preserves_idle_op (o := .db (.appendEvent ..)) trivial) fun _ => ?_
    refine preserves_tryExcept (oneAttempt_preserves _) fun e => ?_
    exact preserves_bindE (preserves_idle_op (o := .sys (.sleep _)) trivial) fun _ => ih _ _

theorem inheritContext_noTool (parent : Option Uuid) :
    Calls Op.NoTool (JobOrchestratorService.inheritContext j parent).run := by
  cases parent with
  | none => exact calls_value _
  | some parent =>
    refine calls_bindE ?_ fun context =>
      calls_bindE (calls_op (o := .db (.appendEvent ..)) trivial) fun _ => calls_value _
    generalize JobOrchestratorService.inheritedFiles = files
    induction files with
    | nil => exact calls_value _
    | cons f rest ih =>
      refine calls_bindE (calls_op (o := .fs (.copyWorkspaceFile ..)) trivial) fun _ => ?_
      refine calls_bindE (calls_op (o := .fs (.readFile ..)) trivial) fun _ => ?_
      refine calls_bindE (calls_ofExcept _) fun _ => ?_
      exact calls_bindE ih fun _ => calls_value _

theorem runBody_preserves :
    Preserves (toolProtocol (some server)) ToolPhase.Idle
      (JobOrchestratorService.runBody parts server j).run := by
  refine preserves_bindE (preserves_idle_op (o := .db (.getJob j)) trivial) fun row => ?_
  cases row with
  | none => exact preserves_ret _
  | some record =>
    refine preserves_bindE (preserves_idle (inheritContext_noTool _)) fun context => ?_
    refine preserves_bindE (generateActions_preserves _ _ _) fun _ => ?_
    refine preserves_bindE (preserves_idle_op (o := .db (.appendEvent ..)) trivial) fun _ => ?_
    exact preserves_bindE (preserves_idle_op (o := .db (.transition ..)) trivial)
      fun _ => preserves_ret _

theorem runInSlot_preserves :
    Preserves (toolProtocol (some server)) ToolPhase.Idle
      (JobOrchestratorService.runInSlot parts server j).run := by
  refine preserves_bindE (preserves_idle_op (o := .db (.transition ..)) trivial) fun started => ?_
  cases started with
  | false => exact preserves_ret _
  | true =>
    refine preserves_tryExcept runBody_preserves fun e => ?_
    refine preserves_bindE ?_ fun _ => preserves_ret _
    refine preserves_tryExcept ?_ fun _ => preserves_ret _
    exact preserves_bindE (preserves_idle_op (o := .db (.transition ..)) trivial)
      fun _ => preserves_ret _

/-- **A run of a job follows the protocol of its server.** -/
theorem run_preserves :
    Preserves (toolProtocol (some server)) ToolPhase.Idle
      (JobOrchestratorService.run parts server j).run := by
  refine preserves_tryExcept ?_ fun _ => ?_
  · refine preserves_bindE (preserves_idle_op (o := .sys (.acquireGate server)) trivial) fun _ => ?_
    exact preserves_tryFinally runInSlot_preserves
      (preserves_idle (calls_attemptOnly (o := .sys (.releaseGate server)) trivial))
  · exact preserves_bindE (preserves_idle_op (o := .db (.transition ..)) trivial)
      fun _ => preserves_ret _

end Programs

/-- The server on which a call uses the tool. -/
def Call.site : Call → Option ℕ
  | run server _ => some server
  | recover _ | create _ | refine _ _ | orphan _ => none

theorem Call.noTool {c : Call} (hc : c.site = none) {o : Op} (h : c.ops o) : o.NoTool := by
  cases o with
  | db o => trivial
  | fs o => trivial
  | sys o =>
    cases c with
    | run server j => exact absurd hc (by simp [Call.site])
    | recover cutoff => exact absurd h id
    | create prompt => cases o <;> trivial
    | refine parent prompt => cases o <;> trivial
    | orphan orphan => cases o <;> trivial

/-- Every call follows the protocol of its server. -/
theorem body_preserves (parts : Parts) (c : Call) :
    Preserves (toolProtocol c.site) ToolPhase.Idle ((platform parts).body c) := by
  rcases hsite : c.site with _ | server
  · exact preserves_idle (calls_mono (fun _ ho => c.noTool hsite ho) (body_calls parts c))
  · cases c with
    | run s j =>
      obtain rfl : s = server := Option.some.inj hsite
      exact preserves_bindE run_preserves fun _ => preserves_ret _
    | _ => exact absurd hsite (by simp [Call.site])

/-! ### Slots and processes -/

/-- A slot of the server was taken. -/
def takes (server : ℕ) : Mark
  | .sys (.acquireCli s), .ok _ => s = server
  | _, _ => false

/-- A slot of the server was given back. -/
def gives (server : ℕ) : Mark
  | .sys (.releaseCli s), _ => s = server
  | _, _ => false

/-- The process was launched. -/
def launches (pid : ℕ) : Mark
  | .sys (.launch _ _), .ok (p, _) => p = pid
  | _, _ => false

/-- The threads that hold a slot of the server. -/
def holders (server : ℕ) : History → List ℕ
  | [] => []
  | l :: h =>
    if takes server l.op l.res then l.tid :: holders server h
    else if gives server l.op l.res then (holders server h).erase l.tid
    else holders server h

/-- The thread that has launched the process; identifiers can be used again, so it is
the last one. -/
def launcher (pid : ℕ) : History → Option ℕ
  | [] => none
  | l :: h => if launches pid l.op l.res then some l.tid else launcher pid h

/-- The phase of a thread. -/
def toolPhase (t : ℕ) (h : History) : ToolPhase := (toolProtocol none).phase .outside t h

/-- The operation cuts the run of the tool of its thread off. -/
def CutsOff (l : Label Op Res) (before : History) : Prop :=
  (toolPhase l.tid before).cut l.op l.res = true

instance (l : Label Op Res) (before : History) : Decidable (CutsOff l before) :=
  inferInstanceAs (Decidable (_ = true))

section Phases

variable {t u : ℕ} {h : History} {o : Op} {r : Res o}

theorem toolPhase_own (hcut : ¬ CutsOff ⟨t, o, r⟩ h) :
    toolPhase t (⟨t, o, r⟩ :: h) = (toolPhase t h).after o r := by
  rw [toolPhase, Protocol.phase_own]
  exact if_neg hcut

theorem toolPhase_other (hu : u ≠ t) : toolPhase u (⟨t, o, r⟩ :: h) = toolPhase u h :=
  Protocol.phase_other (Ne.symm hu)

theorem ToolPhase.after_ne_lost {q : ToolPhase} (hq : q ≠ .lost) : q.after o r ≠ .lost := by
  unfold ToolPhase.after
  split
  · simp
  · simp
  · simp
  · simp
  · exact hq

/-- What a phase allows leads to a slot of its own server. -/
theorem ToolPhase.slot_next {site : Option ℕ} {q : ToolPhase} {s : ℕ}
    (hq : ∀ s, q.slot = some s → site = some s) (hallows : q.allows site o)
    (hslot : (q.next o r).slot = some s) : site = some s := by
  rw [ToolPhase.next] at hslot
  by_cases hcut : q.cut o r
  · rw [if_pos hcut] at hslot
    exact absurd hslot (by simp [ToolPhase.slot])
  · rw [if_neg hcut] at hslot
    unfold ToolPhase.after at hslot
    split at hslot
    · exact hallows.trans hslot
    · exact absurd hslot (by simp [ToolPhase.slot])
    · exact hq s hslot
    · exact hq s hslot
    · exact hq s hslot

/-- The phase does not depend on what the protocol allows. -/
theorem phase_eq (site : Option ℕ) :
    (toolProtocol site).phase .outside t h = toolPhase t h := by
  unfold toolPhase
  refine Protocol.phase_congr ?_ h
  rfl

/-- No process is left alone by a run that is never cut off. -/
theorem toolPhase_ne_lost (hcalm : ¬ Ever CutsOff h) (t : ℕ) : toolPhase t h ≠ .lost := by
  induction h with
  | nil => exact ToolPhase.noConfusion
  | cons l h ih =>
    obtain ⟨hl, hh⟩ := not_or.mp (fun hc => hcalm (ever_cons.mpr hc))
    obtain ⟨u, o, r⟩ := l
    by_cases hu : t = u
    · rw [hu, toolPhase_own hl]
      exact ToolPhase.after_ne_lost (hu ▸ ih hh)
    · rw [toolPhase_other hu]
      exact ih hh

end Phases

theorem holders_acquired (s server t : ℕ) (u : Unit) (h : History) :
    holders s (⟨t, .sys (.acquireCli server), .ok u⟩ :: h) =
      if server = s then t :: holders s h else holders s h := by
  show (if decide (server = s) = true then t :: holders s h
    else if false = true then (holders s h).erase t else holders s h) = _
  simp only [decide_eq_true_eq, Bool.false_eq_true, if_false]

theorem holders_released (s server t : ℕ) (r : Except Exn Unit) (h : History) :
    holders s (⟨t, .sys (.releaseCli server), r⟩ :: h) =
      if server = s then (holders s h).erase t else holders s h := by
  show (if false = true then t :: holders s h
    else if decide (server = s) = true then (holders s h).erase t else holders s h) = _
  simp only [decide_eq_true_eq, Bool.false_eq_true, if_false]

/-- The holders of slots are the threads in the phases with a slot, and with the free
slots they are all slots there are. -/
structure SlotsAccounted (cli : ℕ → ℕ) (h : History) : Prop where
  nodup : ∀ s, (holders s h).Nodup
  mem : ∀ t s, t ∈ holders s h ↔ (toolPhase t h).slot = some s
  total : ∀ s, cli s + (holders s h).length = maxCliProcesses

/-- The live processes are those of the threads that run one, each of which has
launched it. -/
structure ProcessesAccounted (live : List ℕ) (h : History) : Prop where
  nodup : live.Nodup
  owned : ∀ pid ∈ live, ∃ t s, toolPhase t h = .running s pid
  running : ∀ t s pid, toolPhase t h = .running s pid → pid ∈ live ∧ launcher pid h = some t

namespace SlotsAccounted

variable {cli : ℕ → ℕ} {h : History} {t server : ℕ} {l : Label Op Res}

theorem same (ha : SlotsAccounted cli h)
    (hslot : ∀ u, (toolPhase u (l :: h)).slot = (toolPhase u h).slot)
    (htakes : ∀ s, takes s l.op l.res = false) (hgives : ∀ s, gives s l.op l.res = false) :
    SlotsAccounted cli (l :: h) := by
  have hholders : ∀ s, holders s (l :: h) = holders s h := by
    intro s
    rw [holders, htakes, hgives, if_neg (by simp), if_neg (by simp)]
  constructor
  · intro s
    rw [hholders]
    exact ha.nodup s
  · intro u s
    rw [hholders, hslot]
    exact ha.mem u s
  · intro s
    rw [hholders]
    exact ha.total s

/-- A thread without a slot takes one. -/
theorem take (ha : SlotsAccounted cli h) (hq : toolPhase t h = .outside)
    (hfree : 0 < cli server) :
    SlotsAccounted (Function.update cli server (cli server - 1))
      (⟨t, .sys (.acquireCli server), .ok ()⟩ :: h) := by
  set l : Label Op Res := ⟨t, .sys (.acquireCli server), .ok ()⟩ with hl
  have hown : toolPhase t (l :: h) = .holding server := by
    rw [hl, toolPhase_own (by simp [CutsOff, hq, ToolPhase.cut]), hq]
    rfl
  have hholders := fun s => holders_acquired s server t () h
  -- A thread that is outside holds no slot of any server.
  have hnew : ∀ s, t ∉ holders s h := by
    intro s hmem
    have := (ha.mem t s).mp hmem
    rw [hq] at this
    exact absurd this (by simp [ToolPhase.slot])
  constructor
  · intro s
    rw [hholders]
    split
    · exact List.nodup_cons.mpr ⟨hnew s, ha.nodup s⟩
    · exact ha.nodup s
  · intro u s
    rw [hholders]
    by_cases hu : u = t
    · rw [hu, hown]
      split
      · rename_i hs
        simp [ToolPhase.slot, hs]
      · rename_i hs
        simp [ToolPhase.slot, hs, hnew s]
    · rw [toolPhase_other hu, ← ha.mem u s]
      split
      · simp [hu]
      · rfl
  · intro s
    rw [hholders]
    by_cases hs : server = s
    · subst hs
      have := ha.total server
      rw [if_pos rfl, Function.update_self, List.length_cons]
      omega
    · rw [if_neg hs, Function.update_of_ne (Ne.symm hs)]
      exact ha.total s

/-- A thread gives its slot back. -/
theorem give (ha : SlotsAccounted cli h) (hq : toolPhase t h = .holding server)
    (r : Except Exn Unit) :
    SlotsAccounted (giveSlot cli server) (⟨t, .sys (.releaseCli server), r⟩ :: h) := by
  set l : Label Op Res := ⟨t, .sys (.releaseCli server), r⟩ with hl
  have hown : toolPhase t (l :: h) = .outside := by
    rw [hl, toolPhase_own (by simp [CutsOff, hq, ToolPhase.cut]), hq]
    rfl
  have hholders := fun s => holders_released s server t r h
  -- The thread holds one slot, of this server.
  have hslot : ∀ s, t ∈ holders s h ↔ server = s := by
    intro s
    rw [ha.mem, hq]
    simp [ToolPhase.slot]
  constructor
  · intro s
    rw [hholders]
    split
    · exact (ha.nodup s).erase t
    · exact ha.nodup s
  · intro u s
    rw [hholders]
    by_cases hu : u = t
    · rw [hu, hown]
      split
      · simp [ToolPhase.slot, (ha.nodup s).mem_erase_iff]
      · rename_i hs
        simp [ToolPhase.slot, hslot, hs]
    · rw [toolPhase_other hu, ← ha.mem u s]
      split
      · simp [(ha.nodup s).mem_erase_iff, hu]
      · rfl
  · intro s
    rw [hholders]
    by_cases hs : server = s
    · subst hs
      have hmem := (hslot server).mpr rfl
      have hlen := List.length_erase_of_mem hmem
      have hpos := List.length_pos_of_mem hmem
      have := ha.total server
      rw [if_pos rfl, giveSlot, Function.update_self]
      omega
    · rw [if_neg hs, giveSlot, Function.update_of_ne (Ne.symm hs)]
      exact ha.total s

end SlotsAccounted

namespace ProcessesAccounted

variable {live : List ℕ} {h : History} {t server pid : ℕ} {l : Label Op Res}

theorem same (ha : ProcessesAccounted live h)
    (hphase : ∀ u s pid, toolPhase u (l :: h) = .running s pid ↔ toolPhase u h = .running s pid)
    (hlaunch : ∀ pid, launches pid l.op l.res = false) : ProcessesAccounted live (l :: h) := by
  refine ⟨ha.nodup, fun pid hpid => ?_, fun u s pid hu => ?_⟩
  · obtain ⟨u, s, hu⟩ := ha.owned pid hpid
    exact ⟨u, s, (hphase u s pid).mpr hu⟩
  · rw [launcher, hlaunch, if_neg (by simp)]
    exact ha.running u s pid ((hphase u s pid).mp hu)

/-- A process is launched, with an identifier that no live process has. -/
theorem launch {args : List String} {staged : Staged} {b : Behaviour}
    (ha : ProcessesAccounted live h) (hq : toolPhase t h = .holding server)
    (hpid : pid ∉ live) (hb : b.ending ≠ .cancelled) :
    ProcessesAccounted (pid :: live) (⟨t, .sys (.launch args staged), .ok (pid, b)⟩ :: h) := by
  have hown : toolPhase t (⟨t, .sys (.launch args staged), .ok (pid, b)⟩ :: h) =
      .running server pid := by
    rw [toolPhase_own (by simpa [CutsOff, hq, ToolPhase.cut] using hb), hq]
    rfl
  refine ⟨List.nodup_cons.mpr ⟨hpid, ha.nodup⟩, fun p hp => ?_, fun u s p hu => ?_⟩
  · rcases List.mem_cons.mp hp with rfl | hp
    · exact ⟨t, server, hown⟩
    · obtain ⟨u, s, hu⟩ := ha.owned p hp
      have hne : u ≠ t := by
        rintro rfl
        rw [hq] at hu
        exact absurd hu (by simp)
      exact ⟨u, s, by rw [toolPhase_other hne, hu]⟩
  · by_cases hut : u = t
    · obtain ⟨-, rfl⟩ := ToolPhase.running.inj (hown.symm.trans (hut ▸ hu))
      exact ⟨List.mem_cons_self, by rw [hut]; exact if_pos (decide_eq_true rfl)⟩
    · rw [toolPhase_other hut] at hu
      obtain ⟨hmem, hl⟩ := ha.running u s p hu
      have hne : pid ≠ p := fun heq => hpid (heq ▸ hmem)
      exact ⟨List.mem_cons_of_mem _ hmem, (if_neg (by simpa [launches] using hne)).trans hl⟩

/-- A thread has waited for its process. -/
theorem reap (ha : ProcessesAccounted live h) (hq : toolPhase t h = .running server pid)
    (connected : Bool) :
    ProcessesAccounted (live.erase pid) (⟨t, .sys (.waitProcess pid connected), .ok ()⟩ :: h) := by
  have hown : toolPhase t (⟨t, .sys (.waitProcess pid connected), .ok ()⟩ :: h) =
      .holding server := by
    rw [toolPhase_own (by simp [CutsOff, hq, ToolPhase.cut]), hq]
    rfl
  have hlauncher := (ha.running t server pid hq).2
  refine ⟨ha.nodup.erase pid, fun p hp => ?_, fun u s p hu => ?_⟩
  · obtain ⟨hne, hmem⟩ := ha.nodup.mem_erase_iff.mp hp
    obtain ⟨u, s, hu⟩ := ha.owned p hmem
    have hut : u ≠ t := by
      rintro rfl
      exact hne (ToolPhase.running.inj (hu.symm.trans hq)).2
    exact ⟨u, s, by rw [toolPhase_other hut, hu]⟩
  · by_cases hut : u = t
    · rw [hut, hown] at hu
      exact absurd hu (by simp)
    · rw [toolPhase_other hut] at hu
      obtain ⟨hmem, hl⟩ := ha.running u s p hu
      -- another thread runs another process
      have hne : p ≠ pid := by
        rintro rfl
        exact hut (Option.some.inj (hl.symm.trans hlauncher))
      exact ⟨ha.nodup.mem_erase_iff.mpr ⟨hne, hmem⟩, hl⟩

end ProcessesAccounted

/-! ### One step -/

section Exec

variable {base : Path} {e : Env} {w w' : World}

/-- Other operations touch neither slots nor processes. -/
theorem exec_noTool {o : Op} {r : Res o} (ho : o.NoTool)
    (h : exec base e o w = some (r, w')) : w'.live = w.live ∧ w'.cli = w.cli := by
  have same : ∀ {α : Type} {x y : α} {w₁ : World}, some (x, w₁) = some (y, w') →
      w₁.live = w.live ∧ w₁.cli = w.cli → w'.live = w.live ∧ w'.cli = w.cli := by
    intro α x y w₁ heq hw
    rwa [← (Prod.mk.inj (Option.some.inj heq)).2]
  cases o with
  | db o =>
    obtain ⟨db, -, rfl⟩ := exec_db h
    exact ⟨rfl, rfl⟩
  | fs o =>
    obtain ⟨fs, -, rfl⟩ := exec_fs h
    exact ⟨rfl, rfl⟩
  | sys o =>
    change o.exec e w = _ at h
    cases o with
    | acquireCli s => exact absurd ho id
    | releaseCli s => exact absurd ho id
    | launch args staged => exact absurd ho id
    | waitProcess pid connected => exact absurd ho id
    | acquireGate s =>
      simp only [SysOp.exec] at h
      by_cases hc : e.cancel
      · rw [if_pos hc] at h
        exact same h ⟨rfl, rfl⟩
      · rw [if_neg hc] at h
        by_cases ht : e.timedOut
        · rw [if_pos ht] at h
          exact same h ⟨rfl, rfl⟩
        · rw [if_neg ht] at h
          obtain ⟨g, -, hg⟩ := Option.map_eq_some_iff.mp h
          exact same (congrArg some hg) ⟨rfl, rfl⟩
    | takeOrphan orphan =>
      simp only [SysOp.exec] at h
      by_cases hmem : orphan ∈ w.orphans
      · rw [if_pos hmem] at h
        exact same h ⟨rfl, rfl⟩
      · rw [if_neg hmem] at h
        exact absurd h (by simp)
    | _ => exact same h ⟨rfl, rfl⟩

theorem exec_acquireCli_cases {s : ℕ} {r : Except Exn Unit}
    (h : exec base e (.sys (.acquireCli s)) w = some (r, w')) :
    ((∃ x, r = .error x) ∧ w' = w) ∨
      r = .ok () ∧ 0 < w.cli s ∧
        w' = { w with cli := Function.update w.cli s (w.cli s - 1) } := by
  simp only [exec, SysOp.exec, takeSlot] at h
  by_cases hc : e.cancel
  · rw [if_pos hc] at h
    obtain ⟨rfl, rfl⟩ := Prod.mk.inj (Option.some.inj h)
    exact .inl ⟨⟨_, rfl⟩, rfl⟩
  · rw [if_neg hc] at h
    by_cases hfree : 0 < w.cli s
    · rw [if_pos hfree] at h
      obtain ⟨rfl, rfl⟩ := Prod.mk.inj (Option.some.inj h)
      exact .inr ⟨rfl, hfree, rfl⟩
    · rw [if_neg hfree] at h
      exact absurd h (by simp)

theorem exec_waitProcess_cases {pid : ℕ} {connected : Bool} {r : Except Exn Unit}
    (h : exec base e (.sys (.waitProcess pid connected)) w = some (r, w')) :
    ((∃ x, r = .error x) ∧ w' = w) ∨
      r = .ok () ∧ w' = { w with live := w.live.erase pid } := by
  simp only [exec, SysOp.exec] at h
  by_cases hc : e.cancel
  · rw [if_pos hc] at h
    obtain ⟨rfl, rfl⟩ := Prod.mk.inj (Option.some.inj h)
    exact .inl ⟨⟨_, rfl⟩, rfl⟩
  · rw [if_neg hc] at h
    by_cases hp : connected
    · rw [if_pos hp] at h
      exact absurd h (by simp)
    · rw [if_neg hp] at h
      obtain ⟨rfl, rfl⟩ := Prod.mk.inj (Option.some.inj h)
      exact .inr ⟨rfl, rfl⟩

end Exec

/-- The slots and the processes are accounted for. -/
structure Accounted (w : World) (h : History) : Prop where
  slots : SlotsAccounted w.cli h
  processes : ProcessesAccounted w.live h

namespace Accounted

variable {w w' : World} {h : History} {t : ℕ} {o : Op} {r : Res o} {base : Path} {e : Env}
  {site : Option ℕ}

/-- An operation that changes neither slots nor processes nor the phase. -/
theorem quiet (ha : Accounted w h) (hcut : ¬ CutsOff ⟨t, o, r⟩ h)
    (hw : w'.live = w.live ∧ w'.cli = w.cli) (hafter : (toolPhase t h).after o r = toolPhase t h)
    (htakes : ∀ s, takes s o r = false) (hgives : ∀ s, gives s o r = false)
    (hlaunch : ∀ pid, launches pid o r = false) : Accounted w' (⟨t, o, r⟩ :: h) := by
  have hphase : ∀ u, toolPhase u (⟨t, o, r⟩ :: h) = toolPhase u h := by
    intro u
    by_cases hu : u = t
    · rw [hu, toolPhase_own hcut, hafter]
    · exact toolPhase_other hu
  constructor
  · rw [hw.2]
    exact ha.slots.same (fun u => by rw [hphase]) htakes hgives
  · rw [hw.1]
    exact ha.processes.same (fun u s pid => by rw [hphase]) hlaunch

theorem noTool (ha : Accounted w h) (ho : o.NoTool) (hcut : ¬ CutsOff ⟨t, o, r⟩ h)
    (hexec : exec base e o w = some (r, w')) : Accounted w' (⟨t, o, r⟩ :: h) := by
  refine ha.quiet hcut (exec_noTool ho hexec) (ToolPhase.after_of_noTool ho r) ?_ ?_ ?_
  all_goals
    intro n
    cases o with
    | db o => rfl
    | fs o => rfl
    | sys o => cases o <;> first | rfl | exact absurd ho id

theorem acquireCli {s : ℕ} {r : Except Exn Unit} (ha : Accounted w h)
    (hlost : toolPhase t h ≠ .lost) (hallows : (toolPhase t h).allows site (.sys (.acquireCli s)))
    (hcut : ¬ CutsOff ⟨t, .sys (.acquireCli s), r⟩ h)
    (hexec : exec base e (.sys (.acquireCli s)) w = some (r, w')) :
    Accounted w' (⟨t, .sys (.acquireCli s), r⟩ :: h) := by
  have hq : toolPhase t h = .outside := by
    rcases hq : toolPhase t h with _ | s' | ⟨s', p⟩ | _
    · rfl
    all_goals rw [hq] at hallows
    · exact absurd hallows id
    · exact absurd hallows id
    · exact absurd hq hlost
  rcases exec_acquireCli_cases hexec with ⟨⟨x, rfl⟩, rfl⟩ | ⟨rfl, hfree, rfl⟩
  · exact ha.quiet hcut ⟨rfl, rfl⟩ (by rw [hq]; rfl) (fun _ => rfl) (fun _ => rfl) fun _ => rfl
  · refine ⟨ha.slots.take hq hfree, ha.processes.same (fun u s' pid => ?_) fun _ => rfl⟩
    by_cases hu : u = t
    · rw [hu, toolPhase_own hcut, hq]
      simp [ToolPhase.after]
    · rw [toolPhase_other hu]

theorem releaseCli {s : ℕ} {r : Except Exn Unit} (ha : Accounted w h)
    (hlost : toolPhase t h ≠ .lost) (hallows : (toolPhase t h).allows site (.sys (.releaseCli s)))
    (hcut : ¬ CutsOff ⟨t, .sys (.releaseCli s), r⟩ h)
    (hexec : exec base e (.sys (.releaseCli s)) w = some (r, w')) :
    Accounted w' (⟨t, .sys (.releaseCli s), r⟩ :: h) := by
  have hq : toolPhase t h = .holding s := by
    rcases hq : toolPhase t h with _ | s' | ⟨s', p⟩ | _
    all_goals rw [hq] at hallows
    · exact absurd hallows id
    · exact congrArg _ hallows.symm
    · exact absurd hallows id
    · exact absurd hq hlost
  obtain ⟨rfl, rfl⟩ := Prod.mk.inj (Option.some.inj hexec)
  refine ⟨ha.slots.give hq _, ha.processes.same (fun u s' pid => ?_) fun _ => rfl⟩
  by_cases hu : u = t
  · rw [hu, toolPhase_own hcut, hq]
    simp [ToolPhase.after]
  · rw [toolPhase_other hu]

theorem launch {args : List String} {staged : Staged} {r : Except Exn (ℕ × Behaviour)}
    (ha : Accounted w h) (hlost : toolPhase t h ≠ .lost)
    (hallows : (toolPhase t h).allows site (.sys (.launch args staged)))
    (hcut : ¬ CutsOff ⟨t, .sys (.launch args staged), r⟩ h)
    (hexec : exec base e (.sys (.launch args staged)) w = some (r, w')) :
    Accounted w' (⟨t, .sys (.launch args staged), r⟩ :: h) := by
  obtain ⟨s, hq⟩ : ∃ s, toolPhase t h = .holding s := by
    rcases hq : toolPhase t h with _ | s | ⟨s, p⟩ | _
    all_goals rw [hq] at hallows
    · exact absurd hallows id
    · exact ⟨s, rfl⟩
    · exact absurd hallows id
    · exact absurd hq hlost
  rcases exec_launch_cases hexec with ⟨⟨x, rfl⟩, rfl⟩ | ⟨pid, rfl, hpid, rfl⟩
  · exact ha.quiet hcut ⟨rfl, rfl⟩ (by rw [hq]; rfl) (fun _ => rfl) (fun _ => rfl) fun _ => rfl
  · have hb : (e.behaviour args staged).ending ≠ .cancelled := by
      intro hb
      exact hcut (by simpa [CutsOff, hq, ToolPhase.cut] using hb)
    refine ⟨ha.slots.same (fun u => ?_) (fun _ => rfl) fun _ => rfl,
      ha.processes.launch hq hpid hb⟩
    by_cases hu : u = t
    · rw [hu, toolPhase_own hcut, hq]
      rfl
    · rw [toolPhase_other hu]

theorem waitProcess {pid : ℕ} {connected : Bool} {r : Except Exn Unit} (ha : Accounted w h)
    (hlost : toolPhase t h ≠ .lost)
    (hallows : (toolPhase t h).allows site (.sys (.waitProcess pid connected)))
    (hcut : ¬ CutsOff ⟨t, .sys (.waitProcess pid connected), r⟩ h)
    (hexec : exec base e (.sys (.waitProcess pid connected)) w = some (r, w')) :
    Accounted w' (⟨t, .sys (.waitProcess pid connected), r⟩ :: h) := by
  obtain ⟨s, hq⟩ : ∃ s, toolPhase t h = .running s pid := by
    rcases hq : toolPhase t h with _ | s | ⟨s, p⟩ | _
    all_goals rw [hq] at hallows
    · exact absurd hallows id
    · exact absurd hallows id
    · exact ⟨s, congrArg _ hallows.symm⟩
    · exact absurd hq hlost
  rcases exec_waitProcess_cases hexec with ⟨⟨x, rfl⟩, rfl⟩ | ⟨rfl, rfl⟩
  · exact absurd (by simp [CutsOff, hq, ToolPhase.cut]) hcut
  · refine ⟨ha.slots.same (fun u => ?_) (fun _ => rfl) fun _ => rfl, ha.processes.reap hq connected⟩
    by_cases hu : u = t
    · rw [hu, toolPhase_own hcut, hq]
      rfl
    · rw [toolPhase_other hu]

/-- **One step** that the phase allows and that does not cut the run of the tool off. -/
theorem step (ha : Accounted w h) (hlost : toolPhase t h ≠ .lost)
    (hallows : (toolPhase t h).allows site o)
    (hcut : ¬ CutsOff ⟨t, o, r⟩ h) (hexec : exec base e o w = some (r, w')) :
    Accounted w' (⟨t, o, r⟩ :: h) := by
  cases o with
  | db o => exact ha.noTool trivial hcut hexec
  | fs o => exact ha.noTool trivial hcut hexec
  | sys o =>
    cases o with
    | acquireCli s => exact ha.acquireCli hlost hallows hcut hexec
    | releaseCli s => exact ha.releaseCli hlost hallows hcut hexec
    | launch args staged => exact ha.launch hlost hallows hcut hexec
    | waitProcess pid connected => exact ha.waitProcess hlost hallows hcut hexec
    | _ => exact ha.noTool trivial hcut hexec

end Accounted

/-! ### Whole runs -/

section Runs

variable {parts : Parts} {m : State}

/-- What is left of a thread's program obeys the protocol of its server. -/
theorem obeys_toolPhase (hm : (platform parts).Reach (start parts) m) {t : ℕ} {c : Call}
    {p : Prog Op Res (Except Exn Reply)} (ht : m.threads[t]? = some (c, p)) :
    Obeys (toolProtocol c.site) (fun _ => ToolPhase.Idle) p (toolPhase t m.view.history) := by
  have hobeys : Obeys (toolProtocol c.site) (fun _ => ToolPhase.Idle) p
      ((toolProtocol c.site).phase .outside t m.view.history) :=
    System.Reach.obeys (P := fun c : Call => toolProtocol c.site)
      (fun c => body_preserves parts c .outside (.inl rfl)) hm ht
  rwa [phase_eq] at hobeys

/-- **Every slot and every process is accounted for** as long as no run of the tool was
cut off. -/
theorem accounted (hm : (platform parts).Reach (start parts) m)
    (hcalm : ¬ Ever CutsOff m.view.history) : Accounted m.view.state m.view.history := by
  induction hm with
  | refl =>
    refine ⟨⟨fun _ => List.nodup_nil, fun t s => ?_, fun _ => rfl⟩,
      ⟨List.nodup_nil, fun pid hpid => absurd hpid List.not_mem_nil, fun t s pid ht => ?_⟩⟩
    · exact ⟨fun ht => absurd ht List.not_mem_nil,
        fun ht => absurd (show none = some s from ht) (by simp)⟩
    · exact absurd ht ToolPhase.noConfusion
  | @tail m₁ m₂ hm hstep ih =>
    cases hstep with
    | invoke c hc => exact ih hcalm
    | perform t c o k e r w ht he =>
      obtain ⟨hcut, hcalm₁⟩ := not_or.mp fun h => hcalm (ever_cons.mpr h)
      exact (ih hcalm₁).step (toolPhase_ne_lost hcalm₁ t) (obeys_toolPhase hm ht).head hcut he

/-- A slot is of the server on which the call runs. -/
theorem site_of_slot (hm : (platform parts).Reach (start parts) m) {t : ℕ} {c : Call}
    {p : Prog Op Res (Except Exn Reply)} (ht : m.threads[t]? = some (c, p)) {s : ℕ}
    (hslot : (toolPhase t m.view.history).slot = some s) : c.site = some s := by
  rw [← phase_eq c.site] at hslot
  refine System.Reach.phase_of_allows (P := fun c : Call => toolProtocol c.site)
    (fun c => body_preserves parts c .outside (.inl rfl)) hm ht
    (J := fun c q => ∀ s, q.slot = some s → c.site = some s) ?_ ?_ s hslot
  · exact fun c s hs => absurd hs (by simp [ToolPhase.slot])
  · exact fun c q o r hq hallows s => ToolPhase.slot_next hq hallows

/-- A thread with a slot is there. -/
theorem thread_of_slot (hm : (platform parts).Reach (start parts) m) {t s : ℕ}
    (hslot : (toolPhase t m.view.history).slot = some s) :
    ∃ c p, m.threads[t]? = some (c, p) := by
  rcases hthread : m.threads[t]? with _ | ⟨c, p⟩
  · have hlen := List.getElem?_eq_none_iff.mp hthread
    have hnone : toolPhase t m.view.history = .outside := by
      refine Protocol.phase_of_forall_ne fun l hl => ?_
      have := System.Reach.recorded hm l hl
      omega
    rw [hnone] at hslot
    exact absurd hslot (by simp [ToolPhase.slot])
  · exact ⟨c, p, rfl⟩

/-- The server on which a thread runs. -/
def State.site (m : State) (t : ℕ) : Option ℕ := m.threads[t]?.bind fun c => c.1.site

/-- The server from which a process was launched. -/
def State.launchSite (m : State) (pid : ℕ) : Option ℕ :=
  (launcher pid m.view.history).bind m.site

theorem site_of_holder (hm : (platform parts).Reach (start parts) m) {t s : ℕ}
    (hslot : (toolPhase t m.view.history).slot = some s) : m.site t = some s := by
  obtain ⟨c, p, ht⟩ := thread_of_slot hm hslot
  rw [State.site, ht]
  exact site_of_slot hm ht hslot

end Runs

/-- **Live processes have their slots.**  If no run of the tool was cut off so far,
every process that is alive was launched by a run that still holds its slot, and on
each server there are at most two of them. -/
theorem live_processes_bounded (parts : Parts) {m : State}
    (hm : (platform parts).Reach (start parts) m) (hcalm : ¬ Ever CutsOff m.view.history) :
    (∀ pid ∈ m.view.state.live, ∃ t server, launcher pid m.view.history = some t ∧
      m.site t = some server ∧ t ∈ holders server m.view.history) ∧
    ∀ server, (m.view.state.live.filter fun pid => m.launchSite pid = some server).length ≤
      maxCliProcesses := by
  obtain ⟨hslots, hprocesses⟩ := accounted hm hcalm
  have howner : ∀ pid ∈ m.view.state.live, ∃ t server,
      toolPhase t m.view.history = .running server pid ∧
      launcher pid m.view.history = some t ∧ m.site t = some server ∧
      t ∈ holders server m.view.history := by
    intro pid hpid
    obtain ⟨t, server, ht⟩ := hprocesses.owned pid hpid
    have hslot : (toolPhase t m.view.history).slot = some server := by rw [ht]; rfl
    exact ⟨t, server, ht, (hprocesses.running t server pid ht).2, site_of_holder hm hslot,
      (hslots.mem t server).mpr hslot⟩
  constructor
  · intro pid hpid
    obtain ⟨t, server, -, hfacts⟩ := howner pid hpid
    exact ⟨t, server, hfacts⟩
  · intro server
    set mine := m.view.state.live.filter fun pid => m.launchSite pid = some server with hmine
    -- the launching threads are pairwise different and hold slots of the server
    let owner := fun pid => (launcher pid m.view.history).getD 0
    have hnodup : (mine.map owner).Nodup := by
      refine List.Nodup.map_on ?_ (hprocesses.nodup.filter _)
      intro p hp p' hp' heq
      obtain ⟨t, s, ht, hl, -⟩ := howner p (List.mem_of_mem_filter hp)
      obtain ⟨t', s', ht', hl', -⟩ := howner p' (List.mem_of_mem_filter hp')
      have htt : t = t' := by simpa [owner, hl, hl'] using heq
      exact (ToolPhase.running.inj (ht.symm.trans (htt ▸ ht'))).2
    have hsubset : mine.map owner ⊆ holders server m.view.history := by
      intro t ht
      obtain ⟨p, hp, rfl⟩ := List.mem_map.mp ht
      obtain ⟨hlive, hsite⟩ := List.mem_filter.mp hp
      obtain ⟨t, s, -, hl, hs, hmem⟩ := howner p hlive
      have hss : s = server := by simpa [State.launchSite, hl, hs] using hsite
      simpa [owner, hl, hss] using hmem
    have hle := (List.subperm_of_subset hnodup hsubset).length_le
    have htotal := hslots.total server
    rw [List.length_map] at hle
    omega

namespace Sample

/-- The tool writes a line and does not exit before the deadline. -/
def hanging : Env :=
  { calm with behaviour := fun _ _ => ⟨[(.stdout, utf8 "ok\n")], .deadline false, []⟩ }

/-- The tool has been launched. -/
def launched : List (System.Move Env Call) :=
  created ++ .invoke (.run 0 job) :: List.replicate 9 (.perform 1 hanging)

/-- Job `n` and its process get the identifier `n`. -/
def numbered (n : ℕ) (e : Env) : Env := { e with fresh := ⟨n⟩, pid := n }

/-- Job `n + 1` is created and run to its end: the tool hangs after its first line, which
cannot be logged. -/
def cutOff (n : ℕ) : List (System.Move Env Call) :=
  .invoke (.create "make a part") :: List.replicate 6 (.perform (2 * n) (numbered (n + 1) calm)) ++
    .invoke (.run 0 ⟨n + 1⟩) ::
      List.replicate 9 (.perform (2 * n + 1) (numbered (n + 1) hanging)) ++
    .perform (2 * n + 1) (numbered (n + 1) refused) ::
      List.replicate 5 (.perform (2 * n + 1) (numbered (n + 1) calm))

end Sample

set_option maxRecDepth 100000 in
theorem live_processes_bounded_sample :
    ∃ m : State, (platform (Sample.parts Sample.toolPlan)).Reach
        (start (Sample.parts Sample.toolPlan)) m ∧ m.view.state.live = [1] ∧
      (∃ t server, launcher 1 m.view.history = some t ∧ m.site t = some server ∧
        t ∈ holders server m.view.history) ∧
      (m.view.state.live.filter fun pid => m.launchSite pid = some 0).length ≤
        maxCliProcesses := by
  obtain ⟨m, hm, hgood⟩ := Sample.reached (Sample.parts Sample.toolPlan) Sample.launched
    (fun m => m.view.state.live = [1] ∧ ¬ Ever CutsOff m.view.history) (by decide +kernel)
  obtain ⟨hlive, hcalm⟩ := of_decide_eq_true hgood
  obtain ⟨howned, hbound⟩ := live_processes_bounded _ hm hcalm
  exact ⟨m, hm, hlive, howned 1 (by rw [hlive]; exact List.mem_cons_self), hbound 0⟩

set_option maxRecDepth 100000 in
/-- Three runs end because a line of their tool cannot be logged: three processes of
one server are alive, and all its slots are free. -/
theorem cut_off_processes_live :
    ∃ m : State, (platform (Sample.parts Sample.toolPlan)).Reach
        (start (Sample.parts Sample.toolPlan)) m ∧
      (m.view.state.live.filter fun pid => m.launchSite pid = some 0).length = 3 ∧
      holders 0 m.view.history = [] := by
  obtain ⟨m, hm, hgood⟩ := Sample.reached (Sample.parts Sample.toolPlan)
    (Sample.cutOff 0 ++ Sample.cutOff 1 ++ Sample.cutOff 2)
    (fun m => (m.view.state.live.filter fun pid => m.launchSite pid = some 0).length = 3 ∧
      holders 0 m.view.history = []) (by decide +kernel)
  obtain ⟨hlive, hfree⟩ := of_decide_eq_true hgood
  exact ⟨m, hm, hlive, hfree⟩

end CliExecutionPlatform
