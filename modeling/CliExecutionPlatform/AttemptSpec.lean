/-
What planning and executing does to the data of a job.

The programs of `ActionExecutor` and `LLMPlanRetryExecutor` are followed once,
for any discipline under which nobody else touches what the job holds (`Host`).
The same results then serve a run that is alone and a run among others.

* `Effects`, `Promotion`, `Registered` — what the actions of a plan make of the
  workspace, what promoting makes of the artifacts directory, and the rows that
  registering gives;
* `Succeeded H p H'` — `H'` is what executing the plan `p` makes of `H`;
* `Failure` — what an attempt that raised has left: everything as it was,
  unless rows had been committed before the plan could not be saved (`Late`) or
  the storage failed in the snapshot protocol (`Stranded`);
* `executeAttempt_safe`, `generateActions_safe` — one attempt and all attempts;
* `undisturbed` — the weakest surroundings of an attempt: the others may do
  anything to the world except to what the job holds.
-/
import CliExecutionPlatform.Footprint
import CliExecutionPlatform.Holdings

open Files Process

namespace CliExecutionPlatform

open LocalStorage (root validateSafePath)

/-! ### Effects on the trees -/

section Effects

variable (base : Path) (E : Env → Prop) (j : Uuid)

/-- The files are copied into the workspace, one after the other. -/
def CopiedOut : List TmpFile → Tree → Tree → Prop
  | [], W, W' => W' = W
  | f :: rest, W, W' => ∃ q, follow (root base .jobs j) f.path = root base .jobs j ++ q ∧
      CopiedOut rest (W.writeAt q f.data) W'

/-- A run of the tool that returned: the workspace was staged, the process
exited with code 0 and what it changed was copied back. -/
def ToolEffect (args : List String) (W W' : Tree) : Prop :=
  ∃ e₁ e₂ staged, E e₁ ∧ E e₂ ∧ Staging W e₁.now staged ∧
    (e₂.behaviour args staged).ending = .exited 0 ∧
    CopiedOut base j ((e₂.behaviour args staged).files.filter (changed staged.files)) W W'

def ActionEffect : Action → Tree → Tree → Prop
  | .createDirectory path, W, W' =>
    ∃ q, validateSafePath base j path .jobs = .ok (root base .jobs j ++ q) ∧ W' = W.mkdirs q
  | .writeFile path content, W, W' =>
    ∃ q, validateSafePath base j path .jobs = .ok (root base .jobs j ++ q) ∧
      W' = W.writeAt q (utf8 content)
  | .runTool _ args, W, W' => ToolEffect base E j args W W'
  | .createArtifact _, W, W' => W' = W

/-- The actions of a plan, in order; artifacts are left for later. -/
def Effects : List Action → Tree → Tree → Prop
  | [], W, W' => W' = W
  | a :: rest, W, W' => ∃ W₁, ActionEffect base E j a W W₁ ∧ Effects rest W₁ W'

/-- Files of the workspace `W` are copied to the artifacts directory, which
keeps the other files it has. -/
def Promotion (W : Tree) : List String → Tree → Tree → Prop
  | [], P, P' => P' = P
  | path :: rest, P, P' => ∃ q q' data,
      validateSafePath base j path .jobs = .ok (root base .jobs j ++ q) ∧
      validateSafePath base j path .artifacts = .ok (root base .artifacts j ++ q') ∧
      W q = some (.file data) ∧
      (∀ p d, p ≠ q' → P p = some (.file d) → P.writeAt q' data p = some (.file d)) ∧
      Promotion W rest (P.writeAt q' data) P'

/-- The draft is the row of this path. -/
def Registered (parts : Parts) (path : String) (d : ArtifactDraft) : Prop :=
  (∃ target, ArtifactService.checkPath parts.base j path = .ok target) ∧
    d = ⟨d.id, path, baseName path, ArtifactService.contentType parts (baseName path)⟩

/-- `H'` is what executing the plan makes of `H`. -/
structure Succeeded (parts : Parts) (plan : List Action) (H H' : Held) : Prop where
  workspace : Effects parts.base E j plan H.workspace H'.workspace
  promoted : Promotion parts.base j H'.workspace (ActionExecutor.artifactPaths plan)
    H.promoted H'.promoted
  artifacts : ∃ drafts, List.Forall₂ (Registered j parts) (ActionExecutor.artifactPaths plan)
    drafts ∧ H'.artifacts = H.artifacts ++ drafts.map (ArtifactDraft.row j)
  plan : H'.plan = some plan

end Effects

/-! ### Marks in the history -/

section Marks

variable (j : Uuid)

/-- Artifact rows of the job were committed. -/
def commits : (o : Op) → Res o → Bool
  | .db (.commitArtifacts k drafts), .ok _ => k = j ∧ drafts ≠ []
  | _, _ => false

/-- The plan of the job could not be saved. -/
def losesPlan : (o : Op) → Res o → Bool
  | .db (.saveActionPlan k _), .error _ => k = j
  | _, _ => false

/-- A rollback of an attempt of the job failed, in the database or on disk, or its
completion did. -/
def strands : (o : Op) → Res o → Bool
  | .fs (.rollbackAttempt k _), .error _ | .fs (.completeAttempt k _), .error _
  | .db (.rollbackSession k), .error _ => k = j
  | _, _ => false

/-- An attempt of the job was rolled back. -/
def rollsBack : (o : Op) → Res o → Bool
  | .fs (.rollbackAttempt k _), .ok _ => k = j
  | _, _ => false

/-- Rows were committed and the plan that made them could not be saved
afterwards. -/
def Late (h : List (Label Op Res)) : Prop :=
  ∃ l post, l :: post <:+ h ∧ losesPlan j l.op l.res = true ∧
    ∃ c ∈ post, commits j c.op c.res = true

/-- What undoes or completes an attempt failed. -/
def Stranded (h : List (Label Op Res)) : Prop := ∃ l ∈ h, strands j l.op l.res = true

variable {j}

theorem Late.mono {h h' : List (Label Op Res)} (hlate : Late j h) (hsuffix : h <:+ h') :
    Late j h' := by
  obtain ⟨l, post, hl, hrest⟩ := hlate
  exact ⟨l, post, hl.trans hsuffix, hrest⟩

end Marks

/-! ### Hosts -/

/-- The trees and the plan are those of `H₀`, and so are the rows unless they
were committed too early. -/
def Restored (j : Uuid) (H₀ H : Held) (h : List (Label Op Res)) : Prop :=
  H.workspace = H₀.workspace ∧ H.promoted = H₀.promoted ∧ H.plan = H₀.plan ∧
    (H.artifacts = H₀.artifacts ∨ Late j h)

/-- A discipline under which thread `t`, as long as `A` holds, works on job `j`
undisturbed, from attempts that begin with `H₀`.  The environments of `exec'`
are among those in `E`. -/
structure Host {Env' : Type} (base : Path) (E : Env → Prop)
    (exec' : Env' → (o : Op) → World → Option (Res o × World)) (D : Discipline World Op Res)
    (t : ℕ) (j : Uuid) (A : View World Op Res → Prop) (H₀ : Held) : Prop where
  env : ∀ e o w r w', exec' e o w = some (r, w') →
    ∃ e₀, E e₀ ∧ exec base e₀ o w = some (r, w')
  stable : ∀ v v', A v → D.rely v v' → D.inv v' →
    A v' ∧ held base j v'.state = held base j v.state ∧ v.history <:+ v'.history
  step : ∀ v e o r s, A v → D.inv v → Working j o → exec' e o v.state = some (r, s) →
    (rollsBack j o r = true → Restored j H₀ (held base j s) v.history) →
    D.inv (v.push t o r s) ∧ D.guar v (v.push t o r s) ∧ A (v.push t o r s)

/-- The job holds `H`, and `h` is behind us. -/
def Holding (base : Path) (j : Uuid) (A : View World Op Res → Prop) (H : Held)
    (h : List (Label Op Res)) (v : View World Op Res) : Prop :=
  A v ∧ held base j v.state = H ∧ h <:+ v.history

namespace Host

variable {Env' : Type} {base : Path} {E : Env → Prop}
  {exec' : Env' → (o : Op) → World → Option (Res o × World)} {D : Discipline World Op Res}
  {t : ℕ} {j : Uuid} {A : View World Op Res → Prop} {H₀ : Held}

theorem stable_holding (hh : Host base E exec' D t j A H₀) (H : Held)
    (h : List (Label Op Res)) : D.Stable (Holding base j A H h) := by
  rintro v v' ⟨hA, hH, hs⟩ hrely hinv
  obtain ⟨hA', hheld, hs'⟩ := hh.stable v v' hA hrely hinv
  exact ⟨hA', hheld.trans hH, hs.trans hs'⟩

/-- The rule for one operation, with its label. -/
theorem perform_labelled (hh : Host base E exec' D t j A H₀) {o : Op} (hw : Working j o)
    {H : Held} {h : List (Label Op Res)} {K : Res o → Held → Prop}
    (hK : ∀ e w r w', E e → held base j w = H → exec base e o w = some (r, w') →
      K r (held base j w'))
    (hback : ∀ r H' h', rollsBack j o r = true → K r H' → h <:+ h' → Restored j H₀ H' h')
    {v : View World Op Res} (hv : Holding base j A H h v) :
    Safe exec' D t (fun r v' => ∃ H' h', K r H' ∧ h <:+ h' ∧
      Holding base j A H' (⟨t, o, r⟩ :: h') v') (CliExecutionPlatform.perform o).run v := by
  refine Safe.op (hh.stable_holding H h) (fun r => ?_) ?_ hv
  · rintro v v' ⟨H', h', hk, hs, hv⟩ hrely hinv
    exact ⟨H', h', hk, hs, hh.stable_holding H' _ v v' hv hrely hinv⟩
  · rintro v e r s ⟨hA, hH, hs⟩ hinv hexec
    obtain ⟨e₀, he₀, hexec₀⟩ := hh.env e o v.state r s hexec
    have hk := hK e₀ v.state r s he₀ hH hexec₀
    obtain ⟨hinv', hguar, hA'⟩ := hh.step v e o r s hA hinv hw hexec fun hr =>
      hback r _ _ hr hk hs
    exact ⟨hinv', hguar, held base j s, v.history, hk, hs, hA', rfl, List.suffix_refl _⟩

/-- The rule for one operation that is not a rollback. -/
theorem perform (hh : Host base E exec' D t j A H₀) {o : Op} (hw : Working j o)
    (hback : ∀ r, rollsBack j o r = false) {H : Held} {h : List (Label Op Res)}
    {K : Res o → Held → Prop}
    (hK : ∀ e w r w', E e → held base j w = H → exec base e o w = some (r, w') →
      K r (held base j w'))
    {v : View World Op Res} (hv : Holding base j A H h v) :
    Safe exec' D t (fun r v' => ∃ H', K r H' ∧ Holding base j A H' h v')
      (CliExecutionPlatform.perform o).run v := by
  refine Safe.mono ?_ (hh.perform_labelled hw hK (fun r H' h' hr => ?_) hv)
  · rintro r v' - ⟨H', h', hk, hs, hA, hH, hs'⟩
    exact ⟨H', hk, hA, hH, (hs.trans (List.suffix_cons _ _)).trans hs'⟩
  · rw [hback r] at hr
    exact absurd hr (by simp)

theorem rollsBack_of_quiet {o : Op} (hq : o.Quiet) (r : Res o) : rollsBack j o r = false := by
  by_contra hcon
  rw [Bool.not_eq_false] at hcon
  unfold rollsBack at hcon
  split at hcon
  · exact absurd hq (by simp [Op.Quiet, FsOp.writes])
  · exact absurd hcon (by simp)

/-- The rule for a program of quiet operations. -/
theorem quiet_calls (hh : Host base E exec' D t j A H₀) {α : Type} {R : α → Prop} {H : Held}
    {h : List (Label Op Res)} {p : Prog Op Res α}
    (hp : Calls (fun o => Working j o ∧ o.Quiet) p) (hR : Returns R p)
    {v : View World Op Res} (hv : Holding base j A H h v) :
    Safe exec' D t (fun a v' => R a ∧ Holding base j A H h v') p v := by
  refine Safe.of_calls (hh.stable_holding H h) ?_ hp hR hv
  rintro v e o r s ⟨hw, hq⟩ ⟨hA, hH, hs⟩ hinv hexec
  obtain ⟨e₀, -, hexec₀⟩ := hh.env e o v.state r s hexec
  obtain ⟨hinv', hguar, hA'⟩ := hh.step v e o r s hA hinv hw hexec fun hr => by
    rw [rollsBack_of_quiet hq r] at hr
    exact absurd hr (by simp)
  exact ⟨hinv', hguar, hA', (exec_quiet hq hexec₀).trans hH, hs.trans (List.suffix_cons _ _)⟩

/-- A value, without any operation. -/
theorem value (hh : Host base E exec' D t j A H₀) {α : Type} {H : Held}
    {h : List (Label Op Res)} (a : α) {v : View World Op Res} (hv : Holding base j A H h v) :
    Safe exec' D t (fun a' v' => a' = a ∧ Holding base j A H h v') (.ret a) v :=
  hh.quiet_calls (R := fun a' => a' = a) (p := .ret a) (calls_ret a) rfl hv

/-- An operation that is quiet. -/
theorem quiet (hh : Host base E exec' D t j A H₀) {o : Op} (hw : Working j o) (hq : o.Quiet)
    {H : Held} {h : List (Label Op Res)} {v : View World Op Res}
    (hv : Holding base j A H h v) :
    Safe exec' D t (fun _ v' => Holding base j A H h v') (CliExecutionPlatform.perform o).run v :=
  Safe.mono (fun _ _ _ h => h.2)
    (hh.quiet_calls (R := fun _ => True) (calls_op ⟨hw, hq⟩) (returns_true _) hv)

end Host

/-! ### Running the tool -/

section Walk

variable {Env' : Type} {parts : Parts} {E : Env → Prop}
  {exec' : Env' → (o : Op) → World → Option (Res o × World)} {D : Discipline World Op Res}
  {t : ℕ} {j : Uuid} {A : View World Op Res → Prop} {H₀ H : Held} {server : ℕ}
  {h : List (Label Op Res)} {v : View World Op Res}

theorem OfProcess.quiet {o : Op} (ho : OfProcess j o) : Working j o ∧ o.Quiet := by
  refine ⟨ho.ofAttempt.working, ?_⟩
  cases o with
  | db o =>
    cases o with
    | logEvents k rows => trivial
    | _ => exact absurd ho id
  | fs o => exact absurd ho id
  | sys o => trivial

theorem process_safe (hh : Host parts.base E exec' D t j A H₀) {o : Op} (ho : OfProcess j o)
    (hv : Holding parts.base j A H h v) :
    Safe exec' D t (fun _ v' => Holding parts.base j A H h v') (perform o).run v :=
  hh.quiet ho.quiet.1 ho.quiet.2 hv

/-- A process that was launched behaves as one of the environments says. -/
theorem launchWithRetry_safe (hh : Host parts.base E exec' D t j A H₀) (args : List String)
    (staged : Staged) (n : ℕ) (hv : Holding parts.base j A H h v) :
    Safe exec' D t (fun r v' => Holding parts.base j A H h v' ∧
      ∀ process, r = .ok process → ∃ e, E e ∧ process.2 = e.behaviour args staged)
      (Runner.launchWithRetry parts args staged n).run v := by
  have hlaunch : ∀ v, Holding parts.base j A H h v →
      Safe exec' D t (fun r v' => Holding parts.base j A H h v' ∧
        ∀ process, r = .ok process → ∃ e, E e ∧ process.2 = e.behaviour args staged)
        (perform (.sys (.launch args staged))).run v := by
    intro v hv
    refine Safe.mono ?_ (hh.perform (o := .sys (.launch args staged))
      (K := fun r H' => H' = H ∧ ∀ process, r = .ok process →
        ∃ e, E e ∧ process.2 = e.behaviour args staged)
      (OfProcess.quiet (o := .sys (.launch args staged)) trivial).1 (fun _ => rfl) ?_ hv)
    · rintro r v' - ⟨H', ⟨rfl, hr⟩, hv'⟩
      exact ⟨hv', hr⟩
    · intro e w r w' he hH hexec
      refine ⟨(exec_sys_held hexec).trans hH, fun process hr => ⟨e, he, ?_⟩⟩
      rcases exec_launch_cases hexec with ⟨⟨x, rfl⟩, -⟩ | ⟨pid, rfl, -, -⟩
      · exact absurd hr (by simp)
      · rw [← Except.ok.inj hr]
  -- A launch that failed changes nothing, so that the retries start from the same state.
  induction n generalizing v with
  | zero =>
    refine Safe.catching (hlaunch v hv) (fun _ _ _ hR => hR) (fun x v' _ _ hR => ?_)
      (fun x v' _ _ hR => ⟨hR.1, by simp⟩)
    exact Safe.mono (fun r v'' _ hr => ⟨hr.2, by rw [hr.1]; simp⟩) (hh.value _ hR.1)
  | succ n ih =>
    refine Safe.catching (hlaunch v hv) (fun _ _ _ hR => hR) (fun x v' _ _ hR => ?_)
      (fun x v' _ _ hR => ⟨hR.1, by simp⟩)
    exact Safe.seqE (process_safe hh (o := .sys (.sleep 500)) trivial hR.1)
      (fun _ v'' _ hv'' => ih hv'') fun _ v'' _ hv'' => ⟨hv'', by simp⟩

/-- The exit code is the one of the process. -/
theorem awaitProcess_returns (pid : ℕ) (b : Behaviour) :
    Returns (fun r => ∀ exit, r = .ok exit → b.ending = .exited exit.code)
      (Runner.awaitProcess parts j pid b).run := by
  refine returns_bindE fun ds => ?_
  rcases hb : b.ending with code | _ | _
  · refine returns_bindE fun _ => ?_
    intro exit hexit
    rw [← Except.ok.inj hexit]
  · exact returns_bindE fun _ => returns_bindE fun _ => returns_bindE fun _ => by
      intro exit hexit
      exact absurd hexit (by simp)
  · intro exit hexit
    exact absurd hexit (by simp)

/-- Waiting for a process touches nothing. -/
theorem awaitProcess_safe (hh : Host parts.base E exec' D t j A H₀) (pid : ℕ) (b : Behaviour)
    (hv : Holding parts.base j A H h v) :
    Safe exec' D t (fun r v' => (∀ exit, r = .ok exit → b.ending = .exited exit.code) ∧
      Holding parts.base j A H h v') (Runner.awaitProcess parts j pid b).run v :=
  hh.quiet_calls
    (calls_mono (fun _ => OfProcess.quiet) (calls_of_within (awaitProcess_calls pid b)))
    (awaitProcess_returns pid b) hv

/-! ### Executing actions -/

theorem rollsBack_of_writes {o : FsOp} {a : Area} {k : Uuid} (hw : o.writes = [(a, k)])
    (r : Except Exn o.Val) : rollsBack j (.fs o) r = false := by
  cases o with
  | rollbackAttempt k token => exact absurd hw (by simp [FsOp.writes])
  | _ => rfl

/-- The rule for a storage method that writes the workspace only. -/
theorem workspace_safe (hh : Host parts.base E exec' D t j A H₀) {o : FsOp} {K : Tree → Prop}
    (hwork : Working j (.fs o)) (hw : o.writes = [(.jobs, j)])
    (hK : ∀ e w a w', held parts.base j w = H → exec parts.base e (.fs o) w = some (.ok a, w') →
      K (held parts.base j w').workspace)
    (hv : Holding parts.base j A H h v) :
    Safe exec' D t (fun r v' => ∃ W, Holding parts.base j A { H with workspace := W } h v' ∧
      ∀ a, r = .ok a → K W) (perform (.fs o)).run v := by
  refine Safe.mono ?_ (hh.perform (o := .fs o)
    (K := fun r H' => ∃ W, H' = { H with workspace := W } ∧ ∀ a, r = .ok a → K W)
    hwork (rollsBack_of_writes hw) ?_ hv)
  · rintro r v' - ⟨_, ⟨W, rfl, hr⟩, hv'⟩
    exact ⟨W, hv', hr⟩
  · intro e w r w' _ hH hexec
    refine ⟨(held parts.base j w').workspace, ?_, fun a hr => ?_⟩
    · rw [exec_workspace hw hexec, hH]
    · rw [hr] at hexec
      exact hK e w a w' hH hexec

theorem copyOutAll_safe (hh : Host parts.base E exec' D t j A H₀) (output : Option String)
    (files : List TmpFile) (hv : Holding parts.base j A H h v) :
    Safe exec' D t (fun r v' => ∃ W, Holding parts.base j A { H with workspace := W } h v' ∧
      ∀ a, r = .ok a → CopiedOut parts.base j files H.workspace W)
      (Runner.copyOutAll j output files).run v := by
  -- The workspace is that of the files copied so far, also when a copy raises.
  induction files generalizing v H with
  | nil =>
    refine Safe.mono ?_ (hh.value _ hv)
    rintro r v' - ⟨-, hv'⟩
    exact ⟨H.workspace, hv', fun _ _ => rfl⟩
  | cons f rest ih =>
    have hcopy := workspace_safe hh (o := .copyOut j output f)
      (K := fun W => ∃ q, follow (root parts.base .jobs j) f.path = root parts.base .jobs j ++ q ∧
        W = H.workspace.writeAt q f.data) rfl rfl ?_ hv
    · refine Safe.seqE hcopy ?_ ?_
      · rintro a v' - ⟨W, hv', hr⟩
        obtain ⟨q, hq, rfl⟩ := hr a rfl
        refine Safe.mono ?_ (ih hv')
        rintro r v'' - ⟨W, hv'', hW⟩
        exact ⟨W, hv'', fun b hb => ⟨q, hq, hW b hb⟩⟩
      · rintro x v' - ⟨W, hv', -⟩
        exact ⟨W, hv', fun _ hr => absurd hr (by simp)⟩
    · intro e w a w' hH hexec
      obtain ⟨q, hq, hheld⟩ := exec_copyOut hexec
      exact ⟨q, hq, by rw [hheld, hH]⟩

theorem executeWithTimeout_safe (hh : Host parts.base E exec' D t j A H₀) (args : List String)
    (hv : Holding parts.base j A H h v) :
    Safe exec' D t (fun r v' => ∃ W, Holding parts.base j A { H with workspace := W } h v' ∧
      ∀ a, r = .ok a → ToolEffect parts.base E j args H.workspace W)
      (Runner.executeWithTimeout parts j args).run v := by
  -- an exception before the copies leaves the workspace as it was
  have hraise : ∀ {α : Type} (x : Exn) v', Holding parts.base j A H h v' →
      ∃ W, Holding parts.base j A { H with workspace := W } h v' ∧
        ∀ a : α, (.error x : Except Exn α) = .ok a →
          ToolEffect parts.base E j args H.workspace W :=
    fun x v' hv' => ⟨H.workspace, hv', fun _ hr => absurd hr (by simp)⟩
  have hstage := hh.perform (o := .fs (.stage j))
    (K := fun r H' => H' = H ∧ ∀ staged, r = .ok staged →
      ∃ e, E e ∧ Staging H.workspace e.now staged) rfl (fun _ => rfl) ?_ hv
  · refine Safe.seqE hstage ?_ fun x v' _ hR => ?_
    · rintro staged v' - ⟨H', ⟨rfl, hr⟩, hv'⟩
      obtain ⟨e₁, he₁, hstaging⟩ := hr staged rfl
      refine Safe.seqE (hh.value _ hv') (fun _ v' _ hR => ?_) fun x v' _ hR => hraise x v' hR.2
      refine Safe.seqE (hh.value _ hR.2) (fun _ v' _ hR => ?_) fun x v' _ hR => hraise x v' hR.2
      refine Safe.seqE (launchWithRetry_safe hh args staged 2 hR.2) ?_
        fun x v' _ hR => hraise x v' hR.1
      rintro process v' - ⟨hv', hprocess⟩
      obtain ⟨e₂, he₂, hb⟩ := hprocess process rfl
      refine Safe.seqE (awaitProcess_safe hh process.1 process.2 hv') ?_
        fun x v' _ hR => hraise x v' hR.2
      rintro exit v' - ⟨hexit, hv'⟩
      by_cases hcode : exit.code ≠ 0
      · rw [if_pos hcode]
        exact Safe.mono (fun r v'' _ hr => by rw [hr.1]; exact hraise _ v'' hr.2) (hh.value _ hv')
      · rw [if_neg hcode]
        refine Safe.seqE (copyOutAll_safe hh _ _ hv') ?_ ?_
        · rintro a v' - ⟨W, hv', hW⟩
          refine Safe.mono ?_ (hh.value _ hv')
          rintro r v'' - ⟨-, hv''⟩
          refine ⟨W, hv'', fun _ _ => ⟨e₁, e₂, staged, he₁, he₂, hstaging, ?_, ?_⟩⟩
          · rw [← hb, hexit exit rfl, not_not.mp hcode]
          · rw [← hb]
            exact hW a rfl
        · rintro x v' - ⟨W, hv', -⟩
          exact ⟨W, hv', fun _ hr => absurd hr (by simp)⟩
    · obtain ⟨H', ⟨rfl, -⟩, hv'⟩ := hR
      exact hraise x v' hv'
  · intro e w r w' he hH hexec
    refine ⟨(exec_quiet (o := .fs (.stage j)) rfl hexec).trans hH, fun staged hr => ⟨e, he, ?_⟩⟩
    rw [hr] at hexec
    rw [← hH]
    exact exec_stage hexec

theorem runTool_safe (hh : Host parts.base E exec' D t j A H₀) (args : List String)
    (hv : Holding parts.base j A H h v) :
    Safe exec' D t (fun r v' => ∃ W, Holding parts.base j A { H with workspace := W } h v' ∧
      ∀ a, r = .ok a → ToolEffect parts.base E j args H.workspace W)
      (Runner.runTool parts server j args).run v := by
  refine Safe.seqE (hh.value _ hv) (fun _ v' _ hR => ?_)
    fun x v' _ hR => ⟨H.workspace, hR.2, fun _ hr => absurd hr (by simp)⟩
  refine Safe.seqE (process_safe hh (o := .sys (.acquireCli server)) trivial hR.2)
    (fun _ v' _ hv' => ?_) fun x v' _ hv' => ⟨H.workspace, hv', fun _ hr => absurd hr (by simp)⟩
  refine Safe.finally (executeWithTimeout_safe hh args hv') ?_
  rintro r v' - ⟨W, hv', hr⟩
  refine Safe.seq (process_safe hh (o := .sys (.releaseCli server)) trivial hv') ?_
  intro _ v'' _ hv''
  refine Safe.mono ?_ (hh.value () hv'')
  rintro _ v₃ - ⟨-, hv₃⟩
  exact ⟨W, hv₃, hr⟩

theorem executeAction_safe (hh : Host parts.base E exec' D t j A H₀) (a : Action)
    (hv : Holding parts.base j A H h v) :
    Safe exec' D t (fun r v' => ∃ W, Holding parts.base j A { H with workspace := W } h v' ∧
      ∀ u, r = .ok u → ActionEffect parts.base E j a H.workspace W)
      (ActionExecutor.executeAction parts server j a).run v := by
  cases a with
  | createDirectory path =>
    refine workspace_safe hh (o := .createDirectory j path)
      (K := ActionEffect parts.base E j (.createDirectory path) H.workspace)
      rfl rfl ?_ hv
    intro e w u w' hH hexec
    obtain ⟨q, hq, hheld⟩ := exec_createDirectory hexec
    exact ⟨q, hq, by rw [hheld, hH]⟩
  | writeFile path content =>
    refine workspace_safe hh (o := .writeFile j path (.text content))
      (K := ActionEffect parts.base E j (.writeFile path content) H.workspace)
      rfl rfl ?_ hv
    intro e w u w' hH hexec
    obtain ⟨q, hq, hheld⟩ := exec_writeFile hexec
    exact ⟨q, hq, by rw [hheld, hH]; rfl⟩
  | runTool name args =>
    refine Safe.seqE (runTool_safe hh args hv) ?_ ?_
    · rintro code v' - ⟨W, hv', hW⟩
      refine Safe.mono ?_ (hh.value _ hv')
      rintro r v'' - ⟨-, hv''⟩
      exact ⟨W, hv'', fun _ _ => hW code rfl⟩
    · rintro x v' - ⟨W, hv', -⟩
      exact ⟨W, hv', fun _ hr => absurd hr (by simp)⟩
  -- The first loop passes over artifacts.
  | createArtifact path =>
    refine Safe.mono ?_ (hh.value _ hv)
    rintro r v' - ⟨-, hv'⟩
    exact ⟨H.workspace, hv', fun _ _ => rfl⟩

/-- The first loop of an attempt changes the workspace only, and as the actions
say if it returns. -/
theorem executeActions_safe (hh : Host parts.base E exec' D t j A H₀) (actions : List Action)
    (hv : Holding parts.base j A H h v) :
    Safe exec' D t (fun r v' => ∃ W, Holding parts.base j A { H with workspace := W } h v' ∧
      ∀ u, r = .ok u → Effects parts.base E j actions H.workspace W)
      (ActionExecutor.executeActions parts server j actions).run v := by
  induction actions generalizing v H with
  | nil =>
    refine Safe.mono ?_ (hh.value _ hv)
    rintro r v' - ⟨-, hv'⟩
    exact ⟨H.workspace, hv', fun _ _ => rfl⟩
  | cons a rest ih =>
    -- The three actions that do something: their effect, then that of the rest.
    have hstep : Safe exec' D t
        (fun r v' => ∃ W, Holding parts.base j A { H with workspace := W } h v' ∧
          ∀ u, r = .ok u → Effects parts.base E j (a :: rest) H.workspace W)
        (do ActionExecutor.executeAction parts server j a
            ActionExecutor.executeActions parts server j rest : Task Unit).run v := by
      refine Safe.seqE (executeAction_safe hh a hv) ?_ ?_
      · rintro u v' - ⟨W, hv', hW⟩
        refine Safe.mono ?_ (ih hv')
        rintro r v'' - ⟨W', hv'', hW'⟩
        exact ⟨W', hv'', fun u' hr => ⟨W, hW u rfl, hW' u' hr⟩⟩
      · rintro x v' - ⟨W, hv', -⟩
        exact ⟨W, hv', fun _ hr => absurd hr (by simp)⟩
    cases a with
    | createArtifact path =>
      refine Safe.mono ?_ (ih hv)
      rintro r v' - ⟨W, hv', hW⟩
      exact ⟨W, hv', fun u hr => ⟨H.workspace, rfl, hW u hr⟩⟩
    | createDirectory path => exact hstep
    | writeFile path content => exact hstep
    | runTool name args => exact hstep

/-! ### Promoting artifacts -/

theorem registerArtifact_safe (hh : Host parts.base E exec' D t j A H₀) (path : String)
    (hv : Holding parts.base j A H h v) :
    Safe exec' D t (fun r v' => Holding parts.base j A H h v' ∧
      ∀ d, r = .ok d → Registered j parts path d)
      (ArtifactService.registerArtifact parts j path).run v := by
  refine Safe.seqE (hh.value _ hv) ?_ fun x v' _ hR => ⟨hR.2, fun _ hr => absurd hr (by simp)⟩
  rintro target v' - ⟨hcheck, hv'⟩
  refine Safe.mono ?_ (hh.perform (o := .db (.flushArtifact j path (baseName path) _))
    (K := fun r H' => H' = H ∧ ∀ d, r = .ok d → Registered j parts path d)
    rfl (fun _ => rfl) ?_ hv')
  · rintro r v'' - ⟨H', ⟨rfl, hr⟩, hv''⟩
    exact ⟨hv'', hr⟩
  · intro e w r w' _ hH hexec
    refine ⟨(exec_quiet (o := .db (.flushArtifact j path _ _)) trivial hexec).trans hH,
      fun d hr => ⟨⟨target, hcheck.symm⟩, ?_⟩⟩
    rw [hr] at hexec
    exact exec_flushArtifact hexec

theorem promote_safe (hh : Host parts.base E exec' D t j A H₀) (paths copied : List String)
    (drafts : List ArtifactDraft) (hv : Holding parts.base j A H h v) :
    Safe exec' D t (fun r v' => ∃ P, Holding parts.base j A { H with promoted := P } h v' ∧
      ∀ all, r.2 = .ok all → ∃ new, all = drafts ++ new ∧
        List.Forall₂ (Registered j parts) paths new ∧
        Promotion parts.base j H.workspace paths H.promoted P)
      (ActionExecutor.promote parts j paths copied drafts) v := by
  induction paths generalizing v H copied drafts with
  | nil =>
    refine Safe.mono ?_ (hh.value _ hv)
    rintro r v' - ⟨rfl, hv'⟩
    refine ⟨H.promoted, hv', fun all hr => ⟨[], ?_, .nil, rfl⟩⟩
    rw [List.append_nil]
    exact (Except.ok.inj hr).symm
  | cons path rest ih =>
    -- the copy of one file
    have hsave := hh.perform (o := .fs (.saveArtifact j path)) (H := H) (h := h) (v := v)
      (K := fun r H' => ∃ P, H' = { H with promoted := P } ∧ ∀ u, r = .ok u → ∃ q q' data,
        validateSafePath parts.base j path .jobs = .ok (root parts.base .jobs j ++ q) ∧
        validateSafePath parts.base j path .artifacts =
          .ok (root parts.base .artifacts j ++ q') ∧
        H.workspace q = some (.file data) ∧ P = H.promoted.writeAt q' data ∧
        ∀ p d, p ≠ q' → H.promoted p = some (.file d) → P p = some (.file d))
      rfl (fun _ => rfl) ?_ hv
    · refine Safe.seq hsave ?_
      rintro r v' - ⟨_, ⟨P, rfl, hP⟩, hv'⟩
      cases r with
      | error x =>
        refine Safe.mono ?_ (hh.value _ hv')
        rintro r v'' - ⟨rfl, hv''⟩
        exact ⟨P, hv'', fun _ hr => absurd hr (by simp)⟩
      | ok u =>
        obtain ⟨q, q', data, hq, hq', hdata, rfl, hkeep⟩ := hP u rfl
        refine Safe.seq (registerArtifact_safe hh path hv') ?_
        rintro r v'' - ⟨hv'', hreg⟩
        cases r with
        | error x =>
          refine Safe.mono ?_ (hh.value _ hv'')
          rintro r v₃ - ⟨rfl, hv₃⟩
          exact ⟨_, hv₃, fun _ hr => absurd hr (by simp)⟩
        | ok draft =>
          refine Safe.mono ?_ (ih _ _ hv'')
          rintro r v₃ - ⟨P', hv₃, hr⟩
          refine ⟨P', hv₃, fun all hall => ?_⟩
          obtain ⟨new, rfl, hnew, hprom⟩ := hr all hall
          refine ⟨draft :: new, by rw [List.append_assoc]; rfl, .cons (hreg draft rfl) hnew, ?_⟩
          exact ⟨q, q', data, hq, hq', hdata, hkeep, hprom⟩
    · intro e w r w' _ hH hexec
      refine ⟨(held parts.base j w').promoted, ?_, fun u hr => ?_⟩
      · rw [exec_promoted (o := .saveArtifact j path) rfl hexec, hH]
      · rw [hr] at hexec
        obtain ⟨q, q', data, hq, hq', hdata, hheld, hkeep⟩ := exec_saveArtifact hexec
        rw [hH] at hdata hheld hkeep
        exact ⟨q, q', data, hq, hq', hdata, by rw [hheld], hkeep⟩

/-! ### One attempt -/

/-- What an exception out of an attempt that began with `H` leaves.  One that
is caught leaves everything as it was, unless the database or the storage
failed at a point from which there is no way back. -/
def Failure (base : Path) (j : Uuid) (A : View World Op Res → Prop) (H : Held)
    (h : List (Label Op Res)) (x : Exn) (v : View World Op Res) : Prop :=
  (∃ H', Holding base j A H' h v) ∧ (x.isException = true →
    (∃ S, Holding base j A { H with snapshots := S } h v) ∨
    (x.fatal = true ∧
      ((∃ R S, Holding base j A { H with artifacts := R, snapshots := S } h v) ∧
        Late j v.history ∨ Stranded j v.history)))

/-- The commit of the rows, then the plan. -/
theorem finish_safe (hh : Host parts.base E exec' D t j A H₀) (drafts : List ArtifactDraft)
    (actions : List Action) (hv : Holding parts.base j A H h v) :
    Safe exec' D t (fun r v' => ∃ R, (∀ u, r = .ok u →
        R = H.artifacts ++ drafts.map (ArtifactDraft.row j) ∧
        Holding parts.base j A { H with artifacts := R, plan := some actions } h v') ∧
      ∀ x, r = .error x → Holding parts.base j A { H with artifacts := R } h v' ∧
        (R = H.artifacts ∨ x.fatal = true ∧ Late j v'.history))
      (ActionExecutor.finish j drafts (perform (.db (.saveActionPlan j actions)))).run v := by
  have hcommit := hh.perform_labelled (o := .db (.commitArtifacts j drafts)) (H := H) (h := h)
    (v := v) (K := fun r H' =>
      (r = .ok () ∧ H' = { H with artifacts := H.artifacts ++ drafts.map (ArtifactDraft.row j) }) ∨
      ((∃ x, r = .error x ∧ x.fatal = true) ∧ H' = H))
    rfl ?_
    (fun r _ _ hr => absurd hr (by simp [rollsBack])) hv
  · refine Safe.seqE hcommit ?_ ?_
    · rintro u v' - ⟨_, h', ⟨-, rfl⟩ | ⟨⟨x, hx, -⟩, -⟩, hsuffix, hv'⟩
      · have hsave := hh.perform_labelled (o := .db (.saveActionPlan j actions)) (v := v')
          (K := fun r H' => (r = .ok () ∧ H' = { H with
              artifacts := H.artifacts ++ drafts.map (ArtifactDraft.row j),
              plan := some actions }) ∨
            ((∃ x, r = .error x ∧ x.fatal = true) ∧ H' = { H with
              artifacts := H.artifacts ++ drafts.map (ArtifactDraft.row j) }))
          rfl ?_
          (fun r _ _ hr => absurd hr (by simp [rollsBack])) hv'
        · refine Safe.mono ?_ hsave
          rintro r v'' - ⟨_, h'', hK, hsuffix', hA, hH, hs⟩
          have hback : h <:+ v''.history :=
            hsuffix.trans ((List.suffix_cons _ _).trans (hsuffix'.trans
              ((List.suffix_cons _ _).trans hs)))
          refine ⟨H.artifacts ++ drafts.map (ArtifactDraft.row j), fun u' hr => ?_, fun x hr => ?_⟩
          · rcases hK with ⟨-, rfl⟩ | ⟨⟨x, hx, -⟩, -⟩
            · exact ⟨rfl, hA, hH, hback⟩
            · rw [hr] at hx
              exact absurd hx (by simp)
          · subst hr
            rcases hK with ⟨hok, -⟩ | ⟨⟨x', hx, hfatal⟩, rfl⟩
            · exact absurd hok (by simp)
            · refine ⟨⟨hA, hH, hback⟩, ?_⟩
              rw [Except.error.inj hx]
              -- without drafts nothing was committed; otherwise both labels are there
              by_cases hdrafts : drafts = []
              · left
                rw [hdrafts, List.map_nil, List.append_nil]
              · refine .inr ⟨hfatal, _, _, hs, decide_eq_true rfl, _,
                  hsuffix'.subset List.mem_cons_self, ?_⟩
                exact decide_eq_true ⟨rfl, hdrafts⟩
        · intro e w r w' _ hH hexec
          rcases exec_saveActionPlan hexec with ⟨rfl, hheld⟩ | ⟨hx, hheld⟩
          · exact .inl ⟨rfl, by rw [hheld, hH]⟩
          · exact .inr ⟨hx, hheld.trans hH⟩
      · exact absurd hx (by simp)
    · rintro x v' - ⟨H', h', ⟨hok, -⟩ | ⟨-, rfl⟩, hsuffix, hA, hH, hs⟩
      · exact absurd hok (by simp)
      · refine ⟨H'.artifacts, fun _ hr => absurd hr (by simp), fun y _ => ⟨?_, .inl rfl⟩⟩
        exact ⟨hA, hH, hsuffix.trans ((List.suffix_cons _ _).trans hs)⟩
  · intro e w r w' _ hH hexec
    rcases exec_commitArtifacts hexec with ⟨rfl, hheld⟩ | ⟨hx, hheld⟩
    · exact .inl ⟨rfl, by rw [hheld, hH]⟩
    · exact .inr ⟨hx, hheld.trans hH⟩

theorem body_safe (hh : Host parts.base E exec' D t j A H₀) (actions : List Action)
    (hv : Holding parts.base j A H h v) :
    Safe exec' D t (fun r v' =>
      (∀ u, r.2 = .ok u → ∃ H', Succeeded E j parts actions H H' ∧
        H'.snapshots = H.snapshots ∧ Holding parts.base j A H' h v') ∧
      ∀ x, r.2 = .error x → ∃ W P R,
        Holding parts.base j A { H with workspace := W, promoted := P, artifacts := R } h v' ∧
        (R = H.artifacts ∨ x.fatal = true ∧ Late j v'.history))
      (ActionExecutor.body parts server j actions
        (perform (.db (.saveActionPlan j actions)))) v := by
  -- The three parts in turn; what has been done stays when one of them raises.
  refine Safe.seq (executeActions_safe hh actions hv) ?_
  rintro r v' - ⟨W, hv', hW⟩
  cases r with
  | error x =>
    refine Safe.mono ?_ (hh.value _ hv')
    rintro r v'' - ⟨rfl, hv''⟩
    exact ⟨fun _ hr => absurd hr (by simp), fun y _ => ⟨W, H.promoted, H.artifacts, hv'', .inl rfl⟩⟩
  | ok u =>
    refine Safe.seq (promote_safe hh _ [] [] hv') ?_
    rintro ⟨left, r⟩ v'' - ⟨P, hv'', hP⟩
    cases r with
    | error x =>
      refine Safe.mono ?_ (hh.value _ hv'')
      rintro r v₃ - ⟨rfl, hv₃⟩
      exact ⟨fun _ hr => absurd hr (by simp), fun y _ => ⟨W, P, H.artifacts, hv₃, .inl rfl⟩⟩
    | ok drafts =>
      obtain ⟨new, rfl, hnew, hprom⟩ := hP drafts rfl
      refine Safe.bind
        (fun r => .inr ⟨((⟨left.copied, false⟩ : ActionExecutor.Unfinished), r), rfl, ?_⟩)
        (finish_safe hh _ actions hv'')
      rintro v₃ - ⟨R, hok, herr⟩
      refine ⟨fun u' hr => ?_, fun x hr => ?_⟩
      · obtain ⟨rfl, hv₃⟩ := hok u' hr
        exact ⟨⟨W, P, H.snapshots, H.artifacts ++ drafts.map (ArtifactDraft.row j), some actions⟩,
          ⟨hW u rfl, hprom, ⟨drafts, hnew, rfl⟩, rfl⟩, rfl, hv₃⟩
      · obtain ⟨hv₃, hR⟩ := herr x hr
        exact ⟨W, P, R, hv₃, hR⟩

/-- Removing promoted copies changes the artifacts directory only. -/
theorem cleanUp_safe (hh : Host parts.base E exec' D t j A H₀) (copied : List String)
    (hv : Holding parts.base j A H h v) :
    Safe exec' D t (fun _ v' => ∃ P, Holding parts.base j A { H with promoted := P } h v')
      (ActionExecutor.cleanUp j copied) v := by
  induction copied generalizing v H with
  | nil =>
    refine Safe.mono ?_ (hh.value _ hv)
    rintro r v' - ⟨-, hv'⟩
    exact ⟨H.promoted, hv'⟩
  | cons path rest ih =>
    have hremove := hh.perform (o := .fs (.removeCopy j path)) (H := H) (h := h) (v := v)
      (K := fun _ H' => ∃ P, H' = { H with promoted := P }) rfl
      (fun _ => rfl) ?_ hv
    -- An error of a removal is swallowed.
    · have honly : Safe exec' D t
          (fun _ v' => ∃ P, Holding parts.base j A { H with promoted := P } h v')
          (attemptOnly (.fs (.removeCopy j path))) v := by
        refine Safe.bind (fun r => .inr ⟨(), rfl, ?_⟩) hremove
        rintro v' - ⟨_, ⟨P, rfl⟩, hv'⟩
        exact ⟨P, hv'⟩
      refine Safe.seq honly ?_
      rintro _ v' - ⟨P, hv'⟩
      refine Safe.mono ?_ (ih hv')
      rintro _ v'' - ⟨P', hv''⟩
      exact ⟨P', hv''⟩
    · intro e w r w' _ hH hexec
      exact ⟨_, by rw [exec_promoted (o := .removeCopy j path) rfl hexec, hH]⟩

/-- The rollback of the session changes nothing that is held, and says so if it fails. -/
theorem rollback_safe (hh : Host parts.base E exec' D t j A H₀)
    (left : ActionExecutor.Unfinished) (hv : Holding parts.base j A H h v) :
    Safe exec' D t (fun r v' => Holding parts.base j A H h v' ∧
      ∀ x, r = .error x → x.fatal = true ∧ Stranded j v'.history)
      (ActionExecutor.rollback j left).run v := by
  rw [ActionExecutor.rollback]
  by_cases hopen : left.inTransaction
  · rw [if_pos hopen]
    have hroll := hh.perform_labelled (o := .db (.rollbackSession j)) (H := H) (h := h) (v := v)
      (K := fun r H' => H' = H ∧ ∀ x, r = .error x → x.fatal = true) rfl ?_
      (fun r _ _ hr => absurd hr (by simp [rollsBack])) hv
    · refine Safe.mono ?_ hroll
      rintro r v' - ⟨_, h', ⟨rfl, hfatal⟩, hs, hA, hH, hs'⟩
      refine ⟨⟨hA, hH, hs.trans ((List.suffix_cons _ _).trans hs')⟩, fun x hr => ?_⟩
      subst hr
      exact ⟨hfatal x rfl, _, hs'.subset List.mem_cons_self, decide_eq_true rfl⟩
    · intro e w r w' _ hH hexec
      refine ⟨(exec_quiet (o := .db (.rollbackSession j)) trivial hexec).trans hH,
        fun x hr => ?_⟩
      rcases exec_rollbackSession hexec with hok | ⟨y, hy, hfatal⟩
      · rw [hok] at hr
        exact absurd hr (by simp)
      · rw [hy] at hr
        rwa [← Except.error.inj hr]
  · rw [if_neg hopen]
    refine Safe.mono ?_ (hh.value (Except.ok ()) hv)
    rintro r v' - ⟨rfl, hv'⟩
    exact ⟨hv', fun _ hr => absurd hr (by simp)⟩

/-- The end of an attempt that raised: the session is rolled back, the copies are
removed, the snapshot is put back and the exception is raised again. -/
theorem handler_safe (hW₀ : H₀.workspace [] = some .dir) (hP₀ : H₀.promoted [] = some .dir)
    (hh : Host parts.base E exec' D t j A H₀) {token : String} {W P : Tree}
    {R : List ArtifactRow} {S : Tree} (left : ActionExecutor.Unfinished) {x : Exn}
    (hv : Holding parts.base j A ⟨W, P, S, R, H₀.plan⟩ h v)
    (hsnap : HasSnapshot parts.base j ⟨W, P, S, R, H₀.plan⟩ token H₀.workspace H₀.promoted)
    (hR : R = H₀.artifacts ∨ x.fatal = true ∧ Late j v.history) :
    Safe exec' D t (fun r v' => ∃ y, r = .error y ∧ Failure parts.base j A H₀ h y v')
      (ActionExecutor.handler j token left x).run v := by
  -- the history at this point: what is in it stays
  have hv₀ : Holding parts.base j A ⟨W, P, S, R, H₀.plan⟩ v.history v :=
    ⟨hv.1, hv.2.1, List.suffix_refl _⟩
  refine Safe.seqE (rollback_safe hh left hv₀) (fun _ v₁ _ hR₁ => ?_) fun y v₁ _ hR₁ => ?_
  swap
  · -- nothing is undone if the session cannot be rolled back
    obtain ⟨hfatal, hstranded⟩ := hR₁.2 y rfl
    exact ⟨y, rfl, ⟨_, hR₁.1.1, hR₁.1.2.1, hv.2.2.trans hR₁.1.2.2⟩,
      fun _ => .inr ⟨hfatal, .inr hstranded⟩⟩
  have hv₁ := hR₁.1
  refine Safe.seq (cleanUp_safe hh left.copied hv₁) ?_
  rintro _ v' - ⟨P', hv'⟩
  have hrollback := hh.perform_labelled (o := .fs (.rollbackAttempt j token)) (v := v')
    (K := fun r H' => (∀ u, r = .ok u → H'.workspace = H₀.workspace ∧
      H'.promoted = H₀.promoted ∧ H'.artifacts = R ∧ H'.plan = H₀.plan) ∧
      ∀ y, r = .error y → y.isOSError = true) rfl ?_ ?_ hv'
  · refine Safe.seqE hrollback ?_ ?_
    · rintro u v'' - ⟨⟨W', P'', S', R', plan'⟩, h', ⟨hok, -⟩, hs, hA, hH, hs'⟩
      obtain ⟨rfl, rfl, rfl, rfl⟩ := hok u rfl
      have hsince : v.history <:+ v''.history := hs.trans ((List.suffix_cons _ _).trans hs')
      refine Safe.mono ?_ (hh.value _ ⟨hA, hH, hsince⟩)
      rintro r v₃ - ⟨rfl, hA₃, hH₃, hs₃⟩
      refine ⟨x, rfl, ⟨_, hA₃, hH₃, hv.2.2.trans hs₃⟩, fun _ => ?_⟩
      rcases hR with hR | ⟨hfatal, hlate⟩
      · exact .inl ⟨S', hA₃, by rw [hH₃, ← hR], hv.2.2.trans hs₃⟩
      · exact .inr ⟨hfatal, .inl ⟨⟨R', S', hA₃, hH₃, hv.2.2.trans hs₃⟩, hlate.mono hs₃⟩⟩
    · rintro y v'' - ⟨H', h', ⟨-, herr⟩, hs, hA, hH, hs'⟩
      have hsince : v.history <:+ v''.history := hs.trans ((List.suffix_cons _ _).trans hs')
      refine ⟨y, rfl, ⟨H', hA, hH, hv.2.2.trans hsince⟩, fun _ => .inr ⟨?_, .inr ?_⟩⟩
      · exact fatal_of_isOSError (herr y rfl)
      · exact ⟨_, hs'.subset List.mem_cons_self, decide_eq_true rfl⟩
  · intro e w r w' _ hH hexec
    refine ⟨fun u hr => ?_, fun y hr => ?_⟩
    · rw [hr] at hexec
      have hsnap' : HasSnapshot parts.base j (held parts.base j w) token H₀.workspace
          H₀.promoted := by
        rw [hH]
        exact hsnap
      obtain ⟨h₁, h₂, h₃, h₄⟩ := exec_rollbackAttempt hsnap' hexec
      rw [Tree.copied_eq_self hW₀] at h₁
      rw [Tree.copied_eq_self hP₀] at h₂
      rw [hH] at h₃ h₄
      exact ⟨h₁, h₂, h₃, h₄⟩
    · rw [hr] at hexec
      exact exec_fs_raises (o := .rollbackAttempt j token)
        (LocalStorage.rollbackAttempt_raises _ _ _) hexec
  · rintro (y | u) H' h' hr ⟨hok, -⟩ hs
    · exact absurd hr (by simp [rollsBack])
    · obtain ⟨h₁, h₂, h₃, h₄⟩ := hok u rfl
      refine ⟨h₁, h₂, h₄, ?_⟩
      rw [h₃]
      exact hR.imp_right fun hlate => hlate.2.mono hs

/-- **One attempt.**  If it returns, the plan has been executed, promoted,
registered and saved; if it raises, see `Failure`. -/
theorem executeAttempt_safe (hW₀ : H₀.workspace [] = some .dir)
    (hP₀ : H₀.promoted [] = some .dir) (hh : Host parts.base E exec' D t j A H₀) {S : Tree}
    (actions : List Action) (hv : Holding parts.base j A { H₀ with snapshots := S } h v) :
    Safe exec' D t (fun r v' =>
      (∀ u, r = .ok u → ∃ H', Succeeded E j parts actions H₀ H' ∧
        Holding parts.base j A H' h v') ∧
      ∀ x, r = .error x → Failure parts.base j A H₀ h x v')
      (JobOrchestratorService.executionCb parts server j actions).run v := by
  have hbegin := hh.perform (o := .fs (.beginAttempt j)) (v := v) (h := h)
    (K := fun r H' => (∃ S', H' = { H₀ with snapshots := S' }) ∧ ∀ token, r = .ok token →
      HasSnapshot parts.base j H' token H₀.workspace H₀.promoted)
    rfl (fun _ => rfl) ?_ hv
  · refine Safe.seqE hbegin ?_ ?_
    · rintro token v' - ⟨_, ⟨⟨S', rfl⟩, hsnap⟩, hv'⟩
      refine Safe.seq (body_safe hh actions hv') ?_
      rintro ⟨left, r⟩ v'' - ⟨hok, herr⟩
      cases r with
      | ok u =>
        -- the `else` clause: only the removal of the snapshot can still fail
        obtain ⟨H', hsucc, hS, hv''⟩ := hok u rfl
        have hcomplete := hh.perform_labelled (o := .fs (.completeAttempt j token)) (v := v'')
          (K := fun r H'' => (∃ S'', H'' = { H' with snapshots := S'' }) ∧
            ∀ y, r = .error y → y.isOSError = true) rfl ?_
          (fun r _ _ hr => absurd hr (by simp [rollsBack])) hv''
        · refine Safe.mono ?_ hcomplete
          rintro r v₃ - ⟨_, h', ⟨⟨S'', rfl⟩, hr⟩, hs, hA, hH, hs'⟩
          have hback : h <:+ v₃.history := hs.trans ((List.suffix_cons _ _).trans hs')
          refine ⟨fun u' hu => ⟨_, ?_, hA, hH, hback⟩,
            fun y hy => ⟨⟨_, hA, hH, hback⟩, fun _ => ?_⟩⟩
          · exact ⟨hsucc.workspace, hsucc.promoted, hsucc.artifacts, hsucc.plan⟩
          · subst hy
            exact .inr ⟨fatal_of_isOSError (hr y rfl), .inr ⟨_, hs'.subset List.mem_cons_self,
              decide_eq_true rfl⟩⟩
        · intro e w r w' _ hH hexec
          refine ⟨⟨(held parts.base j w').snapshots, ?_⟩, fun y hr => ?_⟩
          · rw [exec_snapshots (o := .completeAttempt j token) rfl hexec, hH]
          · rw [hr] at hexec
            exact exec_fs_raises (o := .completeAttempt j token)
              (LocalStorage.completeAttempt_raises _ _) hexec
      | error x =>
        obtain ⟨W, P, R, hv'', hR⟩ := herr x rfl
        show Safe exec' D t _ (ExceptT.run (if x.isException then _ else _)) v''
        by_cases hx : x.isException
        · rw [if_pos hx]
          refine Safe.mono ?_ (handler_safe hW₀ hP₀ hh left hv'' (hsnap token rfl) hR)
          rintro r v₃ - ⟨y, rfl, hfail⟩
          refine ⟨fun _ hr => absurd hr (by simp), fun y' hy => ?_⟩
          rw [← Except.error.inj hy]
          exact hfail
        · -- a cancelled task leaves at once
          rw [if_neg hx]
          refine Safe.mono ?_ (hh.value _ hv'')
          rintro r v₃ - ⟨rfl, hv₃⟩
          refine ⟨fun _ hr => absurd hr (by simp), fun y hy => ⟨⟨_, hv₃⟩, fun hy' => ?_⟩⟩
          rw [← Except.error.inj hy] at hy'
          exact absurd hy' hx
    · rintro x v' - ⟨_, ⟨⟨S', rfl⟩, -⟩, hv'⟩
      exact ⟨fun _ hr => absurd hr (by simp),
        fun y _ => ⟨⟨_, hv'⟩, fun _ => .inl ⟨S', hv'⟩⟩⟩
  · intro e w r w' _ hH hexec
    refine ⟨⟨(held parts.base j w').snapshots, ?_⟩, fun token hr => ?_⟩
    · rw [exec_snapshots (o := .beginAttempt j) rfl hexec, hH]
    · rw [hr] at hexec
      have := exec_beginAttempt hexec
      rw [hH] at this
      exact this

/-! ### All attempts -/

theorem oneAttempt_safe (hW₀ : H₀.workspace [] = some .dir) (hP₀ : H₀.promoted [] = some .dir)
    (hh : Host parts.base E exec' D t j A H₀) {S : Tree} (request : LLMRequest)
    (hv : Holding parts.base j A { H₀ with snapshots := S } h v) :
    Safe exec' D t (fun r v' =>
      (∀ p, r = .ok p → ∃ H', Succeeded E j parts p H₀ H' ∧ Holding parts.base j A H' h v') ∧
      ∀ x, r = .error x → Failure parts.base j A H₀ h x v')
      (LLMPlanRetryExecutor.oneAttempt parts (SecurityPolicyValidator.validateActions parts j)
        (JobOrchestratorService.executionCb parts server j) request).run v := by
  -- whatever is raised before the execution leaves everything as it was
  have hraise : ∀ {α : Type} (Q : α → Prop) (x : Exn) v',
      Holding parts.base j A { H₀ with snapshots := S } h v' →
      (∀ p, (.error x : Except Exn α) = .ok p → Q p) ∧
        ∀ y, (.error x : Except Exn α) = .error y → Failure parts.base j A H₀ h y v' :=
    fun Q x v' hv' => ⟨fun _ hr => absurd hr (by simp),
      fun y _ => ⟨⟨_, hv'⟩, fun _ => .inl ⟨S, hv'⟩⟩⟩
  refine Safe.seqE (process_safe hh (o := .sys (.generatePlan request)) trivial hv)
    (fun response v' _ hv' => ?_) fun x v' _ hv' => hraise _ x v' hv'
  refine Safe.seqE (hh.value _ hv') (fun actions v' _ hR => ?_)
    fun x v' _ hR => hraise _ x v' hR.2
  refine Safe.seqE (hh.quiet_calls (R := fun _ => True)
    (calls_mono (fun _ => OfProcess.quiet) (calls_of_within (validateActions_calls actions)))
    (returns_true _) hR.2)
    (fun _ v' _ hR => ?_) fun x v' _ hR => hraise _ x v' hR.2
  refine Safe.seqE (executeAttempt_safe hW₀ hP₀ hh actions hR.2) ?_ ?_
  · rintro u v' - ⟨hok, -⟩
    obtain ⟨H', hsucc, hv'⟩ := hok u rfl
    refine Safe.mono ?_ (hh.value _ hv')
    rintro r v'' - ⟨rfl, hv''⟩
    refine ⟨fun p hp => ?_, fun x hx => absurd hx (by simp)⟩
    rw [← Except.ok.inj hp]
    exact ⟨H', hsucc, hv''⟩
  · rintro x v' - ⟨-, herr⟩
    refine ⟨fun _ hr => absurd hr (by simp), fun y hy => herr y ?_⟩
    rw [Except.error.inj hy]

/-- The number of an attempt is logged before it begins. -/
theorem onAttempt_safe (hh : Host parts.base E exec' D t j A H₀) (n : ℕ)
    (hv : Holding parts.base j A H h v) :
    Safe exec' D t (fun _ v' => Holding parts.base j A H h v')
      (JobOrchestratorService.onAttempt j n).run v :=
  hh.quiet (o := .db (.appendEvent j _ _))
    rfl trivial hv

/-- An exception that is retried has left everything as it was. -/
theorem Failure.intact {x : Exn} (hfail : Failure parts.base j A H₀ h x v)
    (hretry : (LLMPlanRetryExecutor.feedbackFor parts x).isSome) :
    ∃ S, Holding parts.base j A { H₀ with snapshots := S } h v := by
  have hx : x.isException = true := by
    by_contra hcon
    cases x <;> first
      | exact hcon rfl
      | exact absurd hretry (by simp [LLMPlanRetryExecutor.feedbackFor, Exn.isCliExecution])
  rcases hfail.2 hx with hintact | ⟨hfatal, -⟩
  · exact hintact
  · rw [feedbackFor_fatal hfatal] at hretry
    exact absurd hretry (by simp)

/-- **All attempts.**  A plan that is returned has been executed from what was
held before the first attempt. -/
theorem generateActions_safe (hW₀ : H₀.workspace [] = some .dir)
    (hP₀ : H₀.promoted [] = some .dir) (hh : Host parts.base E exec' D t j A H₀)
    (delays : List ℕ) (attempt : ℕ) (request : LLMRequest) {S : Tree}
    (hv : Holding parts.base j A { H₀ with snapshots := S } h v) :
    Safe exec' D t (fun r v' =>
      (∀ p, r = .ok p → ∃ H', Succeeded E j parts p H₀ H' ∧ Holding parts.base j A H' h v') ∧
      ∀ x, r = .error x → Failure parts.base j A H₀ h x v')
      (LLMPlanRetryExecutor.generateActions parts (JobOrchestratorService.onAttempt j)
        (SecurityPolicyValidator.validateActions parts j)
        (JobOrchestratorService.executionCb parts server j) delays attempt request).run v := by
  have hraise : ∀ {S} (x : Exn) v', Holding parts.base j A { H₀ with snapshots := S } h v' →
      (∀ p, (.error x : Except Exn (List Action)) = .ok p → ∃ H', Succeeded E j parts p H₀ H' ∧
        Holding parts.base j A H' h v') ∧
      ∀ y, (.error x : Except Exn (List Action)) = .error y → Failure parts.base j A H₀ h y v' :=
    fun x v' hv' => ⟨fun _ hr => absurd hr (by simp),
      fun y _ => ⟨⟨_, hv'⟩, fun _ => .inl ⟨_, hv'⟩⟩⟩
  -- induction on the delays that are left; a retry begins with what the first attempt had
  induction delays generalizing attempt request S v with
  | nil =>
    exact Safe.seqE (onAttempt_safe hh attempt hv)
      (fun _ v' _ hv' => oneAttempt_safe hW₀ hP₀ hh request hv')
      fun x v' _ hv' => hraise x v' hv'
  | cons delay delays ih =>
    refine Safe.seqE (onAttempt_safe hh attempt hv) (fun _ v' _ hv' => ?_)
      fun x v' _ hv' => hraise x v' hv'
    refine Safe.catching (oneAttempt_safe hW₀ hP₀ hh request hv') (fun _ _ _ hR => hR) ?_
      (fun _ _ _ _ hR => hR)
    rintro x v'' hretry - ⟨-, herr⟩
    obtain ⟨S', hv''⟩ := (herr x rfl).intact hretry
    exact Safe.seqE (process_safe hh (o := .sys (.sleep delay)) trivial hv'')
      (fun _ v₃ _ hv₃ => ih _ _ hv₃) fun y v₃ _ hv₃ => hraise y v₃ hv₃

end Walk

/-! ### Surroundings -/

/-- The others leave what job `j` holds alone. -/
def undisturbed (base : Path) (j : Uuid) : Discipline World Op Res where
  inv := fun _ => True
  rely := fun v v' => held base j v'.state = held base j v.state ∧ v'.history = v.history
  guar := fun _ _ => True
  refl := fun _ => ⟨rfl, rfl⟩
  trans := fun _ _ _ h₁ h₂ => ⟨h₂.1.trans h₁.1, h₂.2.trans h₁.2⟩

theorem Host.undisturbed {Env' : Type} {base : Path} {E : Env → Prop}
    {exec' : Env' → (o : Op) → World → Option (Res o × World)} {t : ℕ} {j : Uuid}
    (henv : ∀ e o w r w', exec' e o w = some (r, w') →
      ∃ e₀, E e₀ ∧ exec base e₀ o w = some (r, w')) (H₀ : Held) :
    Host base E exec' (undisturbed base j) t j (fun _ => True) H₀ where
  env := henv
  stable := fun _ _ _ hrely _ => ⟨trivial, hrely.1, by rw [hrely.2]⟩
  step := fun _ _ _ _ _ _ _ _ _ _ => ⟨trivial, trivial, trivial⟩

end CliExecutionPlatform
