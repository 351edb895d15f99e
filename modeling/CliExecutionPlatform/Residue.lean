/-
Failed attempts leave no residue.

The retry loop of `LLMPlanRetryExecutor` may go through any number of attempts
before one succeeds.  This file compares what it leaves with what the successful
plan leaves when it is executed alone, from the same trees, rows and plan.

The tool is outside the repository; what is assumed of it is that its exit code
and the files that it creates or modifies depend on its arguments and on the
tree it finds (`Tool`, `Conforms`).

* `Effects.unique`, `Promotion.unique`, `Succeeded.unique` — a plan that succeeds
  has one outcome, the numbers of new rows apart;
* `generateActions_executes` — a retry loop that returns a plan has executed it,
  from the trees, rows and plan that were there before the first attempt;
* `retries_leave_no_residue` — both together.
-/
import CliExecutionPlatform.AttemptSpec
import CliExecutionPlatform.Lifecycle

open Files Process

namespace CliExecutionPlatform

open LocalStorage (root treeOf validateSafePath)

/-! ### The tool -/

/-- The tree that the tool finds. -/
def Staged.tree (staged : Staged) : Tree := fun p =>
  if p = [] ∨ p ∈ staged.dirs then some .dir
  else (staged.files.find? fun f => f.path = p).map fun f => .file f.data

/-- A tool whose exit code and output are functions of its arguments and of the
tree it finds.  The output maps the paths of the files that it creates or
modifies to their contents; these paths are those of regular files. -/
structure Tool where
  code : List String → Tree → ℤ
  output : List String → Tree → Path → Option (List UInt8)
  plain : ∀ args t p, (output args t p).isSome → ∀ name ∈ p, Plain name
  leaf : ∀ args t p q, (output args t p).isSome → (output args t q).isSome → p <+: q → p = q

/-- The path and the contents of a file. -/
def TmpFile.entry (f : TmpFile) : Path × List UInt8 := (f.path, f.data)

/-- Processes behave as the tool does. -/
def Conforms (tool : Tool) (e : Env) : Prop :=
  ∀ args staged code, (e.behaviour args staged).ending = .exited code →
    code = tool.code args staged.tree ∧
    (((e.behaviour args staged).files.filter (changed staged.files)).map TmpFile.path).Nodup ∧
    ∀ p data,
      (p, data) ∈ ((e.behaviour args staged).files.filter (changed staged.files)).map
        TmpFile.entry ↔ tool.output args staged.tree p = some data

section Unique

variable {base : Path} {tool : Tool} {j : Uuid}

/-- What the tool finds at a path: the directories and the `.scad` files of the
workspace. -/
def scadNode (p : Path) : Option Node → Option Node
  | some .dir => some .dir
  | some (.file data) => if isScad p then some (.file data) else none
  | none => none

theorem Staging.tree_apply {W : Tree} {now : ℕ} {staged : Staged} (h : Staging W now staged)
    {p : Path} (hp : p ≠ []) : staged.tree p = scadNode p (W p) := by
  have hfind : ∀ f, (staged.files.find? fun f => f.path = p) = some f →
      W p = some (.file f.data) ∧ isScad p = true := by
    intro f hf
    have hpath : f.path = p := by simpa using List.find?_some hf
    obtain ⟨-, hdata, hscad, -⟩ := (h.2 f).mp (List.mem_of_find?_eq_some hf)
    rw [← hpath]
    exact ⟨hdata, hscad⟩
  rw [Staged.tree]
  by_cases hdir : W p = some .dir
  · rw [if_pos (.inr ((h.1 p).mpr ⟨hp, hdir⟩)), hdir]
    rfl
  · have hnot : ¬ (p = [] ∨ p ∈ staged.dirs) := by
      rintro (hnil | hmem)
      · exact hp hnil
      · exact hdir ((h.1 p).mp hmem).2
    rw [if_neg hnot]
    rcases hf : staged.files.find? fun f => f.path = p with _ | f
    · -- nothing was staged at this path
      rw [hf]
      rcases hW : W p with _ | _ | data
      · rfl
      · exact absurd hW hdir
      · have hscad : isScad p = false := by
          by_contra hcon
          rw [Bool.not_eq_false] at hcon
          have hmem := (h.2 ⟨p, data, now⟩).mpr ⟨hp, hW, hcon, rfl⟩
          exact List.find?_eq_none.mp hf _ hmem (decide_eq_true rfl)
        simp [scadNode, hscad]
    · obtain ⟨hW, hscad⟩ := hfind f hf
      rw [hf, hW, scadNode, if_pos hscad]
      rfl

/-- The tree that the tool finds is determined by the workspace. -/
theorem Staging.tree_unique {W : Tree} {now now' : ℕ} {staged staged' : Staged}
    (h : Staging W now staged) (h' : Staging W now' staged') : staged.tree = staged'.tree := by
  funext p
  by_cases hp : p = []
  · rw [Staged.tree, Staged.tree, if_pos (.inl hp), if_pos (.inl hp)]
  · rw [h.tree_apply hp, h'.tree_apply hp]

/-- Copying out writes the files, one after the other. -/
theorem CopiedOut.eq_writeAll {files : List TmpFile} {W W' : Tree}
    (hplain : ∀ f ∈ files, ∀ name ∈ f.path, Plain name) (h : CopiedOut base j files W W') :
    W' = W.writeAll (files.map TmpFile.entry) := by
  induction files generalizing W with
  | nil => exact h
  | cons f rest ih =>
    obtain ⟨q, hq, hrest⟩ := h
    rw [follow_plain (hplain f List.mem_cons_self)] at hq
    rw [← List.append_cancel_left hq] at hrest
    exact ih (fun g hg => hplain g (List.mem_cons_of_mem _ hg)) hrest

/-- A run of the tool that returned has written the tool's output. -/
theorem ToolEffect.eq_writeAll {args : List String} {W W' : Tree}
    (h : ToolEffect base (Conforms tool) j args W W') : ∃ now staged files,
      Staging W now staged ∧ files.Nodup ∧
      (∀ p data, (p, data) ∈ files ↔ tool.output args staged.tree p = some data) ∧
      W' = W.writeAll files := by
  obtain ⟨e, e', staged, -, hconf, hstaging, hend, hcopy⟩ := h
  obtain ⟨-, hnodup, hout⟩ := hconf args staged 0 hend
  refine ⟨e.now, staged, _, hstaging, ?_, hout, CopiedOut.eq_writeAll (fun f hf => ?_) hcopy⟩
  · refine List.Nodup.of_map Prod.fst ?_
    rw [List.map_map]
    exact hnodup
  · have hmem := (hout f.path f.data).mp (List.mem_map_of_mem hf)
    exact tool.plain args staged.tree f.path (by rw [hmem]; rfl)

theorem ToolEffect.unique {args : List String} {W W₁ W₂ : Tree}
    (h₁ : ToolEffect base (Conforms tool) j args W W₁)
    (h₂ : ToolEffect base (Conforms tool) j args W W₂) : W₁ = W₂ := by
  obtain ⟨now₁, staged₁, files₁, hs₁, hnodup₁, hout₁, rfl⟩ := h₁.eq_writeAll
  obtain ⟨now₂, staged₂, files₂, hs₂, hnodup₂, hout₂, rfl⟩ := h₂.eq_writeAll
  rw [hs₂.tree_unique hs₁] at hout₂
  -- the two runs copied the same files, perhaps in another order
  have hperm : files₁.Perm files₂ := by
    refine (List.perm_ext_iff_of_nodup hnodup₁ hnodup₂).mpr fun f => ?_
    exact (hout₁ f.1 f.2).trans (hout₂ f.1 f.2).symm
  refine W.writeAll_perm hperm fun f hf g hg hfg => ?_
  have hf' := (hout₁ f.1 f.2).mp hf
  have hg' := (hout₁ g.1 g.2).mp hg
  have hsome : ∀ {p d}, tool.output args staged₁.tree p = some d →
      (tool.output args staged₁.tree p).isSome = true := fun h => by rw [h]; rfl
  have hne : f.1 ≠ g.1 := by
    intro heq
    rw [heq, hg'] at hf'
    exact hfg (Prod.ext heq (Option.some.inj hf').symm)
  exact ⟨fun hp => hne (tool.leaf _ _ _ _ (hsome hf') (hsome hg') hp),
    fun hp => hne (tool.leaf _ _ _ _ (hsome hg') (hsome hf') hp).symm⟩

theorem validateSafePath_unique {path : String} {area : Area} {q q' : Path}
    (h : validateSafePath base j path area = .ok (root base area j ++ q))
    (h' : validateSafePath base j path area = .ok (root base area j ++ q')) : q = q' := by
  rw [h] at h'
  exact List.append_cancel_left (Except.ok.inj h')

theorem ActionEffect.unique {a : Action} {W W₁ W₂ : Tree}
    (h₁ : ActionEffect base (Conforms tool) j a W W₁)
    (h₂ : ActionEffect base (Conforms tool) j a W W₂) : W₁ = W₂ := by
  cases a with
  | createDirectory path =>
    obtain ⟨q₁, hq₁, rfl⟩ := h₁
    obtain ⟨q₂, hq₂, rfl⟩ := h₂
    rw [validateSafePath_unique hq₁ hq₂]
  | writeFile path content =>
    obtain ⟨q₁, hq₁, rfl⟩ := h₁
    obtain ⟨q₂, hq₂, rfl⟩ := h₂
    rw [validateSafePath_unique hq₁ hq₂]
  | runTool name args => exact ToolEffect.unique h₁ h₂
  | createArtifact path => exact Eq.trans h₁ (Eq.symm h₂)

theorem Effects.unique {actions : List Action} {W W₁ W₂ : Tree}
    (h₁ : Effects base (Conforms tool) j actions W W₁)
    (h₂ : Effects base (Conforms tool) j actions W W₂) : W₁ = W₂ := by
  induction actions generalizing W with
  | nil => exact Eq.trans h₁ (Eq.symm h₂)
  | cons a rest ih =>
    obtain ⟨W₁', ha₁, hrest₁⟩ := h₁
    obtain ⟨W₂', ha₂, hrest₂⟩ := h₂
    rw [ha₁.unique ha₂] at hrest₁
    exact ih hrest₁ hrest₂

theorem Promotion.unique {W P P₁ P₂ : Tree} {paths : List String}
    (h₁ : Promotion base j W paths P P₁) (h₂ : Promotion base j W paths P P₂) : P₁ = P₂ := by
  induction paths generalizing P with
  | nil => exact Eq.trans h₁ (Eq.symm h₂)
  | cons path rest ih =>
    obtain ⟨q₁, q₁', data₁, hq₁, hq₁', hdata₁, -, hrest₁⟩ := h₁
    obtain ⟨q₂, q₂', data₂, hq₂, hq₂', hdata₂, -, hrest₂⟩ := h₂
    rw [validateSafePath_unique hq₁ hq₂, hdata₂] at hdata₁
    rw [validateSafePath_unique hq₁' hq₂', Node.file.inj (Option.some.inj hdata₁.symm)] at hrest₁
    exact ih hrest₁ hrest₂

/-! ### The outcome of a plan -/

/-- The same trees, rows and plan; snapshots are scratch. -/
structure Held.SameData (H H' : Held) : Prop where
  workspace : H'.workspace = H.workspace
  promoted : H'.promoted = H.promoted
  artifacts : H'.artifacts = H.artifacts
  plan : H'.plan = H.plan

/-- An artifact row without its number, which is a fresh one for every row. -/
def ArtifactRow.content (a : ArtifactRow) : Uuid × String × String × String :=
  (a.jobId, a.relativePath, a.filename, a.contentType)

/-- The same trees and plan, and the same rows up to their numbers. -/
structure Held.SameOutcome (H H' : Held) : Prop where
  workspace : H'.workspace = H.workspace
  promoted : H'.promoted = H.promoted
  artifacts : H'.artifacts.map ArtifactRow.content = H.artifacts.map ArtifactRow.content
  plan : H'.plan = H.plan

theorem registered_unique {parts : Parts} {paths : List String}
    {drafts₁ drafts₂ : List ArtifactDraft} (h₁ : List.Forall₂ (Registered j parts) paths drafts₁)
    (h₂ : List.Forall₂ (Registered j parts) paths drafts₂) :
    (drafts₂.map (ArtifactDraft.row j)).map ArtifactRow.content =
      (drafts₁.map (ArtifactDraft.row j)).map ArtifactRow.content := by
  induction h₁ generalizing drafts₂ with
  | nil =>
    cases h₂
    rfl
  | cons hd₁ _ ih =>
    cases h₂ with
    | cons hd₂ hrest =>
      simp only [List.map_cons]
      rw [ih hrest]
      congr 1
      rw [hd₁.2, hd₂.2]
      rfl

/-- **A plan that succeeds has one outcome.** -/
theorem Succeeded.unique {parts : Parts} {plan : List Action} {H H' H₁ H₂ : Held}
    (hstart : H.SameData H') (h₁ : Succeeded (Conforms tool) j parts plan H H₁)
    (h₂ : Succeeded (Conforms tool) j parts plan H' H₂) : H₁.SameOutcome H₂ := by
  have hW : H₂.workspace = H₁.workspace := by
    have hw₂ := h₂.workspace
    rw [hstart.workspace] at hw₂
    exact Effects.unique hw₂ h₁.workspace
  refine ⟨hW, ?_, ?_, h₂.plan.trans h₁.plan.symm⟩
  · have hp₂ := h₂.promoted
    rw [hstart.promoted, hW] at hp₂
    exact Promotion.unique hp₂ h₁.promoted
  · obtain ⟨drafts₁, hd₁, hrows₁⟩ := h₁.artifacts
    obtain ⟨drafts₂, hd₂, hrows₂⟩ := h₂.artifacts
    rw [hrows₁, hrows₂, List.map_append, List.map_append, hstart.artifacts,
      registered_unique hd₁ hd₂]

end Unique

/-! ### The retry loop -/

section Retries

/-- Execution with processes that behave as the tool does. -/
def execWith (base : Path) (tool : Tool) (e : {e // Conforms tool e}) (o : Op) (w : World) :
    Option (Res o × World) := exec base e.1 o w

variable {parts : Parts} {server : ℕ} {j : Uuid} {tool : Tool} {t : ℕ} {H : Held}
  {v v' : View World Op Res} {p : List Action}

theorem host_execWith (H : Held) :
    Host parts.base (Conforms tool) (execWith parts.base tool) (undisturbed parts.base j) t j
      (fun _ => True) H :=
  Host.undisturbed (fun e _ _ _ _ h => ⟨e.1, e.2, h⟩) H

/-- Job `j` holds the data of `H`, with some snapshots. -/
def HasData (base : Path) (j : Uuid) (H : Held) (v : View World Op Res) : Prop :=
  ∃ S, Holding base j (fun _ => True) { H with snapshots := S } [] v

theorem HasData.sameData {base : Path} (h : HasData base j H v) :
    H.SameData (held base j v.state) := by
  obtain ⟨S, -, hheld, -⟩ := h
  rw [hheld]
  exact ⟨rfl, rfl, rfl, rfl⟩

/-- An attempt that returns a plan has executed it, from the data it began
with. -/
theorem oneAttempt_executes {request : LLMRequest} (hv : HasData parts.base j H v)
    (hrun : Amid (execWith parts.base tool) (undisturbed parts.base j) t
      (LLMPlanRetryExecutor.oneAttempt parts (SecurityPolicyValidator.validateActions parts j)
        (JobOrchestratorService.executionCb parts server j) request).run v (.ok p) v') :
    ∃ v₀ v₁, HasData parts.base j H v₀ ∧
      Amid (execWith parts.base tool) (undisturbed parts.base j) t
        (JobOrchestratorService.executionCb parts server j p).run v₀ (.ok ()) v₁ ∧
      held parts.base j v'.state = held parts.base j v₁.state := by
  have hI : ∀ v, (undisturbed parts.base j).inv v := fun _ => trivial
  obtain ⟨S, hv⟩ := hv
  have hhost : Host parts.base (Conforms tool) (execWith parts.base tool)
      (undisturbed parts.base j) t j (fun _ => True) H := host_execWith H
  -- Neither the plan nor its validation touches the data of the job.
  obtain ⟨response, v₁, h₁, hrun⟩ := hrun.bindE hI
  have hv₁ := (process_safe hhost (o := .sys (.generatePlan request)) trivial hv).amid h₁
  obtain ⟨actions, v₂, h₂, hrun⟩ := hrun.bindE hI
  have hv₂ := ((hhost.value _ hv₁).amid h₂).2
  obtain ⟨u, v₃, h₃, hrun⟩ := hrun.bindE hI
  have hv₃ := ((hhost.quiet_calls (R := fun _ => True)
    (calls_mono (fun _ => OfProcess.quiet)
      (calls_of_within (validateActions_calls actions))) (returns_true _)
    hv₂).amid h₃).2
  obtain ⟨u', v₄, h₄, hrun⟩ := hrun.bindE hI
  cases hrun with
  | ret _ hrely _ => exact ⟨v₃, v₄, ⟨S, hv₃⟩, h₄, hrely.1⟩

/-- A retry loop that returns a plan has executed it, from the data that was
there before the first attempt. -/
theorem generateActions_executes (hW : H.workspace [] = some .dir) (hP : H.promoted [] = some .dir)
    {delays : List ℕ} {attempt : ℕ} {request : LLMRequest} (hv : HasData parts.base j H v)
    (hrun : Amid (execWith parts.base tool) (undisturbed parts.base j) t
      (LLMPlanRetryExecutor.generateActions parts (JobOrchestratorService.onAttempt j)
        (SecurityPolicyValidator.validateActions parts j)
        (JobOrchestratorService.executionCb parts server j) delays attempt request).run v
      (.ok p) v') :
    ∃ v₀ v₁, HasData parts.base j H v₀ ∧
      Amid (execWith parts.base tool) (undisturbed parts.base j) t
        (JobOrchestratorService.executionCb parts server j p).run v₀ (.ok ()) v₁ ∧
      held parts.base j v'.state = held parts.base j v₁.state := by
  have hI : ∀ v, (undisturbed parts.base j).inv v := fun _ => trivial
  have hhost : Host parts.base (Conforms tool) (execWith parts.base tool)
      (undisturbed parts.base j) t j (fun _ => True) H := host_execWith H
  -- induction on the delays that are left: a caught exception has left the data as it was
  induction delays generalizing attempt request v with
  | nil =>
    obtain ⟨S, hv⟩ := hv
    obtain ⟨u, v₁, h₁, hrun⟩ := hrun.bindE hI
    exact oneAttempt_executes ⟨S, (onAttempt_safe hhost attempt hv).amid h₁⟩ hrun
  | cons delay delays ih =>
    obtain ⟨S, hv⟩ := hv
    obtain ⟨u, v₁, h₁, hrun⟩ := hrun.bindE hI
    have hv₁ := (onAttempt_safe hhost attempt hv).amid h₁
    rcases hrun.tryExcept hI with ⟨v₂, h₂, hrely⟩ | ⟨x, v₂, hretry, h₂, hrun⟩
    · obtain ⟨v₃, v₄, hv₃, h₄, hheld⟩ := oneAttempt_executes ⟨S, hv₁⟩ h₂
      exact ⟨v₃, v₄, hv₃, h₄, hrely.1.trans hheld⟩
    · have hfail := ((oneAttempt_safe hW hP hhost request hv₁).amid h₂).2 x rfl
      obtain ⟨S', hv₂⟩ := hfail.intact hretry
      obtain ⟨u', v₃, h₃, hrun⟩ := hrun.bindE hI
      have hv₃ := (process_safe hhost (o := .sys (.sleep delay)) trivial hv₂).amid h₃
      exact ih ⟨S', hv₃⟩ hrun

/-- **No residue of failed attempts.**  Let `generate_actions` go through any
attempts and return the plan `p`.  The trees, rows and plan that it leaves are
those of an execution of `p` from the data that was there before the first
attempt, and every execution of `p` alone from this data that succeeds leaves
the same, the numbers of new rows apart. -/
theorem retries_leave_no_residue (parts : Parts) (server : ℕ) (j : Uuid) (tool : Tool)
    (delays : List ℕ) (attempt : ℕ) (request : LLMRequest) {w : World} {v : View World Op Res}
    {p : List Action} (hworkspace : treeOf parts.base .jobs j w.fs [] = some .dir)
    (hartifacts : treeOf parts.base .artifacts j w.fs [] = some .dir)
    (hrun : Amid (execWith parts.base tool) (undisturbed parts.base j) 0
      (LLMPlanRetryExecutor.generateActions parts (JobOrchestratorService.onAttempt j)
        (SecurityPolicyValidator.validateActions parts j)
        (JobOrchestratorService.executionCb parts server j) delays attempt request).run ⟨w, []⟩
      (.ok p) v) :
    (∃ v₀ v₁, (held parts.base j w).SameData (held parts.base j v₀.state) ∧
      Amid (execWith parts.base tool) (undisturbed parts.base j) 0
        (JobOrchestratorService.executionCb parts server j p).run v₀ (.ok ()) v₁ ∧
      held parts.base j v.state = held parts.base j v₁.state) ∧
    ∀ server' v₀ v₁, (held parts.base j w).SameData (held parts.base j v₀.state) →
      Amid (execWith parts.base tool) (undisturbed parts.base j) 0
        (JobOrchestratorService.executionCb parts server' j p).run v₀ (.ok ()) v₁ →
      (held parts.base j v.state).SameOutcome (held parts.base j v₁.state) := by
  have hstart : HasData parts.base j (held parts.base j w) ⟨w, []⟩ :=
    ⟨_, trivial, rfl, List.suffix_refl _⟩
  -- what an execution of the plan leaves
  have hexec : ∀ {server' v₀ v₁}, (held parts.base j w).SameData (held parts.base j v₀.state) →
      Amid (execWith parts.base tool) (undisturbed parts.base j) 0
        (JobOrchestratorService.executionCb parts server' j p).run v₀ (.ok ()) v₁ →
      Succeeded (Conforms tool) j parts p (held parts.base j v₀.state)
        (held parts.base j v₁.state) := by
    intro server' v₀ v₁ hsame halone
    have hW : (held parts.base j v₀.state).workspace [] = some .dir := by
      rw [hsame.workspace]
      exact hworkspace
    have hP : (held parts.base j v₀.state).promoted [] = some .dir := by
      rw [hsame.promoted]
      exact hartifacts
    have hpost := (executeAttempt_safe (S := (held parts.base j v₀.state).snapshots) hW hP
      (host_execWith _) p ⟨trivial, rfl, List.nil_suffix⟩).amid halone
    obtain ⟨H', hsucc, -, hheld, -⟩ := hpost.1 () rfl
    rw [hheld]
    exact hsucc
  obtain ⟨v₀, v₁, hv₀, halone, hheld⟩ :=
    generateActions_executes (t := 0) hworkspace hartifacts hstart hrun
  refine ⟨⟨v₀, v₁, hv₀.sameData, halone, hheld⟩, fun server' v₀' v₁' hsame halone' => ?_⟩
  have hboth : (held parts.base j v₀.state).SameData (held parts.base j v₀'.state) := by
    have h₀ := hv₀.sameData
    exact ⟨hsame.workspace.trans h₀.workspace.symm, hsame.promoted.trans h₀.promoted.symm,
      hsame.artifacts.trans h₀.artifacts.symm, hsame.plan.trans h₀.plan.symm⟩
  rw [hheld]
  exact Succeeded.unique hboth (hexec hv₀.sameData halone) (hexec hsame halone')

end Retries

namespace Sample

/-- A tool without output that rejects one input. -/
def pickyTool : Tool where
  code := fun args _ => if args = ["bad.scad"] then 1 else 0
  output := fun _ _ _ => none
  plain := fun _ _ _ h => absurd h (by simp)
  leaf := fun _ _ _ _ h => absurd h (by simp)

/-- The answer of the language model, and processes that do what the tool does. -/
def answering (text : String) : Env :=
  { calm with
    answer := .ok text
    behaviour := fun args _ => ⟨[], .exited (if args = ["bad.scad"] then 1 else 0), []⟩ }

theorem conforms_answering (text : String) : Conforms pickyTool (answering text) := by
  intro args staged code hend
  refine ⟨?_, .nil, fun p data => ?_⟩
  · exact (Ending.exited.inj hend).symm
  · simp [answering, pickyTool]

def answers (text : String) : {e // Conforms pickyTool e} :=
  ⟨answering text, conforms_answering text⟩

/-- A plan that leaves a file and then fails. -/
def badPlan : List Action := [.writeFile "junk.txt" "x", .runTool "openscad" ["bad.scad"]]

/-- The first answer is the bad plan, the others are the good one. -/
def fickle : Parts :=
  { parts plan with parse := fun text => if text = "first" then .ok badPlan else .ok plan }

/-- The retry loop for the sample job in a state of the platform. -/
def retryIn (m : State) : Option (Except Exn (List Action) × View World Op Res) :=
  runWith (execWith fickle.base pickyTool) 0
    (List.replicate 11 (answers "first") ++ List.replicate 9 (answers "second"))
    (LLMPlanRetryExecutor.generateActions fickle (JobOrchestratorService.onAttempt job)
      (SecurityPolicyValidator.validateActions fickle job)
      (JobOrchestratorService.executionCb fickle 0 job) [1000] 1 ⟨"make a part", [], [], none⟩).run
    ⟨m.view.state, []⟩

end Sample

set_option maxRecDepth 100000 in
theorem retries_leave_no_residue_sample :
    ∃ m v, (platform Sample.fickle).Reach (start Sample.fickle) m ∧
      Amid (execWith Sample.fickle.base Sample.pickyTool)
        (undisturbed Sample.fickle.base Sample.job) 0
        (LLMPlanRetryExecutor.generateActions Sample.fickle
          (JobOrchestratorService.onAttempt Sample.job)
          (SecurityPolicyValidator.validateActions Sample.fickle Sample.job)
          (JobOrchestratorService.executionCb Sample.fickle 0 Sample.job) [1000] 1
          ⟨"make a part", [], [], none⟩).run ⟨m.view.state, []⟩ (.ok Sample.plan) v ∧
      (∃ l ∈ v.history, rollsBack Sample.job l.op l.res = true) ∧
      ∃ v₀ v₁, (held Sample.fickle.base Sample.job m.view.state).SameData
          (held Sample.fickle.base Sample.job v₀.state) ∧
        Amid (execWith Sample.fickle.base Sample.pickyTool)
          (undisturbed Sample.fickle.base Sample.job) 0
          (JobOrchestratorService.executionCb Sample.fickle 0 Sample.job Sample.plan).run v₀
          (.ok ()) v₁ ∧
        held Sample.fickle.base Sample.job v.state =
          held Sample.fickle.base Sample.job v₁.state := by
  have hcheck : (((platform Sample.fickle).moves (Sample.running 3) (start Sample.fickle)).any
      fun m => (Sample.retryIn m).any fun r => r.1 = .ok Sample.plan ∧
        treeOf Sample.fickle.base .jobs Sample.job m.view.state.fs [] = some .dir ∧
        treeOf Sample.fickle.base .artifacts Sample.job m.view.state.fs [] = some .dir ∧
        r.2.history.any fun l => rollsBack Sample.job l.op l.res) = true := by
    decide +kernel
  obtain ⟨m, hm, hcheck⟩ := (Option.any_eq_true _ _).mp hcheck
  obtain ⟨⟨r, v⟩, hr, hcheck⟩ := (Option.any_eq_true _ _).mp hcheck
  obtain ⟨rfl, hjobs, harts, hback⟩ := of_decide_eq_true hcheck
  have hrun := amid_of_runWith (D := undisturbed Sample.fickle.base Sample.job)
    (fun _ => trivial) hr
  exact ⟨m, v, System.reach_of_moves hm, hrun, List.any_eq_true.mp hback,
    (retries_leave_no_residue _ _ _ _ _ _ _ hjobs harts hrun).1⟩

end CliExecutionPlatform
