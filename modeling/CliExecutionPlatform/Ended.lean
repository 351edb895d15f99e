/-
What happens to a job after it has ended.

* `Performs` — one step of the platform, with the operation it performs;
* `completed_job_frozen` — a `COMPLETED` job is not changed any more, so that
  the files a refinement copies are those that were checked when the refinement
  was requested;
* `ended_job_silent` — a job that has ended logs nothing, in every run without a
  step that `Unsettles` it; `ended_job_logs` is a run with such a step.
-/
import CliExecutionPlatform.Outcomes

open Files Process

namespace CliExecutionPlatform

open LocalStorage (root treeOf validateSafePath)
open JobOrchestratorService (inheritedFiles)

section Ended

variable {parts : Parts} {j : Uuid} {m m' : State}

/-- One step of the platform, in which thread `t` performs `o` with result
`r`. -/
def Performs (parts : Parts) (t : ℕ) (o : Op) (r : Res o) (m m' : State) : Prop :=
  (platform parts).Step m m' ∧ m'.view.history = ⟨t, o, r⟩ :: m.view.history

theorem Performs.exec {t : ℕ} {o : Op} {r : Res o} (h : Performs parts t o r m m') :
    ∃ e, exec parts.base e o m.view.state = some (r, m'.view.state) := by
  obtain ⟨hstep, hlabel⟩ := h
  cases hstep with
  | invoke c _ => exact absurd hlabel.symm (List.cons_ne_self _ _)
  | perform t' c o' k e r' s ht he =>
    have hhead := (List.cons.inj hlabel).1
    cases hhead
    exact ⟨e, he⟩

/-- The last operation of a history that has grown is the one of the step. -/
theorem performs_of_step {l : Label Op Res} (h : (platform parts).Step m m')
    (hlast : m'.view.history.head? = some l)
    (hlen : m.view.history.length < m'.view.history.length) :
    Performs parts l.tid l.op l.res m m' := by
  refine ⟨h, ?_⟩
  cases h with
  | invoke c _ => exact absurd hlen (Nat.lt_irrefl _)
  | perform t c o k e r s ht he =>
    obtain rfl : (⟨t, o, r⟩ : Label Op Res) = l := Option.some.inj hlast
    rfl

/-! ### Completed jobs -/

/-- One step leaves a completed job alone. -/
theorem completed_step (hm : (platform parts).Reach (start parts) m)
    (h : (platform parts).Step m m') (hdone : IsCompleted j m.view.state) :
    IsCompleted j m'.view.state ∧
      held parts.base j m'.view.state = held parts.base j m.view.state := by
  rcases guar_of_step (j := j) hm h with hview | ⟨l, -, hG⟩
  · rw [hview]
    exact ⟨hdone, rfl⟩
  · exact hG.completed hdone

theorem completed_reach (hm : (platform parts).Reach (start parts) m)
    (h : (platform parts).Reach m m') (hdone : IsCompleted j m.view.state) :
    IsCompleted j m'.view.state ∧
      held parts.base j m'.view.state = held parts.base j m.view.state := by
  induction h with
  | refl => exact ⟨hdone, rfl⟩
  | tail hreach hstep ih =>
    obtain ⟨hdone', hheld⟩ := completed_step (hm.trans hreach) hstep ih.1
    exact ⟨hdone', hheld.trans ih.2⟩

/-- Files of a job are checked or copied for another one only when it is
completed, and copied only if they fit. -/
theorem inspected_of_performs {t : ℕ} {o : Op} {r : Res o}
    (hm : (platform parts).Reach (start parts) m) (h : Performs parts t o r m m')
    (hin : o.inspects j = true) :
    IsCompleted j m.view.state ∧ ∀ k f, o = .fs (.copyWorkspaceFile j k f) →
      ContextFits (held parts.base j m.view.state).workspace := by
  rcases guar_of_step (j := j) hm h.1 with hview | ⟨l, -, hG⟩
  · have hlabel := h.2
    rw [hview] at hlabel
    exact absurd hlabel.symm (List.cons_ne_self _ _)
  · exact hG.inspected _ h.2 hin

/-- The two checks of a file of job `j` before it is refined. -/
def checks (j : Uuid) (f : String) : Op → Bool
  | .fs (.workspaceFileExists k g) | .fs (.workspaceFileSize k g) => k = j ∧ g = f
  | _ => false

theorem inspects_of_checks {f : String} {o : Op} (h : checks j f o = true) :
    o.inspects j = true := by
  unfold checks at h
  split at h
  · exact decide_eq_true (of_decide_eq_true h).1
  · exact decide_eq_true (of_decide_eq_true h).1
  · exact absurd h (by simp)

/-- **A completed job is frozen.**  Its status and everything it holds stay as
they are; and when a child copies a file of it, the bytes are those that were
there at any earlier check of the file, all files that are inherited were there
then, and together they do not exceed the limit. -/
theorem completed_job_frozen (parts : Parts) (j : Uuid) {m : State}
    (hm : (platform parts).Reach (start parts) m) :
    (∀ m' : State, m.status j = some .completed → (platform parts).Reach m m' →
      m'.status j = some .completed ∧
        held parts.base j m'.view.state = held parts.base j m.view.state) ∧
    ∀ {m₁ m₂ m₃ : State} {t u : ℕ} {check : Op} {r : Res check} {k : Uuid} {f : String},
      f ∈ inheritedFiles → checks j f check = true → Performs parts t check r m m₁ →
      (platform parts).Reach m₁ m₂ →
      Performs parts u (.fs (.copyWorkspaceFile j k f)) (.ok ()) m₂ m₃ →
      ContextFits (treeOf parts.base .jobs j m.view.state.fs) ∧
        ∃ data, treeOf parts.base .jobs j m.view.state.fs [f] = some (.file data) ∧
          treeOf parts.base .jobs k m₃.view.state.fs [f] = some (.file data) := by
  refine ⟨fun m' hdone h => completed_reach hm h hdone, ?_⟩
  intro m₁ m₂ m₃ t u check r k f hf hcheck hfirst hreach hcopy
  -- A check of the context is made on a completed parent only.
  have hdone := (inspected_of_performs hm hfirst (inspects_of_checks hcheck)).1
  have hmid : (platform parts).Reach m m₂ := (Relation.ReflTransGen.single hfirst.1).trans hreach
  obtain ⟨-, hheld⟩ := completed_reach hm hmid hdone
  have hfits :=
    (inspected_of_performs (j := j) (hm.trans hmid) hcopy (decide_eq_true rfl)).2 k f rfl
  rw [hheld] at hfits
  refine ⟨hfits, ?_⟩
  obtain ⟨e, hexec⟩ := hcopy.exec
  obtain ⟨q, q', data, hq, hq', hdata, hcopied⟩ := exec_copyWorkspaceFile hexec
  rw [validateSafePath_inherited hf] at hq hq'
  obtain rfl : [f] = q := List.append_cancel_left (Except.ok.inj hq)
  obtain rfl : [f] = q' := List.append_cancel_left (Except.ok.inj hq')
  rw [hheld] at hdata
  refine ⟨data, hdata, ?_⟩
  show (held parts.base k m₃.view.state).workspace [f] = _
  rw [hcopied]
  show ((held parts.base k m₂.view.state).workspace.writeAt [f] data) [f] = _
  rw [Tree.writeAt_apply, if_pos rfl]

end Ended

namespace Sample

/-- The refinement of the sample job. -/
def child : Uuid := ⟨2⟩

/-- Every new identifier is `child`. -/
def calmChild : Env := { calm with fresh := child }

/-- A plan that leaves the files that a refinement inherits. -/
def design : List Action :=
  [.writeFile "model.scad" "cube(1);", .writeFile "design-spec.md" "one part"]

/-- The job has completed; a refinement is requested, up to its first check. -/
def beforeCheck : List (System.Move Env Call) :=
  running 14 ++ [.invoke (.refine job "thinner"), .perform 2 calmChild]

/-- From that check on, the request is accepted and the child runs, up to its
first copy. -/
def beforeCopy : List (System.Move Env Call) :=
  List.replicate 9 (.perform 2 calmChild) ++ .invoke (.run 0 child) ::
    List.replicate 3 (.perform 3 calmChild)

/-- The operation has copied `model.scad` to the child. -/
def copies : Mark
  | .fs (.copyWorkspaceFile source target rel), .ok _ =>
    source = job ∧ target = child ∧ rel = "model.scad"
  | _, _ => false

theorem Performs.copies {deployment : Parts} {t : ℕ} {o : Op} {r : Res o} {m m' : State}
    (h : Performs deployment t o r m m') (hcopy : copies o r = true) :
    Performs deployment t (.fs (.copyWorkspaceFile job child "model.scad")) (.ok ()) m m' := by
  cases o with
  | fs o =>
    cases o with
    | copyWorkspaceFile source target rel =>
      cases r with
      | ok u =>
        obtain ⟨rfl, rfl, rfl⟩ := of_decide_eq_true hcopy
        exact h
      | error x => exact absurd hcopy Bool.false_ne_true
    | _ => exact absurd hcopy Bool.false_ne_true
  | db o => exact absurd hcopy Bool.false_ne_true
  | sys o => exact absurd hcopy Bool.false_ne_true

end Sample

set_option maxRecDepth 100000 in
/-- A refinement of the sample job inherits what was checked. -/
theorem completed_job_frozen_sample :
    ∃ m m₃ : State, (platform (Sample.parts Sample.design)).Reach
        (start (Sample.parts Sample.design)) m ∧
      (platform (Sample.parts Sample.design)).Reach m m₃ ∧
      State.status Sample.job m = some .completed ∧
      held (Sample.parts Sample.design).base Sample.job m₃.view.state =
        held (Sample.parts Sample.design).base Sample.job m.view.state ∧
      ∃ data, treeOf (Sample.parts Sample.design).base .jobs Sample.job m.view.state.fs
          ["model.scad"] = some (.file data) ∧
        treeOf (Sample.parts Sample.design).base .jobs Sample.child m₃.view.state.fs
          ["model.scad"] = some (.file data) := by
  have hgood : (((platform (Sample.parts Sample.design)).moves Sample.beforeCheck
      (start (Sample.parts Sample.design))).any fun m =>
      ((platform (Sample.parts Sample.design)).move (.perform 2 Sample.calmChild) m).any fun m₁ =>
      ((platform (Sample.parts Sample.design)).moves Sample.beforeCopy m₁).any fun m₂ =>
      ((platform (Sample.parts Sample.design)).move (.perform 3 Sample.calmChild) m₂).any fun m₃ =>
        State.status Sample.job m = some .completed ∧
        m.view.history.length < m₁.view.history.length ∧
        m₂.view.history.length < m₃.view.history.length ∧
        (m₁.view.history.head?.any fun l => checks Sample.job "model.scad" l.op) ∧
        (m₃.view.history.head?.any fun l => Sample.copies l.op l.res)) = true := by
    decide +kernel
  obtain ⟨m, hm, hgood⟩ := (Option.any_eq_true _ _).mp hgood
  obtain ⟨m₁, hm₁, hgood⟩ := (Option.any_eq_true _ _).mp hgood
  obtain ⟨m₂, hm₂, hgood⟩ := (Option.any_eq_true _ _).mp hgood
  obtain ⟨m₃, hm₃, hgood⟩ := (Option.any_eq_true _ _).mp hgood
  obtain ⟨hdone, hlen₁, hlen₃, hcheck, hcopy⟩ := of_decide_eq_true hgood
  -- The labels of the two steps are read off the histories.
  obtain ⟨l, hl, hcheck⟩ := (Option.any_eq_true _ _).mp hcheck
  obtain ⟨l', hl', hcopy⟩ := (Option.any_eq_true _ _).mp hcopy
  have hstart := System.reach_of_moves hm
  have hmid := System.reach_of_moves hm₂
  have hfirst := performs_of_step (System.step_of_move hm₁) hl hlen₁
  have hlast := performs_of_step (System.step_of_move hm₃) hl' hlen₃
  have hend : (platform (Sample.parts Sample.design)).Reach m m₃ :=
    ((Relation.ReflTransGen.single hfirst.1).trans hmid).tail hlast.1
  exact ⟨m, m₃, hstart, hend, hdone,
    ((completed_job_frozen _ Sample.job hstart).1 m₃ hdone hend).2,
    ((completed_job_frozen _ Sample.job hstart).2 (by decide) hcheck hfirst hmid
      (Sample.Performs.copies hlast hcopy)).2⟩

/-! ### The log of a job that has ended -/

section Log

variable {parts : Parts} {m m' : State}

theorem history_of_reach (h : (platform parts).Reach m m') :
    m.view.history <:+ m'.view.history := by
  induction h with
  | refl => exact List.suffix_refl _
  | tail _ hstep ih =>
    cases hstep with
    | invoke c _ => exact ih
    | perform t c o k e r s ht he => exact ih.trans (List.suffix_cons _ _)

/-- **The terminal event is the last one**, unless a step has unsettled the
job. -/
theorem ended_job_silent (parts : Parts) (j : Uuid) {m m' : State} {s : Status}
    (hm : (platform parts).Reach (start parts) m) (hended : m.status j = some s)
    (hterm : s.terminal) (hreach : (platform parts).Reach m m')
    (hsettled : ¬ Ever (Unsettles j) m'.view.history) :
    m'.view.state.db.eventsOf j = m.view.state.db.eventsOf j := by
  induction hreach with
  | refl => rfl
  | @tail m₁ m₂ hmid hstep ih =>
    have hsettled₁ : ¬ Ever (Unsettles j) m₁.view.history := fun h =>
      hsettled (h.mono (history_of_reach (.single hstep)))
    rw [← ih hsettled₁]
    rcases guar_of_step (j := j) (hm.trans hmid) hstep with hview | ⟨l, -, hG⟩
    · rw [hview]
    · -- the status is terminal here as well, so the step has logged nothing
      have hended₁ : m₁.status j = some s := terminal_final hterm hm hmid hended
      exact (hG.silent s hended₁ hterm).resolve_right hsettled

end Log

namespace Sample

/-- The tool writes a line to each of its streams. -/
def chatty : Env :=
  { calm with
    behaviour := fun _ _ =>
      ⟨[(.stdout, utf8 "ok\n"), (.stderr, utf8 "ok\n")], .exited 0, []⟩ }

def toolPlan : List Action := [.runTool "openscad" ["a.scad"]]

/-- The tool has been launched and its first line cannot be logged; the attempt
is rolled back and the job fails. -/
def lineRefused : List (System.Move Env Call) :=
  created ++ .invoke (.run 0 job) :: List.replicate 9 (.perform 1 chatty) ++
    .perform 1 refused :: List.replicate 4 (.perform 1 chatty)

/-- The drain of the other stream, which nobody has cancelled. -/
def leftBehind : Orphan := ⟨job, [], [utf8 "ok\n", []]⟩

/-- It logs its line. -/
def lateLine : List (System.Move Env Call) :=
  [.invoke (.orphan leftBehind), .perform 2 calm, .perform 2 calm]

end Sample

set_option maxRecDepth 100000 in
theorem ended_job_silent_sample :
    ∃ m m' : State, (platform (Sample.parts Sample.plan)).Reach
        (start (Sample.parts Sample.plan)) m ∧
      (platform (Sample.parts Sample.plan)).Reach m m' ∧
      State.status Sample.job m = some .completed ∧ m.view.history ≠ m'.view.history ∧
      m'.view.state.db.eventsOf Sample.job = m.view.state.db.eventsOf Sample.job := by
  obtain ⟨m, m', hm, hm', hgood⟩ := Sample.reached_then (Sample.parts Sample.plan)
    (Sample.running 14) ([.perform 1 Sample.calm])
    (fun m m' => State.status Sample.job m = some .completed ∧
      m.view.history.length ≠ m'.view.history.length ∧
      ¬ Ever (Unsettles Sample.job) m'.view.history) (by decide +kernel)
  obtain ⟨hdone, hlen, hsettled⟩ := of_decide_eq_true hgood
  exact ⟨m, m', hm, hm', hdone, fun h => hlen (congrArg List.length h),
    ended_job_silent _ _ hm hdone rfl hm' hsettled⟩

set_option maxRecDepth 100000 in
/-- A line that cannot be logged makes the job fail while the drain of the other
stream goes on: it logs a line after the terminal event. -/
theorem ended_job_logs :
    ∃ m m' : State, (platform (Sample.parts Sample.toolPlan)).Reach
        (start (Sample.parts Sample.toolPlan)) m ∧
      (platform (Sample.parts Sample.toolPlan)).Reach m m' ∧
      State.status Sample.job m = some .failed ∧
      (m'.view.state.db.eventsOf Sample.job).length =
        (m.view.state.db.eventsOf Sample.job).length + 1 := by
  obtain ⟨m, m', hm, hm', hgood⟩ := Sample.reached_then
    (Sample.parts Sample.toolPlan) Sample.lineRefused
    Sample.lateLine
    (fun m m' => State.status Sample.job m = some .failed ∧
      (m'.view.state.db.eventsOf Sample.job).length =
        (m.view.state.db.eventsOf Sample.job).length + 1) (by decide +kernel)
  obtain ⟨hfailed, hmore⟩ := of_decide_eq_true hgood
  exact ⟨m, m', hm, hm', hfailed, hmore⟩

end CliExecutionPlatform
