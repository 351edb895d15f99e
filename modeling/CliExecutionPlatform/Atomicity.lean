/-
Attempts are atomic on disk, and in the database up to one gap.

An attempt acts on two stores: the trees of its job, which a snapshot puts back,
and the artifact rows, which one commit makes visible.  The commit comes before
`on_success`, so that an exception out of `on_success` finds the rows committed.

* `amid_rows` — the rows of a job grow with every commit;
* `executionCb_until` — the plan is saved after the commit only, and the commit
  has a row for every artifact of the plan;
* `attempt_atomic_iff` — an attempt that raised has changed neither the trees
  nor the rows, exactly if the plan creates no artifact or `on_success` did not
  fail;
* `attempt_leaves_rows` — an attempt that does leave rows behind.
-/
import CliExecutionPlatform.AttemptSpec
import CliExecutionPlatform.Lifecycle

open Files Process

namespace CliExecutionPlatform

open LocalStorage (treeOf)

section Rows

variable {base : Path} {j : Uuid} {t : ℕ}

/-- Creating a job adds no artifact rows. -/
theorem exec_insertJob_rows {e : Env} {prompt : String} {parent : Option Uuid}
    {r : Except Exn Uuid} {w w' : World}
    (h : exec base e (.db (.insertJob prompt parent)) w = some (r, w')) :
    w'.db.artifactsOf j = w.db.artifactsOf j := by
  rcases exec_db_cases h with ⟨db, hrun, rfl⟩ | ⟨-, rfl⟩
  · obtain ⟨-, -, rfl⟩ := DbOp.run_insertJob hrun
    rfl
  · rfl

/-- Only a commit changes the rows of a job, and it adds some. -/
theorem exec_rows {e : Env} {o : Op} {r : Res o} {w w' : World}
    (h : exec base e o w = some (r, w')) :
    w'.db.artifactsOf j = w.db.artifactsOf j ∧ commits j o r = false ∨
      commits j o r = true ∧ (w.db.artifactsOf j).length < (w'.db.artifactsOf j).length := by
  have hquiet : o.Quiet → commits j o r = false →
      w'.db.artifactsOf j = w.db.artifactsOf j ∧ commits j o r = false := fun hq hc =>
    ⟨congrArg Held.artifacts (exec_quiet hq h), hc⟩
  cases o with
  | sys o => exact .inl (hquiet trivial rfl)
  | fs o => exact .inl ⟨by rw [(exec_fs_held h).1], rfl⟩
  | db o =>
    cases o with
    | commitArtifacts k drafts =>
      by_cases hk : k = j
      · subst hk
        rcases exec_commitArtifacts h with ⟨rfl, hheld⟩ | ⟨⟨x, rfl, -⟩, hheld⟩
        · have hrows : w'.db.artifactsOf k =
            w.db.artifactsOf k ++ drafts.map (ArtifactDraft.row k) := congrArg Held.artifacts hheld
          rw [hrows, List.length_append, List.length_map]
          -- a commit of no drafts changes nothing
          rcases drafts with _ | ⟨d, rest⟩
          · exact .inl ⟨List.append_nil _, by simp [commits]⟩
          · refine .inr ⟨by simp [commits], ?_⟩
            rw [List.length_cons]
            omega
        · exact .inl ⟨congrArg Held.artifacts hheld, rfl⟩
      · have hcell := exec_frame (k := j) h fun haff => hk (Option.some.inj haff)
        refine .inl ⟨congrArg Cell.artifacts hcell, ?_⟩
        cases r with
        | ok u => exact decide_eq_false fun hcon => hk hcon.1
        | error x => rfl
    | saveActionPlan k actions =>
      by_cases hk : k = j
      · subst hk
        rcases exec_saveActionPlan h with ⟨rfl, hheld⟩ | ⟨⟨x, rfl, -⟩, hheld⟩
        · exact .inl ⟨congrArg Held.artifacts hheld, rfl⟩
        · exact .inl ⟨congrArg Held.artifacts hheld, rfl⟩
      · have hcell := exec_frame (k := j) h fun haff => hk (Option.some.inj haff)
        exact .inl ⟨congrArg Cell.artifacts hcell, rfl⟩
    | insertJob prompt parent => exact .inl ⟨exec_insertJob_rows h, rfl⟩
    | _ => exact .inl (hquiet trivial rfl)

/-- In a run, the rows of the job grow with every commit. -/
theorem amid_rows {α : Type} {p : Prog Op Res α} {v v' : View World Op Res} {a : α}
    (h : Amid (exec base) (undisturbed base j) t p v a v') :
    (v.state.db.artifactsOf j).length +
        v'.history.countP (fun l => commits j l.op l.res) ≤
      (v'.state.db.artifactsOf j).length + v.history.countP (fun l => commits j l.op l.res) := by
  have hrely : ∀ {u u' : View World Op Res}, (undisturbed base j).rely u u' →
      u'.state.db.artifactsOf j = u.state.db.artifactsOf j ∧ u'.history = u.history :=
    fun hu => ⟨congrArg Held.artifacts hu.1, hu.2⟩
  induction h with
  | ret a h _ =>
    obtain ⟨hrows, hhist⟩ := hrely h
    rw [hrows, hhist]
  | @call o k v v₁ v' a e r s h _ he _ ih =>
    obtain ⟨hrows, hhist⟩ := hrely h
    rw [View.push_state, View.push_history, List.countP_cons, hhist] at ih
    rw [← hrows]
    rcases @exec_rows base j e o r _ _ he with ⟨hsame, hc⟩ | ⟨hc, hlt⟩
    · rw [hsame, hc] at ih
      simpa using ih
    · rw [hc, if_pos rfl] at ih
      omega

end Rows

/-! ### The order of the last steps -/

section Order

variable {parts : Parts} {server : ℕ} {j : Uuid}

/-- One draft is made for every path. -/
theorem promote_returns (paths copied : List String) (drafts : List ArtifactDraft) :
    Returns (fun r => ∀ all, r.2 = .ok all → all.length = drafts.length + paths.length)
      (ActionExecutor.promote parts j paths copied drafts) := by
  induction paths generalizing copied drafts with
  | nil =>
    intro all hall
    rw [← Except.ok.inj hall]
    rfl
  | cons path rest ih =>
    -- A promotion that raises returns no drafts.
    have herror : ∀ (left : ActionExecutor.Unfinished) (x : Exn) (all : List ArtifactDraft),
        (left, (.error x : Except Exn (List ArtifactDraft))).2 = .ok all →
          all.length = drafts.length + (path :: rest).length :=
      fun _ _ _ hall => absurd hall (by simp)
    refine returns_bind (returns_true _) fun r _ => ?_
    cases r with
    | error x => exact herror _ x
    | ok u =>
      refine returns_bind (returns_true _) fun r _ => ?_
      cases r with
      | error x => exact herror _ x
      | ok draft =>
        have hlen : (drafts ++ [draft]).length + rest.length =
            drafts.length + (path :: rest).length := by
          simp only [List.length_append, List.length_cons, List.length_nil]
          omega
        rw [← hlen]
        exact ih _ _

/-- Before the commit, nothing is committed and no plan is saved. -/
theorem marks_of_ofAttempt {o : Op} (ho : OfAttempt j o) (r : Res o) :
    commits j o r = false ∧ losesPlan j o r = false := by
  cases o with
  | db o =>
    cases o with
    | commitArtifacts k drafts => exact absurd ho id
    | saveActionPlan k actions => exact absurd ho id
    | _ => exact ⟨rfl, rfl⟩
  | fs o => exact ⟨rfl, rfl⟩
  | sys o => exact ⟨rfl, rfl⟩

/-- The commit has a draft for every artifact of the plan, and the plan is
saved after it only. -/
theorem executionCb_until {S : Op → Prop} {U : (o : Op) → Res o → Prop} (actions : List Action)
    (hother : ∀ o, OfAttempt j o → S o)
    (hcommit : ∀ drafts : List ArtifactDraft,
      drafts.length = (ActionExecutor.artifactPaths actions).length →
      S (.db (.commitArtifacts j drafts)) ∧
        (U (.db (.commitArtifacts j drafts)) (.ok ()) ∨ S (.db (.saveActionPlan j actions)))) :
    Until S U (JobOrchestratorService.executionCb parts server j actions).run := by
  have other : ∀ {α : Type} {p : Prog Op Res α}, Calls (OfAttempt j) p → Until S U p :=
    fun hp => until_of_calls (calls_mono hother hp)
  refine until_bindE (other (calls_op (o := .fs (.beginAttempt j)) rfl)) fun token => ?_
  refine until_bind ?_ fun r => other (calls_of_within (conclude_calls token r))
  refine until_bind (other (calls_of_within (executeActions_calls actions))) fun r => ?_
  cases r with
  | error x => trivial
  | ok u =>
    refine until_bind_of_returns (other (calls_of_within (promote_calls _ _ _)))
      (promote_returns _ _ _) ?_
    -- One draft for each path: the commit is that of the whole list.
    rintro ⟨left, r⟩ hr
    cases r with
    | error x => trivial
    | ok drafts =>
      obtain ⟨hop, hnext⟩ := hcommit drafts (by rw [hr drafts rfl]; simp)
      refine until_bind ⟨hop, fun r => ?_⟩ fun _ => trivial
      cases r with
      | error x => exact .inr trivial
      | ok u => exact hnext.imp_right fun hsave => ⟨hsave, fun r => .inr trivial⟩

end Order

/-! ### Atomicity -/

section Atomicity

variable (parts : Parts) (server : ℕ) (j : Uuid) (actions : List Action)

/-- The trees of job `j` and its artifact rows are the same in both worlds. -/
def Unchanged (base : Path) (j : Uuid) (w w' : World) : Prop :=
  treeOf base .jobs j w'.fs = treeOf base .jobs j w.fs ∧
    treeOf base .artifacts j w'.fs = treeOf base .artifacts j w.fs ∧
    w'.db.artifactsOf j = w.db.artifactsOf j

/-- **Atomicity of attempts.**  Let `execute_attempt` raise an exception other
than a cancellation, anywhere in the plan or after it, while neither the session
fails in rolling back nor the storage in putting the snapshot back or in removing
it.  Then the workspace, the artifacts directory and the committed rows are as
they were before, exactly if the plan creates no artifact or it was not
`on_success` that failed: the rows are committed before the plan is saved. -/
theorem attempt_atomic_iff {w : World} {v : View World Op Res} {x : Exn}
    (hworkspace : treeOf parts.base .jobs j w.fs [] = some .dir)
    (hartifacts : treeOf parts.base .artifacts j w.fs [] = some .dir)
    (hrun : Amid (exec parts.base) (undisturbed parts.base j) 0
      (JobOrchestratorService.executionCb parts server j actions).run ⟨w, []⟩ (.error x) v)
    (hx : x.isException = true) (hstorage : ¬ Stranded j v.history) :
    Unchanged parts.base j w v.state ↔
      (ActionExecutor.artifactPaths actions = [] ∨
        ∀ l ∈ v.history, losesPlan j l.op l.res = false) := by
  have hhost : Host parts.base (fun _ => True) (exec parts.base) (undisturbed parts.base j) 0 j
      (fun _ => True) (held parts.base j w) :=
    Host.undisturbed (fun e _ _ _ _ h => ⟨e, trivial, h⟩) _
  have hstart : Holding parts.base j (fun _ => True)
      { held parts.base j w with snapshots := (held parts.base j w).snapshots } [] ⟨w, []⟩ :=
    ⟨trivial, rfl, List.suffix_refl _⟩
  have hpost := (executeAttempt_safe hworkspace hartifacts hhost actions hstart).amid hrun
  have hhist : ∀ v v', (undisturbed parts.base j).rely v v' → v'.history = v.history :=
    fun _ _ hrely => hrely.2
  constructor
  · rintro ⟨-, -, hrows⟩
    by_cases hpaths : ActionExecutor.artifactPaths actions = []
    · exact .inl hpaths
    · -- without a commit before it, the plan is not even tried to be saved
      have horder := hrun.until (C := fun o => ∀ r, losesPlan j o r = false)
        (U := fun o r => commits j o r = true) hhist
        (executionCb_until actions ?_ fun drafts hlen => ⟨fun _ => rfl, .inl ?_⟩)
        (fun l hl => absurd hl List.not_mem_nil)
      · rcases horder with ⟨l, hl, hcommit⟩ | hnone
        · have hcount := amid_rows hrun
          have hpos : 0 < v.history.countP (fun l => commits j l.op l.res) :=
            List.countP_pos_iff.mpr ⟨l, hl, hcommit⟩
          simp only [hrows, List.countP_nil] at hcount
          omega
        · exact .inr fun l hl => hnone l hl l.res
      · intro o ho r
        exact (marks_of_ofAttempt ho r).2
      · refine decide_eq_true ⟨rfl, fun hnil => hpaths ?_⟩
        rw [hnil] at hlen
        exact List.eq_nil_of_length_eq_zero hlen.symm
  · intro hcond
    rcases (hpost.2 x rfl).2 hx with ⟨S, -, hheld, -⟩ | ⟨-, ⟨-, hlate⟩ | hstranded⟩
    · exact ⟨congrArg Held.workspace hheld, congrArg Held.promoted hheld,
        congrArg Held.artifacts hheld⟩
    · obtain ⟨l, post, hsuffix, hlose, c, hc, hcommit⟩ := hlate
      rcases hcond with hpaths | hkept
      · -- a plan without artifacts commits no rows
        have horder := hrun.until (C := fun o => ∀ r, commits j o r = false)
          (U := fun _ _ => False) hhist
          (executionCb_until actions ?_ fun drafts hlen => ⟨?_, .inr fun _ => rfl⟩)
          (fun l hl => absurd hl List.not_mem_nil)
        · rcases horder with ⟨l, -, hfalse⟩ | hnone
          · exact absurd hfalse id
          · have := hnone c (hsuffix.subset (List.mem_cons_of_mem _ hc)) c.res
            rw [hcommit] at this
            exact absurd this (by simp)
        · intro o ho r
          exact (marks_of_ofAttempt ho r).1
        · rw [hpaths] at hlen
          rintro (x | u)
          · rfl
          · exact decide_eq_false fun hcon => hcon.2 (List.eq_nil_of_length_eq_zero hlen)
      · have := hkept l (hsuffix.subset List.mem_cons_self)
        rw [hlose] at this
        exact absurd this (by simp)
    · exact absurd hstranded hstorage

end Atomicity

namespace Sample

/-- The attempt of the sample plan in a state of the platform, under these
environments. -/
def attemptIn (es : List Env) (m : State) : Option (Except Exn Unit × View World Op Res) :=
  runWith (exec (parts plan).base) 0 es
    (JobOrchestratorService.executionCb (parts plan) 0 job plan).run ⟨m.view.state, []⟩

/-- The running job whose plan has just been accepted. -/
def accepted : Option State := (platform (parts plan)).moves (running 5) (start (parts plan))

/-- What an evaluated attempt that was refused says about runs. -/
theorem refused_attempt (es : List Env) (good : World → View World Op Res → Bool)
    (h : (accepted.any fun m => (attemptIn es m).any fun r => r.1 = .error refusal ∧
      treeOf (parts plan).base .jobs job m.view.state.fs [] = some .dir ∧
      treeOf (parts plan).base .artifacts job m.view.state.fs [] = some .dir ∧
      ¬ (r.2.history.any fun l => strands job l.op l.res) ∧ good m.view.state r.2) = true) :
    ∃ m v, (platform (parts plan)).Reach (start (parts plan)) m ∧
      Amid (exec (parts plan).base) (undisturbed (parts plan).base job) 0
        (JobOrchestratorService.executionCb (parts plan) 0 job plan).run ⟨m.view.state, []⟩
        (.error refusal) v ∧
      treeOf (parts plan).base .jobs job m.view.state.fs [] = some .dir ∧
      treeOf (parts plan).base .artifacts job m.view.state.fs [] = some .dir ∧
      ¬ Stranded job v.history ∧ good m.view.state v = true := by
  obtain ⟨m, hm, h⟩ := (Option.any_eq_true _ _).mp h
  obtain ⟨⟨r, v⟩, hr, h⟩ := (Option.any_eq_true _ _).mp h
  obtain ⟨rfl, hjobs, harts, hstranded, hgood⟩ := of_decide_eq_true h
  refine ⟨m, v, System.reach_of_moves hm, amid_of_runWith (fun _ => trivial) hr, hjobs, harts,
    fun hs => hstranded ?_, hgood⟩
  obtain ⟨l, hl, hl'⟩ := hs
  exact List.any_eq_true.mpr ⟨l, hl, hl'⟩

end Sample

set_option maxRecDepth 100000 in
/-- A row that cannot be flushed: the attempt leaves nothing. -/
theorem attempt_atomic_iff_refused_flush :
    ∃ m v, (platform (Sample.parts Sample.plan)).Reach (start (Sample.parts Sample.plan)) m ∧
      Amid (exec (Sample.parts Sample.plan).base)
        (undisturbed (Sample.parts Sample.plan).base Sample.job) 0
        (JobOrchestratorService.executionCb (Sample.parts Sample.plan) 0 Sample.job
          Sample.plan).run ⟨m.view.state, []⟩ (.error Sample.refusal) v ∧
      Unchanged (Sample.parts Sample.plan).base Sample.job m.view.state v.state := by
  obtain ⟨m, v, hreach, hrun, hjobs, harts, hstorage, hnone⟩ := Sample.refused_attempt
    (List.replicate 3 Sample.calm ++ Sample.refused :: List.replicate 2 Sample.calm)
    (fun _ v => v.history.all fun l => !losesPlan Sample.job l.op l.res)
    (by decide +kernel)
  refine ⟨m, v, hreach, hrun,
    (attempt_atomic_iff _ _ _ _ hjobs harts hrun rfl hstorage).mpr (.inr fun l hl => ?_)⟩
  simpa using List.all_eq_true.mp hnone l hl

set_option maxRecDepth 100000 in
/-- A plan that cannot be saved: the rows are committed, and stay. -/
theorem attempt_leaves_rows :
    ∃ m v, (platform (Sample.parts Sample.plan)).Reach (start (Sample.parts Sample.plan)) m ∧
      State.status Sample.job m = some .running ∧
      Amid (exec (Sample.parts Sample.plan).base)
        (undisturbed (Sample.parts Sample.plan).base Sample.job) 0
        (JobOrchestratorService.executionCb (Sample.parts Sample.plan) 0 Sample.job
          Sample.plan).run ⟨m.view.state, []⟩ (.error Sample.refusal) v ∧
      ¬ Stranded Sample.job v.history ∧
      ¬ Unchanged (Sample.parts Sample.plan).base Sample.job m.view.state v.state := by
  obtain ⟨m, v, hreach, hrun, -, -, hstorage, hgood⟩ := Sample.refused_attempt
    (List.replicate 5 Sample.calm ++ Sample.refused :: List.replicate 2 Sample.calm)
    (fun w v => w.db.status Sample.job = some .running ∧
      w.db.artifactsOf Sample.job = [] ∧ v.state.db.artifactsOf Sample.job ≠ []) (by decide +kernel)
  obtain ⟨hstatus, hbefore, hafter⟩ := of_decide_eq_true hgood
  refine ⟨m, v, hreach, hstatus, hrun, hstorage, fun hsame => hafter ?_⟩
  rw [hsame.2.2, hbefore]

end CliExecutionPlatform
