/-
The storage contract: the trees of a job are its own, and a rolled-back attempt
leaves no trace in them.

A job has three directories.  Whatever path, content or token a storage method is
called with, and whether it returns or raises, it changes nothing outside the
three directories of its job.  Between `begin_attempt` and the end of the attempt
the snapshot is out of reach of the other methods, and the roots of the workspace
and of the artifacts stay directories; hence the rollback does not fail, and it
puts back exactly what was there.

* **`storage_isolated`** — one call, any outcome;
* `restore_returns`, `rollbackAttempt_returns` — the rollback goes through;
* **`snapshot_exact`** — rollback after any sequence of calls restores both
  trees, completion keeps them, and the snapshot is gone in both cases.
-/
import CliExecutionPlatform.Holdings
import CliExecutionPlatform.Lifecycle

open Files Process

namespace CliExecutionPlatform

open LocalStorage (root treeOf)

/-! ### Isolation -/

/-- The three directories of a job. -/
def jobRoots (base : Path) (j : Uuid) : List Path :=
  [root base .jobs j, root base .artifacts j, root base .snapshots j]

theorem root_mem_jobRoots (base : Path) (area : Area) (j : Uuid) :
    root base area j ∈ jobRoots base j := by
  cases area <;> simp [jobRoots]

theorem FsOp.roots_subset {base : Path} {o : FsOp} {a : Uuid} (h : o.affects = some a) :
    o.roots base ⊆ jobRoots base a := by
  intro r hr
  obtain ⟨⟨area, k⟩, hw, rfl⟩ := List.mem_map.mp hr
  -- a tree of another job is not written
  have hka : k = a := by
    by_contra hne
    refine FsOp.not_mem_writes (k := k) ?_ area hw
    rw [h]
    simpa using Ne.symm hne
  rw [hka]
  exact root_mem_jobRoots base area a

/-- **Isolation of jobs.**  A storage method that is called for the job `a`
(`o.affects = some a`), with any path, content or token, leaves everything outside
the three directories of `a` as it was, up to directories on the way to these
three; the trees of all other jobs are untouched.  This holds for every outcome:
a result, a refused path, an obstacle on the disk, or a failure of the operating
system halfway. -/
theorem storage_isolated (base : Path) (e : Env) (a : Uuid) (o : FsOp) (ho : o.affects = some a)
    {fs fs' : FileTree} {r : Except Exn o.Val} (h : o.run base e fs = some (r, fs')) :
    (∀ q, (∀ root ∈ jobRoots base a, ¬ root <+: q) →
      fs'.node q = fs.node q ∨
        (fs.node q = none ∧ fs'.node q = some .dir ∧ ∃ root ∈ jobRoots base a, q <+: root)) ∧
      ∀ b, b ≠ a → ∀ area, treeOf base area b fs' = treeOf base area b fs := by
  constructor
  · exact (FsOp.run_outside h).mono (FsOp.roots_subset ho)
  · intro b hb area
    refine FsOp.run_frame h (FsOp.not_mem_writes ?_ area)
    rw [ho]
    simpa using Ne.symm hb

/-- A file written for a path with superfluous separators, into a directory that
does not exist yet. -/
def Sample.odd : FsOp := .writeFile job "a//./b.txt" (.bytes [104, 105])

set_option maxRecDepth 100000 in
theorem storage_isolated_sample :
    ∃ fs', Sample.odd.run ["srv"] Sample.calm (FileTree.ofBase ["srv"]) = some (.ok (), fs') ∧
      treeOf ["srv"] .jobs Sample.job fs' ["a", "b.txt"] = some (.file [104, 105]) ∧
      ∀ b, b ≠ Sample.job → ∀ area,
        treeOf ["srv"] area b fs' = treeOf ["srv"] area b (FileTree.ofBase ["srv"]) := by
  have hrun : Sample.odd.run ["srv"] Sample.calm (FileTree.ofBase ["srv"]) =
      some (.ok (), (Sample.odd.program ["srv"] Traversal.id 0 Sample.job
        (FileTree.ofBase ["srv"])).2) := by
    rfl
  exact ⟨_, hrun, by decide +kernel, (storage_isolated ["srv"] Sample.calm Sample.job
    Sample.odd rfl hrun).2⟩

/-! ### The end of an attempt -/

section Returns

variable {base : Path} {j : Uuid} {token : String} {fs : FileTree}

theorem restore_returns (tr : Traversal) {src dst : Path} (hdir : fs.node dst = some .dir)
    (hne : dst ≠ []) (hdis : Apart dst src) :
    ∃ fs', LocalStorage.restore tr src dst fs = (.ok (), fs') := by
  have hrm : LocalStorage.rmtree dst fs = (.ok (), fs.remove dst) := by
    rw [LocalStorage.rmtree, Disk.rmtree, hdir]
  have hfresh : (fs.remove dst).node dst = none :=
    if_pos ⟨List.prefix_refl dst, hne⟩
  -- what is above the removed directory is still there
  have hfree : (fs.remove dst).node.blocked dst = false := by
    refine FileTree.not_blocked fun q hq => ?_
    by_cases heq : q = dst
    · rw [heq]
      exact .inl hfresh
    · have hkept : (fs.remove dst).node q = fs.node q := by
        refine if_neg fun h => heq ?_
        exact List.IsPrefix.eq_of_length hq (le_antisymm hq.length_le h.1.length_le)
      rw [hkept]
      exact .inr (fs.dir_of_prefix (by rw [hdir]; simp) hq heq)
  obtain ⟨fs', hcopy, -⟩ := FileTree.copyTree_spec tr hdis hfree hfresh
  refine ⟨fs', ?_⟩
  rw [LocalStorage.restore, Disk.bind_apply, hrm]
  show Disk.copyTree _ tr src dst (fs.remove dst) = _
  rw [Disk.copyTree, hcopy]

theorem completeAttempt_returns {snapshot : Path}
    (hpath : LocalStorage.attemptPath base j token = .ok snapshot)
    (hdir : fs.node snapshot = some .dir) :
    ∃ fs', LocalStorage.completeAttempt base j token fs = (.ok (), fs') := by
  refine ⟨fs.remove snapshot, ?_⟩
  rw [LocalStorage.completeAttempt, hpath, Disk.bind_apply]
  show (Disk.lookup snapshot >>= _) fs = _
  rw [Disk.bind_apply, Disk.lookup, hdir]
  show LocalStorage.rmtree snapshot fs = _
  rw [LocalStorage.rmtree, Disk.rmtree, hdir]

theorem dir_of_below_eq {fs' : FileTree} {p : Path}
    (h : fs'.node.below p = fs.node.below p) (hdir : fs.node p = some .dir) :
    fs'.node p = some .dir := by
  have := congrFun h []
  rw [Tree.below, Tree.below, List.append_nil] at this
  rw [this, hdir]

/-- The rollback of an attempt does not fail while the snapshot and the roots of
both trees are directories. -/
theorem rollbackAttempt_returns (tr : Traversal) {snapshot : Path}
    (hpath : LocalStorage.attemptPath base j token = .ok snapshot)
    (hsnapshot : fs.node snapshot = some .dir) (hjobs : fs.node (root base .jobs j) = some .dir)
    (harts : fs.node (root base .artifacts j) = some .dir) :
    ∃ fs', LocalStorage.rollbackAttempt base tr j token fs = (.ok (), fs') := by
  obtain ⟨q, rfl⟩ := LocalStorage.attemptPath_ok hpath
  set snapshot := root base .snapshots j ++ q with hs
  have apart : ∀ area, area ≠ .snapshots → ∀ n, Apart (root base area j) (snapshot ++ n) := by
    intro area harea n
    have := (@LocalStorage.root_apart base _ _ j j (.inl harea)).append [] (q ++ n)
    rw [List.append_nil, ← List.append_assoc] at this
    exact this
  have hout : ∀ area, area ≠ .snapshots → Apart snapshot (root base area j) := by
    intro area harea
    have := apart area harea []
    rw [List.append_nil] at this
    exact this.symm
  -- the first tree; the second one and the snapshot are not touched
  obtain ⟨fs₁, hr₁⟩ := restore_returns tr hjobs (LocalStorage.root_ne_nil _ _)
    (apart .jobs (by decide) ["jobs"])
  obtain ⟨-, hkeep₁⟩ := LocalStorage.restore_ok hr₁ (apart .jobs (by decide) _)
    (LocalStorage.root_ne_nil _ _)
  have harts₁ := dir_of_below_eq (hkeep₁ _ (LocalStorage.root_apart (.inl (by decide)))) harts
  have hsnapshot₁ := dir_of_below_eq (hkeep₁ _ (hout .jobs (by decide))) hsnapshot
  -- the second tree
  obtain ⟨fs₂, hr₂⟩ := restore_returns tr harts₁ (LocalStorage.root_ne_nil _ _)
    (apart .artifacts (by decide) ["artifacts"])
  obtain ⟨-, hkeep₂⟩ := LocalStorage.restore_ok hr₂ (apart .artifacts (by decide) _)
    (LocalStorage.root_ne_nil _ _)
  have hsnapshot₂ := dir_of_below_eq (hkeep₂ _ (hout .artifacts (by decide))) hsnapshot₁
  obtain ⟨fs₃, hr₃⟩ := completeAttempt_returns hpath hsnapshot₂
  refine ⟨fs₃, ?_⟩
  rw [LocalStorage.rollbackAttempt, hpath, Disk.bind_apply]
  show (Disk.lookup snapshot >>= _) fs = _
  rw [Disk.bind_apply, Disk.lookup, hsnapshot]
  show (LocalStorage.restore tr _ _ >>= _) fs = _
  rw [Disk.bind_apply, hr₁]
  show (LocalStorage.restore tr _ _ >>= _) fs₁ = _
  rw [Disk.bind_apply, hr₂]
  exact hr₃

end Returns

/-! ### During an attempt -/

section Between

variable {base : Path} {j : Uuid}

theorem Remains.dir_at {r p : Path} {remains : Remains} (hrem : remains ≠ .removed)
    (hp : p = r ∨ Apart p r) {fs : FileTree} (hdir : fs.node p = some .dir) :
    (remains.at r fs).node p = some .dir := by
  have hmade : ((fs.mkdirs r).getD fs).node p = some .dir :=
    (kept_mkdirs_getD (List.mem_singleton_self r) fs).dirs p hdir
  cases remains with
  | untouched => exact hdir
  | removed => exact absurd rfl hrem
  | left tree =>
    show (((fs.mkdirs r).getD fs).graft r tree).node p = _
    rw [FileTree.graft]
    by_cases hr : ((fs.mkdirs r).getD fs).node r = some .dir
    · rw [dif_pos hr]
      show Tree.graft _ r tree.node p = _
      rcases hp with rfl | hp
      · rw [Tree.graft, if_pos (List.prefix_refl p), List.drop_length]
        exact tree.root_dir
      · rw [Tree.graft, if_neg hp.2]
        exact hmade
    · rw [dif_neg hr]
      exact hmade

theorem damaged_dir {damage : Area → Remains} (hdam : ∀ area, damage area ≠ .removed) {area : Area}
    {writes : List (Area × Uuid)} {fs : FileTree} (hdir : fs.node (root base area j) = some .dir) :
    (damaged base damage writes fs).node (root base area j) = some .dir := by
  induction writes generalizing fs with
  | nil => exact hdir
  | cons w rest ih =>
    refine ih (Remains.dir_at (hdam w.1) ?_ hdir)
    by_cases hw : area = w.1 ∧ j = w.2
    · exact .inl (by rw [hw.1, hw.2])
    · exact .inr (LocalStorage.root_apart (by tauto))

theorem FsOp.remains_ne_removed {o : FsOp} (ho : o.removes = false) (damage : Area → Remains)
    (area : Area) : o.remains damage area ≠ .removed := by
  rw [FsOp.remains]
  cases damage area with
  | untouched => simp
  | removed => simp [ho]
  | left tree => simp

/-- The roots of the trees stay directories under every method that does not
remove directories. -/
theorem FsOp.run_root {e : Env} {o : FsOp} (ho : o.removes = false) {fs fs' : FileTree}
    {r : Except Exn o.Val} (h : o.run base e fs = some (r, fs')) {area : Area}
    (hdir : fs.node (root base area j) = some .dir) :
    fs'.node (root base area j) = some .dir := by
  rcases (FsOp.run_cases h).2 with hrun | ⟨-, rfl⟩
  · have hspares := @FsOp.program_spares base e.traversal e.now e.fresh o ho fs
    rw [hrun] at hspares
    exact hspares.dirs _ hdir
  · exact damaged_dir (FsOp.remains_ne_removed ho e.damage) hdir

/-- A call for the job `j` that is none of the snapshot protocol: a storage write,
a tool copy-out, the promotion of an artifact or its clean-up, with any outcome. -/
def WorkStep (base : Path) (j : Uuid) (fs fs' : FileTree) : Prop :=
  ∃ (e : Env) (o : FsOp) (r : Except Exn o.Val), o.affects = some j ∧
    (Area.snapshots, j) ∉ o.writes ∧ o.run base e fs = some (r, fs')

/-- Any number of such calls. -/
abbrev Work (base : Path) (j : Uuid) : FileTree → FileTree → Prop :=
  Relation.ReflTransGen (WorkStep base j)

theorem FsOp.removes_eq_false {o : FsOp} (ho : o.affects = some j)
    (hw : (Area.snapshots, j) ∉ o.writes) : o.removes = false := by
  cases o with
  | rollbackAttempt k token =>
    obtain rfl : k = j := by simpa [FsOp.affects] using ho
    exact absurd hw (by simp [FsOp.writes])
  | completeAttempt k token =>
    obtain rfl : k = j := by simpa [FsOp.affects] using ho
    exact absurd hw (by simp [FsOp.writes])
  | _ => rfl

/-- Work on the trees does not touch the snapshots. -/
theorem Work.snapshots {fs fs' : FileTree} (h : Work base j fs fs') :
    treeOf base .snapshots j fs' = treeOf base .snapshots j fs := by
  induction h with
  | refl => rfl
  | tail _ hstep ih =>
    obtain ⟨e, o, r, -, hw, hrun⟩ := hstep
    exact (FsOp.run_frame hrun hw).trans ih

/-- The roots of the trees stay directories. -/
theorem Work.root_dir {fs fs' : FileTree} (h : Work base j fs fs') {area : Area}
    (hdir : fs.node (root base area j) = some .dir) :
    fs'.node (root base area j) = some .dir := by
  induction h with
  | refl => exact hdir
  | tail _ hstep ih =>
    obtain ⟨e, o, r, ho, hw, hrun⟩ := hstep
    exact FsOp.run_root (FsOp.removes_eq_false ho hw) hrun ih

theorem none_below {fs : FileTree} {p : Path} (h : fs.node p = none) (q : Path) :
    fs.node (p ++ q) = none := by
  by_cases hq : q = []
  · rw [hq, List.append_nil, h]
  · refine fs.none_of_prefix (by rw [h]; simp) (List.prefix_append p q) ?_
    simpa using hq

theorem copied_treeOf {fs : FileTree} {area : Area}
    (hdir : fs.node (root base area j) = some .dir) :
    (treeOf base area j fs).copied = treeOf base area j fs := by
  refine Tree.copied_eq_self ?_
  rw [treeOf, Tree.below, List.append_nil, hdir]

/-- The snapshot of the token is a directory with exact copies of both trees. -/
structure SnapshotOf (base : Path) (j : Uuid) (token : String) (snapshot : Path)
    (fs₀ fs : FileTree) : Prop where
  path : LocalStorage.attemptPath base j token = .ok snapshot
  dir : fs.node snapshot = some .dir
  jobs : fs.node.below (snapshot ++ ["jobs"]) = treeOf base .jobs j fs₀
  artifacts : fs.node.below (snapshot ++ ["artifacts"]) = treeOf base .artifacts j fs₀

theorem snapshotOf_begin {e : Env} {token : String} {fs₀ fs₁ : FileTree}
    (hjobs : fs₀.node (root base .jobs j) = some .dir)
    (harts : fs₀.node (root base .artifacts j) = some .dir)
    (h : (FsOp.beginAttempt j).run base e fs₀ = some (.ok token, fs₁)) :
    ∃ snapshot, SnapshotOf base j token snapshot fs₀ fs₁ := by
  obtain ⟨hen, hprog⟩ := FsOp.run_ok h
  obtain ⟨snapshot, hpath, -⟩ := Disk.ofExcept_bind_ok hprog
  rw [FsOp.enabled, hpath] at hen
  obtain ⟨rfl, hcopy₁, hcopy₂⟩ :=
    LocalStorage.beginAttempt_ok hpath (of_decide_eq_true hen) hprog
  rw [copied_treeOf hjobs] at hcopy₁
  rw [copied_treeOf harts] at hcopy₂
  refine ⟨snapshot, hpath, ?_, hcopy₁, hcopy₂⟩
  -- the copy of the workspace lies in the snapshot
  refine fs₁.parent_dir snapshot "jobs" ?_
  have hnode := congrFun hcopy₁ []
  rw [Tree.below, treeOf, Tree.below, List.append_nil, List.append_nil, hjobs] at hnode
  rw [hnode]
  simp

theorem SnapshotOf.work {token : String} {snapshot : Path} {fs₀ fs fs' : FileTree}
    (h : SnapshotOf base j token snapshot fs₀ fs) (hwork : Work base j fs fs') :
    SnapshotOf base j token snapshot fs₀ fs' := by
  obtain ⟨q, rfl⟩ := LocalStorage.attemptPath_ok h.path
  have hsame : ∀ p, fs'.node.below (root base .snapshots j ++ q ++ p) =
      fs.node.below (root base .snapshots j ++ q ++ p) := by
    intro p
    rw [← below_snapshots, ← below_snapshots, hwork.snapshots]
  refine ⟨h.path, dir_of_below_eq ?_ h.dir, (hsame _).trans h.jobs, (hsame _).trans h.artifacts⟩
  have := hsame []
  rwa [List.append_nil] at this

theorem SnapshotOf.rollback {e : Env} (he : e.fault = none) {token : String} {snapshot : Path}
    {fs₀ fs : FileTree} (h : SnapshotOf base j token snapshot fs₀ fs)
    (hjobs₀ : fs₀.node (root base .jobs j) = some .dir)
    (harts₀ : fs₀.node (root base .artifacts j) = some .dir)
    (hjobs : fs.node (root base .jobs j) = some .dir)
    (harts : fs.node (root base .artifacts j) = some .dir) :
    ∃ fs', (FsOp.rollbackAttempt j token).run base e fs = some (.ok (), fs') ∧
      treeOf base .jobs j fs' = treeOf base .jobs j fs₀ ∧
      treeOf base .artifacts j fs' = treeOf base .artifacts j fs₀ ∧
      ∀ q, fs'.node (snapshot ++ q) = none := by
  obtain ⟨fs', hprog⟩ := rollbackAttempt_returns e.traversal h.path h.dir hjobs harts
  obtain ⟨htree₁, htree₂, hgone⟩ := LocalStorage.rollbackAttempt_ok h.path hprog
  refine ⟨fs', ?_, ?_, ?_, none_below hgone⟩
  · rw [FsOp.run, he]
    exact congrArg some hprog
  · rw [htree₁, h.jobs, copied_treeOf hjobs₀]
  · rw [htree₂, h.artifacts, copied_treeOf harts₀]

theorem SnapshotOf.complete {e : Env} (he : e.fault = none) {token : String} {snapshot : Path}
    {fs₀ fs : FileTree} (h : SnapshotOf base j token snapshot fs₀ fs) :
    ∃ fs', (FsOp.completeAttempt j token).run base e fs = some (.ok (), fs') ∧
      treeOf base .jobs j fs' = treeOf base .jobs j fs ∧
      treeOf base .artifacts j fs' = treeOf base .artifacts j fs ∧
      ∀ q, fs'.node (snapshot ++ q) = none := by
  obtain ⟨fs', hprog⟩ := completeAttempt_returns h.path h.dir
  have hrun : (FsOp.completeAttempt j token).run base e fs = some (.ok (), fs') := by
    rw [FsOp.run, he]
    exact congrArg some hprog
  obtain ⟨q, hpath, hnode⟩ := LocalStorage.completeAttempt_ok hprog
  rw [h.path, Except.ok.injEq] at hpath
  refine ⟨fs', hrun, FsOp.run_frame hrun (by simp [FsOp.writes]),
    FsOp.run_frame hrun (by simp [FsOp.writes]), none_below ?_⟩
  rw [hnode, hpath]
  exact if_pos ⟨List.prefix_refl _, by simp [root]⟩

end Between

/-- **Rollback is exact.**  The workspace and the artifacts directory of the job
exist, with anything in them, when `begin_attempt` takes its snapshot.  After any
work on the two trees, `rollback_attempt` returns and both trees are what they were
at `begin_attempt`; `complete_attempt` returns and leaves both trees as they are.
Nothing of the snapshot is left in either case. -/
theorem snapshot_exact (base : Path) (j : Uuid) {fs₀ fs₁ fs₂ : FileTree} {e : Env}
    {token : String} (hjobs : fs₀.node (root base .jobs j) = some .dir)
    (harts : fs₀.node (root base .artifacts j) = some .dir)
    (hbegin : (FsOp.beginAttempt j).run base e fs₀ = some (.ok token, fs₁))
    (hwork : Work base j fs₁ fs₂) (e' : Env) (he' : e'.fault = none) :
    ∃ snapshot, LocalStorage.attemptPath base j token = .ok snapshot ∧
      (∃ fs₃, (FsOp.rollbackAttempt j token).run base e' fs₂ = some (.ok (), fs₃) ∧
        treeOf base .jobs j fs₃ = treeOf base .jobs j fs₀ ∧
        treeOf base .artifacts j fs₃ = treeOf base .artifacts j fs₀ ∧
        ∀ q, fs₃.node (snapshot ++ q) = none) ∧
      ∃ fs₃, (FsOp.completeAttempt j token).run base e' fs₂ = some (.ok (), fs₃) ∧
        treeOf base .jobs j fs₃ = treeOf base .jobs j fs₂ ∧
        treeOf base .artifacts j fs₃ = treeOf base .artifacts j fs₂ ∧
        ∀ q, fs₃.node (snapshot ++ q) = none := by
  obtain ⟨snapshot, htaken⟩ := snapshotOf_begin hjobs harts hbegin
  have hsnapshot := htaken.work hwork
  -- neither `begin_attempt` nor the work removes a root
  have hdir : ∀ area, fs₀.node (root base area j) = some .dir →
      fs₂.node (root base area j) = some .dir := fun area h =>
    hwork.root_dir (FsOp.run_root rfl hbegin h)
  exact ⟨snapshot, hsnapshot.path,
    hsnapshot.rollback he' hjobs harts (hdir .jobs hjobs) (hdir .artifacts harts),
    hsnapshot.complete he'⟩

namespace Sample

/-- The disk after a call in which nothing fails. -/
def after (o : FsOp) (fs : FileTree) : FileTree := (o.program ["srv"] Traversal.id 0 job fs).2

/-- The disk with the two empty trees of the job. -/
def fresh : FileTree := after (.createWorkspace job) (FileTree.ofBase ["srv"])

end Sample

set_option maxRecDepth 100000 in
theorem snapshot_exact_sample :
    treeOf ["srv"] .jobs Sample.job (Sample.after Sample.odd
        (Sample.after (.beginAttempt Sample.job) Sample.fresh)) ["a", "b.txt"] =
          some (.file [104, 105]) ∧
      ∃ fs₃, (FsOp.rollbackAttempt Sample.job Sample.job.str).run ["srv"] Sample.calm
          (Sample.after Sample.odd (Sample.after (.beginAttempt Sample.job) Sample.fresh)) =
            some (.ok (), fs₃) ∧
        treeOf ["srv"] .jobs Sample.job fs₃ = treeOf ["srv"] .jobs Sample.job Sample.fresh := by
  have hbegin : (FsOp.beginAttempt Sample.job).run ["srv"] Sample.calm Sample.fresh =
      some (.ok Sample.job.str, Sample.after (.beginAttempt Sample.job) Sample.fresh) := by
    rfl
  have hwork : Work ["srv"] Sample.job (Sample.after (.beginAttempt Sample.job) Sample.fresh)
      (Sample.after Sample.odd (Sample.after (.beginAttempt Sample.job) Sample.fresh)) :=
    .single ⟨Sample.calm, Sample.odd, _, rfl, by decide, rfl⟩
  obtain ⟨-, -, ⟨fs₃, hrun, hjobs, -⟩, -⟩ := snapshot_exact ["srv"] Sample.job (by decide +kernel)
    (by decide +kernel) hbegin hwork Sample.calm rfl
  exact ⟨by decide +kernel, fs₃, hrun, hjobs⟩

end CliExecutionPlatform
