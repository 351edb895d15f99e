/-
What an attempt holds of its job, and what every operation does to it.

`held j w` collects the data of job `j` that attempts write: its workspace, its
artifacts directory, its snapshots, its artifact rows and its saved plan.  The
lemmas of this file say what each operation can do to them, so that the proofs
about programs need not look at the database or the disk again.

* `exec_quiet` — an operation that is `Quiet` changes nothing that is held;
* `exec_workspace`, `exec_promoted`, `exec_snapshots` — a storage method changes
  the trees it writes only;
* `exec_createDirectory`, `exec_writeFile`, `exec_stage`, `exec_copyOut`,
  `exec_saveArtifact`, `exec_beginAttempt`, `exec_rollbackAttempt`,
  `exec_commitArtifacts`, `exec_saveActionPlan` — what a method that returned
  has done, and what it can raise.
-/
import CliExecutionPlatform.Orchestrator

open Files Process

namespace CliExecutionPlatform

open LocalStorage (root treeOf validateSafePath attemptPath)

/-- The data of a job that its attempts write. -/
structure Held where
  workspace : Tree
  promoted : Tree
  snapshots : Tree
  artifacts : List ArtifactRow
  plan : Option (List Action)

/-- What job `j` holds in a world. -/
def held (base : Path) (j : Uuid) (w : World) : Held where
  workspace := treeOf base .jobs j w.fs
  promoted := treeOf base .artifacts j w.fs
  snapshots := treeOf base .snapshots j w.fs
  artifacts := w.db.artifactsOf j
  plan := (w.db.job j).bind JobRow.actionPlan

/-- Operations that change nothing that a job holds. -/
def Op.Quiet : Op → Prop
  | .db (.saveActionPlan _ _) | .db (.commitArtifacts _ _) | .db (.insertJob _ _) => False
  | .fs o => o.writes = []
  | _ => True

section Exec

variable {base : Path} {e : Env} {j : Uuid} {w w' : World}

/-! ### Operations that are quiet -/

theorem plan_updateJob {db : Db} {k : Uuid} {f : JobRow → JobRow}
    (hf : ∀ row, (f row).actionPlan = row.actionPlan) :
    ((db.updateJob k f).job j).bind JobRow.actionPlan = (db.job j).bind JobRow.actionPlan := by
  rw [Db.job_updateJob]
  by_cases hjk : j = k
  · rw [if_pos hjk, hjk]
    rcases db.job k with _ | row
    · rfl
    · exact hf row
  · rw [if_neg hjk]

/-- A transaction that does not save a plan, commit artifacts or create a job
leaves plans and artifact rows alone. -/
theorem DbOp.exec_quiet {o : DbOp} {db db' : Db} {r : Except Exn o.Val}
    (hq : (Op.db o).Quiet) (h : o.exec e db = some (r, db')) :
    db'.artifactsOf j = db.artifactsOf j ∧
      (db'.job j).bind JobRow.actionPlan = (db.job j).bind JobRow.actionPlan := by
  rcases DbOp.exec_cases h with h | ⟨-, rfl⟩
  · cases o with
    | transition k expected target code message =>
      rcases run_transition h with ⟨row, -, -, -, rfl⟩ | ⟨-, -, rfl⟩
      · exact ⟨rfl, plan_updateJob fun _ => rfl⟩
      · exact ⟨rfl, rfl⟩
    | recoverOne k cutoff =>
      rcases run_recoverOne h with ⟨row, -, -, -, -, rfl⟩ | ⟨-, -, rfl⟩
      · exact ⟨rfl, plan_updateJob fun _ => rfl⟩
      · exact ⟨rfl, rfl⟩
    | appendEvent k code message =>
      rcases run_appendEvent h with ⟨-, rfl⟩ | ⟨-, rfl⟩ <;> exact ⟨rfl, rfl⟩
    | logEvents k rows =>
      rcases run_logEvents h with ⟨-, rfl⟩ | ⟨-, rfl⟩ <;> exact ⟨rfl, rfl⟩
    | flushArtifact k rel name type =>
      rw [(run_flushArtifact h).1]
      exact ⟨rfl, rfl⟩
    | getJob k =>
      obtain ⟨-, rfl⟩ := Prod.mk.inj (Option.some.inj h)
      exact ⟨rfl, rfl⟩
    | scanStale cutoff =>
      obtain ⟨-, rfl⟩ := Prod.mk.inj (Option.some.inj h)
      exact ⟨rfl, rfl⟩
    | rollbackSession k =>
      obtain ⟨-, rfl⟩ := Prod.mk.inj (Option.some.inj h)
      exact ⟨rfl, rfl⟩
    | insertJob prompt parent => exact absurd hq id
    | saveActionPlan k actions => exact absurd hq id
    | commitArtifacts k drafts => exact absurd hq id
  · exact ⟨rfl, rfl⟩

/-- A storage method keeps rows, plans and the trees it does not write. -/
theorem exec_fs_held {o : FsOp} {r : Except Exn o.Val}
    (h : exec base e (.fs o) w = some (r, w')) :
    w'.db = w.db ∧ ∀ a k, (a, k) ∉ o.writes → treeOf base a k w'.fs = treeOf base a k w.fs := by
  obtain ⟨fs, hrun, rfl⟩ := exec_fs h
  exact ⟨rfl, fun a k hk => FsOp.run_frame hrun hk⟩

theorem exec_sys_held {o : SysOp} {r : Except Exn o.Val}
    (h : exec base e (.sys o) w = some (r, w')) : held base j w' = held base j w := by
  have hsame : w'.db = w.db ∧ w'.fs = w.fs := by
    rcases hs : o.affects with _ | k
    · exact ⟨(SysOp.exec_sameData h hs).1, (SysOp.exec_sameData h hs).2.1⟩
    · cases o with
      | schedule i =>
        obtain ⟨-, rfl⟩ := Prod.mk.inj (Option.some.inj h)
        exact ⟨rfl, rfl⟩
      | _ => exact absurd hs (by simp [SysOp.affects])
  simp only [held, hsame.1, hsame.2]

/-- A quiet operation changes nothing that is held. -/
theorem exec_quiet {o : Op} {r : Res o} (hq : o.Quiet)
    (h : exec base e o w = some (r, w')) : held base j w' = held base j w := by
  cases o with
  | db o =>
    obtain ⟨db, hrun, rfl⟩ := exec_db h
    obtain ⟨harts, hplan⟩ := @DbOp.exec_quiet e j o _ _ _ hq hrun
    simp only [held, harts, hplan]
  | fs o =>
    obtain ⟨hdb, htree⟩ := exec_fs_held h
    have hnil : o.writes = [] := hq
    have hkeep : ∀ a, treeOf base a j w'.fs = treeOf base a j w.fs := fun a =>
      htree a j (by rw [hnil]; exact List.not_mem_nil)
    simp only [held, hdb, hkeep]
  | sys o => exact exec_sys_held h

/-! ### Operations that write one tree -/

/-- Where one tree is written, the rest of what is held stays. -/
theorem exec_one_tree {o : FsOp} {r : Except Exn o.Val} {b : Area} {k : Uuid}
    (hw : o.writes = [(b, k)]) (h : exec base e (.fs o) w = some (r, w')) :
    w'.db = w.db ∧ ∀ a, a ≠ b → treeOf base a j w'.fs = treeOf base a j w.fs := by
  obtain ⟨hdb, htree⟩ := exec_fs_held h
  refine ⟨hdb, fun a ha => htree a j ?_⟩
  rw [hw, List.mem_singleton, Prod.mk.injEq]
  exact fun hcon => ha hcon.1

theorem exec_workspace {o : FsOp} {r : Except Exn o.Val} {k : Uuid} (hw : o.writes = [(.jobs, k)])
    (h : exec base e (.fs o) w = some (r, w')) :
    held base j w' = { held base j w with workspace := treeOf base .jobs j w'.fs } := by
  obtain ⟨hdb, htree⟩ := @exec_one_tree base e j w w' o r .jobs k hw h
  simp only [held, hdb, htree .artifacts (by decide), htree .snapshots (by decide)]

theorem exec_promoted {o : FsOp} {r : Except Exn o.Val} {k : Uuid}
    (hw : o.writes = [(.artifacts, k)]) (h : exec base e (.fs o) w = some (r, w')) :
    held base j w' = { held base j w with promoted := treeOf base .artifacts j w'.fs } := by
  obtain ⟨hdb, htree⟩ := @exec_one_tree base e j w w' o r .artifacts k hw h
  simp only [held, hdb, htree .jobs (by decide), htree .snapshots (by decide)]

theorem exec_snapshots {o : FsOp} {r : Except Exn o.Val} {k : Uuid}
    (hw : o.writes = [(.snapshots, k)]) (h : exec base e (.fs o) w = some (r, w')) :
    held base j w' = { held base j w with snapshots := treeOf base .snapshots j w'.fs } := by
  obtain ⟨hdb, htree⟩ := @exec_one_tree base e j w w' o r .snapshots k hw h
  simp only [held, hdb, htree .jobs (by decide), htree .artifacts (by decide)]

/-! ### What a method that returned has done -/

theorem FsOp.run_ok {o : FsOp} {a : o.Val} {fs fs' : FileTree}
    (h : o.run base e fs = some (.ok a, fs')) :
    o.enabled base e.fresh fs = true ∧
      o.program base e.traversal e.now e.fresh fs = (.ok a, fs') := by
  obtain ⟨hen, hrun | ⟨⟨name, detail, hr⟩, -⟩⟩ := FsOp.run_cases h
  · exact ⟨hen, hrun⟩
  · exact absurd hr (by simp)

theorem exec_fs_ok {o : FsOp} {a : o.Val} (h : exec base e (.fs o) w = some (.ok a, w')) :
    o.enabled base e.fresh w.fs = true ∧
      o.program base e.traversal e.now e.fresh w.fs = (.ok a, w'.fs) := by
  obtain ⟨fs, hrun, rfl⟩ := exec_fs h
  exact FsOp.run_ok hrun

/-- A storage method raises what the operating system raises, or what its
program raises. -/
theorem exec_fs_raises_of {P : Exn → Prop} (hos : ∀ name detail, P (.os name detail)) {o : FsOp}
    {x : Exn} (hP : Disk.Raises P (o.program base e.traversal e.now e.fresh))
    (h : exec base e (.fs o) w = some (.error x, w')) : P x := by
  obtain ⟨fs, hrun, rfl⟩ := exec_fs h
  rcases (FsOp.run_cases hrun).2 with hprogram | ⟨⟨name, detail, hr⟩, -⟩
  · exact hP _ _ _ hprogram
  · rw [Except.error.inj hr]
    exact hos name detail

theorem exec_fs_raises {o : FsOp} {x : Exn}
    (hP : Disk.Raises (fun x => x.isOSError) (o.program base e.traversal e.now e.fresh))
    (h : exec base e (.fs o) w = some (.error x, w')) : x.isOSError = true :=
  exec_fs_raises_of (fun _ _ => rfl) hP h

theorem exec_createDirectory {rel : String} {u : Unit}
    (h : exec base e (.fs (.createDirectory j rel)) w = some (.ok u, w')) :
    ∃ q, validateSafePath base j rel .jobs = .ok (root base .jobs j ++ q) ∧
      held base j w' =
        { held base j w with workspace := (held base j w).workspace.mkdirs q } := by
  obtain ⟨q, hq, htree⟩ := LocalStorage.createDirectory_ok (exec_fs_ok h).2
  refine ⟨q, hq, ?_⟩
  rw [@exec_workspace base e j w w' (.createDirectory j rel) _ j rfl h, htree]
  rfl

theorem exec_writeFile {rel : String} {content : Content} {u : Unit}
    (h : exec base e (.fs (.writeFile j rel content)) w = some (.ok u, w')) :
    ∃ q, validateSafePath base j rel .jobs = .ok (root base .jobs j ++ q) ∧
      held base j w' = { held base j w with
        workspace := (held base j w).workspace.writeAt q content.data } := by
  obtain ⟨q, hq, htree⟩ := LocalStorage.writeFile_ok (exec_fs_ok h).2
  refine ⟨q, hq, ?_⟩
  rw [@exec_workspace base e j w w' (.writeFile j rel content) _ j rfl h, htree]
  rfl

/-- `staged` holds the directories and the `.scad` files of the workspace. -/
def Staging (workspace : Tree) (now : ℕ) (staged : Staged) : Prop :=
  (∀ p, p ∈ staged.dirs ↔ p ≠ [] ∧ workspace p = some .dir) ∧
    ∀ f, f ∈ staged.files ↔ f.path ≠ [] ∧ workspace f.path = some (.file f.data) ∧
      isScad f.path = true ∧ f.mtime = now

theorem stage_ok {tr : Traversal} {now : ℕ} {fs fs' : FileTree} {staged : Staged}
    (h : stage base tr now j fs = (.ok staged, fs')) :
    Staging (treeOf base .jobs j fs) now staged := by
  rw [stage] at h
  rcases hnode : fs.node (root base .jobs j) with _ | _ | d
  · rw [hnode] at h
    exact absurd (Prod.mk.inj h).1 (by simp)
  · rw [hnode] at h
    rw [← Except.ok.inj (Prod.mk.inj h).1]
    -- The order of the traversal does not matter for what is staged.
    have hmem : ∀ p, p ∈ tr.order (fs.entriesBelow (root base .jobs j)) ↔
        p ≠ [] ∧ treeOf base .jobs j fs p ≠ none := fun p =>
      (tr.perm _).mem_iff.trans FileTree.mem_entriesBelow
    refine ⟨fun p => ?_, fun f => ?_⟩
    · rw [List.mem_filter, hmem, decide_eq_true_eq]
      refine ⟨fun hp => ⟨hp.1.1, hp.2⟩, fun hp => ⟨⟨hp.1, ?_⟩, hp.2⟩⟩
      rw [hp.2]
      simp
    · rw [List.mem_filterMap]
      constructor
      · rintro ⟨p, hp, hf⟩
        rcases hn : fs.node (root base .jobs j ++ p) with _ | _ | data
        · rw [hn] at hf
          exact absurd hf (by simp)
        · rw [hn] at hf
          exact absurd hf (by simp)
        · rw [hn] at hf
          by_cases hs : isScad p
          · simp only [hs, if_true, Option.some_inj] at hf
            rw [← hf]
            exact ⟨((hmem p).mp hp).1, hn, hs, rfl⟩
          · simp only [hs] at hf
            exact absurd hf (by simp)
      · rintro ⟨hne, hfile, hs, hmtime⟩
        refine ⟨f.path, (hmem f.path).mpr ⟨hne, by rw [hfile]; simp⟩, ?_⟩
        have hn : fs.node (root base .jobs j ++ f.path) = some (.file f.data) := hfile
        rw [hn]
        simp only [hs, if_true, ← hmtime]
  · rw [hnode] at h
    exact absurd (Prod.mk.inj h).1 (by simp)

theorem exec_stage {staged : Staged} (h : exec base e (.fs (.stage j)) w = some (.ok staged, w')) :
    Staging (held base j w).workspace e.now staged := stage_ok (exec_fs_ok h).2

theorem exec_launch_cases {args : List String} {staged : Staged} {r : Except Exn (ℕ × Behaviour)}
    (h : exec base e (.sys (.launch args staged)) w = some (r, w')) :
    ((∃ x, r = .error x) ∧ w' = w) ∨ ∃ pid, r = .ok (pid, e.behaviour args staged) ∧
      pid ∉ w.live ∧ w' = { w with live := pid :: w.live } := by
  simp only [exec, SysOp.exec] at h
  by_cases hc : e.cancel
  · rw [if_pos hc] at h
    obtain ⟨rfl, rfl⟩ := Prod.mk.inj (Option.some.inj h)
    exact .inl ⟨⟨_, rfl⟩, rfl⟩
  · rw [if_neg hc] at h
    rcases hf : e.fault with _ | f
    · simp only [hf] at h
      by_cases hp : e.pid ∈ w.live
      · rw [if_pos hp] at h
        exact absurd h (by simp)
      · rw [if_neg hp] at h
        obtain ⟨rfl, rfl⟩ := Prod.mk.inj (Option.some.inj h)
        exact .inr ⟨_, rfl, hp, rfl⟩
    · simp only [hf] at h
      obtain ⟨rfl, rfl⟩ := Prod.mk.inj (Option.some.inj h)
      exact .inl ⟨⟨_, rfl⟩, rfl⟩

theorem copyOut_ok {output : Option String} {f : TmpFile} {fs fs' : FileTree} {u : Unit}
    (h : copyOut base j output f fs = (.ok u, fs')) :
    ∃ q, follow (root base .jobs j) f.path = root base .jobs j ++ q ∧
      treeOf base .jobs j fs' = (treeOf base .jobs j fs).writeAt q f.data := by
  rw [copyOut] at h
  by_cases hin : root base .jobs j <+: follow (root base .jobs j) f.path
  · simp only [if_pos hin] at h
    obtain ⟨q, hq⟩ := hin
    refine ⟨q, hq.symm, ?_⟩
    have hrest := Disk.lookup_bind_ok h
    rw [← hq] at hrest
    rcases hnode : fs.node (root base .jobs j ++ q) with _ | n
    · rw [hnode] at hrest
      exact LocalStorage.writeBelow_ok (LocalStorage.root_ne_nil _ _) hrest
    · rw [hnode] at hrest
      by_cases hout : isExplicitOutput (root base .jobs j) output (root base .jobs j ++ q)
      · simp only [hout, if_true] at hrest
        exact LocalStorage.writeBelow_ok (LocalStorage.root_ne_nil _ _) hrest
      · simp only [hout] at hrest
        exact absurd (Prod.mk.inj hrest).1 (by simp)
  · simp only [if_neg hin] at h
    exact absurd (Prod.mk.inj h).1 (by simp)

theorem exec_copyOut {output : Option String} {f : TmpFile} {u : Unit}
    (h : exec base e (.fs (.copyOut j output f)) w = some (.ok u, w')) :
    ∃ q, follow (root base .jobs j) f.path = root base .jobs j ++ q ∧
      held base j w' = { held base j w with
        workspace := (held base j w).workspace.writeAt q f.data } := by
  obtain ⟨q, hq, htree⟩ := copyOut_ok (exec_fs_ok h).2
  refine ⟨q, hq, ?_⟩
  rw [@exec_workspace base e j w w' (.copyOut j output f) _ j rfl h, htree]
  rfl

theorem exec_saveArtifact {rel : String} {u : Unit}
    (h : exec base e (.fs (.saveArtifact j rel)) w = some (.ok u, w')) :
    ∃ q q' data, validateSafePath base j rel .jobs = .ok (root base .jobs j ++ q) ∧
      validateSafePath base j rel .artifacts = .ok (root base .artifacts j ++ q') ∧
      (held base j w).workspace q = some (.file data) ∧
      held base j w' = { held base j w with
        promoted := (held base j w).promoted.writeAt q' data } ∧
      ∀ p d, p ≠ q' → (held base j w).promoted p = some (.file d) →
        (held base j w').promoted p = some (.file d) := by
  obtain ⟨q, q', data, hq, hq', hdata, htree, hkeep⟩ :=
    LocalStorage.saveArtifact_ok (exec_fs_ok h).2
  refine ⟨q, q', data, hq, hq', hdata, ?_, hkeep⟩
  rw [@exec_promoted base e j w w' (.saveArtifact j rel) _ j rfl h, htree]
  rfl

/-- Creating the workspace leaves rows and plan alone. -/
theorem exec_createWorkspace {r : Except Exn Unit}
    (h : exec base e (.fs (.createWorkspace j)) w = some (r, w')) :
    (held base j w').artifacts = (held base j w).artifacts ∧
      (held base j w').plan = (held base j w).plan ∧
      ∀ u, r = .ok u → (held base j w').workspace = (held base j w).workspace.mkdirs [] ∧
        (held base j w').promoted = (held base j w).promoted.mkdirs [] := by
  have hdb := (exec_fs_held h).1
  refine ⟨by simp only [held, hdb], by simp only [held, hdb], fun u hr => ?_⟩
  rw [hr] at h
  exact LocalStorage.createWorkspace_ok (exec_fs_ok h).2

theorem exec_workspaceFileSize {rel : String} {n : ℕ}
    (h : exec base e (.fs (.workspaceFileSize j rel)) w = some (.ok n, w')) :
    ∃ q data, validateSafePath base j rel .jobs = .ok (root base .jobs j ++ q) ∧
      (held base j w).workspace q = some (.file data) ∧ n = data.length :=
  LocalStorage.workspaceFileSize_ok (exec_fs_ok h).2

theorem exec_copyWorkspaceFile {source : Uuid} {rel : String} {u : Unit}
    (h : exec base e (.fs (.copyWorkspaceFile source j rel)) w = some (.ok u, w')) :
    ∃ q q' data, validateSafePath base source rel .jobs = .ok (root base .jobs source ++ q) ∧
      validateSafePath base j rel .jobs = .ok (root base .jobs j ++ q') ∧
      (held base source w).workspace q = some (.file data) ∧
      held base j w' = { held base j w with
        workspace := (held base j w).workspace.writeAt q' data } := by
  obtain ⟨q, q', data, hq, hq', hdata, htree⟩ :=
    LocalStorage.copyWorkspaceFile_ok (exec_fs_ok h).2
  refine ⟨q, q', data, hq, hq', hdata, ?_⟩
  rw [@exec_workspace base e j w w' (.copyWorkspaceFile source j rel) _ j rfl h, htree]
  rfl

/-! ### Snapshots -/

/-- The snapshot of `token` holds copies of the two trees. -/
def HasSnapshot (base : Path) (j : Uuid) (H : Held) (token : String) (W P : Tree) : Prop :=
  ∃ q, attemptPath base j token = .ok (root base .snapshots j ++ q) ∧
    H.snapshots.below (q ++ ["jobs"]) = W.copied ∧
    H.snapshots.below (q ++ ["artifacts"]) = P.copied

theorem below_snapshots (fs : FileTree) (q s : Path) :
    (treeOf base .snapshots j fs).below (q ++ s) =
      fs.node.below (root base .snapshots j ++ q ++ s) := by
  rw [treeOf, Tree.below_below, List.append_assoc]

theorem exec_beginAttempt {token : String}
    (h : exec base e (.fs (.beginAttempt j)) w = some (.ok token, w')) :
    HasSnapshot base j (held base j w') token (held base j w).workspace
      (held base j w).promoted := by
  obtain ⟨hen, hprog⟩ := exec_fs_ok h
  obtain ⟨p, hp, -⟩ := Disk.ofExcept_bind_ok hprog
  rw [FsOp.enabled, hp] at hen
  obtain ⟨q, rfl⟩ := LocalStorage.attemptPath_ok hp
  obtain ⟨rfl, hjobs, harts⟩ :=
    LocalStorage.beginAttempt_ok hp (of_decide_eq_true hen) hprog
  refine ⟨q, hp, ?_, ?_⟩
  · exact (below_snapshots w'.fs q _).trans hjobs
  · exact (below_snapshots w'.fs q _).trans harts

/-- A rollback puts both trees back and leaves rows and plan alone. -/
theorem exec_rollbackAttempt {token : String} {W P : Tree} {u : Unit}
    (hsnap : HasSnapshot base j (held base j w) token W P)
    (h : exec base e (.fs (.rollbackAttempt j token)) w = some (.ok u, w')) :
    (held base j w').workspace = W.copied ∧ (held base j w').promoted = P.copied ∧
      (held base j w').artifacts = (held base j w).artifacts ∧
      (held base j w').plan = (held base j w).plan := by
  obtain ⟨q, hq, hjobs, harts⟩ := hsnap
  obtain ⟨hW, hP, -⟩ := LocalStorage.rollbackAttempt_ok hq (exec_fs_ok h).2
  have hdb := (exec_fs_held h).1
  refine ⟨?_, ?_, ?_, ?_⟩
  · show treeOf base .jobs j w'.fs = _
    rw [hW, ← below_snapshots]
    exact (congrArg Tree.copied hjobs).trans (Tree.copied_copied W)
  · show treeOf base .artifacts j w'.fs = _
    rw [hP, ← below_snapshots]
    exact (congrArg Tree.copied harts).trans (Tree.copied_copied P)
  · simp only [held, hdb]
  · simp only [held, hdb]

/-! ### Rows and plans -/

/-- The exceptions of the database, of the operating system, of the repositories and of
paths that cannot be resolved. -/
def Exn.fatal : Exn → Bool
  | .database _ _ | .runtime _ | .value _ => true
  | x => x.isOSError

/-- None of them is retried. -/
theorem feedbackFor_fatal {parts : Parts} {x : Exn} (h : x.fatal) :
    LLMPlanRetryExecutor.feedbackFor parts x = none := by
  cases x <;> first | rfl | exact absurd h (by simp [Exn.fatal, Exn.isOSError])

theorem fatal_of_isOSError {x : Exn} (h : x.isOSError) : x.fatal = true := by
  cases x <;> first | rfl | exact absurd h (by simp [Exn.isOSError])

theorem exec_commitArtifacts {drafts : List ArtifactDraft} {r : Except Exn Unit}
    (h : exec base e (.db (.commitArtifacts j drafts)) w = some (r, w')) :
    (r = .ok () ∧ held base j w' = { held base j w with
      artifacts := (held base j w).artifacts ++ drafts.map (ArtifactDraft.row j) }) ∨
    ((∃ x, r = .error x ∧ x.fatal = true) ∧ held base j w' = held base j w) := by
  rcases exec_db_cases h with ⟨db, hrun, rfl⟩ | ⟨⟨name, detail, rfl⟩, rfl⟩
  · rcases DbOp.run_commitArtifacts hrun with ⟨rfl, hjob, -, harts⟩ | ⟨rfl, rfl⟩
    · refine .inl ⟨rfl, ?_⟩
      have hall : (drafts.map (ArtifactDraft.row j)).filter (fun a => a.jobId = j) =
          drafts.map (ArtifactDraft.row j) := by
        rw [List.filter_eq_self]
        intro a ha
        obtain ⟨d, -, rfl⟩ := List.mem_map.mp ha
        exact decide_eq_true rfl
      simp only [held, hjob, Db.artifactsOf, harts, List.filter_append, hall]
    · exact .inr ⟨⟨_, rfl, rfl⟩, rfl⟩
  · exact .inr ⟨⟨_, rfl, rfl⟩, rfl⟩

theorem exec_saveActionPlan {actions : List Action} {r : Except Exn Unit}
    (h : exec base e (.db (.saveActionPlan j actions)) w = some (r, w')) :
    (r = .ok () ∧ held base j w' = { held base j w with plan := some actions }) ∨
    ((∃ x, r = .error x ∧ x.fatal = true) ∧ held base j w' = held base j w) := by
  rcases exec_db_cases h with ⟨db, hrun, rfl⟩ | ⟨⟨name, detail, rfl⟩, rfl⟩
  · rcases DbOp.run_saveActionPlan hrun with ⟨row, hrow, -, rfl, rfl⟩ | ⟨-, rfl, rfl⟩
    · refine .inl ⟨rfl, ?_⟩
      simp only [held, Db.job_updateJob, if_true, hrow, Db.artifactsOf_updateJob]
      rfl
    · exact .inr ⟨⟨_, rfl, rfl⟩, rfl⟩
  · exact .inr ⟨⟨_, rfl, rfl⟩, rfl⟩

/-- Only an error of the database makes the rollback of a session fail. -/
theorem exec_rollbackSession {r : Except Exn Unit}
    (h : exec base e (.db (.rollbackSession j)) w = some (r, w')) :
    r = .ok () ∨ ∃ x, r = .error x ∧ x.fatal = true := by
  rcases exec_db_cases h with ⟨db, hrun, -⟩ | ⟨⟨name, detail, rfl⟩, -⟩
  · exact .inl (Prod.mk.inj (Option.some.inj hrun)).1.symm
  · exact .inr ⟨_, rfl, rfl⟩

/-- A flushed row has the data it was made from. -/
theorem exec_flushArtifact {rel name type : String} {d : ArtifactDraft}
    (h : exec base e (.db (.flushArtifact j rel name type)) w = some (.ok d, w')) :
    d = ⟨d.id, rel, name, type⟩ := by
  rcases exec_db_cases h with ⟨db, hrun, rfl⟩ | ⟨⟨name, detail, hr⟩, -⟩
  · rcases (DbOp.run_flushArtifact hrun).2 with hd | ⟨x, hd⟩
    · rw [Except.ok.inj hd]
    · exact absurd hd (by simp)
  · exact absurd hr (by simp)

end Exec

end CliExecutionPlatform
