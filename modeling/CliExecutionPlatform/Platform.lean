/-
The platform as a shared state with atomic operations.

Everything that the running code shares is in `World`: the database, the disk,
the semaphores of the server processes, the processes started by the runner,
the drains it has left behind and the jobs whose orchestration was scheduled.
Code acts on the world by operations: database transactions (`DbOp`), methods of
the storage (`FsOp`) and everything that waits (`SysOp`).  An `Env` collects what
the outside decides about one operation: whether it fails and with what, the
clock, fresh identifiers, the answer of the language model, the behaviour of a
process.  `exec` is the meaning of the operations.

* a failed transaction leaves the database alone; a failed storage method
  leaves arbitrary contents, or nothing, in the trees it may write, and only
  there (`Remains`);
* `cell j w` — everything in the world that belongs to job `j`;
* `exec_frame` — an operation changes the cell of one job only, the one it
  `affects`.
-/
import CliExecutionPlatform.Database
import CliExecutionPlatform.Interleaving
import CliExecutionPlatform.Tool

open Files Process

namespace CliExecutionPlatform

open LocalStorage (root treeOf Storage)

/-! ### Operations -/

/-- Methods of `LocalStorageService`, and the two steps of the runner that touch
the workspace. -/
inductive FsOp
  | createWorkspace (j : Uuid)
  | createDirectory (j : Uuid) (relativePath : String)
  | writeFile (j : Uuid) (relativePath : String) (content : Content)
  | readFile (j : Uuid) (relativePath : String)
  | workspaceFileExists (j : Uuid) (relativePath : String)
  | workspaceFileSize (j : Uuid) (relativePath : String)
  | copyWorkspaceFile (source target : Uuid) (relativePath : String)
  | saveArtifact (j : Uuid) (relativePath : String)
  | removeCopy (j : Uuid) (relativePath : String)
  | beginAttempt (j : Uuid)
  | rollbackAttempt (j : Uuid) (token : String)
  | completeAttempt (j : Uuid) (token : String)
  | stage (j : Uuid)
  | copyOut (j : Uuid) (output : Option String) (file : TmpFile)

/-- Operations that wait or that concern the server process itself. -/
inductive SysOp
  | acquireGate (server : ℕ)
  | releaseGate (server : ℕ)
  | acquireCli (server : ℕ)
  | releaseCli (server : ℕ)
  | generatePlan (request : LLMRequest)
  | sleep (milliseconds : ℕ)
  | launch (args : List String) (staged : Staged)
  | killProcess (pid : ℕ)
  | waitProcess (pid : ℕ) (connected : Bool)
  | detach (orphan : Orphan)
  | takeOrphan (orphan : Orphan)
  | schedule (j : Uuid)

inductive Op
  | db (o : DbOp)
  | fs (o : FsOp)
  | sys (o : SysOp)

@[reducible] def FsOp.Val : FsOp → Type
  | readFile _ _ => List UInt8
  | workspaceFileExists _ _ => Bool
  | workspaceFileSize _ _ => ℕ
  | beginAttempt _ => String
  | stage _ => Staged
  | _ => Unit

@[reducible] def SysOp.Val : SysOp → Type
  | generatePlan _ => String
  | launch _ _ => ℕ × Behaviour
  | _ => Unit

@[reducible] def Op.Val : Op → Type
  | db o => o.Val
  | fs o => o.Val
  | sys o => o.Val

/-- Every operation can raise. -/
abbrev Res (o : Op) : Type := Except Exn o.Val

/-- The code of the platform: programs over these operations that may raise. -/
abbrev Task (α : Type) : Type := Fallible Op Res Exn α

/-- Perform one operation. -/
def perform (o : Op) : Task o.Val := ExceptT.mk (Prog.perform o)

/-! ### The world -/

structure World where
  db : Db
  fs : FileTree
  gate : ℕ → ℕ
  cli : ℕ → ℕ
  live : List ℕ
  orphans : List Orphan
  scheduled : List Uuid

/-- `MAX_CONCURRENT_JOBS` and the value of `_CLI_SEMAPHORE`. -/
def maxConcurrentJobs : ℕ := 2
def maxCliProcesses : ℕ := 2

/-- The file system that holds nothing but an empty base directory. -/
def FileTree.ofBase (base : Path) : FileTree where
  node := Tree.mkdirs (fun _ => none) base
  paths := base.inits
  mem_paths := by
    intro p hp
    rw [Tree.mkdirs] at hp
    by_cases h : p <+: base
    · exact (List.mem_inits _ _).mpr h
    · rw [if_neg h] at hp
      exact absurd rfl hp
  root_dir := by rw [Tree.mkdirs, if_pos List.nil_prefix]
  parent_dir := by
    intro p n hp
    rw [Tree.mkdirs] at hp ⊢
    by_cases h : p ++ [n] <+: base
    · rw [if_pos ((List.prefix_append p [n]).trans h)]
    · rw [if_neg h] at hp
      exact absurd rfl hp

/-- The world before the first request. -/
def World.initial (base : Path) : World where
  db := Db.empty
  fs := FileTree.ofBase base
  gate := fun _ => maxConcurrentJobs
  cli := fun _ => maxCliProcesses
  live := []
  orphans := []
  scheduled := []

/-- The class and text of an error raised by the database driver or by the
operating system. -/
structure Fault where
  name : String
  detail : String

/-- What a storage method that failed halfway has left of one tree that it
writes: the tree as it was, nothing, or anything else. -/
inductive Remains
  | untouched
  | removed
  | left (tree : FileTree)

/-- What the outside decides about one operation. -/
structure Env where
  fault : Option Fault
  cancel : Bool
  timedOut : Bool
  now : ℕ
  skip : ℕ
  fresh : Uuid
  pid : ℕ
  traversal : Traversal
  damage : Area → Remains
  answer : Except Exn String
  behaviour : List String → Staged → Behaviour

/-! ### Meaning of the operations -/

/-- The trees that a storage method may write. -/
def FsOp.writes : FsOp → List (Area × Uuid)
  | createWorkspace j => [(.jobs, j), (.artifacts, j)]
  | createDirectory j _ | writeFile j _ _ | copyWorkspaceFile _ j _ | copyOut j _ _ =>
    [(.jobs, j)]
  | saveArtifact j _ | removeCopy j _ => [(.artifacts, j)]
  | beginAttempt j | completeAttempt j _ => [(.snapshots, j)]
  | rollbackAttempt j _ => [(.jobs, j), (.artifacts, j), (.snapshots, j)]
  | readFile _ _ | workspaceFileExists _ _ | workspaceFileSize _ _ | stage _ => []

/-- The storage methods that remove directories. -/
def FsOp.removes : FsOp → Bool
  | rollbackAttempt _ _ | completeAttempt _ _ => true
  | _ => false

/-- What a method that failed halfway leaves: a tree can be gone only if the
method removes directories. -/
def FsOp.remains (o : FsOp) (damage : Area → Remains) (area : Area) : Remains :=
  match damage area with
  | .removed => if o.removes then .removed else .untouched
  | remains => remains

section Exec

variable (base : Path)

/-- The storage methods as programs on the disk. -/
def FsOp.program (tr : Traversal) (now : ℕ) (fresh : Uuid) : (o : FsOp) → Storage o.Val
  | createWorkspace j => LocalStorage.createWorkspace base j
  | createDirectory j rel => LocalStorage.createDirectory base j rel
  | writeFile j rel content => LocalStorage.writeFile base j rel content
  | readFile j rel => LocalStorage.readFile base j rel
  | workspaceFileExists j rel => LocalStorage.workspaceFileExists base j rel
  | workspaceFileSize j rel => LocalStorage.workspaceFileSize base j rel
  | copyWorkspaceFile source target rel => LocalStorage.copyWorkspaceFile base source target rel
  | saveArtifact j rel => LocalStorage.saveArtifact base j rel
  | removeCopy j rel => LocalStorage.removeCopy base j rel
  | beginAttempt j => LocalStorage.beginAttempt base tr fresh j
  | rollbackAttempt j token => LocalStorage.rollbackAttempt base tr j token
  | completeAttempt j token => LocalStorage.completeAttempt base j token
  | stage j => CliExecutionPlatform.stage base tr now j
  | copyOut j output file => CliExecutionPlatform.copyOut base j output file

/-- The disk with these remains at `r`.  The directories on the way to `r` may
have been created before the failure. -/
def Remains.at (remains : Remains) (r : Path) (fs : FileTree) : FileTree :=
  match remains with
  | untouched => fs
  | removed => ((fs.mkdirs r).getD fs).remove r
  | left tree => ((fs.mkdirs r).getD fs).graft r tree

/-- The disk after a storage method has failed halfway: anything may be in the
trees that it writes. -/
def damaged (damage : Area → Remains) (writes : List (Area × Uuid)) (fs : FileTree) :
    FileTree :=
  writes.foldl (fun fs w => (damage w.1).at (root base w.1 w.2) fs) fs

/-- `uuid4` does not give a token that is in use. -/
def FsOp.enabled (fresh : Uuid) : FsOp → FileTree → Bool
  | beginAttempt j, fs =>
    match LocalStorage.attemptPath base j fresh.str with
    | .ok snapshot => fs.node snapshot = none
    | .error _ => true
  | _, _ => true

def FsOp.run (e : Env) (o : FsOp) (fs : FileTree) : Option (Except Exn o.Val × FileTree) :=
  if o.enabled base e.fresh fs then
    match e.fault with
    | some f => some (.error (.os f.name f.detail), damaged base (o.remains e.damage) o.writes fs)
    | none => some (o.program base e.traversal e.now e.fresh fs)
  else none

def DbOp.exec (e : Env) (o : DbOp) (db : Db) : Option (Except Exn o.Val × Db) :=
  match e.fault with
  | some f => some (.error (.database f.name f.detail), db)
  | none => o.run e.now e.skip e.fresh db

/-- Take a slot of a semaphore, if there is one. -/
def takeSlot (slots : ℕ → ℕ) (server : ℕ) : Option (ℕ → ℕ) :=
  if 0 < slots server then some (Function.update slots server (slots server - 1)) else none

def giveSlot (slots : ℕ → ℕ) (server : ℕ) : ℕ → ℕ :=
  Function.update slots server (slots server + 1)

def queueTimeoutError : Exn :=
  .queueTimeout "Orchestration queue wait exceeded the configured timeout."

/-- The operations that wait.  One that cannot go on yet has no outcome. -/
def SysOp.exec (e : Env) : (o : SysOp) → World → Option (Except Exn o.Val × World)
  | acquireGate server, w =>
    if e.cancel then some (.error .cancelled, w)
    else if e.timedOut then some (.error queueTimeoutError, w)
    else (takeSlot w.gate server).map fun g => (.ok (), { w with gate := g })
  | releaseGate server, w => some (.ok (), { w with gate := giveSlot w.gate server })
  | acquireCli server, w =>
    if e.cancel then some (.error .cancelled, w)
    else (takeSlot w.cli server).map fun c => (.ok (), { w with cli := c })
  | releaseCli server, w => some (.ok (), { w with cli := giveSlot w.cli server })
  | generatePlan _, w => some (if e.cancel then .error .cancelled else e.answer, w)
  | sleep _, w => some (if e.cancel then .error .cancelled else .ok (), w)
  | launch args staged, w =>
    if e.cancel then some (.error .cancelled, w)
    else match e.fault with
      | some f => some (.error (.os f.name f.detail), w)
      | none =>
        if e.pid ∈ w.live then none
        else some (.ok (e.pid, e.behaviour args staged), { w with live := e.pid :: w.live })
  | killProcess _, w => some (.ok (), w)
  | waitProcess pid connected, w =>
    if e.cancel then some (.error .cancelled, w)
    -- `wait` returns when the process has exited and all its pipes are disconnected
    else if connected then none
    else some (.ok (), { w with live := w.live.erase pid })
  | detach orphan, w => some (.ok (), { w with orphans := orphan :: w.orphans })
  | takeOrphan orphan, w =>
    if orphan ∈ w.orphans then some (.ok (), { w with orphans := w.orphans.erase orphan })
    else none
  | schedule j, w => some (.ok (), { w with scheduled := j :: w.scheduled })

/-- The meaning of all operations. -/
def exec (e : Env) : (o : Op) → World → Option (Res o × World)
  | .db o, w => (o.exec e w.db).map fun r => (r.1, { w with db := r.2 })
  | .fs o, w => (o.run base e w.fs).map fun r => (r.1, { w with fs := r.2 })
  | .sys o, w => o.exec e w

end Exec

/-! ### The cell of a job -/

/-- What belongs to one job: its rows, whether its orchestration was scheduled,
and its three trees. -/
structure Cell where
  row : Option JobRow
  artifacts : List ArtifactRow
  events : List EventRow
  scheduled : Bool
  workspace : Tree
  promoted : Tree
  snapshots : Tree

def cell (base : Path) (j : Uuid) (w : World) : Cell where
  row := w.db.job j
  artifacts := w.db.artifactsOf j
  events := w.db.eventsOf j
  scheduled := decide (j ∈ w.scheduled)
  workspace := treeOf base .jobs j w.fs
  promoted := treeOf base .artifacts j w.fs
  snapshots := treeOf base .snapshots j w.fs

/-- The job whose trees a storage method may change. -/
def FsOp.affects : FsOp → Option Uuid
  | createWorkspace j | createDirectory j _ | writeFile j _ _ | copyWorkspaceFile _ j _
  | copyOut j _ _ | saveArtifact j _ | removeCopy j _ | beginAttempt j | completeAttempt j _
  | rollbackAttempt j _ => some j
  | readFile _ _ | workspaceFileExists _ _ | workspaceFileSize _ _ | stage _ => none

def SysOp.affects : SysOp → Option Uuid
  | schedule j => some j
  | _ => none

/-- The job whose cell an operation with this result may have changed. -/
def Op.affects : (o : Op) → Res o → Option Uuid
  | .db o, r => o.affects r
  | .fs o, _ => o.affects
  | .sys o, _ => o.affects

/-! ### Frame -/

section Frame

variable {base : Path} {e : Env} {k : Uuid}

/-- A transaction runs, or the database raises and nothing has changed. -/
theorem DbOp.exec_cases {o : DbOp} {db db' : Db} {r : Except Exn o.Val}
    (h : o.exec e db = some (r, db')) :
    o.run e.now e.skip e.fresh db = some (r, db') ∨
      (∃ name detail, r = .error (.database name detail)) ∧ db' = db := by
  rw [DbOp.exec] at h
  rcases hf : e.fault with _ | f
  · rw [hf] at h
    exact .inl h
  · rw [hf] at h
    obtain ⟨rfl, rfl⟩ := Prod.mk.inj (Option.some.inj h)
    exact .inr ⟨⟨f.name, f.detail, rfl⟩, rfl⟩

theorem DbOp.exec_frame {o : DbOp} {db db' : Db} {r : Except Exn o.Val}
    (h : o.exec e db = some (r, db')) (hk : o.affects r ≠ some k) :
    DbOp.SameRows k db db' := by
  rcases DbOp.exec_cases h with hrun | ⟨-, rfl⟩
  · exact DbOp.run_frame hrun hk
  · exact .refl k _

theorem root_apart_of_not_mem {a b : Area} {j : Uuid} {writes : List (Area × Uuid)}
    (h : (a, k) ∉ writes) (hmem : (b, j) ∈ writes) :
    Apart (root base a k) (root base b j) := by
  refine LocalStorage.root_apart ?_
  by_contra hcon
  rw [not_or, not_not, not_not] at hcon
  rw [hcon.1, hcon.2] at h
  exact h hmem

/-- The directories that a storage method may write. -/
def FsOp.roots (base : Path) (o : FsOp) : List Path := o.writes.map fun w => root base w.1 w.2

/-- A storage method that does not remove directories stays within the trees that
it may write, and spares all directories. -/
theorem FsOp.program_spares {tr : Traversal} {now : ℕ} {fresh : Uuid} (o : FsOp)
    (ho : o.removes = false) : Disk.Spares (o.roots base) (o.program base tr now fresh) := by
  have mem : ∀ {b : Area} {j : Uuid}, (b, j) ∈ o.writes → root base b j ∈ o.roots base :=
    fun hmem => List.mem_map.mpr ⟨_, hmem, rfl⟩
  cases o with
  | createWorkspace j =>
    exact LocalStorage.createWorkspace_spares (mem (by simp [FsOp.writes]))
      (mem (by simp [FsOp.writes]))
  | createDirectory j rel =>
    exact LocalStorage.createDirectory_spares (mem (by simp [FsOp.writes])) rel
  | writeFile j rel content =>
    exact LocalStorage.writeFile_spares (mem (by simp [FsOp.writes])) rel content
  | readFile j rel => exact LocalStorage.readFile_spares rel
  | workspaceFileExists j rel => exact LocalStorage.workspaceFileExists_spares rel
  | workspaceFileSize j rel => exact LocalStorage.workspaceFileSize_spares rel
  | copyWorkspaceFile source target rel =>
    exact LocalStorage.copyWorkspaceFile_spares (mem (by simp [FsOp.writes])) rel
  | saveArtifact j rel =>
    exact LocalStorage.saveArtifact_spares (mem (by simp [FsOp.writes])) rel
  | removeCopy j rel =>
    exact LocalStorage.removeCopy_spares (mem (by simp [FsOp.writes])) rel
  | beginAttempt j =>
    exact LocalStorage.beginAttempt_spares (mem (by simp [FsOp.writes])) tr fresh
  | rollbackAttempt j token => exact absurd ho (by simp [FsOp.removes])
  | completeAttempt j token => exact absurd ho (by simp [FsOp.removes])
  | stage j => exact stage_spares _
  | copyOut j output file => exact copyOut_spares (mem (by simp [FsOp.writes])) output file

/-- A storage method stays within the trees that it may write. -/
theorem FsOp.program_stays {tr : Traversal} {now : ℕ} {fresh : Uuid} (o : FsOp) :
    Disk.Stays (o.roots base) (o.program base tr now fresh) := by
  have mem : ∀ {b : Area} {j : Uuid}, (b, j) ∈ o.writes → root base b j ∈ o.roots base :=
    fun hmem => List.mem_map.mpr ⟨_, hmem, rfl⟩
  cases ho : o.removes with
  | false => exact (FsOp.program_spares o ho).stays
  | true =>
    cases o with
    | rollbackAttempt j token =>
      exact LocalStorage.rollbackAttempt_stays (mem (by simp [FsOp.writes]))
        (mem (by simp [FsOp.writes])) (mem (by simp [FsOp.writes])) tr token
    | completeAttempt j token =>
      exact LocalStorage.completeAttempt_stays (mem (by simp [FsOp.writes])) token
    | _ => exact absurd ho (by simp [FsOp.removes])

theorem kept_mkdirs_getD {roots : List Path} {r : Path} (hr : r ∈ roots) (fs : FileTree) :
    Tree.Kept roots fs.node ((fs.mkdirs r).getD fs).node := by
  rcases hm : fs.mkdirs r with _ | fs₁
  · exact .refl _ _
  · exact Disk.kept_mkdirs hm hr (.inl (List.prefix_refl r))

/-- What remains of one tree changes nothing outside it. -/
theorem Remains.outside_at {roots : List Path} {r : Path} (hr : r ∈ roots) (remains : Remains)
    (fs : FileTree) : Tree.Outside roots fs.node (remains.at r fs).node := by
  have hmade := (kept_mkdirs_getD hr fs).outside
  cases remains with
  | untouched => exact .refl _ _
  | removed => exact hmade.trans (Tree.outside_remove hr (List.prefix_refl r))
  | left tree =>
    refine hmade.trans ?_
    show Tree.Outside roots _ (((fs.mkdirs r).getD fs).graft r tree).node
    rw [FileTree.graft]
    by_cases hdir : ((fs.mkdirs r).getD fs).node r = some .dir
    · rw [dif_pos hdir]
      exact Tree.outside_graft _ hr (List.prefix_refl r)
    · rw [dif_neg hdir]
      exact .refl _ _

theorem damaged_outside {roots : List Path} {damage : Area → Remains}
    {writes : List (Area × Uuid)} (h : ∀ w ∈ writes, root base w.1 w.2 ∈ roots) (fs : FileTree) :
    Tree.Outside roots fs.node (damaged base damage writes fs).node := by
  induction writes generalizing fs with
  | nil => exact .refl _ _
  | cons w rest ih =>
    exact (Remains.outside_at (h w List.mem_cons_self) _ fs).trans
      (ih (fun w' hw' => h w' (List.mem_cons_of_mem _ hw')) _)

/-- A storage method runs its program, or the operating system raises and leaves what
remains of its trees. -/
theorem FsOp.run_cases {o : FsOp} {fs fs' : FileTree} {r : Except Exn o.Val}
    (h : o.run base e fs = some (r, fs')) :
    o.enabled base e.fresh fs = true ∧
      (o.program base e.traversal e.now e.fresh fs = (r, fs') ∨
        (∃ name detail, r = .error (.os name detail)) ∧
          fs' = damaged base (o.remains e.damage) o.writes fs) := by
  rw [FsOp.run] at h
  by_cases hen : o.enabled base e.fresh fs
  · rw [if_pos hen] at h
    refine ⟨hen, ?_⟩
    rcases hf : e.fault with _ | f
    · rw [hf] at h
      exact .inl (Option.some.inj h)
    · rw [hf] at h
      obtain ⟨rfl, rfl⟩ := Prod.mk.inj (Option.some.inj h)
      exact .inr ⟨⟨f.name, f.detail, rfl⟩, rfl⟩
  · rw [if_neg hen] at h
    exact absurd h (by simp)

/-- Whether it returns or raises, a storage method stays within the trees that
it may write. -/
theorem FsOp.run_outside {o : FsOp} {fs fs' : FileTree} {r : Except Exn o.Val}
    (h : o.run base e fs = some (r, fs')) :
    Tree.Outside (o.roots base) fs.node fs'.node := by
  rcases (FsOp.run_cases h).2 with hrun | ⟨-, rfl⟩
  · have hstays := @FsOp.program_stays base e.traversal e.now e.fresh o fs
    rw [hrun] at hstays
    exact hstays
  · exact damaged_outside (fun w hw => List.mem_map.mpr ⟨w, hw, rfl⟩) fs

/-- It keeps the trees that are not among those it may write. -/
theorem FsOp.run_frame {a : Area} {o : FsOp} {fs fs' : FileTree} {r : Except Exn o.Val}
    (h : o.run base e fs = some (r, fs')) (hk : (a, k) ∉ o.writes) :
    treeOf base a k fs' = treeOf base a k fs := by
  refine (FsOp.run_outside h).below fun r' hr' => ?_
  obtain ⟨w, hw, rfl⟩ := List.mem_map.mp hr'
  exact root_apart_of_not_mem hk hw

theorem FsOp.not_mem_writes {o : FsOp} (h : o.affects ≠ some k) (a : Area) :
    (a, k) ∉ o.writes := by
  intro hmem
  cases o <;> simp [FsOp.writes, FsOp.affects] at hmem h <;> grind

/-- The parts of the world in which jobs have data are the same. -/
def World.SameData (w w' : World) : Prop :=
  w'.db = w.db ∧ w'.fs = w.fs ∧ w'.scheduled = w.scheduled

theorem World.SameData.of_some {α : Type} {w w₁ w' : World} {x r : α}
    (h : some (x, w₁) = some (r, w')) (hw : w.SameData w₁) : w.SameData w' := by
  rwa [← (Prod.mk.inj (Option.some.inj h)).2]

/-- Operations that wait do not touch data; only scheduling adds a job. -/
theorem SysOp.exec_sameData {o : SysOp} {w w' : World} {r : Except Exn o.Val}
    (h : o.exec e w = some (r, w')) (hs : o.affects = none) : w.SameData w' := by
  -- Slots, processes and orphans are all that these operations change.
  have same : ∀ gate cli live orphans,
      w.SameData { w with gate, cli, live, orphans } := fun _ _ _ _ => ⟨rfl, rfl, rfl⟩
  cases o with
  | schedule j => exact absurd hs (by simp [SysOp.affects])
  | acquireGate server =>
    simp only [SysOp.exec] at h
    by_cases hc : e.cancel
    · rw [if_pos hc] at h
      exact .of_some h (same ..)
    · rw [if_neg hc] at h
      by_cases ht : e.timedOut
      · rw [if_pos ht] at h
        exact .of_some h (same ..)
      · rw [if_neg ht] at h
        obtain ⟨g, -, hg⟩ := Option.map_eq_some_iff.mp h
        exact .of_some (congrArg some hg) (same ..)
  | releaseGate server => exact .of_some h (same ..)
  | acquireCli server =>
    simp only [SysOp.exec] at h
    by_cases hc : e.cancel
    · rw [if_pos hc] at h
      exact .of_some h (same ..)
    · rw [if_neg hc] at h
      obtain ⟨g, -, hg⟩ := Option.map_eq_some_iff.mp h
      exact .of_some (congrArg some hg) (same ..)
  | releaseCli server => exact .of_some h (same ..)
  | generatePlan request => exact .of_some h (same ..)
  | sleep ms => exact .of_some h (same ..)
  | launch args staged =>
    simp only [SysOp.exec] at h
    by_cases hc : e.cancel
    · rw [if_pos hc] at h
      exact .of_some h (same ..)
    · rw [if_neg hc] at h
      rcases hf : e.fault with _ | f
      · simp only [hf] at h
        by_cases hp : e.pid ∈ w.live
        · rw [if_pos hp] at h
          exact absurd h (by simp)
        · rw [if_neg hp] at h
          exact .of_some h (same ..)
      · simp only [hf] at h
        exact .of_some h (same ..)
  | killProcess pid => exact .of_some h (same ..)
  | waitProcess pid connected =>
    simp only [SysOp.exec] at h
    by_cases hc : e.cancel
    · rw [if_pos hc] at h
      exact .of_some h (same ..)
    · rw [if_neg hc] at h
      by_cases hp : connected
      · rw [if_pos hp] at h
        exact absurd h (by simp)
      · rw [if_neg hp] at h
        exact .of_some h (same ..)
  | detach orphan => exact .of_some h (same ..)
  | takeOrphan orphan =>
    simp only [SysOp.exec] at h
    by_cases ho : orphan ∈ w.orphans
    · rw [if_pos ho] at h
      exact .of_some h (same ..)
    · rw [if_neg ho] at h
      exact absurd h (by simp)

theorem World.SameData.cell_eq {w w' : World} (h : w.SameData w') :
    cell base k w' = cell base k w := by
  simp only [cell, h.1, h.2.1, h.2.2]

variable {w w' : World}

/-- Operations that wait leave the database alone. -/
theorem SysOp.exec_db {o : SysOp} {r : Except Exn o.Val}
    (h : o.exec e w = some (r, w')) : w'.db = w.db := by
  rcases hs : o.affects with _ | k
  · exact (SysOp.exec_sameData h hs).1
  · cases o with
    | schedule i =>
      obtain ⟨-, rfl⟩ := Prod.mk.inj (Option.some.inj h)
      rfl
    | _ => exact absurd hs (by simp [SysOp.affects])

theorem exec_db {o : DbOp} {r : Except Exn o.Val} (h : exec base e (.db o) w = some (r, w')) :
    ∃ db, o.exec e w.db = some (r, db) ∧ w' = { w with db := db } := by
  obtain ⟨⟨r', db⟩, hrun, heq⟩ := Option.map_eq_some_iff.mp h
  obtain ⟨rfl, rfl⟩ := Prod.mk.inj heq
  exact ⟨db, hrun, rfl⟩

/-- A transaction has run, or the database has raised and nothing has changed. -/
theorem exec_db_cases {o : DbOp} {r : Except Exn o.Val}
    (h : exec base e (.db o) w = some (r, w')) :
    (∃ db, o.run e.now e.skip e.fresh w.db = some (r, db) ∧ w' = { w with db := db }) ∨
      (∃ name detail, r = .error (.database name detail)) ∧ w' = w := by
  obtain ⟨db, hexec, rfl⟩ := exec_db h
  rcases DbOp.exec_cases hexec with hrun | ⟨hr, rfl⟩
  · exact .inl ⟨db, hrun, rfl⟩
  · exact .inr ⟨hr, rfl⟩

theorem exec_fs {o : FsOp} {r : Except Exn o.Val} (h : exec base e (.fs o) w = some (r, w')) :
    ∃ fs, o.run base e w.fs = some (r, fs) ∧ w' = { w with fs := fs } := by
  obtain ⟨⟨r', fs⟩, hrun, heq⟩ := Option.map_eq_some_iff.mp h
  obtain ⟨rfl, rfl⟩ := Prod.mk.inj heq
  exact ⟨fs, hrun, rfl⟩

/-- **Frame.**  An operation changes nothing in the cell of a job that it does
not affect. -/
theorem exec_frame {o : Op} {r : Res o} (h : exec base e o w = some (r, w'))
    (hk : o.affects r ≠ some k) : cell base k w' = cell base k w := by
  cases o with
  | db o =>
    obtain ⟨db, hrun, rfl⟩ := exec_db h
    obtain ⟨hjob, harts, hevents⟩ := DbOp.exec_frame hrun hk
    simp only [cell, hjob, harts, hevents]
  | fs o =>
    obtain ⟨fs, hrun, rfl⟩ := exec_fs h
    have htree := fun a => @FsOp.run_frame base e k a o _ _ _ hrun (FsOp.not_mem_writes hk a)
    simp only [cell, htree]
  | sys o =>
    rcases hs : o.affects with _ | j
    · exact (SysOp.exec_sameData h hs).cell_eq
    · cases o with
      | schedule i =>
        obtain ⟨-, rfl⟩ := Prod.mk.inj (Option.some.inj h)
        have hne : k ≠ i := fun heq => hk (congrArg some heq.symm)
        simp [cell, hne]
      | _ => exact absurd hs (by simp [SysOp.affects])

end Frame

end CliExecutionPlatform
