/-
What a run does to the files that its job has inherited.

A job that has a parent starts with copies of `model.scad` and `design-spec.md` of the
parent.  No action, no file that a tool leaves and no promotion can take these files away
or put a directory in their place; an attempt that fails halfway may leave anything, but
it is rolled back before the next one, and a rollback that fails is not retried.

* `FsOp.program_filesKept` — the methods that write the workspace keep its regular files;
* `contextProtocol` — what the operations of a run mean for the inherited files, and when
  it may complete its job;
* `attempting_body`, `resting_generateActions`, `inherited_context` — an attempt, the
  retries, and the copies before them;
* **`run_obeys_context`** — the run completes its job only if the files were inherited and
  no attempt has lost them.
-/
import CliExecutionPlatform.RunResults

open Files Process

namespace CliExecutionPlatform

open LocalStorage (root)
open JobOrchestratorService (inheritedFiles)

/-! ### Methods that write the workspace -/

namespace LocalStorage

variable {base : Path} {j : Uuid}

theorem writeBelow_filesKept (target : Path) (data : List UInt8) :
    Disk.Follows Tree.FilesKept (writeBelow target data) :=
  Disk.follows_bind .trans (Disk.filesKept_mkdir _ _) fun _ => Disk.filesKept_writeBytes _ _ _

theorem createDirectory_filesKept (rel : String) :
    Disk.Follows Tree.FilesKept (createDirectory base j rel) :=
  Disk.follows_ofExcept_bind .refl fun _ _ => Disk.filesKept_mkdir _ _

theorem writeFile_filesKept (rel : String) (content : Content) :
    Disk.Follows Tree.FilesKept (writeFile base j rel content) :=
  Disk.follows_ofExcept_bind .refl fun _ _ => writeBelow_filesKept _ _

theorem copyWorkspaceFile_filesKept (source : Uuid) (rel : String) :
    Disk.Follows Tree.FilesKept (copyWorkspaceFile base source j rel) :=
  Disk.follows_ofExcept_bind .refl fun _ _ =>
    Disk.follows_bind .trans (follows_contents .refl _ _) fun _ =>
      Disk.follows_ofExcept_bind .refl fun _ _ => writeBelow_filesKept _ _

end LocalStorage

theorem copyOut_filesKept {base : Path} {j : Uuid} (output : Option String) (f : TmpFile) :
    Disk.Follows Tree.FilesKept (copyOut base j output f) := by
  rw [copyOut]
  refine Disk.follows_ite ?_ (Disk.follows_raise .refl _)
  refine Disk.follows_bind .trans (Disk.follows_lookup .refl _) fun n => ?_
  -- A target that exists is overwritten only if it is a regular file.
  cases n with
  | none => exact LocalStorage.writeBelow_filesKept _ _
  | some n =>
    exact Disk.follows_ite (LocalStorage.writeBelow_filesKept _ _) (Disk.follows_raise .refl _)

/-- A method that writes a workspace turns no regular file into anything else. -/
theorem FsOp.program_filesKept {base : Path} {tr : Traversal} {now : ℕ} {fresh : Uuid}
    {o : FsOp} {k : Uuid} (ho : o.writes = [(.jobs, k)]) :
    Disk.Follows Tree.FilesKept (o.program base tr now fresh) := by
  cases o with
  | createDirectory i rel => exact LocalStorage.createDirectory_filesKept rel
  | writeFile i rel content => exact LocalStorage.writeFile_filesKept rel content
  | copyWorkspaceFile source i rel => exact LocalStorage.copyWorkspaceFile_filesKept source rel
  | copyOut i output f => exact copyOut_filesKept output f
  | _ => exact absurd ho (by simp [FsOp.writes])

/-- These files are regular files at the top of `W`. -/
def HasFiles (files : List String) (W : Tree) : Prop :=
  ∀ f ∈ files, ∃ data, W [f] = some (.file data)

theorem HasFiles.kept {files : List String} {W W' : Tree} (h : HasFiles files W)
    (hW : Tree.FilesKept W W') : HasFiles files W' := by
  intro f hf
  obtain ⟨data, hdata⟩ := h f hf
  exact hW [f] data hdata

/-- A copy of a tree has the same files. -/
theorem HasFiles.copied {files : List String} {W : Tree} (h : HasFiles files W) :
    HasFiles files W.copied := by
  intro f hf
  rw [Tree.copied, if_neg (List.cons_ne_nil f [])]
  exact h f hf

section Exec

variable {base : Path} {e : Env} {j : Uuid} {w w' : World} {files : List String}

/-- A method that wrote the workspace and returned has kept its files. -/
theorem exec_hasFiles {o : FsOp} {a : o.Val} {k : Uuid} (ho : o.writes = [(.jobs, k)])
    (h : exec base e (.fs o) w = some (.ok a, w'))
    (hfiles : HasFiles files (held base j w).workspace) :
    HasFiles files (held base j w').workspace := by
  have hkept := @FsOp.program_filesKept base e.traversal e.now e.fresh o k ho w.fs
  rw [(exec_fs_ok h).2] at hkept
  exact hfiles.kept (hkept.below (root base .jobs j))

/-- The file that was copied is there, beside the others. -/
theorem exec_copied {source : Uuid} {f : String} {u : Unit}
    (hf : f ∈ inheritedFiles)
    (h : exec base e (.fs (.copyWorkspaceFile source j f)) w = some (.ok u, w'))
    (hfiles : HasFiles files (held base j w).workspace) :
    HasFiles (f :: files) (held base j w').workspace := by
  intro g hg
  rcases List.mem_cons.mp hg with rfl | hg
  -- The names of the inherited files are single segments: the copy lies at the top.
  · obtain ⟨q, q', data, -, hq', -, hheld⟩ := exec_copyWorkspaceFile h
    rw [validateSafePath_inherited hf] at hq'
    obtain rfl : [g] = q' := List.append_cancel_left (Except.ok.inj hq')
    refine ⟨data, ?_⟩
    rw [hheld]
    show ((held base j w).workspace.writeAt [g] data) [g] = _
    rw [Tree.writeAt_apply, if_pos rfl]
  · exact exec_hasFiles rfl h hfiles g hg

/-- The snapshot of `token` has these files. -/
def Saved (base : Path) (j : Uuid) (w : World) (token : String) (files : List String) : Prop :=
  ∃ W P, HasSnapshot base j (held base j w) token W P ∧ HasFiles files W

theorem Saved.of_eq {token : String} (h : Saved base j w token files)
    (hheld : (held base j w').snapshots = (held base j w).snapshots) :
    Saved base j w' token files := by
  obtain ⟨W, P, ⟨q, hq, hjobs, harts⟩, hfiles⟩ := h
  exact ⟨W, P, ⟨q, hq, by rw [hheld, hjobs], by rw [hheld, harts]⟩, hfiles⟩

theorem exec_saved {token : String}
    (h : exec base e (.fs (.beginAttempt j)) w = some (.ok token, w'))
    (hfiles : HasFiles files (held base j w).workspace) : Saved base j w' token files :=
  ⟨_, _, exec_beginAttempt h, hfiles⟩

theorem exec_rolledBack {token : String} {u : Unit} (hsaved : Saved base j w token files)
    (h : exec base e (.fs (.rollbackAttempt j token)) w = some (.ok u, w')) :
    HasFiles files (held base j w').workspace := by
  obtain ⟨W, P, hsnap, hfiles⟩ := hsaved
  -- The workspace after a rollback is a copy of the one in the snapshot.
  rw [(exec_rollbackAttempt hsnap h).1]
  exact hfiles.copied

end Exec

/-! ### The protocol of the inherited files -/

/-- What the run of a job knows about the inherited files: nothing before it has read its
row; that the job has no parent; that these files are in the workspace, between two
attempts, within the attempt of `token`, or only in the snapshot of the attempt, after it
has failed; or that they may be lost.  No run comes to the phase `impossible`. -/
inductive ContextPhase
  | waiting
  | started
  | free
  | ready (files : List String)
  | trying (token : String) (files : List String)
  | damaged (token : String) (files : List String)
  | lost
  | impossible

namespace ContextPhase

def start : ContextPhase → ContextPhase
  | waiting => started
  | q => q

def readRow (parent : Option Uuid) : ContextPhase → ContextPhase
  | started => if parent = none then free else ready []
  | q => q

/-- After the copy of a file of the parent. -/
def copyFile (f : String) (r : Except Exn Unit) : ContextPhase → ContextPhase
  | ready files => match r with
    | .ok _ => if f ∈ inheritedFiles then ready (f :: files) else lost
    | .error _ => lost
  | trying _ _ | damaged _ _ => lost
  | q => q

def snapshot (r : Except Exn String) : ContextPhase → ContextPhase
  | ready files => match r with
    | .ok token => trying token files
    | .error _ => ready files
  | trying _ _ | damaged _ _ => lost
  | q => q

/-- After a write to the workspace. -/
def write {α : Type} (r : Except Exn α) : ContextPhase → ContextPhase
  | ready files => match r with
    | .ok _ => ready files
    | .error _ => lost
  | trying token files => match r with
    | .ok _ => trying token files
    | .error _ => damaged token files
  | q => q

/-- After the rollback of the session of an attempt, which keeps the files; only the
database makes it fail. -/
def session (r : Except Exn Unit) : ContextPhase → ContextPhase
  | trying token files => match r with
    | .ok _ => trying token files
    | .error x => if x.fatal then trying token files else impossible
  | damaged token files => match r with
    | .ok _ => damaged token files
    | .error x => if x.fatal then damaged token files else impossible
  | q => q

/-- After a rollback to these files; only the operating system makes it fail. -/
def restored (files : List String) : Except Exn Unit → ContextPhase
  | .ok _ => ready files
  | .error x => if x.isOSError then lost else impossible

def rollback (token : String) (r : Except Exn Unit) : ContextPhase → ContextPhase
  | trying token' files | damaged token' files =>
    if token = token' then restored files r else lost
  | ready _ => lost
  | q => q

def complete : ContextPhase → ContextPhase
  | trying _ files => ready files
  | damaged _ _ => lost
  | q => q

/-- The job may be completed. -/
def Equipped : ContextPhase → Prop
  | free | impossible => True
  | ready files => ∀ f ∈ inheritedFiles, f ∈ files
  | _ => False

end ContextPhase

/-- The protocol of the runs of job `j`, as far as the inherited files are concerned. -/
def contextProtocol (j : Uuid) : Protocol Op Res ContextPhase where
  next q
    | .db (.transition k _ .running _ _), .ok true => if k = j then q.start else q
    | .db (.getJob k), .ok (some record) => if k = j then q.readRow record.parentJobId else q
    | .fs (.copyWorkspaceFile _ _ f), r => q.copyFile f r
    | .fs (.beginAttempt _), r => q.snapshot r
    | .fs (.createDirectory _ _), r => q.write r
    | .fs (.writeFile _ _ _), r => q.write r
    | .fs (.copyOut _ _ _), r => q.write r
    | .db (.rollbackSession _), r => q.session r
    | .fs (.rollbackAttempt _ token), r => q.rollback token r
    | .fs (.completeAttempt _ _), _ => q.complete
    | _, _ => q
  allows q
    | .db (.transition k _ .completed _ _) => k = j → q.Equipped
    | _ => True

/-- Operations that the protocol passes over. -/
def Op.Aside : Op → Prop
  | .db (.transition _ _ target _ _) => target = .failed
  | .db (.getJob _) | .db (.rollbackSession _) => False
  | .db _ | .sys _ => True
  | .fs (.readFile _ _) | .fs (.saveArtifact _ _) | .fs (.removeCopy _ _) | .fs (.stage _) => True
  | .fs _ => False

section Protocol

variable {parts : Parts} {j : Uuid} {server : ℕ} {files : List String} {token : String}

theorem contextProtocol_aside {o : Op} (ho : o.Aside) (q : ContextPhase) :
    (contextProtocol j).allows q o ∧ ∀ r, (contextProtocol j).next q o r = q := by
  cases o with
  | sys o => exact ⟨trivial, fun _ => rfl⟩
  | db o =>
    cases o with
    | transition k expected target code message =>
      obtain rfl : target = .failed := ho
      exact ⟨trivial, fun _ => rfl⟩
    | getJob k => exact absurd ho id
    | rollbackSession k => exact absurd ho id
    | _ => exact ⟨trivial, fun _ => rfl⟩
  | fs o =>
    cases o with
    | readFile k rel => exact ⟨trivial, fun _ => rfl⟩
    | saveArtifact k rel => exact ⟨trivial, fun _ => rfl⟩
    | removeCopy k rel => exact ⟨trivial, fun _ => rfl⟩
    | stage k => exact ⟨trivial, fun _ => rfl⟩
    | _ => exact absurd ho id

theorem OfProcess.aside {o : Op} (ho : OfProcess j o) : o.Aside := by
  cases o with
  | sys o => trivial
  | fs o => exact absurd ho id
  | db o =>
    cases o with
    | logEvents k rows => trivial
    | _ => exact absurd ho id

/-- A program that the protocol passes over. -/
theorem obeys_aside {α : Type} {p : Prog Op Res α} (q : ContextPhase) (hp : Calls Op.Aside p) :
    Obeys (contextProtocol j) (fun _ q' => q' = q) p q :=
  obeys_of_calls hp fun _ ho => contextProtocol_aside ho q

/-- A phase that is never left and in which the job may be completed. -/
def ContextPhase.Final (q : ContextPhase) : Prop := q = .free ∨ q = .impossible

theorem next_final {q : ContextPhase} (hq : q.Final) (o : Op) (r : Res o) :
    (contextProtocol j).next q o r = q := by
  -- Every clause of the protocol keeps the phases without files as they are.
  have hkeep : q.start = q ∧ (∀ parent, q.readRow parent = q) ∧ (∀ f r, q.copyFile f r = q) ∧
      (∀ r, q.snapshot r = q) ∧ (∀ r : Except Exn Unit, q.write r = q) ∧
      (∀ r, q.session r = q) ∧ (∀ token r, q.rollback token r = q) ∧ q.complete = q := by
    rcases hq with rfl | rfl <;>
      exact ⟨rfl, fun _ => rfl, fun _ _ => rfl, fun _ => rfl, fun _ => rfl, fun _ => rfl,
        fun _ _ => rfl, rfl⟩
  obtain ⟨hstart, hread, hcopy, hsnap, hwrite, hsession, hroll, hcomplete⟩ := hkeep
  unfold contextProtocol
  dsimp only
  split <;> simp only [hstart, hread, hcopy, hsnap, hwrite, hsession, hroll, hcomplete, ite_self]

/-- In a final phase everything goes. -/
theorem obeys_final {α : Type} {Post : α → ContextPhase → Prop} {q : ContextPhase}
    (hq : q.Final) (hpost : ∀ a, Post a q) (p : Prog Op Res α) :
    Obeys (contextProtocol j) Post p q := by
  refine obeys_sink (fun o => ?_) (next_final hq) hpost p
  have hequipped : q.Equipped := by
    rcases hq with rfl | rfl <;> trivial
  unfold contextProtocol
  dsimp only
  split
  · exact fun _ => hequipped
  · trivial

/-! ### The run follows the protocol -/

/-- Within the attempt of `token`: as long as nothing was raised, all files are in the
workspace. -/
def Attempting {α : Type} (token : String) (files : List String) :
    Except Exn α → ContextPhase → Prop
  | .ok _, q => q = .trying token files
  | .error _, q => q = .trying token files ∨ q = .damaged token files

/-- An operation of the attempt that the protocol passes over. -/
theorem attempting_aside {α : Type} {x : Task α} (hx : Calls Op.Aside x.run) :
    Obeys (contextProtocol j) (Attempting token files) x.run (.trying token files) := by
  refine (obeys_aside _ hx).mono ?_
  rintro (e | a) _ rfl
  · exact .inl rfl
  · rfl

theorem attempting_bind {α β : Type} {x : Task α} {f : α → Task β}
    (hx : Obeys (contextProtocol j) (Attempting token files) x.run (.trying token files))
    (hf : ∀ a, Obeys (contextProtocol j) (Attempting token files) (f a).run
      (.trying token files)) :
    Obeys (contextProtocol j) (Attempting token files) (x >>= f).run (.trying token files) := by
  refine obeys_bindE hx ?_ fun _ _ h => h
  rintro a _ rfl
  exact hf a

theorem attempting_write (r : Except Exn Unit) :
    Attempting token files r (ContextPhase.write r (.trying token files)) := by
  cases r with
  | ok u => rfl
  | error e => exact .inr rfl

theorem attempting_copyOutAll (output : Option String) (changed : List TmpFile) :
    Obeys (contextProtocol j) (Attempting token files) (Runner.copyOutAll j output changed).run
      (.trying token files) := by
  induction changed with
  | nil => exact obeys_ret rfl
  | cons f rest ih =>
    refine attempting_bind ?_ fun _ => ih
    exact obeys_op (P := contextProtocol j) (o := .fs (.copyOut j output f)) trivial
      fun r => attempting_write r

theorem attempting_runTool (args : List String) :
    Obeys (contextProtocol j) (Attempting token files) (Runner.runTool parts server j args).run
      (.trying token files) := by
  refine attempting_bind (attempting_aside (calls_ofExcept _)) fun _ => ?_
  refine attempting_bind (attempting_aside (calls_op (o := .sys (.acquireCli server)) trivial))
    fun _ => ?_
  -- Staging and the process itself touch no workspace; only the copies back do.
  have hexecute : Obeys (contextProtocol j) (Attempting token files)
      (Runner.executeWithTimeout parts j args).run (.trying token files) := by
    refine attempting_bind (attempting_aside (calls_op (o := .fs (.stage j)) trivial))
      fun staged => ?_
    refine attempting_bind (attempting_aside (calls_ofExcept _)) fun _ => ?_
    refine attempting_bind (attempting_aside (calls_ofExcept _)) fun _ => ?_
    refine attempting_bind (attempting_aside (launchWithRetry_calls trivial (fun _ => trivial) 2))
      fun process => ?_
    refine attempting_bind (attempting_aside
      (calls_mono (fun _ ho => ho.1.aside) (awaitProcess_calls process.1 process.2)))
      fun exit => ?_
    by_cases hcode : exit.code ≠ 0
    · rw [if_pos hcode]
      exact obeys_ret (.inl rfl)
    · rw [if_neg hcode]
      exact attempting_bind (attempting_copyOutAll _ _) fun _ => obeys_ret rfl
  -- The slot is released in any case, which is no operation of the protocol.
  refine obeys_tryFinally hexecute fun r q hr => ?_
  refine (obeys_aside q (calls_attemptOnly (o := .sys (.releaseCli server)) trivial)).mono ?_
  rintro _ _ rfl
  exact hr

theorem attempting_executeActions (actions : List Action) :
    Obeys (contextProtocol j) (Attempting token files)
      (ActionExecutor.executeActions parts server j actions).run (.trying token files) := by
  induction actions with
  | nil => exact obeys_ret rfl
  | cons action rest ih =>
    cases action with
    -- Artifacts are promoted after the actions.
    | createArtifact path => exact ih
    | createDirectory path =>
      refine attempting_bind ?_ fun _ => ih
      exact obeys_op (P := contextProtocol j) (o := .fs (.createDirectory j path)) trivial
        fun r => attempting_write r
    | writeFile path content =>
      refine attempting_bind ?_ fun _ => ih
      exact obeys_op (P := contextProtocol j) (o := .fs (.writeFile j path (.text content)))
        trivial fun r => attempting_write r
    | runTool name args =>
      refine attempting_bind ?_ fun _ => ih
      exact attempting_bind (attempting_runTool args) fun _ => obeys_ret rfl

theorem promote_aside (paths copied : List String) (drafts : List ArtifactDraft) :
    Calls Op.Aside (ActionExecutor.promote parts j paths copied drafts) := by
  induction paths generalizing copied drafts with
  | nil => exact calls_ret _
  | cons path rest ih =>
    refine calls_bind (calls_op (o := .fs (.saveArtifact j path)) trivial) fun r => ?_
    cases r with
    | error e => exact calls_ret _
    | ok u =>
      have hregister : Calls Op.Aside (ArtifactService.registerArtifact parts j path).run :=
        calls_bindE (calls_ofExcept _) fun _ =>
          calls_op (o := .db (.flushArtifact _ _ _ _)) trivial
      refine calls_bind hregister fun r => ?_
      cases r with
      | error e => exact calls_ret _
      | ok draft => exact ih _ _

theorem cleanUp_aside (copied : List String) :
    Calls Op.Aside (ActionExecutor.cleanUp j copied) := by
  induction copied with
  | nil => exact calls_ret _
  | cons path rest ih =>
    exact calls_bind (calls_attemptOnly (o := .fs (.removeCopy j path)) trivial) fun _ => ih

/-- The body of the attempt. -/
theorem attempting_body (actions plan : List Action) :
    Obeys (contextProtocol j) (fun r => Attempting token files r.2)
      (ActionExecutor.body parts server j actions (perform (.db (.saveActionPlan j plan))))
      (.trying token files) := by
  refine obeys_bind (attempting_executeActions actions) ?_
  -- An exception of the actions skips promotion and commit.
  rintro (e | u) q hq
  · exact obeys_ret hq
  · obtain rfl : q = .trying token files := hq
    refine obeys_bind (obeys_aside _ (promote_aside _ [] [])) ?_
    rintro ⟨left, e | drafts⟩ _ rfl
    · exact obeys_ret (.inl rfl)
    · have hfinish : Calls Op.Aside (ActionExecutor.finish j drafts
          (perform (.db (.saveActionPlan j plan)))).run :=
        calls_bindE (calls_op (o := .db (.commitArtifacts j drafts)) trivial) fun _ =>
          calls_op (o := .db (.saveActionPlan j plan)) trivial
      exact obeys_bind (attempting_aside hfinish) fun r q hr => obeys_ret hr

/-- Between two attempts.  After an exception that is not retried nothing is claimed. -/
def Resting {α : Type} (parts : Parts) (files : List String) :
    Except Exn α → ContextPhase → Prop
  | .ok _, q => q = .ready files ∨ q = .impossible
  | .error x, q => (LLMPlanRetryExecutor.feedbackFor parts x).isSome = true →
    q = .ready files ∨ q = .impossible

theorem resting_ready {α : Type} (r : Except Exn α) : Resting parts files r (.ready files) := by
  cases r with
  | ok a => exact .inl rfl
  | error x => exact fun _ => .inl rfl

theorem resting_impossible {α : Type} (r : Except Exn α) :
    Resting parts files r .impossible := by
  cases r with
  | ok a => exact .inr rfl
  | error x => exact fun _ => .inr rfl

theorem resting_fatal {α : Type} {x : Exn} (hx : x.fatal = true) (q : ContextPhase) :
    Resting parts files (.error x : Except Exn α) q := by
  intro hsome
  rw [feedbackFor_fatal hx] at hsome
  exact absurd hsome (by simp)

/-- A cancelled attempt is not retried. -/
theorem resting_cancelled {α : Type} {x : Exn} (hx : x.isException = false) (q : ContextPhase) :
    Resting parts files (.error x : Except Exn α) q := by
  cases x with
  | cancelled => exact fun hsome => absurd hsome (by simp [LLMPlanRetryExecutor.feedbackFor,
      Exn.isCliExecution])
  | _ => exact absurd hx (by simp [Exn.isException])

/-- The rollback and the exception that goes on. -/
theorem resting_rollback {q : ContextPhase} {e : Exn}
    (hq : q = .trying token files ∨ q = .damaged token files) :
    Obeys (contextProtocol j) (Resting parts files)
      (do perform (.fs (.rollbackAttempt j token)); throw e : Task Unit).run q := by
  have hroll : ∀ r, q.rollback token r = ContextPhase.restored files r := by
    intro r
    rcases hq with rfl | rfl <;> exact if_pos rfl
  refine obeys_bindE (R := fun r q' => q' = q.rollback token r) ?_ ?_ ?_
  · exact obeys_op (P := contextProtocol j) (o := .fs (.rollbackAttempt j token)) trivial
      fun _ => rfl
  · rintro u _ rfl
    rw [hroll]
    exact obeys_ret (resting_ready _)
  · rintro x _ rfl
    rw [hroll]
    -- The operating system has failed, which is fatal; no other error is possible.
    by_cases hx : x.isOSError
    · exact resting_fatal (fatal_of_isOSError hx) _
    · rw [ContextPhase.restored, if_neg hx]
      exact resting_impossible _

/-- The rollback of the session: without a transaction nothing happens. -/
theorem session_rollback {q : ContextPhase} (left : ActionExecutor.Unfinished)
    (hq : q = .trying token files ∨ q = .damaged token files) :
    Obeys (contextProtocol j) (fun r q' => match r with
        | .ok _ => q' = q
        | .error _ => Resting parts files r q')
      (ActionExecutor.rollback j left).run q := by
  rw [ActionExecutor.rollback]
  by_cases hopen : left.inTransaction
  · rw [if_pos hopen]
    refine obeys_op (P := contextProtocol j) (o := .db (.rollbackSession j)) trivial fun r => ?_
    cases r with
    | ok u => rcases hq with rfl | rfl <;> rfl
    | error x =>
      -- An exception of the database is fatal; no other one is possible.
      show Resting parts files _ (q.session (.error x))
      by_cases hx : x.fatal
      · exact resting_fatal hx _
      · have himpossible : q.session (.error x) = .impossible := by
          rcases hq with rfl | rfl <;> exact if_neg hx
        rw [himpossible]
        exact resting_impossible _
  · rw [if_neg hopen]
    exact obeys_ret rfl

theorem resting_conclude {q : ContextPhase} (r : ActionExecutor.Unfinished × Except Exn Unit)
    (hr : Attempting token files r.2 q) :
    Obeys (contextProtocol j) (Resting parts files) (ActionExecutor.conclude j token r).run q := by
  obtain ⟨left, e | u⟩ := r
  · show Obeys _ _ (ExceptT.run (if e.isException then _ else _)) _
    -- `except Exception`: a cancellation passes by the rollback.
    by_cases he : e.isException
    · rw [if_pos he]
      refine obeys_bindE (session_rollback left hr) ?_ fun _ _ h => h
      rintro _ _ rfl
      refine obeys_bind (obeys_aside _ (cleanUp_aside left.copied)) ?_
      rintro _ _ rfl
      exact resting_rollback hr
    · rw [if_neg he]
      exact obeys_ret (resting_cancelled (by simpa using he) q)
  · obtain rfl : q = .trying token files := hr
    exact obeys_op (P := contextProtocol j) (o := .fs (.completeAttempt j token)) trivial
      fun r => resting_ready r

theorem resting_executionCb (actions : List Action) :
    Obeys (contextProtocol j) (Resting parts files)
      (JobOrchestratorService.executionCb parts server j actions).run (.ready files) := by
  refine obeys_bindE (R := fun r q => q = ContextPhase.snapshot r (.ready files)) ?_ ?_ ?_
  · exact obeys_op (P := contextProtocol j) (o := .fs (.beginAttempt j)) trivial fun _ => rfl
  · rintro token _ rfl
    exact obeys_bind (attempting_body actions actions) fun r q hr => resting_conclude r hr
  · rintro x _ rfl
    exact resting_ready _

theorem resting_bind {α β : Type} {x : Task α} {f : α → Task β} (hx : Calls Op.Aside x.run)
    (hf : ∀ a, Obeys (contextProtocol j) (Resting parts files) (f a).run (.ready files)) :
    Obeys (contextProtocol j) (Resting parts files) (x >>= f).run (.ready files) := by
  refine obeys_bindE (obeys_aside _ hx) ?_ ?_
  · rintro a _ rfl
    exact hf a
  · rintro e _ rfl
    exact resting_ready _

theorem resting_oneAttempt (request : LLMRequest) :
    Obeys (contextProtocol j) (Resting parts files)
      (LLMPlanRetryExecutor.oneAttempt parts (SecurityPolicyValidator.validateActions parts j)
        (JobOrchestratorService.executionCb parts server j) request).run (.ready files) := by
  refine resting_bind (calls_op (o := .sys (.generatePlan request)) trivial) fun response => ?_
  refine resting_bind (calls_ofExcept _) fun actions => ?_
  refine resting_bind (calls_mono (fun _ ho => ho.1.aside) (validateActions_calls actions))
    fun _ => ?_
  refine obeys_bindE (resting_executionCb actions) ?_ fun _ _ h => h
  exact fun _ _ h => obeys_ret h

/-- The attempts of a run: each one starts with the files in the workspace. -/
theorem resting_generateActions (delays : List ℕ) (attempt : ℕ) (request : LLMRequest) :
    Obeys (contextProtocol j) (Resting parts files)
      (LLMPlanRetryExecutor.generateActions parts (JobOrchestratorService.onAttempt j)
        (SecurityPolicyValidator.validateActions parts j)
        (JobOrchestratorService.executionCb parts server j) delays attempt request).run
      (.ready files) := by
  have hlog : ∀ n, Calls Op.Aside (JobOrchestratorService.onAttempt j n).run := fun n =>
    calls_op (o := .db (.appendEvent ..)) trivial
  -- The induction is on the delays that are left; an attempt starts in phase `ready`.
  induction delays generalizing attempt request with
  | nil => exact resting_bind (hlog attempt) fun _ => resting_oneAttempt request
  | cons delay delays ih =>
    refine resting_bind (hlog attempt) fun _ => ?_
    refine obeys_tryExcept (resting_oneAttempt request) (fun _ _ h => h) ?_ ?_
    -- Only an exception with feedback is caught, and then the files are back.
    · intro x q hcaught hq
      rcases hq hcaught with rfl | rfl
      · exact resting_bind (calls_op (o := .sys (.sleep delay)) trivial) fun _ => ih _ _
      · exact obeys_final (.inr rfl) resting_impossible _
    · intro x q hpass _ hsome
      rw [hsome] at hpass
      exact absurd hpass (by simp)

/-- After the files of the parent were copied. -/
def Inherited {α : Type} (files : List String) : Except Exn α → ContextPhase → Prop
  | .ok _, q => ∃ files', q = .ready files' ∧ ∀ f ∈ files, f ∈ files'
  | .error _, _ => True

theorem inherited_files (parent : Uuid) (todo done : List String)
    (htodo : ∀ f ∈ todo, f ∈ inheritedFiles) :
    Obeys (contextProtocol j) (Inherited (todo ++ done))
      (JobOrchestratorService.inheritFiles parent j todo).run (.ready done) := by
  induction todo generalizing done with
  | nil => exact obeys_ret ⟨done, rfl, fun _ hf => hf⟩
  | cons f rest ih =>
    have hf : f ∈ inheritedFiles := htodo f List.mem_cons_self
    refine obeys_bindE (R := fun r q => q = ContextPhase.copyFile f r (.ready done)) ?_ ?_ ?_
    · exact obeys_op (P := contextProtocol j) (o := .fs (.copyWorkspaceFile parent j f)) trivial
        fun _ => rfl
    -- The copy is read again and decoded before the next file is copied.
    · rintro u _ rfl
      have hcopied : ContextPhase.copyFile f (.ok u) (.ready done) = .ready (f :: done) :=
        if_pos hf
      rw [hcopied]
      refine obeys_bindE (obeys_aside _ (calls_op (o := .fs (.readFile j f)) trivial)) ?_
        fun _ _ _ => trivial
      rintro data _ rfl
      refine obeys_bindE (obeys_aside _ (calls_ofExcept _)) ?_ fun _ _ _ => trivial
      rintro text _ rfl
      refine obeys_bindE (ih (f :: done) fun g hg => htodo g (List.mem_cons_of_mem _ hg)) ?_
        fun _ _ _ => trivial
      rintro context _ ⟨files', rfl, hall⟩
      refine obeys_ret ⟨files', rfl, fun g hg => hall g ?_⟩
      rw [List.cons_append, List.mem_cons, List.mem_append] at hg
      rw [List.mem_append, List.mem_cons]
      tauto
    · exact fun _ _ _ => trivial

theorem inherited_context (parent : Uuid) :
    Obeys (contextProtocol j) (Inherited inheritedFiles)
      (JobOrchestratorService.inheritContext j (some parent)).run (.ready []) := by
  have hfiles := inherited_files (j := j) parent inheritedFiles [] fun _ hf => hf
  rw [List.append_nil] at hfiles
  refine obeys_bindE hfiles ?_ fun _ _ _ => trivial
  rintro context q hq
  refine obeys_bindE (obeys_aside q (calls_op (o := .db (.appendEvent ..)) trivial)) ?_
    fun _ _ _ => trivial
  rintro _ _ rfl
  exact obeys_ret hq

/-- A job with a parent is completed only after its files were inherited and the attempts
have kept them. -/
theorem runRow_obeys_context {record : JobRecord} {parent : Uuid}
    (hparent : record.parentJobId = some parent) :
    Obeys (contextProtocol j) (fun _ _ => True)
      (JobOrchestratorService.runRow parts server j record).run (.ready []) := by
  rw [JobOrchestratorService.runRow, hparent]
  refine obeys_bindE (inherited_context parent) ?_ fun _ _ _ => trivial
  rintro context _ ⟨files, rfl, hall⟩
  refine obeys_bindE (resting_generateActions _ _ _) ?_ fun _ _ _ => trivial
  intro plan q hq
  -- After the last attempt all inherited files are in the workspace.
  have hequipped : q.Equipped := by
    rcases hq with rfl | rfl
    · exact hall
    · trivial
  refine obeys_bindE (obeys_aside q (calls_op (o := .db (.appendEvent ..)) trivial)) ?_
    fun _ _ _ => trivial
  rintro _ _ rfl
  refine obeys_bindE (R := fun _ _ => True) ?_ (fun _ _ _ => obeys_ret trivial)
    fun _ _ _ => trivial
  exact obeys_op (P := contextProtocol j) (o := JobOrchestratorService.completeOp j)
    (fun _ => hequipped) fun _ => trivial

theorem runBody_obeys_context :
    Obeys (contextProtocol j) (fun _ _ => True)
      (JobOrchestratorService.runBody parts server j).run .started := by
  refine obeys_bindE
    (R := fun r q => ∀ record, r = .ok (some record) →
      q = ContextPhase.readRow record.parentJobId .started) ?_ ?_ fun _ _ _ => trivial
  · refine obeys_op (P := contextProtocol j) (o := .db (.getJob j)) trivial ?_
    rintro r record rfl
    exact if_pos rfl
  · intro row q hq
    cases row with
    | none => exact obeys_ret trivial
    | some record =>
      rw [hq record rfl, ContextPhase.readRow]
      -- A job without a parent has nothing to keep.
      rcases hparent : record.parentJobId with _ | parent
      · exact obeys_final (.inl rfl) (fun _ => trivial) _
      · exact runRow_obeys_context hparent

/-- What is done after the run proper does not matter. -/
theorem obeys_anyway {α : Type} {p : Prog Op Res α} (q : ContextPhase)
    (hp : Calls Op.Aside p) : Obeys (contextProtocol j) (fun _ _ => True) p q :=
  (obeys_aside q hp).mono fun _ _ _ => trivial

theorem runInSlot_obeys_context :
    Obeys (contextProtocol j) (fun _ _ => True)
      (JobOrchestratorService.runInSlot parts server j).run .waiting := by
  refine obeys_bindE (R := fun r q => r = .ok true → q = .started) ?_ ?_ fun _ _ _ => trivial
  · refine obeys_op (P := contextProtocol j) (o := JobOrchestratorService.startOp j) trivial ?_
    rintro r rfl
    exact if_pos rfl
  · intro started q hq
    cases started with
    | false => exact obeys_ret trivial
    | true =>
      rw [hq rfl]
      refine obeys_tryExcept runBody_obeys_context (fun _ _ _ => trivial) ?_
        fun _ _ _ _ => trivial
      -- The handler fails the job, which is allowed in every phase.
      intro e q' _ _
      refine obeys_anyway q' (calls_bindE (calls_tryExcept ?_ fun _ => calls_value ()) fun _ =>
        calls_value false)
      exact calls_bindE (calls_op (o := JobOrchestratorService.failOp parts j e) rfl) fun _ =>
        calls_value ()

/-- **The run of a job follows the protocol of the inherited files.** -/
theorem run_obeys_context :
    Obeys (contextProtocol j) (fun _ _ => True)
      (JobOrchestratorService.run parts server j).run .waiting := by
  refine obeys_tryExcept (R := fun _ _ => True) ?_ (fun _ _ _ => trivial) ?_
    fun _ _ _ _ => trivial
  · refine obeys_bindE (obeys_aside _ (calls_op (o := .sys (.acquireGate server)) trivial)) ?_
      fun _ _ _ => trivial
    rintro _ _ rfl
    refine obeys_tryFinally runInSlot_obeys_context fun r q _ => ?_
    exact obeys_anyway q (calls_attemptOnly (o := .sys (.releaseGate server)) trivial)
  · intro e q _ _
    exact obeys_anyway q (calls_bindE
      (calls_op (o := JobOrchestratorService.queueTimeoutOp j) rfl) fun _ => calls_value false)

/-- A run leaves the phase `waiting` only by starting the job. -/
theorem next_waiting {o : Op} {r : Res o} (h : starts j o r = false) :
    (contextProtocol j).next .waiting o r = .waiting := by
  unfold contextProtocol
  dsimp only
  split
  · rename_i k expected code message
    exact if_neg (of_decide_eq_false h)
  all_goals first | rfl | exact ite_self _

/-- Every call follows the protocol: only a run of the job changes its status. -/
theorem body_obeys_context (parts : Parts) (j : Uuid) (c : Call) :
    Obeys (contextProtocol j) (fun _ _ => True) ((platform parts).body c) .waiting := by
  by_cases hc : ∃ server, c = .run server j
  · obtain ⟨server, rfl⟩ := hc
    exact obeys_bindE run_obeys_context (fun _ _ _ => obeys_ret trivial) fun _ _ _ => trivial
  -- Every other call leaves the status of the job alone.
  · have hne : ∀ server, c ≠ .run server j := fun server h => hc ⟨server, h⟩
    refine (obeys_of_calls (body_calls parts c) fun o ho => ?_).mono fun _ _ _ => trivial
    have hno : o.NoTransition j := Call.noTransition hne ho
    constructor
    · unfold contextProtocol
      dsimp only
      split
      · exact fun hk => absurd hk hno
      · trivial
    · intro r
      refine next_waiting ?_
      unfold starts
      split
      · exact decide_eq_false hno
      · rfl

end Protocol

end CliExecutionPlatform
