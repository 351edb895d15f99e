/-
`ActionExecutor` (`orchestrator/actions.py`) and `ArtifactService`
(`jobs/service.py`): executing a plan as one attempt.

An attempt takes a snapshot, executes the actions other than `CREATE_ARTIFACT`
in order, then promotes the artifacts: for each, the file is copied and its row
flushed.  One commit makes all rows visible, then `on_success` runs.  If any of
this raises an `Exception`, the session is rolled back, the copies are removed
and the snapshot is put back.  The rollback of the session comes first: if it
raises, the copies and the workspace stay as they are.
-/
import CliExecutionPlatform.Runner

open Files Process

namespace CliExecutionPlatform

open LocalStorage (root)

/-! ### Artifacts -/

namespace ArtifactService

/-- The checks of a relative path that `register_artifact` and
`get_artifact_for_download` share; the resolved path if it passes. -/
def checkPath (base : Path) (j : Uuid) (relativePath : String) : Except Exn Path :=
  if strip relativePath = "" then
    .error (.artifactPermission "Access Denied: Empty path is not allowed.")
  else if contains relativePath "\\" then
    .error (.artifactPermission "Access Denied: Windows backslashes are not allowed.")
  else if isAbsolute relativePath then
    .error (.artifactPermission "Access Denied: Absolute paths are not allowed.")
  else if (segments relativePath).any fun s => s = "." ∨ s = ".." ∨ s = "" then
    .error (.artifactPermission
      "Access Denied: Invalid path segments (., .. or empty) are not allowed.")
  else if LocalStorage.hasNul relativePath then .error LocalStorage.nulError
  else
    let baseJobDir := root base .jobs j
    let target := resolve baseJobDir relativePath
    if baseJobDir <+: target then .ok target
    else .error (.artifactPermission "Access Denied: Path traversal attempt detected.")

/-- The content type of a file name. -/
def contentType (parts : Parts) (filename : String) : String :=
  match parts.guessType filename with
  | some type => if type = "" then "application/octet-stream" else type
  | none => "application/octet-stream"

/-- `register_artifact`: the row is flushed, not committed. -/
def registerArtifact (parts : Parts) (j : Uuid) (relativePath : String) :
    Task ArtifactDraft := do
  let _ ← Task.ofExcept (checkPath parts.base j relativePath)
  let filename := baseName relativePath
  perform (.db (.flushArtifact j relativePath filename (contentType parts filename)))

/-- `get_artifact_for_download`, on the current database and disk: the path of
the file, its content type and its name. -/
def getArtifactForDownload (base : Path) (w : World) (artifactId : Uuid) :
    Except Exn (Path × String × String) :=
  match w.db.artifacts.find? fun a => a.id = artifactId with
  | none => .error (.artifactNotFound "Artifact not found in database.")
  | some artifact => do
    let target ← checkPath base artifact.jobId artifact.relativePath
    match w.fs.node target with
    | some (.file _) => pure (target, artifact.contentType, artifact.filename)
    | _ => throw (.artifactNotFound "Physical file not found or is not a regular file.")

end ArtifactService

/-! ### Actions -/

namespace ActionExecutor

variable (parts : Parts) (server : ℕ)

/-- `_execute_action`. -/
def executeAction (j : Uuid) : Action → Task Unit
  | .createDirectory path => perform (.fs (.createDirectory j path))
  | .writeFile path content => perform (.fs (.writeFile j path (.text content)))
  | .runTool _ args => do
    let _ ← Runner.runTool parts server j args
    pure ()
  | .createArtifact _ =>
    throw (.value "Unsupported retry-boundary action type: CreateArtifactAction")

/-- The first loop of `execute_attempt`: artifacts are left for later. -/
def executeActions (j : Uuid) : List Action → Task Unit
  | [] => pure ()
  | .createArtifact _ :: rest => executeActions j rest
  | action :: rest => do
    executeAction parts server j action
    executeActions j rest

/-- The paths of the `CREATE_ARTIFACT` actions of a plan, in order. -/
def artifactPaths : List Action → List String
  | [] => []
  | .createArtifact path :: rest => path :: artifactPaths rest
  | _ :: rest => artifactPaths rest

/-- What the `except` clause finds: the copies made so far, and whether the
session has a transaction that is still open. -/
structure Unfinished where
  copied : List String
  inTransaction : Bool

/-- The session when `e` is raised after these rows have been flushed.  The
first flush opens a transaction; an error of the database ends it at once. -/
def Unfinished.raised (copied : List String) (drafts : List ArtifactDraft) (e : Exn) :
    Unfinished :=
  ⟨copied, !drafts.isEmpty && !e.isDatabase⟩

/-- The second loop: promote each artifact and flush its row.  The copies made so
far and the state of the session are part of the outcome, also when a step
raises. -/
def promote (j : Uuid) : List String → List String → List ArtifactDraft →
    Prog Op Res (Unfinished × Except Exn (List ArtifactDraft))
  | [], copied, drafts => .ret (⟨copied, !drafts.isEmpty⟩, .ok drafts)
  | path :: rest, copied, drafts =>
    (perform (.fs (.saveArtifact j path))).run.bind fun
      | .error e => .ret (.raised copied drafts e, .error e)
      | .ok _ => (ArtifactService.registerArtifact parts j path).run.bind fun
        | .error e => .ret (.raised (copied ++ [path]) drafts e, .error e)
        | .ok draft => promote j rest (copied ++ [path]) (drafts ++ [draft])

/-- The last two steps: the commit, then `on_success`. -/
def finish (j : Uuid) (drafts : List ArtifactDraft) (onSuccess : Task Unit) : Task Unit := do
  perform (.db (.commitArtifacts j drafts))
  onSuccess

/-- The body of the `try` of `execute_attempt`.  Whatever comes of the commit, the
session has no transaction after it. -/
def body (j : Uuid) (actions : List Action) (onSuccess : Task Unit) :
    Prog Op Res (Unfinished × Except Exn Unit) :=
  (executeActions parts server j actions).run.bind fun
    | .error e => .ret (⟨[], false⟩, .error e)
    | .ok _ => (promote parts j (artifactPaths actions) [] []).bind fun
      | (left, .error e) => .ret (left, .error e)
      | (left, .ok drafts) => (finish j drafts onSuccess).run.bind fun r =>
        .ret (⟨left.copied, false⟩, r)

/-- The best-effort removal of promoted copies. -/
def cleanUp (j : Uuid) : List String → Prog Op Res Unit
  | [] => .ret ()
  | path :: rest => (attemptOnly (.fs (.removeCopy j path))).bind fun _ => cleanUp j rest

/-- `db.rollback()`: without a transaction there is nothing to do. -/
def rollback (j : Uuid) (left : Unfinished) : Task Unit :=
  if left.inTransaction then perform (.db (.rollbackSession j)) else pure ()

/-- The `except` clause: roll the session back, clean up, put the snapshot back,
raise again. -/
def handler (j : Uuid) (token : String) (left : Unfinished) (e : Exn) : Task Unit := do
  rollback j left
  ExceptT.mk ((cleanUp j left.copied).bind fun _ =>
    (do perform (.fs (.rollbackAttempt j token)); throw e : Task Unit).run)

/-- The end of `execute_attempt`: `else`, `except Exception`, or neither when
the task was cancelled. -/
def conclude (j : Uuid) (token : String) : Unfinished × Except Exn Unit → Task Unit
  | (_, .ok _) => perform (.fs (.completeAttempt j token))
  | (left, .error e) => if e.isException then handler j token left e else throw e

/-- `execute_attempt`. -/
def executeAttempt (j : Uuid) (actions : List Action) (onSuccess : Task Unit) : Task Unit := do
  let token ← perform (.fs (.beginAttempt j))
  ExceptT.mk ((body parts server j actions onSuccess).bind fun r => (conclude j token r).run)

end ActionExecutor

end CliExecutionPlatform
