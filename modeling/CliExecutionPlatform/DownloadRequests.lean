/-
Downloads while the job may still be running: the two endpoints of
`jobs/router.py`.

A request reads the database, tests that the file is there, looks up its path
and reads it.  Threads serve requests while attempts go on, so that each of
these reads may see another state of the platform; `Glimpses` holds the four
worlds that a request sees.

* `downloadArtifact_ok`, `downloadArtifactById_ok` — what a successful request
  has seen;
* `completed_download_stable` — the bytes of a download from a completed job are
  those of every later download;
* `download_rolled_back` — the endpoints do not ask whether the job is completed,
  and serve files of attempts that are rolled back later.
-/
import CliExecutionPlatform.Ended

open Files Process

namespace CliExecutionPlatform

open LocalStorage (root treeOf validateSafePath)

/-! ### The endpoints -/

/-- The worlds that a request sees, one after the other. -/
structure Glimpses where
  query : World
  test : World
  locate : World
  read : World

/-- A request during which nothing changes. -/
def Glimpses.still (w : World) : Glimpses := ⟨w, w, w, w⟩

/-- `HTTPException`, with the fields of its detail. -/
structure HttpError where
  status : ℕ
  code : String
  message : String
  deriving DecidableEq

/-- What the framework answers to any other exception. -/
def internalServerError : HttpError := ⟨500, "", "Internal Server Error"⟩

/-- `FileResponse`: the bytes of the file when it is read. -/
def fileResponse (p : Path) (fs : FileTree) : Except HttpError (List UInt8) :=
  match fs.node p with
  | some (.file data) => .ok data
  | _ => .error internalServerError

section Endpoints

variable (base : Path)

def artifactMissing (j : Uuid) (filename : String) : HttpError :=
  ⟨404, "NOT_FOUND", "Artifact " ++ filename ++ " not found for Job " ++ j.str ++ "."⟩

/-- The `except` clauses of `download_artifact`. -/
def downloadFailure (j : Uuid) (filename : String) : Exn → HttpError
  | .permission _ => ⟨403, "FORBIDDEN_ACCESS", "Access denied. Path traversal detected."⟩
  | .fileNotFound _ => artifactMissing j filename
  | _ => internalServerError

/-- `download_artifact`. -/
def downloadArtifact (j : Uuid) (filename : String) (g : Glimpses) :
    Except HttpError (List UInt8) :=
  match g.query.db.job j with
  | none => .error ⟨404, "NOT_FOUND", "Job " ++ j.str ++ " not found."⟩
  | some job =>
    if job.status = .failed then
      .error ⟨400, "BAD_REQUEST", "Job " ++ j.str ++ " has failed. Cannot retrieve artifacts."⟩
    else
      match (LocalStorage.checkArtifactExists base j filename g.test.fs).1 with
      | .error e => .error (downloadFailure j filename e)
      | .ok false => .error (artifactMissing j filename)
      | .ok true =>
        match (LocalStorage.getArtifactPath base j filename g.locate.fs).1 with
        | .error e => .error (downloadFailure j filename e)
        | .ok p => fileResponse p g.read.fs

/-- The `except` clauses of `download_artifact_by_id`. -/
def downloadByIdFailure : Exn → HttpError
  | .artifactNotFound _ => ⟨404, "NOT_FOUND", "Artifact not found."⟩
  | .artifactPermission _ => ⟨403, "FORBIDDEN_ACCESS", "Access denied."⟩
  | _ => internalServerError

/-- `download_artifact_by_id`: the row is read first, the disk after it. -/
def downloadArtifactById (artifactId : Uuid) (g : Glimpses) : Except HttpError (List UInt8) :=
  match ArtifactService.getArtifactForDownload base { g.query with fs := g.locate.fs }
      artifactId with
  | .error e => .error (downloadByIdFailure e)
  | .ok (p, _, _) => fileResponse p g.read.fs

/-- A download by file name or by the id of an artifact. -/
inductive DownloadRequest
  | byName (j : Uuid) (filename : String)
  | byId (artifactId : Uuid)

namespace DownloadRequest

def serve (g : Glimpses) : DownloadRequest → Except HttpError (List UInt8)
  | byName j filename => downloadArtifact base j filename g
  | byId artifactId => downloadArtifactById base artifactId g

/-- The job whose artifact is asked for. -/
def job (db : Db) : DownloadRequest → Option Uuid
  | byName j _ => some j
  | byId artifactId => (db.artifacts.find? fun a => a.id = artifactId).map ArtifactRow.jobId

end DownloadRequest

end Endpoints

/-! ### What a successful request has seen -/

section Seen

variable {base : Path} {j : Uuid} {filename : String} {g : Glimpses} {data : List UInt8}

theorem fileResponse_ok {p : Path} {fs : FileTree} :
    fileResponse p fs = .ok data ↔ fs.node p = some (.file data) := by
  rw [fileResponse]
  rcases fs.node p with _ | _ | d
  · simp
  · simp
  · simp

theorem checkArtifactExists_of_ok {p : Path}
    (hp : validateSafePath base j filename .artifacts = .ok p) (fs : FileTree) :
    (LocalStorage.checkArtifactExists base j filename fs).1 =
      .ok (LocalStorage.isFile (fs.node p)) := by
  rw [LocalStorage.checkArtifactExists, hp]
  rfl

/-- A download by name has found the job not failed and read a file of its
artifacts directory. -/
theorem downloadArtifact_ok (h : downloadArtifact base j filename g = .ok data) :
    ∃ q, validateSafePath base j filename .artifacts = .ok (root base .artifacts j ++ q) ∧
      treeOf base .artifacts j g.read.fs q = some (.file data) := by
  rw [downloadArtifact] at h
  rcases hjob : g.query.db.job j with _ | row
  · rw [hjob] at h
    exact absurd h (by simp)
  simp only [hjob] at h
  by_cases hfailed : row.status = .failed
  · rw [if_pos hfailed] at h
    exact absurd h (by simp)
  rw [if_neg hfailed] at h
  -- The file is looked for three times, each time in a later world.
  rcases htest : (LocalStorage.checkArtifactExists base j filename g.test.fs).1 with e | b
  · rw [htest] at h
    exact absurd h (by simp)
  cases b with
  | false =>
    rw [htest] at h
    exact absurd h (by simp)
  | true =>
    simp only [htest] at h
    rcases hlocate : (LocalStorage.getArtifactPath base j filename g.locate.fs).1 with e | p
    · rw [hlocate] at h
      exact absurd h (by simp)
    · simp only [hlocate] at h
      have hpath := (LocalStorage.getArtifactPath_ok (Prod.ext hlocate rfl)).1
      obtain ⟨-, q, rfl⟩ := LocalStorage.validateSafePath_ok hpath
      exact ⟨q, hpath, fileResponse_ok.mp h⟩

/-- Where the job has not failed and the file stays, the download succeeds. -/
theorem downloadArtifact_still {w : World} {row : JobRow} {q : Path}
    (hjob : w.db.job j = some row) (hrow : row.status ≠ .failed)
    (hpath : validateSafePath base j filename .artifacts = .ok (root base .artifacts j ++ q))
    (hfile : treeOf base .artifacts j w.fs q = some (.file data)) :
    downloadArtifact base j filename (.still w) = .ok data := by
  have hnode : w.fs.node (root base .artifacts j ++ q) = some (.file data) := hfile
  have htest := checkArtifactExists_of_ok hpath w.fs
  rw [hnode] at htest
  have hlocate := congrArg Prod.fst (LocalStorage.getArtifactPath_of_file hpath hnode)
  simp only [downloadArtifact, Glimpses.still, hjob, if_neg hrow, htest, hlocate,
    LocalStorage.isFile]
  exact fileResponse_ok.mpr hnode

/-- A download by id has found a row and read a file of the workspace of its
job. -/
theorem downloadArtifactById_ok {id : Uuid} (h : downloadArtifactById base id g = .ok data) :
    ∃ a q, g.query.db.artifacts.find? (fun a => a.id = id) = some a ∧
      ArtifactService.checkPath base a.jobId a.relativePath =
        .ok (root base .jobs a.jobId ++ q) ∧
      treeOf base .jobs a.jobId g.read.fs q = some (.file data) := by
  rw [downloadArtifactById, ArtifactService.getArtifactForDownload] at h
  rcases hfind : g.query.db.artifacts.find? (fun a => a.id = id) with _ | a
  · rw [hfind] at h
    exact absurd h (by simp)
  simp only [hfind] at h
  rcases hcheck : ArtifactService.checkPath base a.jobId a.relativePath with e | p
  · rw [hcheck] at h
    exact absurd h (by simp [bind, Except.bind])
  simp only [hcheck, bind, Except.bind] at h
  obtain ⟨-, rfl⟩ := checkPath_ok hcheck
  rcases hnode : g.locate.fs.node (root base .jobs a.jobId ++ segments a.relativePath) with
    _ | _ | d
  · rw [hnode] at h
    exact absurd h (by simp [throw, throwThe, MonadExceptOf.throw])
  · rw [hnode] at h
    exact absurd h (by simp [throw, throwThe, MonadExceptOf.throw])
  · simp only [hnode, pure, Except.pure] at h
    exact ⟨a, segments a.relativePath, hfind, hcheck, fileResponse_ok.mp h⟩

theorem downloadArtifactById_still {w : World} {a : ArtifactRow} {q : Path}
    (ha : a ∈ w.db.artifacts)
    (hcheck : ArtifactService.checkPath base a.jobId a.relativePath =
      .ok (root base .jobs a.jobId ++ q))
    (hfile : treeOf base .jobs a.jobId w.fs q = some (.file data)) :
    downloadArtifactById base a.id (.still w) = .ok data := by
  have hnode : w.fs.node (root base .jobs a.jobId ++ q) = some (.file data) := hfile
  rw [downloadArtifactById, ArtifactService.getArtifactForDownload]
  simp only [Glimpses.still, find_artifact ha, hcheck, bind, Except.bind, hnode, pure, Except.pure]
  exact fileResponse_ok.mpr hnode

end Seen

/-! ### Downloads from completed jobs -/

/-- **A download from a completed job is final.**  If the job is completed when
the request reads the database, then the job stays completed, and every later
download gives the same bytes. -/
theorem completed_download_stable (parts : Parts) (r : DownloadRequest) (j : Uuid)
    {m₁ m₂ m₃ m₄ : State} (h₁ : (platform parts).Reach (start parts) m₁)
    (h₂ : (platform parts).Reach m₁ m₂) (h₃ : (platform parts).Reach m₂ m₃)
    (h₄ : (platform parts).Reach m₃ m₄) (hjob : r.job m₁.view.state.db = some j)
    (hdone : m₁.status j = some .completed) {data : List UInt8}
    (hok : r.serve parts.base ⟨m₁.view.state, m₂.view.state, m₃.view.state, m₄.view.state⟩ =
      .ok data) :
    ∀ m, (platform parts).Reach m₁ m → State.status j m = some .completed ∧
      r.serve parts.base (.still m.view.state) = .ok data := by
  intro m hm
  -- From the completion on nothing of the job changes.
  have hread := (completed_reach h₁ (h₂.trans (h₃.trans h₄)) hdone).2
  obtain ⟨hstill, hlater⟩ := completed_reach h₁ hm hdone
  have hheld : held parts.base j m.view.state = held parts.base j m₄.view.state :=
    hlater.trans hread.symm
  refine ⟨hstill, ?_⟩
  cases r with
  | byName k filename =>
    obtain rfl : k = j := Option.some.inj hjob
    obtain ⟨q, hpath, hfile⟩ := downloadArtifact_ok hok
    obtain ⟨row, hrow, hstatus⟩ := Option.map_eq_some_iff.mp hstill
    refine downloadArtifact_still hrow (by rw [hstatus]; decide) hpath ?_
    exact (congrFun (congrArg Held.promoted hheld) q).trans hfile
  | byId id =>
    obtain ⟨a, q, hfind, hcheck, hfile⟩ := downloadArtifactById_ok hok
    rw [DownloadRequest.job, show m₁.view.state.db.artifacts.find? (fun a => a.id = id) = some a
      from hfind] at hjob
    obtain rfl : a.jobId = j := Option.some.inj hjob
    have hid := List.find?_some hfind
    obtain rfl : a.id = id := of_decide_eq_true hid
    have hmem : a ∈ m₁.view.state.db.artifactsOf a.jobId :=
      List.mem_filter.mpr ⟨List.mem_of_find?_eq_some hfind, decide_eq_true rfl⟩
    rw [show m₁.view.state.db.artifactsOf a.jobId = m.view.state.db.artifactsOf a.jobId
      from (congrArg Held.artifacts hlater).symm] at hmem
    refine downloadArtifactById_still (List.mem_of_mem_filter hmem) hcheck ?_
    exact (congrFun (congrArg Held.workspace hheld) q).trans hfile

set_option maxRecDepth 100000 in
theorem completed_download_stable_sample :
    ∃ m, (platform (Sample.parts Sample.plan)).Reach (start (Sample.parts Sample.plan)) m ∧
      ∀ m', (platform (Sample.parts Sample.plan)).Reach m m' →
        State.status Sample.job m' = some .completed ∧
        (DownloadRequest.byName Sample.job "a.txt").serve (Sample.parts Sample.plan).base
          (.still m'.view.state) = .ok (utf8 "hi") := by
  obtain ⟨m, hm, hgood⟩ := Sample.reached (Sample.parts Sample.plan) (Sample.running 15)
    (fun m => State.status Sample.job m = some .completed ∧
      (DownloadRequest.byName Sample.job "a.txt").serve (Sample.parts Sample.plan).base
        (.still m.view.state) = .ok (utf8 "hi")) (by decide +kernel)
  obtain ⟨hdone, hok⟩ := of_decide_eq_true hgood
  exact ⟨m, hm, completed_download_stable _ _ _ hm .refl .refl .refl rfl hdone hok⟩

namespace Sample

/-- The request gets the bytes of a file of the running job, and in the rest of
the run the attempt is rolled back, the job fails and the file is gone. -/
def RolledBackAfter (r : DownloadRequest) : Prop :=
  ∃ m m', (platform (parts plan)).Reach (start (parts plan)) m ∧
    (platform (parts plan)).Reach m m' ∧ r.job m.view.state.db = some job ∧
    r.serve (parts plan).base (.still m.view.state) = .ok (utf8 "hi") ∧
    State.status job m' = some .failed ∧
    r.serve (parts plan).base (.still m'.view.state) ≠ .ok (utf8 "hi")

/-- The job runs for `n` moves, and then one of its transactions is refused. -/
theorem rolledBackAfter (n : ℕ) (r : DownloadRequest)
    (h : (((platform (parts plan)).moves (running n) (start (parts plan))).any fun m =>
      ((platform (parts plan)).moves (.perform 1 refused :: List.replicate 3 (.perform 1 calm))
        m).any fun m' => r.job m.view.state.db = some job ∧
          r.serve (parts plan).base (.still m.view.state) = .ok (utf8 "hi") ∧
          State.status job m' = some .failed ∧
          r.serve (parts plan).base (.still m'.view.state) ≠ .ok (utf8 "hi")) = true) :
    RolledBackAfter r := by
  obtain ⟨m, m', hm, hm', hgood⟩ := reached_then _ _ _ _ h
  exact ⟨m, m', hm, hm', of_decide_eq_true hgood⟩

end Sample

set_option maxRecDepth 100000 in
/-- By name, a file is served as soon as it is promoted, and by id, as soon as
its row is committed; the attempt can still be rolled back then. -/
theorem download_rolled_back :
    Sample.RolledBackAfter (.byName Sample.job "a.txt") ∧
      Sample.RolledBackAfter (.byId Sample.job) := by
  constructor
  -- the transaction that registers the artifacts is refused
  · exact Sample.rolledBackAfter 9 _ (by decide +kernel)
  -- the artifacts are registered and the plan's transaction is refused
  · exact Sample.rolledBackAfter 10 _ (by decide +kernel)

end CliExecutionPlatform
