/-
`LocalStorageService` (`storage/local.py`): the trees of the jobs on disk.

Below the base directory every job has a workspace `jobs/{id}`, an artifacts
directory `artifacts/{id}` and, while an attempt runs, a snapshot of both under
`.attempt-snapshots/{id}/{token}`.  The functions below are the methods of the
service as programs on the file tree.

* `validateSafePath` — the path check every method goes through;
* `beginAttempt`, `rollbackAttempt`, `completeAttempt` — the snapshot protocol;
* `treeOf` — one of the three trees of a job, seen from its root;
* `root_apart` — the roots of different jobs, or of different trees of a job,
  are apart.
-/
import CliExecutionPlatform.Disk
import CliExecutionPlatform.Models

open Files

namespace CliExecutionPlatform

/-- The three directories that hold trees of jobs. -/
inductive Area
  | jobs
  | artifacts
  | snapshots
  deriving DecidableEq

def Area.dirName : Area → String
  | .jobs => "jobs"
  | .artifacts => "artifacts"
  | .snapshots => ".attempt-snapshots"

/-- The text of an absolute path. -/
def pathText (p : Path) : String := "/" ++ "/".intercalate p

/-- `part in text`. -/
def contains (text part : String) : Bool := decide (part.toList <:+: text.toList)

/-- `text.startswith(part)`. -/
def startsWith (text part : String) : Bool := decide (part.toList <+: text.toList)

/-- The bytes of a text in UTF-8. -/
def utf8 (text : String) : List UInt8 := text.toUTF8.data.toList

/-- What `write_file` takes: a text or bytes. -/
inductive Content
  | text (text : String)
  | bytes (data : List UInt8)

def Content.data : Content → List UInt8
  | text t => utf8 t
  | bytes d => d

namespace LocalStorage

/-- Programs of the storage service. -/
abbrev Storage (α : Type) : Type := Disk Exn α

/-- `base_dir / dir_type / str(job_id)`. -/
def root (base : Path) (area : Area) (j : Uuid) : Path := base ++ [area.dirName, j.str]

/-- What the operating system raises when a directory cannot be created: the path names a
file, or something above it does. -/
def notADirectory (p : Path) : Option Node → Exn
  | some (.file _) => .os "FileExistsError" (pathText p)
  | _ => .os "NotADirectoryError" (pathText p)

/-- What it raises when a file cannot be opened for writing. -/
def cannotOpen (p : Path) : Exn := .os "IsADirectoryError" (pathText p)

/-- The text has a NUL character, which no path of the operating system has. -/
def hasNul (text : String) : Bool := decide ('\x00' ∈ text.toList)

/-- What resolving such a text raises. -/
def nulError : Exn := .value "embedded null byte"

def isFile : Option Node → Bool
  | some (.file _) => true
  | _ => false

section Methods

variable (base : Path)

/-- `_validate_safe_path`. -/
def validateSafePath (j : Uuid) (relativePath : String) (area : Area) : Except Exn Path :=
  if contains relativePath "../" || contains relativePath "..\\" ||
      startsWith relativePath "/" || startsWith relativePath "\\" then
    .error (.permission "Access Denied: Path traversal attempt detected.")
  else if hasNul relativePath then .error nulError
  else
    let baseJobDir := root base area j
    let target := resolve baseJobDir relativePath
    if baseJobDir <+: target then .ok target
    else .error (.permission "Access Denied: Path traversal attempt detected.")

/-- `create_workspace`. -/
def createWorkspace (j : Uuid) : Storage Unit := do
  let jobsDir := root base .jobs j
  let artifactsDir := root base .artifacts j
  Disk.mkdir (notADirectory jobsDir) jobsDir
  Disk.mkdir (notADirectory artifactsDir) artifactsDir

/-- `create_directory`. -/
def createDirectory (j : Uuid) (relativePath : String) : Storage Unit := do
  let target ← Disk.ofExcept (validateSafePath base j relativePath .jobs)
  Disk.mkdir (notADirectory target) target

/-- Create the directory of `target`, then write the file itself: the common
end of the methods that write a file. -/
def writeBelow (target : Path) (data : List UInt8) : Storage Unit := do
  Disk.mkdir (notADirectory target.dropLast) target.dropLast
  Disk.writeBytes (cannotOpen target) target data

/-- `write_file`. -/
def writeFile (j : Uuid) (relativePath : String) (content : Content) : Storage Unit := do
  let target ← Disk.ofExcept (validateSafePath base j relativePath .jobs)
  writeBelow target content.data

/-- The contents of `p`, or the exception `err` if it is not a regular file. -/
def contents (err : Exn) (p : Path) : Storage (List UInt8) := do
  match ← Disk.lookup p with
  | some (.file data) => pure data
  | _ => Disk.raise err

/-- The exception of the methods that read the workspace. -/
def notFound (j : Uuid) (relativePath : String) : Exn :=
  .fileNotFound ("File not found: " ++ relativePath ++ " in workspace of job " ++ j.str)

/-- `read_file`. -/
def readFile (j : Uuid) (relativePath : String) : Storage (List UInt8) := do
  let target ← Disk.ofExcept (validateSafePath base j relativePath .jobs)
  contents (notFound j relativePath) target

/-- `workspace_file_exists`: a path that is refused does not exist; other exceptions are
not caught. -/
def workspaceFileExists (j : Uuid) (relativePath : String) : Storage Bool :=
  match validateSafePath base j relativePath .jobs with
  | .ok target => do
    let node ← Disk.lookup target
    pure (isFile node)
  | .error (.permission _) => pure false
  | .error e => Disk.raise e

/-- `workspace_file_size`. -/
def workspaceFileSize (j : Uuid) (relativePath : String) : Storage ℕ := do
  let target ← Disk.ofExcept (validateSafePath base j relativePath .jobs)
  let data ← contents (notFound j relativePath) target
  pure data.length

/-- `copy_workspace_file`. -/
def copyWorkspaceFile (source target : Uuid) (relativePath : String) : Storage Unit := do
  let src ← Disk.ofExcept (validateSafePath base source relativePath .jobs)
  let data ← contents (notFound source relativePath) src
  let dst ← Disk.ofExcept (validateSafePath base target relativePath .jobs)
  writeBelow dst data

/-- `save_artifact`. -/
def saveArtifact (j : Uuid) (relativePath : String) : Storage Unit := do
  let src ← Disk.ofExcept (validateSafePath base j relativePath .jobs)
  let data ← contents (.fileNotFound ("Source file not found for artifact: " ++ relativePath ++
    " in job " ++ j.str)) src
  let dst ← Disk.ofExcept (validateSafePath base j relativePath .artifacts)
  writeBelow dst data

/-- `check_artifact_exists`. -/
def checkArtifactExists (j : Uuid) (filename : String) : Storage Bool :=
  match validateSafePath base j filename .artifacts with
  | .ok target => do
    let node ← Disk.lookup target
    pure (isFile node)
  | .error (.permission _) => pure false
  | .error e => Disk.raise e

/-- `get_artifact_path`. -/
def getArtifactPath (j : Uuid) (filename : String) : Storage Path := do
  let target ← Disk.ofExcept (validateSafePath base j filename .artifacts)
  let _ ← contents
    (.fileNotFound ("Artifact not found: " ++ filename ++ " for job " ++ j.str)) target
  pure target

/-- The clean-up of one promoted copy in `execute_attempt`.  The path was
accepted by `save_artifact`, so that it lies below the job's artifacts
directory; nothing else is ever removed here. -/
def removeCopy (j : Uuid) (relativePath : String) : Storage Unit :=
  let dir := root base .artifacts j
  if dir <+: resolve dir relativePath then Disk.unlink (resolve dir relativePath)
  else pure ()

/-- `_attempt_path`. -/
def attemptPath (j : Uuid) (token : String) : Except Exn Path :=
  let snapshotsRoot := root base .snapshots j
  let snapshot := resolve snapshotsRoot token
  if snapshotsRoot <+: snapshot then .ok snapshot
  else .error (.permission "Access Denied: Invalid attempt snapshot token.")

/-- `_copy_tree_with_copyfile`. -/
def copyTree (tr : Traversal) (source target : Path) : Storage Unit :=
  Disk.copyTree (.os "OSError" (pathText target)) tr source target

/-- `shutil.rmtree`, after the test that there is something to remove. -/
def rmtree (p : Path) : Storage Unit := Disk.rmtree (.os "NotADirectoryError" (pathText p)) p

/-- `begin_attempt`, for the token that `uuid4` gave. -/
def beginAttempt (tr : Traversal) (token : Uuid) (j : Uuid) : Storage String := do
  let snapshot ← Disk.ofExcept (attemptPath base j token.str)
  copyTree tr (root base .jobs j) (snapshot ++ ["jobs"])
  copyTree tr (root base .artifacts j) (snapshot ++ ["artifacts"])
  pure token.str

/-- `complete_attempt`. -/
def completeAttempt (j : Uuid) (token : String) : Storage Unit := do
  let snapshot ← Disk.ofExcept (attemptPath base j token)
  match ← Disk.lookup snapshot with
  | some _ => rmtree snapshot
  | none => pure ()

/-- Put the snapshot of one tree back. -/
def restore (tr : Traversal) (snapshot destination : Path) : Storage Unit := do
  rmtree destination
  copyTree tr snapshot destination

/-- `rollback_attempt`. -/
def rollbackAttempt (tr : Traversal) (j : Uuid) (token : String) : Storage Unit := do
  let snapshot ← Disk.ofExcept (attemptPath base j token)
  match ← Disk.lookup snapshot with
  | some .dir =>
    restore tr (snapshot ++ ["jobs"]) (root base .jobs j)
    restore tr (snapshot ++ ["artifacts"]) (root base .artifacts j)
    completeAttempt base j token
  | _ => Disk.raise (.fileNotFound ("Attempt snapshot not found: " ++ token))

end Methods

/-! ### The trees of a job -/

theorem Area.dirName_injective : Function.Injective Area.dirName := by
  intro a b
  cases a <;> cases b <;> decide

variable {base : Path}

/-- One of the three trees of a job, seen from its root. -/
def treeOf (base : Path) (area : Area) (j : Uuid) (fs : FileTree) : Tree :=
  fs.node.below (root base area j)

theorem root_ne_nil (area : Area) (j : Uuid) : root base area j ≠ [] := by
  simp [root]

theorem root_apart {a b : Area} {j k : Uuid} (h : a ≠ b ∨ j ≠ k) :
    Apart (root base a j) (root base b k) := by
  by_cases hab : a = b
  · have hjk : j.str ≠ k.str := fun heq =>
      (h.resolve_left (not_not.mpr hab)) (Uuid.str_injective heq)
    have := apart_of_ne (base ++ [a.dirName]) hjk
    rw [List.append_assoc, List.append_assoc] at this
    rw [hab] at this ⊢
    exact this
  · have hne : a.dirName ≠ b.dirName := fun heq => hab (Area.dirName_injective heq)
    have := (apart_of_ne base hne).append [j.str] [k.str]
    rw [List.append_assoc, List.append_assoc] at this
    exact this

/-- A path that passes the check lies below the root it was checked against. -/
theorem validateSafePath_ok {j : Uuid} {rel : String} {area : Area} {p : Path}
    (h : validateSafePath base j rel area = .ok p) :
    p = resolve (root base area j) rel ∧ ∃ q, p = root base area j ++ q := by
  rw [validateSafePath] at h
  by_cases hbad : (contains rel "../" || contains rel "..\\" || startsWith rel "/" ||
      startsWith rel "\\") = true
  · rw [if_pos hbad] at h
    exact absurd h (by simp)
  · rw [if_neg hbad] at h
    by_cases hnul : hasNul rel = true
    · rw [if_pos hnul] at h
      exact absurd h (by simp)
    · rw [if_neg hnul] at h
      by_cases hin : root base area j <+: resolve (root base area j) rel
      · simp only [if_pos hin, Except.ok.injEq] at h
        obtain ⟨q, hq⟩ := hin
        exact ⟨h.symm, q, by rw [← h, hq]⟩
      · simp only [if_neg hin] at h
        exact absurd h (by simp)

theorem attemptPath_ok {j : Uuid} {token : String} {p : Path}
    (h : attemptPath base j token = .ok p) : ∃ q, p = root base .snapshots j ++ q := by
  rw [attemptPath] at h
  by_cases hin : root base .snapshots j <+: resolve (root base .snapshots j) token
  · simp only [if_pos hin, Except.ok.injEq] at h
    obtain ⟨q, hq⟩ := hin
    exact ⟨q, by rw [← h, hq]⟩
  · simp only [if_neg hin] at h
    exact absurd h (by simp)

/-! ### What a method that returned has done -/

theorem contents_ok {err : Exn} {p : Path} {fs fs' : FileTree} {data : List UInt8}
    (h : contents err p fs = (.ok data, fs')) : fs.node p = some (.file data) ∧ fs' = fs := by
  have hrest := Disk.lookup_bind_ok h
  rcases hnode : fs.node p with _ | _ | d
  · rw [hnode] at hrest
    exact absurd (Prod.mk.inj hrest).1 (by simp)
  · rw [hnode] at hrest
    exact absurd (Prod.mk.inj hrest).1 (by simp)
  · rw [hnode] at hrest
    obtain ⟨h₁, h₂⟩ := Prod.mk.inj hrest
    rw [Except.ok.inj h₁]
    exact ⟨rfl, h₂.symm⟩

theorem contents_bind_ok {β : Type} {err : Exn} {p : Path} {f : List UInt8 → Storage β}
    {fs fs' : FileTree} {b : β} (h : (contents err p >>= f) fs = (.ok b, fs')) :
    ∃ data, fs.node p = some (.file data) ∧ f data fs = (.ok b, fs') := by
  obtain ⟨data, fs₁, hdata, hf⟩ := Disk.bind_ok h
  obtain ⟨hnode, rfl⟩ := contents_ok hdata
  exact ⟨data, hnode, hf⟩

theorem writeBelow_ok {r q : Path} {d : List UInt8} {fs fs' : FileTree} {u : Unit}
    (hr : r ≠ []) (h : writeBelow (r ++ q) d fs = (.ok u, fs')) :
    fs'.node.below r = (fs.node.below r).writeAt q d := by
  obtain ⟨_, fs₁, hm, hw⟩ := Disk.bind_ok h
  have h₁ := (Disk.mkdir_ok hm).2
  have h₂ := (Disk.writeBytes_ok hw).2
  rw [h₂, Tree.below_put, Tree.writeAt, h₁]
  by_cases hq : q = []
  · -- the root itself: only directories above it are created
    have hnp : ¬ r <+: r.dropLast := by
      intro hp
      have := hp.length_le
      have := List.length_pos_iff.mpr hr
      rw [List.length_dropLast] at *
      omega
    rw [if_pos hq, hq, List.append_nil, Disk.below_mkdirs_of_not_prefix hnp]
  · rw [if_neg hq, List.dropLast_append_of_ne_nil hq, Tree.below_mkdirs]

/-- The other files below the root survive. -/
theorem writeBelow_files {r q p : Path} {d data : List UInt8} {fs fs' : FileTree} {u : Unit}
    (h : writeBelow (r ++ q) d fs = (.ok u, fs')) (hp : fs.node.below r p = some (.file data))
    (hne : p ≠ q) : fs'.node.below r p = some (.file data) := by
  obtain ⟨_, fs₁, hm, hw⟩ := Disk.bind_ok h
  obtain ⟨hfree, h₁⟩ := Disk.mkdir_ok hm
  have h₂ := (Disk.writeBytes_ok hw).2
  -- a directory that was created has no file on its way
  have hnp : ¬ r ++ p <+: (r ++ q).dropLast := by
    intro hpre
    rw [Tree.blocked_eq_true.mpr ⟨r ++ p, data, hpre, hp⟩] at hfree
    exact absurd hfree (by simp)
  rw [Tree.below, h₂, Tree.put_of_ne _ _ (by simpa using hne), h₁, Tree.mkdirs, if_neg hnp]
  exact hp

/-- Writing a file below the directory `r`: either nothing is in the way, or it
is refused and nothing has changed. -/
theorem writeBelow_cases {r q : Path} {fs : FileTree} (hr : fs.node r = some .dir) (hq : q ≠ [])
    (d : List UInt8) :
    ((fs.node.below r).blocked q.dropLast = false ∧ fs.node.below r q ≠ some .dir ∧
      ∃ fs', writeBelow (r ++ q) d fs = (.ok (), fs')) ∨
    (((fs.node.below r).blocked q.dropLast = true ∨ fs.node.below r q = some .dir) ∧
      ∃ x fs', writeBelow (r ++ q) d fs = (.error x, fs') ∧ fs'.node = fs.node) := by
  have hdrop : (r ++ q).dropLast = r ++ q.dropLast := List.dropLast_append_of_ne_nil hq
  have hblocked := fs.blocked_append hr q.dropLast
  rw [writeBelow, Disk.bind_apply, Disk.mkdir, hdrop]
  by_cases hb : (fs.node.below r).blocked q.dropLast = true
  · have hm : fs.mkdirs (r ++ q.dropLast) = none := by
      rw [FileTree.mkdirs, if_pos (by rw [hblocked, hb])]
    rw [hm]
    exact .inr ⟨.inl hb, _, _, rfl, rfl⟩
  · rw [Bool.not_eq_true] at hb
    obtain ⟨fs₁, hm⟩ := FileTree.exists_mkdirs (hblocked.trans hb)
    have hnode := FileTree.node_mkdirs hm
    -- the file itself is not one of the directories that were created
    have hself : ¬ r ++ q <+: r ++ q.dropLast := by
      intro hp
      have := hp.length_le
      have := List.length_pos_iff.mpr hq
      simp only [List.length_append, List.length_dropLast] at *
      omega
    have htarget : fs₁.node (r ++ q) = fs.node (r ++ q) := by
      rw [hnode, Tree.mkdirs, if_neg hself]
    rw [hm]
    simp only [Disk.writeBytes]
    by_cases hdir : fs.node.below r q = some .dir
    · have hw : fs₁.write (r ++ q) d = none := by
        rw [FileTree.write, dif_neg fun hc => hc.2.2 (htarget.trans hdir)]
      rw [hw]
      refine .inr ⟨.inr hdir, _, fs₁, rfl, ?_⟩
      funext p
      rw [hnode, Tree.mkdirs]
      by_cases hp : p <+: r ++ q.dropLast
      · have hpq : p <+: r ++ q := hp.trans (hdrop ▸ List.dropLast_prefix _)
        have hex : fs.node (r ++ q) ≠ none := by
          rw [show fs.node (r ++ q) = some .dir from hdir]
          simp
        rw [if_pos hp, fs.dir_of_prefix hex hpq fun heq => hself (heq ▸ hp)]
      · rw [if_neg hp]
    · have hparent : fs₁.node (r ++ q).dropLast = some .dir := by
        rw [hdrop, hnode, Tree.mkdirs, if_pos (List.prefix_refl _)]
      obtain ⟨fs₂, hw⟩ := FileTree.exists_write d (by simp [hq]) hparent
        fun h => hdir (htarget.symm.trans h)
      rw [hw]
      exact .inl ⟨hb, hdir, fs₂, rfl⟩

theorem createDirectory_ok {j : Uuid} {rel : String} {fs fs' : FileTree} {u : Unit}
    (h : createDirectory base j rel fs = (.ok u, fs')) :
    ∃ q, validateSafePath base j rel .jobs = .ok (root base .jobs j ++ q) ∧
      treeOf base .jobs j fs' = (treeOf base .jobs j fs).mkdirs q := by
  obtain ⟨p, hp, hm⟩ := Disk.ofExcept_bind_ok h
  obtain ⟨-, q, rfl⟩ := validateSafePath_ok hp
  refine ⟨q, hp, ?_⟩
  rw [treeOf, treeOf, (Disk.mkdir_ok hm).2, Tree.below_mkdirs]

theorem writeFile_ok {j : Uuid} {rel : String} {content : Content} {fs fs' : FileTree} {u : Unit}
    (h : writeFile base j rel content fs = (.ok u, fs')) :
    ∃ q, validateSafePath base j rel .jobs = .ok (root base .jobs j ++ q) ∧
      treeOf base .jobs j fs' = (treeOf base .jobs j fs).writeAt q content.data := by
  obtain ⟨p, hp, hw⟩ := Disk.ofExcept_bind_ok h
  obtain ⟨-, q, rfl⟩ := validateSafePath_ok hp
  exact ⟨q, hp, writeBelow_ok (root_ne_nil _ _) hw⟩

/-- `save_artifact` copies a file of the workspace. -/
theorem saveArtifact_ok {j : Uuid} {rel : String} {fs fs' : FileTree} {u : Unit}
    (h : saveArtifact base j rel fs = (.ok u, fs')) :
    ∃ q q' data, validateSafePath base j rel .jobs = .ok (root base .jobs j ++ q) ∧
      validateSafePath base j rel .artifacts = .ok (root base .artifacts j ++ q') ∧
      treeOf base .jobs j fs q = some (.file data) ∧
      treeOf base .artifacts j fs' = (treeOf base .artifacts j fs).writeAt q' data ∧
      ∀ p d, p ≠ q' → treeOf base .artifacts j fs p = some (.file d) →
        treeOf base .artifacts j fs' p = some (.file d) := by
  obtain ⟨p, hp, h⟩ := Disk.ofExcept_bind_ok h
  obtain ⟨-, q, rfl⟩ := validateSafePath_ok hp
  obtain ⟨data, hd, h⟩ := contents_bind_ok h
  obtain ⟨p', hp', h⟩ := Disk.ofExcept_bind_ok h
  obtain ⟨-, q', rfl⟩ := validateSafePath_ok hp'
  exact ⟨q, q', data, hp, hp', hd, writeBelow_ok (root_ne_nil _ _) h,
    fun p d hne hpd => writeBelow_files h hpd hne⟩

/-- `create_workspace` makes both roots directories. -/
theorem createWorkspace_ok {j : Uuid} {fs fs' : FileTree} {u : Unit}
    (h : createWorkspace base j fs = (.ok u, fs')) :
    treeOf base .jobs j fs' = (treeOf base .jobs j fs).mkdirs [] ∧
      treeOf base .artifacts j fs' = (treeOf base .artifacts j fs).mkdirs [] := by
  obtain ⟨_, fs₁, hjobs, harts⟩ := Disk.bind_ok h
  have h₁ := (Disk.mkdir_ok hjobs).2
  have h₂ := (Disk.mkdir_ok harts).2
  have hapart : Apart (root base .jobs j) (root base .artifacts j) := root_apart (.inl (by decide))
  have hmk : ∀ area, fs₁.node.mkdirs (root base area j) = fs₁.node.mkdirs (root base area j ++ []) ∧
      fs.node.mkdirs (root base area j) = fs.node.mkdirs (root base area j ++ []) := by
    intro area
    rw [List.append_nil]
    exact ⟨rfl, rfl⟩
  refine ⟨?_, ?_⟩
  · rw [treeOf, treeOf, h₂, (hmk .artifacts).1, Tree.below_mkdirs_apart _ _ hapart, h₁,
      (hmk .jobs).2, Tree.below_mkdirs]
  · rw [treeOf, treeOf, h₂, (hmk .artifacts).1, Tree.below_mkdirs, h₁, (hmk .jobs).2,
      Tree.below_mkdirs_apart _ _ hapart.symm]

theorem workspaceFileSize_ok {j : Uuid} {rel : String} {fs fs' : FileTree} {n : ℕ}
    (h : workspaceFileSize base j rel fs = (.ok n, fs')) :
    ∃ q data, validateSafePath base j rel .jobs = .ok (root base .jobs j ++ q) ∧
      treeOf base .jobs j fs q = some (.file data) ∧ n = data.length := by
  obtain ⟨p, hp, h⟩ := Disk.ofExcept_bind_ok h
  obtain ⟨-, q, rfl⟩ := validateSafePath_ok hp
  obtain ⟨data, hd, h⟩ := contents_bind_ok h
  exact ⟨q, data, hp, hd, (Except.ok.inj (Prod.mk.inj h).1).symm⟩

/-- `copy_workspace_file` copies a file of the other workspace. -/
theorem copyWorkspaceFile_ok {source j : Uuid} {rel : String} {fs fs' : FileTree} {u : Unit}
    (h : copyWorkspaceFile base source j rel fs = (.ok u, fs')) :
    ∃ q q' data, validateSafePath base source rel .jobs = .ok (root base .jobs source ++ q) ∧
      validateSafePath base j rel .jobs = .ok (root base .jobs j ++ q') ∧
      treeOf base .jobs source fs q = some (.file data) ∧
      treeOf base .jobs j fs' = (treeOf base .jobs j fs).writeAt q' data := by
  obtain ⟨p, hp, h⟩ := Disk.ofExcept_bind_ok h
  obtain ⟨-, q, rfl⟩ := validateSafePath_ok hp
  obtain ⟨data, hd, h⟩ := contents_bind_ok h
  obtain ⟨p', hp', h⟩ := Disk.ofExcept_bind_ok h
  obtain ⟨-, q', rfl⟩ := validateSafePath_ok hp'
  exact ⟨q, q', data, hp, hp', hd, writeBelow_ok (root_ne_nil _ _) h⟩

/-- `get_artifact_path` finds a regular file. -/
theorem getArtifactPath_of_file {j : Uuid} {filename : String} {p : Path} {data : List UInt8}
    {fs : FileTree} (hp : validateSafePath base j filename .artifacts = .ok p)
    (hfile : fs.node p = some (.file data)) : getArtifactPath base j filename fs = (.ok p, fs) := by
  have hcontents : ∀ err, contents err p fs = (.ok data, fs) := by
    intro err
    rw [contents, Disk.bind_apply, Disk.lookup, hfile]
    rfl
  rw [getArtifactPath, hp, Disk.bind_apply, Disk.ofExcept]
  simp only [Disk.bind_apply, hcontents, Disk.pure_apply]

/-- What `get_artifact_path` returns is a regular file of the artifacts
directory. -/
theorem getArtifactPath_ok {j : Uuid} {filename : String} {p : Path} {fs fs' : FileTree}
    (h : getArtifactPath base j filename fs = (.ok p, fs')) :
    validateSafePath base j filename .artifacts = .ok p ∧
      ∃ data, fs.node p = some (.file data) := by
  obtain ⟨target, htarget, h⟩ := Disk.ofExcept_bind_ok h
  obtain ⟨data, hdata, h⟩ := contents_bind_ok h
  obtain rfl : target = p := Except.ok.inj (Prod.mk.inj h).1
  exact ⟨htarget, data, hdata⟩

/-! ### Snapshots -/

theorem copyTree_ok {tr : Traversal} {src dst : Path} {fs fs' : FileTree} {u : Unit}
    (h : copyTree tr src dst fs = (.ok u, fs')) (hdis : Apart dst src)
    (hfresh : fs.node dst = none) :
    fs'.node.below dst = (fs.node.below src).copied ∧
      ∀ r, Apart r dst → fs'.node.below r = fs.node.below r := by
  refine ⟨?_, fun r hr => ?_⟩
  · rw [Disk.copyTree_ok h hdis hfresh, Tree.below_graft_self]
  · have hspares := Disk.spares_copyTree (Exn.os "OSError" (pathText dst)) tr src
      (List.mem_singleton_self dst) (List.prefix_refl dst)
    have hkeeps := Disk.Stays.keeps hspares.stays (by simpa using hr) fs
    rw [copyTree] at h
    rw [h] at hkeeps
    exact hkeeps

/-- The snapshot of a fresh token holds copies of both trees. -/
theorem beginAttempt_ok {tr : Traversal} {token j : Uuid} {fs fs' : FileTree} {t : String}
    {snapshot : Path} (hpath : attemptPath base j token.str = .ok snapshot)
    (hfresh : fs.node snapshot = none)
    (h : beginAttempt base tr token j fs = (.ok t, fs')) :
    t = token.str ∧
      fs'.node.below (snapshot ++ ["jobs"]) = (treeOf base .jobs j fs).copied ∧
      fs'.node.below (snapshot ++ ["artifacts"]) = (treeOf base .artifacts j fs).copied := by
  obtain ⟨q, rfl⟩ := attemptPath_ok hpath
  obtain ⟨p, hp, h⟩ := Disk.ofExcept_bind_ok h
  rw [hpath, Except.ok.injEq] at hp
  subst hp
  obtain ⟨_, fs₁, hcopy₁, h⟩ := Disk.bind_ok h
  obtain ⟨_, fs₂, hcopy₂, h⟩ := Disk.bind_ok h
  obtain ⟨ht, rfl⟩ := Prod.mk.inj h
  set snapshot := root base .snapshots j ++ q with hs
  -- The snapshot is new, so that both copies go to places where nothing is.
  have below : ∀ n, fs.node (snapshot ++ [n]) = none := by
    intro n
    exact fs.none_of_prefix (by rw [hfresh]; simp) (List.prefix_append _ _) (by simp)
  have apart : ∀ area, area ≠ .snapshots → ∀ n, Apart (snapshot ++ [n]) (root base area j) := by
    intro area harea n
    have := (@root_apart base _ _ j j (.inl harea.symm)).append (q ++ [n]) []
    rw [List.append_nil, ← List.append_assoc] at this
    exact this
  have hsib : Apart (snapshot ++ ["jobs"]) (snapshot ++ ["artifacts"]) :=
    apart_of_ne snapshot (by decide)
  obtain ⟨hjobs, hkeep₁⟩ := copyTree_ok hcopy₁ (apart .jobs (by decide) _) (below _)
  have hempty : fs₁.node (snapshot ++ ["artifacts"]) = none := by
    have := congrFun (hkeep₁ _ hsib.symm) []
    simp only [Tree.below, List.append_nil] at this
    rw [this, below]
  obtain ⟨harts, hkeep₂⟩ := copyTree_ok hcopy₂ (apart .artifacts (by decide) _) hempty
  refine ⟨(Except.ok.inj ht).symm, ?_, ?_⟩
  · rw [hkeep₂ _ hsib, hjobs]
    rfl
  · rw [harts, hkeep₁ _ (apart .artifacts (by decide) _).symm]
    rfl

theorem rmtree_ok {p : Path} {fs fs' : FileTree} {u : Unit} (h : rmtree p fs = (.ok u, fs')) :
    fs'.node = fs.node.remove p := Disk.rmtree_ok h

/-- A restored tree is the one in the snapshot. -/
theorem restore_ok {tr : Traversal} {src dst : Path} {fs fs' : FileTree} {u : Unit}
    (h : restore tr src dst fs = (.ok u, fs')) (hdis : Apart dst src) (hdst : dst ≠ []) :
    fs'.node.below dst = (fs.node.below src).copied ∧
      ∀ r, Apart r dst → fs'.node.below r = fs.node.below r := by
  obtain ⟨_, fs₁, hrm, hcopy⟩ := Disk.bind_ok h
  have hnode := rmtree_ok hrm
  have hfresh : fs₁.node dst = none := by
    rw [hnode, Tree.remove, if_pos ⟨List.prefix_refl dst, hdst⟩]
  have hkeep : ∀ r, Apart r dst → fs₁.node.below r = fs.node.below r := by
    intro r hr
    rw [hnode]
    exact Disk.below_remove_of_apart hr
  obtain ⟨h₁, h₂⟩ := copyTree_ok hcopy hdis hfresh
  refine ⟨?_, fun r hr => (h₂ r hr).trans (hkeep r hr)⟩
  rw [h₁, hkeep src hdis.symm]

theorem completeAttempt_ok {j : Uuid} {token : String} {fs fs' : FileTree} {u : Unit}
    (h : completeAttempt base j token fs = (.ok u, fs')) :
    ∃ q, attemptPath base j token = .ok (root base .snapshots j ++ q) ∧
      fs'.node = fs.node.remove (root base .snapshots j ++ q) := by
  obtain ⟨p, hp, h⟩ := Disk.ofExcept_bind_ok h
  obtain ⟨q, rfl⟩ := attemptPath_ok hp
  refine ⟨q, hp, ?_⟩
  have h := Disk.lookup_bind_ok h
  rcases hnode : fs.node (root base .snapshots j ++ q) with _ | n
  · -- nothing there, hence nothing below it either
    rw [hnode] at h
    obtain ⟨_, rfl⟩ := Prod.mk.inj h
    funext r
    rw [Tree.remove]
    by_cases hr : root base .snapshots j ++ q <+: r ∧ r ≠ []
    · rw [if_pos hr]
      by_cases heq : root base .snapshots j ++ q = r
      · rw [← heq, hnode]
      · exact fs.none_of_prefix (by rw [hnode]; simp) hr.1 heq
    · rw [if_neg hr]
  · rw [hnode] at h
    exact rmtree_ok h

/-- **Rollback restores the snapshot.**  Both trees of the job become the copies
that the snapshot holds, and the snapshot is gone. -/
theorem rollbackAttempt_ok {tr : Traversal} {j : Uuid} {token : String} {snapshot : Path}
    {fs fs' : FileTree} {u : Unit} (hpath : attemptPath base j token = .ok snapshot)
    (h : rollbackAttempt base tr j token fs = (.ok u, fs')) :
    treeOf base .jobs j fs' = (fs.node.below (snapshot ++ ["jobs"])).copied ∧
      treeOf base .artifacts j fs' = (fs.node.below (snapshot ++ ["artifacts"])).copied ∧
      fs'.node snapshot = none := by
  obtain ⟨q, rfl⟩ := attemptPath_ok hpath
  obtain ⟨p, hp, h⟩ := Disk.ofExcept_bind_ok h
  rw [hpath, Except.ok.injEq] at hp
  subst hp
  have h := Disk.lookup_bind_ok h
  set snapshot := root base .snapshots j ++ q with hs
  have apart : ∀ area, area ≠ .snapshots → ∀ n, Apart (root base area j) (snapshot ++ n) := by
    intro area harea n
    have := (@root_apart base _ _ j j (.inl harea)).append [] (q ++ n)
    rw [List.append_nil, ← List.append_assoc] at this
    exact this
  have hareas : Apart (root base .artifacts j) (root base .jobs j) :=
    root_apart (.inl (by decide))
  rcases hnode : fs.node snapshot with _ | _ | d
  · rw [hnode] at h
    exact absurd (Prod.mk.inj h).1 (by simp)
  · rw [hnode] at h
    obtain ⟨_, fs₂, hr₁, h⟩ := Disk.bind_ok h
    obtain ⟨_, fs₃, hr₂, h⟩ := Disk.bind_ok h
    obtain ⟨hjobs, hkeep₁⟩ := restore_ok hr₁ (apart .jobs (by decide) _) (root_ne_nil _ _)
    obtain ⟨harts, hkeep₂⟩ := restore_ok hr₂ (apart .artifacts (by decide) _) (root_ne_nil _ _)
    obtain ⟨q', hq', hfs'⟩ := completeAttempt_ok h
    rw [hpath, Except.ok.injEq] at hq'
    rw [← hq'] at hfs'
    -- The snapshot is removed at the end, outside of the two trees.
    have hlast : ∀ r, Apart r snapshot → fs'.node.below r = fs₃.node.below r := by
      intro r hr
      rw [hfs']
      exact Disk.below_remove_of_apart hr
    have hout : ∀ area, area ≠ .snapshots → Apart (root base area j) snapshot := by
      intro area harea
      have := apart area harea []
      rwa [List.append_nil] at this
    refine ⟨?_, ?_, ?_⟩
    · rw [treeOf, hlast _ (hout .jobs (by decide)), hkeep₂ _ hareas.symm, hjobs]
    · rw [treeOf, hlast _ (hout .artifacts (by decide)), harts,
        hkeep₁ _ (apart .jobs (by decide) _).symm]
    · rw [hfs', Tree.remove, if_pos ⟨List.prefix_refl _, by simp [hs, root]⟩]
  · rw [hnode] at h
    exact absurd (Prod.mk.inj h).1 (by simp)

/-! ### What the snapshot protocol raises -/

theorem attemptPath_raises (j : Uuid) (token : String) :
    Disk.Raises (fun e => e.isOSError) (Disk.ofExcept (attemptPath base j token)) := by
  refine Disk.raises_ofExcept fun e he => ?_
  rw [attemptPath] at he
  by_cases hin : root base .snapshots j <+: resolve (root base .snapshots j) token
  · simp only [if_pos hin] at he
    exact absurd he (by simp)
  · simp only [if_neg hin, Except.error.injEq] at he
    rw [← he]
    rfl

theorem rmtree_raises (p : Path) : Disk.Raises (fun e => e.isOSError) (rmtree p) :=
  Disk.raises_rmtree (P := fun e : Exn => e.isOSError = true) rfl p

theorem copyTree_raises (tr : Traversal) (src dst : Path) :
    Disk.Raises (fun e => e.isOSError) (copyTree tr src dst) :=
  Disk.raises_copyTree (P := fun e : Exn => e.isOSError = true) rfl tr src dst

theorem completeAttempt_raises (j : Uuid) (token : String) :
    Disk.Raises (fun e => e.isOSError) (completeAttempt base j token) := by
  refine Disk.raises_bind (attemptPath_raises j token) fun p =>
    Disk.raises_bind (Disk.raises_lookup p) fun n => ?_
  cases n with
  | none => exact Disk.raises_pure ()
  | some n => exact rmtree_raises p

theorem rollbackAttempt_raises (tr : Traversal) (j : Uuid) (token : String) :
    Disk.Raises (fun e => e.isOSError) (rollbackAttempt base tr j token) := by
  have hrestore : ∀ src dst, Disk.Raises (fun e => e.isOSError) (restore tr src dst) :=
    fun src dst => Disk.raises_bind (rmtree_raises dst) fun _ => copyTree_raises tr src dst
  refine Disk.raises_bind (attemptPath_raises j token) fun p =>
    Disk.raises_bind (Disk.raises_lookup p) fun n => ?_
  rcases n with _ | _ | d
  · exact Disk.raises_raise rfl
  · exact Disk.raises_bind (hrestore _ _) fun _ => Disk.raises_bind (hrestore _ _) fun _ =>
      completeAttempt_raises j token
  · exact Disk.raises_raise rfl

/-! ### What a method leaves alone

However a method ends, it stays within the trees that it is meant to write; only
the end of an attempt removes directories. -/

section Stays

variable {j : Uuid}

theorem follows_contents {R : Tree → Tree → Prop} (hrefl : ∀ t, R t t) (err : Exn) (p : Path) :
    Disk.Follows R (contents err p) := by
  intro fs
  have hsame : (contents err p fs).2 = fs := by
    rw [contents, Disk.bind_apply, Disk.lookup]
    rcases fs.node p with _ | _ | d <;> rfl
  rw [hsame]
  exact hrefl fs.node

variable {roots : List Path}

theorem spares_contents_bind {β : Type} {err : Exn} {p : Path} {f : List UInt8 → Storage β}
    (h : ∀ d, Disk.Spares roots (f d)) : Disk.Spares roots (contents err p >>= f) :=
  Disk.spares_bind (follows_contents (.refl roots) err p) h

theorem spares_validateSafePath {β : Type} {rel : String} {area : Area} {f : Path → Storage β}
    (h : ∀ q, Disk.Spares roots (f (root base area j ++ q))) :
    Disk.Spares roots (Disk.ofExcept (validateSafePath base j rel area) >>= f) := by
  refine Disk.follows_ofExcept_bind (.refl roots) fun p hp => ?_
  obtain ⟨-, q, rfl⟩ := validateSafePath_ok hp
  exact h q

theorem follows_attemptPath {R : Tree → Tree → Prop} (hrefl : ∀ t, R t t) {β : Type}
    {token : String} {f : Path → Storage β}
    (h : ∀ q, Disk.Follows R (f (root base .snapshots j ++ q))) :
    Disk.Follows R (Disk.ofExcept (attemptPath base j token) >>= f) := by
  refine Disk.follows_ofExcept_bind hrefl fun p hp => ?_
  obtain ⟨q, rfl⟩ := attemptPath_ok hp
  exact h q

/-- Where the target is the root itself, its directory is above the root. -/
theorem spares_writeBelow {r : Path} (hr : r ∈ roots) (q : Path) (d : List UInt8) :
    Disk.Spares roots (writeBelow (r ++ q) d) := by
  have hbelow : r <+: r ++ q := List.prefix_append r q
  refine Disk.spares_bind (Disk.spares_mkdir _ hr ?_) fun _ =>
    Disk.spares_writeBytes _ _ hr hbelow
  exact List.prefix_or_prefix_of_prefix (List.dropLast_prefix _) hbelow

theorem createWorkspace_spares (h₁ : root base .jobs j ∈ roots)
    (h₂ : root base .artifacts j ∈ roots) : Disk.Spares roots (createWorkspace base j) :=
  Disk.spares_bind (Disk.spares_mkdir _ h₁ (.inl (List.prefix_refl _))) fun _ =>
    Disk.spares_mkdir _ h₂ (.inl (List.prefix_refl _))

theorem createDirectory_spares (h : root base .jobs j ∈ roots) (rel : String) :
    Disk.Spares roots (createDirectory base j rel) :=
  spares_validateSafePath fun q => Disk.spares_mkdir _ h (.inr (List.prefix_append _ q))

theorem writeFile_spares (h : root base .jobs j ∈ roots) (rel : String) (content : Content) :
    Disk.Spares roots (writeFile base j rel content) :=
  spares_validateSafePath fun q => spares_writeBelow h q _

theorem readFile_spares (rel : String) : Disk.Spares roots (readFile base j rel) :=
  spares_validateSafePath fun _ => follows_contents (.refl roots) _ _

theorem workspaceFileExists_spares (rel : String) :
    Disk.Spares roots (workspaceFileExists base j rel) := by
  rw [workspaceFileExists]
  rcases validateSafePath base j rel .jobs with e | p
  · cases e with
    | permission message => exact Disk.follows_pure (.refl roots) _
    | _ => exact Disk.follows_raise (.refl roots) _
  · exact Disk.spares_bind (Disk.follows_lookup (.refl roots) p) fun _ =>
      Disk.follows_pure (.refl roots) _

theorem workspaceFileSize_spares (rel : String) :
    Disk.Spares roots (workspaceFileSize base j rel) :=
  spares_validateSafePath fun _ => spares_contents_bind fun _ =>
    Disk.follows_pure (.refl roots) _

theorem copyWorkspaceFile_spares {source : Uuid} (h : root base .jobs j ∈ roots)
    (rel : String) : Disk.Spares roots (copyWorkspaceFile base source j rel) :=
  spares_validateSafePath fun _ => spares_contents_bind fun _ =>
    spares_validateSafePath fun q => spares_writeBelow h q _

theorem saveArtifact_spares (h : root base .artifacts j ∈ roots) (rel : String) :
    Disk.Spares roots (saveArtifact base j rel) :=
  spares_validateSafePath fun _ => spares_contents_bind fun _ =>
    spares_validateSafePath fun q => spares_writeBelow h q _

theorem removeCopy_spares (h : root base .artifacts j ∈ roots) (rel : String) :
    Disk.Spares roots (removeCopy base j rel) := by
  rw [removeCopy]
  by_cases hin : root base .artifacts j <+: resolve (root base .artifacts j) rel
  · simp only [if_pos hin]
    exact Disk.spares_unlink h hin
  · simp only [if_neg hin]
    exact Disk.follows_pure (.refl roots) _

theorem beginAttempt_spares (h : root base .snapshots j ∈ roots) (tr : Traversal)
    (token : Uuid) : Disk.Spares roots (beginAttempt base tr token j) := by
  refine follows_attemptPath (.refl roots) fun q => ?_
  rw [List.append_assoc, List.append_assoc]
  exact Disk.spares_bind (Disk.spares_copyTree _ tr _ h (List.prefix_append _ _)) fun _ =>
    Disk.spares_bind (Disk.spares_copyTree _ tr _ h (List.prefix_append _ _)) fun _ =>
      Disk.follows_pure (.refl roots) _

theorem completeAttempt_stays (h : root base .snapshots j ∈ roots) (token : String) :
    Disk.Stays roots (completeAttempt base j token) := by
  refine follows_attemptPath (.refl roots) fun q =>
    Disk.stays_bind (Disk.follows_lookup (.refl roots) _) fun n => ?_
  cases n with
  | none => exact Disk.follows_pure (.refl roots) _
  | some n => exact Disk.stays_rmtree _ h (List.prefix_append _ q)

theorem restore_stays {tr : Traversal} {src dst : Path} (h : dst ∈ roots) :
    Disk.Stays roots (restore tr src dst) :=
  Disk.stays_bind (Disk.stays_rmtree _ h (List.prefix_refl dst)) fun _ =>
    Disk.Spares.stays (Disk.spares_copyTree _ tr src h (List.prefix_refl dst))

theorem rollbackAttempt_stays (h₁ : root base .jobs j ∈ roots)
    (h₂ : root base .artifacts j ∈ roots) (h₃ : root base .snapshots j ∈ roots)
    (tr : Traversal) (token : String) : Disk.Stays roots (rollbackAttempt base tr j token) := by
  refine follows_attemptPath (.refl roots) fun q =>
    Disk.stays_bind (Disk.follows_lookup (.refl roots) _) fun n => ?_
  rcases n with _ | _ | d
  · exact Disk.follows_raise (.refl roots) _
  · exact Disk.stays_bind (restore_stays h₁) fun _ =>
      Disk.stays_bind (restore_stays h₂) fun _ => completeAttempt_stays h₃ token
  · exact Disk.follows_raise (.refl roots) _

end Stays

end LocalStorage

end CliExecutionPlatform
