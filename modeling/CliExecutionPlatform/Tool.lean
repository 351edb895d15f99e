/-
The computations of the CLI runner (`runner/service.py`, `runner/validator.py`,
`runner/exceptions.py`) that do not wait for anything: the check of the
arguments, the staging of inputs, the line buffer of an output stream and the
copy of results back into the workspace.

* `validateArgs` — `ArgumentValidator.validate`;
* `outputFile`, `checkOutput`, `makeOutputDir` — the first `-o` option;
* `stage`, `changed`, `copyOut` — what goes into the temporary directory and
  what comes out of it;
* `Drain` — one of the two `drain` coroutines of `_collect_streams`;
* `Behaviour` — all that the launched process will do, as seen by the runner.
-/
import CliExecutionPlatform.LocalStorage

open Files

namespace CliExecutionPlatform

open LocalStorage (Storage root)

/-! ### Arguments -/

/-- The character class of `SAFE_ARG_PATTERN`. -/
def safeChar (c : Char) : Bool :=
  ('a' ≤ c ∧ c ≤ 'z') ∨ ('A' ≤ c ∧ c ≤ 'Z') ∨ ('0' ≤ c ∧ c ≤ '9') ∨
    c ∈ ['_', '.', '/', ':', '=', ',', '-']

/-- `SAFE_ARG_PATTERN.match`.  The `$` of the pattern also matches before a
newline at the very end. -/
def safeArg (arg : String) : Bool :=
  let body := if arg.toList.getLast? = some '\n' then arg.toList.dropLast else arg.toList
  body ≠ [] ∧ body.all safeChar

/-- `ArgumentValidator.validate`. -/
def validateArgs : List String → Except Exn Unit
  | [] => .ok ()
  | arg :: rest => if safeArg arg then validateArgs rest else .error (.cliArgument arg)

/-- The element after the first `-o` that has one after it. -/
def outputFile : List String → Option String
  | a :: b :: rest => if a = "-o" then some b else outputFile (b :: rest)
  | _ => none

/-- The check of the output path: an empty one is no output path, an absolute
one or one with a `..` component is refused. -/
def checkOutput : Option String → Except Exn Unit
  | none => .ok ()
  | some out =>
    if out = "" then .ok ()
    else if isAbsolute out ∨ ".." ∈ segments out then .error (.cliArgument out)
    else .ok ()

/-! ### The temporary directory -/

/-- A regular file of the temporary directory. -/
structure TmpFile where
  path : Path
  data : List UInt8
  mtime : ℕ
  deriving DecidableEq

/-- What the tool finds in its working directory. -/
structure Staged where
  dirs : List Path
  files : List TmpFile

/-- The parts of a relative path: empty ones and `.` are dropped. -/
def relativeParts (text : String) : Path := (segments text).filter fun c => c ≠ "" ∧ c ≠ "."

/-- The directory of the output file is created in the temporary directory;
that is refused if a staged file is on the way. -/
def makeOutputDir (staged : Staged) : Option String → Except Exn Unit
  | none => .ok ()
  | some out =>
    if out = "" then .ok ()
    else
      let dir := (relativeParts out).dropLast
      match staged.files.find? fun f => f.path <+: dir with
      | none => .ok ()
      | some f =>
        .error (.os (if f.path = dir then "FileExistsError" else "NotADirectoryError")
          (pathText dir))

/-- `**/*.scad`. -/
def isScad (p : Path) : Bool :=
  match p.getLast? with
  | some name => decide (".scad".toList <:+ name.toList)
  | none => false

/-- `_resolve_job_workspace` and the staging of directories and `.scad` files. -/
def stage (base : Path) (tr : Traversal) (now : ℕ) (j : Uuid) : Storage Staged := fun fs =>
  let workspace := root base .jobs j
  match fs.node workspace with
  | some .dir =>
    let entries := tr.order (fs.entriesBelow workspace)
    (.ok { dirs := entries.filter fun p => fs.node (workspace ++ p) = some .dir
           files := entries.filterMap fun p =>
            match fs.node (workspace ++ p) with
            | some (.file data) => if isScad p then some ⟨p, data, now⟩ else none
            | _ => none }, fs)
  | _ => (.error (.cliLaunch ("Job workspace does not exist or is not a directory: " ++
      pathText workspace) (pathText workspace) 0), fs)

/-- A file of the temporary directory is copied back if it is new or if its
size or modification time is not the one before the run. -/
def changed (before : List TmpFile) (f : TmpFile) : Bool :=
  match before.find? fun g => g.path = f.path with
  | none => true
  | some g => f.data.length ≠ g.data.length ∨ f.mtime ≠ g.mtime

/-- `workspace_target == explicit_output_path`. -/
def isExplicitOutput (workspace : Path) (output : Option String) (target : Path) : Bool :=
  match output with
  | some out => out ≠ "" ∧ target = resolve workspace out
  | none => false

/-- Copy one changed file back into the workspace. -/
def copyOut (base : Path) (j : Uuid) (output : Option String) (f : TmpFile) : Storage Unit :=
  let workspace := root base .jobs j
  let target := follow workspace f.path
  if workspace <+: target then do
    match ← Disk.lookup target with
    | none => LocalStorage.writeBelow target f.data
    | some _ =>
      if isExplicitOutput workspace output target then LocalStorage.writeBelow target f.data
      else Disk.raise (.cliExecution
        ("Access denied: Attempted to overwrite existing non-output file in workspace: " ++
          "/".intercalate f.path) none "" "")
  else Disk.raise (.cliExecution
    ("Target path traversal attempt during copy: " ++ pathText target) none "" "")

theorem stage_spares {base : Path} {tr : Traversal} {now : ℕ} {j : Uuid} (roots : List Path) :
    Disk.Spares roots (stage base tr now j) := by
  intro fs
  rw [stage]
  rcases fs.node (root base .jobs j) with _ | _ | d <;> exact .refl _ _

theorem copyOut_spares {base : Path} {roots : List Path} {j : Uuid}
    (h : root base .jobs j ∈ roots) (output : Option String) (f : TmpFile) :
    Disk.Spares roots (copyOut base j output f) := by
  rw [copyOut]
  by_cases hin : root base .jobs j <+: follow (root base .jobs j) f.path
  · obtain ⟨q, hq⟩ := hin
    simp only [← hq, List.prefix_append, if_true]
    refine Disk.spares_bind (Disk.follows_lookup (.refl roots) _) fun n => ?_
    cases n with
    | none => exact LocalStorage.spares_writeBelow h q _
    | some n =>
      exact Disk.follows_ite (LocalStorage.spares_writeBelow h q _)
        (Disk.follows_raise (.refl roots) _)
  · simp only [if_neg hin]
    exact Disk.follows_raise (.refl roots) _

/-! ### Output streams -/

inductive Stream
  | stdout
  | stderr
  deriving DecidableEq

def Stream.other : Stream → Stream
  | .stdout => .stderr
  | .stderr => .stdout

/-- `text.rstrip("\r")`. -/
def rstripCR (text : String) : String :=
  String.ofList (text.toList.reverse.dropWhile (· = '\r')).reverse

/-- `line[:n]`, marked with dots if something was cut off. -/
def cutLine (limit : ℕ) (line : String) : String :=
  if line.toList.length ≤ limit then line
  else String.ofList (line.toList.take limit) ++ "..."

/-- One stream: the bytes after the last newline, the last lines, and whether
the end of the stream was seen. -/
structure Drain where
  buffer : List UInt8
  tail : List String
  finished : Bool

namespace Drain

def start : Drain := ⟨[], [], false⟩

/-- The complete lines of a buffer, decoded, and the rest. -/
def takeLines (decode : List UInt8 → String) (buffer : List UInt8) :
    List String × List UInt8 :=
  let raw := buffer.splitOn 10
  (raw.dropLast.map fun line => rstripCR (decode line), raw.getLast?.getD [])

/-- The events that `persist` adds for some lines: empty lines are dropped. -/
def records (lines : List String) : List (EventType × String) :=
  (lines.filter (· ≠ "")).map fun line => (.cliOutput, line)

/-- The tail after `persist`: the last 20 lines, each cut to 500 characters. -/
def keepTail (tail lines : List String) : List String :=
  let all := tail ++ (lines.filter (· ≠ "")).map (cutLine 500)
  all.drop (all.length - 20)

/-- `"\n".join(tail)`. -/
def text (d : Drain) : String := "\n".intercalate d.tail

end Drain

/-- `_bounded_stream_tail`. -/
def boundedStreamTail (value : String) : String :=
  let cs := value.toList
  if cs.length ≤ 4000 then value
  else "...[truncated]\n" ++ String.ofList (cs.drop (cs.length - 4000))

/-- How the wait for the process ends: it exits and both streams end, the
deadline passes, or the waiting task is cancelled.  When the deadline has passed
nobody reads the streams any more: a pipe is `connected` for good if its reader
is paused because too much of it is unread, or if a process that the tool has
started keeps its other end open. -/
inductive Ending
  | exited (code : ℤ)
  | deadline (connected : Bool)
  | cancelled
  deriving DecidableEq

/-- What a launched process will do: the chunks in the order in which the two
drains get them (an empty chunk is the end of that stream), how the wait ends
and the regular files that are in the temporary directory afterwards. -/
structure Behaviour where
  arrivals : List (Stream × List UInt8)
  ending : Ending
  files : List TmpFile

/-- A drain that goes on after the run it belongs to has ended: `gather` does
not cancel the other coroutine when one of them raises. -/
structure Orphan where
  job : Uuid
  buffer : List UInt8
  chunks : List (List UInt8)
  deriving DecidableEq

end CliExecutionPlatform
