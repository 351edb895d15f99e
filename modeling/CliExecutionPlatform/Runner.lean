/-
`CLIExecutionRunner` (`runner/service.py`): running the tool.

The program follows the source: arguments are checked, a slot of the CLI
semaphore is taken, inputs are staged, the process is launched with retries,
its two output streams are drained into the event log, and on exit code 0 the
changed files are copied into the workspace.

Both drains are coroutines of one `gather`.  Their steps are interleaved in the
order in which the process's output arrives, which is part of its `Behaviour`;
when a drain raises while the other one has not ended, the other one is left
running as an `Orphan`.
-/
import CliExecutionPlatform.Platform

open Files Process

namespace CliExecutionPlatform

/-- What the services are built from and what is fixed for a deployment: the
base directory, the tool's binary, the plan parser, the static validator of
`.scad` files, the diagnostics, the MIME table, lossy UTF-8 decoding and
Python's `repr` of a string. -/
structure Parts where
  base : Path
  binary : String
  parse : String → Except Exn (List Action)
  scadValidate : String → Except Exn Unit
  runtimeFeedback : Exn → String
  guessType : String → Option String
  decode : List UInt8 → String
  repr : String → String

/-- A computation without operations. -/
def Task.ofExcept {α : Type} (r : Except Exn α) : Task α := ExceptT.mk (.ret r)

/-- Perform an operation whose failure is ignored. -/
def attemptOnly (o : Op) : Prog Op Res Unit := (Prog.perform o).bind fun _ => .ret ()

namespace Runner

variable (parts : Parts)

/-! ### Draining the output -/

/-- One read of a drain: the lines to persist, and the drain afterwards. -/
def drainStep (d : Drain) (chunk : List UInt8) : List String × Drain :=
  if d.finished then ([], d)
  else if chunk = [] then
    let lines := if d.buffer = [] then [] else [rstripCR (parts.decode d.buffer)]
    (lines, ⟨[], Drain.keepTail d.tail lines, true⟩)
  else
    let (lines, rest) := Drain.takeLines parts.decode (d.buffer ++ chunk)
    (lines, ⟨rest, Drain.keepTail d.tail lines, false⟩)

def logEvents (j : Uuid) (rows : List (EventType × String)) : Task Unit :=
  perform (.db (.logEvents j rows))

/-- `persist`: one transaction, unless there is nothing to write. -/
def persist (j : Uuid) (lines : List String) : Task Unit :=
  if Drain.records lines = [] then pure () else logEvents j (Drain.records lines)

/-- What is left for the drain of stream `s`. -/
def orphan (j : Uuid) (s : Stream) (d : Drain) (rest : List (Stream × List UInt8)) : Orphan :=
  ⟨j, d.buffer, (rest.filter fun a => a.1 = s).map Prod.snd⟩

/-- One read of stream `s`, with `rest` still to arrive. -/
def drainChunk (j : Uuid) (s : Stream) (chunk : List UInt8)
    (rest : List (Stream × List UInt8)) (ds : Stream → Drain) : Task (Stream → Drain) := do
  let step := drainStep parts (ds s) chunk
  tryExcept Exn.isException (persist j step.1) fun e => do
    if (ds s.other).finished then throw e
    else
      -- `gather` propagates the exception and leaves the other drain running
      perform (.sys (.detach (orphan j s.other (ds s.other) rest)))
      throw e
  pure (Function.update ds s step.2)

def collect (j : Uuid) :
    List (Stream × List UInt8) → (Stream → Drain) → Task (Stream → Drain)
  | [], ds => pure ds
  | (s, chunk) :: rest, ds => do
    let ds' ← drainChunk parts j s chunk rest ds
    collect j rest ds'

/-- The reads of both drains: a process that exits closes its streams. -/
def script (b : Behaviour) : List (Stream × List UInt8) :=
  match b.ending with
  | .exited _ => b.arrivals ++ [(.stdout, []), (.stderr, [])]
  | .deadline _ | .cancelled => b.arrivals

/-- What a drain left behind still does; nobody waits for it. -/
def drainOrphan (j : Uuid) : List (List UInt8) → Drain → Task Unit
  | [], d => persist j (drainStep parts d []).1
  | chunk :: rest, d => do
    let step := drainStep parts d chunk
    persist j step.1
    drainOrphan j rest step.2

/-! ### Launching and waiting -/

def timeoutSeconds : String := "30.0"

/-- `_launch_with_retry`, with `retries` attempts left after this one. -/
def launchWithRetry (args : List String) (staged : Staged) : ℕ → Task (ℕ × Behaviour)
  | 0 => tryExcept Exn.isOSError (perform (.sys (.launch args staged))) fun e =>
    throw (.cliLaunch ("Failed to launch CLI tool after 3 attempts. Last error: " ++
      e.str parts.repr) parts.binary 3)
  | retries + 1 => tryExcept Exn.isOSError (perform (.sys (.launch args staged))) fun _ => do
    -- the source waits for a random time of at most half a second
    perform (.sys (.sleep 500))
    launchWithRetry args staged retries

/-- How a process ended: its exit code and the tails of its streams. -/
structure Exit where
  code : ℤ
  stdout : String
  stderr : String

/-- `_collect_streams` under `wait_for`. -/
def awaitProcess (j : Uuid) (pid : ℕ) (b : Behaviour) : Task Exit := do
  let ds ← collect parts j (script b) fun _ => Drain.start
  match b.ending with
  | .exited code =>
    -- both streams have ended, and so have their pipes
    perform (.sys (.waitProcess pid false))
    pure ⟨code, (ds .stdout).text, (ds .stderr).text⟩
  | .deadline connected =>
    perform (.sys (.killProcess pid))
    perform (.sys (.waitProcess pid connected))
    perform (.db (.logEvents j [(.systemEvent, EventCode.timeout.message
      ("[SYSTEM] Process killed: execution exceeded " ++ timeoutSeconds ++ "s timeout."))]))
    throw (.cliTimeout ("OpenSCAD tool execution timed out after " ++ timeoutSeconds ++
      " seconds. Process terminated.") timeoutSeconds)
  | .cancelled => throw .cancelled

/-- Copy changed files back, one after the other. -/
def copyOutAll (j : Uuid) (output : Option String) : List TmpFile → Task Unit
  | [] => pure ()
  | f :: rest => do
    perform (.fs (.copyOut j output f))
    copyOutAll j output rest

/-- `_execute_with_timeout`. -/
def executeWithTimeout (j : Uuid) (args : List String) : Task ℤ := do
  let staged ← perform (.fs (.stage j))
  let output := outputFile args
  Task.ofExcept (checkOutput output)
  Task.ofExcept (makeOutputDir staged output)
  let process ← launchWithRetry parts args staged 2
  let exit ← awaitProcess parts j process.1 process.2
  if exit.code ≠ 0 then
    throw (.cliExecution
      ("OpenSCAD tool execution failed with exit code " ++ toString exit.code ++ ".")
      (some exit.code) (boundedStreamTail exit.stdout) (boundedStreamTail exit.stderr))
  else
    copyOutAll j output (process.2.files.filter (changed staged.files))
    pure exit.code

/-- `run_tool`; the tool name is not used by the source. -/
def runTool (server : ℕ) (j : Uuid) (args : List String) : Task ℤ := do
  Task.ofExcept (validateArgs args)
  perform (.sys (.acquireCli server))
  tryFinally (executeWithTimeout parts j args) (attemptOnly (.sys (.releaseCli server)))

end Runner

end CliExecutionPlatform
