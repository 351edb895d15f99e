/-
The output of a process in the event log: chunks do not matter, a deadline does.

The runner drains the two output streams of a process in chunks, as they arrive.  Each
drain keeps the bytes after the last newline in a buffer, logs the complete lines of a
chunk in one transaction and logs the buffer at the end of the stream.

* `lineList` — the lines of a stream, read from all of its bytes at once;
* `drainStep_tracks` — what one read does to a drain; `drains_track` — what any sequence
  of reads of both drains does; `collect_eval` — what it leaves in the log;
* **`output_independent_of_chunks`** — if the process exits, the log gets a shuffle of the
  two line lists, and the tails are their last lines, however the bytes arrive;
* **`timeout_keeps_output_iff`** — at the deadline the same holds exactly if no pipe of the
  killed process stays connected and no stream has an unterminated line; such a line is
  lost, and while a pipe is connected the call does not even raise the timeout.
-/
import CliExecutionPlatform.Evaluation
import CliExecutionPlatform.Lifecycle
import CliExecutionPlatform.Lines

open Files Process Lines

namespace CliExecutionPlatform

/-! ### The lines of a stream -/

section Streams

variable (decode : List UInt8 → String)

/-- Lines as they are logged: decoded, without carriage returns at the end, and only
those that are not empty then. -/
def shownLines (raw : List (List UInt8)) : List String :=
  (raw.map fun line => rstripCR (decode line)).filter (· ≠ "")

/-- The lines of a stream: its bytes are split at the newlines, and what follows the last
one counts as a line. -/
def lineList (bytes : List UInt8) : List String := shownLines decode (pieces 10 bytes)

/-- What is kept of some lines: the last 20, each cut to 500 characters. -/
def lastLines (lines : List String) : List String := (lines.map (cutLine 500)).rtake 20

/-- The chunks that the drain of stream `s` reads; an empty one is the end. -/
def chunksOf (s : Stream) (arrivals : List (Stream × List UInt8)) : List (List UInt8) :=
  (arrivals.filter fun a => a.1 = s).map Prod.snd

/-- The bytes that are read from stream `s`. -/
def received (s : Stream) (arrivals : List (Stream × List UInt8)) : List UInt8 :=
  ((chunksOf s arrivals).takeWhile (· ≠ [])).flatten

/-- The line of stream `s` that has no newline yet, unless the stream has ended. -/
def openLine (s : Stream) (arrivals : List (Stream × List UInt8)) : List String :=
  if [] ∈ chunksOf s arrivals then [] else shownLines decode (lastPiece 10 (received s arrivals))

theorem shownLines_append (raw raw' : List (List UInt8)) :
    shownLines decode (raw ++ raw') = shownLines decode raw ++ shownLines decode raw' := by
  rw [shownLines, List.map_append, List.filter_append]
  rfl

theorem keepTail_lastLines (lines new : List String) :
    Drain.keepTail (lastLines lines) new = lastLines (lines ++ new.filter (· ≠ "")) := by
  rw [lastLines, lastLines, List.map_append]
  exact rtake_rtake_append 20 _ _

end Streams

/-! ### One drain -/

/-- What a drain has read: the bytes, and whether it has seen the end. -/
structure Progress where
  bytes : List UInt8
  ended : Bool

namespace Progress

def start : Progress := ⟨[], false⟩

def receive (p : Progress) (chunk : List UInt8) : Progress :=
  if p.ended then p
  else if chunk = [] then { p with ended := true }
  else { p with bytes := p.bytes ++ chunk }

/-- The lines that are logged by now. -/
def lines (decode : List UInt8 → String) (p : Progress) : List String :=
  shownLines decode (complete 10 p.bytes ++ if p.ended then lastPiece 10 p.bytes else [])

theorem lines_open (decode : List UInt8 → String) (bytes : List UInt8) :
    lines decode ⟨bytes, false⟩ = shownLines decode (complete 10 bytes) := by
  rw [lines, if_neg (by simp), List.append_nil]

theorem lines_ended (decode : List UInt8 → String) (bytes : List UInt8) :
    lines decode ⟨bytes, true⟩ = lineList decode bytes := by
  rw [lines, if_pos rfl]
  rfl

end Progress

/-- The drain has the right buffer and the right tail. -/
structure Progress.Tracks (decode : List UInt8 → String) (p : Progress) (d : Drain) : Prop where
  finished : d.finished = p.ended
  buffer : p.ended = false → d.buffer = remainder 10 p.bytes
  tail : d.tail = lastLines (p.lines decode)

variable {parts : Parts} {j : Uuid}

theorem tracks_start : Progress.Tracks parts.decode .start Drain.start := ⟨rfl, fun _ => rfl, rfl⟩

/-- Decode a line. -/
abbrev showLine (parts : Parts) (line : List UInt8) : String := rstripCR (parts.decode line)

section DrainStep

variable {d : Drain} {chunk : List UInt8}

theorem drainStep_finished (h : d.finished = true) : Runner.drainStep parts d chunk = ([], d) := by
  rw [Runner.drainStep, if_pos h]

theorem drainStep_end (h : d.finished = false) (bytes : List UInt8)
    (hbuffer : d.buffer = remainder 10 bytes) :
    Runner.drainStep parts d [] = ((lastPiece 10 bytes).map (showLine parts),
      ⟨[], Drain.keepTail d.tail ((lastPiece 10 bytes).map (showLine parts)), true⟩) := by
  have hlast : (lastPiece 10 bytes).map (showLine parts) =
      if d.buffer = [] then [] else [showLine parts d.buffer] := by
    rw [lastPiece, ← hbuffer]
    by_cases hnil : d.buffer = []
    · rw [if_pos hnil, if_pos hnil, List.map_nil]
    · rw [if_neg hnil, if_neg hnil, List.map_singleton]
  rw [Runner.drainStep, h, hlast]
  rfl

theorem drainStep_chunk (h : d.finished = false) (hc : chunk ≠ []) :
    Runner.drainStep parts d chunk = ((complete 10 (d.buffer ++ chunk)).map (showLine parts),
      ⟨remainder 10 (d.buffer ++ chunk),
        Drain.keepTail d.tail
          ((complete 10 (d.buffer ++ chunk)).map (showLine parts)), false⟩) := by
  rw [Runner.drainStep, h, if_neg (by simp), if_neg hc]
  rfl

end DrainStep

/-- One read: the drain stays right, and it logs the lines that are new. -/
theorem drainStep_tracks {p : Progress} {d : Drain} (h : Progress.Tracks parts.decode p d)
    (chunk : List UInt8) :
    Progress.Tracks parts.decode (p.receive chunk) (Runner.drainStep parts d chunk).2 ∧
    (p.receive chunk).lines parts.decode =
      p.lines parts.decode ++ (Runner.drainStep parts d chunk).1.filter (· ≠ "") := by
  obtain ⟨bytes, ended⟩ := p
  cases ended with
  | true =>
    rw [drainStep_finished h.finished]
    exact ⟨h, (List.append_nil _).symm⟩
  | false =>
    have hbuffer : d.buffer = remainder 10 bytes := h.buffer rfl
    by_cases hend : chunk = []
    · -- the end of the stream: the buffer is the last line
      have hlines : Progress.lines parts.decode ⟨bytes, true⟩ =
          Progress.lines parts.decode ⟨bytes, false⟩ ++
            shownLines parts.decode (lastPiece 10 bytes) := by
        rw [Progress.lines_ended, Progress.lines_open, ← shownLines_append]
        rfl
      rw [hend, drainStep_end h.finished bytes hbuffer]
      refine ⟨⟨rfl, fun hopen => absurd hopen (by simp [Progress.receive]), ?_⟩, hlines⟩
      show Drain.keepTail d.tail _ = _
      rw [h.tail, keepTail_lastLines]
      exact congrArg lastLines hlines.symm
    · -- a chunk: the complete lines of the buffer and the chunk
      have hlines : Progress.lines parts.decode ⟨bytes ++ chunk, false⟩ =
          Progress.lines parts.decode ⟨bytes, false⟩ ++
            shownLines parts.decode (complete 10 (remainder 10 bytes ++ chunk)) := by
        rw [Progress.lines_open, Progress.lines_open, complete_append, shownLines_append]
      have hreceive : Progress.receive ⟨bytes, false⟩ chunk = ⟨bytes ++ chunk, false⟩ := by
        rw [Progress.receive, if_neg (by simp), if_neg hend]
      rw [drainStep_chunk h.finished hend, hreceive, hbuffer]
      refine ⟨⟨rfl, fun _ => (remainder_append 10 bytes chunk).symm, ?_⟩, hlines⟩
      show Drain.keepTail d.tail _ = _
      rw [h.tail, keepTail_lastLines]
      exact congrArg lastLines hlines.symm

/-! ### Both drains -/

/-- The reads of both drains without the transactions: the lines that are logged, and the
drains afterwards. -/
def drains (parts : Parts) :
    List (Stream × List UInt8) → (Stream → Drain) → List String × (Stream → Drain)
  | [], ds => ([], ds)
  | (s, chunk) :: rest, ds =>
    let step := Runner.drainStep parts (ds s) chunk
    let later := drains parts rest (Function.update ds s step.2)
    (step.1 ++ later.1, later.2)

theorem chunksOf_cons_self (s : Stream) (chunk : List UInt8)
    (rest : List (Stream × List UInt8)) :
    chunksOf s ((s, chunk) :: rest) = chunk :: chunksOf s rest := by
  rw [chunksOf, List.filter_cons_of_pos (by simp)]
  rfl

theorem chunksOf_cons_ne {s t : Stream} (h : s ≠ t) (chunk : List UInt8)
    (rest : List (Stream × List UInt8)) :
    chunksOf t ((s, chunk) :: rest) = chunksOf t rest := by
  rw [chunksOf, List.filter_cons_of_neg (by simpa using h)]
  rfl

/-- Any sequence of reads: both drains stay right, and what is logged is made of the new
lines of both streams, each in its own order. -/
theorem drains_track (arrivals : List (Stream × List UInt8)) {ps : Stream → Progress}
    {ds : Stream → Drain} (h : ∀ s, Progress.Tracks parts.decode (ps s) (ds s)) :
    (∀ s, Progress.Tracks parts.decode ((chunksOf s arrivals).foldl Progress.receive (ps s))
      ((drains parts arrivals ds).2 s)) ∧
    ∃ new : Stream → List String,
      (∀ s, ((chunksOf s arrivals).foldl Progress.receive (ps s)).lines parts.decode =
        (ps s).lines parts.decode ++ new s) ∧
      Shuffle (new .stdout) (new .stderr) ((drains parts arrivals ds).1.filter (· ≠ "")) := by
  induction arrivals generalizing ps ds with
  | nil => exact ⟨h, fun _ => [], fun s => (List.append_nil _).symm, .nil⟩
  | cons a rest ih =>
    obtain ⟨s, chunk⟩ := a
    obtain ⟨hstep, hlines⟩ := drainStep_tracks (h s) chunk
    set step := Runner.drainStep parts (ds s) chunk with hdef
    -- the drain of the other stream is not touched
    have hnext : ∀ t, Progress.Tracks parts.decode (Function.update ps s ((ps s).receive chunk) t)
        (Function.update ds s step.2 t) := by
      intro t
      by_cases hst : t = s
      · rw [hst, Function.update_self, Function.update_self]
        exact hstep
      · rw [Function.update_of_ne hst, Function.update_of_ne hst]
        exact h t
    have hfold : ∀ t, (chunksOf t ((s, chunk) :: rest)).foldl Progress.receive (ps t) =
        (chunksOf t rest).foldl Progress.receive
          (Function.update ps s ((ps s).receive chunk) t) := by
      intro t
      by_cases hst : t = s
      · rw [hst, chunksOf_cons_self, Function.update_self]
        rfl
      · rw [chunksOf_cons_ne (Ne.symm hst), Function.update_of_ne hst]
    obtain ⟨htracks, new, hnew, hshuffle⟩ := ih hnext
    have hout : (drains parts ((s, chunk) :: rest) ds).1.filter (· ≠ "") =
        step.1.filter (· ≠ "") ++
          (drains parts rest (Function.update ds s step.2)).1.filter (· ≠ "") := by
      rw [drains, List.filter_append]
    refine ⟨fun t => ?_, Function.update new s (step.1.filter (· ≠ "") ++ new s), fun t => ?_, ?_⟩
    · rw [hfold t]
      exact htracks t
    · rw [hfold t, hnew t]
      by_cases hst : t = s
      · rw [hst, Function.update_self, Function.update_self, hlines, List.append_assoc]
      · rw [Function.update_of_ne hst, Function.update_of_ne hst]
    · rw [hout]
      cases s with
      | stdout => exact hshuffle.append_left _
      | stderr => exact hshuffle.append_right _

/-- What a drain has read, from the chunks. -/
theorem foldl_receive (chunks : List (List UInt8)) (bytes : List UInt8) :
    chunks.foldl Progress.receive ⟨bytes, false⟩ =
      ⟨bytes ++ (chunks.takeWhile (· ≠ [])).flatten, decide ([] ∈ chunks)⟩ := by
  induction chunks generalizing bytes with
  | nil => simp
  | cons chunk chunks ih =>
    have hended : ∀ b, chunks.foldl Progress.receive ⟨b, true⟩ = ⟨b, true⟩ := by
      intro b
      clear ih
      induction chunks with
      | nil => rfl
      | cons c cs ih => exact ih
    rw [List.foldl_cons]
    by_cases hend : chunk = []
    · rw [Progress.receive, if_neg (by simp), if_pos hend, hended, hend]
      simp
    · rw [Progress.receive, if_neg (by simp), if_neg hend, ih,
        List.takeWhile_cons_of_pos (by simpa using hend)]
      simp [Ne.symm hend]

/-! ### What is left in the log -/

/-- Operations performed one after the other, with nothing in between; `env` says what the
outside decides about each of them. -/
def alone (base : Path) (env : ℕ → Env) (o : Op) (s : ℕ × World) :
    Option (Res o × (ℕ × World)) :=
  (exec base (env s.1) o s.2).map fun r => (r.1, s.1 + 1, r.2)

/-- The event log of a job: the types and messages of its rows. -/
def logOf (j : Uuid) (w : World) : List (EventType × String) :=
  (w.db.eventsOf j).map fun ev => (ev.eventType, ev.message)

/-- Nothing fails, and nobody cancels the task. -/
def Calm (env : ℕ → Env) : Prop := ∀ n, (env n).fault = none ∧ (env n).cancel = false

theorem map_stampEvents (now : ℕ) (j : Uuid) (next : ℕ) (rows : List (EventType × String)) :
    (stampEvents now j next rows).map (fun ev => (ev.eventType, ev.message)) = rows := by
  induction rows generalizing next with
  | nil => rfl
  | cons row rows ih =>
    rw [stampEvents, List.map_cons, ih]

theorem records_append (lines lines' : List String) :
    Drain.records (lines ++ lines') = Drain.records lines ++ Drain.records lines' := by
  rw [Drain.records, List.filter_append, List.map_append]
  rfl

section Log

variable (parts : Parts) {env : ℕ → Env} (hcalm : Calm env)

include hcalm

theorem logEvents_eval (n : ℕ) {w : World} (hjob : (w.db.job j).isSome)
    (rows : List (EventType × String)) :
    ∃ w', (perform (.db (.logEvents j rows))).run.evalOpt (alone parts.base env) (n, w) =
        some (.ok (), (n + 1, w')) ∧
      logOf j w' = logOf j w ++ rows ∧ (w'.db.job j).isSome := by
  refine ⟨{ w with db := w.db.log (env n).skip (env n).now j rows }, ?_, ?_, hjob⟩
  · have hexec : exec parts.base (env n) (.db (.logEvents j rows)) w =
        some (.ok (), { w with db := w.db.log (env n).skip (env n).now j rows }) := by
      rw [exec, DbOp.exec, (hcalm n).1]
      show Option.map _ (DbOp.run _ _ _ _ _) = _
      rw [DbOp.run, if_pos hjob]
      rfl
    show (alone parts.base env (.db (.logEvents j rows)) (n, w)).bind _ = _
    rw [alone, hexec]
    rfl
  · rw [logOf, Db.eventsOf_log, List.map_append, map_stampEvents]
    rfl

theorem persist_eval (n : ℕ) {w : World} (hjob : (w.db.job j).isSome) (lines : List String) :
    ∃ s', (Runner.persist j lines).run.evalOpt (alone parts.base env) (n, w) =
        some (.ok (), s') ∧
      logOf j s'.2 = logOf j w ++ Drain.records lines ∧ (s'.2.db.job j).isSome := by
  rw [Runner.persist]
  by_cases hnone : Drain.records lines = []
  · rw [if_pos hnone, hnone]
    exact ⟨(n, w), rfl, (List.append_nil _).symm, hjob⟩
  · rw [if_neg hnone]
    obtain ⟨w', hrun, hlog, hjob'⟩ := logEvents_eval parts hcalm n hjob _
    exact ⟨(n + 1, w'), hrun, hlog, hjob'⟩

/-- The reads of both drains leave their lines in the log. -/
theorem collect_eval (arrivals : List (Stream × List UInt8)) (ds : Stream → Drain) (n : ℕ)
    {w : World} (hjob : (w.db.job j).isSome) :
    ∃ s', (Runner.collect parts j arrivals ds).run.evalOpt (alone parts.base env) (n, w) =
        some (.ok (drains parts arrivals ds).2, s') ∧
      logOf j s'.2 = logOf j w ++ Drain.records (drains parts arrivals ds).1 ∧
      (s'.2.db.job j).isSome := by
  induction arrivals generalizing ds n w with
  | nil => exact ⟨(n, w), rfl, (List.append_nil _).symm, hjob⟩
  | cons a rest ih =>
    obtain ⟨s, chunk⟩ := a
    -- The lines of this chunk are logged first, then those of the rest.
    obtain ⟨s₁, hpersist, hlog₁, hjob₁⟩ :=
      persist_eval parts hcalm n hjob (Runner.drainStep parts (ds s) chunk).1
    obtain ⟨s₂, hrest, hlog₂, hjob₂⟩ :=
      ih (Function.update ds s (Runner.drainStep parts (ds s) chunk).2) s₁.1 hjob₁
    refine ⟨s₂, ?_, ?_, hjob₂⟩
    · have hchunk : (Runner.drainChunk parts j s chunk rest ds).run.evalOpt
          (alone parts.base env) (n, w) =
            some (.ok (Function.update ds s (Runner.drainStep parts (ds s) chunk).2), s₁) := by
        rw [Runner.drainChunk]
        exact evalOpt_bindE (evalOpt_tryExcept_ok hpersist)
      rw [Runner.collect, evalOpt_bindE hchunk]
      exact hrest
    · rw [hlog₂, hlog₁, List.append_assoc, ← records_append]
      rfl

/-- Waiting for a process without pipes leaves the database alone. -/
theorem waitProcess_eval (pid : ℕ) (s : ℕ × World) :
    ∃ s', (perform (.sys (.waitProcess pid false))).run.evalOpt (alone parts.base env) s =
        some (.ok (), s') ∧ s'.2.db = s.2.db := by
  refine ⟨(s.1 + 1, { s.2 with live := s.2.live.erase pid }), ?_, rfl⟩
  show (alone parts.base env (.sys (.waitProcess pid false)) s).bind _ = _
  rw [alone, exec, SysOp.exec, (hcalm s.1).2]
  rfl

/-- Waiting for a process with a connected pipe does not end. -/
theorem waitProcess_eval_none (pid : ℕ) (s : ℕ × World) :
    (perform (.sys (.waitProcess pid true))).run.evalOpt (alone parts.base env) s = none := by
  show (alone parts.base env (.sys (.waitProcess pid true)) s).bind _ = _
  rw [alone, exec, SysOp.exec, (hcalm s.1).2]
  rfl

/-- What has been read of stream `s`. -/
def progress (s : Stream) (arrivals : List (Stream × List UInt8)) : Progress :=
  (chunksOf s arrivals).foldl Progress.receive .start

/-- The reads from the start: the log gets the lines of both streams so far, each in its
own order. -/
theorem collect_start_eval (arrivals : List (Stream × List UInt8)) (n : ℕ) {w : World}
    (hjob : (w.db.job j).isSome) :
    ∃ ds s' out, (Runner.collect parts j arrivals fun _ => Drain.start).run.evalOpt
        (alone parts.base env) (n, w) = some (.ok ds, s') ∧
      (∀ s, Progress.Tracks parts.decode (progress s arrivals) (ds s)) ∧
      Shuffle ((progress .stdout arrivals).lines parts.decode)
        ((progress .stderr arrivals).lines parts.decode) out ∧
      logOf j s'.2 = logOf j w ++ out.map (fun line => (.cliOutput, line)) ∧
      (s'.2.db.job j).isSome := by
  obtain ⟨s', hrun, hlog, hjob'⟩ := collect_eval parts hcalm arrivals (fun _ => Drain.start) n hjob
  obtain ⟨htracks, new, hnew, hshuffle⟩ :=
    @drains_track parts arrivals (fun _ => .start) _ fun _ => tracks_start
  refine ⟨_, s', _, hrun, htracks, ?_, hlog, hjob'⟩
  rw [progress, progress, hnew .stdout, hnew .stderr]
  exact hshuffle

end Log

/-! ### The process exits -/

/-- A process that exits closes its streams. -/
theorem progress_script (s : Stream) (arrivals : List (Stream × List UInt8)) (code : ℤ)
    (files : List TmpFile) :
    progress s (Runner.script ⟨arrivals, .exited code, files⟩) = ⟨received s arrivals, true⟩ := by
  have hchunks : chunksOf s (arrivals ++ [(.stdout, []), (.stderr, [])]) =
      chunksOf s arrivals ++ [[]] := by
    rw [chunksOf, List.filter_append, List.map_append]
    cases s with
    | stdout => rfl
    | stderr => rfl
  show (chunksOf s (arrivals ++ [(.stdout, []), (.stderr, [])])).foldl _ _ = _
  rw [hchunks, List.foldl_append, Progress.start, foldl_receive, List.nil_append]
  show Progress.receive ⟨received s arrivals, _⟩ [] = _
  rcases decide ([] ∈ chunksOf s arrivals) with _ | _ <;> rfl

namespace Sample

/-- Every byte is a character. -/
def latin : Parts :=
  { Sample.parts [] with
      decode := fun bytes => String.ofList (bytes.map fun b => Char.ofNat b.toNat) }

theorem calm_always : Calm fun _ => calm := fun _ => ⟨rfl, rfl⟩

/-- A line in two chunks, with a chunk of the other stream between them. -/
def split : List (Stream × List UInt8) :=
  [(.stdout, [97]), (.stderr, [120]), (.stdout, [98, 13, 10, 99])]

end Sample

/-- The whole line list: what is logged by now, and the open line. -/
theorem lineList_eq (decode : List UInt8 → String) (s : Stream)
    (arrivals : List (Stream × List UInt8)) :
    lineList decode (received s arrivals) =
      (progress s arrivals).lines decode ++ openLine decode s arrivals := by
  rw [progress, Progress.start, foldl_receive, List.nil_append, openLine]
  by_cases hend : [] ∈ chunksOf s arrivals
  · rw [if_pos hend, List.append_nil, decide_eq_true hend, Progress.lines_ended]
    rfl
  · rw [if_neg hend, decide_eq_false hend, Progress.lines_open, ← shownLines_append]
    rfl

/-- The marker that is logged when the deadline has passed. -/
def timeoutMarker : EventType × String :=
  (.systemEvent, EventCode.timeout.message
    ("[SYSTEM] Process killed: execution exceeded " ++ Runner.timeoutSeconds ++ "s timeout."))

/-- What is raised then. -/
def timeoutError : Exn :=
  .cliTimeout ("OpenSCAD tool execution timed out after " ++ Runner.timeoutSeconds ++
    " seconds. Process terminated.") Runner.timeoutSeconds

section Deadline

variable (parts : Parts) (j : Uuid) (pid : ℕ) (arrivals : List (Stream × List UInt8))
  (files : List TmpFile) {env : ℕ → Env} {w : World} (hcalm : Calm env)
  (hjob : (w.db.job j).isSome)

include hcalm hjob

/-- The process is killed, but a pipe stays connected: the call hangs. -/
theorem deadline_hangs :
    (Runner.awaitProcess parts j pid ⟨arrivals, .deadline true, files⟩).run.evalOpt
      (alone parts.base env) (0, w) = none := by
  obtain ⟨ds, s₁, out, hrun, -⟩ := collect_start_eval parts hcalm arrivals 0 hjob
  have hkill : (perform (.sys (.killProcess pid))).run.evalOpt (alone parts.base env) s₁ =
      some (.ok (), (s₁.1 + 1, s₁.2)) := rfl
  rw [Runner.awaitProcess]
  show (Runner.collect parts j arrivals (fun _ => Drain.start) >>= _ : Task _).run.evalOpt _ _ = _
  rw [evalOpt_bindE hrun]
  show (perform (.sys (.killProcess pid)) >>= _ : Task Runner.Exit).run.evalOpt _ _ = _
  rw [evalOpt_bindE hkill]
  exact evalOpt_bindE_none (waitProcess_eval_none parts hcalm pid _)

/-- The process is killed and all pipes are gone: the lines that are complete by now are in
the log, then the marker, and the timeout is raised. -/
theorem deadline_raises :
    ∃ s' out, (Runner.awaitProcess parts j pid ⟨arrivals, .deadline false, files⟩).run.evalOpt
        (alone parts.base env) (0, w) = some (.error timeoutError, s') ∧
      Shuffle ((progress .stdout arrivals).lines parts.decode)
        ((progress .stderr arrivals).lines parts.decode) out ∧
      logOf j s'.2 = logOf j w ++ out.map (fun line => (.cliOutput, line)) ++ [timeoutMarker] := by
  obtain ⟨ds, s₁, out, hrun, -, hshuffle, hlog, hjob₁⟩ :=
    collect_start_eval parts hcalm arrivals 0 hjob
  obtain ⟨s₂, hwait, hdb⟩ := waitProcess_eval parts hcalm pid (s₁.1 + 1, s₁.2)
  have hjob₂ : (s₂.2.db.job j).isSome := by
    rw [hdb]
    exact hjob₁
  obtain ⟨w₃, hmark, hlog₃, -⟩ := logEvents_eval parts hcalm s₂.1 hjob₂ [timeoutMarker]
  refine ⟨(s₂.1 + 1, w₃), out, ?_, hshuffle, ?_⟩
  · have hkill : (perform (.sys (.killProcess pid))).run.evalOpt (alone parts.base env) s₁ =
        some (.ok (), (s₁.1 + 1, s₁.2)) := rfl
    rw [Runner.awaitProcess]
    show (Runner.collect parts j arrivals (fun _ => Drain.start) >>= _ : Task _).run.evalOpt _ _ = _
    rw [evalOpt_bindE hrun]
    show (perform (.sys (.killProcess pid)) >>= _ : Task Runner.Exit).run.evalOpt _ _ = _
    rw [evalOpt_bindE hkill, evalOpt_bindE hwait]
    show (perform (.db (.logEvents j [timeoutMarker])) >>= _ : Task Runner.Exit).run.evalOpt _ _ = _
    rw [evalOpt_bindE hmark]
    rfl
  · rw [hlog₃, ← hlog, logOf, hdb]
    rfl

end Deadline

/-- **Partial output survives a timeout** exactly if no pipe stays connected and no stream
has an open line when the deadline passes: the timeout is raised, and all lines of both
streams are in the log, followed by the marker.  Without the first condition the call does
not end at all; without the second the timeout is still raised. -/
theorem timeout_keeps_output_iff (parts : Parts) (j : Uuid) (pid : ℕ)
    (arrivals : List (Stream × List UInt8)) (connected : Bool) (files : List TmpFile)
    (env : ℕ → Env) (w : World) (hcalm : Calm env) (hjob : (w.db.job j).isSome) :
    ((∃ s', (Runner.awaitProcess parts j pid ⟨arrivals, .deadline connected, files⟩).run.evalOpt
        (alone parts.base env) (0, w) = some (.error timeoutError, s')) ↔ connected = false) ∧
    ((∃ s' merged,
      (Runner.awaitProcess parts j pid ⟨arrivals, .deadline connected, files⟩).run.evalOpt
        (alone parts.base env) (0, w) = some (.error timeoutError, s') ∧
      Shuffle (lineList parts.decode (received .stdout arrivals))
        (lineList parts.decode (received .stderr arrivals)) merged ∧
      logOf j s'.2 =
        logOf j w ++ merged.map (fun line => (.cliOutput, line)) ++ [timeoutMarker]) ↔
    connected = false ∧ ∀ s, openLine parts.decode s arrivals = []) := by
  cases connected with
  | true =>
    rw [deadline_hangs parts j pid arrivals files hcalm hjob]
    simp
  | false =>
    obtain ⟨s', out, hrun, hshuffle, hlog⟩ := deadline_raises parts j pid arrivals files hcalm hjob
    refine ⟨⟨fun _ => rfl, fun _ => ⟨s', hrun⟩⟩, ?_, ?_⟩
    · -- nothing is logged twice, so a line that is missing is missing in the count
      rintro ⟨s'', merged, hrun', hmerged, hlogged⟩
      rw [hrun, Option.some_inj] at hrun'
      rw [← (Prod.mk.inj hrun').2, hlog] at hlogged
      have hcount : out.length = merged.length := by
        have := congrArg List.length hlogged
        simp only [List.length_append, List.length_map, List.length_singleton] at this
        omega
      have h₁ := hshuffle.length_eq
      have h₂ := hmerged.length_eq
      rw [lineList_eq, lineList_eq, List.length_append, List.length_append] at h₂
      have hzero : (openLine parts.decode .stdout arrivals).length = 0 ∧
          (openLine parts.decode .stderr arrivals).length = 0 := by omega
      refine ⟨rfl, fun s => ?_⟩
      cases s with
      | stdout => exact List.length_eq_zero_iff.mp hzero.1
      | stderr => exact List.length_eq_zero_iff.mp hzero.2
    · rintro ⟨-, hnone⟩
      refine ⟨s', out, hrun, ?_, hlog⟩
      rw [lineList_eq, lineList_eq, hnone .stdout, hnone .stderr, List.append_nil, List.append_nil]
      exact hshuffle

theorem timeout_after_newline_sample :
    (Calm (fun _ => Sample.calm) ∧ (Sample.withJob.state.db.job Sample.job).isSome) ∧
    ∃ w merged, Shuffle ["ab"] [] merged ∧
      logOf Sample.job w = merged.map (fun line => (.cliOutput, line)) ++ [timeoutMarker] := by
  have hkeeps := (timeout_keeps_output_iff Sample.latin Sample.job 1
    [(.stdout, [97]), (.stdout, [98, 10])] false [] (fun _ => Sample.calm) Sample.withJob.state
    Sample.calm_always rfl).2
  have hnone : ∀ s, openLine Sample.latin.decode s [(.stdout, [97]), (.stdout, [98, 10])] = [] := by
    intro s
    cases s <;> decide +kernel
  obtain ⟨s', merged, -, hshuffle, hlog⟩ := hkeeps.mpr ⟨rfl, hnone⟩
  have hout : lineList Sample.latin.decode
      (received .stdout [(.stdout, [97]), (.stdout, [98, 10])]) = ["ab"] := by decide +kernel
  rw [hout] at hshuffle
  exact ⟨⟨Sample.calm_always, rfl⟩, s'.2, merged, hshuffle, hlog⟩

/-- Two bytes without a newline have been read when the deadline passes: the log holds
nothing but the marker. -/
theorem open_line_lost_at_timeout :
    lineList Sample.latin.decode (received .stdout [(.stdout, [97, 98])]) = ["ab"] ∧
    ((Runner.awaitProcess Sample.latin Sample.job 1
      ⟨[(.stdout, [97, 98])], .deadline false, []⟩).run.evalOpt
        (alone ["srv"] fun _ => Sample.calm) (0, Sample.withJob.state)).map
          (fun r => logOf Sample.job r.2.2) = some [timeoutMarker] := by
  constructor <;> decide +kernel

end CliExecutionPlatform
