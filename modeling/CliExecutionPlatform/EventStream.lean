/-
The event stream of a job: `sse/repository.py`, `sse/connection_registry.py`,
`sse/service.py` and `sse/router.py`.

`SSEStreamService.stream` is an asynchronous generator.  It is a state machine
here: `Point` says at which `await` or `yield` it stands, `Generator.step` what
it does next.  Nothing that happens elsewhere can come between two points, and
anything can happen while it stands at one; the two queries of `fetch_snapshot`
are separate steps for that reason.  A `Moment` is what the surroundings decide
about one step: the clock and an exception, raised by what is awaited or thrown
in by a client that goes away.

* `ConnectionRegistry` — the slots, with the bound as part of the type;
* `Generator.step` — the body of `stream` and of `_fetch_with_retry`;
  `Generator.transition_of_step` — what a step can do;
* `Connection.step` — `stream_job_events`, from the request to the last frame.
-/
import CliExecutionPlatform.AppendLog
import CliExecutionPlatform.Database

namespace CliExecutionPlatform

/-! ### `EventLogPollingRepository` -/

structure EventRecord where
  eventId : ℕ
  jobId : Uuid
  eventType : String
  message : String
  createdAt : ℕ
  deriving DecidableEq

def EventRecord.ofRow (row : EventRow) : EventRecord :=
  ⟨row.id, row.jobId, row.eventType.text, row.message, row.createdAt⟩

def jobExists (db : Db) (j : Uuid) : Bool := (db.job j).isSome

def resolveCursor (db : Db) (j : Uuid) : Option ℤ → ℕ
  | none => 0
  | some candidate =>
    if candidate ≤ 0 then 0
    else if db.events.any fun ev => ev.jobId = j ∧ (ev.id : ℤ) = candidate then candidate.toNat
    else 0

/-- The second query of `fetch_snapshot`; the rows of the table stand in the
order of their numbers. -/
def queryEvents (db : Db) (j : Uuid) (lastSeenId limit : ℕ) : List EventRecord :=
  ((db.events.filter fun ev => ev.jobId = j ∧ lastSeenId < ev.id).take limit).map .ofRow

/-! ### `ConnectionRegistry` -/

structure ConnectionRegistry where
  maxConnections : ℕ
  activeConnections : ℕ
  pos : 1 ≤ maxConnections
  le_max : activeConnections ≤ maxConnections

namespace ConnectionRegistry

/-- The constructor. -/
def create (maxConnections : ℤ) : Except Exn ConnectionRegistry :=
  if h : maxConnections < 1 then .error (.value "max_connections must be at least 1")
  else .ok ⟨maxConnections.toNat, 0, by omega, Nat.zero_le _⟩

def tryAcquire (r : ConnectionRegistry) : Bool × ConnectionRegistry :=
  if h : r.maxConnections ≤ r.activeConnections then (false, r)
  else (true, { r with
    activeConnections := r.activeConnections + 1
    le_max := by omega })

def release (r : ConnectionRegistry) : ConnectionRegistry :=
  if 0 < r.activeConnections then
    { r with
      activeConnections := r.activeConnections - 1
      le_max := Nat.le_trans (Nat.sub_le _ _) r.le_max }
  else r

end ConnectionRegistry

/-! ### Frames -/

/-- What the generator yields: `encode_event(event)` or
`encode_control(name, job_id, **data)`.  The values of `data` are strings: no call passes
another one. -/
inductive Frame
  | event (record : EventRecord)
  | control (name : String) (job : Uuid) (data : List (String × String))
  deriving DecidableEq

/-- The event that a frame carries. -/
def Frame.record? : Frame → Option EventRecord
  | event record => some record
  | control _ _ _ => none

/-- The events among the frames of a connection. -/
def eventFrames (frames : List Frame) : List EventRecord := frames.filterMap Frame.record?

def streamReconnect (j : Uuid) : Frame := .control "STREAM_RECONNECT" j [("reason", "MAX_DURATION")]

def streamError (j : Uuid) (code : String) : Frame := .control "STREAM_ERROR" j [("code", code)]

def streamEnd (j : Uuid) (status : Status) : Frame :=
  .control "STREAM_END" j [("status", status.text)]

/-- The frames that end a stream. -/
def Frame.Closing (j : Uuid) (f : Frame) : Prop :=
  f = streamReconnect j ∨ (∃ code, f = streamError j code) ∨ ∃ s, f = streamEnd j s

/-! ### `SSEStreamService` -/

/-- The arguments of the constructor, times in milliseconds. -/
structure StreamConfig where
  pollInterval : ℕ
  batchSize : ℕ
  maxDuration : ℕ
  retryDelays : List ℕ

/-- `sse/config.py`. -/
def StreamConfig.default : StreamConfig := ⟨500, 100, 600000, [500, 1000, 2000]⟩

/-- Exceptions as the stream tells them apart: a cancellation (or the closing of
the generator), the classes of SQLAlchemy, and the others. -/
inductive StreamExn
  | cancelled
  | operational
  | dbapi (connectionInvalidated : Bool)
  | sqlalchemy
  | other
  deriving DecidableEq

/-- `isinstance(exc, (OperationalError, DBAPIError))`. -/
def StreamExn.isDbapi : StreamExn → Bool
  | .operational | .dbapi _ => true
  | _ => false

/-- `isinstance(exc, SQLAlchemyError)`. -/
def StreamExn.isSqlalchemy : StreamExn → Bool
  | .operational | .dbapi _ | .sqlalchemy => true
  | .cancelled | .other => false

/-- `_is_transient`. -/
def StreamExn.isTransient : StreamExn → Bool
  | .operational => true
  | .dbapi connectionInvalidated => connectionInvalidated
  | _ => false

/-- Where `stream` stands. -/
inductive Point
  /-- created, but never advanced -/
  | unstarted
  /-- at `while True` -/
  | top
  /-- `fetch_snapshot` is about to read the status -/
  | status (attempt : ℕ)
  /-- `fetch_snapshot` has read the status and is about to read the events -/
  | events (attempt : ℕ) (status : Status)
  /-- `_fetch_with_retry` sleeps before an attempt -/
  | retry (attempt delay : ℕ)
  /-- in the loop over a snapshot of `size` events, of which `rest` are left -/
  | batch (status : Status) (size : ℕ) (rest : List EventRecord)
  /-- at the `yield` of an event -/
  | yielded (status : Status) (size : ℕ) (event : EventRecord) (rest : List EventRecord)
  /-- sleeping between two polls -/
  | asleep (delay : ℕ)
  /-- at the `yield` of the last frame -/
  | last
  /-- finished, through the `finally` block -/
  | closed
  /-- closed before it was ever advanced -/
  | discarded
  deriving DecidableEq

/-- At these points the generator is suspended, in a sleep or at a `yield`. -/
def Point.suspended : Point → Bool
  | retry _ _ | yielded _ _ _ _ | asleep _ | last => true
  | _ => false

/-- At these points the body of `stream` is being executed, before its last frame. -/
def Point.Serving : Point → Prop
  | unstarted | last | closed | discarded => False
  | _ => True

structure Generator where
  job : Uuid
  lastSeenId : ℕ
  cursor : ℕ
  startedAt : ℕ
  point : Point
  sent : List Frame

/-- What the surroundings decide about one step. -/
structure Moment where
  clock : ℕ
  raised : Option StreamExn

namespace Generator

/-- `service.stream(job_id, last_seen_id)`: nothing of the body runs yet. -/
def stream (j : Uuid) (lastSeenId : ℕ) : Generator := ⟨j, lastSeenId, lastSeenId, 0, .unstarted, []⟩

/-- Go on to the next point.  The second component says whether the slot is
released. -/
def goes (g : Generator) (p : Point) : Generator × Bool := ({ g with point := p }, false)

/-- Yield a frame and wait at the point `p`. -/
def yields (g : Generator) (frame : Frame) (p : Point) : Generator × Bool :=
  ({ g with point := p, sent := g.sent ++ [frame] }, false)

/-- Leave the body: the `finally` block releases the slot. -/
def closes (g : Generator) : Generator × Bool := ({ g with point := .closed }, true)

/-- The `except` clauses of `stream`. -/
def fails (g : Generator) (e : StreamExn) : Generator × Bool :=
  if e = .cancelled then g.closes
  else if e.isSqlalchemy then g.yields (streamError g.job "DATABASE_UNAVAILABLE") .last
  else g.yields (streamError g.job "INTERNAL_ERROR") .last

/-- The `except` clause of `_fetch_with_retry`. -/
def fetchFails (cfg : StreamConfig) (g : Generator) (attempt : ℕ) (e : StreamExn) :
    Generator × Bool :=
  if e.isDbapi ∧ e.isTransient ∧ attempt < cfg.retryDelays.length then
    g.goes (.retry (attempt + 1) (cfg.retryDelays.getD attempt 0))
  else g.fails e

/-- One step.  At a `yield` and in a sleep only a cancellation can strike; where
nothing is awaited, no exception can. -/
def step (cfg : StreamConfig) (db : Db) (m : Moment) (g : Generator) :
    Option (Generator × Bool) :=
  match g.point, m.raised with
  | .unstarted, none =>
    some ({ g with startedAt := m.clock, cursor := g.lastSeenId }.goes .top)
  -- no part of the body has run, so that closing the generator runs no `finally`
  | .unstarted, some .cancelled => some (g.goes .discarded)
  | .top, none =>
    if cfg.maxDuration ≤ m.clock - g.startedAt then some (g.yields (streamReconnect g.job) .last)
    else some (g.goes (.status 0))
  | .status attempt, none =>
    match db.status g.job with
    | none => some (g.yields (streamError g.job "JOB_NOT_FOUND") .last)
    | some status => some (g.goes (.events attempt status))
  | .status attempt, some e => some (g.fetchFails cfg attempt e)
  | .events _ status, none =>
    let events := queryEvents db g.job g.cursor cfg.batchSize
    some (g.goes (.batch status events.length events))
  | .events attempt _, some e => some (g.fetchFails cfg attempt e)
  | .retry attempt _, none => some (g.goes (.status attempt))
  | .batch status size (event :: rest), none =>
    some (g.yields (.event event) (.yielded status size event rest))
  | .batch status size [], none =>
    if status.terminal ∧ size < cfg.batchSize then some (g.yields (streamEnd g.job status) .last)
    else if cfg.batchSize ≤ size then some (g.goes .top)
    else some (g.goes (.asleep (min cfg.pollInterval (cfg.maxDuration - (m.clock - g.startedAt)))))
  | .yielded status size event rest, none =>
    some ({ g with cursor := event.eventId }.goes (.batch status size rest))
  | .asleep _, none => some (g.goes .top)
  | .last, none => some g.closes
  | .retry _ _, some .cancelled | .yielded _ _ _ _, some .cancelled | .asleep _, some .cancelled
  | .last, some .cancelled => some g.closes
  | _, _ => none

/-- What strikes in a sleep or at a `yield` ends the stream. -/
theorem step_suspended {cfg : StreamConfig} {db : Db} {m : Moment} {g : Generator}
    {e : StreamExn} {r : Generator × Bool} (hp : g.point.suspended = true)
    (hr : m.raised = some e) (h : g.step cfg db m = some r) : r = g.closes := by
  cases hpoint : g.point with
  | retry | yielded | asleep | last =>
    cases e with
    | cancelled => simpa [step, hpoint, hr] using h.symm
    | _ => simp [step, hpoint, hr] at h
  | _ =>
    rw [hpoint] at hp
    exact absurd hp Bool.false_ne_true

/-- The transitions of the generator, with what their guards say. -/
inductive Transition (cfg : StreamConfig) (db : Db) (m : Moment) (g : Generator) :
    Generator × Bool → Prop
  | start (hp : g.point = .unstarted) :
      Transition cfg db m g ({ g with startedAt := m.clock, cursor := g.lastSeenId }.goes .top)
  | discard (hp : g.point = .unstarted) : Transition cfg db m g (g.goes .discarded)
  | poll (hp : g.point = .top) (hearly : m.clock - g.startedAt < cfg.maxDuration) :
      Transition cfg db m g (g.goes (.status 0))
  | status (attempt : ℕ) (s : Status) (hp : g.point = .status attempt) :
      Transition cfg db m g (g.goes (.events attempt s))
  | events (attempt : ℕ) (s : Status) (hp : g.point = .events attempt s) :
      Transition cfg db m g (g.goes (.batch s (queryEvents db g.job g.cursor cfg.batchSize).length
        (queryEvents db g.job g.cursor cfg.batchSize)))
  | retry (attempt delay : ℕ) (hp : g.point = .status attempt ∨ ∃ s, g.point = .events attempt s)
      (hleft : attempt < cfg.retryDelays.length) :
      Transition cfg db m g (g.goes (.retry (attempt + 1) delay))
  | again (attempt delay : ℕ) (hp : g.point = .retry attempt delay) :
      Transition cfg db m g (g.goes (.status attempt))
  | event (s : Status) (size : ℕ) (e : EventRecord) (rest : List EventRecord)
      (hp : g.point = .batch s size (e :: rest)) :
      Transition cfg db m g (g.yields (.event e) (.yielded s size e rest))
  | resume (s : Status) (size : ℕ) (e : EventRecord) (rest : List EventRecord)
      (hp : g.point = .yielded s size e rest) :
      Transition cfg db m g ({ g with cursor := e.eventId }.goes (.batch s size rest))
  | full (s : Status) (size : ℕ) (hp : g.point = .batch s size []) :
      Transition cfg db m g (g.goes .top)
  | sleep (s : Status) (size delay : ℕ) (hp : g.point = .batch s size []) :
      Transition cfg db m g (g.goes (.asleep delay))
  | wake (delay : ℕ) (hp : g.point = .asleep delay) : Transition cfg db m g (g.goes .top)
  | finish (f : Frame) (hp : g.point.Serving) (hf : f.Closing g.job) :
      Transition cfg db m g (g.yields f .last)
  | close (hp : g.point.Serving ∨ g.point = .last) : Transition cfg db m g g.closes

section Transitions

variable {cfg : StreamConfig} {db : Db} {m : Moment} {g : Generator} {r : Generator × Bool}

theorem transition_fails (hp : g.point.Serving) (e : StreamExn) :
    Transition cfg db m g (g.fails e) := by
  unfold fails
  split_ifs
  · exact .close (.inl hp)
  · exact .finish _ hp (.inr (.inl ⟨_, rfl⟩))
  · exact .finish _ hp (.inr (.inl ⟨_, rfl⟩))

theorem transition_fetchFails {attempt : ℕ}
    (hp : g.point = .status attempt ∨ ∃ s, g.point = .events attempt s) (e : StreamExn) :
    Transition cfg db m g (g.fetchFails cfg attempt e) := by
  have hserving : g.point.Serving := by
    rcases hp with hp | ⟨s, hp⟩ <;> rw [hp] <;> trivial
  unfold fetchFails
  split_ifs with hretry
  · exact .retry attempt _ hp hretry.2.2
  · exact transition_fails hserving e

/-- **What a step can do.** -/
theorem transition_of_step (h : g.step cfg db m = some r) : Transition cfg db m g r := by
  unfold step at h
  split at h
  case h_1 hp _ =>
    obtain rfl := Option.some.inj h
    exact .start hp
  case h_2 hp _ =>
    obtain rfl := Option.some.inj h
    exact .discard hp
  case h_3 hp _ =>
    split_ifs at h with hlate
    · obtain rfl := Option.some.inj h
      exact .finish _ (by rw [hp]; trivial) (.inl rfl)
    · obtain rfl := Option.some.inj h
      exact .poll hp (Nat.not_le.mp hlate)
  case h_4 attempt hp _ =>
    split at h
    · obtain rfl := Option.some.inj h
      exact .finish _ (by rw [hp]; trivial) (.inr (.inl ⟨_, rfl⟩))
    · obtain rfl := Option.some.inj h
      exact .status attempt _ hp
  case h_5 attempt e hp _ =>
    obtain rfl := Option.some.inj h
    exact transition_fetchFails (.inl hp) e
  case h_6 attempt s hp _ =>
    obtain rfl := Option.some.inj h
    exact .events attempt s hp
  case h_7 attempt s e hp _ =>
    obtain rfl := Option.some.inj h
    exact transition_fetchFails (.inr ⟨s, hp⟩) e
  case h_8 attempt delay hp _ =>
    obtain rfl := Option.some.inj h
    exact .again attempt delay hp
  case h_9 s size e rest hp _ =>
    obtain rfl := Option.some.inj h
    exact .event s size e rest hp
  case h_10 s size hp _ =>
    split_ifs at h
    · obtain rfl := Option.some.inj h
      exact .finish _ (by rw [hp]; trivial) (.inr (.inr ⟨s, rfl⟩))
    · obtain rfl := Option.some.inj h
      exact .full s size hp
    · obtain rfl := Option.some.inj h
      exact .sleep s size _ hp
  case h_11 s size e rest hp _ =>
    obtain rfl := Option.some.inj h
    exact .resume s size e rest hp
  case h_12 delay hp _ =>
    obtain rfl := Option.some.inj h
    exact .wake delay hp
  case h_13 hp _ =>
    obtain rfl := Option.some.inj h
    exact .close (.inr hp)
  case h_17 hp _ =>
    obtain rfl := Option.some.inj h
    exact .close (.inr hp)
  case h_18 => exact absurd h (by simp)
  all_goals
    obtain rfl := Option.some.inj h
    rename_i hp _
    exact .close (.inl (by rw [hp]; trivial))

/-- A generator that has ended does nothing more; the others end with a release
or not at all. -/
theorem step_released (h : g.step cfg db m = some r) :
    (g.point ≠ .closed ∧ g.point ≠ .discarded) ∧ (r.1.point = .closed ↔ r.2 = true) := by
  have hserving : ∀ {p : Point}, p.Serving → p ≠ .closed ∧ p ≠ .discarded := by
    intro p hp
    cases p <;> first | exact absurd hp id | exact ⟨nofun, nofun⟩
  cases transition_of_step h with
  | retry attempt delay hp hleft =>
    rcases hp with hp | ⟨s, hp⟩ <;> rw [hp] <;> simp [goes]
  | finish f hp hf => exact ⟨hserving hp, by simp [yields]⟩
  | close hp =>
    rcases hp with hp | hp
    · exact ⟨hserving hp, by simp [closes]⟩
    · rw [hp]
      simp [closes]
  | start hp | discard hp | poll hp | status _ _ hp | events _ _ hp | again _ _ hp
  | event _ _ _ _ hp | resume _ _ _ _ hp | full _ _ hp | sleep _ _ _ hp | wake _ hp =>
    rw [hp]
    simp [goes, yields]

end Transitions

end Generator

/-! ### `stream_job_events` -/

/-- `StreamTokenService`; `createToken` is its keyed hash. -/
structure StreamTokenService where
  createToken : Uuid → String

/-- `verify_token`.  `hmac.compare_digest` raises for text outside ASCII. -/
def StreamTokenService.verifyToken (service : StreamTokenService) (j : Uuid) :
    Option String → Except StreamExn Bool
  | none => .ok false
  | some provided =>
    if provided = "" then .ok false
    else if (service.createToken j ++ provided).toList.all (·.toNat < 128) then
      .ok (service.createToken j == provided)
    else .error .other

/-- Decimal digits, with single underscores between them. -/
def parseDigits (text : List Char) : Option ℕ :=
  let groups := text.splitOn '_'
  if groups.all fun group => group ≠ [] ∧ group.all Char.isDigit then
    some (Nat.ofDigitChars 10 groups.flatten 0)
  else none

/-- The zeros outside ASCII, by code point; the other nine digits follow each. -/
def decimalZeros : List ℕ :=
  [0x660, 0x6F0, 0x7C0, 0x966, 0x9E6, 0xA66, 0xAE6, 0xB66, 0xBE6, 0xC66, 0xCE6, 0xD66, 0xDE6,
    0xE50, 0xED0, 0xF20, 0x1040, 0x1090, 0x17E0, 0x1810, 0x1946, 0x19D0, 0x1A80, 0x1A90, 0x1B50,
    0x1BB0, 0x1C40, 0x1C50, 0xA620, 0xA8D0, 0xA900, 0xA9D0, 0xA9F0, 0xAA50, 0xABF0, 0xFF10,
    0x104A0, 0x10D30, 0x11066, 0x110F0, 0x11136, 0x111D0, 0x112F0, 0x11450, 0x114D0, 0x11650,
    0x116C0, 0x11730, 0x118E0, 0x11950, 0x11C50, 0x11D50, 0x11DA0, 0x16A60, 0x16AC0, 0x16B50,
    0x1D7CE, 0x1D7D8, 0x1D7E2, 0x1D7EC, 0x1D7F6, 0x1E140, 0x1E2F0, 0x1E950, 0x1FBF0]

/-- What `int` makes of a character first: other spaces become a blank, other
decimal digits those of ASCII, and what is left is no number. -/
def toAscii (c : Char) : Char :=
  if c.toNat < 127 then c
  else if isSpace c then ' '
  else match decimalZeros.find? fun z => z ≤ c.toNat ∧ c.toNat < z + 10 with
    | some z => Nat.digitChar (c.toNat - z)
    | none => '?'

/-- What `int` then skips at both ends.  `str.strip` takes more. -/
def isPadding (c : Char) : Bool := c ∈ [' ', '\t', '\n', '\x0b', '\x0c', '\r']

/-- `int(text)`. -/
def parseInt (text : String) : Option ℤ :=
  match (((text.toList.map toAscii).dropWhile isPadding).reverse.dropWhile isPadding).reverse with
  | '-' :: digits => (parseDigits digits).map fun n => -(n : ℤ)
  | '+' :: digits => (parseDigits digits).map Int.ofNat
  | digits => (parseDigits digits).map Int.ofNat

-- the separators U+001C to U+001F are spaces for `str.strip` only
example : parseInt " \u0661_2\u00a0" = some 12 ∧ parseInt "\x1c12" = none := by decide

/-- `_parse_last_event_id`. -/
def parseLastEventId (value : Option String) : Option ℤ := value.bind parseInt

/-- How far a stream request has come. -/
inductive Phase
  /-- before `job_exists` -/
  | lookup
  /-- before `resolve_cursor` -/
  | resolve (candidate : Option ℤ)
  /-- before `try_acquire` -/
  | acquire (cursor : ℕ)
  /-- a slot is taken, the response is not yet built -/
  | respond (cursor : ℕ)
  /-- the response has been handed to the server -/
  | streaming (generator : Generator)
  /-- answered with an `HTTPException` -/
  | refused (status : ℕ) (code message : String)
  /-- ended by another exception -/
  | failed (e : StreamExn)

/-- A stream request and what became of it.  `acquired` and `releases` record
whether it was given a slot and how often it has called `release`. -/
structure Connection where
  job : Uuid
  streamToken : Option String
  lastEventId : Option String
  phase : Phase
  acquired : Bool
  releases : ℕ

namespace Connection

/-- `GET /{job_id}/stream`. -/
def request (j : Uuid) (streamToken lastEventId : Option String) : Connection :=
  ⟨j, streamToken, lastEventId, .lookup, false, 0⟩

def goes (c : Connection) (p : Phase) : Connection := { c with phase := p }

def refuse (c : Connection) (status : ℕ) (code message : String) : Connection :=
  c.goes (.refused status code message)

/-- The `except SQLAlchemyError` clauses. -/
def queryFails (c : Connection) (e : StreamExn) : Connection :=
  if e.isSqlalchemy then c.refuse 503 "DATABASE_UNAVAILABLE" "Database is unavailable."
  else c.goes (.failed e)

/-- After `job_exists`: the checks up to the next query. -/
def check (tokens : StreamTokenService) (found : Bool) (c : Connection) : Connection :=
  if found then
    match tokens.verifyToken c.job c.streamToken with
    | .ok true => c.goes (.resolve (parseLastEventId c.lastEventId))
    | .ok false => c.refuse 403 "INVALID_STREAM_TOKEN" "Stream access denied."
    | .error e => c.goes (.failed e)
  else c.refuse 404 "NOT_FOUND" ("Job " ++ c.job.str ++ " not found.")

/-- One step of a request, with its effect on the registry. -/
def step (cfg : StreamConfig) (tokens : StreamTokenService) (db : Db) (m : Moment)
    (registry : ConnectionRegistry) (c : Connection) : Option (Connection × ConnectionRegistry) :=
  match c.phase, m.raised with
  | .lookup, none => some (c.check tokens (jobExists db c.job), registry)
  | .lookup, some e => some (c.queryFails e, registry)
  | .resolve candidate, none =>
    some (c.goes (.acquire (resolveCursor db c.job candidate)), registry)
  | .resolve _, some e => some (c.queryFails e, registry)
  | .acquire cursor, none =>
    match registry.tryAcquire with
    | (true, registry') => some ({ c with acquired := true }.goes (.respond cursor), registry')
    | (false, registry') =>
      some (c.refuse 503 "STREAM_CAPACITY_EXCEEDED" "SSE connection capacity has been reached.",
        registry')
  | .respond cursor, none => some (c.goes (.streaming (.stream c.job cursor)), registry)
  -- building the response failed: the slot is given back
  | .respond _, some .other =>
    some ({ c with releases := c.releases + 1 }.goes (.failed .other), registry.release)
  | .streaming g, _ =>
    (g.step cfg db m).map fun
      | (g', false) => (c.goes (.streaming g'), registry)
      | (g', true) =>
        ({ c with releases := c.releases + 1 }.goes (.streaming g'), registry.release)
  | _, _ => none

/-- The frames that have been sent. -/
def sent (c : Connection) : List Frame :=
  match c.phase with
  | .streaming g => g.sent
  | _ => []

end Connection

end CliExecutionPlatform
