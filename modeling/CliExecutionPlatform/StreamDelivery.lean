/-
What a client receives from the event stream.

The database moves on while a stream runs.  A timeline `db : ℕ → Db` says what
it holds at each time; the steps of a connection happen at times that do not
decrease, and each query sees the database of its time.  About the timeline,
nothing is used but that the log of the job grows at its end.

* `Generator.Follows` — what has been sent, followed by the events that are
  still to be sent from the current batch, is a prefix of the log beyond the
  starting cursor; together with what is known about the status that was read
  first.  `Generator.Follows.step` — every step keeps it;
* `session_delivers` — over any number of connections, cut off anywhere and
  resumed with `Last-Event-ID`, the client receives a prefix of the log;
* `stream_end_drains` — `STREAM_END` is sent after everything that was committed
  when the job ended.
-/
import CliExecutionPlatform.EventStream
import CliExecutionPlatform.Lifecycle
import Mathlib.Tactic.FinCases

open AppendLog Process

namespace CliExecutionPlatform

/-! ### The log as the stream shows it -/

def streamLog (db : Db) (j : Uuid) : List EventRecord := (db.eventsOf j).map .ofRow

section Log

variable (db : Db) (j : Uuid)

theorem ordered_streamLog : Ordered EventRecord.eventId (streamLog db j) := by
  rw [Ordered, streamLog, List.pairwise_map]
  exact db.sorted.filter _

theorem streamLog_pos {e : EventRecord} (h : e ∈ streamLog db j) : 0 < e.eventId := by
  obtain ⟨row, hrow, rfl⟩ := List.mem_map.mp h
  exact (db.numbered row (List.mem_of_mem_filter hrow)).1

theorem beyond_zero_streamLog :
    beyond EventRecord.eventId 0 (streamLog db j) = streamLog db j :=
  beyond_zero fun _ he => streamLog_pos db j he

/-- A query returns the first events beyond the cursor. -/
theorem queryEvents_eq (c limit : ℕ) :
    queryEvents db j c limit = (beyond EventRecord.eventId c (streamLog db j)).take limit := by
  rw [queryEvents, beyond, streamLog, Db.eventsOf, List.filter_map, List.filter_filter,
    List.map_take]
  congr 3
  funext ev
  show decide (ev.jobId = j ∧ c < ev.id) = (decide (c < ev.id) && decide (ev.jobId = j))
  rw [Bool.decide_and, Bool.and_comm]

end Log

/-- The log of job `j` along a timeline. -/
def logAt (db : ℕ → Db) (j : Uuid) (t : ℕ) : List EventRecord := streamLog (db t) j

theorem grows_logAt {db : ℕ → Db} {j : Uuid} (h : Grows fun t => (db t).eventsOf j) :
    Grows (logAt db j) := fun t => (h t).map _

/-! ### The generator -/

/-- The events of the current batch that have not been sent. -/
def Point.rest : Point → List EventRecord
  | .batch _ _ rest | .yielded _ _ _ rest => rest
  | _ => []

@[simp] theorem eventFrames_concat (frames : List Frame) (e : EventRecord) :
    eventFrames (frames ++ [.event e]) = eventFrames frames ++ [e] := by
  rw [eventFrames, List.filterMap_append]
  rfl

@[simp] theorem eventFrames_control (frames : List Frame) (name : String) (j : Uuid)
    (data : List (String × String)) :
    eventFrames (frames ++ [.control name j data]) = eventFrames frames := by
  rw [eventFrames, List.filterMap_append]
  exact List.append_nil _

theorem streamEnd_inj {j : Uuid} {s s' : Status} (h : streamEnd j s = streamEnd j s') :
    s = s' := by
  have htext : s.text = s'.text := by
    simpa [streamEnd] using h
  revert htext
  cases s <;> cases s' <;> simp [Status.text]

namespace Generator

section Follows

variable (db : ℕ → Db) (size : ℕ) (j : Uuid) (c : ℕ)

/-- The events of the job beyond the starting cursor, at time `t`. -/
def backlog (g : Generator) (t : ℕ) : List EventRecord :=
  beyond EventRecord.eventId g.lastSeenId (logAt db g.job t)

/-- The events sent so far. -/
def received (g : Generator) : List EventRecord := eventFrames g.sent

/-- The cursor is at the last event sent. -/
def AtLast (g : Generator) (c : ℕ) : Prop :=
  c = AppendLog.cursor EventRecord.eventId g.lastSeenId g.received

/-- The status was read at some time `u` so far; if the batch of `n` events that
was read after it was not full, it reached everything logged at `u`. -/
def Drains (g : Generator) (t : ℕ) (s : Status) (n : ℕ) (pending : List EventRecord) : Prop :=
  ∃ u ≤ t, (db u).status g.job = some s ∧ (n < size → g.backlog db u <+: g.received ++ pending)

/-- What is known at each point. -/
def Place (t : ℕ) (g : Generator) : Point → Prop
  | .unstarted => g.sent = []
  | .top | .status _ | .retry _ _ | .asleep _ => g.AtLast g.cursor
  | .events _ s => g.AtLast g.cursor ∧ ∃ u ≤ t, (db u).status g.job = some s
  | .batch s n rest => g.AtLast g.cursor ∧ g.Drains db size t s n rest
  | .yielded s n e rest => g.AtLast e.eventId ∧ g.Drains db size t s n rest
  | .last | .closed | .discarded => True

/-- The generator follows the log of job `j` from the cursor `c` on. -/
structure Follows (t : ℕ) (g : Generator) : Prop where
  job : g.job = j
  start : g.lastSeenId = c
  delivered : g.received ++ g.point.rest <+: g.backlog db t
  place : g.Place db size t g.point
  ended : ∀ s, streamEnd g.job s ∈ g.sent → s.terminal ∧
    ∃ u ≤ t, (db u).status g.job = some s ∧ g.backlog db u <+: g.received

variable {db size j c} {t t' : ℕ} {g : Generator}

theorem follows_stream : Follows db size j c t (.stream j c) where
  job := rfl
  start := rfl
  delivered := List.nil_prefix
  place := rfl
  ended := fun _ h => absurd h List.not_mem_nil

theorem Follows.backlog_grows (hdb : Grows (logAt db j)) (h : Follows db size j c t g) {u u' : ℕ}
    (hu : u ≤ u') : g.backlog db u <+: g.backlog db u' := by
  rw [← h.job] at hdb
  exact hdb.beyond _ hu

theorem Drains.later {s : Status} {n : ℕ} {pending : List EventRecord} (ht : t ≤ t')
    (h : g.Drains db size t s n pending) : g.Drains db size t' s n pending := by
  obtain ⟨u, hu, h⟩ := h
  exact ⟨u, hu.trans ht, h⟩

/-- Whatever happens to the database, the generator still follows it. -/
theorem Follows.later (hdb : Grows (logAt db j)) (ht : t ≤ t') (h : Follows db size j c t g) :
    Follows db size j c t' g := by
  refine ⟨h.job, h.start, h.delivered.trans (h.backlog_grows hdb ht), ?_, fun s hs => ?_⟩
  · have hplace := h.place
    generalize g.point = p at hplace ⊢
    cases p with
    | events attempt s =>
      obtain ⟨hcur, u, hu, hs⟩ := hplace
      exact ⟨hcur, u, hu.trans ht, hs⟩
    | batch s n rest => exact ⟨hplace.1, hplace.2.later ht⟩
    | yielded s n e rest => exact ⟨hplace.1, hplace.2.later ht⟩
    | _ => exact hplace
  · obtain ⟨hterm, u, hu, h⟩ := h.ended s hs
    exact ⟨hterm, u, hu.trans ht, h⟩

/-- Moving on without a frame; the events of the batch may be dropped. -/
theorem Follows.goes {p : Point} (h : Follows db size j c t g)
    (hrest : p.rest = g.point.rest ∨ p.rest = []) (hplace : g.Place db size t p) :
    Follows db size j c t (g.goes p).1 := by
  refine ⟨h.job, h.start, ?_, ?_, h.ended⟩
  · show g.received ++ p.rest <+: g.backlog db t
    rcases hrest with hrest | hrest
    · rw [hrest]
      exact h.delivered
    · rw [hrest, List.append_nil]
      exact (List.prefix_append _ _).trans h.delivered
  · cases p <;> exact hplace

theorem Follows.closes (h : Follows db size j c t g) : Follows db size j c t g.closes.1 :=
  h.goes (.inr rfl) trivial

/-- A control frame ends the stream. -/
theorem Follows.control {name : String} {data : List (String × String)}
    (h : Follows db size j c t g)
    (hend : ∀ s, streamEnd g.job s = .control name g.job data → s.terminal ∧
      ∃ u ≤ t, (db u).status g.job = some s ∧ g.backlog db u <+: g.received) :
    Follows db size j c t (g.yields (.control name g.job data) .last).1 := by
  have hsame : (g.yields (.control name g.job data) .last).1.received = g.received :=
    eventFrames_control _ _ _ _
  refine ⟨h.job, h.start, ?_, trivial, fun s hs => ?_⟩
  · rw [hsame]
    exact (List.append_nil g.received).symm ▸ (List.prefix_append _ _).trans h.delivered
  · rw [hsame]
    rcases List.mem_append.mp hs with hs | hs
    · exact h.ended s hs
    · exact hend s (List.mem_singleton.mp hs)

theorem Follows.error {code : String} (h : Follows db size j c t g) :
    Follows db size j c t (g.yields (streamError g.job code) .last).1 :=
  h.control fun s hs => absurd hs (by simp [streamEnd])

theorem Follows.fails (h : Follows db size j c t g) (e : StreamExn) :
    Follows db size j c t (g.fails e).1 := by
  rw [Generator.fails]
  by_cases hc : e = .cancelled
  · rw [if_pos hc]
    exact h.closes
  · rw [if_neg hc]
    by_cases hsql : e.isSqlalchemy
    · rw [if_pos hsql]
      exact h.error
    · rw [if_neg hsql]
      exact h.error

theorem Follows.fetchFails {cfg : StreamConfig} (h : Follows db size j c t g)
    (hcur : g.AtLast g.cursor) (attempt : ℕ) (e : StreamExn) :
    Follows db size j c t (g.fetchFails cfg attempt e).1 := by
  rw [Generator.fetchFails]
  by_cases hr : e.isDbapi ∧ e.isTransient ∧ attempt < cfg.retryDelays.length
  · rw [if_pos hr]
    exact h.goes (.inr rfl) hcur
  · rw [if_neg hr]
    exact h.fails e

/-- The batch that a query returns continues what has been sent. -/
theorem Follows.query (hdb : Grows (logAt db j)) (h : Follows db size j c t g)
    (hrest : g.point.rest = []) (hcur : g.AtLast g.cursor) {s : Status}
    (hs : ∃ u ≤ t, (db u).status g.job = some s) :
    Follows db size j c t (g.goes (.batch s (queryEvents (db t) g.job g.cursor size).length
      (queryEvents (db t) g.job g.cursor size))).1 := by
  have hsent : g.received <+: g.backlog db t := by
    have := h.delivered
    rwa [hrest, List.append_nil] at this
  have hall : g.received ++ beyond EventRecord.eventId g.cursor (logAt db g.job t) =
      g.backlog db t := by
    rw [hcur]
    exact append_beyond (ordered_streamLog _ _) hsent
  rw [queryEvents_eq]
  refine ⟨h.job, h.start, ?_, ⟨hcur, ?_⟩, h.ended⟩
  · show g.received ++ _ <+: g.backlog db t
    rw [← hall]
    exact (List.prefix_append_right_inj _).mpr (List.take_prefix _ _)
  · obtain ⟨u, hu, hstatus⟩ := hs
    refine ⟨u, hu, hstatus, fun hlt => ?_⟩
    -- a batch that is not full is everything there was
    rw [List.take_of_length_le (by rw [List.length_take] at hlt; omega)]
    show g.backlog db u <+: g.received ++ _
    rw [show g.received ++ beyond EventRecord.eventId g.cursor (streamLog (db t) g.job) =
      g.backlog db t from hall]
    exact h.backlog_grows hdb hu

/-- The next event of the batch is sent. -/
theorem Follows.event {s : Status} {n : ℕ} {e : EventRecord} {rest : List EventRecord}
    (h : Follows db size j c t g) (hp : g.point = .batch s n (e :: rest)) :
    Follows db size j c t (g.yields (.event e) (.yielded s n e rest)).1 := by
  have hplace := h.place
  rw [hp] at hplace
  obtain ⟨-, u, hu, hstatus, hdrain⟩ := hplace
  -- The event moves from the batch to what has been received.
  have hsent : (g.yields (.event e) (.yielded s n e rest)).1.received = g.received ++ [e] :=
    eventFrames_concat _ _
  refine ⟨h.job, h.start, ?_, ⟨?_, u, hu, hstatus, fun hlt => ?_⟩, fun s' hs' => ?_⟩
  · rw [hsent]
    show g.received ++ [e] ++ rest <+: g.backlog db t
    rw [List.append_assoc]
    have := h.delivered
    rwa [hp] at this
  · show e.eventId = AppendLog.cursor EventRecord.eventId g.lastSeenId _
    rw [hsent, cursor_concat]
  · rw [hsent, List.append_assoc]
    exact hdrain hlt
  · rw [hsent]
    rcases List.mem_append.mp hs' with hs' | hs'
    · obtain ⟨hterm, v, hv, hstat, hpre⟩ := h.ended s' hs'
      exact ⟨hterm, v, hv, hstat, hpre.trans (List.prefix_append _ _)⟩
    · exact absurd (List.mem_singleton.mp hs') (by simp [streamEnd])

/-- The end of a batch. -/
theorem Follows.endOfBatch {cfg : StreamConfig} {s : Status} {n clock : ℕ}
    (h : Follows db cfg.batchSize j c t g) (hp : g.point = .batch s n []) {r : Generator × Bool}
    (hr : (if s.terminal ∧ n < cfg.batchSize then some (g.yields (streamEnd g.job s) .last)
      else if cfg.batchSize ≤ n then some (g.goes .top)
      else some (g.goes (.asleep (min cfg.pollInterval
        (cfg.maxDuration - (clock - g.startedAt)))))) = some r) :
    Follows db cfg.batchSize j c t r.1 := by
  have hplace := h.place
  rw [hp] at hplace
  obtain ⟨hcur, u, hu, hstatus, hdrain⟩ := hplace
  -- A batch that is not full was the whole log of the moment when the status was read.
  by_cases hend : s.terminal ∧ n < cfg.batchSize
  · rw [if_pos hend] at hr
    rw [← Option.some.inj hr]
    refine h.control fun s' hs' => ?_
    obtain rfl := streamEnd_inj hs'
    have hall := hdrain hend.2
    rw [List.append_nil] at hall
    exact ⟨hend.1, u, hu, hstatus, hall⟩
  · rw [if_neg hend] at hr
    by_cases hfull : cfg.batchSize ≤ n
    · rw [if_pos hfull] at hr
      rw [← Option.some.inj hr]
      exact h.goes (.inr rfl) hcur
    · rw [if_neg hfull] at hr
      rw [← Option.some.inj hr]
      exact h.goes (.inr rfl) hcur

/-- **A step keeps following the log.** -/
theorem Follows.step {cfg : StreamConfig} {m : Moment} {r : Generator × Bool}
    (hdb : Grows (logAt db j)) (h : Follows db cfg.batchSize j c t g)
    (hstep : g.step cfg (db t) m = some r) : Follows db cfg.batchSize j c t r.1 := by
  have hplace := h.place
  -- one case for each point, and there one for each thing that can be raised
  cases hp : g.point with
  | unstarted =>
    rw [hp] at hplace
    have hnil : g.received = [] := by
      rw [received, show g.sent = [] from hplace]
      rfl
    rcases hr : m.raised with _ | e
    · simp only [Generator.step, hp, hr, Option.some.injEq] at hstep
      subst hstep
      refine ⟨h.job, h.start, ?_, ?_, h.ended⟩
      · show g.received ++ [] <+: g.backlog db t
        rw [hnil]
        exact List.nil_prefix
      · show g.lastSeenId = AppendLog.cursor EventRecord.eventId g.lastSeenId g.received
        rw [hnil]
        rfl
    · cases e with
      | cancelled =>
        simp only [Generator.step, hp, hr, Option.some.injEq] at hstep
        subst hstep
        exact h.goes (.inr rfl) trivial
      | _ => simp [Generator.step, hp, hr] at hstep
  | top =>
    rw [hp] at hplace
    rcases hr : m.raised with _ | e
    · simp only [Generator.step, hp, hr] at hstep
      by_cases hmax : cfg.maxDuration ≤ m.clock - g.startedAt
      · rw [if_pos hmax, Option.some_inj] at hstep
        subst hstep
        exact h.control fun s hs => absurd hs (by simp [streamEnd])
      · rw [if_neg hmax, Option.some_inj] at hstep
        subst hstep
        exact h.goes (.inr rfl) hplace
    · simp [Generator.step, hp, hr] at hstep
  | status attempt =>
    rw [hp] at hplace
    rcases hr : m.raised with _ | e
    · simp only [Generator.step, hp, hr] at hstep
      rcases hs : (db t).status g.job with _ | s
      · rw [hs, Option.some_inj] at hstep
        subst hstep
        exact h.error
      · simp only [hs, Option.some.injEq] at hstep
        subst hstep
        exact h.goes (.inr rfl) ⟨hplace, t, Nat.le_refl t, hs⟩
    · simp only [Generator.step, hp, hr, Option.some.injEq] at hstep
      subst hstep
      exact h.fetchFails hplace attempt e
  | events attempt s =>
    rw [hp] at hplace
    rcases hr : m.raised with _ | e
    · simp only [Generator.step, hp, hr, Option.some.injEq] at hstep
      subst hstep
      exact h.query hdb (by rw [hp]; rfl) hplace.1 hplace.2
    · simp only [Generator.step, hp, hr, Option.some.injEq] at hstep
      subst hstep
      exact h.fetchFails hplace.1 attempt e
  | batch s n rest =>
    rcases hr : m.raised with _ | e
    · cases rest with
      | nil =>
        simp only [Generator.step, hp, hr] at hstep
        exact h.endOfBatch hp hstep
      | cons event rest =>
        simp only [Generator.step, hp, hr, Option.some.injEq] at hstep
        subst hstep
        exact h.event hp
    · simp [Generator.step, hp, hr] at hstep
  | yielded s n event rest =>
    rw [hp] at hplace
    rcases hr : m.raised with _ | e
    · simp only [Generator.step, hp, hr, Option.some.injEq] at hstep
      subst hstep
      refine ⟨h.job, h.start, ?_, hplace, h.ended⟩
      have := h.delivered
      rwa [hp] at this
    · rw [step_suspended (by rw [hp]; rfl) hr hstep]
      exact h.closes
  | retry attempt delay =>
    rw [hp] at hplace
    rcases hr : m.raised with _ | e
    · simp only [Generator.step, hp, hr, Option.some.injEq] at hstep
      subst hstep
      exact h.goes (.inr rfl) hplace
    · rw [step_suspended (by rw [hp]; rfl) hr hstep]
      exact h.closes
  | asleep delay =>
    rw [hp] at hplace
    rcases hr : m.raised with _ | e
    · simp only [Generator.step, hp, hr, Option.some.injEq] at hstep
      subst hstep
      exact h.goes (.inr rfl) hplace
    · rw [step_suspended (by rw [hp]; rfl) hr hstep]
      exact h.closes
  | last =>
    rcases hr : m.raised with _ | e
    · simp only [Generator.step, hp, hr, Option.some.injEq] at hstep
      subst hstep
      exact h.closes
    · rw [step_suspended (by rw [hp]; rfl) hr hstep]
      exact h.closes
  | closed => simp [Generator.step, hp] at hstep
  | discarded => simp [Generator.step, hp] at hstep

end Follows

/-- A step, without its effect on the slots. -/
def react (cfg : StreamConfig) (db : Db) (m : Moment) (g : Generator) : Option Generator :=
  (g.step cfg db m).map Prod.fst

/-- A stream that has run for a while follows the log. -/
theorem follows_run {cfg : StreamConfig} {db : ℕ → Db} {j : Uuid} {c t₀ t : ℕ} {g : Generator}
    (hdb : Grows (logAt db j)) (h : Observes (react cfg) db (t₀, stream j c) (t, g)) :
    Follows db cfg.batchSize j c t g := by
  refine h.invariant (I := fun t g => Follows db cfg.batchSize j c t g) ?_ ?_ follows_stream
  · intro t t' g ht hg
    exact hg.later hdb ht
  · intro t m g g' hg hstep
    obtain ⟨r, hr, rfl⟩ := Option.map_eq_some_iff.mp hstep
    exact hg.step hdb hr

end Generator

/-! ### `Last-Event-ID` -/

theorem lt_of_isDigit {c : Char} (h : c.isDigit = true) : c.toNat < 127 := by
  rw [Char.isDigit, Bool.and_eq_true, decide_eq_true_eq, decide_eq_true_eq] at h
  have hc : c.toNat ≤ 57 := UInt32.le_iff_toNat_le.mp h.2
  omega

theorem isPadding_of_isDigit {c : Char} (h : c.isDigit = true) : isPadding c = false := by
  by_contra hcon
  rw [Bool.not_eq_false, isPadding, decide_eq_true_eq] at hcon
  fin_cases hcon <;> exact absurd h (by decide)

theorem map_toAscii_of_digits {l : List Char} (h : ∀ c ∈ l, c.isDigit = true) :
    l.map toAscii = l := by
  have hkept : ∀ c ∈ l, toAscii c = id c := fun c hc => if_pos (lt_of_isDigit (h c hc))
  rw [List.map_congr_left hkept, List.map_id]

theorem dropWhile_isPadding {l : List Char} (h : ∀ c ∈ l, c.isDigit = true) :
    l.dropWhile isPadding = l := by
  cases l with
  | nil => rfl
  | cons c rest =>
    have hc := isPadding_of_isDigit (h c List.mem_cons_self)
    rw [List.dropWhile_cons, hc, if_neg Bool.false_ne_true]

theorem parseDigits_toDigits (n : ℕ) : parseDigits (Nat.toDigits 10 n) = some n := by
  have hdigit : ∀ c ∈ Nat.toDigits 10 n, c.isDigit = true :=
    fun c hc => Nat.isDigit_of_mem_toDigits (by omega) (by omega) hc
  have hsplit : (Nat.toDigits 10 n).splitOn '_' = [Nat.toDigits 10 n] := by
    rw [List.splitOn_eq_singleton]
    intro hmem
    exact absurd (hdigit '_' hmem) (by decide)
  simp only [parseDigits, hsplit]
  rw [if_pos]
  · rw [List.flatten_singleton, Nat.ofDigitChars_ten_toDigits]
  · simp only [List.all_cons, List.all_nil, Bool.and_true, decide_eq_true_eq]
    exact ⟨Nat.toDigits_ne_nil, List.all_eq_true.mpr hdigit⟩

/-- The text of an event number is read back as that number. -/
theorem parseInt_repr (n : ℕ) : parseInt n.repr = some (n : ℤ) := by
  have hlist : n.repr.toList = Nat.toDigits 10 n := Nat.toList_repr
  have hdigit : ∀ c ∈ n.repr.toList, c.isDigit = true := by
    rw [hlist]
    exact fun c hc => Nat.isDigit_of_mem_toDigits (by omega) (by omega) hc
  have hrev : ∀ c ∈ n.repr.toList.reverse, c.isDigit = true :=
    fun c hc => hdigit c (List.mem_reverse.mp hc)
  rw [parseInt, map_toAscii_of_digits hdigit, dropWhile_isPadding hdigit, dropWhile_isPadding hrev,
    List.reverse_reverse]
  split
  · rename_i heq
    exact absurd (hdigit '-' (by rw [heq]; exact List.mem_cons_self)) (by decide)
  · rename_i heq
    exact absurd (hdigit '+' (by rw [heq]; exact List.mem_cons_self)) (by decide)
  · rw [hlist, parseDigits_toDigits]
    rfl

/-- The header that a client sends after `received`. -/
def lastEventId (received : List EventRecord) : Option String :=
  received.getLast?.map fun e => e.eventId.repr

theorem resolveCursor_of_mem {db : Db} {j : Uuid} {row : EventRow} (h : row ∈ db.eventsOf j) :
    resolveCursor db j (some (row.id : ℤ)) = row.id := by
  obtain ⟨hin, hjob⟩ := List.mem_filter.mp h
  have hpos := (db.numbered row hin).1
  have hfound : db.events.any (fun ev => ev.jobId = j ∧ (ev.id : ℤ) = (row.id : ℤ)) = true :=
    List.any_eq_true.mpr ⟨row, hin, by simpa using hjob⟩
  rw [resolveCursor, if_neg (by omega), if_pos hfound, Int.toNat_natCast]

/-- A client that has received a prefix of the log goes on where it stopped. -/
theorem resolveCursor_lastEventId {db : Db} {j : Uuid} {received : List EventRecord}
    (h : received <+: streamLog db j) :
    resolveCursor db j (parseLastEventId (lastEventId received)) =
      cursor EventRecord.eventId 0 received := by
  rcases List.eq_nil_or_concat received with rfl | ⟨init, e, rfl⟩
  · rfl
  · rw [List.concat_eq_append] at h ⊢
    obtain ⟨row, hrow, rfl⟩ := List.mem_map.mp (h.subset (by simp : e ∈ init ++ [e]))
    have hheader : parseLastEventId (lastEventId (init ++ [.ofRow row])) = some (row.id : ℤ) := by
      rw [lastEventId, List.getLast?_concat, Option.map_some, parseLastEventId, Option.bind_some,
        EventRecord.ofRow, parseInt_repr]
    rw [hheader, cursor_concat]
    exact resolveCursor_of_mem hrow

/-! ### Connections -/

namespace Connection

/-- A step, with the slots as it finds them. -/
def react (cfg : StreamConfig) (tokens : StreamTokenService) (db : Db)
    (m : Moment × ConnectionRegistry) (c : Connection) : Option Connection :=
  (c.step cfg tokens db m.1 m.2).map Prod.fst

/-- The connection serves job `j` from the cursor `cur` on. -/
structure Serves (db : ℕ → Db) (size : ℕ) (j : Uuid) (header : Option String) (cur t : ℕ)
    (c : Connection) : Prop where
  job : c.job = j
  lastEventId : c.lastEventId = header
  phase : match c.phase with
    | .resolve candidate => candidate = parseLastEventId header
    | .acquire cursor | .respond cursor => cursor = cur
    | .streaming g => g.Follows db size j cur t
    | .lookup | .refused _ _ _ | .failed _ => True

section Serves

variable {cfg : StreamConfig} {tokens : StreamTokenService} {db : ℕ → Db} {size : ℕ} {j : Uuid}
  {header : Option String} {cur t t' : ℕ} {c : Connection}

theorem Serves.later (hdb : Grows (logAt db j)) (ht : t ≤ t')
    (h : Serves db size j header cur t c) : Serves db size j header cur t' c := by
  refine ⟨h.job, h.lastEventId, ?_⟩
  have hphase := h.phase
  cases hp : c.phase with
  | streaming g =>
    rw [hp] at hphase
    exact Generator.Follows.later hdb ht hphase
  | _ => rwa [hp] at hphase

theorem Serves.refuse (h : Serves db size j header cur t c) (status : ℕ) (code message : String) :
    Serves db size j header cur t (c.refuse status code message) :=
  ⟨h.job, h.lastEventId, trivial⟩

theorem Serves.queryFails (h : Serves db size j header cur t c) (e : StreamExn) :
    Serves db size j header cur t (c.queryFails e) := by
  rw [Connection.queryFails]
  by_cases hsql : e.isSqlalchemy
  · rw [if_pos hsql]
    exact h.refuse _ _ _
  · rw [if_neg hsql]
    exact ⟨h.job, h.lastEventId, trivial⟩

theorem Serves.check (h : Serves db size j header cur t c) (found : Bool) :
    Serves db size j header cur t (c.check tokens found) := by
  cases found with
  | false => exact h.refuse _ _ _
  | true =>
    rw [Connection.check, if_pos rfl]
    rcases tokens.verifyToken c.job c.streamToken with e | b
    · exact ⟨h.job, h.lastEventId, trivial⟩
    · cases b with
      | false => exact h.refuse _ _ _
      | true => exact ⟨h.job, h.lastEventId, congrArg parseLastEventId h.lastEventId⟩

/-- The step of a connection, where the header leads to the cursor `cur`. -/
theorem Serves.step {m : Moment × ConnectionRegistry} {c' : Connection}
    (hdb : Grows (logAt db j))
    (hcur : resolveCursor (db t) j (parseLastEventId header) = cur)
    (h : Serves db cfg.batchSize j header cur t c)
    (hreact : c.react cfg tokens (db t) m = some c') :
    Serves db cfg.batchSize j header cur t c' := by
  have hphase := h.phase
  obtain ⟨⟨c₁, registry⟩, hstep, rfl⟩ := Option.map_eq_some_iff.mp hreact
  -- One case for each phase of the request.
  cases hp : c.phase with
  | lookup =>
    rcases hr : m.1.raised with _ | e
    · simp only [Connection.step, hp, hr, Option.some.injEq, Prod.mk.injEq] at hstep
      rw [← hstep.1]
      exact h.check _
    · simp only [Connection.step, hp, hr, Option.some.injEq, Prod.mk.injEq] at hstep
      rw [← hstep.1]
      exact h.queryFails e
  | resolve candidate =>
    rw [hp] at hphase
    rcases hr : m.1.raised with _ | e
    · simp only [Connection.step, hp, hr, Option.some.injEq, Prod.mk.injEq] at hstep
      rw [← hstep.1]
      refine ⟨h.job, h.lastEventId, ?_⟩
      show resolveCursor (db t) c.job candidate = cur
      rw [h.job, show candidate = parseLastEventId header from hphase, hcur]
    · simp only [Connection.step, hp, hr, Option.some.injEq, Prod.mk.injEq] at hstep
      rw [← hstep.1]
      exact h.queryFails e
  | acquire cursor =>
    rw [hp] at hphase
    rcases hr : m.1.raised with _ | e
    · simp only [Connection.step, hp, hr] at hstep
      rcases hacq : m.2.tryAcquire with ⟨_ | _, r⟩
      · simp only [hacq, Option.some.injEq, Prod.mk.injEq] at hstep
        rw [← hstep.1]
        exact h.refuse _ _ _
      · simp only [hacq, Option.some.injEq, Prod.mk.injEq] at hstep
        rw [← hstep.1]
        exact ⟨h.job, h.lastEventId, hphase⟩
    · simp [Connection.step, hp, hr] at hstep
  | respond cursor =>
    rw [hp] at hphase
    rcases hr : m.1.raised with _ | e
    · simp only [Connection.step, hp, hr, Option.some.injEq, Prod.mk.injEq] at hstep
      rw [← hstep.1]
      refine ⟨h.job, h.lastEventId, ?_⟩
      rw [h.job, show cursor = cur from hphase]
      exact Generator.follows_stream
    · cases e with
      | other =>
        simp only [Connection.step, hp, hr, Option.some.injEq, Prod.mk.injEq] at hstep
        rw [← hstep.1]
        exact ⟨h.job, h.lastEventId, trivial⟩
      | _ => simp [Connection.step, hp, hr] at hstep
  | streaming g =>
    rw [hp] at hphase
    simp only [Connection.step, hp] at hstep
    obtain ⟨⟨g', released⟩, hg, heq⟩ := Option.map_eq_some_iff.mp hstep
    have hfollows := Generator.Follows.step hdb hphase hg
    cases released with
    | false =>
      rw [← (Prod.mk.inj heq).1]
      exact ⟨h.job, h.lastEventId, hfollows⟩
    | true =>
      rw [← (Prod.mk.inj heq).1]
      exact ⟨h.job, h.lastEventId, hfollows⟩
  | refused status code message => simp [Connection.step, hp] at hstep
  | failed e => simp [Connection.step, hp] at hstep

/-- What a connection has sent is what the log holds beyond the cursor, as far
as it goes. -/
theorem Serves.sent (h : Serves db size j header cur t c) :
    eventFrames c.sent <+: beyond EventRecord.eventId cur (logAt db j t) := by
  have hphase := h.phase
  rw [Connection.sent]
  cases hp : c.phase with
  | streaming g =>
    rw [hp] at hphase
    have hdelivered := (List.prefix_append _ _).trans (Generator.Follows.delivered hphase)
    rw [Generator.backlog, Generator.Follows.job hphase, Generator.Follows.start hphase]
      at hdelivered
    exact hdelivered
  | _ => exact List.nil_prefix

end Serves

end Connection

/-! ### Sessions -/

/-- A client and what it has received at time `t`: it opens one connection after
the other, with any configuration of the server, stops reading anywhere and goes
on with the `Last-Event-ID` of the last event received. -/
inductive Session (tokens : StreamTokenService) (db : ℕ → Db) (j : Uuid) :
    ℕ → List EventRecord → Prop
  | start (t : ℕ) : Session tokens db j t []
  | connect {t t' : ℕ} {received : List EventRecord} {cfg : StreamConfig}
      {streamToken : Option String} {c : Connection} {frames : List Frame}
      (before : Session tokens db j t received)
      (run : Observes (Connection.react cfg tokens) db
        (t, .request j streamToken (lastEventId received)) (t', c))
      (read : frames <+: c.sent) :
      Session tokens db j t' (received ++ eventFrames frames)

/-- **No event is skipped and none is repeated.**  Whatever the connections of a
client are and wherever they end, the events it receives are a prefix of the log
of the job. -/
theorem session_delivers (tokens : StreamTokenService) (j : Uuid) {db : ℕ → Db}
    (hdb : Grows fun t => (db t).eventsOf j) {t : ℕ} {received : List EventRecord}
    (h : Session tokens db j t received) : received <+: streamLog (db t) j := by
  have hlog := grows_logAt hdb
  induction h with
  | start t => exact List.nil_prefix
  | @connect t t' received cfg streamToken c frames _ run read ih =>
    -- the cursor is the same whenever it is resolved
    have hcur : ∀ u, t ≤ u → resolveCursor (db u) j (parseLastEventId (lastEventId received)) =
        cursor EventRecord.eventId 0 received :=
      fun u hu => resolveCursor_lastEventId (ih.trans (hlog.mono hu))
    have hserves := run.invariant (I := fun u c => t ≤ u ∧ c.Serves db cfg.batchSize j
      (lastEventId received) (cursor EventRecord.eventId 0 received) u)
      (fun u u' c hu hc => ⟨hc.1.trans hu, hc.2.later hlog hu⟩)
      (fun u m c c' hc hstep => ⟨hc.1, hc.2.step hlog (hcur u hc.1) hstep⟩)
      ⟨Nat.le_refl t, rfl, rfl, trivial⟩
    have hseen : received <+: beyond EventRecord.eventId 0 (streamLog (db t') j) := by
      rw [beyond_zero_streamLog]
      exact ih.trans (hlog.mono hserves.1)
    have hall := append_beyond (ordered_streamLog (db t') j) hseen
    rw [beyond_zero_streamLog] at hall
    have hframes : eventFrames frames <+: eventFrames c.sent := read.filterMap _
    calc received ++ eventFrames frames
        <+: received ++ beyond EventRecord.eventId (cursor EventRecord.eventId 0 received)
          (streamLog (db t') j) :=
          (List.prefix_append_right_inj _).mpr (hframes.trans hserves.2.sent)
      _ = streamLog (db t') j := hall

namespace Sample

/-- A database with `n` events of one job. -/
def logged (n : ℕ) : Db :=
  (Db.empty.insert job ⟨none, "a box", .running, none, 0⟩).log 0 0 job
    (List.replicate n (.cliOutput, "ok"))

/-- Two events, then a third one. -/
def growing (t : ℕ) : Db := if t = 0 then logged 2 else logged 3

theorem grows_growing : AppendLog.Grows fun t => (growing t).eventsOf job := by
  intro t
  cases t with
  | zero => decide
  | succ t => exact List.prefix_rfl

def tokens : StreamTokenService := ⟨fun _ => "v1.token"⟩

/-- A stream that reads one event at a time. -/
def oneByOne : StreamConfig := { StreamConfig.default with batchSize := 1 }

/-- A connection opened at time `t`, after `n` steps at time `u`. -/
def serve (t u n : ℕ) (header : Option String) : Option (ℕ × Connection) :=
  observe (Connection.react oneByOne tokens) growing
    (List.replicate n (u, (⟨0, none⟩, ⟨20, 0, by decide, by decide⟩)))
    (t, .request job (some "v1.token") header)

theorem session_serve {t : ℕ} {received : List EventRecord} (u n : ℕ) (shown : List EventRecord)
    (h : Session tokens growing job t received)
    (hserve : ((serve t u n (lastEventId received)).any fun b =>
      b.1 = u ∧ eventFrames b.2.sent = shown) = true) :
    Session tokens growing job u (received ++ shown) := by
  obtain ⟨⟨t₁, c⟩, hc, hgood⟩ := (Option.any_eq_true _ _).mp hserve
  obtain ⟨rfl, rfl⟩ := of_decide_eq_true hgood
  exact .connect h (observes_of_observe hc) List.prefix_rfl

end Sample

set_option maxRecDepth 100000 in
/-- The client drops after the first event and comes back for the others. -/
theorem session_delivers_sample :
    ∃ received, Session Sample.tokens Sample.growing Sample.job 1 received ∧
      received.map EventRecord.eventId = [1, 2, 3] ∧
      received <+: streamLog (Sample.growing 1) Sample.job := by
  have hfirst := Sample.session_serve 0 9 ((streamLog (Sample.logged 3) Sample.job).take 1)
    (.start 0) (by decide +kernel)
  have hsecond := Sample.session_serve 1 15 ((streamLog (Sample.logged 3) Sample.job).drop 1)
    hfirst (by decide +kernel)
  exact ⟨_, hsecond, by decide, session_delivers _ _ Sample.grows_growing hsecond⟩

/-! ### Runs of the platform as timelines -/

/-- A run of the platform, state by state; now and then nothing happens. -/
def Runs (parts : Parts) (states : ℕ → State) : Prop :=
  states 0 = start parts ∧
    ∀ t, states (t + 1) = states t ∨ (platform parts).Step (states t) (states (t + 1))

/-- The database along a run. -/
def database (states : ℕ → State) (t : ℕ) : Db := (states t).view.state.db

theorem exec_log_grows {base : Files.Path} {e : Env} {o : Op} {w w' : World} {r : Res o}
    (h : exec base e o w = some (r, w')) (j : Uuid) : w.db.eventsOf j <+: w'.db.eventsOf j := by
  cases o with
  | db o =>
    rcases exec_db_cases h with ⟨db, hrun, rfl⟩ | ⟨-, rfl⟩
    · exact DbOp.run_log_grows hrun j
    · exact List.prefix_rfl
  | fs o =>
    obtain ⟨fs, -, rfl⟩ := exec_fs h
    exact List.prefix_rfl
  | sys o =>
    rw [SysOp.exec_db h]

section Runs

variable {parts : Parts} {states : ℕ → State} {j : Uuid}

theorem Runs.between (h : Runs parts states) {t t' : ℕ} (ht : t ≤ t') :
    (platform parts).Reach (states t) (states t') := by
  induction t', ht using Nat.le_induction with
  | base => exact .refl
  | succ t' _ ih =>
    rcases h.2 t' with hsame | hstep
    · rw [hsame]
      exact ih
    · exact ih.tail hstep

theorem Runs.reach (h : Runs parts states) (t : ℕ) :
    (platform parts).Reach (start parts) (states t) := by
  have := h.between (Nat.zero_le t)
  rwa [h.1] at this

/-- The platform only ever adds to the end of a log. -/
theorem Runs.grows (h : Runs parts states) (j : Uuid) :
    Grows fun t => (database states t).eventsOf j := by
  intro t
  show (states t).view.state.db.eventsOf j <+: (states (t + 1)).view.state.db.eventsOf j
  rcases h.2 t with hsame | hstep
  · rw [hsame]
  · generalize states (t + 1) = m' at hstep ⊢
    cases hstep with
    | invoke c _ => exact List.prefix_rfl
    | perform i c o k e r s _ he => exact exec_log_grows he j

/-- Every reachable state lies on a run. -/
theorem exists_runs {m : State} (h : (platform parts).Reach (start parts) m) :
    ∃ states t, Runs parts states ∧ states t = m := by
  induction h with
  | refl => exact ⟨fun _ => start parts, 0, ⟨rfl, fun _ => .inl rfl⟩, rfl⟩
  | @tail m m' _ hstep ih =>
    obtain ⟨states, t, ⟨hzero, hsteps⟩, rfl⟩ := ih
    have early : ∀ u, u ≤ t → (if u ≤ t then states u else m') = states u :=
      fun u hu => if_pos hu
    have late : ∀ u, t < u → (if u ≤ t then states u else m') = m' :=
      fun u hu => if_neg (by omega)
    refine ⟨fun u => if u ≤ t then states u else m', t + 1,
      ⟨(early 0 (Nat.zero_le t)).trans hzero, fun u => ?_⟩, late _ (by omega)⟩
    dsimp only
    rcases Nat.lt_trichotomy u t with hlt | rfl | hgt
    · rw [early u (by omega), early (u + 1) (by omega)]
      exact hsteps u
    · rw [early u (Nat.le_refl u), late (u + 1) (by omega)]
      exact .inr hstep
    · rw [late u hgt, late (u + 1) (by omega)]
      exact .inl rfl

/-- The step from `t` to `t + 1` gives job `j` the status `s`. -/
def Sets (states : ℕ → State) (j : Uuid) (s : Status) (t : ℕ) : Prop :=
  (states t).status j ≠ some s ∧ (states (t + 1)).status j = some s

theorem exists_sets {s : Status} {t : ℕ} (hzero : (states 0).status j ≠ some s)
    (ht : (states t).status j = some s) : ∃ u < t, Sets states j s u := by
  induction t with
  | zero => exact absurd ht hzero
  | succ t ih =>
    by_cases h : (states t).status j = some s
    · obtain ⟨u, hu, hsets⟩ := ih h
      exact ⟨u, by omega, hsets⟩
    · exact ⟨t, by omega, h, ht⟩

end Runs

/-! ### The end of a stream -/

/-- **`STREAM_END` comes last.**  A stream on job `j`, started at any time with
any cursor `c`, sends `STREAM_END` only with the final status of the job, and
only after every event beyond `c` that was there when the job got that status. -/
theorem stream_end_drains (parts : Parts) (j : Uuid) (cfg : StreamConfig) (c : ℕ)
    {states : ℕ → State} (hruns : Runs parts states) {t₀ t : ℕ} {g : Generator}
    (hrun : Observes (Generator.react cfg) (database states) (t₀, .stream j c) (t, g))
    {s : Status} (hend : streamEnd j s ∈ g.sent) :
    s.terminal ∧ (states t).status j = some s ∧ (∃ u < t, Sets states j s u) ∧
      ∀ u, Sets states j s u → ∀ ev ∈ (database states (u + 1)).eventsOf j, c < ev.id →
        Frame.event (.ofRow ev) ∈ g.sent := by
  have hlog := grows_logAt (hruns.grows j)
  have hfollows := Generator.follows_run hlog hrun
  obtain ⟨hterm, v, hv, hstatus, hdrained⟩ := hfollows.ended s (by rwa [hfollows.job])
  rw [hfollows.job] at hstatus
  have hat : (states v).status j = some s := hstatus
  have hnone : (states 0).status j ≠ some s := by
    rw [hruns.1]
    exact fun h => absurd h (by simp [State.status, start, System.initial, World.initial,
      Db.empty, Db.status])
  obtain ⟨u₀, hu₀, hsets₀⟩ := exists_sets hnone hat
  refine ⟨hterm, terminal_final hterm (hruns.reach v) (hruns.between hv) hat,
    ⟨u₀, by omega, hsets₀⟩, fun u hsets ev hev hc => ?_⟩
  -- the status was read after it had been set
  have huv : u + 1 ≤ v := by
    by_contra hcon
    exact hsets.1 (terminal_final hterm (hruns.reach v) (hruns.between (by omega)) hat)
  have hmem : EventRecord.ofRow ev ∈ g.backlog (database states) v := by
    rw [Generator.backlog, hfollows.job, hfollows.start]
    refine List.mem_filter.mpr ⟨(hlog.mono huv).subset ?_, decide_eq_true hc⟩
    exact List.mem_map_of_mem hev
  obtain ⟨frame, hframe, hrecord⟩ := List.mem_filterMap.mp (hdrained.subset hmem)
  cases frame with
  | event record =>
    rw [← Option.some.inj hrecord]
    exact hframe
  | control name k data => exact absurd hrecord (by simp [Frame.record?])

set_option maxRecDepth 100000 in
/-- A completed job, and a stream that shows its five events. -/
theorem stream_end_drains_sample :
    ∃ (states : ℕ → State) (t : ℕ) (g : Generator), Runs (Sample.parts Sample.plan) states ∧
      Observes (Generator.react .default) (database states) (t, .stream Sample.job 0) (t, g) ∧
      streamEnd Sample.job .completed ∈ g.sent ∧ g.received.length = 5 ∧
      ∀ u, Sets states Sample.job .completed u →
        ∀ ev ∈ (database states (u + 1)).eventsOf Sample.job, 0 < ev.id →
          Frame.event (.ofRow ev) ∈ g.sent := by
  obtain ⟨m, hm, hgood⟩ := Sample.reached (Sample.parts Sample.plan) (Sample.running 15)
    (fun m => (observe (Generator.react .default) (fun _ => m.view.state.db)
      (List.replicate 15 (0, ⟨0, none⟩)) (0, .stream Sample.job 0)).any fun b =>
        streamEnd Sample.job .completed ∈ b.2.sent ∧ b.2.received.length = 5) (by decide +kernel)
  obtain ⟨states, t, hruns, rfl⟩ := exists_runs hm
  obtain ⟨⟨t', g⟩, hg, hend⟩ := (Option.any_eq_true _ _).mp hgood
  obtain ⟨hend, hlength⟩ := of_decide_eq_true hend
  have hrun : Observes (Generator.react .default) (database states) (t, .stream Sample.job 0)
      (t, g) := (observes_of_observe hg).stay rfl
  exact ⟨states, t, g, hruns, hrun, hend, hlength,
    (stream_end_drains _ _ _ _ hruns hrun hend).2.2.2⟩

end CliExecutionPlatform
