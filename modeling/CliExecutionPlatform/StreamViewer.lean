/-
What a client of the event stream sees, from the text of the responses.

The client reads text, which may break off at any character.  It interprets what it has got
by the grammar of event streams, keeps the number of the last event, and sends it as
`Last-Event-ID` with its next request.  On the other side is the running platform.

* `Generator.Framed` — a connection sends events, and at most one control frame, as the last
  one; `Generator.Framed.step`;
* `shown_of_prefix`, `interpret_cut_frames` — a text that breaks off shows the first frames;
* `Viewing` — a client and the messages that it has seen, over any number of connections;
* **`viewer_sees_log`** — it sees the log of the job from the beginning, without a gap or a
  repetition, and all of it before `STREAM_END`.
-/
import CliExecutionPlatform.Encoder
import CliExecutionPlatform.StreamSlots

open AppendLog EventSource JsonText Process

namespace CliExecutionPlatform

/-! ### The frames of a connection -/

theorem Frame.Closing.not_event {j : Uuid} {e : EventRecord} : ¬ (Frame.event e).Closing j := by
  rintro (h | ⟨code, h⟩ | ⟨s, h⟩)
  · exact absurd h (by simp [streamReconnect])
  · exact absurd h (by simp [streamError])
  · exact absurd h (by simp [streamEnd])

namespace Generator

/-- The events that have been sent, and after them nothing or one closing frame. -/
def Framed (g : Generator) : Prop :=
  ∃ records : List EventRecord, g.sent = records.map .event ∨
    ∃ f, f.Closing g.job ∧ g.sent = records.map .event ++ [f] ∧
      (g.point = .last ∨ g.point = .closed)

/-- What a step sends. -/
theorem step_sent {cfg : StreamConfig} {db : Db} {m : Moment} {g : Generator}
    {r : Generator × Bool} (h : g.step cfg db m = some r) :
    r.1.job = g.job ∧ g.point ≠ .closed ∧
      ((r.1.sent = g.sent ∧ (g.point = .last → r.1.point = .closed)) ∨
        (g.point ≠ .last ∧ ∃ f, r.1.sent = g.sent ++ [f] ∧
          ((∃ e, f = .event e) ∨ f.Closing g.job ∧ r.1.point = .last))) := by
  cases transition_of_step h with
  | retry attempt delay hp hleft =>
    rcases hp with hp | ⟨s, hp⟩
    all_goals
      rw [hp]
      exact ⟨rfl, nofun, .inl ⟨rfl, nofun⟩⟩
  | event s size e rest hp =>
    rw [hp]
    exact ⟨rfl, nofun, .inr ⟨nofun, _, rfl, .inl ⟨e, rfl⟩⟩⟩
  | finish f hp hf =>
    have hpoint : g.point ≠ .closed ∧ g.point ≠ .last := by
      constructor
      all_goals
        intro heq
        rw [heq] at hp
        exact hp
    exact ⟨rfl, hpoint.1, .inr ⟨hpoint.2, f, rfl, .inr ⟨hf, rfl⟩⟩⟩
  | close hp => exact ⟨rfl, (step_released h).1.1, .inl ⟨rfl, fun _ => rfl⟩⟩
  | start hp | discard hp | poll hp | status _ _ hp | events _ _ hp | again _ _ hp
  | resume _ _ _ _ hp | full _ _ hp | sleep _ _ _ hp | wake _ hp =>
    rw [hp]
    exact ⟨rfl, nofun, .inl ⟨rfl, nofun⟩⟩

theorem Framed.step {cfg : StreamConfig} {db : Db} {m : Moment} {g : Generator}
    {r : Generator × Bool} (hg : g.Framed) (h : g.step cfg db m = some r) : r.1.Framed := by
  obtain ⟨hjob, hopen, hsent⟩ := step_sent h
  obtain ⟨records, hevents | ⟨f, hclosing, hall, hpoint⟩⟩ := hg
  · rcases hsent with ⟨hsame, -⟩ | ⟨-, f, hf, ⟨e, rfl⟩ | ⟨hclosing, hlast⟩⟩
    · exact ⟨records, .inl (hsame.trans hevents)⟩
    · refine ⟨records ++ [e], .inl ?_⟩
      rw [hf, hevents, List.map_append, List.map_singleton]
    · refine ⟨records, .inr ⟨f, ?_, ?_, .inl hlast⟩⟩
      · rw [hjob]
        exact hclosing
      · rw [hf, hevents]
  · -- after the closing frame only the end can come
    have hlast : g.point = .last := hpoint.resolve_right hopen
    rcases hsent with ⟨hsame, hclosed⟩ | ⟨hnot, -⟩
    · refine ⟨records, .inr ⟨f, ?_, hsame.trans hall, .inr (hclosed hlast)⟩⟩
      rw [hjob]
      exact hclosing
    · exact absurd hlast hnot

/-- Whoever has read a closing frame has read everything. -/
theorem Framed.eq_of_mem {g : Generator} (hg : g.Framed) {frames : List Frame} {f : Frame}
    (hread : frames <+: g.sent) (hf : f ∈ frames) (hclosing : f.Closing g.job) :
    frames = g.sent := by
  obtain ⟨rest, hrest⟩ := hread
  obtain ⟨records, hevents | ⟨f', -, hall, -⟩⟩ := hg
  · have hmem : f ∈ records.map Frame.event := by
      rw [← hevents, ← hrest]
      exact List.mem_append_left _ hf
    obtain ⟨e, -, rfl⟩ := List.mem_map.mp hmem
    exact absurd hclosing Frame.Closing.not_event
  · rcases List.eq_nil_or_concat' rest with rfl | ⟨rest, x, rfl⟩
    · rw [← hrest, List.append_nil]
    · rw [hall, ← List.append_assoc] at hrest
      obtain ⟨hinit, -⟩ := List.append_inj' hrest rfl
      have hmem : f ∈ records.map Frame.event := by
        rw [← hinit]
        exact List.mem_append_left _ hf
      obtain ⟨e, -, rfl⟩ := List.mem_map.mp hmem
      exact absurd hclosing Frame.Closing.not_event

end Generator

/-- The generator of a connection, if it has one, is framed. -/
def Connection.Framed (c : Connection) : Prop :=
  match c.phase with
  | .streaming g => g.Framed
  | _ => True

theorem Connection.react_streaming {cfg : StreamConfig} {tokens : StreamTokenService} {db : Db}
    {m : Moment × ConnectionRegistry} {c c' : Connection} {g' : Generator}
    (h : c.react cfg tokens db m = some c') (hp : c'.phase = .streaming g') :
    (∃ j cursor, g' = .stream j cursor) ∨
      ∃ g r, c.phase = .streaming g ∧ g.step cfg db m.1 = some r ∧ r.1 = g' := by
  obtain ⟨⟨c₁, registry⟩, hstep, rfl⟩ := Option.map_eq_some_iff.mp h
  cases hphase : c.phase with
  | streaming g =>
    simp only [Connection.step, hphase] at hstep
    obtain ⟨⟨g₁, released⟩, hg, heq⟩ := Option.map_eq_some_iff.mp hstep
    refine .inr ⟨g, _, rfl, hg, ?_⟩
    cases released with
    | false =>
      rw [← (Prod.mk.inj heq).1] at hp
      exact Phase.streaming.inj hp
    | true =>
      rw [← (Prod.mk.inj heq).1] at hp
      exact Phase.streaming.inj hp
  | _ => grind [Connection.step, Connection.check, Connection.queryFails, Connection.refuse,
      Connection.goes]

theorem Connection.Framed.react {cfg : StreamConfig} {tokens : StreamTokenService} {db : Db}
    {m : Moment × ConnectionRegistry} {c c' : Connection} (hc : c.Framed)
    (h : c.react cfg tokens db m = some c') : c'.Framed := by
  unfold Connection.Framed
  split
  · rename_i g' hp
    rcases react_streaming h hp with ⟨j, cursor, rfl⟩ | ⟨g, r, hg, hstep, rfl⟩
    · exact ⟨[], .inl rfl⟩
    · rw [Connection.Framed, hg] at hc
      exact Generator.Framed.step hc hstep
  · trivial

/-! ### What frames show -/

section Shown

variable (isoformat : ℕ → String)

/-- A message as it is shown: its number, its name and its payload. -/
def messageView (m : Message) : List Char × List Char × Option Value :=
  (m.lastEventId, m.event, loads m.data)

/-- The number that a client knows after some frames. -/
def idAfterAll (last : List Char) (frames : List Frame) : List Char :=
  frames.foldl Frame.idAfter last

theorem shown_append (last : List Char) (frames rest : List Frame) :
    shown isoformat last (frames ++ rest) =
      shown isoformat last frames ++ shown isoformat (idAfterAll last frames) rest := by
  induction frames generalizing last with
  | nil => rfl
  | cons frame frames ih =>
    rw [List.cons_append, shown, ih, shown, List.cons_append]
    rfl

/-- The first messages are those of the first frames. -/
theorem shown_of_prefix {last : List Char} {frames : List Frame}
    {seen : List (List Char × List Char × Option Value)}
    (h : seen <+: shown isoformat last frames) :
    ∃ read, read <+: frames ∧ seen = shown isoformat last read := by
  induction frames generalizing last seen with
  | nil => exact ⟨[], List.nil_prefix, List.prefix_nil.mp h⟩
  | cons frame frames ih =>
    cases seen with
    | nil => exact ⟨[], List.nil_prefix, rfl⟩
    | cons m seen =>
      rw [shown, List.cons_prefix_cons] at h
      obtain ⟨rfl, hrest⟩ := h
      obtain ⟨read, hread, rfl⟩ := ih hrest
      exact ⟨frame :: read, (List.prefix_cons_inj _).mpr hread, rfl⟩

/-- The number is that of the last event. -/
theorem idAfterAll_eq (last : List Char) (frames : List Frame) :
    idAfterAll last frames =
      ((eventFrames frames).getLast?.map fun e => e.eventId.repr.toList).getD last := by
  induction frames using List.reverseRecOn with
  | nil => rfl
  | append_singleton frames frame ih =>
    rw [idAfterAll, List.foldl_concat]
    cases frame with
    | event record =>
      rw [eventFrames_concat, List.getLast?_concat]
      rfl
    | control name j data =>
      rw [eventFrames_control]
      exact ih

/-- The number of the last message. -/
def lastId (seen : List Message) : List Char := (seen.getLast?.map Message.lastEventId).getD []

theorem getLast?_shown (last : List Char) (frames : List Frame) :
    ((shown isoformat last frames).getLast?.map Prod.fst).getD last = idAfterAll last frames := by
  induction frames generalizing last with
  | nil => rfl
  | cons frame frames ih =>
    show _ = idAfterAll (frame.idAfter last) frames
    rw [shown, List.getLast?_cons, ← ih]
    cases (shown isoformat (frame.idAfter last) frames).getLast? <;> rfl

theorem lastId_eq {seen : List Message} {frames : List Frame}
    (h : seen.map messageView = shown isoformat [] frames) :
    lastId seen = idAfterAll [] frames := by
  rw [← getLast?_shown isoformat [] frames, ← h, List.getLast?_map, lastId, Option.map_map]
  rfl

/-- A text that breaks off shows the first frames. -/
theorem interpret_cut_frames (last : List Char) {frames : List Frame} {text : List Char}
    (hnames : ∀ f ∈ frames, safeEventName f.eventName ≠ [])
    (h : text <+: frames.flatMap (Frame.encode isoformat)) :
    ∃ read, read <+: frames ∧
      (interpret ⟨last, [], []⟩ (lines [] text)).map messageView = shown isoformat last read := by
  have hwhole := interpret_frames isoformat frames last hnames
  refine shown_of_prefix isoformat ?_
  rw [← hwhole]
  exact (interpret_cut _ h).map _

end Shown

/-! ### Viewers -/

/-- The header of the next request. -/
def resumeHeader (seen : List Message) : Option String :=
  if lastId seen = [] then none else some (String.ofList (lastId seen))

/-- A client and the messages that it has seen at time `t`: it opens one connection after
the other, reads the text of the response up to any character, and sends the number of the
last message with the next request. -/
inductive Viewing (isoformat : ℕ → String) (tokens : StreamTokenService) (db : ℕ → Db) (j : Uuid) :
    ℕ → List Message → Prop
  | start (t : ℕ) : Viewing isoformat tokens db j t []
  | connect {t t' : ℕ} {seen : List Message} {cfg : StreamConfig} {streamToken : Option String}
      {c : Connection} {text : List Char}
      (before : Viewing isoformat tokens db j t seen)
      (run : Observes (Connection.react cfg tokens) db
        (t, .request j streamToken (resumeHeader seen)) (t', c))
      (read : text <+: c.sent.flatMap (Frame.encode isoformat)) :
      Viewing isoformat tokens db j t' (seen ++ interpret ⟨lastId seen, [], []⟩ (lines [] text))

theorem resumeHeader_eq {isoformat : ℕ → String} {seen : List Message} {frames : List Frame}
    (h : seen.map messageView = shown isoformat [] frames) :
    resumeHeader seen = lastEventId (eventFrames frames) := by
  rw [resumeHeader, lastId_eq isoformat h, idAfterAll_eq, lastEventId]
  rcases (eventFrames frames).getLast? with _ | e
  · rfl
  · have hne : e.eventId.repr.toList ≠ [] := by
      rw [Nat.toList_repr]
      exact Nat.toDigits_ne_nil
    show (if e.eventId.repr.toList = [] then none else some (String.ofList e.eventId.repr.toList)) =
      some e.eventId.repr
    rw [if_neg hne, String.ofList_toList]

theorem safeEventName_text (type : EventType) : safeEventName type.text ≠ [] := by
  cases type <;> decide

/-- Every frame that is sent has a name. -/
theorem name_of_sent (db : Db) (j : Uuid) {c : Connection} (hframed : c.Framed)
    (hlog : ∀ e ∈ eventFrames c.sent, e ∈ streamLog db j) :
    ∀ f ∈ c.sent, safeEventName f.eventName ≠ [] := by
  intro f hf
  cases f with
  | event record =>
    have hmem : record ∈ eventFrames c.sent := List.mem_filterMap.mpr ⟨_, hf, rfl⟩
    obtain ⟨row, -, rfl⟩ := List.mem_map.mp (hlog record hmem)
    exact safeEventName_text row.eventType
  | control name k data =>
    unfold Connection.sent at hf
    unfold Connection.Framed at hframed
    cases hp : c.phase with
    | streaming g =>
      rw [hp] at hf hframed
      obtain ⟨records, hevents | ⟨f, hclosing, hall, -⟩⟩ := hframed
      · have hf' : Frame.control name k data ∈ g.sent := hf
        rw [hevents] at hf'
        obtain ⟨e, -, he⟩ := List.mem_map.mp hf'
        exact absurd he (by simp)
      · have hf' : Frame.control name k data ∈ g.sent := hf
        rw [hall] at hf'
        rcases List.mem_append.mp hf' with hf' | hf'
        · obtain ⟨e, -, he⟩ := List.mem_map.mp hf'
          exact absurd he (by simp)
        · rw [List.mem_singleton.mp hf']
          rcases hclosing with rfl | ⟨code, rfl⟩ | ⟨s, rfl⟩
          · exact (by decide : safeEventName "STREAM_RECONNECT" ≠ [])
          · exact (by decide : safeEventName "STREAM_ERROR" ≠ [])
          · exact (by decide : safeEventName "STREAM_END" ≠ [])
    | _ =>
      rw [hp] at hf
      exact absurd hf List.not_mem_nil

/-! ### The platform -/

section Platform

variable {parts : Parts} {tokens : StreamTokenService} {isoformat : ℕ → String} {j : Uuid}
  {states : ℕ → State} {t : ℕ}

/-- The frames of a client that has seen the log. -/
structure Sees (states : ℕ → State) (j : Uuid) (t : ℕ) (frames : List Frame) : Prop where
  log : eventFrames frames <+: streamLog (database states t) j
  ended : ∀ s, streamEnd j s ∈ frames → s.terminal ∧ ∃ u ≤ t, (states u).status j = some s ∧
    streamLog (database states u) j <+: eventFrames frames

/-- What is known of a connection of a client that has received the first events of the
log. -/
theorem serves_of_run (hruns : Runs parts states) {received : List EventRecord} {t' : ℕ}
    {cfg : StreamConfig} {streamToken : Option String} {c : Connection}
    (hlog : received <+: streamLog (database states t) j)
    (hrun : Observes (Connection.react cfg tokens) (database states)
      (t, .request j streamToken (lastEventId received)) (t', c)) :
    t ≤ t' ∧ c.Framed ∧ c.Serves (database states) cfg.batchSize j (lastEventId received)
      (cursor EventRecord.eventId 0 received) t' := by
  have hgrows := grows_logAt (hruns.grows j)
  -- the cursor is the same whenever it is resolved
  have hcur : ∀ u, t ≤ u → resolveCursor (database states u) j
      (parseLastEventId (lastEventId received)) = cursor EventRecord.eventId 0 received :=
    fun u hu => resolveCursor_lastEventId (hlog.trans (hgrows.mono hu))
  exact hrun.invariant (I := fun u c => t ≤ u ∧ c.Framed ∧ c.Serves (database states)
      cfg.batchSize j (lastEventId received) (cursor EventRecord.eventId 0 received) u)
    (fun u u' c hu hc => ⟨hc.1.trans hu, hc.2.1, hc.2.2.later hgrows hu⟩)
    (fun u m c c' hc hstep => ⟨hc.1, hc.2.1.react hstep, hc.2.2.step hgrows (hcur u hc.1) hstep⟩)
    ⟨Nat.le_refl t, trivial, rfl, rfl, trivial⟩

/-- The log, cut behind what has been received. -/
theorem received_append_beyond {db : Db} {received : List EventRecord}
    (h : received <+: streamLog db j) :
    received ++ beyond EventRecord.eventId (cursor EventRecord.eventId 0 received)
      (streamLog db j) = streamLog db j := by
  rw [← beyond_zero_streamLog] at h
  have hall := append_beyond (ordered_streamLog db j) h
  rwa [beyond_zero_streamLog] at hall

/-- **What one more connection shows.** -/
theorem Sees.connect (hruns : Runs parts states) {frames read : List Frame} {t' : ℕ}
    {cfg : StreamConfig} {streamToken : Option String} {c : Connection}
    (hsees : Sees states j t frames)
    (hrun : Observes (Connection.react cfg tokens) (database states)
      (t, .request j streamToken (lastEventId (eventFrames frames))) (t', c))
    (hread : read <+: c.sent) : Sees states j t' (frames ++ read) := by
  obtain ⟨hle, hframed, hserves⟩ := serves_of_run hruns hsees.log hrun
  have hgrows := grows_logAt (hruns.grows j)
  have hbefore : eventFrames frames <+: streamLog (database states t') j :=
    hsees.log.trans (hgrows.mono hle)
  have happend : eventFrames (frames ++ read) = eventFrames frames ++ eventFrames read :=
    List.filterMap_append
  refine ⟨?_, fun s hs => ?_⟩
  · have hnew : eventFrames read <+: eventFrames c.sent := hread.filterMap _
    rw [happend, ← received_append_beyond hbefore]
    exact (List.prefix_append_right_inj _).mpr (hnew.trans hserves.sent)
  · rcases List.mem_append.mp hs with hs | hs
    · obtain ⟨hterm, u, hu, hstatus, hall⟩ := hsees.ended s hs
      refine ⟨hterm, u, hu.trans hle, hstatus, ?_⟩
      rw [happend]
      exact hall.trans (List.prefix_append _ _)
    · -- the client has read everything that this connection has sent
      have hphase := hserves.phase
      unfold Connection.sent at hread
      unfold Connection.Framed at hframed
      cases hp : c.phase with
      | streaming g =>
        rw [hp] at hread hframed hphase
        have hfollows : g.Follows (database states) cfg.batchSize j
          (cursor EventRecord.eventId 0 (eventFrames frames)) t' := hphase
        have hwhole : read = g.sent := by
          refine Generator.Framed.eq_of_mem hframed hread hs ?_
          rw [hfollows.job]
          exact .inr (.inr ⟨s, rfl⟩)
        subst hwhole
        obtain ⟨hterm, u, hu, hstatus, hdrained⟩ := hfollows.ended s (by rwa [hfollows.job])
        rw [hfollows.job] at hstatus
        refine ⟨hterm, u, hu, hstatus, ?_⟩
        rw [happend]
        rcases List.prefix_or_prefix_of_prefix (hgrows.mono hu) hbefore with hless | hmore
        · exact hless.trans (List.prefix_append _ _)
        · rw [Generator.backlog, hfollows.job, hfollows.start] at hdrained
          have hcut : eventFrames frames ++ beyond EventRecord.eventId _
              (streamLog (database states u) j) = _ := received_append_beyond hmore
          rw [← hcut]
          exact (List.prefix_append_right_inj _).mpr hdrained
      | _ =>
        rw [hp] at hread
        rw [List.prefix_nil.mp hread] at hs
        exact absurd hs List.not_mem_nil

/-- A client that reads text sees frames. -/
theorem sees_of_viewing (hruns : Runs parts states) {seen : List Message}
    (h : Viewing isoformat tokens (database states) j t seen) :
    ∃ frames, seen.map messageView = shown isoformat [] frames ∧ Sees states j t frames := by
  induction h with
  | start t => exact ⟨[], rfl, List.nil_prefix, fun _ hs => absurd hs List.not_mem_nil⟩
  | @connect t t' seen cfg streamToken c text _ run read ih =>
    obtain ⟨frames, hview, hsees⟩ := ih
    rw [resumeHeader_eq hview] at run
    obtain ⟨-, hframed, hserves⟩ := serves_of_run hruns hsees.log run
    have hnames := name_of_sent (database states t') j hframed
      fun e he => List.mem_of_mem_filter (hserves.sent.subset he)
    obtain ⟨more, hmore, hshown⟩ := interpret_cut_frames isoformat (lastId seen) hnames read
    refine ⟨frames ++ more, ?_, hsees.connect hruns run hmore⟩
    rw [List.map_append, shown_append, hview, hshown, lastId_eq isoformat hview]

end Platform

/-- **A client sees the log.**  On the running platform, whatever its calls do and however
they interleave, a client of the event stream reads responses that break off at any
character and resumes with the number of the last message.  The messages it has seen are
those of some frames whose events are a prefix of the log of the job: nothing is lost,
repeated or out of order.  If one of them is `STREAM_END`, then the job has ended with that
status, and the client has seen everything that was logged when it ended. -/
theorem viewer_sees_log (parts : Parts) (tokens : StreamTokenService) (isoformat : ℕ → String)
    (j : Uuid) {states : ℕ → State} (hruns : Runs parts states) {t : ℕ} {seen : List Message}
    (h : Viewing isoformat tokens (database states) j t seen) :
    ∃ frames, seen.map messageView = shown isoformat [] frames ∧
      eventFrames frames <+: streamLog (database states t) j ∧
      ∀ s, streamEnd j s ∈ frames → s.terminal ∧ (states t).status j = some s ∧
        ∀ u, Sets states j s u →
          streamLog (database states (u + 1)) j <+: eventFrames frames := by
  obtain ⟨frames, hview, hsees⟩ := sees_of_viewing hruns h
  refine ⟨frames, hview, hsees.log, fun s hs => ?_⟩
  obtain ⟨hterm, v, hv, hstatus, hall⟩ := hsees.ended s hs
  refine ⟨hterm, terminal_final hterm (hruns.reach v) (hruns.between hv) hstatus,
    fun u hsets => ?_⟩
  -- the status was read after it had been set
  have huv : u + 1 ≤ v := by
    by_contra hcon
    exact hsets.1 (terminal_final hterm (hruns.reach v) (hruns.between (by omega)) hstatus)
  exact ((grows_logAt (hruns.grows j)).mono huv).trans hall

namespace Sample

def viewerClock : ℕ → String := fun _ => "1970-01-01"

/-- A connection of the viewer, after `n` steps while nothing else happens. -/
def viewed (db : Db) (seen : List Message) (n : ℕ) : Option (ℕ × Connection) :=
  observe (Connection.react .default tokens) (fun _ => db)
    (List.replicate n (0, ⟨0, none⟩, oneSlot))
    (0, .request job (some "v1.token") (resumeHeader seen))

/-- What the viewer reads of it. -/
def viewedText (c : Connection) (length : ℕ) : List Char :=
  (c.sent.flatMap (Frame.encode viewerClock)).take length

theorem viewing_viewed (db : ℕ → Db) {t : ℕ} {seen : List Message}
    (h : Viewing viewerClock tokens db job t seen) {n : ℕ} {b : ℕ × Connection}
    (hb : viewed (db t) seen n = some b) (length : ℕ) :
    Viewing viewerClock tokens db job t
      (seen ++ interpret ⟨lastId seen, [], []⟩ (lines [] (viewedText b.2 length))) :=
  .connect h ((observes_of_observe hb).stay rfl) (List.take_prefix _ _)

end Sample

set_option maxRecDepth 100000 in
/-- The first response breaks off within the second event; the next one goes on with this
event and comes to the end of the stream. -/
theorem viewer_sees_log_resumed :
    ∃ (states : ℕ → State) (t : ℕ) (seen : List Message) (frames : List Frame),
      Runs (Sample.parts Sample.plan) states ∧
      Viewing Sample.viewerClock Sample.tokens (database states) Sample.job t seen ∧
      seen.length = 6 ∧ seen.map messageView = shown Sample.viewerClock [] frames ∧
      eventFrames frames <+: streamLog (database states t) Sample.job := by
  obtain ⟨m, hm, hgood⟩ := Sample.reached (Sample.parts Sample.plan) (Sample.running 15)
    (fun m => (Sample.viewed m.view.state.db [] 12).any fun b =>
      let seen := interpret ⟨[], [], []⟩ (lines [] (Sample.viewedText b.2 300))
      seen.length = 1 && (Sample.viewed m.view.state.db seen 17).any fun b' =>
        (seen ++ interpret ⟨lastId seen, [], []⟩ (lines [] (Sample.viewedText b'.2 2000))).length
          = 6) (by decide +kernel)
  obtain ⟨states, t, hruns, rfl⟩ := exists_runs hm
  obtain ⟨b, hb, hgood⟩ := (Option.any_eq_true _ _).mp hgood
  obtain ⟨-, hgood⟩ := (Bool.and_eq_true _ _).mp hgood
  obtain ⟨b', hb', hgood⟩ := (Option.any_eq_true _ _).mp hgood
  have hfirst := Sample.viewing_viewed (database states) (.start t) hb 300
  have hsecond := Sample.viewing_viewed _ hfirst hb' 2000
  obtain ⟨frames, hview, hlog, -⟩ := viewer_sees_log _ _ _ _ hruns hsecond
  exact ⟨states, t, _, frames, hruns, hsecond, of_decide_eq_true hgood, hview, hlog⟩

end CliExecutionPlatform
