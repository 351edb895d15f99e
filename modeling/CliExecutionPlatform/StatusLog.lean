/-
The status of a job and its event log agree.

A status is set together with its event in one transaction, and the events that
are logged on their own carry other codes (`Op.Checked`).  What an operation does
to the status and to the log of a job is therefore one of four things: it leaves
the status and logs nothing about it, it inserts the job, it starts it, or it ends
it with one closing event.

* `marks_message` — the code in brackets determines the kind of a system event;
* `exec_log` — the four things that an operation can do;
* `logAgrees` — the log of a job in every reachable state;
* **`status_log_agree`** — the events of a job tell whether it has been running,
  whether it has ended and whether it is completed.
-/
import CliExecutionPlatform.Lifecycle

open Files Process

namespace CliExecutionPlatform

/-! ### Codes in brackets -/

/-- The event is a system event with this code. -/
def EventRow.marks (ev : EventRow) (code : EventCode) : Bool :=
  decide (ev.eventType = .systemEvent) && startsWith ev.message ("[" ++ code.text ++ "]")

/-- The codes of the events that end a job. -/
def endCodes : List EventCode :=
  [.orchestrationCompleted, .orchestrationFailed, .orchestrationQueueTimeout, .staleJobRecovered]

/-- The event ends the job. -/
def EventRow.ends (ev : EventRow) : Bool := endCodes.any ev.marks

theorem EventCode.text_injective : Function.Injective EventCode.text := by
  intro c c' h
  cases c <;> cases c' <;> first | rfl | exact absurd h (by decide)

theorem EventCode.not_mem_text (c : EventCode) : ']' ∉ c.text.toList := by
  cases c <;> decide

/-- Two texts without closing bracket that are closed at the same place are the
same. -/
theorem closed_eq {t t' rest : List Char} (ht : ']' ∉ t) (ht' : ']' ∉ t') :
    t' ++ [']'] <+: t ++ ']' :: rest ↔ t' = t := by
  have hupto : ∀ (l : List Char) (u : List Char), ']' ∉ l →
      (l ++ ']' :: u).takeWhile (· ≠ ']') = l := by
    intro l u hl
    rw [List.takeWhile_append_of_pos, List.takeWhile_cons, if_neg (by simp), List.append_nil]
    intro c hc
    simpa using fun heq : c = ']' => hl (heq ▸ hc)
  constructor
  · rintro ⟨u, hu⟩
    rw [List.append_assoc] at hu
    rw [← hupto t' u ht', ← hupto t rest ht]
    exact congrArg (List.takeWhile (· ≠ ']')) hu
  · rintro rfl
    exact ⟨rest, by simp⟩

theorem startsWith_message (c c' : EventCode) (text : String) :
    startsWith (c.message text) ("[" ++ c'.text ++ "]") = decide (c' = c) := by
  have hclosed := @closed_eq c.text.toList c'.text.toList (' ' :: text.toList)
    c.not_mem_text c'.not_mem_text
  rw [startsWith, EventCode.message]
  refine decide_eq_decide.mpr ?_
  have hl : ("[" ++ c'.text ++ "]").toList = '[' :: (c'.text.toList ++ [']']) := by simp
  have hr : ("[" ++ c.text ++ "] " ++ text).toList =
      '[' :: (c.text.toList ++ ']' :: ' ' :: text.toList) := by simp
  rw [hl, hr, List.cons_prefix_cons, hclosed]
  constructor
  · exact fun h => EventCode.text_injective (String.toList_inj.mp h.2)
  · rintro rfl
    exact ⟨rfl, rfl⟩

theorem marks_message {ev : EventRow} {code : EventCode} {text : String}
    (htype : ev.eventType = .systemEvent) (hmsg : ev.message = code.message text)
    (code' : EventCode) : ev.marks code' = decide (code' = code) := by
  rw [EventRow.marks, hmsg, startsWith_message, htype]
  rfl

theorem marks_of_type {ev : EventRow} (h : ev.eventType ≠ .systemEvent) (code : EventCode) :
    ev.marks code = false := by
  rw [EventRow.marks, decide_eq_false h]
  rfl

theorem ends_message {ev : EventRow} {code : EventCode} {text : String}
    (htype : ev.eventType = .systemEvent) (hmsg : ev.message = code.message text) :
    ev.ends = decide (code ∈ endCodes) := by
  rw [EventRow.ends, Bool.eq_iff_iff, List.any_eq_true, decide_eq_true_iff]
  constructor
  · rintro ⟨c, hc, hmarks⟩
    rw [marks_message htype hmsg] at hmarks
    rwa [of_decide_eq_true hmarks] at hc
  · intro hc
    exact ⟨code, hc, by rw [marks_message htype hmsg]; exact decide_eq_true rfl⟩

/-! ### What an operation does to the log -/

/-- The event says nothing about the status. -/
def EventRow.silent (ev : EventRow) : Prop :=
  ev.marks .orchestrationStarted = false ∧ ev.ends = false ∧
    ev.marks .orchestrationCompleted = false

theorem silent_of_code {ev : EventRow} {code : EventCode} {text : String}
    (htype : ev.eventType = .systemEvent) (hmsg : ev.message = code.message text)
    (hcode : code ∉ EventCode.orchestrationStarted :: endCodes) : ev.silent := by
  rw [List.mem_cons, not_or] at hcode
  refine ⟨?_, ?_, ?_⟩
  · rw [marks_message htype hmsg]
    exact decide_eq_false fun h => hcode.1 h.symm
  · rw [ends_message htype hmsg]
    exact decide_eq_false hcode.2
  · rw [marks_message htype hmsg]
    refine decide_eq_false fun h => hcode.2 ?_
    rw [← h]
    exact List.mem_cons_self

theorem silent_of_type {ev : EventRow} (h : ev.eventType ≠ .systemEvent) : ev.silent := by
  refine ⟨marks_of_type h _, ?_, marks_of_type h _⟩
  rw [EventRow.ends, List.any_eq_false]
  intro c _
  rw [marks_of_type h]
  simp

/-- The change of a job's status by one operation, whether it was a start, and
the events that the operation has added to the job's log. -/
inductive LogStep : Option Status → Option Status → Bool → List EventRow → Prop
  | keep (s : Option Status) {rows : List EventRow} (h : ∀ ev ∈ rows, ev.silent) :
      LogStep s s false rows
  | insert : LogStep none (some .created) false []
  | start {ev : EventRow} (h : ev.marks .orchestrationStarted = true) (hends : ev.ends = false)
      (hcompleted : ev.marks .orchestrationCompleted = false) :
      LogStep (some .created) (some .running) true [ev]
  | finish {s s' : Status} (h : s.Next s') (hs : s'.terminal) {ev : EventRow}
      (hends : ev.ends = true) (hstarted : ev.marks .orchestrationStarted = false)
      (hcompleted : ev.marks .orchestrationCompleted = decide (s' = .completed)) :
      LogStep (some s) (some s') false [ev]

theorem LogStep.nothing (s : Option Status) : LogStep s s false [] := .keep s (by simp)

section Exec

variable {base : Path} {e : Env} {j : Uuid} {db db' : Db}

/-- The rows of one system event. -/
theorem stampEvents_one {now next : ℕ} {code : EventCode} {text : String} :
    ∃ ev : EventRow, stampEvents now j next [(.systemEvent, code.message text)] = [ev] ∧
      ev.eventType = .systemEvent ∧ ev.message = code.message text :=
  ⟨_, rfl, rfl, rfl⟩

theorem silent_stampEvents {now next : ℕ} {rows : List (EventType × String)}
    (h : ∀ row ∈ rows, row.1 = .systemEvent →
      ∃ code text, code ∉ EventCode.orchestrationStarted :: endCodes ∧
        row.2 = EventCode.message code text) :
    ∀ ev ∈ stampEvents now j next rows, ev.silent := by
  induction rows generalizing next with
  | nil => exact fun ev hev => absurd hev List.not_mem_nil
  | cons row rest ih =>
    intro ev hev
    rw [stampEvents, List.mem_cons] at hev
    rcases hev with rfl | hev
    · by_cases htype : row.1 = .systemEvent
      · obtain ⟨code, text, hcode, hmsg⟩ := h row List.mem_cons_self htype
        exact silent_of_code htype hmsg hcode
      · exact silent_of_type htype
    · exact ih (fun row' hrow' => h row' (List.mem_cons_of_mem _ hrow')) ev hev

/-- The event of a new status says which one it is. -/
theorem logStep_status {s target : Status} {code : EventCode} {ev : EventRow} {text : String}
    (hnext : (s = .created ∧ target = .running) ∨ (s.Next target ∧ target.terminal = true))
    (hcode : (target, code) ∈ (Status.failed, EventCode.staleJobRecovered) :: statusEvents)
    (htype : ev.eventType = .systemEvent) (hmsg : ev.message = code.message text) :
    LogStep (some s) (some target) (decide (target = .running)) [ev] := by
  have hmarks := marks_message htype hmsg
  -- The codes that go with an end, and the one for `COMPLETED` among them.
  have hends := ends_message htype hmsg
  rcases hnext with ⟨rfl, rfl⟩ | ⟨hnext, hterm⟩
  · obtain rfl : code = .orchestrationStarted := by
      revert hcode
      cases code <;> decide
    exact .start (hmarks _) hends (hmarks _)
  · have hend : code ∈ endCodes ∧ code ≠ .orchestrationStarted ∧ target ≠ .running ∧
        (EventCode.orchestrationCompleted = code ↔ target = .completed) := by
      revert hcode hterm
      cases target <;> cases code <;> decide
    obtain ⟨hmem, hne, hrun, hiff⟩ := hend
    rw [decide_eq_false hrun]
    refine .finish hnext hterm ?_ ?_ ?_
    · rw [hends]
      exact decide_eq_true hmem
    · rw [hmarks]
      exact decide_eq_false fun h => hne h.symm
    · rw [hmarks]
      exact decide_eq_decide.mpr hiff

theorem transition_log {expected : List Status} {target : Status} {code : EventCode}
    {message : String} {now skip : ℕ} {fresh : Uuid} {r : Except Exn Bool}
    (hedge : (expected, target) ∈ statusEdges) (hcode : (target, code) ∈ statusEvents)
    (h : (DbOp.transition j expected target code message).run now skip fresh db = some (r, db')) :
    ∃ rows, db'.eventsOf j = db.eventsOf j ++ rows ∧
      LogStep (db.status j) (db'.status j)
        (starts j (.db (.transition j expected target code message)) r) rows := by
  rcases DbOp.run_transition h with ⟨row, hrow, hin, rfl, rfl⟩ | ⟨-, rfl, rfl⟩
  · obtain ⟨ev, hev, htype, hmsg⟩ := @stampEvents_one j now (db.nextEventId + skip) code message
    refine ⟨[ev], ?_, ?_⟩
    · rw [Db.eventsOf_log, Db.eventsOf_updateJob]
      exact congrArg _ hev
    · rw [status_log, status_setStatus hrow, status_eq hrow]
      have hstarts : starts j (.db (.transition j expected target code message)) (.ok true) =
          decide (target = .running) := by
        cases target <;> simp [starts]
      rw [hstarts]
      exact logStep_status (next_of_edge hedge hin) (List.mem_cons_of_mem _ hcode) htype hmsg
  · refine ⟨[], (List.append_nil _).symm, ?_⟩
    cases target <;> exact .nothing _

/-- What a transaction can do to the status and to the log of a job. -/
theorem DbOp.exec_log {o : DbOp} {r : Except Exn o.Val} (hlaw : (Op.db o).Lawful)
    (hchecked : (Op.db o).Checked) (h : o.exec e db = some (r, db')) :
    ∃ rows, db'.eventsOf j = db.eventsOf j ++ rows ∧
      LogStep (db.status j) (db'.status j) (starts j (.db o) r) rows := by
  -- an operation that keeps the rows of the job
  have same : ∀ {db₁ : Db}, db₁.eventsOf j = db.eventsOf j → db₁.status j = db.status j →
      ∃ rows, db₁.eventsOf j = db.eventsOf j ++ rows ∧
        LogStep (db.status j) (db₁.status j) false rows := by
    intro db₁ hevents hstatus
    rw [hevents, hstatus]
    exact ⟨[], (List.append_nil _).symm, .nothing _⟩
  by_cases haff : o.affects r = some j
  · rcases DbOp.exec_cases h with h | ⟨⟨name, detail, rfl⟩, rfl⟩
    · cases o with
      | transition k expected target code message =>
        obtain rfl : k = j := Option.some.inj haff
        exact transition_log hlaw hchecked h
      | recoverOne k cutoff =>
        obtain rfl : k = j := Option.some.inj haff
        rcases run_recoverOne h with ⟨row, hrow, hs, -, -, rfl⟩ | ⟨-, -, rfl⟩
        · obtain ⟨ev, hev, htype, hmsg⟩ := @stampEvents_one k e.now (db.nextEventId + e.skip)
            .staleJobRecovered staleMessage
          refine ⟨[ev], ?_, ?_⟩
          · rw [Db.eventsOf_log, Db.eventsOf_updateJob]
            exact congrArg _ hev
          · rw [status_log, status_setStatus hrow, status_eq hrow, hs]
            exact logStep_status (.inr ⟨trivial, rfl⟩) List.mem_cons_self htype hmsg
        · exact same rfl rfl
      | insertJob prompt parent =>
        obtain ⟨hnone, rfl, rfl⟩ := run_insertJob h
        obtain rfl : e.fresh = j := Option.some.inj haff
        refine ⟨[], (List.append_nil _).symm, ?_⟩
        rw [Db.status, hnone, Db.status, Db.job_insert, if_pos rfl]
        exact .insert
      | appendEvent k code message =>
        obtain rfl : k = j := Option.some.inj haff
        rcases run_appendEvent h with ⟨-, rfl⟩ | ⟨-, rfl⟩
        · refine ⟨_, Db.eventsOf_log .., .keep _ (silent_stampEvents ?_)⟩
          intro row hrow _
          rw [List.mem_singleton.mp hrow]
          refine ⟨code, message, ?_, rfl⟩
          have hcode : code ∈ progressEvents := hchecked
          revert hcode
          cases code <;> decide
        · exact same rfl rfl
      | logEvents k rows =>
        obtain rfl : k = j := Option.some.inj haff
        rcases run_logEvents h with ⟨-, rfl⟩ | ⟨-, rfl⟩
        · refine ⟨_, Db.eventsOf_log .., .keep _ (silent_stampEvents ?_)⟩
          intro row hrow htype
          obtain ⟨text, htext⟩ := hchecked row hrow htype
          exact ⟨.timeout, text, by decide, htext⟩
        · exact same rfl rfl
      | saveActionPlan k actions =>
        obtain rfl : k = j := Option.some.inj haff
        rcases run_saveActionPlan h with ⟨row, hrow, -, -, rfl⟩ | ⟨-, -, rfl⟩
        · refine same rfl ?_
          rw [status_eq hrow, Db.status, Db.job_updateJob, if_pos rfl, hrow]
          rfl
        · exact same rfl rfl
      | commitArtifacts k drafts =>
        rcases run_commitArtifacts h with ⟨-, hjob, hevents, -⟩ | ⟨-, rfl⟩
        · refine same ?_ ?_
          · rw [Db.eventsOf, Db.eventsOf, hevents]
          · rw [Db.status, Db.status, hjob]
        · exact same rfl rfl
      | getJob k => exact absurd haff (by simp [DbOp.affects])
      | scanStale cutoff => exact absurd haff (by simp [DbOp.affects])
      | flushArtifact k rel name type => exact absurd haff (by simp [DbOp.affects])
      | rollbackSession k => exact absurd haff (by simp [DbOp.affects])
    · -- a transaction that fails is rolled back
      rw [starts_error]
      exact same rfl rfl
  · obtain ⟨hjob, -, hevents⟩ := DbOp.exec_frame h haff
    rw [starts_eq_false (o := .db o) haff]
    refine same hevents ?_
    rw [Db.status, Db.status, hjob]

/-- **What one operation can do to the status and to the log of a job.** -/
theorem exec_log {o : Op} {w w' : World} {r : Res o} (hlaw : o.Lawful) (hchecked : o.Checked)
    (h : exec base e o w = some (r, w')) :
    ∃ rows, w'.db.eventsOf j = w.db.eventsOf j ++ rows ∧
      LogStep (w.db.status j) (w'.db.status j) (starts j o r) rows := by
  cases o with
  | db o =>
    obtain ⟨db, hrun, rfl⟩ := exec_db h
    exact DbOp.exec_log hlaw hchecked hrun
  | fs o =>
    obtain ⟨fs, -, rfl⟩ := exec_fs h
    exact ⟨[], (List.append_nil _).symm, .nothing _⟩
  | sys o =>
    rw [SysOp.exec_db h]
    exact ⟨[], (List.append_nil _).symm, .nothing _⟩

end Exec

/-! ### Runs -/

section Runs

variable {parts : Parts} {j : Uuid}

/-- The event log of job `j`. -/
def State.events (j : Uuid) (m : State) : List EventRow := m.view.state.db.eventsOf j

/-- What one step of the platform adds to the log of a job. -/
theorem step_log {m m' : State} (hm : (platform parts).Reach (start parts) m)
    (h : (platform parts).Step m m') :
    ∃ b rows, State.events j m' = State.events j m ++ rows ∧
      LogStep (State.status j m) (State.status j m') b rows ∧
      startCount j m'.view.history = startCount j m.view.history + if b then 1 else 0 := by
  cases h with
  | invoke c _ => exact ⟨false, [], (List.append_nil _).symm, .nothing _, rfl⟩
  | perform t c o k e r s ht he =>
    have hcalls := (System.Reach.calls (body_within parts) hm ht).head
    obtain ⟨rows, hevents, hstep⟩ :=
      @exec_log parts.base e j o _ _ r (Call.lawful hcalls.1) hcalls.2 he
    exact ⟨starts j o r, rows, hevents, hstep, List.countP_cons⟩

/-- The log of a job in a state: one opening event for each start, one closing
event if the job has ended, and the opening event comes first. -/
structure LogAgrees (j : Uuid) (m : State) : Prop where
  started : (State.events j m).countP (EventRow.marks · .orchestrationStarted) =
    startCount j m.view.history
  ended : (State.events j m).countP EventRow.ends =
    if (State.status j m).any Status.terminal then 1 else 0
  completed : (State.events j m).countP (EventRow.marks · .orchestrationCompleted) =
    if State.status j m = some .completed then 1 else 0
  order : ∀ a ∈ State.events j m, ∀ b ∈ State.events j m,
    a.marks .orchestrationStarted = true → b.ends = true → a.id < b.id

theorem events_sorted (j : Uuid) (m : State) :
    (State.events j m).Pairwise fun a b => a.id < b.id :=
  m.view.state.db.sorted.sublist List.filter_sublist

theorem countP_silent {p : EventRow → Bool} {rows : List EventRow}
    (h : ∀ ev ∈ rows, p ev = false) : rows.countP p = 0 := by
  rw [List.countP_eq_zero]
  intro ev hev
  rw [h ev hev]
  simp

/-- New events that do not open or close the job keep the order. -/
theorem order_append {evs rows : List EventRow}
    (horder : ∀ a ∈ evs, ∀ b ∈ evs,
      a.marks .orchestrationStarted = true → b.ends = true → a.id < b.id)
    (hsorted : (evs ++ rows).Pairwise fun a b => a.id < b.id)
    (hstarted : ∀ a ∈ rows, a.marks .orchestrationStarted = false) :
    ∀ a ∈ evs ++ rows, ∀ b ∈ evs ++ rows,
      a.marks .orchestrationStarted = true → b.ends = true → a.id < b.id := by
  intro a ha b hb hsa heb
  rcases List.mem_append.mp ha with ha | ha
  · rcases List.mem_append.mp hb with hb | hb
    · exact horder a ha b hb hsa heb
    · exact (List.pairwise_append.mp hsorted).2.2 a ha b hb
  · rw [hstarted a ha] at hsa
    exact absurd hsa (by simp)

theorem LogAgrees.step {m m' : State} (hm : (platform parts).Reach (start parts) m)
    (h : (platform parts).Step m m') (hagree : LogAgrees j m) : LogAgrees j m' := by
  obtain ⟨b, rows, hevents, hlog, hcount⟩ := @step_log parts j m m' hm h
  obtain ⟨hstarted, hended, hcompleted, horder⟩ := hagree
  have hsorted := events_sorted j m'
  rw [hevents] at hsorted
  generalize hs : State.status j m = s at hlog hended hcompleted
  generalize hs' : State.status j m' = s' at hlog
  cases hlog with
  | keep _ hsilent =>
    refine ⟨?_, ?_, ?_, ?_⟩
    · rw [hevents, List.countP_append, countP_silent fun ev hev => (hsilent ev hev).1, hcount]
      exact hstarted
    · rw [hevents, hs', List.countP_append, countP_silent fun ev hev => (hsilent ev hev).2.1]
      exact hended
    · rw [hevents, hs', List.countP_append, countP_silent fun ev hev => (hsilent ev hev).2.2]
      exact hcompleted
    · rw [hevents]
      exact order_append horder hsorted fun a ha => (hsilent a ha).1
  | insert =>
    rw [List.append_nil] at hevents
    refine ⟨?_, ?_, ?_, ?_⟩
    · rw [hevents, hcount]
      exact hstarted
    · rw [hevents, hs']
      exact hended
    · rw [hevents, hs']
      exact hcompleted
    · rw [hevents]
      exact horder
  | @start ev hmarks hends hdone =>
    refine ⟨?_, ?_, ?_, ?_⟩
    · rw [hevents, List.countP_append, List.countP_singleton, if_pos hmarks, hcount, if_pos rfl,
        hstarted]
    · rw [hevents, hs', List.countP_append, List.countP_singleton, if_neg (by simp [hends]),
        hended]
      rfl
    · rw [hevents, hs', List.countP_append, List.countP_singleton, if_neg (by simp [hdone]),
        hcompleted]
      rfl
    · -- a job that is only created has no closing event
      intro a _ b hb _ heb
      rw [hevents] at hb
      rcases List.mem_append.mp hb with hb | hb
      · exact absurd heb (List.countP_eq_zero.mp hended b hb)
      · rw [List.mem_singleton.mp hb, hends] at heb
        exact absurd heb (by simp)
  | @finish s s' hnext hterm ev hends hopen hdone =>
    have hbefore : s.terminal = false ∧ s ≠ .completed := by
      cases s with
      | created => exact ⟨rfl, by simp⟩
      | running => exact ⟨rfl, by simp⟩
      | completed => exact absurd hnext id
      | failed => exact absurd hnext id
    refine ⟨?_, ?_, ?_, ?_⟩
    · rw [hevents, List.countP_append, List.countP_singleton, if_neg (by simp [hopen]), hcount]
      exact hstarted
    · rw [hevents, hs', List.countP_append, List.countP_singleton, if_pos hends, hended]
      simp [hbefore.1, hterm]
    · rw [hevents, hs', List.countP_append, List.countP_singleton, hcompleted, hdone]
      simp [hbefore.2]
    · rw [hevents]
      refine order_append horder hsorted fun a ha => ?_
      rw [List.mem_singleton.mp ha, hopen]

theorem logAgrees {m : State} (hm : (platform parts).Reach (start parts) m) :
    LogAgrees j m := by
  induction hm with
  | refl => exact ⟨rfl, rfl, rfl, fun a ha => absurd ha List.not_mem_nil⟩
  | tail hm hstep ih => exact ih.step hm hstep

/-- A running job has been started. -/
theorem started_of_running {m : State} (hm : (platform parts).Reach (start parts) m)
    (hs : State.status j m = some .running) : 0 < startCount j m.view.history := by
  induction hm with
  | refl => exact absurd hs (by simp [State.status, start, System.initial, World.initial,
      Db.status, Db.empty])
  | tail hm hstep ih =>
    obtain ⟨b, hstatus, hcount⟩ := @step_status parts j _ _ hm hstep
    rw [hs] at hstatus
    rw [hcount]
    generalize hold : State.status j _ = s at hstatus
    cases hstatus with
    | keep => exact Nat.lt_of_lt_of_le (ih hold) (Nat.le_add_right _ _)
    | start => exact Nat.succ_pos _
    | finish _ hterm => exact absurd hterm (by decide)

/-- One step of a run: the job has been started by its end if it had been before,
or if it is running then. -/
theorem started_step {m m' : State} (hm : (platform parts).Reach (start parts) m)
    (h : (platform parts).Step m m') :
    0 < startCount j m'.view.history ↔
      0 < startCount j m.view.history ∨ State.status j m' = some .running := by
  obtain ⟨b, hstatus, hcount⟩ := @step_status parts j m m' hm h
  constructor
  · intro hpos
    rw [hcount] at hpos
    generalize State.status j m = s at hstatus
    generalize State.status j m' = s' at hstatus ⊢
    cases hstatus with
    | start => exact .inr rfl
    | keep => exact .inl hpos
    | insert => exact .inl hpos
    | finish _ _ => exact .inl hpos
  · rintro (hpos | hrun)
    · omega
    · exact started_of_running (hm.tail h) hrun

/-- A job has been started if and only if it was running in some state of the
run. -/
theorem started_iff_running {m : State} {ms : List State}
    (hm : (platform parts).Reach (start parts) m)
    (hrun : List.IsChain (platform parts).Step (m :: ms)) :
    0 < startCount j ((m :: ms).getLast (List.cons_ne_nil m ms)).view.history ↔
      0 < startCount j m.view.history ∨ ∃ m' ∈ ms, State.status j m' = some .running := by
  induction ms generalizing m with
  | nil => simp
  | cons m₁ ms ih =>
    obtain ⟨hstep, hrest⟩ := List.isChain_cons_cons.mp hrun
    rw [List.getLast_cons (List.cons_ne_nil m₁ ms), ih (hm.tail hstep) hrest,
      started_step hm hstep, or_assoc]
    simp

end Runs

/-- **Status and log agree.**  In the last state of every run of the platform, and
so in every reachable state: the job has one event `[ORCHESTRATION_STARTED]` if it
has been `RUNNING` in some state of the run and none otherwise, one closing event
if it has ended and none otherwise, an event `[ORCHESTRATION_COMPLETED]` if and only
if it is `COMPLETED`, and the opening event has the smaller number. -/
theorem status_log_agree (parts : Parts) (j : Uuid) {ms : List State}
    (hrun : List.IsChain (platform parts).Step (start parts :: ms)) {m : State}
    (hlast : (start parts :: ms).getLast (List.cons_ne_nil _ _) = m) :
    ((State.events j m).countP (EventRow.marks · .orchestrationStarted) ≤ 1 ∧
      ((State.events j m).countP (EventRow.marks · .orchestrationStarted) = 1 ↔
        ∃ m' ∈ start parts :: ms, State.status j m' = some .running)) ∧
    ((State.events j m).countP EventRow.ends ≤ 1 ∧
      ((State.events j m).countP EventRow.ends = 1 ↔
        ∃ s, State.status j m = some s ∧ s.terminal = true)) ∧
    ((State.events j m).countP (EventRow.marks · .orchestrationCompleted) ≤ 1 ∧
      ((State.events j m).countP (EventRow.marks · .orchestrationCompleted) = 1 ↔
        State.status j m = some .completed)) ∧
    ∀ a ∈ State.events j m, ∀ b ∈ State.events j m,
      a.marks .orchestrationStarted = true → b.ends = true → a.id < b.id := by
  have hreach : (platform parts).Reach (start parts) m :=
    System.reach_of_isChain hrun m (by rw [← hlast]; exact List.getLast_mem _)
  obtain ⟨hstarted, hended, hcompleted, horder⟩ := @logAgrees parts j m hreach
  refine ⟨⟨?_, ?_⟩, ⟨?_, ?_⟩, ⟨?_, ?_⟩, horder⟩
  · rw [hstarted]
    exact (@startedOnce parts j m hreach).1
  · -- nothing has been started before the first step
    have hever := @started_iff_running parts j (start parts) ms .refl hrun
    rw [hlast] at hever
    have hone := (@startedOnce parts j m hreach).1
    rw [hstarted, show startCount j m.view.history = 1 ↔ 0 < startCount j m.view.history by omega,
      hever]
    have hzero : ¬ 0 < startCount j (start parts).view.history := Nat.lt_irrefl 0
    have hnone : State.status j (start parts) ≠ some .running := by
      intro h
      exact absurd (started_of_running (.refl : (platform parts).Reach _ _) h) hzero
    simp [hzero, hnone]
  · rw [hended]
    by_cases h : (State.status j m).any Status.terminal = true
    · rw [if_pos h]
    · rw [if_neg h]
      omega
  · rw [hended, ← Option.any_eq_true]
    by_cases h : (State.status j m).any Status.terminal = true
    · simp [h]
    · simp [h]
  · rw [hcompleted]
    by_cases h : State.status j m = some .completed
    · rw [if_pos h]
    · rw [if_neg h]
      omega
  · rw [hcompleted]
    by_cases h : State.status j m = some .completed
    · simp [h]
    · simp [h]

set_option maxRecDepth 100000 in
theorem status_log_agree_sample :
    ∃ m, (State.events Sample.job m).countP (EventRow.marks · .orchestrationStarted) = 1 ∧
      (State.events Sample.job m).countP (EventRow.marks · .orchestrationCompleted) = 1 ∧
      State.status Sample.job m = some .completed := by
  have hrun := System.isChain_visits (S := platform (Sample.parts Sample.plan))
    (Sample.running 15) (start (Sample.parts Sample.plan))
  have hagree := status_log_agree (Sample.parts Sample.plan) Sample.job hrun rfl
  refine ⟨_, hagree.1.2.mpr ?_, ?_, ?_⟩
  · decide +kernel
  · rw [hagree.2.2.1.2]
    decide +kernel
  · decide +kernel

end CliExecutionPlatform
