/-
The journal of a job: what its log tells about its run.

Apart from its end, a run tells its story by four kinds of events: it has started, it has
copied the context of its parent, it asks the model for the n-th time, and its plan has been
executed.  These are logged in different transactions, some of which fail, while other runs
of the job and stale recovery go on; but what stands in the log is the story of one run from
its beginning.

* `told`, `journal` — the events of an operation and those in a log; `exec_journal`;
* `Tale`, `taleProtocol` — how far the story has come, and what may come next;
  `body_tale` — every call keeps to it;
* `chronicle_eq` — what a history tells about a job if one thread tells it;
* **`journal_of_job`** — in every reachable state, the log of a job tells such a story, and
  that of a completed job tells it to its end.
-/
import CliExecutionPlatform.RunWalk
import CliExecutionPlatform.Supervision

open Files Process

namespace CliExecutionPlatform

open JobOrchestratorService (onAttempt executionCb inheritContext)

/-! ### Journals -/

/-- The events that tell the story of a run. -/
def EventRow.tells (ev : EventRow) : Bool :=
  (EventCode.orchestrationStarted :: progressEvents).any ev.marks

def journal (rows : List EventRow) : List String :=
  (rows.filter EventRow.tells).map EventRow.message

theorem journal_append (rows rows' : List EventRow) :
    journal (rows ++ rows') = journal rows ++ journal rows' := by
  rw [journal, List.filter_append, List.map_append, journal, journal]

/-- The event of job `j` that an operation asks for. -/
def chapter (j : Uuid) : Op → Option (EventCode × String)
  | .db (.appendEvent k code message) =>
    if k = j ∧ code ∈ progressEvents then some (code, message) else none
  | .db (.transition k _ .running _ message) =>
    if k = j then some (.orchestrationStarted, message) else none
  | _ => none

/-- The event of job `j` that an operation has logged. -/
def told (j : Uuid) (o : Op) (r : Res o) : Option (EventCode × String) :=
  match o, r with
  | .db (.appendEvent k code message), .ok _ => chapter j (.db (.appendEvent k code message))
  | .db (.transition k expected target code message), .ok true =>
    chapter j (.db (.transition k expected target code message))
  | _, _ => none

theorem chapter_of_told {j : Uuid} {o : Op} {r : Res o} {x : EventCode × String}
    (h : told j o r = some x) : chapter j o = some x := by
  unfold told at h
  split at h
  · exact h
  · exact h
  · exact absurd h (by simp)

/-- The line of an event. -/
def toldLine (j : Uuid) (o : Op) (r : Res o) : List String :=
  (told j o r).toList.map fun x => x.1.message x.2

section Exec

variable {base : Path} {e : Env} {j : Uuid} {db db' : Db}

theorem tells_message {ev : EventRow} {code : EventCode} {text : String}
    (htype : ev.eventType = .systemEvent) (hmsg : ev.message = code.message text) :
    ev.tells = decide (code ∈ EventCode.orchestrationStarted :: progressEvents) := by
  have hmarks := marks_message htype hmsg
  rw [Bool.eq_iff_iff, EventRow.tells, List.any_eq_true, decide_eq_true_iff]
  constructor
  · rintro ⟨c, hc, hmark⟩
    rw [hmarks] at hmark
    rwa [← of_decide_eq_true hmark]
  · intro hc
    exact ⟨code, hc, by rw [hmarks]; exact decide_eq_true rfl⟩

theorem tells_of_type {ev : EventRow} (h : ev.eventType ≠ .systemEvent) : ev.tells = false := by
  rw [EventRow.tells, List.any_eq_false]
  intro c _
  rw [marks_of_type h]
  simp

/-- One system event in a log. -/
theorem journal_stampEvents_one {now next : ℕ} {code : EventCode} {text : String} :
    journal (stampEvents now j next [(.systemEvent, code.message text)]) =
      if code ∈ EventCode.orchestrationStarted :: progressEvents then [code.message text]
      else [] := by
  obtain ⟨ev, hev, htype, hmsg⟩ := @stampEvents_one j now next code text
  rw [hev, journal, List.filter_cons, tells_message htype hmsg]
  by_cases hcode : code ∈ EventCode.orchestrationStarted :: progressEvents
  · rw [if_pos (decide_eq_true hcode), if_pos hcode, List.filter_nil, List.map_singleton, hmsg]
  · rw [if_neg (by simpa using hcode), if_neg hcode]
    rfl

/-- What a run logs of the output of its tools is not in the journal. -/
theorem journal_stampEvents_output {now next : ℕ} {rows : List (EventType × String)}
    (h : ∀ row ∈ rows, row.1 = .systemEvent → ∃ text, row.2 = EventCode.timeout.message text) :
    journal (stampEvents now j next rows) = [] := by
  have hnone : ∀ ev ∈ stampEvents now j next rows, ev.tells = false := by
    induction rows generalizing next with
    | nil => exact fun ev hev => absurd hev List.not_mem_nil
    | cons row rest ih =>
      intro ev hev
      rw [stampEvents, List.mem_cons] at hev
      rcases hev with rfl | hev
      · by_cases htype : row.1 = .systemEvent
        · obtain ⟨text, hmsg⟩ := h row List.mem_cons_self htype
          rw [tells_message htype hmsg]
          rfl
        · exact tells_of_type htype
      · exact ih (fun row' hrow' => h row' (List.mem_cons_of_mem _ hrow')) ev hev
  rw [journal, List.filter_eq_nil_iff.mpr fun ev hev => by simp [hnone ev hev]]
  rfl

theorem toldLine_of_not_affects {o : DbOp} {r : Except Exn o.Val} (h : o.affects r ≠ some j) :
    toldLine j (.db o) r = [] := by
  cases o with
  | appendEvent k code message =>
    have hk : ¬ k = j := fun hk => h (congrArg some hk)
    rcases r with e | u <;> simp [toldLine, told, chapter, hk]
  | transition k expected target code message =>
    have hk : ¬ k = j := fun hk => h (congrArg some hk)
    rcases r with e | b
    · rfl
    · cases b <;> cases target <;> simp [toldLine, told, chapter, hk]
  | _ => rfl

/-- What a transaction adds to a journal. -/
theorem DbOp.exec_journal {o : DbOp} {r : Except Exn o.Val} (hchecked : (Op.db o).Checked)
    (h : o.exec e db = some (r, db')) :
    journal (db'.eventsOf j) = journal (db.eventsOf j) ++ toldLine j (.db o) r := by
  -- an operation that keeps the log
  have same : ∀ {db₁ : Db}, db₁.eventsOf j = db.eventsOf j → toldLine j (.db o) r = [] →
      journal (db₁.eventsOf j) = journal (db.eventsOf j) ++ toldLine j (.db o) r := by
    intro db₁ hevents hnone
    rw [hevents, hnone, List.append_nil]
  by_cases haff : o.affects r = some j
  · rcases DbOp.exec_cases h with h | ⟨⟨name, detail, rfl⟩, rfl⟩
    · cases o with
      | transition k expected target code message =>
        obtain rfl : k = j := Option.some.inj haff
        rcases DbOp.run_transition h with ⟨row, hrow, hin, rfl, rfl⟩ | ⟨-, rfl, rfl⟩
        · rw [Db.eventsOf_log, Db.eventsOf_updateJob, journal_append, journal_stampEvents_one]
          have hcode : (target, code) ∈ statusEvents := hchecked
          congr 1
          revert hcode
          cases target <;> cases code <;>
            simp [statusEvents, progressEvents, toldLine, told, chapter]
        · exact same rfl rfl
      | recoverOne k cutoff =>
        obtain rfl : k = j := Option.some.inj haff
        rcases run_recoverOne h with ⟨row, hrow, hs, -, -, rfl⟩ | ⟨-, -, rfl⟩
        · rw [Db.eventsOf_log, Db.eventsOf_updateJob, journal_append, journal_stampEvents_one]
          rfl
        · exact same rfl rfl
      | insertJob prompt parent =>
        obtain ⟨hnone, rfl, rfl⟩ := run_insertJob h
        exact same rfl rfl
      | appendEvent k code message =>
        obtain rfl : k = j := Option.some.inj haff
        have hcode : code ∈ progressEvents := hchecked
        rcases run_appendEvent h with ⟨rfl, rfl⟩ | ⟨rfl, rfl⟩
        · rw [Db.eventsOf_log, journal_append, journal_stampEvents_one,
            if_pos (List.mem_cons_of_mem _ hcode)]
          simp [toldLine, told, chapter, hcode]
        · exact same rfl rfl
      | logEvents k rows =>
        obtain rfl : k = j := Option.some.inj haff
        rcases run_logEvents h with ⟨-, rfl⟩ | ⟨-, rfl⟩
        · rw [Db.eventsOf_log, journal_append, journal_stampEvents_output hchecked]
          rfl
        · exact same rfl rfl
      | saveActionPlan k actions =>
        rcases run_saveActionPlan h with ⟨row, hrow, -, -, rfl⟩ | ⟨-, -, rfl⟩
        · exact same rfl rfl
        · exact same rfl rfl
      | commitArtifacts k drafts =>
        rcases run_commitArtifacts h with ⟨-, hjob, hevents, -⟩ | ⟨-, rfl⟩
        · exact same (by rw [Db.eventsOf, Db.eventsOf, hevents]) rfl
        · exact same rfl rfl
      | getJob k => exact absurd haff (by simp [DbOp.affects])
      | scanStale cutoff => exact absurd haff (by simp [DbOp.affects])
      | flushArtifact k rel name type => exact absurd haff (by simp [DbOp.affects])
      | rollbackSession k => exact absurd haff (by simp [DbOp.affects])
    · -- a transaction that fails is rolled back
      refine same rfl ?_
      cases o <;> rfl
  · obtain ⟨-, -, hevents⟩ := DbOp.exec_frame h haff
    exact same hevents (toldLine_of_not_affects haff)

/-- **What an operation adds to a journal.** -/
theorem exec_journal {o : Op} {w w' : World} {r : Res o} (hchecked : o.Checked)
    (h : exec base e o w = some (r, w')) :
    journal (w'.db.eventsOf j) = journal (w.db.eventsOf j) ++ toldLine j o r := by
  cases o with
  | db o =>
    obtain ⟨db, hrun, rfl⟩ := exec_db h
    exact DbOp.exec_journal hchecked hrun
  | fs o =>
    obtain ⟨fs, -, rfl⟩ := exec_fs h
    exact (List.append_nil _).symm
  | sys o =>
    rw [SysOp.exec_db h]
    exact (List.append_nil _).symm

end Exec

/-! ### The story of a run -/

/-- How far a run has come: nothing is told; it has started, has copied its context or not,
and has asked the model some times; or its plan has been executed as well. -/
inductive Tale
  | silent
  | telling (copied : Bool) (attempts : ℕ)
  | executed (copied : Bool) (attempts : ℕ)
  deriving DecidableEq

namespace Tale

def startedText : String := "Orchestration started."
def copiedText : String := "Parent design context copied."
def attemptText (n : ℕ) : String := "LLM plan request attempt " ++ toString n ++ "."
def executedText : String := "Final action plan validated, executed, and persisted."

/-- The lines of a story up to the requests to the model. -/
def opening (copied : Bool) (attempts : ℕ) : List String :=
  EventCode.orchestrationStarted.message startedText ::
    ((if copied then [EventCode.refinementContextCopied.message copiedText] else []) ++
      (List.range attempts).map fun i => EventCode.llmAttempt.message (attemptText (i + 1)))

def lines : Tale → List String
  | silent => []
  | telling copied attempts => opening copied attempts
  | executed copied attempts =>
    opening copied attempts ++ [EventCode.planExecuted.message executedText]

/-- One event more. -/
def tell : Tale → EventCode → Tale
  | silent, .orchestrationStarted => telling false 0
  | telling _ attempts, .refinementContextCopied => telling true attempts
  | telling copied attempts, .llmAttempt => telling copied (attempts + 1)
  | telling copied attempts, .planExecuted => executed copied attempts
  | tale, _ => tale

/-- The events that may come next. -/
def Continues : Tale → EventCode → String → Prop
  | silent, .orchestrationStarted, text => text = startedText
  | telling copied attempts, .refinementContextCopied, text =>
    copied = false ∧ attempts = 0 ∧ text = copiedText
  | telling _ attempts, .llmAttempt, text => attempts < 3 ∧ text = attemptText (attempts + 1)
  | telling _ attempts, .planExecuted, text => 0 < attempts ∧ text = executedText
  | _, _, _ => False

/-- The model is asked at most three times, and at least once for a plan. -/
def Sound : Tale → Prop
  | silent => True
  | telling _ attempts => attempts ≤ 3
  | executed _ attempts => 0 < attempts ∧ attempts ≤ 3

def isExecuted : Tale → Bool
  | executed _ _ => true
  | _ => false

variable {tale : Tale} {code : EventCode} {text : String}

theorem lines_tell (h : tale.Continues code text) :
    (tale.tell code).lines = tale.lines ++ [code.message text] := by
  cases tale with
  | silent =>
    cases code with
    | orchestrationStarted =>
      obtain rfl : text = startedText := h
      rfl
    | _ => exact absurd h id
  | telling copied attempts =>
    cases code with
    | refinementContextCopied =>
      obtain ⟨rfl, rfl, rfl⟩ := h
      rfl
    | llmAttempt =>
      obtain ⟨-, rfl⟩ := h
      simp [tell, lines, opening, List.range_succ]
    | planExecuted =>
      obtain ⟨-, rfl⟩ := h
      rfl
    | _ => exact absurd h id
  | executed copied attempts => cases code <;> exact absurd h id

theorem Sound.tell (hs : tale.Sound) (h : tale.Continues code text) : (tale.tell code).Sound := by
  cases tale with
  | silent => cases code <;> first | trivial | exact Nat.zero_le 3
  | telling copied attempts =>
    cases code with
    | llmAttempt => exact h.1
    | planExecuted => exact ⟨h.1, hs⟩
    | _ => exact hs
  | executed copied attempts => cases code <;> exact hs

end Tale

/-! ### Runs keep to the story -/

/-- The protocol of the calls: what they log continues the story, and only a job whose plan
has been executed is completed. -/
def taleProtocol (j : Uuid) : Protocol Op Res Tale where
  next := fun tale o r =>
    match told j o r with
    | some (code, _) => tale.tell code
    | none => tale
  allows := fun tale o =>
    (∀ code text, chapter j o = some (code, text) → tale.Continues code text) ∧
      ∀ expected code text, o = .db (.transition j expected .completed code text) →
        tale.isExecuted = true

/-- The operation does not touch the story. -/
def Op.Untold (j : Uuid) (o : Op) : Prop :=
  chapter j o = none ∧ ∀ expected code text, o ≠ .db (.transition j expected .completed code text)

section Programs

variable {parts : Parts} {server : ℕ} {j : Uuid} {o : Op} {tale : Tale}

theorem Op.Untold.told (ho : o.Untold j) (r : Res o) : told j o r = none := by
  rcases hr : CliExecutionPlatform.told j o r with _ | x
  · rfl
  · exact absurd (chapter_of_told hr) (by simp [ho.1])

theorem taleProtocol_of_untold (ho : o.Untold j) (q : Tale) :
    (taleProtocol j).allows q o ∧ ∀ r, (taleProtocol j).next q o r = q := by
  refine ⟨⟨fun code text h => absurd h (by simp [ho.1]), fun _ _ _ h => absurd h (ho.2 _ _ _)⟩,
    fun r => ?_⟩
  show (match CliExecutionPlatform.told j o r with | some (code, _) => q.tell code | none => q) = q
  rw [ho.told r]

theorem preserves_untold {I : Tale → Prop} (ho : o.Untold j) :
    Preserves (taleProtocol j) I (perform o).run :=
  preserves_of_calls (calls_op ho) fun q _ _ ho => taleProtocol_of_untold ho q

theorem OfAttempt.untold (ho : OfAttempt j o) : o.Untold j := by
  cases o with
  | db o => cases o <;> first | exact absurd ho id | exact ⟨rfl, by simp⟩
  | fs o => exact ⟨rfl, by simp⟩
  | sys o => exact ⟨rfl, by simp⟩

theorem Op.Brackets.untold (ho : o.Brackets j) : o.Untold j := by
  cases o with
  | db o => cases o <;> first | exact absurd ho id | exact ⟨rfl, by simp⟩
  | fs o => exact ⟨rfl, by simp⟩
  | sys o => exact ⟨rfl, by simp⟩

theorem Op.Promotes.untold {path : String} (ho : o.Promotes j path) : o.Untold j := by
  cases o with
  | db o => cases o <;> first | exact absurd ho id | exact ⟨rfl, by simp⟩
  | fs o => exact ⟨rfl, by simp⟩
  | sys o => exact ⟨rfl, by simp⟩

/-- An attempt tells nothing. -/
theorem oneAttempt_tale {I : Tale → Prop} (request : LLMRequest) :
    Preserves (taleProtocol j) I (LLMPlanRetryExecutor.oneAttempt parts
      (SecurityPolicyValidator.validateActions parts j) (executionCb parts server j)
      request).run := by
  refine oneAttempt_preserves_of (preserves_untold ⟨rfl, by simp⟩)
    (fun rows => preserves_untold ⟨rfl, by simp⟩) fun actions _ => ?_
  refine executionCb_preserves (fun o ho => preserves_untold ho.untold) (fun a _ => ?_)
    (fun path _ o ho => preserves_untold ho.untold)
    (fun drafts => preserves_untold ⟨rfl, by simp⟩) (preserves_untold ⟨rfl, by simp⟩)
  exact preserves_of_calls (executeAction_calls a) fun q _ _ ho =>
    taleProtocol_of_untold ho.1.untold q

/-- The story after an event that was to be logged. -/
def After (tale : Tale) (code : EventCode) (r : Except Exn Unit) (q : Tale) : Prop :=
  match r with
  | .ok _ => q = tale.tell code
  | .error _ => q = tale

theorem appendEvent_tale {code : EventCode} {text : String} (hcode : code ∈ progressEvents)
    (h : tale.Continues code text) :
    Obeys (taleProtocol j) (After tale code) (perform (.db (.appendEvent j code text))).run
      tale := by
  have hchapter : chapter j (.db (.appendEvent j code text)) = some (code, text) :=
    if_pos ⟨rfl, hcode⟩
  have hallows : (taleProtocol j).allows tale (.db (.appendEvent j code text)) := by
    refine ⟨fun code' text' h' => ?_, fun _ _ _ h => absurd h (by simp)⟩
    obtain ⟨rfl, rfl⟩ := Prod.mk.inj (Option.some.inj (hchapter.symm.trans h'))
    exact h
  refine obeys_op hallows fun r => ?_
  rcases r with e | u
  · rfl
  · show (match chapter j (.db (.appendEvent j code text)) with
      | some (code, _) => tale.tell code | none => tale) = tale.tell code
    rw [hchapter]

/-- The copy of the context. -/
theorem inheritContext_tale (parent : Option Uuid) :
    Obeys (taleProtocol j) (fun _ q => ∃ copied, q = .telling copied 0)
      (inheritContext j parent).run (.telling false 0) := by
  cases parent with
  | none => exact obeys_ret ⟨false, rfl⟩
  | some parent =>
    refine obeys_bindE (inheritFiles_preserves_of (I := fun q => q = .telling false 0) parent
      (fun f => preserves_untold ⟨rfl, by simp⟩) (fun f => preserves_untold ⟨rfl, by simp⟩) _ _
      rfl) ?_ fun _ _ hq => ⟨false, hq⟩
    rintro context _ rfl
    refine obeys_bindE (appendEvent_tale (by decide) ⟨rfl, rfl, rfl⟩) ?_ ?_
    · rintro u _ rfl
      exact obeys_ret ⟨true, rfl⟩
    · rintro e _ rfl
      exact ⟨false, rfl⟩

/-- The requests to the model, numbered one after the other. -/
theorem generateActions_tale (copied : Bool) (delays : List ℕ) (attempts : ℕ)
    (hle : attempts + delays.length < 3) (request : LLMRequest) :
    Obeys (taleProtocol j)
      (fun r q => ∃ k, q = .telling copied k ∧ ∀ actions, r = .ok actions → 0 < k)
      (LLMPlanRetryExecutor.generateActions parts (onAttempt j)
        (SecurityPolicyValidator.validateActions parts j) (executionCb parts server j) delays
        (attempts + 1) request).run (.telling copied attempts) := by
  have hnote : ∀ attempts < 3, Obeys (taleProtocol j)
      (After (.telling copied attempts) .llmAttempt) (onAttempt j (attempts + 1)).run
      (.telling copied attempts) := fun _ hlt => appendEvent_tale (by decide) ⟨hlt, rfl⟩
  induction delays generalizing attempts request with
  | nil =>
    refine obeys_bindE (hnote attempts hle) ?_ ?_
    · rintro u _ rfl
      refine (oneAttempt_tale (I := fun q => q = .telling copied (attempts + 1)) request _
        rfl).mono ?_
      rintro r _ rfl
      exact ⟨attempts + 1, rfl, fun _ _ => Nat.succ_pos _⟩
    · rintro e _ rfl
      exact ⟨attempts, rfl, fun _ h => absurd h (by simp)⟩
  | cons delay delays ih =>
    rw [List.length_cons] at hle
    refine obeys_bindE (hnote attempts (by omega)) ?_ ?_
    · rintro u _ rfl
      refine obeys_tryExcept (oneAttempt_tale (I := fun q => q = .telling copied (attempts + 1))
        request _ rfl) ?_ ?_ ?_
      · rintro actions _ rfl
        exact ⟨attempts + 1, rfl, fun _ _ => Nat.succ_pos _⟩
      · rintro e _ - rfl
        refine obeys_bindE (preserves_untold (I := fun q => q = .telling copied (attempts + 1))
          (o := .sys (.sleep delay)) ⟨rfl, by simp⟩ _ rfl) ?_ ?_
        · rintro u _ rfl
          exact ih (attempts + 1) (by omega) _
        · rintro e _ rfl
          exact ⟨attempts + 1, rfl, fun _ h => absurd h (by simp)⟩
      · rintro e _ - rfl
        exact ⟨attempts + 1, rfl, fun _ h => absurd h (by simp)⟩
    · rintro e _ rfl
      exact ⟨attempts, rfl, fun _ h => absurd h (by simp)⟩

/-- A transition to another status than `RUNNING` tells nothing. -/
theorem transition_tale {expected : List Status} {target : Status} {code : EventCode}
    {text : String} (htarget : target ≠ .running)
    (hdone : target = .completed → tale.isExecuted = true) :
    Obeys (taleProtocol j) (fun _ q => q = tale)
      (perform (.db (.transition j expected target code text))).run tale := by
  have hchapter : chapter j (.db (.transition j expected target code text)) = none := by
    cases target <;> first | rfl | exact absurd rfl htarget
  have hallows : (taleProtocol j).allows tale (.db (.transition j expected target code text)) := by
    refine ⟨fun code' text' h => ?_, fun expected' code' text' h => hdone ?_⟩
    · rw [hchapter] at h
      exact absurd h (by simp)
    · simp only [Op.db.injEq, DbOp.transition.injEq] at h
      exact h.2.2.1
  refine obeys_op hallows fun r => ?_
  have htold : told j (.db (.transition j expected target code text)) r = none := by
    rcases hr : told j (.db (.transition j expected target code text)) r with _ | x
    · rfl
    · exact absurd (chapter_of_told hr) (by simp [hchapter])
  show (match told j (.db (.transition j expected target code text)) r with
    | some (code, _) => tale.tell code | none => tale) = tale
  rw [htold]

theorem runBody_tale :
    Obeys (taleProtocol j) (fun _ _ => True)
      (JobOrchestratorService.runBody parts server j).run (.telling false 0) := by
  refine obeys_bindE (preserves_untold (I := fun q => q = .telling false 0) (o := .db (.getJob j))
    ⟨rfl, by simp⟩ _ rfl) ?_ fun _ _ _ => trivial
  rintro row _ rfl
  cases row with
  | none => exact obeys_ret trivial
  | some record =>
    refine obeys_bindE (inheritContext_tale record.parentJobId) ?_ fun _ _ _ => trivial
    rintro context _ ⟨copied, rfl⟩
    refine obeys_bindE (generateActions_tale copied JobOrchestratorService.retryDelays 0 (by decide)
      _) ?_ fun _ _ _ => trivial
    rintro plan _ ⟨k, rfl, hk⟩
    refine obeys_bindE (appendEvent_tale (by decide) ⟨hk plan rfl, rfl⟩) ?_ fun _ _ _ => trivial
    rintro u _ rfl
    exact obeys_bindE (transition_tale (by decide) fun _ => rfl) (fun _ _ _ => obeys_ret trivial)
      fun _ _ _ => trivial

theorem runInSlot_tale :
    Obeys (taleProtocol j) (fun _ _ => True)
      (JobOrchestratorService.runInSlot parts server j).run .silent := by
  have hstart : Obeys (taleProtocol j)
      (fun r q => q = if r = .ok true then .telling false 0 else .silent)
      (JobOrchestratorService.startJob j).run .silent := by
    have hchapter : chapter j (JobOrchestratorService.startOp j) =
        some (.orchestrationStarted, Tale.startedText) := if_pos rfl
    have hallows : (taleProtocol j).allows .silent (JobOrchestratorService.startOp j) := by
      refine ⟨fun code text h => ?_, fun _ _ _ h => absurd h (by simp)⟩
      obtain ⟨rfl, rfl⟩ := Prod.mk.inj (Option.some.inj (hchapter.symm.trans h))
      rfl
    refine obeys_op hallows fun r => ?_
    rcases r with e | b
    · rfl
    · cases b with
      | false => rfl
      | true =>
        show (match chapter j (JobOrchestratorService.startOp j) with
          | some (code, _) => Tale.silent.tell code | none => .silent) = .telling false 0
        rw [hchapter]
        rfl
  refine obeys_bindE hstart ?_ fun _ _ _ => trivial
  rintro started _ rfl
  cases started with
  | false => exact obeys_ret trivial
  | true =>
    refine obeys_tryExcept runBody_tale (fun _ _ _ => trivial) ?_ fun _ _ _ _ => trivial
    intro e q _ _
    refine obeys_bindE (R := fun _ _ => True) ?_ (fun _ _ _ => obeys_ret trivial)
      fun _ _ _ => trivial
    refine obeys_tryExcept (R := fun _ _ => True) ?_ (fun _ _ _ => trivial)
      (fun _ _ _ _ => obeys_ret trivial) fun _ _ _ _ => trivial
    exact obeys_bindE (transition_tale (by decide) fun h => absurd h (by decide))
      (fun _ _ _ => obeys_ret trivial) fun _ _ _ => trivial

theorem run_tale :
    Obeys (taleProtocol j) (fun _ _ => True) (JobOrchestratorService.run parts server j).run
      .silent := by
  refine obeys_tryExcept (R := fun _ _ => True) ?_ (fun _ _ _ => trivial) ?_
    fun _ _ _ _ => trivial
  · refine obeys_bindE (preserves_untold (I := fun q => q = .silent)
      (o := .sys (.acquireGate server)) ⟨rfl, by simp⟩ _ rfl) ?_ fun _ _ _ => trivial
    rintro _ _ rfl
    refine obeys_tryFinally runInSlot_tale fun r q _ => ?_
    exact preserves_of_calls (I := fun _ => True)
      (calls_attemptOnly (o := .sys (.releaseGate server)) (S := fun o => o.Untold j)
        ⟨rfl, by simp⟩) (fun q _ _ ho => taleProtocol_of_untold ho q) _ trivial
  · intro e q _ _
    exact obeys_bindE (transition_tale (by decide) fun h => absurd h (by decide))
      (fun _ _ _ => obeys_ret trivial) fun _ _ _ => trivial

/-- The calls that are no runs of the job do not touch its story. -/
theorem Call.untold {c : Call} (hc : ∀ server, c ≠ .run server j) (h : c.ops o) :
    o.Untold j := by
  have hno := Call.noTransition hc h
  cases o with
  | fs o => exact ⟨rfl, by simp⟩
  | sys o => exact ⟨rfl, by simp⟩
  | db o =>
    cases o with
    | transition k expected target code message =>
      have hk : k ≠ j := hno
      refine ⟨?_, by simp [hk]⟩
      cases target <;> simp [chapter, hk]
    | appendEvent k code message =>
      cases c with
      | run server i =>
        obtain rfl : k = i := h
        have hk : k ≠ j := fun hk => hc server (by rw [hk])
        exact ⟨if_neg fun hcon => hk hcon.1, by simp⟩
      | _ => exact absurd h id
    | _ => exact ⟨rfl, by simp⟩

/-- **Every call keeps to the story.** -/
theorem body_tale (parts : Parts) (j : Uuid) (c : Call) :
    Obeys (taleProtocol j) (fun _ _ => True) ((platform parts).body c) .silent := by
  by_cases hc : ∃ server, c = .run server j
  · obtain ⟨server, rfl⟩ := hc
    exact obeys_bindE run_tale (fun _ _ _ => obeys_ret trivial) fun _ _ _ => trivial
  · have hne : ∀ server, c ≠ .run server j := fun server h => hc ⟨server, h⟩
    exact preserves_of_calls (I := fun _ => True) (calls_mono (fun o ho => Call.untold hne ho)
      (body_calls parts c)) (fun q _ _ ho => taleProtocol_of_untold ho q) _ trivial

end Programs

/-! ### Histories -/

section Histories

variable {j : Uuid} {t : ℕ} {h : History}

/-- What a history tells about a job. -/
def chronicle (j : Uuid) : History → List String
  | [] => []
  | l :: h => chronicle j h ++ toldLine j l.op l.res

/-- How far a thread has come in the story of a job. -/
def taleOf (j : Uuid) (t : ℕ) (h : History) : Tale := (taleProtocol j).phase .silent t h

/-- Every operation was allowed where its thread stood. -/
def Orderly (j : Uuid) (h : History) : Prop :=
  ∀ l before, l :: before <:+ h → (taleProtocol j).allows (taleOf j l.tid before) l.op

theorem Orderly.tail {l : Label Op Res} (hh : Orderly j (l :: h)) : Orderly j h :=
  fun l' before hb => hh l' before (hb.trans (List.suffix_cons l h))

theorem taleOf_own {o : Op} {r : Res o} :
    taleOf j t (⟨t, o, r⟩ :: h) =
      match told j o r with
      | some (code, _) => (taleOf j t h).tell code
      | none => taleOf j t h := Protocol.phase_own o r

theorem taleOf_other {l : Label Op Res} (hl : l.tid ≠ t) : taleOf j t (l :: h) = taleOf j t h :=
  Protocol.phase_other hl

/-- The own operations of a thread tell its story. -/
theorem Orderly.own {o : Op} {r : Res o} (hh : Orderly j (⟨t, o, r⟩ :: h)) :
    (told j o r = none ∧ taleOf j t (⟨t, o, r⟩ :: h) = taleOf j t h) ∨
      ∃ code text, told j o r = some (code, text) ∧ (taleOf j t h).Continues code text ∧
        taleOf j t (⟨t, o, r⟩ :: h) = (taleOf j t h).tell code := by
  rw [taleOf_own]
  rcases htold : told j o r with _ | ⟨code, text⟩
  · exact .inl ⟨rfl, rfl⟩
  · refine .inr ⟨code, text, rfl, ?_, rfl⟩
    exact (hh ⟨t, o, r⟩ h List.suffix_rfl).1 code text (chapter_of_told htold)

theorem sound_taleOf (hh : Orderly j h) : (taleOf j t h).Sound := by
  induction h with
  | nil => trivial
  | cons l h ih =>
    obtain ⟨u, o, r⟩ := l
    by_cases hu : u = t
    · subst hu
      rcases hh.own with ⟨-, heq⟩ | ⟨code, text, -, hcont, heq⟩
      · rw [heq]
        exact ih hh.tail
      · rw [heq]
        exact (ih hh.tail).tell hcont
    · rw [taleOf_other hu]
      exact ih hh.tail

/-- **A story that one thread tells.** -/
theorem chronicle_eq (hh : Orderly j h) (hone : ∀ l ∈ h, told j l.op l.res ≠ none → l.tid = t) :
    chronicle j h = (taleOf j t h).lines := by
  induction h with
  | nil => rfl
  | cons l h ih =>
    have hrest := ih hh.tail fun l' hl' => hone l' (List.mem_cons_of_mem _ hl')
    obtain ⟨u, o, r⟩ := l
    rw [chronicle, hrest]
    by_cases hu : u = t
    · subst hu
      rcases hh.own with ⟨hnone, heq⟩ | ⟨code, text, hsome, hcont, heq⟩
      · rw [heq, toldLine, hnone]
        exact List.append_nil _
      · rw [heq, Tale.lines_tell hcont, toldLine, hsome]
        rfl
    · have hnone : told j o r = none := by
        by_contra hne
        exact hu (hone ⟨u, o, r⟩ List.mem_cons_self hne)
      rw [taleOf_other hu, toldLine, hnone]
      exact List.append_nil _

theorem starts_of_told {o : Op} {r : Res o} {text : String}
    (h : told j o r = some (.orchestrationStarted, text)) : starts j o r = true := by
  unfold told at h
  split at h
  · rename_i k code message _
    simp only [chapter] at h
    split_ifs at h with hk
    obtain ⟨rfl, -⟩ := Prod.mk.inj (Option.some.inj h)
    exact absurd hk.2 (by decide)
  · rename_i k expected target code message
    cases target with
    | running =>
      simp only [chapter] at h
      split_ifs at h with hk
      exact decide_eq_true hk
    | _ => exact absurd h (by simp [chapter])
  · exact absurd h (by simp)

/-- Whoever tells the story of a job has started it. -/
theorem seenBy_starts (hh : Orderly j h) (htale : taleOf j t h ≠ .silent) :
    SeenBy (starts j) t h := by
  induction h with
  | nil => exact absurd rfl htale
  | cons l h ih =>
    obtain ⟨u, o, r⟩ := l
    rw [seenBy_cons]
    by_cases hu : u = t
    · subst hu
      by_cases hbefore : taleOf j u h = .silent
      · rcases hh.own with ⟨-, heq⟩ | ⟨code, text, hsome, hcont, -⟩
        · exact absurd (heq.trans hbefore) htale
        · rw [hbefore] at hcont
          cases code with
          | orchestrationStarted => exact .inl ⟨rfl, starts_of_told hsome⟩
          | _ => exact absurd hcont id
      · exact .inr (ih hh.tail hbefore)
    · rw [taleOf_other hu] at htale
      exact .inr (ih hh.tail htale)

theorem Tale.tell_ne_silent {tale : Tale} {code : EventCode} {text : String}
    (h : tale.Continues code text) : tale.tell code ≠ .silent := by
  cases tale <;> cases code <;> first | exact absurd h id | simp [Tale.tell]

theorem seenBy_starts_of_told (hh : Orderly j h) {l : Label Op Res} (hl : l ∈ h)
    (htold : told j l.op l.res ≠ none) : SeenBy (starts j) l.tid h := by
  obtain ⟨after, before, rfl⟩ := List.append_of_mem hl
  have hsuffix : l :: before <:+ after ++ l :: before := List.suffix_append _ _
  have hbefore : Orderly j (l :: before) := fun l' b hb => hh l' b (hb.trans hsuffix)
  obtain ⟨u, o, r⟩ := l
  rcases hbefore.own with ⟨hnone, -⟩ | ⟨code, text, -, hcont, heq⟩
  · exact absurd hnone htold
  · refine (seenBy_starts hbefore ?_).mono hsuffix
    rw [heq]
    exact Tale.tell_ne_silent hcont

/-- The end of a story stays the end. -/
theorem isExecuted_mono {before : History} (hb : before <:+ h)
    (hdone : (taleOf j t before).isExecuted = true) : (taleOf j t h).isExecuted = true := by
  obtain ⟨after, rfl⟩ := hb
  induction after with
  | nil => exact hdone
  | cons l after ih =>
    obtain ⟨u, o, r⟩ := l
    rw [List.cons_append]
    by_cases hu : u = t
    · subst hu
      rw [taleOf_own]
      generalize taleOf j u (after ++ before) = tale at ih
      cases tale with
      | executed copied attempts =>
        split
        · rename_i code _ _
          cases code <;> rfl
        · rfl
      | _ => exact absurd ih (by simp [Tale.isExecuted])
    · rw [taleOf_other hu]
      exact ih

end Histories

/-! ### The platform -/

section Platform

variable {parts : Parts} {m : State} {j : Uuid}

theorem orderly (hm : (platform parts).Reach (start parts) m) : Orderly j m.view.history := by
  intro l before hb
  obtain ⟨c, p, -, hallows⟩ := System.Reach.allowed (body_tale parts j) hm hb
  exact hallows

/-- The log of a job holds what the history tells about it. -/
theorem journal_eq_chronicle (hm : (platform parts).Reach (start parts) m) :
    journal (m.view.state.db.eventsOf j) = chronicle j m.view.history := by
  induction hm with
  | refl => rfl
  | @tail m₁ m₂ hm hstep ih =>
    cases hstep with
    | invoke c _ => exact ih
    | perform t c o k e r s ht he =>
      have hchecked := (System.Reach.calls (body_checked parts) hm ht).head
      have hrun : exec parts.base e o m₁.view.state = some (r, s) := he
      show journal (s.db.eventsOf j) = chronicle j m₁.view.history ++ toldLine j o r
      rw [exec_journal hchecked hrun, ih]

theorem completes_of_finishes {base : Path} {e : Env} {o : Op} {r : Res o} {w w' : World}
    (h : exec base e o w = some (r, w')) (hends : finishes j o r = true)
    (hdone : w'.db.status j = some .completed) : completes j o r = true := by
  unfold finishes at hends
  split at hends
  · rename_i k expected target code message
    obtain ⟨rfl, -⟩ := of_decide_eq_true hends
    rcases exec_transition h with ⟨s, -, -, hset⟩ | ⟨hno, -⟩
    · obtain rfl : target = .completed := Option.some.inj (hset.after.symm.trans hdone)
      exact decide_eq_true rfl
    · exact absurd rfl hno
  · exact absurd hends (by simp)

theorem transition_of_completes {o : Op} {r : Res o} (h : completes j o r = true) :
    ∃ expected code text, o = .db (.transition j expected .completed code text) := by
  unfold completes at h
  split at h
  · obtain rfl := of_decide_eq_true h
    exact ⟨_, _, _, rfl⟩
  · exact absurd h (by simp)

/-- A completed job has been completed by a transition. -/
theorem seen_completes (hm : (platform parts).Reach (start parts) m)
    (hdone : m.status j = some .completed) : Seen (completes j) m.view.history := by
  induction hm with
  | refl => exact absurd hdone (by simp [State.status, start, System.initial, World.initial,
      Db.empty, Db.status])
  | @tail m₁ m₂ hm hstep ih =>
    cases hstep with
    | invoke c _ => exact ih hdone
    | perform t c o k e r s ht he =>
      have hrun : exec parts.base e o m₁.view.state = some (r, s) := he
      have hlaw := Call.lawful (System.Reach.calls (body_calls parts) hm ht).head
      have hnow : s.db.status j = some .completed := hdone
      refine seen_cons.mpr ?_
      rcases exec_status_marks hlaw hrun with hsame | ⟨-, hs⟩ | ⟨-, hs⟩ | hends | ⟨-, hs⟩
      · exact .inr (ih (hsame.symm.trans hnow))
      · exact absurd (hs.symm.trans hnow) (by simp)
      · exact absurd (hs.symm.trans hnow) (by simp)
      · exact .inl (completes_of_finishes hrun hends hnow)
      · exact absurd (hs.symm.trans hnow) (by simp)

end Platform

/-- **The journal of a job.**  In every reachable state, the events in the log of a job by
which runs report their progress are the beginning of one story, told in order and without a
repetition: the start, the copy of the context if there is one, the requests to the model
numbered from one and at most three, and the execution of the plan.  The log of a completed
job tells the whole story. -/
theorem journal_of_job (parts : Parts) {m : State} (hm : (platform parts).Reach (start parts) m)
    (j : Uuid) : ∃ tale : Tale, tale.Sound ∧
      journal (m.view.state.db.eventsOf j) = tale.lines ∧
      (m.status j = some .completed → tale.isExecuted = true) := by
  have hh : Orderly j m.view.history := orderly hm
  -- the threads that tell something are all the one that has started the job
  obtain ⟨t, ht⟩ : ∃ t, ∀ u, SeenBy (starts j) u m.view.history → u = t := by
    by_cases hs : ∃ t, SeenBy (starts j) t m.view.history
    · obtain ⟨t, ht⟩ := hs
      exact ⟨t, fun u hu => SeenBy.unique (startedOnce hm).1 hu ht⟩
    · exact ⟨0, fun u hu => absurd ⟨u, hu⟩ hs⟩
  refine ⟨taleOf j t m.view.history, sound_taleOf hh, ?_, fun hdone => ?_⟩
  · rw [journal_eq_chronicle hm]
    exact chronicle_eq hh fun l hl htold => ht _ (seenBy_starts_of_told hh hl htold)
  · obtain ⟨l, hl, hcompletes⟩ := seen_completes hm hdone
    obtain ⟨after, before, hsplit⟩ := List.append_of_mem hl
    have hsuffix : l :: before <:+ m.view.history := ⟨after, hsplit.symm⟩
    obtain ⟨expected, code, text, hop⟩ := transition_of_completes hcompletes
    have hend : (taleOf j l.tid m.view.history).isExecuted = true :=
      isExecuted_mono ((List.suffix_cons l before).trans hsuffix)
        ((hh l before hsuffix).2 expected code text hop)
    have htold : taleOf j l.tid m.view.history ≠ .silent := by
      intro hsilent
      rw [hsilent] at hend
      exact absurd hend (by simp [Tale.isExecuted])
    rw [← ht l.tid (seenBy_starts hh htold)]
    exact hend

set_option maxRecDepth 100000 in
/-- The sample plan is executed after one request to the model. -/
theorem journal_of_job_completed :
    ∃ (m : State) (tale : Tale), (platform (Sample.parts Sample.plan)).Reach
        (start (Sample.parts Sample.plan)) m ∧
      tale.Sound ∧ tale.isExecuted = true ∧
      journal (m.view.state.db.eventsOf Sample.job) = tale.lines ∧
      tale.lines = (Tale.executed false 1).lines := by
  obtain ⟨m, hm, hgood⟩ := Sample.reached (Sample.parts Sample.plan) (Sample.running 15)
    (fun m => m.status Sample.job = some .completed &&
      journal (m.view.state.db.eventsOf Sample.job) = (Tale.executed false 1).lines)
    (by decide +kernel)
  obtain ⟨hdone, hlines⟩ := (Bool.and_eq_true _ _).mp hgood
  obtain ⟨tale, hsound, hjournal, hend⟩ := journal_of_job _ hm Sample.job
  exact ⟨m, tale, hm, hsound, hend (of_decide_eq_true hdone), hjournal,
    hjournal.symm.trans (of_decide_eq_true hlines)⟩

end CliExecutionPlatform
