/-
The database: its three tables, and the transactions of the repositories.

`Db` holds the tables together with what their constraints guarantee: keys are
unique, event numbers only grow.  `DbOp` lists the transactions; `DbOp.run` is
what each of them does when it commits.  A transaction that fails is rolled
back, so that it leaves the tables alone; failures are added in `Platform.lean`.

* `Db.updateJob`, `Db.insert`, `Db.log`, `Db.addArtifacts` — the writes from
  which transactions are built, with their effect on one job's rows;
* `DbOp.run_transition`, `run_recoverOne`, `run_saveActionPlan`, ... — one
  lemma for each transaction: everything it can do;
* `DbOp.run_frame` — a transaction changes the rows of one job only;
* `DbOp.run_log_grows` — the log of a job only ever gets longer.
-/
import CliExecutionPlatform.Models

namespace CliExecutionPlatform

/-! ### Tables -/

/-- The rows of new events, numbered from `next` on. -/
def stampEvents (now : ℕ) (j : Uuid) : ℕ → List (EventType × String) → List EventRow
  | _, [] => []
  | next, (type, message) :: rest =>
    ⟨next, j, type, message, now⟩ :: stampEvents now j (next + 1) rest

theorem mem_stampEvents {now next : ℕ} {j : Uuid} {rows : List (EventType × String)}
    {ev : EventRow} (h : ev ∈ stampEvents now j next rows) :
    ev.jobId = j ∧ next ≤ ev.id ∧ ev.id < next + rows.length := by
  induction rows generalizing next with
  | nil => exact absurd h List.not_mem_nil
  | cons row rest ih =>
    rw [stampEvents, List.mem_cons] at h
    rw [List.length_cons]
    rcases h with rfl | h
    · exact ⟨rfl, Nat.le_refl _, by show next < _; omega⟩
    · obtain ⟨hj, hlo, hhi⟩ := ih h
      exact ⟨hj, by omega, by omega⟩

theorem pairwise_stampEvents (now : ℕ) (j : Uuid) (next : ℕ)
    (rows : List (EventType × String)) :
    (stampEvents now j next rows).Pairwise fun a b => a.id < b.id := by
  induction rows generalizing next with
  | nil => exact .nil
  | cons row rest ih =>
    rw [stampEvents]
    refine .cons ?_ (ih (next + 1))
    intro ev hev
    have := (mem_stampEvents hev).2.1
    show next < ev.id
    omega

/-- The tables `jobs`, `event_logs` and `artifacts`.  Events stand in the order
of their numbers. -/
structure Db where
  job : Uuid → Option JobRow
  jobIds : List Uuid
  events : List EventRow
  nextEventId : ℕ
  artifacts : List ArtifactRow
  mem_jobIds : ∀ j, j ∈ jobIds ↔ (job j).isSome
  pos : 0 < nextEventId
  sorted : events.Pairwise fun a b => a.id < b.id
  numbered : ∀ ev ∈ events, 0 < ev.id ∧ ev.id < nextEventId
  unique : (artifacts.map ArtifactRow.id).Nodup

namespace Db

/-- The tables after `create_all`. -/
def empty : Db where
  job := fun _ => none
  jobIds := []
  events := []
  nextEventId := 1
  artifacts := []
  mem_jobIds := by simp
  pos := Nat.one_pos
  sorted := .nil
  numbered := by simp
  unique := .nil

/-- The log of one job, in the order of the event numbers. -/
def eventsOf (db : Db) (j : Uuid) : List EventRow := db.events.filter fun ev => ev.jobId = j

/-- The artifact rows of one job. -/
def artifactsOf (db : Db) (j : Uuid) : List ArtifactRow :=
  db.artifacts.filter fun a => a.jobId = j

/-- The status of a job, if the job exists. -/
def status (db : Db) (j : Uuid) : Option Status := (db.job j).map JobRow.status

/-- `UPDATE jobs SET ... WHERE id = j`. -/
def updateJob (db : Db) (j : Uuid) (f : JobRow → JobRow) : Db where
  __ := db
  job := fun k => if k = j then (db.job j).map f else db.job k
  mem_jobIds := by
    intro k
    rw [db.mem_jobIds k]
    by_cases h : k = j
    · rw [if_pos h, h, Option.isSome_map]
    · rw [if_neg h]

/-- `INSERT INTO jobs`, for a key that is not in use. -/
def insert (db : Db) (j : Uuid) (row : JobRow) : Db where
  __ := db
  job := fun k => if k = j then some row else db.job k
  jobIds := db.jobIds ++ [j]
  mem_jobIds := by
    intro k
    rw [List.mem_append, List.mem_singleton, db.mem_jobIds k]
    by_cases h : k = j
    · rw [if_pos h]
      exact ⟨fun _ => rfl, fun _ => .inr h⟩
    · rw [if_neg h]
      exact ⟨fun h' => h'.resolve_right h, .inl⟩

/-- `INSERT INTO event_logs`, after `skip` numbers that transactions which were
rolled back have used up. -/
def log (db : Db) (skip now : ℕ) (j : Uuid) (rows : List (EventType × String)) : Db where
  __ := db
  events := db.events ++ stampEvents now j (db.nextEventId + skip) rows
  nextEventId := db.nextEventId + skip + rows.length
  pos := Nat.lt_of_lt_of_le db.pos (by omega)
  sorted := by
    rw [List.pairwise_append]
    refine ⟨db.sorted, pairwise_stampEvents _ _ _ _, ?_⟩
    intro a ha b hb
    have h₁ := (db.numbered a ha).2
    have h₂ := (mem_stampEvents hb).2.1
    omega
  numbered := by
    intro ev hev
    rcases List.mem_append.mp hev with h | h
    · have := db.numbered ev h
      omega
    · have h₁ := (mem_stampEvents h).2
      have h₂ := db.pos
      omega

/-- `INSERT INTO artifacts`: refused if a key is in use. -/
def addArtifacts (db : Db) (rows : List ArtifactRow) : Option Db :=
  if h : ((db.artifacts ++ rows).map ArtifactRow.id).Nodup then
    some { db with artifacts := db.artifacts ++ rows, unique := h }
  else none

section Effects

variable (db : Db) (j k : Uuid)

@[simp] theorem job_updateJob (f : JobRow → JobRow) :
    (db.updateJob j f).job k = if k = j then (db.job j).map f else db.job k := rfl

@[simp] theorem eventsOf_updateJob (f : JobRow → JobRow) :
    (db.updateJob j f).eventsOf k = db.eventsOf k := rfl

@[simp] theorem artifactsOf_updateJob (f : JobRow → JobRow) :
    (db.updateJob j f).artifactsOf k = db.artifactsOf k := rfl

@[simp] theorem job_insert (row : JobRow) :
    (db.insert j row).job k = if k = j then some row else db.job k := rfl

@[simp] theorem eventsOf_insert (row : JobRow) :
    (db.insert j row).eventsOf k = db.eventsOf k := rfl

@[simp] theorem artifactsOf_insert (row : JobRow) :
    (db.insert j row).artifactsOf k = db.artifactsOf k := rfl

@[simp] theorem job_log (skip now : ℕ) (rows : List (EventType × String)) :
    (db.log skip now j rows).job k = db.job k := rfl

@[simp] theorem artifactsOf_log (skip now : ℕ) (rows : List (EventType × String)) :
    (db.log skip now j rows).artifactsOf k = db.artifactsOf k := rfl

theorem eventsOf_log (skip now : ℕ) (rows : List (EventType × String)) :
    (db.log skip now j rows).eventsOf j =
      db.eventsOf j ++ stampEvents now j (db.nextEventId + skip) rows := by
  rw [eventsOf, log, List.filter_append, eventsOf]
  congr 1
  rw [List.filter_eq_self]
  intro ev hev
  exact decide_eq_true (mem_stampEvents hev).1

variable {j k}

theorem eventsOf_log_ne (h : k ≠ j) (skip now : ℕ) (rows : List (EventType × String)) :
    (db.log skip now j rows).eventsOf k = db.eventsOf k := by
  rw [eventsOf, log, List.filter_append, eventsOf]
  have hnone : (stampEvents now j (db.nextEventId + skip) rows).filter
      (fun ev => ev.jobId = k) = [] := by
    rw [List.filter_eq_nil_iff]
    intro ev hev
    rw [(mem_stampEvents hev).1]
    simpa using Ne.symm h
  rw [hnone, List.append_nil]

/-- New events come last. -/
theorem eventsOf_log_grows (k : Uuid) (skip now : ℕ) (rows : List (EventType × String)) :
    db.eventsOf k <+: (db.log skip now j rows).eventsOf k := by
  rw [eventsOf, eventsOf, log, List.filter_append]
  exact List.prefix_append _ _

variable {db} {db' : Db} {rows : List ArtifactRow}

theorem addArtifacts_eq (h : db.addArtifacts rows = some db') :
    db'.job = db.job ∧ db'.events = db.events ∧ db'.artifacts = db.artifacts ++ rows := by
  rw [addArtifacts] at h
  by_cases hn : ((db.artifacts ++ rows).map ArtifactRow.id).Nodup
  · rw [dif_pos hn, Option.some_inj] at h
    rw [← h]
    exact ⟨rfl, rfl, rfl⟩
  · rw [dif_neg hn] at h
    exact absurd h (by simp)

end Effects

end Db

/-! ### Transactions -/

/-- What `OrchestratorRepository.get_job` returns. -/
structure JobRecord where
  id : Uuid
  parentJobId : Option Uuid
  prompt : String
  status : Status

/-- An artifact row that has been flushed in a session but not committed. -/
structure ArtifactDraft where
  id : Uuid
  relativePath : String
  filename : String
  contentType : String
  deriving DecidableEq

/-- The row that a draft of job `j` becomes. -/
def ArtifactDraft.row (j : Uuid) (d : ArtifactDraft) : ArtifactRow :=
  ⟨d.id, j, d.relativePath, d.filename, d.contentType⟩

/-- The database operations of the repositories and services.  `logEvents` is
`db.add_all(records); db.commit()` on a session of its own; `flushArtifact`,
`commitArtifacts` and `rollbackSession` act on the session of an attempt. -/
inductive DbOp
  | getJob (j : Uuid)
  | transition (j : Uuid) (expected : List Status) (target : Status) (code : EventCode)
      (message : String)
  | appendEvent (j : Uuid) (code : EventCode) (message : String)
  | saveActionPlan (j : Uuid) (actions : List Action)
  | scanStale (cutoff : ℕ)
  | recoverOne (j : Uuid) (cutoff : ℕ)
  | insertJob (prompt : String) (parent : Option Uuid)
  | logEvents (j : Uuid) (rows : List (EventType × String))
  | flushArtifact (j : Uuid) (relativePath filename contentType : String)
  | commitArtifacts (j : Uuid) (drafts : List ArtifactDraft)
  | rollbackSession (j : Uuid)

namespace DbOp

/-- What an operation returns. -/
@[reducible] def Val : DbOp → Type
  | getJob _ => Option JobRecord
  | transition _ _ _ _ _ => Bool
  | appendEvent _ _ _ => Unit
  | saveActionPlan _ _ => Unit
  | scanStale _ => List Uuid
  | recoverOne _ _ => Bool
  | insertJob _ _ => Uuid
  | logEvents _ _ => Unit
  | flushArtifact _ _ _ _ => ArtifactDraft
  | commitArtifacts _ _ => Unit
  | rollbackSession _ => Unit

/-- The message that `_recover_one` logs. -/
def staleMessage : String := "Job failed after interrupted process recovery."

/-- A row that refers to a job that does not exist is refused. -/
def integrityError : Exn := .database "IntegrityError" "constraint violated"

/-- The widths of the columns `relative_path`, `filename` and `content_type`. -/
def pathWidth : ℕ := 500
def nameWidth : ℕ := 255
def typeWidth : ℕ := 100

/-- A text that is longer than its column is wide is refused. -/
def dataError (width : ℕ) : Exn :=
  .database "DataError" ("value too long for type character varying(" ++ toString width ++ ")")

/-- The columns of an artifact row, in the order in which their widths are checked. -/
def artifactColumns (relativePath filename contentType : String) : List (String × ℕ) :=
  [(relativePath, pathWidth), (filename, nameWidth), (contentType, typeWidth)]

/-- The first text that does not fit into its column. -/
def tooWide (columns : List (String × ℕ)) : Option (String × ℕ) :=
  columns.find? fun c => c.2 < c.1.length

/-- `SET status = target, updated_at = now()`. -/
def setStatus (now : ℕ) (target : Status) (row : JobRow) : JobRow :=
  { row with status := target, updatedAt := now }

/-- The operations.  `now` is the time of the transaction, `skip` the event
numbers lost to other transactions and `fresh` the identifier that a new row
gets; a new job needs one that no job has. -/
def run (now skip : ℕ) (fresh : Uuid) : (o : DbOp) → Db → Option (Except Exn o.Val × Db)
  | getJob j, db =>
    some (.ok ((db.job j).map fun row => ⟨j, row.parentJobId, row.prompt, row.status⟩), db)
  | transition j expected target code message, db =>
    match db.job j with
    | some row =>
      if row.status ∈ expected then
        some (.ok true, (db.updateJob j (setStatus now target)).log
          skip now j [(.systemEvent, code.message message)])
      else some (.ok false, db)
    | none => some (.ok false, db)
  | appendEvent j code message, db =>
    if (db.job j).isSome then
      some (.ok (), db.log skip now j [(.systemEvent, code.message message)])
    else some (.error integrityError, db)
  | saveActionPlan j actions, db =>
    match db.job j with
    | some row =>
      if row.status = .running then
        some (.ok (), db.updateJob j fun r =>
          { r with actionPlan := some actions, updatedAt := now })
      else some (.error (.runtime "Job is not RUNNING while saving action plan."), db)
    | none => some (.error (.runtime "Job is not RUNNING while saving action plan."), db)
  | scanStale cutoff, db =>
    some (.ok (db.jobIds.filter fun j =>
      (db.job j).any fun row => row.status = .running ∧ row.updatedAt < cutoff), db)
  | recoverOne j cutoff, db =>
    match db.job j with
    | some row =>
      if row.status = .running ∧ row.updatedAt < cutoff then
        some (.ok true, (db.updateJob j (setStatus now .failed)).log
          skip now j [(.systemEvent, EventCode.staleJobRecovered.message staleMessage)])
      else some (.ok false, db)
    | none => some (.ok false, db)
  | insertJob prompt parent, db =>
    match db.job fresh with
    | none => some (.ok fresh, db.insert fresh ⟨parent, prompt, .created, none, now⟩)
    | some _ => none
  | logEvents j rows, db =>
    if (db.job j).isSome then some (.ok (), db.log skip now j rows)
    else some (.error integrityError, db)
  | flushArtifact j relativePath filename contentType, db =>
    match tooWide (artifactColumns relativePath filename contentType) with
    | some column => some (.error (dataError column.2), db)
    | none =>
      if (db.job j).isSome then some (.ok ⟨fresh, relativePath, filename, contentType⟩, db)
      else some (.error integrityError, db)
  | commitArtifacts j drafts, db =>
    match db.addArtifacts (drafts.map (ArtifactDraft.row j)) with
    | some db' => some (.ok (), db')
    | none => some (.error integrityError, db)
  -- flushed rows have never been visible to others
  | rollbackSession _, db => some (.ok (), db)

/-! ### Everything a transaction can do -/

section Cases

variable {now skip : ℕ} {fresh j : Uuid} {db db' : Db}

theorem run_transition {expected : List Status} {target : Status} {code : EventCode}
    {message : String} {r : Except Exn Bool}
    (h : (transition j expected target code message).run now skip fresh db = some (r, db')) :
    (∃ row, db.job j = some row ∧ row.status ∈ expected ∧ r = .ok true ∧
      db' = (db.updateJob j (setStatus now target)).log skip now j
        [(.systemEvent, code.message message)]) ∨
    ((∀ row, db.job j = some row → row.status ∉ expected) ∧ r = .ok false ∧ db' = db) := by
  rw [run] at h
  rcases hrow : db.job j with _ | row
  · rw [hrow] at h
    obtain ⟨rfl, rfl⟩ := Prod.mk.inj (Option.some.inj h)
    exact .inr ⟨by simp, rfl, rfl⟩
  · simp only [hrow] at h
    by_cases hin : row.status ∈ expected
    · rw [if_pos hin] at h
      obtain ⟨rfl, rfl⟩ := Prod.mk.inj (Option.some.inj h)
      exact .inl ⟨row, rfl, hin, rfl, rfl⟩
    · rw [if_neg hin] at h
      obtain ⟨rfl, rfl⟩ := Prod.mk.inj (Option.some.inj h)
      refine .inr ⟨fun row' hrow' => ?_, rfl, rfl⟩
      rwa [← Option.some.inj hrow']

theorem run_recoverOne {cutoff : ℕ} {r : Except Exn Bool}
    (h : (recoverOne j cutoff).run now skip fresh db = some (r, db')) :
    (∃ row, db.job j = some row ∧ row.status = .running ∧ row.updatedAt < cutoff ∧
      r = .ok true ∧ db' = (db.updateJob j (setStatus now .failed)).log skip now j
        [(.systemEvent, EventCode.staleJobRecovered.message staleMessage)]) ∨
    ((∀ row, db.job j = some row → ¬ (row.status = .running ∧ row.updatedAt < cutoff)) ∧
      r = .ok false ∧ db' = db) := by
  rw [run] at h
  rcases hrow : db.job j with _ | row
  · rw [hrow] at h
    obtain ⟨rfl, rfl⟩ := Prod.mk.inj (Option.some.inj h)
    exact .inr ⟨by simp, rfl, rfl⟩
  · simp only [hrow] at h
    by_cases hin : row.status = .running ∧ row.updatedAt < cutoff
    · rw [if_pos hin] at h
      obtain ⟨rfl, rfl⟩ := Prod.mk.inj (Option.some.inj h)
      exact .inl ⟨row, rfl, hin.1, hin.2, rfl, rfl⟩
    · rw [if_neg hin] at h
      obtain ⟨rfl, rfl⟩ := Prod.mk.inj (Option.some.inj h)
      refine .inr ⟨fun row' hrow' => ?_, rfl, rfl⟩
      rwa [← Option.some.inj hrow']

theorem run_saveActionPlan {actions : List Action} {r : Except Exn Unit}
    (h : (saveActionPlan j actions).run now skip fresh db = some (r, db')) :
    (∃ row, db.job j = some row ∧ row.status = .running ∧ r = .ok () ∧
      db' = db.updateJob j fun row => { row with actionPlan := some actions, updatedAt := now }) ∨
    ((∀ row, db.job j = some row → row.status ≠ .running) ∧
      r = .error (.runtime "Job is not RUNNING while saving action plan.") ∧ db' = db) := by
  rw [run] at h
  rcases hrow : db.job j with _ | row
  · rw [hrow] at h
    obtain ⟨rfl, rfl⟩ := Prod.mk.inj (Option.some.inj h)
    exact .inr ⟨by simp, rfl, rfl⟩
  · simp only [hrow] at h
    by_cases hin : row.status = .running
    · rw [if_pos hin] at h
      obtain ⟨rfl, rfl⟩ := Prod.mk.inj (Option.some.inj h)
      exact .inl ⟨row, rfl, hin, rfl, rfl⟩
    · rw [if_neg hin] at h
      obtain ⟨rfl, rfl⟩ := Prod.mk.inj (Option.some.inj h)
      refine .inr ⟨fun row' hrow' => ?_, rfl, rfl⟩
      rwa [← Option.some.inj hrow']

theorem run_logEvents {rows : List (EventType × String)} {r : Except Exn Unit}
    (h : (logEvents j rows).run now skip fresh db = some (r, db')) :
    (r = .ok () ∧ db' = db.log skip now j rows) ∨ (r = .error integrityError ∧ db' = db) := by
  rw [run] at h
  by_cases hj : (db.job j).isSome
  · rw [if_pos hj] at h
    obtain ⟨rfl, rfl⟩ := Prod.mk.inj (Option.some.inj h)
    exact .inl ⟨rfl, rfl⟩
  · rw [if_neg hj] at h
    obtain ⟨rfl, rfl⟩ := Prod.mk.inj (Option.some.inj h)
    exact .inr ⟨rfl, rfl⟩

/-- `append_event` is the log of one system event. -/
theorem run_appendEvent {code : EventCode} {message : String} {r : Except Exn Unit}
    (h : (appendEvent j code message).run now skip fresh db = some (r, db')) :
    (r = .ok () ∧ db' = db.log skip now j [(.systemEvent, code.message message)]) ∨
      (r = .error integrityError ∧ db' = db) :=
  @run_logEvents now skip fresh j db db' _ r h

theorem run_insertJob {prompt : String} {parent : Option Uuid} {r : Except Exn Uuid}
    (h : (insertJob prompt parent).run now skip fresh db = some (r, db')) :
    db.job fresh = none ∧ r = .ok fresh ∧
      db' = db.insert fresh ⟨parent, prompt, .created, none, now⟩ := by
  rw [run] at h
  rcases hrow : db.job fresh with _ | row
  · rw [hrow] at h
    obtain ⟨rfl, rfl⟩ := Prod.mk.inj (Option.some.inj h)
    exact ⟨rfl, rfl, rfl⟩
  · rw [hrow] at h
    exact absurd h (by simp)

theorem run_flushArtifact {rel name type : String} {r : Except Exn ArtifactDraft}
    (h : (flushArtifact j rel name type).run now skip fresh db = some (r, db')) :
    db' = db ∧ (r = .ok ⟨fresh, rel, name, type⟩ ∨ ∃ x, r = .error x) := by
  rw [run] at h
  rcases hwide : tooWide (artifactColumns rel name type) with _ | column
  · simp only [hwide] at h
    by_cases hj : (db.job j).isSome
    · rw [if_pos hj] at h
      obtain ⟨rfl, rfl⟩ := Prod.mk.inj (Option.some.inj h)
      exact ⟨rfl, .inl rfl⟩
    · rw [if_neg hj] at h
      obtain ⟨rfl, rfl⟩ := Prod.mk.inj (Option.some.inj h)
      exact ⟨rfl, .inr ⟨_, rfl⟩⟩
  · simp only [hwide] at h
    obtain ⟨rfl, rfl⟩ := Prod.mk.inj (Option.some.inj h)
    exact ⟨rfl, .inr ⟨_, rfl⟩⟩

theorem run_commitArtifacts {drafts : List ArtifactDraft} {r : Except Exn Unit}
    (h : (commitArtifacts j drafts).run now skip fresh db = some (r, db')) :
    (r = .ok () ∧ db'.job = db.job ∧ db'.events = db.events ∧
      db'.artifacts = db.artifacts ++ drafts.map (ArtifactDraft.row j)) ∨
    (r = .error integrityError ∧ db' = db) := by
  rw [run] at h
  rcases hadd : db.addArtifacts (drafts.map (ArtifactDraft.row j)) with _ | db₁
  · rw [hadd] at h
    obtain ⟨rfl, rfl⟩ := Prod.mk.inj (Option.some.inj h)
    exact .inr ⟨rfl, rfl⟩
  · rw [hadd] at h
    obtain ⟨rfl, rfl⟩ := Prod.mk.inj (Option.some.inj h)
    exact .inl ⟨rfl, Db.addArtifacts_eq hadd⟩

end Cases

/-! ### The job that a transaction affects -/

/-- The job whose rows a transaction may change. -/
def affects : (o : DbOp) → Except Exn o.Val → Option Uuid
  | transition j _ _ _ _, _ | appendEvent j _ _, _ | saveActionPlan j _, _
  | recoverOne j _, _ | logEvents j _, _ | commitArtifacts j _, _ => some j
  | insertJob _ _, .ok j => some j
  | insertJob _ _, .error _ => none
  | getJob _, _ | scanStale _, _ | flushArtifact _ _ _ _, _ | rollbackSession _, _ => none

/-- The rows of one job are the same in both databases. -/
def SameRows (k : Uuid) (db db' : Db) : Prop :=
  db'.job k = db.job k ∧ db'.artifactsOf k = db.artifactsOf k ∧ db'.eventsOf k = db.eventsOf k

theorem SameRows.refl (k : Uuid) (db : Db) : SameRows k db db := ⟨rfl, rfl, rfl⟩

section Rows

variable {db : Db} {j k : Uuid}

theorem sameRows_updateJob (h : k ≠ j) (f : JobRow → JobRow) :
    SameRows k db (db.updateJob j f) := by
  refine ⟨?_, rfl, rfl⟩
  rw [Db.job_updateJob, if_neg h]

theorem sameRows_log (h : k ≠ j) (db₀ : Db) (skip now : ℕ) (rows : List (EventType × String))
    (hdb : SameRows k db db₀) : SameRows k db (db₀.log skip now j rows) :=
  ⟨hdb.1, hdb.2.1, (db₀.eventsOf_log_ne h skip now rows).trans hdb.2.2⟩

end Rows

/-- A transaction leaves the rows of every other job alone. -/
theorem run_frame {now skip : ℕ} {fresh k : Uuid} {o : DbOp} {db db' : Db}
    {r : Except Exn o.Val} (h : o.run now skip fresh db = some (r, db'))
    (hk : o.affects r ≠ some k) : SameRows k db db' := by
  -- A transaction writes rows of the job that it affects and no others.
  cases o with
  | getJob j =>
    obtain ⟨-, rfl⟩ := Prod.mk.inj (Option.some.inj h)
    exact .refl k _
  | scanStale cutoff =>
    obtain ⟨-, rfl⟩ := Prod.mk.inj (Option.some.inj h)
    exact .refl k _
  | rollbackSession j =>
    obtain ⟨-, rfl⟩ := Prod.mk.inj (Option.some.inj h)
    exact .refl k _
  | transition j expected target code message =>
    have hne : k ≠ j := fun heq => hk (congrArg some heq.symm)
    rcases run_transition h with ⟨row, -, -, -, rfl⟩ | ⟨-, -, rfl⟩
    · exact sameRows_log hne _ _ _ _ (sameRows_updateJob hne _)
    · exact .refl k _
  | appendEvent j code message =>
    have hne : k ≠ j := fun heq => hk (congrArg some heq.symm)
    rcases run_appendEvent h with ⟨-, rfl⟩ | ⟨-, rfl⟩
    · exact sameRows_log hne _ _ _ _ (.refl k _)
    · exact .refl k _
  | saveActionPlan j actions =>
    have hne : k ≠ j := fun heq => hk (congrArg some heq.symm)
    rcases run_saveActionPlan h with ⟨row, -, -, -, rfl⟩ | ⟨-, -, rfl⟩
    · exact sameRows_updateJob hne _
    · exact .refl k _
  | recoverOne j cutoff =>
    have hne : k ≠ j := fun heq => hk (congrArg some heq.symm)
    rcases run_recoverOne h with ⟨row, -, -, -, -, rfl⟩ | ⟨-, -, rfl⟩
    · exact sameRows_log hne _ _ _ _ (sameRows_updateJob hne _)
    · exact .refl k _
  | insertJob prompt parent =>
    obtain ⟨-, rfl, rfl⟩ := run_insertJob h
    have hne : k ≠ fresh := fun heq => hk (congrArg some heq.symm)
    refine ⟨?_, rfl, rfl⟩
    rw [Db.job_insert, if_neg hne]
  | logEvents j rows =>
    have hne : k ≠ j := fun heq => hk (congrArg some heq.symm)
    rcases run_logEvents h with ⟨-, rfl⟩ | ⟨-, rfl⟩
    · exact sameRows_log hne _ _ _ _ (.refl k _)
    · exact .refl k _
  | flushArtifact j rel name type =>
    obtain ⟨rfl, -⟩ := run_flushArtifact h
    exact .refl k _
  | commitArtifacts j drafts =>
    have hne : k ≠ j := fun heq => hk (congrArg some heq.symm)
    rcases run_commitArtifacts h with ⟨-, hjob, hevents, harts⟩ | ⟨-, rfl⟩
    · refine ⟨by rw [hjob], ?_, by rw [Db.eventsOf, Db.eventsOf, hevents]⟩
      rw [Db.artifactsOf, Db.artifactsOf, harts, List.filter_append]
      have hnone : (drafts.map (ArtifactDraft.row j)).filter (fun a => a.jobId = k) = [] := by
        rw [List.filter_eq_nil_iff]
        intro a ha
        obtain ⟨d, -, rfl⟩ := List.mem_map.mp ha
        show ¬ decide (j = k) = true
        simpa using Ne.symm hne
      rw [hnone, List.append_nil]
    · exact .refl k _

/-- **The log of a job grows at its end.** -/
theorem run_log_grows {now skip : ℕ} {fresh : Uuid} {o : DbOp} {db db' : Db}
    {r : Except Exn o.Val} (h : o.run now skip fresh db = some (r, db')) (k : Uuid) :
    db.eventsOf k <+: db'.eventsOf k := by
  cases o with
  | getJob j =>
    obtain ⟨-, rfl⟩ := Prod.mk.inj (Option.some.inj h)
    exact List.prefix_rfl
  | scanStale cutoff =>
    obtain ⟨-, rfl⟩ := Prod.mk.inj (Option.some.inj h)
    exact List.prefix_rfl
  | rollbackSession j =>
    obtain ⟨-, rfl⟩ := Prod.mk.inj (Option.some.inj h)
    exact List.prefix_rfl
  | transition j expected target code message =>
    rcases run_transition h with ⟨row, -, -, -, rfl⟩ | ⟨-, -, rfl⟩
    · exact Db.eventsOf_log_grows (db.updateJob j _) k _ _ _
    · exact List.prefix_rfl
  | appendEvent j code message =>
    rcases run_appendEvent h with ⟨-, rfl⟩ | ⟨-, rfl⟩
    · exact Db.eventsOf_log_grows db k _ _ _
    · exact List.prefix_rfl
  | saveActionPlan j actions =>
    rcases run_saveActionPlan h with ⟨row, -, -, -, rfl⟩ | ⟨-, -, rfl⟩
    · exact List.prefix_rfl
    · exact List.prefix_rfl
  | recoverOne j cutoff =>
    rcases run_recoverOne h with ⟨row, -, -, -, -, rfl⟩ | ⟨-, -, rfl⟩
    · exact Db.eventsOf_log_grows (db.updateJob j _) k _ _ _
    · exact List.prefix_rfl
  | insertJob prompt parent =>
    obtain ⟨-, -, rfl⟩ := run_insertJob h
    exact List.prefix_rfl
  | logEvents j rows =>
    rcases run_logEvents h with ⟨-, rfl⟩ | ⟨-, rfl⟩
    · exact Db.eventsOf_log_grows db k _ _ _
    · exact List.prefix_rfl
  | flushArtifact j rel name type =>
    obtain ⟨rfl, -⟩ := run_flushArtifact h
    exact List.prefix_rfl
  | commitArtifacts j drafts =>
    rcases run_commitArtifacts h with ⟨-, -, hevents, -⟩ | ⟨-, rfl⟩
    · rw [Db.eventsOf, Db.eventsOf, hevents]
    · exact List.prefix_rfl

end DbOp

end CliExecutionPlatform
