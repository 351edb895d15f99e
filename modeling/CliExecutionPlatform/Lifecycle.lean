/-
The life of a job: how its status can change, and who may run it.

Five writers set the status (start, completion, failure, queue timeout and
stale recovery), each with its own set of expected statuses, and any number of
them can be interleaved.  What one operation can do to the status of a job is
said once, by `exec_status`; everything else follows from it by induction over
runs of the platform.

* `exec_status` — every operation keeps the status of a job, creates the job,
  starts it or finishes it;
* `StartedOnce` — at most one successful start, none while the job is `CREATED`;
* `statusHistory` — the statuses of a job along a run, without repetitions;
* `status_lifecycle` — the history is a path of the life cycle, terminal
  statuses are final, and at most one run of a job plans and executes.
-/
import CliExecutionPlatform.Footprint
import Mathlib.Data.List.Destutter

open Files Process

namespace CliExecutionPlatform

/-! ### What an operation does to a status -/

/-- The arrows of the life cycle. -/
def Status.Next : Status → Status → Prop
  | .created, .running | .created, .failed | .running, .completed | .running, .failed => True
  | _, _ => False

/-- The operation has moved job `j` from `CREATED` to `RUNNING`. -/
def starts (j : Uuid) : (o : Op) → Res o → Bool
  | .db (.transition k _ .running _ _), .ok true => k = j
  | _, _ => false

/-- The change of a job's status by one operation, and whether the operation
was a start. -/
inductive StatusStep : Option Status → Option Status → Bool → Prop
  | keep (s : Option Status) : StatusStep s s false
  | insert : StatusStep none (some .created) false
  | start : StatusStep (some .created) (some .running) true
  | finish {s s' : Status} (h : s.Next s') (hs : s'.terminal) :
      StatusStep (some s) (some s') false

/-- Statuses are set along `statusEdges` only. -/
def Op.Lawful : Op → Prop
  | .db (.transition _ expected target _ _) => (expected, target) ∈ statusEdges
  | _ => True

theorem Call.lawful {c : Call} {o : Op} (h : c.ops o) : o.Lawful := by
  cases o with
  | fs o => trivial
  | sys o => trivial
  | db o =>
    cases o with
    | transition k expected target code message =>
      cases c with
      | run server j => exact h.2
      | _ => exact absurd h id
    | _ => trivial

section Exec

variable {base : Path} {e : Env} {j : Uuid}

theorem status_log {db : Db} {skip now : ℕ} {k : Uuid} {rows : List (EventType × String)} :
    (db.log skip now k rows).status j = db.status j := rfl

theorem status_setStatus {db : Db} {row : JobRow} (h : db.job j = some row) (now : ℕ)
    (target : Status) : (db.updateJob j (DbOp.setStatus now target)).status j = some target := by
  rw [Db.status, Db.job_updateJob, if_pos rfl, h]
  rfl

theorem status_eq {db : Db} {row : JobRow} (h : db.job j = some row) :
    db.status j = some row.status := by
  rw [Db.status, h]
  rfl

/-- A successful transition along an edge follows an arrow of the life cycle. -/
theorem next_of_edge {expected : List Status} {s target : Status}
    (hedge : (expected, target) ∈ statusEdges) (hs : s ∈ expected) :
    (s = .created ∧ target = .running) ∨ (s.Next target ∧ target.terminal = true) := by
  simp only [statusEdges, List.mem_cons, Prod.mk.injEq, List.not_mem_nil, or_false] at hedge
  rcases hedge with ⟨rfl, rfl⟩ | ⟨rfl, rfl⟩ | ⟨rfl, rfl⟩ | ⟨rfl, rfl⟩
  · exact .inl ⟨List.mem_singleton.mp hs, rfl⟩
  · rw [List.mem_singleton.mp hs]
    exact .inr ⟨trivial, rfl⟩
  · rw [List.mem_singleton.mp hs]
    exact .inr ⟨trivial, rfl⟩
  · rcases List.mem_pair.mp hs with rfl | rfl <;> exact .inr ⟨trivial, rfl⟩

theorem transition_status {expected : List Status} {target : Status} {code : EventCode}
    {message : String} {now skip : ℕ} {fresh : Uuid} {db db' : Db} {r : Except Exn Bool}
    (hedge : (expected, target) ∈ statusEdges)
    (h : (DbOp.transition j expected target code message).run now skip fresh db = some (r, db')) :
    StatusStep (db.status j) (db'.status j)
      (starts j (.db (.transition j expected target code message)) r) := by
  rcases DbOp.run_transition h with ⟨row, hrow, hin, rfl, rfl⟩ | ⟨-, rfl, rfl⟩
  · rw [status_log, status_setStatus hrow, status_eq hrow]
    rcases next_of_edge hedge hin with ⟨hs, rfl⟩ | ⟨hnext, hterm⟩
    · have hstarts : starts j (.db (.transition j expected .running code message)) (.ok true) =
        true := decide_eq_true rfl
      rw [hstarts, hs]
      exact .start
    · cases target with
      | completed => exact .finish hnext rfl
      | failed => exact .finish hnext rfl
      | created => exact absurd hterm (by decide)
      | running => exact absurd hterm (by decide)
  · cases target <;> exact .keep _

/-- An operation that does not affect a job does not start it. -/
theorem starts_eq_false {o : Op} {r : Res o} (h : o.affects r ≠ some j) :
    starts j o r = false := by
  by_contra hs
  rw [Bool.not_eq_false] at hs
  unfold starts at hs
  split at hs
  · exact h (congrArg some (of_decide_eq_true hs))
  · exact absurd hs (by simp)

theorem starts_error (o : Op) (exn : Exn) : starts j o (.error exn) = false := by
  unfold starts
  split
  · rename_i heq
    exact absurd heq (by simp)
  · rfl

/-- What a transaction can do to the status of a job. -/
theorem DbOp.exec_status {o : DbOp} {db db' : Db} {r : Except Exn o.Val}
    (hlaw : (Op.db o).Lawful) (h : o.exec e db = some (r, db')) :
    StatusStep (db.status j) (db'.status j) (starts j (.db o) r) := by
  by_cases haff : o.affects r = some j
  · rcases DbOp.exec_cases h with h | ⟨⟨name, detail, rfl⟩, rfl⟩
    · cases o with
      | transition k expected target code message =>
        obtain rfl : k = j := Option.some.inj haff
        exact transition_status hlaw h
      | recoverOne k cutoff =>
        obtain rfl : k = j := Option.some.inj haff
        rcases run_recoverOne h with ⟨row, hrow, hs, -, -, rfl⟩ | ⟨-, -, rfl⟩
        · rw [status_log, status_setStatus hrow, status_eq hrow, hs]
          exact .finish trivial rfl
        · exact .keep _
      | insertJob prompt parent =>
        obtain ⟨hnone, rfl, rfl⟩ := run_insertJob h
        obtain rfl : e.fresh = j := Option.some.inj haff
        rw [Db.status, hnone, Db.status, Db.job_insert, if_pos rfl]
        exact .insert
      | appendEvent k code message =>
        rcases run_appendEvent h with ⟨-, rfl⟩ | ⟨-, rfl⟩ <;> exact .keep _
      | logEvents k rows =>
        rcases run_logEvents h with ⟨-, rfl⟩ | ⟨-, rfl⟩ <;> exact .keep _
      | saveActionPlan k actions =>
        obtain rfl : k = j := Option.some.inj haff
        rcases run_saveActionPlan h with ⟨row, hrow, -, -, rfl⟩ | ⟨-, -, rfl⟩
        · rw [status_eq hrow, Db.status, Db.job_updateJob, if_pos rfl, hrow]
          exact .keep _
        · exact .keep _
      | commitArtifacts k drafts =>
        rcases run_commitArtifacts h with ⟨-, hjob, -⟩ | ⟨-, rfl⟩
        · rw [Db.status, Db.status, hjob]
          exact .keep _
        · exact .keep _
      | getJob k => exact absurd haff (by simp [DbOp.affects])
      | scanStale cutoff => exact absurd haff (by simp [DbOp.affects])
      | flushArtifact k rel name type => exact absurd haff (by simp [DbOp.affects])
      | rollbackSession k => exact absurd haff (by simp [DbOp.affects])
    · -- a transaction that fails is rolled back
      rw [starts_error]
      exact .keep _
  · have hsame := (DbOp.exec_frame h haff).1
    rw [Db.status, Db.status, hsame, starts_eq_false (o := .db o) haff]
    exact .keep _

/-- **What one operation can do to the status of a job.** -/
theorem exec_status {o : Op} {w w' : World} {r : Res o} (hlaw : o.Lawful)
    (h : exec base e o w = some (r, w')) :
    StatusStep (w.db.status j) (w'.db.status j) (starts j o r) := by
  cases o with
  | db o =>
    obtain ⟨db, hrun, rfl⟩ := exec_db h
    exact DbOp.exec_status hlaw hrun
  | fs o =>
    obtain ⟨fs, -, rfl⟩ := exec_fs h
    exact .keep _
  | sys o =>
    rw [SysOp.exec_db h]
    exact .keep _

end Exec

/-! ### Runs -/

section Runs

variable {parts : Parts} {j : Uuid}

/-- The status of job `j` in a state of the platform. -/
def State.status (j : Uuid) (m : State) : Option Status := m.view.state.db.status j

/-- How often job `j` has been started. -/
def startCount (j : Uuid) (h : List (Label Op Res)) : ℕ := h.countP fun l => starts j l.op l.res

/-- What one step of the platform means for the status of a job. -/
theorem step_status {m m' : State} (hm : (platform parts).Reach (start parts) m)
    (h : (platform parts).Step m m') : ∃ b, StatusStep (m.status j) (m'.status j) b ∧
      startCount j m'.view.history = startCount j m.view.history + if b then 1 else 0 := by
  cases h with
  | invoke c _ => exact ⟨false, .keep _, rfl⟩
  | perform t c o k e r s ht he =>
    have hcalls := System.Reach.calls (body_calls parts) hm ht
    refine ⟨starts j o r, exec_status (Call.lawful hcalls.head) he, ?_⟩
    exact List.countP_cons

/-- A terminal status stays. -/
theorem StatusStep.eq_of_terminal {s : Status} {s' : Option Status} {b : Bool}
    (h : StatusStep (some s) s' b) (hs : s.terminal) : s' = some s := by
  cases h with
  | keep => rfl
  | start => exact absurd hs (by decide)
  | finish hnext _ =>
    cases s with
    | completed => exact absurd hnext id
    | failed => exact absurd hnext id
    | created => exact absurd hs (by decide)
    | running => exact absurd hs (by decide)

/-- The job was started at most once, and not at all before it is running. -/
def StartedOnce (j : Uuid) (m : State) : Prop :=
  startCount j m.view.history ≤ 1 ∧
    (m.status j = none ∨ m.status j = some .created → startCount j m.view.history = 0)

theorem startedOnce {m : State} (hm : (platform parts).Reach (start parts) m) :
    StartedOnce j m := by
  induction hm with
  | refl => exact ⟨Nat.zero_le 1, fun _ => rfl⟩
  | tail hm hstep ih =>
    obtain ⟨hle, hzero⟩ := ih
    obtain ⟨b, hstatus, hcount⟩ := @step_status parts j _ _ hm hstep
    rw [StartedOnce, hcount]
    generalize State.status j _ = s at hstatus hzero
    generalize State.status j _ = s' at hstatus
    cases hstatus with
    | keep => exact ⟨hle, hzero⟩
    | insert => exact ⟨hle, fun _ => hzero (.inl rfl)⟩
    | start =>
      have h₀ := hzero (.inr rfl)
      refine ⟨?_, by simp⟩
      rw [if_pos rfl]
      omega
    | @finish s s' hnext hterm =>
      refine ⟨hle, fun h => ?_⟩
      -- a terminal status is neither missing nor `CREATED`
      rcases h with h | h
      · exact absurd h (by simp)
      · rw [Option.some.inj h] at hterm
        exact absurd hterm (by decide)

theorem terminal_final {m m' : State} {s : Status} (hs : s.terminal)
    (hm : (platform parts).Reach (start parts) m) (h : (platform parts).Reach m m')
    (hstatus : m.status j = some s) : m'.status j = some s := by
  induction h with
  | refl => exact hstatus
  | @tail m₁ m₂ hreach hstep ih =>
    obtain ⟨b, hchange, -⟩ := @step_status parts j _ _ (hm.trans hreach) hstep
    rw [ih] at hchange
    exact hchange.eq_of_terminal hs

/-! ### The history of a status -/

/-- The statuses that a job has had along a run, without repetitions. -/
def statusHistory (j : Uuid) (ms : List State) : List Status :=
  (ms.filterMap (State.status j)).destutter (· ≠ ·)

/-- The complete lives of a job. -/
def lifePaths : List (List Status) :=
  [[.created, .running, .completed], [.created, .running, .failed], [.created, .failed]]

/-- What can still follow from a status on, the status included. -/
def pathsFrom : Option Status → List (List Status)
  | none | some .created => lifePaths
  | some .running => [[.running, .completed], [.running, .failed]]
  | some .completed => [[.completed]]
  | some .failed => [[.failed]]

theorem statusHistory_singleton {m : State} {s : Status} (hs : m.status j = some s) :
    statusHistory j [m] = [s] := by
  rw [statusHistory, List.filterMap_cons, hs]
  rfl

theorem statusHistory_same {m m' : State} {ms : List State} {s : Status}
    (hs : m.status j = some s) (hs' : m'.status j = some s) :
    statusHistory j (m :: m' :: ms) = statusHistory j (m' :: ms) := by
  rw [statusHistory, statusHistory, List.filterMap_cons, List.filterMap_cons, hs, hs']
  show List.destutter _ (s :: s :: _) = _
  rw [List.destutter_cons_cons, if_neg (not_not.mpr rfl)]
  rfl

theorem statusHistory_change {m m' : State} {ms : List State} {s s' : Status}
    (hs : m.status j = some s) (hs' : m'.status j = some s') (hne : s ≠ s') :
    statusHistory j (m :: m' :: ms) = s :: statusHistory j (m' :: ms) := by
  rw [statusHistory, statusHistory, List.filterMap_cons, List.filterMap_cons, hs, hs']
  show List.destutter _ (s :: s' :: _) = _
  rw [List.destutter_cons_cons, if_pos hne]
  rfl

theorem statusHistory_of_none {m : State} {ms : List State} (hs : m.status j = none) :
    statusHistory j (m :: ms) = statusHistory j ms := by
  rw [statusHistory, statusHistory, List.filterMap_cons, hs]

theorem Status.Next.ne {s s' : Status} (h : s.Next s') : s ≠ s' := by
  rintro rfl
  cases s <;> exact absurd h id

/-- An arrow leads to the rest of a path. -/
theorem cons_mem_pathsFrom {s s' : Status} {path : List Status} (h : s.Next s')
    (hpath : path ∈ pathsFrom (some s')) : s :: path ∈ pathsFrom (some s) := by
  revert path
  cases s <;> cases s' <;> first | exact absurd h id | decide

/-- Whatever follows from a reachable state on is the beginning of a path from
its status. -/
theorem statusHistory_from {m : State} {ms : List State}
    (hm : (platform parts).Reach (start parts) m)
    (hrun : List.IsChain (platform parts).Step (m :: ms)) :
    ∃ path ∈ pathsFrom (m.status j), statusHistory j (m :: ms) <+: path := by
  -- induction on the rest of the run, with any reachable first state
  induction ms generalizing m with
  | nil =>
    rcases hs : m.status j with _ | s
    · rw [statusHistory_of_none hs]
      exact ⟨[.created, .failed], by decide, List.nil_prefix⟩
    · rw [statusHistory_singleton hs]
      cases s with
      | created => exact ⟨[.created, .failed], by decide, by decide⟩
      | running => exact ⟨[.running, .failed], by decide, by decide⟩
      | completed => exact ⟨[.completed], by decide, by decide⟩
      | failed => exact ⟨[.failed], by decide, by decide⟩
  | cons m' ms ih =>
    obtain ⟨hstep, hrest⟩ := List.isChain_cons_cons.mp hrun
    obtain ⟨path, hpath, hpre⟩ := ih (hm.tail hstep) hrest
    obtain ⟨b, hchange, -⟩ := @step_status parts j _ _ hm hstep
    rcases hs : m.status j with _ | s
    · -- the job did not exist: the history is that of the rest
      rw [statusHistory_of_none hs]
      rw [hs] at hchange
      refine ⟨path, ?_, hpre⟩
      generalize State.status j m' = s' at hchange hpath
      cases hchange <;> exact hpath
    · rcases hs' : m'.status j with _ | s'
      · rw [hs, hs'] at hchange
        cases hchange
      · have hnext : s = s' ∨ s.Next s' := by
          rw [hs, hs'] at hchange
          cases hchange with
          | keep => exact .inl rfl
          | start => exact .inr trivial
          | finish hnext _ => exact .inr hnext
        rw [hs'] at hpath
        rcases hnext with rfl | hnext
        · rw [statusHistory_same hs hs']
          exact ⟨path, hpath, hpre⟩
        · rw [statusHistory_change hs hs' hnext.ne]
          exact ⟨s :: path, cons_mem_pathsFrom hnext hpath, List.cons_prefix_cons.mpr ⟨rfl, hpre⟩⟩

/-! ### Who plans and executes -/

/-- The operations that enter the planning: a request to the language model or
the beginning of an attempt. -/
def Op.plans : Op → Prop
  | .sys (.generatePlan _) | .fs (.beginAttempt _) => True
  | _ => False

/-- Thread `t` is a run of job `j` that has asked the language model or has
begun an attempt. -/
def Entered (m : State) (j : Uuid) (t : ℕ) : Prop :=
  ∃ server p, m.threads[t]? = some (.run server j, p) ∧
    ∃ l ∈ m.view.history, l.tid = t ∧ l.op.plans

/-- Before its start has succeeded, a run does not plan. -/
theorem runInSlot_until_start (server : ℕ) :
    Until (fun o => ¬ o.plans) (fun o r => starts j o r = true)
      (JobOrchestratorService.runInSlot parts server j).run := by
  refine ⟨id, fun r => ?_⟩
  rcases r with exn | started
  · exact .inr trivial
  · cases started with
    | true => exact .inl (decide_eq_true rfl)
    | false => exact .inr trivial

theorem run_until_start (server : ℕ) :
    Until (fun o => ¬ o.plans) (fun o r => starts j o r = true)
      ((platform parts).body (.run server j)) := by
  have quiet : ∀ {o : Op}, ¬ o.plans → Until (fun o => ¬ o.plans)
      (fun o r => starts j o r = true) (perform o).run := fun h => until_of_calls (calls_op h)
  have hrun : Until (fun o => ¬ o.plans) (fun o r => starts j o r = true)
      (JobOrchestratorService.run parts server j).run := by
    refine until_tryExcept (until_bindE (quiet id) fun _ => ?_) fun _ =>
      until_bindE (quiet id) fun _ => trivial
    exact until_tryFinally (runInSlot_until_start server) (until_of_calls (calls_attemptOnly id))
  exact until_bindE hrun fun _ => trivial

/-- A run that has planned has started the job. -/
theorem started_of_entered {m : State} {t : ℕ} (hm : (platform parts).Reach (start parts) m)
    (h : Entered m j t) : ∃ l ∈ m.view.history, l.tid = t ∧ starts j l.op l.res = true := by
  obtain ⟨server, p, ht, l, hl, htid, hplans⟩ := h
  rcases (System.Reach.until (run_until_start server) hm).2 t p ht with hstarted | ⟨-, hall⟩
  · exact hstarted
  · exact absurd hplans (hall l hl htid)

theorem eq_of_countP_le_one {α : Type} {p : α → Bool} {l : List α} (h : l.countP p ≤ 1) {a b : α}
    (ha : a ∈ l) (hb : b ∈ l) (hpa : p a = true) (hpb : p b = true) : a = b := by
  rw [List.countP_eq_length_filter] at h
  have ha' := List.mem_filter.mpr ⟨ha, hpa⟩
  have hb' := List.mem_filter.mpr ⟨hb, hpb⟩
  match hl : l.filter p, h, ha', hb' with
  | [], _, ha', _ => exact absurd ha' List.not_mem_nil
  | [c], _, ha', hb' => rw [List.mem_singleton.mp ha', List.mem_singleton.mp hb']
  | _ :: _ :: _, h, _, _ => exact absurd h (by simp)

/-- **The life cycle.**  Along every run of the platform, whatever calls are
made and however their operations interleave and fail: the statuses of a job
follow the life cycle, a terminal status is never left, the job is started at
most once, and at most one of its runs ever asks the language model or begins
an attempt. -/
theorem status_lifecycle (parts : Parts) (j : Uuid) {ms : List State}
    (hrun : List.IsChain (platform parts).Step (start parts :: ms)) :
    (∃ path ∈ lifePaths, statusHistory j (start parts :: ms) <+: path) ∧
      (start parts :: ms).Pairwise (fun m m' =>
        ∀ s, m.status j = some s → s.terminal → m'.status j = some s) ∧
      ∀ m ∈ start parts :: ms, startCount j m.view.history ≤ 1 ∧
        ∀ t t', Entered m j t → Entered m j t' → t = t' := by
  have hreach := System.reach_of_isChain hrun
  refine ⟨statusHistory_from .refl hrun, ?_, fun m hm => ?_⟩
  · have hpair := List.isChain_iff_pairwise.mp
      (hrun.imp fun _ _ h => Relation.ReflTransGen.single h)
    exact hpair.imp_of_mem fun hm _ h s hs hterm => terminal_final hterm (hreach _ hm) h hs
  · have honce := (@startedOnce parts j m (hreach m hm)).1
    refine ⟨honce, fun t t' ht ht' => ?_⟩
    obtain ⟨l, hl, rfl, hs⟩ := started_of_entered (hreach m hm) ht
    obtain ⟨l', hl', rfl, hs'⟩ := started_of_entered (hreach m hm) ht'
    rw [eq_of_countP_le_one honce hl hl' hs hs']

end Runs

/-! ### A small deployment -/

namespace Sample

def job : Uuid := ⟨1⟩

/-- Nothing fails, every new identifier is `job`. -/
def calm : Env where
  fault := none
  cancel := false
  timedOut := false
  now := 0
  skip := 0
  fresh := job
  pid := 1
  traversal := Traversal.id
  damage := fun _ => .left (FileTree.ofBase [])
  answer := .ok ""
  behaviour := fun _ _ => ⟨[], .exited 0, []⟩

/-- The database refuses the transaction. -/
def refused : Env := { calm with fault := some ⟨"OperationalError", "database is locked"⟩ }

def refusal : Exn := .database "OperationalError" "database is locked"

/-- Every answer of the language model is the same plan. -/
def parts (plan : List Action) : Parts where
  base := ["srv"]
  binary := "openscad"
  parse := fun _ => .ok plan
  scadValidate := fun _ => .ok ()
  runtimeFeedback := fun _ => ""
  guessType := fun _ => none
  decode := fun _ => "output"
  repr := id

/-- Write a file and make it an artifact. -/
def plan : List Action := [.writeFile "a.txt" "hi", .createArtifact "a.txt"]

/-- A world that holds nothing but the job. -/
def withJob : View World Op Res where
  state := { World.initial ["srv"] with
    db := Db.empty.insert job ⟨none, "make a part", .running, none, 0⟩ }
  history := []

/-- Create the job. -/
def created : List (System.Move Env Call) :=
  .invoke (.create "make a part") :: List.replicate 6 (.perform 0 calm)

/-- Create the job and run it, up to and including the given number of
operations of the run. -/
def running (n : ℕ) : List (System.Move Env Call) :=
  created ++ .invoke (.run 0 job) :: List.replicate n (.perform 1 calm)

/-- What an evaluated schedule says about runs. -/
theorem reached (deployment : Parts) (schedule : List (System.Move Env Call))
    (good : State → Bool)
    (h : ((platform deployment).moves schedule (start deployment)).any good = true) :
    ∃ m, (platform deployment).Reach (start deployment) m ∧ good m = true := by
  obtain ⟨m, hm, hgood⟩ := (Option.any_eq_true _ _).mp h
  exact ⟨m, System.reach_of_moves hm, hgood⟩

/-- The same for a schedule in two parts. -/
theorem reached_then (deployment : Parts) (first second : List (System.Move Env Call))
    (good : State → State → Bool)
    (h : (((platform deployment).moves first (start deployment)).any fun m =>
      ((platform deployment).moves second m).any (good m)) = true) :
    ∃ m m', (platform deployment).Reach (start deployment) m ∧
      (platform deployment).Reach m m' ∧ good m m' = true := by
  obtain ⟨m, hm, h⟩ := (Option.any_eq_true _ _).mp h
  obtain ⟨m', hm', hgood⟩ := (Option.any_eq_true _ _).mp h
  exact ⟨m, m', System.reach_of_moves hm, System.reach_of_moves hm', hgood⟩

end Sample

set_option maxRecDepth 100000 in
theorem status_lifecycle_sample :
    statusHistory Sample.job (start (Sample.parts Sample.plan) ::
        (platform (Sample.parts Sample.plan)).visits (Sample.running 15)
          (start (Sample.parts Sample.plan))) = [.created, .running, .completed] ∧
      ∃ path ∈ lifePaths, statusHistory Sample.job (start (Sample.parts Sample.plan) ::
        (platform (Sample.parts Sample.plan)).visits (Sample.running 15)
          (start (Sample.parts Sample.plan))) <+: path :=
  ⟨by decide +kernel, (status_lifecycle (Sample.parts Sample.plan) Sample.job
    (System.isChain_visits _ _)).1⟩

end CliExecutionPlatform
