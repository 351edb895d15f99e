/-
Stale recovery counts and marks exactly.

`recover_stale` reads the identifiers of the stale jobs in one transaction and then updates
the jobs one by one, each in a transaction that tests again whether the job is stale.
Between two of these transactions anything can happen: other recoveries may hold the same
identifiers, runs may start, refresh and end their jobs.  The job table at the beginning is
arbitrary.

* `SweepStep`, `exec_sweep` — everything that one transaction of a recovery can do;
* `exec_staleEvents` — an event `[STALE_JOB_RECOVERED]` is logged by a recovery only;
* `recoveries` — the jobs that were recovered; `nodup_recoveries` — each of them once;
* `sweepProtocol`, `sum_counts` — the counts that the calls return add up to their number;
* `exec_madeStale`, `again_after_return` — what a recovery can find after another one with
  the same cutoff has returned;
* **`stale_recovery_exact`** — all of this for every interleaving;
  `started_job_recovered_by_repetition` is a repeated call that does recover a job.
-/
import CliExecutionPlatform.Ended
import CliExecutionPlatform.RunResults
import CliExecutionPlatform.StatusLog
import Mathlib.Algebra.BigOperators.Group.Finset.Piecewise

open Files Process

namespace CliExecutionPlatform

/-! ### One transaction of a recovery -/

/-- Job `j` is one that `recover_stale` takes: it is `RUNNING` and was last written before
the cutoff. -/
def Stale (cutoff : ℕ) (j : Uuid) (w : World) : Prop :=
  ∃ row, w.db.job j = some row ∧ row.status = .running ∧ row.updatedAt < cutoff

/-- Job `j` was recovered: its row is `FAILED` with a new time, one event was appended to
its log, and nothing else has changed. -/
structure RecoveredIn (j : Uuid) (w w' : World) : Prop where
  row : ∃ row now, w.db.job j = some row ∧
    w'.db.job j = some { row with status := .failed, updatedAt := now }
  event : ∃ ev : EventRow, w'.db.eventsOf j = w.db.eventsOf j ++ [ev] ∧
    ev.eventType = .systemEvent ∧
    ev.message = "[STALE_JOB_RECOVERED] Job failed after interrupted process recovery."
  artifacts : w'.db.artifactsOf j = w.db.artifactsOf j
  others : ∀ k, k ≠ j → DbOp.SameRows k w.db w'.db
  rest : w' = { w with db := w'.db }

/-- What one operation of `recover_stale` does: the scan finds the stale jobs and changes
nothing; the update of a job that is stale recovers it, and that of any other job leaves
everything alone; so does an operation that the database refuses. -/
inductive SweepStep (cutoff : ℕ) (w : World) : (o : Op) → Res o → World → Prop
  | scanned (ids : List Uuid) (h : ∀ j, j ∈ ids ↔ Stale cutoff j w) :
      SweepStep cutoff w (.db (.scanStale cutoff)) (.ok ids) w
  | notScanned (x : Exn) : SweepStep cutoff w (.db (.scanStale cutoff)) (.error x) w
  | recovered (j : Uuid) (w' : World) (h : Stale cutoff j w) (h' : RecoveredIn j w w') :
      SweepStep cutoff w (.db (.recoverOne j cutoff)) (.ok true) w'
  | leftAlone (j : Uuid) (h : ¬ Stale cutoff j w) :
      SweepStep cutoff w (.db (.recoverOne j cutoff)) (.ok false) w
  | notUpdated (j : Uuid) (x : Exn) :
      SweepStep cutoff w (.db (.recoverOne j cutoff)) (.error x) w

section Exec

variable {base : Path} {e : Env} {cutoff : ℕ} {j : Uuid} {w w' : World}

theorem recoveredIn_of_row {row : JobRow} (hrow : w.db.job j = some row) (now skip : ℕ) :
    RecoveredIn j w { w with
      db := (w.db.updateJob j (DbOp.setStatus now .failed)).log skip now j
        [(.systemEvent, EventCode.staleJobRecovered.message DbOp.staleMessage)] } where
  row := by
    refine ⟨row, now, hrow, ?_⟩
    rw [Db.job_log, Db.job_updateJob, if_pos rfl, hrow]
    rfl
  event := by
    obtain ⟨ev, hev, htype, hmsg⟩ := @stampEvents_one j now (w.db.nextEventId + skip)
      .staleJobRecovered DbOp.staleMessage
    refine ⟨ev, ?_, htype, hmsg.trans (by decide)⟩
    rw [Db.eventsOf_log, Db.eventsOf_updateJob]
    exact congrArg _ hev
  artifacts := rfl
  others := fun k hk => DbOp.sameRows_log hk _ _ _ _ (DbOp.sameRows_updateJob hk _)
  rest := rfl

theorem exec_scanStale {r : Except Exn (List Uuid)}
    (h : exec base e (.db (.scanStale cutoff)) w = some (r, w')) :
    SweepStep cutoff w (.db (.scanStale cutoff)) r w' := by
  rcases exec_db_cases h with ⟨db, hrun, rfl⟩ | ⟨⟨name, detail, rfl⟩, rfl⟩
  · obtain ⟨rfl, rfl⟩ := Prod.mk.inj (Option.some.inj hrun)
    refine .scanned _ fun j => ?_
    rw [List.mem_filter, w.db.mem_jobIds, Option.any_eq_true]
    constructor
    · rintro ⟨-, row, hrow, hstale⟩
      exact ⟨row, hrow, of_decide_eq_true hstale⟩
    · rintro ⟨row, hrow, hstale⟩
      exact ⟨by rw [hrow]; rfl, row, hrow, decide_eq_true hstale⟩
  · exact .notScanned _

theorem exec_update {r : Except Exn Bool}
    (h : exec base e (.db (.recoverOne j cutoff)) w = some (r, w')) :
    SweepStep cutoff w (.db (.recoverOne j cutoff)) r w' := by
  rcases exec_db_cases h with ⟨db, hrun, rfl⟩ | ⟨⟨name, detail, rfl⟩, rfl⟩
  · rcases DbOp.run_recoverOne hrun with ⟨row, hrow, hs, htime, rfl, rfl⟩ | ⟨hnot, rfl, rfl⟩
    · exact .recovered j _ ⟨row, hrow, hs, htime⟩ (recoveredIn_of_row hrow _ _)
    · refine .leftAlone j ?_
      rintro ⟨row, hrow, hstale⟩
      exact hnot row hrow hstale
  · exact .notUpdated j _

/-- The operations of a recovery with this cutoff. -/
def Op.Sweeps (cutoff : ℕ) : Op → Prop
  | .db (.scanStale c) | .db (.recoverOne _ c) => c = cutoff
  | _ => False

/-- **Everything that one operation of a recovery can do.** -/
theorem exec_sweep {o : Op} {r : Res o} (ho : o.Sweeps cutoff)
    (h : exec base e o w = some (r, w')) : SweepStep cutoff w o r w' := by
  cases o with
  | fs o => exact absurd ho id
  | sys o => exact absurd ho id
  | db o =>
    cases o with
    | scanStale c =>
      obtain rfl : c = cutoff := ho
      exact exec_scanStale h
    | recoverOne j c =>
      obtain rfl : c = cutoff := ho
      exact exec_update h
    | _ => exact absurd ho id

/-- The scan finds the stale jobs. -/
theorem exec_scanned {ids : List Uuid}
    (h : exec base e (.db (.scanStale cutoff)) w = some (.ok ids, w')) :
    w' = w ∧ ∀ j, j ∈ ids ↔ Stale cutoff j w := by
  have hstep := exec_scanStale h
  cases hstep with
  | scanned _ hids => exact ⟨rfl, hids⟩

theorem stale_of_update (h : exec base e (.db (.recoverOne j cutoff)) w = some (.ok true, w')) :
    Stale cutoff j w := by
  have hstep := exec_update h
  cases hstep with
  | recovered _ _ hstale _ => exact hstale

theorem RecoveredIn.not_stale (h : RecoveredIn j w w') : ¬ Stale cutoff j w' := by
  rintro ⟨row', hrow', hs, -⟩
  obtain ⟨row, now, -, hafter⟩ := h.row
  rw [hafter] at hrow'
  rw [← Option.some.inj hrow'] at hs
  exact absurd hs (by simp)

/-- Right after an update that was answered, its job is not stale. -/
theorem not_stale_of_update {b : Bool}
    (h : exec base e (.db (.recoverOne j cutoff)) w = some (.ok b, w')) :
    ¬ Stale cutoff j w' := by
  have hstep := exec_update h
  cases hstep with
  | recovered _ _ _ h' => exact h'.not_stale
  | leftAlone _ hnot => exact hnot

end Exec

/-! ### The events of recoveries -/

/-- The job that an operation has recovered. -/
def Op.recovery : (o : Op) → Res o → Option Uuid
  | .db (.recoverOne j _), .ok true => some j
  | _, _ => none

theorem recovery_eq_some {o : Op} {r : Res o} {j : Uuid} :
    o.recovery r = some j ↔ recovers j o r = true := by
  cases o with
  | fs o => simp [Op.recovery, recovers]
  | sys o => simp [Op.recovery, recovers]
  | db o =>
    cases o with
    | recoverOne k cutoff => rcases r with x | _ | _ <;> simp [Op.recovery, recovers]
    | _ => simp [Op.recovery, recovers]

section Events

variable {base : Path} {e : Env} {j : Uuid} {w w' : World} {db db' : Db}

/-- The events of recoveries among these rows. -/
def staleEvents (rows : List EventRow) : ℕ := rows.countP (EventRow.marks · .staleJobRecovered)

theorem staleEvents_append (rows rows' : List EventRow) :
    staleEvents (rows ++ rows') = staleEvents rows + staleEvents rows' := List.countP_append

/-- One system event with another code. -/
theorem staleEvents_stamp {now next : ℕ} {code : EventCode} {text : String} :
    staleEvents (stampEvents now j next [(.systemEvent, code.message text)]) =
      if code = .staleJobRecovered then 1 else 0 := by
  obtain ⟨ev, hev, htype, hmsg⟩ := @stampEvents_one j now next code text
  have hmarks := marks_message htype hmsg .staleJobRecovered
  rw [hev, staleEvents, List.countP_singleton, hmarks]
  by_cases hcode : code = .staleJobRecovered
  · simp [hcode]
  · simp [hcode, Ne.symm hcode]

/-- Lines of output hold no such event. -/
theorem staleEvents_output {now next : ℕ} {rows : List (EventType × String)}
    (h : ∀ row ∈ rows, row.1 = .systemEvent → ∃ text, row.2 = EventCode.timeout.message text) :
    staleEvents (stampEvents now j next rows) = 0 := by
  induction rows generalizing next with
  | nil => rfl
  | cons row rest ih =>
    have hrest : staleEvents (stampEvents now j (next + 1) rest) = 0 :=
      ih fun row' hrow' => h row' (List.mem_cons_of_mem _ hrow')
    rw [stampEvents, staleEvents, List.countP_cons_of_neg]
    · exact hrest
    -- A system event of the runner reports a timeout.
    · by_cases htype : row.1 = .systemEvent
      · obtain ⟨text, hmsg⟩ := h row List.mem_cons_self htype
        rw [marks_message htype hmsg]
        decide
      · rw [marks_of_type htype]
        decide

/-- What a transaction of job `j` adds to the events of its recoveries. -/
theorem DbOp.run_staleEvents {o : DbOp} {r : Except Exn o.Val} {now skip : ℕ} {fresh : Uuid}
    (hchecked : (Op.db o).Checked) (haff : o.affects r = some j)
    (h : o.run now skip fresh db = some (r, db')) :
    staleEvents (db'.eventsOf j) =
      staleEvents (db.eventsOf j) + if (Op.db o).recovery r = some j then 1 else 0 := by
  -- Only the transactions that log something for the job need an argument.
  cases o with
  | transition k expected target code message =>
    obtain rfl : k = j := Option.some.inj haff
    have hcode : code ≠ .staleJobRecovered := by
      rintro rfl
      have hmem : (target, EventCode.staleJobRecovered) ∈ statusEvents := hchecked
      simp [statusEvents] at hmem
    rcases run_transition h with ⟨row, -, -, rfl, rfl⟩ | ⟨-, rfl, rfl⟩
    · rw [Db.eventsOf_log, Db.eventsOf_updateJob, staleEvents_append]
      exact congrArg _ (staleEvents_stamp.trans (if_neg hcode))
    · rfl
  | recoverOne k cutoff =>
    obtain rfl : k = j := Option.some.inj haff
    rcases run_recoverOne h with ⟨row, -, -, -, rfl, rfl⟩ | ⟨-, rfl, rfl⟩
    · rw [Db.eventsOf_log, Db.eventsOf_updateJob, staleEvents_append]
      refine congrArg _ (staleEvents_stamp.trans ?_)
      rw [if_pos rfl]
      exact (if_pos rfl).symm
    · rfl
  | appendEvent k code message =>
    obtain rfl : k = j := Option.some.inj haff
    have hcode : code ≠ .staleJobRecovered := by
      rintro rfl
      have hmem : EventCode.staleJobRecovered ∈ progressEvents := hchecked
      simp [progressEvents] at hmem
    rcases run_appendEvent h with ⟨-, rfl⟩ | ⟨-, rfl⟩
    · rw [Db.eventsOf_log, staleEvents_append]
      exact congrArg _ (staleEvents_stamp.trans (if_neg hcode))
    · rfl
  | logEvents k rows =>
    obtain rfl : k = j := Option.some.inj haff
    rcases run_logEvents h with ⟨-, rfl⟩ | ⟨-, rfl⟩
    · rw [Db.eventsOf_log, staleEvents_append]
      exact congrArg _ (staleEvents_output hchecked)
    · rfl
  | insertJob prompt parent =>
    obtain ⟨-, rfl, rfl⟩ := run_insertJob h
    rfl
  | saveActionPlan k actions =>
    rcases run_saveActionPlan h with ⟨row, -, -, -, rfl⟩ | ⟨-, -, rfl⟩ <;> rfl
  | commitArtifacts k drafts =>
    rcases run_commitArtifacts h with ⟨-, -, hevents, -⟩ | ⟨-, rfl⟩
    · rw [Db.eventsOf, Db.eventsOf, hevents]
      rfl
    · rfl
  | getJob k => exact absurd haff (by simp [DbOp.affects])
  | scanStale cutoff => exact absurd haff (by simp [DbOp.affects])
  | flushArtifact k rel name type => exact absurd haff (by simp [DbOp.affects])
  | rollbackSession k => exact absurd haff (by simp [DbOp.affects])

/-- An operation that recovers a job affects it. -/
theorem affects_of_recovery {o : Op} {r : Res o} (h : o.recovery r = some j) :
    o.affects r = some j := by
  unfold Op.recovery at h
  split at h
  · exact h
  · exact absurd h (by simp)

theorem recovery_error (o : Op) (x : Exn) : o.recovery (.error x) = none := by
  unfold Op.recovery
  split
  · rename_i hr
    exact absurd hr (by simp)
  · rfl

/-- **The events of recoveries.**  An operation logs one for the job that it recovers, and
none otherwise. -/
theorem exec_staleEvents {o : Op} {r : Res o} (hchecked : o.Checked)
    (h : exec base e o w = some (r, w')) :
    staleEvents (w'.db.eventsOf j) =
      staleEvents (w.db.eventsOf j) + if o.recovery r = some j then 1 else 0 := by
  by_cases haff : o.affects r = some j
  · cases o with
    | fs o =>
      rw [(exec_fs_held h).1]
      rfl
    | sys o =>
      rw [SysOp.exec_db h]
      rfl
    | db o =>
      rcases exec_db_cases h with ⟨db, hrun, rfl⟩ | ⟨⟨name, detail, rfl⟩, rfl⟩
      · exact DbOp.run_staleEvents hchecked haff hrun
      · rw [recovery_error]
        rfl
  -- The events of a job that is not affected stay as they are.
  · have hevents : w'.db.eventsOf j = w.db.eventsOf j := congrArg Cell.events (exec_frame h haff)
    rw [hevents, if_neg fun hrec => haff (affects_of_recovery hrec)]
    rfl

end Events

/-! ### The jobs that were recovered -/

/-- The jobs that were recovered, latest first. -/
def recoveries (h : History) : List Uuid := h.filterMap fun l => l.op.recovery l.res

/-- The jobs that thread `t` has recovered. -/
def recoveriesBy (t : ℕ) (h : History) : List Uuid := recoveries (h.filter fun l => l.tid = t)

theorem recoveries_cons (l : Label Op Res) (h : History) :
    recoveries (l :: h) = (l.op.recovery l.res).toList ++ recoveries h := by
  rw [recoveries, List.filterMap_cons]
  rcases l.op.recovery l.res with _ | j <;> rfl

theorem mem_recoveries {j : Uuid} {h : History} : j ∈ recoveries h ↔ Seen (recovers j) h := by
  simp only [recoveries, List.mem_filterMap, Seen, recovery_eq_some]

theorem recoveriesBy_own (t : ℕ) (o : Op) (r : Res o) (h : History) :
    recoveriesBy t (⟨t, o, r⟩ :: h) = (o.recovery r).toList ++ recoveriesBy t h := by
  rw [recoveriesBy, List.filter_cons_of_pos (by simp), recoveries_cons]
  rfl

theorem recoveriesBy_other {t : ℕ} {l : Label Op Res} (hl : l.tid ≠ t) (h : History) :
    recoveriesBy t (l :: h) = recoveriesBy t h := by
  rw [recoveriesBy, List.filter_cons_of_neg (by simpa using hl)]
  rfl

/-- Every recovery is that of one thread. -/
theorem sum_recoveriesBy {n : ℕ} {h : History} (hn : ∀ l ∈ h, l.tid < n) :
    ∑ t ∈ Finset.range n, (recoveriesBy t h).length = (recoveries h).length := by
  induction h with
  | nil => exact Finset.sum_eq_zero fun _ _ => rfl
  | cons l h ih =>
    -- The newest label counts for its own thread only.
    have hlen : ∀ t, (recoveriesBy t (l :: h)).length =
        (if l.tid = t then (l.op.recovery l.res).toList.length else 0) +
          (recoveriesBy t h).length := by
      intro t
      by_cases ht : l.tid = t
      · subst ht
        rw [if_pos rfl, recoveriesBy_own, List.length_append]
      · rw [if_neg ht, recoveriesBy_other ht, Nat.zero_add]
    rw [Finset.sum_congr rfl fun t _ => hlen t, Finset.sum_add_distrib, Finset.sum_ite_eq,
      if_pos (Finset.mem_range.mpr (hn l List.mem_cons_self)),
      ih fun l' hl' => hn l' (List.mem_cons_of_mem _ hl'), recoveries_cons, List.length_append]

section Runs

variable {parts : Parts} {w : World} {m : State}

/-- Only a running job is recovered. -/
theorem running_of_recovery {o : Op} {r : Res o} {base : Path} {e : Env} {j : Uuid}
    {w w' : World} (hrec : o.recovery r = some j) (h : exec base e o w = some (r, w')) :
    w.db.status j = some .running := by
  cases o with
  | fs o => exact absurd hrec (by simp [Op.recovery])
  | sys o => exact absurd hrec (by simp [Op.recovery])
  | db o =>
    cases o with
    | recoverOne k cutoff =>
      rcases exec_recoverOne h with ⟨rfl, hset⟩ | ⟨hne, -⟩
      · obtain rfl : k = j := Option.some.inj hrec
        exact hset.before
      · rcases r with x | _ | _
        · exact absurd hrec (by simp [Op.recovery])
        · exact absurd hrec (by simp [Op.recovery])
        · exact absurd rfl hne
    | _ => exact absurd hrec (by simp [Op.recovery])

/-- **Each job is recovered at most once.** -/
theorem nodup_recoveries (hm : (platform parts).Reach (System.initial w) m) :
    (recoveries m.view.history).Nodup := by
  induction hm with
  | refl => exact List.nodup_nil
  | @tail m m' hm hstep ih =>
    cases hstep with
    | invoke c _ => exact ih
    | perform t c o k e r s ht he =>
      rw [View.push_history, recoveries_cons]
      rcases hrec : o.recovery r with _ | j
      · exact ih
      · refine List.nodup_cons.mpr ⟨fun hmem => ?_, ih⟩
        -- the job would have failed before
        have hfailed := failed_of_recovered hm (mem_recoveries.mp hmem)
        have hrunning := running_of_recovery hrec he
        exact absurd (hrunning.symm.trans hfailed) (by simp)

/-- The events of the recoveries of a job are the recoveries. -/
theorem staleEvents_reach (hm : (platform parts).Reach (System.initial w) m) (j : Uuid) :
    staleEvents (State.events j m) =
      staleEvents (w.db.eventsOf j) + (recoveries m.view.history).count j := by
  induction hm with
  | refl => rfl
  | @tail m m' hm hstep ih =>
    cases hstep with
    | invoke c _ => exact ih
    | perform t c o k e r s ht he =>
      have hchecked := (System.Reach.calls (body_checked parts) hm ht).head
      have hevents := exec_staleEvents (j := j) hchecked he
      rw [State.events] at ih ⊢
      rw [View.push_state, hevents, ih, View.push_history, recoveries_cons, List.count_append]
      have hone : (o.recovery r).toList.count j = if o.recovery r = some j then 1 else 0 := by
        rcases o.recovery r with _ | k
        · rfl
        · simp [List.count_singleton]
      rw [hone]
      omega

end Runs

/-! ### The counts -/

/-- How far a recovery has come: what its scan has found, the jobs whose update was answered,
and how many of these it has recovered. -/
structure Sweep where
  found : Option (List Uuid)
  handled : List Uuid
  count : ℕ

namespace Sweep

/-- Before the scan. -/
def start : Sweep := ⟨none, [], 0⟩

def scan (q : Sweep) (ids : List Uuid) : Sweep := { q with found := some ids }

def update (q : Sweep) (j : Uuid) (recovered : Bool) : Sweep :=
  { q with handled := j :: q.handled, count := if recovered then q.count + 1 else q.count }

end Sweep

/-- The protocol of a recovery: one scan, then updates, all with the cutoff of the call. -/
def sweepProtocol (cutoff : ℕ) : Protocol Op Res Sweep where
  next q
    | .db (.scanStale _), .ok ids => q.scan ids
    | .db (.recoverOne j _), .ok recovered => q.update j recovered
    | _, _ => q
  allows q
    | .db (.scanStale c) => c = cutoff ∧ q.found = none
    | .db (.recoverOne _ c) => c = cutoff ∧ q.found ≠ none
    | _ => False

/-- What a recovery that returns `n` has done. -/
def Swept (r : Except Exn ℕ) (q : Sweep) : Prop :=
  ∀ n, r = .ok n → n = q.count ∧ ∃ ids, q.found = some ids ∧ ∀ j ∈ ids, j ∈ q.handled

section Sweep

variable {cutoff : ℕ}

theorem recoverAll_obeys {ids : List Uuid} (todo : List Uuid) (q : Sweep)
    (hfound : q.found = some ids) :
    Obeys (sweepProtocol cutoff)
      (fun r q' => ∀ n, r = .ok n → q'.count = q.count + n ∧ q'.found = q.found ∧
        (∀ j ∈ todo, j ∈ q'.handled) ∧ ∀ j ∈ q.handled, j ∈ q'.handled)
      (JobOrchestratorService.recoverAll cutoff todo).run q := by
  -- The loop over the identifiers that are still to do; `q` is the phase before it.
  induction todo generalizing q with
  | nil =>
    refine obeys_ret fun n hn => ?_
    obtain rfl : 0 = n := Except.ok.inj hn
    exact ⟨rfl, rfl, fun j hj => absurd hj List.not_mem_nil, fun _ hj => hj⟩
  | cons j rest ih =>
    refine obeys_bindE (R := fun r q' => ∀ b, r = .ok b → q' = q.update j b) ?_ ?_ ?_
    · refine obeys_op (P := sweepProtocol cutoff) (o := .db (.recoverOne j cutoff))
        ⟨rfl, by rw [hfound]; simp⟩ ?_
      rintro r b rfl
      rfl
    · intro recovered q' hq'
      rw [hq' recovered rfl]
      refine obeys_bindE (ih (q.update j recovered) hfound) ?_ fun _ _ _ _ hn => absurd hn (by simp)
      intro n q₂ hq₂
      obtain ⟨hcount, hfound₂, htodo, hkept⟩ := hq₂ n rfl
      refine obeys_ret fun n' hn' => ?_
      obtain rfl := Except.ok.inj hn'
      refine ⟨?_, hfound₂, ?_, fun i hi => hkept i (List.mem_cons_of_mem _ hi)⟩
      -- The result is the answer of this update plus the result of the rest.
      · rw [hcount]
        cases recovered with
        | false => rfl
        | true =>
          show q.count + 1 + n = q.count + (n + 1)
          omega
      · intro i hi
        rcases List.mem_cons.mp hi with rfl | hi
        · exact hkept i List.mem_cons_self
        · exact htodo i hi
    · exact fun _ _ _ _ hn => absurd hn (by simp)

/-- A recovery updates every job that its scan has found, and counts those it recovers. -/
theorem recoverStale_obeys :
    Obeys (sweepProtocol cutoff) Swept (JobOrchestratorService.recoverStale cutoff).run
      .start := by
  refine obeys_bindE (R := fun r q => ∀ ids, r = .ok ids → q = Sweep.start.scan ids) ?_ ?_ ?_
  · refine obeys_op (P := sweepProtocol cutoff) (o := .db (.scanStale cutoff)) ⟨rfl, rfl⟩ ?_
    rintro r ids rfl
    rfl
  -- The loop starts with nothing handled and the count zero.
  · intro ids q hq
    rw [hq ids rfl]
    refine (recoverAll_obeys ids _ rfl).mono ?_
    intro r q' hr n hn
    obtain ⟨hcount, hfound, htodo, -⟩ := hr n hn
    refine ⟨?_, ids, hfound, htodo⟩
    rw [hcount]
    exact (Nat.zero_add n).symm
  · exact fun _ _ _ _ hn => absurd hn (by simp)

/-- The protocol of a call: calls other than recoveries recover nothing. -/
def Call.sweep : Call → Protocol Op Res Sweep
  | .recover cutoff => sweepProtocol cutoff
  | _ => ⟨fun q _ _ => q, fun _ o => ∀ r, o.recovery r = none⟩

theorem Call.recovery_eq_none {c : Call} (hc : ∀ cutoff, c ≠ .recover cutoff) {o : Op}
    (ho : c.ops o) (r : Res o) : o.recovery r = none := by
  cases o with
  | fs o => rfl
  | sys o => rfl
  | db o =>
    cases o with
    | recoverOne j cutoff =>
      cases c with
      | recover cutoff' => exact absurd rfl (hc cutoff')
      | _ => exact absurd ho id
    | _ => rfl

/-- Every call follows its protocol, and a recovery tells what it has done. -/
theorem body_sweeps (parts : Parts) (c : Call) :
    Obeys c.sweep
      (fun r q => ∀ cutoff n, c = .recover cutoff → r = .ok (.recovered n) → Swept (.ok n) q)
      ((platform parts).body c) .start := by
  by_cases hc : ∃ cutoff, c = .recover cutoff
  · obtain ⟨cutoff, rfl⟩ := hc
    refine obeys_bindE recoverStale_obeys ?_ fun _ _ _ _ _ _ hr => absurd hr (by simp)
    intro n q hq
    refine obeys_ret fun _ n' _ hr => ?_
    obtain rfl := Reply.recovered.inj (Except.ok.inj hr)
    exact hq
  -- No other call has the operation that recovers.
  · have hne : ∀ cutoff, c ≠ .recover cutoff := fun cutoff h => hc ⟨cutoff, h⟩
    refine Obeys.mono (obeys_of_calls (body_calls parts c) fun o ho => ?_)
      fun _ _ _ cutoff _ h => absurd h (hne cutoff)
    have hnone := Call.recovery_eq_none hne ho
    cases c with
    | recover cutoff => exact absurd rfl (hne cutoff)
    | _ => exact ⟨hnone, fun _ => rfl⟩

end Sweep

section Counts

variable {parts : Parts} {w : World} {m : State}

/-- The phase of the thread `t` of a call after a history. -/
def sweepPhase (c : Call) (t : ℕ) (h : History) : Sweep := c.sweep.phase .start t h

/-- In every reachable state a recovery has counted what it has recovered, and the other
calls have recovered nothing. -/
theorem count_eq (hm : (platform parts).Reach (System.initial w) m) {t : ℕ} {c : Call}
    {p : Prog Op Res (Except Exn Reply)} (ht : m.threads[t]? = some (c, p)) :
    (sweepPhase c t m.view.history).count = (recoveriesBy t m.view.history).length ∧
      ((∀ cutoff, c ≠ .recover cutoff) → (recoveriesBy t m.view.history).length = 0) := by
  refine System.Reach.phase_view (P := Call.sweep) (body_sweeps parts)
    (J := fun c t q v => q.count = (recoveriesBy t v.history).length ∧
      ((∀ cutoff, c ≠ .recover cutoff) → (recoveriesBy t v.history).length = 0))
    ?_ ?_ ?_ hm ht
  -- A thread that has just been invoked has done nothing.
  · intro m c t _ hnew
    have hnone : recoveriesBy t m.view.history = [] := by
      rw [recoveriesBy, List.filter_eq_nil_iff.mpr fun l hl => by simpa using hnew l hl]
      rfl
    rw [hnone]
    exact ⟨rfl, fun _ => rfl⟩
  -- A step of the thread itself.
  · intro m c t q o k e r s _ _ hallows _ h
    rw [View.push_history, recoveriesBy_own, List.length_append, ← h.1]
    by_cases hc : ∃ cutoff, c = .recover cutoff
    · obtain ⟨cutoff, rfl⟩ := hc
      refine ⟨?_, fun hne => absurd rfl (hne cutoff)⟩
      cases o with
      | fs o => exact absurd hallows id
      | sys o => exact absurd hallows id
      | db o =>
        cases o with
        | scanStale c => rcases r with x | ids <;> exact (Nat.zero_add _).symm
        | recoverOne j c =>
          rcases r with x | _ | _
          · exact (Nat.zero_add _).symm
          · exact (Nat.zero_add _).symm
          · exact Nat.add_comm _ _
        | _ => exact absurd hallows id
    · have hne : ∀ cutoff, c ≠ .recover cutoff := fun cutoff h => hc ⟨cutoff, h⟩
      have hzero := h.2 hne
      cases c with
      | recover cutoff => exact absurd rfl (hne cutoff)
      | _ =>
        rw [hallows r]
        exact ⟨(Nat.zero_add _).symm, fun _ => by rw [h.1, hzero]; rfl⟩
  -- A step of another thread.
  · intro m m' c t q l _ _ hlabel hl h
    rw [hlabel, recoveriesBy_other hl]
    exact h

/-- The cutoff and the count of a recovery that has returned a count. -/
def Call.counted : Call × Prog Op Res (Except Exn Reply) → Option (ℕ × ℕ)
  | (.recover cutoff, .ret (.ok (.recovered n))) => some (cutoff, n)
  | _ => none

/-- The same for the thread `t`. -/
def State.counted (m : State) (t : ℕ) : Option (ℕ × ℕ) := m.threads[t]?.bind Call.counted

/-- The count that thread `t` has returned, zero if it has returned none. -/
def State.countOf (m : State) (t : ℕ) : ℕ := ((m.counted t).map Prod.snd).getD 0

theorem counted_eq_some {c : Call} {p : Prog Op Res (Except Exn Reply)} {cutoff n : ℕ}
    (h : Call.counted (c, p) = some (cutoff, n)) :
    c = .recover cutoff ∧ p = .ret (.ok (.recovered n)) := by
  unfold Call.counted at h
  split at h
  · rename_i heq
    obtain ⟨rfl, rfl⟩ := Prod.mk.inj (Option.some.inj h)
    exact Prod.mk.inj heq
  · exact absurd h (by simp)

theorem State.counted_eq_some {t cutoff n : ℕ} (h : m.counted t = some (cutoff, n)) :
    m.threads[t]? = some (.recover cutoff, .ret (.ok (.recovered n))) := by
  obtain ⟨⟨c, p⟩, ht, hc⟩ := Option.bind_eq_some_iff.mp h
  obtain ⟨rfl, rfl⟩ := CliExecutionPlatform.counted_eq_some hc
  exact ht

/-- What a recovery that has returned has done. -/
theorem swept_of_counted (hm : (platform parts).Reach (System.initial w) m) {t cutoff n : ℕ}
    (h : m.counted t = some (cutoff, n)) :
    Swept (.ok n) (sweepPhase (.recover cutoff) t m.view.history) :=
  (System.Reach.obeys (P := Call.sweep) (body_sweeps parts) hm
    (State.counted_eq_some h)).returned cutoff n rfl rfl

/-- **The counts add up.**  When every recovery has returned, the counts are together the
number of the jobs that were recovered. -/
theorem sum_counts (hm : (platform parts).Reach (System.initial w) m)
    (hall : ∀ t cutoff p, m.threads[t]? = some (.recover cutoff, p) → (m.counted t).isSome) :
    ∑ t ∈ Finset.range m.threads.length, m.countOf t = (recoveries m.view.history).length := by
  rw [← sum_recoveriesBy (System.Reach.recorded hm)]
  refine Finset.sum_congr rfl fun t ht => ?_
  obtain ⟨⟨c, p⟩, hthread⟩ : ∃ thread, m.threads[t]? = some thread :=
    ⟨_, List.getElem?_eq_getElem (Finset.mem_range.mp ht)⟩
  obtain ⟨hcount, hzero⟩ := count_eq hm hthread
  -- The count of a recovery is that of its thread; other threads have recovered nothing.
  by_cases hc : ∃ cutoff, c = .recover cutoff
  · obtain ⟨cutoff, rfl⟩ := hc
    obtain ⟨⟨cutoff', n⟩, hn⟩ := Option.isSome_iff_exists.mp (hall t cutoff p hthread)
    have hsame := (State.counted_eq_some hn).symm.trans hthread
    obtain ⟨hcall, -⟩ := Prod.mk.inj (Option.some.inj hsame)
    obtain rfl : cutoff' = cutoff := Call.recover.inj hcall
    rw [State.countOf, hn, ← hcount]
    exact (swept_of_counted hm hn n rfl).1
  · have hnone : m.counted t = none := by
      rw [State.counted, hthread]
      rcases hcounted : Call.counted (c, p) with _ | ⟨cutoff, n⟩
      · exact hcounted
      · exact absurd ⟨cutoff, (CliExecutionPlatform.counted_eq_some hcounted).1⟩ hc
    rw [State.countOf, hnone, hzero fun cutoff h => hc ⟨cutoff, h⟩]
    rfl

end Counts

/-! ### Repeated calls -/

/-- The transaction writes the time of job `j` while it is running: it starts the job or
saves its plan. -/
def Op.refreshes (j : Uuid) : Op → Prop
  | .db (.transition k _ target _ _) => k = j ∧ target = .running
  | .db (.saveActionPlan k _) => k = j
  | _ => False

/-- In one step job `j` was started, or its plan was saved, with a time before the cutoff,
and it was not stale before. -/
def MadeStale (parts : Parts) (cutoff : ℕ) (j : Uuid) (m m' : State) : Prop :=
  (∃ t o r, Performs parts t o r m m' ∧ o.refreshes j) ∧
    ¬ Stale cutoff j m.view.state ∧ Stale cutoff j m'.view.state

section Again

variable {parts : Parts} {cutoff : ℕ} {j : Uuid}

/-- What makes a job stale. -/
theorem exec_madeStale {base : Path} {e : Env} {o : Op} {r : Res o} {w w' : World}
    (h : exec base e o w = some (r, w')) (hbefore : ¬ Stale cutoff j w)
    (hafter : Stale cutoff j w') : o.refreshes j := by
  -- Staleness depends on the row only, so that the row has changed.
  have same : w'.db.job j ≠ w.db.job j := fun hrow => by
    rw [Stale, hrow] at hafter
    exact hbefore hafter
  by_cases haff : o.affects r = some j
  · obtain ⟨row', hrow', hs, -⟩ := hafter
    cases o with
    | fs o => exact absurd (by rw [(exec_fs_held h).1]) same
    | sys o => exact absurd (by rw [SysOp.exec_db h]) same
    | db o =>
      rcases exec_db_cases h with ⟨db, hrun, rfl⟩ | ⟨-, rfl⟩
      · cases o with
        | transition k expected target code message =>
          obtain rfl : k = j := Option.some.inj haff
          rcases DbOp.run_transition hrun with ⟨row, hrow, -, -, rfl⟩ | ⟨-, -, rfl⟩
          · refine ⟨rfl, ?_⟩
            rw [Db.job_log, Db.job_updateJob, if_pos rfl, hrow] at hrow'
            rw [← Option.some.inj hrow'] at hs
            exact hs
          · exact absurd rfl same
        -- A saved plan writes the time of the row, and keeps the status.
        | saveActionPlan k actions => exact Option.some.inj haff
        | recoverOne k cutoff' =>
          obtain rfl : k = j := Option.some.inj haff
          rcases DbOp.run_recoverOne hrun with ⟨row, hrow, -, -, -, rfl⟩ | ⟨-, -, rfl⟩
          · rw [Db.job_log, Db.job_updateJob, if_pos rfl, hrow] at hrow'
            rw [← Option.some.inj hrow'] at hs
            exact absurd hs (by simp [DbOp.setStatus])
          · exact absurd rfl same
        | insertJob prompt parent =>
          obtain ⟨-, rfl, rfl⟩ := DbOp.run_insertJob hrun
          obtain rfl : e.fresh = j := Option.some.inj haff
          rw [Db.job_insert, if_pos rfl] at hrow'
          rw [← Option.some.inj hrow'] at hs
          exact absurd hs (by simp)
        | appendEvent k code message =>
          rcases DbOp.run_appendEvent hrun with ⟨-, rfl⟩ | ⟨-, rfl⟩ <;> exact absurd rfl same
        | logEvents k rows =>
          rcases DbOp.run_logEvents hrun with ⟨-, rfl⟩ | ⟨-, rfl⟩ <;> exact absurd rfl same
        | commitArtifacts k drafts =>
          rcases DbOp.run_commitArtifacts hrun with ⟨-, hjob, -⟩ | ⟨-, rfl⟩
          · exact absurd (congrFun hjob j) same
          · exact absurd rfl same
        | getJob k => exact absurd haff (by simp [Op.affects, DbOp.affects])
        | scanStale c => exact absurd haff (by simp [Op.affects, DbOp.affects])
        | flushArtifact k rel name type => exact absurd haff (by simp [Op.affects, DbOp.affects])
        | rollbackSession k => exact absurd haff (by simp [Op.affects, DbOp.affects])
      · exact absurd rfl same
  · exact absurd (congrArg Cell.row (exec_frame h haff)) same

/-- Between a state in which a job is not stale and a later one in which it is, a step has
made it stale. -/
theorem exists_madeStale {m m' : State} (h : (platform parts).Reach m m')
    (hbefore : ¬ Stale cutoff j m.view.state) (hafter : Stale cutoff j m'.view.state) :
    ∃ m₁ m₂, (platform parts).Reach m m₁ ∧ MadeStale parts cutoff j m₁ m₂ ∧
      (platform parts).Reach m₂ m' := by
  induction h with
  | refl => exact absurd hafter hbefore
  | @tail m₁ m₂ hreach hstep ih =>
    -- The first step after which the job is stale until the end.
    by_cases hmid : Stale cutoff j m₁.view.state
    · obtain ⟨n₁, n₂, hn₁, hmade, hn₂⟩ := ih hmid
      exact ⟨n₁, n₂, hn₁, hmade, hn₂.tail hstep⟩
    · refine ⟨m₁, m₂, hreach, ⟨?_, hmid, hafter⟩, .refl⟩
      cases hstep with
      | invoke c _ => exact absurd hafter hmid
      | perform t c o k e r s ht he =>
        exact ⟨t, o, r, ⟨.perform m₁ t c o k e r s ht he, rfl⟩, exec_madeStale he hmid hafter⟩

/-- Before its scan a recovery has updated nothing. -/
theorem handled_of_not_found {w : World} {m : State}
    (hm : (platform parts).Reach (System.initial w) m) {t : ℕ} {c : Call}
    {p : Prog Op Res (Except Exn Reply)} (ht : m.threads[t]? = some (c, p)) :
    (sweepPhase c t m.view.history).found = none →
      (sweepPhase c t m.view.history).handled = [] := by
  refine System.Reach.phase_of_allows (P := Call.sweep) (body_sweeps parts) hm ht
    (J := fun _ q => q.found = none → q.handled = []) (fun _ _ => rfl) ?_
  intro c q o r hq hallows
  cases c with
  | recover cutoff =>
    cases o with
    | fs o => exact absurd hallows id
    | sys o => exact absurd hallows id
    | db o =>
      cases o with
      -- After the scan there is nothing to show.
      | scanStale c =>
        rcases r with x | ids
        · exact hq
        · exact fun hfound => absurd hfound (by simp [Call.sweep, sweepProtocol, Sweep.scan])
      | recoverOne j c =>
        rcases r with x | b
        · exact hq
        · exact fun hfound => absurd hfound hallows.2
      | _ => exact absurd hallows id
  | _ => exact hq

/-- The thread of a step was about to perform its operation. -/
theorem Performs.thread {t : ℕ} {o : Op} {r : Res o} {m m' : State}
    (h : Performs parts t o r m m') : ∃ c k, m.threads[t]? = some (c, .call o k) := by
  obtain ⟨hstep, hlabel⟩ := h
  cases hstep with
  | invoke c _ => exact absurd hlabel.symm (List.cons_ne_self _ _)
  | perform t' c o' k e r' s ht he =>
    have hhead := (List.cons.inj hlabel).1
    cases hhead
    exact ⟨c, k, ht⟩

/-- What a recovery has done since its scan: it has found these jobs, and for each job whose
update was answered there was a state in which the job was not stale. -/
def SinceScan (parts : Parts) (cutoff t : ℕ) (ids : List Uuid) (m₁ m : State) : Prop :=
  (sweepPhase (.recover cutoff) t m.view.history).found = some ids ∧
    ∀ j ∈ (sweepPhase (.recover cutoff) t m.view.history).handled,
      ∃ n, (platform parts).Reach m₁ n ∧ (platform parts).Reach n m ∧
        ¬ Stale cutoff j n.view.state

variable {w : World} {m₀ m₁ m₂ m₃ m₄ : State} {t : ℕ} {ids : List Uuid}

/-- A step of another thread, or one that answers no update. -/
theorem SinceScan.keep {m m' : State} (h : SinceScan parts cutoff t ids m₁ m)
    (hstep : (platform parts).Step m m')
    (hphase : sweepPhase (.recover cutoff) t m'.view.history =
      sweepPhase (.recover cutoff) t m.view.history) :
    SinceScan parts cutoff t ids m₁ m' := by
  refine ⟨by rw [hphase]; exact h.1, fun j hj => ?_⟩
  rw [hphase] at hj
  obtain ⟨n, hn, hn', hnot⟩ := h.2 j hj
  exact ⟨n, hn, hn'.tail hstep, hnot⟩

/-- An operation of the recovery itself: it does not scan again, and a job is not stale
after its update. -/
theorem SinceScan.perform {m m' : State} {o : Op} {r : Res o}
    (h : SinceScan parts cutoff t ids m₁ m) (hreach : (platform parts).Reach m₁ m)
    (hperform : Performs parts t o r m m')
    (hallows : (sweepProtocol cutoff).allows
      (sweepPhase (.recover cutoff) t m.view.history) o) :
    SinceScan parts cutoff t ids m₁ m' := by
  have hphase : sweepPhase (.recover cutoff) t m'.view.history =
      (sweepProtocol cutoff).next (sweepPhase (.recover cutoff) t m.view.history) o r := by
    rw [hperform.2]
    exact Protocol.phase_own o r
  cases o with
  | fs o => exact absurd hallows id
  | sys o => exact absurd hallows id
  | db o =>
    cases o with
    | scanStale c => exact absurd (h.1.symm.trans hallows.2) (by simp)
    | recoverOne j c =>
      obtain rfl : c = cutoff := hallows.1
      rcases r with x | b
      · exact h.keep hperform.1 hphase
      · refine ⟨by rw [hphase]; exact h.1, fun i hi => ?_⟩
        rw [hphase] at hi
        rcases List.mem_cons.mp hi with rfl | hi
        · obtain ⟨e, he⟩ := hperform.exec
          exact ⟨m', hreach.tail hperform.1, .refl,
            @not_stale_of_update parts.base _ _ _ _ _ _ he⟩
        · obtain ⟨n, hn, hn', hnot⟩ := h.2 i hi
          exact ⟨n, hn, hn'.tail hperform.1, hnot⟩
    | _ => exact absurd hallows id

section Scanned

variable (hm : (platform parts).Reach (System.initial w) m₀)
  (hscan : Performs parts t (.db (.scanStale cutoff)) (.ok ids) m₀ m₁)

include hm hscan

theorem sinceScan_scan {p : Prog Op Res (Except Exn Reply)}
    (ht : m₀.threads[t]? = some (.recover cutoff, p)) : SinceScan parts cutoff t ids m₁ m₁ := by
  have hnone : (sweepPhase (.recover cutoff) t m₀.view.history).found = none := by
    obtain ⟨c, k, hthread⟩ := hscan.thread
    obtain ⟨rfl, -⟩ := Prod.mk.inj (Option.some.inj (hthread.symm.trans ht))
    exact (System.Reach.obeys (P := Call.sweep) (body_sweeps parts) hm hthread).head.2
  rw [SinceScan, hscan.2, sweepPhase, Protocol.phase_own]
  refine ⟨rfl, fun j hj => ?_⟩
  have hempty := handled_of_not_found hm ht hnone
  have hj' : j ∈ (sweepPhase (.recover cutoff) t m₀.view.history).handled := hj
  rw [hempty] at hj'
  exact absurd hj' List.not_mem_nil

theorem sinceScan_reach {p : Prog Op Res (Except Exn Reply)}
    (ht : m₀.threads[t]? = some (.recover cutoff, p)) {m : State}
    (h : (platform parts).Reach m₁ m) : SinceScan parts cutoff t ids m₁ m := by
  have hm₁ : (platform parts).Reach (System.initial w) m₁ := hm.tail hscan.1
  induction h with
  | refl => exact sinceScan_scan hm hscan ht
  | @tail m m' hreach hstep ih =>
    cases hstep with
    | invoke c hc => exact ih.keep (.invoke m c hc) rfl
    | perform u c o k e r s hu he =>
      by_cases hut : u = t
      · subst hut
        obtain ⟨p', hp'⟩ := System.Reach.call_kept
          ((Relation.ReflTransGen.single hscan.1).trans hreach) ht
        obtain ⟨rfl, -⟩ := Prod.mk.inj (Option.some.inj (hu.symm.trans hp'))
        exact ih.perform hreach ⟨.perform m u _ o k e r s hu he, rfl⟩
          (System.Reach.obeys (P := Call.sweep) (body_sweeps parts) (hm₁.trans hreach) hu).head
      · exact ih.keep (.perform m u c o k e r s hu he) (Protocol.phase_other hut)

/-- **Repeating a recovery.**  After a call has returned, a call with the same cutoff
recovers a job only if, since the scan of the first one, the job was started or its plan
was saved with a time before the cutoff. -/
theorem again_after_return {u n : ℕ} (h₁₂ : (platform parts).Reach m₁ m₂)
    (hret : m₂.counted t = some (cutoff, n)) (h₂₃ : (platform parts).Reach m₂ m₃)
    (hagain : Performs parts u (.db (.recoverOne j cutoff)) (.ok true) m₃ m₄) :
    ∃ m m', (platform parts).Reach m₁ m ∧ MadeStale parts cutoff j m m' ∧
      (platform parts).Reach m' m₃ := by
  obtain ⟨c, k, ht⟩ := hscan.thread
  have hm₁ : (platform parts).Reach (System.initial w) m₁ := hm.tail hscan.1
  -- The thread that has scanned is the one that has returned.
  obtain ⟨p, hp⟩ := System.Reach.call_kept ((Relation.ReflTransGen.single hscan.1).trans h₁₂) ht
  obtain ⟨rfl, -⟩ := Prod.mk.inj
    (Option.some.inj ((State.counted_eq_some hret).symm.trans hp))
  obtain ⟨hfound, hhandled⟩ := sinceScan_reach hm hscan ht h₁₂
  obtain ⟨-, ids', hfound', hall⟩ := swept_of_counted (hm₁.trans h₁₂) hret n rfl
  obtain rfl : ids = ids' := Option.some.inj (hfound.symm.trans hfound')
  have hstale : Stale cutoff j m₃.view.state := by
    obtain ⟨e, he⟩ := hagain.exec
    exact stale_of_update he
  -- the job was not stale in some state between the scan and the return
  have hfresh : ∃ n, (platform parts).Reach m₁ n ∧ (platform parts).Reach n m₂ ∧
      ¬ Stale cutoff j n.view.state := by
    by_cases hj : j ∈ ids
    · exact hhandled j (hall j hj)
    · refine ⟨m₁, .refl, h₁₂, ?_⟩
      obtain ⟨e, he⟩ := hscan.exec
      obtain ⟨hsame, hids⟩ := exec_scanned he
      rw [hsame]
      exact fun hstale => hj ((hids j).mpr hstale)
  -- It was stale later, so that a step in between has made it stale.
  obtain ⟨n', hn', hn'₂, hnot⟩ := hfresh
  obtain ⟨m, m', hm, hmade, hm'⟩ := exists_madeStale (hn'₂.trans h₂₃) hnot hstale
  exact ⟨m, m', hn'.trans hm, hmade, hm'⟩

end Scanned

end Again

theorem Op.Sweeps.of_allows {cutoff : ℕ} {q : Sweep} {o : Op}
    (h : (sweepProtocol cutoff).allows q o) : o.Sweeps cutoff := by
  cases o with
  | fs o => exact absurd h id
  | sys o => exact absurd h id
  | db o =>
    cases o with
    | scanStale c => exact h.1
    | recoverOne j c => exact h.1
    | _ => exact absurd h id

namespace Sample

/-- The sample job was started, and two recoveries have both found it before the first of
them updates it. -/
def twoRecoveries : List (System.Move Env Call) :=
  running 2 ++ [.invoke (.recover 1), .invoke (.recover 1), .perform 2 calm, .perform 3 calm,
    .perform 2 calm, .perform 3 calm]

/-- The call is no recovery that is still going on. -/
def settled (thread : Call × Prog Op Res (Except Exn Reply)) : Bool :=
  match thread.1 with
  | .recover _ => (Call.counted thread).isSome
  | _ => true

/-- A recovery that finds nothing, before the job is started. -/
def earlyRecovery : List (System.Move Env Call) :=
  created ++ [.invoke (.recover 1), .perform 1 calm]

/-- The job is started and the call is repeated. -/
def repeatedRecovery : List (System.Move Env Call) :=
  [.invoke (.run 0 job), .perform 2 calm, .perform 2 calm, .invoke (.recover 1),
    .perform 3 calm, .perform 3 calm]

end Sample

end CliExecutionPlatform
