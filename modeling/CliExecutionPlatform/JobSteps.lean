/-
The operations that change a job keep the discipline of `Ownership.lean`.

* `step_idle`, `step_ends` — an operation without effect, and one that ends the
  job;
* `step_queueTimeout`, `step_start`, `step_recover` — the other writers of the
  status;
* `step_insert`, `step_creator`, `step_schedule` — the creation of a job, by the
  thread that has inserted it (`Creator`);
* `step_owner`, `owner_host` — planning and executing, by the thread that has
  started the job (`Owner`): it is a `Host` of the job;
* `step_inherit`, `step_finish` — the first and the last thing that it does.
-/
import CliExecutionPlatform.Ownership

open Files Process

namespace CliExecutionPlatform

open LocalStorage (root treeOf)

/-! ### Transactions on the status -/

section Exec

variable {base : Path} {e : Env} {j : Uuid} {w w' : World}

/-- A change of the status leaves everything else of the job as it was. -/
structure StatusSet (base : Path) (j : Uuid) (s s' : Status) (w w' : World) : Prop where
  before : w.db.status j = some s
  after : w'.db.status j = some s'
  held : held base j w' = held base j w
  scheduled : w'.scheduled = w.scheduled

theorem statusSet_of_row {row : JobRow} (hrow : w.db.job j = some row) (target : Status)
    (now skip : ℕ) (rows : List (EventType × String)) :
    StatusSet base j row.status target w
      { w with db := (w.db.updateJob j (DbOp.setStatus now target)).log skip now j rows } where
  before := status_eq hrow
  after := status_setStatus hrow now target
  held := by
    have hplan : ((w.db.updateJob j (DbOp.setStatus now target)).job j).bind JobRow.actionPlan =
        (w.db.job j).bind JobRow.actionPlan := plan_updateJob fun _ => rfl
    simp only [CliExecutionPlatform.held, Db.job_log, hplan, Db.artifactsOf_log,
      Db.artifactsOf_updateJob]
  scheduled := rfl

theorem exec_transition {expected : List Status} {target : Status} {code : EventCode}
    {message : String} {r : Except Exn Bool}
    (h : exec base e (.db (.transition j expected target code message)) w = some (r, w')) :
    (∃ s ∈ expected, r = .ok true ∧ StatusSet base j s target w w') ∨ (r ≠ .ok true ∧ w' = w) := by
  rcases exec_db_cases h with ⟨db, hrun, rfl⟩ | ⟨⟨name, detail, rfl⟩, rfl⟩
  · rcases DbOp.run_transition hrun with ⟨row, hrow, hin, rfl, rfl⟩ | ⟨-, rfl, rfl⟩
    · exact .inl ⟨row.status, hin, rfl, statusSet_of_row hrow target _ _ _⟩
    · exact .inr ⟨by simp, rfl⟩
  · exact .inr ⟨by simp, rfl⟩

theorem exec_recoverOne {cutoff : ℕ} {r : Except Exn Bool}
    (h : exec base e (.db (.recoverOne j cutoff)) w = some (r, w')) :
    (r = .ok true ∧ StatusSet base j .running .failed w w') ∨ (r ≠ .ok true ∧ w' = w) := by
  rcases exec_db_cases h with ⟨db, hrun, rfl⟩ | ⟨⟨name, detail, rfl⟩, rfl⟩
  · rcases DbOp.run_recoverOne hrun with ⟨row, hrow, hs, -, rfl, rfl⟩ | ⟨-, rfl, rfl⟩
    · refine .inl ⟨rfl, ?_⟩
      rw [← hs]
      exact statusSet_of_row hrow .failed _ _ _
    · exact .inr ⟨by simp, rfl⟩
  · exact .inr ⟨by simp, rfl⟩

end Exec

section Steps

variable {parts : Parts} {j : Uuid} {t : ℕ} {v : View World Op Res} {e : Env} {o : Op}
  {r : Res o} {s : World}

/-- The operation neither creates a child of job `j` nor reads its files for
another job. -/
structure Unrelated (j : Uuid) (o : Op) : Prop where
  child : ∀ prompt, o ≠ .db (.insertJob prompt (some j))
  inspects : o.inspects j = false

theorem Unrelated.transition (k : Uuid) (expected : List Status) (target : Status)
    (code : EventCode) (message : String) :
    Unrelated j (.db (.transition k expected target code message)) :=
  ⟨fun _ => by simp, rfl⟩

/-- An operation without effect. -/
theorem step_idle (hI : Inv parts j v) (hexec : exec parts.base e o v.state = some (r, s))
    (hs : s = v.state) (hn : Neutral j o r) (hu : Unrelated j o) :
    Inv parts j (v.push t o r s) ∧ Guar parts j t v (v.push t o r s) := by
  subst hs
  refine step_of_same hI hexec ⟨rfl, rfl, .rfl⟩ hn (fun p hp => absurd hp (hu.child p))
    (fun _ _ _ => .inl rfl) fun hin => ?_
  rw [hu.inspects] at hin
  exact absurd hin (by simp)

/-- The invariant of a job that has ended. -/
theorem JobInv.ended {status : Option Status} {scheduled : Prop} {H : Held} {h : History}
    (hI : JobInv parts j status scheduled H h) (hn : Neutral j o r) (hsched : scheduled)
    {s' : Status} (hterm : s'.terminal)
    (hfailed : s' = .failed → Ever (Spoils j) (⟨t, o, r⟩ :: h) ∨ Clean H)
    (hdone : s' = .completed → Delivered parts j H) :
    JobInv parts j (some s') scheduled H (⟨t, o, r⟩ :: h) where
  insertedOnce := (hI.push hn).insertedOnce
  startedOnce := (hI.push hn).startedOnce
  absent := fun hs => absurd hs (by simp)
  waiting := by
    rintro (hs | hs)
    · exact absurd hs (by simp)
    · rw [Option.some.inj hs] at hterm
      exact absurd hterm (by decide)
  unscheduled := fun hs => absurd hsched hs
  ready := by
    intro hs
    rw [Option.some.inj hs] at hterm
    exact absurd hterm (by decide)
  running := by
    intro hs
    rw [Option.some.inj hs] at hterm
    exact absurd hterm (by decide)
  failed := fun hs => hfailed (Option.some.inj hs)
  completed := fun hs => hdone (Option.some.inj hs)

/-- An operation that ends the job.  Only stale recovery may end a job that
another thread has started. -/
theorem step_ends {s₀ s' : Status} (hI : Inv parts j v)
    (hexec : exec parts.base e o v.state = some (r, s))
    (hset : StatusSet parts.base j s₀ s' v.state s) (hs₀ : ¬ s₀.terminal) (hterm : s'.terminal)
    (hn : Neutral j o r) (hu : Unrelated j o) (hsched : j ∈ v.state.scheduled)
    (hfailed : s' = .failed →
      Ever (Spoils j) (⟨t, o, r⟩ :: v.history) ∨ Clean (held parts.base j v.state))
    (hdone : s' = .completed → Delivered parts j (held parts.base j v.state))
    (hothers : ∀ u, u ≠ t → SeenBy (starts j) u v.history →
      s₀ = .running ∧ s' = .failed ∧ recovers j o r = true) :
    Inv parts j (v.push t o r s) ∧ Guar parts j t v (v.push t o r s) := by
  refine step_of hI hexec ?_ ?_ (fun p hp => absurd hp (hu.child p)) ?_ ?_ ?_
  · rw [hset.after, hset.held, hset.scheduled]
    exact hI.job.ended hn hsched hterm hfailed hdone
  · intro hc
    have := hset.before.symm.trans hc
    rw [Option.some.inj this] at hs₀
    exact absurd rfl hs₀
  · refine fun u hut => ⟨fun hstarted => ⟨hset.held, .inr ?_⟩, fun _ hns => absurd hsched hns⟩
    -- The thread that runs the job is told by the mark of the recovery.
    obtain ⟨rfl, rfl, hrec⟩ := hothers u hut hstarted
    exact ⟨hset.before, hset.after, _, List.mem_cons_self, hrec⟩
  · intro s₁ hs₁ hterm₁
    have := hset.before.symm.trans hs₁
    rw [Option.some.inj this] at hs₀
    exact absurd hterm₁ hs₀
  · intro hin
    rw [hu.inspects] at hin
    exact absurd hin (by simp)

/-! ### Waiting jobs -/

theorem neutral_transition {k : Uuid} {expected : List Status} {target : Status}
    {code : EventCode} {message : String} {r : Except Exn Bool}
    (h : target ≠ .running ∨ r ≠ .ok true) :
    Neutral j (.db (.transition k expected target code message)) r := by
  refine ⟨?_, rfl, rfl⟩
  cases target with
  | running =>
    rcases r with x | started
    · rfl
    · cases started with
      | true => exact absurd rfl (h.resolve_left (by simp))
      | false => rfl
  | created => rfl
  | completed => rfl
  | failed => rfl

/-- Before its start nobody owns a job. -/
theorem not_started (hI : Inv parts j v) (hs : v.state.db.status j = some .created) (u : ℕ) :
    ¬ SeenBy (starts j) u v.history :=
  not_seenBy (hI.job.waiting (.inr hs)).1

/-- A scheduled job that waits is clean. -/
theorem clean_of_waiting (hI : Inv parts j v) (hs : v.state.db.status j = some .created)
    (hsched : j ∈ v.state.scheduled) : Clean (held parts.base j v.state) :=
  ⟨(hI.job.waiting (.inr hs)).2.1, (hI.job.waiting (.inr hs)).2.2, (hI.job.ready hs hsched).2⟩

/-- A queue timeout. -/
theorem step_queueTimeout {r : Res (JobOrchestratorService.queueTimeoutOp j)}
    (hI : Inv parts j v) (hsched : j ∈ v.state.scheduled)
    (hexec : exec parts.base e (JobOrchestratorService.queueTimeoutOp j) v.state = some (r, s)) :
    Inv parts j (v.push t _ r s) ∧ Guar parts j t v (v.push t _ r s) := by
  rcases exec_transition hexec with ⟨s₀, hin, rfl, hset⟩ | ⟨hr, hs⟩
  · obtain rfl : s₀ = .created := List.mem_singleton.mp hin
    exact step_ends hI hexec hset (by decide) rfl (neutral_transition (.inl (by simp)))
      (.transition ..) hsched (fun _ => .inr (clean_of_waiting hI hset.before hsched))
      (fun h => absurd h (by simp))
      fun u _ hu => absurd hu (not_started hI hset.before u)
  · exact step_idle hI hexec hs (neutral_transition (.inr hr)) (.transition ..)

/-- Thread `t` has started job `j`, and no other thread has touched it since,
stale recovery apart. -/
def Owner (j : Uuid) (t : ℕ) (v : View World Op Res) : Prop :=
  SeenBy (starts j) t v.history ∧ (v.state.db.status j = some .running ∨
    v.state.db.status j = some .failed ∧ Seen (recovers j) v.history)

/-- The start of the job. -/
theorem step_start {r : Res (JobOrchestratorService.startOp j)} (hI : Inv parts j v)
    (hsched : j ∈ v.state.scheduled)
    (hexec : exec parts.base e (JobOrchestratorService.startOp j) v.state = some (r, s)) :
    (Inv parts j (v.push t _ r s) ∧ Guar parts j t v (v.push t _ r s)) ∧
      (r = .ok true → Owner j t (v.push t _ r s) ∧ Clean (held parts.base j s) ∧
        (held parts.base j s).workspace [] = some .dir) := by
  rcases exec_transition hexec with ⟨s₀, hin, rfl, hset⟩ | ⟨hr, hs⟩
  · obtain rfl : s₀ = .created := List.mem_singleton.mp hin
    have hclean := clean_of_waiting hI hset.before hsched
    have hstarts : starts j (JobOrchestratorService.startOp j) (.ok true) = true :=
      decide_eq_true rfl
    -- Nobody has started the job before.
    have hcount : startCount j (⟨t, JobOrchestratorService.startOp j, .ok true⟩ :: v.history) =
        1 := by
      have hzero := (hI.job.waiting (.inr hset.before)).1
      rw [startCount] at hzero ⊢
      rw [countP_push_self hstarts, hzero]
    have hsched' : j ∈ s.scheduled := by
      rw [hset.scheduled]
      exact hsched
    refine ⟨step_of hI hexec ?_ ?_
      (fun _ hp => absurd hp (by simp [JobOrchestratorService.startOp]))
      ?_ ?_ (fun hin => absurd hin (by simp [Op.inspects])), ?_⟩
    · rw [hset.after, hset.held]
      exact {
        insertedOnce := by
          rw [countP_push (f := inserts j) rfl]
          exact hI.job.insertedOnce
        startedOnce := Nat.le_of_eq hcount
        absent := fun h => absurd h (by simp)
        waiting := fun h => absurd h (by simp)
        unscheduled := fun h => absurd hsched' h
        ready := fun h => absurd h (by simp)
        running := fun _ => .inr (.inr hclean)
        failed := fun h => absurd h (by simp)
        completed := fun h => absurd h (by simp) }
    · intro hc
      exact absurd (hset.before.symm.trans hc) (by simp)
    · exact fun u _ => ⟨fun hu => absurd hu (not_started hI hset.before u),
        fun _ hns => absurd hsched hns⟩
    · intro s₁ hs₁ hterm
      rw [← Option.some.inj (hset.before.symm.trans hs₁)] at hterm
      exact absurd hterm (by decide)
    · intro _
      rw [hset.held]
      exact ⟨⟨⟨_, List.mem_cons_self, rfl, hstarts⟩, .inl hset.after⟩, hclean,
        (hI.job.ready hset.before hsched).1⟩
  · exact ⟨step_idle hI hexec hs (neutral_transition (.inr hr)) (.transition ..),
      fun h => absurd h hr⟩

/-- Stale recovery of the job. -/
theorem step_recover {cutoff : ℕ} {r : Res (.db (.recoverOne j cutoff))} (hI : Inv parts j v)
    (hexec : exec parts.base e (.db (.recoverOne j cutoff)) v.state = some (r, s)) :
    Inv parts j (v.push t _ r s) ∧ Guar parts j t v (v.push t _ r s) := by
  have hn : Neutral j (.db (.recoverOne j cutoff)) r := ⟨rfl, rfl, rfl⟩
  have hu : Unrelated j (.db (.recoverOne j cutoff)) := ⟨fun _ => by simp, rfl⟩
  rcases exec_recoverOne hexec with ⟨rfl, hset⟩ | ⟨-, hs⟩
  · have hrec : recovers j (.db (.recoverOne j cutoff)) (.ok true) = true := decide_eq_true rfl
    have hsched : j ∈ v.state.scheduled := by
      by_contra hcon
      rcases hI.job.unscheduled hcon with h | h <;> rw [hset.before] at h <;>
        exact absurd h (by simp)
    refine step_ends hI hexec hset (by decide) rfl hn hu hsched (fun _ => ?_)
      (fun h => absurd h (by simp)) fun _ _ _ => ⟨rfl, rfl, hrec⟩
    rcases hI.job.running hset.before with hbad | hopen | hclean
    · exact .inl (hbad.mono (List.suffix_cons _ _))
    · exact .inl (.head (.inr (.inr (.inr (.inl ⟨hrec, hopen⟩)))))
    · exact .inr hclean
  · exact step_idle hI hexec hs hn hu

end Steps

/-! ### Creation -/

section Creation

variable {parts : Parts} {j : Uuid} {t : ℕ} {v v' : View World Op Res} {e : Env} {o : Op}
  {r : Res o} {s : World} {W P : Tree}

/-- Thread `t` has created job `j` and has not scheduled its run; the job's
trees are `W` and `P`. -/
structure Creator (base : Path) (j : Uuid) (t : ℕ) (W P : Tree) (v : View World Op Res) :
    Prop where
  inserted : SeenBy (inserts j) t v.history
  unscheduled : j ∉ v.state.scheduled
  status : v.state.db.status j = some .created
  workspace : (held base j v.state).workspace = W
  promoted : (held base j v.state).promoted = P

theorem Creator.rely (h : Creator parts.base j t W P v) (hr : Rely parts j t v v') :
    Creator parts.base j t W P v' := by
  obtain ⟨hsched, hheld, hstatus⟩ := hr.creator h.inserted h.unscheduled
  exact ⟨h.inserted.mono hr.history, hsched, hstatus.trans h.status,
    by rw [hheld]; exact h.workspace, by rw [hheld]; exact h.promoted⟩

/-- The creation of a job: of this one, of a child of this one or of another. -/
theorem step_insert {prompt : String} {parent : Option Uuid} {r : Except Exn Uuid}
    (hI : Inv parts j v)
    (hparent : parent = some j →
      IsCompleted j v.state ∧ ContextFits (held parts.base j v.state).workspace)
    (hexec : exec parts.base e (.db (.insertJob prompt parent)) v.state = some (r, s)) :
    (Inv parts j (v.push t (.db (.insertJob prompt parent)) r s) ∧
      Guar parts j t v (v.push t (.db (.insertJob prompt parent)) r s)) ∧
      (r = .ok j → Creator parts.base j t (fun _ => none) (fun _ => none)
        (v.push t (.db (.insertJob prompt parent)) r s)) := by
  have hchild : ∀ p, Op.db (.insertJob prompt parent) = .db (.insertJob p (some j)) →
      IsCompleted j v.state ∧ ContextFits (held parts.base j v.state).workspace := by
    intro p hp
    exact hparent (DbOp.insertJob.inj (Op.db.inj hp)).2
  have hinspect : (Op.db (.insertJob prompt parent)).inspects j = true → IsCompleted j v.state ∧
      ∀ k f, Op.db (.insertJob prompt parent) = .fs (.copyWorkspaceFile j k f) →
        ContextFits (held parts.base j v.state).workspace :=
          fun h => absurd h (by simp [Op.inspects])
  by_cases hr : r = .ok j
  · subst hr
    rcases exec_db_cases hexec with ⟨db, hrun, rfl⟩ | ⟨⟨name, detail, hr⟩, -⟩
    · obtain ⟨hnone, hok, rfl⟩ := DbOp.run_insertJob hrun
      obtain rfl : j = e.fresh := Except.ok.inj hok
      have hstatus : v.state.db.status e.fresh = none := by
        rw [Db.status, hnone]
        rfl
      -- An identifier without a row has left no trace in the history or on the disk.
      obtain ⟨hcount, hsched, hws, hpr⟩ := hI.job.absent hstatus
      obtain ⟨hstart, -, harts⟩ := hI.job.waiting (.inl hstatus)
      have hinserts : inserts e.fresh (.db (.insertJob prompt parent)) (.ok e.fresh) = true :=
        decide_eq_true rfl
      have hafter : (v.state.db.insert e.fresh
          ⟨parent, prompt, .created, none, e.now⟩).status e.fresh = some .created := by
        rw [Db.status, Db.job_insert, if_pos rfl]
        rfl
      refine ⟨step_of hI hexec ?_ ?_ hchild ?_ ?_ hinspect, fun _ => ?_⟩
      · simp only [hafter]
        exact {
          insertedOnce := by
            rw [countP_push_self hinserts, hcount]
          startedOnce := by
            rw [startCount, countP_push (f := starts e.fresh) rfl]
            exact hI.job.startedOnce
          absent := fun h => absurd h (by simp)
          waiting := by
            intro _
            rw [startCount, countP_push (f := starts e.fresh) rfl]
            refine ⟨hstart, ?_, harts⟩
            simp only [held, Db.job_insert, if_true]
            rfl
          unscheduled := fun _ => .inr rfl
          ready := fun _ hs => absurd hs hsched
          running := fun h => absurd h (by simp)
          failed := fun h => absurd h (by simp)
          completed := fun h => absurd h (by simp) }
      · intro hc
        exact absurd (hstatus.symm.trans hc) (by simp)
      · exact fun u _ => ⟨fun hu => absurd hu (not_seenBy hstart),
          fun hu => absurd hu (not_seenBy hcount)⟩
      · intro s₁ hs₁
        rw [hstatus] at hs₁
        exact absurd hs₁ (by simp)
      · exact ⟨⟨_, List.mem_cons_self, rfl, hinserts⟩, hsched, hafter, hws, hpr⟩
    · exact absurd hr (by simp)
  · refine ⟨step_foreign hI hexec ?_ hchild hinspect, fun h => absurd h hr⟩
    rcases r with x | k
    · exact fun h => absurd h (by simp [Op.affects, DbOp.affects])
    · exact fun h => hr (congrArg Except.ok (Option.some.inj h))

/-- A step of the creator that leaves rows, plan, status and schedule alone. -/
theorem step_creator (hI : Inv parts j v) (hC : Creator parts.base j t W P v)
    (hexec : exec parts.base e o v.state = some (r, s))
    (hstatus : s.db.status j = v.state.db.status j)
    (hsched : s.scheduled = v.state.scheduled)
    (hplan : (held parts.base j s).plan = (held parts.base j v.state).plan)
    (harts : (held parts.base j s).artifacts = (held parts.base j v.state).artifacts)
    (hn : Neutral j o r) (hu : Unrelated j o) :
    (Inv parts j (v.push t o r s) ∧ Guar parts j t v (v.push t o r s)) ∧
      Creator parts.base j t (held parts.base j s).workspace (held parts.base j s).promoted
        (v.push t o r s) := by
  have hpush := hI.job.push (t := t) hn
  have hwait := hpush.waiting (.inr hC.status)
  have hunsched : j ∉ s.scheduled := by
    rw [hsched]
    exact hC.unscheduled
  refine ⟨step_of hI hexec ?_ ?_ (fun p hp => absurd hp (hu.child p)) ?_ ?_ ?_, ?_⟩
  · rw [hstatus, hC.status]
    exact {
      insertedOnce := hpush.insertedOnce
      startedOnce := hpush.startedOnce
      absent := fun h => absurd h (by simp)
      waiting := fun _ => ⟨hwait.1, hplan.trans hwait.2.1, harts.trans hwait.2.2⟩
      unscheduled := fun _ => .inr rfl
      ready := fun _ hs => absurd hs hunsched
      running := fun h => absurd h (by simp)
      failed := fun h => absurd h (by simp)
      completed := fun h => absurd h (by simp) }
  · intro hc
    exact absurd (hC.status.symm.trans hc) (by simp)
  -- Another thread has neither started nor created the job.
  · exact fun u hut => ⟨fun hs => absurd hs (not_started hI hC.status u),
      fun hs => absurd (hs.unique hI.job.insertedOnce hC.inserted) hut⟩
  · intro s₁ hs₁ hterm
    rw [← Option.some.inj (hC.status.symm.trans hs₁)] at hterm
    exact absurd hterm (by decide)
  · intro hin
    rw [hu.inspects] at hin
    exact absurd hin (by simp)
  · exact ⟨hC.inserted.mono (List.suffix_cons _ _), hunsched, hstatus.trans hC.status, rfl, rfl⟩

/-- The run of the job is scheduled, with both trees in place. -/
theorem step_schedule {r : Except Exn Unit} (hI : Inv parts j v)
    (hC : Creator parts.base j t W Tree.empty v) (hW : W [] = some .dir)
    (hexec : exec parts.base e (.sys (.schedule j)) v.state = some (r, s)) :
    Inv parts j (v.push t (.sys (.schedule j)) r s) ∧
      Guar parts j t v (v.push t (.sys (.schedule j)) r s) := by
  obtain ⟨rfl, rfl⟩ := Prod.mk.inj (Option.some.inj hexec)
  have hn : Neutral j (.sys (.schedule j)) (.ok ()) := ⟨rfl, rfl, rfl⟩
  have hpush := hI.job.push (t := t) hn
  have hwait := hpush.waiting (.inr hC.status)
  refine step_of hI hexec ?_ ?_ (fun _ hp => absurd hp (by simp)) ?_ (fun _ _ _ => .inl rfl)
    (fun h => absurd h (by simp [Op.inspects]))
  · show JobInv parts j (v.state.db.status j) _ (held parts.base j v.state) _
    rw [hC.status]
    exact {
      insertedOnce := hpush.insertedOnce
      startedOnce := hpush.startedOnce
      absent := fun h => absurd h (by simp)
      waiting := fun _ => hwait
      unscheduled := fun _ => .inr rfl
      ready := by
        intro _ _
        refine ⟨?_, hC.promoted⟩
        rw [hC.workspace]
        exact hW
      running := fun h => absurd h (by simp)
      failed := fun h => absurd h (by simp)
      completed := fun h => absurd h (by simp) }
  · intro hc
    exact absurd (hC.status.symm.trans hc) (by simp)
  · exact fun u hut => ⟨fun hs => absurd hs (not_started hI hC.status u),
      fun hs => absurd (hs.unique hI.job.insertedOnce hC.inserted) hut⟩

end Creation

/-! ### Planning and executing -/

section Working

variable {base : Path} {e : Env} {j : Uuid} {w w' : World} {o : Op} {r : Res o}

theorem DbOp.run_status_of_working {now skip : ℕ} {fresh : Uuid} {o : DbOp}
    {r : Except Exn o.Val} {db db' : Db} (hw : Working j (.db o))
    (h : o.run now skip fresh db = some (r, db')) : db'.status j = db.status j := by
  cases o with
  | getJob k =>
    obtain ⟨-, rfl⟩ := Prod.mk.inj (Option.some.inj h)
    rfl
  | appendEvent k code message =>
    rcases run_appendEvent h with ⟨-, rfl⟩ | ⟨-, rfl⟩ <;> rfl
  | logEvents k rows =>
    rcases run_logEvents h with ⟨-, rfl⟩ | ⟨-, rfl⟩ <;> rfl
  | saveActionPlan k actions =>
    obtain rfl : k = j := hw
    rcases run_saveActionPlan h with ⟨row, hrow, -, -, rfl⟩ | ⟨-, -, rfl⟩
    · rw [status_eq hrow, Db.status, Db.job_updateJob, if_pos rfl, hrow]
      rfl
    · rfl
  | flushArtifact k rel name type => rw [(run_flushArtifact h).1]
  | rollbackSession k => rw [← (Prod.mk.inj (Option.some.inj h)).2]
  | commitArtifacts k drafts =>
    rcases run_commitArtifacts h with ⟨-, hjob, -⟩ | ⟨-, rfl⟩
    · rw [Db.status, Db.status, hjob]
    · rfl
  | _ => exact absurd hw id

/-- Planning and executing leave the status and the schedule alone. -/
theorem exec_working (hw : Working j o) (h : exec base e o w = some (r, w')) :
    w'.db.status j = w.db.status j ∧ w'.scheduled = w.scheduled := by
  cases o with
  | fs o =>
    obtain ⟨fs, -, rfl⟩ := exec_fs h
    exact ⟨rfl, rfl⟩
  | sys o =>
    have hnone : o.affects = none := by
      cases o with
      | schedule k => exact absurd hw id
      | _ => rfl
    obtain ⟨hdb, -, hsched⟩ := SysOp.exec_sameData h hnone
    exact ⟨by rw [hdb], hsched⟩
  | db o =>
    rcases exec_db_cases h with ⟨db, hrun, rfl⟩ | ⟨-, rfl⟩
    · exact ⟨DbOp.run_status_of_working hw hrun, rfl⟩
    · exact ⟨rfl, rfl⟩

theorem Clean.of_eq {H H' : Held} (h : Clean H) (hplan : H'.plan = H.plan)
    (harts : H'.artifacts = H.artifacts) (hprom : H'.promoted = H.promoted) : Clean H' :=
  ⟨hplan.trans h.plan, harts.trans h.artifacts, hprom.trans h.promoted⟩

/-- As long as no result is written and nothing is put back, a clean job stays
clean, or the snapshot protocol has failed. -/
theorem exec_clean (hw : Working j o) (h : exec base e o w = some (r, w'))
    (hopens : opens j o r = false) (hback : rollsBack j o r = false)
    (hclean : Clean (held base j w)) : Clean (held base j w') ∨ strands j o r = true := by
  -- Three reasons why an operation keeps plan, rows and promoted files.
  have quiet : o.Quiet → Clean (held base j w') := by
    intro hq
    rw [exec_quiet hq h]
    exact hclean
  have workspace : ∀ {o : FsOp} {r : Except Exn o.Val}, o.writes = [(.jobs, j)] →
      exec base e (.fs o) w = some (r, w') → Clean (held base j w') := by
    intro o r ho h
    rw [exec_workspace ho h]
    exact hclean.of_eq rfl rfl rfl
  have snapshots : ∀ {o : FsOp} {r : Except Exn o.Val}, o.writes = [(.snapshots, j)] →
      exec base e (.fs o) w = some (r, w') → Clean (held base j w') := by
    intro o r ho h
    rw [exec_snapshots ho h]
    exact hclean.of_eq rfl rfl rfl
  cases o with
  | sys o => exact .inl (quiet trivial)
  | db o =>
    cases o with
    | saveActionPlan k actions =>
      obtain rfl : k = j := hw
      rcases exec_saveActionPlan h with ⟨rfl, -⟩ | ⟨-, hheld⟩
      · exact absurd hopens (by simp [opens])
      · rw [hheld]
        exact .inl hclean
    | commitArtifacts k drafts =>
      obtain rfl : k = j := hw
      rcases exec_commitArtifacts h with ⟨rfl, -⟩ | ⟨-, hheld⟩
      · exact absurd hopens (by simp [opens])
      · rw [hheld]
        exact .inl hclean
    | getJob k => exact .inl (quiet trivial)
    | appendEvent k code message => exact .inl (quiet trivial)
    | logEvents k rows => exact .inl (quiet trivial)
    | flushArtifact k rel name type => exact .inl (quiet trivial)
    | rollbackSession k => exact .inl (quiet trivial)
    | _ => exact absurd hw id
  | fs o =>
    cases o with
    | createDirectory k rel =>
      obtain rfl : k = j := hw
      exact .inl (workspace rfl h)
    | writeFile k rel content =>
      obtain rfl : k = j := hw
      exact .inl (workspace rfl h)
    | copyOut k output file =>
      obtain rfl : k = j := hw
      exact .inl (workspace rfl h)
    | readFile k rel => exact .inl (quiet rfl)
    | stage k => exact .inl (quiet rfl)
    | beginAttempt k =>
      obtain rfl : k = j := hw
      exact .inl (snapshots rfl h)
    | completeAttempt k token =>
      obtain rfl : k = j := hw
      exact .inl (snapshots rfl h)
    | saveArtifact k rel =>
      obtain rfl : k = j := hw
      exact absurd hopens (by simp [opens])
    | removeCopy k rel =>
      obtain rfl : k = j := hw
      exact absurd hopens (by simp [opens])
    | rollbackAttempt k token =>
      obtain rfl : k = j := hw
      cases r with
      | ok u => exact absurd hback (by simp [rollsBack])
      | error x => exact .inr (decide_eq_true rfl)
    | _ => exact absurd hw id

end Working

section Owning

variable {parts : Parts} {j : Uuid} {t : ℕ} {v v' : View World Op Res} {e : Env} {o : Op}
  {r : Res o} {s : World}

theorem Owner.rely (h : Owner j t v) (hr : Rely parts j t v v') :
    Owner j t v' ∧ held parts.base j v'.state = held parts.base j v.state := by
  obtain ⟨hstarted, hstatus⟩ := h
  obtain ⟨hheld, hchange⟩ := hr.owner hstarted
  refine ⟨⟨hstarted.mono hr.history, ?_⟩, hheld⟩
  rcases hchange with hsame | ⟨-, hfail, hrec⟩
  · rw [hsame]
    exact hstatus.imp_right fun hf => ⟨hf.1, hf.2.mono hr.history⟩
  · exact .inr ⟨hfail, hrec⟩

/-- The run of a job that was recovered goes on. -/
theorem Owner.goesOn (h : Owner j t v) (hs : v.state.db.status j ≠ some .running) :
    GoesOn j ⟨t, o, r⟩ v.history :=
  ⟨h.1, (h.2.resolve_left hs).2⟩

/-- A step of the owner that leaves the status alone. -/
theorem step_owner (hI : Inv parts j v) (hO : Owner j t v)
    (hexec : exec parts.base e o v.state = some (r, s))
    (hstatus : s.db.status j = v.state.db.status j) (hsched : s.scheduled = v.state.scheduled)
    (hstarts : starts j o r = false) (hinserts : inserts j o r = false) (hu : Unrelated j o)
    (hrun : v.state.db.status j = some .running →
      Ever (Spoils j) (⟨t, o, r⟩ :: v.history) ∨ Open j (⟨t, o, r⟩ :: v.history) ∨
        Clean (held parts.base j s)) :
    (Inv parts j (v.push t o r s) ∧ Guar parts j t v (v.push t o r s)) ∧
      Owner j t (v.push t o r s) := by
  have hrunning : ∀ {s₁ : Status}, s₁ ≠ .running → s₁ ≠ .failed →
      v.state.db.status j ≠ some s₁ := by
    intro s₁ h₁ h₂ hs₁
    rcases hO.2 with h | ⟨h, -⟩
    · exact h₁ (Option.some.inj (hs₁.symm.trans h))
    · exact h₂ (Option.some.inj (hs₁.symm.trans h))
  refine ⟨step_of hI hexec ?_ ?_ (fun p hp => absurd hp (hu.child p)) ?_ ?_ ?_, ?_⟩
  · rw [hstatus, hsched]
    exact {
      insertedOnce := by
        rw [countP_push hinserts]
        exact hI.job.insertedOnce
      startedOnce := by
        rw [startCount, countP_push hstarts]
        exact hI.job.startedOnce
      absent := by
        intro h
        rcases hO.2 with h' | ⟨h', -⟩ <;> rw [h] at h' <;> exact absurd h' (by simp)
      waiting := by
        rintro (h | h)
        · rcases hO.2 with h' | ⟨h', -⟩ <;> rw [h] at h' <;> exact absurd h' (by simp)
        · exact absurd h (hrunning (by simp) (by simp))
      unscheduled := hI.job.unscheduled
      ready := fun h => absurd h (hrunning (by simp) (by simp))
      running := hrun
      failed := fun h => .inl (.head (.inr (.inr (.inr (.inr (hO.goesOn (by rw [h]; simp)))))))
      completed := fun h => absurd h (hrunning (by simp) (by simp)) }
  · intro hc
    exact absurd hc (hrunning (by simp) (by simp))
  · refine fun u hut => ⟨fun hs => ?_, fun _ hns => ?_⟩
    · exact absurd (hs.unique hI.job.startedOnce hO.1) hut
    · rcases hI.job.unscheduled hns with h | h
      · rcases hO.2 with h' | ⟨h', -⟩ <;> rw [h] at h' <;> exact absurd h' (by simp)
      · exact absurd h (hrunning (by simp) (by simp))
  · -- a job that has ended was recovered, and its run goes on
    intro s₁ hs₁ hterm
    refine .inr (.head (.inr (hO.goesOn ?_)))
    intro hcon
    rw [Option.some.inj (hs₁.symm.trans hcon)] at hterm
    exact absurd hterm (by decide)
  · intro hin
    rw [hu.inspects] at hin
    exact absurd hin (by simp)
  · refine ⟨hO.1.mono (List.suffix_cons _ _), ?_⟩
    show s.db.status j = _ ∨ s.db.status j = _ ∧ _
    rw [hstatus]
    exact hO.2.imp_right fun hf => ⟨hf.1, hf.2.mono (List.suffix_cons _ _)⟩

theorem Working.unrelated (hw : Working j o) : Unrelated j o := by
  cases o with
  | db o =>
    cases o with
    | insertJob prompt parent => exact absurd hw id
    | _ => exact ⟨fun _ => by simp, rfl⟩
  | fs o =>
    cases o with
    | copyWorkspaceFile source k rel => exact absurd hw id
    | workspaceFileExists k rel => exact absurd hw id
    | workspaceFileSize k rel => exact absurd hw id
    | _ => exact ⟨fun _ => by simp, rfl⟩
  | sys o => exact ⟨fun _ => by simp, rfl⟩

theorem Working.not_starts (hw : Working j o) : starts j o r = false := by
  cases o with
  | db o =>
    cases o with
    | transition k expected target code message => exact absurd hw id
    | _ => rfl
  | fs o => rfl
  | sys o => rfl

theorem Working.not_inserts (hw : Working j o) : inserts j o r = false := by
  cases o with
  | db o =>
    cases o with
    | insertJob prompt parent => exact absurd hw id
    | _ => rfl
  | fs o => rfl
  | sys o => rfl

/-- **The owner plans and executes undisturbed.**  Attempts that begin clean end
clean when they are rolled back. -/
theorem owner_host {H₀ : Held} (hclean : Clean H₀) :
    Host parts.base (fun _ => True) (exec parts.base) (ownership parts j t) t j (Owner j t) H₀ where
  env := fun e _ _ _ _ h => ⟨e, trivial, h⟩
  stable := fun _ _ hO hr _ => ⟨(hO.rely hr).1, (hO.rely hr).2, hr.history⟩
  step := by
    intro v e o r s hO hI hw hexec hback
    obtain ⟨hstatus, hsched⟩ := exec_working hw hexec
    have hstep := step_owner hI hO hexec hstatus hsched hw.not_starts hw.not_inserts
      hw.unrelated ?_
    · exact ⟨hstep.1.1, hstep.1.2, hstep.2⟩
    intro hrunning
    rcases hopens : opens j o r with _ | _
    · rcases hb : rollsBack j o r with _ | _
      · rcases hI.job.running hrunning with hbad | hopen | hclean
        · exact .inl (hbad.mono (List.suffix_cons _ _))
        · exact .inr (.inl (hopen.push hb))
        · rcases exec_clean hw hexec hopens hb hclean with hclean' | hstrand
          · exact .inr (.inr hclean')
          · exact .inl (.head (.inl hstrand))
      · -- what is put back is what the attempt began with
        obtain ⟨-, hprom, hplan, harts | hlate⟩ := hback hb
        · exact .inr (.inr (hclean.of_eq hplan harts hprom))
        · exact .inl (hlate.ever.mono (List.suffix_cons _ _))
    · exact .inr (.inl (.inl hopens))

/-- Files are inherited from another job. -/
theorem step_inherit {source : Uuid} {rel : String}
    {r : Res (.fs (.copyWorkspaceFile source j rel))} (hI : Inv parts j v) (hO : Owner j t v)
    (hclean : Clean (held parts.base j v.state)) (hne : source ≠ j)
    (hexec : exec parts.base e (.fs (.copyWorkspaceFile source j rel)) v.state = some (r, s)) :
    ((Inv parts j (v.push t _ r s) ∧ Guar parts j t v (v.push t _ r s)) ∧
      Owner j t (v.push t _ r s)) ∧ Clean (held parts.base j s) := by
  have hclean' : Clean (held parts.base j s) := by
    rw [exec_workspace (o := .copyWorkspaceFile source j rel) rfl hexec]
    exact hclean.of_eq rfl rfl rfl
  obtain ⟨fs, -, rfl⟩ := exec_fs hexec
  exact ⟨step_owner hI hO hexec rfl rfl rfl rfl ⟨fun _ => by simp, decide_eq_false hne⟩
    fun _ => .inr (.inr hclean'), hclean'⟩

/-- The owner ends the job, or finds that it was recovered. -/
theorem step_finish {expected : List Status} {target : Status} {code : EventCode}
    {message : String} {r : Res (.db (.transition j expected target code message))}
    (hI : Inv parts j v) (hO : Owner j t v)
    (hexp : ∀ s ∈ expected, s = .created ∨ s = .running) (hterm : target.terminal)
    (hfailed : target = .failed →
      Ever (Spoils j) v.history ∨ Clean (held parts.base j v.state))
    (hdone : target = .completed → Delivered parts j (held parts.base j v.state))
    (hexec : exec parts.base e (.db (.transition j expected target code message)) v.state =
      some (r, s)) :
    (Inv parts j (v.push t _ r s) ∧ Guar parts j t v (v.push t _ r s)) ∧
      (r ≠ .ok true → Owner j t (v.push t _ r s)) := by
  have hne : target ≠ .running := by
    rintro rfl
    exact absurd hterm (by decide)
  have hn : Neutral j (.db (.transition j expected target code message)) r :=
    neutral_transition (.inl hne)
  -- A job that is not scheduled is not owned.
  have hsched : j ∈ v.state.scheduled := by
    by_contra hcon
    rcases hI.job.unscheduled hcon with h | h <;> rcases hO.2 with h' | ⟨h', -⟩ <;>
      rw [h] at h' <;> exact absurd h' (by simp)
  rcases exec_transition hexec with ⟨s₀, hin, hr, hset⟩ | ⟨-, rfl⟩
  · have hs₀ : ¬ s₀.terminal := by
      rcases hexp s₀ hin with rfl | rfl <;> decide
    exact ⟨step_ends hI hexec hset hs₀ hterm hn (.transition ..) hsched
      (fun h => (hfailed h).imp_left fun hbad => hbad.mono (List.suffix_cons _ _)) hdone
      fun u hut hu => absurd (hu.unique hI.job.startedOnce hO.1) hut, fun hcon => absurd hr hcon⟩
  · exact ⟨step_idle hI hexec rfl hn (.transition ..), fun _ =>
      ⟨hO.1.mono (List.suffix_cons _ _),
        hO.2.imp_right fun hf => ⟨hf.1, hf.2.mono (List.suffix_cons _ _)⟩⟩⟩

end Owning

end CliExecutionPlatform
