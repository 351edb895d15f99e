/-
What becomes of a job whose run or whose request does not get to its end.

A run that has started a job owes it an end: `COMPLETED`, or `FAILED` from the handler of
`_run_in_slot`.  A request that has inserted a job owes it a run.

* `Duty`, `dutyProtocol` — what a run owes; `run_duty` — it returns owing something only
  when it was cancelled;
* **`running_job_attended`** — a job that is `RUNNING` has exactly one run that started it,
  and that run is still in progress, was cancelled, or could not record the failure;
* `Launch`, `launchProtocol` — what a request owes; `launch_tells` — what its phase says
  about the jobs it has inserted;
* **`request_launches_or_strands`** — the job of a request that has raised after the insertion
  stays `CREATED` for ever: no run and no recovery will ever touch it.
-/
import CliExecutionPlatform.Ended
import CliExecutionPlatform.RunResults
import CliExecutionPlatform.RunWalk
import CliExecutionPlatform.StatusLog

open Files Process

namespace CliExecutionPlatform

/-! ### The duty of a run -/

/-- A run has not started the job, owes it an end, or has asked for the end. -/
inductive Duty
  | free
  | owing
  | settled
  deriving DecidableEq

def Duty.after (j : Uuid) : Duty → (o : Op) → Res o → Duty
  | .free, .db (.transition k _ .running _ _), .ok true => if k = j then .owing else .free
  | .owing, .db (.transition k _ .completed _ _), .ok _ => if k = j then .settled else .owing
  | .owing, .db (.transition k _ .failed _ _), _ => if k = j then .settled else .owing
  | q, _, _ => q

/-- A run that owes the job an end does not make it fail under the condition that it is
`CREATED`. -/
def Duty.allows (j : Uuid) : Duty → Op → Prop
  | .owing, .db (.transition k expected .failed _ _) => k = j → expected = [.created, .running]
  | _, _ => True

def dutyProtocol (j : Uuid) : Protocol Op Res Duty where
  next := Duty.after j
  allows := Duty.allows j

section Programs

variable {parts : Parts} {j : Uuid} {server : ℕ} {o : Op} {q : Duty}

theorem dutyProtocol_of_noTransition (ho : o.NoTransition j) (q : Duty) :
    (dutyProtocol j).allows q o ∧ ∀ r, (dutyProtocol j).next q o r = q := by
  cases o with
  | fs o => exact ⟨by cases q <;> trivial, fun r => by cases q <;> rfl⟩
  | sys o => exact ⟨by cases q <;> trivial, fun r => by cases q <;> rfl⟩
  | db o =>
    cases o with
    | transition k expected target code message =>
      have hk : k ≠ j := ho
      constructor
      · cases q <;> cases target <;> first | trivial | exact fun h => absurd h hk
      · intro r
        show Duty.after j q _ r = q
        rcases r with x | _ | _ <;> cases q <;> cases target <;> simp [Duty.after, hk]
    | _ => exact ⟨by cases q <;> trivial, fun r => by cases q <;> rfl⟩

theorem preserves_duty {α : Type} {I : Duty → Prop} {p : Prog Op Res α}
    (hp : Calls (fun o => o.NoTransition j) p) : Preserves (dutyProtocol j) I p :=
  preserves_of_calls hp fun q _ _ ho => dutyProtocol_of_noTransition ho q

theorem preserves_duty_op {I : Duty → Prop} (ho : o.NoTransition j) :
    Preserves (dutyProtocol j) I (perform o).run := preserves_duty (calls_op ho)

theorem Op.Frames.noTransition (ho : o.Frames j) : o.NoTransition j := by
  cases o with
  | db o => cases o <;> first | exact absurd ho id | trivial
  | fs o => trivial
  | sys o => trivial

/-- The body of a run that owes an end: it returns with the end asked for, and raises
still owing it. -/
theorem runBody_duty :
    Obeys (dutyProtocol j)
      (fun r q => (∃ b, r = .ok b) ∧ q = .settled ∨ (∃ e, r = .error e) ∧ q = .owing)
      (JobOrchestratorService.runBody parts server j).run .owing := by
  have hframe : ∀ o : Op, o.Frames j →
      Preserves (dutyProtocol j) (fun q => q = .owing) (perform o).run :=
    fun o ho => preserves_duty_op ho.noTransition
  refine obeys_bindE (hframe (.db (.getJob j)) rfl _ rfl) ?_ fun e _ h => .inr ⟨⟨e, rfl⟩, h⟩
  rintro row _ rfl
  cases row with
  | none => exact obeys_ret (.inr ⟨⟨_, rfl⟩, rfl⟩)
  | some record =>
    refine obeys_bindE (inheritContext_preserves_of hframe _ _ rfl) ?_
      fun e _ h => .inr ⟨⟨e, rfl⟩, h⟩
    rintro context _ rfl
    refine obeys_bindE (preserves_duty (I := fun q => q = .owing) (calls_mono (fun o ho =>
      ho.1.noTransition) (generateActions_calls _ _ _)) _ rfl) ?_ fun e _ h => .inr ⟨⟨e, rfl⟩, h⟩
    rintro plan _ rfl
    refine obeys_bindE (hframe (JobOrchestratorService.planExecutedOp j) rfl _ rfl) ?_
      fun e _ h => .inr ⟨⟨e, rfl⟩, h⟩
    rintro _ _ rfl
    have hcomplete : Obeys (dutyProtocol j)
        (fun r q => (∃ b, r = .ok b) ∧ q = .settled ∨ (∃ e, r = .error e) ∧ q = .owing)
        (perform (JobOrchestratorService.completeOp j)).run .owing := by
      refine obeys_op (P := dutyProtocol j) trivial fun r => ?_
      show _ ∧ Duty.after j .owing _ r = _ ∨ _ ∧ Duty.after j .owing _ r = _
      rcases r with e | b
      · exact .inr ⟨⟨e, rfl⟩, rfl⟩
      · exact .inl ⟨⟨b, rfl⟩, if_pos rfl⟩
    refine obeys_bindE hcomplete ?_ ?_
    · rintro b _ (⟨-, rfl⟩ | ⟨⟨e, he⟩, -⟩)
      · exact obeys_ret (.inl ⟨⟨true, rfl⟩, rfl⟩)
      · exact absurd he (by simp)
    · rintro e _ (⟨⟨b, hb⟩, -⟩ | ⟨-, rfl⟩)
      · exact absurd hb (by simp)
      · exact .inr ⟨⟨e, rfl⟩, rfl⟩

theorem eq_cancelled {e : Exn} (h : e.isException = false) : e = .cancelled := by
  cases e with
  | cancelled => rfl
  | _ => exact absurd h (by simp [Exn.isException])

theorem runInSlot_duty :
    Obeys (dutyProtocol j) (fun r q => q = .owing → r = .error .cancelled)
      (JobOrchestratorService.runInSlot parts server j).run .free := by
  have hstart : Obeys (dutyProtocol j)
      (fun r q => r = .ok true ∧ q = .owing ∨ r ≠ .ok true ∧ q = .free)
      (perform (JobOrchestratorService.startOp j)).run .free := by
    refine obeys_op (P := dutyProtocol j) trivial fun r => ?_
    show _ ∧ Duty.after j .free _ r = _ ∨ _ ∧ Duty.after j .free _ r = _
    rcases r with e | _ | _
    · exact .inr ⟨by simp, rfl⟩
    · exact .inr ⟨by simp, rfl⟩
    · exact .inl ⟨rfl, if_pos rfl⟩
  refine obeys_bindE hstart ?_ ?_
  · rintro started _ (⟨hok, rfl⟩ | ⟨hne, rfl⟩)
    · obtain rfl : started = true := Except.ok.inj hok
      refine obeys_tryExcept runBody_duty ?_ ?_ ?_
      · rintro b _ (⟨-, rfl⟩ | ⟨⟨e, he⟩, -⟩)
        · exact fun h => absurd h (by simp)
        · exact absurd he (by simp)
      · rintro e _ - (⟨⟨b, hb⟩, -⟩ | ⟨-, rfl⟩)
        · exact absurd hb (by simp)
        · -- whatever comes of it, the handler asks for the end
          have hfail : Obeys (dutyProtocol j) (fun _ q => q = .settled)
              (do let _ ← perform (JobOrchestratorService.failOp parts j e); pure () :
                Task Unit).run .owing := by
            refine obeys_bindE (R := fun _ q => q = .settled) ?_ (fun _ _ h => obeys_ret h)
              fun _ _ h => h
            exact obeys_op (P := dutyProtocol j) (fun _ => rfl) fun r => if_pos rfl
          refine obeys_bindE (R := fun _ q => q = .settled) (obeys_tryExcept hfail
            (fun _ _ h => h) (fun _ _ _ h => obeys_ret h) fun _ _ _ h => h) ?_ ?_
          · rintro _ _ rfl
            exact obeys_ret fun h => absurd h (by simp)
          · rintro _ _ rfl
            exact fun h => absurd h (by simp)
      · rintro e _ hpass -
        exact fun _ => by rw [eq_cancelled hpass]
    · cases started with
      | true => exact absurd rfl hne
      | false => exact obeys_ret fun h => absurd h (by simp)
  · rintro e _ (⟨hok, -⟩ | ⟨-, rfl⟩)
    · exact absurd hok (by simp)
    · exact fun h => absurd h (by simp)

/-- **A run returns owing an end only when it was cancelled.** -/
theorem run_duty :
    Obeys (dutyProtocol j) (fun r q => q = .owing → r = .error .cancelled)
      (JobOrchestratorService.run parts server j).run .free := by
  refine obeys_tryExcept (R := fun r q => q = .owing → r = .error .cancelled) ?_
    (fun _ _ h => h) ?_ fun _ _ _ h => h
  · refine obeys_bindE (R := fun _ q => q = .free)
      (preserves_duty_op (I := fun q => q = .free) (o := .sys (.acquireGate server)) trivial _ rfl)
      ?_ ?_
    · rintro _ _ rfl
      refine obeys_tryFinally runInSlot_duty fun r q hr => ?_
      exact preserves_duty (I := fun q' => q' = .owing → r = .error .cancelled)
        (calls_attemptOnly (o := .sys (.releaseGate server)) trivial) _ hr
    · rintro _ _ rfl
      exact fun h => absurd h (by simp)
  · intro e q he hq
    -- the exception that is caught here is no cancellation, so that nothing is owed
    have hfree : q ≠ .owing := by
      intro howing
      rw [of_decide_eq_true he] at hq
      exact absurd (Except.error.inj (hq howing)) (by simp [queueTimeoutError])
    have hkept : Obeys (dutyProtocol j) (fun _ q' => q' ≠ .owing)
        (perform (JobOrchestratorService.queueTimeoutOp j)).run q := by
      refine obeys_op (P := dutyProtocol j) ?_ fun r => ?_
      · cases q with
        | owing => exact absurd rfl hfree
        | _ => trivial
      · show Duty.after j q _ r ≠ .owing
        cases q with
        | owing => exact absurd rfl hfree
        | free => rcases r with x | _ | _ <;> simp [Duty.after]
        | settled => rcases r with x | _ | _ <;> simp [Duty.after]
    exact obeys_bindE hkept (fun _ _ h => obeys_ret fun howing => absurd howing h)
      fun _ _ h howing => absurd howing h

theorem body_duty (parts : Parts) (j : Uuid) (c : Call) :
    Obeys (dutyProtocol j)
      (fun r q => q = .owing → r = .error .cancelled) ((platform parts).body c) .free := by
  by_cases hc : ∃ server, c = .run server j
  · obtain ⟨server, rfl⟩ := hc
    refine obeys_bindE run_duty ?_ ?_
    · intro b q hq
      exact obeys_ret fun howing => absurd (hq howing) (by simp)
    · exact fun e q hq howing => congrArg Except.error (Except.error.inj (hq howing))
  · have hne : ∀ server, c ≠ .run server j := fun server h => hc ⟨server, h⟩
    refine (preserves_duty (I := fun q => q = .free) (calls_mono (fun o ho =>
      Call.noTransition hne ho) (body_calls parts c)) _ rfl).mono ?_
    rintro _ _ rfl
    exact fun h => absurd h (by simp)

end Programs

/-! ### Running jobs are attended -/

section Attended

variable {parts : Parts} {j : Uuid} {t : ℕ} {h : History}

/-- The transition of job `j` to `FAILED` has raised. -/
def dropsFailure (j : Uuid) : Mark
  | .db (.transition k _ .failed _ _), .error _ => k = j
  | _, _ => false

theorem Duty.after_eq_free {q : Duty} {o : Op} {r : Res o} :
    Duty.after j q o r = .free ↔ q = .free ∧ ¬ starts j o r = true := by
  cases o with
  | fs o => cases q <;> simp [Duty.after, starts]
  | sys o => cases q <;> simp [Duty.after, starts]
  | db o =>
    cases o with
    | transition k expected target code message =>
      rcases r with e | _ | _ <;> cases target <;> cases q <;> simp [Duty.after, starts] <;> grind
    | _ => cases q <;> simp [Duty.after, starts]

theorem not_starts_of_noTransition {o : Op} (ho : o.NoTransition j) (r : Res o) :
    starts j o r = false := by
  have hnext := (dutyProtocol_of_noTransition ho .free).2 r
  exact Bool.eq_false_iff.mpr (Duty.after_eq_free.mp hnext).2

/-- Nothing is settled that was not owed. -/
theorem Duty.after_free_ne_settled {o : Op} {r : Res o} : Duty.after j .free o r ≠ .settled := by
  unfold Duty.after
  grind

/-- A run owes nothing before it has started its job. -/
theorem duty_free_iff : (dutyProtocol j).phase .free t h = .free ↔ ¬ SeenBy (starts j) t h := by
  induction h with
  | nil => simp [Protocol.phase, SeenBy]
  | cons l h ih =>
    rw [seenBy_cons]
    by_cases hl : l.tid = t
    · subst hl
      have hown : (dutyProtocol j).phase .free l.tid (l :: h) =
          Duty.after j ((dutyProtocol j).phase .free l.tid h) l.op l.res :=
        Protocol.phase_own l.op l.res
      rw [hown, Duty.after_eq_free]
      tauto
    · rw [Protocol.phase_other hl]
      tauto

/-- A conditional update that was answered has found the job in another status, or has
changed it. -/
theorem exec_transition_answered {base : Path} {e : Env} {expected : List Status}
    {target : Status} {code : EventCode} {message : String} {b : Bool} {w w' : World}
    (hexec : exec base e (.db (.transition j expected target code message)) w = some (.ok b, w')) :
    w'.db.status j = some target ∨ w' = w ∧ ∀ s ∈ expected, w.db.status j ≠ some s := by
  rcases exec_db_cases hexec with ⟨db, hrun, rfl⟩ | ⟨⟨name, detail, hr⟩, -⟩
  · rcases DbOp.run_transition hrun with ⟨row, hrow, hin, -, rfl⟩ | ⟨hnone, -, rfl⟩
    · exact .inl (status_setStatus hrow _ target)
    · refine .inr ⟨rfl, fun s hs hstatus => ?_⟩
      obtain ⟨row, hrow, rfl⟩ := Option.map_eq_some_iff.mp hstatus
      exact hnone row hrow hs
  · exact absurd hr (by simp)

/-- A job that was started is running or has ended. -/
theorem status_of_started {m : State} (hm : (platform parts).Reach (start parts) m)
    (hstart : SeenBy (starts j) t m.view.history) :
    ∃ s, State.status j m = some s ∧ (s = .running ∨ s.terminal) := by
  have hfirst : ¬ (State.status j m = none ∨ State.status j m = some .created) := fun hnone =>
    not_seenBy ((startedOnce hm).2 hnone) hstart
  rcases hstatus : State.status j m with _ | s
  · exact absurd (.inl hstatus) hfirst
  · refine ⟨s, rfl, ?_⟩
    cases s with
    | created => exact absurd (.inr hstatus) hfirst
    | running => exact .inl rfl
    | completed => exact .inr rfl
    | failed => exact .inr rfl

/-- The job has ended, or thread `t` could not record that it has failed. -/
def Discharged (j : Uuid) (t : ℕ) (v : View World Op Res) : Prop :=
  (∃ s, v.state.db.status j = some s ∧ s.terminal) ∨ SeenBy (dropsFailure j) t v.history

theorem Discharged.step {m m' : State} (hm : (platform parts).Reach (start parts) m)
    (hstep : (platform parts).Step m m') (h : Discharged j t m.view) : Discharged j t m'.view := by
  rcases h with ⟨s, hstatus, hterm⟩ | hdrop
  · exact .inl ⟨s, terminal_final hterm hm (.single hstep) hstatus, hterm⟩
  · exact .inr (hdrop.mono (history_of_reach (.single hstep)))

/-- The end that a run has asked for has come, or it could not be recorded. -/
theorem discharged_of_asked {m : State} {c : Call} {o : Op}
    {k : Res o → Prog Op Res (Except Exn Reply)} {e : Env} {r : Res o} {w : World}
    (hm : (platform parts).Reach (start parts) m) (ht : m.threads[t]? = some (c, .call o k))
    (hexec : (platform parts).exec e o m.view.state = some (r, w))
    (hstart : SeenBy (starts j) t m.view.history) (hallows : (dutyProtocol j).allows .owing o)
    (hnext : (dutyProtocol j).next .owing o r = .settled) :
    Discharged j t (m.view.push t o r w) := by
  have hlaw : o.Lawful := Call.lawful (System.Reach.calls (body_calls parts) hm ht).head
  by_cases ho : o.NoTransition j
  · rw [(dutyProtocol_of_noTransition ho .owing).2 r] at hnext
    exact absurd hnext (by simp)
  cases o with
  | fs o => exact absurd trivial ho
  | sys o => exact absurd trivial ho
  | db o =>
    cases o with
    | transition i expected target code message =>
      obtain rfl : i = j := Classical.not_not.mp ho
      obtain ⟨s, hstatus, hs⟩ := status_of_started hm hstart
      -- where the update has found nothing to change, the job has ended before
      have hanswered : ∀ b, r = .ok b → target.terminal → .running ∈ expected →
          Discharged i t (m.view.push t _ r w) := by
        rintro b rfl hterm hmem
        have hrun : exec parts.base e _ m.view.state = some (.ok b, w) := hexec
        rcases exec_transition_answered hrun with hset | ⟨rfl, hnone⟩
        · exact .inl ⟨target, hset, hterm⟩
        · refine .inl ⟨s, hstatus, hs.resolve_left ?_⟩
          rintro rfl
          exact hnone _ hmem hstatus
      cases target with
      | completed =>
        have hexpected : expected = [.running] := by simpa [Op.Lawful, statusEdges] using hlaw
        rcases r with x | b
        · exact absurd hnext (by simp [dutyProtocol, Duty.after])
        · exact hanswered b rfl rfl (by simp [hexpected])
      | failed =>
        have hexpected : expected = [.created, .running] := hallows rfl
        rcases r with x | b
        · exact .inr (seenBy_cons.mpr (.inl ⟨rfl, decide_eq_true rfl⟩))
        · exact hanswered b rfl rfl (by simp [hexpected])
      | created => exact absurd hnext (by simp [dutyProtocol, Duty.after])
      | running => exact absurd hnext (by simp [dutyProtocol, Duty.after])
    | _ => exact absurd trivial ho

theorem discharged_of_settled {m : State} (hm : (platform parts).Reach (start parts) m) {c : Call}
    {p : Prog Op Res (Except Exn Reply)} (ht : m.threads[t]? = some (c, p))
    (hphase : (dutyProtocol j).phase .free t m.view.history = .settled) :
    Discharged j t m.view := by
  have hview := System.Reach.phase_view (body_duty parts j)
    (J := fun _ t q v => (q ≠ .free → SeenBy (starts j) t v.history) ∧
      (q = .settled → Discharged j t v)) ?_ ?_ ?_ hm ht
  · exact hview.2 hphase
  · exact fun m c t _ _ => ⟨fun h => absurd rfl h, fun h => absurd h (by simp)⟩
  · intro m c t q o k e r w hm ht hallows hexec ⟨hstart, hsettled⟩
    have hstep := System.Step.perform m t c o k e r w ht hexec
    have hstart' : (dutyProtocol j).next q o r ≠ .free →
        SeenBy (starts j) t (m.view.push t o r w).history := by
      intro hne
      rw [View.push_history, seenBy_cons]
      by_contra hnone
      obtain ⟨hnow, hbefore⟩ := not_or.mp hnone
      refine hne (Duty.after_eq_free.mpr ⟨?_, fun hs => hnow ⟨rfl, hs⟩⟩)
      exact Classical.not_not.mp fun hq => hbefore (hstart hq)
    refine ⟨hstart', fun hnext => ?_⟩
    cases q with
    | free => exact absurd hnext Duty.after_free_ne_settled
    | owing => exact discharged_of_asked hm ht hexec (hstart (by simp)) hallows hnext
    | settled => exact (hsettled rfl).step hm hstep
  · intro m m' c t q l hm hstep hlabel hl ⟨hstart, hsettled⟩
    exact ⟨fun hq => (hstart hq).mono (history_of_reach (.single hstep)),
      fun hq => (hsettled hq).step hm hstep⟩

/-- **Running jobs are attended.**  In every reachable state, a job that is `RUNNING` has
exactly one thread that started it, which is a run of this job.  If this run is over, it was
cancelled, or the database refused to record its failure. -/
theorem running_job_attended (parts : Parts) {m : State} {j : Uuid}
    (hm : (platform parts).Reach (start parts) m) (hrunning : m.status j = some .running) :
    ∃ t server p, m.threads[t]? = some (.run server j, p) ∧
      SeenBy (starts j) t m.view.history ∧ (∀ u, SeenBy (starts j) u m.view.history → u = t) ∧
      ∀ r, p = .ret r → r = .error .cancelled ∨ SeenBy (dropsFailure j) t m.view.history := by
  obtain ⟨l, hl, hstarts⟩ := List.countP_pos_iff.mp (started_of_running hm hrunning)
  have hstart : SeenBy (starts j) l.tid m.view.history := ⟨l, hl, rfl, hstarts⟩
  obtain ⟨c, p, hthread, hop⟩ := System.Reach.performed_by (body_calls parts) hm hl
  -- only a run of the job issues its transitions
  obtain ⟨server, rfl⟩ : ∃ server, c = .run server j := by
    by_contra hc
    have hno := Call.noTransition (j := j) (fun server h => hc ⟨server, h⟩) hop
    rw [not_starts_of_noTransition hno] at hstarts
    exact absurd hstarts (by simp)
  refine ⟨l.tid, server, p, hthread, hstart, fun u hu => ?_, ?_⟩
  · exact SeenBy.unique (startedOnce hm).1 hu hstart
  · rintro r rfl
    have hpost := (System.Reach.obeys (body_duty parts j) hm hthread).returned
    rcases hphase : (dutyProtocol j).phase .free l.tid m.view.history with _ | _ | _
    · exact absurd hstart (duty_free_iff.mp hphase)
    · exact .inl (hpost hphase)
    · refine .inr ((discharged_of_settled hm hthread hphase).resolve_left ?_)
      rintro ⟨s, hs, hterm⟩
      rw [State.status] at hrunning
      obtain rfl : .running = s := Option.some.inj (hrunning.symm.trans hs)
      exact absurd hterm (by decide)

end Attended

namespace Sample

/-- The task is cancelled where it waits. -/
def interrupted : Env := { calm with cancel := true }

/-- Thread `t` has raised. -/
def raised (t : ℕ) (m : State) : Bool :=
  match (m.threads[t]? : Option (Call × Prog Op Res (Except Exn Reply))) with
  | some (_, .ret (.error _)) => true
  | _ => false

theorem of_raised {t : ℕ} {m : State} (h : raised t m = true) :
    ∃ c x, m.threads[t]? = some (c, .ret (.error x)) := by
  unfold raised at h
  split at h
  · rename_i c x hthread
    exact ⟨c, x, hthread⟩
  · exact absurd h (by simp)

end Sample

set_option maxRecDepth 100000 in
/-- A run that was cancelled while it waited for the model leaves a job that is `RUNNING`. -/
theorem running_job_attended_cancelled :
    ∃ m : State, (platform (Sample.parts Sample.plan)).Reach
        (start (Sample.parts Sample.plan)) m ∧ m.status Sample.job = some .running ∧
      ∃ server, m.threads[1]? = some (.run server Sample.job, .ret (.error .cancelled)) := by
  obtain ⟨m, hm, hgood⟩ := Sample.reached (Sample.parts Sample.plan)
    (Sample.running 4 ++ List.replicate 2 (.perform 1 Sample.interrupted))
    (fun m => m.status Sample.job = some .running ∧ Sample.raised 1 m ∧
      SeenBy (starts Sample.job) 1 m.view.history ∧
      ¬ SeenBy (dropsFailure Sample.job) 1 m.view.history) (by decide +kernel)
  obtain ⟨hrunning, hraised, hstart, hdrop⟩ := of_decide_eq_true hgood
  obtain ⟨t, server, p, hthread, -, hunique, hret⟩ := running_job_attended _ hm hrunning
  obtain rfl := hunique 1 hstart
  obtain ⟨c, x, hx⟩ := Sample.of_raised hraised
  obtain rfl : p = .ret (.error x) :=
    congrArg Prod.snd (Option.some.inj (hthread.symm.trans hx))
  rw [(hret _ rfl).resolve_right hdrop] at hthread
  exact ⟨m, hm, hrunning, server, hthread⟩

/-! ### The duty of a request -/

/-- A request has not inserted a job, has inserted this one, or has scheduled its run. -/
inductive Launch
  | idle
  | inserted (j : Uuid)
  | scheduled (j : Uuid)

def Launch.after : Launch → (o : Op) → Res o → Launch
  | .idle, .db (.insertJob _ _), .ok j => .inserted j
  | .inserted j, .sys (.schedule _), .ok _ => .scheduled j
  | q, _, _ => q

/-- One job is inserted, and its run is scheduled once. -/
def Launch.allows : Launch → Op → Prop
  | q, .db (.insertJob _ _) => q = .idle
  | q, .sys (.schedule j) => q = .inserted j
  | _, _ => True

def launchProtocol : Protocol Op Res Launch where
  next := Launch.after
  allows := Launch.allows

/-- The operation inserts no job and schedules no run. -/
def Op.NoLaunch : Op → Prop
  | .db (.insertJob _ _) | .sys (.schedule _) => False
  | _ => True

section Launch

theorem launchProtocol_of_noLaunch {o : Op} (ho : o.NoLaunch) (q : Launch) :
    launchProtocol.allows q o ∧ ∀ r, launchProtocol.next q o r = q := by
  cases o with
  | fs o => exact ⟨by cases q <;> trivial, fun r => by cases q <;> rfl⟩
  | db o =>
    cases o with
    | insertJob prompt parent => exact absurd ho id
    | _ => exact ⟨by cases q <;> trivial, fun r => by cases q <;> rfl⟩
  | sys o =>
    cases o with
    | schedule j => exact absurd ho id
    | _ => exact ⟨by cases q <;> trivial, fun r => by cases q <;> rfl⟩

theorem preserves_launch {α : Type} {I : Launch → Prop} {p : Prog Op Res α}
    (hp : Calls Op.NoLaunch p) : Preserves launchProtocol I p :=
  preserves_of_calls hp fun q _ _ ho => launchProtocol_of_noLaunch ho q

/-- Nothing is scheduled, and what is returned was inserted. -/
def Launch.Made (r : Except Exn Uuid) (q : Launch) : Prop :=
  (∀ j, q ≠ .scheduled j) ∧ ∀ j, r = .ok j → q = .inserted j

/-- What is returned was scheduled, and nothing is scheduled when an exception is raised. -/
def Launch.Answered (r : Except Exn Uuid) (q : Launch) : Prop :=
  (∀ j, r = .ok j → q = .scheduled j) ∧ ∀ x, r = .error x → ∀ j, q ≠ .scheduled j

theorem Launch.made_error {q : Launch} (hq : ∀ j, q ≠ .scheduled j) (e : Exn) :
    Launch.Made (.error e) q := ⟨hq, fun _ h => absurd h (by simp)⟩

/-- An operation that neither inserts nor schedules, before anything is scheduled. -/
theorem obeys_made {o : Op} (ho : o.NoLaunch) {q : Launch} (hq : ∀ j, q ≠ .scheduled j)
    {f : o.Val → Task Uuid} (hf : ∀ v, Obeys launchProtocol Launch.Made (f v).run q) :
    Obeys launchProtocol Launch.Made (perform o >>= f).run q := by
  refine obeys_bindE (preserves_launch (I := fun q' => q' = q) (calls_op ho) q rfl) ?_ ?_
  · rintro v _ rfl
    exact hf v
  · rintro e _ rfl
    exact Launch.made_error hq e

/-- What `create_job` returns is the job that it has inserted. -/
theorem createJob_made (prompt : String) (parent : Option Uuid) :
    Obeys launchProtocol Launch.Made (JobService.createJob prompt parent).run .idle := by
  have hinsert : Obeys launchProtocol Launch.Made
      (perform (.db (.insertJob prompt parent))).run .idle := by
    refine obeys_op (P := launchProtocol) (o := .db (.insertJob prompt parent)) rfl fun r => ?_
    show Launch.Made r (Launch.after .idle _ r)
    rcases r with x | j
    · exact Launch.made_error (by simp [Launch.after]) x
    · exact ⟨by simp [Launch.after], fun _ h => congrArg _ (Except.ok.inj h)⟩
  refine obeys_bindE hinsert ?_ fun e q h => Launch.made_error h.1 e
  rintro j q ⟨-, hq⟩
  obtain rfl := hq j rfl
  have hne : ∀ i, Launch.inserted j ≠ .scheduled i := by simp
  refine obeys_made (o := .db (.getJob j)) trivial hne fun _ => ?_
  refine obeys_made (o := .fs (.createWorkspace j)) trivial hne fun _ => ?_
  refine obeys_made (o := .db (.logEvents j _)) trivial hne fun _ => ?_
  refine obeys_made (o := .db (.getJob j)) trivial hne fun _ => ?_
  exact obeys_ret ⟨hne, fun _ h => congrArg _ (Except.ok.inj h)⟩

theorem createRefinementJob_made (parent : Uuid) (prompt : String) :
    Obeys launchProtocol Launch.Made (JobService.createRefinementJob parent prompt).run .idle := by
  have hne : ∀ i, Launch.idle ≠ .scheduled i := by simp
  refine obeys_made (o := .db (.getJob parent)) trivial hne fun row => ?_
  cases row with
  | none => exact obeys_ret (Launch.made_error hne _)
  | some row =>
    show Obeys _ _ (ExceptT.run (if row.status ≠ .completed then _ else _)) _
    by_cases hs : row.status ≠ .completed
    · rw [if_pos hs]
      exact obeys_ret (Launch.made_error hne _)
    · rw [if_neg hs]
      have hsize : Calls Op.NoLaunch
          (JobService.contextSize parent JobOrchestratorService.inheritedFiles 0).run := by
        refine calls_mono (fun o ho => ?_) (contextSize_calls _ _ _)
        have hmeasures := ho.1
        cases o with
        | fs o => trivial
        | _ => exact absurd hmeasures id
      refine obeys_bindE (preserves_launch (I := fun q' => q' = .idle) hsize _ rfl) ?_ ?_
      · rintro total _ rfl
        by_cases ht : JobService.maxRefinementContextBytes < total
        · rw [if_pos ht]
          exact obeys_ret (Launch.made_error hne _)
        · rw [if_neg ht]
          exact createJob_made prompt (some parent)
      · rintro e _ rfl
        exact Launch.made_error hne e

/-- The handler schedules the run of the job that it answers with. -/
theorem obeys_answered {x : Task Uuid} (hx : Obeys launchProtocol Launch.Made x.run .idle) :
    Obeys launchProtocol Launch.Answered
      (x >>= fun j => do perform (.sys (.schedule j)); pure j : Task Uuid).run .idle := by
  refine obeys_bindE hx ?_ fun e q h => ⟨fun _ h => absurd h (by simp), fun _ _ => h.1⟩
  rintro j q ⟨-, hq⟩
  obtain rfl := hq j rfl
  have hschedule : Obeys launchProtocol
      (fun r q => (∀ u, r = .ok u → q = .scheduled j) ∧ ∀ x, r = .error x → q = .inserted j)
      (perform (.sys (.schedule j))).run (.inserted j) := by
    refine obeys_op (P := launchProtocol) rfl fun r => ?_
    rcases r with x | u
    · exact ⟨fun _ h => absurd h (by simp), fun _ _ => rfl⟩
    · exact ⟨fun _ _ => rfl, fun _ h => absurd h (by simp)⟩
  refine obeys_bindE hschedule ?_ ?_
  · rintro u q ⟨hq, -⟩
    obtain rfl := hq u rfl
    exact obeys_ret ⟨fun _ h => congrArg _ (Except.ok.inj h), fun _ h => absurd h (by simp)⟩
  · rintro e q ⟨-, hq⟩
    obtain rfl := hq e rfl
    exact ⟨fun _ h => absurd h (by simp), fun _ _ => by simp⟩

/-- What a call has scheduled when it returns. -/
def Launch.Replied (r : Except Exn Reply) (q : Launch) : Prop :=
  (∀ j, r = .ok (.created j) → q = .scheduled j) ∧ ∀ x, r = .error x → ∀ j, q ≠ .scheduled j

/-- Only requests launch jobs. -/
def Call.isRequest : Call → Bool
  | .create _ | .refine _ _ => true
  | .run _ _ | .recover _ | .orphan _ => false

theorem Call.noLaunch {c : Call} (hc : c.isRequest = false) {o : Op} (h : c.ops o) :
    o.NoLaunch := by
  cases o with
  | fs o => trivial
  | db o =>
    cases o with
    | insertJob prompt parent => cases c <;> first | exact absurd h id | cases hc
    | _ => trivial
  | sys o =>
    cases o with
    | schedule j => cases c <;> first | exact absurd h id | cases hc
    | _ => trivial

theorem body_launch (parts : Parts) (c : Call) :
    Obeys launchProtocol Launch.Replied ((platform parts).body c) .idle := by
  -- a request replies with the job that it answers with
  have hrequest : ∀ {x : Task Uuid}, Obeys launchProtocol Launch.Answered x.run .idle →
      Obeys launchProtocol Launch.Replied (Reply.created <$> x).run .idle := by
    intro x hx
    refine obeys_bindE hx ?_ ?_
    · refine fun j q h => obeys_ret ⟨fun i hi => ?_, fun _ h => absurd h (by simp)⟩
      exact h.1 i (by rw [Reply.created.inj (Except.ok.inj hi)])
    · exact fun e q h => ⟨fun _ h => absurd h (by simp), fun _ _ => h.2 e rfl⟩
  -- the other calls launch nothing, and reply with something else
  have hother : ∀ {α : Type} {x : Task α} {f : α → Reply}, c.isRequest = false →
      (∀ a j, f a ≠ .created j) → (platform parts).body c = (f <$> x).run →
      Obeys launchProtocol Launch.Replied ((platform parts).body c) .idle := by
    intro α x f hc hf hbody
    have hreply : Returns (fun r => ∀ b, r = .ok b → ∀ j, b ≠ .created j)
        ((platform parts).body c) := by
      rw [hbody]
      refine returns_bindE fun a b hb j => ?_
      rw [← Except.ok.inj hb]
      exact hf a j
    refine Obeys.mono (Obeys.returns (preserves_launch (I := fun q => q = .idle)
      (calls_mono (fun _ ho => Call.noLaunch hc ho) (body_calls parts c)) _ rfl) hreply) ?_
    rintro r _ ⟨rfl, hr⟩
    exact ⟨fun j hj => absurd rfl (hr _ hj j), fun _ _ => by simp⟩
  cases c with
  | create prompt => exact hrequest (obeys_answered (createJob_made prompt none))
  | refine parent prompt => exact hrequest (obeys_answered (createRefinementJob_made parent prompt))
  | run server j => exact hother rfl (by simp) rfl
  | recover cutoff => exact hother rfl (by simp) rfl
  | orphan o => exact hother rfl (by simp) rfl

end Launch

/-! ### Jobs without a run -/

section Stranded

variable {parts : Parts} {j : Uuid} {t : ℕ} {m m' : State}

/-- The runs that are scheduled change by `schedule` only. -/
theorem exec_noLaunch {base : Path} {e : Env} {o : Op} {r : Res o} {w w' : World}
    (ho : o.NoLaunch) (h : exec base e o w = some (r, w')) : w'.scheduled = w.scheduled := by
  cases o with
  | fs o =>
    obtain ⟨fs, -, rfl⟩ := exec_fs h
    rfl
  | db o =>
    obtain ⟨db, -, rfl⟩ := exec_db h
    rfl
  | sys o =>
    have hnone : o.affects = none := by cases o <;> first | exact absurd ho id | rfl
    exact (SysOp.exec_sameData h hnone).2.2

theorem not_inserts_of_noLaunch {o : Op} (ho : o.NoLaunch) (k : Uuid) (r : Res o) :
    inserts k o r = false := by
  cases o with
  | fs o => rfl
  | sys o => rfl
  | db o => cases o <;> first | exact absurd ho id | rfl

/-- What a thread has inserted and scheduled, as its phase tells it. -/
def Launch.Tells (t : ℕ) (v : View World Op Res) : Launch → Prop
  | .idle => ∀ k, ¬ SeenBy (inserts k) t v.history
  | .inserted j => (∀ k, SeenBy (inserts k) t v.history ↔ k = j) ∧ j ∉ v.state.scheduled
  | .scheduled j => (∀ k, SeenBy (inserts k) t v.history ↔ k = j) ∧ j ∈ v.state.scheduled

theorem Launch.Tells.congr {v v' : View World Op Res} {q : Launch} (h : q.Tells t v)
    (hseen : ∀ k, SeenBy (inserts k) t v'.history ↔ SeenBy (inserts k) t v.history)
    (hkeep : ∀ k, q = .inserted k → k ∉ v'.state.scheduled)
    (hmono : ∀ k ∈ v.state.scheduled, k ∈ v'.state.scheduled) : q.Tells t v' := by
  cases q with
  | idle => exact fun k hk => h k ((hseen k).mp hk)
  | inserted j => exact ⟨fun k => (hseen k).trans (h.1 k), hkeep j rfl⟩
  | scheduled j => exact ⟨fun k => (hseen k).trans (h.1 k), hmono j h.2⟩

/-- The operations of the thread itself. -/
theorem Launch.Tells.own (hm : (platform parts).Reach (start parts) m) {q : Launch} {o : Op}
    {e : Env} {r : Res o} {w : World} (hallows : launchProtocol.allows q o)
    (hexec : exec parts.base e o m.view.state = some (r, w)) (hq : q.Tells t m.view) :
    (launchProtocol.next q o r).Tells t (m.view.push t o r w) := by
  by_cases ho : o.NoLaunch
  · rw [(launchProtocol_of_noLaunch ho q).2 r]
    have hsched := exec_noLaunch ho hexec
    refine hq.congr (fun k => ?_) (fun k hk => ?_) fun k hk => ?_
    · rw [View.push_history, seenBy_cons, not_inserts_of_noLaunch ho]
      simp
    · subst hk
      rw [View.push_state, hsched]
      exact hq.2
    · rw [View.push_state, hsched]
      exact hk
  cases o with
  | fs o => exact absurd trivial ho
  | db o =>
    cases o with
    | insertJob prompt parent =>
      obtain rfl : q = .idle := hallows
      rcases exec_db_cases hexec with ⟨db, hrun, rfl⟩ | ⟨⟨name, detail, rfl⟩, rfl⟩
      · obtain ⟨hnone, rfl, rfl⟩ := DbOp.run_insertJob hrun
        refine ⟨fun k => ?_, ?_⟩
        · rw [View.push_history, seenBy_cons]
          have hnew : inserts k (.db (.insertJob prompt parent)) (.ok e.fresh) = true ↔
              k = e.fresh := by
            rw [inserts, decide_eq_true_iff, eq_comm]
          exact ⟨fun h => hnew.mp (h.resolve_right (hq k)).2, fun h => .inl ⟨rfl, hnew.mpr h⟩⟩
        · -- there was no such job, so that no run of it was scheduled
          refine ((conduct hm).1.job.absent ?_).2.1
          rw [Db.status, hnone]
          rfl
      · intro k hk
        rw [View.push_history, seenBy_cons] at hk
        exact hk.elim (fun h => absurd h.2 (by simp [inserts])) (hq k)
    | _ => exact absurd trivial ho
  | sys o =>
    cases o with
    | schedule i =>
      obtain rfl : q = .inserted i := hallows
      obtain ⟨rfl, rfl⟩ := Prod.mk.inj (Option.some.inj hexec)
      refine ⟨fun k => ?_, List.mem_cons_self⟩
      rw [View.push_history, seenBy_cons]
      exact (or_iff_right fun h => absurd h.2 (by simp [inserts])).trans (hq.1 k)
    | _ => exact absurd trivial ho

theorem launch_tells (hm : (platform parts).Reach (start parts) m) {c : Call}
    {p : Prog Op Res (Except Exn Reply)} (ht : m.threads[t]? = some (c, p)) :
    (launchProtocol.phase .idle t m.view.history).Tells t m.view := by
  refine System.Reach.phase_view (body_launch parts) (J := fun _ t q v => q.Tells t v)
    ?_ ?_ ?_ hm ht
  · rintro m c t - hnone k ⟨l, hl, htid, -⟩
    exact hnone l hl htid
  · exact fun m c t q o k e r w hm _ hallows hexec hq => hq.own hm hallows hexec
  · intro m m' c t q l hm hstep hlabel hl hq
    have hguar : ∀ k, Guar parts k l.tid m.view m'.view := by
      intro k
      rcases guar_of_step (j := k) hm hstep with hview | ⟨l', hlabel', hG⟩
      · rw [hview] at hlabel
        exact absurd hlabel.symm (List.cons_ne_self _ _)
      · obtain rfl : l = l' := (List.cons.inj (hlabel.symm.trans hlabel')).1
        exact hG
    refine hq.congr (fun k => ?_) (fun k hk => ?_) fun k => (hguar k).scheduled
    · rw [hlabel, seenBy_cons]
      exact or_iff_right fun h => hl h.1
    · -- nobody else schedules the job that a request has inserted
      subst hk
      exact (((hguar k).others t (Ne.symm hl)).2 ((hq.1 k).mpr rfl) hq.2).1

/-- The run of a job is invoked after it was scheduled. -/
theorem scheduled_of_run (hm : (platform parts).Reach (start parts) m) {server : ℕ}
    {p : Prog Op Res (Except Exn Reply)} (ht : m.threads[t]? = some (.run server j, p)) :
    j ∈ m.view.state.scheduled := by
  induction hm generalizing p with
  | refl => exact absurd ht (by simp [start, System.initial])
  | @tail m₁ m₂ hm hstep ih =>
    have hmono : j ∈ m₁.view.state.scheduled → j ∈ m₂.view.state.scheduled := by
      intro hj
      rcases guar_of_step (j := j) hm hstep with hview | ⟨l, -, hG⟩
      · rw [hview]
        exact hj
      · exact hG.scheduled hj
    rcases hstep.thread ht with ⟨hold, -⟩ | ⟨-, -, henabled, -⟩ | ⟨o, k, e, r, s, hold, -, -, -⟩
    · exact hmono (ih hold)
    · exact hmono (of_decide_eq_true henabled)
    · exact hmono (ih hold)

/-- Once the request that inserted a job is over, nothing changes what it has left
unscheduled. -/
theorem unscheduled_kept (hm : (platform parts).Reach (start parts) m)
    (h : (platform parts).Reach m m') {c : Call} {r : Except Exn Reply}
    (ht : m.threads[t]? = some (c, .ret r)) (hinsert : SeenBy (inserts j) t m.view.history)
    (hsched : j ∉ m.view.state.scheduled) :
    m'.threads[t]? = some (c, .ret r) ∧ j ∉ m'.view.state.scheduled ∧
      held parts.base j m'.view.state = held parts.base j m.view.state := by
  induction h with
  | refl => exact ⟨ht, hsched, rfl⟩
  | @tail m₁ m₂ hreach hstep ih =>
    obtain ⟨ht₁, hsched₁, hheld₁⟩ := ih
    have hm₁ := hm.trans hreach
    have hinsert₁ := hinsert.mono (history_of_reach hreach)
    cases hstep with
    | invoke d _ =>
      have hlt : t < m₁.threads.length := (List.getElem?_eq_some_iff.mp ht₁).1
      exact ⟨(List.getElem?_append_left hlt).trans ht₁, hsched₁, hheld₁⟩
    | perform u d o k e res w hu he =>
      -- the request is over, so that another thread has moved
      have hne : t ≠ u := by
        rintro rfl
        exact absurd (congrArg Prod.snd (Option.some.inj (ht₁.symm.trans hu))) (by simp)
      have hstep := System.Step.perform m₁ u d o k e res w hu he
      obtain hview | ⟨l, hlabel, hG⟩ := guar_of_step (j := j) hm₁ hstep
      · exact absurd (congrArg View.history hview) (List.cons_ne_self _ _)
      · obtain rfl : (⟨u, o, res⟩ : Label Op Res) = l := (List.cons.inj hlabel).1
        obtain ⟨hsched₂, hheld₂, -⟩ := (hG.others t hne).2 hinsert₁ hsched₁
        exact ⟨(List.getElem?_set_ne (Ne.symm hne)).trans ht₁, hsched₂, hheld₂.trans hheld₁⟩

/-- **A request launches its job or strands it.**  When a request has answered with a job,
it has inserted it and the run of the job is scheduled.  When it has raised, a job that it
has inserted by then keeps the status `CREATED` and what it holds in every later state: its
run is never scheduled, and no run of it is ever invoked. -/
theorem request_launches_or_strands (parts : Parts) {m m' : State} {t : ℕ} {c : Call}
    {r : Except Exn Reply} (hm : (platform parts).Reach (start parts) m)
    (ht : m.threads[t]? = some (c, .ret r)) (hlater : (platform parts).Reach m m') :
    (∀ j, r = .ok (.created j) → SeenBy (inserts j) t m.view.history ∧
      j ∈ m.view.state.scheduled) ∧
    ∀ x j, r = .error x → SeenBy (inserts j) t m.view.history →
      m'.status j = some .created ∧ j ∉ m'.view.state.scheduled ∧
      held parts.base j m'.view.state = held parts.base j m.view.state ∧
      ∀ (u server : ℕ) (p : Prog Op Res (Except Exn Reply)),
        m'.threads[u]? ≠ some (.run server j, p) := by
  have hpost := (System.Reach.obeys (body_launch parts) hm ht).returned
  have htells := launch_tells hm ht
  refine ⟨fun j hr => ?_, fun x j hr hinsert => ?_⟩
  · rw [hpost.1 j hr] at htells
    exact ⟨(htells.1 j).mpr rfl, htells.2⟩
  · have hsched : j ∉ m.view.state.scheduled := by
      rcases hphase : launchProtocol.phase .idle t m.view.history with _ | i | i
      · rw [hphase] at htells
        exact absurd hinsert (htells j)
      · rw [hphase] at htells
        obtain rfl : j = i := (htells.1 j).mp hinsert
        exact htells.2
      · exact absurd hphase (hpost.2 x hr i)
    obtain ⟨-, hsched', hheld⟩ := unscheduled_kept hm hlater ht hinsert hsched
    have hm' := hm.trans hlater
    have hjob := (conduct (j := j) hm').1.job
    refine ⟨(hjob.unscheduled hsched').resolve_left fun hnone => ?_, hsched', hheld, ?_⟩
    · exact not_seenBy (hjob.absent hnone).1 (hinsert.mono (history_of_reach hlater))
    · exact fun u server p hu => hsched' (scheduled_of_run hm' hu)

end Stranded

set_option maxRecDepth 100000 in
/-- The database refuses the creation event; a recovery that comes later finds nothing to
do. -/
theorem request_launches_or_strands_refused :
    ∃ m m' : State, (platform (Sample.parts [])).Reach (start (Sample.parts [])) m ∧
      (platform (Sample.parts [])).Reach m m' ∧ m'.view.history.length = 5 ∧
      m'.status Sample.job = some .created ∧ Sample.job ∉ m'.view.state.scheduled := by
  obtain ⟨m, m', hm, hlater, hgood⟩ := Sample.reached_then (Sample.parts [])
    (.invoke (.create "make a part") :: List.replicate 3 (.perform 0 Sample.calm) ++
      [.perform 0 Sample.refused])
    [.invoke (.recover 1), .perform 1 Sample.calm]
    (fun m m' => Sample.raised 0 m ∧ SeenBy (inserts Sample.job) 0 m.view.history ∧
      m'.view.history.length = 5) (by decide +kernel)
  obtain ⟨hraised, hinsert, hlength⟩ := of_decide_eq_true hgood
  obtain ⟨c, x, hx⟩ := Sample.of_raised hraised
  obtain ⟨hstatus, hsched, -, -⟩ :=
    (request_launches_or_strands _ hm hx hlater).2 x _ rfl hinsert
  exact ⟨m, m', hm, hlater, hlength, hstatus, hsched⟩

end CliExecutionPlatform
