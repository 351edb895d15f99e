/-
The result of a run.

`run` returns `True` when it has executed its plan and issued the transition to
`COMPLETED`; it does not look at the answer of that transition.  The answer is
`False` exactly if stale recovery has made the job fail before, because the thread
that started a job is the only one that can end it otherwise.

* `runProtocol` — the statuses that a run sets, in their order; `run_obeys` — the
  run follows it, and its result says whether it has asked for `COMPLETED`;
* `owner_status` — what a job that was started can look like;
* `answered` — the answer to the last transition;
* **`run_result_iff`** — the result says whether the run has completed its job if
  and only if the run was not overtaken by stale recovery; `overtaken_run_returns_true`
  is a run that was.
-/
import CliExecutionPlatform.Conduct
import CliExecutionPlatform.Protocol

open Files Process

namespace CliExecutionPlatform

/-! ### The protocol of a run -/

/-- The phases of a run: before its start, after it, after the transition to
`COMPLETED` was answered, and after it has tried to make the job fail. -/
inductive RunPhase
  | waiting
  | started
  | asked (answer : Bool)
  | ended
  deriving DecidableEq

/-- The phase after a transition to `target`. -/
def RunPhase.after (q : RunPhase) (target : Status) (r : Except Exn Bool) : RunPhase :=
  match target, r with
  | .running, .ok true => if q = .waiting then .started else q
  | .completed, .ok b => if q = .started then .asked b else .ended
  | .failed, _ => .ended
  | _, _ => q

/-- The transitions that a phase allows. -/
def RunPhase.allows : RunPhase → Status → Prop
  | .waiting, .running | .waiting, .failed | .started, .completed | .started, .failed => True
  | _, _ => False

/-- The protocol of the runs of job `j`. -/
def runProtocol (j : Uuid) : Protocol Op Res RunPhase where
  next q
    | .db (.transition k _ target _ _), r => if k = j then q.after target r else q
    | _, _ => q
  allows q
    | .db (.transition k _ target _ _) => k = j → q.allows target
    | _ => True

section Protocol

variable {parts : Parts} {j : Uuid} {server : ℕ}

/-- The operation is no transition of job `j`. -/
def Op.NoTransition (j : Uuid) : Op → Prop
  | .db (.transition k _ _ _ _) => k ≠ j
  | _ => True

theorem runProtocol_of_noTransition {o : Op} (h : o.NoTransition j) (q : RunPhase) :
    (runProtocol j).allows q o ∧ ∀ r, (runProtocol j).next q o r = q := by
  cases o with
  | fs o => exact ⟨trivial, fun _ => rfl⟩
  | sys o => exact ⟨trivial, fun _ => rfl⟩
  | db o =>
    cases o with
    | transition k expected target code message =>
      exact ⟨fun hk => absurd hk h, fun r => if_neg h⟩
    | _ => exact ⟨trivial, fun _ => rfl⟩

theorem Working.noTransition {k : Uuid} {o : Op} (h : Working k o) : o.NoTransition j := by
  cases o with
  | fs o => trivial
  | sys o => trivial
  | db o =>
    cases o with
    | transition i expected target code message => exact absurd h id
    | _ => trivial

/-- Operations other than transitions of the job do not matter. -/
theorem obeys_elsewhere {α : Type} {S : Op → Prop} {p : Prog Op Res α} (q : RunPhase)
    (hp : Calls S p) (hS : ∀ o, S o → o.NoTransition j) :
    Obeys (runProtocol j) (fun _ q' => q' = q) p q :=
  obeys_of_calls hp fun o ho => runProtocol_of_noTransition (hS o ho) q

theorem obeys_quiet (q : RunPhase) {o : Op} (ho : o.NoTransition j) :
    Obeys (runProtocol j) (fun _ q' => q' = q) (perform o).run q :=
  obeys_elsewhere (S := fun o => o.NoTransition j) q (calls_op ho) fun _ h => h

/-- A transition of the job. -/
theorem obeys_transition {expected : List Status} {target : Status} {code : EventCode}
    {message : String} {q : RunPhase} (hq : q.allows target) :
    Obeys (runProtocol j) (fun r q' => q' = q.after target r)
      (perform (.db (.transition j expected target code message))).run q := by
  refine obeys_op (P := runProtocol j) (o := .db (.transition j expected target code message))
    (fun _ => hq) fun r => ?_
  exact if_pos rfl

/-- The files of the parent are copied without a transition. -/
theorem inheritContext_quiet (parent : Option Uuid) (q : RunPhase) :
    Obeys (runProtocol j) (fun _ q' => q' = q)
      (JobOrchestratorService.inheritContext j parent).run q := by
  cases parent with
  | none => exact obeys_ret rfl
  | some parent =>
    refine obeys_bindE (R := fun _ q' => q' = q) ?_ ?_ fun _ _ h => h
    · refine obeys_elsewhere (S := fun o => o.NoTransition j) q ?_ fun _ h => h
      generalize JobOrchestratorService.inheritedFiles = files
      induction files with
      | nil => exact calls_value _
      | cons f rest ih =>
        refine calls_bindE (calls_op (o := .fs (.copyWorkspaceFile ..)) trivial) fun _ => ?_
        refine calls_bindE (calls_op (o := .fs (.readFile ..)) trivial) fun _ => ?_
        refine calls_bindE (calls_ofExcept _) fun _ => ?_
        exact calls_bindE ih fun _ => calls_value _
    · rintro context q' rfl
      refine obeys_bindE (obeys_quiet q' (o := .db (.appendEvent ..)) trivial)
        (fun _ _ h => obeys_ret h) fun _ _ h => h

/-- The run returns `True` if and only if the transition to `COMPLETED` was
answered, and an exception leaves it only from before its start. -/
structure Tells (r : Except Exn Bool) (q : RunPhase) : Prop where
  asked : r = .ok true ↔ ∃ b, q = .asked b
  raised : ∀ e, r = .error e → e.isException = true → q = .waiting

theorem tells_asked (b : Bool) : Tells (.ok true) (.asked b) where
  asked := ⟨fun _ => ⟨b, rfl⟩, fun _ => rfl⟩
  raised := fun _ he => absurd he (by simp)

theorem tells_false {q : RunPhase} (hq : ∀ b, q ≠ .asked b) : Tells (.ok false) q where
  asked := ⟨fun h => absurd h (by simp), fun ⟨b, hb⟩ => absurd hb (hq b)⟩
  raised := fun _ he => absurd he (by simp)

theorem tells_error {q : RunPhase} {e : Exn} (hq : ∀ b, q ≠ .asked b)
    (he : e.isException = true → q = .waiting) : Tells (.error e) q where
  asked := ⟨fun h => absurd h (by simp), fun ⟨b, hb⟩ => absurd hb (hq b)⟩
  raised := fun e' he' => by rw [← Except.error.inj he']; exact he

/-- What the run does after it has read its row. -/
theorem runRow_obeys (record : JobRecord) :
    Obeys (runProtocol j)
      (fun r q => (r = .ok true ∧ ∃ b, q = .asked b) ∨ (∃ e, r = .error e) ∧ q = .started)
      (JobOrchestratorService.runRow parts server j record).run .started := by
  refine obeys_bindE (inheritContext_quiet _ _) ?_ fun e _ h => .inr ⟨⟨e, rfl⟩, h⟩
  rintro context _ rfl
  refine obeys_bindE (obeys_elsewhere _ (generateActions_calls _ _ _) fun o ho =>
    ho.1.noTransition) ?_ fun e _ h => .inr ⟨⟨e, rfl⟩, h⟩
  rintro plan _ rfl
  refine obeys_bindE (obeys_quiet _ (o := .db (.appendEvent ..)) trivial) ?_
    fun e _ h => .inr ⟨⟨e, rfl⟩, h⟩
  rintro _ _ rfl
  refine obeys_bindE (obeys_transition trivial) ?_ ?_
  · rintro b _ rfl
    exact obeys_ret (.inl ⟨rfl, b, rfl⟩)
  · rintro e _ rfl
    exact .inr ⟨⟨e, rfl⟩, rfl⟩

theorem runInSlot_obeys :
    Obeys (runProtocol j) Tells (JobOrchestratorService.runInSlot parts server j).run
      .waiting := by
  refine obeys_bindE (obeys_transition trivial) ?_ ?_
  · rintro started _ rfl
    cases started with
    | false => exact obeys_ret (tells_false (by simp [RunPhase.after]))
    | true =>
      have hbody : Obeys (runProtocol j)
          (fun r q => (r = .ok true ∧ ∃ b, q = .asked b) ∨ (∃ e, r = .error e) ∧ q = .started)
          (JobOrchestratorService.runBody parts server j).run .started := by
        refine obeys_bindE (obeys_quiet _ (o := .db (.getJob j)) trivial) ?_
          fun e _ h => .inr ⟨⟨e, rfl⟩, h⟩
        rintro row _ rfl
        cases row with
        | none => exact obeys_ret (.inr ⟨⟨_, rfl⟩, rfl⟩)
        | some record => exact runRow_obeys record
      refine obeys_tryExcept hbody ?_ ?_ ?_
      · rintro a q (⟨ha, b, rfl⟩ | ⟨⟨e, he⟩, -⟩)
        · rw [ha]
          exact tells_asked b
        · exact absurd he (by simp)
      · rintro e q - (⟨he, -⟩ | ⟨-, rfl⟩)
        · exact absurd he (by simp)
        · -- the handler tries to make the job fail, whatever comes of it
          have hfail : Obeys (runProtocol j) (fun _ q' => q' = .ended)
              (do let _ ← perform (JobOrchestratorService.failOp parts j e); pure () :
                Task Unit).run .started := by
            refine obeys_bindE (obeys_transition trivial) ?_ ?_
            · rintro _ _ rfl
              exact obeys_ret rfl
            · rintro _ _ rfl
              rfl
          have hcaught : Obeys (runProtocol j)
              (fun r q' => q' = .ended ∧ ∀ x, r = .error x → x.isException = false)
              (tryExcept Exn.isException
                (do let _ ← perform (JobOrchestratorService.failOp parts j e); pure () :
                  Task Unit) fun _ => pure ()).run .started := by
            refine obeys_tryExcept hfail ?_ ?_ ?_
            · exact fun _ _ h => ⟨h, fun x hx => absurd hx (by simp)⟩
            · exact fun _ _ _ h => obeys_ret ⟨h, fun x hx => absurd hx (by simp)⟩
            · exact fun x _ hx h => ⟨h, fun x' hx' => by rw [← Except.error.inj hx']; exact hx⟩
          refine obeys_bindE hcaught ?_ ?_
          · rintro _ _ ⟨rfl, -⟩
            exact obeys_ret (tells_false (by simp))
          · rintro x _ ⟨rfl, hx⟩
            refine tells_error (by simp) fun hexc => ?_
            rw [hx x rfl] at hexc
            exact absurd hexc (by simp)
      · rintro e q he (⟨hok, -⟩ | ⟨-, rfl⟩)
        · exact absurd hok (by simp)
        · refine tells_error (by simp) fun hexc => ?_
          rw [he] at hexc
          exact absurd hexc (by simp)
  · rintro e _ rfl
    exact tells_error (by simp [RunPhase.after]) fun _ => rfl

/-- **A run follows its protocol**, and its result tells how far it came. -/
theorem run_obeys :
    Obeys (runProtocol j) (fun r q => r = .ok true ↔ ∃ b, q = .asked b)
      (JobOrchestratorService.run parts server j).run .waiting := by
  refine obeys_tryExcept (R := Tells) ?_ (fun _ _ h => h.asked) ?_ fun _ _ _ h => h.asked
  · refine obeys_bindE (obeys_quiet _ (o := .sys (.acquireGate server)) trivial) ?_ ?_
    · rintro _ _ rfl
      refine obeys_tryFinally runInSlot_obeys fun r q hr => ?_
      refine Obeys.mono (obeys_elsewhere (S := fun o => o.NoTransition j) q
        (calls_attemptOnly (o := .sys (.releaseGate server)) trivial) fun _ h => h) ?_
      rintro _ _ rfl
      exact hr
    · rintro e _ rfl
      exact tells_error (by simp) fun _ => rfl
  · intro e q he htells
    -- only waiting for a slot raises this exception
    have hexc : e.isException = true := by
      rw [of_decide_eq_true he]
      rfl
    obtain rfl := htells.raised e rfl hexc
    refine obeys_bindE (obeys_transition trivial) ?_ ?_
    · rintro _ _ rfl
      exact obeys_ret (tells_false (by simp [RunPhase.after])).asked
    · rintro _ _ rfl
      exact ⟨fun h => absurd h (by simp), fun ⟨b, h⟩ => absurd h (by simp [RunPhase.after])⟩

end Protocol

/-! ### Who ends a job -/

section Marks

variable (j : Uuid)

/-- The operation has moved job `j` to `COMPLETED`. -/
def completes : Mark
  | .db (.transition k _ .completed _ _), .ok true => k = j
  | _, _ => false

/-- The transition of job `j` to `COMPLETED` was answered. -/
def asks : Mark
  | .db (.transition k _ .completed _ _), .ok _ => k = j
  | _, _ => false

/-- The operation was a transition that has ended job `j`. -/
def finishes : Mark
  | .db (.transition k _ target _ _), .ok true => k = j ∧ target.terminal
  | _, _ => false

/-- When thread `t` asked for `COMPLETED`, stale recovery had made job `j` fail. -/
def Overtaken (t : ℕ) (h : History) : Prop :=
  Ever (fun l before => l.tid = t ∧ asks j l.op l.res = true ∧ Seen (recovers j) before) h

instance (t : ℕ) (h : History) : Decidable (Overtaken j t h) :=
  inferInstanceAs (Decidable (Ever _ h))

end Marks

section Owner

variable {parts : Parts} {j : Uuid} {t : ℕ} {h : History}

theorem seenBy_cons {f : Mark} {l : Label Op Res} :
    SeenBy f t (l :: h) ↔ (l.tid = t ∧ f l.op l.res = true) ∨ SeenBy f t h := by
  simp [SeenBy]

theorem seen_cons {f : Mark} {l : Label Op Res} :
    Seen f (l :: h) ↔ f l.op l.res = true ∨ Seen f h := by
  simp [Seen]

/-- A status changes by a start, by the insertion of the job, by a transition that
ends it, or by stale recovery. -/
theorem exec_status_marks {base : Path} {e : Env} {o : Op} {w w' : World} {r : Res o}
    (hlaw : o.Lawful) (hexec : exec base e o w = some (r, w')) :
    w'.db.status j = w.db.status j ∨ (starts j o r = true ∧ w'.db.status j = some .running) ∨
      (w.db.status j = none ∧ w'.db.status j = some .created) ∨ finishes j o r = true ∨
      (recovers j o r = true ∧ w'.db.status j = some .failed) := by
  have hkeep : Working j o → w'.db.status j = w.db.status j := fun hw =>
    (exec_working hw hexec).1
  cases o with
  | fs o =>
    rw [(exec_fs_held hexec).1]
    exact .inl rfl
  | sys o =>
    rw [SysOp.exec_db hexec]
    exact .inl rfl
  | db o =>
    by_cases haff : o.affects r = some j
    · cases o with
      | transition k expected target code message =>
        obtain rfl : k = j := Option.some.inj haff
        rcases exec_transition hexec with ⟨s, -, rfl, hset⟩ | ⟨-, rfl⟩
        · cases target with
          | running => exact .inr (.inl ⟨decide_eq_true rfl, hset.after⟩)
          | completed => exact .inr (.inr (.inr (.inl (decide_eq_true ⟨rfl, rfl⟩))))
          | failed => exact .inr (.inr (.inr (.inl (decide_eq_true ⟨rfl, rfl⟩))))
          | created => exact absurd hlaw (by simp [Op.Lawful, statusEdges])
        · exact .inl rfl
      | recoverOne k cutoff =>
        obtain rfl : k = j := Option.some.inj haff
        rcases exec_recoverOne hexec with ⟨rfl, hset⟩ | ⟨-, rfl⟩
        · exact .inr (.inr (.inr (.inr ⟨decide_eq_true rfl, hset.after⟩)))
        · exact .inl rfl
      | insertJob prompt parent =>
        rcases exec_db_cases hexec with ⟨db, hrun, rfl⟩ | ⟨⟨name, detail, rfl⟩, -⟩
        · -- only a new identifier is inserted
          obtain ⟨hnone, rfl, rfl⟩ := DbOp.run_insertJob hrun
          obtain rfl : e.fresh = j := Option.some.inj haff
          refine .inr (.inr (.inl ⟨?_, ?_⟩))
          · rw [Db.status, hnone]
            rfl
          · show Db.status (Db.insert _ _ _) _ = _
            rw [Db.status, Db.job_insert, if_pos rfl]
            rfl
        · exact absurd haff (by simp [DbOp.affects])
      | appendEvent k code message => exact .inl (hkeep (Option.some.inj haff))
      | saveActionPlan k actions => exact .inl (hkeep (Option.some.inj haff))
      | logEvents k rows => exact .inl (hkeep (Option.some.inj haff))
      | commitArtifacts k drafts => exact .inl (hkeep (Option.some.inj haff))
      | getJob k => exact .inl (hkeep trivial)
      | scanStale cutoff => exact absurd haff (by simp [DbOp.affects])
      | flushArtifact k rel name type => exact absurd haff (by simp [DbOp.affects])
      | rollbackSession k => exact absurd haff (by simp [DbOp.affects])
    · obtain ⟨db, hrun, rfl⟩ := exec_db hexec
      have hsame := (DbOp.exec_frame hrun haff).1
      refine .inl ?_
      show Db.status db j = _
      rw [Db.status, Db.status, hsame]

theorem exec_recovers {base : Path} {e : Env} {o : Op} {w w' : World} {r : Res o}
    (hrec : recovers j o r = true) (hexec : exec base e o w = some (r, w')) :
    w'.db.status j = some .failed := by
  cases o with
  | fs o => exact absurd hrec (by simp [recovers])
  | sys o => exact absurd hrec (by simp [recovers])
  | db o =>
    cases o with
    | recoverOne k cutoff =>
      rcases exec_recoverOne hexec with ⟨rfl, hset⟩ | ⟨hne, -⟩
      · obtain rfl : k = j := of_decide_eq_true hrec
        exact hset.after
      · refine absurd ?_ hne
        unfold recovers at hrec
        split at hrec
        · rfl
        · exact absurd hrec (by simp)
    | _ => exact absurd hrec (by simp [recovers])

/-- A job that was recovered has failed, whatever the world was at the beginning. -/
theorem failed_of_recovered {w : World} {m : State}
    (hm : (platform parts).Reach (System.initial w) m)
    (hrec : Seen (recovers j) m.view.history) : State.status j m = some .failed := by
  induction hm with
  | refl =>
    obtain ⟨l, hl, -⟩ := hrec
    exact absurd hl List.not_mem_nil
  | tail hm hstep ih =>
    cases hstep with
    | invoke c _ => exact ih hrec
    | perform t c o k e r s ht he =>
      have hcalls := System.Reach.calls (body_calls parts) hm ht
      rcases seen_cons.mp hrec with hnow | hbefore
      · exact exec_recovers hnow he
      · -- a failed job stays failed
        have hchange := @exec_status parts.base e j o _ _ r (Call.lawful hcalls.head) he
        have hfailed := ih hbefore
        rw [State.status] at hfailed
        rw [hfailed] at hchange
        exact hchange.eq_of_terminal rfl

theorem status_of_start {s s' : Option Status} (h : StatusStep s s' true) :
    s' = some .running := by
  cases h with
  | start => rfl

/-- A job that thread `t` has started is running, or stale recovery has made it
fail, or `t` has ended it. -/
theorem owner_status {m : State} (hm : (platform parts).Reach (start parts) m)
    (hstart : SeenBy (starts j) t m.view.history) :
    State.status j m = some .running ∨
      (State.status j m = some .failed ∧ Seen (recovers j) m.view.history) ∨
      SeenBy (finishes j) t m.view.history := by
  induction hm with
  | refl =>
    obtain ⟨l, hl, -⟩ := hstart
    exact absurd hl List.not_mem_nil
  | @tail m m' hm hstep ih =>
    rcases guar_of_step (j := j) hm hstep with hview | ⟨l, hlabel, hG⟩
    · rw [hview] at hstart ⊢
      rw [State.status, hview]
      exact ih hstart
    have hsuffix : m.view.history <:+ m'.view.history := by
      rw [hlabel]
      exact List.suffix_cons _ _
    by_cases htid : l.tid = t
    · cases hstep with
      | invoke c _ => exact absurd hlabel.symm (List.cons_ne_self _ _)
      | perform u c o k e r s hu he =>
        obtain rfl : (⟨u, o, r⟩ : Label Op Res) = l := (List.cons.inj hlabel).1
        obtain rfl : u = t := htid
        have hlaw := Call.lawful (System.Reach.calls (body_calls parts) hm hu).head
        -- unless this is the start, the job had been started before
        have hbefore : starts j o r = true ∨ SeenBy (starts j) u m.view.history := by
          rw [hlabel, seenBy_cons] at hstart
          exact hstart.imp_left And.right
        rcases hbefore with hnow | hbefore
        · have hchange := @exec_status parts.base e j o _ _ r hlaw he
          rw [hnow] at hchange
          exact .inl (status_of_start hchange)
        · rcases exec_status_marks (j := j) hlaw he with hsame | ⟨-, hrun⟩ | ⟨hnone, -⟩ | hfin |
            ⟨hrec, hfailed⟩
          · rcases ih hbefore with hrun | ⟨hfailed, hrec⟩ | hdone
            · exact .inl (hsame.trans hrun)
            · exact .inr (.inl ⟨hsame.trans hfailed, hrec.mono hsuffix⟩)
            · exact .inr (.inr (hdone.mono hsuffix))
          · exact .inl hrun
          · -- a job that was started exists
            rcases ih hbefore with hrun | ⟨hfailed, -⟩ | hdone
            · exact absurd (hnone.symm.trans hrun) (by simp)
            · exact absurd (hnone.symm.trans hfailed) (by simp)
            · exact .inr (.inr (hdone.mono hsuffix))
          · exact .inr (.inr (seenBy_cons.mpr (.inl ⟨rfl, hfin⟩)))
          · exact .inr (.inl ⟨hfailed, seen_cons.mpr (.inl hrec)⟩)
    · -- another thread: the job is kept, or it was recovered
      have hbefore : SeenBy (starts j) t m.view.history := by
        rw [hlabel, seenBy_cons] at hstart
        exact hstart.resolve_left fun h => htid h.1
      have hkept := ((hG.others t (Ne.symm htid)).1 hbefore).2
      rcases hkept with hsame | ⟨-, hfailed, hrec⟩
      · rcases ih hbefore with hrun | ⟨hfailed, hrec⟩ | hdone
        · exact .inl (hsame.trans hrun)
        · exact .inr (.inl ⟨hsame.trans hfailed, hrec.mono hsuffix⟩)
        · exact .inr (.inr (hdone.mono hsuffix))
      · exact .inr (.inl ⟨hfailed, hrec⟩)

/-! ### The answer to the last transition -/

/-- The phase of the run `t` of job `j` after a history. -/
def runPhase (j : Uuid) (t : ℕ) (h : History) : RunPhase := (runProtocol j).phase .waiting t h

/-- What one operation of the run itself means for its phase: it is no transition
of the job and the phase stays, or it is one and leads to the next phase. -/
theorem runPhase_own (o : Op) (r : Res o) :
    (o.NoTransition j ∧ runPhase j t (⟨t, o, r⟩ :: h) = runPhase j t h) ∨
      ∃ expected target code message, ∃ r' : Except Exn Bool,
        (⟨t, o, r⟩ : Label Op Res) =
          ⟨t, .db (.transition j expected target code message), r'⟩ ∧
        runPhase j t (⟨t, o, r⟩ :: h) = (runPhase j t h).after target r' := by
  rw [runPhase, runPhase, Protocol.phase_own]
  cases o with
  | fs o => exact .inl ⟨trivial, rfl⟩
  | sys o => exact .inl ⟨trivial, rfl⟩
  | db o =>
    cases o with
    | transition k expected target code message =>
      by_cases hk : k = j
      · subst hk
        exact .inr ⟨expected, target, code, message, r, rfl, if_pos rfl⟩
      · exact .inl ⟨hk, if_neg hk⟩
    | _ => exact .inl ⟨trivial, rfl⟩

theorem finishes_eq_false {o : Op} {r : Res o} (ho : o.NoTransition j) :
    finishes j o r = false := by
  unfold finishes
  split
  · exact decide_eq_false fun hk => ho hk.1
  · rfl

theorem asks_eq_false {o : Op} {r : Res o} (ho : o.NoTransition j) : asks j o r = false := by
  unfold asks
  split
  · exact decide_eq_false ho
  · rfl

theorem completes_eq_false {o : Op} {r : Res o} (ho : o.NoTransition j) :
    completes j o r = false := by
  unfold completes
  split
  · exact decide_eq_false ho
  · rfl

/-- A run that has neither been answered nor tried to fail has not ended its job,
and one in the phase `started` has started it. -/
def PhaseTells (j : Uuid) (t : ℕ) (h : History) : Prop :=
  (runPhase j t h = .waiting → ¬ SeenBy (finishes j) t h) ∧
    (runPhase j t h = .started → SeenBy (starts j) t h ∧ ¬ SeenBy (finishes j) t h)

theorem not_seenBy_cons {f : Mark} {o : Op} {r : Res o} (hnow : f o r = false)
    (hbefore : ¬ SeenBy f t h) : ¬ SeenBy f t (⟨t, o, r⟩ :: h) := by
  intro hseen
  rcases seenBy_cons.mp hseen with ⟨-, hop⟩ | hseen
  · rw [hnow] at hop
    exact absurd hop (by simp)
  · exact hbefore hseen

/-- An operation that leaves the phase. -/
theorem PhaseTells.keep {o : Op} {r : Res o} (ih : PhaseTells j t h)
    (hnot : finishes j o r = false)
    (hphase : runPhase j t (⟨t, o, r⟩ :: h) = runPhase j t h) :
    PhaseTells j t (⟨t, o, r⟩ :: h) := by
  rw [PhaseTells, hphase]
  constructor
  · intro hq
    exact not_seenBy_cons hnot (ih.1 hq)
  · intro hq
    obtain ⟨hstart, hfin⟩ := ih.2 hq
    exact ⟨seenBy_cons.mpr (.inr hstart), not_seenBy_cons hnot hfin⟩

/-- The operation of another thread. -/
theorem PhaseTells.other {l : Label Op Res} (hl : l.tid ≠ t) (ih : PhaseTells j t h) :
    PhaseTells j t (l :: h) := by
  have hother : ∀ f : Mark, SeenBy f t (l :: h) ↔ SeenBy f t h := by
    intro f
    rw [seenBy_cons]
    exact or_iff_right fun h => hl h.1
  rw [PhaseTells, runPhase, Protocol.phase_other hl, hother, hother]
  exact ih

/-- A transition of the job by the run itself, for each target. -/
theorem PhaseTells.transition {expected : List Status} {target : Status} {code : EventCode}
    {message : String} {r : Except Exn Bool} (ih : PhaseTells j t h)
    (hphase : runPhase j t (⟨t, .db (.transition j expected target code message), r⟩ :: h) =
      (runPhase j t h).after target r) :
    PhaseTells j t (⟨t, .db (.transition j expected target code message), r⟩ :: h) := by
  cases target with
  | created =>
    rcases r with e | _ | _
    · exact ih.keep rfl hphase
    · exact ih.keep rfl hphase
    · exact ih.keep (by simp [finishes, Status.terminal]) hphase
  | running =>
    rcases r with e | _ | _
    · exact ih.keep rfl hphase
    · exact ih.keep rfl hphase
    · have hnot : finishes j (.db (.transition j expected .running code message)) (.ok true) =
          false := by simp [finishes, Status.terminal]
      by_cases hq : runPhase j t h = .waiting
      · rw [PhaseTells, hphase, RunPhase.after, if_pos hq]
        refine ⟨fun h => absurd h (by simp), fun _ => ⟨?_, not_seenBy_cons hnot (ih.1 hq)⟩⟩
        exact seenBy_cons.mpr (.inl ⟨rfl, decide_eq_true rfl⟩)
      · refine ih.keep hnot (hphase.trans ?_)
        rw [RunPhase.after, if_neg hq]
  | completed =>
    rcases r with e | b
    · exact ih.keep rfl hphase
    · -- the answer leaves both phases
      rw [PhaseTells, hphase, RunPhase.after]
      by_cases hq : runPhase j t h = .started
      · simp [hq]
      · simp [hq]
  | failed =>
    rw [PhaseTells, hphase]
    simp [RunPhase.after]

theorem runPhase_facts (h : History) : PhaseTells j t h := by
  induction h with
  | nil =>
    refine ⟨fun _ => ?_, fun hq => absurd hq (by simp [runPhase, Protocol.phase])⟩
    rintro ⟨l, hl, -⟩
    exact absurd hl List.not_mem_nil
  | cons l h ih =>
    obtain ⟨u, o, r⟩ := l
    by_cases hu : u = t
    · subst hu
      rcases @runPhase_own j u h o r with ⟨ho, hphase⟩ |
        ⟨expected, target, code, message, r', hlabel, hphase⟩
      · exact ih.keep (finishes_eq_false ho) hphase
      · cases hlabel
        exact ih.transition hphase
    · exact ih.other hu

theorem Call.noTransition {c : Call} (hc : ∀ server, c ≠ .run server j) {o : Op} (h : c.ops o) :
    o.NoTransition j := by
  cases o with
  | fs o => trivial
  | sys o => trivial
  | db o =>
    cases o with
    | transition k expected target code message =>
      cases c with
      | run server i =>
        obtain rfl : k = i := h.1
        exact fun hk => hc server (by rw [hk])
      | _ => exact absurd h id
    | _ => trivial

/-- Every call follows the protocol of job `j`, and a run of the job tells by its
result how far it came. -/
theorem body_obeys (parts : Parts) (j : Uuid) (c : Call) :
    Obeys (runProtocol j)
      (fun r q => ∀ server, c = .run server j → (r = .ok (.ran true) ↔ ∃ b, q = .asked b))
      ((platform parts).body c) .waiting := by
  by_cases hc : ∃ server, c = .run server j
  · obtain ⟨server, rfl⟩ := hc
    have hmap : (Reply.ran <$> JobOrchestratorService.run parts server j : Task Reply) =
        JobOrchestratorService.run parts server j >>= fun b => pure (Reply.ran b) := rfl
    show Obeys _ _ (Reply.ran <$> JobOrchestratorService.run parts server j : Task Reply).run _
    rw [hmap]
    refine obeys_bindE run_obeys ?_ ?_
    · intro b q hq
      refine obeys_ret fun _ _ => Iff.trans ?_ hq
      simp
    · intro e q hq _ _
      exact ⟨fun h => absurd h (by simp), fun h => absurd (hq.mpr h) (by simp)⟩
  · have hne : ∀ server, c ≠ .run server j := fun server h => hc ⟨server, h⟩
    refine Obeys.mono (obeys_elsewhere _ (body_calls parts c) fun o ho =>
      Call.noTransition hne ho) ?_
    exact fun _ _ _ server h => absurd h (hne server)

theorem answer_of_running {e : Env} {code : EventCode} {message : String} {b : Bool}
    {w w' : World} {base : Path} (hrun : w.db.status j = some .running)
    (hexec : exec base e (.db (.transition j [.running] .completed code message)) w =
      some (.ok b, w')) : b = true := by
  rcases exec_db_cases hexec with ⟨db, hdb, rfl⟩ | ⟨⟨name, detail, hr⟩, -⟩
  · rcases DbOp.run_transition hdb with ⟨row, -, -, hok, -⟩ | ⟨hnot, -, -⟩
    · exact Except.ok.inj hok
    · obtain ⟨row, hrow, hs⟩ := Option.map_eq_some_iff.mp hrun
      exact absurd (by rw [hs]; exact List.mem_singleton_self _) (hnot row hrow)
  · exact absurd hr (by simp)

/-- The answer to the transition to `COMPLETED` depends on whether stale recovery
came first. -/
theorem answer_iff {m : State} (hm : (platform parts).Reach (start parts) m)
    (hphase : runPhase j t m.view.history = .started) {e : Env} {expected : List Status}
    {code : EventCode} {message : String} {b : Bool} {w : World}
    (hedge : (expected, Status.completed) ∈ statusEdges)
    (hexec : exec parts.base e (.db (.transition j expected .completed code message))
      m.view.state = some (.ok b, w)) :
    b = true ↔ ¬ Seen (recovers j) m.view.history := by
  obtain rfl : expected = [.running] := by
    simpa [statusEdges] using hedge
  obtain ⟨hstart, hfin⟩ := (runPhase_facts m.view.history).2 hphase
  rcases exec_transition hexec with ⟨s, hs, hok, hset⟩ | ⟨hne, rfl⟩
  · -- the job was running, so that it had not been recovered
    refine ⟨fun _ hrec => ?_, fun _ => Except.ok.inj hok⟩
    have hfailed := failed_of_recovered hm hrec
    rw [List.mem_singleton.mp hs] at hset
    exact absurd (hset.before.symm.trans hfailed) (by simp)
  · have hb : b ≠ true := fun hb => hne (by rw [hb])
    refine ⟨fun h => absurd h hb, fun hrec => absurd ?_ hrec⟩
    rcases owner_status hm hstart with hrun | ⟨-, hrec'⟩ | hdone
    · -- a running job would have been moved
      refine absurd ?_ hb
      exact answer_of_running hrun hexec
    · exact hrec'
    · exact absurd hdone hfin

/-- What the history says about the run `t`: it has completed its job if its
transition was answered with `True`, and it was overtaken if the answer was
`False`. -/
def Answered (j : Uuid) (t : ℕ) (h : History) : Prop :=
  (SeenBy (completes j) t h ↔ runPhase j t h = .asked true) ∧
    (Overtaken j t h ↔ runPhase j t h = .asked false)

/-- An operation that asks for nothing and after which the phase is none of an
answer. -/
theorem Answered.quiet {o : Op} {r : Res o} (ha : Answered j t h)
    (hcompletes : completes j o r = false) (hasks : asks j o r = false)
    (hphase : ∀ b, runPhase j t (⟨t, o, r⟩ :: h) = .asked b ↔ runPhase j t h = .asked b) :
    Answered j t (⟨t, o, r⟩ :: h) := by
  constructor
  · rw [seenBy_cons, hphase, hcompletes, ← ha.1]
    simp
  · rw [Overtaken, ever_cons, hphase, hasks, ← ha.2]
    simp [Overtaken]

/-- The answer to the transition to `COMPLETED`. -/
theorem Answered.asked {expected : List Status} {code : EventCode} {message : String} {b : Bool}
    (ha : Answered j t h) (hold : runPhase j t h = .started)
    (hafter : runPhase j t
      (⟨t, .db (.transition j expected .completed code message), .ok b⟩ :: h) = .asked b)
    (hanswer : b = true ↔ ¬ Seen (recovers j) h) :
    Answered j t (⟨t, .db (.transition j expected .completed code message), .ok b⟩ :: h) := by
  have hasks : asks j (.db (.transition j expected .completed code message)) (.ok b) = true :=
    decide_eq_true rfl
  have hbefore : ¬ SeenBy (completes j) t h ∧ ¬ Overtaken j t h := by
    rw [ha.1, ha.2, hold]
    simp
  constructor
  · rw [seenBy_cons, hafter, or_iff_left hbefore.1]
    cases b with
    | true => exact ⟨fun _ => rfl, fun _ => ⟨rfl, decide_eq_true rfl⟩⟩
    | false => exact ⟨fun h => absurd h.2 (by simp [completes]), fun h => absurd h (by simp)⟩
  · rw [Overtaken, ever_cons, hafter]
    refine (or_iff_left hbefore.2).trans ?_
    rw [hasks, eq_self_iff_true, eq_self_iff_true, true_and, true_and]
    cases b with
    | true => simpa using hanswer
    | false => simpa using hanswer

theorem Answered.own {m : State} (hm : (platform parts).Reach (start parts) m)
    (ha : Answered j t m.view.history) {c : Call} {o : Op} {k : Res o → Prog Op Res _} {e : Env}
    {r : Res o} {w : World} (ht : m.threads[t]? = some (c, .call o k))
    (hexec : exec parts.base e o m.view.state = some (r, w)) :
    Answered j t (⟨t, o, r⟩ :: m.view.history) := by
  have hallows : (runProtocol j).allows (runPhase j t m.view.history) o :=
    (System.Reach.obeys (P := fun _ => runProtocol j) (body_obeys parts j) hm ht).head
  have hlaw := Call.lawful (System.Reach.calls (body_calls parts) hm ht).head
  rcases @runPhase_own j t m.view.history o r with ⟨ho, hphase⟩ |
    ⟨expected, target, code, message, r', hlabel, hphase⟩
  · exact ha.quiet (completes_eq_false ho) (asks_eq_false ho) fun b => by rw [hphase]
  · cases hlabel
    have hq : (runPhase j t m.view.history).allows target := hallows rfl
    generalize hold : runPhase j t m.view.history = q at hphase hq
    -- the phases that allow the transition, one by one
    cases target with
    | created =>
      cases q <;> exact absurd hq id
    | running =>
      cases q with
      | waiting =>
        refine ha.quiet ?_ ?_ fun b => ?_
        · rcases r' with x | _ | _ <;> rfl
        · rcases r' with x | b <;> rfl
        · rw [hphase, hold]
          rcases r' with x | _ | _ <;> simp [RunPhase.after]
      | _ => exact absurd hq id
    | failed =>
      have hnot : ∀ b, q ≠ .asked b := by
        rintro b rfl
        exact hq
      refine ha.quiet ?_ ?_ fun b => ?_
      · rcases r' with x | _ | _ <;> rfl
      · rcases r' with x | b <;> rfl
      · rw [hphase, hold]
        simp [RunPhase.after, hnot]
    | completed =>
      cases q with
      | started =>
        cases r' with
        | error x => exact ha.quiet rfl rfl fun b => by rw [hphase, hold]; simp [RunPhase.after]
        | ok b =>
          refine ha.asked hold ?_ (answer_iff hm hold hlaw hexec)
          rw [hphase, RunPhase.after, if_pos rfl]
      | _ => exact absurd hq id

/-- The operation of another thread. -/
theorem Answered.other {l : Label Op Res} (hl : l.tid ≠ t) (ha : Answered j t h) :
    Answered j t (l :: h) := by
  have hphase : runPhase j t (l :: h) = runPhase j t h := Protocol.phase_other hl
  constructor
  · rw [seenBy_cons, hphase, or_iff_right fun h => hl h.1]
    exact ha.1
  · rw [Overtaken, ever_cons, hphase]
    exact (or_iff_right fun h => hl h.1).trans ha.2

theorem answered {m : State} (hm : (platform parts).Reach (start parts) m) {c : Call}
    {p : Prog Op Res (Except Exn Reply)} (ht : m.threads[t]? = some (c, p)) :
    Answered j t m.view.history := by
  induction hm generalizing c p with
  | refl => exact absurd ht (by simp [start, System.initial])
  | @tail m m' hm hstep ih =>
    rcases hstep.thread ht with ⟨hold, hview⟩ | ⟨rfl, -, -, hview⟩ |
      ⟨o, k, e, r, s, hold, he, rfl, hview⟩
    · rcases hview with hview | ⟨u, d, _, o, k, e, r, s, hut, -, -, -, hview⟩
      · rw [hview]
        exact ih hold
      · rw [hview]
        exact (ih hold).other hut
    · -- a new thread has not done anything
      have hnone : ∀ l ∈ m'.view.history, l.tid ≠ m.threads.length := by
        rw [hview]
        exact fun l hl => Nat.ne_of_lt (System.Reach.recorded hm l hl)
      rw [Answered, runPhase, Protocol.phase_of_forall_ne hnone]
      constructor
      · refine ⟨?_, fun h => absurd h (by simp)⟩
        rintro ⟨l, hl, htid, -⟩
        exact absurd htid (hnone l hl)
      · refine ⟨?_, fun h => absurd h (by simp)⟩
        rintro ⟨l, before, hl, htid, -⟩
        exact absurd htid (hnone l (hl.subset List.mem_cons_self))
    · rw [hview]
      exact (ih hold).own hm hold he

end Owner

/-- **What the result of a run says.**  For every run of a job that has returned,
in any interleaving: it has returned `True` if and only if it has itself moved the
job to `COMPLETED`, exactly if it was not overtaken by stale recovery. -/
theorem run_result_iff (parts : Parts) (j : Uuid) {m : State}
    (hm : (platform parts).Reach (start parts) m) {t server : ℕ} {r : Except Exn Reply}
    (ht : m.threads[t]? = some (.run server j, .ret r)) :
    (r = .ok (.ran true) ↔ SeenBy (completes j) t m.view.history) ↔
      ¬ Overtaken j t m.view.history := by
  have htells : r = .ok (.ran true) ↔ ∃ b, runPhase j t m.view.history = .asked b :=
    (System.Reach.obeys (P := fun _ => runProtocol j) (body_obeys parts j) hm ht).returned
      server rfl
  obtain ⟨hcompleted, hovertaken⟩ := answered (j := j) hm ht
  rw [htells, hcompleted, hovertaken]
  constructor
  · intro hiff hfalse
    have htrue := hiff.mp ⟨false, hfalse⟩
    rw [hfalse] at htrue
    exact absurd htrue (by simp)
  · intro hnot
    constructor
    · rintro ⟨b, hb⟩
      cases b with
      | true => exact hb
      | false => exact absurd hb hnot
    · exact fun hb => ⟨true, hb⟩

namespace Sample

/-- The run of the job, which is thread 1, has returned this result. -/
def returned (b : Bool) (m : State) : Bool :=
  match (m.threads[1]? : Option (Call × Prog Op Res (Except Exn Reply))) with
  | some (.run 0 k, .ret (.ok (.ran c))) => decide (k = job ∧ c = b)
  | _ => false

theorem of_returned {b : Bool} {m : State} (h : returned b m = true) :
    m.threads[1]? = some (.run 0 job, .ret (.ok (.ran b))) := by
  unfold returned at h
  split at h
  · rename_i hthread
    obtain ⟨rfl, rfl⟩ := of_decide_eq_true h
    exact hthread
  · exact absurd h (by simp)

/-- Stale recovery comes after `n` operations of the run, which then performs the
given number of operations. -/
def recoveredAfter (n k : ℕ) : List (System.Move Env Call) :=
  running n ++ .invoke (.recover 1) :: List.replicate 2 (.perform 2 calm) ++
    List.replicate k (.perform 1 calm)

end Sample

set_option maxRecDepth 100000 in
theorem run_result_iff_sample :
    ∃ m, (platform (Sample.parts Sample.plan)).Reach (start (Sample.parts Sample.plan)) m ∧
      m.threads[1]? = some (.run 0 Sample.job, .ret (.ok (.ran true))) ∧
      SeenBy (completes Sample.job) 1 m.view.history := by
  obtain ⟨m, hm, hgood⟩ := Sample.reached (Sample.parts Sample.plan) (Sample.running 15)
    (fun m => Sample.returned true m ∧ ¬ Overtaken Sample.job 1 m.view.history)
    (by decide +kernel)
  obtain ⟨hret, hnot⟩ := of_decide_eq_true hgood
  have ht := Sample.of_returned hret
  exact ⟨m, hm, ht, ((run_result_iff _ _ hm ht).mpr hnot).mp rfl⟩

set_option maxRecDepth 100000 in
/-- Stale recovery comes between the last two transactions of the run: the job has
failed, and the run returns `True`. -/
theorem overtaken_run_returns_true :
    ∃ m, (platform (Sample.parts Sample.plan)).Reach (start (Sample.parts Sample.plan)) m ∧
      m.threads[1]? = some (.run 0 Sample.job, .ret (.ok (.ran true))) ∧
      State.status Sample.job m = some .failed ∧
      ¬ SeenBy (completes Sample.job) 1 m.view.history := by
  obtain ⟨m, hm, hgood⟩ := Sample.reached (Sample.parts Sample.plan) (Sample.recoveredAfter 13 2)
    (fun m => Sample.returned true m ∧ State.status Sample.job m = some .failed ∧
      ¬ SeenBy (completes Sample.job) 1 m.view.history) (by decide +kernel)
  obtain ⟨hret, hfailed, hnot⟩ := of_decide_eq_true hgood
  exact ⟨m, hm, Sample.of_returned hret, hfailed, hnot⟩

end CliExecutionPlatform
