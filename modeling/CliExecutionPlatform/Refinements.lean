/-
Refinement chains keep their context.

`contextProtocol` says when a run may complete its job; here the phases of the runs are
related to the disk.  The thread that has started a job owns its trees, so that what its
phase says stays true whatever the other threads do.

* `Fit`, `fit_step` — what the phase of a run says about workspace and snapshot, and that
  every operation of the run keeps it true; `inPhase_of_reach` — in every reachable state;
* `hasContext_of_completed` — a completed job with a parent has both files;
* `checkProtocol`, `justified_of_reach` — a refinement is refused for a missing file only
  if the parent has no parent itself;
* **`refinement_keeps_context`** — for refinement chains of any length.
-/
import CliExecutionPlatform.ContextFiles
import CliExecutionPlatform.Ended

open Files Process

namespace CliExecutionPlatform

open LocalStorage (root)
open JobOrchestratorService (inheritedFiles)

/-! ### What the phase says about the disk -/

/-- What the phase of the run of job `j` says about the world. -/
def Fit (base : Path) (j : Uuid) (w : World) : ContextPhase → Prop
  | .waiting | .started | .lost => True
  | .free => parentOf w j = some none
  | .ready files => HasFiles files (held base j w).workspace
  | .trying token files =>
    HasFiles files (held base j w).workspace ∧ Saved base j w token files
  | .damaged token files => Saved base j w token files
  | .impossible => False

section Fit

variable {base : Path} {e : Env} {j : Uuid} {w w' : World} {q : ContextPhase}

/-- Neither the workspace nor the snapshots nor the parent have changed. -/
structure SameContext (base : Path) (j : Uuid) (w w' : World) : Prop where
  workspace : (held base j w').workspace = (held base j w).workspace
  snapshots : (held base j w').snapshots = (held base j w).snapshots
  parent : ∀ p, parentOf w j = some p → parentOf w' j = some p

theorem Fit.same (h : Fit base j w q) (hsame : SameContext base j w w') : Fit base j w' q := by
  cases q with
  | waiting => trivial
  | started => trivial
  | lost => trivial
  | free => exact hsame.parent none h
  | ready files =>
    show HasFiles files (held base j w').workspace
    rw [hsame.workspace]
    exact h
  | trying token files =>
    refine ⟨?_, h.2.of_eq hsame.snapshots⟩
    rw [hsame.workspace]
    exact h.1
  | damaged token files => exact Saved.of_eq h hsame.snapshots
  | impossible => exact h

theorem exec_parent {o : Op} {r : Res o} (h : exec base e o w = some (r, w')) (p : Option Uuid)
    (hp : parentOf w j = some p) : parentOf w' j = some p := by
  rcases exec_parents h j with hsame | ⟨hnone, -⟩
  · exact hsame.trans hp
  · rw [hnone] at hp
    exact absurd hp (by simp)

/-- A storage method that writes neither of the two trees. -/
theorem sameContext_fs {o : FsOp} {r : Except Exn o.Val} (hjobs : (Area.jobs, j) ∉ o.writes)
    (hsnaps : (Area.snapshots, j) ∉ o.writes) (h : exec base e (.fs o) w = some (r, w')) :
    SameContext base j w w' :=
  ⟨(exec_fs_held h).2 .jobs j hjobs, (exec_fs_held h).2 .snapshots j hsnaps, exec_parent h⟩

theorem sameContext_db {o : DbOp} {r : Except Exn o.Val}
    (h : exec base e (.db o) w = some (r, w')) : SameContext base j w w' := by
  obtain ⟨db, -, rfl⟩ := exec_db h
  exact ⟨rfl, rfl, exec_parent h⟩

theorem sameContext_sys {o : SysOp} {r : Except Exn o.Val}
    (h : exec base e (.sys o) w = some (r, w')) : SameContext base j w w' := by
  have hheld := @exec_sys_held base e j w w' o r h
  exact ⟨by rw [hheld], by rw [hheld], exec_parent h⟩

/-- A write to the workspace: one that returned has kept the files, one that raised may
have left anything, but not in the snapshots. -/
theorem fit_write {o : FsOp} {r : Except Exn o.Val} (ho : o.writes = [(.jobs, j)])
    (h : exec base e (.fs o) w = some (r, w')) (hfit : Fit base j w q) :
    Fit base j w' (q.write r) := by
  have hsnaps : (held base j w').snapshots = (held base j w).snapshots := by
    rw [exec_workspace ho h]
  cases q with
  | waiting => trivial
  | started => trivial
  | lost => trivial
  | free => exact exec_parent h none hfit
  | ready files =>
    cases r with
    | ok a => exact exec_hasFiles ho h hfit
    | error x => trivial
  | trying token files =>
    cases r with
    | ok a => exact ⟨exec_hasFiles ho h hfit.1, hfit.2.of_eq hsnaps⟩
    | error x => exact hfit.2.of_eq hsnaps
  | damaged token files => exact Saved.of_eq hfit hsnaps
  | impossible => exact hfit

theorem fit_copyFile {source : Uuid} {f : String} {r : Except Exn Unit}
    (h : exec base e (.fs (.copyWorkspaceFile source j f)) w = some (r, w'))
    (hfit : Fit base j w q) : Fit base j w' (q.copyFile f r) := by
  cases q with
  | free => exact exec_parent h none hfit
  | ready files =>
    cases r with
    | ok u =>
      show Fit base j w' (if f ∈ inheritedFiles then .ready (f :: files) else .lost)
      by_cases hf : f ∈ inheritedFiles
      · rw [if_pos hf]
        exact exec_copied hf h hfit
      · rw [if_neg hf]
        trivial
    | error x => trivial
  | impossible => exact hfit
  | _ => trivial

theorem fit_snapshot {r : Except Exn String}
    (h : exec base e (.fs (.beginAttempt j)) w = some (r, w')) (hfit : Fit base j w q) :
    Fit base j w' (q.snapshot r) := by
  cases q with
  | free => exact exec_parent h none hfit
  | ready files =>
    have hfiles : HasFiles files (held base j w').workspace := by
      rw [@exec_snapshots base e j w w' (.beginAttempt j) r j rfl h]
      exact hfit
    cases r with
    | ok token => exact ⟨hfiles, exec_saved h hfit⟩
    | error x => exact hfiles
  | impossible => exact hfit
  | _ => trivial

/-- The rollback of a session leaves the files alone. -/
theorem fit_session {k : Uuid} {r : Except Exn Unit}
    (h : exec base e (.db (.rollbackSession k)) w = some (r, w')) (hfit : Fit base j w q) :
    Fit base j w' (q.session r) := by
  have hsame : q.session r = q := by
    rcases exec_rollbackSession h with rfl | ⟨x, rfl, hx⟩
    · cases q <;> rfl
    · cases q <;> first | rfl | exact if_pos hx
  rw [hsame]
  exact hfit.same (sameContext_db h)

/-- The rollback puts the files of the snapshot back, or the operating system made it
fail. -/
theorem exec_rollback {token : String} {files : List String} {r : Except Exn Unit}
    (hsaved : Saved base j w token files)
    (h : exec base e (.fs (.rollbackAttempt j token)) w = some (r, w')) :
    Fit base j w' (.restored files r) := by
  cases r with
  | ok u => exact exec_rolledBack hsaved h
  | error x =>
    have hx : x.isOSError = true := exec_fs_raises (o := .rollbackAttempt j token)
      (LocalStorage.rollbackAttempt_raises _ _ _) h
    rw [ContextPhase.restored, if_pos hx]
    trivial

theorem fit_rollback {token : String} {r : Except Exn Unit}
    (h : exec base e (.fs (.rollbackAttempt j token)) w = some (r, w'))
    (hfit : Fit base j w q) : Fit base j w' (q.rollback token r) := by
  cases q with
  | free => exact exec_parent h none hfit
  | trying token' files =>
    show Fit base j w' (if token = token' then .restored files r else .lost)
    by_cases htoken : token = token'
    · subst htoken
      rw [if_pos rfl]
      exact exec_rollback hfit.2 h
    · rw [if_neg htoken]
      trivial
  -- After a failed write the snapshot still has the files.
  | damaged token' files =>
    show Fit base j w' (if token = token' then .restored files r else .lost)
    by_cases htoken : token = token'
    · subst htoken
      rw [if_pos rfl]
      exact exec_rollback hfit h
    · rw [if_neg htoken]
      trivial
  | impossible => exact hfit
  | _ => trivial

theorem fit_complete {token : String} {r : Except Exn Unit}
    (h : exec base e (.fs (.completeAttempt j token)) w = some (r, w'))
    (hfit : Fit base j w q) : Fit base j w' q.complete := by
  have hheld := @exec_snapshots base e j w w' (.completeAttempt j token) r j rfl h
  cases q with
  | free => exact exec_parent h none hfit
  | ready files =>
    show HasFiles files (held base j w').workspace
    rw [hheld]
    exact hfit
  | trying token' files =>
    show HasFiles files (held base j w').workspace
    rw [hheld]
    exact hfit.1
  | impossible => exact hfit
  | _ => trivial

theorem fit_readRow {record : JobRecord}
    (h : exec base e (.db (.getJob j)) w = some (.ok (some record), w'))
    (hfit : Fit base j w q) : Fit base j w' (q.readRow record.parentJobId) := by
  have hsame : SameContext base j w w' := sameContext_db h
  cases q with
  | started =>
    rw [ContextPhase.readRow]
    by_cases hnone : record.parentJobId = none
    · rw [if_pos hnone]
      exact hsame.parent none (hnone ▸ (exec_getJob h).2)
    · rw [if_neg hnone]
      exact fun f hf => absurd hf List.not_mem_nil
  | _ => exact Fit.same hfit hsame

/-- **One operation of the run.**  What its phase says about the world stays true. -/
theorem fit_step {o : Op} {r : Res o} (ho : OfJob j (fun _ => True) o)
    (h : exec base e o w = some (r, w')) (hfit : Fit base j w q) :
    Fit base j w' ((contextProtocol j).next q o r) := by
  cases o with
  | sys o => exact hfit.same (sameContext_sys h)
  | db o =>
    have hkeep := hfit.same (sameContext_db h)
    cases o with
    | transition k expected target code message =>
      cases target with
      | running =>
        rcases r with x | _ | _
        · exact hkeep
        · exact hkeep
        · -- at the start of the job nothing is known yet
          show Fit base j w' (if k = j then q.start else q)
          by_cases hk : k = j
          · rw [if_pos hk]
            cases q with
            | waiting => trivial
            | _ => exact hkeep
          · rw [if_neg hk]
            exact hkeep
      | _ => exact hkeep
    | getJob k =>
      rcases r with x | _ | record
      · exact hkeep
      · exact hkeep
      · show Fit base j w' (if k = j then q.readRow record.parentJobId else q)
        by_cases hk : k = j
        · subst hk
          rw [if_pos rfl]
          exact fit_readRow h hfit
        · rw [if_neg hk]
          exact hkeep
    | rollbackSession k => exact fit_session h hfit
    | _ => exact hkeep
  | fs o =>
    cases o with
    | createDirectory k rel =>
      obtain rfl : k = j := ho
      exact fit_write rfl h hfit
    | writeFile k rel content =>
      obtain rfl : k = j := ho
      exact fit_write rfl h hfit
    | copyOut k output f =>
      obtain rfl : k = j := ho
      exact fit_write rfl h hfit
    | copyWorkspaceFile source k f =>
      obtain rfl : k = j := ho.1
      exact fit_copyFile h hfit
    | beginAttempt k =>
      obtain rfl : k = j := ho
      exact fit_snapshot h hfit
    | rollbackAttempt k token =>
      obtain rfl : k = j := ho
      exact fit_rollback h hfit
    | completeAttempt k token =>
      obtain rfl : k = j := ho
      exact fit_complete h hfit
    | createWorkspace k => exact absurd ho id
    | workspaceFileExists k rel => exact absurd ho id
    | workspaceFileSize k rel => exact absurd ho id
    | _ =>
      -- the others write neither the workspace nor the snapshot
      exact hfit.same (sameContext_fs (by simp [FsOp.writes]) (by simp [FsOp.writes]) h)

end Fit

/-! ### Completed jobs with a parent -/

section Completed

variable {parts : Parts} {j : Uuid} {m : State}

/-- What holds of a thread in a phase: a run of the job fits its phase, and a thread that
has left the phase `waiting` has started the job. -/
def InPhase (parts : Parts) (j : Uuid) (c : Call) (t : ℕ) (q : ContextPhase)
    (v : View World Op Res) : Prop :=
  (∀ server, c = .run server j → Fit parts.base j v.state q) ∧
    (q ≠ .waiting → SeenBy (starts j) t v.history)

/-- An operation of the thread itself. -/
theorem InPhase.own {c : Call} {t : ℕ} {q : ContextPhase} {v : View World Op Res} {o : Op}
    {e : Env} {r : Res o} {s : World} (h : InPhase parts j c t q v) (ho : c.ops o)
    (hexec : exec parts.base e o v.state = some (r, s)) :
    InPhase parts j c t ((contextProtocol j).next q o r) (v.push t o r s) := by
  constructor
  · rintro server rfl
    exact fit_step ho hexec (h.1 server rfl)
  · intro hnext
    rw [View.push_history, seenBy_cons]
    by_cases hstart : starts j o r = true
    · exact .inl ⟨rfl, hstart⟩
    · refine .inr (h.2 fun hq => hnext ?_)
      rw [hq]
      exact next_waiting (by simpa using hstart)

/-- An operation of another thread: whoever has started the job owns it. -/
theorem InPhase.other {c : Call} {t u : ℕ} {q : ContextPhase} {v v' : View World Op Res}
    (h : InPhase parts j c t q v) (hG : Guar parts j u v v') (hut : u ≠ t) :
    InPhase parts j c t q v' := by
  refine ⟨fun server hc => ?_, fun hq => (h.2 hq).mono hG.history⟩
  by_cases hq : q = .waiting
  · rw [hq]
    trivial
  · have hheld := ((hG.others t (Ne.symm hut)).1 (h.2 hq)).1
    exact (h.1 server hc).same ⟨by rw [hheld], by rw [hheld], hG.parents j⟩

/-- The phase of the thread `t` after a history. -/
def contextPhase (j : Uuid) (t : ℕ) (h : History) : ContextPhase :=
  (contextProtocol j).phase .waiting t h

/-- **In every reachable state, the runs of a job fit their phases.** -/
theorem inPhase_of_reach (hm : (platform parts).Reach (start parts) m) {t : ℕ} {c : Call}
    {p : Prog Op Res (Except Exn Reply)} (ht : m.threads[t]? = some (c, p)) :
    InPhase parts j c t (contextPhase j t m.view.history) m.view := by
  refine System.Reach.phase_view (P := fun _ => contextProtocol j) (body_obeys_context parts j)
    (J := InPhase parts j) ?_ ?_ ?_ hm ht
  · intro m c t _ _
    exact ⟨fun _ _ => trivial, fun hq => absurd rfl hq⟩
  · intro m c t q o k e r s hm ht _ hexec h
    exact h.own (System.Reach.calls (body_calls parts) hm ht).head hexec
  · intro m m' c t q l hm hstep hlabel hlt h
    rcases guar_of_step (j := j) hm hstep with hview | ⟨l', hl', hG⟩
    · rw [hview]
      exact h
    · obtain rfl : l' = l := (List.cons.inj (hl'.symm.trans hlabel)).1
      exact h.other hG hlt

/-- A job is completed by the transition of a run of this job. -/
theorem completed_by_run {c : Call} {o : Op} {r : Res o} {e : Env} {w w' : World}
    (ho : c.ops o) (hexec : exec parts.base e o w = some (r, w'))
    (hbefore : ¬ IsCompleted j w) (hafter : IsCompleted j w') :
    ∃ server expected code message, c = .run server j ∧
      o = .db (.transition j expected .completed code message) := by
  -- Of the ways in which a status changes only a transition leads to `COMPLETED`.
  rcases exec_status_marks (j := j) (Call.lawful ho) hexec with hsame | ⟨-, hrun⟩ | ⟨-, hnew⟩ |
    hfin | ⟨-, hfailed⟩
  · exact absurd (hsame.symm.trans hafter) hbefore
  · exact absurd (hrun.symm.trans hafter) (by simp)
  · exact absurd (hnew.symm.trans hafter) (by simp)
  · unfold finishes at hfin
    split at hfin
    · rename_i k expected target code message
      obtain ⟨rfl, -⟩ := of_decide_eq_true hfin
      rcases exec_transition hexec with ⟨s, -, -, hset⟩ | ⟨hne, -⟩
      · obtain rfl : target = .completed := Option.some.inj (hset.after.symm.trans hafter)
        cases c with
        | run server i =>
          obtain rfl : k = i := ho.1
          exact ⟨server, expected, code, message, rfl, rfl⟩
        | _ => exact absurd ho id
      · exact absurd rfl hne
    · exact absurd hfin (by simp)
  · exact absurd (hfailed.symm.trans hafter) (by simp)

/-- Both files are regular files in the workspace of the job. -/
def HasContext (parts : Parts) (j : Uuid) (w : World) : Prop :=
  HasFiles inheritedFiles (held parts.base j w).workspace

theorem exists_parent_of_status {w : World} {s : Status} (h : w.db.status j = some s) :
    ∃ parent, parentOf w j = some parent := by
  obtain ⟨row, hrow, -⟩ := Option.map_eq_some_iff.mp h
  exact ⟨row.parentJobId, by rw [parentOf, hrow]; rfl⟩

/-- **A completed job that has a parent has both files.** -/
theorem hasContext_of_completed (hm : (platform parts).Reach (start parts) m)
    (hdone : IsCompleted j m.view.state) {parent : Uuid}
    (hparent : parentOf m.view.state j = some (some parent)) :
    HasContext parts j m.view.state := by
  induction hm with
  | refl => exact absurd hdone (by simp [IsCompleted, Db.status, start, System.initial,
      World.initial, Db.empty])
  | @tail m m' hm hstep ih =>
    by_cases hbefore : IsCompleted j m.view.state
    · -- a completed job is left alone
      obtain ⟨old, hold⟩ := exists_parent_of_status hbefore
      have hheld := (completed_step hm hstep hbefore).2
      rw [HasContext, hheld]
      refine ih hbefore ?_
      rcases guar_of_step (j := j) hm hstep with hview | ⟨l, -, hG⟩
      · rwa [hview] at hparent
      · rw [hG.parents j old hold] at hparent
        exact hold.trans hparent
    · cases hstep with
      | invoke c _ => exact absurd hdone hbefore
      | perform t c o k e r s ht he =>
        have ho := (System.Reach.calls (body_calls parts) hm ht).head
        obtain ⟨server, expected, code, message, rfl, rfl⟩ :=
          completed_by_run ho he hbefore hdone
        have hsame : SameContext parts.base j m.view.state s := sameContext_db he
        -- the run completes its job only in a phase in which the files are there
        have hequipped := (System.Reach.obeys (P := fun _ => contextProtocol j)
          (body_obeys_context parts j) hm ht).head rfl
        have hfit := (inPhase_of_reach (j := j) hm ht).1 server rfl
        rw [contextPhase] at hfit
        show HasFiles inheritedFiles (held parts.base j s).workspace
        generalize (contextProtocol j).phase .waiting t m.view.history = q at hequipped hfit
        cases q with
        | free =>
          rw [View.push_state, hsame.parent none hfit] at hparent
          exact absurd hparent (by simp)
        | ready files =>
          rw [hsame.workspace]
          exact fun f hf => hfit f (hequipped f hf)
        | impossible => exact absurd hfit id
        | _ => exact absurd hequipped id

end Completed

/-! ### Requests for a refinement -/

/-- What a refinement is refused with if a file of the parent is missing. -/
def missingFile (filename : String) : Exn :=
  .refinementConflict ("Required parent file is missing: " ++ filename)

/-- The operation has found no file. -/
def Op.findsNothing : (o : Op) → o.Val → Bool
  | .fs (.workspaceFileExists _ _), present => !present
  | _, _ => false

/-- The protocol of a request to refine `parent`: whether it has met a missing file, or an
exception that none of its operations raises. -/
def checkProtocol (parent : Uuid) : Protocol Op Res Bool where
  next q o r := match r with
    | .ok a => q || o.findsNothing a
    | .error x => q || !x.fatal
  allows _
    | .fs (.workspaceFileExists k f) => k = parent ∧ f ∈ inheritedFiles
    | _ => True

/-- The refusal for a missing file has its reason. -/
def Explained {α : Type} (r : Except Exn α) (q : Bool) : Prop :=
  ∀ f, r = .error (missingFile f) → q = true

section Check

variable {parent : Uuid}

theorem explained_op {o : Op} {q : Bool} (ho : (checkProtocol parent).allows q o) :
    Obeys (checkProtocol parent) Explained (perform o).run q := by
  refine obeys_op (P := checkProtocol parent) ho ?_
  rintro r f rfl
  exact Bool.or_true q

theorem explained_bind {α β : Type} {x : Task α} {f : α → Task β} {q : Bool}
    (hx : Obeys (checkProtocol parent) Explained x.run q)
    (hf : ∀ a q', Obeys (checkProtocol parent) Explained (f a).run q') :
    Obeys (checkProtocol parent) Explained (x >>= f).run q := by
  refine obeys_bindE hx (fun a q' _ => hf a q') ?_
  intro e q' he f hr
  exact he f (congrArg Except.error (Except.error.inj hr))

theorem explained_ok {α : Type} (a : α) (q : Bool) :
    Obeys (checkProtocol parent) Explained (pure a : Task α).run q :=
  obeys_ret fun _ h => absurd h (by simp)

/-- Another exception needs no reason. -/
theorem explained_throw {α : Type} {e : Exn} (he : ∀ f, e ≠ missingFile f) (q : Bool) :
    Obeys (checkProtocol parent) Explained (throw e : Task α).run q :=
  obeys_ret fun f h => absurd (Except.error.inj h) (he f)

theorem explained_createJob (prompt : String) (of : Option Uuid) (q : Bool) :
    Obeys (checkProtocol parent) Explained (JobService.createJob prompt of).run q := by
  refine explained_bind (explained_op (o := .db (.insertJob prompt of)) trivial) fun j _ => ?_
  refine explained_bind (explained_op (o := .db (.getJob j)) trivial) fun _ _ => ?_
  refine explained_bind (explained_op (o := .fs (.createWorkspace j)) trivial) fun _ _ => ?_
  refine explained_bind (explained_op (o := .db (.logEvents ..)) trivial) fun _ _ => ?_
  refine explained_bind (explained_op (o := .db (.getJob j)) trivial) fun _ _ => ?_
  exact explained_ok j _

theorem explained_contextSize (todo : List String) (htodo : ∀ f ∈ todo, f ∈ inheritedFiles)
    (total : ℕ) (q : Bool) :
    Obeys (checkProtocol parent) Explained (JobService.contextSize parent todo total).run q := by
  induction todo generalizing total q with
  | nil => exact explained_ok total q
  | cons f rest ih =>
    have hf : f ∈ inheritedFiles := htodo f List.mem_cons_self
    refine obeys_bindE
      (R := fun r q' => Explained r q' ∧ (r = .ok false → q' = true)) ?_ ?_ ?_
    · refine obeys_op (P := checkProtocol parent) (o := .fs (.workspaceFileExists parent f))
        ⟨rfl, hf⟩ fun r => ⟨?_, ?_⟩
      · rintro g rfl
        exact Bool.or_true q
      · rintro rfl
        exact Bool.or_true q
    · rintro present q' ⟨-, hmissing⟩
      cases present with
      -- The missing file is reported after the answer that it is not there.
      | false => exact obeys_ret fun _ _ => hmissing rfl
      | true =>
        refine explained_bind (explained_op (o := .fs (.workspaceFileSize parent f)) trivial)
          fun size q'' => ?_
        exact ih (fun g hg => htodo g (List.mem_cons_of_mem _ hg)) _ q''
    · intro e q' he g hr
      exact he.1 g (congrArg Except.error (Except.error.inj hr))

theorem explained_createRefinementJob (prompt : String) (q : Bool) :
    Obeys (checkProtocol parent) Explained
      (JobService.createRefinementJob parent prompt).run q := by
  refine explained_bind (explained_op (o := .db (.getJob parent)) trivial) fun row q' => ?_
  cases row with
  | none => exact explained_throw (by simp [missingFile]) q'
  | some row =>
    show Obeys _ _ (ExceptT.run (if row.status ≠ .completed then _ else _)) _
    by_cases hs : row.status ≠ .completed
    · rw [if_pos hs]
      refine explained_throw (fun f hf => ?_) q'
      -- the two texts differ in their first character
      have htext := congrArg String.toList (Exn.refinementConflict.inj hf)
      rw [String.toList_append] at htext
      exact absurd (congrArg List.head? htext) (by simp)
    · rw [if_neg hs]
      refine explained_bind (explained_contextSize _ (fun _ hf => hf) 0 q') fun total q'' => ?_
      by_cases ht : JobService.maxRefinementContextBytes < total
      · rw [if_pos ht]
        exact explained_throw (by simp [missingFile]) q''
      · rw [if_neg ht]
        exact explained_createJob _ _ q''

/-- The protocol of a call: only requests for a refinement are observed. -/
def Call.checks : Call → Protocol Op Res Bool
  | .refine parent _ => checkProtocol parent
  | _ => ⟨fun q _ _ => q, fun _ _ => True⟩

theorem body_obeys_check (parts : Parts) (c : Call) :
    Obeys c.checks (fun r q => ∀ parent prompt, c = .refine parent prompt → Explained r q)
      ((platform parts).body c) false := by
  have others : ∀ {P : Protocol Op Res Bool}, (∀ o, P.allows false o) →
      (∀ o r, P.next false o r = false) → (∀ parent prompt, c ≠ .refine parent prompt) →
      Obeys P (fun r q => ∀ parent prompt, c = .refine parent prompt → Explained r q)
        ((platform parts).body c) false := by
    intro P hallows hnext hc
    exact obeys_sink hallows hnext (fun _ parent prompt h => absurd h (hc parent prompt)) _
  cases c with
  | refine parent prompt =>
    have hreply : Obeys (checkProtocol parent) Explained
        (Reply.created <$> JobService.refineRequest parent prompt : Task Reply).run false := by
      refine explained_bind ?_ fun _ _ => explained_ok _ _
      refine explained_bind (explained_createRefinementJob prompt false) fun j q => ?_
      exact explained_bind (explained_op (o := .sys (.schedule j)) trivial) fun _ _ =>
        explained_ok j _
    exact hreply.mono fun _ _ h _ _ _ => h
  | run server j => exact others (fun _ => trivial) (fun _ _ => rfl) (by simp)
  | recover cutoff => exact others (fun _ => trivial) (fun _ _ => rfl) (by simp)
  | create prompt => exact others (fun _ => trivial) (fun _ _ => rfl) (by simp)
  | orphan o => exact others (fun _ => trivial) (fun _ _ => rfl) (by simp)

end Check

namespace LocalStorage

variable {base : Path} {j : Uuid}

theorem validateSafePath_raises (rel : String) (area : Area) :
    Disk.Raises (fun e => e.fatal) (Disk.ofExcept (validateSafePath base j rel area)) := by
  refine Disk.raises_ofExcept fun e he => ?_
  rw [validateSafePath] at he
  split at he
  · rw [← Except.error.inj he]
    rfl
  · split at he
    · rw [← Except.error.inj he]
      rfl
    · dsimp only at he
      split at he
      · exact absurd he (by simp)
      · rw [← Except.error.inj he]
        rfl

theorem contents_raises (rel : String) (p : Path) :
    Disk.Raises (fun e => e.fatal) (contents (notFound j rel) p) := by
  refine Disk.raises_bind (Disk.raises_lookup p) fun n => ?_
  rcases n with _ | _ | data
  · exact Disk.raises_raise rfl
  · exact Disk.raises_raise rfl
  · exact Disk.raises_pure data

end LocalStorage

section Requests

variable {parts : Parts} {base : Path} {e : Env} {j : Uuid} {w w' : World}

/-- The operations of a request raise what the database and the operating system raise. -/
theorem request_raises {o : Op} {x : Exn} (ho : OfRequest o)
    (h : exec base e o w = some (.error x, w')) : x.fatal = true := by
  cases o with
  | db o =>
    rcases exec_db_cases h with ⟨db, hrun, -⟩ | ⟨⟨name, detail, hr⟩, -⟩
    · cases o with
      | insertJob prompt parent => exact absurd (DbOp.run_insertJob hrun).2.1 (by simp)
      | getJob k => exact absurd (Prod.mk.inj (Option.some.inj hrun)).1 (by simp)
      | logEvents k rows =>
        rcases DbOp.run_logEvents hrun with ⟨hr, -⟩ | ⟨hr, -⟩
        · exact absurd hr (by simp)
        · rw [Except.error.inj hr]
          rfl
      | _ => exact absurd ho id
    · rw [Except.error.inj hr]
      rfl
  | fs o =>
    refine exec_fs_raises_of (P := fun x => x.fatal = true) (fun _ _ => rfl) ?_ h
    cases o with
    | createWorkspace k =>
      -- Both directories are made, and the operating system can refuse either.
      have hmkdir : ∀ p, Disk.Raises (fun e => e.fatal)
          (Disk.mkdir (LocalStorage.notADirectory p) p) := fun p =>
        Disk.raises_mkdir (P := fun e : Exn => e.fatal = true)
          (fun n => by rcases n with _ | _ | data <;> rfl) p
      exact Disk.raises_bind (hmkdir _) fun _ => hmkdir _
    | workspaceFileExists k rel =>
      show Disk.Raises _ (LocalStorage.workspaceFileExists base k rel)
      rw [LocalStorage.workspaceFileExists]
      have hsafe := @LocalStorage.validateSafePath_raises base k rel .jobs
      rcases hpath : LocalStorage.validateSafePath base k rel .jobs with x | p
      · -- A path that is refused is reported as missing; another exception goes on.
        have hx : x.fatal = true := hsafe w.fs x w.fs (by rw [hpath]; rfl)
        cases x with
        | permission detail => exact Disk.raises_pure _
        | _ => exact Disk.raises_raise hx
      · exact Disk.raises_bind (Disk.raises_lookup p) fun _ => Disk.raises_pure _
    | workspaceFileSize k rel =>
      refine Disk.raises_bind (LocalStorage.validateSafePath_raises rel .jobs) fun p => ?_
      exact Disk.raises_bind (LocalStorage.contents_raises rel p) fun _ => Disk.raises_pure _
    | _ => exact absurd ho id
  | sys o =>
    cases o with
    | schedule k => exact absurd (Prod.mk.inj (Option.some.inj h)).1 (by simp)
    | _ => exact absurd ho id

/-- The check of an inherited file sees whether it is there. -/
theorem exec_workspaceFileExists {f : String} {present : Bool} (hf : f ∈ inheritedFiles)
    (h : exec base e (.fs (.workspaceFileExists j f)) w = some (.ok present, w')) :
    present = LocalStorage.isFile ((held base j w).workspace [f]) := by
  have hprog := (exec_fs_ok h).2
  rw [FsOp.program, LocalStorage.workspaceFileExists, validateSafePath_inherited hf] at hprog
  have hrest := Disk.lookup_bind_ok hprog
  exact (Except.ok.inj (Prod.mk.inj hrest).1).symm

/-- What the phase of a request to refine `j` says: the job whose file is missing has no
parent. -/
def Justified (c : Call) (q : Bool) (w : World) : Prop :=
  ∀ parent prompt, c = .refine parent prompt → q = true → parentOf w parent = some none

/-- **A completed job that lacks a file has no parent.** -/
theorem justified_missing {m m' : State} {t : ℕ} {f : String}
    (hm : (platform parts).Reach (start parts) m) (hf : f ∈ inheritedFiles)
    (h : Performs parts t (.fs (.workspaceFileExists j f)) (.ok false) m m') :
    parentOf m.view.state j = some none := by
  have hdone := (inspected_of_performs (j := j) hm h (decide_eq_true rfl)).1
  obtain ⟨parent, hparent⟩ := exists_parent_of_status hdone
  cases parent with
  | none => exact hparent
  | some parent =>
    -- the file would have been found
    obtain ⟨e, hexec⟩ := h.exec
    obtain ⟨data, hdata⟩ := hasContext_of_completed hm hdone hparent f hf
    have hpresent := exec_workspaceFileExists hf hexec
    rw [hdata] at hpresent
    exact absurd hpresent (by simp [LocalStorage.isFile])

/-- The phase of a request is justified in every reachable state. -/
theorem justified_of_reach {m : State} (hm : (platform parts).Reach (start parts) m) {t : ℕ}
    {c : Call} {p : Prog Op Res (Except Exn Reply)} (ht : m.threads[t]? = some (c, p)) :
    Justified c (c.checks.phase false t m.view.history) m.view.state := by
  refine System.Reach.phase_view (P := Call.checks) (body_obeys_check parts)
    (J := fun c _ q v => Justified c q v.state) ?_ ?_ ?_ hm ht
  · intro m c t _ _ parent prompt _ hq
    exact absurd hq (by simp)
  · rintro m c t q o k e r s hm ht hallows hexec h parent prompt rfl hq
    refine exec_parent hexec none ?_
    have hcalls : OfRequest o := (System.Reach.calls (body_calls parts) hm ht).head
    cases r with
    | error x =>
      -- no operation of a request raises anything else
      have hfatal := request_raises hcalls hexec
      refine h parent prompt rfl ?_
      have hor : (q || !x.fatal) = true := hq
      rwa [hfatal, Bool.not_true, Bool.or_false] at hor
    | ok a =>
      have hor : (q || o.findsNothing a) = true := hq
      rcases Bool.or_eq_true_iff.mp hor with hq | hnothing
      · exact h parent prompt rfl hq
      · cases o with
        | fs o =>
          cases o with
          | workspaceFileExists i f =>
            obtain ⟨rfl, hf⟩ := hallows
            obtain rfl : a = false := by simpa [Op.findsNothing] using hnothing
            exact justified_missing hm hf ⟨.perform m t _ _ k e _ s ht hexec, rfl⟩
          | _ => exact absurd hnothing (by simp [Op.findsNothing])
        | db o => exact absurd hnothing (by simp [Op.findsNothing])
        | sys o => exact absurd hnothing (by simp [Op.findsNothing])
  · intro m m' c t q l hm hstep _ _ h parent prompt hc hq
    rcases guar_of_step (j := parent) hm hstep with hview | ⟨l', -, hG⟩
    · rw [hview]
      exact h parent prompt hc hq
    · exact hG.parents parent none (h parent prompt hc hq)

/-- **Refinement chains never lose their context.**  In every reachable state, a completed
job that has a parent has `model.scad` and `design-spec.md` as regular files in its
workspace, whatever plans it and its ancestors have executed and however many attempts
were rolled back; and no request to refine a job that has a parent has been refused because
a file of it is missing. -/
theorem refinement_keeps_context (parts : Parts) (j : Uuid) {m : State}
    (hm : (platform parts).Reach (start parts) m) {parent : Uuid}
    (hparent : parentOf m.view.state j = some (some parent)) :
    (State.status j m = some .completed → ∀ f ∈ ["model.scad", "design-spec.md"],
      ∃ data, m.view.state.fs.node (root parts.base .jobs j ++ [f]) = some (.file data)) ∧
    ∀ (t : ℕ) (prompt f : String),
      m.threads[t]? ≠ some (.refine j prompt, .ret (.error (missingFile f))) := by
  constructor
  · intro hdone f hf
    exact hasContext_of_completed hm hdone hparent f hf
  · intro t prompt f ht
    have hobeys := System.Reach.obeys (P := Call.checks) (body_obeys_check parts) hm ht
    have hq := hobeys.returned j prompt rfl f rfl
    have hnone := justified_of_reach hm ht j prompt rfl hq
    rw [hparent] at hnone
    exact absurd hnone (by simp)

end Requests

/-- The sample job has completed and its refinement has run to the end. -/
def Sample.refined : List (System.Move Env Call) :=
  Sample.beforeCheck ++ .perform 2 Sample.calmChild :: Sample.beforeCopy ++
    List.replicate 15 (.perform 3 Sample.calmChild)

set_option maxRecDepth 100000 in
/-- The refinement of the sample job has both files. -/
theorem refinement_keeps_context_sample :
    ∃ m : State, (platform (Sample.parts Sample.design)).Reach
        (start (Sample.parts Sample.design)) m ∧
      parentOf m.view.state Sample.child = some (some Sample.job) ∧
      ∀ f ∈ ["model.scad", "design-spec.md"], ∃ data, m.view.state.fs.node
        (root (Sample.parts Sample.design).base .jobs Sample.child ++ [f]) =
          some (.file data) := by
  obtain ⟨m, hm, hgood⟩ := Sample.reached (Sample.parts Sample.design) Sample.refined
    (fun m => State.status Sample.child m = some .completed ∧
      parentOf m.view.state Sample.child = some (some Sample.job)) (by decide +kernel)
  obtain ⟨hdone, hparent⟩ := of_decide_eq_true hgood
  exact ⟨m, hm, hparent, (refinement_keeps_context _ Sample.child hm hparent).1 hdone⟩

end CliExecutionPlatform
