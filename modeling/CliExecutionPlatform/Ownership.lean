/-
Who may touch a job, and when.

For one job `j` this file gives every thread of the platform its discipline.
The thread that created the job owns it until its run is scheduled, the thread
that started it owns it from then on; nobody else changes what it holds, and a
completed job is not changed at all.

* `starts`, `inserts`, `recovers`, ... — what an operation was for job `j`;
  `Seen`, `SeenBy`, `Ever` — what a history contains;
* `JobInv` — what the status of a job says about its data and its history;
* `Rely`, `Guar`, `ownership` — the discipline;
* `step_of_same` and the lemmas after it — every operation that a call can
  perform on the job keeps the discipline.
-/
import CliExecutionPlatform.AttemptSpec
import CliExecutionPlatform.Lifecycle

open Files Process

namespace CliExecutionPlatform

open LocalStorage (treeOf)

/-! ### Marks -/

/-- A property of performed operations. -/
abbrev Mark : Type := (o : Op) → Res o → Bool

/-- A history, latest operation first. -/
abbrev History : Type := List (Label Op Res)

/-- The history has an operation with this mark. -/
def Seen (f : Mark) (h : History) : Prop := ∃ l ∈ h, f l.op l.res = true

/-- Thread `t` has performed an operation with this mark. -/
def SeenBy (f : Mark) (t : ℕ) (h : History) : Prop := ∃ l ∈ h, l.tid = t ∧ f l.op l.res = true

/-- At some point of the history an operation had the property `P`, which may
depend on what came before it. -/
def Ever (P : Label Op Res → History → Prop) (h : History) : Prop :=
  ∃ l before, l :: before <:+ h ∧ P l before

section History

variable {f : Mark} {t u : ℕ} {h h' : History} {P : Label Op Res → History → Prop}

theorem Seen.mono (hs : Seen f h) (hh : h <:+ h') : Seen f h' := by
  obtain ⟨l, hl, hf⟩ := hs
  exact ⟨l, hh.subset hl, hf⟩

theorem SeenBy.mono (hs : SeenBy f t h) (hh : h <:+ h') : SeenBy f t h' := by
  obtain ⟨l, hl, ht, hf⟩ := hs
  exact ⟨l, hh.subset hl, ht, hf⟩

theorem Ever.mono (hs : Ever P h) (hh : h <:+ h') : Ever P h' := by
  obtain ⟨l, before, hl, hP⟩ := hs
  exact ⟨l, before, hl.trans hh, hP⟩

theorem Ever.head {l : Label Op Res} (hP : P l h) : Ever P (l :: h) :=
  ⟨l, h, List.suffix_refl _, hP⟩

theorem ever_cons {l : Label Op Res} : Ever P (l :: h) ↔ P l h ∨ Ever P h := by
  constructor
  · rintro ⟨l', before, hsuffix, hP⟩
    rcases List.suffix_cons_iff.mp hsuffix with heq | hrest
    · obtain ⟨rfl, rfl⟩ := List.cons.inj heq
      exact .inl hP
    · exact .inr ⟨l', before, hrest, hP⟩
  · rintro (hP | hs)
    · exact .head hP
    · exact hs.mono (List.suffix_cons _ _)

theorem not_ever_nil : ¬ Ever P [] := by
  rintro ⟨l, before, hsuffix, -⟩
  exact absurd (List.suffix_nil.mp hsuffix) (by simp)

instance : Decidable (Seen f h) := inferInstanceAs (Decidable (∃ l ∈ h, f l.op l.res = true))

instance : Decidable (SeenBy f t h) :=
  inferInstanceAs (Decidable (∃ l ∈ h, l.tid = t ∧ f l.op l.res = true))

/-- Whether a history ever had the property can be computed. -/
instance decidableEver [∀ l h, Decidable (P l h)] : (h : History) → Decidable (Ever P h)
  | [] => isFalse not_ever_nil
  | l :: h =>
    have := decidableEver h
    decidable_of_iff (P l h ∨ Ever P h) ever_cons.symm

/-- Only one thread performs an operation that is performed once. -/
theorem SeenBy.unique (hone : h.countP (fun l => f l.op l.res) ≤ 1) (ht : SeenBy f t h)
    (hu : SeenBy f u h) : t = u := by
  obtain ⟨l, hl, rfl, hf⟩ := ht
  obtain ⟨l', hl', rfl, hf'⟩ := hu
  rw [eq_of_countP_le_one hone hl hl' hf hf']

theorem not_seenBy (hnone : h.countP (fun l => f l.op l.res) = 0) : ¬ SeenBy f t h := by
  rintro ⟨l, hl, -, hf⟩
  exact List.countP_eq_zero.mp hnone l hl hf

end History

section Marks

variable (j : Uuid)

/-- Job `j` was created. -/
def inserts : Mark
  | .db (.insertJob _ _), .ok k => k = j
  | _, _ => false

/-- Stale recovery has made job `j` fail. -/
def recovers : Mark
  | .db (.recoverOne k _), .ok true => k = j
  | _, _ => false

/-- A drain of a tool run of job `j` was left behind. -/
def detaches : Mark
  | .sys (.detach orphan), .ok _ => orphan.job = j
  | _, _ => false

/-- From here on, artifacts, rows or a plan of job `j` may be there. -/
def opens : Mark
  | .fs (.saveArtifact k _), _ | .fs (.removeCopy k _), _ => k = j
  | .db (.commitArtifacts k _), .ok _ | .db (.saveActionPlan k _), .ok _ => k = j
  | _, _ => false

/-- One of the two transactions after the execution of the plan failed. -/
def losesEnd : Mark
  | .db (.appendEvent k .planExecuted _), .error _ => k = j
  | .db (.transition k _ .completed _ _), .error _ => k = j
  | _, _ => false

/-- Results of an attempt of job `j` are there that have not been rolled
back. -/
def Open : History → Prop
  | [] => False
  | l :: h => opens j l.op l.res = true ∨ (rollsBack j l.op l.res = false ∧ Open h)

/-- The run of job `j` goes on although the job was recovered. -/
def GoesOn (l : Label Op Res) (h : History) : Prop :=
  SeenBy (starts j) l.tid h ∧ Seen (recovers j) h

/-- The steps after which a job that fails may keep something: the session of an
attempt cannot be rolled back, the snapshot protocol fails, the plan cannot be
saved after its rows were committed, one of the last two transactions fails, or
stale recovery hits a run that is not at rest. -/
def Spoils (l : Label Op Res) (h : History) : Prop :=
  strands j l.op l.res = true ∨ (losesPlan j l.op l.res = true ∧ Seen (commits j) h) ∨
    losesEnd j l.op l.res = true ∨ (recovers j l.op l.res = true ∧ Open j h) ∨ GoesOn j l h

/-- The steps after which a job may go on logging although it has ended. -/
def Unsettles (l : Label Op Res) (h : History) : Prop :=
  detaches j l.op l.res = true ∨ GoesOn j l h

instance decidableOpen : (h : History) → Decidable (Open j h)
  | [] => isFalse id
  | _ :: h =>
    have := decidableOpen h
    inferInstanceAs (Decidable (_ ∨ _ ∧ Open j h))

instance (l : Label Op Res) (h : History) : Decidable (GoesOn j l h) :=
  inferInstanceAs (Decidable (_ ∧ _))

instance (l : Label Op Res) (h : History) : Decidable (Spoils j l h) :=
  inferInstanceAs (Decidable (_ ∨ _ ∨ _ ∨ _ ∨ _))

instance (l : Label Op Res) (h : History) : Decidable (Unsettles j l h) :=
  inferInstanceAs (Decidable (_ ∨ _))

variable {j}

theorem Late.ever {h : History} (hlate : Late j h) : Ever (Spoils j) h := by
  obtain ⟨l, before, hl, hlose, hcommit⟩ := hlate
  exact ⟨l, before, hl, .inr (.inl ⟨hlose, hcommit⟩)⟩

theorem Stranded.ever {h : History} (hs : Stranded j h) : Ever (Spoils j) h := by
  obtain ⟨l, hl, hstrand⟩ := hs
  obtain ⟨post, before, rfl⟩ := List.append_of_mem hl
  exact ⟨l, before, List.suffix_append _ _, .inl hstrand⟩

end Marks

/-! ### The invariant -/

/-- Nothing of an attempt is there. -/
structure Clean (H : Held) : Prop where
  plan : H.plan = none
  artifacts : H.artifacts = []
  promoted : H.promoted = Tree.empty

/-- The files that a refinement inherits are there, and together they are not
too large. -/
def ContextFits (W : Tree) : Prop :=
  ∃ data : String → List UInt8,
    (∀ f ∈ JobOrchestratorService.inheritedFiles, W [f] = some (.file (data f))) ∧
    (JobOrchestratorService.inheritedFiles.map fun f => (data f).length).sum ≤
      JobService.maxRefinementContextBytes

section Discipline

variable (parts : Parts) (j : Uuid)

/-- What is held is what executing some plan made of a clean start. -/
def Delivered (H : Held) : Prop :=
  ∃ plan H₀, Clean H₀ ∧ Succeeded (fun _ => True) j parts plan H₀ H

/-- What the status of job `j`, whether it is scheduled and the history say
about each other and about what the job holds. -/
structure JobInv (status : Option Status) (scheduled : Prop) (H : Held) (h : History) : Prop where
  insertedOnce : h.countP (fun l => inserts j l.op l.res) ≤ 1
  startedOnce : startCount j h ≤ 1
  absent : status = none → h.countP (fun l => inserts j l.op l.res) = 0 ∧ ¬ scheduled ∧
    H.workspace = (fun _ => none) ∧ H.promoted = (fun _ => none)
  waiting : status = none ∨ status = some .created →
    startCount j h = 0 ∧ H.plan = none ∧ H.artifacts = []
  unscheduled : ¬ scheduled → status = none ∨ status = some .created
  ready : status = some .created → scheduled →
    H.workspace [] = some .dir ∧ H.promoted = Tree.empty
  running : status = some .running → Ever (Spoils j) h ∨ Open j h ∨ Clean H
  failed : status = some .failed → Ever (Spoils j) h ∨ Clean H
  completed : status = some .completed → Delivered parts j H

/-- The parent that the row of a job names, if there is a row. -/
def parentOf (w : World) (k : Uuid) : Option (Option Uuid) :=
  (w.db.job k).map JobRow.parentJobId

/-- Job `j` is completed. -/
def IsCompleted (w : World) : Prop := w.db.status j = some .completed

/-- The invariant: that of the job itself, orphaned drains have been detached,
and a job that has children is completed and fits to be refined. -/
structure Inv (v : View World Op Res) : Prop where
  job : JobInv parts j (v.state.db.status j) (j ∈ v.state.scheduled)
    (held parts.base j v.state) v.history
  orphans : ∀ o ∈ v.state.orphans, o.job = j → Seen (detaches j) v.history
  children : ∀ k, parentOf v.state k = some (some j) →
    IsCompleted j v.state ∧ ContextFits (held parts.base j v.state).workspace

/-! ### Rely and guarantee -/

/-- What nobody does to anybody. -/
structure Common (v v' : View World Op Res) : Prop where
  history : v.history <:+ v'.history
  scheduled : j ∈ v.state.scheduled → j ∈ v'.state.scheduled
  parents : ∀ k p, parentOf v.state k = some p → parentOf v'.state k = some p
  completed : IsCompleted j v.state →
    IsCompleted j v'.state ∧ held parts.base j v'.state = held parts.base j v.state

/-- The thread that started the job finds what it left, unless stale recovery
has made the job fail. -/
def OwnerKept (t : ℕ) (v v' : View World Op Res) : Prop :=
  SeenBy (starts j) t v.history → held parts.base j v'.state = held parts.base j v.state ∧
    (v'.state.db.status j = v.state.db.status j ∨
      v.state.db.status j = some .running ∧ v'.state.db.status j = some .failed ∧
        Seen (recovers j) v'.history)

/-- The thread that created the job finds what it left, until the run of the
job is scheduled. -/
def CreatorKept (t : ℕ) (v v' : View World Op Res) : Prop :=
  SeenBy (inserts j) t v.history → j ∉ v.state.scheduled → j ∉ v'.state.scheduled ∧
    held parts.base j v'.state = held parts.base j v.state ∧
    v'.state.db.status j = v.state.db.status j

structure Rely (t : ℕ) (v v' : View World Op Res) : Prop extends Common parts j v v' where
  owner : OwnerKept parts j t v v'
  creator : CreatorKept parts j t v v'

/-- An ended job logs nothing, unless something has unsettled it. -/
def Silent (v v' : View World Op Res) : Prop :=
  ∀ s, v.state.db.status j = some s → s.terminal → v'.state.db.eventsOf j = v.state.db.eventsOf j ∨
    Ever (Unsettles j) v'.history

/-- The operation reads a file of job `j` on behalf of another job. -/
def Op.inspects : Op → Bool
  | .fs (.copyWorkspaceFile source _ _) => source = j
  | .fs (.workspaceFileExists k _) | .fs (.workspaceFileSize k _) => k = j
  | _ => false

/-- Files are checked and copied for a refinement only if the parent is
completed, and copied only if they fit. -/
def Inspected (v v' : View World Op Res) : Prop :=
  ∀ l, v'.history = l :: v.history → l.op.inspects j = true → IsCompleted j v.state ∧
    ∀ k f, l.op = .fs (.copyWorkspaceFile j k f) →
      ContextFits (held parts.base j v.state).workspace

structure Guar (t : ℕ) (v v' : View World Op Res) : Prop extends Common parts j v v' where
  others : ∀ u, u ≠ t → OwnerKept parts j u v v' ∧ CreatorKept parts j u v v'
  silent : Silent j v v'
  inspected : Inspected parts j v v'

variable {parts j} {t : ℕ} {v v' v'' : View World Op Res}

theorem Rely.refl (v : View World Op Res) : Rely parts j t v v where
  history := List.suffix_refl _
  scheduled := id
  parents := fun _ _ h => h
  completed := fun h => ⟨h, rfl⟩
  owner := fun _ => ⟨rfl, .inl rfl⟩
  creator := fun _ h => ⟨h, rfl, rfl⟩

theorem Rely.trans (h : Rely parts j t v v') (h' : Rely parts j t v' v'') :
    Rely parts j t v v'' where
  history := h.history.trans h'.history
  scheduled := fun hs => h'.scheduled (h.scheduled hs)
  parents := fun k p hp => h'.parents k p (h.parents k p hp)
  completed := by
    intro hc
    obtain ⟨hc', hheld⟩ := h.completed hc
    obtain ⟨hc'', hheld'⟩ := h'.completed hc'
    exact ⟨hc'', hheld'.trans hheld⟩
  owner := by
    intro hs
    obtain ⟨hheld, hstatus⟩ := h.owner hs
    obtain ⟨hheld', hstatus'⟩ := h'.owner (hs.mono h.history)
    refine ⟨hheld'.trans hheld, ?_⟩
    -- A recovery can come in one of the two parts only.
    rcases hstatus with hsame | ⟨hrun, hfail, hrec⟩
    · rw [← hsame]
      exact hstatus'
    · rcases hstatus' with hsame' | ⟨hrun', -, -⟩
      · exact .inr ⟨hrun, hsame'.trans hfail, hrec.mono h'.history⟩
      · rw [hfail] at hrun'
        exact absurd hrun' (by simp)
  creator := by
    intro hs hsched
    obtain ⟨hsched', hheld, hstatus⟩ := h.creator hs hsched
    obtain ⟨hsched'', hheld', hstatus'⟩ := h'.creator (hs.mono h.history) hsched'
    exact ⟨hsched'', hheld'.trans hheld, hstatus'.trans hstatus⟩

variable (parts j) in
/-- **The discipline of thread `t` with respect to job `j`.** -/
def ownership (t : ℕ) : Discipline World Op Res where
  inv := Inv parts j
  rely := Rely parts j t
  guar := Guar parts j t
  refl := Rely.refl
  trans := fun _ _ _ => Rely.trans

/-- Every thread guarantees what the others rely on. -/
theorem Guar.rely {u : ℕ} (h : Guar parts j t v v') (hut : t ≠ u) : Rely parts j u v v' where
  toCommon := h.toCommon
  owner := (h.others u hut.symm).1
  creator := (h.others u hut.symm).2

end Discipline

/-! ### What every operation keeps -/

section Exec

variable {base : Path} {e : Env} {o : Op} {r : Res o} {w w' : World}

theorem parentOf_updateJob {db : Db} {k : Uuid} {f : JobRow → JobRow}
    (hf : ∀ row, (f row).parentJobId = row.parentJobId) (i : Uuid) :
    ((db.updateJob k f).job i).map JobRow.parentJobId = (db.job i).map JobRow.parentJobId := by
  rw [Db.job_updateJob]
  by_cases hik : i = k
  · rw [if_pos hik, hik]
    rcases db.job k with _ | row
    · rfl
    · exact congrArg some (hf row)
  · rw [if_neg hik]

theorem DbOp.run_parents {now skip : ℕ} {fresh : Uuid} {o : DbOp} {r : Except Exn o.Val}
    {db db' : Db} (h : o.run now skip fresh db = some (r, db')) (k : Uuid) :
    (db'.job k).map JobRow.parentJobId = (db.job k).map JobRow.parentJobId ∨
      db.job k = none ∧ ∃ prompt parent, o = .insertJob prompt parent ∧
        (db'.job k).map JobRow.parentJobId = some parent := by
  cases o with
  | getJob i =>
    obtain ⟨-, rfl⟩ := Prod.mk.inj (Option.some.inj h)
    exact .inl rfl
  | scanStale cutoff =>
    obtain ⟨-, rfl⟩ := Prod.mk.inj (Option.some.inj h)
    exact .inl rfl
  | rollbackSession i =>
    obtain ⟨-, rfl⟩ := Prod.mk.inj (Option.some.inj h)
    exact .inl rfl
  | transition i expected target code message =>
    rcases run_transition h with ⟨row, -, -, -, rfl⟩ | ⟨-, -, rfl⟩
    · refine .inl (parentOf_updateJob ?_ k)
      exact fun _ => rfl
    · exact .inl rfl
  | recoverOne i cutoff =>
    rcases run_recoverOne h with ⟨row, -, -, -, -, rfl⟩ | ⟨-, -, rfl⟩
    · refine .inl (parentOf_updateJob ?_ k)
      exact fun _ => rfl
    · exact .inl rfl
  | saveActionPlan i actions =>
    rcases run_saveActionPlan h with ⟨row, -, -, -, rfl⟩ | ⟨-, -, rfl⟩
    · refine .inl (parentOf_updateJob ?_ k)
      exact fun _ => rfl
    · exact .inl rfl
  | appendEvent i code message =>
    rcases run_appendEvent h with ⟨-, rfl⟩ | ⟨-, rfl⟩ <;> exact .inl rfl
  | logEvents i rows =>
    rcases run_logEvents h with ⟨-, rfl⟩ | ⟨-, rfl⟩ <;> exact .inl rfl
  | flushArtifact i rel name type =>
    rw [(run_flushArtifact h).1]
    exact .inl rfl
  | commitArtifacts i drafts =>
    rcases run_commitArtifacts h with ⟨-, hjob, -⟩ | ⟨-, rfl⟩
    · rw [hjob]
      exact .inl rfl
    · exact .inl rfl
  -- The only transaction that writes a parent, for an identifier without a row.
  | insertJob prompt parent =>
    obtain ⟨hnone, -, rfl⟩ := run_insertJob h
    rw [Db.job_insert]
    by_cases hk : k = fresh
    · rw [if_pos hk]
      exact .inr ⟨by rw [hk]; exact hnone, prompt, parent, rfl, rfl⟩
    · rw [if_neg hk]
      exact .inl rfl

/-- Rows keep their parents; a new row names the parent of the request. -/
theorem exec_parents (h : exec base e o w = some (r, w')) (k : Uuid) :
    parentOf w' k = parentOf w k ∨ parentOf w k = none ∧
      ∃ prompt parent, o = .db (.insertJob prompt parent) ∧ parentOf w' k = some parent := by
  cases o with
  | fs o =>
    rw [parentOf, parentOf, (exec_fs_held h).1]
    exact .inl rfl
  | sys o =>
    rw [parentOf, parentOf, SysOp.exec_db h]
    exact .inl rfl
  | db o =>
    rcases exec_db_cases h with ⟨db, hrun, rfl⟩ | ⟨-, rfl⟩
    · rcases DbOp.run_parents hrun k with hsame | ⟨hnone, prompt, parent, rfl, hnew⟩
      · exact .inl hsame
      · exact .inr ⟨by rw [parentOf, hnone]; rfl, prompt, parent, rfl, hnew⟩
    · exact .inl rfl

/-- Every orphan was there before or has just been detached. -/
theorem exec_orphans (h : exec base e o w = some (r, w')) {x : Orphan} (hx : x ∈ w'.orphans) :
    x ∈ w.orphans ∨ detaches x.job o r = true := by
  cases o with
  | fs o =>
    obtain ⟨fs, -, rfl⟩ := exec_fs h
    exact .inl hx
  | db o =>
    obtain ⟨db, -, rfl⟩ := exec_db h
    exact .inl hx
  | sys o =>
    cases o with
    | detach y =>
      obtain ⟨rfl, rfl⟩ := Prod.mk.inj (Option.some.inj h)
      rcases List.mem_cons.mp hx with rfl | hx
      · exact .inr (decide_eq_true rfl)
      · exact .inl hx
    | takeOrphan y =>
      simp only [exec, SysOp.exec] at h
      by_cases hy : y ∈ w.orphans
      · rw [if_pos hy] at h
        obtain ⟨rfl, rfl⟩ := Prod.mk.inj (Option.some.inj h)
        exact .inl (List.mem_of_mem_erase hx)
      · rw [if_neg hy] at h
        exact absurd h (by simp)
    | _ =>
      left
      simp only [exec, SysOp.exec] at h
      grind [Option.map_eq_some_iff]

theorem exec_scheduled (h : exec base e o w = some (r, w')) {k : Uuid} (hk : k ∈ w.scheduled) :
    k ∈ w'.scheduled := by
  cases o with
  | fs o =>
    obtain ⟨fs, -, rfl⟩ := exec_fs h
    exact hk
  | db o =>
    obtain ⟨db, -, rfl⟩ := exec_db h
    exact hk
  | sys o =>
    rcases hs : o.affects with _ | i
    · rw [(SysOp.exec_sameData h hs).2.2]
      exact hk
    · cases o with
      | schedule i =>
        obtain ⟨-, rfl⟩ := Prod.mk.inj (Option.some.inj h)
        exact List.mem_cons_of_mem _ hk
      | _ => exact absurd hs (by simp [SysOp.affects])

end Exec

/-! ### Steps that leave the job alone -/

section Steps

variable {parts : Parts} {j : Uuid} {t : ℕ} {v : View World Op Res} {e : Env} {o : Op}
  {r : Res o} {s : World}

/-- What is left to show of a step, beyond what every operation keeps. -/
theorem step_of (hI : Inv parts j v) (hexec : exec parts.base e o v.state = some (r, s))
    (hjob : JobInv parts j (s.db.status j) (j ∈ s.scheduled) (held parts.base j s)
      (⟨t, o, r⟩ :: v.history))
    (hcompleted : IsCompleted j v.state →
      IsCompleted j s ∧ held parts.base j s = held parts.base j v.state)
    (hchild : ∀ prompt, o = .db (.insertJob prompt (some j)) →
      IsCompleted j v.state ∧ ContextFits (held parts.base j v.state).workspace)
    (hothers : ∀ u, u ≠ t → OwnerKept parts j u v (v.push t o r s) ∧
      CreatorKept parts j u v (v.push t o r s))
    (hsilent : Silent j v (v.push t o r s))
    (hinspect : o.inspects j = true → IsCompleted j v.state ∧
      ∀ k f, o = .fs (.copyWorkspaceFile j k f) →
        ContextFits (held parts.base j v.state).workspace) :
    Inv parts j (v.push t o r s) ∧ Guar parts j t v (v.push t o r s) := by
  have hcommon : Common parts j v (v.push t o r s) := by
    refine ⟨List.suffix_cons _ _, fun hs => exec_scheduled hexec hs, fun k p hp => ?_, hcompleted⟩
    rcases exec_parents hexec k with hsame | ⟨hnone, -⟩
    · exact hsame.trans hp
    · rw [hnone] at hp
      exact absurd hp (by simp)
  refine ⟨⟨hjob, fun x hx hxj => ?_, fun k hk => ?_⟩, hcommon, hothers, hsilent, ?_⟩
  · rcases exec_orphans hexec hx with hold | hnew
    · exact (hI.orphans x hold hxj).mono (List.suffix_cons _ _)
    · rw [hxj] at hnew
      exact ⟨_, List.mem_cons_self, hnew⟩
  · -- a child that is there was there before, or it was created right now
    have hserved : IsCompleted j v.state ∧ ContextFits (held parts.base j v.state).workspace := by
      rcases exec_parents hexec k with hsame | ⟨-, prompt, parent, hop, hnew⟩
      · exact hI.children k (hsame.symm.trans hk)
      · obtain rfl : parent = some j := Option.some.inj (hnew.symm.trans hk)
        exact hchild prompt hop
    obtain ⟨hdone, hheld⟩ := hcompleted hserved.1
    refine ⟨hdone, ?_⟩
    show ContextFits (held parts.base j s).workspace
    rw [hheld]
    exact hserved.2
  · intro l hl hin
    obtain rfl : (⟨t, o, r⟩ : Label Op Res) = l := (List.cons.inj hl).1
    exact hinspect hin

/-- The operation is not one that the invariant counts or that ends an
attempt. -/
structure Neutral (j : Uuid) (o : Op) (r : Res o) : Prop where
  starts : starts j o r = false
  inserts : inserts j o r = false
  rollsBack : rollsBack j o r = false

/-- An operation that does not affect a job is neutral for it. -/
theorem neutral_of_affects (h : o.affects r ≠ some j) : Neutral j o r := by
  refine ⟨starts_eq_false h, ?_, ?_⟩
  · by_contra hcon
    rw [Bool.not_eq_false] at hcon
    unfold inserts at hcon
    split at hcon
    · exact h (congrArg some (of_decide_eq_true hcon))
    · exact absurd hcon (by simp)
  · by_contra hcon
    rw [Bool.not_eq_false] at hcon
    unfold rollsBack at hcon
    split at hcon
    · exact h (congrArg some (of_decide_eq_true hcon))
    · exact absurd hcon (by simp)

variable {status : Option Status} {scheduled : Prop} {H : Held} {h : History}

theorem countP_push {f : Mark} (hf : f o r = false) :
    (⟨t, o, r⟩ :: h : History).countP (fun l => f l.op l.res) =
      h.countP fun l => f l.op l.res := by
  rw [List.countP_cons_of_neg]
  rw [hf]
  simp

theorem countP_push_self {f : Mark} (hf : f o r = true) :
    (⟨t, o, r⟩ :: h : History).countP (fun l => f l.op l.res) =
      (h.countP fun l => f l.op l.res) + 1 := by
  rw [List.countP_cons_of_pos]
  exact hf

theorem Open.push (hopen : Open j h) (hn : rollsBack j o r = false) : Open j (⟨t, o, r⟩ :: h) :=
  .inr ⟨hn, hopen⟩

theorem JobInv.push (hI : JobInv parts j status scheduled H h) (hn : Neutral j o r) :
    JobInv parts j status scheduled H (⟨t, o, r⟩ :: h) where
  insertedOnce := by
    rw [countP_push hn.inserts]
    exact hI.insertedOnce
  startedOnce := by
    rw [startCount, countP_push hn.starts]
    exact hI.startedOnce
  absent := by
    rw [countP_push hn.inserts]
    exact hI.absent
  waiting := by
    rw [startCount, countP_push hn.starts]
    exact hI.waiting
  unscheduled := hI.unscheduled
  ready := hI.ready
  running := by
    intro hs
    rcases hI.running hs with hbad | hopen | hclean
    · exact .inl (hbad.mono (List.suffix_cons _ _))
    · exact .inr (.inl (hopen.push hn.rollsBack))
    · exact .inr (.inr hclean)
  failed := fun hs => (hI.failed hs).imp_left fun hbad => hbad.mono (List.suffix_cons _ _)
  completed := hI.completed

/-- Status, holdings and schedule of the job are the same in both worlds. -/
structure SameJob (base : Path) (j : Uuid) (w w' : World) : Prop where
  status : w'.db.status j = w.db.status j
  held : held base j w' = held base j w
  scheduled : j ∈ w'.scheduled ↔ j ∈ w.scheduled

/-- A step after which the job is as it was. -/
theorem step_of_same (hI : Inv parts j v) (hexec : exec parts.base e o v.state = some (r, s))
    (hsame : SameJob parts.base j v.state s) (hn : Neutral j o r)
    (hchild : ∀ prompt, o = .db (.insertJob prompt (some j)) →
      IsCompleted j v.state ∧ ContextFits (held parts.base j v.state).workspace)
    (hsilent : Silent j v (v.push t o r s))
    (hinspect : o.inspects j = true → IsCompleted j v.state ∧
      ∀ k f, o = .fs (.copyWorkspaceFile j k f) →
        ContextFits (held parts.base j v.state).workspace) :
    Inv parts j (v.push t o r s) ∧ Guar parts j t v (v.push t o r s) := by
  refine step_of hI hexec ?_ (fun hc => ⟨hsame.status.trans hc, hsame.held⟩) hchild ?_ hsilent
    hinspect
  · rw [hsame.status, hsame.held, propext hsame.scheduled]
    exact hI.job.push hn
  · exact fun u _ => ⟨fun _ => ⟨hsame.held, .inl hsame.status⟩,
      fun _ hs => ⟨fun hs' => hs (hsame.scheduled.mp hs'), hsame.held, hsame.status⟩⟩

theorem sameJob_of_cell {base : Path} {w w' : World} (h : cell base j w' = cell base j w) :
    SameJob base j w w' ∧ w'.db.eventsOf j = w.db.eventsOf j := by
  have hrow : w'.db.job j = w.db.job j := congrArg Cell.row h
  have hws : treeOf base .jobs j w'.fs = treeOf base .jobs j w.fs := congrArg Cell.workspace h
  have hpr : treeOf base .artifacts j w'.fs = treeOf base .artifacts j w.fs :=
    congrArg Cell.promoted h
  have hsn : treeOf base .snapshots j w'.fs = treeOf base .snapshots j w.fs :=
    congrArg Cell.snapshots h
  have harts : w'.db.artifactsOf j = w.db.artifactsOf j := congrArg Cell.artifacts h
  have hsched : decide (j ∈ w'.scheduled) = decide (j ∈ w.scheduled) := congrArg Cell.scheduled h
  refine ⟨⟨by rw [Db.status, Db.status, hrow], ?_, decide_eq_decide.mp hsched⟩,
    congrArg Cell.events h⟩
  simp only [held, hrow, hws, hpr, hsn, harts]

/-- **A step on another job.** -/
theorem step_foreign (hI : Inv parts j v) (hexec : exec parts.base e o v.state = some (r, s))
    (haff : o.affects r ≠ some j)
    (hchild : ∀ prompt, o = .db (.insertJob prompt (some j)) →
      IsCompleted j v.state ∧ ContextFits (held parts.base j v.state).workspace)
    (hinspect : o.inspects j = true → IsCompleted j v.state ∧
      ∀ k f, o = .fs (.copyWorkspaceFile j k f) →
        ContextFits (held parts.base j v.state).workspace) :
    Inv parts j (v.push t o r s) ∧ Guar parts j t v (v.push t o r s) := by
  obtain ⟨hsame, hevents⟩ := sameJob_of_cell (exec_frame hexec haff)
  exact step_of_same hI hexec hsame (neutral_of_affects haff) hchild
    (fun _ _ _ => .inl hevents) hinspect

end Steps

end CliExecutionPlatform
