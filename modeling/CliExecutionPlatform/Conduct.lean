/-
Every call keeps the discipline of `Ownership.lean`.

The program of each call is followed once, for an arbitrary job `j`: a run, a
recovery, a request or a drain either does not concern the job, or it creates
it, or it owns it.

* `foreign_safe` — programs that leave the job alone;
* `createJob_safe`, `refineRequest_safe` — requests: the job that is created
  becomes ready to run, and a parent has been checked when it gets a child;
* `runRow_safe`, `runInSlot_safe` — the run of the job: when it completes, what
  the job holds is what executing its plan has made;
* `body_conduct`, `conduct` — every call; the invariant in every reachable state;
* `guar_of_step` — what a further step can do.
-/
import CliExecutionPlatform.JobSteps

open Files Process

namespace CliExecutionPlatform

open LocalStorage (root treeOf validateSafePath)
open JobOrchestratorService (inheritedFiles)

section Conduct

variable {parts : Parts} {j : Uuid} {t : ℕ} {v : View World Op Res}

/-! ### Assertions -/

/-- An assertion that survives what nobody does to anybody is stable. -/
theorem stable_of_common {P : View World Op Res → Prop}
    (hP : ∀ v v', P v → Common parts j v v' → P v') : (ownership parts j t).Stable P :=
  fun v v' h hr _ => hP v v' h hr.toCommon

theorem stable_true : (ownership parts j t).Stable fun _ => True := fun _ _ _ _ _ => trivial

theorem stable_creator {W P : Tree} :
    (ownership parts j t).Stable (Creator parts.base j t W P) :=
  fun _ _ h hr _ => h.rely hr

/-- Job `j` is completed and holds the workspace `W`. -/
def Completed (parts : Parts) (j : Uuid) (W : Tree) (v : View World Op Res) : Prop :=
  IsCompleted j v.state ∧ (held parts.base j v.state).workspace = W

theorem Completed.common {W : Tree} {v v' : View World Op Res} (h : Completed parts j W v)
    (hc : Common parts j v v') : Completed parts j W v' := by
  obtain ⟨hdone, hheld⟩ := hc.completed h.1
  refine ⟨hdone, ?_⟩
  rw [hheld]
  exact h.2

/-! ### Programs that leave the job alone -/

/-- The operation cannot change the job, and it reads its files or adds a child
only where that is allowed. -/
structure Foreign (parts : Parts) (j : Uuid) (v : View World Op Res) (o : Op) : Prop where
  affects : ∀ r, o.affects r ≠ some j
  child : ∀ prompt, o = .db (.insertJob prompt (some j)) →
    IsCompleted j v.state ∧ ContextFits (held parts.base j v.state).workspace
  inspects : o.inspects j = true → IsCompleted j v.state ∧
    ∀ k f, o = .fs (.copyWorkspaceFile j k f) →
      ContextFits (held parts.base j v.state).workspace

theorem Foreign.step {o : Op} {r : Res o} {e : Env} {s : World} (h : Foreign parts j v o)
    (hI : Inv parts j v) (hexec : exec parts.base e o v.state = some (r, s)) :
    Inv parts j (v.push t o r s) ∧ Guar parts j t v (v.push t o r s) :=
  step_foreign hI hexec (h.affects r) h.child h.inspects

/-- The rule for programs of foreign operations. -/
theorem foreign_returns {α : Type} {S : Op → Prop} {P : View World Op Res → Prop} {R : α → Prop}
    (hP : ∀ v v', P v → Common parts j v v' → P v')
    (hS : ∀ v o, S o → P v → Inv parts j v → Foreign parts j v o) {p : Prog Op Res α}
    (hp : Calls S p) (hR : Returns R p) (hv : P v) :
    Safe (exec parts.base) (ownership parts j t) t (fun a v' => R a ∧ P v') p v := by
  refine Safe.of_calls (stable_of_common hP) ?_ hp hR hv
  intro v e o r s ho hv hI hexec
  obtain ⟨hI', hG⟩ := (hS v o ho hv hI).step (t := t) hI hexec
  exact ⟨hI', hG, hP v _ hv hG.toCommon⟩

theorem foreign_safe {α : Type} {S : Op → Prop} {P : View World Op Res → Prop}
    (hP : ∀ v v', P v → Common parts j v v' → P v')
    (hS : ∀ v o, S o → P v → Inv parts j v → Foreign parts j v o) {p : Prog Op Res α}
    (hp : Calls S p) (hv : P v) :
    Safe (exec parts.base) (ownership parts j t) t (fun _ => P) p v :=
  Safe.mono (fun _ _ _ h => h.2) (foreign_returns hP hS hp (returns_true p) hv)

theorem foreign_of_unrelated {o : Op} (haff : ∀ r, o.affects r ≠ some j) (hu : Unrelated j o) :
    Foreign parts j v o where
  affects := haff
  child := fun p hp => absurd hp (hu.child p)
  inspects := by
    intro h
    rw [hu.inspects] at h
    exact absurd h (by simp)

/-- One operation that has nothing to do with the job. -/
theorem unrelated_safe {o : Op} (haff : ∀ r, o.affects r ≠ some j) (hu : Unrelated j o)
    {P : View World Op Res → Prop} (hP : ∀ v v', P v → Common parts j v v' → P v') (hv : P v) :
    Safe (exec parts.base) (ownership parts j t) t (fun _ => P) (perform o).run v :=
  foreign_safe (S := fun o' => o' = o) hP
    (fun _ _ ho _ _ => by rw [ho]; exact foreign_of_unrelated haff hu) (calls_op rfl) hv

theorem sys_safe {o : SysOp} (haff : o.affects ≠ some j) {P : View World Op Res → Prop}
    (hP : ∀ v v', P v → Common parts j v v' → P v') (hv : P v) :
    Safe (exec parts.base) (ownership parts j t) t (fun _ => P) (perform (.sys o)).run v :=
  unrelated_safe (o := .sys o) (fun _ => haff) ⟨fun _ => by simp, rfl⟩ hP hv

theorem getJob_foreign (k : Uuid) : Foreign parts j v (.db (.getJob k)) :=
  foreign_of_unrelated (fun _ => by simp [Op.affects, DbOp.affects]) ⟨fun _ => by simp, rfl⟩

/-- A program that returns at once. -/
theorem ret_safe {α : Type} {a : α} {Q : α → View World Op Res → Prop}
    (hQ : (ownership parts j t).Stable (Q a)) (hv : Q a v) :
    Safe (exec parts.base) (ownership parts j t) t Q (.ret a) v :=
  Safe.ret fun v₁ hr hI => hQ v v₁ hv hr hI

/-- The row that `getJob` returns. -/
theorem exec_getJob {base : Path} {e : Env} {k : Uuid} {w w' : World} {record : JobRecord}
    (h : exec base e (.db (.getJob k)) w = some (.ok (some record), w')) :
    w.db.status k = some record.status ∧ parentOf w k = some record.parentJobId := by
  rcases exec_db_cases h with ⟨db, hrun, -⟩ | ⟨⟨name, detail, hr⟩, -⟩
  · have hrow : (w.db.job k).map (fun row => (⟨k, row.parentJobId, row.prompt, row.status⟩ :
        JobRecord)) = some record := Except.ok.inj (Prod.mk.inj (Option.some.inj hrun)).1
    obtain ⟨row, hjob, rfl⟩ := Option.map_eq_some_iff.mp hrow
    rw [Db.status, parentOf, hjob]
    exact ⟨rfl, rfl⟩
  · exact absurd hr (by simp)

/-! ### Runs of other jobs -/

/-- What a run of another job does: files of job `j` are only read by a child. -/
theorem foreign_of_ofJob {k : Uuid} {P : Uuid → Prop} {o : Op} (hkj : k ≠ j)
    (hP : P j → IsCompleted j v.state ∧ ContextFits (held parts.base j v.state).workspace)
    (ho : OfJob k P o) : Foreign parts j v o := by
  cases o with
  | sys o =>
    refine foreign_of_unrelated (fun _ => ?_) ⟨fun _ => by simp, rfl⟩
    cases o with
    | schedule i => exact absurd ho id
    | _ => exact fun h => absurd h (by simp [Op.affects, SysOp.affects])
  | db o =>
    cases o with
    | insertJob prompt parent => exact absurd ho id
    | scanStale cutoff => exact absurd ho id
    | recoverOne i cutoff => exact absurd ho id
    | getJob i => exact getJob_foreign i
    | flushArtifact i rel name type =>
      exact foreign_of_unrelated (fun _ => by simp [Op.affects, DbOp.affects])
        ⟨fun _ => by simp, rfl⟩
    | rollbackSession i =>
      exact foreign_of_unrelated (fun _ => by simp [Op.affects, DbOp.affects])
        ⟨fun _ => by simp, rfl⟩
    | transition i expected target code message =>
      obtain rfl : i = k := ho.1
      exact foreign_of_unrelated (fun _ h => hkj (Option.some.inj h)) ⟨fun _ => by simp, rfl⟩
    | appendEvent i code message =>
      obtain rfl : i = k := ho
      exact foreign_of_unrelated (fun _ h => hkj (Option.some.inj h)) ⟨fun _ => by simp, rfl⟩
    | saveActionPlan i actions =>
      obtain rfl : i = k := ho
      exact foreign_of_unrelated (fun _ h => hkj (Option.some.inj h)) ⟨fun _ => by simp, rfl⟩
    | logEvents i rows =>
      obtain rfl : i = k := ho
      exact foreign_of_unrelated (fun _ h => hkj (Option.some.inj h)) ⟨fun _ => by simp, rfl⟩
    | commitArtifacts i drafts =>
      obtain rfl : i = k := ho
      exact foreign_of_unrelated (fun _ h => hkj (Option.some.inj h)) ⟨fun _ => by simp, rfl⟩
  | fs o =>
    cases o with
    | createWorkspace i => exact absurd ho id
    | workspaceFileExists i rel => exact absurd ho id
    | workspaceFileSize i rel => exact absurd ho id
    | copyWorkspaceFile source i rel =>
      -- The only operation on files of another job: a child copies from its parent.
      obtain ⟨rfl, hsource⟩ := ho
      refine ⟨fun _ h => hkj (Option.some.inj h), fun _ => by simp, fun h => ?_⟩
      obtain rfl : source = j := of_decide_eq_true h
      exact ⟨(hP hsource).1, fun _ _ _ => (hP hsource).2⟩
    | readFile i rel =>
      exact foreign_of_unrelated (fun _ => by simp [Op.affects, FsOp.affects])
        ⟨fun _ => by simp, rfl⟩
    | stage i =>
      exact foreign_of_unrelated (fun _ => by simp [Op.affects, FsOp.affects])
        ⟨fun _ => by simp, rfl⟩
    | _ =>
      refine foreign_of_unrelated (fun _ h => hkj ?_) ⟨fun _ => by simp, rfl⟩
      exact (show _ = k from ho).symm.trans (Option.some.inj h)

/-- One operation of a run of another job that reads no other workspace. -/
theorem working_foreign {α : Type} {k : Uuid} (hkj : k ≠ j) {p : Prog Op Res α}
    (hp : Calls (OfJob k fun _ => False) p) :
    Safe (exec parts.base) (ownership parts j t) t (fun _ _ => True) p v :=
  foreign_safe (P := fun _ => True) (fun _ _ _ _ => trivial)
    (fun _ _ ho _ _ => foreign_of_ofJob hkj (fun h => absurd h id) ho) hp trivial

/-- A run of another job.  If it is a child of job `j`, the files that it
inherits are those of a completed job. -/
theorem run_foreign {k : Uuid} {server : ℕ} (hkj : k ≠ j) :
    Safe (exec parts.base) (ownership parts j t) t (fun _ _ => True)
      (JobOrchestratorService.run parts server k).run v := by
  have op : ∀ {o : Op} {v : View World Op Res}, OfJob k (fun _ => False) o →
      Safe (exec parts.base) (ownership parts j t) t (fun _ _ => True) (perform o).run v :=
    fun ho => working_foreign hkj (calls_op ho)
  have value : ∀ {α : Type} {a : α} {v : View World Op Res},
      Safe (exec parts.base) (ownership parts j t) t (fun _ _ => True) (.ret a) v :=
    ret_safe stable_true trivial
  -- the row says which job is the parent, and it goes on saying so
  have body : ∀ v, Safe (exec parts.base) (ownership parts j t) t (fun _ _ => True)
      (JobOrchestratorService.runBody parts server k).run v := by
    intro v
    have hget : Safe (exec parts.base) (ownership parts j t) t
        (fun r v' => ∀ record, r = .ok (some record) →
          parentOf v'.state k = some record.parentJobId) (getJob k).run v := by
      refine Safe.op (o := .db (.getJob k)) (P := fun _ => True) stable_true
        (fun r => ?_) ?_ trivial
      · exact stable_of_common fun v v' h hc record hr => hc.parents k _ (h record hr)
      · intro v e r s _ hI hexec
        obtain ⟨hI', hG⟩ := (getJob_foreign k).step (t := t) hI hexec
        refine ⟨hI', hG, fun record hr => ?_⟩
        subst hr
        exact hG.parents k _ (exec_getJob hexec).2
    refine Safe.seqE hget (fun row v' _ hrow => ?_) fun _ _ _ _ => trivial
    cases row with
    | none => exact value
    | some record =>
      refine Safe.mono (fun _ _ _ _ => trivial)
        (foreign_safe (P := fun v => parentOf v.state k = some record.parentJobId)
          (fun v v' h hc => hc.parents k _ h) ?_
          (calls_of_within (runRow_calls record)) (hrow record rfl))
      intro v o ho hparent hI
      refine foreign_of_ofJob hkj (fun h => hI.children k ?_) ho
      rw [hparent, h]
  have slot : ∀ v, Safe (exec parts.base) (ownership parts j t) t (fun _ _ => True)
      (JobOrchestratorService.runInSlot parts server k).run v := by
    intro v
    refine Safe.seqE (op (o := .db (.transition k _ _ _ _)) ⟨rfl, by decide⟩)
      (fun started v' _ _ => ?_)
      fun _ _ _ _ => trivial
    cases started with
    | false => exact value
    | true =>
      refine Safe.catching (body v') (fun _ _ _ _ => trivial) (fun x v'' _ _ _ => ?_)
        fun _ _ _ _ _ => trivial
      refine Safe.seqE (R := fun _ _ => True) ?_ (fun _ _ _ _ => value) fun _ _ _ _ => trivial
      refine Safe.catching (R := fun _ _ => True) ?_
        (fun _ _ _ _ => trivial) (fun _ _ _ _ _ => value)
        fun _ _ _ _ _ => trivial
      exact Safe.seqE (op (o := .db (.transition k _ _ _ _)) ⟨rfl, by decide⟩)
        (fun _ _ _ _ => value) fun _ _ _ _ => trivial
  refine Safe.catching (R := fun _ _ => True) ?_ (fun _ _ _ _ => trivial) (fun x v' _ _ _ => ?_)
    fun _ _ _ _ _ => trivial
  · refine Safe.seqE (op (o := .sys (.acquireGate server)) trivial) (fun _ v' _ _ => ?_)
      fun _ _ _ _ => trivial
    refine Safe.finally (slot v') fun r v'' _ _ => ?_
    exact working_foreign hkj (calls_attemptOnly (o := .sys (.releaseGate server)) trivial)
  · exact Safe.seqE (op (o := .db (.transition k _ _ _ _)) ⟨rfl, by decide⟩)
      (fun _ _ _ _ => value) fun _ _ _ _ => trivial

/-! ### Recovery and orphaned drains -/

theorem recoverStale_safe (cutoff : ℕ) :
    Safe (exec parts.base) (ownership parts j t) t (fun _ _ => True)
      (JobOrchestratorService.recoverStale cutoff).run v := by
  refine Safe.mono (fun _ _ _ _ => trivial) (Safe.of_calls (R := fun _ => True)
    (P := fun _ => True) stable_true ?_ (calls_of_within (recoverStale_calls cutoff))
    (returns_true _) trivial)
  intro v e o r s ho _ hI hexec
  -- All operations but the update of job `j` itself leave the job alone.
  have foreign : (∀ r, o.affects r ≠ some j) → Inv parts j (v.push t o r s) ∧
      Guar parts j t v (v.push t o r s) ∧ True := by
    intro haff
    have hu : Unrelated j o := by
      cases o with
      | db o => cases o <;> first | exact absurd ho id | exact ⟨fun _ => by simp, rfl⟩
      | fs o => exact absurd ho id
      | sys o => exact absurd ho id
    obtain ⟨hI', hG⟩ := (foreign_of_unrelated haff hu).step (t := t) hI hexec
    exact ⟨hI', hG, trivial⟩
  cases o with
  | db o =>
    cases o with
    | scanStale cutoff => exact foreign fun _ => by simp [Op.affects, DbOp.affects]
    | recoverOne k cutoff =>
      by_cases hkj : k = j
      · subst hkj
        obtain ⟨hI', hG⟩ := step_recover (t := t) hI hexec
        exact ⟨hI', hG, trivial⟩
      · exact foreign fun _ h => hkj (Option.some.inj h)
    | _ => exact absurd ho id
  | fs o => exact absurd ho id
  | sys o => exact absurd ho id

theorem Seen.ever {f : Mark} {P : Label Op Res → History → Prop} {h : History} (hs : Seen f h)
    (hP : ∀ l before, f l.op l.res = true → P l before) : Ever P h := by
  obtain ⟨l, hl, hf⟩ := hs
  obtain ⟨post, before, rfl⟩ := List.append_of_mem hl
  exact ⟨l, before, List.suffix_append _ _, hP l before hf⟩

/-- The drains of an orphan log for a job whose tool run has left them. -/
theorem drainOrphan_safe (o : Orphan) :
    Safe (exec parts.base) (ownership parts j t) t (fun _ _ => True)
      (drainOrphan parts o).run v := by
  have hstable : ∀ v v', (o.job = j → Seen (detaches j) v.history) → Common parts j v v' →
      o.job = j → Seen (detaches j) v'.history :=
    fun v v' h hc hj => (h hj).mono hc.history
  -- The orphan was left by a tool run, as the invariant says.
  have htake : Safe (exec parts.base) (ownership parts j t) t
      (fun _ v' => o.job = j → Seen (detaches j) v'.history)
      (perform (.sys (.takeOrphan o))).run v := by
    refine Safe.op (P := fun _ => True) stable_true (fun _ => stable_of_common hstable) ?_ trivial
    intro v e r s _ hI hexec
    have hforeign : Foreign parts j v (.sys (.takeOrphan o)) :=
      foreign_of_unrelated (fun _ => by simp [Op.affects, SysOp.affects]) ⟨fun _ => by simp, rfl⟩
    obtain ⟨hI', hG⟩ := hforeign.step (t := t) hI hexec
    refine ⟨hI', hG, fun hj => ?_⟩
    simp only [exec, SysOp.exec] at hexec
    by_cases ho : o ∈ v.state.orphans
    · exact (hI.orphans o ho hj).mono (List.suffix_cons _ _)
    · rw [if_neg ho] at hexec
      exact absurd hexec (by simp)
  refine Safe.seqE htake (fun _ v' _ hv' => ?_) fun _ _ _ _ => trivial
  refine Safe.mono (fun _ _ _ _ => trivial) (Safe.of_calls (R := fun _ => True)
    (S := fun o' => ∃ rows, o' = .db (.logEvents o.job rows)) (stable_of_common hstable) ?_
    (drainOrphan_calls (fun _ => ⟨_, rfl⟩) _ _) (returns_true _) hv')
  rintro v e _ r s ⟨rows, rfl⟩ hv hI hexec
  have hkeep : ∀ {v' : View World Op Res}, Guar parts j t v v' →
      o.job = j → Seen (detaches j) v'.history := fun hG => hstable v _ hv hG.toCommon
  by_cases hj : o.job = j
  · have hworking : Working j (.db (.logEvents o.job rows)) := hj
    obtain ⟨hstatus, hsched⟩ := exec_working hworking hexec
    -- Its lines can come after the end of the job, but then the run was cut short.
    have hseen : Ever (Unsettles j) (v.push t _ r s).history :=
      ((hv hj).mono (List.suffix_cons _ _)).ever fun l _ hl => .inl hl
    obtain ⟨hI', hG⟩ := step_of_same (t := t) hI hexec
      ⟨hstatus, exec_quiet (o := .db (.logEvents o.job rows)) trivial hexec, by rw [hsched]⟩
      ⟨rfl, rfl, rfl⟩ (fun _ hp => absurd hp (by simp)) (fun _ _ _ => .inr hseen)
      (fun h => absurd h (by simp [Op.inspects]))
    exact ⟨hI', hG, hkeep hG⟩
  · have hforeign : Foreign parts j v (.db (.logEvents o.job rows)) :=
      foreign_of_unrelated (fun _ h => hj (Option.some.inj h)) ⟨fun _ => by simp, rfl⟩
    obtain ⟨hI', hG⟩ := hforeign.step (t := t) hI hexec
    exact ⟨hI', hG, hkeep hG⟩

/-! ### Requests -/

theorem validateSafePath_inherited {base : Path} {f : String} (hf : f ∈ inheritedFiles) (k : Uuid)
    (area : Area) : validateSafePath base k f area = .ok (root base area k ++ [f]) := by
  have hplain : (∀ c ∈ segments f, Plain c) ∧ segments f = [f] ∧
      ¬ (contains f "../" || contains f "..\\" || startsWith f "/" ||
          startsWith f "\\") = true ∧ ¬ LocalStorage.hasNul f = true := by
    rcases List.mem_pair.mp hf with rfl | rfl <;> decide +kernel
  have hresolve : resolve (root base area k) f = root base area k ++ [f] := by
    rw [resolve_plain hplain.1, hplain.2.1]
  rw [validateSafePath, if_neg hplain.2.2.1, if_neg hplain.2.2.2]
  show (if root base area k <+: resolve (root base area k) f then _ else _) = _
  rw [hresolve]
  exact if_pos (List.prefix_append _ _)

/-- The bytes of a file at the top of a tree. -/
def bytesAt (W : Tree) (f : String) : List UInt8 :=
  match W [f] with
  | some (.file data) => data
  | _ => []

/-- The first `n` bytes of the context were found in the files `fs` of `W`. -/
def Measured (W : Tree) (files : List String) (n : ℕ) : Prop :=
  (∀ f ∈ files, W [f] = some (.file (bytesAt W f))) ∧
    (files.map fun f => (bytesAt W f).length).sum = n

/-- The files of a completed parent are measured as they are. -/
theorem contextSize_safe {W : Tree} {done files : List String} {total : ℕ}
    (hfiles : ∀ f ∈ files, f ∈ inheritedFiles) (hdone : Measured W done total)
    (hv : Completed parts j W v) :
    Safe (exec parts.base) (ownership parts j t) t
      (fun r v' => Completed parts j W v' ∧ ∀ n, r = .ok n → Measured W (done ++ files) n)
      (JobService.contextSize j files total).run v := by
  have inspected : ∀ {v : View World Op Res} {o : Op}, Completed parts j W v →
      (∀ r, o.affects r ≠ some j) → (∀ p, o ≠ .db (.insertJob p (some j))) →
      (∀ k f, o ≠ .fs (.copyWorkspaceFile j k f)) → Foreign parts j v o :=
    fun hv haff hchild hcopy => ⟨haff, fun p hp => absurd hp (hchild p),
      fun _ => ⟨hv.1, fun k f hc => absurd hc (hcopy k f)⟩⟩
  -- induction on the files that are left, with those already measured in `done`
  induction files generalizing done total v with
  | nil =>
    refine ret_safe (fun v v' h hr _ => ⟨h.1.common hr.toCommon, h.2⟩) ⟨hv, fun n hn => ?_⟩
    rw [← Except.ok.inj hn, List.append_nil]
    exact hdone
  | cons f rest ih =>
    have hexists : Safe (exec parts.base) (ownership parts j t) t
        (fun _ => Completed parts j W) (workspaceFileExists j f).run v :=
      foreign_safe (S := fun o => o = .fs (.workspaceFileExists j f))
        (fun _ _ h hc => h.common hc)
        (fun v o ho hv _ => by
          subst ho
          exact inspected hv (fun _ => by simp [Op.affects, FsOp.affects]) (fun _ => by simp)
            (fun _ _ => by simp))
        (calls_op rfl) hv
    refine Safe.seqE hexists (fun present v' _ hv' => ?_)
      fun _ _ _ h => ⟨h, fun _ hr => absurd hr (by simp)⟩
    cases present with
    | false =>
      exact ret_safe (fun v v' h hr _ => ⟨h.1.common hr.toCommon, h.2⟩)
        ⟨hv', fun _ hr => absurd hr (by simp)⟩
    | true =>
      have hsize : Safe (exec parts.base) (ownership parts j t) t
          (fun r v' => Completed parts j W v' ∧ ∀ n, r = .ok n →
            Measured W (done ++ [f]) (total + n)) (workspaceFileSize j f).run v' := by
        refine Safe.op (o := .fs (.workspaceFileSize j f)) (P := Completed parts j W)
          (stable_of_common fun _ _ h hc => h.common hc) (fun r => stable_of_common ?_) ?_ hv'
        · exact fun _ _ h hc => ⟨h.1.common hc, h.2⟩
        intro v e r s hv hI hexec
        have hforeign : Foreign parts j v (.fs (.workspaceFileSize j f)) :=
          inspected hv (fun _ => by simp [Op.affects, FsOp.affects]) (fun _ => by simp)
            (fun _ _ => by simp)
        obtain ⟨hI', hG⟩ := hforeign.step (t := t) hI hexec
        refine ⟨hI', hG, hv.common hG.toCommon, fun n hn => ?_⟩
        subst hn
        obtain ⟨q, data, hq, hdata, rfl⟩ := exec_workspaceFileSize hexec
        -- the name is plain, so the file measured is the one at the top of the tree
        rw [validateSafePath_inherited (hfiles f List.mem_cons_self)] at hq
        obtain rfl : [f] = q := List.append_cancel_left (Except.ok.inj hq)
        rw [hv.2] at hdata
        have hbytes : bytesAt W f = data := by rw [bytesAt, hdata]
        refine ⟨fun g hg => ?_, ?_⟩
        · rcases List.mem_append.mp hg with hg | hg
          · exact hdone.1 g hg
          · rw [List.mem_singleton.mp hg, hbytes]
            exact hdata
        · rw [List.map_append, List.sum_append, hdone.2, List.map_singleton, List.sum_singleton,
            hbytes]
      refine Safe.seqE hsize ?_ fun _ _ _ h => ⟨h.1, fun _ hr => absurd hr (by simp)⟩
      rintro n v'' - ⟨hv'', hn⟩
      refine Safe.mono ?_ (ih (fun g hg => hfiles g (List.mem_cons_of_mem _ hg)) (hn n rfl) hv'')
      rintro r v₃ - ⟨hv₃, hr⟩
      refine ⟨hv₃, fun m hm => ?_⟩
      have := hr m hm
      rwa [List.append_assoc] at this

/-- An operation of the creator that changes nothing. -/
theorem creator_quiet {W P : Tree} {o : Op} (hw : Working j o) (hq : o.Quiet)
    (hv : Creator parts.base j t W P v) :
    Safe (exec parts.base) (ownership parts j t) t (fun _ => Creator parts.base j t W P)
      (perform o).run v := by
  refine Safe.op stable_creator (fun _ => stable_creator) ?_ hv
  intro v e r s hC hI hexec
  obtain ⟨hstatus, hsched⟩ := exec_working hw hexec
  have hheld : held parts.base j s = held parts.base j v.state := exec_quiet hq hexec
  obtain ⟨⟨hI', hG⟩, hC'⟩ := step_creator (t := t) hI hC hexec hstatus hsched (by rw [hheld])
    (by rw [hheld]) ⟨hw.not_starts, hw.not_inserts, Host.rollsBack_of_quiet hq r⟩ hw.unrelated
  rw [hheld, hC.workspace, hC.promoted] at hC'
  exact ⟨hI', hG, hC'⟩

/-- The workspace of the new job. -/
theorem createWorkspace_safe (hv : Creator parts.base j t (fun _ => none) (fun _ => none) v) :
    Safe (exec parts.base) (ownership parts j t) t
      (fun r v' => ∀ u, r = .ok u → ∃ W, W [] = some .dir ∧ Creator parts.base j t W Tree.empty v')
      (perform (.fs (.createWorkspace j))).run v := by
  refine Safe.op stable_creator (fun r => ?_) ?_ hv
  · intro v v' h hr hI u hu
    obtain ⟨W, hW, hC⟩ := h u hu
    exact ⟨W, hW, hC.rely hr⟩
  · intro v e r s hC hI hexec
    obtain ⟨harts, hplan, hok⟩ := exec_createWorkspace hexec
    have hsame : s.db = v.state.db ∧ s.scheduled = v.state.scheduled := by
      obtain ⟨fs, -, rfl⟩ := exec_fs hexec
      exact ⟨rfl, rfl⟩
    obtain ⟨⟨hI', hG⟩, hC'⟩ := step_creator (t := t) hI hC hexec (by rw [hsame.1]) hsame.2 hplan
      harts ⟨rfl, rfl, rfl⟩ ⟨fun _ => by simp, rfl⟩
    refine ⟨hI', hG, fun u hu => ?_⟩
    obtain ⟨hws, hpr⟩ := hok u hu
    rw [hC.workspace] at hws
    rw [hC.promoted] at hpr
    refine ⟨(held parts.base j s).workspace, ?_, ?_⟩
    · rw [hws, Tree.mkdirs, if_pos List.nil_prefix]
    · rw [hpr, Tree.mkdirs_none] at hC'
      exact hC'

/-- `create_job`: if it has created job `j`, the job is ready to be scheduled. -/
theorem createJob_safe {prompt : String} {parent : Option Uuid}
    (hv : parent = some j →
      IsCompleted j v.state ∧ ContextFits (held parts.base j v.state).workspace) :
    Safe (exec parts.base) (ownership parts j t) t
      (fun r v' => r = .ok j → ∃ W, W [] = some .dir ∧ Creator parts.base j t W Tree.empty v')
      (JobService.createJob prompt parent).run v := by
  have hinsert : Safe (exec parts.base) (ownership parts j t) t
      (fun r v' => r = .ok j → Creator parts.base j t (fun _ => none) (fun _ => none) v')
      (insertJob prompt parent).run v := by
    refine Safe.op (o := .db (.insertJob prompt parent)) (P := fun v => parent = some j →
      IsCompleted j v.state ∧ ContextFits (held parts.base j v.state).workspace)
      (stable_of_common ?_) (fun r => ?_) ?_ hv
    · intro v v' h hc hp
      obtain ⟨hdone, hfits⟩ := h hp
      obtain ⟨hdone', hheld⟩ := hc.completed hdone
      refine ⟨hdone', ?_⟩
      rw [hheld]
      exact hfits
    · exact fun v v' h hr _ hk => (h hk).rely hr
    · intro v e r s hparent hI hexec
      obtain ⟨⟨hI', hG⟩, hC⟩ := step_insert (t := t) hI hparent hexec
      exact ⟨hI', hG, hC⟩
  refine Safe.seqE hinsert (fun k v' _ hk => ?_) fun _ _ _ _ h => absurd h (by simp)
  by_cases hkj : k = j
  · subst hkj
    refine Safe.seqE (creator_quiet (o := .db (.getJob k)) trivial trivial (hk rfl))
      (fun _ v' _ hC => ?_) fun _ _ _ _ h => absurd h (by simp)
    refine Safe.seqE (createWorkspace_safe hC) (fun u v' _ hW => ?_)
      fun _ _ _ _ h => absurd h (by simp)
    obtain ⟨W, hdir, hC⟩ := hW u rfl
    refine Safe.seqE (creator_quiet (o := .db (.logEvents k _)) rfl trivial hC)
      (fun _ v' _ hC => ?_) fun _ _ _ _ h => absurd h (by simp)
    refine Safe.seqE (creator_quiet (o := .db (.getJob k)) trivial trivial hC)
      (fun _ v' _ hC => ?_) fun _ _ _ _ h => absurd h (by simp)
    exact ret_safe (fun v v' h hr _ hk => (h hk).imp fun _ hW => ⟨hW.1, hW.2.rely hr⟩)
      fun _ => ⟨W, hdir, hC⟩
  · -- another job: everything that follows is about that one
    refine Safe.mono ?_ (foreign_returns (P := fun _ => True) (R := fun r => ∀ i, r = .ok i → i ≠ j)
      (S := fun o => o = .db (.getJob k) ∨ o = .fs (.createWorkspace k) ∨
        ∃ rows, o = .db (.logEvents k rows)) (fun _ _ _ _ => trivial) ?_ ?_ ?_ trivial)
    · exact fun r v' _ hr h => absurd rfl (hr.1 j h)
    · rintro v o (rfl | rfl | ⟨rows, rfl⟩) - -
      · exact getJob_foreign k
      · exact foreign_of_unrelated (fun _ h => hkj (Option.some.inj h)) ⟨fun _ => by simp, rfl⟩
      · exact foreign_of_unrelated (fun _ h => hkj (Option.some.inj h)) ⟨fun _ => by simp, rfl⟩
    · exact calls_bindE (calls_op (.inl rfl)) fun _ => calls_bindE (calls_op (.inr (.inl rfl)))
        fun _ => calls_bindE (calls_op (.inr (.inr ⟨_, rfl⟩))) fun _ =>
        calls_bindE (calls_op (.inl rfl)) fun _ => calls_value _
    · refine returns_bindE fun _ => returns_bindE fun _ => returns_bindE fun _ =>
        returns_bindE fun _ => ?_
      intro i hi
      rw [← Except.ok.inj hi]
      exact hkj

/-- The run of the new job is scheduled. -/
theorem schedule_safe {k : Uuid}
    (hv : k = j → ∃ W, W [] = some .dir ∧ Creator parts.base j t W Tree.empty v) :
    Safe (exec parts.base) (ownership parts j t) t (fun _ _ => True)
      (do perform (.sys (.schedule k)); pure k : Task Uuid).run v := by
  have hschedule : Safe (exec parts.base) (ownership parts j t) t (fun _ _ => True)
      (perform (.sys (.schedule k))).run v := by
    by_cases hkj : k = j
    · subst hkj
      obtain ⟨W, hW, hC⟩ := hv rfl
      refine Safe.op stable_creator (fun _ => stable_true) ?_ hC
      intro v e r s hC hI hexec
      obtain ⟨hI', hG⟩ := step_schedule (t := t) hI hC hW hexec
      exact ⟨hI', hG, trivial⟩
    · exact sys_safe (o := .schedule k) (P := fun _ => True) (fun h => hkj (Option.some.inj h))
        (fun _ _ _ _ => trivial) trivial
  exact Safe.seqE hschedule (fun _ _ _ _ => ret_safe stable_true trivial) fun _ _ _ _ => trivial

theorem createRequest_safe (prompt : String) :
    Safe (exec parts.base) (ownership parts j t) t (fun _ _ => True)
      (JobService.createRequest prompt).run v :=
  Safe.seqE (createJob_safe fun h => absurd h (by simp))
    (fun k _ _ hk => schedule_safe fun hkj => hk (by rw [hkj])) fun _ _ _ _ => trivial

/-- `create_refinement_job`: a parent that gets a child is completed and its
files have been measured. -/
theorem createRefinementJob_safe (parent : Uuid) (prompt : String) :
    Safe (exec parts.base) (ownership parts j t) t
      (fun r v' => r = .ok j → ∃ W, W [] = some .dir ∧ Creator parts.base j t W Tree.empty v')
      (JobService.createRefinementJob parent prompt).run v := by
  have raise : ∀ {x : Exn} {v : View World Op Res}, Safe (exec parts.base) (ownership parts j t) t
      (fun r v' => r = .ok j → ∃ W, W [] = some .dir ∧ Creator parts.base j t W Tree.empty v')
      (.ret (.error x : Except Exn Uuid)) v :=
    ret_safe (fun _ _ _ _ _ h => absurd h (by simp)) fun h => absurd h (by simp)
  have hget : Safe (exec parts.base) (ownership parts j t) t
      (fun r v' => parent = j → ∀ record, r = .ok (some record) → record.status = .completed →
        IsCompleted j v'.state) (getJob parent).run v := by
    refine Safe.op (o := .db (.getJob parent)) (P := fun _ => True) stable_true
      (fun r => stable_of_common ?_) ?_ trivial
    · exact fun v v' h hc hp record hr hs => (hc.completed (h hp record hr hs)).1
    · intro v e r s _ hI hexec
      obtain ⟨hI', hG⟩ := (getJob_foreign parent).step (t := t) hI hexec
      refine ⟨hI', hG, fun hp record hr hs => (hG.completed ?_).1⟩
      subst hr hp
      rw [IsCompleted, (exec_getJob hexec).1, hs]
  refine Safe.seqE hget (fun row v' _ hrow => ?_) fun _ _ _ _ h => absurd h (by simp)
  cases row with
  | none => exact raise
  | some record =>
    show Safe _ _ _ _ (ExceptT.run (if record.status ≠ .completed then _ else _)) v'
    by_cases hs : record.status ≠ .completed
    · rw [if_pos hs]
      exact raise
    · rw [if_neg hs]
      -- what is measured is what the parent holds now, and goes on holding
      have hsize : Safe (exec parts.base) (ownership parts j t) t
          (fun r v' => parent = j → ∃ W, Completed parts j W v' ∧
            ∀ n, r = .ok n → Measured W inheritedFiles n)
          (JobService.contextSize parent inheritedFiles 0).run v' := by
        by_cases hp : parent = j
        · subst hp
          refine Safe.mono ?_ (contextSize_safe (fun _ h => h)
            ⟨fun _ h => absurd h List.not_mem_nil, rfl⟩
            ⟨hrow rfl record rfl (not_not.mp hs), rfl⟩)
          exact fun r v'' _ h _ => ⟨_, h⟩
        · refine Safe.mono ?_ (foreign_safe (P := fun _ => True) (fun _ _ _ _ => trivial)
            (fun v o ho _ _ => ?_)
            (calls_of_within (contextSize_calls parent inheritedFiles 0)) trivial)
          · exact fun _ _ _ _ h => absurd h hp
          · cases o with
            | fs o =>
              cases o <;> first
                | exact absurd ho id
                | exact foreign_of_unrelated (fun _ => by simp [Op.affects, FsOp.affects])
                    ⟨fun _ => by simp, decide_eq_false fun h => hp (ho.symm.trans h)⟩
            | db o => exact absurd ho id
            | sys o => exact absurd ho id
      refine Safe.seqE hsize (fun total v'' _ htotal => ?_) fun _ _ _ _ h => absurd h (by simp)
      by_cases hmax : JobService.maxRefinementContextBytes < total
      · rw [if_pos hmax]
        exact raise
      · rw [if_neg hmax]
        refine createJob_safe fun hp => ?_
        obtain ⟨W, hdone, hmeasured⟩ := htotal (Option.some.inj hp)
        obtain ⟨hfiles, hsum⟩ := hmeasured total rfl
        refine ⟨hdone.1, bytesAt W, ?_, ?_⟩
        · rw [hdone.2]
          exact hfiles
        · rw [hsum]
          omega

theorem refineRequest_safe (parent : Uuid) (prompt : String) :
    Safe (exec parts.base) (ownership parts j t) t (fun _ _ => True)
      (JobService.refineRequest parent prompt).run v :=
  Safe.seqE (createRefinementJob_safe parent prompt)
    (fun k _ _ hk => schedule_safe fun hkj => hk (by rw [hkj])) fun _ _ _ _ => trivial

/-! ### The run of the job -/

/-- Thread `t` owns the job, which holds `H`. -/
abbrev Owns (parts : Parts) (j : Uuid) (t : ℕ) (H : Held) : View World Op Res → Prop :=
  Holding parts.base j (Owner j t) H []

theorem stable_owns {H : Held} : (ownership parts j t).Stable (Owns parts j t H) := by
  rintro v v' ⟨hO, hH, -⟩ hr -
  obtain ⟨hO', hheld⟩ := hO.rely hr
  exact ⟨hO', hheld.trans hH, List.nil_suffix⟩

/-- What an exception of the run may leave: a clean job, unless a step has
spoiled it. -/
def Settled (parts : Parts) (j : Uuid) (t : ℕ) (v : View World Op Res) : Prop :=
  Owner j t v ∧ (Ever (Spoils j) v.history ∨ Clean (held parts.base j v.state))

theorem stable_settled : (ownership parts j t).Stable (Settled parts j t) := by
  rintro v v' ⟨hO, h⟩ hr -
  obtain ⟨hO', hheld⟩ := hO.rely hr
  refine ⟨hO', h.imp (fun hbad => hbad.mono hr.history) fun hclean => ?_⟩
  rw [hheld]
  exact hclean

theorem Clean.settled {H : Held} (hclean : Clean H) (hv : Owns parts j t H v) :
    Settled parts j t v := by
  refine ⟨hv.1, .inr ?_⟩
  rw [hv.2.1]
  exact hclean

/-- The row of a job that runs does not name the job as its own parent. -/
theorem getJob_owner {H : Held} (hclean : Clean H) (hv : Owns parts j t H v) :
    Safe (exec parts.base) (ownership parts j t) t
      (fun r v' => Owns parts j t H v' ∧ ∀ record, r = .ok (some record) →
        record.parentJobId ≠ some j) (getJob j).run v := by
  refine Safe.op (o := .db (.getJob j)) stable_owns (fun r => ?_) ?_ hv
  · exact fun v v' h hr hI => ⟨stable_owns v v' h.1 hr hI, h.2⟩
  · rintro v e r s ⟨hO, hH, -⟩ hI hexec
    obtain ⟨hI', hG, hO'⟩ := (owner_host (t := t) hclean).step v e (.db (.getJob j)) r s hO hI
      trivial hexec (fun h => absurd h (by simp [rollsBack]))
    have hheld : held parts.base j s = H :=
      (exec_quiet (o := .db (.getJob j)) trivial hexec).trans hH
    refine ⟨hI', hG, ⟨hO', hheld, List.nil_suffix⟩, fun record hr hself => ?_⟩
    subst hr
    -- otherwise the job would be its own child, and completed
    have hparent := (exec_getJob hexec).2
    rw [hself] at hparent
    have hdone := (hI.children j hparent).1
    rcases hO.2 with hrun | ⟨hfail, -⟩
    · exact absurd (hdone.symm.trans hrun) (by simp)
    · exact absurd (hdone.symm.trans hfail) (by simp)

/-- The files of the parent are copied into the workspace. -/
theorem inheritFiles_safe {parent : Uuid} (hne : parent ≠ j) (files : List String)
    (hfiles : ∀ f ∈ files, f ∈ inheritedFiles) {H : Held} (hclean : Clean H)
    (hroot : H.workspace [] = some .dir) (hv : Owns parts j t H v) :
    Safe (exec parts.base) (ownership parts j t) t
      (fun r v' => ∃ H', Clean H' ∧ Owns parts j t H' v' ∧
        ∀ context, r = .ok context → H'.workspace [] = some .dir)
      (JobOrchestratorService.inheritFiles parent j files).run v := by
  have hpost : ∀ {α : Type} (r : Except Exn α),
      (ownership parts j t).Stable fun v' => ∃ H', Clean H' ∧ Owns parts j t H' v' ∧
        ∀ context, r = .ok context → H'.workspace [] = some .dir := by
    rintro α r v v' ⟨H', hc, hv, hr⟩ hrely hI
    exact ⟨H', hc, stable_owns v v' hv hrely hI, hr⟩
  induction files generalizing H v with
  | nil => exact ret_safe (hpost _) ⟨H, hclean, hv, fun _ _ => hroot⟩
  | cons f rest ih =>
    have hf : f ∈ inheritedFiles := hfiles f List.mem_cons_self
    -- The copy writes one file at the top of the workspace.
    have hcopy : Safe (exec parts.base) (ownership parts j t) t
        (fun r v' => ∃ H', Clean H' ∧ Owns parts j t H' v' ∧
          ∀ u, r = .ok u → H'.workspace [] = some .dir)
        (perform (.fs (.copyWorkspaceFile parent j f))).run v := by
      refine Safe.op stable_owns (fun r => hpost r) ?_ hv
      rintro v e r s ⟨hO, hH, -⟩ hI hexec
      obtain ⟨⟨⟨hI', hG⟩, hO'⟩, hclean'⟩ :=
        step_inherit (t := t) hI hO (by rw [hH]; exact hclean) hne hexec
      refine ⟨hI', hG, held parts.base j s, hclean', ⟨hO', rfl, List.nil_suffix⟩, fun u hu => ?_⟩
      subst hu
      obtain ⟨q, q', data, -, hq', -, hheld⟩ := exec_copyWorkspaceFile hexec
      rw [validateSafePath_inherited hf] at hq'
      obtain rfl : [f] = q' := List.append_cancel_left (Except.ok.inj hq')
      rw [hheld]
      show ((held parts.base j v.state).workspace.writeAt [f] data) [] = some .dir
      rw [Tree.writeAt_apply, if_neg (by simp), if_pos List.nil_prefix]
    refine Safe.seqE hcopy ?_ ?_
    · rintro u v' - ⟨H', hclean', hv', hroot'⟩
      refine Safe.seqE ((owner_host hclean').quiet (o := .fs (.readFile j f)) rfl rfl hv')
        (fun data v'' _ hv'' => ?_) ?_
      · refine Safe.seqE ((owner_host hclean').value _ hv'') (fun text v₃ _ hR => ?_) ?_
        · refine Safe.seqE (ih (fun g hg => hfiles g (List.mem_cons_of_mem _ hg)) hclean'
            (hroot' u rfl) hR.2) ?_ ?_
          · rintro context v₄ - ⟨H'', hclean'', hv₄, hroot''⟩
            exact ret_safe (hpost _) ⟨H'', hclean'', hv₄, fun _ _ => hroot'' context rfl⟩
          · rintro x v₄ - ⟨H'', hclean'', hv₄, -⟩
            exact ⟨H'', hclean'', hv₄, fun _ hr => absurd hr (by simp)⟩
        · exact fun x v₃ _ hR => ⟨H', hclean', hR.2, fun _ hr => absurd hr (by simp)⟩
      · exact fun x v'' _ hv'' => ⟨H', hclean', hv'', fun _ hr => absurd hr (by simp)⟩
    · rintro x v' - ⟨H', hclean', hv', -⟩
      exact ⟨H', hclean', hv', fun _ hr => absurd hr (by simp)⟩

theorem inheritContext_safe {parent : Option Uuid} (hne : parent ≠ some j) {H : Held}
    (hclean : Clean H) (hroot : H.workspace [] = some .dir) (hv : Owns parts j t H v) :
    Safe (exec parts.base) (ownership parts j t) t
      (fun r v' => ∃ H', Clean H' ∧ Owns parts j t H' v' ∧
        ∀ context, r = .ok context → H'.workspace [] = some .dir)
      (JobOrchestratorService.inheritContext j parent).run v := by
  cases parent with
  | none =>
    refine Safe.mono ?_ ((owner_host hclean).value _ hv)
    exact fun r v' _ hR => ⟨H, hclean, hR.2, fun _ _ => hroot⟩
  | some parent =>
    refine Safe.seqE (inheritFiles_safe (fun h => hne (congrArg some h)) inheritedFiles
      (fun _ h => h) hclean hroot hv) ?_ ?_
    · rintro context v' - ⟨H', hclean', hv', hroot'⟩
      refine Safe.seqE ((owner_host hclean').quiet (o := .db (.appendEvent j _ _)) rfl trivial hv')
        (fun _ v'' _ hv'' => ?_) ?_
      · refine Safe.mono ?_ ((owner_host hclean').value _ hv'')
        exact fun r v₃ _ hR => ⟨H', hclean', hR.2, fun _ _ => hroot' context rfl⟩
      · exact fun x v'' _ hv'' => ⟨H', hclean', hv'', fun _ hr => absurd hr (by simp)⟩
    · rintro x v' - ⟨H', hclean', hv', -⟩
      exact ⟨H', hclean', hv', fun _ hr => absurd hr (by simp)⟩

/-- An exception of the attempts. -/
theorem Failure.settled {H : Held} (hclean : Clean H) {x : Exn}
    (hfail : Failure parts.base j (Owner j t) H [] x v) (hx : x.isException = true) :
    Settled parts j t v := by
  obtain ⟨H', hv⟩ := hfail.1
  refine ⟨hv.1, ?_⟩
  rcases hfail.2 hx with ⟨S, hS⟩ | ⟨-, ⟨-, hlate⟩ | hstrand⟩
  · right
    rw [hS.2.1]
    exact hclean.of_eq rfl rfl rfl
  · exact .inl hlate.ever
  · exact .inl hstrand.ever

/-- The last two transactions of the run. -/
theorem conclude_run_safe {H : Held} (hdone : Delivered parts j H) (hv : Owns parts j t H v) :
    Safe (exec parts.base) (ownership parts j t) t
      (fun r v' => ∀ x, r = .error x → Settled parts j t v')
      (do
        perform (JobOrchestratorService.planExecutedOp j)
        let _ ← perform (JobOrchestratorService.completeOp j)
        pure true : Task Bool).run v := by
  -- A database error after the attempt spoils the run.
  have lost : ∀ {o : Op} {r : Res o} {v : View World Op Res} {s : World},
      losesEnd j o r = true → Ever (Spoils j) (v.push t o r s).history :=
    fun h => .head (.inr (.inr (.inl h)))
  have hplan : Safe (exec parts.base) (ownership parts j t) t
      (fun r v' => Owns parts j t H v' ∧ ∀ x, r = .error x → Settled parts j t v')
      (perform (JobOrchestratorService.planExecutedOp j)).run v := by
    refine Safe.op stable_owns (fun r => ?_) ?_ hv
    · exact fun v v' h hr hI => ⟨stable_owns v v' h.1 hr hI, fun x hx =>
        stable_settled v v' (h.2 x hx) hr hI⟩
    · rintro v e r s ⟨hO, hH, -⟩ hI hexec
      have hw : Working j (JobOrchestratorService.planExecutedOp j) := rfl
      obtain ⟨hstatus, hsched⟩ := exec_working hw hexec
      have hheld : held parts.base j s = held parts.base j v.state :=
        exec_quiet (o := JobOrchestratorService.planExecutedOp j) trivial hexec
      obtain ⟨⟨hI', hG⟩, hO'⟩ := step_owner (t := t) hI hO hexec hstatus hsched rfl rfl
        hw.unrelated fun hrun => by
          rw [hheld]
          exact (hI.job.push ⟨rfl, rfl, rfl⟩).running hrun
      refine ⟨hI', hG, ⟨hO', hheld.trans hH, List.nil_suffix⟩, fun x hx => ⟨hO', .inl ?_⟩⟩
      subst hx
      exact lost (decide_eq_true rfl)
  refine Safe.seqE hplan (fun _ v' _ hv' => ?_) fun x v' _ h y hy => h.2 x rfl
  -- The transition itself may answer `false`, after a recovery.
  have hcomplete : Safe (exec parts.base) (ownership parts j t) t
      (fun r v' => ∀ x, r = .error x → Settled parts j t v')
      (perform (JobOrchestratorService.completeOp j)).run v' := by
    refine Safe.op stable_owns (fun r => ?_) ?_ hv'.1
    · exact fun v v' h hr hI x hx => stable_settled v v' (h x hx) hr hI
    · rintro v e r s ⟨hO, hH, -⟩ hI hexec
      obtain ⟨⟨hI', hG⟩, hO'⟩ := step_finish (t := t) hI hO
        (fun s hs => .inr (List.mem_singleton.mp hs)) rfl (fun h => absurd h (by simp))
        (fun _ => by rw [hH]; exact hdone) hexec
      refine ⟨hI', hG, fun x hx => ?_⟩
      subst hx
      exact ⟨hO' (by simp), .inl (lost (decide_eq_true rfl))⟩
  refine Safe.seqE hcomplete (fun _ _ _ _ => ?_) fun x v' _ h y hy => h x rfl
  exact ret_safe (fun _ _ _ _ _ x hx => absurd hx (by simp)) fun x hx => absurd hx (by simp)

/-- What the run does after it has read its row. -/
theorem runRow_safe {server : ℕ} {record : JobRecord} (hne : record.parentJobId ≠ some j)
    {H : Held} (hclean : Clean H) (hroot : H.workspace [] = some .dir)
    (hv : Owns parts j t H v) :
    Safe (exec parts.base) (ownership parts j t) t
      (fun r v' => ∀ x, r = .error x → x.isException = true → Settled parts j t v')
      (JobOrchestratorService.runRow parts server j record).run v := by
  refine Safe.seqE (inheritContext_safe hne hclean hroot hv) ?_ ?_
  · rintro context v' - ⟨H', hclean', hv', hroot'⟩
    have hempty : H'.promoted [] = some .dir := by
      rw [hclean'.promoted]
      rfl
    refine Safe.seqE (generateActions_safe (S := H'.snapshots) (hroot' context rfl) hempty
      (owner_host hclean') _ _ _ hv') ?_ ?_
    · rintro plan v'' - ⟨hok, -⟩
      obtain ⟨H'', hsucc, hv''⟩ := hok plan rfl
      refine Safe.mono ?_ (conclude_run_safe ⟨plan, H', hclean', hsucc⟩ hv'')
      exact fun r v₃ _ h x hx _ => h x hx
    · rintro x v'' - ⟨-, herr⟩ y hy hexc
      rw [← Except.error.inj hy] at hexc
      exact (herr x rfl).settled hclean' hexc
  · rintro x v' - ⟨H', hclean', hv', -⟩ y - -
    exact hclean'.settled hv'

theorem runBody_safe {server : ℕ} {H : Held} (hclean : Clean H)
    (hroot : H.workspace [] = some .dir) (hv : Owns parts j t H v) :
    Safe (exec parts.base) (ownership parts j t) t
      (fun r v' => ∀ x, r = .error x → x.isException = true → Settled parts j t v')
      (JobOrchestratorService.runBody parts server j).run v := by
  refine Safe.seqE (getJob_owner hclean hv) ?_ ?_
  · rintro row v' - ⟨hv', hrow⟩
    cases row with
    | none =>
      refine ret_safe ?_ fun _ _ _ => hclean.settled hv'
      exact fun v v' h hr hI x hx hexc => stable_settled v v' (h x hx hexc) hr hI
    | some record => exact runRow_safe (hrow record rfl) hclean hroot hv'
  · rintro x v' - ⟨hv', -⟩ y - -
    exact hclean.settled hv'

theorem stable_scheduled : (ownership parts j t).Stable fun v => j ∈ v.state.scheduled :=
  stable_of_common fun _ _ h hc => hc.scheduled h

/-- `_run_in_slot`. -/
theorem runInSlot_safe {server : ℕ} (hv : j ∈ v.state.scheduled) :
    Safe (exec parts.base) (ownership parts j t) t (fun _ _ => True)
      (JobOrchestratorService.runInSlot parts server j).run v := by
  have hstart : Safe (exec parts.base) (ownership parts j t) t
      (fun r v' => r = .ok true → ∃ H, Clean H ∧ H.workspace [] = some .dir ∧ Owns parts j t H v')
      (JobOrchestratorService.startJob j).run v := by
    refine Safe.op (o := JobOrchestratorService.startOp j) stable_scheduled (fun r => ?_) ?_ hv
    · intro v v' h hr hI hok
      obtain ⟨H, hclean, hroot, hv⟩ := h hok
      exact ⟨H, hclean, hroot, stable_owns v v' hv hr hI⟩
    · intro v e r s hsched hI hexec
      obtain ⟨⟨hI', hG⟩, hok⟩ := step_start (t := t) hI hsched hexec
      refine ⟨hI', hG, fun hr => ?_⟩
      obtain ⟨hO, hclean, hroot⟩ := hok hr
      exact ⟨_, hclean, hroot, hO, rfl, List.nil_suffix⟩
  refine Safe.seqE hstart (fun started v' _ hv' => ?_) fun _ _ _ _ => trivial
  cases started with
  | false => exact ret_safe stable_true trivial
  | true =>
    obtain ⟨H, hclean, hroot, hv'⟩ := hv' rfl
    refine Safe.catching (runBody_safe hclean hroot hv') (fun _ _ _ _ => trivial) ?_
      fun _ _ _ _ _ => trivial
    intro x v'' hx _ hsettled
    -- The handler fails the job, and passes over its own exceptions.
    have hfail : Safe (exec parts.base) (ownership parts j t) t (fun _ _ => True)
        (perform (JobOrchestratorService.failOp parts j x)).run v'' := by
      refine Safe.op stable_settled (fun _ => stable_true) ?_ (hsettled x rfl hx)
      rintro v e r s ⟨hO, hrest⟩ hI hexec
      obtain ⟨⟨hI', hG⟩, -⟩ := step_finish (t := t) hI hO
        (fun s hs => List.mem_pair.mp hs) rfl (fun _ => hrest) (fun h => absurd h (by simp)) hexec
      exact ⟨hI', hG, trivial⟩
    refine Safe.seqE (R := fun _ _ => True) ?_ (fun _ _ _ _ => ret_safe stable_true trivial)
      fun _ _ _ _ => trivial
    refine Safe.catching (R := fun _ _ => True) ?_ (fun _ _ _ _ => trivial)
      (fun _ _ _ _ _ => ret_safe stable_true trivial) fun _ _ _ _ _ => trivial
    exact Safe.seqE hfail (fun _ _ _ _ => ret_safe stable_true trivial) fun _ _ _ _ => trivial

/-- `run`, for the job itself. -/
theorem run_own {server : ℕ} (hv : j ∈ v.state.scheduled) :
    Safe (exec parts.base) (ownership parts j t) t (fun _ _ => True)
      (JobOrchestratorService.run parts server j).run v := by
  have acquire : Safe (exec parts.base) (ownership parts j t) t
      (fun _ v' => j ∈ v'.state.scheduled) (perform (.sys (.acquireGate server))).run v :=
    sys_safe (by simp [SysOp.affects]) (fun _ _ h hc => hc.scheduled h) hv
  refine Safe.catching (R := fun r v' => (∃ x, r = .error x) → j ∈ v'.state.scheduled) ?_
    (fun _ _ _ _ => trivial) ?_ fun _ _ _ _ _ => trivial
  · refine Safe.seqE acquire (fun _ v' _ hv' => ?_) fun _ _ _ h _ => h
    have hslot : Safe (exec parts.base) (ownership parts j t) t
        (fun _ v'' => j ∈ v''.state.scheduled)
        (JobOrchestratorService.runInSlot parts server j).run v' :=
      Safe.mono (fun _ _ _ h => h.2) (Safe.frame stable_scheduled
        (fun _ _ h hG => hG.scheduled h) (runInSlot_safe hv') hv')
    refine Safe.finally hslot fun r v'' _ hv'' => ?_
    refine Safe.bind (fun _ => .inr ⟨(), rfl, fun v _ h _ => h⟩)
      (sys_safe (o := .releaseGate server) (by simp [SysOp.affects])
        (fun _ _ h hc => hc.scheduled h) hv'')
  · intro x v' _ _ hv'
    -- No slot in time: the job is failed before it was started.
    have htimeout : Safe (exec parts.base) (ownership parts j t) t (fun _ _ => True)
        (perform (JobOrchestratorService.queueTimeoutOp j)).run v' := by
      refine Safe.op stable_scheduled (fun _ => stable_true) ?_ (hv' ⟨x, rfl⟩)
      intro v e r s hsched hI hexec
      obtain ⟨hI', hG⟩ := step_queueTimeout (t := t) hI hsched hexec
      exact ⟨hI', hG, trivial⟩
    exact Safe.seqE htimeout (fun _ _ _ _ => ret_safe stable_true trivial) fun _ _ _ _ => trivial

/-! ### All calls -/

theorem map_safe {α β : Type} {f : α → β} {x : Task α}
    (h : Safe (exec parts.base) (ownership parts j t) t (fun _ _ => True) x.run v) :
    Safe (exec parts.base) (ownership parts j t) t (fun _ _ => True) (f <$> x).run v := by
  have heq : f <$> x = x >>= fun a => pure (f a) := rfl
  rw [heq]
  exact Safe.seqE h (fun _ _ _ _ => ret_safe stable_true trivial) fun _ _ _ _ => trivial

/-- **Every call keeps the discipline of every job.** -/
theorem body_conduct (c : Call) (henabled : (platform parts).enabled c v.state = true) :
    Safe (platform parts).exec (ownership parts j t) t (fun _ _ => True)
      ((platform parts).body c) v := by
  cases c with
  | run server k =>
    refine map_safe ?_
    by_cases hkj : k = j
    · subst hkj
      exact run_own (of_decide_eq_true henabled)
    · exact run_foreign hkj
  | recover cutoff => exact map_safe (recoverStale_safe cutoff)
  | create prompt => exact map_safe (createRequest_safe prompt)
  | refine parent prompt => exact map_safe (refineRequest_safe parent prompt)
  | orphan o => exact map_safe (drainOrphan_safe o)

/-- Before the first request there is nothing below the base directory. -/
theorem treeOf_ofBase (base : Path) (area : Area) (j : Uuid) :
    treeOf base area j (FileTree.ofBase base) = fun _ => none := by
  funext q
  show (if root base area j ++ q <+: base then some Node.dir else none) = none
  refine if_neg fun h => ?_
  have := h.length_le
  simp only [root, List.length_append, List.length_cons, List.length_nil] at this
  omega

theorem inv_initial : Inv parts j ⟨World.initial parts.base, []⟩ where
  job := by
    have hheld : held parts.base j (World.initial parts.base) =
        ⟨fun _ => none, fun _ => none, fun _ => none, [], none⟩ := by
      simp only [held, World.initial, treeOf_ofBase]
      rfl
    rw [hheld]
    exact {
      insertedOnce := Nat.zero_le 1
      startedOnce := Nat.zero_le 1
      absent := fun _ => ⟨rfl, List.not_mem_nil, rfl, rfl⟩
      waiting := fun _ => ⟨rfl, rfl, rfl⟩
      unscheduled := fun _ => .inl rfl
      ready := fun h => absurd h (by simp [World.initial, Db.status, Db.empty])
      running := fun h => absurd h (by simp [World.initial, Db.status, Db.empty])
      failed := fun h => absurd h (by simp [World.initial, Db.status, Db.empty])
      completed := fun h => absurd h (by simp [World.initial, Db.status, Db.empty]) }
  orphans := fun _ h => absurd h List.not_mem_nil
  children := fun _ h => absurd h (by simp [parentOf, World.initial, Db.empty])

variable {m m' : State}

/-- **The invariant holds in every reachable state, and every thread keeps the
discipline.** -/
theorem conduct (hm : (platform parts).Reach (start parts) m) :
    Inv parts j m.view ∧ ∀ t c p, m.threads[t]? = some (c, p) →
      Safe (platform parts).exec (ownership parts j t) t (fun _ _ => True) p m.view := by
  obtain ⟨⟨hI, -⟩, hsafe⟩ := System.Reach.safe (D := ownership parts j) (I := Inv parts j)
    (Q := fun _ _ _ _ => True) (fun _ => rfl) (fun _ _ _ _ hne hG => hG.rely hne) inv_initial
    (fun _ c _ _ henabled _ => body_conduct c henabled) hm
  exact ⟨hI, hsafe⟩

/-- What one further step can do. -/
theorem guar_of_step (hm : (platform parts).Reach (start parts) m)
    (h : (platform parts).Step m m') :
    m'.view = m.view ∨
      ∃ l, m'.view.history = l :: m.view.history ∧ Guar parts j l.tid m.view m'.view := by
  obtain ⟨hI, hsafe⟩ := conduct (j := j) hm
  exact System.Step.guar (D := ownership parts j) (fun _ => hI) hsafe h

end Conduct

end CliExecutionPlatform
