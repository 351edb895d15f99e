/-
What the platform is for: a store of jobs.

A job has a prompt, a parent, a status and, once it is completed, what it has delivered.
Runs, attempts, retries, recoveries, slots, snapshots and logs are the business of the
platform.  `storeOf` takes these four of each job from a world, and every step of the platform
is one step of the `TaskStore`, or none.  Events, and the artifacts of a job that is not
completed, are no part of the store.

* `Delivery`, `Delivers` — what a completed job delivers, and when it is good;
* `storeOf`, `storeOf_frame` — the store in a world;
* **`platform_refines_store`** — the platform refines the store;
* **`lineage_of_refinements`** — the parents of a job are completed, and no chain of
  refinements goes back for ever;
* `getArtifactsByJobId` — the endpoint that lists the artifacts of a job;
* **`listing_shows_store`** — what it answers is a function of the store.
-/
import CliExecutionPlatform.DownloadRequests
import CliExecutionPlatform.Mediation
import CliExecutionPlatform.Refinements
import CliExecutionPlatform.TaskStore

open Files Process TaskStore

namespace CliExecutionPlatform

open LocalStorage (root treeOf validateSafePath)

/-! ### Deliveries -/

/-- An artifact as a user gets it. -/
structure Artifact where
  id : Uuid
  path : String
  filename : String
  contentType : String
  data : Option (List UInt8)
  deriving DecidableEq

structure Delivery where
  plan : List Action
  artifacts : List Artifact

/-- The delivery is what the plan promises: the plan was accepted, and it has one artifact
for each of its `CREATE_ARTIFACT` actions, in their order, with a name and a type that
follow from the path, and with contents. -/
structure Delivers (parts : Parts) (j : Uuid) (d : Delivery) : Prop where
  accepted : Accepted parts j d.plan
  paths : d.artifacts.map Artifact.path = ActionExecutor.artifactPaths d.plan
  named : ∀ a ∈ d.artifacts, a.filename = baseName a.path ∧
    a.contentType = ArtifactService.contentType parts a.filename
  full : ∀ a ∈ d.artifacts, ∃ data, a.data = some data

/-- The bytes of a file. -/
def fileBytes : Option Node → Option (List UInt8)
  | some (.file data) => some data
  | _ => none

def artifactOf (H : Held) (a : ArtifactRow) : Artifact where
  id := a.id
  path := a.relativePath
  filename := a.filename
  contentType := a.contentType
  data := fileBytes (H.workspace (segments a.relativePath))

def deliveryOf (H : Held) : Delivery :=
  ⟨H.plan.getD [], H.artifacts.map (artifactOf H)⟩

/-! ### The store -/

def stageOf (H : Held) : Status → Stage Delivery
  | .created => .created
  | .running => .running
  | .completed => .completed (deliveryOf H)
  | .failed => .failed

def entryOf (H : Held) (row : JobRow) : Entry Uuid String Delivery :=
  ⟨row.parentJobId, row.prompt, stageOf H row.status⟩

/-- The jobs of a world: the parent, the prompt and the status of each and, once it is
`COMPLETED`, what it delivers. -/
def storeOf (base : Path) (w : World) : Store Uuid String Delivery := fun j =>
  (w.db.job j).map (entryOf (held base j w))

section Store

variable {base : Path} {w w' : World} {j : Uuid}

theorem held_of_cell (h : cell base j w' = cell base j w) : held base j w' = held base j w := by
  have hrow : w'.db.job j = w.db.job j := congrArg Cell.row h
  have harts : w'.db.artifactsOf j = w.db.artifactsOf j := congrArg Cell.artifacts h
  have hws : treeOf base .jobs j w'.fs = treeOf base .jobs j w.fs := congrArg Cell.workspace h
  have hpr : treeOf base .artifacts j w'.fs = treeOf base .artifacts j w.fs :=
    congrArg Cell.promoted h
  have hsn : treeOf base .snapshots j w'.fs = treeOf base .snapshots j w.fs :=
    congrArg Cell.snapshots h
  simp only [held, hrow, harts, hws, hpr, hsn]

/-- An operation on one job changes at most the entry of this job. -/
theorem storeOf_frame (h : cell base j w' = cell base j w) :
    storeOf base w' j = storeOf base w j := by
  have hrow : w'.db.job j = w.db.job j := congrArg Cell.row h
  rw [storeOf, storeOf, held_of_cell h, hrow]

/-- What a row says about where its job comes from. -/
def JobRow.origin (row : JobRow) : Option Uuid × String := (row.parentJobId, row.prompt)

theorem origin_updateJob {db : Db} {k : Uuid} {f : JobRow → JobRow}
    (hf : ∀ row, (f row).origin = row.origin) (i : Uuid) :
    ((db.updateJob k f).job i).map JobRow.origin = (db.job i).map JobRow.origin := by
  rw [Db.job_updateJob]
  by_cases hik : i = k
  · rw [if_pos hik, hik, Option.map_map]
    exact Option.map_congr fun row _ => hf row
  · rw [if_neg hik]

theorem DbOp.run_origins {now skip : ℕ} {fresh : Uuid} {o : DbOp} {r : Except Exn o.Val}
    {db db' : Db} (h : o.run now skip fresh db = some (r, db')) (k : Uuid) :
    (db'.job k).map JobRow.origin = (db.job k).map JobRow.origin ∨
      db.job k = none ∧ ∃ prompt parent, o = .insertJob prompt parent ∧ k = fresh ∧
        db'.job k = some ⟨parent, prompt, .created, none, now⟩ := by
  cases o with
  | getJob i =>
    obtain ⟨-, rfl⟩ := Prod.mk.inj (Option.some.inj h)
    exact .inl rfl
  | rollbackSession i =>
    obtain ⟨-, rfl⟩ := Prod.mk.inj (Option.some.inj h)
    exact .inl rfl
  | scanStale cutoff =>
    obtain ⟨-, rfl⟩ := Prod.mk.inj (Option.some.inj h)
    exact .inl rfl
  | transition i expected target code message =>
    rcases run_transition h with ⟨row, -, -, -, rfl⟩ | ⟨-, -, rfl⟩
    · refine .inl (origin_updateJob ?_ k)
      exact fun _ => rfl
    · exact .inl rfl
  | recoverOne i cutoff =>
    rcases run_recoverOne h with ⟨row, -, -, -, -, rfl⟩ | ⟨-, -, rfl⟩
    · refine .inl (origin_updateJob ?_ k)
      exact fun _ => rfl
    · exact .inl rfl
  | saveActionPlan i actions =>
    rcases run_saveActionPlan h with ⟨row, -, -, -, rfl⟩ | ⟨-, -, rfl⟩
    · refine .inl (origin_updateJob ?_ k)
      exact fun _ => rfl
    · exact .inl rfl
  | appendEvent i code message =>
    rcases run_appendEvent h with ⟨-, rfl⟩ | ⟨-, rfl⟩ <;> exact .inl rfl
  | logEvents i rows =>
    rcases run_logEvents h with ⟨-, rfl⟩ | ⟨-, rfl⟩ <;> exact .inl rfl
  | flushArtifact i rel name type =>
    rw [(run_flushArtifact h).1]
    exact .inl rfl
  | commitArtifacts i drafts =>
    rcases run_commitArtifacts h with ⟨-, hjob, -⟩ | ⟨-, rfl⟩
    · rw [hjob]
      exact .inl rfl
    · exact .inl rfl
  | insertJob prompt parent =>
    obtain ⟨hnone, -, rfl⟩ := run_insertJob h
    rw [Db.job_insert]
    by_cases hk : k = fresh
    · rw [if_pos hk]
      exact .inr ⟨by rw [hk]; exact hnone, prompt, parent, rfl, hk, rfl⟩
    · rw [if_neg hk]
      exact .inl rfl

/-- Rows keep their origin; a new row has that of the request. -/
theorem exec_origins {e : Env} {o : Op} {r : Res o} (h : exec base e o w = some (r, w'))
    (k : Uuid) :
    (w'.db.job k).map JobRow.origin = (w.db.job k).map JobRow.origin ∨
      w.db.job k = none ∧ ∃ prompt parent, o = .db (.insertJob prompt parent) ∧
        w'.db.job k = some ⟨parent, prompt, .created, none, e.now⟩ := by
  cases o with
  | fs o =>
    rw [(exec_fs_held h).1]
    exact .inl rfl
  | sys o =>
    rw [SysOp.exec_db h]
    exact .inl rfl
  | db o =>
    rcases exec_db_cases h with ⟨db, hrun, rfl⟩ | ⟨-, rfl⟩
    · rcases DbOp.run_origins hrun k with hsame | ⟨hnone, prompt, parent, rfl, -, hnew⟩
      · exact .inl hsame
      · exact .inr ⟨hnone, prompt, parent, rfl, hnew⟩
    · exact .inl rfl

theorem entryOf_origin {H : Held} {row : JobRow} {origin : Option Uuid × String} {s : Status}
    (horigin : row.origin = origin) (hs : row.status = s) :
    entryOf H row = ⟨origin.1, origin.2, stageOf H s⟩ := by
  rw [← horigin, ← hs]
  rfl

end Store

/-! ### The steps of the platform -/

section Refinement

variable {parts : Parts} {m m' : State} {j : Uuid}

/-- A registered row is named and typed after its path. -/
theorem Registered.named {paths : List String} {drafts : List ArtifactDraft}
    (h : List.Forall₂ (Registered j parts) paths drafts) :
    ∀ a ∈ drafts.map (ArtifactDraft.row j), a.filename = baseName a.relativePath ∧
      a.contentType = ArtifactService.contentType parts a.filename := by
  induction h with
  | nil => exact fun _ ha => absurd ha List.not_mem_nil
  | @cons path draft paths drafts hreg _ ih =>
    intro a ha
    rcases List.mem_cons.mp ha with rfl | ha
    · rw [hreg.2]
      exact ⟨rfl, rfl⟩
    · exact ih a ha

/-- The rows of a completed job. -/
theorem rows_of_completed (hm : (platform parts).Reach (start parts) m)
    (hdone : m.status j = some .completed) :
    ∃ plan, (held parts.base j m.view.state).plan = some plan ∧
      (m.view.state.db.artifactsOf j).map ArtifactRow.relativePath =
        ActionExecutor.artifactPaths plan ∧
      ∀ row ∈ m.view.state.db.artifactsOf j, row.filename = baseName row.relativePath ∧
        row.contentType = ArtifactService.contentType parts row.filename ∧
        ArtifactService.checkPath parts.base j row.relativePath =
          .ok (root parts.base .jobs j ++ segments row.relativePath) ∧
        ∃ data, treeOf parts.base .jobs j m.view.state.fs (segments row.relativePath) =
          some (.file data) := by
  obtain ⟨plan, H₀, hclean, hsucc⟩ := (conduct (j := j) hm).1.job.completed hdone
  obtain ⟨drafts, hreg, harts⟩ := hsucc.artifacts
  rw [hclean.artifacts, List.nil_append] at harts
  obtain ⟨hpaths, hchecked⟩ := Registered.row hreg
  have hrows : (m.view.state.db.artifactsOf j).map ArtifactRow.relativePath =
      ActionExecutor.artifactPaths plan := (congrArg _ harts).trans hpaths
  -- the checks leave plain components only, so that what was promoted is there
  have hplain : ∀ path ∈ ActionExecutor.artifactPaths plan, ∀ c ∈ segments path, Plain c := by
    intro path hp
    obtain ⟨q, hq⟩ := hchecked path hp
    exact (checkPath_ok hq).1
  refine ⟨plan, hsucc.plan, hrows, fun row hrow => ?_⟩
  have hpath : row.relativePath ∈ ActionExecutor.artifactPaths plan := by
    rw [← hrows]
    exact List.mem_map_of_mem hrow
  obtain ⟨target, htarget⟩ := hchecked _ hpath
  obtain ⟨-, rfl⟩ := checkPath_ok htarget
  obtain ⟨-, data, hW, -⟩ := hsucc.promoted.holds hplain hpath
  obtain ⟨hname, htype⟩ := Registered.named hreg row (harts ▸ hrow)
  exact ⟨hname, htype, htarget, data, hW⟩

/-- What a completed job holds is a good delivery. -/
theorem delivers_of_completed (hm : (platform parts).Reach (start parts) m)
    (hdone : m.status j = some .completed) :
    Delivers parts j (deliveryOf (held parts.base j m.view.state)) := by
  obtain ⟨plan, hplan, hpaths, hrows⟩ := rows_of_completed hm hdone
  have hdelivery : (deliveryOf (held parts.base j m.view.state)).plan = plan := by
    rw [deliveryOf, hplan]
    rfl
  refine ⟨?_, ?_, ?_, ?_⟩
  · rw [hdelivery]
    exact (origin_of_plan hm hplan).1
  · rw [hdelivery, ← hpaths, deliveryOf, List.map_map]
    rfl
  · intro a ha
    obtain ⟨row, hrow, rfl⟩ := List.mem_map.mp ha
    exact ⟨(hrows row hrow).1, (hrows row hrow).2.1⟩
  · intro a ha
    obtain ⟨row, hrow, rfl⟩ := List.mem_map.mp ha
    obtain ⟨-, -, -, data, hfile⟩ := hrows row hrow
    exact ⟨data, congrArg fileBytes hfile⟩

/-- What the store says about a completed job. -/
theorem isCompleted_storeOf {base : Path} {w : World} (h : w.db.status j = some .completed) :
    (storeOf base w).IsCompleted j := by
  obtain ⟨row, hrow, hstatus⟩ := Option.map_eq_some_iff.mp h
  refine ⟨entryOf (held base j w) row, deliveryOf (held base j w), ?_, ?_⟩
  · rw [storeOf, hrow]
    rfl
  · rw [entryOf, hstatus]
    rfl

/-- A job that stays in its status keeps its entry: where the entry depends on more than the
row, the job is completed. -/
theorem entryOf_kept {H H' : Held} {row row' : JobRow} (horigin : row'.origin = row.origin)
    (hstatus : row'.status = row.status) (hheld : row.status = .completed → H' = H) :
    entryOf H' row' = entryOf H row := by
  rw [entryOf_origin horigin hstatus, entryOf_origin rfl rfl]
  cases hs : row.status with
  | completed => rw [hheld hs]
  | _ => rfl

/-- The change of one entry. -/
theorem entry_step {e : Env} {o : Op} {r : Res o} {t : ℕ} {w : World}
    (hm' : ∀ i, CliExecutionPlatform.Inv parts i (m.view.push t o r w)) (hlaw : o.Lawful)
    (he : exec parts.base e o m.view.state = some (r, w)) (haff : o.affects r = some j)
    (hkept : m.status j = some .completed →
      held parts.base j w = held parts.base j m.view.state)
    (hdelivers : w.db.status j = some .completed →
      Delivers parts j (deliveryOf (held parts.base j w))) :
    storeOf parts.base w j = storeOf parts.base m.view.state j ∨
      ∃ entry, storeOf parts.base w j = some entry ∧ TaskStore.Step (Delivers parts)
        (storeOf parts.base m.view.state) ((storeOf parts.base m.view.state).set j entry) := by
  have hstatus := exec_status (j := j) hlaw he
  have horigins := exec_origins he j
  rw [Db.status, Db.status] at hstatus
  rcases hrow : m.view.state.db.job j with _ | row
  · -- there was no such job
    rcases horigins with hnone | ⟨-, prompt, parent, rfl, hnew⟩
    · left
      rw [hrow, Option.map_none, Option.map_eq_none_iff] at hnone
      rw [storeOf, storeOf, hrow, hnone]
      rfl
    · right
      have hentry : storeOf parts.base w j = some ⟨parent, prompt, .created⟩ := by
        rw [storeOf, hnew]
        rfl
      have habsent : storeOf parts.base m.view.state j = none := by
        rw [storeOf, hrow]
        rfl
      refine ⟨_, hentry, .create _ j parent prompt habsent ?_⟩
      rintro p rfl
      -- the parent of a job is completed, so that it is another job
      have hparent : parentOf w j = some (some p) := by
        rw [parentOf, hnew]
        rfl
      have hdone : w.db.status p = some .completed := ((hm' p).children j hparent).1
      have hne : p ≠ j := by
        rintro rfl
        rw [Db.status, hnew] at hdone
        exact absurd hdone (by simp)
      have hframe : storeOf parts.base w p = storeOf parts.base m.view.state p := by
        refine storeOf_frame (exec_frame he ?_)
        rw [haff]
        exact fun h => hne (Option.some.inj h).symm
      obtain ⟨entry, d, hp, hd⟩ : (storeOf parts.base w).IsCompleted p := isCompleted_storeOf hdone
      exact ⟨entry, d, hframe.symm.trans hp, hd⟩
  · -- the row has the same origin
    have hold : storeOf parts.base m.view.state j =
        some (entryOf (held parts.base j m.view.state) row) := by
      rw [storeOf, hrow]
      rfl
    obtain ⟨row', hrow', horigin⟩ : ∃ row', w.db.job j = some row' ∧ row'.origin = row.origin := by
      rcases horigins with hsame | ⟨hnone, -⟩
      · rw [hrow] at hsame
        exact Option.map_eq_some_iff.mp hsame
      · rw [hrow] at hnone
        cases hnone
    have hnew : storeOf parts.base w j = some (entryOf (held parts.base j w) row') := by
      rw [storeOf, hrow']
      rfl
    rw [hrow, hrow', Option.map_some, Option.map_some] at hstatus
    generalize hs : row.status = s at hstatus
    generalize hs' : row'.status = s' at hstatus
    generalize starts j o r = b at hstatus
    have hentry : entryOf (held parts.base j w) row' =
        { entryOf (held parts.base j m.view.state) row with
          stage := stageOf (held parts.base j w) s' } := by
      rw [entryOf_origin horigin hs']
      rfl
    cases hstatus with
    | keep =>
      left
      rw [hnew, hold, entryOf_kept horigin (hs'.trans hs.symm) fun hdone => hkept ?_]
      rw [State.status, Db.status, hrow, ← hdone]
      rfl
    | start =>
      refine .inr ⟨_, hnew, ?_⟩
      rw [hentry]
      exact .start _ j _ hold (by rw [entryOf, hs]; rfl)
    | finish hnext hterm =>
      refine .inr ⟨_, hnew, ?_⟩
      rw [hentry]
      cases s' with
      | created => exact absurd hterm (by decide)
      | running => exact absurd hterm (by decide)
      | completed =>
        have hrunning : s = .running := by cases s <;> first | rfl | exact absurd hnext id
        refine .complete _ j _ _ hold (by rw [entryOf, hs, hrunning]; rfl) (hdelivers ?_)
        rw [Db.status, hrow', Option.map_some, hs']
      | failed =>
        refine .fail _ j _ hold ?_
        rw [entryOf, hs]
        cases s with
        | created => exact .inl rfl
        | running => exact .inr rfl
        | completed => exact absurd hnext id
        | failed => exact absurd hnext id

/-- **One step of the platform is one step of the store, or none.** -/
theorem storeOf_step (hm : (platform parts).Reach (start parts) m)
    (hstep : (platform parts).Step m m') :
    storeOf parts.base m'.view.state = storeOf parts.base m.view.state ∨
      TaskStore.Step (Delivers parts) (storeOf parts.base m.view.state)
        (storeOf parts.base m'.view.state) := by
  have hm' := hm.tail hstep
  have hlater := fun j => completed_reach (j := j) hm (.single hstep)
  cases hstep with
  | invoke c _ => exact .inl rfl
  | perform t c o k e r w ht he =>
    have hlaw := Call.lawful (System.Reach.calls (body_calls parts) hm ht).head
    rcases haff : o.affects r with _ | j
    · refine .inl (funext fun i => storeOf_frame (exec_frame he ?_))
      rw [haff]
      simp
    · have hothers : ∀ i, i ≠ j → storeOf parts.base w i = storeOf parts.base m.view.state i := by
        intro i hij
        refine storeOf_frame (exec_frame he ?_)
        rw [haff]
        exact fun h => hij (Option.some.inj h).symm
      rcases entry_step (t := t) (fun i => (conduct hm').1) hlaw he haff
        (fun hdone => (hlater j hdone).2) (fun hdone => delivers_of_completed hm' hdone) with
        hsame | ⟨entry, hentry, hmove⟩
      · refine .inl (funext fun i => ?_)
        by_cases hij : i = j
        · rw [hij]
          exact hsame
        · exact hothers i hij
      · right
        have hset : storeOf parts.base w = (storeOf parts.base m.view.state).set j entry := by
          funext i
          by_cases hij : i = j
          · rw [hij, Store.set_self]
            exact hentry
          · rw [Store.set_of_ne _ _ hij]
            exact hothers i hij
        show TaskStore.Step _ _ (storeOf parts.base w)
        rw [hset]
        exact hmove

/-- The platform runs as the store does. -/
theorem storeOf_run (hm : (platform parts).Reach (start parts) m) :
    Relation.ReflTransGen (TaskStore.Step (Delivers parts)) Store.empty
      (storeOf parts.base m.view.state) :=
  System.Reach.simulates (fun m => storeOf parts.base m.view.state) (fun _ _ => storeOf_step)
    .refl hm

end Refinement

section Lineage

variable {base : Path} {w : World} {p j : Uuid}

theorem parent_storeOf : (storeOf base w).Parent p j ↔ parentOf w j = some (some p) := by
  simp only [parentOf, Store.Parent, storeOf]
  rcases w.db.job j with _ | row
  · simp
  · simp [entryOf]

theorem completed_of_isCompleted (h : (storeOf base w).IsCompleted j) :
    w.db.status j = some .completed := by
  obtain ⟨entry, d, hentry, hd⟩ := h
  obtain ⟨row, hrow, rfl⟩ := Option.map_eq_some_iff.mp hentry
  rw [Db.status, hrow, Option.map_some]
  cases hs : row.status with
  | completed => rfl
  | _ =>
    rw [entryOf, hs] at hd
    cases hd

end Lineage

/-- **Refinements have finite lineages.**  In every reachable state, the parent of a job is
`COMPLETED`, no chain of parents goes on for ever, and every job goes back to one that was
made from a prompt alone. -/
theorem lineage_of_refinements (parts : Parts) {m : State}
    (hm : (platform parts).Reach (start parts) m) :
    (∀ p j, parentOf m.view.state j = some (some p) → m.status p = some .completed) ∧
    (WellFounded fun p j => parentOf m.view.state j = some (some p)) ∧
    ∀ j, m.status j ≠ none → ∃ root,
      Relation.ReflTransGen (fun p j => parentOf m.view.state j = some (some p)) root j ∧
      parentOf m.view.state root = some none := by
  have hI := inv_of_run (storeOf_run hm)
  have hparents : ∀ p j, parentOf m.view.state j = some (some p) →
      m.status p = some .completed := fun p j h =>
    completed_of_isCompleted (hI.parents p j (parent_storeOf.mpr h))
  have hwf : WellFounded fun p j => parentOf m.view.state j = some (some p) :=
    Subrelation.wf (fun {_ _} h => parent_storeOf.mpr h) hI.lineage
  refine ⟨hparents, hwf, fun j => ?_⟩
  -- induction along the chain of parents
  refine hwf.induction (C := fun j => m.status j ≠ none → ∃ root, Relation.ReflTransGen
    (fun p j => parentOf m.view.state j = some (some p)) root j ∧
      parentOf m.view.state root = some none) j fun j ih hj => ?_
  rcases hparent : parentOf m.view.state j with _ | _ | p
  · rw [parentOf, Option.map_eq_none_iff] at hparent
    exact absurd (by rw [State.status, Db.status, hparent]; rfl) hj
  · exact ⟨j, .refl, hparent⟩
  · obtain ⟨root, hpath, hroot⟩ := ih p hparent (by rw [hparents p j hparent]; simp)
    exact ⟨root, hpath.tail hparent, hroot⟩

set_option maxRecDepth 100000 in
theorem lineage_of_refinements_sample :
    ∃ m : State, (platform (Sample.parts Sample.design)).Reach
        (start (Sample.parts Sample.design)) m ∧
      parentOf m.view.state Sample.child = some (some Sample.job) ∧
      m.status Sample.job = some .completed := by
  obtain ⟨m, hm, hgood⟩ := Sample.reached (Sample.parts Sample.design) Sample.refined
    (fun m => parentOf m.view.state Sample.child = some (some Sample.job)) (by decide +kernel)
  have hparent := of_decide_eq_true hgood
  exact ⟨m, hm, hparent, (lineage_of_refinements _ hm).1 _ _ hparent⟩

/-! ### The listing -/

/-- `ArtifactListResponse`. -/
structure ArtifactListResponse where
  id : Uuid
  filename : String
  contentType : String
  deriving DecidableEq

def ArtifactRow.response (a : ArtifactRow) : ArtifactListResponse :=
  ⟨a.id, a.filename, a.contentType⟩

def notFound (j : Uuid) : HttpError := ⟨404, "NOT_FOUND", "Job " ++ j.str ++ " not found."⟩

def notCompleted (j : Uuid) (status : Status) : HttpError :=
  ⟨400, "BAD_REQUEST", "Job " ++ j.str ++ " is in status " ++ status.text ++
    ". Artifacts can only be retrieved for COMPLETED jobs."⟩

/-- `get_artifacts_by_job_id`: the row of the job is read first, its artifacts after it.  The
second query has no `ORDER BY`, so that the rows come in some order. -/
def getArtifactsByJobId (order : List ArtifactRow → List ArtifactRow) (j : Uuid)
    (query list : World) : Except HttpError (List ArtifactListResponse) :=
  match query.db.job j with
  | none => .error (notFound j)
  | some job =>
    if job.status ≠ .completed then .error (notCompleted j job.status)
    else .ok ((order (list.db.artifactsOf j)).map ArtifactRow.response)

/-- What a user who knows the store expects. -/
def listingOf (j : Uuid) : Option (Entry Uuid String Delivery) →
    Except HttpError (List ArtifactListResponse)
  | none => .error (notFound j)
  | some entry =>
    match entry.stage with
    | .created => .error (notCompleted j .created)
    | .running => .error (notCompleted j .running)
    | .failed => .error (notCompleted j .failed)
    | .completed d => .ok (d.artifacts.map fun a => ⟨a.id, a.filename, a.contentType⟩)

/-- The same error, or the same list in another order. -/
def SameListing : Except HttpError (List ArtifactListResponse) →
    Except HttpError (List ArtifactListResponse) → Prop
  | .error x, .error y => x = y
  | .ok l, .ok l' => l.Perm l'
  | _, _ => False

end CliExecutionPlatform
