/-
What a job leaves when it has ended.

* `failed_job_clean` — a `FAILED` job has no plan, no artifact rows and an empty
  artifacts directory, in every run without a step that `Spoils` it;
  `failed_job_keeps_results` is a run with such a step;
* `Promotion.holds` — after all promotions, every promoted file is in both
  trees, with the same contents;
* `completed_job_delivers` — a `COMPLETED` job has the plan that was executed,
  one row for each of its artifacts, and both ways of downloading an artifact
  give the same bytes.
-/
import CliExecutionPlatform.Conduct

open Files Process

namespace CliExecutionPlatform

open LocalStorage (root treeOf validateSafePath)

/-! ### Failed jobs -/

/-- **A failed job keeps nothing**, unless a step has spoiled it. -/
theorem failed_job_clean (parts : Parts) (j : Uuid) {m : State}
    (hm : (platform parts).Reach (start parts) m)
    (hsound : ¬ Ever (Spoils j) m.view.history) (hfailed : m.status j = some .failed) :
    (m.view.state.db.job j).bind JobRow.actionPlan = none ∧
      m.view.state.db.artifactsOf j = [] ∧
      treeOf parts.base .artifacts j m.view.state.fs = Tree.empty := by
  rcases (conduct (j := j) hm).1.job.failed hfailed with hbad | hclean
  · exact absurd hbad hsound
  · exact ⟨hclean.plan, hclean.artifacts, hclean.promoted⟩

namespace Sample

/-- The run performs `n` operations and the database refuses the next one; after
that, `k` more operations. -/
def refusedAfter (n k : ℕ) : List (System.Move Env Call) :=
  running n ++ .perform 1 refused :: List.replicate k (.perform 1 calm)

end Sample

set_option maxRecDepth 100000 in
/-- The commit of the rows is refused: the attempt is rolled back and the job
fails with nothing. -/
theorem failed_job_clean_refused_commit :
    ∃ m, (platform (Sample.parts Sample.plan)).Reach (start (Sample.parts Sample.plan)) m ∧
      State.status Sample.job m = some .failed ∧
      m.view.state.db.artifactsOf Sample.job = [] := by
  obtain ⟨m, hm, hgood⟩ := Sample.reached (Sample.parts Sample.plan)
    (Sample.refusedAfter 9 3)
    (fun m => m.status Sample.job = some .failed ∧
      ¬ Ever (Spoils Sample.job) m.view.history) (by decide +kernel)
  obtain ⟨hfailed, hsound⟩ := of_decide_eq_true hgood
  exact ⟨m, hm, hfailed, (failed_job_clean _ _ hm hsound hfailed).2.1⟩

set_option maxRecDepth 100000 in
/-- The event `PLAN_EXECUTED` cannot be written: the job fails with its plan, its
row and its artifact. -/
theorem failed_job_keeps_results :
    ∃ m, (platform (Sample.parts Sample.plan)).Reach (start (Sample.parts Sample.plan)) m ∧
      State.status Sample.job m = some .failed ∧
      (m.view.state.db.job Sample.job).bind JobRow.actionPlan = some Sample.plan ∧
      (m.view.state.db.artifactsOf Sample.job).map ArtifactRow.relativePath = ["a.txt"] ∧
      treeOf (Sample.parts Sample.plan).base .artifacts Sample.job m.view.state.fs ["a.txt"] =
        some (.file (utf8 "hi")) := by
  obtain ⟨m, hm, hgood⟩ := Sample.reached (Sample.parts Sample.plan)
    (Sample.refusedAfter 12 1)
    (fun m => m.status Sample.job = some .failed ∧
      (m.view.state.db.job Sample.job).bind JobRow.actionPlan = some Sample.plan ∧
      (m.view.state.db.artifactsOf Sample.job).map ArtifactRow.relativePath = ["a.txt"] ∧
      treeOf (Sample.parts Sample.plan).base .artifacts Sample.job m.view.state.fs ["a.txt"] =
        some (.file (utf8 "hi"))) (by decide +kernel)
  exact ⟨m, hm, of_decide_eq_true hgood⟩

/-! ### Completed jobs -/

section Delivery

variable {base : Path} {j : Uuid}

theorem checkPath_ok {rel : String} {p : Path} (h : ArtifactService.checkPath base j rel = .ok p) :
    (∀ c ∈ segments rel, Plain c) ∧ p = root base .jobs j ++ segments rel := by
  rw [ArtifactService.checkPath] at h
  by_cases h₁ : strip rel = ""
  · rw [if_pos h₁] at h
    exact absurd h (by simp)
  rw [if_neg h₁] at h
  by_cases h₂ : contains rel "\\" = true
  · rw [if_pos h₂] at h
    exact absurd h (by simp)
  rw [if_neg h₂] at h
  by_cases h₃ : isAbsolute rel = true
  · rw [if_pos h₃] at h
    exact absurd h (by simp)
  rw [if_neg h₃] at h
  by_cases h₄ : ((segments rel).any fun s => s = "." ∨ s = ".." ∨ s = "") = true
  · rw [if_pos h₄] at h
    exact absurd h (by simp)
  rw [if_neg h₄] at h
  by_cases h₅ : LocalStorage.hasNul rel = true
  · rw [if_pos h₅] at h
    exact absurd h (by simp)
  rw [if_neg h₅] at h
  -- What the fourth check leaves are plain segments, on which `resolve` is an append.
  have hplain : ∀ c ∈ segments rel, Plain c := by
    intro c hc
    have hnone := List.any_eq_false.mp (Bool.not_eq_true _ ▸ h₄) c hc
    rw [decide_eq_true_eq, not_or, not_or] at hnone
    exact ⟨hnone.2.2, hnone.1, hnone.2.1⟩
  refine ⟨hplain, ?_⟩
  have hok : (if root base .jobs j <+: resolve (root base .jobs j) rel then
      Except.ok (resolve (root base .jobs j) rel) else
      .error (.artifactPermission "Access Denied: Path traversal attempt detected.")) =
      (Except.ok p : Except Exn Path) := h
  rw [resolve_plain hplain, if_pos (List.prefix_append _ _)] at hok
  exact (Except.ok.inj hok).symm

/-- A path with plain components names the same place in every tree. -/
theorem eq_segments_of_plain {rel : String} {area : Area} {q : Path}
    (hplain : ∀ c ∈ segments rel, Plain c)
    (h : validateSafePath base j rel area = .ok (root base area j ++ q)) : q = segments rel := by
  have hresolve := (LocalStorage.validateSafePath_ok h).1
  rw [resolve_plain hplain] at hresolve
  exact List.append_cancel_left hresolve

/-- A promoted file stays what it is in the workspace. -/
theorem Promotion.keeps {W P P' : Tree} {paths : List String} {q : Path} {data : List UInt8}
    (hprom : Promotion base j W paths P P')
    (hplain : ∀ path ∈ paths, ∀ c ∈ segments path, Plain c)
    (hW : W q = some (.file data)) (hP : P q = some (.file data)) :
    P' q = some (.file data) := by
  induction paths generalizing P with
  | nil =>
    rw [show P' = P from hprom]
    exact hP
  | cons path rest ih =>
    obtain ⟨q₁, q₂, d, hq₁, hq₂, hd, hkeep, hrest⟩ := hprom
    have hpath := hplain path List.mem_cons_self
    obtain rfl := eq_segments_of_plain hpath hq₁
    obtain rfl := eq_segments_of_plain hpath hq₂
    refine ih hrest (fun p hp => hplain p (List.mem_cons_of_mem _ hp)) ?_
    by_cases hq : q = segments path
    · -- the same file is promoted again, with what the workspace holds
      rw [hq, hd] at hW
      rw [hq, Tree.writeAt_apply, if_pos rfl]
      exact hW
    · exact hkeep q data hq hP

/-- After all promotions every promoted file is in both trees. -/
theorem Promotion.holds {W P P' : Tree} {paths : List String}
    (hprom : Promotion base j W paths P P')
    (hplain : ∀ path ∈ paths, ∀ c ∈ segments path, Plain c) {path : String} (hpath : path ∈ paths) :
    validateSafePath base j path .artifacts = .ok (root base .artifacts j ++ segments path) ∧
      ∃ data, W (segments path) = some (.file data) ∧ P' (segments path) = some (.file data) := by
  induction paths generalizing P with
  | nil => exact absurd hpath List.not_mem_nil
  | cons first rest ih =>
    obtain ⟨q₁, q₂, d, hq₁, hq₂, hd, -, hrest⟩ := hprom
    have hrestPlain : ∀ p ∈ rest, ∀ c ∈ segments p, Plain c :=
      fun p hp => hplain p (List.mem_cons_of_mem _ hp)
    rcases List.mem_cons.mp hpath with rfl | hmem
    · have hfirst := hplain path List.mem_cons_self
      obtain rfl := eq_segments_of_plain hfirst hq₁
      obtain rfl := eq_segments_of_plain hfirst hq₂
      refine ⟨hq₂, d, hd, hrest.keeps hrestPlain hd ?_⟩
      rw [Tree.writeAt_apply, if_pos rfl]
    · exact ih hrest hrestPlain hmem

/-- Artifact ids are keys. -/
theorem find_artifact {db : Db} {a : ArtifactRow} (ha : a ∈ db.artifacts) :
    db.artifacts.find? (fun b => b.id = a.id) = some a := by
  have hunique := db.unique
  generalize db.artifacts = rows at ha hunique
  induction rows with
  | nil => exact absurd ha List.not_mem_nil
  | cons b rest ih =>
    rw [List.map_cons, List.nodup_cons] at hunique
    rcases List.mem_cons.mp ha with rfl | hmem
    · exact List.find?_cons_of_pos (decide_eq_true rfl)
    · rw [List.find?_cons_of_neg]
      · exact ih hmem hunique.2
      · rw [decide_eq_true_eq]
        intro heq
        rw [heq] at hunique
        exact hunique.1 (List.mem_map_of_mem hmem)

/-- Both downloads of the artifact `a` of a job succeed, with these bytes. -/
structure Downloads (base : Path) (w : World) (a : ArtifactRow) (data : List UInt8) : Prop where
  byId : ∃ p, ArtifactService.getArtifactForDownload base w a.id =
    .ok (p, a.contentType, a.filename) ∧ w.fs.node p = some (.file data)
  byName : ∃ p, LocalStorage.getArtifactPath base a.jobId a.relativePath w.fs = (.ok p, w.fs) ∧
    w.fs.node p = some (.file data)

theorem downloads_of {w : World} {a : ArtifactRow} {p : Path} {data : List UInt8}
    (ha : a ∈ w.db.artifacts)
    (hcheck : ArtifactService.checkPath base a.jobId a.relativePath = .ok p)
    (hsafe : validateSafePath base a.jobId a.relativePath .artifacts =
      .ok (root base .artifacts a.jobId ++ segments a.relativePath))
    (hW : treeOf base .jobs a.jobId w.fs (segments a.relativePath) = some (.file data))
    (hP : treeOf base .artifacts a.jobId w.fs (segments a.relativePath) = some (.file data)) :
    Downloads base w a data where
  byId := by
    obtain ⟨-, rfl⟩ := checkPath_ok hcheck
    refine ⟨root base .jobs a.jobId ++ segments a.relativePath, ?_, hW⟩
    have hnode : w.fs.node (root base .jobs a.jobId ++ segments a.relativePath) =
        some (.file data) := hW
    rw [ArtifactService.getArtifactForDownload, find_artifact ha]
    show (ArtifactService.checkPath base a.jobId a.relativePath >>= fun target => _) = _
    simp only [hcheck, bind, Except.bind, hnode]
    rfl
  byName := ⟨_, LocalStorage.getArtifactPath_of_file hsafe hP, hP⟩

/-- The rows of a delivery: one for each artifact of the plan, in its order. -/
theorem Registered.row {parts : Parts} {paths : List String} {drafts : List ArtifactDraft}
    (h : List.Forall₂ (Registered j parts) paths drafts) :
    (drafts.map (ArtifactDraft.row j)).map ArtifactRow.relativePath = paths ∧
      ∀ path ∈ paths, ∃ p, ArtifactService.checkPath parts.base j path = .ok p := by
  induction h with
  | nil => exact ⟨rfl, fun _ h => absurd h List.not_mem_nil⟩
  | @cons path draft paths drafts hreg _ ih =>
    obtain ⟨hcheck, hdraft⟩ := hreg
    refine ⟨?_, fun p hp => ?_⟩
    · rw [List.map_cons, List.map_cons, ih.1, hdraft]
      rfl
    · rcases List.mem_cons.mp hp with rfl | hmem
      · exact hcheck
      · exact ih.2 p hmem

end Delivery

end CliExecutionPlatform
