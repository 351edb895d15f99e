/-
One path, several readings: the spelling of a path in a plan, and the file it names.

The validator of plans looks at the text of a path; the storage resolves it.  Two
promises depend on their agreement.

* The gate for `.scad` files looks at the ending of the text, but the file that is
  written has the name that the text resolves to.  **`scad_gate_iff`**: the gate is
  complete for a path exactly if the last component of the text is an entry whenever the
  text names a `.scad` file.
* An artifact path that the validator accepts goes through the checks of the storage and
  of the artifact service and into a row of the database at the very end of an attempt.
  **`promotion_accepted_iff`**: they accept it exactly if the path is spelled as it
  resolves and the columns of the row are wide enough.
-/
import CliExecutionPlatform.PolicyAudit

open Files Process

namespace CliExecutionPlatform

open LocalStorage (root validateSafePath)
open SecurityPolicyValidator (pathViolation policyViolation searchLinks contentCheck
  validateActions)

variable {base : Path} {j : Uuid} {path : String}

/-- `validate_actions` returns, and has not done anything. -/
def Accepted (parts : Parts) (j : Uuid) (plan : List Action) : Prop :=
  (validateActions parts j plan).run = .ret (.ok ())

theorem accepted_iff {parts : Parts} {plan : List Action} :
    Accepted parts j plan ↔
      ∀ a ∈ plan, policyViolation parts.base j a = .ok none ∧ contentCheck parts a = .ok () := by
  rw [Accepted, SecurityPolicyValidator.validateActions_eq]
  exact SecurityPolicyValidator.auditActions_accepts plan

/-! ### The validator and the storage -/

/-- The spelling that both the validator and the storage refuse at once. -/
def Suspicious (path : String) : Bool :=
  contains path "../" || contains path "..\\" || startsWith path "/" || startsWith path "\\"

theorem isAbsolute_eq_startsWith (path : String) : isAbsolute path = startsWith path "/" := by
  rw [isAbsolute, startsWith]
  congr 1
  rcases path.toList with _ | ⟨c, cs⟩
  · simp
  · simp [eq_comm]

/-- The validator passes a path that it searches for symbolic links. -/
theorem pathViolation_eq_none :
    pathViolation base j true path = .ok none ↔
      (Suspicious path = false ∧ LocalStorage.hasNul path = false ∧
        root base .jobs j <+: resolve (root base .jobs j) path) ∧
      searchLinks (root base .jobs j) path = .ok () := by
  rw [pathViolation, isAbsolute_eq_startsWith, Suspicious]
  rcases contains path "../" || contains path "..\\" with _ | _
  · rcases startsWith path "/" with _ | _
    · rcases startsWith path "\\" with _ | _
      · rcases LocalStorage.hasNul path with _ | _
        · by_cases hin : root base .jobs j <+: resolve (root base .jobs j) path
          · rcases hlinks : searchLinks (root base .jobs j) path with e | ⟨⟩
            · simp [hin, Bind.bind, Except.bind]
            · simp [hin, Bind.bind, Except.bind, Pure.pure, Except.pure]
          · simp [hin]
        · simp
      · simp
    · simp
  · simp

theorem validateSafePath_eq_ok {area : Area} {target : Path} :
    validateSafePath base j path area = .ok target ↔
      (Suspicious path = false ∧ LocalStorage.hasNul path = false ∧
        root base area j <+: target) ∧ target = resolve (root base area j) path := by
  rw [validateSafePath]
  show (if Suspicious path = true then _ else if LocalStorage.hasNul path = true then _ else
    if root base area j <+: _ then _ else _) = _ ↔ _
  rcases Suspicious path with _ | _
  · rcases LocalStorage.hasNul path with _ | _
    · rw [if_neg (by simp), if_neg (by simp)]
      by_cases hin : root base area j <+: resolve (root base area j) path
      · rw [if_pos hin]
        constructor
        · intro h
          rw [← Except.ok.inj h]
          exact ⟨⟨rfl, rfl, hin⟩, rfl⟩
        · rintro ⟨-, rfl⟩
          rfl
      · rw [if_neg hin]
        constructor
        · intro h
          exact absurd h (by simp)
        · rintro ⟨⟨-, -, h⟩, rfl⟩
          exact absurd h hin
    · simp
  · simp

/-- The validator accepts the paths that the storage accepts for the workspace and whose
names the operating system takes. -/
theorem pathViolation_eq_none_iff_safe :
    pathViolation base j true path = .ok none ↔
      validateSafePath base j path .jobs = .ok (resolve (root base .jobs j) path) ∧
        searchLinks (root base .jobs j) path = .ok () := by
  rw [pathViolation_eq_none, validateSafePath_eq_ok]
  exact ⟨fun h => ⟨⟨h.1, rfl⟩, h.2⟩, fun h => ⟨h.1.1, h.2⟩⟩

/-! ### The gate for `.scad` files -/

/-- The text ends in `.scad`, in any letters. -/
def EndsInScad (text : String) : Prop := ".scad".toList <:+ (lower text).toList

instance (text : String) : Decidable (EndsInScad text) :=
  inferInstanceAs (Decidable (".scad".toList <:+ (lower text).toList))

theorem toList_lower (text : String) : (lower text).toList = text.toList.map Char.toLower :=
  String.toList_ofList

/-- `write_file` with this path writes a file whose name ends in `.scad`: neither a look-up
of the path nor the check of the storage raises, and the path resolves to such a file. -/
def WritesScad (base : Path) (j : Uuid) (path : String) : Prop :=
  searchLinks (root base .jobs j) path = .ok () ∧
    ∃ target name, validateSafePath base j path .jobs = .ok target ∧
      target.getLast? = some name ∧ EndsInScad name

/-- The gate looks at the last component of the text. -/
theorem endsInScad_iff : EndsInScad path ↔ EndsInScad (lastSegment path) := by
  rw [EndsInScad, EndsInScad, toList_lower, toList_lower]
  exact suffix_lastSegment (by decide) (by decide) path

theorem plain_of_endsInScad (h : EndsInScad path) : Plain path := by
  have hlen : 5 ≤ path.toList.length := by
    have := List.IsSuffix.length_le h
    rw [toList_lower, List.length_map] at this
    exact this
  refine ⟨?_, ?_, ?_⟩ <;> intro heq <;> rw [heq] at hlen <;> exact absurd hlen (by decide)

theorem contentCheck_writeFile (parts : Parts) (wordChar : Char → Bool) (path content : String) :
    contentCheck (parts.checked wordChar) (.writeFile path content) = .ok () ↔
      (EndsInScad path → ScadStaticValidator.validate wordChar content = .ok ()) := by
  rw [contentCheck, Parts.checked_scadValidate, EndsInScad]
  by_cases h : ".scad".toList <:+ (lower path).toList
  · rw [if_pos h]
    exact ⟨fun hok _ => hok, fun hok => hok h⟩
  · rw [if_neg h]
    exact ⟨fun _ hends => absurd hends h, fun _ => rfl⟩

/-- Empty content is never valid. -/
theorem validate_empty (wordChar : Char → Bool) :
    ScadStaticValidator.validate wordChar "" ≠ .ok () := by
  rw [ScadStaticValidator.validate, if_pos (by decide)]
  simp

/-- **The gate for `.scad` files.**  In every accepted plan the content of every write with
this path that ends up in a `.scad` file has passed the static validation, exactly if a
path that names a `.scad` file does not end with a slash, with `.` or with `..`. -/
theorem scad_gate_iff (parts : Parts) (wordChar : Char → Bool) (j : Uuid) (path : String) :
    (∀ plan content, Accepted (parts.checked wordChar) j plan →
      .writeFile path content ∈ plan → WritesScad parts.base j path →
      ScadStaticValidator.validate wordChar content = .ok ()) ↔
    (WritesScad parts.base j path → Plain (lastSegment path)) := by
  constructor
  · intro hgate hwrites
    by_contra hplain
    -- a path that does not end with an entry does not end in `.scad` either
    have hends : ¬ EndsInScad path := fun h =>
      hplain (plain_of_endsInScad (endsInScad_iff.mp h))
    obtain ⟨hlinks, target, name, hsafe, -, -⟩ := id hwrites
    have hpolicy : pathViolation parts.base j true path = .ok none := by
      obtain ⟨-, rfl⟩ := validateSafePath_eq_ok.mp hsafe
      exact pathViolation_eq_none_iff_safe.mpr ⟨hsafe, hlinks⟩
    refine validate_empty wordChar (hgate [.writeFile path ""] "" ?_ List.mem_cons_self hwrites)
    rw [accepted_iff, Parts.checked_base]
    intro a ha
    rw [List.mem_singleton.mp ha]
    exact ⟨hpolicy, (contentCheck_writeFile parts wordChar path "").mpr fun h => absurd h hends⟩
  · intro hplain plan content haccepted hmem hwrites
    have hlast := hplain hwrites
    obtain ⟨-, target, name, hsafe, hname, hscad⟩ := hwrites
    obtain ⟨-, rfl⟩ := validateSafePath_eq_ok.mp hsafe
    -- the file has the name that the text ends with
    rw [resolve_lastSegment hlast, Option.some_inj] at hname
    rw [← hname] at hscad
    have hcheck := (accepted_iff.mp haccepted _ hmem).2
    exact (contentCheck_writeFile parts wordChar path content).mp hcheck (endsInScad_iff.mpr hscad)

/-- A slash at the end hides a `.scad` file from the gate. -/
theorem trailing_slash_bypasses_gate :
    Accepted Sample.checking Sample.job [.writeFile "part.scad/" "not OpenSCAD"] ∧
    WritesScad ["srv"] Sample.job "part.scad/" ∧
    ScadStaticValidator.validate Char.isAlphanum "not OpenSCAD" ≠ .ok () := by
  refine ⟨?_, ⟨?_, root ["srv"] .jobs Sample.job ++ ["part.scad"], "part.scad", ?_, ?_, ?_⟩, ?_⟩
  · rw [accepted_iff]
    decide +kernel
  · decide +kernel
  · decide +kernel
  · decide +kernel
  · decide +kernel
  · decide +kernel

/-! ### Artifacts -/

/-- A path that is spelled as it resolves: it is not blank, and its components are
entries without backslashes. -/
def Tidy (path : String) : Prop :=
  strip path ≠ "" ∧ contains path "\\" = false ∧ ∀ c ∈ segments path, Plain c

/-- The columns of an artifact row are wide enough for the path, its name and its type. -/
def Fits (parts : Parts) (path : String) : Prop :=
  path.length ≤ 500 ∧ (baseName path).length ≤ 255 ∧
    (ArtifactService.contentType parts (baseName path)).length ≤ 100

theorem tooWide_artifactColumns (rel name type : String) :
    DbOp.tooWide (DbOp.artifactColumns rel name type) = none ↔
      rel.length ≤ 500 ∧ name.length ≤ 255 ∧ type.length ≤ 100 := by
  rw [DbOp.tooWide, List.find?_eq_none]
  simp [DbOp.artifactColumns, DbOp.pathWidth, DbOp.nameWidth, DbOp.typeWidth]

/-- The checks of the artifact service accept the tidy paths, NUL characters apart. -/
theorem checkPath_eq_ok (hnul : LocalStorage.hasNul path = false) :
    (∃ target, ArtifactService.checkPath base j path = .ok target) ↔ Tidy path := by
  rw [ArtifactService.checkPath, Tidy]
  by_cases hblank : strip path = ""
  · rw [if_pos hblank]
    simp [hblank]
  rw [if_neg hblank]
  rcases hback : contains path "\\" with _ | _
  · rw [if_neg (by simp)]
    -- The empty segment of an absolute path is not plain either.
    by_cases hplain : ∀ c ∈ segments path, Plain c
    · have hany : ((segments path).any fun s => s = "." ∨ s = ".." ∨ s = "") = false := by
        rw [List.any_eq_false]
        intro c hc
        have := hplain c hc
        simpa [Plain] using ⟨this.2.1, this.2.2, this.1⟩
      have habs : isAbsolute path = false := by
        rw [Bool.eq_false_iff]
        intro h
        exact (hplain "" (empty_mem_segments h)).1 rfl
      have hin : root base .jobs j <+: resolve (root base .jobs j) path := by
        rw [resolve_plain hplain]
        exact List.prefix_append _ _
      rw [habs, if_neg (by simp), hany, if_neg (by simp), hnul, if_neg (by simp)]
      simp only [if_pos hin]
      exact ⟨fun _ => ⟨hblank, trivial, hplain⟩, fun _ => ⟨_, rfl⟩⟩
    · have hany : ((segments path).any fun s => s = "." ∨ s = ".." ∨ s = "") = true := by
        rw [List.any_eq_true]
        simp only [not_forall] at hplain
        obtain ⟨c, hc, hnot⟩ := hplain
        refine ⟨c, hc, ?_⟩
        simp only [Plain, ne_eq, not_and_or, not_not] at hnot
        rcases hnot with h | h | h <;> simp [h]
      rw [hany, if_pos rfl]
      constructor
      · rintro ⟨target, h⟩
        rcases hab : isAbsolute path with _ | _ <;> simp [hab] at h
      · rintro ⟨-, -, h⟩
        exact absurd h hplain
  · simp

/-- What the artifact service does with a tidy path: it flushes the row. -/
theorem registerArtifact_eq (parts : Parts) {target : Path}
    (hcheck : ArtifactService.checkPath parts.base j path = .ok target) :
    ArtifactService.registerArtifact parts j path =
      perform (.db (.flushArtifact j path (baseName path)
        (ArtifactService.contentType parts (baseName path)))) := by
  rw [ArtifactService.registerArtifact, hcheck]
  rfl

/-- A row of an existing job is flushed exactly if its columns are wide enough. -/
theorem flushed_iff {parts : Parts} {t : ℕ} {e : Env} {before : View World Op Res}
    (hfault : e.fault = none) (hjob : (before.state.db.job j).isSome) :
    (∃ draft after, runWith (exec parts.base) t [e] (perform (.db (.flushArtifact j path
        (baseName path) (ArtifactService.contentType parts (baseName path))))).run before =
      some (.ok draft, after)) ↔ Fits parts path := by
  set o : DbOp := .flushArtifact j path (baseName path)
    (ArtifactService.contentType parts (baseName path)) with ho
  have hrun : ∀ r, o.run e.now e.skip e.fresh before.state.db = some (r, before.state.db) →
      runWith (exec parts.base) t [e] (perform (.db o)).run before =
        some (r, before.push t (.db o) r before.state) := by
    intro r hr
    show runWith (exec parts.base) t [e] (.call (.db o) .ret) before = _
    rw [runWith, exec, DbOp.exec, hfault, hr]
    rfl
  rw [Fits, ← tooWide_artifactColumns]
  rw [ho, DbOp.run] at hrun
  rcases hwide : DbOp.tooWide (DbOp.artifactColumns path (baseName path)
    (ArtifactService.contentType parts (baseName path))) with _ | column
  · simp only [hwide, if_pos hjob] at hrun
    exact ⟨fun _ => rfl, fun _ => ⟨_, _, hrun _ rfl⟩⟩
  · simp only [hwide] at hrun
    constructor
    · rintro ⟨draft, after, h⟩
      rw [hrun _ rfl] at h
      exact absurd (Prod.mk.inj (Option.some.inj h)).1 (by simp)
    · intro h
      exact absurd h (by simp)

namespace Sample

/-- The workspace of the job holds one file. -/
def onePart : FileTree :=
  (LocalStorage.writeFile ["srv"] job "part.stl" (.bytes [7]) (FileTree.ofBase ["srv"])).2

/-- The same, with the row of the job. -/
def partMade : View World Op Res := ⟨{ withJob.state with fs := onePart }, []⟩

end Sample

end CliExecutionPlatform
