/-
Violations of the security policy are audited and final, unless an earlier action ends
the check in another way.

`validate_actions` goes through a plan once.  For every action it checks the policy
(tool, path, symbolic links) and then the content of a `.scad` file.  A violation of the
policy is logged and raised with status 403; refused content is raised with status 400
and leaves no trace in the log, and neither does a path that cannot be looked up at all.
So the order of the actions decides what a plan ends with.

* `DiskView`, `policyViolationOn` — the policy on a disk that may hold symbolic links and
  may refuse to look a path up; on one without links it is `policyViolation`
  (`policyViolationOn_plain`);
* `auditActions` — the loop for any policy and any check of contents;
* `auditActions_clean` — how the loop passes actions that do not violate the policy;
* **`violations_audited_iff`** — the violations of a plan are audited and final exactly
  if no path check raises and no content is refused before the first of them.
-/
import CliExecutionPlatform.Lifecycle
import CliExecutionPlatform.ScadValidator
import Mathlib.Data.List.TakeWhile

open Files Process

namespace CliExecutionPlatform

open LocalStorage (root)

namespace SecurityPolicyValidator

/-! ### Symbolic links -/

/-- The disk as the validator sees it: the directory of the job, what a path resolves to
and which entries are symbolic links.  Both look-ups can raise. -/
structure DiskView where
  jobDir : Path
  resolved : String → Except Exn Path
  isSymlink : Path → Except Exn Bool

/-- The walk from a path up to the directory of the job; the names of the path stand
innermost first. -/
def symlinkOnWay (view : DiskView) : List String → Except Exn Bool
  | [] => .ok false
  | name :: above => do
    if ← view.isSymlink (view.jobDir ++ (name :: above).reverse) then .ok true
    else symlinkOnWay view above

/-- The path rules; `walks` if the path is also searched for symbolic links. -/
def pathViolationOn (view : DiskView) (walks : Bool) (path : String) :
    Except Exn (Option String) :=
  if contains path "../" || contains path "..\\" then
    .ok (some
      ("Access denied. Security policy violation: Path traversal attempt detected: " ++ path))
  else if startsWith path "/" || startsWith path "\\" || isAbsolute path then
    .ok (some ("Access denied. Security policy violation: Absolute path not allowed: " ++ path))
  else do
    let target ← view.resolved path
    if ¬ view.jobDir <+: target then
      pure (some
        ("Access denied. Security policy violation: Path is not relative to the workspace: " ++
          path))
    else if walks then do
      if ← symlinkOnWay view (relativeParts path).reverse then
        pure (some
          ("Access denied. Security policy violation: Symbolic link detected: " ++ path))
      else pure none
    else pure none

def policyViolationOn (view : DiskView) : Action → Except Exn (Option String)
  | .runTool toolName _ =>
    if strip (lower toolName) = "openscad" then .ok none
    else .ok (some
      ("Access denied. Security policy violation: Unauthorized tool: " ++ toolName))
  | .createDirectory path => pathViolationOn view false path
  | .writeFile path _ | .createArtifact path => pathViolationOn view true path

/-- A disk without symbolic links. -/
def DiskView.plain (base : Path) (j : Uuid) : DiskView where
  jobDir := root base .jobs j
  resolved := fun path =>
    if LocalStorage.hasNul path then .error LocalStorage.nulError
    else .ok (resolve (root base .jobs j) path)
  isSymlink := fun p =>
    if tooLong (root base .jobs j) (p.drop (root base .jobs j).length) then .error (nameError p)
    else .ok false

theorem pathSize_append (p q : Path) : pathSize (p ++ q) = pathSize p + pathSize q := by
  induction p with
  | nil => simp [pathSize]
  | cons name p ih =>
    show 1 + (utf8 name).length + pathSize (p ++ q) = 1 + (utf8 name).length + pathSize p + _
    rw [ih, ← Nat.add_assoc]

/-- If `lstat` takes a path, it takes the paths above it. -/
theorem tooLong_above {jobDir names : Path} {name : String}
    (h : tooLong jobDir (names ++ [name]) = false) : tooLong jobDir names = false := by
  cases names with
  | nil => rfl
  | cons first names =>
    rw [List.cons_append, tooLong, Bool.or_eq_false_iff] at h
    rw [tooLong, Bool.or_eq_false_iff]
    refine ⟨h.1, ?_⟩
    have hsize := of_decide_eq_false h.2
    rw [← List.cons_append, ← List.append_assoc, pathSize_append] at hsize
    exact decide_eq_false (by omega)

/-- Without symbolic links the walk finds none; only its first `lstat` can raise. -/
theorem symlinkOnWay_plain (base : Path) (j : Uuid) (names : List String) :
    symlinkOnWay (.plain base j) names =
      if tooLong (root base .jobs j) names.reverse then
        .error (nameError (root base .jobs j ++ names.reverse))
      else .ok false := by
  induction names with
  | nil => rfl
  | cons name above ih =>
    have hfirst : (DiskView.plain base j).isSymlink
        (root base .jobs j ++ (name :: above).reverse) =
        if tooLong (root base .jobs j) (name :: above).reverse then
          .error (nameError (root base .jobs j ++ (name :: above).reverse))
        else .ok false := by
      show (if tooLong _ (List.drop _ (root base .jobs j ++ _)) then _ else _) = _
      rw [List.drop_left]
    rw [symlinkOnWay]
    show (DiskView.isSymlink _ (root base .jobs j ++ _) >>= fun found => _) = _
    rw [hfirst]
    rcases hlong : tooLong (root base .jobs j) (name :: above).reverse with _ | _
    · rw [List.reverse_cons] at hlong
      rw [tooLong_above hlong] at ih
      exact ih
    · rfl

theorem pathViolationOn_plain (base : Path) (j : Uuid) (walks : Bool) (path : String) :
    pathViolationOn (.plain base j) walks path = pathViolation base j walks path := by
  rw [pathViolationOn, pathViolation]
  congr 2
  show ((if LocalStorage.hasNul path then _ else _) >>= fun target => _) = _
  rcases LocalStorage.hasNul path with _ | _
  · show (if ¬ root base .jobs j <+: resolve (root base .jobs j) path then _ else
      if walks then _ else _) = _
    rw [symlinkOnWay_plain, List.reverse_reverse, if_neg (by simp : ¬ false = true), searchLinks]
    congr 2
    rcases tooLong (root base .jobs j) (relativeParts path) with _ | _ <;> rfl
  · rfl

theorem policyViolationOn_plain (base : Path) (j : Uuid) :
    policyViolationOn (.plain base j) = policyViolation base j := by
  funext action
  cases action with
  | runTool toolName args => rfl
  | createDirectory path => exact pathViolationOn_plain base j false path
  | writeFile path content => exact pathViolationOn_plain base j true path
  | createArtifact path => exact pathViolationOn_plain base j true path

/-! ### The loop -/

section Loop

variable (violation : Action → Except Exn (Option String)) (content : Action → Except Exn Unit)
  (j : Uuid)

/-- The checks of one action, for any policy and any check of contents. -/
def auditAction (action : Action) : Task Unit :=
  match violation action with
  | .error e => throw e
  | .ok (some message) => logAndRaiseViolation j message
  | .ok none => Task.ofExcept (content action)

/-- The loop of `validate_actions`. -/
def auditActions : List Action → Task Unit
  | [] => pure ()
  | action :: rest => do
    auditAction violation content j action
    auditActions rest

/-- The action violates the policy. -/
def Breaks (action : Action) : Prop := ∃ message, violation action = .ok (some message)

instance (action : Action) : Decidable (Breaks violation action) :=
  match h : violation action with
  | .ok (some message) => isTrue ⟨message, h⟩
  | .ok none => isFalse (by simp [Breaks, h])
  | .error e => isFalse (by simp [Breaks, h])

/-- The action ends the loop without being found to violate the policy: a path check
raises, or the content is refused. -/
def Stops (action : Action) : Prop :=
  (∃ e, violation action = .error e) ∨ content action ≠ .ok ()

variable {violation content j}

theorem auditActions_violation {action : Action} {message : String}
    (h : violation action = .ok (some message)) (rest : List Action) :
    (auditActions violation content j (action :: rest)).run =
      .call (.db (.logEvents j [(.securityAlert, message)])) fun
        | .ok _ => .ret (.error (.planValidation message 403 "FORBIDDEN_ACCESS"))
        | .error e => .ret (.error e) := by
  rw [auditActions, run_bind, auditAction, h]
  show Prog.call _ _ = Prog.call _ _
  congr 1
  funext r
  cases r with
  | ok u => rfl
  | error e => rfl

theorem auditActions_raised {action : Action} {e : Exn} (h : violation action = .error e)
    (rest : List Action) :
    (auditActions violation content j (action :: rest)).run = .ret (.error e) := by
  rw [auditActions, run_bind, auditAction, h]
  rfl

theorem auditActions_refused {action : Action} {e : Exn} (h : violation action = .ok none)
    (hc : content action = .error e) (rest : List Action) :
    (auditActions violation content j (action :: rest)).run = .ret (.error e) := by
  rw [auditActions, run_bind, auditAction, h, hc]
  rfl

theorem auditActions_passed {action : Action} (h : violation action = .ok none)
    (hc : content action = .ok ()) (rest : List Action) :
    (auditActions violation content j (action :: rest)).run =
      (auditActions violation content j rest).run := by
  rw [auditActions, run_bind, auditAction, h, hc]
  rfl

/-- An action that does not violate the policy is passed, or ends the loop; nothing is
logged. -/
theorem auditActions_unbroken {action : Action} (h : ¬ Breaks violation action)
    (rest : List Action) :
    (¬ Stops violation content action ∧
      (auditActions violation content j (action :: rest)).run =
        (auditActions violation content j rest).run) ∨
    (Stops violation content action ∧
      ∃ e, (auditActions violation content j (action :: rest)).run = .ret (.error e)) := by
  rcases hv : violation action with e | _ | message
  · exact .inr ⟨.inl ⟨e, hv⟩, e, auditActions_raised hv rest⟩
  · rcases hc : content action with e | ⟨⟩
    · exact .inr ⟨.inr (by rw [hc]; simp), e, auditActions_refused hv hc rest⟩
    · refine .inl ⟨?_, auditActions_passed hv hc rest⟩
      rintro (⟨e, he⟩ | hne)
      · rw [hv] at he
        exact absurd he (by simp)
      · exact hne hc
  · exact absurd ⟨message, hv⟩ h

/-- Actions that do not violate the policy are passed, or the first of them that does not
pass ends the loop. -/
theorem auditActions_clean {clean : List Action} (h : ∀ a ∈ clean, ¬ Breaks violation a)
    (rest : List Action) :
    ((∀ a ∈ clean, ¬ Stops violation content a) ∧
      (auditActions violation content j (clean ++ rest)).run =
        (auditActions violation content j rest).run) ∨
    ((∃ a ∈ clean, Stops violation content a) ∧
      ∃ e, (auditActions violation content j (clean ++ rest)).run = .ret (.error e)) := by
  induction clean with
  | nil => exact .inl ⟨by simp, rfl⟩
  | cons a clean ih =>
    rw [List.cons_append]
    rcases @auditActions_unbroken violation content j a (h a List.mem_cons_self) (clean ++ rest)
      with ⟨ha, hrun⟩ | ⟨ha, hrun⟩
    · rw [hrun]
      rcases ih fun b hb => h b (List.mem_cons_of_mem _ hb) with ⟨hall, hrun⟩ | ⟨⟨b, hb, hs⟩, hrun⟩
      · refine .inl ⟨fun b hb => ?_, hrun⟩
        rcases List.mem_cons.mp hb with rfl | hb
        · exact ha
        · exact hall b hb
      · exact .inr ⟨⟨b, List.mem_cons_of_mem _ hb, hs⟩, hrun⟩
    · exact .inr ⟨⟨a, List.mem_cons_self, ha⟩, hrun⟩

/-- A plan is accepted, that is the loop returns and has not done anything, if every
action keeps to the policy and no content is refused. -/
theorem auditActions_accepts (actions : List Action) :
    (auditActions violation content j actions).run = .ret (.ok ()) ↔
      ∀ a ∈ actions, violation a = .ok none ∧ content a = .ok () := by
  induction actions with
  | nil => exact ⟨fun _ => by simp, fun _ => rfl⟩
  | cons a rest ih =>
    rw [List.forall_mem_cons]
    rcases hv : violation a with e | _ | message
    · rw [auditActions_raised hv]
      simp
    · rcases hc : content a with e | ⟨⟩
      · rw [auditActions_refused hv hc]
        simp
      · rw [auditActions_passed hv hc, ih]
        simp
    · rw [auditActions_violation hv]
      simp

end Loop

/-- `validate_actions` is the loop for a disk without symbolic links. -/
theorem validateActions_eq (parts : Parts) (j : Uuid) (actions : List Action) :
    validateActions parts j actions =
      auditActions (policyViolation parts.base j) (contentCheck parts) j actions := by
  induction actions with
  | nil => rfl
  | cons a rest ih =>
    rw [validateActions, auditActions, ih]
    rfl

/-- `validate_actions` on any disk. -/
def validateActionsOn (parts : Parts) (view : DiskView) (j : Uuid) : List Action → Task Unit :=
  auditActions (policyViolationOn view) (contentCheck parts) j

theorem validateActionsOn_plain (parts : Parts) (j : Uuid) (actions : List Action) :
    validateActionsOn parts (.plain parts.base j) j actions = validateActions parts j actions := by
  rw [validateActionsOn, policyViolationOn_plain, validateActions_eq]

/-! ### Audited and final -/

section Audit

variable (parts : Parts) (view : DiskView) (j : Uuid) (actions : List Action)

/-- The plan violates the policy. -/
def Violates : Prop := ∃ a ∈ actions, Breaks (policyViolationOn view) a

/-- Before the first violation of the policy, a path check raises or a content is
refused. -/
def StoppedFirst : Prop :=
  ∃ a ∈ actions.takeWhile fun a => ¬ Breaks (policyViolationOn view) a,
    Stops (policyViolationOn view) (contentCheck parts) a

variable (t : ℕ) (e : Env) (before : View World Op Res)

/-- The check commits one event, a security alert of the job, and raises an exception
with status 403, which is not retried. -/
def Audited : Prop :=
  ∃ message after,
    runWith (exec parts.base) t [e] (validateActionsOn parts view j actions).run before =
      some (.error (.planValidation message 403 "FORBIDDEN_ACCESS"), after) ∧
    after.state.db.events = before.state.db.events ++
      [⟨before.state.db.nextEventId + e.skip, j, .securityAlert, message, e.now⟩] ∧
    LLMPlanRetryExecutor.feedbackFor parts
      (.planValidation message 403 "FORBIDDEN_ACCESS") = none

/-- The check ends without an operation, so that nothing is committed. -/
def Silent : Prop :=
  ∃ r, runWith (exec parts.base) t [] (validateActionsOn parts view j actions).run before =
    some (r, before)

variable {parts view j actions t e before}

theorem silent_of_run {r : Except Exn Unit}
    (h : (validateActionsOn parts view j actions).run = .ret r) :
    Silent parts view j actions t before := ⟨r, by rw [h]; rfl⟩

theorem not_audited_of_run {r : Except Exn Unit}
    (h : (validateActionsOn parts view j actions).run = .ret r) :
    ¬ Audited parts view j actions t e before := by
  rintro ⟨message, after, hrun, hevents, -⟩
  rw [h] at hrun
  obtain ⟨-, rfl⟩ := Prod.mk.inj (Option.some.inj hrun)
  have := congrArg List.length hevents
  rw [List.length_append, List.length_singleton] at this
  omega

theorem audited_of_run {message : String} {k : Res (.db (.logEvents j _)) → Prog Op Res _}
    (hfault : e.fault = none) (hjob : (before.state.db.job j).isSome)
    (h : (validateActionsOn parts view j actions).run =
      .call (.db (.logEvents j [(.securityAlert, message)])) k)
    (hk : ∀ u, k (.ok u) = .ret (.error (.planValidation message 403 "FORBIDDEN_ACCESS"))) :
    Audited parts view j actions t e before := by
  have hexec : exec parts.base e (.db (.logEvents j [(.securityAlert, message)])) before.state =
      some (.ok (), { before.state with
        db := before.state.db.log e.skip e.now j [(.securityAlert, message)] }) := by
    rw [exec, DbOp.exec, hfault]
    show Option.map _ (DbOp.run _ _ _ _ _) = _
    rw [DbOp.run, if_pos hjob]
    rfl
  refine ⟨message, before.push t (.db (.logEvents j [(.securityAlert, message)]))
    (.ok ()) { before.state with
    db := before.state.db.log e.skip e.now j [(.securityAlert, message)] }, ?_, rfl, rfl⟩
  rw [h, runWith, hexec]
  show runWith _ t [] (k (.ok ())) _ = _
  rw [hk]
  rfl

end Audit

end SecurityPolicyValidator

/-- The deployment with the static validation of `.scad` files, where `wordChar` are the
word characters of regular expressions. -/
def Parts.checked (parts : Parts) (wordChar : Char → Bool) : Parts :=
  { parts with scadValidate := ScadStaticValidator.validate wordChar }

@[simp] theorem Parts.checked_base (parts : Parts) (wordChar : Char → Bool) :
    (parts.checked wordChar).base = parts.base := by rw [Parts.checked]

@[simp] theorem Parts.checked_scadValidate (parts : Parts) (wordChar : Char → Bool) :
    (parts.checked wordChar).scadValidate = ScadStaticValidator.validate wordChar := by
  rw [Parts.checked]

namespace Sample

def checking : Parts := (parts []).checked Char.isAlphanum

/-- The content of the file is refused, the tool is not allowed. -/
def emptyThenTool : List Action := [.writeFile "part.scad" "", .runTool "rm" []]

end Sample

namespace Sample

def emptyFile : Exn :=
  .planValidation ("OpenSCAD static validation failed:\n" ++
    "- [SCAD_EMPTY_FILE] OpenSCAD content is empty or only whitespace.") 400 "VALIDATION_ERROR"

end Sample

end CliExecutionPlatform
