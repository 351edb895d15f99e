/-
A plan is read back from the response it was written in.

The JSON text of a plan is an array of objects, or an object with this array as its member
`plan`; white space and the spelling of the strings are free (`PlanText`).  Put into a
response with prose around it, it is found by the fence around it or by its brackets.

The end of a fenced block is the next fence, wherever it stands.  A plan that writes a
Markdown file with a code block has one in a string of its text: the text is cut there, and
what is left is not JSON.

* `PlanAction`, `Action.toJson`, `PlanText` — plans and their texts; `planText_dumps` —
  every plan has one;
* `readPlan_planText` — a text of a plan is read back as this plan;
* **`fenced_plan_read_iff`** — a fenced plan is read back exactly if its text has no fence
  in it;
* **`bare_plan_read`** — a plan without a fence is found by its brackets;
* `executed_wellFormed`, `unread_is_retried` — the parser in the retry loop: nothing is
  executed outside of the bounds of the schema, and a response that is not read is asked for
  again, unless it meets a limit of the interpreter.
-/
import CliExecutionPlatform.PlanParser
import CliExecutionPlatform.Retry

open JsonReader Regex
open JsonText (quote)

namespace CliExecutionPlatform

/-! ### Plans and their texts -/

/-- An instance of one of the action models: an action within the bounds of its schema. -/
structure PlanAction where
  action : Action
  wellFormed : action.WellFormed

def Action.toJson : Action → Json
  | .createDirectory path => .obj [("action", .str "CREATE_DIRECTORY"), ("path", .str path)]
  | .writeFile path content =>
    .obj [("action", .str "WRITE_FILE"), ("path", .str path), ("content", .str content)]
  | .runTool toolName args =>
    .obj [("action", .str "RUN_TOOL"), ("tool_name", .str toolName),
      ("args", .arr (args.map .str))]
  | .createArtifact path => .obj [("action", .str "CREATE_ARTIFACT"), ("path", .str path)]

def planArray (plan : List PlanAction) : Json := .arr (plan.map fun a => a.action.toJson)

/-- The encodings of a plan: as an array, or as an object with the member `plan`. -/
def PlanText (plan : List PlanAction) (text : List Char) : Prop :=
  Writes (planArray plan) text ∨ Writes (.obj [("plan", planArray plan)]) text

/-! ### One text of each plan -/

/-- The text of an array, as `json.dumps` separates its elements. -/
def dumpsList {α : Type} (text : α → List Char) : List α → List Char
  | [] => ['[', ']']
  | x :: xs => '[' :: (text x ++ ((xs.flatMap fun y => ',' :: ' ' :: text y) ++ [']']))

/-- The members of an object after the first one. -/
def dumpsMembers (members : List (String × List Char)) : List Char :=
  members.flatMap fun m => ',' :: ' ' :: (quote m.1 ++ ':' :: ' ' :: m.2)

def dumpsObject (key : String) (value : List Char) (members : List (String × List Char)) :
    List Char :=
  '\x7b' :: (quote key ++ ':' :: ' ' :: (value ++ (dumpsMembers members ++ ['\x7d'])))

def Action.dumps : Action → List Char
  | .createDirectory path =>
    dumpsObject "action" (quote "CREATE_DIRECTORY") [("path", quote path)]
  | .writeFile path content =>
    dumpsObject "action" (quote "WRITE_FILE") [("path", quote path), ("content", quote content)]
  | .runTool toolName args =>
    dumpsObject "action" (quote "RUN_TOOL")
      [("tool_name", quote toolName), ("args", dumpsList quote args)]
  | .createArtifact path => dumpsObject "action" (quote "CREATE_ARTIFACT") [("path", quote path)]

theorem blank_space : Blank [' '] := by
  intro c hc
  rw [List.mem_singleton.mp hc]
  rfl

theorem writes_dumpsList {α : Type} {json : α → Json} {text : α → List Char}
    (h : ∀ x, Writes (json x) (text x)) (xs : List α) :
    Writes (.arr (xs.map json)) (dumpsList text xs) := by
  have hitems : ∀ xs : List α,
      WritesItems (xs.map json) (xs.flatMap fun y => ',' :: ' ' :: text y) := by
    intro xs
    induction xs with
    | nil => rw [List.map_nil, WritesItems]; rfl
    | cons x xs ih =>
      rw [List.map_cons, WritesItems]
      exact ⟨[' '], text x, [], _, blank_space, h x, blank_nil, ih, by simp⟩
  cases xs with
  | nil =>
    rw [List.map_nil, Writes]
    exact ⟨[], blank_nil, rfl⟩
  | cons x xs =>
    rw [List.map_cons, Writes]
    exact ⟨[], text x, [], _, blank_nil, h x, blank_nil, hitems xs, by simp [dumpsList]⟩

theorem writesMembers_cons {key : String} {v : Json} {text : List Char}
    {ms : List (String × Json)} {members : List (String × List Char)} (hv : Writes v text)
    (hms : WritesMembers ms (dumpsMembers members)) :
    WritesMembers ((key, v) :: ms) (dumpsMembers ((key, text) :: members)) := by
  rw [WritesMembers]
  exact ⟨[' '], quote key, [], [' '], text, [], _, blank_space, quoted_quote key, blank_nil,
    blank_space, hv, blank_nil, hms, by simp [dumpsMembers]⟩

theorem writes_dumpsObject {key : String} {v : Json} {text : List Char}
    {ms : List (String × Json)} {members : List (String × List Char)} (hv : Writes v text)
    (hms : WritesMembers ms (dumpsMembers members)) :
    Writes (.obj ((key, v) :: ms)) (dumpsObject key text members) := by
  rw [Writes]
  exact ⟨[], quote key, [], [' '], text, [], _, blank_nil, quoted_quote key, blank_nil,
    blank_space, hv, blank_nil, hms, by simp [dumpsObject]⟩

theorem writesMembers_nil : WritesMembers [] (dumpsMembers []) := by
  rw [WritesMembers]
  rfl

theorem writes_quote (s : String) : Writes (.str s) (quote s) := by
  rw [Writes]
  exact quoted_quote s

theorem writes_action (a : Action) : Writes a.toJson a.dumps := by
  cases a with
  | createDirectory path =>
    exact writes_dumpsObject (writes_quote _)
      (writesMembers_cons (writes_quote _) writesMembers_nil)
  | writeFile path content =>
    exact writes_dumpsObject (writes_quote _) (writesMembers_cons (writes_quote _)
      (writesMembers_cons (writes_quote _) writesMembers_nil))
  | runTool toolName args =>
    exact writes_dumpsObject (writes_quote _) (writesMembers_cons (writes_quote _)
      (writesMembers_cons (writes_dumpsList writes_quote args) writesMembers_nil))
  | createArtifact path =>
    exact writes_dumpsObject (writes_quote _)
      (writesMembers_cons (writes_quote _) writesMembers_nil)

/-- `json.dumps` of the plan. -/
def planDumps (plan : List PlanAction) : List Char := dumpsList (fun a => a.action.dumps) plan

/-- Every plan has an encoding. -/
theorem planText_dumps (plan : List PlanAction) : PlanText plan (planDumps plan) := by
  left
  apply writes_dumpsList
  intro a
  exact writes_action a.action

/-! ### Reading a text back -/

theorem listField_strField (args : List String) :
    listField strField (.arr (args.map .str)) = .ok args := by
  refine listField_eq_ok.mpr ⟨_, rfl, ?_⟩
  rw [List.forall₂_map_left_iff, List.forall₂_same]
  intro s _
  rfl

/-- The schema accepts what an action is written as. -/
theorem actionType_toJson (tagText : Json → String) (a : PlanAction) :
    actionType tagText a.action.toJson = .ok a.action := by
  obtain ⟨a, ha⟩ := a
  cases a with
  | createDirectory path =>
    have hpath : path ≠ "" := ha
    simp [Action.toJson, actionType, member, taggedAction, createDirectoryAction, required,
      nonEmptyStrField, hpath, Except.map]
  | writeFile path content =>
    have hpath : path ≠ "" := ha
    simp [Action.toJson, actionType, member, taggedAction, writeFileAction, required,
      nonEmptyStrField, strField, hpath, Validated.both]
  | runTool toolName args =>
    have hname : toolName ≠ "" := ha
    simp [Action.toJson, actionType, member, taggedAction, runToolAction, required, optional,
      nonEmptyStrField, listField_strField, hname, Validated.both]
  | createArtifact path =>
    have hpath : path ≠ "" := ha
    simp [Action.toJson, actionType, member, taggedAction, createArtifactAction, required,
      nonEmptyStrField, hpath, Except.map]

theorem actionPlan_planArray (tagText : Json → String) (plan : List PlanAction) :
    actionPlan tagText [("plan", planArray plan)] = .ok (plan.map PlanAction.action) := by
  have hlist : listField (actionType tagText) (planArray plan) =
      .ok (plan.map PlanAction.action) := by
    refine listField_eq_ok.mpr ⟨_, rfl, ?_⟩
    rw [List.forall₂_map_left_iff, List.forall₂_map_right_iff, List.forall₂_same]
    intro a _
    exact actionType_toJson tagText a
  rw [actionPlan, required]
  simp only [member, List.reverse_cons, List.reverse_nil, List.nil_append, List.find?_cons,
    decide_true, Option.map_some]
  rw [hlist, Validated.within_ok]

/-- A plan has no numbers, and at most four containers are in each other. -/
theorem within_planArray (plan : List PlanAction) {depth : ℕ} (hdepth : 3 ≤ depth) :
    within depth (planArray plan) = true := by
  have hstrings : ∀ {n : ℕ} (args : List String), withinItems n (args.map .str) = true := by
    intro n args
    refine withinItems_iff.mpr fun v hv => ?_
    obtain ⟨s, -, rfl⟩ := List.mem_map.mp hv
    rfl
  have haction : ∀ {n : ℕ} (a : Action), 2 ≤ n → within n a.toJson = true := by
    intro n a hn
    have hpos : 0 < n := by omega
    have hpos' : 0 < n - 1 := by omega
    cases a <;>
      simp [Action.toJson, within, withinMembers, hpos, hpos', hstrings]
  rw [planArray, within, decide_eq_true_eq]
  refine ⟨by omega, withinItems_iff.mpr fun v hv => ?_⟩
  obtain ⟨a, -, rfl⟩ := List.mem_map.mp hv
  exact haction a.action (by omega)

theorem within_plan (plan : List PlanAction) (interpreter : Interpreter) :
    within interpreter.maxDepth (planArray plan) = true ∧
      within interpreter.maxDepth (.obj [("plan", planArray plan)]) = true := by
  have hdeep := interpreter.deep
  refine ⟨within_planArray plan (by omega), ?_⟩
  have hinner := within_planArray plan (show 3 ≤ interpreter.maxDepth - 1 by omega)
  simp only [within, withinMembers, hinner, decide_true, and_true, decide_eq_true_eq]
  omega

/-- Every text of a plan is read back as this plan. -/
theorem readPlan_planText {plan : List PlanAction} {t : List Char} (h : PlanText plan t)
    (reports : Reports) (text : String) :
    readPlan reports text t = .ok (plan.map PlanAction.action) := by
  obtain ⟨harr, hobj⟩ := within_plan plan reports.interpreter
  rcases h with h | h
  · rw [readPlan, loads_of_writes h rfl harr]
    show (actionPlan reports.tagText [("plan", planArray plan)]).mapError validationError = _
    rw [actionPlan_planArray]
    rfl
  · rw [readPlan, loads_of_writes h rfl hobj]
    show (actionPlan reports.tagText [("plan", planArray plan)]).mapError validationError = _
    rw [actionPlan_planArray]
    rfl

theorem loads_planText {plan : List PlanAction} {t : List Char} (h : PlanText plan t)
    (interpreter : Interpreter) : ∃ v, loads interpreter t = .ok v := by
  obtain ⟨harr, hobj⟩ := within_plan plan interpreter
  rcases h with h | h
  · exact ⟨_, loads_of_writes h rfl harr⟩
  · exact ⟨_, loads_of_writes h rfl hobj⟩

/-! ### The ends of a text -/

theorem ends_of_writes_arr {vs : List Json} {t : List Char} (h : Writes (.arr vs) t) :
    ∃ mid, t = '[' :: (mid ++ [']']) := by
  cases vs with
  | nil =>
    rw [Writes] at h
    obtain ⟨ws, -, rfl⟩ := h
    exact ⟨ws, rfl⟩
  | cons v vs =>
    rw [Writes] at h
    obtain ⟨a, s, b, u, -, -, -, -, rfl⟩ := h
    exact ⟨a ++ s ++ b ++ u, rfl⟩

theorem not_mem_of_blank {ws : List Char} (h : Blank ws) {c : Char} (hc : isBlank c = false) :
    c ∉ ws := by
  intro hmem
  rw [h c hmem] at hc
  exact absurd hc (by simp)

/-- The text of the array in a text of a plan: it is the part between the first opening and
the last closing bracket. -/
theorem PlanText.array {plan : List PlanAction} {t : List Char} (h : PlanText plan t) :
    ∃ pre s post, t = pre ++ (s ++ post) ∧ '[' ∉ pre ∧ ']' ∉ post ∧
      Writes (planArray plan) s := by
  rcases h with h | h
  · exact ⟨[], t, [], by simp, by simp, by simp, h⟩
  · rw [Writes] at h
    obtain ⟨a, q, b, c, s, d, u, ha, hq, hb, hc, hs, hd, hu, rfl⟩ := h
    rw [WritesMembers] at hu
    subst hu
    have hplan : '[' ∉ q := not_mem_quoted hq (by decide)
    have ha' := not_mem_of_blank ha (c := '[') rfl
    have hb' := not_mem_of_blank hb (c := '[') rfl
    have hc' := not_mem_of_blank hc (c := '[') rfl
    have hd' := not_mem_of_blank hd (c := ']') rfl
    exact ⟨'\x7b' :: (a ++ q ++ b ++ ':' :: c), s, d ++ ['\x7d'], by simp,
      by simp [ha', hplan, hb', hc'], by simp [hd'], hs⟩

/-- A text of a plan starts with an opening bracket and ends with a closing one. -/
theorem PlanText.ends {plan : List PlanAction} {t : List Char} (h : PlanText plan t) :
    ∃ c mid d, t = c :: (mid ++ [d]) ∧ (c = '[' ∨ c = '\x7b') ∧ (d = ']' ∨ d = '\x7d') := by
  rcases h with h | h
  · obtain ⟨mid, hmid⟩ := ends_of_writes_arr h
    exact ⟨'[', mid, ']', hmid, .inl rfl, .inl rfl⟩
  · rw [Writes] at h
    obtain ⟨a, q, b, c, s, d, u, -, -, -, -, -, -, -, rfl⟩ := h
    exact ⟨'\x7b', a ++ q ++ b ++ ':' :: (c ++ s ++ d ++ u), '\x7d', by simp, .inr rfl, .inr rfl⟩

/-! ### Fenced plans -/

/-- A plan in a block fenced as `json`, with prose around the block. -/
def fencedResponse (before ws t ws' after : String) : String :=
  before ++ "```json" ++ ws ++ t ++ ws' ++ "```" ++ after

def HasFence (text : String) : Prop := "```".toList <:+: text.toList

instance (text : String) : Decidable (HasFence text) :=
  inferInstanceAs (Decidable ("```".toList <:+: text.toList))

def Spaces (ws : String) : Prop := ∀ c ∈ ws.toList, isSpace c = true

instance (ws : String) : Decidable (Spaces ws) :=
  List.decidableBAll (fun c => isSpace c = true) ws.toList

theorem toList_fencedResponse (before ws t ws' after : String) :
    (fencedResponse before ws t ws' after).toList = before.toList ++ ("```json".toList ++
      (ws.toList ++ (t.toList ++ (ws'.toList ++ ("```".toList ++ after.toList))))) := by
  simp only [fencedResponse, String.toList_append, List.append_assoc]

theorem head_fence : ∃ c cs, "```".toList = c :: cs ∧ isSpace c = false :=
  ⟨'\x60', ['\x60', '\x60'], toList_fence, by decide⟩

/-- What is cut out of a fenced response, if the block starts with a text `c :: l` before
the first fence in it. -/
theorem jsonText_fenced {before ws l after : List Char} {c : Char}
    (hbefore : ¬ "```".toList <:+: before) (hws : ∀ d ∈ ws, isSpace d = true)
    (hc : isSpace c = false) (hfirst : NotWithin "```".toList (c :: l) ("```".toList ++ after)) :
    jsonText (before ++ ("```json".toList ++ (ws ++ (c :: l ++ ("```".toList ++ after))))) =
      some (c :: l.rdropWhile isSpace) := by
  have hbody : NotWithin "```".toList (ws ++ c :: l) ("```".toList ++ after) :=
    (notWithin_class head_fence hws _).append hfirst
  obtain ⟨m, hm, hgroups⟩ := search_fenced hbefore hbody
  rw [List.append_assoc] at hm
  rw [jsonText, hm]
  show m.groups.head?.map (trim isSpace) = _
  -- stripping once more changes nothing
  have htrim : trim isSpace (c :: l.rdropWhile isSpace) = c :: l.rdropWhile isSpace := by
    have h := trim_append_cons (List.forall_mem_nil _) hc (l.rdropWhile isSpace)
    rwa [List.nil_append, List.rdropWhile_idempotent] at h
  rw [hgroups, List.head?_cons, Option.map_some, trim_append_cons hws hc, htrim]

theorem bracket_not_space {c : Char} (hc : c = '[' ∨ c = '\x7b') : isSpace c = false := by
  rcases hc with rfl | rfl <;> decide

theorem closing_not_space {d : Char} (hd : d = ']' ∨ d = '\x7d') :
    isSpace d = false ∧ d ∉ "```".toList := by
  rcases hd with rfl | rfl <;> decide

section Fenced

variable {plan : List PlanAction} {before ws t ws' after : String}

/-- Without a fence in the text of the plan, the block ends behind it. -/
theorem parse_fenced (reports : Reports) (ht : PlanText plan t.toList)
    (hbefore : ¬ HasFence before) (hws : Spaces ws) (hws' : Spaces ws') (hno : ¬ HasFence t) :
    parseActionPlan reports (fencedResponse before ws t ws' after) =
      .ok (plan.map PlanAction.action) := by
  obtain ⟨c, mid, d, heq, hc, hd⟩ := ht.ends
  have hspace := bracket_not_space hc
  obtain ⟨hlast, hfence⟩ := closing_not_space hd
  have hfirst : NotWithin "```".toList (c :: (mid ++ [d] ++ ws'.toList))
      ("```".toList ++ after.toList) := by
    have hinit : ¬ "```".toList <:+: c :: mid ++ [d] := by
      rw [List.cons_append, ← heq]
      exact hno
    have := (notWithin_of_last hinit hfence (ws'.toList ++ ("```".toList ++ after.toList))).append
      (notWithin_class head_fence hws' _)
    simpa only [List.cons_append, List.append_assoc] using this
  have hjson : jsonText (fencedResponse before ws t ws' after).toList = some t.toList := by
    have hcut := jsonText_fenced hbefore hws hspace hfirst
    rw [rdropWhile_append_class hws', List.rdropWhile_concat_neg _ _ _ (by simp [hlast])] at hcut
    rw [toList_fencedResponse, heq, ← hcut]
    simp only [List.cons_append, List.append_assoc]
  rw [parseActionPlan_of_jsonText hjson (by rw [heq]; simp)]
  exact readPlan_planText ht reports _

/-- White space ends a word. -/
theorem isTokenChar_of_isSpace {c : Char} (h : isSpace c = true) : isTokenChar c = false := by
  simp only [isSpace, decide_eq_true_eq] at h
  rcases h with h | ⟨hlow, -⟩
  · have hno := (List.all_eq_true (p := fun c => !isTokenChar c)).mp (by decide) c h
    simpa using hno
  · have hlow' : 0x2000 ≤ c.val.toNat := UInt32.le_iff_toNat_le.mp hlow
    rw [Bool.eq_false_iff]
    intro htoken
    have hunfold : c.isAlphanum = ((decide ('A' ≤ c ∧ c ≤ 'Z') ||
        (decide ('a' ≤ c) && decide (c ≤ 'z'))) || (decide ('0' ≤ c) && decide (c ≤ '9'))) := rfl
    simp only [isTokenChar, hunfold, Bool.or_eq_true, Bool.and_eq_true, decide_eq_true_eq,
      List.mem_cons, List.not_mem_nil, or_false, Char.le_def, UInt32.le_iff_toNat_le] at htoken
    rcases htoken with ((⟨-, h⟩ | ⟨-, h⟩) | ⟨-, h⟩) | rfl | rfl | rfl
    · exact absurd (hlow'.trans h) (by decide)
    · exact absurd (hlow'.trans h) (by decide)
    · exact absurd (hlow'.trans h) (by decide)
    · exact absurd hlow' (by decide)
    · exact absurd hlow' (by decide)
    · exact absurd hlow' (by decide)

/-- A fence in the text of the plan ends the block, and what stands before it is not the
text of a value. -/
theorem parse_fenced_cut (reports : Reports) (ws' after : String) (ht : PlanText plan t.toList)
    (hbefore : ¬ HasFence before) (hws : Spaces ws) (hfence : HasFence t) :
    ∃ position, parseActionPlan reports (fencedResponse before ws t ws' after) =
      .error (.planRetryable
        "Failed to parse LLM response as a valid Action Plan JSON. Syntax error."
        (fencedResponse before ws t ws' after) (some position)) := by
  obtain ⟨c, mid, d, heq, hc, hd⟩ := ht.ends
  have hspace := bracket_not_space hc
  obtain ⟨pre, post, hocc, hfirst⟩ := exists_first_occurrence hfence
  -- the text starts with a bracket, so there is something before the fence
  obtain ⟨l, rfl⟩ : ∃ l, pre = c :: l := by
    cases pre with
    | nil =>
      rw [heq, toList_fence] at hocc
      rcases hc with rfl | rfl <;> exact absurd (List.cons.inj hocc).1 (by decide)
    | cons e l =>
      rw [heq] at hocc
      exact ⟨l, by rw [(List.cons.inj hocc).1]⟩
  have hjson : jsonText (fencedResponse before ws t ws' after).toList =
      some (c :: l.rdropWhile isSpace) := by
    have hcut := jsonText_fenced hbefore hws hspace
      (hfirst.extend (ws'.toList ++ ("```".toList ++ after.toList)))
    rw [toList_fencedResponse, hocc, ← hcut]
    simp only [List.cons_append, List.append_assoc]
  have hrest : t.toList =
      c :: l.rdropWhile isSpace ++ (l.rtakeWhile isSpace ++ ("```".toList ++ post)) := by
    rw [hocc, List.cons_append, List.cons_append, ← List.append_assoc (l.rdropWhile _),
      rdropWhile_append_rtakeWhile]
  obtain ⟨w, hw⟩ := loads_planText ht reports.interpreter
  rw [hrest] at hw
  -- were it the text of a value, only white space could follow
  have hvalue : ∀ v, loads reports.interpreter (c :: l.rdropWhile isSpace) ≠ .ok v := by
    intro v hv
    have hblank := blank_of_read_append hc (loads_eq_ok.mp hv).1 (loads_eq_ok.mp hw).1 '\x60'
      (by simp [toList_fence])
    exact absurd hblank (by decide)
  -- no limit of the interpreter is met before the white space or the fence that follows
  have hnone : loads reports.interpreter (c :: l.rdropWhile isSpace) = .error .decode := by
    obtain ⟨d, more, hd, htoken⟩ : ∃ d more,
        l.rtakeWhile isSpace ++ ("```".toList ++ post) = d :: more ∧ isTokenChar d = false := by
      rcases hspaces : l.rtakeWhile isSpace with _ | ⟨d, ds⟩
      · exact ⟨'\x60', _, by rw [toList_fence]; rfl, by decide⟩
      · refine ⟨d, _, rfl, isTokenChar_of_isSpace ?_⟩
        have hmem : d ∈ l.rtakeWhile isSpace := by rw [hspaces]; exact List.mem_cons_self
        exact List.mem_rtakeWhile_imp hmem
    rw [hd] at hw
    rcases loads_prefix hw htoken with hdecode | ⟨v, hv⟩
    · exact hdecode
    · exact absurd hv (hvalue v)
  refine ⟨errorPosition (reports.position (c :: l.rdropWhile isSpace)), ?_⟩
  rw [parseActionPlan_of_jsonText hjson (by simp), readPlan, hnone]

/-- **A fenced plan is read back** exactly if its text has no fence in it. -/
theorem fenced_plan_read_iff (reports : Reports) (ht : PlanText plan t.toList)
    (hbefore : ¬ HasFence before) (hws : Spaces ws) (hws' : Spaces ws') :
    parseActionPlan reports (fencedResponse before ws t ws' after) =
      .ok (plan.map PlanAction.action) ↔ ¬ HasFence t := by
  constructor
  · intro hread hfence
    obtain ⟨position, hcut⟩ := parse_fenced_cut reports ws' after ht hbefore hws hfence
    rw [hread] at hcut
    exact absurd hcut (by simp)
  · exact parse_fenced reports ht hbefore hws hws'

end Fenced

namespace Sample

def reports : Reports where
  position := fun _ => (1, 1)
  tagText := fun _ => ""
  interpreter := ⟨1000, by decide⟩

/-- A directory, and the render of a model. -/
def smallPlan : List PlanAction :=
  [⟨.createDirectory "out", by decide⟩, ⟨.runTool "openscad" ["-o", "out/a.stl"], by decide⟩]

def smallText : String :=
  "[\x7b\"action\": \"CREATE_DIRECTORY\", \"path\": \"out\"\x7d, " ++
    "\x7b\"action\": \"RUN_TOOL\", \"tool_name\": \"openscad\", " ++
    "\"args\": [\"-o\", \"out/a.stl\"]\x7d]"

/-- A design document with a code block in it. -/
def markdownPlan : List PlanAction :=
  [⟨.writeFile "design-spec.md" "```scad\ncube(1);\n```\n", by decide⟩]

def markdownText : String :=
  "[\x7b\"action\": \"WRITE_FILE\", \"path\": \"design-spec.md\", " ++
    "\"content\": \"```scad\\ncube(1);\\n```\\n\"\x7d]"

theorem planText_small : PlanText smallPlan smallText.toList := by
  have hdumps : smallText.toList = planDumps smallPlan := by decide +kernel
  rw [hdumps]
  exact planText_dumps smallPlan

theorem planText_markdown : PlanText markdownPlan markdownText.toList := by
  have hdumps : markdownText.toList = planDumps markdownPlan := by decide +kernel
  rw [hdumps]
  exact planText_dumps markdownPlan

end Sample

theorem fenced_plan_sample :
    parseActionPlan Sample.reports
        (fencedResponse "Here is the plan:\n" "\n" Sample.smallText "\n" "\nDone.") =
      .ok [.createDirectory "out", .runTool "openscad" ["-o", "out/a.stl"]] :=
  (fenced_plan_read_iff Sample.reports Sample.planText_small
    (show ¬ HasFence "Here is the plan:\n" by decide +kernel) (show Spaces "\n" by decide)
    (show Spaces "\n" by decide)).mpr (by decide +kernel)

/-- The plan with a design document in it is not read back. -/
theorem markdown_plan_cut :
    parseActionPlan Sample.reports (fencedResponse "" "\n" Sample.markdownText "\n" "") ≠
      .ok (Sample.markdownPlan.map PlanAction.action) := by
  obtain ⟨position, hcut⟩ := parse_fenced_cut Sample.reports "\n" "" Sample.planText_markdown
    (show ¬ HasFence "" by decide) (show Spaces "\n" by decide) (by decide +kernel)
  rw [hcut]
  simp

/-! ### Bare plans -/

/-- **A plan without a fence** is found by its brackets, whatever brackets are in its
strings: the first opening one is that of the array, and the last closing one. -/
theorem bare_plan_read {plan : List PlanAction} {before t after : String} (reports : Reports)
    (ht : PlanText plan t.toList) (hbefore : '[' ∉ before.toList) (hafter : ']' ∉ after.toList)
    (hblock : search jsonBlockPattern (before ++ t ++ after).toList = none) :
    parseActionPlan reports (before ++ t ++ after) = .ok (plan.map PlanAction.action) := by
  obtain ⟨pre, s, post, heq, hpre, hpost, hs⟩ := ht.array
  obtain ⟨mid, rfl⟩ := ends_of_writes_arr hs
  have htext : (before ++ t ++ after).toList =
      before.toList ++ pre ++ ('[' :: (mid ++ [']']) ++ (post ++ after.toList)) := by
    rw [String.toList_append, String.toList_append, heq]
    simp only [List.append_assoc]
  have hcut : bracketed (before ++ t ++ after).toList = some ('[' :: (mid ++ [']'])) := by
    rw [htext]
    apply bracketed_between
    · simp [hbefore, hpre]
    · simp [hpost, hafter]
  have htrim : trim isSpace ('[' :: (mid ++ [']'])) = '[' :: (mid ++ [']']) := by
    have h := trim_append_cons (List.forall_mem_nil _) (show isSpace '[' = false by decide)
      (mid ++ [']'])
    rwa [List.nil_append, List.rdropWhile_concat_neg _ _ _ (by decide)] at h
  have hjson : jsonText (before ++ t ++ after).toList = some ('[' :: (mid ++ [']'])) := by
    rw [jsonText, hblock]
    show (bracketed _).map (trim isSpace) = _
    rw [hcut, Option.map_some, htrim]
  rw [parseActionPlan_of_jsonText hjson (by simp)]
  exact readPlan_planText (.inl hs) reports _

theorem bare_plan_sample :
    parseActionPlan Sample.reports ("Plan: " ++ Sample.markdownText ++ " (done)") =
      .ok [.writeFile "design-spec.md" "```scad\ncube(1);\n```\n"] :=
  bare_plan_read Sample.reports Sample.planText_markdown
    (show '[' ∉ "Plan: ".toList by decide) (show ']' ∉ " (done)".toList by decide)
    (by decide +kernel)

/-! ### The parser in the retry loop -/

section Loop

open LLMPlanRetryExecutor

variable {parts : Parts} {reports : Reports} (hparse : parts.parse = parseActionPlan reports)
include hparse

theorem executed_wellFormed {script : ℕ → Attempt} {i k : ℕ} {r : LLMRequest}
    {actions : List Action} (h : (i, Request.execute actions) ∈ roundCalls parts script k r) :
    ∀ a ∈ actions, a.WellFormed := by
  obtain ⟨-, response, -, hread, -⟩ := mem_roundCalls_execute parts script h
  rw [hparse] at hread
  exact parseActionPlan_wellFormed hread

/-- What the parser raises is an exception that the loop retries, unless it comes from a limit
of the interpreter. -/
theorem unread_is_retried {attempt : Attempt} {text : String} {e : Exn}
    (hresponse : attempt.response = .ok text) (h : parseActionPlan reports text = .error e) :
    attempt.outcome parts = .error e ∧ ((feedbackFor parts e).isSome = true ∨
      ∃ detail, e = .value detail ∨ e = .recursion detail) := by
  constructor
  · rw [Attempt.outcome, hresponse, hparse]
    show (parseActionPlan reports text >>= _) = _
    rw [h]
    rfl
  · rcases parseActionPlan_cases reports text with
      ⟨_, _, herr⟩ | ⟨_, herr⟩ | ⟨detail, herr⟩ | ⟨_, _, -, hok⟩
    · obtain rfl := Except.error.inj (herr.symm.trans h)
      exact .inl rfl
    · obtain rfl := Except.error.inj (herr.symm.trans h)
      exact .inl rfl
    · refine .inr ⟨detail, ?_⟩
      rcases herr with herr | herr
      · exact .inl (Except.error.inj (h.symm.trans herr))
      · exact .inr (Except.error.inj (h.symm.trans herr))
    · rw [hok] at h
      exact absurd h (by simp)

end Loop

end CliExecutionPlatform
