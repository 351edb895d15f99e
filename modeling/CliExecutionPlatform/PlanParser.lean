/-
Reading an action plan from the text of a model.

The parser cuts a JSON text out of the response: the first block fenced as `json`, and
without such a block what stands between the first opening and the last closing square
bracket.  The text is read, an array is taken for the `plan` of an object, and the schema
of the plan is checked.  The check goes on after an issue: it reports every issue, each with
the place where it was found.  What `json.loads` raises at a limit of the interpreter is not
caught.

* `Validated` — a checked value or all of its issues; `actionType`, `actionPlan` — the
  schema;
* `jsonBlockPattern`, `jsonText` — what is cut out of a response;
* `parseActionPlan` — the parser;
* `parseActionPlan_cases` — how the parser ends; `parseActionPlan_wellFormed` — what it
  accepts keeps the bounds of the schema;
* `bracketed_between`, `search_fenced` — what is cut out of a text with one plan in it.
-/
import CliExecutionPlatform.JsonLoads
import CliExecutionPlatform.Models
import CliExecutionPlatform.Regex

open JsonReader Regex

namespace CliExecutionPlatform

/-! ### Checked values -/

/-- What is wrong with an input, and where. -/
structure Issue where
  loc : List String
  msg : String
  deriving DecidableEq

/-- A value that has passed a check, or everything that is wrong with the input. -/
abbrev Validated (α : Type) := Except (List Issue) α

namespace Validated

variable {α β γ : Type}

def issue (msg : String) : Validated α := .error [⟨[], msg⟩]

/-- Both checks are made, and the issues of both are reported. -/
def both (f : α → β → γ) : Validated α → Validated β → Validated γ
  | .ok a, .ok b => .ok (f a b)
  | .ok _, .error issues => .error issues
  | .error issues, .ok _ => .error issues
  | .error issues, .error issues' => .error (issues ++ issues')

def collect : List (Validated α) → Validated (List α)
  | [] => .ok []
  | v :: vs => both List.cons v (collect vs)

/-- The issues are below the given place. -/
def within (place : String) : Validated α → Validated α
  | .ok a => .ok a
  | .error issues => .error (issues.map fun i => { i with loc := place :: i.loc })

theorem both_eq_ok {f : α → β → γ} {v : Validated α} {w : Validated β} {c : γ} :
    both f v w = .ok c ↔ ∃ a b, v = .ok a ∧ w = .ok b ∧ f a b = c := by
  cases v <;> cases w <;> simp [both]

@[simp] theorem within_ok (place : String) (a : α) : within place (.ok a) = .ok a := rfl

theorem within_eq_ok {place : String} {v : Validated α} {a : α} :
    within place v = .ok a ↔ v = .ok a := by
  cases v <;> simp [within]

theorem collect_eq_ok {vs : List (Validated α)} {as : List α} :
    collect vs = .ok as ↔ List.Forall₂ (fun v a => v = .ok a) vs as := by
  induction vs generalizing as with
  | nil => cases as <;> simp [collect]
  | cons v vs ih =>
    rw [collect, both_eq_ok]
    cases as with
    | nil => simp
    | cons a as =>
      rw [List.forall₂_cons]
      constructor
      · rintro ⟨b, bs, hb, hbs, heq⟩
        obtain ⟨rfl, rfl⟩ := List.cons.inj heq
        exact ⟨hb, ih.mp hbs⟩
      · rintro ⟨ha, has⟩
        exact ⟨a, as, ha, ih.mpr has, rfl⟩

end Validated

/-! ### The schema -/

section Schema

open Validated

variable {α : Type}

/-- The value of a key; of several members with one key the last one counts. -/
def member (members : List (String × Json)) (key : String) : Option Json :=
  (members.reverse.find? fun m => m.1 = key).map Prod.snd

/-- What is wrong with a value that is not a text. -/
def notText {α : Type} : Json → Validated α
  | .unpaired =>
    issue "Input should be a valid string, unable to parse raw data as a unicode string"
  | _ => issue "Input should be a valid string"

def strField : Json → Validated String
  | .str s => .ok s
  | v => notText v

/-- A `str` with `min_length=1`. -/
def nonEmptyStrField : Json → Validated String
  | .str s => if s = "" then issue "String should have at least 1 character" else .ok s
  | v => notText v

def listField (item : Json → Validated α) : Json → Validated (List α)
  | .arr vs => collect (vs.mapIdx fun i v => within (toString i) (item v))
  | _ => issue "Input should be a valid list"

def required (members : List (String × Json)) (key : String) (field : Json → Validated α) :
    Validated α :=
  within key (match member members key with
    | none => issue "Field required"
    | some v => field v)

/-- A field with a default. -/
def optional (members : List (String × Json)) (key : String) (default : α)
    (field : Json → Validated α) : Validated α :=
  match member members key with
  | none => .ok default
  | some v => within key (field v)

def createDirectoryAction (members : List (String × Json)) : Validated Action :=
  (required members "path" nonEmptyStrField).map .createDirectory

def writeFileAction (members : List (String × Json)) : Validated Action :=
  both .writeFile (required members "path" nonEmptyStrField) (required members "content" strField)

def runToolAction (members : List (String × Json)) : Validated Action :=
  both .runTool (required members "tool_name" nonEmptyStrField)
    (optional members "args" [] (listField strField))

def createArtifactAction (members : List (String × Json)) : Validated Action :=
  (required members "path" nonEmptyStrField).map .createArtifact

def unknownTag (tag : String) : Validated Action :=
  issue ("Input tag '" ++ tag ++ "' found using 'action' does not match any of the expected " ++
    "tags: 'CREATE_DIRECTORY', 'WRITE_FILE', 'RUN_TOOL', 'CREATE_ARTIFACT'")

/-- The member of the union that the tag selects. -/
def taggedAction (members : List (String × Json)) (tag : String) : Validated Action :=
  if tag = "CREATE_DIRECTORY" then within tag (createDirectoryAction members)
  else if tag = "WRITE_FILE" then within tag (writeFileAction members)
  else if tag = "RUN_TOOL" then within tag (runToolAction members)
  else if tag = "CREATE_ARTIFACT" then within tag (createArtifactAction members)
  else unknownTag tag

/-- `ActionType`.  `tagText` is the text of a tag that is not a string. -/
def actionType (tagText : Json → String) : Json → Validated Action
  | .obj members =>
    match member members "action" with
    | none => issue "Unable to extract tag using discriminator 'action'"
    | some (.str tag) => taggedAction members tag
    | some tag => unknownTag (tagText tag)
  | _ => issue "Input should be a valid dictionary or object to extract fields from"

/-- `ActionPlan.model_validate(plan_data)`, and the plan of the result. -/
def actionPlan (tagText : Json → String) (planData : List (String × Json)) :
    Validated (List Action) :=
  required planData "plan" (listField (actionType tagText))

end Schema

/-! ### The parser -/

/-- The pattern of a block fenced as `json`. -/
def jsonBlockPattern : Pattern Char :=
  .seq (word "```json".toList) (delimited isSpace "```".toList)

/-- `text.rfind(c)`. -/
def rfind (c : Char) (text : List Char) : Option ℕ :=
  (text.reverse.idxOf? c).map fun i => text.length - 1 - i

/-- What stands from the first opening to the last closing bracket. -/
def bracketed (text : List Char) : Option (List Char) :=
  match text.idxOf? '[', rfind ']' text with
  | some start, some stop =>
    if start < stop then some ((text.take (stop + 1)).drop start) else none
  | _, _ => none

/-- The text that is read as JSON. -/
def jsonText (text : List Char) : Option (List Char) :=
  match search jsonBlockPattern text with
  | some m => m.groups.head?.map (trim isSpace)
  | none => (bracketed text).map (trim isSpace)

/-- What the libraries say of an input, and the parser only passes on: the line and the
column where a text stops being JSON, and the text of a tag that is not a string.  The
interpreter has its limits for what is JSON. -/
structure Reports where
  position : List Char → ℕ × ℕ
  tagText : Json → String
  interpreter : Interpreter

def Issue.text (i : Issue) : String := "[" ++ " -> ".intercalate i.loc ++ "]: " ++ i.msg

def validationError (issues : List Issue) : Exn :=
  .planValidation ("Pydantic validation failed: " ++ "; ".intercalate (issues.map Issue.text)) 400
    "VALIDATION_ERROR"

/-- The checks of a value that has been read. -/
def validatePlan (reports : Reports) : Json → Except Exn (List Action)
  | .arr vs => (actionPlan reports.tagText [("plan", .arr vs)]).mapError validationError
  | .obj members => (actionPlan reports.tagText members).mapError validationError
  | _ => .error (.planValidation "Parsed JSON is not a valid list or dictionary structure." 400
      "VALIDATION_ERROR")

def errorPosition (position : ℕ × ℕ) : String :=
  "line " ++ toString position.1 ++ ", col " ++ toString position.2

/-- The text has been cut out; it is read and checked.  Of what `json.loads` raises only the
`JSONDecodeError` is caught. -/
def readPlan (reports : Reports) (text : String) (json : List Char) : Except Exn (List Action) :=
  match loads reports.interpreter json with
  | .error .decode => .error (.planRetryable
      "Failed to parse LLM response as a valid Action Plan JSON. Syntax error." text
      (some (errorPosition (reports.position json))))
  | .error (.digits n) => .error (.value (digitsMessage n))
  | .error (.recursion bracket) => .error (.recursion (recursionMessage bracket))
  | .ok v => validatePlan reports v

/-- `ActionPlanParser.parse_action_plan(text)`. -/
def parseActionPlan (reports : Reports) (text : String) : Except Exn (List Action) :=
  match jsonText text.toList with
  | none | some [] => .error (.planRetryable
      ("Failed to parse LLM response as a valid Action Plan JSON. " ++
        "No JSON block or array structure found.") text
      (some "Entire text search failed"))
  | some json => readPlan reports text json

theorem parseActionPlan_of_jsonText {reports : Reports} {text : String} {json : List Char}
    (h : jsonText text.toList = some json) (hne : json ≠ []) :
    parseActionPlan reports text = readPlan reports text json := by
  rw [parseActionPlan, h]
  cases json with
  | nil => exact absurd rfl hne
  | cons c cs => rfl

/-! ### What the parser accepts -/

/-- The bounds of the schema: a path and the name of a tool are not empty. -/
def Action.WellFormed : Action → Prop
  | .createDirectory path => path ≠ ""
  | .writeFile path _ => path ≠ ""
  | .runTool toolName _ => toolName ≠ ""
  | .createArtifact path => path ≠ ""

instance : DecidablePred Action.WellFormed := fun a => by
  cases a <;> exact inferInstanceAs (Decidable (_ ≠ _))

open Validated in
theorem ne_of_nonEmptyStrField {members : List (String × Json)} {key s : String}
    (h : required members key nonEmptyStrField = .ok s) : s ≠ "" := by
  rw [required, within_eq_ok] at h
  cases hmem : member members key with
  | none => simp [hmem, issue] at h
  | some v =>
    rw [hmem] at h
    cases v with
    | str t =>
      simp only [nonEmptyStrField] at h
      split at h
      · simp [issue] at h
      · intro hs
        obtain rfl := Except.ok.inj h
        contradiction
    | _ => simp [nonEmptyStrField, notText, issue] at h

open Validated in
theorem taggedAction_wellFormed {members : List (String × Json)} {tag : String} {a : Action}
    (h : taggedAction members tag = .ok a) : a.WellFormed := by
  -- The two actions that have a path and nothing else.
  have hmap : ∀ {key : String} {f : String → Action},
      within tag ((required members key nonEmptyStrField).map f) = .ok a →
      ∃ s, s ≠ "" ∧ f s = a := by
    intro key f hf
    rw [within_eq_ok] at hf
    cases hs : required members key nonEmptyStrField with
    | error issues => simp [hs, Except.map] at hf
    | ok s =>
      rw [hs] at hf
      exact ⟨s, ne_of_nonEmptyStrField hs, Except.ok.inj hf⟩
  unfold taggedAction at h
  split_ifs at h
  · obtain ⟨path, hpath, rfl⟩ := hmap h
    exact hpath
  · rw [within_eq_ok, writeFileAction, both_eq_ok] at h
    obtain ⟨path, content, hpath, -, rfl⟩ := h
    exact ne_of_nonEmptyStrField hpath
  · rw [within_eq_ok, runToolAction, both_eq_ok] at h
    obtain ⟨toolName, args, hname, -, rfl⟩ := h
    exact ne_of_nonEmptyStrField hname
  · obtain ⟨path, hpath, rfl⟩ := hmap h
    exact hpath
  · simp [unknownTag, issue] at h

open Validated in
/-- A list is accepted when each of its elements is. -/
theorem listField_eq_ok {α : Type} {item : Json → Validated α} {v : Json} {as : List α} :
    listField item v = .ok as ↔
      ∃ vs, v = .arr vs ∧ List.Forall₂ (fun w a => item w = .ok a) vs as := by
  cases v with
  | arr vs =>
    have hitems : List.Forall₂ (fun r a => r = .ok a)
        (vs.mapIdx fun i w => within (toString i) (item w)) as ↔
        List.Forall₂ (fun w a => item w = .ok a) vs as := by
      simp only [List.forall₂_iff_get, List.length_mapIdx, List.get_eq_getElem,
        List.getElem_mapIdx, within_eq_ok]
    rw [listField, collect_eq_ok, hitems]
    constructor
    · intro h
      exact ⟨vs, rfl, h⟩
    · rintro ⟨ws, heq, h⟩
      obtain rfl := Json.arr.inj heq
      exact h
  | _ => simp [listField, issue]

theorem actionType_wellFormed {tagText : Json → String} {v : Json} {a : Action}
    (h : actionType tagText v = .ok a) : a.WellFormed := by
  cases v with
  | obj members =>
    simp only [actionType] at h
    split at h
    · simp [Validated.issue] at h
    · exact taggedAction_wellFormed h
    · simp [unknownTag, Validated.issue] at h
  | _ => simp [actionType, Validated.issue] at h

theorem actionPlan_wellFormed {tagText : Json → String} {planData : List (String × Json)}
    {actions : List Action} (h : actionPlan tagText planData = .ok actions) :
    ∀ a ∈ actions, a.WellFormed := by
  rw [actionPlan, required, Validated.within_eq_ok] at h
  split at h
  · simp [Validated.issue] at h
  · obtain ⟨vs, -, hvs⟩ := listField_eq_ok.mp h
    rw [List.forall₂_iff_get] at hvs
    intro a ha
    obtain ⟨i, rfl⟩ := List.get_of_mem ha
    exact actionType_wellFormed (hvs.2 i (by omega) i.isLt)

/-- What a check of the schema leads to. -/
theorem mapError_actionPlan (tagText : Json → String) (planData : List (String × Json)) :
    (∃ message, (actionPlan tagText planData).mapError validationError =
      .error (.planValidation message 400 "VALIDATION_ERROR")) ∨
    ∃ plan, actionPlan tagText planData = .ok plan ∧
      (actionPlan tagText planData).mapError validationError = .ok plan := by
  cases hplan : actionPlan tagText planData with
  | error issues => exact .inl ⟨_, rfl⟩
  | ok plan => exact .inr ⟨plan, rfl, rfl⟩

/-- How the parser ends: a response that is not JSON is quoted, what is wrong with a plan is
reported as a bad request, never as a forbidden one, a limit of the interpreter is passed on,
and else the schema has accepted the plan. -/
theorem parseActionPlan_cases (reports : Reports) (text : String) :
    (∃ message position, parseActionPlan reports text =
      .error (.planRetryable message text (some position))) ∨
    (∃ message, parseActionPlan reports text =
      .error (.planValidation message 400 "VALIDATION_ERROR")) ∨
    (∃ detail, parseActionPlan reports text = .error (.value detail) ∨
      parseActionPlan reports text = .error (.recursion detail)) ∨
    ∃ planData plan, actionPlan reports.tagText planData = .ok plan ∧
      parseActionPlan reports text = .ok plan := by
  unfold parseActionPlan readPlan
  split
  · exact .inl ⟨_, _, rfl⟩
  · exact .inl ⟨_, _, rfl⟩
  · split
    · exact .inl ⟨_, _, rfl⟩
    · exact .inr (.inr (.inl ⟨_, .inl rfl⟩))
    · exact .inr (.inr (.inl ⟨_, .inr rfl⟩))
    · next v _ =>
      right
      cases v with
      | arr vs =>
        exact (mapError_actionPlan reports.tagText [("plan", .arr vs)]).imp_right
          fun h => .inr ⟨_, h⟩
      | obj members =>
        exact (mapError_actionPlan reports.tagText members).imp_right fun h => .inr ⟨_, h⟩
      | _ => exact .inl ⟨_, rfl⟩

/-- **What the parser accepts** is a plan within the bounds of the schema. -/
theorem parseActionPlan_wellFormed {reports : Reports} {text : String} {actions : List Action}
    (h : parseActionPlan reports text = .ok actions) : ∀ a ∈ actions, a.WellFormed := by
  rcases parseActionPlan_cases reports text with
    ⟨_, _, herr⟩ | ⟨_, herr⟩ | ⟨_, herr | herr⟩ | ⟨planData, plan, hplan, hok⟩
  · simp [herr] at h
  · simp [herr] at h
  · simp [herr] at h
  · simp [herr] at h
  · rw [hok] at h
    obtain rfl := Except.ok.inj h
    exact actionPlan_wellFormed hplan

/-! ### What is cut out of a response -/

theorem idxOf?_append_cons {c : Char} {pre : List Char} (h : c ∉ pre) (rest : List Char) :
    (pre ++ c :: rest).idxOf? c = some pre.length := by
  induction pre with
  | nil => simp [List.idxOf?_cons]
  | cons d pre ih =>
    rw [List.mem_cons, not_or] at h
    have hne : (d == c) = false := by simpa using Ne.symm h.1
    rw [List.cons_append, List.idxOf?_cons, hne, ih h.2]
    rfl

theorem rfind_append_cons {c : Char} {post : List Char} (h : c ∉ post) (rest : List Char) :
    rfind c (rest ++ c :: post) = some rest.length := by
  have hpost : c ∉ post.reverse := by simpa using h
  rw [rfind, List.reverse_append, List.reverse_cons, List.append_assoc, List.singleton_append,
    idxOf?_append_cons hpost]
  simp only [Option.map_some, List.length_append, List.length_cons, List.length_reverse]
  congr 1
  omega

/-- The brackets around a text are found, whatever brackets it holds. -/
theorem bracketed_between {pre post : List Char} (hpre : '[' ∉ pre) (hpost : ']' ∉ post)
    (mid : List Char) :
    bracketed (pre ++ ('[' :: (mid ++ [']']) ++ post)) = some ('[' :: (mid ++ [']'])) := by
  have hstart : (pre ++ ('[' :: (mid ++ [']']) ++ post)).idxOf? '[' = some pre.length :=
    idxOf?_append_cons hpre _
  have hstop : rfind ']' (pre ++ ('[' :: (mid ++ [']']) ++ post)) =
      some (pre ++ '[' :: mid).length := by
    rw [← rfind_append_cons hpost (pre ++ '[' :: mid)]
    simp
  have hlt : pre.length < (pre ++ '[' :: mid).length := by simp
  have hlen : (pre ++ '[' :: mid).length + 1 = (pre ++ '[' :: (mid ++ [']'])).length := by
    simp only [List.length_append, List.length_cons, List.length_nil]
    omega
  rw [bracketed, hstart, hstop]
  show (if pre.length < (pre ++ '[' :: mid).length then _ else none) = _
  rw [if_pos hlt, hlen, ← List.append_assoc, List.take_left, List.drop_left]

theorem toList_fence : "```".toList = ['\x60', '\x60', '\x60'] := by decide

theorem toList_fencedAs : "```json".toList = ['\x60', '\x60', '\x60', 'j', 's', 'o', 'n'] := by
  decide

/-- Before a block starts, no other one does, unless there is a fence. -/
theorem not_starts_early {before u v rest : List Char} (hbefore : ¬ "```".toList <:+: before)
    (huv : before = u ++ v) (hv : v ≠ []) :
    ¬ "```json".toList <+: v ++ ("```json".toList ++ rest) := by
  intro h
  rw [toList_fencedAs] at h
  match v, hv with
  | [x], _ => simp [List.cons_prefix_cons] at h
  | [x, y], _ => simp [List.cons_prefix_cons] at h
  | x :: y :: z :: v', _ =>
    simp only [List.cons_append, List.cons_prefix_cons] at h
    obtain ⟨rfl, rfl, rfl, -⟩ := h
    apply hbefore
    rw [toList_fence, huv]
    exact ⟨u, v', by simp⟩

/-- The block that follows a text without a fence is found, and it ends at the next fence. -/
theorem search_fenced {before body after : List Char} (hbefore : ¬ "```".toList <:+: before)
    (hfirst : NotWithin "```".toList body ("```".toList ++ after)) :
    ∃ m, search jsonBlockPattern
        (before ++ ("```json".toList ++ (body ++ ("```".toList ++ after)))) = some m ∧
      m.groups = [trim isSpace body] := by
  have hfence : ∃ c cs, "```".toList = c :: cs ∧ isSpace c = false :=
    ⟨'\x60', ['\x60', '\x60'], toList_fence, by decide⟩
  obtain ⟨m, hm, hgroups⟩ := first_delimited hfence hfirst
    (m := ⟨⟨"```json".toList.reverse ++ before.reverse, body ++ ("```".toList ++ after)⟩, []⟩) rfl
  refine ⟨m, ?_, hgroups⟩
  rw [search, searchFrom_append]
  · apply searchFrom_of_first
    rw [jsonBlockPattern, first_word_seq]
    show (if "```json".toList <+: "```json".toList ++ _ then _ else _) = _
    rw [if_pos (List.prefix_append _ _), ← hm, List.append_nil]
    simp only [Match.advance, List.drop_left]
  · intro u v huv hv
    rw [jsonBlockPattern, first_word_seq]
    exact if_neg (not_starts_early hbefore huv hv)

end CliExecutionPlatform
