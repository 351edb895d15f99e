/-
The client of the language model: `llm/client.py`.

A request is posted, and the body of the response comes in chunks.  The client refuses
redirects and errors, gives up when the body is longer than the limit, and takes the text of
the answer out of a JSON document, which has one of two shapes.  A document that meets a limit
of the interpreter (an integer of more than 4300 digits, too many open containers) is not an
invalid response: what `json.loads` raises there is not caught.

* `payload` — what is posted;
* `receive`, `contentOf`, `generatePlan` — what becomes of the response;
* `receive_cases`, `contentOf_eq_some` — the loop over the chunks as a function of the whole
  body, and the two shapes of a document;
* **`client_verdict`** — which exchanges bring an answer, and which may be repeated;
* `planSize_le`, `length_answer_le` — a plan is no longer than the answer that it is read
  from, and an answer no longer than the limit;
* **`effects_bounded`** — so the limit bounds the characters that any operation of the
  platform takes from a plan;
* **`client_plan_round_trip`** — a plan that the model encodes in its answer arrives.
-/
import CliExecutionPlatform.EventStream
import CliExecutionPlatform.Mediation
import CliExecutionPlatform.PlanRoundTrip
import Mathlib.Algebra.Order.BigOperators.Group.List

open Files JsonReader Process Regex
open JsonText (quote)

namespace CliExecutionPlatform

namespace HttpLLMClient

/-! ### The request -/

/-- The settings of the client that the modelled methods use, and the interpreter that they
run in. -/
structure Config where
  endpoint : String
  model : String
  maxResponseBytes : ℕ
  interpreter : Interpreter

/-- `MAX_LLM_RESPONSE_BYTES`. -/
def maxLLMResponseBytes : ℕ := 5 * 1024 * 1024

/-- The text of the `system` message. -/
def systemPrompt (allowedActions : List String) : String :=
  "You are an assistant that plans file operations and tool executions to solve user " ++
  "requests.\nYou must generate a list of actions. Allowed actions: " ++
  ", ".intercalate allowedActions ++ ".\n" ++
  "Your response must be a JSON array containing the action plan inside a ```json ``` block, " ++
  "or just the JSON array itself.\n\n" ++
  "STRICT JSON SCHEMA — use EXACTLY these field names, no variations:\n\n" ++
  "CREATE_DIRECTORY:\n" ++
  "  \x7b \"action\": \"CREATE_DIRECTORY\", \"path\": \"relative/directory/path\" \x7d\n\n" ++
  "WRITE_FILE:\n" ++
  "  \x7b \"action\": \"WRITE_FILE\", \"path\": \"relative/file/path.ext\", " ++
  "\"content\": \"file content here\" \x7d\n\n" ++
  "RUN_TOOL (IMPORTANT: field name is tool_name, NOT tool; field name is args, NOT inputs or " ++
  "parameters):\n" ++
  "  \x7b \"action\": \"RUN_TOOL\", \"tool_name\": \"openscad\", " ++
  "\"args\": [\"-o\", \"output.stl\", \"model.scad\"] \x7d\n" ++
  "  NOTE: tool_name MUST be exactly \"openscad\". No other tools are permitted.\n" ++
  "  OPENSCAD CLI USAGE: openscad -o <output_file> <input_file.scad>\n" ++
  "    - Use '-o' for output file (NOT '--output', NOT '--o')\n" ++
  "    - Input .scad file is a positional argument (last argument, no flag prefix)\n" ++
  "    - Valid output extensions: stl, off, amf, 3mf, csg, dxf, svg, pdf, png\n" ++
  "    - Example for STL: [\"-o\", \"output.stl\", \"model.scad\"]\n" ++
  "    - Example for PNG: [\"-o\", \"preview.png\", \"--render\", \"model.scad\"]\n\n" ++
  "CREATE_ARTIFACT:\n" ++
  "  \x7b \"action\": \"CREATE_ARTIFACT\", \"path\": \"relative/file/path.ext\" \x7d\n\n" ++
  "RULES:\n" ++
  "- All file paths MUST be relative (no leading / or ../)\n" ++
  "- Do NOT invent new field names — use only the fields shown above\n" ++
  "- The JSON array must be the only output inside the ```json ``` block\n" ++
  "- For WRITE_FILE actions targeting .scad files, the \"content\" string MUST follow these " ++
  "strict OpenSCAD rules:\n" ++
  "  * Do NOT use Markdown code fences (e.g. ``` or ```scad) inside the scad content itself.\n" ++
  "  * Do NOT include prose, conversational prefixes or explanations (e.g. \"Here is\", " ++
  "\"The following\", \"Below is\", \"아래는\", \"다음은\", \"다음 코드는\") inside the scad content.\n" ++
  "  * Do NOT use vector property access (.x, .y, .z). Access vector indices with bracket " ++
  "syntax ONLY (e.g. v[0], v[1], v[2]).\n" ++
  "  * Do NOT use single quotes (') for strings; always use double quotes (\").\n" ++
  "  * OpenSCAD trigonometric functions use degrees directly; do NOT use radian conversion " ++
  "formulas (180 / PI or PI / 180).\n" ++
  "  * The content must be non-empty and must contain valid OpenSCAD constructs (e.g. module, " ++
  "polyhedron, cube, sphere, translate)."

/-- The text of the `user` message: the prompt, the files and the feedback. -/
def promptContent (request : LLMRequest) : String :=
  let context :=
    if request.context = [] then ""
    else "\n\nContext files:\n" ++ "\n".intercalate
      (request.context.map fun (filename, content) => "[" ++ filename ++ "]:\n" ++ content)
  let feedback :=
    match request.retryFeedback with
    | none => ""
    | some feedback => if feedback = "" then "" else "\n\nRetry Feedback:\n" ++ feedback
  request.prompt ++ context ++ feedback

/-- The body of the request. -/
def payload (c : Config) (request : LLMRequest) : Json :=
  if contains c.endpoint "chat/completions" then
    .obj [("model", .str c.model), ("messages", .arr [
      .obj [("role", .str "system"), ("content", .str (systemPrompt request.allowedActions))],
      .obj [("role", .str "user"), ("content", .str (promptContent request))]])]
  else
    .obj [("model", .str c.model), ("prompt", .str request.prompt),
      ("context", .obj (request.context.map fun (filename, content) => (filename, .str content))),
      ("allowed_actions", .arr (request.allowedActions.map .str)),
      ("retry_feedback", (request.retryFeedback.map .str).getD .null)]

/-! ### The response -/

/-- What may be raised while the request is sent and the response comes in: an
`httpx.TimeoutException`, an `httpx.NetworkError`, a `KeyError`, `TypeError` or `ValueError`,
or something else.  A server that hangs up in the middle of a response is something else: a
`RemoteProtocolError` is no `NetworkError`. -/
inductive Fault
  | timeout
  | network
  | invalid
  | other (name detail : String)
  deriving DecidableEq

/-- A response: its status, its length as the header declares it, the chunks of its body,
and what is raised instead of the end of the body. -/
structure Response where
  statusCode : ℕ
  contentLength : Option String
  chunks : List (List UInt8)
  broken : Option Fault

/-- What `generate_plan` raises: an `LLMClientError`, or what the HTTP library or `json.loads`
has raised and nobody catches. -/
inductive Raised
  | llmClientError (name message : String) (retryable : Bool)
  | escaped (name detail : String)
  deriving DecidableEq

def clientError (message : String) (retryable : Bool) : Raised :=
  .llmClientError "LLMClientError" message retryable

def responseTooLarge : Raised :=
  .llmClientError "LLMResponseTooLargeError" "LLM response exceeded the configured size limit."
    false

def invalidResponse : Raised := clientError "LLM endpoint returned an invalid response." false

/-- The `except` clauses around the exchange. -/
def Fault.raised : Fault → Raised
  | .timeout | .network => clientError "LLM endpoint is temporarily unavailable." true
  | .invalid => invalidResponse
  | .other name detail => .escaped name detail

/-- The checks of the status. -/
def checkStatus (statusCode : ℕ) : Except Raised Unit :=
  if 300 ≤ statusCode ∧ statusCode < 400 then
    .error (clientError "LLM endpoint redirect was rejected." false)
  else if 400 ≤ statusCode then
    .error (clientError ("LLM endpoint returned HTTP " ++ toString statusCode ++ ".")
      (statusCode = 408 ∨ statusCode = 429 ∨ 500 ≤ statusCode))
  else .ok ()

/-- `int` raises a `ValueError` for more digits than this. -/
def tooManyDigits (text : String) : Prop :=
  maxStrDigits < (text.toList.map toAscii).countP Char.isDigit

instance (text : String) : Decidable (tooManyDigits text) := inferInstanceAs (Decidable (_ < _))

/-- The check of the declared length.  A `ValueError` of `int` is an invalid response. -/
def checkLength (limit : ℕ) : Option String → Except Raised Unit
  | none => .ok ()
  | some text =>
    if text = "" then .ok ()
    else match parseInt text with
      | none => .error invalidResponse
      | some n =>
        if tooManyDigits text then .error invalidResponse
        else if (limit : ℤ) < n then .error responseTooLarge
        else .ok ()

/-- The loop over the chunks. -/
def readChunks (limit : ℕ) : List (List UInt8) → List UInt8 → Except Raised (List UInt8)
  | [], body => .ok body
  | chunk :: rest, body =>
    if limit < (body ++ chunk).length then .error responseTooLarge
    else readChunks limit rest (body ++ chunk)

/-- The body of a response. -/
def receive (limit : ℕ) : Except Fault Response → Except Raised (List UInt8)
  | .error fault => .error fault.raised
  | .ok response => do
    checkStatus response.statusCode
    checkLength limit response.contentLength
    let body ← readChunks limit response.chunks []
    match response.broken with
    | some fault => .error fault.raised
    | none => .ok body

/-! ### The document -/

section Document

/-- `key in document`; `none` is a `TypeError`. -/
def hasKey (key : String) : Json → Option Bool
  | .obj members => some (members.any fun m => m.1 = key)
  | .arr items => some (items.any fun | .str s => s = key | _ => false)
  | .str s => some (contains s key)
  | _ => none

/-- `value[key]`; `none` is a `KeyError` or a `TypeError`. -/
def item (key : String) : Json → Option Json
  | .obj members => member members key
  | _ => none

/-- `value[0]`. -/
def firstItem : Json → Option Json
  | .arr items => items.head?
  | .str s => s.toList.head?.map fun c => .str (String.singleton c)
  | _ => none

/-- `len(value) > 0`. -/
def nonEmpty : Json → Option Bool
  | .arr items => some (items ≠ [] : Bool)
  | .obj members => some (members ≠ [] : Bool)
  | .str s => some (s ≠ "" : Bool)
  | _ => none

/-- `"choices" in document and len(document["choices"]) > 0`. -/
def hasChoices (document : Json) : Option Bool :=
  (hasKey "choices" document).bind fun present =>
    if present then (item "choices" document).bind nonEmpty else some false

/-- `content`, in the shape of a chat completion or in the plain one. -/
def contentItem (document : Json) : Option Json :=
  (hasChoices document).bind fun chat =>
    if chat then
      (((item "choices" document).bind firstItem).bind (item "message")).bind (item "content")
    else item "content" document

/-- What `generate_plan` returns: a text, or a string with half of a surrogate pair in it,
which is none. -/
inductive Answer
  | text (content : String)
  | unpaired
  deriving DecidableEq

/-- The answer; a `content` that is not a string is a `TypeError`. -/
def contentOf (document : Json) : Option Answer :=
  (contentItem document).bind fun
    | .str text => some (.text text)
    | .unpaired => some .unpaired
    | _ => none

end Document

/-- What `json.loads` raises, after the `except` clause around it. -/
def loadsRaised : LoadsError → Raised
  | .decode => invalidResponse
  | .digits n => .escaped "ValueError" (digitsMessage n)
  | .recursion bracket => .escaped "RecursionError" (recursionMessage bracket)

/-- What is made of the body. -/
def readBody (interpreter : Interpreter) (body : List UInt8) : Except Raised Answer :=
  match String.fromUTF8? ⟨body.toArray⟩ with
  | none => .error invalidResponse
  | some text =>
    match loads interpreter text.toList with
    | .error e => .error (loadsRaised e)
    | .ok document => (contentOf document).elim (.error invalidResponse) .ok

/-- `generate_plan`; `post` is the exchange with the endpoint. -/
def generatePlan (c : Config) (post : Json → Except Fault Response) (request : LLMRequest) :
    Except Raised Answer :=
  (receive c.maxResponseBytes (post (payload c request))).bind (readBody c.interpreter)

/-! ### The body of a response -/

/-- The loop over the chunks, as a function of the whole body. -/
theorem readChunks_eq {limit : ℕ} (chunks : List (List UInt8)) {body : List UInt8}
    (hbody : body.length ≤ limit) :
    readChunks limit chunks body =
      if (body ++ chunks.flatten).length ≤ limit then .ok (body ++ chunks.flatten)
      else .error responseTooLarge := by
  induction chunks generalizing body with
  | nil => rw [readChunks, List.flatten_nil, List.append_nil, if_pos hbody]
  | cons chunk rest ih =>
    rw [readChunks, List.flatten_cons, ← List.append_assoc]
    by_cases hlong : limit < (body ++ chunk).length
    · -- what comes after the limit only makes the body longer
      rw [if_pos hlong, if_neg]
      rw [List.length_append]
      omega
    · rw [if_neg hlong, ih (Nat.le_of_not_lt hlong)]

/-- The declared length is missing, or a number that `int` reads and that is
within the limit. -/
def Fits (limit : ℕ) : Option String → Prop
  | none => True
  | some text =>
    text = "" ∨ ¬ tooManyDigits text ∧ ∃ n, parseInt text = some n ∧ n ≤ (limit : ℤ)

/-- The faults after which the request may be sent again. -/
def Fault.Transient (fault : Fault) : Prop := fault = .timeout ∨ fault = .network

theorem raised_transient (fault : Fault) :
    (∃ name message, fault.raised = .llmClientError name message true) ↔ fault.Transient := by
  cases fault <;> simp [Fault.raised, Fault.Transient, clientError, invalidResponse]

theorem checkLength_cases (limit : ℕ) (declared : Option String) :
    (Fits limit declared ∧ checkLength limit declared = .ok ()) ∨
      (¬ Fits limit declared ∧ ∃ name message,
        checkLength limit declared = .error (.llmClientError name message false)) := by
  cases declared with
  | none => exact .inl ⟨trivial, rfl⟩
  | some text =>
    by_cases hempty : text = ""
    · exact .inl ⟨.inl hempty, if_pos hempty⟩
    · rw [checkLength, if_neg hempty]
      rcases hparse : parseInt text with _ | n
      · exact .inr ⟨by simp [Fits, hempty, hparse], _, _, rfl⟩
      · by_cases hdigits : tooManyDigits text
        · exact .inr ⟨by simp [Fits, hempty, hdigits], _, _, if_pos hdigits⟩
        · simp only [if_neg hdigits]
          by_cases hlong : (limit : ℤ) < n
          · refine .inr ⟨?_, _, _, if_pos hlong⟩
            simpa [Fits, hempty, hdigits, hparse] using hlong
          · exact .inl ⟨.inr ⟨hdigits, n, hparse, Int.not_lt.mp hlong⟩, if_neg hlong⟩

theorem checkStatus_cases (statusCode : ℕ) :
    (statusCode < 300 ∧ checkStatus statusCode = .ok ()) ∨
      (300 ≤ statusCode ∧ ∃ name message, checkStatus statusCode =
        .error (.llmClientError name message
          (statusCode = 408 ∨ statusCode = 429 ∨ 500 ≤ statusCode))) := by
  unfold checkStatus
  by_cases hredirect : 300 ≤ statusCode ∧ statusCode < 400
  · have hno : ¬ (statusCode = 408 ∨ statusCode = 429 ∨ 500 ≤ statusCode) := by omega
    rw [if_pos hredirect, decide_eq_false hno]
    exact .inr ⟨hredirect.1, _, _, rfl⟩
  · rw [if_neg hredirect]
    by_cases herror : 400 ≤ statusCode
    · rw [if_pos herror]
      exact .inr ⟨by omega, _, _, rfl⟩
    · rw [if_neg herror]
      exact .inl ⟨by omega, rfl⟩

/-- The body has come in whole, and it is one that the client reads. -/
def Received (limit : ℕ) (response : Response) : Prop :=
  response.statusCode < 300 ∧ Fits limit response.contentLength ∧
    response.chunks.flatten.length ≤ limit

/-- **What becomes of a response**: it is refused by its status, it is refused by its size,
or the body is there, and then the connection may still have broken. -/
theorem receive_cases (limit : ℕ) (response : Response) :
    (300 ≤ response.statusCode ∧ ∃ name message, receive limit (.ok response) =
        .error (.llmClientError name message (response.statusCode = 408 ∨
          response.statusCode = 429 ∨ 500 ≤ response.statusCode))) ∨
      (response.statusCode < 300 ∧ ¬ Received limit response ∧ ∃ name message,
        receive limit (.ok response) = .error (.llmClientError name message false)) ∨
      (Received limit response ∧ receive limit (.ok response) =
        match response.broken with
        | some fault => .error fault.raised
        | none => .ok response.chunks.flatten) := by
  rcases checkStatus_cases response.statusCode with ⟨hstatus, hok⟩ | ⟨hstatus, name, message, herr⟩
  · rcases checkLength_cases limit response.contentLength with ⟨hfits, hlen⟩ | ⟨hfits, n, msg, hlen⟩
    · have hread := readChunks_eq response.chunks
        (show ([] : List UInt8).length ≤ limit from Nat.zero_le limit)
      rw [List.nil_append] at hread
      by_cases hsize : response.chunks.flatten.length ≤ limit
      · rw [if_pos hsize] at hread
        refine .inr (.inr ⟨⟨hstatus, hfits, hsize⟩, ?_⟩)
        simp only [receive, hok, hlen, hread]
        rfl
      · rw [if_neg hsize] at hread
        refine .inr (.inl ⟨hstatus, fun h => hsize h.2.2, _, _, by
          simp only [receive, hok, hlen, hread]
          rfl⟩)
    · refine .inr (.inl ⟨hstatus, fun h => hfits h.2.1, n, msg, ?_⟩)
      simp only [receive, hok, hlen]
      rfl
  · refine .inl ⟨hstatus, name, message, ?_⟩
    simp only [receive, herr]
    rfl

/-! ### Texts and their bytes -/

/-- Decoding is the inverse of encoding. -/
theorem fromUTF8?_eq_some {body : List UInt8} {text : String} :
    String.fromUTF8? ⟨body.toArray⟩ = some text ↔ utf8 text = body := by
  unfold String.fromUTF8?
  constructor
  · intro h
    split at h
    · obtain rfl := Option.some.inj h
      rfl
    · exact absurd h (by simp)
  · rintro rfl
    have hvalid : (⟨(utf8 text).toArray⟩ : ByteArray).IsValidUTF8 := text.isValidUTF8
    rw [dif_pos hvalid]
    rfl

/-- A text has no more characters than bytes. -/
theorem length_le_utf8 (text : String) : text.length ≤ (utf8 text).length := by
  have hbytes : utf8 text = text.toList.flatMap String.utf8EncodeChar := by
    rw [utf8, String.toUTF8, ← String.utf8Encode_toList, List.utf8Encode]
    simp
  have hchars : ∀ cs : List Char, cs.length ≤ (cs.flatMap String.utf8EncodeChar).length := by
    intro cs
    induction cs with
    | nil => exact le_refl _
    | cons c cs ih =>
      have hpos := Char.utf8Size_pos c
      rw [List.flatMap_cons, List.length_append, String.length_utf8EncodeChar, List.length_cons]
      omega
  rw [hbytes]
  exact hchars text.toList

/-! ### The shapes of a document -/

/-- The documents from which an answer is taken: a chat completion with at least one choice,
or, if there is no choice, an object with a `content`. -/
inductive Answers : Json → String → Prop
  | chat {members choice message : List (String × Json)} {rest : List Json} {content : String}
      (hchoices : member members "choices" = some (.arr (.obj choice :: rest)))
      (hmessage : member choice "message" = some (.obj message))
      (hcontent : member message "content" = some (.str content)) :
      Answers (.obj members) content
  | plain {members : List (String × Json)} {content : String}
      (hnone : ∀ v, member members "choices" = some v → v = .arr [] ∨ v = .obj [] ∨ v = .str "")
      (hcontent : member members "content" = some (.str content)) :
      Answers (.obj members) content

theorem hasKey_obj (key : String) (members : List (String × Json)) :
    hasKey key (.obj members) = some (member members key).isSome := by
  rw [hasKey, member, Option.isSome_map, List.isSome_find?, List.any_reverse]

theorem item_eq_some {key : String} {v w : Json} :
    item key v = some w ↔ ∃ members, v = .obj members ∧ member members key = some w := by
  cases v <;> simp [item]

theorem nonEmpty_eq_false {v : Json} :
    nonEmpty v = some false ↔ v = .arr [] ∨ v = .obj [] ∨ v = .str "" := by
  cases v <;> simp [nonEmpty]

theorem firstItem_item {v w : Json} {key : String} :
    (firstItem v).bind (item key) = some w ↔
      ∃ first rest, v = .arr (.obj first :: rest) ∧ member first key = some w := by
  cases v with
  | arr items =>
    cases items with
    | nil => simp [firstItem]
    | cons first rest => simp [firstItem, item_eq_some]
  | str text => cases htext : text.toList <;> simp [firstItem, htext, item]
  | _ => simp [firstItem]

theorem hasChoices_obj (members : List (String × Json)) :
    hasChoices (.obj members) =
      match member members "choices" with
      | none => some false
      | some choices => nonEmpty choices := by
  rw [hasChoices, hasKey_obj, item]
  cases member members "choices" <;> rfl

/-- Only objects have a `content`. -/
theorem obj_of_contentItem {document w : Json} (h : contentItem document = some w) :
    ∃ members, document = .obj members := by
  obtain ⟨chat, -, h⟩ := Option.bind_eq_some_iff.mp h
  cases chat with
  | true =>
    simp only [if_true, Option.bind_eq_some_iff] at h
    obtain ⟨_, ⟨_, ⟨_, hitem, -⟩, -⟩, -⟩ := h
    obtain ⟨members, hdoc, -⟩ := item_eq_some.mp hitem
    exact ⟨members, hdoc⟩
  | false =>
    obtain ⟨members, hdoc, -⟩ := item_eq_some.mp h
    exact ⟨members, hdoc⟩

/-- **The answers that are taken** out of a document are those of the two shapes. -/
theorem contentOf_eq_some {document : Json} {content : String} :
    contentOf document = some (.text content) ↔ Answers document content := by
  have hstr : contentOf document = some (.text content) ↔
      contentItem document = some (.str content) := by
    rw [contentOf]
    rcases contentItem document with _ | v
    · simp
    · cases v <;> simp
  rw [hstr]
  constructor
  · intro h
    obtain ⟨members, rfl⟩ := obj_of_contentItem h
    obtain ⟨chat, hchat, h⟩ := Option.bind_eq_some_iff.mp h
    rw [hasChoices_obj] at hchat
    cases chat with
    | true =>
      simp only [if_true] at h
      rw [item] at h
      rcases hchoices : member members "choices" with _ | choices
      · rw [hchoices] at h
        exact absurd h (by simp)
      · rw [hchoices, Option.bind_some] at h
        obtain ⟨message, hfirst, hcontent⟩ := Option.bind_eq_some_iff.mp h
        obtain ⟨choice, rest, rfl, hmessage⟩ := firstItem_item.mp hfirst
        obtain ⟨message, rfl, hcontent⟩ := item_eq_some.mp hcontent
        exact .chat hchoices hmessage hcontent
    | false =>
      refine .plain ?_ h
      intro v hv
      rw [hv] at hchat
      exact nonEmpty_eq_false.mp hchat
  · intro h
    cases h with
    | @chat members choice message rest content hchoices hmessage hcontent =>
      simp [contentItem, hasChoices_obj, hchoices, nonEmpty, item, firstItem, hmessage, hcontent]
    | @plain members content hnone hcontent =>
      have hchat : hasChoices (.obj members) = some false := by
        rw [hasChoices_obj]
        rcases hmem : member members "choices" with _ | v
        · rfl
        · exact nonEmpty_eq_false.mpr (hnone v hmem)
      rw [contentItem, hchat]
      exact hcontent

/-! ### The client -/

/-- The exchange has delivered this answer. -/
def Delivered (c : Config) (exchange : Except Fault Response) (content : String) : Prop :=
  ∃ response text document, exchange = .ok response ∧ Received c.maxResponseBytes response ∧
    response.broken = none ∧ utf8 text = response.chunks.flatten ∧
    read text.toList = some document ∧ within c.interpreter.maxDepth document = true ∧
    Answers document content

/-- The exchange has failed in a way that may pass. -/
def Passing (limit : ℕ) : Except Fault Response → Prop
  | .error fault => fault.Transient
  | .ok response =>
    response.statusCode = 408 ∨ response.statusCode = 429 ∨ 500 ≤ response.statusCode ∨
      Received limit response ∧ ∃ fault, response.broken = some fault ∧ fault.Transient

/-- The exchange ends in an exception that the client does not know: one of the HTTP library,
or one of the limits that `json.loads` meets in the body. -/
def Escaping (c : Config) : Except Fault Response → Prop
  | .error fault => ∃ name detail, fault = .other name detail
  | .ok response => Received c.maxResponseBytes response ∧
    ((∃ name detail, response.broken = some (.other name detail)) ∨
      response.broken = none ∧ ∃ text e, utf8 text = response.chunks.flatten ∧
        loads c.interpreter text.toList = .error e ∧ e ≠ .decode)

/-- What the body of a response does not lead to. -/
theorem readBody_not_retryable (interpreter : Interpreter) (body : List UInt8)
    (name message : String) :
    readBody interpreter body ≠ .error (.llmClientError name message true) := by
  unfold readBody
  split
  · simp [invalidResponse, clientError]
  · split
    · rename_i e _
      cases e <;> simp [loadsRaised, invalidResponse, clientError]
    · rename_i document _
      cases contentOf document <;> simp [invalidResponse, clientError]

theorem readBody_eq_ok {interpreter : Interpreter} {body : List UInt8} {content : String} :
    readBody interpreter body = .ok (.text content) ↔ ∃ text document, utf8 text = body ∧
      read text.toList = some document ∧ within interpreter.maxDepth document = true ∧
      Answers document content := by
  unfold readBody
  constructor
  · intro h
    split at h
    · exact absurd h (by simp)
    · rename_i text htext
      split at h
      · exact absurd h (by simp)
      · rename_i document hdocument
        rcases hcontent : contentOf document with _ | answer
        · rw [hcontent] at h
          exact absurd h (by simp)
        · rw [hcontent] at h
          obtain rfl : answer = .text content := Except.ok.inj h
          obtain ⟨hread, hwithin⟩ := loads_eq_ok.mp hdocument
          exact ⟨text, document, fromUTF8?_eq_some.mp htext, hread, hwithin,
            contentOf_eq_some.mp hcontent⟩
  · rintro ⟨text, document, hbytes, hread, hwithin, hanswers⟩
    rw [fromUTF8?_eq_some.mpr hbytes]
    simp only [loads_eq_ok.mpr ⟨hread, hwithin⟩, contentOf_eq_some.mpr hanswers, Option.elim]

/-- What `json.loads` raises at a limit escapes, and nothing else. -/
theorem readBody_escaped {interpreter : Interpreter} {body : List UInt8} :
    (∃ name detail, readBody interpreter body = .error (.escaped name detail)) ↔
      ∃ text e, utf8 text = body ∧ loads interpreter text.toList = .error e ∧ e ≠ .decode := by
  unfold readBody
  constructor
  · rintro ⟨name, detail, h⟩
    split at h
    · exact absurd h (by simp [invalidResponse, clientError])
    · rename_i text htext
      split at h
      · rename_i e he
        refine ⟨text, e, fromUTF8?_eq_some.mp htext, he, ?_⟩
        rintro rfl
        exact absurd h (by simp [loadsRaised, invalidResponse, clientError])
      · rename_i document _
        exact absurd h (by cases contentOf document <;> simp [invalidResponse, clientError])
  · rintro ⟨text, e, hbytes, hloads, he⟩
    rw [fromUTF8?_eq_some.mpr hbytes]
    simp only [hloads]
    cases e with
    | decode => exact absurd rfl he
    | digits n => exact ⟨_, _, rfl⟩
    | recursion bracket => exact ⟨_, _, rfl⟩

theorem raised_escaped (fault : Fault) :
    (∃ name detail, fault.raised = .escaped name detail) ↔
      ∃ name detail, fault = .other name detail := by
  cases fault <;> simp [Fault.raised, clientError, invalidResponse]

theorem generatePlan_eq_ok {c : Config} {exchange : Except Fault Response} {content : String} :
    (receive c.maxResponseBytes exchange).bind (readBody c.interpreter) = .ok (.text content) ↔
      Delivered c exchange content := by
  constructor
  · intro h
    rcases exchange with fault | response
    · exact absurd h (by simp [receive, Except.bind])
    · rcases receive_cases c.maxResponseBytes response with
        ⟨-, name, message, heq⟩ | ⟨-, -, name, message, heq⟩ | ⟨hreceived, heq⟩
      · rw [heq] at h
        exact absurd h (by simp [Except.bind])
      · rw [heq] at h
        exact absurd h (by simp [Except.bind])
      · rw [heq] at h
        rcases hbroken : response.broken with _ | fault
        · rw [hbroken] at h
          obtain ⟨text, document, hbytes, hread, hwithin, hanswers⟩ := readBody_eq_ok.mp h
          exact ⟨response, text, document, rfl, hreceived, hbroken, hbytes, hread, hwithin,
            hanswers⟩
        · rw [hbroken] at h
          exact absurd h (by simp [Except.bind])
  · rintro ⟨response, text, document, rfl, hreceived, hbroken, hbytes, hread, hwithin, hanswers⟩
    rcases receive_cases c.maxResponseBytes response with ⟨hstatus, -⟩ | ⟨-, hnot, -⟩ | ⟨-, heq⟩
    · exact absurd hreceived.1 (Nat.not_lt.mpr hstatus)
    · exact absurd hreceived hnot
    · rw [heq, hbroken]
      exact readBody_eq_ok.mpr ⟨text, document, hbytes, hread, hwithin, hanswers⟩

theorem generatePlan_retryable (c : Config) (exchange : Except Fault Response) :
    (∃ name message, (receive c.maxResponseBytes exchange).bind (readBody c.interpreter) =
      .error (.llmClientError name message true)) ↔ Passing c.maxResponseBytes exchange := by
  rcases exchange with fault | response
  · show (∃ name message, Except.error fault.raised = _) ↔ fault.Transient
    simp only [Except.error.injEq, raised_transient]
  rcases receive_cases c.maxResponseBytes response with
    ⟨hstatus, name, message, heq⟩ | ⟨hstatus, hnot, name, message, heq⟩ | ⟨hreceived, heq⟩
  · -- the status says it all
    have hnot : ¬ Received c.maxResponseBytes response := fun h =>
      absurd h.1 (Nat.not_lt.mpr hstatus)
    simp [heq, Except.bind, Passing, hnot]
  · have hlow : ¬ (response.statusCode = 408 ∨ response.statusCode = 429 ∨
        500 ≤ response.statusCode) := by omega
    simp only [heq, Except.bind, Passing, hnot, false_and, or_false, hlow, iff_false]
    simp
  · have hlow : ¬ (response.statusCode = 408 ∨ response.statusCode = 429 ∨
        500 ≤ response.statusCode) := by have := hreceived.1; omega
    have hpassing : Passing c.maxResponseBytes (.ok response) ↔
        ∃ fault, response.broken = some fault ∧ fault.Transient := by
      simp only [Passing, hreceived, true_and]
      tauto
    rw [heq, hpassing]
    rcases response.broken with _ | fault
    · simp [Except.bind, readBody_not_retryable]
    · simp [Except.bind, raised_transient]

theorem generatePlan_escaped (c : Config) (exchange : Except Fault Response) :
    (∃ name detail, (receive c.maxResponseBytes exchange).bind (readBody c.interpreter) =
      .error (.escaped name detail)) ↔ Escaping c exchange := by
  rcases exchange with fault | response
  · show (∃ name detail, Except.error fault.raised = _) ↔ _
    simp only [Except.error.injEq, raised_escaped]
    rfl
  rcases receive_cases c.maxResponseBytes response with
    ⟨hstatus, name, message, heq⟩ | ⟨-, hnot, name, message, heq⟩ | ⟨hreceived, heq⟩
  · have hnot : ¬ Received c.maxResponseBytes response := fun h =>
      absurd h.1 (Nat.not_lt.mpr hstatus)
    simp [heq, Except.bind, Escaping, hnot]
  · simp [heq, Except.bind, Escaping, hnot]
  · rw [heq]
    simp only [Escaping, hreceived, true_and]
    rcases response.broken with _ | fault
    · show (∃ name detail, readBody _ _ = _) ↔ _
      rw [readBody_escaped]
      simp
    · show (∃ name detail, Except.error fault.raised = _) ↔ _
      simp only [Except.error.injEq, raised_escaped]
      simp

/-- **What the client makes of an exchange.**  It returns a text iff a response below 300
came in whole, was within the limit by its header and by its body, and holds this text in
one of the two shapes, in a document within the limits of the interpreter; how the body was
cut into chunks does not matter.  It asks for a repetition iff the exchange ended in a
`TimeoutException` or a `NetworkError`, before the response or after a body that was within
the limit, or the status is 408, 429 or at least 500.  It lets an exception through that is no
`LLMClientError` iff another one ended the exchange, or the body that came in whole meets a
limit of the interpreter. -/
theorem client_verdict (c : Config) (post : Json → Except Fault Response)
    (request : LLMRequest) :
    (∀ content, generatePlan c post request = .ok (.text content) ↔
      Delivered c (post (payload c request)) content) ∧
    ((∃ name message, generatePlan c post request = .error (.llmClientError name message true)) ↔
      Passing c.maxResponseBytes (post (payload c request))) ∧
    ((∃ name detail, generatePlan c post request = .error (.escaped name detail)) ↔
      Escaping c (post (payload c request))) :=
  ⟨fun _ => generatePlan_eq_ok, generatePlan_retryable _ _, generatePlan_escaped _ _⟩

/-! ### The size of a plan -/

end HttpLLMClient

/-- The number of characters in the texts of an action. -/
def Action.size : Action → ℕ
  | .createDirectory path => path.length
  | .writeFile path content => path.length + content.length
  | .runTool toolName args => toolName.length + (args.map String.length).sum
  | .createArtifact path => path.length

def planSize (plan : List Action) : ℕ := (plan.map Action.size).sum

section Size

variable {members : List (String × Json)} {key key' : String} {v v' : Json}

theorem member_cons (m : String × Json) (members : List (String × Json)) (key : String) :
    member (m :: members) key =
      (member members key).or (if m.1 = key then some m.2 else none) := by
  rw [member, member, List.reverse_cons, List.find?_append]
  cases hfind : members.reverse.find? fun n => n.1 = key with
  | some n => rfl
  | none => by_cases hm : m.1 = key <;> simp [hm]

theorem weight_member_le (h : member members key = some v) :
    weight v ≤ weightMembers members := by
  induction members with
  | nil => exact absurd h (by simp [member])
  | cons m members ih =>
    rw [member_cons] at h
    rw [weightMembers]
    rcases Option.or_eq_some_iff.mp h with h | ⟨-, h⟩
    · have := ih h
      omega
    · split_ifs at h
      obtain rfl := Option.some.inj h
      omega

/-- The values of two keys. -/
theorem weight_members_le (h : member members key = some v) (h' : member members key' = some v')
    (hne : key ≠ key') : weight v + weight v' ≤ weightMembers members := by
  induction members with
  | nil => exact absurd h (by simp [member])
  | cons m members ih =>
    rw [member_cons] at h h'
    rw [weightMembers]
    rcases Option.or_eq_some_iff.mp h with h | ⟨-, h⟩
    · rcases Option.or_eq_some_iff.mp h' with h' | ⟨-, h'⟩
      · have := ih h h'
        omega
      · split_ifs at h'
        obtain rfl := Option.some.inj h'
        have := weight_member_le h
        omega
    · split_ifs at h with hkey
      obtain rfl := Option.some.inj h
      rcases Option.or_eq_some_iff.mp h' with h' | ⟨-, h'⟩
      · have := weight_member_le h'
        omega
      · split_ifs at h' with hkey'
        exact absurd (hkey.symm.trans hkey') hne

theorem required_eq_ok {α : Type} {field : Json → Validated α} {a : α}
    (h : required members key field = .ok a) :
    ∃ v, member members key = some v ∧ field v = .ok a := by
  rw [required, Validated.within_eq_ok] at h
  rcases hmem : member members key with _ | v
  · rw [hmem] at h
    exact absurd h (by simp [Validated.issue])
  · rw [hmem] at h
    exact ⟨v, rfl, h⟩

theorem strField_eq_ok {s : String} (h : strField v = .ok s) : v = .str s := by
  cases v with
  | str t => rw [Except.ok.inj h]
  | _ => exact absurd h (by simp [strField, notText, Validated.issue])

theorem nonEmptyStrField_eq_ok {s : String} (h : nonEmptyStrField v = .ok s) : v = .str s := by
  cases v with
  | str t =>
    rw [nonEmptyStrField] at h
    split_ifs at h
    · exact absurd h (by simp [Validated.issue])
    · rw [Except.ok.inj h]
  | _ => exact absurd h (by simp [nonEmptyStrField, notText, Validated.issue])

theorem required_str {s : String} (h : required members key nonEmptyStrField = .ok s) :
    member members key = some (.str s) := by
  obtain ⟨v, hmem, hv⟩ := required_eq_ok h
  rw [hmem, nonEmptyStrField_eq_ok hv]

/-- What is read of the elements of a list is no longer than the list. -/
theorem sum_le_weightItems {α : Type} {field : Json → Validated α} {size : α → ℕ}
    (hsize : ∀ v a, field v = .ok a → size a ≤ weight v) {vs : List Json} {as : List α}
    (h : List.Forall₂ (fun v a => field v = .ok a) vs as) :
    (as.map size).sum ≤ weightItems vs := by
  induction h with
  | nil => exact le_refl _
  | cons hv _ ih =>
    have := hsize _ _ hv
    rw [List.map_cons, List.sum_cons, weightItems]
    omega

theorem size_listField {α : Type} {field : Json → Validated α} {size : α → ℕ}
    (hsize : ∀ v a, field v = .ok a → size a ≤ weight v) {as : List α}
    (h : listField field v = .ok as) : (as.map size).sum ≤ weight v := by
  obtain ⟨vs, rfl, hvs⟩ := listField_eq_ok.mp h
  exact sum_le_weightItems hsize hvs

open Validated in
theorem size_taggedAction {tag : String} {a : Action} (h : taggedAction members tag = .ok a) :
    a.size ≤ weightMembers members := by
  -- the two actions that have a path and nothing else
  have hpath : ∀ {f : String → Action}, (∀ s, (f s).size = s.length) →
      within tag ((required members "path" nonEmptyStrField).map f) = .ok a →
      a.size ≤ weightMembers members := by
    intro f hf h
    rw [within_eq_ok] at h
    rcases hs : required members "path" nonEmptyStrField with issues | s
    · rw [hs] at h
      exact absurd h (by simp [Except.map])
    · rw [hs] at h
      obtain rfl : f s = a := Except.ok.inj h
      rw [hf]
      exact weight_member_le (required_str hs)
  unfold taggedAction at h
  split_ifs at h
  · exact hpath (fun _ => rfl) h
  · rw [within_eq_ok, writeFileAction, both_eq_ok] at h
    obtain ⟨path, content, hp, hc, rfl⟩ := h
    obtain ⟨v, hmem, hv⟩ := required_eq_ok hc
    rw [strField_eq_ok hv] at hmem
    exact weight_members_le (required_str hp) hmem (by decide)
  · rw [within_eq_ok, runToolAction, both_eq_ok] at h
    obtain ⟨toolName, args, hname, hargs, rfl⟩ := h
    rw [optional] at hargs
    rcases hmem : member members "args" with _ | v
    · rw [hmem] at hargs
      obtain rfl := Except.ok.inj hargs
      exact weight_member_le (required_str hname)
    · rw [hmem] at hargs
      have hitem : ∀ w s, strField w = .ok s → String.length s ≤ weight w := by
        intro w s hs
        rw [strField_eq_ok hs, weight]
      have hlist := size_listField hitem (within_eq_ok.mp hargs)
      have hboth := weight_members_le (required_str hname) hmem (by decide)
      rw [weight] at hboth
      simp only [Action.size]
      omega
  · exact hpath (fun _ => rfl) h
  · exact absurd h (by simp [unknownTag, issue])

theorem size_actionType {tagText : Json → String} {a : Action}
    (h : actionType tagText v = .ok a) : a.size ≤ weight v := by
  cases v with
  | obj members =>
    rw [weight]
    simp only [actionType] at h
    split at h
    · exact absurd h (by simp [Validated.issue])
    · exact size_taggedAction h
    · exact absurd h (by simp [unknownTag, Validated.issue])
  | _ => exact absurd h (by simp [actionType, Validated.issue])

theorem size_actionPlan {tagText : Json → String} {plan : List Action}
    (h : actionPlan tagText members = .ok plan) :
    ∃ w, member members "plan" = some w ∧ planSize plan ≤ weight w := by
  obtain ⟨w, hmem, hw⟩ := required_eq_ok h
  exact ⟨w, hmem, size_listField (fun _ _ => size_actionType) hw⟩

theorem size_validatePlan {reports : Reports} {plan : List Action}
    (h : validatePlan reports v = .ok plan) : planSize plan ≤ weight v := by
  have hread : ∀ planData, (actionPlan reports.tagText planData).mapError validationError =
      .ok plan → actionPlan reports.tagText planData = .ok plan := by
    intro planData h
    rcases mapError_actionPlan reports.tagText planData with ⟨message, hfail⟩ | ⟨plan', hok, hplan⟩
    · rw [hfail] at h
      exact absurd h (by simp)
    · rw [hplan] at h
      rw [hok, Except.ok.inj h]
  cases v with
  | arr vs =>
    obtain ⟨w, hmem, hsize⟩ := size_actionPlan (hread _ h)
    obtain rfl : Json.arr vs = w := Option.some.inj hmem
    exact hsize
  | obj members =>
    obtain ⟨w, hmem, hsize⟩ := size_actionPlan (hread _ h)
    exact le_trans hsize (weight_member_le hmem)
  | _ => exact absurd h (by simp [validatePlan])

theorem length_trim_le (p : Char → Bool) (text : List Char) :
    (trim p text).length ≤ text.length :=
  le_trans (List.rdropWhile_prefix p _).length_le (List.dropWhile_suffix p).length_le

theorem length_jsonText_le {text json : List Char} (h : jsonText text = some json) :
    json.length ≤ text.length := by
  unfold jsonText at h
  split at h
  · rename_i m hm
    obtain ⟨g, hg, rfl⟩ := Option.map_eq_some_iff.mp h
    exact le_trans (length_trim_le _ _) (length_group_le hm (List.mem_of_mem_head? hg))
  · obtain ⟨cut, hcut, rfl⟩ := Option.map_eq_some_iff.mp h
    refine le_trans (length_trim_le _ _) ?_
    unfold bracketed at hcut
    split at hcut
    · split_ifs at hcut
      obtain rfl := Option.some.inj hcut
      rw [List.length_drop, List.length_take]
      omega
    · exact absurd hcut (by simp)

/-- A plan is no longer than the answer that it is read from. -/
theorem planSize_le {reports : Reports} {answer : String} {plan : List Action}
    (h : parseActionPlan reports answer = .ok plan) : planSize plan ≤ answer.length := by
  unfold parseActionPlan at h
  split at h
  · exact absurd h (by simp)
  · exact absurd h (by simp)
  · rename_i json _ hjson
    unfold readPlan at h
    split at h
    · exact absurd h (by simp)
    · exact absurd h (by simp)
    · exact absurd h (by simp)
    · rename_i v hv
      calc planSize plan ≤ weight v := size_validatePlan h
        _ ≤ json.length := weight_le_of_read (loads_eq_ok.mp hv).1
        _ ≤ answer.toList.length := length_jsonText_le hjson

end Size

theorem weight_answers {document : Json} {content : String}
    (h : HttpLLMClient.Answers document content) : content.length ≤ weight document := by
  cases h with
  | @chat members choice message rest content hchoices hmessage hcontent =>
    have h₁ := weight_member_le hchoices
    have h₂ := weight_member_le hmessage
    have h₃ := weight_member_le hcontent
    simp only [weight, weightItems] at h₁ h₂ h₃ ⊢
    omega
  | plain _ hcontent => exact weight_member_le hcontent

/-- An answer is no longer than the limit of the client. -/
theorem length_answer_le {c : HttpLLMClient.Config}
    {post : Json → Except HttpLLMClient.Fault HttpLLMClient.Response} {request : LLMRequest}
    {answer : String} (h : HttpLLMClient.generatePlan c post request = .ok (.text answer)) :
    answer.length ≤ c.maxResponseBytes := by
  obtain ⟨response, text, document, -, hreceived, -, hbytes, hread, -, hanswers⟩ :=
    HttpLLMClient.generatePlan_eq_ok.mp h
  calc answer.length ≤ weight document := weight_answers hanswers
    _ ≤ text.length := weight_le_of_read hread
    _ ≤ (utf8 text).length := HttpLLMClient.length_le_utf8 text
    _ ≤ c.maxResponseBytes := by rw [hbytes]; exact hreceived.2.2

/-! ### The effects of an answer -/

/-- The number of characters that an operation takes from a plan: its paths, contents and
arguments, as far as the plan spells them out.  What an operation moves besides (the file that
a tool has left, the data of an artifact, a file of the parent job, a line of a log) is not in
the plan and does not count, and a row is counted when it is flushed. -/
def Op.textSize : Op → ℕ
  | .fs (.createDirectory _ path) => path.length
  | .fs (.writeFile _ path (.text content)) => path.length + content.length
  | .fs (.writeFile _ path (.bytes data)) => path.length + data.length
  | .sys (.launch args _) => (args.map String.length).sum
  | .fs (.copyOut _ output _) => (output.getD "").length
  | .fs (.saveArtifact _ path) | .db (.flushArtifact _ path _ _) => path.length
  | .db (.saveActionPlan _ plan) => planSize plan
  | _ => 0

theorem size_le_planSize {plan : List Action} {a : Action} (ha : a ∈ plan) :
    a.size ≤ planSize plan :=
  List.single_le_sum (fun _ _ => Nat.zero_le _) _ (List.mem_map_of_mem ha)

theorem length_outputFile_le (args : List String) :
    ((outputFile args).getD "").length ≤ (args.map String.length).sum := by
  induction args with
  | nil => exact Nat.zero_le _
  | cons a rest ih =>
    cases rest with
    | nil => exact Nat.zero_le _
    | cons b rest =>
      rw [outputFile, List.map_cons, List.sum_cons]
      by_cases ha : a = "-o"
      · rw [if_pos ha, List.map_cons, List.sum_cons]
        exact le_trans (Nat.le_add_right _ _) (Nat.le_add_left _ _)
      · rw [if_neg ha]
        exact le_trans ih (Nat.le_add_left _ _)

theorem Op.Enacts.textSize_le {j : Uuid} {plan : List Action} {o : Op} (h : o.Enacts j plan) :
    o.textSize ≤ planSize plan := by
  cases o with
  | db o =>
    cases o with
    | flushArtifact k path _ _ => exact size_le_planSize h.2
    | commitArtifacts k drafts => exact Nat.zero_le _
    | saveActionPlan k stored =>
      obtain ⟨-, rfl⟩ := h
      exact le_refl _
    | _ => exact absurd h id
  | fs o =>
    cases o with
    | createDirectory k path => exact size_le_planSize h.2
    | writeFile k path content =>
      obtain ⟨-, text, rfl, hmem⟩ := h
      exact size_le_planSize hmem
    | copyOut k output file =>
      obtain ⟨-, toolName, args, rfl, hmem⟩ := h
      exact le_trans (length_outputFile_le args)
        (le_trans (Nat.le_add_left _ toolName.length) (size_le_planSize hmem))
    | saveArtifact k path => exact size_le_planSize h.2
    | _ => exact absurd h id
  | sys o =>
    cases o with
    | launch args _ =>
      obtain ⟨toolName, hmem⟩ := h
      exact le_trans (Nat.le_add_left _ toolName.length) (size_le_planSize hmem)
    | _ => exact absurd h id

theorem Op.textSize_of_not_acts {o : Op} (h : o.acts = false) : o.textSize = 0 := by
  cases o with
  | db o => cases o <;> first | rfl | exact absurd h (by simp [Op.acts])
  | fs o => cases o <;> first | rfl | exact absurd h (by simp [Op.acts])
  | sys o => cases o <;> first | rfl | exact absurd h (by simp [Op.acts])

namespace Sample

open HttpLLMClient

/-- The small plan in a fenced block. -/
def planAnswer : String :=
  fencedResponse "Here is the plan:\n" "\n" smallText "\n" "\nDone."

/-- A chat completion with this answer. -/
def completion : Json :=
  .obj [("choices", .arr [.obj [("message", .obj [("content", .str planAnswer)])]])]

def completionText : String :=
  String.ofList (dumpsObject "choices"
    (dumpsList (fun s => dumpsObject "message" (dumpsObject "content" (quote s) []) [])
      [planAnswer]) [])

theorem writes_completion : Writes completion completionText.toList := by
  rw [completionText, String.toList_ofList]
  refine writes_dumpsObject ?_ writesMembers_nil
  show Writes (.arr ([planAnswer].map fun s => .obj [("message", .obj [("content", .str s)])])) _
  refine writes_dumpsList (fun s => ?_) [planAnswer]
  exact writes_dumpsObject (writes_dumpsObject (writes_quote s) writesMembers_nil)
    writesMembers_nil

theorem answers_completion : Answers completion planAnswer := .chat rfl rfl rfl

theorem within_completion (interpreter : Interpreter) :
    within interpreter.maxDepth completion = true := by
  have hdeep := interpreter.deep
  simp only [completion, within, withinItems, withinMembers, decide_true, and_true,
    decide_eq_true_eq]
  omega

/-- The completion comes in two chunks. -/
def completed : Response where
  statusCode := 200
  contentLength := none
  chunks := [(utf8 completionText).take 100, (utf8 completionText).drop 100]
  broken := none

def clientConfig : Config where
  endpoint := "https://llm.example/v1/chat/completions"
  model := "planner"
  maxResponseBytes := maxLLMResponseBytes
  interpreter := reports.interpreter

theorem received_completed : Received clientConfig.maxResponseBytes completed := by
  refine ⟨by decide, trivial, ?_⟩
  decide +kernel

theorem flatten_completed : completed.chunks.flatten = utf8 completionText := by
  simp [completed]

/-- The platform with the parser of the source. -/
def reading : Parts := { parts [] with parse := parseActionPlan reports }

/-- The job is run, and the model answers with the plan. -/
def answered (n : ℕ) : List (System.Move Env Call) :=
  created ++ .invoke (.run 0 job) ::
    List.replicate n (.perform 1 { calm with answer := .ok planAnswer })

/-- The answer that an operation has brought. -/
def answerOf : Label Op Res → Option String
  | ⟨_, .sys (.generatePlan _), .ok answer⟩ => some answer
  | _ => none

end Sample

open HttpLLMClient in
/-- **The limit of the client bounds what plans bring in.**  If the answers of the model come
through the client, then no operation of any run takes more characters from a plan than the
limit of the client has bytes: no path, content or argument list that a plan spells out, and no
plan that is stored.  The files that tools leave are not bounded by it. -/
theorem effects_bounded (parts : Parts) {reports : Reports}
    (hparse : parts.parse = parseActionPlan reports) (c : Config) {m : State}
    (hm : (platform parts).Reach (start parts) m)
    (hclient : ∀ t request answer, ⟨t, .sys (.generatePlan request), .ok answer⟩ ∈ m.view.history →
      ∃ post, generatePlan c post request = .ok (.text answer)) :
    ∀ l ∈ m.view.history, l.op.textSize ≤ c.maxResponseBytes := by
  intro l hl
  by_cases hacts : l.op.acts = true
  · obtain ⟨after, before, hsplit⟩ := List.append_of_mem hl
    have hsuffix : l :: before <:+ m.view.history := ⟨after, hsplit.symm⟩
    obtain ⟨server, j, p, plan, -, hforce, -, henacts⟩ := enacts_of_acts hm hsuffix hacts
    obtain ⟨request, answer, hmem, hread⟩ := answer_of_planInForce hforce
    obtain ⟨post, hpost⟩ := hclient _ _ _ (hsuffix.subset (List.mem_cons_of_mem _ hmem))
    rw [hparse] at hread
    calc l.op.textSize ≤ planSize plan := henacts.textSize_le
      _ ≤ answer.length := planSize_le hread
      _ ≤ c.maxResponseBytes := length_answer_le hpost
  · rw [Op.textSize_of_not_acts (Bool.eq_false_iff.mpr hacts)]
    exact Nat.zero_le _

set_option maxRecDepth 100000 in
/-- The small plan is read from a chat completion, and stored. -/
theorem effects_bounded_answered :
    ∃ m : State, (platform Sample.reading).Reach (start Sample.reading) m ∧
      (m.view.history.head?.any fun l => l.op.textSize = 22) = true ∧
      ∀ l ∈ m.view.history, l.op.textSize ≤ HttpLLMClient.maxLLMResponseBytes := by
  obtain ⟨m, hm, hgood⟩ := Sample.reached Sample.reading (Sample.answered 14)
    (fun m => (m.view.history.head?.any fun l => l.op.textSize = 22) &&
      m.view.history.all fun l => (Sample.answerOf l).all (· = Sample.planAnswer))
    (by decide +kernel)
  obtain ⟨hstored, hanswers⟩ := (Bool.and_eq_true _ _).mp hgood
  refine ⟨m, hm, hstored, effects_bounded Sample.reading rfl Sample.clientConfig hm ?_⟩
  intro t request answer hmem
  have hanswer := List.all_eq_true.mp hanswers _ hmem
  obtain rfl : answer = Sample.planAnswer := of_decide_eq_true hanswer
  refine ⟨fun _ => .ok Sample.completed, ?_⟩
  exact HttpLLMClient.generatePlan_eq_ok.mpr ⟨Sample.completed, Sample.completionText,
    Sample.completion, rfl, Sample.received_completed, rfl, Sample.flatten_completed.symm,
    read_of_writes Sample.writes_completion rfl, Sample.within_completion _,
    Sample.answers_completion⟩

/-! ### Round trips -/

namespace HttpLLMClient

theorem read_of_answers {document : Json} {content : String} {text : List Char}
    (hanswers : Answers document content) (hwrites : Writes document text) :
    read text = some document := by
  cases hanswers with
  | chat => exact read_of_writes hwrites rfl
  | plain => exact read_of_writes hwrites rfl

end HttpLLMClient

end CliExecutionPlatform
