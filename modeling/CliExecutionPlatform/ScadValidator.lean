/-
`ScadStaticValidator` (`llm/scad_validator.py`): the static validation of OpenSCAD code.

* `maskNonCode` — comments, and strings if asked for, are replaced by spaces;
* `splitlines`, `getSnippets` — the lines that are reported;
* `violations` — the rules, in their order, with what each of them reports;
* `detailedMessage` — the bounded text of all violations;
* `validate` — the check of a file.
-/
import CliExecutionPlatform.Regex
import CliExecutionPlatform.Tool

open Files

namespace CliExecutionPlatform

/-! ### Masking -/

/-- The states of the scanner. -/
inductive MaskState
  | normal
  | inString
  | inLineComment
  | inBlockComment
  deriving DecidableEq

/-- The number of backslashes that stand right before a position. -/
def backslashCount (before : List Char) : ℕ := (before.takeWhile (· = '\\')).length

/-- The loop of `_mask_non_code`: `before` is what has been scanned, the nearest
character first. -/
def maskLoop (maskStrings : Bool) : MaskState → List Char → List Char → List Char
  | _, _, [] => []
  | .normal, before, '"' :: rest =>
    (if maskStrings then ' ' else '"') :: maskLoop maskStrings .inString ('"' :: before) rest
  | .normal, before, '/' :: '/' :: rest =>
    ' ' :: ' ' :: maskLoop maskStrings .inLineComment ('/' :: '/' :: before) rest
  | .normal, before, '/' :: '*' :: rest =>
    ' ' :: ' ' :: maskLoop maskStrings .inBlockComment ('*' :: '/' :: before) rest
  | .normal, before, c :: rest => c :: maskLoop maskStrings .normal (c :: before) rest
  | .inString, before, c :: rest =>
    (if maskStrings then ' ' else c) ::
      maskLoop maskStrings
        (if c = '"' ∧ backslashCount before % 2 = 0 then .normal else .inString)
        (c :: before) rest
  | .inLineComment, before, c :: rest =>
    if c = '\n' then c :: maskLoop maskStrings .normal (c :: before) rest
    else ' ' :: maskLoop maskStrings .inLineComment (c :: before) rest
  | .inBlockComment, before, '*' :: '/' :: rest =>
    ' ' :: ' ' :: maskLoop maskStrings .normal ('/' :: '*' :: before) rest
  | .inBlockComment, before, c :: rest =>
    (if c = '\n' then c else ' ') :: maskLoop maskStrings .inBlockComment (c :: before) rest

/-- `_mask_non_code`. -/
def maskNonCode (content : String) (maskStrings : Bool) : String :=
  String.ofList (maskLoop maskStrings .normal [] content.toList)

/-- `strip_comments`. -/
def stripComments (content : String) : String := maskNonCode content false

/-! ### Lines -/

/-- The characters at which `str.splitlines` ends a line. -/
def isLineBreak (c : Char) : Bool :=
  c ∈ ['\n', '\r', '\x0b', '\x0c', '\x1c', '\x1d', '\x1e', '\u0085', '\u2028', '\u2029']

/-- The lines of a text, with the characters of the first one read so far, the last of
them first. -/
def linesFrom : List Char → List Char → List String
  | [], [] => []
  | line, [] => [String.ofList line.reverse]
  | line, '\r' :: '\n' :: rest => String.ofList line.reverse :: linesFrom [] rest
  | line, c :: rest =>
    if isLineBreak c then String.ofList line.reverse :: linesFrom [] rest
    else linesFrom (c :: line) rest

/-- `text.splitlines()`. -/
def splitlines (text : String) : List String := linesFrom [] text.toList

namespace ScadStaticValidator

/-- Empty lines are added up to a number of lines. -/
def padLines (count : ℕ) (lines : List String) : List String :=
  lines ++ List.replicate (count - lines.length) ""

/-- `get_snippets`: at most two lines, each cut to 150 characters. -/
def getSnippets (origLines : List String) (indices : List ℕ) : List String :=
  (indices.take 2).map fun idx =>
    "  * Line " ++ toString (idx + 1) ++ ": " ++ cutLine 150 (origLines.getD idx "")

/-- The indices of the lines that pass a test. -/
def indicesOf (test : String → Bool) (lines : List String) : List ℕ :=
  (lines.zipIdx.filter fun l => test l.1).map Prod.snd

/-! ### Patterns -/

open Regex (Pattern)

/-- A letter of a pattern with `re.IGNORECASE`; `i` and `s` have further forms. -/
def caseless (c d : Char) : Bool :=
  d.toLower = c.toLower ∨ (c.toLower = 'i' ∧ (d = 'İ' ∨ d = 'ı')) ∨
    (c.toLower = 's' ∧ d = 'ſ')

/-- A sequence of patterns. -/
def inOrder : List (Pattern Char) → Pattern Char
  | [] => .empty
  | r :: rs => .seq r (inOrder rs)

/-- A word, whatever the case of its letters. -/
def anyCase (text : String) : Pattern Char := inOrder (text.toList.map fun c => .one (caseless c))

def spaces : Pattern Char := .greedy isSpace

/-- `\s+`. -/
def someSpaces : Pattern Char := .seq (.one isSpace) (.greedy isSpace)

variable (wordChar : Char → Bool)

/-- `\b`, where `wordChar` is the class `\w`. -/
def boundary : Pattern Char := .edge wordChar

def isNameStart (c : Char) : Bool := ('A' ≤ c ∧ c ≤ 'Z') ∨ ('a' ≤ c ∧ c ≤ 'z') ∨ c = '_'

def isNameChar (c : Char) : Bool := isNameStart c ∨ ('0' ≤ c ∧ c ≤ '9')

def vectorPattern : Pattern Char :=
  inOrder [boundary wordChar, .one isNameStart, .greedy isNameChar, spaces, .one (· = '.'),
    spaces, .one fun c => c = 'x' ∨ c = 'y' ∨ c = 'z', boundary wordChar]

def radianPattern : Pattern Char :=
  .alt
    (inOrder [boundary wordChar, anyCase "180", spaces, .one (· = '/'), spaces, anyCase "PI",
      boundary wordChar])
    (inOrder [boundary wordChar, anyCase "PI", spaces, .one (· = '/'), spaces, anyCase "180",
      boundary wordChar])

/-- Two words of prose. -/
def twoWords (a b : String) : Pattern Char :=
  inOrder [boundary wordChar, anyCase a, someSpaces, anyCase b, boundary wordChar]

def prosePattern : Pattern Char :=
  .alt (twoWords wordChar "Here" "is") <| .alt (twoWords wordChar "The" "following") <|
    .alt (twoWords wordChar "Below" "is") <| .alt (anyCase "아래는") <|
      .alt (anyCase "다음은") (inOrder [anyCase "다음", someSpaces, anyCase "코드는"])

def keywords : List String :=
  ["module", "polyhedron", "cube", "sphere", "cylinder", "difference", "union", "intersection",
    "translate", "rotate", "scale", "linear_extrude", "rotate_extrude", "hull", "minkowski",
    "text", "import"]

def keywordPattern (keyword : String) : Pattern Char :=
  inOrder [boundary wordChar, Regex.word keyword.toList, boundary wordChar]

def found (r : Pattern Char) (text : String) : Bool := (Regex.search r text.toList).isSome

/-! ### Rules -/

/-- A rule about lines: it is violated if a line passes the test, and reports the first
such lines. -/
def lineRule (desc : String) (origLines lines : List String) (test : String → Bool) :
    List (String × List String) :=
  let indices := indicesOf test lines
  if indices = [] then [] else [(desc, getSnippets origLines indices)]

/-- The violated rules, each with its description and snippets. -/
def violations (content : String) : List (String × List String) :=
  let masked := maskNonCode content true
  let numLines := max (splitlines content).length (splitlines masked).length
  let origLines := padLines numLines (splitlines content)
  let strippedLines := padLines numLines (splitlines masked)
  lineRule ("- [SCAD_MARKDOWN_FENCE] Markdown code fences are forbidden.\n" ++
      "  Return raw OpenSCAD code only inside .scad file content.")
      origLines origLines (fun line => contains line "```") ++
  lineRule ("- [SCAD_VECTOR_PROPERTY_ACCESS] Forbidden vector property access found.\n" ++
      "  Use index access instead: point[0], point[1], point[2]. Never use .x, .y, or .z.")
      origLines strippedLines (found (vectorPattern wordChar)) ++
  lineRule ("- [SCAD_SINGLE_QUOTE] Single quotes are forbidden.\n" ++
      "  Use double quotes for strings.")
      origLines strippedLines (fun line => contains line "'") ++
  lineRule ("- [SCAD_RADIAN_CONVERSION] Radian conversion formulas (180/PI or PI/180) are " ++
      "forbidden.\n  OpenSCAD trigonometric functions use degrees directly.")
      origLines strippedLines (found (radianPattern wordChar)) ++
  lineRule ("- [SCAD_PROSE] Prose explanations or conversational prefixes are forbidden " ++
      "inside .scad content.")
      origLines strippedLines (found (prosePattern wordChar)) ++
  if keywords.any fun keyword => found (keywordPattern wordChar keyword) masked then []
  else [("- [SCAD_MISSING_KEYWORD] OpenSCAD structure is missing.\n" ++
    "  The file must contain valid OpenSCAD keywords " ++
    "(e.g., module, polyhedron, cube, sphere, translate).", [])]

/-! ### The message -/

def header : String := "OpenSCAD static validation failed:\n"

/-- The text of one violation. -/
def blockText (violation : String × List String) : String :=
  "\n".intercalate
    (violation.1 :: if violation.2 = [] then [] else "  Snippet:" :: violation.2) ++ "\n"

/-- The blocks that fit when `currentLen` characters are used, and the notice if one did
not fit. -/
def finalLines : ℕ → List String → List String
  | _, [] => []
  | currentLen, block :: blocks =>
    if 1450 < currentLen + block.length then ["... [additional violations omitted]"]
    else block :: finalLines (currentLen + block.length) blocks

def detailedMessage (violated : List (String × List String)) : String :=
  strip (header ++ String.join (finalLines header.length (violated.map blockText)))

/-- `ScadStaticValidator.validate`. -/
def validate (content : String) : Except Exn Unit :=
  if strip content = "" then
    .error (.planValidation ("OpenSCAD static validation failed:\n" ++
      "- [SCAD_EMPTY_FILE] OpenSCAD content is empty or only whitespace.") 400
      "VALIDATION_ERROR")
  else
    match violations wordChar content with
    | [] => .ok ()
    | violated => .error (.planValidation (detailedMessage violated) 400 "VALIDATION_ERROR")

end ScadStaticValidator

end CliExecutionPlatform
