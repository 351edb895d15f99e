/-
The lines that the validation of OpenSCAD code reports.

Rules about code are checked on the lines of the masked text, and what is reported are the
lines of the original text with the same numbers.  The two agree where every line of the
content ends in code, or at a newline of a comment: masking leaves no line break in a
string, and no other separator in a comment.

* `sameBreaks_iff` — when masking keeps all the places where a line ends;
* `codeLines` — the lines of the content with nothing but their code, by the lexer;
  `lines_masked` — the lines of the masked text;
* `Rule` — the rules, with their texts and tests; `violations_eq`;
* **`reported_lines_right`** — when the reported lines are the lines with the violations.
-/
import CliExecutionPlatform.ScadMask
import CliExecutionPlatform.TextLines

open Files

namespace CliExecutionPlatform

/-! ### Where lines end -/

namespace Scad

/-- The characters of a text with their kinds. -/
def lexed (content : String) : List (Kind × Char) :=
  (lex .code content.toList).zip content.toList

/-- A line break that is still there when everything but code is masked. -/
def Keeps (c : Kind × Char) : Prop := c.1 = .code ∨ (c.1 = .comment ∧ c.2 = '\n')

/-- Every line ends in code or at a newline of a comment: not in a string, and not at
another separator of a comment. -/
def Kept (text : List (Kind × Char)) : Prop :=
  ∀ i, EndsLine (text.map Prod.snd) i → ∃ c, text[i]? = some c ∧ Keeps c

instance (c : Kind × Char) : Decidable (Keeps c) := inferInstanceAs (Decidable (_ ∨ _))

theorem kept_iff_forall_lt {text : List (Kind × Char)} :
    (∀ i < text.length, EndsLine (text.map Prod.snd) i → (text[i]?.any (Keeps ·)) = true) ↔
      Kept text := by
  simp only [Option.any_eq_true, decide_eq_true_eq, Kept]
  refine ⟨fun h i hi => h i ?_ hi, fun h i _ hi => h i hi⟩
  obtain ⟨c, hc, -⟩ := hi
  simpa using (List.getElem?_eq_some_iff.mp hc).1

instance (text : List (Kind × Char)) : Decidable (Kept text) :=
  decidable_of_iff _ kept_iff_forall_lt

/-- The text with its comments and strings masked. -/
def masked (text : List (Kind × Char)) : List Char := text.map fun c => render true c.1 c.2

theorem map_snd_lexed (content : String) : (lexed content).map Prod.snd = content.toList := by
  rw [lexed, List.map_snd_zip]
  rw [length_lex]

theorem masked_lexed (content : String) :
    masked (lexed content) = (maskNonCode content true).toList := by
  rw [toList_maskNonCode, masked, lexed, ← List.map_uncurry_zip_eq_zipWith]
  rfl

theorem render_of_keeps {c : Kind × Char} (h : Keeps c) : render true c.1 c.2 = c.2 := by
  rcases h with hcode | ⟨hcomment, hnewline⟩
  · rw [hcode, render]
  · rw [hcomment, render, if_pos hnewline]

/-- Masking puts nothing but spaces in the place of a character. -/
theorem render_true_or (c : Kind × Char) :
    render true c.1 c.2 = ' ' ∨ (render true c.1 c.2 = c.2 ∧ Keeps c) := by
  obtain ⟨kind, c⟩ := c
  cases kind with
  | code => exact .inr ⟨rfl, .inl rfl⟩
  | string => exact .inl rfl
  | comment =>
    by_cases hc : c = '\n'
    · exact .inr ⟨if_pos hc, .inr ⟨rfl, hc⟩⟩
    · exact .inl (if_neg hc)

/-- A character of the masked text that is not a space. -/
theorem getElem_masked {text : List (Kind × Char)} {i : ℕ} {d : Char} (hd : d ≠ ' ')
    (h : (masked text)[i]? = some d) : ∃ c, text[i]? = some c ∧ c.2 = d ∧ Keeps c := by
  rw [masked, List.getElem?_map, Option.map_eq_some_iff] at h
  obtain ⟨c, hc, hrender⟩ := h
  rcases render_true_or c with hblank | ⟨hsame, hkeeps⟩
  · exact absurd (hrender.symm.trans hblank) hd
  · exact ⟨c, hc, hsame.symm.trans hrender, hkeeps⟩

theorem getElem_masked_of_keeps {text : List (Kind × Char)} {i : ℕ} {c : Kind × Char}
    (h : text[i]? = some c) (hkeeps : Keeps c) : (masked text)[i]? = some c.2 := by
  rw [masked, List.getElem?_map, h, Option.map_some, render_of_keeps hkeeps]

theorem lineBreak_ne_space {c : Char} (h : isLineBreak c = true) : c ≠ ' ' := by
  rintro rfl
  exact absurd h (by decide)

/-- **The masked text has its line breaks where the text has them** exactly if each of them
is kept. -/
theorem sameBreaks_iff (text : List (Kind × Char)) :
    (∀ i, EndsLine (masked text) i ↔ EndsLine (text.map Prod.snd) i) ↔ Kept text := by
  constructor
  -- A line break of the masked text is no blank, so the character was kept.
  · intro hsame i hends
    obtain ⟨d, hd, hbreak, -⟩ := (hsame i).mpr hends
    obtain ⟨c, hc, -, hkeeps⟩ := getElem_masked (lineBreak_ne_space hbreak) hd
    exact ⟨c, hc, hkeeps⟩
  · intro hkept i
    constructor
    · rintro ⟨d, hd, hbreak, hcrlf⟩
      obtain ⟨c, hc, rfl, -⟩ := getElem_masked (lineBreak_ne_space hbreak) hd
      refine ⟨c.2, by rw [List.getElem?_map, hc]; rfl, hbreak, fun ⟨hcr, hnext⟩ => hcrlf ⟨hcr, ?_⟩⟩
      -- the newline after a carriage return ends the line, so it is kept as well
      obtain ⟨c', hc', hkeeps'⟩ := hkept (i + 1) (endsLine_newline hnext)
      rw [List.getElem?_map, hc', Option.map_some, Option.some_inj] at hnext
      rw [getElem_masked_of_keeps hc' hkeeps', hnext]
    · intro hends
      obtain ⟨c, hc, hkeeps⟩ := hkept i hends
      obtain ⟨d, hd, hbreak, hcrlf⟩ := hends
      rw [List.getElem?_map, hc, Option.map_some, Option.some_inj] at hd
      subst hd
      refine ⟨c.2, getElem_masked_of_keeps hc hkeeps, hbreak, fun ⟨hcr, hnext⟩ => hcrlf ⟨hcr, ?_⟩⟩
      obtain ⟨c', hc', hnewline, -⟩ := getElem_masked (by decide) hnext
      rw [List.getElem?_map, hc', Option.map_some, hnewline]

/-! ### The code of a line -/

/-- The lines of a text, with the kinds of its characters. -/
def lexedLines : List (Kind × Char) → List (Kind × Char) → List (List (Kind × Char))
  | [], [] => []
  | line, [] => [line.reverse]
  | line, (_, '\r') :: (_, '\n') :: rest => line.reverse :: lexedLines [] rest
  | line, c :: rest =>
    if isLineBreak c.2 then line.reverse :: lexedLines [] rest else lexedLines (c :: line) rest

/-- A character of the code; what is not code is blank. -/
def codeChar (c : Kind × Char) : Char := if c.1 = .code then c.2 else ' '

/-- The code of a line. -/
def codeOf (line : List (Kind × Char)) : String := String.ofList (line.map codeChar)

/-- The lines of a content with their code only: comments and strings are blank. -/
def codeLines (content : String) : List String := (lexedLines [] (lexed content)).map codeOf

/-- The lines of a text are its lines with kinds. -/
theorem linesFrom_eq (line text : List (Kind × Char)) :
    linesFrom (line.map Prod.snd) (text.map Prod.snd) =
      (lexedLines line text).map fun l => String.ofList (l.map Prod.snd) := by
  -- `lexedLines` has the clauses of `linesFrom`; the kinds play no part.
  fun_induction lexedLines line text with
  | case1 => rfl
  | case2 line hline =>
    rw [List.map_nil, linesFrom, List.map_singleton, List.map_reverse]
    intro hnil
    exact hline (List.map_eq_nil_iff.mp hnil)
  | case3 line kind kind' rest ih =>
    rw [List.map_cons, List.map_cons, linesFrom, List.map_cons, List.map_reverse, ← ih]
    rfl
  | case4 line c rest hcrlf hbreak ih =>
    rw [List.map_cons, linesFrom, if_pos hbreak, List.map_cons, List.map_reverse, ← ih]
    · rfl
    · intro rest' hcr hrest
      obtain ⟨c', rest'', rfl, hnewline, -⟩ := List.map_eq_cons_iff.mp hrest
      exact hcrlf c.1 c'.1 rest'' (Prod.ext rfl hcr) (by rw [← hnewline])
  | case5 line c rest hcrlf hbreak ih =>
    rw [List.map_cons, linesFrom, if_neg hbreak, ← ih]
    · rfl
    · intro rest' hcr hrest
      obtain ⟨c', rest'', rfl, hnewline, -⟩ := List.map_eq_cons_iff.mp hrest
      exact hcrlf c.1 c'.1 rest'' (Prod.ext rfl hcr) (by rw [← hnewline])

/-- The first line break of a text is kept if they all are. -/
theorem Kept.head {c : Kind × Char} {rest : List (Kind × Char)} (h : Kept (c :: rest))
    (hbreak : isLineBreak c.2 = true)
    (hcrlf : ¬ (c.2 = '\r' ∧ (rest.map Prod.snd)[0]? = some '\n')) : Keeps c := by
  obtain ⟨c', hc', hkeeps⟩ := h 0 ⟨c.2, rfl, hbreak, hcrlf⟩
  rw [List.getElem?_cons_zero, Option.some_inj] at hc'
  rw [hc']
  exact hkeeps

theorem Kept.tail {c : Kind × Char} {rest : List (Kind × Char)} (h : Kept (c :: rest)) :
    Kept rest := by
  intro i hends
  exact h (i + 1) ((endsLine_succ c.2 _ i).mpr hends)

/-- A character within a line is code, or blank. -/
theorem render_of_not_break {c : Kind × Char} (h : isLineBreak c.2 = false) :
    render true c.1 c.2 = codeChar c := by
  obtain ⟨kind, c⟩ := c
  cases kind with
  | code => rfl
  | string => rfl
  | comment =>
    have hc : c ≠ '\n' := by
      rintro rfl
      exact absurd h (by decide)
    exact if_neg hc

theorem codeChar_not_break {c : Kind × Char} (h : isLineBreak c.2 = false) :
    isLineBreak (codeChar c) = false := by
  rw [codeChar]
  split
  · exact h
  · rfl

/-- The code of a line as the masked text has it: the carriage return of a comment leaves a
blank. -/
def ShowsCode (line : List (Kind × Char)) (shown : String) : Prop :=
  shown = codeOf line ∨ shown = codeOf line ++ " "

theorem showsCode_reverse (line : List (Kind × Char)) :
    ShowsCode line.reverse (String.ofList (line.map codeChar).reverse) := by
  left
  rw [codeOf, List.map_reverse]

theorem showsCode_blank (line : List (Kind × Char)) :
    ShowsCode line.reverse (String.ofList (' ' :: line.map codeChar).reverse) := by
  right
  rw [codeOf, List.map_reverse, List.reverse_cons, String.ofList_append]

/-- **The lines of the masked text** are the code of the lines, as long as the line breaks
are kept. -/
theorem lines_masked (line text : List (Kind × Char)) (hkept : Kept text) :
    List.Forall₂ ShowsCode (lexedLines line text)
      (linesFrom (line.map codeChar) (masked text)) := by
  unfold masked
  fun_induction lexedLines line text with
  | case1 => exact .nil
  | case2 line hline =>
    rw [List.map_nil, linesFrom]
    · exact .cons (showsCode_reverse line) .nil
    · intro hnil
      exact hline (List.map_eq_nil_iff.mp hnil)
  -- A carriage return with its newline: in a comment only the newline is kept.
  | case3 line kind kind' rest ih =>
    have hkept' := hkept.tail
    have hnewline : render true kind' '\n' = '\n' :=
      render_of_keeps (hkept'.head rfl (fun h => absurd (show '\n' = '\r' from h.1) (by decide)))
    have ih := ih hkept'.tail
    simp only [List.map_cons, hnewline]
    by_cases hcode : kind = .code
    · rw [hcode, render, linesFrom]
      exact .cons (showsCode_reverse line) ih
    · have hblank : render true kind '\r' = ' ' := by
        cases kind with
        | code => exact absurd rfl hcode
        | string => rfl
        | comment => rfl
      rw [hblank, linesFrom_blank_newline]
      exact .cons (showsCode_blank line) ih
  | case4 line c rest hcrlf hbreak ih =>
    have hnot : ∀ c', rest[0]? = some c' → c'.2 = '\n' → c.2 ≠ '\r' := by
      intro c' hc' hnewline hcr
      cases rest with
      | nil => exact absurd hc' (by simp)
      | cons c'' rest =>
        rw [List.getElem?_cons_zero, Option.some_inj] at hc'
        exact hcrlf c.1 c'.1 rest (Prod.ext rfl hcr) (by rw [hc', ← hnewline])
    have hkeeps : Keeps c := by
      refine hkept.head hbreak ?_
      rintro ⟨hcr, hnext⟩
      rw [List.getElem?_map, Option.map_eq_some_iff] at hnext
      obtain ⟨c', hc', hnewline⟩ := hnext
      exact hnot c' hc' hnewline hcr
    rw [List.map_cons, render_of_keeps hkeeps, linesFrom, if_pos hbreak]
    · exact .cons (showsCode_reverse line) (ih hkept.tail)
    · -- a newline of the masked text is one of the text
      intro rest' hcr hrest
      have hnext : (masked rest)[0]? = some '\n' := by
        rw [masked, hrest]
        rfl
      obtain ⟨c', hc', hnewline, -⟩ := getElem_masked (by decide) hnext
      exact hnot c' hc' hnewline hcr
  | case5 line c rest hcrlf hbreak ih =>
    have hbreak : isLineBreak c.2 = false := Bool.eq_false_iff.mpr hbreak
    have hshown : isLineBreak (codeChar c) = false := codeChar_not_break hbreak
    rw [List.map_cons, render_of_not_break hbreak, linesFrom, if_neg (by rw [hshown]; simp)]
    · exact ih hkept.tail
    · intro rest' hcr _
      rw [hcr] at hshown
      exact absurd hshown (by decide)

/-- A line of the masked text with its number. -/
theorem getElem_masked_line {content : String} (hkept : Kept (lexed content)) {k : ℕ}
    {shown : String} (h : (splitlines (maskNonCode content true))[k]? = some shown) :
    ∃ line code, (splitlines content)[k]? = some line ∧ (codeLines content)[k]? = some code ∧
      (shown = code ∨ shown = code ++ " ") := by
  have hlines := lines_masked [] (lexed content) hkept
  rw [masked_lexed] at hlines
  have hk : k < (lexedLines [] (lexed content)).length := by
    rw [hlines.length_eq]
    exact (List.getElem?_eq_some_iff.mp h).1
  obtain ⟨l, hl⟩ : ∃ l, (lexedLines [] (lexed content))[k]? = some l :=
    ⟨_, List.getElem?_eq_getElem hk⟩
  -- The line with kinds gives both the line of the content and its code.
  refine ⟨String.ofList (l.map Prod.snd), codeOf l, ?_, ?_, ?_⟩
  · have horig := linesFrom_eq [] (lexed content)
    rw [map_snd_lexed] at horig
    rw [splitlines]
    exact (congrArg (·[k]?) horig).trans (by rw [List.getElem?_map, hl]; rfl)
  · rw [codeLines, List.getElem?_map, hl]
    rfl
  · obtain ⟨hk', hshown⟩ := List.getElem?_eq_some_iff.mp h
    obtain ⟨_, hl'⟩ := List.getElem?_eq_some_iff.mp hl
    have hget := hlines.get hk hk'
    rw [List.get_eq_getElem, List.get_eq_getElem] at hget
    rw [← hl', ← hshown]
    exact hget

theorem length_splitlines_masked {content : String} (hkept : Kept (lexed content)) :
    (splitlines (maskNonCode content true)).length = (splitlines content).length := by
  have hlines := (lines_masked [] (lexed content) hkept).length_eq
  have horig := congrArg List.length (linesFrom_eq [] (lexed content))
  rw [masked_lexed] at hlines
  rw [map_snd_lexed, List.length_map, hlines] at horig
  exact horig.symm

end Scad

/-! ### Rules -/

namespace ScadStaticValidator

open Scad
open Regex (Firm Still)

/-- The rules, in their order. -/
inductive Rule
  | emptyFile
  | markdownFence
  | vectorPropertyAccess
  | singleQuote
  | radianConversion
  | prose
  | missingKeyword
  deriving DecidableEq

namespace Rule

def id : Rule → String
  | emptyFile => "SCAD_EMPTY_FILE"
  | markdownFence => "SCAD_MARKDOWN_FENCE"
  | vectorPropertyAccess => "SCAD_VECTOR_PROPERTY_ACCESS"
  | singleQuote => "SCAD_SINGLE_QUOTE"
  | radianConversion => "SCAD_RADIAN_CONVERSION"
  | prose => "SCAD_PROSE"
  | missingKeyword => "SCAD_MISSING_KEYWORD"

/-- The text of a violation before its snippets. -/
def description : Rule → String
  | emptyFile => "- [SCAD_EMPTY_FILE] OpenSCAD content is empty or only whitespace."
  | markdownFence =>
    "- [SCAD_MARKDOWN_FENCE] Markdown code fences are forbidden.\n" ++
      "  Return raw OpenSCAD code only inside .scad file content."
  | vectorPropertyAccess =>
    "- [SCAD_VECTOR_PROPERTY_ACCESS] Forbidden vector property access found.\n" ++
      "  Use index access instead: point[0], point[1], point[2]. Never use .x, .y, or .z."
  | singleQuote =>
    "- [SCAD_SINGLE_QUOTE] Single quotes are forbidden.\n" ++ "  Use double quotes for strings."
  | radianConversion =>
    "- [SCAD_RADIAN_CONVERSION] Radian conversion formulas (180/PI or PI/180) are " ++
      "forbidden.\n  OpenSCAD trigonometric functions use degrees directly."
  | prose =>
    "- [SCAD_PROSE] Prose explanations or conversational prefixes are forbidden " ++
      "inside .scad content."
  | missingKeyword =>
    "- [SCAD_MISSING_KEYWORD] OpenSCAD structure is missing.\n" ++
      "  The file must contain valid OpenSCAD keywords " ++
      "(e.g., module, polyhedron, cube, sphere, translate)."

variable (wordChar : Char → Bool)

/-- A line that violates a rule about lines. -/
def test : Rule → String → Bool
  | markdownFence => fun line => contains line "```"
  | vectorPropertyAccess => found (vectorPattern wordChar)
  | singleQuote => fun line => contains line "'"
  | radianConversion => found (radianPattern wordChar)
  | prose => found (prosePattern wordChar)
  | emptyFile | missingKeyword => fun _ => false

end Rule

/-- The rules that are checked on the lines of the masked text. -/
def codeRules : List Rule := [.vectorPropertyAccess, .singleQuote, .radianConversion, .prose]

variable (wordChar : Char → Bool)

/-- What a rule about lines reports. -/
def lineReport (origLines lines : List String) (rule : Rule) : List (String × List String) :=
  lineRule rule.description origLines lines (rule.test wordChar)

/-- What the rule about keywords reports. -/
def keywordReport (masked : String) : List (String × List String) :=
  if keywords.any fun keyword => found (keywordPattern wordChar keyword) masked then []
  else [(Rule.missingKeyword.description, [])]

/-- The number of lines up to which both texts are padded. -/
def numLines (content : String) : ℕ :=
  max (splitlines content).length (splitlines (maskNonCode content true)).length

/-- The violations, rule by rule. -/
theorem violations_eq (content : String) :
    violations wordChar content =
      lineReport wordChar (padLines (numLines content) (splitlines content))
          (padLines (numLines content) (splitlines content)) .markdownFence ++
        codeRules.flatMap (lineReport wordChar (padLines (numLines content) (splitlines content))
          (padLines (numLines content) (splitlines (maskNonCode content true)))) ++
        keywordReport wordChar (maskNonCode content true) := by
  simp only [codeRules, List.flatMap_cons, List.flatMap_nil, List.append_nil, ← List.append_assoc]
  rfl

theorem mem_indicesOf {test : String → Bool} {lines : List String} {k : ℕ} :
    k ∈ indicesOf test lines ↔ ∃ line, lines[k]? = some line ∧ test line = true := by
  simp only [indicesOf, List.mem_map, List.mem_filter, Prod.exists, exists_eq_right,
    List.mem_zipIdx_iff_getElem?]

theorem mem_getSnippets {origLines : List String} {indices : List ℕ} {s : String}
    (h : s ∈ getSnippets origLines indices) : ∃ k ∈ indices,
      s = "  * Line " ++ toString (k + 1) ++ ": " ++ cutLine 150 (origLines.getD k "") := by
  obtain ⟨k, hk, rfl⟩ := List.mem_map.mp h
  exact ⟨k, List.mem_of_mem_take hk, rfl⟩

/-- A violation of a rule about lines. -/
theorem mem_lineReport {wordChar : Char → Bool} {origLines lines : List String} {rule : Rule}
    {desc : String} {snippets : List String}
    (h : (desc, snippets) ∈ lineReport wordChar origLines lines rule) :
    desc = rule.description ∧
      snippets = getSnippets origLines (indicesOf (rule.test wordChar) lines) := by
  rw [lineReport, lineRule] at h
  split at h
  · exact absurd h List.not_mem_nil
  · exact Prod.mk.inj (List.mem_singleton.mp h)

/-- The violation of the rule about keywords. -/
theorem mem_keywordReport {wordChar : Char → Bool} {masked desc : String}
    {snippets : List String} (h : (desc, snippets) ∈ keywordReport wordChar masked) :
    desc = Rule.missingKeyword.description ∧ snippets = [] := by
  rw [keywordReport] at h
  split at h
  · exact absurd h List.not_mem_nil
  · exact Prod.mk.inj (List.mem_singleton.mp h)

/-! ### A blank at the end of a line -/

theorem blind_inOrder {x : Char} {rs : List (Regex.Pattern Char)} (h : ∀ r ∈ rs, r.Blind x) :
    (inOrder rs).Blind x := by
  induction rs with
  | nil => trivial
  | cons r rs ih =>
    exact ⟨h r List.mem_cons_self, ih fun r' hr' => h r' (List.mem_cons_of_mem r hr')⟩

theorem blind_anyCase (x : Char) (text : String) : (anyCase text).Blind x := by
  apply blind_inOrder
  intro r hr
  obtain ⟨c, -, rfl⟩ := List.mem_map.mp hr
  trivial

theorem still_inOrder {rs : List (Regex.Pattern Char)} (h : ∀ r ∈ rs, Still r) :
    Still (inOrder rs) := by
  induction rs with
  | nil => exact Regex.still_empty
  | cons r rs ih =>
    exact (h r List.mem_cons_self).seq (ih fun r' hr' => h r' (List.mem_cons_of_mem r hr'))

/-- A sequence that ends with a pattern that does not take the character. -/
theorem firm_inOrder {x : Char} (front : List (Regex.Pattern Char)) {r : Regex.Pattern Char}
    {back : List (Regex.Pattern Char)} (hr : Firm x r) (hback : ∀ r' ∈ back, Still r') :
    Firm x (inOrder (front ++ r :: back)) := by
  induction front with
  | nil => exact hr.seq_left (still_inOrder hback)
  | cons a front ih => exact ih.seq_right a

theorem firm_anyCase {x : Char} (text : String) (front : List Char) (c : Char)
    (htext : text.toList = front ++ [c]) (hc : caseless c x = false) : Firm x (anyCase text) := by
  rw [anyCase, htext, List.map_append]
  exact firm_inOrder _ (Regex.firm_one hc) (by simp)

section Blank

variable {wordChar : Char → Bool} (hspace : wordChar ' ' = false)
include hspace

theorem blind_twoWords (a b : String) : (twoWords wordChar a b).Blind ' ' :=
  ⟨hspace, blind_anyCase _ _, ⟨trivial, trivial⟩, blind_anyCase _ _, hspace, trivial⟩

omit hspace in
theorem still_boundary : ∀ r ∈ [boundary wordChar], Still r := by
  intro r hr
  rw [List.mem_singleton.mp hr]
  exact Regex.still_edge wordChar

omit hspace in
theorem firm_twoWords (a : String) {b : String} (hb : Firm ' ' (anyCase b)) :
    Firm ' ' (twoWords wordChar a b) :=
  firm_inOrder [boundary wordChar, anyCase a, someSpaces] hb still_boundary

theorem blind_test_vector : (vectorPattern wordChar).Blind ' ' :=
  ⟨hspace, trivial, trivial, trivial, trivial, trivial, trivial, hspace, trivial⟩

theorem blind_test_radian : (radianPattern wordChar).Blind ' ' :=
  ⟨⟨hspace, blind_anyCase _ _, trivial, trivial, trivial, blind_anyCase _ _, hspace, trivial⟩,
    ⟨hspace, blind_anyCase _ _, trivial, trivial, trivial, blind_anyCase _ _, hspace, trivial⟩⟩

theorem blind_test_prose : (prosePattern wordChar).Blind ' ' :=
  ⟨blind_twoWords hspace _ _, blind_twoWords hspace _ _, blind_twoWords hspace _ _,
    blind_anyCase _ _, blind_anyCase _ _, blind_anyCase _ _, ⟨trivial, trivial⟩,
    blind_anyCase _ _, trivial⟩

omit hspace in
theorem firm_test_vector : Firm ' ' (vectorPattern wordChar) :=
  firm_inOrder [boundary wordChar, .one isNameStart, .greedy isNameChar, spaces,
    .one (· = '.'), spaces] (Regex.firm_one rfl) still_boundary

omit hspace in
theorem firm_test_radian : Firm ' ' (radianPattern wordChar) := by
  have hpi : Firm ' ' (anyCase "PI") := firm_anyCase "PI" ['P'] 'I' rfl (by decide)
  have hdegrees : Firm ' ' (anyCase "180") := firm_anyCase "180" ['1', '8'] '0' rfl (by decide)
  exact (firm_inOrder [boundary wordChar, anyCase "180", spaces, .one (· = '/'), spaces] hpi
    still_boundary).alt
    (firm_inOrder [boundary wordChar, anyCase "PI", spaces, .one (· = '/'), spaces] hdegrees
      still_boundary)

omit hspace in
theorem firm_test_prose : Firm ' ' (prosePattern wordChar) := by
  have his : Firm ' ' (anyCase "is") := firm_anyCase "is" ['i'] 's' rfl (by decide)
  have hfollowing : Firm ' ' (anyCase "following") :=
    firm_anyCase "following" ['f', 'o', 'l', 'l', 'o', 'w', 'i', 'n'] 'g' rfl (by decide)
  have hbelow : Firm ' ' (anyCase "아래는") := firm_anyCase "아래는" ['아', '래'] '는' rfl (by decide)
  have hnext : Firm ' ' (anyCase "다음은") := firm_anyCase "다음은" ['다', '음'] '은' rfl (by decide)
  have hcode : Firm ' ' (anyCase "코드는") := firm_anyCase "코드는" ['코', '드'] '는' rfl (by decide)
  refine (firm_twoWords "Here" his).alt <| (firm_twoWords "The" hfollowing).alt <|
    (firm_twoWords "Below" his).alt <| hbelow.alt <| hnext.alt ?_
  exact firm_inOrder [anyCase "다음", someSpaces] hcode (by simp)

omit hspace in
theorem found_blank {r : Regex.Pattern Char} (hblind : r.Blind ' ') (hfirm : Firm ' ' r)
    {line : String} (h : found r (line ++ " ") = true) : found r line = true := by
  rw [found, String.toList_append] at h
  exact Regex.isSome_searchFrom_concat hblind hfirm [] line.toList h

/-- A line that violates a rule with a blank at its end violates it without. -/
theorem test_blank {rule : Rule} (hrule : rule ∈ codeRules) {line : String}
    (h : rule.test wordChar (line ++ " ") = true) : rule.test wordChar line = true := by
  simp only [codeRules, List.mem_cons, List.not_mem_nil, or_false] at hrule
  obtain rfl | rfl | rfl | rfl := hrule
  · exact found_blank (blind_test_vector hspace) firm_test_vector h
  · have hquote : ("'").toList <:+: (line ++ " ").toList := of_decide_eq_true h
    apply decide_eq_true
    rw [String.toList_append] at hquote
    have hmem : '\'' ∈ line.toList ++ (" ").toList := hquote.subset (by decide)
    rcases List.mem_append.mp hmem with hmem | hmem
    · obtain ⟨front, back, heq⟩ := List.append_of_mem hmem
      exact ⟨front, back, by rw [heq]; simp⟩
    · exact absurd hmem (by decide)
  · exact found_blank (blind_test_radian hspace) firm_test_radian h
  · exact found_blank (blind_test_prose hspace) firm_test_prose h

end Blank

/-! ### Reported lines -/

/-- Every line that is reported under a rule about code has its own number and text, and its
code violates the rule. -/
def ReportsRight (content : String) : Prop :=
  ∀ rule ∈ codeRules, ∀ snippets, (rule.description, snippets) ∈ violations wordChar content →
    ∀ s ∈ snippets, ∃ k line code, (splitlines content)[k]? = some line ∧
      s = "  * Line " ++ toString (k + 1) ++ ": " ++ cutLine 150 line ∧
      (codeLines content)[k]? = some code ∧ rule.test wordChar code = true

theorem description_injective : Function.Injective Rule.description := by
  intro a b h
  cases a <;> cases b <;> first | rfl | exact absurd h (by decide +kernel)

/-- The violation of a rule about code is what its own check reports. -/
theorem mem_violations_codeRule {content : String} {rule : Rule} (hrule : rule ∈ codeRules)
    {snippets : List String} (h : (rule.description, snippets) ∈ violations wordChar content) :
    snippets = getSnippets (padLines (numLines content) (splitlines content))
      (indicesOf (rule.test wordChar)
        (padLines (numLines content) (splitlines (maskNonCode content true)))) := by
  rw [violations_eq, List.mem_append, List.mem_append, List.mem_flatMap] at h
  rcases h with (h | ⟨rule', -, h⟩) | h
  · rw [description_injective (mem_lineReport h).1] at hrule
    exact absurd hrule (by decide)
  · obtain ⟨hdesc, hsnippets⟩ := mem_lineReport h
    rw [hsnippets, description_injective hdesc]
  · rw [description_injective (mem_keywordReport h).1] at hrule
    exact absurd hrule (by decide)

/-- A content with a violation is rejected. -/
theorem validate_of_violations (content : String) (hne : strip content ≠ "")
    (hviolations : violations wordChar content ≠ []) :
    ∃ e, validate wordChar content = .error e := by
  rw [validate, if_neg hne]
  split
  · next hnone => exact absurd hnone hviolations
  · exact ⟨_, rfl⟩

/-- Where all line breaks are kept, the reported lines are right. -/
theorem reportsRight_of_kept {wordChar : Char → Bool} (hspace : wordChar ' ' = false)
    {content : String} (hkept : Kept (lexed content)) : ReportsRight wordChar content := by
  intro rule hrule snippets hv s hs
  rw [mem_violations_codeRule wordChar hrule hv] at hs
  -- the two texts have as many lines: nothing is padded
  have hlength := length_splitlines_masked hkept
  rw [numLines, hlength, max_self, padLines, padLines, hlength, Nat.sub_self,
    List.replicate_zero, List.append_nil, List.append_nil] at hs
  obtain ⟨k, hk, rfl⟩ := mem_getSnippets hs
  obtain ⟨shown, hshown, htest⟩ := mem_indicesOf.mp hk
  obtain ⟨line, code, hline, hcode, heq⟩ := getElem_masked_line hkept hshown
  refine ⟨k, line, code, hline, by rw [List.getD_eq_getElem?_getD, hline]; rfl, hcode, ?_⟩
  rcases heq with rfl | rfl
  · exact htest
  · exact test_blank hspace hrule htest

end ScadStaticValidator

open Scad ScadStaticValidator

/-- **Reported lines are right** — and the masked text has its line breaks where the content
has them — exactly for a content whose lines all end in code or at a newline of a comment.
A line break in a string is masked, and so is every separator of a comment but the newline:
the lines that follow are then reported with numbers and texts of other lines. -/
theorem reported_lines_right (wordChar : Char → Bool) (hspace : wordChar ' ' = false)
    (content : String) :
    ((∀ e, validate wordChar content = .error e → ReportsRight wordChar content) ∧
      ∀ i, EndsLine (maskNonCode content true).toList i ↔ EndsLine content.toList i) ↔
      Kept (lexed content) := by
  have hbreaks := sameBreaks_iff (lexed content)
  rw [masked_lexed, map_snd_lexed] at hbreaks
  constructor
  · intro h
    exact hbreaks.mp h.2
  · intro hkept
    exact ⟨fun _ _ => reportsRight_of_kept hspace hkept, hbreaks.mpr hkept⟩

/-- A comment that ends in a carriage return and a newline: the violation after it is
reported with its own line. -/
theorem reported_lines_right_crlf :
    Char.isAlphanum ' ' = false ∧ Kept (lexed "// a\r\nb = p.x;") ∧
      (∃ e, validate Char.isAlphanum "// a\r\nb = p.x;" = .error e) ∧
      ReportsRight Char.isAlphanum "// a\r\nb = p.x;" ∧
      ∀ i, EndsLine (maskNonCode "// a\r\nb = p.x;" true).toList i ↔
        EndsLine "// a\r\nb = p.x;".toList i := by
  have hkept : Kept (lexed "// a\r\nb = p.x;") := by decide +kernel
  have hviolation : (Rule.vectorPropertyAccess.description, ["  * Line 2: b = p.x;"]) ∈
      violations Char.isAlphanum "// a\r\nb = p.x;" := by decide +kernel
  obtain ⟨e, he⟩ := validate_of_violations Char.isAlphanum "// a\r\nb = p.x;" (by decide +kernel)
    (List.ne_nil_of_mem hviolation)
  obtain ⟨hright, hlines⟩ :=
    (reported_lines_right Char.isAlphanum (by decide) "// a\r\nb = p.x;").mpr hkept
  exact ⟨by decide, hkept, ⟨e, he⟩, hright e he, hlines⟩

/-- A string over two lines: the third line has the violation, and the second is reported. -/
theorem reported_line_of_two_line_string :
    splitlines "s = \"a\nb\";\np.x;" = ["s = \"a", "b\";", "p.x;"] ∧
      codeLines "s = \"a\nb\";\np.x;" = ["s =   ", "  ;", "p.x;"] ∧
      splitlines (maskNonCode "s = \"a\nb\";\np.x;" true) = ["s =      ;", "p.x;"] ∧
      (Rule.vectorPropertyAccess.description, ["  * Line 2: b\";"]) ∈
        violations Char.isAlphanum "s = \"a\nb\";\np.x;" ∧
      (∃ e, validate Char.isAlphanum "s = \"a\nb\";\np.x;" = .error e) ∧
      ¬ ReportsRight Char.isAlphanum "s = \"a\nb\";\np.x;" ∧
      EndsLine "s = \"a\nb\";\np.x;".toList 6 ∧
      ¬ EndsLine (maskNonCode "s = \"a\nb\";\np.x;" true).toList 6 := by
  have hlines : splitlines "s = \"a\nb\";\np.x;" = ["s = \"a", "b\";", "p.x;"] := by
    decide +kernel
  have hcode : codeLines "s = \"a\nb\";\np.x;" = ["s =   ", "  ;", "p.x;"] := by decide +kernel
  have hmem : (Rule.vectorPropertyAccess.description, ["  * Line 2: b\";"]) ∈
      violations Char.isAlphanum "s = \"a\nb\";\np.x;" := by decide +kernel
  refine ⟨hlines, hcode, by decide +kernel, hmem, ?_, ?_, ?_, ?_⟩
  · exact validate_of_violations _ _ (by decide +kernel) (List.ne_nil_of_mem hmem)
  · intro hright
    obtain ⟨k, line, code, hk, hs, hk', htest⟩ :=
      hright .vectorPropertyAccess (by decide) _ hmem _ List.mem_cons_self
    rw [hlines] at hk
    rw [hcode] at hk'
    rcases k with _ | _ | _ | k
    · exact absurd htest (by cases hk'; decide +kernel)
    · exact absurd htest (by cases hk'; decide +kernel)
    · exact absurd hs (by cases hk; decide +kernel)
    · cases hk
  · exact ⟨'\n', by decide +kernel, rfl, by decide⟩
  · rintro ⟨c, hc, hbreak, -⟩
    have hblank : (maskNonCode "s = \"a\nb\";\np.x;" true).toList[6]? = some ' ' := by
      decide +kernel
    rw [hblank, Option.some_inj] at hc
    exact absurd hbreak (by rw [← hc]; decide)

end CliExecutionPlatform
