/-
What masking keeps: a reference lexer of OpenSCAD.

The lexer reads a text from left to right.  In a string it keeps a flag that says
whether the next character is escaped; it never looks back.  `_mask_non_code` has no
such flag and counts the backslashes before a quote.

* `lex` — the kind of every character of a text; `render` — what becomes of a character
  of each kind;
* `Tracks` — how the state of the scanner and the text before it determine the state of
  the lexer; `maskLoop_eq` — they stay together;
* **`mask_agrees_with_lexer`** — masking is the lexer followed by `render`;
* `lex_blanked` — how the lexer reads a text without its comments;
  **`strip_comments_stable`** — masking what has been masked.
-/
import CliExecutionPlatform.ScadValidator

namespace CliExecutionPlatform

/-! ### The lexer -/

namespace Scad

/-- The states of the lexer. -/
inductive Mode
  | code
  | string (escaped : Bool)
  | lineComment
  | blockComment
  deriving DecidableEq

/-- What a character belongs to: the delimiters of a string or comment are part of it. -/
inductive Kind
  | code
  | string
  | comment
  deriving DecidableEq

/-- The kinds of the characters of a text. -/
def lex : Mode → List Char → List Kind
  | _, [] => []
  | .code, '"' :: rest => .string :: lex (.string false) rest
  | .code, '/' :: '/' :: rest => .comment :: .comment :: lex .lineComment rest
  | .code, '/' :: '*' :: rest => .comment :: .comment :: lex .blockComment rest
  | .code, _ :: rest => .code :: lex .code rest
  | .string true, _ :: rest => .string :: lex (.string false) rest
  | .string false, '\\' :: rest => .string :: lex (.string true) rest
  | .string false, '"' :: rest => .string :: lex .code rest
  | .string false, _ :: rest => .string :: lex (.string false) rest
  | .lineComment, '\n' :: rest => .comment :: lex .code rest
  | .lineComment, _ :: rest => .comment :: lex .lineComment rest
  | .blockComment, '*' :: '/' :: rest => .comment :: .comment :: lex .code rest
  | .blockComment, _ :: rest => .comment :: lex .blockComment rest

/-- Code stays, strings stay or are blanked, comments are blanked up to their
newlines. -/
def render (maskStrings : Bool) : Kind → Char → Char
  | .code, c => c
  | .string, c => if maskStrings then ' ' else c
  | .comment, c => if c = '\n' then c else ' '

theorem length_lex (mode : Mode) (text : List Char) : (lex mode text).length = text.length := by
  fun_induction lex mode text <;> simp_all

/-- The state of the scanner, with the text before it, and the state of the lexer: a
character of a string is escaped if an odd number of backslashes stands before it. -/
def Tracks (before : List Char) : MaskState → Mode → Prop
  | .normal, .code | .inLineComment, .lineComment | .inBlockComment, .blockComment => True
  | .inString, .string escaped => backslashCount before % 2 = if escaped then 1 else 0
  | _, _ => False

end Scad

open Scad

theorem backslashCount_backslash (before : List Char) :
    backslashCount ('\\' :: before) = backslashCount before + 1 := by
  simp [backslashCount]

theorem backslashCount_other {c : Char} (hc : c ≠ '\\') (before : List Char) :
    backslashCount (c :: before) = 0 := by
  simp [backslashCount, hc]

section Tracks

variable {before : List Char} {state : MaskState}

theorem state_of_code (h : Tracks before state .code) : state = .normal := by
  cases state <;> first | rfl | exact absurd h id

theorem state_of_lineComment (h : Tracks before state .lineComment) : state = .inLineComment := by
  cases state <;> first | rfl | exact absurd h id

theorem state_of_blockComment (h : Tracks before state .blockComment) :
    state = .inBlockComment := by
  cases state <;> first | rfl | exact absurd h id

theorem state_of_string {escaped : Bool} (h : Tracks before state (.string escaped)) :
    state = .inString ∧ backslashCount before % 2 = if escaped then 1 else 0 := by
  cases state <;> first | exact ⟨rfl, h⟩ | exact absurd h id

end Tracks

/-- A character of a string that does not close it. -/
theorem maskLoop_string (maskStrings : Bool) {before : List Char} {c : Char}
    (h : ¬ (c = '"' ∧ backslashCount before % 2 = 0)) (rest : List Char) :
    maskLoop maskStrings .inString before (c :: rest) =
      (if maskStrings then ' ' else c) :: maskLoop maskStrings .inString (c :: before) rest := by
  rw [maskLoop, if_neg h]

/-- The scanner and the lexer stay together. -/
theorem maskLoop_eq (maskStrings : Bool) (mode : Mode) (text : List Char) :
    ∀ state before, Tracks before state mode →
      maskLoop maskStrings state before text =
        List.zipWith (render maskStrings) (lex mode text) text := by
  -- one case for each clause of the lexer
  fun_induction lex mode text with
  | case1 mode =>
    intro state before _
    rw [maskLoop]
    rfl
  | case2 rest ih =>
    intro state before ht
    obtain rfl := state_of_code ht
    rw [maskLoop, ih .inString _ (by rw [Tracks, backslashCount_other (by decide)]; rfl)]
    rfl
  | case3 rest ih =>
    intro state before ht
    obtain rfl := state_of_code ht
    rw [maskLoop, ih .inLineComment _ trivial]
    rfl
  | case4 rest ih =>
    intro state before ht
    obtain rfl := state_of_code ht
    rw [maskLoop, ih .inBlockComment _ trivial]
    rfl
  | case5 c rest hquote hline hblock ih =>
    intro state before ht
    obtain rfl := state_of_code ht
    rw [maskLoop, ih .normal _ trivial]
    · rfl
    · exact hquote
    · exact hline
    · exact hblock
  | case6 c rest ih =>
    intro state before ht
    obtain ⟨rfl, hcount⟩ := state_of_string ht
    -- an odd number of backslashes: whatever the character is, it is escaped
    rw [maskLoop_string _ (by rw [hcount]; simp), ih .inString]
    · rfl
    · show backslashCount (c :: before) % 2 = 0
      by_cases hc : c = '\\'
      · rw [if_pos rfl] at hcount
        rw [hc, backslashCount_backslash]
        omega
      · rw [backslashCount_other hc]
  | case7 rest ih =>
    intro state before ht
    obtain ⟨rfl, hcount⟩ := state_of_string ht
    rw [maskLoop_string _ (by simp), ih .inString]
    · rfl
    · show backslashCount ('\\' :: before) % 2 = 1
      rw [if_neg (by simp)] at hcount
      rw [backslashCount_backslash]
      omega
  | case8 rest ih =>
    intro state before ht
    obtain ⟨rfl, hcount⟩ := state_of_string ht
    have hclose : '"' = '"' ∧ backslashCount before % 2 = 0 := ⟨rfl, hcount⟩
    rw [maskLoop, if_pos hclose, ih .normal _ trivial]
    rfl
  | case9 c rest hslash hquote ih =>
    intro state before ht
    obtain ⟨rfl, hcount⟩ := state_of_string ht
    rw [maskLoop_string _ (fun h => hquote h.1), ih .inString]
    · rfl
    · show backslashCount (c :: before) % 2 = 0
      rw [backslashCount_other hslash]
  | case10 rest ih =>
    intro state before ht
    obtain rfl := state_of_lineComment ht
    rw [maskLoop, if_pos rfl, ih .normal _ trivial]
    rfl
  | case11 c rest hnewline ih =>
    intro state before ht
    obtain rfl := state_of_lineComment ht
    rw [maskLoop, if_neg hnewline, ih .inLineComment _ trivial, List.zipWith_cons_cons, render,
      if_neg hnewline]
  | case12 rest ih =>
    intro state before ht
    obtain rfl := state_of_blockComment ht
    rw [maskLoop, ih .normal _ trivial]
    rfl
  | case13 c rest hclose ih =>
    intro state before ht
    obtain rfl := state_of_blockComment ht
    rw [maskLoop, ih .inBlockComment _ trivial]
    · rfl
    · exact hclose

theorem toList_maskNonCode (content : String) (maskStrings : Bool) :
    (maskNonCode content maskStrings).toList =
      List.zipWith (render maskStrings) (lex .code content.toList) content.toList := by
  rw [maskNonCode, String.toList_ofList]
  exact maskLoop_eq maskStrings .code content.toList .normal [] trivial

theorem length_maskNonCode (content : String) (maskStrings : Bool) :
    (maskNonCode content maskStrings).toList.length = content.toList.length := by
  rw [toList_maskNonCode, List.length_zipWith, length_lex, Nat.min_self]

/-- **Masking is the forward lexer.**  The lexer gives a kind to every character of the
content; the result has as many characters, and at each position stands what becomes of
the content's character according to its kind. -/
theorem mask_agrees_with_lexer (content : String) (maskStrings : Bool) :
    (lex .code content.toList).length = content.toList.length ∧
      (maskNonCode content maskStrings).toList.length = content.toList.length ∧
      ∀ i : ℕ, (maskNonCode content maskStrings).toList[i]? =
        (lex .code content.toList)[i]?.bind fun kind =>
          content.toList[i]?.map (render maskStrings kind) := by
  have hmask := toList_maskNonCode content maskStrings
  refine ⟨length_lex _ _, length_maskNonCode content maskStrings, fun i => ?_⟩
  rw [hmask, List.getElem?_zipWith]
  rcases (lex .code content.toList)[i]? with _ | kind
  · rfl
  · rcases content.toList[i]? with _ | c
    · rfl
    · rfl

/-- A quote after two backslashes closes the string, and one after a single backslash
does not. -/
example : maskNonCode "a = \"\\\\\"; // b\n/*/ c */ d" true =
    "a =     ;     \n         d" := by decide +kernel

/-! ### Masking twice -/

namespace Scad

/-- The kind of a character when the comments have been blanked. -/
def Kind.stripped : Kind → Kind
  | .comment => .code
  | kind => kind

def Mode.stripped : Mode → Mode
  | .lineComment | .blockComment => .code
  | mode => mode

theorem render_stripped (maskStrings : Bool) (kind : Kind) (c : Char) :
    render maskStrings kind.stripped (render false kind c) = render maskStrings kind c := by
  cases kind with
  | code => rfl
  | string => rfl
  | comment => rfl

theorem zipWith_stripped (maskStrings : Bool) (kinds : List Kind) (text : List Char) :
    List.zipWith (fun kind c => render maskStrings kind.stripped c) kinds
      (List.zipWith (render false) kinds text) = List.zipWith (render maskStrings) kinds text := by
  induction kinds generalizing text with
  | nil => rfl
  | cons kind kinds ih =>
    cases text with
    | nil => rfl
    | cons c text =>
      simp only [List.zipWith_cons_cons, ih text, render_stripped]

/-- Blanking comments puts nothing but spaces in the place of a character. -/
theorem render_false_or (kind : Kind) (c : Char) :
    render false kind c = c ∨ render false kind c = ' ' := by
  cases kind with
  | code => exact .inl rfl
  | string => exact .inl rfl
  | comment =>
    by_cases hc : c = '\n'
    · exact .inl (if_pos hc)
    · exact .inr (if_neg hc)

/-- The text without its comments. -/
def blanked (mode : Mode) (text : List Char) : List Char :=
  List.zipWith (render false) (lex mode text) text

/-- Blanking does not bring a slash or a star to the front of a text. -/
theorem blanked_eq_cons {mode : Mode} {text rest : List Char} {c : Char} (hc : c ≠ ' ')
    (h : blanked mode text = c :: rest) : ∃ rest', text = c :: rest' := by
  cases text with
  | nil => simp [blanked] at h
  | cons d text =>
    rw [blanked] at h
    obtain ⟨kind, kinds, hkinds⟩ :=
      List.exists_cons_of_length_eq_add_one (length_lex mode (d :: text))
    rw [hkinds, List.zipWith_cons_cons] at h
    rcases render_false_or kind d with hd | hd
    · rw [hd] at h
      exact ⟨text, by rw [(List.cons.inj h).1]⟩
    · rw [hd] at h
      exact absurd (List.cons.inj h).1 (Ne.symm hc)

/-- Where no comment and no string starts, code goes on. -/
theorem lex_code_cons {c : Char} {rest : List Char} (hquote : c ≠ '"')
    (hline : ∀ rest', c = '/' → rest = '/' :: rest' → False)
    (hblock : ∀ rest', c = '/' → rest = '*' :: rest' → False) :
    lex .code (c :: rest) = .code :: lex .code rest := by
  rw [lex]
  · exact hquote
  · exact hline
  · exact hblock

/-- A blank in code. -/
theorem lex_code_space (rest : List Char) : lex .code (' ' :: rest) = .code :: lex .code rest :=
  lex_code_cons (by decide) (fun _ h => absurd h (by decide)) (fun _ h => absurd h (by decide))

theorem lex_code_newline (rest : List Char) :
    lex .code ('\n' :: rest) = .code :: lex .code rest :=
  lex_code_cons (by decide) (fun _ h => absurd h (by decide)) (fun _ h => absurd h (by decide))

/-- A character of a comment becomes a blank or stays a newline; both are read as code. -/
theorem lex_code_comment (c : Char) (rest : List Char) :
    lex .code (render false .comment c :: rest) = .code :: lex .code rest := by
  by_cases hc : c = '\n'
  · rw [hc]
    exact lex_code_newline rest
  · rw [render, if_neg hc]
    exact lex_code_space rest

/-- The lexer reads the text without its comments as it has read the text, with code in the
place of the comments. -/
theorem lex_blanked (mode : Mode) (text : List Char) :
    lex mode.stripped (blanked mode text) = (lex mode text).map Kind.stripped := by
  unfold blanked
  fun_induction lex mode text with
  | case1 mode =>
    rw [List.zipWith_nil_left, List.map_nil, lex]
  | case5 c rest hquote hline hblock ih =>
    -- the next character is the same, or a space: no comment opens here now
    have hkeep : ∀ {d : Char} {rest' : List Char}, d ≠ ' ' →
        (∀ r, c = '/' → rest = d :: r → False) → c = '/' →
        List.zipWith (render false) (lex .code rest) rest = d :: rest' → False := by
      intro d rest' hd hnot hc heq
      obtain ⟨r, hr⟩ := blanked_eq_cons hd heq
      exact hnot r hc hr
    rw [List.zipWith_cons_cons, List.map_cons, ← ih]
    exact lex_code_cons hquote (fun _ => hkeep (by decide) hline)
      (fun _ => hkeep (by decide) hblock)
  | case2 rest ih =>
    rw [List.zipWith_cons_cons, List.map_cons, ← ih]
    rfl
  | case3 rest ih =>
    rw [List.zipWith_cons_cons, List.zipWith_cons_cons, List.map_cons, List.map_cons, ← ih]
    exact (lex_code_comment '/' _).trans (congrArg _ (lex_code_comment '/' _))
  | case4 rest ih =>
    rw [List.zipWith_cons_cons, List.zipWith_cons_cons, List.map_cons, List.map_cons, ← ih]
    exact (lex_code_comment '/' _).trans (congrArg _ (lex_code_comment '*' _))
  | case6 c rest ih =>
    rw [List.zipWith_cons_cons, List.map_cons, ← ih]
    show lex (.string true) (c :: _) = _
    rw [lex]
    rfl
  | case7 rest ih =>
    rw [List.zipWith_cons_cons, List.map_cons, ← ih]
    rfl
  | case8 rest ih =>
    rw [List.zipWith_cons_cons, List.map_cons, ← ih]
    rfl
  | case9 c rest hslash hquote ih =>
    rw [List.zipWith_cons_cons, List.map_cons, ← ih]
    show lex (.string false) (c :: _) = _
    rw [lex]
    · rfl
    · exact hslash
    · exact hquote
  | case10 rest ih =>
    rw [List.zipWith_cons_cons, List.map_cons, ← ih]
    exact lex_code_comment '\n' _
  | case11 c rest hnewline ih =>
    rw [List.zipWith_cons_cons, List.map_cons, ← ih]
    exact lex_code_comment c _
  | case12 rest ih =>
    rw [List.zipWith_cons_cons, List.zipWith_cons_cons, List.map_cons, List.map_cons, ← ih]
    exact (lex_code_comment '*' _).trans (congrArg _ (lex_code_comment '/' _))
  | case13 c rest hclose ih =>
    rw [List.zipWith_cons_cons, List.map_cons, ← ih]
    exact lex_code_comment c _

end Scad

/-- Masking after the comments have been stripped is masking. -/
theorem maskNonCode_stripComments (s : String) (maskStrings : Bool) :
    maskNonCode (stripComments s) maskStrings = maskNonCode s maskStrings := by
  have hstrip : (stripComments s).toList = blanked .code s.toList := toList_maskNonCode s false
  apply String.toList_inj.mp
  rw [toList_maskNonCode, toList_maskNonCode, hstrip]
  have hlex : lex .code (blanked .code s.toList) = (lex .code s.toList).map Kind.stripped :=
    lex_blanked .code s.toList
  rw [hlex, blanked, List.zipWith_map_left]
  exact zipWith_stripped maskStrings (lex .code s.toList) s.toList

/-- **Comment stripping is stable**: stripping twice is stripping once, and masking after
stripping is masking at once. -/
theorem strip_comments_stable (s : String) :
    stripComments (stripComments s) = stripComments s ∧
      maskNonCode (stripComments s) true = maskNonCode s true :=
  ⟨maskNonCode_stripComments s false, maskNonCode_stripComments s true⟩

end CliExecutionPlatform
