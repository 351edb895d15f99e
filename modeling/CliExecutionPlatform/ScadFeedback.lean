/-
The message of a failed validation of OpenSCAD code: bounded, and informative.

The message is built block by block.  A block that would take it past 1450 characters is
left out with all blocks after it, and a notice says so.  The first block always fits: it
has at most two snippets of a bounded length, and the number of a line of a content of at
most 5 MiB has at most seven digits.

* `violatedRules` — the violated rules of a content, in their order; `violations_rules` —
  they are what is reported;
* `length_getSnippets_le`, `length_snippet_le` — the snippets of a rule;
* `finalLines_split` — the blocks that are kept;
* **`bounded_scad_feedback`** — the message.
-/
import CliExecutionPlatform.ScadLines
import Mathlib.Data.Nat.Digits.Defs

open Files

namespace CliExecutionPlatform

namespace ScadStaticValidator

/-- There are no more lines, in both texts, than characters. -/
theorem numLines_le (content : String) : numLines content ≤ content.length := by
  have hlength : (maskNonCode content true).length = content.length := by
    rw [← String.length_toList, length_maskNonCode, String.length_toList]
  apply max_le
  · exact length_splitlines_le content
  · rw [← hlength]
    exact length_splitlines_le _

/-! ### Violated rules -/

variable (wordChar : Char → Bool)

/-- A content violates a rule. -/
def violated (content : String) : Rule → Bool
  | .emptyFile => decide (strip content = "")
  | .markdownFence => (splitlines content).any (Rule.markdownFence.test wordChar)
  | .missingKeyword =>
    !keywords.any fun keyword => found (keywordPattern wordChar keyword) (maskNonCode content true)
  | rule => (splitlines (maskNonCode content true)).any (rule.test wordChar)

/-- The rules for a file that is not empty. -/
def laterRules : List Rule := .markdownFence :: codeRules ++ [.missingKeyword]

/-- The violated rules, in their order.  An empty file is not checked any further. -/
def violatedRules (content : String) : List Rule :=
  if violated wordChar content .emptyFile then [.emptyFile]
  else laterRules.filter (violated wordChar content)

/-- The lines that are quoted for a rule. -/
def quoted (content : String) : Rule → List String
  | .emptyFile | .missingKeyword => []
  | .markdownFence => getSnippets (splitlines content)
      (indicesOf (Rule.markdownFence.test wordChar) (splitlines content))
  | rule => getSnippets (splitlines content)
      (indicesOf (rule.test wordChar) (splitlines (maskNonCode content true)))

theorem getD_padLines (count : ℕ) (lines : List String) (k : ℕ) :
    (padLines count lines).getD k "" = lines.getD k "" := by
  rw [padLines, List.getD_eq_getElem?_getD, List.getD_eq_getElem?_getD, List.getElem?_append]
  split
  · rfl
  · next hk =>
    rw [List.getElem?_eq_none (by omega : lines.length ≤ k), List.getElem?_replicate]
    split
    · rfl
    · rfl

theorem getSnippets_padLines (count : ℕ) (lines : List String) (indices : List ℕ) :
    getSnippets (padLines count lines) indices = getSnippets lines indices := by
  simp only [getSnippets, getD_padLines]

theorem filter_zipIdx_replicate {test : String → Bool} (hempty : test "" = false) (n k : ℕ) :
    ((List.replicate n "").zipIdx k).filter (fun l => test l.1) = [] := by
  rw [List.filter_eq_nil_iff]
  intro l hl
  have hline : l.1 = "" := List.eq_of_mem_replicate (List.fst_mem_of_mem_zipIdx hl)
  rw [hline, hempty]
  exact Bool.false_ne_true

/-- Lines that are padded are not reported. -/
theorem indicesOf_padLines {test : String → Bool} (hempty : test "" = false) (count : ℕ)
    (lines : List String) : indicesOf test (padLines count lines) = indicesOf test lines := by
  rw [indicesOf, padLines, List.zipIdx_append, List.filter_append,
    filter_zipIdx_replicate hempty, List.append_nil, indicesOf]

theorem indicesOf_eq_nil {test : String → Bool} {lines : List String} :
    indicesOf test lines = [] ↔ lines.any test = false := by
  rw [List.eq_nil_iff_forall_not_mem, List.any_eq_false]
  constructor
  · intro h line hline htest
    obtain ⟨k, hk⟩ := List.getElem?_of_mem hline
    exact h k (mem_indicesOf.mpr ⟨line, hk, htest⟩)
  · intro h k hk
    obtain ⟨line, hline, htest⟩ := mem_indicesOf.mp hk
    exact h line (List.mem_of_getElem? hline) htest

/-- No rule is violated by an empty line. -/
theorem test_empty (rule : Rule) : rule.test wordChar "" = false := by
  cases rule with
  | emptyFile => rfl
  | markdownFence => rfl
  | vectorPropertyAccess => rfl
  | singleQuote => rfl
  | radianConversion => rfl
  | prose => rfl
  | missingKeyword => rfl

/-- What a rule about lines reports, without padding. -/
theorem lineReport_padLines (count : ℕ) (origLines lines : List String) (rule : Rule) :
    lineReport wordChar (padLines count origLines) (padLines count lines) rule =
      if lines.any (rule.test wordChar) then
        [(rule.description, getSnippets origLines (indicesOf (rule.test wordChar) lines))]
      else [] := by
  rw [lineReport, lineRule, indicesOf_padLines (test_empty wordChar rule), getSnippets_padLines]
  by_cases hany : lines.any (rule.test wordChar) = true
  · rw [if_pos hany, if_neg]
    rw [indicesOf_eq_nil, hany]
    exact Bool.false_ne_true.symm
  · rw [if_neg hany, if_pos]
    rw [indicesOf_eq_nil]
    exact Bool.eq_false_iff.mpr hany

theorem flatMap_ite_singleton {α β : Type} (p : α → Bool) (f : α → β) (l : List α) :
    l.flatMap (fun a => if p a then [f a] else []) = (l.filter p).map f := by
  induction l with
  | nil => rfl
  | cons a l ih =>
    rw [List.flatMap_cons, ih]
    by_cases ha : p a = true
    · rw [if_pos ha, List.filter_cons_of_pos ha]
      rfl
    · rw [if_neg ha, List.filter_cons_of_neg ha]
      rfl

/-- The violations are the violated rules with their texts and snippets. -/
theorem violations_rules (content : String) :
    violations wordChar content = (laterRules.filter (violated wordChar content)).map fun rule =>
      (rule.description, quoted wordChar content rule) := by
  have hkeyword : keywordReport wordChar (maskNonCode content true) =
      if violated wordChar content .missingKeyword then
        [(Rule.missingKeyword.description, quoted wordChar content .missingKeyword)] else [] := by
    rw [keywordReport, violated]
    split
    · next hany => rw [hany]; rfl
    · next hany => rw [Bool.eq_false_iff.mpr hany]; rfl
  rw [← flatMap_ite_singleton, violations_eq, hkeyword, lineReport_padLines]
  simp only [codeRules, laterRules, List.flatMap_cons, List.flatMap_nil, List.append_nil,
    lineReport_padLines, List.cons_append, List.nil_append, List.append_assoc]
  rfl

/-! ### The lengths of blocks -/

/-- A snippet quotes a line of the content: all of it, or its first 150 characters and an
ellipsis. -/
def Quotes (content snippet : String) : Prop :=
  ∃ k line, k < numLines content ∧ line = (splitlines content).getD k "" ∧
    ((line.length ≤ 150 ∧ snippet = "  * Line " ++ toString (k + 1) ++ ": " ++ line) ∨
      ∃ cut, cut.length = 150 ∧ cut.toList <+: line.toList ∧
        snippet = "  * Line " ++ toString (k + 1) ++ ": " ++ (cut ++ "..."))

theorem length_getSnippets_le (origLines : List String) (indices : List ℕ) :
    (getSnippets origLines indices).length ≤ 2 := by
  rw [getSnippets, List.length_map, List.length_take]
  exact Nat.min_le_left 2 _

theorem quotes_of_mem_getSnippets {content : String} {test : String → Bool} {lines : List String}
    (hlines : lines.length ≤ numLines content) {s : String}
    (hs : s ∈ getSnippets (splitlines content) (indicesOf test lines)) : Quotes content s := by
  obtain ⟨k, hk, rfl⟩ := mem_getSnippets hs
  obtain ⟨line, hline, -⟩ := mem_indicesOf.mp hk
  have hlt := (List.getElem?_eq_some_iff.mp hline).1
  refine ⟨k, _, by omega, rfl, ?_⟩
  rw [cutLine]
  split
  · next hshort => exact .inl ⟨hshort, rfl⟩
  · next hlong =>
    refine .inr ⟨_, ?_, ?_, rfl⟩
    · rw [String.length_ofList, List.length_take]
      omega
    · rw [String.toList_ofList]
      exact List.take_prefix 150 _

variable {wordChar}

/-- The snippets of a rule about lines come from the lines of one of the two texts. -/
theorem quoted_cases (wordChar : Char → Bool) (content : String) (rule : Rule) :
    quoted wordChar content rule = [] ∨ ∃ lines : List String, lines.length ≤ numLines content ∧
      quoted wordChar content rule =
        getSnippets (splitlines content) (indicesOf (rule.test wordChar) lines) := by
  have horig : (splitlines content).length ≤ numLines content := le_max_left _ _
  have hmasked : (splitlines (maskNonCode content true)).length ≤ numLines content :=
    le_max_right _ _
  cases rule with
  | emptyFile => exact .inl rfl
  | missingKeyword => exact .inl rfl
  | markdownFence => exact .inr ⟨_, horig, rfl⟩
  | vectorPropertyAccess => exact .inr ⟨_, hmasked, rfl⟩
  | singleQuote => exact .inr ⟨_, hmasked, rfl⟩
  | radianConversion => exact .inr ⟨_, hmasked, rfl⟩
  | prose => exact .inr ⟨_, hmasked, rfl⟩

/-- At most two lines are quoted for a rule, each in the bounded form. -/
theorem quoted_bounded (wordChar : Char → Bool) (content : String) (rule : Rule) :
    (quoted wordChar content rule).length ≤ 2 ∧
      ∀ s ∈ quoted wordChar content rule, Quotes content s := by
  rcases quoted_cases wordChar content rule with hnone | ⟨lines, hlines, hquoted⟩
  · rw [hnone]
    exact ⟨Nat.zero_le 2, fun s hs => absurd hs List.not_mem_nil⟩
  · rw [hquoted]
    exact ⟨length_getSnippets_le _ _, fun s hs => quotes_of_mem_getSnippets hlines hs⟩

theorem length_snippet_le {content : String} (hsize : content.length ≤ 5 * 1024 * 1024)
    {s : String} (h : Quotes content s) : s.length ≤ 171 := by
  obtain ⟨k, line, hk, -, hs⟩ := h
  have hcount := numLines_le content
  have hdigits : (toString (k + 1)).length ≤ 7 := Nat.repr_length (k + 1) 7 (by omega) (by omega)
  have hfront : ("  * Line ").length = 9 := rfl
  have hcolon : (": ").length = 2 := rfl
  have hdots : ("...").length = 3 := rfl
  rcases hs with ⟨hline, rfl⟩ | ⟨cut, hcut, -, rfl⟩
  · simp only [String.length_append]
    omega
  · simp only [String.length_append]
    omega

/-- The length of a text that is written out, counted on its characters. -/
theorem length_le_of_chars {s : String} {l : List Char} {n : Nat} (hs : s = String.ofList l)
    (h : l.length ≤ n) : s.length ≤ n := by
  rw [hs, String.length_ofList]
  exact h

theorem length_append_le {s t : String} {m n : Nat} (hs : s.length ≤ m) (ht : t.length ≤ n) :
    (s ++ t).length ≤ m + n := by
  rw [String.length_append]
  exact Nat.add_le_add hs ht

theorem length_description_le (rule : Rule) : rule.description.length ≤ 200 := by
  -- The pieces of a text are counted one by one.
  cases rule with
  | emptyFile => exact length_le_of_chars rfl (by decide)
  | missingKeyword =>
    refine @length_append_le _ _ 120 80 (@length_append_le _ _ 70 50 ?_ ?_) ?_ <;>
      exact length_le_of_chars rfl (by decide)
  | _ =>
    refine @length_append_le _ _ 100 100 ?_ ?_ <;> exact length_le_of_chars rfl (by decide)

/-- The length of a block with at most two snippets. -/
theorem length_blockText_le {desc : String} {snippets : List String} (hcount : snippets.length ≤ 2)
    (hlength : ∀ s ∈ snippets, s.length ≤ 171) :
    (blockText (desc, snippets)).length ≤ desc.length + 356 := by
  have hnewline : ("\n").length = 1 := rfl
  have htitle : ("  Snippet:").length = 10 := rfl
  rcases snippets with _ | ⟨a, _ | ⟨b, _ | ⟨c, rest⟩⟩⟩
  · rw [blockText, if_pos rfl, String.intercalate_singleton, String.length_append, hnewline]
    exact Nat.add_le_add_left (by omega) desc.length
  · have ha := hlength a (by simp)
    rw [blockText, if_neg (List.cons_ne_nil _ _)]
    simp only [String.intercalate_cons_cons, String.intercalate_singleton, String.length_append]
    omega
  · have ha := hlength a (by simp)
    have hb := hlength b (by simp)
    rw [blockText, if_neg (List.cons_ne_nil _ _)]
    simp only [String.intercalate_cons_cons, String.intercalate_singleton, String.length_append]
    omega
  · simp at hcount

/-! ### The blocks that are kept -/

def notice : String := "... [additional violations omitted]"

/-- The blocks that are kept stay within the limit, and the notice says whether there are
others. -/
theorem finalLines_split (used : ℕ) (blocks : List String) (hused : used ≤ 1450) :
    ∃ shown left, blocks = shown ++ left ∧ used + (String.join shown).length ≤ 1450 ∧
      finalLines used blocks = shown ++ (if left = [] then [] else [notice]) ∧
      ∀ block ∈ blocks.head?, used + block.length ≤ 1450 → shown ≠ [] := by
  induction blocks generalizing used with
  | nil => exact ⟨[], [], rfl, hused, rfl, by simp⟩
  | cons block blocks ih =>
    by_cases hfits : used + block.length ≤ 1450
    · obtain ⟨shown, left, rfl, hlength, hlines, -⟩ := ih _ hfits
      refine ⟨block :: shown, left, rfl, ?_, ?_, by simp⟩
      · rw [String.join_cons, String.length_append]
        omega
      · rw [finalLines, if_neg (by omega), hlines]
        rfl
    · refine ⟨[], block :: blocks, rfl, hused, ?_, ?_⟩
      · rw [finalLines, if_pos (by omega)]
        rfl
      · intro block' hblock' hfits'
        rw [List.head?_cons, Option.mem_some_iff] at hblock'
        exact absurd (hblock' ▸ hfits') hfits

/-! ### The message -/

variable (wordChar) in
/-- The block of a violated rule. -/
def ruleBlock (content : String) (rule : Rule) : String :=
  blockText (rule.description, quoted wordChar content rule)

/-- The text for an empty file, which the source writes out, is the message of its rule. -/
theorem detailedMessage_emptyFile :
    detailedMessage [(Rule.emptyFile.description, [])] =
      "OpenSCAD static validation failed:\n" ++
        "- [SCAD_EMPTY_FILE] OpenSCAD content is empty or only whitespace." := by
  decide +kernel

/-- A rejected content violates a rule, and the error reports the violated rules. -/
theorem validate_error {content : String} {e : Exn}
    (h : validate wordChar content = .error e) :
    violatedRules wordChar content ≠ [] ∧
      e = .planValidation (detailedMessage ((violatedRules wordChar content).map fun rule =>
        (rule.description, quoted wordChar content rule))) 400 "VALIDATION_ERROR" := by
  rw [validate] at h
  by_cases hempty : strip content = ""
  · rw [if_pos hempty, Except.error.injEq] at h
    -- The text for an empty file is raised before anything else is checked.
    have hrules : violatedRules wordChar content = [.emptyFile] :=
      if_pos (decide_eq_true hempty)
    rw [hrules, ← h]
    refine ⟨List.cons_ne_nil _ _, ?_⟩
    rw [List.map_singleton, quoted, detailedMessage_emptyFile]
  · have hrules : violatedRules wordChar content =
        laterRules.filter (violated wordChar content) :=
      if_neg (fun hv => hempty (of_decide_eq_true hv))
    rw [if_neg hempty, violations_rules, ← hrules] at h
    rcases hv : violatedRules wordChar content with _ | ⟨rule, rules⟩
    · rw [hv] at h
      exact absurd h (by simp)
    · rw [hv] at h
      refine ⟨List.cons_ne_nil _ _, ?_⟩
      simp only [List.map_cons, Except.error.injEq] at h
      rw [← h]
      rfl

/-- The first block fits. -/
theorem length_ruleBlock_le {content : String} (hsize : content.length ≤ 5 * 1024 * 1024)
    (rule : Rule) : header.length + (ruleBlock wordChar content rule).length ≤ 1450 := by
  obtain ⟨hcount, hquotes⟩ := quoted_bounded wordChar content rule
  have hblock : (ruleBlock wordChar content rule).length ≤ rule.description.length + 356 :=
    length_blockText_le hcount fun s hs => length_snippet_le hsize (hquotes s hs)
  have hdesc := length_description_le rule
  have hheader : header.length = 35 := rfl
  omega

/-- A name in brackets is in a text that is written out, as its characters are. -/
theorem infix_of_bracketed {name text : String} {ns ts : List Char}
    (hname : name = String.ofList ns) (htext : text = String.ofList ts) (h : '[' :: ns ++ [']'] <:+: ts) :
    ("[" ++ name ++ "]").toList <:+: text.toList := by
  have hns : name.toList = ns := by rw [hname, String.toList_ofList]
  have hts : text.toList = ts := by rw [htext, String.toList_ofList]
  rw [String.toList_append, String.toList_append, hns, hts]
  exact h

theorem contains_description (rule : Rule) :
    ("[" ++ rule.id ++ "]").toList <:+: rule.description.toList := by
  have hfirst {s t : String} {l : List Char} (h : l <:+: s.toList) : l <:+: (s ++ t).toList := by
    rw [String.toList_append]
    exact h.trans (List.prefix_append _ _).isInfix
  -- The id stands in the first piece of the text.
  cases rule with
  | emptyFile => exact infix_of_bracketed rfl rfl (by decide)
  | missingKeyword => exact hfirst (hfirst (infix_of_bracketed rfl rfl (by decide)))
  | _ => exact hfirst (infix_of_bracketed rfl rfl (by decide))

/-- The id of a rule is in its block. -/
theorem contains_ruleBlock (wordChar : Char → Bool) (content : String) (rule : Rule) :
    ("[" ++ rule.id ++ "]").toList <:+: (ruleBlock wordChar content rule).toList := by
  refine (contains_description rule).trans ?_
  rw [ruleBlock, blockText, String.toList_append]
  apply List.IsInfix.trans _ (List.prefix_append _ _).isInfix
  by_cases hnone : quoted wordChar content rule = []
  · rw [if_pos hnone, String.intercalate_singleton]
  · rw [if_neg hnone, String.intercalate_cons_cons, String.toList_append, String.toList_append,
      List.append_assoc]
    exact (List.prefix_append _ _).isInfix

/-- What stands in brackets in a text is still there when it is stripped. -/
theorem contains_strip {name text : String} (h : ("[" ++ name ++ "]").toList <:+: text.toList) :
    contains (strip text) ("[" ++ name ++ "]") = true := by
  obtain ⟨front, back, heq⟩ := h
  have htext : text.toList = front ++ '[' :: (name.toList ++ ']' :: back) := by
    rw [← heq]
    simp
  obtain ⟨front', back', -, -, hstrip⟩ := strip_between (by decide) (by decide) htext
  apply decide_eq_true
  refine ⟨front', back', ?_⟩
  rw [hstrip]
  simp

/-- The message ends with the notice if there is one. -/
theorem strip_notice (text : String) :
    strip (header ++ text ++ notice) = header ++ text ++ notice := by
  have htext : (header ++ text ++ notice).toList =
      [] ++ 'O' ::
        ((header.toList.tail ++ text.toList ++ notice.toList.dropLast) ++ ']' :: []) := by
    have hheader : header.toList = 'O' :: header.toList.tail := by decide +kernel
    have hnotice : notice.toList = notice.toList.dropLast ++ [']'] := by decide +kernel
    rw [String.toList_append, String.toList_append]
    nth_rewrite 1 [hheader, hnotice]
    simp only [List.cons_append, List.nil_append, List.append_assoc]
  obtain ⟨front', back', hfront, hback, hstrip⟩ := strip_between (by decide) (by decide) htext
  apply String.toList_inj.mp
  rw [hstrip, List.suffix_nil.mp hfront, List.prefix_nil.mp hback, htext]

/-- The message of the violated rules: the blocks of the first of them, and the notice if
there are others. -/
theorem detailedMessage_rules (wordChar : Char → Bool) (content : String) :
    ∃ shown left, violatedRules wordChar content = shown ++ left ∧
      header.length + (String.join (shown.map (ruleBlock wordChar content))).length ≤ 1450 ∧
      detailedMessage ((violatedRules wordChar content).map fun rule =>
          (rule.description, quoted wordChar content rule)) =
        strip (header ++ String.join (shown.map (ruleBlock wordChar content)) ++
          if left = [] then "" else notice) ∧
      ∀ rule ∈ (violatedRules wordChar content).head?,
        header.length + (ruleBlock wordChar content rule).length ≤ 1450 → shown ≠ [] := by
  obtain ⟨blocks, omitted, hsplit, hlength, hlines, hfirst⟩ := finalLines_split header.length
    ((violatedRules wordChar content).map (ruleBlock wordChar content)) (by decide)
  -- The blocks that are kept are those of the first rules.
  obtain ⟨shown, left, hrules, rfl, rfl⟩ := List.map_eq_append_iff.mp hsplit
  refine ⟨shown, left, hrules, hlength, ?_, ?_⟩
  · have hblocks : ((violatedRules wordChar content).map fun rule =>
        (rule.description, quoted wordChar content rule)).map blockText =
          (violatedRules wordChar content).map (ruleBlock wordChar content) := by
      rw [List.map_map]
      rfl
    rw [detailedMessage, hblocks, hlines, String.join_append, String.append_assoc]
    simp only [List.map_eq_nil_iff]
    split
    · rfl
    · rfl
  · intro rule hrule hfits hnone
    refine hfirst (ruleBlock wordChar content rule) ?_ hfits (List.map_eq_nil_iff.mpr hnone)
    rw [List.head?_map, Option.mem_def.mp hrule]
    rfl

/-- With the notice the message is within the limit. -/
theorem length_message_le {text : String} (left : List Rule)
    (h : header.length + text.length ≤ 1450) :
    (strip (header ++ text ++ if left = [] then "" else notice)).length ≤ 1500 := by
  have hnotice : (if left = [] then "" else notice).length ≤ 35 := by
    split
    · exact Nat.zero_le 35
    · decide
  have hstrip := length_strip_le (header ++ text ++ if left = [] then "" else notice)
  rw [String.length_append, String.length_append] at hstrip
  omega

/-- The message names the rule of its first block. -/
theorem contains_message (wordChar : Char → Bool) (content : String) (rule : Rule)
    (shown : List Rule) (rest : String) :
    contains (strip (header ++ String.join ((rule :: shown).map (ruleBlock wordChar content)) ++
      rest)) ("[" ++ rule.id ++ "]") = true := by
  apply contains_strip
  refine (contains_ruleBlock wordChar content rule).trans ?_
  rw [List.map_cons, String.join_cons]
  simp only [String.toList_append]
  exact ⟨header.toList, _, by simp only [List.append_assoc]; rfl⟩

end ScadStaticValidator

open ScadStaticValidator

/-- **Bounded but informative feedback.**  The error of a rejected content has a message of
at most 1500 characters, with the id of the first violated rule; at most two lines are quoted
for a rule, each cut to 150 characters; and the message has the blocks of the violated rules
in their order, and ends with the notice if some of them are left out. -/
theorem bounded_scad_feedback (wordChar : Char → Bool) (content : String)
    (hsize : content.length ≤ 5 * 1024 * 1024) (e : Exn)
    (h : validate wordChar content = .error e) :
    ∃ message, e = .planValidation message 400 "VALIDATION_ERROR" ∧ message.length ≤ 1500 ∧
      (∃ rule, (violatedRules wordChar content).head? = some rule ∧
        contains message ("[" ++ rule.id ++ "]") = true) ∧
      (∀ rule, (quoted wordChar content rule).length ≤ 2 ∧
        ∀ s ∈ quoted wordChar content rule, Quotes content s) ∧
      ∃ shown left, violatedRules wordChar content = shown ++ left ∧
        message = strip (header ++ String.join (shown.map (ruleBlock wordChar content)) ++
          if left = [] then "" else notice) ∧
        (left ≠ [] → ∃ front, message = front ++ notice) := by
  obtain ⟨hne, rfl⟩ := validate_error h
  obtain ⟨first, rest, hrules⟩ := List.exists_cons_of_ne_nil hne
  obtain ⟨shown, left, hviolated, hlength, hmessage, hshown⟩ :=
    detailedMessage_rules wordChar content
  have hhead : (violatedRules wordChar content).head? = some first := by
    rw [hrules]
    rfl
  refine ⟨_, rfl, ?_, ⟨first, hhead, ?_⟩, quoted_bounded wordChar content, shown, left,
    hviolated, hmessage, ?_⟩
  · rw [hmessage]
    exact length_message_le left hlength
  · -- the first block is shown, and its id with it
    rcases shown with _ | ⟨rule, shown⟩
    · exact absurd rfl (hshown first hhead (length_ruleBlock_le hsize first))
    · have hrule : rule = first := by
        rw [hrules, List.cons_append] at hviolated
        exact (List.cons.inj hviolated).1.symm
      rw [hmessage, ← hrule]
      exact contains_message wordChar content rule shown _
  · intro hleft
    rw [hmessage, if_neg hleft, strip_notice]
    exact ⟨_, rfl⟩

theorem bounded_scad_feedback_quote :
    ∃ message, validate Char.isAlphanum "cube('1');" =
        .error (.planValidation message 400 "VALIDATION_ERROR") ∧ message.length ≤ 1500 ∧
      (violatedRules Char.isAlphanum "cube('1');").head? = some .singleQuote ∧
      contains message "[SCAD_SINGLE_QUOTE]" = true := by
  have hrules : (violatedRules Char.isAlphanum "cube('1');").head? = some .singleQuote := by
    decide +kernel
  have hrejected := validate_of_violations Char.isAlphanum "cube('1');" (by decide +kernel)
    (by decide +kernel)
  obtain ⟨e, he⟩ := hrejected
  obtain ⟨message, rfl, hlength, ⟨rule, hrule, hid⟩, -⟩ :=
    bounded_scad_feedback Char.isAlphanum "cube('1');" (by decide +kernel) e he
  rw [hrules, Option.some_inj] at hrule
  have hname : "[" ++ Rule.singleQuote.id ++ "]" = "[SCAD_SINGLE_QUOTE]" := by decide +kernel
  rw [← hrule, hname] at hid
  exact ⟨message, he, hlength, hrules, hid⟩

end CliExecutionPlatform
