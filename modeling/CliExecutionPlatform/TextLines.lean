/-
Texts and their lines: what `str.splitlines`, `str.strip` and `str.join` do.

* `EndsLine` — where `splitlines` ends a line;
* `length_splitlines_le` — a text has no more lines than characters;
* `infix_linesFrom` — a part without line breaks that occurs in a text occurs in one of its
  lines, whatever separators the text has; `lines_within` — a line stands in the text;
* `strip_between` — what stripping keeps;
* `infix_intercalate`, `length_intercalate_le` — lines that are joined.
-/
import CliExecutionPlatform.ScadValidator

open Files

namespace CliExecutionPlatform

/-! ### Where lines end -/

/-- `splitlines` ends a line at this position; a carriage return before a newline belongs to
the newline. -/
def EndsLine (text : List Char) (i : ℕ) : Prop :=
  ∃ c, text[i]? = some c ∧ isLineBreak c = true ∧ ¬ (c = '\r' ∧ text[i + 1]? = some '\n')

theorem endsLine_iff_any {text : List Char} {i : ℕ} :
    (text[i]?.any fun c => isLineBreak c && !decide (c = '\r' ∧ text[i + 1]? = some '\n')) = true ↔
      EndsLine text i := by
  simp only [Option.any_eq_true, Bool.and_eq_true, Bool.not_eq_true', decide_eq_false_iff_not,
    EndsLine]

instance (text : List Char) (i : ℕ) : Decidable (EndsLine text i) :=
  decidable_of_iff _ endsLine_iff_any

theorem endsLine_succ (c : Char) (text : List Char) (i : ℕ) :
    EndsLine (c :: text) (i + 1) ↔ EndsLine text i := by
  simp only [EndsLine, List.getElem?_cons_succ]

theorem endsLine_newline {text : List Char} {i : ℕ} (h : text[i]? = some '\n') :
    EndsLine text i :=
  ⟨'\n', h, rfl, fun hcr => absurd hcr.1 (by decide)⟩

theorem linesFrom_blank_newline (line rest : List Char) :
    linesFrom line (' ' :: '\n' :: rest) =
      String.ofList (' ' :: line).reverse :: linesFrom [] rest := by
  rw [linesFrom, if_neg (by decide), linesFrom, if_pos (by decide)]
  · exact fun _ h => absurd h (by decide)
  · exact fun _ h => absurd h (by decide)

theorem length_linesFrom_le (line text : List Char) :
    (linesFrom line text).length ≤ text.length + if line = [] then 0 else 1 := by
  -- The characters that are read already make at most one more line.
  fun_induction linesFrom line text with
  | case1 => simp
  | case2 line hline =>
    rw [if_neg hline]
    exact Nat.le_add_left 1 _
  | case3 line rest ih =>
    simp only [if_true, List.length_cons] at ih ⊢
    omega
  | case4 line c rest hcrlf hbreak ih =>
    simp only [if_true, List.length_cons] at ih ⊢
    omega
  | case5 line c rest hcrlf hbreak ih =>
    simp only [List.cons_ne_nil, if_false, List.length_cons] at ih ⊢
    omega

theorem length_splitlines_le (text : String) : (splitlines text).length ≤ text.length := by
  have h := length_linesFrom_le [] text.toList
  rw [if_pos rfl, Nat.add_zero, String.length_toList] at h
  exact h

/-! ### Parts of lines -/

theorem prefix_of_prefix_append_cons {α : Type} {needle a b : List α} {c : α} (hc : c ∉ needle)
    (h : needle <+: a ++ c :: b) : needle <+: a := by
  induction a generalizing needle with
  | nil =>
    cases needle with
    | nil => exact List.nil_prefix
    | cons d needle =>
      -- The first character of the needle would be the separator.
      have hd : d = c := (List.cons_prefix_cons.mp h).1
      exact absurd (hd ▸ List.mem_cons_self) hc
  | cons d a ih =>
    cases needle with
    | nil => exact List.nil_prefix
    | cons e needle =>
      obtain ⟨rfl, hneedle⟩ := List.cons_prefix_cons.mp h
      exact List.cons_prefix_cons.mpr ⟨rfl,
        ih (fun hmem => hc (List.mem_cons_of_mem e hmem)) hneedle⟩

/-- A text without a character lies on one side of it. -/
theorem infix_append_cons {α : Type} {needle a b : List α} {c : α} (hc : c ∉ needle)
    (h : needle <:+: a ++ c :: b) : needle <:+: a ∨ needle <:+: b := by
  -- The needle starts in `a`, where it ends before the separator, or it starts later.
  induction a with
  | nil =>
    rcases List.infix_cons_iff.mp h with hfirst | hlater
    · exact .inl (prefix_of_prefix_append_cons (a := []) hc hfirst).isInfix
    · exact .inr hlater
  | cons d a ih =>
    rcases List.infix_cons_iff.mp h with hfirst | hlater
    · exact .inl (prefix_of_prefix_append_cons (a := d :: a) hc hfirst).isInfix
    · rcases ih hlater with hleft | hright
      · exact .inl (List.infix_cons hleft)
      · exact .inr hright

/-- A text without line breaks that occurs somewhere occurs in a line. -/
theorem infix_linesFrom {needle : List Char} (hne : needle ≠ [])
    (hbreaks : ∀ c, isLineBreak c = true → c ∉ needle) (line text : List Char)
    (h : needle <:+: line.reverse ++ text) :
    ∃ l ∈ linesFrom line text, needle <:+: l.toList := by
  -- The induction follows `splitlines`; `line` is the line so far, backwards.
  fun_induction linesFrom line text with
  | case1 => exact absurd (List.infix_nil.mp h) hne
  | case2 line hline =>
    rw [List.append_nil] at h
    exact ⟨_, List.mem_singleton_self _, by rw [String.toList_ofList]; exact h⟩
  | case3 line rest ih =>
    rcases infix_append_cons (hbreaks '\r' rfl) h with hhere | hlater
    · exact ⟨_, List.mem_cons_self, by rw [String.toList_ofList]; exact hhere⟩
    -- Between the two characters of a line break there is nothing.
    · rcases infix_append_cons (a := []) (hbreaks '\n' rfl) hlater with hnil | hlater
      · exact absurd (List.infix_nil.mp hnil) hne
      · obtain ⟨l, hl, hneedle⟩ := ih hlater
        exact ⟨l, List.mem_cons_of_mem _ hl, hneedle⟩
  | case4 line c rest hcrlf hbreak ih =>
    rcases infix_append_cons (hbreaks c hbreak) h with hhere | hlater
    · exact ⟨_, List.mem_cons_self, by rw [String.toList_ofList]; exact hhere⟩
    · obtain ⟨l, hl, hneedle⟩ := ih hlater
      exact ⟨l, List.mem_cons_of_mem _ hl, hneedle⟩
  | case5 line c rest hcrlf hbreak ih =>
    apply ih
    rw [List.reverse_cons, List.append_assoc]
    exact h

/-- A line stands in the text. -/
theorem lines_within (line text : List Char) :
    ∀ l ∈ linesFrom line text, l.toList <:+: line.reverse ++ text := by
  fun_induction linesFrom line text with
  | case1 =>
    intro l hl
    exact absurd hl List.not_mem_nil
  | case2 line hline =>
    intro l hl
    rw [List.mem_singleton.mp hl, String.toList_ofList, List.append_nil]
  | case3 line rest ih =>
    intro l hl
    rcases List.mem_cons.mp hl with rfl | hl
    · rw [String.toList_ofList]
      exact (List.prefix_append _ _).isInfix
    · exact (ih l hl).trans ⟨line.reverse ++ ['\r', '\n'], [], by simp⟩
  | case4 line c rest hcrlf hbreak ih =>
    intro l hl
    rcases List.mem_cons.mp hl with rfl | hl
    · rw [String.toList_ofList]
      exact (List.prefix_append _ _).isInfix
    · exact (ih l hl).trans ⟨line.reverse ++ [c], [], by simp⟩
  | case5 line c rest hcrlf hbreak ih =>
    intro l hl
    have hinfix := ih l hl
    rw [List.reverse_cons, List.append_assoc] at hinfix
    exact hinfix

/-! ### Joined lines -/

theorem length_intercalate_le {limit : ℕ} (lines : List String)
    (h : ∀ line ∈ lines, line.length ≤ limit) :
    ("\n".intercalate lines).length ≤ lines.length * (limit + 1) := by
  induction lines with
  | nil => simp
  | cons line lines ih =>
    have hline := h line List.mem_cons_self
    have hlines := ih fun l hl => h l (List.mem_cons_of_mem line hl)
    have hnewline : ("\n").length = 1 := rfl
    -- Each line counts with its newline, the last one too.
    rw [List.length_cons, Nat.succ_mul]
    cases lines with
    | nil =>
      rw [String.intercalate_singleton]
      omega
    | cons line' lines =>
      rw [String.intercalate_cons_cons, String.length_append, String.length_append]
      omega

theorem infix_intercalate {line : String} {lines : List String} (h : line ∈ lines) :
    line.toList <:+: ("\n".intercalate lines).toList := by
  induction lines with
  | nil => exact absurd h List.not_mem_nil
  | cons first lines ih =>
    cases lines with
    | nil =>
      rw [List.mem_singleton.mp h, String.intercalate_singleton]
    | cons second lines =>
      rw [String.intercalate_cons_cons, String.toList_append, String.toList_append]
      rcases List.mem_cons.mp h with rfl | h
      · rw [List.append_assoc]
        exact (List.prefix_append _ _).isInfix
      · exact (ih h).trans (List.suffix_append _ _).isInfix

/-! ### Stripping -/

theorem dropWhile_append_cons {α : Type} {p : α → Bool} {c : α} (hc : p c = false)
    (front back : List α) :
    ∃ front', front' <:+ front ∧ (front ++ c :: back).dropWhile p = front' ++ c :: back := by
  induction front with
  | nil => exact ⟨[], List.suffix_rfl, by simp [hc]⟩
  | cons d front ih =>
    by_cases hd : p d
    · obtain ⟨front', hsuffix, heq⟩ := ih
      exact ⟨front', hsuffix.trans (List.suffix_cons d front), by simp [hd, heq]⟩
    · exact ⟨d :: front, List.suffix_rfl, by simp [hd]⟩

/-- Stripping keeps what stands between two characters that are not white space. -/
theorem strip_between {text : String} {front middle back : List Char} {c d : Char}
    (hc : isSpace c = false) (hd : isSpace d = false)
    (htext : text.toList = front ++ c :: (middle ++ d :: back)) :
    ∃ front' back', front' <:+ front ∧ back' <+: back ∧
      (strip text).toList = front' ++ c :: (middle ++ d :: back') := by
  obtain ⟨front', hfront, hleft⟩ := dropWhile_append_cons hc front (middle ++ d :: back)
  have hreverse : (front' ++ c :: (middle ++ d :: back)).reverse =
      back.reverse ++ d :: (front' ++ c :: middle).reverse := by simp
  -- The right end is the left end of the reversed text.
  obtain ⟨back', hback, hright⟩ :=
    dropWhile_append_cons hd back.reverse (front' ++ c :: middle).reverse
  refine ⟨front', back'.reverse, hfront, ?_, ?_⟩
  · rw [← List.reverse_suffix, List.reverse_reverse]
    exact hback
  · rw [strip, String.toList_ofList, htext, hleft, hreverse, hright]
    simp

theorem length_strip_le (text : String) : (strip text).length ≤ text.length := by
  rw [strip, String.length_ofList, List.length_reverse]
  refine (List.dropWhile_sublist isSpace).length_le.trans ?_
  rw [List.length_reverse]
  exact (List.dropWhile_sublist isSpace).length_le

/-- `text.rstrip()`. -/
def rstrip (text : String) : String :=
  String.ofList (text.toList.reverse.dropWhile isSpace).reverse

/-- `text[:n]`. -/
def cutTo (n : ℕ) (text : String) : String := String.ofList (text.toList.take n)

theorem length_cutTo_le (n : ℕ) (text : String) : (cutTo n text).length ≤ n := by
  rw [cutTo, String.length_ofList, List.length_take]
  exact Nat.min_le_left n _

theorem length_rstrip_le (text : String) : (rstrip text).length ≤ text.length := by
  rw [rstrip, String.length_ofList, List.length_reverse]
  refine (List.dropWhile_sublist isSpace).length_le.trans ?_
  rw [List.length_reverse, String.length_toList]

end CliExecutionPlatform
