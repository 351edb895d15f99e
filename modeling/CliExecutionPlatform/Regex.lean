/-
Regular expressions with the preferences of a backtracking matcher.

A pattern is tried from a position of the text.  It can end in several places, and
the order in which a backtracking matcher tries them is part of its meaning: `ends`
lists them, the preferred one first.  Repetition is of one character class; a greedy
repetition prefers to take more, a lazy one to take less.

* `ends`, `matchStart`, `search` — all ends of a pattern from one position, the match
  at the start of a text, the leftmost match;
* `first_seq`, `first_greedy_seq`, `first_lazy_group_seq` — the preferred match of a
  sequence; `first_word`, `first_word_seq` — words;
* `first_delimited` — what stands before a word, without the characters of a class at both
  ends;
* `searchFrom_append`, `searchFrom_of_first` — where a search finds a match;
* `Firm`, `isSome_searchFrom_concat` — a character at the end of the text that does not
  matter;
* `length_group_le` — what a group captures is no longer than the text.
-/
import Mathlib.Data.List.DropRight
import Mathlib.Tactic.Common

namespace Regex

variable {α : Type}

/-- A position in a text: what stands before it, the nearest first, and after it. -/
structure Cursor (α : Type) where
  before : List α
  after : List α
  deriving DecidableEq

/-- Where a match has ended, and what its groups have captured, the last one first. -/
structure Match (α : Type) where
  cursor : Cursor α
  groups : List (List α)
  deriving DecidableEq

inductive Pattern (α : Type)
  | empty
  | one (p : α → Bool)
  | greedy (p : α → Bool)
  | lazy (p : α → Bool)
  | seq (a b : Pattern α)
  | alt (a b : Pattern α)
  | group (a : Pattern α)
  | start
  | stop (newline : α → Bool)
  | edge (word : α → Bool)

/-- The ways to cut a text after a run of characters of a class, the shortest run
first. -/
def splits (p : α → Bool) : List α → List (List α × List α)
  | [] => [([], [])]
  | c :: cs => ([], c :: cs) ::
      if p c then (splits p cs).map fun s => (c :: s.1, s.2) else []

/-- Go on to the end of a run. -/
def Match.advance (m : Match α) (s : List α × List α) : Match α :=
  { m with cursor := ⟨s.1.reverse ++ m.cursor.before, s.2⟩ }

/-- What stands between two positions of one text. -/
def Cursor.between (c c' : Cursor α) : List α :=
  (c'.before.take (c'.before.length - c.before.length)).reverse

/-- All ends of a pattern from a position, the preferred one first. -/
def ends : Pattern α → Match α → List (Match α)
  | .empty, m => [m]
  | .one p, m =>
    match m.cursor.after with
    | [] => []
    | c :: cs => if p c then [m.advance ([c], cs)] else []
  | .greedy p, m => ((splits p m.cursor.after).map m.advance).reverse
  | .lazy p, m => (splits p m.cursor.after).map m.advance
  | .seq a b, m => (ends a m).flatMap (ends b)
  | .alt a b, m => ends a m ++ ends b m
  | .group a, m => (ends a m).map fun m' =>
      { m' with groups := m.cursor.between m'.cursor :: m'.groups }
  | .start, m => if m.cursor.before.isEmpty then [m] else []
  | .stop newline, m =>
    match m.cursor.after with
    | [] => [m]
    | [c] => if newline c then [m] else []
    | _ => []
  | .edge word, m =>
    if m.cursor.before.head?.any word = m.cursor.after.head?.any word then [] else [m]

/-- The end that a backtracking matcher finds. -/
def first (r : Pattern α) (m : Match α) : Option (Match α) := (ends r m).head?

/-- `re.match`. -/
def matchStart (r : Pattern α) (text : List α) : Option (Match α) := first r ⟨⟨[], text⟩, []⟩

/-- The leftmost match from a position on. -/
def searchFrom (r : Pattern α) (before : List α) : List α → Option (Match α)
  | [] => first r ⟨⟨before, []⟩, []⟩
  | c :: cs => (first r ⟨⟨before, c :: cs⟩, []⟩).or (searchFrom r (c :: before) cs)

/-- `re.search`. -/
def search (r : Pattern α) (text : List α) : Option (Match α) := searchFrom r [] text

/-- The pattern of a fixed word. -/
def word [DecidableEq α] : List α → Pattern α
  | [] => .empty
  | c :: cs => .seq (.one (· = c)) (word cs)

/-! ### Runs -/

theorem mem_splits {p : α → Bool} {l : List α} {s : List α × List α} :
    s ∈ splits p l ↔ l = s.1 ++ s.2 ∧ ∀ c ∈ s.1, p c = true := by
  induction l generalizing s with
  | nil =>
    obtain ⟨a, b⟩ := s
    simp only [splits, List.mem_singleton, Prod.mk.injEq]
    constructor
    · rintro ⟨rfl, rfl⟩
      exact ⟨rfl, fun c hc => absurd hc List.not_mem_nil⟩
    · rintro ⟨h, -⟩
      exact List.append_eq_nil_iff.mp h.symm
  | cons c l ih =>
    obtain ⟨a, b⟩ := s
    rw [splits, List.mem_cons, Prod.mk.injEq]
    -- The empty run is always among the splits; a longer one takes the first character.
    cases a with
    | nil =>
      constructor
      · rintro (⟨-, rfl⟩ | h)
        · exact ⟨rfl, fun c hc => absurd hc List.not_mem_nil⟩
        · by_cases hp : p c
          · rw [if_pos hp, List.mem_map] at h
            obtain ⟨s, -, hs⟩ := h
            exact absurd (congrArg Prod.fst hs) (by simp)
          · rw [if_neg hp] at h
            exact absurd h List.not_mem_nil
      · rintro ⟨h, -⟩
        exact .inl ⟨rfl, h.symm⟩
    | cons a₀ a =>
      constructor
      · rintro (⟨h, -⟩ | h)
        · exact absurd h (by simp)
        · by_cases hp : p c
          · rw [if_pos hp, List.mem_map] at h
            obtain ⟨s, hs, heq⟩ := h
            obtain ⟨hfst, rfl⟩ := Prod.mk.inj heq
            obtain ⟨rfl, rfl⟩ := List.cons.inj hfst
            obtain ⟨hl, hall⟩ := ih.mp hs
            refine ⟨by rw [List.cons_append, ← hl], fun d hd => ?_⟩
            rcases List.mem_cons.mp hd with rfl | hd
            · exact hp
            · exact hall d hd
          · rw [if_neg hp] at h
            exact absurd h List.not_mem_nil
      · rintro ⟨h, hall⟩
        obtain ⟨rfl, hl⟩ := List.cons.inj h
        have hp := hall c List.mem_cons_self
        refine .inr ?_
        rw [if_pos hp, List.mem_map]
        exact ⟨(a, b), ih.mpr ⟨hl, fun d hd => hall d (List.mem_cons_of_mem _ hd)⟩, rfl⟩

/-- The longest run is the last one. -/
theorem exists_splits_eq_append (p : α → Bool) (l : List α) :
    ∃ shorter, splits p l = shorter ++ [(l.takeWhile p, l.dropWhile p)] := by
  induction l with
  | nil => exact ⟨[], rfl⟩
  | cons c l ih =>
    rw [splits, List.takeWhile_cons, List.dropWhile_cons]
    by_cases hp : p c
    · obtain ⟨shorter, hs⟩ := ih
      rw [if_pos hp, if_pos hp, if_pos hp, hs, List.map_append]
      exact ⟨([], c :: l) :: shorter.map fun s => (c :: s.1, s.2), rfl⟩
    · rw [if_neg hp, if_neg hp, if_neg hp]
      exact ⟨[], rfl⟩

/-- If the longest run goes on, a greedy repetition takes it. -/
theorem findSome?_splits_reverse {β : Type} {p : α → Bool} {l : List α}
    {f : List α × List α → Option β} {x : β}
    (h : f (l.takeWhile p, l.dropWhile p) = some x) :
    (splits p l).reverse.findSome? f = some x := by
  obtain ⟨shorter, hs⟩ := exists_splits_eq_append p l
  rw [hs, List.reverse_append, List.reverse_singleton, List.singleton_append,
    List.findSome?_cons, h]

/-- A lazy repetition of any characters takes the shortest text that goes on. -/
theorem findSome?_splits_all {β : Type} {a b : List α} {f : List α × List α → Option β} {x : β}
    (hless : ∀ u v, u ++ v = a ++ b → u.length < a.length → f (u, v) = none)
    (h : f (a, b) = some x) :
    (splits (fun _ => true) (a ++ b)).findSome? f = some x := by
  induction a generalizing f with
  | nil =>
    cases b with
    | nil =>
      show List.findSome? f [([], [])] = some x
      rw [List.findSome?_cons, h]
    | cons c b =>
      rw [List.nil_append, splits, List.findSome?_cons, h]
  | cons c a ih =>
    have hnil : f ([], c :: (a ++ b)) = none := hless [] _ rfl (Nat.succ_pos _)
    rw [List.cons_append, splits, List.findSome?_cons, hnil, if_pos rfl, List.findSome?_map]
    refine ih (fun u v huv hlen => ?_) h
    refine hless (c :: u) v ?_ (Nat.succ_lt_succ hlen)
    rw [List.cons_append, huv, List.cons_append]

/-! ### Preferred matches -/

theorem first_seq (a b : Pattern α) (m : Match α) :
    first (.seq a b) m = (ends a m).findSome? (first b) := by
  rw [first, ends, List.head?_flatMap]
  rfl

theorem first_start_seq (b : Pattern α) (text : List α) (groups : List (List α)) :
    first (.seq .start b) ⟨⟨[], text⟩, groups⟩ = first b ⟨⟨[], text⟩, groups⟩ := by
  rw [first_seq, ends]
  simp

theorem first_one_seq (p : α → Bool) (b : Pattern α) (m : Match α) {c : α} {cs : List α}
    (h : m.cursor.after = c :: cs) :
    first (.seq (.one p) b) m = if p c then first b (m.advance ([c], cs)) else none := by
  rw [first_seq, ends, h]
  by_cases hp : p c
  · simp [hp]
  · simp [hp]

theorem isSome_first_stop {newline : α → Bool} {m : Match α} :
    (first (.stop newline) m).isSome = true ↔
      m.cursor.after = [] ∨ ∃ c, m.cursor.after = [c] ∧ newline c = true := by
  rw [first, ends]
  rcases m.cursor.after with _ | ⟨c, _ | ⟨d, rest⟩⟩
  · simp
  · by_cases hc : newline c
    · simp [hc]
    · simp [hc]
  · simp

theorem first_greedy_seq (p : α → Bool) (b : Pattern α) (m : Match α) :
    first (.seq (.greedy p) b) m =
      (splits p m.cursor.after).reverse.findSome? fun s => first b (m.advance s) := by
  rw [first_seq, ends, ← List.map_reverse, List.findSome?_map]
  rfl

/-- A greedy repetition goes on if one of its runs does. -/
theorem isSome_first_greedy_seq {p : α → Bool} {b : Pattern α} {m : Match α} :
    (first (.seq (.greedy p) b) m).isSome = true ↔
      ∃ s ∈ splits p m.cursor.after, (first b (m.advance s)).isSome = true := by
  rw [first_greedy_seq, List.findSome?_isSome_iff]
  simp only [List.mem_reverse]

/-- The captured text of a lazy group is the run itself. -/
theorem first_lazy_group_seq (p : α → Bool) (b : Pattern α) (m : Match α) :
    first (.seq (.group (.lazy p)) b) m =
      (splits p m.cursor.after).findSome? fun s =>
        first b { m.advance s with groups := s.1 :: m.groups } := by
  rw [first_seq, ends, ends, List.map_map, List.findSome?_map]
  congr 1
  funext s
  have hbetween : m.cursor.between (m.advance s).cursor = s.1 := by
    simp [Cursor.between, Match.advance]
  simp only [Function.comp, hbetween]
  rfl

theorem advance_advance (m : Match α) (u v w : List α) :
    (m.advance (u, v)).advance (w, v.drop w.length) = m.advance (u ++ w, v.drop w.length) := by
  simp [Match.advance]

theorem ends_word [DecidableEq α] (w : List α) (m : Match α) :
    ends (word w) m =
      if w <+: m.cursor.after then [m.advance (w, m.cursor.after.drop w.length)] else [] := by
  induction w generalizing m with
  | nil =>
    rw [if_pos List.nil_prefix]
    rfl
  | cons c w ih =>
    rw [word, ends, ends]
    rcases hafter : m.cursor.after with _ | ⟨d, rest⟩
    · rw [if_neg (by simp)]
      rfl
    · by_cases hd : d = c
      · subst hd
        have hrest := ih (m.advance ([d], rest))
        have hadvance : (m.advance ([d], rest)).cursor.after = rest := rfl
        simp only [decide_true, if_true, List.flatMap_singleton, hrest]
        rw [hadvance, advance_advance]
        by_cases hw : w <+: rest
        · rw [if_pos hw, if_pos (List.cons_prefix_cons.mpr ⟨rfl, hw⟩)]
          rfl
        · rw [if_neg hw, if_neg fun h => hw (List.cons_prefix_cons.mp h).2]
      · rw [if_neg fun h => hd (List.cons_prefix_cons.mp h).1.symm]
        simp [hd]

/-- A word matches where the text goes on with it. -/
theorem first_word [DecidableEq α] (w : List α) (m : Match α) :
    first (word w) m =
      if w <+: m.cursor.after then some (m.advance (w, m.cursor.after.drop w.length))
      else none := by
  rw [first, ends_word, apply_ite List.head?]
  rfl

theorem first_word_seq [DecidableEq α] (w : List α) (b : Pattern α) (m : Match α) :
    first (.seq (word w) b) m =
      if w <+: m.cursor.after then first b (m.advance (w, m.cursor.after.drop w.length))
      else none := by
  rw [first_seq, ends_word]
  by_cases hw : w <+: m.cursor.after
  · rw [if_pos hw, if_pos hw, List.findSome?_cons]
    rcases first b _ with _ | m' <;> rfl
  · rw [if_neg hw, if_neg hw, List.findSome?_nil]

/-! ### Occurrences -/

/-- The word does not start in the text, where `rest` follows it. -/
def NotWithin (w text rest : List α) : Prop :=
  ∀ u v, u ++ v = text ++ rest → u.length < text.length → ¬ w <+: v

/-- A text that is cut before the end of its first part. -/
theorem append_cut {u v a rest : List α} (h : u ++ v = a ++ rest) (hlen : u.length < a.length) :
    ∃ x, x ≠ [] ∧ a = u ++ x ∧ v = x ++ rest := by
  obtain ⟨x, rfl⟩ : u <+: a :=
    List.prefix_of_prefix_length_le ⟨v, h⟩ (List.prefix_append a rest) (by omega)
  refine ⟨x, ?_, rfl, ?_⟩
  · rintro rfl
    simp at hlen
  · rw [List.append_assoc] at h
    exact List.append_cancel_left h

theorem NotWithin.append {w a b rest : List α} (ha : NotWithin w a (b ++ rest))
    (hb : NotWithin w b rest) : NotWithin w (a ++ b) rest := by
  intro u v huv hlen
  rw [List.append_assoc] at huv
  by_cases hu : u.length < a.length
  · exact ha u v huv hu
  · obtain ⟨u', rfl⟩ : a <+: u :=
      List.prefix_of_prefix_length_le (List.prefix_append a (b ++ rest)) ⟨v, huv⟩ (by omega)
    rw [List.append_assoc] at huv
    rw [List.length_append, List.length_append] at hlen
    exact hb u' v (List.append_cancel_left huv) (by omega)

/-- A word does not start with a character of a class that its first one is not of. -/
theorem notWithin_class {p : α → Bool} {w : List α} (hw : ∃ c cs, w = c :: cs ∧ p c = false)
    {run : List α} (hrun : ∀ c ∈ run, p c = true) (rest : List α) : NotWithin w run rest := by
  intro u v huv hlen hpre
  obtain ⟨x, hx, rfl, rfl⟩ := append_cut huv hlen
  obtain ⟨c, cs, rfl, hc⟩ := hw
  cases x with
  | nil => exact hx rfl
  | cons d x =>
    rw [List.cons_append, List.cons_prefix_cons] at hpre
    rw [hpre.1, hrun d (by simp)] at hc
    exact absurd hc (by simp)

/-- A word that does not occur in a text does not start in it, if the last character of the
text is none of the word. -/
theorem notWithin_of_last {w init : List α} {d : α} (h : ¬ w <:+: init ++ [d]) (hd : d ∉ w)
    (rest : List α) : NotWithin w (init ++ [d]) rest := by
  intro u v huv hlen hpre
  obtain ⟨x, hx, htext, rfl⟩ := append_cut huv hlen
  have hlast : d ∈ x := by
    obtain ⟨x', e, rfl⟩ := (List.eq_nil_or_concat' x).resolve_left hx
    rw [← List.append_assoc] at htext
    have hde := (List.append_inj' htext rfl).2
    rw [List.singleton_inj.mp hde]
    simp
  rcases List.prefix_or_prefix_of_prefix hpre (List.prefix_append x rest) with hwx | hxw
  · apply h
    rw [htext]
    exact hwx.isInfix.trans (List.suffix_append u x).isInfix
  · exact hd (hxw.subset hlast)

/-- What follows the word does not matter. -/
theorem NotWithin.extend {w a post : List α} (h : NotWithin w a (w ++ post)) (more : List α) :
    NotWithin w a (w ++ (post ++ more)) := by
  intro u v huv hlen hpre
  obtain ⟨x, -, rfl, rfl⟩ := append_cut huv hlen
  refine h u (x ++ (w ++ post)) (by rw [List.append_assoc]) hlen ?_
  refine List.prefix_of_prefix_length_le hpre ⟨more, by simp only [List.append_assoc]⟩ ?_
  simp only [List.length_append]
  omega

/-- A word that occurs has a first occurrence. -/
theorem exists_first_occurrence {w text : List α} (h : w <:+: text) :
    ∃ pre post, text = pre ++ (w ++ post) ∧ NotWithin w pre (w ++ post) := by
  classical
  induction text with
  | nil =>
    obtain rfl := List.infix_nil.mp h
    exact ⟨[], [], rfl, fun u v _ hlen => absurd hlen (by simp)⟩
  | cons c text ih =>
    by_cases hstart : w <+: c :: text
    · obtain ⟨post, hpost⟩ := hstart
      exact ⟨[], post, hpost.symm, fun u v _ hlen => absurd hlen (by simp)⟩
    · obtain ⟨pre, post, heq, hfirst⟩ := ih ((List.infix_cons_iff.mp h).resolve_left hstart)
      refine ⟨c :: pre, post, by rw [heq, List.cons_append], ?_⟩
      intro u v huv hlen
      rw [List.cons_append, ← heq] at huv
      cases u with
      | nil =>
        rw [List.nil_append] at huv
        rwa [huv]
      | cons d u =>
        rw [List.cons_append, heq] at huv
        rw [List.length_cons, List.length_cons] at hlen
        exact hfirst u v (List.cons.inj huv).2 (by omega)

section Delimited

variable {p : α → Bool} {w : List α}

/-- Any text in front of a word, without the characters of a class at both ends. -/
def delimited [DecidableEq α] (p : α → Bool) (w : List α) : Pattern α :=
  .seq (.greedy p) (.seq (.group (.lazy fun _ => true)) (.seq (.greedy p) (word w)))

/-- The text without the characters of a class at both ends. -/
def trim (p : α → Bool) (text : List α) : List α := (text.dropWhile p).rdropWhile p

/-- A run in front of a word stops at the word. -/
theorem takeWhile_append_word (hw : ∃ c cs, w = c :: cs ∧ p c = false) (text rest : List α) :
    (text ++ (w ++ rest)).takeWhile p = text.takeWhile p ∧
      (text ++ (w ++ rest)).dropWhile p = text.dropWhile p ++ (w ++ rest) := by
  obtain ⟨c, cs, rfl, hc⟩ := hw
  induction text with
  | nil => simp [hc]
  | cons d text ih =>
    by_cases hd : p d
    · simp only [List.cons_append] at ih ⊢
      rw [List.takeWhile_cons_of_pos hd, List.takeWhile_cons_of_pos hd,
        List.dropWhile_cons_of_pos hd, List.dropWhile_cons_of_pos hd, ih.1, ih.2]
      exact ⟨rfl, rfl⟩
    · simp only [List.cons_append]
      rw [List.takeWhile_cons_of_neg hd, List.takeWhile_cons_of_neg hd,
        List.dropWhile_cons_of_neg hd, List.dropWhile_cons_of_neg hd]
      exact ⟨rfl, rfl⟩

theorem rdropWhile_append_rtakeWhile (p : α → Bool) (l : List α) :
    l.rdropWhile p ++ l.rtakeWhile p = l := by
  rw [List.rdropWhile, List.rtakeWhile, ← List.reverse_append, List.takeWhile_append_dropWhile,
    List.reverse_reverse]

/-- If the end of a list is of the class, it is dropped. -/
theorem rdropWhile_append_class {end_ : List α} (h : ∀ c ∈ end_, p c = true) (l : List α) :
    (l ++ end_).rdropWhile p = l.rdropWhile p := by
  rw [List.rdropWhile, List.reverse_append,
    List.dropWhile_append_of_pos (fun c hc => h c (List.mem_reverse.mp hc))]
  rfl

theorem rdropWhile_cons {c : α} (hc : p c = false) (l : List α) :
    (c :: l).rdropWhile p = c :: l.rdropWhile p := by
  induction l using List.reverseRecOn with
  | nil => simp [List.rdropWhile_singleton, hc]
  | append_singleton l d ih =>
    rw [← List.cons_append, List.rdropWhile_concat, List.rdropWhile_concat, ih]
    split_ifs <;> rfl

/-- The class is taken away up to the first character that is not of it. -/
theorem trim_append_cons {run : List α} (hrun : ∀ c ∈ run, p c = true) {c : α}
    (hc : p c = false) (l : List α) : trim p (run ++ c :: l) = c :: l.rdropWhile p := by
  rw [trim, List.dropWhile_append_of_pos hrun, List.dropWhile_cons_of_neg (by simp [hc]),
    rdropWhile_cons hc]

/-- A run of the class, then the word. -/
theorem first_run_word [DecidableEq α] (hw : ∃ c cs, w = c :: cs ∧ p c = false)
    {run rest : List α} (hrun : ∀ c ∈ run, p c = true) {m : Match α}
    (hm : m.cursor.after = run ++ (w ++ rest)) :
    ∃ m', first (.seq (.greedy p) (word w)) m = some m' ∧ m'.groups = m.groups := by
  obtain ⟨htake, hdrop⟩ := takeWhile_append_word hw run rest
  rw [List.takeWhile_eq_self_iff.mpr hrun] at htake
  rw [List.dropWhile_eq_nil_iff.mpr hrun, List.nil_append] at hdrop
  refine ⟨(m.advance (run, w ++ rest)).advance (w, rest), ?_, rfl⟩
  rw [first_greedy_seq, hm]
  apply findSome?_splits_reverse
  rw [htake, hdrop, first_word]
  show (if w <+: w ++ rest then
    some ((m.advance (run, w ++ rest)).advance (w, (w ++ rest).drop w.length)) else none) = _
  rw [if_pos (List.prefix_append w rest), List.drop_left]

/-- Where a run of the class and the word match, the word occurs after the run. -/
theorem occurs_of_first_run_word [DecidableEq α] {m : Match α}
    (h : first (.seq (.greedy p) (word w)) m ≠ none) :
    ∃ run rest, m.cursor.after = run ++ (w ++ rest) ∧ ∀ c ∈ run, p c = true := by
  have hsome := Option.isSome_iff_ne_none.mpr h
  rw [isSome_first_greedy_seq] at hsome
  obtain ⟨s, hs, hword⟩ := hsome
  obtain ⟨hafter, hall⟩ := mem_splits.mp hs
  rw [first_word] at hword
  by_cases hpre : w <+: s.2
  · obtain ⟨rest, hrest⟩ := hpre
    exact ⟨s.1, rest, by rw [hafter, hrest], hall⟩
  · have hnone : ¬ w <+: (m.advance s).cursor.after := hpre
    rw [if_neg hnone] at hword
    exact absurd hword (by simp)

/-- What stands between a list without its end and a longer list of the class is the end. -/
theorem length_rdropWhile_le {core u run rest tail : List α} (hrun : ∀ c ∈ run, p c = true)
    (heq : u ++ (run ++ rest) = core ++ tail) (hlen : core.length ≤ (u ++ run).length) :
    (core.rdropWhile p).length ≤ u.length := by
  by_cases hshort : core.length ≤ u.length
  · exact ((core.rdropWhile_prefix p).length_le).trans hshort
  · have hpre : core <+: u ++ run := by
      refine List.prefix_of_prefix_length_le (List.prefix_append core tail) ?_ hlen
      rw [← heq, ← List.append_assoc]
      exact List.prefix_append _ _
    obtain ⟨end_, hend⟩ : u <+: core :=
      List.prefix_of_prefix_length_le (List.prefix_append u run) hpre (by omega)
    obtain ⟨more, hmore⟩ := hpre
    rw [← hend, List.append_assoc] at hmore
    rw [← hend, rdropWhile_append_class]
    · exact (u.rdropWhile_prefix p).length_le
    · intro c hc
      apply hrun
      rw [← List.append_cancel_left hmore]
      exact List.mem_append_left _ hc

/-- The group captures what stands before the first occurrence of the word. -/
theorem first_delimited [DecidableEq α] (hw : ∃ c cs, w = c :: cs ∧ p c = false)
    {text rest : List α} (hfirst : NotWithin w text (w ++ rest)) {m : Match α}
    (hm : m.cursor.after = text ++ (w ++ rest)) :
    ∃ m', first (delimited p w) m = some m' ∧ m'.groups = trim p text :: m.groups := by
  obtain ⟨htake, hdrop⟩ := takeWhile_append_word hw text rest
  set core := text.dropWhile p with hcore
  set trailing := core.rtakeWhile p with htrailing
  have htext : text.takeWhile p ++ core = text := List.takeWhile_append_dropWhile
  have hsplit : core ++ (w ++ rest) = core.rdropWhile p ++ (trailing ++ (w ++ rest)) := by
    rw [← List.append_assoc _ trailing, rdropWhile_append_rtakeWhile]
  set m₀ := m.advance (text.takeWhile p, core ++ (w ++ rest)) with hm₀
  -- after the text without its ends: the class again, then the word
  obtain ⟨m', hm', hgroups⟩ := first_run_word hw (fun c hc => List.mem_rtakeWhile_imp hc)
    (show (Match.mk (m₀.advance (core.rdropWhile p, trailing ++ (w ++ rest))).cursor
      (core.rdropWhile p :: m.groups)).cursor.after = trailing ++ (w ++ rest) from rfl)
  refine ⟨m', ?_, hgroups⟩
  rw [delimited, first_greedy_seq, hm]
  apply findSome?_splits_reverse
  rw [htake, hdrop, first_lazy_group_seq]
  show (splits (fun _ => true) (core ++ (w ++ rest))).findSome? _ = _
  rw [hsplit]
  refine findSome?_splits_all (fun u v huv hlen => ?_) hm'
  -- a shorter text does not go on: the word would occur too early
  by_contra hne
  obtain ⟨run, more, hv, hrun⟩ := occurs_of_first_run_word hne
  have hv' : v = run ++ (w ++ more) := hv
  rw [← hsplit, hv'] at huv
  have hwhole : (text.takeWhile p ++ u ++ run) ++ (w ++ more) = text ++ (w ++ rest) := by
    rw [List.append_assoc, List.append_assoc, huv, ← List.append_assoc, htext]
  have hlate : text.length ≤ (text.takeWhile p ++ u ++ run).length := by
    by_contra hearly
    exact hfirst _ _ hwhole (by omega) (List.prefix_append w more)
  have hcorelen : core.length ≤ (u ++ run).length := by
    have := congrArg List.length htext
    simp only [List.length_append] at this hlate ⊢
    omega
  have := length_rdropWhile_le hrun huv hcorelen
  omega

end Delimited

/-! ### Searching -/

/-- A search goes on past positions where nothing matches. -/
theorem searchFrom_append {r : Pattern α} {before pre rest : List α}
    (h : ∀ u v, pre = u ++ v → v ≠ [] →
      first r ⟨⟨u.reverse ++ before, v ++ rest⟩, []⟩ = none) :
    searchFrom r before (pre ++ rest) = searchFrom r (pre.reverse ++ before) rest := by
  induction pre generalizing before with
  | nil => rfl
  | cons c pre ih =>
    have hnone := h [] (c :: pre) rfl (by simp)
    rw [List.cons_append, searchFrom]
    rw [List.reverse_nil, List.nil_append, List.cons_append] at hnone
    rw [hnone, Option.none_or, ih, List.reverse_cons, List.append_assoc, List.singleton_append]
    intro u v huv hv
    have := h (c :: u) v (by rw [huv, List.cons_append]) hv
    rwa [List.reverse_cons, List.append_assoc, List.singleton_append] at this

theorem searchFrom_of_first {r : Pattern α} {before text : List α} {m : Match α}
    (h : first r ⟨⟨before, text⟩, []⟩ = some m) : searchFrom r before text = some m := by
  cases text with
  | nil => exact h
  | cons c text => rw [searchFrom, h, Option.some_or]

/-! ### One more character -/

/-- The same position in the text with one more character at its end. -/
def Match.followed (m : Match α) (x : α) : Match α :=
  { m with cursor := ⟨m.cursor.before, m.cursor.after ++ [x]⟩ }

/-- No edge of the pattern is seen between the end of the text and the character. -/
def Pattern.Blind (x : α) : Pattern α → Prop
  | .edge word => word x = false
  | .seq a b | .alt a b => a.Blind x ∧ b.Blind x
  | .group a => a.Blind x
  | _ => True

/-- A match goes forward. -/
theorem suffix_of_mem_ends {r : Pattern α} {m m' : Match α} (h : m' ∈ ends r m) :
    m'.cursor.after <:+ m.cursor.after := by
  induction r generalizing m m' with
  | empty =>
    rw [ends, List.mem_singleton] at h
    subst h
    exact List.suffix_rfl
  | one p =>
    rw [ends] at h
    split at h
    · exact absurd h List.not_mem_nil
    · next c cs hafter =>
      rw [hafter]
      by_cases hp : p c
      · rw [if_pos hp, List.mem_singleton] at h
        rw [h]
        exact List.suffix_cons c cs
      · rw [if_neg hp] at h
        exact absurd h List.not_mem_nil
  | greedy p =>
    rw [ends, List.mem_reverse] at h
    obtain ⟨s, hs, rfl⟩ := List.mem_map.mp h
    rw [(mem_splits.mp hs).1]
    exact List.suffix_append s.1 s.2
  | lazy p =>
    rw [ends] at h
    obtain ⟨s, hs, rfl⟩ := List.mem_map.mp h
    rw [(mem_splits.mp hs).1]
    exact List.suffix_append s.1 s.2
  -- The second part starts where the first one has ended.
  | seq a b iha ihb =>
    obtain ⟨m₁, h₁, h₂⟩ := List.mem_flatMap.mp h
    exact (ihb h₂).trans (iha h₁)
  | alt a b iha ihb =>
    rw [ends] at h
    rcases List.mem_append.mp h with h | h
    · exact iha h
    · exact ihb h
  | group a ih =>
    obtain ⟨m₁, h₁, rfl⟩ := List.mem_map.mp h
    have hsuffix := ih h₁
    exact hsuffix
  | start =>
    rw [ends] at h
    split at h
    · obtain rfl := List.mem_singleton.mp h
      exact List.suffix_rfl
    · exact absurd h List.not_mem_nil
  | stop newline =>
    have hm : m' = m := by
      rw [ends] at h
      split at h
      · exact List.mem_singleton.mp h
      · split at h
        · exact List.mem_singleton.mp h
        · exact absurd h List.not_mem_nil
      · exact absurd h List.not_mem_nil
    subst hm
    exact List.suffix_rfl
  | edge word =>
    rw [ends] at h
    split at h
    · exact absurd h List.not_mem_nil
    · obtain rfl := List.mem_singleton.mp h
      exact List.suffix_rfl

/-- What follows a run in a text with one more character. -/
theorem split_followed {p : α → Bool} {m : Match α} {x : α} {s : List α × List α}
    (hs : s ∈ splits p (m.followed x).cursor.after) :
    s.2 = [] ∨ ∃ s' ∈ splits p m.cursor.after,
      (m.followed x).advance s = (m.advance s').followed x := by
  obtain ⟨hafter, hall⟩ := mem_splits.mp hs
  have hafter' : m.cursor.after ++ [x] = s.1 ++ s.2 := hafter
  rcases List.eq_nil_or_concat' s.2 with hnil | ⟨rest, y, hrest⟩
  · exact .inl hnil
  · right
    rw [hrest, ← List.append_assoc] at hafter'
    obtain ⟨hsplit, hxy⟩ := List.append_inj' hafter' rfl
    refine ⟨(s.1, rest), mem_splits.mpr ⟨hsplit, hall⟩, ?_⟩
    rw [Match.advance, Match.advance, Match.followed, Match.followed, hrest,
      List.singleton_inj.mp hxy]

/-- A match in a text with one more character has used it up, or is a match without it. -/
theorem ends_followed {r : Pattern α} {x : α} (hr : r.Blind x) {m m' : Match α}
    (h : m' ∈ ends r (m.followed x)) :
    m'.cursor.after = [] ∨ ∃ m₁ ∈ ends r m, m' = m₁.followed x := by
  induction r generalizing m m' with
  | empty =>
    rw [ends, List.mem_singleton] at h
    exact .inr ⟨m, by simp [ends], h⟩
  | one p =>
    rw [ends] at h
    have hafter : (m.followed x).cursor.after = m.cursor.after ++ [x] := rfl
    rw [hafter] at h
    rcases hm : m.cursor.after with _ | ⟨c, cs⟩
    · rw [hm] at h
      left
      simp only [List.nil_append] at h
      split at h
      · rw [List.mem_singleton.mp h]
        rfl
      · exact absurd h List.not_mem_nil
    · rw [hm] at h
      right
      simp only [List.cons_append] at h
      split at h
      · next hp =>
        refine ⟨m.advance ([c], cs), ?_, List.mem_singleton.mp h⟩
        rw [ends, hm]
        simp [hp]
      · exact absurd h List.not_mem_nil
  | greedy p =>
    rw [ends, List.mem_reverse] at h
    obtain ⟨s, hs, rfl⟩ := List.mem_map.mp h
    rcases split_followed hs with hnil | ⟨s', hs', heq⟩
    · exact .inl hnil
    · refine .inr ⟨m.advance s', ?_, heq⟩
      rw [ends, List.mem_reverse]
      exact List.mem_map_of_mem hs'
  | lazy p =>
    rw [ends] at h
    obtain ⟨s, hs, rfl⟩ := List.mem_map.mp h
    rcases split_followed hs with hnil | ⟨s', hs', heq⟩
    · exact .inl hnil
    · exact .inr ⟨m.advance s', List.mem_map_of_mem hs', heq⟩
  | seq a b iha ihb =>
    obtain ⟨m₁, h₁, h₂⟩ := List.mem_flatMap.mp h
    rcases iha hr.1 h₁ with hnil | ⟨m₂, hm₂, rfl⟩
    · -- nothing is left for the second part
      left
      have hsuffix := suffix_of_mem_ends h₂
      rw [hnil] at hsuffix
      exact List.suffix_nil.mp hsuffix
    · rcases ihb hr.2 h₂ with hnil | ⟨m₃, hm₃, heq⟩
      · exact .inl hnil
      · exact .inr ⟨m₃, List.mem_flatMap.mpr ⟨m₂, hm₂, hm₃⟩, heq⟩
  | alt a b iha ihb =>
    rw [ends] at h
    rcases List.mem_append.mp h with h | h
    · rcases iha hr.1 h with hnil | ⟨m₁, hm₁, heq⟩
      · exact .inl hnil
      · exact .inr ⟨m₁, List.mem_append_left _ hm₁, heq⟩
    · rcases ihb hr.2 h with hnil | ⟨m₁, hm₁, heq⟩
      · exact .inl hnil
      · exact .inr ⟨m₁, List.mem_append_right _ hm₁, heq⟩
  | group a ih =>
    obtain ⟨m₁, h₁, rfl⟩ := List.mem_map.mp h
    rcases ih hr h₁ with hnil | ⟨m₂, hm₂, rfl⟩
    · exact .inl hnil
    · exact .inr ⟨_, List.mem_map_of_mem hm₂, rfl⟩
  | start =>
    rw [ends] at h
    split at h
    · next hb =>
      have hb' : m.cursor.before.isEmpty = true := hb
      exact .inr ⟨m, by simp [ends, hb'], List.mem_singleton.mp h⟩
    · exact absurd h List.not_mem_nil
  | stop newline =>
    right
    rw [ends] at h
    have hafter : (m.followed x).cursor.after = m.cursor.after ++ [x] := rfl
    rw [hafter] at h
    rcases hm : m.cursor.after with _ | ⟨c, _ | ⟨d, rest⟩⟩
    · rw [hm] at h
      simp only [List.nil_append] at h
      split at h
      · exact ⟨m, by simp [ends, hm], List.mem_singleton.mp h⟩
      · exact absurd h List.not_mem_nil
    · simp [hm] at h
    · simp [hm] at h
  | edge word =>
    have hx : word x = false := hr
    rw [ends] at h
    split at h
    · exact absurd h List.not_mem_nil
    · next hne =>
      refine .inr ⟨m, ?_, List.mem_singleton.mp h⟩
      have hne' : ¬ m.cursor.before.head?.any word = (m.cursor.after ++ [x]).head?.any word := hne
      rw [ends, if_neg]
      · exact List.mem_singleton_self m
      · rcases hm : m.cursor.after with _ | ⟨c, cs⟩
        · rw [hm] at hne'
          simpa [hx] using hne'
        · rw [hm] at hne'
          exact hne'

/-- The pattern does not end with the character, and not at the end of a text that it has not
started before. -/
def Firm (x : α) (r : Pattern α) : Prop :=
  ∀ m m', m' ∈ ends r m → (m.cursor.after = [] ∨ ∃ a, m.cursor.after = a ++ [x]) →
    m'.cursor.after ≠ []

/-- The pattern takes no character. -/
def Still (r : Pattern α) : Prop := ∀ m m', m' ∈ ends r m → m'.cursor.after = m.cursor.after

theorem still_empty : Still (.empty : Pattern α) := by
  intro m m' h
  rw [ends, List.mem_singleton] at h
  rw [h]

theorem still_edge (word : α → Bool) : Still (.edge word) := by
  intro m m' h
  rw [ends] at h
  split at h
  · exact absurd h List.not_mem_nil
  · rw [List.mem_singleton.mp h]

theorem Still.seq {a b : Pattern α} (ha : Still a) (hb : Still b) : Still (.seq a b) := by
  intro m m' h
  obtain ⟨m₁, h₁, h₂⟩ := List.mem_flatMap.mp h
  exact (hb m₁ m' h₂).trans (ha m m₁ h₁)

theorem firm_one {p : α → Bool} {x : α} (hp : p x = false) : Firm x (.one p) := by
  intro m m' h hm
  rw [ends] at h
  rcases hm with hm | ⟨_ | ⟨c, cs⟩, hm⟩
  · rw [hm] at h
    exact absurd h List.not_mem_nil
  · rw [hm] at h
    simp [hp] at h
  · rw [hm] at h
    simp only [List.cons_append] at h
    split at h
    · rw [List.mem_singleton.mp h]
      simp [Match.advance]
    · exact absurd h List.not_mem_nil

theorem Firm.seq_right {x : α} {b : Pattern α} (hb : Firm x b) (a : Pattern α) :
    Firm x (.seq a b) := by
  intro m m' h hm
  obtain ⟨m₁, h₁, h₂⟩ := List.mem_flatMap.mp h
  refine hb m₁ m' h₂ ?_
  have hsuffix := suffix_of_mem_ends h₁
  rcases hm with hm | ⟨l, hm⟩
  · rw [hm] at hsuffix
    exact .inl (List.suffix_nil.mp hsuffix)
  · rw [hm] at hsuffix
    rcases List.suffix_concat_iff.mp hsuffix with hnil | ⟨t, ht, -⟩
    · exact .inl hnil
    · exact .inr ⟨t, ht⟩

theorem Firm.seq_left {x : α} {a b : Pattern α} (ha : Firm x a) (hb : Still b) :
    Firm x (.seq a b) := by
  intro m m' h hm
  obtain ⟨m₁, h₁, h₂⟩ := List.mem_flatMap.mp h
  rw [hb m₁ m' h₂]
  exact ha m m₁ h₁ hm

theorem Firm.alt {x : α} {a b : Pattern α} (ha : Firm x a) (hb : Firm x b) :
    Firm x (.alt a b) := by
  intro m m' h hm
  rw [ends] at h
  rcases List.mem_append.mp h with h | h
  · exact ha m m' h hm
  · exact hb m m' h hm

theorem isSome_first {r : Pattern α} {m : Match α} :
    (first r m).isSome = true ↔ ∃ m', m' ∈ ends r m := by
  rw [first, List.isSome_head?]
  exact ⟨List.exists_mem_of_ne_nil _, fun ⟨_, hm⟩ => List.ne_nil_of_mem hm⟩

theorem isSome_first_followed {r : Pattern α} {x : α} (hr : r.Blind x) (hfirm : Firm x r)
    {m : Match α} (h : (first r (m.followed x)).isSome = true) : (first r m).isSome = true := by
  obtain ⟨m', hm'⟩ := isSome_first.mp h
  rcases ends_followed hr hm' with hnil | ⟨m₁, hm₁, -⟩
  · exact absurd hnil (hfirm _ _ hm' (.inr ⟨m.cursor.after, rfl⟩))
  · exact isSome_first.mpr ⟨m₁, hm₁⟩

/-- A character that a pattern neither sees nor ends with does not make it match. -/
theorem isSome_searchFrom_concat {r : Pattern α} {x : α} (hr : r.Blind x) (hfirm : Firm x r)
    (before text : List α) (h : (searchFrom r before (text ++ [x])).isSome = true) :
    (searchFrom r before text).isSome = true := by
  induction text generalizing before with
  | nil =>
    rw [List.nil_append, searchFrom, Option.isSome_or, Bool.or_eq_true] at h
    rcases h with h | h
    · exact isSome_first_followed (m := ⟨⟨before, []⟩, []⟩) hr hfirm h
    · obtain ⟨m', hm'⟩ := isSome_first.mp h
      exact absurd (List.suffix_nil.mp (suffix_of_mem_ends hm')) (hfirm _ _ hm' (.inl rfl))
  | cons c text ih =>
    rw [List.cons_append, searchFrom, Option.isSome_or, Bool.or_eq_true] at h
    rw [searchFrom, Option.isSome_or, Bool.or_eq_true]
    rcases h with h | h
    · exact .inl (isSome_first_followed (m := ⟨⟨before, c :: text⟩, []⟩) hr hfirm h)
    · exact .inr (ih (c :: before) h)

/-! ### Groups -/

/-- The text has length `n`, and no group has captured more. -/
def Match.Bounded (n : ℕ) (m : Match α) : Prop :=
  m.cursor.before.length + m.cursor.after.length = n ∧ ∀ g ∈ m.groups, g.length ≤ n

theorem Match.Bounded.advance {n : ℕ} {m : Match α} {p : α → Bool} {s : List α × List α}
    (hm : m.Bounded n) (hs : s ∈ splits p m.cursor.after) : (m.advance s).Bounded n := by
  obtain ⟨hlength, hgroups⟩ := hm
  have hsplit := congrArg List.length (mem_splits.mp hs).1
  rw [List.length_append] at hsplit
  refine ⟨?_, hgroups⟩
  simp only [Match.advance, List.length_append, List.length_reverse]
  omega

/-- A group captures a part of the text. -/
theorem bounded_of_mem_ends {n : ℕ} {r : Pattern α} {m m' : Match α} (hm : m.Bounded n)
    (h : m' ∈ ends r m) : m'.Bounded n := by
  induction r generalizing m m' with
  | empty =>
    rw [List.mem_singleton.mp h]
    exact hm
  | one p =>
    rw [ends] at h
    split at h
    · exact absurd h List.not_mem_nil
    · rename_i c cs hafter
      split_ifs at h with hp
      · rw [List.mem_singleton.mp h]
        refine hm.advance (p := p) (mem_splits.mpr ⟨hafter, fun d hd => ?_⟩)
        rw [List.mem_singleton.mp hd]
        exact hp
      · exact absurd h List.not_mem_nil
  | greedy p =>
    obtain ⟨s, hs, rfl⟩ := List.mem_map.mp (List.mem_reverse.mp h)
    exact hm.advance hs
  | lazy p =>
    obtain ⟨s, hs, rfl⟩ := List.mem_map.mp h
    exact hm.advance hs
  | seq a b iha ihb =>
    obtain ⟨m₁, ha, hb⟩ := List.mem_flatMap.mp h
    exact ihb (iha hm ha) hb
  | alt a b iha ihb => exact (List.mem_append.mp h).elim (iha hm) (ihb hm)
  | group a ih =>
    obtain ⟨m₁, ha, rfl⟩ := List.mem_map.mp h
    obtain ⟨hlength, hgroups⟩ := ih hm ha
    refine ⟨hlength, fun g hg => ?_⟩
    rcases List.mem_cons.mp hg with rfl | hg
    · rw [Cursor.between, List.length_reverse]
      exact le_trans (List.length_take_le _ _) (by omega)
    · exact hgroups g hg
  | start =>
    rw [ends] at h
    split_ifs at h
    · rw [List.mem_singleton.mp h]
      exact hm
    · exact absurd h List.not_mem_nil
  | stop newline =>
    rw [ends] at h
    split at h
    · rw [List.mem_singleton.mp h]
      exact hm
    · split_ifs at h
      · rw [List.mem_singleton.mp h]
        exact hm
      · exact absurd h List.not_mem_nil
    · exact absurd h List.not_mem_nil
  | edge word =>
    rw [ends] at h
    split_ifs at h
    · exact absurd h List.not_mem_nil
    · rw [List.mem_singleton.mp h]
      exact hm

theorem bounded_of_searchFrom {r : Pattern α} {before text : List α} {m : Match α}
    (h : searchFrom r before text = some m) : m.Bounded (before.length + text.length) := by
  induction text generalizing before with
  | nil => exact bounded_of_mem_ends ⟨rfl, by simp⟩ (List.mem_of_mem_head? h)
  | cons c text ih =>
    rw [searchFrom, Option.or_eq_some_iff] at h
    rcases h with h | ⟨-, h⟩
    · exact bounded_of_mem_ends ⟨rfl, by simp⟩ (List.mem_of_mem_head? h)
    · have hbounded := ih h
      rw [List.length_cons] at hbounded ⊢
      rwa [Nat.add_right_comm] at hbounded

/-- **A group is no longer than the text.** -/
theorem length_group_le {r : Pattern α} {text : List α} {m : Match α}
    (h : search r text = some m) {g : List α} (hg : g ∈ m.groups) : g.length ≤ text.length := by
  have hbounded := (bounded_of_searchFrom h).2 g hg
  rwa [List.length_nil, Nat.zero_add] at hbounded

end Regex
