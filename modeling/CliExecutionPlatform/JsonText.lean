/-
JSON text: writing values.

`dumps` writes a value without any white space and leaves characters outside
ASCII as they are; in strings it escapes the quote, the backslash and the
control characters.

* `dumps` — the text of a value;
* `intOf_intText` — a number is told from its digits;
* `printable_dumps` — the text holds no control character, whatever the strings
  of the value hold.
-/
import Mathlib.Data.Int.Basic
import Mathlib.Data.List.Basic
import Mathlib.Tactic.Common

namespace JsonText

inductive Value
  | null
  | bool (b : Bool)
  | int (n : ℤ)
  | str (s : String)
  | arr (items : List Value)
  | obj (members : List (String × Value))

/-! ### Strings -/

/-- One character of a string. -/
def escape (c : Char) : List Char :=
  if c = '"' then ['\\', '"']
  else if c = '\\' then ['\\', '\\']
  else if c = '\n' then ['\\', 'n']
  else if c = '\r' then ['\\', 'r']
  else if c = '\t' then ['\\', 't']
  else if c = '\x08' then ['\\', 'b']
  else if c = '\x0c' then ['\\', 'f']
  else if c.toNat < 32 then
    ['\\', 'u', '0', '0', Nat.digitChar (c.toNat / 16), Nat.digitChar (c.toNat % 16)]
  else [c]

/-- The body of a string and the closing quote. -/
def body (s : List Char) : List Char := s.flatMap escape ++ ['"']

def quote (s : String) : List Char := '"' :: body s.toList

def hexValue (c : Char) : Option ℕ :=
  if '0' ≤ c ∧ c ≤ '9' then some (c.toNat - 48)
  else if 'a' ≤ c ∧ c ≤ 'f' then some (c.toNat - 87)
  else if 'A' ≤ c ∧ c ≤ 'F' then some (c.toNat - 55)
  else none

/-- The character that a backslash and one letter stand for. -/
def unescape (c : Char) : Option Char :=
  if c = '"' ∨ c = '\\' ∨ c = '/' then some c
  else if c = 'n' then some '\n'
  else if c = 'r' then some '\r'
  else if c = 't' then some '\t'
  else if c = 'b' then some '\x08'
  else if c = 'f' then some '\x0c'
  else none

/-! ### Numbers -/

def intText (n : ℤ) : List Char :=
  if n < 0 then '-' :: Nat.toDigits 10 n.natAbs else Nat.toDigits 10 n.natAbs

/-- The number that digits stand for. -/
def natOf (cs : List Char) : Option ℕ :=
  if cs ≠ [] ∧ cs.all Char.isDigit then some (Nat.ofDigitChars 10 cs 0) else none

/-- The number that digits stand for, with a sign if it is negative. -/
def intOf (cs : List Char) : Option ℤ :=
  if cs.head? = some '-' then (natOf cs.tail).map fun n : ℕ => -(n : ℤ)
  else (natOf cs).map fun n : ℕ => (n : ℤ)

theorem isDigit_toDigits {n : ℕ} : ∀ c ∈ Nat.toDigits 10 n, c.isDigit = true :=
  fun _ hc => Nat.isDigit_of_mem_toDigits (by omega) (by omega) hc

theorem natOf_toDigits (n : ℕ) : natOf (Nat.toDigits 10 n) = some n := by
  rw [natOf, if_pos ⟨Nat.toDigits_ne_nil, List.all_eq_true.mpr isDigit_toDigits⟩,
    Nat.ofDigitChars_ten_toDigits]

theorem head_toDigits_ne_sign (n : ℕ) : (Nat.toDigits 10 n).head? ≠ some '-' := by
  intro h
  exact absurd (isDigit_toDigits '-' (List.mem_of_mem_head? h)) (by decide)

/-- A number is told from its digits. -/
theorem intOf_intText (n : ℤ) : intOf (intText n) = some n := by
  rw [intText]
  by_cases hn : n < 0
  · rw [if_pos hn, intOf, List.head?_cons, if_pos rfl, List.tail_cons, natOf_toDigits,
      Option.map_some, Option.some_inj]
    omega
  · rw [if_neg hn, intOf, if_neg (head_toDigits_ne_sign _), natOf_toDigits, Option.map_some,
      Option.some_inj]
    omega

/-! ### Values -/

mutual

/-- The text of a value. -/
def dumps : Value → List Char
  | .null => ['n', 'u', 'l', 'l']
  | .bool true => ['t', 'r', 'u', 'e']
  | .bool false => ['f', 'a', 'l', 's', 'e']
  | .int n => intText n
  | .str s => quote s
  | .arr [] => ['[', ']']
  | .arr (x :: xs) => '[' :: (dumps x ++ dumpsItems xs)
  | .obj [] => ['\x7b', '\x7d']
  | .obj ((k, v) :: ms) => '\x7b' :: (quote k ++ ':' :: (dumps v ++ dumpsMembers ms))

/-- The further items of an array, and its end. -/
def dumpsItems : List Value → List Char
  | [] => [']']
  | x :: xs => ',' :: (dumps x ++ dumpsItems xs)

/-- The further members of an object, and its end. -/
def dumpsMembers : List (String × Value) → List Char
  | [] => ['\x7d']
  | (k, v) :: ms => ',' :: (quote k ++ ':' :: (dumps v ++ dumpsMembers ms))

end

/-! ### No control characters -/

/-- A character that is not a control character. -/
def Printable (c : Char) : Prop := 32 ≤ c.toNat

instance (c : Char) : Decidable (Printable c) := inferInstanceAs (Decidable (32 ≤ c.toNat))

theorem printable_digitChar {n : ℕ} (h : n < 16) : Printable (Nat.digitChar n) := by
  have hall : ∀ n < 16, Printable (Nat.digitChar n) := by decide
  exact hall n h

/-- The characters of a given text, one by one. -/
theorem printable_of_all {l : List Char} (h : (l.all fun c => decide (Printable c)) = true) :
    ∀ d ∈ l, Printable d := fun d hd => of_decide_eq_true (List.all_eq_true.mp h d hd)

theorem printable_escape {c d : Char} (h : d ∈ escape c) : Printable d := by
  have fixed : ∀ l : List Char, (l.all fun c => decide (Printable c)) = true → d ∈ l →
      Printable d := fun l hl hd => printable_of_all hl d hd
  rw [escape] at h
  split_ifs at h with h₁ h₂ h₃ h₄ h₅ h₆ h₇ h₈
  · exact fixed _ (by decide) h
  · exact fixed _ (by decide) h
  · exact fixed _ (by decide) h
  · exact fixed _ (by decide) h
  · exact fixed _ (by decide) h
  · exact fixed _ (by decide) h
  · exact fixed _ (by decide) h
  · rcases List.mem_append.mp (show d ∈ ['\\', 'u', '0', '0'] ++ [_, _] from h) with h | h
    · exact fixed _ (by decide) h
    · simp only [List.mem_cons, List.not_mem_nil, or_false] at h
      rcases h with rfl | rfl
      · exact printable_digitChar (by omega)
      · exact printable_digitChar (by omega)
  · rw [List.mem_singleton.mp h]
    show 32 ≤ c.toNat
    omega

theorem printable_quote {s : String} {d : Char} (h : d ∈ quote s) : Printable d := by
  rw [quote, body, List.mem_cons, List.mem_append, List.mem_singleton] at h
  rcases h with rfl | h | rfl
  · decide
  · obtain ⟨c, -, hc⟩ := List.mem_flatMap.mp h
    exact printable_escape hc
  · decide

theorem printable_intText {n : ℤ} {d : Char} (h : d ∈ intText n) : Printable d := by
  have hdigit : ∀ {k : ℕ}, d ∈ Nat.toDigits 10 k → Printable d := by
    intro k hk
    have hd := isDigit_toDigits d hk
    rw [Char.isDigit, Bool.and_eq_true, decide_eq_true_eq, decide_eq_true_eq] at hd
    have hlo : 48 ≤ d.val.toNat := UInt32.le_iff_toNat_le.mp hd.1
    show 32 ≤ d.toNat
    rw [Char.toNat]
    omega
  rw [intText] at h
  by_cases hn : n < 0
  · rw [if_pos hn, List.mem_cons] at h
    rcases h with rfl | h
    · decide
    · exact hdigit h
  · rw [if_neg hn] at h
    exact hdigit h

mutual

/-- **The text of a value holds no control character.** -/
theorem printable_dumps : ∀ v : Value, ∀ d ∈ dumps v, Printable d
  | .null => printable_of_all (by decide)
  | .bool true => printable_of_all (by decide)
  | .bool false => printable_of_all (by decide)
  | .int n => fun _ h => printable_intText h
  | .str s => fun _ h => printable_quote h
  | .arr [] => printable_of_all (by decide)
  | .arr (x :: xs) => by
    rw [dumps, List.forall_mem_cons, List.forall_mem_append]
    exact ⟨by decide, printable_dumps x, printable_items xs⟩
  | .obj [] => printable_of_all (by decide)
  | .obj ((k, v) :: ms) => by
    rw [dumps, List.forall_mem_cons, List.forall_mem_append, List.forall_mem_cons,
      List.forall_mem_append]
    exact ⟨by decide, fun _ h => printable_quote h, by decide, printable_dumps v,
      printable_members ms⟩

theorem printable_items : ∀ xs : List Value, ∀ d ∈ dumpsItems xs, Printable d
  | [] => printable_of_all (by decide)
  | x :: xs => by
    rw [dumpsItems, List.forall_mem_cons, List.forall_mem_append]
    exact ⟨by decide, printable_dumps x, printable_items xs⟩

theorem printable_members : ∀ ms : List (String × Value), ∀ d ∈ dumpsMembers ms, Printable d
  | [] => printable_of_all (by decide)
  | (k, v) :: ms => by
    rw [dumpsMembers, List.forall_mem_cons, List.forall_mem_append, List.forall_mem_cons,
      List.forall_mem_append]
    exact ⟨by decide, fun _ h => printable_quote h, by decide, printable_dumps v,
      printable_members ms⟩

end

end JsonText
