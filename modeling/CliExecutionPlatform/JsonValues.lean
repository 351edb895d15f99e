/-
Reading what `dumps` has written.

The values of `JsonText` have integers where the reader keeps the token of a number.
`loads` reads a text as such a value; it gives none for what `dumps` never writes: fractions
and halves of surrogate pairs.

* `toJson`, `ofJson` — a value as the reader has it, and back;
* `writes_dumps` — what `dumps` writes is a text of the value;
* **`loads_dumps`** — reading inverts writing.
-/
import CliExecutionPlatform.JsonReader
import Mathlib.Data.List.TakeWhile

namespace JsonText

open JsonReader

mutual

/-- A value as the reader has it. -/
def toJson : Value → Json
  | .null => .null
  | .bool b => .bool b
  | .int n => .number (String.ofList (intText n))
  | .str s => .str s
  | .arr vs => .arr (toItems vs)
  | .obj ms => .obj (toMembers ms)

def toItems : List Value → List Json
  | [] => []
  | v :: vs => toJson v :: toItems vs

def toMembers : List (String × Value) → List (String × Json)
  | [] => []
  | (k, v) :: ms => (k, toJson v) :: toMembers ms

end

mutual

/-- The value that was read, if it has neither fractions nor halves of surrogate pairs. -/
def ofJson : Json → Option Value
  | .null => some .null
  | .bool b => some (.bool b)
  | .number token => (intOf token.toList).map .int
  | .str s => some (.str s)
  | .unpaired => none
  | .arr vs => (ofItems vs).map .arr
  | .obj ms => (ofMembers ms).map .obj

def ofItems : List Json → Option (List Value)
  | [] => some []
  | v :: vs => (ofJson v).bind fun x => (ofItems vs).map fun xs => x :: xs

def ofMembers : List (String × Json) → Option (List (String × Value))
  | [] => some []
  | (k, v) :: ms => (ofJson v).bind fun x => (ofMembers ms).map fun ns => (k, x) :: ns

end

/-- The value that a text stands for. -/
def loads (text : List Char) : Option Value := (read text).bind ofJson

mutual

theorem ofJson_toJson : ∀ v : Value, ofJson (toJson v) = some v
  | .null => rfl
  | .bool b => rfl
  | .int n => by
    rw [toJson, ofJson, String.toList_ofList, intOf_intText]
    rfl
  | .str s => rfl
  | .arr vs => by
    rw [toJson, ofJson, ofItems_toItems vs]
    rfl
  | .obj ms => by
    rw [toJson, ofJson, ofMembers_toMembers ms]
    rfl

theorem ofItems_toItems : ∀ vs : List Value, ofItems (toItems vs) = some vs
  | [] => rfl
  | v :: vs => by
    rw [toItems, ofItems, ofJson_toJson v, ofItems_toItems vs]
    rfl

theorem ofMembers_toMembers : ∀ ms : List (String × Value), ofMembers (toMembers ms) = some ms
  | [] => rfl
  | (k, v) :: ms => by
    rw [toMembers, ofMembers, ofJson_toJson v, ofMembers_toMembers ms]
    rfl

end

/-- The first digit of a number is not a zero, unless it is the only one. -/
theorem toDigits_cases (n : ℕ) :
    Nat.toDigits 10 n = ['0'] ∨ ∃ d ds, Nat.toDigits 10 n = d :: ds ∧ d ≠ '0' := by
  induction n using Nat.strong_induction_on with
  | _ n ih =>
    rw [Nat.toDigits_eq_if (by omega)]
    by_cases hn : n < 10
    · rw [if_pos hn]
      have hall : ∀ n < 10, [Nat.digitChar n] = ['0'] ∨
          ∃ d ds, [Nat.digitChar n] = d :: ds ∧ d ≠ '0' := by
        intro n hn
        by_cases hzero : n = 0
        · exact .inl (by rw [hzero]; rfl)
        · have hne : ∀ n < 10, n ≠ 0 → Nat.digitChar n ≠ '0' := by decide
          exact .inr ⟨_, [], rfl, hne n hn hzero⟩
      exact hall n hn
    · rw [if_neg hn]
      right
      -- the digits of `n / 10` come first, and `n / 10` is not zero
      rcases ih (n / 10) (by omega) with hzero | ⟨d, ds, hds, hd⟩
      · have hvalue := natOf_toDigits (n / 10)
        rw [hzero] at hvalue
        have : n / 10 = 0 := (Option.some.inj hvalue).symm
        omega
      · exact ⟨d, ds ++ [Nat.digitChar (n % 10)], by rw [hds]; rfl, hd⟩

theorem isTokenChar_of_isDigit {c : Char} (h : c.isDigit = true) : isTokenChar c = true := by
  rw [isTokenChar, decide_eq_true_eq]
  exact .inl (by rw [Char.isAlphanum, h, Bool.or_true])

theorem isNumber_toDigits (n : ℕ) : isUnsigned (Nat.toDigits 10 n) = true := by
  rcases toDigits_cases n with hzero | ⟨d, ds, hds, hd⟩
  · rw [hzero]
    rfl
  · have hdigits := isDigit_toDigits (n := n)
    rw [hds] at hdigits ⊢
    have hrest : ds.dropWhile Char.isDigit = [] := List.dropWhile_eq_nil_iff.mpr
      fun c hc => hdigits c (List.mem_cons_of_mem _ hc)
    rw [isUnsigned.eq_def]
    split
    · rename_i rest heq
      exact absurd (List.cons.inj heq).1 hd
    · rename_i e rest _ heq
      obtain ⟨rfl, rfl⟩ := List.cons.inj heq
      rw [hdigits d List.mem_cons_self, hrest]
      rfl
    · rename_i heq
      exact absurd heq (by simp)

/-- The digits of a number are one word. -/
theorem word_intText (n : ℤ) : Word (.number (String.ofList (intText n))) (intText n) := by
  have hdigit : ∀ k : ℕ, ∀ c ∈ Nat.toDigits 10 k, isTokenChar c = true :=
    fun k c hc => isTokenChar_of_isDigit (isDigit_toDigits c hc)
  have hchars : ∀ c ∈ intText n, isTokenChar c = true := by
    rw [intText]
    by_cases hn : n < 0
    · rw [if_pos hn, List.forall_mem_cons]
      exact ⟨by decide, hdigit _⟩
    · rw [if_neg hn]
      exact hdigit _
  have hnumber : isNumber (intText n) = true := by
    rw [intText]
    by_cases hn : n < 0
    · rw [if_pos hn]
      exact isNumber_toDigits _
    · rw [if_neg hn, isNumber.eq_def]
      split
      · rename_i rest heq
        exact absurd (by rw [heq]; rfl) (head_toDigits_ne_sign n.natAbs)
      · exact isNumber_toDigits _
  have hne : intText n ≠ [] := by
    rw [intText]
    split_ifs
    · simp
    · exact Nat.toDigits_ne_nil
  refine ⟨hne, hchars, ?_⟩
  -- the three constants are no numbers
  have hconstant : ∀ text : String, isNumber text.toList = false →
      String.ofList (intText n) ≠ text := by
    rintro text htext rfl
    rw [String.toList_ofList, hnumber] at htext
    exact absurd htext (by simp)
  rw [tokenValue]
  simp only [hconstant "null" (by decide), hconstant "true" (by decide),
    hconstant "false" (by decide), if_false, hnumber, or_true, if_true]

mutual

theorem writes_dumps : ∀ v : Value, Writes (toJson v) (dumps v)
  | .null => by
    rw [toJson, Writes, dumps]
    exact ⟨by simp, List.all_eq_true.mp (by decide), rfl⟩
  | .bool true => by
    rw [toJson, Writes, dumps]
    exact ⟨by simp, List.all_eq_true.mp (by decide), rfl⟩
  | .bool false => by
    rw [toJson, Writes, dumps]
    exact ⟨by simp, List.all_eq_true.mp (by decide), rfl⟩
  | .int n => by
    rw [toJson, Writes, dumps]
    exact word_intText n
  | .str s => by
    rw [toJson, Writes, dumps]
    exact quoted_quote s
  | .arr [] => by
    rw [toJson, toItems, Writes, dumps]
    exact ⟨[], blank_nil, rfl⟩
  | .arr (v :: vs) => by
    obtain ⟨u, hu, heq⟩ := writesItems_dumps vs
    rw [toJson, toItems, Writes, dumps, heq]
    exact ⟨[], dumps v, [], u, blank_nil, writes_dumps v, blank_nil, hu,
      by simp⟩
  | .obj [] => by
    rw [toJson, toMembers, Writes, dumps]
    exact ⟨[], blank_nil, rfl⟩
  | .obj ((k, v) :: ms) => by
    obtain ⟨u, hu, heq⟩ := writesMembers_dumps ms
    rw [toJson, toMembers, Writes, dumps, heq]
    exact ⟨[], quote k, [], [], dumps v, [], u, blank_nil, quoted_quote k,
      blank_nil, blank_nil, writes_dumps v, blank_nil, hu,
      by simp⟩

theorem writesItems_dumps : ∀ vs : List Value,
    ∃ u, WritesItems (toItems vs) u ∧ dumpsItems vs = u ++ [']']
  | [] => ⟨[], by rw [toItems, WritesItems], rfl⟩
  | v :: vs => by
    obtain ⟨u, hu, heq⟩ := writesItems_dumps vs
    refine ⟨',' :: (dumps v ++ u), ?_, by rw [dumpsItems, heq]; simp⟩
    rw [toItems, WritesItems]
    exact ⟨[], dumps v, [], u, blank_nil, writes_dumps v, blank_nil, hu,
      by simp⟩

theorem writesMembers_dumps : ∀ ms : List (String × Value),
    ∃ u, WritesMembers (toMembers ms) u ∧ dumpsMembers ms = u ++ ['\x7d']
  | [] => ⟨[], by rw [toMembers, WritesMembers], rfl⟩
  | (k, v) :: ms => by
    obtain ⟨u, hu, heq⟩ := writesMembers_dumps ms
    refine ⟨',' :: (quote k ++ ':' :: (dumps v ++ u)), ?_, by rw [dumpsMembers, heq]; simp⟩
    rw [toMembers, WritesMembers]
    exact ⟨[], quote k, [], [], dumps v, [], u, blank_nil, quoted_quote k,
      blank_nil, blank_nil, writes_dumps v, blank_nil, hu,
      by simp⟩

end

/-- **Reading inverts writing.** -/
theorem loads_dumps (v : Value) : loads (dumps v) = some v := by
  rw [loads, read_of_writes_any (writes_dumps v), Option.bind_some, ofJson_toJson]

end JsonText
