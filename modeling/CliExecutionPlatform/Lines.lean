/-
Lists that are split at a separator, also when they arrive in pieces.

A reader that gets a list in chunks keeps what stands after the last separator and puts
it in front of the next chunk.

* `splitOn_cases` — a list has no separator, or a last one;
* `complete`, `remainder` — the parts that a separator ends, and what follows the last
  one; **`complete_append`**, `remainder_append` — a reader that keeps the remainder sees
  the same parts as one that has the whole list;
* `pieces` — all parts, with the remainder unless it is empty;
* `Shuffle` — a list that is made of two others, each in its own order;
* `rtake_rtake_append` — the last elements can be kept along the way.
-/
import Mathlib.Data.List.DropRight
import Mathlib.Tactic.Common

namespace Lines

section Split

variable {α : Type} [DecidableEq α] (sep : α)

/-- A list has no separator, or a last one. -/
theorem splitOn_cases (xs : List α) :
    xs.splitOn sep = [xs] ∨ ∃ front last, xs = front ++ sep :: last ∧
      last.splitOn sep = [last] ∧ xs.splitOn sep = front.splitOn sep ++ [last] := by
  by_cases hsep : sep ∈ xs
  · -- the last separator is the first one from behind
    obtain ⟨last, front, happ, hnot⟩ := List.eq_append_cons_of_mem (List.mem_reverse.mpr hsep)
    have hxs : xs = front.reverse ++ sep :: last.reverse := by
      have := congrArg List.reverse happ
      simpa using this
    have hlast : last.reverse.splitOn sep = [last.reverse] :=
      List.splitOn_eq_singleton (by simpa using hnot)
    refine .inr ⟨front.reverse, last.reverse, hxs, hlast, ?_⟩
    rw [hxs, List.splitOn_append_cons_self, hlast]
  · exact .inl (List.splitOn_eq_singleton hsep)

/-- The parts that a separator ends. -/
def complete (xs : List α) : List (List α) := (xs.splitOn sep).dropLast

/-- What stands after the last separator. -/
def remainder (xs : List α) : List α := (xs.splitOn sep).getLast?.getD []

/-- The remainder as a part; an empty one is none. -/
def lastPiece (xs : List α) : List (List α) :=
  if remainder sep xs = [] then [] else [remainder sep xs]

/-- All parts. -/
def pieces (xs : List α) : List (List α) := complete sep xs ++ lastPiece sep xs

/-- What follows joins the remainder. -/
theorem splitOn_append (xs ys : List α) :
    (xs ++ ys).splitOn sep = complete sep xs ++ (remainder sep xs ++ ys).splitOn sep := by
  rcases splitOn_cases sep xs with hone | ⟨front, last, hxs, -, hsplit⟩
  · rw [complete, remainder, hone]
    rfl
  · rw [complete, remainder, hsplit, List.dropLast_concat, List.getLast?_concat,
      Option.getD_some, hxs, List.append_assoc, List.cons_append, List.splitOn_append_cons_self]

/-- A reader that keeps the remainder sees every complete part, once and whole. -/
theorem complete_append (xs ys : List α) :
    complete sep (xs ++ ys) = complete sep xs ++ complete sep (remainder sep xs ++ ys) := by
  rw [complete, splitOn_append, List.dropLast_append_of_ne_nil (List.splitOn_ne_nil _ _)]
  rfl

theorem remainder_append (xs ys : List α) :
    remainder sep (xs ++ ys) = remainder sep (remainder sep xs ++ ys) := by
  rw [remainder, splitOn_append, List.getLast?_append_of_ne_nil _ (List.splitOn_ne_nil _ _)]
  rfl

end Split

/-! ### Two orders in one list -/

/-- `zs` is made of `xs` and `ys`, each in its own order. -/
inductive Shuffle {α : Type} : List α → List α → List α → Prop
  | nil : Shuffle [] [] []
  | left {x : α} {xs ys zs : List α} : Shuffle xs ys zs → Shuffle (x :: xs) ys (x :: zs)
  | right {y : α} {xs ys zs : List α} : Shuffle xs ys zs → Shuffle xs (y :: ys) (y :: zs)

namespace Shuffle

variable {α : Type} {xs ys zs : List α}

theorem append_left (ws : List α) (h : Shuffle xs ys zs) : Shuffle (ws ++ xs) ys (ws ++ zs) := by
  induction ws with
  | nil => exact h
  | cons w ws ih => exact .left ih

theorem append_right (ws : List α) (h : Shuffle xs ys zs) : Shuffle xs (ws ++ ys) (ws ++ zs) := by
  induction ws with
  | nil => exact h
  | cons w ws ih => exact .right ih

theorem length_eq (h : Shuffle xs ys zs) : zs.length = xs.length + ys.length := by
  induction h with
  | nil => rfl
  | left _ ih =>
    rw [List.length_cons, List.length_cons, ih]
    omega
  | right _ ih =>
    rw [List.length_cons, List.length_cons, ih]
    omega

end Shuffle

/-! ### The last elements -/

/-- The last `n` elements of a list are the last ones of its last `n` elements and what
follows. -/
theorem rtake_rtake_append {α : Type} (n : ℕ) (xs ys : List α) :
    (xs.rtake n ++ ys).rtake n = (xs ++ ys).rtake n := by
  rw [List.rtake, List.rtake, List.rtake, List.drop_append, List.drop_append, List.drop_drop,
    List.length_append, List.length_append, List.length_drop]
  congr 2 <;> omega

end Lines
