/-
The wire grammar of event streams, from the side of the client.

A stream is text.  Its lines end with CR, LF or CRLF; a line is a field, a
comment or empty, and an empty line dispatches the event that the fields before
it describe.  What follows the last complete line is not interpreted.

* `lines`, `field`, `dispatch`, `parse` — the interpretation of a stream;
* `lines_append` — a line without line breaks, terminated by LF, is read as it
  is, whatever follows;
* `interpretLine_field` — the line `name: value` sets the field to the value;
* `interpret_cut` — a stream that breaks off has dispatched the first messages of the whole.
-/
import Mathlib.Data.List.Basic
import Mathlib.Tactic.Common

namespace EventSource

/-- An event as it is dispatched. -/
structure Message where
  lastEventId : List Char
  event : List Char
  data : List Char

/-- The buffers between two lines. -/
structure Buffers where
  lastEventId : List Char
  event : List Char
  data : List Char

/-- The complete lines of a text, where `line` has been read of the first one. -/
def lines (line : List Char) : List Char → List (List Char)
  | [] => []
  | '\r' :: '\n' :: text => line :: lines [] text
  | '\r' :: text => line :: lines [] text
  | '\n' :: text => line :: lines [] text
  | c :: text => lines (line ++ [c]) text

/-- A field and its value. -/
def field (b : Buffers) (name value : List Char) : Buffers :=
  if name = ['e', 'v', 'e', 'n', 't'] then { b with event := value }
  else if name = ['d', 'a', 't', 'a'] then { b with data := b.data ++ value ++ ['\n'] }
  else if name = ['i', 'd'] then
    if '\x00' ∈ value then b else { b with lastEventId := value }
  else b

/-- One space after the colon does not belong to the value. -/
def dropSpace : List Char → List Char
  | ' ' :: value => value
  | value => value

/-- The empty line: without data nothing is dispatched. -/
def dispatch (b : Buffers) : Buffers × Option Message :=
  if b.data = [] then (⟨b.lastEventId, [], []⟩, none)
  else (⟨b.lastEventId, [], []⟩, some ⟨b.lastEventId,
    if b.event = [] then ['m', 'e', 's', 's', 'a', 'g', 'e'] else b.event, b.data.dropLast⟩)

/-- One line. -/
def interpretLine (b : Buffers) (line : List Char) : Buffers × Option Message :=
  if line = [] then dispatch b
  else if line.head? = some ':' then (b, none)
  else (field b (line.takeWhile (· ≠ ':')) (dropSpace (line.dropWhile (· ≠ ':')).tail), none)

/-- Line after line. -/
def interpret (b : Buffers) : List (List Char) → List Message
  | [] => []
  | line :: rest =>
    (interpretLine b line).2.toList ++ interpret (interpretLine b line).1 rest

/-- The events of a stream; a byte order mark at its start is skipped. -/
def parse (text : List Char) : List Message :=
  interpret ⟨[], [], []⟩ (lines [] (if text.head? = some '\uFEFF' then text.tail else text))

/-! ### Lines -/

/-- The text has no line break. -/
def OneLine (text : List Char) : Prop := ∀ c ∈ text, c ≠ '\r' ∧ c ≠ '\n'

instance (text : List Char) : Decidable (OneLine text) :=
  List.decidableBAll (fun c => c ≠ '\r' ∧ c ≠ '\n') text

theorem lines_append {text : List Char} (h : OneLine text) (line rest : List Char) :
    lines line (text ++ '\n' :: rest) = (line ++ text) :: lines [] rest := by
  induction text generalizing line with
  | nil =>
    rw [List.nil_append, List.append_nil]
    rfl
  | cons c text ih =>
    obtain ⟨hcr, hlf⟩ := h c List.mem_cons_self
    have hc : lines line (c :: (text ++ '\n' :: rest)) =
        lines (line ++ [c]) (text ++ '\n' :: rest) := by
      rw [lines.eq_def]
      split <;> simp_all
    rw [List.cons_append, hc, ih (fun d hd => h d (List.mem_cons_of_mem _ hd)),
      List.append_assoc]
    rfl

/-! ### Fields -/

/-- The line `name: value`. -/
theorem interpretLine_field (b : Buffers) {c : Char} {name : List Char} (value : List Char)
    (h : ∀ d ∈ c :: name, d ≠ ':') :
    interpretLine b (c :: name ++ ':' :: ' ' :: value) = (field b (c :: name) value, none) := by
  have hpos : ∀ d ∈ c :: name, decide (d ≠ ':') = true := fun d hd => decide_eq_true (h d hd)
  have htake : (c :: name ++ ':' :: ' ' :: value).takeWhile (· ≠ ':') = c :: name := by
    rw [List.takeWhile_append_of_pos hpos, List.takeWhile_cons, if_neg (by decide),
      List.append_nil]
  have hdrop : (c :: name ++ ':' :: ' ' :: value).dropWhile (· ≠ ':') = ':' :: ' ' :: value := by
    rw [List.dropWhile_append_of_pos hpos, List.dropWhile_cons, if_neg (by decide)]
  rw [interpretLine, if_neg (by simp), if_neg (by simpa using h c List.mem_cons_self), htake,
    hdrop]
  rfl

/-! ### Streams that break off -/

theorem lines_cut (line text rest : List Char) :
    lines line text <+: lines line (text ++ rest) := by
  fun_induction lines line text with
  | case1 line => exact List.nil_prefix
  | case2 line text ih =>
    rw [List.cons_append, List.cons_append, lines]
    exact (List.prefix_cons_inj _).mpr ih
  | case3 line text hne ih =>
    rw [List.cons_append]
    by_cases hlf : ∃ more, text ++ rest = '\n' :: more
    · -- the cut is between a carriage return and its line feed
      obtain ⟨more, hmore⟩ := hlf
      obtain rfl : text = [] := by
        cases text with
        | nil => rfl
        | cons c text =>
          obtain ⟨rfl, -⟩ := List.cons.inj hmore
          exact absurd rfl (hne text)
      rw [hmore, lines]
      exact (List.prefix_cons_inj _).mpr List.nil_prefix
    · rw [lines.eq_3 _ _ fun more hmore => hlf ⟨more, hmore⟩]
      exact (List.prefix_cons_inj _).mpr ih
  | case4 line text ih =>
    rw [List.cons_append, lines]
    exact (List.prefix_cons_inj _).mpr ih
  | case5 line c text _ hcr hlf ih =>
    rw [List.cons_append, lines.eq_5 _ _ _ (fun _ hc _ => hcr hc) hcr hlf]
    exact ih

theorem interpret_append (b : Buffers) (ls rest : List (List Char)) :
    interpret b ls <+: interpret b (ls ++ rest) := by
  induction ls generalizing b with
  | nil => exact List.nil_prefix
  | cons line ls ih =>
    rw [List.cons_append, interpret, interpret]
    exact (List.prefix_append_right_inj _).mpr (ih _)

/-- **A stream that breaks off** has dispatched the first messages of the whole stream. -/
theorem interpret_cut (b : Buffers) {text whole : List Char} (h : text <+: whole) :
    interpret b (lines [] text) <+: interpret b (lines [] whole) := by
  obtain ⟨rest, rfl⟩ := h
  obtain ⟨more, hmore⟩ := lines_cut [] text rest
  rw [← hmore]
  exact interpret_append b _ _

end EventSource
