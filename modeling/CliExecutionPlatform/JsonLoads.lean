/-
`json.loads`: reading JSON with the limits of the interpreter.

The reader of the standard library stops at two kinds of text that are JSON.  It converts
integers with `int`, which refuses more than 4300 digits with a `ValueError`, and it enters
one recursive call for every open container, so that deep texts end in a `RecursionError`.
Neither is a `JSONDecodeError`, and whichever is met first, from left to right, is raised.

* `Interpreter` — how many containers may be open;
* `loads` — the machine of `read`, stopped where a limit is met;
* `within` — the values that keep to the limits;
* `within_step` — one character: a state keeps to the limits iff the one before did and no
  limit was met;
* **`loads_eq_ok`** — `loads` gives a value iff the text stands for it and it keeps to the
  limits;
* `loads_prefix` — the start of a text that is read meets no limit.
-/
import CliExecutionPlatform.JsonReader

namespace JsonReader

/-! ### The limits -/

/-- `sys.get_int_max_str_digits()`. -/
def maxStrDigits : ℕ := 4300

/-- The interpreter that runs the code, at the call of `json.loads`: the number of containers
that it can still open.  The default settings leave room for some thousands. -/
structure Interpreter where
  maxDepth : ℕ
  deep : 100 ≤ maxDepth

/-- What follows the digits makes the number a `float`: a fraction or an exponent. -/
def continuesFloat : List Char → Bool
  | '.' :: d :: _ => d.isDigit
  | e :: rest => (e = 'e' ∨ e = 'E') ∧
    (rest.head?.any Char.isDigit ∨
      ((rest.head? = some '-' ∨ rest.head? = some '+') ∧ rest.tail.head?.any Char.isDigit))
  | [] => false

/-- The digits of the integer that a token starts with, without its sign; none for a
`float`. -/
def intDigits (cs : List Char) : ℕ :=
  let unsigned := if cs.head? = some '-' then cs.tail else cs
  if unsigned.head? = some '0' ∨ continuesFloat (unsigned.dropWhile Char.isDigit) then 0
  else (unsigned.takeWhile Char.isDigit).length

/-- `int` refuses the integer that a token starts with. -/
def overlong (cs : List Char) : Bool := maxStrDigits < intDigits cs

/-! ### The reader -/

/-- What `json.loads` raises: a `JSONDecodeError`, the `ValueError` of `int` for so many
digits, or a `RecursionError` at this bracket. -/
inductive LoadsError
  | decode
  | digits (n : ℕ)
  | recursion (bracket : Char)
  deriving DecidableEq

/-- The text of the `ValueError`. -/
def digitsMessage (n : ℕ) : String :=
  "Exceeds the limit (4300 digits) for integer string conversion: value has " ++ toString n ++
    " digits; use sys.set_int_max_str_digits() to increase the limit"

/-- The text of the `RecursionError`. -/
def recursionMessage (bracket : Char) : String :=
  "maximum recursion depth exceeded while decoding a JSON " ++
    (if bracket = '[' then "array" else "object") ++ " from a unicode string"

/-- The limit that is met at a character. -/
def limitAt (depth : ℕ) (st : State) (c : Char) : Option LoadsError :=
  match st.mode with
  | .value _ =>
    if (c = '[' ∨ c = '{') ∧ depth ≤ st.stack.length then some (.recursion c) else none
  | .token chars =>
    if isTokenChar c = false ∧ overlong chars.reverse then some (.digits (intDigits chars.reverse))
    else none
  | _ => none

/-- The end of the text. -/
def finish (st : State) : Except LoadsError Json :=
  match st.mode with
  | .token chars =>
    if overlong chars.reverse then .error (.digits (intDigits chars.reverse))
    else (accept st).elim (.error .decode) .ok
  | _ => (accept st).elim (.error .decode) .ok

def loadsFrom (depth : ℕ) : List Char → State → Except LoadsError Json
  | [], st => finish st
  | c :: text, st =>
    match limitAt depth st c with
    | some e => .error e
    | none =>
      match step st c with
      | none => .error .decode
      | some st' => loadsFrom depth text st'

/-- `json.loads`. -/
def loads (interpreter : Interpreter) (text : List Char) : Except LoadsError Json :=
  loadsFrom interpreter.maxDepth text ⟨[], .value false⟩

/-! ### The values within the limits -/

mutual

/-- No integer has too many digits, and no more than `depth` containers are in each other. -/
def within (depth : ℕ) : Json → Bool
  | .null | .bool _ | .str _ | .unpaired => true
  | .number token => !overlong token.toList
  | .arr vs => 0 < depth ∧ withinItems (depth - 1) vs
  | .obj ms => 0 < depth ∧ withinMembers (depth - 1) ms

def withinItems (depth : ℕ) : List Json → Bool
  | [] => true
  | v :: vs => within depth v ∧ withinItems depth vs

def withinMembers (depth : ℕ) : List (String × Json) → Bool
  | [] => true
  | (_, v) :: ms => within depth v ∧ withinMembers depth ms

end

section Within

variable {depth : ℕ}

theorem withinItems_iff {vs : List Json} :
    withinItems depth vs = true ↔ ∀ v ∈ vs, within depth v = true := by
  induction vs with
  | nil => simp [withinItems]
  | cons v vs ih => simp [withinItems, ih]

theorem withinMembers_iff {ms : List (String × Json)} :
    withinMembers depth ms = true ↔ ∀ m ∈ ms, within depth m.2 = true := by
  induction ms with
  | nil => simp [withinMembers]
  | cons m ms ih => simp [withinMembers, ih]

theorem withinItems_reverse (vs : List Json) :
    withinItems depth vs.reverse = withinItems depth vs := by
  rw [Bool.eq_iff_iff, withinItems_iff, withinItems_iff]
  simp

theorem withinMembers_reverse (ms : List (String × Json)) :
    withinMembers depth ms.reverse = withinMembers depth ms := by
  rw [Bool.eq_iff_iff, withinMembers_iff, withinMembers_iff]
  simp

/-- A word is within the limits iff `int` does not refuse it. -/
theorem within_tokenValue {cs : List Char} {v : Json} (h : tokenValue cs = some v) :
    within depth v = true ↔ overlong cs = false := by
  -- the three constants have no digits
  have hconstant : ∀ {text : String} {u : Json}, overlong text.toList = false →
      within depth u = true → String.ofList cs = text → u = v →
      (within depth v = true ↔ overlong cs = false) := by
    intro text u hdigits hu htext huv
    have hcs : cs = text.toList := by rw [← htext, String.toList_ofList]
    rw [hcs, hdigits, ← huv]
    exact ⟨fun _ => rfl, fun _ => hu⟩
  unfold tokenValue at h
  simp only at h
  split_ifs at h with hnull htrue hfalse hnumber
  · exact hconstant (by decide) rfl hnull (Option.some.inj h)
  · exact hconstant (by decide) rfl htrue (Option.some.inj h)
  · exact hconstant (by decide) rfl hfalse (Option.some.inj h)
  · rw [← Option.some.inj h, within, String.toList_ofList]
    simp

/-- What a container holds is within the limits, below `depth` containers. -/
def Frame.within (depth : ℕ) : Frame → Bool
  | .items done => withinItems depth done
  | .member done _ | .keys done => withinMembers depth done

def stackWithin (depth : ℕ) : List Frame → Prop
  | [] => True
  | frame :: stack => stack.length < depth ∧ frame.within (depth - (stack.length + 1)) = true ∧
      stackWithin depth stack

/-- The machine has met no limit. -/
def State.Within (depth : ℕ) (st : State) : Prop :=
  stackWithin depth st.stack ∧ ∀ v, st.mode = .done v → JsonReader.within depth v = true

theorem State.within_open {stack : List Frame} {mode : Mode} (h : ∀ v, mode ≠ .done v) :
    State.Within depth ⟨stack, mode⟩ ↔ stackWithin depth stack :=
  ⟨fun hst => hst.1, fun hst => ⟨hst, fun v hv => absurd hv (h v)⟩⟩

theorem within_deliver {v : Json} {stack : List Frame} {st : State}
    (h : deliver v stack = some st) :
    st.Within depth ↔ within (depth - stack.length) v = true ∧ stackWithin depth stack := by
  rcases stack with _ | ⟨frame, stack⟩
  · rw [← Option.some.inj h]
    simp [State.Within, stackWithin]
  · cases frame with
    | items done =>
      rw [← Option.some.inj h, State.within_open (by simp)]
      simp only [stackWithin, Frame.within, withinItems, List.length_cons, decide_eq_true_eq]
      tauto
    | member done key =>
      rw [← Option.some.inj h, State.within_open (by simp)]
      simp only [stackWithin, Frame.within, withinMembers, List.length_cons, decide_eq_true_eq]
      tauto
    | keys done => exact absurd h (by simp [deliver])

/-- A container that is closed has the depth of its place. -/
theorem within_proceed {c : Char} {stack : List Frame} {st : State}
    (h : proceed c stack = some st) : st.Within depth ↔ stackWithin depth stack := by
  rcases stack with _ | ⟨frame, stack⟩
  · exact absurd h (by simp [proceed])
  cases frame with
  | items done =>
    rw [proceed] at h
    split_ifs at h
    · rw [within_deliver h, within, withinItems_reverse]
      simp only [stackWithin, Frame.within, decide_eq_true_eq, Nat.sub_sub, Nat.sub_pos_iff_lt]
      tauto
    · rw [← Option.some.inj h, State.within_open (by simp)]
  | member done key => exact absurd h (by simp [proceed])
  | keys done =>
    rw [proceed] at h
    split_ifs at h
    · rw [within_deliver h, within, withinMembers_reverse]
      simp only [stackWithin, Frame.within, decide_eq_true_eq, Nat.sub_sub, Nat.sub_pos_iff_lt]
      tauto
    · rw [← Option.some.inj h, State.within_open (by simp)]

theorem within_stepAfter {st st' : State} {c : Char} (h : stepAfter st c = some st') :
    st'.Within depth ↔ st.Within depth := by
  obtain ⟨stack, mode⟩ := st
  rw [stepAfter] at h
  split_ifs at h
  · rw [← Option.some.inj h]
  · cases mode with
    | after => rw [within_proceed h, State.within_open (by simp)]
    | _ => exact absurd h (by simp)

theorem within_finishText {stack : List Frame} {isKey : Bool} {chars : Option (List Char)}
    {st : State} (h : finishText stack isKey chars = some st) :
    st.Within depth ↔ stackWithin depth stack := by
  -- strings are within every limit
  have hvalue : ∀ v : Json, within (depth - stack.length) v = true →
      deliver v stack = some st → (st.Within depth ↔ stackWithin depth stack) := by
    intro v hv hdeliver
    rw [within_deliver hdeliver]
    exact and_iff_right hv
  cases chars with
  | none =>
    rw [finishText] at h
    split_ifs at h
    · rw [← Option.some.inj h, State.within_open (by simp)]
    · exact hvalue _ rfl h
  | some chars =>
    simp only [finishText] at h
    split_ifs at h
    · rw [← Option.some.inj h, State.within_open (by simp)]
    · exact hvalue _ rfl h

theorem within_stepValue {stack : List Frame} {closable : Bool} {c : Char} {st : State}
    (h : stepValue stack closable c = some st) :
    st.Within depth ↔ stackWithin depth stack ∧ ¬ ((c = '[' ∨ c = '{') ∧ depth ≤ stack.length) := by
  have hplain : c ≠ '[' → c ≠ '{' → (st.Within depth ↔ stackWithin depth stack) →
      (st.Within depth ↔
        stackWithin depth stack ∧ ¬ ((c = '[' ∨ c = '{') ∧ depth ≤ stack.length)) := by
    intro harr hobj hst
    rw [hst]
    simp [harr, hobj]
  unfold stepValue at h
  split_ifs at h with hblank hquote harr hobj htoken hclose
  · obtain rfl := Option.some.inj h
    refine hplain ?_ ?_ (State.within_open (by simp))
    · rintro rfl
      exact absurd hblank (by decide)
    · rintro rfl
      exact absurd hblank (by decide)
  · obtain rfl := Option.some.inj h
    subst hquote
    exact hplain (by decide) (by decide) (State.within_open (by simp))
  · -- the brackets are where the limit of the depth is met
    rw [← Option.some.inj h, State.within_open (by simp)]
    simp only [stackWithin, Frame.within, withinItems, harr, true_or, true_and, not_le]
    tauto
  · rw [← Option.some.inj h, State.within_open (by simp)]
    simp only [stackWithin, Frame.within, withinMembers, hobj, or_true, true_and, not_le]
    tauto
  · obtain rfl := Option.some.inj h
    exact hplain harr hobj (State.within_open (by simp))
  · exact hplain harr hobj (within_proceed h)

theorem within_stepKey {stack : List Frame} {closable : Bool} {c : Char} {st : State}
    (h : stepKey stack closable c = some st) : st.Within depth ↔ stackWithin depth stack := by
  unfold stepKey at h
  split_ifs at h
  · rw [← Option.some.inj h, State.within_open (by simp)]
  · rw [← Option.some.inj h, State.within_open (by simp)]
  · exact within_proceed h

theorem within_stepColon {stack : List Frame} {key : String} {c : Char} {st : State}
    (h : stepColon stack key c = some st) : st.Within depth ↔ stackWithin depth stack := by
  unfold stepColon at h
  split_ifs at h
  · rw [← Option.some.inj h, State.within_open (by simp)]
  · split at h
    · rw [← Option.some.inj h, State.within_open (by simp)]
      rfl
    · exact absurd h (by simp)

/-- **One character**: the machine has met no limit after it iff it had met none before and
meets none at it. -/
theorem within_step {st st' : State} {c : Char} (h : step st c = some st') :
    st'.Within depth ↔ st.Within depth ∧ limitAt depth st c = none := by
  obtain ⟨stack, mode⟩ := st
  -- where no limit can be met
  have hfree : limitAt depth ⟨stack, mode⟩ c = none →
      (st'.Within depth ↔ State.Within depth ⟨stack, mode⟩) →
      (st'.Within depth ↔ State.Within depth ⟨stack, mode⟩ ∧
        limitAt depth ⟨stack, mode⟩ c = none) := by
    intro hnone hst
    rw [hst, hnone]
    simp
  cases mode with
  | value closable =>
    rw [within_stepValue (show stepValue stack closable c = some st' from h),
      State.within_open (by simp), limitAt]
    simp
  | key closable =>
    refine hfree rfl ?_
    rw [within_stepKey (show stepKey stack closable c = some st' from h),
      State.within_open (by simp)]
  | colon key =>
    refine hfree rfl ?_
    rw [within_stepColon (show stepColon stack key c = some st' from h),
      State.within_open (by simp)]
  | after => exact hfree rfl (within_stepAfter h)
  | done v => exact hfree rfl (within_stepAfter h)
  | text isKey chars esc =>
    refine hfree rfl ?_
    have hopen : ∀ chars esc,
        State.Within depth ⟨stack, .text isKey chars esc⟩ ↔ stackWithin depth stack :=
      fun _ _ => State.within_open (by simp)
    rcases step_text h with ⟨chars', -, hend⟩ | ⟨r, -, rfl⟩
    · rw [within_finishText hend, hopen]
    · rw [hopen, hopen]
  | token chars =>
    rcases step_token h with ⟨htoken, rfl⟩ | ⟨htoken, v, st₁, hv, hdeliver, hafter⟩
    · refine hfree (by simp [limitAt, htoken]) ?_
      rw [State.within_open (by simp), State.within_open (by simp)]
    · -- the word is complete
      rw [within_stepAfter hafter, within_deliver hdeliver, within_tokenValue hv,
        State.within_open (by simp), limitAt]
      simp only [htoken, true_and, ite_eq_right_iff, reduceCtorEq, imp_false, Bool.not_eq_true]
      tauto

end Within

/-! ### The texts that are read -/

section Loads

variable {depth : ℕ} {v : Json}

theorem finish_eq_ok {st : State} :
    finish st = .ok v ↔ accept st = some v ∧
      ∀ chars, st.mode = .token chars → overlong chars.reverse = false := by
  have helim : (accept st).elim (.error .decode) .ok =
      (.ok v : Except LoadsError Json) ↔ accept st = some v := by
    cases accept st <;> simp
  unfold finish
  split
  · rename_i chars hmode
    by_cases hlong : overlong chars.reverse = true
    · rw [if_pos hlong]
      simp [hmode, hlong]
    · rw [if_neg hlong, helim]
      simp [hmode, hlong]
  · rename_i hmode
    rw [helim]
    exact ⟨fun h => ⟨h, fun chars hchars => absurd hchars (hmode chars)⟩, And.left⟩

/-- A value that is accepted is within the limits iff the machine has met none, and the last
word is none that `int` refuses. -/
theorem within_accept {st : State} (h : accept st = some v) :
    within depth v = true ↔ st.Within depth ∧
      ∀ chars, st.mode = .token chars → overlong chars.reverse = false := by
  obtain ⟨stack, mode⟩ := st
  unfold accept at h
  split at h
  · rename_i u hmode hstack
    obtain rfl : mode = .done u := hmode
    obtain rfl : stack = [] := hstack
    obtain rfl := Option.some.inj h
    simp [State.Within, stackWithin]
  · rename_i chars hmode hstack
    obtain rfl : mode = .token chars := hmode
    obtain rfl : stack = [] := hstack
    rw [within_tokenValue h]
    simp [State.Within, stackWithin]
  · exact absurd h (by simp)

theorem loadsFrom_cons {c : Char} {text : List Char} {st : State} :
    loadsFrom depth (c :: text) st = .ok v ↔
      limitAt depth st c = none ∧ ∃ st', step st c = some st' ∧
        loadsFrom depth text st' = .ok v := by
  rw [loadsFrom]
  rcases limitAt depth st c with _ | e
  · rcases step st c with _ | st' <;> simp
  · simp

/-- From a state without a limit met, `loads` gives the values within the limits. -/
theorem loadsFrom_eq_ok {text : List Char} {st : State} :
    (st.Within depth ∧ loadsFrom depth text st = .ok v) ↔
      (run text st).bind accept = some v ∧ within depth v = true := by
  induction text generalizing st with
  | nil =>
    show (st.Within depth ∧ finish st = .ok v) ↔ accept st = some v ∧ _
    rw [finish_eq_ok]
    constructor
    · rintro ⟨hst, haccept, htoken⟩
      exact ⟨haccept, (within_accept haccept).mpr ⟨hst, htoken⟩⟩
    · rintro ⟨haccept, hv⟩
      obtain ⟨hst, htoken⟩ := (within_accept haccept).mp hv
      exact ⟨hst, haccept, htoken⟩
  | cons c text ih =>
    rw [loadsFrom_cons, run_cons]
    rcases hstep : step st c with _ | st'
    · simp
    · have hone : st'.Within depth ↔ st.Within depth ∧ limitAt depth st c = none :=
        within_step hstep
      rw [Option.bind_some, ← ih, hone]
      simp only [Option.some.injEq, exists_eq_left']
      tauto

/-- **What `json.loads` reads**: the texts of values within the limits. -/
theorem loads_eq_ok {interpreter : Interpreter} {text : List Char} :
    loads interpreter text = .ok v ↔
      read text = some v ∧ within interpreter.maxDepth v = true := by
  have hstart : State.Within interpreter.maxDepth ⟨[], .value false⟩ := ⟨trivial, by simp⟩
  rw [read, ← loadsFrom_eq_ok]
  exact ⟨fun h => ⟨hstart, h⟩, And.right⟩

-- one container too many is met before the end of the text is
example : loads ⟨100, by decide⟩ (List.replicate 101 '[') = .error (.recursion '[') := rfl

theorem loads_of_writes {interpreter : Interpreter} {t : List Char} (h : Writes v t)
    (hend : v.selfEnding = true) (hv : within interpreter.maxDepth v = true) :
    loads interpreter t = .ok v := loads_eq_ok.mpr ⟨read_of_writes h hend, hv⟩

/-- **The start of a text that is read**, up to a character that ends words, is read as well
or is no JSON: it meets no limit. -/
theorem loads_prefix {interpreter : Interpreter} {text rest : List Char} {c : Char}
    (h : loads interpreter (text ++ c :: rest) = .ok v) (hc : isTokenChar c = false) :
    loads interpreter text = .error .decode ∨ ∃ w, loads interpreter text = .ok w := by
  have hfrom : ∀ (text : List Char) (st : State),
      loadsFrom interpreter.maxDepth (text ++ c :: rest) st = .ok v →
      loadsFrom interpreter.maxDepth text st = .error .decode ∨
        ∃ w, loadsFrom interpreter.maxDepth text st = .ok w := by
    intro text
    induction text with
    | nil =>
      intro st h
      have hlimit := (loadsFrom_cons.mp h).1
      rw [loadsFrom, finish]
      rcases hmode : st.mode with _ | _ | _ | _ | _ | chars | _
      case token =>
        -- the character ends the word, which `int` has not refused
        have hshort : overlong chars.reverse = false := by
          simpa [limitAt, hmode, hc] using hlimit
        simp only [hshort]
        rcases accept st with _ | w <;> simp
      all_goals
        rcases accept st with _ | w <;> simp
    | cons d text ih =>
      intro st h
      obtain ⟨hlimit, st', hstep, h⟩ := loadsFrom_cons.mp h
      rw [loadsFrom, hlimit, hstep]
      exact ih st' h
  exact hfrom text _ h

end Loads

end JsonReader
