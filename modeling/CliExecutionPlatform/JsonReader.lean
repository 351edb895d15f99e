/-
Reading JSON text, one character at a time.

The reader is a machine with a stack: the containers that are open, and what may come
next.  It accepts what the grammar of JSON accepts, and the constants `NaN`, `Infinity`
and `-Infinity`.  A string with half of a surrogate pair is read, but is no text: its
characters are not kept.  The texts of a value are described by `Writes`: any white space
between the tokens, any spelling of the characters of a string.

* `step`, `read` — the machine, and the value it ends with;
* **`read_of_writes`** — every text of a value is read back as this value;
* **`blank_of_read_append`** — a text that starts a container and is complete can only be
  followed by white space;
* **`weight_le_of_read`** — the strings of a value have no more characters than its text.
-/
import CliExecutionPlatform.JsonText

namespace JsonReader

open JsonText (hexValue unescape)

/-- `unpaired` is a string with half of a surrogate pair in it. -/
inductive Json
  | null
  | bool (b : Bool)
  | number (token : String)
  | str (s : String)
  | unpaired
  | arr (items : List Json)
  | obj (members : List (String × Json))

/-! ### Tokens -/

/-- The white space of JSON. -/
def isBlank (c : Char) : Bool := c ∈ [' ', '\t', '\n', '\r']

/-- The characters of numbers and of the constants. -/
def isTokenChar (c : Char) : Bool := c.isAlphanum ∨ c ∈ ['-', '+', '.']

/-- At least one digit, and nothing else. -/
def isDigits (cs : List Char) : Bool := cs ≠ [] ∧ cs.all Char.isDigit

/-- `([eE][-+]?[0-9]+)?`. -/
def isExponent : List Char → Bool
  | [] => true
  | e :: rest => (e = 'e' ∨ e = 'E') ∧
    (isDigits rest ∨ ((rest.head? = some '-' ∨ rest.head? = some '+') ∧ isDigits rest.tail))

/-- `(\.[0-9]+)?` and the exponent. -/
def isFraction : List Char → Bool
  | '.' :: d :: rest => d.isDigit ∧ isExponent (rest.dropWhile Char.isDigit)
  | rest => isExponent rest

/-- `0|[1-9][0-9]*`, the fraction and the exponent. -/
def isUnsigned : List Char → Bool
  | '0' :: rest => isFraction rest
  | d :: rest => d.isDigit ∧ isFraction (rest.dropWhile Char.isDigit)
  | [] => false

def isNumber : List Char → Bool
  | '-' :: rest => isUnsigned rest
  | cs => isUnsigned cs

/-- The value of a token. -/
def tokenValue (cs : List Char) : Option Json :=
  let token := String.ofList cs
  if token = "null" then some .null
  else if token = "true" then some (.bool true)
  else if token = "false" then some (.bool false)
  else if token = "NaN" ∨ token = "Infinity" ∨ token = "-Infinity" ∨ isNumber cs then
    some (.number token)
  else none

/-! ### Strings -/

/-- Where in a character of a string the reader is: between characters, after a backslash,
after `\u` and some digits, or between the two halves of a surrogate pair. -/
inductive Escape
  | plain
  | escaped
  | code (high : Option ℕ) (digits : List ℕ)
  | slash (high : ℕ)
  | letter (high : ℕ)

/-- The number that hexadecimal digits stand for. -/
def hexNumber (digits : List ℕ) : ℕ := digits.foldl (fun n d => n * 16 + d) 0

def isHigh (n : ℕ) : Bool := 0xD800 ≤ n ∧ n ≤ 0xDBFF

def isLow (n : ℕ) : Bool := 0xDC00 ≤ n ∧ n ≤ 0xDFFF

/-- The character of a surrogate pair. -/
def pairChar (high low : ℕ) : Char := Char.ofNat (0x10000 + (high - 0xD800) * 1024 + (low - 0xDC00))

/-- The end of a code; `chars` are the characters so far, the last one first, and `none` if
half of a pair is among them.  A first half that no second one follows stands alone. -/
def finishCode (chars : Option (List Char)) (high : Option ℕ) (n : ℕ) :
    Option (List Char) × Escape :=
  match high with
  | none =>
    if isHigh n then (chars, .slash n)
    else if isLow n then (none, .plain)
    else (chars.map (Char.ofNat n :: ·), .plain)
  | some h =>
    if isLow n then (chars.map (pairChar h n :: ·), .plain)
    else if isHigh n then (none, .slash n)
    else (none, .plain)

/-- One character inside of a string that does not end it, between characters. -/
def stepPlain (chars : Option (List Char)) (c : Char) : Option (Option (List Char) × Escape) :=
  if c = '\\' then some (chars, .escaped)
  else if c.toNat < 32 then none
  else some (chars.map (c :: ·), .plain)

/-- The character after a backslash. -/
def stepEscaped (chars : Option (List Char)) (c : Char) : Option (Option (List Char) × Escape) :=
  if c = 'u' then some (chars, .code none [])
  else (unescape c).map fun x => (chars.map (x :: ·), .plain)

/-- One character inside of a string that does not end it. -/
def stepText (chars : Option (List Char)) :
    Escape → Char → Option (Option (List Char) × Escape)
  | .plain, c => stepPlain chars c
  | .escaped, c => stepEscaped chars c
  | .code high digits, c =>
    (hexValue c).map fun d =>
      if digits.length < 3 then (chars, .code high (digits ++ [d]))
      else finishCode chars high (hexNumber (digits ++ [d]))
  | .slash high, c => if c = '\\' then some (chars, .letter high) else stepPlain none c
  | .letter high, c => if c = 'u' then some (chars, .code (some high) []) else stepEscaped none c

/-! ### The machine -/

/-- A container that is open: an array, an object before the value of a member, or an
object before or after a member.  What it holds stands there the last one first. -/
inductive Frame
  | items (done : List Json)
  | member (done : List (String × Json)) (key : String)
  | keys (done : List (String × Json))

/-- What may come next; `closable` right after the start of a container. -/
inductive Mode
  | value (closable : Bool)
  | key (closable : Bool)
  | colon (key : String)
  | after
  | text (isKey : Bool) (chars : Option (List Char)) (esc : Escape)
  | token (chars : List Char)
  | done (v : Json)

structure State where
  stack : List Frame
  mode : Mode

/-- A value is complete. -/
def deliver (v : Json) : List Frame → Option State
  | [] => some ⟨[], .done v⟩
  | .items done :: rest => some ⟨.items (v :: done) :: rest, .after⟩
  | .member done key :: rest => some ⟨.keys ((key, v) :: done) :: rest, .after⟩
  | .keys _ :: _ => none

/-- A container goes on or is closed. -/
def proceed (c : Char) : List Frame → Option State
  | .items done :: rest =>
    if c = ']' then deliver (.arr done.reverse) rest
    else if c = ',' then some ⟨.items done :: rest, .value false⟩
    else none
  | .keys done :: rest =>
    if c = '}' then deliver (.obj done.reverse) rest
    else if c = ',' then some ⟨.keys done :: rest, .key false⟩
    else none
  | _ => none

/-- After a complete value. -/
def stepAfter (st : State) (c : Char) : Option State :=
  if isBlank c then some st
  else match st.mode with
    | .after => proceed c st.stack
    | _ => none

def stepValue (stack : List Frame) (closable : Bool) (c : Char) : Option State :=
  if isBlank c then some ⟨stack, .value closable⟩
  else if c = '"' then some ⟨stack, .text false (some []) .plain⟩
  else if c = '[' then some ⟨.items [] :: stack, .value true⟩
  else if c = '{' then some ⟨.keys [] :: stack, .key true⟩
  else if isTokenChar c then some ⟨stack, .token [c]⟩
  else if closable ∧ c = ']' then proceed c stack
  else none

def stepKey (stack : List Frame) (closable : Bool) (c : Char) : Option State :=
  if isBlank c then some ⟨stack, .key closable⟩
  else if c = '"' then some ⟨stack, .text true (some []) .plain⟩
  else if closable ∧ c = '}' then proceed c stack
  else none

def stepColon (stack : List Frame) (key : String) (c : Char) : Option State :=
  if isBlank c then some ⟨stack, .colon key⟩
  else if c = ':' then
    match stack with
    | .keys done :: rest => some ⟨.member done key :: rest, .value false⟩
    | _ => none
  else none

/-- The end of a string.  A key with half of a surrogate pair is kept as one replacement
character: nothing asks for such a key. -/
def finishText (stack : List Frame) (isKey : Bool) : Option (List Char) → Option State
  | some chars =>
    let s := String.ofList chars.reverse
    if isKey then some ⟨stack, .colon s⟩ else deliver (.str s) stack
  | none => if isKey then some ⟨stack, .colon "\uFFFD"⟩ else deliver .unpaired stack

def step (st : State) (c : Char) : Option State :=
  match st.mode with
  | .value closable => stepValue st.stack closable c
  | .key closable => stepKey st.stack closable c
  | .colon key => stepColon st.stack key c
  | .after => stepAfter st c
  | .done _ => stepAfter st c
  | .text isKey chars .plain =>
    if c = '"' then finishText st.stack isKey chars
    else (stepText chars .plain c).map fun r => ⟨st.stack, .text isKey r.1 r.2⟩
  | .text isKey chars (.slash high) =>
    if c = '"' then finishText st.stack isKey none
    else (stepText chars (.slash high) c).map fun r => ⟨st.stack, .text isKey r.1 r.2⟩
  | .text isKey chars esc =>
    (stepText chars esc c).map fun r => ⟨st.stack, .text isKey r.1 r.2⟩
  | .token chars =>
    if isTokenChar c then some ⟨st.stack, .token (c :: chars)⟩
    else (tokenValue chars.reverse).bind fun v =>
      (deliver v st.stack).bind fun st' => stepAfter st' c

/-- In a string: it ends, perhaps after half of a surrogate pair, or it goes on. -/
theorem step_text {stack : List Frame} {isKey : Bool} {chars : Option (List Char)} {esc : Escape}
    {c : Char} {st : State} (h : step ⟨stack, .text isKey chars esc⟩ c = some st) :
    (∃ chars', (chars' = chars ∨ chars' = none) ∧ finishText stack isKey chars' = some st) ∨
      ∃ r, stepText chars esc c = some r ∧ ⟨stack, .text isKey r.1 r.2⟩ = st := by
  cases esc with
  | plain =>
    simp only [step] at h
    split_ifs at h
    · exact .inl ⟨chars, .inl rfl, h⟩
    · exact .inr (Option.map_eq_some_iff.mp h)
  | slash high =>
    simp only [step] at h
    split_ifs at h
    · exact .inl ⟨none, .inr rfl, h⟩
    · exact .inr (Option.map_eq_some_iff.mp h)
  | escaped => exact .inr (Option.map_eq_some_iff.mp h)
  | code high digits => exact .inr (Option.map_eq_some_iff.mp h)
  | letter high => exact .inr (Option.map_eq_some_iff.mp h)

/-- In a word: it goes on, or its value is complete and the character comes after it. -/
theorem step_token {stack : List Frame} {chars : List Char} {c : Char} {st : State}
    (h : step ⟨stack, .token chars⟩ c = some st) :
    (isTokenChar c = true ∧ ⟨stack, .token (c :: chars)⟩ = st) ∨
      (isTokenChar c = false ∧ ∃ v st', tokenValue chars.reverse = some v ∧
        deliver v stack = some st' ∧ stepAfter st' c = some st) := by
  simp only [step] at h
  split_ifs at h with htoken
  · exact .inl ⟨htoken, Option.some.inj h⟩
  · obtain ⟨v, hv, h⟩ := Option.bind_eq_some_iff.mp h
    obtain ⟨st', hdeliver, hafter⟩ := Option.bind_eq_some_iff.mp h
    exact .inr ⟨Bool.eq_false_iff.mpr htoken, v, st', hv, hdeliver, hafter⟩

def run (text : List Char) (st : State) : Option State := text.foldlM step st

/-- The value, if the text may end here. -/
def accept (st : State) : Option Json :=
  match st.mode, st.stack with
  | .done v, [] => some v
  | .token chars, [] => tokenValue chars.reverse
  | _, _ => none

/-- The value that a text stands for. -/
def read (text : List Char) : Option Json := (run text ⟨[], .value false⟩).bind accept

/-! ### The texts of a value -/

def Blank (ws : List Char) : Prop := ∀ c ∈ ws, isBlank c = true

theorem blank_nil : Blank [] := fun _ hc => absurd hc List.not_mem_nil

/-- The ways to write one character of a string. -/
inductive SpellsChar : Char → List Char → Prop
  | raw {c : Char} (hquote : c ≠ '"') (hslash : c ≠ '\\') (hcontrol : 32 ≤ c.toNat) :
    SpellsChar c [c]
  | short {c e : Char} (h : unescape e = some c) : SpellsChar c ['\\', e]
  | code {a b c d : Char} {w x y z : ℕ} (ha : hexValue a = some w) (hb : hexValue b = some x)
    (hc : hexValue c = some y) (hd : hexValue d = some z)
    (hhigh : isHigh (hexNumber [w, x, y, z]) = false)
    (hlow : isLow (hexNumber [w, x, y, z]) = false) :
    SpellsChar (Char.ofNat (hexNumber [w, x, y, z])) ['\\', 'u', a, b, c, d]
  | pair {a b c d a' b' c' d' : Char} {w x y z w' x' y' z' : ℕ} (ha : hexValue a = some w)
    (hb : hexValue b = some x) (hc : hexValue c = some y) (hd : hexValue d = some z)
    (ha' : hexValue a' = some w') (hb' : hexValue b' = some x') (hc' : hexValue c' = some y')
    (hd' : hexValue d' = some z') (hhigh : isHigh (hexNumber [w, x, y, z]) = true)
    (hlow : isLow (hexNumber [w', x', y', z']) = true) :
    SpellsChar (pairChar (hexNumber [w, x, y, z]) (hexNumber [w', x', y', z']))
      ['\\', 'u', a, b, c, d, '\\', 'u', a', b', c', d']

inductive SpellsText : List Char → List Char → Prop
  | nil : SpellsText [] []
  | cons {c : Char} {cs s t : List Char} : SpellsChar c cs → SpellsText s t →
    SpellsText (c :: s) (cs ++ t)

/-- The text of a string, with its quotes. -/
def Quoted (s : String) (t : List Char) : Prop :=
  ∃ u, SpellsText s.toList u ∧ t = '"' :: (u ++ ['"'])

/-- The text of a number or a constant. -/
def Word (v : Json) (t : List Char) : Prop :=
  t ≠ [] ∧ (∀ c ∈ t, isTokenChar c = true) ∧ tokenValue t = some v

mutual

/-- The texts of a value. -/
def Writes : Json → List Char → Prop
  | .null, t => Word .null t
  | .bool b, t => Word (.bool b) t
  | .number token, t => Word (.number token) t
  | .str s, t => Quoted s t
  | .unpaired, _ => False
  | .arr [], t => ∃ ws, Blank ws ∧ t = '[' :: (ws ++ [']'])
  | .arr (v :: vs), t => ∃ a s b u, Blank a ∧ Writes v s ∧ Blank b ∧ WritesItems vs u ∧
      t = '[' :: (a ++ s ++ b ++ u ++ [']'])
  | .obj [], t => ∃ ws, Blank ws ∧ t = '{' :: (ws ++ ['}'])
  | .obj ((k, v) :: ms), t => ∃ a q b c s d u, Blank a ∧ Quoted k q ∧ Blank b ∧ Blank c ∧
      Writes v s ∧ Blank d ∧ WritesMembers ms u ∧
      t = '{' :: (a ++ q ++ b ++ ':' :: (c ++ s ++ d ++ u ++ ['}']))

/-- The further elements of an array, each after a comma. -/
def WritesItems : List Json → List Char → Prop
  | [], t => t = []
  | v :: vs, t => ∃ a s b u, Blank a ∧ Writes v s ∧ Blank b ∧ WritesItems vs u ∧
      t = ',' :: (a ++ s ++ b ++ u)

/-- The further members of an object, each after a comma. -/
def WritesMembers : List (String × Json) → List Char → Prop
  | [], t => t = []
  | (k, v) :: ms, t => ∃ a q b c s d u, Blank a ∧ Quoted k q ∧ Blank b ∧ Blank c ∧
      Writes v s ∧ Blank d ∧ WritesMembers ms u ∧
      t = ',' :: (a ++ q ++ b ++ ':' :: (c ++ s ++ d ++ u))

end

/-! ### Quoted strings -/

theorem hexValue_control {n : ℕ} (h : n < 32) :
    hexValue (Nat.digitChar (n / 16)) = some (n / 16) ∧
      hexValue (Nat.digitChar (n % 16)) = some (n % 16) := by
  have hall : ∀ n < 32, hexValue (Nat.digitChar (n / 16)) = some (n / 16) ∧
      hexValue (Nat.digitChar (n % 16)) = some (n % 16) := by decide
  exact hall n h

theorem spellsChar_escape (c : Char) : SpellsChar c (JsonText.escape c) := by
  rw [JsonText.escape]
  split_ifs with h₁ h₂ h₃ h₄ h₅ h₆ h₇ h₈
  · exact .short (by subst h₁; rfl)
  · exact .short (by subst h₂; rfl)
  · exact .short (by subst h₃; rfl)
  · exact .short (by subst h₄; rfl)
  · exact .short (by subst h₅; rfl)
  · exact .short (by subst h₆; rfl)
  · exact .short (by subst h₇; rfl)
  · -- a control character, as a code
    obtain ⟨hhigh, hlow⟩ := hexValue_control h₈
    have hnumber : hexNumber [0, 0, c.toNat / 16, c.toNat % 16] = c.toNat := by
      simp only [hexNumber, List.foldl_cons, List.foldl_nil]
      omega
    have hzero : hexValue '0' = some 0 := rfl
    have hcode := SpellsChar.code hzero hzero hhigh hlow
      (by rw [hnumber, isHigh, decide_eq_false_iff_not]; omega)
      (by rw [hnumber, isLow, decide_eq_false_iff_not]; omega)
    rwa [hnumber, Char.ofNat_toNat] at hcode
  · exact .raw h₁ h₂ (by omega)

/-- A string as it is written with the fewest escapes. -/
theorem quoted_quote (s : String) : Quoted s (JsonText.quote s) := by
  refine ⟨s.toList.flatMap JsonText.escape, ?_, rfl⟩
  induction s.toList with
  | nil => exact .nil
  | cons c cs ih => exact .cons (spellsChar_escape c) ih

/-- No escape has an opening bracket in it. -/
theorem not_mem_spellsChar {c : Char} {cs : List Char} (h : SpellsChar c cs) (hc : c ≠ '[') :
    '[' ∉ cs := by
  have hhex : ∀ {d : Char} {n : ℕ}, hexValue d = some n → '[' ≠ d := by
    rintro d n hd rfl
    have hnone : hexValue '[' = none := by decide
    rw [hnone] at hd
    exact absurd hd (by simp)
  cases h with
  | raw hquote hslash hcontrol => simpa using hc.symm
  | short he =>
    intro hmem
    simp only [List.mem_cons, List.not_mem_nil, or_false] at hmem
    rcases hmem with hmem | rfl
    · exact absurd hmem (by decide)
    · exact absurd he (by simp [JsonText.unescape])
  | code h₁ h₂ h₃ h₄ _ _ => simp [hhex h₁, hhex h₂, hhex h₃, hhex h₄]
  | pair h₁ h₂ h₃ h₄ h₅ h₆ h₇ h₈ _ _ =>
    simp [hhex h₁, hhex h₂, hhex h₃, hhex h₄, hhex h₅, hhex h₆, hhex h₇, hhex h₈]

theorem not_mem_quoted {s : String} {t : List Char} (h : Quoted s t) (hs : '[' ∉ s.toList) :
    '[' ∉ t := by
  obtain ⟨u, hu, rfl⟩ := h
  have hbody : '[' ∉ u := by
    generalize s.toList = cs at hs hu
    induction hu with
    | nil => simp
    | cons hc _ ih =>
      rw [List.mem_cons, not_or] at hs
      rw [List.mem_append, not_or]
      exact ⟨not_mem_spellsChar hc (Ne.symm hs.1), ih hs.2⟩
  simpa using hbody

/-! ### Runs -/

theorem run_cons (c : Char) (text : List Char) (st : State) :
    run (c :: text) st = (step st c).bind (run text) := rfl

theorem run_append (text text' : List Char) (st : State) :
    run (text ++ text') st = (run text st).bind (run text') := by
  rw [run, List.foldlM_append]
  rfl

/-- White space may come next. -/
def Mode.idle : Mode → Bool
  | .value _ | .key _ | .colon _ | .after | .done _ => true
  | .text _ _ _ | .token _ => false

theorem step_blank {st : State} (hidle : st.mode.idle = true) {c : Char}
    (hc : isBlank c = true) : step st c = some st := by
  obtain ⟨stack, mode⟩ := st
  cases mode with
  | value closable => exact if_pos hc
  | key closable => exact if_pos hc
  | colon key => exact if_pos hc
  | after => exact if_pos hc
  | done v => exact if_pos hc
  | text isKey chars esc => exact absurd hidle (by simp [Mode.idle])
  | token chars => exact absurd hidle (by simp [Mode.idle])

theorem run_blank {st : State} (hidle : st.mode.idle = true) {ws : List Char} (h : Blank ws) :
    run ws st = some st := by
  induction ws with
  | nil => rfl
  | cons c ws ih =>
    rw [run_cons, step_blank hidle (h c List.mem_cons_self), Option.bind_some]
    exact ih fun d hd => h d (List.mem_cons_of_mem _ hd)

/-- White space in front of what matters. -/
theorem run_blank_append {st : State} (hidle : st.mode.idle = true) {ws : List Char}
    (h : Blank ws) (text : List Char) : run (ws ++ text) st = run text st := by
  rw [run_append, run_blank hidle h, Option.bind_some]

theorem run_spellsChar {c : Char} {cs : List Char} (h : SpellsChar c cs) (stack : List Frame)
    (isKey : Bool) (chars : List Char) :
    run cs ⟨stack, .text isKey (some chars) .plain⟩ =
      some ⟨stack, .text isKey (some (c :: chars)) .plain⟩ := by
  cases h with
  | raw hquote hslash hcontrol =>
    rw [run_cons, step]
    simp only [if_neg hquote, stepText, stepPlain, if_neg hslash,
      if_neg (Nat.not_lt.mpr hcontrol)]
    rfl
  -- The short escapes are all but that of a code point.
  | @short _ e h =>
    have hu : e ≠ 'u' := by
      intro heq
      rw [heq] at h
      exact absurd h (by simp [unescape])
    show run [e] ⟨stack, .text isKey (some chars) .escaped⟩ = _
    rw [run_cons, step]
    simp only [stepText, stepEscaped, if_neg hu, h]
    rfl
  | code ha hb hc hd hhigh hlow =>
    show run _ ⟨stack, .text isKey (some chars) (.code none [])⟩ = _
    simp [run, step, stepText, ha, hb, hc, hd, finishCode, hhigh, hlow]
  | pair ha hb hc hd ha' hb' hc' hd' hhigh hlow =>
    show run _ ⟨stack, .text isKey (some chars) (.code none [])⟩ = _
    simp [run, step, stepText, ha, hb, hc, hd, ha', hb', hc', hd', finishCode, hhigh, hlow]

theorem run_spellsText {s t : List Char} (h : SpellsText s t) (stack : List Frame)
    (isKey : Bool) (chars : List Char) :
    run t ⟨stack, .text isKey (some chars) .plain⟩ =
      some ⟨stack, .text isKey (some (s.reverse ++ chars)) .plain⟩ := by
  induction h generalizing chars with
  | nil => rfl
  | cons hc _ ih =>
    rw [run_append, run_spellsChar hc, Option.bind_some, ih, List.reverse_cons,
      List.append_assoc]
    rfl

theorem run_quoted {s : String} {t : List Char} (h : Quoted s t) (stack : List Frame)
    (isKey : Bool) {mode : Mode}
    (hmode : step ⟨stack, mode⟩ '"' = some ⟨stack, .text isKey (some []) .plain⟩) :
    run t ⟨stack, mode⟩ = if isKey then some ⟨stack, .colon s⟩ else deliver (.str s) stack := by
  obtain ⟨u, hu, rfl⟩ := h
  rw [run_cons, hmode, Option.bind_some, run_append, run_spellsText hu, Option.bind_some,
    List.append_nil, run_cons]
  show (finishText stack isKey (some s.toList.reverse)).bind (run []) = _
  simp only [finishText, List.reverse_reverse, String.ofList_toList]
  cases isKey with
  | true => rfl
  | false => rcases deliver (.str s) stack with _ | st <;> rfl

/-! ### Reading back -/

/-- What follows ends a token. -/
def Stops (text : List Char) : Prop := ∃ d rest, text = d :: rest ∧ isTokenChar d = false

theorem stops_blank_append {ws text : List Char} (h : Blank ws) (ht : Stops text) :
    Stops (ws ++ text) := by
  cases ws with
  | nil => exact ht
  | cons c ws =>
    refine ⟨c, ws ++ text, rfl, ?_⟩
    have hc := h c List.mem_cons_self
    simp only [isBlank, List.mem_cons, List.not_mem_nil, or_false, decide_eq_true_eq] at hc
    rcases hc with rfl | rfl | rfl | rfl <;> decide

/-- The end of the text is seen from the value itself. -/
def Json.selfEnding : Json → Bool
  | .str _ | .unpaired | .arr _ | .obj _ => true
  | .null | .bool _ | .number _ => false

theorem step_deliver {v : Json} {stack : List Frame} {st : State}
    (h : deliver v stack = some st) (c : Char) : step st c = stepAfter st c := by
  rcases stack with _ | ⟨frame, stack⟩
  · rw [← Option.some.inj h]
    rfl
  · cases frame with
    | items done =>
      rw [← Option.some.inj h]
      rfl
    | member done key =>
      rw [← Option.some.inj h]
      rfl
    | keys done => exact absurd h (by simp [deliver])

theorem run_token {cs : List Char} (h : ∀ c ∈ cs, isTokenChar c = true) (stack : List Frame)
    (chars : List Char) :
    run cs ⟨stack, .token chars⟩ = some ⟨stack, .token (cs.reverse ++ chars)⟩ := by
  induction cs generalizing chars with
  | nil => rfl
  | cons c cs ih =>
    rw [run_cons, step]
    simp only [if_pos (h c List.mem_cons_self), Option.bind_some]
    rw [ih (fun d hd => h d (List.mem_cons_of_mem _ hd)), List.reverse_cons, List.append_assoc]
    rfl

theorem stepValue_token {c : Char} (h : isTokenChar c = true) (stack : List Frame)
    (closable : Bool) : stepValue stack closable c = some ⟨stack, .token [c]⟩ := by
  have hne : ∀ d, isTokenChar d = false → c ≠ d := by
    rintro d hd rfl
    rw [h] at hd
    exact absurd hd (by simp)
  have hblank : isBlank c = false := by
    simp only [isBlank, List.mem_cons, List.not_mem_nil, or_false, decide_eq_false_iff_not]
    rintro (rfl | rfl | rfl | rfl) <;> exact absurd h (by decide)
  rw [stepValue, hblank, if_neg (by simp), if_neg (hne _ (by decide)), if_neg (hne _ (by decide)),
    if_neg (hne _ (by decide)), if_pos h]

theorem run_word {v : Json} {t : List Char} (h : Word v t) (stack : List Frame)
    (closable : Bool) {rest : List Char} (hstops : Stops rest) :
    run (t ++ rest) ⟨stack, .value closable⟩ = (deliver v stack).bind (run rest) := by
  obtain ⟨hne, htoken, hvalue⟩ := h
  obtain ⟨d, rest, rfl, hd⟩ := hstops
  obtain ⟨c, cs, rfl⟩ := List.exists_cons_of_ne_nil hne
  have hcs : ∀ x ∈ cs, isTokenChar x = true := fun x hx => htoken x (List.mem_cons_of_mem _ hx)
  have hfirst : step ⟨stack, .value closable⟩ c = some ⟨stack, .token [c]⟩ :=
    stepValue_token (htoken c List.mem_cons_self) stack closable
  rw [List.cons_append, run_cons, hfirst, Option.bind_some, run_append, run_token hcs,
    Option.bind_some, run_cons, step]
  simp only [if_neg (show ¬ isTokenChar d = true by simp [hd]), List.reverse_append,
    List.reverse_reverse, List.reverse_singleton, List.singleton_append, hvalue, Option.bind_some]
  rcases hdeliver : deliver v stack with _ | st
  · rfl
  · rw [Option.bind_some, Option.bind_some, run_cons, step_deliver hdeliver]

theorem stops_items {vs : List Json} {u : List Char} (h : WritesItems vs u) (rest : List Char) :
    Stops (u ++ ']' :: rest) := by
  cases vs with
  | nil =>
    rw [WritesItems] at h
    exact ⟨']', rest, by rw [h]; rfl, by decide⟩
  | cons v vs =>
    rw [WritesItems] at h
    obtain ⟨a, s, b, w, -, -, -, -, rfl⟩ := h
    exact ⟨',', _, rfl, by decide⟩

theorem stops_members {ms : List (String × Json)} {u : List Char} (h : WritesMembers ms u)
    (rest : List Char) : Stops (u ++ '}' :: rest) := by
  cases ms with
  | nil =>
    rw [WritesMembers] at h
    exact ⟨'}', rest, by rw [h]; rfl, by decide⟩
  | cons m ms =>
    obtain ⟨k, v⟩ := m
    rw [WritesMembers] at h
    obtain ⟨a, q, b, c, s, d, w, -, -, -, -, -, -, -, rfl⟩ := h
    exact ⟨',', _, rfl, by decide⟩

mutual

/-- The text of a value, where a value may come next: the value is delivered. -/
theorem run_writes : ∀ (v : Json) (t : List Char), Writes v t → ∀ (stack : List Frame)
    (closable : Bool) (rest : List Char), Stops rest ∨ v.selfEnding = true →
    run (t ++ rest) ⟨stack, .value closable⟩ = (deliver v stack).bind (run rest)
  | .null, t, h, stack, closable, rest, hrest => by
    rw [Writes] at h
    exact run_word h stack closable (hrest.resolve_right (by simp [Json.selfEnding]))
  | .bool b, t, h, stack, closable, rest, hrest => by
    rw [Writes] at h
    exact run_word h stack closable (hrest.resolve_right (by simp [Json.selfEnding]))
  | .number token, t, h, stack, closable, rest, hrest => by
    rw [Writes] at h
    exact run_word h stack closable (hrest.resolve_right (by simp [Json.selfEnding]))
  | .str s, t, h, stack, closable, rest, _ => by
    rw [Writes] at h
    rw [run_append, run_quoted h stack false rfl]
    rfl
  | .unpaired, t, h, stack, closable, rest, _ => by
    rw [Writes] at h
    exact absurd h id
  | .arr [], t, h, stack, closable, rest, _ => by
    rw [Writes] at h
    obtain ⟨ws, hws, rfl⟩ := h
    show run (ws ++ [']'] ++ rest) ⟨.items [] :: stack, .value true⟩ = _
    rw [List.append_assoc, run_blank_append rfl hws]
    rfl
  | .arr (v :: vs), t, h, stack, closable, rest, _ => by
    rw [Writes] at h
    obtain ⟨a, s, b, u, ha, hs, hb, hu, rfl⟩ := h
    -- The first item, and then the others one by one up to the bracket.
    show run (a ++ s ++ b ++ u ++ [']'] ++ rest) ⟨.items [] :: stack, .value true⟩ = _
    have hstops := stops_blank_append hb (stops_items hu rest)
    rw [List.append_assoc, List.append_assoc, List.append_assoc, List.append_assoc,
      List.singleton_append, run_blank_append rfl ha, run_writes v s hs _ _ _ (.inl hstops)]
    show run (b ++ (u ++ ']' :: rest)) ⟨.items [v] :: stack, .after⟩ = _
    rw [run_blank_append rfl hb]
    exact run_items vs u hu [v] stack rest
  | .obj [], t, h, stack, closable, rest, _ => by
    rw [Writes] at h
    obtain ⟨ws, hws, rfl⟩ := h
    show run (ws ++ ['}'] ++ rest) ⟨.keys [] :: stack, .key true⟩ = _
    rw [List.append_assoc, run_blank_append rfl hws]
    rfl
  | .obj ((k, v) :: ms), t, h, stack, closable, rest, _ => by
    rw [Writes] at h
    obtain ⟨a, q, b, c, s, d, u, ha, hq, hb, hc, hs, hd, hu, rfl⟩ := h
    show run (a ++ q ++ b ++ ':' :: (c ++ s ++ d ++ u ++ ['}']) ++ rest)
      ⟨.keys [] :: stack, .key true⟩ = _
    have hstops := stops_blank_append hd (stops_members hu rest)
    simp only [List.append_assoc, List.cons_append, List.nil_append]
    rw [run_blank_append rfl ha, run_append, run_quoted hq _ true rfl]
    show run (b ++ _) ⟨.keys [] :: stack, .colon k⟩ = _
    rw [run_blank_append rfl hb]
    show run (c ++ _) ⟨.member [] k :: stack, .value false⟩ = _
    rw [run_blank_append rfl hc, run_writes v s hs _ _ _ (.inl hstops)]
    show run (d ++ (u ++ '}' :: rest)) ⟨.keys [(k, v)] :: stack, .after⟩ = _
    rw [run_blank_append rfl hd]
    exact run_members ms u hu [(k, v)] stack rest

/-- The further elements, and the end of the array. -/
theorem run_items : ∀ (vs : List Json) (t : List Char), WritesItems vs t →
    ∀ (done : List Json) (stack : List Frame) (rest : List Char),
    run (t ++ ']' :: rest) ⟨.items done :: stack, .after⟩ =
      (deliver (.arr (done.reverse ++ vs)) stack).bind (run rest)
  | [], t, h, done, stack, rest => by
    rw [WritesItems] at h
    rw [h, List.append_nil]
    rfl
  | v :: vs, t, h, done, stack, rest => by
    rw [WritesItems] at h
    obtain ⟨a, s, b, u, ha, hs, hb, hu, rfl⟩ := h
    show run (a ++ s ++ b ++ u ++ ']' :: rest) ⟨.items done :: stack, .value false⟩ = _
    have hstops := stops_blank_append hb (stops_items hu rest)
    rw [List.append_assoc, List.append_assoc, List.append_assoc, run_blank_append rfl ha,
      run_writes v s hs _ _ _ (.inl hstops)]
    show run (b ++ (u ++ ']' :: rest)) ⟨.items (v :: done) :: stack, .after⟩ = _
    rw [run_blank_append rfl hb, run_items vs u hu (v :: done) stack rest, List.reverse_cons,
      List.append_assoc, List.singleton_append]

/-- The further members, and the end of the object. -/
theorem run_members : ∀ (ms : List (String × Json)) (t : List Char), WritesMembers ms t →
    ∀ (done : List (String × Json)) (stack : List Frame) (rest : List Char),
    run (t ++ '}' :: rest) ⟨.keys done :: stack, .after⟩ =
      (deliver (.obj (done.reverse ++ ms)) stack).bind (run rest)
  | [], t, h, done, stack, rest => by
    rw [WritesMembers] at h
    rw [h, List.append_nil]
    rfl
  | (k, v) :: ms, t, h, done, stack, rest => by
    rw [WritesMembers] at h
    obtain ⟨a, q, b, c, s, d, u, ha, hq, hb, hc, hs, hd, hu, rfl⟩ := h
    show run (a ++ q ++ b ++ ':' :: (c ++ s ++ d ++ u) ++ '}' :: rest)
      ⟨.keys done :: stack, .key false⟩ = _
    have hstops := stops_blank_append hd (stops_members hu rest)
    simp only [List.append_assoc, List.cons_append]
    rw [run_blank_append rfl ha, run_append, run_quoted hq _ true rfl]
    show run (b ++ _) ⟨.keys done :: stack, .colon k⟩ = _
    rw [run_blank_append rfl hb]
    show run (c ++ _) ⟨.member done k :: stack, .value false⟩ = _
    rw [run_blank_append rfl hc, run_writes v s hs _ _ _ (.inl hstops)]
    show run (d ++ (u ++ '}' :: rest)) ⟨.keys ((k, v) :: done) :: stack, .after⟩ = _
    rw [run_blank_append rfl hd, run_members ms u hu ((k, v) :: done) stack rest,
      List.reverse_cons, List.append_assoc, List.singleton_append]

end

/-- **Reading inverts writing.** -/
theorem read_of_writes {v : Json} {t : List Char} (h : Writes v t)
    (hend : v.selfEnding = true) : read t = some v := by
  have hrun := run_writes v t h [] false [] (.inr hend)
  rw [List.append_nil] at hrun
  rw [read, hrun]
  rfl

/-- A word may also be the whole text. -/
theorem read_of_word {v : Json} {t : List Char} (h : Word v t) : read t = some v := by
  obtain ⟨hne, htoken, hvalue⟩ := h
  obtain ⟨c, cs, rfl⟩ := List.exists_cons_of_ne_nil hne
  have hcs : ∀ x ∈ cs, isTokenChar x = true := fun x hx => htoken x (List.mem_cons_of_mem _ hx)
  have hfirst : step ⟨[], .value false⟩ c = some ⟨[], .token [c]⟩ :=
    stepValue_token (htoken c List.mem_cons_self) [] false
  rw [read, run_cons, hfirst, Option.bind_some, run_token hcs, Option.bind_some]
  simpa [accept] using hvalue

theorem read_of_writes_any {v : Json} {t : List Char} (h : Writes v t) : read t = some v := by
  cases v with
  | null => exact read_of_word (by rwa [Writes] at h)
  | bool b => exact read_of_word (by rwa [Writes] at h)
  | number token => exact read_of_word (by rwa [Writes] at h)
  | str s => exact read_of_writes h rfl
  | unpaired => exact read_of_writes h rfl
  | arr vs => exact read_of_writes h rfl
  | obj ms => exact read_of_writes h rfl

/-! ### Complete texts -/

/-- A container is open, or the value is complete. -/
def Inside (st : State) : Prop := st.stack ≠ [] ∨ ∃ v, st.mode = .done v

theorem inside_deliver {v : Json} {stack : List Frame} {st : State}
    (h : deliver v stack = some st) : Inside st := by
  rcases stack with _ | ⟨frame, stack⟩
  · rw [← Option.some.inj h]
    exact .inr ⟨v, rfl⟩
  · cases frame with
    | items done =>
      rw [← Option.some.inj h]
      exact .inl (by simp)
    | member done key =>
      rw [← Option.some.inj h]
      exact .inl (by simp)
    | keys done => exact absurd h (by simp [deliver])

theorem inside_proceed {c : Char} {stack : List Frame} {st : State}
    (h : proceed c stack = some st) : Inside st := by
  rcases stack with _ | ⟨frame, stack⟩
  · exact absurd h (by simp [proceed])
  · cases frame with
    | items done =>
      rw [proceed] at h
      split_ifs at h
      · exact inside_deliver h
      · rw [← Option.some.inj h]
        exact .inl (by simp)
    | member done key => exact absurd h (by simp [proceed])
    | keys done =>
      rw [proceed] at h
      split_ifs at h
      · exact inside_deliver h
      · rw [← Option.some.inj h]
        exact .inl (by simp)

theorem inside_stepAfter {st st' : State} {c : Char} (h : stepAfter st c = some st')
    (hin : Inside st) : Inside st' := by
  rw [stepAfter] at h
  split_ifs at h
  · rw [← Option.some.inj h]
    exact hin
  · split at h
    · exact inside_proceed h
    · exact absurd h (by simp)

theorem inside_finishText {stack : List Frame} {isKey : Bool} {chars : Option (List Char)}
    {st : State} (h : finishText stack isKey chars = some st) (hne : stack ≠ []) :
    Inside st := by
  cases chars with
  | none =>
    rw [finishText] at h
    split_ifs at h
    · rw [← Option.some.inj h]; exact .inl hne
    · exact inside_deliver h
  | some chars =>
    simp only [finishText] at h
    split_ifs at h
    · rw [← Option.some.inj h]; exact .inl hne
    · exact inside_deliver h

/-- The reader does not get out of a container without a complete value. -/
theorem inside_step {st st' : State} {c : Char} (h : step st c = some st') (hin : Inside st) :
    Inside st' := by
  obtain ⟨stack, mode⟩ := st
  -- as long as the value is not complete, the stack is not empty
  have hstack : (∀ v, mode ≠ .done v) → stack ≠ [] := by
    intro hmode
    rcases hin with hne | ⟨v, hv⟩
    · exact hne
    · exact absurd hv (hmode v)
  cases mode with
  | value closable =>
    have hne := hstack (by simp)
    simp only [step, stepValue] at h
    split_ifs at h
    · rw [← Option.some.inj h]; exact .inl hne
    · rw [← Option.some.inj h]; exact .inl hne
    · rw [← Option.some.inj h]; exact .inl (by simp)
    · rw [← Option.some.inj h]; exact .inl (by simp)
    · rw [← Option.some.inj h]; exact .inl hne
    · exact inside_proceed h
  | key closable =>
    have hne := hstack (by simp)
    simp only [step, stepKey] at h
    split_ifs at h
    · rw [← Option.some.inj h]; exact .inl hne
    · rw [← Option.some.inj h]; exact .inl hne
    · exact inside_proceed h
  | colon key =>
    have hne := hstack (by simp)
    simp only [step, stepColon] at h
    split_ifs at h
    · rw [← Option.some.inj h]; exact .inl hne
    · split at h
      · rw [← Option.some.inj h]; exact .inl (by simp)
      · exact absurd h (by simp)
  | after => exact inside_stepAfter h hin
  | done v => exact inside_stepAfter h hin
  | text isKey chars esc =>
    have hne := hstack (by simp)
    rcases step_text h with ⟨chars', -, hend⟩ | ⟨r, -, rfl⟩
    · exact inside_finishText hend hne
    · exact .inl hne
  | token chars =>
    have hne := hstack (by simp)
    rcases step_token h with ⟨-, rfl⟩ | ⟨-, v, st₁, -, hdeliver, hafter⟩
    · exact .inl hne
    · exact inside_stepAfter hafter (inside_deliver hdeliver)

theorem inside_run {text : List Char} {st st' : State} (h : run text st = some st')
    (hin : Inside st) : Inside st' := by
  induction text generalizing st with
  | nil =>
    rw [← Option.some.inj h]
    exact hin
  | cons c text ih =>
    rw [run_cons] at h
    obtain ⟨st₁, hstep, hrun⟩ := Option.bind_eq_some_iff.mp h
    exact ih hrun (inside_step hstep hin)

/-- After a complete value there is nothing but white space. -/
theorem blank_of_run_done {text : List Char} {stack : List Frame} {v : Json} {st : State}
    (h : run text ⟨stack, .done v⟩ = some st) : Blank text := by
  induction text with
  | nil => exact fun c hc => absurd hc List.not_mem_nil
  | cons c text ih =>
    rw [run_cons, step] at h
    simp only [stepAfter] at h
    by_cases hc : isBlank c = true
    · rw [if_pos hc, Option.bind_some] at h
      intro d hd
      rcases List.mem_cons.mp hd with rfl | hd
      · exact hc
      · exact ih h d hd
    · rw [if_neg hc] at h
      exact absurd h (by simp)

/-- **A complete container is not continued**: if a text that starts with a bracket can be
read, and also a longer one, the rest is white space. -/
theorem blank_of_read_append {c : Char} {text rest : List Char} {v w : Json}
    (hc : c = '[' ∨ c = '{') (h : read (c :: text) = some v)
    (happ : read (c :: text ++ rest) = some w) : Blank rest := by
  have hopen : ∃ st, step ⟨[], .value false⟩ c = some st ∧ Inside st := by
    rcases hc with rfl | rfl
    · exact ⟨⟨[.items []], .value true⟩, rfl, .inl (by simp)⟩
    · exact ⟨⟨[.keys []], .key true⟩, rfl, .inl (by simp)⟩
  obtain ⟨st₀, hstep, hin₀⟩ := hopen
  obtain ⟨st, hrun, haccept⟩ := Option.bind_eq_some_iff.mp h
  rw [run_cons, hstep, Option.bind_some] at hrun
  obtain ⟨stack, mode⟩ := st
  -- a text that is complete inside of a container has closed it
  have hdone : ∃ v, mode = .done v := by
    rcases inside_run hrun hin₀ with hne | hdone
    · obtain ⟨frame, rest, rfl⟩ := List.exists_cons_of_ne_nil hne
      exact absurd haccept (by simp [accept])
    · exact hdone
  obtain ⟨u, rfl⟩ := hdone
  obtain ⟨st', hrun', -⟩ := Option.bind_eq_some_iff.mp happ
  rw [List.cons_append, run_cons, hstep, Option.bind_some, run_append, hrun,
    Option.bind_some] at hrun'
  exact blank_of_run_done hrun'

/-! ### The size of what is read -/

mutual

/-- The number of characters in the strings and numbers of a value. -/
def weight : Json → ℕ
  | .null | .bool _ | .unpaired => 0
  | .number token => token.length
  | .str s => s.length
  | .arr vs => weightItems vs
  | .obj ms => weightMembers ms

def weightItems : List Json → ℕ
  | [] => 0
  | v :: vs => weight v + weightItems vs

def weightMembers : List (String × Json) → ℕ
  | [] => 0
  | (key, v) :: ms => key.length + weight v + weightMembers ms

end

theorem weightItems_append (vs ws : List Json) :
    weightItems (vs ++ ws) = weightItems vs + weightItems ws := by
  induction vs with
  | nil => simp [weightItems]
  | cons v vs ih => simp only [List.cons_append, weightItems, ih]; omega

theorem weightItems_reverse (vs : List Json) : weightItems vs.reverse = weightItems vs := by
  induction vs with
  | nil => rfl
  | cons v vs ih => simp only [List.reverse_cons, weightItems_append, weightItems, ih]; omega

theorem weightMembers_append (ms ns : List (String × Json)) :
    weightMembers (ms ++ ns) = weightMembers ms + weightMembers ns := by
  induction ms with
  | nil => simp [weightMembers]
  | cons m ms ih => simp only [List.cons_append, weightMembers, ih]; omega

theorem weightMembers_reverse (ms : List (String × Json)) :
    weightMembers ms.reverse = weightMembers ms := by
  induction ms with
  | nil => rfl
  | cons m ms ih => simp only [List.reverse_cons, weightMembers_append, weightMembers, ih]; omega

def Frame.weight : Frame → ℕ
  | .items done => weightItems done
  | .member done key => weightMembers done + key.length
  | .keys done => weightMembers done

def Mode.weight : Mode → ℕ
  | .colon name => name.length
  | .text _ chars _ => (chars.getD []).length
  | .token chars => chars.length
  | .done v => JsonReader.weight v
  | .value _ | .key _ | .after => 0

def stackWeight : List Frame → ℕ
  | [] => 0
  | frame :: stack => frame.weight + stackWeight stack

/-- The characters that the machine has kept so far. -/
def State.weight (st : State) : ℕ := stackWeight st.stack + st.mode.weight

theorem weight_deliver {v : Json} {stack : List Frame} {st : State}
    (h : deliver v stack = some st) :
    st.weight = stackWeight stack + weight v := by
  unfold deliver at h
  split at h
  · obtain rfl := Option.some.inj h
    rfl
  · obtain rfl := Option.some.inj h
    simp only [State.weight, Mode.weight, stackWeight, Frame.weight, weightItems]
    omega
  · obtain rfl := Option.some.inj h
    simp only [State.weight, Mode.weight, stackWeight, Frame.weight,
      weightMembers]
    omega
  · exact absurd h (by simp)

theorem weight_proceed {c : Char} {stack : List Frame} {st : State}
    (h : proceed c stack = some st) : st.weight = stackWeight stack := by
  unfold proceed at h
  split at h
  · rename_i done rest
    by_cases hclose : c = ']'
    · rw [if_pos hclose] at h
      rw [weight_deliver h, weight, weightItems_reverse, stackWeight, Frame.weight]
      omega
    · rw [if_neg hclose] at h
      by_cases hcomma : c = ','
      · rw [if_pos hcomma] at h
        obtain rfl := Option.some.inj h
        rfl
      · rw [if_neg hcomma] at h
        exact absurd h (by simp)
  · rename_i done rest
    by_cases hclose : c = '}'
    · rw [if_pos hclose] at h
      rw [weight_deliver h, weight, weightMembers_reverse, stackWeight, Frame.weight]
      omega
    · rw [if_neg hclose] at h
      by_cases hcomma : c = ','
      · rw [if_pos hcomma] at h
        obtain rfl := Option.some.inj h
        rfl
      · rw [if_neg hcomma] at h
        exact absurd h (by simp)
  · exact absurd h (by simp)

theorem weight_stepAfter {st st' : State} {c : Char} (h : stepAfter st c = some st') :
    st'.weight ≤ st.weight := by
  unfold stepAfter at h
  by_cases hblank : isBlank c
  · rw [if_pos hblank] at h
    obtain rfl := Option.some.inj h
    exact le_refl _
  · rw [if_neg hblank] at h
    split at h
    · rw [weight_proceed h]
      exact Nat.le_add_right _ _
    · exact absurd h (by simp)

theorem weight_tokenValue {cs : List Char} {v : Json} (h : tokenValue cs = some v) :
    weight v ≤ cs.length := by
  unfold tokenValue at h
  grind [weight, String.length_ofList]

/-- Whatever a character of a string does, it adds at most one character. -/
theorem length_push_le (chars : Option (List Char)) (c : Char) :
    ((chars.map (c :: ·)).getD []).length ≤ (chars.getD []).length + 1 := by
  cases chars with
  | none => exact Nat.zero_le _
  | some chars => exact le_refl _

theorem weight_finishCode (chars : Option (List Char)) (high : Option ℕ) (n : ℕ) :
    ((finishCode chars high n).1.getD []).length ≤ (chars.getD []).length + 1 := by
  unfold finishCode
  cases high with
  | none =>
    simp only
    split_ifs
    · exact Nat.le_succ _
    · exact Nat.zero_le _
    · exact length_push_le chars _
  | some h =>
    simp only
    split_ifs
    · exact length_push_le chars _
    · exact Nat.zero_le _
    · exact Nat.zero_le _

theorem weight_stepPlain {chars : Option (List Char)} {c : Char}
    {r : Option (List Char) × Escape} (h : stepPlain chars c = some r) :
    (r.1.getD []).length ≤ (chars.getD []).length + 1 := by
  unfold stepPlain at h
  split_ifs at h
  · rw [← Option.some.inj h]
    exact Nat.le_succ _
  · rw [← Option.some.inj h]
    exact length_push_le chars c

theorem weight_stepEscaped {chars : Option (List Char)} {c : Char}
    {r : Option (List Char) × Escape} (h : stepEscaped chars c = some r) :
    (r.1.getD []).length ≤ (chars.getD []).length + 1 := by
  unfold stepEscaped at h
  split_ifs at h
  · rw [← Option.some.inj h]
    exact Nat.le_succ _
  · obtain ⟨x, -, rfl⟩ := Option.map_eq_some_iff.mp h
    exact length_push_le chars x

theorem weight_stepText {chars : Option (List Char)} {esc : Escape} {c : Char}
    {r : Option (List Char) × Escape} (h : stepText chars esc c = some r) :
    (r.1.getD []).length ≤ (chars.getD []).length + 1 := by
  -- a first half that stands alone: what was there is not kept
  have hlost : ∀ n, ((none : Option (List Char)).getD []).length + 1 ≤ n + 1 := fun n => by simp
  cases esc with
  | plain => exact weight_stepPlain h
  | escaped => exact weight_stepEscaped h
  | code high digits =>
    obtain ⟨d, -, rfl⟩ := Option.map_eq_some_iff.mp h
    by_cases hmore : digits.length < 3
    · rw [if_pos hmore]
      exact Nat.le_succ _
    · rw [if_neg hmore]
      exact weight_finishCode chars high _
  | slash high =>
    rw [stepText] at h
    split_ifs at h
    · rw [← Option.some.inj h]
      exact Nat.le_succ _
    · exact le_trans (weight_stepPlain h) (hlost _)
  | letter high =>
    rw [stepText] at h
    split_ifs at h
    · rw [← Option.some.inj h]
      exact Nat.le_succ _
    · exact le_trans (weight_stepEscaped h) (hlost _)

theorem weight_stepValue {stack : List Frame} {closable : Bool} {c : Char} {st : State}
    (h : stepValue stack closable c = some st) :
    st.weight ≤ stackWeight stack + 1 := by
  unfold stepValue at h
  split_ifs at h
  · obtain rfl := Option.some.inj h
    simp [State.weight, Mode.weight]
  · obtain rfl := Option.some.inj h
    simp [State.weight, Mode.weight]
  · obtain rfl := Option.some.inj h
    simp [State.weight, Mode.weight, stackWeight, Frame.weight, weightItems]
  · obtain rfl := Option.some.inj h
    simp [State.weight, Mode.weight, stackWeight, Frame.weight, weightMembers]
  · obtain rfl := Option.some.inj h
    simp [State.weight, Mode.weight]
  · rw [weight_proceed h]
    exact Nat.le_succ _

theorem weight_stepKey {stack : List Frame} {closable : Bool} {c : Char} {st : State}
    (h : stepKey stack closable c = some st) : st.weight ≤ stackWeight stack := by
  unfold stepKey at h
  split_ifs at h
  · obtain rfl := Option.some.inj h
    simp [State.weight, Mode.weight]
  · obtain rfl := Option.some.inj h
    simp [State.weight, Mode.weight]
  · rw [weight_proceed h]

theorem weight_stepColon {stack : List Frame} {key : String} {c : Char} {st : State}
    (h : stepColon stack key c = some st) :
    st.weight = stackWeight stack + key.length := by
  unfold stepColon at h
  split_ifs at h
  · obtain rfl := Option.some.inj h
    rfl
  · split at h
    · obtain rfl := Option.some.inj h
      simp only [State.weight, Mode.weight, stackWeight, Frame.weight]
      omega
    · exact absurd h (by simp)

theorem weight_finishText {stack : List Frame} {isKey : Bool} {chars : Option (List Char)}
    {st : State} (h : finishText stack isKey chars = some st) :
    st.weight ≤ stackWeight stack + (chars.getD []).length + 1 := by
  cases chars with
  | none =>
    rw [finishText] at h
    split_ifs at h
    · obtain rfl := Option.some.inj h
      exact le_refl _
    · rw [weight_deliver h]
      exact Nat.le_succ _
  | some chars =>
    have hlength : (String.ofList chars.reverse).length = chars.length := by
      rw [String.length_ofList, List.length_reverse]
    simp only [finishText] at h
    split_ifs at h
    · obtain rfl := Option.some.inj h
      simp only [State.weight, Mode.weight, hlength]
      exact Nat.le_succ _
    · rw [weight_deliver h, weight, hlength]
      exact Nat.le_succ _

/-- **One character adds at most one character.** -/
theorem weight_step {st st' : State} {c : Char} (h : step st c = some st') :
    st'.weight ≤ st.weight + 1 := by
  obtain ⟨stack, mode⟩ := st
  cases mode with
  | value closable => exact weight_stepValue h
  | key closable => exact Nat.le_succ_of_le (weight_stepKey h)
  | colon name => exact Nat.le_succ_of_le (Nat.le_of_eq (weight_stepColon h))
  | after => exact Nat.le_succ_of_le (weight_stepAfter h)
  | done v => exact Nat.le_succ_of_le (weight_stepAfter h)
  | text isKey chars esc =>
    rcases step_text h with ⟨chars', rfl | rfl, hend⟩ | ⟨r, hr, rfl⟩
    · exact weight_finishText hend
    · refine le_trans (weight_finishText hend) ?_
      simp [State.weight]
    · have hlength := weight_stepText hr
      simp only [State.weight, Mode.weight]
      omega
  | token chars =>
    rcases step_token h with ⟨-, rfl⟩ | ⟨-, v, st₁, hv, hdeliver, hafter⟩
    · simp only [State.weight, Mode.weight, List.length_cons]
      omega
    · have hvalue := weight_tokenValue hv
      have hsame := weight_deliver hdeliver
      have hless := weight_stepAfter hafter
      rw [List.length_reverse] at hvalue
      simp only [State.weight, Mode.weight] at hsame hless ⊢
      omega

theorem weight_run {text : List Char} {st st' : State} (h : run text st = some st') :
    st'.weight ≤ st.weight + text.length := by
  induction text generalizing st with
  | nil =>
    obtain rfl : st = st' := Option.some.inj h
    exact le_refl _
  | cons c text ih =>
    rw [run_cons] at h
    obtain ⟨st₁, hstep, hrun⟩ := Option.bind_eq_some_iff.mp h
    have hone := weight_step hstep
    have hrest := ih hrun
    rw [List.length_cons]
    omega

/-- **A value is no longer than its text.** -/
theorem weight_le_of_read {text : List Char} {v : Json} (h : read text = some v) :
    weight v ≤ text.length := by
  obtain ⟨st, hrun, haccept⟩ := Option.bind_eq_some_iff.mp h
  have hweight := weight_run hrun
  rw [show State.weight ⟨[], .value false⟩ = 0 from rfl, Nat.zero_add] at hweight
  refine le_trans ?_ hweight
  unfold accept at haccept
  split at haccept
  · rename_i u hmode hstack
    obtain rfl := Option.some.inj haccept
    rw [State.weight, hmode]
    exact Nat.le_add_left _ _
  · rename_i chars hmode hstack
    have hvalue := weight_tokenValue haccept
    rw [List.length_reverse] at hvalue
    rw [State.weight, hmode]
    exact le_trans hvalue (Nat.le_add_left _ _)
  · exact absurd haccept (by simp)

end JsonReader
