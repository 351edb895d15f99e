/-
The allowlist of arguments.

`ArgumentValidator.validate` matches every argument with `^[...]+$`.  The `$` of a
pattern without `re.MULTILINE` also matches before a newline at the end of the text, so
an argument may end in one newline.

* `safeArg_eq_match` — `safeArg` is the match of `SAFE_ARG_PATTERN`;
* `safeArg_iff` — what the pattern accepts;
* **`validate_iff_allowlist`** — the validator is the allowlist if and only if the first
  argument outside of the allowlist is no allowed text with a newline after it;
  `newline_argument_accepted` is such an argument.
-/
import CliExecutionPlatform.Regex
import CliExecutionPlatform.Tool

namespace CliExecutionPlatform

/-! ### The pattern -/

/-- `SAFE_ARG_PATTERN`. -/
def safeArgPattern : Regex.Pattern Char :=
  .seq .start (.seq (.one safeChar) (.seq (.greedy safeChar) (.stop (· = '\n'))))

/-- The pattern matches safe characters, at least one, up to the end of the text or up to
a newline that ends it. -/
theorem match_safeArgPattern (text : List Char) :
    (Regex.matchStart safeArgPattern text).isSome = true ↔
      ∃ body, body ≠ [] ∧ (∀ c ∈ body, safeChar c = true) ∧
        (text = body ∨ text = body ++ ['\n']) := by
  rw [Regex.matchStart, safeArgPattern, Regex.first_start_seq]
  cases text with
  | nil =>
    constructor
    · intro h
      exact absurd h (by decide)
    · rintro ⟨body, hne, -, h | h⟩
      · exact absurd h.symm hne
      · exact absurd h (by simp)
  | cons c cs =>
    rw [Regex.first_one_seq _ _ _ rfl]
    constructor
    · intro h
      by_cases hc : safeChar c
      · rw [if_pos hc, Regex.isSome_first_greedy_seq] at h
        obtain ⟨⟨run, rest⟩, hs, hstop⟩ := h
        obtain ⟨hcs, hrun⟩ := Regex.mem_splits.mp hs
        have hbody : ∀ d ∈ c :: run, safeChar d = true := by
          intro d hd
          rcases List.mem_cons.mp hd with rfl | hd
          · exact hc
          · exact hrun d hd
        refine ⟨c :: run, by simp, hbody, ?_⟩
        -- `$` also matches before a newline at the end of the text.
        rcases Regex.isSome_first_stop.mp hstop with hend | ⟨d, hend, hd⟩
        · obtain rfl : rest = [] := hend
          left
          rw [show cs = run ++ [] from hcs, List.append_nil]
        · obtain rfl : rest = [d] := hend
          obtain rfl : d = '\n' := of_decide_eq_true hd
          right
          rw [show cs = run ++ ['\n'] from hcs, List.cons_append]
      · rw [if_neg hc] at h
        exact absurd h (by simp)
    · rintro ⟨body, hne, hbody, htext⟩
      obtain ⟨d, run, rfl⟩ := List.exists_cons_of_ne_nil hne
      obtain ⟨rest, hrest, hcs⟩ : ∃ rest, (rest = [] ∨ rest = ['\n']) ∧
          c :: cs = d :: (run ++ rest) := by
        rcases htext with h | h
        · exact ⟨[], .inl rfl, by rw [List.append_nil, h]⟩
        · exact ⟨['\n'], .inr rfl, h⟩
      obtain ⟨rfl, rfl⟩ := List.cons.inj hcs
      rw [if_pos (hbody c List.mem_cons_self), Regex.isSome_first_greedy_seq]
      refine ⟨(run, rest), Regex.mem_splits.mpr ⟨rfl, ?_⟩, Regex.isSome_first_stop.mpr ?_⟩
      · exact fun d hd => hbody d (List.mem_cons_of_mem _ hd)
      · rcases hrest with rfl | rfl
        · exact .inl rfl
        · exact .inr ⟨'\n', rfl, rfl⟩

/-- `safeArg` is `SAFE_ARG_PATTERN.match`. -/
theorem safeArg_eq_match (arg : String) :
    safeArg arg = (Regex.matchStart safeArgPattern arg.toList).isSome := by
  rw [Bool.eq_iff_iff, match_safeArgPattern, safeArg]
  generalize arg.toList = text
  by_cases hlast : text.getLast? = some '\n'
  · obtain ⟨body, rfl⟩ := List.getLast?_eq_some_iff.mp hlast
    simp only [hlast, if_true, List.dropLast_concat, decide_eq_true_eq, List.all_eq_true]
    constructor
    · exact fun h => ⟨body, h.1, h.2, .inr rfl⟩
    · rintro ⟨body', hne, hbody, h | h⟩
      · -- the newline is no safe character
        have := hbody '\n' (by rw [← h]; simp)
        exact absurd this (by decide)
      · obtain ⟨rfl, -⟩ := List.append_inj' h rfl
        exact ⟨hne, hbody⟩
  · simp only [hlast, if_false, decide_eq_true_eq, List.all_eq_true]
    constructor
    · exact fun h => ⟨text, h.1, h.2, .inl rfl⟩
    · rintro ⟨body, hne, hbody, rfl | rfl⟩
      · exact ⟨hne, hbody⟩
      · exact absurd (by simp) hlast

/-! ### The allowlist -/

/-- An argument of the allowlist: a non-empty text of ASCII letters, digits and the
characters `. / : _ - = ,`. -/
def AllowedArg (arg : String) : Prop :=
  arg ≠ "" ∧ ∀ c ∈ arg.toList, c.isAlphanum = true ∨ c ∈ ['.', '/', ':', '_', '-', '=', ',']

instance (arg : String) : Decidable (AllowedArg arg) :=
  @instDecidableAnd _ _ _ (List.decidableBAll _ arg.toList)

theorem safeChar_iff (c : Char) :
    safeChar c = true ↔ c.isAlphanum = true ∨ c ∈ ['.', '/', ':', '_', '-', '=', ','] := by
  have halnum : c.isAlphanum = true ↔
      ('a' ≤ c ∧ c ≤ 'z') ∨ ('A' ≤ c ∧ c ≤ 'Z') ∨ ('0' ≤ c ∧ c ≤ '9') := by
    have hunfold : c.isAlphanum = ((decide ('A' ≤ c ∧ c ≤ 'Z') ||
        (decide ('a' ≤ c) && decide (c ≤ 'z'))) || (decide ('0' ≤ c) && decide (c ≤ '9'))) := rfl
    simp only [hunfold, Bool.or_eq_true, decide_eq_true_eq, Bool.and_eq_true]
    constructor
    · rintro ((h | h) | h)
      · exact .inr (.inl h)
      · exact .inl h
      · exact .inr (.inr h)
    · rintro (h | h | h)
      · exact .inl (.inr h)
      · exact .inl (.inl h)
      · exact .inr h
  have hmarks : c ∈ ['_', '.', '/', ':', '=', ',', '-'] ↔
      c ∈ ['.', '/', ':', '_', '-', '=', ','] :=
    List.Perm.mem_iff (by decide)
  rw [safeChar, decide_eq_true_iff, halnum, hmarks]
  simp only [or_assoc]

theorem allowedArg_iff (arg : String) :
    AllowedArg arg ↔ arg.toList ≠ [] ∧ ∀ c ∈ arg.toList, safeChar c = true := by
  simp only [AllowedArg, safeChar_iff, ne_eq, String.toList_eq_nil_iff]

/-- What the pattern accepts: an allowed argument, or one with a newline after it. -/
theorem safeArg_iff (arg : String) :
    safeArg arg = true ↔ AllowedArg arg ∨ ∃ text, AllowedArg text ∧ arg = text ++ "\n" := by
  rw [safeArg_eq_match, match_safeArgPattern]
  constructor
  · rintro ⟨body, hne, hbody, h | h⟩
    · left
      rw [allowedArg_iff, h]
      exact ⟨hne, hbody⟩
    · right
      refine ⟨String.ofList body, ?_, ?_⟩
      · rw [allowedArg_iff, String.toList_ofList]
        exact ⟨hne, hbody⟩
      · rw [← String.toList_inj, h, String.toList_append, String.toList_ofList]
        rfl
  · rintro (h | ⟨text, h, rfl⟩)
    · obtain ⟨hne, hall⟩ := (allowedArg_iff arg).mp h
      exact ⟨arg.toList, hne, hall, .inl rfl⟩
    · obtain ⟨hne, hall⟩ := (allowedArg_iff text).mp h
      refine ⟨text.toList, hne, hall, .inr ?_⟩
      rw [String.toList_append]
      rfl

/-- The allowlist: the first argument outside of it is refused. -/
def allowlist (args : List String) : Except Exn Unit :=
  match args.find? fun arg => ¬ AllowedArg arg with
  | none => .ok ()
  | some arg => .error (.cliArgument arg)

/-- The first argument outside of the allowlist is an allowed text with a newline after
it. -/
def SlipsThrough (args : List String) : Prop :=
  ∃ text, AllowedArg text ∧ (args.find? fun arg => ¬ AllowedArg arg) = some (text ++ "\n")

/-- A refused argument does not match the pattern. -/
theorem safeArg_of_validateArgs {args : List String} {arg : String}
    (h : validateArgs args = .error (.cliArgument arg)) : safeArg arg = false := by
  induction args with
  | nil => exact absurd h (by simp [validateArgs])
  | cons a args ih =>
    rw [validateArgs] at h
    by_cases ha : safeArg a
    · rw [if_pos ha] at h
      exact ih h
    · rw [if_neg ha] at h
      obtain rfl := Exn.cliArgument.inj (Except.error.inj h)
      simpa using ha

/-- **The validator is the allowlist** for exactly those lists whose first argument
outside of it is not an allowed text with a newline after it. -/
theorem validate_iff_allowlist (args : List String) :
    validateArgs args = allowlist args ↔ ¬ SlipsThrough args := by
  induction args with
  | nil =>
    refine ⟨fun _ => ?_, fun _ => rfl⟩
    rintro ⟨text, -, h⟩
    exact absurd h (by simp)
  | cons a args ih =>
    by_cases ha : AllowedArg a
    · -- the argument is accepted by both
      have hsafe : safeArg a = true := (safeArg_iff a).mpr (.inl ha)
      have hfind : ((a :: args).find? fun arg => ¬ AllowedArg arg) =
          args.find? fun arg => ¬ AllowedArg arg := by
        rw [List.find?_cons_of_neg (by simpa using ha)]
      rw [validateArgs, if_pos hsafe, allowlist, SlipsThrough, hfind]
      exact ih
    · have hfind : ((a :: args).find? fun arg => ¬ AllowedArg arg) = some a := by
        rw [List.find?_cons_of_pos (by simpa using ha)]
      rw [validateArgs, allowlist, SlipsThrough, hfind]
      by_cases hsafe : safeArg a
      · rw [if_pos hsafe]
        constructor
        · intro h
          rw [safeArg_of_validateArgs h] at hsafe
          exact absurd hsafe (by simp)
        · intro h
          obtain ⟨text, htext, rfl⟩ := ((safeArg_iff a).mp hsafe).resolve_left ha
          exact absurd ⟨text, htext, rfl⟩ h
      · rw [if_neg hsafe]
        refine ⟨fun _ => ?_, fun _ => rfl⟩
        rintro ⟨text, htext, h⟩
        obtain rfl := Option.some.inj h
        exact hsafe ((safeArg_iff _).mpr (.inr ⟨text, htext, rfl⟩))

/-- An argument with a newline at its end is accepted. -/
theorem newline_argument_accepted :
    validateArgs ["-o", "a.stl\n"] = .ok () ∧ ¬ AllowedArg "a.stl\n" := by
  decide

end CliExecutionPlatform
