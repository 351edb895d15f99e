/-
Runtime diagnostics (`runner/diagnostics.py`): the feedback after the tool has failed.

The feedback is built from what the error retains of the two streams.  It names the known
causes, each with the first line that shows it; only where there is none it quotes the
streams themselves, and only then it can be too long.

* `buildRuntimeFeedback` — the feedback of an error;
* `firstMatch_isSome` — a known text that occurs in a stream is found in one of its lines;
* `length_feedback_of_matched` — the feedback is not cut when it names a cause;
* **`runtime_feedback_names_causes`** — it is bounded and names every known cause.
-/
import CliExecutionPlatform.TextLines
import CliExecutionPlatform.Planning
import Mathlib.Data.Nat.Digits.Defs

open Files

namespace CliExecutionPlatform

/-- `CLIExecutionError(message, exit_code, stdout=…, stderr=…)`. -/
def cliExecutionError (message : String) (exitCode : Option ℤ) (stdout stderr : String) : Exn :=
  .cliExecution message exitCode (boundedStreamTail stdout) (boundedStreamTail stderr)

namespace Diagnostics

/-! ### The feedback -/

/-- A cause of a failure that is recognised by a text of the tool. -/
structure Cause where
  needle : String
  ruleId : String
  description : String

/-- `_RULES`. -/
def rules : List Cause :=
  [⟨"Current top level object is empty.", "SCAD_EMPTY_TOP_LEVEL",
      "OpenSCAD produced no top-level geometry."⟩,
    ⟨"Ignoring 3D child object for 2D operation", "SCAD_2D_3D_MIXED_OPERATION",
      "A 3D child was passed to a 2D operation."⟩]

/-- `str(exit_code)`. -/
def exitCodeText : Option ℤ → String
  | none => "None"
  | some code => toString code

/-- The first line that has the text. -/
def firstMatch (needle tail : String) : Option String :=
  (splitlines tail).find? fun line => contains line needle

/-- What is reported for a cause and the line that shows it. -/
def matchText (cause : Cause) (streamName line : String) : String :=
  "- [" ++ cause.ruleId ++ "] " ++ cause.description ++ "\n  " ++ streamName ++ ": " ++
    cutTo 300 line

/-- The inner loop: the first stream with a match. -/
def matchOf (cause : Cause) : List (String × String) → Option String
  | [] => none
  | (streamName, tail) :: tails =>
    match firstMatch cause.needle tail with
    | some line => some (matchText cause streamName line)
    | none => matchOf cause tails

/-- The causes that are found. -/
def matched (stdout stderr : String) : List String :=
  rules.filterMap fun cause => matchOf cause [("stderr", stderr), ("stdout", stdout)]

/-- The streams themselves. -/
def quotedTails (stdout stderr : String) : List String :=
  ([("stderr", stderr), ("stdout", stdout)].filter fun t => t.2 ≠ "").map fun t =>
    "- " ++ t.1 ++ " bounded tail:\n" ++ t.2

def firstLine (exitCode : Option ℤ) : String :=
  "OpenSCAD execution failed with exit code " ++ exitCodeText exitCode ++ "."

/-- The feedback before it is cut. -/
def fullFeedback (exitCode : Option ℤ) (stdout stderr : String) : String :=
  "\n".intercalate (firstLine exitCode ::
    if matched stdout stderr = [] then quotedTails stdout stderr else matched stdout stderr)

/-- `MAX_DIAGNOSTIC_CHARS`. -/
def maxDiagnosticChars : ℕ := 1500

def bounded (feedback : String) : String :=
  if maxDiagnosticChars < feedback.length then
    rstrip (cutTo (maxDiagnosticChars - 36) feedback) ++ "\n... [additional output omitted]"
  else feedback

/-- The exit code and the streams of an error; errors of a launch and of a timeout have
none. -/
def attributes : Exn → Option ℤ × String × String
  | .cliExecution _ exitCode stdout stderr => (exitCode, stdout, stderr)
  | _ => (none, "", "")

/-- `build_runtime_feedback`. -/
def buildRuntimeFeedback (error : Exn) : String :=
  let (exitCode, stdout, stderr) := attributes error
  bounded (fullFeedback exitCode stdout stderr)

end Diagnostics

namespace Diagnostics

/-! ### The search -/

theorem firstMatch_eq_none {needle tail : String} (h : contains tail needle = false) :
    firstMatch needle tail = none := by
  rw [firstMatch, List.find?_eq_none]
  intro line hline hneedle
  -- A text in a line of the stream is in the stream.
  have hinfix : needle.toList <:+: tail.toList :=
    (of_decide_eq_true hneedle).trans (lines_within [] tail.toList line hline)
  rw [contains, decide_eq_true hinfix] at h
  exact absurd h (by decide)

theorem firstMatch_isSome {needle tail : String} (hne : needle.toList ≠ [])
    (hbreaks : ∀ c, isLineBreak c = true → c ∉ needle.toList) (h : contains tail needle = true) :
    ∃ line, firstMatch needle tail = some line := by
  obtain ⟨line, hline, hneedle⟩ :=
    infix_linesFrom hne hbreaks [] tail.toList (of_decide_eq_true h)
  apply Option.isSome_iff_exists.mp
  rw [firstMatch, List.find?_isSome]
  exact ⟨line, hline, decide_eq_true hneedle⟩

/-- A text of a rule has no line break. -/
theorem no_break_in_needle {cause : Cause} (hcause : cause ∈ rules) :
    cause.needle.toList ≠ [] ∧ ∀ c, isLineBreak c = true → c ∉ cause.needle.toList := by
  -- Both texts of the table are checked by evaluation.
  have hall : rules.all fun cause => !cause.needle.toList.isEmpty &&
      cause.needle.toList.all fun c => !isLineBreak c := by decide +kernel
  have hthis := List.all_eq_true.mp hall cause hcause
  rw [Bool.and_eq_true] at hthis
  constructor
  · intro hnil
    rw [hnil] at hthis
    exact absurd hthis.1 (by decide)
  · intro c hc hmem
    have hno := List.all_eq_true.mp hthis.2 c hmem
    rw [hc] at hno
    exact absurd hno (by decide)

/-! ### Lengths -/

/-- Feedback that is cut has room for the notice. -/
theorem length_bounded_le (feedback : String) : (bounded feedback).length ≤ 1500 := by
  rw [bounded]
  split
  -- 1464 characters are kept, and the notice has 32.
  · have hcut := (length_rstrip_le (cutTo (maxDiagnosticChars - 36) feedback)).trans
      (length_cutTo_le _ _)
    have hnotice : ("\n... [additional output omitted]").length = 32 := rfl
    have hmax : maxDiagnosticChars - 36 = 1464 := rfl
    rw [String.length_append]
    omega
  · next hshort =>
    have hmax : maxDiagnosticChars = 1500 := rfl
    omega

theorem bounded_of_length_le {feedback : String} (h : feedback.length ≤ 1500) :
    bounded feedback = feedback := by
  have hmax : maxDiagnosticChars = 1500 := rfl
  rw [bounded, if_neg (by omega)]

theorem length_exitCodeText_le {exitCode : Option ℤ}
    (hcode : ∀ n ∈ exitCode, -2 ^ 31 ≤ n ∧ n < 2 ^ 32) : (exitCodeText exitCode).length ≤ 11 := by
  rcases exitCode with _ | n
  · decide
  · obtain ⟨hlow, hhigh⟩ := hcode n rfl
    cases n with
    | ofNat m =>
      have hm : (m : ℤ) < 2 ^ 32 := hhigh
      have hdigits : (toString m).length ≤ 11 := Nat.repr_length m 11 (by omega) (by omega)
      exact hdigits
    -- A minus sign and at most ten digits.
    | negSucc m =>
      have hdigits : (toString (m + 1)).length ≤ 10 :=
        Nat.repr_length (m + 1) 10 (by omega) (by omega)
      have hminus : ("-").length = 1 := rfl
      show ("-" ++ toString (m + 1)).length ≤ 11
      rw [String.length_append]
      omega

theorem length_firstLine_le {exitCode : Option ℤ}
    (hcode : ∀ n ∈ exitCode, -2 ^ 31 ≤ n ∧ n < 2 ^ 32) : (firstLine exitCode).length ≤ 400 := by
  have hlength := length_exitCodeText_le hcode
  have hfront : ("OpenSCAD execution failed with exit code ").length = 41 := rfl
  have hdot : (".").length = 1 := rfl
  unfold firstLine
  rw [String.length_append, String.length_append, hfront, hdot]
  omega

theorem length_matchText_le {cause : Cause} (hcause : cause ∈ rules) {streamName : String}
    (hname : streamName.length ≤ 6) (line : String) :
    (matchText cause streamName line).length ≤ 400 := by
  have hall : rules.all fun cause =>
      decide (cause.ruleId.length + cause.description.length ≤ 70) := by decide +kernel
  have htexts := of_decide_eq_true (List.all_eq_true.mp hall cause hcause)
  -- The line is cut to 300 characters, so that a match stays below 400.
  have hline := length_cutTo_le 300 line
  have h₁ : ("- [").length = 3 := rfl
  have h₂ : ("] ").length = 2 := rfl
  have h₃ : ("\n  ").length = 3 := rfl
  have h₄ : (": ").length = 2 := rfl
  simp only [matchText, String.length_append]
  omega

/-! ### What is reported -/

theorem matchOf_cases {cause : Cause} {tails : List (String × String)} {text : String}
    (h : matchOf cause tails = some text) :
    ∃ t ∈ tails, ∃ line, text = matchText cause t.1 line := by
  induction tails with
  | nil => exact absurd h (by simp [matchOf])
  | cons t tails ih =>
    rw [matchOf] at h
    split at h
    · next line _ =>
      exact ⟨t, List.mem_cons_self, line, (Option.some_inj.mp h).symm⟩
    · obtain ⟨t', ht', hline⟩ := ih h
      exact ⟨t', List.mem_cons_of_mem t ht', hline⟩

theorem length_matched_le (stdout stderr : String) :
    (matched stdout stderr).length ≤ 2 ∧
      ∀ text ∈ matched stdout stderr, text.length ≤ 400 := by
  constructor
  · exact List.length_filterMap_le _ rules
  · intro text htext
    obtain ⟨cause, hcause, hmatch⟩ := List.mem_filterMap.mp htext
    obtain ⟨t, ht, line, rfl⟩ := matchOf_cases hmatch
    refine length_matchText_le hcause ?_ line
    simp only [List.mem_cons, List.not_mem_nil, or_false] at ht
    rcases ht with rfl | rfl
    · exact (by decide : ("stderr").length ≤ 6)
    · exact (by decide : ("stdout").length ≤ 6)

/-- Feedback that names a cause is not cut. -/
theorem length_feedback_of_matched {exitCode : Option ℤ}
    (hcode : ∀ n ∈ exitCode, -2 ^ 31 ≤ n ∧ n < 2 ^ 32) {stdout stderr : String}
    (h : matched stdout stderr ≠ []) : (fullFeedback exitCode stdout stderr).length ≤ 1500 := by
  obtain ⟨hcount, hlengths⟩ := length_matched_le stdout stderr
  -- The first line and at most two matches, each of at most 400 characters.
  have hlines : ∀ line ∈ firstLine exitCode :: matched stdout stderr, line.length ≤ 400 := by
    intro line hline
    rcases List.mem_cons.mp hline with rfl | hline
    · exact length_firstLine_le hcode
    · exact hlengths line hline
  have hle := length_intercalate_le _ hlines
  rw [fullFeedback, if_neg h]
  rw [List.length_cons] at hle
  omega

/-- A cause that is found is in the feedback. -/
theorem contains_feedback {exitCode : Option ℤ}
    (hcode : ∀ n ∈ exitCode, -2 ^ 31 ≤ n ∧ n < 2 ^ 32) {stdout stderr text : String}
    (h : text ∈ matched stdout stderr) :
    contains (bounded (fullFeedback exitCode stdout stderr)) text = true := by
  have hne := List.ne_nil_of_mem h
  rw [bounded_of_length_le (length_feedback_of_matched hcode hne)]
  apply decide_eq_true
  rw [fullFeedback, if_neg hne]
  exact infix_intercalate (List.mem_cons_of_mem _ h)

end Diagnostics

open Diagnostics

/-- **Runtime diagnostics are bounded and lose no known cause.**  The feedback has at most
1500 characters.  A known text that occurs in the retained stderr is reported with its rule id
and the first line of stderr that has it; one that occurs in the retained stdout only, with
the first line of stdout. -/
theorem runtime_feedback_names_causes (message : String) (exitCode : Option ℤ)
    (hcode : ∀ n ∈ exitCode, -2 ^ 31 ≤ n ∧ n < 2 ^ 32) (stdout stderr : String) :
    (buildRuntimeFeedback (cliExecutionError message exitCode stdout stderr)).length ≤ 1500 ∧
      ∀ cause ∈ rules,
        (contains (boundedStreamTail stderr) cause.needle = true →
          ∃ line, firstMatch cause.needle (boundedStreamTail stderr) = some line ∧
            contains (buildRuntimeFeedback (cliExecutionError message exitCode stdout stderr))
              (matchText cause "stderr" line) = true) ∧
        (contains (boundedStreamTail stderr) cause.needle = false →
          contains (boundedStreamTail stdout) cause.needle = true →
          ∃ line, firstMatch cause.needle (boundedStreamTail stdout) = some line ∧
            contains (buildRuntimeFeedback (cliExecutionError message exitCode stdout stderr))
              (matchText cause "stdout" line) = true) := by
  refine ⟨length_bounded_le _, fun cause hcause => ?_⟩
  obtain ⟨hne, hbreaks⟩ := no_break_in_needle hcause
  constructor
  -- The search begins with stderr, whatever stdout holds.
  · intro herr
    obtain ⟨line, hline⟩ := firstMatch_isSome hne hbreaks herr
    have hmatch : matchOf cause [("stderr", boundedStreamTail stderr),
        ("stdout", boundedStreamTail stdout)] = some (matchText cause "stderr" line) := by
      rw [matchOf, hline]
    exact ⟨line, hline, contains_feedback hcode (List.mem_filterMap.mpr ⟨cause, hcause, hmatch⟩)⟩
  · intro hnot hout
    obtain ⟨line, hline⟩ := firstMatch_isSome hne hbreaks hout
    have hmatch : matchOf cause [("stderr", boundedStreamTail stderr),
        ("stdout", boundedStreamTail stdout)] = some (matchText cause "stdout" line) := by
      rw [matchOf, firstMatch_eq_none hnot, matchOf, hline]
    exact ⟨line, hline, contains_feedback hcode (List.mem_filterMap.mpr ⟨cause, hcause, hmatch⟩)⟩

theorem runtime_feedback_names_empty_top_level :
    contains (buildRuntimeFeedback (cliExecutionError "failed" (some 1)
        "Current top level object is empty." "WARNING\u2028Current top level object is empty.\n"))
      ("- [SCAD_EMPTY_TOP_LEVEL] OpenSCAD produced no top-level geometry.\n" ++
        "  stderr: Current top level object is empty.") = true := by
  have hcode : ∀ n ∈ some (1 : ℤ), -2 ^ 31 ≤ n ∧ n < 2 ^ 32 := by
    intro n hn
    rw [← Option.some_inj.mp hn]
    omega
  obtain ⟨line, hline, hcontains⟩ := ((runtime_feedback_names_causes "failed" (some 1) hcode
    "Current top level object is empty."
    "WARNING\u2028Current top level object is empty.\n").2 _ List.mem_cons_self).1
      (by decide +kernel)
  have hfirst : firstMatch "Current top level object is empty."
      (boundedStreamTail "WARNING\u2028Current top level object is empty.\n") =
        some "Current top level object is empty." := by decide +kernel
  rw [hfirst, Option.some_inj] at hline
  rw [← hline] at hcontains
  exact hcontains

/-- The feedback of the planning loop for an error of the tool is bounded. -/
theorem length_feedbackFor_le {parts : Parts}
    (hparts : parts.runtimeFeedback = buildRuntimeFeedback)
    {e : Exn} (he : e.isCliExecution = true) :
    ∃ feedback, LLMPlanRetryExecutor.feedbackFor parts e = some feedback ∧
      feedback.length ≤ 1500 := by
  refine ⟨buildRuntimeFeedback e, ?_, length_bounded_le _⟩
  -- Whether the launch, the time or the exit code was at fault, the builder is the same.
  cases e <;> first
    | exact absurd he Bool.false_ne_true
    | simp only [LLMPlanRetryExecutor.feedbackFor, he, hparts, if_true]

end CliExecutionPlatform
