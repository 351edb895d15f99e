/-
The retry protocol of `generate_actions` (`llm/retry.py`).

The loop is written out here as the source has it: `len(delays) + 1` rounds, a `return`
from inside, and the end of the function after the last round, which would return nothing.
What it calls (the language model, the two callbacks, the clock) are operations of its own,
so that its calls can be listed.  `generateActions_eq_rounds` says that the executor of the
platform is this loop, with the operations replaced by the callbacks it is given.

* `Attempt` — what the calls of one attempt answer; `Attempt.outcome` — how it ends;
* `AttemptKind.retryable` — the outcomes that are retried, by their kind; `isSome_feedback`
  — the `except` clauses give feedback for these;
* `body_eval`, `rounds_eval` — one attempt and one round against such answers;
* **`retry_protocol`** — how many requests are made and which ones, what is executed, and
  what the loop returns or raises, for every sequence of attempts.
-/
import CliExecutionPlatform.Evaluation
import CliExecutionPlatform.Lifecycle

open Files Process

namespace CliExecutionPlatform

namespace LLMPlanRetryExecutor

/-! ### The loop -/

/-- What `generate_actions` calls. -/
inductive Request
  | onAttempt (number : ℕ)
  | generatePlan (request : LLMRequest)
  | validate (actions : List Action)
  | execute (actions : List Action)
  | sleep (delay : ℕ)
  deriving DecidableEq

@[reducible] def Request.Val : Request → Type
  | generatePlan _ => String
  | _ => Unit

abbrev Answer (o : Request) : Type := Except Exn o.Val

/-- Make one call. -/
def ask (o : Request) : Fallible Request Answer Exn o.Val := ExceptT.mk (Prog.perform o)

section Loop

variable (parts : Parts) (delays : List ℕ)

/-- The body of the `try`. -/
def body (request : LLMRequest) : Fallible Request Answer Exn (List Action) := do
  let response ← ask (.generatePlan request)
  let actions ← ExceptT.mk (.ret (parts.parse response))
  ask (.validate actions)
  ask (.execute actions)
  pure actions

/-- The `for` loop with `remaining` rounds left; `none` is the end of the function without
a `return`. -/
def rounds : ℕ → ℕ → LLMRequest → Fallible Request Answer Exn (Option (List Action))
  | 0, _, _ => pure none
  | remaining + 1, attempt, request => do
    ask (.onAttempt (attempt + 1))
    tryExcept (fun e => (feedbackFor parts e).isSome)
      (do let actions ← body parts request; pure (some actions)) fun e =>
        if delays.length ≤ attempt then throw e
        else do
          ask (.sleep (delays.getD attempt 0))
          rounds remaining (attempt + 1)
            (request.withRetryFeedback ((feedbackFor parts e).getD ""))

/-- `generate_actions`. -/
def generate (request : LLMRequest) : Fallible Request Answer Exn (Option (List Action)) :=
  rounds parts delays (delays.length + 1) 0 request

end Loop

/-! ### The executor of the platform -/

section Handlers

variable (onAttempt : ℕ → Task Unit) (validationCb executionCb : List Action → Task Unit)

/-- The operations as the platform performs them. -/
def handlers : (o : Request) → Prog Op Res (Answer o)
  | .onAttempt number => (onAttempt number).run
  | .generatePlan request => (perform (.sys (.generatePlan request))).run
  | .validate actions => (validationCb actions).run
  | .execute actions => (executionCb actions).run
  | .sleep delay => (perform (.sys (.sleep delay))).run

variable (parts : Parts)

theorem interp_ask (o : Request) :
    interpE (handlers onAttempt validationCb executionCb) (ask o) =
      ExceptT.mk (handlers onAttempt validationCb executionCb o) :=
  interp_perform _ o

theorem interp_body (request : LLMRequest) :
    interpE (handlers onAttempt validationCb executionCb) (body parts request) =
      oneAttempt parts validationCb executionCb request := by
  rw [body, oneAttempt, interp_bindE, interp_ask]
  congr 1
  funext response
  rw [interp_bindE]
  congr 1
  funext actions
  rw [interp_bindE, interp_ask]
  congr 1
  funext u
  rw [interp_bindE, interp_ask]
  rfl

/-- The platform's executor from some attempt on is the loop with the rounds that are
left, and the loop does not come to its end without a `return`. -/
theorem interp_rounds (before delays : List ℕ) (request : LLMRequest) :
    interpE (handlers onAttempt validationCb executionCb)
        (rounds parts (before ++ delays) (delays.length + 1) before.length request) =
      generateActions parts onAttempt validationCb executionCb delays (before.length + 1) request
        >>= fun actions => pure (some actions) := by
  induction delays generalizing before request with
  | nil =>
    -- the last round: every exception is raised again
    have hlast : (before ++ ([] : List ℕ)).length ≤ before.length := by simp
    rw [List.length_nil, rounds, generateActions, interp_bindE, interp_ask, bindE_assoc]
    congr 1
    funext u
    simp only [if_pos hlast]
    rw [tryExcept_throw, interp_bindE, interp_body]
    rfl
  | cons delay delays ih =>
    have hmore : ¬ (before ++ delay :: delays).length ≤ before.length := by simp
    have hdelay : (before ++ delay :: delays).getD before.length 0 = delay := by simp
    have hrest := fun request => ih (before ++ [delay]) request
    simp only [List.append_assoc, List.singleton_append, List.length_append, List.length_singleton]
      at hrest
    rw [rounds, generateActions, interp_bindE, interp_ask, bindE_assoc]
    congr 1
    funext u
    rw [interp_tryExcept, tryExcept_map, interp_bindE, interp_body]
    congr 1
    funext e
    rw [if_neg hmore, hdelay, interp_bindE, interp_ask, bindE_assoc]
    congr 1
    funext u
    exact hrest _

theorem generateActions_eq_rounds (delays : List ℕ) (request : LLMRequest) :
    interpE (handlers onAttempt validationCb executionCb) (generate parts delays request) =
      generateActions parts onAttempt validationCb executionCb delays 1 request
        >>= fun actions => pure (some actions) :=
  interp_rounds onAttempt validationCb executionCb parts [] delays request

end Handlers

/-! ### One attempt -/

/-- What the calls of one attempt answer. -/
structure Attempt where
  response : Except Exn String
  validation : List Action → Except Exn Unit
  execution : List Action → Except Exn Unit

/-- How an attempt ends: with the plan that was executed, or with the first exception. -/
def Attempt.outcome (parts : Parts) (a : Attempt) : Except Exn (List Action) := do
  let response ← a.response
  let actions ← parts.parse response
  a.validation actions
  a.execution actions
  pure actions

/-- The feedback for the next attempt, if there has to be one. -/
def Attempt.feedback (parts : Parts) (a : Attempt) : Option String :=
  match a.outcome parts with
  | .ok _ => none
  | .error e => feedbackFor parts e

/-- The kinds of outcome of an attempt: a plan that was executed, an error of the client that
calls itself retryable or not, an answer without a plan, a plan that is refused with a status,
an error of the tool, and any other exception. -/
inductive AttemptKind
  | success
  | clientError (retryable : Bool)
  | unparsable
  | invalid (statusCode : ℕ)
  | toolError
  | otherError
  deriving DecidableEq

/-- The outcomes after which there may be another attempt. -/
def AttemptKind.retryable : AttemptKind → Bool
  | clientError retryable => retryable
  | unparsable | toolError => true
  | invalid statusCode => statusCode ≠ 403
  | success | otherError => false

def AttemptKind.ofExn : Exn → AttemptKind
  | .llmClient _ _ retryable => clientError retryable
  | .planRetryable _ _ _ => unparsable
  | .planValidation _ statusCode _ => invalid statusCode
  | .cliExecution _ _ _ _ | .cliLaunch _ _ _ | .cliTimeout _ _ => toolError
  | _ => otherError

def Attempt.kind (parts : Parts) (a : Attempt) : AttemptKind :=
  match a.outcome parts with
  | .ok _ => .success
  | .error e => .ofExn e

/-- The four `except` clauses lead to another attempt for the retryable kinds. -/
theorem isSome_feedback (parts : Parts) (a : Attempt) :
    (a.feedback parts).isSome = (a.kind parts).retryable := by
  rw [Attempt.feedback, Attempt.kind]
  rcases a.outcome parts with e | actions
  · cases e with
    | llmClient name message retryable => cases retryable <;> rfl
    | planValidation message statusCode details =>
      by_cases hcode : statusCode = 403
      · subst hcode
        rfl
      · simp [feedbackFor, AttemptKind.ofExn, AttemptKind.retryable, hcode]
    | _ => rfl
  · rfl

/-- The number of the attempt, and the calls so far, each with the number of its attempt. -/
abbrev Calls : Type := ℕ × List (ℕ × Request)

/-- The answers to the calls, when the attempts are given; every attempt after the first
one starts with the end of a sleep. -/
def answer (script : ℕ → Attempt) (o : Request) (s : Calls) : Answer o × Calls :=
  let log := s.2 ++ [(s.1, o)]
  match o with
  | .onAttempt _ => (.ok (), s.1, log)
  | .generatePlan _ => ((script s.1).response, s.1, log)
  | .validate actions => ((script s.1).validation actions, s.1, log)
  | .execute actions => ((script s.1).execution actions, s.1, log)
  | .sleep _ => (.ok (), s.1 + 1, log)

section Eval

variable (parts : Parts) (delays : List ℕ) (script : ℕ → Attempt)

/-- The calls of the body of the `try`. -/
def bodyCalls (k : ℕ) (request : LLMRequest) : List (ℕ × Request) :=
  (k, .generatePlan request) ::
    match (script k).response with
    | .error _ => []
    | .ok response =>
      match parts.parse response with
      | .error _ => []
      | .ok actions =>
        (k, .validate actions) ::
          match (script k).validation actions with
          | .error _ => []
          | .ok _ => [(k, .execute actions)]

theorem body_eval (k : ℕ) (request : LLMRequest) (log : List (ℕ × Request)) :
    (body parts request).run.eval (answer script) (k, log) =
      ((script k).outcome parts, (k, log ++ bodyCalls parts script k request)) := by
  -- the calls one after the other, each with what follows if it raises
  have hplan : (ask (.generatePlan request)).run.eval (answer script) (k, log) =
      ((script k).response, (k, log ++ [(k, .generatePlan request)])) := rfl
  rw [body]
  rcases hresponse : (script k).response with e | response
  · rw [hresponse] at hplan
    rw [eval_bindE_error hplan]
    simp only [Attempt.outcome, bodyCalls, hresponse]
    rfl
  rw [hresponse] at hplan
  rw [eval_bindE hplan]
  have hparsed : (ExceptT.mk (.ret (parts.parse response)) :
      Fallible Request Answer Exn (List Action)).run.eval (answer script)
        (k, log ++ [(k, .generatePlan request)]) =
      (parts.parse response, (k, log ++ [(k, .generatePlan request)])) := rfl
  rcases hparse : parts.parse response with e | actions
  · rw [hparse] at hparsed
    rw [eval_bindE_error hparsed]
    simp only [Attempt.outcome, bodyCalls, hresponse, hparse, bind, Except.bind]
  rw [hparse] at hparsed
  rw [eval_bindE hparsed]
  have hvalidate : (ask (.validate actions)).run.eval (answer script)
      (k, log ++ [(k, .generatePlan request)]) = ((script k).validation actions,
        (k, log ++ [(k, .generatePlan request)] ++ [(k, .validate actions)])) := rfl
  rcases hvalid : (script k).validation actions with e | u
  · rw [hvalid] at hvalidate
    rw [eval_bindE_error hvalidate, List.append_assoc]
    simp only [Attempt.outcome, bodyCalls, hresponse, hparse, hvalid, bind, Except.bind]
    rfl
  rw [hvalid] at hvalidate
  rw [eval_bindE hvalidate]
  have hexecute : (ask (.execute actions)).run.eval (answer script)
      (k, log ++ [(k, .generatePlan request)] ++ [(k, .validate actions)]) =
        ((script k).execution actions, (k, log ++ [(k, .generatePlan request)] ++
          [(k, .validate actions)] ++ [(k, .execute actions)])) := rfl
  rcases hexec : (script k).execution actions with e | u
  · rw [hexec] at hexecute
    rw [eval_bindE_error hexecute, List.append_assoc, List.append_assoc]
    simp only [Attempt.outcome, bodyCalls, hresponse, hparse, hvalid, hexec, bind, Except.bind]
    rfl
  · rw [hexec] at hexecute
    rw [eval_bindE hexecute, List.append_assoc, List.append_assoc]
    simp only [Attempt.outcome, bodyCalls, hresponse, hparse, hvalid, hexec, bind, Except.bind]
    rfl

/-- The calls of a round up to the end of the `try`. -/
def roundCalls (k : ℕ) (request : LLMRequest) : List (ℕ × Request) :=
  (k, .onAttempt (k + 1)) :: bodyCalls parts script k request

/-- The last round: the attempt is not retried, or no delay is left. -/
theorem rounds_eval_last {k : ℕ} (hlast : (script k).feedback parts = none ∨ delays.length ≤ k)
    (remaining : ℕ) (request : LLMRequest) (log : List (ℕ × Request)) :
    (rounds parts delays (remaining + 1) k request).run.eval (answer script) (k, log) =
      (((script k).outcome parts).map some, (k, log ++ roundCalls parts script k request)) := by
  have hstart : (ask (.onAttempt (k + 1))).run.eval (answer script) (k, log) =
      (.ok (), (k, log ++ [(k, .onAttempt (k + 1))])) := rfl
  have hbody := body_eval parts script k request (log ++ [(k, .onAttempt (k + 1))])
  rw [List.append_assoc, List.singleton_append] at hbody
  rw [rounds, eval_bindE hstart]
  rw [Attempt.feedback] at hlast
  rcases houtcome : (script k).outcome parts with e | actions
  · rw [houtcome] at hbody hlast
    rw [eval_tryExcept_error (eval_bindE_error hbody)]
    rcases hfeedback : feedbackFor parts e with _ | feedback
    · rfl
    · -- a retry would be due, but all delays are used up
      have hdelays : delays.length ≤ k := by
        rcases hlast with hnone | hdelays
        · rw [show feedbackFor parts e = none from hnone] at hfeedback
          exact absurd hfeedback (by simp)
        · exact hdelays
      rw [if_pos Option.isSome_some, if_pos hdelays]
      rfl
  · rw [houtcome] at hbody
    exact eval_tryExcept_ok (eval_bindE hbody)

/-- A round that is followed by another one. -/
theorem rounds_eval_retry {k : ℕ} {feedback : String}
    (hfeedback : (script k).feedback parts = some feedback) (hdelays : k < delays.length)
    (remaining : ℕ) (request : LLMRequest) (log : List (ℕ × Request)) :
    (rounds parts delays (remaining + 1) k request).run.eval (answer script) (k, log) =
      (rounds parts delays remaining (k + 1) (request.withRetryFeedback feedback)).run.eval
        (answer script)
        (k + 1, log ++ roundCalls parts script k request ++ [(k, .sleep (delays.getD k 0))]) := by
  have hstart : (ask (.onAttempt (k + 1))).run.eval (answer script) (k, log) =
      (.ok (), (k, log ++ [(k, .onAttempt (k + 1))])) := rfl
  have hbody := body_eval parts script k request (log ++ [(k, .onAttempt (k + 1))])
  rw [List.append_assoc, List.singleton_append] at hbody
  rw [rounds, eval_bindE hstart]
  rw [Attempt.feedback] at hfeedback
  -- Only an outcome that raises has feedback.
  rcases houtcome : (script k).outcome parts with e | actions
  · rw [houtcome] at hbody hfeedback
    have he : feedbackFor parts e = some feedback := hfeedback
    have hsleep : (ask (.sleep (delays.getD k 0))).run.eval (answer script)
        (k, log ++ roundCalls parts script k request) =
          (.ok (), (k + 1, log ++ roundCalls parts script k request ++
            [(k, .sleep (delays.getD k 0))])) := rfl
    rw [eval_tryExcept_error (eval_bindE_error hbody), he,
      if_pos Option.isSome_some, if_neg (by omega)]
    exact eval_bindE hsleep
  · rw [houtcome] at hfeedback
    exact absurd hfeedback (by simp)

/-! ### The whole run -/

variable (request : LLMRequest)

/-- The request of attempt `k`: the original one, with the feedback on the attempt before. -/
def requestAt : ℕ → LLMRequest
  | 0 => request
  | k + 1 => request.withRetryFeedback (((script k).feedback parts).getD "")

/-- The calls of the rounds before attempt `k`. -/
def callsBefore (k : ℕ) : List (ℕ × Request) :=
  (List.range k).flatMap fun i =>
    roundCalls parts script i (requestAt parts script request i) ++ [(i, .sleep (delays.getD i 0))]

/-- The number of attempts that are retried: the leading ones with a retryable outcome, but
not more than there are delays. -/
def retries : ℕ :=
  ((List.range delays.length).takeWhile fun k => ((script k).kind parts).retryable).length

/-- Feedback replaces the feedback before. -/
theorem requestAt_withRetryFeedback (k : ℕ) (feedback : String) :
    (requestAt parts script request k).withRetryFeedback feedback =
      request.withRetryFeedback feedback := by
  cases k with
  | zero => rfl
  | succ k => rfl

theorem callsBefore_succ (k : ℕ) :
    callsBefore parts delays script request (k + 1) = callsBefore parts delays script request k ++
      roundCalls parts script k (requestAt parts script request k) ++
        [(k, .sleep (delays.getD k 0))] := by
  rw [callsBefore, List.range_succ, List.flatMap_append, List.flatMap_singleton,
    List.append_assoc]
  rfl

/-- From attempt `k` on, the loop stops at the first attempt that is not retried, or with
the last delay. -/
theorem rounds_eval {remaining k : ℕ} (hk : k + remaining = delays.length) :
    ∃ last, k ≤ last ∧ last ≤ delays.length ∧
      (∀ i, k ≤ i → i < last → ((script i).feedback parts).isSome) ∧
      ((script last).feedback parts = none ∨ last = delays.length) ∧
      (rounds parts delays (remaining + 1) k (requestAt parts script request k)).run.eval
          (answer script) (k, callsBefore parts delays script request k) =
        (((script last).outcome parts).map some,
          (last, callsBefore parts delays script request last ++
            roundCalls parts script last (requestAt parts script request last))) := by
  -- The rounds that remain; `last` is the first attempt that is not retried.
  induction remaining generalizing k with
  | zero =>
    have hlast : delays.length ≤ k := by omega
    exact ⟨k, le_refl k, by omega, fun i h₁ h₂ => absurd h₁ (by omega), .inr (by omega),
      rounds_eval_last parts delays script (.inr hlast) 0 _ _⟩
  | succ remaining ih =>
    rcases hfeedback : (script k).feedback parts with _ | feedback
    · exact ⟨k, le_refl k, by omega, fun i h₁ h₂ => absurd h₁ (by omega), .inl hfeedback,
        rounds_eval_last parts delays script (.inl hfeedback) _ _ _⟩
    · obtain ⟨last, hle, hdelays, hretried, hstop, hrun⟩ := @ih (k + 1) (by omega)
      refine ⟨last, by omega, hdelays, fun i h₁ h₂ => ?_, hstop, ?_⟩
      · by_cases hik : i = k
        · rw [hik, hfeedback, Option.isSome_some]
        · exact hretried i (by omega) h₂
      · rw [rounds_eval_retry parts delays script hfeedback (by omega),
          requestAt_withRetryFeedback, ← callsBefore_succ, ← hrun, requestAt, hfeedback]
        rfl

/-- The attempts that are retried, counted. -/
theorem retries_eq {last : ℕ} (hle : last ≤ delays.length)
    (hretried : ∀ i < last, ((script i).feedback parts).isSome)
    (hstop : (script last).feedback parts = none ∨ last = delays.length) :
    retries parts delays script = last := by
  obtain ⟨d, hd⟩ := Nat.exists_eq_add_of_le hle
  have hall : ∀ i ∈ List.range last, ((script i).feedback parts).isSome := fun i hi =>
    hretried i (List.mem_range.mp hi)
  simp only [retries, ← isSome_feedback]
  rw [hd, List.range_add, List.takeWhile_append_of_pos hall, List.length_append, List.length_range]
  have hnone : ((List.range d).map (last + ·)).takeWhile
      (fun k => ((script k).feedback parts).isSome) = [] := by
    cases d with
    | zero => rfl
    | succ d =>
      have hlast := hstop.resolve_right (by omega)
      rw [List.range_succ_eq_map, List.map_cons, List.takeWhile_cons_of_neg]
      rw [Nat.add_zero, hlast]
      simp
  rw [hnone]
  rfl

/-- The calls of a round have its number. -/
theorem eq_of_mem_roundCalls {i k : ℕ} {r : LLMRequest} {call : Request}
    (h : (i, call) ∈ roundCalls parts script k r) : i = k := by
  rw [roundCalls, bodyCalls] at h
  rcases hresponse : (script k).response with e | response
  · simp only [hresponse, List.mem_cons, Prod.mk.injEq, List.not_mem_nil, or_false] at h
    exact h.elim And.left And.left
  rcases hparse : parts.parse response with e | plan
  · simp only [hresponse, hparse, List.mem_cons, Prod.mk.injEq, List.not_mem_nil, or_false] at h
    exact h.elim And.left And.left
  rcases hvalid : (script k).validation plan with e | u
  · simp only [hresponse, hparse, hvalid, List.mem_cons, Prod.mk.injEq, List.not_mem_nil,
      or_false] at h
    exact h.elim And.left (Or.elim · And.left And.left)
  · simp only [hresponse, hparse, hvalid, List.mem_cons, Prod.mk.injEq, List.not_mem_nil,
      or_false] at h
    exact h.elim And.left (Or.elim · And.left (Or.elim · And.left And.left))

theorem lt_of_mem_callsBefore {i k : ℕ} {call : Request}
    (h : (i, call) ∈ callsBefore parts delays script request k) : i < k := by
  obtain ⟨n, hn, hmem⟩ := List.mem_flatMap.mp h
  rcases List.mem_append.mp hmem with hmem | hmem
  · rw [eq_of_mem_roundCalls parts script hmem]
    exact List.mem_range.mp hn
  · rw [(Prod.mk.inj (List.mem_singleton.mp hmem)).1]
    exact List.mem_range.mp hn

/-- Only a plan that was parsed and validated in the same attempt is executed. -/
theorem mem_roundCalls_execute {i k : ℕ} {r : LLMRequest} {actions : List Action}
    (h : (i, Request.execute actions) ∈ roundCalls parts script k r) :
    i = k ∧ ∃ response, (script k).response = .ok response ∧
      parts.parse response = .ok actions ∧ (script k).validation actions = .ok () := by
  rw [roundCalls, bodyCalls] at h
  rcases hresponse : (script k).response with e | response
  · simp [hresponse] at h
  rcases hparse : parts.parse response with e | plan
  · simp [hresponse, hparse] at h
  rcases hvalid : (script k).validation plan with e | u
  · simp [hresponse, hparse, hvalid] at h
  · simp only [hresponse, hparse, hvalid, List.mem_cons, Prod.mk.injEq, Request.execute.injEq,
      reduceCtorEq, and_false, false_or, List.not_mem_nil, or_false] at h
    obtain ⟨rfl, rfl⟩ := h
    exact ⟨rfl, response, rfl, hparse, hvalid⟩

/-- The requests to the language model among some calls. -/
def planRequests (log : List (ℕ × Request)) : List LLMRequest :=
  log.filterMap fun call =>
    match call.2 with
    | .generatePlan request => some request
    | _ => none

theorem planRequests_roundCalls (k : ℕ) (r : LLMRequest) :
    planRequests (roundCalls parts script k r) = [r] := by
  rw [roundCalls, bodyCalls]
  rcases hresponse : (script k).response with e | response
  · rfl
  rcases hparse : parts.parse response with e | plan
  · simp [planRequests, hparse]
  rcases hvalid : (script k).validation plan with e | u
  · simp [planRequests, hparse, hvalid]
  · simp [planRequests, hparse, hvalid]

theorem planRequests_callsBefore (k : ℕ) :
    planRequests (callsBefore parts delays script request k) =
      (List.range k).map (requestAt parts script request) := by
  induction k with
  | zero => rfl
  | succ k ih =>
    rw [callsBefore_succ, planRequests, List.filterMap_append, List.filterMap_append,
      List.range_succ, List.map_append, ← ih]
    have hround := planRequests_roundCalls parts script k (requestAt parts script request k)
    rw [planRequests] at hround
    rw [hround]
    simp [planRequests]

/-- An attempt that ends with a plan has executed it. -/
theorem executed_of_outcome {k : ℕ} {actions : List Action} (r : LLMRequest)
    (h : (script k).outcome parts = .ok actions) :
    (k, Request.execute actions) ∈ roundCalls parts script k r ∧
      (script k).execution actions = .ok () := by
  rw [Attempt.outcome] at h
  rcases hresponse : (script k).response with e | response
  · simp [hresponse, bind, Except.bind] at h
  rcases hparse : parts.parse response with e | plan
  · simp [hresponse, hparse, bind, Except.bind] at h
  rcases hvalid : (script k).validation plan with e | u
  · simp [hresponse, hparse, hvalid, bind, Except.bind] at h
  rcases hexec : (script k).execution plan with e | u
  · simp [hresponse, hparse, hvalid, hexec, bind, Except.bind] at h
  · simp only [hresponse, hparse, hvalid, hexec, bind, Except.bind] at h
    rw [← Except.ok.inj h]
    exact ⟨by simp [roundCalls, bodyCalls, hresponse, hparse, hvalid], hexec⟩

end Eval

/-- **The retry protocol.**  For every list of delays, every request and every sequence of
attempts, the loop makes one request more than it has retries: as many as there are leading
retryable outcomes, but not more than delays.  It returns what the last attempt returns and
raises what it raises, it never comes to its end without a `return`, it executes nothing but
plans that were parsed and validated in the same attempt, and it returns a plan that was
executed.  After an attempt with an outcome that is not retryable, a 403 among them, nothing
is called any more.  The request of the next attempt is the original one with the feedback on
the exception of the attempt before. -/
theorem retry_protocol (parts : Parts) (delays : List ℕ) (request : LLMRequest)
    (script : ℕ → Attempt) :
    let run := (generate parts delays request).run.eval (answer script) (0, [])
    let last := retries parts delays script
    (last ≤ delays.length ∧ (∀ k < last, ((script k).kind parts).retryable = true) ∧
      (last < delays.length → ((script last).kind parts).retryable = false)) ∧
    planRequests run.2.2 = (List.range (1 + last)).map (requestAt parts script request) ∧
    (∀ k, ((script k).kind parts).retryable = false →
      ∀ later call, (later, call) ∈ run.2.2 → later ≤ k) ∧
    run.1 = ((script last).outcome parts).map some ∧
    (∀ k actions, (k, .execute actions) ∈ run.2.2 →
      ∃ response, (script k).response = .ok response ∧ parts.parse response = .ok actions ∧
        (script k).validation actions = .ok ()) ∧
    (∀ actions, run.1 = .ok (some actions) →
      (last, .execute actions) ∈ run.2.2 ∧ (script last).execution actions = .ok ()) ∧
    requestAt parts script request 0 = request ∧
    ∀ k < last, ∃ e feedback, (script k).outcome parts = .error e ∧
      feedbackFor parts e = some feedback ∧
      requestAt parts script request (k + 1) = { request with retryFeedback := some feedback } := by
  intro run last
  obtain ⟨stop, -, hle, hretried, hstop, hrun⟩ :=
    @rounds_eval parts delays script request delays.length 0 (Nat.zero_add _)
  have hlast : last = stop :=
    retries_eq parts delays script hle (fun i hi => hretried i (Nat.zero_le i) hi) hstop
  have hrun' : run = (((script last).outcome parts).map some,
      (last, callsBefore parts delays script request last ++
        roundCalls parts script last (requestAt parts script request last))) := by
    rw [hlast]
    exact hrun
  have hleading : ∀ k < last, ((script k).kind parts).retryable = true := fun k hk =>
    isSome_feedback parts (script k) ▸ hretried k (Nat.zero_le k) (hlast ▸ hk)
  rw [hrun']
  refine ⟨⟨hlast ▸ hle, hleading, fun hlt => ?_⟩, ?_, ?_, rfl, ?_, ?_, rfl, ?_⟩
  · rw [hlast] at hlt ⊢
    rw [← isSome_feedback, hstop.resolve_right (Nat.ne_of_lt hlt)]
    rfl
  · rw [Nat.add_comm, List.range_succ, List.map_append, ← planRequests_callsBefore parts delays,
      List.map_singleton, ← planRequests_roundCalls parts script last]
    exact List.filterMap_append
  · intro k hkind later call hmem
    have hle : last ≤ k := Nat.not_lt.mp fun hlt => by simp [hleading k hlt] at hkind
    rcases List.mem_append.mp hmem with hmem | hmem
    · exact (lt_of_mem_callsBefore parts delays script request hmem).le.trans hle
    · exact (eq_of_mem_roundCalls parts script hmem).le.trans hle
  · -- a call is in one of the rounds before, or in the last one
    intro k actions hmem
    rcases List.mem_append.mp hmem with hmem | hmem
    · obtain ⟨i, -, hi⟩ := List.mem_flatMap.mp hmem
      rcases List.mem_append.mp hi with hi | hi
      · obtain ⟨rfl, hexecuted⟩ := mem_roundCalls_execute parts script hi
        exact hexecuted
      · simp at hi
    · obtain ⟨rfl, hexecuted⟩ := mem_roundCalls_execute parts script hmem
      exact hexecuted
  · intro actions hok
    rcases houtcome : (script last).outcome parts with e | plan
    · rw [houtcome] at hok
      exact absurd hok (by simp [Except.map])
    · rw [houtcome] at hok
      have hplan : plan = actions := by simpa [Except.map] using hok
      rw [hplan] at houtcome
      obtain ⟨hmem, hexec⟩ := executed_of_outcome parts script
        (requestAt parts script request last) houtcome
      exact ⟨List.mem_append_right _ hmem, hexec⟩
  · intro k hk
    have hsome := hretried k (Nat.zero_le k) (by omega)
    obtain ⟨feedback, hfeedback⟩ := Option.isSome_iff_exists.mp hsome
    have hnext : requestAt parts script request (k + 1) =
        { request with retryFeedback := some feedback } := by
      rw [requestAt, hfeedback]
      rfl
    rw [Attempt.feedback] at hfeedback
    rcases houtcome : (script k).outcome parts with e | plan
    · rw [houtcome] at hfeedback
      exact ⟨e, feedback, rfl, hfeedback, hnext⟩
    · rw [houtcome] at hfeedback
      exact absurd hfeedback (by simp)

end LLMPlanRetryExecutor

end CliExecutionPlatform
