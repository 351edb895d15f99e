/-
Programs that run alone.

A program is evaluated against a state that answers every operation at once: `step`
gives the result of an operation and the next state.  Where an operation may have to wait
for something that nobody else will bring about, `step` is partial.

* `Prog.eval` — the value a program returns, and the state it leaves;
* `eval_bind`, `eval_bindE`, `eval_tryExcept` — evaluation of composite programs;
* `Prog.evalOpt` — the same for a partial `step`: no outcome if the program waits for good;
* `bind_assoc`, `tryExcept_throw`, `tryExcept_map` — laws of composite programs;
* `Prog.interp` — the same program with each operation replaced by a program;
  `interp_bindE`, `interp_tryExcept` — it goes through composite programs.
-/
import CliExecutionPlatform.Process

namespace Process

variable {Op : Type} {Res : Op → Type} {σ α β ε : Type}

/-- The value that a program returns and the state that it leaves. -/
def Prog.eval (step : (o : Op) → σ → Res o × σ) : Prog Op Res α → σ → α × σ
  | .ret a, s => (a, s)
  | .call o k, s => (k (step o s).1).eval step (step o s).2

section Eval

variable (step : (o : Op) → σ → Res o × σ)

@[simp] theorem eval_ret (a : α) (s : σ) : (Prog.ret a : Prog Op Res α).eval step s = (a, s) := rfl

theorem eval_bind (p : Prog Op Res α) (f : α → Prog Op Res β) (s : σ) :
    (p.bind f).eval step s = (f (p.eval step s).1).eval step (p.eval step s).2 := by
  induction p generalizing s with
  | ret a => rfl
  | call o k ih => exact ih _ _

variable {step} {s s' : σ}

theorem eval_bindE {x : Fallible Op Res ε α} {f : α → Fallible Op Res ε β} {a : α}
    (h : x.run.eval step s = (.ok a, s')) : (x >>= f).run.eval step s = (f a).run.eval step s' := by
  rw [run_bind, eval_bind, h]

theorem eval_bindE_error {x : Fallible Op Res ε α} {f : α → Fallible Op Res ε β} {e : ε}
    (h : x.run.eval step s = (.error e, s')) : (x >>= f).run.eval step s = (.error e, s') := by
  rw [run_bind, eval_bind, h]
  rfl

theorem eval_tryExcept_ok {caught : ε → Bool} {x : Fallible Op Res ε α}
    {h : ε → Fallible Op Res ε α} {a : α} (hx : x.run.eval step s = (.ok a, s')) :
    (tryExcept caught x h).run.eval step s = (.ok a, s') := by
  show (x.run.bind _).eval step s = _
  rw [eval_bind, hx]
  rfl

theorem eval_tryExcept_error {caught : ε → Bool} {x : Fallible Op Res ε α}
    {h : ε → Fallible Op Res ε α} {e : ε} (hx : x.run.eval step s = (.error e, s')) :
    (tryExcept caught x h).run.eval step s =
      if caught e then (h e).run.eval step s' else (.error e, s') := by
  show (x.run.bind _).eval step s = _
  rw [eval_bind, hx]
  show (if caught e then (h e).run else .ret (.error e)).eval step s' = _
  rw [apply_ite (fun p => Prog.eval step p s')]
  rfl

end Eval

/-! ### Operations that may wait for good -/

/-- The value that a program returns and the state that it leaves, unless it comes to an
operation without an outcome. -/
def Prog.evalOpt (step : (o : Op) → σ → Option (Res o × σ)) : Prog Op Res α → σ → Option (α × σ)
  | .ret a, s => some (a, s)
  | .call o k, s => (step o s).bind fun r => (k r.1).evalOpt step r.2

section EvalOpt

variable (step : (o : Op) → σ → Option (Res o × σ))

theorem evalOpt_bind (p : Prog Op Res α) (f : α → Prog Op Res β) (s : σ) :
    (p.bind f).evalOpt step s = (p.evalOpt step s).bind fun r => (f r.1).evalOpt step r.2 := by
  induction p generalizing s with
  | ret a => rfl
  | call o k ih =>
    show (step o s).bind _ = ((step o s).bind _).bind _
    rw [Option.bind_assoc]
    congr 1
    funext r
    exact ih _ _

variable {step} {s s' : σ}

theorem evalOpt_bindE {x : Fallible Op Res ε α} {f : α → Fallible Op Res ε β} {a : α}
    (h : x.run.evalOpt step s = some (.ok a, s')) :
    (x >>= f).run.evalOpt step s = (f a).run.evalOpt step s' := by
  rw [run_bind, evalOpt_bind, h]
  rfl

theorem evalOpt_bindE_none {x : Fallible Op Res ε α} {f : α → Fallible Op Res ε β}
    (h : x.run.evalOpt step s = none) : (x >>= f).run.evalOpt step s = none := by
  rw [run_bind, evalOpt_bind, h]
  rfl

theorem evalOpt_tryExcept_ok {caught : ε → Bool} {x : Fallible Op Res ε α}
    {h : ε → Fallible Op Res ε α} {a : α} (hx : x.run.evalOpt step s = some (.ok a, s')) :
    (tryExcept caught x h).run.evalOpt step s = some (.ok a, s') := by
  show (x.run.bind _).evalOpt step s = _
  rw [evalOpt_bind, hx]
  rfl

end EvalOpt

/-! ### Laws of composite programs -/

theorem bind_assoc (p : Prog Op Res α) (f : α → Prog Op Res β) {γ : Type}
    (g : β → Prog Op Res γ) : (p.bind f).bind g = p.bind fun a => (f a).bind g := by
  induction p with
  | ret a => rfl
  | call o k ih =>
    show Prog.call o _ = Prog.call o _
    congr 1
    funext r
    exact ih r

theorem bind_ret (p : Prog Op Res α) : p.bind .ret = p := by
  induction p with
  | ret a => rfl
  | call o k ih =>
    show Prog.call o _ = Prog.call o _
    congr 1
    funext r
    exact ih r

theorem bindE_assoc {γ : Type} (x : Fallible Op Res ε α) (f : α → Fallible Op Res ε β)
    (g : β → Fallible Op Res ε γ) : x >>= f >>= g = x >>= fun a => f a >>= g := by
  apply ExceptT.ext
  rw [run_bind, run_bind, run_bind, bind_assoc]
  congr 1
  funext r
  cases r with
  | ok a => exact (run_bind (f a) g).symm
  | error e => rfl

/-- To catch an exception and raise it again is not to catch it. -/
theorem tryExcept_throw (caught : ε → Bool) (x : Fallible Op Res ε α) :
    tryExcept caught x throw = x := by
  apply ExceptT.ext
  show x.run.bind _ = x.run
  rw [← bind_ret x.run, bind_assoc]
  congr 1
  funext r
  cases r with
  | ok a => rfl
  | error e =>
    exact ite_self _

/-- What is done with a value can be done in both branches. -/
theorem tryExcept_map (caught : ε → Bool) (x : Fallible Op Res ε α)
    (h : ε → Fallible Op Res ε α) (g : α → β) :
    (tryExcept caught x h >>= fun a => pure (g a)) =
      tryExcept caught (x >>= fun a => pure (g a)) fun e => h e >>= fun a => pure (g a) := by
  apply ExceptT.ext
  rw [run_bind]
  show (x.run.bind _).bind _ = (x >>= fun a => pure (g a)).run.bind _
  rw [run_bind, bind_assoc, bind_assoc]
  congr 1
  funext r
  cases r with
  | ok a => rfl
  | error e =>
    show (if caught e then (h e).run else .ret (.error e)).bind _ =
      if caught e then (h e >>= fun a => pure (g a)).run else .ret (.error e)
    rw [apply_ite (fun p => Prog.bind p _), run_bind]
    rfl

/-! ### Operations as programs -/

variable {Op' : Type} {Res' : Op' → Type}

/-- The program with each operation replaced. -/
def Prog.interp (handler : (o : Op) → Prog Op' Res' (Res o)) :
    Prog Op Res α → Prog Op' Res' α
  | .ret a => .ret a
  | .call o k => (handler o).bind fun r => (k r).interp handler

/-- The same for programs that may raise. -/
def interpE (handler : (o : Op) → Prog Op' Res' (Res o)) (x : Fallible Op Res ε α) :
    Fallible Op' Res' ε α := ExceptT.mk (x.run.interp handler)

section Interp

variable (handler : (o : Op) → Prog Op' Res' (Res o))

theorem interp_bind (p : Prog Op Res α) (f : α → Prog Op Res β) :
    (p.bind f).interp handler = (p.interp handler).bind fun a => (f a).interp handler := by
  induction p with
  | ret a => rfl
  | call o k ih =>
    show (handler o).bind _ = ((handler o).bind _).bind _
    rw [bind_assoc]
    congr 1
    funext r
    exact ih r

theorem interp_perform (o : Op) :
    (Prog.perform o : Prog Op Res (Res o)).interp handler = handler o :=
  bind_ret (handler o)

theorem interp_bindE (x : Fallible Op Res ε α) (f : α → Fallible Op Res ε β) :
    interpE handler (x >>= f) = interpE handler x >>= fun a => interpE handler (f a) := by
  apply ExceptT.ext
  rw [run_bind]
  show (x >>= f).run.interp handler = (x.run.interp handler).bind _
  rw [run_bind, interp_bind]
  congr 1
  funext r
  cases r with
  | ok a => rfl
  | error e => rfl

theorem interp_tryExcept (caught : ε → Bool) (x : Fallible Op Res ε α)
    (h : ε → Fallible Op Res ε α) :
    interpE handler (tryExcept caught x h) =
      tryExcept caught (interpE handler x) fun e => interpE handler (h e) := by
  apply ExceptT.ext
  show (x.run.bind _).interp handler = (x.run.interp handler).bind _
  rw [interp_bind]
  congr 1
  funext r
  cases r with
  | ok a => rfl
  | error e =>
    show (if caught e then (h e).run else .ret (.error e)).interp handler = _
    rw [apply_ite (Prog.interp handler)]
    rfl

end Interp

end Process
