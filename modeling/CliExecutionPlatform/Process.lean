/-
Programs built from atomic operations.

A `Prog Op Res α` is a finite tree: either it has returned a value, or it is
about to perform an operation `o` and continues with the operation's result.
What an operation does is not part of the tree; it is given by a function
`exec : Env → (o : Op) → σ → Option (Res o × σ)` on a shared state, where the
`Env` argument collects everything the environment decides (failures, fresh
names, answers of the outside world) and `none` means that the operation
cannot be performed now (a semaphore without free slots).

* `Prog.bind` and the `Monad` instance let programs be written in `do`
  notation; fallible programs are `ExceptT ε (Prog Op Res) α`;
* `Calls S p` — every operation that `p` can ever issue satisfies `S`;
  `Until S U p` — every operation before the first one with a result in `U`;
  `Returns R p` — every value that it can return satisfies `R`.

What programs do, alone or among others, is in `Interleaving.lean`.
-/
import Mathlib.Logic.Basic
import Mathlib.Tactic.Common

namespace Process

/-- A program: a returned value, or an operation and what to do with its
result. -/
inductive Prog (Op : Type) (Res : Op → Type) (α : Type) : Type
  | ret (a : α) : Prog Op Res α
  | call (o : Op) (k : Res o → Prog Op Res α) : Prog Op Res α

namespace Prog

variable {Op : Type} {Res : Op → Type} {α β γ : Type}

/-- Sequential composition. -/
def bind : Prog Op Res α → (α → Prog Op Res β) → Prog Op Res β
  | .ret a, f => f a
  | .call o k, f => .call o fun r => (k r).bind f

instance : Monad (Prog Op Res) where
  pure := .ret
  bind := bind

@[simp] theorem ret_bind (a : α) (f : α → Prog Op Res β) :
    (Prog.ret a).bind f = f a := rfl

@[simp] theorem call_bind (o : Op) (k : Res o → Prog Op Res α)
    (f : α → Prog Op Res β) :
    (Prog.call o k).bind f = .call o fun r => (k r).bind f := rfl

theorem bind_eq (p : Prog Op Res α) (f : α → Prog Op Res β) : p >>= f = p.bind f := rfl

/-- Perform one operation and return its result. -/
def perform (o : Op) : Prog Op Res (Res o) := .call o .ret

end Prog

/-! ### Fallible programs -/

section Fallible

variable {Op : Type} {Res : Op → Type} {ε α β : Type}

/-- Programs that end with a value or with an exception. -/
abbrev Fallible (Op : Type) (Res : Op → Type) (ε α : Type) : Type :=
  ExceptT ε (Prog Op Res) α

/-- `try x except e: h e`, for the exceptions that `caught` selects; the others
propagate. -/
def tryExcept (caught : ε → Bool) (x : Fallible Op Res ε α)
    (h : ε → Fallible Op Res ε α) : Fallible Op Res ε α :=
  ExceptT.mk (Prog.bind x.run fun
    | .ok a => .ret (.ok a)
    | .error e => if caught e then (h e).run else .ret (.error e))

/-- `try: x finally: y`, where `y` cannot raise: it runs on both exits and the
outcome of `x` is kept. -/
def tryFinally (x : Fallible Op Res ε α) (y : Prog Op Res Unit) : Fallible Op Res ε α :=
  ExceptT.mk (Prog.bind x.run fun r => y.bind fun _ => .ret r)

theorem run_bind (x : Fallible Op Res ε α) (f : α → Fallible Op Res ε β) :
    (x >>= f).run = x.run.bind fun
      | .ok a => (f a).run
      | .error e => .ret (.error e) := by
  show (ExceptT.bind x f).run = _
  unfold ExceptT.bind ExceptT.run ExceptT.mk
  rw [Prog.bind_eq]
  congr 1

end Fallible

/-! ### The operations a program can issue -/

section Calls

variable {Op : Type} {Res : Op → Type} {α β : Type}

/-- Every operation that `p` can issue, whatever the earlier results were,
satisfies `S`. -/
def Calls (S : Op → Prop) : Prog Op Res α → Prop
  | .ret _ => True
  | .call o k => S o ∧ ∀ r, Calls S (k r)

theorem calls_ret {S : Op → Prop} (a : α) : Calls S (.ret a : Prog Op Res α) := trivial

/-- The first operation of a program is one that it can issue. -/
theorem Calls.head {S : Op → Prop} {o : Op} {k : Res o → Prog Op Res α}
    (h : Calls S (.call o k)) : S o := h.1

theorem Calls.tail {S : Op → Prop} {o : Op} {k : Res o → Prog Op Res α}
    (h : Calls S (.call o k)) (r : Res o) : Calls S (k r) := h.2 r

theorem calls_bind {S : Op → Prop} {p : Prog Op Res α} {f : α → Prog Op Res β}
    (hp : Calls S p) (hf : ∀ a, Calls S (f a)) : Calls S (p.bind f) := by
  induction p with
  | ret a => exact hf a
  | call o k ih => exact ⟨hp.1, fun r => ih r (hp.2 r)⟩

theorem calls_mono {S T : Op → Prop} (h : ∀ o, S o → T o) {p : Prog Op Res α}
    (hp : Calls S p) : Calls T p := by
  induction p with
  | ret a => trivial
  | call o k ih => exact ⟨h o hp.1, fun r => ih r (hp.2 r)⟩

variable {ε : Type}

theorem calls_bindE {S : Op → Prop} {x : Fallible Op Res ε α} {f : α → Fallible Op Res ε β}
    (hx : Calls S x.run) (hf : ∀ a, Calls S (f a).run) : Calls S (x >>= f).run := by
  rw [run_bind]
  refine calls_bind hx fun r => ?_
  cases r with
  | ok a => exact hf a
  | error e => trivial

theorem calls_tryExcept {S : Op → Prop} {caught : ε → Bool} {x : Fallible Op Res ε α}
    {h : ε → Fallible Op Res ε α} (hx : Calls S x.run) (hh : ∀ e, Calls S (h e).run) :
    Calls S (tryExcept caught x h).run := by
  refine calls_bind hx fun r => ?_
  cases r with
  | ok a => trivial
  | error e =>
    show Calls S (if caught e then (h e).run else .ret (.error e))
    by_cases hc : caught e
    · rw [if_pos hc]
      exact hh e
    · rw [if_neg hc]
      trivial

theorem calls_tryFinally {S : Op → Prop} {x : Fallible Op Res ε α} {y : Prog Op Res Unit}
    (hx : Calls S x.run) (hy : Calls S y) : Calls S (tryFinally x y).run :=
  calls_bind hx fun _ => calls_bind hy fun _ => trivial

theorem calls_perform {S : Op → Prop} {o : Op} (h : S o) :
    Calls S (Prog.perform o : Prog Op Res (Res o)) := ⟨h, fun _ => trivial⟩

/-- Until the first operation whose result satisfies `U`, every operation that
`p` can issue satisfies `S`. -/
def Until (S : Op → Prop) (U : (o : Op) → Res o → Prop) : Prog Op Res α → Prop
  | .ret _ => True
  | .call o k => S o ∧ ∀ r, U o r ∨ Until S U (k r)

variable {S : Op → Prop} {U : (o : Op) → Res o → Prop}

theorem until_of_calls {p : Prog Op Res α} (h : Calls S p) : Until S U p := by
  induction p with
  | ret a => trivial
  | call o k ih => exact ⟨h.1, fun r => .inr (ih r (h.2 r))⟩

theorem until_bind {p : Prog Op Res α} {f : α → Prog Op Res β} (hp : Until S U p)
    (hf : ∀ a, Until S U (f a)) : Until S U (p.bind f) := by
  induction p with
  | ret a => exact hf a
  | call o k ih => exact ⟨hp.1, fun r => (hp.2 r).imp_right (ih r)⟩

theorem until_bindE {x : Fallible Op Res ε α} {f : α → Fallible Op Res ε β}
    (hx : Until S U x.run) (hf : ∀ a, Until S U (f a).run) : Until S U (x >>= f).run := by
  rw [run_bind]
  refine until_bind hx fun r => ?_
  cases r with
  | ok a => exact hf a
  | error e => trivial

theorem until_tryExcept {caught : ε → Bool} {x : Fallible Op Res ε α}
    {h : ε → Fallible Op Res ε α} (hx : Until S U x.run) (hh : ∀ e, Until S U (h e).run) :
    Until S U (tryExcept caught x h).run := by
  refine until_bind hx fun r => ?_
  cases r with
  | ok a => trivial
  | error e =>
    show Until S U (if caught e then (h e).run else .ret (.error e))
    by_cases hc : caught e
    · rw [if_pos hc]
      exact hh e
    · rw [if_neg hc]
      trivial

theorem until_tryFinally {x : Fallible Op Res ε α} {y : Prog Op Res Unit}
    (hx : Until S U x.run) (hy : Until S U y) : Until S U (tryFinally x y).run :=
  until_bind hx fun _ => until_bind hy fun _ => trivial

/-- Every value that `p` can return, whatever the results of its operations
are, satisfies `R`. -/
def Returns (R : α → Prop) : Prog Op Res α → Prop
  | .ret a => R a
  | .call _ k => ∀ r, Returns R (k r)

theorem returns_bind {R : α → Prop} {R' : β → Prop} {p : Prog Op Res α} {f : α → Prog Op Res β}
    (hp : Returns R p) (hf : ∀ a, R a → Returns R' (f a)) : Returns R' (p.bind f) := by
  induction p with
  | ret a => exact hf a hp
  | call o k ih => exact fun r => ih r (hp r)

theorem returns_true (p : Prog Op Res α) : Returns (fun _ => True) p := by
  induction p with
  | ret a => trivial
  | call o k ih => exact ih

theorem returns_bindE {R : β → Prop} {x : Fallible Op Res ε α} {f : α → Fallible Op Res ε β}
    (hf : ∀ a, Returns (fun r => ∀ b, r = .ok b → R b) (f a).run) :
    Returns (fun r => ∀ b, r = .ok b → R b) (x >>= f).run := by
  rw [run_bind]
  refine returns_bind (returns_true _) fun r _ => ?_
  cases r with
  | ok a => exact hf a
  | error e => exact fun b hb => absurd hb (by simp)

/-- The second part only matters for the values that the first one can return. -/
theorem until_bind_of_returns {R : α → Prop} {p : Prog Op Res α} {f : α → Prog Op Res β}
    (hp : Until S U p) (hR : Returns R p) (hf : ∀ a, R a → Until S U (f a)) :
    Until S U (p.bind f) := by
  induction p with
  | ret a => exact hf a hR
  | call o k ih => exact ⟨hp.1, fun r => (hp.2 r).imp_right fun hr => ih r hr (hR r)⟩

end Calls

-- programs are followed by the rules above, never by unfolding
attribute [irreducible] Calls

end Process
