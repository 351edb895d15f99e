/-
Interleaved execution of programs, and a rely-guarantee rule for it.

A `System` says what operations do, which calls can be made and which program
each call runs.  A `Machine` is a shared state, the history of all operations
performed so far and one residual program for every call made so far; a step
either makes a new call or lets one thread perform its next operation, so that
every interleaving of the threads' operations is a sequence of steps.

* `Safe exec D t Q p v` — from the view `v`, whatever the other threads do
  within the rely of `D` between the operations of thread `t`, every operation
  of `p` keeps the invariant and the guarantee of `D`, and `p` can only return
  values satisfying `Q`;
* `Safe.op`, `Safe.seq`, `Safe.seqE`, `Safe.catching`, `Safe.finally`, `Safe.mono` —
  the rules for single operations and composite programs;
* `Amid` — one thread running among others; `Safe.amid`, `Amid.preserves` — what
  a program has done when it returns; `runWith` — an executable run without the
  others;
* `System.Reach.safe` — if the guarantee of every thread is within the rely of
  every other one, then the invariant holds in every reachable state and every
  thread is `Safe` there; `System.Step.guar` adds what a further step can do.

The history is an auxiliary variable: operations never read it, but invariants
may speak about which thread performed what.
-/
import CliExecutionPlatform.Process
import Mathlib.Data.List.Basic
import Mathlib.Logic.Relation

namespace Process

/-- An operation that thread `tid` has performed, with its result. -/
structure Label (Op : Type) (Res : Op → Type) where
  tid : ℕ
  op : Op
  res : Res op

/-- What invariants can speak about: the shared state and the history of
operations, latest first. -/
structure View (σ Op : Type) (Res : Op → Type) where
  state : σ
  history : List (Label Op Res)

/-- The view after thread `t` has performed `o` with result `r`. -/
def View.push {σ Op : Type} {Res : Op → Type} (v : View σ Op Res) (t : ℕ) (o : Op)
    (r : Res o) (s : σ) : View σ Op Res :=
  ⟨s, ⟨t, o, r⟩ :: v.history⟩

section Push

variable {σ Op : Type} {Res : Op → Type}

@[simp] theorem View.push_state (v : View σ Op Res) (t : ℕ) (o : Op) (r : Res o) (s : σ) :
    (v.push t o r s).state = s := rfl

@[simp] theorem View.push_history (v : View σ Op Res) (t : ℕ) (o : Op) (r : Res o) (s : σ) :
    (v.push t o r s).history = ⟨t, o, r⟩ :: v.history := rfl

end Push

/-! ### Safety of one thread under interference -/

/-- The terms on which one thread shares the state: an invariant, what the
other threads may do between two of its operations, and what its own
operations may do. -/
structure Discipline (σ Op : Type) (Res : Op → Type) where
  inv : View σ Op Res → Prop
  rely : View σ Op Res → View σ Op Res → Prop
  guar : View σ Op Res → View σ Op Res → Prop
  refl : ∀ v, rely v v
  trans : ∀ u v w, rely u v → rely v w → rely u w

section Safe

variable {Op : Type} {Res : Op → Type} {Env σ α β ε : Type}

/-- Thread `t` may run `p` from the view `v`: before each of its operations the
other threads may act within the rely, the operation keeps the invariant and
acts within the guarantee, and a value is only returned where `Q` holds. -/
def Safe (exec : Env → (o : Op) → σ → Option (Res o × σ)) (D : Discipline σ Op Res) (t : ℕ)
    (Q : α → View σ Op Res → Prop) : Prog Op Res α → View σ Op Res → Prop
  | .ret a, v => ∀ v₁, D.rely v v₁ → D.inv v₁ → Q a v₁
  | .call o k, v => ∀ v₁, D.rely v v₁ → D.inv v₁ → ∀ e r s, exec e o v₁.state = some (r, s) →
      D.inv (v₁.push t o r s) ∧ D.guar v₁ (v₁.push t o r s) ∧
        Safe exec D t Q (k r) (v₁.push t o r s)

variable {exec : Env → (o : Op) → σ → Option (Res o × σ)} {D : Discipline σ Op Res} {t : ℕ}

/-- Safety may be shown after the interference that precedes the first
operation. -/
theorem Safe.of_rely {Q : α → View σ Op Res → Prop} {p : Prog Op Res α} {v : View σ Op Res}
    (h : ∀ v₁, D.rely v v₁ → D.inv v₁ → Safe exec D t Q p v₁) : Safe exec D t Q p v := by
  cases p with
  | ret a => exact fun v₁ h₁ hI => h v₁ h₁ hI v₁ (D.refl v₁) hI
  | call o k => exact fun v₁ h₁ hI => h v₁ h₁ hI v₁ (D.refl v₁) hI

/-- Safety is stable under the rely. -/
theorem Safe.interfere {Q : α → View σ Op Res → Prop} {p : Prog Op Res α}
    {v v' : View σ Op Res} (h : Safe exec D t Q p v) (hv : D.rely v v') :
    Safe exec D t Q p v' := by
  cases p with
  | ret a => exact fun v₁ h₁ hI => h v₁ (D.trans _ _ _ hv h₁) hI
  | call o k => exact fun v₁ h₁ hI => h v₁ (D.trans _ _ _ hv h₁) hI

theorem Safe.mono {Q Q' : α → View σ Op Res → Prop}
    (hQ : ∀ a v, D.inv v → Q a v → Q' a v) :
    ∀ {p : Prog Op Res α} {v : View σ Op Res},
      Safe exec D t Q p v → Safe exec D t Q' p v := by
  intro p
  induction p with
  | ret a => exact fun h v₁ h₁ hI => hQ _ _ hI (h v₁ h₁ hI)
  | call o k ih =>
    intro v h v₁ h₁ hI e r s he
    obtain ⟨hI', hG, hk⟩ := h v₁ h₁ hI e r s he
    exact ⟨hI', hG, ih r hk⟩

theorem Safe.ret {Q : α → View σ Op Res → Prop} {a : α} {v : View σ Op Res}
    (h : ∀ v₁, D.rely v v₁ → D.inv v₁ → Q a v₁) : Safe exec D t Q (.ret a) v := h

/-- An assertion that the other threads do not disturb. -/
def Discipline.Stable (D : Discipline σ Op Res) (P : View σ Op Res → Prop) : Prop :=
  ∀ v v', P v → D.rely v v' → D.inv v' → P v'

/-- An assertion that nobody disturbs, the thread itself included, may be
carried along. -/
theorem Safe.frame {Q : α → View σ Op Res → Prop} {P : View σ Op Res → Prop} (hP : D.Stable P)
    (hG : ∀ v v', P v → D.guar v v' → P v') :
    ∀ {p : Prog Op Res α} {v : View σ Op Res}, Safe exec D t Q p v → P v →
      Safe exec D t (fun a v' => Q a v' ∧ P v') p v := by
  intro p
  induction p with
  | ret a => exact fun h hv v₁ h₁ hI => ⟨h v₁ h₁ hI, hP _ v₁ hv h₁ hI⟩
  | call o k ih =>
    intro v h hv v₁ h₁ hI e r s he
    obtain ⟨hI', hguar, hk⟩ := h v₁ h₁ hI e r s he
    exact ⟨hI', hguar, ih r hk (hG v₁ _ (hP v v₁ hv h₁ hI) hguar)⟩

/-- The rule for one operation between stable assertions. -/
theorem Safe.op {o : Op} {P : View σ Op Res → Prop} {Q : Res o → View σ Op Res → Prop}
    (hP : D.Stable P) (hQ : ∀ r, D.Stable (Q r))
    (hstep : ∀ v e r s, P v → D.inv v → exec e o v.state = some (r, s) →
      D.inv (v.push t o r s) ∧ D.guar v (v.push t o r s) ∧ Q r (v.push t o r s))
    {v : View σ Op Res} (h : P v) : Safe exec D t Q (Prog.perform o) v := by
  intro v₁ h₁ hI e r s he
  obtain ⟨hI', hG, hq⟩ := hstep v₁ e r s (hP v v₁ h h₁ hI) hI he
  exact ⟨hI', hG, fun v₂ h₂ hI₂ => hQ r _ v₂ hq h₂ hI₂⟩

/-- The rule for a program of which only the operations and the returned value
matter. -/
theorem Safe.of_calls {S : Op → Prop} {R : α → Prop} {P : View σ Op Res → Prop} (hP : D.Stable P)
    (hstep : ∀ v e o r s, S o → P v → D.inv v → exec e o v.state = some (r, s) →
      D.inv (v.push t o r s) ∧ D.guar v (v.push t o r s) ∧ P (v.push t o r s)) :
    ∀ {p : Prog Op Res α} {v : View σ Op Res}, Calls S p → Returns R p → P v →
      Safe exec D t (fun a v' => R a ∧ P v') p v := by
  intro p
  induction p with
  | ret a => exact fun _ hR h v₁ h₁ hI => ⟨hR, hP _ v₁ h h₁ hI⟩
  | call o k ih =>
    intro v hp hR h v₁ h₁ hI e r s he
    obtain ⟨hI', hG, hnext⟩ := hstep v₁ e o r s hp.head (hP v v₁ h h₁ hI) hI he
    exact ⟨hI', hG, ih r (hp.tail r) (hR r) hnext⟩

/-- The rule of composition.  Where the second part returns at once, the
postcondition of the first one is enough. -/
theorem Safe.bind {R : α → View σ Op Res → Prop} {Q : β → View σ Op Res → Prop}
    {f : α → Prog Op Res β}
    (hf : ∀ a, (∀ v, D.inv v → R a v → Safe exec D t Q (f a) v) ∨
      ∃ b, f a = .ret b ∧ ∀ v, D.inv v → R a v → Q b v) :
    ∀ {p : Prog Op Res α} {v : View σ Op Res},
      Safe exec D t R p v → Safe exec D t Q (p.bind f) v := by
  intro p
  induction p with
  | ret a =>
    intro v h
    rcases hf a with hsafe | ⟨b, hret, hq⟩
    · exact Safe.of_rely fun v₁ h₁ hI => hsafe v₁ hI (h v₁ h₁ hI)
    · rw [Prog.ret_bind, hret]
      exact fun v₁ h₁ hI => hq v₁ hI (h v₁ h₁ hI)
  | call o k ih =>
    intro v h v₁ h₁ hI e r s he
    obtain ⟨hI', hG, hk⟩ := h v₁ h₁ hI e r s he
    exact ⟨hI', hG, ih r hk⟩

/-- The rule of composition in its usual form. -/
theorem Safe.seq {R : α → View σ Op Res → Prop} {Q : β → View σ Op Res → Prop}
    {p : Prog Op Res α} {f : α → Prog Op Res β} {v : View σ Op Res}
    (hp : Safe exec D t R p v) (hf : ∀ a v, D.inv v → R a v → Safe exec D t Q (f a) v) :
    Safe exec D t Q (p.bind f) v :=
  Safe.bind (fun a => .inl (hf a)) hp

/-- Composition of fallible programs: an exception of the first part is an
exception of the whole. -/
theorem Safe.seqE {R : Except ε α → View σ Op Res → Prop} {Q : Except ε β → View σ Op Res → Prop}
    {x : Fallible Op Res ε α} {f : α → Fallible Op Res ε β} {v : View σ Op Res}
    (hx : Safe exec D t R x.run v)
    (hok : ∀ a v, D.inv v → R (.ok a) v → Safe exec D t Q (f a).run v)
    (herr : ∀ e v, D.inv v → R (.error e) v → Q (.error e) v) :
    Safe exec D t Q (x >>= f).run v := by
  rw [run_bind]
  refine Safe.bind (fun r => ?_) hx
  cases r with
  | ok a => exact .inl (hok a)
  | error e => exact .inr ⟨.error e, rfl, herr e⟩

/-- The rule for `try ... except`. -/
theorem Safe.catching {R Q : Except ε α → View σ Op Res → Prop} {caught : ε → Bool}
    {x : Fallible Op Res ε α} {handler : ε → Fallible Op Res ε α} {v : View σ Op Res}
    (hx : Safe exec D t R x.run v) (hok : ∀ a v, D.inv v → R (.ok a) v → Q (.ok a) v)
    (hcaught : ∀ e v, caught e → D.inv v → R (.error e) v →
      Safe exec D t Q (handler e).run v)
    (hother : ∀ e v, ¬ caught e → D.inv v → R (.error e) v → Q (.error e) v) :
    Safe exec D t Q (tryExcept caught x handler).run v := by
  refine Safe.bind (fun r => ?_) hx
  cases r with
  | ok a => exact .inr ⟨.ok a, rfl, hok a⟩
  | error e =>
    by_cases hc : caught e
    · refine .inl fun v hI hR => ?_
      simp only [hc, if_true]
      exact hcaught e v hc hI hR
    · refine .inr ⟨.error e, ?_, fun v => hother e v hc⟩
      simp only [hc, if_false, Bool.false_eq_true]

/-- The rule for `try ... finally`. -/
theorem Safe.finally {R Q : Except ε α → View σ Op Res → Prop} {x : Fallible Op Res ε α}
    {y : Prog Op Res Unit} {v : View σ Op Res} (hx : Safe exec D t R x.run v)
    (hy : ∀ r v, D.inv v → R r v → Safe exec D t (fun _ => Q r) y v) :
    Safe exec D t Q (tryFinally x y).run v :=
  Safe.seq hx fun r v hI hR => Safe.bind (fun _ => .inr ⟨r, rfl, fun _ _ h => h⟩) (hy r v hI hR)

/-! ### One thread and its surroundings -/

/-- Thread `t` runs `p` from `v` and returns `a` at `v'`, while the others act
within its rely. -/
inductive Amid (exec : Env → (o : Op) → σ → Option (Res o × σ)) (D : Discipline σ Op Res)
    (t : ℕ) : Prog Op Res α → View σ Op Res → α → View σ Op Res → Prop
  | ret (a : α) {v v' : View σ Op Res} (h : D.rely v v') (hI : D.inv v') :
      Amid exec D t (.ret a) v a v'
  | call {o : Op} {k : Res o → Prog Op Res α} {v v₁ v' : View σ Op Res} {a : α} {e : Env}
      {r : Res o} {s : σ} (h : D.rely v v₁) (hI : D.inv v₁)
      (he : exec e o v₁.state = some (r, s)) (hk : Amid exec D t (k r) (v₁.push t o r s) a v') :
      Amid exec D t (.call o k) v a v'

/-- A safe program that returns ends in its postcondition. -/
theorem Safe.amid {Q : α → View σ Op Res → Prop} {p : Prog Op Res α} {v v' : View σ Op Res}
    {a : α} (h : Safe exec D t Q p v) (hrun : Amid exec D t p v a v') : Q a v' := by
  induction hrun with
  | ret a hrely hI => exact h _ hrely hI
  | call hrely hI he _ ih => exact ih (h _ hrely hI _ _ _ he).2.2

/-! Composite programs run as their parts. -/

section Parts

variable {v v' : View σ Op Res} (hI : ∀ v, D.inv v)

include hI

theorem Amid.bind {p : Prog Op Res α} {f : α → Prog Op Res β} {b : β}
    (h : Amid exec D t (p.bind f) v b v') :
    ∃ a v₁, Amid exec D t p v a v₁ ∧ Amid exec D t (f a) v₁ b v' := by
  induction p generalizing v with
  | ret a => exact ⟨a, v, .ret a (D.refl v) (hI v), h⟩
  | call o k ih =>
    rw [Prog.call_bind] at h
    cases h with
    | call hrely hinv he hk =>
      obtain ⟨a, v₁, h₁, h₂⟩ := ih _ hk
      exact ⟨a, v₁, .call hrely hinv he h₁, h₂⟩

theorem Amid.bindE {x : Fallible Op Res ε α} {f : α → Fallible Op Res ε β} {b : β}
    (h : Amid exec D t (x >>= f).run v (.ok b) v') :
    ∃ a v₁, Amid exec D t x.run v (.ok a) v₁ ∧ Amid exec D t (f a).run v₁ (.ok b) v' := by
  rw [run_bind] at h
  obtain ⟨r, v₁, h₁, h₂⟩ := h.bind hI
  cases r with
  | ok a => exact ⟨a, v₁, h₁, h₂⟩
  | error e => cases h₂

/-- A `try ... except` that returns a value has done so at once, or in the
handler. -/
theorem Amid.tryExcept {caught : ε → Bool} {x : Fallible Op Res ε α}
    {handler : ε → Fallible Op Res ε α} {a : α}
    (h : Amid exec D t (Process.tryExcept caught x handler).run v (.ok a) v') :
    (∃ v₁, Amid exec D t x.run v (.ok a) v₁ ∧ D.rely v₁ v') ∨
      ∃ e v₁, caught e = true ∧ Amid exec D t x.run v (.error e) v₁ ∧
        Amid exec D t (handler e).run v₁ (.ok a) v' := by
  obtain ⟨r, v₁, h₁, h₂⟩ := Amid.bind hI h
  cases r with
  | ok a' =>
    cases h₂ with
    | ret _ hrely _ => exact .inl ⟨v₁, h₁, hrely⟩
  | error e =>
    by_cases hc : caught e
    · simp only [hc, if_true] at h₂
      exact .inr ⟨e, v₁, hc, h₁, h₂⟩
    · simp only [hc, Bool.false_eq_true, if_false] at h₂
      cases h₂

/-- A composite program raises in its first part, or ends as its second one. -/
theorem Amid.bindE_cases {x : Fallible Op Res ε α} {f : α → Fallible Op Res ε β} {r : Except ε β}
    (h : Amid exec D t (x >>= f).run v r v') :
    (∃ err v₁, r = .error err ∧ Amid exec D t x.run v (.error err) v₁ ∧ D.rely v₁ v') ∨
      ∃ a v₁, Amid exec D t x.run v (.ok a) v₁ ∧ Amid exec D t (f a).run v₁ r v' := by
  rw [run_bind] at h
  obtain ⟨r', v₁, h₁, h₂⟩ := h.bind hI
  cases r' with
  | ok a => exact .inr ⟨a, v₁, h₁, h₂⟩
  | error err =>
    cases h₂ with
    | ret _ hrely _ => exact .inl ⟨err, v₁, rfl, h₁, hrely⟩

/-- The outcome of `try ... finally` is that of its body. -/
theorem Amid.tryFinally {x : Fallible Op Res ε α} {y : Prog Op Res Unit} {r : Except ε α}
    (h : Amid exec D t (Process.tryFinally x y).run v r v') :
    ∃ v₁ v₂, Amid exec D t x.run v r v₁ ∧ Amid exec D t y v₁ () v₂ ∧ D.rely v₂ v' := by
  obtain ⟨r', v₁, h₁, hrest⟩ := Amid.bind hI h
  obtain ⟨u, v₂, h₂, hret⟩ := hrest.bind hI
  cases hret with
  | ret _ hrely _ => exact ⟨v₁, v₂, h₁, h₂, hrely⟩

end Parts

/-- What one operation of a thread has done. -/
theorem Amid.perform {o : Op} {r : Res o} {v v' : View σ Op Res}
    (h : Amid exec D t (Prog.perform o) v r v') :
    ∃ v₁ e s, D.rely v v₁ ∧ exec e o v₁.state = some (r, s) ∧ D.rely (v₁.push t o r s) v' := by
  cases h with
  | call hrely _ he hk =>
    cases hk with
    | ret _ hrely' _ => exact ⟨_, _, _, hrely, he, hrely'⟩

/-- What every operation of a program keeps, and the others too, is kept by a
run of the program. -/
theorem Amid.preserves {C : Op → Prop} {R : View σ Op Res → View σ Op Res → Prop}
    (htrans : ∀ u v w, R u v → R v w → R u w) (hrely : ∀ v v', D.rely v v' → R v v')
    (hstep : ∀ v e o r s, C o → exec e o v.state = some (r, s) → R v (v.push t o r s))
    {p : Prog Op Res α} {v v' : View σ Op Res} {a : α} (hp : Calls C p)
    (h : Amid exec D t p v a v') : R v v' := by
  induction h with
  | ret a h _ => exact hrely _ _ h
  | call h _ he _ ih =>
    exact htrans _ _ _ (hrely _ _ h)
      (htrans _ _ _ (hstep _ _ _ _ _ hp.head he) (ih (hp.tail _)))

theorem Amid.returns {R : α → Prop} {p : Prog Op Res α} {v v' : View σ Op Res} {a : α}
    (hp : Returns R p) (h : Amid exec D t p v a v') : R a := by
  induction h with
  | ret a _ _ => exact hp
  | call _ _ _ _ ih => exact ih (hp _)

/-- A thread that has not performed an operation with a result in `U` has only
performed operations in `C`. -/
theorem Amid.until {C : Op → Prop} {U : (o : Op) → Res o → Prop} {p : Prog Op Res α}
    {v v' : View σ Op Res} {a : α} (hD : ∀ v v', D.rely v v' → v'.history = v.history)
    (hp : Until C U p) (hv : ∀ l ∈ v.history, C l.op) (hrun : Amid exec D t p v a v') :
    (∃ l ∈ v'.history, U l.op l.res) ∨ ∀ l ∈ v'.history, C l.op := by
  -- labels are never removed
  have hkeep : ∀ {p : Prog Op Res α} {v v' : View σ Op Res} {a : α}, Amid exec D t p v a v' →
      ∀ l ∈ v.history, l ∈ v'.history := by
    intro p v v' a hrun
    induction hrun with
    | ret a hrely _ => exact fun l hl => by rwa [hD _ _ hrely]
    | call hrely _ _ _ ih =>
      exact fun l hl => ih l (List.mem_cons_of_mem _ (by rwa [hD _ _ hrely]))
  induction hrun with
  | ret a hrely _ =>
    rw [hD _ _ hrely]
    exact .inr hv
  | @call o k v v₁ v' a e r s hrely _ _ hk ih =>
    rcases hp.2 r with hU | hnext
    · exact .inl ⟨_, hkeep hk ⟨t, o, r⟩ List.mem_cons_self, hU⟩
    · refine ih hnext fun l hl => ?_
      rcases List.mem_cons.mp hl with rfl | hl
      · exact hp.1
      · rw [hD _ _ hrely] at hl
        exact hv l hl

/-- Execution of one thread along a list of environments, one for each
operation; `none` if an operation cannot be performed or the list is too
short. -/
def runWith (exec : Env → (o : Op) → σ → Option (Res o × σ)) (t : ℕ) :
    List Env → Prog Op Res α → View σ Op Res → Option (α × View σ Op Res)
  | _, .ret a, v => some (a, v)
  | [], .call _ _, _ => none
  | e :: es, .call o k, v =>
    match exec e o v.state with
    | none => none
    | some (r, s) => runWith exec t es (k r) (v.push t o r s)

theorem amid_of_runWith (hI : ∀ v, D.inv v) :
    ∀ {es : List Env} {p : Prog Op Res α} {v v' : View σ Op Res} {a : α},
      runWith exec t es p v = some (a, v') → Amid exec D t p v a v' := by
  intro es p
  induction p generalizing es with
  | ret b =>
    intro v v' a h
    rw [runWith] at h
    obtain ⟨rfl, rfl⟩ := Prod.mk.inj (Option.some.inj h)
    exact .ret _ (D.refl _) (hI _)
  | call o k ih =>
    intro v v' a h
    rcases es with _ | ⟨e, es⟩
    · rw [runWith] at h
      exact absurd h (by simp)
    · rw [runWith] at h
      rcases he : exec e o v.state with _ | ⟨r, s⟩
      · rw [he] at h
        exact absurd h (by simp)
      · rw [he] at h
        exact .call (D.refl _) (hI _) he (ih r h)

end Safe

/-! ### Systems of threads -/

/-- A system: the meaning of its operations, the calls that can be made on it,
when, and the program that each call runs. -/
structure System (Op : Type) (Res : Op → Type) (Env σ Call α : Type) where
  exec : Env → (o : Op) → σ → Option (Res o × σ)
  enabled : Call → σ → Bool
  body : Call → Prog Op Res α

/-- The state of a system: the shared view and, for every call made so far in
the order of the calls, what is left of its program. -/
structure Machine (Op : Type) (Res : Op → Type) (σ Call α : Type) where
  view : View σ Op Res
  threads : List (Call × Prog Op Res α)

namespace System

variable {Op : Type} {Res : Op → Type} {Env σ Call α : Type}

/-- One step: a new call, or the next operation of one thread. -/
inductive Step (S : System Op Res Env σ Call α) :
    Machine Op Res σ Call α → Machine Op Res σ Call α → Prop
  | invoke (m : Machine Op Res σ Call α) (c : Call) (h : S.enabled c m.view.state) :
      Step S m ⟨m.view, m.threads ++ [(c, S.body c)]⟩
  | perform (m : Machine Op Res σ Call α) (t : ℕ) (c : Call) (o : Op)
      (k : Res o → Prog Op Res α) (e : Env) (r : Res o) (s : σ)
      (ht : m.threads[t]? = some (c, .call o k))
      (he : S.exec e o m.view.state = some (r, s)) :
      Step S m ⟨m.view.push t o r s, m.threads.set t (c, k r)⟩

/-- The machine before any call. -/
def initial (s : σ) : Machine Op Res σ Call α := ⟨⟨s, []⟩, []⟩

/-- `m'` can be reached from `m` in finitely many steps. -/
def Reach (S : System Op Res Env σ Call α) :
    Machine Op Res σ Call α → Machine Op Res σ Call α → Prop :=
  Relation.ReflTransGen S.Step

/-- Every recorded operation belongs to a thread that exists. -/
def Recorded (m : Machine Op Res σ Call α) : Prop :=
  ∀ l ∈ m.view.history, l.tid < m.threads.length

variable {S : System Op Res Env σ Call α}

theorem Step.recorded {m m' : Machine Op Res σ Call α} (h : S.Step m m')
    (hm : Recorded m) : Recorded m' := by
  cases h with
  | invoke c _ =>
    intro l hl
    have := hm l hl
    simp only [List.length_append, List.length_cons, List.length_nil]
    omega
  | perform t c o k e r s ht he =>
    intro l hl
    rw [List.length_set]
    rcases List.mem_cons.mp hl with rfl | hl
    · exact (List.getElem?_eq_some_iff.mp ht).1
    · exact hm l hl

/-- What a step means for one thread `t` that exists afterwards: it was there
with the same program and only others acted, or it is new, or it performed its
next operation. -/
theorem Step.thread {m m' : Machine Op Res σ Call α} (h : S.Step m m') {t : ℕ} {c : Call}
    {p : Prog Op Res α} (ht : m'.threads[t]? = some (c, p)) :
    (m.threads[t]? = some (c, p) ∧
      (m'.view = m.view ∨ ∃ u d q o k e r s, u ≠ t ∧ m.threads[u]? = some (d, q) ∧
        q = .call o k ∧ S.exec e o m.view.state = some (r, s) ∧ m'.view = m.view.push u o r s)) ∨
    (t = m.threads.length ∧ p = S.body c ∧ S.enabled c m.view.state ∧ m'.view = m.view) ∨
    (∃ o k e r s, m.threads[t]? = some (c, .call o k) ∧
      S.exec e o m.view.state = some (r, s) ∧ p = k r ∧ m'.view = m.view.push t o r s) := by
  cases h with
  | invoke d henabled =>
    rw [List.getElem?_append] at ht
    by_cases hlt : t < m.threads.length
    · rw [if_pos hlt] at ht
      exact .inl ⟨ht, .inl rfl⟩
    · -- the new thread: its index is the number of threads there were
      rw [if_neg hlt, List.getElem?_singleton] at ht
      by_cases hzero : t - m.threads.length = 0
      · rw [if_pos hzero] at ht
        obtain ⟨rfl, rfl⟩ := Prod.mk.inj (Option.some.inj ht)
        exact .inr (.inl ⟨by omega, rfl, henabled, rfl⟩)
      · rw [if_neg hzero] at ht
        exact absurd ht (by simp)
  | perform u d o k e r s hu he =>
    by_cases hut : u = t
    · subst hut
      rw [List.getElem?_set_self (List.getElem?_eq_some_iff.mp hu).1] at ht
      obtain ⟨rfl, rfl⟩ := Prod.mk.inj (Option.some.inj ht)
      exact .inr (.inr ⟨o, k, e, r, s, hu, he, rfl, rfl⟩)
    · rw [List.getElem?_set_ne hut] at ht
      exact .inl ⟨ht, .inr ⟨u, d, _, o, k, e, r, s, hut, hu, rfl, he, rfl⟩⟩

/-- **Soundness of rely-guarantee reasoning.**  Give every thread `t` a
discipline `D t` with one common invariant, such that each thread guarantees
what all the others rely on.  If the invariant holds initially and every call
is safe from any view in which it can be made, then in every reachable machine
the invariant holds and every thread is safe. -/
theorem Reach.safe {D : ℕ → Discipline σ Op Res} {I : View σ Op Res → Prop}
    {Q : ℕ → Call → α → View σ Op Res → Prop} {s₀ : σ}
    (hI : ∀ t, (D t).inv = I)
    (hG : ∀ t u v v', t ≠ u → (D t).guar v v' → (D u).rely v v')
    (hinit : I ⟨s₀, []⟩)
    (hcall : ∀ t c v, I v → S.enabled c v.state → (∀ l ∈ v.history, l.tid < t) →
      Safe S.exec (D t) t (Q t c) (S.body c) v)
    {m : Machine Op Res σ Call α} (hm : S.Reach (initial s₀) m) :
    (I m.view ∧ Recorded m) ∧ ∀ t c p, m.threads[t]? = some (c, p) →
      Safe S.exec (D t) t (Q t c) p m.view := by
  induction hm with
  | refl =>
    refine ⟨⟨hinit, fun l hl => absurd hl List.not_mem_nil⟩, fun t c p ht => ?_⟩
    exact absurd ht (by simp [initial])
  | @tail m₁ m₂ _ hstep ih =>
    obtain ⟨⟨hIm, hrec⟩, hsafe⟩ := ih
    -- an operation of a safe thread keeps the invariant and its guarantee
    have hperform : ∀ t c o k e r s, m₁.threads[t]? = some (c, Prog.call o k) →
        S.exec e o m₁.view.state = some (r, s) → I (m₁.view.push t o r s) ∧
          (D t).guar m₁.view (m₁.view.push t o r s) ∧
          Safe S.exec (D t) t (Q t c) (k r) (m₁.view.push t o r s) := by
      intro t c o k e r s ht he
      have := hsafe t c _ ht _ ((D t).refl _) (by rw [hI t]; exact hIm) e r s he
      rwa [hI t] at this
    refine ⟨⟨?_, hstep.recorded hrec⟩, fun t c p ht => ?_⟩
    · cases hstep with
      | invoke c _ => exact hIm
      | perform t c o k e r s ht he => exact (hperform t c o k e r s ht he).1
    · rcases hstep.thread ht with ⟨hold, hview⟩ | ⟨rfl, rfl, henabled, hview⟩ |
        ⟨o, k, e, r, s, hold, he, rfl, hview⟩
      · rcases hview with hview | ⟨u, d, _, o, k, e, r, s, hut, hu, rfl, he, hview⟩
        · rw [hview]
          exact hsafe t c p hold
        · rw [hview]
          exact (hsafe t c p hold).interfere (hG u t _ _ hut (hperform u d o k e r s hu he).2.1)
      · rw [hview]
        exact hcall _ c _ hIm henabled fun l hl => hrec l hl
      · rw [hview]
        exact (hperform t c o k e r s hold he).2.2

/-- What one further step can do to the view when the thread that takes it is
safe: nothing, or an operation with an effect that its discipline guarantees. -/
theorem Step.guar {D : ℕ → Discipline σ Op Res} {Q : ℕ → Call → α → View σ Op Res → Prop}
    {m m' : Machine Op Res σ Call α} (hinv : ∀ t, (D t).inv m.view)
    (hsafe : ∀ t c p, m.threads[t]? = some (c, p) → Safe S.exec (D t) t (Q t c) p m.view)
    (h : S.Step m m') :
    m'.view = m.view ∨
      ∃ l, m'.view.history = l :: m.view.history ∧ (D l.tid).guar m.view m'.view := by
  cases h with
  | invoke c _ => exact .inl rfl
  | perform t c o k e r s ht he =>
    have hcur := hsafe t c _ ht
    exact .inr ⟨⟨t, o, r⟩, rfl, (hcur _ ((D t).refl _) (hinv t) e r s he).2.1⟩

/-! ### The operations of a thread -/

/-- An operation that a thread is about to perform is one that its call can
issue. -/
theorem Reach.calls {C : Call → Op → Prop} (hbody : ∀ c, Calls (C c) (S.body c)) {s₀ : σ}
    {m : Machine Op Res σ Call α} (hm : S.Reach (initial s₀) m) {t : ℕ} {c : Call}
    {p : Prog Op Res α} (ht : m.threads[t]? = some (c, p)) : Calls (C c) p := by
  induction hm generalizing t c p with
  | refl => exact absurd ht (by simp [initial])
  | tail _ hstep ih =>
    rcases hstep.thread ht with ⟨hold, -⟩ | ⟨-, rfl, -, -⟩ | ⟨o, k, e, r, s, hold, -, rfl, -⟩
    · exact ih hold
    · exact hbody c
    · exact (ih hold).tail r

/-- A thread that has not performed an operation with a result in `U` has only
performed operations in `C`, and that is all it can do next. -/
theorem Reach.until {c : Call} {C : Op → Prop} {U : (o : Op) → Res o → Prop}
    (hbody : Until C U (S.body c)) {s₀ : σ} {m : Machine Op Res σ Call α}
    (hm : S.Reach (initial s₀) m) :
    Recorded m ∧ ∀ t p, m.threads[t]? = some (c, p) →
      (∃ l ∈ m.view.history, l.tid = t ∧ U l.op l.res) ∨
      (Until C U p ∧ ∀ l ∈ m.view.history, l.tid = t → C l.op) := by
  induction hm with
  | refl =>
    refine ⟨fun l hl => absurd hl List.not_mem_nil, fun t p ht => ?_⟩
    exact absurd ht (by simp [initial])
  | @tail m₁ m₂ _ hstep ih =>
    obtain ⟨hrec, ih⟩ := ih
    refine ⟨hstep.recorded hrec, fun t p ht => ?_⟩
    -- The thread is old and idle, new, or has made the step itself.
    rcases hstep.thread ht with ⟨hold, hview⟩ | ⟨rfl, rfl, -, hview⟩ |
      ⟨o, k, e, r, s, hold, -, rfl, hview⟩
    · rcases hview with hview | ⟨u, d, _, o, k, e, r, s, hut, -, -, -, hview⟩
      · rw [hview]
        exact ih t p hold
      · rw [hview]
        rcases ih t p hold with ⟨l, hl, htid, hU⟩ | ⟨hunt, hall⟩
        · exact .inl ⟨l, List.mem_cons_of_mem _ hl, htid, hU⟩
        · refine .inr ⟨hunt, fun l hl htid => ?_⟩
          rcases List.mem_cons.mp hl with rfl | hl
          · exact absurd htid hut
          · exact hall l hl htid
    · refine .inr ⟨hbody, fun l hl heq => ?_⟩
      rw [hview] at hl
      have := hrec l hl
      omega
    · rw [hview]
      rcases ih t _ hold with ⟨l, hl, htid, hU⟩ | ⟨hunt, hall⟩
      · exact .inl ⟨l, List.mem_cons_of_mem _ hl, htid, hU⟩
      · rcases hunt.2 r with hU | hnext
        · exact .inl ⟨⟨t, o, r⟩, List.mem_cons_self, rfl, hU⟩
        · refine .inr ⟨hnext, fun l hl htid => ?_⟩
          rcases List.mem_cons.mp hl with rfl | hl
          · exact hunt.1
          · exact hall l hl htid

/-- Every operation that was performed is one that a call can issue. -/
theorem Reach.performed {C : Op → Prop} (hbody : ∀ c, Calls C (S.body c)) {s₀ : σ}
    {m : Machine Op Res σ Call α} (hm : S.Reach (initial s₀) m) :
    ∀ l ∈ m.view.history, C l.op := by
  induction hm with
  | refl => exact fun l hl => absurd hl List.not_mem_nil
  | tail hm hstep ih =>
    cases hstep with
    | invoke c _ => exact ih
    | perform t c o k e r s ht he =>
      intro l hl
      rcases List.mem_cons.mp hl with rfl | hl
      · exact (Reach.calls (C := fun _ => C) hbody hm ht).head
      · exact ih l hl

/-! ### Executable schedules -/

/-- One entry of a schedule: make a call, or let a thread go on under a given
environment. -/
inductive Move (Env Call : Type)
  | invoke (c : Call)
  | perform (t : ℕ) (e : Env)

/-- The machine after one move, if the move is possible. -/
def move (S : System Op Res Env σ Call α) :
    Move Env Call → Machine Op Res σ Call α → Option (Machine Op Res σ Call α)
  | .invoke c, m =>
    if S.enabled c m.view.state then some ⟨m.view, m.threads ++ [(c, S.body c)]⟩ else none
  | .perform t e, m =>
    match m.threads[t]? with
    | some (c, .call o k) =>
      match S.exec e o m.view.state with
      | some (r, s) => some ⟨m.view.push t o r s, m.threads.set t (c, k r)⟩
      | none => none
    | _ => none

/-- The machine after a whole schedule. -/
def moves (S : System Op Res Env σ Call α) :
    List (Move Env Call) → Machine Op Res σ Call α → Option (Machine Op Res σ Call α)
  | [], m => some m
  | a :: as, m => (S.move a m).bind (S.moves as)

theorem step_of_move {a : Move Env Call} {m m' : Machine Op Res σ Call α}
    (h : S.move a m = some m') : S.Step m m' := by
  cases a with
  | invoke c =>
    rw [move] at h
    by_cases hc : S.enabled c m.view.state
    · rw [if_pos hc, Option.some_inj] at h
      subst h
      exact .invoke m c hc
    · rw [if_neg hc] at h
      exact absurd h (by simp)
  | perform t e =>
    rw [move] at h
    rcases ht : m.threads[t]? with _ | ⟨c, p⟩
    · rw [ht] at h
      exact absurd h (by simp)
    · rw [ht] at h
      cases p with
      | ret a => exact absurd h (by simp)
      | call o k =>
        rcases he : S.exec e o m.view.state with _ | ⟨r, s⟩
        · simp only [he] at h
          exact absurd h (by simp)
        · simp only [he, Option.some_inj] at h
          subst h
          exact .perform m t c o k e r s ht he

theorem reach_of_moves {as : List (Move Env Call)} {m m' : Machine Op Res σ Call α}
    (h : S.moves as m = some m') : S.Reach m m' := by
  induction as generalizing m with
  | nil =>
    rw [moves, Option.some_inj] at h
    subst h
    exact .refl
  | cons a as ih =>
    rw [moves] at h
    obtain ⟨m₁, h₁, h₂⟩ := Option.bind_eq_some_iff.mp h
    exact (Relation.ReflTransGen.single (step_of_move h₁)).trans (ih h₂)

/-- The machines that a schedule visits, up to its first impossible move. -/
def visits (S : System Op Res Env σ Call α) :
    List (Move Env Call) → Machine Op Res σ Call α → List (Machine Op Res σ Call α)
  | [], _ => []
  | a :: as, m =>
    match S.move a m with
    | some m' => m' :: S.visits as m'
    | none => []

/-- A schedule visits a run of the system. -/
theorem isChain_visits (as : List (Move Env Call)) (m : Machine Op Res σ Call α) :
    List.IsChain S.Step (m :: S.visits as m) := by
  induction as generalizing m with
  | nil => exact List.IsChain.singleton m
  | cons a as ih =>
    rw [visits]
    rcases hm : S.move a m with _ | m'
    · exact List.IsChain.singleton m
    · exact List.isChain_cons_cons.mpr ⟨step_of_move hm, ih m'⟩

/-- Every machine of a run can be reached from its first one. -/
theorem reach_of_isChain {m : Machine Op Res σ Call α} {ms : List (Machine Op Res σ Call α)}
    (h : List.IsChain S.Step (m :: ms)) : ∀ m' ∈ m :: ms, S.Reach m m' := by
  induction ms generalizing m with
  | nil =>
    intro m' hm'
    rw [List.mem_singleton.mp hm']
    exact .refl
  | cons m₁ ms ih =>
    obtain ⟨hstep, hrest⟩ := List.isChain_cons_cons.mp h
    intro m' hm'
    rcases List.mem_cons.mp hm' with rfl | hm'
    · exact .refl
    · exact .head hstep (ih hrest m' hm')

end System

-- programs are followed by the rules above, never by unfolding
attribute [irreducible] Safe

end Process
