/-
Programs that obey a protocol.

A protocol has phases.  Each phase allows some operations, and the result of an
operation leads to the next phase.  A program obeys the protocol if, whatever the
results of its operations are, it only issues operations that its phase allows.
In a system of threads the phase of a thread is a function of the history: it
depends on the operations of this thread alone.

* `Obeys P Post p q` — from phase `q` on, `p` obeys `P`, and it returns in a phase
  that `Post` admits;
* `obeys_bindE`, `obeys_tryExcept`, `obeys_tryFinally`, `obeys_op` — the rules for
  composite programs; `obeys_of_calls` — operations that do not matter to a phase;
* `Preserves P I p` — `p` comes back to the phases in `I`, with the same rules;
* `Protocol.phase` — the phase of a thread after a history;
* `Trace p ops a` — with these operations and results `p` returns `a`; `recorder` — the
  protocols whose phase is all that a thread did; `obeys_recorder` — what is recorded while
  a program runs is a trace of it;
* **`System.Reach.obeys`** — in every reachable state, what is left of a thread's
  program obeys the protocol from the thread's phase on; `System.Reach.allowed` — what was
  performed was allowed; `System.Reach.phase_of_allows` — invariants of the phases;
  `System.Reach.phase_view` — invariants that relate the phase of a thread to the shared
  state.
-/
import CliExecutionPlatform.Interleaving

namespace Process

/-- The phase after an operation with its result, and the operations that a phase
allows. -/
structure Protocol (Op : Type) (Res : Op → Type) (Q : Type) where
  next : Q → (o : Op) → Res o → Q
  allows : Q → Op → Prop

section Obeys

variable {Op : Type} {Res : Op → Type} {Q α β ε : Type}

/-- From phase `q` on, `p` obeys the protocol, and it can only return in a phase
admitted by `Post`. -/
def Obeys (P : Protocol Op Res Q) (Post : α → Q → Prop) : Prog Op Res α → Q → Prop
  | .ret a, q => Post a q
  | .call o k, q => P.allows q o ∧ ∀ r, Obeys P Post (k r) (P.next q o r)

variable {P : Protocol Op Res Q} {q : Q}

theorem obeys_ret {Post : α → Q → Prop} {a : α} (h : Post a q) :
    Obeys P Post (.ret a : Prog Op Res α) q := h

theorem Obeys.head {Post : α → Q → Prop} {o : Op} {k : Res o → Prog Op Res α}
    (h : Obeys P Post (.call o k) q) : P.allows q o := h.1

theorem Obeys.tail {Post : α → Q → Prop} {o : Op} {k : Res o → Prog Op Res α}
    (h : Obeys P Post (.call o k) q) (r : Res o) : Obeys P Post (k r) (P.next q o r) := h.2 r

theorem Obeys.returned {Post : α → Q → Prop} {a : α}
    (h : Obeys P Post (.ret a : Prog Op Res α) q) : Post a q := h

theorem Obeys.mono {Post Post' : α → Q → Prop} {p : Prog Op Res α} (h : Obeys P Post p q)
    (hpost : ∀ a q', Post a q' → Post' a q') : Obeys P Post' p q := by
  induction p generalizing q with
  | ret a => exact hpost a q h
  | call o k ih => exact ⟨h.1, fun r => ih r (h.2 r)⟩

/-- What the program can return at all is part of what it returns here. -/
theorem Obeys.returns {Post : α → Q → Prop} {R : α → Prop} {p : Prog Op Res α}
    (h : Obeys P Post p q) (hR : Returns R p) : Obeys P (fun a q' => Post a q' ∧ R a) p q := by
  induction p generalizing q with
  | ret a => exact ⟨h, hR⟩
  | call o k ih => exact ⟨h.1, fun r => ih r (h.2 r) (hR r)⟩

/-- Operations that do not matter to the phase. -/
theorem obeys_of_calls {S : Op → Prop} {p : Prog Op Res α} (h : Calls S p)
    (hS : ∀ o, S o → P.allows q o ∧ ∀ r, P.next q o r = q) :
    Obeys P (fun _ q' => q' = q) p q := by
  induction p with
  | ret a => rfl
  | call o k ih =>
    obtain ⟨hallows, hnext⟩ := hS o h.head
    refine ⟨hallows, fun r => ?_⟩
    rw [hnext r]
    exact ih r (h.tail r)

/-- In a phase that allows everything and is never left, every program obeys. -/
theorem obeys_sink {Post : α → Q → Prop} (hallows : ∀ o, P.allows q o)
    (hnext : ∀ o r, P.next q o r = q) (hpost : ∀ a, Post a q) (p : Prog Op Res α) :
    Obeys P Post p q := by
  induction p with
  | ret a => exact hpost a
  | call o k ih =>
    refine ⟨hallows o, fun r => ?_⟩
    rw [hnext o r]
    exact ih r

theorem obeys_bind {R : α → Q → Prop} {Post : β → Q → Prop} {p : Prog Op Res α}
    {f : α → Prog Op Res β} (hp : Obeys P R p q)
    (hf : ∀ a q', R a q' → Obeys P Post (f a) q') : Obeys P Post (p.bind f) q := by
  induction p generalizing q with
  | ret a => exact hf a q hp
  | call o k ih => exact ⟨hp.1, fun r => ih r (hp.2 r)⟩

theorem obeys_bindE {R : Except ε α → Q → Prop} {Post : Except ε β → Q → Prop}
    {x : Fallible Op Res ε α} {f : α → Fallible Op Res ε β} (hx : Obeys P R x.run q)
    (hok : ∀ a q', R (.ok a) q' → Obeys P Post (f a).run q')
    (herr : ∀ e q', R (.error e) q' → Post (.error e) q') : Obeys P Post (x >>= f).run q := by
  rw [run_bind]
  refine obeys_bind hx fun r q' hr => ?_
  cases r with
  | ok a => exact hok a q' hr
  | error e => exact herr e q' hr

theorem obeys_tryExcept {R Post : Except ε α → Q → Prop} {caught : ε → Bool}
    {x : Fallible Op Res ε α} {h : ε → Fallible Op Res ε α} (hx : Obeys P R x.run q)
    (hok : ∀ a q', R (.ok a) q' → Post (.ok a) q')
    (hcaught : ∀ e q', caught e = true → R (.error e) q' → Obeys P Post (h e).run q')
    (hpass : ∀ e q', caught e = false → R (.error e) q' → Post (.error e) q') :
    Obeys P Post (tryExcept caught x h).run q := by
  refine obeys_bind hx fun r q' hr => ?_
  cases r with
  | ok a => exact hok a q' hr
  | error e =>
    show Obeys P Post (if caught e then (h e).run else .ret (.error e)) q'
    by_cases hc : caught e
    · rw [if_pos hc]
      exact hcaught e q' hc hr
    · rw [if_neg hc]
      exact hpass e q' (by simpa using hc) hr

theorem obeys_tryFinally {R Post : Except ε α → Q → Prop} {x : Fallible Op Res ε α}
    {y : Prog Op Res Unit} (hx : Obeys P R x.run q)
    (hy : ∀ r q', R r q' → Obeys P (fun _ => Post r) y q') :
    Obeys P Post (tryFinally x y).run q :=
  obeys_bind hx fun r _ hr => obeys_bind (hy r _ hr) fun _ _ h => h

theorem obeys_op {o : Op} {Post : Res o → Q → Prop} (hallows : P.allows q o)
    (hpost : ∀ r, Post r (P.next q o r)) :
    Obeys P Post (Prog.perform o : Prog Op Res (Res o)) q := ⟨hallows, hpost⟩

/-! ### Programs that come back -/

/-- From every phase in `I`, `p` obeys the protocol and returns in `I`. -/
def Preserves (P : Protocol Op Res Q) (I : Q → Prop) (p : Prog Op Res α) : Prop :=
  ∀ q, I q → Obeys P (fun _ => I) p q

variable {I : Q → Prop}

theorem preserves_ret (a : α) : Preserves P I (.ret a : Prog Op Res α) := fun _ hq => obeys_ret hq

/-- Operations that the phases in `I` allow and that do not lead out of them. -/
theorem preserves_of_kept {S : Op → Prop} {p : Prog Op Res α} (h : Calls S p)
    (hS : ∀ q, I q → ∀ o, S o → P.allows q o ∧ ∀ r, I (P.next q o r)) : Preserves P I p := by
  induction p with
  | ret a => exact preserves_ret a
  | call o k ih =>
    intro q hq
    obtain ⟨hallows, hkept⟩ := hS q hq o h.head
    exact ⟨hallows, fun r => ih r (h.tail r) _ (hkept r)⟩

theorem preserves_of_calls {S : Op → Prop} {p : Prog Op Res α} (h : Calls S p)
    (hS : ∀ q, I q → ∀ o, S o → P.allows q o ∧ ∀ r, P.next q o r = q) : Preserves P I p :=
  preserves_of_kept h fun q hq o ho =>
    ⟨(hS q hq o ho).1, fun r => by rw [(hS q hq o ho).2 r]; exact hq⟩

theorem preserves_bind {p : Prog Op Res α} {f : α → Prog Op Res β} (hp : Preserves P I p)
    (hf : ∀ a, Preserves P I (f a)) : Preserves P I (p.bind f) :=
  fun q hq => obeys_bind (hp q hq) fun a q' hq' => hf a q' hq'

theorem preserves_bindE {x : Fallible Op Res ε α} {f : α → Fallible Op Res ε β}
    (hx : Preserves P I x.run) (hf : ∀ a, Preserves P I (f a).run) :
    Preserves P I (x >>= f).run :=
  fun q hq => obeys_bindE (hx q hq) (fun a q' hq' => hf a q' hq') fun _ _ hq' => hq'

/-- The second part only matters for the values that the first one can return. -/
theorem preserves_bindE_of_returns {R : α → Prop} {x : Fallible Op Res ε α}
    {f : α → Fallible Op Res ε β} (hx : Preserves P I x.run)
    (hR : Returns (fun r => ∀ a, r = .ok a → R a) x.run)
    (hf : ∀ a, R a → Preserves P I (f a).run) : Preserves P I (x >>= f).run :=
  fun q hq => obeys_bindE ((hx q hq).returns hR) (fun a q' h => hf a (h.2 a rfl) q' h.1)
    fun _ _ h => h.1

theorem preserves_tryExcept {caught : ε → Bool} {x : Fallible Op Res ε α}
    {h : ε → Fallible Op Res ε α} (hx : Preserves P I x.run)
    (hh : ∀ e, Preserves P I (h e).run) : Preserves P I (tryExcept caught x h).run :=
  fun q hq => obeys_tryExcept (hx q hq) (fun _ _ hq' => hq')
    (fun e q' _ hq' => hh e q' hq') fun _ _ _ hq' => hq'

theorem preserves_tryFinally {x : Fallible Op Res ε α} {y : Prog Op Res Unit}
    (hx : Preserves P I x.run) (hy : Preserves P I y) : Preserves P I (tryFinally x y).run :=
  fun q hq => obeys_tryFinally (hx q hq) fun _ q' hq' => hy q' hq'

/-! ### What a program did -/

/-- `p` issues these operations, receives these results and returns `a`. -/
inductive Trace : Prog Op Res α → List ((o : Op) × Res o) → α → Prop
  | ret (a : α) : Trace (.ret a) [] a
  | call {o : Op} {k : Res o → Prog Op Res α} {r : Res o} {ops : List ((o : Op) × Res o)} {a : α} :
      Trace (k r) ops a → Trace (.call o k) (⟨o, r⟩ :: ops) a

/-- A protocol whose phase is what was done so far. -/
def recorder (allows : List ((o : Op) × Res o) → Op → Prop) :
    Protocol Op Res (List ((o : Op) × Res o)) where
  next done o r := done ++ [⟨o, r⟩]
  allows := allows

/-- What is recorded while a program runs is a trace of it. -/
theorem obeys_recorder {allows : List ((o : Op) × Res o) → Op → Prop}
    {Post : α → List ((o : Op) × Res o) → Prop} {p : Prog Op Res α}
    {done : List ((o : Op) × Res o)} (h : Obeys (recorder allows) Post p done) :
    Obeys (recorder allows)
      (fun a done' => Post a done' ∧ ∃ ops, done' = done ++ ops ∧ Trace p ops a) p done := by
  induction p generalizing done with
  | ret a => exact ⟨h, [], (List.append_nil done).symm, .ret a⟩
  | call o k ih =>
    refine ⟨h.1, fun r => (ih r (h.2 r)).mono ?_⟩
    rintro a _ ⟨hpost, ops, rfl, htrace⟩
    exact ⟨hpost, ⟨o, r⟩ :: ops, List.append_assoc .., .call htrace⟩

end Obeys

/-! ### The phase of a thread -/

section Phase

variable {Op : Type} {Res : Op → Type} {Q : Type}

/-- The phase of thread `t` after a history, from the phase `q₀` on. -/
def Protocol.phase (P : Protocol Op Res Q) (q₀ : Q) (t : ℕ) : List (Label Op Res) → Q
  | [] => q₀
  | l :: h => if l.tid = t then P.next (P.phase q₀ t h) l.op l.res else P.phase q₀ t h

variable {P : Protocol Op Res Q} {q₀ : Q} {t : ℕ} {h : List (Label Op Res)}

theorem Protocol.phase_own (o : Op) (r : Res o) :
    P.phase q₀ t (⟨t, o, r⟩ :: h) = P.next (P.phase q₀ t h) o r := if_pos rfl

theorem Protocol.phase_other {l : Label Op Res} (hl : l.tid ≠ t) :
    P.phase q₀ t (l :: h) = P.phase q₀ t h := if_neg hl

/-- A thread without operations is in the first phase. -/
theorem Protocol.phase_of_forall_ne (hh : ∀ l ∈ h, l.tid ≠ t) : P.phase q₀ t h = q₀ := by
  induction h with
  | nil => rfl
  | cons l h ih =>
    rw [P.phase_other (hh l List.mem_cons_self)]
    exact ih fun l' hl' => hh l' (List.mem_cons_of_mem _ hl')

/-- The phase depends on what operations lead to, not on what is allowed. -/
theorem Protocol.phase_congr {P' : Protocol Op Res Q} (hnext : P.next = P'.next)
    (h : List (Label Op Res)) : P.phase q₀ t h = P'.phase q₀ t h := by
  induction h with
  | nil => rfl
  | cons l h ih => simp only [Protocol.phase, hnext, ih]

/-- What thread `t` did, in order. -/
def doneBy (t : ℕ) (h : List (Label Op Res)) : List ((o : Op) × Res o) :=
  ((h.filter fun l => l.tid = t).map fun l => ⟨l.op, l.res⟩).reverse

theorem phase_recorder {allows : List ((o : Op) × Res o) → Op → Prop} :
    (recorder allows).phase [] t h = doneBy t h := by
  induction h with
  | nil => rfl
  | cons l h ih =>
    by_cases hl : l.tid = t
    · rw [Protocol.phase, if_pos hl, ih]
      simp [recorder, doneBy, hl]
    · rw [Protocol.phase_other hl, ih]
      simp [doneBy, hl]

end Phase

namespace System

variable {Op : Type} {Res : Op → Type} {Env σ Call α Q : Type}
  {S : System Op Res Env σ Call α}

theorem Reach.recorded {s₀ : σ} {m : Machine Op Res σ Call α}
    (hm : S.Reach (initial s₀) m) : Recorded m := by
  induction hm with
  | refl => exact fun l hl => absurd hl List.not_mem_nil
  | tail _ hstep ih => exact hstep.recorded ih

/-- A thread goes on with the call it was made for. -/
theorem Step.call_kept {m m' : Machine Op Res σ Call α} (h : S.Step m m') {t : ℕ} {c : Call}
    {p : Prog Op Res α} (ht : m.threads[t]? = some (c, p)) :
    ∃ p', m'.threads[t]? = some (c, p') := by
  have hlt := (List.getElem?_eq_some_iff.mp ht).1
  cases h with
  | invoke d _ => exact ⟨p, by rw [List.getElem?_append_left hlt, ht]⟩
  | perform u d o k e r s hu he =>
    by_cases hut : u = t
    · subst hut
      obtain ⟨rfl, -⟩ := Prod.mk.inj (Option.some.inj (hu.symm.trans ht))
      exact ⟨k r, List.getElem?_set_self hlt⟩
    · exact ⟨p, by rw [List.getElem?_set_ne hut, ht]⟩

theorem Reach.call_kept {m m' : Machine Op Res σ Call α} (h : S.Reach m m') {t : ℕ} {c : Call}
    {p : Prog Op Res α} (ht : m.threads[t]? = some (c, p)) :
    ∃ p', m'.threads[t]? = some (c, p') := by
  induction h with
  | refl => exact ⟨p, ht⟩
  | tail _ hstep ih =>
    obtain ⟨p₁, hp₁⟩ := ih
    exact hstep.call_kept hp₁

/-- A relation between the programs of threads and their phases: it holds of the body
of every call in the first phase, and each operation keeps it. -/
theorem Reach.phase_rule {P : Call → Protocol Op Res Q} {q₀ : Q}
    {R : Call → Prog Op Res α → Q → Prop} (hbody : ∀ c, R c (S.body c) q₀)
    (hcall : ∀ c q o k, R c (.call o k) q → ∀ r, R c (k r) ((P c).next q o r))
    {s₀ : σ} {m : Machine Op Res σ Call α} (hm : S.Reach (initial s₀) m) {t : ℕ} {c : Call}
    {p : Prog Op Res α} (ht : m.threads[t]? = some (c, p)) :
    R c p ((P c).phase q₀ t m.view.history) := by
  induction hm generalizing t c p with
  | refl => exact absurd ht (by simp [initial])
  | @tail m₁ m₂ hm hstep ih =>
    rcases hstep.thread ht with ⟨hold, hview⟩ | ⟨rfl, rfl, -, hview⟩ |
      ⟨o, k, e, r, s, hold, -, rfl, hview⟩
    · rcases hview with hview | ⟨u, d, _, o, k, e, r, s, hut, -, -, -, hview⟩
      · rw [hview]
        exact ih hold
      · -- another thread has acted
        rw [hview, View.push_history, Protocol.phase_other hut]
        exact ih hold
    · rw [hview, Protocol.phase_of_forall_ne]
      · exact hbody c
      · intro l hl
        exact Nat.ne_of_lt (Reach.recorded hm l hl)
    · rw [hview, View.push_history, Protocol.phase_own]
      exact hcall c _ o k (ih hold) r

section Reach

variable {P : Call → Protocol Op Res Q} {Post : Call → α → Q → Prop} {q₀ : Q}
  (hbody : ∀ c, Obeys (P c) (Post c) (S.body c) q₀) {s₀ : σ} {m : Machine Op Res σ Call α}
  (hm : S.Reach (initial s₀) m) {t : ℕ} {c : Call} {p : Prog Op Res α}
  (ht : m.threads[t]? = some (c, p))

include hbody hm ht

/-- **Threads obey their protocols.**  If the body of every call obeys the
protocol of the call, then in every reachable state the rest of every thread's
program obeys it from the thread's phase on. -/
theorem Reach.obeys : Obeys (P c) (Post c) p ((P c).phase q₀ t m.view.history) :=
  Reach.phase_rule (R := fun c => Obeys (P c) (Post c)) hbody
    (fun _ _ _ _ h r => h.tail r) hm ht

/-- What the operations that a phase allows keep holds of the phases of all threads. -/
theorem Reach.phase_of_allows {J : Call → Q → Prop} (hfirst : ∀ c, J c q₀)
    (hnext : ∀ c q o r, J c q → (P c).allows q o → J c ((P c).next q o r)) :
    J c ((P c).phase q₀ t m.view.history) :=
  (Reach.phase_rule (R := fun c p q => J c q ∧ Obeys (P c) (Post c) p q)
    (fun c => ⟨hfirst c, hbody c⟩)
    (fun c q o _ h r => ⟨hnext c q o r h.1 h.2.head, h.2.tail r⟩) hm ht).1

end Reach

/-- Every operation that was performed was the next one of its thread in a reachable state,
the one with the history up to it. -/
theorem Reach.performed_at {s₀ : σ} {m : Machine Op Res σ Call α} (hm : S.Reach (initial s₀) m)
    {l : Label Op Res} {before : List (Label Op Res)} (hl : l :: before <:+ m.view.history) :
    ∃ m₁ c k, S.Reach (initial s₀) m₁ ∧ S.Reach m₁ m ∧ m₁.view.history = before ∧
      m₁.threads[l.tid]? = some (c, .call l.op k) := by
  induction hm with
  | refl => exact absurd hl.length_le (by simp [initial])
  | @tail m₁ m₂ hm hstep ih =>
    have hold : l :: before <:+ m₁.view.history → ∃ m₀ c k, S.Reach (initial s₀) m₀ ∧
        S.Reach m₀ m₂ ∧ m₀.view.history = before ∧ m₀.threads[l.tid]? = some (c, .call l.op k) := by
      intro hl
      obtain ⟨m₀, c, k, hfirst, hrest, hat⟩ := ih hl
      exact ⟨m₀, c, k, hfirst, hrest.tail hstep, hat⟩
    have hlast := hstep
    cases hstep with
    | invoke c _ => exact hold hl
    | perform t c o k e r s ht he =>
      rcases List.suffix_cons_iff.mp hl with heq | hl
      · obtain ⟨rfl, rfl⟩ := List.cons.inj heq
        exact ⟨m₁, c, k, hm, .single hlast, rfl, ht⟩
      · exact hold hl

/-- Every operation that was performed was allowed in the phase that its thread was in. -/
theorem Reach.allowed {P : Call → Protocol Op Res Q} {Post : Call → α → Q → Prop} {q₀ : Q}
    (hbody : ∀ c, Obeys (P c) (Post c) (S.body c) q₀) {s₀ : σ} {m : Machine Op Res σ Call α}
    (hm : S.Reach (initial s₀) m) {l : Label Op Res} {before : List (Label Op Res)}
    (hl : l :: before <:+ m.view.history) :
    ∃ c p, m.threads[l.tid]? = some (c, p) ∧ (P c).allows ((P c).phase q₀ l.tid before) l.op := by
  obtain ⟨m₁, c, k, hfirst, hrest, rfl, ht⟩ := Reach.performed_at hm hl
  obtain ⟨p, hp⟩ := Reach.call_kept hrest ht
  exact ⟨c, p, hp, (Reach.obeys hbody hfirst ht).head⟩

/-- Every operation that was performed is one that its thread's call may issue. -/
theorem Reach.performed_by {C : Call → Op → Prop} (hbody : ∀ c, Calls (C c) (S.body c)) {s₀ : σ}
    {m : Machine Op Res σ Call α} (hm : S.Reach (initial s₀) m) {l : Label Op Res}
    (hl : l ∈ m.view.history) : ∃ c p, m.threads[l.tid]? = some (c, p) ∧ C c l.op := by
  obtain ⟨after, before, hsplit⟩ := List.append_of_mem hl
  -- a protocol with one phase
  have hobeys : ∀ c, Obeys ⟨fun q _ _ => q, fun _ o => C c o⟩ (fun _ q => q = ()) (S.body c) () :=
    fun c => obeys_of_calls (hbody c) fun o ho => ⟨ho, fun _ => rfl⟩
  exact Reach.allowed hobeys hm ⟨after, hsplit.symm⟩

/-- **Phases and the shared state.**  A relation between the phase of a thread and the view
holds in every reachable state if it holds when the call is made, if the operations of the
thread that its phase allows keep it, and if the operations of the other threads do. -/
theorem Reach.phase_view {P : Call → Protocol Op Res Q} {Post : Call → α → Q → Prop} {q₀ : Q}
    (hbody : ∀ c, Obeys (P c) (Post c) (S.body c) q₀) {s₀ : σ}
    {J : Call → ℕ → Q → View σ Op Res → Prop}
    (hfirst : ∀ m c t, S.Reach (initial s₀) m → (∀ l ∈ m.view.history, l.tid ≠ t) →
      J c t q₀ m.view)
    (hown : ∀ m c t q o k e r s, S.Reach (initial s₀) m →
      m.threads[t]? = some (c, .call o k) → (P c).allows q o →
      S.exec e o m.view.state = some (r, s) → J c t q m.view →
      J c t ((P c).next q o r) (m.view.push t o r s))
    (hother : ∀ m m' c t q l, S.Reach (initial s₀) m → S.Step m m' →
      m'.view.history = l :: m.view.history → l.tid ≠ t → J c t q m.view → J c t q m'.view)
    {m : Machine Op Res σ Call α} (hm : S.Reach (initial s₀) m) {t : ℕ} {c : Call}
    {p : Prog Op Res α} (ht : m.threads[t]? = some (c, p)) :
    J c t ((P c).phase q₀ t m.view.history) m.view := by
  induction hm generalizing t c p with
  | refl => exact absurd ht (by simp [initial])
  | @tail m₁ m₂ hm hstep ih =>
    -- The thread has not moved, is new, or has made the step.
    rcases hstep.thread ht with ⟨hold, hview⟩ | ⟨rfl, rfl, -, hview⟩ |
      ⟨o, k, e, r, s, hold, he, rfl, hview⟩
    · rcases hview with hview | ⟨u, d, _, o, k, e, r, s, hut, -, -, -, hview⟩
      · rw [hview]
        exact ih hold
      · have hlabel : m₂.view.history = ⟨u, o, r⟩ :: m₁.view.history := by
          rw [hview, View.push_history]
        rw [hlabel, Protocol.phase_other hut]
        exact hother m₁ m₂ c t _ _ hm hstep hlabel hut (ih hold)
    · have hnew : ∀ l ∈ m₁.view.history, l.tid ≠ m₁.threads.length := fun l hl =>
        Nat.ne_of_lt (Reach.recorded hm l hl)
      rw [hview, Protocol.phase_of_forall_ne hnew]
      exact hfirst m₁ c _ hm hnew
    · rw [hview, View.push_history, Protocol.phase_own]
      exact hown m₁ c t _ o k e r s hm hold (Reach.obeys hbody hm hold).head he (ih hold)

end System

attribute [irreducible] Obeys

end Process
