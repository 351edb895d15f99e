/-
Counting semaphores in a system of threads.

A family of semaphores is shared by the threads.  An operation may wait for a slot
of one of them, and its result says what it has done: taken a slot, given one back,
or neither.  The protocol of a thread is a stack of the slots that it holds: the stack
decides which semaphores the thread may wait for, and a thread gives back the slot that
it took last.

* `Semaphores`, `Semaphores.protocol` — a family and its protocol;
* `Semaphores.Balanced` — the operations count the slots right;
* **`System.Reach.slots_accounted`** — in every reachable state, of every semaphore,
  the free slots and those that threads hold are the slots there were at first;
* **`System.Reach.slot_left`** — a semaphore whose slots are only taken under a slot of
  another one, and that has as many, always has a free slot for the holders of the other.
-/
import CliExecutionPlatform.Protocol
import Mathlib.Algebra.BigOperators.Group.Finset.Basic
import Mathlib.Algebra.Order.BigOperators.Group.Finset

namespace Process

/-- What an operation has done to the semaphores. -/
inductive SlotEvent (κ : Type)
  | take (k : κ)
  | give (k : κ)
  | pass

/-- A family of semaphores, indexed by `κ`: the one that an operation waits for, what
an operation has done with this result, and the free slots of a state. -/
structure Semaphores (Op : Type) (Res : Op → Type) (σ κ : Type) where
  waits : Op → Option κ
  event : (o : Op) → Res o → SlotEvent κ
  free : σ → κ → ℕ

variable {Op : Type} {Res : Op → Type} {Env σ κ α Call : Type} [DecidableEq κ]

namespace SlotEvent

/-- The slots that a thread holds afterwards. -/
def after : SlotEvent κ → List κ → List κ
  | take k, held => k :: held
  | give k, held => held.erase k
  | pass, held => held

/-- The number of slots of `k` that were taken. -/
def taken (k : κ) : SlotEvent κ → ℕ
  | take k' => if k' = k then 1 else 0
  | give _ | pass => 0

/-- The number of slots of `k` that were given back. -/
def given (k : κ) : SlotEvent κ → ℕ
  | give k' => if k' = k then 1 else 0
  | take _ | pass => 0

/-- A thread that gives back the slot it took last counts its slots right. -/
theorem count_after {ev : SlotEvent κ} {held : List κ}
    (h : ∀ k, ev = .give k → ∃ rest, held = k :: rest) (k : κ) :
    (ev.after held).count k + ev.given k = held.count k + ev.taken k := by
  cases ev with
  | take k' =>
    show (k' :: held).count k + 0 = held.count k + if k' = k then 1 else 0
    rw [List.count_cons]
    simp only [beq_iff_eq, Nat.add_zero]
  | give k' =>
    obtain ⟨rest, rfl⟩ := h k' rfl
    show ((k' :: rest).erase k').count k + (if k' = k then 1 else 0) = (k' :: rest).count k + 0
    rw [List.erase_cons_head, List.count_cons]
    simp only [beq_iff_eq, Nat.add_zero]
  | pass => rfl

end SlotEvent

namespace Semaphores

variable (M : Semaphores Op Res σ κ)

/-- The stack of slots of a thread that may wait for `k` while it holds `held` if
`may held k`. -/
def protocol (may : List κ → κ → Prop) : Protocol Op Res (List κ) where
  next := fun held o r => (M.event o r).after held
  allows := fun held o => (∀ k, M.waits o = some k → may held k) ∧
    ∀ r k, M.event o r = .give k → ∃ rest, held = k :: rest

/-- The slots that thread `t` holds after a history. -/
def held (t : ℕ) (h : List (Label Op Res)) : List κ :=
  (M.protocol fun _ _ => False).phase [] t h

theorem phase_eq_held (may : List κ → κ → Prop) (t : ℕ) (h : List (Label Op Res)) :
    (M.protocol may).phase [] t h = M.held t h := by
  rw [held]
  exact Protocol.phase_congr (by rfl) h

/-- Every operation moves the slots that it takes or gives back, and no others. -/
def Balanced (exec : Env → (o : Op) → σ → Option (Res o × σ)) : Prop :=
  ∀ e o s r s', exec e o s = some (r, s') →
    ∀ k, M.free s' k + (M.event o r).taken k = M.free s k + (M.event o r).given k

/-- The slots of `k` that the first `n` threads hold. -/
def inUse (k : κ) (n : ℕ) (h : List (Label Op Res)) : ℕ :=
  ∑ t ∈ Finset.range n, (M.held t h).count k

variable {M} {k : κ} {n t : ℕ} {h : List (Label Op Res)}

/-- An operation of one thread changes what that thread holds. -/
theorem inUse_push (ht : t < n) (o : Op) (r : Res o) :
    M.inUse k n (⟨t, o, r⟩ :: h) + (M.held t h).count k =
      M.inUse k n h + ((M.event o r).after (M.held t h)).count k := by
  have hmem : t ∈ Finset.range n := Finset.mem_range.mpr ht
  have hnew := Finset.add_sum_erase (Finset.range n)
    (fun u => (M.held u (⟨t, o, r⟩ :: h)).count k) hmem
  have hold := Finset.add_sum_erase (Finset.range n) (fun u => (M.held u h).count k) hmem
  have hsame : ∑ u ∈ (Finset.range n).erase t, (M.held u (⟨t, o, r⟩ :: h)).count k =
      ∑ u ∈ (Finset.range n).erase t, (M.held u h).count k := by
    refine Finset.sum_congr rfl fun u hu => ?_
    rw [held, held, Protocol.phase_other (Finset.ne_of_mem_erase hu).symm]
  have hown : M.held t (⟨t, o, r⟩ :: h) = (M.event o r).after (M.held t h) :=
    Protocol.phase_own o r
  simp only [hown] at hnew
  simp only [inUse]
  omega

end Semaphores

namespace System

variable {S : System Op Res Env σ Call α} {M : Semaphores Op Res σ κ}
  {may : Call → List κ → κ → Prop} (hbalance : M.Balanced S.exec)
  (hbody : ∀ c, Obeys (M.protocol (may c)) (fun _ held => held = []) (S.body c) []) {s₀ : σ}
  {m : Machine Op Res σ Call α} (hm : S.Reach (initial s₀) m)

include hbody hm in
/-- What is left of a thread's program follows the protocol from the slots it holds. -/
theorem Reach.held_obeys {t : ℕ} {c : Call} {p : Prog Op Res α}
    (ht : m.threads[t]? = some (c, p)) :
    Obeys (M.protocol (may c)) (fun _ held => held = []) p (M.held t m.view.history) := by
  rw [← M.phase_eq_held (may c)]
  exact Reach.obeys (P := fun c => M.protocol (may c)) hbody hm ht

include hbody hm in
/-- What taking and giving back the slots that a call may wait for keeps holds of the
slots of every thread. -/
theorem Reach.held_shape {J : Call → List κ → Prop} (hnil : ∀ c, J c [])
    (htake : ∀ c held k, J c held → may c held k → J c (k :: held))
    (hgive : ∀ c held k, J c (k :: held) → J c held)
    (hwaits : ∀ o r k, M.event o r = .take k → M.waits o = some k)
    {t : ℕ} {c : Call} {p : Prog Op Res α} (ht : m.threads[t]? = some (c, p)) :
    J c (M.held t m.view.history) := by
  rw [← M.phase_eq_held (may c)]
  refine Reach.phase_of_allows (P := fun c => M.protocol (may c)) hbody hm ht hnil
    fun c held o r hJ hallows => ?_
  show J c ((M.event o r).after held)
  rcases hev : M.event o r with k | k | _
  · exact htake c held k hJ (hallows.1 k (hwaits o r k hev))
  · obtain ⟨rest, rfl⟩ := hallows.2 r k hev
    rw [SlotEvent.after, List.erase_cons_head]
    exact hgive c rest k hJ
  · exact hJ

include hbalance hbody hm

/-- **Slots are accounted for.**  Whatever the threads do, the free slots of a semaphore
and those that threads hold make up the slots there were at first. -/
theorem Reach.slots_accounted (k : κ) :
    M.free m.view.state k + M.inUse k m.threads.length m.view.history = M.free s₀ k := by
  induction hm with
  | refl => rfl
  | @tail m₁ m₂ hm hstep ih =>
    cases hstep with
    | invoke c _ =>
      -- the new thread holds nothing
      have hnew : M.held m₁.threads.length m₁.view.history = [] :=
        Protocol.phase_of_forall_ne fun l hl => Nat.ne_of_lt (Reach.recorded hm l hl)
      rw [Semaphores.inUse, List.length_append, List.length_singleton, Finset.sum_range_succ, hnew]
      exact ih
    | perform t c o f e r s ht he =>
      have hgive := (Reach.held_obeys hbody hm ht).head.2 r
      have hcount := SlotEvent.count_after hgive k
      have huse := Semaphores.inUse_push (M := M) (k := k) (h := m₁.view.history)
        (List.getElem?_eq_some_iff.mp ht).1 o r
      have hfree := hbalance e o _ r s he k
      rw [View.push_state, View.push_history, List.length_set]
      omega

/-- **A nested semaphore keeps nobody waiting.**  If whoever holds a slot of `inner` holds
one of `outer` as well, and `inner` has no fewer slots, then a thread with a slot of `outer`
and none of `inner` finds a free one. -/
theorem Reach.slot_left (outer inner : κ) (hcapacity : M.free s₀ outer ≤ M.free s₀ inner)
    (hnested : ∀ t < m.threads.length,
      (M.held t m.view.history).count inner ≤ (M.held t m.view.history).count outer)
    {u : ℕ} (hu : u < m.threads.length)
    (hless : (M.held u m.view.history).count inner < (M.held u m.view.history).count outer) :
    0 < M.free m.view.state inner := by
  have hinner := Reach.slots_accounted hbalance hbody hm inner
  have houter := Reach.slots_accounted hbalance hbody hm outer
  have huse : M.inUse inner m.threads.length m.view.history <
      M.inUse outer m.threads.length m.view.history :=
    Finset.sum_lt_sum (fun t ht => hnested t (Finset.mem_range.mp ht))
      ⟨u, Finset.mem_range.mpr hu, hless⟩
  omega

end System

end Process
