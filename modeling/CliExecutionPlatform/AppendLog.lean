/-
Append-only logs, read through a cursor.

A log is a list whose entries carry increasing positive keys; it grows at its
end and nowhere else.  A reader keeps the key of the last entry it has seen and
asks for what lies beyond.

* `beyond key c l` — the entries of `l` with a key above `c`;
* `append_beyond` — a reader that has seen a prefix of the log and asks for what
  is beyond its last key gets exactly the rest;
* `Grows`, `Grows.beyond` — a log that grows does so beyond every cursor;
* `Observes`, `Observes.invariant` — a reader that acts from time to time on
  something that changes meanwhile, and the rule for its invariants;
* `drive`, `drive_rank`, `drive_until` — a reader that is fed inputs, and how long it can
  go on; `Leads` — where every `n` inputs of some kind lead it.
-/
import Mathlib.Data.List.Basic
import Mathlib.Data.List.Infix
import Mathlib.Data.List.Pairwise
import Mathlib.Logic.Relation

namespace AppendLog

variable {α : Type} {key : α → ℕ}

/-- The entries stand in the order of their keys. -/
def Ordered (key : α → ℕ) (l : List α) : Prop := l.Pairwise fun a b => key a < key b

/-- The entries beyond the cursor `c`. -/
def beyond (key : α → ℕ) (c : ℕ) (l : List α) : List α := l.filter fun a => c < key a

theorem beyond_mono {l l' : List α} (c : ℕ) (h : l <+: l') :
    beyond key c l <+: beyond key c l' := h.filter _

/-- Asking again, from a cursor further on. -/
theorem beyond_beyond {c d : ℕ} (h : c ≤ d) (l : List α) :
    beyond key d (beyond key c l) = beyond key d l := by
  rw [beyond, beyond, beyond, List.filter_filter]
  refine List.filter_congr fun a _ => ?_
  by_cases hd : d < key a
  · simp [hd, show c < key a by omega]
  · simp [hd]

theorem beyond_zero {l : List α} (h : ∀ a ∈ l, 0 < key a) : beyond key 0 l = l :=
  List.filter_eq_self.mpr fun a ha => decide_eq_true (h a ha)

/-- The cursor of a reader that has seen `seen`, having started at `c`. -/
def cursor (key : α → ℕ) (c : ℕ) (seen : List α) : ℕ := (seen.getLast?.map key).getD c

@[simp] theorem cursor_nil (c : ℕ) : cursor key c [] = c := rfl

@[simp] theorem cursor_concat (c : ℕ) (seen : List α) (a : α) :
    cursor key c (seen ++ [a]) = key a := by
  rw [cursor, List.getLast?_concat]
  rfl

theorem cursor_cons (c : ℕ) (a : α) (seen : List α) :
    cursor key c (a :: seen) = cursor key (key a) seen := by
  rw [cursor, cursor, List.getLast?_cons]
  cases seen.getLast? with
  | none => rfl
  | some b => rfl

theorem le_cursor {c : ℕ} {seen : List α} (h : ∀ a ∈ seen, c < key a) :
    c ≤ cursor key c seen := by
  rcases List.eq_nil_or_concat seen with rfl | ⟨init, a, rfl⟩
  · exact Nat.le_refl c
  · rw [List.concat_eq_append] at h ⊢
    rw [cursor_concat]
    exact Nat.le_of_lt (h a (by simp))

/-- Everything up to the last entry seen is cut off, nothing else. -/
theorem beyond_append {c : ℕ} {seen rest : List α} (h : Ordered key (seen ++ rest))
    (hc : ∀ a ∈ seen ++ rest, c < key a) :
    beyond key (cursor key c seen) (seen ++ rest) = rest := by
  rcases List.eq_nil_or_concat seen with rfl | ⟨init, a, rfl⟩
  · exact List.filter_eq_self.mpr fun b hb => decide_eq_true (hc b hb)
  · rw [List.concat_eq_append] at h ⊢
    obtain ⟨hseen, -, hcross⟩ := List.pairwise_append.mp h
    have hinit := (List.pairwise_append.mp hseen).2.2
    rw [cursor_concat, beyond, List.filter_append, List.filter_append]
    have e₁ : init.filter (fun b => key a < key b) = [] := by
      rw [List.filter_eq_nil_iff]
      intro b hb hlt
      have h₁ := hinit b hb a (by simp)
      have h₂ := of_decide_eq_true hlt
      omega
    have e₂ : [a].filter (fun b => key a < key b) = [] := by simp
    have e₃ : rest.filter (fun b => key a < key b) = rest :=
      List.filter_eq_self.mpr fun b hb => decide_eq_true (hcross a (by simp) b hb)
    rw [e₁, e₂, e₃]
    rfl

/-- **No gap and no repeat.**  What has been seen from the cursor `c` on,
followed by what is beyond the last key seen, is everything beyond `c`. -/
theorem append_beyond {c : ℕ} {seen l : List α} (hl : Ordered key l)
    (h : seen <+: beyond key c l) :
    seen ++ beyond key (cursor key c seen) l = beyond key c l := by
  obtain ⟨rest, hrest⟩ := h
  have hc : ∀ a ∈ seen ++ rest, c < key a := by
    intro a ha
    rw [hrest] at ha
    exact of_decide_eq_true (List.mem_filter.mp ha).2
  have hord : Ordered key (seen ++ rest) := by
    rw [hrest]
    exact hl.filter _
  have hle : c ≤ cursor key c seen :=
    le_cursor fun a ha => hc a (List.mem_append_left _ ha)
  rw [← beyond_beyond hle l, ← hrest, beyond_append hord hc]

/-! ### Growth -/

/-- A log that grows at its end as time passes. -/
def Grows (log : ℕ → List α) : Prop := ∀ t, log t <+: log (t + 1)

theorem Grows.mono {log : ℕ → List α} (h : Grows log) {t t' : ℕ} (ht : t ≤ t') :
    log t <+: log t' := by
  induction t', ht using Nat.le_induction with
  | base => exact List.prefix_rfl
  | succ t' _ ih => exact ih.trans (h t')

theorem Grows.beyond {log : ℕ → List α} (h : Grows log) (c : ℕ) {t t' : ℕ} (ht : t ≤ t') :
    beyond key c (log t) <+: beyond key c (log t') := beyond_mono c (h.mono ht)

/-! ### Readers -/

section Readers

variable {δ μ σ : Type} {step : δ → μ → σ → Option σ} {world : ℕ → δ}

/-- One step of a reader: at a time not before the last one, it acts on what is
there then. -/
def Reads (step : δ → μ → σ → Option σ) (world : ℕ → δ) (a b : ℕ × σ) : Prop :=
  a.1 ≤ b.1 ∧ ∃ m, step (world b.1) m a.2 = some b.2

/-- Any number of steps. -/
def Observes (step : δ → μ → σ → Option σ) (world : ℕ → δ) : ℕ × σ → ℕ × σ → Prop :=
  Relation.ReflTransGen (Reads step world)

/-- What survives the passing of time and every step holds after any number of
steps. -/
theorem Observes.invariant {I : ℕ → σ → Prop} {a b : ℕ × σ} (h : Observes step world a b)
    (hlater : ∀ t t' s, t ≤ t' → I t s → I t' s)
    (hstep : ∀ t m s s', I t s → step (world t) m s = some s' → I t s') (ha : I a.1 a.2) :
    I b.1 b.2 := by
  induction h with
  | refl => exact ha
  | tail _ hread ih =>
    obtain ⟨hle, m, hm⟩ := hread
    exact hstep _ m _ _ (hlater _ _ _ hle ih) hm

/-- A reader for which nothing changes, at one time of a longer story. -/
theorem Observes.stay {d : δ} {a b : ℕ × σ} (h : Observes step (fun _ => d) a b) {t : ℕ}
    (ht : world t = d) : Observes step world (t, a.2) (t, b.2) := by
  induction h with
  | refl => exact .refl
  | tail _ hread ih =>
    obtain ⟨-, m, hm⟩ := hread
    exact ih.tail ⟨Nat.le_refl t, m, by rw [ht]; exact hm⟩

/-- Execution of a reader at given times. -/
def observe (step : δ → μ → σ → Option σ) (world : ℕ → δ) :
    List (ℕ × μ) → ℕ × σ → Option (ℕ × σ)
  | [], a => some a
  | (t, m) :: rest, a =>
    if a.1 ≤ t then (step (world t) m a.2).bind fun s => observe step world rest (t, s) else none

theorem observes_of_observe {ms : List (ℕ × μ)} {a b : ℕ × σ}
    (h : observe step world ms a = some b) : Observes step world a b := by
  induction ms generalizing a with
  | nil =>
    rw [← Option.some.inj h]
    exact .refl
  | cons tm rest ih =>
    rw [observe] at h
    by_cases hle : a.1 ≤ tm.1
    · rw [if_pos hle] at h
      obtain ⟨s, hs, h⟩ := Option.bind_eq_some_iff.mp h
      exact (Relation.ReflTransGen.single ⟨hle, tm.2, hs⟩).trans (ih h)
    · rw [if_neg hle] at h
      exact absurd h (by simp)

end Readers

/-! ### Readers that are fed inputs -/

section Driven

variable {ι σ : Type} {step : ι → σ → Option σ} {ok : ι → Prop} {s s' : σ}

/-- Feed the inputs, one after the other. -/
def drive (step : ι → σ → Option σ) : List ι → σ → Option σ
  | [], s => some s
  | i :: rest, s => (step i s).bind (drive step rest)

theorem drive_append (is js : List ι) (s : σ) :
    drive step (is ++ js) s = (drive step is s).bind (drive step js) := by
  induction is generalizing s with
  | nil => rfl
  | cons i is ih =>
    rw [List.cons_append, drive, drive, Option.bind_assoc]
    exact Option.bind_congr fun a _ => ih a

section Rank

variable (rank : σ → ℕ) {I final : σ → Prop}
  (hstep : ∀ i s s', ok i → I s → step i s = some s' → I s' ∧ rank s' < rank s)

include hstep

/-- A rank that every step lowers bounds the number of steps. -/
theorem drive_rank {is : List ι} (h : drive step is s = some s') (hs : I s)
    (hok : ∀ i ∈ is, ok i) : is.length + rank s' ≤ rank s := by
  induction is generalizing s with
  | nil =>
    rw [Option.some.inj h]
    exact Nat.le_of_eq (Nat.zero_add _)
  | cons i is ih =>
    obtain ⟨a, ha, hrest⟩ := Option.bind_eq_some_iff.mp h
    obtain ⟨hI, hlt⟩ := hstep i s a (hok i List.mem_cons_self) hs ha
    have hle := ih hrest hI fun j hj => hok j (List.mem_cons_of_mem i hj)
    rw [List.length_cons]
    omega

/-- If it can always go on unless it is finished, it finishes. -/
theorem drive_until (hzero : ∀ s, I s → rank s = 0 → final s)
    (hprogress : ∀ i s, ok i → I s → ¬ final s → (step i s).isSome) {is : List ι} (hs : I s)
    (hok : ∀ i ∈ is, ok i) (hlen : rank s ≤ is.length) :
    ∃ k s', drive step (is.take k) s = some s' ∧ I s' ∧ final s' := by
  induction is generalizing s with
  | nil => exact ⟨0, s, rfl, hs, hzero s hs (Nat.le_zero.mp hlen)⟩
  | cons i is ih =>
    by_cases hfinal : final s
    · exact ⟨0, s, rfl, hs, hfinal⟩
    · obtain ⟨a, ha⟩ := Option.isSome_iff_exists.mp
        (hprogress i s (hok i List.mem_cons_self) hs hfinal)
      obtain ⟨hI, hlt⟩ := hstep i s a (hok i List.mem_cons_self) hs ha
      rw [List.length_cons] at hlen
      obtain ⟨k, s', hrun, hs', hend⟩ :=
        ih hI (fun j hj => hok j (List.mem_cons_of_mem i hj)) (by omega)
      refine ⟨k + 1, s', ?_, hs', hend⟩
      rw [List.take_succ_cons, drive, ha]
      exact hrun

end Rank

/-- Every `n` inputs of the kind `ok` lead from `s` to a state with the property `P`. -/
def Leads (step : ι → σ → Option σ) (ok : ι → Prop) (n : ℕ) (s : σ) (P : σ → Prop) : Prop :=
  ∀ is : List ι, is.length = n → (∀ i ∈ is, ok i) → ∃ s', drive step is s = some s' ∧ P s'

variable {n k : ℕ} {P R : σ → Prop}

theorem Leads.refl (h : P s) : Leads step ok 0 s P := by
  intro is hlen _
  rw [List.length_eq_zero_iff.mp hlen]
  exact ⟨s, rfl, h⟩

theorem Leads.head (h : ∀ i, ok i → ∃ a, step i s = some a ∧ Leads step ok n a P) :
    Leads step ok (n + 1) s P := by
  intro is hlen hok
  cases is with
  | nil => exact absurd hlen (by simp)
  | cons i is =>
    obtain ⟨a, ha, hrest⟩ := h i (hok i List.mem_cons_self)
    obtain ⟨s', hs', hP⟩ := hrest is (Nat.succ.inj hlen) fun j hj =>
      hok j (List.mem_cons_of_mem i hj)
    refine ⟨s', ?_, hP⟩
    rw [drive, ha]
    exact hs'

theorem Leads.trans (h : Leads step ok n s P) (h' : ∀ a, P a → Leads step ok k a R) :
    Leads step ok (n + k) s R := by
  intro is hlen hok
  obtain ⟨a, ha, hP⟩ := h (is.take n) (by rw [List.length_take]; omega)
    fun i hi => hok i (List.mem_of_mem_take hi)
  obtain ⟨s', hs', hR⟩ := h' a hP (is.drop n) (by rw [List.length_drop]; omega)
    fun i hi => hok i (List.mem_of_mem_drop hi)
  refine ⟨s', ?_, hR⟩
  rw [← List.take_append_drop n is, drive_append, ha]
  exact hs'

/-- What simulates a reader goes where the reader goes. -/
theorem Leads.lift {τ : Type} {step' : ι → τ → Option τ} {sim : τ → σ → Prop}
    (hsim : ∀ i t s s', sim t s → step i s = some s' → ∃ t', step' i t = some t' ∧ sim t' s')
    {t : τ} (ht : sim t s) (h : Leads step ok n s P) :
    Leads step' ok n t fun t' => ∃ s', sim t' s' ∧ P s' := by
  intro is hlen hok
  obtain ⟨s', hs', hP⟩ := h is hlen hok
  clear h hlen hok
  induction is generalizing s t with
  | nil =>
    rw [← Option.some.inj hs'] at hP
    exact ⟨t, rfl, s, ht, hP⟩
  | cons i is ih =>
    obtain ⟨a, ha, hrest⟩ := Option.bind_eq_some_iff.mp hs'
    obtain ⟨t₁, ht₁, hsim₁⟩ := hsim i t s a ht ha
    obtain ⟨t', ht', hend⟩ := ih hsim₁ hrest
    refine ⟨t', ?_, hend⟩
    rw [drive, ht₁]
    exact ht'

end Driven

end AppendLog
