/-
A store of tasks that can be derived from completed tasks.

A task is created, started and ended.  It keeps what it was created with, and a task that
is completed keeps what it has delivered.  A task may name another one as its parent, which
has to be completed by then.

* `Stage`, `Entry`, `Store` — what the store holds; `Step` — what can happen to it;
* `Step.completed_kept` — a completed task stays as it is;
* `Inv`, `inv_of_run` — parents are completed, the lineage of a task is finite, and what was
  delivered is good;
* `Process.System.Reach.simulates` — a system whose steps are steps of the store, or none,
  runs as the store does.
-/
import CliExecutionPlatform.Interleaving
import Mathlib.Logic.Function.Basic
import Mathlib.Order.WellFounded

namespace TaskStore

variable {ι α δ : Type}

/-- How far a task has come; a completed one has delivered something. -/
inductive Stage (δ : Type)
  | created
  | running
  | completed (delivery : δ)
  | failed

structure Entry (ι α δ : Type) where
  parent : Option ι
  request : α
  stage : Stage δ

/-- The tasks by their names. -/
abbrev Store (ι α δ : Type) : Type := ι → Option (Entry ι α δ)

namespace Store

def empty : Store ι α δ := fun _ => none

def IsCompleted (s : Store ι α δ) (j : ι) : Prop :=
  ∃ entry d, s j = some entry ∧ entry.stage = .completed d

/-- `p` is the parent of `j`. -/
def Parent (s : Store ι α δ) (p j : ι) : Prop := ∃ entry, s j = some entry ∧ entry.parent = some p

variable [DecidableEq ι]

def set (s : Store ι α δ) (j : ι) (entry : Entry ι α δ) : Store ι α δ :=
  Function.update s j (some entry)

theorem set_self (s : Store ι α δ) (j : ι) (entry : Entry ι α δ) : s.set j entry j = some entry :=
  Function.update_self ..

theorem set_of_ne (s : Store ι α δ) {i j : ι} (entry : Entry ι α δ) (h : i ≠ j) :
    s.set j entry i = s i :=
  Function.update_of_ne h ..

end Store

variable [DecidableEq ι] {good : ι → δ → Prop} {s s' : Store ι α δ} {i j : ι}
  {entry : Entry ι α δ} {d : δ}

/-- What can happen: a new task, whose parent is completed, a start, a good delivery, or a
failure. -/
inductive Step (good : ι → δ → Prop) : Store ι α δ → Store ι α δ → Prop
  | create (s : Store ι α δ) (j : ι) (parent : Option ι) (request : α) (hnew : s j = none)
      (hparent : ∀ p, parent = some p → s.IsCompleted p) :
      Step good s (s.set j ⟨parent, request, .created⟩)
  | start (s : Store ι α δ) (j : ι) (entry : Entry ι α δ) (hj : s j = some entry)
      (hstage : entry.stage = .created) : Step good s (s.set j { entry with stage := .running })
  | complete (s : Store ι α δ) (j : ι) (entry : Entry ι α δ) (d : δ) (hj : s j = some entry)
      (hstage : entry.stage = .running) (hd : good j d) :
      Step good s (s.set j { entry with stage := .completed d })
  | fail (s : Store ι α δ) (j : ι) (entry : Entry ι α δ) (hj : s j = some entry)
      (hstage : entry.stage = .created ∨ entry.stage = .running) :
      Step good s (s.set j { entry with stage := .failed })

/-- What every step is: one entry is new, or it keeps its origin and was not completed. -/
theorem Step.cases (h : Step good s s') :
    ∃ j entry, s' = s.set j entry ∧
      (s j = none ∧ entry.stage = .created ∧ (∀ p, entry.parent = some p → s.IsCompleted p) ∨
        ∃ old, s j = some old ∧ entry.parent = old.parent ∧ entry.request = old.request ∧
          (∀ d, old.stage ≠ .completed d) ∧ ∀ d, entry.stage = .completed d → good j d) := by
  cases h with
  | create j parent request hnew hparent => exact ⟨j, _, rfl, .inl ⟨hnew, rfl, hparent⟩⟩
  | start j old hj hstage =>
    refine ⟨j, _, rfl, .inr ⟨old, hj, rfl, rfl, fun d hd => ?_, fun d hd => absurd hd (by simp)⟩⟩
    rw [hstage] at hd
    cases hd
  | complete j old d hj hstage hd =>
    refine ⟨j, _, rfl, .inr ⟨old, hj, rfl, rfl, fun d' hd' => ?_, fun d' hd' => ?_⟩⟩
    · rw [hstage] at hd'
      cases hd'
    · rw [← Stage.completed.inj hd']
      exact hd
  | fail j old hj hstage =>
    refine ⟨j, _, rfl, .inr ⟨old, hj, rfl, rfl, fun d hd => ?_, fun d hd => absurd hd (by simp)⟩⟩
    rcases hstage with hstage | hstage
    · rw [hstage] at hd
      cases hd
    · rw [hstage] at hd
      cases hd

/-- A completed task stays as it is. -/
theorem Step.completed_kept (h : Step good s s') (hi : s i = some entry)
    (hd : entry.stage = .completed d) : s' i = some entry := by
  obtain ⟨j, new, rfl, hcase⟩ := h.cases
  by_cases hij : i = j
  · subst hij
    rcases hcase with ⟨hnone, -, -⟩ | ⟨old, hold, -, -, hnot, -⟩
    · rw [hnone] at hi
      cases hi
    · obtain rfl : old = entry := Option.some.inj (hold.symm.trans hi)
      exact absurd hd (hnot d)
  · rw [Store.set_of_ne s new hij]
    exact hi

theorem Step.isCompleted (h : Step good s s') (hi : s.IsCompleted i) : s'.IsCompleted i := by
  obtain ⟨entry, d, hentry, hd⟩ := hi
  exact ⟨entry, d, h.completed_kept hentry hd, hd⟩

/-- Parents are completed, no lineage goes on for ever, and deliveries are good. -/
structure Inv (good : ι → δ → Prop) (s : Store ι α δ) : Prop where
  parents : ∀ p j, s.Parent p j → s.IsCompleted p
  lineage : WellFounded s.Parent
  deliveries : ∀ j entry d, s j = some entry → entry.stage = .completed d → good j d

omit [DecidableEq ι] in
theorem inv_empty : Inv good (Store.empty : Store ι α δ) where
  parents := fun _ _ ⟨_, h, _⟩ => absurd h (by simp [Store.empty])
  lineage := ⟨fun j => ⟨j, fun _ ⟨_, h, _⟩ => absurd h (by simp [Store.empty])⟩⟩
  deliveries := fun _ _ _ h => absurd h (by simp [Store.empty])

/-- A new leaf leaves the lineages finite. -/
theorem wellFounded_set_of_leaf (hwf : WellFounded s.Parent) (hleaf : ∀ i, ¬ s.Parent j i)
    (hself : entry.parent ≠ some j) : WellFounded (s.set j entry).Parent := by
  -- an old task is not below the leaf
  have hold : ∀ i, i ≠ j → Acc (s.set j entry).Parent i := by
    intro i
    refine hwf.induction (C := fun i => i ≠ j → Acc (s.set j entry).Parent i) i fun i ih hij => ?_
    refine ⟨i, fun p hp => ?_⟩
    have hp' : s.Parent p i := by
      obtain ⟨old, hi, hparent⟩ := hp
      rw [Store.set_of_ne s entry hij] at hi
      exact ⟨old, hi, hparent⟩
    refine ih p hp' fun hpj => ?_
    rw [hpj] at hp'
    exact hleaf i hp'
  refine ⟨fun i => ?_⟩
  by_cases hij : i = j
  · subst hij
    refine ⟨i, fun p hp => hold p fun hpi => ?_⟩
    obtain ⟨new, hnew, hparent⟩ := hp
    rw [Store.set_self] at hnew
    rw [← Option.some.inj hnew, hpi] at hparent
    exact hself hparent
  · exact hold i hij

theorem Inv.step (hI : Inv good s) (h : Step good s s') : Inv good s' := by
  have hkept := fun i => h.isCompleted (i := i)
  obtain ⟨j, new, rfl, hcase⟩ := h.cases
  have hparents : ∀ p i, (s.set j new).Parent p i → s.IsCompleted p := by
    rintro p i ⟨entry, hi, hparent⟩
    by_cases hij : i = j
    · subst hij
      rw [Store.set_self] at hi
      obtain rfl := Option.some.inj hi
      rcases hcase with ⟨-, -, hnew⟩ | ⟨old, hold, horigin, -, -, -⟩
      · exact hnew p hparent
      · exact hI.parents p i ⟨old, hold, horigin.symm.trans hparent⟩
    · rw [Store.set_of_ne s new hij] at hi
      exact hI.parents p i ⟨entry, hi, hparent⟩
  refine ⟨fun p i hp => hkept p (hparents p i hp), ?_, ?_⟩
  · rcases hcase with ⟨hnone, -, hnew⟩ | ⟨old, hold, horigin, -, -, -⟩
    · -- nobody has a parent that does not exist
      have habsent : ¬ s.IsCompleted j := by
        rintro ⟨entry, d, hj, -⟩
        rw [hnone] at hj
        cases hj
      exact wellFounded_set_of_leaf hI.lineage (fun i hi => habsent (hI.parents j i hi))
        fun hj => habsent (hnew j hj)
    · -- the lineages are those there were
      have hsame : ∀ p i, (s.set j new).Parent p i → s.Parent p i := by
        rintro p i ⟨entry, hi, hparent⟩
        by_cases hij : i = j
        · subst hij
          rw [Store.set_self] at hi
          obtain rfl := Option.some.inj hi
          exact ⟨old, hold, horigin.symm.trans hparent⟩
        · rw [Store.set_of_ne s new hij] at hi
          exact ⟨entry, hi, hparent⟩
      exact Subrelation.wf (fun {p i} hp => hsame p i hp) hI.lineage
  · intro i entry d hi hd
    by_cases hij : i = j
    · subst hij
      rw [Store.set_self] at hi
      obtain rfl := Option.some.inj hi
      rcases hcase with ⟨-, hstage, -⟩ | ⟨old, -, -, -, -, hgood⟩
      · rw [hstage] at hd
        cases hd
      · exact hgood d hd
    · rw [Store.set_of_ne s new hij] at hi
      exact hI.deliveries i entry d hi hd

/-- The invariant holds along every run from the empty store. -/
theorem inv_of_run (h : Relation.ReflTransGen (Step good) (Store.empty : Store ι α δ) s) :
    Inv good s := by
  induction h with
  | refl => exact inv_empty
  | tail _ hstep ih => exact ih.step hstep

end TaskStore

namespace Process

variable {Op : Type} {Res : Op → Type} {Env σ Call α A : Type} {S : System Op Res Env σ Call α}

/-- **Simulation.**  Where every step of the system is a step of an abstract one, or none,
every run of the system is one of the abstract system. -/
theorem System.Reach.simulates {R : A → A → Prop} (view : Machine Op Res σ Call α → A)
    {m₀ m m' : Machine Op Res σ Call α}
    (hstep : ∀ m m', S.Reach m₀ m → S.Step m m' → view m' = view m ∨ R (view m) (view m'))
    (hm : S.Reach m₀ m) (h : S.Reach m m') : Relation.ReflTransGen R (view m) (view m') := by
  induction h with
  | refl => exact .refl
  | @tail m₁ m₂ hreach hlast ih =>
    rcases hstep m₁ m₂ (hm.trans hreach) hlast with hsame | hmove
    · rw [hsame]
      exact ih
    · exact ih.tail hmove

end Process
