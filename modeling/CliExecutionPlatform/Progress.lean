/-
The slots of the server processes, and progress.

Each server process has two semaphores: the gate of the orchestrations
(`orchestrator/concurrency.py`) and the slots of the tool (`runner/service.py`).  A run
takes a slot of the gate and, while it holds it, slots of the tool one after the other.

* `slots` — both semaphores of all servers as one family, the gate below the tool;
* `run_holds` — a run takes and gives back its slots in this order, whatever raises;
* **`slots_conserved`** — the free slots of a semaphore and the runs that hold one
  make up its capacity, in every reachable state; without a run in progress all are free;
* **`never_stuck`** — as long as some call has not returned, some call can go on without
  any failure, cancellation or timeout, or the runs that hold slots wait for killed tools
  whose pipes something else holds open.
-/
import CliExecutionPlatform.Conduct
import CliExecutionPlatform.RunWalk
import CliExecutionPlatform.Semaphores
import CliExecutionPlatform.ToolSlots
import Mathlib.Algebra.BigOperators.Group.Finset.Piecewise
import Mathlib.Data.Fintype.EquivFin

open Files Process

namespace CliExecutionPlatform

/-- The semaphores: the gate and the tool slots of each server process. -/
inductive Slot
  | gate (server : ℕ)
  | cli (server : ℕ)
  deriving DecidableEq

def slotWaits : Op → Option Slot
  | .sys (.acquireGate server) => some (.gate server)
  | .sys (.acquireCli server) => some (.cli server)
  | _ => none

def slotEvent : (o : Op) → Res o → SlotEvent Slot
  | .sys (.acquireGate server), .ok _ => .take (.gate server)
  | .sys (.acquireCli server), .ok _ => .take (.cli server)
  | .sys (.releaseGate server), _ => .give (.gate server)
  | .sys (.releaseCli server), _ => .give (.cli server)
  | _, _ => .pass

def Slot.free (w : World) : Slot → ℕ
  | gate server => w.gate server
  | cli server => w.cli server

def slots : Semaphores Op Res World Slot where
  waits := slotWaits
  event := slotEvent
  free := Slot.free

/-! ### What operations do to the slots -/

section Exec

variable {base : Path} {e : Env} {w w' : World}

theorem exec_acquireGate_cases {s : ℕ} {r : Except Exn Unit}
    (h : exec base e (.sys (.acquireGate s)) w = some (r, w')) :
    ((∃ x, r = .error x) ∧ w' = w) ∨
      r = .ok () ∧ 0 < w.gate s ∧
        w' = { w with gate := Function.update w.gate s (w.gate s - 1) } := by
  simp only [exec, SysOp.exec, takeSlot] at h
  by_cases hc : e.cancel
  · rw [if_pos hc] at h
    obtain ⟨rfl, rfl⟩ := Prod.mk.inj (Option.some.inj h)
    exact .inl ⟨⟨_, rfl⟩, rfl⟩
  · rw [if_neg hc] at h
    by_cases ht : e.timedOut
    · rw [if_pos ht] at h
      obtain ⟨rfl, rfl⟩ := Prod.mk.inj (Option.some.inj h)
      exact .inl ⟨⟨_, rfl⟩, rfl⟩
    · rw [if_neg ht] at h
      by_cases hfree : 0 < w.gate s
      · rw [if_pos hfree] at h
        obtain ⟨rfl, rfl⟩ := Prod.mk.inj (Option.some.inj h)
        exact .inr ⟨rfl, hfree, rfl⟩
      · rw [if_neg hfree] at h
        exact absurd h (by simp)

/-- Operations on neither semaphore leave both alone. -/
theorem exec_slots_kept {o : Op} {r : Res o} (hwaits : slotWaits o = none)
    (hpass : slotEvent o r = .pass) (h : exec base e o w = some (r, w')) (k : Slot) :
    k.free w' = k.free w := by
  suffices hsame : w'.gate = w.gate ∧ w'.cli = w.cli by
    cases k with
    | gate s => exact congrFun hsame.1 s
    | cli s => exact congrFun hsame.2 s
  have same : ∀ {α : Type} {x y : α} {w₁ : World}, some (x, w₁) = some (y, w') →
      w₁.gate = w.gate ∧ w₁.cli = w.cli → w'.gate = w.gate ∧ w'.cli = w.cli := by
    intro α x y w₁ heq hw
    rwa [← (Prod.mk.inj (Option.some.inj heq)).2]
  cases o with
  | db o =>
    obtain ⟨db, -, rfl⟩ := exec_db h
    exact ⟨rfl, rfl⟩
  | fs o =>
    obtain ⟨fs, -, rfl⟩ := exec_fs h
    exact ⟨rfl, rfl⟩
  | sys o =>
    cases o with
    | acquireGate s => exact absurd hwaits (by simp [slotWaits])
    | acquireCli s => exact absurd hwaits (by simp [slotWaits])
    | releaseGate s => exact absurd hpass (by simp [slotEvent])
    | releaseCli s => exact absurd hpass (by simp [slotEvent])
    | launch args staged =>
      rcases exec_launch_cases h with ⟨-, rfl⟩ | ⟨pid, -, -, rfl⟩
      · exact ⟨rfl, rfl⟩
      · exact ⟨rfl, rfl⟩
    | waitProcess pid connected =>
      rcases exec_waitProcess_cases h with ⟨-, rfl⟩ | ⟨-, rfl⟩
      · exact ⟨rfl, rfl⟩
      · exact ⟨rfl, rfl⟩
    | takeOrphan orphan =>
      simp only [exec, SysOp.exec] at h
      by_cases hmem : orphan ∈ w.orphans
      · rw [if_pos hmem] at h
        exact same h ⟨rfl, rfl⟩
      · rw [if_neg hmem] at h
        exact absurd h (by simp)
    | _ => exact same h ⟨rfl, rfl⟩

/-- A semaphore of one kind, with its servers, is a function that a slot is taken from or
given back to at one place. -/
theorem update_taken {f : ℕ → ℕ} {s s' : ℕ} (hs : 0 < f s) :
    Function.update f s (f s - 1) s' + (if s = s' then 1 else 0) = f s' := by
  by_cases heq : s = s'
  · subst heq
    rw [Function.update_self, if_pos rfl]
    omega
  · rw [Function.update_of_ne (Ne.symm heq), if_neg heq, Nat.add_zero]

theorem update_given {f : ℕ → ℕ} {s s' : ℕ} :
    Function.update f s (f s + 1) s' = f s' + if s = s' then 1 else 0 := by
  by_cases heq : s = s'
  · subst heq
    rw [Function.update_self, if_pos rfl]
  · rw [Function.update_of_ne (Ne.symm heq), if_neg heq, Nat.add_zero]

theorem slots_balanced : slots.Balanced (exec base) := by
  intro e o w r w' h k
  show k.free w' + (slotEvent o r).taken k = k.free w + (slotEvent o r).given k
  -- an operation without an event moves no slot
  have hkept : slotWaits o = none → slotEvent o r = .pass →
      k.free w' + (slotEvent o r).taken k = k.free w + (slotEvent o r).given k := by
    intro hwaits hev
    rw [hev, exec_slots_kept hwaits hev h k]
    rfl
  cases o with
  | db o => exact hkept rfl rfl
  | fs o => exact hkept rfl rfl
  | sys o =>
    cases o with
    | acquireGate s =>
      rcases exec_acquireGate_cases h with ⟨⟨x, rfl⟩, rfl⟩ | ⟨rfl, hpos, rfl⟩
      · rfl
      · cases k with
        | gate s' =>
          simp only [slotEvent, SlotEvent.taken, SlotEvent.given, Slot.free, Slot.gate.injEq]
          exact update_taken hpos
        | cli s' => rfl
    | acquireCli s =>
      rcases exec_acquireCli_cases h with ⟨⟨x, rfl⟩, rfl⟩ | ⟨rfl, hpos, rfl⟩
      · rfl
      · cases k with
        | gate s' => rfl
        | cli s' =>
          simp only [slotEvent, SlotEvent.taken, SlotEvent.given, Slot.free, Slot.cli.injEq]
          exact update_taken hpos
    | releaseGate s =>
      obtain ⟨-, rfl⟩ := Prod.mk.inj (Option.some.inj h)
      cases k with
      | gate s' =>
        simp only [slotEvent, SlotEvent.taken, SlotEvent.given, Slot.free, Slot.gate.injEq]
        exact update_given
      | cli s' => rfl
    | releaseCli s =>
      obtain ⟨-, rfl⟩ := Prod.mk.inj (Option.some.inj h)
      cases k with
      | gate s' => rfl
      | cli s' =>
        simp only [slotEvent, SlotEvent.taken, SlotEvent.given, Slot.free, Slot.cli.injEq]
        exact update_given
    | _ => exact hkept rfl rfl

end Exec

/-! ### The slots of a run -/

/-- A run waits for the gate of its server first and, while it has a slot of the gate, for
tool slots one at a time; other calls wait for no slot. -/
def Call.mayWait : Call → List Slot → Slot → Prop
  | run server _, held, k =>
    (held = [] ∧ k = .gate server) ∨ (held = [.gate server] ∧ k = .cli server)
  | recover _, _, _ | create _, _, _ | refine _ _, _, _ | orphan _, _, _ => False

/-- The operation concerns no semaphore. -/
def Op.NoSlot : Op → Prop
  | .sys (.acquireGate _) | .sys (.releaseGate _) | .sys (.acquireCli _)
  | .sys (.releaseCli _) => False
  | _ => True

section Programs

variable {o : Op} {I : List Slot → Prop} {may : List Slot → Slot → Prop} {parts : Parts}
  {server : ℕ} {j : Uuid}

theorem slotWaits_of_noSlot (ho : o.NoSlot) : slotWaits o = none := by
  cases o with
  | db o => rfl
  | fs o => rfl
  | sys o => cases o <;> first | rfl | exact absurd ho id

theorem slotEvent_of_noSlot (ho : o.NoSlot) (r : Res o) : slotEvent o r = .pass := by
  cases o with
  | db o => rfl
  | fs o => rfl
  | sys o => cases o <;> first | rfl | exact absurd ho id

theorem slots_of_noSlot (ho : o.NoSlot) (held : List Slot) :
    (slots.protocol may).allows held o ∧ ∀ r, (slots.protocol may).next held o r = held := by
  refine ⟨⟨?_, ?_⟩, ?_⟩
  · intro k hk
    exact absurd (hk.symm.trans (slotWaits_of_noSlot ho)) (by simp)
  · intro r k hk
    exact absurd (hk.symm.trans (slotEvent_of_noSlot ho r)) (by simp)
  · intro r
    show (slotEvent o r).after held = held
    rw [slotEvent_of_noSlot ho r]
    rfl

theorem preserves_noSlot {α : Type} {p : Prog Op Res α} (hp : Calls Op.NoSlot p) :
    Preserves (slots.protocol may) I p :=
  preserves_of_calls hp fun held _ _ ho => slots_of_noSlot ho held

theorem preserves_noSlot_op (ho : o.NoSlot) : Preserves (slots.protocol may) I (perform o).run :=
  preserves_noSlot (calls_op ho)

theorem Op.Frames.noSlot (ho : o.Frames j) : o.NoSlot := by
  cases o with
  | db o => trivial
  | fs o => trivial
  | sys o => cases o <;> trivial

theorem Op.Brackets.noSlot (ho : o.Brackets j) : o.NoSlot := by
  cases o with
  | db o => trivial
  | fs o => trivial
  | sys o => exact absurd ho id

theorem Op.Promotes.noSlot {path : String} (ho : o.Promotes j path) : o.NoSlot := by
  cases o with
  | db o => trivial
  | fs o => trivial
  | sys o => exact absurd ho id

theorem Op.RunsTool.noSlot {args : List String} (ho : o.RunsTool j args) : o.NoSlot := by
  cases o with
  | db o => trivial
  | fs o => trivial
  | sys o => cases o <;> trivial

/-- A program between taking a slot and giving it back: the slot is held exactly while the
program runs. -/
theorem bracket_holds {α : Type} (acquire : Op) {release : Op} {k : Slot} {held : List Slot}
    {x : Task α} {Post : Except Exn α → List Slot → Prop}
    (hwaits : slotWaits acquire = some k) (hmay : may held k)
    (htake : ∀ v, slotEvent acquire (.ok v) = .take k)
    (hfail : ∀ e, slotEvent acquire (.error e) = .pass)
    (hgive : ∀ r, slotEvent release r = .give k) (hrelease : slotWaits release = none)
    (hx : Obeys (slots.protocol may) (fun _ q => q = k :: held) x.run (k :: held))
    (hpost : ∀ r, Post r held) :
    Obeys (slots.protocol may) Post
      (do let _ ← perform acquire; tryFinally x (attemptOnly release)).run held := by
  have hacquire : Obeys (slots.protocol may)
      (fun r q => (∃ v, r = .ok v) ∧ q = k :: held ∨ (∃ e, r = .error e) ∧ q = held)
      (perform acquire).run held := by
    refine obeys_op (P := slots.protocol may) ⟨?_, ?_⟩ fun r => ?_
    · intro k' hk'
      obtain rfl := Option.some.inj (hwaits.symm.trans hk')
      exact hmay
    · intro r k' hk'
      rcases r with e | v
      · exact absurd (hk'.symm.trans (hfail e)) (by simp)
      · exact absurd (hk'.symm.trans (htake v)) (by simp)
    · show _ ∧ (slotEvent acquire r).after held = _ ∨ _ ∧ (slotEvent acquire r).after held = _
      rcases r with e | v
      · rw [hfail]
        exact .inr ⟨⟨e, rfl⟩, rfl⟩
      · rw [htake]
        exact .inl ⟨⟨v, rfl⟩, rfl⟩
  refine obeys_bindE hacquire ?_ ?_
  · rintro v _ (⟨-, rfl⟩ | ⟨⟨e, he⟩, -⟩)
    · refine obeys_tryFinally hx ?_
      rintro r _ rfl
      refine obeys_bind (R := fun _ q => q = held) ?_ ?_
      · refine obeys_op (P := slots.protocol may) ⟨?_, ?_⟩ fun r => ?_
        · intro k' hk'
          exact absurd (hk'.symm.trans hrelease) (by simp)
        · intro r k' hk'
          obtain rfl := SlotEvent.give.inj (hk'.symm.trans (hgive r))
          exact ⟨held, rfl⟩
        · show (slotEvent release r).after (k :: held) = held
          rw [hgive]
          exact List.erase_cons_head k held
      · rintro _ _ rfl
        exact obeys_ret (hpost r)
    · exact absurd he (by simp)
  · rintro e _ (⟨⟨v, hv⟩, -⟩ | ⟨-, rfl⟩)
    · exact absurd hv (by simp)
    · exact hpost _

theorem runTool_holds (args : List String) :
    Preserves (slots.protocol (Call.run server j).mayWait) (fun held => held = [.gate server])
      (Runner.runTool parts server j args).run := by
  refine preserves_bindE (preserves_ret _) fun _ => ?_
  rintro _ rfl
  refine bracket_holds (.sys (.acquireCli server)) (k := .cli server) rfl
    (.inr ⟨rfl, rfl⟩) (fun _ => rfl) (fun _ => rfl) (fun _ => rfl) rfl ?_ fun _ => rfl
  exact preserves_noSlot (I := fun q => q = [.cli server, .gate server])
    (calls_mono (fun _ => Op.RunsTool.noSlot) (executeWithTimeout_calls parts j args)) _ rfl

/-- **A run holds a slot of the gate while it works**, and tool slots above it one at a
time; it returns without any, whatever raises on the way. -/
theorem run_holds :
    Obeys (slots.protocol (Call.run server j).mayWait) (fun _ held => held = [])
      (JobOrchestratorService.run parts server j).run [] := by
  have hslot : Preserves (slots.protocol (Call.run server j).mayWait)
      (fun held => held = [.gate server])
      (JobOrchestratorService.runInSlot parts server j).run := by
    have hframe : ∀ o : Op, o.Frames j → Preserves (slots.protocol (Call.run server j).mayWait)
        (fun held => held = [.gate server]) (perform o).run :=
      fun o ho => preserves_noSlot_op ho.noSlot
    refine runInSlot_preserves_of hframe (fun request => oneAttempt_preserves_of
      (hframe (.sys (.generatePlan request)) trivial)
      (fun rows => hframe (.db (.logEvents j rows)) rfl) fun actions _ => ?_)
      fun _ _ _ _ => preserves_noSlot_op trivial
    refine executionCb_preserves (fun o ho => preserves_noSlot_op ho.noSlot) ?_
      (fun path _ o ho => preserves_noSlot_op ho.noSlot)
      (fun drafts => preserves_noSlot_op trivial) (preserves_noSlot_op trivial)
    intro a _
    cases a with
    | createDirectory path => exact preserves_noSlot_op (o := .fs (.createDirectory ..)) trivial
    | writeFile path content => exact preserves_noSlot_op (o := .fs (.writeFile ..)) trivial
    | runTool name args => exact preserves_bindE (runTool_holds args) fun _ => preserves_ret _
    | createArtifact path => exact preserves_ret _
  refine obeys_tryExcept (R := fun _ held => held = []) ?_ (fun _ _ h => h) ?_ fun _ _ _ h => h
  · exact bracket_holds (.sys (.acquireGate server)) (k := .gate server) rfl
      (.inl ⟨rfl, rfl⟩) (fun _ => rfl) (fun _ => rfl) (fun _ => rfl) rfl (hslot _ rfl) fun _ => rfl
  · rintro e _ _ rfl
    exact preserves_bindE (preserves_noSlot_op (I := fun q => q = [])
      (o := JobOrchestratorService.queueTimeoutOp j) trivial) (fun _ => preserves_ret _) _ rfl

/-- Calls other than runs take no slot. -/
theorem Call.noSlot {c : Call} (hc : c.site = none) {o : Op} (h : c.ops o) : o.NoSlot := by
  cases o with
  | db o => trivial
  | fs o => trivial
  | sys o =>
    cases c with
    | run server j => exact absurd hc (by simp [Call.site])
    | recover cutoff => exact absurd h id
    | create prompt => cases o <;> trivial
    | refine parent prompt => cases o <;> trivial
    | orphan orphan => cases o <;> trivial

/-- Every call gives back the slots that it takes. -/
theorem body_holds (parts : Parts) (c : Call) :
    Obeys (slots.protocol c.mayWait) (fun _ held => held = []) ((platform parts).body c) [] := by
  have hother : c.site = none →
      Obeys (slots.protocol c.mayWait) (fun _ held => held = []) ((platform parts).body c) [] := by
    intro hsite
    exact preserves_noSlot (I := fun q => q = [])
      (calls_mono (fun _ ho => c.noSlot hsite ho) (body_calls parts c)) _ rfl
  cases c with
  | run server j =>
    refine obeys_bindE run_holds ?_ fun _ _ h => h
    rintro _ _ rfl
    exact obeys_ret rfl
  | _ => exact hother rfl

end Programs

/-! ### Conservation -/

section Conservation

variable {parts : Parts} {m : State}

/-- The slots of a run: none, one of the gate, or one of the tool above it. -/
def Call.Shape : Call → List Slot → Prop
  | run server _, held => held <:+ [.cli server, .gate server]
  | recover _, held | create _, held | refine _ _, held | orphan _, held => held = []

theorem slotWaits_of_take {o : Op} {r : Res o} {k : Slot} (h : slotEvent o r = .take k) :
    slotWaits o = some k := by
  cases o with
  | db o => exact absurd h (by simp [slotEvent])
  | fs o => exact absurd h (by simp [slotEvent])
  | sys o =>
    cases o with
    | acquireGate s =>
      rcases r with e | u
      · exact absurd h (by simp [slotEvent])
      · exact congrArg some (SlotEvent.take.inj h)
    | acquireCli s =>
      rcases r with e | u
      · exact absurd h (by simp [slotEvent])
      · exact congrArg some (SlotEvent.take.inj h)
    | _ => exact absurd h (by simp [slotEvent])

theorem eq_acquireGate {o : Op} {server : ℕ} (h : slotWaits o = some (.gate server)) :
    o = .sys (.acquireGate server) := by
  cases o with
  | db o => exact absurd h (by simp [slotWaits])
  | fs o => exact absurd h (by simp [slotWaits])
  | sys o =>
    cases o with
    | acquireGate s => rw [Slot.gate.inj (Option.some.inj h)]
    | _ => exact absurd h (by simp [slotWaits])

theorem held_shape (hm : (platform parts).Reach (start parts) m) {t : ℕ} {c : Call}
    {p : Prog Op Res (Except Exn Reply)} (ht : m.threads[t]? = some (c, p)) :
    c.Shape (slots.held t m.view.history) := by
  refine System.Reach.held_shape (body_holds parts) hm ?_ ?_ ?_ (fun _ _ _ => slotWaits_of_take) ht
  · intro c
    cases c with
    | run server j => exact List.nil_suffix
    | _ => rfl
  · intro c held k hshape hmay
    cases c with
    | run server j =>
      rcases hmay with ⟨rfl, rfl⟩ | ⟨rfl, rfl⟩
      · exact ⟨[.cli server], rfl⟩
      · exact List.suffix_refl _
    | _ => exact absurd hmay id
  · intro c held k hshape
    cases c with
    | run server j => exact (List.suffix_cons k held).trans hshape
    | _ => exact absurd hshape (by simp [Call.Shape])

/-- A call holds at most one slot of a semaphore. -/
theorem Call.Shape.count {c : Call} {held : List Slot} (h : c.Shape held) (k : Slot) :
    held.count k = if k ∈ held then 1 else 0 := by
  have hnodup : held.Nodup := by
    cases c with
    | run server j => exact h.sublist.nodup (by simp)
    | _ => exact h ▸ List.nodup_nil
  exact List.Nodup.count hnodup

/-- The calls that hold a slot of `k`. -/
def State.holders (k : Slot) (m : State) : Finset ℕ :=
  (Finset.range m.threads.length).filter fun t => k ∈ slots.held t m.view.history

/-- The free slots of a semaphore and the calls that hold one make up its capacity. -/
theorem card_holders (hm : (platform parts).Reach (start parts) m) (k : Slot) :
    k.free m.view.state + (m.holders k).card = k.free (World.initial parts.base) := by
  have haccount := System.Reach.slots_accounted slots_balanced (body_holds parts) hm k
  have hsum : slots.inUse k m.threads.length m.view.history = (m.holders k).card := by
    rw [State.holders, Finset.card_filter]
    refine Finset.sum_congr rfl fun t ht => ?_
    obtain ⟨⟨c, p⟩, hthread⟩ : ∃ x, m.threads[t]? = some x :=
      ⟨_, List.getElem?_eq_getElem (Finset.mem_range.mp ht)⟩
    exact (held_shape hm hthread).count k
  rw [← hsum]
  exact haccount

/-- A call that holds a slot is a run on its server, and has not returned. -/
theorem run_of_held (hm : (platform parts).Reach (start parts) m) {t : ℕ} {k : Slot}
    (ht : t < m.threads.length) (hk : k ∈ slots.held t m.view.history) :
    ∃ server j o f, m.threads[t]? = some (.run server j, .call o f) ∧
      slots.held t m.view.history <:+ [.cli server, .gate server] := by
  obtain ⟨⟨c, p⟩, hthread⟩ : ∃ x, m.threads[t]? = some x := ⟨_, List.getElem?_eq_getElem ht⟩
  have hshape := held_shape hm hthread
  have hobeys := System.Reach.held_obeys (body_holds parts) hm hthread
  have hne : slots.held t m.view.history ≠ [] := List.ne_nil_of_mem hk
  cases p with
  | ret a => exact absurd hobeys.returned hne
  | call o f =>
    cases c with
    | run server j => exact ⟨server, j, o, f, hthread, hshape⟩
    | _ => exact absurd hshape hne

theorem mem_holders {k : Slot} {t : ℕ} :
    t ∈ m.holders k ↔ t < m.threads.length ∧ k ∈ slots.held t m.view.history := by
  rw [State.holders, Finset.mem_filter, Finset.mem_range]

/-- A run that holds a tool slot holds a slot of the gate. -/
theorem slots_nested (hm : (platform parts).Reach (start parts) m) (server : ℕ) :
    m.holders (.cli server) ⊆ m.holders (.gate server) := by
  intro t ht
  obtain ⟨hlt, hk⟩ := mem_holders.mp ht
  obtain ⟨s, j, o, f, -, hshape⟩ := run_of_held hm hlt hk
  refine mem_holders.mpr ⟨hlt, ?_⟩
  -- a suffix of the two slots that has the upper one has the lower one
  obtain rfl : server = s := by simpa using hshape.subset hk
  rcases List.suffix_cons_iff.mp hshape with heq | hsuffix
  · rw [heq]
    simp
  · exact absurd (hsuffix.subset hk) (by simp)

/-- **Slots are conserved.**  In every reachable state, whatever has failed, timed out or
been cancelled, the free slots of the gate of a server and the runs that hold one are
`MAX_CONCURRENT_JOBS` together, and those of the tool as many as its semaphore has.  Only
runs on this server that have not returned hold slots, and a run that holds a tool slot
holds a slot of the gate as well. -/
theorem slots_conserved (parts : Parts) {m : State}
    (hm : (platform parts).Reach (start parts) m) (server : ℕ) :
    m.view.state.gate server + (m.holders (.gate server)).card = maxConcurrentJobs ∧
    m.view.state.cli server + (m.holders (.cli server)).card = maxCliProcesses ∧
    m.holders (.cli server) ⊆ m.holders (.gate server) ∧
    ∀ t ∈ m.holders (.gate server), ∃ j o k, m.threads[t]? = some (.run server j, .call o k) := by
  refine ⟨card_holders hm (.gate server), card_holders hm (.cli server),
    slots_nested hm server, ?_⟩
  intro t ht
  obtain ⟨hlt, hk⟩ := mem_holders.mp ht
  obtain ⟨s, j, o, f, hthread, hshape⟩ := run_of_held hm hlt hk
  obtain rfl : server = s := by simpa using hshape.subset hk
  exact ⟨j, o, f, hthread⟩

end Conservation

set_option maxRecDepth 100000 in
/-- While the tool of the first run is running, one slot of either kind is in use. -/
theorem slots_conserved_launched :
    ∃ m : State, (platform (Sample.parts Sample.toolPlan)).Reach
        (start (Sample.parts Sample.toolPlan)) m ∧ m.view.state.gate 0 = 1 ∧
      m.view.state.gate 0 + (m.holders (.gate 0)).card = maxConcurrentJobs ∧
      m.view.state.cli 0 + (m.holders (.cli 0)).card = maxCliProcesses := by
  obtain ⟨m, hm, hgood⟩ := Sample.reached (Sample.parts Sample.toolPlan) Sample.launched
    (fun m => m.view.state.gate 0 = 1) (by decide +kernel)
  obtain ⟨hgate, hcli, -, -⟩ := slots_conserved _ hm 0
  exact ⟨m, hm, of_decide_eq_true hgood, hgate, hcli⟩

/-! ### Progress -/

/-- The environment neither fails nor cancels, and nobody has waited too long. -/
def Env.Quiet (e : Env) : Prop := e.fault = none ∧ e.cancel = false ∧ e.timedOut = false

/-- No job and no snapshot has this identifier. -/
def Unused (base : Path) (w : World) (u : Uuid) : Prop :=
  w.db.job u = none ∧ ∀ j, (FsOp.beginAttempt j).enabled base u w.fs = true

/-- Call `t` can perform its next operation in a quiet environment. -/
def State.CanMove (parts : Parts) (m : State) (t : ℕ) : Prop :=
  ∃ c o k e r s, m.threads[t]? = some (c, .call o k) ∧
    exec parts.base e o m.view.state = some (r, s) ∧ e.Quiet

section Progress

variable {base : Path} {w : World}

/-- The quiet environment that gives these identifiers. -/
def quietEnv (fresh : Uuid) (pid : ℕ) : Env where
  fault := none
  cancel := false
  timedOut := false
  now := 0
  skip := 0
  fresh := fresh
  pid := pid
  traversal := Traversal.id
  damage := fun _ => .untouched
  answer := .ok ""
  behaviour := fun _ _ => ⟨[], .exited 0, []⟩

theorem quiet_quietEnv (fresh : Uuid) (pid : ℕ) : (quietEnv fresh pid).Quiet := ⟨rfl, rfl, rfl⟩

/-- A transaction can run if there is an identifier for the row that it may insert. -/
theorem isSome_run {u : Uuid} (hu : w.db.job u = none) (now skip : ℕ) (o : DbOp) :
    (o.run now skip u w.db).isSome = true := by
  cases o with
  | getJob j => rfl
  | scanStale cutoff => rfl
  | rollbackSession j => rfl
  | insertJob prompt parent =>
    rw [DbOp.run, hu]
    rfl
  | transition j expected target code message => grind [DbOp.run]
  | appendEvent j code message => grind [DbOp.run]
  | saveActionPlan j actions => grind [DbOp.run]
  | recoverOne j cutoff => grind [DbOp.run]
  | logEvents j rows => grind [DbOp.run]
  | flushArtifact j rel name type => grind [DbOp.run]
  | commitArtifacts j drafts => grind [DbOp.run]

/-- An operation waits for nothing but a slot, an orphan, an unused identifier, or the pipes
of a killed tool. -/
theorem exec_possible {u : Uuid} (hu : Unused base w u) {o : Op}
    (hslot : ∀ k, slotWaits o = some k → 0 < k.free w)
    (horphan : ∀ x, o = .sys (.takeOrphan x) → x ∈ w.orphans)
    (hpipes : ∀ pid, o ≠ .sys (.waitProcess pid true)) :
    ∃ e r s, exec base e o w = some (r, s) ∧ e.Quiet := by
  -- some process number is not in use
  obtain ⟨pid, hpid⟩ := Infinite.exists_notMem_finset w.live.toFinset
  rw [List.mem_toFinset] at hpid
  suffices hsome : (exec base (quietEnv u pid) o w).isSome = true by
    obtain ⟨⟨r, s⟩, hrun⟩ := Option.isSome_iff_exists.mp hsome
    exact ⟨_, r, s, hrun, quiet_quietEnv u pid⟩
  cases o with
  | db o =>
    rw [exec, Option.isSome_map]
    exact isSome_run hu.1 _ _ o
  | fs o =>
    have henabled : o.enabled base (quietEnv u pid).fresh w.fs = true := by
      cases o with
      | beginAttempt j => exact hu.2 j
      | _ => rfl
    rw [exec, Option.isSome_map, FsOp.run, if_pos henabled]
    rfl
  | sys o =>
    cases o with
    | acquireGate s =>
      have hfree : 0 < w.gate s := hslot (.gate s) rfl
      simp [exec, SysOp.exec, quietEnv, takeSlot, hfree]
    | acquireCli s =>
      have hfree : 0 < w.cli s := hslot (.cli s) rfl
      simp [exec, SysOp.exec, quietEnv, takeSlot, hfree]
    | launch args staged => simp [exec, SysOp.exec, quietEnv, hpid]
    | takeOrphan x =>
      rw [exec, SysOp.exec, if_pos (horphan x rfl)]
      rfl
    | waitProcess pid connected =>
      cases connected with
      | true => exact absurd rfl (hpipes pid)
      | false => rfl
    | _ => rfl

variable {parts : Parts} {m : State}

/-- Only the drain of an orphan takes it. -/
theorem orphan_of_takeOrphan (hm : (platform parts).Reach (start parts) m) {t : ℕ} {c : Call}
    {x : Orphan} {k : Res (.sys (.takeOrphan x)) → Prog Op Res (Except Exn Reply)}
    (ht : m.threads[t]? = some (c, .call (.sys (.takeOrphan x)) k)) : c = .orphan x := by
  have hop := (System.Reach.calls (body_calls parts) hm ht).head
  cases c with
  | orphan o => exact congrArg Call.orphan (Eq.symm hop)
  | _ => exact absurd hop id

/-- Call `t` is a run on this server that waits for a tool which was killed at its deadline
while something else, such as a child of the tool, holds a pipe of it open. -/
def State.Hangs (m : State) (server t : ℕ) : Prop :=
  ∃ j pid k, m.threads[t]? = some (.run server j, .call (.sys (.waitProcess pid true)) k)

/-- Only runs wait for processes. -/
theorem run_of_waitProcess (hm : (platform parts).Reach (start parts) m) {t : ℕ} {c : Call}
    {pid : ℕ} {k : Res (.sys (.waitProcess pid true)) → Prog Op Res (Except Exn Reply)}
    (ht : m.threads[t]? = some (c, .call (.sys (.waitProcess pid true)) k)) :
    ∃ server, m.Hangs server t := by
  have hop := (System.Reach.calls (body_calls parts) hm ht).head
  cases c with
  | run server j => exact ⟨server, j, pid, k, ht⟩
  | _ => exact absurd hop id

/-- What a call that cannot go on waits for. -/
theorem stuck_cases (hm : (platform parts).Reach (start parts) m) {u : Uuid}
    (hu : Unused parts.base m.view.state u) {t : ℕ} (hstuck : ¬ m.CanMove parts t) {c : Call}
    {o : Op} {k : Res o → Prog Op Res (Except Exn Reply)}
    (ht : m.threads[t]? = some (c, .call o k)) :
    (∃ k', slotWaits o = some k' ∧ k'.free m.view.state = 0) ∨
      (∃ x, c = .orphan x ∧ x ∉ m.view.state.orphans) ∨ ∃ server, m.Hangs server t := by
  by_contra hcon
  simp only [not_or] at hcon
  obtain ⟨hslot, horphan, hhangs⟩ := hcon
  have hfree : ∀ k', slotWaits o = some k' → 0 < k'.free m.view.state := by
    intro k' hk'
    by_contra hzero
    exact hslot ⟨k', hk', Nat.eq_zero_of_not_pos hzero⟩
  have htaken : ∀ x, o = .sys (.takeOrphan x) → x ∈ m.view.state.orphans := by
    rintro x rfl
    by_contra hmem
    exact horphan ⟨x, orphan_of_takeOrphan hm ht, hmem⟩
  have hpipes : ∀ pid, o ≠ .sys (.waitProcess pid true) := by
    rintro pid rfl
    exact hhangs (run_of_waitProcess hm ht)
  obtain ⟨e, r, s, hexec, hquiet⟩ := exec_possible hu hfree htaken hpipes
  exact hstuck ⟨c, o, k, e, r, s, ht, hexec, hquiet⟩

/-- A run that waits for a slot waits for the gate, with nothing in its hands, or has a slot
of the gate and waits for the tool. -/
theorem waiting_run (hm : (platform parts).Reach (start parts) m) {t : ℕ} {c : Call} {o : Op}
    {k : Res o → Prog Op Res (Except Exn Reply)} (ht : m.threads[t]? = some (c, .call o k))
    {slot : Slot} (hwaits : slotWaits o = some slot) :
    ∃ server j, c = .run server j ∧
      ((slots.held t m.view.history = [] ∧ slot = .gate server) ∨
        (slots.held t m.view.history = [.gate server] ∧ slot = .cli server)) := by
  have hmay := (System.Reach.held_obeys (body_holds parts) hm ht).head.1 slot hwaits
  cases c with
  | run server j => exact ⟨server, j, rfl, hmay⟩
  | _ => exact absurd hmay id

/-- Whoever holds a slot of the gate, and none of the tool, finds one of the tool free. -/
theorem cli_left (hm : (platform parts).Reach (start parts) m) {t server : ℕ}
    (ht : t < m.threads.length) (hheld : slots.held t m.view.history = [.gate server]) :
    0 < m.view.state.cli server := by
  refine System.Reach.slot_left slots_balanced (body_holds parts) hm (.gate server)
    (.cli server) (Nat.le_refl maxConcurrentJobs) ?_ ht ?_
  · intro u hu
    obtain ⟨⟨c, p⟩, hthread⟩ : ∃ x, m.threads[u]? = some x := ⟨_, List.getElem?_eq_getElem hu⟩
    have hshape := held_shape hm hthread
    rw [hshape.count, hshape.count]
    have hboth : Slot.cli server ∈ slots.held u m.view.history →
        Slot.gate server ∈ slots.held u m.view.history := fun hcli =>
      (mem_holders.mp ((slots_nested hm server) (mem_holders.mpr ⟨hu, hcli⟩))).2
    by_cases hcli : Slot.cli server ∈ slots.held u m.view.history
    · rw [if_pos hcli, if_pos (hboth hcli)]
    · rw [if_neg hcli]
      exact Nat.zero_le _
  · rw [hheld]
    simp

/-- Where nothing moves, the runs that hold a slot of a gate hang. -/
theorem holder_hangs (hm : (platform parts).Reach (start parts) m) {u : Uuid}
    (hu : Unused parts.base m.view.state u) (hstuck : ∀ t, ¬ m.CanMove parts t) {server t : ℕ}
    (ht : t ∈ m.holders (.gate server)) : m.Hangs server t := by
  obtain ⟨hlt, hk⟩ := mem_holders.mp ht
  obtain ⟨s, j, o, f, hthread, hshape⟩ := run_of_held hm hlt hk
  obtain rfl : server = s := by simpa using hshape.subset hk
  rcases stuck_cases hm hu (hstuck t) hthread with ⟨slot, hwaits, hzero⟩ | ⟨x, hx, -⟩ | ⟨s, hs⟩
  · obtain ⟨s, i, heq, ⟨hnil, -⟩ | ⟨hheld, rfl⟩⟩ := waiting_run hm hthread hwaits
    · exact absurd hk (hnil ▸ List.not_mem_nil)
    · exact absurd (cli_left hm hlt hheld) (Nat.not_lt.mpr hzero.le)
  · exact absurd hx (by simp)
  · obtain ⟨i, pid, k, hi⟩ := hs
    obtain ⟨heq, -⟩ := Prod.mk.inj (Option.some.inj (hi.symm.trans hthread))
    obtain ⟨rfl, -⟩ := Call.run.inj heq
    exact ⟨i, pid, k, hi⟩

/-- **Only a killed tool whose pipes stay open holds anything up.**  Take a reachable state
in which no call can perform its next operation, although nothing fails, is cancelled or
times out and there is an unused identifier.  Every call has returned, or is a drain whose
orphan another drain has taken, or hangs in the wait for a killed tool while a pipe of it is
connected, or is a run in front of a gate without free slots.  On every server the runs that
hold slots are ones that hang in this way, and where none does all slots are free. -/
theorem never_stuck (parts : Parts) {m : State} (hm : (platform parts).Reach (start parts) m)
    (hfresh : ∃ u, Unused parts.base m.view.state u)
    (hstuck : ∀ t, ¬ m.CanMove parts t) :
    (∀ (t : ℕ) (c : Call) (p : Prog Op Res (Except Exn Reply)), m.threads[t]? = some (c, p) →
      (∃ r, p = .ret r) ∨ (∃ x, c = .orphan x ∧ x ∉ m.view.state.orphans) ∨
      (∃ server, m.Hangs server t) ∨
      ∃ server j k, (c, p) = (.run server j, .call (.sys (.acquireGate server)) k) ∧
        m.view.state.gate server = 0) ∧
    ∀ server, (∀ t ∈ m.holders (.gate server), m.Hangs server t) ∧
      ((∀ t, ¬ m.Hangs server t) → m.view.state.gate server = maxConcurrentJobs ∧
        m.view.state.cli server = maxCliProcesses) := by
  obtain ⟨u, hu⟩ := hfresh
  refine ⟨fun t c p ht => ?_, fun server => ⟨fun t => holder_hangs hm hu hstuck, fun hnone => ?_⟩⟩
  · cases p with
    | ret r => exact .inl ⟨r, rfl⟩
    | call o k =>
      rcases stuck_cases hm hu (hstuck t) ht with ⟨slot, hwaits, hzero⟩ | horphan | hhangs
      · obtain ⟨server, j, rfl, ⟨hnil, rfl⟩ | ⟨hheld, rfl⟩⟩ := waiting_run hm ht hwaits
        · obtain rfl := eq_acquireGate hwaits
          exact .inr (.inr (.inr ⟨server, j, k, rfl, hzero⟩))
        · have hlt := (List.getElem?_eq_some_iff.mp ht).1
          exact absurd (cli_left hm hlt hheld) (Nat.not_lt.mpr hzero.le)
      · exact .inr (.inl horphan)
      · exact .inr (.inr (.inl hhangs))
  · have hgate : m.holders (.gate server) = ∅ :=
      Finset.eq_empty_of_forall_notMem fun t ht => hnone t (holder_hangs hm hu hstuck ht)
    have hcli : m.holders (.cli server) = ∅ :=
      Finset.subset_empty.mp (hgate ▸ slots_nested hm server)
    have hgates := card_holders hm (.gate server)
    have hclis := card_holders hm (.cli server)
    rw [hgate, Finset.card_empty] at hgates
    rw [hcli, Finset.card_empty] at hclis
    exact ⟨hgates, hclis⟩

end Progress

namespace Sample

/-- The tool is killed at its deadline, and a child that it has left holds its output open. -/
def stalled : Env :=
  { calm with behaviour := fun _ _ => ⟨[(.stdout, utf8 "ok\n")], .deadline true, []⟩ }

def waitsForPipes : Op → Bool
  | .sys (.waitProcess _ connected) => connected
  | _ => false

/-- Every call has returned or waits for a tool whose pipes are connected. -/
def halted (m : State) : Bool :=
  m.threads.all fun x => match x.2 with
    | .ret _ => true
    | .call o _ => waitsForPipes o

theorem eq_of_waitsForPipes {o : Op} (h : waitsForPipes o = true) :
    ∃ pid, o = .sys (.waitProcess pid true) := by
  cases o with
  | db o => exact absurd h (by simp [waitsForPipes])
  | fs o => exact absurd h (by simp [waitsForPipes])
  | sys o =>
    cases o with
    | waitProcess pid connected =>
      obtain rfl : connected = true := h
      exact ⟨pid, rfl⟩
    | _ => exact absurd h (by simp [waitsForPipes])

/-- No job and no entry of the storage has this identifier. -/
def unseen (u : Uuid) (m : State) : Bool :=
  m.view.state.db.job u = none && m.view.state.fs.paths.all fun p => p.getLast? ≠ some u.str

theorem not_canMove_of_halted {deployment : Parts} {m : State} (h : halted m = true) (t : ℕ) :
    ¬ m.CanMove deployment t := by
  rintro ⟨c, o, k, e, r, s, ht, hexec, -, hcancel, -⟩
  obtain ⟨pid, rfl⟩ := eq_of_waitsForPipes (List.all_eq_true.mp h _ (List.mem_of_getElem? ht))
  simp [exec, SysOp.exec, hcancel] at hexec

theorem unused_of_unseen {base : Path} {u : Uuid} {m : State} (h : unseen u m = true)
    (hname : segments u.str = [u.str] ∧ Plain u.str) : Unused base m.view.state u := by
  obtain ⟨hjob, hpaths⟩ := (Bool.and_eq_true _ _).mp h
  refine ⟨of_decide_eq_true hjob, fun j => ?_⟩
  have hpath : LocalStorage.attemptPath base j u.str =
      .ok (LocalStorage.root base .snapshots j ++ [u.str]) := by
    rw [LocalStorage.attemptPath, resolve_plain (by simpa [hname.1] using hname.2), hname.1]
    exact if_pos (List.prefix_append _ _)
  rw [FsOp.enabled, hpath]
  by_contra hnode
  have hmem := m.view.state.fs.mem_paths _ fun hnone => hnode (decide_eq_true hnone)
  exact of_decide_eq_true (List.all_eq_true.mp hpaths _ hmem) List.getLast?_concat

end Sample

set_option maxRecDepth 100000 in
/-- A run hangs with a slot of the gate, and there is nothing else to do. -/
theorem never_stuck_stalled :
    ∃ m : State, (platform (Sample.parts Sample.toolPlan)).Reach
        (start (Sample.parts Sample.toolPlan)) m ∧
      (∀ t, ¬ m.CanMove (Sample.parts Sample.toolPlan) t) ∧ m.view.state.gate 0 = 1 ∧
      ∃ t ∈ m.holders (.gate 0), m.Hangs 0 t := by
  obtain ⟨m, hm, hgood⟩ := Sample.reached (Sample.parts Sample.toolPlan)
    (Sample.created ++ .invoke (.run 0 Sample.job) :: List.replicate 11 (.perform 1 Sample.stalled))
    (fun m => m.view.state.gate 0 = 1 && Sample.halted m && Sample.unseen ⟨7⟩ m)
    (by decide +kernel)
  simp only [Bool.and_eq_true, decide_eq_true_eq] at hgood
  obtain ⟨⟨hgate, hhalted⟩, hunseen⟩ := hgood
  have hunused : Unused (Sample.parts Sample.toolPlan).base m.view.state ⟨7⟩ :=
    Sample.unused_of_unseen hunseen (by decide +kernel)
  have hstuck : ∀ t, ¬ State.CanMove (Sample.parts Sample.toolPlan) m t :=
    Sample.not_canMove_of_halted hhalted
  -- one slot of the gate is in use
  have hcard : 1 + (State.holders (.gate 0) m).card = 2 := hgate ▸ card_holders hm (.gate 0)
  obtain ⟨t, ht⟩ := Finset.card_pos.mp (show 0 < (State.holders (.gate 0) m).card by omega)
  exact ⟨m, hm, hstuck, hgate, t, ht, ((never_stuck _ hm ⟨_, hunused⟩ hstuck).2 0).1 t ht⟩

end CliExecutionPlatform
