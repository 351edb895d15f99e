/-
The slots of the connection registry.

A server holds one registry and any number of stream requests; a step is a new
request or the next step of one of them, with any database, any clock and any
exception.  A slot is taken in the router and given back by the `finally` block
of the generator, which runs only if the generator was ever advanced.

* `Connection.Tidy` — the record of a request: whether it has a slot and how
  often it has given it back, at every phase;
* `StreamServer.active_eq` — the registry counts the requests that have taken a slot
  and not given it back;
* `slots_accounted_iff` — these are the requests that are still served, exactly
  as long as no client has gone away before its generator was first advanced.
-/
import CliExecutionPlatform.StreamDelivery

namespace CliExecutionPlatform

/-! ### One request -/

namespace ConnectionRegistry

variable {r r' : ConnectionRegistry}

theorem tryAcquire_true (h : r.tryAcquire = (true, r')) :
    r'.maxConnections = r.maxConnections ∧ r'.activeConnections = r.activeConnections + 1 := by
  rw [tryAcquire] at h
  by_cases hfull : r.maxConnections ≤ r.activeConnections
  · rw [dif_pos hfull] at h
    exact absurd (Prod.mk.inj h).1 Bool.false_ne_true
  · rw [dif_neg hfull] at h
    rw [← (Prod.mk.inj h).2]
    exact ⟨rfl, rfl⟩

theorem tryAcquire_false (h : r.tryAcquire = (false, r')) : r' = r := by
  rw [tryAcquire] at h
  by_cases hfull : r.maxConnections ≤ r.activeConnections
  · rw [dif_pos hfull] at h
    exact (Prod.mk.inj h).2.symm
  · rw [dif_neg hfull] at h
    exact absurd (Prod.mk.inj h).1 (by simp)

theorem release_of_pos (h : 0 < r.activeConnections) :
    r.release.maxConnections = r.maxConnections ∧
      r.release.activeConnections + 1 = r.activeConnections := by
  rw [release, if_pos h]
  exact ⟨rfl, Nat.sub_add_cancel h⟩

end ConnectionRegistry

namespace Connection

/-- The request has been answered or its stream is over. -/
def ended (c : Connection) : Bool :=
  match c.phase with
  | .refused _ _ _ | .failed _ => true
  | .streaming g => g.point = .closed ∨ g.point = .discarded
  | .lookup | .resolve _ | .acquire _ | .respond _ => false

/-- The client went away before the generator was first advanced. -/
def discarded (c : Connection) : Bool :=
  match c.phase with
  | .streaming g => g.point = .discarded
  | _ => false

/-- The request was given a slot and has not ended. -/
def served (c : Connection) : Bool := c.acquired && !c.ended

/-- A slot was taken and not given back. -/
def occupies (c : Connection) : Bool := c.acquired && c.releases == 0

/-- The number of slots that a request occupies. -/
def slots (c : Connection) : ℕ := if c.occupies then 1 else 0

/-- Whether a slot was taken, and how often it has been given back. -/
def Tidy (c : Connection) : Prop :=
  match c.phase with
  | .lookup | .resolve _ | .acquire _ | .refused _ _ _ => c.acquired = false ∧ c.releases = 0
  | .respond _ => c.acquired = true ∧ c.releases = 0
  | .streaming g => c.acquired = true ∧ c.releases = if g.point = .closed then 1 else 0
  | .failed _ => c.releases = if c.acquired then 1 else 0

theorem tidy_request (j : Uuid) (streamToken lastEventId : Option String) :
    (request j streamToken lastEventId).Tidy := ⟨rfl, rfl⟩

section Step

variable {cfg : StreamConfig} {tokens : StreamTokenService} {db : Db} {m : Moment}
  {c c' : Connection} {registry registry' : ConnectionRegistry}

/-- Leaving a query without a slot. -/
theorem tidy_queryFails (h : c.acquired = false ∧ c.releases = 0) (e : StreamExn) :
    (c.queryFails e).Tidy ∧ (c.queryFails e).slots = c.slots := by
  rw [queryFails]
  by_cases hsql : e.isSqlalchemy
  · rw [if_pos hsql]
    exact ⟨h, rfl⟩
  · rw [if_neg hsql]
    refine ⟨?_, rfl⟩
    show c.releases = if c.acquired then 1 else 0
    rw [h.1, h.2]
    rfl

theorem tidy_check (tokens : StreamTokenService)
    (h : c.acquired = false ∧ c.releases = 0) (found : Bool) :
    (c.check tokens found).Tidy ∧ (c.check tokens found).slots = c.slots := by
  cases found with
  | false => exact ⟨h, rfl⟩
  | true =>
    rw [check, if_pos rfl]
    rcases tokens.verifyToken c.job c.streamToken with e | b
    · refine ⟨?_, rfl⟩
      show c.releases = if c.acquired then 1 else 0
      rw [h.1, h.2]
      rfl
    · cases b with
      | false => exact ⟨h, rfl⟩
      | true => exact ⟨h, rfl⟩

/-- A step of the generator is a step of the request. -/
theorem step_streaming {g : Generator} (hp : c.phase = .streaming g)
    (h : c.step cfg tokens db m registry = some (c', registry')) :
    ∃ g' released, g.step cfg db m = some (g', released) ∧ c'.phase = .streaming g' ∧
      c'.acquired = c.acquired ∧ c'.releases = c.releases + (if released then 1 else 0) ∧
      registry' = if released then registry.release else registry := by
  simp only [step, hp] at h
  obtain ⟨⟨g', released⟩, hg, heq⟩ := Option.map_eq_some_iff.mp h
  cases released with
  | false =>
    obtain ⟨rfl, rfl⟩ := Prod.mk.inj heq
    exact ⟨g', false, hg, rfl, rfl, rfl, rfl⟩
  | true =>
    obtain ⟨rfl, rfl⟩ := Prod.mk.inj heq
    exact ⟨g', true, hg, rfl, rfl, rfl, rfl⟩

/-- **What one step does to the slots.**  The registry changes by what the
request takes or gives back. -/
theorem step_slots (hc : c.Tidy) (hactive : c.slots ≤ registry.activeConnections)
    (h : c.step cfg tokens db m registry = some (c', registry')) :
    c'.Tidy ∧ registry'.maxConnections = registry.maxConnections ∧
      registry'.activeConnections + c.slots = registry.activeConnections + c'.slots := by
  -- A slot is taken in phase `acquire` and given back by `respond` or the generator.
  cases hp : c.phase with
  | lookup =>
    have hnone : c.acquired = false ∧ c.releases = 0 := by simpa only [Tidy, hp] using hc
    rcases hr : m.raised with _ | e
    · simp only [step, hp, hr, Option.some.injEq, Prod.mk.injEq] at h
      obtain ⟨rfl, rfl⟩ := h
      obtain ⟨htidy, hslots⟩ := tidy_check tokens hnone (jobExists db c.job)
      exact ⟨htidy, rfl, by rw [hslots]⟩
    · simp only [step, hp, hr, Option.some.injEq, Prod.mk.injEq] at h
      obtain ⟨rfl, rfl⟩ := h
      obtain ⟨htidy, hslots⟩ := tidy_queryFails hnone e
      exact ⟨htidy, rfl, by rw [hslots]⟩
  | resolve candidate =>
    have hnone : c.acquired = false ∧ c.releases = 0 := by simpa only [Tidy, hp] using hc
    rcases hr : m.raised with _ | e
    · simp only [step, hp, hr, Option.some.injEq, Prod.mk.injEq] at h
      obtain ⟨rfl, rfl⟩ := h
      exact ⟨hnone, rfl, rfl⟩
    · simp only [step, hp, hr, Option.some.injEq, Prod.mk.injEq] at h
      obtain ⟨rfl, rfl⟩ := h
      obtain ⟨htidy, hslots⟩ := tidy_queryFails hnone e
      exact ⟨htidy, rfl, by rw [hslots]⟩
  | acquire cursor =>
    have hnone : c.acquired = false ∧ c.releases = 0 := by simpa only [Tidy, hp] using hc
    rcases hr : m.raised with _ | e
    · simp only [step, hp, hr] at h
      rcases hacq : registry.tryAcquire with ⟨_ | _, r⟩
      · simp only [hacq, Option.some.injEq, Prod.mk.injEq] at h
        obtain ⟨rfl, rfl⟩ := h
        rw [ConnectionRegistry.tryAcquire_false hacq]
        exact ⟨hnone, rfl, rfl⟩
      · simp only [hacq, Option.some.injEq, Prod.mk.injEq] at h
        obtain ⟨hc', rfl⟩ := h
        obtain ⟨hmax, hcount⟩ := ConnectionRegistry.tryAcquire_true hacq
        have hbefore : c.slots = 0 := by simp [slots, occupies, hnone.1]
        have hafter : c'.slots = 1 := by simp [slots, occupies, goes, hnone.2, ← hc']
        refine ⟨?_, hmax, by omega⟩
        rw [← hc']
        exact ⟨rfl, hnone.2⟩
    · simp [step, hp, hr] at h
  | respond cursor =>
    have hheld : c.acquired = true ∧ c.releases = 0 := by simpa only [Tidy, hp] using hc
    have hbefore : c.slots = 1 := by simp [slots, occupies, hheld]
    rcases hr : m.raised with _ | e
    · simp only [step, hp, hr, Option.some.injEq, Prod.mk.injEq] at h
      obtain ⟨rfl, rfl⟩ := h
      exact ⟨hheld, rfl, rfl⟩
    · cases e with
      | other =>
        simp only [step, hp, hr, Option.some.injEq, Prod.mk.injEq] at h
        obtain ⟨hc', rfl⟩ := h
        obtain ⟨hmax, hcount⟩ := ConnectionRegistry.release_of_pos (r := registry) (by omega)
        have hafter : c'.slots = 0 := by simp [slots, occupies, goes, ← hc']
        refine ⟨?_, hmax, by omega⟩
        rw [← hc']
        show c.releases + 1 = if c.acquired then 1 else 0
        rw [hheld.1, hheld.2]
        rfl
      | _ => simp [step, hp, hr] at h
  | streaming g =>
    obtain ⟨g', released, hg, hp', hacq, hrel, hreg⟩ := step_streaming hp h
    obtain ⟨⟨hopen, -⟩, hclosed⟩ := Generator.step_released hg
    have hheld : c.acquired = true ∧ c.releases = if g.point = .closed then 1 else 0 := by
      simpa only [Tidy, hp] using hc
    rw [if_neg hopen] at hheld
    have hbefore : c.slots = 1 := by simp [slots, occupies, hheld]
    cases released with
    | false =>
      have hstill : ¬ g'.point = .closed := fun hcon => absurd (hclosed.mp hcon) Bool.false_ne_true
      have hafter : c'.slots = 1 := by simp [slots, occupies, hacq, hrel, hheld]
      refine ⟨?_, by rw [hreg]; rfl, ?_⟩
      · simp only [Tidy, hp', hacq, hrel, hheld, if_neg hstill]
        simp
      · rw [hreg, hbefore, hafter]
        rfl
    | true =>
      have hdone : g'.point = .closed := hclosed.mpr rfl
      have hafter : c'.slots = 0 := by simp [slots, occupies, hrel]
      obtain ⟨hmax, hcount⟩ := ConnectionRegistry.release_of_pos (r := registry) (by omega)
      rw [if_pos rfl] at hreg
      refine ⟨?_, by rw [hreg, hmax], ?_⟩
      · simp only [Tidy, hp', hacq, hrel, hheld, if_pos hdone]
        simp
      · rw [hreg]
        omega
  | refused status code message => simp [step, hp] at h
  | failed e => simp [step, hp] at h

end Step

/-- A slot is occupied by a request that is served or that was discarded. -/
theorem occupies_eq {c : Connection} (h : c.Tidy) :
    c.occupies = (c.served || c.discarded) ∧ (c.served && c.discarded) = false := by
  cases hp : c.phase with
  | streaming g =>
    have hheld : c.acquired = true ∧ c.releases = if g.point = .closed then 1 else 0 := by
      simpa only [Tidy, hp] using h
    cases hg : g.point <;> simp [occupies, served, ended, discarded, hp, hheld, hg]
  | failed e =>
    have hrel : c.releases = if c.acquired then 1 else 0 := by simpa only [Tidy, hp] using h
    cases hacq : c.acquired <;> simp [occupies, served, ended, discarded, hp, hrel, hacq]
  | respond cursor =>
    have hheld : c.acquired = true ∧ c.releases = 0 := by simpa only [Tidy, hp] using h
    simp [occupies, served, ended, discarded, hp, hheld]
  | _ =>
    have hnone : c.acquired = false ∧ c.releases = 0 := by simpa only [Tidy, hp] using h
    simp [occupies, served, discarded, hp, hnone]

/-- A request has given back its slot once if it had one and has ended, unless
it was discarded. -/
theorem releases_eq {c : Connection} (h : c.Tidy) :
    c.releases = if c.acquired ∧ c.ended ∧ ¬ c.discarded then 1 else 0 := by
  cases hp : c.phase with
  | streaming g =>
    have hheld : c.acquired = true ∧ c.releases = if g.point = .closed then 1 else 0 := by
      simpa only [Tidy, hp] using h
    cases hg : g.point <;> simp [ended, discarded, hp, hheld, hg]
  | failed e =>
    have hrel : c.releases = if c.acquired then 1 else 0 := by simpa only [Tidy, hp] using h
    cases hacq : c.acquired <;> simp [ended, discarded, hp, hrel, hacq]
  | respond cursor =>
    have hheld : c.acquired = true ∧ c.releases = 0 := by simpa only [Tidy, hp] using h
    simp [ended, hp, hheld]
  | _ =>
    have hnone : c.acquired = false ∧ c.releases = 0 := by simpa only [Tidy, hp] using h
    simp [hnone]

end Connection

/-! ### The server -/

structure StreamServer where
  registry : ConnectionRegistry
  connections : List Connection

namespace StreamServer

/-- A new request, or the next step of one that is there. -/
inductive Step (cfg : StreamConfig) (tokens : StreamTokenService) :
    StreamServer → StreamServer → Prop
  | request (s : StreamServer) (j : Uuid) (streamToken lastEventId : Option String) :
      Step cfg tokens s
        { s with connections := s.connections ++ [.request j streamToken lastEventId] }
  | act (s : StreamServer) (i : ℕ) {c c' : Connection} {registry : ConnectionRegistry} {db : Db}
      {m : Moment} (hi : s.connections[i]? = some c)
      (h : c.step cfg tokens db m s.registry = some (c', registry)) :
      Step cfg tokens s ⟨registry, s.connections.set i c'⟩

def Reach (cfg : StreamConfig) (tokens : StreamTokenService) : StreamServer → StreamServer → Prop :=
  Relation.ReflTransGen (Step cfg tokens)

/-- The registry counts the slots that requests occupy. -/
structure Counted (s : StreamServer) : Prop where
  tidy : ∀ c ∈ s.connections, c.Tidy
  active : s.registry.activeConnections = s.connections.countP Connection.occupies

theorem slots_le {s : StreamServer} {c : Connection} (h : c ∈ s.connections) :
    c.slots ≤ s.connections.countP Connection.occupies := by
  rw [Connection.slots]
  by_cases ho : c.occupies
  · rw [if_pos ho]
    exact List.countP_pos_iff.mpr ⟨c, h, ho⟩
  · rw [if_neg ho]
    exact Nat.zero_le _

/-- Exchanging one request exchanges what it counts. -/
theorem countP_set_slots {l : List Connection} {i : ℕ} {c : Connection} (hi : l[i]? = some c)
    (c' : Connection) : (l.set i c').countP Connection.occupies + c.slots =
      l.countP Connection.occupies + c'.slots := by
  obtain ⟨hlt, hc⟩ := List.getElem?_eq_some_iff.mp hi
  have hle : c.slots ≤ l.countP Connection.occupies :=
    slots_le (s := ⟨⟨1, 0, by omega, by omega⟩, l⟩) (List.mem_of_getElem? hi)
  rw [List.countP_set hlt, hc]
  rw [Connection.slots] at hle ⊢
  rw [Connection.slots]
  omega

theorem Step.counted {cfg : StreamConfig} {tokens : StreamTokenService} {s s' : StreamServer}
    (h : Step cfg tokens s s') (hs : s.Counted) :
    s'.Counted ∧ s'.registry.maxConnections = s.registry.maxConnections := by
  cases h with
  | request j streamToken lastEventId =>
    refine ⟨⟨fun c hc => ?_, ?_⟩, rfl⟩
    · rcases List.mem_append.mp hc with hc | hc
      · exact hs.tidy c hc
      · rw [List.mem_singleton.mp hc]
        exact Connection.tidy_request _ _ _
    · show s.registry.activeConnections = (s.connections ++ _).countP Connection.occupies
      rw [List.countP_append, hs.active]
      rfl
  | @act i c c' registry db m hi hstep =>
    have hmem := List.mem_of_getElem? hi
    -- A connection that has a slot is counted.
    have hle : c.slots ≤ s.registry.activeConnections := by
      rw [hs.active]
      exact slots_le hmem
    obtain ⟨htidy, hmax, hcount⟩ := Connection.step_slots (hs.tidy c hmem) hle hstep
    refine ⟨⟨fun d hd => ?_, ?_⟩, hmax⟩
    · rcases List.mem_or_eq_of_mem_set hd with hd | rfl
      · exact hs.tidy d hd
      · exact htidy
    · have hset := countP_set_slots hi c'
      have hactive := hs.active
      show registry.activeConnections = (s.connections.set i c').countP Connection.occupies
      omega

/-- The registry counts the slots in every reachable state. -/
theorem active_eq {cfg : StreamConfig} {tokens : StreamTokenService} {s₀ s : StreamServer}
    (h : Reach cfg tokens s₀ s) (h₀ : s₀.Counted) :
    s.Counted ∧ s.registry.maxConnections = s₀.registry.maxConnections := by
  induction h with
  | refl => exact ⟨h₀, rfl⟩
  | tail _ hstep ih =>
    obtain ⟨hcounted, hmax⟩ := hstep.counted ih.1
    exact ⟨hcounted, hmax.trans ih.2⟩

/-- Execution of given steps, each at a given request. -/
def play (cfg : StreamConfig) (tokens : StreamTokenService) (db : Db) :
    List (ℕ × Moment) → StreamServer → Option StreamServer
  | [], s => some s
  | (i, m) :: rest, s =>
    s.connections[i]?.bind fun c => (c.step cfg tokens db m s.registry).bind fun r =>
      play cfg tokens db rest ⟨r.2, s.connections.set i r.1⟩

theorem reach_of_play {cfg : StreamConfig} {tokens : StreamTokenService} {db : Db}
    {ms : List (ℕ × Moment)} {s s' : StreamServer} (h : play cfg tokens db ms s = some s') :
    Reach cfg tokens s s' := by
  induction ms generalizing s with
  | nil =>
    rw [← Option.some.inj h]
    exact .refl
  | cons im rest ih =>
    rw [play] at h
    obtain ⟨c, hi, h⟩ := Option.bind_eq_some_iff.mp h
    obtain ⟨r, hstep, h⟩ := Option.bind_eq_some_iff.mp h
    exact (Relation.ReflTransGen.single (.act s im.1 hi hstep)).trans (ih h)

/-- The active count is the number of requests that were given a slot and have
not ended, within the bounds, and every slot is given back exactly once. -/
def Accounted (n : ℕ) (s : StreamServer) : Prop :=
  s.registry.activeConnections = s.connections.countP Connection.served ∧
    (0 ≤ s.registry.activeConnections ∧ s.registry.activeConnections ≤ n) ∧
    ∀ c ∈ s.connections, c.releases = if c.acquired ∧ c.ended then 1 else 0

end StreamServer

/-- What is occupied is served or discarded. -/
theorem countP_occupies {l : List Connection} (h : ∀ c ∈ l, c.Tidy) :
    l.countP Connection.occupies =
      l.countP Connection.served + l.countP Connection.discarded := by
  induction l with
  | nil => rfl
  | cons c rest ih =>
    obtain ⟨heq, hboth⟩ := Connection.occupies_eq (h c List.mem_cons_self)
    have hrest := ih fun d hd => h d (List.mem_cons_of_mem _ hd)
    rw [List.countP_cons, List.countP_cons, List.countP_cons, heq, hrest]
    cases hs : c.served <;> cases hd : c.discarded
    · rfl
    · simp only [Bool.false_or, if_true, Bool.false_eq_true, if_false]
      omega
    · simp only [Bool.true_or, if_true, Bool.false_eq_true, if_false]
      omega
    · rw [hs, hd] at hboth
      exact absurd hboth (by simp)

/-- **The slots are accounted for** in a reachable state of the server exactly if
no client went away before its generator was first advanced. -/
theorem slots_accounted_iff (cfg : StreamConfig) (tokens : StreamTokenService) {n : ℤ}
    {registry : ConnectionRegistry} (hr : ConnectionRegistry.create n = .ok registry)
    {s : StreamServer} (h : StreamServer.Reach cfg tokens ⟨registry, []⟩ s) :
    s.Accounted n.toNat ↔ ∀ c ∈ s.connections, c.discarded = false := by
  -- The constructor refuses a maximum below one.
  have hnew : registry.activeConnections = 0 ∧ registry.maxConnections = n.toNat := by
    rw [ConnectionRegistry.create] at hr
    by_cases hn : n < 1
    · rw [dif_pos hn] at hr
      exact absurd hr (by simp)
    · rw [dif_neg hn] at hr
      rw [← Except.ok.inj hr]
      exact ⟨rfl, rfl⟩
  obtain ⟨hcounted, hmax⟩ :=
    StreamServer.active_eq h ⟨fun c hc => absurd hc List.not_mem_nil, hnew.1⟩
  have hcount := countP_occupies hcounted.tidy
  constructor
  · rintro ⟨hactive, -, -⟩ c hc
    have hzero : s.connections.countP Connection.discarded = 0 := by
      have := hcounted.active
      omega
    simpa using List.countP_eq_zero.mp hzero c hc
  · intro hnone
    have hzero : s.connections.countP Connection.discarded = 0 :=
      List.countP_eq_zero.mpr fun c hc => by simp [hnone c hc]
    refine ⟨?_, ⟨Nat.zero_le _, ?_⟩, fun c hc => ?_⟩
    · have := hcounted.active
      omega
    · rw [← hnew.2, ← hmax]
      exact s.registry.le_max
    · rw [Connection.releases_eq (hcounted.tidy c hc), hnone c hc]
      simp

namespace Sample

/-- A registry with one slot. -/
def oneSlot : ConnectionRegistry := ⟨1, 0, by decide, by decide⟩

/-- A server that has received two requests. -/
def twoRequests : StreamServer :=
  ⟨oneSlot, [.request job (some "v1.token") none, .request job (some "v1.token") none]⟩

theorem reach_twoRequests : StreamServer.Reach .default tokens ⟨oneSlot, []⟩ twoRequests :=
  (Relation.ReflTransGen.single (.request _ job (some "v1.token") none)).tail
    (.request _ job (some "v1.token") none)

/-- Steps at which nothing is raised. -/
def steps (i n : ℕ) : List (ℕ × Moment) := List.replicate n (i, ⟨0, none⟩)

/-- The client of request `i` goes away. -/
def leaves (i : ℕ) : ℕ × Moment := (i, ⟨0, some .cancelled⟩)

theorem played (ms : List (ℕ × Moment)) (good : StreamServer → Bool)
    (h : (StreamServer.play .default tokens (logged 1) ms twoRequests).any good = true) :
    ∃ s, StreamServer.Reach .default tokens ⟨oneSlot, []⟩ s ∧ good s = true := by
  obtain ⟨s, hs, hgood⟩ := (Option.any_eq_true _ _).mp h
  exact ⟨s, reach_twoRequests.trans (StreamServer.reach_of_play hs), hgood⟩

end Sample

set_option maxRecDepth 100000 in
/-- One client leaves in the middle of its stream, and the other one is served. -/
theorem slots_accounted_iff_sample :
    ∃ s, StreamServer.Reach .default Sample.tokens ⟨Sample.oneSlot, []⟩ s ∧
      s.connections.map Connection.served = [false, true] ∧ s.Accounted 1 := by
  obtain ⟨s, hs, hgood⟩ := Sample.played
    (Sample.steps 0 9 ++ [Sample.leaves 0] ++ Sample.steps 1 9)
    (fun s => s.connections.map Connection.served = [false, true] ∧
      s.connections.all fun c => !c.discarded) (by decide +kernel)
  obtain ⟨hserved, hnone⟩ := of_decide_eq_true hgood
  refine ⟨s, hs, hserved, (slots_accounted_iff .default Sample.tokens (n := 1) rfl hs).mpr ?_⟩
  intro c hc
  simpa using List.all_eq_true.mp hnone c hc

set_option maxRecDepth 100000 in
/-- A client leaves before its generator is advanced: nobody is served, the slot
is gone, and the next client is turned away. -/
theorem slot_leaks :
    ∃ s, StreamServer.Reach .default Sample.tokens ⟨Sample.oneSlot, []⟩ s ∧
      s.connections.map Connection.served = [false, false] ∧
      s.connections.map Connection.ended = [true, true] ∧
      s.registry.activeConnections = 1 ∧ ¬ s.Accounted 1 := by
  obtain ⟨s, hs, hgood⟩ := Sample.played
    (Sample.steps 0 4 ++ [Sample.leaves 0] ++ Sample.steps 1 3)
    (fun s => s.connections.map Connection.served = [false, false] ∧
      s.connections.map Connection.ended = [true, true] ∧
      s.registry.activeConnections = 1 ∧ s.connections.countP Connection.served = 0)
    (by decide +kernel)
  obtain ⟨hserved, hended, hactive, hnone⟩ := of_decide_eq_true hgood
  refine ⟨s, hs, hserved, hended, hactive, fun haccounted => ?_⟩
  have hcount := haccounted.1
  omega

end CliExecutionPlatform
