/-
Streams come to an end.

A slot of the registry is held until the generator of its request is over, and a client
that shows a job waits for the last frame.  Both hang on the loop of `stream`, which polls
for as long as it is not told otherwise.  What it finds at each step comes from outside: the
database, the clock, an exception, and the registry as the other requests have left it.

* `Point.rank`, `rank_step` — past `max_duration` every step brings the end nearer;
* **`stream_ends_after_deadline`** — past it, no request makes more steps than one fetch
  with its retries, one batch and the closing frame need, and its slot is given back;
* `leads_batch`, `leads_poll`, `leads_drain` — one batch, one poll, and the loop;
* **`ended_job_streamed_whole`** — for a job that has ended, the stream sends every event
  beyond the cursor and `STREAM_END`, in a number of steps that is known beforehand.
-/
import CliExecutionPlatform.StreamViewer

open AppendLog

namespace CliExecutionPlatform

/-- What a request finds at one step. -/
abbrev Scene := Db × Moment × ConnectionRegistry

def Generator.advance (cfg : StreamConfig) (x : Scene) (g : Generator) : Option Generator :=
  g.react cfg x.1 x.2.1

def Connection.advance (cfg : StreamConfig) (tokens : StreamTokenService) (x : Scene)
    (c : Connection) : Option Connection := c.react cfg tokens x.1 x.2

/-! ### Past the deadline -/

namespace Point

variable (cfg : StreamConfig)

/-- How many steps can be left once the time is up. -/
def rank : Point → ℕ
  | .unstarted | .closed | .discarded => 0
  | .last => 1
  | .top => 2
  | .asleep _ => 3
  | .batch _ _ rest => 2 * rest.length + 4
  | .yielded _ _ _ rest => 2 * rest.length + 5
  | .events attempt _ => 2 * cfg.batchSize + 3 * (cfg.retryDelays.length - attempt) + 5
  | .status attempt => 2 * cfg.batchSize + 3 * (cfg.retryDelays.length - attempt) + 6
  | .retry attempt _ => 2 * cfg.batchSize + 3 * (cfg.retryDelays.length - attempt) + 7

/-- The batches and the attempts are within their limits. -/
def Sized : Point → Prop
  | .batch _ _ rest => rest.length ≤ cfg.batchSize
  | .yielded _ _ _ rest => rest.length < cfg.batchSize
  | .retry attempt _ => 1 ≤ attempt ∧ attempt ≤ cfg.retryDelays.length
  | _ => True

end Point

/-- The steps that a stream can make after its time is up. -/
def StreamConfig.overtime (cfg : StreamConfig) : ℕ :=
  2 * cfg.batchSize + 3 * cfg.retryDelays.length + 6

theorem Point.Sized.rank_le {cfg : StreamConfig} {p : Point} (h : p.Sized cfg) :
    p.rank cfg ≤ cfg.overtime := by
  cases p with
  | batch status size rest =>
    have hle : rest.length ≤ cfg.batchSize := h
    simp only [rank, StreamConfig.overtime]
    omega
  | yielded status size event rest =>
    have hlt : rest.length < cfg.batchSize := h
    simp only [rank, StreamConfig.overtime]
    omega
  | retry attempt delay =>
    obtain ⟨hpos, hle⟩ : 1 ≤ attempt ∧ attempt ≤ cfg.retryDelays.length := h
    simp only [rank, StreamConfig.overtime]
    omega
  | _ =>
    simp only [rank, StreamConfig.overtime]
    omega

namespace Generator

variable {cfg : StreamConfig} {db : Db} {m : Moment} {g : Generator} {r : Generator × Bool}

/-- The generator has been advanced. -/
def Begun (g : Generator) : Prop := g.point ≠ .unstarted ∧ g.point ≠ .discarded

theorem length_queryEvents_le (db : Db) (j : Uuid) (c limit : ℕ) :
    (queryEvents db j c limit).length ≤ limit := by
  rw [queryEvents, List.length_map]
  exact List.length_take_le _ _

theorem sized_step (hg : g.point.Sized cfg) (h : g.step cfg db m = some r) :
    r.1.point.Sized cfg := by
  cases transition_of_step h with
  | events attempt s hp => exact length_queryEvents_le db g.job g.cursor cfg.batchSize
  | retry attempt delay hp hleft => exact ⟨Nat.le_add_left 1 attempt, hleft⟩
  | event s size e rest hp =>
    rw [hp] at hg
    exact hg
  | resume s size e rest hp =>
    rw [hp] at hg
    exact Nat.le_of_lt hg
  | _ => trivial

theorem begun_step (hg : g.Begun) (h : g.step cfg db m = some r) :
    r.1.Begun ∧ r.1.startedAt = g.startedAt := by
  cases transition_of_step h with
  | start hp => exact absurd hp hg.1
  | discard hp => exact absurd hp hg.1
  | _ => exact ⟨⟨nofun, nofun⟩, rfl⟩

theorem rank_of_serving {p : Point} (hp : p.Serving) : 1 < p.rank cfg := by
  cases p with
  | unstarted | last | closed | discarded => exact absurd hp id
  | _ =>
    simp only [Point.rank]
    omega

/-- **Past the deadline every step brings the end nearer.**  The loop is left at its top; a
fetch that fails is repeated a limited number of times, and a batch is never longer than the
limit of the query. -/
theorem rank_step (hg : g.Begun) (hlate : g.startedAt + cfg.maxDuration ≤ m.clock)
    (h : g.step cfg db m = some r) : r.1.point.rank cfg < g.point.rank cfg := by
  cases transition_of_step h with
  | start hp => exact absurd hp hg.1
  | discard hp => exact absurd hp hg.1
  | poll hp hearly => exact absurd hearly (by omega)
  | events attempt s hp =>
    have hbatch := length_queryEvents_le db g.job g.cursor cfg.batchSize
    rw [hp]
    simp only [goes, Point.rank]
    omega
  | retry attempt delay hp hleft =>
    -- the attempt that is used up pays for the sleep
    rcases hp with hp | ⟨s, hp⟩
    all_goals
      rw [hp]
      simp only [goes, Point.rank]
      omega
  | finish f hp hf => exact rank_of_serving hp
  | close hp =>
    rcases hp with hp | hp
    · exact Nat.lt_of_succ_lt (rank_of_serving hp)
    · rw [hp]
      exact Nat.one_pos
  | status _ _ hp | again _ _ hp | event _ _ _ _ hp | resume _ _ _ _ hp | full _ _ hp
  | sleep _ _ _ hp | wake _ hp =>
    rw [hp]
    simp only [goes, yields, Point.rank, List.length_cons, List.length_nil]
    omega

/-- What is not over can go on. -/
theorem step_isSome (cfg : StreamConfig) (db : Db)
    (hopen : g.point ≠ .closed ∧ g.point ≠ .discarded) (hm : m.raised = none) :
    (g.step cfg db m).isSome := by
  unfold step
  rw [hm]
  rcases hp : g.point with _ | _ | _ | _ | _ | ⟨_, _, _ | _⟩ | _ | _ | _ | _ | _
  all_goals grind

theorem closed_of_rank (hg : g.Begun) (h : g.point.rank cfg = 0) : g.point = .closed := by
  cases hp : g.point with
  | closed => rfl
  | unstarted => exact absurd hp hg.1
  | discarded => exact absurd hp hg.2
  | _ =>
    rw [hp] at h
    exact absurd h (by simp [Point.rank])

end Generator

/-- The request is served by the generator `g`, and has given back its slot if this is
closed. -/
structure Connection.ServedBy (c : Connection) (g : Generator) : Prop where
  phase : c.phase = .streaming g
  acquired : c.acquired = true
  releases : c.releases = if g.point = .closed then 1 else 0

section Serving

variable {cfg : StreamConfig} {tokens : StreamTokenService} {x : Scene} {c c' : Connection}
  {g g' : Generator}

theorem Connection.Tidy.servedBy (h : c.Tidy) (hp : c.phase = .streaming g) : c.ServedBy g := by
  rw [Connection.Tidy, hp] at h
  exact ⟨hp, h.1, h.2⟩

/-- A step of a request that is served is one of its generator. -/
theorem Connection.ServedBy.of_advance (h : c.ServedBy g) (hc : c.advance cfg tokens x = some c') :
    ∃ r, g.step cfg x.1 x.2.1 = some r ∧ c'.ServedBy r.1 := by
  obtain ⟨⟨c₁, registry⟩, hstep, rfl⟩ := Option.map_eq_some_iff.mp hc
  obtain ⟨g', released, hg, hp', hacq, hrel, -⟩ := step_streaming h.phase hstep
  obtain ⟨⟨hopen, -⟩, hclosed⟩ := Generator.step_released hg
  refine ⟨(g', released), hg, hp', hacq.trans h.acquired, ?_⟩
  rw [hrel, h.releases, if_neg hopen]
  by_cases hend : g'.point = .closed
  · obtain rfl : released = true := hclosed.mp hend
    rw [if_pos hend]
    rfl
  · rw [if_neg hend]
    cases released with
    | false => rfl
    | true => exact absurd (hclosed.mpr rfl) hend

theorem Connection.ServedBy.advance (tokens : StreamTokenService) (h : c.ServedBy g)
    (hg : g.advance cfg x = some g') :
    ∃ c', c.advance cfg tokens x = some c' ∧ c'.ServedBy g' := by
  obtain ⟨r, hr, rfl⟩ := Option.map_eq_some_iff.mp hg
  have hsome : (c.advance cfg tokens x).isSome := by
    simp only [Connection.advance, Connection.react, Connection.step, h.phase, hr]
    rfl
  obtain ⟨c', hc'⟩ := Option.isSome_iff_exists.mp hsome
  obtain ⟨r', hr', hserved⟩ := h.of_advance hc'
  obtain rfl : r' = r := Option.some.inj (hr'.symm.trans hr)
  exact ⟨c', hc', hserved⟩

theorem Connection.ServedBy.ended_iff (h : c.ServedBy g) (hg : g.Begun) :
    c.ended = true ↔ g.point = .closed := by
  rw [Connection.ended, h.phase]
  simp [hg.2]

/-- The rank of a request that is served is that of its generator. -/
def Connection.rank (cfg : StreamConfig) (c : Connection) : ℕ :=
  match c.phase with
  | .streaming g => g.point.rank cfg
  | _ => 0

theorem Connection.ServedBy.rank_eq (h : c.ServedBy g) : c.rank cfg = g.point.rank cfg := by
  rw [Connection.rank, h.phase]

/-- The request is served by a generator that was advanced first at time `t₀`. -/
def Connection.Since (t₀ : ℕ) (c : Connection) : Prop :=
  ∃ g, c.ServedBy g ∧ g.Begun ∧ g.startedAt = t₀

/-- What a late step does to a request. -/
theorem Connection.Since.advance {t₀ : ℕ} (h : c.Since t₀)
    (hlate : t₀ + cfg.maxDuration ≤ x.2.1.clock) (hc : c.advance cfg tokens x = some c') :
    c'.Since t₀ ∧ c'.rank cfg < c.rank cfg := by
  obtain ⟨g, hserved, hbegun, rfl⟩ := h
  obtain ⟨r, hr, hserved'⟩ := hserved.of_advance hc
  obtain ⟨hbegun', hstart⟩ := Generator.begun_step hbegun hr
  refine ⟨⟨r.1, hserved', hbegun', hstart⟩, ?_⟩
  rw [hserved.rank_eq, hserved'.rank_eq]
  exact Generator.rank_step hbegun hlate hr

end Serving

/-! ### Requests of a server -/

section Server

variable {cfg : StreamConfig} {tokens : StreamTokenService} {s₀ s s' : StreamServer}

/-- The generators of a server keep to their limits. -/
def StreamServer.Sized (cfg : StreamConfig) (s : StreamServer) : Prop :=
  ∀ c ∈ s.connections, ∀ g, c.phase = .streaming g → g.point.Sized cfg

theorem StreamServer.Step.sized (h : StreamServer.Step cfg tokens s s') (hs : s.Sized cfg) :
    s'.Sized cfg := by
  intro d hd g' hp
  cases h with
  | request j streamToken lastEventId =>
    rcases List.mem_append.mp hd with hd | hd
    · exact hs d hd g' hp
    · rw [List.mem_singleton.mp hd] at hp
      cases hp
  | @act i c c' registry db m hi hstep =>
    rcases List.mem_or_eq_of_mem_set hd with hd | rfl
    · exact hs d hd g' hp
    · have hreact : c.react cfg tokens db (m, s.registry) = some d := by
        rw [Connection.react, hstep]
        rfl
      rcases Connection.react_streaming hreact hp with ⟨j, cursor, rfl⟩ | ⟨g, r, hg, hr, rfl⟩
      · trivial
      · exact Generator.sized_step (hs c (List.mem_of_getElem? hi) g hg) hr

theorem StreamServer.sized_of_reach (h : StreamServer.Reach cfg tokens s₀ s)
    (h₀ : s₀.connections = []) : s.Sized cfg := by
  induction h with
  | refl =>
    intro c hc
    rw [h₀] at hc
    exact absurd hc List.not_mem_nil
  | tail _ hstep ih => exact hstep.sized ih

end Server

/-- **Streams end after their time is up.**  In every reachable state of a server, take a
request whose generator has been advanced.  Past `max_duration` it makes at most
`cfg.overtime` further steps, whatever it meets; and if it goes on undisturbed, it ends and
gives its slot back within them. -/
theorem stream_ends_after_deadline (cfg : StreamConfig) (tokens : StreamTokenService)
    {registry : ConnectionRegistry} (hempty : registry.activeConnections = 0) {s : StreamServer}
    (hs : StreamServer.Reach cfg tokens ⟨registry, []⟩ s) {c : Connection}
    (hc : c ∈ s.connections) {g : Generator} (hp : c.phase = .streaming g) (hg : g.Begun) :
    (∀ (scenes : List Scene) (c' : Connection),
      (∀ x ∈ scenes, g.startedAt + cfg.maxDuration ≤ x.2.1.clock) →
      drive (Connection.advance cfg tokens) scenes c = some c' →
      scenes.length ≤ cfg.overtime) ∧
    ∀ scenes : List Scene, scenes.length = cfg.overtime →
      (∀ x ∈ scenes, g.startedAt + cfg.maxDuration ≤ x.2.1.clock ∧ x.2.1.raised = none) →
      ∃ k c', drive (Connection.advance cfg tokens) (scenes.take k) c = some c' ∧
        c'.ended = true ∧ c'.acquired = true ∧ c'.releases = 1 := by
  have hcounted := (StreamServer.active_eq hs ⟨fun c hc => absurd hc List.not_mem_nil, hempty⟩).1
  have hserved := (hcounted.tidy c hc).servedBy hp
  have hsince : c.Since g.startedAt := ⟨g, hserved, hg, rfl⟩
  have hrank : c.rank cfg ≤ cfg.overtime := by
    rw [hserved.rank_eq]
    exact (StreamServer.sized_of_reach hs rfl c hc g hp).rank_le
  constructor
  · intro scenes c' hlate hrun
    have hle := drive_rank (Connection.rank cfg) (I := Connection.Since g.startedAt)
      (fun x c c' hx h hstep => h.advance hx hstep) hrun hsince hlate
    omega
  · intro scenes hlen hscenes
    have hzero : ∀ c : Connection, c.Since g.startedAt → c.rank cfg = 0 → c.ended = true := by
      rintro c ⟨g, hserved, hbegun, -⟩ hzero
      rw [hserved.rank_eq] at hzero
      exact (hserved.ended_iff hbegun).mpr (Generator.closed_of_rank hbegun hzero)
    have hprogress : ∀ (x : Scene) (c : Connection),
        g.startedAt + cfg.maxDuration ≤ x.2.1.clock ∧ x.2.1.raised = none → c.Since g.startedAt →
        ¬ c.ended = true → (c.advance cfg tokens x).isSome := by
      rintro x c hx ⟨g, hserved, hbegun, -⟩ hopen
      rw [hserved.ended_iff hbegun] at hopen
      obtain ⟨r, hr⟩ := Option.isSome_iff_exists.mp
        (Generator.step_isSome cfg x.1 ⟨hopen, hbegun.2⟩ hx.2)
      have hadvance : g.advance cfg x = some r.1 := by
        rw [Generator.advance, Generator.react, hr]
        rfl
      obtain ⟨c', hc', -⟩ := hserved.advance tokens hadvance
      rw [hc']
      rfl
    obtain ⟨k, c', hrun, ⟨g', hserved', hbegun', -⟩, hended⟩ :=
      drive_until (Connection.rank cfg) (I := Connection.Since g.startedAt)
        (fun x c c' hx h hstep => h.advance hx.1 hstep) hzero hprogress hsince hscenes
        (hrank.trans (Nat.le_of_eq hlen.symm))
    refine ⟨k, c', hrun, hended, hserved'.acquired, ?_⟩
    rw [hserved'.releases, if_pos ((hserved'.ended_iff hbegun').mp hended)]

/-- A request for which the time is up. -/
def Sample.late : Scene := (logged 1, ⟨600000, none⟩, oneSlot)

set_option maxRecDepth 100000 in
theorem stream_ends_after_deadline_sample :
    ∃ (s : StreamServer) (c : Connection) (g : Generator) (k : ℕ) (c' : Connection),
      StreamServer.Reach .default Sample.tokens ⟨Sample.oneSlot, []⟩ s ∧ c ∈ s.connections ∧
      c.phase = .streaming g ∧ g.point = .top ∧
      drive (Connection.advance .default Sample.tokens)
        ((List.replicate StreamConfig.default.overtime Sample.late).take k) c = some c' ∧
      c'.ended = true ∧ c'.releases = 1 := by
  obtain ⟨s, hs, hgood⟩ := Sample.played (Sample.steps 0 5) (fun s => s.connections.any fun c =>
    match c.phase with
    | .streaming g => g.point = .top ∧ g.startedAt = 0
    | _ => false) (by decide +kernel)
  obtain ⟨c, hc, hphase⟩ := List.any_eq_true.mp hgood
  split at hphase
  · rename_i g hp
    obtain ⟨htop, hstart⟩ := of_decide_eq_true hphase
    have hbegun : g.Begun := by
      rw [Generator.Begun, htop]
      exact ⟨by simp, by simp⟩
    obtain ⟨k, c', hrun, hended, -, hreleases⟩ :=
      (stream_ends_after_deadline .default Sample.tokens rfl hs hc hp hbegun).2
        (List.replicate StreamConfig.default.overtime Sample.late) List.length_replicate
        (fun x hx => by rw [List.eq_of_mem_replicate hx, hstart]; exact ⟨by decide, rfl⟩)
    exact ⟨s, c, g, k, c', hs, hc, hp, htop, hrun, hended, hreleases⟩
  · exact absurd hphase Bool.false_ne_true

/-! ### Jobs that have ended -/

namespace Generator

/-- The surroundings of a stream that nothing disturbs: no exception, the time is not up, and
job `j` has ended with status `s` and has this log. -/
structure Calm (cfg : StreamConfig) (t₀ : ℕ) (j : Uuid) (s : Status) (log : List EventRecord)
    (x : Scene) : Prop where
  raised : x.2.1.raised = none
  after : t₀ ≤ x.2.1.clock
  before : x.2.1.clock < t₀ + cfg.maxDuration
  status : x.1.status j = some s
  log : streamLog x.1 j = log

variable {cfg : StreamConfig} {t₀ : ℕ} {j : Uuid} {s : Status} {log : List EventRecord}
  {g : Generator}

/-- One calm step. -/
theorem leads_step {n : ℕ} {P : Generator → Prop} {g' : Generator}
    (hstep : ∀ x, Calm cfg t₀ j s log x → g.advance cfg x = some g')
    (h : Leads (advance cfg) (Calm cfg t₀ j s log) n g' P) :
    Leads (advance cfg) (Calm cfg t₀ j s log) (n + 1) g P :=
  Leads.head fun x hx => ⟨g', hstep x hx, h⟩

/-- The generator after a batch. -/
def delivered (g : Generator) (events : List EventRecord) (p : Point) : Generator :=
  { g with
    point := p
    sent := g.sent ++ events.map .event
    cursor := AppendLog.cursor EventRecord.eventId g.cursor events }

/-- A batch is sent, and the cursor follows. -/
theorem leads_batch {size : ℕ} (rest : List EventRecord) (hp : g.point = .batch s size rest) :
    Leads (advance cfg) (Calm cfg t₀ j s log) (2 * rest.length) g fun g' =>
      g' = g.delivered rest (.batch s size []) := by
  induction rest generalizing g with
  | nil =>
    refine Leads.refl ?_
    rw [delivered, List.map_nil, List.append_nil, cursor_nil, ← hp]
  | cons event rest ih =>
    have hsend : ∀ x, Calm cfg t₀ j s log x → g.advance cfg x = some { g with
        point := .yielded s size event rest
        sent := g.sent ++ [.event event] } := by
      intro x hx
      simp only [advance, react, step, hp, hx.raised]
      rfl
    have hgo : ∀ x, Calm cfg t₀ j s log x → advance cfg x { g with
        point := .yielded s size event rest
        sent := g.sent ++ [.event event] } =
          some (g.delivered [event] (.batch s size rest)) := by
      intro x hx
      simp only [advance, react, step, hx.raised]
      rfl
    have hrest := ih (g := g.delivered [event] (.batch s size rest)) rfl
    have hall : (g.delivered [event] (.batch s size rest)).delivered rest (.batch s size []) =
        g.delivered (event :: rest) (.batch s size []) := by
      simp only [delivered, cursor_cons, cursor_nil, List.map_cons, List.map_nil,
        List.append_assoc, List.singleton_append]
    rw [hall] at hrest
    exact leads_step hsend (leads_step hgo hrest)

/-- A poll finds the next events. -/
theorem leads_poll (hg : g.job = j) (hstart : t₀ ≤ g.startedAt) (hp : g.point = .top)
    {events : List EventRecord}
    (hevents : events = (beyond EventRecord.eventId g.cursor log).take cfg.batchSize) :
    Leads (advance cfg) (Calm cfg t₀ j s log) 3 g fun g' =>
      g' = { g with point := .batch s events.length events } := by
  have htop : ∀ x, Calm cfg t₀ j s log x →
      g.advance cfg x = some { g with point := .status 0 } := by
    intro x hx
    have htime : ¬ cfg.maxDuration ≤ x.2.1.clock - g.startedAt := by
      have hafter := hx.after
      have hbefore := hx.before
      omega
    simp only [advance, react, step, hp, hx.raised, if_neg htime]
    rfl
  have hstatus : ∀ x, Calm cfg t₀ j s log x → advance cfg x { g with point := .status 0 } =
      some { g with point := .events 0 s } := by
    intro x hx
    simp only [advance, react, step, hx.raised, hg, hx.status]
    rfl
  have hquery : ∀ x, Calm cfg t₀ j s log x → advance cfg x { g with point := .events 0 s } =
      some { g with point := .batch s events.length events } := by
    intro x hx
    simp only [advance, react, step, hx.raised, hg, queryEvents_eq, hx.log, ← hevents]
    rfl
  exact leads_step htop (leads_step hstatus (leads_step hquery (Leads.refl rfl)))

/-- The batch that is not full is the last one. -/
theorem leads_last {size : ℕ} (hg : g.job = j) (hterm : s.terminal)
    (hp : g.point = .batch s size []) (hsize : size < cfg.batchSize) :
    Leads (advance cfg) (Calm cfg t₀ j s log) 2 g fun g' =>
      g'.point = .closed ∧ g'.sent = g.sent ++ [streamEnd j s] := by
  subst hg
  have hend : ∀ x, Calm cfg t₀ g.job s log x → g.advance cfg x =
      some { g with point := .last, sent := g.sent ++ [streamEnd g.job s] } := by
    intro x hx
    simp only [advance, react, step, hp, hx.raised]
    rw [if_pos ⟨hterm, hsize⟩]
    rfl
  have hclose : ∀ x, Calm cfg t₀ g.job s log x → advance cfg x
      { g with point := .last, sent := g.sent ++ [streamEnd g.job s] } =
        some { g with point := .closed, sent := g.sent ++ [streamEnd g.job s] } := by
    intro x hx
    simp only [advance, react, step, hx.raised]
    rfl
  exact leads_step hend (leads_step hclose (Leads.refl ⟨rfl, rfl⟩))

/-- After a full batch the next poll follows at once. -/
theorem leads_next {size : ℕ} (hp : g.point = .batch s size []) (hsize : cfg.batchSize ≤ size) :
    Leads (advance cfg) (Calm cfg t₀ j s log) 1 g fun g' => g' = { g with point := .top } := by
  have htop : ∀ x, Calm cfg t₀ j s log x → g.advance cfg x = some { g with point := .top } := by
    intro x hx
    simp only [advance, react, step, hp, hx.raised]
    rw [if_neg fun hcon => Nat.not_lt.mpr hsize hcon.2, if_pos hsize]
    rfl
  exact leads_step htop (Leads.refl rfl)

/-- **The loop.**  Polls, full batches one after the other, and the last one. -/
theorem leads_drain (hbatch : 0 < cfg.batchSize) (hterm : s.terminal)
    (hlog : Ordered EventRecord.eventId log) {events : List EventRecord} (hg : g.job = j)
    (hstart : t₀ ≤ g.startedAt) (hp : g.point = .top)
    (hevents : events = beyond EventRecord.eventId g.cursor log) :
    Leads (advance cfg) (Calm cfg t₀ j s log)
      (2 * events.length + 4 * (events.length / cfg.batchSize) + 5) g fun g' =>
        g'.point = .closed ∧ g'.sent = g.sent ++ events.map .event ++ [streamEnd j s] := by
  -- induction on the number of events that are left
  induction hn : events.length using Nat.strong_induction_on generalizing g events with
  | _ n ih =>
    have hbatched : Leads (advance cfg) (Calm cfg t₀ j s log)
        (3 + 2 * (events.take cfg.batchSize).length) g fun g' =>
          g' = g.delivered (events.take cfg.batchSize)
            (.batch s (events.take cfg.batchSize).length []) := by
      refine (leads_poll hg hstart hp (by rw [← hevents])).trans ?_
      rintro _ rfl
      exact leads_batch _ rfl
    by_cases hlt : n < cfg.batchSize
    · -- everything fits into one batch
      have htake : events.take cfg.batchSize = events := List.take_of_length_le (by omega)
      rw [htake, hn] at hbatched
      have hcount : 2 * n + 4 * (n / cfg.batchSize) + 5 = 3 + 2 * n + 2 := by
        rw [Nat.div_eq_of_lt hlt]
        omega
      rw [hcount]
      refine hbatched.trans ?_
      rintro _ rfl
      exact leads_last hg hterm rfl hlt
    · -- a full batch, and then the others
      have hfull : (events.take cfg.batchSize).length = cfg.batchSize := by
        rw [List.length_take]
        omega
      rw [hfull] at hbatched
      have hcount : 2 * n + 4 * (n / cfg.batchSize) + 5 = 3 + 2 * cfg.batchSize + 1 +
          (2 * (n - cfg.batchSize) + 4 * ((n - cfg.batchSize) / cfg.batchSize) + 5) := by
        rw [Nat.div_eq_sub_div hbatch (Nat.not_lt.mp hlt)]
        omega
      rw [hcount]
      refine (hbatched.trans (R := fun g' => g' = g.delivered (events.take cfg.batchSize) .top)
        ?_).trans ?_
      · rintro _ rfl
        exact leads_next rfl (Nat.le_refl _)
      · rintro _ rfl
        -- beyond the last event of the batch there are the others
        have hrest : events.drop cfg.batchSize = beyond EventRecord.eventId
            (AppendLog.cursor EventRecord.eventId g.cursor (events.take cfg.batchSize)) log := by
          have hall := append_beyond hlog (hevents ▸ List.take_prefix cfg.batchSize events)
          rw [← hevents] at hall
          exact List.append_cancel_left ((List.take_append_drop _ _).trans hall.symm)
        have hlen : (events.drop cfg.batchSize).length = n - cfg.batchSize := by
          rw [List.length_drop, hn]
        have hloop := ih (n - cfg.batchSize) (by omega) (g := g.delivered
          (events.take cfg.batchSize) .top) hg hstart rfl hrest hlen
        have hsent : (g.delivered (events.take cfg.batchSize) .top).sent ++
            (events.drop cfg.batchSize).map .event = g.sent ++ events.map .event := by
          rw [delivered, List.append_assoc, ← List.map_append, List.take_append_drop]
        rw [hsent] at hloop
        exact hloop

/-- The whole stream. -/
theorem leads_stream (hbatch : 0 < cfg.batchSize) (hterm : s.terminal)
    (hlog : Ordered EventRecord.eventId log) {c : ℕ} {events : List EventRecord}
    (hevents : events = beyond EventRecord.eventId c log) :
    Leads (advance cfg) (Calm cfg t₀ j s log)
      (2 * events.length + 4 * (events.length / cfg.batchSize) + 6) (.stream j c) fun g' =>
        g'.point = .closed ∧ g'.sent = events.map .event ++ [streamEnd j s] := by
  refine Leads.head fun x hx =>
    ⟨{ stream j c with startedAt := x.2.1.clock, point := .top }, ?_, ?_⟩
  · simp only [advance, react, step, stream, hx.raised]
    rfl
  · exact leads_drain hbatch hterm hlog rfl hx.after rfl hevents

end Generator

/-- **The stream of an ended job is whole.**  Take a request of a reachable server that has
just been given its slot, for a job that has ended.  If no exception strikes, the time is not
up and nothing more is logged for the job, it sends every event beyond its cursor, in the order
of the log and each once, then `STREAM_END`, and gives its slot back; with `n` events it makes
`2 * n + 4 * (n / batchSize) + 7` steps. -/
theorem ended_job_streamed_whole (cfg : StreamConfig) (tokens : StreamTokenService)
    (hbatch : 0 < cfg.batchSize) {registry : ConnectionRegistry}
    (hempty : registry.activeConnections = 0) {server : StreamServer}
    (hs : StreamServer.Reach cfg tokens ⟨registry, []⟩ server) {c : Connection}
    (hc : c ∈ server.connections) {start : ℕ} (hp : c.phase = .respond start) {db : Db}
    {s : Status} (hterm : s.terminal) {events : List EventRecord}
    (hevents : events = beyond EventRecord.eventId start (streamLog db c.job)) (t₀ : ℕ)
    (scenes : List Scene)
    (hlen : scenes.length = 2 * events.length + 4 * (events.length / cfg.batchSize) + 7)
    (hcalm : ∀ x ∈ scenes, Generator.Calm cfg t₀ c.job s (streamLog db c.job) x) :
    ∃ c', drive (Connection.advance cfg tokens) scenes c = some c' ∧
      c'.sent = events.map .event ++ [streamEnd c.job s] ∧ c'.ended = true ∧
      c'.acquired = true ∧ c'.releases = 1 := by
  have hcounted := (StreamServer.active_eq hs ⟨fun c hc => absurd hc List.not_mem_nil, hempty⟩).1
  have htidy := hcounted.tidy c hc
  rw [Connection.Tidy, hp] at htidy
  have hserved : (c.goes (.streaming (.stream c.job start))).ServedBy (.stream c.job start) :=
    ⟨rfl, htidy.1, htidy.2⟩
  have hstream : Leads (Generator.advance cfg)
      (Generator.Calm cfg t₀ c.job s (streamLog db c.job)) _ (.stream c.job start) _ :=
    Generator.leads_stream hbatch hterm (ordered_streamLog db c.job) hevents
  have hsim : ∀ (x : Scene) (c : Connection) (g g' : Generator), c.ServedBy g →
      g.advance cfg x = some g' → ∃ c', c.advance cfg tokens x = some c' ∧ c'.ServedBy g' :=
    fun x c g g' h hg => h.advance tokens hg
  have hleads := Leads.lift hsim hserved hstream
  have hrespond : ∀ x, Generator.Calm cfg t₀ c.job s (streamLog db c.job) x →
      c.advance cfg tokens x = some (c.goes (.streaming (.stream c.job start))) := by
    intro x hx
    simp only [Connection.advance, Connection.react, Connection.step, hp, hx.raised]
    rfl
  have hwhole := Leads.head fun x hx => ⟨_, hrespond x hx, hleads⟩
  obtain ⟨c', hrun, g', hserved', hclosed, hsent⟩ := hwhole scenes hlen hcalm
  refine ⟨c', hrun, ?_, ?_, hserved'.acquired, ?_⟩
  · rw [Connection.sent, hserved'.phase]
    exact hsent
  · rw [Connection.ended, hserved'.phase]
    exact decide_eq_true (.inl hclosed)
  · rw [hserved'.releases, if_pos hclosed]

set_option maxRecDepth 100000 in
theorem ended_job_streamed_whole_sample :
    ∃ (m : State) (server : StreamServer) (c c' : Connection),
      (platform (Sample.parts Sample.plan)).Reach (start (Sample.parts Sample.plan)) m ∧
      StreamServer.Reach .default Sample.tokens ⟨Sample.oneSlot, []⟩ server ∧
      c ∈ server.connections ∧
      drive (Connection.advance .default Sample.tokens)
        (List.replicate 17 (m.view.state.db, ⟨0, none⟩, Sample.oneSlot)) c = some c' ∧
      c'.sent = (streamLog m.view.state.db c.job).map .event ++ [streamEnd c.job .completed] ∧
      c'.releases = 1 := by
  obtain ⟨m, hm, hgood⟩ := Sample.reached (Sample.parts Sample.plan) (Sample.running 15)
    (fun m => m.status Sample.job = some .completed ∧
      (streamLog m.view.state.db Sample.job).length = 5) (by decide +kernel)
  obtain ⟨hstatus, hlength⟩ := of_decide_eq_true hgood
  obtain ⟨server, hs, hgood⟩ := Sample.played (Sample.steps 0 3) (fun s =>
    s.connections.any fun c =>
      match c.phase with
      | .respond start => start = 0 ∧ c.job = Sample.job
      | _ => false) (by decide +kernel)
  obtain ⟨c, hc, hphase⟩ := List.any_eq_true.mp hgood
  split at hphase
  · rename_i start hp
    obtain ⟨rfl, hjob⟩ := of_decide_eq_true hphase
    rw [← hjob] at hstatus hlength
    have hevents := (beyond_zero_streamLog m.view.state.db c.job).symm
    obtain ⟨c', hrun, hsent, -, -, hreleases⟩ :=
      ended_job_streamed_whole .default Sample.tokens (by decide) rfl hs hc hp (s := .completed)
        rfl hevents 0 (List.replicate 17 (m.view.state.db, ⟨0, none⟩, Sample.oneSlot))
        (by rw [hlength]; rfl)
        (fun x hx => by
          rw [List.eq_of_mem_replicate hx]
          exact ⟨rfl, Nat.le_refl 0, Nat.succ_pos 599999, hstatus, rfl⟩)
    exact ⟨m, server, c, c', hm, hs, hc, hrun, hsent, hreleases⟩
  · exact absurd hphase Bool.false_ne_true

end CliExecutionPlatform
