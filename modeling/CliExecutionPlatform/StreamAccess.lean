/-
Access to the event stream of a job (`sse/security.py` and the checks of `sse/router.py`).

The token of a job is a version and the signature of its id, in the URL-safe alphabet of
base64.  A request is admitted with exactly this token.  A token of other characters than
those of ASCII is not compared but raises: the request then ends with an internal error
and not with the answer for a wrong token.

* `StreamTokenService.ofSecret` — the tokens for a secret; `ofSecret_ascii`;
* `Leads` — what a request can become, whatever happens around it; `Admitted.leads` — it is
  not refused with the right token;
* **`uniform_token_rejection`** — when a wrong token is refused as such.
-/
import CliExecutionPlatform.EventStream
import CliExecutionPlatform.LocalStorage

open Files

namespace CliExecutionPlatform

/-! ### Tokens -/

/-- The URL-safe alphabet of base64. -/
def base64Alphabet : List Char :=
  "ABCDEFGHIJKLMNOPQRSTUVWXYZabcdefghijklmnopqrstuvwxyz0123456789-_".toList

/-- The character for six bits. -/
def base64Char (bits : ℕ) : Char := base64Alphabet.getD bits '='

/-- `base64.urlsafe_b64encode`. -/
def urlsafeB64encode : List UInt8 → List Char
  | [] => []
  | [a] => [base64Char (a.toNat / 4), base64Char (a.toNat % 4 * 16), '=', '=']
  | [a, b] =>
    [base64Char (a.toNat / 4), base64Char (a.toNat % 4 * 16 + b.toNat / 16),
      base64Char (b.toNat % 16 * 4), '=']
  | a :: b :: c :: rest =>
    base64Char (a.toNat / 4) :: base64Char (a.toNat % 4 * 16 + b.toNat / 16) ::
      base64Char (b.toNat % 16 * 4 + c.toNat / 64) :: base64Char (c.toNat % 64) ::
      urlsafeB64encode rest

/-- The signature without its padding. -/
def tokenSignature (digest : List UInt8) : String :=
  String.ofList ((urlsafeB64encode digest).reverse.dropWhile (· = '=')).reverse

/-- `StreamTokenService(secret)`, where `hmac key message` is the digest of HMAC-SHA-256. -/
def StreamTokenService.ofSecret (hmac : List UInt8 → List UInt8 → List UInt8) (secret : String) :
    StreamTokenService where
  createToken j := "v1." ++ tokenSignature (hmac (utf8 secret) (utf8 j.str))

example : tokenSignature [251, 255, 0, 16] = "-_8AEA" := by decide

theorem base64Char_ascii (bits : ℕ) : (base64Char bits).toNat < 128 := by
  have hall : ∀ c ∈ base64Alphabet, c.toNat < 128 := by
    have hcheck : base64Alphabet.all fun c => decide (c.toNat < 128) := by decide +kernel
    intro c hc
    exact of_decide_eq_true (List.all_eq_true.mp hcheck c hc)
  rw [base64Char, List.getD_eq_getElem?_getD]
  -- No index is out of range, but the bound holds for the default as well.
  rcases hbits : base64Alphabet[bits]? with _ | c
  · exact (by decide : ('=').toNat < 128)
  · exact hall c (List.mem_of_getElem? hbits)

theorem urlsafeB64encode_ascii (bytes : List UInt8) :
    ∀ c ∈ urlsafeB64encode bytes, c.toNat < 128 := by
  fun_induction urlsafeB64encode bytes with
  | case1 => simp
  | case2 a => simp [base64Char_ascii]
  | case3 a b => simp [base64Char_ascii]
  | case4 a b c rest ih =>
    simp only [List.mem_cons, forall_eq_or_imp, base64Char_ascii, true_and]
    exact ih

/-- A token has no character outside ASCII. -/
theorem ofSecret_ascii (hmac : List UInt8 → List UInt8 → List UInt8) (secret : String) (j : Uuid) :
    ∀ c ∈ ((StreamTokenService.ofSecret hmac secret).createToken j).toList, c.toNat < 128 := by
  intro c hc
  rw [StreamTokenService.ofSecret, String.toList_append, List.mem_append] at hc
  -- The version is a constant; the signature is a part of an encoding.
  rcases hc with hc | hc
  · have hversion : ("v1.").toList.all fun c => decide (c.toNat < 128) := by decide
    exact of_decide_eq_true (List.all_eq_true.mp hversion c hc)
  · rw [tokenSignature, String.toList_ofList, List.mem_reverse] at hc
    exact urlsafeB64encode_ascii _ c
      (List.mem_reverse.mp ((List.dropWhile_sublist _).subset hc))

theorem ofSecret_ne_empty (hmac : List UInt8 → List UInt8 → List UInt8) (secret : String)
    (j : Uuid) : (StreamTokenService.ofSecret hmac secret).createToken j ≠ "" := by
  intro h
  have hlength := congrArg (fun text : String => text.toList.length) h
  simp [StreamTokenService.ofSecret, String.toList_append] at hlength

/-! ### The check of a token -/

/-- The header is absent, or all its characters are of ASCII. -/
def AsciiHeader (header : Option String) : Prop :=
  ∀ text ∈ header, ∀ c ∈ text.toList, c.toNat < 128

section Verify

variable {tokens : StreamTokenService} {j : Uuid}
  (hascii : ∀ c ∈ (tokens.createToken j).toList, c.toNat < 128)
include hascii

/-- A header of ASCII is compared with the token. -/
theorem verifyToken_of_ascii (hne : tokens.createToken j ≠ "") {header : Option String}
    (h : AsciiHeader header) :
    tokens.verifyToken j header = .ok (decide (header = some (tokens.createToken j))) := by
  cases header with
  | none => rfl
  | some provided =>
    rw [StreamTokenService.verifyToken]
    -- `if not provided_token`: an empty header is refused without a comparison.
    by_cases hempty : provided = ""
    · rw [if_pos hempty, hempty, decide_eq_false]
      rw [Option.some_inj]
      exact hne.symm
    · have hall : (tokens.createToken j ++ provided).toList.all (·.toNat < 128) = true := by
        rw [List.all_eq_true]
        intro c hc
        rw [String.toList_append, List.mem_append] at hc
        rcases hc with hc | hc
        · exact decide_eq_true (hascii c hc)
        · exact decide_eq_true (h provided rfl c hc)
      have hsame : (tokens.createToken j == provided) =
          decide (some provided = some (tokens.createToken j)) := by
        rw [beq_eq_decide]
        exact decide_eq_decide.mpr ⟨fun h => congrArg some h.symm,
          fun h => (Option.some_inj.mp h).symm⟩
      rw [if_neg hempty, if_pos hall, hsame]

omit hascii in
/-- Other headers are not: the comparison raises. -/
theorem verifyToken_of_not_ascii {header : Option String} (h : ¬ AsciiHeader header) :
    tokens.verifyToken j header = .error .other := by
  rw [AsciiHeader] at h
  push Not at h
  obtain ⟨provided, rfl, c, hc, hlarge⟩ := h
  have hempty : provided ≠ "" := by
    rintro rfl
    exact absurd hc (by simp)
  -- One large character on either side is enough for `compare_digest` to raise.
  rw [StreamTokenService.verifyToken, if_neg hempty, if_neg]
  rw [List.all_eq_true]
  intro hall
  have hsmall := of_decide_eq_true
    (hall c (by rw [String.toList_append]; exact List.mem_append_right _ hc))
  omega

end Verify

namespace Connection

/-! ### Requests -/

/-- What a request can become.  Before each of its steps the database, the registry, the
clock and the exceptions can be any. -/
def Leads (cfg : StreamConfig) (tokens : StreamTokenService) : Connection → Connection → Prop :=
  Relation.ReflTransGen fun c c' =>
    ∃ db m registry registry', c.step cfg tokens db m registry = some (c', registry')

/-- The request has the token of its job, and has not been refused for it. -/
structure Admitted (tokens : StreamTokenService) (c : Connection) : Prop where
  verified : tokens.verifyToken c.job c.streamToken = .ok true
  notRefused : ∀ code message, c.phase ≠ .refused 403 code message

theorem Admitted.goes {tokens : StreamTokenService} {c : Connection} (h : c.Admitted tokens)
    {p : Phase} (hp : ∀ code message, p ≠ .refused 403 code message) :
    (c.goes p).Admitted tokens :=
  ⟨h.verified, hp⟩

theorem Admitted.queryFails {tokens : StreamTokenService} {c : Connection}
    (h : c.Admitted tokens) (e : StreamExn) : (c.queryFails e).Admitted tokens := by
  rw [Connection.queryFails]
  split
  · exact h.goes (by simp)
  · exact h.goes (by simp)

theorem Admitted.check {tokens : StreamTokenService} {c : Connection} (h : c.Admitted tokens)
    (found : Bool) : (c.check tokens found).Admitted tokens := by
  rw [Connection.check, h.verified]
  split
  · exact h.goes (by simp)
  · exact h.goes (by simp)

/-- One step does not refuse a request with its token. -/
theorem Admitted.step {cfg : StreamConfig} {tokens : StreamTokenService} {db : Db} {m : Moment}
    {registry registry' : ConnectionRegistry} {c c' : Connection} (h : c.Admitted tokens)
    (hstep : c.step cfg tokens db m registry = some (c', registry')) : c'.Admitted tokens := by
  -- One case for each clause of the step: only the check can answer 403.
  unfold Connection.step at hstep
  split at hstep
  · obtain ⟨rfl, -⟩ := Prod.mk.inj (Option.some_inj.mp hstep)
    exact h.check _
  · obtain ⟨rfl, -⟩ := Prod.mk.inj (Option.some_inj.mp hstep)
    exact h.queryFails _
  · obtain ⟨rfl, -⟩ := Prod.mk.inj (Option.some_inj.mp hstep)
    exact h.goes (by simp)
  · obtain ⟨rfl, -⟩ := Prod.mk.inj (Option.some_inj.mp hstep)
    exact h.queryFails _
  · split at hstep
    · obtain ⟨rfl, -⟩ := Prod.mk.inj (Option.some_inj.mp hstep)
      exact ⟨h.verified, by simp [Connection.goes]⟩
    · obtain ⟨rfl, -⟩ := Prod.mk.inj (Option.some_inj.mp hstep)
      exact h.goes (by simp)
  · obtain ⟨rfl, -⟩ := Prod.mk.inj (Option.some_inj.mp hstep)
    exact h.goes (by simp)
  · obtain ⟨rfl, -⟩ := Prod.mk.inj (Option.some_inj.mp hstep)
    exact ⟨h.verified, by simp [Connection.goes]⟩
  · rw [Option.map_eq_some_iff] at hstep
    obtain ⟨⟨g, released⟩, -, hc⟩ := hstep
    cases released with
    | false =>
      obtain ⟨rfl, -⟩ := Prod.mk.inj hc
      exact h.goes (by simp)
    | true =>
      obtain ⟨rfl, -⟩ := Prod.mk.inj hc
      exact ⟨h.verified, by simp [Connection.goes]⟩
  · exact absurd hstep (by simp)

theorem Admitted.leads {cfg : StreamConfig} {tokens : StreamTokenService} {c c' : Connection}
    (h : c.Admitted tokens) (hleads : Leads cfg tokens c c') : c'.Admitted tokens := by
  induction hleads with
  | refl => exact h
  | tail _ hstep ih =>
    obtain ⟨db, m, registry, registry', hstep⟩ := hstep
    exact ih.step hstep

/-- The first step of a request for a job that is there. -/
theorem step_request {cfg : StreamConfig} {tokens : StreamTokenService} {db : Db} {m : Moment}
    {registry : ConnectionRegistry} {j : Uuid} {header lastEventId : Option String}
    (hjob : jobExists db j = true) (hm : m.raised = none) :
    (request j header lastEventId).step cfg tokens db m registry =
      some ((request j header lastEventId).check tokens true, registry) := by
  simp only [Connection.step, request, hm, hjob]

end Connection

open Connection

/-- A header is treated as it should be.  Once the job has been found, a header that is not
the token is answered with 403 and takes no slot; with the token, that answer is never
given. -/
def RejectsUniformly (tokens : StreamTokenService) (j : Uuid) (header : Option String) : Prop :=
  (header ≠ some (tokens.createToken j) → ∀ cfg db m registry lastEventId,
    jobExists db j = true → m.raised = none →
      ∃ c, (request j header lastEventId).step cfg tokens db m registry = some (c, registry) ∧
        c.phase = .refused 403 "INVALID_STREAM_TOKEN" "Stream access denied." ∧
        c.acquired = false ∧ ∀ db' m' registry', c.step cfg tokens db' m' registry' = none) ∧
  (header = some (tokens.createToken j) → ∀ cfg lastEventId c,
    Leads cfg tokens (request j header lastEventId) c →
      ∀ code message, c.phase ≠ .refused 403 code message)

/-- **Uniform rejection of tokens** holds for a header that is absent or has characters of
ASCII only.  Any other header, which can never be a token, makes the comparison raise, and
the request ends with that exception. -/
theorem uniform_token_rejection (hmac : List UInt8 → List UInt8 → List UInt8) (secret : String)
    (j : Uuid) (header : Option String) :
    RejectsUniformly (.ofSecret hmac secret) j header ↔
      ∀ text ∈ header, ∀ c ∈ text.toList, c.toNat < 128 := by
  have hascii := ofSecret_ascii hmac secret j
  constructor
  · intro h
    -- Any existing job will do: the comparison raises before anything else happens.
    by_contra hnot
    have hne : header ≠ some ((StreamTokenService.ofSecret hmac secret).createToken j) := by
      rintro rfl
      exact hnot fun text htext => Option.some_inj.mp htext ▸ hascii
    obtain ⟨c, hstep, hphase, -⟩ := h.1 hne .default
      (Db.empty.insert j ⟨none, "", .created, none, 0⟩) ⟨0, none⟩ ⟨1, 0, by omega, by omega⟩ none
      (by simp [jobExists]) rfl
    rw [step_request (by simp [jobExists]) rfl] at hstep
    obtain ⟨rfl, -⟩ := Prod.mk.inj (Option.some_inj.mp hstep)
    have hraises : (StreamTokenService.ofSecret hmac secret).verifyToken j header =
        .error .other := verifyToken_of_not_ascii hnot
    simp [Connection.check, request, hraises, Connection.goes] at hphase
  · intro h
    -- For such a header the verification is the comparison of two texts.
    have hverify := verifyToken_of_ascii hascii (ofSecret_ne_empty hmac secret j) h
    constructor
    · intro hne cfg db m registry lastEventId hjob hm
      rw [decide_eq_false hne] at hverify
      refine ⟨_, step_request hjob hm, ?_, ?_, ?_⟩
      · simp [Connection.check, request, hverify, Connection.refuse, Connection.goes]
      · simp [Connection.check, request, hverify, Connection.refuse, Connection.goes]
      · intro db' m' registry'
        simp [Connection.check, request, hverify, Connection.refuse, Connection.goes,
          Connection.step]
    · intro heq cfg lastEventId c hleads
      rw [decide_eq_true heq] at hverify
      have hadmitted : (request j header lastEventId).Admitted (.ofSecret hmac secret) :=
        ⟨hverify, by simp [request]⟩
      exact (hadmitted.leads hleads).notRefused

/-- A header with one character of Latin-1: the request for a job that is there ends with an
exception and not with 403. -/
theorem latin_token_not_rejected :
    ((request ⟨1⟩ (some "é") none).step .default (.ofSecret (fun _ _ => [0]) "secret")
      (Db.empty.insert ⟨1⟩ ⟨none, "a box", .running, none, 0⟩) ⟨0, none⟩
      ⟨1, 0, by omega, by omega⟩).map (fun r => r.1.phase) = some (.failed .other) ∧
    ¬ RejectsUniformly (.ofSecret (fun _ _ => [0]) "secret") ⟨1⟩ (some "é") := by
  have hphase : ((request ⟨1⟩ (some "é") none).step .default
      (.ofSecret (fun _ _ => [0]) "secret")
      (Db.empty.insert ⟨1⟩ ⟨none, "a box", .running, none, 0⟩) ⟨0, none⟩
      ⟨1, 0, by omega, by omega⟩).map (fun r => r.1.phase) = some (.failed .other) := rfl
  refine ⟨hphase, fun h => ?_⟩
  obtain ⟨c, hstep, hrefused, -⟩ := h.1 (by decide +kernel) .default
    (Db.empty.insert ⟨1⟩ ⟨none, "a box", .running, none, 0⟩) ⟨0, none⟩
    ⟨1, 0, by omega, by omega⟩ none rfl rfl
  rw [hstep, Option.map_some, Option.some_inj, hrefused] at hphase
  exact Phase.noConfusion hphase

end CliExecutionPlatform
