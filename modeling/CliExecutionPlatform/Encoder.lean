/-
The text of the frames: `sse/encoder.py`.

* `encodeEvent`, `encodeControl` — the two encoders; the data of a frame is JSON;
* `interpret_encode` — one frame is read as one event, and nothing of what
  follows it;
* `frames_round_trip` — a client reads back the frames that were sent, whatever
  the messages hold.
-/
import CliExecutionPlatform.EventSource
import CliExecutionPlatform.EventStream
import CliExecutionPlatform.JsonValues

open EventSource JsonText

namespace CliExecutionPlatform

/-- `_safe_event_name`. -/
def safeEventName (value : String) : List Char :=
  (value.toList.filter (· ≠ '\r')).filter (· ≠ '\n')

/-- `_json_data`. -/
def jsonData (payload : List (String × Value)) : List Char := dumps (.obj payload)

/-- The line `name: value`. -/
def fieldLine (name value : List Char) : List Char := name ++ ':' :: ' ' :: value ++ ['\n']

section Encoders

variable (isoformat : ℕ → String)

def EventRecord.payload (event : EventRecord) : List (String × Value) :=
  [("job_id", .str event.jobId.str), ("event_id", .int event.eventId),
    ("event_type", .str event.eventType), ("message", .str event.message),
    ("created_at", .str (isoformat event.createdAt))]

def encodeEvent (event : EventRecord) : List Char :=
  fieldLine ['i', 'd'] event.eventId.repr.toList ++
    fieldLine ['e', 'v', 'e', 'n', 't'] (safeEventName event.eventType) ++
    fieldLine ['d', 'a', 't', 'a'] (jsonData (event.payload isoformat)) ++ ['\n']

def controlPayload (j : Uuid) (data : List (String × Value)) : List (String × Value) :=
  ("job_id", .str j.str) :: data

def encodeControl (eventName : String) (j : Uuid) (data : List (String × Value)) : List Char :=
  fieldLine ['e', 'v', 'e', 'n', 't'] (safeEventName eventName) ++
    fieldLine ['d', 'a', 't', 'a'] (jsonData (controlPayload j data)) ++ ['\n']

/-! ### Frames -/

namespace Frame

def textData (data : List (String × String)) : List (String × Value) :=
  data.map fun entry => (entry.1, .str entry.2)

/-- The text that is sent. -/
def encode : Frame → List Char
  | event record => encodeEvent isoformat record
  | control name j data => encodeControl name j (textData data)

/-- The name of the event, before it is made safe. -/
def eventName : Frame → String
  | event record => record.eventType
  | control name _ _ => name

def payload : Frame → List (String × Value)
  | event record => record.payload isoformat
  | control _ j data => controlPayload j (textData data)

/-- The number that a client knows after the frame, if it knew `last` before. -/
def idAfter (last : List Char) : Frame → List Char
  | event record => record.eventId.repr.toList
  | control _ _ _ => last

end Frame

/-- What a client should see: the number, the name and the payload of each frame. -/
def shown (last : List Char) : List Frame → List (List Char × List Char × Option Value)
  | [] => []
  | frame :: rest =>
    (frame.idAfter last, safeEventName frame.eventName, some (.obj (frame.payload isoformat))) ::
      shown (frame.idAfter last) rest

/-! ### Reading the frames -/

theorem oneLine_append {l l' : List Char} (h : OneLine l) (h' : OneLine l') :
    OneLine (l ++ l') := by
  intro c hc
  rcases List.mem_append.mp hc with hc | hc
  · exact h c hc
  · exact h' c hc

theorem oneLine_safeEventName (value : String) : OneLine (safeEventName value) := by
  intro c hc
  obtain ⟨hc, hlf⟩ := List.mem_filter.mp hc
  obtain ⟨-, hcr⟩ := List.mem_filter.mp hc
  exact ⟨of_decide_eq_true hcr, of_decide_eq_true hlf⟩

/-- JSON text stands on one line, because line breaks in strings are escaped. -/
theorem oneLine_jsonData (payload : List (String × Value)) : OneLine (jsonData payload) := by
  intro c hc
  have hp : 32 ≤ c.toNat := printable_dumps _ c hc
  refine ⟨?_, ?_⟩ <;> rintro rfl <;> exact absurd hp (by decide)

theorem oneLine_repr (n : ℕ) : OneLine n.repr.toList := by
  intro c hc
  rw [Nat.toList_repr] at hc
  have hd := isDigit_toDigits c hc
  refine ⟨?_, ?_⟩ <;> rintro rfl <;> exact absurd hd (by decide)

/-- One field line is interpreted, and the rest follows. -/
theorem interpret_fieldLine (b : Buffers) {c : Char} {name value : List Char}
    (hname : ∀ d ∈ c :: name, d ≠ ':') (hline : OneLine (c :: name)) (hvalue : OneLine value)
    (rest : List Char) :
    interpret b (lines [] (fieldLine (c :: name) value ++ rest)) =
      interpret (field b (c :: name) value) (lines [] rest) := by
  have hone : OneLine (c :: name ++ ':' :: ' ' :: value) :=
    oneLine_append hline (oneLine_append (l := [':', ' ']) (by decide) hvalue)
  have htext : fieldLine (c :: name) value ++ rest =
      (c :: name ++ ':' :: ' ' :: value) ++ '\n' :: rest := by
    rw [fieldLine, List.append_assoc, List.singleton_append]
  rw [htext, lines_append hone, List.nil_append, interpret, interpretLine_field _ _ hname]
  rfl

/-- The empty line after the fields of a frame dispatches its event. -/
theorem interpret_dispatch {id name data : List Char} (hname : name ≠ []) (rest : List Char) :
    interpret ⟨id, name, data ++ ['\n']⟩ (lines [] ('\n' :: rest)) =
      ⟨id, name, data⟩ :: interpret ⟨id, [], []⟩ (lines [] rest) := by
  show interpret _ ([] :: lines [] rest) = _
  rw [interpret, interpretLine, if_pos rfl, dispatch, if_neg (by simp), if_neg hname,
    List.dropLast_concat]
  rfl

/-- **One frame, one event.** -/
theorem interpret_encode (frame : Frame) (last rest : List Char)
    (h : safeEventName frame.eventName ≠ []) :
    interpret ⟨last, [], []⟩ (lines [] (frame.encode isoformat ++ rest)) =
      ⟨frame.idAfter last, safeEventName frame.eventName, jsonData (frame.payload isoformat)⟩ ::
        interpret ⟨frame.idAfter last, [], []⟩ (lines [] rest) := by
  -- Each field is one line, since its value has no line break.
  have hevent : ∀ b : Buffers, ∀ text : List Char, ∀ name : String,
      interpret b (lines [] (fieldLine ['e', 'v', 'e', 'n', 't'] (safeEventName name) ++ text)) =
        interpret { b with event := safeEventName name } (lines [] text) :=
    fun b text name => interpret_fieldLine b (by simp) (by decide)
      (oneLine_safeEventName name) text
  have hdata : ∀ b : Buffers, ∀ text : List Char, ∀ payload : List (String × Value),
      interpret b (lines [] (fieldLine ['d', 'a', 't', 'a'] (jsonData payload) ++ text)) =
        interpret { b with data := b.data ++ jsonData payload ++ ['\n'] } (lines [] text) :=
    fun b text payload => interpret_fieldLine b (by simp) (by decide)
      (oneLine_jsonData payload) text
  cases frame with
  | event record =>
    have hid : ∀ b : Buffers, ∀ text : List Char,
        interpret b (lines [] (fieldLine ['i', 'd'] record.eventId.repr.toList ++ text)) =
          interpret { b with lastEventId := record.eventId.repr.toList } (lines [] text) := by
      intro b text
      rw [interpret_fieldLine b (by simp) (by decide) (oneLine_repr _) text]
      -- An id with a NUL would be ignored by the reader.
      have hnul : '\x00' ∉ record.eventId.repr.toList := by
        intro hmem
        rw [Nat.toList_repr] at hmem
        exact absurd (isDigit_toDigits _ hmem) (by decide)
      rw [field, if_neg (by decide), if_neg (by decide), if_pos rfl, if_neg hnul]
    show interpret _ (lines [] (encodeEvent isoformat record ++ rest)) = _
    rw [encodeEvent, List.append_assoc, List.append_assoc, List.append_assoc, hid, hevent, hdata,
      List.singleton_append]
    exact interpret_dispatch h rest
  | control name j data =>
    show interpret _ (lines [] (encodeControl name j (Frame.textData data) ++ rest)) = _
    rw [encodeControl, List.append_assoc, List.append_assoc, hevent, hdata, List.singleton_append]
    exact interpret_dispatch h rest

theorem interpret_frames (frames : List Frame) (last : List Char)
    (h : ∀ f ∈ frames, safeEventName f.eventName ≠ []) :
    (interpret ⟨last, [], []⟩ (lines [] (frames.flatMap (Frame.encode isoformat)))).map
      (fun m => (m.lastEventId, m.event, loads m.data)) = shown isoformat last frames := by
  induction frames generalizing last with
  | nil => rfl
  | cons frame rest ih =>
    rw [List.flatMap_cons, interpret_encode isoformat frame last _ (h frame List.mem_cons_self),
      List.map_cons, ih _ fun f hf => h f (List.mem_cons_of_mem _ hf), shown, jsonData,
      loads_dumps]

/-- **The frames come back.**  Parsing the text of any frames yields one event for
each of them, in order, with its number (a control frame leaves it as it is), its
name without line breaks and its payload. -/
theorem frames_round_trip (frames : List Frame)
    (h : ∀ f ∈ frames, safeEventName f.eventName ≠ []) :
    (parse (frames.flatMap (Frame.encode isoformat))).map
      (fun m => (m.lastEventId, m.event, loads m.data)) = shown isoformat [] frames := by
  have hbom : (frames.flatMap (Frame.encode isoformat)).head? ≠ some '\uFEFF' := by
    cases frames with
    | nil => simp
    | cons frame rest =>
      cases frame with
      | event record => exact fun hcon => absurd (Option.some.inj hcon) (by decide)
      | control name j data => exact fun hcon => absurd (Option.some.inj hcon) (by decide)
  rw [parse, if_neg hbom]
  exact interpret_frames isoformat frames [] h

/-- A message that looks like a frame of its own, between two control frames. -/
theorem frames_round_trip_sample :
    (parse ([Frame.control "STREAM_ERROR" ⟨1⟩ [("code", "a\nb")],
        .event ⟨7, ⟨1⟩, "CLI_\r\nOUTPUT", "\n\nid: 9\r\ndata: \"x\"\n\n", 0⟩,
        streamEnd ⟨1⟩ .completed].flatMap (Frame.encode fun _ => "1970-01-01"))).map
      (fun m => (m.lastEventId, m.event, loads m.data)) =
      shown (fun _ => "1970-01-01") [] [.control "STREAM_ERROR" ⟨1⟩ [("code", "a\nb")],
        .event ⟨7, ⟨1⟩, "CLI_\r\nOUTPUT", "\n\nid: 9\r\ndata: \"x\"\n\n", 0⟩,
        streamEnd ⟨1⟩ .completed] :=
  frames_round_trip _ _ (by decide)

end Encoders

end CliExecutionPlatform
