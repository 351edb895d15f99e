/-
Path texts of POSIX systems, and the paths they resolve to.

A path text is a string; its components are what stands between the slashes.
Without symbolic links, following a text from a directory is lexical: empty
components and `.` stay, `..` goes up (and stays at the root), every other
component goes down.

* `segments`, `enter`, `follow`, `resolve` — from a text to a path;
* `follow_plain`, `resolve_plain` — a text without empty, `.` and `..`
  components resolves to its components;
* `baseName` — the last proper component of a text;
* `lastSegment` — what stands after the last slash: `suffix_lastSegment`, it decides
  about the ending of a text, and `resolve_lastSegment`, about the end of the path.
-/
import CliExecutionPlatform.FileTree
import CliExecutionPlatform.Lines

namespace Files

/-- The components of a path text. -/
def segments (text : String) : List String := (text.toList.splitOn '/').map String.ofList

/-- The text starts at the root. -/
def isAbsolute (text : String) : Bool := text.toList.head? = some '/'

/-- Follow one component from the directory `dir`. -/
def enter (dir : Path) (name : String) : Path :=
  if name = "" ∨ name = "." then dir
  else if name = ".." then dir.dropLast
  else dir ++ [name]

/-- Follow components one after the other. -/
def follow (dir : Path) (names : List String) : Path := names.foldl enter dir

/-- The path that `text` names when it is read from the directory `dir`. -/
def resolve (dir : Path) (text : String) : Path :=
  follow (if isAbsolute text then [] else dir) (segments text)

/-- The last component of a text, empty and `.` components apart; the empty
string if there is none. -/
def baseName (text : String) : String :=
  ((segments text).filter fun c => c ≠ "" ∧ c ≠ ".").getLast?.getD ""

/-- A component that names an entry of the directory it is followed from. -/
def Plain (name : String) : Prop := name ≠ "" ∧ name ≠ "." ∧ name ≠ ".."

instance (name : String) : Decidable (Plain name) := inferInstanceAs (Decidable (_ ∧ _))

theorem enter_plain {name : String} (h : Plain name) (dir : Path) :
    enter dir name = dir ++ [name] := by
  rw [enter, if_neg (not_or.mpr ⟨h.1, h.2.1⟩), if_neg h.2.2]

theorem follow_plain {names : List String} (h : ∀ c ∈ names, Plain c) (dir : Path) :
    follow dir names = dir ++ names := by
  induction names generalizing dir with
  | nil => rw [follow, List.foldl_nil, List.append_nil]
  | cons c names ih =>
    have htail := ih (fun d hd => h d (List.mem_cons_of_mem _ hd)) (dir ++ [c])
    rw [follow, List.foldl_cons, enter_plain (h c List.mem_cons_self)]
    rw [follow] at htail
    rw [htail, List.append_assoc]
    rfl

/-- The first component of an absolute text is empty. -/
theorem empty_mem_segments {text : String} (h : isAbsolute text = true) :
    "" ∈ segments text := by
  rw [isAbsolute, decide_eq_true_iff] at h
  rw [segments]
  rcases hl : text.toList with _ | ⟨c, cs⟩
  · rw [hl] at h
    exact absurd h (by simp)
  · rw [hl, List.head?_cons, Option.some_inj] at h
    rw [h, List.splitOn, List.splitOnP_cons_eq_if_modifyHead, if_pos (by simp)]
    exact List.mem_cons_self

theorem resolve_plain {text : String} (h : ∀ c ∈ segments text, Plain c) (dir : Path) :
    resolve dir text = dir ++ segments text := by
  have hrel : isAbsolute text = false := by
    rw [Bool.eq_false_iff]
    intro habs
    exact (h "" (empty_mem_segments habs)).1 rfl
  rw [resolve, hrel]
  exact follow_plain h dir

/-! ### The end of a text -/

/-- What stands after the last slash of a text. -/
def lastSegment (text : String) : String := (segments text).getLast?.getD ""

/-- A text is one component, or its last component follows a slash. -/
theorem segments_cases (text : String) :
    (segments text = [text] ∧ lastSegment text = text) ∨
    ∃ front : String, text.toList = front.toList ++ '/' :: (lastSegment text).toList ∧
      segments text = segments front ++ [lastSegment text] := by
  rcases Lines.splitOn_cases '/' text.toList with hone | ⟨front, last, htext, -, hsplit⟩
  · have hsegments : segments text = [text] := by
      rw [segments, hone, List.map_singleton, String.ofList_toList]
    exact .inl ⟨hsegments, by rw [lastSegment, hsegments]; rfl⟩
  · have hsegments : segments text = segments (String.ofList front) ++ [String.ofList last] := by
      rw [segments, segments, hsplit, List.map_append, List.map_singleton, String.toList_ofList]
    have hlast : lastSegment text = String.ofList last := by
      rw [lastSegment, hsegments, List.getLast?_concat, Option.getD_some]
    refine .inr ⟨String.ofList front, ?_, ?_⟩
    · rw [hlast, String.toList_ofList, String.toList_ofList, htext]
    · rw [hlast, hsegments]

/-- Whether a text ends with a word without slashes can be seen from its last component,
also after a change of letters. -/
theorem suffix_lastSegment {f : Char → Char} (hf : f '/' = '/') {word : List Char}
    (hword : '/' ∉ word) (text : String) :
    word <:+ text.toList.map f ↔ word <:+ (lastSegment text).toList.map f := by
  rcases segments_cases text with ⟨-, hlast⟩ | ⟨front, htext, -⟩
  · rw [hlast]
  · rw [htext, List.map_append, List.map_cons, hf]
    have htail : '/' :: (lastSegment text).toList.map f <:+
        front.toList.map f ++ '/' :: (lastSegment text).toList.map f := List.suffix_append _ _
    constructor
    · intro h
      -- a longer ending would reach back to the slash
      rcases List.suffix_or_suffix_of_suffix h htail with h' | h'
      · rcases List.suffix_cons_iff.mp h' with rfl | h'
        · exact absurd List.mem_cons_self hword
        · exact h'
      · exact absurd (h'.subset List.mem_cons_self) hword
    · intro h
      exact (h.trans (List.suffix_cons _ _)).trans htail

/-- A text whose last component is an entry names that entry. -/
theorem resolve_lastSegment {text : String} (h : Plain (lastSegment text)) (dir : Path) :
    (resolve dir text).getLast? = some (lastSegment text) := by
  have hfollow : ∀ (start : Path) (names : List String),
      (follow start (names ++ [lastSegment text])).getLast? = some (lastSegment text) := by
    intro start names
    rw [follow, List.foldl_append, List.foldl_cons, List.foldl_nil, enter_plain h,
      List.getLast?_concat]
  rcases segments_cases text with ⟨hone, hlast⟩ | ⟨front, -, hsegments⟩
  · rw [resolve, hone]
    have := hfollow (if isAbsolute text then [] else dir) []
    rw [List.nil_append, hlast] at this
    rw [hlast]
    exact this
  · rw [resolve, hsegments]
    exact hfollow _ _

end Files
