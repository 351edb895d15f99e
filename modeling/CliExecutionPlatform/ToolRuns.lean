/-
What a run of the tool does to the workspace, and where its output may go.

The runner copies the workspace's directories and `.scad` files to a temporary
directory, lets the tool work there and copies back what is new or changed, file
by file.  Each file is checked and copied before the next one is looked at.

* `accepts` — which copies into a workspace are accepted;
* `copyOutAll_spec` — the files before the first refused one are copied;
* `runTool_cases` — a run of the tool touches nothing before it copies;
* `tool_results_copied` — a run that returns has added exactly the new and
  changed files;
* `failed_run_untouched_iff` — a run that raises leaves the workspace alone
  unless a file was copied before another one was refused;
* `launched_outputs_confined_iff` — only the first `-o` is checked before the
  tool is launched.
-/
import CliExecutionPlatform.AttemptSpec
import CliExecutionPlatform.Lifecycle

open Files Process

namespace CliExecutionPlatform

open LocalStorage (root treeOf)

/-! ### Copying files into a workspace -/

/-- The regular files of a directory tree: they have proper names, and none of
them is below another one. -/
structure IsListing (files : List TmpFile) : Prop where
  plain : ∀ f ∈ files, f.path ≠ [] ∧ ∀ c ∈ f.path, Plain c
  apart : files.Pairwise fun f g => Apart f.path g.path

theorem IsListing.filter {files : List TmpFile} (h : IsListing files) (p : TmpFile → Bool) :
    IsListing (files.filter p) where
  plain := fun f hf => h.plain f (List.mem_of_mem_filter hf)
  apart := h.apart.filter p

theorem IsListing.takeWhile {files : List TmpFile} (h : IsListing files) (p : TmpFile → Bool) :
    IsListing (files.takeWhile p) where
  plain := fun f hf => h.plain f ((List.takeWhile_sublist p).subset hf)
  apart := h.apart.sublist (List.takeWhile_sublist p)

theorem IsListing.tail {f : TmpFile} {rest : List TmpFile} (h : IsListing (f :: rest)) :
    IsListing rest where
  plain := fun g hg => h.plain g (List.mem_cons_of_mem _ hg)
  apart := (List.pairwise_cons.mp h.apart).2

theorem IsListing.apart_of_ne {files : List TmpFile} (h : IsListing files) {f g : TmpFile}
    (hf : f ∈ files) (hg : g ∈ files) (hne : f ≠ g) : Apart f.path g.path :=
  have : Std.Symm fun f g : TmpFile => Apart f.path g.path := ⟨fun _ _ hab => hab.symm⟩
  h.apart.forall hf hg hne

/-- The tree after these files have been written. -/
def withFiles (W : Tree) (files : List TmpFile) : Tree :=
  W.writeAll (files.map fun f => (f.path, f.data))

theorem withFiles_cons (W : Tree) (f : TmpFile) (rest : List TmpFile) :
    withFiles W (f :: rest) = withFiles (W.writeAt f.path f.data) rest := rfl

/-- `W'` is `W` with these files, and with the directories that they need. -/
structure Adds (files : List TmpFile) (W W' : Tree) : Prop where
  here : ∀ f ∈ files, W' f.path = some (.file f.data)
  above : ∀ p, (∃ f ∈ files, p <+: f.path ∧ p ≠ f.path) → W' p = some .dir
  other : ∀ p, (∀ f ∈ files, ¬ p <+: f.path) → W' p = W p

theorem adds_withFiles (W : Tree) {files : List TmpFile} (h : IsListing files) :
    Adds files W (withFiles W files) := by
  have hmap : ∀ {g : Path × List UInt8}, g ∈ files.map (fun f => (f.path, f.data)) →
      ∃ f ∈ files, (f.path, f.data) = g := fun hg => List.mem_map.mp hg
  constructor
  · intro f hf
    exact Tree.writeAll_mem W (List.pairwise_map.mpr h.apart)
      (List.mem_map_of_mem (f := fun f : TmpFile => (f.path, f.data)) hf)
  · rintro p ⟨f, hf, hpre, hne⟩
    refine Tree.writeAll_above W (fun g hg heq => ?_)
      (.inr ⟨(f.path, f.data), List.mem_map_of_mem hf, hpre⟩)
    -- a file above another file
    obtain ⟨f', hf', rfl⟩ := hmap hg
    have hff : f' ≠ f := by
      rintro rfl
      exact hne heq
    rw [show p = f'.path from heq] at hpre
    exact (h.apart_of_ne hf' hf hff).1 hpre
  · intro p hp
    refine Tree.writeAll_of_not_above W fun g hg => ?_
    obtain ⟨f, hf, rfl⟩ := hmap hg
    exact hp f hf

section Accepts

variable (base : Path) (j : Uuid) (output : Option String)

/-- The copy of `f` into the workspace `W` of job `j` is accepted: no file is on
the way, and there is nothing at its path or the explicit output file. -/
def accepts (W : Tree) (f : TmpFile) : Bool :=
  !W.blocked f.path.dropLast &&
    match W f.path with
    | none => true
    | some .dir => false
    | some (.file _) => isExplicitOutput (root base .jobs j) output (root base .jobs j ++ f.path)

variable {base j output} {W : Tree} {f g : TmpFile}

theorem accepts_iff : accepts base j output W f = true ↔
    (W.blocked f.path.dropLast = false ∧ W f.path ≠ some .dir) ∧
      (W f.path = none ∨
        isExplicitOutput (root base .jobs j) output (root base .jobs j ++ f.path) = true) := by
  rw [accepts, Bool.and_eq_true, Bool.not_eq_true']
  rcases W f.path with _ | _ | d
  · simp
  · simp
  · simp

/-- A file above an accepted one would be in its way. -/
theorem not_file_of_accepts (h : accepts base j output W f = true) {q : Path}
    (hq : q <+: f.path) (hne : q ≠ f.path) (d : List UInt8) : W q ≠ some (.file d) := by
  intro hd
  have hdrop : q <+: f.path.dropLast := by
    obtain ⟨u, hu⟩ := hq
    rcases List.eq_nil_or_concat u with rfl | ⟨u', n, rfl⟩
    · exact absurd (by rw [← hu, List.append_nil]) hne
    · rw [← hu, List.concat_eq_append, ← List.append_assoc, List.dropLast_concat]
      exact List.prefix_append _ _
  have hfree := (accepts_iff.mp h).1.1
  rw [Tree.blocked_eq_true.mpr ⟨q, d, hdrop, hd⟩] at hfree
  exact absurd hfree (by simp)

/-- Only the explicit output file is overwritten. -/
theorem explicit_of_accepts (h : accepts base j output W f = true) {d : List UInt8}
    (hd : W f.path = some (.file d)) :
    isExplicitOutput (root base .jobs j) output (root base .jobs j ++ f.path) = true := by
  exact (accepts_iff.mp h).2.resolve_left (by rw [hd]; simp)

/-- An accepted copy does not decide about the files that are apart from it. -/
theorem accepts_writeAt (hg : accepts base j output W g = true) (h : Apart g.path f.path)
    (d : List UInt8) :
    accepts base j output (W.writeAt g.path d) f = accepts base j output W f := by
  have hself : W.writeAt g.path d f.path = W f.path := by
    rw [Tree.writeAt_apply, if_neg fun heq => h.2 (by rw [heq]), if_neg h.2]
  have hblocked : (W.writeAt g.path d).blocked f.path.dropLast = W.blocked f.path.dropLast := by
    rw [Bool.eq_iff_iff, Tree.blocked_eq_true, Tree.blocked_eq_true]
    refine exists₂_congr fun q e => and_congr_right fun hq => ?_
    have hqf : q <+: f.path := hq.trans (List.dropLast_prefix _)
    have hqg : q ≠ g.path := fun heq => h.1 (heq ▸ hqf)
    rw [Tree.writeAt_apply, if_neg hqg]
    by_cases hpre : q <+: g.path
    · rw [if_pos hpre]
      exact iff_of_false (by simp) (not_file_of_accepts hg hpre hqg e)
    · rw [if_neg hpre]
  rw [accepts, accepts, hself, hblocked]

/-- Of the files that were there, only the explicit output file is replaced. -/
theorem Adds.file {W' : Tree} {files : List TmpFile} (h : Adds files W W')
    (hacc : ∀ f ∈ files, accepts base j output W f = true) {p : Path} {data : List UInt8}
    (hp : W p = some (.file data)) :
    W' p = some (.file data) ∨ (∃ data', W' p = some (.file data')) ∧
      isExplicitOutput (root base .jobs j) output (root base .jobs j ++ p) = true := by
  by_cases hmem : ∃ f ∈ files, f.path = p
  · obtain ⟨f, hf, rfl⟩ := hmem
    exact .inr ⟨⟨f.data, h.here f hf⟩, explicit_of_accepts (hacc f hf) hp⟩
  · left
    rw [h.other p fun f hf hpre => ?_, hp]
    -- a file is not above an accepted one
    exact not_file_of_accepts (hacc f hf) hpre (fun heq => hmem ⟨f, hf, heq.symm⟩) data hp

end Accepts

section CopyOut

variable {base : Path} {j : Uuid} {output : Option String} {f : TmpFile}

/-- **One copy.**  It is made if it is accepted; otherwise nothing changes. -/
theorem copyOut_cases {fs : FileTree} (hroot : treeOf base .jobs j fs [] = some .dir)
    (hf : f.path ≠ [] ∧ ∀ c ∈ f.path, Plain c) :
    (accepts base j output (treeOf base .jobs j fs) f = true ∧
      ∃ fs', copyOut base j output f fs = (.ok (), fs') ∧
        treeOf base .jobs j fs' = (treeOf base .jobs j fs).writeAt f.path f.data) ∨
    (accepts base j output (treeOf base .jobs j fs) f = false ∧
      ∃ x fs', copyOut base j output f fs = (.error x, fs') ∧
        treeOf base .jobs j fs' = treeOf base .jobs j fs) := by
  have hdir : fs.node (root base .jobs j) = some .dir := by
    have := hroot
    rwa [treeOf, Tree.below, List.append_nil] at this
  have htarget : follow (root base .jobs j) f.path = root base .jobs j ++ f.path :=
    follow_plain hf.2 _
  -- what is done depends on whether there is a file already
  have hnew : treeOf base .jobs j fs f.path = none → copyOut base j output f fs =
      LocalStorage.writeBelow (root base .jobs j ++ f.path) f.data fs := by
    intro hnone
    have hnode : fs.node (root base .jobs j ++ f.path) = none := hnone
    simp only [copyOut, htarget, List.prefix_append, if_true, Disk.bind_apply, Disk.lookup, hnode]
  have hold : ∀ n, treeOf base .jobs j fs f.path = some n → copyOut base j output f fs =
      (if isExplicitOutput (root base .jobs j) output (root base .jobs j ++ f.path) then
        LocalStorage.writeBelow (root base .jobs j ++ f.path) f.data
      else Disk.raise (.cliExecution
        ("Access denied: Attempted to overwrite existing non-output file in workspace: " ++
          "/".intercalate f.path) none "" "")) fs := by
    intro n hsome
    have hnode : fs.node (root base .jobs j ++ f.path) = some n := hsome
    simp only [copyOut, htarget, List.prefix_append, if_true, Disk.bind_apply, Disk.lookup, hnode]
  by_cases hpass : treeOf base .jobs j fs f.path = none ∨
      isExplicitOutput (root base .jobs j) output (root base .jobs j ++ f.path) = true
  · -- the test for an existing file is passed, and the file is written
    have hwrite : copyOut base j output f fs =
        LocalStorage.writeBelow (root base .jobs j ++ f.path) f.data fs := by
      rcases htree : treeOf base .jobs j fs f.path with _ | n
      · exact hnew htree
      · rw [hold n htree, if_pos (hpass.resolve_left (by rw [htree]; simp))]
    rcases LocalStorage.writeBelow_cases hdir hf.1 f.data with
      ⟨hfree, hnotDir, fs', hok⟩ | ⟨hway, x, fs', herr, hnode⟩
    · exact .inl ⟨accepts_iff.mpr ⟨⟨hfree, hnotDir⟩, hpass⟩, fs', hwrite.trans hok,
        LocalStorage.writeBelow_ok (LocalStorage.root_ne_nil _ _) hok⟩
    · refine .inr ⟨?_, x, fs', hwrite.trans herr, by rw [treeOf, treeOf, hnode]⟩
      rw [Bool.eq_false_iff]
      intro hacc
      obtain ⟨⟨hfree, hnotDir⟩, -⟩ := accepts_iff.mp hacc
      rcases hway with hway | hway
      · exact absurd (hfree.symm.trans hway) (by simp)
      · exact hnotDir hway
  · have hraise : ∃ x, copyOut base j output f fs = (.error x, fs) := by
      rw [not_or] at hpass
      obtain ⟨n, hn⟩ := Option.ne_none_iff_exists'.mp hpass.1
      rw [hold n hn, if_neg hpass.2]
      exact ⟨_, rfl⟩
    obtain ⟨x, hx⟩ := hraise
    refine .inr ⟨?_, x, fs, hx, rfl⟩
    rw [Bool.eq_false_iff]
    exact fun hacc => hpass (accepts_iff.mp hacc).2

/-- Files are only copied where they are accepted. -/
theorem exec_copyOut_accepts {e : Env} {w w' : World} {u : Unit}
    (hroot : (held base j w).workspace [] = some .dir) (hf : f.path ≠ [] ∧ ∀ c ∈ f.path, Plain c)
    (h : exec base e (.fs (.copyOut j output f)) w = some (.ok u, w')) :
    accepts base j output (held base j w).workspace f = true ∧
      held base j w' = { held base j w with
        workspace := (held base j w).workspace.writeAt f.path f.data } := by
  have hrun : copyOut base j output f w.fs = (.ok u, w'.fs) := (exec_fs_ok h).2
  rcases copyOut_cases hroot hf with ⟨hacc, fs', hok, htree⟩ | ⟨-, x, fs', herr, -⟩
  · refine ⟨hacc, ?_⟩
    rw [hrun] at hok
    rw [@exec_workspace base e j w w' (.copyOut j output f) _ j rfl h, (Prod.mk.inj hok).2, htree]
    rfl
  · rw [hrun] at herr
    exact absurd (Prod.mk.inj herr).1 (by simp)

/-- Where the disk does not fail, a copy is refused because it is not accepted,
and nothing has changed. -/
theorem exec_copyOut_refused {e : Env} {w w' : World} {x : Exn} (hfault : e.fault = none)
    (hroot : (held base j w).workspace [] = some .dir) (hf : f.path ≠ [] ∧ ∀ c ∈ f.path, Plain c)
    (h : exec base e (.fs (.copyOut j output f)) w = some (.error x, w')) :
    accepts base j output (held base j w).workspace f = false ∧
      held base j w' = held base j w := by
  have hrun : copyOut base j output f w.fs = (.error x, w'.fs) := by
    obtain ⟨fs, hrun, rfl⟩ := exec_fs h
    rw [FsOp.run, hfault] at hrun
    exact Option.some.inj hrun
  rcases copyOut_cases hroot hf with ⟨-, fs', hok, -⟩ | ⟨hacc, y, fs', herr, htree⟩
  · rw [hrun] at hok
    exact absurd (Prod.mk.inj hok).1 (by simp)
  · refine ⟨hacc, ?_⟩
    rw [hrun] at herr
    rw [@exec_workspace base e j w w' (.copyOut j output f) _ j rfl h, (Prod.mk.inj herr).2, htree]
    rfl

end CopyOut

/-! ### The copies of one run -/

theorem takeWhile_congr {α : Type} {p q : α → Bool} {l : List α} (h : ∀ a ∈ l, p a = q a) :
    l.takeWhile p = l.takeWhile q := by
  induction l with
  | nil => rfl
  | cons a rest ih =>
    rw [List.takeWhile_cons, List.takeWhile_cons, h a List.mem_cons_self,
      ih fun b hb => h b (List.mem_cons_of_mem _ hb)]

section Copies

variable {Env' : Type} {base : Path} {exec' : Env' → (o : Op) → World → Option (Res o × World)}
  {t : ℕ} {j : Uuid} {output : Option String} {files : List TmpFile} {v v' : View World Op Res}
  (hexec : ∀ e o w r w', exec' e o w = some (r, w') → ∃ e₀, exec base e₀ o w = some (r, w'))

include hexec

/-- One copy among others. -/
theorem copy_step {f : TmpFile} {u : Unit} (hroot : (held base j v.state).workspace [] = some .dir)
    (hf : f.path ≠ [] ∧ ∀ c ∈ f.path, Plain c)
    (h : Amid exec' (undisturbed base j) t (perform (.fs (.copyOut j output f))).run v (.ok u) v') :
    accepts base j output (held base j v.state).workspace f = true ∧
      held base j v'.state = { held base j v.state with
        workspace := (held base j v.state).workspace.writeAt f.path f.data } ∧
      (held base j v'.state).workspace [] = some .dir := by
  obtain ⟨v₁, e, s, hrely, he, hrely'⟩ := Amid.perform h
  obtain ⟨e₀, he₀⟩ := hexec _ _ _ _ _ he
  rw [← hrely.1] at hroot
  obtain ⟨hacc, hheld⟩ := exec_copyOut_accepts hroot hf he₀
  rw [hrely.1] at hacc hheld
  have hafter : held base j v'.state = _ := hrely'.1.trans hheld
  refine ⟨hacc, hafter, ?_⟩
  rw [hafter]
  show Tree.writeAt _ _ _ _ = _
  rw [Tree.writeAt_apply, if_neg hf.1.symm, if_pos List.nil_prefix]

/-- If all copies are made, then all files were accepted and are there. -/
theorem copyOutAll_ok {u : Unit} (hfiles : IsListing files)
    (hroot : (held base j v.state).workspace [] = some .dir)
    (h : Amid exec' (undisturbed base j) t (Runner.copyOutAll j output files).run v (.ok u) v') :
    (∀ f ∈ files, accepts base j output (held base j v.state).workspace f = true) ∧
      held base j v'.state = { held base j v.state with
        workspace := withFiles (held base j v.state).workspace files } := by
  induction files generalizing v with
  | nil =>
    cases h with
    | ret _ hrely _ => exact ⟨fun f hf => absurd hf List.not_mem_nil, hrely.1⟩
  | cons f rest ih =>
    obtain ⟨_, v₁, hcopy, hrest⟩ := Amid.bindE (fun _ => trivial) h
    obtain ⟨hacc, hheld, hroot₁⟩ :=
      copy_step hexec hroot (hfiles.plain f List.mem_cons_self) hcopy
    obtain ⟨hall, hafter⟩ := ih hfiles.tail hroot₁ hrest
    rw [hheld] at hall hafter
    refine ⟨fun g hg => ?_, hafter⟩
    rcases List.mem_cons.mp hg with rfl | hg
    · exact hacc
    · -- what was accepted after the first copy was accepted before it
      rw [← accepts_writeAt hacc ((List.pairwise_cons.mp hfiles.apart).1 g hg) f.data]
      exact hall g hg

/-- If a copy is refused, then the files before it were copied. -/
theorem copyOutAll_error {x : Exn} (hfiles : IsListing files)
    (hroot : (held base j v.state).workspace [] = some .dir)
    (hfault : ∀ e f w w' x, exec' e (.fs (.copyOut j output f)) w = some (.error x, w') →
      ∃ e₀ : Env, e₀.fault = none ∧
        exec base e₀ (.fs (.copyOut j output f)) w = some (.error x, w'))
    (h : Amid exec' (undisturbed base j) t (Runner.copyOutAll j output files).run v (.error x) v') :
    held base j v'.state = { held base j v.state with
      workspace := withFiles (held base j v.state).workspace
        (files.takeWhile (accepts base j output (held base j v.state).workspace)) } := by
  induction files generalizing v with
  | nil => cases h
  | cons f rest ih =>
    have hplain := hfiles.plain f List.mem_cons_self
    rcases Amid.bindE_cases (fun _ => trivial) h with
      ⟨y, v₁, -, hcopy, hrely⟩ | ⟨u, v₁, hcopy, hrest⟩
    · obtain ⟨v₂, e, s, hrely₂, he, hrely₃⟩ := Amid.perform hcopy
      obtain ⟨e₀, hnone, he₀⟩ := hfault e f _ _ _ he
      rw [← hrely₂.1] at hroot
      obtain ⟨hacc, hheld⟩ := exec_copyOut_refused hnone hroot hplain he₀
      rw [hrely₂.1] at hacc hheld
      have hnil : (f :: rest).takeWhile
          (accepts base j output (held base j v.state).workspace) = [] := by
        rw [List.takeWhile_cons, hacc]
        rfl
      rw [hnil]
      exact hrely.1.trans (hrely₃.1.trans hheld)
    · obtain ⟨hacc, hheld, hroot₁⟩ := copy_step hexec hroot hplain hcopy
      have hafter := ih hfiles.tail hroot₁ hrest
      rw [hheld] at hafter
      -- the first copy does not decide about the others
      have hsame : rest.takeWhile (accepts base j output
          ((held base j v.state).workspace.writeAt f.path f.data)) =
          rest.takeWhile (accepts base j output (held base j v.state).workspace) := by
        refine takeWhile_congr fun g hg => ?_
        exact accepts_writeAt hacc ((List.pairwise_cons.mp hfiles.apart).1 g hg) f.data
      rw [List.takeWhile_cons, hacc, if_pos rfl, withFiles_cons, ← hsame]
      exact hafter

end Copies

/-! ### A whole run -/

section Whole

variable {Env' : Type} {parts : Parts} {exec' : Env' → (o : Op) → World → Option (Res o × World)}
  {t : ℕ} {j : Uuid} {server : ℕ} {args : List String} {v v' : View World Op Res}

/-- What the job holds has not changed, and only quiet operations were
performed. -/
def Quietly (base : Path) (j : Uuid) (v v' : View World Op Res) : Prop :=
  held base j v'.state = held base j v.state ∧
    ∃ new, v'.history = new ++ v.history ∧ ∀ l ∈ new, l.op.Quiet

theorem Quietly.trans {base : Path} {v₁ v₂ v₃ : View World Op Res} (h : Quietly base j v₁ v₂)
    (h' : Quietly base j v₂ v₃) : Quietly base j v₁ v₃ := by
  obtain ⟨hheld, new, hnew, hquiet⟩ := h
  obtain ⟨hheld', new', hnew', hquiet'⟩ := h'
  refine ⟨hheld'.trans hheld, new' ++ new, by rw [hnew', hnew, List.append_assoc], ?_⟩
  intro l hl
  rcases List.mem_append.mp hl with hl | hl
  · exact hquiet' l hl
  · exact hquiet l hl

theorem Quietly.of_rely {base : Path} (h : (undisturbed base j).rely v v') :
    Quietly base j v v' :=
  ⟨h.1, [], h.2, fun _ hl => absurd hl List.not_mem_nil⟩

theorem Quietly.mem {base : Path} (h : Quietly base j v v') {l : Label Op Res}
    (hl : l ∈ v.history) : l ∈ v'.history := by
  obtain ⟨-, new, hnew, -⟩ := h
  rw [hnew]
  exact List.mem_append_right _ hl

/-- A process that was launched is in the history. -/
theorem launchWithRetry_label {staged : Staged} {process : ℕ × Behaviour} {n : ℕ}
    (h : Amid exec' (undisturbed parts.base j) t
      (Runner.launchWithRetry parts args staged n).run v (.ok process) v') :
    ⟨t, .sys (.launch args staged), .ok process⟩ ∈ v'.history := by
  have hlaunch : ∀ {v v'}, Amid exec' (undisturbed parts.base j) t
      (perform (.sys (.launch args staged))).run v (.ok process) v' →
      ⟨t, .sys (.launch args staged), .ok process⟩ ∈ v'.history := by
    intro v v' h
    obtain ⟨v₁, e, s, -, -, hrely⟩ := Amid.perform h
    rw [hrely.2]
    exact List.mem_cons_self
  induction n generalizing v with
  | zero =>
    rcases Amid.tryExcept (fun _ => trivial) h with ⟨v₁, hok, hrely⟩ | ⟨err, v₁, -, -, hthrow⟩
    · rw [hrely.2]
      exact hlaunch hok
    · cases hthrow
  | succ n ih =>
    rcases Amid.tryExcept (fun _ => trivial) h with ⟨v₁, hok, hrely⟩ | ⟨err, v₁, -, -, hagain⟩
    · rw [hrely.2]
      exact hlaunch hok
    · obtain ⟨u, v₂, -, hnext⟩ := Amid.bindE (fun _ => trivial) hagain
      exact ih hnext

/-- The history only grows. -/
theorem mem_history_of_amid {base : Path} {α : Type} {p : Prog Op Res α} {a : α} {l : Label Op Res}
    (h : Amid exec' (undisturbed base j) t p v a v') (hl : l ∈ v.history) : l ∈ v'.history := by
  induction h with
  | ret a hrely _ => rwa [hrely.2]
  | call hrely _ _ _ ih =>
    refine ih (List.mem_cons_of_mem _ ?_)
    rwa [hrely.2]

variable (hexec : ∀ e o w r w', exec' e o w = some (r, w') →
  ∃ e₀, exec parts.base e₀ o w = some (r, w'))

include hexec

theorem quietly_of_calls {α : Type} {p : Prog Op Res α} {a : α} (hp : Calls Op.Quiet p)
    (h : Amid exec' (undisturbed parts.base j) t p v a v') : Quietly parts.base j v v' := by
  refine Amid.preserves (R := Quietly parts.base j) (fun _ _ _ => Quietly.trans)
    (fun _ _ => Quietly.of_rely) ?_ hp h
  intro v e o r s hq he
  obtain ⟨e₀, he₀⟩ := hexec _ _ _ _ _ he
  refine ⟨exec_quiet hq he₀, [⟨t, o, r⟩], rfl, fun l hl => ?_⟩
  rw [List.mem_singleton.mp hl]
  exact hq

/-- A quiet part of a run: it raises, and so does the run, or the run goes on. -/
theorem quietly_next {α β : Type} {x : Task α} {f : α → Task β} {r : Except Exn β}
    {u : View World Op Res} (hx : Calls Op.Quiet x.run) (hu : Quietly parts.base j v u)
    (h : Amid exec' (undisturbed parts.base j) t (x >>= f).run u r v') :
    (Quietly parts.base j v v' ∧ ∃ err, r = .error err) ∨
    ∃ a u', Amid exec' (undisturbed parts.base j) t x.run u (.ok a) u' ∧
      Quietly parts.base j v u' ∧ Amid exec' (undisturbed parts.base j) t (f a).run u' r v' := by
  rcases Amid.bindE_cases (fun _ => trivial) h with ⟨err, u', hr, herr, hrely⟩ | ⟨a, u', hok, hrest⟩
  · have hquiet := (hu.trans (quietly_of_calls hexec hx herr)).trans (.of_rely hrely)
    exact .inl ⟨hquiet, err, hr⟩
  · exact .inr ⟨a, u', hok, hu.trans (quietly_of_calls hexec hx hok), hrest⟩

/-- The workspace is a directory when it is staged. -/
theorem stage_root {staged : Staged}
    (h : Amid exec' (undisturbed parts.base j) t (perform (.fs (.stage j))).run v (.ok staged) v') :
    (held parts.base j v.state).workspace [] = some .dir ∧
      ∃ now, Staging (held parts.base j v.state).workspace now staged := by
  obtain ⟨v₁, e, s, hrely, he, -⟩ := Amid.perform h
  obtain ⟨e₀, he₀⟩ := hexec _ _ _ _ _ he
  rw [← hrely.1]
  refine ⟨?_, e₀.now, exec_stage he₀⟩
  have hrun : stage parts.base e₀.traversal e₀.now j v₁.state.fs = (.ok staged, s.fs) :=
    (exec_fs_ok he₀).2
  show v₁.state.fs.node (root parts.base .jobs j ++ []) = _
  rw [List.append_nil]
  rw [stage] at hrun
  rcases hnode : v₁.state.fs.node (root parts.base .jobs j) with _ | _ | d
  · rw [hnode] at hrun
    exact absurd (Prod.mk.inj hrun).1 (by simp)
  · rfl
  · rw [hnode] at hrun
    exact absurd (Prod.mk.inj hrun).1 (by simp)

/-- The body of a tool run raises quietly, or it gets to the copies: the process
has exited with code 0. -/
theorem executeWithTimeout_cases {r : Except Exn ℤ}
    (h : Amid exec' (undisturbed parts.base j) t
      (Runner.executeWithTimeout parts j args).run v r v') :
    (Quietly parts.base j v v' ∧ ∃ x, r = .error x) ∨
    ∃ now staged pid b v₁ v₂ u, Quietly parts.base j v v₁ ∧
      (held parts.base j v.state).workspace [] = some .dir ∧
      Staging (held parts.base j v.state).workspace now staged ∧
      ⟨t, .sys (.launch args staged), .ok (pid, b)⟩ ∈ v₁.history ∧ b.ending = .exited 0 ∧
      Amid exec' (undisturbed parts.base j) t
        (Runner.copyOutAll j (outputFile args)
          (b.files.filter (changed staged.files))).run v₁ u v₂ ∧
      Quietly parts.base j v₂ v' ∧ r = u.map fun _ => 0 := by
  have hI : ∀ v, (undisturbed parts.base j).inv v := fun _ => trivial
  have process : ∀ {α : Type} {p : Prog Op Res α}, Calls (Within (OfProcess j)) p →
      Calls Op.Quiet p := fun hp => calls_mono (fun _ ho => ho.1.quiet.2) hp
  have hrefl : Quietly parts.base j v v := .of_rely ((undisturbed parts.base j).refl v)
  rcases quietly_next hexec (calls_op (o := .fs (.stage j)) rfl) hrefl h with
    hraised | ⟨staged, v₁, hstage, h₁, h⟩
  · exact .inl hraised
  obtain ⟨hroot, now, hstaging⟩ := stage_root hexec hstage
  rcases quietly_next hexec (calls_ofExcept _) h₁ h with hraised | ⟨_, v₂, -, h₂, h⟩
  · exact .inl hraised
  rcases quietly_next hexec (calls_ofExcept _) h₂ h with hraised | ⟨_, v₃, -, h₃, h⟩
  · exact .inl hraised
  rcases quietly_next hexec (launchWithRetry_calls trivial (fun _ => trivial) _) h₃ h with
    hraised | ⟨⟨pid, b⟩, v₄, hlaunch, h₄, h⟩
  · exact .inl hraised
  rcases quietly_next hexec (process (awaitProcess_calls pid b)) h₄ h with
    hraised | ⟨exit, v₅, hwait, h₅, h⟩
  · exact .inl hraised
  -- From here on the process has ended; its files are copied for the exit code zero.
  have hexit := Amid.returns (awaitProcess_returns pid b) hwait exit rfl
  have hlabel := (quietly_of_calls hexec (process (awaitProcess_calls pid b)) hwait).mem
    (launchWithRetry_label hlaunch)
  by_cases hcode : exit.code ≠ 0
  · rw [if_pos hcode] at h
    cases h with
    | ret _ hrely _ => exact .inl ⟨h₅.trans (.of_rely hrely), _, rfl⟩
  · rw [if_neg hcode] at h
    rw [not_not] at hcode
    rw [hcode] at hexit
    refine .inr ⟨now, staged, pid, b, v₅, ?_⟩
    rcases Amid.bindE_cases hI h with ⟨x, v₆, rfl, hcopies, hrely⟩ | ⟨u, v₆, hcopies, hret⟩
    · exact ⟨v₆, .error x, h₅, hroot, hstaging, hlabel, hexit, hcopies, .of_rely hrely, rfl⟩
    · cases hret with
      | ret _ hrely _ =>
        exact ⟨v₆, .ok u, h₅, hroot, hstaging, hlabel, hexit, hcopies, .of_rely hrely,
          by rw [hcode]; rfl⟩

/-- **A tool run** raises quietly, or it gets to the copies. -/
theorem runTool_cases {r : Except Exn ℤ}
    (h : Amid exec' (undisturbed parts.base j) t (Runner.runTool parts server j args).run v r v') :
    (Quietly parts.base j v v' ∧ ∃ x, r = .error x) ∨
    ∃ now staged pid b v₁ v₂ u, Quietly parts.base j v v₁ ∧
      (held parts.base j v.state).workspace [] = some .dir ∧
      Staging (held parts.base j v.state).workspace now staged ∧
      ⟨t, .sys (.launch args staged), .ok (pid, b)⟩ ∈ v₁.history ∧ b.ending = .exited 0 ∧
      Amid exec' (undisturbed parts.base j) t
        (Runner.copyOutAll j (outputFile args)
          (b.files.filter (changed staged.files))).run v₁ u v₂ ∧
      Quietly parts.base j v₂ v' ∧ r = u.map fun _ => 0 := by
  have hrefl : Quietly parts.base j v v := .of_rely ((undisturbed parts.base j).refl v)
  rcases quietly_next hexec (calls_ofExcept _) hrefl h with hraised | ⟨_, v₁, -, h₁, h⟩
  · exact .inl hraised
  rcases quietly_next hexec (calls_op (o := .sys (.acquireCli server)) trivial) h₁ h with
    hraised | ⟨_, v₂, -, h₂, h⟩
  · exact .inl hraised
  -- The slot is given back whatever has happened.
  obtain ⟨v₃, v₄, hbody, hrelease, hrely⟩ := Amid.tryFinally (fun _ => trivial) h
  have h₃ : Quietly parts.base j v₃ v' :=
    (quietly_of_calls hexec (calls_attemptOnly (o := .sys (.releaseCli server)) trivial)
      hrelease).trans (.of_rely hrely)
  rcases executeWithTimeout_cases hexec hbody with
    ⟨hquiet, hr⟩ |
    ⟨now, staged, pid, b, v₅, v₆, u, h₅, hroot, hstaging, hlabel, hexit, hcopies, h₆, hr⟩
  · exact .inl ⟨(h₂.trans hquiet).trans h₃, hr⟩
  · rw [h₂.1] at hroot hstaging
    exact .inr ⟨now, staged, pid, b, v₅, v₆, u, h₂.trans h₅,
      hroot, hstaging, hlabel, hexit, hcopies,
      h₆.trans h₃, hr⟩

end Whole

/-! ### Runs that return and runs that raise -/

instance (files : List TmpFile) : Decidable (IsListing files) :=
  decidable_of_iff ((∀ f ∈ files, f.path ≠ [] ∧ ∀ c ∈ f.path, Plain c) ∧
    files.Pairwise fun f g => Apart f.path g.path)
    ⟨fun h => ⟨h.1, h.2⟩, fun h => ⟨h.plain, h.apart⟩⟩

/-- If the operation launched a process, then what the process leaves in the
temporary directory is a directory tree. -/
def leavesTree : (o : Op) → Res o → Bool
  | .sys (.launch _ _), .ok process => IsListing process.2.files
  | _, _ => true

/-- A file that is not changed was staged, with the same contents if changes
show in size or time. -/
theorem staged_of_unchanged {before after : List TmpFile}
    (hstat : ∀ f ∈ after, ∀ g ∈ before, g.path = f.path → g.data ≠ f.data →
      g.data.length ≠ f.data.length ∨ g.mtime ≠ f.mtime)
    {f : TmpFile} (hf : f ∈ after) (h : ¬ changed before f = true) :
    ∃ g ∈ before, g.path = f.path ∧ g.data = f.data := by
  rw [changed] at h
  rcases hfind : before.find? (fun g => g.path = f.path) with _ | g
  · rw [hfind] at h
    exact absurd rfl h
  · rw [hfind] at h
    have hg := List.mem_of_find?_eq_some hfind
    have hfound := List.find?_some hfind
    have hpath : g.path = f.path := of_decide_eq_true hfound
    refine ⟨g, hg, hpath, ?_⟩
    by_contra hne
    refine h (decide_eq_true ?_)
    exact (hstat f hf g hg hpath hne).imp Ne.symm Ne.symm

section Results

variable (parts : Parts) (server t : ℕ) (j : Uuid) (args : List String)

/-- **Results of the tool.**  When `run_tool` returns, its result is 0 and the
workspace is the one before with exactly those files of the temporary directory
that are new or changed since the snapshot; the other files have kept their
contents, except for the explicit output file, and none has disappeared.  If a
change of contents shows in size or time, then every file of the temporary
directory is in the workspace. -/
theorem tool_results_copied {w : World} {v : View World Op Res} {code : ℤ}
    (hrun : Amid (exec parts.base) (undisturbed parts.base j) t
      (Runner.runTool parts server j args).run ⟨w, []⟩ (.ok code) v)
    (htree : ∀ l ∈ v.history, leavesTree l.op l.res = true) :
    code = 0 ∧ ∃ now staged pid b, ⟨t, .sys (.launch args staged), .ok (pid, b)⟩ ∈ v.history ∧
      Staging (treeOf parts.base .jobs j w.fs) now staged ∧
      Adds (b.files.filter (changed staged.files)) (treeOf parts.base .jobs j w.fs)
        (treeOf parts.base .jobs j v.state.fs) ∧
      (∀ p data, treeOf parts.base .jobs j w.fs p = some (.file data) →
        isExplicitOutput (root parts.base .jobs j) (outputFile args)
          (root parts.base .jobs j ++ p) = false →
        treeOf parts.base .jobs j v.state.fs p = some (.file data)) ∧
      (∀ p data, treeOf parts.base .jobs j w.fs p = some (.file data) →
        ∃ data', treeOf parts.base .jobs j v.state.fs p = some (.file data')) ∧
      ((∀ f ∈ b.files, ∀ g ∈ staged.files, g.path = f.path → g.data ≠ f.data →
          g.data.length ≠ f.data.length ∨ g.mtime ≠ f.mtime) →
        ∀ f ∈ b.files, treeOf parts.base .jobs j v.state.fs f.path = some (.file f.data)) := by
  rcases runTool_cases (fun e _ _ _ _ h => ⟨e, h⟩) hrun with ⟨-, x, hx⟩ |
    ⟨now, staged, pid, b, v₁, v₂, u, h₁, hroot, hstaging, hlabel, -, hcopies, h₂, hr⟩
  · exact absurd hx (by simp)
  cases u with
  | error x => exact absurd hr (by simp [Except.map])
  | ok u =>
    obtain rfl : code = 0 := Except.ok.inj hr
    have hlabel' := h₂.mem (mem_history_of_amid hcopies hlabel)
    have hlisting : IsListing b.files := of_decide_eq_true (htree _ hlabel')
    rw [show (held parts.base j (View.mk w []).state) = held parts.base j w from rfl] at hroot
    obtain ⟨hacc, hheld⟩ := copyOutAll_ok (fun e _ _ _ _ h => ⟨e, h⟩) (hlisting.filter _)
      (by rw [h₁.1]; exact hroot) hcopies
    rw [h₁.1] at hacc hheld
    have hafter : treeOf parts.base .jobs j v.state.fs =
        withFiles (treeOf parts.base .jobs j w.fs) (b.files.filter (changed staged.files)) :=
      congrArg Held.workspace (h₂.1.trans hheld)
    have hadds := adds_withFiles (treeOf parts.base .jobs j w.fs)
      (hlisting.filter (changed staged.files))
    rw [← hafter] at hadds
    refine ⟨rfl, now, staged, pid, b, hlabel', hstaging, hadds, ?_, ?_, ?_⟩
    · intro p data hp hout
      rcases hadds.file hacc hp with hsame | ⟨-, hexplicit⟩
      · exact hsame
      · rw [hout] at hexplicit
        exact absurd hexplicit (by simp)
    · intro p data hp
      rcases hadds.file hacc hp with hsame | ⟨hsome, -⟩
      · exact ⟨data, hsame⟩
      · exact hsome
    · intro hstat f hf
      by_cases hc : changed staged.files f = true
      · exact hadds.here f (List.mem_filter.mpr ⟨hf, hc⟩)
      · -- an unchanged file is the one that was staged
        rw [hadds.other f.path fun g hg hpre => ?_]
        · obtain ⟨g, hg, hpath, hdata⟩ := staged_of_unchanged hstat hf hc
          rw [← hpath, ← hdata]
          exact ((hstaging.2 g).mp hg).2.1
        · obtain ⟨hg, hgc⟩ := List.mem_filter.mp hg
          have hne : f ≠ g := by
            rintro rfl
            exact hc hgc
          exact (hlisting.apart_of_ne hf hg hne).1 hpre

end Results

namespace Sample

/-- The tool leaves these files and exits with code 0. -/
def produces (files : List TmpFile) : Env :=
  { calm with behaviour := fun _ _ => ⟨[], .exited 0, files⟩ }

/-- A tool run for the sample job, whose workspace holds `a.txt`. -/
def toolRun (exec' : Env → (o : Op) → World → Option (Res o × World)) (args : List String)
    (es : List Env) : Option (World × Except Exn ℤ × View World Op Res) :=
  ((platform (parts plan)).moves (running 7) (start (parts plan))).bind fun m =>
    (runWith exec' 0 es (Runner.runTool (parts plan) 0 job args).run ⟨m.view.state, []⟩).map
      fun r => (m.view.state, r)

/-- What an evaluated tool run says about runs. -/
theorem of_toolRun (exec' : Env → (o : Op) → World → Option (Res o × World)) (args : List String)
    (es : List Env) (good : World → Except Exn ℤ → View World Op Res → Bool)
    (h : ((toolRun exec' args es).any fun r => good r.1 r.2.1 r.2.2 ∧
      r.2.2.history.all fun l => leavesTree l.op l.res) = true) :
    ∃ m r v, (platform (parts plan)).Reach (start (parts plan)) m ∧
      Amid exec' (undisturbed (parts plan).base job) 0
        (Runner.runTool (parts plan) 0 job args).run ⟨m.view.state, []⟩ r v ∧
      (∀ l ∈ v.history, leavesTree l.op l.res = true) ∧ good m.view.state r v = true := by
  obtain ⟨⟨w, r, v⟩, hrun, h⟩ := (Option.any_eq_true _ _).mp h
  obtain ⟨hgood, htree⟩ := of_decide_eq_true h
  obtain ⟨m, hm, hrun⟩ := Option.bind_eq_some_iff.mp hrun
  obtain ⟨⟨r', v'⟩, hrun, heq⟩ := Option.map_eq_some_iff.mp hrun
  obtain ⟨rfl, rfl, rfl⟩ := heq
  exact ⟨m, r, v, System.reach_of_moves hm, amid_of_runWith (fun _ => trivial) hrun,
    List.all_eq_true.mp htree, hgood⟩

end Sample

set_option maxRecDepth 100000 in
theorem tool_results_copied_sample :
    ∃ m v, (platform (Sample.parts Sample.plan)).Reach (start (Sample.parts Sample.plan)) m ∧
      Amid (exec (Sample.parts Sample.plan).base)
        (undisturbed (Sample.parts Sample.plan).base Sample.job) 0
        (Runner.runTool (Sample.parts Sample.plan) 0 Sample.job ["-o", "out.stl", "a.scad"]).run
        ⟨m.view.state, []⟩ (.ok 0) v ∧
      treeOf (Sample.parts Sample.plan).base .jobs Sample.job v.state.fs ["a.txt"] =
        some (.file (utf8 "hi")) := by
  obtain ⟨m, r, v, hm, hrun, htree, hgood⟩ := Sample.of_toolRun
    (exec (Sample.parts Sample.plan).base) ["-o", "out.stl", "a.scad"]
    (List.replicate 6 (Sample.produces [⟨["out.stl"], utf8 "solid", 1⟩]))
    (fun w r _ => r = .ok 0 ∧
      treeOf (Sample.parts Sample.plan).base .jobs Sample.job w.fs ["a.txt"] =
      some (.file (utf8 "hi"))) (by decide +kernel)
  obtain ⟨rfl, hfile⟩ := of_decide_eq_true hgood
  obtain ⟨-, now, staged, pid, b, -, -, -, hkept, -, -⟩ :=
    tool_results_copied _ _ _ _ _ hrun htree
  exact ⟨m, v, hm, hrun, hkept ["a.txt"] (utf8 "hi") hfile (by decide)⟩

section Copied

variable (parts : Parts) (server t : ℕ) (j : Uuid) (args : List String)

/-- The disk does not fail while files are copied back. -/
def steady (base : Path) (e : Env) : (o : Op) → World → Option (Res o × World)
  | .fs (.copyOut k output f), w =>
    exec base { e with fault := none } (.fs (.copyOut k output f)) w
  | o, w => exec base e o w

theorem exec_of_steady {base : Path} (e : Env) (o : Op) (w : World) (r : Res o) (w' : World)
    (h : steady base e o w = some (r, w')) : ∃ e₀, exec base e₀ o w = some (r, w') := by
  cases o with
  | fs o =>
    cases o with
    | copyOut k output f => exact ⟨{ e with fault := none }, h⟩
    | _ => exact ⟨e, h⟩
  | db o => exact ⟨e, h⟩
  | sys o => exact ⟨e, h⟩

/-- Writing files that are there changes nothing. -/
theorem withFiles_eq_self_iff {base : Path} {k : Uuid} {fs : FileTree} {files : List TmpFile}
    (h : IsListing files) :
    withFiles (treeOf base .jobs k fs) files = treeOf base .jobs k fs ↔
      ∀ f ∈ files, treeOf base .jobs k fs f.path = some (.file f.data) := by
  have hadds := adds_withFiles (treeOf base .jobs k fs) h
  constructor
  · intro heq f hf
    rw [← heq]
    exact hadds.here f hf
  · intro hthere
    funext p
    by_cases hother : ∀ f ∈ files, ¬ p <+: f.path
    · exact hadds.other p hother
    · push Not at hother
      obtain ⟨f, hf, hpre⟩ := hother
      by_cases hp : ∃ g ∈ files, g.path = p
      · obtain ⟨g, hg, rfl⟩ := hp
        rw [hadds.here g hg, hthere g hg]
      · -- everything above a file is a directory
        have hne : p ≠ f.path := fun heq => hp ⟨f, hf, heq.symm⟩
        rw [hadds.above p ⟨f, hf, hpre, hne⟩]
        refine (fs.dir_of_prefix ?_ ((List.prefix_append_right_inj _).mpr hpre) fun heq =>
          hne (List.append_cancel_left heq)).symm
        rw [show fs.node (root base .jobs k ++ f.path) = _ from hthere f hf]
        simp

/-- **Tool runs that raise.**  As long as the disk does not fail during the
copies: a run that raises has not got to the copies and the workspace is as
before, or the process has exited with code 0 and the workspace is as before
exactly if the workspace had every changed file that precedes the first refused
one. -/
theorem failed_run_untouched_iff {w : World} {v : View World Op Res} {x : Exn}
    (hrun : Amid (steady parts.base) (undisturbed parts.base j) t
      (Runner.runTool parts server j args).run ⟨w, []⟩ (.error x) v)
    (htree : ∀ l ∈ v.history, leavesTree l.op l.res = true) :
    (treeOf parts.base .jobs j v.state.fs = treeOf parts.base .jobs j w.fs ∧
      ∀ l ∈ v.history, l.op.Quiet) ∨
    ∃ now staged pid b, ⟨t, .sys (.launch args staged), .ok (pid, b)⟩ ∈ v.history ∧
      b.ending = .exited 0 ∧ Staging (treeOf parts.base .jobs j w.fs) now staged ∧
      (treeOf parts.base .jobs j v.state.fs = treeOf parts.base .jobs j w.fs ↔
        ∀ f ∈ (b.files.filter (changed staged.files)).takeWhile
            (accepts parts.base j (outputFile args) (treeOf parts.base .jobs j w.fs)),
          treeOf parts.base .jobs j w.fs f.path = some (.file f.data)) := by
  rcases runTool_cases exec_of_steady hrun with ⟨⟨hheld, new, hnew, hquiet⟩, -⟩ |
    ⟨now, staged, pid, b, v₁, v₂, u, h₁, hroot, hstaging, hlabel, hexit, hcopies, h₂, hr⟩
  · refine .inl ⟨congrArg Held.workspace hheld, fun l hl => ?_⟩
    rw [hnew, List.append_nil] at hl
    exact hquiet l hl
  cases u with
  | ok u => exact absurd hr (by simp [Except.map])
  | error y =>
    have hlabel' := h₂.mem (mem_history_of_amid hcopies hlabel)
    -- The tool leaves each path once, so that the copies do not overwrite each other.
    have hlisting : IsListing (b.files.filter (changed staged.files)) :=
      IsListing.filter (of_decide_eq_true (htree _ hlabel')) _
    rw [show (held parts.base j (View.mk w []).state) = held parts.base j w from rfl] at hroot
    have hheld := copyOutAll_error exec_of_steady hlisting (by rw [h₁.1]; exact hroot)
      (fun e f _ _ _ h => ⟨{ e with fault := none }, rfl, h⟩) hcopies
    rw [h₁.1] at hheld
    refine .inr ⟨now, staged, pid, b, hlabel', hexit, hstaging, ?_⟩
    rw [show treeOf parts.base .jobs j v.state.fs = _ from
      congrArg Held.workspace (h₂.1.trans hheld)]
    exact withFiles_eq_self_iff (hlisting.takeWhile _)

end Copied

namespace Sample

/-- The operation launched a process. -/
def launchesProcess : (o : Op) → Res o → Bool
  | .sys (.launch _ _), .ok _ => true
  | _, _ => false

/-- If the operation launched a process, then the first file to be copied is refused. -/
def refusesFirst (workspace : Tree) : (o : Op) → Res o → Bool
  | .sys (.launch args staged), .ok (_, b) =>
    ((b.files.filter (changed staged.files)).takeWhile
      (accepts (parts plan).base job (outputFile args) workspace)).isEmpty
  | _, _ => true

/-- The tool run raised, with or without a process, before it copied a file. -/
def raises (process : Bool) (w : World) (r : Except Exn ℤ) (v : View World Op Res) : Bool :=
  decide (r.toOption = none ∧ (v.history.any fun l => launchesProcess l.op l.res) = process ∧
    v.history.all fun l => refusesFirst (treeOf (parts plan).base .jobs job w.fs) l.op l.res)

/-- A tool run that raised, with or without a process, and left the workspace as it was. -/
def LeftAlone (process : Bool) : Prop :=
  ∃ m v x, (platform (parts plan)).Reach (start (parts plan)) m ∧
    Amid (steady (parts plan).base) (undisturbed (parts plan).base job) 0
      (Runner.runTool (parts plan) 0 job ["a.scad"]).run ⟨m.view.state, []⟩ (.error x) v ∧
    (v.history.any fun l => launchesProcess l.op l.res) = process ∧
    treeOf (parts plan).base .jobs job v.state.fs =
      treeOf (parts plan).base .jobs job m.view.state.fs

end Sample

set_option maxRecDepth 100000 in
/-- The tool cannot be launched; it is launched and leaves a file that would overwrite
`a.txt`. -/
theorem failed_run_untouched_iff_refused : Sample.LeftAlone false ∧ Sample.LeftAlone true := by
  have hrefused : ∀ es process,
      ((Sample.toolRun (steady (Sample.parts Sample.plan).base) ["a.scad"] es).any fun r =>
        Sample.raises process r.1 r.2.1 r.2.2 ∧
          r.2.2.history.all fun l => leavesTree l.op l.res) = true →
      Sample.LeftAlone process := by
    intro es process h
    obtain ⟨m, r, v, hm, hrun, htree, hgood⟩ :=
      Sample.of_toolRun _ _ es (Sample.raises process) h
    obtain ⟨hraised, hprocess, hfirst⟩ := of_decide_eq_true hgood
    cases r with
    | ok code => exact absurd hraised (by simp [Except.toOption])
    | error x =>
      refine ⟨m, v, x, hm, hrun, hprocess, ?_⟩
      rcases failed_run_untouched_iff _ _ _ _ _ hrun htree with ⟨hsame, -⟩ |
        ⟨now, staged, pid, b, hlabel, -, -, hiff⟩
      · exact hsame
      · refine hiff.mpr fun f hf => ?_
        rw [List.isEmpty_iff.mp (List.all_eq_true.mp hfirst _ hlabel)] at hf
        exact absurd hf List.not_mem_nil
  constructor
  · exact hrefused [Sample.calm, Sample.calm, Sample.refused, Sample.calm, Sample.refused,
      Sample.calm, Sample.refused, Sample.calm] false (by decide +kernel)
  · exact hrefused (List.replicate 6 (Sample.produces [⟨["a.txt"], utf8 "other", 1⟩])) true
      (by decide +kernel)

set_option maxRecDepth 100000 in
/-- The tool leaves a new file and one that would overwrite `a.txt`: the new
file is copied before the other one is refused. -/
theorem failed_run_leaves_file :
    ∃ m v x, (platform (Sample.parts Sample.plan)).Reach (start (Sample.parts Sample.plan)) m ∧
      Amid (exec (Sample.parts Sample.plan).base)
        (undisturbed (Sample.parts Sample.plan).base Sample.job) 0
        (Runner.runTool (Sample.parts Sample.plan) 0 Sample.job ["a.scad"]).run
        ⟨m.view.state, []⟩ (.error x) v ∧
      (∀ l ∈ v.history, leavesTree l.op l.res = true) ∧
      treeOf (Sample.parts Sample.plan).base .jobs Sample.job m.view.state.fs ["new.stl"] = none ∧
      treeOf (Sample.parts Sample.plan).base .jobs Sample.job v.state.fs ["new.stl"] =
        some (.file (utf8 "solid")) := by
  obtain ⟨m, r, v, hm, hrun, htree, hgood⟩ := Sample.of_toolRun
    (exec (Sample.parts Sample.plan).base) ["a.scad"]
    (List.replicate 7 (Sample.produces
      [⟨["new.stl"], utf8 "solid", 1⟩, ⟨["a.txt"], utf8 "other", 1⟩]))
    (fun w r v => r.toOption = none ∧
      treeOf (Sample.parts Sample.plan).base .jobs Sample.job w.fs ["new.stl"] = none ∧
      treeOf (Sample.parts Sample.plan).base .jobs Sample.job v.state.fs ["new.stl"] =
        some (.file (utf8 "solid"))) (by decide +kernel)
  obtain ⟨hraised, hbefore, hafter⟩ := of_decide_eq_true hgood
  cases r with
  | ok code => exact absurd hraised (by simp [Except.toOption])
  | error x => exact ⟨m, v, x, hm, hrun, htree, hbefore, hafter⟩

/-! ### Output options -/

/-- The elements that immediately follow a `-o`. -/
def outputValues : List String → List String
  | a :: b :: rest =>
    if a = "-o" then b :: outputValues (b :: rest) else outputValues (b :: rest)
  | _ => []

/-- The path stays in the directory it is read from: it is relative, it has no
`..` component, and it resolves to something below that directory. -/
structure Confined (out : String) : Prop where
  relative : isAbsolute out = false
  noParent : ".." ∉ segments out
  inside : ∀ dir : Path, dir <+: resolve dir out

/-- The runner only looks at the first one. -/
theorem outputFile_eq_head (args : List String) : outputFile args = (outputValues args).head? := by
  fun_induction outputValues args with
  | case1 b rest ih => rw [outputFile, if_pos rfl, List.head?_cons]
  | case2 a b rest hne ih => rw [outputFile, if_neg hne, ih]
  | case3 args hshort =>
    rw [List.head?_nil]
    unfold outputFile
    split
    · exact absurd rfl (hshort _ _ _)
    · rfl

theorem prefix_follow {names : List String} (h : ".." ∉ names) (dir : Path) :
    dir <+: follow dir names := by
  induction names generalizing dir with
  | nil => exact List.prefix_refl dir
  | cons c names ih =>
    rw [List.mem_cons, not_or] at h
    obtain ⟨hc, hnames⟩ := h
    have hstep : dir <+: enter dir c := by
      rw [enter]
      by_cases hstay : c = "" ∨ c = "."
      · rw [if_pos hstay]
      · rw [if_neg hstay, if_neg (Ne.symm hc)]
        exact List.prefix_append dir [c]
    exact hstep.trans (ih hnames (enter dir c))

theorem confined_iff {out : String} :
    Confined out ↔ isAbsolute out = false ∧ ".." ∉ segments out := by
  constructor
  · intro h
    exact ⟨h.relative, h.noParent⟩
  · rintro ⟨hrel, hparent⟩
    refine ⟨hrel, hparent, fun dir => ?_⟩
    rw [resolve, hrel]
    exact prefix_follow hparent dir

/-- The check of the runner accepts confined paths only. -/
theorem confined_of_checkOutput {out : String} (h : checkOutput (some out) = .ok ()) :
    Confined out := by
  rw [confined_iff]
  rw [checkOutput] at h
  by_cases hempty : out = ""
  · rw [hempty]
    decide
  · rw [if_neg hempty] at h
    by_cases hbad : isAbsolute out = true ∨ ".." ∈ segments out
    · rw [if_pos hbad] at h
      exact absurd h (by simp)
    · rw [not_or, Bool.not_eq_true] at hbad
      exact hbad

/-- **Output paths.**  When the tool is launched with some arguments, in any run
of the platform, then all output paths among them are confined to the working
directory exactly if those after the first one are: the first one is the only
one that was checked. -/
theorem launched_outputs_confined_iff (parts : Parts) {m : State}
    (hm : (platform parts).Reach (start parts) m) {l : Label Op Res} (hl : l ∈ m.view.history)
    {args : List String} {staged : Staged} (hlaunch : l.op = .sys (.launch args staged)) :
    (∀ out ∈ outputValues args, Confined out) ↔
      ∀ out ∈ (outputValues args).tail, Confined out := by
  have hchecked : l.op.Checked := System.Reach.performed (body_checked parts) hm l hl
  rw [hlaunch] at hchecked
  have hfirst : checkOutput (outputFile args) = .ok () := hchecked.2.1
  rw [outputFile_eq_head] at hfirst
  constructor
  · intro hall out hout
    exact hall out (List.mem_of_mem_tail hout)
  · intro hrest out hout
    rcases hvalues : outputValues args with _ | ⟨first, others⟩
    · rw [hvalues] at hout
      exact absurd hout List.not_mem_nil
    · rw [hvalues] at hout hfirst hrest
      rcases List.mem_cons.mp hout with rfl | hout
      · exact confined_of_checkOutput hfirst
      · exact hrest out hout

namespace Sample

/-- A job whose plan runs the tool with these arguments, when the tool has been
launched. -/
def launchedWith (args : List String) (m : State) : Bool :=
  m.view.history.any fun l => match l.op with
    | .sys (.launch used _) => used = args
    | _ => false

theorem of_launchedWith (args : List String)
    (h : (((platform (parts [.runTool "openscad" args])).moves (running 9)
      (start (parts [.runTool "openscad" args]))).any (launchedWith args)) = true) :
    ∃ m, (platform (parts [.runTool "openscad" args])).Reach
        (start (parts [.runTool "openscad" args])) m ∧
      ∃ l ∈ m.view.history, ∃ staged, l.op = .sys (.launch args staged) := by
  obtain ⟨m, hm, hgood⟩ := reached _ _ _ h
  obtain ⟨l, hl, hlaunch⟩ := List.any_eq_true.mp hgood
  refine ⟨m, hm, l, hl, ?_⟩
  rcases hop : l.op with o | o | o
  · rw [hop] at hlaunch
    exact absurd hlaunch (by simp)
  · rw [hop] at hlaunch
    exact absurd hlaunch (by simp)
  · rw [hop] at hlaunch
    cases o with
    | launch used staged =>
      obtain rfl : used = args := of_decide_eq_true hlaunch
      exact ⟨staged, rfl⟩
    | _ => exact absurd hlaunch (by simp)

end Sample

set_option maxRecDepth 100000 in
/-- The second output path was not checked, and it is confined. -/
theorem launched_outputs_confined_iff_two_outputs :
    ∃ m : State, (platform (Sample.parts
        [.runTool "openscad" ["-o", "a.stl", "-o", "b.stl"]])).Reach
        (start (Sample.parts [.runTool "openscad" ["-o", "a.stl", "-o", "b.stl"]])) m ∧
      (∃ l ∈ m.view.history, ∃ staged,
        l.op = .sys (.launch ["-o", "a.stl", "-o", "b.stl"] staged)) ∧
      outputValues ["-o", "a.stl", "-o", "b.stl"] = ["a.stl", "b.stl"] ∧
      ∀ out ∈ outputValues ["-o", "a.stl", "-o", "b.stl"], Confined out := by
  obtain ⟨m, hm, l, hl, staged, hlaunch⟩ := Sample.of_launchedWith ["-o", "a.stl", "-o", "b.stl"]
    (by decide +kernel)
  have hvalues : outputValues ["-o", "a.stl", "-o", "b.stl"] = ["a.stl", "b.stl"] := by decide
  refine ⟨m, hm, ⟨l, hl, staged, hlaunch⟩, hvalues,
    (launched_outputs_confined_iff _ hm hl hlaunch).mpr fun out hout => ?_⟩
  rw [hvalues] at hout
  rw [List.mem_singleton.mp hout]
  exact confined_iff.mpr (by decide)

set_option maxRecDepth 100000 in
/-- The tool is launched with a second output path that leaves its directory. -/
theorem second_output_escapes :
    ∃ m : State, (platform (Sample.parts
        [.runTool "openscad" ["-o", "a.stl", "-o", "../b.stl"]])).Reach
        (start (Sample.parts [.runTool "openscad" ["-o", "a.stl", "-o", "../b.stl"]])) m ∧
      (∃ l ∈ m.view.history, ∃ staged,
        l.op = .sys (.launch ["-o", "a.stl", "-o", "../b.stl"] staged)) ∧
      "../b.stl" ∈ outputValues ["-o", "a.stl", "-o", "../b.stl"] ∧
      resolve ["tmp", "x"] "../b.stl" = ["tmp", "b.stl"] := by
  obtain ⟨m, hm, hlaunch⟩ := Sample.of_launchedWith ["-o", "a.stl", "-o", "../b.stl"]
    (by decide +kernel)
  exact ⟨m, hm, hlaunch, by decide, by decide⟩

end CliExecutionPlatform
