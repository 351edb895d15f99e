/-
File trees: directories and regular files, without links.

A `Tree` is a partial map from paths (lists of names below some directory) to
nodes.  A `FileTree` is a tree as a file system keeps it: its root is a
directory, whatever exists lies in a directory, and only finitely many paths
exist.  These facts are fields of the structure, so that every operation below
has to preserve them.

* `FileTree.mkdirs`, `write`, `remove`, `unlink`, `graft` — the operations,
  each described by one closed formula for the nodes afterwards;
* `FileTree.copyTree` — the recursive copy, entry by entry in the order in
  which the directory is traversed; `copyTree_spec` says that into a fresh place it
  reproduces the source exactly, for every traversal order;
* `Tree.below` — the tree below a path, with what each operation does to it;
* `Tree.Outside` — nothing changed outside some directories, except that these
  may have been created; `Tree.Kept` — and no directory has gone; `Tree.FilesKept` — every
  regular file is still one;
* `Tree.writeAll` — files written one after the other; `writeAll_perm` says that
  the order does not matter.
-/
import Mathlib.Data.List.Basic
import Mathlib.Data.List.Dedup
import Mathlib.Data.List.Infix
import Mathlib.Tactic.Common

namespace Files

/-- A path: the names of its components, outermost first. -/
abbrev Path := List String

/-- Two directories neither of which contains the other. -/
def Apart (p q : Path) : Prop := ¬ p <+: q ∧ ¬ q <+: p

instance (p q : Path) : Decidable (Apart p q) := inferInstanceAs (Decidable (_ ∧ _))

theorem Apart.symm {p q : Path} (h : Apart p q) : Apart q p := ⟨h.2, h.1⟩

theorem Apart.not_prefix_append {p q : Path} (h : Apart p q) (r : Path) :
    ¬ p <+: q ++ r := by
  intro hp
  rcases List.prefix_or_prefix_of_prefix hp (List.prefix_append q r) with h' | h'
  · exact h.1 h'
  · exact h.2 h'

theorem Apart.append {p q : Path} (h : Apart p q) (r s : Path) : Apart (p ++ r) (q ++ s) :=
  ⟨fun h' => h.not_prefix_append s ((List.prefix_append p r).trans h'),
    fun h' => h.symm.not_prefix_append r ((List.prefix_append q s).trans h')⟩

/-- Directories below a common one are apart if they start with different
names. -/
theorem apart_of_ne (p : Path) {m n : String} (h : m ≠ n) : Apart (p ++ [m]) (p ++ [n]) := by
  have key : ∀ {a b : String}, p ++ [a] <+: p ++ [b] → a = b := by
    intro a b hab
    rw [List.prefix_append_right_inj, List.cons_prefix_cons] at hab
    exact hab.1
  exact ⟨fun h' => h (key h'), fun h' => h (key h').symm⟩

/-- What a path can name. -/
inductive Node
  | dir
  | file (data : List UInt8)
  deriving DecidableEq

/-- A partial map from paths to nodes. -/
abbrev Tree := Path → Option Node

namespace Tree

/-- The tree seen from the directory `r`. -/
def below (t : Tree) (r : Path) : Tree := fun q => t (r ++ q)

/-- The tree in which `p` and everything above it are directories. -/
def mkdirs (t : Tree) (p : Path) : Tree := fun q => if q <+: p then some .dir else t q

/-- The tree in which `p` is a regular file with the given contents. -/
def put (t : Tree) (p : Path) (data : List UInt8) : Tree := fun q =>
  if q = p then some (.file data) else t q

/-- Some component of `p` is a regular file, so that `p` cannot become a
directory. -/
def blocked (t : Tree) (p : Path) : Bool :=
  p.inits.any fun q => match t q with
    | some (.file _) => true
    | _ => false

/-- The tree without `r` and what is below it. -/
def remove (t : Tree) (r : Path) : Tree := fun q => if r <+: q ∧ q ≠ [] then none else t q

/-- The tree with `s` in the place of `r`. -/
def graft (t : Tree) (r : Path) (s : Tree) : Tree := fun q =>
  if r <+: q then s (q.drop r.length) else t q

/-- A directory with the contents of `s`. -/
def copied (s : Tree) : Tree := fun q => if q = [] then some .dir else s q

/-- A directory without contents. -/
def empty : Tree := fun q => if q = [] then some .dir else none

/-- The tree after the directory of `p` was created and the file `p` written. -/
def writeAt (t : Tree) (p : Path) (data : List UInt8) : Tree :=
  (if p = [] then t else t.mkdirs p.dropLast).put p data

theorem mkdirs_none : Tree.mkdirs (fun _ => none) [] = empty := by
  funext q
  rw [mkdirs, empty]
  exact if_congr List.prefix_nil rfl rfl

theorem blocked_eq_true {t : Tree} {p : Path} :
    t.blocked p = true ↔ ∃ q d, q <+: p ∧ t q = some (.file d) := by
  rw [blocked, List.any_eq_true]
  constructor
  · rintro ⟨q, hq, h⟩
    rcases ht : t q with _ | n
    · rw [ht] at h
      exact absurd h (by simp)
    · rcases n with _ | d
      · rw [ht] at h
        exact absurd h (by simp)
      · exact ⟨q, d, (List.mem_inits _ _).mp hq, ht⟩
  · rintro ⟨q, d, hq, ht⟩
    exact ⟨q, (List.mem_inits _ _).mpr hq, by rw [ht]⟩

@[simp] theorem put_self (t : Tree) (p : Path) (d : List UInt8) :
    t.put p d p = some (.file d) := if_pos rfl

theorem put_of_ne (t : Tree) {p q : Path} (d : List UInt8) (h : q ≠ p) :
    t.put p d q = t q := if_neg h

/-- Writing a file makes it a file and everything above it a directory. -/
theorem writeAt_apply (t : Tree) (p q : Path) (d : List UInt8) :
    t.writeAt p d q = if q = p then some (.file d) else if q <+: p then some .dir else t q := by
  rw [writeAt]
  by_cases hqp : q = p
  · rw [if_pos hqp, hqp, put_self]
  · rw [if_neg hqp, put_of_ne _ _ hqp]
    by_cases hp : p = []
    · rw [if_pos hp, if_neg]
      intro hpre
      rw [hp, List.prefix_nil] at hpre
      exact hqp (hpre.trans hp.symm)
    · rw [if_neg hp, mkdirs]
      -- a proper prefix is one of the directory of `p`
      have hiff : q <+: p.dropLast ↔ q <+: p := by
        conv_rhs => rw [← List.dropLast_append_getLast hp, List.prefix_concat_iff]
        rw [List.dropLast_append_getLast hp, or_iff_right hqp]
      by_cases hq : q <+: p
      · rw [if_pos hq, if_pos (hiff.mpr hq)]
      · rw [if_neg hq, if_neg (fun h => hq (hiff.mp h))]

/-- Files at unrelated paths can be written in any order. -/
theorem writeAt_comm (t : Tree) {p q : Path} (h : Apart p q) (d e : List UInt8) :
    (t.writeAt p d).writeAt q e = (t.writeAt q e).writeAt p d := by
  funext r
  rw [writeAt_apply, writeAt_apply, writeAt_apply, writeAt_apply]
  by_cases hrq : r = q
  · have hnp : ¬ r <+: p := by
      rw [hrq]
      exact h.2
    have hne : r ≠ p := fun heq => hnp (by rw [heq])
    rw [if_pos hrq, if_neg hne, if_neg hnp, if_pos hrq]
  · rw [if_neg hrq, if_neg hrq]
    by_cases hrp : r = p
    · have hnq : ¬ r <+: q := by
        rw [hrp]
        exact h.1
      rw [if_pos hrp, if_pos hrp, if_neg hnq]
    · rw [if_neg hrp, if_neg hrp]
      by_cases hq : r <+: q
      · rw [if_pos hq, if_pos hq, ite_self]
      · rw [if_neg hq, if_neg hq]

/-- The tree after some files have been written, one after the other. -/
def writeAll (t : Tree) (files : List (Path × List UInt8)) : Tree :=
  files.foldl (fun t f => t.writeAt f.1 f.2) t

/-- The order does not matter if no path is above another one. -/
theorem writeAll_perm (t : Tree) {files files' : List (Path × List UInt8)}
    (hperm : files.Perm files')
    (hapart : ∀ f ∈ files, ∀ g ∈ files, f ≠ g → Apart f.1 g.1) :
    t.writeAll files = t.writeAll files' := by
  refine hperm.foldl_eq' (fun f hf g hg t => ?_) t
  by_cases hfg : f = g
  · rw [hfg]
  · exact writeAt_comm t (hapart f hf g hg hfg) _ _

/-- What is neither one of the files nor above one stays. -/
theorem writeAll_of_not_above (t : Tree) {files : List (Path × List UInt8)} {q : Path}
    (h : ∀ f ∈ files, ¬ q <+: f.1) : t.writeAll files q = t q := by
  induction files generalizing t with
  | nil => rfl
  | cons f rest ih =>
    have hf : ¬ q <+: f.1 := h f List.mem_cons_self
    refine (ih (t.writeAt f.1 f.2) fun g hg => h g (List.mem_cons_of_mem _ hg)).trans ?_
    rw [writeAt_apply, if_neg fun heq => hf (by rw [heq]), if_neg hf]

/-- Files that are not below each other are all there in the end. -/
theorem writeAll_mem (t : Tree) {files : List (Path × List UInt8)}
    (hapart : files.Pairwise fun f g => Apart f.1 g.1) {f : Path × List UInt8} (hf : f ∈ files) :
    t.writeAll files f.1 = some (.file f.2) := by
  induction files generalizing t with
  | nil => exact absurd hf List.not_mem_nil
  | cons g rest ih =>
    obtain ⟨hg, hrest⟩ := List.pairwise_cons.mp hapart
    rcases List.mem_cons.mp hf with rfl | hf
    · refine (writeAll_of_not_above (t.writeAt f.1 f.2) fun g' hg' => (hg g' hg').1).trans ?_
      rw [writeAt_apply, if_pos rfl]
    · exact ih (t.writeAt g.1 g.2) hrest hf

/-- What is above one of the files is a directory. -/
theorem writeAll_above (t : Tree) {files : List (Path × List UInt8)} {q : Path}
    (hne : ∀ f ∈ files, q ≠ f.1) (h : t q = some .dir ∨ ∃ f ∈ files, q <+: f.1) :
    t.writeAll files q = some .dir := by
  induction files generalizing t with
  | nil =>
    rcases h with h | ⟨f, hf, -⟩
    · exact h
    · exact absurd hf List.not_mem_nil
  | cons g rest ih =>
    refine ih (t.writeAt g.1 g.2) (fun f hf => hne f (List.mem_cons_of_mem _ hf)) ?_
    rw [writeAt_apply, if_neg (hne g List.mem_cons_self)]
    by_cases hpre : q <+: g.1
    · exact .inl (if_pos hpre)
    · rw [if_neg hpre]
      refine h.imp_right ?_
      rintro ⟨f, hf, hqf⟩
      rcases List.mem_cons.mp hf with rfl | hf
      · exact absurd hqf hpre
      · exact ⟨f, hf, hqf⟩

theorem copied_copied (t : Tree) : t.copied.copied = t.copied := by
  funext q
  by_cases h : q = []
  · rw [copied, if_pos h, copied, if_pos h]
  · rw [copied, if_neg h]

/-- A directory is the directory with its contents. -/
theorem copied_eq_self {t : Tree} (h : t [] = some .dir) : t.copied = t := by
  funext q
  by_cases hq : q = []
  · rw [copied, if_pos hq, hq, h]
  · rw [copied, if_neg hq]

theorem below_below (t : Tree) (r s : Path) : (t.below r).below s = t.below (r ++ s) := by
  funext q
  simp [below]

/-! ### What the tree below a directory becomes

One lemma for a change below the directory itself and one for a change below a
directory apart from it. -/

section Below

variable {r r' : Path}

theorem below_mkdirs (t : Tree) (r p : Path) :
    (t.mkdirs (r ++ p)).below r = (t.below r).mkdirs p := by
  funext q
  simp only [below, mkdirs, List.prefix_append_right_inj]

theorem below_mkdirs_apart (t : Tree) (p : Path) (h : Apart r' r) :
    (t.mkdirs (r ++ p)).below r' = t.below r' := by
  funext q
  rw [below, mkdirs, if_neg fun h' => h.not_prefix_append p ((List.prefix_append r' q).trans h')]
  rfl

theorem below_put (t : Tree) (r p : Path) (d : List UInt8) :
    (t.put (r ++ p) d).below r = (t.below r).put p d := by
  funext q
  simp only [below, put, List.append_cancel_left_eq]

theorem below_remove_apart (t : Tree) (p : Path) (h : Apart r' r) :
    (t.remove (r ++ p)).below r' = t.below r' := by
  funext q
  rw [below, remove, if_neg fun h' =>
    h.symm.not_prefix_append q ((List.prefix_append r p).trans h'.1)]
  rfl

theorem below_graft_self (t : Tree) (r : Path) (s : Tree) : (t.graft r s).below r = s := by
  funext q
  rw [below, graft, if_pos (List.prefix_append r q), List.drop_left]

end Below

/-! ### Changes outside some directories -/

/-- Between `t` and `t'` nothing changed outside the trees at `roots`, except
that missing directories on the way to `roots` may have been created. -/
def Outside (roots : List Path) (t t' : Tree) : Prop :=
  ∀ q, (∀ r ∈ roots, ¬ r <+: q) →
    t' q = t q ∨ (t q = none ∧ t' q = some .dir ∧ ∃ r ∈ roots, q <+: r)

section Outside

variable {roots : List Path} {t t' t'' : Tree} {r p : Path}

theorem Outside.refl (roots : List Path) (t : Tree) : Outside roots t t := fun _ _ => .inl rfl

theorem Outside.trans (h : Outside roots t t') (h' : Outside roots t' t'') :
    Outside roots t t'' := by
  intro q hq
  rcases h q hq with heq | ⟨hnone, hdir, habove⟩
  · rcases h' q hq with heq' | ⟨hnone', hdir', habove'⟩
    · exact .inl (heq'.trans heq)
    · exact .inr ⟨heq.symm.trans hnone', hdir', habove'⟩
  · -- what was created is there, and cannot be created again
    rcases h' q hq with heq' | ⟨hnone', -, -⟩
    · exact .inr ⟨hnone, heq'.trans hdir, habove⟩
    · rw [hdir] at hnone'
      exact absurd hnone' (by simp)

theorem Outside.mono {roots' : List Path} (h : Outside roots t t') (hsub : roots ⊆ roots') :
    Outside roots' t t' := by
  intro q hq
  refine (h q fun r hr => hq r (hsub hr)).imp_right ?_
  rintro ⟨hnone, hdir, r, hr, hqr⟩
  exact ⟨hnone, hdir, r, hsub hr, hqr⟩

/-- A tree apart from all roots is as before. -/
theorem Outside.below (h : Outside roots t t') (hr : ∀ r' ∈ roots, Apart r r') :
    t'.below r = t.below r := by
  funext q
  have hout : ∀ r' ∈ roots, ¬ r' <+: r ++ q := fun r' hr' =>
    (hr r' hr').symm.not_prefix_append q
  rcases h (r ++ q) hout with heq | ⟨-, -, r', hr', hpre⟩
  · exact heq
  · exact absurd ((List.prefix_append r q).trans hpre) (hr r' hr').1

/-- A tree that differs only below one of the roots. -/
theorem outside_of_below (hr : r ∈ roots) (h : ∀ q, ¬ r <+: q → t' q = t q) :
    Outside roots t t' := fun q hq => .inl (h q (hq r hr))

theorem outside_remove (hr : r ∈ roots) (hp : r <+: p) : Outside roots t (t.remove p) :=
  outside_of_below hr fun _ hq => if_neg fun h => hq (hp.trans h.1)

theorem outside_graft (s : Tree) (hr : r ∈ roots) (hp : r <+: p) :
    Outside roots t (t.graft p s) :=
  outside_of_below hr fun _ hq => if_neg fun h => hq (hp.trans h)

theorem outside_put (d : List UInt8) (hr : r ∈ roots) (hp : r <+: p) :
    Outside roots t (t.put p d) := by
  refine outside_of_below hr fun q hq => put_of_ne t d ?_
  rintro rfl
  exact hq hp

theorem outside_mkdirs (hfree : t.blocked p = false) (hr : r ∈ roots)
    (hp : p <+: r ∨ r <+: p) : Outside roots t (t.mkdirs p) := by
  intro q hq
  rw [mkdirs]
  by_cases hqp : q <+: p
  · have hqr : q <+: r := by
      rcases hp with hp | hp
      · exact hqp.trans hp
      · exact (List.prefix_or_prefix_of_prefix hqp hp).resolve_right (hq r hr)
    rw [if_pos hqp]
    rcases hnode : t q with _ | _ | d
    · exact .inr ⟨rfl, rfl, r, hr, hqr⟩
    · exact .inl rfl
    · rw [blocked_eq_true.mpr ⟨q, d, hqp, hnode⟩] at hfree
      exact absurd hfree (by simp)
  · rw [if_neg hqp]
    exact .inl rfl

/-- Besides, every directory is still one. -/
structure Kept (roots : List Path) (t t' : Tree) : Prop where
  outside : Outside roots t t'
  dirs : ∀ q, t q = some .dir → t' q = some .dir

theorem Kept.refl (roots : List Path) (t : Tree) : Kept roots t t :=
  ⟨.refl roots t, fun _ h => h⟩

theorem Kept.trans (h : Kept roots t t') (h' : Kept roots t' t'') : Kept roots t t'' :=
  ⟨h.outside.trans h'.outside, fun q hq => h'.dirs q (h.dirs q hq)⟩

theorem kept_mkdirs (hfree : t.blocked p = false) (hr : r ∈ roots) (hp : p <+: r ∨ r <+: p) :
    Kept roots t (t.mkdirs p) := by
  refine ⟨outside_mkdirs hfree hr hp, fun q hq => ?_⟩
  rw [mkdirs]
  by_cases hqp : q <+: p
  · rw [if_pos hqp]
  · rw [if_neg hqp, hq]

theorem kept_put (d : List UInt8) (hnode : t p ≠ some .dir) (hr : r ∈ roots) (hp : r <+: p) :
    Kept roots t (t.put p d) := by
  refine ⟨outside_put d hr hp, fun q hq => ?_⟩
  rw [put_of_ne t d, hq]
  rintro rfl
  exact hnode hq

end Outside

/-- Every regular file of `t` is one of `t'`, perhaps with other contents. -/
def FilesKept (t t' : Tree) : Prop := ∀ q d, t q = some (.file d) → ∃ d', t' q = some (.file d')

section FilesKept

variable {t t' t'' : Tree}

theorem FilesKept.refl (t : Tree) : FilesKept t t := fun _ d h => ⟨d, h⟩

theorem FilesKept.trans (h : FilesKept t t') (h' : FilesKept t' t'') : FilesKept t t'' := by
  intro q d hq
  obtain ⟨d', hq'⟩ := h q d hq
  exact h' q d' hq'

/-- A directory cannot be created over a file. -/
theorem filesKept_mkdirs {p : Path} (hfree : t.blocked p = false) :
    FilesKept t (t.mkdirs p) := by
  intro q d hq
  refine ⟨d, ?_⟩
  have hqp : ¬ q <+: p := by
    intro hqp
    rw [blocked_eq_true.mpr ⟨q, d, hqp, hq⟩] at hfree
    exact absurd hfree (by simp)
  rw [mkdirs, if_neg hqp, hq]

theorem filesKept_put (t : Tree) (p : Path) (d : List UInt8) : FilesKept t (t.put p d) := by
  intro q d' hq
  by_cases hqp : q = p
  · exact ⟨d, by rw [hqp, put_self]⟩
  · exact ⟨d', by rw [put_of_ne t d hqp, hq]⟩

theorem FilesKept.below (h : FilesKept t t') (r : Path) : FilesKept (t.below r) (t'.below r) :=
  fun q d hq => h (r ++ q) d hq

end FilesKept

end Tree

/-- A file system: a tree with finitely many entries, rooted in a directory, in
which everything lies in a directory. -/
structure FileTree where
  node : Tree
  paths : List Path
  mem_paths : ∀ p, node p ≠ none → p ∈ paths
  root_dir : node [] = some .dir
  parent_dir : ∀ p n, node (p ++ [n]) ≠ none → node p = some .dir

/-- An order in which the operating system may list directory entries. -/
structure Traversal where
  order : List Path → List Path
  perm : ∀ l, (order l).Perm l

/-- The traversal that keeps the listed order. -/
def Traversal.id : Traversal := ⟨fun l => l, fun l => .refl l⟩

namespace FileTree

/-- Everything above an existing path is a directory. -/
theorem dir_of_prefix (fs : FileTree) {p q : Path} (hp : fs.node p ≠ none)
    (hq : q <+: p) (hne : q ≠ p) : fs.node q = some .dir := by
  obtain ⟨s, rfl⟩ := hq
  induction s using List.reverseRecOn with
  | nil => exact absurd (List.append_nil q).symm hne
  | append_singleton s n ih =>
    have hpar : fs.node (q ++ s) = some .dir := by
      refine fs.parent_dir (q ++ s) n ?_
      rw [List.append_assoc]
      exact hp
    rcases s with _ | ⟨m, s⟩
    · rw [List.append_nil] at hpar
      exact hpar
    · refine ih (by rw [hpar]; simp) ?_
      intro h
      have := congrArg List.length h
      simp at this

/-- Nothing is below a regular file or below a missing path. -/
theorem none_of_prefix (fs : FileTree) {p q : Path} (hq : fs.node q ≠ some .dir)
    (hqp : q <+: p) (hne : q ≠ p) : fs.node p = none := by
  by_contra hp
  exact hq (fs.dir_of_prefix hp hqp hne)

/-! ### Operations -/

/-- `mkdir -p`: fails, changing nothing, if a component is a regular file. -/
def mkdirs (fs : FileTree) (p : Path) : Option FileTree :=
  if fs.node.blocked p then none
  else some
    { node := fs.node.mkdirs p
      paths := p.inits ++ fs.paths
      mem_paths := by
        intro q hq
        rw [Tree.mkdirs] at hq
        by_cases h : q <+: p
        · exact List.mem_append_left _ ((List.mem_inits _ _).mpr h)
        · rw [if_neg h] at hq
          exact List.mem_append_right _ (fs.mem_paths q hq)
      root_dir := by rw [Tree.mkdirs, if_pos List.nil_prefix]
      parent_dir := by
        intro q n hq
        rw [Tree.mkdirs] at hq ⊢
        by_cases h : q <+: p
        · rw [if_pos h]
        · rw [if_neg h]
          rw [if_neg fun h' => h ((List.prefix_append q [n]).trans h')] at hq
          exact fs.parent_dir q n hq }

/-- Create or overwrite the regular file `p`: fails if its directory is missing
or if `p` is a directory. -/
def write (fs : FileTree) (p : Path) (data : List UInt8) : Option FileTree :=
  if h : p ≠ [] ∧ fs.node p.dropLast = some .dir ∧ fs.node p ≠ some .dir then some
    { node := fs.node.put p data
      paths := p :: fs.paths
      mem_paths := by
        intro q hq
        by_cases hqp : q = p
        · rw [hqp]
          exact List.mem_cons_self
        · rw [Tree.put_of_ne _ _ hqp] at hq
          exact List.mem_cons_of_mem _ (fs.mem_paths q hq)
      root_dir := by
        rw [Tree.put_of_ne _ _ (Ne.symm h.1)]
        exact fs.root_dir
      parent_dir := by
        intro q n hq
        have hqdir : fs.node q = some .dir := by
          by_cases hqp : q ++ [n] = p
          · have := h.2.1
            rw [← hqp, List.dropLast_concat] at this
            exact this
          · rw [Tree.put_of_ne _ _ hqp] at hq
            exact fs.parent_dir q n hq
        have hne : q ≠ p := by
          intro heq
          rw [heq] at hqdir
          exact h.2.2 hqdir
        rw [Tree.put_of_ne _ _ hne]
        exact hqdir }
  else none

/-- Remove `r` and everything below it. -/
def remove (fs : FileTree) (r : Path) : FileTree where
  node := fs.node.remove r
  paths := fs.paths
  mem_paths := by
    intro q hq
    rw [Tree.remove] at hq
    by_cases h : r <+: q ∧ q ≠ []
    · rw [if_pos h] at hq
      exact absurd rfl hq
    · rw [if_neg h] at hq
      exact fs.mem_paths q hq
  root_dir := by
    rw [Tree.remove, if_neg (by simp)]
    exact fs.root_dir
  parent_dir := by
    intro q n hq
    rw [Tree.remove] at hq ⊢
    by_cases h : r <+: q ++ [n] ∧ q ++ [n] ≠ []
    · rw [if_pos h] at hq
      exact absurd rfl hq
    · rw [if_neg h] at hq
      rw [if_neg fun h' => h ⟨h'.1.trans (List.prefix_append q [n]), by simp⟩]
      exact fs.parent_dir q n hq

/-- Remove the regular file `p`; anything else is left alone. -/
def unlink (fs : FileTree) (p : Path) : FileTree :=
  match fs.node p with
  | some (.file _) => fs.remove p
  | _ => fs

/-- Put the file tree `s` in the place of the directory `r`. -/
def graft (fs : FileTree) (r : Path) (s : FileTree) : FileTree :=
  if h : fs.node r = some .dir then
    { node := fs.node.graft r s.node
      paths := s.paths.map (r ++ ·) ++ fs.paths
      mem_paths := by
        intro q hq
        rw [Tree.graft] at hq
        by_cases hr : r <+: q
        · obtain ⟨u, rfl⟩ := hr
          rw [if_pos (List.prefix_append r u), List.drop_left] at hq
          exact List.mem_append_left _ (List.mem_map_of_mem (s.mem_paths u hq))
        · rw [if_neg hr] at hq
          exact List.mem_append_right _ (fs.mem_paths q hq)
      root_dir := by
        rw [Tree.graft]
        by_cases hr : r <+: []
        · rw [if_pos hr, List.drop_nil]
          exact s.root_dir
        · rw [if_neg hr]
          exact fs.root_dir
      parent_dir := by
        intro q n hq
        rw [Tree.graft] at hq ⊢
        by_cases hr : r <+: q
        · obtain ⟨u, rfl⟩ := hr
          rw [if_pos (List.prefix_append r u), List.drop_left]
          rw [List.append_assoc, if_pos (List.prefix_append r _), List.drop_left] at hq
          exact s.parent_dir u n hq
        · rw [if_neg hr]
          by_cases hr' : r <+: q ++ [n]
          · -- then `q` is the directory of `r`
            have hrq : r = q ++ [n] := by
              rcases List.prefix_concat_iff.mp hr' with h' | h'
              · exact h'
              · exact absurd h' hr
            refine fs.parent_dir q n ?_
            rw [← hrq, h]
            simp
          · rw [if_neg hr'] at hq
            exact fs.parent_dir q n hq }
  else fs

/-! ### The recursive copy -/

/-- The existing paths strictly below `src`, relative to it. -/
def entriesBelow (fs : FileTree) (src : Path) : List Path :=
  (fs.paths.dedup.filter fun p => decide (src <+: p) && decide (p ≠ src)
    && (fs.node p).isSome).map (List.drop src.length)

theorem mem_entriesBelow {fs : FileTree} {src rel : Path} :
    rel ∈ fs.entriesBelow src ↔ rel ≠ [] ∧ fs.node (src ++ rel) ≠ none := by
  rw [entriesBelow, List.mem_map]
  constructor
  · rintro ⟨p, hp, rfl⟩
    rw [List.mem_filter] at hp
    simp only [Bool.and_eq_true, decide_eq_true_eq] at hp
    obtain ⟨_, ⟨⟨u, rfl⟩, hne⟩, hsome⟩ := hp
    rw [List.drop_left]
    refine ⟨?_, by rw [← Option.isSome_iff_ne_none]; exact hsome⟩
    rintro rfl
    exact hne (List.append_nil src)
  · rintro ⟨hne, hsome⟩
    refine ⟨src ++ rel, ?_, List.drop_left⟩
    rw [List.mem_filter]
    refine ⟨List.mem_dedup.mpr (fs.mem_paths _ hsome), ?_⟩
    simp only [Bool.and_eq_true, decide_eq_true_eq]
    exact ⟨⟨List.prefix_append src rel, by simpa using hne⟩,
      Option.isSome_iff_ne_none.mpr hsome⟩

/-- Copy one entry of `src` to `dst`: a directory is created, a file is written
into its directory, which is created first.  The flag is false if that failed;
the tree is then as the failed step left it. -/
def copyEntry (src dst : Path) (fs : FileTree) (rel : Path) : FileTree × Bool :=
  match fs.node (src ++ rel) with
  | some .dir =>
    match fs.mkdirs (dst ++ rel) with
    | some fs' => (fs', true)
    | none => (fs, false)
  | some (.file d) =>
    match fs.mkdirs (dst ++ rel).dropLast with
    | none => (fs, false)
    | some fs₁ =>
      match fs₁.write (dst ++ rel) d with
      | some fs₂ => (fs₂, true)
      | none => (fs₁, false)
  | none => (fs, true)

/-- Copy a list of entries, stopping at the first failure. -/
def copyEntries (src dst : Path) : List Path → FileTree → FileTree × Bool
  | [], fs => (fs, true)
  | rel :: rest, fs =>
    match copyEntry src dst fs rel with
    | (fs', true) => copyEntries src dst rest fs'
    | (fs', false) => (fs', false)

/-- Copy everything below `src` to below `dst`, which is created. -/
def copyTree (tr : Traversal) (src dst : Path) (fs : FileTree) : FileTree × Bool :=
  match fs.mkdirs dst with
  | none => (fs, false)
  | some fs₁ =>
    if fs₁.node src = none then (fs₁, true)
    else copyEntries src dst (tr.order (fs₁.entriesBelow src)) fs₁

/-! ### What the operations do to the nodes -/

theorem node_mkdirs {fs fs' : FileTree} {p : Path} (h : fs.mkdirs p = some fs') :
    fs'.node = fs.node.mkdirs p := by
  rw [mkdirs] at h
  by_cases hb : fs.node.blocked p
  · rw [if_pos hb] at h
    exact absurd h (by simp)
  · rw [if_neg hb, Option.some_inj] at h
    rw [← h]

theorem blocked_of_mkdirs {fs fs' : FileTree} {p : Path} (h : fs.mkdirs p = some fs') :
    fs.node.blocked p = false := by
  by_contra hb
  rw [mkdirs, if_pos (by simpa using hb)] at h
  exact absurd h (by simp)

theorem exists_mkdirs {fs : FileTree} {p : Path} (h : fs.node.blocked p = false) :
    ∃ fs', fs.mkdirs p = some fs' := by
  rw [mkdirs, if_neg (by simp [h])]
  exact ⟨_, rfl⟩

theorem node_write {fs fs' : FileTree} {p : Path} {d : List UInt8}
    (h : fs.write p d = some fs') :
    fs'.node = fs.node.put p d := by
  rw [write] at h
  by_cases hc : p ≠ [] ∧ fs.node p.dropLast = some .dir ∧ fs.node p ≠ some .dir
  · rw [dif_pos hc, Option.some_inj] at h
    rw [← h]
  · rw [dif_neg hc] at h
    exact absurd h (by simp)

theorem not_dir_of_write {fs fs' : FileTree} {p : Path} {d : List UInt8}
    (h : fs.write p d = some fs') : fs.node p ≠ some .dir := by
  intro hdir
  rw [write, dif_neg fun hc => hc.2.2 hdir] at h
  exact absurd h (by simp)

theorem exists_write {fs : FileTree} {p : Path} (d : List UInt8) (hp : p ≠ [])
    (hdir : fs.node p.dropLast = some .dir) (hnode : fs.node p ≠ some .dir) :
    ∃ fs', fs.write p d = some fs' := by
  rw [write, dif_pos ⟨hp, hdir, hnode⟩]
  exact ⟨_, rfl⟩

@[simp] theorem node_remove (fs : FileTree) (r : Path) :
    (fs.remove r).node = fs.node.remove r := rfl

/-- A path is not blocked if each of its components that exists is a
directory. -/
theorem not_blocked {t : Tree} {p : Path}
    (h : ∀ q, q <+: p → t q = none ∨ t q = some .dir) : t.blocked p = false := by
  rw [Bool.eq_false_iff]
  intro hb
  obtain ⟨q, d, hq, hd⟩ := Tree.blocked_eq_true.mp hb
  rcases h q hq with h' | h' <;> rw [hd] at h' <;> exact absurd h' (by simp)

/-- Below a directory, only what is below it can be in the way. -/
theorem blocked_append (fs : FileTree) {r : Path} (hr : fs.node r = some .dir) (p : Path) :
    fs.node.blocked (r ++ p) = (fs.node.below r).blocked p := by
  rw [Bool.eq_iff_iff, Tree.blocked_eq_true, Tree.blocked_eq_true]
  constructor
  · rintro ⟨q, d, hq, hd⟩
    rcases List.prefix_or_prefix_of_prefix hq (List.prefix_append r p) with hqr | ⟨u, rfl⟩
    · -- everything above a directory is a directory
      have hdir : fs.node q = some .dir := by
        by_cases heq : q = r
        · rw [heq, hr]
        · exact fs.dir_of_prefix (by rw [hr]; simp) hqr heq
      rw [hd] at hdir
      exact absurd hdir (by simp)
    · exact ⟨u, d, (List.prefix_append_right_inj r).mp hq, hd⟩
  · rintro ⟨u, d, hu, hd⟩
    exact ⟨r ++ u, d, (List.prefix_append_right_inj r).mpr hu, hd⟩

/-! ### Correctness of the recursive copy -/

/-- The state of a copy from the tree `s` to `dst` begun in `f₀`: nothing else
has changed, `dst` holds only things that `s` has, and it has the entries in
`done`. -/
structure Copying (s : Tree) (dst : Path) (f₀ f : FileTree) (done : List Path) : Prop where
  frame : ∀ q, ¬ dst <+: q → f.node q = f₀.node q
  root : f.node dst = some .dir
  sound : ∀ q, f.node (dst ++ q) = none ∨ f.node (dst ++ q) = s.copied q
  complete : ∀ q ∈ done, f.node (dst ++ q) = s.copied q

section Copy

variable {f₀ f : FileTree} {src dst : Path} {done : List Path}

/-- The source is not touched while it is copied. -/
theorem Copying.source (h : Copying (f₀.node.below src) dst f₀ f done)
    (hdis : Apart dst src) (rel : Path) :
    f.node (src ++ rel) = f₀.node (src ++ rel) :=
  h.frame _ (hdis.not_prefix_append rel)

/-- Above an entry of the source, the copy holds nothing but directories. -/
theorem Copying.above (h : Copying (f₀.node.below src) dst f₀ f done) {rel u : Path}
    (hrel : f₀.node (src ++ rel) ≠ none) (hu : u <+: rel) (hne : u ≠ rel) :
    (f₀.node.below src).copied u = some .dir ∧
      (f.node (dst ++ u) = none ∨ f.node (dst ++ u) = some .dir) := by
  have hcop : (f₀.node.below src).copied u = some .dir := by
    rw [Tree.copied]
    by_cases hnil : u = []
    · rw [if_pos hnil]
    · rw [if_neg hnil]
      refine f₀.dir_of_prefix hrel ((List.prefix_append_right_inj src).mpr hu) ?_
      intro heq
      exact hne (List.append_cancel_left heq)
  refine ⟨hcop, ?_⟩
  rw [← hcop]
  exact h.sound u

/-- The directories down to `dst ++ u` can be created when nothing on the way
is a file, and the copy stays sound. -/
theorem Copying.mkdirs (h : Copying (f₀.node.below src) dst f₀ f done) {u : Path}
    (hu : ∀ w, w <+: u → (f₀.node.below src).copied w = some .dir) :
    ∃ f', f.mkdirs (dst ++ u) = some f' ∧ f'.node (dst ++ u) = some .dir ∧
      (∀ q, ¬ q <+: u → f'.node (dst ++ q) = f.node (dst ++ q)) ∧
      Copying (f₀.node.below src) dst f₀ f' done := by
  have hfree : f.node.blocked (dst ++ u) = false := by
    refine not_blocked fun q hq => ?_
    rcases List.prefix_or_prefix_of_prefix hq (List.prefix_append dst u) with h' | ⟨w, rfl⟩
    · by_cases heq : q = dst
      · rw [heq]
        exact .inr h.root
      · exact .inr (f.dir_of_prefix (by rw [h.root]; simp) h' heq)
    · rw [List.prefix_append_right_inj] at hq
      rw [← hu w hq]
      exact h.sound w
  obtain ⟨f', hf'⟩ := exists_mkdirs hfree
  have hnode : ∀ q, f'.node q = if q <+: dst ++ u then some .dir else f.node q := by
    intro q
    rw [node_mkdirs hf']
    rfl
  have hbelow : ∀ q, f'.node (dst ++ q) = if q <+: u then some .dir else f.node (dst ++ q) := by
    intro q
    rw [hnode]
    simp only [List.prefix_append_right_inj]
  refine ⟨f', hf', ?_, fun q hq => ?_, ?_, ?_, fun q => ?_, fun q hq => ?_⟩
  · rw [hbelow, if_pos (List.prefix_refl u)]
  · rw [hbelow, if_neg hq]
  · intro q hq
    rw [hnode]
    by_cases hp : q <+: dst ++ u
    · -- above `dst`: a directory before and after
      rw [if_pos hp]
      rcases List.prefix_or_prefix_of_prefix hp (List.prefix_append dst u) with h' | h'
      · by_cases heq : q = dst
        · exact absurd (by rw [heq]) hq
        · rw [← h.frame q hq]
          exact (f.dir_of_prefix (by rw [h.root]; simp) h' heq).symm
      · exact absurd h' hq
    · rw [if_neg hp]
      exact h.frame q hq
  · rw [hnode, if_pos (List.prefix_append dst u)]
  · rw [hbelow]
    by_cases hq : q <+: u
    · rw [if_pos hq]
      exact .inr (hu q hq).symm
    · rw [if_neg hq]
      exact h.sound q
  · rw [hbelow]
    by_cases hqu : q <+: u
    · rw [if_pos hqu]
      exact (hu q hqu).symm
    · rw [if_neg hqu]
      exact h.complete q hq

/-- Copying one entry succeeds and adds that entry. -/
theorem copyEntry_spec (h : Copying (f₀.node.below src) dst f₀ f done)
    (hdis : Apart dst src) {rel : Path} (hne : rel ≠ [])
    (hrel : f₀.node (src ++ rel) ≠ none) :
    ∃ f', copyEntry src dst f rel = (f', true) ∧
      Copying (f₀.node.below src) dst f₀ f' (rel :: done) := by
  have hsrc := h.source hdis rel
  have hcop : (f₀.node.below src).copied rel = f₀.node (src ++ rel) := by
    rw [Tree.copied, if_neg hne]
    rfl
  rcases hn : f₀.node (src ++ rel) with _ | n
  · exact absurd hn hrel
  · cases n with
    | dir =>
      have hall : ∀ w, w <+: rel → (f₀.node.below src).copied w = some .dir := by
        intro w hw
        by_cases heq : w = rel
        · rw [heq, hcop, hn]
        · exact (h.above hrel hw heq).1
      obtain ⟨f', hf', hdir, _, hcopy⟩ := h.mkdirs hall
      refine ⟨f', ?_, hcopy.frame, hcopy.root, hcopy.sound, fun q hq => ?_⟩
      · rw [copyEntry, hsrc, hn]
        simp only [hf']
      · rcases List.mem_cons.mp hq with rfl | hq
        · rw [hdir, hcop, hn]
        · exact hcopy.complete q hq
    | file d =>
      have hlast : (dst ++ rel).dropLast = dst ++ rel.dropLast :=
        List.dropLast_append_of_ne_nil hne
      have hproper : ¬ rel <+: rel.dropLast := by
        intro hp
        have h₁ := hp.length_le
        have h₂ := List.length_pos_iff.mpr hne
        rw [List.length_dropLast] at h₁
        omega
      have hall : ∀ w, w <+: rel.dropLast → (f₀.node.below src).copied w = some .dir := by
        intro w hw
        refine (h.above hrel (hw.trans rel.dropLast_prefix) ?_).1
        rintro rfl
        exact hproper hw
      obtain ⟨f₁, hf₁, hdir, hkeep, hcopy⟩ := h.mkdirs hall
      -- the file itself: nothing there yet, or an older copy of it
      have hfile : f₁.node (dst ++ rel) ≠ some .dir := by
        rw [hkeep rel hproper]
        rcases h.sound rel with h' | h'
        · rw [h']
          simp
        · rw [h', hcop, hn]
          simp
      obtain ⟨f₂, hf₂⟩ : ∃ f₂, f₁.write (dst ++ rel) d = some f₂ :=
        exists_write d (by simp [hne]) (by rw [hlast]; exact hdir) hfile
      have hnode := node_write hf₂
      refine ⟨f₂, ?_, ?_, ?_, fun q => ?_, fun q hq => ?_⟩
      · rw [copyEntry, hsrc, hn]
        simp only [hlast, hf₁, hf₂]
      · intro q hq
        rw [hnode, Tree.put_of_ne]
        · exact hcopy.frame q hq
        · rintro rfl
          exact hq (List.prefix_append dst rel)
      · rw [hnode, Tree.put_of_ne]
        · exact hcopy.root
        · intro heq
          exact hne (List.append_right_eq_self.mp heq.symm)
      · by_cases hq : q = rel
        · rw [hq, hnode, Tree.put_self, hcop, hn]
          exact .inr rfl
        · rw [hnode, Tree.put_of_ne _ _ (by simpa using hq)]
          exact hcopy.sound q
      · by_cases hqr : q = rel
        · rw [hqr, hnode, Tree.put_self, hcop, hn]
        · rw [hnode, Tree.put_of_ne _ _ (by simpa using hqr)]
          rcases List.mem_cons.mp hq with h' | h'
          · exact absurd h' hqr
          · exact hcopy.complete q h'

/-- Copying a list of entries of the source succeeds and adds them all. -/
theorem copyEntries_spec (hdis : Apart dst src) :
    ∀ {rels : List Path} {f : FileTree} {done : List Path},
      Copying (f₀.node.below src) dst f₀ f done →
      (∀ rel ∈ rels, rel ≠ [] ∧ f₀.node (src ++ rel) ≠ none) →
      ∃ f', copyEntries src dst rels f = (f', true) ∧
        Copying (f₀.node.below src) dst f₀ f' (rels.reverse ++ done) := by
  intro rels
  induction rels with
  | nil => exact fun h _ => ⟨_, rfl, h⟩
  | cons rel rest ih =>
    intro f done h hrels
    obtain ⟨hne, hrel⟩ := hrels rel List.mem_cons_self
    obtain ⟨f₁, hf₁, h₁⟩ := copyEntry_spec h hdis hne hrel
    obtain ⟨f₂, hf₂, h₂⟩ := ih h₁ fun r hr => hrels r (List.mem_cons_of_mem _ hr)
    refine ⟨f₂, ?_, ?_⟩
    · rw [copyEntries, hf₁]
      exact hf₂
    · rw [List.reverse_cons, List.append_assoc]
      exact h₂

end Copy

/-- **The recursive copy is exact.**  Copying to a place where nothing exists
and whose directories can be created succeeds for every traversal order, leaves
there a directory with exactly the contents of the source, creates the
directories above it and changes nothing else. -/
theorem copyTree_spec (tr : Traversal) {fs : FileTree} {src dst : Path}
    (hdis : Apart dst src) (hfree : fs.node.blocked dst = false)
    (hfresh : fs.node dst = none) :
    ∃ fs', copyTree tr src dst fs = (fs', true) ∧
      fs'.node = (fs.node.mkdirs dst).graft dst (fs.node.below src).copied := by
  obtain ⟨f₁, hf₁⟩ := exists_mkdirs hfree
  have hnode₁ := node_mkdirs hf₁
  have hsrc : ∀ rel, f₁.node (src ++ rel) = fs.node (src ++ rel) ∨ src ++ rel <+: dst := by
    intro rel
    rw [hnode₁, Tree.mkdirs]
    by_cases h : src ++ rel <+: dst
    · exact .inr h
    · exact .inl (if_neg h)
  have hsrc' : f₁.node.below src = fs.node.below src := by
    funext rel
    rcases hsrc rel with h | h
    · exact h
    · exact absurd ((List.prefix_append src rel).trans h) hdis.2
  have hempty : ∀ q, q ≠ [] → f₁.node (dst ++ q) = none := by
    intro q hq
    have hnp : ¬ dst ++ q <+: dst := by
      intro hp
      have := hp.length_le
      have := List.length_pos_iff.mpr hq
      rw [List.length_append] at *
      omega
    rw [hnode₁, Tree.mkdirs, if_neg hnp]
    refine fs.none_of_prefix (by rw [hfresh]; simp) (List.prefix_append dst q) ?_
    simpa using Ne.symm hq
  have hroot : f₁.node dst = some .dir := by
    rw [hnode₁, Tree.mkdirs, if_pos (List.prefix_refl dst)]
  have hstart : Copying (f₁.node.below src) dst f₁ f₁ [] := by
    refine ⟨fun _ _ => rfl, hroot, fun q => ?_, fun q hq => absurd hq List.not_mem_nil⟩
    by_cases hq : q = []
    · rw [hq, List.append_nil, hroot, Tree.copied, if_pos rfl]
      exact .inr rfl
    · exact .inl (hempty q hq)
  -- in both branches the copy ends with every entry of the source done
  have hend : ∃ f₂ done, copyTree tr src dst fs = (f₂, true) ∧
      Copying (f₁.node.below src) dst f₁ f₂ done ∧
      ∀ rel, rel ≠ [] → f₁.node (src ++ rel) ≠ none → rel ∈ done := by
    by_cases hnone : f₁.node src = none
    · refine ⟨f₁, [], ?_, hstart, fun rel hne hrel => ?_⟩
      · rw [copyTree, hf₁]
        simp only [hnone, if_true]
      · exact absurd (f₁.none_of_prefix (by rw [hnone]; simp) (List.prefix_append src rel)
          (by simpa using Ne.symm hne)) hrel
    · have hmem : ∀ rel, rel ∈ tr.order (f₁.entriesBelow src) ↔
          rel ≠ [] ∧ f₁.node (src ++ rel) ≠ none := by
        intro rel
        rw [(tr.perm _).mem_iff, mem_entriesBelow]
      obtain ⟨f₂, hf₂, h₂⟩ := copyEntries_spec hdis hstart fun rel h => (hmem rel).mp h
      refine ⟨f₂, _, ?_, h₂, fun rel hne hrel => ?_⟩
      · rw [copyTree, hf₁]
        simp only [hnone, if_false]
        exact hf₂
      · rw [List.append_nil, List.mem_reverse]
        exact (hmem rel).mpr ⟨hne, hrel⟩
  obtain ⟨f₂, done, hrun, hcopy, hdone⟩ := hend
  refine ⟨f₂, hrun, ?_⟩
  funext q
  rw [Tree.graft]
  by_cases hq : dst <+: q
  · obtain ⟨rel, rfl⟩ := hq
    rw [if_pos (List.prefix_append dst rel), List.drop_left, ← hsrc']
    by_cases hrel : rel = []
    · rw [hrel, List.append_nil, hcopy.root, Tree.copied, if_pos rfl]
    · by_cases hnone : f₁.node (src ++ rel) = none
      · have hcop : (f₁.node.below src).copied rel = none := by
          rw [Tree.copied, if_neg hrel]
          exact hnone
        rcases hcopy.sound rel with h | h
        · rw [h, hcop]
        · exact h
      · exact hcopy.complete rel (hdone rel hrel hnone)
  · rw [if_neg hq, hcopy.frame q hq, hnode₁]

end FileTree

end Files
