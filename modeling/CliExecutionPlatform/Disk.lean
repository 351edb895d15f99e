/-
Programs on a file tree that may raise.

A `Disk ε α` takes a file tree to a value or an exception, and to the tree it
leaves, which after an exception is the one at the point where it was raised.
The primitive programs are the operations of `FileTree.lean` with the exception
they raise when they fail.

* `bind_ok`, `mkdir_ok`, `writeBytes_ok`, `copyTree_ok` — what a program that
  returned has done;
* `Stays roots x` — whatever `x` does and however it ends, it leaves everything
  outside the directories `roots` alone; `Spares roots x` — and it removes no
  directory; one rule for each way to build a program;
* `Keeps r x` — it leaves the tree below `r` alone, in particular if it stays
  within directories apart from `r` (`Stays.keeps`);
* `filesKept_mkdir`, `filesKept_writeBytes` — creating directories and writing files
  turns no regular file into anything else.
-/
import CliExecutionPlatform.FileTree

namespace Files

/-- A program on a file tree. -/
def Disk (ε α : Type) : Type := FileTree → Except ε α × FileTree

namespace Disk

variable {ε α β : Type}

/-- Sequential composition: an exception ends the program. -/
def bind (x : Disk ε α) (f : α → Disk ε β) : Disk ε β := fun fs =>
  match x fs with
  | (.ok a, fs') => f a fs'
  | (.error e, fs') => (.error e, fs')

instance : Monad (Disk ε) where
  pure a := fun fs => (.ok a, fs)
  bind := bind

/-- Raise an exception. -/
def raise (e : ε) : Disk ε α := fun fs => (.error e, fs)

/-- A computation that does not touch the tree. -/
def ofExcept (r : Except ε α) : Disk ε α := fun fs => (r, fs)

/-- What a path names. -/
def lookup (p : Path) : Disk ε (Option Node) := fun fs => (.ok (fs.node p), fs)

/-- `mkdir(parents=True, exist_ok=True)`; what is raised depends on what `p` names. -/
def mkdir (err : Option Node → ε) (p : Path) : Disk ε Unit := fun fs =>
  match fs.mkdirs p with
  | some fs' => (.ok (), fs')
  | none => (.error (err (fs.node p)), fs)

/-- Create or overwrite a regular file. -/
def writeBytes (err : ε) (p : Path) (data : List UInt8) : Disk ε Unit := fun fs =>
  match fs.write p data with
  | some fs' => (.ok (), fs')
  | none => (.error err, fs)

/-- Remove the directory `p` with everything below it.  A missing `p` is left
alone, a regular file is refused. -/
def rmtree (err : ε) (p : Path) : Disk ε Unit := fun fs =>
  match fs.node p with
  | some (.file _) => (.error err, fs)
  | _ => (.ok (), fs.remove p)

/-- Remove `p` if it is a regular file. -/
def unlink (p : Path) : Disk ε Unit := fun fs => (.ok (), fs.unlink p)

/-- Recursive copy. -/
def copyTree (err : ε) (tr : Traversal) (src dst : Path) : Disk ε Unit := fun fs =>
  match fs.copyTree tr src dst with
  | (fs', true) => (.ok (), fs')
  | (fs', false) => (.error err, fs')

/-! ### Programs that returned -/

theorem bind_apply (x : Disk ε α) (f : α → Disk ε β) (fs : FileTree) :
    (x >>= f) fs = match x fs with
      | (.ok a, fs') => f a fs'
      | (.error e, fs') => (.error e, fs') := rfl

theorem pure_apply (a : α) (fs : FileTree) : (pure a : Disk ε α) fs = (.ok a, fs) := rfl

theorem bind_ok {x : Disk ε α} {f : α → Disk ε β} {fs fs' : FileTree} {b : β}
    (h : (x >>= f) fs = (.ok b, fs')) :
    ∃ a fs₁, x fs = (.ok a, fs₁) ∧ f a fs₁ = (.ok b, fs') := by
  rw [bind_apply] at h
  rcases hx : x fs with ⟨r, fs₁⟩
  rw [hx] at h
  cases r with
  | ok a => exact ⟨a, fs₁, rfl, h⟩
  | error e => exact absurd (Prod.mk.inj h).1 (by simp)

theorem ofExcept_bind_ok {r : Except ε α} {f : α → Disk ε β} {fs fs' : FileTree} {b : β}
    (h : (ofExcept r >>= f) fs = (.ok b, fs')) : ∃ a, r = .ok a ∧ f a fs = (.ok b, fs') := by
  obtain ⟨a, fs₁, hr, hf⟩ := bind_ok h
  obtain ⟨hra, rfl⟩ := Prod.mk.inj hr
  exact ⟨a, hra, hf⟩

theorem lookup_bind_ok {p : Path} {f : Option Node → Disk ε β} {fs fs' : FileTree} {b : β}
    (h : (lookup p >>= f) fs = (.ok b, fs')) : f (fs.node p) fs = (.ok b, fs') := by
  obtain ⟨n, fs₁, hn, hf⟩ := bind_ok h
  obtain ⟨hnode, rfl⟩ := Prod.mk.inj hn
  rw [Except.ok.inj hnode]
  exact hf

theorem mkdir_ok {err : Option Node → ε} {p : Path} {fs fs' : FileTree} {u : Unit}
    (h : mkdir err p fs = (.ok u, fs')) :
    fs.node.blocked p = false ∧ fs'.node = fs.node.mkdirs p := by
  rw [mkdir] at h
  rcases hm : fs.mkdirs p with _ | fs₁
  · rw [hm] at h
    exact absurd (Prod.mk.inj h).1 (by simp)
  · rw [hm] at h
    rw [← (Prod.mk.inj h).2]
    exact ⟨FileTree.blocked_of_mkdirs hm, FileTree.node_mkdirs hm⟩

theorem writeBytes_ok {err : ε} {p : Path} {d : List UInt8} {fs fs' : FileTree} {u : Unit}
    (h : writeBytes err p d fs = (.ok u, fs')) :
    fs.node p ≠ some .dir ∧ fs'.node = fs.node.put p d := by
  rw [writeBytes] at h
  rcases hw : fs.write p d with _ | fs₁
  · rw [hw] at h
    exact absurd (Prod.mk.inj h).1 (by simp)
  · rw [hw] at h
    rw [← (Prod.mk.inj h).2]
    exact ⟨FileTree.not_dir_of_write hw, FileTree.node_write hw⟩

theorem rmtree_ok {err : ε} {p : Path} {fs fs' : FileTree} {u : Unit}
    (h : rmtree err p fs = (.ok u, fs')) : fs'.node = fs.node.remove p := by
  rw [rmtree] at h
  rcases hn : fs.node p with _ | _ | d
  · rw [hn] at h
    rw [← (Prod.mk.inj h).2]
    rfl
  · rw [hn] at h
    rw [← (Prod.mk.inj h).2]
    rfl
  · rw [hn] at h
    exact absurd (Prod.mk.inj h).1 (by simp)

/-- A copy that returned is exact if nothing was there before. -/
theorem copyTree_ok {err : ε} {tr : Traversal} {src dst : Path} {fs fs' : FileTree} {u : Unit}
    (h : copyTree err tr src dst fs = (.ok u, fs')) (hdis : Apart dst src)
    (hfresh : fs.node dst = none) :
    fs'.node = (fs.node.mkdirs dst).graft dst (fs.node.below src).copied := by
  have hfree : fs.node.blocked dst = false := by
    by_contra hb
    have hm : fs.mkdirs dst = none := by
      rw [FileTree.mkdirs, if_pos (by simpa using hb)]
    rw [copyTree, FileTree.copyTree, hm] at h
    exact absurd (Prod.mk.inj h).1 (by simp)
  obtain ⟨fs₁, hrun, hnode⟩ := FileTree.copyTree_spec tr hdis hfree hfresh
  rw [copyTree, hrun] at h
  rw [← (Prod.mk.inj h).2]
  exact hnode

/-! ### Programs that stay within some directories -/

theorem below_mkdirs_of_not_prefix {t : Tree} {r p : Path} (h : ¬ r <+: p) :
    (t.mkdirs p).below r = t.below r := by
  funext q
  rw [Tree.below, Tree.mkdirs, if_neg fun h' => h ((List.prefix_append r q).trans h')]
  rfl

theorem below_remove_of_apart {fs : FileTree} {r p : Path} (h : Apart r p) :
    (fs.remove p).node.below r = fs.node.below r := by
  have := Tree.below_remove_apart fs.node [] h
  rw [List.append_nil] at this
  exact this

/-- However `x` ends, the tree below `r` is as before. -/
def Keeps (r : Path) (x : Disk ε α) : Prop :=
  ∀ fs, (x fs).2.node.below r = fs.node.below r

/-- However `x` ends, the trees before and afterwards are related by `R`. -/
def Follows (R : Tree → Tree → Prop) (x : Disk ε α) : Prop :=
  ∀ fs, R fs.node (x fs).2.node

section Follows

variable {R : Tree → Tree → Prop}

theorem follows_pure (hrefl : ∀ t, R t t) (a : α) : Follows R (pure a : Disk ε α) :=
  fun fs => hrefl fs.node

theorem follows_raise (hrefl : ∀ t, R t t) (e : ε) : Follows R (raise e : Disk ε α) :=
  fun fs => hrefl fs.node

theorem follows_lookup (hrefl : ∀ t, R t t) (p : Path) : Follows R (lookup p : Disk ε _) :=
  fun fs => hrefl fs.node

theorem follows_ofExcept_bind (hrefl : ∀ t, R t t) {y : Except ε α} {f : α → Disk ε β}
    (hf : ∀ a, y = .ok a → Follows R (f a)) : Follows R (ofExcept y >>= f) := by
  intro fs
  cases y with
  | error e => exact hrefl fs.node
  | ok a => exact hf a rfl fs

theorem follows_bind (htrans : ∀ {t t' t''}, R t t' → R t' t'' → R t t'') {x : Disk ε α}
    {f : α → Disk ε β} (hx : Follows R x) (hf : ∀ a, Follows R (f a)) :
    Follows R (x >>= f) := by
  intro fs
  have h := hx fs
  rw [bind_apply]
  rcases hxs : x fs with ⟨_ | a, fs₁⟩
  · rw [hxs] at h
    exact h
  · rw [hxs] at h
    exact htrans h (hf a fs₁)

theorem follows_ite {c : Prop} [Decidable c] {x y : Disk ε α} (hx : Follows R x)
    (hy : Follows R y) : Follows R (if c then x else y) := by
  by_cases h : c
  · rw [if_pos h]
    exact hx
  · rw [if_neg h]
    exact hy

end Follows

/-- However `x` ends, it has changed nothing outside `roots` but created some
directories on the way to them. -/
abbrev Stays (roots : List Path) (x : Disk ε α) : Prop := Follows (Tree.Outside roots) x

/-- And no directory has gone. -/
abbrev Spares (roots : List Path) (x : Disk ε α) : Prop := Follows (Tree.Kept roots) x

section Spares

variable {roots : List Path} {r p : Path}

theorem Stays.keeps {x : Disk ε α} (h : Stays roots x) (hr : ∀ r' ∈ roots, Apart r r') :
    Keeps r x := fun fs => (h fs).below hr

theorem Spares.stays {x : Disk ε α} (h : Spares roots x) : Stays roots x :=
  fun fs => (h fs).outside

theorem stays_bind {x : Disk ε α} {f : α → Disk ε β} (hx : Stays roots x)
    (hf : ∀ a, Stays roots (f a)) : Stays roots (x >>= f) := follows_bind .trans hx hf

theorem stays_rmtree (err : ε) (hr : r ∈ roots) (hp : r <+: p) :
    Stays roots (rmtree err p) := by
  intro fs
  rw [rmtree]
  rcases fs.node p with _ | _ | d
  · exact Tree.outside_remove hr hp
  · exact Tree.outside_remove hr hp
  · exact .refl _ _

theorem spares_bind {x : Disk ε α} {f : α → Disk ε β} (hx : Spares roots x)
    (hf : ∀ a, Spares roots (f a)) : Spares roots (x >>= f) := follows_bind .trans hx hf

/-- Directories may be created on the way to a root and below it. -/
theorem kept_mkdirs {fs fs' : FileTree} (hm : fs.mkdirs p = some fs') (hr : r ∈ roots)
    (hp : p <+: r ∨ r <+: p) : Tree.Kept roots fs.node fs'.node := by
  rw [FileTree.node_mkdirs hm]
  exact Tree.kept_mkdirs (FileTree.blocked_of_mkdirs hm) hr hp

theorem spares_mkdir (err : Option Node → ε) (hr : r ∈ roots) (hp : p <+: r ∨ r <+: p) :
    Spares roots (mkdir err p) := by
  intro fs
  rw [mkdir]
  rcases hm : fs.mkdirs p with _ | fs₁
  · exact .refl _ _
  · exact kept_mkdirs hm hr hp

theorem kept_write {fs fs' : FileTree} {d : List UInt8} (hw : fs.write p d = some fs')
    (hr : r ∈ roots) (hp : r <+: p) : Tree.Kept roots fs.node fs'.node := by
  rw [FileTree.node_write hw]
  exact Tree.kept_put d (FileTree.not_dir_of_write hw) hr hp

theorem spares_writeBytes (err : ε) (d : List UInt8) (hr : r ∈ roots) (hp : r <+: p) :
    Spares roots (writeBytes err p d) := by
  intro fs
  rw [writeBytes]
  rcases hw : fs.write p d with _ | fs₁
  · exact .refl _ _
  · exact kept_write hw hr hp

theorem spares_unlink (hr : r ∈ roots) (hp : r <+: p) :
    Spares roots (unlink p : Disk ε Unit) := by
  intro fs
  show Tree.Kept roots fs.node (fs.unlink p).node
  rw [FileTree.unlink]
  rcases hnode : fs.node p with _ | _ | d
  · exact .refl _ _
  · exact .refl _ _
  · refine ⟨Tree.outside_remove hr hp, fun q hq => ?_⟩
    -- a directory is neither the file nor below it
    have hnot : ¬ (p <+: q ∧ q ≠ []) := by
      rintro ⟨hpq, -⟩
      have hne : p ≠ q := by
        rintro rfl
        rw [hnode] at hq
        exact absurd hq (by simp)
      have hnone := fs.none_of_prefix (by rw [hnode]; simp) hpq hne
      rw [hnone] at hq
      exact absurd hq (by simp)
    show fs.node.remove p q = some .dir
    rw [Tree.remove, if_neg hnot, hq]

theorem kept_copyEntry {src dst : Path} (hr : r ∈ roots) (hdst : r <+: dst)
    (fs : FileTree) (rel : Path) :
    Tree.Kept roots fs.node (FileTree.copyEntry src dst fs rel).1.node := by
  have hfile : r <+: dst ++ rel := hdst.trans (List.prefix_append dst rel)
  -- the directory of an entry can be above the root only if the entry is the root
  have hparent : (dst ++ rel).dropLast <+: r ∨ r <+: (dst ++ rel).dropLast :=
    List.prefix_or_prefix_of_prefix (List.dropLast_prefix _) hfile
  rw [FileTree.copyEntry]
  rcases fs.node (src ++ rel) with _ | _ | d
  · exact .refl _ _
  · rcases hm : fs.mkdirs (dst ++ rel) with _ | fs₁
    · exact .refl _ _
    · exact kept_mkdirs hm hr (.inr hfile)
  · rcases hm : fs.mkdirs (dst ++ rel).dropLast with _ | fs₁
    · exact .refl _ _
    · have h₁ := kept_mkdirs hm hr hparent
      show Tree.Kept roots fs.node (match fs₁.write (dst ++ rel) d with
        | some fs₂ => (fs₂, true)
        | none => (fs₁, false)).1.node
      rcases hw : fs₁.write (dst ++ rel) d with _ | fs₂
      · exact h₁
      · exact h₁.trans (kept_write hw hr hfile)

theorem kept_copyEntries {src dst : Path} (hr : r ∈ roots) (hdst : r <+: dst)
    (rels : List Path) (fs : FileTree) :
    Tree.Kept roots fs.node (FileTree.copyEntries src dst rels fs).1.node := by
  induction rels generalizing fs with
  | nil => exact .refl _ _
  | cons rel rest ih =>
    have h₁ := @kept_copyEntry roots r src dst hr hdst fs rel
    rw [FileTree.copyEntries]
    rcases hc : FileTree.copyEntry src dst fs rel with ⟨fs₁, _ | _⟩
    · rw [hc] at h₁
      exact h₁
    · rw [hc] at h₁
      exact h₁.trans (ih fs₁)

theorem spares_copyTree {dst : Path} (err : ε) (tr : Traversal) (src : Path) (hr : r ∈ roots)
    (hdst : r <+: dst) : Spares roots (copyTree err tr src dst) := by
  intro fs
  have hnode : Tree.Kept roots fs.node (fs.copyTree tr src dst).1.node := by
    rw [FileTree.copyTree]
    rcases hm : fs.mkdirs dst with _ | fs₁
    · exact .refl _ _
    · have h₁ := kept_mkdirs hm hr (.inr hdst)
      show Tree.Kept roots fs.node
        (if fs₁.node src = none then (fs₁, true) else _ : FileTree × Bool).1.node
      by_cases hs : fs₁.node src = none
      · rw [if_pos hs]
        exact h₁
      · rw [if_neg hs]
        exact h₁.trans (kept_copyEntries hr hdst _ fs₁)
  rw [copyTree]
  rcases hc : fs.copyTree tr src dst with ⟨fs₁, _ | _⟩
  · rw [hc] at hnode
    exact hnode
  · rw [hc] at hnode
    exact hnode

end Spares

/-! ### Programs that keep files -/

section FilesKept

theorem filesKept_mkdir (err : Option Node → ε) (p : Path) :
    Follows Tree.FilesKept (mkdir err p) := by
  intro fs
  rw [mkdir]
  rcases hm : fs.mkdirs p with _ | fs₁
  · exact .refl _
  · show Tree.FilesKept fs.node fs₁.node
    rw [FileTree.node_mkdirs hm]
    exact Tree.filesKept_mkdirs (FileTree.blocked_of_mkdirs hm)

theorem filesKept_writeBytes (err : ε) (p : Path) (d : List UInt8) :
    Follows Tree.FilesKept (writeBytes err p d) := by
  intro fs
  rw [writeBytes]
  rcases hw : fs.write p d with _ | fs₁
  · exact .refl _
  · show Tree.FilesKept fs.node fs₁.node
    rw [FileTree.node_write hw]
    exact Tree.filesKept_put fs.node p d

end FilesKept

/-! ### Programs that raised -/

/-- Every exception that `x` can raise satisfies `P`. -/
def Raises (P : ε → Prop) (x : Disk ε α) : Prop := ∀ fs e fs', x fs = (.error e, fs') → P e

section Raises

variable {P : ε → Prop}

theorem raises_pure (a : α) : Raises P (pure a : Disk ε α) := by
  intro fs e fs' h
  exact absurd (Prod.mk.inj h).1 (by simp)

theorem raises_lookup (p : Path) : Raises P (lookup p : Disk ε _) := by
  intro fs e fs' h
  exact absurd (Prod.mk.inj h).1 (by simp)

theorem raises_raise {err : ε} (hP : P err) : Raises P (raise err : Disk ε α) := by
  intro fs e fs' h
  rwa [← Except.error.inj (Prod.mk.inj h).1]

theorem raises_ofExcept {r : Except ε α} (hP : ∀ e, r = .error e → P e) :
    Raises P (ofExcept r) := by
  intro fs e fs' h
  exact hP e (Prod.mk.inj h).1

theorem raises_bind {x : Disk ε α} {f : α → Disk ε β} (hx : Raises P x)
    (hf : ∀ a, Raises P (f a)) : Raises P (x >>= f) := by
  intro fs e fs' h
  rw [bind_apply] at h
  rcases hxs : x fs with ⟨_ | a, fs₁⟩
  · rw [hxs] at h
    obtain ⟨rfl⟩ := Except.error.inj (Prod.mk.inj h).1
    exact hx fs _ fs₁ hxs
  · rw [hxs] at h
    exact hf a fs₁ e fs' h

theorem raises_mkdir {err : Option Node → ε} (hP : ∀ n, P (err n)) (p : Path) :
    Raises P (mkdir err p) := by
  intro fs e fs' h
  rw [mkdir] at h
  rcases hm : fs.mkdirs p with _ | fs₁
  · rw [hm] at h
    rw [← Except.error.inj (Prod.mk.inj h).1]
    exact hP _
  · rw [hm] at h
    exact absurd (Prod.mk.inj h).1 (by simp)

theorem raises_rmtree {err : ε} (hP : P err) (p : Path) : Raises P (rmtree err p) := by
  intro fs e fs' h
  rw [rmtree] at h
  rcases hn : fs.node p with _ | _ | d
  · rw [hn] at h
    exact absurd (Prod.mk.inj h).1 (by simp)
  · rw [hn] at h
    exact absurd (Prod.mk.inj h).1 (by simp)
  · rw [hn] at h
    rwa [← Except.error.inj (Prod.mk.inj h).1]

theorem raises_copyTree {err : ε} (hP : P err) (tr : Traversal) (src dst : Path) :
    Raises P (copyTree err tr src dst) := by
  intro fs e fs' h
  rw [copyTree] at h
  rcases hc : fs.copyTree tr src dst with ⟨fs₁, _ | _⟩
  · rw [hc] at h
    rwa [← Except.error.inj (Prod.mk.inj h).1]
  · rw [hc] at h
    exact absurd (Prod.mk.inj h).1 (by simp)

end Raises

end Disk

end Files
