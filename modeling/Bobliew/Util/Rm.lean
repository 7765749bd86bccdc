import Bobliew.Lib.LinkedPaths
import Mathlib.Algebra.Order.BigOperators.Group.List
import Mathlib.Algebra.Order.Ring.Nat
import Mathlib.Data.Nat.Bitwise

/-!
# Removing files

`FSUtil::Rm` removes what is at a path with all that is below it. What is a directory it reads off one bit of the
mode, which the modes of sockets and block devices have as well: these it opens, which fails, and gives up on them.
The result of each entry of a directory replaces that of the one before; in the end it is `rmdir` that fails when
something is left.

Paths are from the top of the tree. Those of `Rm` have no symbolic links on the way; `lstat` fails only where nothing
is.
-/

namespace Bobliew.FSUtil

open PathTree

/-- A name in a directory. -/
structure FileName where
  text : String
  ne_self : text ≠ "."
  ne_parent : text ≠ ".."
  deriving DecidableEq, Repr

/-- What a node of the file system is. -/
inductive FileKind where
  | regular
  | symlink (target : Link FileName)
  | socket
  | fifo
  | blockDevice
  | charDevice
  | directory
  deriving DecidableEq, Repr

/-- Where a symbolic link leads. -/
def FileKind.link : FileKind → Option (Link FileName)
  | .symlink target => some target
  | _ => none

/-- The bits of `st_mode` for the kind of a file. -/
def FileKind.format : FileKind → ℕ
  | .regular => 0o100000
  | .symlink _ => 0o120000
  | .socket => 0o140000
  | .fifo => 0o010000
  | .blockDevice => 0o060000
  | .charDevice => 0o020000
  | .directory => 0o040000

/-- `S_IFDIR`. -/
def sIfdir : ℕ := 2 ^ 14

/-- A node, with the bits of `st_mode` for its permissions. -/
structure Node where
  kind : FileKind
  permissions : Fin (2 ^ 12)
  deriving DecidableEq, Repr

/-- `st_mode`. -/
def Node.stMode (node : Node) : ℕ := node.kind.format ||| node.permissions

/-- The names on the way from the top of the tree. -/
abbrev Path := List FileName

/-- Where a node leads that is a symbolic link. -/
def Node.link (node : Node) : Option (Link FileName) := node.kind.link

/-- A finite tree of files. -/
abbrev FileTree := PathTree FileName Node fun node => node.kind = .directory

/-- The calls that change the tree or read it, and may fail. -/
inductive Call where
  | unlink
  | rmdir
  | opendir
  deriving DecidableEq, Repr

/-- Which calls fail although they could succeed. -/
abbrev Failures := Call → Path → Bool

variable (fails : Failures)

/-! ## The system calls -/

/-- `unlink`. -/
def sysUnlink (tree : FileTree) (path : Path) : Bool × FileTree :=
  if h : ∃ node ∈ tree.get? path, node.kind ≠ .directory then
    if fails .unlink path then (false, tree)
    else (true, tree.erase path (leaf_of_not_inner (get?_eq_some_iff.mp h.choose_spec.1) h.choose_spec.2))
  else (false, tree)

/-- `rmdir`. -/
def sysRmdir (tree : FileTree) (path : Path) : Bool × FileTree :=
  if h : (∃ node ∈ tree.get? path, node.kind = .directory) ∧ tree.names path = [] then
    if fails .rmdir path then (false, tree) else (true, tree.erase path (leaf_of_names h.2))
  else (false, tree)

/-- How many symbolic links the kernel follows on one path. -/
def maxSymlinks : ℕ := 40

/-- Where a path leads when all links on it are followed. -/
def resolve (tree : FileTree) (path : Path) : Option Path :=
  (tree.walk Node.link maxSymlinks [] (path.map .child)).map Prod.snd

/-- `access`, for the existence of what a path leads to. -/
def access (tree : FileTree) (path : Path) : Bool := ((resolve tree path).bind tree.get?).isSome

/-- The directory that a path leads to. -/
def directory (tree : FileTree) (path : Path) : Option Path :=
  (resolve tree path).filter fun dir => decide (tree.IsInner dir)

/-- `opendir`: the directory that was opened, none for a null pointer. -/
def opendir (tree : FileTree) (path : Path) : Option Path :=
  (directory tree path).filter fun _ => !fails .opendir path

/-- `readdir` in an open directory: `d_name` and `d_type`. -/
def readdir (tree : FileTree) (dir : Path) : List (String × FileKind) :=
  (".", .directory) :: ("..", .directory) ::
    (tree.names dir).map fun name => (name.text, ((tree.get? (dir ++ [name])).map Node.kind).getD .regular)

/-! ## The functions -/

/-- `FSUtil::Unlink`. -/
def unlink (tree : FileTree) (filename : Path) (exist : Bool) : Bool × FileTree :=
  if !exist && (tree.get? filename).isNone then (true, tree) else sysUnlink fails tree filename

/-- The loop over the entries of a directory, with the function called for each one. -/
def removeEntries (child : FileTree → Path → Option (Bool × FileTree)) (path : Path) :
    List String → Bool → FileTree → Option (Bool × FileTree)
  | [], ret, tree => some (ret, tree)
  | dName :: rest, ret, tree =>
    if h : dName ≠ "." ∧ dName ≠ ".." then do
      let (ret, tree) ← child tree (path ++ [⟨dName, h.1, h.2⟩])
      removeEntries child path rest ret tree
    else removeEntries child path rest ret tree

/-- `FSUtil::Rm`, for trees up to a depth. -/
def rm : ℕ → FileTree → Path → Option (Bool × FileTree)
  | 0, _, _ => none
  | depth + 1, tree, path =>
    match tree.get? path with
    | none => some (true, tree)
    | some st =>
      if st.stMode &&& sIfdir = 0 then some (unlink fails tree path false)
      else
        match opendir fails tree path with
        | none => some (false, tree)
        | some dir => do
          let (ret, tree) ← removeEntries (rm depth) path ((readdir tree dir).map Prod.fst) true tree
          let (removed, tree) := sysRmdir fails tree path
          return (if removed then ret else false, tree)

/-- Every `unlink` of something that is no directory and every `rmdir` of an empty directory succeeds. -/
structure Succeeding (tree : FileTree) : Prop where
  unlink : ∀ path node, (path, node) ∈ tree.entries → node.kind ≠ .directory → fails .unlink path = false
  rmdir : ∀ path node, (path, node) ∈ tree.entries → node.kind = .directory → fails .rmdir path = false

/-- What `Rm` is for. -/
def Removes (tree : FileTree) (path : Path) : Prop :=
  ∃ ret tree', (∃ enough, ∀ depth ≥ enough, rm fails depth tree path = some (ret, tree')) ∧
    (Succeeding fails tree → ret = true ∧ tree' = tree.prune path) ∧ (ret = true → ¬tree'.Exists path)

/-- What `Rm` takes for a directory and cannot open. -/
def Stuck (path : Path) (node : Node) : Prop :=
  node.kind = .socket ∨ node.kind = .blockDevice ∨ node.kind = .directory ∧ fails .opendir path = true

variable {fails} {tree tree' : FileTree} {path : Path} {node : Node} {ret ret' : Bool} {depth : ℕ}
  {child : FileTree → Path → Option (Bool × FileTree)}

/-! ## What the calls do -/

/-- The kinds of files whose modes have the bit of directories. -/
theorem stMode_and_eq_zero_iff (node : Node) :
    node.stMode &&& sIfdir = 0 ↔ node.kind ≠ .directory ∧ node.kind ≠ .socket ∧ node.kind ≠ .blockDevice := by
  have hpermissions : (node.permissions : ℕ).testBit 14 = false :=
    Nat.testBit_eq_false_of_lt (node.permissions.isLt.trans (by decide))
  rw [Node.stMode, sIfdir, Nat.and_two_pow, Nat.testBit_or, hpermissions, Bool.or_false]
  cases node.kind with
  | symlink target => simp [FileKind.format, Nat.testBit]
  | _ => decide

/-- A directory is no symbolic link. -/
theorem link_of_directory (hkind : node.kind = .directory) : node.link = none := by
  rw [Node.link, hkind]
  rfl

/-- What is at a path and no symbolic link is where the path leads. -/
theorem resolve_of_get? (hget : tree.get? path = some node) (hlink : node.link = none) :
    resolve tree path = some path := by
  rw [resolve, walk_names [] (fun _ => link_of_directory) hget hlink]
  rfl

/-- A path leads to a directory when its walk ends there. -/
theorem directory_eq_some_iff {dir : Path} :
    directory tree path = some dir ↔
      (∃ left, tree.walk Node.link maxSymlinks [] (path.map .child) = some (left, dir)) ∧ tree.IsInner dir := by
  rw [directory, Option.filter_eq_some_iff, resolve, Option.map_eq_some_iff, decide_eq_true_iff]
  simp

/-- What leads to a directory leads to something. -/
theorem access_of_directory {dir : Path} (hdir : directory tree path = some dir) : access tree path = true := by
  obtain ⟨hresolve, hinner⟩ := Option.filter_eq_some_iff.mp hdir
  obtain ⟨node, hnode, -⟩ := of_decide_eq_true hinner
  rw [access, hresolve, Option.bind_some, hnode, Option.isSome_some]

/-- A directory in the directory that a path leads to. -/
theorem directory_concat {dir : Path} {name : FileName} (hdir : directory tree path = some dir)
    (hsub : ∃ node ∈ tree.get? (dir ++ [name]), node.kind = .directory) :
    directory tree (path ++ [name]) = some (dir ++ [name]) := by
  obtain ⟨⟨left, hwalk⟩, hinner⟩ := directory_eq_some_iff.mp hdir
  obtain ⟨node, hnode, hkind⟩ := hsub
  have hroot : tree.IsInner [] := hinner.above List.nil_prefix
  refine directory_eq_some_iff.mpr ⟨⟨left, ?_⟩, node, hnode, hkind⟩
  rw [List.map_append, List.map_singleton, walk_append (List.cons_ne_nil _ _) hroot hroot, hwalk, Option.bind_some,
    if_pos hinner, walk_node hnode (link_of_directory hkind), if_pos (.inl hkind), walk_nil]

/-- A directory is opened unless that fails. -/
theorem opendir_of_directory (fails : Failures) (hget : tree.get? path = some node) (hkind : node.kind = .directory) :
    opendir fails tree path = if fails .opendir path then none else some path := by
  have hinner : tree.IsInner path := ⟨node, hget, hkind⟩
  rw [opendir, directory, resolve_of_get? hget (link_of_directory hkind), Option.filter_some, decide_eq_true hinner,
    if_pos rfl, Option.filter_some]
  cases fails .opendir path <;> rfl

/-- What is no directory, and no link to one, is not opened. -/
theorem opendir_of_not_directory (fails : Failures) (hget : tree.get? path = some node) (hlink : node.link = none)
    (hkind : node.kind ≠ .directory) : opendir fails tree path = none := by
  have hinner : ¬tree.IsInner path := by
    rintro ⟨found, hfound, hdirectory⟩
    cases hget.symm.trans hfound
    exact hkind hdirectory
  rw [opendir, directory, resolve_of_get? hget hlink, Option.filter_some, decide_eq_false hinner]
  rfl

/-- `unlink` removes what is no directory, or changes nothing. -/
theorem sysUnlink_eq (hnode : (path, node) ∈ tree.entries) (hkind : node.kind ≠ .directory) :
    sysUnlink fails tree path = if fails .unlink path then (false, tree) else (true, tree.prune path) := by
  have h : ∃ node ∈ tree.get? path, node.kind ≠ .directory := ⟨node, get?_eq_some_iff.mpr hnode, hkind⟩
  rw [sysUnlink, dif_pos h, erase_eq_prune]

/-- `rmdir` removes an empty directory, or changes nothing. -/
theorem sysRmdir_cases (fails : Failures) (tree : FileTree) (path : Path) :
    sysRmdir fails tree path = (false, tree) ∨
      tree.Leaf path ∧ (∃ node, (path, node) ∈ tree.entries ∧ node.kind = .directory) ∧
        sysRmdir fails tree path = (true, tree.prune path) := by
  unfold sysRmdir
  split
  · rename_i h
    obtain ⟨⟨node, hget, hkind⟩, hempty⟩ := h
    split
    · exact .inl rfl
    · rw [erase_eq_prune]
      exact .inr ⟨leaf_of_names hempty, ⟨node, get?_eq_some_iff.mp hget, hkind⟩, rfl⟩
  · exact .inl rfl

/-- `rmdir` removes an empty directory unless it fails. -/
theorem sysRmdir_eq (hnode : (path, node) ∈ tree.entries) (hkind : node.kind = .directory)
    (hempty : tree.names path = []) (hfails : fails .rmdir path = false) :
    sysRmdir fails tree path = (true, tree.prune path) := by
  have h : (∃ node ∈ tree.get? path, node.kind = .directory) ∧ tree.names path = [] :=
    ⟨⟨node, get?_eq_some_iff.mpr hnode, hkind⟩, hempty⟩
  rw [sysRmdir, dif_pos h, hfails, erase_eq_prune]
  rfl

/-! ## What `Rm` does at a path -/

/-- Nothing is removed where nothing is. -/
theorem rm_of_not_exists (h : ¬tree.Exists path) (depth : ℕ) : rm fails (depth + 1) tree path = some (true, tree) := by
  rw [rm, get?_eq_none_iff.mpr h]

/-- What has not got the bit of directories is unlinked. -/
theorem rm_of_unlinked (hnode : (path, node) ∈ tree.entries) (hmode : node.stMode &&& sIfdir = 0) (depth : ℕ) :
    rm fails (depth + 1) tree path =
      some (if fails .unlink path then (false, tree) else (true, tree.prune path)) := by
  have hget := get?_eq_some_iff.mpr hnode
  have hkind := ((stMode_and_eq_zero_iff node).mp hmode).1
  rw [rm, hget]
  simp only [if_pos hmode]
  rw [unlink, hget, ← sysUnlink_eq hnode hkind]
  rfl

/-- What cannot be opened stays. -/
theorem rm_of_stuck (hnode : (path, node) ∈ tree.entries) (hstuck : Stuck fails path node) (depth : ℕ) :
    rm fails (depth + 1) tree path = some (false, tree) := by
  have hget := get?_eq_some_iff.mpr hnode
  have hmode : ¬node.stMode &&& sIfdir = 0 := by
    rw [stMode_and_eq_zero_iff]
    rcases hstuck with hkind | hkind | ⟨hkind, _⟩ <;> simp [hkind]
  have hopen : opendir fails tree path = none := by
    rcases hstuck with hkind | hkind | ⟨hkind, hfailing⟩
    · exact opendir_of_not_directory fails hget (by rw [Node.link, hkind]; rfl) (by simp [hkind])
    · exact opendir_of_not_directory fails hget (by rw [Node.link, hkind]; rfl) (by simp [hkind])
    · rw [opendir_of_directory fails hget hkind, if_pos hfailing]
  rw [rm, hget]
  simp only [if_neg hmode, hopen]

/-- A directory is removed behind its entries. -/
theorem rm_of_directory (hnode : (path, node) ∈ tree.entries) (hkind : node.kind = .directory)
    (hfails : fails .opendir path = false) (depth : ℕ) :
    rm fails (depth + 1) tree path =
      (removeEntries (rm fails depth) path ((tree.names path).map FileName.text) true tree).map fun result =>
        (if (sysRmdir fails result.2 path).1 then result.1 else false, (sysRmdir fails result.2 path).2) := by
  have hget := get?_eq_some_iff.mpr hnode
  have hmode : ¬node.stMode &&& sIfdir = 0 := by
    rw [stMode_and_eq_zero_iff]
    simp [hkind]
  have hopen : opendir fails tree path = some path := by
    rw [opendir_of_directory fails hget hkind, hfails, if_neg Bool.false_ne_true]
  have hnames : (readdir tree path).map Prod.fst = "." :: ".." :: (tree.names path).map FileName.text := by
    rw [readdir, List.map_cons, List.map_cons, List.map_map]
    rfl
  rw [rm, hget]
  simp only [if_neg hmode, hopen, hnames]
  rw [removeEntries, dif_neg (by simp), removeEntries, dif_neg (by simp)]
  cases removeEntries (rm fails depth) path ((tree.names path).map FileName.text) true tree <;> rfl

/-- **What `Rm` can do at a path.** There is nothing, or something to unlink, or something that cannot be opened, or
a directory that can. -/
theorem path_cases (fails : Failures) (tree : FileTree) (path : Path) :
    ¬tree.Exists path ∨ ∃ node, (path, node) ∈ tree.entries ∧
      (node.stMode &&& sIfdir = 0 ∨ Stuck fails path node ∨
        node.kind = .directory ∧ fails .opendir path = false) := by
  by_cases hexists : tree.Exists path
  · obtain ⟨node, hnode⟩ := hexists
    refine .inr ⟨node, hnode, ?_⟩
    rw [stMode_and_eq_zero_iff]
    unfold Stuck
    cases node.kind <;> cases fails .opendir path <;> simp
  · exact .inl hexists

/-- The first entry of a directory. -/
theorem removeEntries_cons (child : FileTree → Path → Option (Bool × FileTree)) (path : Path) (name : FileName)
    (rest : List String) (ret : Bool) (tree : FileTree) :
    removeEntries child path (name.text :: rest) ret tree =
      (child tree (path ++ [name])).bind fun result => removeEntries child path rest result.1 result.2 := by
  rw [removeEntries, dif_pos ⟨name.ne_self, name.ne_parent⟩]
  rfl

/-- What each entry keeps, all of them keep. -/
theorem removeEntries_keeps {I : FileTree → Prop}
    (hchild : ∀ tree path ret tree', child tree path = some (ret, tree') → I tree → I tree')
    (names : List FileName) (h : removeEntries child path (names.map FileName.text) ret tree = some (ret', tree'))
    (htree : I tree) : I tree' := by
  induction names generalizing ret tree with
  | nil =>
    cases h
    exact htree
  | cons name names ih =>
    rw [List.map_cons, removeEntries_cons] at h
    obtain ⟨⟨ret₁, tree₁⟩, hfirst, hrest⟩ := Option.bind_eq_some_iff.mp h
    exact ih hrest (hchild tree _ ret₁ tree₁ hfirst htree)

/-- What is unlinked is not stuck, and nothing is below it. -/
theorem unlinked_spec (hnode : (path, node) ∈ tree.entries) (hmode : node.stMode &&& sIfdir = 0) :
    tree.Leaf path ∧ ¬Stuck fails path node := by
  obtain ⟨hdirectory, hsocket, hdevice⟩ := (stMode_and_eq_zero_iff node).mp hmode
  refine ⟨leaf_of_not_inner hnode hdirectory, ?_⟩
  rintro (hkind | hkind | ⟨hkind, _⟩)
  · exact hsocket hkind
  · exact hdevice hkind
  · exact hdirectory hkind

/-- What pruning leaves that are not stuck keeps, `Rm` keeps. -/
theorem rm_keeps {I : FileTree → Prop}
    (hprune : ∀ (tree : FileTree) (path : Path) (node : Node), tree.Leaf path → (path, node) ∈ tree.entries →
      ¬Stuck fails path node → I tree → I (tree.prune path))
    (h : rm fails depth tree path = some (ret, tree')) (htree : I tree) : I tree' := by
  induction depth generalizing tree path ret tree' with
  | zero => cases h
  | succ depth ih =>
    obtain hnone | ⟨node, hnode, hmode | hstuck | ⟨hkind, hopen⟩⟩ := path_cases fails tree path
    · rw [rm_of_not_exists hnone] at h
      cases h
      exact htree
    · rw [rm_of_unlinked hnode hmode] at h
      split at h
      · cases h
        exact htree
      · cases h
        obtain ⟨hleaf, hfree⟩ : tree.Leaf path ∧ ¬Stuck fails path node := unlinked_spec hnode hmode
        exact hprune tree path node hleaf hnode hfree htree
    · rw [rm_of_stuck hnode hstuck] at h
      cases h
      exact htree
    · rw [rm_of_directory hnode hkind hopen] at h
      obtain ⟨⟨ret₁, tree₁⟩, hentries, hresult⟩ := Option.map_eq_some_iff.mp h
      have htree₁ : I tree₁ := removeEntries_keeps (fun _ _ _ _ => ih) _ hentries htree
      rcases sysRmdir_cases fails tree₁ path with hrmdir | ⟨hleaf, ⟨found, hfound, hdirectory⟩, hrmdir⟩
      · rw [hrmdir] at hresult
        cases hresult
        exact htree₁
      · rw [hrmdir] at hresult
        cases hresult
        refine hprune tree₁ path found hleaf hfound ?_ htree₁
        simp [Stuck, hdirectory, hopen]

/-- `Rm` adds nothing to the tree. -/
theorem rm_subset (h : rm fails depth tree path = some (ret, tree')) : tree'.entries ⊆ tree.entries := by
  refine rm_keeps (I := fun t => t.entries ⊆ tree.entries) ?_ h (List.Subset.refl _)
  intro t q node _ _ _ ht e he
  exact ht (mem_prune_iff.mp he).1

/-- What is stuck stays. -/
theorem rm_stuck {q : Path} (hstuck : Stuck fails q node) (hnode : (q, node) ∈ tree.entries)
    (h : rm fails depth tree path = some (ret, tree')) : (q, node) ∈ tree'.entries := by
  refine rm_keeps (I := fun t => (q, node) ∈ t.entries) ?_ h hnode
  intro t p found hleaf hfound hfree hq
  rw [← erase_eq_prune hleaf, mem_erase_iff]
  refine ⟨hq, ?_⟩
  rintro rfl
  cases List.inj_on_of_nodup_map t.nodup hq hfound rfl
  exact hfree hstuck

/-- **When `Rm` says that it has removed a path,** nothing is there. -/
theorem rm_true (h : rm fails depth tree path = some (true, tree')) : ¬tree'.Exists path := by
  have hpruned (t : FileTree) : ¬(t.prune path).Exists path := by
    rintro ⟨node, hnode⟩
    exact (mem_prune_iff.mp hnode).2 List.prefix_rfl
  cases depth with
  | zero => cases h
  | succ depth =>
    obtain hnone | ⟨node, hnode, hmode | hstuck | ⟨hkind, hopen⟩⟩ := path_cases fails tree path
    · rw [rm_of_not_exists hnone] at h
      cases h
      exact hnone
    · rw [rm_of_unlinked hnode hmode] at h
      split at h
      · cases h
      · cases h
        exact hpruned tree
    · rw [rm_of_stuck hnode hstuck] at h
      cases h
    · rw [rm_of_directory hnode hkind hopen] at h
      obtain ⟨⟨ret₁, tree₁⟩, _, hresult⟩ := Option.map_eq_some_iff.mp h
      rcases sysRmdir_cases fails tree₁ path with hrmdir | ⟨_, _, hrmdir⟩
      · rw [hrmdir] at hresult
        cases hresult
      · rw [hrmdir] at hresult
        cases hresult
        exact hpruned tree₁

/-! ## That it ends -/

/-- The paths below a path are at most so much longer. -/
def Within (tree : FileTree) (path : Path) (k : ℕ) : Prop :=
  ∀ e ∈ tree.entries, path <+: e.1 → e.1.length < path.length + k

/-- Below a child there is one level less. -/
theorem Within.below {k : ℕ} (h : Within tree path (k + 1)) (hsubset : tree'.entries ⊆ tree.entries)
    (name : FileName) : Within tree' (path ++ [name]) k := by
  intro e he hbelow
  have hlength := h e (hsubset he) ((List.prefix_append path [name]).trans hbelow)
  rw [List.length_append, List.length_singleton]
  omega

/-- The loop over the entries ends when each child does. -/
theorem removeEntries_ends {k : ℕ} (base : FileTree) (path : Path)
    (hchild : ∀ (tree : FileTree) name, tree.entries ⊆ base.entries →
      ∃ result, ∀ depth > k, rm fails depth tree (path ++ [name]) = some result)
    (names : List FileName) (ret : Bool) (tree : FileTree) (htree : tree.entries ⊆ base.entries) :
    ∃ result, ∀ depth > k, removeEntries (rm fails depth) path (names.map FileName.text) ret tree = some result := by
  induction names generalizing ret tree with
  | nil => exact ⟨(ret, tree), fun _ _ => rfl⟩
  | cons name names ih =>
    obtain ⟨⟨ret₁, tree₁⟩, hfirst⟩ := hchild tree name htree
    have htree₁ := List.Subset.trans (rm_subset (hfirst (k + 1) (Nat.lt_succ_self k))) htree
    obtain ⟨result, hrest⟩ := ih ret₁ tree₁ htree₁
    refine ⟨result, fun depth hdepth => ?_⟩
    rw [List.map_cons, removeEntries_cons, hfirst depth hdepth]
    exact hrest depth hdepth

/-- Depths above a depth are successors. -/
theorem forall_gt_of_succ {P : ℕ → Prop} {k : ℕ} (h : ∀ depth ≥ k, P (depth + 1)) : ∀ depth > k, P depth := by
  rintro (_ | depth) hdepth
  · omega
  · exact h depth (Nat.le_of_lt_succ hdepth)

/-- Nothing is at a path with no level left. -/
theorem Within.not_exists (h : Within tree path 0) : ¬tree.Exists path := by
  rintro ⟨node, hnode⟩
  exact Nat.lt_irrefl _ (h _ hnode List.prefix_rfl)

/-- `Rm` ends with the tree. -/
theorem rm_ends (fails : Failures) (k : ℕ) (tree : FileTree) (path : Path) (hwithin : Within tree path k) :
    ∃ result, ∀ depth > k, rm fails depth tree path = some result := by
  induction k generalizing tree path with
  | zero => exact ⟨_, forall_gt_of_succ fun depth _ => rm_of_not_exists hwithin.not_exists depth⟩
  | succ k ih =>
    obtain hnone | ⟨node, hnode, hmode | hstuck | ⟨hkind, hopen⟩⟩ := path_cases fails tree path
    · exact ⟨_, forall_gt_of_succ fun depth _ => rm_of_not_exists hnone depth⟩
    · exact ⟨_, forall_gt_of_succ fun depth _ => rm_of_unlinked hnode hmode depth⟩
    · exact ⟨_, forall_gt_of_succ fun depth _ => rm_of_stuck hnode hstuck depth⟩
    · obtain ⟨result, hentries⟩ := removeEntries_ends tree path
        (fun t name ht => ih t (path ++ [name]) (hwithin.below ht name)) (tree.names path) true tree
        (List.Subset.refl _)
      have hrun (depth : ℕ) (hdepth : depth ≥ k + 1) :=
        (rm_of_directory hnode hkind hopen depth).trans (congrArg (Option.map _) (hentries depth hdepth))
      exact ⟨_, forall_gt_of_succ hrun⟩

/-! ## What it removes -/

/-- Calls that succeed on a tree succeed on what is left of it. -/
theorem Succeeding.mono (h : Succeeding fails tree) (hsubset : tree'.entries ⊆ tree.entries) :
    Succeeding fails tree' where
  unlink path node hnode := h.unlink path node (hsubset hnode)
  rmdir path node hnode := h.rmdir path node (hsubset hnode)

/-- Nothing at a path or below it is stuck. -/
def Free (fails : Failures) (tree : FileTree) (path : Path) : Prop :=
  ∀ q node, (q, node) ∈ tree.entries → path <+: q → ¬Stuck fails q node

/-- What is free is so in what is left of the tree, and below each child. -/
theorem Free.below (h : Free fails tree path) (hsubset : tree'.entries ⊆ tree.entries) (name : FileName) :
    Free fails tree' (path ++ [name]) :=
  fun q node hnode hbelow => h q node (hsubset hnode) ((List.prefix_append path [name]).trans hbelow)

/-- The loop over the entries removes them when each child is removed. -/
theorem removeEntries_removes (base : FileTree) (path : Path)
    (hchild : ∀ (tree : FileTree) name, tree.entries ⊆ base.entries →
      child tree (path ++ [name]) = some (true, tree.prune (path ++ [name])))
    (names : List FileName) (tree : FileTree) (htree : tree.entries ⊆ base.entries) :
    removeEntries child path (names.map FileName.text) true tree =
      some (true, tree.pruneAll (names.map (path ++ [·]))) := by
  induction names generalizing tree with
  | nil => rfl
  | cons name names ih =>
    rw [List.map_cons, removeEntries_cons, hchild tree name htree]
    exact ih (tree.prune (path ++ [name])) fun e he => htree (mem_prune_iff.mp he).1

/-- **What `Rm` removes.** When the calls succeed and nothing is stuck, it is what is at the path and below it. -/
theorem rm_removes (k : ℕ) (tree : FileTree) (path : Path) (hsucceeding : Succeeding fails tree)
    (hfree : Free fails tree path) (hwithin : Within tree path k) :
    ∀ depth > k, rm fails depth tree path = some (true, tree.prune path) := by
  induction k generalizing tree path with
  | zero =>
    refine forall_gt_of_succ fun depth _ => ?_
    rw [rm_of_not_exists hwithin.not_exists, prune_of_not_exists hwithin.not_exists]
  | succ k ih =>
    refine forall_gt_of_succ fun depth hdepth => ?_
    obtain hnone | ⟨node, hnode, hmode | hstuck | ⟨hkind, hopen⟩⟩ := path_cases fails tree path
    · rw [rm_of_not_exists hnone, prune_of_not_exists hnone]
    · have hkind := ((stMode_and_eq_zero_iff node).mp hmode).1
      rw [rm_of_unlinked hnode hmode, hsucceeding.unlink path node hnode hkind]
      rfl
    · exact (hfree path node hnode List.prefix_rfl hstuck).elim
    · have hentries := @removeEntries_removes (rm fails depth) tree path
        (fun t name ht => ih t (path ++ [name]) (hsucceeding.mono ht) (hfree.below ht name)
          (hwithin.below ht name) depth hdepth) (tree.names path) tree (List.Subset.refl _)
      have hrmdir := sysRmdir_eq (mem_pruneAll hnode (tree.names path)) hkind
        (names_of_leaf (leaf_pruneAll tree path)) (hsucceeding.rmdir path node hnode hkind)
      rw [rm_of_directory hnode hkind hopen, hentries, Option.map_some, hrmdir, prune_pruneAll]
      rfl

/-- A level above the paths of a tree. -/
theorem exists_within (tree : FileTree) (path : Path) : ∃ k, Within tree path k := by
  let lengths := tree.entries.map fun e => e.1.length
  refine ⟨lengths.sum + 1, fun e he _ => ?_⟩
  have hle : e.1.length ≤ lengths.sum := List.le_sum_of_mem (List.mem_map.mpr ⟨e, he, rfl⟩)
  omega

/-- Where `Rm` does what it is for with calls that succeed, nothing is stuck: it would be there still. -/
theorem Removes.free (h : Removes fails tree path) (hsucceeding : Succeeding fails tree) : Free fails tree path := by
  obtain ⟨ret, tree', ⟨enough, hrun⟩, hremoves, _⟩ := h
  intro q node hnode hbelow hstuck
  have hkept := rm_stuck hstuck hnode (hrun enough (Nat.le_refl enough))
  rw [(hremoves hsucceeding).2, mem_prune_iff] at hkept
  exact hkept.2 hbelow

/-- **When `Rm` does what it is for.** With calls that succeed, exactly when there are no sockets, no block devices
and no directories that cannot be opened. -/
theorem removes_iff (fails : Failures) (tree : FileTree) (path : Path) :
    Removes fails tree path ↔ (Succeeding fails tree → ∀ q node, (q, node) ∈ tree.entries → path <+: q →
      node.kind ≠ .socket ∧ node.kind ≠ .blockDevice ∧
        (node.kind = .directory → fails .opendir q = false)) := by
  have hfree : Free fails tree path ↔ ∀ q node, (q, node) ∈ tree.entries → path <+: q →
      node.kind ≠ .socket ∧ node.kind ≠ .blockDevice ∧
        (node.kind = .directory → fails .opendir q = false) := by
    simp [Free, Stuck]
  rw [← hfree]
  refine ⟨Removes.free, fun hfree => ?_⟩
  obtain ⟨k, hwithin⟩ := exists_within tree path
  obtain ⟨⟨ret, tree'⟩, hend⟩ := rm_ends fails k tree path hwithin
  have hlast := hend (k + 1) (Nat.lt_succ_self k)
  refine ⟨ret, tree', ⟨k + 1, hend⟩, ?_, ?_⟩
  · intro hsucceeding
    have hremoved := rm_removes k tree path hsucceeding (hfree hsucceeding) hwithin (k + 1) (Nat.lt_succ_self k)
    rw [hlast] at hremoved
    cases hremoved
    exact ⟨rfl, rfl⟩
  · rintro rfl
    exact rm_true hlast

/-- A directory with a socket in it. -/
def socketTree : FileTree where
  entries := [([], ⟨.directory, 0o755⟩), ([⟨"s", by decide, by decide⟩], ⟨.socket, 0o755⟩)]
  nodup := by simp
  closed := by
    rintro path name v h
    rcases List.mem_pair.mp h with h | h
    · exact (List.concat_ne_nil name path (congrArg Prod.fst h)).elim
    · have hlength := congrArg (fun e : Path × Node => e.1.length) h
      have hnil : path = [] := by simpa using hlength
      subst hnil
      exact ⟨⟨.directory, 0o755⟩, List.mem_cons_self, rfl⟩

/-- The directory is not removed, with no call that fails. -/
theorem not_removes_socketTree : ¬Removes (fun _ _ => false) socketTree [] := by
  intro h
  have hsocket := h.free ⟨fun _ _ _ _ => rfl, fun _ _ _ _ => rfl⟩ _ _ (List.mem_cons_of_mem _ List.mem_cons_self)
    List.nil_prefix
  exact hsocket (.inl rfl)

end Bobliew.FSUtil
