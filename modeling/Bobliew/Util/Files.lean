import Bobliew.Util.Rm

/-!
# Making directories and files, and moving

`FSUtil::Mkdir` makes the missing directories on the way to a path one after the other, `FSUtil::OpenForWrite` makes
those on the way to a file that it could not open and tries again, and `FSUtil::Mv` removes what is at the target
before it renames.

The calls follow the symbolic links on the way; `open` follows one at the end as well, and makes what it leads to.
Files are opened in a mode that creates them.
-/

namespace Bobliew.FSUtil

open PathTree

/-- The calls that make or move something. -/
inductive MakeCall where
  | mkdir
  | openForWrite
  | rename
  deriving DecidableEq, Repr

/-- Which of these calls fail although they could succeed. -/
abbrev Refusals := MakeCall → Path → Bool

/-- Whether `open` for writing succeeds on a node of this kind. -/
def FileKind.writable : FileKind → Bool
  | .regular => true
  | .fifo => true
  | .blockDevice => true
  | .charDevice => true
  | .symlink _ => false
  | .socket => false
  | .directory => false

/-- A new directory of `__mkdir`, with the permissions that `umask` leaves. -/
def newDirectory (umask : BitVec 12) : Node := ⟨.directory, (0o775#12 &&& ~~~umask).toFin⟩

/-- A new file of `open`. -/
def newFile (umask : BitVec 12) : Node := ⟨.regular, (0o666#12 &&& ~~~umask).toFin⟩

/-- What a path is for the calls that do not follow a link at its end: a name in the directory that the names in front
of it lead to. -/
def locate (tree : FileTree) (path : Path) : Option Path :=
  match path.getLast? with
  | none => some []
  | some name => (directory tree path.dropLast).map (· ++ [name])

/-- `__lstat`, for the existence of what is at a path. -/
def lstat (tree : FileTree) (path : Path) : Bool := ((locate tree path).bind tree.get?).isSome

section Functions

variable (refuses : Refusals) (umask : BitVec 12) (tree : FileTree)

/-- `mkdir`. -/
def sysMkdir (dir : Path) (name : FileName) : Bool × FileTree :=
  match (directory tree dir).bind fun parent => tree.insert? (parent ++ [name]) (newDirectory umask) with
  | some made => if refuses .mkdir (dir ++ [name]) then (false, tree) else (true, made)
  | none => (false, tree)

/-- `open` for writing. -/
def sysOpen (dir : Path) (name : FileName) : Bool × FileTree :=
  match resolve tree (dir ++ [name]) with
  | none => (false, tree)
  | some file =>
    match tree.get? file with
    | some node => (node.kind.writable && !refuses .openForWrite (dir ++ [name]), tree)
    | none =>
      match tree.insert? file (newFile umask) with
      | some made => if refuses .openForWrite (dir ++ [name]) then (false, tree) else (true, made)
      | none => (false, tree)

/-- `rename` to a path where nothing is. -/
def sysRename (source dir : Path) (name : FileName) : Bool × FileTree :=
  match locate tree source, directory tree dir with
  | some found, some parent =>
    if h : ((tree.get? found).isSome = true ∧ tree.get? (parent ++ [name]) = none ∧ tree.IsInner parent) ∧
        ¬found <+: parent ++ [name] then
      if refuses .rename source then (false, tree)
      else (true, tree.move found parent name (get?_eq_none_iff.mp h.1.2.1)
        (h.1.2.2.imp fun _ hu => ⟨get?_eq_some_iff.mp hu.1, hu.2⟩) h.2)
    else (false, tree)
  | _, _ => (false, tree)

/-- `__mkdir`. -/
def makeDirectory (dir : Path) (name : FileName) : Bool × FileTree :=
  if access tree (dir ++ [name]) then (true, tree) else sysMkdir refuses umask tree dir name

/-- The loop of `Mkdir` over the names of a path. -/
def mkdirLoop : FileTree → Path → List FileName → Bool × FileTree
  | tree, _, [] => (true, tree)
  | tree, dir, name :: rest =>
    let made := makeDirectory refuses umask tree dir name
    if made.1 then mkdirLoop made.2 (dir ++ [name]) rest else (false, made.2)

/-- `FSUtil::Mkdir`. -/
def mkdir (dirname : Path) : Bool × FileTree :=
  if lstat tree dirname then (true, tree) else mkdirLoop refuses umask tree [] dirname

/-- `FSUtil::OpenForWrite`, for a file with a name in a directory. -/
def openForWrite (dir : Path) (name : FileName) : Bool × FileTree :=
  let opened := sysOpen refuses umask tree dir name
  if opened.1 then opened
  else sysOpen refuses umask (mkdir refuses umask tree dir).2 dir name

/-- `FSUtil::Mv`, for trees up to a depth. -/
def mv (fails : Failures) (depth : ℕ) (source dir : Path) (name : FileName) : Option (Bool × FileTree) :=
  (rm fails depth tree (dir ++ [name])).map fun (ret, tree) =>
    if !ret then (false, tree) else sysRename refuses tree source dir name

end Functions

variable {refuses : Refusals} {umask : BitVec 12} {tree tree' tree'' : FileTree} {dir path source parent file : Path}
  {name : FileName} {node : Node}

/-! ## Where paths lead -/

/-- Where a path leads behind a directory. -/
theorem resolve_concat (hroot : tree.IsInner []) (path : Path) (name : FileName) (rest : Path) :
    resolve tree (path ++ name :: rest) =
      (tree.walk Node.link maxSymlinks [] (path.map .child)).bind fun e =>
        if tree.IsInner e.2 then (tree.walk Node.link e.1 e.2 ((name :: rest).map .child)).map Prod.snd else none := by
  rw [resolve, List.map_append, walk_append (by simp) hroot hroot, Option.map_bind]
  congr 1
  funext e
  dsimp only [Function.comp_apply]
  split_ifs <;> rfl

/-- Nothing is at a path that goes on where nothing is. -/
theorem resolve_missing (hparent : directory tree path = some parent) (hnone : tree.get? (parent ++ [name]) = none)
    (rest : Path) :
    resolve tree (path ++ name :: rest) = if rest = [] then some (parent ++ [name]) else none := by
  obtain ⟨⟨left, hwalk⟩, hinner⟩ := directory_eq_some_iff.mp hparent
  rw [resolve_concat (hinner.above List.nil_prefix), hwalk, Option.bind_some, if_pos hinner, List.map_cons,
    walk_missing hnone]
  cases rest <;> rfl

/-- A path is not on the way to its directory. -/
theorem not_concat_above (dir : Path) (name : FileName) : ¬dir ++ [name] <+: dir := by
  intro h
  have hlength := h.length_le
  rw [List.length_append, List.length_singleton] at hlength
  exact Nat.not_succ_le_self _ hlength

/-- What leads behind a name leads to a directory in front of it. -/
theorem exists_directory (hroot : tree.IsInner []) {rest : Path}
    (h : (resolve tree (path ++ name :: rest)).isSome = true) : ∃ parent, directory tree path = some parent := by
  rw [resolve_concat hroot] at h
  cases hwalk : tree.walk Node.link maxSymlinks [] (path.map .child) with
  | none =>
    rw [hwalk] at h
    cases h
  | some e =>
    rw [hwalk, Option.bind_some] at h
    split at h
    · rename_i hinner
      exact ⟨e.2, directory_eq_some_iff.mpr ⟨⟨e.1, hwalk⟩, hinner⟩⟩
    · cases h

/-- A directory on the way to a directory. -/
theorem access_above {pre : Path} (hparent : directory tree path = some parent) (hpre : pre <+: path) :
    access tree pre = true := by
  obtain ⟨rest, rfl⟩ := hpre
  cases rest with
  | nil =>
    rw [List.append_nil] at hparent
    exact access_of_directory hparent
  | cons name rest =>
    obtain ⟨hresolve, hinner⟩ := Option.filter_eq_some_iff.mp hparent
    obtain ⟨up, hup⟩ := exists_directory ((of_decide_eq_true hinner).above List.nil_prefix)
      (Option.isSome_of_eq_some hresolve)
    exact access_of_directory hup

/-- The directory that a path leads to stays when something is added. -/
theorem directory_of_kept (hkept : tree.Kept tree') (hparent : directory tree path = some parent) :
    directory tree' path = some parent := by
  obtain ⟨⟨left, hwalk⟩, hinner⟩ := directory_eq_some_iff.mp hparent
  obtain ⟨node, hnode, hkind⟩ := hinner
  exact directory_eq_some_iff.mpr ⟨⟨left, hkept.walk hwalk hnode⟩, node, hkept _ node hnode, hkind⟩

/-! ## Directories on the way -/

/-- The tree with the missing directories on the way to a path. -/
def Filled (umask : BitVec 12) (tree tree' : FileTree) (path : Path) : Prop :=
  ∀ q, tree'.get? q = (tree.get? q).or (if q <+: path then some (newDirectory umask) else none)

/-- What is above a node is there. -/
theorem isSome_above {q : Path} (hbelow : q <+: path) (h : (tree.get? path).isSome = true) :
    (tree.get? q).isSome = true := by
  obtain ⟨v, hv⟩ := Option.isSome_iff_exists.mp h
  obtain ⟨u, hu⟩ := exists_above hbelow ⟨v, get?_eq_some_iff.mp hv⟩
  exact Option.isSome_iff_exists.mpr ⟨u, get?_eq_some_iff.mpr hu⟩

/-- Nothing is below where nothing is. -/
theorem get?_eq_none_below {q : Path} (hbelow : path <+: q) (hnone : tree.get? path = none) : tree.get? q = none := by
  rw [← Option.not_isSome_iff_eq_none] at hnone ⊢
  exact fun h => hnone (isSome_above hbelow h)

/-- Nothing is missing on the way to what is there. -/
theorem filled_self (umask : BitVec 12) (h : (tree.get? path).isSome = true) :
    Filled umask tree tree path := by
  intro q
  split_ifs with hbelow
  · rw [Option.or_of_isSome (isSome_above hbelow h)]
  · rw [Option.or_none]

/-- The directories on the way to one name more. -/
theorem Filled.trans {rest : Path} (h : Filled umask tree tree' dir)
    (h' : Filled umask tree' tree'' (dir ++ rest)) : Filled umask tree tree'' (dir ++ rest) := by
  intro q
  rw [h' q, h q, Option.or_assoc]
  congr 1
  by_cases hdir : q <+: dir
  · rw [if_pos hdir, if_pos (hdir.trans (List.prefix_append dir rest)), Option.some_or]
  · rw [if_neg hdir, Option.none_or]

/-- What was there is there in the tree that was filled in. -/
theorem Filled.kept (h : Filled umask tree tree' path) : tree.Kept tree' := by
  intro q v hv
  rw [h q, hv, Option.some_or]

/-- One directory is made. -/
theorem filled_of_insert (hnone : tree.get? (parent ++ [name]) = none) (hinner : tree.IsInner parent)
    (hget : ∀ q, tree'.get? q = if q = parent ++ [name] then some (newDirectory umask) else tree.get? q) :
    Filled umask tree tree' (parent ++ [name]) := by
  obtain ⟨node, hnode, -⟩ := hinner
  intro q
  rw [hget q]
  by_cases hq : q = parent ++ [name]
  · rw [if_pos hq, hq, hnone, if_pos List.prefix_rfl, Option.none_or]
  · rw [if_neg hq]
    by_cases hbelow : q <+: parent ++ [name]
    · have habove := (List.prefix_concat_iff.mp hbelow).resolve_left hq
      rw [Option.or_of_isSome (isSome_above habove (Option.isSome_of_mem hnode))]
    · rw [if_neg hbelow, Option.or_none]

/-- **A step of the loop of `Mkdir`** where nothing is, in a directory that is there. -/
theorem makeDirectory_filled (umask : BitVec 12) (hrefuses : ∀ call q, refuses call q = false)
    (hparent : directory tree dir = some parent) (hnone : tree.get? (parent ++ [name]) = none) :
    (makeDirectory refuses umask tree dir name).1 = true ∧
      Filled umask tree (makeDirectory refuses umask tree dir name).2 (parent ++ [name]) ∧
      directory (makeDirectory refuses umask tree dir name).2 (dir ++ [name]) = some (parent ++ [name]) := by
  obtain ⟨-, hinner⟩ := directory_eq_some_iff.mp hparent
  obtain ⟨made, hmade, hget⟩ := insert?_concat (newDirectory umask) hnone hinner
  have haccess : access tree (dir ++ [name]) = false := by
    rw [access, resolve_missing hparent hnone, if_pos rfl, Option.bind_some, hnone, Option.isSome_none]
  have hfilled := filled_of_insert hnone hinner hget
  rw [makeDirectory, haccess, if_neg Bool.false_ne_true, sysMkdir, hparent, Option.bind_some, hmade]
  dsimp only
  rw [hrefuses, if_neg Bool.false_ne_true]
  refine ⟨rfl, hfilled, directory_concat (directory_of_kept hfilled.kept hparent) ?_⟩
  exact ⟨newDirectory umask, by rw [hget, if_pos rfl]; rfl, rfl⟩

/-- The loop of `Mkdir` makes all directories behind the first one that is missing. -/
theorem mkdirLoop_filled (umask : BitVec 12) (hrefuses : ∀ call q, refuses call q = false) (rest : List FileName)
    (hparent : directory tree dir = some parent) (hnone : tree.get? (parent ++ [name]) = none) :
    Filled umask tree (mkdirLoop refuses umask tree dir (name :: rest)).2 (parent ++ name :: rest) ∧
      directory (mkdirLoop refuses umask tree dir (name :: rest)).2 (dir ++ name :: rest) =
        some (parent ++ name :: rest) := by
  induction rest generalizing tree dir parent name with
  | nil =>
    obtain ⟨hret, hfilled, hmade⟩ := makeDirectory_filled umask hrefuses hparent hnone
    rw [mkdirLoop, if_pos hret, mkdirLoop]
    exact ⟨hfilled, hmade⟩
  | cons next rest ih =>
    obtain ⟨hret, hfilled, hmade⟩ := makeDirectory_filled umask hrefuses hparent hnone
    have hnext : (makeDirectory refuses umask tree dir name).2.get? (parent ++ [name] ++ [next]) = none := by
      rw [hfilled, get?_eq_none_below (List.prefix_append _ [next]) hnone, Option.none_or, if_neg]
      exact not_concat_above _ _
    obtain ⟨hrest, hdir⟩ := ih hmade hnext
    rw [mkdirLoop, if_pos hret, List.append_cons parent name, List.append_cons dir name (next :: rest)]
    exact ⟨hfilled.trans hrest, hdir⟩

/-- The loop of `Mkdir` goes over the directories that are there. -/
theorem mkdirLoop_above (pre : Path) (rest : List FileName)
    (haccess : ∀ up, up <+: pre → access tree (dir ++ up) = true) :
    mkdirLoop refuses umask tree dir (pre ++ rest) = mkdirLoop refuses umask tree (dir ++ pre) rest := by
  induction pre generalizing dir with
  | nil => rw [List.nil_append, List.append_nil]
  | cons name pre ih =>
    have hthere : makeDirectory refuses umask tree dir name = (true, tree) :=
      if_pos (haccess [name] (List.cons_prefix_cons.mpr ⟨rfl, List.nil_prefix⟩))
    rw [List.cons_append, mkdirLoop, hthere, if_pos rfl, List.append_cons dir name pre]
    refine ih fun up hup => ?_
    rw [← List.append_cons]
    exact haccess (name :: up) (List.cons_prefix_cons.mpr ⟨rfl, hup⟩)

/-- Somewhere on a path there is a directory in which the next name is missing. -/
def Missing (tree : FileTree) (path : Path) : Prop :=
  ∃ pre name rest parent, path = pre ++ name :: rest ∧ directory tree pre = some parent ∧
    tree.get? (parent ++ [name]) = none

/-- `mkdir` changes nothing where no name is missing. -/
theorem sysMkdir_unchanged {rest : Path} (hno : ¬Missing tree (dir ++ name :: rest)) :
    (sysMkdir refuses umask tree dir name).2 = tree := by
  unfold sysMkdir
  split
  · rename_i made hmade
    obtain ⟨parent, hparent, hinsert⟩ := Option.bind_eq_some_iff.mp hmade
    obtain ⟨_, hnone, _⟩ | ⟨_, hfails⟩ := tree.insert?_spec (parent ++ [name]) (newDirectory umask)
    · exact absurd ⟨dir, name, rest, parent, rfl, hparent, hnone⟩ hno
    · rw [hfails] at hinsert
      cases hinsert
  · rfl

/-- Nor does the loop of `Mkdir`. -/
theorem mkdirLoop_unchanged (names : List FileName) (hno : ¬Missing tree (dir ++ names)) :
    (mkdirLoop refuses umask tree dir names).2 = tree := by
  induction names generalizing dir with
  | nil => rfl
  | cons name rest ih =>
    have hsame : (makeDirectory refuses umask tree dir name).2 = tree := by
      unfold makeDirectory
      split_ifs
      · rfl
      · exact sysMkdir_unchanged hno
    rw [List.append_cons] at hno
    rw [mkdirLoop, hsame]
    split_ifs
    · exact ih hno
    · rfl

/-- Nor does `Mkdir`. -/
theorem mkdir_unchanged (hno : ¬Missing tree path) : (mkdir refuses umask tree path).2 = tree := by
  unfold mkdir
  split_ifs
  · rfl
  · exact mkdirLoop_unchanged path hno

/-! ## Opening files -/

/-- The file that is opened for a path: the one that the path leads to, or one behind a directory in which the next
name is missing. -/
def Destination (tree : FileTree) (dir : Path) (name : FileName) (file : Path) : Prop :=
  resolve tree (dir ++ [name]) = some file ∨
    ∃ pre next rest parent, dir = pre ++ next :: rest ∧ directory tree pre = some parent ∧
      tree.get? (parent ++ [next]) = none ∧ file = parent ++ next :: rest ++ [name]

/-- The tree with a file and the directories on the way to it. -/
def Opened (umask : BitVec 12) (tree tree' : FileTree) (file : Path) : Prop :=
  ∀ q, tree'.get? q = (tree.get? q).or
    (if q <+: file.dropLast then some (newDirectory umask) else if q = file then some (newFile umask) else none)

/-- What is there is the tree with it. -/
theorem opened_self (umask : BitVec 12) (h : (tree.get? file).isSome = true) : Opened umask tree tree file := by
  intro q
  split_ifs with hbelow heq
  · rw [Option.or_of_isSome (isSome_above (hbelow.trans (List.dropLast_prefix file)) h)]
  · rw [heq, Option.or_of_isSome h]
  · rw [Option.or_none]

/-- A file is made in a directory with the directories on the way to it. -/
theorem Filled.opened (h : Filled umask tree tree' dir) (hnone : tree.get? (dir ++ [name]) = none)
    (hget : ∀ q, tree''.get? q = if q = dir ++ [name] then some (newFile umask) else tree'.get? q) :
    Opened umask tree tree'' (dir ++ [name]) := by
  intro q
  rw [hget q, h q, List.dropLast_concat]
  by_cases heq : q = dir ++ [name]
  · rw [if_pos heq, heq, hnone, if_neg (not_concat_above dir name), if_pos rfl, Option.none_or]
  · rw [if_neg heq, if_neg heq]

/-- What is there already is opened if it can be written. -/
theorem sysOpen_of_exists (hrefuses : ∀ call q, refuses call q = false)
    (hfile : resolve tree (dir ++ [name]) = some file) (hnode : tree.get? file = some node) :
    sysOpen refuses umask tree dir name = (node.kind.writable, tree) := by
  simp only [sysOpen, hfile, hnode, hrefuses, Bool.not_false, Bool.and_true]

/-- What is not there is made. -/
theorem sysOpen_of_new (umask : BitVec 12) (hrefuses : ∀ call q, refuses call q = false) (hroot : tree.IsInner [])
    (hfile : resolve tree (dir ++ [name]) = some file) (hnone : tree.get? file = none) :
    (sysOpen refuses umask tree dir name).1 = true ∧ file ≠ [] ∧ tree.IsInner file.dropLast ∧
      ∀ q, (sysOpen refuses umask tree dir name).2.get? q = if q = file then some (newFile umask) else tree.get? q := by
  obtain ⟨⟨left, path⟩, hwalk, rfl⟩ := Option.map_eq_some_iff.mp hfile
  obtain ⟨v, hv, -⟩ | hend := walk_end (fun _ => link_of_directory) hroot hroot hwalk
  · rw [hnone] at hv
    cases hv
  · obtain ⟨hne, -, hinner, made, hmade, hget⟩ | ⟨hno, -⟩ := tree.insert?_spec path (newFile umask)
    · refine ⟨?_, hne, hinner, ?_⟩ <;> simp only [sysOpen, hfile, hnone, hmade, hrefuses]
      · rfl
      · exact hget
    · exact absurd hend hno

/-- Nothing is opened where no path leads. -/
theorem sysOpen_of_nowhere (hfile : resolve tree (dir ++ [name]) = none) :
    sysOpen refuses umask tree dir name = (false, tree) := by
  simp only [sysOpen, hfile]

/-- Nothing is at a path on which a name is missing. -/
theorem lstat_of_missing {rest : Path} (hparent : directory tree path = some parent)
    (hnone : tree.get? (parent ++ [name]) = none) : lstat tree (path ++ name :: rest) = false := by
  have hout : ¬tree.IsInner (parent ++ [name]) := by
    rintro ⟨node, hnode, -⟩
    rw [hnone] at hnode
    cases hnode
  rcases List.eq_nil_or_concat rest with rfl | ⟨more, last, rfl⟩
  · rw [lstat, locate, List.getLast?_concat, List.dropLast_concat, hparent]
    simp only [Option.map_some, Option.bind_some, hnone, Option.isSome_none]
  · have hdirectory : directory tree (path ++ name :: more) = none := by
      rw [directory, resolve_missing hparent hnone]
      split_ifs
      · rw [Option.filter_some, decide_eq_false hout]
        rfl
      · rfl
    rw [List.concat_eq_append, ← List.cons_append, ← List.append_assoc, lstat, locate, List.getLast?_concat,
      List.dropLast_concat, hdirectory]
    rfl

/-- Where a name is missing, the directories behind it and the file are made. -/
theorem openForWrite_behind (umask : BitVec 12) (hrefuses : ∀ call q, refuses call q = false) {pre rest : Path}
    {next : FileName} (hdir : dir = pre ++ next :: rest) (hparent : directory tree pre = some parent)
    (hnone : tree.get? (parent ++ [next]) = none) :
    (openForWrite refuses umask tree dir name).1 = true ∧ tree.get? (parent ++ next :: rest ++ [name]) = none ∧
      Opened umask tree (openForWrite refuses umask tree dir name).2 (parent ++ next :: rest ++ [name]) := by
  subst hdir
  have hfirst : resolve tree (pre ++ next :: rest ++ [name]) = none := by
    rw [List.append_assoc, List.cons_append, resolve_missing hparent hnone,
      if_neg (List.append_ne_nil_of_right_ne_nil rest (List.cons_ne_nil name []))]
  have hbelow : parent ++ [next] <+: parent ++ next :: rest ++ [name] := ⟨rest ++ [name], by simp⟩
  have hfile := get?_eq_none_below hbelow hnone
  have habove : ∀ up, up <+: pre → access tree ([] ++ up) = true := fun up hup => access_above hparent hup
  have hmkdir : mkdir refuses umask tree (pre ++ next :: rest) = mkdirLoop refuses umask tree pre (next :: rest) := by
    rw [mkdir, lstat_of_missing hparent hnone, if_neg Bool.false_ne_true, mkdirLoop_above pre (next :: rest) habove,
      List.nil_append]
  obtain ⟨hfilled, hdirectory⟩ := mkdirLoop_filled umask hrefuses rest hparent hnone
  rw [← hmkdir] at hfilled hdirectory
  have hstill : (mkdir refuses umask tree (pre ++ next :: rest)).2.get? (parent ++ next :: rest ++ [name]) = none := by
    rw [hfilled, hfile, if_neg (not_concat_above _ name), Option.none_or]
  have hsecond := resolve_missing hdirectory hstill []
  rw [if_pos rfl] at hsecond
  have hroot : (mkdir refuses umask tree (pre ++ next :: rest)).2.IsInner [] :=
    (directory_eq_some_iff.mp hdirectory).2.above List.nil_prefix
  obtain ⟨hopened, -, -, hget⟩ := sysOpen_of_new umask hrefuses hroot hsecond hstill
  rw [openForWrite, sysOpen_of_nowhere hfirst, if_neg Bool.false_ne_true]
  exact ⟨hopened, hfile, hfilled.opened hfile hget⟩

/-- Where no name of the directory is missing, `Mkdir` makes no difference. -/
theorem openForWrite_eq (hno : ¬Missing tree dir) :
    openForWrite refuses umask tree dir name = sysOpen refuses umask tree dir name := by
  rw [openForWrite, mkdir_unchanged hno]
  exact ite_self _

/-- No name is missing on a path that leads to something. -/
theorem not_missing_of_resolve (hfile : resolve tree (dir ++ [name]) = some file) : ¬Missing tree dir := by
  rintro ⟨pre, next, rest, parent, rfl, hparent, hnone⟩
  rw [List.append_assoc, List.cons_append, resolve_missing hparent hnone,
    if_neg (List.append_ne_nil_of_right_ne_nil rest (List.cons_ne_nil name []))] at hfile
  cases hfile

/-- What a path leads to is opened if it can be written, and made if it is not there. -/
theorem openForWrite_found (umask : BitVec 12) (hrefuses : ∀ call q, refuses call q = false) (hroot : tree.IsInner [])
    (hfile : resolve tree (dir ++ [name]) = some file) :
    if ∀ node ∈ tree.get? file, node.kind.writable = true then
      (openForWrite refuses umask tree dir name).1 = true ∧
        Opened umask tree (openForWrite refuses umask tree dir name).2 file
    else openForWrite refuses umask tree dir name = (false, tree) := by
  rw [openForWrite_eq (not_missing_of_resolve hfile)]
  cases hnode : tree.get? file with
  | some node =>
    rw [sysOpen_of_exists hrefuses hfile hnode]
    split_ifs with hwritable
    · exact ⟨hwritable node rfl, opened_self umask (Option.isSome_of_mem hnode)⟩
    · cases hkind : node.kind.writable with
      | false => rfl
      | true =>
        refine absurd (fun found hfound => ?_) hwritable
        cases hfound
        exact hkind
  | none =>
    rw [if_pos (fun node hfound => absurd hfound (Option.not_mem_none node))]
    obtain ⟨hopened, hne, ⟨parent, hparent, -⟩, hget⟩ := sysOpen_of_new umask hrefuses hroot hfile hnode
    refine ⟨hopened, ?_⟩
    rw [← List.dropLast_append_getLast hne] at hnode hget ⊢
    exact (filled_self umask (Option.isSome_of_mem hparent)).opened hnode hget

/-- **What `OpenForWrite` can do,** with calls that succeed: it opens the file of its path, or there is none that can be
written or made, and nothing changes. -/
theorem openForWrite_cases (umask : BitVec 12) (hrefuses : ∀ call q, refuses call q = false) (hroot : tree.IsInner [])
    (dir : Path) (name : FileName) :
    ((openForWrite refuses umask tree dir name).1 = true ∧
      (∃ file, Destination tree dir name file ∧ ∀ node ∈ tree.get? file, node.kind.writable = true) ∧
      ∀ file, Destination tree dir name file → Opened umask tree (openForWrite refuses umask tree dir name).2 file) ∨
    openForWrite refuses umask tree dir name = (false, tree) ∧
      ¬∃ file, Destination tree dir name file ∧ ∀ node ∈ tree.get? file, node.kind.writable = true := by
  by_cases hmissing : Missing tree dir
  · refine .inl ?_
    have hbehind (file : Path) (hfile : Destination tree dir name file) :
        (openForWrite refuses umask tree dir name).1 = true ∧ tree.get? file = none ∧
          Opened umask tree (openForWrite refuses umask tree dir name).2 file := by
      obtain hfile | ⟨pre, next, rest, parent, hdir, hparent, hnone, rfl⟩ := hfile
      · exact absurd hmissing (not_missing_of_resolve hfile)
      · exact openForWrite_behind umask hrefuses hdir hparent hnone
    obtain ⟨pre, next, rest, parent, hdir, hparent, hnone⟩ := hmissing
    have hfile : Destination tree dir name (parent ++ next :: rest ++ [name]) :=
      .inr ⟨pre, next, rest, parent, hdir, hparent, hnone, rfl⟩
    obtain ⟨hopened, hnew, -⟩ := hbehind _ hfile
    refine ⟨hopened, ⟨_, hfile, fun node hnode => ?_⟩, fun file hfile => (hbehind file hfile).2.2⟩
    rw [hnew] at hnode
    cases hnode
  · have hfound (file : Path) : Destination tree dir name file ↔ resolve tree (dir ++ [name]) = some file := by
      refine or_iff_left ?_
      rintro ⟨pre, next, rest, parent, hdir, hparent, hnone, -⟩
      exact hmissing ⟨pre, next, rest, parent, hdir, hparent, hnone⟩
    simp only [hfound]
    cases hfile : resolve tree (dir ++ [name]) with
    | none =>
      rw [openForWrite_eq hmissing, sysOpen_of_nowhere hfile]
      exact .inr ⟨rfl, fun ⟨_, hno, _⟩ => nomatch hno⟩
    | some file =>
      have hspec := openForWrite_found umask hrefuses hroot hfile
      split_ifs at hspec with hwritable
      · refine .inl ⟨hspec.1, ⟨file, rfl, hwritable⟩, fun other hother => ?_⟩
        cases hother
        exact hspec.2
      · refine .inr ⟨hspec, ?_⟩
        rintro ⟨other, hother, hcan⟩
        cases hother
        exact hwritable hcan

/-- **What `OpenForWrite` does,** with calls that succeed. It opens a file exactly when the path leads to one that can
be written or made, or to a directory in which the next name is missing. Then the missing directories and the file
are made, and nothing else changes; otherwise nothing changes at all. -/
theorem openForWrite_makes (hrefuses : ∀ call q, refuses call q = false) (hroot : tree.IsInner []) :
    ((openForWrite refuses umask tree dir name).1 = true ↔
      ∃ file, Destination tree dir name file ∧ ∀ node ∈ tree.get? file, node.kind.writable = true) ∧
    ((openForWrite refuses umask tree dir name).1 = true → ∀ file, Destination tree dir name file →
      Opened umask tree (openForWrite refuses umask tree dir name).2 file) ∧
    ((openForWrite refuses umask tree dir name).1 = false →
      (openForWrite refuses umask tree dir name).2 = tree) := by
  obtain ⟨hopened, hfile, hmade⟩ | ⟨hclosed, hno⟩ := openForWrite_cases umask hrefuses hroot dir name
  · refine ⟨iff_of_true hopened hfile, fun _ => hmade, fun h => ?_⟩
    rw [hopened] at h
    cases h
  · rw [hclosed]
    exact ⟨iff_of_false Bool.false_ne_true hno, fun h => absurd h Bool.false_ne_true, fun _ => rfl⟩

/-- A directory with some entries. -/
def flatTree (entries : List (FileName × Node)) (h : (entries.map Prod.fst).Nodup) : FileTree where
  entries := ([], ⟨.directory, (0o755#12).toFin⟩) :: entries.map fun e => ([e.1], e.2)
  nodup := by
    rw [List.map_cons, List.nodup_cons, List.map_map]
    refine ⟨by simp, ?_⟩
    have hmap : entries.map (Prod.fst ∘ fun e : FileName × Node => ([e.1], e.2)) =
        (entries.map Prod.fst).map ([·]) := by
      rw [List.map_map]
      rfl
    rw [hmap]
    exact h.map List.singleton_injective
  closed path name v hv := by
    refine ⟨⟨.directory, (0o755#12).toFin⟩, ?_, rfl⟩
    have hnil : path = [] := by
      cases List.mem_cons.mp hv with
      | inl heq => exact absurd (congrArg Prod.fst heq) (List.concat_ne_nil name path)
      | inr hin =>
        obtain ⟨e, -, heq⟩ := List.mem_map.mp hin
        have hlength := congrArg List.length (congrArg Prod.fst heq)
        simpa using hlength.symm
    rw [hnil]
    exact List.mem_cons_self

/-- A directory with a symbolic link beside it that leads to it. -/
def linkedTree : FileTree :=
  flatTree [(⟨"d", by decide, by decide⟩, ⟨.directory, (0o755#12).toFin⟩),
    (⟨"l", by decide, by decide⟩, ⟨.symlink ⟨false, [.child ⟨"d", by decide, by decide⟩]⟩, (0o777#12).toFin⟩)] (by decide)

/-- A file with a directory that is missing, behind the link. -/
theorem openForWrite_linkedTree :
    let made := openForWrite (fun _ _ => false) 0o022 linkedTree
      [⟨"l", by decide, by decide⟩, ⟨"e", by decide, by decide⟩] ⟨"c", by decide, by decide⟩
    made.1 = true ∧ made.2.get? [⟨"d", by decide, by decide⟩, ⟨"e", by decide, by decide⟩,
      ⟨"c", by decide, by decide⟩] = some (newFile 0o022) := by
  obtain ⟨hopens, hmade, -⟩ := @openForWrite_makes (fun _ _ => false) 0o022 linkedTree
    [⟨"l", by decide, by decide⟩, ⟨"e", by decide, by decide⟩] ⟨"c", by decide, by decide⟩ (fun _ _ => rfl)
    (by decide)
  have hfile : Destination linkedTree [⟨"l", by decide, by decide⟩, ⟨"e", by decide, by decide⟩]
      ⟨"c", by decide, by decide⟩ [⟨"d", by decide, by decide⟩, ⟨"e", by decide, by decide⟩,
        ⟨"c", by decide, by decide⟩] :=
    .inr ⟨[⟨"l", by decide, by decide⟩], ⟨"e", by decide, by decide⟩, [], [⟨"d", by decide, by decide⟩], rfl,
      by decide, by decide, rfl⟩
  have hopened := hopens.mpr ⟨_, hfile, by decide⟩
  exact ⟨hopened, hmade hopened _ hfile _⟩

/-! ## Moving -/

/-- What `rename` moves to a name in a directory: something that is there, and not on the way to the target. -/
def Movable (tree : FileTree) (source dir : Path) (name : FileName) (found : Path) : Prop :=
  locate tree source = some found ∧ (tree.get? found).isSome = true ∧ tree.IsInner dir ∧ ¬found <+: dir ++ [name]

/-- What was moved: the source is at the target now, and what is elsewhere stays. -/
structure Moved (tree tree' : FileTree) (source target : Path) : Prop where
  below : ∀ rest, tree'.get? (target ++ rest) = tree.get? (source ++ rest)
  gone : ∀ rest, tree'.get? (source ++ rest) = none
  apart : ∀ q, ¬source <+: q → ¬target <+: q → tree'.get? q = tree.get? q

/-- No symbolic link is on a path. -/
def Direct (tree : FileTree) (path : Path) : Prop := ∀ q, q <+: path → ∀ node ∈ tree.get? q, node.link = none

/-- A path without symbolic links leads to a directory when it is one. -/
theorem directory_of_direct (hdirect : Direct tree dir) :
    directory tree dir = if tree.IsInner dir then some dir else none := by
  split_ifs with hinner
  · obtain ⟨node, hnode, hkind⟩ := hinner
    exact directory_eq_some_iff.mpr ⟨⟨_, walk_names [] (fun _ => link_of_directory) hnode
      (link_of_directory hkind)⟩, node, hnode, hkind⟩
  · rw [Option.eq_none_iff_forall_ne_some]
    rintro parent hparent
    obtain ⟨⟨left, hwalk⟩, hthere⟩ := directory_eq_some_iff.mp hparent
    have hsame : parent = dir := walk_direct (fun q hq => hdirect q (by rwa [List.nil_append] at hq)) hwalk
    exact hinner (hsame ▸ hthere)

/-- `rename` to a path where nothing is. -/
theorem sysRename_moved (hrefuses : ∀ call q, refuses call q = false) (hdirect : Direct tree dir)
    (hnone : tree.get? (dir ++ [name]) = none) {found : Path} (hmovable : Movable tree source dir name found) :
    (sysRename refuses tree source dir name).1 = true ∧
      Moved tree (sysRename refuses tree source dir name).2 found (dir ++ [name]) := by
  obtain ⟨hlocate, hsource, hinner, hapart⟩ := hmovable
  have haway : ¬dir ++ [name] <+: found := by
    intro hbelow
    rw [get?_eq_none_below hbelow hnone] at hsource
    cases hsource
  have hnew : ¬tree.Exists (dir ++ [name]) := get?_eq_none_iff.mp hnone
  have hparent : ∃ u, (dir, u) ∈ tree.entries ∧ u.kind = .directory :=
    hinner.imp fun _ hu => ⟨get?_eq_some_iff.mp hu.1, hu.2⟩
  have hdirectory : directory tree dir = some dir := by rw [directory_of_direct hdirect, if_pos hinner]
  simp only [sysRename, hlocate, hdirectory]
  rw [dif_pos ⟨⟨hsource, hnone, hinner⟩, hapart⟩, hrefuses, if_neg Bool.false_ne_true]
  refine ⟨rfl, get?_move_below hnew hparent hapart, get?_move_source hnew hparent hapart haway, ?_⟩
  intro q hsourceq htargetq
  exact get?_move_apart hnew hparent hapart hsourceq htargetq

/-- `rename` of what it does not find, or to a place that it does not find. -/
theorem sysRename_of_not_movable (hdirect : Direct tree dir) (h : ¬∃ found, Movable tree source dir name found) :
    sysRename refuses tree source dir name = (false, tree) := by
  unfold sysRename
  split
  · rename_i found parent hlocate hdirectory
    rw [directory_of_direct hdirect] at hdirectory
    split at hdirectory
    · rename_i hinner
      cases hdirectory
      rw [dif_neg fun hmove => h ⟨found, hlocate, hmove.1.1, hinner, hmove.2⟩]
    · cases hdirectory
  · rfl

/-- Pruning leaves no link where there was none. -/
theorem Direct.prune (h : Direct tree dir) (target : Path) : Direct (tree.prune target) dir := by
  intro q hq node hnode
  rw [get?_prune] at hnode
  split at hnode
  · cases hnode
  · exact h q hq node hnode

/-- **What `Mv` does,** with calls that succeed and a target that `Rm` can remove, without symbolic links on the way to
it. The target is removed in any case. Then what is found at the source is moved, exactly when it is there still, is
not on the way to the target, and the target is in a directory. -/
theorem mv_moves {fails : Failures} (source dir : Path) (name : FileName)
    (hrefuses : ∀ call q, refuses call q = false) (hsucceeding : Succeeding fails tree)
    (hfree : Free fails tree (dir ++ [name])) (hdirect : Direct tree dir) :
    ∃ ret tree', (∃ enough, ∀ depth ≥ enough, mv refuses tree fails depth source dir name = some (ret, tree')) ∧
      (ret = true ↔ ∃ found, Movable (tree.prune (dir ++ [name])) source dir name found) ∧
      (∀ found, Movable (tree.prune (dir ++ [name])) source dir name found →
        Moved (tree.prune (dir ++ [name])) tree' found (dir ++ [name])) ∧
      (ret = false → tree' = tree.prune (dir ++ [name])) := by
  obtain ⟨k, hwithin⟩ := exists_within tree (dir ++ [name])
  have hmv (depth : ℕ) (hdepth : depth > k) : mv refuses tree fails depth source dir name =
      some (sysRename refuses (tree.prune (dir ++ [name])) source dir name) := by
    rw [mv, rm_removes k tree (dir ++ [name]) hsucceeding hfree hwithin depth hdepth]
    rfl
  have hnone : (tree.prune (dir ++ [name])).get? (dir ++ [name]) = none := by
    rw [get?_prune, if_pos List.prefix_rfl]
  have hpruned := hdirect.prune (dir ++ [name])
  cases hresult : sysRename refuses (tree.prune (dir ++ [name])) source dir name with
  | mk ret tree' =>
    rw [hresult] at hmv
    refine ⟨ret, tree', ⟨k + 1, hmv⟩, ?_⟩
    by_cases hmovable : ∃ found, Movable (tree.prune (dir ++ [name])) source dir name found
    · have hmoved (found : Path) (hfound : Movable (tree.prune (dir ++ [name])) source dir name found) :=
        sysRename_moved hrefuses hpruned hnone hfound
      rw [hresult] at hmoved
      obtain ⟨found, hfound⟩ := hmovable
      have hret := (hmoved found hfound).1
      refine ⟨iff_of_true hret ⟨found, hfound⟩, fun found hfound => (hmoved found hfound).2, fun h => ?_⟩
      cases hret
      cases h
    · rw [sysRename_of_not_movable hpruned hmovable] at hresult
      cases hresult
      exact ⟨iff_of_false Bool.false_ne_true hmovable, fun found hfound => absurd ⟨found, hfound⟩ hmovable,
        fun _ => rfl⟩

/-- The directory, with a file in it, the link to it, and a file beside them. -/
def movingTree : FileTree :=
  (flatTree [(⟨"d", by decide, by decide⟩, ⟨.directory, (0o755#12).toFin⟩),
    (⟨"l", by decide, by decide⟩, ⟨.symlink ⟨false, [.child ⟨"d", by decide, by decide⟩]⟩, (0o777#12).toFin⟩),
    (⟨"t", by decide, by decide⟩, ⟨.regular, (0o600#12).toFin⟩)] (by decide)).insert [⟨"d", by decide, by decide⟩]
      ⟨"f", by decide, by decide⟩ ⟨.regular, (0o644#12).toFin⟩ (get?_eq_none_iff.mp (by decide))
      ⟨⟨.directory, (0o755#12).toFin⟩, get?_eq_some_iff.mp (by decide), rfl⟩

/-- The file in the directory is moved to the one beside it, by its path through the link. -/
theorem mv_movingTree :
    ∃ ret tree', (∃ enough, ∀ depth ≥ enough,
      mv (fun _ _ => false) movingTree (fun _ _ => false) depth
        [⟨"l", by decide, by decide⟩, ⟨"f", by decide, by decide⟩] [] ⟨"t", by decide, by decide⟩ =
          some (ret, tree')) ∧ ret = true ∧
      tree'.get? [⟨"t", by decide, by decide⟩] = some ⟨.regular, (0o644#12).toFin⟩ ∧
      tree'.get? [⟨"d", by decide, by decide⟩, ⟨"f", by decide, by decide⟩] = none := by
  have hfree : Free (fun _ _ => false) movingTree ([] ++ [⟨"t", by decide, by decide⟩]) := by
    intro q node hnode hbelow
    have hget := get?_eq_some_iff.mpr hnode
    obtain ⟨rest, rfl⟩ := hbelow
    cases rest with
    | nil =>
      cases hget
      rintro (hkind | hkind | ⟨hkind, -⟩) <;> cases hkind
    | cons next rest =>
      have hleaf : movingTree.Leaf [⟨"t", by decide, by decide⟩] :=
        leaf_of_not_inner (v := ⟨.regular, (0o600#12).toFin⟩) (get?_eq_some_iff.mp (by decide)) (by decide)
      exact (hleaf next (exists_above ⟨rest, by simp⟩ ⟨node, hnode⟩)).elim
  obtain ⟨ret, tree', hends, hret, hmoved, -⟩ := mv_moves
    [⟨"l", by decide, by decide⟩, ⟨"f", by decide, by decide⟩] [] ⟨"t", by decide, by decide⟩ (fun _ _ => rfl)
    ⟨fun _ _ _ _ => rfl, fun _ _ _ _ => rfl⟩ hfree (by
      intro q hq node hnode
      cases List.prefix_nil.mp hq
      cases hnode
      rfl)
  have hmovable : Movable (movingTree.prune ([] ++ [⟨"t", by decide, by decide⟩]))
      [⟨"l", by decide, by decide⟩, ⟨"f", by decide, by decide⟩] [] ⟨"t", by decide, by decide⟩
      [⟨"d", by decide, by decide⟩, ⟨"f", by decide, by decide⟩] := by
    refine ⟨?_, ?_, ?_, ?_⟩ <;> decide
  obtain ⟨hbelow, hgone, -⟩ := hmoved _ hmovable
  exact ⟨ret, tree', hends, hret.mpr ⟨_, hmovable⟩, hbelow [], hgone []⟩

end Bobliew.FSUtil
