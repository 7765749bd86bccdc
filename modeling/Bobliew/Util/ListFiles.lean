import Bobliew.Util.Rm
import Mathlib.Data.List.Nodup

/-!
# Listing files

`FSUtil::ListAllFile` walks over the directory that a path leads to with all that is below it and notes the regular
files whose names end as asked for. There it goes by `d_type`, so that links are neither followed nor listed, and it
passes over directories that cannot be opened, with what is below them. Every other file is listed, and listed once.
-/

namespace Bobliew.FSUtil

open PathTree

variable (fails : Failures) (tree : FileTree)

/-- The bytes of a name. -/
def nameBytes (text : String) : List UInt8 := text.toUTF8.data.toList

/-- Whether a name ends as asked for. -/
def endsWith (filename subfix : List UInt8) : Bool :=
  if subfix.isEmpty then true
  else if filename.length < subfix.length then false
  else filename.drop (filename.length - subfix.length) == subfix

/-- An entry that is neither of the two has a name that is not the first. -/
theorem entry_ne_self {dName : String} (h : dName ≠ "." ∧ dName ≠ "..") : dName ≠ "." := h.1

/-- Nor the second. -/
theorem entry_ne_parent {dName : String} (h : dName ≠ "." ∧ dName ≠ "..") : dName ≠ ".." := h.2

/-- The loop of `ListAllFile` over the entries of a directory, with the function called for each directory. -/
def listEntries (child : List Path → Path → Option (List Path)) (subfix : List UInt8) (path : Path) :
    List (String × FileKind) → List Path → Option (List Path)
  | [], files => some files
  | (dName, dType) :: rest, files =>
    if h : dName ≠ "." ∧ dName ≠ ".." then
      match dType with
      | .directory => do
        let files ← child files (path ++ [⟨dName, entry_ne_self h, entry_ne_parent h⟩])
        listEntries child subfix path rest files
      | .regular =>
        if endsWith (nameBytes dName) subfix then
          listEntries child subfix path rest (files ++ [path ++ [⟨dName, entry_ne_self h, entry_ne_parent h⟩]])
        else listEntries child subfix path rest files
      | _ => listEntries child subfix path rest files
    else listEntries child subfix path rest files

/-- `FSUtil::ListAllFile`, for trees up to a depth. -/
def listAllFile (subfix : List UInt8) : ℕ → List Path → Path → Option (List Path)
  | 0, _, _ => none
  | depth + 1, files, path =>
    if !access tree path then some files
    else
      match opendir fails tree path with
      | none => some files
      | some dir => listEntries (listAllFile subfix depth) subfix path (readdir tree dir) files

/-- A way from the directory that a path leads to is to a file to list: a regular one, with a name that ends as asked
for, in directories that can be opened. -/
structure ListedBelow (subfix : List UInt8) (path dir below : Path) : Prop where
  strict : below ≠ []
  regular : ∃ node ∈ tree.get? (dir ++ below), node.kind = .regular
  readable : ∀ up, up <+: below → up ≠ below → fails .opendir (path ++ up) = false
  ending : ∀ name ∈ below.getLast?, subfix <:+ nameBytes name.text

/-- The files to list: those below the directory that a path leads to. -/
def Listed (subfix : List UInt8) (path file : Path) : Prop :=
  ∃ dir below, directory tree path = some dir ∧ file = path ++ below ∧ ListedBelow fails tree subfix path dir below

variable {fails tree} {subfix : List UInt8} {path dir : Path}

/-- A name ends as asked for. -/
theorem endsWith_iff {filename : List UInt8} : endsWith filename subfix = true ↔ subfix <:+ filename := by
  unfold endsWith
  split_ifs with hempty hshort
  · rw [List.isEmpty_iff.mp hempty]
    exact ⟨fun _ => List.nil_suffix, fun _ => rfl⟩
  · constructor
    · intro h
      cases h
    · intro h
      exact absurd h.length_le (Nat.not_le.mpr hshort)
  · rw [beq_iff_eq]
    constructor
    · intro h
      rw [← h]
      exact List.drop_suffix _ _
    · intro h
      exact (List.suffix_iff_eq_drop.mp h).symm

/-- The ways that one entry of a directory adds, when each directory adds its own. -/
def listedBy (tree : FileTree) (below : FileName → List Path) (subfix : List UInt8) (dir : Path) (name : FileName) :
    List Path :=
  match (tree.get? (dir ++ [name])).map Node.kind with
  | some .directory => (below name).map (name :: ·)
  | some .regular => if endsWith (nameBytes name.text) subfix then [[name]] else []
  | _ => []

/-- The loop adds what each entry adds. -/
theorem listEntries_eq {child : List Path → Path → Option (List Path)} {below : FileName → List Path}
    (names : List FileName) (hexists : ∀ name ∈ names, tree.Exists (dir ++ [name]))
    (hchild : ∀ name ∈ names, (∃ node ∈ tree.get? (dir ++ [name]), node.kind = .directory) → ∀ files,
      child files (path ++ [name]) = some (files ++ (below name).map (path ++ [name] ++ ·)))
    (files : List Path) :
    listEntries child subfix path
        (names.map fun name => (name.text, ((tree.get? (dir ++ [name])).map Node.kind).getD .regular)) files =
      some (files ++ (names.flatMap (listedBy tree below subfix dir)).map (path ++ ·)) := by
  induction names generalizing files with
  | nil => simp [listEntries]
  | cons name names ih =>
    have hrest := ih (fun n hn => hexists n (List.mem_cons_of_mem name hn)) fun n hn =>
      hchild n (List.mem_cons_of_mem name hn)
    obtain ⟨node, hnode⟩ := hexists name List.mem_cons_self
    have hget := get?_eq_some_iff.mpr hnode
    have hname : (⟨name.text, name.ne_self, name.ne_parent⟩ : FileName) = name := rfl
    have hbelow := hchild name List.mem_cons_self
    rw [List.map_cons, listEntries, dif_pos ⟨name.ne_self, name.ne_parent⟩, List.flatMap_cons, List.map_append]
    simp only [listedBy, hget, Option.map_some, Option.getD_some, hname]
    cases hkind : node.kind with
    | directory =>
      have hway : (below name).map (path ++ [name] ++ ·) = ((below name).map (name :: ·)).map (path ++ ·) := by
        rw [List.map_map]
        exact List.map_congr_left fun way _ => (List.append_cons path name way).symm
      rw [hbelow ⟨node, hget, hkind⟩ files, Option.bind_eq_bind, Option.bind_some, hrest, List.append_assoc, hway]
    | regular =>
      dsimp only
      split_ifs
      · rw [hrest, List.append_assoc]
        rfl
      · rw [hrest]
        rfl
    | _ => exact hrest files

/-- The names in a directory differ. -/
theorem nodup_names (tree : FileTree) (path : Path) : (tree.names path).Nodup := by
  have hnames : tree.names path = (tree.entries.map Prod.fst).filterMap fun p =>
      if p.dropLast = path then p.getLast? else none := by
    rw [names, List.filterMap_map]
    rfl
  rw [hnames]
  refine tree.nodup.filterMap fun p q name hp hq => ?_
  have hpath : ∀ {p : Path}, name ∈ (if p.dropLast = path then p.getLast? else none) → p = path ++ [name] := by
    intro p hp
    split at hp
    · rename_i hparent
      obtain ⟨rest, rfl⟩ := List.getLast?_eq_some_iff.mp hp
      rw [List.dropLast_concat] at hparent
      rw [hparent]
    · cases hp
  rw [hpath hp, hpath hq]

/-- **A way to a file to list,** by its first name: it is that of the file, or that of a directory with the rest of
the way below it. -/
theorem listedBelow_cons_iff {name : FileName} {rest : Path} (hopen : fails .opendir path = false) :
    ListedBelow fails tree subfix path dir (name :: rest) ↔
      if rest = [] then
        (∃ node ∈ tree.get? (dir ++ [name]), node.kind = .regular) ∧ endsWith (nameBytes name.text) subfix = true
      else ListedBelow fails tree subfix (path ++ [name]) (dir ++ [name]) rest := by
  split_ifs with hrest
  · subst hrest
    rw [endsWith_iff]
    constructor
    · intro h
      exact ⟨h.regular, h.ending name rfl⟩
    · rintro ⟨hregular, hending⟩
      refine ⟨List.cons_ne_nil name [], hregular, fun up hup hne => ?_, fun last hlast => ?_⟩
      · have hup' : up <+: [] ++ [name] := hup
        have hnil := (List.prefix_concat_iff.mp hup').resolve_left hne
        rw [List.prefix_nil.mp hnil, List.append_nil]
        exact hopen
      · cases hlast
        exact hending
  · constructor
    · intro h
      refine ⟨hrest, ?_, fun up hup hne => ?_, fun last hlast => ?_⟩
      · rw [← List.append_cons]
        exact h.regular
      · rw [← List.append_cons]
        exact h.readable (name :: up) (List.cons_prefix_cons.mpr ⟨rfl, hup⟩) fun heq => hne (List.cons.inj heq).2
      · exact h.ending last (by rwa [List.getLast?_cons_of_ne_nil hrest])
    · intro h
      refine ⟨List.cons_ne_nil name rest, ?_, fun up hup hne => ?_, fun last hlast => ?_⟩
      · rw [List.append_cons]
        exact h.regular
      · cases up with
        | nil =>
          rw [List.append_nil]
          exact hopen
        | cons first up =>
          obtain ⟨rfl, hrestUp⟩ := List.cons_prefix_cons.mp hup
          rw [List.append_cons]
          exact h.readable up hrestUp fun heq => hne (congrArg (first :: ·) heq)
      · rw [List.getLast?_cons_of_ne_nil hrest] at hlast
        exact h.ending last hlast

/-- The ways that an entry adds. -/
theorem mem_listedBy_iff {below : FileName → List Path} {name : FileName} {way : Path} :
    way ∈ listedBy tree below subfix dir name ↔ ∃ rest, way = name :: rest ∧
      ((∃ node ∈ tree.get? (dir ++ [name]), node.kind = .directory) ∧ rest ∈ below name ∨
        rest = [] ∧ (∃ node ∈ tree.get? (dir ++ [name]), node.kind = .regular) ∧
          endsWith (nameBytes name.text) subfix = true) := by
  unfold listedBy
  cases hget : tree.get? (dir ++ [name]) with
  | none => simp
  | some node =>
    cases hkind : node.kind with
    | directory =>
      simp only [Option.map_some, hkind, List.mem_map]
      constructor
      · rintro ⟨rest, hrest, rfl⟩
        exact ⟨rest, rfl, .inl ⟨⟨node, rfl, hkind⟩, hrest⟩⟩
      · rintro ⟨rest, rfl, ⟨_, hrest⟩ | ⟨_, ⟨found, hfound, hregular⟩, _⟩⟩
        · exact ⟨rest, hrest, rfl⟩
        · cases hfound
          cases hkind.symm.trans hregular
    | regular =>
      simp only [Option.map_some, hkind]
      split_ifs with hends <;> simp [hkind, hends]
    | _ => simp [hkind]

/-- The ways to the files to list are those that the entries add. -/
theorem listedBelow_iff (hopen : fails .opendir path = false) {below : FileName → List Path}
    (hbelow : ∀ name, (∃ node ∈ tree.get? (dir ++ [name]), node.kind = .directory) → ∀ rest,
      rest ∈ below name ↔ ListedBelow fails tree subfix (path ++ [name]) (dir ++ [name]) rest) (way : Path) :
    way ∈ (tree.names dir).flatMap (listedBy tree below subfix dir) ↔ ListedBelow fails tree subfix path dir way := by
  rw [List.mem_flatMap]
  constructor
  · rintro ⟨name, _, hway⟩
    obtain ⟨rest, rfl, ⟨hdir, hrest⟩ | ⟨hnil, hfile⟩⟩ := mem_listedBy_iff.mp hway
    · have hlisted := (hbelow name hdir rest).mp hrest
      rw [listedBelow_cons_iff hopen, if_neg hlisted.strict]
      exact hlisted
    · rw [listedBelow_cons_iff hopen, if_pos hnil]
      exact hfile
  · intro h
    cases way with
    | nil => exact absurd rfl h.strict
    | cons name rest =>
      obtain ⟨node, hnode, -⟩ := h.regular
      have hexists : tree.Exists (dir ++ [name]) :=
        exists_above ⟨rest, (List.append_cons dir name rest).symm⟩ ⟨node, get?_eq_some_iff.mp hnode⟩
      refine ⟨name, mem_names_iff.mpr hexists, mem_listedBy_iff.mpr ⟨rest, rfl, ?_⟩⟩
      rw [listedBelow_cons_iff hopen] at h
      split_ifs at h with hrest
      · exact .inr ⟨hrest, h⟩
      · -- What has something below it is a directory.
        obtain ⟨next, more, rfl⟩ := List.exists_cons_of_ne_nil hrest
        obtain ⟨found, hfound, -⟩ := h.regular
        obtain ⟨w, hw⟩ := exists_above (show dir ++ [name] ++ [next] <+: dir ++ [name] ++ next :: more from
          ⟨more, by simp⟩) ⟨found, get?_eq_some_iff.mp hfound⟩
        have hdir := isInner_of_get?_concat (get?_eq_some_iff.mpr hw)
        exact .inl ⟨hdir, (hbelow name hdir _).mpr h⟩

/-- What is found below a directory, within a number of levels. -/
theorem exists_found (fails : Failures) (tree : FileTree) (subfix : List UInt8) (k : ℕ) (path dir : Path)
    (hdir : directory tree path = some dir) (hwithin : Within tree dir k) :
    ∃ found : List Path, (∀ depth > k, ∀ files,
        listAllFile fails tree subfix depth files path = some (files ++ found.map (path ++ ·))) ∧
      found.Nodup ∧ ∀ way, way ∈ found ↔ ListedBelow fails tree subfix path dir way := by
  induction k generalizing path dir with
  | zero =>
    obtain ⟨node, hnode, -⟩ := (directory_eq_some_iff.mp hdir).2
    exact absurd ⟨node, get?_eq_some_iff.mp hnode⟩ hwithin.not_exists
  | succ k ih =>
    have haccess : access tree path = true := access_of_directory hdir
    cases hopen : fails .opendir path with
    | true =>
      refine ⟨[], forall_gt_of_succ fun depth _ files => ?_, List.nodup_nil, fun way => ?_⟩
      · have hnull : opendir fails tree path = none := by rw [opendir, hdir, Option.filter_some, hopen]; rfl
        rw [listAllFile, haccess, hnull]
        simp
      · refine iff_of_false List.not_mem_nil fun h => ?_
        have hread := h.readable [] List.nil_prefix (Ne.symm h.strict)
        rw [List.append_nil, hopen] at hread
        cases hread
    | false =>
      have hopened : opendir fails tree path = some dir := by rw [opendir, hdir, Option.filter_some, hopen]; rfl
      have hnext (name : FileName) : ∃ found : List Path, (∃ node ∈ tree.get? (dir ++ [name]), node.kind = .directory) →
          (∀ depth > k, ∀ files, listAllFile fails tree subfix depth files (path ++ [name]) =
            some (files ++ found.map (path ++ [name] ++ ·))) ∧
          found.Nodup ∧ ∀ way, way ∈ found ↔ ListedBelow fails tree subfix (path ++ [name]) (dir ++ [name]) way := by
        by_cases hsub : ∃ node ∈ tree.get? (dir ++ [name]), node.kind = .directory
        · obtain ⟨found, hfound⟩ := ih (path ++ [name]) (dir ++ [name]) (directory_concat hdir hsub)
            (hwithin.below (List.Subset.refl _) name)
          exact ⟨found, fun _ => hfound⟩
        · exact ⟨[], fun h => absurd h hsub⟩
      choose below hbelow using hnext
      refine ⟨(tree.names dir).flatMap (listedBy tree below subfix dir), forall_gt_of_succ ?_, ?_,
        listedBelow_iff hopen fun name hsub => (hbelow name hsub).2.2⟩
      · intro depth hdepth files
        rw [listAllFile, haccess, hopened]
        simp only [Bool.not_true, Bool.false_eq_true, if_false]
        rw [readdir, listEntries, dif_neg (by simp), listEntries, dif_neg (by simp)]
        exact listEntries_eq (tree.names dir) (fun name hname => mem_names_iff.mp hname)
          (fun name _ hsub => (hbelow name hsub).1 depth hdepth) files
      · refine List.nodup_flatMap.mpr ⟨fun name _ => ?_, (nodup_names tree dir).imp fun {name other} hne => ?_⟩
        · unfold listedBy
          split
          · rename_i hkind
            obtain ⟨node, hnode, hsub⟩ := Option.map_eq_some_iff.mp hkind
            exact (hbelow name ⟨node, hnode, hsub⟩).2.1.map fun _ _ heq => (List.cons.inj heq).2
          · split_ifs
            · exact List.nodup_singleton _
            · exact List.nodup_nil
          · exact List.nodup_nil
        · refine List.disjoint_left.mpr fun way hway hother => ?_
          obtain ⟨rest, rfl, -⟩ := mem_listedBy_iff.mp hway
          obtain ⟨rest', heq, -⟩ := mem_listedBy_iff.mp hother
          exact hne (List.cons.inj heq).1

/-- **What `ListAllFile` finds.** It ends, and has then added the regular files below the directory that the path leads
to, in directories that can be opened and with names that end as asked for, each of them once. -/
theorem listAllFile_lists (fails : Failures) (tree : FileTree) (subfix : List UInt8) (path : Path)
    (files : List Path) :
    ∃ found, (∃ enough, ∀ depth ≥ enough, listAllFile fails tree subfix depth files path = some (files ++ found)) ∧
      found.Nodup ∧ ∀ file, file ∈ found ↔ Listed fails tree subfix path file := by
  cases hdir : directory tree path with
  | none =>
    refine ⟨[], ⟨1, fun depth hdepth => ?_⟩, List.nodup_nil, fun file => ?_⟩
    · obtain ⟨depth, rfl⟩ := Nat.exists_eq_add_of_le' hdepth
      rw [listAllFile, opendir, hdir, Option.filter_none, List.append_nil]
      exact ite_self _
    · refine iff_of_false List.not_mem_nil ?_
      rintro ⟨dir, below, hsome, -⟩
      rw [hdir] at hsome
      cases hsome
  | some dir =>
    obtain ⟨k, hwithin⟩ := exists_within tree dir
    obtain ⟨found, hrun, hnodup, hlisted⟩ := exists_found fails tree subfix k path dir hdir hwithin
    refine ⟨found.map (path ++ ·), ⟨k + 1, fun depth hdepth => hrun depth hdepth files⟩,
      hnodup.map (List.append_right_injective path), fun file => ?_⟩
    rw [List.mem_map]
    constructor
    · rintro ⟨way, hway, rfl⟩
      exact ⟨dir, way, hdir, rfl, (hlisted way).mp hway⟩
    · rintro ⟨other, way, hother, rfl, hway⟩
      cases hdir.symm.trans hother
      exact ⟨way, (hlisted way).mpr hway, rfl⟩

end Bobliew.FSUtil
