import Mathlib.Data.List.Induction
import Mathlib.Data.List.Nodup

/-!
# Finite trees as tables of paths

A finite tree is a table with one entry for each path in it, in which every path has its parent in front of its last
name, and the parent is a node that may have children. Leaves can be erased. Pruning takes away a path with all that
is below it.
-/

variable {Name V : Type*} {inner : V → Prop}

/-- A finite tree whose nodes hold values; those with an inner value may have children. -/
@[ext]
structure PathTree (Name V : Type*) (inner : V → Prop) where
  entries : List (List Name × V)
  nodup : (entries.map Prod.fst).Nodup
  closed : ∀ path name v, (path ++ [name], v) ∈ entries → ∃ u, (path, u) ∈ entries ∧ inner u

namespace PathTree

variable {tree : PathTree Name V inner} {path : List Name} {name : Name} {v : V}

/-- A path is in the tree. -/
def Exists (tree : PathTree Name V inner) (path : List Name) : Prop := ∃ v, (path, v) ∈ tree.entries

/-- Nothing is below a path. -/
def Leaf (tree : PathTree Name V inner) (path : List Name) : Prop := ∀ name, ¬tree.Exists (path ++ [name])

/-- Nothing is below a node that may not have children. -/
theorem leaf_of_not_inner (h : (path, v) ∈ tree.entries) (hv : ¬inner v) : tree.Leaf path := by
  rintro name ⟨w, hw⟩
  obtain ⟨u, hu, hinner⟩ := tree.closed path name w hw
  cases List.inj_on_of_nodup_map tree.nodup hu h rfl
  exact hv hinner

/-- All paths on the way to a node are in the tree. -/
theorem exists_above {whole : List Name} (hbelow : path <+: whole) (h : tree.Exists whole) :
    tree.Exists path := by
  obtain ⟨rest, rfl⟩ := hbelow
  induction rest using List.reverseRecOn with
  | nil => rwa [List.append_nil] at h
  | append_singleton rest name ih =>
    rw [← List.append_assoc] at h
    obtain ⟨v, hv⟩ := h
    obtain ⟨u, hu, _⟩ := tree.closed _ name v hv
    exact ih ⟨u, hu⟩

variable [DecidableEq Name]

/-- The value at a path. -/
def get? (tree : PathTree Name V inner) (path : List Name) : Option V :=
  (tree.entries.find? fun e => decide (e.1 = path)).map Prod.snd

/-- The names of the children of a path, in the order of the table. -/
def names (tree : PathTree Name V inner) (path : List Name) : List Name :=
  tree.entries.filterMap fun e => if e.1.dropLast = path then e.1.getLast? else none

/-- The tree without a leaf. -/
def erase (tree : PathTree Name V inner) (path : List Name) (h : tree.Leaf path) : PathTree Name V inner where
  entries := tree.entries.filter fun e => decide (e.1 ≠ path)
  nodup := tree.nodup.sublist (List.filter_sublist.map Prod.fst)
  closed p name v hv := by
    obtain ⟨hin, hne⟩ := List.mem_filter.mp hv
    obtain ⟨u, hu, hinner⟩ := tree.closed p name v hin
    refine ⟨u, List.mem_filter.mpr ⟨hu, ?_⟩, hinner⟩
    refine decide_eq_true fun heq => ?_
    subst heq
    exact h name ⟨v, hin⟩

/-- The tree without a path and all that is below it. -/
def prune (tree : PathTree Name V inner) (path : List Name) : PathTree Name V inner where
  entries := tree.entries.filter fun e => decide (¬path <+: e.1)
  nodup := tree.nodup.sublist (List.filter_sublist.map Prod.fst)
  closed p name v hv := by
    obtain ⟨hin, hoff⟩ := List.mem_filter.mp hv
    obtain ⟨u, hu, hinner⟩ := tree.closed p name v hin
    refine ⟨u, List.mem_filter.mpr ⟨hu, ?_⟩, hinner⟩
    exact decide_eq_true fun hbelow => of_decide_eq_true hoff (hbelow.trans (List.prefix_append p [name]))

/-- The value at a path is the one of its entry. -/
theorem get?_eq_some_iff : tree.get? path = some v ↔ (path, v) ∈ tree.entries := by
  unfold get?
  constructor
  · intro h
    obtain ⟨⟨q, w⟩, hfind, rfl⟩ := Option.map_eq_some_iff.mp h
    have hq : q = path := by simpa using List.find?_some hfind
    subst hq
    exact List.mem_of_find?_eq_some hfind
  · intro h
    cases hfind : tree.entries.find? fun e => decide (e.1 = path) with
    | none =>
      have hno := List.find?_eq_none.mp hfind (path, v) h
      simp at hno
    | some e =>
      have he : e.1 = path := by simpa using List.find?_some hfind
      have heq : e = (path, v) := List.inj_on_of_nodup_map tree.nodup (List.mem_of_find?_eq_some hfind) h he
      rw [heq]
      rfl

/-- There is no value at the paths that are not in the tree. -/
theorem get?_eq_none_iff : tree.get? path = none ↔ ¬tree.Exists path := by
  rw [Option.eq_none_iff_forall_ne_some]
  simp only [Ne, get?_eq_some_iff, Exists, not_exists]

/-- The names are those of the children. -/
theorem mem_names_iff : name ∈ tree.names path ↔ tree.Exists (path ++ [name]) := by
  unfold names Exists
  rw [List.mem_filterMap]
  constructor
  · rintro ⟨⟨q, v⟩, hq, hname⟩
    split at hname
    · rename_i hparent
      obtain ⟨rest, rfl⟩ := List.getLast?_eq_some_iff.mp hname
      rw [List.dropLast_concat] at hparent
      exact ⟨v, hparent ▸ hq⟩
    · cases hname
  · rintro ⟨v, hv⟩
    exact ⟨_, hv, by simp⟩

/-- A path without names below it is a leaf. -/
theorem leaf_of_names (h : tree.names path = []) : tree.Leaf path := by
  intro name hname
  rw [← mem_names_iff, h] at hname
  cases hname

/-- There are no names below a leaf. -/
theorem names_of_leaf (h : tree.Leaf path) : tree.names path = [] :=
  List.eq_nil_iff_forall_not_mem.mpr fun name hname => h name (mem_names_iff.mp hname)

/-- What is left after a leaf was erased. -/
theorem mem_erase_iff {h : tree.Leaf path} {e : List Name × V} :
    e ∈ (tree.erase path h).entries ↔ e ∈ tree.entries ∧ e.1 ≠ path := by
  rw [erase, List.mem_filter, decide_eq_true_iff]

/-- What is left after a path was pruned. -/
theorem mem_prune_iff {e : List Name × V} : e ∈ (tree.prune path).entries ↔ e ∈ tree.entries ∧ ¬path <+: e.1 := by
  rw [prune, List.mem_filter, decide_eq_true_iff]

/-- What is at a path after a pruning. -/
theorem get?_prune (tree : PathTree Name V inner) (path q : List Name) :
    (tree.prune path).get? q = if path <+: q then none else tree.get? q := by
  ext w
  rw [get?_eq_some_iff, mem_prune_iff]
  split_ifs with hbelow
  · exact iff_of_false (fun h => h.2 hbelow) nofun
  · rw [get?_eq_some_iff]
    exact and_iff_left hbelow

/-- The table without a path and all that is below it. -/
theorem entries_prune (tree : PathTree Name V inner) (path : List Name) :
    (tree.prune path).entries = tree.entries.filter fun e => decide (¬path <+: e.1) := rfl

/-- The tree without some paths and all that is below them. -/
def pruneAll (tree : PathTree Name V inner) : List (List Name) → PathTree Name V inner
  | [] => tree
  | path :: paths => (tree.prune path).pruneAll paths

/-- What is left after some paths were pruned. -/
theorem entries_pruneAll (tree : PathTree Name V inner) (paths : List (List Name)) :
    (tree.pruneAll paths).entries = tree.entries.filter fun e => decide (∀ path ∈ paths, ¬path <+: e.1) := by
  induction paths generalizing tree with
  | nil => simp [pruneAll]
  | cons path paths ih =>
    rw [pruneAll, ih, entries_prune, List.filter_filter]
    refine List.filter_congr fun e _ => ?_
    rw [Bool.and_comm, ← Bool.decide_and, decide_eq_decide, List.forall_mem_cons]

/-- Pruning what is not there changes nothing. -/
theorem prune_of_not_exists (h : ¬tree.Exists path) : tree.prune path = tree := by
  ext1
  refine List.filter_eq_self.mpr fun e he => decide_eq_true fun hbelow => ?_
  exact h (exists_above hbelow ⟨e.2, he⟩)

/-- Pruning a leaf erases it. -/
theorem erase_eq_prune (h : tree.Leaf path) : tree.erase path h = tree.prune path := by
  ext1
  refine List.filter_congr fun e he => decide_eq_decide.mpr ?_
  constructor
  · rintro hne ⟨rest, hrest⟩
    cases rest with
    | nil => exact hne (by rw [← hrest, List.append_nil])
    | cons name rest =>
      refine h name (exists_above ?_ ⟨e.2, he⟩)
      rw [← hrest]
      exact ⟨rest, List.append_cons path name rest ▸ rfl⟩
  · rintro hoff rfl
    exact hoff List.prefix_rfl

/-- Once its children are pruned, a path is a leaf. -/
theorem leaf_pruneAll (tree : PathTree Name V inner) (path : List Name) :
    (tree.pruneAll ((tree.names path).map (path ++ [·]))).Leaf path := by
  rintro name ⟨v, hv⟩
  rw [entries_pruneAll, List.mem_filter, decide_eq_true_iff] at hv
  obtain ⟨hin, hoff⟩ := hv
  exact hoff (path ++ [name]) (List.mem_map_of_mem (mem_names_iff.mpr ⟨v, hin⟩)) List.prefix_rfl

/-- Pruning its children first makes no difference for a path. -/
theorem prune_pruneAll (tree : PathTree Name V inner) (path : List Name) :
    (tree.pruneAll ((tree.names path).map (path ++ [·]))).prune path = tree.prune path := by
  ext1
  rw [entries_prune, entries_pruneAll, List.filter_filter, entries_prune]
  refine List.filter_congr fun e _ => ?_
  rw [Bool.and_eq_left_iff_imp, decide_eq_true_iff, decide_eq_true_iff]
  intro hoff child hchild hbelow
  obtain ⟨name, _, rfl⟩ := List.mem_map.mp hchild
  exact hoff ((List.prefix_append path [name]).trans hbelow)

/-- Pruning its children keeps a path. -/
theorem mem_pruneAll (h : (path, v) ∈ tree.entries) (names : List Name) :
    (path, v) ∈ (tree.pruneAll (names.map (path ++ [·]))).entries := by
  rw [entries_pruneAll, List.mem_filter, decide_eq_true_iff]
  refine ⟨h, fun child hchild hbelow => ?_⟩
  obtain ⟨name, _, rfl⟩ := List.mem_map.mp hchild
  have hlength := hbelow.length_le
  rw [List.length_append, List.length_singleton] at hlength
  exact Nat.not_succ_le_self _ hlength

/-- The tree with a new node below an inner one. -/
def insert (tree : PathTree Name V inner) (path : List Name) (name : Name) (v : V)
    (hnew : ¬tree.Exists (path ++ [name])) (hparent : ∃ u, (path, u) ∈ tree.entries ∧ inner u) :
    PathTree Name V inner where
  entries := tree.entries ++ [(path ++ [name], v)]
  nodup := by
    rw [List.map_append, List.map_singleton, List.nodup_append_comm, List.singleton_append, List.nodup_cons]
    refine ⟨fun hin => hnew ?_, tree.nodup⟩
    obtain ⟨⟨q, w⟩, hq, rfl⟩ := List.mem_map.mp hin
    exact ⟨w, hq⟩
  closed p n w h := by
    rcases List.mem_append.mp h with hold | hadded
    · obtain ⟨u, hu, hinner⟩ := tree.closed p n w hold
      exact ⟨u, List.mem_append_left _ hu, hinner⟩
    · obtain ⟨u, hu, hinner⟩ := hparent
      have hpath := (List.append_inj' (congrArg Prod.fst (List.mem_singleton.mp hadded)) rfl).1
      exact ⟨u, List.mem_append_left _ (hpath ▸ hu), hinner⟩

/-- What is at a path after an insertion. -/
theorem get?_insert (hnew : ¬tree.Exists (path ++ [name])) (hparent : ∃ u, (path, u) ∈ tree.entries ∧ inner u)
    (q : List Name) :
    (tree.insert path name v hnew hparent).get? q = if q = path ++ [name] then some v else tree.get? q := by
  ext w
  rw [get?_eq_some_iff, insert, List.mem_append, List.mem_singleton]
  split_ifs with hq
  · subst hq
    constructor
    · intro h
      cases h with
      | inl hold => exact (hnew ⟨w, hold⟩).elim
      | inr heq => exact congrArg some (congrArg Prod.snd heq).symm
    · intro h
      cases h
      exact Or.inr rfl
  · rw [get?_eq_some_iff, or_iff_left]
    exact fun heq => hq (congrArg Prod.fst heq)

/-- Where a path goes when what is at and below `source` is moved to `target`. -/
def moved (source target path : List Name) : List Name :=
  if source <+: path then target ++ path.drop source.length else path

/-- A path below the source goes below the target. -/
theorem moved_append (source target rest : List Name) : moved source target (source ++ rest) = target ++ rest := by
  rw [moved, if_pos (List.prefix_append source rest), List.drop_left]

/-- Other paths stay. -/
theorem moved_of_apart {source target path : List Name} (h : ¬source <+: path) :
    moved source target path = path := if_neg h

/-- The tree with what is at and below a path moved to where nothing is, which is not below it. -/
def move (tree : PathTree Name V inner) (source target : List Name) (name : Name)
    (hnew : ¬tree.Exists (target ++ [name])) (hparent : ∃ u, (target, u) ∈ tree.entries ∧ inner u)
    (hapart : ¬source <+: target ++ [name]) : PathTree Name V inner where
  entries := tree.entries.map fun e => (moved source (target ++ [name]) e.1, e.2)
  nodup := by
    rw [List.map_map]
    have hfree : ∀ e ∈ tree.entries, ¬target ++ [name] <+: e.1 := fun e he hbelow =>
      hnew (exists_above hbelow ⟨e.2, he⟩)
    have hmap : tree.entries.map (Prod.fst ∘ fun e : List Name × V => (moved source (target ++ [name]) e.1, e.2)) =
        (tree.entries.map Prod.fst).map (moved source (target ++ [name])) := by
      rw [List.map_map]
      rfl
    rw [hmap]
    refine tree.nodup.map_on fun p hp q hq heq => ?_
    obtain ⟨e, he, rfl⟩ := List.mem_map.mp hp
    obtain ⟨d, hd, rfl⟩ := List.mem_map.mp hq
    by_cases hsp : source <+: e.1
    · obtain ⟨rest, hrest⟩ := hsp
      rw [← hrest, moved_append] at heq
      by_cases hsq : source <+: d.1
      · obtain ⟨rest', hrest'⟩ := hsq
        rw [← hrest', moved_append] at heq
        rw [← hrest, ← hrest', List.append_cancel_left heq]
      · rw [moved_of_apart hsq] at heq
        exact absurd ⟨rest, heq⟩ (hfree d hd)
    · rw [moved_of_apart hsp] at heq
      by_cases hsq : source <+: d.1
      · obtain ⟨rest', hrest'⟩ := hsq
        rw [← hrest', moved_append] at heq
        exact absurd ⟨rest', heq.symm⟩ (hfree e he)
      · rwa [moved_of_apart hsq] at heq
  closed p n v h := by
    obtain ⟨⟨q, w⟩, hq, heq⟩ := List.mem_map.mp h
    obtain ⟨hpath, rfl⟩ := Prod.mk.inj heq
    dsimp only at hpath
    by_cases hsq : source <+: q
    · obtain ⟨rest, rfl⟩ := hsq
      rw [moved_append] at hpath
      rcases List.eq_nil_or_concat rest with rfl | ⟨rest, last, rfl⟩
      · -- The moved node itself: its parent is the one that the target has.
        obtain ⟨u, hu, hinner⟩ := hparent
        rw [List.append_nil] at hpath
        have hp := (List.append_inj' hpath rfl).1
        refine ⟨u, List.mem_map.mpr ⟨(target, u), hu, ?_⟩, hinner⟩
        rw [moved_of_apart fun hbelow => hapart (hbelow.trans (List.prefix_append target [name])), hp]
      · rw [List.concat_eq_append, ← List.append_assoc] at hpath
        have hp := (List.append_inj' hpath rfl).1
        rw [List.concat_eq_append, ← List.append_assoc] at hq
        obtain ⟨u, hu, hinner⟩ := tree.closed _ last _ hq
        refine ⟨u, List.mem_map.mpr ⟨(source ++ rest, u), hu, ?_⟩, hinner⟩
        rw [moved_append, hp]
    · rw [moved_of_apart hsq] at hpath
      rw [hpath] at hq hsq
      obtain ⟨u, hu, hinner⟩ := tree.closed p n w hq
      refine ⟨u, List.mem_map.mpr ⟨(p, u), hu, ?_⟩, hinner⟩
      rw [moved_of_apart fun hbelow => hsq (hbelow.trans (List.prefix_append p [n]))]

/-- What is moved is below the target. -/
theorem get?_move_below {source target : List Name} (hnew : ¬tree.Exists (target ++ [name]))
    (hparent : ∃ u, (target, u) ∈ tree.entries ∧ inner u) (hapart : ¬source <+: target ++ [name])
    (rest : List Name) :
    (tree.move source target name hnew hparent hapart).get? (target ++ [name] ++ rest) =
      tree.get? (source ++ rest) := by
  ext w
  rw [get?_eq_some_iff, get?_eq_some_iff, move, List.mem_map]
  constructor
  · intro h
    obtain ⟨e, he, heq⟩ := h
    obtain ⟨hpath, rfl⟩ := Prod.mk.inj heq
    by_cases hs : source <+: e.1
    · obtain ⟨rest', hrest'⟩ := hs
      rw [← hrest', moved_append] at hpath
      rwa [← List.append_cancel_left hpath, hrest']
    · rw [moved_of_apart hs] at hpath
      exact (hnew (exists_above (hpath ▸ List.prefix_append _ rest) ⟨e.2, he⟩)).elim
  · intro h
    exact ⟨_, h, by rw [moved_append]⟩

/-- Nothing is left at the source. -/
theorem get?_move_source {source target : List Name} (hnew : ¬tree.Exists (target ++ [name]))
    (hparent : ∃ u, (target, u) ∈ tree.entries ∧ inner u) (hapart : ¬source <+: target ++ [name])
    (haway : ¬target ++ [name] <+: source) (rest : List Name) :
    (tree.move source target name hnew hparent hapart).get? (source ++ rest) = none := by
  rw [get?_eq_none_iff, Exists, move]
  intro h
  obtain ⟨w, hw⟩ := h
  obtain ⟨e, he, heq⟩ := List.mem_map.mp hw
  have hpath := congrArg Prod.fst heq
  dsimp only at hpath
  by_cases hs : source <+: e.1
  · obtain ⟨rest', hrest'⟩ := hs
    rw [← hrest', moved_append] at hpath
    -- Of two prefixes of one path, one is a prefix of the other.
    have htwo := List.prefix_or_prefix_of_prefix (List.prefix_append source rest)
      (hpath ▸ List.prefix_append (target ++ [name]) rest')
    cases htwo with
    | inl hsource => exact hapart hsource
    | inr htarget => exact haway htarget
  · rw [moved_of_apart hs] at hpath
    exact hs (hpath ▸ List.prefix_append source rest)

/-- Other paths stay. -/
theorem get?_move_apart {source target q : List Name} (hnew : ¬tree.Exists (target ++ [name]))
    (hparent : ∃ u, (target, u) ∈ tree.entries ∧ inner u) (hapart : ¬source <+: target ++ [name])
    (hsource : ¬source <+: q) (htarget : ¬target ++ [name] <+: q) :
    (tree.move source target name hnew hparent hapart).get? q = tree.get? q := by
  ext w
  rw [get?_eq_some_iff, get?_eq_some_iff, move, List.mem_map]
  constructor
  · intro h
    obtain ⟨e, he, heq⟩ := h
    obtain ⟨hpath, rfl⟩ := Prod.mk.inj heq
    by_cases hs : source <+: e.1
    · obtain ⟨rest, hrest⟩ := hs
      rw [← hrest, moved_append] at hpath
      exact (htarget (hpath ▸ List.prefix_append _ rest)).elim
    · rw [moved_of_apart hs] at hpath
      rwa [← hpath]
  · intro h
    exact ⟨_, h, by rw [moved_of_apart hsource]⟩

end PathTree
