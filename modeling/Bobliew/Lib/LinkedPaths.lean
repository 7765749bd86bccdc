import Bobliew.Lib.PathTree

/-!
# Paths through links

Some nodes of a tree of paths are links: ways of their own, from the top of the tree or from the node that the link
is in. A walk goes along some steps and follows the links that it meets, up to a number of them. It ends at a node
that is no link, or where nothing is, below an inner node.

A walk along two ways one after the other is the walk along the second from where the first one ends. Nodes that are
added later do not change a walk to a node that was there.
-/

namespace PathTree

/-- A step of a walk. -/
inductive Step (Name : Type*) where
  | self
  | parent
  | child (name : Name)
  deriving DecidableEq, Repr

/-- Where a link leads, from the top or from the node that it is in. -/
structure Link (Name : Type*) where
  absolute : Bool
  steps : List (Step Name)
  deriving DecidableEq, Repr

variable {Name V : Type*} {inner : V → Prop} [DecidableEq Name]

/-- The node at a path may have children. -/
def IsInner (tree : PathTree Name V inner) (path : List Name) : Prop := ∃ u ∈ tree.get? path, inner u

/-- All that was in a tree is in another one. -/
def Kept (tree tree' : PathTree Name V inner) : Prop := ∀ path v, tree.get? path = some v → tree'.get? path = some v

section Walk

variable [DecidablePred inner] (tree : PathTree Name V inner) (link : V → Option (Link Name))

/-- A walk with some links left to follow, and what is done from a link on: the links that are left at its end, and
the path there. -/
def walkWith (jump : List Name → List (Step Name) → Option (ℕ × List Name)) (left : ℕ) :
    List Name → List (Step Name) → Option (ℕ × List Name)
  | dir, [] => some (left, dir)
  | dir, .self :: rest => walkWith jump left dir rest
  | dir, .parent :: rest => walkWith jump left dir.dropLast rest
  | dir, .child name :: rest =>
    match tree.get? (dir ++ [name]) with
    | none => if rest = [] then some (left, dir ++ [name]) else none
    | some v =>
      match link v with
      | some l => jump (if l.absolute then [] else dir) (l.steps ++ rest)
      | none => if inner v ∨ rest = [] then walkWith jump left (dir ++ [name]) rest else none

/-- A walk that follows at most a number of links. -/
def walk : ℕ → List Name → List (Step Name) → Option (ℕ × List Name)
  | 0 => walkWith tree link (fun _ _ => none) 0
  | left + 1 => walkWith tree link (walk left) (left + 1)

end Walk

variable {tree tree' : PathTree Name V inner} {path dir : List Name} {name : Name} {v : V}

/-- What is above an inner node is one. -/
theorem IsInner.above {q : List Name} (h : tree.IsInner path) (hbelow : q <+: path) : tree.IsInner q := by
  induction path using List.reverseRecOn with
  | nil => rwa [List.prefix_nil.mp hbelow]
  | append_singleton path name ih =>
    rcases List.prefix_concat_iff.mp hbelow with rfl | hbelow
    · exact h
    · obtain ⟨v, hv, _⟩ := h
      obtain ⟨u, hu, hinner⟩ := tree.closed path name v (get?_eq_some_iff.mp hv)
      exact ih ⟨u, get?_eq_some_iff.mpr hu, hinner⟩ hbelow

/-- What is in front of an inner node is one. -/
theorem IsInner.dropLast (h : tree.IsInner path) : tree.IsInner path.dropLast := h.above (List.dropLast_prefix path)

/-- The node in front of a name is inner when there is something at the name. -/
theorem isInner_of_get?_concat (h : tree.get? (path ++ [name]) = some v) : tree.IsInner path := by
  obtain ⟨u, hu, hinner⟩ := tree.closed path name v (get?_eq_some_iff.mp h)
  exact ⟨u, get?_eq_some_iff.mpr hu, hinner⟩

/-! ## Inserting at a path -/

section Insert

variable [DecidablePred inner]

instance (tree : PathTree Name V inner) (path : List Name) : Decidable (tree.IsInner path) :=
  decidable_of_iff ((tree.get? path).any (fun u => decide (inner u)) = true) (by simp [IsInner, Option.any_eq_true])

/-- The tree with a new node, where nothing is below an inner node. -/
def insert? (tree : PathTree Name V inner) (path : List Name) (v : V) : Option (PathTree Name V inner) :=
  if h : path ≠ [] ∧ tree.get? path = none ∧ tree.IsInner path.dropLast then
    some (tree.insert path.dropLast (path.getLast h.1) v
      (by rw [List.dropLast_append_getLast]; exact get?_eq_none_iff.mp h.2.1)
      (by obtain ⟨u, hu, hinner⟩ := h.2.2; exact ⟨u, get?_eq_some_iff.mp hu, hinner⟩))
  else none

/-- Where a new node can be inserted, and what is there then. -/
theorem insert?_spec (tree : PathTree Name V inner) (path : List Name) (v : V) :
    (path ≠ [] ∧ tree.get? path = none ∧ tree.IsInner path.dropLast ∧ ∃ tree', tree.insert? path v = some tree' ∧
      ∀ q, tree'.get? q = if q = path then some v else tree.get? q) ∨
    ¬(path ≠ [] ∧ tree.get? path = none ∧ tree.IsInner path.dropLast) ∧ tree.insert? path v = none := by
  unfold insert?
  split
  · rename_i h
    refine .inl ⟨h.1, h.2.1, h.2.2, _, rfl, fun q => ?_⟩
    rw [get?_insert, List.dropLast_append_getLast]
  · rename_i h
    exact .inr ⟨h, rfl⟩

/-- A new node at a name below an inner node. -/
theorem insert?_concat (v : V) (hnone : tree.get? (path ++ [name]) = none) (hinner : tree.IsInner path) :
    ∃ tree', tree.insert? (path ++ [name]) v = some tree' ∧
      ∀ q, tree'.get? q = if q = path ++ [name] then some v else tree.get? q := by
  obtain ⟨_, _, _, hadded⟩ | ⟨hno, _⟩ := tree.insert?_spec (path ++ [name]) v
  · exact hadded
  · exact absurd ⟨List.concat_ne_nil name path, hnone, by rwa [List.dropLast_concat]⟩ hno

end Insert

/-! ## Walks -/

variable [DecidablePred inner] {link : V → Option (Link Name)} {left k : ℕ} {steps rest : List (Step Name)}
  {l : Link Name}

/-- A walk is at its end. -/
theorem walk_nil (tree : PathTree Name V inner) (link : V → Option (Link Name)) (left : ℕ) (dir : List Name) :
    tree.walk link left dir [] = some (left, dir) := by
  cases left <;> rfl

/-- A step that stays. -/
theorem walk_self : tree.walk link left dir (.self :: rest) = tree.walk link left dir rest := by
  cases left <;> rfl

/-- A step to the parent. -/
theorem walk_parent : tree.walk link left dir (.parent :: rest) = tree.walk link left dir.dropLast rest := by
  cases left <;> rfl

/-- A step to where nothing is. -/
theorem walk_missing (h : tree.get? (dir ++ [name]) = none) :
    tree.walk link left dir (.child name :: rest) = if rest = [] then some (left, dir ++ [name]) else none := by
  cases left <;> rw [walk, walkWith, h]

/-- A step to a link, when none is left to follow. -/
theorem walk_link_zero (h : tree.get? (dir ++ [name]) = some v) (hlink : link v = some l) :
    tree.walk link 0 dir (.child name :: rest) = none := by
  rw [walk, walkWith, h]
  simp only [hlink]

/-- A step to a link, which is followed. -/
theorem walk_link (h : tree.get? (dir ++ [name]) = some v) (hlink : link v = some l) :
    tree.walk link (left + 1) dir (.child name :: rest) =
      tree.walk link left (if l.absolute then [] else dir) (l.steps ++ rest) := by
  rw [walk, walkWith, h]
  simp only [hlink]

/-- A step to a node that is no link. -/
theorem walk_node (h : tree.get? (dir ++ [name]) = some v) (hlink : link v = none) :
    tree.walk link left dir (.child name :: rest) =
      if inner v ∨ rest = [] then tree.walk link left (dir ++ [name]) rest else none := by
  cases left <;> rw [walk, walkWith, h] <;> simp only [hlink]

omit [DecidablePred inner] in
/-- **Induction over a walk:** first on the links left, then on the steps. -/
@[elab_as_elim]
theorem walk_induction (tree : PathTree Name V inner) (link : V → Option (Link Name))
    {motive : ℕ → List Name → List (Step Name) → Prop}
    (nil : ∀ left dir, motive left dir [])
    (self : ∀ left dir rest, motive left dir rest → motive left dir (.self :: rest))
    (parent : ∀ left dir rest, motive left dir.dropLast rest → motive left dir (.parent :: rest))
    (missing : ∀ left dir name rest, tree.get? (dir ++ [name]) = none → motive left dir (.child name :: rest))
    (last : ∀ dir name rest v l, tree.get? (dir ++ [name]) = some v → link v = some l →
      motive 0 dir (.child name :: rest))
    (linked : ∀ left dir name rest v l, tree.get? (dir ++ [name]) = some v → link v = some l →
      motive left (if l.absolute then [] else dir) (l.steps ++ rest) → motive (left + 1) dir (.child name :: rest))
    (node : ∀ left dir name rest v, tree.get? (dir ++ [name]) = some v → link v = none →
      motive left (dir ++ [name]) rest → motive left dir (.child name :: rest))
    (left : ℕ) (dir : List Name) (steps : List (Step Name)) : motive left dir steps := by
  induction left generalizing dir steps with
  | zero =>
    induction steps generalizing dir with
    | nil => exact nil 0 dir
    | cons step rest ih =>
      cases step with
      | self => exact self 0 dir rest (ih dir)
      | parent => exact parent 0 dir rest (ih _)
      | child name =>
        cases hget : tree.get? (dir ++ [name]) with
        | none => exact missing 0 dir name rest hget
        | some v =>
          cases hlink : link v with
          | none => exact node 0 dir name rest v hget hlink (ih _)
          | some l => exact last dir name rest v l hget hlink
  | succ left ihLeft =>
    induction steps generalizing dir with
    | nil => exact nil _ dir
    | cons step rest ih =>
      cases step with
      | self => exact self _ dir rest (ih dir)
      | parent => exact parent _ dir rest (ih _)
      | child name =>
        cases hget : tree.get? (dir ++ [name]) with
        | none => exact missing _ dir name rest hget
        | some v =>
          cases hlink : link v with
          | none => exact node _ dir name rest v hget hlink (ih _)
          | some l => exact linked left dir name rest v l hget hlink (ihLeft _ _)

/-- **A walk along two ways** goes along the second one from where the first one ends, when that is an inner node. -/
theorem walk_append {more : List (Step Name)} (hmore : more ≠ []) (hroot : tree.IsInner [])
    (hdir : tree.IsInner dir) :
    tree.walk link left dir (steps ++ more) =
      (tree.walk link left dir steps).bind fun e => if tree.IsInner e.2 then tree.walk link e.1 e.2 more else none := by
  induction left, dir, steps using walk_induction tree link with
  | nil left dir => rw [walk_nil, List.nil_append, Option.bind_some, if_pos hdir]
  | self left dir rest ih => rw [List.cons_append, walk_self, walk_self, ih hdir]
  | parent left dir rest ih => rw [List.cons_append, walk_parent, walk_parent, ih hdir.dropLast]
  | missing left dir name rest hnone =>
    have hout : ¬tree.IsInner (dir ++ [name]) := by
      rintro ⟨u, hu, _⟩
      rw [hnone] at hu
      cases hu
    rw [List.cons_append, walk_missing hnone, walk_missing hnone, if_neg (List.append_ne_nil_of_right_ne_nil _ hmore)]
    split_ifs
    · rw [Option.bind_some, if_neg hout]
    · rfl
  | last dir name rest v l hget hlink =>
    rw [List.cons_append, walk_link_zero hget hlink, walk_link_zero hget hlink, Option.bind_none]
  | linked left dir name rest v l hget hlink ih =>
    rw [List.cons_append, walk_link hget hlink, walk_link hget hlink, ← List.append_assoc, ih]
    split_ifs
    · exact hroot
    · exact hdir
  | node left dir name rest v hget hlink ih =>
    rw [List.cons_append, walk_node hget hlink, walk_node hget hlink]
    by_cases hinner : inner v
    · rw [if_pos (.inl hinner), if_pos (.inl hinner), ih ⟨v, hget, hinner⟩]
    · -- Behind a leaf there is no way on.
      have hout : ¬tree.IsInner (dir ++ [name]) := by
        rintro ⟨u, hu, hu'⟩
        cases hget.symm.trans hu
        exact hinner hu'
      rw [if_neg (not_or.mpr ⟨hinner, List.append_ne_nil_of_right_ne_nil _ hmore⟩)]
      split_ifs with hrest
      · rw [hrest.resolve_left hinner, walk_nil, Option.bind_some, if_neg hout]
      · rfl

/-- **Where a walk ends:** at a node that is no link, or where nothing is, below an inner node. -/
theorem walk_end (hlink : ∀ v, inner v → link v = none) (hroot : tree.IsInner []) (hdir : tree.IsInner dir)
    (h : tree.walk link left dir steps = some (k, path)) :
    (∃ v, tree.get? path = some v ∧ link v = none) ∨
      path ≠ [] ∧ tree.get? path = none ∧ tree.IsInner path.dropLast := by
  have hinside {dir : List Name} (hdir : tree.IsInner dir) : ∃ v, tree.get? dir = some v ∧ link v = none := by
    obtain ⟨u, hu, hinner⟩ := hdir
    exact ⟨u, hu, hlink u hinner⟩
  induction left, dir, steps using walk_induction tree link with
  | nil left dir =>
    rw [walk_nil] at h
    cases h
    exact .inl (hinside hdir)
  | self left dir rest ih => exact ih hdir (walk_self.symm.trans h)
  | parent left dir rest ih => exact ih hdir.dropLast (walk_parent.symm.trans h)
  | missing left dir name rest hnone =>
    rw [walk_missing hnone] at h
    split at h
    · cases h
      exact .inr ⟨List.concat_ne_nil name dir, hnone, by rwa [List.dropLast_concat]⟩
    · cases h
  | last dir name rest v l hget hl =>
    rw [walk_link_zero hget hl] at h
    cases h
  | linked left dir name rest v l hget hl ih =>
    rw [walk_link hget hl] at h
    refine ih ?_ h
    split_ifs
    · exact hroot
    · exact hdir
  | node left dir name rest v hget hl ih =>
    rw [walk_node hget hl] at h
    split at h
    · rename_i hgo
      by_cases hinner : inner v
      · exact ih ⟨v, hget, hinner⟩ h
      · rw [hgo.resolve_left hinner, walk_nil] at h
        cases h
        exact .inl ⟨v, hget, hl⟩
    · cases h

/-- **What is added later changes no walk** to a node that was there. -/
theorem Kept.walk (hkept : tree.Kept tree') (h : tree.walk link left dir steps = some (k, path))
    (hpath : tree.get? path = some v) : tree'.walk link left dir steps = some (k, path) := by
  induction left, dir, steps using walk_induction tree link with
  | nil left dir =>
    rw [walk_nil] at h ⊢
    exact h
  | self left dir rest ih => exact walk_self.trans (ih (walk_self.symm.trans h))
  | parent left dir rest ih => exact walk_parent.trans (ih (walk_parent.symm.trans h))
  | missing left dir name rest hnone =>
    rw [walk_missing hnone] at h
    split at h
    · cases h
      rw [hnone] at hpath
      cases hpath
    · cases h
  | last dir name rest v l hget hl =>
    rw [walk_link_zero hget hl] at h
    cases h
  | linked left dir name rest v l hget hl ih =>
    rw [walk_link hget hl] at h
    rw [walk_link (hkept _ v hget) hl]
    exact ih h
  | node left dir name rest v hget hl ih =>
    rw [walk_node hget hl] at h
    rw [walk_node (hkept _ v hget) hl]
    split_ifs at h ⊢
    exact ih h

variable (dir) in
/-- A walk along names without links. -/
theorem walk_names (hlink : ∀ v, inner v → link v = none) {names : List Name}
    (hget : tree.get? (dir ++ names) = some v) (hv : link v = none) :
    tree.walk link left dir (names.map .child) = some (left, dir ++ names) := by
  induction names generalizing dir with
  | nil => rw [List.map_nil, walk_nil, List.append_nil]
  | cons name rest ih =>
    rw [List.append_cons] at hget ⊢
    rw [List.map_cons]
    cases rest with
    | nil =>
      rw [List.append_nil] at hget ⊢
      rw [walk_node hget hv, if_pos (.inr List.map_nil), List.map_nil, walk_nil]
    | cons next rest =>
      have hinner : tree.IsInner (dir ++ [name]) := by
        have hprefix : dir ++ [name] ++ [next] <+: dir ++ [name] ++ next :: rest := ⟨rest, by simp⟩
        obtain ⟨w, hw⟩ := exists_above hprefix ⟨v, get?_eq_some_iff.mp hget⟩
        exact isInner_of_get?_concat (get?_eq_some_iff.mpr hw)
      obtain ⟨u, hu, hu'⟩ := hinner
      rw [walk_node hu (hlink u hu'), if_pos (.inl hu')]
      exact ih _ hget

/-- A walk along names on which there are no links ends at the last one. -/
theorem walk_direct {names : List Name}
    (hlink : ∀ q, q <+: dir ++ names → ∀ v, tree.get? q = some v → link v = none)
    (h : tree.walk link left dir (names.map .child) = some (k, path)) : path = dir ++ names := by
  induction names generalizing dir with
  | nil =>
    rw [List.map_nil, walk_nil] at h
    cases h
    exact (List.append_nil path).symm
  | cons name rest ih =>
    rw [List.append_cons] at hlink ⊢
    rw [List.map_cons] at h
    cases hget : tree.get? (dir ++ [name]) with
    | none =>
      rw [walk_missing hget] at h
      split at h
      · rename_i hrest
        cases h
        rw [List.map_eq_nil_iff.mp hrest, List.append_nil]
      · cases h
    | some v =>
      rw [walk_node hget (hlink _ (List.prefix_append _ rest) v hget)] at h
      split at h
      · exact ih hlink h
      · cases h

end PathTree
