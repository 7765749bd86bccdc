import Bobliew.Config.Registry

/-!
# Which variables a configuration file reaches

`LoadFromYaml` goes over the nodes of a file in document order and passes the text of each to the variable that
its path names. A path is made by joining keys with dots: a key is appended to the path of its map, unless that
path is empty. This is the case at the root, but also under empty keys at the front, which are lost. An empty path
names no variable.

Apart from this, each variable gets the texts of the nodes whose dotted path is its name, in order, and ends with
the conversion of the last one that can be converted. It keeps a value that the conversion compares equal to.
-/

namespace Bobliew

open Http (Bytes asciiText toLower)

namespace Yaml

/-! ## Paths -/

/-- Keys joined by dots. -/
def dotted (keys : List Bytes) : Bytes := List.intercalate (asciiText ['.']) keys

mutual

/-- The nodes below `keys` with the keys on their paths, a node before those below it. -/
def pathsFrom (keys : List Bytes) : Yaml → List (List Bytes × Yaml)
  | .map entries => (keys, .map entries) :: entryPaths keys entries
  | .null => [(keys, .null)]
  | .scalar text => [(keys, .scalar text)]
  | .sequence nodes => [(keys, .sequence nodes)]

/-- The nodes below the entries of a map, entry by entry. -/
def entryPaths (keys : List Bytes) : List (Yaml × Yaml) → List (List Bytes × Yaml)
  | [] => []
  | (key, node) :: rest => pathsFrom (keys ++ [key.scalarText]) node ++ entryPaths keys rest

end

/-- The nodes of a tree with the keys on their paths, in document order. -/
def paths (root : Yaml) : List (List Bytes × Yaml) := root.pathsFrom []

/-- The path of a node in `ListAllMember`: empty keys at its front leave the path empty, and so are lost. -/
def memberPath (keys : List Bytes) : Bytes := dotted (keys.dropWhile fun key => decide (key = []))

/-- Keys of which the first is not empty do not join to nothing. -/
theorem dotted_ne_nil {key : Bytes} (h : key ≠ []) (rest : List Bytes) : dotted (key :: rest) ≠ [] := by
  cases rest <;> simp [dotted, List.intercalate, h]

/-- Joined keys, with one more. -/
theorem dotted_concat {keys : List Bytes} (h : keys ≠ []) (key : Bytes) :
    dotted (keys ++ [key]) = dotted keys ++ asciiText ['.'] ++ key := by
  induction keys with
  | nil => exact absurd rfl h
  | cons first rest ih =>
    cases rest with
    | nil => simp [dotted, List.intercalate]
    | cons second rest =>
      have hrest := ih (List.cons_ne_nil _ _)
      simp only [dotted, List.intercalate, List.cons_append, List.intersperse_cons_cons, List.flatten_cons,
        List.append_assoc] at hrest ⊢
      rw [hrest]

/-- The path of an entry of a map. -/
theorem memberPath_concat (keys : List Bytes) (key : Bytes) :
    memberPath (keys ++ [key]) =
      if memberPath keys = [] then key else memberPath keys ++ asciiText ['.'] ++ key := by
  unfold memberPath
  induction keys with
  | nil =>
    by_cases hkey : key = []
    · simp [hkey, dotted, List.intercalate]
    · simp [hkey, dotted, List.intercalate]
  | cons first rest ih =>
    by_cases hfirst : first = []
    · simp only [List.cons_append, List.dropWhile_cons, hfirst, decide_true, if_true]
      exact ih
    · simp only [List.cons_append, List.dropWhile_cons, hfirst, decide_false, Bool.false_eq_true, if_false]
      rw [if_neg (dotted_ne_nil hfirst rest), ← List.cons_append, dotted_concat (List.cons_ne_nil _ _)]

mutual

/-- Every node is listed with the path of its keys. -/
theorem listAllMember_eq (node : Yaml) (keys : List Bytes) :
    node.listAllMember (memberPath keys) = (node.pathsFrom keys).map fun p => (memberPath p.1, p.2) := by
  cases node with
  | map entries =>
    rw [listAllMember, pathsFrom, listEntries_eq entries keys]
    rfl
  | null => rfl
  | scalar text => rfl
  | sequence nodes => rfl

/-- The nodes of the entries of a map are listed with the paths of their keys. -/
theorem listEntries_eq (entries : List (Yaml × Yaml)) (keys : List Bytes) :
    listEntries (memberPath keys) entries = (entryPaths keys entries).map fun p => (memberPath p.1, p.2) := by
  cases entries with
  | nil => rfl
  | cons entry rest =>
    obtain ⟨key, node⟩ := entry
    rw [listEntries, ← memberPath_concat, entryPaths, List.map_append, listAllMember_eq node, listEntries_eq rest keys]

end

end Yaml

namespace Registry

variable {Ty : Type} {types : VarTypes Ty} {emit : Yaml → Bytes} {reg : Registry types}

/-! ## The calls of `fromString` -/

/-- The calls of `fromString` that `LoadFromYaml` makes: the addresses of the variables and the texts. -/
def fromStringCalls (emit : Yaml → Bytes) (reg : Registry types) (root : Yaml) : List (ℕ × Bytes) :=
  (root.listAllMember []).filterMap fun member =>
    if member.1 = [] then none
    else (reg.lookupBase (member.1.map toLower)).map fun var => (var, member.2.text emit)

/-- Make calls of `fromString`. -/
def fromStringAll (reg : Registry types) (texts : List (ℕ × Bytes)) : Registry types :=
  texts.foldl (fun reg c => reg.fromStringAt c.1 c.2) reg

/-- Loading a file is making these calls. -/
theorem loadFromYaml_eq (emit : Yaml → Bytes) (reg : Registry types) (root : Yaml) :
    reg.loadFromYaml emit root = reg.fromStringAll (reg.fromStringCalls emit root) := by
  suffices h : ∀ (members : List (Bytes × Yaml)) (current : Registry types), current.datas = reg.datas →
      members.foldl (loadMember emit) current = current.fromStringAll (members.filterMap fun member =>
        if member.1 = [] then none
        else (reg.lookupBase (member.1.map toLower)).map fun var => (var, member.2.text emit)) from h _ reg rfl
  intro members
  induction members with
  | nil => intro current _; rfl
  | cons member members ih =>
    intro current hdatas
    rw [List.foldl_cons, ih _ ((loadMember_frame emit current member).1.trans hdatas), List.filterMap_cons, loadMember]
    by_cases hempty : member.1 = []
    · simp [hempty]
    · have hbase : current.lookupBase (member.1.map toLower) = reg.lookupBase (member.1.map toLower) := by
        rw [lookupBase, lookupBase, hdatas]
      rw [if_neg hempty, if_neg hempty, hbase]
      cases reg.lookupBase (member.1.map toLower) <;> rfl

/-- A file makes no variable. -/
theorem length_loadFromYaml (emit : Yaml → Bytes) (reg : Registry types) (root : Yaml) :
    (reg.loadFromYaml emit root).objects.length = reg.objects.length := by
  rw [loadFromYaml_eq, fromStringAll]
  generalize reg.fromStringCalls emit root = texts
  induction texts generalizing reg with
  | nil => rfl
  | cons c texts ih => rw [List.foldl_cons, ih, fromStringAt, List.length_modify]

/-- The texts of the calls for a variable. -/
def textsOf (texts : List (ℕ × Bytes)) (var : ℕ) : List Bytes :=
  (texts.filter fun c => decide (c.1 = var)).map Prod.snd

/-- Calls change a variable by their texts for it, one after the other. -/
theorem objects_fromStringAll (reg : Registry types) (texts : List (ℕ × Bytes)) (var : ℕ) :
    (reg.fromStringAll texts).objects[var]? =
      reg.objects[var]?.map fun object => (textsOf texts var).foldl (fromString types) object := by
  unfold fromStringAll textsOf
  induction texts generalizing reg with
  | nil => simp
  | cons c texts ih =>
    rw [List.foldl_cons, ih, fromStringAt, List.getElem?_modify]
    by_cases hvar : c.1 = var
    · simp [hvar, Function.comp_def]
    · simp [hvar]

/-- Texts change the value of a variable, not its type. -/
theorem exists_foldl_fromString (ty : Ty) (v : types.Val ty) (texts : List Bytes) :
    ∃ w, texts.foldl (fromString types) ⟨ty, v⟩ = ⟨ty, w⟩ := by
  induction texts using List.reverseRecOn with
  | nil => exact ⟨v, rfl⟩
  | append_singleton earlier text ih =>
    obtain ⟨w, hw⟩ := ih
    rw [List.foldl_concat, hw]
    have htype : (fromString types ⟨ty, w⟩ text).1 = ty := fromString_fst _ _
    generalize fromString types ⟨ty, w⟩ text = object at htype
    obtain ⟨ty', w'⟩ := object
    obtain rfl : ty' = ty := htype
    exact ⟨w', rfl⟩

/-- After some texts a variable has the conversion of the last one that can be converted, or a value that it
compares equal to; without one it is as it was. -/
theorem foldl_fromString (ty : Ty) (v : types.Val ty) (texts : List Bytes) :
    match (texts.filterMap (types.fromStr ty)).getLast? with
    | none => texts.foldl (fromString types) ⟨ty, v⟩ = ⟨ty, v⟩
    | some u => ∃ w, texts.foldl (fromString types) ⟨ty, v⟩ = ⟨ty, w⟩ ∧ (w = u ∨ types.beq ty u w = true) := by
  induction texts using List.reverseRecOn with
  | nil => rfl
  | append_singleton earlier text ih =>
    rw [List.filterMap_append, List.getLast?_append, List.foldl_concat]
    cases hconvert : types.fromStr ty text with
    | none =>
      simp only [List.filterMap_cons_none hconvert, List.filterMap_nil, List.getLast?_nil, Option.none_or]
      have hkeep : ∀ w, fromString types ⟨ty, w⟩ text = ⟨ty, w⟩ := fun w => by simp [fromString, hconvert]
      cases hlast : (earlier.filterMap (types.fromStr ty)).getLast? with
      | none =>
        rw [hlast] at ih
        dsimp only at ih ⊢
        rw [ih, hkeep]
      | some u =>
        rw [hlast] at ih
        obtain ⟨w, hw, hequal⟩ := ih
        exact ⟨w, by rw [hw, hkeep], hequal⟩
    | some u =>
      simp only [List.filterMap_cons_some hconvert, List.filterMap_nil, List.getLast?_singleton, Option.some_or]
      obtain ⟨w, hw⟩ := exists_foldl_fromString ty v earlier
      rw [hw]
      unfold fromString
      rw [hconvert]
      dsimp only
      split
      · rename_i hequal
        exact ⟨w, rfl, .inr hequal⟩
      · exact ⟨u, rfl, .inl rfl⟩

/-! ## What a file does -/

/-- The name that a path of keys stands for: its text in lower case. -/
def nameOf (path : List Bytes → Bytes) (keys : List Bytes) : Bytes := (path keys).map toLower

/-- The texts of the nodes whose path is a name, in document order. -/
def textsFor (path : List Bytes → Bytes) (emit : Yaml → Bytes) (root : Yaml) (name : Bytes) : List Bytes :=
  (root.paths.filter fun p => decide (nameOf path p.1 = name)).map fun p => p.2.text emit

/-- The call of `fromString` that a node is for: that of the variable with its name, if the name counts. -/
def callFor (path : List Bytes → Bytes) (counts : Bytes → Bool) (emit : Yaml → Bytes) (reg : Registry types)
    (p : List Bytes × Yaml) : Option (ℕ × Bytes) :=
  if counts (nameOf path p.1) then (reg.lookupBase (nameOf path p.1)).map fun var => (var, p.2.text emit) else none

/-- A file does what its paths say for the names that count: for every node whose path is one of them
`fromString` is called on its variable, in document order, and nothing else is called; such a variable ends with
the last conversion that succeeds, in the given sense of equality, and is as it was without one; all other
variables are as they were. -/
structure LoadsByPath (path : List Bytes → Bytes) (counts : Bytes → Bool)
    (equal : ∀ ty, types.Val ty → types.Val ty → Prop) (emit : Yaml → Bytes) (reg : Registry types) (root : Yaml) :
    Prop where
  calls : reg.fromStringCalls emit root = root.paths.filterMap (callFor path counts emit reg)
  value : ∀ name var ty v, counts name = true → reg.lookupBase name = some var → reg.objects[var]? = some ⟨ty, v⟩ →
    match ((textsFor path emit root name).filterMap (types.fromStr ty)).getLast? with
    | none => (reg.loadFromYaml emit root).objects[var]? = some ⟨ty, v⟩
    | some u => ∃ w, (reg.loadFromYaml emit root).objects[var]? = some ⟨ty, w⟩ ∧ equal ty u w
  others : ∀ var, (∀ name, counts name = true → reg.lookupBase name = some var → textsFor path emit root name = []) →
    (reg.loadFromYaml emit root).objects[var]? = reg.objects[var]?

/-- What happens to a registry: a call, or a `setValue` elsewhere in the program. -/
inductive Step {Ty : Type} (types : VarTypes Ty) where
  | call (c : ConfigCall types)
  | setValue (var : ℕ) (value : (ty : Ty) → types.Val ty → types.Val ty)

/-- `setValue`, without its listeners: a value that compares equal to the old one is not taken. -/
def setValue (types : VarTypes Ty) (object : VarObject types) (v : types.Val object.1) : VarObject types :=
  if types.beq object.1 v object.2 then object else ⟨object.1, v⟩

/-- A step of the program. -/
def step [DecidableEq Ty] (emit : Yaml → Bytes) (reg : Registry types) : Step types → Registry types
  | .call c => (reg.call emit c).1
  | .setValue var value =>
    { reg with objects := reg.objects.modify var fun object => setValue types object (value object.1 object.2) }

/-- The registry after some steps. -/
def afterSteps [DecidableEq Ty] (emit : Yaml → Bytes) (steps : List (Step types)) : Registry types :=
  steps.foldl (step emit) empty

/-- Each variable has one name, and has been made. -/
def Named (reg : Registry types) : Prop :=
  ∀ name var, reg.datas name = some var → var < reg.objects.length ∧ ∀ name', reg.datas name' = some var → name' = name

/-- This is a matter of the names and of the number of variables. -/
theorem Named.of_eq {reg' : Registry types} (h : reg.Named) (hdatas : reg'.datas = reg.datas)
    (hlength : reg'.objects.length = reg.objects.length) : reg'.Named := by
  unfold Named
  rw [hdatas, hlength]
  exact h

/-- A new variable is at an address that no name has yet. -/
theorem Named.register (h : reg.Named) (ty : Ty) (name : Bytes) (v : types.Val ty) :
    (reg.register ty name v).1.Named := by
  unfold Registry.register
  split
  · intro name₁ var hvar
    dsimp only at hvar ⊢
    rw [List.length_append, List.length_singleton]
    by_cases hnew : name₁ = name
    · subst hnew
      rw [Function.update_self] at hvar
      obtain rfl := Option.some.inj hvar
      refine ⟨Nat.lt_succ_self _, fun name₂ hname₂ => ?_⟩
      by_contra hne
      rw [Function.update_of_ne hne] at hname₂
      exact absurd (h name₂ _ hname₂).1 (lt_irrefl _)
    · rw [Function.update_of_ne hnew] at hvar
      obtain ⟨hlt, honly⟩ := h name₁ var hvar
      refine ⟨Nat.lt_succ_of_lt hlt, fun name₂ hname₂ => ?_⟩
      by_cases hnew₂ : name₂ = name
      · subst hnew₂
        rw [Function.update_self] at hname₂
        obtain rfl := Option.some.inj hname₂
        exact absurd hlt (lt_irrefl _)
      · rw [Function.update_of_ne hnew₂] at hname₂
        exact honly name₂ hname₂
  · exact h

/-- A step leaves each variable with one name. -/
theorem Named.step [DecidableEq Ty] (h : reg.Named) (emit : Yaml → Bytes) (s : Step types) :
    (reg.step emit s).Named := by
  cases s with
  | setValue var value => exact h.of_eq rfl (List.length_modify ..)
  | call c =>
    cases c with
    | loadFromYaml root => exact h.of_eq (loadFromYaml_frame root).1 (length_loadFromYaml emit reg root)
    | lookup ty name v =>
      change (reg.lookup ty name v).1.Named
      rcases lookup_cases reg ty name v with ⟨_, _, _, heq⟩ | ⟨_, heq⟩
      · rw [heq]
        exact h
      · rw [heq]
        exact h.register ty name v

/-- Each variable has one name after any steps. -/
theorem named_afterSteps [DecidableEq Ty] (emit : Yaml → Bytes) (steps : List (Step types)) :
    (afterSteps emit steps).Named := by
  induction steps using List.reverseRecOn with
  | nil => exact fun name var h => by cases h
  | append_singleton earlier s ih =>
    rw [afterSteps, List.foldl_concat]
    exact Named.step ih emit s

/-- The calls for a variable are those for its name. -/
theorem textsOf_filterMap (hnamed : reg.Named) (path : List Bytes → Bytes) (counts : Bytes → Bool) {name : Bytes}
    {var : ℕ} (hcounts : counts name = true) (hvar : reg.lookupBase name = some var) (root : Yaml) :
    textsOf (root.paths.filterMap (callFor path counts emit reg)) var = textsFor path emit root name := by
  unfold textsOf textsFor
  induction root.paths with
  | nil => rfl
  | cons p paths ih =>
    by_cases hname : nameOf path p.1 = name
    · have hcall : callFor path counts emit reg p = some (var, p.2.text emit) := by
        simp [callFor, hname, hcounts, hvar]
      rw [List.filterMap_cons_some hcall]
      simp [hname, ih]
    · rw [List.filter_cons_of_neg (by simpa using hname)]
      cases hcall : callFor path counts emit reg p with
      | none => rw [List.filterMap_cons_none hcall, ih]
      | some c =>
        have hother : c.1 ≠ var := by
          rintro rfl
          unfold callFor at hcall
          split at hcall
          · obtain ⟨var', hvar', rfl⟩ := Option.map_eq_some_iff.mp hcall
            exact hname ((hnamed name var' hvar).2 _ hvar')
          · cases hcall
        rw [List.filterMap_cons_some hcall, List.filter_cons_of_neg (by simpa using hother), ih]

/-- The calls are those of the nodes whose path is not empty. -/
theorem fromStringCalls_eq (emit : Yaml → Bytes) (reg : Registry types) (root : Yaml) :
    reg.fromStringCalls emit root =
      root.paths.filterMap (callFor Yaml.memberPath (fun name => decide (name ≠ [])) emit reg) := by
  have hmembers := Yaml.listAllMember_eq root []
  rw [show Yaml.memberPath [] = [] from rfl] at hmembers
  rw [fromStringCalls, hmembers, List.filterMap_map]
  refine List.filterMap_congr fun p _ => ?_
  by_cases hempty : Yaml.memberPath p.1 = []
  · simp [callFor, nameOf, hempty]
  · simp [callFor, nameOf, hempty]

/-- A variable that no name that counts calls is not called. -/
theorem textsOf_eq_nil {path : List Bytes → Bytes} {counts : Bytes → Bool} {root : Yaml} {var : ℕ}
    (h : ∀ name, counts name = true → reg.lookupBase name = some var → textsFor path emit root name = []) :
    textsOf (root.paths.filterMap (callFor path counts emit reg)) var = [] := by
  rw [textsOf, List.map_eq_nil_iff, List.filter_eq_nil_iff]
  rintro c hc heq
  have hvar : c.1 = var := by simpa using heq
  obtain ⟨p, hp, hcall⟩ := List.mem_filterMap.mp hc
  unfold callFor at hcall
  split at hcall
  · rename_i hcounts
    obtain ⟨var', hvar', rfl⟩ := Option.map_eq_some_iff.mp hcall
    have hempty := h (nameOf path p.1) hcounts (hvar ▸ hvar')
    rw [textsFor, List.map_eq_nil_iff, List.filter_eq_nil_iff] at hempty
    exact hempty p hp (by simp)
  · cases hcall

/-- **What a file does.** After any lookups, files and changes of values a file does what its paths say, where empty
keys at the front of a path are left out, for all names but the empty one, with values that a variable compares equal
taken as equal. -/
theorem loadsByPath_afterSteps [DecidableEq Ty] (emit : Yaml → Bytes) (steps : List (Step types)) (root : Yaml) :
    LoadsByPath Yaml.memberPath (fun name => decide (name ≠ [])) (fun ty u w => w = u ∨ types.beq ty u w = true) emit
      (afterSteps emit steps) root := by
  have hnamed := named_afterSteps emit steps
  have hcalls := fromStringCalls_eq emit (afterSteps emit steps) root
  refine ⟨hcalls, fun name var ty v hcounts hvar hobject => ?_, fun var hnone => ?_⟩
  · have hload : ((afterSteps emit steps).loadFromYaml emit root).objects[var]? =
        some ((textsFor Yaml.memberPath emit root name).foldl (fromString types) ⟨ty, v⟩) := by
      rw [loadFromYaml_eq, objects_fromStringAll, hcalls,
        textsOf_filterMap hnamed _ (fun name => decide (name ≠ [])) hcounts hvar, hobject]
      rfl
    have hfold := foldl_fromString ty v (textsFor Yaml.memberPath emit root name)
    rw [hload]
    cases hlast : ((textsFor Yaml.memberPath emit root name).filterMap (types.fromStr ty)).getLast? with
    | none =>
      rw [hlast] at hfold
      exact congrArg some hfold
    | some u =>
      rw [hlast] at hfold
      obtain ⟨w, hw, hequal⟩ := hfold
      exact ⟨w, congrArg some hw, hequal⟩
  · rw [loadFromYaml_eq, objects_fromStringAll, hcalls, textsOf_eq_nil hnone]
    simp

/-- Variables that hold the length of a text. -/
def lengths : VarTypes Unit := ⟨fun _ => ℕ, fun _ text => some text.length, fun _ u w => decide (u = w)⟩

/-- Such variables that compare lengths by whether they are even. -/
def parities : VarTypes Unit := ⟨fun _ => ℕ, fun _ text => some text.length, fun _ u w => decide (u % 2 = w % 2)⟩

/-- A variable with no name is not called for the root. One named `.a` is not called for the node `a` below an
empty key. One that compares values by more than their equality keeps its value. -/
theorem not_loadsByPath :
    ¬LoadsByPath Yaml.dotted (fun _ => true) (fun _ u w => w = u) (fun _ => [])
        (afterSteps (fun _ => []) [.call (.lookup () [] (0 : ℕ))] : Registry lengths) (.scalar [49]) ∧
      ¬LoadsByPath Yaml.dotted (fun _ => true) (fun _ u w => w = u) (fun _ => [])
        (afterSteps (fun _ => []) [.call (.lookup () [46, 97] (0 : ℕ))] : Registry lengths)
        (.map [(.scalar [], .map [(.scalar [97], .scalar [49])])]) ∧
      ¬LoadsByPath Yaml.dotted (fun _ => true) (fun _ u w => w = u) (fun _ => [])
        (afterSteps (fun _ => []) [.call (.lookup () [97] (3 : ℕ))] : Registry parities)
        (.map [(.scalar [97], .scalar [49])]) := by
  refine ⟨fun h => ?_, fun h => ?_, fun h => ?_⟩
  · have hcalls := h.calls
    revert hcalls
    decide
  · have hcalls := h.calls
    revert hcalls
    decide
  · obtain ⟨w, hw, rfl⟩ := h.value [97] 0 () (3 : ℕ) rfl (by decide) rfl
    have hkept : (3 : ℕ) = 1 := eq_of_heq (Sigma.mk.inj (Option.some.inj hw)).2
    cases hkept

end Registry

end Bobliew
