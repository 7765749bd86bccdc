import Bobliew.Config.Registry
import Bobliew.Http.Dump

/-!
# From YAML to JSON and back

`YamlToJson` and `JsonToYaml` walk over a tree and build the other one from what they are given. A container
is only made when something is added to it: an empty sequence or map leaves a fresh JSON value null, and null
comes back as the empty string. `JsonToYaml` counts the elements of an array in an `int`.

Everything else comes back: a tree of strings, sequences and maps with distinct keys comes back up to the order
of the maps exactly if none of its containers is empty and no sequence is too long for the counter.
-/

namespace Bobliew

open Http (Bytes asciiText lexLess toInt32)

/-- A `Json::Value`; a number is given by what `asString` makes of it. -/
inductive Json where
  | null
  | boolean (value : Bool)
  | number (text : Bytes)
  | string (text : Bytes)
  | array (elements : List Json)
  | object (members : List (Bytes × Json))

namespace Json

/-- The order in which an object keeps its keys. -/
def keyLess (a b : Bytes) : Bool := lexLess (a.map UInt8.toNat) (b.map UInt8.toNat)

/-- The value that has some elements: no array is made for none. -/
def ofElements : List Json → Json
  | [] => .null
  | elements => .array elements

/-- The value that has some members: no object is made for none. -/
def ofMembers : List (Bytes × Json) → Json
  | [] => .null
  | members => .object members

/-- Give a key of an object a value. -/
def setMember (key : Bytes) (value : Json) : List (Bytes × Json) → List (Bytes × Json)
  | [] => [(key, value)]
  | (k, v) :: members =>
    if keyLess k key then (k, v) :: setMember key value members
    else if keyLess key k then (key, value) :: (k, v) :: members
    else (k, value) :: members

/-- `append`, which throws when the value is neither null nor an array. -/
def append (jnode value : Json) : Option Json :=
  match jnode with
  | .null => some (.array [value])
  | .array elements => some (.array (elements ++ [value]))
  | _ => none

/-- `jnode[key] = value`, which throws when the value is neither null nor an object. -/
def assign (jnode : Json) (key : Bytes) (value : Json) : Option Json :=
  match jnode with
  | .null => some (.object [(key, value)])
  | .object members => some (.object (setMember key value members))
  | _ => none

/-- `asString`, which throws for arrays and objects. -/
def asString : Json → Option Bytes
  | .null => some []
  | .boolean value => some (asciiText (if value then "true" else "false").toList)
  | .number text => some text
  | .string text => some text
  | .array _ => none
  | .object _ => none

end Json

namespace Yaml

/-- `push_back`, which throws when the node is neither null nor a sequence. -/
def pushBack (ynode node : Yaml) : Option Yaml :=
  match ynode with
  | .null => some (.sequence [node])
  | .sequence nodes => some (.sequence (nodes ++ [node]))
  | _ => none

/-- Whether a node is a scalar with this text, as keys are compared. -/
def hasText (key : Bytes) : Yaml → Bool
  | .scalar text => decide (text = key)
  | _ => false

/-- Give a key of a map a node. -/
def setEntry (key : Bytes) (node : Yaml) : List (Yaml × Yaml) → List (Yaml × Yaml)
  | [] => [(.scalar key, node)]
  | (k, old) :: entries => if k.hasText key then (k, node) :: entries else (k, old) :: setEntry key node entries

/-- `ynode[key] = node`, which makes a map of a sequence and throws for a scalar. -/
def assign (ynode : Yaml) (key : Bytes) (node : Yaml) : Option Yaml :=
  match ynode with
  | .null => some (.map [(.scalar key, node)])
  | .sequence nodes =>
    some (.map (setEntry key node (nodes.mapIdx fun i old => (.scalar (asciiText (Nat.toDigits 10 i)), old))))
  | .map entries => some (.map (setEntry key node entries))
  | .scalar _ => none

mutual

/-- `YamlToJson`: the result, and what becomes of `jnode`. -/
def yamlToJson : Yaml → Json → Bool × Json
  | .scalar text, _ => (true, .string text)
  | .sequence nodes, jnode => sequenceToJson nodes jnode
  | .map entries, jnode => mapToJson entries jnode
  | .null, jnode => (true, jnode)

/-- The loop of `YamlToJson` over a sequence. -/
def sequenceToJson : List Yaml → Json → Bool × Json
  | [], jnode => (true, jnode)
  | node :: nodes, jnode =>
    let v := yamlToJson node .null
    if v.1 then
      match jnode.append v.2 with
      | some jnode => sequenceToJson nodes jnode
      | none => (false, jnode)
    else (false, jnode)

/-- The loop of `YamlToJson` over a map. -/
def mapToJson : List (Yaml × Yaml) → Json → Bool × Json
  | [], jnode => (true, jnode)
  | (key, node) :: entries, jnode =>
    let v := yamlToJson node .null
    if v.1 then
      match jnode.assign key.scalarText v.2 with
      | some jnode => mapToJson entries jnode
      | none => (false, jnode)
    else (false, jnode)

end

end Yaml

namespace Json

mutual

/-- `JsonToYaml`: the result, and what becomes of `ynode`. -/
def jsonToYaml : Json → Yaml → Bool × Yaml
  | .array elements, ynode => arrayToYaml (toInt32 elements.length).toNat elements ynode
  | .object members, ynode => objectToYaml members ynode
  | jnode, ynode =>
    match jnode.asString with
    | some text => (true, .scalar text)
    | none => (false, ynode)

/-- The loop of `JsonToYaml` over an array, with the number of elements that are left to its counter. -/
def arrayToYaml : ℕ → List Json → Yaml → Bool × Yaml
  | 0, _, ynode => (true, ynode)
  | _ + 1, [], ynode => (true, ynode)
  | left + 1, element :: elements, ynode =>
    let n := jsonToYaml element .null
    if n.1 then
      match ynode.pushBack n.2 with
      | some ynode => arrayToYaml left elements ynode
      | none => (false, ynode)
    else (false, ynode)

/-- The loop of `JsonToYaml` over an object. -/
def objectToYaml : List (Bytes × Json) → Yaml → Bool × Yaml
  | [], ynode => (true, ynode)
  | (name, member) :: members, ynode =>
    let n := jsonToYaml member .null
    if n.1 then
      match ynode.assign name n.2 with
      | some ynode => objectToYaml members ynode
      | none => (false, ynode)
    else (false, ynode)

end

end Json

namespace Yaml

/-! ## Trees of strings, sequences and maps -/

/-- Trees of strings, sequences, and maps whose keys are distinct strings. -/
inductive Plain : Yaml → Prop
  | scalar (text : Bytes) : Plain (.scalar text)
  | sequence (nodes : List Yaml) : (∀ node ∈ nodes, Plain node) → Plain (.sequence nodes)
  | map (entries : List (Yaml × Yaml)) : (∀ e ∈ entries, e.1 = .scalar e.1.scalarText) →
      (entries.map fun e => e.1.scalarText).Nodup → (∀ e ∈ entries, Plain e.2) → Plain (.map entries)

/-- No sequence or map of a tree is empty, and no sequence has more nodes than an `int` counts. -/
inductive Full : Yaml → Prop
  | scalar (text : Bytes) : Full (.scalar text)
  | sequence (nodes : List Yaml) : nodes ≠ [] → nodes.length < 2 ^ 31 → (∀ node ∈ nodes, Full node) →
      Full (.sequence nodes)
  | map (entries : List (Yaml × Yaml)) : entries ≠ [] → (∀ e ∈ entries, Full e.2) → Full (.map entries)

mutual

/-- Equality of trees, maps without order: as many entries, and each one among the others. -/
def same : Yaml → Yaml → Bool
  | .null, .null => true
  | .scalar text, .scalar text' => decide (text = text')
  | .sequence nodes, .sequence nodes' => sameNodes nodes nodes'
  | .map entries, .map entries' => decide (entries.length = entries'.length) && sameEntries entries entries'
  | _, _ => false

/-- Equality of sequences. -/
def sameNodes : List Yaml → List Yaml → Bool
  | [], [] => true
  | node :: nodes, node' :: nodes' => same node node' && sameNodes nodes nodes'
  | _, _ => false

/-- Each entry is among the others. -/
def sameEntries : List (Yaml × Yaml) → List (Yaml × Yaml) → Bool
  | [], _ => true
  | (key, node) :: entries, entries' =>
    (entries'.any fun e => same key e.1 && same node e.2) && sameEntries entries entries'

end

mutual

/-- What `YamlToJson` makes of a tree. -/
def toJson : Yaml → Json
  | .null => .null
  | .scalar text => .string text
  | .sequence nodes => Json.ofElements (toElements nodes)
  | .map entries => Json.ofMembers (toMembers [] entries)

/-- What `YamlToJson` makes of the nodes of a sequence. -/
def toElements : List Yaml → List Json
  | [] => []
  | node :: nodes => toJson node :: toElements nodes

/-- What `YamlToJson` makes of the entries of a map, in an object that has some members. -/
def toMembers : List (Bytes × Json) → List (Yaml × Yaml) → List (Bytes × Json)
  | members, [] => members
  | members, (key, node) :: entries => toMembers (Json.setMember key.scalarText (toJson node) members) entries

end

/-- The node that has some nodes: no sequence is made for none. -/
def ofNodes : List Yaml → Yaml
  | [] => .null
  | nodes => .sequence nodes

/-- The node that has some entries: no map is made for none. -/
def ofEntries : List (Yaml × Yaml) → Yaml
  | [] => .null
  | entries => .map entries

/-- A tree comes back: both functions succeed on fresh values, and the tree is the one they started from. -/
structure ComesBack (y : Yaml) : Prop where
  toJson_ok : (yamlToJson y .null).1 = true
  toYaml_ok : ((yamlToJson y .null).2.jsonToYaml .null).1 = true
  same_eq : same y ((yamlToJson y .null).2.jsonToYaml .null).2 = true

end Yaml

/-! ## Containers and what is added to them -/

namespace Json

/-- The keys of an object are in a linear order. -/
theorem eq_of_not_keyLess {a b : Bytes} (hab : keyLess a b = false) (hba : keyLess b a = false) : a = b := by
  have hinj : Function.Injective (List.map UInt8.toNat) :=
    List.map_injective_iff.mpr fun x y h => UInt8.toNat_inj.mp h
  refine hinj (le_antisymm (not_lt.mp fun hlt => ?_) (not_lt.mp fun hlt => ?_))
  · rw [keyLess, (Http.lexLess_iff _ _).mpr hlt] at hba
    cases hba
  · rw [keyLess, (Http.lexLess_iff _ _).mpr hlt] at hab
    cases hab

/-- A new key makes a new member. -/
theorem setMember_perm {key : Bytes} (value : Json) {members : List (Bytes × Json)}
    (h : key ∉ members.map Prod.fst) : (setMember key value members).Perm ((key, value) :: members) := by
  induction members with
  | nil => exact List.Perm.refl _
  | cons member members ih =>
    obtain ⟨k, v⟩ := member
    simp only [List.map_cons, List.mem_cons, not_or] at h
    simp only [setMember]
    split
    · exact ((ih h.2).cons (k, v)).trans (List.Perm.swap _ _ _)
    · rename_i hless
      split
      · exact List.Perm.refl _
      · rename_i hless'
        exact absurd (eq_of_not_keyLess (by simpa using hless') (by simpa using hless)) h.1

/-- An object is made for one member or more. -/
theorem ofMembers_of_ne_nil {members : List (Bytes × Json)} (h : members ≠ []) :
    ofMembers members = .object members := by
  obtain ⟨first, rest, rfl⟩ := List.exists_cons_of_ne_nil h
  rfl

/-- Appending to a value with some elements. -/
theorem append_ofElements (elements : List Json) (value : Json) :
    (ofElements elements).append value = some (ofElements (elements ++ [value])) := by
  cases elements with
  | nil => rfl
  | cons element elements => rfl

/-- Giving a key of a value with some members a value. -/
theorem assign_ofMembers (members : List (Bytes × Json)) (key : Bytes) (value : Json) :
    (ofMembers members).assign key value = some (ofMembers (setMember key value members)) := by
  cases members with
  | nil => rfl
  | cons member members =>
    have hne : setMember key value (member :: members) ≠ [] := by
      unfold setMember
      split_ifs <;> simp
    rw [ofMembers_of_ne_nil hne]
    rfl

end Json

namespace Yaml

/-- Pushing to a node with some nodes. -/
theorem pushBack_ofNodes (nodes : List Yaml) (node : Yaml) :
    (ofNodes nodes).pushBack node = some (ofNodes (nodes ++ [node])) := by
  cases nodes with
  | nil => rfl
  | cons first nodes => rfl

/-- Only the scalar with a text has it. -/
theorem eq_of_hasText {key : Bytes} {k : Yaml} (h : k.hasText key = true) : k = .scalar key := by
  cases k with
  | scalar text => rw [of_decide_eq_true h]
  | null => cases h
  | sequence nodes => cases h
  | map entries => cases h

/-- A new key makes a new entry at the end. -/
theorem setEntry_of_notMem {key : Bytes} {node : Yaml} {entries : List (Yaml × Yaml)}
    (h : Yaml.scalar key ∉ entries.map Prod.fst) : setEntry key node entries = entries ++ [(.scalar key, node)] := by
  induction entries with
  | nil => rfl
  | cons entry entries ih =>
    obtain ⟨k, old⟩ := entry
    simp only [List.map_cons, List.mem_cons, not_or] at h
    have hother : ¬ k.hasText key = true := fun htext => h.1 (eq_of_hasText htext).symm
    rw [setEntry, if_neg hother, ih h.2]
    rfl

/-- Giving a new key of a node with some entries a node. -/
theorem assign_ofEntries {entries : List (Yaml × Yaml)} {key : Bytes} (node : Yaml)
    (h : Yaml.scalar key ∉ entries.map Prod.fst) :
    (ofEntries entries).assign key node = some (ofEntries (entries ++ [(.scalar key, node)])) := by
  cases entries with
  | nil => rfl
  | cons entry entries =>
    change some (Yaml.map (setEntry key node (entry :: entries))) = _
    rw [setEntry_of_notMem h]
    rfl

/-! ## To JSON -/

/-- The elements are made node by node. -/
theorem toElements_eq_map (nodes : List Yaml) : toElements nodes = nodes.map toJson := by
  induction nodes with
  | nil => rfl
  | cons node nodes ih => rw [toElements, ih, List.map_cons]

/-- The loop over a sequence appends what it makes of the nodes. -/
theorem sequenceToJson_eq {nodes : List Yaml} (h : ∀ node ∈ nodes, yamlToJson node .null = (true, toJson node))
    (elements : List Json) :
    sequenceToJson nodes (Json.ofElements elements) = (true, Json.ofElements (elements ++ toElements nodes)) := by
  induction nodes generalizing elements with
  | nil => rw [sequenceToJson, toElements, List.append_nil]
  | cons node nodes ih =>
    rw [sequenceToJson, h node List.mem_cons_self]
    simp only [if_true, Json.append_ofElements]
    rw [ih (fun n hn => h n (List.mem_cons_of_mem node hn)), toElements, List.append_assoc]
    rfl

/-- The loop over a map gives its keys what it makes of the nodes. -/
theorem mapToJson_eq {entries : List (Yaml × Yaml)} (h : ∀ e ∈ entries, yamlToJson e.2 .null = (true, toJson e.2))
    (members : List (Bytes × Json)) :
    mapToJson entries (Json.ofMembers members) = (true, Json.ofMembers (toMembers members entries)) := by
  induction entries generalizing members with
  | nil => rw [mapToJson, toMembers]
  | cons entry entries ih =>
    obtain ⟨key, node⟩ := entry
    rw [mapToJson, h (key, node) List.mem_cons_self]
    simp only [if_true, Json.assign_ofMembers]
    rw [ih fun e he => h e (List.mem_cons_of_mem _ he), toMembers]

/-- `YamlToJson` succeeds on a fresh value. -/
theorem yamlToJson_eq {y : Yaml} (h : y.Plain) : yamlToJson y .null = (true, toJson y) := by
  induction h with
  | scalar text => rfl
  | sequence nodes _ ih =>
    rw [yamlToJson, toJson]
    exact sequenceToJson_eq ih []
  | map entries _ _ _ ih =>
    rw [yamlToJson, toJson]
    exact mapToJson_eq ih []

/-- An object made of distinct keys has a member for each, in some order. -/
theorem toMembers_perm {entries : List (Yaml × Yaml)} {members : List (Bytes × Json)}
    (hnodup : (members.map Prod.fst ++ entries.map fun e => e.1.scalarText).Nodup) :
    (toMembers members entries).Perm (members ++ entries.map fun e => (e.1.scalarText, toJson e.2)) := by
  induction entries generalizing members with
  | nil => simp [toMembers]
  | cons entry entries ih =>
    obtain ⟨key, node⟩ := entry
    have hfresh : key.scalarText ∉ members.map Prod.fst := fun hmem =>
      List.disjoint_of_nodup_append hnodup hmem List.mem_cons_self
    have hperm := Json.setMember_perm (toJson node) hfresh
    have hkeys := (hperm.map Prod.fst).append_right (entries.map fun e => e.1.scalarText)
    have hmiddle : (members.map Prod.fst ++ key.scalarText :: entries.map fun e => e.1.scalarText).Perm
        (key.scalarText :: (members.map Prod.fst ++ entries.map fun e => e.1.scalarText)) := List.perm_middle
    rw [toMembers]
    refine (ih ((hkeys.trans hmiddle.symm).nodup_iff.mpr hnodup)).trans ?_
    exact (hperm.append_right _).trans List.perm_middle.symm

/-! ## Back to YAML -/

end Yaml

namespace Json

variable (back : Json → Yaml)

/-- The loop over an array pushes what it makes of the elements that its counter reaches. -/
theorem arrayToYaml_eq {elements : List Json}
    (h : ∀ element ∈ elements, element.jsonToYaml .null = (true, back element))
    (left : ℕ) (nodes : List Yaml) :
    arrayToYaml left elements (Yaml.ofNodes nodes) =
      (true, Yaml.ofNodes (nodes ++ (elements.map back).take left)) := by
  induction elements generalizing left nodes with
  | nil => cases left <;> simp [arrayToYaml]
  | cons element elements ih =>
    cases left with
    | zero => simp [arrayToYaml]
    | succ left =>
      rw [arrayToYaml, h element List.mem_cons_self]
      simp only [if_true, Yaml.pushBack_ofNodes]
      rw [ih fun e he => h e (List.mem_cons_of_mem element he), List.append_assoc]
      rfl

/-- The loop over an object makes an entry for each member. -/
theorem objectToYaml_eq {members : List (Bytes × Json)} (h : ∀ m ∈ members, m.2.jsonToYaml .null = (true, back m.2))
    (entries : List (Yaml × Yaml))
    (hnodup : (entries.map Prod.fst ++ members.map fun m => Yaml.scalar m.1).Nodup) :
    objectToYaml members (Yaml.ofEntries entries) =
      (true, Yaml.ofEntries (entries ++ members.map fun m => (Yaml.scalar m.1, back m.2))) := by
  induction members generalizing entries with
  | nil => simp [objectToYaml]
  | cons member members ih =>
    obtain ⟨name, member⟩ := member
    have hfresh : Yaml.scalar name ∉ entries.map Prod.fst := fun hmem =>
      List.disjoint_of_nodup_append hnodup hmem List.mem_cons_self
    rw [objectToYaml, h (name, member) List.mem_cons_self]
    simp only [if_true, Yaml.assign_ofEntries _ hfresh]
    rw [ih (fun m hm => h m (List.mem_cons_of_mem _ hm)) _ (by simpa using hnodup), List.append_assoc]
    rfl

end Json

namespace Yaml

/-! ## What comes back -/

/-- What `JsonToYaml` makes of what `YamlToJson` made. -/
def returned (y : Yaml) : Yaml := ((toJson y).jsonToYaml .null).2

/-- An `int` counts a length, or fewer than its nodes. -/
theorem toInt32_length (n : ℕ) : (n < 2 ^ 31 ∧ (toInt32 n).toNat = n) ∨ (2 ^ 31 ≤ n ∧ (toInt32 n).toNat < n) := by
  unfold toInt32
  split
  · rcases Nat.lt_or_ge n (2 ^ 31) with h | h
    · exact .inl ⟨h, by omega⟩
    · exact .inr ⟨h, by omega⟩
  · exact .inr ⟨by omega, by omega⟩

/-- Equal sequences are of one length. -/
theorem length_of_sameNodes {nodes nodes' : List Yaml} (h : sameNodes nodes nodes' = true) :
    nodes.length = nodes'.length := by
  induction nodes generalizing nodes' with
  | nil =>
    cases nodes' with
    | nil => rfl
    | cons node' nodes' => cases h
  | cons node nodes ih =>
    cases nodes' with
    | nil => cases h
    | cons node' nodes' =>
      rw [sameNodes, Bool.and_eq_true] at h
      rw [List.length_cons, List.length_cons, ih h.2]

/-- A sequence equals what comes back of its nodes if each node does. -/
theorem sameNodes_map_iff (f : Yaml → Yaml) (nodes : List Yaml) :
    sameNodes nodes (nodes.map f) = true ↔ ∀ node ∈ nodes, same node (f node) = true := by
  induction nodes with
  | nil => simp [sameNodes]
  | cons node nodes ih =>
    rw [List.map_cons, sameNodes, Bool.and_eq_true, ih]
    simp

/-- The entries of a map are among others if each one is. -/
theorem sameEntries_iff (entries entries' : List (Yaml × Yaml)) :
    sameEntries entries entries' = true ↔
      ∀ e ∈ entries, ∃ e' ∈ entries', same e.1 e'.1 = true ∧ same e.2 e'.2 = true := by
  induction entries with
  | nil => simp [sameEntries]
  | cons entry entries ih =>
    obtain ⟨key, node⟩ := entry
    rw [sameEntries, Bool.and_eq_true, ih, List.any_eq_true]
    simp

/-- A sequence comes back if it is neither empty nor too long and its nodes come back. -/
theorem same_sequence_iff (f : Yaml → Yaml) (nodes : List Yaml) :
    same (.sequence nodes) (ofNodes ((nodes.map f).take (toInt32 nodes.length).toNat)) = true ∧ nodes ≠ [] ↔
      nodes ≠ [] ∧ nodes.length < 2 ^ 31 ∧ ∀ node ∈ nodes, same node (f node) = true := by
  rcases toInt32_length nodes.length with ⟨hsmall, hcount⟩ | ⟨hlarge, hcount⟩
  · rw [hcount, List.take_of_length_le (by simp)]
    cases nodes with
    | nil => simp
    | cons node nodes =>
      have hnodes : same (.sequence (node :: nodes)) (ofNodes ((node :: nodes).map f)) =
          sameNodes (node :: nodes) ((node :: nodes).map f) := by
        rw [List.map_cons, ofNodes, same]
        simp
      rw [hnodes, sameNodes_map_iff]
      simp only [ne_eq, reduceCtorEq, not_false_eq_true, and_true, true_and, hsmall]
  · refine iff_of_false (fun h => ?_) fun h => absurd h.2.1 (not_lt.mpr hlarge)
    have hlength : ((nodes.map f).take (toInt32 nodes.length).toNat).length < nodes.length := by
      rw [List.length_take, List.length_map]
      omega
    cases htake : (nodes.map f).take (toInt32 nodes.length).toNat with
    | nil =>
      rw [htake] at h
      simp [ofNodes, same] at h
    | cons first rest =>
      rw [htake] at h hlength
      have hsame : sameNodes nodes (first :: rest) = true := by simpa [ofNodes, same] using h.1
      have heq := length_of_sameNodes hsame
      omega

/-- A map comes back if its nodes do, in whatever order its entries are. -/
theorem same_map_iff (f : Yaml → Yaml) {entries entries' : List (Yaml × Yaml)}
    (hscalar : ∀ e ∈ entries, e.1 = .scalar e.1.scalarText) (hnodup : (entries.map fun e => e.1.scalarText).Nodup)
    (hperm : entries'.Perm (entries.map fun e => (e.1, f e.2))) :
    same (.map entries) (.map entries') = true ↔ ∀ e ∈ entries, same e.2 (f e.2) = true := by
  have hlength : entries.length = entries'.length := by rw [hperm.length_eq, List.length_map]
  rw [same, decide_eq_true hlength, Bool.true_and, sameEntries_iff]
  refine forall₂_congr fun e he => ?_
  constructor
  · rintro ⟨e', he', hkey, hnode⟩
    obtain ⟨e'', he'', rfl⟩ := List.mem_map.mp (hperm.mem_iff.mp he')
    rw [hscalar e he, hscalar e'' he'', same, decide_eq_true_eq] at hkey
    -- Keys are distinct, so the entry with this key is the entry itself.
    have heq : e = e'' := List.inj_on_of_nodup_map hnodup he he'' hkey
    rwa [heq] at hnode ⊢
  · intro hnode
    refine ⟨(e.1, f e.2), hperm.mem_iff.mpr (List.mem_map_of_mem he), ?_, hnode⟩
    rw [hscalar e he, same, decide_eq_true_eq]

/-- The conversion of what a sequence became. -/
theorem jsonToYaml_sequence {nodes : List Yaml} (hne : nodes ≠ [])
    (h : ∀ node ∈ nodes, (toJson node).jsonToYaml .null = (true, returned node)) :
    (toJson (.sequence nodes)).jsonToYaml .null =
      (true, ofNodes ((nodes.map returned).take (toInt32 nodes.length).toNat)) := by
  obtain ⟨first, rest, rfl⟩ := List.exists_cons_of_ne_nil hne
  have helements : ∀ element ∈ toElements (first :: rest),
      element.jsonToYaml .null = (true, (element.jsonToYaml .null).2) := by
    intro element hmem
    rw [toElements_eq_map] at hmem
    obtain ⟨node, hnode, rfl⟩ := List.mem_map.mp hmem
    exact h node hnode
  have hloop := Json.arrayToYaml_eq _ helements (toInt32 (toElements (first :: rest)).length).toNat []
  have harray : toJson (.sequence (first :: rest)) = .array (toElements (first :: rest)) := rfl
  rw [harray, Json.jsonToYaml]
  refine hloop.trans ?_
  rw [toElements_eq_map, List.length_map, List.map_map]
  rfl

/-- The conversion of what a map became: its entries, in the order of their keys. -/
theorem jsonToYaml_map {entries : List (Yaml × Yaml)} (hne : entries ≠ [])
    (hscalar : ∀ e ∈ entries, e.1 = .scalar e.1.scalarText) (hnodup : (entries.map fun e => e.1.scalarText).Nodup)
    (h : ∀ e ∈ entries, (toJson e.2).jsonToYaml .null = (true, returned e.2)) :
    ∃ entries', (toJson (.map entries)).jsonToYaml .null = (true, .map entries') ∧
      entries'.Perm (entries.map fun e => (e.1, returned e.2)) := by
  have hperm : (toMembers [] entries).Perm (entries.map fun e => (e.1.scalarText, toJson e.2)) :=
    toMembers_perm (by simpa using hnodup)
  have hmembers : ∀ m ∈ toMembers [] entries, m.2.jsonToYaml .null = (true, (m.2.jsonToYaml .null).2) := by
    intro m hmem
    obtain ⟨e, he, rfl⟩ := List.mem_map.mp (hperm.mem_iff.mp hmem)
    exact h e he
  have hkeys : ((toMembers [] entries).map fun m => Yaml.scalar m.1).Nodup := by
    refine (hperm.map fun m => Yaml.scalar m.1).nodup_iff.mpr ?_
    rw [List.map_map]
    have hmap := hnodup.map (f := Yaml.scalar) fun a b hab => by injection hab
    rwa [List.map_map] at hmap
  have hloop := Json.objectToYaml_eq (fun j => (j.jsonToYaml .null).2) hmembers [] (by simpa using hkeys)
  have hentries : ((toMembers [] entries).map fun m => (Yaml.scalar m.1, (m.2.jsonToYaml .null).2)).Perm
      (entries.map fun e => (e.1, returned e.2)) := by
    refine (hperm.map fun m => (Yaml.scalar m.1, (m.2.jsonToYaml .null).2)).trans (.of_eq ?_)
    rw [List.map_map]
    exact List.map_congr_left fun e he => Prod.ext (hscalar e he).symm rfl
  refine ⟨_, ?_, hentries⟩
  have hnonempty : toMembers [] entries ≠ [] := by
    intro hnil
    rw [hnil] at hperm
    exact hne (List.map_eq_nil_iff.mp hperm.nil_eq.symm)
  have hobject : toJson (.map entries) = .object (toMembers [] entries) := by
    rw [toJson, Json.ofMembers_of_ne_nil hnonempty]
  obtain ⟨first, rest, heq⟩ := List.exists_cons_of_ne_nil hnonempty
  rw [hobject, Json.jsonToYaml]
  refine hloop.trans ?_
  rw [heq]
  rfl

/-- An empty container becomes null, and null the empty string. -/
theorem returned_empty : returned (.sequence []) = .scalar [] ∧ returned (.map []) = .scalar [] := ⟨rfl, rfl⟩

/-- Converting back succeeds, and the tree comes back if it is full. -/
theorem jsonToYaml_toJson {y : Yaml} (h : y.Plain) :
    (toJson y).jsonToYaml .null = (true, returned y) ∧ (same y (returned y) = true ↔ y.Full) := by
  induction h with
  | scalar text =>
    refine ⟨rfl, iff_of_true ?_ (.scalar text)⟩
    change decide (text = text) = true
    simp
  | sequence nodes _ ih =>
    by_cases hnil : nodes = []
    · subst hnil
      refine ⟨rfl, iff_of_false (by rw [returned_empty.1]; decide) fun hfull => ?_⟩
      cases hfull with
      | sequence _ hne => exact hne rfl
    · have hback := jsonToYaml_sequence hnil fun node hnode => (ih node hnode).1
      have hreturned : returned (.sequence nodes) =
          ofNodes ((nodes.map returned).take (toInt32 nodes.length).toNat) := congrArg Prod.snd hback
      refine ⟨hback.trans (by rw [hreturned]), ?_⟩
      have hsame := same_sequence_iff returned nodes
      rw [← hreturned] at hsame
      constructor
      · intro heq
        obtain ⟨hne, hsmall, hnodes⟩ := hsame.mp ⟨heq, hnil⟩
        exact .sequence nodes hne hsmall fun node hnode => (ih node hnode).2.mp (hnodes node hnode)
      · intro hfull
        cases hfull with
        | sequence _ hne hsmall hnodes =>
          exact (hsame.mpr ⟨hne, hsmall, fun node hnode => (ih node hnode).2.mpr (hnodes node hnode)⟩).1
  | map entries hscalar hnodup _ ih =>
    by_cases hnil : entries = []
    · subst hnil
      refine ⟨rfl, iff_of_false (by rw [returned_empty.2]; decide) fun hfull => ?_⟩
      cases hfull with
      | map _ hne => exact hne rfl
    · obtain ⟨entries', hback, hperm⟩ := jsonToYaml_map hnil hscalar hnodup fun e he => (ih e he).1
      have hreturned : returned (.map entries) = .map entries' := congrArg Prod.snd hback
      refine ⟨hback.trans (by rw [hreturned]), ?_⟩
      rw [hreturned, same_map_iff returned hscalar hnodup hperm]
      constructor
      · intro hnodes
        exact .map entries hnil fun e he => (ih e he).2.mp (hnodes e he)
      · intro hfull
        cases hfull with
        | map _ hne hnodes => exact fun e he => (ih e he).2.mpr (hnodes e he)

/-- **When a tree comes back.** Both conversions succeed on a tree of strings, sequences and maps with distinct
keys, and they give the tree back exactly if no sequence or map in it is empty and no sequence is too long for
the counter. -/
theorem comesBack_iff (y : Yaml) (h : y.Plain) : ComesBack y ↔ y.Full := by
  obtain ⟨hback, hsame⟩ := jsonToYaml_toJson h
  have hjson := yamlToJson_eq h
  constructor
  · intro hcomes
    have heq := hcomes.same_eq
    rw [hjson, hback] at heq
    exact hsame.mp heq
  · intro hfull
    refine ⟨by rw [hjson], by rw [hjson, hback], ?_⟩
    rw [hjson, hback]
    exact hsame.mpr hfull

/-- A map of one key to a sequence of one string comes back. -/
theorem comesBack_nested : ComesBack (.map [(.scalar [97], .sequence [.scalar [98]])]) := by
  have hplain : (Yaml.map [(.scalar [97], .sequence [.scalar [98]])]).Plain := by
    refine .map _ (by simp [scalarText]) (by simp) fun e he => ?_
    obtain rfl := List.mem_singleton.mp he
    refine .sequence _ fun node hnode => ?_
    obtain rfl := List.mem_singleton.mp hnode
    exact .scalar _
  refine (comesBack_iff _ hplain).mpr (.map _ (by simp) fun e he => ?_)
  obtain rfl := List.mem_singleton.mp he
  refine .sequence _ (by simp) (by simp) fun node hnode => ?_
  obtain rfl := List.mem_singleton.mp hnode
  exact .scalar _

/-- An empty sequence comes back as the empty string. -/
theorem not_comesBack_empty : ¬ ∀ y : Yaml, y.Plain → ComesBack y := by
  intro h
  have hback := h (.sequence []) (.sequence [] fun node hnode => absurd hnode List.not_mem_nil)
  exact absurd hback.same_eq (by decide)

end Yaml
end Bobliew
