import Bobliew.Http.Request

/-!
# The registry of configuration variables

`Config::Lookup<T>(name, default_value)` returns the variable registered under a name, or registers a new
one. `LoadFromYaml` walks over a configuration file and gives each variable the text of the node with its
name. Variables are objects at addresses, and the registry maps names to addresses.

When the variable under a name has another type the lookup only logs this and goes on as if the name were
free: the new variable takes the name, and the old one is reached by nothing but the pointers that were
returned before. The registry keeps what it has exactly when no name is used with two types.
-/

namespace Bobliew

open Http (Bytes asciiText toLower)

/-- The types of variables: their values, what `FromStr` makes of a text unless it throws, and `==`. -/
structure VarTypes (Ty : Type) where
  Val : Ty → Type
  fromStr : (ty : Ty) → Bytes → Option (Val ty)
  beq : (ty : Ty) → Val ty → Val ty → Bool

/-- A `YAML::Node`. -/
inductive Yaml where
  | null
  | scalar (text : Bytes)
  | sequence (nodes : List Yaml)
  | map (entries : List (Yaml × Yaml))

namespace Yaml

/-- `Scalar()`. -/
def scalarText : Yaml → Bytes
  | .scalar text => text
  | _ => []

mutual

/-- `ListAllMember`: the nodes with their paths. -/
def listAllMember (path : Bytes) : Yaml → List (Bytes × Yaml)
  | .map entries => (path, .map entries) :: listEntries path entries
  | .null => [(path, .null)]
  | .scalar text => [(path, .scalar text)]
  | .sequence nodes => [(path, .sequence nodes)]

/-- The loop of `ListAllMember` over the entries of a map. -/
def listEntries (path : Bytes) : List (Yaml × Yaml) → List (Bytes × Yaml)
  | [] => []
  | (key, node) :: rest =>
    listAllMember (if path = [] then key.scalarText else path ++ asciiText ['.'] ++ key.scalarText) node ++
      listEntries path rest

end

/-- The text that `LoadFromYaml` passes on for a node; any node but a scalar is written out. -/
def text (emit : Yaml → Bytes) : Yaml → Bytes
  | .scalar text => text
  | node => emit node

end Yaml

/-- The bytes that a name may have: lower-case letters, `.`, `_` and digits. -/
def nameByte (c : UInt8) : Bool :=
  (decide (97 ≤ c.toNat) && decide (c.toNat ≤ 122)) || c == 46 || c == 95 ||
    (decide (48 ≤ c.toNat) && decide (c.toNat ≤ 57))

/-- `find_first_not_of` of these bytes gives `npos`. -/
def validName (name : Bytes) : Bool := name.all nameByte

/-- What `Lookup` throws. -/
inductive ConfigFault where
  | invalidArgument (what : Bytes)
  deriving DecidableEq

/-- A `ConfigVar<T>`: its type and its value. -/
abbrev VarObject {Ty : Type} (types : VarTypes Ty) := (ty : Ty) × types.Val ty

/-- The variables made so far, each at its address, and `GetDatas()`. -/
structure Registry {Ty : Type} (types : VarTypes Ty) where
  objects : List (VarObject types)
  datas : Bytes → Option ℕ

/-- A call of `Lookup` or `LoadFromYaml`. -/
inductive ConfigCall {Ty : Type} (types : VarTypes Ty) where
  | lookup (ty : Ty) (name : Bytes) (defaultValue : types.Val ty)
  | loadFromYaml (root : Yaml)

namespace Registry

variable {Ty : Type} [DecidableEq Ty] {types : VarTypes Ty}

/-- Before the first registration. -/
def empty : Registry types := ⟨[], fun _ => none⟩

/-- `LookupBase`. -/
def lookupBase (reg : Registry types) (name : Bytes) : Option ℕ := reg.datas name

/-- The type of the variable at an address. -/
def typeAt (reg : Registry types) (var : ℕ) : Option Ty := (reg.objects[var]?).map Sigma.fst

/-- `Lookup<T>(name)`: the variable under the name when the cast to `ConfigVar<T>` succeeds. -/
def lookupAs (reg : Registry types) (ty : Ty) (name : Bytes) : Option ℕ :=
  match reg.datas name with
  | none => none
  | some var => if reg.typeAt var = some ty then some var else none

/-- `Lookup<T>(name, default_value)` once no variable was found: check the name and register a new one. -/
def register (reg : Registry types) (ty : Ty) (name : Bytes) (defaultValue : types.Val ty) :
    Registry types × Except ConfigFault ℕ :=
  if validName name then
    (⟨reg.objects ++ [⟨ty, defaultValue⟩], Function.update reg.datas name (some reg.objects.length)⟩,
      .ok reg.objects.length)
  else (reg, .error (.invalidArgument name))

/-- `Lookup<T>(name, default_value)`: a variable of another type is logged and then ignored. -/
def lookup (reg : Registry types) (ty : Ty) (name : Bytes) (defaultValue : types.Val ty) :
    Registry types × Except ConfigFault ℕ :=
  match reg.datas name with
  | some _ =>
    match reg.lookupAs ty name with
    | some var => (reg, .ok var)
    | none => reg.register ty name defaultValue
  | none => reg.register ty name defaultValue

/-- `ConfigVar::fromString` with `setValue`; an exception of `FromStr` is caught. -/
def fromString (types : VarTypes Ty) (object : VarObject types) (text : Bytes) : VarObject types :=
  match types.fromStr object.1 text with
  | none => object
  | some v => if types.beq object.1 v object.2 then object else ⟨object.1, v⟩

/-- `fromString` of the variable at an address. -/
def fromStringAt (reg : Registry types) (var : ℕ) (text : Bytes) : Registry types :=
  { reg with objects := reg.objects.modify var fun object => fromString types object text }

/-- One turn of the loop of `LoadFromYaml`. -/
def loadMember (emit : Yaml → Bytes) (reg : Registry types) (member : Bytes × Yaml) : Registry types :=
  if member.1 = [] then reg
  else
    match reg.lookupBase (member.1.map toLower) with
    | none => reg
    | some var => reg.fromStringAt var (member.2.text emit)

/-- `LoadFromYaml`. -/
def loadFromYaml (emit : Yaml → Bytes) (reg : Registry types) (root : Yaml) : Registry types :=
  (root.listAllMember []).foldl (loadMember emit) reg

/-- Perform a call: the registry afterwards, and what a lookup returns. -/
def call (emit : Yaml → Bytes) (reg : Registry types) :
    ConfigCall types → Registry types × Option (Bytes × Except ConfigFault ℕ)
  | .lookup ty name defaultValue =>
    ((reg.lookup ty name defaultValue).1, some (name, (reg.lookup ty name defaultValue).2))
  | .loadFromYaml root => (reg.loadFromYaml emit root, none)

/-- The registry after a sequence of calls. -/
def after (emit : Yaml → Bytes) (calls : List (ConfigCall types)) : Registry types :=
  calls.foldl (fun reg c => (reg.call emit c).1) empty

/-- In a sequence of calls the variable under a name never changes, every pointer returned for a name is
the one that `LookupBase` returns and `LoadFromYaml` updates in the end, and a lookup that throws changes
nothing. -/
structure Stable (emit : Yaml → Bytes) (calls : List (ConfigCall types)) : Prop where
  registered : ∀ first rest, calls = first ++ rest → ∀ name var,
    (after emit first).lookupBase name = some var → (after emit calls).lookupBase name = some var
  returned : ∀ first c rest, calls = first ++ c :: rest → ∀ name var,
    ((after emit first).call emit c).2 = some (name, .ok var) →
      (after emit calls).lookupBase name = some var ∧
      ∀ member : Bytes × Yaml, member.1 ≠ [] → member.1.map toLower = name →
        (after emit calls).loadMember emit member = (after emit calls).fromStringAt var (member.2.text emit)
  throws : ∀ first c rest, calls = first ++ c :: rest → ∀ name fault,
    ((after emit first).call emit c).2 = some (name, .error fault) →
      ((after emit first).call emit c).1 = after emit first

/-- No name that is valid is looked up with two types. -/
def OneType (calls : List (ConfigCall types)) : Prop :=
  ∀ name ty ty' v v', validName name = true → ConfigCall.lookup ty name v ∈ calls →
    ConfigCall.lookup ty' name v' ∈ calls → ty = ty'

variable {emit : Yaml → Bytes} {reg : Registry types} {calls first rest : List (ConfigCall types)}
  {c : ConfigCall types} {ty : Ty} {name : Bytes} {var : ℕ} {v : types.Val ty}

/-- One more call. -/
theorem after_append_singleton : after emit (calls ++ [c]) = ((after emit calls).call emit c).1 := by
  unfold after
  rw [List.foldl_append]
  rfl

omit [DecidableEq Ty] in
/-- A text changes the value of a variable, not its type. -/
theorem fromString_fst (object : VarObject types) (text : Bytes) : (fromString types object text).1 = object.1 := by
  unfold fromString
  split
  · rfl
  · split <;> rfl

omit [DecidableEq Ty] in
/-- Loading a member leaves the registered addresses and the types of the variables alone. -/
theorem loadMember_frame (emit : Yaml → Bytes) (reg : Registry types) (member : Bytes × Yaml) :
    (reg.loadMember emit member).datas = reg.datas ∧
      ∀ var, (reg.loadMember emit member).typeAt var = reg.typeAt var := by
  unfold loadMember
  split
  · exact ⟨rfl, fun _ => rfl⟩
  · split
    · exact ⟨rfl, fun _ => rfl⟩
    · refine ⟨rfl, fun var => ?_⟩
      simp only [typeAt, fromStringAt, List.getElem?_modify]
      cases reg.objects[var]? with
      | none => rfl
      | some object =>
        refine congrArg some ?_
        dsimp only
        split
        · exact fromString_fst _ _
        · rfl

omit [DecidableEq Ty] in
/-- So does loading a file. -/
theorem loadFromYaml_frame (root : Yaml) :
    (reg.loadFromYaml emit root).datas = reg.datas ∧
      ∀ var, (reg.loadFromYaml emit root).typeAt var = reg.typeAt var := by
  unfold loadFromYaml
  induction root.listAllMember [] generalizing reg with
  | nil => exact ⟨rfl, fun _ => rfl⟩
  | cons member members ih =>
    obtain ⟨hdatas, htypes⟩ := loadMember_frame emit reg member
    obtain ⟨hdatas', htypes'⟩ := @ih (reg.loadMember emit member)
    exact ⟨hdatas'.trans hdatas, fun var => (htypes' var).trans (htypes var)⟩

/-- What a lookup does: it finds the variable, or it registers a new one, or it throws. -/
theorem lookup_cases (reg : Registry types) (ty : Ty) (name : Bytes) (v : types.Val ty) :
    (∃ var, reg.datas name = some var ∧ reg.typeAt var = some ty ∧ reg.lookup ty name v = (reg, .ok var)) ∨
    ((∀ var, reg.datas name = some var → reg.typeAt var ≠ some ty) ∧
      reg.lookup ty name v = reg.register ty name v) := by
  unfold lookup
  cases hdatas : reg.datas name with
  | none =>
    refine Or.inr ⟨fun var hvar => ?_, rfl⟩
    cases hvar
  | some var =>
    by_cases htype : reg.typeAt var = some ty
    · refine Or.inl ⟨var, rfl, htype, ?_⟩
      simp [lookupAs, hdatas, htype]
    · refine Or.inr ⟨fun var' hvar' => ?_, by simp [lookupAs, hdatas, htype]⟩
      rw [← Option.some.inj hvar']
      exact htype

omit [DecidableEq Ty] in
/-- The types of the variables made before stay as they are. -/
theorem typeAt_register (hvar : (reg.typeAt var).isSome = true) :
    (reg.register ty name v).1.typeAt var = reg.typeAt var := by
  unfold register
  split
  · have hlt : var < reg.objects.length := by
      by_contra hge
      rw [typeAt, List.getElem?_eq_none (by omega)] at hvar
      cases hvar
    simp only [typeAt, List.getElem?_append_left hlt]
  · rfl

/-- A call keeps the types of the variables made before. -/
theorem typeAt_call (hvar : reg.typeAt var = some ty) (c : ConfigCall types) :
    (reg.call emit c).1.typeAt var = some ty := by
  cases c with
  | lookup ty' name v =>
    rcases lookup_cases reg ty' name v with ⟨_, _, _, heq⟩ | ⟨_, heq⟩
    · simp only [call, heq]
      exact hvar
    · simp only [call, heq]
      rw [typeAt_register (by rw [hvar]; rfl), hvar]
  | loadFromYaml root =>
    simp only [call]
    rw [(loadFromYaml_frame root).2, hvar]

/-- A lookup that returns has its variable registered with its type. -/
theorem lookup_ok (h : (reg.lookup ty name v).2 = .ok var) :
    (reg.lookup ty name v).1.datas name = some var ∧ (reg.lookup ty name v).1.typeAt var = some ty := by
  rcases lookup_cases reg ty name v with ⟨var', hdatas, htype, heq⟩ | ⟨_, heq⟩
  · rw [heq] at h ⊢
    cases h
    exact ⟨hdatas, htype⟩
  · rw [heq] at h ⊢
    unfold register at h ⊢
    split at h
    · rename_i hvalid
      cases h
      rw [if_pos hvalid]
      simp [typeAt]
    · cases h

/-- A lookup with a valid name returns. -/
theorem lookup_valid (reg : Registry types) (ty : Ty) (v : types.Val ty) (hvalid : validName name = true) :
    ∃ var, (reg.lookup ty name v).2 = .ok var := by
  rcases lookup_cases reg ty name v with ⟨var, _, _, heq⟩ | ⟨_, heq⟩
  · exact ⟨var, by rw [heq]⟩
  · rw [heq, register, if_pos hvalid]
    exact ⟨_, rfl⟩

/-- A lookup that throws changes nothing. -/
theorem lookup_error {fault : ConfigFault} (h : (reg.lookup ty name v).2 = .error fault) :
    (reg.lookup ty name v).1 = reg := by
  rcases lookup_cases reg ty name v with ⟨_, _, _, heq⟩ | ⟨_, heq⟩
  · rw [heq]
  · rw [heq] at h ⊢
    unfold register at h ⊢
    split
    · rename_i hvalid
      rw [if_pos hvalid] at h
      cases h
    · rfl

/-- Every registered variable has a valid name and the type of some lookup of it. -/
def Justified (reg : Registry types) (calls : List (ConfigCall types)) : Prop :=
  ∀ name var, reg.datas name = some var → validName name = true ∧
    ∃ ty v, reg.typeAt var = some ty ∧ ConfigCall.lookup ty name v ∈ calls

/-- A call keeps this. -/
theorem Justified.call (h : Justified reg calls) (c : ConfigCall types) :
    Justified (reg.call emit c).1 (calls ++ [c]) := by
  have hold : ∀ name var, reg.datas name = some var → validName name = true ∧
      ∃ ty v, (reg.call emit c).1.typeAt var = some ty ∧ ConfigCall.lookup ty name v ∈ calls ++ [c] := by
    intro name var hvar
    obtain ⟨hvalid, ty, v, htype, hmem⟩ := h name var hvar
    exact ⟨hvalid, ty, v, typeAt_call htype c, List.mem_append_left _ hmem⟩
  intro name var hvar
  cases c with
  | loadFromYaml root =>
    refine hold name var ?_
    rwa [Registry.call, (loadFromYaml_frame root).1] at hvar
  | lookup ty name' v =>
    rcases lookup_cases reg ty name' v with ⟨_, _, _, heq⟩ | ⟨_, heq⟩
    · refine hold name var ?_
      rwa [Registry.call, heq] at hvar
    · by_cases hname : name = name' ∧ validName name' = true
      · obtain ⟨rfl, hvalid⟩ := hname
        obtain ⟨var', hret⟩ := lookup_valid reg ty v hvalid
        obtain ⟨hdatas, htype⟩ := lookup_ok hret
        have hsame : var' = var := by
          rw [Registry.call, hdatas] at hvar
          exact Option.some.inj hvar
        subst hsame
        exact ⟨hvalid, ty, v, htype, List.mem_append_right _ (List.mem_singleton_self _)⟩
      · refine hold name var ?_
        rw [Registry.call, heq, register] at hvar
        split at hvar
        · rename_i hvalid
          dsimp only at hvar
          rwa [Function.update_of_ne (fun heq => hname ⟨heq, hvalid⟩)] at hvar
        · exact hvar

/-- It holds after every sequence of calls. -/
theorem justified_after (calls : List (ConfigCall types)) : Justified (after emit calls) calls := by
  induction calls using List.reverseRecOn with
  | nil =>
    intro name var hvar
    cases hvar
  | append_singleton calls c ih =>
    rw [after_append_singleton]
    exact ih.call c

/-- A call that agrees with the earlier ones on the types leaves what is registered alone. -/
theorem lookupBase_call (hone : OneType (calls ++ [c])) (hvar : (after emit calls).lookupBase name = some var) :
    (after emit (calls ++ [c])).lookupBase name = some var := by
  rw [after_append_singleton]
  cases c with
  | loadFromYaml root =>
    rw [lookupBase, call, (loadFromYaml_frame root).1]
    exact hvar
  | lookup ty name' v =>
    rcases lookup_cases (after emit calls) ty name' v with ⟨_, _, _, heq⟩ | ⟨hmismatch, heq⟩
    · simp only [call, heq]
      exact hvar
    · have hne : name ≠ name' := by
        rintro rfl
        obtain ⟨hvalid, ty', v', htype, hmem⟩ := justified_after calls name var hvar
        have hsame : ty = ty' := hone name ty ty' v v' hvalid (List.mem_append_right _ (List.mem_singleton_self _))
          (List.mem_append_left _ hmem)
        exact hmismatch var hvar (hsame ▸ htype)
      simp only [call, heq, register]
      split
      · rw [lookupBase]
        dsimp only
        rw [Function.update_of_ne hne]
        exact hvar
      · exact hvar

/-- So do all further calls. -/
theorem lookupBase_after (hone : OneType (first ++ rest))
    (hvar : (after emit first).lookupBase name = some var) :
    (after emit (first ++ rest)).lookupBase name = some var := by
  induction rest using List.reverseRecOn with
  | nil => rwa [List.append_nil]
  | append_singleton rest c ih =>
    rw [← List.append_assoc] at hone ⊢
    refine lookupBase_call hone (ih fun name ty ty' v v' hvalid hmem hmem' => ?_)
    exact hone name ty ty' v v' hvalid (List.mem_append_left _ hmem) (List.mem_append_left _ hmem')

omit [DecidableEq Ty] in
/-- The variable that a member of a file is given to. -/
theorem loadMember_of_lookupBase {member : Bytes × Yaml} (hkey : member.1 ≠ [])
    (hvar : reg.lookupBase (member.1.map toLower) = some var) :
    reg.loadMember emit member = reg.fromStringAt var (member.2.text emit) := by
  rw [loadMember, if_neg hkey, hvar]

/-- In a stable sequence each lookup of a valid name has its type registered in the end. -/
theorem Stable.typeAt (h : Stable emit calls) (hvalid : validName name = true)
    (hmem : ConfigCall.lookup ty name v ∈ calls) :
    ∃ var, (after emit calls).lookupBase name = some var ∧ (after emit calls).typeAt var = some ty := by
  obtain ⟨first, rest, rfl⟩ := List.append_of_mem hmem
  obtain ⟨var, hret⟩ := lookup_valid (after emit first) ty v hvalid
  obtain ⟨_, htype⟩ := lookup_ok hret
  have hreturned := h.returned first _ rest rfl name var (congrArg (fun r => some (name, r)) hret)
  refine ⟨var, hreturned.1, ?_⟩
  have hkeep : ∀ rest, (after emit (first ++ .lookup ty name v :: rest)).typeAt var = some ty := by
    intro rest
    induction rest using List.reverseRecOn with
    | nil =>
      rw [after_append_singleton]
      exact htype
    | append_singleton rest c ih =>
      rw [← List.cons_append, ← List.append_assoc, after_append_singleton]
      exact typeAt_call ih c
  exact hkeep rest

/-- A sequence of calls is stable exactly when no valid name is looked up with two types. -/
theorem stable_iff (emit : Yaml → Bytes) (calls : List (ConfigCall types)) :
    Stable emit calls ↔ OneType calls := by
  constructor
  · intro h name ty ty' v v' hvalid hmem hmem'
    obtain ⟨var, hvar, htype⟩ := h.typeAt hvalid hmem
    obtain ⟨var', hvar', htype'⟩ := h.typeAt hvalid hmem'
    rw [hvar] at hvar'
    rw [← Option.some.inj hvar', htype] at htype'
    exact Option.some.inj htype'
  · intro hone
    refine ⟨?_, ?_, ?_⟩
    · rintro first rest rfl name var hvar
      exact lookupBase_after hone hvar
    · rintro first c rest rfl name var hret
      have hbase : (after emit (first ++ c :: rest)).lookupBase name = some var := by
        rw [List.append_cons] at hone ⊢
        refine lookupBase_after hone ?_
        rw [after_append_singleton]
        cases c with
        | loadFromYaml root => cases hret
        | lookup ty name' v =>
          obtain ⟨hname, hok⟩ := Prod.mk.inj (Option.some.inj hret)
          rw [← hname]
          exact (lookup_ok hok).1
      refine ⟨hbase, fun member hkey hname => loadMember_of_lookupBase hkey ?_⟩
      rw [hname]
      exact hbase
    · rintro first c rest rfl name fault hret
      cases c with
      | loadFromYaml root => cases hret
      | lookup ty name' v => exact lookup_error (Prod.mk.inj (Option.some.inj hret)).2

/-- The types `int` and `float` with numbers as their values. -/
def intAndFloat : VarTypes Bool := ⟨fun _ => ℕ, fun _ text => some text.length, fun _ => BEq.beq⟩

/-- `system.port` is looked up as an `int` and then as a `float`. -/
theorem not_stable_port : ¬ Stable (fun _ => [])
    ([.lookup false (asciiText "system.port".toList) (8080 : ℕ),
      .lookup true (asciiText "system.port".toList) (10 : ℕ)] : List (ConfigCall intAndFloat)) := by
  intro h
  have hport := h.registered [.lookup false (asciiText "system.port".toList) (8080 : ℕ)] _ rfl
    (asciiText "system.port".toList) 0 (by decide)
  exact absurd hport (by decide)

end Registry

end Bobliew
