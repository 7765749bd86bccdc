import Bobliew.Lib.OrderedList
import Bobliew.Log.Appenders
import Bobliew.Util.YamlJson

/-!
# The definitions of loggers in a configuration

A `LogDefine` is read from a YAML map and written to one, with the fields that have their default left out. The
text between both is taken as the tree that it is emitted from and loaded as.

The reader looks whether an appender has a `formatter` and then takes the text of its `fomatter`, a key that the
writer does not use. Reading that key throws, so a definition is read as it was written exactly if none of its
appenders has a formatter.
-/

namespace Bobliew

open Http (Bytes asciiText lexLess)

/-! ## Levels -/

namespace LogLevel

/-- `LogLevel::ToString`. -/
def toText : LogLevel → Bytes
  | .debug => asciiText ['D', 'E', 'B', 'U', 'G']
  | .info => asciiText ['I', 'N', 'F', 'O']
  | .warn => asciiText ['W', 'A', 'R', 'N']
  | .error => asciiText ['E', 'R', 'R', 'O', 'R']
  | .fatal => asciiText ['F', 'A', 'T', 'A', 'L']
  | .unknow => asciiText ['U', 'N', 'K', 'N', 'O', 'W']

/-- The texts that `LogLevel::FromString` tries, in its order. -/
def levelTexts : List (Bytes × LogLevel) :=
  [(asciiText ['d', 'e', 'b', 'u', 'g'], .debug), (asciiText ['i', 'n', 'f', 'o'], .info),
    (asciiText ['w', 'a', 'r', 'n'], .warn), (asciiText ['e', 'r', 'r', 'o', 'r'], .error),
    (asciiText ['f', 'a', 't', 'a', 'l'], .fatal), (asciiText ['D', 'E', 'B', 'U', 'G'], .debug),
    (asciiText ['I', 'N', 'F', 'O'], .info), (asciiText ['W', 'A', 'R', 'N'], .warn),
    (asciiText ['E', 'R', 'R', 'O', 'R'], .error), (asciiText ['F', 'A', 'T', 'A', 'L'], .fatal)]

/-- `LogLevel::FromString`. -/
def ofText (str : Bytes) : LogLevel := (levelTexts.lookup str).getD .unknow

/-- A level is read as it is written. -/
theorem ofText_toText (level : LogLevel) : ofText level.toText = level := by
  cases level <;> decide

/-- A level that is left out is the unknown one. -/
theorem ofText_nil : ofText [] = .unknow := by
  decide

end LogLevel

/-! ## Definitions -/

/-- `LogAppenderDefine`: the type is 1 for a file and 2 for the standard output. -/
structure LogAppenderDefine where
  type : ℤ
  level : LogLevel
  formatter : Bytes
  file : Bytes
  deriving DecidableEq

/-- `LogDefine`. -/
structure LogDefine where
  name : Bytes
  level : LogLevel
  formatter : Bytes
  appenders : List LogAppenderDefine
  deriving DecidableEq

/-- An appender of a definition as its constructor makes it. -/
def LogAppenderDefine.new : LogAppenderDefine := ⟨0, .unknow, [], []⟩

/-- `LogDefine::operator<`. -/
def LogDefine.less (a b : LogDefine) : Bool := lexLess (a.name.map UInt8.toNat) (b.name.map UInt8.toNat)

/-! ## Reading trees -/

namespace Yaml

/-- The node under a key of a map. -/
def entryOf (key : Bytes) (entries : List (Yaml × Yaml)) : Option Yaml :=
  (entries.find? fun e => e.1.hasText key).map Prod.snd

/-- `node[key]` for a text: `none` when it throws, and otherwise the child, unless that is undefined. -/
def child (key : Bytes) : Yaml → Option (Option Yaml)
  | .scalar _ => none
  | .map entries => some (entryOf key entries)
  | _ => some none

/-- `as<std::string>()`, which throws unless the node is a scalar. -/
def asText : Yaml → Option Bytes
  | .scalar text => some text
  | _ => none

/-- The text of the child under a key, or the empty text if it is undefined. -/
def childText (key : Bytes) (n : Yaml) : Option Bytes := do
  match ← n.child key with
  | none => pure []
  | some node => node.asText

/-- `node[x]` for the indices below `node.size()`; the ones of a map are looked up among its keys. -/
def elements : Yaml → List (Option Yaml)
  | .sequence nodes => nodes.map some
  | .map entries => (List.range entries.length).map fun x => entryOf (asciiText (Nat.toDigits 10 x)) entries
  | _ => []

end Yaml

namespace LogDefine

/-- The key `name`. -/
def nameKey : Bytes := asciiText ['n', 'a', 'm', 'e']

/-- The key `level`. -/
def levelKey : Bytes := asciiText ['l', 'e', 'v', 'e', 'l']

/-- The key `formatter`. -/
def formatterKey : Bytes := asciiText ['f', 'o', 'r', 'm', 'a', 't', 't', 'e', 'r']

/-- The key that the reader takes the formatter of an appender from. -/
def fomatterKey : Bytes := asciiText ['f', 'o', 'm', 'a', 't', 't', 'e', 'r']

/-- The key `appenders`. -/
def appendersKey : Bytes := asciiText ['a', 'p', 'p', 'e', 'n', 'd', 'e', 'r', 's']

/-- The key `type`. -/
def typeKey : Bytes := asciiText ['t', 'y', 'p', 'e']

/-- The key `file`. -/
def fileKey : Bytes := asciiText ['f', 'i', 'l', 'e']

/-- The name of the class of file appenders. -/
def fileType : Bytes :=
  asciiText ['F', 'i', 'l', 'e', 'L', 'o', 'g', 'A', 'p', 'p', 'e', 'n', 'd', 'e', 'r']

/-- The name of the class of appenders to the standard output. -/
def stdoutType : Bytes :=
  asciiText ['S', 't', 'd', 'o', 'u', 't', 'L', 'o', 'g', 'A', 'p', 'p', 'e', 'n', 'd', 'e', 'r']

/-- The formatter of an appender: `a["fomatter"]` is read when `a["formatter"]` is defined. -/
def readFormatter (a : Yaml) : Option Bytes := do
  match ← a.child formatterKey with
  | none => pure []
  | some _ =>
    match ← a.child fomatterKey with
    | none => none
    | some node => node.asText

/-- An appender of a definition: `none` when something throws, and no appender when it is skipped. -/
def readAppender (a : Yaml) : Option (Option LogAppenderDefine) := do
  match ← a.child typeKey with
  | none => pure none
  | some node =>
    let type ← node.asText
    let level ← a.childText levelKey
    let lad := { LogAppenderDefine.new with level := LogLevel.ofText level }
    if type = fileType then
      match ← a.child fileKey with
      | none => pure none
      | some node =>
        let file ← node.asText
        let formatter ← readFormatter a
        pure (some { lad with type := 1, file := file, formatter := formatter })
    else if type = stdoutType then
      let formatter ← readFormatter a
      pure (some { lad with type := 2, formatter := formatter })
    else pure (some lad)

/-- The loop over the appenders of a definition. -/
def readAppenders : List (Option Yaml) → Option (List LogAppenderDefine)
  | [] => some []
  | none :: rest => readAppenders rest
  | some a :: rest => do
    let lad ← readAppender a
    let lads ← readAppenders rest
    pure (lad.toList ++ lads)

/-- `LexicalCast<std::string, LogDefine>`; `none` when it throws. -/
def read (n : Yaml) : Option LogDefine := do
  match ← n.child nameKey with
  | none => none
  | some node =>
    let name ← node.asText
    let level ← n.childText levelKey
    let formatter ← n.childText formatterKey
    let appenders ← n.child appendersKey
    let lads ← readAppenders ((appenders.map Yaml.elements).getD [])
    pure ⟨name, LogLevel.ofText level, formatter, lads⟩

/-- `LexicalCast<std::string, std::set<LogDefine>>`: of definitions with one name the first one is kept. -/
def readSet (node : Yaml) : Option (List LogDefine) :=
  node.elements.foldlM (fun defines element => do
    let define ← read (element.getD .null)
    pure (OrderedList.insert less define defines)) []

/-! ## Writing trees -/

/-- The entry under a key that is left out unless it is told to be there. -/
def entryIf (present : Bool) (key : Bytes) (node : Yaml) : List (Yaml × Yaml) :=
  if present then [(.scalar key, node)] else []

/-- What is written of an appender. -/
def writeAppender (a : LogAppenderDefine) : Yaml :=
  Yaml.ofEntries
    ((if a.type = 1 then entryIf true typeKey (.scalar fileType) ++ entryIf true fileKey (.scalar a.file)
      else if a.type = 2 then entryIf true typeKey (.scalar stdoutType) else []) ++
      entryIf (a.level ≠ .unknow) levelKey (.scalar a.level.toText) ++
      entryIf (a.formatter ≠ []) formatterKey (.scalar a.formatter))

/-- `LexicalCast<LogDefine, std::string>`. -/
def write (i : LogDefine) : Yaml :=
  .map (entryIf true nameKey (.scalar i.name) ++
    entryIf (i.level ≠ .unknow) levelKey (.scalar i.level.toText) ++
    entryIf (i.formatter ≠ []) formatterKey (.scalar i.formatter) ++
    entryIf (i.appenders ≠ []) appendersKey (.sequence (i.appenders.map writeAppender)))

/-- The appenders that a definition is meant to have: files, and the standard output without a file. -/
def Regular (a : LogAppenderDefine) : Prop := a.type = 1 ∨ (a.type = 2 ∧ a.file = [])

/-- An entry that is there or not is found or not. -/
theorem entryOf_entryIf (present : Bool) (key key' : Bytes) (node : Yaml) :
    Yaml.entryOf key' (entryIf present key node) = if present = true ∧ key = key' then some node else none := by
  cases present with
  | false => simp [entryIf, Yaml.entryOf]
  | true =>
    by_cases h : key = key'
    · simp [entryIf, Yaml.entryOf, Yaml.hasText, h]
    · simp [entryIf, Yaml.entryOf, Yaml.hasText, h]

/-- An entry is looked for in the first entries, and then in the others. -/
theorem entryOf_append (key : Bytes) (entries entries' : List (Yaml × Yaml)) :
    Yaml.entryOf key (entries ++ entries') = (Yaml.entryOf key entries).or (Yaml.entryOf key entries') := by
  rw [Yaml.entryOf, List.find?_append, Yaml.entryOf, Yaml.entryOf]
  cases entries.find? fun e => e.1.hasText key <;> simp

/-- The children of a node that has some entries. -/
theorem child_ofEntries (key : Bytes) (entries : List (Yaml × Yaml)) :
    (Yaml.ofEntries entries).child key = some (Yaml.entryOf key entries) := by
  cases entries <;> rfl

/-- The keys differ. -/
theorem keys_nodup :
    [nameKey, levelKey, formatterKey, fomatterKey, appendersKey, typeKey, fileKey].Nodup := by
  decide

/-- The children of what is written of a definition. -/
theorem child_write (i : LogDefine) :
    (write i).child nameKey = some (some (.scalar i.name)) ∧
      (write i).child levelKey = some (if i.level ≠ .unknow then some (.scalar i.level.toText) else none) ∧
      (write i).child formatterKey = some (if i.formatter ≠ [] then some (.scalar i.formatter) else none) ∧
      (write i).child appendersKey =
        some (if i.appenders ≠ [] then some (.sequence (i.appenders.map writeAppender)) else none) := by
  have hkeys := keys_nodup
  simp only [List.nodup_cons, List.mem_cons, List.not_mem_nil, or_false, not_or] at hkeys
  obtain ⟨⟨hnl, hnf, -, hna, -, -⟩, ⟨hlf, -, hla, -, -⟩, ⟨-, hfa, -, -⟩, -⟩ := hkeys
  simp only [write, Yaml.child, entryOf_append, entryOf_entryIf]
  simp [hnl, hnf, hna, hlf, hla, hfa, Ne.symm hla, Ne.symm hfa, Ne.symm hlf]

/-- The children of what is written of an appender. -/
theorem child_writeAppender {a : LogAppenderDefine} (h : Regular a) :
    (writeAppender a).child typeKey = some (some (.scalar (if a.type = 1 then fileType else stdoutType))) ∧
      (writeAppender a).child levelKey =
        some (if a.level ≠ .unknow then some (.scalar a.level.toText) else none) ∧
      (a.type = 1 → (writeAppender a).child fileKey = some (some (.scalar a.file))) ∧
      (writeAppender a).child formatterKey =
        some (if a.formatter ≠ [] then some (.scalar a.formatter) else none) ∧
      (writeAppender a).child fomatterKey = some none := by
  have hkeys := keys_nodup
  simp only [List.nodup_cons, List.mem_cons, List.not_mem_nil, or_false, not_or] at hkeys
  obtain ⟨-, ⟨hlf, hlo, -, hlt, hli⟩, ⟨hfo, -, hft, hfi⟩, ⟨-, hot, hoi⟩, -, hti, -⟩ := hkeys
  rcases h with hone | ⟨htwo, -⟩
  · simp only [writeAppender, child_ofEntries, entryOf_append, entryOf_entryIf, hone, if_true]
    simp [hlf, hlo, hfo, hti, Ne.symm hlf, Ne.symm hlt, Ne.symm hli, Ne.symm hft, Ne.symm hfi, Ne.symm hot, Ne.symm hoi]
  · have hne : ¬ a.type = 1 := by omega
    simp only [writeAppender, child_ofEntries, if_neg hne, if_pos htwo, entryOf_append, entryOf_entryIf]
    simp [hne, hlf, hlo, hfo, Ne.symm hlf, Ne.symm hlt, Ne.symm hft, Ne.symm hot]

/-- The text of a level that is written or left out is that of the level. -/
theorem childText_level {n : Yaml} {level : LogLevel}
    (h : n.child levelKey = some (if level ≠ .unknow then some (.scalar level.toText) else none)) :
    ∃ text, n.childText levelKey = some text ∧ LogLevel.ofText text = level := by
  unfold Yaml.childText
  rw [h]
  by_cases hlevel : level = .unknow
  · exact ⟨[], by simp [hlevel], hlevel ▸ LogLevel.ofText_nil⟩
  · exact ⟨level.toText, by simp [hlevel, Yaml.asText], level.ofText_toText⟩

/-- An appender is read as it was written, unless it has a formatter: then reading throws. -/
theorem readAppender_write {a : LogAppenderDefine} (h : Regular a) :
    readAppender (writeAppender a) = if a.formatter = [] then some (some a) else none := by
  obtain ⟨htype, hlevel, hfile, hformatter, hfomatter⟩ := child_writeAppender h
  obtain ⟨text, htext, hlevel'⟩ := childText_level hlevel
  have hread : readFormatter (writeAppender a) = if a.formatter = [] then some [] else none := by
    unfold readFormatter
    rw [hformatter, hfomatter]
    by_cases hnil : a.formatter = []
    · simp [hnil]
    · simp [hnil]
  have hdiffer : stdoutType ≠ fileType := by decide
  unfold readAppender
  rw [htype, htext, hread]
  rcases h with hone | ⟨htwo, hnofile⟩
  · have hfile' := hfile hone
    by_cases hnil : a.formatter = []
    · simp [hone, hfile', Yaml.asText, hlevel', hnil, LogAppenderDefine.new]
      change (⟨1, a.level, [], a.file⟩ : LogAppenderDefine) = ⟨a.type, a.level, a.formatter, a.file⟩
      rw [hone, hnil]
    · simp [hone, hfile', Yaml.asText, hnil]
  · by_cases hnil : a.formatter = []
    · simp [htwo, Yaml.asText, hlevel', hnil, LogAppenderDefine.new, hdiffer]
      change (⟨2, a.level, [], []⟩ : LogAppenderDefine) = ⟨a.type, a.level, a.formatter, a.file⟩
      rw [htwo, hnil, hnofile]
    · simp [htwo, Yaml.asText, hnil, hdiffer]

/-- The appenders of a definition are read as they were written, unless one of them has a formatter. -/
theorem readAppenders_write {appenders : List LogAppenderDefine} (h : ∀ a ∈ appenders, Regular a) :
    readAppenders ((appenders.map writeAppender).map some) =
      if ∀ a ∈ appenders, a.formatter = [] then some appenders else none := by
  induction appenders with
  | nil => simp [readAppenders]
  | cons a rest ih =>
    simp only [List.map_cons, readAppenders, readAppender_write (h a List.mem_cons_self),
      ih fun a' ha' => h a' (List.mem_cons_of_mem a ha')]
    by_cases hfirst : a.formatter = []
    · simp only [hfirst, List.forall_mem_cons, true_and, if_true]
      split
      · rfl
      · rfl
    · simp [hfirst]

/-- **When a definition is read as it was written.** Reading what is written of a definition succeeds and gives
the definition back exactly if none of its appenders has a formatter. -/
theorem read_write_iff (i : LogDefine) (h : ∀ a ∈ i.appenders, Regular a) :
    read (write i) = some i ↔ ∀ a ∈ i.appenders, a.formatter = [] := by
  obtain ⟨hname, hlevel, hformatter, happenders⟩ := child_write i
  obtain ⟨text, htext, hlevel'⟩ := childText_level hlevel
  have hformatter' : (write i).childText formatterKey = some i.formatter := by
    unfold Yaml.childText
    rw [hformatter]
    by_cases hnil : i.formatter = []
    · simp [hnil]
    · simp [hnil, Yaml.asText]
  have hread : readAppenders
      (((if i.appenders ≠ [] then some (Yaml.sequence (i.appenders.map writeAppender)) else none).map
        Yaml.elements).getD []) = if ∀ a ∈ i.appenders, a.formatter = [] then some i.appenders else none := by
    rw [← readAppenders_write h]
    by_cases hnil : i.appenders = []
    · simp [hnil]
    · simp [hnil, Yaml.elements]
  have hall : read (write i) = if ∀ a ∈ i.appenders, a.formatter = [] then some i else none := by
    unfold read
    rw [hname, htext, hformatter', happenders]
    change (do
      let lads ← readAppenders _
      pure (⟨i.name, LogLevel.ofText text, i.formatter, lads⟩ : LogDefine)) = _
    rw [hread, hlevel']
    split
    · rfl
    · rfl
  rw [hall]
  split
  · rename_i hnone
    exact iff_of_true rfl hnone
  · rename_i hsome
    exact iff_of_false (by simp) hsome

/-- A definition with a file and the standard output is read as it was written. -/
theorem read_write_plain :
    read (write ⟨[97], .info, [109], [⟨1, .debug, [], [98]⟩, ⟨2, .unknow, [], []⟩]⟩) =
      some ⟨[97], .info, [109], [⟨1, .debug, [], [98]⟩, ⟨2, .unknow, [], []⟩]⟩ :=
  (read_write_iff _ (by
    intro a ha
    rcases List.mem_cons.mp ha with rfl | hrest
    · exact .inl rfl
    · obtain rfl := List.mem_singleton.mp hrest
      exact .inr ⟨rfl, rfl⟩)).mpr (by simp)

/-- A definition whose appender has a formatter is not read at all. -/
theorem not_read_write :
    ¬ ∀ i : LogDefine, i.name ≠ [] → (∀ a ∈ i.appenders, Regular a) → read (write i) = some i := by
  intro h
  have hread := h ⟨[97], .unknow, [], [⟨2, .unknow, [109], []⟩]⟩ (by simp)
    fun a ha => .inr (by obtain rfl := List.mem_singleton.mp ha; exact ⟨rfl, rfl⟩)
  exact absurd (congrArg Option.isSome hread) (by decide)

end LogDefine

end Bobliew
