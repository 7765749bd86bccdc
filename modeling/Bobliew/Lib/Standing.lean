import Mathlib

/-!
# Keyed registrations that replace one another

A table is told to register a value under a key, or to drop a key. A registration stands as long as
nothing later is said about its key. Two ways of keeping the table are followed here: a list that
forgets the first entry of the key before a new one goes to the end, and a map.

Forgetting one entry is enough for the list, since the standing registrations never hold a key twice.
Both tables then hold the standing registrations, the list in the order in which they were made.
-/

namespace Standing

variable {K V V' : Type*}

/-- What a table is told. -/
inductive Entry (K V : Type*) where
  | put (k : K) (v : V)
  | drop (k : K)

/-- The key an entry is about. -/
def Entry.key : Entry K V → K
  | .put k _ => k
  | .drop k => k

/-- The value an entry registers. -/
def Entry.value? : Entry K V → Option V
  | .put _ v => some v
  | .drop _ => none

/-- The registration an entry makes. -/
def Entry.made (entry : Entry K V) : List (K × V) := entry.value?.toList.map fun v => (entry.key, v)

/-- The same entry with another value. -/
def Entry.map (f : V → V') : Entry K V → Entry K V'
  | .put k v => .put k (f v)
  | .drop k => .drop k

/-- The key stays. -/
@[simp]
theorem Entry.key_map (f : V → V') (entry : Entry K V) : (entry.map f).key = entry.key := by
  cases entry <;> rfl

/-- What the entry with another value registers. -/
theorem Entry.made_map (f : V → V') (entry : Entry K V) :
    (entry.map f).made = entry.made.map fun e => (e.1, f e.2) := by
  cases entry <;> rfl

/-- An entry registers under its own key. -/
theorem Entry.key_of_mem_made {entry : Entry K V} {e : K × V} (h : e ∈ entry.made) : e.1 = entry.key := by
  obtain ⟨v, _, rfl⟩ := List.mem_map.mp h
  rfl

variable [DecidableEq K]

/-- The registrations whose key no later entry is about, oldest first. -/
def standing : List (Entry K V) → List (K × V)
  | [] => []
  | entry :: later => (if entry.key ∈ later.map Entry.key then [] else entry.made) ++ standing later

/-- Forget the first entry of a list under a key. -/
def forget (k : K) (table : List (K × V)) : List (K × V) := table.eraseP fun e => decide (e.1 = k)

/-- Follow an entry in a list: forget the key, and put a new registration at the end. -/
def follow (table : List (K × V)) (entry : Entry K V) : List (K × V) := forget entry.key table ++ entry.made

/-- Follow an entry in a map. -/
def assign (table : K → Option V) (entry : Entry K V) : K → Option V :=
  Function.update table entry.key entry.value?

variable {entries : List (Entry K V)} {table : List (K × V)} {entry : Entry K V} {k : K}

/-- A standing registration was made by an entry about its key. -/
theorem mem_keys_of_mem_standing {e : K × V} (h : e ∈ standing entries) :
    e.1 ∈ entries.map Entry.key := by
  induction entries with
  | nil => simp [standing] at h
  | cons entry later ih =>
    rcases List.mem_append.mp h with hmade | hlater
    · split at hmade
      · simp at hmade
      · exact Entry.key_of_mem_made hmade ▸ List.mem_cons_self
    · exact List.mem_cons_of_mem _ (ih hlater)

/-- The standing registrations keep their places when the values are mapped. -/
theorem standing_map (f : V → V') (entries : List (Entry K V)) :
    standing (entries.map (Entry.map f)) = (standing entries).map fun e => (e.1, f e.2) := by
  induction entries with
  | nil => rfl
  | cons entry later ih =>
    have hkeys : (later.map (Entry.map f)).map Entry.key = later.map Entry.key := by
      simp only [List.map_map, Function.comp_def, Entry.key_map]
    simp only [List.map_cons, standing, hkeys, Entry.key_map, Entry.made_map, ih, List.map_append]
    split <;> rfl

/-- No key has two standing registrations. -/
theorem standing_keys_nodup (entries : List (Entry K V)) : ((standing entries).map Prod.fst).Nodup := by
  induction entries with
  | nil => exact List.nodup_nil
  | cons entry later ih =>
    simp only [standing]
    split
    · exact ih
    · rename_i hfresh
      cases entry with
      | drop k => exact ih
      | put k v =>
        refine List.nodup_cons.mpr ⟨fun hmem => ?_, ih⟩
        obtain ⟨e, he, rfl⟩ := List.mem_map.mp hmem
        exact hfresh (mem_keys_of_mem_standing he)

/-- There is nothing to forget about a key that a list does not hold. -/
theorem forget_of_notMem (h : k ∉ table.map Prod.fst) : forget k table = table := by
  refine List.eraseP_of_forall_not fun e he heq => h ?_
  have hkey : e.1 = k := by simpa using heq
  exact hkey ▸ List.mem_map_of_mem he

/-- Forgetting a key passes over what was made under another one. -/
theorem forget_made_append (h : entry.key ≠ k) :
    forget k (entry.made ++ table) = entry.made ++ forget k table := by
  refine List.eraseP_append_right _ fun e he heq => h ?_
  have hkey : e.1 = k := by simpa using heq
  exact Entry.key_of_mem_made he ▸ hkey

/-- Forgetting a key forgets what was just made under it. -/
theorem forget_made_self (h : entry.key ∉ table.map Prod.fst) :
    forget entry.key (entry.made ++ table) = table := by
  cases entry with
  | put k v => simp [forget, Entry.made, Entry.key, Entry.value?]
  | drop k => exact forget_of_notMem h

/-- One more entry is followed in the list of standing registrations. -/
theorem standing_concat (entries : List (Entry K V)) (entry : Entry K V) :
    standing (entries ++ [entry]) = follow (standing entries) entry := by
  induction entries with
  | nil => simp [standing, follow, forget]
  | cons first later ih =>
    simp only [List.cons_append, standing, List.map_append, List.map_cons, List.map_nil, List.mem_append,
      List.mem_singleton]
    rw [ih]
    unfold follow
    by_cases hlater : first.key ∈ later.map Entry.key
    · simp only [hlater, true_or, if_true, List.nil_append]
    · by_cases hsame : first.key = entry.key
      · -- Only the new entry is later and about this key: the registration ends here.
        have hfresh : first.key ∉ (standing later).map Prod.fst := by
          intro hmem
          obtain ⟨e, he, hkey⟩ := List.mem_map.mp hmem
          exact hlater (hkey ▸ mem_keys_of_mem_standing he)
        simp only [hlater, or_true, if_true, if_false, List.nil_append, ← hsame]
        rw [forget_made_self hfresh, forget_of_notMem hfresh]
      · simp only [hlater, hsame, or_self, if_false]
        rw [forget_made_append hsame, List.append_assoc]

/-- A list that follows every entry holds the standing registrations. -/
theorem foldl_follow (entries : List (Entry K V)) : entries.foldl follow [] = standing entries := by
  induction entries using List.reverseRecOn with
  | nil => rfl
  | append_singleton earlier entry ih => rw [List.foldl_concat, ih, standing_concat]

/-- What a key is registered for, when its registration stands. -/
def registered (entries : List (Entry K V)) (k : K) : Option V := (standing entries).lookup k

/-- A key is registered for the image of what it was registered for. -/
theorem registered_map (f : V → V') (entries : List (Entry K V)) (k : K) :
    registered (entries.map (Entry.map f)) k = (registered entries k).map f := by
  rw [registered, standing_map, registered]
  induction standing entries with
  | nil => rfl
  | cons e rest ih =>
    obtain ⟨key, v⟩ := e
    by_cases h : key = k
    · simp [h]
    · have hne : (k == key) = false := by simpa using fun heq : k = key => h heq.symm
      simp [List.lookup_cons, hne, ih]

/-- Nothing is registered under a key that no entry is about. -/
theorem registered_eq_none (h : k ∉ entries.map Entry.key) : registered entries k = none := by
  refine List.lookup_eq_none_iff.mpr fun e he => ?_
  have hne : k ≠ e.1 := fun heq => h (heq ▸ mem_keys_of_mem_standing he)
  simpa using hne

/-- A key is registered for the value of the last entry about it. -/
theorem registered_cons (entry : Entry K V) (later : List (Entry K V)) (k : K) :
    registered (entry :: later) k =
      if k ∈ later.map Entry.key then registered later k
      else if entry.key = k then entry.value? else none := by
  by_cases hk : k ∈ later.map Entry.key
  · rw [if_pos hk, registered, standing, List.lookup_append]
    by_cases hfirst : entry.key ∈ later.map Entry.key
    · simp [hfirst, registered]
    · have hne : entry.key ≠ k := fun heq => hfirst (heq ▸ hk)
      have hmade : entry.made.lookup k = none := by
        refine List.lookup_eq_none_iff.mpr fun e he => ?_
        simpa using fun heq : k = e.1 => hne (Entry.key_of_mem_made he ▸ heq.symm)
      simp [hfirst, hmade, registered]
  · have hnone : (standing later).lookup k = none := registered_eq_none hk
    rw [if_neg hk, registered, standing, List.lookup_append, hnone]
    split
    · rename_i hfirst
      have hne : entry.key ≠ k := fun heq => hk (heq ▸ hfirst)
      simp [hne]
    · cases entry with
      | put k' v =>
        by_cases heq : k' = k
        · simp [Entry.made, Entry.key, Entry.value?, heq]
        · have hne : (k == k') = false := by simpa using fun h : k = k' => heq h.symm
          simp [Entry.made, Entry.key, Entry.value?, heq, List.lookup, hne]
      | drop k' => simp [Entry.made, Entry.value?]

/-- A map that follows every entry holds what each key is registered for. -/
theorem foldl_assign (entries : List (Entry K V)) (k : K) :
    entries.foldl assign (fun _ => none) k = registered entries k := by
  suffices h : ∀ table : K → Option V, entries.foldl assign table k =
      if k ∈ entries.map Entry.key then registered entries k else table k by
    rw [h]
    split
    · rfl
    · rename_i hk
      exact (registered_eq_none hk).symm
  induction entries with
  | nil => intro table; rfl
  | cons entry later ih =>
    intro table
    rw [List.foldl_cons, ih, registered_cons]
    by_cases hk : k ∈ later.map Entry.key
    · simp [hk]
    · by_cases heq : entry.key = k
      · simp [hk, heq, assign]
      · have hne : k ≠ entry.key := fun h => heq h.symm
        simp [hk, hne, assign]

/-- Looking a key up is finding its first entry. -/
theorem lookup_eq_find? (k : K) (table : List (K × V)) :
    table.lookup k = (table.find? fun e => decide (e.1 = k)).map Prod.snd := by
  induction table with
  | nil => rfl
  | cons e rest ih =>
    obtain ⟨key, v⟩ := e
    by_cases h : key = k
    · simp [h]
    · have hne : (k == key) = false := by simpa using fun heq : k = key => h heq.symm
      simp [List.lookup_cons, h, hne, ih]

end Standing
