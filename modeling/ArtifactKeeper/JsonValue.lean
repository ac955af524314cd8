import Mathlib.Data.List.Lookmap
import Mathlib.Tactic.Common

/-! JSON documents, with objects as lists of entries, and the look-ups and updates in place that
work on them. -/

inductive Json where
  | null
  | bool (b : Bool)
  | number (literal : String)
  | string (s : String)
  | array (items : List Json)
  | object (entries : List (String × Json))

namespace Json

def asStr : Json → Option String
  | string s => some s
  | _ => none

def items : Json → List Json
  | array items => items
  | _ => []

/-- The entries of an object; other values have none. -/
def entries : Json → List (String × Json)
  | object entries => entries
  | _ => []

def keys (j : Json) : List String := j.entries.map (·.1)

def get (j : Json) (key : String) : Option Json := j.entries.lookup key

/-- The entries at `key`, none when there is no object there. -/
def entriesAt (j : Json) (key : String) : List (String × Json) := ((j.get key).map entries).getD []

def keysAt (j : Json) (key : String) : List String := (j.entriesAt key).map (·.1)

def itemsAt (j : Json) (key : String) : List Json := ((j.get key).map items).getD []

theorem mem_keysAt {j : Json} {key k : String} :
    k ∈ j.keysAt key ↔ ∃ e ∈ j.entriesAt key, e.1 = k :=
  List.mem_map

def onObject (f : List (String × Json) → List (String × Json)) : Json → Json
  | object entries => object (f entries)
  | j => j

def onArray (f : List Json → List Json) : Json → Json
  | array items => array (f items)
  | j => j

/-- Change the value at `key` in place. -/
def modify (j : Json) (key : String) (f : Json → Json) : Json :=
  j.onObject (List.map fun e => if e.1 = key then (e.1, f e.2) else e)

def remove (entries : List (String × Json)) (key : String) : List (String × Json) :=
  entries.filter fun e => e.1 ≠ key

/-- An entry that is there gets the new value, one that is not is added. -/
def insert (entries : List (String × Json)) (key : String) (value : Json) : List (String × Json) :=
  if key ∈ entries.map (·.1) then
    entries.map fun e => if e.1 = key then (key, value) else e
  else entries ++ [(key, value)]

@[simp] theorem entries_onObject (f : List (String × Json) → List (String × Json)) (j : Json)
    (hf : f [] = []) : (j.onObject f).entries = f j.entries := by
  cases j <;> simp [onObject, entries, hf]

@[simp] theorem items_onArray (f : List Json → List Json) (j : Json) (hf : f [] = []) :
    (j.onArray f).items = f j.items := by
  cases j <;> simp [onArray, items, hf]

theorem lookup_map_at (l : List (String × Json)) (key key' : String) (f : Json → Json) :
    (l.map fun e => if e.1 = key then (e.1, f e.2) else e).lookup key' =
      if key' = key then (l.lookup key').map f else l.lookup key' := by
  induction l with
  | nil => simp
  | cons e l ih =>
    obtain ⟨k, v⟩ := e
    by_cases hk' : key' = k
    · by_cases hk : k = key
      · subst hk hk'; simp
      · subst hk'; simp [hk]
    · have hbeq : (key' == k) = false := beq_eq_false_iff_ne.mpr hk'
      by_cases hk : k = key
      · simp [hk, List.lookup_cons, hk ▸ hbeq, ih]
      · simp [hk, List.lookup_cons, hbeq, ih]

@[simp] theorem get_modify (j : Json) (key key' : String) (f : Json → Json) :
    (j.modify key f).get key' = if key' = key then (j.get key').map f else j.get key' := by
  rw [get, modify, entries_onObject _ _ rfl, lookup_map_at]
  rfl

/-- An update of the object at `key` is seen there and nowhere else. -/
theorem entriesAt_modify (j : Json) (key key' : String)
    (f : List (String × Json) → List (String × Json)) (hf : f [] = []) :
    (j.modify key (onObject f)).entriesAt key' =
      if key' = key then f (j.entriesAt key') else j.entriesAt key' := by
  rw [entriesAt, get_modify]
  split
  · rw [entriesAt]
    cases j.get key' with
    | none => simp [hf]
    | some v => simp [hf]
  · rfl

theorem itemsAt_modify (j : Json) (key key' : String) (f : List Json → List Json)
    (hf : f [] = []) :
    (j.modify key (onArray f)).itemsAt key' =
      if key' = key then f (j.itemsAt key') else j.itemsAt key' := by
  rw [itemsAt, get_modify]
  split
  · rw [itemsAt]
    cases j.get key' with
    | none => simp [hf]
    | some v => simp [hf]
  · rfl

/-- What an update of the object at `key` leaves there comes from the update. -/
theorem mem_entriesAt_modify {j : Json} {key : String}
    {f : List (String × Json) → List (String × Json)} {e : String × Json}
    (h : e ∈ (j.modify key (onObject f)).entriesAt key) : e ∈ f (j.entriesAt key) := by
  rw [entriesAt, get_modify, if_pos rfl] at h
  rw [entriesAt]
  cases hget : j.get key with
  | none => simp [hget] at h
  | some v =>
    cases v with
    | object entries => simpa [hget, onObject, Json.entries] using h
    | _ => simp [hget, onObject, Json.entries] at h

/-- Dropping entries by their keys hides exactly these keys. -/
theorem lookup_filter_key (l : List (String × Json)) (keep : String → Bool) (key : String) :
    (l.filter fun e => keep e.1).lookup key = if keep key then l.lookup key else none := by
  induction l with
  | nil => simp
  | cons e l ih =>
    obtain ⟨k, v⟩ := e
    by_cases hk : key = k
    · subst hk
      cases hkeep : keep key <;> simp [hkeep, ih]
    · have hbeq : (key == k) = false := beq_eq_false_iff_ne.mpr hk
      cases hkeep : keep k <;> simp [hkeep, ih, List.lookup_cons, hbeq]

/-- An entry that is looked up and kept is looked up still. -/
theorem lookup_filter_of_keep {l : List (String × Json)} {keep : String × Json → Bool}
    {key : String} {value : Json} (h : l.lookup key = some value) (hkeep : keep (key, value)) :
    (l.filter keep).lookup key = some value := by
  induction l with
  | nil => simp at h
  | cons e l ih =>
    obtain ⟨k, v⟩ := e
    by_cases hk : key = k
    · subst hk
      obtain rfl : v = value := by simpa using h
      simp [hkeep]
    · have hbeq : (key == k) = false := beq_eq_false_iff_ne.mpr hk
      rw [List.lookup_cons, hbeq] at h
      cases hkv : keep (k, v) <;> simp [hkv, ih h, List.lookup_cons, hbeq]

theorem lookup_filter_of_none {l : List (String × Json)} (keep : String × Json → Bool)
    {key : String} (h : l.lookup key = none) : (l.filter keep).lookup key = none := by
  rw [List.lookup_eq_none_iff] at h ⊢
  exact fun e he => h e (List.mem_filter.mp he).1

theorem lookup_insert (l : List (String × Json)) (key key' : String) (value : Json) :
    (insert l key value).lookup key' = if key' = key then some value else l.lookup key' := by
  rw [insert]
  split
  · rename_i hmem
    have hmap : (l.map fun e => if e.1 = key then (key, value) else e) =
        l.map fun e => if e.1 = key then (e.1, value) else e := by
      apply List.map_congr_left
      intro e _
      split
      · rename_i he
        rw [he]
      · rfl
    rw [hmap, lookup_map_at l key key' fun _ => value]
    split
    · rename_i hkey
      subst hkey
      obtain ⟨e, he, hek⟩ := List.mem_map.mp hmem
      cases hlookup : l.lookup key' with
      | some old => rfl
      | none =>
        have h := List.lookup_eq_none_iff.mp hlookup e he
        simp [hek] at h
    · rfl
  · rename_i hmem
    have hnone : l.lookup key = none := by
      rw [List.lookup_eq_none_iff]
      intro e he
      have hne : key ≠ e.1 := fun h => hmem (List.mem_map.mpr ⟨e, he, h.symm⟩)
      simpa using hne
    rw [List.lookup_append]
    split
    · rename_i hkey
      subst hkey
      simp [hnone]
    · rename_i hkey
      have hbeq : (key' == key) = false := beq_eq_false_iff_ne.mpr hkey
      simp [List.lookup_cons, hbeq]

theorem mem_insert {entries : List (String × Json)} {key : String} {value : Json}
    {e : String × Json} (h : e ∈ insert entries key value) : e = (key, value) ∨ e ∈ entries := by
  rw [insert] at h
  split at h
  · obtain ⟨old, hold, rfl⟩ := List.mem_map.mp h
    by_cases hkey : old.1 = key
    · exact .inl (by simp [hkey])
    · exact .inr (by simpa [hkey] using hold)
  · rcases List.mem_append.mp h with hmem | hmem
    · exact .inr hmem
    · exact .inl (List.mem_singleton.mp hmem)

end Json
