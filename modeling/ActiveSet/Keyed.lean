import ActiveSet.Key

/-!
# Values by key, in order of arrival

A finite map from keys whose entries keep the order in which their keys first came. `lookup` is its
view: each operation is described by what it does to `keys` and to `lookup`.
-/

namespace ActiveSet

/-- Entries with pairwise distinct keys. -/
structure Keyed (α : Type) where
  entries : List (Key × α)
  nodup : (entries.map (·.1)).Nodup

namespace Keyed

variable {α β : Type}

/-- Replaces the value at `k` in its place, or appends a new entry. -/
def put (k : Key) (v : α) : List (Key × α) → List (Key × α)
  | [] => [(k, v)]
  | e :: rest => if e.1 = k then (k, v) :: rest else e :: put k v rest

theorem keys_put (k : Key) (v : α) (l : List (Key × α)) :
    (put k v l).map (·.1) = if k ∈ l.map (·.1) then l.map (·.1) else l.map (·.1) ++ [k] := by
  induction l with
  | nil => simp [put]
  | cons e l ih =>
    by_cases h : e.1 = k
    · simp [put, h]
    · have h' : ¬ k = e.1 := fun hk => h hk.symm
      by_cases hm : k ∈ l.map (·.1) <;> simp_all [put]

theorem nodup_put (k : Key) (v : α) {l : List (Key × α)} (h : (l.map (·.1)).Nodup) :
    ((put k v l).map (·.1)).Nodup := by
  rw [keys_put]
  split
  · exact h
  · rename_i hk
    exact List.nodup_append.2 ⟨h, by simp, by rintro a ha b hb rfl; simp_all⟩

theorem lookup_cons (j : Key) (e : Key × α) (l : List (Key × α)) :
    (e :: l).lookup j = if j = e.1 then some e.2 else l.lookup j := by
  obtain ⟨k, v⟩ := e
  by_cases h : j = k
  · simp [h]
  · have hb : (j == k) = false := by simpa using h
    simp [List.lookup_cons, h, hb]

theorem lookup_put (k : Key) (v : α) (l : List (Key × α)) (j : Key) :
    (put k v l).lookup j = if j = k then some v else l.lookup j := by
  induction l with
  | nil => simp [put, lookup_cons]
  | cons e l ih =>
    by_cases h : e.1 = k
    · by_cases hj : j = k <;> simp [put, lookup_cons, h, hj]
    · by_cases hj : j = k
      · subst hj
        simp [put, lookup_cons, h, ih, Ne.symm h]
      · simp [put, lookup_cons, h, ih, hj]

def empty : Keyed α := ⟨[], by simp⟩

def keys (m : Keyed α) : List Key := m.entries.map (·.1)

def values (m : Keyed α) : List α := m.entries.map (·.2)

def size (m : Keyed α) : Nat := m.entries.length

def lookup (m : Keyed α) (k : Key) : Option α := m.entries.lookup k

def contains (m : Keyed α) (k : Key) : Bool := (m.lookup k).isSome

def insert (m : Keyed α) (k : Key) (v : α) : Keyed α := ⟨put k v m.entries, nodup_put k v m.nodup⟩

@[simp] theorem lookup_empty (k : Key) : (empty : Keyed α).lookup k = none := rfl

@[simp] theorem keys_empty : (empty : Keyed α).keys = [] := rfl

theorem lookup_insert (m : Keyed α) (k : Key) (v : α) (j : Key) :
    (m.insert k v).lookup j = if j = k then some v else m.lookup j := lookup_put k v m.entries j

theorem keys_insert (m : Keyed α) (k : Key) (v : α) :
    (m.insert k v).keys = if k ∈ m.keys then m.keys else m.keys ++ [k] := keys_put k v m.entries

/-- The first of several entries with one key fixes the place, the last one the value. -/
def ofList (l : List (Key × α)) : Keyed α := l.foldl (fun m e => m.insert e.1 e.2) empty

/-- Changes the values and keeps the keys. -/
def map (f : α → β) (m : Keyed α) : Keyed β where
  entries := m.entries.map fun e => (e.1, f e.2)
  nodup := by simpa [Function.comp_def] using m.nodup

@[simp] theorem keys_map (f : α → β) (m : Keyed α) : (m.map f).keys = m.keys := by
  simp [keys, map]

/-- The place of a key among the keys. -/
def position? (m : Keyed α) (k : Key) : Option Nat := m.keys.idxOf? k

end Keyed

/-- The keys of a list in order of first appearance. -/
def firstAppearances (keys : List Key) : List Key := keys.eraseDups

end ActiveSet
