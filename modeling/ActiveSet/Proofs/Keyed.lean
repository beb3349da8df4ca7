import Mathlib.Algebra.BigOperators.Group.List.Basic
import ActiveSet.Proofs.Faults
import ActiveSet.Proofs.Real

/-!
# Look-ups in values by key

Keys come in the order of their first appearance. Entries and look-ups say the same, a list with
distinct keys is its own map, and merging dimensions that agree with a given map stays inside that
map.
-/

namespace ActiveSet

/-! ## First appearances -/

theorem mem_firstAppearances {k : Key} {ks : List Key} : k ∈ firstAppearances ks ↔ k ∈ ks :=
  List.mem_eraseDups

theorem nodup_firstAppearances : (ks : List Key) → (firstAppearances ks).Nodup
  | [] => by simp [firstAppearances]
  | k :: ks => by
      rw [firstAppearances, List.eraseDups_cons, List.nodup_cons]
      refine ⟨by simp [List.mem_eraseDups], nodup_firstAppearances _⟩
  termination_by ks => ks.length
  decreasing_by simpa using Nat.lt_succ_of_le (List.length_filter_le ..)

private theorem eraseDups_filter (p : Key → Bool) : (ks : List Key) →
    (ks.filter p).eraseDups = ks.eraseDups.filter p
  | [] => rfl
  | k :: ks => by
      have ih := eraseDups_filter p (ks.filter fun j => !j == k)
      rw [List.filter_filter] at ih
      rw [List.eraseDups_cons, List.filter_cons, List.filter_cons, ← ih]
      split
      · rw [List.eraseDups_cons, List.filter_filter]
        simp only [Bool.and_comm]
      · rename_i hk
        congr 1
        refine List.filter_congr fun j _ => ?_
        by_cases hj : j = k <;> simp_all
  termination_by ks => ks.length
  decreasing_by simpa using Nat.lt_succ_of_le (List.length_filter_le ..)

theorem firstAppearances_append (a b : List Key) :
    firstAppearances (a ++ b) = firstAppearances a ++ (firstAppearances b).filter (· ∉ a) := by
  have hremove : b.removeAll a = b.filter (· ∉ a) :=
    List.filter_congr fun k _ => by simp
  rw [firstAppearances, List.eraseDups_append, hremove, eraseDups_filter]
  rfl

theorem firstAppearances_of_nodup {ks : List Key} (h : ks.Nodup) : firstAppearances ks = ks := by
  induction ks with
  | nil => rfl
  | cons k ks ih =>
      obtain ⟨hk, hks⟩ := List.nodup_cons.1 h
      have hfilter : (ks.filter fun j => !j == k) = ks :=
        List.filter_eq_self.2 fun j hj => by simpa using fun heq : j = k => hk (heq ▸ hj)
      rw [firstAppearances, List.eraseDups_cons, hfilter]
      exact congrArg _ (ih hks)

theorem firstAppearances_append_left (a b : List Key) :
    firstAppearances (firstAppearances a ++ b) = firstAppearances (a ++ b) := by
  rw [firstAppearances_append, firstAppearances_append,
    firstAppearances_of_nodup (nodup_firstAppearances a)]
  simp only [mem_firstAppearances]

theorem firstAppearances_append_right (a b : List Key) :
    firstAppearances (a ++ firstAppearances b) = firstAppearances (a ++ b) := by
  rw [firstAppearances_append, firstAppearances_append,
    firstAppearances_of_nodup (nodup_firstAppearances b)]

/-- Keys that have appeared add nothing. -/
theorem firstAppearances_append_of_subset {a b : List Key} (h : b ⊆ a) :
    firstAppearances (a ++ b) = firstAppearances a := by
  rw [firstAppearances_append, List.filter_eq_nil_iff.2, List.append_nil]
  intro k hk
  simpa using h (mem_firstAppearances.1 hk)

namespace Keyed

variable {K α β : Type}

/-! ## Entries and look-ups -/

private theorem lookup_eq_some_iff {l : List (Key × α)} (h : (l.map (·.1)).Nodup) {k : Key} {v : α} :
    l.lookup k = some v ↔ (k, v) ∈ l := by
  induction l with
  | nil => simp
  | cons e l ih =>
      obtain ⟨j, u⟩ := e
      rw [List.map_cons, List.nodup_cons] at h
      rw [lookup_cons]
      by_cases hk : k = j
      · subst hk
        have : (k, v) ∉ l := fun hm => h.1 (List.mem_map_of_mem (f := (·.1)) hm)
        simp [this, eq_comm]
      · simp [hk, ih h.2]

theorem lookup_of_notMem {l : List (Key × α)} {k : Key} (h : k ∉ l.map (·.1)) :
    l.lookup k = none := by
  induction l with
  | nil => rfl
  | cons e l ih =>
      rw [List.map_cons, List.mem_cons, not_or] at h
      rw [lookup_cons, if_neg h.1, ih h.2]

theorem lookup_iff (m : Keyed α) {k : Key} {v : α} : m.lookup k = some v ↔ (k, v) ∈ m.entries :=
  lookup_eq_some_iff m.nodup

theorem lookup_of_mem {m : Keyed α} {e : Key × α} (h : e ∈ m.entries) : m.lookup e.1 = some e.2 :=
  m.lookup_iff.2 h

theorem mem_keys_iff (m : Keyed α) {k : Key} : k ∈ m.keys ↔ ∃ v, m.lookup k = some v := by
  simp [keys, lookup_iff]

theorem lookup_eq_none_iff (m : Keyed α) {k : Key} : m.lookup k = none ↔ k ∉ m.keys := by
  rw [mem_keys_iff]
  cases m.lookup k <;> simp

theorem nodup_keys (m : Keyed α) : m.keys.Nodup := m.nodup

theorem lookup_map (f : α → β) (m : Keyed α) (k : Key) : (m.map f).lookup k = (m.lookup k).map f := by
  simp only [lookup, map]
  induction m.entries with
  | nil => rfl
  | cons e l ih =>
      rw [List.map_cons, lookup_cons, lookup_cons, ih]
      split <;> rfl

private theorem put_of_lookup {l : List (Key × α)} {k : Key} {v : α} (h : l.lookup k = some v) :
    put k v l = l := by
  induction l with
  | nil => cases h
  | cons e l ih =>
      rw [lookup_cons] at h
      rw [put]
      split at h
      · rename_i hk
        rw [if_pos hk.symm, hk, ← Option.some.inj h]
      · rename_i hk
        rw [if_neg (Ne.symm hk), ih h]

theorem insert_of_lookup {m : Keyed α} {k : Key} {v : α} (h : m.lookup k = some v) :
    m.insert k v = m := by
  unfold insert
  congr 1
  exact put_of_lookup h

theorem get_eq_error {m : Keyed α} {k : Key} {e : Fault K} (h : m.get k = .error e) :
    e = .missingKey k := by
  unfold get at h
  split at h
  · cases h
  · exact (Except.error.inj h).symm

theorem get_eq_ok_iff (m : Keyed α) {k : Key} {v : α} :
    (m.get k : Except (Fault K) α) = .ok v ↔ m.lookup k = some v := by
  unfold get
  cases m.lookup k <;> simp

/-- Keys in their order and what is held at each of them determine the map. -/
theorem ext_lookup {m n : Keyed α} (hkeys : m.keys = n.keys) (h : ∀ k, m.lookup k = n.lookup k) :
    m = n := by
  have hentries : m.entries = n.entries := by
    refine List.ext_getElem (by simpa [keys] using congrArg List.length hkeys) fun i hi hj => ?_
    have hfst : m.entries[i].1 = n.entries[i].1 := by
      simpa [keys] using List.getElem_of_eq hkeys (by simpa [keys] using hi)
    have hm := lookup_of_mem (m := m) (List.getElem_mem hi)
    rw [h, hfst, lookup_of_mem (List.getElem_mem hj)] at hm
    exact Prod.ext hfst (Option.some.inj hm).symm
  obtain ⟨entries, _⟩ := m
  obtain ⟨entries', _⟩ := n
  obtain rfl : entries = entries' := hentries
  rfl

/-! ## Lists with distinct keys -/

private theorem put_of_notMem {k : Key} {v : α} {l : List (Key × α)} (h : k ∉ l.map (·.1)) :
    put k v l = l ++ [(k, v)] := by
  induction l with
  | nil => rfl
  | cons e l ih =>
      rw [List.map_cons, List.mem_cons, not_or] at h
      simp [put, Ne.symm h.1, ih h.2]

private theorem entries_foldl_insert {l : List (Key × α)} {m : Keyed α}
    (h : (m.keys ++ l.map (·.1)).Nodup) :
    (l.foldl (fun m e => m.insert e.1 e.2) m).entries = m.entries ++ l := by
  induction l generalizing m with
  | nil => simp
  | cons e l ih =>
      have hmem : e.1 ∉ m.keys := fun hm =>
        (List.nodup_append.1 h).2.2 _ hm _ (List.mem_cons_self ..) rfl
      have hentries : (m.insert e.1 e.2).entries = m.entries ++ [e] := put_of_notMem hmem
      rw [List.foldl_cons, ih (by simpa [keys, hentries] using h), hentries, List.append_assoc]
      rfl

theorem entries_ofList {l : List (Key × α)} (h : (l.map (·.1)).Nodup) : (ofList l).entries = l := by
  simpa [ofList, empty] using entries_foldl_insert (m := empty) (by simpa using h)

theorem ofList_entries (m : Keyed α) : ofList m.entries = m := by
  obtain ⟨entries, hnodup⟩ := m
  have h := entries_ofList hnodup
  cases hm : ofList entries with
  | mk l _ =>
      rw [hm] at h
      obtain rfl : l = entries := h
      rfl

theorem lookup_ofList {l : List (Key × α)} (h : (l.map (·.1)).Nodup) {k : Key} {v : α} :
    (ofList l).lookup k = some v ↔ (k, v) ∈ l := by
  rw [lookup_iff, entries_ofList h]

theorem lookup_ofList_singleton (k : Key) (v : α) : (ofList [(k, v)]).lookup k = some v :=
  lookup_of_mem (m := .ofList [(k, v)]) (.head _)

theorem mem_of_lookup_ofList {l : List (Key × α)} {k : Key} {v : α}
    (h : (ofList l).lookup k = some v) : (k, v) ∈ l := by
  have hfold : ∀ (l : List (Key × α)) (m : Keyed α),
      (l.foldl (fun m e => m.insert e.1 e.2) m).lookup k = some v →
        (k, v) ∈ l ∨ m.lookup k = some v := by
    intro l
    induction l with
    | nil => exact fun _ h => .inr h
    | cons e l ih =>
        intro m h
        rcases ih _ h with h | h
        · exact .inl (.tail _ h)
        · rw [lookup_insert] at h
          split at h
          · rename_i hk
            obtain rfl := Option.some.inj h
            exact .inl (hk ▸ .head _)
          · exact .inr h
  exact (hfold l empty h).resolve_right (by simp)

/-! ## Keys of inserted entries -/

theorem keys_insert_eq (m : Keyed α) (k : Key) (v : α) :
    (m.insert k v).keys = firstAppearances (m.keys ++ [k]) := by
  rw [keys_insert]
  split
  · rename_i hk
    rw [firstAppearances_append_of_subset (by simpa using hk),
      firstAppearances_of_nodup m.nodup_keys]
  · rename_i hk
    have hn := (m.insert k v).nodup_keys
    rw [keys_insert, if_neg hk] at hn
    exact (firstAppearances_of_nodup hn).symm

/-- If each step appends the keys that are new, so do all together. -/
theorem keys_foldl {f : Keyed α → β → Keyed α} {keysOf : β → List Key}
    (hf : ∀ m b, (f m b).keys = firstAppearances (m.keys ++ keysOf b)) (l : List β) (m : Keyed α) :
    (l.foldl f m).keys = firstAppearances (m.keys ++ l.flatMap keysOf) := by
  induction l generalizing m with
  | nil => rw [List.flatMap_nil, List.append_nil, firstAppearances_of_nodup m.nodup_keys]; rfl
  | cons b l ih =>
      rw [List.foldl_cons, ih, hf, firstAppearances_append_left, List.append_assoc,
        List.flatMap_cons]

/-- Inserting entries appends the keys that are new. -/
theorem keys_foldl_insert (l : List (Key × α)) (m : Keyed α) :
    (l.foldl (fun m e => m.insert e.1 e.2) m).keys = firstAppearances (m.keys ++ l.map (·.1)) := by
  rw [keys_foldl fun m e => keys_insert_eq m e.1 e.2, List.map_eq_flatMap]

theorem mem_keys_foldl_insert {l : List (Key × α)} {m : Keyed α} {k : Key} :
    k ∈ (l.foldl (fun m e => m.insert e.1 e.2) m).keys ↔ k ∈ m.keys ∨ k ∈ l.map (·.1) := by
  rw [keys_foldl_insert, mem_firstAppearances, List.mem_append]

theorem mem_keys_ofList {l : List (Key × α)} {k : Key} : k ∈ (ofList l).keys ↔ k ∈ l.map (·.1) := by
  rw [ofList, mem_keys_foldl_insert, keys_empty]
  simp only [List.not_mem_nil, false_or]

/-! ## Sums over the entries -/

private theorem sum_lookup_list {l : List (Key × α)} (hl : (l.map (·.1)).Nodup) {ks : List Key}
    (hks : ks.Nodup) (h : ∀ k ∈ l.map (·.1), k ∈ ks) (f : Key → α → ℝ) :
    (ks.map fun k => (l.lookup k).elim 0 (f k)).sum = (l.map fun e => f e.1 e.2).sum := by
  induction l with
  | nil => simp
  | cons e l ih =>
      rw [List.map_cons, List.nodup_cons] at hl
      have hnone : l.lookup e.1 = none := lookup_of_notMem hl.1
      have hsplit : ∀ k, ((e :: l).lookup k).elim 0 (f k) =
          (if k = e.1 then f e.1 e.2 else 0) + (l.lookup k).elim 0 (f k) := by
        intro k
        rw [lookup_cons]
        split
        · rename_i hk
          rw [hk, hnone]
          simp
        · simp
      simp only [hsplit]
      rw [List.sum_map_add, ih hl.2 fun k hk => h k (.tail _ hk), List.map_cons, List.sum_cons,
        List.sum_map_ite_eq, List.count_eq_one_of_mem hks (h e.1 (.head _))]
      simp

theorem sum_lookup (m : Keyed α) {ks : List Key} (hks : ks.Nodup) (h : ∀ k ∈ m.keys, k ∈ ks)
    (f : Key → α → ℝ) :
    (ks.map fun k => (m.lookup k).elim 0 (f k)).sum = (m.entries.map fun e => f e.1 e.2).sum :=
  sum_lookup_list m.nodup hks h f

/-! ## Dimensions -/

/-- Every key of the map has the dimension that `D` gives it. -/
def Within (m : Keyed Nat) (D : Key → Nat) : Prop := ∀ k d, m.lookup k = some d → d = D k

theorem Within.insert {m : Keyed Nat} {D : Key → Nat} (h : m.Within D) {k : Key} {d : Nat}
    (hd : d = D k) : (m.insert k d).Within D := by
  intro j e hj
  rw [lookup_insert] at hj
  split at hj
  · rename_i hjk
    rw [← Option.some.inj hj, hd, hjk]
  · exact h j e hj

/-- Dimensions that agree with `D` merge, and the result has the keys of both sides. -/
theorem mergeDims_of_within {D : Key → Nat} {added : List (Key × Nat)} (ha : ∀ e ∈ added, e.2 = D e.1)
    {known : Keyed Nat} (hk : known.Within D) :
    ∃ m, (mergeDims known added : Except (Fault K) _) = .ok m ∧ m.Within D ∧
      ∀ k, k ∈ m.keys ↔ k ∈ known.keys ∨ k ∈ added.map (·.1) := by
  induction added generalizing known with
  | nil => exact ⟨known, rfl, hk, by simp⟩
  | cons e added ih =>
      have hadded := fun f hf => ha f (.tail _ hf)
      have he := ha e (.head _)
      simp only [mergeDims, List.foldlM_cons] at ih ⊢
      cases hl : known.lookup e.1 with
      | none =>
          obtain ⟨m, hm, hw, hkeys⟩ := ih hadded (hk.insert he)
          refine ⟨m, hm, hw, fun k => ?_⟩
          rw [hkeys, keys_insert, if_neg ((lookup_eq_none_iff _).1 hl)]
          simp [or_assoc]
      | some d =>
          obtain ⟨m, hm, hw, hkeys⟩ := ih hadded hk
          have hd : d = e.2 := (hk _ _ hl).trans he.symm
          refine ⟨m, ?_, hw, fun k => ?_⟩
          · simp only [hd, ↓reduceIte]
            exact hm
          · have hmem : e.1 ∈ known.keys := (mem_keys_iff _).2 ⟨d, hl⟩
            rw [hkeys, List.map_cons, List.mem_cons]
            grind

/-- Merging keeps the known dimensions, and every added key has the dimension it came with. -/
theorem lookup_mergeDims {added : List (Key × Nat)} {known m : Keyed Nat}
    (h : (mergeDims known added : Except (Fault K) _) = .ok m) :
    (∀ k d, known.lookup k = some d → m.lookup k = some d) ∧
      ∀ e ∈ added, m.lookup e.1 = some e.2 := by
  induction added generalizing known with
  | nil =>
      cases h
      exact ⟨fun _ _ h => h, by simp⟩
  | cons e added ih =>
      simp only [mergeDims, List.foldlM_cons] at ih h
      cases hl : known.lookup e.1 with
      | none =>
          rw [hl] at h
          obtain ⟨hkeep, hadd⟩ := ih h
          have hput : ∀ k d, known.lookup k = some d → (known.insert e.1 e.2).lookup k = some d := by
            intro k d hk
            rw [lookup_insert, if_neg, hk]
            rintro rfl
            rw [hl] at hk
            cases hk
          refine ⟨fun k d hk => hkeep k d (hput k d hk), fun f hf => ?_⟩
          rcases List.mem_cons.1 hf with rfl | hf
          · exact hkeep _ _ (by rw [lookup_insert, if_pos rfl])
          · exact hadd f hf
      | some d =>
          rw [hl] at h
          by_cases hd : d = e.2
          · simp only [hd, ↓reduceIte] at h
            obtain ⟨hkeep, hadd⟩ := ih h
            refine ⟨hkeep, fun f hf => ?_⟩
            rcases List.mem_cons.1 hf with rfl | hf
            · exact hkeep _ _ (hd ▸ hl)
            · exact hadd f hf
          · simp only [hd, ↓reduceIte] at h
            cases h

theorem mergeDims_eq_error {added : List (Key × Nat)} {known : Keyed Nat} {e : Fault K}
    (h : mergeDims known added = .error e) : ∃ c, e = .dimension c := by
  obtain ⟨_, _, _, h⟩ := foldlM_eq_error h
  split at h
  · cases h
  · split at h
    · cases h
    · exact ⟨_, (Except.error.inj h).symm⟩

/-- Merging inserts what is added. -/
theorem mergeDims_eq_foldl {added : List (Key × Nat)} {known m : Keyed Nat}
    (h : (mergeDims known added : Except (Fault K) _) = .ok m) :
    m = added.foldl (fun m e => m.insert e.1 e.2) known := by
  induction added generalizing known with
  | nil => exact (Except.ok.inj h).symm
  | cons e added ih =>
      simp only [mergeDims, List.foldlM_cons] at ih h
      rw [List.foldl_cons]
      cases hl : known.lookup e.1 with
      | none =>
          rw [hl] at h
          exact ih h
      | some d =>
          rw [hl] at h
          by_cases hd : d = e.2
          · simp only [hd, ↓reduceIte] at h
            rw [insert_of_lookup (hd ▸ hl)]
            exact ih h
          · simp only [hd, ↓reduceIte] at h
            cases h

theorem entries_mergeDims {added : List (Key × Nat)} {known m : Keyed Nat}
    (h : (mergeDims known added : Except (Fault K) _) = .ok m)
    (hn : (known.keys ++ added.map (·.1)).Nodup) : m.entries = known.entries ++ added := by
  rw [mergeDims_eq_foldl h, entries_foldl_insert hn]

theorem mergeDims_of_known {added : List (Key × Nat)} {known m : Keyed Nat}
    (h : (mergeDims known added : Except (Fault K) _) = .ok m)
    (hk : ∀ e ∈ added, e.1 ∈ known.keys) : m = known := by
  induction added with
  | nil => exact (Except.ok.inj h).symm
  | cons e added ih =>
      obtain ⟨d, hd⟩ := (mem_keys_iff known).1 (hk e (.head _))
      simp only [mergeDims, List.foldlM_cons, hd] at ih h
      split at h
      · exact ih h fun f hf => hk f (.tail _ hf)
      · cases h

end Keyed

theorem sum_swap {α β : Type} (l : List α) (r : List β) (f : α → β → ℝ) :
    (l.map fun a => (r.map fun b => f a b).sum).sum =
      (r.map fun b => (l.map fun a => f a b).sum).sum := by
  induction l with
  | nil => simp
  | cons a l ih => simp only [List.map_cons, List.sum_cons, ih, List.sum_map_add]

end ActiveSet
