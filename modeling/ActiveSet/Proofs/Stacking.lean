import ActiveSet.Proofs.StackedSystems

/-!
# Stacking and splitting

A stacked vector is cut at the ends of its blocks, so to split it and to stack the blocks again
gives it back, and the blocks of a point come out of its stacked vector as they went in.
-/

namespace ActiveSet

namespace Point

variable {K : Type}

/-! ## Pieces -/

private theorem flatten_pieces {sized : List (Key × Nat)} {v : List K}
    (hv : v.length = totalDim sized) : ((pieces sized v).map (·.2)).flatten = v := by
  induction sized generalizing v with
  | nil => exact (List.length_eq_zero_iff.1 hv).symm
  | cons e sized ih =>
      rw [totalDim] at hv
      have hrest : (v.drop e.2).length = totalDim sized := by rw [List.length_drop, hv]; omega
      rw [pieces, List.map_cons, List.flatten_cons, ih hrest, List.take_append_drop]

private theorem pieces_flatMap (ks : List Key) (r : Key → List K) :
    pieces (ks.map fun k => (k, (r k).length)) (ks.flatMap r) = ks.map fun k => (k, r k) := by
  induction ks with
  | nil => rfl
  | cons k ks ih =>
      rw [List.map_cons, List.flatMap_cons, pieces, List.take_left' rfl, List.drop_left' rfl, ih,
        List.map_cons]

/-! ## Splitting -/

private theorem totalDim_map (ks : List Key) (D : Key → Nat) :
    totalDim (ks.map fun k => (k, D k)) = (ks.map D).sum := by
  rw [totalDim_eq_sum, List.map_map]
  rfl

/-- What a split does, for dimensions that are known at all keys of the ordering. -/
theorem split_of_lookup {ordering : List Key} {dims : Keyed Nat} {D : Key → Nat}
    (h : ∀ k ∈ ordering, dims.lookup k = some (D k)) (v : List K) :
    split v ordering dims =
      if v.length = (ordering.map D).sum then
        .ok (Keyed.ofList (pieces (ordering.map fun k => (k, D k)) v))
      else .error (.dimension (.stacked v.length (ordering.map D).sum)) := by
  rw [split, sized_of_lookup h, ok_bind, totalDim_map]
  exact if_congr eq_comm rfl rfl

/-! ## Stacking -/

theorem stack_keys (x : Point K) : x.stack x.keys = .ok x.values.flatten := by
  have hget : x.keys.mapM x.get = (.ok x.values : Except (Fault K) _) := by
    rw [mapM_eq_ok, Keyed.keys, Keyed.values, List.forall₂_map_left_iff,
      List.forall₂_map_right_iff, List.forall₂_same]
    exact fun e he => (Keyed.get_eq_ok_iff x).2 (Keyed.lookup_of_mem he)
  rw [stack, hget, ok_bind, pure_eq_ok]

/-! ## Round trips -/

variable {ordering : List Key}

/-- A vector of the right length is split into the blocks of the ordering and stacked from them. -/
theorem stack_of_split (hn : ordering.Nodup) {dims : Keyed Nat} {D : Key → Nat}
    (h : ∀ k ∈ ordering, dims.lookup k = some (D k)) {v : List K}
    (hv : v.length = (ordering.map D).sum) :
    ∃ x, split v ordering dims = .ok x ∧ x.keys = ordering ∧
      (∀ k ∈ ordering, x.dims.lookup k = some (D k)) ∧ x.stack ordering = .ok v := by
  let sized := ordering.map fun k => (k, D k)
  let x : Point K := Keyed.ofList (pieces sized v)
  have hkeys : (pieces sized v).map (·.1) = ordering := by
    rw [keys_pieces, List.map_map]
    exact List.map_id ordering
  have hentries : x.entries = pieces sized v := Keyed.entries_ofList (hkeys ▸ hn)
  have htotal : v.length = totalDim sized := hv.trans (totalDim_map ordering D).symm
  have hxkeys : x.keys = ordering := by rw [Keyed.keys, hentries, hkeys]
  refine ⟨x, by rw [split_of_lookup h, if_pos hv], hxkeys, fun k hk => ?_, ?_⟩
  · obtain ⟨u, hu⟩ := (Keyed.mem_keys_iff x).1 (hxkeys ▸ hk)
    have hpiece := (Keyed.lookup_iff x).1 hu
    rw [hentries] at hpiece
    obtain ⟨j, _, hj⟩ := List.mem_map.1 (length_pieces htotal hpiece)
    obtain ⟨rfl, hlength⟩ := Prod.mk.inj hj
    rw [Point.dims, Keyed.lookup_map, hu, Option.map_some]
    exact congrArg some hlength.symm
  · rw [← hxkeys, stack_keys, Keyed.values, hentries, flatten_pieces htotal]

/-- The blocks of a point come back from its stacked vector. -/
theorem split_of_stack {x : Point K} (h : ordering ⊆ x.keys) :
    split (ordering.flatMap x.part) ordering x.dims = .ok (tabulate ordering x.part) := by
  have hdims : ∀ k ∈ ordering, x.dims.lookup k = some (x.part k).length := by
    intro k hk
    obtain ⟨v, hv⟩ := (Keyed.mem_keys_iff x).1 (h hk)
    rw [dims, Keyed.lookup_map, part_of_lookup hv, hv, Option.map_some]
  rw [split_of_lookup hdims, if_pos List.length_flatMap, pieces_flatMap, tabulate]

/--
Splitting and stacking are inverse over an ordering without repetitions: a vector of any other
length than the dimensions sum to is refused, one of that length is split into the blocks of the
ordering and stacked from them, and a point that is stacked and split again is its restriction to
the ordering.
-/
theorem split_stack_inverse (hn : ordering.Nodup) :
    (∀ (dims : Keyed Nat) (D : Key → Nat), (∀ k ∈ ordering, dims.lookup k = some (D k)) →
      ∀ v : List K,
        (v.length ≠ (ordering.map D).sum →
          split v ordering dims = .error (.dimension (.stacked v.length (ordering.map D).sum))) ∧
        (v.length = (ordering.map D).sum → ∃ x, split v ordering dims = .ok x ∧ x.keys = ordering ∧
          (∀ k ∈ ordering, x.dims.lookup k = some (D k)) ∧ x.stack ordering = .ok v)) ∧
    ∀ x : Point K, ordering ⊆ x.keys → ∃ v y, x.stack ordering = .ok v ∧
      split v ordering x.dims = .ok y ∧ y.keys = ordering ∧
      ∀ k ∈ ordering, y.lookup k = x.lookup k := by
  refine ⟨fun dims D h v => ⟨fun hv => ?_, fun hv => stack_of_split hn h hv⟩, fun x h => ?_⟩
  · rw [split_of_lookup h, if_neg hv]
  · refine ⟨_, _, stack_of_subset h, split_of_stack h, ?_, fun k hk => ?_⟩
    · rw [tabulate, Keyed.keys, Keyed.entries_ofList (by rwa [keys_tabulate]), keys_tabulate]
    · obtain ⟨v, hv⟩ := (Keyed.mem_keys_iff x).1 (h hk)
      rw [lookup_tabulate hn _ hk, part_of_lookup hv, hv]

end Point

namespace TwoVariables

/-- An ordering with an empty block in its middle. -/
theorem split_stack_inverse_empty_block :
    [left, spare, right].Nodup ∧
    (∃ x : Point ℝ, Point.split [1, 2, 3] [left, spare, right]
        (Keyed.ofList [(left, 1), (right, 2), (spare, 0)]) = .ok x ∧
      x.keys = [left, spare, right] ∧ x.dims.lookup spare = some 0 ∧
      x.stack [left, spare, right] = .ok [1, 2, 3]) ∧
    Point.split ([1, 2] : List ℝ) [left, spare, right]
        (Keyed.ofList [(left, 1), (right, 2), (spare, 0)]) = .error (.dimension (.stacked 2 3)) ∧
    ∃ y : Point ℝ, Point.split [5, 1] [right, left] (atBoth 1 5).dims = .ok y ∧
      y.lookup right = some [5] ∧ y.lookup left = some [1] := by
  have hn : [left, spare, right].Nodup := by decide
  let D : Key → Nat := fun k => if k = left then 1 else if k = right then 2 else 0
  obtain ⟨hsplit, _⟩ := Point.split_stack_inverse (K := ℝ) hn
  have hdims : ∀ k ∈ [left, spare, right],
      (Keyed.ofList [(left, 1), (right, 2), (spare, 0)]).lookup k = some (D k) := by decide
  refine ⟨hn, ?_, (hsplit _ D hdims [1, 2]).1 (by decide), ?_⟩
  · obtain ⟨x, hx, hkeys, hlength, hstack⟩ := (hsplit _ D hdims [1, 2, 3]).2 rfl
    exact ⟨x, hx, hkeys, hlength spare (by decide), hstack⟩
  · have hturned : [right, left].Nodup := by decide
    obtain ⟨v, y, hv, hy, _, hlookup⟩ :=
      (Point.split_stack_inverse hturned).2 (atBoth 1 5) (by decide)
    obtain rfl : [5, 1] = v := Except.ok.inj hv
    exact ⟨y, hy, hlookup right (by decide), hlookup left (by decide)⟩

end TwoVariables

end ActiveSet
