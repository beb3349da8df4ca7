import Mathlib.Analysis.Real.Sqrt
import ActiveSet.Proofs.Solvers

/-!
# Objectives along a line

The points of a line hold, at every key that a solver knows, the sum of a vector and a multiple of
another. A linear objective changes by its slope along the line; any objective lies above it.
-/

namespace ActiveSet

/-! ## Points of a line -/

namespace Point

/-- The point `x + t d` at the known keys; a vector that is missing counts as zero. -/
noncomputable def along (dims : Keyed Nat) (x d : Point ℝ) (t : ℝ) : Point ℝ :=
  tabulate dims.keys fun k =>
    Vec.add (Vec.fit ((dims.lookup k).getD 0) (x.part k))
      (Vec.scale t (Vec.fit ((dims.lookup k).getD 0) (d.part k)))

theorem lookup_along {dims : Keyed Nat} (x d : Point ℝ) (t : ℝ) {k : Key} {n : Nat}
    (hk : dims.lookup k = some n) : (along dims x d t).lookup k =
      some (Vec.add (Vec.fit n (x.part k)) (Vec.scale t (Vec.fit n (d.part k)))) := by
  rw [along, lookup_tabulate dims.nodup_keys _ ((Keyed.mem_keys_iff _).2 ⟨n, hk⟩), hk,
    Option.getD_some]

theorem dot_part_along {dims : Keyed Nat} (x d : Point ℝ) (t : ℝ) {k : Key} {row : List ℝ} {n : Nat}
    (hk : dims.lookup k = some n) (hrow : row.length ≤ n) :
    Vec.dot row ((along dims x d t).part k) =
      Vec.dot row (x.part k) + t * Vec.dot row (d.part k) := by
  rw [part_of_lookup (lookup_along x d t hk), Vec.dot_add_right (by simp), Vec.dot_scale_right,
    Vec.dot_fit_right hrow, Vec.dot_fit_right hrow]

/-- What leads from `x` to `y` at the known keys. -/
noncomputable def between (dims : Keyed Nat) (x y : Point ℝ) : Point ℝ := along dims y x (-1)

theorem dot_part_between {dims : Keyed Nat} (x y : Point ℝ) {k : Key} {row : List ℝ} {n : Nat}
    (hk : dims.lookup k = some n) (hrow : row.length ≤ n) :
    Vec.dot row ((between dims x y).part k) =
      Vec.dot row (y.part k) - Vec.dot row (x.part k) := by
  rw [between, dot_part_along y x (-1) hk hrow]
  ring

end Point

namespace Factor

variable {dims : Keyed Nat} {f : Factor ℝ}

theorem values_along (hf : ∀ e ∈ f.terms.entries, (e.1, e.2.cols) ∈ dims.entries) (x d : Point ℝ)
    (t : ℝ) :
    f.values (Point.along dims x d t) = Vec.add (f.values x) (Vec.scale t (f.values d)) := by
  have hrow : ∀ i, f.rowValue i (Point.along dims x d t) = f.rowValue i x + t * f.rowValue i d := by
    intro i
    rw [rowValue, rowValue, rowValue, ← List.sum_map_mul_left, ← List.sum_map_add]
    congr 1
    refine List.map_congr_left fun e he => ?_
    exact Point.dot_part_along x d t ((Keyed.lookup_iff _).2 (hf e he)) (e.2.length_row i)
  simp only [values, Vec.add, Vec.scale, List.map_map, List.zipWith_map, List.zipWith_self, hrow,
    Function.comp_apply]

theorem values_between (hf : ∀ e ∈ f.terms.entries, (e.1, e.2.cols) ∈ dims.entries) (x y : Point ℝ) :
    f.values (Point.between dims x y) = Vec.sub (f.values y) (f.values x) := by
  rw [Point.between, values_along hf, Vec.sub_eq_add_neg', Vec.neg_eq_scale]

theorem defect_along (hf : ∀ e ∈ f.terms.entries, (e.1, e.2.cols) ∈ dims.entries) (x d : Point ℝ)
    (t : ℝ) :
    f.defect (Point.along dims x d t) = Vec.add (f.defect x) (Vec.scale t (f.values d)) := by
  rw [defect, values_along hf, Vec.add_sub_right_comm, defect]

theorem fits_along (hf : ∀ e ∈ f.terms.entries, (e.1, e.2.cols) ∈ dims.entries) (x d : Point ℝ)
    (t : ℝ) : f.Fits (Point.along dims x d t) := by
  intro e he v hv
  rw [Point.lookup_along x d t ((Keyed.lookup_iff _).2 (hf e he))] at hv
  simp [← Option.some.inj hv]

end Factor

theorem Factor.sub_defect (f : Factor ℝ) (x y : Point ℝ) :
    Vec.sub (f.defect y) (f.defect x) = Vec.sub (f.values y) (f.values x) := by
  refine Vec.ext_getD (by simp) fun i hi => ?_
  have hi : i < f.rows := by simpa using hi
  have hb : i < f.b.length := hi
  rw [Vec.getD_sub (by simpa) (by simpa), Vec.getD_sub (by simpa) (by simpa), defect, defect,
    Vec.getD_sub (by simpa) hb, Vec.getD_sub (by simpa) hb]
  ring

/-! ## Least-squares errors -/

theorem Factor.error_eq_ok {f : Factor ℝ} {x : Point ℝ} {a : ℝ} :
    f.error x = .ok a ↔ f.Fits x ∧ a = 0.5 * Vec.dot (f.defect x) (f.defect x) := by
  simp only [Factor.error, bind_eq_ok, pure_eq_ok, Factor.residual_eq_ok]
  constructor
  · rintro ⟨_, ⟨hfits, rfl⟩, rfl⟩
    exact ⟨hfits, rfl⟩
  · rintro ⟨hfits, rfl⟩
    exact ⟨_, ⟨hfits, rfl⟩, rfl⟩

theorem Graph.error_eq_ok {g : Graph ℝ} {x : Point ℝ} {a : ℝ} :
    g.error x = .ok a ↔ (∀ f ∈ g, f.Fits x) ∧
      a = (g.map fun f => 0.5 * Vec.dot (f.defect x) (f.defect x)).sum := by
  simp only [Graph.error, bind_eq_ok, pure_eq_ok, mapM_eq_ok_iff fun _ _ => Factor.error_eq_ok]
  constructor
  · rintro ⟨_, ⟨hfits, rfl⟩, rfl⟩
    exact ⟨hfits, Vec.total_eq_sum _⟩
  · rintro ⟨hfits, rfl⟩
    exact ⟨_, ⟨hfits, rfl⟩, Vec.total_eq_sum _⟩

private theorem half_dot_eq {r q : List ℝ} (h : q.length = r.length) :
    0.5 * Vec.dot q q = 0.5 * Vec.dot r r + Vec.dot (Vec.sub q r) r +
      0.5 * Vec.dot (Vec.sub q r) (Vec.sub q r) := by
  rw [Vec.dot_sub_left h, Vec.dot_sub_left h, Vec.dot_sub_right h, Vec.dot_sub_right h,
    Vec.dot_comm r q]
  ring

/-- The error at one point from that at another: their slope, and the square of what lies between. -/
theorem Graph.half_squares_between {g : Graph ℝ} {dims : Keyed Nat} (hg : g.Over dims.entries)
    (x y : Point ℝ) :
    (g.map fun f => 0.5 * Vec.dot (f.defect y) (f.defect y)).sum =
      (g.map fun f => 0.5 * Vec.dot (f.defect x) (f.defect x)).sum +
        (g.map fun f => Vec.dot (f.values (Point.between dims x y)) (f.defect x)).sum +
        (g.map fun f => 0.5 * Vec.dot (f.values (Point.between dims x y))
          (f.values (Point.between dims x y))).sum := by
  rw [← List.sum_map_add, ← List.sum_map_add]
  congr 1
  refine List.map_congr_left fun f hf => ?_
  rw [Factor.values_between (hg f hf), ← Factor.sub_defect]
  exact half_dot_eq (by simp)

/-! ## The amount of an objective -/

namespace Solver

variable {s : Solver ℝ}

/-- The vectors of a point have the dimensions that the objective asks for. -/
def Measures (s : Solver ℝ) (x : Point ℝ) : Prop :=
  match s.objective with
  | .quadratic => ∀ f ∈ s.cost, f.Fits x
  | .linear vectors => ∀ e ∈ vectors.entries, ∀ v, x.lookup e.1 = some v → v.length = e.2.length

/-- The value of the objective without the checks of dimensions. -/
noncomputable def amount (s : Solver ℝ) (x : Point ℝ) : ℝ :=
  match s.objective with
  | .quadratic => (s.cost.map fun f => 0.5 * Vec.dot (f.defect x) (f.defect x)).sum
  | .linear vectors => (vectors.entries.map fun e => Vec.dot e.2 (x.part e.1)).sum

theorem linearValue_eq_ok {vectors : Keyed (List ℝ)} {x : Point ℝ} {a : ℝ}
    (h : Cost.linearValue vectors x = .ok a) :
    a = (vectors.entries.map fun e => Vec.dot e.2 (x.part e.1)).sum :=
  (Point.dot_eq_ok.1 h).2

/-- The objective has a value exactly where the dimensions are right. -/
theorem value_eq_ok {x : Point ℝ} {a : ℝ} : s.value x = .ok a ↔ s.Measures x ∧ a = s.amount x := by
  unfold value Measures amount
  cases s.objective with
  | quadratic => exact Graph.error_eq_ok
  | linear vectors => exact Point.dot_eq_ok

/-! ## The objective above its slope -/

/-- A linear objective changes along a line by its slope. -/
theorem value_along (hs : s.WellFormed) {vectors : Keyed (List ℝ)}
    (ho : s.objective = .linear vectors) (x d : Point ℝ) (t : ℝ) :
    s.value (Point.along s.dims x d t) =
      .ok ((vectors.entries.map fun e => Vec.dot e.2 (x.part e.1)).sum + t * s.slope x d) := by
  rw [value, ho]
  dsimp only [Cost.linearValue, Point.dot]
  rw [mapM_eq_map (g := fun e => Vec.dot e.2 (x.part e.1) + t * Vec.dot e.2 (d.part e.1)), ok_bind,
    Vec.total_eq_sum, List.sum_map_add, List.sum_map_mul_left, slope, ho]
  · rfl
  · intro e he
    have hdim := hs.length_vector ho (Keyed.lookup_of_mem he)
    rw [Point.lookup_along x d t hdim]
    dsimp only
    rw [if_pos (by simp), ← Point.dot_part_along x d t hdim le_rfl,
      Point.part_of_lookup (Point.lookup_along x d t hdim)]

/-- The objective at one point is at least that at another plus the slope between them. -/
theorem amount_add_slope_le (hs : s.WellFormed) (x y : Point ℝ) :
    s.amount x + s.slope x (Point.between s.dims x y) ≤ s.amount y := by
  unfold amount slope
  cases ho : s.objective with
  | quadratic =>
      rw [Graph.half_squares_between hs.over_cost x y]
      refine le_add_of_nonneg_right (List.sum_nonneg fun a ha => ?_)
      obtain ⟨f, _, rfl⟩ := List.mem_map.1 ha
      exact mul_nonneg (by norm_num) (Vec.dot_self_nonneg _)
  | linear vectors =>
      rw [← List.sum_map_add]
      refine le_of_eq ?_
      congr 1
      refine List.map_congr_left fun e he => ?_
      rw [Point.dot_part_between x y (hs.length_vector ho (Keyed.lookup_of_mem he)) le_rfl]
      ring

theorem value_add_slope_le (hs : s.WellFormed) {x y : Point ℝ} {a b : ℝ} (hx : s.value x = .ok a)
    (hy : s.value y = .ok b) : a + s.slope x (Point.between s.dims x y) ≤ b := by
  rw [(value_eq_ok.1 hx).2, (value_eq_ok.1 hy).2]
  exact amount_add_slope_le hs x y

end Solver

end ActiveSet
