import Mathlib.Data.Set.Finite.Lattice
import ActiveSet.Proofs.ExactKernels

/-!
# Linear programs attain their optimum

A feasible linear program whose cost is bounded from below has an optimum: every feasible vector can
be improved until the rows that it makes tight determine its cost, and there are finitely many sets
of rows. So an exact kernel gives up on unbounded programs only.
-/

namespace ActiveSet

namespace LinearProgram

/-! ## Rows -/

section Rows

variable {rows : List (List ℝ × ℝ)} {cost : List ℝ} {n : Nat} {u v d : List ℝ}

/-- A vector of `n` entries that satisfies every row `aᵀ v ≤ b`. -/
structure Within (rows : List (List ℝ × ℝ)) (n : Nat) (v : List ℝ) : Prop where
  length_eq : v.length = n
  le : ∀ r ∈ rows, Vec.dot r.1 v ≤ r.2

/-- No direction that keeps the tight rows tight changes the cost. -/
def Critical (rows : List (List ℝ × ℝ)) (cost v : List ℝ) : Prop :=
  ∀ d : List ℝ, d.length = v.length →
    (∀ r ∈ rows, Vec.dot r.1 v = r.2 → Vec.dot r.1 d = 0) → Vec.dot cost d = 0

open Classical in
/-- The rows that leave room. -/
noncomputable def loose (rows : List (List ℝ × ℝ)) (v : List ℝ) : Finset (List ℝ × ℝ) :=
  rows.toFinset.filter fun r => Vec.dot r.1 v ≠ r.2

theorem mem_loose {r : List ℝ × ℝ} : r ∈ loose rows v ↔ r ∈ rows ∧ Vec.dot r.1 v ≠ r.2 := by
  rw [loose, Finset.mem_filter, List.mem_toFinset]

theorem dot_move (hlen : d.length = v.length) (a : List ℝ) (s : ℝ) :
    Vec.dot a (Vec.add v (Vec.scale s d)) = Vec.dot a v + s * Vec.dot a d := by
  rw [Vec.dot_add_right (by simp [hlen]), Vec.dot_scale_right]

theorem Within.ray (hv : Within rows n v) (hlen : d.length = v.length)
    (hd : ∀ r ∈ rows, Vec.dot r.1 d ≤ 0) {s : ℝ} (hs : 0 ≤ s) :
    Within rows n (Vec.add v (Vec.scale s d)) := by
  refine ⟨by simp [hlen, hv.length_eq], fun r hr => ?_⟩
  rw [dot_move hlen]
  have hfall := mul_nonpos_of_nonneg_of_nonpos hs (hd r hr)
  linarith [hv.le r hr]

/-- Going as far as the rows allow makes one more of them tight. -/
theorem Within.exists_blocked (hv : Within rows n v) (hlen : d.length = v.length)
    (htight : ∀ r ∈ rows, Vec.dot r.1 v = r.2 → Vec.dot r.1 d = 0)
    (hrise : ∃ r ∈ rows, 0 < Vec.dot r.1 d) :
    ∃ s, 0 ≤ s ∧ Within rows n (Vec.add v (Vec.scale s d)) ∧
      loose rows (Vec.add v (Vec.scale s d)) ⊂ loose rows v := by
  classical
  let rising := rows.toFinset.filter fun r => 0 < Vec.dot r.1 d
  let ratio := fun r : List ℝ × ℝ => (r.2 - Vec.dot r.1 v) / Vec.dot r.1 d
  have hmem : ∀ r, r ∈ rising ↔ r ∈ rows ∧ 0 < Vec.dot r.1 d := fun r => by
    rw [Finset.mem_filter, List.mem_toFinset]
  obtain ⟨r₀, hr₀, hleast⟩ : ∃ r₀ ∈ rising, ∀ r ∈ rising, ratio r₀ ≤ ratio r := by
    obtain ⟨r, hr⟩ := hrise
    exact Finset.exists_min_image rising ratio ⟨r, (hmem r).2 hr⟩
  obtain ⟨hrows, hpos⟩ := (hmem r₀).1 hr₀
  have hs : 0 ≤ ratio r₀ := div_nonneg (sub_nonneg.2 (hv.le r₀ hrows)) hpos.le
  refine ⟨ratio r₀, hs, ⟨by simp [hlen, hv.length_eq], fun r hr => ?_⟩, ?_⟩
  · rw [dot_move hlen]
    rcases le_or_gt (Vec.dot r.1 d) 0 with hfall | hup
    · linarith [hv.le r hr, mul_nonpos_of_nonneg_of_nonpos hs hfall]
    · have hstep := (le_div_iff₀ hup).1 (hleast r ((hmem r).2 ⟨hr, hup⟩))
      linarith
  · refine Finset.ssubset_iff_subset_ne.2 ⟨fun r hr => ?_, fun heq => ?_⟩
    · obtain ⟨hr, hne⟩ := mem_loose.1 hr
      refine mem_loose.2 ⟨hr, fun hrow => hne ?_⟩
      rw [dot_move hlen, htight r hr hrow, mul_zero, add_zero, hrow]
    · have hloose : r₀ ∈ loose rows v := mem_loose.2 ⟨hrows, fun hrow =>
        hpos.ne' (htight r₀ hrows hrow)⟩
      rw [← heq, mem_loose, dot_move hlen, div_mul_cancel₀ _ hpos.ne', add_sub_cancel] at hloose
      exact hloose.2 rfl

theorem exists_descent (h : ¬Critical rows cost v) : ∃ d : List ℝ, d.length = v.length ∧
    (∀ r ∈ rows, Vec.dot r.1 v = r.2 → Vec.dot r.1 d = 0) ∧ Vec.dot cost d < 0 := by
  obtain ⟨e, he⟩ := not_forall.1 h
  obtain ⟨hlen, he⟩ := Classical.not_imp.1 he
  obtain ⟨htight, hcost⟩ := Classical.not_imp.1 he
  -- One of the two directions lowers the cost.
  rcases lt_or_gt_of_ne hcost with hneg | hpos
  · exact ⟨e, hlen, htight, hneg⟩
  · refine ⟨Vec.scale (-1) e, by simpa using hlen, fun r hr hrow => ?_, ?_⟩
    · rw [Vec.dot_scale_right, htight r hr hrow, mul_zero]
    · rw [Vec.dot_scale_right]
      linarith

/-- Where the cost is bounded, some row rises along a direction that lowers it. -/
theorem Within.exists_rising (hv : Within rows n v) {low : ℝ}
    (hlow : ∀ u, Within rows n u → low ≤ Vec.dot cost u) (hlen : d.length = v.length)
    (hd : Vec.dot cost d < 0) : ∃ r ∈ rows, 0 < Vec.dot r.1 d := by
  by_contra hnone
  have hfall : ∀ r ∈ rows, Vec.dot r.1 d ≤ 0 := fun r hr =>
    not_lt.1 fun hpos => hnone ⟨r, hr, hpos⟩
  have hs : 0 ≤ (Vec.dot cost v - low + 1) / -Vec.dot cost d :=
    div_nonneg (by linarith [hlow v hv]) (by linarith)
  have hray := hlow _ (hv.ray hlen hfall hs)
  have hdrop : (Vec.dot cost v - low + 1) / -Vec.dot cost d * Vec.dot cost d =
      -(Vec.dot cost v - low + 1) := by
    rw [div_neg, neg_mul, div_mul_cancel₀ _ hd.ne]
  rw [dot_move hlen, hdrop] at hray
  linarith

/-- Every vector within the rows can be improved to a critical one. -/
theorem Within.exists_critical {low : ℝ} (hlow : ∀ u, Within rows n u → low ≤ Vec.dot cost u)
    (hv : Within rows n v) :
    ∃ u, Within rows n u ∧ Critical rows cost u ∧ Vec.dot cost u ≤ Vec.dot cost v := by
  -- Every improvement makes one more row tight.
  induction hcard : (loose rows v).card using Nat.strong_induction_on generalizing v with
  | _ m ih =>
      by_cases hcrit : Critical rows cost v
      · exact ⟨v, hv, hcrit, le_rfl⟩
      · obtain ⟨d, hlen, htight, hcost⟩ := exists_descent hcrit
        obtain ⟨s, hs, hwithin, hsub⟩ :=
          hv.exists_blocked hlen htight (hv.exists_rising hlow hlen hcost)
        obtain ⟨u, hu, hucrit, hle⟩ := ih _ (hcard ▸ Finset.card_lt_card hsub) hwithin rfl
        rw [dot_move hlen] at hle
        exact ⟨u, hu, hucrit, by linarith [mul_nonpos_of_nonneg_of_nonpos hs hcost.le]⟩

theorem Critical.dot_eq (hv : Critical rows cost v) (hlen : u.length = v.length)
    (hloose : loose rows u = loose rows v) : Vec.dot cost u = Vec.dot cost v := by
  have hzero := hv (Vec.sub u v) (by simp [hlen]) fun r hr hrow => by
    have hu : Vec.dot r.1 u = r.2 := by
      by_contra hne
      have hmem := mem_loose.2 ⟨hr, hne⟩
      rw [hloose] at hmem
      exact (mem_loose.1 hmem).2 hrow
    rw [Vec.dot_sub_right hlen, hu, hrow, sub_self]
  rw [Vec.dot_sub_right hlen] at hzero
  linarith

theorem Within.exists_least {low : ℝ} (hlow : ∀ u, Within rows n u → low ≤ Vec.dot cost u)
    (hv : Within rows n v) :
    ∃ u, Within rows n u ∧ ∀ y, Within rows n y → Vec.dot cost u ≤ Vec.dot cost y := by
  classical
  let best := { u : List ℝ | Within rows n u ∧ Critical rows cost u }
  have hrep : ∀ l, ∃ y, ∀ u ∈ best, loose rows u = l → y ∈ best ∧ loose rows y = l := by
    intro l
    by_cases h : ∃ u ∈ best, loose rows u = l
    · obtain ⟨y, hy, hl⟩ := h
      exact ⟨y, fun _ _ _ => ⟨hy, hl⟩⟩
    · exact ⟨[], fun u hu hl => absurd ⟨u, hu, hl⟩ h⟩
  choose rep hrep using hrep
  -- The critical costs are finitely many, for the loose rows determine them.
  have hfinite : (Vec.dot cost '' best).Finite := by
    refine (rows.toFinset.powerset.finite_toSet.image fun l => Vec.dot cost (rep l)).subset ?_
    rintro _ ⟨u, hu, rfl⟩
    refine ⟨loose rows u, Finset.mem_coe.2 (Finset.mem_powerset.2 (Finset.filter_subset _ _)), ?_⟩
    obtain ⟨hy, hl⟩ := hrep _ u hu rfl
    exact hu.2.dot_eq (hy.1.length_eq.trans hu.1.length_eq.symm) hl
  obtain ⟨u₀, hu₀, hcrit₀, -⟩ := hv.exists_critical hlow
  obtain ⟨_, ⟨u, hu, rfl⟩, hleast⟩ := Set.exists_min_image _ id hfinite ⟨_, u₀, ⟨hu₀, hcrit₀⟩, rfl⟩
  refine ⟨u, hu.1, fun y hy => ?_⟩
  obtain ⟨z, hz, hcrit, hle⟩ := hy.exists_critical hlow
  exact (hleast _ ⟨z, ⟨hz, hcrit⟩, rfl⟩).trans hle

end Rows

/-! ## Programs as rows -/

/-- The equations `C v = d` as pairs of rows, and the ranges as multiples of unit rows. -/
noncomputable def bounds (lp : LinearProgram ℝ) : List (List ℝ × ℝ) :=
  lp.atMost.matrix.rows.zip lp.atMost.rhs ++
    ((lp.equal.matrix.rows.zip lp.equal.rhs).flatMap fun r => [r, (Vec.neg r.1, -r.2)]) ++
    lp.ranges.zipIdx.flatMap fun r =>
      (r.1.upper.toList.map fun u => (Vec.unit lp.cost.length r.2, u)) ++
        r.1.lower.toList.map fun l => (Vec.neg (Vec.unit lp.cost.length r.2), -l)

private theorem atMost_iff {A : LinearSystem ℝ} {v : List ℝ} :
    List.Forall₂ (· ≤ ·) (A.matrix.mulVec v) A.rhs ↔ A.matrix.height = A.rhs.length ∧
      ∀ r ∈ A.matrix.rows.zip A.rhs, Vec.dot r.1 v ≤ r.2 := by
  rw [Matrix.mulVec, List.forall₂_map_left_iff, List.forall₂_iff_zip]
  exact and_congr_right fun _ => ⟨fun h r hr => h hr, fun h a b hr => h (a, b) hr⟩

private theorem equal_iff {C : LinearSystem ℝ} {v : List ℝ} :
    C.matrix.mulVec v = C.rhs ↔ C.matrix.height = C.rhs.length ∧
      ∀ r ∈ (C.matrix.rows.zip C.rhs).flatMap fun r => [r, (Vec.neg r.1, -r.2)],
        Vec.dot r.1 v ≤ r.2 := by
  rw [← List.forall₂_eq_eq_eq, Matrix.mulVec, List.forall₂_map_left_iff, List.forall₂_iff_zip]
  refine and_congr_right fun _ => ⟨fun h r hr => ?_, fun h a b hr => ?_⟩
  · obtain ⟨⟨a, b⟩, hab, hr⟩ := List.mem_flatMap.1 hr
    rcases List.mem_pair.1 hr with rfl | rfl
    · exact (h hab).le
    · rw [Vec.dot_neg_left, h hab]
  · have hle := h _ (List.mem_flatMap.2 ⟨_, hr, List.mem_pair.2 (.inl rfl)⟩)
    have hge := h _ (List.mem_flatMap.2 ⟨_, hr, List.mem_pair.2 (.inr rfl)⟩)
    rw [Vec.dot_neg_left, neg_le_neg_iff] at hge
    exact le_antisymm hle hge

private theorem contains_iff {ranges : List (Range ℝ)} {v : List ℝ} :
    List.Forall₂ Range.Contains ranges v ↔ ranges.length = v.length ∧
      ∀ r ∈ ranges.zipIdx.flatMap (fun r =>
        (r.1.upper.toList.map fun u => (Vec.unit v.length r.2, u)) ++
          r.1.lower.toList.map fun l => (Vec.neg (Vec.unit v.length r.2), -l)),
        Vec.dot r.1 v ≤ r.2 := by
  have hentry : ∀ i (hi : i < v.length), Vec.dot (Vec.unit v.length i) v = v[i] := by
    intro i hi
    rw [Vec.dot_unit hi, List.getD_eq_getElem?_getD, List.getElem?_eq_getElem hi, Option.getD_some]
  rw [List.forall₂_iff_get]
  refine and_congr_right fun hlen => ⟨fun h r hr => ?_, fun h i hi hiv => ?_⟩
  · obtain ⟨⟨range, i⟩, hri, hr⟩ := List.mem_flatMap.1 hr
    obtain ⟨hi, hrange⟩ : ∃ hi : i < ranges.length, ranges[i] = range :=
      List.getElem?_eq_some_iff.1 (List.mem_zipIdx_iff_getElem?.1 hri)
    subst hrange
    obtain ⟨hlower, hupper⟩ := h i hi (hlen ▸ hi)
    rcases List.mem_append.1 hr with hr | hr
    · obtain ⟨u, hu, rfl⟩ := List.mem_map.1 hr
      rw [hentry i (hlen ▸ hi)]
      exact hupper u (Option.mem_toList.1 hu)
    · obtain ⟨l, hl, rfl⟩ := List.mem_map.1 hr
      rw [Vec.dot_neg_left, hentry i (hlen ▸ hi), neg_le_neg_iff]
      exact hlower l (Option.mem_toList.1 hl)
  · have hri : (ranges[i], i) ∈ ranges.zipIdx :=
      List.mem_zipIdx_iff_getElem?.2 (List.getElem?_eq_getElem hi)
    refine ⟨fun l hl => ?_, fun u hu => ?_⟩
    · have hle := h _ (List.mem_flatMap.2 ⟨_, hri, List.mem_append_right _
        (List.mem_map_of_mem (Option.mem_toList.2 hl))⟩)
      rwa [Vec.dot_neg_left, hentry i hiv, neg_le_neg_iff] at hle
    · have hle := h _ (List.mem_flatMap.2 ⟨_, hri, List.mem_append_left _
        (List.mem_map_of_mem (Option.mem_toList.2 hu))⟩)
      rwa [hentry i hiv] at hle

/-- Where one vector is feasible, the lengths fit, and the rows say all of it. -/
theorem feasible_iff_within {lp : LinearProgram ℝ} {v₀ : List ℝ} (h₀ : lp.Feasible v₀) {v : List ℝ} :
    lp.Feasible v ↔ Within lp.bounds lp.cost.length v := by
  obtain ⟨hlen₀, hatMost₀, hequal₀, hranges₀⟩ := h₀
  have hheights := And.intro (atMost_iff.1 hatMost₀).1 (equal_iff.1 hequal₀).1
  have hcount := (contains_iff.1 hranges₀).1.trans hlen₀
  constructor
  · rintro ⟨hlen, hatMost, hequal, hranges⟩
    refine ⟨hlen, ?_⟩
    rw [bounds, ← hlen, List.forall_mem_append, List.forall_mem_append]
    exact ⟨⟨(atMost_iff.1 hatMost).2, (equal_iff.1 hequal).2⟩, (contains_iff.1 hranges).2⟩
  · rintro ⟨hlen, hrows⟩
    rw [bounds, ← hlen, List.forall_mem_append, List.forall_mem_append] at hrows
    obtain ⟨⟨hatMost, hequal⟩, hranges⟩ := hrows
    exact ⟨hlen, atMost_iff.2 ⟨hheights.1, hatMost⟩, equal_iff.2 ⟨hheights.2, hequal⟩,
      contains_iff.2 ⟨hcount.trans hlen.symm, hranges⟩⟩

/-- A feasible program of bounded cost has an optimum. -/
theorem exists_optimal {lp : LinearProgram ℝ} {v : List ℝ} (hv : lp.Feasible v) (low : ℝ)
    (hlow : ∀ u, lp.Feasible u → low ≤ Vec.dot lp.cost u) : ∃ u, lp.Optimal u := by
  obtain ⟨u, hu, hleast⟩ := Within.exists_least (fun u hu => hlow u ((feasible_iff_within hv).2 hu))
    ((feasible_iff_within hv).1 hv)
  exact ⟨u, (feasible_iff_within hv).2 hu, fun y hy => hleast y ((feasible_iff_within hv).1 hy)⟩

end LinearProgram

end ActiveSet
