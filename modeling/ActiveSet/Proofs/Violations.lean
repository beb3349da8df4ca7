import ActiveSet.Proofs.OneVariable

/-!
# Violations of inactive inequalities

A step may start where inequalities are violated, and its length may be cut down to zero for one of
them. It makes none of the inactive ones worse, and a step of positive length ends below the bound
of every one that it raises.
-/

namespace ActiveSet

namespace Method

variable {m : Method ℝ} {s t : State ℝ} {p : Point ℝ} {e : Inequality ℝ × Nat}

theorem Step.fits_of_alpha (h : Step m s p t) {a : ℝ} (ha : t.alpha = some a)
    (he : e ∈ s.workingSet.flagged false) : e.1.Fits p := by
  cases h with
  | converge => cases ha
  | drop => cases ha
  | block _ blocked => exact WorkingSet.fits_of_blocking blocked e he
  | move _ unblocked => exact WorkingSet.fits_of_blocking unblocked e he

theorem Step.fits_inactive (h : Step m s p t) (he : e ∈ s.workingSet.flagged false)
    (hfits : e.1.Fits s.values) : e.1.Fits t.values := by
  cases ha : t.alpha with
  | none => rwa [(h.of_alpha_none ha).1]
  | some a =>
      obtain ⟨_, _, hsum, _⟩ := h.of_alpha ha
      exact hfits.step (h.fits_of_alpha ha he) hsum

/-- A step of positive length ends below the bounds of the inactive inequalities that it raises. -/
theorem Step.value_le_bound (h : Step m s p t) {a : ℝ} (ha : t.alpha = some a) (hpos : 0 < a)
    (he : e ∈ s.workingSet.flagged false) (hrises : 0 < e.1.value p) :
    e.1.value t.values ≤ e.1.bound := by
  obtain ⟨_, _, hsum, _⟩ := h.of_alpha ha
  -- The length is the least ratio but for the clamp at zero, which a positive length excludes.
  have hratio : a ≤ WorkingSet.ratio e.1 s.values p :=
    (le_max_iff.1 (h.alpha_le ha he hrises)).resolve_right (not_le.2 hpos)
  have hslack : WorkingSet.ratio e.1 s.values p * e.1.value p = e.1.bound - e.1.value s.values :=
    div_mul_cancel₀ _ hrises.ne'
  calc e.1.value t.values
      = e.1.value s.values + a * e.1.value p := Inequality.value_step hsum e.1
    _ ≤ e.1.value s.values + WorkingSet.ratio e.1 s.values p * e.1.value p :=
        add_le_add_right (mul_le_mul_of_nonneg_right hratio hrises.le) _
    _ = e.1.bound := by rw [hslack, add_sub_cancel]

/--
From any state and along any direction, an iteration that returns leaves every inactive inequality
violated no more than before; it ends the violation of those that a step of positive length raises.
-/
theorem violation_of_iterate (h : m.iterate s = .ok t) :
    ∃ p, m.direction s.workingSet s.values = .ok p ∧
      ∀ e ∈ s.workingSet.flagged false, ∀ before, e.1.excess s.values = .ok before →
        ∃ after, e.1.excess t.values = .ok after ∧ max after 0 ≤ max before 0 ∧
          ∀ alpha, t.alpha = some alpha → ∃ slope, e.1.product p = .ok slope ∧
            (0 < slope → 0 < alpha → max after 0 = 0) := by
  obtain ⟨p, hp, hstep⟩ := step_of_iterate h
  refine ⟨p, hp, fun e he before hbefore => ?_⟩
  obtain ⟨hfits, rfl⟩ := e.1.excess_eq_ok.1 hbefore
  refine ⟨_, e.1.excess_eq_ok.2 ⟨hstep.fits_inactive he hfits, rfl⟩, ?_, fun alpha halpha => ?_⟩
  · exact max_le (hstep.excess_le he) (le_max_right ..)
  · refine ⟨_, e.1.product_eq_ok.2 ⟨hstep.fits_of_alpha halpha he, rfl⟩, fun hrises hpos => ?_⟩
    exact max_eq_right (sub_nonpos.2 (hstep.value_le_bound halpha hpos he hrises))

end Method

namespace OneVariable

/--
The step from zero towards five ends at the bound three, whose inequality it raises. The other one
asks for four, and of its violation by four less than that is left.
-/
theorem violation_of_iterate_between : ∃ v p,
    ((betweenSolver settings 5 1 3 (-1) (-4)).method .exact .largestMultiplier).iterate
      (.initial (point 0) (.inactive [atMost 1 3 0, atMost (-1) (-4) 1])) = .ok v ∧
    v.values = point 3 ∧
    (atMost 1 3 0).product p = .ok 5 ∧
    (∃ after, (atMost 1 3 0).excess v.values = .ok after ∧ max after 0 = 0) ∧
    (atMost (-1) (-4) 1).excess (point 0) = .ok 4 ∧
    ∃ after, (atMost (-1) (-4) 1).excess v.values = .ok after ∧ max after 0 ≤ 4 := by
  have hdirection : (betweenSolver settings 5 1 3 (-1) (-4)).direction .exact
      (.inactive [atMost 1 3 0, atMost (-1) (-4) 1]) (point 0) = .ok (point (5 - 0)) :=
    direction_pull (wellFormed_between settings 5 1 3 (-1) (-4)) rfl rfl rfl rfl rfl (fits_pull 5 0)
      (values_pull 5 0)
  have hfalls : (atMost (-1) (-4) 1).value (point (5 - 0)) ≤ 0 := by
    rw [value_atMost, part_point]
    norm_num
  obtain ⟨v, hv, halpha, hagrees, _⟩ := iterate_blocked
    (m := (betweenSolver settings 5 1 3 (-1) (-4)).method .exact .largestMultiplier)
    (f := atMost 1 3 0) rfl rfl rfl (x := 0) (by norm_num) (by norm_num) hdirection
    (List.forall_mem_singleton.2 ⟨fits_atMost (-1) (-4) (5 - 0) 1, hfalls⟩) rfl
    (tolerance_lt_one.trans (by norm_num))
  obtain ⟨p, hp, hviolation⟩ := Method.violation_of_iterate hv
  obtain rfl : point (5 - 0) = p := Except.ok.inj (hdirection.symm.trans hp)
  have hrises : (atMost 1 3 0).product (point (5 - 0)) = .ok 5 := by
    norm_num [product_atMost]
  have hbefore : (atMost (-1) (-4) 1).excess (point 0) = .ok 4 := by
    norm_num [excess_atMost]
  obtain ⟨after, hafter, _, hends⟩ :=
    hviolation (atMost 1 3 0, 0) (.head _) _ (excess_atMost 1 3 0 0)
  obtain ⟨slope, hslope, hzero⟩ := hends _ halpha
  obtain rfl := Except.ok.inj (hrises.symm.trans hslope)
  obtain ⟨left, hleft, hle, _⟩ := hviolation (atMost (-1) (-4) 1, 1) (.tail _ (.head _)) 4 hbefore
  exact ⟨v, _, hv, hagrees.values_eq, hrises,
    ⟨after, hafter, hzero (by norm_num) (by norm_num)⟩, hbefore, left, hleft,
    hle.trans_eq (max_eq_left (by norm_num))⟩

end OneVariable

end ActiveSet
