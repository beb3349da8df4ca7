import ActiveSet.Proofs.Feasibility

/-!
# Lengths of steps

The blocking inequality decides how far a step goes. From a point that satisfies the inactive
inequalities that is as far as they stay satisfied; from any other point it is still the least of the
lengths at which an inequality that rises is met.
-/

namespace ActiveSet

theorem Point.Conforms.scale {x p : Point ℝ} (h : x.Conforms p) (t : ℝ) :
    x.Conforms (Point.scale t p) := by
  intro k u v hu hv
  rw [Point.lookup_scale, Option.map_eq_some_iff] at hv
  obtain ⟨v, hv, rfl⟩ := hv
  rw [Vec.length_scale, h k u v hu hv]

namespace Cap

/-- The cap as a length, infinite where there is none. -/
noncomputable def length : Cap ℝ → WithTop ℝ
  | .at c => c
  | .unlimited => ⊤

theorem exceeds_iff {cap : Cap ℝ} {a : ℝ} : cap.exceeds a = true ↔ (a : WithTop ℝ) < cap.length := by
  cases cap <;> simp [exceeds, length]

end Cap

namespace WorkingSet

variable {w : WorkingSet ℝ} {x p : Point ℝ} {cap : Cap ℝ} {r : Option (ℝ × Nat)}

/-- A step of length `t` ends at a point that satisfies all inactive inequalities. -/
def Admits (w : WorkingSet ℝ) (x p : Point ℝ) (t : ℝ) : Prop :=
  ∃ z, Point.add x (Point.scale t p) = .ok z ∧
    Inequality.allSatisfied ((w.flagged false).map (·.1)) z 0 = .ok true

/-- The inequality at `i` is the first of those that a step meets soonest, at the length `a`. -/
structure MetFirst (w : WorkingSet ℝ) (x p : Point ℝ) (a : ℝ) (i : Nat) : Prop where
  least : ∀ e ∈ w.flagged false, 0 < e.1.value p → a ≤ ratio e.1 x p
  lowest : ∀ e ∈ w.flagged false, 0 < e.1.value p → ratio e.1 x p = a → i ≤ e.2
  tight : ∃ f, (f, i) ∈ w.flagged false ∧ 0 < f.value p ∧ ratio f x p = a ∧
    ∃ z, Point.add x (Point.scale a p) = .ok z ∧ f.excess z = .ok 0

/-! ## Satisfied inequalities -/

theorem allSatisfied_iff {fs : List (Inequality ℝ)} {z : Point ℝ} (hfits : ∀ f ∈ fs, f.Fits z) :
    Inequality.allSatisfied fs z 0 = .ok true ↔ ∀ f ∈ fs, f.value z ≤ f.bound := by
  obtain ⟨b, hb, hiff⟩ := Inequality.allSatisfied_ok hfits 0
  rw [hb, Except.ok.injEq, hiff]
  exact forall₂_congr fun f hf => by rw [and_iff_right (hfits f hf), sub_nonpos]

theorem admits_iff (hconforms : x.Conforms p) (hx : ∀ e ∈ w.flagged false, e.1.Fits x)
    (hp : ∀ e ∈ w.flagged false, e.1.Fits p) (t : ℝ) :
    w.Admits x p t ↔ ∀ e ∈ w.flagged false, e.1.value x + t * e.1.value p ≤ e.1.bound := by
  obtain ⟨z, hz⟩ := Point.exists_addScaled (hconforms.scale t) 1
  have hfits : ∀ f ∈ (w.flagged false).map (·.1), f.Fits z :=
    List.forall_mem_map.2 fun e he => (hx e he).step (hp e he) hz
  have hsatisfied : Inequality.allSatisfied ((w.flagged false).map (·.1)) z 0 = .ok true ↔
      ∀ e ∈ w.flagged false, e.1.value x + t * e.1.value p ≤ e.1.bound := by
    rw [allSatisfied_iff hfits, List.forall_mem_map]
    exact forall₂_congr fun e _ => by rw [Inequality.value_step hz]
  rw [← hsatisfied]
  constructor
  · rintro ⟨z', hz', h⟩
    obtain rfl := Except.ok.inj (hz.symm.trans hz')
    exact h
  · exact fun h => ⟨z, hz, h⟩

/-- An inequality that rises is satisfied up to its ratio. -/
theorem le_bound_iff_le_ratio {f : Inequality ℝ} (hp : 0 < f.value p) (t : ℝ) :
    f.value x + t * f.value p ≤ f.bound ↔ t ≤ ratio f x p := by
  rw [ratio, le_div_iff₀ hp, le_sub_iff_add_le, add_comm]

/-! ## The length of the step -/

theorem metFirst_of_blocking (hconforms : x.Conforms p) (hx : ∀ e ∈ w.flagged false, e.1.Fits x)
    (hp : ∀ e ∈ w.flagged false, e.1.Fits p) {a : ℝ} {i : Nat}
    (h : w.blocking x p cap = .ok (some (a, i))) : w.MetFirst x p a i := by
  obtain ⟨f, hf, hrises, ha, _, hleast⟩ := blocking_eq_some h
  refine ⟨hleast, fun e he hpos hratio => ?_, f, hf, hrises, ha.symm, ?_⟩
  · by_contra hbefore
    exact (lt_ratio_of_blocking h he (not_le.1 hbefore) hpos).ne' hratio
  · obtain ⟨z, hz⟩ := Point.exists_addScaled (hconforms.scale a) 1
    refine ⟨z, hz, f.excess_eq_ok.2 ⟨(hx _ hf).step (hp _ hf) hz, ?_⟩⟩
    have hmeets : a * f.value p = f.bound - f.value x := by
      rw [ha, ratio, div_mul_cancel₀ _ hrises.ne']
    rw [Inequality.value_step hz, hmeets, add_sub_cancel, sub_self]

/-- No inequality that rises is met before the step ends. -/
theorem length_le_ratio (h : w.blocking x p cap = .ok r) {e : Inequality ℝ × Nat}
    (he : e ∈ w.flagged false) (hp : 0 < e.1.value p) :
    (cap.stricter r).length ≤ ratio e.1 x p := by
  cases r with
  | none =>
      rw [← not_lt, ← Cap.exceeds_iff, Bool.not_eq_true]
      exact blocking_eq_none h he hp
  | some blocked =>
      obtain ⟨f, _, _, _, _, hleast⟩ := blocking_eq_some h
      exact WithTop.coe_le_coe.2 (hleast e he hp)

theorem eq_none_iff (h : w.blocking x p cap = .ok r) : r = none ↔
    ¬∃ e ∈ w.flagged false, 0 < e.1.value p ∧ (ratio e.1 x p : WithTop ℝ) < cap.length := by
  constructor
  · rintro rfl ⟨e, he, hp, hlt⟩
    exact not_lt.2 (length_le_ratio h he hp) hlt
  · intro hnone
    cases r with
    | none => rfl
    | some blocked =>
        obtain ⟨f, hf, hp, ha, hcap, _⟩ := blocking_eq_some h
        exact absurd ⟨_, hf, hp, ha ▸ Cap.exceeds_iff.1 hcap⟩ hnone

/-- From a point that satisfies the inactive inequalities the step is as long as they allow. -/
theorem admits_iff_le_length (hconforms : x.Conforms p) (hx : ∀ e ∈ w.flagged false, e.1.Fits x)
    (hp : ∀ e ∈ w.flagged false, e.1.Fits p) (h : w.blocking x p cap = .ok r)
    (hsat : ∀ e ∈ w.flagged false, e.1.value x ≤ e.1.bound) {t : ℝ} (ht : 0 ≤ t)
    (hcap : (t : WithTop ℝ) ≤ cap.length) : w.Admits x p t ↔ t ≤ (cap.stricter r).length := by
  rw [admits_iff hconforms hx hp]
  constructor
  · intro hbound
    cases r with
    | none => exact hcap
    | some blocked =>
        obtain ⟨f, hf, hrises, ha, _⟩ := blocking_eq_some h
        have hle := (le_bound_iff_le_ratio hrises t).1 (hbound _ hf)
        exact WithTop.coe_le_coe.2 (hle.trans_eq ha.symm)
  · intro hle e he
    rcases le_or_gt (e.1.value p) 0 with hfalls | hrises
    · linarith [hsat e he, mul_nonpos_of_nonneg_of_nonpos ht hfalls]
    · rw [le_bound_iff_le_ratio hrises]
      exact WithTop.coe_le_coe.1 (hle.trans (length_le_ratio h he hrises))

/--
Where the dimensions fit, the ratio test gives the longest step, up to the cap, that keeps inactive
inequalities satisfied which are satisfied at the start. From any start it gives the cap exactly if no
inequality that rises is met before it, and else names the first inequality that is met soonest.
-/
theorem blocking_maximal (hconforms : x.Conforms p)
    (hfits : ∀ e ∈ w.flagged false, e.1.Fits x ∧ e.1.Fits p) (cap : Cap ℝ) :
    ∃ r, w.blocking x p cap = .ok r ∧
      (Inequality.allSatisfied ((w.flagged false).map (·.1)) x 0 = .ok true →
        ∀ t : ℝ, 0 ≤ t → t ≤ cap.length → (w.Admits x p t ↔ t ≤ (cap.stricter r).length)) ∧
      (r = none ↔ ¬∃ e ∈ w.flagged false,
        0 < e.1.value p ∧ (ratio e.1 x p : WithTop ℝ) < cap.length) ∧
      (r = none → (cap.stricter r).length = cap.length) ∧
      ∀ a i, r = some (a, i) → (cap.stricter r).length = a ∧ w.MetFirst x p a i := by
  have hx : ∀ e ∈ w.flagged false, e.1.Fits x := fun e he => (hfits e he).1
  have hp : ∀ e ∈ w.flagged false, e.1.Fits p := fun e he => (hfits e he).2
  obtain ⟨r, hr⟩ := blocking_ok hx hp cap
  refine ⟨r, hr, fun hsat t ht hcap => ?_, eq_none_iff hr, ?_, ?_⟩
  · rw [allSatisfied_iff (List.forall_mem_map.2 hx), List.forall_mem_map] at hsat
    exact admits_iff_le_length hconforms hx hp hr hsat ht hcap
  · rintro rfl
    rfl
  · rintro a i rfl
    exact ⟨rfl, metFirst_of_blocking hconforms hx hp hr⟩

end WorkingSet

namespace OneVariable

theorem conforms_point (a b : ℝ) : (point a).Conforms (point b) := by
  have hlength : ∀ {k : Key} {v : List ℝ} (c : ℝ), (point c).lookup k = some v → v.length = 1 := by
    intro k v c hv
    cases List.mem_singleton.1 (Keyed.mem_of_lookup_ofList hv)
    rfl
  exact fun k u v hu hv => (hlength a hu).trans (hlength b hv).symm

/-- Three inequalities, none of them active; a point that rises meets the last two together. -/
noncomputable def rivals (a b : ℝ) : WorkingSet ℝ :=
  .inactive [atMost (-1) 0 0, atMost 1 b 1, atMost a (a * b) 2]

theorem flagged_rivals (a b : ℝ) : (rivals a b).flagged false =
    [(atMost (-1) 0 0, 0), (atMost 1 b 1, 1), (atMost a (a * b) 2, 2)] := rfl

theorem ratio_atMost (a b : ℝ) (i : Int) (x p : ℝ) :
    WorkingSet.ratio (atMost a b i) (point x) (point p) = (b - a * x) / (a * p) := by
  simp [WorkingSet.ratio, value_atMost, part_point]

theorem blocking_maximal_rivals : (point 0).Conforms (point 5) ∧
    (∀ e ∈ (rivals 2 3).flagged false, e.1.Fits (point 0) ∧ e.1.Fits (point 5)) ∧
    (rivals 2 3).blocking (point 0) (point 5) (.at 1) = .ok (some (3 / 5, 1)) := by
  have hfits : ∀ e ∈ (rivals 2 3).flagged false, e.1.Fits (point 0) ∧ e.1.Fits (point 5) := by
    simp [flagged_rivals, fits_atMost]
  have hmem : (atMost 1 3 1, 1) ∈ (rivals 2 3).flagged false := .tail _ (.head _)
  have hrises : 0 < (atMost 1 3 1).value (point 5) := by norm_num [value_atMost, part_point]
  refine ⟨conforms_point 0 5, hfits, ?_⟩
  obtain ⟨r, hr, _, hnone, _, hsome⟩ :=
    WorkingSet.blocking_maximal (conforms_point 0 5) hfits (.at 1)
  rcases r with _ | ⟨a, i⟩
  · refine absurd ⟨_, hmem, hrises, WithTop.coe_lt_coe.2 ?_⟩ (hnone.1 rfl)
    norm_num [ratio_atMost]
  · obtain ⟨_, _, hlowest, f, hf, hpos, ha, _⟩ := hsome a i rfl
    rw [flagged_rivals] at hf
    rcases hf with _ | ⟨_, _ | ⟨_, _ | ⟨_, hf⟩⟩⟩
    · norm_num [value_atMost, part_point] at hpos
    · rw [hr, ← ha]
      norm_num [ratio_atMost]
    · have htie : WorkingSet.ratio (atMost 1 3 1) (point 0) (point 5) = a := by
        rw [← ha]
        norm_num [ratio_atMost]
      exact absurd (hlowest _ hmem hrises htie) (by decide)
    · cases hf

end OneVariable

end ActiveSet
