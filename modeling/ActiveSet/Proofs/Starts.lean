import ActiveSet.Proofs.Feasibility
import ActiveSet.Proofs.PhaseOne

/-!
# Starts

A start point that passes the check violates nothing by more than the tolerance, and neither does one
from phase one, where an exact optimum of the program for the smallest slack is feasible.
-/

namespace ActiveSet

/-! ## The check of a start point -/

private theorem violations_eq_ok {fs : List (Inequality ℝ)} {x : Point ℝ} {l : List ℝ}
    (h : Inequality.violations fs x = .ok l) {f : Inequality ℝ} (hf : f ∈ fs) :
    ∃ a, f.excess x = .ok a ∧ a ≤ Scalar.greatestFrom 0 l := by
  rw [Inequality.violations, mapM_eq_ok] at h
  obtain ⟨c, hc, hf⟩ := exists_of_mem_left h hf
  simp only [bind_eq_ok, pure_eq_ok, Scalar.larger_eq_max] at hf
  obtain ⟨a, ha, rfl⟩ := hf
  exact ⟨a, ha, (le_max_left ..).trans (Scalar.mem_le_greatestFrom hc)⟩

/-! ## Phase one -/

namespace Solver

variable {p : Problem ℝ} {s : Solver ℝ} {settings : Settings ℝ} {kernels : Kernels ℝ}

theorem feasibleWithin_of_check (hs : s.MadeFrom settings p) {x : Point ℝ}
    (h : s.checkFeasibility x = .ok ()) : p.FeasibleWithin settings.feasibilityTolerance x := by
  simp only [checkFeasibility, largestViolation, bind_eq_ok, pure_eq_ok, Scalar.larger_eq_max,
    hs.equalities_eq, hs.inequalities_eq, hs.settings_eq] at h
  obtain ⟨_, ⟨b, hb, l, hl, rfl⟩, h⟩ := h
  have hle : max b (Scalar.greatestFrom 0 l) ≤ settings.feasibilityTolerance := by
    by_contra hlt
    rw [if_pos (not_le.1 hlt)] at h
    cases h
  have htol := (Scalar.le_greatestFrom 0 l).trans ((le_max_right ..).trans hle)
  have hequal := (Equality.violation_eq_ok htol hb).1 ((le_max_left ..).trans hle)
  refine ⟨fun f hf => Equality.holds_within_iff.2 (hequal f hf), fun f hf => ?_⟩
  obtain ⟨a, ha, hall⟩ := violations_eq_ok hl hf
  exact ⟨a, ha, hall.trans ((le_max_right ..).trans hle)⟩

theorem WellFormed.posed (hs : s.WellFormed) :
    PhaseOne.Posed s.equalities s.inequalities s.ordering s.dims s.dims.entries where
  nodup := hs.ordering_eq ▸ s.dims.nodup_keys
  sized_eq := hs.sized_eq
  over_equalities := hs.over_equalities
  over_inequalities := hs.over_inequalities

/-- The program that phase one solves. -/
noncomputable def phaseOne (s : Solver ℝ) : LinearProgram ℝ :=
  PhaseOne.program (Point.totalDim s.dims.entries)
    (.ofSized (Equality.graph (s.inequalities.map (·.toEquality))) s.dims.entries)
    (.ofSized (Equality.graph s.equalities) s.dims.entries)

/-- What is feasible for it satisfies the equalities exactly. -/
theorem values_of_feasible (hs : s.WellFormed) {v : List ℝ} (h : s.phaseOne.Feasible v) :
    ∀ f ∈ s.equalities, f.toFactor.values
      (Point.ofFlat s.dims.entries (v.take (Point.totalDim s.dims.entries))) = f.b :=
  (hs.posed.keeps_of_feasible h).2.equalities

/-- A point that keeps a slack violates nothing by more. -/
private theorem feasibleWithin_of_keeps (hs : s.MadeFrom settings p) {v : List ℝ}
    (hv : v.length = Point.totalDim s.dims.entries) {t tol : ℝ} (htol : 0 ≤ tol) (ht : -tol ≤ t)
    (h : PhaseOne.Keeps s.equalities s.inequalities (Point.ofFlat s.dims.entries v) t) :
    p.FeasibleWithin tol (Point.ofFlat s.dims.entries v) := by
  have hposed := hs.wellFormed.posed
  have hmeets := h.meets (φ := (· ≤ tol)) hposed (hposed.over_ofFlat hv) fun a ha => by linarith
  refine ⟨fun f hf => ⟨_, hmeets.equalities f (hs.equalities_eq ▸ hf), fun a ha => ?_⟩, fun f hf =>
    hmeets.inequalities f (hs.inequalities_eq ▸ hf)⟩
  rw [List.eq_of_mem_replicate ha]
  simpa using htol

private theorem feasibleWithin_of_nothing (hs : s.MadeFrom settings p)
    (h : s.equalities = [] ∧ s.inequalities = []) (tol : ℝ) (x : Point ℝ) :
    p.FeasibleWithin tol x := by
  obtain ⟨hequal, hineq⟩ := h
  rw [hs.equalities_eq] at hequal
  rw [hs.inequalities_eq] at hineq
  exact ⟨by simp [hequal], by simp [hineq]⟩

private theorem keeps_of_feasibleWithin (hs : s.MadeFrom settings p) {y : Point ℝ}
    (hy : p.FeasibleWithin 0 y) : PhaseOne.Keeps s.equalities s.inequalities y 0 := by
  refine ⟨fun f hf => ?_, fun f hf => ?_⟩
  · obtain ⟨_, hzero⟩ := Equality.holds_iff.1 (hy.equalities f (hs.equalities_eq ▸ hf))
    exact Vec.eq_of_sub_eq_zeros (f.toFactor.length_values y) hzero
  · have hle := (Inequality.holds_iff.1 (hy.inequalities f (hs.inequalities_eq ▸ hf))).2
    linarith

theorem feasibleWithin_of_findFeasible {kernels : Kernels ℝ} (hlp : kernels.ExactLinearProgram)
    (hs : s.MadeFrom settings p) (hdim : Point.totalDim s.dims.entries ≠ 0)
    (htol : 0 ≤ settings.feasibilityTolerance) {found : PhaseOne.Found ℝ}
    (h : PhaseOne.findFeasible kernels s.equalities s.inequalities s.ordering s.dims
      s.settings.feasibilityTolerance = .ok found) :
    p.FeasibleWithin settings.feasibilityTolerance found.point := by
  have hposed := hs.wellFormed.posed
  rcases hposed.findFeasible_eq_ok h with ⟨hnothing, _⟩ | ⟨v, hv, hslack, htake, hpoint⟩
  · exact feasibleWithin_of_nothing hs (hnothing.resolve_left hdim) _ _
  · have hexact := hlp s.phaseOne
    rw [phaseOne, ← PhaseOne.slackProgram, hv] at hexact
    rw [hs.settings_eq] at hslack
    rw [hpoint]
    exact feasibleWithin_of_keeps hs htake htol hslack (hposed.keeps_of_feasible hexact.1).2

theorem values_of_findFeasible {kernels : Kernels ℝ} (hlp : kernels.ExactLinearProgram)
    (hs : s.WellFormed) (hdim : Point.totalDim s.dims.entries ≠ 0) {found : PhaseOne.Found ℝ}
    (h : PhaseOne.findFeasible kernels s.equalities s.inequalities s.ordering s.dims
      s.settings.feasibilityTolerance = .ok found) :
    ∀ f ∈ s.equalities, f.toFactor.values found.point = f.b := by
  rcases hs.posed.findFeasible_eq_ok h with ⟨hnothing, _⟩ | ⟨v, hv, _, _, hpoint⟩
  · simp [(hnothing.resolve_left hdim).1]
  · have hexact := hlp s.phaseOne
    rw [phaseOne, ← PhaseOne.slackProgram, hv] at hexact
    rw [hpoint]
    exact values_of_feasible hs hexact.1

/-- Phase one refuses a program for what it asks, unless the kernel gives up on a feasible one. -/
theorem findFeasible_eq_error (hlp : kernels.ExactLinearProgram) (hs : s.WellFormed)
    {cause : Fault ℝ} (h : PhaseOne.findFeasible kernels s.equalities s.inequalities s.ordering
      s.dims s.settings.feasibilityTolerance = .error cause) :
    cause = .inconsistentEqualities ∨ (∃ slack, cause = .unsatisfiable slack) ∨
      cause = .badValue ∧ ∃ v, s.phaseOne.Feasible v := by
  by_cases hnothing : Point.totalDim s.dims.entries = 0 ∨ s.equalities = [] ∧ s.inequalities = []
  · rw [hs.posed.findFeasible_of_nothing hnothing] at h
    cases h
  · rcases hs.posed.findFeasible_cases hlp hnothing s.settings.feasibilityTolerance with
      ⟨_, hfind⟩ | ⟨_, t, _, _, _, hfind⟩
    · rw [hfind] at h
      exact .inl (Except.error.inj h).symm
    · rw [hfind] at h
      split at h
      · exact .inr (.inl ⟨t, (Except.error.inj h).symm⟩)
      · cases h

/-- Where the program has a feasible point, phase one finds one. -/
theorem feasible_of_findFeasible {kernels : Kernels ℝ} (hlp : kernels.ExactLinearProgram)
    (hs : s.MadeFrom settings p) (hdim : Point.totalDim s.dims.entries ≠ 0) {y : Point ℝ}
    (hy : p.FeasibleWithin 0 y) {found : PhaseOne.Found ℝ}
    (h : PhaseOne.findFeasible kernels s.equalities s.inequalities s.ordering s.dims
      s.settings.feasibilityTolerance = .ok found) : p.FeasibleWithin 0 found.point := by
  have hposed := hs.wellFormed.posed
  rcases hposed.findFeasible_eq_ok h with ⟨hnothing, _⟩ | ⟨v, hv, _, htake, hpoint⟩
  · exact feasibleWithin_of_nothing hs (hnothing.resolve_left hdim) _ _
  · have hexact := hlp s.phaseOne
    rw [phaseOne, ← PhaseOne.slackProgram, hv] at hexact
    obtain ⟨hkeeps, hbest⟩ := hposed.keeps_of_optimal hexact
    -- The optimum leaves at least the slack of the feasible point, which is none.
    have hslack := hbest y 0 zero_le_one (keeps_of_feasibleWithin hs hy)
    rw [hpoint]
    exact feasibleWithin_of_keeps hs htake le_rfl (by linarith) hkeeps

end Solver

/-! ## Initial states -/

/--
A start whose point, filled up with zeros, passes the check, or without a point a problem with a
coordinate; a working set that is given is one of the inequalities of the solver.
-/
structure Start.Admissible (start : Start ℝ) (s : Solver ℝ) : Prop where
  accepted : ∀ given x, start.point = some given → Point.add (Point.zero s.dims) given = .ok x →
    s.checkFeasibility x = .ok ()
  coordinate : start.point = none → Point.totalDim s.dims.entries ≠ 0
  factors_eq : ∀ w, start.workingSet = some w → w.factors = s.inequalities

namespace Solver

section Any

variable {K : Type} [Scalar K] {s : Solver K} {kernels : Kernels K} {start : Start K}

private theorem factors_ofMask {K : Type} {fs : List (Inequality K)} {mask : List Bool}
    {w : WorkingSet K} (h : WorkingSet.ofMask fs mask = .ok w) : w.factors = fs := by
  unfold WorkingSet.ofMask at h
  split at h
  · rw [← Except.ok.inj h]
  · cases h

theorem factors_seed {fs : List (Inequality K)} {x : Point K} {duals : Option (Point K)}
    {tol : K} {w : WorkingSet K} (h : WorkingSet.seed fs x duals tol = .ok w) : w.factors = fs := by
  unfold WorkingSet.seed at h
  split at h
  · split at h
    · obtain ⟨mask, _, h⟩ := bind_eq_ok.1 h
      exact factors_ofMask h
    · exact factors_ofMask h
  · obtain ⟨mask, _, h⟩ := bind_eq_ok.1 h
    exact factors_ofMask h

theorem factors_startingSet (hset : ∀ w, start.workingSet = some w → w.factors = s.inequalities)
    {x : Point K} {w : WorkingSet K} (h : s.startingSet start x = .ok w) :
    w.factors = s.inequalities := by
  unfold startingSet at h
  split at h
  · rename_i given hgiven
    unfold checkWorkingSet at h
    split at h
    · rw [← Except.ok.inj h]
      exact hset given hgiven
    · cases h
  · rw [← Except.ok.inj h]
    rfl
  · exact factors_seed h

theorem length_startingSet {x : Point K} {w : WorkingSet K} (h : s.startingSet start x = .ok w) :
    w.factors.length = s.inequalities.length := by
  unfold startingSet at h
  split at h
  · unfold checkWorkingSet at h
    split at h
    · rename_i hsize
      rw [← Except.ok.inj h]
      exact hsize
    · cases h
  · rw [← Except.ok.inj h]
    rfl
  · rw [factors_seed h]

/-- Either the point is the given one, filled up with zeros and checked, or phase one finds it. -/
private theorem startingPoint_eq_ok {found : PhaseOne.Found K}
    (h : s.startingPoint kernels start = .ok found) :
    (start.point = none ∧ PhaseOne.findFeasible kernels s.equalities s.inequalities s.ordering s.dims
      s.settings.feasibilityTolerance = .ok found) ∨
    ∃ given, start.point = some given ∧ Point.add (Point.zero s.dims) given = .ok found.point ∧
      (s.settings.checkFeasibility = true → s.checkFeasibility found.point = .ok ()) := by
  unfold startingPoint at h
  cases hpoint : start.point with
  | none =>
      rw [hpoint] at h
      exact .inl ⟨rfl, h⟩
  | some given =>
      rw [hpoint] at h
      obtain ⟨x, hx, h⟩ := bind_eq_ok.1 h
      dsimp only at h
      split at h
      · obtain ⟨_, hcheck, h⟩ := bind_eq_ok.1 h
        obtain rfl := pure_eq_ok.1 h
        exact .inr ⟨given, rfl, hx, fun _ => hcheck⟩
      · obtain rfl := pure_eq_ok.1 h
        exact .inr ⟨given, rfl, hx, fun hcheck => absurd hcheck ‹_›⟩

theorem holds_startingPoint (hs : s.ordering = s.dims.keys) {found : PhaseOne.Found K}
    (h : s.startingPoint kernels start = .ok found) :
    ∀ k ∈ s.dims.keys, found.point.lookup k ≠ none := by
  intro k hk
  rcases startingPoint_eq_ok h with ⟨_, hfound⟩ | ⟨given, _, hadd, _⟩
  · refine fun hnone => (Keyed.lookup_eq_none_iff _).1 hnone (PhaseOne.mem_keys_findFeasible hfound ?_)
    rwa [hs]
  · refine Point.lookup_add_ne_none hadd fun hnone => (Keyed.lookup_eq_none_iff _).1 hnone ?_
    rwa [Point.zero, Keyed.keys_map]

theorem fills_startingPoint (hs : s.WellFormed) {found : PhaseOne.Found K}
    (h : s.startingPoint kernels start = .ok found) : Point.Fills s.dims found.point := by
  rcases startingPoint_eq_ok h with ⟨_, hfound⟩ | ⟨given, _, hadd, _⟩
  · obtain ⟨sized, hsized, hpoint⟩ := PhaseOne.point_of_findFeasible hfound
    cases hs.sized_eq.symm.trans hsized
    rcases hpoint with hpoint | ⟨v, hlen, hpoint⟩
    · rw [hpoint, Keyed.ofList_entries]
      exact Point.fills_zero s.dims
    · rw [hpoint]
      exact Point.fills_ofFlat hlen
  · exact (Point.fills_zero s.dims).add hadd

theorem fills_initialState (hs : s.WellFormed) {u : State K}
    (hu : s.initialState kernels start = .ok u) : Point.Fills s.dims u.values := by
  obtain ⟨found, w, hfound, _, rfl⟩ := exists_of_initialState hu
  exact fills_startingPoint hs hfound

theorem front_startingPoint (hs : s.WellFormed) {found : PhaseOne.Found K}
    (h : s.startingPoint kernels start = .ok found) : s.dims.keys <+: found.point.keys := by
  rcases startingPoint_eq_ok h with ⟨_, hfound⟩ | ⟨given, _, hadd, _⟩
  · obtain ⟨sized, hsized, hpoint⟩ := PhaseOne.point_of_findFeasible hfound
    cases hs.sized_eq.symm.trans hsized
    rcases hpoint with hpoint | ⟨v, _, hpoint⟩
    · rw [hpoint, Keyed.ofList_entries, Point.zero, Keyed.keys_map]
    · rw [hpoint, Point.keys_ofFlat s.dims.nodup]
      rfl
  · exact Point.front_add (by rw [Point.zero, Keyed.keys_map]) hadd

theorem front_initialState (hs : s.WellFormed) {u : State K}
    (hu : s.initialState kernels start = .ok u) : s.dims.keys <+: u.values.keys := by
  obtain ⟨found, w, hfound, _, rfl⟩ := exists_of_initialState hu
  exact front_startingPoint hs hfound

theorem values_of_given {given : Point K} (hgiven : start.point = some given) {u : State K}
    (hu : s.initialState kernels start = .ok u) :
    Point.add (Point.zero s.dims) given = .ok u.values := by
  obtain ⟨found, w, hfound, _, rfl⟩ := exists_of_initialState hu
  rcases startingPoint_eq_ok hfound with ⟨hnone, _⟩ | ⟨given', hgiven', hadd, _⟩
  · cases hnone.symm.trans hgiven
  · cases hgiven'.symm.trans hgiven
    exact hadd

end Any

variable {p : Problem ℝ} {s : Solver ℝ} {settings : Settings ℝ} {kernels : Kernels ℝ}
  {start : Start ℝ}

theorem admissible_of_initialState (hcheck : s.settings.checkFeasibility = true)
    (hdim : Point.totalDim s.dims.entries ≠ 0) (hset : start.workingSet = none) {u : State ℝ}
    (hu : s.initialState kernels start = .ok u) : start.Admissible s := by
  obtain ⟨found, _, hfound, _⟩ := exists_of_initialState hu
  refine ⟨fun given x hgiven hx => ?_, fun _ => hdim, fun w hw => ?_⟩
  · rcases startingPoint_eq_ok hfound with ⟨hnone, _⟩ | ⟨given', hgiven', hadd, hpassed⟩
    · cases hnone.symm.trans hgiven
    · cases hgiven'.symm.trans hgiven
      cases hadd.symm.trans hx
      exact hpassed hcheck
  · cases hset.symm.trans hw

/-- The initial state violates nothing by more than the tolerance. -/
theorem initialState_eq_ok (hlp : kernels.ExactLinearProgram) (hs : s.MadeFrom settings p)
    (htol : 0 ≤ settings.feasibilityTolerance) (hstart : start.Admissible s) {u : State ℝ}
    (h : s.initialState kernels start = .ok u) :
    u.workingSet.factors = p.inequalities ∧ u.hasConverged = false ∧
      p.FeasibleWithin settings.feasibilityTolerance u.values := by
  obtain ⟨found, w, hfound, hw, rfl⟩ := exists_of_initialState h
  refine ⟨(factors_startingSet hstart.factors_eq hw).trans hs.inequalities_eq, rfl, ?_⟩
  change p.FeasibleWithin _ found.point
  rcases startingPoint_eq_ok hfound with ⟨hpoint, hfound⟩ | ⟨given, hpoint, hadd, _⟩
  · exact feasibleWithin_of_findFeasible hlp hs (hstart.coordinate hpoint) htol hfound
  · exact feasibleWithin_of_check hs (hstart.accepted given _ hpoint hadd)

/-! ## Starts on a face -/

private theorem abs_excess_le_of_seed {fs : List (Inequality ℝ)} {x : Point ℝ} {tol : ℝ}
    {w : WorkingSet ℝ} (h : WorkingSet.seed fs x none tol = .ok w) {e : Inequality ℝ × Nat}
    (he : e ∈ w.flagged true) : ∃ r, e.1.excess x = .ok r ∧ |r| ≤ tol := by
  simp only [WorkingSet.seed, bind_eq_ok, mapM_eq_ok, WorkingSet.ofMask] at h
  obtain ⟨mask, hmask, h⟩ := h
  split at h
  · obtain rfl := Except.ok.inj h
    obtain ⟨hfactor, hactive⟩ := WorkingSet.mem_flagged.1 he
    obtain ⟨hi, hf⟩ := List.getElem?_eq_some_iff.1 hfactor
    obtain ⟨hi', hb⟩ := List.getElem?_eq_some_iff.1 hactive
    have htight := (List.forall₂_iff_get.1 hmask).2 e.2 hi hi'
    simp only [List.get_eq_getElem, hf, hb, Inequality.isTight, bind_eq_ok, pure_eq_ok,
      Scalar.abs_eq_abs] at htight
    obtain ⟨r, hr, hle⟩ := htight
    exact ⟨r, hr, of_decide_eq_true hle⟩
  · cases h

/-- Where the program has a feasible point, phase one leads to a state on a face. -/
theorem onFace_of_phaseOne (hlp : kernels.ExactLinearProgram) (hs : s.MadeFrom settings p)
    (hdim : Point.totalDim s.dims.entries ≠ 0) {y : Point ℝ} (hy : p.FeasibleWithin 0 y)
    {u : State ℝ} (h : s.initialState kernels {} = .ok u) : p.OnFace u := by
  obtain ⟨found, w, hfound, hw, rfl⟩ := exists_of_initialState h
  rw [← Except.ok.inj hw]
  rcases startingPoint_eq_ok hfound with ⟨_, hfound⟩ | ⟨given, hpoint, _, _⟩
  · refine ⟨hs.inequalities_eq, feasible_of_findFeasible hlp hs hdim hy hfound, fun e he => ?_⟩
    cases List.eq_of_mem_replicate (List.mem_of_getElem? (WorkingSet.mem_flagged.1 he).2)
  · cases hpoint

/-- From a feasible point that no bound comes close to without being met, a solve starts on a face. -/
theorem onFace_of_clear (hs : s.MadeFrom settings p) {given : Point ℝ} {u : State ℝ}
    (h : s.initialState kernels { point := some given } = .ok u) (hu : p.FeasibleWithin 0 u.values)
    (hclear : ∀ f ∈ p.inequalities, ∀ r, f.excess u.values = .ok r → |r| ≤ settings.activeTolerance →
      r = 0) : p.OnFace u := by
  obtain ⟨found, w, _, hw, rfl⟩ := exists_of_initialState h
  change WorkingSet.seed s.inequalities found.point none s.settings.activeTolerance = .ok w at hw
  have hfactors := (factors_seed hw).trans hs.inequalities_eq
  refine ⟨hfactors, hu, fun e he => ?_⟩
  obtain ⟨r, hr, hle⟩ := abs_excess_le_of_seed hw he
  rw [hs.settings_eq] at hle
  have hzero := hclear e.1 (hfactors ▸ WorkingSet.mem_factors_of_flagged he) r hr hle
  rw [← hzero]
  exact hr

end Solver

end ActiveSet
