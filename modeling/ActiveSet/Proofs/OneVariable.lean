import ActiveSet.Proofs.ExactKernels
import ActiveSet.Proofs.Iterations
import ActiveSet.Proofs.Multipliers

/-!
# Programs of one variable

The nearest point to a target below a bound, and the least point that inequalities allow. With exact
kernels their directions and multipliers are known, so they serve as instances of the theory.
-/

namespace ActiveSet

namespace OneVariable

noncomputable def settings : Settings ℝ where
  maxIterations := 1000
  tolerance := 1e-7
  activeTolerance := 1e-7
  feasibilityTolerance := 1e-6
  detectCycling := true
  checkFeasibility := true
  verbose := false

theorem tolerance_pos : 0 < settings.tolerance := by norm_num [settings]

theorem tolerance_lt_one : settings.tolerance < 1 := by norm_num [settings]

theorem activeTolerance_pos : 0 < settings.activeTolerance := by norm_num [settings]

theorem activeTolerance_lt_one : settings.activeTolerance < 1 := by norm_num [settings]

theorem feasibilityTolerance_pos : 0 < settings.feasibilityTolerance := by norm_num [settings]

/-! ## Points and inequalities -/

def key : Key := .number 0

def point (a : ℝ) : Point ℝ := Keyed.ofList [(key, [a])]

/-- The inequality `a x ≤ b`, with the multiplier that is called `i`. -/
def atMost (a b : ℝ) (i : Int) : Inequality ℝ where
  terms := Keyed.ofList [(key, [a])]
  bound := b
  dual := .number i

@[simp] theorem bound_atMost (a b : ℝ) (i : Int) : (atMost a b i).bound = b := rfl

theorem part_point (a : ℝ) : (point a).part key = [a] := rfl

theorem norm_point (a : ℝ) : Point.norm (point a) = |a| := Point.norm_singleton key a

theorem value_atMost (a b : ℝ) (i : Int) (x : Point ℝ) :
    (atMost a b i).value x = Vec.dot [a] (x.part key) :=
  Inequality.value_of_singleton rfl x

theorem fits_atMost (a b c : ℝ) (i : Int) : (atMost a b i).Fits (point c) :=
  Inequality.fits_of_singleton (k := key) (a := [a]) (v := [c]) rfl rfl rfl

theorem product_atMost (a b c : ℝ) (i : Int) : (atMost a b i).product (point c) = .ok (a * c) := by
  rw [Inequality.product_eq_ok, value_atMost, part_point, Vec.dot_singleton]
  exact ⟨fits_atMost _ _ _ _, rfl⟩

theorem excess_atMost (a b c : ℝ) (i : Int) :
    (atMost a b i).excess (point c) = .ok (a * c - b) := by
  rw [Inequality.excess, product_atMost]
  rfl

theorem exists_point {d : Point ℝ} (h : Graph.Spans d [(key, 1)]) : ∃ a, d = point a := by
  obtain ⟨v, hlen, rfl⟩ := h.exists_ofList Nat.one_ne_zero
  obtain ⟨a, rfl⟩ := List.length_eq_one_iff.1 hlen
  exact ⟨a, rfl⟩

/-! ## The nearest point -/

/-- The cost `½ (x - target)²`. -/
noncomputable def pull (target : ℝ) : Factor ℝ where
  terms := Keyed.ofList [(key, .identity 1)]
  b := [target]
  rows_eq := by
    intro e he
    cases he with
    | head => rfl
    | tail _ h => cases h

theorem fits_pull (target a : ℝ) : (pull target).Fits (point a) :=
  Factor.fits_of_singleton (k := key) (v := [a]) rfl rfl rfl

theorem values_pull (target a : ℝ) : (pull target).values (point a) = [a] := by
  rw [Factor.values_of_singleton (A := .identity 1) rfl, Matrix.mulVec_identity, part_point]
  rfl

/-- The point nearest to the target that is at most the bound. -/
noncomputable def nearest (target bound : ℝ) : Problem ℝ :=
  .make (.quadratic [pull target]) [] [atMost 1 bound 0]

noncomputable def solver (settings : Settings ℝ) (objective : Objective ℝ) (cost : Graph ℝ)
    (inequalities : List (Inequality ℝ)) : Solver ℝ where
  settings := settings
  objective := objective
  cost := cost
  equalities := []
  inequalities := inequalities
  costIndex := .ofKeys (cost.map (·.keys))
  equalityIndex := .ofKeys []
  inequalityIndex := .ofKeys (inequalities.map (·.keys))
  constrainedKeys := firstAppearances (inequalities.flatMap (·.keys))
  dims := Keyed.ofList [(key, 1)]
  ordering := [key]

theorem ofProblem_nearest (settings : Settings ℝ) (target bound : ℝ) :
    Solver.ofProblem settings (nearest target bound) =
      .ok (solver settings .quadratic [pull target] [atMost 1 bound 0]) := rfl

/-- The first inequality alone is active. -/
def firstEnforced (f : Inequality ℝ) (fs : List (Inequality ℝ)) : WorkingSet ℝ :=
  ⟨f :: fs, true :: fs.map fun _ => false, by simp⟩

/-- With `a x ≤ b` alone enforced, the direction leads to where it is tight. -/
theorem direction_enforced {s : Solver ℝ} (hs : s.WellFormed) (hdims : s.dims.entries = [(key, 1)])
    {w : WorkingSet ℝ} (hw : w.factors = s.inequalities) {a b x : ℝ} (ha : a ≠ 0) {i : Int}
    (hworking : s.working w = [(atMost a b i).toEquality])
    (hcost : ∀ f ∈ s.cost, f.Fits (point x)) :
    s.direction .exact w (point x) = .ok (point (b / a - x)) := by
  have hfits : ∀ c ∈ s.working w, c.toFactor.Fits (point x) := by
    rw [hworking]
    exact List.forall_mem_singleton.2 (Inequality.fits_toEquality.2 (fits_atMost _ _ _ _))
  obtain ⟨d, hd, hdirects⟩ := s.exists_direction Kernels.exact_leastSquares hs hw hcost hfits
  obtain ⟨c, rfl⟩ := exists_point (hdims ▸ hdirects.spans)
  have hcompatible := hdirects.compatible (point 1)
  rw [hworking, List.map_singleton, List.sum_singleton, Inequality.dot_toEquality] at hcompatible
  simp only [value_atMost, part_point, bound_atMost, Vec.dot_cons, Vec.dot_nil_left, mul_one,
    add_zero] at hcompatible
  have htight : a * (c + x) = b := by
    linarith [(mul_eq_zero.1 hcompatible).resolve_left ha]
  rw [hd, ← htight, mul_div_cancel_left₀ _ ha, add_sub_cancel_right]

theorem independent_enforced {s : Solver ℝ} {w : WorkingSet ℝ} {bound : ℝ} {i : Int}
    (hworking : s.working w = [(atMost 1 bound i).toEquality]) : s.Independent w := by
  intro ν hν c hc _
  rw [hworking] at hc
  obtain rfl := List.mem_singleton.1 hc
  have hone := hν (point 1)
  rw [hworking, List.map_singleton, List.sum_singleton, Inequality.values_toEquality, value_atMost,
    part_point, Vec.dot_singleton, Vec.dot_singleton, Inequality.dual_toEquality] at hone
  have hzero : (ν.part (atMost 1 bound i).dual).headD 0 = 0 := by simpa using hone
  rw [Inequality.rows_toEquality, Inequality.dual_toEquality, Vec.fit_one, hzero]
  rfl

/-! ## A step to a bound -/

/-- Towards a target behind it an inequality `x ≤ b` blocks the step if no other one rises. -/
theorem iterate_blocked {m : Method ℝ} {w u : WorkingSet ℝ} {f : Inequality ℝ} {i : Nat}
    {others : List (Inequality ℝ × Nat)} (hw : w.flagged false = (f, i) :: others)
    (hactivate : w.activate i = .ok u) {k : Key} (hf : f.terms.entries = [(k, [1])])
    {x target : ℝ} (hx : x ≤ f.bound) (h : f.bound < target)
    (hdirection : m.direction w (Keyed.ofList [(k, [x])]) = .ok (Keyed.ofList [(k, [target - x])]))
    (hothers : ∀ e ∈ others, e.1.Fits (Keyed.ofList [(k, [target - x])]) ∧
      e.1.value (Keyed.ofList [(k, [target - x])]) ≤ 0)
    (hcap : m.cap = .at 1) (htol : m.settings.tolerance < target - x) :
    ∃ v, m.iterate (.initial (Keyed.ofList [(k, [x])]) w) = .ok v ∧
      v.alpha = some ((f.bound - x) / (target - x)) ∧
      v.Agrees (.initial (Keyed.ofList [(k, [f.bound])]) u) ∧ v.hasConverged = false := by
  have hpos : 0 < target - x := by linarith
  have hlookup : ∀ a : ℝ, (Keyed.ofList [(k, [a])]).lookup k = some [a] := fun a =>
    Keyed.lookup_ofList_singleton ..
  have hfits : ∀ a : ℝ, f.Fits (Keyed.ofList [(k, [a])]) := fun a =>
    Inequality.fits_of_singleton hf (hlookup a) rfl
  have hvalue : ∀ a : ℝ, f.value (Keyed.ofList [(k, [a])]) = a := by
    intro a
    rw [Inequality.value_of_singleton hf, Point.part_of_lookup (hlookup a), Vec.dot_singleton]
    exact one_mul a
  have hlarge : m.settings.tolerance < Point.norm (.ofList [(k, [target - x])]) := by
    rwa [Point.norm_singleton, abs_of_pos hpos]
  have hsum := Point.add_scale_singleton k x ((f.bound - x) / (target - x)) (target - x)
  rw [div_mul_cancel₀ _ hpos.ne', add_sub_cancel] at hsum
  have hstep := m.iterate_blocked hw hactivate hdirection hlarge hcap (hfits x) (hfits _)
    ((hvalue x).trans_le hx) (y := .ofList [(k, [f.bound])])
  simp only [hvalue] at hstep
  exact hstep (by linarith) hothers hsum

/-- With nothing enforced the direction leads to the target. -/
theorem direction_pull {s : Solver ℝ} (hs : s.WellFormed) (hdims : s.dims.entries = [(key, 1)])
    (hobjective : s.objective = .quadratic) {target : ℝ} (hcost : s.cost = [pull target])
    {w : WorkingSet ℝ} (hw : w.factors = s.inequalities) (hworking : s.working w = [])
    {y : Point ℝ} {x : ℝ} (hfits : (pull target).Fits y) (hvalues : (pull target).values y = [x]) :
    s.direction .exact w y = .ok (point (target - x)) := by
  obtain ⟨p, hp, hdirects⟩ := Solver.exists_direction Kernels.exact_leastSquares hs hw (x := y)
    (hcost ▸ List.forall_mem_singleton.2 hfits) (hworking ▸ List.forall_mem_nil _)
  obtain ⟨e, rfl⟩ := exists_point (hdims ▸ hdirects.spans)
  have hfree : s.Free w (point 1) := by
    rw [Solver.Free, hworking]
    exact List.forall_mem_nil _
  have hstationary := hdirects.stationary (point 1) hfree
  simp only [Solver.slope, hobjective, hcost, List.map_singleton, List.sum_singleton, Factor.defect,
    values_pull, hvalues] at hstationary
  have he : e + (x - target) = 0 := by simpa [pull, Vec.sub] using hstationary
  rw [hp, eq_neg_of_add_eq_zero_left he, neg_sub]

section Nearest

variable (settings : Settings ℝ) (target bound : ℝ)

noncomputable abbrev nearestSolver : Solver ℝ :=
  solver settings .quadratic [pull target] [atMost 1 bound 0]

/-- The state at the bound, with the inequality enforced. -/
noncomputable def atBound : State ℝ := .initial (point bound) (firstEnforced (atMost 1 bound 0) [])

theorem madeFrom_nearest : (nearestSolver settings target bound).MadeFrom settings
    (nearest target bound) :=
  Solver.madeFrom_ofProblem (ofProblem_nearest settings target bound)

theorem direction_atBound : (nearestSolver settings target bound).direction .exact
    (atBound bound).workingSet (point bound) = .ok (point 0) := by
  have h := direction_enforced (madeFrom_nearest settings target bound).wellFormed rfl
    (w := (atBound bound).workingSet) rfl one_ne_zero (b := bound) (x := bound) (i := 0) rfl
    (List.forall_mem_singleton.2 (fits_pull target bound))
  rwa [div_one, sub_self] at h

theorem norm_direction_atBound {u : State ℝ} (hvalues : u.values = point bound)
    (hset : u.workingSet = (atBound bound).workingSet) {d : Point ℝ}
    (hd : (nearestSolver settings target bound).direction .exact u.workingSet u.values = .ok d) :
    Point.norm d = 0 := by
  rw [hset, hvalues, direction_atBound] at hd
  rw [← Except.ok.inj hd, norm_point, abs_zero]

/-- The multiplier at the bound is what separates it from the target. -/
theorem multipliers_atBound : ∃ duals, (nearestSolver settings target bound).multipliers .exact
    (atBound bound).workingSet (point bound) = .ok duals ∧
      Point.multiplier duals (atMost 1 bound 0).dual = .ok (bound - target) := by
  have hs := (madeFrom_nearest settings target bound).wellFormed
  obtain ⟨g, hg⟩ : ∃ g, (nearestSolver settings target bound).dualGraph
      (atBound bound).workingSet (point bound) = .ok g := ⟨_, rfl⟩
  have hn : (((nearestSolver settings target bound).working
      (atBound bound).workingSet).map (·.dual)).Nodup := List.nodup_singleton _
  have hind : (nearestSolver settings target bound).Independent (atBound bound).workingSet :=
    independent_enforced (w := (atBound bound).workingSet) rfl
  obtain ⟨duals, hduals, hmult⟩ :=
    Solver.exists_multipliers Kernels.exact_leastSquares hs rfl hn hind hg
  have hdirects := Solver.directs_of_direction Kernels.exact_leastSquares hs rfl
    (direction_atBound settings target bound)
  have hone := hmult.represents
    (fun z hz => hdirects.slope_eq_zero ((norm_point 0).trans abs_zero) hz) (point 1)
  change ([pull target].map fun f => Vec.dot (f.values (point 1)) (f.defect (point bound))).sum =
    ([(atMost 1 bound 0).toEquality].map fun c =>
      Vec.dot (c.toFactor.values (point 1)) (duals.part c.dual)).sum at hone
  rw [List.map_singleton, List.sum_singleton, List.map_singleton, List.sum_singleton,
    Factor.defect, values_pull, values_pull, Inequality.values_toEquality, value_atMost, part_point,
    Vec.dot_singleton, Vec.dot_singleton, Vec.dot_singleton, Inequality.dual_toEquality] at hone
  have hmultiplier : bound - target = (duals.part (atMost 1 bound 0).dual).headD 0 := by
    simpa [pull, Vec.sub] using hone
  rw [hmultiplier]
  exact ⟨duals, hduals, hmult.multiplier (.head _) (List.cons_ne_nil _ _) Nat.one_pos⟩

theorem iterate_atBound (htol : 0 ≤ settings.tolerance) (h : bound ≤ target) :
    ∃ v, ((nearestSolver settings target bound).method .exact .largestMultiplier).iterate
        (atBound bound) = .ok v ∧ v.values = point bound ∧
      v.workingSet = (atBound bound).workingSet ∧ v.hasConverged = true := by
  obtain ⟨duals, hduals, hmultiplier⟩ := multipliers_atBound settings target bound
  have hstay : LeavingRule.largestMultiplier (atBound bound).workingSet duals = .ok none :=
    LeavingRule.largestMultiplier_ok_none (List.forall_mem_singleton.2
      ⟨_, hmultiplier, sub_nonpos.2 h⟩)
  have hsmall : Point.norm (point 0) ≤ settings.tolerance := by
    rwa [norm_point, abs_zero]
  have hiterate := Method.iterate_converge
    (m := (nearestSolver settings target bound).method .exact .largestMultiplier)
    (s := atBound bound) (direction_atBound settings target bound) hsmall hduals hstay
  exact ⟨_, hiterate, rfl, rfl, rfl⟩

/-- The state at `x` with the inequality not enforced. -/
noncomputable def below (x : ℝ) : State ℝ := .initial (point x) (.inactive [atMost 1 bound 0])

theorem direction_inactive {y : Point ℝ} {x : ℝ} (hfits : (pull target).Fits y)
    (hvalues : (pull target).values y = [x]) : (nearestSolver settings target bound).direction .exact
      (.inactive [atMost 1 bound 0]) y = .ok (point (target - x)) :=
  direction_pull (madeFrom_nearest settings target bound).wellFormed rfl rfl rfl rfl rfl hfits hvalues

theorem direction_below (x : ℝ) : (nearestSolver settings target bound).direction .exact
    (below bound x).workingSet (point x) = .ok (point (target - x)) :=
  direction_inactive settings target bound (fits_pull target x) (values_pull target x)

/-- Towards a target behind the bound the inequality blocks. -/
theorem iterate_below (leaving : LeavingRule ℝ) {x : ℝ} (hx : x ≤ bound) (h : bound < target)
    (htol : settings.tolerance < target - x) :
    ∃ v, ((nearestSolver settings target bound).method .exact leaving).iterate
      (below bound x) = .ok v ∧ v.alpha = some ((bound - x) / (target - x)) ∧
        v.Agrees (atBound bound) ∧ v.hasConverged = false :=
  iterate_blocked (m := (nearestSolver settings target bound).method .exact leaving)
    (f := atMost 1 bound 0) rfl rfl rfl hx h (direction_below settings target bound x)
    (List.forall_mem_nil _) rfl htol

theorem iterate_atBound_firstActive (htol : 0 ≤ settings.tolerance) :
    ∃ v, ((nearestSolver settings target bound).method .exact .firstActive).iterate
        (atBound bound) = .ok v ∧ v.alpha = none ∧ v.Agrees (below bound bound) ∧
      v.hasConverged = false := by
  obtain ⟨duals, hduals, hmultiplier⟩ := multipliers_atBound settings target bound
  have hsmall : Point.norm (point 0) ≤ settings.tolerance := by
    rwa [norm_point, abs_zero]
  have hleave : LeavingRule.firstActive (atBound bound).workingSet duals = .ok (some 0) := rfl
  have hiterate := Method.iterate_drop
    (m := (nearestSolver settings target bound).method .exact .firstActive)
    (s := atBound bound) (direction_atBound settings target bound) hsmall hduals hleave
    (w := (below bound bound).workingSet) rfl (f := atMost 1 bound 0) rfl hmultiplier
  exact ⟨_, hiterate, rfl, ⟨rfl, rfl⟩, rfl⟩

end Nearest

/-! ## The nearest point between two inequalities -/

section Between

variable (settings : Settings ℝ) (target a b c d : ℝ)

/-- The point nearest to the target with `a x ≤ b` and `c x ≤ d`. -/
noncomputable def between : Problem ℝ :=
  .make (.quadratic [pull target]) [] [atMost a b 0, atMost c d 1]

noncomputable abbrev betweenSolver : Solver ℝ :=
  solver settings .quadratic [pull target] [atMost a b 0, atMost c d 1]

theorem ofProblem_between :
    Solver.ofProblem settings (between target a b c d) = .ok (betweenSolver settings target a b c d) :=
  rfl

theorem wellFormed_between : (betweenSolver settings target a b c d).WellFormed :=
  (Solver.madeFrom_ofProblem (ofProblem_between settings target a b c d)).wellFormed

end Between

/-! ## The least point -/

section Lowest

variable (settings : Settings ℝ) (a b c d : ℝ)

/-- The least point with `a x ≤ b` and `c x ≤ d`. -/
noncomputable def lowest : Problem ℝ :=
  .make (.linear (Keyed.ofList [(key, [1])])) [] [atMost a b 0, atMost c d 1]

noncomputable abbrev lowestSolver : Solver ℝ :=
  solver settings (.linear (Keyed.ofList [(key, [1])])) [pull (-1)] [atMost a b 0, atMost c d 1]

theorem ofProblem_lowest :
    Solver.ofProblem settings (lowest a b c d) = .ok (lowestSolver settings a b c d) := rfl

theorem madeFrom_lowest : (lowestSolver settings a b c d).MadeFrom settings (lowest a b c d) :=
  Solver.madeFrom_ofProblem (ofProblem_lowest settings a b c d)

theorem feasible_lowest {x : ℝ} (ha : a * x ≤ b) (hc : c * x ≤ d) :
    ∀ f ∈ (lowest a b c d).inequalities, f.Fits (point x) ∧ f.value (point x) ≤ f.bound := by
  refine List.forall_mem_cons.2 ⟨⟨fits_atMost _ _ _ _, ?_⟩,
    List.forall_mem_singleton.2 ⟨fits_atMost _ _ _ _, ?_⟩⟩
  · rw [value_atMost, part_point]
    simpa using ha
  · rw [value_atMost, part_point]
    simpa using hc

theorem direction_lowest (x : ℝ) : (lowestSolver settings a b c d).direction .exact
    (.inactive [atMost a b 0, atMost c d 1]) (point x) = .ok (point (-1)) := by
  have hs := (madeFrom_lowest settings a b c d).wellFormed
  obtain ⟨p, hp, hdirects⟩ := Solver.exists_direction Kernels.exact_leastSquares hs
    (w := .inactive [atMost a b 0, atMost c d 1]) (x := point x) rfl
    (List.forall_mem_singleton.2 (fits_pull (-1) x)) (List.forall_mem_nil _)
  obtain ⟨e, rfl⟩ := exists_point hdirects.spans
  have hstationary := hdirects.stationary (point 1) (List.forall_mem_nil _)
  change ([pull (-1)].map fun f => Vec.dot (f.values (point 1)) (f.values (point e))).sum +
    ([(key, [1])].map fun e : Key × List ℝ => Vec.dot e.2 ((point 1).part e.1)).sum = 0 at hstationary
  rw [List.map_singleton, List.sum_singleton, values_pull, values_pull, List.map_singleton,
    List.sum_singleton, part_point] at hstationary
  simp only [Vec.dot_cons, Vec.dot_nil_left] at hstationary
  rw [hp]
  congr 2
  linarith

noncomputable def startAtZero : Start ℝ where
  point := some (point 0)
  workingSet := some (.inactive (lowest a b c d).inequalities)

/-- Nothing bounds the way down if no inequality rises along it. -/
theorem iterate_lowest (htol : settings.tolerance < 1) (ha : 0 ≤ a) (hc : 0 ≤ c) (x : ℝ) :
    ((lowestSolver settings a b c d).method .exact .largestMultiplier).iterate
      (.initial (point x) (.inactive [atMost a b 0, atMost c d 1])) = .error (.unbounded 1) := by
  have hblock : (WorkingSet.inactive [atMost a b 0, atMost c d 1]).blocking (point x) (point (-1))
      .unlimited = .ok none := by
    refine WorkingSet.blocking_ok_none (List.forall_mem_cons.2 ⟨⟨fits_atMost _ _ _ _, ?_⟩,
      List.forall_mem_singleton.2 ⟨fits_atMost _ _ _ _, ?_⟩⟩)
    · simpa [value_atMost, part_point] using ha
    · simpa [value_atMost, part_point] using hc
  have hnorm : Point.norm (point (-1)) = 1 := by
    rw [norm_point, abs_neg, abs_one]
  have hiterate := Method.iterate_unbounded
    (m := (lowestSolver settings a b c d).method .exact .largestMultiplier)
    (s := .initial (point x) (.inactive [atMost a b 0, atMost c d 1]))
    (direction_lowest settings a b c d x) (hnorm.symm ▸ htol) rfl hblock
  rwa [hnorm] at hiterate

/-- Nor the way up to the first inequality if that is enforced and the second falls. -/
theorem iterate_lowest_enforced (ha : a ≠ 0) {x : ℝ} (htol : settings.tolerance < |b / a - x|)
    (hc : c * (b / a - x) ≤ 0) :
    ((lowestSolver settings a b c d).method .exact .largestMultiplier).iterate
      (.initial (point x) (firstEnforced (atMost a b 0) [atMost c d 1])) =
        .error (.unbounded |b / a - x|) := by
  have hdirection : (lowestSolver settings a b c d).direction .exact
      (firstEnforced (atMost a b 0) [atMost c d 1]) (point x) = .ok (point (b / a - x)) :=
    direction_enforced (madeFrom_lowest settings a b c d).wellFormed rfl rfl ha rfl
      (List.forall_mem_singleton.2 (fits_pull (-1) x))
  have hblock : (firstEnforced (atMost a b 0) [atMost c d 1]).blocking (point x)
      (point (b / a - x)) .unlimited = .ok none := by
    refine WorkingSet.blocking_ok_none (List.forall_mem_singleton.2 ⟨fits_atMost _ _ _ _, ?_⟩)
    simpa [value_atMost, part_point] using hc
  have hiterate := Method.iterate_unbounded
    (m := (lowestSolver settings a b c d).method .exact .largestMultiplier)
    (s := .initial (point x) (firstEnforced (atMost a b 0) [atMost c d 1]))
    hdirection ((norm_point _).symm ▸ htol) rfl hblock
  rwa [norm_point] at hiterate

end Lowest

/-! ## Starts -/

section Starts

variable {settings : Settings ℝ} {objective : Objective ℝ} {cost : Graph ℝ}
  {fs : List (Inequality ℝ)} {x : ℝ}

theorem add_zero_point (x : ℝ) :
    Point.add (Point.zero (Keyed.ofList [(key, 1)])) (point x) = .ok (point x) := by
  have h : Point.add (Point.zero (Keyed.ofList [(key, 1)])) (point x) = .ok (point (0 + 1 * x)) := rfl
  rw [h, zero_add, one_mul]

theorem initialState_of_feasible (htol : 0 < settings.feasibilityTolerance)
    (h : ∀ f ∈ fs, f.Fits (point x) ∧ f.value (point x) ≤ f.bound) {start : Start ℝ}
    (hpoint : start.point = some (point x)) {w : WorkingSet ℝ}
    (hset : (solver settings objective cost fs).startingSet start (point x) = .ok w) :
    (solver settings objective cost fs).initialState .exact start = .ok (.initial (point x) w) :=
  Solver.initialState_of_feasible rfl htol h hpoint (add_zero_point x) hset

private theorem isTight_far {gs : List (Inequality ℝ)} {y : Point ℝ} {tol : ℝ}
    (h : ∀ g ∈ gs, g.Fits y ∧ tol < |g.value y - g.bound|) :
    List.Forall₂ (fun g b => g.isTight y tol = .ok b) gs (gs.map fun _ => false) := by
  refine List.forall₂_map_right_iff.2 (List.forall₂_same.2 fun g hg => ?_)
  obtain ⟨hfits, hfar⟩ := h g hg
  rw [Inequality.isTight_eq_ok hfits, decide_eq_false (not_le.2 hfar)]

/-- The first inequality alone is seeded active if it alone is close enough to tight. -/
theorem seed_firstEnforced {f : Inequality ℝ} {gs : List (Inequality ℝ)} {y : Point ℝ} {tol : ℝ}
    (hf : f.Fits y) (hnear : |f.value y - f.bound| ≤ tol)
    (hfar : ∀ g ∈ gs, g.Fits y ∧ tol < |g.value y - g.bound|) :
    WorkingSet.seed (f :: gs) y none tol = .ok (firstEnforced f gs) := by
  have htight : (f :: gs).mapM (·.isTight y tol) = .ok (true :: gs.map fun _ => false) := by
    rw [mapM_eq_ok]
    exact .cons (by rw [Inequality.isTight_eq_ok hf, decide_eq_true hnear]) (isTight_far hfar)
  change ((f :: gs).mapM (·.isTight y tol) >>= WorkingSet.ofMask (f :: gs)) = _
  rw [htight]
  exact dif_pos (by simp)

/-- Where no inequality is close to tight none is seeded active. -/
theorem seed_inactive {gs : List (Inequality ℝ)} {y : Point ℝ} {tol : ℝ}
    (hfar : ∀ g ∈ gs, g.Fits y ∧ tol < |g.value y - g.bound|) :
    WorkingSet.seed gs y none tol = .ok (.inactive gs) := by
  change (gs.mapM (·.isTight y tol) >>= WorkingSet.ofMask gs) = _
  rw [(mapM_eq_ok ..).2 (isTight_far hfar), List.map_const']
  exact dif_pos (by simp)

end Starts

noncomputable def startAtBound (bound : ℝ) : Start ℝ where
  point := some (point bound)
  workingSet := some (atBound bound).workingSet

/-- A start at `x` that enforces nothing. -/
noncomputable def startBelow (bound x : ℝ) : Start ℝ where
  point := some (point x)
  workingSet := some (below bound x).workingSet

theorem feasible_below {bound x : ℝ} (hx : x ≤ bound) : ∀ f ∈ [atMost 1 bound 0],
    f.Fits (point x) ∧ f.value (point x) ≤ f.bound := by
  refine List.forall_mem_singleton.2 ⟨fits_atMost _ _ _ _, ?_⟩
  rw [value_atMost, part_point, Vec.dot_singleton, one_mul]
  exact hx

section Runs

variable {settings : Settings ℝ}

theorem checkFeasibility_below (htol : 0 < settings.feasibilityTolerance) (target : ℝ) {bound x : ℝ}
    (hx : x ≤ bound) : (nearestSolver settings target bound).checkFeasibility (point x) = .ok () :=
  Solver.checkFeasibility_of_feasible rfl htol (feasible_below hx)

theorem initialState_atBound (htol : 0 < settings.feasibilityTolerance) (target bound : ℝ) :
    (nearestSolver settings target bound).initialState .exact (startAtBound bound) =
      .ok (atBound bound) :=
  initialState_of_feasible htol (feasible_below le_rfl) rfl rfl

theorem initialState_below (htol : 0 < settings.feasibilityTolerance) (target : ℝ) {bound x : ℝ}
    (hx : x ≤ bound) : (nearestSolver settings target bound).initialState .exact
      (startBelow bound x) = .ok (below bound x) :=
  initialState_of_feasible htol (feasible_below hx) rfl rfl

/-- Towards a target behind the bound the run goes up to it and converges there. -/
theorem run_below (hbudget : 1 < settings.maxIterations) (htol : 0 ≤ settings.tolerance)
    {target bound x : ℝ} (hx : x < bound) (h : bound < target)
    (hfar : settings.tolerance < target - x) : ∃ v w,
    ((nearestSolver settings target bound).method .exact .largestMultiplier).run (below bound x) =
      ⟨[v, w], .converged w⟩ ∧ v.hasMoved = true ∧ v.Agrees (atBound bound) ∧
        w.Agrees (atBound bound) := by
  obtain ⟨v, hv, halpha, hagrees, hgoes⟩ :=
    iterate_below settings target bound .largestMultiplier hx.le h hfar
  have hmoved : v.hasMoved = true := by
    refine State.hasMoved_iff.2 ⟨_, halpha, div_pos (sub_pos.2 hx) ?_⟩
    linarith
  obtain ⟨u, hu, huvalues, huset, huconv⟩ := iterate_atBound settings target bound htol h.le
  obtain ⟨w, hrun, hw, _⟩ := Method.run_of_step
    (m := (nearestSolver settings target bound).method .exact .largestMultiplier) rfl hbudget hv
    hgoes hmoved hagrees hu huconv
  exact ⟨v, w, hrun, hmoved, hagrees, hw.trans ⟨huvalues, huset⟩⟩

theorem optimize_below (hbudget : 1 < settings.maxIterations) (htol : 0 ≤ settings.tolerance)
    (hfeasible : 0 < settings.feasibilityTolerance) {target bound x : ℝ} (hx : x < bound)
    (h : bound < target) (hfar : settings.tolerance < target - x) : ∃ v w objective,
    ((nearestSolver settings target bound).method .exact .largestMultiplier).run (below bound x) =
      ⟨[v, w], .converged w⟩ ∧ v.hasMoved = true ∧ v.Agrees (atBound bound) ∧
        w.Agrees (atBound bound) ∧
      (nearestSolver settings target bound).optimize .exact .largestMultiplier
        (startBelow bound x) = .ok ⟨objective, w⟩ := by
  obtain ⟨v, w, hrun, hmoved, hv, hw⟩ := run_below hbudget htol hx h hfar
  obtain ⟨objective, hobjective⟩ : ∃ a,
      (nearestSolver settings target bound).value w.values = .ok a := by
    rw [hw.values_eq]
    exact ⟨_, rfl⟩
  refine ⟨v, w, objective, hrun, hmoved, hv, hw, ?_⟩
  rw [Solver.optimize_eq_conclude (initialState_below hfeasible target hx.le), hrun,
    Solver.conclude_eq_ok]
  exact ⟨rfl, hobjective⟩

/-- On that run a direction counts as zero only at the bound, where it is. -/
theorem norm_direction_run {target bound x : ℝ} (hx : x < target)
    (hfar : settings.tolerance < target - x) {v w : State ℝ} (hv : v.Agrees (atBound bound))
    (hw : w.Agrees (atBound bound)) : ∀ u ∈ below bound x :: [v, w], ∀ d,
      (nearestSolver settings target bound).direction .exact u.workingSet u.values = .ok d →
        Point.norm d ≤ settings.tolerance → Point.norm d = 0 := by
  have hbound : ∀ u ∈ [v, w], u.Agrees (atBound bound) :=
    List.forall_mem_cons.2 ⟨hv, List.forall_mem_singleton.2 hw⟩
  intro u hu d hd hsmall
  cases hu with
  | head =>
      obtain rfl := Except.ok.inj ((direction_below settings target bound x).symm.trans hd)
      rw [norm_point, abs_of_pos (sub_pos.2 hx)] at hsmall
      exact absurd hsmall (not_le.2 hfar)
  | tail _ hu =>
      obtain ⟨hvalues, hset⟩ := hbound u hu
      exact norm_direction_atBound settings target bound hvalues hset hd

end Runs

/-- From zero to the bound three, on the way to five. -/
theorem optimize_below_zero : ∃ v w objective,
    ((nearestSolver settings 5 3).method .exact .largestMultiplier).run (below 3 0) =
      ⟨[v, w], .converged w⟩ ∧ v.hasMoved = true ∧ v.Agrees (atBound 3) ∧ w.Agrees (atBound 3) ∧
      (nearestSolver settings 5 3).optimize .exact .largestMultiplier (startBelow 3 0) =
        .ok ⟨objective, w⟩ :=
  optimize_below (by norm_num [settings]) tolerance_pos.le
    feasibilityTolerance_pos (by norm_num) (by norm_num) (tolerance_lt_one.trans (by norm_num))

end OneVariable

end ActiveSet
