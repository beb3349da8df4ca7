import ActiveSet.Proofs.Descent

/-!
# Termination

Points with a direction of zero and one working set have one objective, and every move lowers it. So
such a point never comes with a working set for a second time unless the run is stopped for a cycle,
and between two such points only so many inequalities can become active.
-/

namespace ActiveSet

/-- In these states every direction that counts as zero is zero. -/
def Solver.ExactZeros (kernels : Kernels ℝ) (s : Solver ℝ) (states : List (State ℝ)) : Prop :=
  ∀ v ∈ states, ∀ d, s.direction kernels v.workingSet v.values = .ok d →
    Point.norm d ≤ s.settings.tolerance → Point.norm d = 0

/-! ## Points at rest -/

namespace Problem

variable {p : Problem ℝ} {s : Solver ℝ} {settings : Settings ℝ} {kernels : Kernels ℝ}
  {leaving : LeavingRule ℝ} {u v y : State ℝ} {d : Point ℝ} {seen : List (List Nat)}

theorem OnFace.free_between (hs : s.MadeFrom settings p) (hu : p.OnFace u) (hv : p.OnFace v)
    (hset : v.workingSet = u.workingSet) :
    s.Free u.workingSet (Point.between s.dims u.values v.values) := by
  intro c hc
  have hover := hs.wellFormed.over_working (hu.factors_eq.trans hs.inequalities_eq.symm)
  rw [Factor.values_between (hover c.toFactor (List.mem_map_of_mem hc)), ← Factor.sub_defect,
    (hu.holds hs hc).2, (hv.holds hs (hset ▸ hc)).2, Vec.sub_self_eq_zeros, Vec.length_zeros]

/-- A state on a face whose direction is zero. -/
structure AtRest (p : Problem ℝ) (kernels : Kernels ℝ) (s : Solver ℝ) (u : State ℝ) : Prop where
  onFace : p.OnFace u
  zero : ∃ d, s.direction kernels u.workingSet u.values = .ok d ∧ Point.norm d = 0

theorem AtRest.amount_le (hk : kernels.ExactLeastSquares) (hs : s.MadeFrom settings p)
    (hu : p.AtRest kernels s u) (hv : p.OnFace v) (hset : v.workingSet = u.workingSet) :
    s.amount u.values ≤ s.amount v.values := by
  obtain ⟨d, hd, hzero⟩ := hu.zero
  have hw := hu.onFace.factors_eq.trans hs.inequalities_eq.symm
  have hslope := (Solver.directs_of_direction hk hs.wellFormed hw hd).slope_eq_zero hzero
    (hu.onFace.free_between hs hv hset)
  have hle := Solver.amount_add_slope_le hs.wellFormed u.values v.values
  rwa [hslope, add_zero] at hle

/-! ## The rank of a state -/

/--
What a run knows of a state: the working sets `Z` that were at rest so far, each of them since the
last move or with more objective, and that at most `r` iterations lead to the next rest.
-/
structure Ranked (p : Problem ℝ) (kernels : Kernels ℝ) (s : Solver ℝ) (seen : List (List Nat))
    (u : State ℝ) (Z : Finset (List Nat)) (r : Nat) : Prop where
  onFace : p.OnFace u
  subsets : Z ⊆ (List.range p.inequalities.length).sublists.toFinset
  recorded : ∀ w ∈ Z, ∃ y, p.AtRest kernels s y ∧ y.workingSet.activeIndices = w ∧
    (s.amount u.values < s.amount y.values ∨ w ∈ seen ∧ s.amount u.values ≤ s.amount y.values)
  room : ∀ d, s.direction kernels u.workingSet u.values = .ok d → Point.norm d ≠ 0 →
    p.inequalities.length + 1 ≤ r + u.workingSet.activeIndices.length

/-- Iterations that are left for a state: between two rests there are at most `m + 2`. -/
def rank (p : Problem ℝ) (Z : Finset (List Nat)) (r : Nat) : Nat :=
  (2 ^ p.inequalities.length - Z.card) * (p.inequalities.length + 2) + r

theorem OnFace.activeIndices_mem (hu : p.OnFace u) :
    u.workingSet.activeIndices ∈ (List.range p.inequalities.length).sublists.toFinset := by
  rw [List.mem_toFinset, List.mem_sublists, ← hu.factors_eq]
  exact u.workingSet.sublist_activeIndices

theorem card_le_of_subsets {m : Nat} {Z : Finset (List Nat)}
    (h : Z ⊆ (List.range m).sublists.toFinset) : Z.card ≤ 2 ^ m := by
  rw [← Finset.length_toList]
  refine WorkingSet.length_signatures_le Z.nodup_toList fun σ hσ => ?_
  exact List.mem_sublists.1 (List.mem_toFinset.1 (h (Finset.mem_toList.1 hσ)))

variable {Z : Finset (List Nat)} {r : Nat}

/-- A state at rest that is not remembered has a working set that was never at rest. -/
theorem Ranked.notMem (h : p.Ranked kernels s seen u Z r) (hk : kernels.ExactLeastSquares)
    (hs : s.MadeFrom settings p) (hrest : p.AtRest kernels s u)
    (hnew : u.workingSet.activeIndices ∉ seen) : u.workingSet.activeIndices ∉ Z := by
  intro hmem
  obtain ⟨y, hy, hsame, hlt | ⟨hseen, _⟩⟩ := h.recorded _ hmem
  · have hset : y.workingSet = u.workingSet := WorkingSet.eq_of_activeIndices
      (hy.onFace.factors_eq.trans hrest.onFace.factors_eq.symm) hsame
    exact absurd (hy.amount_le hk hs hrest.onFace hset.symm) (not_le.2 hlt)
  · exact hnew hseen

theorem Ranked.rest (h : p.Ranked kernels s seen u Z r) (hv : p.OnFace v)
    (hrest : p.AtRest kernels s u) (hvalues : v.values = u.values) :
    p.Ranked kernels s (u.workingSet.activeIndices :: seen) v
      (insert u.workingSet.activeIndices Z) (p.inequalities.length + 1) where
  onFace := hv
  subsets := Finset.insert_subset h.onFace.activeIndices_mem h.subsets
  recorded := by
    rw [hvalues]
    refine Finset.forall_mem_insert _ _ _ |>.2 ⟨⟨u, hrest, rfl, .inr ⟨.head _, le_rfl⟩⟩, ?_⟩
    intro w hw
    obtain ⟨y, hy, hsame, hbelow⟩ := h.recorded w hw
    exact ⟨y, hy, hsame, hbelow.imp_right fun hseen => ⟨.tail _ hseen.1, hseen.2⟩⟩
  room := fun _ _ _ => Nat.le_add_right ..

/-- An iteration along a direction that is not zero uses up some of the room. -/
theorem Ranked.climb (h : p.Ranked kernels s seen u Z r) (hk : kernels.ExactLeastSquares)
    (hs : s.MadeFrom settings p) (htol : 0 ≤ s.settings.tolerance)
    (hd : s.direction kernels u.workingSet u.values = .ok d)
    (hlarge : s.settings.tolerance < Point.norm d)
    (hstep : Method.Step (s.method kernels leaving) u d v) :
    ∃ r' < r, p.Ranked kernels s (Method.remembered seen u v) v Z r' := by
  have hwf := hs.wellFormed
  have hw := h.onFace.factors_eq.trans hs.inequalities_eq.symm
  have hdirects := Solver.directs_of_direction hk hwf hw hd
  have hfree := h.onFace.free hs hdirects
  have hv : p.OnFace v := h.onFace.step hs hdirects hstep
  have hroom := h.room d hd (htol.trans_lt hlarge).ne'
  have hcount : u.workingSet.activeIndices.length ≤ p.inequalities.length :=
    h.onFace.factors_eq ▸ u.workingSet.length_activeIndices_le
  have hrecorded : ∀ w ∈ Z, ∃ y, p.AtRest kernels s y ∧ y.workingSet.activeIndices = w ∧
      (s.amount v.values < s.amount y.values ∨
        w ∈ Method.remembered seen u v ∧ s.amount v.values ≤ s.amount y.values) := by
    intro w hw'
    obtain ⟨y, hy, hsame, hbelow⟩ := h.recorded w hw'
    refine ⟨y, hy, hsame, ?_⟩
    unfold Method.remembered
    cases hmoved : v.hasMoved with
    | true =>
        have hlt := Solver.amount_lt_of_step hk hwf hw htol hd hfree hstep hmoved
        exact .inl (hbelow.elim hlt.trans fun hseen => hlt.trans_le hseen.2)
    | false =>
        rw [(Solver.padded_of_step hdirects.spans hstep hmoved).2]
        exact hbelow.imp_right fun hseen => ⟨.tail _ hseen.1, hseen.2⟩
  -- Either one more inequality is active, or the next direction is zero and no room is needed.
  rcases hstep.of_large hlarge with hone | ⟨hset, c, hcap, hadd⟩
  · exact ⟨r - 1, by omega, hv, h.subsets, hrecorded, fun _ _ _ => by omega⟩
  · refine ⟨0, by omega, hv, h.subsets, hrecorded, fun e he hne => ?_⟩
    have hw' := hv.factors_eq.trans hs.inequalities_eq.symm
    have hfree' := hv.free hs (Solver.directs_of_direction hk hwf hw' he)
    exact absurd (Solver.norm_eq_zero_of_full hk hwf hw' (hset.symm ▸ hdirects) hcap hadd he hfree')
      hne

/-- Every iteration lowers the rank. -/
theorem Ranked.iterate (h : p.Ranked kernels s seen u Z r) (hk : kernels.ExactLeastSquares)
    (hs : s.MadeFrom settings p) (htol : 0 ≤ s.settings.tolerance)
    (hzero : ∀ d, s.direction kernels u.workingSet u.values = .ok d →
      Point.norm d ≤ s.settings.tolerance → Point.norm d = 0)
    (hnew : u.workingSet.activeIndices ∉ seen)
    (hiter : (s.method kernels leaving).iterate u = .ok v) :
    ∃ Z' r', p.rank Z' r' < p.rank Z r ∧
      p.Ranked kernels s (Method.remembered seen u v) v Z' r' := by
  obtain ⟨d, hd, hstep⟩ := Method.step_of_iterate hiter
  rcases lt_or_ge s.settings.tolerance (Point.norm d) with hlarge | hsmall
  · obtain ⟨r', hlt, hranked⟩ := h.climb hk hs htol hd hlarge hstep
    exact ⟨Z, r', Nat.add_lt_add_left hlt _, hranked⟩
  · have hrest : p.AtRest kernels s u := ⟨h.onFace, d, hd, hzero d hd hsmall⟩
    have halpha : v.alpha = none := by
      cases halpha : v.alpha with
      | none => rfl
      | some a => exact absurd (hstep.of_alpha halpha).1 (not_lt.2 hsmall)
    have hranked := h.rest (h.onFace.of_iterate hk hs hiter) hrest (hstep.of_alpha_none halpha).1
    have hremembered : Method.remembered seen u v = u.workingSet.activeIndices :: seen := by
      simp [Method.remembered, State.hasMoved, halpha]
    refine ⟨_, _, ?_, hremembered ▸ hranked⟩
    have hcard := Finset.card_insert_of_notMem (h.notMem hk hs hrest hnew)
    have hle := card_le_of_subsets hranked.subsets
    -- One subset less is left, and that pays for the room of a new climb.
    obtain ⟨k, hk⟩ := Nat.exists_eq_add_of_le hle
    have hbefore : 2 ^ p.inequalities.length - Z.card = k + 1 := by omega
    have hafter : 2 ^ p.inequalities.length - (insert u.workingSet.activeIndices Z).card = k := by
      omega
    rw [rank, rank, hbefore, hafter, add_mul]
    omega

/-- More iterations than a run can make. -/
def iterationBound (p : Problem ℝ) : Nat :=
  (p.inequalities.length + 2) * (2 ^ p.inequalities.length + 1)

theorem OnFace.ranked (hu : p.OnFace u) :
    p.Ranked kernels s [] u ∅ (p.inequalities.length + 1) where
  onFace := hu
  subsets := Finset.empty_subset _
  recorded := fun _ h => absurd h (Finset.notMem_empty _)
  room := fun _ _ _ => Nat.le_add_right ..

theorem rank_lt_iterationBound (p : Problem ℝ) :
    p.rank ∅ (p.inequalities.length + 1) < p.iterationBound := by
  rw [rank, iterationBound, Finset.card_empty, Nat.sub_zero, Nat.mul_comm, Nat.mul_add, Nat.mul_one]
  omega

theorem OnFace.length_runFrom_lt (hu : p.OnFace u) (hk : kernels.ExactLeastSquares)
    (hs : s.MadeFrom settings p) (htol : 0 ≤ s.settings.tolerance)
    (hcycling : s.settings.detectCycling = true) {budget : Nat}
    (hzero : s.ExactZeros kernels (u :: ((s.method kernels leaving).runFrom budget [] u).states)) :
    ((s.method kernels leaving).runFrom budget [] u).states.length < p.iterationBound := by
  refine lt_of_le_of_lt (Method.runFrom_length_le (R := fun n seen v =>
    ∃ Z r, n = p.rank Z r ∧ p.Ranked kernels s seen v Z r) ⟨_, _, rfl, hu.ranked⟩ ?_)
    p.rank_lt_iterationBound
  rintro _ seen v hv w ⟨Z, r, rfl, hranked⟩ hnew hiter
  obtain ⟨Z', r', hlt, hranked'⟩ :=
    hranked.iterate hk hs htol (hzero v hv) (hnew hcycling) hiter
  exact ⟨_, hlt, Z', r', rfl, hranked'⟩

theorem OnFace.not_exhausted (hu : p.OnFace u) (hk : kernels.ExactLeastSquares)
    (hs : s.MadeFrom settings p) (htol : 0 ≤ s.settings.tolerance)
    (hcycling : s.settings.detectCycling = true) {budget : Nat}
    (hzero : s.ExactZeros kernels (u :: ((s.method kernels leaving).runFrom budget [] u).states))
    (hbudget : p.iterationBound ≤ budget) (last : State ℝ) :
    ((s.method kernels leaving).runFrom budget [] u).ending ≠ .exhausted last := by
  intro hend
  have hall := Method.runFrom_exhausted hend
  have hlt := hu.length_runFrom_lt hk hs htol hcycling hzero
  omega

end Problem

/--
With detection of cycles a run from a feasible state with tight active inequalities, on which every
direction that counts as zero is zero, ends within `(m + 2) (2 ^ m + 1)` iterations; so a solve that
may take as many does not run out of them.
-/
theorem Solver.run_terminates {kernels : Kernels ℝ} (hk : kernels.ExactLeastSquares)
    {settings : Settings ℝ} (htol : 0 ≤ settings.tolerance)
    (hcycling : settings.detectCycling = true) {p : Problem ℝ} {s : Solver ℝ}
    (hs : Solver.ofProblem settings p = .ok s) (leaving : LeavingRule ℝ) {u : State ℝ}
    (hu : p.OnFace u) :
    (∀ budget,
      s.ExactZeros kernels (u :: ((s.method kernels leaving).runFrom budget [] u).states) →
      ((s.method kernels leaving).runFrom budget [] u).states.length <
          (p.inequalities.length + 2) * (2 ^ p.inequalities.length + 1) ∧
        ((p.inequalities.length + 2) * (2 ^ p.inequalities.length + 1) ≤ budget →
          ∀ last, ((s.method kernels leaving).runFrom budget [] u).ending ≠ .exhausted last)) ∧
      ∀ start, s.initialState kernels start = .ok u →
        s.ExactZeros kernels (u :: ((s.method kernels leaving).run u).states) →
        (p.inequalities.length + 2) * (2 ^ p.inequalities.length + 1) ≤ settings.maxIterations →
        ∀ last, s.optimize kernels leaving start ≠ .error (.exhausted last) := by
  have hmade := Solver.madeFrom_ofProblem hs
  rw [← hmade.settings_eq] at htol hcycling ⊢
  refine ⟨fun budget hzero => ⟨?_, ?_⟩, ?_⟩
  · exact hu.length_runFrom_lt hk hmade htol hcycling hzero
  · exact hu.not_exhausted hk hmade htol hcycling hzero
  · intro start hstart hzero hbudget last h
    exact hu.not_exhausted hk hmade htol hcycling hzero hbudget last
      ((Solver.optimize_eq_exhausted hstart).1 h)

namespace OneVariable

/-- A run of two iterations, of the nine that one inequality allows. -/
theorem run_terminates_nearest : (nearest 5 3).OnFace (below 3 0) ∧
    (((nearestSolver settings 5 3).method .exact .largestMultiplier).runFrom 1000 []
      (below 3 0)).states.length = 2 ∧
    (((nearestSolver settings 5 3).method .exact .largestMultiplier).runFrom 1000 []
      (below 3 0)).states.length < 9 ∧
    ∀ last, (nearestSolver settings 5 3).optimize .exact .largestMultiplier (startBelow 3 0) ≠
      .error (.exhausted last) := by
  have hface := onFace_below 5 (show (0 : ℝ) ≤ 3 by norm_num)
  obtain ⟨v, w, _, hrun, _, hv, hw, _⟩ := optimize_below_zero
  have hzero : (nearestSolver settings 5 3).ExactZeros .exact (below 3 0 ::
      (((nearestSolver settings 5 3).method .exact .largestMultiplier).run (below 3 0)).states) := by
    rw [hrun]
    exact norm_direction_run (by norm_num) (tolerance_lt_one.trans (by norm_num)) hv hw
  obtain ⟨hlength, hsolve⟩ := Solver.run_terminates Kernels.exact_leastSquares tolerance_pos.le rfl
    (ofProblem_nearest settings 5 3) .largestMultiplier hface
  have hstart := initialState_below feasibilityTolerance_pos 5 (show (0 : ℝ) ≤ 3 by norm_num)
  have htwo : (((nearestSolver settings 5 3).method .exact .largestMultiplier).runFrom 1000 []
      (below 3 0)).states.length = 2 := congrArg (·.states.length) hrun
  exact ⟨hface, htwo, (hlength 1000 hzero).1,
    hsolve _ hstart hzero (by norm_num [settings, nearest, Problem.make])⟩

end OneVariable

end ActiveSet
