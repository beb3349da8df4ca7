import ActiveSet.Proofs.Starts

/-!
# Cycles

An iteration depends on the point and the working set alone. A working set that comes again before
the point has moved therefore starts a loop without end, and there are only so many working sets.
-/

namespace ActiveSet

namespace Method

variable {m : Method ℝ} {s t : State ℝ}

/-- All directions are points over the given keys. -/
def Over (m : Method ℝ) (dims : Keyed Nat) : Prop :=
  ∀ w x d, m.direction w x = .ok d → ∀ k ∈ d.keys, k ∈ dims.keys

/-- The method without detection of cycles, and with another cap on iterations. -/
def undetected (m : Method ℝ) (n : Nat) : Method ℝ :=
  { m with settings := { m.settings with detectCycling := false, maxIterations := n } }

/-! ## States that recur -/

/-- Every state of the list leads on to one that agrees with a state of the list. -/
def Recurs (m : Method ℝ) (past : List (State ℝ)) : Prop :=
  ∀ u ∈ past, ∃ t, m.iterate u = .ok t ∧ t.hasConverged = false ∧ ∃ u' ∈ past, t.Agrees u'

/-- Without detection a run among states that recur goes on for as long as it may. -/
theorem Recurs.exhausted {past : List (State ℝ)} (h : m.Recurs past)
    (hcycling : m.settings.detectCycling = false) (hs : s.hasConverged = false)
    (hmem : ∃ u ∈ past, s.Agrees u) (budget : Nat) (seen : List (List Nat)) :
    ∃ last, (m.runFrom budget seen s).ending = .exhausted last := by
  induction budget generalizing s seen with
  | zero => exact ⟨s, by rw [runFrom_zero hs]⟩
  | succ budget ih =>
      obtain ⟨u, hu, hagrees⟩ := hmem
      obtain ⟨t, ht, hconverged, u', hu', hback⟩ := h u hu
      obtain ⟨t', ht', hsame, hconverged', _⟩ := iterate_congr hagrees.symm ht
      rw [runFrom_of_iterate hs (by simp [hcycling]) ht']
      exact ih (hconverged'.trans hconverged) ⟨u', hu', hsame.symm.trans hback⟩ _

/-! ## What a run remembers -/

/-- The states since the point moved, the newest first, are what the run remembers. -/
structure Remembers (m : Method ℝ) (seen : List (List Nat)) (past : List (State ℝ)) (s : State ℝ) :
    Prop where
  seen_eq : seen = past.map (·.workingSet.activeIndices)
  values_eq : ∀ u ∈ past, u.values = s.values
  factors_eq : ∀ u ∈ past, u.workingSet.factors = s.workingSet.factors
  leads : ∀ u ∈ past, ∃ t, m.iterate u = .ok t ∧ t.hasConverged = false ∧
    ∃ u' ∈ s :: past, t.Agrees u'

variable {seen : List (List Nat)} {past : List (State ℝ)}

theorem Remembers.nil (m : Method ℝ) (s : State ℝ) : m.Remembers [] [] s :=
  ⟨rfl, List.forall_mem_nil _, List.forall_mem_nil _, List.forall_mem_nil _⟩

theorem values_eq_of_still {dims : Keyed Nat} (hm : m.Over dims)
    (hs : ∀ k ∈ dims.keys, s.values.lookup k ≠ none) (ht : m.iterate s = .ok t)
    (hstill : t.hasMoved = false) : t.values = s.values := by
  obtain ⟨p, hp, hstep⟩ := step_of_iterate ht
  cases halpha : t.alpha with
  | none => exact (hstep.of_alpha_none halpha).1
  | some a =>
      obtain ⟨_, hnonneg, hadd, _⟩ := hstep.of_alpha halpha
      obtain rfl := le_antisymm (State.not_hasMoved_iff.1 hstill a halpha) hnonneg
      exact Point.eq_of_step_zero (fun k hk => hs k (hm _ _ _ hp k hk)) hadd

theorem holds_of_iterate {ks : List Key} (hs : ∀ k ∈ ks, s.values.lookup k ≠ none)
    (ht : m.iterate s = .ok t) : ∀ k ∈ ks, t.values.lookup k ≠ none := by
  obtain ⟨p, _, hstep⟩ := step_of_iterate ht
  intro k hk
  rcases hstep.length with hsame | ⟨a, _, hadd, _⟩
  · rw [hsame]
    exact hs k hk
  · exact Point.lookup_add_ne_none hadd (hs k hk)

theorem Remembers.iterate (h : m.Remembers seen past s) {dims : Keyed Nat} (hm : m.Over dims)
    (hs : ∀ k ∈ dims.keys, s.values.lookup k ≠ none) (ht : m.iterate s = .ok t)
    (hconverged : t.hasConverged = false) : ∃ past', m.Remembers (remembered seen s t) past' t := by
  unfold remembered
  cases hmoved : t.hasMoved with
  | true => exact ⟨[], .nil m t⟩
  | false =>
      obtain ⟨p, _, hstep⟩ := step_of_iterate ht
      have hvalues := values_eq_of_still hm hs ht hmoved
      refine ⟨s :: past, ?_, ?_, ?_, ?_⟩
      · rw [h.seen_eq]
        rfl
      · rw [hvalues]
        exact List.forall_mem_cons.2 ⟨rfl, h.values_eq⟩
      · rw [hstep.factors_eq]
        exact List.forall_mem_cons.2 ⟨rfl, h.factors_eq⟩
      · refine List.forall_mem_cons.2 ⟨⟨t, ht, hconverged, t, .head _, ⟨rfl, rfl⟩⟩, fun u hu => ?_⟩
        obtain ⟨v, hv, hv', u', hu', hagrees⟩ := h.leads u hu
        exact ⟨v, hv, hv', u', .tail _ hu', hagrees⟩

/-- Once the working set is among the remembered ones, the states since the move recur. -/
theorem Remembers.recurs (h : m.Remembers seen past s) (hseen : s.workingSet.activeIndices ∈ seen) :
    m.Recurs past ∧ ∃ u ∈ past, s.Agrees u := by
  rw [h.seen_eq] at hseen
  obtain ⟨u, hu, hsame⟩ := List.mem_map.1 hseen
  have hagrees : s.Agrees u :=
    ⟨(h.values_eq u hu).symm, WorkingSet.eq_of_activeIndices (h.factors_eq u hu).symm hsame.symm⟩
  refine ⟨fun v hv => ?_, u, hu, hagrees⟩
  obtain ⟨t, ht, hconverged, v', hv', hto⟩ := h.leads v hv
  refine ⟨t, ht, hconverged, ?_⟩
  rcases List.mem_cons.1 hv' with rfl | hv'
  · exact ⟨u, hu, hto.trans hagrees⟩
  · exact ⟨v', hv', hto⟩

/-! ## Runs with and without detection -/

/-- A run that ends in a cycle goes on for as long as it may if cycles are not detected. -/
theorem exhausted_of_cycled {dims : Keyed Nat} (hm : m.Over dims)
    (hs : ∀ k ∈ dims.keys, s.values.lookup k ≠ none) (h : m.Remembers seen past s) {budget : Nat}
    {last : State ℝ} (hend : (m.runFrom budget seen s).ending = .cycled last) (cap n : Nat)
    (seen' : List (List Nat)) :
    ∃ last', ((m.undetected cap).runFrom n seen' s).ending = .exhausted last' := by
  -- Along the run with detection: up to its end both runs take the same iterations.
  fun_induction m.runFrom budget seen s generalizing past n seen'
  case case1 => cases hend
  case case2 => cases hend
  case case3 seen s hs' _ _ hcheck =>
    have hseen : s.workingSet.activeIndices ∈ seen := by
      simpa using (Bool.and_eq_true_iff.1 hcheck).2
    obtain ⟨hrecurs, hmem⟩ := h.recurs hseen
    exact Recurs.exhausted (m := m.undetected cap) hrecurs rfl (eq_false_of_ne_true hs') hmem n seen'
  case case4 => cases hend
  case case5 seen s hs' _ _ _ t ht rest ih =>
    have hfresh := eq_false_of_ne_true hs'
    have hconverged : t.hasConverged = false := by
      cases hconverged : t.hasConverged with
      | false => rfl
      | true =>
          change (m.runFrom _ _ t).ending = _ at hend
          rw [runFrom_of_converged hconverged] at hend
          cases hend
    obtain ⟨past', hpast'⟩ := h.iterate hm hs ht hconverged
    cases n with
    | zero => exact ⟨s, by rw [runFrom_zero hfresh]⟩
    | succ n =>
        have hunseen : (m.undetected cap).settings.detectCycling = true →
            s.workingSet.activeIndices ∉ seen' := fun h => absurd h Bool.false_ne_true
        rw [runFrom_of_iterate hfresh hunseen ht]
        exact ih (holds_of_iterate hs ht) hpast' hend n _

/-- With detection the working sets of states that follow each other at one point are distinct. -/
theorem length_still_le (hcycling : m.settings.detectCycling = true) {n : Nat}
    (hseen : seen.Nodup) (hsub : ∀ σ ∈ seen, σ.Sublist (List.range n))
    (hs : s.workingSet.factors.length = n) (budget : Nat) {still : List (State ℝ)}
    (hstill : ∀ t ∈ still, t.hasMoved = false) :
    (still <+: (m.runFrom budget seen s).states → seen.length + still.length ≤ 2 ^ n) ∧
      (still <:+: (m.runFrom budget seen s).states → still.length ≤ 2 ^ n) := by
  -- States from the first one on add to those remembered; any others lie in the run that follows.
  fun_induction m.runFrom budget seen s generalizing still
  case case5 seen s _ _ _ hnew t ht rest ih =>
    have hnew : s.workingSet.activeIndices ∉ seen := by simpa [hcycling] using hnew
    obtain ⟨p, _, hstep⟩ := step_of_iterate ht
    have hfactors : t.workingSet.factors.length = n := by rw [hstep.factors_eq, hs]
    have hsig : s.workingSet.activeIndices.Sublist (List.range n) :=
      hs ▸ s.workingSet.sublist_activeIndices
    have hseen' : (remembered seen s t).Nodup := by
      unfold remembered
      split
      · exact List.nodup_nil
      · exact List.nodup_cons.2 ⟨hnew, hseen⟩
    have hsub' : ∀ σ ∈ remembered seen s t, σ.Sublist (List.range n) := by
      unfold remembered
      split
      · exact List.forall_mem_nil _
      · exact List.forall_mem_cons.2 ⟨hsig, hsub⟩
    have hinitial : still <+: t :: rest.states → seen.length + still.length ≤ 2 ^ n := by
      intro h
      rcases List.prefix_cons_iff.1 h with rfl | ⟨later, rfl, hlater⟩
      · exact WorkingSet.length_signatures_le hseen hsub
      · obtain ⟨hmoved, hstill⟩ := List.forall_mem_cons.1 hstill
        have hle := (ih hseen' hsub' hfactors hstill).1 hlater
        simp only [hmoved, Bool.false_eq_true, if_false, List.length_cons] at hle
        rw [List.length_cons]
        omega
    refine ⟨hinitial, fun h => ?_⟩
    rcases List.infix_cons_iff.1 h with h | h
    · exact (Nat.le_add_left ..).trans (hinitial h)
    · exact (ih hseen' hsub' hfactors hstill).2 h
  all_goals
    refine ⟨fun h => ?_, fun h => ?_⟩
    · rw [List.prefix_nil.1 h]
      exact WorkingSet.length_signatures_le hseen hsub
    · rw [List.infix_nil.1 h]
      exact Nat.zero_le _

end Method

/-! ## Solves -/

namespace Solver

def undetected (s : Solver ℝ) (n : Nat) : Solver ℝ :=
  { s with settings := { s.settings with detectCycling := false, maxIterations := n } }

variable {s : Solver ℝ} {kernels : Kernels ℝ} {start : Start ℝ} {u : State ℝ}

theorem initialState_undetected (n : Nat) :
    (s.undetected n).initialState kernels start = s.initialState kernels start := rfl

theorem method_undetected (leaving : LeavingRule ℝ) (n : Nat) :
    (s.undetected n).method kernels leaving = (s.method kernels leaving).undetected n := rfl

theorem over_method (hs : s.ordering = s.dims.keys) (leaving : LeavingRule ℝ) :
    (s.method kernels leaving).Over s.dims := fun _ _ _ hd _ hk =>
  hs ▸ mem_ordering_of_direction hd hk

theorem of_initialState (hs : s.ordering = s.dims.keys)
    (hu : s.initialState kernels start = .ok u) :
    (∀ k ∈ s.dims.keys, u.values.lookup k ≠ none) ∧
      u.workingSet.factors.length = s.inequalities.length := by
  obtain ⟨found, w, hfound, hw, rfl⟩ := exists_of_initialState hu
  exact ⟨holds_startingPoint hs hfound, length_startingSet hw⟩

/--
With any directions over the keys of the solver and any rule for leaving: a run that ends in a cycle
reaches every cap on iterations if cycles are not detected, and while they are the point stays for at
most `2 ^ m` iterations at a time. The same holds of a solve with the directions of the solver.
-/
theorem cycling_detection {settings : Settings ℝ} {objective : Objective ℝ} {cost : Graph ℝ}
    {equalities : List (Equality ℝ)} {inequalities : List (Inequality ℝ)}
    (hs : assemble settings objective cost equalities inequalities = .ok s) (kernels : Kernels ℝ)
    (start : Start ℝ) :
    (∀ m : Method ℝ, m.Over s.dims → ∀ u, s.initialState kernels start = .ok u →
      (∀ last, (m.run u).ending = .cycled last →
        ∀ n, ∃ last', ((m.undetected n).run u).ending = .exhausted last') ∧
      (m.settings.detectCycling = true → ∀ still, still <:+: (m.run u).states →
        (∀ t ∈ still, t.hasMoved = false) → still.length ≤ 2 ^ s.inequalities.length)) ∧
    ∀ leaving last, s.optimize kernels leaving start = .error (.cycled last) →
      ∀ n, ∃ last', (s.undetected n).optimize kernels leaving start = .error (.exhausted last') := by
  have hordering := ordering_of_assemble hs
  have hgoes : ∀ m : Method ℝ, m.Over s.dims → ∀ u, s.initialState kernels start = .ok u →
      ∀ last, (m.run u).ending = .cycled last →
        ∀ n, ∃ last', ((m.undetected n).run u).ending = .exhausted last' := by
    intro m hm u hu last hend n
    exact Method.exhausted_of_cycled hm (of_initialState hordering hu).1 (.nil m u) hend n n []
  constructor
  · intro m hm u hu
    refine ⟨hgoes m hm u hu, fun hcycling still hinfix hstill => ?_⟩
    obtain ⟨_, hlength⟩ := of_initialState hordering hu
    exact (Method.length_still_le hcycling List.nodup_nil (List.forall_mem_nil _) hlength _
      hstill).2 hinfix
  · intro leaving last h n
    cases hu : s.initialState kernels start with
    | error cause =>
        rw [optimize, Solver.run, hu] at h
        cases h
    | ok u =>
        rw [optimize_eq_cycled hu] at h
        obtain ⟨last', hlast'⟩ := hgoes _ (over_method hordering leaving) u hu last h n
        refine ⟨last', ?_⟩
        rwa [optimize_eq_exhausted ((initialState_undetected n).trans hu), method_undetected]

end Solver

namespace OneVariable

/-- Dropping the inequality at the bound leads back to where it becomes active. -/
theorem cycling_detection_firstActive : ∃ last,
    (nearestSolver settings 5 3).optimize .exact .firstActive (startAtBound 3) =
      .error (.cycled last) ∧
    ∀ n, ∃ last', ((nearestSolver settings 5 3).undetected n).optimize .exact .firstActive
      (startAtBound 3) = .error (.exhausted last') := by
  obtain ⟨v, hv, hvalpha, hvagrees, hvconverged⟩ :=
    iterate_atBound_firstActive settings 5 3 tolerance_pos.le
  obtain ⟨w, hw, hwalpha, hwagrees, hwconverged⟩ :=
    iterate_below settings 5 3 .firstActive le_rfl (by norm_num)
      (tolerance_lt_one.trans (by norm_num))
  obtain ⟨t, ht, hwt, htconverged, htalpha⟩ := Method.iterate_congr hvagrees.symm hw
  have hvstill : v.hasMoved = false := State.not_hasMoved_iff.2 (by simp [hvalpha])
  have htstill : t.hasMoved = false := by
    rw [State.not_hasMoved_iff, htalpha, hwalpha]
    simp
  have hvset : v.workingSet.activeIndices = [] := by
    rw [hvagrees.workingSet_eq]
    rfl
  have htset : t.workingSet.activeIndices = [0] := by
    rw [← hwt.workingSet_eq, hwagrees.workingSet_eq]
    rfl
  have hstart : (atBound 3).workingSet.activeIndices = [0] := rfl
  have hrun : (((nearestSolver settings 5 3).method .exact .firstActive).runFrom
      (997 + 1 + 1 + 1) [] (atBound 3)).ending = .cycled t := by
    rw [Method.runFrom_of_iterate rfl (fun _ => List.not_mem_nil) hv,
      Method.runFrom_of_iterate hvconverged ?_ ht,
      Method.runFrom_of_seen (htconverged.trans hwconverged) rfl]
    · simp [Method.remembered, hvstill, htstill, htset, hstart]
    · simp [Method.remembered, hvstill, hvset, hstart]
  have hinitial := initialState_atBound feasibilityTolerance_pos 5 3
  have hcycled := (Solver.optimize_eq_cycled hinitial).2 hrun
  have hassemble : Solver.assemble settings .quadratic [pull 5] [] [atMost 1 3 0] =
    .ok (nearestSolver settings 5 3) := ofProblem_nearest settings 5 3
  exact ⟨t, hcycled, (Solver.cycling_detection hassemble .exact (startAtBound 3)).2 .firstActive t
    hcycled⟩

end OneVariable

end ActiveSet
