import Mathlib.Data.List.Chain
import ActiveSet.Proofs.OneVariable

/-!
# Transitions

The phase that an iteration reports tells what it has changed: one flag of the working set, or the
point, or neither. Along a run the flags that were set and unset add up, and the ways in which a run
ends differ by the number of iterations that they come after.
-/

namespace ActiveSet

namespace State

variable {K : Type}

/-- How many of the states came out of an iteration that made an inequality active. -/
def activations (states : List (State K)) : Nat := states.countP (·.phase matches .activated _)

def deactivations (states : List (State K)) : Nat :=
  states.countP (·.phase matches .deactivated _ _)

theorem activations_append (l r : List (State K)) :
    activations (l ++ r) = activations l + activations r := List.countP_append

theorem deactivations_append (l r : List (State K)) :
    deactivations (l ++ r) = deactivations l + deactivations r := List.countP_append

end State

namespace Method

/-! ## One iteration -/

section Iterations

variable {K : Type} [Scalar K] {m : Method K} {s t : State K} {p : Point K}

/-- What has changed from `s` to `t`, told by the phase that `t` reports. -/
def Explains (m : Method K) (s t : State K) : Prop :=
  match t.phase with
  | .start => False
  | .activated ix => ix ∈ s.workingSet.inactiveIndices ∧
      (∀ i, i ∈ t.workingSet.activeIndices ↔ i = ix ∨ i ∈ s.workingSet.activeIndices) ∧
      ∃ a, t.alpha = some a ∧ 0 ≤ a
  | .deactivated ix _ => ix ∈ s.workingSet.activeIndices ∧
      (∀ i, i ∈ t.workingSet.activeIndices ↔ i ≠ ix ∧ i ∈ s.workingSet.activeIndices) ∧
      t.values = s.values ∧ t.alpha = none
  | .moved => t.workingSet = s.workingSet ∧ ∃ c, m.cap = .at c ∧ t.alpha = some c
  | .converged => t.workingSet = s.workingSet ∧ t.values = s.values ∧ t.alpha = none

/-- One more iteration from the state converges again and finds nothing new. -/
def Settled (m : Method K) (s : State K) : Prop :=
  ∃ t, m.iterate s = .ok t ∧ t.hasConverged = true ∧ t.values = s.values ∧ t.duals = s.duals ∧
    t.workingSet = s.workingSet

theorem Step.explains (hK : Scalar.StepLaws K) (h : Step m s p t)
    (hcap : ∀ c, m.cap = .at c → 0 ≤ c) : m.Explains s t := by
  cases h with
  | converge => exact ⟨rfl, rfl, rfl⟩
  | move _ _ cap => exact ⟨rfl, _, cap, congrArg some (hK.larger_eq_left (hcap _ cap))⟩
  | drop _ _ _ was _ active =>
      refine ⟨List.mem_map_of_mem was, fun i => ?_, rfl, rfl⟩
      rw [WorkingSet.mem_activeIndices_of_set was active]
      split <;> simp [*]
  | block _ blocked _ was _ active =>
      have hnumber := WorkingSet.isNaN_of_blocking hK blocked
      refine ⟨List.mem_map_of_mem was, fun i => ?_, _, rfl, hK.le_larger_right hnumber hK.zero⟩
      rw [WorkingSet.mem_activeIndices_of_set was active]
      split <;> simp [*]

theorem Step.length_activeIndices (h : Step m s p t) :
    t.workingSet.activeIndices.length + State.deactivations [t] =
      s.workingSet.activeIndices.length + State.activations [t] := by
  simp only [WorkingSet.activeIndices, List.length_map]
  cases h with
  | converge | move => rfl
  | drop _ _ _ was factors active =>
      exact (WorkingSet.perm_flagged_unset was factors active).length_eq.symm
  | block _ _ _ was factors active =>
      exact (WorkingSet.perm_flagged_set was factors active).length_eq

theorem settled_of_iterate (h : m.iterate s = .ok t) (ht : t.hasConverged = true) :
    m.Settled t := by
  obtain ⟨p, hp, hstep⟩ := step_of_iterate h
  cases hstep with
  | drop | block | move => cases ht
  | @converge duals small solved stay =>
      have hagain := iterate_converge (m := m)
        (s := { s with duals, iterations := s.iterations + 1, phase := .converged, alpha := none })
        hp small solved stay
      exact ⟨_, hagain, rfl, rfl, rfl, rfl⟩

end Iterations

/-! ## Runs -/

section Runs

variable {K : Type} [Scalar K] {m : Method K} {budget : Nat} {seen : List (List Nat)}
  {u last : State K}

theorem isChain_runFrom :
    (u :: (m.runFrom budget seen u).states).IsChain fun s t => m.iterate s = .ok t := by
  fun_induction m.runFrom budget seen u
  case case5 ht _ ih => exact List.isChain_cons_cons.2 ⟨ht, ih⟩
  all_goals exact List.isChain_singleton _

/-- Iterations after `u` have added the activations to its active inequalities. -/
theorem length_activeIndices_of_isChain {states : List (State K)}
    (h : (u :: states).IsChain fun s t => m.iterate s = .ok t) {past rest : List (State K)}
    {t : State K} (hsplit : states = past ++ t :: rest) :
    t.workingSet.activeIndices.length + State.deactivations (past ++ [t]) =
      u.workingSet.activeIndices.length + State.activations (past ++ [t]) := by
  induction past generalizing u states with
  | nil =>
      subst hsplit
      obtain ⟨ht, _⟩ := List.isChain_cons_cons.1 h
      obtain ⟨p, _, hstep⟩ := step_of_iterate ht
      exact hstep.length_activeIndices
  | cons v past ih =>
      subst hsplit
      obtain ⟨hv, hrest⟩ := List.isChain_cons_cons.1 h
      obtain ⟨p, _, hstep⟩ := step_of_iterate hv
      have hfirst := hstep.length_activeIndices
      have hlater := ih hrest rfl
      rw [List.cons_append, ← List.singleton_append, State.activations_append,
        State.deactivations_append]
      omega

theorem length_runFrom_le : (m.runFrom budget seen u).states.length ≤ budget := by
  fun_induction m.runFrom budget seen u
  case case5 rest ih => exact Nat.succ_le_succ ih
  all_goals exact Nat.zero_le _

/-- A run that neither converges nor is given up ends before its last iteration. -/
theorem length_runFrom_lt {ending : Ending K} (h : (m.runFrom budget seen u).ending = ending)
    (hconverged : ∀ last, ending ≠ .converged last)
    (hexhausted : ∀ last, ending ≠ .exhausted last) :
    (m.runFrom budget seen u).states.length < budget := by
  subst h
  fun_induction m.runFrom budget seen u
  case case1 s _ => exact absurd rfl (hconverged s)
  case case2 s _ => exact absurd rfl (hexhausted s)
  case case3 => exact Nat.succ_pos _
  case case4 => exact Nat.succ_pos _
  case case5 ih => exact Nat.succ_lt_succ (ih hconverged hexhausted)

theorem iterations_of_last? (h : (m.runFrom budget seen u).ending.last? = some last) :
    last.iterations = u.iterations + (m.runFrom budget seen u).states.length := by
  fun_induction m.runFrom budget seen u
  case case4 => cases h
  case case5 ht rest ih =>
    obtain ⟨p, _, hstep⟩ := step_of_iterate ht
    have hrest : last.iterations = _ + rest.states.length := ih h
    rw [hrest, hstep.iterations_eq, List.length_cons]
    omega
  all_goals
    cases h
    rfl

/-- What every run from a new state obeys. -/
structure Lawful (m : Method K) (u : State K) (r : Run K) : Prop where
  steps : (u :: r.states).IsChain fun s t =>
    m.iterate s = .ok t ∧ t.iterations = s.iterations + 1 ∧ m.Explains s t
  balance : ∀ past t rest, r.states = past ++ t :: rest →
    t.workingSet.activeIndices.length + State.deactivations (past ++ [t]) =
      u.workingSet.activeIndices.length + State.activations (past ++ [t])
  length_le : r.states.length ≤ m.settings.maxIterations
  converged : ∀ last, r.ending = .converged last →
    1 ≤ last.iterations ∧ last.iterations ≤ m.settings.maxIterations ∧ m.Settled last
  exhausted : ∀ last, r.ending = .exhausted last → last.iterations = m.settings.maxIterations
  cycled : ∀ last, r.ending = .cycled last → last.iterations < m.settings.maxIterations
  failed : ∀ fault, r.ending = .failed fault → r.states.length < m.settings.maxIterations

theorem lawful_run (hK : Scalar.StepLaws K) (hcap : ∀ c, m.cap = .at c → 0 ≤ c)
    (hu : u.iterations = 0) (hfresh : u.hasConverged = false) : m.Lawful u (m.run u) := by
  have hlength : (m.run u).states.length ≤ m.settings.maxIterations := length_runFrom_le
  have hcount : ∀ last, (m.run u).ending.last? = some last →
      last.iterations = (m.run u).states.length := by
    intro last h
    rw [iterations_of_last? h, hu, Nat.zero_add]
    rfl
  refine ⟨?_, fun past t rest => length_activeIndices_of_isChain isChain_runFrom, hlength,
    fun last h => ?_, fun last h => ?_, fun last h => ?_, fun fault h => ?_⟩
  · -- Each link of the chain is an iteration, and the step of it says what has changed.
    refine isChain_runFrom.imp fun s t ht => ?_
    obtain ⟨p, _, hstep⟩ := step_of_iterate ht
    exact ⟨ht, hstep.iterations_eq, hstep.explains hK hcap⟩
  · have hlast := hcount last (by rw [h]; rfl)
    obtain ⟨hconverged, rfl | ⟨v, _, hv⟩⟩ := runFrom_converged h
    · rw [hfresh] at hconverged
      cases hconverged
    · obtain ⟨p, _, hstep⟩ := step_of_iterate hv
      exact ⟨hstep.iterations_eq ▸ Nat.succ_pos _, hlast ▸ hlength,
        settled_of_iterate hv hconverged⟩
  · rw [hcount last (by rw [h]; rfl)]
    exact runFrom_exhausted h
  · rw [hcount last (by rw [h]; rfl)]
    exact length_runFrom_lt h nofun nofun
  · exact length_runFrom_lt h nofun nofun

end Runs

end Method

/-! ## Solves -/

namespace Solver

/--
Every iteration of every method counts itself and does one thing, which its phase tells; a state
that has converged stays so. Every run of a solver obeys this, and ends at its cap on iterations only
if it is given up, and before it if it is in a cycle.
-/
theorem transitions {K : Type} [Scalar K] (hK : Scalar.StepLaws K) :
    (∀ m : Method K, (∀ c, m.cap = .at c → 0 ≤ c) →
      (∀ s t, m.iterate s = .ok t → t.iterations = s.iterations + 1 ∧ m.Explains s t ∧
        (t.hasConverged = true → m.Settled t)) ∧
      ∀ u, u.iterations = 0 → u.hasConverged = false → m.Lawful u (m.run u)) ∧
    ∀ (s : Solver K) (kernels : Kernels K) (leaving : LeavingRule K) (start : Start K)
      (u : State K), s.initialState kernels start = .ok u →
      (s.method kernels leaving).Lawful u ((s.method kernels leaving).run u) ∧
      (∀ solution, s.optimize kernels leaving start = .ok solution →
        1 ≤ solution.last.iterations ∧ solution.last.iterations ≤ s.settings.maxIterations ∧
          (s.method kernels leaving).Settled solution.last) ∧
      (∀ last, s.optimize kernels leaving start = .error (.exhausted last) →
        last.iterations = s.settings.maxIterations) ∧
      ∀ last, s.optimize kernels leaving start = .error (.cycled last) →
        last.iterations < s.settings.maxIterations := by
  constructor
  · refine fun m hcap => ⟨fun s t ht => ?_, fun u hu hfresh => Method.lawful_run hK hcap hu hfresh⟩
    obtain ⟨p, _, hstep⟩ := Method.step_of_iterate ht
    exact ⟨hstep.iterations_eq, hstep.explains hK hcap, Method.settled_of_iterate ht⟩
  · intro s kernels leaving start u hu
    have hcap : ∀ c, s.cap = .at c → 0 ≤ c := by
      intro c hc
      unfold cap at hc
      split at hc <;> cases hc
      exact hK.zero_le_one
    obtain ⟨found, w, _, _, rfl⟩ := exists_of_initialState hu
    have hlawful := Method.lawful_run (m := s.method kernels leaving) hK hcap
      (u := .initial found.point w) rfl rfl
    refine ⟨hlawful, fun solution h => ?_, fun last h => ?_, fun last h => ?_⟩
    · exact hlawful.converged _ (optimize_eq_ok hu h).1
    · exact hlawful.exhausted _ ((optimize_eq_exhausted hu).1 h)
    · exact hlawful.cycled _ ((optimize_eq_cycled hu).1 h)

end Solver

namespace OneVariable

/-- A step up to the bound, the run that goes on to converge there, and what both obey. -/
theorem transitions_nearest : Scalar.StepLaws ℝ ∧ Scalar.StepLaws Float ∧ ∃ t v objective,
    ((nearestSolver settings 5 3).method .exact .largestMultiplier).iterate (below 3 0) = .ok t ∧
      t.iterations = 1 ∧
      ((nearestSolver settings 5 3).method .exact .largestMultiplier).Explains (below 3 0) t ∧
      ((nearestSolver settings 5 3).method .exact .largestMultiplier).Lawful (below 3 0)
        (((nearestSolver settings 5 3).method .exact .largestMultiplier).run (below 3 0)) ∧
    (nearestSolver settings 5 3).optimize .exact .largestMultiplier (startBelow 3 0) =
      .ok ⟨objective, v⟩ ∧ 1 ≤ v.iterations ∧ v.iterations ≤ 1000 := by
  have hcap : ∀ c, ((nearestSolver settings 5 3).method .exact .largestMultiplier).cap = .at c →
      0 ≤ c := by
    intro c hc
    cases hc
    exact zero_le_one
  obtain ⟨t, ht, _⟩ := iterate_below settings 5 3 .largestMultiplier (x := 0)
    (by norm_num) (by norm_num) (tolerance_lt_one.trans (by norm_num))
  obtain ⟨_, v, objective, _, _, _, _, hoptimize⟩ := optimize_below_zero
  obtain ⟨hmethods, hsolvers⟩ := Solver.transitions Scalar.stepLaws_real
  obtain ⟨hiterate, hrun⟩ := hmethods _ hcap
  obtain ⟨hcount, hexplains, _⟩ := hiterate _ _ ht
  obtain ⟨_, hsolved, _⟩ := hsolvers (nearestSolver settings 5 3) .exact .largestMultiplier
    (startBelow 3 0) _ (initialState_below feasibilityTolerance_pos 5 (by norm_num))
  obtain ⟨hpos, hle, _⟩ := hsolved _ hoptimize
  refine ⟨Scalar.stepLaws_real, Scalar.stepLaws_float, ?_⟩
  exact ⟨t, v, objective, ht, hcount, hexplains, hrun _ rfl rfl, hoptimize, hpos, hle⟩

end OneVariable

end ActiveSet
