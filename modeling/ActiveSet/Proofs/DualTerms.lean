import ActiveSet.Proofs.FlagSets
import ActiveSet.Proofs.KeyIndexes
import ActiveSet.Proofs.Shifts

/-!
# The terms of the dual equations

The indexes of a solver are made once and know nothing of flags. What they collect at a key is what a
scan of all equalities and of all inequalities with their flags finds, after any calls.
-/

namespace ActiveSet

variable {K : Type}

theorem AnyFactor.nodup_keys (f : AnyFactor K) : f.keys.Nodup := by
  cases f <;> exact Keyed.nodup_keys _

/-- The index of a graph lists the keys of the graph. -/
theorem MixedGraph.lists_ofKeys (g : MixedGraph K) :
    (KeyIndex.ofKeys (g.factors.map AnyFactor.keys)).Lists (g.factors.map AnyFactor.keys) ∧
      (KeyIndex.ofKeys (g.factors.map AnyFactor.keys)).positions.keys = g.keys := by
  refine ⟨KeyIndex.lists_ofKeys (List.forall_mem_map.2 fun f _ => f.nodup_keys), ?_⟩
  rw [KeyIndex.keys_ofKeys, keys, List.flatMap_def]

namespace Solver

variable [Scalar K]

/--
An index lists exactly the keys of its graph, each with the positions that mention it. Through the
indexes a solver collects at any key what a scan of its equalities and of its inequalities with their
flags collects, in the order of the scan and after any calls.
-/
theorem dualTerms_scan :
    (∀ g : MixedGraph K,
      (KeyIndex.ofKeys (g.factors.map AnyFactor.keys)).Lists (g.factors.map AnyFactor.keys) ∧
        (KeyIndex.ofKeys (g.factors.map AnyFactor.keys)).positions.keys = g.keys) ∧
    ∀ (settings : Settings K) (p : Problem K) (s : Solver K), ofProblem settings p = .ok s →
      (s.costIndex.Lists (s.cost.map (·.keys)) ∧
        s.equalityIndex.Lists (s.equalities.map (·.keys)) ∧
        s.inequalityIndex.Lists (s.inequalities.map (·.keys))) ∧
      ∀ w : WorkingSet K, w.factors = s.inequalities → ∀ (calls : List FlagCall) (k : Key),
        s.dualTerms (w.afterAll calls) k = .ok (s.equalities.filterMap (Equality.dualBlock k) ++
          activeBlocks k (s.inequalities.zip (w.afterAll calls).active)) := by
  refine ⟨fun g => g.lists_ofKeys, fun settings p s hs => ?_⟩
  have hcopies := copies_ofProblem hs
  refine ⟨⟨?_, ?_, ?_⟩, fun w hw calls k => ?_⟩
  · rw [hcopies.costIndex_eq]
    exact KeyIndex.lists_ofKeys (List.forall_mem_map.2 fun f _ => Keyed.nodup_keys f.terms)
  · rw [hcopies.equalityIndex_eq]
    exact KeyIndex.lists_ofKeys (List.forall_mem_map.2 fun f _ => Keyed.nodup_keys f.terms)
  · rw [hcopies.inequalityIndex_eq]
    exact KeyIndex.lists_ofKeys (List.forall_mem_map.2 fun f _ => Keyed.nodup_keys f.terms)
  · have hfactors : (w.afterAll calls).factors = s.inequalities :=
      (w.factors_afterAll calls).trans hw
    rw [dualTerms, equalityTerms_scan hcopies.equalityIndex_eq, ok_bind,
      inequalityTerms_scan hcopies.inequalityIndex_eq hfactors, ok_bind, hfactors]
    rfl

end Solver

namespace TwoVariables

/-- The gap as an equation, with inequalities on one and on both of its variables. -/
noncomputable def fenced : Problem ℝ :=
  .make (.quadratic [gap 0]) [{ gap 1 with dual := .number 0 }]
    [{ terms := Keyed.ofList [(right, [1])], bound := 1, dual := .number 1 },
      { terms := Keyed.ofList [(left, [-1]), (right, [3])], bound := 0, dual := .number 2 }]

theorem dualTerms_scan_fenced : ∃ s, Solver.ofProblem OneVariable.settings fenced = .ok s ∧
    s.inequalityIndex.get right = [0, 1] ∧
    (WorkingSet.inactive fenced.inequalities).factors = s.inequalities ∧
    s.dualTerms ((WorkingSet.inactive fenced.inequalities).afterAll
        [⟨0, true⟩, ⟨-1, true⟩, ⟨1, true⟩, ⟨-2, false⟩]) right =
      .ok [(.number 0, (Matrix.ofRow [-1]).transpose), (.number 2, (Matrix.ofRow [3]).transpose)] := by
  obtain ⟨s, hs⟩ : ∃ s, Solver.ofProblem OneVariable.settings fenced = .ok s := ⟨_, rfl⟩
  have hcopies := Solver.copies_ofProblem hs
  refine ⟨s, hs, ?_, hcopies.inequalities_eq.symm, ?_⟩
  · rw [hcopies.inequalityIndex_eq, hcopies.inequalities_eq]
    decide
  · rw [(Solver.dualTerms_scan.2 _ _ s hs).2 _ hcopies.inequalities_eq.symm, hcopies.equalities_eq,
      hcopies.inequalities_eq]
    rfl

end TwoVariables

end ActiveSet
