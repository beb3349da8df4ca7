import ActiveSet.Proofs.KeyIndexes
import ActiveSet.Proofs.Solvers

/-!
# Multipliers

The dual graph has one equation for each key that an enforced constraint mentions. Read at a point it
pairs the products of the constraints with their multipliers, so a system of full rank leaves no
inconsistent constraint, and a solution writes the slope of the objective in terms of the constraints.
-/

namespace ActiveSet

/-! ## Terms of the dual equations -/

/-- The term of a constraint in the equation at `k`, if it mentions `k`. -/
def Equality.term {K : Type} [Scalar K] (k : Key) (c : Equality K) : Option (Key × Matrix K) :=
  (c.terms.lookup k).map fun A => (c.dual, A.transpose)

namespace Solver

section Terms

variable {K : Type} [Scalar K] {s : Solver K} {w : WorkingSet K}

/-- The terms of the enforced constraints in the equation at `k`. -/
def termsAt (s : Solver K) (w : WorkingSet K) (k : Key) : List (Key × Matrix K) :=
  (s.working w).filterMap (Equality.term k)

theorem equalityTerms_eq (hs : s.WellFormed) (k : Key) :
    s.equalityTerms k = .ok (s.equalities.filterMap (Equality.term k)) :=
  equalityTerms_scan hs.equalityIndex_eq k

private theorem term_toEquality (k : Key) (f : Inequality K) :
    f.toEquality.term k = f.dualBlock k := by
  have hlookup : f.toEquality.terms.lookup k = (f.terms.lookup k).map Matrix.ofRow :=
    Keyed.lookup_map ..
  rw [Equality.term, hlookup, Option.map_map]
  rfl

private theorem inequalityTerms_eq (hs : s.WellFormed) (hw : w.factors = s.inequalities) (k : Key) :
    s.inequalityTerms w k = .ok (w.asEqualities.filterMap (Equality.term k)) := by
  rw [inequalityTerms_scan hs.inequalityIndex_eq hw, activeBlocks_zip, WorkingSet.asEqualities,
    List.filterMap_map]
  exact congrArg _ (List.filterMap_congr fun e _ => (term_toEquality k e.1).symm)

theorem dualTerms_eq (hs : s.WellFormed) (hw : w.factors = s.inequalities) (k : Key) :
    s.dualTerms w k = .ok (s.termsAt w k) := by
  rw [dualTerms, equalityTerms_eq hs, ok_bind, inequalityTerms_eq hs hw, ok_bind, termsAt, working,
    List.filterMap_append]
  rfl

end Terms

/-! ## The gradient of the objective -/

variable {s : Solver ℝ} {w : WorkingSet ℝ}

/-- The part of the slope that comes from moving the vector at `k` along `v`. -/
noncomputable def slopeAt (s : Solver ℝ) (x : Point ℝ) (k : Key) (v : List ℝ) : ℝ :=
  match s.objective with
  | .quadratic => (s.cost.map fun f =>
      (f.terms.lookup k).elim 0 fun A => Vec.dot (A.mulVec v) (f.defect x)).sum
  | .linear vectors => (vectors.lookup k).elim 0 fun c => Vec.dot c v

@[simp] theorem slopeAt_nil (s : Solver ℝ) (x : Point ℝ) (k : Key) : s.slopeAt x k [] = 0 := by
  have hmul : ∀ A : Matrix ℝ, A.mulVec [] = Vec.zeros A.height := fun A => A.mulVec_zeros 0
  unfold slopeAt
  cases s.objective with
  | quadratic =>
      refine List.sum_eq_zero fun a ha => ?_
      obtain ⟨f, _, rfl⟩ := List.mem_map.1 ha
      cases f.terms.lookup k <;> simp [hmul]
  | linear vectors => cases hk : vectors.lookup k <;> simp [hk]

theorem slope_eq_sum (hs : s.WellFormed) (x z : Point ℝ) :
    s.slope x z = (s.dims.keys.map fun k => s.slopeAt x k (z.part k)).sum := by
  unfold slope slopeAt
  cases ho : s.objective with
  | quadratic =>
      dsimp only
      rw [sum_swap]
      congr 1
      refine List.map_congr_left fun f hf => ?_
      rw [f.dot_values, Keyed.sum_lookup f.terms s.dims.nodup_keys fun k hk => ?_]
      obtain ⟨A, hA⟩ := (Keyed.mem_keys_iff _).1 hk
      exact List.mem_map_of_mem (f := (·.1)) (hs.over_cost f hf _ ((Keyed.lookup_iff _).1 hA))
  | linear vectors =>
      exact (Keyed.sum_lookup vectors s.dims.nodup_keys (hs.proximal vectors ho).2 fun k c =>
        Vec.dot c (z.part k)).symm

private theorem foldlM_gradient {x : Point ℝ} {k : Key} {d : Nat} {l : List (Factor ℝ × Nat)}
    (hl : ∀ e ∈ l, s.cost[e.2]? = some e.1)
    (hd : ∀ e ∈ l, ∀ A, e.1.terms.lookup k = some A → A.cols = d) {acc g : List ℝ}
    (hacc : acc.length = d)
    (h : ((l.filter fun e => k ∈ e.1.keys).map (·.2)).foldlM (fun sum (ix : Nat) => do
      return Vec.add sum (← (← Position.entry s.cost ix).gradient k x)) acc = .ok g) :
    g.length = d ∧ ∀ v, Vec.dot v g = Vec.dot v acc + (l.map fun e =>
      (e.1.terms.lookup k).elim 0 fun A => Vec.dot (A.mulVec v) (e.1.defect x)).sum := by
  induction l generalizing acc with
  | nil =>
      obtain rfl := pure_eq_ok.1 h
      exact ⟨hacc, by simp⟩
  | cons e l ih =>
      have hl' := fun g hg => hl g (.tail _ hg)
      have hd' := fun g hg => hd g (.tail _ hg)
      by_cases hk : k ∈ e.1.keys
      · obtain ⟨A, hA⟩ := (Keyed.mem_keys_iff _).1 hk
        rw [List.filter_cons_of_pos (by simpa using hk), List.map_cons, List.foldlM_cons,
          WorkingSet.entry_natCast (hl e (.head _))] at h
        simp only [ok_bind, Factor.gradient, Factor.block, (Keyed.get_eq_ok_iff _).2 hA, bind_eq_ok,
          pure_eq_ok, Factor.residual_eq_ok] at h
        obtain ⟨_, ⟨_, ⟨_, ⟨_, rfl⟩, rfl⟩, rfl⟩, h⟩ := h
        have hcols := hd e (.head _) A hA
        obtain ⟨hlen, hdot⟩ := ih hl' hd' (by simp [hacc, hcols]) h
        refine ⟨hlen, fun v => ?_⟩
        rw [hdot, Vec.dot_add_right (by simp [hacc, hcols]), Vec.dot_comm v (Matrix.mulVec _ _),
          Matrix.dot_mulVec_transpose, List.map_cons, List.sum_cons, hA, Option.elim_some,
          Vec.dot_comm (A.mulVec v)]
        ring
      · rw [List.filter_cons_of_neg (by simpa using hk)] at h
        obtain ⟨hlen, hdot⟩ := ih hl' hd' hacc h
        refine ⟨hlen, fun v => ?_⟩
        rw [hdot, List.map_cons, List.sum_cons, (Keyed.lookup_eq_none_iff _).2 hk]
        simp

/-- The gradient at a key pairs with vectors to the part of the slope there. -/
theorem costGradient_eq_ok (hs : s.WellFormed) {x : Point ℝ} {k : Key} {g : List ℝ}
    (h : s.costGradient k x = .ok g) :
    s.dims.lookup k = some g.length ∧ ∀ v, Vec.dot v g = s.slopeAt x k v := by
  simp only [costGradient, bind_eq_ok, Keyed.get_eq_ok_iff] at h
  obtain ⟨d, hd, h⟩ := h
  have hlookup : ∀ n, (k, n) ∈ s.dims.entries → n = d := fun n hn =>
    Option.some.inj ((Keyed.lookup_of_mem hn).symm.trans hd)
  cases ho : s.objective with
  | quadratic =>
      rw [ho] at h
      simp only [hs.costIndex_eq] at h
      rw [KeyIndex.get_ofKeys fun f _ => Keyed.nodup_keys f.terms] at h
      obtain ⟨hlen, hdot⟩ := foldlM_gradient (fun e he => List.mem_zipIdx_iff_getElem?.1 he)
        (fun e he A hA => hlookup _ (hs.over_cost e.1 (List.fst_mem_of_mem_zipIdx he) _
          ((Keyed.lookup_iff _).1 hA))) (Vec.length_zeros d) h
      refine ⟨hlen ▸ hd, fun v => ?_⟩
      rw [hdot, Vec.dot_zeros_right, zero_add, slopeAt, ho]
      have hfst := List.zipIdx_map_fst 0 s.cost
      conv_rhs => rw [← hfst]
      rw [List.map_map]
      rfl
  | linear vectors =>
      rw [ho] at h
      obtain rfl := pure_eq_ok.1 h
      simp only [slopeAt, ho]
      cases hc : vectors.lookup k with
      | none =>
          refine ⟨by simpa using hd, fun v => ?_⟩
          simp
      | some c =>
          exact ⟨hs.length_vector ho hc, fun v => Vec.dot_comm v c⟩

/-- The gradient fails only where a cost factor cannot be read. -/
theorem residual_of_costGradient_error (hs : s.WellFormed) {x : Point ℝ} {k : Key}
    (hk : k ∈ s.dims.keys) {e : Fault ℝ} (h : s.costGradient k x = .error e) :
    ∃ f ∈ s.cost, f.residual x = .error e := by
  obtain ⟨d, hd⟩ := (Keyed.mem_keys_iff _).1 hk
  rw [costGradient, (Keyed.get_eq_ok_iff _).2 hd, ok_bind] at h
  cases ho : s.objective with
  | linear vectors =>
      rw [ho] at h
      cases h
  | quadratic =>
      rw [ho] at h
      simp only [hs.costIndex_eq] at h
      rw [KeyIndex.get_ofKeys fun f _ => Keyed.nodup_keys f.terms] at h
      obtain ⟨ix, hix, acc, h⟩ := foldlM_eq_error h
      obtain ⟨⟨f, i⟩, hf, rfl⟩ := List.mem_map.1 hix
      obtain ⟨hf, hkf⟩ := List.mem_filter.1 hf
      obtain ⟨A, _, hA⟩ := Factor.block_of_mem_keys (of_decide_eq_true hkf)
      rw [WorkingSet.entry_natCast (List.mem_zipIdx_iff_getElem?.1 hf), ok_bind, Factor.gradient, hA,
        ok_bind] at h
      simp only [bind_eq_error, pure_ne_error, and_false, exists_false, or_false] at h
      exact ⟨f, List.fst_mem_of_mem_zipIdx hf, h⟩

theorem costGradient_eq_error (hs : s.WellFormed) {x : Point ℝ} {k : Key} (hk : k ∈ s.dims.keys)
    {e : Fault ℝ} (h : s.costGradient k x = .error e) : ∃ c, e = .dimension c := by
  obtain ⟨f, _, h⟩ := residual_of_costGradient_error hs hk h
  exact Factor.residual_eq_error h

/-! ## The dual graph -/

section DualGraph

variable {K : Type} [Scalar K] {s : Solver K} {w : WorkingSet K}

/-- The constrained keys that an enforced constraint mentions. -/
def touched (s : Solver K) (w : WorkingSet K) : List Key :=
  s.constrainedKeys.filter fun k => !(s.termsAt w k).isEmpty

theorem nodup_touched (hs : s.WellFormed) (w : WorkingSet K) : (s.touched w).Nodup := by
  rw [touched, hs.constrainedKeys_eq]
  exact (nodup_firstAppearances _).filter _

theorem mem_termsAt {k : Key} {t : Key × Matrix K} : t ∈ s.termsAt w k ↔
    ∃ c ∈ s.working w, ∃ A, c.terms.lookup k = some A ∧ t = (c.dual, A.transpose) := by
  simp only [termsAt, List.mem_filterMap, Equality.term, Option.map_eq_some_iff]
  constructor
  · rintro ⟨c, hc, A, hA, rfl⟩
    exact ⟨c, hc, A, hA, rfl⟩
  · rintro ⟨c, hc, A, hA, rfl⟩
    exact ⟨c, hc, A, hA, rfl⟩

theorem mem_touched (hs : s.WellFormed) (hw : w.factors = s.inequalities) {k : Key} :
    k ∈ s.touched w ↔ ∃ c ∈ s.working w, k ∈ c.toFactor.keys := by
  have hterms : (!(s.termsAt w k).isEmpty) = true ↔ ∃ c ∈ s.working w, k ∈ c.toFactor.keys := by
    simp only [Bool.not_eq_true', List.isEmpty_eq_false_iff_exists_mem, mem_termsAt, Factor.keys,
      Keyed.mem_keys_iff]
    constructor
    · rintro ⟨_, c, hc, A, hA, rfl⟩
      exact ⟨c, hc, A, hA⟩
    · rintro ⟨c, hc, A, hA⟩
      exact ⟨_, c, hc, A, hA, rfl⟩
  rw [touched, List.mem_filter, hterms, and_iff_right_iff_imp]
  rintro ⟨c, hc, hk⟩
  rw [hs.constrainedKeys_eq, mem_firstAppearances, List.mem_append, List.mem_flatMap,
    List.mem_flatMap]
  rcases mem_working.1 hc with hc | ⟨e, he, rfl⟩
  · exact .inl ⟨c, hc, hk⟩
  · refine .inr ⟨e.1, hw ▸ WorkingSet.mem_factors_of_flagged he, ?_⟩
    rwa [Factor.keys, Inequality.toEquality, Keyed.keys_map] at hk

private theorem mem_keys_of_touched (hs : s.WellFormed) (hw : w.factors = s.inequalities) {k : Key}
    (hk : k ∈ s.touched w) : k ∈ s.dims.keys := by
  obtain ⟨c, hc, hk⟩ := (mem_touched hs hw).1 hk
  obtain ⟨e, he, rfl⟩ := List.mem_map.1 hk
  exact List.mem_map_of_mem (f := (·.1))
    (hs.over_working hw c.toFactor (List.mem_map_of_mem hc) e he)

theorem nodup_duals_working {K : Type} {s : Solver K} {w : WorkingSet K}
    (h : (s.equalities.map (·.dual) ++ s.inequalities.map (·.dual)).Nodup)
    (hw : w.factors = s.inequalities) : ((s.working w).map (·.dual)).Nodup := by
  refine h.sublist ?_
  rw [working, List.map_append]
  refine (List.Sublist.refl _).append ?_
  have hsub := (w.sublist_flagged true).map (·.dual)
  rw [List.map_map, hw] at hsub
  rw [WorkingSet.asEqualities, List.map_map]
  exact hsub

/-- Constraints with distinct multiplier keys have one term each at a key. -/
theorem nodup_terms {cs : List (Equality K)} (h : (cs.map (·.dual)).Nodup) (k : Key) :
    ((cs.filterMap (Equality.term k)).map (·.1)).Nodup := by
  refine h.sublist ?_
  clear h
  induction cs with
  | nil => exact .slnil
  | cons c l ih =>
      cases hterm : c.term k with
      | none =>
          rw [List.filterMap_cons_none hterm]
          exact ih.cons _
      | some t =>
          have ht : t.1 = c.dual := by
            obtain ⟨A, _, rfl⟩ := Option.map_eq_some_iff.1 hterm
            rfl
          rw [List.filterMap_cons_some hterm, List.map_cons, List.map_cons, ht]
          exact ih.cons_cons _

private theorem dualFactor_eq_ok (hs : s.WellFormed) (hw : w.factors = s.inequalities)
    (hn : ((s.working w).map (·.dual)).Nodup) {x : Point K} {k : Key} {F : Factor K}
    (h : s.dualFactor w x k = .ok F) : F.terms.entries = s.termsAt w k ∧
      (s.termsAt w k ≠ [] → s.costGradient k x = .ok F.b) := by
  rw [dualFactor, dualTerms_eq hs hw, ok_bind] at h
  split at h
  · rename_i hempty
    rw [List.isEmpty_iff] at hempty
    simp only [bind_eq_ok] at h
    obtain ⟨d, _, h⟩ := h
    obtain ⟨ht, _⟩ := Factor.make_eq_ok h
    rw [ht, hempty]
    exact ⟨rfl, fun hne => absurd rfl hne⟩
  · simp only [bind_eq_ok] at h
    obtain ⟨g, hg, h⟩ := h
    obtain ⟨ht, hb⟩ := Factor.make_eq_ok h
    rw [ht, hb]
    exact ⟨Keyed.entries_ofList (nodup_terms hn k), fun _ => hg⟩

/-- The dual graph has one factor for each touched key, with the gradient on the right. -/
theorem dualGraph_eq_ok (hs : s.WellFormed) (hw : w.factors = s.inequalities)
    (hn : ((s.working w).map (·.dual)).Nodup) {x : Point K} {g : Graph K}
    (h : s.dualGraph w x = .ok g) : ∃ Φ : Key → Factor K, g = (s.touched w).map Φ ∧
      ∀ k ∈ s.touched w, (Φ k).terms.entries = s.termsAt w k ∧
        s.costGradient k x = .ok (Φ k).b := by
  simp only [dualGraph, bind_eq_ok, pure_eq_ok, mapM_eq_ok] at h
  obtain ⟨fs, hfs, rfl⟩ := h
  have hkeys : s.constrainedKeys.Nodup := by
    rw [hs.constrainedKeys_eq]
    exact nodup_firstAppearances _
  have : Nonempty (Factor K) := ⟨⟨.empty, [], by simp [Keyed.empty]⟩⟩
  obtain ⟨Φ, rfl, hΦ⟩ := exists_fun_of_forall₂ hfs hkeys
  refine ⟨Φ, ?_, fun k hk => ?_⟩
  · rw [List.filter_map, touched]
    congr 1
    refine List.filter_congr fun k hk => ?_
    simp only [Function.comp_apply, Factor.isEmpty, (dualFactor_eq_ok hs hw hn (hΦ k hk)).1]
  · obtain ⟨hk, hne⟩ := List.mem_filter.1 hk
    obtain ⟨hterms, hgrad⟩ := dualFactor_eq_ok hs hw hn (hΦ k hk)
    exact ⟨hterms, hgrad (by simpa using hne)⟩

private theorem mentions_dual {Φ : Key → Factor K} (hs : s.WellFormed)
    (hw : w.factors = s.inequalities)
    (hΦ : ∀ k ∈ s.touched w, (Φ k).terms.entries = s.termsAt w k) {j : Key} :
    Graph.Mentions ((s.touched w).map Φ) j ↔
      ∃ c ∈ s.working w, c.terms.entries ≠ [] ∧ c.dual = j := by
  constructor
  · rintro ⟨f, hf, hj⟩
    obtain ⟨k, hk, rfl⟩ := List.mem_map.1 hf
    obtain ⟨t, ht, rfl⟩ := List.mem_map.1 hj
    rw [hΦ k hk, mem_termsAt] at ht
    obtain ⟨c, hc, A, hA, rfl⟩ := ht
    exact ⟨c, hc, List.ne_nil_of_mem ((Keyed.lookup_iff _).1 hA), rfl⟩
  · rintro ⟨c, hc, hne, rfl⟩
    obtain ⟨⟨k, A⟩, he⟩ := List.exists_mem_of_ne_nil _ hne
    have hk := (mem_touched hs hw).2 ⟨c, hc, List.mem_map_of_mem (f := (·.1)) he⟩
    refine ⟨Φ k, List.mem_map_of_mem hk, ?_⟩
    have ht : (c.dual, A.transpose) ∈ (Φ k).terms.entries := by
      rw [hΦ k hk, mem_termsAt]
      exact ⟨c, hc, A, Keyed.lookup_of_mem he, rfl⟩
    exact List.mem_map_of_mem (f := (·.1)) ht

theorem mem_order {K : Type} (g : Graph K) (j : Key) :
    j ∈ firstAppearances (g.keys ++ @Graph.keys K []) ↔ g.Mentions j := by
  rw [mem_firstAppearances, List.mem_append, Graph.mem_keys, Graph.mem_keys]
  simp [Graph.Mentions]

/-- Whatever the kernel answers, only enforced constraints that mention a key get a multiplier. -/
theorem mem_working_of_multipliers (hs : s.WellFormed) (hw : w.factors = s.inequalities)
    (hn : ((s.working w).map (·.dual)).Nodup) {kernels : Kernels K} {x duals : Point K}
    (h : s.multipliers kernels w x = .ok duals) {j : Key} (hj : j ∈ duals.keys) :
    ∃ c ∈ s.working w, c.terms.entries ≠ [] ∧ c.dual = j := by
  simp only [multipliers, bind_eq_ok] at h
  obtain ⟨g, hg, h⟩ := h
  obtain ⟨Φ, rfl, hΦ⟩ := dualGraph_eq_ok hs hw hn hg
  have hmentions := (mem_order _ _).1 (Graph.mem_ordering_of_minimize h hj)
  exact (mentions_dual hs hw fun k hk => (hΦ k hk).1).1 hmentions

theorem active_of_multipliers (hs : s.WellFormed)
    (hd : (s.equalities.map (·.dual) ++ s.inequalities.map (·.dual)).Nodup)
    (hw : w.factors = s.inequalities) {kernels : Kernels K} {x duals : Point K}
    (h : s.multipliers kernels w x = .ok duals) {b : Bool} {e : Inequality K × Nat}
    (he : e ∈ w.flagged b) (hk : e.1.dual ∈ duals.keys) : b = true := by
  obtain ⟨c, hc, _, hdual⟩ := mem_working_of_multipliers hs hw (nodup_duals_working hd hw) h hk
  obtain ⟨_, hn, hdisjoint⟩ := List.nodup_append.1 hd
  rcases mem_working.1 hc with hc | ⟨f, hf, rfl⟩
  · refine absurd hdual (hdisjoint _ (List.mem_map_of_mem hc) _ ?_)
    exact List.mem_map_of_mem (hw ▸ WorkingSet.mem_factors_of_flagged he)
  · exact WorkingSet.flag_unique (hw ▸ hn) he hf hdual.symm

end DualGraph

/-! ## Pairing -/

theorem dot_values_terms {k : Key} {F : Factor ℝ} (hF : F.terms.entries = s.termsAt w k)
    (ν : Point ℝ) (v : List ℝ) : Vec.dot (F.values ν) v = ((s.working w).map fun c =>
      (c.terms.lookup k).elim 0 fun A => Vec.dot (A.mulVec v) (ν.part c.dual)).sum := by
  rw [F.dot_values, hF, termsAt]
  induction s.working w with
  | nil => rfl
  | cons c l ih =>
      rw [List.map_cons, List.sum_cons, ← ih, List.filterMap_cons, Equality.term]
      cases c.terms.lookup k with
      | none => simp
      | some A =>
          rw [Option.map_some, List.map_cons, List.sum_cons, Matrix.dot_mulVec_transpose,
            Vec.dot_comm, Option.elim_some]

/-- The dual equations at a point pair with multipliers as the constraints there do. -/
theorem sum_dot_dual (hs : s.WellFormed) (hw : w.factors = s.inequalities) {Φ : Key → Factor ℝ}
    (hΦ : ∀ k ∈ s.touched w, (Φ k).terms.entries = s.termsAt w k) (z ν : Point ℝ) :
    ((s.touched w).map fun k => Vec.dot ((Φ k).values ν) (z.part k)).sum =
      ((s.working w).map fun c => Vec.dot (c.toFactor.values z) (ν.part c.dual)).sum := by
  rw [List.map_congr_left fun k hk => dot_values_terms (hΦ k hk) ν (z.part k), sum_swap]
  congr 1
  refine List.map_congr_left fun c hc => ?_
  rw [c.toFactor.dot_values, Keyed.sum_lookup c.terms (nodup_touched hs w) fun k hk => ?_]
  exact (mem_touched hs hw).2 ⟨c, hc, hk⟩

/-- The slope comes from the touched keys alone if it vanishes wherever the constraints do. -/
theorem slope_eq_sum_touched (hs : s.WellFormed) (hw : w.factors = s.inequalities) {x : Point ℝ}
    (hfree : ∀ z, s.Free w z → s.slope x z = 0) (z : Point ℝ) :
    s.slope x z = ((s.touched w).map fun k => s.slopeAt x k (z.part k)).sum := by
  have hn := s.dims.nodup_keys
  -- The part of `z` at the other keys leaves every enforced constraint alone.
  let rest := Point.tabulate (s.dims.keys.filter (· ∉ s.touched w)) z.part
  have hpart : ∀ k, rest.part k = if k ∈ s.dims.keys ∧ k ∉ s.touched w then z.part k else [] := by
    intro k
    rw [Point.part_tabulate (hn.filter _)]
    simp only [List.mem_filter, decide_eq_true_eq]
  have hrest : s.Free w rest := by
    intro c hc
    refine c.toFactor.values_eq_zeros fun e he => ?_
    have hk := (mem_touched hs hw).2 ⟨c, hc, List.mem_map_of_mem (f := (·.1)) he⟩
    rw [hpart, if_neg fun h => h.2 hk]
    rfl
  have hsum := hfree rest hrest
  rw [slope_eq_sum hs] at hsum ⊢
  have hinter : s.dims.keys.toFinset ∩ (s.touched w).toFinset = (s.touched w).toFinset :=
    Finset.inter_eq_right.2 fun k hk =>
      List.mem_toFinset.2 (mem_keys_of_touched hs hw (List.mem_toFinset.1 hk))
  have hsplit : ∀ k ∈ s.dims.keys.toFinset, s.slopeAt x k (z.part k) =
      (if k ∈ (s.touched w).toFinset then s.slopeAt x k (z.part k) else 0) +
        s.slopeAt x k (rest.part k) := by
    intro k hk
    rw [hpart]
    by_cases hkt : k ∈ s.touched w
    · simp [hkt, slopeAt_nil]
    · simp [hkt, List.mem_toFinset.1 hk]
  rw [← List.sum_toFinset _ hn] at hsum ⊢
  rw [Finset.sum_congr rfl hsplit, Finset.sum_add_distrib, hsum, add_zero, Finset.sum_ite_mem,
    hinter, List.sum_toFinset _ (nodup_touched hs w)]

/-! ## Solving the dual graph -/

noncomputable def dualRows (s : Solver ℝ) (w : WorkingSet ℝ) (k : Key) : Nat :=
  ((s.working w).find? (·.dual = k)).elim 0 (·.toFactor.rows)

private theorem dualRows_eq (hn : ((s.working w).map (·.dual)).Nodup) {c : Equality ℝ}
    (hc : c ∈ s.working w) : s.dualRows w c.dual = c.toFactor.rows := by
  unfold dualRows
  cases h : (s.working w).find? (·.dual = c.dual) with
  | none =>
      have := List.find?_eq_none.1 h c hc
      simp at this
  | some c' =>
      have hdual : c'.dual = c.dual := by simpa using List.find?_some h
      rw [List.inj_on_of_nodup_map hn (List.mem_of_find?_eq_some h) hc hdual]
      rfl

/-- No combination of the enforced constraints that mention a key vanishes but the trivial one. -/
def Independent (s : Solver ℝ) (w : WorkingSet ℝ) : Prop :=
  ∀ ν : Point ℝ,
    (∀ z, ((s.working w).map fun c => Vec.dot (c.toFactor.values z) (ν.part c.dual)).sum = 0) →
    ∀ c ∈ s.working w, c.terms.entries ≠ [] →
      Vec.fit c.toFactor.rows (ν.part c.dual) = Vec.zeros c.toFactor.rows

section Dual

variable {x : Point ℝ} {Φ : Key → Factor ℝ}

private theorem consistent_dual (hn : ((s.working w).map (·.dual)).Nodup)
    (hΦ : ∀ k ∈ s.touched w, (Φ k).terms.entries = s.termsAt w k) {ks : List Key} (hks : ks.Nodup)
    (hmem : ∀ j, j ∈ ks ↔ Graph.Mentions ((s.touched w).map Φ) j) :
    Graph.Consistent ((s.touched w).map Φ) [] .empty ks (s.dualRows w) where
  nodup := hks
  cost_agrees := by
    intro f hf e he
    obtain ⟨k, hk, rfl⟩ := List.mem_map.1 hf
    rw [hΦ k hk, mem_termsAt] at he
    obtain ⟨c, hc, A, hA, rfl⟩ := he
    rw [dualRows_eq hn hc]
    exact c.rows_eq (k, A) ((Keyed.lookup_iff _).1 hA)
  constraints_agree := fun _ hf => nomatch hf
  known_within := fun _ _ h => nomatch h
  covers := fun j hj => (hmem j).2 (hj.resolve_right fun ⟨_, hf, _⟩ => nomatch hf)
  sized := fun j hj => .inr (.inl ((hmem j).1 hj))

/-- The dual graph has full rank exactly if the enforced constraints are independent. -/
private theorem fullRank_iff (hs : s.WellFormed) (hw : w.factors = s.inequalities)
    (hn : ((s.working w).map (·.dual)).Nodup)
    (hΦ : ∀ k ∈ s.touched w, (Φ k).terms.entries = s.termsAt w k) {ks : List Key}
    (hmem : ∀ j, j ∈ ks ↔ Graph.Mentions ((s.touched w).map Φ) j) :
    Graph.FullRank ((s.touched w).map Φ) (Graph.sizedBy ks (s.dualRows w)) ↔ s.Independent w := by
  have hflat : ∀ ν : Point ℝ, Point.flat (Graph.sizedBy ks (s.dualRows w)) ν =
      Vec.zeros (Point.totalDim (Graph.sizedBy ks (s.dualRows w))) ↔
      ∀ c ∈ s.working w, c.terms.entries ≠ [] →
        Vec.fit c.toFactor.rows (ν.part c.dual) = Vec.zeros c.toFactor.rows := by
    intro ν
    rw [Point.flat_eq_zeros_iff]
    simp only [Graph.sizedBy, List.forall_mem_map, hmem, mentions_dual hs hw hΦ]
    constructor
    · intro h c hc hne
      rw [← dualRows_eq hn hc]
      exact h _ ⟨c, hc, hne, rfl⟩
    · rintro h _ ⟨c, hc, hne, rfl⟩
      rw [dualRows_eq hn hc]
      exact h c hc hne
  have hvalues : ∀ ν : Point ℝ, Graph.values ((s.touched w).map Φ) ν =
      Vec.zeros (Graph.rhs ((s.touched w).map Φ)).length ↔ ∀ z,
        ((s.working w).map fun c => Vec.dot (c.toFactor.values z) (ν.part c.dual)).sum = 0 := by
    intro ν
    rw [Graph.values_eq_zeros_iff, List.forall_mem_map]
    constructor
    · intro h z
      rw [← sum_dot_dual hs hw hΦ]
      refine List.sum_eq_zero fun a ha => ?_
      obtain ⟨k, hk, rfl⟩ := List.mem_map.1 ha
      rw [h k hk, Vec.dot_zeros_left]
    · intro h k hk
      have hsum := h (Point.tabulate (s.touched w) fun k => (Φ k).values ν)
      rw [← sum_dot_dual hs hw hΦ, List.map_congr_left fun k hk => by
        rw [Point.part_tabulate (nodup_touched hs w), if_pos hk]] at hsum
      simpa using Vec.eq_zeros_of_sum_dot_self hsum k hk
  simp only [Graph.FullRank, hflat, hvalues, Independent]

/-- A least-squares solution of the dual equations solves them where the slope vanishes freely. -/
private theorem defect_dual (hs : s.WellFormed) (hw : w.factors = s.inequalities)
    (hn : ((s.working w).map (·.dual)).Nodup)
    (hΦ : ∀ k ∈ s.touched w, (Φ k).terms.entries = s.termsAt w k ∧
      s.costGradient k x = .ok (Φ k).b)
    (hfree : ∀ z, s.Free w z → s.slope x z = 0) {duals : Point ℝ}
    (hmin : ∀ ν, Vec.dot (Graph.values ((s.touched w).map Φ) ν)
      (Vec.sub (Graph.values ((s.touched w).map Φ) duals) (Graph.rhs ((s.touched w).map Φ))) = 0) :
    ∀ k ∈ s.touched w, (Φ k).defect duals = Vec.zeros (Φ k).rows := by
  have hterms := fun k hk => (hΦ k hk).1
  let r := Point.tabulate (s.touched w) fun k => (Φ k).defect duals
  have hpart : ∀ k ∈ s.touched w, r.part k = (Φ k).defect duals := fun k hk => by
    rw [Point.part_tabulate (nodup_touched hs w), if_pos hk]
  -- The residual, read as a direction, changes no constraint: it pairs to zero with all multipliers.
  have hpair : ∀ ν : Point ℝ,
      ((s.working w).map fun c => Vec.dot (c.toFactor.values r) (ν.part c.dual)).sum = 0 := by
    intro ν
    rw [← sum_dot_dual hs hw hterms, ← hmin ν, Graph.dot_values_sub, List.map_map]
    congr 1
    exact List.map_congr_left fun k hk => by rw [hpart k hk]; rfl
  have hslope := slope_eq_sum_touched hs hw hfree r
  rw [hfree r (free_of_sum_eq_zero hn hpair)] at hslope
  have hsum : ((s.touched w).map fun k =>
      Vec.dot ((Φ k).defect duals) ((Φ k).defect duals)).sum = 0 := by
    have hsplit : ∀ k ∈ s.touched w, Vec.dot ((Φ k).values duals) (r.part k) =
        Vec.dot ((Φ k).defect duals) ((Φ k).defect duals) + s.slopeAt x k (r.part k) := by
      intro k hk
      rw [← (costGradient_eq_ok hs (hΦ k hk).2).2, hpart k hk, Vec.dot_comm (Factor.values ..)]
      conv_rhs => rw [Factor.defect, Vec.dot_sub_right (by simp [Factor.rows])]
      rw [sub_add_cancel]
      rfl
    have hvals := sum_dot_dual hs hw hterms r duals
    rw [hpair duals, List.map_congr_left hsplit, List.sum_map_add, ← hslope, add_zero] at hvals
    exact hvals
  intro k hk
  simpa using Vec.eq_zeros_of_sum_dot_self hsum k hk

end Dual

/-- What multipliers that were found say about the enforced constraints. -/
structure Multiplies (s : Solver ℝ) (w : WorkingSet ℝ) (x duals : Point ℝ) : Prop where
  independent : s.Independent w
  /-- Where the slope vanishes along all free directions, it is the sum of the constraints' own. -/
  represents : (∀ z, s.Free w z → s.slope x z = 0) → ∀ z, s.slope x z =
    ((s.working w).map fun c => Vec.dot (c.toFactor.values z) (duals.part c.dual)).sum
  length_eq : ∀ c ∈ s.working w, c.terms.entries ≠ [] → 0 < c.toFactor.rows →
    ∃ v, duals.lookup c.dual = some v ∧ v.length = c.toFactor.rows

variable {kernels : Kernels ℝ} {x : Point ℝ}

theorem Multiplies.multiplier {duals : Point ℝ} (h : s.Multiplies w x duals) {c : Equality ℝ}
    (hc : c ∈ s.working w) (hterms : c.terms.entries ≠ []) (hrows : 0 < c.toFactor.rows) :
    Point.multiplier duals c.dual = .ok ((duals.part c.dual).headD 0) := by
  obtain ⟨v, hv, hlen⟩ := h.length_eq c hc hterms hrows
  obtain ⟨a, rest, rfl⟩ := List.exists_cons_of_length_pos (hlen ▸ hrows)
  rw [Point.part_of_lookup hv]
  exact LeavingRule.multiplier_eq_ok.2 ⟨rest, hv⟩

theorem multiplies_of_multipliers (hk : kernels.ExactLeastSquares) (hs : s.WellFormed)
    (hw : w.factors = s.inequalities) (hn : ((s.working w).map (·.dual)).Nodup) {duals : Point ℝ}
    (h : s.multipliers kernels w x = .ok duals) : s.Multiplies w x duals := by
  simp only [multipliers, bind_eq_ok] at h
  obtain ⟨g, hg, h⟩ := h
  obtain ⟨Φ, rfl, hΦ⟩ := dualGraph_eq_ok hs hw hn hg
  have hterms := fun k hk => (hΦ k hk).1
  have hmem := mem_order ((s.touched w).map Φ)
  have hcons := consistent_dual hn hterms (nodup_firstAppearances _) hmem
  have hfull := Graph.fullRank_of_minimize hk hcons rfl rfl h
  obtain ⟨hmin, hspans⟩ := Graph.minimiser_of_minimize hk hcons rfl rfl h
  refine ⟨(fullRank_iff hs hw hn hterms hmem).1 hfull, fun hfree z => ?_, fun c hc hne hpos => ?_⟩
  · have hdefect := defect_dual hs hw hn hΦ hfree fun ν => hmin.stationary ν rfl
    rw [slope_eq_sum_touched hs hw hfree, ← sum_dot_dual hs hw hterms]
    congr 1
    refine List.map_congr_left fun k hk => ?_
    have hzero := congrArg (Vec.dot (z.part k)) (hdefect k hk)
    rw [Factor.defect, Vec.dot_sub_right (by simp [Factor.rows]), Vec.dot_zeros_right] at hzero
    rw [← (costGradient_eq_ok hs (hΦ k hk).2).2, Vec.dot_comm (Factor.values ..)]
    linarith
  · have hsized : (c.dual, c.toFactor.rows) ∈ Graph.sizedBy
        (firstAppearances (Graph.keys ((s.touched w).map Φ) ++ @Graph.keys ℝ [])) (s.dualRows w) := by
      refine List.mem_map.2 ⟨c.dual, (hmem _).2 ?_, ?_⟩
      · exact (mentions_dual hs hw hterms).2 ⟨c, hc, hne, rfl⟩
      rw [dualRows_eq hn hc]
    obtain ⟨v, hv⟩ := Option.ne_none_iff_exists'.1
      (hspans.holds (hpos.trans_le (Point.le_totalDim hsized)).ne' _ hsized)
    obtain ⟨j, _, hj⟩ := List.mem_map.1 (hspans.length_mem _ _ hv)
    obtain ⟨rfl, hlen⟩ := Prod.mk.inj hj
    exact ⟨v, hv, by rw [← hlen, dualRows_eq hn hc]⟩

theorem mem_dims_of_constrained (hs : s.WellFormed) {k : Key} (hk : k ∈ s.constrainedKeys) :
    k ∈ s.dims.keys := by
  rw [hs.constrainedKeys_eq, mem_firstAppearances, List.mem_append, List.mem_flatMap,
    List.mem_flatMap] at hk
  rcases hk with ⟨c, hc, hk⟩ | ⟨f, hf, hk⟩
  · exact known_of_over hs.over_equalities ⟨_, List.mem_map_of_mem hc, hk⟩
  · refine known_of_over hs.over_inequalities ⟨_, List.mem_map_of_mem (List.mem_map_of_mem hf), ?_⟩
    rwa [Factor.keys, Inequality.toEquality, Keyed.keys_map]

theorem dualGraph_eq_error (hs : s.WellFormed) (hw : w.factors = s.inequalities)
    {e : Fault ℝ} (h : s.dualGraph w x = .error e) : ∃ c, e = .dimension c := by
  simp only [dualGraph, bind_eq_error, pure_ne_error, and_false, exists_false, or_false] at h
  obtain ⟨k, hk, h⟩ := mapM_eq_error h
  have hdims := mem_dims_of_constrained hs hk
  rw [dualFactor, dualTerms_eq hs hw, ok_bind] at h
  split at h
  · obtain ⟨d, hd⟩ := (Keyed.mem_keys_iff _).1 hdims
    rw [(Keyed.get_eq_ok_iff _).2 hd, ok_bind] at h
    exact Factor.make_eq_error h
  · rcases bind_eq_error.1 h with h | ⟨g, _, h⟩
    · exact costGradient_eq_error hs hdims h
    · exact Factor.make_eq_error h

theorem exists_multipliers (hk : kernels.ExactLeastSquares) (hs : s.WellFormed)
    (hw : w.factors = s.inequalities) (hn : ((s.working w).map (·.dual)).Nodup)
    (hind : s.Independent w) {g : Graph ℝ} (hg : s.dualGraph w x = .ok g) :
    ∃ duals, s.multipliers kernels w x = .ok duals ∧ s.Multiplies w x duals := by
  obtain ⟨Φ, rfl, hΦ⟩ := dualGraph_eq_ok hs hw hn hg
  have hterms := fun k hk => (hΦ k hk).1
  have hmem := mem_order ((s.touched w).map Φ)
  obtain ⟨duals, hduals⟩ : ∃ duals, s.multipliers kernels w x = .ok duals := by
    rw [multipliers, hg, ok_bind]
    exact Graph.minimize_of_fullRank hk (consistent_dual hn hterms (nodup_firstAppearances _) hmem)
      rfl rfl ((fullRank_iff hs hw hn hterms hmem).2 hind)
  exact ⟨duals, hduals, multiplies_of_multipliers hk hs hw hn hduals⟩

/-- Independent constraints have multipliers, unless a vector of the point has a wrong length. -/
theorem multipliers_eq_error (hk : kernels.ExactLeastSquares) (hs : s.WellFormed)
    (hw : w.factors = s.inequalities) (hn : ((s.working w).map (·.dual)).Nodup)
    (hind : s.Independent w) {e : Fault ℝ} (h : s.multipliers kernels w x = .error e) :
    ∃ c, e = .dimension c := by
  rcases bind_eq_error.1 h with hg | ⟨g, hg, _⟩
  · exact dualGraph_eq_error hs hw hg
  · obtain ⟨duals, hduals, _⟩ := exists_multipliers hk hs hw hn hind hg
    rw [h] at hduals
    cases hduals

end Solver

end ActiveSet
