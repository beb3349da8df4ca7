import ActiveSet.Proofs.Rails
import ActiveSet.Proofs.Reordering
import ActiveSet.Proofs.Starts
import ActiveSet.Proofs.Stationarity

/-!
# The order of factors and equalities

A program whose cost factors and equalities come in another order makes a solver with other keys in
front, other rows and other columns. Directions and multipliers are the same points all the same, so
both solvers go through the same states and end alike.
-/

namespace ActiveSet

/-! ## Maps -/

namespace Keyed

variable {α : Type}

theorem Within.same {m n : Keyed Nat} {D : Key → Nat} (hm : m.Within D) (hn : n.Within D)
    (hkeys : ∀ k, k ∈ m.keys ↔ k ∈ n.keys) : m.Same n := by
  intro k
  cases hd : m.lookup k with
  | none => rw [(lookup_eq_none_iff n).2 fun hk => (lookup_eq_none_iff m).1 hd ((hkeys k).2 hk)]
  | some d =>
      obtain ⟨d', hd'⟩ := (mem_keys_iff n).1 ((hkeys k).1 ((mem_keys_iff m).2 ⟨d, hd⟩))
      rw [hd', hm k d hd, hn k d' hd']

private theorem same_foldl_insert {m n : Keyed α} (h : m.Same n) (l : List (Key × α)) :
    (l.foldl (fun m e => m.insert e.1 e.2) m).Same (l.foldl (fun m e => m.insert e.1 e.2) n) := by
  induction l generalizing m n with
  | nil => exact h
  | cons e l ih =>
      refine ih fun k => ?_
      rw [lookup_insert, lookup_insert, h k]

theorem same_ofList_append {l l' : List (Key × α)} (hn : (l.map (·.1)).Nodup) (h : l.Perm l')
    (r : List (Key × α)) : (ofList (l ++ r)).Same (ofList (l' ++ r)) := by
  have hfront : (ofList l).Same (ofList l') := by
    intro k
    refine Option.ext fun v => ?_
    rw [lookup_ofList hn, lookup_ofList ((h.map _).nodup_iff.1 hn), h.mem_iff]
  simp only [ofList, List.foldl_append]
  exact same_foldl_insert hfront r

end Keyed

/-! ## Programs and solvers in another order -/

/-- One program but for the order of its cost factors and of its equalities. -/
structure Problem.Reordered (p p' : Problem ℝ) : Prop where
  cost : ∃ factors factors', p.cost = .quadratic factors ∧ p'.cost = .quadratic factors' ∧
    factors.Perm factors'
  equalities : p.equalities.Perm p'.equalities
  inequalities_eq : p.inequalities = p'.inequalities

namespace Solver

/-- One quadratic solver but for the order of its cost factors, its equalities and its keys. -/
structure Reordered (s s' : Solver ℝ) : Prop where
  wellFormed : s.WellFormed
  wellFormed' : s'.WellFormed
  settings_eq : s.settings = s'.settings
  quadratic : s.objective = .quadratic
  quadratic' : s'.objective = .quadratic
  cost : s.cost.Perm s'.cost
  equalities : s.equalities.Perm s'.equalities
  inequalities_eq : s.inequalities = s'.inequalities
  dims : s.dims.Same s'.dims

private theorem equalityDims_eq (es : List (Equality ℝ)) :
    (Problem.equalityDims es : Except (Fault ℝ) _) = (Equality.graph es).dims := by
  rw [Problem.equalityDims, Graph.dims, Equality.graph, List.flatMap_map]

private theorem inequalityDims_eq (fs : List (Inequality ℝ)) :
    (Problem.inequalityDims fs : Except (Fault ℝ) _) =
      (Equality.graph (fs.map (·.toEquality))).dims := by
  have hentries : ∀ f : Inequality ℝ, f.toEquality.toFactor.dims.entries = f.dims.entries :=
    fun f => List.map_map ..
  simp only [Problem.inequalityDims, Graph.dims, Equality.graph, List.flatMap_map, hentries]

/-- Factors that agree on the dimensions make a solver, with the keys that they mention. -/
private theorem exists_assemble (settings : Settings ℝ) (objective : Objective ℝ) {cost : Graph ℝ}
    {equalities : List (Equality ℝ)} {inequalities : List (Inequality ℝ)} {D : Key → Nat}
    (hcost : cost.Agrees D) (hequal : (Equality.graph equalities).Agrees D)
    (hineq : (Equality.graph (inequalities.map (·.toEquality))).Agrees D) :
    ∃ s, assemble settings objective cost equalities inequalities = .ok s ∧ s.dims.Within D ∧
      ∀ k, k ∈ s.dims.keys ↔ cost.Mentions k ∨ (Equality.graph equalities).Mentions k ∨
        (Equality.graph (inequalities.map (·.toEquality))).Mentions k := by
  obtain ⟨m₁, hm₁, hw₁, hk₁⟩ := Graph.dims_ok hcost
  obtain ⟨m₂, hm₂, hw₂, hk₂⟩ := Graph.dims_ok hequal
  obtain ⟨m₃, hm₃, hw₃, hk₃⟩ := Graph.dims_ok hineq
  have hadded : ∀ m : Keyed Nat, m.Within D → ∀ e ∈ m.entries, e.2 = D e.1 := fun m hm e he =>
    hm _ _ (Keyed.lookup_of_mem he)
  have hempty : (Keyed.empty : Keyed Nat).Within D := fun _ _ h => by cases h
  obtain ⟨d₁, hd₁, hv₁, hj₁⟩ := Keyed.mergeDims_of_within (K := ℝ) (hadded m₁ hw₁) hempty
  obtain ⟨d₂, hd₂, hv₂, hj₂⟩ := Keyed.mergeDims_of_within (K := ℝ) (hadded m₂ hw₂) hv₁
  obtain ⟨d₃, hd₃, hv₃, hj₃⟩ := Keyed.mergeDims_of_within (K := ℝ) (hadded m₃ hw₃) hv₂
  simp only [assemble, equalityDims_eq, inequalityDims_eq, hm₁, hm₂, hm₃, ok_bind, hd₁, hd₂, hd₃]
  refine ⟨_, rfl, hv₃, fun k => ?_⟩
  change k ∈ d₃.keys ↔ _
  rw [hj₃, hj₂, hj₁, ← hk₁, ← hk₂, ← hk₃, Keyed.keys_empty]
  simp only [List.not_mem_nil, false_or, or_assoc]
  rfl

theorem exists_reordered {settings : Settings ℝ} {p p' : Problem ℝ} (h : p.Reordered p')
    {s : Solver ℝ} (hs : ofProblem settings p = .ok s) :
    ∃ s', ofProblem settings p' = .ok s' ∧ s.Reordered s' := by
  obtain ⟨factors, factors', hcost, hcost', hperm⟩ := h.cost
  have hmade := madeFrom_ofProblem hs
  have hfactors := cost_of_quadratic hcost hs
  have hwf := hmade.wellFormed
  have hdim : ∀ {g g' : Graph ℝ}, g.Perm g' → g.Over s.dims.entries → g'.Agrees s.dim :=
    fun hg hover f hf => hover.agrees f (hg.mem_iff.2 hf)
  have hgraph : (Equality.graph p.equalities).Perm (Equality.graph p'.equalities) :=
    h.equalities.map _
  have hover := hwf.over_equalities
  have hover' := hwf.over_inequalities
  rw [hmade.equalities_eq] at hover
  rw [hmade.inequalities_eq] at hover'
  obtain ⟨s₀, hs₀, hw₀, hk₀⟩ := exists_assemble settings .quadratic
    (hdim (.refl factors) (hfactors ▸ hwf.over_cost)) (hdim (.refl _) hover)
    (hdim (.refl _) hover')
  obtain ⟨s', hs', hw', hk'⟩ := exists_assemble settings .quadratic
    (hdim hperm (hfactors ▸ hwf.over_cost)) (hdim hgraph hover) (hdim (.refl _) hover')
  have hmake : ofProblem settings p = .ok s₀ := by
    rw [ofProblem, hcost]
    exact hs₀
  have hmake' : ofProblem settings p' = .ok s' := by
    rw [ofProblem, hcost', ← h.inequalities_eq]
    exact hs'
  cases hs.symm.trans hmake
  have hmade' := madeFrom_ofProblem hmake'
  refine ⟨s', hmake',
    { wellFormed := hwf
      wellFormed' := hmade'.wellFormed
      settings_eq := hmade.settings_eq.trans hmade'.settings_eq.symm
      quadratic := objective_of_quadratic hcost hs
      quadratic' := objective_of_quadratic hcost' hmake'
      cost := ?_
      equalities := ?_
      inequalities_eq := ?_
      dims := hw₀.same hw' fun k => ?_ }⟩
  · rw [hfactors, cost_of_quadratic hcost' hmake']
    exact hperm
  · rw [hmade.equalities_eq, hmade'.equalities_eq]
    exact h.equalities
  · rw [hmade.inequalities_eq, hmade'.inequalities_eq, h.inequalities_eq]
  · rw [hk₀, hk']
    exact or_congr (Graph.mentions_congr (.of_perm Factor.Alike.refl hperm))
      (or_congr_left (Graph.mentions_congr (.of_perm Factor.Alike.refl hgraph)))

variable {kernels : Kernels ℝ} {s s' : Solver ℝ} {w : WorkingSet ℝ} {x y : Point ℝ}

/-! ## Directions -/

private theorem workingConstraints_matches (h : s.Reordered s') (hxy : x.Same y) :
    Matches (fun cs cs' => (Equality.graph cs).Perm (Equality.graph cs'))
      (s.workingConstraints w x) (s'.workingConstraints w y) := by
  have hequal : Matches (Rearranged Eq) (s.equalities.mapM (·.shifted x))
      (s'.equalities.mapM (·.shifted y)) := by
    refine .mapM h.equalities (fun c _ => .of_eq (fun _ => rfl) (c.shifted_congr hxy)) ?_
    intro c _ d _ e e' he he'
    obtain ⟨cause, rfl⟩ := Equality.shifted_eq_error he
    obtain ⟨cause', rfl⟩ := Equality.shifted_eq_error he'
    exact .dimension cause cause'
  have hactive : w.asEqualities.mapM (·.shifted x) = w.asEqualities.mapM (·.shifted y) := by
    simp only [fun c : Equality ℝ => c.shifted_congr hxy]
  refine hequal.bind fun es es' _ hes => .bind_of_eq hactive fun as _ => .ok ?_
  exact (hes.perm.append_right as).map _

theorem direction_matches (hk : kernels.ExactLeastSquares) (h : s.Reordered s') (hxy : x.Same y) :
    Matches Keyed.Same (s.direction kernels w x) (s'.direction kernels w y) := by
  have hcost : Matches (Rearranged Eq) (s.cost.shifted x) (s'.cost.shifted y) := by
    refine .mapM h.cost (fun f _ => .of_eq (fun _ => rfl) (f.shifted_congr hxy)) ?_
    intro f _ g _ e e' he he'
    obtain ⟨cause, rfl⟩ := Factor.shifted_eq_error he
    obtain ⟨cause', rfl⟩ := Factor.shifted_eq_error he'
    exact .dimension cause cause'
  rw [direction, direction, h.quadratic, h.quadratic']
  refine hcost.bind fun cost cost' _ hcost => (workingConstraints_matches h hxy).bind
    fun cs cs' _ hcs => ?_
  exact Graph.minimize_matches hk (.of_perm Factor.Alike.refl hcost.perm)
    (.of_perm Factor.Alike.refl hcs) h.dims h.wellFormed.ordering_eq h.wellFormed'.ordering_eq
    h.dims.perm_keys s.dims.nodup_keys (fun _ hk => .inl hk) fun h => nomatch h

/-! ## Terms of the dual equations -/

/-- A working set that has an inequality for each of the solver, and a point with all its keys. -/
def Proper (s : Solver ℝ) (w : WorkingSet ℝ) (x : Point ℝ) : Prop :=
  Point.Fills s.dims x ∧ w.factors.length = s.inequalities.length

private theorem lt_of_indexed (hs : s.WellFormed) {k : Key} {ix : Nat}
    (hix : ix ∈ s.inequalityIndex.get k) : ix < s.inequalities.length := by
  rw [hs.inequalityIndex_eq, KeyIndex.get_ofKeys fun f _ => Keyed.nodup_keys f.terms] at hix
  obtain ⟨e, he, rfl⟩ := List.mem_map.1 hix
  exact (List.getElem?_eq_some_iff.1 (List.mem_zipIdx_iff_getElem?.1 (List.mem_filter.1 he).1)).1

/--
The terms of the active inequalities at a key. An inequality of a foreign working set may lack the
key, and then there are none.
-/
private theorem inequalityTerms_cases (hs : s.WellFormed)
    (hw : w.factors.length = s.inequalities.length) (k : Key) :
    s.inequalityTerms w k = .error (.missingKey k) ∨ ∃ terms, s.inequalityTerms w k = .ok terms ∧
      ∀ t ∈ terms, ∃ e ∈ w.flagged true, ∃ a, e.1.terms.lookup k = some a ∧
        t = (e.1.dual, (Matrix.ofRow a).transpose) := by
  -- The index is that of the solver's own inequalities; the working set only has as many.
  have hposition : ∀ ix ∈ s.inequalityIndex.get k, ∃ f b, (f, ix) ∈ w.flagged b := fun ix hix =>
    ⟨_, WorkingSet.flagged_getElem (hw ▸ lt_of_indexed hs hix)⟩
  cases h : s.inequalityTerms w k with
  | error e =>
      simp only [inequalityTerms, bind_eq_error, pure_ne_error, and_false, exists_false,
        or_false] at h
      obtain ⟨ix, hix, h⟩ := mapM_eq_error h
      obtain ⟨f, b, he⟩ := hposition ix hix
      rw [term_of_flagged he] at h
      split at h
      · cases h
      · cases h
      · exact .inl h.symm
  | ok terms =>
      rw [inequalityTerms, bind_eq_ok] at h
      obtain ⟨lists, hlists, h⟩ := h
      obtain rfl := pure_eq_ok.1 h
      refine .inr ⟨_, rfl, fun t ht => ?_⟩
      obtain ⟨l, hl, ht⟩ := List.mem_flatten.1 ht
      obtain ⟨ix, hix, h⟩ := exists_of_mem_right (mapM_eq_ok.1 hlists) hl
      obtain ⟨f, b, he⟩ := hposition ix hix
      rw [term_of_flagged he] at h
      cases b with
      | false =>
          obtain rfl := Except.ok.inj h
          cases ht
      | true =>
          cases hk : f.terms.lookup k with
          | none =>
              rw [hk] at h
              cases h
          | some a =>
              rw [hk] at h
              obtain rfl := Except.ok.inj h
              exact ⟨(f, ix), he, a, hk, List.mem_singleton.1 ht⟩

/-- The dual equation at a key, in terms that do not mention an order. -/
private theorem exists_dualFactor (hs : s.WellFormed) (hx : Point.Fills s.dims x) {k : Key}
    (hk : k ∈ s.dims.keys) {terms : List (Key × Matrix ℝ)}
    (hterms : s.inequalityTerms w k = .ok terms)
    (hheight : ∀ t ∈ terms, s.dims.lookup k = some t.2.height) :
    ∃ F, s.dualFactor w x k = .ok F ∧
      F.terms = Keyed.ofList (s.equalities.filterMap (Equality.term k) ++ terms) ∧
      s.dims.lookup k = some F.b.length ∧ ∀ v, Vec.dot v F.b =
        if (s.equalities.filterMap (Equality.term k) ++ terms).isEmpty then 0
        else s.slopeAt x k v := by
  refine dualFactor_ok hs (fun _ f hf => Factor.fits_of_fills (hs.over_cost f hf) hx) hk ?_ ?_
  · rw [dualTerms, equalityTerms_eq hs, ok_bind, hterms]
    rfl
  · intro t ht
    rcases List.mem_append.1 ht with ht | ht
    · exact height_of_term hs.over_equalities ht
    · exact hheight t ht

private theorem slopeAt_congr (h : s.Reordered s') (hxy : x.Same y) (k : Key) (v : List ℝ) :
    s.slopeAt x k v = s'.slopeAt y k v := by
  simp only [slopeAt, h.quadratic, h.quadratic', Factor.defect_congr hxy]
  exact (h.cost.map _).sum_eq

private theorem proper_congr (h : s.Reordered s') (hxy : x.Same y) (hw : s.Proper w x) :
    s'.Proper w y :=
  ⟨hw.1.congr h.dims hxy, hw.2.trans (congrArg List.length h.inequalities_eq)⟩

/-- At a key both solvers have the same equation, or both miss the key in an active inequality. -/
private theorem dualFactor_cases (h : s.Reordered s') (hxy : x.Same y)
    (hn : (s.equalities.map (·.dual)).Nodup) (hw : s.Proper w x)
    (hfits : ∀ e ∈ w.flagged true, e.1.Fits x) {k : Key} (hk : k ∈ s.dims.keys) :
    (∃ F F', s.dualFactor w x k = .ok F ∧ s'.dualFactor w y k = .ok F' ∧ F.Alike F') ∨
      s.dualFactor w x k = .error (.missingKey k) ∧
        s'.dualFactor w y k = .error (.missingKey k) := by
  have hineq : s'.inequalityTerms w k = s.inequalityTerms w k := by
    rw [inequalityTerms, inequalityTerms, h.wellFormed.inequalityIndex_eq,
      h.wellFormed'.inequalityIndex_eq, h.inequalities_eq]
  rcases inequalityTerms_cases h.wellFormed hw.2 k with hterms | ⟨terms, hterms, hmem⟩
  · refine .inr ⟨?_, ?_⟩
    · rw [dualFactor, dualTerms, equalityTerms_eq h.wellFormed, ok_bind, hterms]
      rfl
    · rw [dualFactor, dualTerms, equalityTerms_eq h.wellFormed', ok_bind, hineq, hterms]
      rfl
  · have hheight : ∀ t ∈ terms, s.dims.lookup k = some t.2.height := by
      intro t ht
      obtain ⟨e, he, a, ha, rfl⟩ := hmem t ht
      obtain ⟨d, hd⟩ := (Keyed.mem_keys_iff _).1 hk
      obtain ⟨v, hv, rfl⟩ := hw.1 k d hd
      rw [Matrix.height_transpose, hd]
      exact congrArg some (hfits e he (k, a) ((Keyed.lookup_iff _).1 ha) v hv)
    have hperm : (s.equalities.filterMap (Equality.term k)).Perm
        (s'.equalities.filterMap (Equality.term k)) := h.equalities.filterMap _
    obtain ⟨F, hF, hFterms, hlen, hdot⟩ :=
      exists_dualFactor h.wellFormed hw.1 hk hterms hheight
    obtain ⟨F', hF', hFterms', hlen', hdot'⟩ := exists_dualFactor h.wellFormed'
      (proper_congr h hxy hw).1 (h.dims.mem_keys_iff.1 hk) (hineq.trans hterms)
      fun t ht => (h.dims k).symm.trans (hheight t ht)
    refine .inl ⟨F, F', hF, hF', ?_, ?_⟩
    · rw [hFterms, hFterms']
      exact Keyed.same_ofList_append (nodup_terms hn k) hperm terms
    · refine Vec.ext_dot ?_ fun v => ?_
      · exact Option.some.inj (hlen.symm.trans ((h.dims k).trans hlen'))
      · rw [hdot, hdot', (hperm.append_right terms).isEmpty_eq, slopeAt_congr h hxy]

/-! ## Multipliers -/

private theorem perm_constrainedKeys (h : s.Reordered s') :
    s.constrainedKeys.Perm s'.constrainedKeys := by
  rw [h.wellFormed.constrainedKeys_eq, h.wellFormed'.constrainedKeys_eq, h.inequalities_eq]
  refine (List.perm_ext_iff_of_nodup (nodup_firstAppearances _) (nodup_firstAppearances _)).2
    fun k => ?_
  rw [mem_firstAppearances, mem_firstAppearances]
  exact ((h.equalities.flatMap_right _).append_right _).mem_iff

private theorem dualGraph_matches (h : s.Reordered s') (hxy : x.Same y)
    (hn : (s.equalities.map (·.dual)).Nodup) (hw : s.Proper w x)
    (hfits : ∀ e ∈ w.flagged true, e.1.Fits x) :
    Matches (Rearranged Factor.Alike) (s.dualGraph w x) (s'.dualGraph w y) := by
  have hcases := fun k (hk : k ∈ s.constrainedKeys) =>
    dualFactor_cases h hxy hn hw hfits (mem_dims_of_constrained h.wellFormed hk)
  have hmissing : ∀ k ∈ s.constrainedKeys, ∀ e, s.dualFactor w x k = .error e →
      e = .missingKey k := by
    intro k hk e he
    rcases hcases k hk with ⟨F, _, hF, _, _⟩ | ⟨hmiss, _⟩
    · cases he.symm.trans hF
    · exact Except.error.inj (he.symm.trans hmiss)
  refine (Matches.mapM (R := Factor.Alike) (perm_constrainedKeys h) (fun k hk => ?_) ?_).bind
    fun fs fs' _ hfs => .ok (hfs.filter fun F F' halike => by rw [halike.isEmpty_eq])
  · rcases hcases k hk with ⟨F, F', hF, hF', halike⟩ | ⟨hmiss, hmiss'⟩
    · rw [hF, hF']
      exact .ok halike
    · rw [hmiss, hmiss']
      exact .error (.refl _)
  · intro j hj k hk e e' he he'
    rw [hmissing j hj e he, hmissing k hk e' he']
    exact .missingKey j k

/-- The multipliers are the same in every order, where there is a direction. -/
theorem multipliers_matches (hk : kernels.ExactLeastSquares) (h : s.Reordered s') (hxy : x.Same y)
    (hn : (s.equalities.map (·.dual)).Nodup) (hw : s.Proper w x) {p : Point ℝ}
    (hp : s.direction kernels w x = .ok p) :
    Matches Keyed.Same (s.multipliers kernels w x) (s'.multipliers kernels w y) := by
  refine (dualGraph_matches h hxy hn hw fun e he => Inequality.fits_toEquality.1
    ((fits_of_direction hp).1 _ (mem_working.2 (.inr ⟨e, he, rfl⟩)))).bind
    fun g g' _ hg => ?_
  refine Graph.minimize_matches hk hg (.of_perm Factor.Alike.refl (.refl [])) (.refl _) rfl rfl ?_
    (nodup_firstAppearances _) (fun j hj => .inr (.inl ((mem_order g j).1 hj))) fun _ => rfl
  refine (List.perm_ext_iff_of_nodup (nodup_firstAppearances _) (nodup_firstAppearances _)).2
    fun j => ?_
  exact (mem_order g j).trans ((Graph.mentions_congr hg).trans (mem_order g' j).symm)

/-! ## Methods -/

theorem method_alike (hk : kernels.ExactLeastSquares) (h : s.Reordered s')
    (hn : (s.equalities.map (·.dual)).Nodup) :
    Method.Alike s.Proper (s.method kernels .largestMultiplier)
      (s'.method kernels .largestMultiplier) where
  settings_eq := h.settings_eq
  cap_eq := by
    change s.cap = s'.cap
    rw [cap, cap, h.quadratic, h.quadratic']
  direction _ hxy := direction_matches hk h hxy
  multipliers hw hxy hp := multipliers_matches hk h hxy hn hw hp
  leaving w _ _ hxy := LeavingRule.largestMultiplier_congr hxy w

theorem proper_iterate {leaving : LeavingRule ℝ} {u v : State ℝ}
    (hu : s.Proper u.workingSet u.values) (h : (s.method kernels leaving).iterate u = .ok v) :
    s.Proper v.workingSet v.values := by
  obtain ⟨p, _, hstep⟩ := Method.step_of_iterate h
  refine ⟨?_, hstep.factors_eq ▸ hu.2⟩
  rcases hstep.length with hsame | ⟨a, _, hsum, _⟩
  · rw [hsame]
    exact hu.1
  · exact hu.1.add hsum

/-! ## Starts -/

private theorem largestResidual_eq_error {f : Equality ℝ} (hf : f.toFactor.Fits x) {e : Fault ℝ}
    (h : f.largestResidual x = .error e) : e = .badValue := by
  rw [Equality.largestResidual, f.toFactor.residual_eq_ok.2 ⟨hf, rfl⟩, ok_bind] at h
  split at h
  · exact (Except.error.inj h).symm
  · cases h

private theorem foldl_larger_congr {a b : ℝ} {l r : List ℝ} (h : (a :: l).Perm (b :: r)) :
    l.foldl Scalar.larger a = r.foldl Scalar.larger b := by
  rw [← Scalar.greatestFrom_eq_foldl, ← Scalar.greatestFrom_eq_foldl]
  exact le_antisymm
    (Scalar.mem_cons_le_greatestFrom (h.mem_iff.1 (Scalar.greatestFrom_mem a l)))
    (Scalar.mem_cons_le_greatestFrom (h.mem_iff.2 (Scalar.greatestFrom_mem b r)))

private theorem violation_matches (h : s.Reordered s') (hxy : x.Same y)
    (hx : Point.Fills s.dims x) :
    Matches Eq (Equality.violation s.equalities x) (Equality.violation s'.equalities y) := by
  have hbad : ∀ c ∈ s.equalities, ∀ e, c.largestResidual x = .error e → e = .badValue := by
    intro c hc e he
    refine largestResidual_eq_error (Factor.fits_of_fills ?_ hx) he
    exact h.wellFormed.over_equalities _ (List.mem_map_of_mem hc)
  have hresiduals : Matches (Rearranged Eq) (s.equalities.mapM (·.largestResidual x))
      (s'.equalities.mapM (·.largestResidual y)) := by
    refine .mapM h.equalities (fun c _ => .of_eq (fun _ => rfl) ?_) ?_
    · rw [Equality.largestResidual, Equality.largestResidual, c.toFactor.residual_congr hxy]
    · intro c hc d hd e e' he he'
      rw [hbad c hc e he, hbad d hd e' he']
      exact .refl _
  refine hresiduals.bind fun l l' _ hl => ?_
  have hperm := hl.perm
  cases l with
  | nil =>
      obtain rfl := hperm.nil_eq
      exact .ok rfl
  | cons a l =>
      cases l' with
      | nil => cases hperm.eq_nil
      | cons b r => exact .ok (foldl_larger_congr hperm)

private theorem checkFeasibility_matches (h : s.Reordered s') (hxy : x.Same y)
    (hx : Point.Fills s.dims x) :
    Matches Eq (s.checkFeasibility x) (s'.checkFeasibility y) := by
  have hlargest : Matches Eq (s.largestViolation x) (s'.largestViolation y) := by
    rw [largestViolation, largestViolation, ← h.inequalities_eq,
      Inequality.violations_congr hxy s.inequalities]
    refine (violation_matches h hxy hx).bind fun a b _ hab => ?_
    exact .of_eq (fun _ => rfl) (by rw [hab])
  rw [checkFeasibility, checkFeasibility, h.settings_eq]
  exact hlargest.bind fun a b _ hab => .of_eq (fun _ => rfl) (by rw [hab])

/-- From a given point both solvers begin in the same state, or refuse it alike. -/
theorem initialState_matches (h : s.Reordered s') {start : Start ℝ} (hstart : start.point ≠ none) :
    Matches (fun u v => u.Same v ∧ s.Proper u.workingSet u.values) (s.initialState kernels start)
      (s'.initialState kernels start) := by
  obtain ⟨given, hgiven⟩ := Option.ne_none_iff_exists'.1 hstart
  have hpoint : Matches (fun found found' : PhaseOne.Found ℝ =>
      found.point.Same found'.point ∧ Point.Fills s.dims found.point)
      (s.startingPoint kernels start) (s'.startingPoint kernels start) := by
    rw [startingPoint, startingPoint, hgiven]
    refine (Point.add_matches (h.dims.map _) (.refl given)).bind fun x y hx hxy => ?_
    have hfills := (Point.fills_zero s.dims).add hx
    rw [h.settings_eq]
    split
    · exact (checkFeasibility_matches h hxy hfills).bind fun _ _ _ _ => .ok ⟨hxy, hfills⟩
    · exact .ok ⟨hxy, hfills⟩
  refine hpoint.bind fun found found' _ hfound => ?_
  obtain ⟨hxy, hfills⟩ := hfound
  have hset : s.startingSet start found.point = s'.startingSet start found'.point := by
    rw [startingSet, startingSet, hgiven]
    cases start.workingSet with
    | none =>
        dsimp only
        rw [h.inequalities_eq, h.settings_eq, WorkingSet.seed_congr hxy]
    | some w =>
        dsimp only
        rw [checkWorkingSet, checkWorkingSet, h.inequalities_eq]
  refine .bind_of_eq hset fun w hw => .ok ⟨?_, hfills, length_startingSet hw⟩
  exact ⟨hxy, .refl _, rfl, rfl, rfl, rfl⟩

end Solver

/-! ## Solves -/

structure Solution.Same (r r' : Solution ℝ) : Prop where
  objective_eq : r.objective = r'.objective
  last : r.last.Same r'.last

/-- Failures of one kind, at the same states or with faults of one class. -/
inductive Failure.Alike : Failure ℝ → Failure ℝ → Prop
  | exhausted {s t : State ℝ} (h : s.Same t) : Alike (.exhausted s) (.exhausted t)
  | cycled {s t : State ℝ} (h : s.Same t) : Alike (.cycled s) (.cycled t)
  | fault {e e' : Fault ℝ} (h : e.Alike e') : Alike (.fault e) (.fault e')

inductive SolvesAlike : Except (Failure ℝ) (Solution ℝ) → Except (Failure ℝ) (Solution ℝ) → Prop
  | solved {r r' : Solution ℝ} (h : r.Same r') : SolvesAlike (.ok r) (.ok r')
  | failed {e e' : Failure ℝ} (h : e.Alike e') : SolvesAlike (.error e) (.error e')

namespace Solver

variable {kernels : Kernels ℝ} {s s' : Solver ℝ} {start : Start ℝ} {x y : Point ℝ}

private theorem value_matches (h : s.Reordered s') (hxy : x.Same y) :
    Matches Eq (s.value x) (s'.value y) := by
  rw [value, value, h.quadratic, h.quadratic']
  have herrors : Matches (Rearranged Eq) (s.cost.mapM (·.error x)) (s'.cost.mapM (·.error y)) := by
    refine .mapM h.cost (fun f _ => .of_eq (fun _ => rfl) ?_) ?_
    · rw [Factor.error, Factor.error, f.residual_congr hxy]
    · intro f _ g _ e e' he he'
      simp only [Factor.error, bind_eq_error, pure_ne_error, and_false, exists_false,
        or_false] at he he'
      obtain ⟨c, rfl⟩ := Factor.residual_eq_error he
      obtain ⟨c', rfl⟩ := Factor.residual_eq_error he'
      exact .dimension c c'
  refine herrors.bind fun l l' _ hl => .ok ?_
  rw [Vec.total_eq_sum, Vec.total_eq_sum, hl.perm.sum_eq]

private theorem conclude_alike (h : s.Reordered s') {e e' : Ending ℝ} (he : e.Alike e') :
    SolvesAlike (s.conclude e) (s'.conclude e') := by
  cases he with
  | exhausted hst => exact .failed (.exhausted hst)
  | cycled hst => exact .failed (.cycled hst)
  | failed halike => exact .failed (.fault halike)
  | @converged t t' hst =>
      rw [conclude, conclude]
      rcases (value_matches h hst.values).results with
        ⟨a, b, ha, hb, hab⟩ | ⟨e, e', he, he', halike⟩
      · rw [ha, hb]
        exact .solved ⟨hab, hst⟩
      · rw [he, he']
        exact .failed (.fault halike)

private theorem run_matches (hk : kernels.ExactLeastSquares) (h : s.Reordered s')
    (hn : (s.equalities.map (·.dual)).Nodup) (hstart : start.point ≠ none) :
    Matches Run.Alike (s.run kernels .largestMultiplier start)
      (s'.run kernels .largestMultiplier start) := by
  refine (initialState_matches h hstart).bind fun u v _ huv => .ok ?_
  rw [Method.run, Method.run, (method_alike hk h hn).settings_eq]
  exact (method_alike hk h hn).runFrom (fun _ _ => proper_iterate) _ _ huv.1 huv.2

private theorem optimize_alike (h : s.Reordered s') {leaving : LeavingRule ℝ}
    (hrun : Matches Run.Alike (s.run kernels leaving start) (s'.run kernels leaving start)) :
    SolvesAlike (s.optimize kernels leaving start) (s'.optimize kernels leaving start) := by
  rw [optimize, optimize]
  rcases hrun.results with ⟨r, r', hr, hr', halike⟩ | ⟨e, e', he, he', halike⟩
  · rw [hr, hr']
    exact conclude_alike h halike.ending
  · rw [he, he']
    exact .failed (.fault halike)

/--
From a given point a quadratic solver goes through the same states and ends alike whatever order its
cost factors and its equalities come in. Among faults only those that name a key or a size of a
system may name another one.
-/
theorem optimize_reordered (hk : kernels.ExactLeastSquares) {settings : Settings ℝ}
    {p p' : Problem ℝ} (h : p.Reordered p') (hd : p.DistinctDuals)
    (hs : ofProblem settings p = .ok s) :
    ∃ s', ofProblem settings p' = .ok s' ∧ ∀ start : Start ℝ, start.point ≠ none →
      Matches State.Same (s.initialState kernels start) (s'.initialState kernels start) ∧
      Matches Run.Alike (s.run kernels .largestMultiplier start)
        (s'.run kernels .largestMultiplier start) ∧
      SolvesAlike (s.optimize kernels .largestMultiplier start)
        (s'.optimize kernels .largestMultiplier start) := by
  obtain ⟨s', hs', hreordered⟩ := exists_reordered h hs
  have hn : (s.equalities.map (·.dual)).Nodup := by
    rw [(madeFrom_ofProblem hs).equalities_eq]
    exact (List.nodup_append.1 hd).1
  refine ⟨s', hs', fun start hstart => ?_⟩
  have hrun : Matches Run.Alike (s.run kernels .largestMultiplier start)
      (s'.run kernels .largestMultiplier start) := run_matches hk hreordered hn hstart
  exact ⟨(initialState_matches hreordered hstart).mono fun _ _ huv => huv.1, hrun,
    optimize_alike hreordered hrun⟩

end Solver

namespace Rail

theorem reordered (s t b c h : ℝ) : (problem [aim s, aim t] [across b, above c] h).Reordered
    (problem [aim t, aim s] [above c, across b] h) :=
  ⟨⟨_, _, rfl, rfl, .swap ..⟩, .swap .., rfl⟩

/-- The first run goes up to the stop along the rail and ends there, and the second one does the same. -/
theorem optimize_reordered_rail : ∃ s s' v w run' r r',
    Solver.ofProblem OneVariable.settings (problem [aim 5, aim 1] [across 1, above 2] 2) = .ok s ∧
    Solver.ofProblem OneVariable.settings (problem [aim 1, aim 5] [above 2, across 1] 2) = .ok s' ∧
    s.run .exact .largestMultiplier (start 1 2 2 0) = .ok ⟨[v, w], .converged w⟩ ∧
    v.alpha = some (2 / 3) ∧ w.values = space 2 1 2 ∧ w.workingSet.activeIndices = [0] ∧
    s'.run .exact .largestMultiplier (start 1 2 2 0) = .ok run' ∧
    Run.Alike ⟨[v, w], .converged w⟩ run' ∧
    s.optimize .exact .largestMultiplier (start 1 2 2 0) = .ok r ∧ r.last = w ∧
    s'.optimize .exact .largestMultiplier (start 1 2 2 0) = .ok r' ∧ r.Same r' := by
  have hduals : (problem [aim 5, aim 1] [across 1, above 2] 2).DistinctDuals := by
    change [Key.number 1, .number 2, .number 0].Nodup
    decide
  obtain ⟨s', hs', hmatch⟩ := Solver.optimize_reordered Kernels.exact_leastSquares
    (reordered 5 1 1 2 2) hduals (ofProblem_problem OneVariable.settings 5 1 1 2 2)
  obtain ⟨_, hruns, hsolves⟩ := hmatch (start 1 2 2 0) (Option.some_ne_none _)
  have hinitial := initialState_free OneVariable.settings 5 1 1 2 2
    OneVariable.feasibilityTolerance_pos (x := 0) (by norm_num)
  obtain ⟨v, w, hrun, halpha, hv, hw⟩ := run_free OneVariable.settings 5 1 1 2 2
    (by norm_num [OneVariable.settings]) OneVariable.tolerance_pos.le (x := 0) (by norm_num)
    (by norm_num) (OneVariable.tolerance_lt_one.trans (by norm_num))
  have hfirst : (solver OneVariable.settings 5 1 1 2 2).run .exact .largestMultiplier
      (start 1 2 2 0) = .ok ⟨[v, w], .converged w⟩ := by
    rw [Solver.run, hinitial, ok_bind, hrun]
    rfl
  obtain ⟨a, ha⟩ : ∃ a, (solver OneVariable.settings 5 1 1 2 2).value w.values = .ok a := by
    rw [hw.values_eq]
    exact ⟨_, rfl⟩
  have hsolve : (solver OneVariable.settings 5 1 1 2 2).optimize .exact .largestMultiplier
      (start 1 2 2 0) = .ok ⟨a, w⟩ := by
    rw [Solver.optimize_eq_conclude hinitial, hrun, Solver.conclude_eq_ok]
    exact ⟨rfl, ha⟩
  rw [hfirst] at hruns
  rw [hsolve] at hsolves
  generalize hsecond : s'.run .exact .largestMultiplier (start 1 2 2 0) = x at hruns
  generalize hother : s'.optimize .exact .largestMultiplier (start 1 2 2 0) = y at hsolves
  cases hruns with
  | @ok _ run' halike =>
      cases hsolves with
      | @solved _ r' hsame =>
          refine ⟨_, s', v, w, run', _, r', ofProblem_problem .., hs', hfirst, ?_, hw.values_eq, ?_,
            hsecond, halike, hsolve, rfl, hother, hsame⟩
          · norm_num [halpha]
          · rw [hw.workingSet_eq]
            rfl

end Rail

end ActiveSet
