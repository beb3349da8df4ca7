import ActiveSet.Proofs.Graphs
import ActiveSet.Proofs.WorkingSets
import ActiveSet.Solver

/-!
# Solvers and their directions

A solver made from a program knows the dimension of every key that a factor mentions. Its direction
minimises the cost under the working constraints, which is stated by products with arbitrary points.
-/

namespace ActiveSet

namespace Solver

/-! ## Well-formed solvers -/

section Made

variable {K : Type} [Scalar K]

/-- What assembling guarantees about the parts of a solver. -/
structure WellFormed (s : Solver K) : Prop where
  ordering_eq : s.ordering = s.dims.keys
  over_cost : s.cost.Over s.dims.entries
  over_equalities : (Equality.graph s.equalities).Over s.dims.entries
  over_inequalities : (Equality.graph (s.inequalities.map (·.toEquality))).Over s.dims.entries
  costIndex_eq : s.costIndex = .ofKeys (s.cost.map (·.keys))
  equalityIndex_eq : s.equalityIndex = .ofKeys (s.equalities.map (·.keys))
  inequalityIndex_eq : s.inequalityIndex = .ofKeys (s.inequalities.map (·.keys))
  constrainedKeys_eq : s.constrainedKeys =
    firstAppearances (s.equalities.flatMap (·.keys) ++ s.inequalities.flatMap (·.keys))
  /-- The cost behind a linear objective has one proximal factor for every key. -/
  proximal : ∀ vectors, s.objective = .linear vectors →
    List.Forall₂ (fun e f => proximalFactor vectors e = .ok f) s.dims.entries s.cost ∧
      ∀ k ∈ vectors.keys, k ∈ s.dims.keys

private theorem mem_dims_toEquality {K : Type} {f : Inequality K} {e : Key × Matrix K}
    (he : e ∈ f.toEquality.terms.entries) : (e.1, e.2.cols) ∈ f.dims.entries := by
  obtain ⟨t, ht, rfl⟩ := List.mem_map.1 he
  exact List.mem_map_of_mem (f := fun e : Key × List K => (e.1, e.2.length)) ht

private theorem assemble_eq_ok {settings : Settings K} {objective : Objective K} {cost : Graph K}
    {equalities : List (Equality K)} {inequalities : List (Inequality K)} {s : Solver K}
    (h : assemble settings objective cost equalities inequalities = .ok s) :
    (s.settings = settings ∧ s.objective = objective ∧ s.cost = cost ∧
      s.equalities = equalities ∧ s.inequalities = inequalities) ∧
    ((∀ vectors, objective = .linear vectors →
      List.Forall₂ (fun e f => proximalFactor vectors e = .ok f) s.dims.entries cost ∧
        ∀ k ∈ vectors.keys, k ∈ s.dims.keys) → s.WellFormed) ∧
    ∃ m₁ m₂ m₃ : Keyed Nat,
      (cost.dims : Except (Fault K) _) = .ok m₁ ∧
      (Problem.equalityDims equalities : Except (Fault K) _) = .ok m₂ ∧
      (Problem.inequalityDims inequalities : Except (Fault K) _) = .ok m₃ ∧
      ∃ d₁ d₂ : Keyed Nat, Keyed.mergeDims .empty m₁.entries = (.ok d₁ : Except (Fault K) _) ∧
        Keyed.mergeDims d₁ m₂.entries = (.ok d₂ : Except (Fault K) _) ∧
        Keyed.mergeDims d₂ m₃.entries = (.ok s.dims : Except (Fault K) _) := by
  simp only [assemble, bind_eq_ok, pure_eq_ok] at h
  obtain ⟨m₁, hm₁, d₁, hd₁, m₂, hm₂, d₂, hd₂, m₃, hm₃, d₃, hd₃, rfl⟩ := h
  refine ⟨⟨rfl, rfl, rfl, rfl, rfl⟩, fun hprox => ?_,
    m₁, m₂, m₃, hm₁, hm₂, hm₃, d₁, d₂, hd₁, hd₂, hd₃⟩
  have hkeep₂ := (Keyed.lookup_mergeDims hd₂).1
  have hkeep₃ := (Keyed.lookup_mergeDims hd₃).1
  exact
    { ordering_eq := rfl
      over_cost := Graph.over_of_mergeDims
        (fun f hf e he => List.mem_flatMap.2 ⟨f, hf, Factor.mem_dims_entries he⟩) hm₁
        fun e he => hkeep₃ _ _ (hkeep₂ _ _ ((Keyed.lookup_mergeDims hd₁).2 e he))
      over_equalities := Graph.over_of_mergeDims
        (fun f hf e he => by
          obtain ⟨c, hc, rfl⟩ := List.mem_map.1 hf
          exact List.mem_flatMap.2 ⟨c, hc, Factor.mem_dims_entries he⟩) hm₂
        fun e he => hkeep₃ _ _ ((Keyed.lookup_mergeDims hd₂).2 e he)
      over_inequalities := Graph.over_of_mergeDims
        (fun f hf e he => by
          obtain ⟨c, hc, rfl⟩ := List.mem_map.1 hf
          obtain ⟨i, hi, rfl⟩ := List.mem_map.1 hc
          exact List.mem_flatMap.2 ⟨i, hi, mem_dims_toEquality he⟩) hm₃
        fun e he => (Keyed.lookup_mergeDims hd₃).2 e he
      costIndex_eq := rfl
      equalityIndex_eq := rfl
      inequalityIndex_eq := rfl
      constrainedKeys_eq := rfl
      proximal := hprox }

theorem ordering_of_assemble {settings : Settings ℝ} {objective : Objective ℝ} {cost : Graph ℝ}
    {equalities : List (Equality ℝ)} {inequalities : List (Inequality ℝ)} {s : Solver ℝ}
    (h : assemble settings objective cost equalities inequalities = .ok s) :
    s.ordering = s.dims.keys := by
  simp only [assemble, bind_eq_ok, pure_eq_ok] at h
  obtain ⟨_, _, _, _, _, _, _, _, _, _, _, _, rfl⟩ := h
  rfl

/-- What a solver takes over from the program that it was made from. -/
structure MadeFrom (s : Solver K) (settings : Settings K) (p : Problem K) : Prop where
  wellFormed : s.WellFormed
  settings_eq : s.settings = settings
  equalities_eq : s.equalities = p.equalities
  inequalities_eq : s.inequalities = p.inequalities
  value_eq : ∀ x, s.value x = p.objective x
  linear_eq : ∀ vectors, p.cost = .linear vectors → s.objective = .linear vectors

theorem proximalFactor_eq_ok {vectors : Keyed (List K)} {e : Key × Nat}
    {f : Factor K} (h : proximalFactor vectors e = .ok f) :
    f.terms.entries = [(e.1, .identity e.2)] ∧
      f.b = Vec.neg ((vectors.lookup e.1).getD (Vec.zeros e.2)) ∧ f.b.length = e.2 := by
  obtain ⟨ht, hb⟩ := Factor.make_eq_ok h
  have hentries : f.terms.entries = [(e.1, .identity e.2)] := by
    rw [ht, Keyed.entries_ofList (by simp)]
  have hrows := f.rows_eq _ (hentries ▸ List.mem_singleton_self _)
  exact ⟨hentries, hb, hrows.symm.trans (Matrix.height_identity _)⟩

theorem dims_proximal {vectors : Keyed (List K)} {l : List (Key × Nat)}
    {fs : Graph K} (h : List.Forall₂ (fun e f => proximalFactor vectors e = .ok f) l fs) :
    (fs.flatMap fun f => f.dims.entries) = l := by
  induction h with
  | nil => rfl
  | @cons e f l fs hf _ ih =>
      have hdims : f.dims.entries = [e] := by
        simp only [Factor.dims, Keyed.map, (proximalFactor_eq_ok hf).1]
        rfl
      rw [List.flatMap_cons, ih, hdims, List.singleton_append]

private theorem madeFrom_quadratic {settings : Settings K} {p : Problem K} {factors : Graph K}
    {s : Solver K} (hc : p.cost = .quadratic factors) (h : ofProblem settings p = .ok s) :
    s.MadeFrom settings p := by
  rw [ofProblem, hc] at h
  obtain ⟨⟨hset, hobj, hcost, heq, hineq⟩, hwf, _⟩ := assemble_eq_ok h
  refine ⟨hwf fun _ h => (nomatch h), hset, heq, hineq, fun x => ?_, fun v hv => ?_⟩
  · rw [value, hobj, hcost, Problem.objective, hc]
    rfl
  · cases hc.symm.trans hv

private theorem madeFrom_linear {settings : Settings K} {p : Problem K} {vectors : Keyed (List K)}
    {s : Solver K} (hc : p.cost = .linear vectors) (h : ofProblem settings p = .ok s) :
    s.MadeFrom settings p := by
  simp only [ofProblem, hc, bind_eq_ok, mapM_eq_ok] at h
  obtain ⟨dims, hdims, proximal, hprox, h⟩ := h
  obtain ⟨⟨hset, hobj, hcost, heq, hineq⟩, hwf, m₁, m₂, m₃, hm₁, hm₂, hm₃, d₁, d₂, hd₁, hd₂, hd₃⟩ :=
    assemble_eq_ok h
  -- The dimensions of the program are those of the solver, so nothing is added behind the cost.
  simp only [Problem.dims, hc, Cost.dims, ok_bind, hm₂, hm₃] at hdims
  obtain rfl := Except.ok.inj hdims
  have hkeys := fun k => Keyed.mem_keys_foldl_insert (l := m₂.entries ++ m₃.entries)
    (m := vectors.map List.length) (k := k)
  generalize (m₂.entries ++ m₃.entries).foldl _ (vectors.map List.length) = dims at hprox hkeys
  rw [Graph.dims, dims_proximal hprox] at hm₁
  have he₁ : d₁.entries = dims.entries :=
    (Keyed.entries_mergeDims hd₁ m₁.nodup).trans (Keyed.entries_mergeDims hm₁ dims.nodup)
  have hk₁ : ∀ k, k ∈ d₁.keys ↔ k ∈ dims.keys := fun k => by rw [Keyed.keys, he₁, Keyed.keys]
  obtain rfl := Keyed.mergeDims_of_known hd₂ fun e he => (hk₁ _).2 <| (hkeys _).2 <| .inr <|
    List.mem_map_of_mem (f := (·.1)) (List.mem_append_left _ he)
  have he₃ : s.dims = d₂ := Keyed.mergeDims_of_known hd₃ fun e he => (hk₁ _).2 <| (hkeys _).2 <|
    .inr <| List.mem_map_of_mem (f := (·.1)) (List.mem_append_right _ he)
  refine ⟨hwf ?_, hset, heq, hineq, fun x => ?_, fun v hv => ?_⟩
  · intro v hv
    cases hv
    rw [he₃, he₁]
    refine ⟨hprox, fun k hk => (hk₁ k).2 ((hkeys k).2 (.inl ?_))⟩
    rwa [Keyed.keys_map]
  · rw [value, hobj, Problem.objective, hc]
    rfl
  · cases hc.symm.trans hv
    exact hobj

theorem madeFrom_ofProblem {settings : Settings K} {p : Problem K} {s : Solver K}
    (h : ofProblem settings p = .ok s) : s.MadeFrom settings p := by
  cases hc : p.cost with
  | quadratic factors => exact madeFrom_quadratic hc h
  | linear vectors => exact madeFrom_linear hc h

theorem cost_of_quadratic {settings : Settings K} {p : Problem K} {factors : Graph K} {s : Solver K}
    (hc : p.cost = .quadratic factors) (h : ofProblem settings p = .ok s) : s.cost = factors := by
  rw [ofProblem, hc] at h
  exact (assemble_eq_ok h).1.2.2.1

theorem objective_of_quadratic {settings : Settings K} {p : Problem K} {factors : Graph K}
    {s : Solver K} (hc : p.cost = .quadratic factors) (h : ofProblem settings p = .ok s) :
    s.objective = .quadratic := by
  rw [ofProblem, hc] at h
  exact (assemble_eq_ok h).1.2.1

theorem MadeFrom.over_equality {s : Solver K} {settings : Settings K} {p : Problem K}
    (hs : s.MadeFrom settings p) {f : Equality K} (hf : f ∈ p.equalities) :
    ∀ e ∈ f.terms.entries, (e.1, e.2.cols) ∈ s.dims.entries :=
  hs.wellFormed.over_equalities _ (List.mem_map_of_mem (hs.equalities_eq ▸ hf))

theorem MadeFrom.over_inequality {s : Solver K} {settings : Settings K} {p : Problem K}
    (hs : s.MadeFrom settings p) {f : Inequality K} (hf : f ∈ p.inequalities) :
    ∀ e ∈ f.toEquality.terms.entries, (e.1, e.2.cols) ∈ s.dims.entries :=
  hs.wellFormed.over_inequalities _ (List.mem_map_of_mem (List.mem_map_of_mem
    (hs.inequalities_eq ▸ hf)))

end Made

theorem value_eq_error {s : Solver ℝ} {x : Point ℝ} {fault : Fault ℝ}
    (h : s.value x = .error fault) : (∃ c, fault = .dimension c) ∨ fault = .badValue := by
  unfold value at h
  split at h
  · simp only [Graph.error, bind_eq_error, pure_ne_error, and_false, exists_false, or_false] at h
    obtain ⟨f, _, h⟩ := mapM_eq_error h
    simp only [Factor.error, bind_eq_error, pure_ne_error, and_false, exists_false, or_false] at h
    exact .inl (Factor.residual_eq_error h)
  · simp only [Cost.linearValue, Point.dot, bind_eq_error, pure_ne_error, and_false, exists_false,
      or_false] at h
    obtain ⟨e, _, h⟩ := mapM_eq_error h
    split at h
    · cases h
    · split at h
      · cases h
      · exact .inr (Except.error.inj h).symm

/-! ## Enforced constraints -/

/-- The constraints that are enforced: the equalities and the active inequalities. -/
def working {K : Type} (s : Solver K) (w : WorkingSet K) : List (Equality K) :=
  s.equalities ++ w.asEqualities

theorem mem_working {K : Type} [Scalar K] {s : Solver K} {w : WorkingSet K} {c : Equality K} :
    c ∈ s.working w ↔ c ∈ s.equalities ∨ ∃ e ∈ w.flagged true, e.1.toEquality = c := by
  rw [working, List.mem_append, WorkingSet.mem_asEqualities]

/-- No enforced constraint changes along `z`. -/
def Free (s : Solver ℝ) (w : WorkingSet ℝ) (z : Point ℝ) : Prop :=
  ∀ c ∈ s.working w, c.toFactor.values z = Vec.zeros c.toFactor.rows

/-- Over distinct multiplier keys there is a point with any choice of vectors. -/
theorem exists_parts {cs : List (Equality ℝ)} (hn : (cs.map (·.dual)).Nodup)
    (v : Equality ℝ → List ℝ) : ∃ ν : Point ℝ, ∀ c ∈ cs, ν.part c.dual = v c := by
  have hkeys : ((cs.map fun c => (c.dual, v c)).map (·.1)).Nodup := by rwa [List.map_map]
  exact ⟨.ofList _, fun c hc => Point.part_ofList hkeys
    (List.mem_map_of_mem (f := fun c : Equality ℝ => (c.dual, v c)) hc)⟩

variable {s : Solver ℝ} {w : WorkingSet ℝ}

/-- A point at which the constraints pair to zero with all vectors moves none of them. -/
theorem free_of_sum_eq_zero (hn : ((s.working w).map (·.dual)).Nodup) {z : Point ℝ}
    (h : ∀ ν : Point ℝ,
      ((s.working w).map fun c => Vec.dot (c.toFactor.values z) (ν.part c.dual)).sum = 0) :
    s.Free w z := by
  obtain ⟨ν, hν⟩ := exists_parts hn fun c => c.toFactor.values z
  have hsum := h ν
  rw [List.map_congr_left fun c hc => by rw [hν c hc]] at hsum
  intro c hc
  simpa using Vec.eq_zeros_of_sum_dot_self hsum c hc

theorem WellFormed.over_working {K : Type} [Scalar K] {s : Solver K} {w : WorkingSet K}
    (hs : s.WellFormed) (hw : w.factors = s.inequalities) :
    (Equality.graph (s.working w)).Over s.dims.entries := by
  intro f hf e he
  obtain ⟨c, hc, rfl⟩ := List.mem_map.1 hf
  rcases mem_working.1 hc with hc | ⟨i, hi, rfl⟩
  · exact hs.over_equalities c.toFactor (List.mem_map_of_mem hc) e he
  · exact hs.over_inequalities _ (List.mem_map_of_mem
      (List.mem_map_of_mem (hw ▸ WorkingSet.mem_factors_of_flagged hi))) e he

theorem shifted_of_workingConstraints {x : Point ℝ} {cs : List (Equality ℝ)}
    (h : s.workingConstraints w x = .ok cs) :
    Graph.Shifted x (Equality.graph (s.working w)) (Equality.graph cs) := by
  simp only [workingConstraints, bind_eq_ok, pure_eq_ok, mapM_eq_ok] at h
  obtain ⟨es, hes, as, has, rfl⟩ := h
  have hall : List.Forall₂ (fun c c' => c.shifted x = .ok c') (s.working w) (es ++ as) :=
    List.rel_append hes has
  rw [Graph.Shifted, Equality.graph, Equality.graph, List.forall₂_map_left_iff,
    List.forall₂_map_right_iff]
  refine hall.imp fun c c' hc => ?_
  simp only [Equality.shifted, bind_eq_ok, pure_eq_ok] at hc
  obtain ⟨f, hf, rfl⟩ := hc
  exact hf

theorem workingConstraints_eq_error {x : Point ℝ} {e : Fault ℝ}
    (h : s.workingConstraints w x = .error e) : ∃ c, e = .dimension c := by
  simp only [workingConstraints, bind_eq_error, pure_ne_error, and_false, exists_false,
    or_false] at h
  rcases h with h | ⟨_, _, h⟩ <;> obtain ⟨c, _, h⟩ := mapM_eq_error h <;>
    exact Equality.shifted_eq_error h

/-! ## Directions -/

/-- The derivative of the objective at `x` along `z`. -/
noncomputable def slope (s : Solver ℝ) (x z : Point ℝ) : ℝ :=
  match s.objective with
  | .quadratic => (s.cost.map fun f => Vec.dot (f.values z) (f.defect x)).sum
  | .linear vectors => (vectors.entries.map fun e => Vec.dot e.2 (z.part e.1)).sum

/--
What makes `p` the direction at `x`: along everything that the enforced constraints leave free, the
change of the cost along `p` cancels the slope of the objective, and the defects that `p` leaves
cannot be lowered.
-/
structure Directs (s : Solver ℝ) (w : WorkingSet ℝ) (x p : Point ℝ) : Prop where
  stationary : ∀ z, s.Free w z →
    (s.cost.map fun f => Vec.dot (f.values z) (f.values p)).sum + s.slope x z = 0
  compatible : ∀ z, ((s.working w).map fun c =>
    Vec.dot (c.toFactor.values z) (Vec.add (c.toFactor.values p) (c.toFactor.defect x))).sum = 0
  spans : Graph.Spans p s.dims.entries

def dim {K : Type} (s : Solver K) (k : Key) : Nat := (s.dims.lookup k).getD 0

private theorem sizedBy_dim {K : Type} (s : Solver K) :
    Graph.sizedBy s.dims.keys s.dim = s.dims.entries := by
  rw [Graph.sizedBy, Keyed.keys, List.map_map]
  refine (List.map_congr_left fun e he => ?_).trans (List.map_id _)
  simp [dim, Keyed.lookup_of_mem he]

theorem WellFormed.sized_eq {K : Type} [Scalar K] {s : Solver K} (hs : s.WellFormed) :
    (Point.sized s.ordering s.dims : Except (Fault K) _) = .ok s.dims.entries := by
  rw [hs.ordering_eq, Graph.sized_eq_ok (D := s.dim) (fun k d hd => by rw [dim, hd]; rfl)
    (fun k hk => hk), sizedBy_dim]

theorem known_of_over {g : Graph ℝ} (h : g.Over s.dims.entries) {k : Key}
    (hk : g.Mentions k) : k ∈ s.dims.keys := by
  obtain ⟨f, hf, hk⟩ := hk
  obtain ⟨e, he, rfl⟩ := List.mem_map.1 hk
  exact List.mem_map_of_mem (f := (·.1)) (h f hf e he)

private theorem consistent_of_over {cost constraints : Graph ℝ} (hcost : cost.Over s.dims.entries)
    (hcons : constraints.Over s.dims.entries) :
    Graph.Consistent cost constraints s.dims s.dims.keys s.dim where
  nodup := s.dims.nodup_keys
  cost_agrees := hcost.agrees
  constraints_agree := hcons.agrees
  known_within := fun k d hd => by rw [dim, hd]; rfl
  covers := fun _ h => h.elim (known_of_over hcost) (known_of_over hcons)
  sized := fun _ h => .inl h

private theorem dot_proximal {vectors : Keyed (List ℝ)} {e : Key × Nat} {f : Factor ℝ}
    (hf : proximalFactor vectors e = .ok f) (z : Point ℝ) : Vec.dot (f.values z) f.b =
      -(vectors.lookup e.1).elim 0 fun c => Vec.dot c (z.part e.1) := by
  obtain ⟨hentries, hb, hlen⟩ := proximalFactor_eq_ok hf
  have hvec : ((vectors.lookup e.1).getD (Vec.zeros e.2)).length = e.2 := by
    simpa [hb] using hlen
  rw [Factor.dot_values, hentries, List.map_singleton, List.sum_singleton, Matrix.mulVec_identity,
    hb, Vec.dot_neg_right, Vec.dot_comm, Vec.dot_fit_right hvec.le]
  cases vectors.lookup e.1 <;> simp

private theorem dot_self_proximal {vectors : Keyed (List ℝ)} {e : Key × Nat} {f : Factor ℝ}
    (hf : proximalFactor vectors e = .ok f) (z : Point ℝ) : Vec.dot (f.values z) (f.values z) =
      Vec.dot (Vec.fit e.2 (z.part e.1)) (Vec.fit e.2 (z.part e.1)) := by
  have hdot : ∀ r, Vec.dot (f.values z) r = Vec.dot (Vec.fit e.2 (z.part e.1)) r := by
    intro r
    rw [Factor.dot_values, (proximalFactor_eq_ok hf).1, List.map_singleton, List.sum_singleton,
      Matrix.mulVec_identity]
  rw [hdot, Vec.dot_comm, hdot]

/-- Along a point of the known keys the proximal cost changes by its squared length. -/
theorem WellFormed.sum_dot_self (hs : s.WellFormed) {vectors : Keyed (List ℝ)}
    (ho : s.objective = .linear vectors) {z : Point ℝ} (hz : Graph.Spans z s.dims.entries) :
    (s.cost.map fun f => Vec.dot (f.values z) (f.values z)).sum = Point.norm z * Point.norm z := by
  have hkeys : ∀ k ∈ z.keys, k ∈ s.dims.keys := by
    intro k hk
    obtain ⟨v, hv⟩ := (Keyed.mem_keys_iff _).1 hk
    exact List.mem_map_of_mem (f := (·.1)) (hz.length_mem k v hv)
  have hfactors : ∀ {l : List (Key × Nat)} {fs : Graph ℝ},
      List.Forall₂ (fun e f => proximalFactor vectors e = .ok f) l fs →
      (∀ e ∈ l, e ∈ s.dims.entries) →
      (fs.map fun f => Vec.dot (f.values z) (f.values z)).sum =
        ((l.map (·.1)).map fun k => (z.lookup k).elim 0 fun v => Vec.dot v v).sum := by
    intro l fs h hl
    induction h with
    | nil => rfl
    | @cons e f l fs hf _ ih =>
        have hpart : Vec.dot (f.values z) (f.values z) =
            (z.lookup e.1).elim 0 fun v => Vec.dot v v := by
          rw [dot_self_proximal hf]
          cases hv : z.lookup e.1 with
          | none =>
              rw [Point.part, hv, Option.getD_none, Vec.dot_fit_fit (Nat.zero_le _), Vec.dot_nil_left]
              rfl
          | some v =>
              have hmem := Keyed.lookup_of_mem (hz.length_mem _ _ hv)
              rw [Keyed.lookup_of_mem (hl e (.head _))] at hmem
              rw [Point.part_of_lookup hv, Vec.fit_eq_self (Option.some.inj hmem).symm]
              rfl
        simp only [List.map_cons, List.sum_cons, hpart, ih fun g hg => hl g (.tail _ hg)]
  rw [hfactors (hs.proximal vectors ho).1 fun _ h => h, Point.norm_mul_self]
  exact Keyed.sum_lookup z s.dims.nodup_keys hkeys fun _ v => Vec.dot v v

theorem WellFormed.length_vector (hs : s.WellFormed) {vectors : Keyed (List ℝ)}
    (ho : s.objective = .linear vectors) {k : Key} {c : List ℝ} (hc : vectors.lookup k = some c) :
    s.dims.lookup k = some c.length := by
  obtain ⟨hprox, hkeys⟩ := hs.proximal vectors ho
  obtain ⟨d, hd⟩ := (Keyed.mem_keys_iff _).1 (hkeys k ((Keyed.mem_keys_iff _).2 ⟨c, hc⟩))
  obtain ⟨f, _, hf⟩ := exists_of_mem_left hprox ((Keyed.lookup_iff _).1 hd)
  obtain ⟨_, hb, hlen⟩ := proximalFactor_eq_ok hf
  simp only [hc, hb, Option.getD_some, Vec.length_neg] at hlen
  rw [hd, hlen]

/-- The linear part of the proximal cost is the slope of the linear objective. -/
private theorem sum_dot_proximal (hs : s.WellFormed) {vectors : Keyed (List ℝ)}
    (ho : s.objective = .linear vectors) (x z : Point ℝ) :
    (s.cost.map fun f => Vec.dot (f.values z) f.b).sum = -s.slope x z := by
  obtain ⟨hprox, hkeys⟩ := hs.proximal vectors ho
  have hsum : ∀ {l : List (Key × Nat)} {fs : Graph ℝ},
      List.Forall₂ (fun e f => proximalFactor vectors e = .ok f) l fs →
      (fs.map fun f => Vec.dot (f.values z) f.b).sum =
        -((l.map (·.1)).map fun k =>
          (vectors.lookup k).elim 0 fun c => Vec.dot c (z.part k)).sum := by
    intro l fs h
    induction h with
    | nil => simp
    | cons hf _ ih =>
        simp only [List.map_cons, List.sum_cons, ih, dot_proximal hf]
        ring
  rw [hsum hprox, slope, ho]
  exact congrArg Neg.neg (Keyed.sum_lookup vectors s.dims.nodup_keys hkeys fun k c =>
    Vec.dot c (z.part k))

/-- The cost that the direction minimises; a linear objective is the same in all coordinates. -/
noncomputable def localCost (s : Solver ℝ) (x : Point ℝ) : Except (Fault ℝ) (Graph ℝ) :=
  match s.objective with
  | .quadratic => s.cost.shifted x
  | .linear _ => .ok s.cost

theorem direction_eq (kernels : Kernels ℝ) (s : Solver ℝ) (w : WorkingSet ℝ) (x : Point ℝ) :
    s.direction kernels w x = s.localCost x >>= fun cost => s.workingConstraints w x >>= fun cs =>
      cost.minimize kernels (Equality.graph cs) (some s.ordering) (some s.dims) false := by
  unfold direction localCost
  cases s.objective <;> rfl

theorem mem_ordering_of_direction {kernels : Kernels ℝ} {x p : Point ℝ}
    (h : s.direction kernels w x = .ok p) {k : Key} (hk : k ∈ p.keys) : k ∈ s.ordering := by
  rw [direction_eq] at h
  simp only [bind_eq_ok] at h
  obtain ⟨_, _, _, _, h⟩ := h
  exact Graph.mem_ordering_of_minimize h hk

private theorem localCost_eq_ok (hs : s.WellFormed) {x : Point ℝ} {cost : Graph ℝ}
    (h : s.localCost x = .ok cost) :
    cost.Over s.dims.entries ∧
      ∀ z p, Vec.dot (cost.values z) (Vec.sub (cost.values p) cost.rhs) =
        (s.cost.map fun f => Vec.dot (f.values z) (f.values p)).sum + s.slope x z := by
  unfold localCost at h
  cases ho : s.objective with
  | quadratic =>
      rw [ho] at h
      have hshift : Graph.Shifted x s.cost cost := mapM_eq_ok.1 h
      refine ⟨hshift.over hs.over_cost, fun z p => ?_⟩
      rw [Graph.dot_values_sub, hshift.sum_dot_defect, slope, ho, ← List.sum_map_add]
      congr 1
      exact List.map_congr_left fun f _ => Vec.dot_add_right (by simp) _
  | linear vectors =>
      rw [ho] at h
      obtain rfl := Except.ok.inj h
      refine ⟨hs.over_cost, fun z p => ?_⟩
      have hsplit : (s.cost.map fun f => Vec.dot (f.values z) (f.values p)).sum =
          (s.cost.map fun f => Vec.dot (f.values z) (f.defect p)).sum +
            (s.cost.map fun f => Vec.dot (f.values z) f.b).sum := by
        rw [← List.sum_map_add]
        congr 1
        refine List.map_congr_left fun f _ => ?_
        rw [Factor.defect, Vec.dot_sub_right (by simp [Factor.rows]), sub_add_cancel]
      rw [Graph.dot_values_sub, hsplit, sum_dot_proximal hs ho x]
      ring

/-- What the kernel answers minimises the cost around `x` under the constraints around `x`. -/
private theorem minimiser_of_direction {kernels : Kernels ℝ} (hk : kernels.ExactLeastSquares)
    (hs : s.WellFormed) (hw : w.factors = s.inequalities) {x p : Point ℝ}
    (h : s.direction kernels w x = .ok p) : ∃ cost cs, s.localCost x = .ok cost ∧
      Graph.Shifted x (Equality.graph (s.working w)) (Equality.graph cs) ∧
      Graph.Minimiser cost (Equality.graph cs) s.dims.entries p ∧
      Graph.Spans p s.dims.entries := by
  rw [direction_eq] at h
  simp only [bind_eq_ok] at h
  obtain ⟨cost, hcost, cs, hcs, h⟩ := h
  have hshift := shifted_of_workingConstraints hcs
  have hord : (some s.ordering).getD (firstAppearances (cost.keys ++ (Equality.graph cs).keys)) =
      s.dims.keys := hs.ordering_eq
  obtain ⟨hmin, hspans⟩ := Graph.minimiser_of_minimize hk (consistent_of_over
    (localCost_eq_ok hs hcost).1 (hshift.over (hs.over_working hw))) hord rfl h
  rw [sizedBy_dim] at hmin hspans
  exact ⟨cost, cs, hcost, hshift, hmin, hspans⟩

private theorem vanish_of_free {x z : Point ℝ} {cs : List (Equality ℝ)}
    (h : Graph.Shifted x (Equality.graph (s.working w)) (Equality.graph cs)) (hz : s.Free w z) :
    (Equality.graph cs).values z = Vec.zeros (Graph.rhs (Equality.graph cs)).length := by
  refine Graph.values_eq_zeros_iff.2 ((h.vanish_iff z).2 fun f hf => ?_)
  obtain ⟨c, hc, rfl⟩ := List.mem_map.1 hf
  exact hz c hc

/-- What the kernel answers is the direction. -/
theorem directs_of_direction {kernels : Kernels ℝ} (hk : kernels.ExactLeastSquares)
    (hs : s.WellFormed) (hw : w.factors = s.inequalities) {x p : Point ℝ}
    (h : s.direction kernels w x = .ok p) : s.Directs w x p := by
  obtain ⟨cost, cs, hcost, hshift, hmin, hspans⟩ := minimiser_of_direction hk hs hw h
  obtain ⟨_, hdot⟩ := localCost_eq_ok hs hcost
  refine ⟨fun z hz => ?_, fun z => ?_, hspans⟩
  · rw [← hdot]
    exact hmin.stationary z (vanish_of_free hshift hz)
  · have := hmin.compatible z
    rw [Graph.dot_values_sub, hshift.sum_dot_defect, Equality.graph, List.map_map] at this
    exact this

/-- The direction is orthogonal to all that neither the cost nor an enforced constraint notices. -/
theorem shortest_of_direction {kernels : Kernels ℝ} (hk : kernels.ExactLeastSquares)
    (hs : s.WellFormed) (hw : w.factors = s.inequalities) {x p : Point ℝ}
    (h : s.direction kernels w x = .ok p) {z : Point ℝ} (hz : s.Free w z)
    (hcost : ∀ f ∈ s.cost, f.values z = Vec.zeros f.rows) :
    Vec.dot (Point.flat s.dims.entries z) (Point.flat s.dims.entries p) = 0 := by
  obtain ⟨cost, cs, hlocal, hshift, hmin, _⟩ := minimiser_of_direction hk hs hw h
  refine hmin.shortest z (Graph.values_eq_zeros_iff.2 ?_) (vanish_of_free hshift hz)
  unfold localCost at hlocal
  split at hlocal
  · exact (Graph.Shifted.vanish_iff (mapM_eq_ok.1 hlocal) z).2 hcost
  · rwa [← Except.ok.inj hlocal]

private theorem direction_ok {kernels : Kernels ℝ} (hk : kernels.ExactLeastSquares)
    (hs : s.WellFormed) (hw : w.factors = s.inequalities) {x : Point ℝ} {cost : Graph ℝ}
    (hcost : s.localCost x = .ok cost) {cs : List (Equality ℝ)}
    (hcs : s.workingConstraints w x = .ok cs) : ∃ p, s.direction kernels w x = .ok p := by
  obtain ⟨hover, _⟩ := localCost_eq_ok hs hcost
  have hcons := (shifted_of_workingConstraints hcs).over (hs.over_working hw)
  have hord : (some s.ordering).getD (firstAppearances (cost.keys ++ (Equality.graph cs).keys)) =
      s.dims.keys := hs.ordering_eq
  rw [direction_eq, hcost, ok_bind, hcs, ok_bind]
  exact Graph.minimize_ok hk (consistent_of_over hover hcons) hord rfl

private theorem localCost_ok {x : Point ℝ} (hcost : ∀ f ∈ s.cost, f.Fits x) :
    ∃ cost, s.localCost x = .ok cost := by
  unfold localCost
  split
  · exact mapM_ok fun f hf => Factor.shifted_ok (hcost f hf)
  · exact ⟨_, rfl⟩

private theorem workingConstraints_ok {x : Point ℝ} (hcons : ∀ c ∈ s.working w, c.toFactor.Fits x) :
    ∃ cs, s.workingConstraints w x = .ok cs := by
  obtain ⟨es, hes⟩ := mapM_ok (l := s.equalities) fun c hc =>
    Equality.shifted_ok (hcons c (List.mem_append_left _ hc))
  obtain ⟨as, has⟩ := mapM_ok (l := w.asEqualities) fun c hc =>
    Equality.shifted_ok (hcons c (List.mem_append_right _ hc))
  rw [workingConstraints, hes, ok_bind, has, ok_bind]
  exact ⟨_, rfl⟩

theorem exists_direction {kernels : Kernels ℝ} (hk : kernels.ExactLeastSquares)
    (hs : s.WellFormed) (hw : w.factors = s.inequalities) {x : Point ℝ}
    (hcost : ∀ f ∈ s.cost, f.Fits x) (hcons : ∀ c ∈ s.working w, c.toFactor.Fits x) :
    ∃ p, s.direction kernels w x = .ok p ∧ s.Directs w x p := by
  obtain ⟨cost, hcost⟩ := localCost_ok hcost
  obtain ⟨cs, hcs⟩ := workingConstraints_ok hcons
  obtain ⟨p, hp⟩ := direction_ok hk hs hw hcost hcs
  exact ⟨p, hp, directs_of_direction hk hs hw hp⟩

/-- Where there is a direction, the enforced constraints can be evaluated, and a quadratic cost. -/
theorem fits_of_direction {kernels : Kernels ℝ} {x p : Point ℝ}
    (h : s.direction kernels w x = .ok p) : (∀ c ∈ s.working w, c.toFactor.Fits x) ∧
      (s.objective = .quadratic → ∀ f ∈ s.cost, f.Fits x) := by
  rw [direction_eq] at h
  simp only [bind_eq_ok] at h
  obtain ⟨cost, hcost, cs, hcs, _⟩ := h
  constructor
  · intro c hc
    obtain ⟨f, _, hf⟩ := exists_of_mem_left (shifted_of_workingConstraints hcs)
      (List.mem_map_of_mem hc)
    exact (Factor.shifted_eq_ok _ hf).1
  · intro ho f hf
    rw [localCost, ho] at hcost
    obtain ⟨g, _, hg⟩ := exists_of_mem_left (mapM_eq_ok.1 hcost) hf
    exact (Factor.shifted_eq_ok _ hg).1

/-- Where there is a direction, there is one with fewer constraints enforced. -/
theorem exists_direction_of_subset {kernels : Kernels ℝ} (hk : kernels.ExactLeastSquares)
    (hs : s.WellFormed) {x p : Point ℝ} (h : s.direction kernels w x = .ok p) {w' : WorkingSet ℝ}
    (hw' : w'.factors = s.inequalities) (hsub : s.working w' ⊆ s.working w) :
    ∃ q, s.direction kernels w' x = .ok q := by
  obtain ⟨cs, hcs⟩ := workingConstraints_ok fun c hc => (fits_of_direction h).1 c (hsub hc)
  rw [direction_eq] at h
  simp only [bind_eq_ok] at h
  obtain ⟨cost, hcost, _⟩ := h
  exact direction_ok hk hs hw' hcost hcs

theorem direction_eq_error {kernels : Kernels ℝ} (hk : kernels.ExactLeastSquares)
    (hs : s.WellFormed) (hw : w.factors = s.inequalities) {x : Point ℝ} {e : Fault ℝ}
    (h : s.direction kernels w x = .error e) : ∃ c, e = .dimension c := by
  have heq := direction_eq kernels s w x
  rw [h] at heq
  rcases bind_eq_error.1 heq.symm with heq | ⟨cost, hcost, heq⟩
  · unfold localCost at heq
    split at heq
    · obtain ⟨f, _, heq⟩ := mapM_eq_error heq
      exact Factor.shifted_eq_error heq
    · cases heq
  · rcases bind_eq_error.1 heq with heq | ⟨cs, hcs, _⟩
    · exact workingConstraints_eq_error heq
    · obtain ⟨p, hp⟩ := direction_ok hk hs hw hcost hcs
      rw [h] at hp
      cases hp

/-! ## What a direction keeps -/

/-- Where all enforced constraints are tight, none of them changes along the direction. -/
theorem Directs.free {x p : Point ℝ} (h : s.Directs w x p)
    (htight : ∀ c ∈ s.working w, c.toFactor.defect x = Vec.zeros c.toFactor.rows) : s.Free w p := by
  have hsum := h.compatible p
  rw [List.map_congr_left fun c hc => by
    rw [htight c hc, Vec.add_zeros (c.toFactor.length_values p)]] at hsum
  intro c hc
  simpa using Vec.eq_zeros_of_sum_dot_self hsum c hc

theorem Directs.slope_eq_zero {x p : Point ℝ} (h : s.Directs w x p) (hzero : Point.norm p = 0)
    {z : Point ℝ} (hz : s.Free w z) : s.slope x z = 0 := by
  have hstat := h.stationary z hz
  rwa [List.sum_eq_zero, zero_add] at hstat
  intro a ha
  obtain ⟨f, _, rfl⟩ := List.mem_map.1 ha
  rw [Factor.values_eq_zeros_of_norm hzero, Vec.dot_zeros_right]

end Solver

end ActiveSet
