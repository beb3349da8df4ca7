import ActiveSet.Proofs.Descent
import ActiveSet.Proofs.Multipliers

/-!
# Gradients

The gradient of a cost at one key is a sum over the factors that mention the key, or the vector that
a linear cost has there. All keys together give the rate at which the objective changes.
-/

namespace ActiveSet

namespace Vec

/-- The sum of vectors of length `d`. -/
noncomputable def sum (d : Nat) (vs : List (List ℝ)) : List ℝ := vs.foldr add (zeros d)

variable {d : Nat} {vs : List (List ℝ)}

theorem length_sum (h : ∀ v ∈ vs, v.length = d) : (sum d vs).length = d := by
  induction vs with
  | nil => exact length_zeros d
  | cons v vs ih =>
      have hrest := ih fun w hw => h w (.tail _ hw)
      rw [sum] at hrest
      rw [sum, List.foldr_cons, length_add, hrest, h v (.head _), min_self]

theorem dot_sum (h : ∀ v ∈ vs, v.length = d) (u : List ℝ) :
    dot u (sum d vs) = (vs.map fun v => dot u v).sum := by
  induction vs with
  | nil => exact dot_zeros_right ..
  | cons v vs ih =>
      have hvs : ∀ w ∈ vs, w.length = d := fun w hw => h w (.tail _ hw)
      have hlen : v.length = (sum d vs).length := (h v (.head _)).trans (length_sum hvs).symm
      rw [List.map_cons, List.sum_cons, ← ih hvs, ← dot_add_right hlen]
      rfl

end Vec

/-! ## Transposed blocks -/

/-- The product `Aᵀ r` with the block `A` that a factor has at `k`, if it has one. -/
noncomputable def Factor.adjoint (f : Factor ℝ) (k : Key) (r : List ℝ) : Option (List ℝ) :=
  (f.terms.lookup k).map fun A => A.transpose.mulVec r

section Adjoint

variable {α : Type} {l : List α} {F : α → Factor ℝ} {r : α → List ℝ} {k : Key} {d : Nat}

private theorem length_adjoint (hd : ∀ a ∈ l, ∀ A, (F a).terms.lookup k = some A → A.cols = d) :
    ∀ v ∈ l.filterMap fun a => (F a).adjoint k (r a), v.length = d := by
  intro v hv
  obtain ⟨a, ha, hv⟩ := List.mem_filterMap.1 hv
  obtain ⟨A, hA, rfl⟩ := Option.map_eq_some_iff.1 hv
  rw [Matrix.length_mulVec, Matrix.height_transpose, hd a ha A hA]

theorem length_sum_adjoint (hd : ∀ a ∈ l, ∀ A, (F a).terms.lookup k = some A → A.cols = d) :
    (Vec.sum d (l.filterMap fun a => (F a).adjoint k (r a))).length = d :=
  Vec.length_sum (length_adjoint hd)

theorem dot_sum_adjoint (hd : ∀ a ∈ l, ∀ A, (F a).terms.lookup k = some A → A.cols = d)
    (v : List ℝ) : Vec.dot v (Vec.sum d (l.filterMap fun a => (F a).adjoint k (r a))) =
      (l.map fun a => ((F a).terms.lookup k).elim 0 fun A => Vec.dot (A.mulVec v) (r a)).sum := by
  rw [Vec.dot_sum (length_adjoint hd)]
  clear hd
  induction l with
  | nil => rfl
  | cons a l ih =>
      rw [List.map_cons, List.sum_cons, ← ih, List.filterMap_cons, Factor.adjoint]
      cases (F a).terms.lookup k with
      | none => rw [Option.map_none, Option.elim_none, zero_add]
      | some A =>
          rw [Option.map_some, List.map_cons, List.sum_cons, Vec.dot_comm v,
            Matrix.dot_mulVec_transpose, Vec.dot_comm, Option.elim_some]

end Adjoint

/-! ## The gradient of a graph -/

namespace Graph

variable {g : Graph ℝ} {x : Point ℝ} {k : Key}

private theorem mapM_gradient (hfits : ∀ f ∈ g, f.Fits x) :
    ((g.filter fun f => f.mentions k).mapM fun f => f.gradient k x) =
      .ok (g.filterMap fun f => f.adjoint k (f.defect x)) := by
  induction g with
  | nil => rfl
  | cons f g ih =>
      obtain ⟨hf, hg⟩ := List.forall_mem_cons.1 hfits
      rw [List.filter_cons, List.filterMap_cons]
      cases hk : f.terms.lookup k with
      | none =>
          rw [if_neg (by simp [Factor.mentions, Keyed.contains, hk]), ih hg]
          simp [Factor.adjoint, hk]
      | some A =>
          have hgradient : f.gradient k x = .ok (A.transpose.mulVec (f.defect x)) := by
            rw [Factor.gradient, Factor.block, (Keyed.get_eq_ok_iff _).2 hk, ok_bind,
              f.residual_eq_ok.2 ⟨hf, rfl⟩]
            rfl
          rw [if_pos (by simp [Factor.mentions, Keyed.contains, hk]), List.mapM_cons, hgradient,
            ok_bind, ih hg]
          simp [Factor.adjoint, hk, ok_bind, pure, Except.pure]

theorem gradient_eq (hfits : ∀ f ∈ g, f.Fits x) (k : Key) :
    g.gradient k x = sumVectors (g.filterMap fun f => f.adjoint k (f.defect x)) := by
  rw [gradient, mapM_gradient hfits, ok_bind]

private theorem foldl_add {d : Nat} {v : List ℝ} {vs : List (List ℝ)} (hv : v.length = d)
    (hvs : ∀ w ∈ vs, w.length = d) : vs.foldl Vec.add v = Vec.add v (Vec.sum d vs) := by
  induction vs generalizing v with
  | nil => exact (Vec.add_zeros hv).symm
  | cons w vs ih =>
      obtain ⟨hw, hvs⟩ := List.forall_mem_cons.1 hvs
      rw [List.foldl_cons, ih (by simp [hv, hw]) hvs, Vec.add_assoc']
      rfl

theorem sumVectors_ok {d : Nat} {vs : List (List ℝ)} (h : ∀ v ∈ vs, v.length = d) (hne : vs ≠ []) :
    sumVectors vs = .ok (Vec.sum d vs) := by
  cases vs with
  | nil => exact absurd rfl hne
  | cons v vs =>
      obtain ⟨hv, hvs⟩ := List.forall_mem_cons.1 h
      rw [sumVectors, if_pos, foldl_add hv hvs]
      · rfl
      · simpa [hv] using hvs

/-- The gradient at a key is the sum of the gradients of the factors that mention it. -/
theorem gradient_of_mentions {d : Nat} (hfits : ∀ f ∈ g, f.Fits x)
    (hd : ∀ f ∈ g, ∀ A, f.terms.lookup k = some A → A.cols = d) (hk : g.Mentions k) :
    g.gradient k x = .ok (Vec.sum d (g.filterMap fun f => f.adjoint k (f.defect x))) := by
  rw [gradient_eq hfits]
  refine sumVectors_ok (length_adjoint (F := id) hd) ?_
  obtain ⟨f, hf, hk⟩ := hk
  obtain ⟨A, hA⟩ := (Keyed.mem_keys_iff _).1 hk
  exact List.ne_nil_of_mem (List.mem_filterMap.2 ⟨f, hf, by rw [Factor.adjoint, hA]; rfl⟩)

theorem gradient_of_not_mentions (hfits : ∀ f ∈ g, f.Fits x) (hk : ¬g.Mentions k) :
    g.gradient k x = .ok [] := by
  have hnone : (g.filterMap fun f => f.adjoint k (f.defect x)) = [] := by
    refine List.filterMap_eq_nil_iff.2 fun f hf => ?_
    rw [Factor.adjoint, (Keyed.lookup_eq_none_iff _).2 fun h => hk ⟨f, hf, h⟩]
    rfl
  rw [gradient_eq hfits, hnone]
  rfl

theorem gradient_ok {D : Key → Nat} (hfits : ∀ f ∈ g, f.Fits x) (hD : g.Agrees D) (k : Key) :
    ∃ v, g.gradient k x = .ok v := by
  have hcols : ∀ f ∈ g, ∀ A, f.terms.lookup k = some A → A.cols = D k :=
    fun f hf A hA => hD f hf (k, A) ((Keyed.lookup_iff _).1 hA)
  by_cases hk : g.Mentions k
  · exact ⟨_, gradient_of_mentions hfits hcols hk⟩
  · exact ⟨[], gradient_of_not_mentions hfits hk⟩

end Graph

/-! ## The gradient of a program -/

/--
The gradient of a cost at `x` in the coordinates of `k`, of which there are `d`: the sum of all
`Aᵀ (A x - b)`, or the vector of a linear cost. It is zero where the cost does not mention `k`.
-/
noncomputable def Cost.gradient (c : Cost ℝ) (x : Point ℝ) (k : Key) (d : Nat) : List ℝ :=
  match c with
  | .quadratic factors => Vec.sum d (factors.filterMap fun f => f.adjoint k (f.defect x))
  | .linear vectors => (vectors.lookup k).getD (Vec.zeros d)

/-- The rate at which the objective changes at `x` along `z`. -/
noncomputable def Problem.rate (p : Problem ℝ) (x z : Point ℝ) : ℝ :=
  (z.entries.map fun e => Vec.dot e.2 (p.cost.gradient x e.1 e.2.length)).sum

namespace Solver

variable {settings : Settings ℝ} {p : Problem ℝ} {s : Solver ℝ}

/-- The part of the slope at a key is what the gradient says. -/
theorem slopeAt_eq_dot (hs : ofProblem settings p = .ok s) {k : Key} {d : Nat}
    (hk : s.dims.lookup k = some d) (x : Point ℝ) : (p.cost.gradient x k d).length = d ∧
      ∀ v, s.slopeAt x k v = Vec.dot v (p.cost.gradient x k d) := by
  have hmade := madeFrom_ofProblem hs
  have hwf := hmade.wellFormed
  unfold Cost.gradient slopeAt
  cases hc : p.cost with
  | quadratic factors =>
      have hcols : ∀ f ∈ factors, ∀ A, f.terms.lookup k = some A → A.cols = d := by
        intro f hf A hA
        have hmem := hwf.over_cost f (cost_of_quadratic hc hs ▸ hf) (k, A) ((Keyed.lookup_iff _).1 hA)
        exact Option.some.inj ((Keyed.lookup_of_mem hmem).symm.trans hk)
      rw [objective_of_quadratic hc hs, cost_of_quadratic hc hs]
      exact ⟨length_sum_adjoint hcols, fun v => (dot_sum_adjoint hcols v).symm⟩
  | linear vectors =>
      rw [hmade.linear_eq vectors hc]
      dsimp only
      cases hv : vectors.lookup k with
      | none => exact ⟨Vec.length_zeros d, fun v => (Vec.dot_zeros_right ..).symm⟩
      | some c =>
          have hlen := hwf.length_vector (hmade.linear_eq vectors hc) hv
          exact ⟨Option.some.inj (hlen.symm.trans hk), fun v => Vec.dot_comm c v⟩

theorem slope_eq_rate (hs : ofProblem settings p = .ok s) {z : Point ℝ}
    (hz : Graph.Spans z s.dims.entries) (x : Point ℝ) : s.slope x z = p.rate x z := by
  have hmade := madeFrom_ofProblem hs
  have hlookup : ∀ k v, z.lookup k = some v → s.dims.lookup k = some v.length := fun k v hv =>
    Keyed.lookup_of_mem (hz.length_mem k v hv)
  have hkeys : ∀ k ∈ z.keys, k ∈ s.dims.keys := by
    intro k hk
    obtain ⟨v, hv⟩ := (Keyed.mem_keys_iff _).1 hk
    exact (Keyed.mem_keys_iff _).2 ⟨_, hlookup k v hv⟩
  rw [slope_eq_sum hmade.wellFormed, Problem.rate, ← Keyed.sum_lookup z s.dims.nodup_keys hkeys
    fun k v => Vec.dot v (p.cost.gradient x k v.length)]
  congr 1
  refine List.map_congr_left fun k _ => ?_
  cases hv : z.lookup k with
  | none =>
      rw [Point.part, hv]
      exact slopeAt_nil s x k
  | some v =>
      rw [Point.part_of_lookup hv]
      exact (slopeAt_eq_dot hs (hlookup k v hv) x).2 v

/-- Along a step the objective is a parabola, and the rate is its slope at the start. -/
theorem objective_step (hs : ofProblem settings p = .ok s) {x d y : Point ℝ}
    (hd : Graph.Spans d s.dims.entries) (hne : Point.norm d ≠ 0) {t : ℝ}
    (h : Point.add x (Point.scale t d) = .ok y) : p.objective x = .ok (s.amount x) ∧
      p.objective y = .ok (s.amount x + t * p.rate x d + t ^ 2 / 2 * s.bend d d) := by
  have hmade := madeFrom_ofProblem hs
  obtain ⟨hx, hy⟩ := measures_of_add hmade.wellFormed hd hne h
  rw [← hmade.value_eq, ← hmade.value_eq, ← slope_eq_rate hs hd, ← amount_step h]
  exact ⟨value_eq_ok.2 ⟨hx, rfl⟩, value_eq_ok.2 ⟨hy, rfl⟩⟩

end Solver

end ActiveSet
