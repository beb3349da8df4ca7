import ActiveSet.Proofs.Multipliers
import ActiveSet.Proofs.Reordering

/-!
# Singular systems

A minimiser that has to be unique is refused exactly where it is not: where some point other than
zero is seen by no row, or where the rows of the constraints depend on each other. For multipliers
that means that the dual graph leaves them open.
-/

namespace ActiveSet

namespace Graph

variable {g cost constraints : Graph ℝ} {ks : List Key} {D : Key → Nat} {known : Keyed Nat}

/-! ## Points that no row sees -/

/-- A point over the keys, other than zero, that every row of the graph maps to zero. -/
structure Unseen (g : Graph ℝ) (ks : List Key) (D : Key → Nat) (z : Point ℝ) : Prop where
  spans : z.Over ks D
  ne_zero : ∃ k ∈ ks, z.part k ≠ Vec.zeros (D k)
  vanishes : ∀ f ∈ g, f.product z = .ok (Vec.zeros f.rows)

theorem over_ofFlat (hks : ks.Nodup) {v : List ℝ} (hv : v.length = Point.totalDim (sizedBy ks D)) :
    (Point.ofFlat (sizedBy ks D) v).Over ks D := by
  have hn : ((sizedBy ks D).map (·.1)).Nodup := by rwa [keys_sizedBy]
  constructor
  · intro k
    rw [Point.keys_ofFlat hn, keys_sizedBy]
  · intro k u hu
    obtain ⟨j, _, hj⟩ := List.mem_map.1 (Point.length_lookup_ofFlat hn hv hu)
    obtain ⟨rfl, hlen⟩ := Prod.mk.inj hj
    exact hlen.symm

theorem flat_eq_zeros_of_over {z : Point ℝ} (hz : z.Over ks D) :
    Point.flat (sizedBy ks D) z = Vec.zeros (Point.totalDim (sizedBy ks D)) ↔
      ∀ k ∈ ks, z.part k = Vec.zeros (D k) := by
  rw [Point.flat_eq_zeros_iff, sizedBy, List.forall_mem_map]
  refine forall₂_congr fun k hk => ?_
  rw [Vec.fit_eq_self (hz.length_part hk)]

theorem exists_unseen_iff (hks : ks.Nodup) (hg : g.Agrees D) (hover : g.Over (sizedBy ks D)) :
    (∃ z, g.Unseen ks D z) ↔ ¬ g.FullRank (sizedBy ks D) := by
  have hn : ((sizedBy ks D).map (·.1)).Nodup := by rwa [keys_sizedBy]
  constructor
  · rintro ⟨z, hz, ⟨k, hk, hne⟩, hvanish⟩ hfull
    have hvalues : g.values z = Vec.zeros g.rhs.length := values_eq_zeros_iff.2 fun f hf =>
      ((f.product_eq_ok).1 (hvanish f hf)).2.symm
    exact hne ((flat_eq_zeros_of_over hz).1 (hfull z hvalues) k hk)
  · intro hfull
    obtain ⟨z, hz⟩ := not_forall.1 hfull
    obtain ⟨hvalues, hne⟩ := Classical.not_imp.1 hz
    have hlen := Point.length_flat (sizedBy ks D) z
    have hflat := Point.flat_ofFlat hn hlen
    -- Laid out and read back, the point is one over the keys, with the same values.
    have hzover := over_ofFlat hks hlen
    refine ⟨_, hzover, ?_, fun f hf => ?_⟩
    · by_contra hzero
      refine hne (hflat ▸ (flat_eq_zeros_of_over hzover).2 fun k hk => ?_)
      by_contra hpart
      exact hzero ⟨k, hk, hpart⟩
    · rw [← LinearSystem.mulVec_ofSized hn hover, ← hflat,
        LinearSystem.mulVec_ofSized hn hover, values_eq_zeros_iff] at hvalues
      exact f.product_eq_ok.2 ⟨hzover.fits hg hf, (hvalues f hf).symm⟩

theorem Consistent.exists_unseen_iff (h : Consistent cost constraints known ks D) :
    (∃ z, Unseen (cost ++ constraints) ks D z) ↔
      ¬ FullRank (cost ++ constraints) (sizedBy ks D) := by
  apply Graph.exists_unseen_iff h.nodup
  · exact List.forall_mem_append.2 ⟨h.cost_agrees, h.constraints_agree⟩
  · exact List.forall_mem_append.2 ⟨h.over_cost, h.over_constraints⟩

/-- Constraints without a row map every point to zero. -/
theorem Consistent.unseen_append_iff (h : Consistent cost constraints known ks D)
    (hrows : constraints.rhs = []) {z : Point ℝ} :
    Unseen (cost ++ constraints) ks D z ↔ cost.Unseen ks D z := by
  constructor
  · rintro ⟨hover, hne, hvanish⟩
    exact ⟨hover, hne, (List.forall_mem_append.1 hvanish).1⟩
  · rintro ⟨hover, hne, hvanish⟩
    refine ⟨hover, hne, List.forall_mem_append.2 ⟨hvanish, fun f hf => ?_⟩⟩
    have hb : f.b = [] := List.flatMap_eq_nil_iff.1 hrows f hf
    have hzero : f.rows = 0 := by rw [Factor.rows, hb, List.length_nil]
    refine f.product_eq_ok.2 ⟨hover.fits h.constraints_agree hf, ?_⟩
    rw [hzero]
    exact (List.length_eq_zero_iff.1 ((f.length_values z).trans hzero)).symm

/-! ## Graphs that determine their solution -/

/-- A point over the keys of the graph that no point has less error than. -/
structure Solution (g : Graph ℝ) (p : Point ℝ) : Prop where
  keys_iff : ∀ k, k ∈ p.keys ↔ g.Mentions k
  least : ∃ a, g.error p = .ok a ∧ ∀ q b, g.error q = .ok b → a ≤ b

def Determined (g : Graph ℝ) : Prop := ∀ p q, g.Solution p → g.Solution q → p.Same q

section Determined

variable {p q : Point ℝ}

theorem Solution.fits (hp : g.Solution p) : ∀ f ∈ g, f.Fits p := by
  obtain ⟨a, ha, _⟩ := hp.least
  exact (error_eq_ok.1 ha).1

theorem Solution.agrees (hp : g.Solution p) : g.Agrees fun k => (p.part k).length := by
  intro f hf e he
  obtain ⟨v, hv⟩ := (Keyed.mem_keys_iff p).1
    ((hp.keys_iff e.1).2 ⟨f, hf, List.mem_map_of_mem (f := (·.1)) he⟩)
  change e.2.cols = (p.part e.1).length
  rw [Point.part_of_lookup hv, hp.fits f hf e he v hv]

theorem Solution.over (hp : g.Solution p) (hg : g.Agrees D) (hks : ∀ k, k ∈ ks ↔ g.Mentions k) :
    p.Over ks D := by
  refine ⟨fun k => (hp.keys_iff k).trans (hks k).symm, fun k v hv => ?_⟩
  obtain ⟨f, hf, hkf⟩ := (hp.keys_iff k).1 ((Keyed.mem_keys_iff p).2 ⟨v, hv⟩)
  obtain ⟨e, he, rfl⟩ := List.mem_map.1 hkf
  exact (hp.fits f hf e he v hv).trans (hg f hf e he)

theorem Solution.of_values (hp : g.Solution p) (hq : q.Over ks D) (hg : g.Agrees D)
    (hks : ∀ k, k ∈ ks ↔ g.Mentions k) (h : ∀ f ∈ g, f.values q = f.values p) : g.Solution q := by
  obtain ⟨a, ha, hleast⟩ := hp.least
  refine ⟨fun k => (hq.keys_iff k).trans (hks k), a, ?_, hleast⟩
  refine error_eq_ok.2 ⟨fun f hf => hq.fits hg hf, (error_eq_ok.1 ha).2.trans ?_⟩
  congr 1
  refine List.map_congr_left fun f hf => ?_
  rw [Factor.defect, Factor.defect, h f hf]

theorem solution_of_minimiser (h : Consistent g [] known ks D)
    (hks : ∀ k, k ∈ ks ↔ g.Mentions k) (hmin : Minimiser g [] (sizedBy ks D) p)
    (hp : p.Over ks D) : g.Solution p := by
  refine ⟨fun k => (hp.keys_iff k).trans (hks k), _, error_eq_ok.2
    ⟨fun f hf => hp.fits h.cost_agrees hf, rfl⟩, fun q b hb => ?_⟩
  exact (hmin.least h rfl rfl (error_eq_ok.2 ⟨fun f hf => hp.fits h.cost_agrees hf, rfl⟩) hb).1

theorem exists_minimiser {kernels : Kernels ℝ} (hk : kernels.ExactLeastSquares)
    (h : Consistent cost constraints known ks D) :
    ∃ p : Point ℝ, Minimiser cost constraints (sizedBy ks D) p ∧ p.Over ks D := by
  have hmin := minimises_toSolve hk cost constraints ks D
  exact ⟨_, .ofFlat h.nodup_sized h.over_cost h.over_constraints hmin,
    over_ofFlat h.nodup hmin.length_eq⟩

theorem lookup_along (hks : ks.Nodup) (x d : Point ℝ) (t : ℝ) {k : Key} (hk : k ∈ ks) :
    (Point.along (dimsBy ks D) x d t).lookup k =
      some (Vec.add (Vec.fit (D k) (x.part k)) (Vec.scale t (Vec.fit (D k) (d.part k)))) := by
  apply Point.lookup_along
  rw [Keyed.lookup_iff, entries_dimsBy hks]
  exact List.mem_map_of_mem (f := fun k => (k, D k)) hk

theorem over_along (hks : ks.Nodup) (x d : Point ℝ) (t : ℝ) :
    (Point.along (dimsBy ks D) x d t).Over ks D := by
  have hkeys : ∀ k, k ∈ (Point.along (dimsBy ks D) x d t).keys ↔ k ∈ ks := by
    intro k
    rw [Point.along, Point.tabulate, Keyed.mem_keys_ofList, Point.keys_tabulate, Keyed.keys,
      entries_dimsBy hks, keys_sizedBy]
  refine ⟨hkeys, fun k v hv => ?_⟩
  rw [lookup_along hks x d t ((hkeys k).1 ((Keyed.mem_keys_iff _).2 ⟨v, hv⟩))] at hv
  simp [← Option.some.inj hv]

/-- Where the rows tell all points from zero, what leads to another solution is zero. -/
theorem Solution.same_of_fullRank {m : Point ℝ} (h : Consistent g [] known ks D)
    (hks : ∀ k, k ∈ ks ↔ g.Mentions k) (hmin : Minimiser g [] (sizedBy ks D) m)
    (hm : m.Over ks D) (hfull : g.FullRank (sizedBy ks D)) (hp : g.Solution p) : p.Same m := by
  obtain ⟨a, ha, hleast⟩ := (solution_of_minimiser h hks hmin hm).least
  obtain ⟨b, hb, hleast'⟩ := hp.least
  have hover := hp.over h.cost_agrees hks
  have hzero := hfull _ ((hmin.least h rfl rfl ha hb).2
    (le_antisymm (hleast' m a ha) (hleast p b hb)))
  refine hm.lookup_congr hover fun k hk => ?_
  have hpart := (flat_eq_zeros_of_over (over_along h.nodup p m (-1))).1 hzero k hk
  rw [← Point.between, part_between h.nodup hm hover hk] at hpart
  exact Vec.eq_of_sub_eq_zeros ((hover.length_part hk).trans (hm.length_part hk).symm) hpart

theorem Solution.along {m : Point ℝ} (hm : g.Solution m) (h : Consistent g [] known ks D)
    (hks : ∀ k, k ∈ ks ↔ g.Mentions k) {z : Point ℝ}
    (hz : g.values z = Vec.zeros g.rhs.length) :
    g.Solution (Point.along (dimsBy ks D) m z 1) := by
  refine hm.of_values (over_along h.nodup m z 1) h.cost_agrees hks fun f hf => ?_
  rw [Factor.values_along (h.over_dimsBy.1 f hf), values_eq_zeros_iff.1 hz f hf, Vec.scale_zeros,
    Vec.add_zeros (f.length_values m)]

theorem determined_iff_fullRank {kernels : Kernels ℝ} (hk : kernels.ExactLeastSquares)
    (h : Consistent g [] known ks D) (hks : ∀ k, k ∈ ks ↔ g.Mentions k) :
    g.Determined ↔ g.FullRank (sizedBy ks D) := by
  obtain ⟨m, hmin, hm⟩ := exists_minimiser hk h
  have hsol := solution_of_minimiser h hks hmin hm
  constructor
  · intro hdet z hz
    have hsame := hdet _ _ (hsol.along h hks hz) hsol
    refine Point.flat_eq_zeros_iff.2 (List.forall_mem_map.2 fun k hk => ?_)
    have hpart := hsame k
    rw [lookup_along h.nodup m z 1 hk, hm.lookup_eq hk, Vec.fit_eq_self (hm.length_part hk),
      Vec.scale_one] at hpart
    have hzero := Vec.eq_zeros_of_add_eq_self
      ((hm.length_part hk).trans (Vec.length_fit ..).symm) (Option.some.inj hpart)
    rwa [Vec.length_fit] at hzero
  · intro hfull p q hp hq k
    rw [hp.same_of_fullRank h hks hmin hm hfull k, hq.same_of_fullRank h hks hmin hm hfull k]

end Determined

/-! ## Refusals -/

def Refused (outcome : Except (Fault ℝ) (Point ℝ)) : Prop :=
  ∃ n rank size, outcome = .error (.singular n rank size)

section Refused

variable {kernels : Kernels ℝ} {dims : Option (Keyed Nat)}

theorem consistent_order (hg : g.Agrees D) :
    Consistent g [] .empty (firstAppearances (g.keys ++ @keys ℝ [])) D where
  nodup := nodup_firstAppearances _
  cost_agrees := hg
  constraints_agree := List.forall_mem_nil _
  known_within := fun _ _ h => nomatch h
  covers := fun k hk => (Solver.mem_order g k).2 (hk.resolve_right fun ⟨_, hf, _⟩ => nomatch hf)
  sized := fun k hk => .inr (.inl ((Solver.mem_order g k).1 hk))

/-- Over the keys of the graph alone, what is refused is what the graph leaves open. -/
theorem refused_iff_not_determined (hk : kernels.ExactLeastSquares) (g : Graph ℝ) :
    Refused (minimize kernels g [] none none true) ↔ ¬ g.Determined := by
  by_cases hfit : ∃ D, Fitted g [] .empty D
  · obtain ⟨D, hg, _⟩ := hfit
    have h := consistent_order hg
    rw [determined_iff_fullRank hk h (Solver.mem_order g)]
    constructor
    · rintro ⟨_, _, _, hfail⟩ hfull
      obtain ⟨p, hp⟩ : ∃ p, minimize kernels g [] none none true = .ok p :=
        minimize_of_fullRank hk h rfl rfl hfull
      rw [hfail] at hp
      cases hp
    · exact fun hfull => minimize_of_not_fullRank hk h rfl rfl hfull
  · -- Factors that disagree on a dimension have neither a minimiser nor a solution.
    obtain ⟨c, hc⟩ : ∃ c, minimize kernels g [] none none true = .error (.dimension c) :=
      minimize_of_unfitted kernels none true hfit
    refine iff_of_false ?_ (not_not.2 fun p q hp _ => ?_)
    · rintro ⟨_, _, _, hfail⟩
      rw [hc] at hfail
      cases hfail
    · exact absurd ⟨_, hp.agrees, List.forall_mem_nil _, fun _ _ h => nomatch h⟩ hfit

/-- Minimising with a unique answer is refused exactly where a point other than zero is seen by no
row or where the rows of the constraints are dependent, and multipliers exactly where the dual graph
leaves them open. -/
theorem minimize_refused_iff (hk : kernels.ExactLeastSquares) :
    (∀ (cost constraints : Graph ℝ) (dims : Option (Keyed Nat)) (ks : List Key) (D : Key → Nat),
      Consistent cost constraints (dims.getD .empty) ks D → 0 < Point.totalDim (sizedBy ks D) →
      (Refused (minimize kernels cost constraints (some ks) dims true) ↔
        (∃ z, Unseen (cost ++ constraints) ks D z) ∨
          ¬ constraints.RowsIndependent (sizedBy ks D)) ∧
      (constraints.rhs = [] → (Refused (minimize kernels cost constraints (some ks) dims true) ↔
        ∃ z, cost.Unseen ks D z)) ∧
      (¬ Refused (minimize kernels cost constraints (some ks) dims true) →
        ∃ p, minimize kernels cost constraints (some ks) dims true = .ok p)) ∧
    ∀ (s : Solver ℝ) (w : WorkingSet ℝ) (x : Point ℝ) (g : Graph ℝ), s.dualGraph w x = .ok g →
      (Refused (s.multipliers kernels w x) ↔ ¬ g.Determined) := by
  refine ⟨fun cost constraints dims ks D h hdim => ?_, fun s w x g hg => ?_⟩
  · have hrefused : Refused (minimize kernels cost constraints (some ks) dims true) ↔
        (∃ z, Unseen (cost ++ constraints) ks D z) ∨
          ¬ constraints.RowsIndependent (sizedBy ks D) := by
      rw [h.exists_unseen_iff, ← not_and_or]
      exact (minimize_singular_iff hk h rfl rfl).trans (and_iff_right hdim.ne')
    refine ⟨hrefused, fun hrows => ?_, fun hnot => ?_⟩
    · have hindependent := rowsIndependent_of_rhs_eq_nil hrows (sizedBy ks D)
      rw [hrefused, or_iff_left (not_not.2 hindependent)]
      exact exists_congr fun z => h.unseen_append_iff hrows
    · have hord : (some ks).getD (firstAppearances (cost.keys ++ constraints.keys)) = ks := rfl
      obtain ⟨hok, hsingular⟩ := minimize_unique_eq hk h hord rfl
      exact hok (not_not.1 (mt hsingular hnot))
  · rw [Solver.multipliers, hg, ok_bind]
    exact refused_iff_not_determined hk g

end Refused

end Graph

namespace OneVariable

/-- No factor mentions the second key. -/
theorem unseen_spare : Graph.Unseen ([pull 5] ++ [pinned 1 3, pinned 2 6]) [key, spare] twoDims
    (Keyed.ofList [(key, [0]), (spare, [1, 0])]) := by
  have hn : ([(key, [(0 : ℝ)]), (spare, [1, 0])].map (·.1)).Nodup := by decide
  have hpart : Point.part (Keyed.ofList [(key, [(0 : ℝ)]), (spare, [1, 0])]) key = [0] :=
    Point.part_ofList hn (e := (key, [0])) (.head _)
  have hvanish : ∀ (f : Factor ℝ) (A : Matrix ℝ), f.terms.entries = [(key, A)] → A.cols = 1 →
      f.product (Keyed.ofList [(key, [0]), (spare, [1, 0])]) = .ok (Vec.zeros f.rows) := by
    intro f A hf hcols
    have hrows : A.height = f.rows := f.rows_eq (key, A) (hf ▸ .head _)
    refine f.product_eq_ok.2 ⟨Factor.fits_of_singleton hf rfl hcols.symm, ?_⟩
    rw [Factor.values_of_singleton hf, hpart, ← hrows]
    exact (Matrix.mulVec_zeros A 1).symm
  refine ⟨⟨fun k => Iff.rfl, fun k v hv => ?_⟩, ⟨spare, .tail _ (.head _), ?_⟩, ?_⟩
  · rcases List.mem_cons.1 ((Keyed.lookup_ofList hn).1 hv) with heq | hmem
    · obtain ⟨rfl, rfl⟩ := Prod.mk.inj heq
      rfl
    · obtain ⟨rfl, rfl⟩ := Prod.mk.inj (List.mem_singleton.1 hmem)
      rfl
  · rw [Point.part_ofList hn (e := (spare, [1, 0])) (.tail _ (.head _))]
    simp [twoDims, spare, key]
  · refine List.forall_mem_cons.2 ⟨hvanish _ _ rfl rfl, List.forall_mem_cons.2
      ⟨hvanish _ _ rfl rfl, List.forall_mem_singleton.2 (hvanish _ _ rfl rfl)⟩⟩

/-- The second key makes the first answer ambiguous; the multiplier at the bound is not. -/
theorem minimize_refused_pinned :
    Graph.Refused (Graph.minimize .exact [pull 5] [pinned 1 3, pinned 2 6] (some [key, spare])
      (some (.ofList [(spare, 2)])) true) ∧
    ∃ g, (nearestSolver settings 5 3).dualGraph (atBound 3).workingSet (point 3) = .ok g ∧
      g.Determined := by
  obtain ⟨hminimize, hmultipliers⟩ := Graph.minimize_refused_iff Kernels.exact_leastSquares
  have hdim : 0 < Point.totalDim (Graph.sizedBy [key, spare] twoDims) := by decide
  obtain ⟨g, hg⟩ : ∃ g, (nearestSolver settings 5 3).dualGraph (atBound 3).workingSet (point 3) =
      .ok g := ⟨_, rfl⟩
  refine ⟨(hminimize _ _ (some (.ofList [(spare, 2)])) _ _ consistent_pinned hdim).1.2
    (.inl ⟨_, unseen_spare⟩), g, hg, ?_⟩
  by_contra hopen
  obtain ⟨n, r, m, hfail⟩ := (hmultipliers _ _ _ g hg).2 hopen
  obtain ⟨duals, hduals, _⟩ := multipliers_atBound settings 5 3
  rw [hfail] at hduals
  cases hduals

end OneVariable

end ActiveSet
