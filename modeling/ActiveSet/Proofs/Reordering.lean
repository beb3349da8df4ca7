import ActiveSet.Proofs.Agreement
import ActiveSet.Proofs.Minimisers

/-!
# Minimising in another order

The order of the factors, of their blocks and of the keys decides which system is solved, but what a
minimiser satisfies does not mention it, and only one point satisfies all of that. So minimising
graphs that differ by an order alone has the same outcome.
-/

namespace ActiveSet

/-- The same blocks by key and the same right-hand side. -/
structure Factor.Alike (f g : Factor ℝ) : Prop where
  terms : f.terms.Same g.terms
  b_eq : f.b = g.b

namespace Factor.Alike

variable {f g : Factor ℝ}

theorem refl (f : Factor ℝ) : f.Alike f := ⟨.refl _, rfl⟩

theorem symm (h : f.Alike g) : g.Alike f := ⟨h.terms.symm, h.b_eq.symm⟩

theorem rows_eq (h : f.Alike g) : f.rows = g.rows := congrArg List.length h.b_eq

theorem values_eq (h : f.Alike g) (x : Point ℝ) : f.values x = g.values x := by
  have hrow : ∀ i, f.rowValue i x = g.rowValue i x := fun i =>
    (h.terms.perm_entries.map _).sum_eq
  simp only [values, h.rows_eq, hrow]

theorem defect_eq (h : f.Alike g) (x : Point ℝ) : f.defect x = g.defect x := by
  rw [defect, defect, h.values_eq, h.b_eq]

theorem isEmpty_eq (h : f.Alike g) : f.isEmpty = g.isEmpty := h.terms.perm_entries.isEmpty_eq

end Factor.Alike

theorem Rearranged.symm {α β : Type} {R : α → β → Prop} {l : List α} {r : List β}
    (h : Rearranged R l r) {S : β → α → Prop} (hS : ∀ a b, R a b → S b a) : Rearranged S r l := by
  obtain ⟨l', hl, hr⟩ := h
  obtain ⟨r', hr', hl'⟩ := List.perm_comp_forall₂ hl hr
  exact ⟨r', hl'.symm, (hr'.imp hS).flip⟩

namespace Graph

/-! ## Graphs in another order -/

section Rearranged

variable {g g' cost cost' constraints constraints' : Graph ℝ} {D : Key → Nat}
  {sized sized' : List (Key × Nat)}

private theorem agrees_of_rearranged (h : Rearranged Factor.Alike g g') (hg : g.Agrees D) :
    g'.Agrees D := by
  intro f' hf' e he
  obtain ⟨f, hf, halike⟩ := h.exists_of_mem_right hf'
  exact hg f hf e (halike.terms.perm_entries.mem_iff.2 he)

private theorem mentions_of_rearranged (h : Rearranged Factor.Alike g g') {k : Key}
    (hk : g.Mentions k) : g'.Mentions k := by
  obtain ⟨f, hf, hk⟩ := hk
  obtain ⟨f', hf', halike⟩ := h.exists_of_mem_left hf
  exact ⟨f', hf', halike.terms.mem_keys_iff.1 hk⟩

theorem rearranged_symm (h : Rearranged Factor.Alike g g') : Rearranged Factor.Alike g' g :=
  h.symm fun _ _ halike => halike.symm

theorem agrees_congr (h : Rearranged Factor.Alike g g') : g.Agrees D ↔ g'.Agrees D :=
  ⟨agrees_of_rearranged h, agrees_of_rearranged (rearranged_symm h)⟩

theorem mentions_congr (h : Rearranged Factor.Alike g g') {k : Key} :
    g.Mentions k ↔ g'.Mentions k :=
  ⟨mentions_of_rearranged h, mentions_of_rearranged (rearranged_symm h)⟩

theorem values_eq_zeros_congr (h : Rearranged Factor.Alike g g') {z : Point ℝ} :
    g.values z = Vec.zeros g.rhs.length ↔ g'.values z = Vec.zeros g'.rhs.length := by
  rw [values_eq_zeros_iff, values_eq_zeros_iff]
  constructor
  · intro hzero f' hf'
    obtain ⟨f, hf, halike⟩ := h.exists_of_mem_right hf'
    rw [← halike.values_eq, ← halike.rows_eq, hzero f hf]
  · intro hzero f hf
    obtain ⟨f', hf', halike⟩ := h.exists_of_mem_left hf
    rw [halike.values_eq, halike.rows_eq, hzero f' hf']

theorem dot_values_sub_congr (h : Rearranged Factor.Alike g g') (z p : Point ℝ) :
    Vec.dot (g.values z) (Vec.sub (g.values p) g.rhs) =
      Vec.dot (g'.values z) (Vec.sub (g'.values p) g'.rhs) := by
  rw [dot_values_sub, dot_values_sub]
  exact h.sum_map fun f f' halike => by rw [halike.values_eq, halike.defect_eq]

theorem dot_flat_congr (h : sized.Perm sized') (x y : Point ℝ) :
    Vec.dot (Point.flat sized x) (Point.flat sized y) =
      Vec.dot (Point.flat sized' x) (Point.flat sized' y) := by
  rw [Point.flat, Point.flat, Point.flat, Point.flat, Vec.dot_flatMap (by simp),
    Vec.dot_flatMap (by simp), (h.map _).sum_eq]

theorem totalDim_congr (h : sized.Perm sized') :
    Point.totalDim sized = Point.totalDim sized' := by
  have hsum : ∀ l : List (Key × Nat), Point.totalDim l = (l.map (·.2)).sum := by
    intro l
    induction l with
    | nil => rfl
    | cons e l ih => rw [Point.totalDim, ih, List.map_cons, List.sum_cons]
  rw [hsum, hsum, (h.map _).sum_eq]

theorem FullRank.of_rearranged (h : Rearranged Factor.Alike g g') (hsized : sized.Perm sized')
    (hg : g.FullRank sized) : g'.FullRank sized' := by
  intro z hz
  have hzero := Point.flat_eq_zeros_iff.1 (hg z ((values_eq_zeros_congr h).2 hz))
  exact Point.flat_eq_zeros_iff.2 fun e he => hzero e (hsized.mem_iff.2 he)

theorem Minimiser.of_rearranged (hcost : Rearranged Factor.Alike cost cost')
    (hcons : Rearranged Factor.Alike constraints constraints') (hsized : sized.Perm sized')
    {p : Point ℝ} (h : Minimiser cost constraints sized p) :
    Minimiser cost' constraints' sized' p where
  stationary z hz := by
    rw [← dot_values_sub_congr hcost]
    exact h.stationary z ((values_eq_zeros_congr hcons).2 hz)
  compatible z := by
    rw [← dot_values_sub_congr hcons]
    exact h.compatible z
  shortest z hz hz' := by
    rw [← dot_flat_congr hsized]
    exact h.shortest z ((values_eq_zeros_congr hcost).2 hz) ((values_eq_zeros_congr hcons).2 hz')

end Rearranged

/-! ## One minimiser -/

section Unique

variable {cost constraints : Graph ℝ} {known : Keyed Nat} {ks : List Key} {D : Key → Nat}
  {p q : Point ℝ}

/-- Where neither misfit pairs with what leads from one point to the other, nothing changes. -/
private theorem values_between_eq_zeros {g : Graph ℝ} {dims : Keyed Nat} (hg : g.Over dims.entries)
    (hp : Vec.dot (g.values (Point.between dims p q)) (Vec.sub (g.values p) g.rhs) = 0)
    (hq : Vec.dot (g.values (Point.between dims p q)) (Vec.sub (g.values q) g.rhs) = 0) :
    g.values (Point.between dims p q) = Vec.zeros g.rhs.length := by
  rw [dot_values_sub] at hp hq
  have hself : ∀ f ∈ g, Vec.dot (f.values (Point.between dims p q)) (f.defect q) =
      Vec.dot (f.values (Point.between dims p q)) (f.values (Point.between dims p q)) +
        Vec.dot (f.values (Point.between dims p q)) (f.defect p) := by
    intro f hf
    have hsub : f.values (Point.between dims p q) = Vec.sub (f.defect q) (f.defect p) := by
      rw [f.sub_defect, Factor.values_between (hg f hf)]
    conv_rhs => rw [hsub, Vec.dot_sub_right (by simp), ← hsub]
    rw [sub_add_cancel]
  rw [List.map_congr_left hself, List.sum_map_add, hp, add_zero] at hq
  refine values_eq_zeros_iff.2 fun f hf => ?_
  simpa using Vec.eq_zeros_of_sum_dot_self hq f hf

/-- Between two minimisers neither the constraints nor the cost change. -/
private theorem Minimiser.blind (h : Consistent cost constraints known ks D)
    (hp : Minimiser cost constraints (sizedBy ks D) p)
    (hq : Minimiser cost constraints (sizedBy ks D) q) :
    cost.values (Point.between (dimsBy ks D) p q) = Vec.zeros cost.rhs.length ∧
      constraints.values (Point.between (dimsBy ks D) p q) = Vec.zeros constraints.rhs.length := by
  have hcons := values_between_eq_zeros h.over_dimsBy.2 (hp.compatible _) (hq.compatible _)
  exact ⟨values_between_eq_zeros h.over_dimsBy.1 (hp.stationary _ hcons) (hq.stationary _ hcons),
    hcons⟩

/-- Two minimisers that differed would each be shorter than the other. -/
theorem Minimiser.same (h : Consistent cost constraints known ks D)
    (hp : Minimiser cost constraints (sizedBy ks D) p) (hover : p.Over ks D)
    (hq : Minimiser cost constraints (sizedBy ks D) q) (hover' : q.Over ks D) : p.Same q := by
  by_contra hne
  obtain ⟨k, hk⟩ := not_forall.1 hne
  obtain ⟨hcost, hcons⟩ := hp.blind h hq
  obtain ⟨hcost', hcons'⟩ := hq.blind h hp
  exact lt_asymm (hp.norm_lt h hover hover' hcost hcons ⟨k, Ne.symm hk⟩)
    (hq.norm_lt h hover' hover hcost' hcons' ⟨k, hk⟩)

end Unique

/-! ## Outcomes of minimising -/

section Outcomes

variable {kernels : Kernels ℝ} {cost constraints : Graph ℝ} {ordering : Option (List Key)}
  {dims : Option (Keyed Nat)} {unique : Bool} {ks : List Key} {D : Key → Nat}

/-- One dimension for each key that all data of a minimisation agree on. -/
def Fitted (cost constraints : Graph ℝ) (known : Keyed Nat) (D : Key → Nat) : Prop :=
  cost.Agrees D ∧ constraints.Agrees D ∧ known.Within D

private theorem over_of_dims {g : Graph ℝ} {m dims : Keyed Nat}
    (hm : (g.dims : Except (Fault ℝ) _) = .ok m)
    (hsub : ∀ e ∈ m.entries, dims.lookup e.1 = some e.2) : g.Over dims.entries :=
  over_of_mergeDims (fun f hf _ he => List.mem_flatMap.2 ⟨f, hf, Factor.mem_dims_entries he⟩) hm
    hsub

/-- Without such dimensions the data do not even merge. -/
theorem minimize_of_unfitted (kernels : Kernels ℝ) (ordering : Option (List Key))
    (unique : Bool) (h : ¬ ∃ D, Fitted cost constraints (dims.getD .empty) D) :
    ∃ c, minimize kernels cost constraints ordering dims unique = .error (.dimension c) := by
  unfold minimize
  cases h₁ : (cost.dims : Except (Fault ℝ) _) with
  | error e =>
      obtain ⟨c, rfl⟩ := Keyed.mergeDims_eq_error h₁
      exact ⟨c, rfl⟩
  | ok m₁ =>
      rw [ok_bind]
      cases h₂ : (constraints.dims : Except (Fault ℝ) _) with
      | error e =>
          obtain ⟨c, rfl⟩ := Keyed.mergeDims_eq_error h₂
          exact ⟨c, rfl⟩
      | ok m₂ =>
          rw [ok_bind]
          cases hm : (Keyed.mergeDims (dims.getD .empty) (m₁.entries ++ m₂.entries) :
              Except (Fault ℝ) _) with
          | error e =>
              obtain ⟨c, rfl⟩ := Keyed.mergeDims_eq_error hm
              exact ⟨c, rfl⟩
          | ok m =>
              obtain ⟨hkeep, hadd⟩ := Keyed.lookup_mergeDims hm
              refine absurd ⟨fun k => (m.lookup k).getD 0, ?_, ?_, fun k d hd => ?_⟩ h
              · exact (over_of_dims h₁ fun e he => hadd e (List.mem_append_left _ he)).agrees
              · exact (over_of_dims h₂ fun e he => hadd e (List.mem_append_right _ he)).agrees
              · exact (congrArg (Option.getD · 0) (hkeep k d hd)).symm

/-- Where the dimensions fit, stacking fails only for a key without a place in the ordering. -/
private theorem ofGraph_eq_error {g : Graph ℝ} {m : Keyed Nat} (hg : g.Agrees D) (hm : m.Within D)
    (hkeys : ∀ k, g.Mentions k → k ∈ m.keys) {sized : List (Key × Nat)}
    (hsized : (Point.sized ks m : Except (Fault ℝ) _) = .ok sized) {fault : Fault ℝ}
    (h : LinearSystem.ofGraph g ks m = .error fault) : ∃ k, fault = .missingKey k := by
  rw [LinearSystem.ofGraph, hsized, ok_bind] at h
  simp only [bind_eq_error, pure_ne_error, and_false, exists_false, or_false] at h
  obtain ⟨e, he, h⟩ := forM_eq_error h
  obtain ⟨f, hf, he⟩ := List.mem_flatMap.1 he
  obtain ⟨d, hd⟩ := (Keyed.mem_keys_iff _).1
    (hkeys e.1 ⟨f, hf, List.mem_map_of_mem (f := (·.1)) he⟩)
  have hcols : e.2.cols = d := (hg f hf e he).trans (hm _ _ hd).symm
  rw [LinearSystem.checkBlock, (Keyed.get_eq_ok_iff _).2 hd, ok_bind,
    if_neg (not_not.2 hcols)] at h
  change (if e.1 ∉ ks then (.error (.missingKey e.1) : Except (Fault ℝ) Unit) else .ok ()) = _ at h
  split at h
  · exact ⟨e.1, (Except.error.inj h).symm⟩
  · cases h

private theorem mem_of_ofGraph {g : Graph ℝ} {m : Keyed Nat} {s : LinearSystem ℝ}
    (h : LinearSystem.ofGraph g ks m = .ok s) {k : Key} (hk : g.Mentions k) : k ∈ ks := by
  obtain ⟨f, hf, hk⟩ := hk
  obtain ⟨e, he, rfl⟩ := List.mem_map.1 hk
  simp only [LinearSystem.ofGraph, bind_eq_ok] at h
  obtain ⟨_, _, _, hall, _⟩ := h
  have hcheck := eq_ok_of_forM hall e (List.mem_flatMap.2 ⟨f, hf, he⟩)
  rw [LinearSystem.checkBlock, bind_eq_ok] at hcheck
  obtain ⟨d, _, hcheck⟩ := hcheck
  by_contra hout
  rw [if_pos hout] at hcheck
  split at hcheck <;> cases hcheck

/-- A key outside the ordering is missed, unless there is no coordinate at all. -/
private theorem minimize_of_uncovered (kernels : Kernels ℝ) (unique : Bool)
    (h : Fitted cost constraints (dims.getD .empty) D)
    (hord : ordering.getD (firstAppearances (cost.keys ++ constraints.keys)) = ks)
    (hsized : ∀ k ∈ ks, k ∈ (dims.getD .empty).keys ∨ cost.Mentions k ∨ constraints.Mentions k)
    (hout : ¬ ∀ k, cost.Mentions k ∨ constraints.Mentions k → k ∈ ks) :
    (Point.totalDim (sizedBy ks D) = 0 →
      minimize kernels cost constraints ordering dims unique = .ok .empty) ∧
    (Point.totalDim (sizedBy ks D) ≠ 0 → ∃ k,
      minimize kernels cost constraints ordering dims unique = .error (.missingKey k)) := by
  obtain ⟨m₁, m₂, m, hm₁, hm₂, hm, hw, hkeys⟩ := exists_merged h.1 h.2.1 h.2.2
  have hks := sized_eq_ok (K := ℝ) hw fun k hk => (hkeys k).2 (hsized k hk)
  simp only [minimize, hm₁, hm₂, ok_bind, hm, hord]
  rw [hks, ok_bind]
  constructor
  · intro hdim
    exact if_pos hdim
  · intro hdim
    change ∃ k, (if Point.totalDim (sizedBy ks D) = 0 then _ else _) = _
    rw [if_neg hdim]
    cases hA : LinearSystem.ofGraph cost ks m with
    | error fault =>
        obtain ⟨k, rfl⟩ := ofGraph_eq_error h.1 hw (fun k hk => (hkeys k).2 (.inr (.inl hk))) hks hA
        exact ⟨k, rfl⟩
    | ok A =>
        rw [ok_bind]
        cases hC : LinearSystem.ofGraph constraints ks m with
        | error fault =>
            obtain ⟨k, rfl⟩ :=
              ofGraph_eq_error h.2.1 hw (fun k hk => (hkeys k).2 (.inr (.inr hk))) hks hC
            exact ⟨k, rfl⟩
        | ok C =>
            exact absurd (fun k hk => hk.elim (mem_of_ofGraph hA) (mem_of_ofGraph hC)) hout

private theorem minimize_of_totalDim_eq_zero (hk : kernels.ExactLeastSquares)
    (h : Consistent cost constraints (dims.getD .empty) ks D)
    (hord : ordering.getD (firstAppearances (cost.keys ++ constraints.keys)) = ks)
    (hdim : Point.totalDim (sizedBy ks D) = 0) :
    minimize kernels cost constraints ordering dims unique = .ok .empty := by
  rw [minimize_eq hk h hord rfl, if_pos hdim]

end Outcomes

section Matching

variable {kernels : Kernels ℝ} {cost cost' constraints constraints' : Graph ℝ}
  {ordering ordering' : Option (List Key)} {dims dims' : Option (Keyed Nat)} {unique : Bool}
  {ks ks' : List Key} {D : Key → Nat}

private theorem Fitted.of_rearranged (hcost : Rearranged Factor.Alike cost cost')
    (hcons : Rearranged Factor.Alike constraints constraints') {known known' : Keyed Nat}
    (hknown : known.Same known') (h : Fitted cost constraints known D) :
    Fitted cost' constraints' known' D :=
  ⟨(agrees_congr hcost).1 h.1, (agrees_congr hcons).1 h.2.1,
    fun k d hd => h.2.2 k d ((hknown k).trans hd)⟩

private theorem same_of_minimize (hk : kernels.ExactLeastSquares)
    (h : Consistent cost constraints (dims.getD .empty) ks D)
    (h' : Consistent cost' constraints' (dims'.getD .empty) ks' D)
    (hord : ordering.getD (firstAppearances (cost.keys ++ constraints.keys)) = ks)
    (hord' : ordering'.getD (firstAppearances (cost'.keys ++ constraints'.keys)) = ks')
    (hcost : Rearranged Factor.Alike cost cost')
    (hcons : Rearranged Factor.Alike constraints constraints') (hperm : ks.Perm ks')
    (hdim : Point.totalDim (sizedBy ks D) ≠ 0) {p p' : Point ℝ}
    (hp : minimize kernels cost constraints ordering dims unique = .ok p)
    (hp' : minimize kernels cost' constraints' ordering' dims' unique = .ok p') : p.Same p' := by
  have hsized : (sizedBy ks D).Perm (sizedBy ks' D) := hperm.map _
  obtain ⟨hmin, hspans⟩ := minimiser_of_minimize hk h hord rfl hp
  obtain ⟨hmin', hspans'⟩ := minimiser_of_minimize hk h' hord' rfl hp'
  have hover' := hspans'.over_of_dim (totalDim_congr hsized ▸ hdim)
  refine hmin.same h (hspans.over_of_dim hdim) (hmin'.of_rearranged
    (rearranged_symm hcost) (rearranged_symm hcons)
    hsized.symm) ⟨fun k => ?_, hover'.length_eq⟩
  rw [hover'.keys_iff, hperm.mem_iff]

private theorem minimize_matches_unique (hk : kernels.ExactLeastSquares)
    (h : Consistent cost [] (dims.getD .empty) ks D)
    (h' : Consistent cost' [] (dims'.getD .empty) ks' D)
    (hord : ordering.getD (firstAppearances (cost.keys ++ @keys ℝ [])) = ks)
    (hord' : ordering'.getD (firstAppearances (cost'.keys ++ @keys ℝ [])) = ks')
    (hcost : Rearranged Factor.Alike cost cost') (hperm : ks.Perm ks')
    (hdim : Point.totalDim (sizedBy ks D) ≠ 0) :
    Matches Keyed.Same (minimize kernels cost [] ordering dims true)
      (minimize kernels cost' [] ordering' dims' true) := by
  have hsized : (sizedBy ks D).Perm (sizedBy ks' D) := hperm.map _
  by_cases hfull : cost.FullRank (sizedBy ks D)
  · obtain ⟨p, hp⟩ := minimize_of_fullRank hk h hord rfl hfull
    obtain ⟨p', hp'⟩ := minimize_of_fullRank hk h' hord' rfl (hfull.of_rearranged hcost hsized)
    have hsame := same_of_minimize hk h h' hord hord' hcost (.of_perm Factor.Alike.refl (.refl []))
      hperm hdim hp hp'
    rw [hp, hp']
    exact .ok hsame
  · have hfull' : ¬ cost'.FullRank (sizedBy ks' D) := fun hfull' =>
      hfull (hfull'.of_rearranged (rearranged_symm hcost) hsized.symm)
    obtain ⟨n, r, m, hfail⟩ := minimize_of_not_fullRank hk h hord rfl hfull
    obtain ⟨n', r', m', hfail'⟩ := minimize_of_not_fullRank hk h' hord' rfl hfull'
    rw [hfail, hfail']
    exact .error (.singular ..)

private theorem minimize_matches_of_consistent (hk : kernels.ExactLeastSquares)
    (h : Consistent cost constraints (dims.getD .empty) ks D)
    (h' : Consistent cost' constraints' (dims'.getD .empty) ks' D)
    (hord : ordering.getD (firstAppearances (cost.keys ++ constraints.keys)) = ks)
    (hord' : ordering'.getD (firstAppearances (cost'.keys ++ constraints'.keys)) = ks')
    (hcost : Rearranged Factor.Alike cost cost')
    (hcons : Rearranged Factor.Alike constraints constraints') (hperm : ks.Perm ks')
    (hunique : unique = true → constraints = []) :
    Matches Keyed.Same (minimize kernels cost constraints ordering dims unique)
      (minimize kernels cost' constraints' ordering' dims' unique) := by
  by_cases hdim : Point.totalDim (sizedBy ks D) = 0
  · have hdim' : Point.totalDim (sizedBy ks' D) = 0 := totalDim_congr (hperm.map _) ▸ hdim
    rw [minimize_of_totalDim_eq_zero hk h hord hdim, minimize_of_totalDim_eq_zero hk h' hord' hdim']
    exact .ok (.refl _)
  · cases unique with
    | false =>
        obtain ⟨p, hp⟩ := minimize_ok hk h hord rfl
        obtain ⟨p', hp'⟩ := minimize_ok hk h' hord' rfl
        have hsame := same_of_minimize hk h h' hord hord' hcost hcons hperm hdim hp hp'
        rw [hp, hp']
        exact .ok hsame
    | true =>
        obtain rfl := hunique rfl
        obtain rfl : constraints' = [] := by
          refine List.eq_nil_iff_forall_not_mem.2 fun f hf => ?_
          obtain ⟨_, hf, _⟩ := hcons.exists_of_mem_right hf
          cases hf
        exact minimize_matches_unique hk h h' hord hord' hcost hperm hdim

/-- Minimising the same factors over the same keys in another order has the same outcome. -/
theorem minimize_matches (hk : kernels.ExactLeastSquares)
    (hcost : Rearranged Factor.Alike cost cost')
    (hcons : Rearranged Factor.Alike constraints constraints')
    (hknown : (dims.getD .empty).Same (dims'.getD .empty))
    (hord : ordering.getD (firstAppearances (cost.keys ++ constraints.keys)) = ks)
    (hord' : ordering'.getD (firstAppearances (cost'.keys ++ constraints'.keys)) = ks')
    (hperm : ks.Perm ks') (hnodup : ks.Nodup)
    (hsized : ∀ k ∈ ks, k ∈ (dims.getD .empty).keys ∨ cost.Mentions k ∨ constraints.Mentions k)
    (hunique : unique = true → constraints = []) :
    Matches Keyed.Same (minimize kernels cost constraints ordering dims unique)
      (minimize kernels cost' constraints' ordering' dims' unique) := by
  have hmentions : ∀ k, cost.Mentions k ∨ constraints.Mentions k ↔
      cost'.Mentions k ∨ constraints'.Mentions k := fun k =>
    or_congr (mentions_congr hcost) (mentions_congr hcons)
  have hsized' : ∀ k ∈ ks', k ∈ (dims'.getD .empty).keys ∨
      cost'.Mentions k ∨ constraints'.Mentions k := by
    intro k hk'
    rw [← hknown.mem_keys_iff, ← hmentions]
    exact hsized k (hperm.mem_iff.2 hk')
  by_cases hfit : ∃ D, Fitted cost constraints (dims.getD .empty) D
  · obtain ⟨D, hD⟩ := hfit
    have hD' := hD.of_rearranged hcost hcons hknown
    by_cases hcovers : ∀ k, cost.Mentions k ∨ constraints.Mentions k → k ∈ ks
    · exact minimize_matches_of_consistent hk
        ⟨hnodup, hD.1, hD.2.1, hD.2.2, hcovers, hsized⟩
        ⟨hperm.nodup_iff.1 hnodup, hD'.1, hD'.2.1, hD'.2.2, fun k hk' =>
          hperm.mem_iff.1 (hcovers k ((hmentions k).2 hk')), hsized'⟩
        hord hord' hcost hcons hperm hunique
    · have hcovers' : ¬ ∀ k, cost'.Mentions k ∨ constraints'.Mentions k → k ∈ ks' := fun h =>
        hcovers fun k hk => hperm.mem_iff.2 (h k ((hmentions k).1 hk))
      obtain ⟨hempty, hmissing⟩ := minimize_of_uncovered kernels unique hD hord hsized hcovers
      obtain ⟨hempty', hmissing'⟩ :=
        minimize_of_uncovered kernels unique hD' hord' hsized' hcovers'
      have hdims : Point.totalDim (sizedBy ks D) = Point.totalDim (sizedBy ks' D) :=
        totalDim_congr (hperm.map _)
      by_cases hdim : Point.totalDim (sizedBy ks D) = 0
      · rw [hempty hdim, hempty' (hdims ▸ hdim)]
        exact .ok (.refl _)
      · obtain ⟨k, hk⟩ := hmissing hdim
        obtain ⟨k', hk'⟩ := hmissing' (hdims ▸ hdim)
        rw [hk, hk']
        exact .error (.missingKey k k')
  · have hfit' : ¬ ∃ D, Fitted cost' constraints' (dims'.getD .empty) D := fun ⟨D, hD⟩ =>
      hfit ⟨D, hD.of_rearranged (rearranged_symm hcost)
        (rearranged_symm hcons) hknown.symm⟩
    obtain ⟨c, hc⟩ := minimize_of_unfitted kernels ordering unique hfit
    obtain ⟨c', hc'⟩ := minimize_of_unfitted kernels ordering' unique hfit'
    rw [hc, hc']
    exact .error (.dimension c c')

end Matching

end Graph

end ActiveSet
