import ActiveSet.Proofs.Factors
import ActiveSet.Proofs.LeastSquares

/-!
# Graphs as stacked systems

A stacked system applied to a point laid out over the same keys gives the values of the factors, one
behind the other. So what the kernel solves is the problem that the factors describe.
-/

namespace ActiveSet

/-! ## Stacking -/

namespace Graph

noncomputable def values (g : Graph ℝ) (x : Point ℝ) : List ℝ := g.flatMap fun f => f.values x

def rhs {K : Type} (g : Graph K) : List K := g.flatMap (·.b)

/-- Every block of every factor has a place among the sized keys, with its own width. -/
def Over {K : Type} (g : Graph K) (sized : List (Key × Nat)) : Prop :=
  ∀ f ∈ g, ∀ e ∈ f.terms.entries, (e.1, e.2.cols) ∈ sized

theorem over_of_mergeDims {K : Type} {g : Graph K} {added : List (Key × Nat)} {m dims : Keyed Nat}
    (hadd : ∀ f ∈ g, ∀ e ∈ f.terms.entries, (e.1, e.2.cols) ∈ added)
    (hm : (Keyed.mergeDims .empty added : Except (Fault K) _) = .ok m)
    (hsub : ∀ e ∈ m.entries, dims.lookup e.1 = some e.2) : g.Over dims.entries := by
  intro f hf e he
  have hlookup := (Keyed.lookup_mergeDims hm).2 _ (hadd f hf e he)
  exact (Keyed.lookup_iff dims).1 (hsub _ ((Keyed.lookup_iff m).1 hlookup))

end Graph

namespace LinearSystem

private theorem dot_factorRow_sum {f : Factor ℝ} (i : Nat) (x : Point ℝ) {sized : List (Key × Nat)}
    (hn : (sized.map (·.1)).Nodup)
    (hf : ∀ e ∈ sized, ∀ A, f.terms.lookup e.1 = some A → A.cols = e.2) :
    Vec.dot (factorRow f i sized) (Point.flat sized x) = ((sized.map (·.1)).map fun k =>
      (f.terms.lookup k).elim 0 fun A => Vec.dot (A.rows.getD i []) (x.part k)).sum := by
  induction sized with
  | nil => simp [factorRow]
  | cons e sized ih =>
      obtain ⟨k, d⟩ := e
      rw [List.map_cons, List.nodup_cons] at hn
      have hany : sized.any (·.1 = k) = false := by
        rw [List.any_eq_false]
        intro g hg hgk
        have hgk : g.1 = k := by simpa using hgk
        exact hn.1 (hgk ▸ List.mem_map_of_mem (f := (·.1)) hg)
      have ih := ih hn.2 fun e he => hf e (.tail _ he)
      simp only [Point.flat, List.flatMap_cons, factorRow] at ih ⊢
      rw [List.map_cons, List.map_cons, List.sum_cons, ← ih]
      cases hk : f.terms.lookup k with
      | none =>
          rw [Vec.dot_append (by simp), Vec.dot_zeros_left]
          rfl
      | some A =>
          have hrow : (A.rows.getD i []).length ≤ d :=
            (A.length_row i).trans (hf _ (.head _) A hk).le
          simp only [hany, Bool.false_eq_true, ↓reduceIte, Option.elim_some]
          rw [Vec.dot_append (by simp), Vec.dot_fit_fit hrow]

theorem dot_factorRow {f : Factor ℝ} (i : Nat) (x : Point ℝ) {sized : List (Key × Nat)}
    (hn : (sized.map (·.1)).Nodup) (hf : ∀ e ∈ f.terms.entries, (e.1, e.2.cols) ∈ sized) :
    Vec.dot (factorRow f i sized) (Point.flat sized x) = f.rowValue i x := by
  rw [dot_factorRow_sum i x hn, Keyed.sum_lookup f.terms hn]
  · rfl
  · intro k hk
    obtain ⟨A, hA⟩ := (Keyed.mem_keys_iff _).1 hk
    exact List.mem_map_of_mem (f := (·.1)) (hf (k, A) ((Keyed.lookup_iff _).1 hA))
  · intro e he A hA
    have hmem := hf (e.1, A) ((Keyed.lookup_iff _).1 hA)
    have hinj := List.inj_on_of_nodup_map hn hmem he rfl
    rw [← hinj]

theorem mulVec_ofSized {g : Graph ℝ} {sized : List (Key × Nat)} (hn : (sized.map (·.1)).Nodup)
    (hg : g.Over sized) (x : Point ℝ) :
    (ofSized g sized).matrix.mulVec (Point.flat sized x) = g.values x := by
  simp only [Matrix.mulVec, ofSized, Graph.values, List.map_flatMap, List.map_map, Factor.values]
  refine List.flatMap_congr fun f hf => List.map_congr_left fun i _ => ?_
  exact dot_factorRow i x hn (hg f hf)

theorem height_ofSized (g : Graph ℝ) (sized : List (Key × Nat)) :
    (ofSized g sized).matrix.height = g.rhs.length := by
  simp only [ofSized, Matrix.height, Graph.rhs, List.length_flatMap, List.length_map,
    List.length_range]
  rfl

theorem length_rhs_ofSized (g : Graph ℝ) (sized : List (Key × Nat)) :
    (ofSized g sized).rhs.length = (ofSized g sized).matrix.height := (height_ofSized g sized).symm

theorem ofGraph_eq_ok {K : Type} [Scalar K] {g : Graph K} {ordering : List Key} {dims : Keyed Nat}
    {sized : List (Key × Nat)} (hs : (Point.sized ordering dims : Except (Fault K) _) = .ok sized)
    (hg : g.Over sized) (hd : ∀ e ∈ sized, e.1 ∈ ordering ∧ dims.lookup e.1 = some e.2) :
    ofGraph g ordering dims = .ok (ofSized g sized) := by
  have hcheck : (g.flatMap fun f => f.terms.entries).forM (checkBlock ordering dims) =
      (.ok () : Except (Fault K) Unit) := by
    refine forM_eq_ok fun e he => ?_
    obtain ⟨f, hf, he⟩ := List.mem_flatMap.1 he
    obtain ⟨hmem, hdim⟩ := hd _ (hg f hf e he)
    simp only [checkBlock, (Keyed.get_eq_ok_iff (K := K) dims).2 hdim, hmem]
    simp [bind, Except.bind, pure, Except.pure]
  rw [ofGraph, hs, ok_bind, hcheck, ok_bind, pure_eq_ok]

theorem isFinite_real (s : LinearSystem ℝ) : s.isFinite = true := by
  simp [LinearSystem.isFinite, Matrix.isFinite]

end LinearSystem

/-! ## Minimising -/

namespace Graph

/-- All blocks at one key have one width, which `D` gives. -/
def Agrees (g : Graph ℝ) (D : Key → Nat) : Prop := ∀ f ∈ g, ∀ e ∈ f.terms.entries, e.2.cols = D e.1

theorem Over.agrees {g : Graph ℝ} {dims : Keyed Nat} (h : g.Over dims.entries) :
    g.Agrees fun k => (dims.lookup k).getD 0 := by
  intro f hf e he
  change _ = (dims.lookup e.1).getD 0
  rw [Keyed.lookup_of_mem (h f hf e he)]
  rfl

def Mentions {K : Type} (g : Graph K) (k : Key) : Prop := ∃ f ∈ g, k ∈ f.keys

theorem mem_keys {K : Type} {g : Graph K} {k : Key} : k ∈ g.keys ↔ g.Mentions k := by
  rw [keys, mem_firstAppearances, List.mem_flatMap]
  rfl

theorem dims_ok {g : Graph ℝ} {D : Key → Nat} (h : g.Agrees D) :
    ∃ m : Keyed Nat, (g.dims : Except (Fault ℝ) _) = .ok m ∧ m.Within D ∧
      ∀ k, k ∈ m.keys ↔ g.Mentions k := by
  have hentries : ∀ e ∈ g.flatMap fun f => f.dims.entries, e.2 = D e.1 := by
    intro e he
    obtain ⟨f, hf, he⟩ := List.mem_flatMap.1 he
    obtain ⟨t, ht, rfl⟩ := List.mem_map.1 he
    exact h f hf t ht
  have hempty : (Keyed.empty : Keyed Nat).Within D := fun _ _ h => by cases h
  obtain ⟨m, hm, hw, hkeys⟩ := Keyed.mergeDims_of_within (K := ℝ) hentries hempty
  refine ⟨m, hm, hw, fun k => ?_⟩
  rw [hkeys, Keyed.keys_empty]
  simp only [List.not_mem_nil, false_or, List.map_flatMap, List.mem_flatMap, Mentions, Factor.keys,
    Factor.dims, ← Keyed.keys_map Matrix.cols]
  rfl

def sizedBy (ks : List Key) (D : Key → Nat) : List (Key × Nat) := ks.map fun k => (k, D k)

theorem keys_sizedBy (ks : List Key) (D : Key → Nat) : (sizedBy ks D).map (·.1) = ks := by
  simp [sizedBy, Function.comp_def]

theorem sized_eq_ok {K : Type} {ks : List Key} {dims : Keyed Nat} {D : Key → Nat}
    (hw : dims.Within D) (hks : ∀ k ∈ ks, k ∈ dims.keys) :
    (Point.sized ks dims : Except (Fault K) _) = .ok (sizedBy ks D) := by
  refine Point.sized_of_lookup fun k hk => ?_
  obtain ⟨d, hd⟩ := (Keyed.mem_keys_iff _).1 (hks k hk)
  rw [← hw k d hd, hd]

/-- The data of a minimisation that fit together. -/
structure Consistent (cost constraints : Graph ℝ) (known : Keyed Nat) (ks : List Key)
    (D : Key → Nat) : Prop where
  nodup : ks.Nodup
  cost_agrees : cost.Agrees D
  constraints_agree : constraints.Agrees D
  known_within : known.Within D
  covers : ∀ k, cost.Mentions k ∨ constraints.Mentions k → k ∈ ks
  sized : ∀ k ∈ ks, k ∈ known.keys ∨ cost.Mentions k ∨ constraints.Mentions k

variable {cost constraints : Graph ℝ} {known : Keyed Nat} {ks : List Key} {D : Key → Nat}

theorem Consistent.nodup_sized (h : Consistent cost constraints known ks D) :
    ((sizedBy ks D).map (·.1)).Nodup := by
  rw [keys_sizedBy]
  exact h.nodup

private theorem over_of_agrees {g : Graph ℝ} (hg : g.Agrees D) (hm : ∀ k, g.Mentions k → k ∈ ks) :
    g.Over (sizedBy ks D) := by
  intro f hf e he
  rw [hg f hf e he]
  exact List.mem_map_of_mem (f := fun k => (k, D k))
    (hm e.1 ⟨f, hf, List.mem_map_of_mem (f := (·.1)) he⟩)

theorem Consistent.over_cost (h : Consistent cost constraints known ks D) :
    cost.Over (sizedBy ks D) :=
  over_of_agrees h.cost_agrees fun k hk => h.covers k (.inl hk)

theorem Consistent.over_constraints (h : Consistent cost constraints known ks D) :
    constraints.Over (sizedBy ks D) :=
  over_of_agrees h.constraints_agree fun k hk => h.covers k (.inr hk)

/-- Dimensions that fit together merge. -/
theorem exists_merged (hcost : cost.Agrees D) (hconstraints : constraints.Agrees D)
    (hknown : known.Within D) :
    ∃ m₁ m₂ m : Keyed Nat, (cost.dims : Except (Fault ℝ) _) = .ok m₁ ∧
      (constraints.dims : Except (Fault ℝ) _) = .ok m₂ ∧
      (Keyed.mergeDims known (m₁.entries ++ m₂.entries) : Except (Fault ℝ) _) = .ok m ∧
      m.Within D ∧
      ∀ k, k ∈ m.keys ↔ k ∈ known.keys ∨ cost.Mentions k ∨ constraints.Mentions k := by
  obtain ⟨m₁, hm₁, hw₁, hkeys₁⟩ := dims_ok hcost
  obtain ⟨m₂, hm₂, hw₂, hkeys₂⟩ := dims_ok hconstraints
  have hadded : ∀ e ∈ m₁.entries ++ m₂.entries, e.2 = D e.1 := by
    intro e he
    rcases List.mem_append.1 he with he | he
    · exact hw₁ _ _ (Keyed.lookup_of_mem he)
    · exact hw₂ _ _ (Keyed.lookup_of_mem he)
  obtain ⟨m, hm, hw, hkeys⟩ := Keyed.mergeDims_of_within (K := ℝ) hadded hknown
  refine ⟨m₁, m₂, m, hm₁, hm₂, hm, hw, fun k => ?_⟩
  rw [hkeys, List.map_append, List.mem_append, ← hkeys₁, ← hkeys₂]
  rfl

/-- The two systems over the keys `ks`, as one system to solve. -/
noncomputable def toSolve (cost constraints : Graph ℝ) (ks : List Key) (D : Key → Nat) :
    LinearSystem ℝ :=
  LinearSystem.toSolve (Point.totalDim (sizedBy ks D)) (LinearSystem.ofSized cost (sizedBy ks D))
    (LinearSystem.ofSized constraints (sizedBy ks D))

theorem toSolve_solved {kernels : Kernels ℝ} (hk : kernels.ExactLeastSquares)
    (cost constraints : Graph ℝ) (ks : List Key) (D : Key → Nat) :
    (toSolve cost constraints ks D).Solves (kernels.leastSquares (toSolve cost constraints ks D)) :=
  have hcols : (LinearSystem.ofSized constraints (sizedBy ks D)).matrix.cols =
      (LinearSystem.ofSized cost (sizedBy ks D)).matrix.cols := rfl
  hk _ (LinearSystem.length_rhs_toSolve (LinearSystem.length_rhs_ofSized ..) hcols
    (LinearSystem.length_rhs_ofSized ..) rfl)

theorem totalDim_le_cols_toSolve (cost constraints : Graph ℝ) (ks : List Key) (D : Key → Nat) :
    Point.totalDim (sizedBy ks D) ≤ (toSolve cost constraints ks D).matrix.cols := by
  unfold toSolve LinearSystem.toSolve
  split
  · split <;> exact le_rfl
  · exact Nat.le_add_right ..

/-- Data that fit together can fail to be minimised only for want of rank. -/
theorem minimize_eq {kernels : Kernels ℝ} (hk : kernels.ExactLeastSquares)
    (h : Consistent cost constraints known ks D) {ordering : Option (List Key)}
    (hord : ordering.getD (firstAppearances (cost.keys ++ constraints.keys)) = ks)
    {dims : Option (Keyed Nat)} (hdims : dims.getD .empty = known) (unique : Bool) :
    minimize kernels cost constraints ordering dims unique =
      if Point.totalDim (sizedBy ks D) = 0 then .ok .empty
      else
        if unique = true ∧ (kernels.leastSquares (toSolve cost constraints ks D)).rank <
            Point.totalDim (sizedBy ks D) + constraints.rhs.length then
          .error (.singular ks.length (kernels.leastSquares (toSolve cost constraints ks D)).rank
            (Point.totalDim (sizedBy ks D) + constraints.rhs.length))
        else .ok (Point.ofFlat (sizedBy ks D)
          ((kernels.leastSquares (toSolve cost constraints ks D)).solution.take
            (Point.totalDim (sizedBy ks D)))) := by
  obtain ⟨m₁, m₂, m, hm₁, hm₂, hm, hw, hkeys⟩ :=
    exists_merged h.cost_agrees h.constraints_agree h.known_within
  have hks : ∀ k ∈ ks, k ∈ m.keys := fun k hk => (hkeys k).2 (h.sized k hk)
  have hsized := sized_eq_ok (K := ℝ) hw hks
  have hplace : ∀ e ∈ sizedBy ks D, e.1 ∈ ks ∧ m.lookup e.1 = some e.2 := by
    intro e he
    obtain ⟨k, hk, rfl⟩ := List.mem_map.1 he
    obtain ⟨d, hd⟩ := (Keyed.mem_keys_iff _).1 (hks k hk)
    exact ⟨hk, hw k d hd ▸ hd⟩
  have hlen := (toSolve_solved hk cost constraints ks D).length_eq
  have hle := totalDim_le_cols_toSolve cost constraints ks D
  have hsplit : ∀ v : List ℝ, v.length = Point.totalDim (sizedBy ks D) →
      Point.split v ks m = .ok (Point.ofFlat (sizedBy ks D) v) := by
    intro v hv
    rw [Point.split, hsized, ok_bind, if_pos hv.symm]
    rfl
  simp only [minimize, hm₁, hm₂, ok_bind, hdims, hm, hord]
  rw [hsized, ok_bind]
  change (if Point.totalDim (sizedBy ks D) = 0 then _ else _) = _
  split
  · rfl
  · rw [LinearSystem.ofGraph_eq_ok hsized h.over_cost hplace, ok_bind,
      LinearSystem.ofGraph_eq_ok hsized h.over_constraints hplace, ok_bind]
    simp only [LinearSystem.isFinite_real, Bool.not_true, Bool.false_eq_true, ↓reduceIte,
      LinearSystem.height_ofSized, Bool.and_eq_true, decide_eq_true_eq]
    refine if_congr Iff.rfl rfl (hsplit _ ?_)
    rw [List.length_take, min_eq_left]
    exact hle.trans hlen.ge

/-- Whatever the kernel answers, a minimiser is a point over the ordering. -/
theorem mem_ordering_of_minimize {K : Type} [Scalar K] {kernels : Kernels K}
    {cost constraints : Graph K}
    {ordering : Option (List Key)} {dims : Option (Keyed Nat)} {unique : Bool} {p : Point K}
    (h : minimize kernels cost constraints ordering dims unique = .ok p) {k : Key}
    (hk : k ∈ p.keys) :
    k ∈ ordering.getD (firstAppearances (cost.keys ++ constraints.keys)) := by
  simp only [minimize, bind_eq_ok] at h
  obtain ⟨m₁, _, m₂, _, m, _, sized, _, h⟩ := h
  split at h
  · obtain rfl := pure_eq_ok.1 h
    cases hk
  · simp only [bind_eq_ok] at h
    obtain ⟨A, _, C, _, h⟩ := h
    split at h
    · cases h
    · split at h
      · cases h
      · exact (Point.mem_keys_of_split h).1 hk

/-! ## Factor by factor -/

theorem values_eq_zeros_iff {g : Graph ℝ} {z : Point ℝ} :
    g.values z = Vec.zeros g.rhs.length ↔ ∀ f ∈ g, f.values z = Vec.zeros f.rows := by
  induction g with
  | nil => simp [values, rhs]
  | cons f g ih =>
      have hzeros : (Vec.zeros (rhs (f :: g)).length : List ℝ) =
          Vec.zeros f.rows ++ Vec.zeros (rhs g).length := by
        simp [Vec.zeros, rhs, Factor.rows]
      rw [hzeros, values, List.flatMap_cons, List.forall_mem_cons, ← ih]
      constructor
      · intro h
        exact List.append_inj h (by simp)
      · rintro ⟨hf, hg⟩
        rw [hf, ← hg]
        rfl

theorem values_eq_rhs_iff {g : Graph ℝ} {x : Point ℝ} :
    g.values x = g.rhs ↔ ∀ f ∈ g, f.values x = f.b := by
  induction g with
  | nil => simp [values, rhs]
  | cons f g ih =>
      rw [values, rhs, List.flatMap_cons, List.flatMap_cons, List.forall_mem_cons, ← ih]
      constructor
      · intro h
        exact List.append_inj h (f.length_values x)
      · rintro ⟨hf, hg⟩
        rw [hf]
        exact congrArg _ hg

theorem dot_values_sub (g : Graph ℝ) (z p : Point ℝ) :
    Vec.dot (g.values z) (Vec.sub (g.values p) g.rhs) =
      (g.map fun f => Vec.dot (f.values z) (f.defect p)).sum := by
  have hsub : Vec.sub (g.values p) g.rhs = g.flatMap fun f => f.defect p :=
    Vec.sub_flatMap fun f _ => f.length_values p
  rw [hsub, values, Vec.dot_flatMap fun f _ => by simp]

/-- The second graph is the first in coordinates around `x`. -/
def Shifted (x : Point ℝ) (g g' : Graph ℝ) : Prop :=
  List.Forall₂ (fun f f' => f.shifted x = .ok f') g g'

section Shifted

variable {x : Point ℝ} {g g' : Graph ℝ}

theorem Shifted.over (h : Shifted x g g') {sized : List (Key × Nat)} (hg : g.Over sized) :
    g'.Over sized := by
  intro f' hf' e he
  obtain ⟨f, hf, hshift⟩ := exists_of_mem_right h hf'
  rw [(f.shifted_eq_ok hshift).2.1] at he
  exact hg f hf e he

/-- Shifting keeps the values and adds the defect at `x` to every other. -/
theorem Shifted.sum_dot_defect (h : Shifted x g g') (z p : Point ℝ) :
    (g'.map fun f => Vec.dot (f.values z) (f.defect p)).sum =
      (g.map fun f => Vec.dot (f.values z) (Vec.add (f.values p) (f.defect x))).sum := by
  induction h with
  | nil => rfl
  | @cons f f' g g' hf _ ih =>
      obtain ⟨_, ht, hb⟩ := f.shifted_eq_ok hf
      have hrows := f.shifted_rows hf
      have hdefect : f'.defect p = Vec.add (f.values p) (f.defect x) := by
        rw [Factor.defect, Factor.values_congr ht hrows, hb, Factor.defect, Vec.sub_neg_sub]
      rw [List.map_cons, List.map_cons, List.sum_cons, List.sum_cons, ih, hdefect,
        Factor.values_congr ht hrows]

theorem Shifted.vanish_iff (h : Shifted x g g') (z : Point ℝ) :
    (∀ f ∈ g', f.values z = Vec.zeros f.rows) ↔ ∀ f ∈ g, f.values z = Vec.zeros f.rows := by
  induction h with
  | nil => rfl
  | @cons f f' g g' hf _ ih =>
      obtain ⟨_, ht, _⟩ := f.shifted_eq_ok hf
      have hrows := f.shifted_rows hf
      rw [List.forall_mem_cons, List.forall_mem_cons, ih, Factor.values_congr ht hrows, hrows]

end Shifted

/-! ## What a minimiser satisfies -/

/--
The conditions on a constrained minimiser, read at points: first-order stationarity along the points
that the constraints map to zero, least misfit of the constraints, and least length.
-/
structure Minimiser (cost constraints : Graph ℝ) (sized : List (Key × Nat)) (p : Point ℝ) : Prop where
  stationary : ∀ z, constraints.values z = Vec.zeros constraints.rhs.length →
    Vec.dot (cost.values z) (Vec.sub (cost.values p) cost.rhs) = 0
  compatible : ∀ z,
    Vec.dot (constraints.values z) (Vec.sub (constraints.values p) constraints.rhs) = 0
  shortest : ∀ z, cost.values z = Vec.zeros cost.rhs.length →
    constraints.values z = Vec.zeros constraints.rhs.length →
    Vec.dot (Point.flat sized z) (Point.flat sized p) = 0

/-- Points that the values cannot tell from zero are zero at the sized keys. -/
def FullRank (g : Graph ℝ) (sized : List (Key × Nat)) : Prop :=
  ∀ z, g.values z = Vec.zeros g.rhs.length → Point.flat sized z = Vec.zeros (Point.totalDim sized)

theorem Minimiser.ofFlat {sized : List (Key × Nat)} (hn : (sized.map (·.1)).Nodup)
    (hcost : cost.Over sized) (hcons : constraints.Over sized) {v : List ℝ}
    (h : LinearSystem.Minimises (.ofSized cost sized) (.ofSized constraints sized) v) :
    Minimiser cost constraints sized (Point.ofFlat sized v) := by
  have hflat : Point.flat sized (Point.ofFlat sized v) = v := Point.flat_ofFlat hn h.length_eq
  have hA := LinearSystem.mulVec_ofSized hn hcost
  have hC := LinearSystem.mulVec_ofSized hn hcons
  have hlen : ∀ z, (Point.flat sized z).length = (LinearSystem.ofSized cost sized).matrix.cols :=
    fun z => Point.length_flat sized z
  refine ⟨fun z hz => ?_, fun z => ?_, fun z hz hz' => ?_⟩
  · rw [← hA, ← hA, hflat]
    exact h.stationary _ (hlen z) (by rw [hC, hz, LinearSystem.height_ofSized])
  · rw [← hC, ← hC, hflat]
    exact h.compatible _ (hlen z)
  · rw [hflat]
    exact h.shortest _ (hlen z) (by rw [hA, hz, LinearSystem.height_ofSized])
      (by rw [hC, hz', LinearSystem.height_ofSized])

theorem values_of_totalDim_eq_zero {g : Graph ℝ} {sized : List (Key × Nat)}
    (hn : (sized.map (·.1)).Nodup) (hg : g.Over sized) (h0 : Point.totalDim sized = 0) (z : Point ℝ) :
    g.values z = Vec.zeros g.rhs.length := by
  have hflat : Point.flat sized z = Vec.zeros 0 :=
    List.length_eq_zero_iff.1 ((Point.length_flat sized z).trans h0)
  rw [← LinearSystem.mulVec_ofSized hn hg, hflat, Matrix.mulVec_zeros, LinearSystem.height_ofSized]

theorem Minimiser.of_totalDim_eq_zero {sized : List (Key × Nat)} (hn : (sized.map (·.1)).Nodup)
    (hcost : cost.Over sized) (hcons : constraints.Over sized) (h0 : Point.totalDim sized = 0)
    (p : Point ℝ) : Minimiser cost constraints sized p := by
  refine ⟨fun z _ => ?_, fun z => ?_, fun z _ _ => ?_⟩
  · rw [values_of_totalDim_eq_zero hn hcost h0, Vec.dot_zeros_left]
  · rw [values_of_totalDim_eq_zero hn hcons h0, Vec.dot_zeros_left]
  · rw [List.length_eq_zero_iff.1 ((Point.length_flat sized z).trans h0), Vec.dot_nil_left]

theorem minimises_toSolve {kernels : Kernels ℝ} (hk : kernels.ExactLeastSquares)
    (cost constraints : Graph ℝ) (ks : List Key) (D : Key → Nat) :
    LinearSystem.Minimises (.ofSized cost (sizedBy ks D)) (.ofSized constraints (sizedBy ks D))
      ((kernels.leastSquares (toSolve cost constraints ks D)).solution.take
        (Point.totalDim (sizedBy ks D))) :=
  have hcols : (LinearSystem.ofSized constraints (sizedBy ks D)).matrix.cols =
      (LinearSystem.ofSized cost (sizedBy ks D)).matrix.cols := rfl
  LinearSystem.minimises_toSolve (LinearSystem.length_rhs_ofSized ..) hcols
    (LinearSystem.length_rhs_ofSized ..) (toSolve_solved hk cost constraints ks D)

/-- A point of the sized keys: none where there are no coordinates, else all keys with their sizes. -/
structure Spans (p : Point ℝ) (sized : List (Key × Nat)) : Prop where
  length_mem : ∀ k v, p.lookup k = some v → (k, v.length) ∈ sized
  holds : Point.totalDim sized ≠ 0 → ∀ e ∈ sized, p.lookup e.1 ≠ none

/-- Over a single key the point is its vector. -/
theorem Spans.exists_ofList {p : Point ℝ} {k : Key} {n : Nat} (h : Spans p [(k, n)]) (hn : n ≠ 0) :
    ∃ v, v.length = n ∧ p = Keyed.ofList [(k, v)] := by
  have hentry : ∀ e ∈ p.entries, e.1 = k ∧ e.2.length = n := by
    intro e he
    have hmem := h.length_mem _ _ (Keyed.lookup_of_mem he)
    exact Prod.mk.inj (List.mem_singleton.1 hmem)
  have hholds := h.holds (by simpa [Point.totalDim] using hn) _ (.head _)
  obtain ⟨entries, hnodup⟩ := p
  rcases entries with _ | ⟨⟨l, v⟩, _ | ⟨f, rest⟩⟩
  · exact absurd rfl hholds
  · obtain ⟨rfl, hlen⟩ := hentry _ (.head _)
    exact ⟨v, hlen, rfl⟩
  · have hsame : l = f.1 := (hentry _ (.head _)).1.trans (hentry f (.tail _ (.head _))).1.symm
    exact absurd hnodup (by simp [hsame])

theorem Spans.norm_eq_zero {p : Point ℝ} {sized : List (Key × Nat)} (h : Spans p sized)
    (hflat : Point.flat sized p = Vec.zeros (Point.totalDim sized)) : Point.norm p = 0 := by
  have hsum : (p.entries.map fun e => Vec.dot e.2 e.2).sum = 0 := by
    refine List.sum_eq_zero fun a ha => ?_
    obtain ⟨e, he, rfl⟩ := List.mem_map.1 ha
    have hlookup := Keyed.lookup_of_mem he
    have hpart := Point.flat_eq_zeros_iff.1 hflat _ (h.length_mem _ _ hlookup)
    rw [Point.part_of_lookup hlookup, Vec.fit_eq_self rfl] at hpart
    rw [hpart, Vec.dot_zeros_left]
  exact mul_self_eq_zero.1 ((Point.norm_mul_self p).trans hsum)

theorem Spans.totalDim_ne_zero {p : Point ℝ} {sized : List (Key × Nat)} (h : Spans p sized)
    (hp : Point.norm p ≠ 0) : Point.totalDim sized ≠ 0 := by
  intro hdim
  refine hp (h.norm_eq_zero ?_)
  rw [hdim]
  exact List.length_eq_zero_iff.1 ((Point.length_flat sized p).trans hdim)

theorem minimiser_of_minimize {kernels : Kernels ℝ} (hk : kernels.ExactLeastSquares)
    (h : Consistent cost constraints known ks D) {ordering : Option (List Key)}
    (hord : ordering.getD (firstAppearances (cost.keys ++ constraints.keys)) = ks)
    {dims : Option (Keyed Nat)} (hdims : dims.getD .empty = known) {unique : Bool} {p : Point ℝ}
    (hp : minimize kernels cost constraints ordering dims unique = .ok p) :
    Minimiser cost constraints (sizedBy ks D) p ∧ Spans p (sizedBy ks D) := by
  rw [minimize_eq hk h hord hdims] at hp
  have hmin := minimises_toSolve hk cost constraints ks D
  split at hp
  · rename_i h0
    obtain rfl := Except.ok.inj hp
    exact ⟨.of_totalDim_eq_zero h.nodup_sized h.over_cost h.over_constraints h0 _,
      ⟨fun k v hv => (nomatch hv), fun hne => absurd h0 hne⟩⟩
  · split at hp
    · cases hp
    · obtain rfl := Except.ok.inj hp
      refine ⟨.ofFlat h.nodup_sized h.over_cost h.over_constraints hmin,
        ⟨fun k v hv => ?_, fun _ e he hnone => ?_⟩⟩
      · exact Point.length_lookup_ofFlat h.nodup_sized hmin.length_eq hv
      · rw [Keyed.lookup_eq_none_iff, Point.keys_ofFlat h.nodup_sized] at hnone
        exact hnone (List.mem_map_of_mem (f := (·.1)) he)

theorem minimize_ok {kernels : Kernels ℝ} (hk : kernels.ExactLeastSquares)
    (h : Consistent cost constraints known ks D) {ordering : Option (List Key)}
    (hord : ordering.getD (firstAppearances (cost.keys ++ constraints.keys)) = ks)
    {dims : Option (Keyed Nat)} (hdims : dims.getD .empty = known) :
    ∃ p, minimize kernels cost constraints ordering dims false = .ok p := by
  rw [minimize_eq hk h hord hdims]
  split
  · exact ⟨_, rfl⟩
  · rw [if_neg (by simp)]
    exact ⟨_, rfl⟩

/-! ## Unique minimisers -/

theorem fullRank_of_totalDim_eq_zero {sized : List (Key × Nat)} (hdim : Point.totalDim sized = 0)
    (g : Graph ℝ) : g.FullRank sized := by
  intro z _
  rw [hdim]
  exact List.length_eq_zero_iff.1 ((Point.length_flat ..).trans hdim)

theorem values_append_eq_zeros_iff {g g' : Graph ℝ} {z : Point ℝ} :
    Graph.values (g ++ g') z = Vec.zeros (Graph.rhs (g ++ g')).length ↔
      g.values z = Vec.zeros g.rhs.length ∧ g'.values z = Vec.zeros g'.rhs.length := by
  rw [values_eq_zeros_iff, values_eq_zeros_iff, values_eq_zeros_iff, List.forall_mem_append]

/-- The rows that a graph stacks to, as vectors, are linearly independent. -/
def RowsIndependent (g : Graph ℝ) (sized : List (Key × Nat)) : Prop :=
  (LinearSystem.ofSized g sized).matrix.RowsIndependent

theorem rowsIndependent_of_rhs_eq_nil {g : Graph ℝ} (hg : g.rhs = []) (sized : List (Key × Nat)) :
    g.RowsIndependent sized := by
  rw [RowsIndependent, Matrix.rowsIndependent_iff]
  intro u hu _
  rw [LinearSystem.height_ofSized, hg] at hu ⊢
  exact List.length_eq_zero_iff.1 hu

theorem rank_toSolve_iff (h : Consistent cost constraints known ks D) :
    (toSolve cost constraints ks D).matrix.rank =
        Point.totalDim (sizedBy ks D) + constraints.rhs.length ↔
      FullRank (cost ++ constraints) (sizedBy ks D) ∧
        constraints.RowsIndependent (sizedBy ks D) := by
  have hcols : (LinearSystem.ofSized constraints (sizedBy ks D)).matrix.cols =
      (LinearSystem.ofSized cost (sizedBy ks D)).matrix.cols := rfl
  have hA := LinearSystem.mulVec_ofSized h.nodup_sized h.over_cost
  have hC := LinearSystem.mulVec_ofSized h.nodup_sized h.over_constraints
  rw [← LinearSystem.height_ofSized constraints (sizedBy ks D)]
  refine (LinearSystem.rank_toSolve_iff hcols).trans (and_congr_left fun _ => ?_)
  rw [LinearSystem.height_ofSized, LinearSystem.height_ofSized]
  constructor
  · intro hinj z hz
    obtain ⟨hz, hz'⟩ := values_append_eq_zeros_iff.1 hz
    exact hinj _ (Point.length_flat ..) (by rw [hA, hz]) (by rw [hC, hz'])
  · intro hfull v hv hz hz'
    rw [← Point.flat_ofFlat h.nodup_sized hv] at hz hz' ⊢
    rw [hA] at hz
    rw [hC] at hz'
    exact hfull _ (values_append_eq_zeros_iff.2 ⟨hz, hz'⟩)

theorem rank_toSolve_le (cost constraints : Graph ℝ) : (toSolve cost constraints ks D).matrix.rank ≤
    Point.totalDim (sizedBy ks D) + constraints.rhs.length := by
  rw [← LinearSystem.height_ofSized constraints (sizedBy ks D)]
  exact LinearSystem.rank_toSolve_le

section Unique

variable {kernels : Kernels ℝ} {ordering : Option (List Key)} {dims : Option (Keyed Nat)}

/-- A minimiser that has to be unique is refused for want of rank, if there are coordinates. -/
theorem minimize_unique_eq (hk : kernels.ExactLeastSquares)
    (h : Consistent cost constraints known ks D)
    (hord : ordering.getD (firstAppearances (cost.keys ++ constraints.keys)) = ks)
    (hdims : dims.getD .empty = known) :
    (Point.totalDim (sizedBy ks D) = 0 ∨ FullRank (cost ++ constraints) (sizedBy ks D) ∧
        constraints.RowsIndependent (sizedBy ks D) →
      ∃ p, minimize kernels cost constraints ordering dims true = .ok p) ∧
    (¬(Point.totalDim (sizedBy ks D) = 0 ∨ FullRank (cost ++ constraints) (sizedBy ks D) ∧
        constraints.RowsIndependent (sizedBy ks D)) →
      ∃ n r m, minimize kernels cost constraints ordering dims true = .error (.singular n r m)) := by
  rw [minimize_eq hk h hord hdims, (toSolve_solved hk cost constraints ks D).rank_eq,
    ← rank_toSolve_iff h]
  constructor
  · rintro (hdim | hrank)
    · rw [if_pos hdim]
      exact ⟨_, rfl⟩
    · rw [hrank]
      split
      · exact ⟨_, rfl⟩
      · rw [if_neg (by simp)]
        exact ⟨_, rfl⟩
  · intro hne
    obtain ⟨hdim, hrank⟩ := not_or.1 hne
    rw [if_neg hdim, if_pos ⟨rfl, lt_of_le_of_ne (rank_toSolve_le cost constraints) hrank⟩]
    exact ⟨_, _, _, rfl⟩

theorem minimize_singular_iff (hk : kernels.ExactLeastSquares)
    (h : Consistent cost constraints known ks D)
    (hord : ordering.getD (firstAppearances (cost.keys ++ constraints.keys)) = ks)
    (hdims : dims.getD .empty = known) :
    (∃ n r m, minimize kernels cost constraints ordering dims true = .error (.singular n r m)) ↔
      Point.totalDim (sizedBy ks D) ≠ 0 ∧ ¬(FullRank (cost ++ constraints) (sizedBy ks D) ∧
        constraints.RowsIndependent (sizedBy ks D)) := by
  obtain ⟨hok, hsingular⟩ := minimize_unique_eq hk h hord hdims
  rw [← not_or]
  refine ⟨fun ⟨_, _, _, hfail⟩ hfull => ?_, hsingular⟩
  obtain ⟨p, hp⟩ := hok hfull
  rw [hfail] at hp
  cases hp

private theorem fullRank_or_iff {g : Graph ℝ} {sized : List (Key × Nat)} :
    (Point.totalDim sized = 0 ∨ FullRank (g ++ []) sized ∧ RowsIndependent [] sized) ↔
      g.FullRank sized := by
  rw [List.append_nil]
  constructor
  · rintro (hdim | ⟨hfull, _⟩)
    · exact fullRank_of_totalDim_eq_zero hdim g
    · exact hfull
  · exact fun hfull => .inr ⟨hfull, rowsIndependent_of_rhs_eq_nil rfl sized⟩

theorem minimize_of_not_fullRank (hk : kernels.ExactLeastSquares) {g : Graph ℝ}
    (h : Consistent g [] known ks D)
    (hord : ordering.getD (firstAppearances (g.keys ++ @Graph.keys ℝ [])) = ks)
    (hdims : dims.getD .empty = known) (hfull : ¬ g.FullRank (sizedBy ks D)) :
    ∃ n r m, minimize kernels g [] ordering dims true = .error (.singular n r m) :=
  (minimize_unique_eq hk h hord hdims).2 (mt fullRank_or_iff.1 hfull)

theorem minimize_of_fullRank (hk : kernels.ExactLeastSquares) {g : Graph ℝ}
    (h : Consistent g [] known ks D)
    (hord : ordering.getD (firstAppearances (g.keys ++ @Graph.keys ℝ [])) = ks)
    (hdims : dims.getD .empty = known) (hfull : g.FullRank (sizedBy ks D)) :
    ∃ p, minimize kernels g [] ordering dims true = .ok p :=
  (minimize_unique_eq hk h hord hdims).1 (fullRank_or_iff.2 hfull)

/-- A minimiser that had to be unique comes from a graph of full rank. -/
theorem fullRank_of_minimize (hk : kernels.ExactLeastSquares) {g : Graph ℝ}
    (h : Consistent g [] known ks D)
    (hord : ordering.getD (firstAppearances (g.keys ++ @Graph.keys ℝ [])) = ks)
    (hdims : dims.getD .empty = known) {p : Point ℝ}
    (hp : minimize kernels g [] ordering dims true = .ok p) : g.FullRank (sizedBy ks D) := by
  by_contra hfull
  obtain ⟨_, _, _, hfail⟩ := minimize_of_not_fullRank hk h hord hdims hfull
  rw [hfail] at hp
  cases hp

end Unique

end Graph

end ActiveSet
