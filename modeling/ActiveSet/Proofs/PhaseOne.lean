import ActiveSet.Proofs.LinearPrograms
import ActiveSet.Proofs.Minimisers
import ActiveSet.Solver

/-!
# Phase one

A vector is feasible for the program of phase one if it is a point that satisfies the equalities and
keeps a slack of the inequalities, with that slack as its last entry. The program is bounded, so an
exact kernel answers with the largest slack that any point keeps.
-/

namespace ActiveSet

namespace PhaseOne

variable {es : List (Equality ℝ)} {fs : List (Inequality ℝ)} {ordering : List Key}
  {dims : Keyed Nat} {sized : List (Key × Nat)} {x : Point ℝ} {t : ℝ}

/-! ## The program -/

theorem mulVec_widen (c : ℝ) (sys : LinearSystem ℝ) {u : List ℝ} (hu : u.length = sys.matrix.cols)
    (t : ℝ) : (widen c sys).matrix.mulVec (u ++ [t]) = (sys.matrix.mulVec u).map (· + c * t) := by
  simp only [Matrix.mulVec, widen, List.map_map]
  refine List.map_congr_left fun row hrow => ?_
  rw [Function.comp_apply, Function.comp_apply,
    Vec.dot_append ((sys.matrix.rect row hrow).trans hu.symm)]
  simp

theorem take_append_last {v : List ℝ} {n : Nat} (hv : v.length = n + 1) :
    v = v.take n ++ [v.getD n 0] := by
  have hn : n < v.length := by omega
  rw [List.getD_eq_getElem?_getD, List.getElem?_eq_getElem hn, Option.getD_some,
    List.take_append_getElem, List.take_of_length_le hv.le]

/-- Constraints over an ordering that names no key twice: every block has a place, of its width. -/
structure Posed (es : List (Equality ℝ)) (fs : List (Inequality ℝ)) (ordering : List Key)
    (dims : Keyed Nat) (sized : List (Key × Nat)) : Prop where
  nodup : ordering.Nodup
  sized_eq : (Point.sized ordering dims : Except (Fault ℝ) _) = .ok sized
  over_equalities : (Equality.graph es).Over sized
  over_inequalities : (Equality.graph (fs.map (·.toEquality))).Over sized

/-- The program for the largest slack. -/
noncomputable def slackProgram (es : List (Equality ℝ)) (fs : List (Inequality ℝ))
    (sized : List (Key × Nat)) : LinearProgram ℝ :=
  program (Point.totalDim sized) (.ofSized (Equality.graph (fs.map (·.toEquality))) sized)
    (.ofSized (Equality.graph es) sized)

/-- The point satisfies the equalities, and the inequalities with `t` to spare. -/
structure Keeps (es : List (Equality ℝ)) (fs : List (Inequality ℝ)) (x : Point ℝ) (t : ℝ) :
    Prop where
  equalities : ∀ f ∈ es, f.toFactor.values x = f.b
  inequalities : ∀ f ∈ fs, f.value x + t ≤ f.bound

namespace Posed

variable (h : Posed es fs ordering dims sized)

include h

theorem nodup_sized : (sized.map (·.1)).Nodup := by
  rw [Point.keys_of_sized h.sized_eq]
  exact h.nodup

theorem mem_sized {e : Key × Nat} (he : e ∈ sized) :
    e.1 ∈ ordering ∧ dims.lookup e.1 = some e.2 := by
  obtain ⟨k, hk, heq⟩ := exists_of_mem_right (mapM_eq_ok.1 h.sized_eq) he
  simp only [bind_eq_ok, pure_eq_ok, Keyed.get_eq_ok_iff] at heq
  obtain ⟨d, hd, rfl⟩ := heq
  exact ⟨hk, hd⟩

theorem ofGraph_eq {g : Graph ℝ} (hg : g.Over sized) :
    LinearSystem.ofGraph g ordering dims = .ok (.ofSized g sized) :=
  LinearSystem.ofGraph_eq_ok h.sized_eq hg fun _ he => h.mem_sized he

private theorem slack_iff : List.Forall₂ (· ≤ ·)
      ((widen 1 (LinearSystem.ofSized (Equality.graph (fs.map (·.toEquality))) sized)).matrix.mulVec
        (Point.flat sized x ++ [t]))
      (LinearSystem.ofSized (Equality.graph (fs.map (·.toEquality))) sized).rhs ↔
    ∀ f ∈ fs, f.value x + t ≤ f.bound := by
  have hvalues : Graph.values (Equality.graph (fs.map (·.toEquality))) x =
      fs.map fun f => f.value x := by
    simp only [Graph.values, Equality.graph, List.flatMap_map, Inequality.values_toEquality]
    exact List.map_eq_flatMap.symm
  have hrhs : (LinearSystem.ofSized (Equality.graph (fs.map (·.toEquality))) sized).rhs =
      fs.map fun f => f.bound := by
    simp only [LinearSystem.ofSized, Equality.graph, List.flatMap_map, Inequality.b_toEquality]
    exact List.map_eq_flatMap.symm
  rw [mulVec_widen 1 _ (Point.length_flat sized x),
    LinearSystem.mulVec_ofSized h.nodup_sized h.over_inequalities, hvalues, hrhs, List.map_map,
    List.forall₂_map_left_iff, List.forall₂_map_right_iff, List.forall₂_same]
  simp only [Function.comp_apply, one_mul]

private theorem equal_iff : (widen 0 (LinearSystem.ofSized (Equality.graph es) sized)).matrix.mulVec
        (Point.flat sized x ++ [t]) = (LinearSystem.ofSized (Equality.graph es) sized).rhs ↔
      ∀ f ∈ es, f.toFactor.values x = f.b := by
  rw [mulVec_widen 0 _ (Point.length_flat sized x),
    LinearSystem.mulVec_ofSized h.nodup_sized h.over_equalities]
  simp only [zero_mul, add_zero, List.map_id']
  exact Graph.values_eq_rhs_iff.trans (List.forall_mem_map)

theorem feasible_iff : (slackProgram es fs sized).Feasible (Point.flat sized x ++ [t]) ↔
    t ≤ 1 ∧ Keeps es fs x t := by
  constructor
  · rintro ⟨-, hatMost, hequal, hranges⟩
    have hlast := List.forall₂_drop (Point.totalDim sized) hranges
    rw [slackProgram, program, List.drop_left' List.length_replicate,
      List.drop_left' (Point.length_flat sized x)] at hlast
    cases hlast with
    | cons hcontains _ =>
        exact ⟨hcontains.2 1 rfl, h.equal_iff.1 hequal, h.slack_iff.1 hatMost⟩
  · rintro ⟨ht, hequal, hslack⟩
    refine ⟨by simp [slackProgram, program], h.slack_iff.2 hslack, h.equal_iff.2 hequal, ?_⟩
    apply List.rel_append
    · refine List.forall₂_iff_get.2 ⟨by simp, fun i _ _ => ?_⟩
      simp [Range.Contains]
    · refine .cons ⟨fun _ h => (nomatch h), fun u hu => ?_⟩ .nil
      rw [← Option.some.inj hu]
      exact ht

/-- What is feasible is a point laid out over the keys, with the slack behind it. -/
theorem eq_flat_append {v : List ℝ} (hv : (slackProgram es fs sized).Feasible v) :
    (v.take (Point.totalDim sized)).length = Point.totalDim sized ∧
      v = Point.flat sized (Point.ofFlat sized (v.take (Point.totalDim sized))) ++
        [v.getD (Point.totalDim sized) 0] := by
  have hlen : v.length = Point.totalDim sized + 1 := by
    simpa [slackProgram, program] using hv.length_eq
  have htake : (v.take (Point.totalDim sized)).length = Point.totalDim sized := by
    simp [hlen]
  rw [Point.flat_ofFlat h.nodup_sized htake]
  exact ⟨htake, take_append_last hlen⟩

theorem keeps_of_feasible {v : List ℝ} (hv : (slackProgram es fs sized).Feasible v) :
    v.getD (Point.totalDim sized) 0 ≤ 1 ∧
      Keeps es fs (Point.ofFlat sized (v.take (Point.totalDim sized)))
        (v.getD (Point.totalDim sized) 0) := by
  have hflat := hv
  rw [(h.eq_flat_append hv).2] at hflat
  exact h.feasible_iff.1 hflat

omit h in
theorem dot_cost {u : List ℝ} (hu : u.length = Point.totalDim sized) (t : ℝ) :
    Vec.dot (slackProgram es fs sized).cost (u ++ [t]) = -t := by
  change Vec.dot (Vec.zeros _ ++ [-1]) _ = _
  rw [Vec.dot_append (by simp [hu]), Vec.dot_zeros_left]
  simp

/-- An optimum is a point that keeps the largest slack up to one that any point keeps. -/
theorem keeps_of_optimal {v : List ℝ} (hv : (slackProgram es fs sized).Optimal v) :
    Keeps es fs (Point.ofFlat sized (v.take (Point.totalDim sized)))
        (v.getD (Point.totalDim sized) 0) ∧
      ∀ y s, s ≤ 1 → Keeps es fs y s → s ≤ v.getD (Point.totalDim sized) 0 := by
  obtain ⟨hfeasible, hbest⟩ := hv
  refine ⟨(h.keeps_of_feasible hfeasible).2, fun y s hs hy => ?_⟩
  have hle := hbest _ (h.feasible_iff.2 ⟨hs, hy⟩)
  rw [(h.eq_flat_append hfeasible).2, dot_cost (Point.length_flat ..),
    dot_cost (Point.length_flat ..)] at hle
  exact neg_le_neg_iff.1 hle

omit h in
/-- A point that satisfies the equalities keeps some slack, possibly a negative one. -/
theorem exists_keeps (hx : ∀ f ∈ es, f.toFactor.values x = f.b) : ∃ t ≤ 1, Keeps es fs x t := by
  obtain ⟨t, ht⟩ := (List.finite_toSet (1 :: fs.map fun f => f.bound - f.value x)).bddBelow
  refine ⟨t, ht (List.mem_cons_self ..), hx, fun f hf => ?_⟩
  have hle := ht (List.mem_cons_of_mem 1
    (List.mem_map_of_mem (f := fun f : Inequality ℝ => f.bound - f.value x) hf))
  linarith

theorem exists_optimal (hx : ∀ f ∈ es, f.toFactor.values x = f.b) :
    ∃ v, (slackProgram es fs sized).Optimal v := by
  -- No slack is above one, which bounds the cost.
  obtain ⟨t, ht, hkeeps⟩ := exists_keeps hx
  refine LinearProgram.exists_optimal (h.feasible_iff.2 ⟨ht, hkeeps⟩) (-1) fun u hu => ?_
  rw [(h.eq_flat_append hu).2, dot_cost (Point.length_flat ..), neg_le_neg_iff]
  exact (h.keeps_of_feasible hu).1

/-! ## What phase one finds -/

theorem over_ofFlat {v : List ℝ} (hv : v.length = Point.totalDim sized) :
    (Point.ofFlat sized v).Over ordering fun k => (dims.lookup k).getD 0 := by
  constructor
  · intro k
    rw [Point.keys_ofFlat h.nodup_sized, Point.keys_of_sized h.sized_eq]
  · intro k u hu
    rw [(h.mem_sized (Point.length_lookup_ofFlat h.nodup_sized hv hu)).2, Option.getD_some]

theorem over_zero : (Point.zero (Keyed.ofList sized) : Point ℝ).Over ordering
    fun k => (dims.lookup k).getD 0 := by
  constructor
  · intro k
    rw [Point.zero, Keyed.keys_map, Keyed.mem_keys_ofList, Point.keys_of_sized h.sized_eq]
  · intro k u hu
    rw [Point.zero, Keyed.lookup_map] at hu
    obtain ⟨n, hn, rfl⟩ := Option.map_eq_some_iff.1 hu
    have hmem := h.mem_sized ((Keyed.lookup_ofList h.nodup_sized).1 hn)
    rw [hmem.2, Option.getD_some, Vec.length_zeros]

theorem fits {g : Graph ℝ} (hg : g.Over sized) {f : Factor ℝ} (hf : f ∈ g)
    (hx : x.Over ordering fun k => (dims.lookup k).getD 0) : f.Fits x := by
  intro e he v hv
  rw [hx.length_eq e.1 v hv, (h.mem_sized (hg f hf e he)).2, Option.getD_some]

theorem split_eq (v : List ℝ) : Point.split v ordering dims =
    if Point.totalDim sized = v.length then .ok (Point.ofFlat sized v)
    else .error (.dimension (.stacked v.length (Point.totalDim sized))) := by
  rw [Point.split, h.sized_eq, ok_bind]
  rfl

variable {kernels : Kernels ℝ} {tol : ℝ}

theorem findFeasible_of_nothing (hnothing : Point.totalDim sized = 0 ∨ es = [] ∧ fs = []) :
    findFeasible kernels es fs ordering dims tol =
      .ok ⟨Point.zero (Keyed.ofList sized), none⟩ := by
  rw [findFeasible, h.sized_eq, ok_bind, if_pos hnothing]
  rfl

theorem findFeasible_eq (hasked : ¬(Point.totalDim sized = 0 ∨ es = [] ∧ fs = [])) :
    findFeasible kernels es fs ordering dims tol =
    match kernels.linearProgram (slackProgram es fs sized) with
    | .infeasible => .error .inconsistentEqualities
    | .failed => .error .badValue
    | .optimal v =>
      if v.getD (Point.totalDim sized) 0 < -tol then
        .error (.unsatisfiable (v.getD (Point.totalDim sized) 0))
      else do
        return ⟨← Point.split (v.take (Point.totalDim sized)) ordering dims,
          some (v.getD (Point.totalDim sized) 0)⟩ := by
  rw [findFeasible, h.sized_eq, ok_bind]
  dsimp only
  rw [if_neg hasked, h.ofGraph_eq h.over_equalities, ok_bind, h.ofGraph_eq h.over_inequalities,
    ok_bind]
  simp only [LinearSystem.isFinite_real, Bool.and_self, Bool.not_true, Bool.false_eq_true,
    ↓reduceIte]
  rw [← slackProgram]
  cases kernels.linearProgram (slackProgram es fs sized) with
  | infeasible => rfl
  | failed => rfl
  | optimal v =>
      dsimp only
      split <;> rfl

/-- Phase one answers with zero if nothing is asked, or with an optimum cut to the keys. -/
theorem findFeasible_eq_ok {found : Found ℝ}
    (hfound : findFeasible kernels es fs ordering dims tol = .ok found) :
    ((Point.totalDim sized = 0 ∨ es = [] ∧ fs = []) ∧
      found.point = Point.zero (Keyed.ofList sized)) ∨
    ∃ v, kernels.linearProgram (slackProgram es fs sized) = .optimal v ∧
      -tol ≤ v.getD (Point.totalDim sized) 0 ∧
      (v.take (Point.totalDim sized)).length = Point.totalDim sized ∧
      found.point = Point.ofFlat sized (v.take (Point.totalDim sized)) := by
  by_cases hnothing : Point.totalDim sized = 0 ∨ es = [] ∧ fs = []
  · rw [h.findFeasible_of_nothing hnothing] at hfound
    obtain rfl := Except.ok.inj hfound
    exact .inl ⟨hnothing, rfl⟩
  · rw [h.findFeasible_eq hnothing] at hfound
    cases hv : kernels.linearProgram (slackProgram es fs sized) with
    | infeasible =>
        rw [hv] at hfound
        cases hfound
    | failed =>
        rw [hv] at hfound
        cases hfound
    | optimal v =>
        rw [hv] at hfound
        dsimp only at hfound
        split at hfound
        · cases hfound
        · rename_i hslack
          simp only [bind_eq_ok, pure_eq_ok] at hfound
          obtain ⟨x, hx, rfl⟩ := hfound
          rw [h.split_eq] at hx
          split at hx
          · rename_i hlen
            exact .inr ⟨v, rfl, not_lt.1 hslack, hlen.symm, (Except.ok.inj hx).symm⟩
          · cases hx

/-- Of an exact kernel it learns that the equalities are inconsistent, or the largest slack that is
kept up to one, with a point that keeps it. -/
theorem findFeasible_cases (hlp : kernels.ExactLinearProgram)
    (hasked : ¬(Point.totalDim sized = 0 ∨ es = [] ∧ fs = [])) (tol : ℝ) :
    ((∀ x t, ¬Keeps es fs x t) ∧
      findFeasible kernels es fs ordering dims tol = .error .inconsistentEqualities) ∨
    ∃ p t, p.Over ordering (fun k => (dims.lookup k).getD 0) ∧ Keeps es fs p t ∧
      (∀ y s, s ≤ 1 → Keeps es fs y s → s ≤ t) ∧
      findFeasible kernels es fs ordering dims tol =
        if t < -tol then .error (.unsatisfiable t) else .ok ⟨p, some t⟩ := by
  rw [h.findFeasible_eq hasked]
  have hexact := hlp (slackProgram es fs sized)
  cases hv : kernels.linearProgram (slackProgram es fs sized) with
  | infeasible =>
      rw [hv] at hexact
      refine .inl ⟨fun x t hx => ?_, rfl⟩
      obtain ⟨s, hs, hkeeps⟩ := exists_keeps hx.equalities
      exact hexact _ (h.feasible_iff.2 ⟨hs, hkeeps⟩)
  | failed =>
      rw [hv] at hexact
      obtain ⟨⟨v, hfeasible⟩, hnone⟩ := hexact
      obtain ⟨u, hu⟩ := h.exists_optimal (h.keeps_of_feasible hfeasible).2.equalities
      exact absurd hu (hnone u)
  | optimal v =>
      rw [hv] at hexact
      obtain ⟨htake, -⟩ := h.eq_flat_append hexact.1
      obtain ⟨hkeeps, hbest⟩ := h.keeps_of_optimal hexact
      refine .inr ⟨_, _, h.over_ofFlat htake, hkeeps, hbest, ?_⟩
      dsimp only
      rw [h.split_eq, if_pos htake.symm]
      rfl

end Posed

section Found

variable {K : Type} [Scalar K] {kernels : Kernels K} {equalities : List (Equality K)}
  {inequalities : List (Inequality K)} {ordering : List Key} {dims : Keyed Nat} {tol : K}
  {found : Found K}

/-- Whatever the kernel answers, the point that is found is zero or laid out over the ordering. -/
theorem point_of_findFeasible
    (h : findFeasible kernels equalities inequalities ordering dims tol = .ok found) :
    ∃ sized, (Point.sized ordering dims : Except (Fault K) _) = .ok sized ∧
      (found.point = Point.zero (Keyed.ofList sized) ∨
        ∃ v, v.length = Point.totalDim sized ∧ found.point = Point.ofFlat sized v) := by
  simp only [findFeasible, bind_eq_ok] at h
  obtain ⟨sized, hsized, h⟩ := h
  refine ⟨sized, hsized, ?_⟩
  split at h
  · obtain rfl := pure_eq_ok.1 h
    exact .inl rfl
  · simp only [bind_eq_ok] at h
    obtain ⟨C, _, A, _, h⟩ := h
    split at h
    · cases h
    · split at h
      · cases h
      · cases h
      · split at h
        · cases h
        · simp only [Point.split, hsized, ok_bind, bind_eq_ok, pure_eq_ok] at h
          obtain ⟨x, hx, rfl⟩ := h
          split at hx
          · exact .inr ⟨_, Eq.symm ‹_›, (pure_eq_ok.1 hx).symm⟩
          · cases hx

theorem mem_keys_findFeasible
    (h : findFeasible kernels equalities inequalities ordering dims tol = .ok found) {k : Key}
    (hk : k ∈ ordering) : k ∈ found.point.keys := by
  obtain ⟨sized, hsized, hpoint | ⟨v, _, hpoint⟩⟩ := point_of_findFeasible h
  · rwa [hpoint, Point.zero, Keyed.keys_map, Keyed.mem_keys_ofList, Point.keys_of_sized hsized]
  · rwa [hpoint, Point.ofFlat, Keyed.mem_keys_ofList, Point.keys_pieces,
      Point.keys_of_sized hsized]

end Found

/-! ## Exactness -/

section Exact

variable {kernels : Kernels ℝ} {tol : ℝ} {φ : ℝ → Prop}

/-- The point satisfies every equality, and the excess of every inequality is as `φ` says. -/
structure Meets (es : List (Equality ℝ)) (fs : List (Inequality ℝ)) (φ : ℝ → Prop) (x : Point ℝ) :
    Prop where
  equalities : ∀ f ∈ es, f.toFactor.residual x = .ok (Vec.zeros f.toFactor.rows)
  inequalities : ∀ f ∈ fs, ∃ a, f.excess x = .ok a ∧ φ a

/-- The faults that say that no point satisfies the constraints. -/
inductive Infeasible : Fault ℝ → Prop
  | equalities : Infeasible .inconsistentEqualities
  | inequalities (slack : ℝ) : Infeasible (.unsatisfiable slack)

theorem Meets.keeps (hx : Meets es fs φ x) (hφ : ∀ a, φ a → a ≤ -t) : Keeps es fs x t := by
  refine ⟨fun f hf => ?_, fun f hf => ?_⟩
  · have hdefect := ((Factor.residual_eq_ok _).1 (hx.equalities f hf)).2
    exact Vec.eq_of_sub_eq_zeros (f.toFactor.length_values x) hdefect.symm
  · obtain ⟨a, ha, hle⟩ := hx.inequalities f hf
    have hexcess := (f.excess_eq_ok.1 ha).2
    linarith [hφ a hle]

theorem exists_slack (hfs : ∀ f ∈ fs, f.value x < f.bound) :
    ∃ t, 0 < t ∧ t ≤ 1 ∧ ∀ f ∈ fs, f.value x + t ≤ f.bound := by
  induction fs with
  | nil => exact ⟨1, zero_lt_one, le_rfl, List.forall_mem_nil _⟩
  | cons f fs ih =>
      obtain ⟨hf, hfs⟩ := List.forall_mem_cons.1 hfs
      obtain ⟨t, hpos, hle, hkeeps⟩ := ih hfs
      refine ⟨min t (f.bound - f.value x), lt_min hpos (sub_pos.2 hf), (min_le_left ..).trans hle,
        List.forall_mem_cons.2 ⟨?_, fun g hg => ?_⟩⟩
      · linarith [min_le_right t (f.bound - f.value x)]
      · linarith [min_le_left t (f.bound - f.value x), hkeeps g hg]

theorem Meets.exists_keeps (hx : Meets es fs (· < 0) x) : ∃ t, 0 < t ∧ t ≤ 1 ∧ Keeps es fs x t := by
  have hstrict : ∀ f ∈ fs, f.value x < f.bound := by
    intro f hf
    obtain ⟨a, ha, hneg⟩ := hx.inequalities f hf
    have hexcess := (f.excess_eq_ok.1 ha).2
    linarith
  obtain ⟨t, hpos, hle, hslack⟩ := exists_slack hstrict
  have hnonpos : Keeps es fs x 0 := hx.keeps fun a ha => by rw [neg_zero]; exact le_of_lt ha
  exact ⟨t, hpos, hle, hnonpos.equalities, hslack⟩

theorem Keeps.meets (hkeeps : Keeps es fs x t) (h : Posed es fs ordering dims sized)
    (hx : x.Over ordering fun k => (dims.lookup k).getD 0) (hφ : ∀ a ≤ -t, φ a) :
    Meets es fs φ x := by
  refine ⟨fun f hf => ?_, fun f hf => ?_⟩
  · have hfits := h.fits h.over_equalities (List.mem_map_of_mem (f := (·.toFactor)) hf) hx
    refine (Factor.residual_eq_ok _).2 ⟨hfits, ?_⟩
    rw [Factor.defect, hkeeps.equalities f hf, Vec.sub_self_eq_zeros]
    rfl
  · have hfits := h.fits h.over_inequalities (List.mem_map_of_mem (f := (·.toFactor))
      (List.mem_map_of_mem (f := (·.toEquality)) hf)) hx
    refine ⟨_, f.excess_eq_ok.2 ⟨Inequality.fits_toEquality.1 hfits, rfl⟩, hφ _ ?_⟩
    linarith [hkeeps.inequalities f hf]

theorem Meets.of_nothing (h : es = [] ∧ fs = []) (φ : ℝ → Prop) (x : Point ℝ) : Meets es fs φ x := by
  obtain ⟨rfl, rfl⟩ := h
  exact ⟨List.forall_mem_nil _, List.forall_mem_nil _⟩

/-- Phase one refuses exactly where no point satisfies the equalities and all inequalities to within
the tolerance. Otherwise it finds such a point, which satisfies the inequalities, or satisfies them
strictly, if any point does. -/
theorem findFeasible_exact (hlp : kernels.ExactLinearProgram)
    (h : Posed es fs ordering dims sized) (hdim : 0 < Point.totalDim sized) (htol : 0 < tol) :
    ((∃ cause, findFeasible kernels es fs ordering dims tol = .error cause ∧ Infeasible cause) ↔
      ¬∃ x, Meets es fs (· ≤ tol) x) ∧
    ((∃ x, Meets es fs (· ≤ tol) x) → ∃ found,
      findFeasible kernels es fs ordering dims tol = .ok found ∧
      found.point.Over ordering (fun k => (dims.lookup k).getD 0) ∧
      Meets es fs (· ≤ tol) found.point ∧
      ((∃ y, Meets es fs (· ≤ 0) y) → Meets es fs (· ≤ 0) found.point) ∧
      ((∃ y, Meets es fs (· < 0) y) → Meets es fs (· < 0) found.point)) := by
  by_cases hnothing : es = [] ∧ fs = []
  · have hfound : findFeasible kernels es fs ordering dims tol = _ :=
      h.findFeasible_of_nothing (.inr hnothing)
    have hmeets := Meets.of_nothing hnothing
    refine ⟨iff_of_false ?_ (not_not.2 ⟨.empty, hmeets _ _⟩), fun _ =>
      ⟨_, hfound, h.over_zero, hmeets _ _, fun _ => hmeets _ _, fun _ => hmeets _ _⟩⟩
    rintro ⟨cause, hcause, _⟩
    rw [hfound] at hcause
    cases hcause
  · have hasked : ¬(Point.totalDim sized = 0 ∨ es = [] ∧ fs = []) := not_or.2 ⟨hdim.ne', hnothing⟩
    rcases h.findFeasible_cases hlp hasked tol with
      ⟨hnone, hfind⟩ | ⟨p, t, hover, hkeeps, hbest, hfind⟩
    · have hno : ¬∃ x, Meets es fs (· ≤ tol) x := fun ⟨x, hx⟩ =>
        hnone x (-tol) (hx.keeps fun a ha => by rwa [neg_neg])
      exact ⟨iff_of_true ⟨_, hfind, .equalities⟩ hno, fun hsome => absurd hsome hno⟩
    · have hslack : (∃ x, Meets es fs (· ≤ tol) x) ↔ -tol ≤ t := by
        constructor
        · rintro ⟨x, hx⟩
          exact hbest x _ (by linarith) (hx.keeps fun a ha => by rwa [neg_neg])
        · exact fun hle => ⟨p, hkeeps.meets h hover fun a ha => by linarith⟩
      rw [hslack, hfind]
      rcases lt_or_ge t (-tol) with hlt | hge
      · rw [if_pos hlt]
        exact ⟨iff_of_true ⟨_, rfl, .inequalities t⟩ (not_le.2 hlt),
          fun hle => absurd hle (not_le.2 hlt)⟩
      · rw [if_neg (not_lt.2 hge)]
        refine ⟨iff_of_false (fun ⟨_, hcause, _⟩ => nomatch hcause) (not_not.2 hge), fun _ =>
          ⟨_, rfl, hover, hkeeps.meets h hover fun a ha => by linarith, ?_, ?_⟩⟩
        · rintro ⟨y, hy⟩
          have hle := hbest y 0 zero_le_one (hy.keeps fun a ha => by simpa using ha)
          exact hkeeps.meets h hover fun a ha => by linarith
        · rintro ⟨y, hy⟩
          obtain ⟨s, hpos, hs, hys⟩ := hy.exists_keeps
          have hle := hbest y s hs hys
          exact hkeeps.meets h hover fun a ha => by linarith

end Exact

end PhaseOne

namespace OneVariable

/-- The equality `x = 2` under the inequality `x ≤ 3`. -/
theorem posed_pinned : PhaseOne.Posed [(atMost 1 2 1).toEquality] [atMost 1 3 0] [key]
    (.ofList [(key, 1)]) [(key, 1)] where
  nodup := List.nodup_singleton key
  sized_eq := rfl
  over_equalities := List.forall_mem_singleton.2 (List.forall_mem_singleton.2 (.head _))
  over_inequalities := List.forall_mem_singleton.2 (List.forall_mem_singleton.2 (.head _))

theorem meets_pinned :
    PhaseOne.Meets [(atMost 1 2 1).toEquality] [atMost 1 3 0] (· < 0) (point 2) := by
  refine ⟨List.forall_mem_singleton.2 ?_, List.forall_mem_singleton.2 ?_⟩
  · refine (Factor.residual_eq_ok _).2 ⟨Inequality.fits_toEquality.2 (fits_atMost _ _ _ _), ?_⟩
    rw [Inequality.defect_toEquality, value_atMost, part_point]
    simp
  · refine ⟨_, (Inequality.excess_eq_ok _).2 ⟨fits_atMost _ _ _ _, rfl⟩, ?_⟩
    rw [value_atMost, part_point]
    norm_num

/-- Phase one finds the point two, and that it lies inside of the inequality. -/
theorem findFeasible_exact_pinned : ∃ found, PhaseOne.findFeasible .exact
    [(atMost 1 2 1).toEquality] [atMost 1 3 0] [key] (.ofList [(key, 1)]) 1e-6 = .ok found ∧
      PhaseOne.Meets [(atMost 1 2 1).toEquality] [atMost 1 3 0] (· < 0) found.point := by
  have hsome : ∃ x, PhaseOne.Meets [(atMost 1 2 1).toEquality] [atMost 1 3 0] (· ≤ 1e-6) x := by
    refine ⟨point 2, meets_pinned.equalities, fun f hf => ?_⟩
    obtain ⟨a, ha, hneg⟩ := meets_pinned.inequalities f hf
    exact ⟨a, ha, le_trans (le_of_lt hneg) (by norm_num)⟩
  obtain ⟨found, hfound, _, _, _, hstrict⟩ := (PhaseOne.findFeasible_exact
    Kernels.exact_linearProgram posed_pinned (by decide) (by norm_num : (0 : ℝ) < 1e-6)).2 hsome
  exact ⟨found, hfound, hstrict ⟨_, meets_pinned⟩⟩

end OneVariable

end ActiveSet
