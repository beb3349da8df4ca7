import Mathlib.Data.List.TakeWhile
import ActiveSet.Proofs.Shifts

/-!
# Stacked systems and factors

The system that a graph stacks into is the graph itself, laid out over an ordering: its residual is
that of the factors one behind the other, and its transpose takes a residual to the gradients of the
keys one behind the other.
-/

namespace ActiveSet

/-! ## Places in a stacked vector -/

namespace Point

/-- Where the coordinates of a key start in a stacked vector. -/
def offset (k : Key) : List (Key × Nat) → Nat
  | [] => 0
  | e :: rest => if e.1 = k then 0 else e.2 + offset k rest

theorem totalDim_eq_sum (sized : List (Key × Nat)) : totalDim sized = (sized.map (·.2)).sum := by
  induction sized with
  | nil => rfl
  | cons e sized ih => rw [totalDim, ih, List.map_cons, List.sum_cons]

/-- A vector laid out key by key has at the offset of a key what it has for that key. -/
theorem slice_flatMap {sized : List (Key × Nat)} (hn : (sized.map (·.1)).Nodup)
    {u : Key × Nat → List ℝ} (hu : ∀ e ∈ sized, (u e).length = e.2) {e : Key × Nat}
    (he : e ∈ sized) : ((sized.flatMap u).drop (offset e.1 sized)).take e.2 = u e := by
  induction sized with
  | nil => cases he
  | cons f sized ih =>
      rw [List.map_cons, List.nodup_cons] at hn
      obtain ⟨hf, hu⟩ := List.forall_mem_cons.1 hu
      rw [List.flatMap_cons, offset]
      rcases List.mem_cons.1 he with rfl | he
      · rw [if_pos rfl, List.drop_zero, List.take_left' hf]
      · have hne : f.1 ≠ e.1 := fun heq => hn.1 (heq ▸ List.mem_map_of_mem (f := (·.1)) he)
        rw [if_neg hne, ← List.drop_drop, List.drop_left' hf, ih hn.2 hu he]

theorem exists_sized {ordering : List Key} {dims : Keyed Nat}
    (h : ∀ k ∈ ordering, k ∈ dims.keys) :
    ∃ sized, (Point.sized ordering dims : Except (Fault ℝ) _) = .ok sized ∧
      sized.map (·.1) = ordering ∧
      ∀ e, e ∈ sized ↔ e.1 ∈ ordering ∧ dims.lookup e.1 = some e.2 := by
  let D : Key → Nat := fun k => (dims.lookup k).getD 0
  have hD : dims.Within D := fun k d hd => by simp [D, hd]
  refine ⟨_, Graph.sized_eq_ok hD h, Graph.keys_sizedBy .., fun e => ?_⟩
  rw [Graph.sizedBy, List.mem_map]
  constructor
  · rintro ⟨k, hk, rfl⟩
    obtain ⟨d, hd⟩ := (Keyed.mem_keys_iff _).1 (h k hk)
    exact ⟨hk, hD k d hd ▸ hd⟩
  · rintro ⟨hk, hd⟩
    exact ⟨e.1, hk, by rw [← hD _ _ hd]⟩

theorem stack_of_subset {K : Type} {x : Point K} {ordering : List Key} (h : ordering ⊆ x.keys) :
    x.stack ordering = .ok (ordering.flatMap x.part) := by
  have hget : ∀ k ∈ ordering, x.get k = (.ok (x.part k) : Except (Fault K) _) := by
    intro k hk
    obtain ⟨v, hv⟩ := (Keyed.mem_keys_iff x).1 (h hk)
    rw [Keyed.get_eq_ok_iff, part_of_lookup hv, hv]
  rw [stack, mapM_eq_map hget, ok_bind, pure_eq_ok, List.flatMap_def]

theorem stack_eq_flat {sized : List (Key × Nat)} {x : Point ℝ}
    (hx : ∀ e ∈ sized, ∃ v, x.lookup e.1 = some v ∧ v.length = e.2) :
    x.stack (sized.map (·.1)) = .ok (flat sized x) := by
  have hkeys : sized.map (·.1) ⊆ x.keys := fun k hk => by
    obtain ⟨e, he, rfl⟩ := List.mem_map.1 hk
    obtain ⟨v, hv, _⟩ := hx e he
    exact (Keyed.mem_keys_iff x).2 ⟨v, hv⟩
  rw [stack_of_subset hkeys, flat, List.flatMap_def, List.flatMap_def, List.map_map]
  congr 2
  refine List.map_congr_left fun e he => ?_
  obtain ⟨v, hv, hlen⟩ := hx e he
  rw [Function.comp_apply, part_of_lookup hv, Vec.fit_eq_self hlen]

end Point

/-! ## Residuals and gradients -/

namespace LinearSystem

variable {g : Graph ℝ} {sized : List (Key × Nat)}

theorem residual_ofSized (hn : (sized.map (·.1)).Nodup) (hg : g.Over sized) (x : Point ℝ) :
    Vec.sub ((ofSized g sized).matrix.mulVec (Point.flat sized x)) (ofSized g sized).rhs =
      g.flatMap fun f => f.defect x := by
  rw [mulVec_ofSized hn hg]
  exact Vec.sub_flatMap fun f _ => f.length_values x

theorem cols_of_over (hn : (sized.map (·.1)).Nodup) (hg : g.Over sized) {e : Key × Nat}
    (he : e ∈ sized) {f : Factor ℝ} (hf : f ∈ g) {A : Matrix ℝ}
    (hA : f.terms.lookup e.1 = some A) : A.cols = e.2 := by
  have hmem := hg f hf (e.1, A) ((Keyed.lookup_iff _).1 hA)
  rw [← List.inj_on_of_nodup_map hn hmem he rfl]

/-- What a block does with a vector does not depend on what a cut or a filling changes. -/
private theorem dot_fit_of_cols {A : Option (Matrix ℝ)} {d : Nat} (hA : ∀ B, A = some B → B.cols = d)
    (v r : List ℝ) : (A.elim 0 fun B => Vec.dot (B.mulVec (Vec.fit d v)) r) =
      A.elim 0 fun B => Vec.dot (B.mulVec v) r := by
  cases A with
  | none => rfl
  | some B => rw [Option.elim_some, Option.elim_some, Matrix.mulVec_fit (hA B rfl).le]

/-- Transposed, a stacked system sums up for each key what the factors have there. -/
theorem mulVec_transpose_ofSized (hn : (sized.map (·.1)).Nodup) (hg : g.Over sized)
    {r : Factor ℝ → List ℝ} (hr : ∀ f ∈ g, (r f).length = f.rows) :
    (ofSized g sized).matrix.transpose.mulVec (g.flatMap r) =
      sized.flatMap fun e => Vec.sum e.2 (g.filterMap fun f => f.adjoint e.1 (r f)) := by
  have hcols : ∀ e ∈ sized, ∀ f ∈ g, ∀ A, f.terms.lookup e.1 = some A → A.cols = e.2 :=
    fun e he f hf A hA => cols_of_over hn hg he hf hA
  have hlen : ∀ e ∈ sized,
      (Vec.sum e.2 (g.filterMap fun f => f.adjoint e.1 (r f))).length = e.2 := fun e he =>
    length_sum_adjoint (F := id) (hcols e he)
  refine Vec.ext_dot_of_length ?_ fun v hv => ?_
  · rw [Matrix.length_mulVec, Matrix.height_transpose, List.length_flatMap, List.map_congr_left hlen,
      ← Point.totalDim_eq_sum]
    rfl
  · rw [Matrix.length_mulVec, Matrix.height_transpose] at hv
    obtain ⟨z, rfl⟩ : ∃ z, Point.flat sized z = v := ⟨_, Point.flat_ofFlat hn hv⟩
    -- Against a point `z` both sides sum `r · A z` over all blocks, by factor or by key.
    calc Vec.dot (Point.flat sized z) ((ofSized g sized).matrix.transpose.mulVec (g.flatMap r))
        = Vec.dot (g.values z) (g.flatMap r) := by
          rw [Vec.dot_comm, Matrix.dot_mulVec_transpose, mulVec_ofSized hn hg, Vec.dot_comm]
      _ = (g.map fun f => (f.terms.entries.map fun e =>
            Vec.dot (e.2.mulVec (z.part e.1)) (r f)).sum).sum := by
          rw [Graph.values, Vec.dot_flatMap fun f hf => by rw [f.length_values, hr f hf]]
          simp only [Factor.dot_values]
      _ = (g.map fun f => (sized.map fun e => (f.terms.lookup e.1).elim 0 fun A =>
            Vec.dot (A.mulVec (z.part e.1)) (r f)).sum).sum := by
          congr 1
          refine List.map_congr_left fun f hf => ?_
          have hkeys : ∀ k ∈ f.terms.keys, k ∈ sized.map (·.1) := List.forall_mem_map.2 fun e he =>
            List.mem_map_of_mem (f := (·.1)) (hg f hf e he)
          rw [← Keyed.sum_lookup f.terms hn hkeys fun k A => Vec.dot (A.mulVec (z.part k)) (r f),
            List.map_map]
          rfl
      _ = (sized.map fun e => (g.map fun f => (f.terms.lookup e.1).elim 0 fun A =>
            Vec.dot (A.mulVec (z.part e.1)) (r f)).sum).sum := sum_swap ..
      _ = Vec.dot (Point.flat sized z)
            (sized.flatMap fun e => Vec.sum e.2 (g.filterMap fun f => f.adjoint e.1 (r f))) := by
          rw [Point.flat, Vec.dot_flatMap fun e he => by rw [Vec.length_fit, hlen e he]]
          congr 1
          refine List.map_congr_left fun e he => ?_
          rw [dot_sum_adjoint (F := fun f => f) (hcols e he)]
          congr 1
          exact List.map_congr_left fun f hf => (dot_fit_of_cols (hcols e he f hf) ..).symm

end LinearSystem

/-! ## Graphs over an ordering -/

theorem Graph.Over.fits {g : Graph ℝ} {sized : List (Key × Nat)} (hg : g.Over sized) {x : Point ℝ}
    (hx : ∀ e ∈ sized, ∃ v, x.lookup e.1 = some v ∧ v.length = e.2) : ∀ f ∈ g, f.Fits x := by
  intro f hf e he v hv
  obtain ⟨u, hu, hlen⟩ := hx _ (hg f hf e he)
  rw [Option.some.inj (hv.symm.trans hu), hlen]

/-- The gradient at a key stands at its offset in the transposed product. -/
theorem LinearSystem.gradient_eq_slice {g : Graph ℝ} {sized : List (Key × Nat)}
    (hn : (sized.map (·.1)).Nodup) (hg : g.Over sized) {x : Point ℝ} (hfits : ∀ f ∈ g, f.Fits x)
    {k : Key} {d : Nat} (hk : g.Mentions k) (hd : (k, d) ∈ sized) :
    g.gradient k x = .ok ((((ofSized g sized).matrix.transpose.mulVec
      (g.flatMap fun f => f.defect x)).drop (Point.offset k sized)).take d) := by
  have hcols : ∀ e ∈ sized, ∀ f ∈ g, ∀ A, f.terms.lookup e.1 = some A → A.cols = e.2 :=
    fun e he f hf A hA => cols_of_over hn hg he hf hA
  rw [mulVec_transpose_ofSized hn hg fun f _ => f.length_defect x, Point.slice_flatMap hn ?_ hd]
  · exact Graph.gradient_of_mentions hfits (hcols _ hd) hk
  · exact fun e he => length_sum_adjoint (F := id) (hcols e he)

namespace MixedGraph

variable {g : MixedGraph ℝ} {ordering : List Key} {dims : Keyed Nat}

theorem keys_toGraph (g : MixedGraph ℝ) : g.toGraph.keys = g.keys := by
  have hkeys : ∀ f ∈ g.factors, f.toFactor.keys = f.keys := by
    intro f _
    cases f with
    | leastSquares f => rfl
    | equality f => rfl
    | inequality f => exact Keyed.keys_map ..
  rw [Graph.keys, toGraph, List.flatMap_map, List.flatMap_congr hkeys, keys]

/-- Without inequalities nothing stops the stacking. -/
theorem stack_eq (hg : ∀ f ∈ g.factors, f.kind ≠ .inequality) :
    g.stack (some ordering) (some dims) = LinearSystem.ofGraph g.toGraph ordering dims := by
  have hall : g.factors.takeWhile (·.kind ≠ .inequality) = g.factors :=
    List.takeWhile_eq_self_iff.2 fun f hf => decide_eq_true (hg f hf)
  rw [stack, pure_bind]
  simp only [hall, lt_irrefl, ↓reduceIte, Option.getD_some]
  exact bind_pure _

/--
Over an ordering without repetitions that covers its keys, a graph of costs and equations stacks into
a system with a row for each row of a factor and a column for each dimension. Applied to a point, the
system gives the residuals, the error and the gradients of the factors.
-/
theorem stack_agrees (hg : ∀ f ∈ g.factors, f.kind ≠ .inequality) (hn : ordering.Nodup)
    (hdims : ∀ k ∈ ordering, k ∈ dims.keys)
    (hcovers : ∀ f ∈ g.toGraph, ∀ e ∈ f.terms.entries,
      e.1 ∈ ordering ∧ dims.lookup e.1 = some e.2.cols) :
    ∃ s sized, g.stack (some ordering) (some dims) = .ok s ∧
      (Point.sized ordering dims : Except (Fault ℝ) _) = .ok sized ∧
      s.matrix.height = (g.toGraph.map Factor.rows).sum ∧ s.rhs.length = s.matrix.height ∧
      s.matrix.cols = (sized.map (·.2)).sum ∧
      ∀ x : Point ℝ, (∀ k ∈ ordering, ∃ v, x.lookup k = some v ∧ dims.lookup k = some v.length) →
        ∃ v rs, x.stack ordering = .ok v ∧ v.length = s.matrix.cols ∧
          g.toGraph.mapM (·.residual x) = .ok rs ∧
          Vec.sub (s.matrix.mulVec v) s.rhs = rs.flatten ∧
          g.error x = .ok (0.5 * Vec.dot rs.flatten rs.flatten) ∧
          ∀ k ∈ g.keys, ∃ d, dims.lookup k = some d ∧ g.toGraph.gradient k x =
            .ok (((s.matrix.transpose.mulVec rs.flatten).drop (Point.offset k sized)).take d) := by
  obtain ⟨sized, hsized, rfl, hmem⟩ := Point.exists_sized hdims
  have hplace : ∀ e ∈ sized, e.1 ∈ sized.map (·.1) ∧ dims.lookup e.1 = some e.2 :=
    fun e => (hmem e).1
  have hover : g.toGraph.Over sized := fun f hf e he => (hmem _).2 (hcovers f hf e he)
  refine ⟨_, sized, (stack_eq hg).trans (LinearSystem.ofGraph_eq_ok hsized hover hplace), hsized, ?_,
    LinearSystem.length_rhs_ofSized .., Point.totalDim_eq_sum sized, fun x hx => ?_⟩
  · rw [LinearSystem.height_ofSized, Graph.rhs, List.length_flatMap]
    rfl
  have hheld : ∀ e ∈ sized, ∃ v, x.lookup e.1 = some v ∧ v.length = e.2 := by
    intro e he
    obtain ⟨hk, hd⟩ := hplace e he
    obtain ⟨v, hv, hlen⟩ := hx e.1 hk
    exact ⟨v, hv, Option.some.inj (hlen.symm.trans hd)⟩
  have hfits : ∀ f ∈ g.toGraph, f.Fits x := hover.fits hheld
  have hresiduals : g.toGraph.mapM (·.residual x) = .ok (g.toGraph.map (·.defect x)) :=
    mapM_eq_map fun f hf => f.residual_eq_ok.2 ⟨hfits f hf, rfl⟩
  refine ⟨_, _, Point.stack_eq_flat hheld, Point.length_flat .., hresiduals, ?_, ?_, fun k hk => ?_⟩
  · rw [LinearSystem.residual_ofSized hn hover, List.flatMap_def]
  · rw [error_toGraph hg, Graph.error_eq_ok, ← List.flatMap_def, Vec.dot_flatMap fun _ _ => rfl,
      List.sum_map_mul_left]
    exact ⟨hfits, rfl⟩
  · rw [← keys_toGraph, Graph.mem_keys] at hk
    obtain ⟨f, hf, hkf⟩ := id hk
    obtain ⟨A, hA⟩ := (Keyed.mem_keys_iff _).1 hkf
    have hd := hover f hf (k, A) ((Keyed.lookup_iff _).1 hA)
    refine ⟨A.cols, (hplace _ hd).2, ?_⟩
    rw [LinearSystem.gradient_eq_slice hn hover hfits hk hd, List.flatMap_def]

end MixedGraph

namespace TwoVariables

/-- A factor that asks for nothing that could be met: its only block is zero. -/
noncomputable def idle (b : ℝ) : Factor ℝ where
  terms := Keyed.ofList [(spare, .zero 1 2)]
  b := [b]
  rows_eq := List.forall_mem_singleton.2 rfl

theorem defect_idle (b : ℝ) (x : Point ℝ) : (idle b).defect x = [-b] := by
  have hdefect : (idle b).defect x = [Vec.dot (Vec.zeros 2) (x.part spare) + 0 - b] := rfl
  rw [hdefect, Vec.dot_zeros_left, add_zero, zero_sub]

noncomputable def withIdle (b : ℝ) : MixedGraph ℝ where
  kind := .leastSquares
  factors := [.leastSquares (gap b), .leastSquares (idle b)]

def atAll (a b : ℝ) : Point ℝ := Keyed.ofList [(left, [a]), (spare, [a, b]), (right, [b])]

def dims : Keyed Nat := Keyed.ofList [(left, 1), (right, 1), (spare, 2)]

/-- The idle key keeps its two columns between those of the other keys. -/
theorem stack_agrees_withIdle : (∀ f ∈ (withIdle 1).factors, f.kind ≠ .inequality) ∧
    [right, spare, left].Nodup ∧ (∀ k ∈ [right, spare, left], k ∈ dims.keys) ∧
    (∀ f ∈ (withIdle 1).toGraph, ∀ e ∈ f.terms.entries,
      e.1 ∈ [right, spare, left] ∧ dims.lookup e.1 = some e.2.cols) ∧
    (∀ k ∈ [right, spare, left], ∃ v, (atAll 1 1).lookup k = some v ∧
      dims.lookup k = some v.length) ∧
    ∃ s, (withIdle 1).stack (some [right, spare, left]) (some dims) = .ok s ∧
      s.matrix.height = 2 ∧ s.matrix.cols = 4 ∧
      (withIdle 1).toGraph.gradient left (atAll 1 1) =
        .ok (((s.matrix.transpose.mulVec [-1, -1]).drop 3).take 1) := by
  have hkind : ∀ f ∈ (withIdle 1).factors, f.kind ≠ .inequality := by
    simp [withIdle, AnyFactor.kind]
  have hn : [right, spare, left].Nodup := by decide
  have hdims : ∀ k ∈ [right, spare, left], k ∈ dims.keys := by decide
  have hcovers : ∀ f ∈ (withIdle 1).toGraph, ∀ e ∈ f.terms.entries,
      e.1 ∈ [right, spare, left] ∧ dims.lookup e.1 = some e.2.cols := by
    refine List.forall_mem_cons.2 ⟨?_, List.forall_mem_singleton.2 ?_⟩
    · exact List.forall_mem_cons.2 ⟨⟨by decide, rfl⟩,
        List.forall_mem_singleton.2 ⟨by decide, rfl⟩⟩
    · exact List.forall_mem_singleton.2 ⟨by decide, rfl⟩
  have hheld : ∀ k ∈ [right, spare, left], ∃ v, (atAll 1 1).lookup k = some v ∧
      dims.lookup k = some v.length :=
    List.forall_mem_cons.2 ⟨⟨_, rfl, rfl⟩,
      List.forall_mem_cons.2 ⟨⟨_, rfl, rfl⟩, List.forall_mem_singleton.2 ⟨_, rfl, rfl⟩⟩⟩
  obtain ⟨s, sized, hs, hsized, hheight, _, hcols, hx⟩ :=
    MixedGraph.stack_agrees hkind hn hdims hcovers
  obtain rfl := Except.ok.inj hsized
  obtain ⟨v, rs, _, _, hrs, _, _, hgradient⟩ := hx (atAll 1 1) hheld
  obtain ⟨d, hd, hgradient⟩ := hgradient left (by decide)
  obtain rfl := Option.some.inj hd
  have hflatten : rs.flatten = [-1, -1] := by
    have hleft : (atAll 1 1).part left = [1] := rfl
    have hright : (atAll 1 1).part right = [1] := rfl
    rcases mapM_eq_ok.1 hrs with _ | ⟨hgap, _ | ⟨hidle, ⟨⟩⟩⟩
    obtain ⟨_, rfl⟩ := (Factor.residual_eq_ok _).1 hgap
    obtain ⟨_, rfl⟩ := (Factor.residual_eq_ok _).1 hidle
    norm_num [AnyFactor.toFactor, defect_gap, defect_idle, hleft, hright]
  rw [hflatten] at hgradient
  exact ⟨hkind, hn, hdims, hcovers, hheld, s, hs, hheight, hcols, hgradient⟩

end TwoVariables

end ActiveSet
