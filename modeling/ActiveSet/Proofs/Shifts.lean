import ActiveSet.Proofs.Gradients
import ActiveSet.Graph.Mixed

/-!
# Shifted graphs

A graph in coordinates around `x` says at `p` what the graph says at `x + p`, whichever keys either
point lacks. Two shifts in a row are the shift by the sum.
-/

namespace ActiveSet

theorem Point.scale_one (x : Point ℝ) : Point.scale 1 x = x := by
  refine Keyed.ext_lookup (Keyed.keys_map ..) fun k => ?_
  rw [Point.lookup_scale]
  cases x.lookup k with
  | none => rfl
  | some v => rw [Option.map_some, Vec.scale_one]

/-! ## Factors -/

namespace Factor

variable {f : Factor ℝ} {x p z : Point ℝ}

theorem defect_add (h : Point.add x p = .ok z) (f : Factor ℝ) :
    f.defect z = Vec.add (f.values p) (f.defect x) := by
  rw [defect_step (a := 1) (by rwa [Point.scale_one]), Vec.scale_one, Vec.add_comm']

theorem Fits.add (hx : f.Fits x) (hp : f.Fits p) (h : Point.add x p = .ok z) : f.Fits z :=
  hx.step (a := 1) hp (by rwa [Point.scale_one])

/-- What `shifted` makes where the dimensions fit. -/
noncomputable def around (f : Factor ℝ) (x : Point ℝ) : Factor ℝ where
  terms := f.terms
  b := Vec.neg (f.defect x)
  rows_eq := fun e he => by simp [f.rows_eq e he, rows]

theorem shifted_eq (h : f.Fits x) : f.shifted x = .ok (f.around x) := by
  rw [shifted, f.residual_eq_ok.2 ⟨h, rfl⟩, ok_bind]
  exact make_ok (f.around x).rows_eq

theorem defect_around (h : Point.add x p = .ok z) (f : Factor ℝ) :
    (f.around x).defect p = f.defect z := by
  have hrows : (f.around x).rows = f.rows := by simp [rows, around]
  have hvalues : (f.around x).values p = f.values p :=
    values_congr (f := f) (g := f.around x) rfl hrows p
  have hb : (f.around x).b = Vec.neg (Vec.sub (f.values x) f.b) := rfl
  rw [defect, hvalues, hb, Vec.sub_neg_sub, defect_add h, defect]

theorem around_around (h : Point.add x p = .ok z) (f : Factor ℝ) :
    (f.around x).around p = f.around z := by
  simp only [around, mk.injEq, true_and]
  exact congrArg Vec.neg (defect_around h f)

end Factor

/-! ## Graphs -/

namespace AnyFactor

variable {f : AnyFactor ℝ} {x p z : Point ℝ}

noncomputable def around (f : AnyFactor ℝ) (x : Point ℝ) : AnyFactor ℝ :=
  match f with
  | .leastSquares f => .leastSquares (f.around x)
  | .equality f => .equality { f.toFactor.around x with dual := f.dual }
  | .inequality f => .inequality f

/-- The second factor differs from the first in its right-hand side only. -/
structure Retains (f f' : AnyFactor ℝ) : Prop where
  kind_eq : f'.kind = f.kind
  keys_eq : f'.keys = f.keys
  terms_eq : f'.toFactor.terms = f.toFactor.terms
  dual_eq : f'.toEquality?.map (·.dual) = f.toEquality?.map (·.dual)

theorem toFactor_around (hf : f.kind ≠ .inequality) (x : Point ℝ) :
    (f.around x).toFactor = f.toFactor.around x := by
  cases f with
  | leastSquares f => rfl
  | equality f => rfl
  | inequality f => exact absurd rfl hf

theorem shifted_eq (hf : f.kind ≠ .inequality) (h : f.toFactor.Fits x) :
    f.shifted x = .ok (f.around x) := by
  cases f with
  | leastSquares f => rw [shifted, Factor.shifted_eq (f := f) h]; rfl
  | equality f => rw [shifted, Equality.shifted, Factor.shifted_eq (f := f.toFactor) h]; rfl
  | inequality f => exact absurd rfl hf

theorem around_around (h : Point.add x p = .ok z) (f : AnyFactor ℝ) :
    (f.around x).around p = f.around z := by
  cases f with
  | leastSquares f => exact congrArg leastSquares (Factor.around_around h f)
  | equality f =>
      exact congrArg (fun f' : Factor ℝ => equality { f' with dual := f.dual })
        (Factor.around_around h f.toFactor)
  | inequality f => rfl

theorem retains_around (hf : f.kind ≠ .inequality) (x : Point ℝ) : f.Retains (f.around x) := by
  cases f with
  | leastSquares f => exact ⟨rfl, rfl, rfl, rfl⟩
  | equality f => exact ⟨rfl, rfl, rfl, rfl⟩
  | inequality f => exact absurd rfl hf

theorem error_eq (hf : f.kind ≠ .inequality) (x : Point ℝ) : f.error x = f.toFactor.error x := by
  cases f with
  | leastSquares f => rfl
  | equality f => rfl
  | inequality f => exact absurd rfl hf

end AnyFactor

namespace Graph

variable {g : Graph ℝ} {x p z : Point ℝ}

theorem error_around (hp : ∀ f ∈ g, f.Fits p) (hz : ∀ f ∈ g, f.Fits z)
    (h : Point.add x p = .ok z) : Graph.error (g.map (·.around x)) p = g.error z := by
  have hshifted : ∀ f ∈ g.map (·.around x), f.Fits p := List.forall_mem_map.2 hp
  rw [error_eq_ok.2 ⟨hz, rfl⟩, error_eq_ok.2 ⟨hshifted, rfl⟩, List.map_map]
  simp only [Function.comp_def, Factor.defect_around h]

theorem gradient_around (hp : ∀ f ∈ g, f.Fits p) (hz : ∀ f ∈ g, f.Fits z)
    (h : Point.add x p = .ok z) (k : Key) :
    Graph.gradient (g.map (·.around x)) k p = g.gradient k z := by
  have hshifted : ∀ f ∈ g.map (·.around x), f.Fits p := List.forall_mem_map.2 hp
  rw [gradient_eq hz, gradient_eq hshifted, List.filterMap_map]
  congr 1
  refine List.filterMap_congr fun f _ => ?_
  rw [Function.comp_apply, Factor.defect_around h]
  rfl

end Graph

namespace MixedGraph

variable {g : MixedGraph ℝ} {x p y z : Point ℝ}

noncomputable def around (g : MixedGraph ℝ) (x : Point ℝ) : MixedGraph ℝ :=
  { g with factors := g.factors.map (·.around x) }

theorem toGraph_around (hg : ∀ f ∈ g.factors, f.kind ≠ .inequality) (x : Point ℝ) :
    (g.around x).toGraph = g.toGraph.map (·.around x) := by
  rw [around, toGraph, toGraph, List.map_map, List.map_map]
  exact List.map_congr_left fun f hf => AnyFactor.toFactor_around (hg f hf) x

theorem shifted_eq (hg : ∀ f ∈ g.factors, f.kind ≠ .inequality)
    (h : ∀ f ∈ g.factors, f.toFactor.Fits x) : g.shifted x = .ok (g.around x) := by
  rw [shifted, mapM_eq_map fun f hf => AnyFactor.shifted_eq (hg f hf) (h f hf), ok_bind]
  rfl

theorem around_around (h : Point.add x p = .ok z) (g : MixedGraph ℝ) :
    (g.around x).around p = g.around z := by
  simp [around, Function.comp_def, AnyFactor.around_around h]

theorem kind_around (hg : ∀ f ∈ g.factors, f.kind ≠ .inequality) (x : Point ℝ) :
    ∀ f ∈ (g.around x).factors, f.kind ≠ .inequality :=
  List.forall_mem_map.2 fun f hf => by
    rw [(AnyFactor.retains_around (hg f hf) x).kind_eq]
    exact hg f hf

/-- Without inequalities the error is that of the plain sum of costs. -/
theorem error_toGraph (hg : ∀ f ∈ g.factors, f.kind ≠ .inequality) (x : Point ℝ) :
    g.error x = g.toGraph.error x := by
  rw [error, Graph.error, toGraph, List.mapM_map,
    mapM_congr fun f hf => AnyFactor.error_eq (hg f hf) x]
  rfl

/--
A graph of costs and equations around `x` has at `p` the residuals, the error and the gradients that
the graph has at `x + p`. Shifting changes right-hand sides only, and shifts add up.
-/
theorem shifted_translates (hg : ∀ f ∈ g.factors, f.kind ≠ .inequality) (hp : x.Conforms p)
    (hy : x.Conforms y)
    (hfits : ∀ f ∈ g.factors, f.toFactor.Fits x ∧ f.toFactor.Fits p ∧ f.toFactor.Fits y) :
    ∃ z s g' g'', Point.add x p = .ok z ∧ Point.add x y = .ok s ∧
      g.shifted x = .ok g' ∧ g'.shifted y = .ok g'' ∧ g.shifted s = .ok g'' ∧
      g'.kind = g.kind ∧
      List.Forall₂ (fun f f' => f.Retains f' ∧
        ∃ r, f'.toFactor.residual p = .ok r ∧ f.toFactor.residual z = .ok r) g.factors g'.factors ∧
      (∃ a, g'.error p = .ok a ∧ g.error z = .ok a) ∧
      (∀ k, g'.toGraph.gradient k p = g.toGraph.gradient k z) ∧
      ∀ D, g.toGraph.Agrees D → ∀ k, ∃ v, g.toGraph.gradient k z = .ok v := by
  obtain ⟨z, hz⟩ := Point.exists_addScaled hp 1
  obtain ⟨s, hs⟩ := Point.exists_addScaled hy 1
  have hatx : ∀ f ∈ g.factors, f.toFactor.Fits x := fun f hf => (hfits f hf).1
  have hatp : ∀ f ∈ g.factors, f.toFactor.Fits p := fun f hf => (hfits f hf).2.1
  have hatz : ∀ f ∈ g.factors, f.toFactor.Fits z := fun f hf => (hatx f hf).add (hatp f hf) hz
  have hats : ∀ f ∈ g.factors, f.toFactor.Fits s := fun f hf =>
    (hatx f hf).add (hfits f hf).2.2 hs
  have hplainp : ∀ f ∈ g.toGraph, f.Fits p := List.forall_mem_map.2 hatp
  have hplainz : ∀ f ∈ g.toGraph, f.Fits z := List.forall_mem_map.2 hatz
  have hagain : (g.around x).shifted y = .ok (g.around s) := by
    rw [shifted_eq (kind_around hg x), around_around hs]
    exact List.forall_mem_map.2 fun f hf => by
      rw [AnyFactor.toFactor_around (hg f hf)]
      exact (hfits f hf).2.2
  refine ⟨z, s, g.around x, g.around s, hz, hs, shifted_eq hg hatx, hagain, shifted_eq hg hats, rfl, ?_,
    ⟨_, ?_, (error_toGraph hg z).trans (Graph.error_eq_ok.2 ⟨hplainz, rfl⟩)⟩, fun k => ?_,
    fun D hD k => ?_⟩
  · refine List.forall₂_map_right_iff.2 (List.forall₂_same.2 fun f hf => ?_)
    refine ⟨AnyFactor.retains_around (hg f hf) x, f.toFactor.defect z, ?_,
      f.toFactor.residual_eq_ok.2 ⟨hatz f hf, rfl⟩⟩
    rw [AnyFactor.toFactor_around (hg f hf)]
    exact (Factor.residual_eq_ok _).2 ⟨hatp f hf, (Factor.defect_around hz f.toFactor).symm⟩
  · rw [error_toGraph (kind_around hg x), toGraph_around hg, Graph.error_around hplainp hplainz hz]
    exact Graph.error_eq_ok.2 ⟨hplainz, rfl⟩
  · rw [toGraph_around hg]
    exact Graph.gradient_around hplainp hplainz hz k
  · exact Graph.gradient_ok hplainz hD k

end MixedGraph

namespace TwoVariables

def left : Key := .number 0

def right : Key := .number 1

def spare : Key := .number 2

def dim (k : Key) : Nat := if k = spare then 2 else 1

def Sized (x : Point ℝ) : Prop := ∀ e ∈ x.entries, e.2.length = dim e.1

theorem Sized.conforms {x p : Point ℝ} (hx : Sized x) (hp : Sized p) : x.Conforms p :=
  fun _ _ _ hu hv =>
    (hx _ ((Keyed.lookup_iff x).1 hu)).trans (hp _ ((Keyed.lookup_iff p).1 hv)).symm

/-- The factor that asks for `x - y = b`. -/
noncomputable def gap (b : ℝ) : Factor ℝ where
  terms := Keyed.ofList [(left, .ofRow [1]), (right, .ofRow [-1])]
  b := [b]
  rows_eq := List.forall_mem_cons.2 ⟨rfl, List.forall_mem_singleton.2 rfl⟩

theorem fits_gap {x : Point ℝ} (hx : Sized x) (b : ℝ) : (gap b).Fits x :=
  List.forall_mem_cons.2 ⟨fun _ hv => hx _ ((Keyed.lookup_iff x).1 hv),
    List.forall_mem_singleton.2 fun _ hv => hx _ ((Keyed.lookup_iff x).1 hv)⟩

theorem defect_gap (b : ℝ) (x : Point ℝ) :
    (gap b).defect x = [(x.part left).headD 0 - (x.part right).headD 0 - b] := by
  have hdefect : (gap b).defect x =
      [Vec.dot [1] (x.part left) + (Vec.dot [-1] (x.part right) + 0) - b] := rfl
  rw [hdefect, Vec.dot_singleton, Vec.dot_singleton, one_mul, neg_one_mul, add_zero, ← sub_eq_add_neg]

/-- The gap as a cost and once more as an equation. -/
noncomputable def twice (b : ℝ) : MixedGraph ℝ where
  kind := .leastSquares
  factors := [.leastSquares (gap b), .equality { gap b with dual := .number 0 }]

def atLeft (a : ℝ) : Point ℝ := Keyed.ofList [(left, [a])]

def atRight (b : ℝ) : Point ℝ := Keyed.ofList [(right, [b]), (spare, [b, b])]

def atBoth (a b : ℝ) : Point ℝ := Keyed.ofList [(left, [a]), (right, [b])]

theorem sized_atLeft (a : ℝ) : Sized (atLeft a) := List.forall_mem_singleton.2 rfl

theorem sized_atRight (b : ℝ) : Sized (atRight b) :=
  List.forall_mem_cons.2 ⟨rfl, List.forall_mem_singleton.2 rfl⟩

theorem sized_atBoth (a b : ℝ) : Sized (atBoth a b) :=
  List.forall_mem_cons.2 ⟨rfl, List.forall_mem_singleton.2 rfl⟩

/-- The start lacks the second key; the step lacks the first and holds one that no factor has. -/
theorem shifted_translates_twice : (∀ f ∈ (twice 1).factors, f.kind ≠ .inequality) ∧
    (atLeft 1).Conforms (atRight 1) ∧ (atLeft 1).Conforms (atBoth 0 1) ∧
    (∀ f ∈ (twice 1).factors, f.toFactor.Fits (atLeft 1) ∧ f.toFactor.Fits (atRight 1) ∧
      f.toFactor.Fits (atBoth 0 1)) ∧
    ∃ g', (twice 1).shifted (atLeft 1) = .ok g' ∧ g'.error (atRight 1) = .ok 1 := by
  have hkind : ∀ f ∈ (twice 1).factors, f.kind ≠ .inequality := by
    simp [twice, AnyFactor.kind]
  have hfits : ∀ f ∈ (twice 1).factors, ∀ x, Sized x → f.toFactor.Fits x :=
    List.forall_mem_cons.2 ⟨fun _ hx => fits_gap hx 1,
      List.forall_mem_singleton.2 fun _ hx => fits_gap hx 1⟩
  have hp := (sized_atLeft 1).conforms (sized_atRight 1)
  have hy := (sized_atLeft 1).conforms (sized_atBoth 0 1)
  have hall : ∀ f ∈ (twice 1).factors, f.toFactor.Fits (atLeft 1) ∧ f.toFactor.Fits (atRight 1) ∧
      f.toFactor.Fits (atBoth 0 1) := fun f hf =>
    ⟨hfits f hf _ (sized_atLeft 1), hfits f hf _ (sized_atRight 1), hfits f hf _ (sized_atBoth 0 1)⟩
  obtain ⟨z, s, g', g'', hz, _, hg', _, _, _, _, ⟨a, ha, hza⟩, _⟩ :=
    MixedGraph.shifted_translates hkind hp hy hall
  have hatz : ∀ f ∈ (twice 1).factors, f.toFactor.Fits z := fun f hf =>
    (hall f hf).1.add (hall f hf).2.1 hz
  have hparts : z.part left = [1] ∧ z.part right = [1] := by
    obtain rfl := Except.ok.inj hz
    exact ⟨rfl, Vec.scale_one [1]⟩
  have hdefect : (gap 1).defect z = [-1] := by
    norm_num [defect_gap, hparts]
  have hgraph : (twice 1).toGraph = [gap 1, gap 1] := rfl
  refine ⟨hkind, hp, hy, hall, g', hg', ?_⟩
  rw [ha, ← hza, MixedGraph.error_toGraph hkind, Graph.error_eq_ok]
  refine ⟨List.forall_mem_map.2 hatz, ?_⟩
  norm_num [hgraph, hdefect]

end TwoVariables

end ActiveSet
