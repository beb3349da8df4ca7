import ActiveSet.Problem
import ActiveSet.Proofs.PointArithmetic

/-!
# Linear costs

A linear cost is the sum of what was contributed to it, key by key. A contribution is refused where
its key has a cost of another length, and then nothing changes, so the order in which contributions
arrive does not matter.
-/

namespace ActiveSet

/-- The parts of every list in the array agree in their shape. -/
def Nested.Rectangular {K : Type} (a : Nested K) : Prop := a.shape? ≠ none

/-! ## Vectors gathered at a key -/

namespace Point

/-- One more vector for its key, seen from a key. -/
noncomputable def gatherOne (k : Key) (u : Option (List ℝ)) (e : Key × List ℝ) : Option (List ℝ) :=
  if e.1 = k then sumAt 1 u (some e.2) else u

/-- The sum of the vectors that a list has for a key, on top of what is there. -/
noncomputable def gather (k : Key) (u : Option (List ℝ)) (l : List (Key × List ℝ)) :
    Option (List ℝ) :=
  l.foldl (gatherOne k) u

theorem gatherOne_right_comm (k : Key) (u : Option (List ℝ)) (e f : Key × List ℝ) :
    gatherOne k (gatherOne k u e) f = gatherOne k (gatherOne k u f) e := by
  unfold gatherOne
  by_cases he : e.1 = k <;> by_cases hf : f.1 = k <;> simp only [he, hf, ↓reduceIte]
  rw [sumAt_assoc, sumAt_comm (some e.2), ← sumAt_assoc]

theorem gather_perm {l l' : List (Key × List ℝ)} (h : l.Perm l') (k : Key)
    (u : Option (List ℝ)) : gather k u l = gather k u l' :=
  h.foldl_eq' (fun e _ f _ u => gatherOne_right_comm k u e f) u

/-- The sum of the products of vectors with what a point holds at their keys. -/
noncomputable def dotAll (l : List (Key × List ℝ)) (x : Point ℝ) : ℝ :=
  (l.map fun e => Vec.dot e.2 (x.part e.1)).sum

end Point

/-! ## One contribution -/

theorem Cost.accumulate_eq_add {vectors : Point ℝ} {k : Key} {c : List ℝ}
    (h : ∀ u, vectors.lookup k = some u → u.length = c.length) :
    ∃ z, Cost.accumulate vectors k c = .ok z ∧
      Point.add vectors (Keyed.ofList [(k, c)]) = .ok z := by
  have hadd : Point.add vectors (Keyed.ofList [(k, c)]) = Point.addAt 1 vectors k c := by
    change (Point.addAt 1 vectors k c >>= pure) = _
    exact bind_pure _
  rw [hadd, Cost.accumulate, Point.addAt, Vec.scale_one]
  cases hu : vectors.lookup k with
  | none => exact ⟨_, rfl, rfl⟩
  | some u => exact ⟨_, if_pos (h u hu), if_pos (h u hu)⟩

namespace Point

variable {x z : Point ℝ} {k : Key} {v : List ℝ}

theorem lookup_add_singleton (h : add x (Keyed.ofList [(k, v)]) = .ok z) (j : Key) :
    z.lookup j = gatherOne j (x.lookup j) (k, v) := by
  have hlookup : (Keyed.ofList [(k, v)]).lookup j = if j = k then some v else none :=
    Keyed.lookup_insert ..
  rw [(lookup_addScaled h).2, hlookup, gatherOne]
  by_cases hj : j = k
  · rw [if_pos hj, if_pos hj.symm]
  · rw [if_neg hj, if_neg (Ne.symm hj)]
    cases x.lookup j <;> rfl

/-- A vector more at one key adds its product with what the other point has there. -/
theorem dot_add_singleton (h : add x (Keyed.ofList [(k, v)]) = .ok z) {y : Point ℝ}
    (hy : z.Conforms y) :
    x.Conforms y ∧ dotAll z.entries y = dotAll x.entries y + Vec.dot v (y.part k) := by
  obtain ⟨hxy, hky⟩ := (conforms_add_iff h).1 hy
  obtain ⟨z', a, b, hz', ha, hb, hab⟩ := dot_add ⟨(lookup_addScaled h).1, hxy, hky⟩
  obtain rfl := Except.ok.inj (h.symm.trans hz')
  obtain rfl := (dot_eq_ok.1 ha).2
  have hv : b = Vec.dot v (y.part k) := by
    rw [(dot_eq_ok.1 hb).2]
    exact List.sum_singleton
  exact ⟨hxy, (dot_eq_ok.1 hab).2.symm.trans (by rw [hv]; rfl)⟩

end Point

namespace Problem

variable {p : Problem ℝ} {vectors : Point ℝ}

/-- A contribution is added, or refused for its length, or it is no array at all. -/
theorem contribute_cases (hp : p.cost = .linear vectors) (k : Key) (c : Nested ℝ) :
    (∃ z, c.Rectangular ∧ Point.add vectors (Keyed.ofList [(k, c.flatten)]) = .ok z ∧
      p.contribute k c = ({ p with cost := .linear z }, .ok ())) ∨
    (∃ u, c.Rectangular ∧ vectors.lookup k = some u ∧ u.length ≠ c.flatten.length ∧
      p.contribute k c = (p, .error (.dimension (.costEntries k u.length c.flatten.length)))) ∨
    ¬c.Rectangular ∧ p.contribute k c = (p, .error .badValue) := by
  unfold Nested.Rectangular contribute addLinearCost Tensor.ofNested
  cases hshape : c.shape? with
  | none => exact .inr (.inr ⟨by simp, rfl⟩)
  | some shape =>
      simp only [ok_bind, hp]
      by_cases h : ∀ u, vectors.lookup k = some u → u.length = c.flatten.length
      · obtain ⟨z, hz, hadd⟩ := Cost.accumulate_eq_add h
        exact .inl ⟨z, by simp, hadd, by rw [hz]; rfl⟩
      · push Not at h
        obtain ⟨u, hu, hne⟩ := h
        refine .inr (.inl ⟨u, by simp, hu, hne, ?_⟩)
        rw [Cost.accumulate, hu]
        simp only [if_neg hne]
        rfl

theorem contribute_eq_dimension_iff (hp : p.cost = .linear vectors) (k : Key) (c : Nested ℝ) :
    (∃ cause, (p.contribute k c).2 = .error (.dimension cause)) ↔
      c.Rectangular ∧ ∃ u, vectors.lookup k = some u ∧ u.length ≠ c.flatten.length := by
  rcases contribute_cases hp k c with ⟨z, hc, hadd, h⟩ | ⟨u, hc, hu, hne, h⟩ | ⟨hc, h⟩
  · have hfits : ∀ u, vectors.lookup k = some u → u.length = c.flatten.length := fun u hu =>
      (Point.lookup_addScaled hadd).1 k u _ hu ((Keyed.lookup_insert ..).trans (if_pos rfl))
    simp only [h, hc, true_and]
    constructor
    · rintro ⟨_, ⟨⟩⟩
    · rintro ⟨u, hu, hne⟩
      exact absurd (hfits u hu) hne
  · rw [h]
    exact iff_of_true ⟨_, rfl⟩ ⟨hc, u, hu, hne⟩
  · simp [h, hc]

/-- A contribution that is refused changes nothing. -/
theorem contribute_of_refused {k : Key} {c : Nested ℝ} {e : Fault ℝ}
    (h : (p.contribute k c).2 = .error e) : (p.contribute k c).1 = p := by
  unfold contribute at h ⊢
  split
  · rfl
  · rename_i q hq
    rw [hq] at h
    cases h

/-! ## Many contributions -/

/-- The program after a series of contributions, with those that were taken. -/
def contributeAll {K : Type} [Scalar K] (p : Problem K) :
    List (Key × Nested K) → Problem K × List (Key × List K)
  | [] => (p, [])
  | c :: cs =>
    match p.contribute c.1 c.2 with
    | (q, .ok ()) => ((contributeAll q cs).1, (c.1, c.2.flatten) :: (contributeAll q cs).2)
    | (q, .error _) => contributeAll q cs

theorem contributeAll_taken {p q : Problem ℝ} {c : Key × Nested ℝ}
    (h : p.contribute c.1 c.2 = (q, .ok ())) (cs : List (Key × Nested ℝ)) :
    p.contributeAll (c :: cs) =
      ((q.contributeAll cs).1, (c.1, c.2.flatten) :: (q.contributeAll cs).2) := by
  rw [contributeAll, h]

theorem contributeAll_refused {p : Problem ℝ} {c : Key × Nested ℝ} {e : Fault ℝ}
    (h : p.contribute c.1 c.2 = (p, .error e)) (cs : List (Key × Nested ℝ)) :
    p.contributeAll (c :: cs) = p.contributeAll cs := by
  rw [contributeAll, h]

theorem contributeAll_append (p : Problem ℝ) (cs ds : List (Key × Nested ℝ)) :
    p.contributeAll (cs ++ ds) = (((p.contributeAll cs).1.contributeAll ds).1,
      (p.contributeAll cs).2 ++ ((p.contributeAll cs).1.contributeAll ds).2) := by
  induction cs generalizing p with
  | nil => rfl
  | cons c cs ih =>
      rw [List.cons_append, contributeAll, contributeAll]
      split
      · rw [ih]
        rfl
      · exact ih _

/--
What a series of contributions makes of a linear cost: the value grows by the products of the
vectors that were taken, and each key gathers those that came for it.
-/
theorem cost_contributeAll (hp : p.cost = .linear vectors) (cs : List (Key × Nested ℝ)) :
    ∃ z : Point ℝ, (p.contributeAll cs).1.cost = .linear z ∧
      (∀ x, z.Conforms x → vectors.Conforms x ∧
        Point.dotAll z.entries x =
          Point.dotAll vectors.entries x + Point.dotAll (p.contributeAll cs).2 x) ∧
      ∀ k, z.lookup k = Point.gather k (vectors.lookup k) (p.contributeAll cs).2 := by
  induction cs generalizing p vectors with
  | nil =>
      exact ⟨vectors, hp, fun x hx => ⟨hx, by simp [contributeAll, Point.dotAll]⟩, fun _ => rfl⟩
  | cons c cs ih =>
      rcases contribute_cases hp c.1 c.2 with ⟨z, _, hadd, hc⟩ | ⟨_, _, _, _, hc⟩ | ⟨_, hc⟩
      · obtain ⟨r, hr, hvalue, hlookup⟩ := ih (p := { p with cost := .linear z }) rfl
        rw [contributeAll_taken hc]
        refine ⟨r, hr, fun x hx => ?_, fun k => ?_⟩
        · obtain ⟨hzx, hrest⟩ := hvalue x hx
          obtain ⟨hx, hone⟩ := Point.dot_add_singleton hadd hzx
          refine ⟨hx, ?_⟩
          rw [hrest, hone, add_assoc]
          rfl
        · rw [hlookup, Point.lookup_add_singleton hadd]
          rfl
      · rw [contributeAll_refused hc]
        exact ih hp
      · rw [contributeAll_refused hc]
        exact ih hp

theorem addLinearCost_of_contribute {p q : Problem ℝ} {k : Key} {c : Nested ℝ}
    (h : p.contribute k c = (q, .ok ())) : p.addLinearCost k c = .ok q := by
  unfold contribute at h
  split at h
  · cases h
  · rename_i r hr
    rw [hr, (Prod.mk.inj h).1]

/-- Contributions of one length at each key are all taken. -/
theorem contributeAll_of_lengths {D : Key → Nat} (hp : p.cost = .linear vectors)
    (hD : ∀ k u, vectors.lookup k = some u → u.length = D k) {cs : List (Key × Nested ℝ)}
    (hcs : ∀ e ∈ cs, e.2.Rectangular ∧ e.2.flatten.length = D e.1) :
    ∃ q, cs.foldlM (fun p e => p.addLinearCost e.1 e.2) p = .ok q ∧
      p.contributeAll cs = (q, cs.map fun e => (e.1, e.2.flatten)) := by
  induction cs generalizing p vectors with
  | nil => exact ⟨p, rfl, rfl⟩
  | cons c cs ih =>
      obtain ⟨⟨hc, hlength⟩, hcs⟩ := List.forall_mem_cons.1 hcs
      rcases contribute_cases hp c.1 c.2 with ⟨z, _, hadd, htaken⟩ | ⟨u, _, hu, hne, _⟩ | ⟨hc', _⟩
      · -- A sum has the length of what it adds up, so `D` still gives all lengths.
        have hz : ∀ k w, z.lookup k = some w → w.length = D k := by
          intro k w hw
          obtain ⟨hfirst, hsecond, hheld⟩ := Point.length_lookup_add hadd hw
          rcases hheld with hheld | hheld
          · obtain ⟨u, hu⟩ := Option.ne_none_iff_exists'.1 hheld
            rw [hfirst u hu, hD k u hu]
          · obtain ⟨v, hv⟩ := Option.ne_none_iff_exists'.1 hheld
            obtain ⟨rfl, rfl⟩ := Prod.mk.inj (List.mem_singleton.1 (Keyed.mem_of_lookup_ofList hv))
            rw [hsecond _ hv, hlength]
        obtain ⟨q, hfold, hall⟩ := ih (p := { p with cost := .linear z }) rfl hz hcs
        refine ⟨q, ?_, ?_⟩
        · rw [List.foldlM_cons, addLinearCost_of_contribute htaken, ok_bind, hfold]
        · rw [contributeAll_taken htaken, hall, List.map_cons]
      · exact absurd ((hD _ _ hu).trans hlength.symm) hne
      · exact absurd hc hc'

section Made

variable (equalities : List (Equality ℝ)) (inequalities : List (Inequality ℝ))

/-- The constructor takes all costs, as calls one after the other do. -/
theorem exists_makeLinear {costs : Keyed (Nested ℝ)}
    (hcosts : ∀ e ∈ costs.entries, e.2.Rectangular) :
    ∃ start, makeLinear costs equalities inequalities = .ok start ∧
      ∀ calls, (make (.linear .empty) equalities inequalities).contributeAll
        (costs.entries ++ calls) = ((start.contributeAll calls).1,
          (costs.entries.map fun e => (e.1, e.2.flatten)) ++ (start.contributeAll calls).2) := by
  let D : Key → Nat := fun k => (costs.lookup k).elim 0 fun c => c.flatten.length
  obtain ⟨start, hstart, hall⟩ := contributeAll_of_lengths (D := D)
    (p := make (.linear .empty) equalities inequalities) rfl (by simp) fun e he =>
      ⟨hcosts e he, by simp only [D, Keyed.lookup_of_mem he, Option.elim_some]⟩
  exact ⟨start, hstart, fun calls => by rw [contributeAll_append, hall]⟩

/-- Contributions of one length at each key make costs that gather them all. -/
theorem cost_of_lengths {D : Key → Nat} {cs : List (Key × Nested ℝ)}
    (hcs : ∀ e ∈ cs, e.2.Rectangular ∧ e.2.flatten.length = D e.1) :
    ∃ z : Point ℝ, ((make (.linear .empty) equalities inequalities).contributeAll cs).1.cost =
        .linear z ∧
      ∀ k, z.lookup k = Point.gather k none (cs.map fun e => (e.1, e.2.flatten)) := by
  obtain ⟨q, _, hall⟩ := contributeAll_of_lengths (D := D)
    (p := make (.linear .empty) equalities inequalities) rfl (by simp) hcs
  obtain ⟨z, hz, _, hlookup⟩ := cost_contributeAll
    (p := make (.linear .empty) equalities inequalities) rfl cs
  exact ⟨z, hz, fun k => by rw [hlookup, hall]; rfl⟩

/--
Linear costs accumulate: the objective is the sum over all contributions that were taken, at the
start or later; one more is refused for its length exactly if its key has a cost of another length,
and then nothing changes; and contributions of one length at each key make the same costs in any
order.
-/
theorem linearCosts_accumulate {costs : Keyed (Nested ℝ)}
    (hcosts : ∀ e ∈ costs.entries, e.2.Rectangular) (calls : List (Key × Nested ℝ)) :
    ∃ start p taken, ∃ vectors : Point ℝ, makeLinear costs equalities inequalities = .ok start ∧
      start.contributeAll calls = (p, taken) ∧ p.cost = .linear vectors ∧
      (∀ x : Point ℝ, vectors.Conforms x → p.objective x = .ok
        (((costs.entries.map fun e => (e.1, e.2.flatten)) ++ taken).map fun e =>
          Vec.dot e.2 (x.part e.1)).sum) ∧
      (∀ k c, ((∃ cause, (p.contribute k c).2 = .error (.dimension cause)) ↔
          c.Rectangular ∧ ∃ u, vectors.lookup k = some u ∧ u.length ≠ c.flatten.length) ∧
        ∀ e, (p.contribute k c).2 = .error e → (p.contribute k c).1 = p) ∧
      ∀ D : Key → Nat,
        (∀ e ∈ costs.entries ++ calls, e.2.Rectangular ∧ e.2.flatten.length = D e.1) →
        ∀ (costs' : Keyed (Nested ℝ)) (calls' : List (Key × Nested ℝ)),
          (costs'.entries ++ calls').Perm (costs.entries ++ calls) →
          ∃ start', ∃ vectors' : Point ℝ, makeLinear costs' equalities inequalities = .ok start' ∧
            (start'.contributeAll calls').1.cost = .linear vectors' ∧ vectors'.Same vectors := by
  obtain ⟨start, hstart, happend⟩ := exists_makeLinear equalities inequalities hcosts
  obtain ⟨vectors, hvectors, hvalue, _⟩ := cost_contributeAll
    (p := make (.linear .empty) equalities inequalities) rfl (costs.entries ++ calls)
  rw [happend] at hvectors hvalue
  refine ⟨start, _, _, vectors, hstart, rfl, hvectors, fun x hx => ?_, fun k c => ?_, ?_⟩
  · rw [objective, hvectors, Cost.value, Cost.linearValue, Point.exists_dot hx]
    exact congrArg Except.ok ((hvalue x hx).2.trans (zero_add _))
  · exact ⟨contribute_eq_dimension_iff hvectors k c, fun e he => contribute_of_refused he⟩
  · intro D hD costs' calls' hperm
    have hD' : ∀ e ∈ costs'.entries ++ calls', e.2.Rectangular ∧ e.2.flatten.length = D e.1 :=
      fun e he => hD e (hperm.mem_iff.1 he)
    have hcosts' : ∀ e ∈ costs'.entries, e.2.Rectangular :=
      fun e he => (hD' e (List.mem_append_left _ he)).1
    obtain ⟨start', hstart', happend'⟩ := exists_makeLinear equalities inequalities hcosts'
    obtain ⟨z, hz, hlookup⟩ := cost_of_lengths equalities inequalities hD
    obtain ⟨vectors', hvectors', hlookup'⟩ := cost_of_lengths equalities inequalities hD'
    rw [happend] at hz
    rw [happend'] at hvectors'
    cases hz.symm.trans hvectors
    refine ⟨start', vectors', hstart', hvectors', fun k => ?_⟩
    rw [hlookup, hlookup']
    exact Point.gather_perm (hperm.map _) k none

end Made

end Problem

namespace TwoVariables

def initialCosts : Keyed (Nested ℝ) :=
  Keyed.ofList [(left, .list [.scalar 1]), (spare, .list [.scalar 1, .scalar 1])]

/-- Of three contributions the second is refused, for its key has a cost of one entry. -/
def contributions (a b : ℝ) : List (Key × Nested ℝ) :=
  [(left, .scalar a), (left, .list [.scalar a, .scalar b]), (right, .list [.scalar b])]

theorem linearCosts_accumulate_refused :
    (∀ e ∈ initialCosts.entries, e.2.Rectangular) ∧
    ∃ start p, ∃ vectors : Point ℝ, Problem.makeLinear initialCosts [] [] = .ok start ∧
      start.contributeAll (contributions 2 4) = (p, [(left, [2]), (right, [4])]) ∧
      p.cost = .linear vectors ∧ p.objective (atBoth 5 7) = .ok 43 ∧
      ∃ cause,
        (p.contribute left (.list [.scalar 2, .scalar 4])).2 = .error (.dimension cause) := by
  have hcosts : ∀ e ∈ initialCosts.entries, e.2.Rectangular :=
    List.forall_mem_cons.2 ⟨nofun, List.forall_mem_singleton.2 nofun⟩
  obtain ⟨start, p, taken, vectors, hstart, hrun, hvectors, hvalue, hnext, _⟩ :=
    Problem.linearCosts_accumulate [] [] hcosts (contributions 2 4)
  let made : Problem ℝ := .make (.linear (Keyed.ofList [(left, [1]), (spare, [1, 1])])) [] []
  obtain rfl : made = start := Except.ok.inj hstart
  let final : Point ℝ := Keyed.ofList [(left, [1 + 2]), (spare, [1, 1]), (right, [4])]
  have htaken : made.contributeAll (contributions 2 4) =
      ({ made with cost := .linear final }, [(left, [2]), (right, [4])]) := rfl
  cases htaken.symm.trans hrun
  obtain rfl : final = vectors := Cost.linear.inj hvectors
  have hsized : Sized final :=
    List.forall_mem_cons.2 ⟨rfl, List.forall_mem_cons.2 ⟨rfl, List.forall_mem_singleton.2 rfl⟩⟩
  refine ⟨hcosts, made, _, _, hstart, hrun, rfl, ?_, ?_⟩
  · rw [hvalue _ (hsized.conforms (sized_atBoth 5 7))]
    let products : List ℝ := [Vec.dot [1] [5], Vec.dot [1, 1] [], Vec.dot [2] [5], Vec.dot [4] [7]]
    change Except.ok products.sum = _
    norm_num [products]
  · exact ((hnext left _).1).2 ⟨nofun, [1 + 2], rfl, by decide⟩

end TwoVariables

end ActiveSet
