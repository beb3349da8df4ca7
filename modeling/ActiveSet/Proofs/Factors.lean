import ActiveSet.Factor
import ActiveSet.Proofs.Points

/-!
# The values of factors

`values` is the vector `Σ Aₖ xₖ` without the checks of `product`: the two agree where the dimensions
fit, and the product fails elsewhere. Values are linear in the point.
-/

namespace ActiveSet

namespace Factor

/-- Row `i` of `Σ Aₖ xₖ`; a key that the point lacks counts as zero. -/
noncomputable def rowValue (f : Factor ℝ) (i : Nat) (x : Point ℝ) : ℝ :=
  (f.terms.entries.map fun e => Vec.dot (e.2.rows.getD i []) (x.part e.1)).sum

noncomputable def values (f : Factor ℝ) (x : Point ℝ) : List ℝ :=
  (List.range f.rows).map fun i => f.rowValue i x

/-- The residual `Σ Aₖ xₖ − b`. -/
noncomputable def defect (f : Factor ℝ) (x : Point ℝ) : List ℝ := Vec.sub (f.values x) f.b

/-- The vectors of a point have the dimensions that the blocks ask for. -/
def Fits (f : Factor ℝ) (x : Point ℝ) : Prop :=
  ∀ e ∈ f.terms.entries, ∀ v, x.lookup e.1 = some v → v.length = e.2.cols

theorem mem_dims_entries {K : Type} {f : Factor K} {e : Key × Matrix K} (he : e ∈ f.terms.entries) :
    (e.1, e.2.cols) ∈ f.dims.entries :=
  List.mem_map_of_mem (f := fun e : Key × Matrix K => (e.1, e.2.cols)) he

@[simp] theorem length_values (f : Factor ℝ) (x : Point ℝ) : (f.values x).length = f.rows := by
  simp [values]

@[simp] theorem length_defect (f : Factor ℝ) (x : Point ℝ) : (f.defect x).length = f.rows := by
  simp [defect, rows]

theorem getD_values (f : Factor ℝ) {i : Nat} (hi : i < f.rows) (x : Point ℝ) :
    (f.values x).getD i 0 = f.rowValue i x := by
  simp [values, List.getD_eq_getElem?_getD, hi]

theorem values_of_singleton {f : Factor ℝ} {k : Key} {A : Matrix ℝ}
    (h : f.terms.entries = [(k, A)]) (x : Point ℝ) : f.values x = A.mulVec (x.part k) := by
  have hheight : A.height = f.rows := f.rows_eq (k, A) (h ▸ List.mem_singleton_self _)
  refine Vec.ext_getD (by simp [hheight]) fun i hi => ?_
  rw [f.getD_values (by simpa using hi), Matrix.getD_mulVec, rowValue, h, List.map_singleton,
    List.sum_singleton]

theorem fits_of_singleton {f : Factor ℝ} {k : Key} {A : Matrix ℝ} (h : f.terms.entries = [(k, A)])
    {x : Point ℝ} {v : List ℝ} (hx : x.lookup k = some v) (hv : v.length = A.cols) : f.Fits x := by
  intro e he u hu
  obtain rfl := List.mem_singleton.1 (h ▸ he)
  cases hx.symm.trans hu
  exact hv

/-- A point that holds vectors of the right lengths fits all factors over their keys. -/
theorem fits_of_fills {f : Factor ℝ} {dims : Keyed Nat}
    (hf : ∀ e ∈ f.terms.entries, (e.1, e.2.cols) ∈ dims.entries) {x : Point ℝ}
    (hx : Point.Fills dims x) : f.Fits x := by
  intro e he v hv
  obtain ⟨u, hu, hlen⟩ := hx e.1 e.2.cols (Keyed.lookup_of_mem (hf e he))
  rw [Option.some.inj (hv.symm.trans hu), hlen]

theorem values_congr {f g : Factor ℝ} (ht : g.terms = f.terms) (hr : g.rows = f.rows)
    (x : Point ℝ) : g.values x = f.values x := by
  simp [values, rowValue, ht, hr]

/-! ## Products -/

private theorem addProduct_of_fits {x : Point ℝ} {acc : List ℝ} {e : Key × Matrix ℝ}
    (hacc : acc.length = e.2.height) (h : ∀ v, x.lookup e.1 = some v → v.length = e.2.cols) :
    addProduct x acc e = .ok (Vec.add acc (e.2.mulVec (x.part e.1))) := by
  unfold addProduct Point.part
  cases hk : x.lookup e.1 with
  | none =>
      have hmul : e.2.mulVec [] = Vec.zeros e.2.height := e.2.mulVec_zeros 0
      simp [hmul, Vec.add_zeros hacc]
  | some v => simp [h v hk]

private theorem fits_of_addProduct {x : Point ℝ} {acc r : List ℝ} {e : Key × Matrix ℝ}
    (h : addProduct x acc e = .ok r) : ∀ v, x.lookup e.1 = some v → v.length = e.2.cols := by
  intro v hv
  simp only [addProduct, hv] at h
  split at h
  · assumption
  · cases h

private theorem foldlM_addProduct {n : Nat} {x : Point ℝ} {l : List (Key × Matrix ℝ)}
    (hl : ∀ e ∈ l, e.2.height = n) {acc r : List ℝ} (hacc : acc.length = n) :
    l.foldlM (addProduct x) acc = .ok r ↔
      (∀ e ∈ l, ∀ v, x.lookup e.1 = some v → v.length = e.2.cols) ∧
        r = (List.range n).map fun i => acc.getD i 0 +
          (l.map fun e => Vec.dot (e.2.rows.getD i []) (x.part e.1)).sum := by
  induction l generalizing acc with
  | nil =>
      have hid : acc = (List.range n).map fun i => acc.getD i 0 + 0 := by
        refine Vec.ext_getD (by simp [hacc]) fun i hi => ?_
        simp [List.getD_eq_getElem?_getD, hacc ▸ hi]
      rw [List.foldlM_nil, pure_eq_ok]
      simp only [List.map_nil, List.sum_nil, ← hid]
      simp [eq_comm]
  | cons e l ih =>
      have hheight := hl e (.head _)
      have hl' : ∀ f ∈ l, f.2.height = n := fun f hf => hl f (.tail _ hf)
      rw [List.foldlM_cons, bind_eq_ok]
      have hlen : (Vec.add acc (e.2.mulVec (x.part e.1))).length = n := by simp [hacc, hheight]
      have hsum : ((List.range n).map fun i => (Vec.add acc (e.2.mulVec (x.part e.1))).getD i 0 +
            (l.map fun e => Vec.dot (e.2.rows.getD i []) (x.part e.1)).sum) =
          (List.range n).map fun i => acc.getD i 0 +
            ((e :: l).map fun e => Vec.dot (e.2.rows.getD i []) (x.part e.1)).sum := by
        refine List.map_congr_left fun i hi => ?_
        have hi := List.mem_range.1 hi
        rw [Vec.getD_add (by simpa [hacc] using hi) (by simpa [hheight] using hi),
          Matrix.getD_mulVec, List.map_cons, List.sum_cons, add_assoc]
      constructor
      · rintro ⟨b, hb, h⟩
        have he := fits_of_addProduct hb
        rw [addProduct_of_fits (hacc.trans hheight.symm) he] at hb
        obtain rfl := Except.ok.inj hb
        obtain ⟨hfits, rfl⟩ := (ih hl' hlen).1 h
        refine ⟨fun f hf => ?_, hsum⟩
        rcases List.mem_cons.1 hf with rfl | hf
        · exact he
        · exact hfits f hf
      · rintro ⟨hfits, rfl⟩
        refine ⟨_, addProduct_of_fits (hacc.trans hheight.symm) (hfits e (.head _)), ?_⟩
        exact (ih hl' hlen).2 ⟨fun f hf => hfits f (.tail _ hf), hsum.symm⟩

theorem product_eq_ok (f : Factor ℝ) {x : Point ℝ} {r : List ℝ} :
    f.product x = .ok r ↔ f.Fits x ∧ r = f.values x := by
  rw [product, foldlM_addProduct (n := f.rows) f.rows_eq (Vec.length_zeros _)]
  simp only [Vec.getD_zeros, zero_add]
  rfl

theorem residual_eq_ok (f : Factor ℝ) {x : Point ℝ} {r : List ℝ} :
    f.residual x = .ok r ↔ f.Fits x ∧ r = f.defect x := by
  simp only [residual, bind_eq_ok, pure_eq_ok, product_eq_ok]
  constructor
  · rintro ⟨_, ⟨h, rfl⟩, rfl⟩
    exact ⟨h, rfl⟩
  · rintro ⟨h, rfl⟩
    exact ⟨_, ⟨h, rfl⟩, rfl⟩

theorem product_eq_error {f : Factor ℝ} {x : Point ℝ} {e : Fault ℝ} (h : f.product x = .error e) :
    ∃ c, e = .dimension c := by
  obtain ⟨t, _, acc, h⟩ := foldlM_eq_error h
  unfold addProduct at h
  split at h
  · cases h
  · split at h
    · cases h
    · exact ⟨_, (Except.error.inj h).symm⟩

theorem residual_eq_error {f : Factor ℝ} {x : Point ℝ} {e : Fault ℝ} (h : f.residual x = .error e) :
    ∃ c, e = .dimension c := by
  simp only [residual, bind_eq_error, pure_ne_error, and_false, exists_false, or_false] at h
  exact product_eq_error h

/-! ## Making and shifting -/

private theorem hasNaN_real (v : List ℝ) : Vec.hasNaN v = false := by
  simp [Vec.hasNaN]

private theorem matrix_hasNaN_real (A : Matrix ℝ) : A.hasNaN = false := by
  simp [Matrix.hasNaN, hasNaN_real]

section Make

variable {K : Type} [Scalar K] {terms : Keyed (Matrix K)} {b : List K}

theorem make_eq_ok {f : Factor K} (h : make terms b = .ok f) : f.terms = terms ∧ f.b = b := by
  unfold make at h
  split at h
  · cases h
  · split at h
    · cases h
    · obtain rfl := Except.ok.inj h
      exact ⟨rfl, rfl⟩

theorem make_ok_of_noNaN (h : ∀ e ∈ terms.entries, e.2.height = b.length)
    (hb : Vec.hasNaN b = false) (hterms : terms.values.any Matrix.hasNaN = false) :
    make terms b = .ok ⟨terms, b, h⟩ := by
  unfold make
  split
  · rename_i e he
    have := List.find?_some he
    simp [h e (List.mem_of_find?_eq_some he)] at this
  · rw [if_neg]
    simp only [hb, hterms, Bool.or_self, Bool.false_eq_true, not_false_eq_true]

theorem make_eq_error_of_noNaN {e : Fault K} (hb : Vec.hasNaN b = false)
    (hterms : terms.values.any Matrix.hasNaN = false) (h : make terms b = .error e) :
    ∃ c, e = .dimension c := by
  unfold make at h
  split at h
  · exact ⟨_, (Except.error.inj h).symm⟩
  · rw [if_neg] at h
    · cases h
    · simp only [hb, hterms, Bool.or_self, Bool.false_eq_true, not_false_eq_true]

end Make

theorem make_ok {terms : Keyed (Matrix ℝ)} {b : List ℝ}
    (h : ∀ e ∈ terms.entries, e.2.height = b.length) : make terms b = .ok ⟨terms, b, h⟩ :=
  make_ok_of_noNaN h (hasNaN_real b) (by simp [matrix_hasNaN_real])

theorem make_eq_error {terms : Keyed (Matrix ℝ)} {b : List ℝ} {e : Fault ℝ}
    (h : make terms b = .error e) : ∃ c, e = .dimension c :=
  make_eq_error_of_noNaN (hasNaN_real b) (by simp [matrix_hasNaN_real]) h

/-- A factor in coordinates around `x` has the same blocks and the negated residual. -/
theorem shifted_eq_ok (f : Factor ℝ) {x : Point ℝ} {g : Factor ℝ} (h : f.shifted x = .ok g) :
    f.Fits x ∧ g.terms = f.terms ∧ g.b = Vec.neg (f.defect x) := by
  simp only [shifted, bind_eq_ok, residual_eq_ok] at h
  obtain ⟨_, ⟨hfits, rfl⟩, h⟩ := h
  exact ⟨hfits, make_eq_ok h⟩

theorem shifted_rows (f : Factor ℝ) {x : Point ℝ} {g : Factor ℝ} (h : f.shifted x = .ok g) :
    g.rows = f.rows := by
  simp [rows, (f.shifted_eq_ok h).2.2]

theorem shifted_ok {f : Factor ℝ} {x : Point ℝ} (h : f.Fits x) : ∃ g, f.shifted x = .ok g := by
  simp only [shifted, bind_eq_ok, residual_eq_ok]
  refine ⟨_, _, ⟨h, rfl⟩, make_ok fun e he => ?_⟩
  simp [f.rows_eq e he, rows]

theorem shifted_eq_error {f : Factor ℝ} {x : Point ℝ} {e : Fault ℝ} (h : f.shifted x = .error e) :
    ∃ c, e = .dimension c := by
  rw [shifted, bind_eq_error] at h
  rcases h with h | ⟨r, hr, h⟩
  · exact residual_eq_error h
  · obtain ⟨g, hg⟩ := shifted_ok (f.residual_eq_ok.1 hr).1
    simp [shifted, hr, bind, Except.bind, h] at hg

/-! ## Linearity -/

theorem dot_values (f : Factor ℝ) (x : Point ℝ) (r : List ℝ) : Vec.dot (f.values x) r =
    (f.terms.entries.map fun e => Vec.dot (e.2.mulVec (x.part e.1)) r).sum := by
  have hl : ∀ e ∈ f.terms.entries, e.2.height = f.rows := f.rows_eq
  rw [Vec.dot_eq_sum (f.length_values x).le,
    Finset.sum_congr rfl fun i hi => by rw [f.getD_values (Finset.mem_range.1 hi), rowValue]]
  revert hl
  induction f.terms.entries with
  | nil => simp
  | cons e l ih =>
      intro hl
      have he : (e.2.mulVec (x.part e.1)).length ≤ f.rows := by simp [hl e (.head _)]
      simp only [List.map_cons, List.sum_cons, add_mul, Finset.sum_add_distrib]
      rw [ih fun g hg => hl g (.tail _ hg), Vec.dot_eq_sum he]
      simp only [Matrix.getD_mulVec]

theorem rowValue_step {a : ℝ} {x p z : Point ℝ} (h : Point.add x (Point.scale a p) = .ok z)
    (f : Factor ℝ) (i : Nat) : f.rowValue i z = f.rowValue i x + a * f.rowValue i p := by
  simp only [rowValue, Point.dot_part_step h, ← List.sum_map_mul_left, ← List.sum_map_add]

theorem values_step {a : ℝ} {x p z : Point ℝ} (h : Point.add x (Point.scale a p) = .ok z)
    (f : Factor ℝ) : f.values z = Vec.add (f.values x) (Vec.scale a (f.values p)) := by
  simp only [values, Vec.add, Vec.scale, List.map_map, List.zipWith_map, List.zipWith_self,
    rowValue_step h]
  rfl

theorem defect_step {a : ℝ} {x p z : Point ℝ} (h : Point.add x (Point.scale a p) = .ok z)
    (f : Factor ℝ) : f.defect z = Vec.add (f.defect x) (Vec.scale a (f.values p)) := by
  rw [defect, values_step h, Vec.add_sub_right_comm, defect]

theorem Fits.step {f : Factor ℝ} {x p z : Point ℝ} (hx : f.Fits x) (hp : f.Fits p) {a : ℝ}
    (h : Point.add x (Point.scale a p) = .ok z) : f.Fits z :=
  fun e he _ hw => Point.length_lookup_step h (hx e he) (hp e he) hw

theorem values_eq_zeros (f : Factor ℝ) {z : Point ℝ}
    (hz : ∀ e ∈ f.terms.entries, z.part e.1 = Vec.zeros (z.part e.1).length) :
    f.values z = Vec.zeros f.rows := by
  refine Vec.ext_getD (by simp) fun i hi => ?_
  rw [f.getD_values (by simpa using hi), Vec.getD_zeros, rowValue]
  refine List.sum_eq_zero fun a ha => ?_
  obtain ⟨e, he, rfl⟩ := List.mem_map.1 ha
  rw [hz e he, Vec.dot_zeros_right]

theorem values_eq_zeros_of_norm {z : Point ℝ} (h : Point.norm z = 0) (f : Factor ℝ) :
    f.values z = Vec.zeros f.rows :=
  f.values_eq_zeros fun e _ => Point.part_of_norm_eq_zero h e.1

theorem values_eq_zeros_of_nil {f : Factor ℝ} (hf : f.terms.entries = []) (z : Point ℝ) :
    f.values z = Vec.zeros f.rows :=
  f.values_eq_zeros (by simp [hf])

end Factor

namespace Equality

theorem shifted_ok {f : Equality ℝ} {x : Point ℝ} (h : f.toFactor.Fits x) :
    ∃ g, f.shifted x = .ok g := by
  obtain ⟨g, hg⟩ := Factor.shifted_ok h
  exact ⟨{ g with dual := f.dual }, by simp [shifted, hg]⟩

theorem shifted_eq_error {f : Equality ℝ} {x : Point ℝ} {e : Fault ℝ} (h : f.shifted x = .error e) :
    ∃ c, e = .dimension c := by
  simp only [shifted, bind_eq_error, pure_ne_error, and_false, exists_false, or_false] at h
  exact Factor.shifted_eq_error h

end Equality

/-! ## Inequalities -/

namespace Inequality

/-- The value `aᵀx`; a key that the point lacks counts as zero. -/
noncomputable def value (f : Inequality ℝ) (x : Point ℝ) : ℝ :=
  (f.terms.entries.map fun e => Vec.dot e.2 (x.part e.1)).sum

def Fits (f : Inequality ℝ) (x : Point ℝ) : Prop :=
  ∀ e ∈ f.terms.entries, ∀ v, x.lookup e.1 = some v → v.length = e.2.length

theorem value_of_singleton {f : Inequality ℝ} {k : Key} {a : List ℝ}
    (h : f.terms.entries = [(k, a)]) (x : Point ℝ) : f.value x = Vec.dot a (x.part k) := by
  rw [value, h, List.map_singleton, List.sum_singleton]

theorem fits_of_singleton {f : Inequality ℝ} {k : Key} {a : List ℝ} (h : f.terms.entries = [(k, a)])
    {x : Point ℝ} {v : List ℝ} (hx : x.lookup k = some v) (hv : v.length = a.length) : f.Fits x := by
  intro e he u hu
  obtain rfl := List.mem_singleton.1 (h ▸ he)
  cases hx.symm.trans hu
  exact hv

private theorem foldlM_addProduct {x : Point ℝ} {l : List (Key × List ℝ)} {acc r : ℝ} :
    l.foldlM (addProduct x) acc = .ok r ↔
      (∀ e ∈ l, ∀ v, x.lookup e.1 = some v → v.length = e.2.length) ∧
        r = acc + (l.map fun e => Vec.dot e.2 (x.part e.1)).sum := by
  induction l generalizing acc with
  | nil =>
      rw [List.foldlM_nil, pure_eq_ok]
      simp [eq_comm]
  | cons e l ih =>
      have hstep : ∀ b, addProduct x acc e = .ok b ↔
          (∀ v, x.lookup e.1 = some v → v.length = e.2.length) ∧
            b = acc + Vec.dot e.2 (x.part e.1) := by
        intro b
        unfold addProduct Point.part
        cases hk : x.lookup e.1 with
        | none => simp [eq_comm]
        | some v => by_cases hv : v.length = e.2.length <;> simp [hv, eq_comm]
      simp only [List.foldlM_cons, bind_eq_ok, hstep, ih, List.forall_mem_cons, List.map_cons,
        List.sum_cons]
      constructor
      · rintro ⟨_, ⟨he, rfl⟩, hl, rfl⟩
        exact ⟨⟨he, hl⟩, add_assoc ..⟩
      · rintro ⟨⟨he, hl⟩, rfl⟩
        exact ⟨_, ⟨he, rfl⟩, hl, (add_assoc ..).symm⟩

theorem product_eq_ok (f : Inequality ℝ) {x : Point ℝ} {r : ℝ} :
    f.product x = .ok r ↔ f.Fits x ∧ r = f.value x := by
  rw [product, foldlM_addProduct, zero_add]
  rfl

theorem excess_eq_ok (f : Inequality ℝ) {x : Point ℝ} {r : ℝ} :
    f.excess x = .ok r ↔ f.Fits x ∧ r = f.value x - f.bound := by
  simp only [excess, bind_eq_ok, pure_eq_ok, product_eq_ok]
  constructor
  · rintro ⟨_, ⟨h, rfl⟩, rfl⟩
    exact ⟨h, rfl⟩
  · rintro ⟨h, rfl⟩
    exact ⟨_, ⟨h, rfl⟩, rfl⟩

theorem isTight_eq_ok {f : Inequality ℝ} {x : Point ℝ} (hf : f.Fits x) (tol : ℝ) :
    f.isTight x tol = .ok (decide (|f.value x - f.bound| ≤ tol)) := by
  rw [isTight, f.excess_eq_ok.2 ⟨hf, rfl⟩, ok_bind, Scalar.abs_eq_abs]
  rfl

theorem product_eq_error {f : Inequality ℝ} {x : Point ℝ} {e : Fault ℝ}
    (h : f.product x = .error e) : ∃ c, e = .dimension c := by
  obtain ⟨t, _, acc, h⟩ := foldlM_eq_error h
  unfold addProduct at h
  split at h
  · cases h
  · split at h
    · cases h
    · exact ⟨_, (Except.error.inj h).symm⟩

theorem value_step {a : ℝ} {x p z : Point ℝ} (h : Point.add x (Point.scale a p) = .ok z)
    (f : Inequality ℝ) : f.value z = f.value x + a * f.value p := by
  simp only [value, Point.dot_part_step h, ← List.sum_map_mul_left, ← List.sum_map_add]

theorem Fits.step {f : Inequality ℝ} {x p z : Point ℝ} (hx : f.Fits x) (hp : f.Fits p) {a : ℝ}
    (h : Point.add x (Point.scale a p) = .ok z) : f.Fits z :=
  fun e he _ hw => Point.length_lookup_step h (hx e he) (hp e he) hw

/-! ## As equalities -/

@[simp] theorem rows_toEquality (f : Inequality ℝ) : f.toEquality.toFactor.rows = 1 := rfl

@[simp] theorem b_toEquality (f : Inequality ℝ) : f.toEquality.b = [f.bound] := rfl

@[simp] theorem dual_toEquality (f : Inequality ℝ) : f.toEquality.dual = f.dual := rfl

theorem fits_toEquality {f : Inequality ℝ} {x : Point ℝ} :
    f.toEquality.toFactor.Fits x ↔ f.Fits x := by
  constructor
  · intro h e he v hv
    exact h (e.1, Matrix.ofRow e.2)
      (List.mem_map_of_mem (f := fun e => (e.1, Matrix.ofRow e.2)) he) v hv
  · intro h e he v hv
    obtain ⟨g, hg, rfl⟩ := List.mem_map.1 he
    exact h g hg v hv

theorem values_toEquality (f : Inequality ℝ) (x : Point ℝ) :
    f.toEquality.toFactor.values x = [f.value x] := by
  rw [Factor.values, rows_toEquality, List.range_one, List.map_singleton]
  simp [Factor.rowValue, toEquality, Keyed.map, Matrix.ofRow, value, Function.comp_def]

theorem defect_toEquality (f : Inequality ℝ) (x : Point ℝ) :
    f.toEquality.toFactor.defect x = [f.value x - f.bound] := by
  rw [Factor.defect, values_toEquality, b_toEquality]
  rfl

/-- How the row pairs with what a direction leaves of its excess. -/
theorem dot_toEquality (f : Inequality ℝ) (x d z : Point ℝ) :
    Vec.dot (f.toEquality.toFactor.values z)
      (Vec.add (f.toEquality.toFactor.values d) (f.toEquality.toFactor.defect x)) =
        f.value z * (f.value d + (f.value x - f.bound)) := by
  rw [defect_toEquality, values_toEquality, values_toEquality]
  simp [Vec.add]

end Inequality

end ActiveSet
