import Mathlib.Algebra.BigOperators.Ring.Finset
import ActiveSet.Matrix
import ActiveSet.Proofs.Real

/-!
# Vectors and matrices over the reals

The inner product of lists is bilinear where the added vectors have one length. A matrix and its
transpose are adjoint without any condition on lengths, since both sides cut what is too long.
-/

namespace ActiveSet

namespace Vec

theorem total_eq_sum (a : List ℝ) : total a = a.sum := by
  rw [List.sum_eq_foldl]
  rfl

/-! ## The inner product -/

@[simp] theorem dot_nil_left (b : List ℝ) : dot [] b = 0 := by simp [dot, total]

@[simp] theorem dot_nil_right (a : List ℝ) : dot a [] = 0 := by simp [dot, total]

@[simp] theorem dot_cons (x y : ℝ) (a b : List ℝ) : dot (x :: a) (y :: b) = x * y + dot a b := by
  simp [dot, total_eq_sum]

theorem dot_singleton (x : ℝ) (a : List ℝ) : dot [x] a = x * a.headD 0 := by
  cases a with
  | nil => simp
  | cons y a => simp

theorem dot_comm (a b : List ℝ) : dot a b = dot b a := by
  induction a generalizing b with
  | nil => simp
  | cons x a ih =>
      cases b with
      | nil => simp
      | cons y b => rw [dot_cons, dot_cons, ih b, mul_comm]

theorem dot_add_right {b c : List ℝ} (h : b.length = c.length) (a : List ℝ) :
    dot a (add b c) = dot a b + dot a c := by
  induction a generalizing b c with
  | nil => simp
  | cons x a ih =>
      match b, c with
      | [], [] => simp [add]
      | y :: b, z :: c =>
          have hbc := ih (b := b) (c := c) (by simpa using h)
          simp only [add, List.zipWith_cons_cons, dot_cons] at hbc ⊢
          rw [hbc]; ring

theorem dot_scale_right (s : ℝ) (a b : List ℝ) : dot a (scale s b) = s * dot a b := by
  induction a generalizing b with
  | nil => simp
  | cons x a ih =>
      cases b with
      | nil => simp [scale]
      | cons y b =>
          have hb := ih b
          simp only [scale, List.map_cons, dot_cons] at hb ⊢
          rw [hb]; ring

theorem neg_eq_scale (a : List ℝ) : neg a = scale (-1) a := by simp [neg, scale]

theorem sub_eq_add_neg' (a b : List ℝ) : sub a b = add a (neg b) := by
  simp [sub, add, neg, List.zipWith_map_right, sub_eq_add_neg]

theorem dot_neg_right (a b : List ℝ) : dot a (neg b) = -dot a b := by
  rw [neg_eq_scale, dot_scale_right]; ring

theorem dot_sub_right {b c : List ℝ} (h : b.length = c.length) (a : List ℝ) :
    dot a (sub b c) = dot a b - dot a c := by
  rw [sub_eq_add_neg', dot_add_right (by simpa using h), dot_neg_right]; ring

theorem dot_add_left {b c : List ℝ} (h : b.length = c.length) (a : List ℝ) :
    dot (add b c) a = dot b a + dot c a := by
  rw [dot_comm, dot_add_right h, dot_comm a, dot_comm a]

theorem dot_sub_left {b c : List ℝ} (h : b.length = c.length) (a : List ℝ) :
    dot (sub b c) a = dot b a - dot c a := by
  rw [dot_comm, dot_sub_right h, dot_comm a, dot_comm a]

theorem dot_neg_left (a b : List ℝ) : dot (neg a) b = -dot a b := by
  rw [dot_comm, dot_neg_right, dot_comm]

theorem dot_scale_left (s : ℝ) (a b : List ℝ) : dot (scale s a) b = s * dot a b := by
  rw [dot_comm, dot_scale_right, dot_comm]

theorem dot_append {a c : List ℝ} (h : a.length = c.length) (b d : List ℝ) :
    dot (a ++ b) (c ++ d) = dot a c + dot b d := by
  induction a generalizing c with
  | nil => simp [List.length_eq_zero_iff.1 h.symm]
  | cons x a ih =>
      match c with
      | y :: c =>
          simp only [List.cons_append, dot_cons, ih (c := c) (by simpa using h)]
          ring

@[simp] theorem zeros_zero : (zeros 0 : List ℝ) = [] := rfl

@[simp] theorem zeros_succ (n : Nat) : (zeros (n + 1) : List ℝ) = 0 :: zeros n := rfl

@[simp] theorem dot_zeros_left (n : Nat) (a : List ℝ) : dot (zeros n) a = 0 := by
  induction n generalizing a with
  | zero => simp
  | succ n ih => cases a <;> simp [ih]

@[simp] theorem dot_zeros_right (n : Nat) (a : List ℝ) : dot a (zeros n) = 0 := by
  rw [dot_comm, dot_zeros_left]

theorem dot_self_nonneg (a : List ℝ) : 0 ≤ dot a a := by
  induction a with
  | nil => simp
  | cons x a ih => rw [dot_cons]; exact add_nonneg (mul_self_nonneg x) ih

theorem eq_zeros_of_dot_self {a : List ℝ} (h : dot a a = 0) : a = zeros a.length := by
  induction a with
  | nil => rfl
  | cons x a ih =>
      rw [dot_cons] at h
      have ha := dot_self_nonneg a
      have hx : x = 0 := by nlinarith [mul_self_nonneg x]
      subst hx
      rw [List.length_cons, zeros_succ, ← ih (by linarith)]

/-! ## Entries -/

theorem eq_zeros_of_sum_dot_self {α : Type} {l : List α} {u : α → List ℝ}
    (h : (l.map fun a => dot (u a) (u a)).sum = 0) : ∀ a ∈ l, u a = zeros (u a).length := by
  intro a ha
  have hnonneg : ∀ x ∈ l.map fun a => dot (u a) (u a), 0 ≤ x := by
    simp only [List.mem_map]
    rintro _ ⟨b, _, rfl⟩
    exact dot_self_nonneg (u b)
  have hle := List.single_le_sum hnonneg (dot (u a) (u a))
    (List.mem_map_of_mem (f := fun a => dot (u a) (u a)) ha)
  exact eq_zeros_of_dot_self (le_antisymm (h ▸ hle) (dot_self_nonneg (u a)))

@[simp] theorem getD_zeros (n i : Nat) : (zeros n : List ℝ).getD i 0 = 0 := by
  simp only [zeros, List.getD_eq_getElem?_getD, List.getElem?_replicate]
  split <;> rfl

theorem dot_eq_sum {n : Nat} {a : List ℝ} (h : a.length ≤ n) (b : List ℝ) :
    dot a b = ∑ i ∈ Finset.range n, a.getD i 0 * b.getD i 0 := by
  induction a generalizing b n with
  | nil => simp
  | cons x a ih =>
      obtain ⟨n, rfl⟩ : ∃ m, n = m + 1 := ⟨n - 1, by simp at h; omega⟩
      cases b with
      | nil => simp
      | cons y b =>
          rw [dot_cons, Finset.sum_range_succ', ih (by simpa using h)]
          simp [add_comm]

theorem getD_add {a b : List ℝ} {i : Nat} (ha : i < a.length) (hb : i < b.length) :
    (add a b).getD i 0 = a.getD i 0 + b.getD i 0 := by
  simp [add, List.getD_eq_getElem?_getD, List.getElem?_zipWith, List.getElem?_eq_getElem ha,
    List.getElem?_eq_getElem hb]

theorem getD_sub {a b : List ℝ} {i : Nat} (ha : i < a.length) (hb : i < b.length) :
    (sub a b).getD i 0 = a.getD i 0 - b.getD i 0 := by
  simp [sub, List.getD_eq_getElem?_getD, List.getElem?_zipWith, List.getElem?_eq_getElem ha,
    List.getElem?_eq_getElem hb]

theorem getD_scale (s : ℝ) (a : List ℝ) (i : Nat) : (scale s a).getD i 0 = s * a.getD i 0 := by
  simp only [scale, List.getD_eq_getElem?_getD, List.getElem?_map]
  cases a[i]? <;> simp

theorem getD_neg (a : List ℝ) (i : Nat) : (neg a).getD i 0 = -a.getD i 0 := by
  simp only [neg, List.getD_eq_getElem?_getD, List.getElem?_map]
  cases a[i]? <;> simp

theorem fit_one (a : List ℝ) : fit 1 a = [a.headD 0] := by
  cases a with
  | nil => rfl
  | cons x a => rfl

theorem getD_fit {n i : Nat} (h : i < n) (a : List ℝ) : (fit n a).getD i 0 = a.getD i 0 := by
  simp only [fit, zeros, List.getD_eq_getElem?_getD, List.getElem?_take_of_lt h,
    List.getElem?_append]
  split
  · rfl
  · rename_i hi
    rw [List.getElem?_eq_none (not_lt.1 hi), List.getElem?_replicate]
    split <;> rfl

theorem dot_fit_right {n : Nat} {a : List ℝ} (h : a.length ≤ n) (b : List ℝ) :
    dot a (fit n b) = dot a b := by
  rw [dot_eq_sum h, dot_eq_sum h]
  exact Finset.sum_congr rfl fun i hi => by rw [getD_fit (Finset.mem_range.1 hi)]

theorem dot_fit_fit {n : Nat} {a : List ℝ} (h : a.length ≤ n) (b : List ℝ) :
    dot (fit n a) (fit n b) = dot a b := by
  rw [dot_eq_sum (length_fit n a).le, dot_eq_sum h]
  refine Finset.sum_congr rfl fun i hi => ?_
  rw [getD_fit (Finset.mem_range.1 hi), getD_fit (Finset.mem_range.1 hi)]

theorem dot_unit {n i : Nat} (hi : i < n) (v : List ℝ) : dot (unit n i) v = v.getD i 0 := by
  rw [dot_eq_sum (length_unit n i).le, Finset.sum_eq_single_of_mem i (Finset.mem_range.2 hi)]
  · simp [unit, List.getD_eq_getElem?_getD, hi]
  · intro j hj hne
    have hj := Finset.mem_range.1 hj
    simp [unit, List.getD_eq_getElem?_getD, hj, hne]

/-- A unit vector picks an entry, or nothing where there is none. -/
theorem dot_unit_of_length {n : Nat} {v : List ℝ} (hv : v.length = n) (i : Nat) :
    dot (unit n i) v = v.getD i 0 := by
  rcases Nat.lt_or_ge i n with hi | hi
  · exact dot_unit hi v
  · have hnone : v.getD i 0 = 0 := by
      rw [List.getD_eq_getElem?_getD, List.getElem?_eq_none (hv.trans_le hi), Option.getD_none]
    rw [hnone, dot_eq_sum (length_unit n i).le]
    refine Finset.sum_eq_zero fun j hj => ?_
    have hj := Finset.mem_range.1 hj
    have hne : j ≠ i := (hj.trans_le hi).ne
    simp [unit, List.getD_eq_getElem?_getD, hj, hne]

theorem ext_getD {a b : List ℝ} (h : a.length = b.length)
    (he : ∀ i < a.length, a.getD i 0 = b.getD i 0) : a = b := by
  refine List.ext_getElem h fun i ha hb => ?_
  simpa [List.getD_eq_getElem?_getD, List.getElem?_eq_getElem ha, List.getElem?_eq_getElem hb]
    using he i ha

/-- Vectors of one length with the same products are equal. -/
theorem ext_dot_of_length {a b : List ℝ} (hlen : a.length = b.length)
    (h : ∀ v, v.length = a.length → dot v a = dot v b) : a = b := by
  refine ext_getD hlen fun i hi => ?_
  rw [← dot_unit hi, h _ (length_unit ..), dot_unit hi]

theorem ext_dot {a b : List ℝ} (hlen : a.length = b.length) (h : ∀ v, dot v a = dot v b) :
    a = b :=
  ext_dot_of_length hlen fun v _ => h v

theorem eq_zeros_of_dot {n : Nat} {a : List ℝ} (ha : a.length = n)
    (h : ∀ b : List ℝ, b.length = n → dot b a = 0) : a = zeros n := by
  have := eq_zeros_of_dot_self (h a ha)
  rwa [ha] at this

theorem dotStored_eq_dot (a b : List ℝ) : dotStored a b = dot a b := by
  unfold dotStored dot
  congr 2
  funext x y
  split
  · rfl
  · rename_i h
    have hx : x = 0 := le_antisymm (not_lt.1 fun hx => h (.inr hx)) (not_lt.1 fun hx => h (.inl hx))
    simp [hx]

theorem add_comm' (a b : List ℝ) : add a b = add b a := List.zipWith_comm_of_comm add_comm

theorem add_assoc' (a b c : List ℝ) : add (add a b) c = add a (add b c) := by
  induction a generalizing b c with
  | nil => simp [add]
  | cons x a ih =>
      match b, c with
      | [], _ => simp [add]
      | _ :: _, [] => simp [add]
      | y :: b, z :: c =>
          have hbc := ih b c
          simp only [add, List.zipWith_cons_cons] at hbc ⊢
          rw [hbc, add_assoc]

theorem scale_add (s : ℝ) (a b : List ℝ) : scale s (add a b) = add (scale s a) (scale s b) := by
  simp [scale, add, List.map_zipWith, List.zipWith_map, mul_add]

theorem scale_one_of {K : Type} [Scalar K] {a : List K} (h : ∀ x ∈ a, 1 * x = x) :
    scale 1 a = a := by
  rw [scale, List.map_congr_left h, List.map_id']

theorem scale_one (a : List ℝ) : scale 1 a = a := scale_one_of fun x _ => one_mul x

theorem add_zeros {n : Nat} {a : List ℝ} (h : a.length = n) : add a (zeros n) = a := by
  subst h
  induction a with
  | nil => rfl
  | cons x a ih => simpa [add] using ih

theorem zeros_add_of {K : Type} [Scalar K] {a : List K} (h : ∀ x ∈ a, 0 + x = x) :
    add (zeros a.length) a = a := by
  induction a with
  | nil => rfl
  | cons x a ih =>
      obtain ⟨hx, ha⟩ := List.forall_mem_cons.1 h
      exact congrArg₂ List.cons hx (ih ha)

theorem zeros_add {n : Nat} {a : List ℝ} (h : a.length = n) : add (zeros n) a = a :=
  h ▸ zeros_add_of fun x _ => zero_add x

theorem sub_zeros {n : Nat} {a : List ℝ} (h : a.length = n) : sub a (zeros n) = a := by
  subst h
  induction a with
  | nil => rfl
  | cons x a ih => simpa [sub] using ih

theorem zero_scale (a : List ℝ) : scale 0 a = zeros a.length := by
  simp [scale, zeros, List.map_const']

theorem scale_zeros (s : ℝ) (n : Nat) : scale s (zeros n) = zeros n := by
  simp [scale, zeros]

/-- Where `b` cancels `a`, going a part of the way along `b` leaves the rest of `a`. -/
theorem add_scale_of_cancels {n : Nat} {a b : List ℝ} (hlen : a.length = b.length)
    (h : add b a = zeros n) (t : ℝ) : add a (scale t b) = scale (1 - t) a := by
  induction a generalizing b n with
  | nil => simp [add, scale]
  | cons x a ih =>
      match b, n with
      | [], _ => cases hlen
      | _ :: _, 0 => cases h
      | y :: b, n + 1 =>
          obtain ⟨hy, hrest⟩ := List.cons.inj h
          have hstep := ih (Nat.succ.inj hlen) hrest
          simp only [add, scale, List.map_cons, List.zipWith_cons_cons] at hstep ⊢
          rw [hstep, eq_neg_of_add_eq_zero_left hy]
          congr 1
          ring

theorem sub_self_eq_zeros (a : List ℝ) : sub a a = zeros a.length := by
  induction a with
  | nil => rfl
  | cons x a ih => simpa [sub] using ih

theorem eq_of_sub_eq_zeros {n : Nat} {a b : List ℝ} (hlen : a.length = b.length)
    (h : sub a b = zeros n) : a = b := by
  refine ext_getD hlen fun i hi => ?_
  have hzero := getD_sub hi (hlen ▸ hi)
  rw [h, getD_zeros] at hzero
  exact (sub_eq_zero.1 hzero.symm)

theorem eq_zeros_of_add_eq_self {a b : List ℝ} (hlen : a.length = b.length) (h : add a b = a) :
    b = zeros b.length := by
  refine ext_getD (by simp) fun i hi => ?_
  have hentry := getD_add (hlen ▸ hi) hi
  rw [h] at hentry
  rw [getD_zeros]
  linarith

theorem add_sub_right_comm (a b c : List ℝ) : sub (add a b) c = add (sub a c) b := by
  induction a generalizing b c with
  | nil => simp [sub, add]
  | cons x a ih =>
      match b, c with
      | [], _ => simp [sub, add]
      | _ :: _, [] => simp [sub, add]
      | y :: b, z :: c =>
          have hbc := ih b c
          simp only [sub, add, List.zipWith_cons_cons] at hbc ⊢
          rw [hbc]
          congr 1
          ring

theorem sub_neg_sub (a b c : List ℝ) : sub a (neg (sub b c)) = add a (sub b c) := by
  rw [sub_eq_add_neg', neg_eq_scale, neg_eq_scale, scale, scale, List.map_map]
  simp

theorem sub_append {a c : List ℝ} (h : a.length = c.length) (b d : List ℝ) :
    sub (a ++ b) (c ++ d) = sub a c ++ sub b d :=
  List.zipWith_append h

/-- Products of vectors put together from parts of equal lengths are summed part by part. -/
theorem dot_flatMap {α : Type} {l : List α} {u v : α → List ℝ}
    (h : ∀ a ∈ l, (u a).length = (v a).length) :
    dot (l.flatMap u) (l.flatMap v) = (l.map fun a => dot (u a) (v a)).sum := by
  induction l with
  | nil => simp
  | cons a l ih =>
      rw [List.flatMap_cons, List.flatMap_cons, dot_append (h a (.head _)),
        ih fun b hb => h b (.tail _ hb), List.map_cons, List.sum_cons]

theorem sub_flatMap {α : Type} {l : List α} {u v : α → List ℝ}
    (h : ∀ a ∈ l, (u a).length = (v a).length) :
    sub (l.flatMap u) (l.flatMap v) = l.flatMap fun a => sub (u a) (v a) := by
  induction l with
  | nil => rfl
  | cons a l ih =>
      rw [List.flatMap_cons, List.flatMap_cons, List.flatMap_cons, sub_append (h a (.head _)),
        ih fun b hb => h b (.tail _ hb)]

end Vec

namespace Matrix

/-! ## Products -/

theorem getD_mulVec (A : Matrix ℝ) (v : List ℝ) (i : Nat) :
    (A.mulVec v).getD i 0 = Vec.dot (A.rows.getD i []) v := by
  simp only [mulVec, List.getD_eq_getElem?_getD, List.getElem?_map]
  cases A.rows[i]? <;> simp

theorem length_row (A : Matrix ℝ) (i : Nat) : (A.rows.getD i []).length ≤ A.cols := by
  rw [List.getD_eq_getElem?_getD]
  cases h : A.rows[i]? with
  | none => simp
  | some row => exact (A.rect row (List.mem_of_getElem? h)).le

theorem length_row_of_lt {A : Matrix ℝ} {i : Nat} (h : i < A.height) :
    (A.rows.getD i []).length = A.cols := by
  rw [List.getD_eq_getElem?_getD, List.getElem?_eq_getElem h]
  exact A.rect _ (List.getElem_mem h)

@[simp] theorem length_column (A : Matrix ℝ) (j : Nat) : (A.column j).length = A.height :=
  List.length_map _

theorem getD_column (A : Matrix ℝ) (i j : Nat) :
    (A.column j).getD i 0 = (A.rows.getD i []).getD j 0 := by
  simp only [column, List.getD_eq_getElem?_getD, List.getElem?_map]
  cases A.rows[i]? <;> simp

theorem getD_mulVec_transpose {A : Matrix ℝ} {j : Nat} (h : j < A.cols) (u : List ℝ) :
    (A.transpose.mulVec u).getD j 0 = Vec.dot (A.column j) u := by
  rw [getD_mulVec]
  simp [transpose, columns, List.getD_eq_getElem?_getD, h]

/-- `A` and its transpose are adjoint. -/
theorem dot_mulVec_transpose (A : Matrix ℝ) (u v : List ℝ) :
    Vec.dot (A.transpose.mulVec u) v = Vec.dot u (A.mulVec v) := by
  rw [Vec.dot_comm u, Vec.dot_eq_sum (n := A.cols) (by simp),
    Vec.dot_eq_sum (n := A.height) (by simp)]
  calc ∑ j ∈ Finset.range A.cols, (A.transpose.mulVec u).getD j 0 * v.getD j 0
      = ∑ j ∈ Finset.range A.cols, ∑ i ∈ Finset.range A.height,
          (A.rows.getD i []).getD j 0 * u.getD i 0 * v.getD j 0 := by
        refine Finset.sum_congr rfl fun j hj => ?_
        rw [getD_mulVec_transpose (Finset.mem_range.1 hj),
          Vec.dot_eq_sum (n := A.height) (by simp [column, height]), Finset.sum_mul]
        exact Finset.sum_congr rfl fun i _ => by rw [getD_column]
    _ = ∑ i ∈ Finset.range A.height, (A.mulVec v).getD i 0 * u.getD i 0 := by
        rw [Finset.sum_comm]
        refine Finset.sum_congr rfl fun i _ => ?_
        rw [getD_mulVec, Vec.dot_eq_sum (A.length_row i), Finset.sum_mul]
        exact Finset.sum_congr rfl fun j _ => by ring

theorem mulVec_gram (A : Matrix ℝ) (v : List ℝ) :
    A.gram.mulVec v = A.transpose.mulVec (A.mulVec v) := by
  simp only [mulVec, gram, transpose, List.map_map]
  refine List.map_congr_left fun c _ => ?_
  have hc : A.columns.map (Vec.dotStored c) = A.transpose.mulVec c := by
    simp only [mulVec, transpose]
    exact List.map_congr_left fun d _ => by rw [Vec.dotStored_eq_dot, Vec.dot_comm]
  simp only [Function.comp_apply, hc]
  exact A.dot_mulVec_transpose c v

theorem mulVec_add (A : Matrix ℝ) {u v : List ℝ} (h : u.length = v.length) :
    A.mulVec (Vec.add u v) = Vec.add (A.mulVec u) (A.mulVec v) := by
  simp only [mulVec, Vec.add, List.zipWith_map, List.zipWith_self]
  exact List.map_congr_left fun row _ => Vec.dot_add_right h row

theorem mulVec_scale (A : Matrix ℝ) (s : ℝ) (v : List ℝ) :
    A.mulVec (Vec.scale s v) = Vec.scale s (A.mulVec v) := by
  simp only [mulVec, Vec.scale, List.map_map]
  exact List.map_congr_left fun row _ => Vec.dot_scale_right s row v

@[simp] theorem mulVec_zeros (A : Matrix ℝ) (n : Nat) :
    A.mulVec (Vec.zeros n) = Vec.zeros A.height := by
  rw [mulVec, List.map_congr_left fun row _ => Vec.dot_zeros_right n row, List.map_const']
  rfl

theorem mulVec_fit {A : Matrix ℝ} {n : Nat} (h : A.cols ≤ n) (v : List ℝ) :
    A.mulVec (Vec.fit n v) = A.mulVec v :=
  List.map_congr_left fun row hrow => Vec.dot_fit_right ((A.rect row hrow).trans_le h) v

theorem mulVec_zero (h n : Nat) (v : List ℝ) : (zero h n).mulVec v = Vec.zeros h := by
  rw [mulVec, zero, List.map_replicate, Vec.dot_zeros_left]
  rfl

theorem mulVec_identity (n : Nat) (v : List ℝ) : (identity n).mulVec v = Vec.fit n v := by
  refine Vec.ext_getD (by simp) fun i hi => ?_
  have hi : i < n := by simpa using hi
  have hrow : (identity n).rows.getD i [] = (Vec.unit n i : List ℝ) := by
    simp [identity, List.getD_eq_getElem?_getD, hi]
  rw [getD_mulVec, hrow, Vec.getD_fit hi, Vec.dot_unit hi]

/-! ## Blocks -/

private theorem map_dot_zipWith_append {u : List ℝ} (v : List ℝ) {as : List (List ℝ)}
    (has : ∀ a ∈ as, a.length = u.length) (bs : List (List ℝ)) :
    (List.zipWith (· ++ ·) as bs).map (Vec.dot · (u ++ v)) =
      Vec.add (as.map (Vec.dot · u)) (bs.map (Vec.dot · v)) := by
  induction as generalizing bs with
  | nil => simp [Vec.add]
  | cons a as ih =>
      cases bs with
      | nil => simp [Vec.add]
      | cons b bs =>
          have ih := ih (fun c hc => has c (.tail _ hc)) bs
          simp only [Vec.add, List.zipWith_cons_cons, List.map_cons] at ih ⊢
          rw [ih, Vec.dot_append (has a (.head _))]

theorem mulVec_beside {A B : Matrix ℝ} {u : List ℝ} (hu : u.length = A.cols) (v : List ℝ) :
    (A.beside B).mulVec (u ++ v) = Vec.add (A.mulVec u) (B.mulVec v) :=
  map_dot_zipWith_append v (fun a ha => (A.rect a ha).trans hu.symm) B.rows

theorem mulVec_above {A B : Matrix ℝ} (h : B.cols = A.cols) (v : List ℝ) :
    (A.above B).mulVec v = A.mulVec v ++ B.mulVec v := by
  simp only [mulVec, above, List.map_append, List.map_map]
  congr 1
  refine List.map_congr_left fun row hrow => ?_
  rw [Function.comp_apply, Vec.fit_eq_self ((B.rect row hrow).trans h)]

end Matrix

end ActiveSet
