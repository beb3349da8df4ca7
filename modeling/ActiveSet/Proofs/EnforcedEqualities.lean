import ActiveSet.Proofs.Factors

/-!
# Inequalities and the equalities that enforce them

An inequality sums up its rows one number at a time, and the equality that enforces it sums up
blocks of one row. Over any scalars the two go through the same partial sums and meet the same first
clash of sizes, so every test of the inequality can be read off the residual of the equality.
-/

namespace ActiveSet

namespace Inequality

variable {K : Type}

/-! ## Coefficients -/

theorem keys_toEquality (f : Inequality K) : f.toEquality.keys = f.keys := Keyed.keys_map ..

theorem dims_toEquality (f : Inequality K) : f.toEquality.dims = f.dims := by
  simp only [Factor.dims, dims, toEquality, Keyed.map, List.map_map]
  rfl

theorem block_toEquality (f : Inequality K) (k : Key) : f.toEquality.block k = f.block k := by
  rw [Factor.block, block, toEquality, Keyed.get, Keyed.get, Keyed.lookup_map]
  cases f.terms.lookup k <;> rfl

theorem shape_of_block {f : Inequality K} {k : Key} {A : Matrix K} (h : f.block k = .ok A) :
    A.height = 1 ∧ f.dims.lookup k = some A.cols := by
  obtain ⟨row, hrow, h⟩ := bind_eq_ok.1 h
  obtain rfl := pure_eq_ok.1 h
  rw [dims, Keyed.lookup_map, (Keyed.get_eq_ok_iff f.terms).1 hrow]
  exact ⟨rfl, rfl⟩

/-! ## Residuals -/

/--
What rows and the blocks made of them come to at a point: one number, where every vector that is
held has the length of its row, or one clash between a row and a vector.
-/
inductive Agree (x : Point K) (rows : List (Key × List K)) :
    Except (Fault K) K → Except (Fault K) (List K) → Prop
  | number (a : K) (fits : ∀ e ∈ rows, ∀ v, x.lookup e.1 = some v → v.length = e.2.length) :
      Agree x rows (.ok a) (.ok [a])
  | clash (e : Key × List K) (v : List K) (mem : e ∈ rows) (held : x.lookup e.1 = some v)
      (ne : v.length ≠ e.2.length) :
      Agree x rows (.error (.dimension (.rowOperand e.1 v.length e.2.length)))
        (.error (.dimension (.factorOperand e.1 v.length e.2.length)))

variable {x : Point K} {rows : List (Key × List K)}

theorem Agree.cons {e : Key × List K} (he : ∀ v, x.lookup e.1 = some v → v.length = e.2.length)
    {p : Except (Fault K) K} {q : Except (Fault K) (List K)} (h : Agree x rows p q) :
    Agree x (e :: rows) p q := by
  cases h with
  | number a hfits => exact .number a (List.forall_mem_cons.2 ⟨he, hfits⟩)
  | clash g v hg hv hne => exact .clash g v (.tail _ hg) hv hne

variable [Scalar K]

theorem agree_addProduct (x : Point K) (acc : K) (e : Key × List K) :
    Agree x [e] (addProduct x acc e) (Factor.addProduct x [acc] (e.1, Matrix.ofRow e.2)) := by
  unfold addProduct Factor.addProduct
  cases hk : x.lookup e.1 with
  | none => exact .number acc (List.forall_mem_singleton.2 (by simp [hk]))
  | some v =>
      have hcols : (Matrix.ofRow e.2).cols = e.2.length := rfl
      simp only [hcols]
      split
      · rename_i hlen
        exact .number (acc + Vec.dot e.2 v) (List.forall_mem_singleton.2 (by simp [hk, hlen]))
      · rename_i hlen
        exact .clash e v (.head _) hk hlen

theorem agree_foldlM (rows : List (Key × List K)) (acc : K) :
    Agree x rows (rows.foldlM (addProduct x) acc)
      ((rows.map fun e => (e.1, Matrix.ofRow e.2)).foldlM (Factor.addProduct x) [acc]) := by
  induction rows generalizing acc with
  | nil => exact .number acc (by simp)
  | cons e rows ih =>
      rw [List.map_cons, List.foldlM_cons, List.foldlM_cons]
      -- Both scans take this step alike, so they go on from one number or stop at one clash.
      have hstep := agree_addProduct x acc e
      generalize addProduct x acc e = p at hstep ⊢
      generalize Factor.addProduct x [acc] (e.1, Matrix.ofRow e.2) = q at hstep ⊢
      cases hstep with
      | number a hfits => exact .cons (hfits e (.head _)) (ih a)
      | clash g v hg hv hne =>
          exact .clash g v (List.mem_cons.2 (.inl (List.mem_singleton.1 hg))) hv hne

theorem agree_excess (f : Inequality K) (x : Point K) :
    Agree x f.terms.entries (f.excess x) (f.toEquality.residual x) := by
  have hproduct : Agree x f.terms.entries (f.product x) (f.toEquality.product x) :=
    agree_foldlM f.terms.entries 0
  rw [excess, Factor.residual]
  generalize f.product x = p at hproduct ⊢
  generalize f.toEquality.product x = q at hproduct ⊢
  cases hproduct with
  | number a hfits => exact .number _ hfits
  | clash e v he hv hne => exact .clash e v he hv hne

/--
An inequality and the equality that enforces it agree, in what they hold and at every point: either
all sizes fit, and the one entry of the residual decides every test, or both name the first clash.
-/
theorem toEquality_agrees (f : Inequality K) (x : Point K) :
    (f.toEquality.keys = f.keys ∧ f.toEquality.dims = f.dims ∧
      (∀ k, f.toEquality.block k = f.block k) ∧
      (∀ k A, f.block k = .ok A → A.height = 1 ∧ f.dims.lookup k = some A.cols) ∧
      f.toEquality.b = [f.bound] ∧ f.toEquality.dual = f.dual) ∧
    ((∀ k n m, x.dims.lookup k = some n → f.dims.lookup k = some m → n = m) ∧
      (∃ a, f.excess x = .ok a ∧ f.toEquality.residual x = .ok [a] ∧
        (∀ tol, f.isTight x tol = .ok (decide (Scalar.abs a ≤ tol))) ∧
        f.isSatisfied x 0 = .ok (decide (a ≤ 0))) ∨
      ∃ k n m, x.dims.lookup k = some n ∧ f.dims.lookup k = some m ∧ n ≠ m ∧
        f.excess x = .error (.dimension (.rowOperand k n m)) ∧
        f.toEquality.residual x = .error (.dimension (.factorOperand k n m))) := by
  refine ⟨⟨f.keys_toEquality, f.dims_toEquality, f.block_toEquality, fun _ _ => shape_of_block,
    rfl, rfl⟩, ?_⟩
  have hagree := agree_excess f x
  simp only [isTight, isSatisfied, Point.dims, dims, Keyed.lookup_map, Option.map_eq_some_iff]
  generalize f.excess x = p at hagree ⊢
  generalize f.toEquality.residual x = q at hagree ⊢
  cases hagree with
  | number a hfits =>
      refine .inl ⟨?_, a, rfl, rfl, fun _ => rfl, rfl⟩
      rintro k _ _ ⟨v, hv, rfl⟩ ⟨row, hrow, rfl⟩
      exact hfits (k, row) ((Keyed.lookup_iff f.terms).1 hrow) v hv
  | clash e v he hv hne =>
      exact .inr ⟨e.1, _, _, ⟨v, hv, rfl⟩, ⟨e.2, Keyed.lookup_of_mem he, rfl⟩, hne, rfl, rfl⟩

end Inequality

end ActiveSet
