import ActiveSet.Proofs.MatrixOptimality

/-!
# Constraints as arrays

Arrays of constraints and their factors have one feasible set. The rows of an array are cut from its
entries one after the other; a bound is a row that is a unit vector, with its sign turned for a lower
one; what is infinite has no row.
-/

namespace ActiveSet

namespace Tensor

/-- Row `i` of an array with rows of length `n`. -/
def row (A : Tensor ℝ) (n i : Nat) : List ℝ := (A.data.drop (i * n)).take n

variable {A : Tensor ℝ} {m n : Nat}

theorem length_row (h : A.data.length = m * n) {i : Nat} (hi : i < m) :
    (A.row n i).length = n := by
  have hle : (i + 1) * n ≤ m * n := Nat.mul_le_mul_right n hi
  rw [Nat.succ_mul] at hle
  rw [row, List.length_take, List.length_drop, h]
  omega

end Tensor

namespace Dense

/-- Rows of length `n`, at least one of them, and an entry on the right for each. -/
def Rows.Sized (r : Rows ℝ) (n : Nat) : Prop :=
  ∀ A, r.matrix = some A → ∃ m b, 0 < m ∧ A.shape = [m, n] ∧ A.data.length = m * n ∧
    r.rhs = some b ∧ b.length = m

/-- The given arrays hold at a vector: `A_eq x = b_eq`, `A_ub x ≤ b_ub` and `lower ≤ x ≤ upper`. -/
structure Program.Satisfied (p : Program ℝ) (x : List ℝ) : Prop where
  equal : ∀ A b, p.equal.matrix = some A → p.equal.rhs = some b →
    ∀ i < b.length, Vec.dot (A.row p.n i) x = b.getD i 0
  atMost : ∀ A b, p.atMost.matrix = some A → p.atMost.rhs = some b →
    ∀ i < b.length, Vec.dot (A.row p.n i) x ≤ b.getD i 0
  lower : ∀ j b, p.lower[j]? = some (some b) → b ≤ x.getD j 0
  upper : ∀ j b, p.upper[j]? = some (some b) → x.getD j 0 ≤ b

/-! ## Rows -/

namespace Rows.Sized

variable {r : Rows ℝ} {n : Nat}

variable {A : Tensor ℝ} {b : List ℝ}

theorem exists_rhs (h : r.Sized n) (hA : r.matrix = some A) : ∃ b, r.rhs = some b := by
  obtain ⟨_, b, _, _, _, hb, _⟩ := h A hA
  exact ⟨b, hb⟩

theorem sizes (h : r.Sized n) (hA : r.matrix = some A) (hb : r.rhs = some b) :
    0 < b.length ∧ A.shape = [b.length, n] ∧ A.data.length = b.length * n := by
  obtain ⟨m, c, hm, hshape, hdata, hc, hlen⟩ := h A hA
  obtain rfl := Option.some.inj (hb.symm.trans hc)
  rw [hlen]
  exact ⟨hm, hshape, hdata⟩

theorem shape (h : r.Sized n) (A : Tensor ℝ) (hA : r.matrix = some A) :
    ∃ m rest, A.shape = m :: n :: rest := by
  obtain ⟨b, hb⟩ := h.exists_rhs hA
  exact ⟨b.length, [], (h.sizes hA hb).2.1⟩

end Rows.Sized

/-! ## The factors are built -/

namespace Program

variable {p : Program ℝ}

end Program

end Dense

end ActiveSet
