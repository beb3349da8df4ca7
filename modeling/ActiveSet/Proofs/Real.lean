import Mathlib.Analysis.Real.Sqrt
import Mathlib.Tactic.Linarith
import Mathlib.Tactic.Ring
import ActiveSet.Proofs.ScalarOrder

/-!
# Exact arithmetic

The real numbers as scalars: no rounding, no value that is no number. Theorems about the algorithm
are about this instance.
-/

namespace ActiveSet

noncomputable instance instScalarReal : Scalar ℝ where
  toZero := inferInstance
  toOne := inferInstance
  toAdd := inferInstance
  toSub := inferInstance
  toMul := inferInstance
  toNeg := inferInstance
  toDiv := inferInstance
  toLT := inferInstance
  toLE := inferInstance
  toOfScientific := inferInstance
  decLT := fun a b => Classical.dec (a < b)
  decLE := fun a b => Classical.dec (a ≤ b)
  sqrt := Real.sqrt
  isNaN := fun _ => false
  isFinite := fun _ => true

namespace Scalar

@[simp] theorem isNaN_real (a : ℝ) : isNaN a = false := rfl

@[simp] theorem isFinite_real (a : ℝ) : isFinite a = true := rfl

theorem sqrt_real (a : ℝ) : sqrt a = Real.sqrt a := rfl

@[simp] theorem abs_eq_abs (a : ℝ) : abs a = |a| := by
  unfold abs
  split
  · exact (abs_of_neg ‹_›).symm
  · exact (abs_of_nonneg (not_lt.1 ‹_›)).symm

@[simp] theorem larger_eq_max (a b : ℝ) : larger a b = max a b := by
  unfold larger
  split
  · exact (max_eq_right (le_of_lt ‹_›)).symm
  · exact (max_eq_left (not_lt.1 ‹_›)).symm

theorem smaller_eq_min (a b : ℝ) : smaller a b = min a b := by
  unfold smaller
  split
  · exact (min_eq_right (le_of_lt ‹_›)).symm
  · exact (min_eq_left (not_lt.1 ‹_›)).symm

theorem nanLaws_real : NaNLaws ℝ := ⟨rfl, rfl, fun _ _ => rfl⟩

theorem orderLaws_real : OrderLaws ℝ :=
  .of_places id rfl (fun _ _ => by simp) fun _ _ => by simp

theorem stepLaws_real : StepLaws ℝ where
  toOrderLaws := orderLaws_real
  zero_le_one := zero_le_one
  finite_number _ _ := rfl

theorem greatestFrom_eq_foldl (start : ℝ) (values : List ℝ) :
    greatestFrom start values = values.foldl larger start :=
  orderLaws_real.greatestFrom_eq_foldl fun _ _ => rfl

theorem greatestFrom_le_iff {start c : ℝ} {values : List ℝ} :
    greatestFrom start values ≤ c ↔ ∀ a ∈ start :: values, a ≤ c := by
  rw [greatestFrom_eq_foldl]
  exact orderLaws_real.foldl_larger_le_iff fun _ _ => rfl

theorem greatestFrom_le {start c : ℝ} {values : List ℝ} (hstart : start ≤ c)
    (h : ∀ a ∈ values, a ≤ c) : greatestFrom start values ≤ c :=
  greatestFrom_le_iff.2 (List.forall_mem_cons.2 ⟨hstart, h⟩)

theorem mem_cons_le_greatestFrom {start a : ℝ} {values : List ℝ} (h : a ∈ start :: values) :
    a ≤ greatestFrom start values :=
  greatestFrom_le_iff.1 le_rfl a h

theorem le_greatestFrom (start : ℝ) (values : List ℝ) : start ≤ greatestFrom start values :=
  mem_cons_le_greatestFrom (.head _)

theorem mem_le_greatestFrom {start a : ℝ} {values : List ℝ} (h : a ∈ values) :
    a ≤ greatestFrom start values :=
  mem_cons_le_greatestFrom (.tail _ h)

theorem greatestFrom_mem (start : ℝ) (values : List ℝ) :
    greatestFrom start values ∈ start :: values := by
  rw [greatestFrom_eq_foldl]
  exact foldl_larger_mem start values

theorem foldl_smaller_le {start a : ℝ} {values : List ℝ} (h : a ∈ start :: values) :
    values.foldl smaller start ≤ a := by
  induction values generalizing start a with
  | nil => exact (List.mem_singleton.1 h).ge
  | cons b values ih =>
      rw [List.foldl_cons]
      have hhead : values.foldl smaller (smaller start b) ≤ smaller start b := ih (.head _)
      rcases List.mem_cons.1 h with rfl | h
      · exact hhead.trans (by rw [smaller_eq_min]; exact min_le_left ..)
      · rcases List.mem_cons.1 h with rfl | h
        · exact hhead.trans (by rw [smaller_eq_min]; exact min_le_right ..)
        · exact ih (.tail _ h)

end Scalar

end ActiveSet
