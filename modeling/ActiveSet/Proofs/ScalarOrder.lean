import Mathlib.Data.Prod.Lex
import Mathlib.Order.Compare
import ActiveSet.Scalar

/-!
# Orders with NaN

The numbers among the scalars are linearly ordered, and no comparison with a NaN holds. That is all that
the choice of a greatest value asks of the arithmetic, so what follows from it is true of binary64 too.
-/

namespace ActiveSet

namespace Scalar

/-- The values that are no NaN are linearly ordered; a NaN is neither below nor above any value. -/
structure OrderLaws (K : Type) [Scalar K] : Prop where
  zero : isNaN (0 : K) = false
  lt_number : ∀ a b : K, a < b → isNaN a = false ∧ isNaN b = false
  lt_asymm : ∀ a b : K, a < b → ¬b < a
  le_iff : ∀ a b : K, a ≤ b ↔ isNaN a = false ∧ isNaN b = false ∧ ¬b < a
  le_trans : ∀ a b c : K, a ≤ b → b ≤ c → a ≤ c

/-- Numbers that have places in a linear order, by which they are compared. -/
theorem OrderLaws.of_places {K L : Type} [Scalar K] [LinearOrder L] (place : K → L)
    (hzero : isNaN (0 : K) = false)
    (hlt : ∀ a b : K, a < b ↔ isNaN a = false ∧ isNaN b = false ∧ place a < place b)
    (hle : ∀ a b : K, a ≤ b ↔ isNaN a = false ∧ isNaN b = false ∧ place a ≤ place b) :
    OrderLaws K where
  zero := hzero
  lt_number a b h := ⟨((hlt a b).1 h).1, ((hlt a b).1 h).2.1⟩
  lt_asymm a b h h' := (((hlt a b).1 h).2.2.trans ((hlt b a).1 h').2.2).false
  le_iff a b := by
    rw [hle, hlt]
    constructor
    · exact fun ⟨ha, hb, h⟩ => ⟨ha, hb, fun h' => not_lt.2 h h'.2.2⟩
    · exact fun ⟨ha, hb, h⟩ => ⟨ha, hb, not_lt.1 fun h' => h ⟨hb, ha, h'⟩⟩
  le_trans a b c hab hbc := by
    obtain ⟨ha, _, hab⟩ := (hle a b).1 hab
    obtain ⟨_, hc, hbc⟩ := (hle b c).1 hbc
    exact (hle a c).2 ⟨ha, hc, hab.trans hbc⟩

/-- Zero, one and the negatives of numbers are numbers. -/
structure NaNLaws (K : Type) [Scalar K] : Prop where
  zero : isNaN (0 : K) = false
  one : isNaN (1 : K) = false
  neg : ∀ a : K, isNaN a = false → isNaN (-a) = false

/-- What the length of a step asks for: zero is at most one, and what is finite is a number. -/
structure StepLaws (K : Type) [Scalar K] : Prop extends OrderLaws K where
  zero_le_one : (0 : K) ≤ 1
  finite_number : ∀ a : K, isFinite a = true → isNaN a = false

namespace OrderLaws

variable {K : Type} [Scalar K] {a b c : K}

theorem le_of_lt (hK : OrderLaws K) (h : a < b) : a ≤ b :=
  (hK.le_iff a b).2 ⟨(hK.lt_number a b h).1, (hK.lt_number a b h).2, hK.lt_asymm a b h⟩

theorem le_of_not_lt (hK : OrderLaws K) (ha : isNaN a = false) (hb : isNaN b = false)
    (h : ¬b < a) : a ≤ b :=
  (hK.le_iff a b).2 ⟨ha, hb, h⟩

theorem le_refl (hK : OrderLaws K) (ha : isNaN a = false) : a ≤ a :=
  hK.le_of_not_lt ha ha fun h => hK.lt_asymm a a h h

theorem lt_of_lt_of_le (hK : OrderLaws K) (hab : a < b) (hbc : b ≤ c) : a < c := by
  by_contra hac
  have hca := hK.le_of_not_lt ((hK.le_iff b c).1 hbc).2.1 (hK.lt_number a b hab).1 hac
  exact ((hK.le_iff b a).1 (hK.le_trans b c a hbc hca)).2.2 hab

theorem not_le_of_isNaN_left (hK : OrderLaws K) (ha : isNaN a = true) : ¬a ≤ b := fun h =>
  Bool.noConfusion (ha.symm.trans ((hK.le_iff a b).1 h).1)

theorem not_lt_of_isNaN_right (hK : OrderLaws K) (hb : isNaN b = true) : ¬a < b := fun h =>
  Bool.noConfusion (hb.symm.trans (hK.lt_number a b h).2)

/-! ## The larger of two and the greatest of many -/

theorem larger_of_isNaN_right (hK : OrderLaws K) (hb : isNaN b = true) : larger a b = a :=
  if_neg (hK.not_lt_of_isNaN_right hb)

theorem isNaN_larger (hK : OrderLaws K) (a b : K) : isNaN (larger a b) = isNaN a := by
  unfold larger
  split
  · rename_i h
    rw [(hK.lt_number a b h).1, (hK.lt_number a b h).2]
  · rfl

theorem larger_le_iff (hK : OrderLaws K) (ha : isNaN a = false) (hb : isNaN b = false) :
    larger a b ≤ c ↔ a ≤ c ∧ b ≤ c := by
  unfold larger
  split
  · rename_i h
    exact (and_iff_right_of_imp fun hbc => hK.le_trans _ _ _ (hK.le_of_lt h) hbc).symm
  · rename_i h
    exact (and_iff_left_of_imp fun hac => hK.le_trans _ _ _ (hK.le_of_not_lt hb ha h) hac).symm

theorem le_larger_right (hK : OrderLaws K) (ha : isNaN a = false) (hb : isNaN b = false) :
    b ≤ larger a b := by
  unfold larger
  split
  · exact hK.le_refl hb
  · exact hK.le_of_not_lt hb ha ‹_›

theorem larger_eq_left (hK : OrderLaws K) (h : b ≤ a) : larger a b = a :=
  if_neg ((hK.le_iff b a).1 h).2.2

end OrderLaws

variable {K : Type} [Scalar K]

theorem larger_eq_or (a b : K) : larger a b = a ∨ larger a b = b := by
  unfold larger
  split
  · exact .inr rfl
  · exact .inl rfl

theorem largerOrNaN_of_number {a b : K} (ha : isNaN a = false) (hb : isNaN b = false) :
    largerOrNaN a b = larger a b := by
  simp [largerOrNaN, ha, hb]

/-- A fold that always keeps one of two values ends with one of all. -/
theorem foldl_mem {α : Type} {f : α → α → α} (hf : ∀ a b, f a b = a ∨ f a b = b) (start : α)
    (values : List α) : values.foldl f start ∈ start :: values := by
  induction values generalizing start with
  | nil => exact List.mem_singleton_self start
  | cons a values ih =>
      rw [List.foldl_cons]
      rcases List.mem_cons.1 (ih (f start a)) with h | h
      · rw [h]
        rcases hf start a with h | h <;> simp [h]
      · exact .tail _ (.tail _ h)

theorem foldl_larger_mem (start : K) (l : List K) : l.foldl larger start ∈ start :: l :=
  foldl_mem larger_eq_or start l

/-- A NaN among the values wins. -/
theorem isNaN_greatestFrom {start : K} {l : List K} (h : ∃ a ∈ start :: l, isNaN a = true) :
    isNaN (greatestFrom start l) = true := by
  induction l generalizing start with
  | nil =>
      obtain ⟨a, ha, hnan⟩ := h
      rwa [List.mem_singleton.1 ha] at hnan
  | cons b l ih =>
      change isNaN (greatestFrom (largerOrNaN start b) l) = true
      refine ih ?_
      obtain ⟨a, ha, hnan⟩ := h
      unfold largerOrNaN
      cases hstart : isNaN start with
      | true => exact ⟨start, .head _, hstart⟩
      | false =>
          cases hb : isNaN b with
          | true => exact ⟨b, .head _, hb⟩
          | false =>
              have hne : ∀ c, isNaN c = false → a ≠ c := fun c hc heq => by simp_all
              have hl : a ∈ l := by simpa [hne _ hstart, hne _ hb] using ha
              exact ⟨a, .tail _ hl, hnan⟩

namespace OrderLaws

theorem isNaN_foldl_larger (hK : OrderLaws K) (start : K) (l : List K) :
    isNaN (l.foldl larger start) = isNaN start := by
  induction l generalizing start with
  | nil => rfl
  | cons b l ih => rw [List.foldl_cons, ih, hK.isNaN_larger]

/-- Without NaN the greatest of all values is what the larger of two leaves in the end. -/
theorem greatestFrom_eq_foldl (hK : OrderLaws K) {start : K} {l : List K}
    (h : ∀ a ∈ start :: l, isNaN a = false) : greatestFrom start l = l.foldl larger start := by
  induction l generalizing start with
  | nil => rfl
  | cons b l ih =>
      obtain ⟨hstart, h⟩ := List.forall_mem_cons.1 h
      obtain ⟨hb, hl⟩ := List.forall_mem_cons.1 h
      have hstep : largerOrNaN start b = larger start b := largerOrNaN_of_number hstart hb
      rw [greatestFrom, List.foldl_cons, List.foldl_cons, hstep]
      exact ih (List.forall_mem_cons.2 ⟨(hK.isNaN_larger start b).trans hstart, hl⟩)

theorem foldl_larger_le_iff (hK : OrderLaws K) {start c : K} {l : List K}
    (h : ∀ a ∈ start :: l, isNaN a = false) :
    l.foldl larger start ≤ c ↔ ∀ a ∈ start :: l, a ≤ c := by
  induction l generalizing start with
  | nil => simp
  | cons b l ih =>
      obtain ⟨hstart, h⟩ := List.forall_mem_cons.1 h
      obtain ⟨hb, hl⟩ := List.forall_mem_cons.1 h
      have hnext : ∀ a ∈ larger start b :: l, isNaN a = false :=
        List.forall_mem_cons.2 ⟨(hK.isNaN_larger start b).trans hstart, hl⟩
      rw [List.foldl_cons, ih hnext, List.forall_mem_cons, hK.larger_le_iff hstart hb, and_assoc,
        List.forall_mem_cons, List.forall_mem_cons]

end OrderLaws

/-! ## The order of binary64 -/

namespace Binary64

open Float.Model (UnpackedFloat Format)

theorem compare_neg (a b : ℤ) : compare (-a) (-b) = (compare a b).swap := by
  rcases lt_trichotomy a b with h | rfl | h
  · rw [compare_lt_iff_lt.2 h, compare_gt_iff_gt.2 (Int.neg_lt_neg h)]
    rfl
  · simp
  · rw [compare_gt_iff_gt.2 h, compare_lt_iff_lt.2 (Int.neg_lt_neg h)]
    rfl

theorem compare_natCast (m n : ℕ) : compare (m : ℤ) n = compare m n := by
  rcases lt_trichotomy m n with h | rfl | h
  · rw [compare_lt_iff_lt.2 h, compare_lt_iff_lt.2 (Int.ofNat_lt.2 h)]
  · simp
  · rw [compare_gt_iff_gt.2 h, compare_gt_iff_gt.2 (Int.ofNat_lt.2 h)]

/-- The class of a number by sign and size, then its exponent, then its mantissa. -/
def place : UnpackedFloat → ℤ ×ₗ ℤ ×ₗ ℤ
  | .infinity .negative => toLex (-2, toLex (0, 0))
  | .finite .negative m e _ => toLex (-1, toLex (-e, -m))
  | .zero _ | .notANumber => toLex (0, toLex (0, 0))
  | .finite .positive m e _ => toLex (1, toLex (e, m))
  | .infinity .positive => toLex (2, toLex (0, 0))

/-- Within a class the exponents decide, then the mantissas. -/
theorem compare_class (c e e' m m' : ℤ) :
    compare (toLex (c, toLex (e, m))) (toLex (c, toLex (e', m'))) =
      (compare e e').then (compare m m') := by
  simp [Prod.Lex.compare_def, compareLex, compareOn]

/-- Numbers compare as their places do. -/
theorem compare_eq (a b : UnpackedFloat) : a.compare b =
    if a.isNaN || b.isNaN then none else some (compare (place a) (place b)) := by
  -- Only two finite numbers of one sign look at more than their classes.
  rcases a with (_ | _) | _ | (_ | _) | ⟨_ | _, m, e, _⟩ <;>
    rcases b with (_ | _) | _ | (_ | _) | ⟨_ | _, m', e', _⟩ <;> try rfl
  case finite.negative.finite.negative =>
    refine congrArg some (?_ : ((compare e e').then (compare m m')).swap = compare
      (toLex ((-1 : ℤ), toLex (-e, -(m : ℤ)))) (toLex (-1, toLex (-e', -(m' : ℤ)))))
    rw [compare_class, compare_neg, compare_neg, compare_natCast, Ordering.swap_then]
  case finite.positive.finite.positive =>
    refine congrArg some (?_ : (compare e e').then (compare m m') = compare
      (toLex ((1 : ℤ), toLex (e, (m : ℤ)))) (toLex (1, toLex (e', (m' : ℤ)))))
    rw [compare_class, compare_natCast]

theorem lt_iff (a b : Float) : a < b ↔ a.isNaN = false ∧ b.isNaN = false ∧
    place a.toModel.unpack < place b.toModel.unpack := by
  have hlt : a < b ↔ a.toModel.unpack.compare b.toModel.unpack = some .lt := by
    change decide (a.toModel < b.toModel) = true ↔ _
    rw [decide_eq_true_iff]
    exact beq_iff_eq
  rw [hlt, compare_eq, Float.isNaN, Float.isNaN, Float.Model.isNaN, Float.Model.isNaN]
  cases a.toModel.unpack.isNaN <;> cases b.toModel.unpack.isNaN <;> simp [compare_lt_iff_lt]

theorem le_iff (a b : Float) : a ≤ b ↔ a.isNaN = false ∧ b.isNaN = false ∧
    place a.toModel.unpack ≤ place b.toModel.unpack := by
  have hle : a ≤ b ↔ (a.toModel.unpack.compare b.toModel.unpack).any (·.isLE) = true := by
    change decide (a.toModel ≤ b.toModel) = true ↔ _
    rw [decide_eq_true_iff]
    exact Iff.rfl
  rw [hle, compare_eq, Float.isNaN, Float.isNaN, Float.Model.isNaN, Float.Model.isNaN]
  cases a.toModel.unpack.isNaN <;> cases b.toModel.unpack.isNaN <;>
    simp [← Ordering.ne_gt_iff_isLE, compare_le_iff_le]

/-- The pattern of a NaN has a full exponent and some mantissa. -/
theorem of_isNaN_unpack {f : Format} {b : BitVec f.numBits}
    (h : (UnpackedFloat.unpack f b).isNaN = true) :
    UnpackedFloat.unpackExponent b = -BitVec.ofNat f.exponentBits 1 ∧
      UnpackedFloat.unpackMantissa b ≠ BitVec.ofNat f.mantissaBitsWithoutImplicit 0 := by
  delta UnpackedFloat.unpack at h
  dsimp only at h
  by_cases he : UnpackedFloat.unpackExponent b = -BitVec.ofNat f.exponentBits 1
  · refine ⟨he, fun hm => ?_⟩
    rw [if_pos he, if_pos hm] at h
    cases h
  · rw [if_neg he] at h
    by_cases hzero : UnpackedFloat.unpackExponent b = BitVec.ofNat f.exponentBits 0
    · rw [if_pos hzero] at h
      by_cases hm : UnpackedFloat.unpackMantissa b = BitVec.ofNat f.mantissaBitsWithoutImplicit 0
      · rw [dif_pos hm] at h
        cases h
      · rw [dif_neg hm] at h
        cases h
    · rw [if_neg hzero] at h
      cases h

theorem of_isNaN_packComponents {f : Format} {s : UnpackedFloat.Sign} {e : BitVec f.exponentBits}
    {m : BitVec f.mantissaBitsWithoutImplicit}
    (h : (UnpackedFloat.unpack f (UnpackedFloat.packComponents f s e m)).isNaN = true) :
    e = -BitVec.ofNat f.exponentBits 1 ∧ m ≠ BitVec.ofNat f.mantissaBitsWithoutImplicit 0 := by
  have hpattern := of_isNaN_unpack h
  rwa [UnpackedFloat.unpackExponent_packComponents, UnpackedFloat.unpackMantissa_packComponents]
    at hpattern

/-- Only a NaN is stored as one: a number too large for the format becomes an infinity. -/
theorem isNaN_of_pack {u : UnpackedFloat}
    (h : (UnpackedFloat.unpack .binary64 (u.pack .binary64)).isNaN = true) : u.isNaN = true := by
  cases u with
  | notANumber => rfl
  | infinity s => exact absurd rfl (of_isNaN_packComponents h).2
  | zero s => exact absurd (of_isNaN_packComponents h).1 (by decide)
  | finite s m e hm =>
      unfold UnpackedFloat.pack at h
      dsimp only at h
      split at h
      · exact absurd rfl (of_isNaN_packComponents h).2
      · split at h
        · have he := congrArg BitVec.toNat (of_isNaN_packComponents h).1
          simp at he
          omega
        · exact absurd (of_isNaN_packComponents h).1 (by decide)

theorem isNaN_of_neg {a : Float} (h : (-a).isNaN = true) : a.isNaN = true := by
  have hneg : a.toModel.unpack.neg.isNaN = true := isNaN_of_pack h
  change a.toModel.unpack.isNaN = true
  cases hu : a.toModel.unpack <;> rw [hu] at hneg <;> exact hneg

end Binary64

theorem nanLaws_float : NaNLaws Float where
  zero := by decide +kernel
  one := by decide +kernel
  neg _ h := Bool.eq_false_of_not_eq_true fun hneg =>
    Bool.noConfusion (h.symm.trans (Binary64.isNaN_of_neg hneg))

theorem orderLaws_float : OrderLaws Float :=
  .of_places (fun a => Binary64.place a.toModel.unpack) (by decide +kernel) Binary64.lt_iff
    Binary64.le_iff

theorem stepLaws_float : StepLaws Float where
  toOrderLaws := orderLaws_float
  zero_le_one := by decide +kernel
  finite_number a h := by
    change a.toModel.unpack.isFinite = true at h
    change a.toModel.unpack.isNaN = false
    generalize a.toModel.unpack = u at h ⊢
    cases u with
    | notANumber => cases h
    | infinity | zero | finite => rfl

end Scalar

end ActiveSet
