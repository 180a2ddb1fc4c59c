import Mathlib
import LinearGaussian.Dense.Fold
import LinearGaussian.Noise
import LinearGaussian.Scalar.Float

namespace LinearGaussian

noncomputable instance : Arith ℝ where

-- No real number is the next one after one, so their distance counts as zero.
noncomputable instance : RealLike ℝ where
  decLt := inferInstance
  decLe := inferInstance
  abs := abs
  max := max
  sqrt := Real.sqrt
  ln := Real.log
  exp := Real.exp
  isFinite _ := true
  isInfinite _ := false
  ofNat := Nat.cast
  epsilon := 0

-- Numerals are read in the same way wherever they stand.
scoped instance atLeastTwo_two : Nat.AtLeastTwo 2 := ⟨by decide⟩
scoped instance atLeastTwo_three : Nat.AtLeastTwo 3 := ⟨by decide⟩
scoped instance atLeastTwo_four : Nat.AtLeastTwo 4 := ⟨by decide⟩
scoped instance atLeastTwo_five : Nat.AtLeastTwo 5 := ⟨by decide⟩
scoped instance atLeastTwo_six : Nat.AtLeastTwo 6 := ⟨by decide⟩

instance (priority := low) Arith.ofField (K : Type) [Field K] : Arith K where

@[simp]
theorem half_eq : (half : ℝ) = 1 / 2 := by
  norm_num [half]

@[simp]
theorem realLike_abs (a : ℝ) : RealLike.abs a = |a| :=
  rfl

@[simp]
theorem realLike_sqrt (a : ℝ) : RealLike.sqrt a = √a :=
  rfl

theorem weightOf_eq (s : ℝ) : NoiseModel.weightOf s = if s = 0 then 1 else 1 / s := by
  simp [NoiseModel.weightOf]

theorem weightOf_ne_zero (s : ℝ) : NoiseModel.weightOf s ≠ 0 := by
  rw [weightOf_eq]
  split <;> simp_all

@[simp]
theorem admissible_iff (s : ℝ) : NoiseModel.admissible s = true ↔ 0 ≤ s := by
  simp [NoiseModel.admissible, RealLike.isFinite]

-- Zero and one can be deviations, as in every number format. Elimination gives no others to the
-- rows that it makes.
class UnitDeviations (α : Type) [Arith α] [RealLike α] : Prop where
  zero : NoiseModel.admissible (0 : α) = true
  one  : NoiseModel.admissible (1 : α) = true

instance : UnitDeviations ℝ where
  zero := by simp
  one := by simp

instance : UnitDeviations Float where
  zero := by decide
  one := by decide

instance : UnitDeviations Float32 where
  zero := by decide
  one := by decide

-- Zero is equal to itself, as in every number format, though not every number has to be.
class LawfulZero (α : Type) [Arith α] [RealLike α] : Prop where
  beq : ((0 : α) == 0) = true

instance : LawfulZero ℝ where
  beq := by simp

instance : LawfulZero Float where
  beq := by decide

instance : LawfulZero Float32 where
  beq := by decide

class ExactArith (α : Type) [Arith α] : Prop where
  zero_add  : ∀ a : α, 0 + a = a
  add_comm  : ∀ a b : α, a + b = b + a
  add_assoc : ∀ a b c : α, a + b + c = a + (b + c)
  one_mul   : ∀ a : α, 1 * a = a
  mul_comm  : ∀ a b : α, a * b = b * a
  mul_assoc : ∀ a b c : α, a * b * c = a * (b * c)
  zero_mul  : ∀ a : α, 0 * a = 0
  mul_add   : ∀ a b c : α, a * (b + c) = a * b + a * c

instance : ExactArith ℝ where
  zero_add := zero_add
  add_comm := add_comm
  add_assoc := add_assoc
  one_mul := one_mul
  mul_comm := mul_comm
  mul_assoc := mul_assoc
  zero_mul := zero_mul
  mul_add := mul_add

@[reducible]
def ExactArith.commSemiring (α : Type) [Arith α] [ExactArith α] : CommSemiring α where
  add_assoc := ExactArith.add_assoc
  zero_add := ExactArith.zero_add
  add_zero a := (ExactArith.add_comm a 0).trans (ExactArith.zero_add a)
  nsmul := nsmulRec
  add_comm := ExactArith.add_comm
  left_distrib := ExactArith.mul_add
  right_distrib a b c := by
    rw [ExactArith.mul_comm (a + b), ExactArith.mul_add, ExactArith.mul_comm c,
      ExactArith.mul_comm c]
  zero_mul := ExactArith.zero_mul
  mul_zero a := (ExactArith.mul_comm a 0).trans (ExactArith.zero_mul a)
  mul_assoc := ExactArith.mul_assoc
  one_mul := ExactArith.one_mul
  mul_one a := (ExactArith.mul_comm a 1).trans (ExactArith.one_mul a)
  mul_comm := ExactArith.mul_comm

theorem UnitDeviations.admissible {α : Type} [Arith α] [RealLike α] [UnitDeviations α] {s : α}
    (h : s = 0 ∨ s = 1) :
    NoiseModel.admissible s = true := by
  cases h
  case inl h => exact h ▸ zero
  case inr h => exact h ▸ one

section Fold

variable {n : Nat}

theorem foldl_add {M : Type} [AddCommMonoid M] (f : Fin n → M) (a : M) :
    Fin.foldl n (fun s i => s + f i) a = a + ∑ i, f i := by
  induction n generalizing a
  case zero => simp
  case succ n ih => rw [Fin.foldl_succ_last, ih, Fin.sum_univ_castSucc, add_assoc]

@[simp]
theorem dot_eq_sum (a b : Fin n → ℝ) : dot a b = ∑ i, a i * b i :=
  (foldl_add _ _).trans (zero_add _)

theorem foldWhere_add {M : Type} [AddCommMonoid M] (p : Fin n → Bool) (f : Fin n → M) (a : M) :
    foldWhere p (fun s i => s + f i) a = a + ∑ i with p i, f i := by
  rw [Finset.sum_filter, ← foldl_add]
  unfold foldWhere
  congr
  funext s i
  split <;> simp

theorem foldWhere_sub {M : Type} [AddCommGroup M] (p : Fin n → Bool) (f : Fin n → M) (a : M) :
    foldWhere p (fun s i => s - f i) a = a - ∑ i with p i, f i := by
  simpa [sub_eq_add_neg] using foldWhere_add p (fun i => -f i) a

end Fold
end LinearGaussian
