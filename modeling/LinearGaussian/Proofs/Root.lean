import LinearGaussian.Proofs.Scalar

namespace LinearGaussian

-- The first `n` rows are upper triangular and no diagonal entry is negative. Where one is zero, so
-- is its whole row.
structure IsRoot (n : Nat) (a : Nat → Nat → ℝ) : Prop where
  upper  : ∀ i < n, ∀ j < i, a i j = 0
  nonneg : ∀ i < n, 0 ≤ a i i
  zero   : ∀ i < n, a i i = 0 → ∀ j, a i j = 0

namespace IsRoot

variable {n : Nat} {a b : Nat → Nat → ℝ}

theorem sum_mul (h : IsRoot n a) {i : Nat} (hi : i < n) (k : Nat) :
    ∑ l ∈ Finset.range n, a l i * a l k = ∑ l ∈ Finset.range i, a l i * a l k + a i i * a i k := by
  rw [← Finset.sum_range_succ]
  symm
  apply Finset.sum_subset (Finset.range_mono hi)
  intro l hl hn
  rw [h.upper l (Finset.mem_range.mp hl) i (by simpa using hn), zero_mul]

-- A root is known by the products of its columns with the first `n` columns.
theorem unique (ha : IsRoot n a) (hb : IsRoot n b) {m : Nat} (hm : n ≤ m)
    (hg : ∀ j < n, ∀ k < m, ∑ i ∈ Finset.range n, a i j * a i k =
      ∑ i ∈ Finset.range n, b i j * b i k) {i : Nat}
    (hi : i < n) : ∀ k < m, a i k = b i k := by
  induction i using Nat.strong_induction_on
  case h i ih =>
    -- The rows before this one are equal, so they add the same to the products with column `i`.
    have hrow : ∀ k < m, a i i * a i k = b i i * b i k := by
      intro k hk
      have hg := hg i hi k hk
      have hs : ∑ l ∈ Finset.range i, a l i * a l k = ∑ l ∈ Finset.range i, b l i * b l k := by
        apply Finset.sum_congr rfl
        intro l hl
        have hl := Finset.mem_range.mp hl
        rw [ih l hl (hl.trans hi) i (hi.trans_le hm), ih l hl (hl.trans hi) k hk]
      rw [ha.sum_mul hi, hb.sum_mul hi, hs] at hg
      exact add_left_cancel hg
    have hd : a i i = b i i :=
      (mul_self_inj (ha.nonneg i hi) (hb.nonneg i hi)).mp (hrow i (hi.trans_le hm))
    intro k hk
    by_cases h0 : a i i = 0
    case pos => rw [ha.zero i hi h0, hb.zero i hi (hd ▸ h0)]
    case neg => exact mul_left_cancel₀ h0 (hd ▸ hrow k hk)

theorem append {m : Nat} {c : Nat → Nat → ℝ} (ha : IsRoot m a) (hb : IsRoot n b)
    (hca : ∀ i < m, ∀ j < m, c i j = a i j) (hz : ∀ i < m, a i i = 0 → ∀ j, c i j = 0)
    (hcb : ∀ i j, c (m + i) j = if j < m then 0 else b i (j - m)) :
    IsRoot (m + n) c := by
  -- Each row belongs to one of the parts, and in the lower one all columns of the upper are zero.
  have hsplit {i : Nat} (hi : i < m + n) : i < m ∨ ∃ l < n, i = m + l := by
    by_cases hm : i < m
    case pos => exact .inl hm
    case neg => exact .inr ⟨i - m, by omega, by omega⟩
  constructor
  case upper =>
    intro i hi j hj
    rcases hsplit hi with hi | ⟨l, hl, he⟩
    case inl => rw [hca i hi j (hj.trans hi), ha.upper i hi j hj]
    case inr =>
      rw [he, hcb]
      split
      case isTrue => rfl
      case isFalse => exact hb.upper l hl _ (by omega)
  case nonneg =>
    intro i hi
    rcases hsplit hi with hi | ⟨l, hl, he⟩
    case inl =>
      rw [hca i hi i hi]
      exact ha.nonneg i hi
    case inr => simpa [he, hcb] using hb.nonneg l hl
  case zero =>
    intro i hi h0 j
    rcases hsplit hi with hi | ⟨l, hl, he⟩
    case inl => exact hz i hi (hca i hi i hi ▸ h0) j
    case inr =>
      have h0 : b l l = 0 := by simpa [he, hcb] using h0
      simp [he, hcb, hb.zero l hl h0]

end IsRoot

noncomputable def rating (m n : Nat) (a : Nat → Nat → ℝ) (x : Nat → ℝ) : ℝ :=
  ∑ i ∈ Finset.range m, (∑ j ∈ Finset.range n, a i j * x j - a i n) ^ 2

section Rating

variable {m m' n : Nat} {a b : Nat → Nat → ℝ}

theorem rating_congr {x y : Nat → ℝ} (h : ∀ j < n, x j = y j) :
    rating m n a x = rating m n a y := by
  unfold rating
  apply Finset.sum_congr rfl
  intro i _
  congr 2
  apply Finset.sum_congr rfl
  intro j hj
  rw [h j (Finset.mem_range.mp hj)]

theorem sum_mul_single (i : Nat) {j k : Nat} (hj : j < n) (hk : k < n) (s t : ℝ) :
    ∑ l ∈ Finset.range n, a i l * (Pi.single j s + Pi.single k t : Nat → ℝ) l =
      s * a i j + t * a i k := by
  simp [mul_add, Finset.sum_add_distrib, Pi.single_apply, hj, hk, mul_comm]

theorem sum_sq_expand (u v w : Nat → ℝ) (s t : ℝ) :
    ∑ i ∈ Finset.range m, (s * u i + t * v i - w i) ^ 2 =
      s ^ 2 * ∑ i ∈ Finset.range m, u i * u i + t ^ 2 * ∑ i ∈ Finset.range m, v i * v i +
        ∑ i ∈ Finset.range m, w i * w i + 2 * s * t * ∑ i ∈ Finset.range m, u i * v i -
        2 * s * ∑ i ∈ Finset.range m, u i * w i - 2 * t * ∑ i ∈ Finset.range m, v i * w i := by
  simp only [Finset.mul_sum, ← Finset.sum_add_distrib, ← Finset.sum_sub_distrib]
  apply Finset.sum_congr rfl
  intro i _
  ring

-- If two systems rate all vectors alike up to a constant, the products of their columns are the
-- same.
theorem gram_eq_of_rating {c : ℝ} (h : ∀ x, rating m n a x = rating m' n b x + c) {j k : Nat}
    (hj : j < n) (hk : k ≤ n) :
    ∑ i ∈ Finset.range m, a i j * a i k = ∑ i ∈ Finset.range m', b i j * b i k := by
  cases Nat.lt_or_eq_of_le hk
  case inl hk =>
    have hst (s t : ℝ) := h (Pi.single j s + Pi.single k t)
    simp only [rating, sum_mul_single _ hj hk, sum_sq_expand] at hst
    linarith [hst 1 1, hst 1 0, hst 0 1, hst 0 0]
  case inr hk =>
    have hst (s t : ℝ) := h (Pi.single j s + Pi.single j t)
    simp only [rating, sum_mul_single _ hj hj, sum_sq_expand] at hst
    rw [hk]
    linarith [hst 1 0, hst (-1) 0]

end Rating
end LinearGaussian
