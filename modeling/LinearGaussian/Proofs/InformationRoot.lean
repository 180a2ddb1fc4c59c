import LinearGaussian.Proofs.QuadraticForm
import LinearGaussian.Proofs.Rank
import LinearGaussian.Proofs.SquareRoot

namespace LinearGaussian

open Matrix
open LinearFactor (stack)

-- The real numbers with any distance from one to the next larger scalar.
@[reducible]
noncomputable def realsWith (epsilon : ℝ) : RealLike ℝ :=
  { (inferInstance : RealLike ℝ) with epsilon := epsilon }

noncomputable def LinearFactor.square (f : LinearFactor ℝ) (n : Nat) : Matrix (Fin n) (Fin n) ℝ :=
  of fun i j => f.ab.full.entry i j

noncomputable def LinearFactor.side (f : LinearFactor ℝ) (n : Nat) : Fin n → ℝ :=
  fun i => f.ab.full.entry i n

theorem normSq_mulVec_sub {n : Nat} (a : Matrix (Fin n) (Fin n) ℝ) (b v : Fin n → ℝ) :
    (a *ᵥ v - b) ⬝ᵥ (a *ᵥ v - b) = v ⬝ᵥ ((aᵀ * a) *ᵥ v) - 2 * (v ⬝ᵥ (aᵀ *ᵥ b)) + b ⬝ᵥ b := by
  have hq : v ⬝ᵥ ((aᵀ * a) *ᵥ v) = (a *ᵥ v) ⬝ᵥ (a *ᵥ v) := by
    rw [← mulVec_mulVec, dotProduct_mulVec, vecMul_transpose]
  have hl : v ⬝ᵥ (aᵀ *ᵥ b) = (a *ᵥ v) ⬝ᵥ b := by rw [dotProduct_mulVec, vecMul_transpose]
  rw [hq, hl, sub_dotProduct, dotProduct_sub, dotProduct_sub, dotProduct_comm b]
  ring

theorem LinearFactor.error_eq_dotProduct {f : LinearFactor ℝ} (hf : f.WellFormed) {n : Nat}
    (hr : f.rows = n) (hn : f.width = n) (hm : f.model = none) {x : Assignment ℝ}
    (hx : x.Fits f.dims) :
    f.error x = .ok (1 / 2 * ((f.square n *ᵥ (fun j => stack f.dims x.point j) - f.side n) ⬝ᵥ
      (f.square n *ᵥ (fun j => stack f.dims x.point j) - f.side n))) := by
  have hres : ∀ i : Fin n, (f.square n *ᵥ (fun j => stack f.dims x.point j) - f.side n) i =
      f.residual i x.point := by
    intro i
    have hs := sum_entry_stack hf i x.point
    rw [hf.offsetAt_length, hn, Finset.sum_range] at hs
    exact sub_eq_iff_eq_add.mpr hs
  have hsigma : ∀ i : Fin n, f.sigmas.getD i 1 = 1 := by simp [sigmas, hm, Vec.fill, hr]
  rw [error_eq hf hx, totalCost_measurements, hr, Finset.sum_range, dotProduct, Finset.mul_sum]
  congr 1
  apply Finset.sum_congr rfl
  intro i _
  rw [hres, hsigma, weightOf_eq]
  simp [sq]

namespace InformationFactor

variable {h : InformationFactor ℝ} {tol : ℝ}

noncomputable def matrix (h : InformationFactor ℝ) : Matrix (Fin h.side) (Fin h.side) ℝ :=
  of fun i j => h.information.entry i j

noncomputable def vector (h : InformationFactor ℝ) : Fin h.side → ℝ :=
  fun i => h.linearTerm.getD i 0

theorem matrix_apply (i j : Fin h.side) : h.matrix i j = h.info.full.entry i j :=
  entry_information h i.isLt j.isLt

theorem vector_apply (i : Fin h.side) : h.vector i = h.info.full.entry i h.side := by
  simp [vector, linearTerm]

theorem toLinear_eq_rootWith (h : InformationFactor ℝ) (epsilon : ℝ) :
    @toLinear ℝ _ (realsWith epsilon) h =
      h.rootWith (@rankTolerance ℝ _ (realsWith epsilon) h.side) :=
  rfl

theorem wellFormed_rootWith (hw : h.WellFormed) (tol : ℝ) : (h.rootWith tol).WellFormed :=
  ⟨hw.nodup, hw.count, hw.last, nofun⟩

theorem sum_widths (hw : h.WellFormed) : h.info.widths.sum = h.side + 1 :=
  h.info.cover.trans (hw.cols_eq.trans (by rw [hw.side_eq]))

theorem square_rootWith (hw : h.WellFormed) (tol : ℝ) (i j : Fin h.side) :
    (h.rootWith tol).square h.side i j = squareRoot h.matrix tol i j := by
  have hm : h.matrix = fun i j : Fin h.side => h.info.full.entry i j := funext₂ matrix_apply
  have hj : j.val < h.info.widths.sum := (sum_widths hw).symm ▸ Nat.lt_succ_of_lt j.isLt
  refine (BlockMatrix.entry_ofFn _ i.isLt hj).trans ?_
  rw [if_pos j.isLt, hm]
  exact Mat.entry_ofFn _ i.isLt j.isLt

theorem side_rootWith (hw : h.WellFormed) (tol : ℝ) (i : Fin h.side) :
    (h.rootWith tol).side h.side i =
      (solveRows ((h.rootWith tol).square h.side) (Vector.ofFn h.vector))[i] := by
  have hm : h.matrix = fun i j : Fin h.side => h.info.full.entry i j := funext₂ matrix_apply
  have hv : h.vector = fun i : Fin h.side => h.info.full.entry i h.side := funext vector_apply
  have hr : (h.rootWith tol).square h.side = fun i j => squareRoot h.matrix tol i j :=
    funext₂ (square_rootWith hw tol)
  have hj : h.side < h.info.widths.sum := (sum_widths hw).symm ▸ Nat.lt_succ_self _
  rw [hr, hv, hm]
  exact (BlockMatrix.entry_ofFn _ i.isLt hj).trans (if_neg (Nat.lt_irrefl _))

-- A linear factor without a model, the coefficients of which are the triangular root of the
-- information, found with the given tolerance. It rates assignments as the information does, up to
-- a constant.
structure IsRootOf (f : LinearFactor ℝ) (h : InformationFactor ℝ) (tol : ℝ) : Prop where
  keys   : f.keys = h.keys
  widths : f.ab.widths = h.info.widths
  rows   : f.rows = h.side
  model  : f.model = none
  upper  : ∀ i j : Fin h.side, j < i → f.square h.side i j = 0
  nonneg : ∀ i : Fin h.side, 0 ≤ f.square h.side i i
  gram   : (f.square h.side)ᵀ * f.square h.side = h.matrix
  rhs    : (f.square h.side)ᵀ *ᵥ f.side h.side = h.vector
  zero   : ∀ i : Fin h.side,
    SquareRoot.pivotValue h.matrix (SquareRoot.before h.matrix tol i) i = 0 →
    f.side h.side i = 0 ∧ ∀ j, f.square h.side i j = 0
  error  : ∃ c, ∀ x, x.Fits h.dims → ∃ u v, f.error x = .ok u ∧ h.error x = .ok v ∧ u - v = c

theorem error_eq_dotProduct (hw : h.WellFormed) {x : Assignment ℝ} (hx : x.Fits h.dims) :
    h.error x = .ok (1 / 2 * ((fun j : Fin h.side => stack h.dims x.point j) ⬝ᵥ
        (h.matrix *ᵥ fun j => stack h.dims x.point j) -
      2 * ((fun j : Fin h.side => stack h.dims x.point j) ⬝ᵥ h.vector) + h.constantTerm)) := by
  have hmul : ∀ i : Fin h.side, (h.matrix *ᵥ fun j => stack h.dims x.point j) i =
      ∑ j ∈ Finset.range h.side, h.info.full.entry i j * stack h.dims x.point j := by
    intro i
    simp [mulVec_apply_eq_sum, matrix_apply, Finset.sum_range]
  rw [hw.error_eq_sum hx, ← hw.side_eq, Finset.sum_range,
    Finset.sum_range (fun i => _ * h.info.full.entry i h.side)]
  simp only [dotProduct, hmul, vector_apply, constantTerm]

theorem error_sub {f : LinearFactor ℝ} (hf : f.WellFormed) (hw : h.WellFormed)
    (hd : f.dims = h.dims) (hr : f.rows = h.side) (hm : f.model = none)
    (hg : (f.square h.side)ᵀ * f.square h.side = h.matrix)
    (hb : (f.square h.side)ᵀ *ᵥ f.side h.side = h.vector) {x : Assignment ℝ} (hx : x.Fits h.dims) :
    ∃ u v, f.error x = .ok u ∧ h.error x = .ok v ∧
      u - v = 1 / 2 * (f.side h.side ⬝ᵥ f.side h.side - h.constantTerm) := by
  have hn : f.width = h.side := by rw [LinearFactor.width, hd, hw.side_eq]
  refine ⟨_, _, LinearFactor.error_eq_dotProduct hf hr hn hm (hd ▸ hx), error_eq_dotProduct hw hx,
    ?_⟩
  rw [hd, normSq_mulVec_sub, hg, hb]
  ring

section Rows

variable (hw : h.WellFormed)
  (hred : SquareRoot.Reduced (squareRoot h.matrix tol) h.matrix tol h.side)
include hw hred

theorem upper_rootWith {i j : Fin h.side} (hj : j < i) : (h.rootWith tol).square h.side i j = 0 :=
  (square_rootWith hw tol i j).trans (hred.upper i j hj)

theorem row_rootWith {i : Fin h.side} (hi : (h.rootWith tol).square h.side i i = 0)
    (j : Fin h.side) :
    (h.rootWith tol).square h.side i j = 0 := by
  rw [square_rootWith hw] at hi ⊢
  exact hred.zero i hi j

theorem gram_rootWith :
    ((h.rootWith tol).square h.side)ᵀ * (h.rootWith tol).square h.side = h.matrix := by
  ext i j
  simp only [mul_apply, transpose_apply, square_rootWith hw]
  exact (sub_eq_zero.mp (hred.explained i i.isLt j)).symm

theorem side_rootWith_eq_mulVec {z : Fin h.side → ℝ} (hz : h.matrix *ᵥ z = h.vector) :
    (h.rootWith tol).side h.side = (h.rootWith tol).square h.side *ᵥ z := by
  funext i
  rw [side_rootWith hw]
  apply solveRows_eq
  case hu => exact fun i j hj => upper_rootWith hw hred hj
  case hz =>
    intro i hi
    simp [mulVec_apply_eq_sum, row_rootWith hw hred hi]
  case hb =>
    intro i
    have hi := congrFun hz i
    rw [← gram_rootWith hw hred, ← mulVec_mulVec, mulVec_apply_eq_sum] at hi
    simpa using hi

end Rows

theorem isRootOf_rootWith (hw : h.WellFormed) (ht : 0 ≤ tol) (hG : h.matrix.PosSemidef)
    (hg : ∃ z, h.matrix *ᵥ z = h.vector) (hd : SquareRoot.Decisive h.matrix tol) :
    IsRootOf (h.rootWith tol) h tol := by
  obtain ⟨z, hz⟩ := hg
  have hred := squareRoot_reduced hG ht hd
  have ha := square_rootWith hw tol
  have hgram := gram_rootWith hw hred
  have hside := side_rootWith_eq_mulVec hw hred hz
  have hrhs : ((h.rootWith tol).square h.side)ᵀ *ᵥ (h.rootWith tol).side h.side = h.vector := by
    rw [hside, mulVec_mulVec, hgram, hz]
  constructor
  case keys => rfl
  case widths => rfl
  case rows => rfl
  case model => rfl
  case upper => exact fun i j hj => upper_rootWith hw hred hj
  case nonneg => exact fun i => (ha i i).symm ▸ hred.nonneg i
  case gram => exact hgram
  case rhs => exact hrhs
  case zero =>
    intro i hp
    have hi : squareRoot h.matrix tol i i = 0 :=
      pow_eq_zero_iff two_ne_zero |>.mp ((hred.pivot i i.isLt).trans hp)
    have hrow := row_rootWith hw hred ((ha i i).trans hi)
    exact ⟨by simp [hside, mulVec_apply_eq_sum, hrow], hrow⟩
  case error =>
    exact ⟨_, fun x hx => error_sub (wellFormed_rootWith hw tol) hw rfl rfl rfl hgram hrhs hx⟩

-- Whatever the rank of the information is, its root can stand for it.
theorem isRootOf_toLinear {epsilon : ℝ} (he : 0 ≤ epsilon) (hw : h.WellFormed)
    (hG : h.matrix.PosSemidef) (hg : ∃ z, h.matrix *ᵥ z = h.vector)
    (hd : SquareRoot.Decisive h.matrix (@rankTolerance ℝ _ (realsWith epsilon) h.side)) :
    IsRootOf (@toLinear ℝ _ (realsWith epsilon) h) h
      (@rankTolerance ℝ _ (realsWith epsilon) h.side) := by
  have ht : 0 ≤ @rankTolerance ℝ _ (realsWith epsilon) h.side := mul_nonneg he (Nat.cast_nonneg _)
  rw [toLinear_eq_rootWith]
  exact isRootOf_rootWith hw ht hG hg hd

noncomputable def deficient : InformationFactor ℝ :=
  ⟨[0, 1], BlockMatrix.ofFn 3 [1, 1, 1] fun _ _ => 1⟩

theorem matrix_deficient : deficient.matrix = fun _ _ : Fin 2 => (1 : ℝ) := by
  funext i j
  rw [matrix_apply]
  exact BlockMatrix.entry_ofFn _ (Nat.lt_succ_of_lt i.isLt) (Nat.lt_succ_of_lt j.isLt)

theorem vector_deficient : deficient.vector = fun _ : Fin 2 => (1 : ℝ) := by
  funext i
  rw [vector_apply]
  exact BlockMatrix.entry_ofFn _ (Nat.lt_succ_of_lt i.isLt) (Nat.lt_succ_self 2)

theorem decisive_ones (ht : tol < 1) : SquareRoot.Decisive (fun _ _ : Fin 2 => (1 : ℝ)) tol := by
  have hn : ¬(1 : ℝ) ≤ tol * RealLike.max (RealLike.abs 1) 1 := by
    have h1 : RealLike.max (RealLike.abs (1 : ℝ)) 1 = 1 :=
      (congrArg (max · 1) abs_one).trans (max_self 1)
    rw [h1, mul_one]
    exact ht.not_ge
  have hrow : SquareRoot.before (fun _ _ : Fin 2 => (1 : ℝ)) tol 1 0 1 = 1 := by
    rw [SquareRoot.before, foldWhere_lt_succ _ _ Nat.two_pos, foldWhere_lt_zero]
    simp only [SquareRoot.step, foldWhere_sub, Fin.zero_eta, Fin.not_lt_zero, decide_false,
      Bool.false_eq_true, Finset.filter_false, Finset.sum_empty, sub_zero, if_neg hn]
    simp
  have hone : Finset.univ.filter (fun k : Fin 2 => k < 1) = {0} := by decide
  refine Fin.forall_fin_two.mpr ⟨.inr ?_, .inl ?_⟩
  case refine_1 => simpa [SquareRoot.pivotValue, foldWhere_sub] using ht
  case refine_2 =>
    rw [SquareRoot.pivotValue, foldWhere_sub]
    simp only [decide_eq_true_eq, hone, Finset.sum_singleton, Fin.val_one, hrow, mul_one, sub_self]

theorem posSemidef_ones : (of fun _ _ : Fin 2 => (1 : ℝ)).PosSemidef := by
  have h1 : (of fun _ _ : Fin 2 => (1 : ℝ)) = vecMulVec 1 (star 1) := by
    ext i j
    simp [vecMulVec_apply]
  exact h1 ▸ posSemidef_vecMulVec_self_star 1

theorem mulVec_ones : (of fun _ _ : Fin 2 => (1 : ℝ)) *ᵥ Pi.single 0 1 = fun _ => 1 := by
  ext i
  simp

theorem isRootOf_toLinear_deficient :
    deficient.WellFormed ∧ deficient.matrix.PosSemidef ∧
      (∃ z, deficient.matrix *ᵥ z = deficient.vector) ∧
      SquareRoot.Decisive deficient.matrix
        (@rankTolerance ℝ _ (realsWith (1 / 100)) deficient.side) ∧
      IsRootOf (@toLinear ℝ _ (realsWith (1 / 100)) deficient) deficient
        (@rankTolerance ℝ _ (realsWith (1 / 100)) deficient.side) := by
  have hw : deficient.WellFormed := ⟨by decide, rfl, rfl, rfl⟩
  have hG : deficient.matrix.PosSemidef := matrix_deficient ▸ posSemidef_ones
  have hg : ∃ z, deficient.matrix *ᵥ z = deficient.vector := by
    rw [matrix_deficient, vector_deficient]
    exact ⟨_, mulVec_ones⟩
  have ht : @rankTolerance ℝ _ (realsWith (1 / 100)) deficient.side < 1 := by
    have he : @rankTolerance ℝ _ (realsWith (1 / 100)) deficient.side =
        1 / 100 * ((32 : Nat) : ℝ) := rfl
    rw [he]
    norm_num
  have hd := matrix_deficient ▸ decisive_ones ht
  exact ⟨hw, hG, hg, hd, isRootOf_toLinear (by norm_num) hw hG hg hd⟩

end InformationFactor
end LinearGaussian
