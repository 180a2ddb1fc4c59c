import LinearGaussian.Proofs.Dense
import LinearGaussian.Factor.Information

namespace LinearGaussian

open Matrix

variable {n : Nat}

section Semidefinite

variable {a : Matrix (Fin n) (Fin n) ℝ} {j : Fin n}

theorem symm_of_posSemidef (h : a.PosSemidef) (i j : Fin n) : a i j = a j i := by
  simpa using h.isHermitian.apply j i

theorem row_eq_zero_of_posSemidef (h : a.PosSemidef) (hj : a j j = 0) (k : Fin n) : a j k = 0 := by
  have hz : a *ᵥ Pi.single j 1 = 0 := (h.dotProduct_mulVec_zero_iff _).mp (by simp [hj])
  have hk := congrFun hz k
  rw [mulVec_single_one, col_apply] at hk
  exact (symm_of_posSemidef h j k).trans hk

theorem posSemidef_sub_row (h : a.PosSemidef) (hj : 0 < a j j) :
    (a - (a j j)⁻¹ • vecMulVec (a j) (a j)).PosSemidef := by
  have hcol : a.col j = a j := funext fun i => symm_of_posSemidef h i j
  have hrow : a.row j = a j := rfl
  refine .of_dotProduct_mulVec_nonneg ?_ fun x => ?_
  case refine_1 =>
    ext i k
    simp [symm_of_posSemidef h i k, vecMulVec_apply, mul_comm]
  case refine_2 =>
    -- The value at `x` is the value of the whole matrix at a vector that the row does not see.
    have hx := h.dotProduct_mulVec_nonneg (x - ((a j j)⁻¹ * (a j ⬝ᵥ x)) • Pi.single j 1)
    have hj : (a j j)⁻¹ * (a j ⬝ᵥ x) * a j j = a j ⬝ᵥ x := by field_simp
    simp only [star_trivial, mulVec_sub, mulVec_smul, mulVec_single_one, hcol, sub_dotProduct,
      dotProduct_sub, smul_dotProduct, dotProduct_smul, single_one_dotProduct, smul_eq_mul,
      mulVec_apply, hrow, hj, sub_self, mul_zero, sub_zero, dotProduct_comm x (a j)] at hx
    simpa [sub_mulVec, smul_mulVec, vecMulVec_mulVec, dotProduct_sub, dotProduct_comm x (a j),
      mul_assoc] using hx

end Semidefinite

namespace SquareRoot

section Pivots

variable {α : Type} [Arith α] [RealLike α]

def pivotValue (g : Fin n → Fin n → α) (r : Dense α n n) (j : Fin n) : α :=
  foldWhere (· < j) (fun s k => s - r k j * r k j) (g j j)

def before (g : Fin n → Fin n → α) (tol : α) (j : Nat) : Dense α n n :=
  foldWhere (fun i => i.val < j) (step g tol) (Dense.ofFn fun _ _ => 0)

theorem squareRoot_eq_before (g : Fin n → Fin n → α) (tol : α) :
    squareRoot g tol = before g tol n := by
  simp [squareRoot, before, foldWhere]

end Pivots

variable {g : Fin n → Fin n → ℝ} {tol : ℝ} {r : Dense ℝ n n} {c : Nat} {j : Fin n}

-- The tolerance rounds nothing away: a pivot that is not above it is zero.
def Decisive (g : Fin n → Fin n → ℝ) (tol : ℝ) : Prop :=
  ∀ j : Fin n, pivotValue g (before g tol j) j = 0 ∨
    tol * max |g j j| 1 < pivotValue g (before g tol j) j

def residual (g : Fin n → Fin n → ℝ) (r : Dense ℝ n n) : Matrix (Fin n) (Fin n) ℝ :=
  of fun i k => g i k - ∑ l, r l i * r l k

structure Reduced (r : Dense ℝ n n) (g : Fin n → Fin n → ℝ) (tol : ℝ) (c : Nat) : Prop where
  upper        : ∀ i k, k < i → r i k = 0
  later        : ∀ i, c ≤ i.val → ∀ k, r i k = 0
  nonneg       : ∀ i, 0 ≤ r i i
  zero         : ∀ i, r i i = 0 → ∀ k, r i k = 0
  pivot        : ∀ i, i.val < c → r i i ^ 2 = pivotValue g (before g tol i) i
  explained    : ∀ i, i.val < c → ∀ k, residual g r i k = 0
  semidefinite : (residual g r).PosSemidef

namespace Reduced

theorem init (h : (of g).PosSemidef) : Reduced (Dense.ofFn fun _ _ => 0) g tol 0 := by
  have hr : residual g (Dense.ofFn fun _ _ => 0) = of g := by
    ext i k
    simp [residual]
  constructor
  case semidefinite => exact hr ▸ h
  all_goals simp

theorem foldWhere_eq (h : Reduced r g tol c) (hj : j.val = c) (k : Fin n) :
    foldWhere (· < j) (fun s l => s - r l j * r l k) (g j k) = residual g r j k := by
  rw [foldWhere_sub, residual, of_apply, Finset.sum_filter]
  congr 1
  apply Finset.sum_congr rfl
  intro l _
  split
  case isTrue => rfl
  case isFalse hl => rw [h.later l (hj.symm.trans_le (by simpa using hl)), zero_mul]

theorem residual_left (h : Reduced r g tol c) (hj : j.val = c) {k : Fin n} (hk : k < j) :
    residual g r j k = 0 := by
  rw [symm_of_posSemidef h.semidefinite]
  exact h.explained k (hj ▸ hk) j

-- A row that is zero in the matrix that is left needs no row of its own.
theorem skip (h : Reduced r g tol c) (hj : j.val = c) (hp : pivotValue g (before g tol j) j = 0)
    (hz : residual g r j j = 0) : Reduced r g tol (c + 1) := by
  have hrow := row_eq_zero_of_posSemidef h.semidefinite hz
  constructor
  case upper => exact h.upper
  case later => exact fun i hi => h.later i (by omega)
  case nonneg => exact h.nonneg
  case zero => exact h.zero
  case pivot =>
    intro i hi
    by_cases he : i = j
    case pos => rw [he, hp, h.later j hj.ge, sq, zero_mul]
    case neg => exact h.pivot i (by omega)
  case explained =>
    intro i hi
    by_cases he : i = j
    case pos => exact he ▸ hrow
    case neg => exact h.explained i (by omega)
  case semidefinite => exact h.semidefinite

def fill (r : Dense ℝ n n) (j : Fin n) (row : Fin n → ℝ) : Dense ℝ n n :=
  Dense.ofFn fun i k => if i = j then row k else r i k

@[simp]
theorem get_fill_self (r : Dense ℝ n n) (j : Fin n) (row : Fin n → ℝ) (k : Fin n) :
    fill r j row j k = row k := by
  simp [fill]

theorem get_fill_of_ne {i : Fin n} (h : i ≠ j) (row : Fin n → ℝ) (k : Fin n) :
    fill r j row i k = r i k := by
  simp [fill, h]

theorem residual_fill (h : ∀ k, r j k = 0) (row : Fin n → ℝ) (i k : Fin n) :
    residual g (fill r j row) i k = residual g r i k - row i * row k := by
  have hl : ∀ l, fill r j row l i * fill r j row l k = r l i * r l k + if l = j then row i * row k
      else 0 := by
    intro l
    by_cases hl : l = j
    case pos => simp [hl, h]
    case neg => simp [get_fill_of_ne hl, hl]
  simp only [residual, of_apply, hl, Finset.sum_add_distrib, Finset.sum_ite_eq', Finset.mem_univ,
    if_true]
  ring

theorem residual_fill_sqrt (h : ∀ k, r j k = 0) (hpos : 0 < residual g r j j) :
    residual g (fill r j fun k => residual g r j k / √(residual g r j j)) =
      residual g r - (residual g r j j)⁻¹ • vecMulVec (residual g r j) (residual g r j) := by
  -- Over the root of its pivot, the row `j` of what is left takes away all that it explains.
  ext i k
  rw [residual_fill h, div_mul_div_comm, Real.mul_self_sqrt hpos.le]
  simp [vecMulVec_apply, div_eq_inv_mul]

theorem solve (h : Reduced r g tol c) (hj : j.val = c)
    (hp : residual g r j j = pivotValue g (before g tol j) j) (hpos : 0 < residual g r j j) :
    Reduced (fill r j fun k => residual g r j k / √(residual g r j j)) g tol (c + 1) := by
  have hres := residual_fill_sqrt (h.later j hj.ge) hpos
  have hleft : ∀ k < j, residual g r j k = 0 := fun k hk => h.residual_left hj hk
  constructor
  case upper =>
    intro i k hk
    by_cases hi : i = j
    case pos =>
      subst hi
      simp [hleft k hk]
    case neg => exact (get_fill_of_ne hi _ k).trans (h.upper i k hk)
  case later =>
    intro i hi k
    have hne : i ≠ j := by omega
    exact (get_fill_of_ne hne _ k).trans (h.later i (by omega) k)
  case nonneg =>
    intro i
    by_cases hi : i = j
    case pos => simp [hi]
    case neg => exact (h.nonneg i).trans_eq (get_fill_of_ne hi _ i).symm
  case zero =>
    intro i h0 k
    by_cases hi : i = j
    case pos => simp [hi, (Real.sqrt_pos.mpr hpos).ne'] at h0
    case neg =>
      rw [get_fill_of_ne hi] at h0 ⊢
      exact h.zero i h0 k
  case pivot =>
    intro i hi
    by_cases he : i = j
    case pos =>
      subst he
      rw [← hp, get_fill_self, Real.div_sqrt, Real.sq_sqrt hpos.le]
    case neg =>
      rw [get_fill_of_ne he]
      exact h.pivot i (by omega)
  case explained =>
    intro i hi k
    simp only [hres, Matrix.sub_apply, Matrix.smul_apply, vecMulVec_apply, smul_eq_mul]
    by_cases he : i = j
    case pos => rw [he, inv_mul_cancel_left₀ hpos.ne', sub_self]
    case neg =>
      have hi : i < j := by omega
      rw [h.explained i (hj ▸ hi), hleft i hi, zero_mul, mul_zero, sub_zero]
  case semidefinite => exact hres ▸ posSemidef_sub_row h.semidefinite hpos

theorem step_eq_fill (h : Reduced r g tol c) (hj : j.val = c)
    (hp : tol * max |g j j| 1 < residual g r j j) :
    SquareRoot.step g tol r j = fill r j fun k => residual g r j k / √(residual g r j j) := by
  have hn : ¬residual g r j j ≤ tol * RealLike.max (RealLike.abs (g j j)) 1 := hp.not_ge
  simp only [SquareRoot.step, h.foldWhere_eq hj, if_neg hn]
  apply Dense.ext_get
  intro i k
  rw [fill, Dense.get_ofFn, Dense.get_ofFn]
  by_cases hi : i = j
  case neg => simp [hi]
  case pos =>
    subst hi
    rcases lt_trichotomy k i with hk | hk | hk
    case inl => simp [hk, h.residual_left hj hk, h.later i hj.ge]
    case inr.inl => simp [hk]
    case inr.inr => simp [hk.not_gt, hk.ne', div_eq_mul_inv]

theorem step (h : Reduced (before g tol j) g tol j) (ht : 0 ≤ tol) (hd : Decisive g tol) :
    Reduced (SquareRoot.step g tol (before g tol j) j) g tol (j + 1) := by
  have hp : residual g (before g tol j) j j = pivotValue g (before g tol j) j :=
    (h.foldWhere_eq rfl j).symm
  have h1 : 0 ≤ tol * max |g j j| 1 := mul_nonneg ht (zero_le_one.trans (le_max_right _ _))
  rcases hd j with hz | hpos
  case inl =>
    have hle : pivotValue g (before g tol j) j ≤ tol * RealLike.max (RealLike.abs (g j j)) 1 :=
      hz.trans_le h1
    have hs : SquareRoot.step g tol (before g tol j) j = before g tol j := if_pos hle
    rw [hs]
    exact h.skip rfl hz (hp.trans hz)
  case inr =>
    rw [h.step_eq_fill rfl (hp ▸ hpos)]
    exact h.solve rfl hp (h1.trans_lt (hp ▸ hpos))

end Reduced

theorem reduced_before (h : (of g).PosSemidef) (ht : 0 ≤ tol) (hd : Decisive g tol) {c : Nat}
    (hc : c ≤ n) :
    Reduced (before g tol c) g tol c := by
  induction c
  case zero =>
    rw [before, foldWhere_lt_zero]
    exact .init h
  case succ c ih =>
    rw [before, foldWhere_lt_succ _ _ hc]
    exact Reduced.step (j := ⟨c, hc⟩) (ih (by omega)) ht hd

end SquareRoot

theorem squareRoot_reduced {g : Fin n → Fin n → ℝ} {tol : ℝ} (h : (of g).PosSemidef) (ht : 0 ≤ tol)
    (hd : SquareRoot.Decisive g tol) : SquareRoot.Reduced (squareRoot g tol) g tol n :=
  SquareRoot.squareRoot_eq_before g tol ▸ SquareRoot.reduced_before h ht hd le_rfl

section Substitution

variable {r : Fin n → Fin n → ℝ} {b d : Vector ℝ n} {y : Fin n → ℝ} {c : Nat}

structure Substituted (d b : Vector ℝ n) (y : Fin n → ℝ) (c : Nat) : Prop where
  found : ∀ i : Fin n, i.val < c → d[i] = y i
  given : ∀ i : Fin n, c ≤ i.val → d[i] = b[i]

theorem Substituted.set {i : Fin n} (h : Substituted d b y i) {v : ℝ} (hv : v = y i) :
    Substituted (d.set i v i.isLt) b y (i + 1) := by
  constructor
  case found =>
    intro k hk
    by_cases he : k = i
    case pos => simp [he, hv]
    case neg =>
      have hne : i.val ≠ k.val := fun hik => he (Fin.ext hik.symm)
      simpa [Vector.getElem_set, hne] using h.found k (by omega)
  case given =>
    intro k hk
    have hne : i.val ≠ k.val := by omega
    simpa [Vector.getElem_set, hne] using h.given k (by omega)

theorem sum_column (hu : ∀ i k, k < i → r i k = 0) (y : Fin n → ℝ) (i : Fin n) :
    ∑ k, r k i * y k = ∑ k with k < i, r k i * y k + r i i * y i := by
  rw [← Finset.sum_filter_add_sum_filter_not Finset.univ (· < i)]
  congr 1
  apply Finset.sum_eq_single_of_mem i (by simp)
  intro k hk hne
  rw [hu k i (lt_of_le_of_ne (by simpa using hk) hne.symm), zero_mul]

-- Substitution finds a solution that is zero in the rows with a zero pivot, though it does not look
-- at these rows.
theorem solveRows_eq (hu : ∀ i k, k < i → r i k = 0) (hz : ∀ i, r i i = 0 → y i = 0)
    (hb : ∀ i : Fin n, ∑ k, r k i * y k = b[i]) (i : Fin n) :
    (InformationFactor.solveRows r b)[i] = y i := by
  have h : Substituted (InformationFactor.solveRows r b) b y n := by
    refine foldl_induction (P := fun c d => Substituted d b y c) ⟨by simp, by simp⟩ fun i d h => ?_
    by_cases h0 : r i i = 0
    case pos =>
      rw [if_pos (by simpa using h0)]
      exact h.set (hz i h0).symm
    case neg =>
      rw [if_neg (by simpa using h0), foldWhere_sub]
      apply h.set
      have hs : ∑ k with k < i, r k i * d[k] = ∑ k with k < i, r k i * y k := by
        apply Finset.sum_congr rfl
        intro k hk
        rw [h.found k (Finset.mem_filter.mp hk).right]
      rw [h.given i le_rfl, ← hb i, sum_column hu]
      simp only [decide_eq_true_eq, hs, add_sub_cancel_left]
      exact mul_div_cancel_left₀ _ h0
  exact h.found i i.isLt

end Substitution
end LinearGaussian
