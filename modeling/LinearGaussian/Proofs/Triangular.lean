import LinearGaussian.Proofs.Dense
import LinearGaussian.Reduction.Triangular

namespace LinearGaussian

variable {K : Type} [Field K] {n : Nat} {r : Fin n → Fin n → K}

section Substitution

variable {rel : Fin n → Fin n → Prop} [DecidableRel rel]

def solveEntry (rel : Fin n → Fin n → Prop) [DecidableRel rel] (r : Fin n → Fin n → K) (i : Fin n)
    (x : Vector K n) : Vector K n :=
  x.set i ((x[i] - ∑ j with rel i j, r i j * x[j]) / r i i) i.isLt

theorem solveUpper_eq_foldr (r : Fin n → Fin n → K) (b : Vector K n) :
    solveUpper r b = (List.finRange n).foldr (solveEntry (· < ·) r) b := by
  unfold solveUpper
  rw [Fin.foldr_eq_finRange_foldr]
  congr 1
  funext i x
  simp only [foldWhere_sub, decide_eq_true_eq]
  rfl

theorem solveUpperTranspose_eq_foldr (r : Fin n → Fin n → K) (b : Vector K n) :
    solveUpperTranspose r b =
      (List.finRange n).reverse.foldr (solveEntry (· > ·) fun i j => r j i) b := by
  unfold solveUpperTranspose
  rw [Fin.foldl_eq_finRange_foldl, List.foldr_reverse]
  congr 1
  funext x i
  simp only [foldWhere_sub, decide_eq_true_eq]
  rfl

theorem getElem_solveEntry (i j : Fin n) (x : Vector K n) :
    (solveEntry rel r i x)[j] = if i = j then (x[i] - ∑ j with rel i j, r i j * x[j]) / r i i
      else x[j] := by
  simp [solveEntry, Vector.getElem_set, Fin.ext_iff]

variable [IsStrictOrder (Fin n) rel]

-- The rows of some last entries hold once these have been solved for, and the others are as they
-- were.
theorem foldr_solveEntry (hd : ∀ i, r i i ≠ 0) (b : Vector K n) {is : List (Fin n)}
    (hs : is.Pairwise rel) (hl : ∀ i ∈ is, ∀ j, rel i j → j ∈ is) :
    (∀ i ∈ is, r i i * (is.foldr (solveEntry rel r) b)[i] +
        ∑ j with rel i j, r i j * (is.foldr (solveEntry rel r) b)[j] = b[i]) ∧
      ∀ i ∉ is, (is.foldr (solveEntry rel r) b)[i] = b[i] := by
  induction is
  case nil => simp
  case cons k ks ih =>
    obtain ⟨hk, hs⟩ := List.pairwise_cons.mp hs
    have hl' : ∀ i ∈ ks, ∀ j, rel i j → j ∈ ks := by
      intro i hi j hj
      exact (List.mem_cons.mp (hl i (by simp [hi]) j hj)).resolve_left
        (ne_of_irrefl' (Trans.trans (hk i hi) hj))
    obtain ⟨hrows, hrest⟩ := ih hs hl'
    have hne (j : Fin n) (hj : rel k j) :
        (solveEntry rel r k (ks.foldr (solveEntry rel r) b))[j] =
          (ks.foldr (solveEntry rel r) b)[j] := by
      rw [getElem_solveEntry, if_neg (ne_of_irrefl hj)]
    -- Rows from `k` on read later entries only, which stay.
    have hsum (i : Fin n) (hi : i = k ∨ rel k i) :
        ∑ j with rel i j, r i j * (solveEntry rel r k (ks.foldr (solveEntry rel r) b))[j] =
          ∑ j with rel i j, r i j * (ks.foldr (solveEntry rel r) b)[j] := by
      apply Finset.sum_congr rfl
      intro j hj
      have hj := (Finset.mem_filter.mp hj).right
      rw [hne j (hi.elim (· ▸ hj) (Trans.trans · hj))]
    simp only [List.foldr_cons]
    constructor
    case left =>
      intro i hi
      cases List.mem_cons.mp hi
      case inl hi =>
        rw [hi, hsum k (.inl rfl), getElem_solveEntry, if_pos rfl,
          hrest k fun h => irrefl k (hk k h), mul_div_cancel₀ _ (hd k), sub_add_cancel]
      case inr hi => rw [hsum i (.inr (hk i hi)), hne i (hk i hi), hrows i hi]
    case right =>
      intro i hi
      rw [getElem_solveEntry, if_neg (List.ne_of_not_mem_cons hi).symm,
        hrest i (List.not_mem_of_not_mem_cons hi)]

theorem sum_foldr_solveEntry (hu : ∀ i j, ¬rel i j → j ≠ i → r i j = 0) (hd : ∀ i, r i i ≠ 0)
    (b : Vector K n) {is : List (Fin n)} (hs : is.Pairwise rel) (hl : ∀ i, i ∈ is) (i : Fin n) :
    ∑ j, r i j * (is.foldr (solveEntry rel r) b)[j] = b[i] := by
  obtain ⟨h, _⟩ := foldr_solveEntry hd b hs fun _ _ j _ => hl j
  have hz : ∀ j ∈ Finset.univ.filter (¬rel i ·), j ≠ i →
      r i j * (is.foldr (solveEntry rel r) b)[j] = 0 := by
    intro j hj hne
    rw [hu i j (Finset.mem_filter.mp hj).right hne, zero_mul]
  rw [← Finset.sum_filter_not_add_sum_filter Finset.univ (rel i ·),
    Finset.sum_eq_single_of_mem i (by simp [irrefl i]) hz, h i (hl i)]

theorem sum_solveUpper (hu : ∀ i j, j < i → r i j = 0) (hd : ∀ i, r i i ≠ 0) (b : Vector K n)
    (i : Fin n) :
    ∑ j, r i j * (solveUpper r b)[j] = b[i] := by
  rw [solveUpper_eq_foldr]
  exact sum_foldr_solveEntry (fun i j hij hne => hu i j (lt_of_le_of_ne (not_lt.mp hij) hne)) hd b
    (List.pairwise_lt_finRange n) List.mem_finRange i

theorem sum_solveUpperTranspose (hu : ∀ i j, j < i → r i j = 0) (hd : ∀ i, r i i ≠ 0)
    (b : Vector K n) (j : Fin n) :
    ∑ i, r i j * (solveUpperTranspose r b)[i] = b[j] := by
  rw [solveUpperTranspose_eq_foldr]
  exact sum_foldr_solveEntry (r := fun i j => r j i)
    (fun i j hij hne => hu j i (lt_of_le_of_ne (not_lt.mp hij) hne.symm)) hd b
    (List.pairwise_reverse.mpr (List.pairwise_lt_finRange n))
      (fun i => List.mem_reverse.mpr (List.mem_finRange i)) j

theorem Window.exists_solveUpper {α : Type} [Arith α] {w : Window α} (hw : w.rows = w.cols)
    {b : Array α} (hb : b.size = w.rows) : ∃ v, w.solveUpper b = .ok v ∧ v.size = w.rows := by
  simp only [solveUpper, triangular, dif_pos hw, Vec.sized, hb, dif_pos, Outcome.ok_bind,
    Outcome.pure_eq_ok]
  exact ⟨_, rfl, by simp⟩

theorem Window.exists_solveUpperTranspose {α : Type} [Arith α] {w : Window α} (hw : w.rows = w.cols)
    {b : Array α} (hb : b.size = w.rows) :
    ∃ v, w.solveUpperTranspose b = .ok v ∧ v.size = w.rows := by
  simp only [solveUpperTranspose, triangular, dif_pos hw, Vec.sized, hb, dif_pos, Outcome.ok_bind,
    Outcome.pure_eq_ok]
  exact ⟨_, rfl, by simp⟩

theorem Window.solveUpper_eq {w : Window ℝ} (hw : w.rows = w.cols) {b : Array ℝ}
    (hb : b.size = w.rows) (hu : ∀ i j, j < i → w.base.entry (w.row + i) (w.col + j) = 0)
    (hd : ∀ i < w.rows, w.base.entry (w.row + i) (w.col + i) ≠ 0) :
    ∃ v, w.solveUpper b = .ok v ∧ v.size = w.rows ∧ ∀ i < w.rows,
      ∑ j ∈ Finset.range w.rows, w.base.entry (w.row + i)
        (w.col + j) * v.getD j 0 = b.getD i 0 := by
  have he (i j : Fin w.rows) : w.entry i (j.cast hw) = w.base.entry (w.row + i) (w.col + j) :=
    w.entry_eq_base ..
  simp only [solveUpper, triangular, dif_pos hw, Vec.sized, hb, dif_pos, Outcome.ok_bind,
    Outcome.pure_eq_ok]
  refine ⟨_, rfl, by simp, fun i hi => ?_⟩
  have hs := sum_solveUpper (r := fun i j => w.entry i (j.cast hw)) (fun i j h => he i j ▸ hu i j h)
    (fun i => he i i ▸ hd i i.isLt) ⟨b, hb⟩ ⟨i, hi⟩
  rw [Finset.sum_range]
  simpa [entry_eq_base, hi, hb] using hs

theorem Window.solveUpperTranspose_eq {w : Window ℝ} (hw : w.rows = w.cols) {b : Array ℝ}
    (hb : b.size = w.rows) (hu : ∀ i j, j < i → w.base.entry (w.row + i) (w.col + j) = 0)
    (hd : ∀ i < w.rows, w.base.entry (w.row + i) (w.col + i) ≠ 0) :
    ∃ v, w.solveUpperTranspose b = .ok v ∧ v.size = w.rows ∧ ∀ j < w.rows,
      ∑ i ∈ Finset.range w.rows, w.base.entry (w.row + i)
        (w.col + j) * v.getD i 0 = b.getD j 0 := by
  have he (i j : Fin w.rows) : w.entry i (j.cast hw) = w.base.entry (w.row + i) (w.col + j) :=
    w.entry_eq_base ..
  simp only [solveUpperTranspose, triangular, dif_pos hw, Vec.sized, hb, dif_pos, Outcome.ok_bind,
    Outcome.pure_eq_ok]
  refine ⟨_, rfl, by simp, fun j hj => ?_⟩
  have hs :=
    sum_solveUpperTranspose (r := fun i j => w.entry i (j.cast hw)) (fun i j h => he i j ▸ hu i j h)
      (fun i => he i i ▸ hd i i.isLt) ⟨b, hb⟩ ⟨j, hj⟩
  rw [Finset.sum_range]
  simpa [entry_eq_base, hj, hb] using hs

end Substitution

section Determinant

theorem det_ne_zero_iff (hu : ∀ i j, j < i → r i j = 0) :
    (Matrix.of r).det ≠ 0 ↔ ∀ i, r i i ≠ 0 := by
  rw [Matrix.det_of_isUpperTriangular (M := Matrix.of r) fun i j h => hu i j h,
    Finset.prod_ne_zero_iff]
  simp

theorem eq_of_sum_eq (hu : ∀ i j, j < i → r i j = 0) (hd : ∀ i, r i i ≠ 0) {x y : Fin n → K}
    (h : ∀ i, ∑ j, r i j * x j = ∑ j, r i j * y j) : x = y :=
  Matrix.mulVec_injective_of_det_ne_zero ((det_ne_zero_iff hu).mpr hd) (funext h)

theorem exists_sum_eq_zero (hu : ∀ i j, j < i → r i j = 0) {i : Fin n} (hd : r i i = 0) :
    ∃ z : Fin n → K, z ≠ 0 ∧ ∀ i, ∑ j, r i j * z j = 0 := by
  have h : (Matrix.of r).det = 0 := by_contra fun h => (det_ne_zero_iff hu).mp h i hd
  have ⟨z, hz, h⟩ := Matrix.exists_mulVec_eq_zero_iff.mpr h
  exact ⟨z, hz, congrFun h⟩

end Determinant
end LinearGaussian
