import LinearGaussian.Proofs.BackSubstitution
import LinearGaussian.Proofs.Coordinates

namespace LinearGaussian

open LinearFactor Measurement

variable {ds : Widths} {cs : List (Conditional ℝ)} {p q : Point} {w : Key × Nat} {i j l : Nat}

noncomputable def jointSquare (ds : Widths) (cs : List (Conditional ℝ)) :
    Matrix (Fin (ds.map (·.2)).sum) (Fin (ds.map (·.2)).sum) ℝ :=
  Matrix.of fun i j => joint ds cs i j

namespace Chain

theorem stack_eq (h : Chain ds cs) (b : ℝ) (p : Point) (hl : l < (ds.map (·.2)).sum) :
    stack ds p l = endToEnd b (cs.map fun c => (c.rows, stack c.frontalDims p)) l := by
  induction h generalizing l
  case nil => contradiction
  case cons ds cs c _ hsum _ _ _ ih =>
    rw [List.map_append, List.sum_append, hsum] at hl
    by_cases hc : l < c.rows
    case pos =>
      rw [stack_append_left (hsum.symm ▸ hc), List.map_cons, endToEnd]
      exact (if_pos hc).symm
    case neg =>
      obtain ⟨m, hm⟩ := Nat.exists_eq_add_of_le (Nat.le_of_not_lt hc)
      have hr := stack_append_right c.frontalDims ds p m
      rw [hsum, ih (by omega)] at hr
      rw [hm, hr]
      simp [endToEnd]

-- Every row of the joint matrix is a whitened row of a density, and belongs to one of its frontal
-- coordinates.
theorem exists_row (h : Chain ds cs) (hl : l < (ds.map (·.2)).sum) :
    ∃ c ∈ cs, ∃ i < c.rows, (∀ j, joint ds cs l j = c.toFactor.spread ds i j * c.model.weight i) ∧
      ∀ p, stack ds p l = stack c.frontalDims p i := by
  have ⟨c, hc, i, hi, he⟩ := exists_endToEnd Conditional.rows (h.rows_eq ▸ hl)
  refine ⟨c, hc, i, hi, fun j => he 0 _, fun p => ?_⟩
  rw [h.stack_eq 0 p hl, he]

theorem sum_spread_eq_image (h : Chain ds cs) {c : Conditional ℝ} (hc : c ∈ cs) (i : Nat)
    (p : Point) :
    ∑ j ∈ Finset.range (ds.map (·.2)).sum, c.toFactor.spread ds i j * c.model.weight i *
      stack ds p j =
      c.toFactor.image i p * c.model.weight i := by
  rw [← image_eq_of_subset (h.closed.wellFormed c hc) h.closed.nodup (h.closed.subset c hc),
    ← sum_spread_mul, Finset.sum_mul]
  exact Finset.sum_congr rfl fun j _ => mul_right_comm ..

theorem sum_joint_column (h : Chain ds cs) (hw : w ∈ ds) (hj : j < w.2) (p : Point) :
    ∑ l ∈ Finset.range (ds.map (·.2)).sum, joint ds cs l (ds.start w.1 + j) * stack ds p l =
      (cs.map fun c => ∑ i ∈ Finset.range c.rows,
        c.toFactor.coefficient w.1 i j * c.model.weight i * stack c.frontalDims p i).sum := by
  rw [Finset.sum_congr rfl fun l hl => by rw [h.stack_eq 0 p (Finset.mem_range.mp hl)], ← h.rows_eq]
  simp only [joint, spread_start _ h.closed.nodup hw _ hj]
  exact sum_endToEnd ..

theorem mulVec_joint (h : Chain ds cs)
    (hpq : ∀ c ∈ cs, ∀ i < c.rows, c.toFactor.image i p * c.model.weight i =
      stack c.frontalDims q i) :
    (Mat.ofFn (ds.map (·.2)).sum (ds.map (·.2)).sum fun i j => joint ds cs i j).mulVec
      (coordinates ds p) =
      .ok (coordinates ds q) := by
  rw [mulVec_coordinates]
  congr 2
  funext l
  have ⟨c, hc, i, hi, hj, hs⟩ := h.exists_row l.isLt
  rw [hs q, ← hpq c hc i hi, ← h.sum_spread_eq_image hc]
  exact Finset.sum_congr rfl fun j _ => by rw [hj j]

theorem trMulVec_joint (h : Chain ds cs)
    (hpq : ∀ w ∈ ds, ∀ j < w.2, (cs.map fun c => ∑ i ∈ Finset.range c.rows,
      c.toFactor.coefficient w.1 i j * c.model.weight i * stack c.frontalDims p i).sum = q w.1 j) :
    (Mat.ofFn (ds.map (·.2)).sum (ds.map (·.2)).sum fun i j => joint ds cs i j).trMulVec
      (coordinates ds p) =
      .ok (coordinates ds q) := by
  rw [trMulVec_coordinates]
  congr 2
  funext l
  have ⟨w, hw, j, hj, hl⟩ := Widths.exists_start h.closed.nodup l.isLt
  have hs : stack ds q l = q w.1 j := by rw [hl, stack_start_add h.closed.nodup hw q hj]
  rw [hs, ← hpq w hw j hj, ← h.sum_joint_column hw hj, ← hl]

theorem joint_upper (h : Chain ds cs) (ht : ∀ c ∈ cs, c.Triangular) (hi : i < (ds.map (·.2)).sum)
    (hj : j < i) :
    joint ds cs i j = 0 := by
  induction h generalizing i j
  case nil => contradiction
  case cons ds cs c hw hsum _ hd hch ih =>
    have ⟨hc, hcs⟩ := List.forall_mem_cons.mp ht
    rw [List.map_append, List.sum_append, hsum] at hi
    by_cases hir : i < c.rows
    case pos => rw [joint_frontals hw hsum hir (hj.trans hir), hc.upper i j hj, zero_mul]
    case neg =>
      have ⟨m, hm⟩ := Nat.exists_eq_add_of_le (Nat.le_of_not_lt hir)
      rw [hm, joint_later hch hsum hd]
      split
      case isTrue => rfl
      case isFalse => exact ih hcs (by omega) (by omega)

theorem prod_joint (h : Chain ds cs) :
    ∏ i ∈ Finset.range (ds.map (·.2)).sum, joint ds cs i i =
      (cs.map fun c => ∏ i ∈ Finset.range c.rows, c.rsd.full.entry i i *
        c.model.weight i).prod := by
  induction h
  case nil => rfl
  case cons ds cs c hw hsum _ hd hch ih =>
    rw [List.map_append, List.sum_append, hsum, Finset.prod_range_add, List.map_cons,
      List.prod_cons, ← ih]
    congr 1
    case e_a =>
      apply Finset.prod_congr rfl
      intro i hi
      rw [joint_frontals hw hsum (Finset.mem_range.mp hi) (Finset.mem_range.mp hi)]
    case e_a =>
      apply Finset.prod_congr rfl
      intro i _
      rw [joint_later hch hsum hd, if_neg (by omega), Nat.add_sub_cancel_left]

theorem det_joint (h : Chain ds cs) (ht : ∀ c ∈ cs, c.Triangular) :
    (jointSquare ds cs).det =
      (cs.map fun c => ∏ i ∈ Finset.range c.rows, c.rsd.full.entry i i *
        c.model.weight i).prod := by
  -- The joint matrix is triangular, and its diagonal is that of the densities, whitened.
  have hu : (jointSquare ds cs).IsUpperTriangular := fun i j hij => h.joint_upper ht i.isLt hij
  rw [Matrix.det_of_isUpperTriangular hu, ← h.prod_joint, Finset.prod_range]
  rfl

end Chain
end LinearGaussian
