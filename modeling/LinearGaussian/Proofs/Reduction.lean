import LinearGaussian.Proofs.Combine
import LinearGaussian.Proofs.Householder
import LinearGaussian.Proofs.Weighted

namespace LinearGaussian.LinearFactor

open Measurement PivotRow WeightedReduction

section Rows

variable {α : Type} [Arith α] [RealLike α] {f : LinearFactor α} {settings : EliminationSettings α}

def constrainedRows (f : LinearFactor α) (settings : EliminationSettings α) :
    List (PivotRow α f.ab.full.cols) :=
  (weightedReduce f.ab.full.body (fun i => f.sigmas.getD i 1) f.width settings.zeroTol
    settings.rankTol).rows.map (·.scaled)

def orthogonalRows (f : LinearFactor α) : List (PivotRow α f.ab.full.cols) :=
  (triangularize f.whitenedBody f.width).rows

def reducedRows (f : LinearFactor α) (settings : EliminationSettings α) :
    List (PivotRow α f.ab.full.cols) :=
  if f.isConstrained then f.constrainedRows settings else f.orthogonalRows

theorem reduceConstrained_eq (h : f.WellFormed) :
    f.reduceConstrained f.width settings = .ok (f.constrainedRows settings) := by
  have hs : f.sigmas.size = f.ab.full.rows := h.size_sigmas
  have hc : f.width ≤ f.ab.full.cols := by
    have := h.cols_eq
    omega
  simp only [reduceConstrained, Mat.weightedReduce, Vec.sized, hs, dif_pos, require, hc,
    decide_true, if_true, Outcome.ok_bind, Outcome.pure_eq_ok, constrainedRows]
  have hv : ∀ i : Fin f.ab.full.rows, (Vector.mk f.sigmas hs)[i] = f.sigmas.getD i 1 := by simp [hs]
  simp only [hv]

theorem reduceOrthogonal_eq (h : f.WellFormed) :
    f.reduceOrthogonal f.width = .ok f.orthogonalRows := by
  have hc : f.width ≤ f.ab.full.cols := h.cols_eq ▸ Nat.le_succ _
  rw [reduceOrthogonal, h.whitenBody_eq, Outcome.ok_bind, Mat.triangularize, if_pos hc]
  rfl

theorem reduce_eq (h : f.WellFormed) : f.reduce settings = .ok (f.reducedRows settings) := by
  unfold reduce reducedRows
  rw [h.offsetAt_length]
  split
  case isTrue => exact reduceConstrained_eq h
  case isFalse => exact reduceOrthogonal_eq h

theorem sigma_reducedRows (h : f.isConstrained = false) {row : PivotRow α f.ab.full.cols}
    (hr : row ∈ f.reducedRows settings) : row.sigma = 1 := by
  simp only [reducedRows, h, Bool.false_eq_true, if_false, orthogonalRows, Echelon.rows] at hr
  obtain ⟨_, _, hr⟩ := List.mem_map.mp hr
  exact hr ▸ rfl

theorem unit_reducedRows : ∀ row ∈ f.reducedRows settings, row.sigma = 0 ∨ row.sigma = 1 := by
  intro row hr
  cases hc : f.isConstrained
  case false => exact .inr (sigma_reducedRows hc hr)
  case true =>
    simp only [reducedRows, hc, if_true, constrainedRows] at hr
    obtain ⟨w, _, hw⟩ := List.mem_map.mp hr
    exact hw ▸ w.sigma_scaled

end Rows

variable {f : LinearFactor ℝ} {settings : EliminationSettings ℝ}

noncomputable def columns (f : LinearFactor ℝ) (p : Point) : Fin f.ab.full.cols → ℝ :=
  fun j => stack f.dims p j

-- The tolerances round nothing away when the factor is reduced. They are not used without hard
-- constraints.
def Decisive (f : LinearFactor ℝ) (settings : EliminationSettings ℝ) : Prop :=
  f.isConstrained = true → WeightedReduction.Decisive f.ab.full.body (fun i => f.sigmas.getD i 1)
    (f.ab.offsetAt f.keys.length) settings.zeroTol settings.rankTol

theorem decisive_of_first (hr : 0 < f.rows) (hw : f.ab.offsetAt f.keys.length = 1)
    (hs : f.sigmas.getD 0 1 = 0) (ha : settings.zeroTol ≤ |f.ab.full.entry 0 0|) :
    f.Decisive settings := by
  intro _ col hc _
  have h0 : col.val = 0 := by omega
  have he : f.ab.full.body ⟨0, hr⟩ col = f.ab.full.entry 0 0 := by rw [← Mat.entry_body, h0]
  rw [h0, before, foldWhere_lt_zero]
  exact Pseudoinverse.decisive_of_first (fun i => Nat.zero_le i.val) hs (he ▸ ha)

theorem isConstrained_iff (f : LinearFactor ℝ) : f.isConstrained = true ↔ 0 ∈ f.sigmas := by
  unfold isConstrained sigmas
  cases f.model
  case none => simp [Vec.fill]
  case some => simp [NoiseModel.isConstrained, Array.any_eq_true, Array.mem_iff_getElem]

theorem sigma_mem_or_eq_one (f : LinearFactor ℝ) (i : Nat) :
    f.sigmas.getD i 1 ∈ f.sigmas ∨ f.sigmas.getD i 1 = 1 := by
  rw [Array.getD_eq_getD_getElem?]
  cases hs : f.sigmas[i]?
  case none => exact .inr rfl
  case some => exact .inl $ Array.mem_of_getElem? hs

theorem sigma_ne_zero (h : f.isConstrained = false) (i : Nat) : f.sigmas.getD i 1 ≠ 0 := by
  intro h0
  have hm := f.sigma_mem_or_eq_one i
  rw [h0] at hm
  have hc := (isConstrained_iff f).mpr (hm.resolve_right zero_ne_one)
  exact Bool.false_ne_true (h.symm.trans hc)

theorem feasible_of_unconstrained (h : f.isConstrained = false) (p : Point) :
    Feasible f.measurements p := by
  apply feasible_of_soft
  intro m hm
  have ⟨i, _, hi⟩ := List.mem_map.mp hm
  exact hi ▸ sigma_ne_zero h i

theorem isConstrained_combine {factors : List (LinearFactor ℝ)} {order : List Key}
    (h : combine factors order = .ok f) (hs : ∀ g ∈ factors, 0 ∉ g.sigmas) :
    f.isConstrained = false := by
  refine Bool.eq_false_iff.mpr fun hc => ?_
  have h0 := (isConstrained_iff f).mp hc
  rw [sigmas_combine h] at h0
  have ⟨v, hv, h0⟩ := Vec.mem_concat.mp h0
  have ⟨g, hg, he⟩ := List.mem_map.mp hv
  exact hs g hg (he ▸ h0)

theorem sigma_nonneg (h : f.WellFormed) (i : Nat) : 0 ≤ f.sigmas.getD i 1 := by
  cases f.sigma_mem_or_eq_one i
  case inl hm => exact nonneg_of_mem_sigmas h hm
  case inr h1 => simp [h1]

theorem measurement_eq (h : f.WellFormed) (i : Fin f.ab.full.rows) :
    f.measurement i = comap f.columns ⟨f.sigmas.getD i 1, tail f.ab.full.body 0 i⟩ := by
  have hr : f.residual i = fun p => tail f.ab.full.body 0 i (f.columns p) := by
    funext p
    rw [residual_eq_sum h, ← Mat.sum_entry]
    simp [tail, columns]
  rw [measurement, hr, comap]

theorem measurements_eq (h : f.WellFormed) :
    f.measurements =
      (ofRows (fun i => f.sigmas.getD i 1) (tail f.ab.full.body 0)).map (comap f.columns) := by
  rw [measurements, rows, BlockMatrix.rows, ← List.map_coe_finRange_eq_range, ofRows, List.map_map,
    List.map_map]
  apply List.map_congr_left
  intro i _
  exact measurement_eq h i

theorem tail_columns (b : Dense ℝ f.ab.full.rows f.ab.full.cols) (i : Fin f.ab.full.rows)
    (p q : Point) : tail b f.width i (f.columns p) = tail b f.width i (f.columns q) := by
  apply Finset.sum_congr rfl
  intro k hk
  have hk : f.width ≤ k.val := (Finset.mem_filter_univ k).mp hk
  have hs : ∀ p, f.columns p k = -1 := by
    intro p
    have hp := endToEnd_past (-1) (f.dims.map fun w => (w.2, p w.1)) (k.val - f.width)
    rwa [List.map_map, show ((·.1) ∘ fun w : Key × Nat => (w.2, p w.1)) = (·.2) from rfl, ← width,
      Nat.add_sub_cancel' hk] at hp
  rw [hs, hs]

theorem tail_of_left {m n c : Nat} {b : Dense ℝ m n} {i : Fin m} (h : ∀ j, j.val < c → b i j = 0)
    (z : Fin n → ℝ) :
    tail b 0 i z = tail b c i z := by
  symm
  apply Finset.sum_subset
  case h => simp
  case hf =>
    intro j _ hj
    rw [h j (by simpa using hj), zero_mul]

section Constrained

theorem staircase_constrained (h : f.WellFormed) :
    Staircase (f.constrainedRows settings) f.width := by
  have hc := h.cols_eq
  exact staircase_weightedReduce (by omega)

theorem reduces_constrained (h : f.WellFormed)
    (hd : WeightedReduction.Decisive f.ab.full.body (fun i => f.sigmas.getD i 1) f.width
      settings.zeroTol settings.rankTol) (hz : 0 < settings.zeroTol) (hr : 0 < settings.rankTol) :
    Reduces f.measurements ((f.constrainedRows settings).map (·.measurement.comap f.columns)) := by
  have hc := h.cols_eq
  have hr := weightedReduce_reduced hd (fun i => sigma_nonneg h i) hz hr (by omega)
  rw [measurements_eq h]
  apply (hr.reduces.comap f.columns).trans
  rw [List.map_append, constrainedRows, List.map_map, List.map_map]
  apply Reduces.drop_constant
  intro m hm p q
  have ⟨k, hk, hm⟩ := List.mem_map.mp hm
  have ⟨i, _, hi⟩ := List.mem_map.mp hk
  rw [← hm, ← hi]
  exact tail_columns _ i p q

end Constrained

section Orthogonal

theorem whitenedBody_get (h : f.WellFormed) (i : Fin f.ab.full.rows) (j : Fin f.ab.full.cols) :
    f.whitenedBody i j = f.ab.full.body i j * NoiseModel.weightOf (f.sigmas.getD i 1) := by
  unfold whitenedBody
  split
  case h_1 m hm =>
    rw [← sigma_of_model h hm i.isLt]
    simp only [NoiseModel.whitened, Dense.get_ofFn]
    split <;> simp_all
  case h_2 hm =>
    have hi : i.val < f.rows := i.isLt
    simp [sigmas, hm, Vec.fill, weightOf_eq, hi]

theorem totalCost_whitened (h : f.WellFormed) (p : Point) :
    totalCost f.measurements p = 1 / 2 * ∑ i, (∑ j, f.whitenedBody i j * f.columns p j) ^ 2 := by
  rw [measurements_eq h, totalCost_comap, totalCost_ofRows, Finset.mul_sum]
  apply Finset.sum_congr rfl
  intro i _
  simp [whitenedBody_get h, tail, Finset.sum_mul, mul_right_comm]

noncomputable def triangularRows (f : LinearFactor ℝ) : List (Measurement Point) :=
  (ofRows (fun _ => 1) (tail (triangularize f.whitenedBody f.width).body 0)).map (comap f.columns)

theorem reduces_triangularRows (h : f.WellFormed) (hc : f.isConstrained = false) :
    Reduces f.measurements f.triangularRows := by
  have hw := h.cols_eq
  apply Reduces.of_eq
  case hf =>
    intro p
    rw [measurements_eq h, triangularRows, feasible_comap, feasible_comap, feasible_ofRows,
      feasible_ofRows]
    simp only [sigma_ne_zero hc, one_ne_zero, false_imp_iff]
  case hc =>
    intro p
    rw [totalCost_whitened h, triangularRows, totalCost_comap, totalCost_ofRows, ← Finset.mul_sum,
      ← sum_sq_triangularize _ (show f.width ≤ f.ab.full.cols by omega)]
    simp [tail, weightOf_eq]

theorem staircase_orthogonal (h : f.WellFormed) : Staircase f.orthogonalRows f.width := by
  have hw := h.cols_eq
  exact (triangularize_reduced f.whitenedBody (by omega)).staircase

theorem pos_orthogonal (h : f.WellFormed) {row : PivotRow ℝ f.ab.full.cols}
    (hr : row ∈ f.orthogonalRows) :
    0 < row.values[row.pivot] := by
  have hw := h.cols_eq
  exact pos_triangularize f.whitenedBody (by omega) hr

theorem orthogonalRows_take (f : LinearFactor ℝ) :
    f.orthogonalRows.map (·.measurement.comap f.columns) =
      f.triangularRows.take (triangularize f.whitenedBody f.width).pivots.length := by
  rw [orthogonalRows, triangularRows, ofRows, List.map_map, ← List.map_take]
  apply Echelon.map_rows
  intro p i
  simp [PivotRow.measurement, tail, comap]

theorem reduces_orthogonal (h : f.WellFormed) (hc : f.isConstrained = false) :
    Reduces f.measurements (f.orthogonalRows.map (·.measurement.comap f.columns)) := by
  -- The rows without a pivot have nothing under the columns of the variables.
  have hw := h.cols_eq
  have hr := triangularize_reduced f.whitenedBody (show f.width ≤ f.ab.full.cols by omega)
  apply (reduces_triangularRows h hc).trans
  rw [orthogonalRows_take]
  nth_rewrite 1 [← List.take_append_drop (triangularize f.whitenedBody f.width).pivots.length
    f.triangularRows]
  apply Reduces.drop_constant
  intro m hm p q
  have ⟨k, hk, he⟩ := List.mem_drop_iff_getElem.mp hm
  have hi : (triangularize f.whitenedBody f.width).pivots.length + k < f.ab.full.rows := by
    simpa [triangularRows, ofRows, add_comm] using hk
  have hz := tail_of_left (hr.below ⟨_, hi⟩ (by simp))
  rw [← he]
  simp only [triangularRows, ofRows, comap, List.getElem_map, List.getElem_finRange,
    Fin.cast_mk, hz]
  exact tail_columns _ _ p q

end Orthogonal

theorem staircase_reducedRows (h : f.WellFormed) : Staircase (f.reducedRows settings) f.width := by
  unfold reducedRows
  split
  case isTrue => exact staircase_constrained h
  case isFalse => exact staircase_orthogonal h

theorem pos_reducedRows (h : f.WellFormed) (hc : f.isConstrained = false) :
    ∀ row ∈ f.reducedRows settings, 0 < row.values[row.pivot] := by
  intro row hr
  rw [reducedRows, hc] at hr
  exact pos_orthogonal h hr

theorem reduces_reducedRows (h : f.WellFormed) (hd : f.Decisive settings)
    (ht : f.isConstrained = true → 0 < settings.zeroTol ∧ 0 < settings.rankTol) :
    Reduces f.measurements ((f.reducedRows settings).map (·.measurement.comap f.columns)) := by
  unfold reducedRows
  split
  case isTrue hc =>
    have hd := hd hc
    rw [h.offsetAt_length] at hd
    exact reduces_constrained h hd (ht hc).left (ht hc).right
  case isFalse hc => exact reduces_orthogonal h (Bool.not_eq_true _ ▸ hc)

end LinearGaussian.LinearFactor
