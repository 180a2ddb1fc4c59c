import LinearGaussian.Proofs.JointMatrix
import LinearGaussian.Graph.Joint

namespace LinearGaussian

open LinearFactor

namespace FactorGraph

variable {α : Type} [Arith α] [RealLike α] {g : FactorGraph α} {order : EliminationOrder}

-- The stack of well-formed factors has a deviation for each row.
theorem augmentedJacobian_eq_ok (hf : ∀ f ∈ g.factors, f.WellFormed) {a : Mat α} :
    g.augmentedJacobian order = .ok a ↔ (∀ k, k ∈ order.keys ↔ k ∈ g.keys) ∧
      ∃ f, combine (g.factors.map (·.toLinear)) order.keys = .ok f ∧
        f.augmentedJacobian true = a := by
  have hw {f : LinearFactor α} (hc : combine (g.factors.map (·.toLinear)) order.keys = .ok f) :
      f.whitenBody = .ok f.whitenedBody :=
    (wellFormed_combine (List.forall_mem_map.mpr fun f hm => (hf f hm).linear) hc).whitenBody_eq
  unfold augmentedJacobian
  simp only [Outcome.bind_eq_ok, checkCovers_eq_ok, exists_const, augmentedJacobian_eq]
  refine and_congr_right fun _ => exists_congr fun f => and_congr_right fun hc => ?_
  simp [hw hc]

theorem exists_augmentedJacobian [UnitDeviations α] (hf : ∀ f ∈ g.factors, f.WellFormed)
    (hc : Widths.Consistent (dimsOf g.factors)) (ho : ∀ k, k ∈ order.keys ↔ k ∈ g.keys) :
    ∃ a, g.augmentedJacobian order = .ok a := by
  have hd : (g.factors.map (·.toLinear)).flatMap LinearFactor.dims = dimsOf g.factors :=
    List.flatMap_map ..
  have ⟨ws, hws⟩ := Widths.exists_ofOccurrences hc
  have ⟨f, hcomb⟩ :=
    exists_combine (List.forall_mem_map.mpr fun f hm => (hf f hm).linear) order.nodup (hd ▸ hws) ?_
  case refine_1 =>
    intro k hk
    have ⟨d, hd⟩ := (mem_keys_iff_dims hf).mp ((ho k).mp hk)
    exact List.mem_map_of_mem (((Widths.ofOccurrences_eq_ok hws).right (k, d)).mpr hd)
  exact ⟨_, (augmentedJacobian_eq_ok hf).mpr ⟨ho, f, hcomb, rfl⟩⟩

end FactorGraph

noncomputable def Mat.coefficients (a : Mat ℝ) : Matrix (Fin a.rows) (Fin (a.cols - 1)) ℝ :=
  Matrix.of fun i j => a.entry i j

-- Points at which no row differs have the same values of all variables.
def Separates (factors : List (Factor ℝ)) : Prop :=
  ∀ p q, (∀ m ∈ rowsOf factors, m.residual p = m.residual q) → Point.EqOn (dimsOf factors) p q

theorem Separates.perm {factors factors' : List (Factor ℝ)} (h : Separates factors)
    (hp : factors.Perm factors') :
    Separates factors' := by
  intro p q hpq
  have hr := h p q fun m hm => hpq m ((hp.flatMap_right _).mem_iff.mp hm)
  exact hr.mono fun w hw => (hp.flatMap_right _).mem_iff.mpr hw

theorem rank_eq_iff {m n : Nat} {a : Matrix (Fin m) (Fin n) ℝ} :
    a.rank = n ↔ Function.Injective a.mulVec := by
  have hr := LinearMap.finrank_range_add_finrank_ker a.mulVecLin
  have hi : Function.Injective a.mulVec ↔ LinearMap.ker a.mulVecLin = ⊥ :=
    (LinearMap.ker_eq_bot (f := a.mulVecLin)).symm
  rw [← Matrix.rank, Module.finrank_fin_fun] at hr
  rw [hi, ← Submodule.finrank_eq_zero]
  omega

section Coefficients

variable {f : LinearFactor ℝ}

theorem width_eq (h : f.WellFormed) : f.ab.full.cols - 1 = f.width := by
  rw [h.cols_eq, Nat.add_sub_cancel]

theorem exists_stack_eq (h : f.WellFormed) (v : Fin (f.ab.full.cols - 1) → ℝ) :
    ∃ p : Point, (fun j : Fin (f.ab.full.cols - 1) => stack f.dims p j) = v := by
  let x (j : Nat) : ℝ := if hj : j < f.ab.full.cols - 1 then v ⟨j, hj⟩ else 0
  refine ⟨fun k l => x (Widths.start f.dims k + l), funext fun j => ?_⟩
  have hn : (f.dims.map (·.1)).Nodup := h.keys_dims ▸ h.nodup
  have hj : j.val < (f.dims.map (·.2)).sum := j.isLt.trans_eq (width_eq h)
  exact (stack_start hn x hj).trans (dif_pos j.isLt)

theorem sum_entry_stack (h : f.WellFormed) (i : Nat) (p : Point) :
    ∑ j ∈ Finset.range f.width, f.ab.full.entry i j * stack f.dims p j =
      f.residual i p + f.ab.full.entry i (f.ab.offsetAt f.keys.length) := by
  have ht := sum_take h le_rfl i p
  rw [List.take_of_length_le h.length_dims.le, h.offsetAt_length] at ht
  rw [← ht, LinearFactor.residual, sub_add_cancel]

theorem entry_whitenedBody (h : f.WellFormed) {i j : Nat} (hi : i < f.rows)
    (hj : j < f.ab.full.cols) :
    Mat.entry ⟨f.ab.full.rows, f.ab.full.cols, f.whitenedBody⟩ i j =
      f.ab.full.entry i j * NoiseModel.weightOf (f.sigmas.getD i 1) := by
  have hi : i < f.ab.full.rows := hi
  simp [Mat.entry, hi, hj, whitenedBody_get h]

theorem mulVec_coefficients (h : f.WellFormed) (i : Fin f.ab.full.rows) (p : Point) :
    (Mat.coefficients ⟨f.ab.full.rows, f.ab.full.cols, f.whitenedBody⟩).mulVec
      (fun j => stack f.dims p j) i =
      NoiseModel.weightOf (f.sigmas.getD i 1) *
        (f.residual i p + f.ab.full.entry i (f.ab.offsetAt f.keys.length)) := by
  have he (j : Fin (f.ab.full.cols - 1)) := entry_whitenedBody h i.isLt (Nat.lt_of_lt_pred j.isLt)
  rw [← sum_entry_stack h, Finset.mul_sum, ← width_eq h, Finset.sum_range, Matrix.mulVec,
    dotProduct]
  apply Finset.sum_congr rfl
  intro j _
  rw [← mul_assoc, mul_comm (NoiseModel.weightOf _), ← he j]
  rfl

theorem mulVec_eq_iff (h : f.WellFormed) (p q : Point) :
    (Mat.coefficients ⟨f.ab.full.rows, f.ab.full.cols, f.whitenedBody⟩).mulVec
      (fun j => stack f.dims p j) =
        (Mat.coefficients ⟨f.ab.full.rows, f.ab.full.cols, f.whitenedBody⟩).mulVec
          (fun j => stack f.dims q j) ↔
      ∀ m ∈ f.measurements, m.residual p = m.residual q := by
  have hm : (∀ m ∈ f.measurements, m.residual p = m.residual q) ↔
      ∀ i : Fin f.ab.full.rows, f.residual i p = f.residual i q := by
    simp only [measurements, List.forall_mem_map, List.mem_range, Fin.forall_iff]
    rfl
  rw [hm, funext_iff]
  refine forall_congr' fun i => ?_
  rw [mulVec_coefficients h, mulVec_coefficients h, mul_right_inj' (weightOf_ne_zero _),
    add_left_inj]

end Coefficients

-- The rows tell all points apart just if the coefficients have full rank.
theorem rank_coefficients_iff {factors : List (Factor ℝ)} (hf : ∀ f ∈ factors, f.WellFormed)
    {layout : EliminationOrder} {a : Mat ℝ}
    (ha : FactorGraph.augmentedJacobian ⟨factors⟩ layout = .ok a) :
    a.coefficients.rank = a.cols - 1 ↔ Separates factors := by
  obtain ⟨_, f, hc, rfl⟩ := (FactorGraph.augmentedJacobian_eq_ok hf).mp ha
  have hg : ∀ g ∈ factors.map (·.toLinear), g.WellFormed := by
    simpa using fun f hm => (hf f hm).linear
  have hw := wellFormed_combine hg hc
  have hm : rowsOf factors = f.measurements := by
    rw [measurements_combine hg hc, rowsOf, List.flatMap_map]
  have hd (p q : Point) : Point.EqOn (dimsOf factors) p q ↔ Point.EqOn f.dims p q := by
    simp only [Point.EqOn, mem_dims_combine hc, mem_dimsOf, List.mem_map, exists_exists_and_eq_and]
  rw [rank_eq_iff]
  simp only [Separates, hm, hd]
  constructor
  case mp =>
    intro hi p q hpq
    have he := hi ((mulVec_eq_iff hw p q).mpr hpq)
    exact eqOn_iff_stack.mpr fun j hj => congrFun he ⟨j, hj.trans_eq (width_eq hw).symm⟩
  case mpr =>
    intro hs v w hvw
    obtain ⟨p, hp⟩ := exists_stack_eq hw v
    obtain ⟨q, hq⟩ := exists_stack_eq hw w
    rw [← hp, ← hq] at hvw ⊢
    have he := eqOn_iff_stack.mp (hs p q ((mulVec_eq_iff hw p q).mp hvw))
    exact funext fun j => he j (j.isLt.trans_eq (width_eq hw))

end LinearGaussian
