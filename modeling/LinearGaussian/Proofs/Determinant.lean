import LinearGaussian.Proofs.JointSystem
import LinearGaussian.Proofs.OneShot
import LinearGaussian.Proofs.Success

namespace LinearGaussian

open Measurement LinearFactor Elimination
open scoped Matrix

section Product

variable {l : List ℝ}

theorem exp_sum_log (h : ∀ a ∈ l, a ≠ 0) :
    Real.exp (l.map fun a => Real.log |a|).sum = |l.prod| := by
  induction l
  case nil => simp
  case cons a l ih =>
    have ⟨ha, hl⟩ := List.forall_mem_cons.mp h
    rw [List.map_cons, List.sum_cons, Real.exp_add, ih hl, Real.exp_log (abs_pos.mpr ha),
      List.prod_cons, abs_mul]

-- The sign of a product changes with each negative number.
theorem prod_eq_of_signs (l : List ℝ) (negative : Bool) :
    (if l.foldl (fun negative a => negative ^^ (a < 0 : Bool)) negative then -|l.prod|
      else |l.prod|) =
      if negative then -l.prod else l.prod := by
  induction l generalizing negative
  case nil => simp
  case cons a l ih =>
    have hm (b : Bool) :
        (if b then -(|a| * |l.prod|) else |a| * |l.prod|) = |a| * if b then
          -|l.prod| else |l.prod| := by
      cases b <;> simp
    rw [List.foldl_cons, List.prod_cons, abs_mul, hm, ih]
    by_cases ha : a < 0
    case pos => cases negative <;> simp [ha, abs_of_neg ha]
    case neg => cases negative <;> simp [ha, abs_of_nonneg (not_lt.mp ha)]

end Product

theorem Conditional.determinant_eq (c : Conditional ℝ) : c.determinant = c.diagonal.prod :=
  List.prod_eq_foldl.symm

namespace BayesNet

theorem logDeterminant_eq (n : BayesNet ℝ) :
    n.logDeterminant = ((n.conditionals.flatMap (·.diagonal)).map fun a => Real.log |a|).sum := by
  have hc (c : Conditional ℝ) : c.logDeterminant = (c.diagonal.map fun a => Real.log |a|).sum := by
    rw [List.sum_eq_foldl, List.foldl_map]
    rfl
  rw [List.map_flatMap, List.flatMap_def, List.sum_flatten, List.map_map, List.sum_eq_foldl,
    List.foldl_map]
  simp only [Function.comp_apply, ← hc]
  rfl

theorem determinant_eq (n : BayesNet ℝ) :
    n.determinant = (n.conditionals.map (·.determinant)).prod := by
  have hp : (n.conditionals.map (·.determinant)).prod =
      (n.conditionals.flatMap (·.diagonal)).prod := by
    rw [List.flatMap_def, List.prod_flatten, List.map_map]
    exact congrArg List.prod (List.map_congr_left fun c _ => c.determinant_eq)
  rw [hp, determinant]
  by_cases h0 : 0 ∈ n.conditionals.flatMap (·.diagonal)
  case pos =>
    have ha : (n.conditionals.flatMap (·.diagonal)).any (· == 0) = true :=
      List.any_eq_true.mpr ⟨0, h0, beq_self_eq_true 0⟩
    rw [if_pos ha, List.prod_eq_zero h0]
  case neg =>
    have hne : ∀ a ∈ n.conditionals.flatMap (·.diagonal), a ≠ 0 := fun a ha he => h0 (he ▸ ha)
    have ha : ¬(n.conditionals.flatMap (·.diagonal)).any (· == 0) = true := by simpa using h0
    have he : RealLike.exp n.logDeterminant = |(n.conditionals.flatMap (·.diagonal)).prod| := by
      rw [logDeterminant_eq]
      exact exp_sum_log hne
    rw [if_neg ha, he]
    exact prod_eq_of_signs (n.conditionals.flatMap (·.diagonal)) false

end BayesNet

section Layout

variable {ds es : Widths}

theorem Widths.exists_column (hd : ds.keys.Nodup) (he : es.keys.Nodup) (h : ∀ w, w ∈ ds ↔ w ∈ es)
    (j : Fin (ds.map (·.2)).sum) :
    ∃ i : Fin (es.map (·.2)).sum, ∃ w ∈ es, ∃ l < w.2, w ∈ ds ∧ j.val = ds.start w.1 + l ∧
      i.val = es.start w.1 + l := by
  have ⟨w, hw, l, hl, hj⟩ := exists_start hd j.isLt
  have hlt := (Nat.add_lt_add_left hl _).trans_le (start_add_le he ((h w).mp hw))
  exact ⟨⟨_, hlt⟩, w, (h w).mp hw, l, hl, hw, hj, rfl⟩

theorem Widths.exists_equiv (hd : ds.keys.Nodup) (he : es.keys.Nodup) (h : ∀ w, w ∈ ds ↔ w ∈ es) :
    ∃ e : Fin (ds.map (·.2)).sum ≃ Fin (es.map (·.2)).sum,
      ∀ (b : ℝ) (u : Key → Nat → ℝ) (j : Fin (ds.map (·.2)).sum),
        endToEnd b (ds.map fun w => (w.2, u w.1)) j = endToEnd b (es.map fun w => (w.2, u w.1))
          (e j) := by
  choose e v hv l hl hvd hj he' using exists_column hd he h
  have hinj : Function.Injective e := by
    intro i j hij
    have hs : es.start (v i).1 + l i = es.start (v j).1 + l j := by rw [← he', ← he', hij]
    have hi := hl i
    have hj' := hl j
    have hvv : v i = v j :=
      eq_of_start he (hv i) (hv j) ⟨Nat.le_add_right _ (l i), by omega⟩ (by omega)
    rw [hvv, Nat.add_right_inj] at hs
    rw [Fin.ext_iff, hj i, hj j, hvv, hs]
  have hperm : ds.Perm es := (List.perm_ext_iff_of_nodup (.of_map _ hd) (.of_map _ he)).mpr h
  have hbij : Function.Bijective e := by
    rw [Fintype.bijective_iff_injective_and_card, Fintype.card_fin, Fintype.card_fin]
    exact ⟨hinj, (hperm.map _).sum_eq⟩
  refine ⟨.ofBijective e hbij, fun b u j => ?_⟩
  rw [hj j, endToEnd_start hd (hvd j) b u (hl j), Equiv.ofBijective_apply, he' j,
    endToEnd_start he (hv j) b u (hl j)]

theorem exists_equiv_joint (hd : ds.keys.Nodup) (he : es.keys.Nodup) (h : ∀ w, w ∈ ds ↔ w ∈ es)
    (cs : List (Conditional ℝ)) :
    ∃ e : Fin (ds.map (·.2)).sum ≃ Fin (es.map (·.2)).sum, ∀ (i : Nat) (j : Fin (ds.map (·.2)).sum),
      joint ds cs i j = joint es cs i (e j) := by
  have ⟨e, h⟩ := Widths.exists_equiv hd he h
  refine ⟨e, fun i j => ?_⟩
  have hs (c : Conditional ℝ) (i : Nat) : c.toFactor.spread ds i j = c.toFactor.spread es i (e j) :=
    h _ (fun k => c.toFactor.coefficient k i) j
  simp only [joint, hs]

-- The information of a factor has the squared determinant of densities that rate points as the
-- factor does.
theorem LinearFactor.det_coefficients {f : LinearFactor ℝ} {cs : List (Conditional ℝ)}
    (h : f.WellFormed) (hch : Chain ds cs) (hds : ∀ w, w ∈ f.dims ↔ w ∈ ds)
    (hd : ∀ c ∈ cs, c.model.dim = c.rows) {e : ℝ}
    (hc : ∀ p, totalCost f.measurements p = totalCost (densityRows cs) p + e) :
    ((f.augmentedJacobian true).coefficientsᵀ * (f.augmentedJacobian true).coefficients).det =
      (jointSquare ds cs).det ^ 2 := by
  have ⟨e, he⟩ :=
    exists_equiv_joint (h.keys_dims ▸ h.nodup : (f.dims.map (·.1)).Nodup) hch.closed.nodup hds cs
  have hcols : (f.augmentedJacobian true).cols - 1 = (f.dims.map (·.2)).sum := by
    rw [cols_augmentedJacobian, h.cols_eq, Nat.add_sub_cancel, width]
  have hg : (f.augmentedJacobian true).coefficientsᵀ * (f.augmentedJacobian true).coefficients =
      ((jointSquare ds cs)ᵀ * jointSquare ds cs).submatrix ((finCongr hcols).trans e)
        ((finCongr hcols).trans e) := by
    ext i j
    have hs := sum_augmentedJacobian h hch.closed.wellFormed
      (fun c hc w hw => (hds w).mpr (hch.closed.subset c hc hw)) hd hc (i.isLt.trans_eq hcols)
        (j.isLt.trans_eq hcols)
    rw [← f.rows_augmentedJacobian, hch.rows_eq, Finset.sum_range, Finset.sum_range] at hs
    simp only [Matrix.submatrix_apply, Matrix.mul_apply, Matrix.transpose_apply, Mat.coefficients,
      Matrix.of_apply, hs]
    refine Finset.sum_congr rfl fun l _ => ?_
    exact congrArg₂ (· * ·) (he l (finCongr hcols i)) (he l (finCongr hcols j))
  rw [hg, Matrix.det_submatrix_equiv_self, Matrix.det_mul, Matrix.det_transpose, sq]

end Layout

theorem det_gram_eq_zero_iff {m n : Nat} (a : Matrix (Fin m) (Fin n) ℝ) :
    (aᵀ * a).det = 0 ↔ a.rank < n := by
  rw [a.rank_le_width.lt_iff_ne, ← a.rank_transpose_mul_self, Ne, rank_eq_iff,
    Matrix.mulVec_injective_iff_isUnit, Matrix.isUnit_iff_isUnit_det, isUnit_iff_ne_zero, not_not]

namespace FactorGraph

variable {factors : List (LinearFactor ℝ)} {order layout : EliminationOrder}
  {settings : EliminationSettings ℝ} {net : BayesNet ℝ}

theorem determinant_nonneg (hf : ∀ f ∈ factors, f.WellFormed) (hs : ∀ f ∈ factors, 0 ∉ f.sigmas)
    (h : (ofLinear factors).eliminate order settings = .ok net) : 0 ≤ net.determinant := by
  have ⟨_, hrun, _, _⟩ := run_of_eliminate (wellFormed_ofLinear hf) h
  rw [net.determinant_eq]
  refine List.prod_nonneg (List.forall_mem_map.mpr fun c hc => ?_)
  have ⟨hr, _⟩ := hrun.isRoot (List.forall_mem_map.mpr hs) c hc
  rw [c.determinant_eq, Conditional.diagonal]
  exact List.prod_nonneg (List.forall_mem_map.mpr fun i hi => hr.nonneg i (List.mem_range.mp hi))

theorem sq_determinant (hf : ∀ f ∈ factors, f.WellFormed) (hs : ∀ f ∈ factors, 0 ∉ f.sigmas)
    (h : (ofLinear factors).eliminate order settings = .ok net) {a : Mat ℝ}
    (ha : (ofLinear factors).augmentedJacobian layout = .ok a) :
    net.determinant ^ 2 = (a.coefficientsᵀ * a.coefficients).det := by
  obtain ⟨_, f, hc, rfl⟩ := (augmentedJacobian_eq_ok (wellFormed_ofLinear hf)).mp ha
  rw [map_toLinear_ofLinear] at hc
  have hs : ∀ f ∈ (ofLinear factors).factors, 0 ∉ f.toLinear.sigmas := List.forall_mem_map.mpr hs
  obtain ⟨_, hrun, hrest, _⟩ := run_of_eliminate (wellFormed_ofLinear hf) h
  obtain ⟨ds, _, hmem, hch⟩ := hrun.chain hrest
  obtain ⟨e, he⟩ := hrun.exists_cost_densities hs hrest
  rw [rowsOf_ofLinear, ← measurements_combine hf hc] at he
  have hw := hrun.wellFormed.left
  have hds (w : Key × Nat) : w ∈ f.dims ↔ w ∈ ds := by
    simp only [mem_dims_combine hc, ← hmem, mem_dimsOf, ofLinear, List.mem_map,
      exists_exists_and_eq_and]
    rfl
  rw [det_coefficients (wellFormed_combine hf hc) hch hds (fun c hc => (hw c hc).dim) he,
    hch.det_joint fun c hc => (hw c hc).triangular, net.determinant_eq]
  congr 2
  apply List.map_congr_left
  intro c hc
  have hu := weight_of_soft (hrun.isRoot hs c hc).right
  simp only [c.determinant_eq, hu, mul_one]
  rfl

-- Without hard constraints, the determinant does not depend on the order of elimination. It is zero
-- just if the graph does not determine all variables.
theorem determinant_eliminate (hf : ∀ f ∈ factors, f.WellFormed) (hs : ∀ f ∈ factors, 0 ∉ f.sigmas)
    (h : (ofLinear factors).eliminate order settings = .ok net) :
    0 ≤ net.determinant ∧ net.determinant = (net.conditionals.map (·.determinant)).prod ∧
      (∀ layout : EliminationOrder, (∀ k, k ∈ layout.keys ↔ k ∈ (ofLinear factors).keys) →
        ∃ a, (ofLinear factors).augmentedJacobian layout = .ok a ∧
          net.determinant ^ 2 = (a.coefficientsᵀ * a.coefficients).det ∧
          (net.determinant = 0 ↔ a.coefficients.rank < a.cols - 1)) ∧
      ∀ order' settings' net', (ofLinear factors).eliminate order' settings' = .ok net' →
        net'.determinant = net.determinant := by
  have hw := wellFormed_ofLinear hf
  have hn := determinant_nonneg hf hs h
  have hc := consistent_of_eliminate hw h
  refine ⟨hn, net.determinant_eq, fun layout hl => ?_, fun order' settings' net' h' => ?_⟩
  case refine_1 =>
    have ⟨a, ha⟩ := exists_augmentedJacobian hw hc hl
    have hsq := sq_determinant hf hs h ha
    refine ⟨a, ha, hsq, ?_⟩
    rw [← det_gram_eq_zero_iff, ← hsq, sq_eq_zero_iff]
  case refine_2 =>
    have ⟨_, _, _, ho⟩ := run_of_eliminate hw h
    have ⟨a, ha⟩ := exists_augmentedJacobian hw hc ho
    rw [← sq_eq_sq₀ (determinant_nonneg hf hs h') hn, sq_determinant hf hs h ha,
      sq_determinant hf hs h' ha]

theorem determinant_eliminate_measured :
    ∃ net a, (ofLinear (measured 1)).eliminate ⟨[1, 0], by decide⟩ ⟨0, 0, true⟩ = .ok net ∧
      (ofLinear (measured 1)).augmentedJacobian ⟨[1, 0], by decide⟩ = .ok a ∧ 0 < net.determinant ∧
      net.determinant = (net.conditionals.map (·.determinant)).prod ∧
      net.determinant ^ 2 = (a.coefficientsᵀ * a.coefficients).det ∧
      ∀ order' settings' net', (ofLinear (measured 1)).eliminate order' settings' = .ok net' →
        net'.determinant = net.determinant := by
  have hf := wellFormed_measured zero_le_one
  obtain ⟨net, h⟩ := exists_eliminate_measured zero_le_one 0
  obtain ⟨hn, hp, hl, hu⟩ := determinant_eliminate hf (by simp [measured]) h
  obtain ⟨a, ha, hsq, h0⟩ := hl ⟨[1, 0], by decide⟩ (mem_keys_measured zero_le_one)
  have hr := (rank_coefficients_iff (wellFormed_ofLinear hf) ha).mpr (separates_measured 1)
  exact ⟨net, a, h, ha, hn.lt_of_ne' fun he => (h0.mp he).ne hr, hp, hsq, hu⟩

end FactorGraph
end LinearGaussian
