import LinearGaussian.Proofs.ConditionedNet
import LinearGaussian.Proofs.Gradient
import LinearGaussian.Proofs.JointSystem
import LinearGaussian.Proofs.Substitution

namespace LinearGaussian

open LinearFactor Measurement

theorem weightOf_mul_eq_self_iff (s a : ℝ) :
    NoiseModel.weightOf s * a = a ↔ (s ≠ 0 → s ≠ 1 → a = 0) := by
  rw [weightOf_eq]
  by_cases h0 : s = 0
  case pos => simp [h0]
  case neg =>
    by_cases h1 : s = 1
    case pos => simp [h1]
    case neg =>
      simp only [h0, h1, if_false, ne_eq, not_false_eq_true, true_imp_iff]
      constructor
      case mp =>
        intro h
        rw [one_div_mul_eq_div, div_eq_iff h0] at h
        exact (mul_eq_zero.mp (show a * (s - 1) = 0 by linarith)).resolve_right (sub_ne_zero.mpr h1)
      case mpr => exact fun h => by rw [h, mul_zero]

-- Weights leave the values of the frontal variables as they are just if these are zero wherever a
-- deviation is neither zero nor one.
theorem Conditional.Triangular.weight_mul_iff {c : Conditional ℝ} {x : Assignment ℝ}
    (ht : c.Triangular) (hm : c.model.dim = c.rows) (hx : x.Fits c.frontalDims) :
    (∀ i < c.rows, c.model.weight i * stack c.frontalDims x.point i =
      stack c.frontalDims x.point i) ↔
      ∃ y, c.gather x = .ok y ∧
        ∀ (i : Nat) (s : ℝ), c.model.sigmas[i]? = some s → s ≠ 0 → s ≠ 1 → y[i]? = some 0 := by
  have hy {i : Nat} (hi : i < c.rows) :
      (coordinates c.frontalDims x.point)[i]? = some (stack c.frontalDims x.point i) :=
    getElem?_coordinates (ht.sum_frontalDims ▸ hi)
  simp only [Conditional.gather_eq hx, Except.ok.injEq, exists_eq_left']
  constructor
  case mp =>
    intro h i s hs h0 h1
    have hi : i < c.rows := hm ▸ (Array.getElem?_eq_some_iff.mp hs).choose
    have hw := h i hi
    rw [NoiseModel.weight, hs, weightOf_mul_eq_self_iff] at hw
    rw [hy hi, hw h0 h1]
  case mpr =>
    intro h i hi
    have hs := Array.getElem?_eq_getElem (show i < c.model.sigmas.size from hi.trans_eq hm.symm)
    rw [NoiseModel.weight, hs, weightOf_mul_eq_self_iff]
    intro h0 h1
    exact Option.some.inj ((hy hi).symm.trans (h i _ hs h0 h1))

noncomputable def jointResidual (ds : Widths) (cs : List (Conditional ℝ)) (l : Nat) (p : Point) :
    ℝ :=
  ∑ j ∈ Finset.range ((ds.map (·.2)).sum + 1), joint ds cs l j * stack ds p j

theorem jointResidual_eq (ds : Widths) (cs : List (Conditional ℝ)) (l : Nat) (p : Point) :
    jointResidual ds cs l p =
      ∑ j ∈ Finset.range (ds.map (·.2)).sum, joint ds cs l j * stack ds p j -
        joint ds cs l (ds.map (·.2)).sum := by
  rw [jointResidual, Finset.sum_range_succ, stack_sum, mul_neg_one, ← sub_eq_add_neg]

namespace Chain

variable {ds : Widths} {cs : List (Conditional ℝ)} {w : Key × Nat} {j : Nat}

theorem det_joint_ne_zero (h : Chain ds cs) (ht : ∀ c ∈ cs, c.Triangular)
    (hd : ∀ c ∈ cs, ∀ a ∈ c.diagonal, a ≠ 0) :
    (jointSquare ds cs).det ≠ 0 := by
  rw [h.det_joint ht]
  refine List.prod_ne_zero fun hm => ?_
  have ⟨c, hc, h0⟩ := List.mem_map.mp hm
  have ⟨i, hi, h0⟩ := Finset.prod_eq_zero_iff.mp h0
  have hw : c.model.weight i ≠ 0 := by
    unfold NoiseModel.weight
    split
    case h_1 => exact weightOf_ne_zero _
    case h_2 => exact one_ne_zero
  exact mul_ne_zero (Conditional.diagonal_ne_zero_iff.mp (hd c hc) i (Finset.mem_range.mp hi)) hw h0

theorem sum_slope (h : Chain ds cs) (hm : ∀ c ∈ cs, c.model.dim = c.rows) (hw : w ∈ ds)
    (hj : j < w.2) (p : Point) :
    (cs.map fun c => c.toFactor.slope p w.1 j).sum =
      ∑ l ∈ Finset.range (ds.map (·.2)).sum, joint ds cs l (ds.start w.1 + j) *
        jointResidual ds cs l p := by
  have hs := sum_joint ds cs fun row => row (ds.start w.1 + j) *
    ∑ i ∈ Finset.range ((ds.map (·.2)).sum + 1), row i * stack ds p i
  rw [h.rows_eq] at hs
  refine Eq.trans ?_ hs.symm
  congr 1
  apply List.map_congr_left
  intro c hc
  apply Finset.sum_congr rfl
  intro i hi
  rw [sum_spread_residual (h.closed.wellFormed c hc) h.closed.nodup (h.closed.subset c hc)]
  simp only [spread_start _ h.closed.nodup hw _ hj,
    Conditional.weight_eq (hm c hc) (Finset.mem_range.mp hi)]
  ring

theorem sum_slope_eq_zero_iff (h : Chain ds cs) (ht : ∀ c ∈ cs, c.Triangular)
    (hd : ∀ c ∈ cs, ∀ a ∈ c.diagonal, a ≠ 0) (hm : ∀ c ∈ cs, c.model.dim = c.rows) (p : Point) :
    (∀ w ∈ ds, ∀ j < w.2, (cs.map fun c => c.toFactor.slope p w.1 j).sum = 0) ↔
      ∀ l < (ds.map (·.2)).sum, jointResidual ds cs l p = 0 := by
  -- The gradient vanishes just where the joint matrix does not miss the point, as it is regular.
  constructor
  case mp =>
    intro hz
    have hv : (fun l : Fin (ds.map (·.2)).sum => jointResidual ds cs l p) = 0 := by
      refine Matrix.eq_zero_of_vecMul_eq_zero (h.det_joint_ne_zero ht hd) (funext fun i => ?_)
      have ⟨w, hw, j, hj, hi⟩ := Widths.exists_start h.closed.nodup i.isLt
      have hwj := hz w hw j hj
      rw [h.sum_slope hm hw hj, ← hi, Finset.sum_range] at hwj
      rw [Matrix.vecMul, dotProduct, Pi.zero_apply, ← hwj]
      exact Finset.sum_congr rfl fun l _ => mul_comm ..
    exact fun l hl => congrFun hv ⟨l, hl⟩
  case mpr =>
    intro hz w hw j hj
    rw [h.sum_slope hm hw hj]
    exact Finset.sum_eq_zero fun l hl => by rw [hz l (Finset.mem_range.mp hl), mul_zero]

theorem totalCost_eq_zero_iff (h : Chain ds cs) (hm : ∀ c ∈ cs, c.model.dim = c.rows) (p : Point) :
    totalCost (densityRows cs) p = 0 ↔ ∀ l < (ds.map (·.2)).sum, jointResidual ds cs l p = 0 := by
  have hr := h.closed.rating_joint hm p
  rw [rating_stack, h.rows_eq] at hr
  rw [← mul_eq_zero_iff_left (two_ne_zero' ℝ), ← hr,
    Finset.sum_eq_zero_iff_of_nonneg fun _ _ => sq_nonneg _]
  simp [jointResidual]

theorem mulVec_eq_iff (h : Chain ds cs) (p : Point) :
    (Mat.ofFn (ds.map (·.2)).sum (ds.map (·.2)).sum fun i j => joint ds cs i j).mulVec
      (coordinates ds p) =
        .ok (Array.ofFn fun i : Fin (cs.map (·.rows)).sum => joint ds cs i (ds.map (·.2)).sum) ↔
      ∀ l < (ds.map (·.2)).sum, jointResidual ds cs l p = 0 := by
  rw [mulVec_coordinates, h.rows_eq, Except.ok.injEq, ← Array.toList_inj, Array.toList_ofFn,
    Array.toList_ofFn, List.ofFn_inj, funext_iff, Fin.forall_iff]
  refine forall₂_congr fun l _ => ?_
  rw [jointResidual_eq, sub_eq_zero]

end Chain

namespace BayesNet

variable {n : BayesNet ℝ}

-- Densities of distinct variables that agree on all dimensions, with their parents later and no
-- zero on a diagonal. The deviations may be any.
structure Solvable (n : BayesNet ℝ) : Prop where
  valid      : ∀ c ∈ n.conditionals, c.Valid
  diagonal   : ∀ c ∈ n.conditionals, ∀ a ∈ c.diagonal, a ≠ 0
  nodup      : (n.conditionals.flatMap (·.frontals)).Nodup
  consistent : Widths.Consistent (n.conditionals.flatMap (·.toFactor.dims))
  later      : ParentsLater n.conditionals

theorem Regular.solvable (h : n.Regular) : n.Solvable :=
  ⟨h.valid, h.diagonal, h.nodup, h.consistent, h.later⟩

abbrev dims {α : Type} [Arith α] [RealLike α] (n : BayesNet α) : Widths :=
  n.conditionals.flatMap (·.frontalDims)

namespace Solvable

theorem triangular (h : n.Solvable) : ∀ c ∈ n.conditionals, c.Triangular :=
  fun c hc => (h.valid c hc).triangular

theorem chain (h : n.Solvable) : Chain n.dims n.conditionals :=
  h.later.chain h.valid h.nodup h.consistent

theorem exists_order (h : n.Solvable) : ∃ order, n.order = .ok order ∧ order.keys = n.dims.keys :=
  ⟨⟨_, h.nodup⟩, EliminationOrder.ofKeys_keys ⟨_, h.nodup⟩, (keys_flatMap_frontalDims h.valid).symm⟩

end Solvable

noncomputable def stretched : BayesNet ℝ :=
  ⟨[{ Conditional.paired with model := ⟨#[2, 0, 3]⟩ },
    ⟨[3], 1, BlockMatrix.ofFn 1 [1, 1] fun _ j => j + 1, ⟨#[1 / 2]⟩⟩]⟩

theorem solvable_stretched : stretched.Solvable := by
  have hl := regular_linked.solvable
  constructor
  case valid =>
    have ⟨hp, hq⟩ := List.forall_mem_cons.mp hl.valid
    have hq := List.forall_mem_singleton.mp hq
    refine List.forall_mem_cons.mpr ⟨{ hp with dim := rfl, admissible := ?_ },
      List.forall_mem_singleton.mpr
      { hq with dim := rfl, admissible := ?_ }⟩
    all_goals simp
  case diagonal =>
    have ⟨hp, hq⟩ := List.forall_mem_cons.mp hl.diagonal
    exact List.forall_mem_cons.mpr ⟨hp,
      List.forall_mem_singleton.mpr (List.forall_mem_singleton.mp hq)⟩
  case nodup => exact hl.nodup
  case consistent => exact hl.consistent
  case later => exact hl.later

noncomputable def directions : Assignment ℝ :=
  KeyMap.ofList [(1, #[1, 2]), (2, #[3]), (3, #[4]), (5, #[6])]

theorem fits_directions (n : BayesNet ℝ) (h : n.dims = [(1, 2), (2, 1), (3, 1)]) :
    directions.Fits n.dims := by
  simp only [Assignment.Fits, h, List.forall_mem_cons, List.not_mem_nil, false_imp_iff,
    implies_true, and_true]
  exact ⟨⟨_, rfl, rfl⟩, ⟨_, rfl, rfl⟩, ⟨_, rfl, rfl⟩⟩

-- Substitution from the first density to the last solves the transposed system.
theorem trMulVec_backSubstituteTranspose (h : n.Solvable) {x : Assignment ℝ} (hx : x.Fits n.dims) :
    ∃ order r d y u v, n.order = .ok order ∧ n.matrix = .ok (r, d) ∧
      n.backSubstituteTranspose x = .ok y ∧
      x.stacked order = .ok u ∧ y.stacked order = .ok v ∧ r.trMulVec v = .ok u := by
  have ⟨order, ho, hk⟩ := h.exists_order
  have ⟨z, hz, hzf, _, hze⟩ := h.chain.exists_solveTranspose h.triangular h.diagonal hx
  have ⟨y, hy, hyf, _, hye⟩ := h.chain.exists_scaleFrontals h.triangular hzf
  refine ⟨order, _, _, y, _, _, ho, matrix_eq h.chain.closed, ?_, Assignment.stacked_eq hx hk,
    Assignment.stacked_eq hyf hk, h.chain.trMulVec_joint fun w hw j hj => ?_⟩
  case refine_1 =>
    rw [backSubstituteTranspose, Edit.outcome_bind]
    exact Outcome.bind_eq_ok.mpr ⟨z, hz, hy⟩
  case refine_2 =>
    rw [← hze w hw j hj]
    congr 1
    apply List.map_congr_left
    intro c hc
    refine Finset.sum_congr rfl fun i hi => ?_
    rw [mul_assoc, hye c hc i (Finset.mem_range.mp hi)]

theorem trMulVec_backSubstituteTranspose_stretched :
    ∃ order r d y u v, stretched.order = .ok order ∧ stretched.matrix = .ok (r, d) ∧
      stretched.backSubstituteTranspose directions = .ok y ∧ directions.stacked order = .ok u ∧
      y.stacked order = .ok v ∧ r.trMulVec v = .ok u :=
  trMulVec_backSubstituteTranspose solvable_stretched (fits_directions _ rfl)

-- Substitution from the last density to the first solves the system, if all deviations are zero or
-- one. Values of other variables are kept.
theorem mulVec_backSubstitute (h : n.Regular) {x : Assignment ℝ} (hx : x.Fits n.dims) :
    ∃ order r d y u v, n.order = .ok order ∧ n.matrix = .ok (r, d) ∧ n.backSubstitute x = .ok y ∧
      x.stacked order = .ok u ∧ y.stacked order = .ok v ∧ r.mulVec v = .ok u ∧
      ∀ k ∉ n.conditionals.flatMap (·.frontals), y.get? k = x.get? k := by
  have ⟨order, ho, hk⟩ := h.solvable.exists_order
  have ⟨z, hz, hzf, hzo, hze⟩ := h.chain.exists_solveWithRhs h.triangular h.diagonal hx x
  have ⟨y, hy, hyf, hyo, hye⟩ := h.chain.exists_scaleFrontals h.triangular hzf
  have hw (c : Conditional ℝ) (hc : c ∈ n.conditionals) := NoiseModel.weight_of_unit (h.unit c hc)
  have hyz : Point.EqOn n.dims y.point z.point := by
    refine eqOn_iff_stack.mpr fun l hl => ?_
    have ⟨c, hc, i, hi, _, hs⟩ := h.chain.exists_row hl
    rw [hs, hs, ← hye c hc i hi, hw c hc, one_mul]
  refine ⟨order, _, _, y, _, _, ho, matrix_eq h.chain.closed, ?_, Assignment.stacked_eq hx hk,
    Assignment.stacked_eq hyf hk, h.chain.mulVec_joint fun c hc i hi => ?_, fun k hk => ?_⟩
  case refine_1 =>
    rw [backSubstitute, Edit.outcome_bind]
    exact Outcome.bind_eq_ok.mpr ⟨z, hz, hy⟩
  case refine_2 =>
    rw [hw c hc, mul_one, image_congr (hyz.mono (h.chain.closed.subset c hc)), hze c hc i hi]
  case refine_3 =>
    rw [← keys_flatMap_frontalDims h.valid] at hk
    rw [hyo k hk, hzo k hk]

theorem mulVec_backSubstitute_linked :
    ∃ order r d y u v, linked.order = .ok order ∧ linked.matrix = .ok (r, d) ∧
      linked.backSubstitute directions = .ok y ∧ directions.stacked order = .ok u ∧
      y.stacked order = .ok v ∧ r.mulVec v = .ok u ∧
      ∀ k ∉ linked.conditionals.flatMap (·.frontals), y.get? k = directions.get? k :=
  mulVec_backSubstitute regular_linked (fits_directions _ rfl)

-- The most likely values solve the system, have no error and no gradient just if they meet the rows
-- of all densities.
theorem Solvable.exists_optimize (h : n.Solvable) :
    ∃ x order r d v e g, n.optimize = .ok x ∧ n.order = .ok order ∧ n.matrix = .ok (r, d) ∧
      x.stacked order = .ok v ∧ n.error x = .ok e ∧ n.gradient x = .ok g ∧ x.Fits n.dims ∧
      (r.mulVec v = .ok d ↔ ∀ c ∈ n.conditionals, c.Meets x.point) ∧
      (e = 0 ↔ ∀ c ∈ n.conditionals, c.Meets x.point) ∧
      (g = g.zeroLike ↔ ∀ c ∈ n.conditionals, c.Meets x.point) := by
  have ⟨order, ho, hk⟩ := h.exists_order
  have ⟨x, hx, _, hf⟩ := h.chain.exists_optimize h.triangular
  have hw := h.chain.closed.wellFormed
  have hm (c : Conditional ℝ) (hc : c ∈ n.conditionals) := (h.valid c hc).dim
  have he := FactorGraph.error_densities hw fun c hc => hf.mono (h.chain.closed.subset c hc)
  have ⟨g, hg, hgn, hgf, hge⟩ :=
    FactorGraph.gradient_ofLinear (List.forall_mem_map.mpr hw) h.chain.closed.nodup ?_ hf
  case refine_1 =>
    intro w
    rw [List.flatMap_map]
    exact h.chain.closed.mem_dims_iff
  have hz : (∀ c ∈ n.conditionals, c.Meets x.point) ↔ _ :=
    Elimination.Run.totalCost_densityRows.symm.trans (h.chain.totalCost_eq_zero_iff hm x.point)
  refine ⟨x, order, _, _, _, _, g, hx, ho, matrix_eq h.chain.closed, Assignment.stacked_eq hf hk,
    he, ?_, hf, ?_, Elimination.Run.totalCost_densityRows, ?_⟩
  case refine_1 => rw [gradient, FactorGraph.toFactorGraph_eq, hg]
  case refine_2 => rw [hz, ← h.chain.mulVec_eq_iff]
  case refine_3 =>
    rw [hz, ← h.chain.sum_slope_eq_zero_iff h.triangular h.diagonal hm,
      Assignment.eq_zeroLike_iff hgf hgn]
    refine forall₂_congr fun w hw => forall₂_congr fun j hj => ?_
    rw [hge w hw j hj, List.map_map]
    rfl

-- They do so just if they are zero wherever a deviation is neither zero nor one.
theorem mulVec_optimize_iff (h : n.Solvable) :
    ∃ x order r d v e g, n.optimize = .ok x ∧ x.Fits n.dims ∧ n.order = .ok order ∧
      n.matrix = .ok (r, d) ∧ x.stacked order = .ok v ∧ n.error x = .ok e ∧ n.gradient x = .ok g ∧
      (r.mulVec v = .ok d ↔ e = 0) ∧ (g = g.zeroLike ↔ e = 0) ∧
      (e = 0 ↔ ∀ c ∈ n.conditionals, ∃ y, c.gather x = .ok y ∧
        ∀ (i : Nat) (s : ℝ), c.model.sigmas[i]? = some s → s ≠ 0 → s ≠ 1 → y[i]? = some 0) := by
  have ⟨x, order, r, d, v, e, g, hx, ho, hr, hv, he, hg, hf, hvd, he0, hg0⟩ := h.exists_optimize
  refine ⟨x, order, r, d, v, e, g, hx, hf, ho, hr, hv, he, hg, hvd.trans he0.symm,
    hg0.trans he0.symm, he0.trans ?_⟩
  refine forall₂_congr fun c hc => ?_
  rw [h.chain.meets_optimize_iff h.triangular h.diagonal hx c hc]
  exact (h.triangular c hc).weight_mul_iff (h.valid c hc).dim fun w hw =>
    hf w (List.mem_flatMap.mpr ⟨c, hc, hw⟩)

theorem mulVec_optimize_iff_stretched :
    ∃ x order r d v e g, stretched.optimize = .ok x ∧ x.Fits stretched.dims ∧
      stretched.order = .ok order ∧ stretched.matrix = .ok (r, d) ∧
      x.stacked order = .ok v ∧ stretched.error x = .ok e ∧ stretched.gradient x = .ok g ∧
      (r.mulVec v = .ok d ↔ e = 0) ∧ (g = g.zeroLike ↔ e = 0) ∧
      (e = 0 ↔ ∀ c ∈ stretched.conditionals, ∃ y, c.gather x = .ok y ∧
        ∀ (i : Nat) (s : ℝ), c.model.sigmas[i]? = some s → s ≠ 0 → s ≠ 1 → y[i]? = some 0) :=
  mulVec_optimize_iff solvable_stretched

noncomputable def doubled : BayesNet ℝ :=
  ⟨[⟨[1], 1, (scalarRow [1] [1] 1 2).ab, ⟨#[2]⟩⟩]⟩

theorem solvable_doubled : doubled.Solvable := by
  constructor
  case valid =>
    refine List.forall_mem_singleton.mpr
      ⟨by decide, rfl, rfl, by decide, rfl, rfl, fun i hi j hj => ?_, by simp⟩
    have hi : i < 1 := hi
    omega
  case diagonal =>
    refine List.forall_mem_singleton.mpr (Conditional.diagonal_ne_zero_iff.mpr fun i hi => ?_)
    cases Nat.lt_one_iff.mp hi
    rw [scalarRow, BlockMatrix.entry_ofFn _ Nat.one_pos Nat.two_pos]
    exact one_ne_zero
  case nodup => decide
  case consistent =>
    have hd : doubled.conditionals.flatMap (·.toFactor.dims) = [(1, 1)] := rfl
    rw [hd]
    unfold Widths.Consistent
    decide
  case later => exact ⟨by decide, trivial⟩

theorem mulVec_optimize_doubled :
    doubled.Solvable ∧ ∃ x order r d v e g, doubled.optimize = .ok x ∧ doubled.order = .ok order ∧
      doubled.matrix = .ok (r, d) ∧ x.stacked order = .ok v ∧ doubled.error x = .ok e ∧
      doubled.gradient x = .ok g ∧ r.mulVec v ≠ .ok d ∧ e ≠ 0 ∧ g ≠ g.zeroLike := by
  have ⟨x, order, r, d, v, e, g, hx, ho, hr, hv, he, hg, _, hvd, he0, hg0⟩ :=
    solvable_doubled.exists_optimize
  have hn : ¬∀ c ∈ doubled.conditionals, c.Meets x.point := by
    intro h
    have hc := h _ List.mem_cons_self
    have hp : 1 * x.point 1 0 - 1 = 0 :=
      (residual_scalarRow 1 1 1 2 x.point).symm.trans (hc 0 Nat.one_pos)
    -- The weight of the row leaves nothing but zero as it is.
    have hw : NoiseModel.weightOf 2 * x.point 1 0 = x.point 1 0 :=
      (solvable_doubled.chain.meets_optimize_iff solvable_doubled.triangular
        solvable_doubled.diagonal hx _ List.mem_cons_self).mp hc 0 Nat.one_pos
    have h0 := (weightOf_mul_eq_self_iff 2 (x.point 1 0)).mp hw two_ne_zero (by norm_num)
    rw [h0] at hp
    norm_num at hp
  exact ⟨solvable_doubled, x, order, r, d, v, e, g, hx, ho, hr, hv, he, hg, mt hvd.mp hn,
    mt he0.mp hn, mt hg0.mp hn⟩

end BayesNet
end LinearGaussian
