import LinearGaussian.Proofs.Derivative
import LinearGaussian.Proofs.NetMatrix
import LinearGaussian.BayesNet.Solve

namespace LinearGaussian

open LinearFactor Measurement Outcome

section Parabola

variable {a n k : ℝ}

noncomputable def lowest (n k : ℝ) : ℝ :=
  if k = 0 then 0 else -n / k

theorem eq_zero_of_line_nonneg (h : ∀ t, 0 ≤ a + 2 * n * t) : n = 0 := by
  by_contra hn
  have hv : a + 2 * n * (-(a + 1) / (2 * n)) = -1 := by
    field_simp
    ring
  linarith [h (-(a + 1) / (2 * n))]

theorem eq_zero_of_parabola_nonneg (h : ∀ t, 0 ≤ a + 2 * n * t + k * t ^ 2) (hk : k = 0) :
    n = 0 := by
  subst hk
  exact eq_zero_of_line_nonneg fun t => by simpa using h t

theorem lowest_eq_zero_iff : lowest n k = 0 ↔ n = 0 ∨ k = 0 := by
  by_cases hk : k = 0 <;> simp [lowest, hk]

theorem parabola_lowest_le (hk : 0 ≤ k) (h : ∀ t, 0 ≤ a + 2 * n * t + k * t ^ 2) (t : ℝ) :
    a + 2 * n * lowest n k + k * lowest n k ^ 2 ≤ a + 2 * n * t + k * t ^ 2 := by
  by_cases h0 : k = 0
  case pos => simp [eq_zero_of_parabola_nonneg h h0, h0]
  case neg =>
    rw [lowest, if_neg h0]
    have hd : a + 2 * n * t + k * t ^ 2 - (a + 2 * n * (-n / k) + k * (-n / k) ^ 2) =
        k * (t + n / k) ^ 2 := by
      field_simp
      ring
    have := mul_nonneg hk (sq_nonneg (t + n / k))
    linarith

end Parabola

namespace Assignment

variable {x : Assignment ℝ} {dims : KeyMap Nat}

theorem normSq_eq (hx : x.map (·.size) = dims) :
    x.normSq = (dims.entries.map fun w => ∑ j ∈ Finset.range w.2, x.point w.1 j ^ 2).sum := by
  have hs : x.normSq = (x.entries.map fun e => Vec.normSq e.2).sum := by
    rw [List.sum_eq_foldl, List.foldl_map]
    rfl
  cases hx
  rw [hs, KeyMap.map, List.map_map]
  refine congrArg List.sum (List.map_congr_left fun e he => ?_)
  simp only [Function.comp_apply, Vec.normSq_eq, point_eq (get?_of_mem_entries he)]

theorem dot_self (x : Assignment ℝ) : x.dot x = .ok x.normSq := by
  rw [dot_eq rfl rfl, normSq_eq rfl]
  simp only [pow_two]

theorem normSq_eq_zero_iff : x.normSq = 0 ↔ x = x.zeroLike := by
  obtain ⟨hf, hn⟩ := shape_iff.mp (rfl : x.map (·.size) = x.map (·.size))
  rw [eq_zeroLike_iff hf hn, normSq_eq rfl]
  constructor
  case mp =>
    intro h w hw j hj
    have hsum := List.all_zero_of_le_zero_le_of_sum_eq_zero
      (List.forall_mem_map.mpr fun w _ => Finset.sum_nonneg fun j _ => sq_nonneg _) h
        (List.mem_map_of_mem hw)
    have hsq :=
      (Finset.sum_eq_zero_iff_of_nonneg fun j _ => sq_nonneg _).mp hsum j (Finset.mem_range.mpr hj)
    exact pow_eq_zero_iff two_ne_zero |>.mp hsq
  case mpr =>
    intro h
    refine List.sum_eq_zero (List.forall_mem_map.mpr fun w hw => Finset.sum_eq_zero fun j hj => ?_)
    rw [h w hw j (Finset.mem_range.mp hj), zero_pow two_ne_zero]

theorem scale_zero (x : Assignment ℝ) : x.scale 0 = x.zeroLike := by
  apply KeyMap.ext_get?
  intro k
  rw [scale, zeroLike, KeyMap.get?_map, KeyMap.get?_map]
  congr 1
  funext v
  apply Array.ext <;> simp [Vec.scale, Vec.zeros, Vec.fill]

theorem normSq_scale (x : Assignment ℝ) (t : ℝ) : (x.scale t).normSq = t ^ 2 * x.normSq := by
  rw [normSq_eq (x.shape_scale t), normSq_eq rfl, x.point_scale, ← List.sum_map_mul_left]
  refine congrArg List.sum (List.map_congr_left fun w _ => ?_)
  rw [Finset.mul_sum]
  exact Finset.sum_congr rfl fun j _ => mul_pow ..

theorem shape_zeros (dims : KeyMap Nat) :
    (zeros dims.entries : Assignment ℝ).map (·.size) = dims := by
  apply KeyMap.ext_get?
  intro k
  rw [KeyMap.get?_map, get?_zeros, Option.map_map]
  cases dims.get? k
  case none => rfl
  case some d => simp [Vec.zeros, Vec.fill]

theorem point_zeros (dims : KeyMap Nat) : (zeros dims.entries : Assignment ℝ).point = 0 := by
  funext k j
  rw [point, get?_zeros]
  cases dims.get? k
  case none => rfl
  case some d => by_cases hj : j < d <;> simp [Vec.zeros, Vec.fill, hj]

end Assignment

namespace LinearFactor

variable {f : LinearFactor ℝ} {x : Assignment ℝ}

theorem image_zero (f : LinearFactor ℝ) (i : Nat) : f.image i 0 = 0 := by
  simp [image]

theorem image_augmentedJacobian_stackTo (h : f.WellFormed) {i : Nat} (hi : i < f.rows) (p : Point) :
    (f.augmentedJacobian true).image (stackTo 0 f.dims p) i =
      f.image i p * NoiseModel.weightOf (f.sigmas.getD i 1) := by
  have hadd : (f.augmentedJacobian true).image (stack f.dims p) i =
      (f.augmentedJacobian true).image (stack f.dims 0) i +
        (f.augmentedJacobian true).image (stackTo 0 f.dims p) i := by
    rw [Mat.image, Mat.image, Mat.image, ← Finset.sum_add_distrib]
    refine Finset.sum_congr rfl fun j _ => ?_
    have hs := stack_add f.dims 0 p 1 j
    rw [zero_add, one_smul, one_mul] at hs
    rw [hs, mul_add]
  rw [Factor.image_augmentedJacobian h hi, Factor.image_augmentedJacobian h hi, residual_eq_image,
    residual_eq_image, image_zero] at hadd
  linarith

theorem multiply_eq (h : f.WellFormed) (hx : x.Fits f.dims) :
    ∃ z, f.multiply x = .ok z ∧
      Vec.normSq z = f.augmentedInformation.form (stackTo 0 f.dims x.point)
        (stackTo 0 f.dims x.point) := by
  have hzeros : (Vec.zeros f.rows : Array ℝ).size = f.ab.rows := by simp [Vec.zeros, Vec.fill, rows]
  obtain ⟨u, hu, hus, hue⟩ := addBlocks_drop h 1 (show x.Fits (f.dims.drop 0) from hx) hzeros
  simp only [List.drop_zero, Nat.zero_add] at hu hue
  obtain ⟨z, hz, hzs, hze⟩ := whitenVec_eq h hus
  refine ⟨z, bind_eq_ok.mpr ⟨u, hu, hz⟩, ?_⟩
  rw [Vec.normSq_eq, hzs, augmentedInformation, Mat.form_gram, rows_augmentedJacobian]
  refine Finset.sum_congr rfl fun i hi => ?_
  have hi := Finset.mem_range.mp hi
  have hzero : (Vec.zeros f.rows : Array ℝ).getD i 0 = 0 := by simp [Vec.zeros, Vec.fill, hi]
  rw [image_augmentedJacobian_stackTo h hi, hze i hi, hue i hi, hzero, zero_add, one_mul, pow_two]
  rfl

end LinearFactor

namespace FactorGraph

variable {factors : List (LinearFactor ℝ)} {x grad : Assignment ℝ} {dims : KeyMap Nat} {p q : Point}

theorem form_ofLinear (factors : List (LinearFactor ℝ)) (c c' : ℝ) (p q : Point) :
    (ofLinear factors).form c c' p q =
      (factors.map fun f => f.augmentedInformation.form (stackTo c f.dims p)
        (stackTo c' f.dims q)).sum := by
  rw [form, ofLinear, List.map_map]
  rfl

theorem form_ofLinear_comm (factors : List (LinearFactor ℝ)) (c c' : ℝ) (p q : Point) :
    (ofLinear factors).form c c' p q = (ofLinear factors).form c' c q p := by
  rw [form_ofLinear, form_ofLinear]
  exact congrArg _ (List.map_congr_left fun f _ => Mat.form_comm (Mat.transpose_gram _) _ _)

theorem form_ofLinear_nonneg (factors : List (LinearFactor ℝ)) (c : ℝ) (p : Point) :
    0 ≤ (ofLinear factors).form c c p p := by
  rw [form_ofLinear]
  refine List.sum_nonneg (List.forall_mem_map.mpr fun f _ => ?_)
  rw [LinearFactor.augmentedInformation, Mat.form_gram]
  exact Finset.sum_nonneg fun i _ => mul_self_nonneg _

theorem exists_multiply (hf : ∀ f ∈ factors, f.WellFormed) (hx : ∀ f ∈ factors, x.Fits f.dims) :
    ∃ zs, (ofLinear factors).multiply x = .ok zs ∧
      zs.foldl (fun s e => s + Vec.normSq e) 0 = (ofLinear factors).form 0 0 x.point x.point := by
  have hz : ∃ zs, (ofLinear factors).multiply x = .ok zs ∧ (zs.map Vec.normSq).sum =
      (factors.map fun f => f.augmentedInformation.form (stackTo 0 f.dims x.point)
        (stackTo 0 f.dims x.point)).sum := by
    induction factors
    case nil => exact ⟨[], rfl, rfl⟩
    case cons f factors ih =>
      obtain ⟨hff, hf⟩ := List.forall_mem_cons.mp hf
      obtain ⟨hxf, hx⟩ := List.forall_mem_cons.mp hx
      obtain ⟨z, hz, hn⟩ := multiply_eq hff hxf
      obtain ⟨zs, hzs, hns⟩ := ih hf hx
      have hcons : (ofLinear (f :: factors)).multiply x = (do
          let z ← f.multiply x
          let zs ← (ofLinear factors).multiply x
          return z :: zs) := List.mapM_cons
      refine ⟨z :: zs, ?_, ?_⟩
      case refine_1 => rw [hcons, hz, ok_bind, hzs, ok_bind, pure_eq_ok]
      case refine_2 => rw [List.map_cons, List.sum_cons, List.map_cons, List.sum_cons, hn, hns]
  obtain ⟨zs, hzs, hn⟩ := hz
  refine ⟨zs, hzs, ?_⟩
  rw [form_ofLinear, ← hn, List.sum_eq_foldl, List.foldl_map]

-- The error along the gradient at zero, as a parabola.
theorem exists_parabola (hf : ∀ f ∈ factors, f.WellFormed)
    (hd : (ofLinear factors).dims = .ok dims) :
    ∃ grad zs a, (ofLinear factors).gradientAtZero = .ok grad ∧ grad.map (·.size) = dims ∧
      (ofLinear factors).multiply grad = .ok zs ∧ 0 ≤ zs.foldl (fun s e => s + Vec.normSq e) 0 ∧
        ∀ t, (ofLinear factors).error (grad.scale t) =
          .ok (1 / 2 * (a + 2 * grad.normSq * t +
            zs.foldl (fun s e => s + Vec.normSq e) 0 * t ^ 2)) ∧
        0 ≤ a + 2 * grad.normSq * t + zs.foldl (fun s e => s + Vec.normSq e) 0 * t ^ 2 := by
  have hb := built_ofLinear hf
  have hs := subset_entries (fun f hm => (hb f hm).wellFormed) hd
  obtain ⟨grad, hg, hshape, hdot⟩ := exists_gradient hb hd (Assignment.shape_zeros dims)
  have hfits {x : Assignment ℝ} (hx : x.map (·.size) = dims) : ∀ f ∈ (ofLinear factors).factors,
      x.Fits f.dims :=
    fun f hm => (Assignment.shape_iff.mp hx).left.mono (hs f hm)
  obtain ⟨zs, hzs, hk⟩ := exists_multiply hf fun f hm => hfits hshape _ (List.mem_map_of_mem hm)
  have hn : grad.normSq = (ofLinear factors).form 0 (-1) grad.point 0 := by
    have := grad.dot_self.symm.trans (hdot grad hshape)
    rwa [Assignment.point_zeros, Except.ok.injEq] at this
  -- The slope at zero along the gradient is its own square, as the matrix is symmetric.
  have hline (t : ℝ) : (ofLinear factors).form (-1) (-1) (t • grad.point) (t • grad.point) =
      (ofLinear factors).form (-1) (-1) 0 0 + 2 * grad.normSq * t +
        zs.foldl (fun s e => s + Vec.normSq e) 0 * t ^ 2 := by
    have ha := form_add (ofLinear factors) 0 grad.point t
    rw [zero_add, form_ofLinear_comm factors (-1) 0, ← hn, ← hk] at ha
    rw [ha]
    ring
  refine ⟨grad, zs, (ofLinear factors).form (-1) (-1) 0 0, ?_, hshape, hzs, ?_, fun t => ⟨?_, ?_⟩⟩
  case refine_1 => rw [gradientAtZero, hd, ok_bind, hg]
  case refine_2 =>
    rw [hk]
    exact form_ofLinear_nonneg factors 0 grad.point
  case refine_3 =>
    rw [error_eq_form hb (hfits ((grad.shape_scale t).trans hshape)), grad.point_scale, hline]
  case refine_4 =>
    rw [← hline]
    exact form_ofLinear_nonneg factors (-1) _

end FactorGraph

namespace BayesNet

variable {n : BayesNet ℝ} {step : Assignment ℝ} {dims : KeyMap Nat}

theorem optimizeGradientSearch_eq (hn : ∀ c ∈ n.conditionals, c.Valid)
    (hd : n.toFactorGraph.dims = .ok dims) :
    ∃ grad a k, n.gradientAtZero = .ok grad ∧ grad.map (·.size) = dims ∧
      n.optimizeGradientSearch = .ok (grad.scale (lowest grad.normSq k)) ∧ 0 ≤ k ∧ ∀ t,
        n.error (grad.scale t) = .ok (1 / 2 * (a + 2 * grad.normSq * t + k * t ^ 2)) ∧
        0 ≤ a + 2 * grad.normSq * t + k * t ^ 2 := by
  rw [FactorGraph.toFactorGraph_eq] at hd
  obtain ⟨grad, zs, a, hg, hs, hz, hk, he⟩ :=
    FactorGraph.exists_parabola (List.forall_mem_map.mpr fun c hc => (hn c hc).factor) hd
  rw [← FactorGraph.toFactorGraph_eq] at hg hz he
  refine ⟨grad, a, _, hg, hs, ?_, hk, he⟩
  simp only [optimizeGradientSearch, hg, hz, ok_bind, pure_eq_ok, lowest, beq_iff_eq]
  split
  case isTrue => rw [Assignment.scale_zero]
  case isFalse => rfl

-- The step is a multiple of the gradient at zero, and none of the others has a smaller error. It is
-- zero only if the gradient is.
theorem error_optimizeGradientSearch (hn : ∀ c ∈ n.conditionals, c.Valid)
    (h : n.optimizeGradientSearch = .ok step) :
    ∃ grad s e, n.gradientAtZero = .ok grad ∧ n.toFactorGraph.dims = .ok (grad.map (·.size)) ∧
      step = grad.scale s ∧ n.error step = .ok e ∧
      (∀ t, ∃ e', n.error (grad.scale t) = .ok e' ∧ e ≤ e') ∧
      (∃ e₀, n.error grad.zeroLike = .ok e₀ ∧ e ≤ e₀) ∧
      (step = grad.zeroLike ↔ grad = grad.zeroLike) := by
  obtain ⟨_, hg, _⟩ := bind_eq_ok.mp h
  obtain ⟨dims, hd, _⟩ := bind_eq_ok.mp hg
  obtain ⟨grad, a, k, hg, hs, hstep, hk, he⟩ := optimizeGradientSearch_eq hn hd
  cases hstep.symm.trans h
  have hle (t : ℝ) := parabola_lowest_le hk (fun t => (he t).right) t
  refine ⟨grad, _, _, hg, hs ▸ hd, rfl, (he _).left, fun t => ⟨_, (he t).left, ?_⟩,
    ⟨_, grad.scale_zero ▸ (he 0).left, ?_⟩, ⟨fun h0 => ?_, fun h0 => ?_⟩⟩
  case refine_1 => linarith [hle t]
  case refine_2 => linarith [hle 0]
  case refine_3 =>
    have hsq : lowest grad.normSq k ^ 2 * grad.normSq = 0 := by
      rw [← grad.normSq_scale, h0, ← grad.scale_zero, grad.normSq_scale, zero_pow two_ne_zero,
        zero_mul]
    rw [← Assignment.normSq_eq_zero_iff]
    obtain hl | hg := mul_eq_zero.mp hsq
    case inl =>
      obtain hg | hk := lowest_eq_zero_iff.mp (pow_eq_zero_iff two_ne_zero |>.mp hl)
      case inl => exact hg
      case inr => exact eq_zero_of_parabola_nonneg (fun t => (he t).right) hk
    case inr => exact hg
  case refine_4 =>
    rw [lowest_eq_zero_iff.mpr (.inl (Assignment.normSq_eq_zero_iff.mpr h0)), grad.scale_zero]

noncomputable def lone (sigma : ℝ) : BayesNet ℝ :=
  ⟨[{ Conditional.paired with model := ⟨#[sigma, 0, 1]⟩ }]⟩

theorem error_optimizeGradientSearch_lone :
    let n : BayesNet ℝ := lone 2
    (∀ c ∈ n.conditionals, c.Valid) ∧ ∃ step grad s e e₀, n.optimizeGradientSearch = .ok step ∧
      n.gradientAtZero = .ok grad ∧ step = grad.scale s ∧ n.error step = .ok e ∧
      (∀ t, ∃ e', n.error (grad.scale t) = .ok e' ∧ e ≤ e') ∧ n.error grad.zeroLike = .ok e₀ ∧
      e ≤ e₀ := by
  intro n
  have hn : ∀ c ∈ n.conditionals, c.Valid :=
    List.forall_mem_singleton.mpr
      { Conditional.valid_paired with dim := rfl, admissible := by simp }
  have hd : n.toFactorGraph.dims = .ok (KeyMap.ofList [(1, 2), (2, 1), (3, 1)]) := rfl
  obtain ⟨_, _, _, _, _, hstep, _⟩ := optimizeGradientSearch_eq hn hd
  obtain ⟨grad, s, e, hg, _, hs, he, hle, ⟨e₀, he₀, hle₀⟩, _⟩ :=
    error_optimizeGradientSearch hn hstep
  exact ⟨hn, _, grad, s, e, e₀, hstep, hg, hs, he, hle, he₀, hle₀⟩

end BayesNet
end LinearGaussian
