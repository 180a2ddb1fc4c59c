import LinearGaussian.Proofs.Run
import LinearGaussian.Proofs.Triangular

namespace LinearGaussian

open LinearFactor

theorem NoiseModel.size_scaleBySigma {α : Type} [Arith α] [RealLike α] (m : NoiseModel α)
    (v : Array α) :
    (m.scaleBySigma v).size = v.size := by
  simp [scaleBySigma]

theorem NoiseModel.weight_mul_scaleBySigma (m : NoiseModel ℝ) (v : Array ℝ) (i : Nat) :
    m.weight i * (m.scaleBySigma v).getD i 0 = v.getD i 0 := by
  by_cases hi : i < v.size
  case neg => simp [scaleBySigma, hi]
  case pos =>
    cases hs : m.sigmas[i]?
    case none => simp [scaleBySigma, weight, hi, hs]
    case some s =>
      by_cases h0 : s = 0
      case pos => simp [scaleBySigma, weight, weightOf_eq, hi, hs, h0]
      case neg =>
        have hw : m.weight i = 1 / s := by simp [weight, weightOf_eq, hs, h0]
        have hg : (m.scaleBySigma v).getD i 0 = v.getD i 0 * s := by simp [scaleBySigma, hi, hs, h0]
        rw [hw, hg]
        field_simp

theorem NoiseModel.weight_of_unit {m : NoiseModel ℝ} (h : ∀ s ∈ m.sigmas, s = 0 ∨ s = 1) (i : Nat) :
    m.weight i = 1 := by
  unfold weight
  split
  case h_1 s hs => cases h s (Array.mem_of_getElem? hs) <;> simp_all [weightOf_eq]
  case h_2 => rfl

namespace Conditional

section Pieces

variable {α : Type} {c : Conditional α} {x : Assignment α}

def pieces (c : Conditional α) (v : Array α) : List (Key × Array α) :=
  c.frontals.zipIdx.map fun e => (e.1, v.extract (c.rsd.offsetAt e.2) (c.rsd.offsetAt (e.2 + 1)))

theorem keys_pieces (c : Conditional α) (v : Array α) : (pieces c v).map (·.1) = c.frontals := by
  rw [pieces, List.map_map]
  exact List.zipIdx_map_fst 0 c.frontals

theorem scatter_eq (c : Conditional α) (v : Array α) (x : Assignment α) :
    c.scatter v x = (pieces c v).foldl (fun x e => x.insert e.1 e.2) x := by
  rw [scatter, pieces, List.foldl_map]

theorem mem_keys_scatter {v : Array α} {k : Key} :
    k ∈ (c.scatter v x).keys ↔ k ∈ c.frontals ∨ k ∈ x.keys := by
  rw [scatter_eq, KeyMap.mem_keys_foldl_insert, keys_pieces]

theorem lookup_reverse_pieces_eq_none_iff {v : Array α} {k : Key} :
    KeyMap.lookup k (pieces c v).reverse = none ↔ k ∉ c.frontals := by
  rw [KeyMap.lookup_eq_none_iff, List.map_reverse, List.mem_reverse, keys_pieces]

theorem get?_scatter_of_not_mem (c : Conditional α) (v : Array α) (x : Assignment α) {k : Key}
    (hk : k ∉ c.frontals) :
    (c.scatter v x).get? k = x.get? k := by
  rw [scatter_eq, KeyMap.get?_foldl_insert_reverse, lookup_reverse_pieces_eq_none_iff.mpr hk,
    Option.none_or]

theorem get?_scatter_congr (v : Array α) (x y : Assignment α) {k : Key} (hk : k ∈ c.frontals) :
    (c.scatter v x).get? k = (c.scatter v y).get? k := by
  have hl : KeyMap.lookup k (pieces c v).reverse ≠ none :=
    fun hn => lookup_reverse_pieces_eq_none_iff.mp hn hk
  obtain ⟨u, hu⟩ := Option.ne_none_iff_exists'.mp hl
  rw [scatter_eq, scatter_eq, KeyMap.get?_foldl_insert_reverse, KeyMap.get?_foldl_insert_reverse,
    hu, Option.some_or, Option.some_or]

end Pieces

section Shape

variable {α : Type} [Arith α] [RealLike α] {c : Conditional α} {x : Assignment α}

-- A triangular system for the frontal variables, whatever the deviations of its rows are.
structure Triangular (c : Conditional α) : Prop where
  factor : c.toFactor.WellFormed
  le     : c.frontalCount ≤ c.keys.length
  square : c.rows = c.frontalDim
  upper  : ∀ i j, j < i → c.rsd.full.entry i j = 0

theorem WellFormed.triangular (h : c.WellFormed) : c.Triangular :=
  ⟨h.factor, h.le, h.square, h.upper⟩

theorem outcome_solveInPlace_eq (c : Conditional α) (x : Assignment α) :
    c.solveInPlace.outcome x = c.solveFor c.d x >>=
      fun v => .ok (c.scatter (c.model.scaleBySigma v) x) := by
  rw [solveInPlace, Edit.outcome_get_bind, Edit.outcome_lift_bind]
  rfl

theorem outcome_solveInPlace {v : Array α} (hv : c.solveFor c.d x = .ok v) :
    c.solveInPlace.outcome x = .ok (c.scatter (c.model.scaleBySigma v) x) := by
  rw [outcome_solveInPlace_eq, hv, Outcome.ok_bind]

namespace Triangular

variable {v : Array α} {k : Key}

theorem nodup_frontals (h : c.Triangular) : c.frontals.Nodup :=
  h.factor.nodup.sublist (List.take_sublist _ _)

theorem keys_frontalDims (h : c.Triangular) : c.frontalDims.map (·.1) = c.frontals :=
  Conditional.keys_frontalDims h.factor

theorem sum_frontalDims (h : c.Triangular) : (c.frontalDims.map (·.2)).sum = c.rows := by
  rw [h.square]
  exact (h.factor.offsetAt_eq h.le).symm

theorem not_mem_frontals (h : c.Triangular) {w : Key × Nat} (hw : w ∈ c.parentDims) :
    w.1 ∉ c.frontals := by
  have hn := h.factor.nodup
  rw [← h.factor.keys_dims, ← c.frontalDims_append_parentDims, List.map_append] at hn
  rw [← h.keys_frontalDims]
  intro hf
  exact (List.nodup_append.mp hn).right.right _ hf _ (List.mem_map_of_mem hw) rfl

theorem frontalCount_le (h : c.Triangular) : c.frontalCount ≤ c.rsd.count :=
  h.le.trans (Nat.le_of_lt (Nat.lt_of_lt_of_eq (Nat.lt_succ_self _) h.factor.count.symm))

theorem getElem_frontalDims (h : c.Triangular) {pos : Nat} (hp : pos < c.frontalDims.length) :
    ∃ (hk : pos < c.keys.length) (hw : pos < c.rsd.widths.length),
      c.frontalDims[pos] = (c.keys[pos], c.rsd.widths[pos]) ∧ c.frontals[pos]? = some c.keys[pos] ∧
        c.keys.idxOf c.keys[pos] = pos := by
  have hp' : pos < c.frontalCount ∧ pos < c.toFactor.dims.length := by simpa [frontalDims] using hp
  have hk : pos < c.keys.length := hp'.right.trans_eq h.factor.length_dims
  obtain ⟨_, hw, hd⟩ := h.factor.getElem_dims hk
  refine ⟨hk, hw, ?_, ?_, h.factor.nodup.idxOf_getElem pos hk⟩
  case refine_1 => exact List.getElem_take.trans hd
  case refine_2 => rw [frontals, List.getElem?_take_of_lt hp'.left, List.getElem?_eq_getElem hk]

theorem get?_scatter (h : c.Triangular) (v : Array α) (x : Assignment α) (k : Key) :
    (c.scatter v x).get? k = (KeyMap.lookup k (pieces c v)).or (x.get? k) := by
  rw [scatter_eq, KeyMap.get?_foldl_insert (keys_pieces c v ▸ h.nodup_frontals)]

theorem get?_scatter_of_mem (h : c.Triangular) (hv : v.size = c.rows) (x : Assignment α)
    {w : Key × Nat} (hw : w ∈ c.frontalDims) :
    ∃ u, (c.scatter v x).get? w.1 = some u ∧ u.size = w.2 ∧
      ∀ j < w.2, u.getD j 0 = v.getD (c.rsd.offsetAt (c.keys.idxOf w.1) + j) 0 := by
  have ⟨pos, hp, hw⟩ := List.mem_iff_getElem.mp hw
  have ⟨_, hl, hd, hf, hi⟩ := h.getElem_frontalDims hp
  have hs := c.rsd.offsetAt_succ hl
  have hle : c.rsd.offsetAt (pos + 1) ≤ v.size := by
    rw [hv, h.square]
    refine c.rsd.offsetAt_mono ?_
    simp [frontalDims] at hp
    omega
  cases hw.symm.trans hd
  have hm : (c.keys[pos], v.extract (c.rsd.offsetAt pos) (c.rsd.offsetAt (pos + 1))) ∈ pieces c v :=
    List.mem_map.mpr ⟨(c.keys[pos], pos), List.mem_zipIdx_iff_getElem?.mpr hf, rfl⟩
  have hk := (KeyMap.lookup_eq_some_iff (keys_pieces c v ▸ h.nodup_frontals)).mpr hm
  refine ⟨_, by rw [h.get?_scatter, hk, Option.some_or], ?_, fun j hj => ?_⟩
  case refine_1 =>
    rw [Array.size_extract]
    omega
  case refine_2 =>
    have hj : j < min (c.rsd.offsetAt (pos + 1)) v.size - c.rsd.offsetAt pos := by omega
    have hj' : c.rsd.offsetAt pos + j < v.size := by omega
    simp [hi, hj, hj']

theorem exists_solveFor (h : c.Triangular) (hx : x.Fits c.parentDims) :
    ∃ v, c.solveFor c.d x = .ok v ∧ v.size = c.rows := by
  have hs : c.d.size = c.rsd.rows := by simp [d, rows]
  obtain ⟨y, hy, hys⟩ := h.factor.exists_addBlocks (-1) hx hs
  obtain ⟨w, hw, _, _, _, hrows, hcols⟩ := c.rsd.blocks_eq h.frontalCount_le
  obtain ⟨v, hv, hvs⟩ :=
    Window.exists_solveUpper (hrows.trans (h.square.trans hcols.symm)) (hys.trans hrows.symm)
  exact ⟨v, Outcome.bind_eq_ok.mpr ⟨y, hy, Outcome.bind_eq_ok.mpr ⟨w, hw, hv⟩⟩, hvs.trans hrows⟩

theorem exists_solve (h : c.Triangular) (hx : x.Fits c.parentDims) :
    ∃ y, c.solveInPlace.outcome x = .ok y ∧ (∀ k, k ∈ y.keys ↔ k ∈ c.frontals ∨ k ∈ x.keys) ∧
      y.Fits c.frontalDims ∧
      ∀ k ∉ c.frontals, y.get? k = x.get? k := by
  have ⟨v, hv, hs⟩ := h.exists_solveFor hx
  have hs : (c.model.scaleBySigma v).size = c.rows := by rw [NoiseModel.size_scaleBySigma, hs]
  refine ⟨_, outcome_solveInPlace hv, fun k => mem_keys_scatter, fun w hw => ?_,
    fun k => c.get?_scatter_of_not_mem _ x⟩
  have ⟨u, hu, hus, _⟩ := h.get?_scatter_of_mem hs x hw
  exact ⟨u, hu, hus⟩

end Triangular
end Shape

variable {c : Conditional ℝ} {x : Assignment ℝ} {p q : Point}

noncomputable def frontalBlock (c : Conditional ℝ) (i j : Fin c.rows) : ℝ :=
  c.rsd.full.entry i j

noncomputable def fromParents (c : Conditional ℝ) (i : Nat) (p : Point) : ℝ :=
  (c.parentDims.map fun w => ∑ j ∈ Finset.range w.2, c.toFactor.coefficient w.1 i j * p w.1 j).sum

-- What row `i` of `R` times the frontal variables has to be, given the parents.
noncomputable def given (c : Conditional ℝ) (i : Nat) (p : Point) : ℝ :=
  c.rsd.full.entry i (c.rsd.offsetAt c.keys.length) - c.fromParents i p

noncomputable def place (c : Conditional ℝ) (v : Nat → ℝ) (p : Point) : Point :=
  fun k => if k ∈ c.frontals then c.toFactor.unstack v k else p k

def Meets (c : Conditional ℝ) (p : Point) : Prop :=
  ∀ i < c.rows, c.toFactor.residual i p = 0

theorem place_of_not_mem {v : Nat → ℝ} {k : Key} (hk : k ∉ c.frontals) : c.place v p k = p k :=
  if_neg hk

theorem given_congr (h : Point.EqOn c.parentDims p q) (i : Nat) : c.given i p = c.given i q := by
  unfold given fromParents
  congr 2
  apply List.map_congr_left
  intro w hw
  apply Finset.sum_congr rfl
  intro j hj
  rw [h w hw j (Finset.mem_range.mp hj)]

theorem given_eq_zero {i : Nat} (h : ∀ j, c.rsd.full.entry i j = 0) : c.given i p = 0 := by
  have hc (k : Key) (j : Nat) : c.toFactor.coefficient k i j = 0 := by
    unfold coefficient
    split
    case h_1 => exact h _
    case h_2 => rfl
  simp [given, fromParents, h, hc]

theorem diagonal_ne_zero_iff :
    (∀ a ∈ c.diagonal, a ≠ 0) ↔ ∀ i < c.rows, c.rsd.full.entry i i ≠ 0 := by
  simp [diagonal]

namespace Triangular

theorem image_eq (h : c.Triangular) (i : Nat) (p : Point) :
    c.toFactor.image i p =
      ∑ j ∈ Finset.range c.rows, c.rsd.full.entry i j * stack c.frontalDims p j +
        c.fromParents i p := by
  have ht := sum_take h.factor h.le i p
  have hr : c.rows = c.toFactor.ab.offsetAt c.frontalCount := h.square
  rw [image, ← c.frontalDims_append_parentDims, List.map_append, List.sum_append,
    frontalDims, ht, hr]
  rfl

theorem residual_eq (h : c.Triangular) (i : Nat) (p : Point) :
    c.toFactor.residual i p =
      ∑ j ∈ Finset.range c.rows, c.rsd.full.entry i j * stack c.frontalDims p j - c.given i p := by
  rw [residual_eq_image, h.image_eq, given, ← sub_add]
  simp only [toFactor]
  ring

theorem stack_place (h : c.Triangular) (v : Nat → ℝ) (p : Point) {j : Nat} (hj : j < c.rows) :
    stack c.frontalDims (c.place v p) j = v j := by
  have he : Point.EqOn c.frontalDims (c.place v p) (c.toFactor.unstack v) := by
    intro w hw j _
    rw [place, if_pos (h.keys_frontalDims ▸ List.mem_map_of_mem hw)]
  rw [eqOn_iff_stack.mp he j (h.sum_frontalDims.symm ▸ hj)]
  exact stack_unstack h.factor h.le v (hj.trans_eq h.square)

theorem meets_place (h : c.Triangular) {v : Nat → ℝ}
    (hv : ∀ i < c.rows, ∑ j ∈ Finset.range c.rows, c.rsd.full.entry i j * v j = c.given i p) :
    c.Meets (c.place v p) := by
  intro i hi
  have hg : c.given i (c.place v p) = c.given i p := by
    apply given_congr
    intro w hw j _
    rw [place_of_not_mem (h.not_mem_frontals hw)]
  have hs : ∑ j ∈ Finset.range c.rows, c.rsd.full.entry i j * stack c.frontalDims (c.place v p) j =
      ∑ j ∈ Finset.range c.rows, c.rsd.full.entry i j * v j := by
    apply Finset.sum_congr rfl
    intro j hj
    rw [h.stack_place v p (Finset.mem_range.mp hj)]
  rw [h.residual_eq, hs, hg, hv i hi, sub_self]

theorem solveFor_eq (h : c.Triangular) (hd : ∀ a ∈ c.diagonal, a ≠ 0) {b : Array ℝ}
    (hb : b.size = c.rows) (hx : x.Fits c.parentDims) :
    ∃ v, c.solveFor b x = .ok v ∧ v.size = c.rows ∧ ∀ i < c.rows,
      ∑ j ∈ Finset.range c.rows, c.rsd.full.entry i j * v.getD j 0 =
        b.getD i 0 - c.fromParents i x.point := by
  have ⟨y, hy, hys, hye⟩ := addBlocks_drop h.factor (-1) hx hb
  have ⟨w, hw, hbase, hrow, hcol, hrows, hcols⟩ := c.rsd.blocks_eq h.frontalCount_le
  have hrows : w.rows = c.rows := hrows
  have hu : ∀ i j, j < i → w.base.entry (w.row + i) (w.col + j) = 0 := by
    simpa [hbase, hrow, hcol] using h.upper
  have hd : ∀ i < w.rows, w.base.entry (w.row + i) (w.col + i) ≠ 0 := by
    simpa [hbase, hrow, hcol, hrows] using diagonal_ne_zero_iff.mp hd
  have ⟨v, hv, hvs, hve⟩ :=
    Window.solveUpper_eq (hrows.trans (h.square.trans hcols.symm)) (hys.trans hrows.symm) hu hd
  refine ⟨v, ?_, hvs.trans hrows, fun i hi => ?_⟩
  case refine_1 => exact Outcome.bind_eq_ok.mpr ⟨y, hy, Outcome.bind_eq_ok.mpr ⟨w, hw, hv⟩⟩
  case refine_2 =>
    have hi' : i < w.rows := hi.trans_eq hrows.symm
    have he := hve i hi'
    simp only [hbase, hrow, hcol, hrows, Nat.zero_add, hye i hi] at he
    rw [he, neg_one_mul, ← sub_eq_add_neg]
    rfl

theorem solveFor_d (h : c.Triangular) (hd : ∀ a ∈ c.diagonal, a ≠ 0) (hx : x.Fits c.parentDims) :
    ∃ v, c.solveFor c.d x = .ok v ∧ v.size = c.rows ∧
      ∀ i < c.rows, ∑ j ∈ Finset.range c.rows, c.rsd.full.entry i j * v.getD j 0 =
        c.given i x.point := by
  have ⟨v, hv, hs, he⟩ := h.solveFor_eq hd (show c.d.size = c.rows by simp [d]) hx
  refine ⟨v, hv, hs, fun i hi => ?_⟩
  rw [he i hi, given]
  simp [d, hi]

theorem point_scatter (h : c.Triangular) {v : Array ℝ} (hv : v.size = c.rows) (x : Assignment ℝ) :
    Point.EqOn c.toFactor.dims (c.scatter v x).point (c.place (v.getD · 0) x.point) := by
  intro w hw j hj
  rw [← c.frontalDims_append_parentDims] at hw
  cases List.mem_append.mp hw
  case inl hw =>
    have ⟨u, hu, _, he⟩ := h.get?_scatter_of_mem hv x hw
    have hf : w.1 ∈ c.frontals := h.keys_frontalDims ▸ List.mem_map_of_mem hw
    rw [Assignment.point_eq hu, he j hj, place, if_pos hf]
    rfl
  case inr hw =>
    have hf := h.not_mem_frontals hw
    rw [Assignment.point_congr (c.get?_scatter_of_not_mem v x hf), place_of_not_mem hf]

theorem stack_scatter (h : c.Triangular) {v : Array ℝ} (hv : v.size = c.rows) (x : Assignment ℝ)
    {j : Nat} (hj : j < c.rows) : stack c.frontalDims (c.scatter v x).point j = v.getD j 0 := by
  have he := (h.point_scatter hv x).mono (List.take_subset c.frontalCount _)
  rw [frontalDims, eqOn_iff_stack.mp he j (h.sum_frontalDims.symm ▸ hj)]
  exact h.stack_place _ _ hj

section Points

theorem frontalBlock_upper (h : c.Triangular) : ∀ i j, j < i → c.frontalBlock i j = 0 :=
  fun i j hij => h.upper i j hij

theorem residual_sub_eq (h : c.Triangular) (hpq : Point.EqOn c.parentDims p q) (i : Fin c.rows) :
    c.toFactor.residual i p - c.toFactor.residual i q =
      ∑ j, c.frontalBlock i j * stack c.frontalDims p j -
        ∑ j, c.frontalBlock i j * stack c.frontalDims q j := by
  rw [h.residual_eq, h.residual_eq, given_congr hpq, sub_sub_sub_cancel_right, Finset.sum_range,
    Finset.sum_range]
  rfl

theorem eqOn_of_residual (h : c.Triangular) (hd : ∀ a ∈ c.diagonal, a ≠ 0)
    (hpq : Point.EqOn c.parentDims p q)
    (hr : ∀ i < c.rows, c.toFactor.residual i p = c.toFactor.residual i q) :
    Point.EqOn c.frontalDims p q := by
  rw [eqOn_iff_stack, h.sum_frontalDims]
  have hs (i : Fin c.rows) :
      ∑ j, c.frontalBlock i j * stack c.frontalDims p j =
        ∑ j, c.frontalBlock i j * stack c.frontalDims q j := by
    rw [← sub_eq_zero, ← h.residual_sub_eq hpq, hr i i.isLt, sub_self]
  have he := eq_of_sum_eq h.frontalBlock_upper (fun i => diagonal_ne_zero_iff.mp hd i i.isLt) hs
  exact fun j hj => congrFun he ⟨j, hj⟩

-- If the diagonal has no zero, the values that are found meet the rows just if the deviations do
-- not scale them.
theorem meets_solve_iff (h : c.Triangular) (hd : ∀ a ∈ c.diagonal, a ≠ 0) (hx : x.Fits c.parentDims)
    {y : Assignment ℝ} (hy : c.solveInPlace.outcome x = .ok y) :
    c.Meets y.point ↔ ∀ i < c.rows, c.model.weight i * stack c.frontalDims y.point i =
      stack c.frontalDims y.point i := by
  have ⟨v, hv, hs, he⟩ := h.solveFor_d hd hx
  cases hy.symm.trans (outcome_solveInPlace hv)
  have hs : (c.model.scaleBySigma v).size = c.rows := by rw [NoiseModel.size_scaleBySigma, hs]
  have hq := h.meets_place he
  have hp : Point.EqOn c.parentDims (c.scatter (c.model.scaleBySigma v) x).point
      (c.place (v.getD · 0) x.point) := by
    intro w hw j _
    have hf := h.not_mem_frontals hw
    rw [Assignment.point_congr (c.get?_scatter_of_not_mem _ x hf), place_of_not_mem hf]
  -- Without the scaling, the values meet the rows, and no others do.
  have hm : c.Meets (c.scatter (c.model.scaleBySigma v) x).point ↔
      Point.EqOn c.frontalDims (c.scatter (c.model.scaleBySigma v) x).point
        (c.place (v.getD · 0) x.point) := by
    constructor
    case mp => exact fun hm => h.eqOn_of_residual hd hp fun i hi => (hm i hi).trans (hq i hi).symm
    case mpr =>
      intro hf i hi
      have hpq := List.forall_mem_append.mpr ⟨hf, hp⟩
      rw [c.frontalDims_append_parentDims] at hpq
      rw [residual_congr hpq, hq i hi]
  rw [hm, eqOn_iff_stack, h.sum_frontalDims]
  refine forall₂_congr fun i hi => ?_
  rw [h.stack_scatter hs x hi, h.stack_place _ _ hi, c.model.weight_mul_scaleBySigma, eq_comm]

-- The rows can be met, whatever the values of the other variables are, if those with a zero on the
-- diagonal are zero.
theorem exists_meets (h : c.Triangular)
    (h0 : ∀ i < c.rows, c.rsd.full.entry i i = 0 → ∀ j, c.rsd.full.entry i j = 0) (p : Point) :
    ∃ q, (∀ k ∉ c.frontals, q k = p k) ∧ c.Meets q := by
  -- A zero row holds anyway, so any other entry will do on its diagonal.
  let r (i j : Fin c.rows) : ℝ := if i = j ∧ c.frontalBlock i i = 0 then 1 else c.frontalBlock i j
  have hu : ∀ i j, j < i → r i j = 0 := by
    intro i j hij
    rw [← h.frontalBlock_upper i j hij]
    exact if_neg fun he => hij.ne' he.left
  have hd : ∀ i, r i i ≠ 0 := by
    intro i
    by_cases hi : c.frontalBlock i i = 0 <;> simp [r, hi]
  have hs := sum_solveUpper hu hd (Vector.ofFn fun i => c.given i p)
  refine ⟨c.place ((solveUpper r (Vector.ofFn fun i => c.given i p)).toArray.getD · 0) p,
    fun _ => place_of_not_mem, h.meets_place fun i hi => ?_⟩
  by_cases hz : c.rsd.full.entry i i = 0
  case pos =>
    rw [given_eq_zero (h0 i hi hz)]
    exact Finset.sum_eq_zero fun j _ => by rw [h0 i hi hz, zero_mul]
  case neg =>
    rw [Finset.sum_range]
    simpa [r, frontalBlock, hz] using hs ⟨i, hi⟩

theorem exists_unseen (h : c.Triangular) (hd : ¬∀ a ∈ c.diagonal, a ≠ 0) :
    ∃ p q : Point, (∀ k ∉ c.frontals, p k = q k) ∧
      (∀ i < c.rows, c.toFactor.residual i p = c.toFactor.residual i q) ∧
      ¬Point.EqOn c.frontalDims p q := by
  have ⟨i, hi, h0⟩ : ∃ i < c.rows, c.rsd.full.entry i i = 0 := by
    simpa [diagonal_ne_zero_iff] using hd
  have ⟨z, hz, hs⟩ := exists_sum_eq_zero h.frontalBlock_upper (i := ⟨i, hi⟩) h0
  have hp (v : Nat → ℝ) (j : Fin c.rows) : stack c.frontalDims (c.place v 0) j = v j :=
    h.stack_place v 0 j.isLt
  have hv (j : Fin c.rows) : (if hj : j.val < c.rows then z ⟨j, hj⟩ else 0) = z j := dif_pos j.isLt
  have hoff (v : Nat → ℝ) (k : Key) (hk : k ∉ c.frontals) : c.place v 0 k = c.place 0 0 k := by
    rw [place_of_not_mem hk, place_of_not_mem hk]
  refine ⟨c.place (fun j => if hj : j < c.rows then z ⟨j, hj⟩ else 0) 0, c.place 0 0, hoff _,
    fun i hi => ?_, fun he => ?_⟩
  case refine_1 =>
    have hpq (v : Nat → ℝ) : Point.EqOn c.parentDims (c.place v 0) (c.place 0 0) :=
      fun w hw j _ => congrFun (hoff v w.1 (h.not_mem_frontals hw)) j
    rw [← sub_eq_zero]
    exact (h.residual_sub_eq (hpq _) ⟨i, hi⟩).trans (by simp [hp, hs])
  case refine_2 =>
    rw [eqOn_iff_stack, h.sum_frontalDims] at he
    apply hz
    funext j
    simpa [hp, hv] using he j j.isLt

end Points

end Triangular
end Conditional
end LinearGaussian
