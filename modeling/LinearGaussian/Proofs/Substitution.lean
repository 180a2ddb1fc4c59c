import LinearGaussian.Proofs.BackSubstitution
import LinearGaussian.Proofs.Coordinates
import LinearGaussian.Proofs.Transposed
import LinearGaussian.BayesNet.Solve

namespace LinearGaussian

open LinearFactor

namespace Conditional.Triangular

variable {c : Conditional ℝ} {ds : Widths} {b x y : Assignment ℝ} {v : Array ℝ} {w : Key × Nat}
  {i j : Nat}

section Scatter

theorem fits_scatter (h : c.Triangular) (hv : v.size = c.rows) (x : Assignment ℝ) :
    (c.scatter v x).Fits c.frontalDims := by
  intro w hw
  have ⟨u, hu, hs, _⟩ := h.get?_scatter_of_mem hv x hw
  exact ⟨u, hu, hs⟩

theorem fromParents_scatter (h : c.Triangular) (v : Array ℝ) (x : Assignment ℝ) (i : Nat) :
    c.fromParents i (c.scatter v x).point = c.fromParents i x.point := by
  unfold fromParents
  congr 1
  apply List.map_congr_left
  intro w hw
  rw [Assignment.point_congr (c.get?_scatter_of_not_mem v x (h.not_mem_frontals hw))]

variable (hd : ∀ w ∈ c.frontalDims, w.1 ∉ ds.keys)
include hd

theorem get?_scatter_of_later (h : c.Triangular) (v : Array ℝ) (x : Assignment ℝ) (hw : w ∈ ds) :
    (c.scatter v x).get? w.1 = x.get? w.1 :=
  c.get?_scatter_of_not_mem v x (Chain.not_mem_frontals h hd hw)

theorem eqOn_scatter (h : c.Triangular) (v : Array ℝ) (x : Assignment ℝ) :
    Point.EqOn ds (c.scatter v x).point x.point := by
  intro w hw j _
  rw [Assignment.point_congr (h.get?_scatter_of_later hd v x hw)]

theorem fits_scatter_of_later (h : c.Triangular) (v : Array ℝ) (hx : x.Fits ds) :
    (c.scatter v x).Fits ds := by
  intro w hw
  rw [h.get?_scatter_of_later hd v x hw]
  exact hx w hw

theorem scatter_stays (h : c.Triangular) (hv : v.size = c.rows) (hy : y.Fits ds)
    (ho : ∀ k ∉ ds.keys, y.get? k = (c.scatter v x).get? k) :
    y.Fits (c.frontalDims ++ ds) ∧ (∀ k ∉ Widths.keys (c.frontalDims ++ ds), y.get? k = x.get? k) ∧
      ∀ i < c.rows, stack c.frontalDims y.point i = v.getD i 0 := by
  refine ⟨List.forall_mem_append.mpr ⟨fun w hw => ?_, hy⟩, fun k hk => ?_, fun i hi => ?_⟩
  case refine_1 =>
    rw [ho w.1 (hd w hw)]
    exact h.fits_scatter hv x w hw
  case refine_2 =>
    rw [Widths.keys, List.map_append, List.mem_append, not_or, h.keys_frontalDims] at hk
    rw [ho k hk.right, c.get?_scatter_of_not_mem v x hk.left]
  case refine_3 =>
    have he : Point.EqOn c.frontalDims y.point (c.scatter v x).point :=
      fun w hw j _ => by rw [Assignment.point_congr (ho w.1 (hd w hw))]
    rw [eqOn_iff_stack.mp he i (h.sum_frontalDims.symm ▸ hi), h.stack_scatter hv x hi]

end Scatter

theorem solveWithRhs_eq (h : c.Triangular) (hd : ∀ a ∈ c.diagonal, a ≠ 0)
    (hb : b.Fits c.frontalDims) (hx : x.Fits c.parentDims) :
    ∃ v, (c.solveWithRhs b).outcome x = .ok (c.scatter v x) ∧ v.size = c.rows ∧ ∀ i < c.rows,
      ∑ j ∈ Finset.range c.rows, c.rsd.full.entry i j * v.getD j 0 =
        stack c.frontalDims b.point i - c.fromParents i x.point := by
  have hs : (coordinates c.frontalDims b.point).size = c.rows := by
    rw [size_coordinates, h.sum_frontalDims]
  have ⟨v, hv, hvs, he⟩ := h.solveFor_eq hd hs hx
  refine ⟨v, ?_, hvs, fun i hi => ?_⟩
  case refine_1 =>
    rw [solveWithRhs, Edit.outcome_lift_bind, gather_eq hb, Outcome.ok_bind, Edit.outcome_get_bind,
      Edit.outcome_lift_bind, hv, Outcome.ok_bind, Edit.outcome_modify]
  case refine_2 => rw [he i hi, getD_coordinates (h.sum_frontalDims.symm ▸ hi)]

theorem scaleFrontals_eq (hx : x.Fits c.frontalDims) :
    c.scaleFrontals.outcome x =
      .ok (c.scatter (c.model.scaleBySigma (coordinates c.frontalDims x.point)) x) := by
  rw [scaleFrontals, Edit.outcome_get_bind, Edit.outcome_lift_bind, gather_eq hx, Outcome.ok_bind,
    Edit.outcome_modify]

theorem propagate_eq {k : Key} {a : Window ℝ} {u : Array ℝ} (ha : c.s i = .ok a)
    (hs : ((x.get? k).getD (Vec.zeros a.cols)).size = a.cols)
    (hu : a.addTrMulVec (-1) v ((x.get? k).getD (Vec.zeros a.cols)) = .ok u) :
    (c.propagate v k i).outcome x = .ok (x.insert k u) := by
  rw [propagate, Edit.outcome_lift_bind, ha, Outcome.ok_bind, Edit.outcome_get_bind]
  rw [if_neg (not_not.mpr hs), Edit.outcome_lift_bind, hu, Outcome.ok_bind, Edit.outcome_modify]

theorem nodup_frontalDims (h : c.Triangular) : (Widths.keys c.frontalDims).Nodup := by
  rw [Widths.keys, h.keys_frontalDims]
  exact h.nodup_frontals

theorem coefficient_start (h : c.Triangular) (hw : w ∈ c.frontalDims) (hj : j < w.2) (i : Nat) :
    c.toFactor.coefficient w.1 i j = c.rsd.full.entry i (Widths.start c.frontalDims w.1 + j) := by
  have hlt : Widths.start c.frontalDims w.1 + j < (c.frontalDims.map (·.2)).sum :=
    (Nat.add_lt_add_left hj _).trans_le (Widths.start_add_le h.nodup_frontalDims hw)
  have hs : c.toFactor.spread (c.frontalDims ++ []) i _ = _ := spread_frontals h.factor i hlt
  rw [← hs, List.append_nil, spread_start _ h.nodup_frontalDims hw i hj]

-- The columns of the frontal variables are met, and what the parents have in the rows is taken out
-- of them.
theorem solveTranspose_eq (h : c.Triangular) (hd : ∀ a ∈ c.diagonal, a ≠ 0)
    (hx : x.Fits c.toFactor.dims) :
    ∃ v y, c.solveTransposeInPlace.outcome x = .ok (c.scatter v y) ∧ v.size = c.rows ∧
      y.Fits c.parentDims ∧
      (∀ k ∉ c.parents, y.get? k = x.get? k) ∧
      (∀ w ∈ c.frontalDims, ∀ j < w.2,
        ∑ i ∈ Finset.range c.rows, c.toFactor.coefficient w.1 i j * v.getD i 0 = x.point w.1 j) ∧
      ∀ w ∈ c.parentDims, ∀ j < w.2, y.point w.1 j =
        x.point w.1 j + -1 * ∑ i ∈ Finset.range c.rows, c.toFactor.coefficient w.1 i j *
          v.getD i 0 := by
  have hf : x.Fits c.frontalDims := hx.mono (List.take_subset ..)
  have hp : x.Fits c.parentDims := hx.mono (List.drop_subset ..)
  obtain ⟨a, ha, hbase, hrow, hcol, hrows, hcols⟩ := c.rsd.blocks_eq h.frontalCount_le
  have hrows : a.rows = c.rows := hrows
  have hs : (coordinates c.frontalDims x.point).size = a.rows := by
    rw [size_coordinates, hrows, h.sum_frontalDims]
  have hu : ∀ i j, j < i → a.base.entry (a.row + i) (a.col + j) = 0 := by
    simpa [hbase, hrow, hcol] using h.upper
  have hd : ∀ i < a.rows, a.base.entry (a.row + i) (a.col + i) ≠ 0 := by
    simpa [hbase, hrow, hcol, hrows] using diagonal_ne_zero_iff.mp hd
  obtain ⟨v, hv, hvs, hve⟩ :=
    Window.solveUpperTranspose_eq (hrows.trans (h.square.trans hcols.symm)) hs hu hd
  have hvs : v.size = c.rows := hvs.trans hrows
  obtain ⟨y, hy, hyf, hyo, hye⟩ := addTrBlocks_drop h.factor (-1) c.frontalCount hvs
    (fun x t => (c.propagate v t.1 t.2).outcome x) (fun x k i a u ha hs hu => propagate_eq ha hs hu)
      hp.suits
  refine ⟨v, y, ?_, hvs, hyf, hyo, fun w hw j hj => ?_, hye⟩
  case refine_1 =>
    rw [solveTransposeInPlace, Edit.outcome_get_bind, Edit.outcome_lift_bind, gather_eq hf,
      Outcome.ok_bind, Edit.outcome_lift_bind, r, ha, Outcome.ok_bind, hv, Outcome.ok_bind,
      Edit.outcome_bind]
    rw [Edit.outcome_forM]
    exact Outcome.bind_eq_ok.mpr ⟨y, hy, rfl⟩
  case refine_2 =>
    have hle := Widths.start_add_le h.nodup_frontalDims hw
    have he := hve (Widths.start c.frontalDims w.1 + j) (by rw [hrows, ← h.sum_frontalDims]; omega)
    simp only [hbase, hrow, hcol, hrows, Nat.zero_add] at he
    rw [Finset.sum_congr rfl
      fun i _ => by rw [h.coefficient_start hw hj], he, getD_coordinates (by omega),
      stack_start_add h.nodup_frontalDims hw x.point hj]

section Later

variable (hd : ∀ w ∈ c.frontalDims, w.1 ∉ ds.keys) (hp : c.parentDims ⊆ ds) (hn : ds.keys.Nodup)
include hd hp hn

-- The density knows the variables of later densities as parents or not at all.
theorem mem_parentDims_or (h : c.Triangular) (hw : w ∈ ds) :
    w ∈ c.parentDims ∨ w.1 ∉ c.toFactor.keys := by
  by_cases hk : w.1 ∈ c.toFactor.keys
  case neg => exact .inr hk
  case pos =>
    rw [← h.factor.keys_dims, ← c.frontalDims_append_parentDims] at hk
    have ⟨u, hu, he⟩ := List.mem_map.mp hk
    cases List.mem_append.mp hu
    case inl hu => exact absurd (List.mem_map_of_mem hw) (he ▸ hd u hu)
    case inr hu => exact .inl (List.inj_on_of_nodup_map hn (hp hu) hw he ▸ hu)

theorem solveTranspose_later (h : c.Triangular) (hdiag : ∀ a ∈ c.diagonal, a ≠ 0)
    (hx : x.Fits (c.frontalDims ++ ds)) :
    ∃ v y, c.solveTransposeInPlace.outcome x = .ok (c.scatter v y) ∧ v.size = c.rows ∧ y.Fits ds ∧
      (∀ k ∉ ds.keys, y.get? k = x.get? k) ∧
      (∀ w ∈ c.frontalDims, ∀ j < w.2,
        ∑ i ∈ Finset.range c.rows, c.toFactor.coefficient w.1 i j * v.getD i 0 = x.point w.1 j) ∧
      ∀ w ∈ ds, ∀ j < w.2,
        ∑ i ∈ Finset.range c.rows, c.toFactor.coefficient w.1 i j * v.getD i 0 + y.point w.1 j =
          x.point w.1 j := by
  have hdims : c.toFactor.dims ⊆ c.frontalDims ++ ds := by
    rw [← c.frontalDims_append_parentDims]
    exact List.append_subset.mpr ⟨List.subset_append_left ..,
      List.subset_append_of_subset_right _ hp⟩
  have ⟨v, y, hv, hvs, hyf, hyo, hve, hye⟩ := h.solveTranspose_eq hdiag (hx.mono hdims)
  have hpar {k : Key} (hk : k ∉ c.toFactor.keys) : k ∉ c.parents :=
    fun hm => hk (List.mem_of_mem_drop hm)
  refine ⟨v, y, hv, hvs, fun w hw => ?_, fun k hk => hyo k fun hm => ?_, hve, fun w hw j hj => ?_⟩
  case refine_1 =>
    cases h.mem_parentDims_or hd hp hn hw
    case inl hw => exact hyf w hw
    case inr hk =>
      rw [hyo w.1 (hpar hk)]
      exact hx w (List.mem_append_right _ hw)
  case refine_2 =>
    rw [← Conditional.keys_parentDims h.factor] at hm
    exact hk (List.map_subset _ hp hm)
  case refine_3 =>
    cases h.mem_parentDims_or hd hp hn hw
    case inl hw =>
      rw [hye w hw j hj]
      ring
    case inr hk => simp [coefficient_of_not_mem hk, Assignment.point_congr (hyo w.1 (hpar hk))]

end Later
end Conditional.Triangular

namespace Chain

variable {ds : Widths} {cs : List (Conditional ℝ)} {b x : Assignment ℝ}

theorem exists_solveWithRhs (h : Chain ds cs) (ht : ∀ c ∈ cs, c.Triangular)
    (hd : ∀ c ∈ cs, ∀ a ∈ c.diagonal, a ≠ 0) (hb : b.Fits ds) (x : Assignment ℝ) :
    ∃ y, Edit.outcome (cs.reverse.forM (·.solveWithRhs b)) x = .ok y ∧ y.Fits ds ∧
      (∀ k ∉ ds.keys, y.get? k = x.get? k) ∧
      ∀ c ∈ cs, ∀ i < c.rows, c.toFactor.image i y.point = stack c.frontalDims b.point i := by
  induction h
  case nil => exact ⟨x, rfl, nofun, fun _ _ => rfl, nofun⟩
  case cons ds cs c _ _ hp hne hch ih =>
    have ⟨hc, hcs⟩ := List.forall_mem_cons.mp ht
    have ⟨hdc, hdcs⟩ := List.forall_mem_cons.mp hd
    have ⟨hbc, hbcs⟩ := List.forall_mem_append.mp hb
    have ⟨y, hy, hyf, hyo, hye⟩ := ih hcs hdcs hbcs
    have ⟨v, hv, hvs, hve⟩ := hc.solveWithRhs_eq hdc hbc (hyf.mono hp)
    have ⟨hf, ho, hs⟩ :=
      hc.scatter_stays hne hvs (hc.fits_scatter_of_later hne v hyf) fun _ _ => rfl
    refine ⟨c.scatter v y, ?_, hf, fun k hk => ?_,
      List.forall_mem_cons.mpr ⟨fun i hi => ?_, fun e he i hi => ?_⟩⟩
    case refine_1 => rw [Edit.outcome_forM_reverse_cons, hy, Outcome.ok_bind, hv]
    case refine_2 =>
      rw [ho k hk, hyo k fun hm => hk (List.map_subset _ (List.subset_append_right ..) hm)]
    case refine_3 =>
      rw [hc.image_eq, hc.fromParents_scatter, ← eq_sub_iff_add_eq, ← hve i hi]
      exact Finset.sum_congr rfl fun j hj => by rw [hs j (Finset.mem_range.mp hj)]
    case refine_4 =>
      rw [image_congr ((hc.eqOn_scatter hne v y).mono (hch.closed.subset e he))]
      exact hye e he i hi

theorem exists_solveTranspose (h : Chain ds cs) (ht : ∀ c ∈ cs, c.Triangular)
    (hd : ∀ c ∈ cs, ∀ a ∈ c.diagonal, a ≠ 0) (hx : x.Fits ds) :
    ∃ y, Edit.outcome (cs.forM (·.solveTransposeInPlace)) x = .ok y ∧ y.Fits ds ∧
      (∀ k ∉ ds.keys, y.get? k = x.get? k) ∧ ∀ w ∈ ds, ∀ j < w.2,
        (cs.map fun c => ∑ i ∈ Finset.range c.rows,
          c.toFactor.coefficient w.1 i j * stack c.frontalDims y.point i).sum = x.point w.1 j := by
  -- The first density explains its own variables, and leaves to the later ones what remains of
  -- theirs.
  induction h generalizing x
  case nil => exact ⟨x, rfl, nofun, fun _ _ => rfl, nofun⟩
  case cons ds cs c _ _ hp hne hch ih =>
    have ⟨hc, hcs⟩ := List.forall_mem_cons.mp ht
    have ⟨hdc, hdcs⟩ := List.forall_mem_cons.mp hd
    have ⟨v, z, hv, hvs, hzf, hzo, hve, hze⟩ :=
      hc.solveTranspose_later hne hp hch.closed.nodup hdc hx
    have ⟨y, hy, hyf, hyo, hye⟩ := ih hcs hdcs (hc.fits_scatter_of_later hne v hzf)
    have ⟨hf, ho, hs⟩ := hc.scatter_stays hne hvs hyf hyo
    have hsum (w : Key × Nat) (j : Nat) :
        ∑ i ∈ Finset.range c.rows, c.toFactor.coefficient w.1 i j * stack c.frontalDims y.point i =
          ∑ i ∈ Finset.range c.rows, c.toFactor.coefficient w.1 i j * v.getD i 0 :=
      Finset.sum_congr rfl fun i hi => by rw [hs i (Finset.mem_range.mp hi)]
    refine ⟨y, ?_, hf, fun k hk => ?_, List.forall_mem_append.mpr ⟨fun w hw j hj => ?_,
      fun w hw j hj => ?_⟩⟩
    case refine_1 => rw [Edit.outcome_forM_cons, hv, Outcome.ok_bind, hy]
    case refine_2 =>
      rw [ho k hk, hzo k fun hm => hk (List.map_subset _ (List.subset_append_right ..) hm)]
    case refine_3 =>
      -- Later densities do not mention the frontal variables.
      have h0 : ∀ e ∈ cs, ∑ i ∈ Finset.range e.rows,
          e.toFactor.coefficient w.1 i j * stack e.frontalDims y.point i = 0 := by
        intro e he
        refine Finset.sum_eq_zero fun i _ => ?_
        rw [coefficient_of_not_mem, zero_mul]
        intro hk
        rw [← (hch.closed.wellFormed e he).keys_dims] at hk
        exact hne w hw (List.map_subset _ (hch.closed.subset e he) hk)
      rw [List.map_cons, List.sum_cons, hsum, hve w hw j hj, List.sum_eq_zero, add_zero]
      exact List.forall_mem_map.mpr h0
    case refine_4 =>
      rw [List.map_cons, List.sum_cons, hsum, hye w hw j hj, hc.eqOn_scatter hne v z w hw j hj,
        hze w hw j hj]

theorem exists_scaleFrontals (h : Chain ds cs) (ht : ∀ c ∈ cs, c.Triangular) (hx : x.Fits ds) :
    ∃ y, Edit.outcome (cs.forM (·.scaleFrontals)) x = .ok y ∧ y.Fits ds ∧
      (∀ k ∉ ds.keys, y.get? k = x.get? k) ∧
      ∀ c ∈ cs, ∀ i < c.rows, c.model.weight i * stack c.frontalDims y.point i =
        stack c.frontalDims x.point i := by
  induction h generalizing x
  case nil => exact ⟨x, rfl, nofun, fun _ _ => rfl, nofun⟩
  case cons ds cs c _ _ hp hne hch ih =>
    have ⟨hc, hcs⟩ := List.forall_mem_cons.mp ht
    have ⟨hxc, hxs⟩ := List.forall_mem_append.mp hx
    have hvs : (c.model.scaleBySigma (coordinates c.frontalDims x.point)).size = c.rows := by
      rw [NoiseModel.size_scaleBySigma, size_coordinates, hc.sum_frontalDims]
    have hzf :=
      hc.fits_scatter_of_later hne (c.model.scaleBySigma (coordinates c.frontalDims x.point)) hxs
    have ⟨y, hy, hyf, hyo, hye⟩ := ih hcs hzf
    have ⟨hf, ho, hs⟩ := hc.scatter_stays hne hvs hyf hyo
    refine ⟨y, ?_, hf, ho, List.forall_mem_cons.mpr ⟨fun i hi => ?_, fun e he i hi => ?_⟩⟩
    case refine_1 =>
      rw [Edit.outcome_forM_cons, Conditional.Triangular.scaleFrontals_eq hxc, Outcome.ok_bind, hy]
    case refine_2 =>
      rw [hs i hi, c.model.weight_mul_scaleBySigma, getD_coordinates (hc.sum_frontalDims.symm ▸ hi)]
    case refine_3 =>
      rw [hye e he i hi, hch.stack_congr (hc.eqOn_scatter hne _ x) he (hcs e he) hi]

end Chain
end LinearGaussian
