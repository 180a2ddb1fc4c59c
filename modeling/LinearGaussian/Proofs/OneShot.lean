import LinearGaussian.Proofs.Chain
import LinearGaussian.Proofs.Marginal

namespace LinearGaussian

open Measurement LinearFactor Elimination

theorem Widths.eq_of_keys {ds es : Widths} (hk : ds.keys = es.keys) (hn : es.keys.Nodup)
    (h : ∀ w ∈ ds, w ∈ es) :
    ds = es := by
  have hl : ds.length = es.length := by simpa [keys] using congrArg List.length hk
  apply List.ext_getElem hl
  intro i hi hi'
  have hi : ds[i].1 = es[i].1 := by simpa [keys, hi, hi'] using congrArg (·[i]?) hk
  exact List.inj_on_of_nodup_map hn (h _ (List.getElem_mem _)) (List.getElem_mem _) hi

theorem LinearFactor.keys_combine_of_covers {α : Type} [Arith α] [RealLike α]
    {factors : List (LinearFactor α)} {order : List Key} {f : LinearFactor α}
    (hf : ∀ g ∈ factors, g.WellFormed) (h : combine factors order = .ok f)
    (hc : ∀ w ∈ f.dims, w.1 ∈ order) : f.keys = order := by
  have hw := wellFormed_combine hf h
  have ⟨rest, hk⟩ := keys_combine h
  have hn := hk ▸ hw.nodup
  cases rest
  case nil => rw [hk, List.append_nil]
  case cons k rest =>
    have hm : k ∈ f.dims.map (·.1) := by simp [hw.keys_dims, hk]
    have ⟨w, hw, he⟩ := List.mem_map.mp hm
    exact absurd rfl ((List.nodup_append.mp hn).right.right k (he ▸ hc w hw) k (.head _))

namespace Elimination

section Cost

variable {settings : EliminationSettings ℝ} {ks : List Key} {factors rest : List (Factor ℝ)}
  {cs : List (Conditional ℝ)} {r : Elimination ℝ} {f : LinearFactor ℝ} {count : Nat}

theorem Run.exists_cost_densities (h : Run settings ks factors cs rest)
    (hs : ∀ f ∈ factors, 0 ∉ f.toLinear.sigmas) (hr : dimsOf rest = []) :
    ∃ e, ∀ p, totalCost (rowsOf factors) p = totalCost (densityRows cs) p + e := by
  have ⟨c, _, hc⟩ := h.exists_cost hs
  have hrest (p : Point) : totalCost (rowsOf rest) p = totalCost (rowsOf rest) 0 :=
    FactorGraph.totalCost_rowsOf_congr (by simp [Point.EqOn, hr])
  exact ⟨totalCost (rowsOf rest) 0 + c, fun p => by rw [hc, hrest, add_assoc]⟩

theorem Of.parentDims_eq_nil (h : r.Of f f.keys.length settings) :
    r.conditional.parentDims = [] := by
  rw [h.parentDims_conditional, ← h.wellFormed.length_dims, List.drop_length]

theorem Of.exists_cost_densities (h : r.Of f f.keys.length settings)
    (hn : f.isConstrained = false) :
    ∃ e, ∀ p, totalCost f.measurements p = totalCost (densityRows [r.conditional]) p + e := by
  have a := h.reduces (by simp [Decisive, hn]) (by simp [hn]) ⟨0, feasible_of_unconstrained hn 0⟩
  obtain ⟨c, _, hc⟩ := a.cost
  have hk : r.remaining.keys = [] := by
    rw [← h.wellFormed_remaining.keys_dims, h.dims_remaining, ← h.wellFormed.length_dims,
      List.drop_length]
    rfl
  have hrem (p : Point) : totalCost r.remaining.measurements p =
      totalCost r.remaining.measurements 0 := by
    apply totalCost_congr
    intro m hm
    obtain ⟨i, _, hi⟩ := List.mem_map.mp hm
    exact hi ▸ residual_eq_of_keys hk i p 0
  refine ⟨totalCost r.remaining.measurements 0 + c, fun p => ?_⟩
  have hd : densityRows [r.conditional] = r.conditional.toFactor.measurements :=
    List.flatMap_singleton ..
  rw [hc p (feasible_of_unconstrained hn p), totalCost_append, hrem, hd, add_assoc]

end Cost

end Elimination

section Single

variable {c : Conditional ℝ}

theorem chain_singleton {α : Type} [Arith α] [RealLike α] {c : Conditional α} (h : c.WellFormed)
    (hp : c.parentDims = []) : Chain c.toFactor.dims [c] := by
  have hd : c.frontalDims ++ [] = c.toFactor.dims := hp ▸ c.frontalDims_append_parentDims
  exact hd ▸ .cons h.factor h.sum_frontalDims (by simp [hp]) (fun _ _ => List.not_mem_nil) .nil

theorem matrix_singleton (h : c.WellFormed) (hp : c.parentDims = [])
    (hu : ∀ i, c.model.weight i = 1) :
    ∃ w, c.r = .ok w ∧ w.cols = c.toFactor.width ∧ BayesNet.matrix ⟨[c]⟩ = .ok (w.toMat, c.d) := by
  have hch := chain_singleton h hp
  have hrows : c.rows = c.toFactor.width := by simpa [width] using hch.rows_eq
  have hle : c.frontalCount ≤ c.rsd.count := h.le.trans (h.factor.count ▸ Nat.le_succ _)
  obtain ⟨w, hw, hb, hrow, hcol, hr, hc⟩ := c.rsd.blocks_eq hle
  have hr : w.rows = c.toFactor.width := hr.trans hrows
  have hc : w.cols = c.toFactor.width := hc.trans (h.square.symm.trans hrows)
  have hd : Vec.concat ([c].map fun c => c.d.mapIdx fun i a => a * c.model.weight i) = c.d := by
    apply Array.ext <;> simp [hu, Vec.concat]
  refine ⟨w, hw, hc, ?_⟩
  rw [BayesNet.matrix_eq hch.closed, ← BayesNet.concat_d, hd]
  congr 2
  refine Mat.ext_entry hr.symm hc.symm fun i hi j hj => ?_
  have hi : i < c.toFactor.width := hi
  have hj : j < c.toFactor.width := hj
  have hj' : j < c.toFactor.ab.full.cols := (Nat.lt_succ_of_lt hj).trans_eq h.factor.cols_eq.symm
  have he : w.toMat.entry i j = c.rsd.full.entry i j := by
    rw [w.entry_toMat (hr ▸ hi) (hc ▸ hj), hb, hrow, hcol, Nat.zero_add, Nat.zero_add]
  rw [he]
  refine (Mat.entry_ofFn _ hi hj).trans ?_
  rw [joint_cons_of_lt (hi.trans_eq hrows.symm), hu, mul_one]
  exact h.factor.spread_dims i hj'

end Single

section Gram

variable {f : LinearFactor ℝ}

theorem sum_augmentedJacobian_stack (h : f.WellFormed) {i : Nat} (hi : i < f.rows) (p : Point) :
    ∑ j ∈ Finset.range (f.width + 1), (f.augmentedJacobian true).entry i j * stack f.dims p j =
      f.residual i p * NoiseModel.weightOf (f.sigmas.getD i 1) := by
  rw [residual_eq_sum h, h.cols_eq, Finset.sum_mul]
  apply Finset.sum_congr rfl
  intro j hj
  have hj : j < f.ab.full.cols := (Finset.mem_range.mp hj).trans_eq h.cols_eq.symm
  rw [augmentedJacobian_eq, entry_whitenedBody h hi hj, mul_right_comm]

theorem rating_augmentedJacobian (h : f.WellFormed) (p : Point) :
    rating f.rows f.width (f.augmentedJacobian true).entry (stack f.dims p) =
      2 * totalCost f.measurements p := by
  rw [width, rating_stack, totalCost_measurements, Finset.mul_sum]
  apply Finset.sum_congr rfl
  intro i hi
  rw [← width, sum_augmentedJacobian_stack h (Finset.mem_range.mp hi)]
  ring

theorem sum_augmentedJacobian {cs : List (Conditional ℝ)} (h : f.WellFormed)
    (hw : ∀ c ∈ cs, c.toFactor.WellFormed) (hs : ∀ c ∈ cs, c.toFactor.dims ⊆ f.dims)
    (hd : ∀ c ∈ cs, c.model.dim = c.rows) {e : ℝ}
    (hc : ∀ p, totalCost f.measurements p = totalCost (densityRows cs) p + e) {i j : Nat}
    (hi : i < f.width) (hj : j < f.width) :
    ∑ l ∈ Finset.range f.rows, (f.augmentedJacobian true).entry l i *
      (f.augmentedJacobian true).entry l j =
      ∑ l ∈ Finset.range (cs.map (·.rows)).sum, joint f.dims cs l i * joint f.dims cs l j := by
  have hn : (f.dims.map (·.1)).Nodup := h.keys_dims ▸ h.nodup
  refine gram_eq_of_stack (e := 2 * e) hn (fun p => ?_) hi hj.le
  rw [← width, rating_augmentedJacobian h, hc, mul_add, width, rating_joint hw hn hs hd]

theorem gram_augmentedJacobian {cs : List (Conditional ℝ)} (h : f.WellFormed)
    (hch : Chain f.dims cs) (hd : ∀ c ∈ cs, c.model.dim = c.rows) {e : ℝ}
    (hc : ∀ p, totalCost f.measurements p = totalCost (densityRows cs) p + e) :
    (f.augmentedJacobian true).gram.block ⟨0, 0, f.width, f.width⟩ =
      .ok (Mat.ofFn f.width f.width fun i j => joint f.dims cs i j).gram := by
  have hcols := h.cols_eq
  have hle : 0 + f.width ≤ (f.augmentedJacobian true).cols := by
    rw [cols_augmentedJacobian]
    omega
  refine Mat.block_eq_ok hle hle rfl fun i (hi : i < f.width) j (hj : j < f.width) => ?_
  rw [Nat.zero_add, Nat.zero_add, Mat.entry_gram _ (by omega) (by omega), Mat.entry_gram _ hi hj,
    rows_augmentedJacobian,
    sum_augmentedJacobian h hch.closed.wellFormed hch.closed.subset hd hc hi hj, hch.rows_eq]
  apply Finset.sum_congr rfl
  intro l hl
  have hl : l < f.width := Finset.mem_range.mp hl
  rw [Mat.entry_ofFn _ hl hi, Mat.entry_ofFn _ hl hj]

end Gram

theorem weight_of_soft {m : NoiseModel ℝ} (h : ∀ s ∈ m.sigmas, s = 1) : ∀ i, m.weight i = 1 :=
  NoiseModel.weight_of_unit fun s hs => .inr (h s hs)

namespace FactorGraph

variable {factors : List (LinearFactor ℝ)} {order : EliminationOrder}
  {settings : EliminationSettings ℝ} {net : BayesNet ℝ} {r : Elimination ℝ}

theorem exists_chain (hf : ∀ f ∈ factors, f.WellFormed)
    (h : (ofLinear factors).eliminate order settings = .ok net)
    (h' : LinearGaussian.eliminate factors order.keys settings = .ok r) :
    ∃ f, combine factors order.keys = .ok f ∧ r.Of f f.keys.length settings ∧
      Chain f.dims net.conditionals := by
  have ⟨f, hc, ho⟩ := of_eliminate hf h'
  have ⟨_, hrun, hrest, _⟩ := run_of_eliminate (wellFormed_ofLinear hf) h
  have ⟨ds, hds, hmem, hch⟩ := hrun.chain hrest
  have hsub : ∀ w ∈ f.dims, w ∈ ds := by
    intro w hw
    have ⟨g, hg, hw⟩ := (mem_dims_combine hc).mp hw
    exact (hmem w).mp (mem_dimsOf.mpr ⟨_, List.mem_map_of_mem hg, hw⟩)
  have hk : f.keys = order.keys :=
    keys_combine_of_covers hf hc fun w hw => hds ▸ List.mem_map_of_mem (hsub w hw)
  have hd : f.dims = ds :=
    Widths.eq_of_keys (ho.wellFormed.keys_dims.trans (hk.trans hds.symm)) (hds ▸ order.nodup) hsub
  exact ⟨f, hc, hk ▸ ho, hd ▸ hch⟩

theorem matrix_eq_singleton (hf : ∀ f ∈ factors, f.WellFormed) (hs : ∀ f ∈ factors, 0 ∉ f.sigmas)
    (h : (ofLinear factors).eliminate order settings = .ok net) {f : LinearFactor ℝ}
    (hc : combine factors order.keys = .ok f) (ho : r.Of f f.keys.length settings)
    (hch : Chain f.dims net.conditionals) : net.matrix = BayesNet.matrix ⟨[r.conditional]⟩ := by
  -- Both ways end in triangular roots that rate points alike, so the joint matrix is the same.
  have hw := ho.wellFormed_conditional
  have hn := isConstrained_combine hc hs
  have hs : ∀ f ∈ (ofLinear factors).factors, 0 ∉ f.toLinear.sigmas := List.forall_mem_map.mpr hs
  have ⟨_, hrun, hrest, _⟩ := run_of_eliminate (wellFormed_ofLinear hf) h
  have ⟨e, he⟩ := hrun.exists_cost_densities hs hrest
  have ⟨e', he'⟩ := ho.exists_cost_densities hn
  have hroot : ∀ c ∈ net.conditionals ++ [r.conditional], IsRoot c.rows c.rsd.full.entry ∧
      ∀ s ∈ c.model.sigmas, s = 1 :=
    List.forall_mem_append.mpr ⟨hrun.isRoot hs,
      List.forall_mem_singleton.mpr ⟨ho.isRoot_conditional hn, ho.soft_conditional hn⟩⟩
  have hwf : ∀ c ∈ net.conditionals ++ [r.conditional], c.WellFormed :=
    List.forall_mem_append.mpr ⟨hrun.wellFormed.left, List.forall_mem_singleton.mpr hw⟩
  refine matrix_eq_of_cost hch (ho.dims_conditional ▸ chain_singleton hw ho.parentDims_eq_nil)
    (fun c hc => (hroot c hc).left) (fun c hc => weight_of_soft (hroot c hc).right)
      (fun c hc => (hwf c hc).dim)
    (e := e' - e) fun p => ?_
  rw [rowsOf_ofLinear, ← measurements_combine hf hc] at he
  linarith [he p, he' p]

-- Without hard constraints, it does not matter whether the variables are eliminated one after the
-- other or at once. For every rank, the joint matrix of the densities is the `R` and `d` that come
-- out at once, and `Rᵀ R` is the information `Aᵀ A` of the graph.
theorem matrix_eliminate (hf : ∀ f ∈ factors, f.WellFormed) (hs : ∀ f ∈ factors, 0 ∉ f.sigmas)
    (h : (ofLinear factors).eliminate order settings = .ok net)
    (h' : LinearGaussian.eliminate factors order.keys settings = .ok r) :
    ∃ w a, r.conditional.r = .ok w ∧ net.matrix = .ok (w.toMat, r.conditional.d) ∧
      (ofLinear factors).augmentedJacobian order = .ok a ∧ a.cols = w.cols + 1 ∧
      a.gram.block ⟨0, 0, w.cols, w.cols⟩ = .ok w.toMat.gram := by
  obtain ⟨f, hc, ho, hch⟩ := exists_chain hf h h'
  have hn := isConstrained_combine hc hs
  have hw := ho.wellFormed_conditional
  obtain ⟨w, hr, hcols, hm⟩ :=
    matrix_singleton hw ho.parentDims_eq_nil (weight_of_soft (ho.soft_conditional hn))
  have hch' := chain_singleton hw ho.parentDims_eq_nil
  rw [ho.dims_conditional] at hch'
  have hwidth : w.cols = f.width := by rw [hcols, width, ho.dims_conditional, width]
  have hR : w.toMat = Mat.ofFn f.width f.width fun i j => joint f.dims [r.conditional] i j := by
    rw [BayesNet.matrix_eq hch'.closed] at hm
    exact (Prod.mk.inj (Except.ok.inj hm)).left.symm
  obtain ⟨e, he⟩ := ho.exists_cost_densities hn
  refine ⟨w, f.augmentedJacobian true, hr, (matrix_eq_singleton hf hs h hc ho hch).trans hm,
    ?_, ?_, ?_⟩
  case refine_1 =>
    obtain ⟨_, _, _, hcov⟩ := run_of_eliminate (wellFormed_ofLinear hf) h
    exact (augmentedJacobian_eq_ok (wellFormed_ofLinear hf)).mpr ⟨hcov,
      f, by rwa [map_toLinear_ofLinear], rfl⟩
  case refine_2 => rw [cols_augmentedJacobian, hwidth, ho.wellFormed.cols_eq]
  case refine_3 =>
    rw [hR, hwidth]
    exact gram_augmentedJacobian ho.wellFormed hch' (List.forall_mem_singleton.mpr hw.dim) he

theorem matrix_eliminate_compared :
    ∃ net r, (ofLinear compared).eliminate ⟨[1, 2, 0], by decide⟩ ⟨0, 0, true⟩ = .ok net ∧
      LinearGaussian.eliminate compared [1, 2, 0] ⟨0, 0, true⟩ = .ok r ∧
      ∃ w a, r.conditional.r = .ok w ∧ net.matrix = .ok (w.toMat, r.conditional.d) ∧
        (ofLinear compared).augmentedJacobian ⟨[1, 2, 0], by decide⟩ = .ok a ∧ a.cols = w.cols + 1 ∧
        a.gram.block ⟨0, 0, w.cols, w.cols⟩ = .ok w.toMat.gram := by
  have hf := wellFormed_compared
  have hs : ∀ f ∈ compared, 0 ∉ f.sigmas := by simp [compared, redundant]
  have ho (k : Key) : k ∈ [1, 2, 0] ↔ k ∈ (ofLinear compared).keys := by
    rw [mem_keys_iff_dims (wellFormed_ofLinear hf), dimsOf_compared]
    simp
    grind
  obtain ⟨net, h⟩ : ∃ net, (ofLinear compared).eliminate ⟨[1, 2, 0], by decide⟩ ⟨0, 0, true⟩ =
      .ok net :=
    exists_eliminate (wellFormed_ofLinear hf) consistent_compared ho rfl
  have hws : Widths.ofOccurrences (compared.flatMap LinearFactor.dims) =
      .ok [(1, 1), (2, 1), (0, 1)] := rfl
  obtain ⟨f, hc⟩ := exists_combine hf (show [1, 2, 0].Nodup by decide) hws (by simp [Widths.keys])
  obtain ⟨r, h'⟩ : ∃ r, LinearGaussian.eliminate compared [1, 2, 0] ⟨0, 0, true⟩ = .ok r :=
    Elimination.exists_eliminate hf (List.cons_ne_nil _ _) hc rfl
  exact ⟨net, r, h, h', matrix_eliminate hf hs h h'⟩

end FactorGraph
end LinearGaussian
