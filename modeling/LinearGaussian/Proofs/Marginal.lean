import LinearGaussian.Proofs.Optimum

namespace LinearGaussian

open Measurement LinearFactor Elimination

namespace Assignment

noncomputable def entriesOf (q : Point) (ds : List (Key × Nat)) : List (Key × Array ℝ) :=
  ds.map fun w => (w.1, Array.ofFn fun j : Fin w.2 => q w.1 j)

noncomputable def withPoint (y : Assignment ℝ) (ds : List (Key × Nat)) (q : Point) : Assignment ℝ :=
  (entriesOf q ds).foldl (fun x e => x.insert e.1 e.2) y

variable {y : Assignment ℝ} {ds : List (Key × Nat)} {q : Point}

theorem keys_entriesOf (q : Point) (ds : List (Key × Nat)) :
    (entriesOf q ds).map (·.1) = ds.map (·.1) := by
  rw [entriesOf, List.map_map]
  rfl

theorem get?_withPoint (hn : (ds.map (·.1)).Nodup) (k : Key) :
    (y.withPoint ds q).get? k = (KeyMap.lookup k (entriesOf q ds)).or (y.get? k) :=
  KeyMap.get?_foldl_insert (keys_entriesOf q ds ▸ hn)

theorem get?_withPoint_of_mem (hn : (ds.map (·.1)).Nodup) {w : Key × Nat} (hw : w ∈ ds) :
    (y.withPoint ds q).get? w.1 = some (Array.ofFn fun j : Fin w.2 => q w.1 j) := by
  have hm : (w.1, Array.ofFn fun j : Fin w.2 => q w.1 j) ∈ entriesOf q ds :=
    List.mem_map.mpr ⟨w, hw, rfl⟩
  rw [get?_withPoint hn, (KeyMap.lookup_eq_some_iff (keys_entriesOf q ds ▸ hn)).mpr hm,
    Option.some_or]

theorem get?_withPoint_of_not_mem (hn : (ds.map (·.1)).Nodup) {k : Key} (hk : k ∉ ds.map (·.1)) :
    (y.withPoint ds q).get? k = y.get? k := by
  rw [get?_withPoint hn, KeyMap.lookup_eq_none_iff.mpr (keys_entriesOf q ds ▸ hk), Option.none_or]

end Assignment

namespace Elimination.Run

variable {settings : EliminationSettings ℝ} {factors rest : List (Factor ℝ)} {ks : List Key}
  {cs : List (Conditional ℝ)} {p q : Point}

theorem exists_cost (h : Run settings ks factors cs rest)
    (hs : ∀ f ∈ factors, 0 ∉ f.toLinear.sigmas) :
    ∃ c ≥ 0, ∀ p, totalCost (rowsOf factors) p = totalCost (densityRows cs) p +
      totalCost (rowsOf rest) p + c := by
  have a := h.reduces (decisive_of_soft hs settings ks) (.inl hs) ⟨0, feasible_of_soft hs 0⟩
  have ⟨c, hc, ha⟩ := a.cost
  exact ⟨c, hc, fun p => by rw [ha p (feasible_of_soft hs p), totalCost_append]⟩

theorem linear (h : Run settings ks factors cs rest) (hl : ∀ f ∈ factors, f = .linear f.toLinear) :
    ∀ f ∈ rest, f = .linear f.toLinear := by
  induction h
  case nil => exact hl
  case cons ih =>
    refine ih fun g hg => ?_
    cases mem_leftover hg
    case inl hg => exact hl g hg.left
    case inr hg => exact hg ▸ rfl

theorem exists_extension (h : Run settings ks factors cs rest)
    (hs : ∀ f ∈ factors, 0 ∉ f.toLinear.sigmas) (hn : ks.Nodup) {y : Assignment ℝ}
    (hy : y.Fits (dimsOf rest)) :
    ∃ x : Assignment ℝ, x.Fits (dimsOf factors) ∧ (∀ k ∉ ks, x.get? k = y.get? k) ∧
      ∀ c ∈ cs, c.Meets x.point := by
  have ⟨ds, hds, hdims⟩ := h.exists_eliminated
  have ⟨q, hq, hm⟩ := h.exists_meets hs y.point
  rw [← hds] at hn
  have hoff : ∀ k ∉ ks, (y.withPoint ds q).get? k = y.get? k :=
    fun k hk => Assignment.get?_withPoint_of_not_mem hn (hds ▸ hk)
  have heq : Point.EqOn (dimsOf factors) (y.withPoint ds q).point q := by
    intro w hw j hj
    cases (hdims w).mp hw
    case inl hw =>
      rw [Assignment.point_eq (Assignment.get?_withPoint_of_mem hn hw)]
      simp [hj]
    case inr hw =>
      have hk := (h.mem_dims_rest.mp hw).right
      rw [Assignment.point_congr (hoff w.1 hk), hq w.1 hk]
  refine ⟨y.withPoint ds q, fun w hw => ?_, hoff, fun c hc i hi => ?_⟩
  case refine_1 =>
    cases (hdims w).mp hw
    case inl hw => exact ⟨_, Assignment.get?_withPoint_of_mem hn hw, Array.size_ofFn⟩
    case inr hw =>
      rw [hoff w.1 (h.mem_dims_rest.mp hw).right]
      exact hy w hw
  case refine_2 =>
    rw [h.residual_congr heq c hc i hi]
    exact hm c hc i hi

end Elimination.Run

namespace FactorGraph

variable {g rest : FactorGraph ℝ} {x y : Assignment ℝ} {order : EliminationOrder}
  {settings : EliminationSettings ℝ} {net : BayesNet ℝ} {factors : List (LinearFactor ℝ)}

theorem error_eq (hf : ∀ f ∈ g.factors, f.WellFormed) (hl : ∀ f ∈ g.factors, f = .linear f.toLinear)
    (hx : x.Fits (dimsOf g.factors)) : g.error x = .ok (totalCost (rowsOf g.factors) x.point) := by
  have hg : ofLinear (g.factors.map (·.toLinear)) = g := by
    have hm : (g.factors.map (·.toLinear)).map Factor.linear = g.factors := by
      rw [List.map_map]
      exact (List.map_congr_left fun f hm => (hl f hm).symm).trans (List.map_id _)
    rw [ofLinear, hm]
  rw [← hg] at hx ⊢
  exact error_eq_totalCost (List.forall_mem_map.mpr fun f hm => (hf f hm).linear)
    (fits_ofLinear.mp hx)

theorem toFactorGraph_eq (net : BayesNet ℝ) :
    net.toFactorGraph = ofLinear (net.conditionals.map (·.toFactor)) := by
  rw [BayesNet.toFactorGraph, ofLinear, List.map_map]
  rfl

theorem error_densities (hf : ∀ c ∈ net.conditionals, c.toFactor.WellFormed)
    (hx : ∀ c ∈ net.conditionals, x.Fits c.toFactor.dims) :
    net.error x = .ok (totalCost (densityRows net.conditionals) x.point) := by
  rw [BayesNet.error, toFactorGraph_eq,
    error_ofLinear (List.forall_mem_map.mpr hf) (List.forall_mem_map.mpr hx), List.flatMap_map]
  rfl

theorem error_net (hw : ∀ c ∈ net.conditionals, c.WellFormed)
    (hx : ∀ c ∈ net.conditionals, x.Fits c.toFactor.dims) :
    net.error x = .ok (totalCost (densityRows net.conditionals) x.point) :=
  error_densities (fun c hc => (hw c hc).factor) hx

theorem totalCost_rowsOf_congr {factors : List (Factor ℝ)} {p q : Point}
    (h : Point.EqOn (dimsOf factors) p q) :
    totalCost (rowsOf factors) p = totalCost (rowsOf factors) q := by
  apply totalCost_congr
  intro m hm
  have ⟨f, hf, hm⟩ := List.mem_flatMap.mp hm
  have ⟨i, _, hi⟩ := List.mem_map.mp hm
  exact hi ▸ residual_congr (h.mono fun w hw => mem_dimsOf.mpr ⟨f, hf, hw⟩) i

-- The factors `rest` rate the values of the variables that have not been removed by the least error
-- that these allow, up to a constant.
def IsMarginal (factors : List (LinearFactor ℝ)) (removed : List Key) (rest : FactorGraph ℝ)
    (c : ℝ) : Prop :=
  ∀ y : Assignment ℝ, (∀ f ∈ factors, y.Fits (f.dims.filter (·.1 ∉ removed))) →
    ∃ e, rest.error y = .ok e ∧ IsLeast {e' | ∃ x : Assignment ℝ, (∀ f ∈ factors, x.Fits f.dims) ∧
      (∀ k ∈ (ofLinear factors).keys, k ∉ removed → x.get? k = y.get? k) ∧
      (ofLinear factors).error x = .ok e'} (e + c)

section Run

variable {c : ℝ} (hf : ∀ f ∈ factors, f.WellFormed)
  (hr : Run settings order.keys (ofLinear factors).factors net.conditionals rest.factors)
  (hc : ∀ p, totalCost (rowsOf (ofLinear factors).factors) p =
    totalCost (densityRows net.conditionals) p + totalCost (rowsOf rest.factors) p + c)

theorem error_rest
    (hr : Run settings order.keys (ofLinear factors).factors net.conditionals rest.factors)
    (hx : x.Fits (dimsOf rest.factors)) :
    rest.error x = .ok (totalCost (rowsOf rest.factors) x.point) :=
  error_eq hr.wellFormed.right (hr.linear (List.forall_mem_map.mpr fun _ _ => rfl)) hx

include hf hr hc

theorem error_run (hx : ∀ f ∈ factors, x.Fits f.dims) :
    ∃ e en er, (ofLinear factors).error x = .ok e ∧ net.error x = .ok en ∧ rest.error x = .ok er ∧
      e = en + er + c := by
  have hfit := fits_ofLinear.mpr hx
  have hrest : x.Fits (dimsOf rest.factors) := hfit.mono fun w hw => (hr.mem_dims_rest.mp hw).left
  exact ⟨_, _, _, error_eq_totalCost hf hx,
    error_net hr.wellFormed.left fun c hm => hfit.mono (hr.dims_subset c hm), error_rest hr hrest,
    hc x.point⟩

theorem isMarginal_run (hs : ∀ f ∈ factors, 0 ∉ f.sigmas) :
    IsMarginal factors order.keys rest c := by
  have hw := wellFormed_ofLinear hf
  intro y hy
  have hfit : y.Fits (dimsOf rest.factors) := by
    intro w hw
    have ⟨hw, hk⟩ := hr.mem_dims_rest.mp hw
    have ⟨_, hm, hw⟩ := mem_dimsOf.mp hw
    have ⟨f, hf, he⟩ := List.mem_map.mp hm
    cases he
    exact hy f hf w (List.mem_filter.mpr ⟨hw, by simpa using hk⟩)
  -- Only the values of variables that are left matter for the factors that are left.
  have hrest {x : Assignment ℝ} (hx : ∀ k ∈ (ofLinear factors).keys, k ∉ order.keys →
      x.get? k = y.get? k) :
      totalCost (rowsOf rest.factors) x.point = totalCost (rowsOf rest.factors) y.point := by
    apply totalCost_rowsOf_congr
    intro w hm j _
    have ⟨hm, hk⟩ := hr.mem_dims_rest.mp hm
    rw [Assignment.point_congr (hx w.1 ((mem_keys_iff_dims hw).mpr ⟨w.2, hm⟩) hk)]
  refine ⟨_, error_rest hr hfit, ?_, ?_⟩
  case refine_1 =>
    -- The removed variables can be chosen such that the densities are met, which costs nothing.
    have ⟨x, hx, hoff, hm⟩ := hr.exists_extension (List.forall_mem_map.mpr hs) order.nodup hfit
    refine ⟨x, fits_ofLinear.mp hx, fun k _ => hoff k, ?_⟩
    rw [error_eq_totalCost hf (fits_ofLinear.mp hx), hc, Run.totalCost_densityRows.mpr hm,
      hrest fun k _ => hoff k, zero_add]
  case refine_2 =>
    intro e ⟨x, hx, hxy, he⟩
    cases he.symm.trans (error_eq_totalCost hf hx)
    rw [hc, hrest hxy, add_assoc]
    exact le_add_of_nonneg_left totalCost_nonneg

end Run

section Summary

variable {α : Type} [Arith α] [RealLike α] {g rest : FactorGraph α} {saved : List Key}
  {settings : EliminationSettings α}

def unsaved (g : FactorGraph α) (saved : List Key) : EliminationOrder :=
  .natural (g.keys.filter fun k => !saved.contains k)

omit [Arith α] [RealLike α] in
theorem mem_unsaved {k : Key} : k ∈ (g.unsaved saved).keys ↔ k ∈ g.keys ∧ k ∉ saved := by
  rw [unsaved, EliminationOrder.natural, Key.mem_ascending, List.mem_filter]
  simp

omit [Arith α] [RealLike α] in
theorem keys_unsaved (g : FactorGraph α) (saved : List Key) :
    (g.unsaved saved).keys = g.keys.filter (· ∉ saved) := by
  apply (KeyMap.keys_pairwise _).eq_of_mem_iff (g.pairwise_keys.filter _)
  intro k
  exact mem_unsaved.trans (by simp)

theorem summarize_eq_ok :
    g.summarize saved settings = .ok rest ↔
      (∀ k ∈ saved, k ∈ g.keys) ∧ ∃ net, g.eliminatePartial (g.unsaved saved) settings =
        .ok (net, rest) := by
  unfold summarize
  split
  case h_1 k hk =>
    have hm : k ∈ saved := Key.mem_ascending.mp (List.mem_of_find?_eq_some hk)
    have hn : k ∉ g.keys := by simpa using List.find?_some hk
    simpa using fun h => absurd (h k hm) hn
  case h_2 hn =>
    have hs : ∀ k ∈ saved, k ∈ g.keys := by simpa [Key.mem_ascending] using hn
    simp only [Outcome.bind_eq_ok, Outcome.pure_eq_ok, Except.ok.injEq, Prod.exists,
      exists_eq_right]
    exact ⟨fun h => ⟨hs, h⟩, And.right⟩

theorem exists_summarize [UnitDeviations α] (hf : ∀ f ∈ g.factors, f.WellFormed)
    (hc : Widths.Consistent (dimsOf g.factors)) (hs : ∀ k ∈ saved, k ∈ g.keys)
    (hfree : settings.allowFree = true) :
    ∃ rest, g.summarize saved settings = .ok rest := by
  have ⟨cs, rest, hr⟩ := Run.exists_run hf hc (g.unsaved saved).nodup
    (fun k hk => (mem_keys_iff_dims hf).mp (mem_unsaved.mp hk).left) hfree
  exact ⟨⟨rest⟩,
    summarize_eq_ok.mpr ⟨hs, ⟨cs⟩,
    (eliminatePartial_eq_ok (nodup_keys hf)).mpr (run_iff.mp hr).right⟩⟩

end Summary

-- Without hard constraints, the error of a graph is that of the densities and of the factors that
-- are left, up to a constant, and the factors that are left are the exact marginal. So is a summary
-- on the saved variables, which is found for every rank if variables may be free.
theorem isMarginal_eliminatePartial (hf : ∀ f ∈ factors, f.WellFormed)
    (hs : ∀ f ∈ factors, 0 ∉ f.sigmas) :
    (∀ order settings net rest,
      (ofLinear factors).eliminatePartial order settings = .ok (net, rest) →
      ∃ c, (∀ x : Assignment ℝ, (∀ f ∈ factors, x.Fits f.dims) → ∃ e en er,
        (ofLinear factors).error x = .ok e ∧
        net.error x = .ok en ∧ rest.error x = .ok er ∧ e = en + er + c) ∧
        IsMarginal factors order.keys rest c) ∧
    ∀ saved settings,
      (∀ rest, (ofLinear factors).summarize saved settings = .ok rest →
        rest.keys = (ofLinear factors).keys.filter (· ∈ saved) ∧
          ∃ c, IsMarginal factors ((ofLinear factors).keys.filter (· ∉ saved)) rest c) ∧
      (settings.allowFree = true → (∀ k ∈ saved, k ∈ (ofLinear factors).keys) →
        (∃ ds, (ofLinear factors).dims = .ok ds) →
        ∃ rest, (ofLinear factors).summarize saved settings = .ok rest) := by
  have hw := wellFormed_ofLinear hf
  have hs' : ∀ f ∈ (ofLinear factors).factors, 0 ∉ f.toLinear.sigmas := List.forall_mem_map.mpr hs
  constructor
  case left =>
    intro order settings net rest h
    have hr := run_of_eliminatePartial hw h
    have ⟨c, _, hc⟩ := hr.exists_cost hs'
    exact ⟨c, fun x => error_run hf hr hc, isMarginal_run hf hr hc hs⟩
  case right =>
    intro saved settings
    refine ⟨fun rest h => ?_,
      fun hfree hk hd => exists_summarize hw (exists_dims_iff.mp hd) hk hfree⟩
    have ⟨_, net, h⟩ := summarize_eq_ok.mp h
    have hr := run_of_eliminatePartial hw h
    have ⟨c, _, hc⟩ := hr.exists_cost hs'
    refine ⟨(keys_of_run hr).trans (List.filter_congr fun k hk => ?_), c, ?_⟩
    case refine_1 => simp [mem_unsaved, hk]
    case refine_2 =>
      rw [← keys_unsaved]
      exact isMarginal_run hf hr hc hs

noncomputable def compared : List (LinearFactor ℝ) :=
  scalarRow [1, 2] [1, -1] 3 2 :: redundant

theorem wellFormed_compared : ∀ f ∈ compared, f.WellFormed :=
  List.forall_mem_cons.mpr ⟨wellFormed_scalarRow (by decide) zero_le_two, wellFormed_redundant⟩

theorem dimsOf_compared :
    dimsOf (ofLinear compared).factors = [(1, 1), (2, 1), (0, 1), (1, 1), (0, 1), (1, 1)] :=
  rfl

theorem consistent_compared : Widths.Consistent (dimsOf (ofLinear compared).factors) := by
  rw [dimsOf_compared]
  unfold Widths.Consistent
  decide

theorem isMarginal_compared :
    ∃ rest c, (ofLinear compared).summarize [2] ⟨0, 0, true⟩ = .ok rest ∧
      rest.keys = (ofLinear compared).keys.filter (· ∈ [2]) ∧
      IsMarginal compared ((ofLinear compared).keys.filter (· ∉ [2])) rest c := by
  have hf := wellFormed_compared
  have hs : ∀ f ∈ compared, 0 ∉ f.sigmas := by simp [compared, redundant]
  have hk : ∀ k ∈ [2], k ∈ (ofLinear compared).keys := by
    simp [mem_keys_iff_dims (wellFormed_ofLinear hf), dimsOf_compared]
  obtain ⟨hm, hr⟩ := (isMarginal_eliminatePartial hf hs).right [2] ⟨0, 0, true⟩
  obtain ⟨rest, h⟩ := hr rfl hk (exists_dims_iff.mpr consistent_compared)
  obtain ⟨hkeys, c, hc⟩ := hm rest h
  exact ⟨rest, c, h, hkeys, hc⟩

end FactorGraph
end LinearGaussian
