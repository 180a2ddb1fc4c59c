import LinearGaussian.Proofs.Rank
import LinearGaussian.Proofs.Success

namespace LinearGaussian

open Measurement LinearFactor

-- Of all points that satisfy the hard constraints, it has the least cost, and it alone.
structure IsOptimum (factors : List (Factor ℝ)) (p : Point) : Prop where
  feasible : Feasible (rowsOf factors) p
  least    : ∀ q, Feasible (rowsOf factors) q →
    totalCost (rowsOf factors) p ≤ totalCost (rowsOf factors) q
  unique   : ∀ q, Feasible (rowsOf factors) q →
    totalCost (rowsOf factors) q ≤ totalCost (rowsOf factors) p →
    Point.EqOn (dimsOf factors) q p

namespace IsOptimum

variable {factors factors' : List (Factor ℝ)} {p q : Point}

theorem eqOn (hp : IsOptimum factors p) (hq : IsOptimum factors q) :
    Point.EqOn (dimsOf factors) p q :=
  hq.unique p hp.feasible (hp.least q hq.feasible)

theorem perm (h : IsOptimum factors p) (hp : factors.Perm factors') : IsOptimum factors' p := by
  have hr : (rowsOf factors).Perm (rowsOf factors') := hp.flatMap_right _
  constructor
  case feasible => exact (feasible_perm hr).mp h.feasible
  case least =>
    intro q hq
    rw [← totalCost_perm hr, ← totalCost_perm hr]
    exact h.least q ((feasible_perm hr).mpr hq)
  case unique =>
    intro q hq hle
    rw [← totalCost_perm hr, ← totalCost_perm hr] at hle
    exact (h.unique q ((feasible_perm hr).mpr hq) hle).mono fun w hw =>
      (hp.flatMap_right _).mem_iff.mpr hw

end IsOptimum

namespace Elimination.Run

variable {settings : EliminationSettings ℝ} {factors rest : List (Factor ℝ)} {ks : List Key}
  {cs : List (Conditional ℝ)} {p q : Point}

theorem mem_densityRows {m : Measurement Point} :
    m ∈ densityRows cs ↔ ∃ c ∈ cs, ∃ i < c.rows, c.toFactor.measurement i = m := by
  simp only [densityRows, List.mem_flatMap, measurements, List.mem_map, List.mem_range]
  rfl

theorem residual_rest (hr : dimsOf rest = []) (p q : Point) :
    ∀ m ∈ rowsOf rest, m.residual p = m.residual q := by
  intro m hm
  have ⟨f, hf, hm⟩ := List.mem_flatMap.mp hm
  have ⟨i, _, hi⟩ := List.mem_map.mp hm
  have hd : f.toLinear.dims = [] := List.flatMap_eq_nil_iff.mp hr f hf
  exact hi ▸ LinearFactor.residual_congr (by simp [Point.EqOn, hd]) i

theorem residual_of_alike (hr : dimsOf rest = []) (h : Alike cs p q) :
    ∀ m ∈ densityRows cs ++ rowsOf rest, m.residual p = m.residual q := by
  intro m hm
  cases List.mem_append.mp hm
  case inl hm =>
    have ⟨c, hc, i, hi, he⟩ := mem_densityRows.mp hm
    exact he ▸ h c hc i hi
  case inr hm => exact residual_rest hr p q m hm

theorem totalCost_densityRows : totalCost (densityRows cs) p = 0 ↔ ∀ c ∈ cs, c.Meets p := by
  rw [totalCost_eq_zero_iff]
  constructor
  case mp =>
    exact fun h c hc i hi => h (c.toFactor.measurement i) (mem_densityRows.mpr ⟨c, hc, i, hi, rfl⟩)
  case mpr =>
    intro h m hm
    have ⟨c, hc, i, hi, he⟩ := mem_densityRows.mp hm
    exact he ▸ h c hc i hi

theorem feasible_of_soft (hs : ∀ f ∈ factors, 0 ∉ f.toLinear.sigmas) (p : Point) :
    Feasible (rowsOf factors) p := by
  intro m hm
  have ⟨f, hf, hm⟩ := List.mem_flatMap.mp hm
  have hn : f.toLinear.isConstrained = false := by
    rw [← Bool.not_eq_true, isConstrained_iff]
    exact hs f hf
  exact feasible_of_unconstrained hn p m hm

theorem feasible_of_alike (hr : dimsOf rest = []) (h : Alike cs p q)
    (hp : Feasible (densityRows cs ++ rowsOf rest) p) :
    Feasible (densityRows cs ++ rowsOf rest) q :=
  fun m hm hs => (residual_of_alike hr h m hm).symm.trans (hp m hm hs)

theorem diagonal_ne_zero (h : Run settings ks factors cs rest) (hr : dimsOf rest = [])
    (ha : Agree (rowsOf factors) (densityRows cs ++ rowsOf rest)) (hp : Feasible (rowsOf factors) p)
    (hsep : Separates factors) : ∀ c ∈ cs, ∀ a ∈ c.diagonal, a ≠ 0 := by
  by_contra hd
  have ⟨u, v, huv, hne⟩ := h.exists_alike hd
  have ⟨c, _, hc⟩ := ha.cost
  -- From the admitted point on, the densities see no change in the direction from `u` to `v`, nor
  -- in the opposite one.
  have hq : Alike cs p (p + v - u) := by
    intro c hc i hi
    rw [residual_add_sub, huv c hc i hi, add_sub_cancel_right]
  have hq' : Alike cs p (p + p - (p + v - u)) := by
    intro c hc i hi
    rw [residual_add_sub, ← hq c hc i hi, add_sub_cancel_right]
  have hcost (z : Point) (hz : Alike cs p z) : totalCost (rowsOf factors) z =
      totalCost (rowsOf factors) p := by
    have hf := (ha.feasible z).mpr $ feasible_of_alike hr hz ((ha.feasible p).mp hp)
    rw [hc z hf, hc p hp, totalCost_congr (residual_of_alike hr hz)]
  have hline : ∀ m ∈ rowsOf factors, m.residual (p + p - (p + v - u)) =
      2 * m.residual p - m.residual (p + v - u) := by
    intro m hm
    have ⟨f, _, hm⟩ := List.mem_flatMap.mp hm
    have ⟨i, _, hi⟩ := List.mem_map.mp hm
    rw [← hi, two_mul]
    exact residual_add_sub _ i p p _
  have he := hsep _ _ $ residual_eq_of_totalCost hline (hcost _ hq) (hcost _ hq')
  refine hne fun w hw j hj => ?_
  have he := he w hw j hj
  simp only [Pi.add_apply, Pi.sub_apply] at he
  linarith

theorem isOptimum (h : Run settings ks factors cs rest) (hr : dimsOf rest = [])
    (ha : Agree (rowsOf factors) (densityRows cs ++ rowsOf rest)) (hp : Feasible (rowsOf factors) p)
    (hd : ∀ c ∈ cs, ∀ a ∈ c.diagonal, a ≠ 0) (hq : ∀ c ∈ cs, c.Meets q) : IsOptimum factors q := by
  have ⟨c, _, hc⟩ := ha.cost
  have hq0 := totalCost_densityRows.mpr hq
  have hf : Feasible (rowsOf factors) q := by
    have ⟨_, hpr⟩ := feasible_append.mp ((ha.feasible p).mp hp)
    refine (ha.feasible q).mpr $ feasible_append.mpr
      ⟨fun m hm _ => totalCost_eq_zero_iff.mp hq0 m hm, fun m hm hs => ?_⟩
    rw [residual_rest hr q p m hm, hpr m hm hs]
  -- The densities cost nothing there, and what is left costs the same everywhere.
  have hcost (z : Point) (hz : Feasible (rowsOf factors) z) :
      totalCost (rowsOf factors) z = totalCost (rowsOf factors) q +
        totalCost (densityRows cs) z := by
    rw [hc z hz, hc q hf, totalCost_append, totalCost_append, hq0,
      totalCost_congr (residual_rest hr z q)]
    ring
  refine ⟨hf, fun z hz => ?_, fun z hz hle => ?_⟩
  case refine_1 =>
    rw [hcost z hz]
    exact le_add_of_nonneg_right totalCost_nonneg
  case refine_2 =>
    have hz0 : totalCost (densityRows cs) z = 0 :=
      le_antisymm (by linarith [hcost z hz]) totalCost_nonneg
    refine h.eqOn_of_alike hr hd fun c hc i hi => ?_
    rw [totalCost_densityRows.mp hz0 c hc i hi, hq c hc i hi]

end Elimination.Run

namespace FactorGraph

open Elimination

variable {g : FactorGraph ℝ} {order : EliminationOrder} {settings : EliminationSettings ℝ}
  {net : BayesNet ℝ} {x : Assignment ℝ}

theorem exists_optimize (hf : ∀ f ∈ g.factors, f.WellFormed)
    (h : g.eliminate order settings = .ok net)
    (hd : ∀ c ∈ net.conditionals, ∀ a ∈ c.diagonal, a ≠ 0) :
    ∃ x, g.optimize order settings = .ok x ∧ x.keys = g.keys ∧ x.Fits (dimsOf g.factors) ∧
      ∀ c ∈ net.conditionals, c.Meets x.point := by
  have ⟨_, hrun, hrest, _⟩ := run_of_eliminate hf h
  have ⟨x, hx, hk, hfit⟩ := exists_optimize_net hf h
  exact ⟨x, Outcome.bind_eq_ok.mpr ⟨net, h, hx⟩, hk, hfit, hrun.meets_optimize hrest hd hx⟩

-- No comparison with a tolerance is close, whenever the elimination comes to a variable.
def Decisive (g : FactorGraph ℝ) (order : EliminationOrder) (settings : EliminationSettings ℝ) :
    Prop :=
  ∀ before k after s f, order.keys = before ++ k :: after →
    before.foldlM (EliminationState.step settings) (.ofGraph g) = .ok s →
    combine ((s.take k).1.map (·.toLinear)) [k] = .ok f → f.Decisive settings

theorem decisive_iff (hf : ∀ f ∈ g.factors, f.WellFormed) :
    g.Decisive order settings ↔ Run.Decisive settings order.keys g.factors := by
  constructor
  case mp =>
    intro h before k after cs rest f hks hr hc
    have ⟨s, hs, ht⟩ := (EliminationState.gathered_iff (nodup_keys hf) (k := k)).mpr
      ⟨cs, rest, (run_iff.mp hr).right, rfl⟩
    exact h before k after s f hks hs (ht ▸ hc)
  case mpr =>
    intro h before k after s f hks hs hc
    have ⟨cs, rest, hr, ht⟩ :=
      (EliminationState.gathered_iff (nodup_keys hf) (k := k)).mp ⟨s, hs, rfl⟩
    exact h before k after cs rest f hks (run_iff.mpr ⟨hf, hr⟩) (ht ▸ hc)

section Decisive

variable {p : Point} (hf : ∀ f ∈ g.factors, f.WellFormed) (hd : g.Decisive order settings)
  (ht : (∀ f ∈ g.factors, 0 ∉ f.toLinear.sigmas) ∨ (0 < settings.zeroTol ∧ 0 < settings.rankTol))
  (hp : Feasible (rowsOf g.factors) p) (h : g.eliminate order settings = .ok net)

include hf hd ht hp h

theorem agree_eliminate :
    ∃ rest, Run settings order.keys g.factors net.conditionals rest ∧ dimsOf rest = [] ∧
      Agree (rowsOf g.factors) (densityRows net.conditionals ++ rowsOf rest) := by
  have ⟨rest, hrun, hrest, _⟩ := run_of_eliminate hf h
  exact ⟨rest, hrun, hrest, hrun.reduces ((decisive_iff hf).mp hd) ht ⟨p, hp⟩⟩

theorem diagonal_ne_zero (hs : Separates g.factors) :
    ∀ c ∈ net.conditionals, ∀ a ∈ c.diagonal, a ≠ 0 := by
  have ⟨_, hrun, hrest, ha⟩ := agree_eliminate hf hd ht hp h
  exact hrun.diagonal_ne_zero hrest ha hp hs

theorem exists_optimum (hn : ∀ c ∈ net.conditionals, ∀ a ∈ c.diagonal, a ≠ 0) :
    ∃ x, g.optimize order settings = .ok x ∧ x.keys = g.keys ∧ x.Fits (dimsOf g.factors) ∧
      IsOptimum g.factors x.point := by
  have ⟨_, hrun, hrest, ha⟩ := agree_eliminate hf hd ht hp h
  have ⟨x, hx, hk, hfit, hm⟩ := exists_optimize hf h hn
  exact ⟨x, hx, hk, hfit, hrun.isOptimum hrest ha hp hn hm⟩

end Decisive

theorem exists_optimum_of_soft (hf : ∀ f ∈ g.factors, f.WellFormed)
    (hs : ∀ f ∈ g.factors, 0 ∉ f.toLinear.sigmas) (hsep : Separates g.factors)
    (h : g.eliminate order settings = .ok net) :
    ∃ x, g.optimize order settings = .ok x ∧ x.keys = g.keys ∧ x.Fits (dimsOf g.factors) ∧
      IsOptimum g.factors x.point := by
  have hd : g.Decisive order settings :=
    (decisive_iff hf).mpr $ Run.decisive_of_soft hs settings order.keys
  have hp := Run.feasible_of_soft hs 0
  exact exists_optimum hf hd (.inl hs) hp h $ diagonal_ne_zero hf hd (.inl hs) hp h hsep

theorem isOptimum_optimize (hf : ∀ f ∈ g.factors, f.WellFormed)
    (hs : ∀ f ∈ g.factors, 0 ∉ f.toLinear.sigmas) (hsep : Separates g.factors)
    (h : g.optimize order settings = .ok x) :
    x.keys = g.keys ∧ x.Fits (dimsOf g.factors) ∧ IsOptimum g.factors x.point := by
  have ⟨net, hn, _⟩ := Outcome.bind_eq_ok.mp h
  have ⟨y, hy, ho⟩ := exists_optimum_of_soft hf hs hsep hn
  cases h.symm.trans hy
  exact ho

theorem get?_eq_of_point (hf : ∀ f ∈ g.factors, f.WellFormed) {y : Assignment ℝ}
    (hx : x.Fits (dimsOf g.factors)) (hy : y.Fits (dimsOf g.factors))
    (h : Point.EqOn (dimsOf g.factors) x.point y.point) {k : Key} (hk : k ∈ g.keys) :
    x.get? k = y.get? k :=
  have ⟨_, hd⟩ := (mem_keys_iff_dims hf).mp hk
  Assignment.get?_eq_of_eqOn hx hy h hd

theorem optimize_eq_of_perm {g' : FactorGraph ℝ} {order' : EliminationOrder}
    {settings' : EliminationSettings ℝ} {x' : Assignment ℝ} (hf : ∀ f ∈ g.factors, f.WellFormed)
    (hs : ∀ f ∈ g.factors, 0 ∉ f.toLinear.sigmas) (hsep : Separates g.factors)
    (hp : g'.factors.Perm g.factors) (h : g.optimize order settings = .ok x)
    (h' : g'.optimize order' settings' = .ok x') : x' = x := by
  have ⟨hk, hfit, ho⟩ := isOptimum_optimize hf hs hsep h
  have ⟨hk', hfit', ho'⟩ := isOptimum_optimize (fun f hm => hf f (hp.mem_iff.mp hm))
    (fun f hm => hs f (hp.mem_iff.mp hm)) (hsep.perm hp.symm) h'
  have hkeys : ∀ k, k ∈ x'.keys ↔ k ∈ x.keys := by simp [hk, hk', mem_keys, hp.mem_iff]
  have hfit' : x'.Fits (dimsOf g.factors) :=
    hfit'.mono fun w hw => (hp.flatMap_right _).mem_iff.mpr hw
  refine KeyMap.ext_of_keys (KeyMap.keys_eq_iff.mpr hkeys) fun k hm => ?_
  exact get?_eq_of_point hf hfit' hfit ((ho'.perm hp).eqOn ho) (hk ▸ (hkeys k).mp hm)

section Linear

variable {factors : List (LinearFactor ℝ)}

theorem wellFormed_ofLinear (hf : ∀ f ∈ factors, f.WellFormed) :
    ∀ f ∈ (ofLinear factors).factors, f.WellFormed :=
  List.forall_mem_map.mpr fun f hm => ⟨hf f hm, rfl⟩

theorem map_toLinear_ofLinear (factors : List (LinearFactor ℝ)) :
    (ofLinear factors).factors.map (·.toLinear) = factors := by
  rw [ofLinear, List.map_map]
  exact List.map_id _

theorem rowsOf_ofLinear (factors : List (LinearFactor ℝ)) :
    rowsOf (ofLinear factors).factors = factors.flatMap measurements := by
  rw [rowsOf, ofLinear, List.flatMap_map]
  rfl

theorem fits_ofLinear :
    x.Fits (dimsOf (ofLinear factors).factors) ↔ ∀ f ∈ factors, x.Fits f.dims := by
  rw [dimsOf, ofLinear, List.flatMap_map]
  refine ⟨fun h f hm w hw => h w (List.mem_flatMap.mpr ⟨f, hm, hw⟩), fun h w hw => ?_⟩
  obtain ⟨f, hm, hw⟩ := List.mem_flatMap.mp hw
  exact h f hm w hw

theorem error_eq_totalCost (hf : ∀ f ∈ factors, f.WellFormed) (hx : ∀ f ∈ factors, x.Fits f.dims) :
    (ofLinear factors).error x = .ok (totalCost (rowsOf (ofLinear factors).factors) x.point) := by
  rw [error_ofLinear hf hx, rowsOf_ofLinear]

theorem admits_iff_feasible (hf : ∀ f ∈ factors, f.WellFormed) (hx : ∀ f ∈ factors, x.Fits f.dims) :
    (∀ f ∈ factors, f.Admits x) ↔ Feasible (rowsOf (ofLinear factors).factors) x.point := by
  rw [admits_ofLinear hf hx, rowsOf_ofLinear]

theorem error_le_of_isOptimum (hf : ∀ f ∈ factors, f.WellFormed) {y : Assignment ℝ}
    (hx : ∀ f ∈ factors, x.Fits f.dims) (hy : ∀ f ∈ factors, y.Fits f.dims)
    (ho : IsOptimum (ofLinear factors).factors x.point)
    (hq : Feasible (rowsOf (ofLinear factors).factors) y.point) :
    ∃ e', (ofLinear factors).error y = .ok e' ∧
      totalCost (rowsOf (ofLinear factors).factors) x.point ≤ e' ∧
      (e' ≤ totalCost (rowsOf (ofLinear factors).factors) x.point →
        ∀ k ∈ (ofLinear factors).keys, y.get? k = x.get? k) :=
  ⟨_, error_eq_totalCost hf hy, ho.least y.point hq,
    fun hle _ => get?_eq_of_point (wellFormed_ofLinear hf)
    (fits_ofLinear.mpr hy) (fits_ofLinear.mpr hx) (ho.unique y.point hq hle)⟩

-- Without hard constraints, and if the coefficients of the variables have full rank, the values
-- that are found have the least error, and no others have it. So they depend neither on the order
-- of the variables nor on that of the factors.
theorem optimize_unique (hf : ∀ f ∈ factors, f.WellFormed) (hs : ∀ f ∈ factors, 0 ∉ f.sigmas)
    {layout : EliminationOrder} {a : Mat ℝ}
    (ha : (ofLinear factors).augmentedJacobian layout = .ok a)
    (hr : a.coefficients.rank = a.cols - 1)
    (h : (ofLinear factors).optimize order settings = .ok x) :
    (x.keys = (ofLinear factors).keys ∧ ∀ f ∈ factors, x.Fits f.dims) ∧
    (∃ e, (ofLinear factors).error x = .ok e ∧ ∀ y : Assignment ℝ, (∀ f ∈ factors, y.Fits f.dims) →
      ∃ e', (ofLinear factors).error y = .ok e' ∧ e ≤ e' ∧
        (e' ≤ e → ∀ k ∈ (ofLinear factors).keys, y.get? k = x.get? k)) ∧
    ∀ factors' order' settings' x', factors'.Perm factors →
      (ofLinear factors').optimize order' settings' = .ok x' → x' = x := by
  have hw := wellFormed_ofLinear hf
  have hs' : ∀ f ∈ (ofLinear factors).factors, 0 ∉ f.toLinear.sigmas := List.forall_mem_map.mpr hs
  have hsep := (rank_coefficients_iff hw ha).mp hr
  have ⟨hk, hfit, ho⟩ := isOptimum_optimize hw hs' hsep h
  have hx := fits_ofLinear.mp hfit
  refine ⟨⟨hk, hx⟩, ⟨_, error_eq_totalCost hf hx, fun y hy => ?_⟩,
    fun factors' order' settings' x' hp h' => ?_⟩
  case refine_1 => exact error_le_of_isOptimum hf hx hy ho (Run.feasible_of_soft hs' _)
  case refine_2 => exact optimize_eq_of_perm hw hs' hsep (hp.map _) h h'

theorem separates_of_scalarRows (h : ∀ w ∈ dimsOf (ofLinear factors).factors,
      w.2 = 1 ∧ ∃ a b sigma, a ≠ 0 ∧ scalarRow [w.1] [a] b sigma ∈ factors) :
    Separates (ofLinear factors).factors := by
  intro p q hpq w hw j hj
  have ⟨hd, a, b, sigma, ha, hm⟩ := h w hw
  have hj : j = 0 := by omega
  have hr : (scalarRow [w.1] [a] b sigma).measurement 0 ∈ rowsOf (ofLinear factors).factors := by
    rw [rowsOf_ofLinear]
    exact List.mem_flatMap.mpr ⟨_, hm, by simp [measurements]⟩
  have he : (scalarRow [w.1] [a] b sigma).residual 0 p =
      (scalarRow [w.1] [a] b sigma).residual 0 q := hpq _ hr
  rw [residual_scalarRow, residual_scalarRow, sub_left_inj] at he
  exact hj ▸ mul_left_cancel₀ ha he

noncomputable def measured (sigma : ℝ) : List (LinearFactor ℝ) :=
  [scalarRow [0] [2] 4 sigma, scalarRow [0, 1] [-1, 1] 3 1, scalarRow [1] [1] 6 2]

theorem wellFormed_measured {sigma : ℝ} (hs : 0 ≤ sigma) : ∀ f ∈ measured sigma, f.WellFormed := by
  simp only [measured, List.forall_mem_cons, List.not_mem_nil, false_imp_iff, implies_true,
    and_true]
  exact ⟨wellFormed_scalarRow (by decide) hs, wellFormed_scalarRow (by decide) zero_le_one,
    wellFormed_scalarRow (by decide) zero_le_two⟩

theorem dimsOf_measured (sigma : ℝ) :
    dimsOf (ofLinear (measured sigma)).factors = [(0, 1), (0, 1), (1, 1), (1, 1)] :=
  rfl

theorem consistent_measured (sigma : ℝ) :
    Widths.Consistent (dimsOf (ofLinear (measured sigma)).factors) := by
  rw [dimsOf_measured]
  unfold Widths.Consistent
  decide

theorem mem_keys_measured {sigma : ℝ} (hs : 0 ≤ sigma) (k : Key) :
    k ∈ [1, 0] ↔ k ∈ (ofLinear (measured sigma)).keys := by
  rw [mem_keys_iff_dims (wellFormed_ofLinear (wellFormed_measured hs)), dimsOf_measured]
  simp
  grind

theorem separates_measured (sigma : ℝ) : Separates (ofLinear (measured sigma)).factors := by
  apply separates_of_scalarRows
  intro w hw
  have hw : w = (0, 1) ∨ w = (1, 1) := by simpa [dimsOf_measured] using hw
  cases hw
  case inl hw => exact hw ▸ ⟨rfl, 2, 4, sigma, two_ne_zero, .head _⟩
  case inr hw => exact hw ▸ ⟨rfl, 1, 6, 2, one_ne_zero, .tail _ (.tail _ (.head _))⟩

theorem exists_eliminate_measured {sigma : ℝ} (hs : 0 ≤ sigma) (tol : ℝ) :
    ∃ net, (ofLinear (measured sigma)).eliminate ⟨[1, 0], by decide⟩ ⟨tol, tol, true⟩ = .ok net :=
  exists_eliminate (wellFormed_ofLinear (wellFormed_measured hs)) (consistent_measured sigma)
    (mem_keys_measured hs) rfl

theorem optimize_unique_measured :
    ∃ a x, (ofLinear (measured 1)).augmentedJacobian ⟨[1, 0], by decide⟩ = .ok a ∧
      a.coefficients.rank = a.cols - 1 ∧
      (ofLinear (measured 1)).optimize ⟨[1, 0], by decide⟩ ⟨0, 0, true⟩ = .ok x ∧
      (x.keys = (ofLinear (measured 1)).keys ∧ ∀ f ∈ measured 1, x.Fits f.dims) ∧
      (∃ e, (ofLinear (measured 1)).error x = .ok e ∧ ∀ y : Assignment ℝ,
        (∀ f ∈ measured 1, y.Fits f.dims) →
        ∃ e', (ofLinear (measured 1)).error y = .ok e' ∧ e ≤ e' ∧
          (e' ≤ e → ∀ k ∈ (ofLinear (measured 1)).keys, y.get? k = x.get? k)) ∧
      ∀ factors' order' settings' x', factors'.Perm (measured 1) →
        (ofLinear factors').optimize order' settings' = .ok x' → x' = x := by
  have hf := wellFormed_measured zero_le_one
  have hs : ∀ f ∈ measured 1, 0 ∉ f.sigmas := by simp [measured]
  have hw := wellFormed_ofLinear hf
  have ⟨a, ha⟩ : ∃ a, (ofLinear (measured 1)).augmentedJacobian ⟨[1, 0], by decide⟩ = .ok a :=
    exists_augmentedJacobian hw (consistent_measured 1) (mem_keys_measured zero_le_one)
  have hr := (rank_coefficients_iff hw ha).mpr (separates_measured 1)
  have ⟨net, hn⟩ := exists_eliminate_measured zero_le_one 0
  have ⟨x, hx, _⟩ :=
    exists_optimum_of_soft hw (List.forall_mem_map.mpr hs) (separates_measured 1) hn
  exact ⟨a, x, ha, hr, hx, optimize_unique hf hs ha hr hx⟩

-- With hard constraints that can be satisfied together, the values that are found satisfy all of
-- them, and have the least error of all values that do so.
theorem optimize_constrained (hf : ∀ f ∈ factors, f.WellFormed) (hz : 0 < settings.zeroTol)
    (hr : 0 < settings.rankTol) (hd : (ofLinear factors).Decisive order settings)
    (hx : ∃ x : Assignment ℝ, (∀ f ∈ factors, x.Fits f.dims) ∧ ∀ f ∈ factors, f.Admits x)
    (h : (ofLinear factors).eliminate order settings = .ok net)
    (hn : ∀ c ∈ net.conditionals, ∀ a ∈ c.diagonal, a ≠ 0) :
    ∃ x, (ofLinear factors).optimize order settings = .ok x ∧
      (x.keys = (ofLinear factors).keys ∧ ∀ f ∈ factors, x.Fits f.dims) ∧
      (∀ f ∈ factors, f.Admits x) ∧
      ∃ e, (ofLinear factors).error x = .ok e ∧ ∀ y : Assignment ℝ, (∀ f ∈ factors, y.Fits f.dims) →
        (∀ f ∈ factors, f.Admits y) → ∃ e', (ofLinear factors).error y = .ok e' ∧ e ≤ e' ∧
          (e' ≤ e → ∀ k ∈ (ofLinear factors).keys, y.get? k = x.get? k) := by
  have ⟨x₀, hx₀, ha₀⟩ := hx
  have hp := (admits_iff_feasible hf hx₀).mp ha₀
  have ⟨x, hopt, hk, hfit, ho⟩ := exists_optimum (wellFormed_ofLinear hf) hd (.inr ⟨hz, hr⟩) hp h hn
  have hx := fits_ofLinear.mp hfit
  refine ⟨x, hopt, ⟨hk, hx⟩, (admits_iff_feasible hf hx).mpr ho.feasible, _,
    error_eq_totalCost hf hx, fun y hy ha => ?_⟩
  exact error_le_of_isOptimum hf hx hy ho ((admits_iff_feasible hf hy).mp ha)

theorem decisive_measured : (ofLinear (measured 0)).Decisive ⟨[1, 0], by decide⟩ ⟨1, 1, true⟩ := by
  rw [decisive_iff (wellFormed_ofLinear (wellFormed_measured (le_refl 0)))]
  refine Run.decisive_cons (fun f hc => ?_) fun r hs => Run.decisive_cons (fun f hc => ?_)
    fun _ _ => Run.decisive_nil
  case refine_1 =>
    have hc : combine [scalarRow [0, 1] [-1, 1] 3 1, scalarRow [1] [1] 6 2] [1] = .ok f := hc
    have hn : f.isConstrained = false := isConstrained_combine hc (by simp)
    simp [LinearFactor.Decisive, hn]
  case refine_2 =>
    obtain ⟨gs, hgs⟩ : ∃ gs, leftover (ofLinear (measured 0)).factors 1 r =
        .linear (scalarRow [0] [2] 4 0) :: gs := by
      simp only [leftover]
      split
      case isTrue => exact ⟨[], rfl⟩
      case isFalse => exact ⟨[.linear r.remaining], rfl⟩
    have hdims : ∀ w ∈ dimsOf (leftover (ofLinear (measured 0)).factors 1 r), w = (0, 1) := by
      intro w hw
      obtain ⟨_, _, _, hm, hne⟩ := hs.exists_dims
      have hmem : w = (0, 1) ∨ w = (1, 1) := by simpa [dimsOf_measured] using (hm w).mpr (.inr hw)
      exact hmem.resolve_right fun he => hne w hw (by rw [he])
    have hwf := wellFormed_gathered hs.wellFormed_leftover 0
    rw [hgs] at hc hwf hdims
    refine decisive_of_anchor hc hwf (fun g hg w hw => ?_) (by norm_num)
    obtain ⟨h, hm, he⟩ := List.mem_map.mp hg
    exact hdims w $ mem_dimsOf.mpr ⟨h, .tail _ (List.mem_of_mem_filter hm), he ▸ hw⟩

theorem admits_measured :
    ∃ x : Assignment ℝ, (∀ f ∈ measured 0, x.Fits f.dims) ∧ ∀ f ∈ measured 0, f.Admits x := by
  let x : Assignment ℝ := KeyMap.insert (KeyMap.insert ∅ 0 #[2]) 1 #[0]
  have h0 : x.get? 0 = some #[2] := by simp [x]
  have h1 : x.get? 1 = some #[0] := by simp [x]
  have hfit : ∀ f ∈ measured 0, x.Fits f.dims := by
    rw [← fits_ofLinear, dimsOf_measured]
    simp [Assignment.Fits, h0, h1]
  refine ⟨x, hfit, ?_⟩
  rw [admits_ofLinear (wellFormed_measured (le_refl 0)) hfit]
  simp [measured, measurements, measurement, Feasible, residual_scalarRow, Assignment.point, h0]
  norm_num

theorem optimize_constrained_measured :
    ∃ x, (ofLinear (measured 0)).optimize ⟨[1, 0], by decide⟩ ⟨1, 1, true⟩ = .ok x ∧
      (x.keys = (ofLinear (measured 0)).keys ∧ ∀ f ∈ measured 0, x.Fits f.dims) ∧
      (∀ f ∈ measured 0, f.Admits x) ∧
      ∃ e, (ofLinear (measured 0)).error x = .ok e ∧ ∀ y : Assignment ℝ,
        (∀ f ∈ measured 0, y.Fits f.dims) →
        (∀ f ∈ measured 0, f.Admits y) → ∃ e', (ofLinear (measured 0)).error y = .ok e' ∧ e ≤ e' ∧
          (e' ≤ e → ∀ k ∈ (ofLinear (measured 0)).keys, y.get? k = x.get? k) := by
  have hf := wellFormed_measured (le_refl 0)
  have ⟨net, h⟩ := exists_eliminate_measured (le_refl 0) 1
  have ⟨_, hfit, ha⟩ := admits_measured
  have hn := diagonal_ne_zero (wellFormed_ofLinear hf) decisive_measured (.inr ⟨one_pos, one_pos⟩)
    ((admits_iff_feasible hf hfit).mp ha) h (separates_measured 0)
  exact optimize_constrained hf one_pos one_pos decisive_measured ⟨_, hfit, ha⟩ h hn

end Linear
end FactorGraph
end LinearGaussian
