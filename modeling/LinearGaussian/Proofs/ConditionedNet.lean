import LinearGaussian.Proofs.Conditioning
import LinearGaussian.Proofs.Marginal
import LinearGaussian.BayesNet.Conditioning

namespace LinearGaussian

namespace KeyMap

variable {β : Type} {m : KeyMap β} {s : Key → Bool} {k : Key}

def restrict (m : KeyMap β) (s : Key → Bool) : KeyMap β :=
  ⟨m.entries.filter (s ·.1), m.sorted.sublist List.filter_sublist⟩

theorem mem_keys_restrict : k ∈ (m.restrict s).keys ↔ k ∈ m.keys ∧ s k := by
  have hk : (m.restrict s).keys = m.keys.filter s := by
    rw [keys, keys, List.filter_map]
    rfl
  rw [hk, List.mem_filter]

theorem get?_restrict (hk : s k) : (m.restrict s).get? k = m.get? k := by
  have hl (es : List (Key × β)) : lookup k (es.filter (s ·.1)) = lookup k es := by
    induction es
    case nil => rfl
    case cons e es ih => grind [lookup]
  exact hl m.entries

end KeyMap

namespace Conditional

variable {c : Conditional ℝ} {saved : Key → Bool} {x : Assignment ℝ} {p : Point} {w : Key × Nat}
  {i r : Nat}

noncomputable def share (c : Conditional ℝ) (i : Nat) (p : Point) (w : Key × Nat) : ℝ :=
  ∑ j ∈ Finset.range w.2, c.toFactor.coefficient w.1 i j * p w.1 j

theorem residual_eq_share (c : Conditional ℝ) (i : Nat) (p : Point) :
    c.toFactor.residual i p = (c.toFactor.dims.map (c.share i p)).sum - c.rhs i :=
  rfl

theorem Valid.triangular (h : c.Valid) : c.Triangular := by
  refine ⟨h.factor, h.le, h.square, fun i j hij => ?_⟩
  by_cases hi : i < c.rows
  case pos => simpa using h.upper i hi j hij
  case neg => exact dif_neg fun hb => hi hb.left

theorem Valid.wellFormed (h : c.Valid) (hu : ∀ s ∈ c.model.sigmas, s = 0 ∨ s = 1) : c.WellFormed :=
  ⟨h.factor, h.le, h.square, h.triangular.upper, h.dim, hu⟩

theorem sum_terms (c : Conditional ℝ) (x : Assignment ℝ) (i : Nat) (w : Key × Nat) :
    (c.terms x i w).sum = -c.share i x.point w := by
  have hs : (c.terms x i w).sum =
      ∑ j ∈ Finset.range w.2, c.toFactor.coefficient w.1 i j * (-1 * x.point w.1 j) := rfl
  simp [hs, share]

theorem rhsGiven_eq (c : Conditional ℝ) (saved : Key → Bool) (x : Assignment ℝ) (i : Nat) :
    c.rhsGiven saved x i = c.rhs i - ((c.removedDims saved).map (c.share i x.point)).sum := by
  have hs : ((c.removedDims saved).flatMap (c.terms x i)).sum =
      -((c.removedDims saved).map (c.share i x.point)).sum := by
    rw [List.flatMap_def, List.sum_flatten, List.map_map, List.sum_neg, List.map_map]
    exact congrArg List.sum (List.map_congr_left fun w _ => c.sum_terms x i w)
  rw [sub_eq_add_neg, ← hs]
  exact List.foldl_eq_apply_foldr

theorem sum_share (c : Conditional ℝ) (saved : Key → Bool) (i : Nat) (p : Point) :
    (c.toFactor.dims.map (c.share i p)).sum =
      ((c.keptDims saved).map (c.share i p)).sum +
        ((c.removedDims saved).map (c.share i p)).sum := by
  rw [← List.sum_append, ← List.map_append]
  exact ((List.filter_append_perm _ _).map _).sum_eq.symm

namespace Valid

theorem share_restrict (h : c.Valid) (hr : (c.keptRows saved)[i]? = some r)
    (hw : w ∈ c.keptDims saved) :
    (c.restrict saved x).share i p w = c.share r p w := by
  apply Finset.sum_congr rfl
  intro j hj
  rw [h.coefficient_restrict hr hw (Finset.mem_range.mp hj)]

theorem residual_restrict (h : c.Valid) (hr : (c.keptRows saved)[i]? = some r) :
    (c.restrict saved x).toFactor.residual i x.point = c.toFactor.residual r x.point := by
  rw [residual_eq_share, residual_eq_share, dims_restrict,
    List.map_congr_left fun w => h.share_restrict hr, rhs_restrict hr, rhsGiven_eq,
    sub_sub_eq_add_sub, c.sum_share saved]

theorem meets_restrict (h : c.Valid) (saved : Key → Bool) (hm : c.Meets x.point) :
    (c.restrict saved x).Meets x.point := by
  intro i hi
  have ⟨r, hlt, hr⟩ := h.exists_keptRow hi
  rw [h.residual_restrict hr, hm r hlt]

theorem diagonal_restrict (h : c.Valid) (saved : Key → Bool) (x : Assignment ℝ)
    (hd : ∀ a ∈ c.diagonal, a ≠ 0) :
    ∀ a ∈ (c.restrict saved x).diagonal, a ≠ 0 := by
  rw [diagonal_ne_zero_iff] at hd ⊢
  intro i hi
  have ⟨r, hlt, hr⟩ := h.exists_keptRow hi
  rw [h.entry_keptRows hr hr]
  exact hd r hlt

end Valid

theorem unit_restrict (saved : Key → Bool) (x : Assignment ℝ)
    (hu : ∀ s ∈ c.model.sigmas, s = 0 ∨ s = 1) :
    ∀ s ∈ (c.restrict saved x).model.sigmas, s = 0 ∨ s = 1 := by
  intro s hs
  have ⟨i, _, he⟩ := List.mem_map.mp (List.mem_toArray.mp hs)
  by_cases hi : i < c.model.sigmas.size
  case pos =>
    apply hu
    simp [← he, hi]
  case neg => exact .inr (by simp [← he, hi])

end Conditional

section Later

variable {α : Type} [Arith α] [RealLike α] {c : Conditional α} {cs : List (Conditional α)}
  {saved : Key → Bool} {x : Assignment α}

-- Every parent is a frontal variable of a later density.
def ParentsLater {α : Type} : List (Conditional α) → Prop
  | [] => True
  | c :: cs => (∀ k ∈ c.parents, k ∈ cs.flatMap (·.frontals)) ∧ ParentsLater cs

def restrictAll (saved : Key → Bool) (x : Assignment α) (cs : List (Conditional α)) :
    List (Conditional α) :=
  (cs.filter (·.Remains saved)).map (·.restrict saved x)

theorem forall_mem_restrictAll {P : Conditional α → Prop} (h : ∀ c ∈ cs, P (c.restrict saved x)) :
    ∀ c ∈ restrictAll saved x cs, P c :=
  List.forall_mem_map.mpr fun c hc => h c (List.mem_of_mem_filter hc)

theorem restrictAll_cons_pos (hr : c.Remains saved) (x : Assignment α) (cs : List (Conditional α)) :
    restrictAll saved x (c :: cs) = c.restrict saved x :: restrictAll saved x cs := by
  simp [restrictAll, hr]

theorem restrictAll_cons_neg (hr : ¬c.Remains saved) (x : Assignment α)
    (cs : List (Conditional α)) :
    restrictAll saved x (c :: cs) = restrictAll saved x cs := by
  simp [restrictAll, hr]

theorem filterMap_remains (saved : Key → Bool) (x : Assignment α) (cs : List (Conditional α)) :
    cs.filterMap (fun c => if c.Remains saved then some (c.restrict saved x) else none) =
      restrictAll saved x cs := by
  induction cs
  case nil => rfl
  case cons c cs ih =>
    by_cases hr : c.Remains saved
    case pos => simp [hr, restrictAll_cons_pos hr, ih]
    case neg => simp [hr, restrictAll_cons_neg hr, ih]

theorem mem_dims_restrictAll {w : Key × Nat}
    (h : w ∈ (restrictAll saved x cs).flatMap (·.toFactor.dims)) :
    w ∈ cs.flatMap (·.toFactor.dims) ∧ saved w.1 := by
  have hd : ∀ c ∈ restrictAll saved x cs, ∀ w ∈ c.toFactor.dims, w ∈ cs.flatMap (·.toFactor.dims) ∧
      saved w.1 := by
    apply forall_mem_restrictAll
    intro c hc w hw
    rw [Conditional.dims_restrict] at hw
    have ⟨hw, hs⟩ := Conditional.mem_keptDims.mp hw
    exact ⟨List.mem_flatMap.mpr ⟨c, hc, hw⟩, hs⟩
  have ⟨c, hc, hw⟩ := List.mem_flatMap.mp h
  exact hd c hc w hw

theorem frontals_restrictAll (hv : ∀ c ∈ cs, c.Valid) (saved : Key → Bool) (x : Assignment α) :
    (restrictAll saved x cs).flatMap (·.frontals) = (cs.flatMap (·.frontals)).filter saved := by
  induction cs
  case nil => rfl
  case cons c cs ih =>
    have ⟨hc, hcs⟩ := List.forall_mem_cons.mp hv
    rw [List.flatMap_cons, List.filter_append, ← ih hcs]
    by_cases hr : c.Remains saved
    case pos => rw [restrictAll_cons_pos hr, List.flatMap_cons, hc.frontals_restrict]
    case neg =>
      have hf : c.frontals.filter saved = [] :=
        List.filter_eq_nil_iff.mpr fun k hk hs => hr (.inr ⟨k, hk, hs⟩)
      rw [restrictAll_cons_neg hr, hf, List.nil_append]

theorem ParentsLater.restrictAll (hv : ∀ c ∈ cs, c.Valid) (h : ParentsLater cs) (saved : Key → Bool)
    (x : Assignment α) : ParentsLater (restrictAll saved x cs) := by
  induction cs
  case nil => trivial
  case cons c cs ih =>
    have ⟨hc, hcs⟩ := List.forall_mem_cons.mp hv
    have ⟨hp, hl⟩ := h
    by_cases hr : c.Remains saved
    case pos =>
      rw [restrictAll_cons_pos hr]
      refine ⟨fun k hk => ?_, ih hcs hl⟩
      rw [hc.parents_restrict] at hk
      have ⟨hk, hs⟩ := List.mem_filter.mp hk
      rw [frontals_restrictAll hcs]
      exact List.mem_filter.mpr ⟨hp k hk, hs⟩
    case neg =>
      rw [restrictAll_cons_neg hr]
      exact ih hcs hl

theorem keys_flatMap_frontalDims (hv : ∀ c ∈ cs, c.Valid) :
    Widths.keys (cs.flatMap (·.frontalDims)) = cs.flatMap (·.frontals) := by
  rw [Widths.keys, List.map_flatMap]
  exact List.flatMap_congr fun c hc => (hv c hc).keys_frontalDims

theorem ParentsLater.chain (hv : ∀ c ∈ cs, c.Valid) (hn : (cs.flatMap (·.frontals)).Nodup)
    (hc : Widths.Consistent (cs.flatMap (·.toFactor.dims))) (h : ParentsLater cs) :
    Chain (cs.flatMap (·.frontalDims)) cs := by
  induction cs
  case nil => exact .nil
  case cons c cs ih =>
    have ⟨hvc, hvs⟩ := List.forall_mem_cons.mp hv
    have ⟨hp, hl⟩ := h
    rw [List.flatMap_cons] at hn hc ⊢
    have ⟨_, hns, hdisj⟩ := List.nodup_append.mp hn
    have hk := keys_flatMap_frontalDims hvs
    refine .cons hvc.factor hvc.rows_eq.symm (fun w hw => ?_) (fun w hw hm => ?_)
      (ih hvs hns (fun v hv w hw =>
        hc v (List.mem_append_right _ hv) w (List.mem_append_right _ hw)) hl)
    case refine_1 =>
      have hm : w.1 ∈ Widths.keys (cs.flatMap (·.frontalDims)) :=
        hk ▸ hp w.1 (hvc.keys_parentDims ▸ List.mem_map_of_mem hw)
      have ⟨v, hvm, he⟩ := List.mem_map.mp hm
      have hvd : v ∈ cs.flatMap (·.toFactor.dims) := by
        have ⟨c', hc', hv⟩ := List.mem_flatMap.mp hvm
        exact List.mem_flatMap.mpr ⟨c', hc', List.mem_of_mem_take hv⟩
      have hd : v.2 = w.2 :=
        hc v (List.mem_append_right _ hvd) w (List.mem_append_left _ (List.mem_of_mem_drop hw)) he
      exact Prod.ext he hd ▸ hvm
    case refine_2 =>
      have hf : w.1 ∈ c.frontals := hvc.keys_frontalDims ▸ List.mem_map_of_mem hw
      exact hdisj w.1 hf w.1 (hk ▸ hm) rfl

theorem fits_restrictAll {y : Assignment α} (hy : ∀ k, saved k → y.get? k = x.get? k)
    (hf : x.Fits (cs.flatMap (·.toFactor.dims))) :
    y.Fits ((restrictAll saved x cs).flatMap (·.toFactor.dims)) := by
  intro w hw
  have ⟨hw, hs⟩ := mem_dims_restrictAll hw
  rw [hy w.1 hs]
  exact hf w hw

end Later

theorem meets_restrictAll {cs : List (Conditional ℝ)} {saved : Key → Bool} {x y : Assignment ℝ}
    (hv : ∀ c ∈ cs, c.Valid) (hm : ∀ c ∈ cs, c.Meets x.point)
    (hy : ∀ k, saved k → y.get? k = x.get? k) :
    ∀ c ∈ restrictAll saved x cs, c.Meets y.point := by
  apply forall_mem_restrictAll
  intro c hc i hi
  have hp : Point.EqOn (c.restrict saved x).toFactor.dims y.point x.point := by
    intro w hw j _
    rw [Conditional.dims_restrict] at hw
    rw [Assignment.point_congr (hy w.1 (Conditional.mem_keptDims.mp hw).right)]
  rw [LinearFactor.residual_congr hp]
  exact (hv c hc).meets_restrict saved (hm c hc) i hi

namespace BayesNet

section Outcome

variable {α : Type} [Arith α] [RealLike α] {n : BayesNet α} {saved : List Key} {x : Assignment α}

theorem conditionOn_eq (hv : ∀ c ∈ n.conditionals, c.Valid)
    (hx : ∀ c ∈ n.conditionals, x.Fits c.toFactor.dims) (hs : ∀ k ∈ saved, k ∈ n.keys) :
    n.conditionOn saved x = .ok ⟨restrictAll saved.contains x n.conditionals⟩ := by
  have hk : (Key.ascending saved).find? (fun k => !n.keys.contains k) = none := by
    rw [List.find?_eq_none]
    intro k hk
    simpa using hs k (Key.mem_ascending.mp hk)
  have hm : n.conditionals.mapM (·.conditioned saved.contains x) = .ok (n.conditionals.map fun c =>
      if c.Remains saved.contains then some (c.restrict saved.contains x) else none) :=
    Outcome.mapM_eq_ok fun c hc => (hv c hc).conditioned_eq (hx c hc) _
  rw [conditionOn, hk]
  refine Outcome.bind_eq_ok.mpr ⟨_, hm, ?_⟩
  rw [List.filterMap_map, ← filterMap_remains]
  rfl

end Outcome

variable {n : BayesNet ℝ}

-- Densities of distinct variables that agree on all dimensions, with their parents later and no
-- zero on a diagonal.
structure Regular (n : BayesNet ℝ) : Prop where
  valid      : ∀ c ∈ n.conditionals, c.Valid
  unit       : ∀ c ∈ n.conditionals, ∀ s ∈ c.model.sigmas, s = 0 ∨ s = 1
  diagonal   : ∀ c ∈ n.conditionals, ∀ a ∈ c.diagonal, a ≠ 0
  nodup      : (n.conditionals.flatMap (·.frontals)).Nodup
  consistent : Widths.Consistent (n.conditionals.flatMap (·.toFactor.dims))
  later      : ParentsLater n.conditionals

namespace Regular

theorem wellFormed (h : n.Regular) : ∀ c ∈ n.conditionals, c.WellFormed :=
  fun c hc => (h.valid c hc).wellFormed (h.unit c hc)

theorem triangular (h : n.Regular) : ∀ c ∈ n.conditionals, c.Triangular :=
  fun c hc => (h.valid c hc).triangular

theorem chain (h : n.Regular) : Chain (n.conditionals.flatMap (·.frontalDims)) n.conditionals :=
  h.later.chain h.valid h.nodup h.consistent

theorem restrictAll (h : n.Regular) (saved : Key → Bool) (x : Assignment ℝ) :
    Regular ⟨restrictAll saved x n.conditionals⟩ := by
  constructor
  case valid => exact forall_mem_restrictAll fun c hc => (h.valid c hc).restrict saved x
  case unit =>
    exact forall_mem_restrictAll fun c hc => Conditional.unit_restrict saved x (h.unit c hc)
  case diagonal =>
    exact forall_mem_restrictAll fun c hc =>
      (h.valid c hc).diagonal_restrict saved x (h.diagonal c hc)
  case nodup =>
    rw [frontals_restrictAll h.valid]
    exact h.nodup.filter saved
  case consistent =>
    intro v hv w hw
    exact h.consistent v (mem_dims_restrictAll hv).left w (mem_dims_restrictAll hw).left
  case later => exact h.later.restrictAll h.valid saved x

theorem exists_optimize (h : n.Regular) :
    ∃ x, n.optimize = .ok x ∧ (∀ k, k ∈ x.keys ↔ k ∈ n.conditionals.flatMap (·.frontals)) ∧
      x.Fits (n.conditionals.flatMap (·.toFactor.dims)) ∧ ∀ c ∈ n.conditionals,
        c.Meets x.point := by
  have ⟨x, hx, hk, hf⟩ := h.chain.exists_optimize h.triangular
  exact ⟨x, hx, keys_flatMap_frontalDims h.valid ▸ hk,
    hf.mono fun _ => h.chain.closed.mem_dims_iff.mp,
    h.chain.meets_optimize h.wellFormed h.diagonal hx⟩

theorem optimize_eq (h : n.Regular) {x : Assignment ℝ}
    (hk : ∀ k, k ∈ x.keys ↔ k ∈ n.conditionals.flatMap (·.frontals))
    (hf : x.Fits (n.conditionals.flatMap (·.toFactor.dims)))
    (hm : ∀ c ∈ n.conditionals, c.Meets x.point) :
    n.optimize = .ok x := by
  have ⟨z, hz, hzk, hzf, hzm⟩ := h.exists_optimize
  have hd : n.conditionals.flatMap (·.frontalDims) ⊆ n.conditionals.flatMap (·.toFactor.dims) :=
    fun _ => h.chain.closed.mem_dims_iff.mpr
  have he : Point.EqOn (n.conditionals.flatMap (·.frontalDims)) z.point x.point := by
    apply h.chain.eqOn_of_alike h.triangular h.diagonal
    intro c hc i hi
    rw [hzm c hc i hi, hm c hc i hi]
  have hzx : z = x := by
    apply KeyMap.ext_of_keys (KeyMap.keys_eq_iff.mpr fun k => (hzk k).trans (hk k).symm)
    intro k hkz
    rw [hzk, ← keys_flatMap_frontalDims h.valid] at hkz
    have ⟨w, hw, hwk⟩ := List.mem_map.mp hkz
    exact hwk ▸ Assignment.get?_eq_of_eqOn (hzf.mono hd) (hf.mono hd) he hw
  exact hzx ▸ hz

end Regular

-- A net that is conditioned on its own most likely values has the same most likely values of the
-- saved variables, and its factors have no error there.
theorem optimize_conditionOn (h : n.Regular) {saved : List Key}
    (hs : ∀ k ∈ saved, k ∈ n.conditionals.flatMap (·.frontals)) :
    ∃ x reduced graph, n.optimize = .ok x ∧ n.conditionOn saved x = .ok reduced ∧ reduced.Regular ∧
      reduced.optimize = .ok (x.restrict saved.contains) ∧ n.condition saved x = .ok graph ∧
      graph.error (x.restrict saved.contains) = .ok 0 := by
  have ⟨x, hx, hk, hf, hm⟩ := h.exists_optimize
  have hget (k : Key) (hk : saved.contains k) : (x.restrict saved.contains).get? k = x.get? k :=
    KeyMap.get?_restrict hk
  have hr := h.restrictAll saved.contains x
  have hkeys (k : Key) : k ∈ (x.restrict saved.contains).keys ↔
      k ∈ (restrictAll saved.contains x n.conditionals).flatMap (·.frontals) := by
    rw [KeyMap.mem_keys_restrict, hk, frontals_restrictAll h.valid, List.mem_filter]
  have hfit := fits_restrictAll hget hf
  have hmeets := meets_restrictAll h.valid hm hget
  have hc : n.conditionOn saved x = .ok ⟨restrictAll saved.contains x n.conditionals⟩ := by
    refine conditionOn_eq h.valid (fun c hc => hf.mono fun w hw => List.mem_flatMap.mpr ⟨c, hc, hw⟩)
      fun k hk => ?_
    have ⟨c, hc, hk⟩ := List.mem_flatMap.mp (hs k hk)
    exact Key.mem_ascending.mpr (List.mem_flatMap.mpr ⟨c, hc, List.mem_of_mem_take hk⟩)
  refine ⟨x, _, _, hx, hc, hr, hr.optimize_eq hkeys hfit hmeets, congrArg (toFactorGraph <$> ·) hc,
    ?_⟩
  have he := FactorGraph.error_net hr.wellFormed fun c hc => hfit.mono fun w hw =>
    List.mem_flatMap.mpr ⟨c, hc, hw⟩
  rwa [Elimination.Run.totalCost_densityRows.mpr hmeets] at he

noncomputable def linked : BayesNet ℝ :=
  ⟨[Conditional.paired, ⟨[3], 1, BlockMatrix.ofFn 1 [1, 1] fun _ j => j + 1, ⟨#[0]⟩⟩]⟩

theorem regular_linked : linked.Regular := by
  constructor
  case valid =>
    refine List.forall_mem_cons.mpr ⟨Conditional.valid_paired, List.forall_mem_singleton.mpr ?_⟩
    refine ⟨by decide, rfl, rfl, by decide, rfl, rfl, fun i hi j hj => ?_, by simp⟩
    have hi : i < 1 := hi
    omega
  case unit => simp [linked, Conditional.paired, NoiseModel.unit, Vec.fill]
  case diagonal =>
    simp only [linked, List.forall_mem_cons, List.not_mem_nil, false_imp_iff, implies_true,
      and_true, Conditional.diagonal_ne_zero_iff]
    refine ⟨fun i hi => ?_, fun i hi => ?_⟩
    case refine_1 =>
      have hi : i < 3 := hi
      rw [Conditional.entry_paired hi (by omega), if_neg (Nat.lt_irrefl i)]
      positivity
    case refine_2 =>
      have hi : i < 1 := hi
      rw [BlockMatrix.entry_ofFn _ hi (Nat.lt_succ_of_lt hi)]
      positivity
  case nodup => decide
  case consistent =>
    have hd : linked.conditionals.flatMap (·.toFactor.dims) = [(1, 2), (2, 1), (3, 1), (3, 1)] :=
      rfl
    rw [hd]
    unfold Widths.Consistent
    decide
  case later => exact ⟨by decide, by decide, trivial⟩

theorem optimize_conditionOn_linked :
    ∃ x reduced graph, linked.optimize = .ok x ∧ linked.conditionOn [2] x = .ok reduced ∧
      reduced.Regular ∧ reduced.optimize = .ok (x.restrict [2].contains) ∧
      linked.condition [2] x = .ok graph ∧
      graph.error (x.restrict [2].contains) = .ok 0 :=
  optimize_conditionOn regular_linked (by decide)

end BayesNet
end LinearGaussian
