import LinearGaussian.Proofs.Graph
import LinearGaussian.Proofs.Split

namespace LinearGaussian

open Measurement LinearFactor

section Inversion

variable {α : Type} [Arith α] [RealLike α] {factors : List (LinearFactor α)} {frontals : List Key}
  {settings : EliminationSettings α} {r : Elimination α}

theorem eliminate_eq_ok :
    eliminate factors frontals settings = .ok r ↔
      frontals ≠ [] ∧ ∃ f rows, combine factors frontals = .ok f ∧
        (settings.allowFree = false → requireInformative f frontals = .ok ()) ∧
        f.reduce settings = .ok rows ∧
        Elimination.conditionalOf f frontals.length rows = .ok r.conditional ∧
        Elimination.remainingOf f frontals.length rows = .ok r.remaining := by
  have ⟨c, g⟩ := r
  cases frontals
  case nil => simp [eliminate]
  case cons k ks =>
    simp only [eliminate, List.isEmpty_cons, Bool.false_eq_true, if_false, ne_eq, reduceCtorEq,
      not_false_eq_true, true_and]
    cases settings.allowFree <;> simp [Outcome.bind_eq_ok, Unique.exists_iff]

end Inversion

namespace Elimination

section Shape

variable {α : Type} [Arith α] [RealLike α] {factors : List (LinearFactor α)} {frontals : List Key}
  {settings : EliminationSettings α} {r : Elimination α} {f : LinearFactor α} {count : Nat}

-- What an elimination that returned has to do with the stack of the factors.
structure Of (r : Elimination α) (f : LinearFactor α) (count : Nat)
    (settings : EliminationSettings α) : Prop where
  wellFormed  : f.WellFormed
  le          : count ≤ f.keys.length
  conditional : conditionalOf f count (f.reducedRows settings) = .ok r.conditional
  remaining   : remainingOf f count (f.reducedRows settings) = .ok r.remaining

theorem of_eliminate (hf : ∀ g ∈ factors, g.WellFormed)
    (h : eliminate factors frontals settings = .ok r) :
    ∃ f, combine factors frontals = .ok f ∧ r.Of f frontals.length settings := by
  have ⟨_, f, rows, hc, _, hr, hcond, hrem⟩ := eliminate_eq_ok.mp h
  have hw := wellFormed_combine hf hc
  have ⟨rest, hk⟩ := keys_combine hc
  cases (reduce_eq hw).symm.trans hr
  exact ⟨f, hc, hw, by simp [hk], hcond, hrem⟩

theorem exists_eliminate [UnitDeviations α] (hf : ∀ g ∈ factors, g.WellFormed) (hn : frontals ≠ [])
    (hc : combine factors frontals = .ok f) (hfree : settings.allowFree = true) :
    ∃ r, eliminate factors frontals settings = .ok r :=
  ⟨⟨_, _⟩, eliminate_eq_ok.mpr ⟨hn, f, _, hc, by simp [hfree], reduce_eq (wellFormed_combine hf hc),
    conditionalOf_eq unit_reducedRows, remainingOf_eq unit_reducedRows⟩⟩

theorem requireInformative_eq_error (hf : f.WellFormed) (hn : frontals.length ≤ f.keys.length)
    {e : Fault} (h : requireInformative f frontals = .error e) :
    ∃ k, e = .error (.zeroFrontalBlock k) := by
  have hpos : ∀ o ∈ frontals.zipIdx, o.2 < f.keys.length :=
    fun o ho => (List.mem_zipIdx' ho).left.trans_le hn
  unfold requireInformative at h
  generalize frontals.zipIdx = os at h hpos
  induction os
  case nil => contradiction
  case cons o os ih =>
    have ⟨ho, hos⟩ := List.forall_mem_cons.mp hpos
    have ⟨w, hw, _⟩ := f.ab.block_eq (ho.trans (hf.length_widths ▸ Nat.lt_succ_self _))
    cases Outcome.bind_eq_error.mp h
    case inl h =>
      simp only [LinearFactor.blockAt, ho, if_true, hw, Outcome.ok_bind] at h
      split at h
      case isTrue =>
        cases h
        exact ⟨_, rfl⟩
      case isFalse => contradiction
    case inr h =>
      have ⟨_, _, h⟩ := h
      exact ih h hos

theorem split_eq_error {e : Fault} (h : (do
      let conditional ← conditionalOf f count (f.reducedRows settings)
      let remaining ← remainingOf f count (f.reducedRows settings)
      return ⟨conditional, remaining⟩ : Outcome (Elimination α)) = .error e) :
    (∃ row, e = .violation (.sigma row)) ∧ ¬UnitDeviations α := by
  constructor
  case left =>
    cases Outcome.bind_eq_error.mp h
    case inl h => exact conditionalOf_eq_error h
    case inr h =>
      have ⟨_, _, h⟩ := h
      exact remainingOf_eq_error ((Outcome.bind_eq_error.mp h).resolve_right nofun)
  case right =>
    intro _
    rw [conditionalOf_eq unit_reducedRows, Outcome.ok_bind, remainingOf_eq unit_reducedRows] at h
    contradiction

-- Elimination from well-formed factors fails because they cannot be combined, or because a frontal
-- variable has no coefficients but zero. Only a scalar type in which zero and one are no deviations
-- knows another reason.
theorem eliminate_eq_error (hf : ∀ g ∈ factors, g.WellFormed) {e : Fault}
    (h : eliminate factors frontals settings = .error e) :
    e = .error .noFrontals ∨ combine factors frontals = .error e ∨
      (settings.allowFree = false ∧ ∃ k, e = .error (.zeroFrontalBlock k)) ∨
      (∃ row, e = .violation (.sigma row)) ∧ ¬UnitDeviations α := by
  cases frontals
  case nil =>
    cases h
    exact .inl rfl
  case cons k ks =>
    simp only [eliminate, List.isEmpty_cons, Bool.false_eq_true, if_false] at h
    refine .inr ?_
    cases Outcome.bind_eq_error.mp h
    case inl h => exact .inl h
    case inr h =>
      have ⟨f, hc, h⟩ := h
      have hw := wellFormed_combine hf hc
      simp only [reduce_eq hw, Outcome.ok_bind] at h
      refine .inr ?_
      cases hfree : settings.allowFree
      case false =>
        simp only [hfree, Bool.not_false, if_true] at h
        cases Outcome.bind_eq_error.mp h
        case inl h =>
          have ⟨ls, hk⟩ := keys_combine hc
          exact .inl ⟨rfl, requireInformative_eq_error hw (by simp [hk]) h⟩
        case inr h =>
          have ⟨_, _, h⟩ := h
          exact .inr (split_eq_error h)
      case true =>
        simp only [hfree, Bool.not_true, Bool.false_eq_true, if_false] at h
        exact .inr (split_eq_error h)

theorem eliminate_ne_violated [UnitDeviations α] (hf : ∀ g ∈ factors, g.WellFormed)
    (frontals : List Key) (settings : EliminationSettings α) (v : Violation) :
    eliminate factors frontals settings ≠ violated v := by
  intro h
  rcases eliminate_eq_error hf h with he | hc | ⟨_, _, he⟩ | ⟨_, hu⟩
  case inr.inl => exact combine_ne_violated hf frontals v hc
  case inr.inr.inr => exact hu inferInstance
  all_goals cases he

namespace Of

theorem conditional_eq (h : r.Of f count settings) :
    r.conditional = frontalPart f count (f.reducedRows settings) :=
  (conditionalOf_eq_ok.mp h.conditional).left

theorem remaining_eq (h : r.Of f count settings) :
    r.remaining = laterPart f count (f.reducedRows settings) :=
  (remainingOf_eq_ok.mp h.remaining).left

theorem wellFormed_conditional (h : r.Of f count settings) : r.conditional.WellFormed :=
  wellFormed_conditionalOf h.wellFormed unit_reducedRows h.le h.conditional

theorem wellFormed_remaining (h : r.Of f count settings) : r.remaining.WellFormed :=
  wellFormed_remainingOf h.wellFormed h.le h.remaining

theorem dims_conditional (h : r.Of f count settings) : r.conditional.toFactor.dims = f.dims :=
  h.conditional_eq ▸ rfl

theorem frontalDims_conditional (h : r.Of f count settings) :
    r.conditional.frontalDims = f.dims.take count :=
  h.conditional_eq ▸ rfl

theorem parentDims_conditional (h : r.Of f count settings) :
    r.conditional.parentDims = f.dims.drop count :=
  h.conditional_eq ▸ rfl

theorem dims_remaining (h : r.Of f count settings) : r.remaining.dims = f.dims.drop count :=
  h.remaining_eq ▸ dims_laterPart f count _

end Of
end Shape

variable {factors : List (LinearFactor ℝ)} {frontals : List Key} {settings : EliminationSettings ℝ}
  {r : Elimination ℝ} {f : LinearFactor ℝ} {count : Nat}

namespace Of

theorem reduces (h : r.Of f count settings) (hd : f.Decisive settings)
    (ht : f.isConstrained = true → 0 < settings.zeroTol ∧ 0 < settings.rankTol) :
    Reduces f.measurements (r.conditional.toFactor.measurements ++ r.remaining.measurements) := by
  rw [h.conditional_eq, h.remaining_eq]
  exact (reduces_reducedRows h.wellFormed hd ht).trans $
    reduces_parts h.wellFormed (staircase_reducedRows h.wellFormed) h.le

theorem soft_remaining (h : r.Of f count settings) (hn : f.isConstrained = false) :
    0 ∉ r.remaining.sigmas := by
  rw [h.remaining_eq, sigmas_laterPart (staircase_reducedRows h.wellFormed)]
  intro h0
  have ⟨row, hr, hs⟩ := List.mem_map.mp (List.mem_toArray.mp h0)
  simp [sigma_reducedRows hn (List.mem_of_mem_filter hr)] at hs

theorem isRoot_conditional (h : r.Of f count settings) (hn : f.isConstrained = false) :
    IsRoot r.conditional.rows r.conditional.rsd.full.entry := by
  have hw := h.wellFormed_conditional
  rw [h.conditional_eq] at hw ⊢
  exact isRoot_frontalPart (pos_reducedRows h.wellFormed hn) hw

theorem soft_conditional (h : r.Of f count settings) (hn : f.isConstrained = false) :
    ∀ s ∈ r.conditional.model.sigmas, s = 1 := by
  intro s hm
  rw [h.conditional_eq] at hm
  have ⟨i, hi⟩ : ∃ i : Fin (f.ab.offsetAt count),
      ((PivotRow.find? (f.reducedRows settings) i).map (·.sigma)).getD 1 = s := by
    simpa [frontalPart, frontalSigmas] using hm
  cases hf : PivotRow.find? (f.reducedRows settings) i
  case none => simpa [hf] using hi.symm
  case some row =>
    rw [hf] at hi
    exact hi.symm.trans (sigma_reducedRows hn (List.mem_of_find?_eq_some hf))

theorem fits (h : r.Of f count settings) {x : Assignment ℝ} (hx : x.Fits f.dims) :
    x.Fits r.conditional.toFactor.dims ∧ x.Fits r.remaining.dims := by
  rw [h.dims_conditional, h.dims_remaining]
  exact ⟨hx, hx.mono (List.drop_subset _ _)⟩

end Of

end Elimination

section Error

variable {factors : List (LinearFactor ℝ)} {frontals : List Key} {settings : EliminationSettings ℝ}
  {r : Elimination ℝ}

-- What the graph of the factors, the conditional density and the remaining factor say about an
-- assignment.
theorem eval_eliminate (hf : ∀ f ∈ factors, f.WellFormed) {f : LinearFactor ℝ}
    (hc : combine factors frontals = .ok f) (h : r.Of f frontals.length settings) {x : Assignment ℝ}
    (hx : ∀ g ∈ factors, x.Fits g.dims) :
    (FactorGraph.ofLinear factors).error x = .ok (totalCost f.measurements x.point) ∧
      r.conditional.toFactor.error x = .ok (totalCost r.conditional.toFactor.measurements x.point) ∧
      r.remaining.error x = .ok (totalCost r.remaining.measurements x.point) ∧
      ((∀ g ∈ factors, g.Admits x) ↔ Feasible f.measurements x.point) ∧
      (r.conditional.toFactor.Admits x ↔ Feasible r.conditional.toFactor.measurements x.point) ∧
      (r.remaining.Admits x ↔ Feasible r.remaining.measurements x.point) := by
  have hx' : x.Fits f.dims := by
    intro w hw
    have ⟨g, hg, hw⟩ := (mem_dims_combine hc).mp hw
    exact hx g hg w hw
  have ⟨hxc, hxr⟩ := h.fits hx'
  rw [measurements_combine hf hc]
  exact ⟨FactorGraph.error_ofLinear hf hx, error_eq h.wellFormed_conditional.factor hxc,
    error_eq h.wellFormed_remaining hxr, FactorGraph.admits_ofLinear hf hx,
    admits_iff h.wellFormed_conditional.factor hxc, admits_iff h.wellFormed_remaining hxr⟩

-- Without hard constraints, elimination changes the error by a constant only.
theorem error_eliminate (hf : ∀ f ∈ factors, f.WellFormed) (hs : ∀ f ∈ factors, 0 ∉ f.sigmas)
    (h : eliminate factors frontals settings = .ok r) :
    ∃ c ≥ 0, ∀ x : Assignment ℝ, (∀ f ∈ factors, x.Fits f.dims) →
      ∃ e ec er, (FactorGraph.ofLinear factors).error x = .ok e ∧
        r.conditional.toFactor.error x = .ok ec ∧ r.remaining.error x = .ok er ∧
        e = ec + er + c := by
  have ⟨f, hc, ho⟩ := Elimination.of_eliminate hf h
  have hn := isConstrained_combine hc hs
  have a :=
    ho.reduces (by simp [Decisive, hn]) (by simp [hn]) ⟨fun _ _ => 0,
      feasible_of_unconstrained hn _⟩
  have ⟨c, hc0, ha⟩ := a.cost
  refine ⟨c, hc0, fun x hx => ?_⟩
  have ⟨he, hec, her, _⟩ := eval_eliminate hf hc ho hx
  refine ⟨_, _, _, he, hec, her, ?_⟩
  rw [ha x.point (feasible_of_unconstrained hn _), totalCost_append]

noncomputable def redundant : List (LinearFactor ℝ) :=
  [scalarRow [0, 1] [1, 1] 2 1, scalarRow [0, 1] [2, 2] 1 1]

theorem wellFormed_redundant : ∀ f ∈ redundant, f.WellFormed := by
  simp only [redundant, List.forall_mem_cons, List.not_mem_nil, false_imp_iff, implies_true,
    and_true]
  exact ⟨wellFormed_scalarRow (by decide) zero_le_one, wellFormed_scalarRow (by decide) zero_le_one⟩

theorem error_eliminate_redundant :
    ∃ r, eliminate redundant [0] ⟨0, 0, true⟩ = .ok r ∧
      ∃ c ≥ 0, ∀ x : Assignment ℝ, (∀ f ∈ redundant, x.Fits f.dims) →
        ∃ e ec er, (FactorGraph.ofLinear redundant).error x = .ok e ∧
          r.conditional.toFactor.error x = .ok ec ∧
          r.remaining.error x = .ok er ∧ e = ec + er + c := by
  have hw : Widths.ofOccurrences (redundant.flatMap dims) = .ok [(0, 1), (1, 1)] := rfl
  obtain ⟨f, hc⟩ :=
    exists_combine wellFormed_redundant (List.nodup_singleton 0) hw (by simp [Widths.keys])
  obtain ⟨r, h⟩ : ∃ r, eliminate redundant [0] ⟨0, 0, true⟩ = .ok r :=
    Elimination.exists_eliminate wellFormed_redundant (by simp) hc rfl
  exact ⟨r, h, error_eliminate wellFormed_redundant (by simp [redundant]) h⟩

-- With hard constraints that do not contradict each other, elimination keeps the assignments that
-- satisfy them, and changes the error of these by a constant only.
theorem admits_eliminate (hf : ∀ f ∈ factors, f.WellFormed) (hz : 0 < settings.zeroTol)
    (hr : 0 < settings.rankTol) (hd : ∀ f, combine factors frontals = .ok f → f.Decisive settings)
    (hx : ∃ x : Assignment ℝ, (∀ f ∈ factors, x.Fits f.dims) ∧ ∀ f ∈ factors, f.Admits x)
    (h : eliminate factors frontals settings = .ok r) :
    (∀ x : Assignment ℝ, (∀ f ∈ factors, x.Fits f.dims) →
      ((∀ f ∈ factors, f.Admits x) ↔ r.conditional.toFactor.Admits x ∧ r.remaining.Admits x)) ∧
    ∃ c, ∀ x : Assignment ℝ, (∀ f ∈ factors, x.Fits f.dims) → (∀ f ∈ factors, f.Admits x) →
      ∃ e ec er, (FactorGraph.ofLinear factors).error x = .ok e ∧
        r.conditional.toFactor.error x = .ok ec ∧ r.remaining.error x = .ok er ∧
        e - ec - er = c := by
  have ⟨f, hc, ho⟩ := Elimination.of_eliminate hf h
  have ⟨x₀, hx₀, ha₀⟩ := hx
  have ⟨_, _, _, hf₀, _⟩ := eval_eliminate hf hc ho hx₀
  have a := ho.reduces (hd f hc) (fun _ => ⟨hz, hr⟩) ⟨x₀.point, hf₀.mp ha₀⟩
  have ⟨c, _, hcost⟩ := a.cost
  constructor
  case left =>
    intro x hx
    have ⟨_, _, _, hfx, hfc, hfr⟩ := eval_eliminate hf hc ho hx
    rw [hfx, hfc, hfr, a.feasible, feasible_append]
  case right =>
    refine ⟨c, fun x hx ha => ?_⟩
    have ⟨he, hec, her, hfx, _⟩ := eval_eliminate hf hc ho hx
    refine ⟨_, _, _, he, hec, her, ?_⟩
    rw [hcost x.point (hfx.mp ha), totalCost_append]
    ring

-- A hard constraint on a scalar variable that stands before all other factors of the variable alone
-- leaves nothing close.
theorem decisive_of_anchor {f : LinearFactor ℝ} {a b : ℝ} {k : Key}
    (h : combine (scalarRow [k] [a] b 0 :: factors) [k] = .ok f)
    (hf : ∀ g ∈ scalarRow [k] [a] b 0 :: factors, g.WellFormed)
    (hd : ∀ g ∈ factors, ∀ w ∈ g.dims, w = (k, 1)) (ha : settings.zeroTol ≤ |a|) :
    f.Decisive settings := by
  have hw := wellFormed_combine hf h
  have hmem : ∀ w ∈ f.dims, w = (k, 1) := by
    intro w hw
    obtain ⟨g, hg, hw⟩ := (mem_dims_combine h).mp hw
    cases hg
    case head => exact List.mem_singleton.mp hw
    case tail hg => exact hd g hg w hw
  -- The combined factor has no other variable, and every variable once only.
  have hdims : f.dims = [(k, 1)] := by
    obtain ⟨ls, hk⟩ := keys_combine h
    have hn := hw.nodup
    rw [← hw.keys_dims] at hk hn
    cases hf : f.dims
    case nil => simp [hf] at hk
    case cons w ws =>
      rw [hf] at hn hmem
      obtain ⟨hw, hws⟩ := List.forall_mem_cons.mp hmem
      have hnil : ws = [] := List.eq_nil_iff_forall_not_mem.mpr fun v hv =>
        (List.nodup_cons.mp hn).left (List.mem_map.mpr ⟨v, hv, by rw [hws v hv, hw]⟩)
      rw [hw, hnil]
  apply decisive_of_first
  case hr => simp [rows_combine h]
  case hw => simp [hw.offsetAt_length, width, hdims]
  case hs => simp [sigmas_combine h, Vec.concat_cons]
  case ha =>
    have he : f.ab.full.entry 0 0 = a := by
      obtain ⟨hab, _⟩ := dims_combine h
      rw [hab, hdims]
      refine (BlockMatrix.entry_ofFn _ (by simp) (by simp)).trans ?_
      simp [endToEnd, spread_eq, coefficient_scalarRow]
    rw [he]
    exact ha

noncomputable def anchored : List (LinearFactor ℝ) :=
  [scalarRow [0] [2] 4 0, scalarRow [0] [3] 1 1]

theorem wellFormed_anchored : ∀ f ∈ anchored, f.WellFormed := by
  simp only [anchored, List.forall_mem_cons, List.not_mem_nil, false_imp_iff, implies_true,
    and_true]
  exact ⟨wellFormed_scalarRow (by decide) (le_refl _), wellFormed_scalarRow (by decide) zero_le_one⟩

theorem decisive_anchored {f : LinearFactor ℝ} (h : combine anchored [0] = .ok f) :
    f.Decisive ⟨1, 1, true⟩ := by
  refine decisive_of_anchor h (by simpa [anchored] using wellFormed_anchored) ?_ (by norm_num)
  simp only [List.forall_mem_singleton]
  exact fun w hw => List.mem_singleton.mp hw

theorem fits_anchored {x : Assignment ℝ} {v : ℝ} (hx : x.get? 0 = some #[v]) :
    ∀ f ∈ anchored, x.Fits f.dims := by
  have hd : ∀ w ∈ [((0 : Key), 1)], ∃ u, x.get? w.1 = some u ∧ u.size = w.2 := by simp [hx]
  simp only [anchored, List.forall_mem_cons, List.not_mem_nil, false_imp_iff, implies_true,
    and_true]
  exact ⟨hd, hd⟩

theorem admits_anchored {x : Assignment ℝ} (hx : x.get? 0 = some #[2]) :
    ∀ f ∈ anchored, f.Admits x := by
  rw [FactorGraph.admits_ofLinear wellFormed_anchored (fits_anchored hx)]
  simp [anchored, measurements, measurement, Feasible, residual_scalarRow, Assignment.point, hx]
  norm_num

theorem admits_eliminate_anchored :
    ∃ r, eliminate anchored [0] ⟨1, 1, true⟩ = .ok r ∧
      (∀ x : Assignment ℝ, (∀ f ∈ anchored, x.Fits f.dims) →
        ((∀ f ∈ anchored, f.Admits x) ↔ r.conditional.toFactor.Admits x ∧ r.remaining.Admits x)) ∧
      ∃ c, ∀ x : Assignment ℝ, (∀ f ∈ anchored, x.Fits f.dims) → (∀ f ∈ anchored, f.Admits x) →
        ∃ e ec er, (FactorGraph.ofLinear anchored).error x = .ok e ∧
          r.conditional.toFactor.error x = .ok ec ∧
          r.remaining.error x = .ok er ∧ e - ec - er = c := by
  have hw : Widths.ofOccurrences (anchored.flatMap dims) = .ok [(0, 1)] := rfl
  obtain ⟨f, hc⟩ :=
    exists_combine wellFormed_anchored (List.nodup_singleton 0) hw (by simp [Widths.keys])
  obtain ⟨r, h⟩ : ∃ r, eliminate anchored [0] ⟨1, 1, true⟩ = .ok r :=
    Elimination.exists_eliminate wellFormed_anchored (by simp) hc rfl
  have hx : (KeyMap.insert ∅ 0 #[2] : Assignment ℝ).get? 0 = some #[2] := by simp
  exact ⟨r, h, admits_eliminate wellFormed_anchored one_pos one_pos (fun _ => decisive_anchored)
    ⟨_, fits_anchored hx, admits_anchored hx⟩ h⟩

end Error
end LinearGaussian
