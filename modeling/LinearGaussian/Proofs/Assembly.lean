import LinearGaussian.Proofs.Elimination
import LinearGaussian.Proofs.Pivots
import LinearGaussian.Proofs.Restriction

namespace LinearGaussian

open LinearFactor

variable {α : Type} [Arith α] [RealLike α]

theorem Conditional.WellFormed.ofParts_eq [LawfulZero α] {c : Conditional α} (h : c.WellFormed) :
    ofParts c.keys c.frontalCount c.rsd c.model = .ok c := by
  have hs : c.rsd.offsetAt c.frontalCount = c.rsd.rows := h.square.symm
  have hu : firstBelowDiagonal? c.rsd.full (c.rsd.offsetAt c.frontalCount) = none := by
    apply firstBelowDiagonal?_eq_none_iff.mpr
    intro i _ j hj
    simp [h.upper i j hj, bne, LawfulZero.beq]
  exact ofParts_eq_ok.mpr ⟨⟨h.factor.count, h.factor.last⟩, h.le, h.factor.nodup, hs, h.dim,
    hu, rfl⟩

namespace Elimination

variable {factors : List (LinearFactor α)} {frontals : List Key} {settings : EliminationSettings α}
  {r : Elimination α} {f : LinearFactor α} {n count : Nat}

def filled (r : Elimination α) (rows : List (PivotRow α n)) : List Nat :=
  (List.range r.conditional.rows).filter fun i => rows.any (·.pivot.val = i)

-- How reduced rows are shared out. No two of them go to the same row, and a row of the density that
-- gets none is zero.
structure Distributes (r : Elimination α) (rows : List (PivotRow α n)) : Prop where
  nodup   : (rows.map (·.pivot)).Nodup
  frontal : ∀ row ∈ rows, row.pivot.val < r.conditional.rows →
    r.conditional.model.sigmas[row.pivot.val]? = some row.sigma ∧
      ∀ j : Fin n, r.conditional.rsd.full.entry row.pivot j = row.entry j
  blank   : ∀ i < r.conditional.rows, i ∉ r.filled rows →
    r.conditional.model.sigmas[i]? = some 1 ∧ ∀ j : Fin n, r.conditional.rsd.full.entry i j = 0
  later   : r.remaining.rows = (rows.filter fun row => r.conditional.rows ≤ row.pivot).length

omit [Arith α] [RealLike α] in
theorem length_filled_le (r : Elimination α) (rows : List (PivotRow α n)) :
    (r.filled rows).length ≤
      (rows.filter fun row => row.pivot.val < r.conditional.rows).length := by
  have hs : r.filled rows ⊆ (rows.filter fun row => row.pivot.val < r.conditional.rows).map
      (·.pivot.val) := by
    intro i hi
    obtain ⟨hi, row, hr, rfl⟩ : i < r.conditional.rows ∧ ∃ row ∈ rows, row.pivot.val = i := by
      simpa [filled] using hi
    exact List.mem_map_of_mem (List.mem_filter.mpr ⟨hr, by simpa using hi⟩)
  have hn : (r.filled rows).Nodup := List.nodup_range.filter _
  simpa using (List.subperm_of_subset hn hs).length_le

omit [RealLike α] in
theorem Distributes.add_le {rows : List (PivotRow α n)} (h : r.Distributes rows) :
    r.remaining.rows + (r.filled rows).length ≤ rows.length := by
  have hl :=
    List.length_eq_length_filter_add (l := rows) fun row => row.pivot.val < r.conditional.rows
  have hf := r.length_filled_le rows
  simp only [← decide_not, not_lt] at hl
  rw [h.later]
  omega

theorem Of.distributes (h : r.Of f count settings) : r.Distributes (f.reducedRows settings) := by
  have hn := (ascending_reducedRows h.wellFormed settings).left.nodup
  have hrows : r.conditional.rows = f.ab.offsetAt count := h.conditional_eq ▸ rfl
  -- A row is looked up by its pivot, which no other row has.
  have hsigma : ∀ i < r.conditional.rows, r.conditional.model.sigmas[i]? =
      some (((PivotRow.find? (f.reducedRows settings) i).map (·.sigma)).getD 1) := by
    intro i hi
    rw [h.conditional_eq]
    simp [frontalPart, frontalSigmas, hrows ▸ hi]
  have hentry : ∀ i < r.conditional.rows, ∀ j : Fin f.ab.full.cols,
      r.conditional.rsd.full.entry i j =
      ((PivotRow.find? (f.reducedRows settings) i).map (·.entry j)).getD 0 := by
    intro i hi j
    rw [h.conditional_eq]
    exact entry_frontalPart (hrows ▸ hi) j.isLt
  constructor
  case nodup => exact hn
  case frontal =>
    intro row hr hp
    have hf := (PivotRow.find?_eq_some_iff hn).mpr ⟨hr, rfl⟩
    exact ⟨by simp [hsigma _ hp, hf], fun j => by simp [hentry _ hp, hf]⟩
  case blank =>
    intro i hi hb
    have hf : PivotRow.find? (f.reducedRows settings) i = none := by
      apply List.find?_eq_none.mpr
      simpa [filled, hi] using hb
    exact ⟨by simp [hsigma i hi, hf], fun j => by simp [hentry i hi, hf]⟩
  case later =>
    rw [hrows, h.remaining_eq, rows_laterPart]
    simp [laterSigmas, laterRows]

theorem Of.keys (hf : ∀ g ∈ factors, g.WellFormed) (hc : combine factors frontals = .ok f)
    (h : r.Of f frontals.length settings) :
    r.conditional.frontals = frontals ∧
      r.conditional.parents = (factors.flatMap (·.keys)).eraseDups.filter (· ∉ frontals) := by
  have hk : r.conditional.keys =
      frontals ++ (factors.flatMap (·.keys)).eraseDups.filter (· ∉ frontals) :=
    h.conditional_eq ▸ keys_combine_eq hf hc
  have hn : r.conditional.frontalCount = frontals.length := h.conditional_eq ▸ rfl
  exact ⟨by simp [Conditional.frontals, hk, hn], by simp [Conditional.parents, hk, hn]⟩

-- What has to hold of the two parts, if they are to stand for the factors.
structure Assembled (r : Elimination α) (factors : List (LinearFactor α)) (frontals : List Key)
    (settings : EliminationSettings α) : Prop where
  accepted   : Conditional.ofParts r.conditional.keys r.conditional.frontalCount r.conditional.rsd
    r.conditional.model =
    .ok r.conditional
  wellFormed : r.conditional.WellFormed ∧ r.remaining.WellFormed
  requested  : r.conditional.frontals = frontals
  others     : r.conditional.parents = (factors.flatMap (·.keys)).eraseDups.filter (· ∉ frontals)
  remaining  : r.remaining.keys = r.conditional.parents ∧
  r.remaining.dims = r.conditional.parentDims
  dims       : ∀ w, w ∈ r.conditional.toFactor.dims ↔ ∃ g ∈ factors, w ∈ g.dims
  rows       : ∃ f rows, combine factors frontals = .ok f ∧ f.reduce settings = .ok rows ∧
  r.Distributes rows ∧
    r.remaining.rows + (r.filled rows).length ≤
      min (factors.map (·.rows)).sum r.conditional.toFactor.width

-- Elimination from well-formed factors fails in no other way than with an error, and what it
-- returns is in order.
theorem assembled_eliminate [UnitDeviations α] [LawfulZero α] (hf : ∀ f ∈ factors, f.WellFormed) :
    (∀ v, eliminate factors frontals settings ≠ violated v) ∧
      ∀ r, eliminate factors frontals settings = .ok r → r.Assembled factors frontals settings := by
  refine ⟨eliminate_ne_violated hf frontals settings, fun r h => ?_⟩
  obtain ⟨f, hc, ho⟩ := of_eliminate hf h
  have hw := ho.wellFormed_conditional
  have hr := ho.wellFormed_remaining
  have hdims : r.remaining.dims = r.conditional.parentDims :=
    ho.dims_remaining.trans ho.parentDims_conditional.symm
  obtain ⟨hascending, hlength⟩ := ascending_reducedRows ho.wellFormed settings
  constructor
  case accepted => exact hw.ofParts_eq
  case wellFormed => exact ⟨hw, hr⟩
  case requested => exact (ho.keys hf hc).left
  case others => exact (ho.keys hf hc).right
  case remaining => exact ⟨by rw [← hr.keys_dims, hdims, hw.keys_parentDims], hdims⟩
  case dims =>
    intro w
    rw [ho.dims_conditional]
    exact mem_dims_combine hc
  case rows =>
    have hwidth : r.conditional.toFactor.width = f.width := by
      rw [width, ho.dims_conditional, width]
    refine ⟨f, _, hc, reduce_eq ho.wellFormed, ho.distributes,
      ho.distributes.add_le.trans (le_min ?_ ?_)⟩
    case refine_1 => exact rows_combine hc ▸ hlength
    case refine_2 => simpa [hwidth] using hascending.length_le

-- Variables of which one is seen through a coefficient that is no number, one by no row at all and
-- one has no entries, with a hard constraint that is stated twice.
def assortment : List (LinearFactor Float) :=
  [scalarRow [2, 0] [0 / 0, 1] 2 1, scalarRow [1, 2] [1, 1] (1 / 0) 0,
    scalarRow [1, 2] [1, 1] (1 / 0) 0, ofRhs #[3],
    ⟨[3, 4], BlockMatrix.ofFn 0 [0, 2, 1] fun _ _ => 0, none⟩]

theorem wellFormed_assortment : ∀ f ∈ assortment, f.WellFormed := by
  simp only [assortment, List.forall_mem_cons, List.not_mem_nil, false_imp_iff, implies_true,
    and_true]
  exact ⟨wellFormed_scalarRow_of_admissible (by decide) UnitDeviations.one,
    wellFormed_scalarRow_of_admissible (by decide) UnitDeviations.zero,
    wellFormed_scalarRow_of_admissible (by decide) UnitDeviations.zero,
    wellFormed_ofRhs _, by decide, rfl, rfl, nofun⟩

theorem assembled_eliminate_assortment :
    (∀ v, eliminate assortment [1, 4] ⟨0, 0, true⟩ ≠ violated v) ∧
      ∃ r, eliminate assortment [1, 4] ⟨0, 0, true⟩ = .ok r ∧
        r.Assembled assortment [1, 4] ⟨0, 0, true⟩ ∧
        r.conditional.parents = [2, 0, 3] ∧ r.remaining.rows ≤ 4 := by
  have hws : Widths.ofOccurrences (assortment.flatMap dims) =
      .ok [(2, 1), (0, 1), (1, 1), (3, 0), (4, 2)] := rfl
  obtain ⟨f, hc⟩ : ∃ f, combine assortment [1, 4] = .ok f :=
    exists_combine wellFormed_assortment (by decide) hws (by decide)
  obtain ⟨r, hr⟩ : ∃ r, eliminate assortment [1, 4] ⟨0, 0, true⟩ = .ok r :=
    exists_eliminate wellFormed_assortment (by decide) hc rfl
  have h := (assembled_eliminate wellFormed_assortment).right r hr
  obtain ⟨_, _, _, _, _, hle⟩ := h.rows
  exact ⟨(assembled_eliminate wellFormed_assortment).left, r, hr, h, h.others.trans (by decide),
    le_of_add_le_left (hle.trans (Nat.min_le_left _ _))⟩

end Elimination
end LinearGaussian
