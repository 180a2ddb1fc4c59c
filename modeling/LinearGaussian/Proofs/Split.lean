import LinearGaussian.Proofs.Reduction
import LinearGaussian.Proofs.Root

namespace LinearGaussian

open Measurement PivotRow

namespace Conditional

section Layout

variable {α : Type} [Arith α] [RealLike α]

-- What elimination makes of the frontal variables: a square triangular system, in which some rows
-- may be zero.
structure WellFormed (c : Conditional α) : Prop where
  factor : c.toFactor.WellFormed
  le     : c.frontalCount ≤ c.keys.length
  square : c.rows = c.frontalDim
  upper  : ∀ i j, j < i → c.rsd.full.entry i j = 0
  dim    : c.model.dim = c.rows
  unit   : ∀ s ∈ c.model.sigmas, s = 0 ∨ s = 1

def frontalDims (c : Conditional α) : List (Key × Nat) :=
  c.toFactor.dims.take c.frontalCount

def parentDims (c : Conditional α) : List (Key × Nat) :=
  c.toFactor.dims.drop c.frontalCount

theorem frontalDims_append_parentDims (c : Conditional α) :
    c.frontalDims ++ c.parentDims = c.toFactor.dims :=
  List.take_append_drop _ _

variable {c : Conditional α}

theorem keys_frontalDims (h : c.toFactor.WellFormed) : c.frontalDims.map (·.1) = c.frontals := by
  rw [frontalDims, List.map_take, h.keys_dims]
  rfl

theorem keys_parentDims (h : c.toFactor.WellFormed) : c.parentDims.map (·.1) = c.parents := by
  rw [parentDims, List.map_drop, h.keys_dims]
  rfl

theorem wellFormed_toFactor (hn : c.keys.Nodup) (hc : c.rsd.count = c.keys.length + 1)
    (hl : c.rsd.widths[c.keys.length]? = some 1) (hd : c.model.dim = c.rows)
    (ha : ∀ s ∈ c.model.sigmas, NoiseModel.admissible s = true) : c.toFactor.WellFormed := by
  refine ⟨hn, hc, hl, fun m hm => ?_⟩
  have hm : c.model = m := by
    unfold toFactor at hm
    split at hm
    case isTrue => contradiction
    case isFalse => exact Option.some.inj hm
  exact hm ▸ ⟨hd, ha⟩

namespace WellFormed

theorem keys_frontalDims (h : c.WellFormed) : c.frontalDims.map (·.1) = c.frontals :=
  Conditional.keys_frontalDims h.factor

theorem keys_parentDims (h : c.WellFormed) : c.parentDims.map (·.1) = c.parents :=
  Conditional.keys_parentDims h.factor

theorem sum_frontalDims (h : c.WellFormed) : (c.frontalDims.map (·.2)).sum = c.rows := by
  rw [h.square]
  exact (h.factor.offsetAt_eq h.le).symm

end WellFormed
end Layout

theorem sigmas_toFactor {c : Conditional ℝ} (h : c.model.dim = c.rows) :
    c.toFactor.sigmas = c.model.sigmas := by
  unfold toFactor LinearFactor.sigmas
  by_cases hu : c.model.isUnit = true
  case pos =>
    have h1 : ∀ (i : Nat) (_ : i < c.model.sigmas.size), c.model.sigmas[i] = 1 := by
      simpa [NoiseModel.isUnit] using hu
    simp only [hu, if_true]
    apply Array.ext
    case h₁ => exact Array.size_replicate.trans h.symm
    case h₂ =>
      intro i _ hi
      simp [Vec.fill, h1 i hi]
  case neg => simp [hu]

end Conditional

namespace Elimination

section Parts

variable {α : Type} [Arith α] [RealLike α] {f g : LinearFactor α} {count : Nat}
  {rows : List (PivotRow α f.ab.full.cols)} {c : Conditional α}

section Frontal

def frontalPart (f : LinearFactor α) (count : Nat) (rows : List (PivotRow α f.ab.full.cols)) :
    Conditional α :=
  ⟨f.keys, count, frontalRows f count rows, ⟨frontalSigmas f count rows⟩⟩

omit [RealLike α] in
theorem entry_frontalPart {i j : Nat} (hi : i < f.ab.offsetAt count) (hj : j < f.ab.full.cols) :
    (frontalPart f count rows).rsd.full.entry i j = ((find? rows i).map (·.entry ⟨j, hj⟩)).getD 0 :=
  Mat.entry_ofFn _ hi hj

theorem conditionalOf_eq_ok :
    conditionalOf f count rows = .ok c ↔ c = frontalPart f count rows ∧
      ∀ s ∈ (frontalPart f count rows).model.sigmas, NoiseModel.admissible s = true := by
  unfold conditionalOf
  simp only [Outcome.bind_eq_ok, NoiseModel.diagonal_eq_ok, Outcome.pure_eq_ok, Except.ok.injEq]
  constructor
  case mp =>
    rintro ⟨_, ⟨hm, ha⟩, hc⟩
    exact ⟨by rw [← hc, hm]; rfl, ha⟩
  case mpr =>
    rintro ⟨hc, ha⟩
    exact ⟨_, ⟨rfl, ha⟩, hc.symm⟩

theorem conditionalOf_eq_error {e : Fault} (h : conditionalOf f count rows = .error e) :
    ∃ row, e = .violation (.sigma row) := by
  obtain h | ⟨_, _, h⟩ := Outcome.bind_eq_error.mp h
  case inl => exact (NoiseModel.diagonal_eq_error h).left
  case inr => contradiction

omit [RealLike α] in
theorem sigma_frontalPart (hu : ∀ row ∈ rows, row.sigma = 0 ∨ row.sigma = 1) :
    ∀ s ∈ (frontalPart f count rows).model.sigmas, s = 0 ∨ s = 1 := by
  intro s hm
  have ⟨i, hi⟩ : ∃ i : Fin (f.ab.offsetAt count), ((find? rows i).map (·.sigma)).getD 1 = s := by
    simpa [frontalPart, frontalSigmas] using hm
  cases hf : find? rows i
  case none => simp_all
  case some row =>
    have hr := hu row (List.mem_of_find?_eq_some hf)
    simp_all

theorem conditionalOf_eq [UnitDeviations α] (hu : ∀ row ∈ rows, row.sigma = 0 ∨ row.sigma = 1) :
    conditionalOf f count rows = .ok (frontalPart f count rows) :=
  conditionalOf_eq_ok.mpr ⟨rfl, fun s hs => UnitDeviations.admissible (sigma_frontalPart hu s hs)⟩

omit [RealLike α] in
-- The rows are found by their pivots, and have nothing to the left of them.
theorem upper_frontalPart (f : LinearFactor α) (count : Nat)
    (rows : List (PivotRow α f.ab.full.cols)) {i j : Nat} (hij : j < i) :
    (frontalPart f count rows).rsd.full.entry i j = 0 := by
  unfold Mat.entry
  split
  case isTrue hb =>
    simp only [frontalPart, frontalRows, Mat.ofFn, Dense.get_ofFn]
    cases hf : find? rows i
    case none => rfl
    case some row =>
      have hp : row.pivot.val = i := by simpa using List.find?_some hf
      have hj : ¬row.pivot ≤ ⟨j, hb.right⟩ := by
        rw [Fin.le_def, hp]
        exact Nat.not_le.mpr hij
      simp [PivotRow.entry, hj]
  case isFalse => rfl

theorem wellFormed_conditionalOf (h : f.WellFormed)
    (hu : ∀ row ∈ rows, row.sigma = 0 ∨ row.sigma = 1) (hc : count ≤ f.keys.length)
    (hr : conditionalOf f count rows = .ok c) : c.WellFormed := by
  have ⟨he, ha⟩ := conditionalOf_eq_ok.mp hr
  have hd : (frontalPart f count rows).model.dim = (frontalPart f count rows).rows := by
    simp [frontalPart, frontalRows, frontalSigmas, NoiseModel.dim, Conditional.rows,
      BlockMatrix.rows, Mat.ofFn]
  subst he
  constructor
  case factor => exact Conditional.wellFormed_toFactor h.nodup h.count h.last hd ha
  case le => exact hc
  case square => rfl
  case upper => exact fun i j hij => upper_frontalPart f count rows hij
  case dim => exact hd
  case unit => exact sigma_frontalPart hu

end Frontal

section Later

omit [Arith α] [RealLike α] in
theorem sum_drop_widths (f : LinearFactor α) (count : Nat) :
    (f.ab.widths.drop count).sum = f.ab.full.cols - f.ab.offsetAt count := by
  have ht := congrArg List.sum (List.take_append_drop count f.ab.widths)
  rw [List.sum_append, f.ab.cover] at ht
  exact (Nat.sub_eq_of_eq_add' ht.symm).symm

def laterPart (f : LinearFactor α) (count : Nat) (rows : List (PivotRow α f.ab.full.cols)) :
    LinearFactor α :=
  ⟨f.keys.drop count,
    ⟨Mat.ofRows ((laterRows f count rows).map (·.values.drop (f.ab.offsetAt count))),
      f.ab.widths.drop count, sum_drop_widths f count⟩,
    if (laterSigmas f count rows).any (· == 0) then some ⟨laterSigmas f count rows⟩ else none⟩

theorem rows_laterPart (f : LinearFactor α) (count : Nat)
    (rows : List (PivotRow α f.ab.full.cols)) :
    (laterPart f count rows).rows = (laterSigmas f count rows).size := by
  simp [laterPart, laterSigmas, LinearFactor.rows, BlockMatrix.rows, Mat.ofRows, Mat.ofFn]

theorem dims_laterPart (f : LinearFactor α) (count : Nat)
    (rows : List (PivotRow α f.ab.full.cols)) :
    (laterPart f count rows).dims = f.dims.drop count := by
  simp [LinearFactor.dims, laterPart, List.zip, List.drop_zipWith]

theorem remainingOf_eq_bind (f : LinearFactor α) (count : Nat)
    (rows : List (PivotRow α f.ab.full.cols)) :
    remainingOf f count rows = (do
      let model ← if (laterSigmas f count rows).any (· == 0) then
        some <$> NoiseModel.diagonal (laterSigmas f count rows)
        else pure none
      return ⟨f.keys.drop count, (laterPart f count rows).ab, model⟩) := by
  have hab :
      BlockMatrix.ofMat
      (Mat.ofRows ((laterRows f count rows).map (·.values.drop (f.ab.offsetAt count))))
      (f.ab.widths.drop count) = .ok (laterPart f count rows).ab :=
    dif_pos (sum_drop_widths f count)
  unfold remainingOf
  exact congrArg (· >>= _) hab

theorem remainingOf_eq_ok :
    remainingOf f count rows = .ok g ↔ g = laterPart f count rows ∧
      ((laterSigmas f count rows).any (· == 0) = true →
        ∀ s ∈ laterSigmas f count rows, NoiseModel.admissible s = true) := by
  have hl : laterPart f count rows = ⟨f.keys.drop count, (laterPart f count rows).ab,
      if (laterSigmas f count rows).any (· == 0) then some ⟨laterSigmas f count rows⟩ else none⟩ :=
        rfl
  rw [remainingOf_eq_bind, hl]
  cases hz : (laterSigmas f count rows).any (· == 0)
  case false =>
    simp only [Bool.false_eq_true, if_false, Outcome.pure_eq_ok, Outcome.ok_bind, Except.ok.injEq,
      false_imp_iff, and_true]
    exact eq_comm
  case true =>
    simp only [if_true, Outcome.bind_eq_ok, Outcome.map_eq_ok, NoiseModel.diagonal_eq_ok,
      Outcome.pure_eq_ok, Except.ok.injEq, true_imp_iff]
    constructor
    case mp =>
      intro ⟨_, ⟨_, ⟨hm, ha⟩, hs⟩, hg⟩
      exact ⟨by rw [← hg, ← hs, hm], ha⟩
    case mpr =>
      intro ⟨hg, ha⟩
      exact ⟨_, ⟨_, ⟨rfl, ha⟩, rfl⟩, hg.symm⟩

theorem remainingOf_eq_error {e : Fault} (h : remainingOf f count rows = .error e) :
    ∃ row, e = .violation (.sigma row) := by
  rw [remainingOf_eq_bind] at h
  split at h
  case isTrue =>
    have h := (Outcome.bind_eq_error.mp h).resolve_right nofun
    exact (NoiseModel.diagonal_eq_error (Outcome.map_eq_error.mp h)).left
  case isFalse => contradiction

omit [RealLike α] in
theorem sigma_laterPart (hu : ∀ row ∈ rows, row.sigma = 0 ∨ row.sigma = 1) {s : α}
    (hm : s ∈ laterSigmas f count rows) : s = 0 ∨ s = 1 := by
  have ⟨row, hr, he⟩ := List.mem_map.mp (List.mem_toArray.mp hm)
  exact he ▸ hu row (List.mem_of_mem_filter hr)

theorem remainingOf_eq [UnitDeviations α] (hu : ∀ row ∈ rows, row.sigma = 0 ∨ row.sigma = 1) :
    remainingOf f count rows = .ok (laterPart f count rows) :=
  remainingOf_eq_ok.mpr ⟨rfl, fun _ _ hs => UnitDeviations.admissible (sigma_laterPart hu hs)⟩

theorem wellFormed_remainingOf (h : f.WellFormed) (hc : count ≤ f.keys.length)
    (hr : remainingOf f count rows = .ok g) : g.WellFormed := by
  have ⟨he, ha⟩ := remainingOf_eq_ok.mp hr
  have hl := h.length_widths
  subst he
  constructor
  case nodup => exact h.nodup.sublist (List.drop_sublist _ _)
  case count =>
    simp only [laterPart, BlockMatrix.count, List.length_drop]
    omega
  case last =>
    simp only [laterPart, List.getElem?_drop, List.length_drop, Nat.add_sub_cancel' hc]
    exact h.last
  case model =>
    intro m hm
    simp only [laterPart] at hm
    split at hm
    case isTrue hz =>
      cases hm
      exact ⟨(rows_laterPart f count rows).symm, ha hz⟩
    case isFalse => contradiction

end Later
end Parts

variable {f : LinearFactor ℝ} {count : Nat} {rows : List (PivotRow ℝ f.ab.full.cols)}

section Frontal

theorem isRoot_frontalPart (hp : ∀ row ∈ rows, 0 < row.values[row.pivot])
    (hw : (frontalPart f count rows).WellFormed) :
    IsRoot (f.ab.offsetAt count) (frontalPart f count rows).rsd.full.entry := by
  -- A row is zero, or its diagonal entry is its pivot.
  have hrow (i : Nat) (hi : i < f.ab.offsetAt count) :
      (∀ j, (frontalPart f count rows).rsd.full.entry i j = 0) ∨
      0 < (frontalPart f count rows).rsd.full.entry i i := by
    cases hf : find? rows i
    case none =>
      refine .inl fun j => ?_
      by_cases hj : j < f.ab.full.cols
      case pos => rw [entry_frontalPart hi hj, hf, Option.map_none, Option.getD_none]
      case neg => exact dif_neg fun hb => hj hb.right
    case some row =>
      have hi' : row.pivot.val = i := by simpa using List.find?_some hf
      subst hi'
      rw [entry_frontalPart hi row.pivot.isLt, hf]
      simpa [PivotRow.entry] using .inr (hp row (List.mem_of_find?_eq_some hf))
  constructor
  case upper => exact fun i _ j => hw.upper i j
  case nonneg =>
    intro i hi
    cases hrow i hi
    case inl h0 => rw [h0]
    case inr hp => exact hp.le
  case zero => exact fun i hi h0 => (hrow i hi).resolve_right h0.not_gt

theorem measurements_frontalPart (h : f.WellFormed) (hs : Staircase rows f.width)
    (hc : count ≤ f.keys.length) :
    (frontalPart f count rows).toFactor.measurements =
      (List.range (f.ab.offsetAt count)).map fun i =>
        ((find? rows i).map (·.measurement.comap f.columns)).getD idle := by
  have hw := wellFormed_conditionalOf h hs.unit hc (conditionalOf_eq hs.unit)
  apply List.map_congr_left
  intro i hi
  have hi : i < f.ab.offsetAt count := List.mem_range.mp hi
  have hsig : (frontalPart f count rows).toFactor.sigmas.getD i 1 =
      ((find? rows i).map (·.sigma)).getD 1 := by
    rw [Conditional.sigmas_toFactor hw.dim]
    simp [frontalPart, frontalSigmas, hi]
  have hres (z : Fin f.ab.full.cols → ℝ) :
      WeightedReduction.tail (n := f.ab.full.cols) (frontalPart f count rows).rsd.full.body 0
          ⟨i, hi⟩ z =
        ∑ j, ((find? rows i).map (·.entry j)).getD 0 * z j := by
    simp [WeightedReduction.tail, frontalPart, frontalRows, Mat.ofFn]
  have he : (frontalPart f count rows).toFactor.measurement i = comap f.columns
      ⟨((find? rows i).map (·.sigma)).getD 1,
        fun z => ∑ j, ((find? rows i).map (·.entry j)).getD 0 * z j⟩ := by
    rw [LinearFactor.measurement_eq hw.factor ⟨i, hi⟩, hsig]
    exact congrArg (Measurement.mk _) (funext fun p => hres _)
  rw [he]
  cases hf : find? rows i
  case none => simp [comap, idle]
  case some row => simp [comap, PivotRow.measurement, hs.entry_eq (hs.find?_eq_some_iff.mp hf).left]

theorem reduces_frontalPart (h : f.WellFormed) (hs : Staircase rows f.width)
    (hc : count ≤ f.keys.length) :
    Reduces ((rows.filter fun row => row.pivot.val < f.ab.offsetAt count).map
      (·.measurement.comap f.columns))
      (frontalPart f count rows).toFactor.measurements := by
  rw [measurements_frontalPart h hs hc]
  have hp := (hs.filterMap_find? (f.ab.offsetAt count)).symm.map (·.measurement.comap f.columns)
  rw [List.map_filterMap] at hp
  exact (Reduces.of_perm hp).trans $ Reduces.getD_idle _ _

end Frontal

section Later

theorem sigmas_laterPart (hs : Staircase rows f.width) :
    (laterPart f count rows).sigmas = laterSigmas f count rows := by
  have hr := rows_laterPart f count rows
  unfold LinearFactor.sigmas
  by_cases hz : (laterSigmas f count rows).any (· == 0) = true
  case pos => simp [laterPart, hz]
  case neg =>
    have h0 : 0 ∉ laterSigmas f count rows := by simpa [Array.mem_iff_getElem] using hz
    simp only [laterPart, hz] at hr ⊢
    apply Array.ext
    case h₁ => exact Array.size_replicate.trans hr
    case h₂ =>
      intro i _ hi
      have hm := Array.getElem_mem hi
      have h1 := (sigma_laterPart hs.unit hm).resolve_left fun h => h0 (h ▸ hm)
      simp [Vec.fill, h1]

theorem sum_range_shift {n k : Nat} (hk : k ≤ n) {g : Nat → ℝ} (hz : ∀ j < k, g j = 0) :
    ∑ j ∈ Finset.range n, g j = ∑ j ∈ Finset.range (n - k), g (k + j) := by
  have ⟨l, hl⟩ := Nat.exists_eq_add_of_le hk
  rw [hl, Finset.sum_range_add, Finset.sum_eq_zero fun j hj => hz j (Finset.mem_range.mp hj),
    zero_add, Nat.add_sub_cancel_left]

theorem sum_values_drop {n k : Nat} {values : Vector ℝ n} (hk : k ≤ n)
    (hz : ∀ j : Fin n, j.val < k → values[j] = 0) (z : Nat → ℝ) :
    ∑ j : Fin n, values[j] * z j = ∑ j : Fin (n - k), (values.drop k)[j] * z (k + j) := by
  have h0 : ∀ j < k, values.toArray.getD j 0 * z j = 0 := by
    intro j hj
    have hn : j < n := by omega
    have hv : values[j] = 0 := hz ⟨j, hn⟩ hj
    simp [hn, hv]
  have hs := sum_range_shift hk h0
  have hn : ∀ j : Fin (n - k), k + j.val < n := by omega
  rw [Finset.sum_range, Finset.sum_range] at hs
  simpa [hn] using hs

theorem columns_laterPart (h : f.WellFormed) (hc : count ≤ f.keys.length) (p : Point) (j : Nat) :
    LinearFactor.stack (f.dims.drop count) p j =
      LinearFactor.stack f.dims p (f.ab.offsetAt count + j) := by
  have he := endToEnd_append_right (-1) ((f.dims.take count).map fun w => (w.2, p w.1))
    ((f.dims.drop count).map fun w => (w.2, p w.1)) j
  rw [← List.map_append, List.take_append_drop, List.map_map] at he
  rw [h.offsetAt_eq hc]
  exact he.symm

theorem body_laterPart {i : Nat} (hi : i < (laterRows f count rows).length)
    (hi' : i < (laterPart f count rows).rows) (k : Fin (f.ab.full.cols - f.ab.offsetAt count)) :
    (laterPart f count rows).ab.full.body ⟨i, hi'⟩ k =
      ((laterRows f count rows)[i].values.drop (f.ab.offsetAt count))[k] := by
  simp [laterPart, Mat.ofRows, Mat.ofFn]

theorem measurements_laterPart (h : f.WellFormed) (hs : Staircase rows f.width)
    (hc : count ≤ f.keys.length) :
    (laterPart f count rows).measurements =
      (laterRows f count rows).map (·.measurement.comap f.columns) := by
  have hr := rows_laterPart f count rows
  apply List.ext_getElem
  case hl => simp [LinearFactor.measurements, hr, laterSigmas]
  case h =>
    intro i hi hi'
    have hi : i < (laterPart f count rows).rows := by simpa [LinearFactor.measurements] using hi
    have hi' : i < (laterRows f count rows).length := by simpa using hi'
    have hrow := List.mem_filter.mp $ List.getElem_mem hi'
    -- Later rows have nothing in the columns of the frontal variables, so these can be dropped.
    have hz : ∀ j : Fin f.ab.full.cols, j.val < f.ab.offsetAt count →
        (laterRows f count rows)[i].values[j] = 0 := by
      intro j hj
      exact hs.left _ hrow.left j (Fin.lt_def.mpr (hj.trans_le (by simpa using hrow.right)))
    have hres (p : Point) : WeightedReduction.tail (laterPart f count rows).ab.full.body 0 ⟨i, hi⟩
        ((laterPart f count rows).columns p) =
          ∑ j : Fin f.ab.full.cols, (laterRows f count rows)[i].values[j] * f.columns p j := by
      rw [WeightedReduction.tail, Finset.filter_true_of_mem (by simp)]
      apply Eq.trans _ (sum_values_drop (f.ab.offsetAt_le count) hz _).symm
      apply Finset.sum_congr rfl
      intro k _
      rw [← columns_laterPart h hc, ← dims_laterPart f count rows]
      exact congrArg (· * _) (body_laterPart hi' hi k)
    have hsig : (laterPart f count rows).sigmas.getD i 1 = (laterRows f count rows)[i].sigma := by
      simp [sigmas_laterPart hs, laterSigmas, hi']
    simp only [LinearFactor.measurements, List.getElem_map, List.getElem_range]
    rw [LinearFactor.measurement_eq (wellFormed_remainingOf h hc (remainingOf_eq hs.unit)) ⟨i, hi⟩,
      hsig]
    exact congrArg (Measurement.mk _) (funext hres)

end Later

-- Together, the two parts say what the rows say.
theorem reduces_parts (h : f.WellFormed) (hs : Staircase rows f.width)
    (hc : count ≤ f.keys.length) :
    Reduces (rows.map (·.measurement.comap f.columns))
      ((frontalPart f count rows).toFactor.measurements ++
        (laterPart f count rows).measurements) := by
  have hp :=
    (List.filter_append_perm (fun row => row.pivot.val < f.ab.offsetAt count) rows).symm.map
      (·.measurement.comap f.columns)
  apply (Reduces.of_perm hp).trans
  rw [List.map_append, measurements_laterPart h hs hc, laterRows]
  simp only [decide_not.symm, not_lt]
  exact (reduces_frontalPart h hs hc).append_right

end Elimination
end LinearGaussian
