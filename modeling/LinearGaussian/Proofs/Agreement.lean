import LinearGaussian.Proofs.Echelon
import LinearGaussian.Proofs.Reduction

namespace LinearGaussian

open Measurement

variable {m n c : Nat}

namespace PivotRow

variable {rows rows' : List (PivotRow ℝ n)} {row row' : PivotRow ℝ n} {j : Fin n}

noncomputable def products (rows : List (PivotRow ℝ n)) (j k : Fin n) : ℝ :=
  (rows.map fun row => row.values[j] * row.values[k]).sum

@[simp]
theorem products_cons (row : PivotRow ℝ n) (rows : List (PivotRow ℝ n)) (j k : Fin n) :
    products (row :: rows) j k = row.values[j] * row.values[k] + products rows j k :=
  rfl

theorem products_eq_zero (h : ∀ row ∈ rows, row.values[j] = 0) (k : Fin n) :
    products rows j k = 0 := by
  apply List.sum_eq_zero
  intro a ha
  obtain ⟨row, hr, rfl⟩ := List.mem_map.mp ha
  rw [h row hr, zero_mul]

structure Definite (rows : List (PivotRow ℝ n)) (c : Nat) : Prop extends Staircase rows c where
  pos  : ∀ row ∈ rows, 0 < row.values[row.pivot]
  soft : ∀ row ∈ rows, row.sigma = 1

namespace Definite

theorem tail (h : Definite (row :: rows) c) : Definite rows c where
  lt r hr := h.lt r (.tail _ hr)
  mono := (List.pairwise_cons.mp h.mono).right
  left r hr := h.left r (.tail _ hr)
  unit r hr := h.unit r (.tail _ hr)
  pos r hr := h.pos r (.tail _ hr)
  soft r hr := h.soft r (.tail _ hr)

theorem pivot_lt (h : Definite (row :: rows) c) : ∀ r ∈ rows, row.pivot < r.pivot :=
  (List.pairwise_cons.mp h.mono).left

theorem pivot_le (h : Definite (row :: rows) c) : ∀ r ∈ row :: rows, row.pivot ≤ r.pivot :=
  List.forall_mem_cons.mpr ⟨le_rfl, fun r hr => (h.pivot_lt r hr).le⟩

theorem products_pivot (h : Definite (row :: rows) c) (k : Fin n) :
    products (row :: rows) row.pivot k = row.values[row.pivot] * row.values[k] := by
  rw [products_cons, products_eq_zero fun r hr => h.left r (.tail _ hr) _ (h.pivot_lt r hr),
    add_zero]

theorem exists_pivot_le (h : Definite (row :: rows) c) (h' : Definite rows' c)
    (hg : products (row :: rows) row.pivot row.pivot = products rows' row.pivot row.pivot) :
    ∃ row' ∈ rows', row'.pivot ≤ row.pivot := by
  by_contra! hlt
  rw [h.products_pivot, products_eq_zero fun r hr => h'.left r hr _ (hlt r hr)] at hg
  exact (h.pos row (.head _)).ne' (mul_self_eq_zero.mp hg)

theorem head_eq (h : Definite (row :: rows) c) (h' : Definite (row' :: rows') c)
    (hp : row.pivot = row'.pivot)
    (hg : ∀ k, products (row :: rows) row.pivot k = products (row' :: rows') row.pivot k) :
    row = row' := by
  obtain ⟨p, v, s⟩ := row
  obtain ⟨p', v', s'⟩ := row'
  obtain rfl : p = p' := hp
  have hpos : 0 < v[p] := h.pos _ (.head _)
  have hpos' : 0 < v'[p] := h'.pos _ (.head _)
  have hrow : ∀ k : Fin n, v[p] * v[k] = v'[p] * v'[k] := by
    intro k
    rw [← h.products_pivot k, hg k, h'.products_pivot k]
  have hd : v[p] = v'[p] := (mul_self_inj hpos.le hpos'.le).mp (hrow p)
  have hv : v = v' := Vector.ext fun k hk => mul_left_cancel₀ hpos.ne' (hd ▸ hrow ⟨k, hk⟩)
  have hs : s = s' := (h.soft _ (.head _)).trans (h'.soft _ (.head _)).symm
  rw [hv, hs]

-- Rows with positive pivots are known by the products of the columns with a pivot.
theorem eq_of_products (h : Definite rows c) (h' : Definite rows' c)
    (hg : ∀ j k : Fin n, j.val < c → products rows j k = products rows' j k) : rows = rows' := by
  induction rows generalizing rows'
  case nil =>
    cases rows'
    case nil => rfl
    case cons row' rows' =>
      obtain ⟨_, hm, _⟩ := h'.exists_pivot_le h (hg _ _ (h'.lt row' (.head _))).symm
      contradiction
  case cons row rows ih =>
    have hlt := h.lt row (.head _)
    obtain ⟨r', hr', hle'⟩ := h.exists_pivot_le h' (hg _ _ hlt)
    cases rows'
    case nil => contradiction
    case cons row' rows' =>
      obtain ⟨r, hr, hle⟩ := h'.exists_pivot_le h (hg _ _ (h'.lt row' (.head _))).symm
      have hp : row.pivot = row'.pivot :=
        le_antisymm ((h.pivot_le r hr).trans hle) ((h'.pivot_le r' hr').trans hle')
      cases h.head_eq h' hp fun k => hg _ k hlt
      rw [ih h.tail h'.tail]
      intro j k hj
      simpa using hg j k hj

end Definite
end PivotRow

namespace Measurement

variable {ms ns : List (Measurement (Fin n → ℝ))}

def Additive (m : Measurement (Fin n → ℝ)) : Prop :=
  ∀ z w, m.residual (z + w) = m.residual z + m.residual w

-- What the rows say about two vectors together.
noncomputable def polar (ms : List (Measurement (Fin n → ℝ))) (z w : Fin n → ℝ) : ℝ :=
  (ms.map fun m => m.residual z * NoiseModel.weightOf m.sigma *
    (m.residual w * NoiseModel.weightOf m.sigma)).sum

theorem polar_append (z w : Fin n → ℝ) : polar (ms ++ ns) z w = polar ms z w + polar ns z w := by
  simp [polar]

theorem totalCost_add (h : ∀ m ∈ ms, Additive m) (z w : Fin n → ℝ) :
    totalCost ms (z + w) = totalCost ms z + totalCost ms w + polar ms z w := by
  induction ms
  case nil => simp [polar]
  case cons m ms ih =>
    obtain ⟨hm, hms⟩ := List.forall_mem_cons.mp h
    have hp : polar (m :: ms) z w = m.residual z * NoiseModel.weightOf m.sigma *
      (m.residual w * NoiseModel.weightOf m.sigma) + polar ms z w := rfl
    rw [totalCost_cons, totalCost_cons, totalCost_cons, ih hms, hp, cost, cost, cost, hm]
    ring

theorem totalCost_zero (h : ∀ m ∈ ms, Additive m) : totalCost ms 0 = 0 := by
  refine totalCost_eq_zero_iff.mpr fun m hm => ?_
  simpa using h m hm 0 0

theorem polar_eq_of_cost (hms : ∀ m ∈ ms, Additive m) (hns : ∀ m ∈ ns, Additive m) {d : ℝ}
    (h : ∀ z, totalCost ms z = totalCost ns z + d) (z w : Fin n → ℝ) :
    polar ms z w = polar ns z w := by
  have h0 := h 0
  rw [totalCost_zero hms, totalCost_zero hns] at h0
  linarith [totalCost_add hms z w, totalCost_add hns z w, h z, h w, h (z + w)]

end Measurement

section Products

open WeightedReduction PivotRow

theorem additive_measurement (row : PivotRow ℝ n) : Additive row.measurement := by
  intro z w
  simp [PivotRow.measurement, mul_add, Finset.sum_add_distrib]

theorem additive_ofRows (sigmas : Fin m → ℝ) (b : Dense ℝ m n) (c : Nat) :
    ∀ r ∈ ofRows sigmas (tail b c), Additive r := by
  intro r hr z w
  obtain ⟨i, _, rfl⟩ := List.mem_map.mp hr
  simp [tail, mul_add, Finset.sum_add_distrib]

theorem tail_single (b : Dense ℝ m n) (c : Nat) (i : Fin m) (j : Fin n) :
    tail b c i (Pi.single j 1) = if c ≤ j.val then b i j else 0 := by
  simp [tail, Pi.single_apply]

theorem polar_rows {rows : List (PivotRow ℝ n)} (h : ∀ row ∈ rows, row.sigma = 1) (j k : Fin n) :
    polar (rows.map (·.measurement)) (Pi.single j 1) (Pi.single k 1) = products rows j k := by
  rw [polar, List.map_map, products]
  congr 1
  apply List.map_congr_left
  intro row hr
  simp [PivotRow.measurement, h row hr, weightOf_eq, Pi.single_apply]

theorem polar_ofRows (sigmas : Fin m → ℝ) (residuals : Fin m → (Fin n → ℝ) → ℝ) (z w : Fin n → ℝ) :
    polar (ofRows sigmas residuals) z w =
      ∑ i, residuals i z * NoiseModel.weightOf (sigmas i) *
        (residuals i w * NoiseModel.weightOf (sigmas i)) := by
  rw [polar, ofRows, List.map_map, Fin.sum_univ_def]
  rfl

theorem Echelon.Reduced.products_eq {e : Echelon ℝ m n} {a : Dense ℝ m n} (h : e.Reduced a c)
    {j : Fin n} (hj : j.val < c) (k : Fin n) : products e.rows j k = ∑ i, a i j * a i k := by
  have ht : e.rows.map (fun row => row.values[j] * row.values[k]) =
      ((List.finRange m).take e.pivots.length).map fun i => e.body i j * e.body i k :=
    Echelon.map_rows fun p i => by simp
  have hd : (((List.finRange m).drop e.pivots.length).map fun i => e.body i j * e.body i k).sum =
      0 := by
    apply List.sum_eq_zero
    intro x hx
    obtain ⟨i, hi, rfl⟩ := List.mem_map.mp hx
    obtain ⟨l, hl, rfl⟩ := List.mem_drop_iff_getElem.mp hi
    rw [h.below _ (by simp) j hj, zero_mul]
  rw [← h.gram, Fin.sum_univ_def, ← List.take_append_drop e.pivots.length (List.finRange m),
    List.map_append, List.sum_append, hd, add_zero, products, ht]

theorem definite_triangularize (a : Dense ℝ m n) {count : Nat} (h : count ≤ n) :
    Definite (triangularize a count).rows count := by
  constructor
  case toStaircase => exact (triangularize_reduced a h).staircase
  case pos => exact fun row hr => pos_triangularize a h hr
  case soft =>
    intro row hr
    obtain ⟨_, _, _, rfl⟩ := Echelon.exists_of_mem_rows hr
    rfl

end Products

namespace Pseudoinverse

variable {a sigmas : Fin m → ℝ} {zeroTol rankTol : ℝ}

theorem ofColumn_finite (zeroTol rankTol : ℝ) (hs : ∀ i, sigmas i ≠ 0) :
    ∃ p, (ofColumn a sigmas zeroTol rankTol).precision = .finite p := by
  have hf : (List.finRange m).find? (fun i => sigmas i == 0 && zeroTol ≤ RealLike.abs (a i)) =
      none := by
    simp [List.find?_eq_none, hs]
  unfold ofColumn
  rw [hf]
  simp only
  split <;> exact ⟨_, rfl⟩

theorem ofColumn_soft (hs : ∀ i, 0 < sigmas i) (hn : ∀ i, a i = 0 ∨ zeroTol ≤ |a i|) (rankTol : ℝ) :
    ofColumn a sigmas zeroTol rankTol =
      if precisionOf a sigmas < rankTol then
        ⟨.finite (precisionOf a sigmas), Vector.ofFn fun _ => 0⟩
      else noisy a sigmas :=
  ofColumn_noisy (fun i => (hs i).le) (fun i hi => absurd hi (hs i).ne') (fun i _ => hn i)
    (fun i hi => absurd hi (hs i).ne') rankTol

theorem decisive_of_soft (hs : ∀ i, 0 < sigmas i) (hn : ∀ i, a i = 0 ∨ zeroTol ≤ |a i|)
    (hp : precisionOf a sigmas = 0 ∨ rankTol ≤ precisionOf a sigmas) :
    Decisive a sigmas zeroTol rankTol := by
  constructor
  case hard => exact fun i hi => absurd hi (hs i).ne'
  case noisy => exact fun _ i _ => hn i
  case precision =>
    intro p he
    rw [ofColumn_soft hs hn] at he
    split at he
    all_goals
      cases he
      exact hp

end Pseudoinverse

namespace WeightedReduction

open PivotRow

variable {a : Dense ℝ m n} {sigmas : Fin m → ℝ} {count : Nat} {zeroTol rankTol : ℝ}
  {s : WeightedReduction ℝ m n}

structure Soft (s : WeightedReduction ℝ m n) (rankTol : ℝ) : Prop where
  unit      : ∀ row ∈ s.rows, row.values[row.col] = 1
  precision : ∀ row ∈ s.rows, ∃ p ≥ rankTol, row.precision = .finite p

theorem soft_step (h : s.Soft rankTol) (hs : ∀ i, 0 < sigmas i) (maxRank : Nat) (col : Fin n) :
    (s.step sigmas zeroTol rankTol maxRank col).Soft rankTol := by
  rw [step_eq]
  split
  case isFalse => exact h
  case isTrue =>
    obtain ⟨p, hp⟩ := Pseudoinverse.ofColumn_finite (a := fun i => s.body i col) zeroTol rankTol
      fun i => (hs i).ne'
    simp only [hp]
    split
    case isTrue => exact h
    case isFalse hb =>
      constructor
      case unit =>
        refine List.forall_mem_append.mpr ⟨h.unit, List.forall_mem_singleton.mpr ?_⟩
        simp [combination]
      case precision =>
        refine List.forall_mem_append.mpr ⟨h.precision, List.forall_mem_singleton.mpr ⟨p, ?_, hp⟩⟩
        simpa [Precision.below] using hb

theorem soft_weightedReduce (hs : ∀ i, 0 < sigmas i) (hn : count ≤ n) :
    (weightedReduce a sigmas count zeroTol rankTol).Soft rankTol := by
  refine foldWhere_induction (P := fun _ (s : WeightedReduction ℝ m n) => s.Soft rankTol) ?_ ?_ hn
  case refine_1 => constructor <;> simp
  case refine_2 => exact fun col s h => soft_step h hs _ col

theorem definite_weightedReduce (hs : ∀ i, 0 < sigmas i) (hr : 0 < rankTol) (hn : count ≤ n) :
    Definite ((weightedReduce a sigmas count zeroTol rankTol).rows.map (·.scaled)) count := by
  have h : (weightedReduce a sigmas count zeroTol rankTol).Soft rankTol := soft_weightedReduce hs hn
  constructor
  case toStaircase => exact staircase_weightedReduce hn
  case pos =>
    refine List.forall_mem_map.mpr fun row hm => ?_
    obtain ⟨p, hp, he⟩ := h.precision row hm
    have h1 := h.unit row hm
    have hsqrt := Real.sqrt_pos.mpr (hr.trans_le hp)
    simp_all [WeightedRow.scaled]
  case soft =>
    refine List.forall_mem_map.mpr fun row hm => ?_
    obtain ⟨p, _, he⟩ := h.precision row hm
    simp [WeightedRow.scaled, he]

theorem products_weightedReduce (hd : Decisive a sigmas count zeroTol rankTol)
    (hs : ∀ i, 0 < sigmas i) (hz : 0 < zeroTol) (hr : 0 < rankTol) (hn : count ≤ n) {j : Fin n}
    (hj : j.val < count) (k : Fin n) :
    products ((weightedReduce a sigmas count zeroTol rankTol).rows.map (·.scaled)) j k =
      ∑ i, a i j / sigmas i * (a i k / sigmas i) := by
  have hred := weightedReduce_reduced hd (fun i => (hs i).le) hz hr hn
  have hfeasible : ∀ z, Feasible (ofRows sigmas (tail a 0)) z :=
    fun z => feasible_ofRows.mpr fun i hi => absurd hi (hs i).ne'
  obtain ⟨d, _, hcost⟩ := (hred.reduces ⟨0, hfeasible 0⟩).cost
  have hpolar :=
    polar_eq_of_cost (additive_ofRows sigmas a 0) ?_ (fun z => hcost z (hfeasible z))
      (Pi.single j 1)
    (Pi.single k 1)
  case refine_1 =>
    refine List.forall_mem_append.mpr ⟨?_, additive_ofRows _ _ _⟩
    exact List.forall_mem_map.mpr fun row _ => additive_measurement _
  have hm : (weightedReduce a sigmas count zeroTol rankTol).rows.map (·.scaled.measurement) =
      ((weightedReduce a sigmas count zeroTol rankTol).rows.map (·.scaled)).map
        (·.measurement) := by simp
  rw [polar_append, polar_ofRows, polar_ofRows, hm,
    polar_rows (definite_weightedReduce hs hr hn).soft] at hpolar
  simp only [tail_single, Nat.zero_le, if_true, hj.not_ge, if_false, zero_mul,
    Finset.sum_const_zero, add_zero] at hpolar
  rw [← hpolar]
  apply Finset.sum_congr rfl
  intro i _
  rw [weightOf_eq, if_neg (hs i).ne', mul_one_div, mul_one_div]

end WeightedReduction

-- The weighted rows have the pivots of the triangular form, and scaled by the root of its
-- precision, each of them is the row of the triangular form with its number.
structure Echelon.Matches (e : Echelon ℝ m n) (s : WeightedReduction ℝ m n) : Prop where
  pivots : s.rows.map (·.col) = e.pivots
  length : s.rows.length ≤ m
  rows   : ∀ (i : Fin m) row, s.rows[i.val]? = some row →
    ∃ p, row.precision = .finite p ∧ ∀ k : Fin n, row.values[k] * √p = e.body i k

theorem Echelon.pivots_rows {e : Echelon ℝ m n} (h : e.pivots.length ≤ m) :
    e.rows.map (·.pivot) = e.pivots := by
  rw [rows, List.map_map]
  exact List.map_fst_zip (by simpa using h)

theorem matches_of_rows {e : Echelon ℝ m n} {s : WeightedReduction ℝ m n} {rankTol : ℝ}
    (hs : s.Soft rankTol) (hl : e.pivots.length ≤ m) (h : s.rows.map (·.scaled) = e.rows) :
    e.Matches s := by
  have hp : s.rows.map (·.col) = e.pivots := by
    rw [← Echelon.pivots_rows hl, ← h]
    simp
  constructor
  case pivots => exact hp
  case length => simpa [← hp] using hl
  case rows =>
    intro i row hi
    obtain ⟨p, _, he⟩ := hs.precision row (List.mem_of_getElem? hi)
    have hrow : e.rows[i.val]? = some row.scaled := by simp [← h, hi]
    obtain ⟨hk, hrow⟩ := List.getElem?_eq_some_iff.mp hrow
    obtain ⟨_, _, hbody⟩ := Echelon.getElem_rows hk
    have hv := congrArg PivotRow.values (hbody.symm.trans hrow)
    refine ⟨p, he, fun k => ?_⟩
    have hk := congrArg (·[k]) hv
    simpa [WeightedRow.scaled, he] using hk.symm

-- Triangular form of the whitened rows is what weighted rows are scaled to.
theorem matches_triangularize {a w : Dense ℝ m n} {sigmas : Fin m → ℝ} {count : Nat}
    {zeroTol rankTol : ℝ} (hd : WeightedReduction.Decisive a sigmas count zeroTol rankTol)
    (hs : ∀ i, 0 < sigmas i) (hz : 0 < zeroTol) (hr : 0 < rankTol) (hn : count ≤ n)
    (hw : ∀ i j, w i j = a i j / sigmas i) :
    (triangularize w count).Matches (weightedReduce a sigmas count zeroTol rankTol) := by
  apply matches_of_rows (WeightedReduction.soft_weightedReduce hs hn)
    (ascending_triangularize w hn).right
  apply (WeightedReduction.definite_weightedReduce hs hr hn).eq_of_products
    (definite_triangularize w hn)
  intro j k hj
  rw [WeightedReduction.products_weightedReduce hd hs hz hr hn hj,
    (triangularize_reduced w hn).products_eq hj]
  simp only [hw]

theorem exists_whitenRows (a : Mat ℝ) {sigmas : Vector ℝ a.rows}
    (hs : ∀ i : Fin a.rows, sigmas[i] ≠ 0) :
    ∃ w, NoiseModel.whitenRows ⟨sigmas.toArray⟩ a = .ok ⟨a.rows, a.cols, w⟩ ∧
      ∀ i j, w i j = a.body i j / sigmas[i] := by
  have hw : ∀ i : Fin a.rows, NoiseModel.weight ⟨sigmas.toArray⟩ i = 1 / sigmas[i] := by
    intro i
    have hi : sigmas.toArray[i.val]? = some sigmas[i] := by simp
    rw [NoiseModel.weight, hi]
    exact (weightOf_eq _).trans (if_neg (hs i))
  refine ⟨NoiseModel.whitened ⟨sigmas.toArray⟩ a.body, ?_, fun i j => ?_⟩
  case refine_1 =>
    simp [NoiseModel.whitenRows, NoiseModel.whitenBody, NoiseModel.dim, require]
  case refine_2 =>
    simp only [NoiseModel.whitened, Dense.get_ofFn, hw]
    split
    case isTrue h1 => rw [div_eq_mul_one_div, eq_of_beq h1, mul_one]
    case isFalse => exact mul_one_div _ _

-- Rows of any deviations but zero are reduced to the same rows in both ways.
theorem matches_weightedReduce {count : Nat} {zeroTol rankTol : ℝ} (a : Mat ℝ)
    (sigmas : Vector ℝ a.rows) (hn : count ≤ a.cols) (hs : ∀ i : Fin a.rows, 0 < sigmas[i])
    (hz : 0 < zeroTol) (hr : 0 < rankTol)
    (hd : WeightedReduction.Decisive a.body (fun i => sigmas[i]) count zeroTol rankTol) :
    ∃ w s e, NoiseModel.whitenRows ⟨sigmas.toArray⟩ a = .ok ⟨a.rows, a.cols, w⟩ ∧
      (∀ i j, w i j = a.body i j / sigmas[i]) ∧
      a.weightedReduce sigmas.toArray count zeroTol rankTol = .ok s ∧
      Mat.triangularize ⟨a.rows, a.cols, w⟩ count = .ok e ∧ e.Matches s := by
  obtain ⟨w, hwhiten, hw⟩ := exists_whitenRows a fun i => (hs i).ne'
  have hweighted : a.weightedReduce sigmas.toArray count zeroTol rankTol =
      .ok (weightedReduce a.body (fun i => sigmas[i]) count zeroTol rankTol) := by
    simp [Mat.weightedReduce, Vec.sized, require, hn]
  exact ⟨w, _, _, hwhiten, hw, hweighted, if_pos hn, matches_triangularize hd hs hz hr hn hw⟩

-- Two columns of ones. The first one explains all of the second one.
theorem decisive_of_ones {a : Dense ℝ m n} {sigmas : Fin m → ℝ}
    (ha : ∀ i (j : Fin n), j.val < 2 → a i j = 1) (hs : ∀ i, 0 < sigmas i)
    (hp : 1 ≤ Pseudoinverse.precisionOf (fun _ => 1) sigmas) :
    WeightedReduction.Decisive a sigmas 2 1 1 := by
  intro col hc hl
  cases hcol : col.val
  case zero =>
    rw [WeightedReduction.before, foldWhere_lt_zero]
    simp only [ha _ col hc]
    exact Pseudoinverse.decisive_of_soft hs (fun i => .inr (by simp)) (.inr hp)
  case succ c =>
    obtain rfl : c = 0 := by omega
    have h0 : 0 < n := (Nat.zero_le _).trans_lt col.isLt
    have hm : 0 < min m 2 := (Nat.zero_le _).trans_lt hl
    have hlt : (⟨0, h0⟩ : Fin n) < col := Fin.lt_def.mpr (hcol ▸ Nat.one_pos)
    have hcolumn : (fun i => a i ⟨0, h0⟩) = fun _ => 1 := funext fun i => ha i _ two_pos
    -- The noisy rows solve for the first column, which leaves nothing of the second one.
    have hsolve : WeightedReduction.before a sigmas 2 1 1 1 =
        WeightedReduction.solve ⟨a, []⟩ ⟨0, h0⟩ (.noisy (fun _ => 1) sigmas) := by
      rw [WeightedReduction.before, foldWhere_lt_succ _ _ h0, foldWhere_lt_zero,
        WeightedReduction.step_eq]
      simp only [List.length_nil, hm, if_true, hcolumn,
        Pseudoinverse.ofColumn_soft hs fun _ => .inr abs_one.ge, if_neg hp.not_gt]
      exact if_neg (by simpa [Pseudoinverse.noisy, Precision.below] using hp)
    have hsum : ∑ i : Fin m, (Pseudoinverse.noisy (fun _ => 1) sigmas).weights[i] * a i col =
        1 := by
      have hq : ∑ i, (1 : ℝ) * NoiseModel.weightOf (sigmas i) ^ 2 * 1 =
          Pseudoinverse.precisionOf (fun _ => 1) sigmas := by
        simp [Pseudoinverse.precisionOf]
      rw [Pseudoinverse.sum_noisy]
      simp only [ha _ col hc, hq]
      exact div_self (one_pos.trans_le hp).ne'
    have hzero : ∀ i, (WeightedReduction.before a sigmas 2 1 1 1).body i col = 0 := by
      intro i
      simp only [hsolve, WeightedReduction.solve, Dense.get_ofFn, hlt, if_true, hsum, ha i _ hc,
        ha i ⟨0, h0⟩ two_pos]
      ring
    rw [Nat.zero_add]
    simp only [hzero]
    exact Pseudoinverse.decisive_of_soft hs (fun i => .inl rfl)
      (.inl (by simp [Pseudoinverse.precisionOf]))

theorem matches_weightedReduce_repeated :
    (∀ i : Fin 2, 0 < (#v[1, 1 / 2] : Vector ℝ 2)[i]) ∧
      WeightedReduction.Decisive repeated.body (fun i => (#v[1, 1 / 2] : Vector ℝ 2)[i]) 2 1 1 ∧
      ∃ w s e, NoiseModel.whitenRows ⟨#[1, 1 / 2]⟩ repeated = .ok ⟨2, 3, w⟩ ∧
        (∀ i j, w i j = repeated.body i j / (#v[1, 1 / 2] : Vector ℝ 2)[i]) ∧
        repeated.weightedReduce #[1, 1 / 2] 2 1 1 = .ok s ∧ Mat.triangularize ⟨2, 3, w⟩ 2 = .ok e ∧
          e.Matches s := by
  have hs : ∀ i : Fin 2, 0 < (#v[1, 1 / 2] : Vector ℝ 2)[i] := by
    intro i
    fin_cases i <;> simp
  have hp : 1 ≤ Pseudoinverse.precisionOf (fun _ => 1) fun i : Fin 2 =>
      (#v[1, 1 / 2] : Vector ℝ 2)[i] := by
    simp [Pseudoinverse.precisionOf, Fin.sum_univ_two, weightOf_eq]
  have hd : WeightedReduction.Decisive repeated.body (fun i => (#v[1, 1 / 2] : Vector ℝ 2)[i])
      2 1 1 :=
    decisive_of_ones (fun i j hj => (Dense.get_ofFn _ i j).trans (if_pos hj)) hs hp
  exact ⟨hs, hd, matches_weightedReduce repeated #v[1, 1 / 2] (by decide) hs one_pos one_pos hd⟩

end LinearGaussian
