import LinearGaussian.Proofs.Dense
import LinearGaussian.Proofs.PivotRow

namespace LinearGaussian

open Measurement Module

variable {m n : Nat}

section Split

variable {P : Type} {sigmas a : Fin m → ℝ} {residuals rest : Fin m → P → ℝ} {common : P → ℝ}

theorem reduces_of_hard (h : ∀ i p, residuals i p = a i * common p + rest i p) {row : Fin m}
    (hs : sigmas row = 0) (ha : a row ≠ 0) (hr : ∀ p, rest row p = 0) :
    Reduces (ofRows sigmas residuals) (⟨0, common⟩ :: ofRows sigmas rest) := by
  have hc : ∀ {p}, Feasible (ofRows sigmas residuals) p → common p = 0 := by
    intro p hp
    have hp := feasible_ofRows.mp hp row hs
    rw [h, hr, add_zero] at hp
    exact (mul_eq_zero.mp hp).resolve_left ha
  have he : ∀ {p}, common p = 0 → (∀ i, residuals i p = rest i p) := by
    intro p hp i
    rw [h, hp, mul_zero, zero_add]
  intro _
  constructor
  case feasible =>
    intro p
    simp only [feasible_cons, true_imp_iff]
    constructor
    case mp =>
      intro hp
      refine ⟨hc hp, feasible_ofRows.mpr fun i hi => ?_⟩
      rw [← he $ hc hp]
      exact feasible_ofRows.mp hp i hi
    case mpr =>
      rintro ⟨h0, hp⟩
      refine feasible_ofRows.mpr fun i hi => ?_
      rw [he h0]
      exact feasible_ofRows.mp hp i hi
  case cost =>
    refine ⟨0, le_refl _, fun p hp => ?_⟩
    simp [totalCost_ofRows, he (hc hp), cost, hc hp]

-- Noisy rows split into the common part and the rest, if these are orthogonal.
theorem reduces_of_noisy (h : ∀ i p, residuals i p = a i * common p + rest i p)
    (hs : ∀ i, sigmas i = 0 → a i = 0)
    (ho : ∀ p, ∑ i, a i * NoiseModel.weightOf (sigmas i) ^ 2 * rest i p = 0) :
    Reduces (ofRows sigmas residuals)
      (⟨1, fun p => common p * √(∑ i, (a i * NoiseModel.weightOf (sigmas i)) ^ 2)⟩ ::
        ofRows sigmas rest) := by
  apply Reduces.of_eq
  case hf =>
    intro p
    simp only [feasible_cons, one_ne_zero, false_imp_iff, true_and, feasible_ofRows]
    refine forall₂_congr fun i hi => ?_
    rw [h, hs i hi, zero_mul, zero_add]
  case hc =>
    intro p
    have hq : 0 ≤ ∑ i, (a i * NoiseModel.weightOf (sigmas i)) ^ 2 :=
      Finset.sum_nonneg fun i _ => sq_nonneg _
    have hx : ∀ i, 1 / 2 * (residuals i p * NoiseModel.weightOf (sigmas i)) ^ 2 =
        1 / 2 * common p ^ 2 * (a i * NoiseModel.weightOf (sigmas i)) ^ 2 +
          common p * (a i * NoiseModel.weightOf (sigmas i) ^ 2 * rest i p) +
          1 / 2 * (rest i p * NoiseModel.weightOf (sigmas i)) ^ 2 := by
      intro i
      rw [h]
      ring
    have h1 : NoiseModel.weightOf (1 : ℝ) = 1 := by simp [weightOf_eq]
    rw [totalCost_cons, totalCost_ofRows, totalCost_ofRows, Finset.sum_congr rfl fun i _ => hx i]
    rw [Finset.sum_add_distrib, Finset.sum_add_distrib, ← Finset.mul_sum, ← Finset.mul_sum, ho p]
    simp only [cost, h1, mul_one, mul_zero, add_zero, mul_pow (common p), Real.sq_sqrt hq,
      mul_assoc]

end Split

namespace Pseudoinverse

variable {a sigmas : Fin m → ℝ} {zeroTol rankTol : ℝ}

-- The tolerances round nothing away: what is compared with them and is smaller is zero. A
-- coefficient is compared only as long as no hard constraint has been chosen, and a precision is
-- computed only if none is chosen at all.
structure Decisive (a sigmas : Fin m → ℝ) (zeroTol rankTol : ℝ) : Prop where
  hard      : ∀ i, sigmas i = 0 → (∀ k < i, sigmas k = 0 → |a k| < zeroTol) → a i = 0 ∨
    zeroTol ≤ |a i|
  noisy     : (∀ k, sigmas k = 0 → |a k| < zeroTol) → ∀ i, 0 < sigmas i → a i = 0 ∨ zeroTol ≤ |a i|
  precision : ∀ p, (ofColumn a sigmas zeroTol rankTol).precision = .finite p → p = 0 ∨ rankTol ≤ p

theorem decisive_of_first {row : Fin m} (h0 : ∀ i, row ≤ i) (hs : sigmas row = 0)
    (ha : zeroTol ≤ |a row|) :
    Decisive a sigmas zeroTol rankTol := by
  constructor
  case hard =>
    intro i hi hk
    cases (h0 i).eq_or_lt
    case inl he => exact .inr (he ▸ ha)
    case inr hlt => exact absurd (hk row hlt hs) ha.not_gt
  case noisy =>
    intro hb
    exact absurd (hb row hs) ha.not_gt
  case precision =>
    intro p hp
    unfold ofColumn at hp
    cases hf : (List.finRange m).find? fun i => sigmas i == 0 && zeroTol ≤ RealLike.abs (a i)
    case none =>
      have hn := List.find?_eq_none.mp hf row (List.mem_finRange row)
      simp [hs, ha] at hn
    case some i =>
      rw [hf] at hp
      contradiction

noncomputable def precisionOf (a sigmas : Fin m → ℝ) : ℝ :=
  ∑ i, (a i * NoiseModel.weightOf (sigmas i)) ^ 2

noncomputable def hard (a : Fin m → ℝ) (row : Fin m) : Pseudoinverse ℝ m :=
  ⟨.infinite, Vector.ofFn fun i => if i = row then 1 / a row else 0⟩

noncomputable def noisy (a sigmas : Fin m → ℝ) : Pseudoinverse ℝ m :=
  ⟨.finite (precisionOf a sigmas),
    Vector.ofFn fun i => a i * NoiseModel.weightOf (sigmas i) ^ 2 / precisionOf a sigmas⟩

theorem sum_hard (a v : Fin m → ℝ) (row : Fin m) :
    ∑ i : Fin m, (hard a row).weights[i] * v i = v row / a row := by
  simp [hard, div_eq_inv_mul]

theorem sum_noisy (a sigmas v : Fin m → ℝ) :
    ∑ i : Fin m, (noisy a sigmas).weights[i] * v i =
      (∑ i, a i * NoiseModel.weightOf (sigmas i) ^ 2 * v i) / precisionOf a sigmas := by
  simp [noisy, Finset.sum_div, div_mul_eq_mul_div]

theorem eq_zero_of_precisionOf (h : precisionOf a sigmas = 0) (i : Fin m) : a i = 0 := by
  have hi := (Finset.sum_eq_zero_iff_of_nonneg fun i _ => sq_nonneg _).mp h i (Finset.mem_univ i)
  have hw : NoiseModel.weightOf (sigmas i) ≠ 0 := by
    rw [weightOf_eq]
    split <;> simp_all
  exact (mul_eq_zero.mp $ pow_eq_zero_iff two_ne_zero |>.mp hi).resolve_right hw

theorem ofColumn_noisy (hs : ∀ i, 0 ≤ sigmas i) (hz : ∀ i, sigmas i = 0 → a i = 0)
    (hn : ∀ i, 0 < sigmas i → a i = 0 ∨ zeroTol ≤ |a i|) (hb : ∀ i, sigmas i = 0 → |a i| < zeroTol)
    (rankTol : ℝ) :
    ofColumn a sigmas zeroTol rankTol =
      if precisionOf a sigmas < rankTol then
        ⟨.finite (precisionOf a sigmas), Vector.ofFn fun _ => 0⟩
      else noisy a sigmas := by
  -- Without a usable hard constraint, the noisy rows are combined. Those that are left out have no
  -- coefficient.
  have hr : (List.finRange m).find? (fun i => sigmas i == 0 && zeroTol ≤ RealLike.abs (a i)) =
      none := by
    simpa [List.find?_eq_none] using hb
  have hw : ∀ i, (0 < sigmas i ∧ zeroTol ≤ |a i|) ∧ NoiseModel.weightOf (sigmas i) = 1 / sigmas i ∨
      a i = 0 := by
    intro i
    cases (hs i).eq_or_lt
    case inl hi => exact .inr (hz i hi.symm)
    case inr hi =>
      cases hn i hi
      case inl ha => exact .inr ha
      case inr ha => exact .inl ⟨⟨hi, ha⟩, by simp [weightOf_eq, hi.ne']⟩
  have hq : foldWhere (fun i => decide (0 < sigmas i) && decide (zeroTol ≤ RealLike.abs (a i)))
      (fun s i => s + a i * a i / (sigmas i * sigmas i)) 0 = precisionOf a sigmas := by
    rw [foldWhere_add, zero_add, Finset.sum_filter]
    apply Finset.sum_congr rfl
    intro i _
    cases hw i
    case inl hi =>
      rw [hi.right, mul_one_div, div_pow, sq, sq]
      simp [hi.left]
    case inr hi => simp [hi]
  have hk : ∀ i, (if decide (0 < sigmas i) && decide (zeroTol ≤ RealLike.abs (a i)) then
      a i / (sigmas i * sigmas i) / precisionOf a sigmas else 0) =
      a i * NoiseModel.weightOf (sigmas i) ^ 2 / precisionOf a sigmas := by
    intro i
    cases hw i
    case inl hi =>
      rw [hi.right]
      simp [hi.left, sq, div_eq_mul_inv]
    case inr hi => simp [hi]
  unfold ofColumn noisy
  rw [hr]
  simp only [hq, hk]

-- A hard constraint solves for the column, or the column is zero in all of them. Then the noisy
-- rows solve for it, or it is zero in these as well.
theorem ofColumn_cases (hd : Decisive a sigmas zeroTol rankTol) (hs : ∀ i, 0 ≤ sigmas i)
    (hz : 0 < zeroTol) :
    (∃ row, sigmas row = 0 ∧ a row ≠ 0 ∧ ofColumn a sigmas zeroTol rankTol = hard a row) ∨
    ((∀ i, sigmas i = 0 → a i = 0) ∧ rankTol ≤ precisionOf a sigmas ∧
      ofColumn a sigmas zeroTol rankTol = noisy a sigmas) ∨
    ((∀ i, a i = 0) ∧ (ofColumn a sigmas zeroTol rankTol).precision.below rankTol = true) := by
  cases hf : (List.finRange m).find? fun i => sigmas i == 0 && zeroTol ≤ RealLike.abs (a i)
  case none =>
    have hb : ∀ i, sigmas i = 0 → |a i| < zeroTol := by simpa using List.find?_eq_none.mp hf
    have ha : ∀ i, sigmas i = 0 → a i = 0 := fun i hi =>
      (hd.hard i hi fun k _ => hb k).resolve_right (hb i hi).not_ge
    have he := ofColumn_noisy hs ha (hd.noisy hb) hb rankTol
    by_cases hp : precisionOf a sigmas < rankTol
    case pos =>
      rw [if_pos hp] at he
      have h0 := (hd.precision (precisionOf a sigmas) (by rw [he])).resolve_right hp.not_ge
      exact .inr $ .inr ⟨eq_zero_of_precisionOf h0, by simp [he, Precision.below, hp]⟩
    case neg =>
      rw [if_neg hp] at he
      exact .inr $ .inl ⟨ha, not_lt.mp hp, he⟩
  case some row =>
    have hp := List.find?_some hf
    simp only [Bool.and_eq_true, beq_iff_eq, decide_eq_true_eq, realLike_abs] at hp
    refine .inl ⟨row, hp.left, abs_pos.mp (hz.trans_le hp.right), ?_⟩
    unfold ofColumn hard
    rw [hf]

end Pseudoinverse

namespace WeightedRow

section Scaled

variable {α : Type} [Arith α] [RealLike α] (row : WeightedRow α n)

@[simp]
theorem pivot_scaled : row.scaled.pivot = row.col := by
  unfold scaled
  split <;> rfl

theorem sigma_scaled : row.scaled.sigma = 0 ∨ row.scaled.sigma = 1 := by
  unfold scaled
  split <;> simp

end Scaled

variable (row : WeightedRow ℝ n)

theorem values_scaled {j : Fin n} (h : row.values[j] = 0) : row.scaled.values[j] = 0 := by
  unfold scaled
  split <;> simp_all

theorem measurement_scaled {row : WeightedRow ℝ n} {p : ℝ} (h : row.precision = .finite p) :
    row.scaled.measurement = ⟨1, fun z => (∑ k : Fin n, row.values[k] * z k) * √p⟩ := by
  simp [scaled, h, PivotRow.measurement, Finset.sum_mul, mul_right_comm]

end WeightedRow

namespace WeightedReduction

def tail (b : Dense ℝ m n) (c : Nat) (i : Fin m) (z : Fin n → ℝ) : ℝ :=
  ∑ k with c ≤ k.val, b i k * z k

theorem tail_eq (b : Dense ℝ m n) {col : Fin n} (i : Fin m) (z : Fin n → ℝ) :
    tail b col.val i z = b i col * z col + tail b (col.val + 1) i z := by
  have hk : (Finset.univ.filter fun k : Fin n => col.val ≤ k.val) =
      insert col (Finset.univ.filter fun k => col.val + 1 ≤ k.val) := by
    ext k
    simp only [Finset.mem_filter_univ, Finset.mem_insert, Fin.ext_iff]
    omega
  rw [tail, hk, Finset.sum_insert (by simp), tail]

noncomputable def combination (s : WeightedReduction ℝ m n) (col : Fin n) (p : Pseudoinverse ℝ m) :
    WeightedRow ℝ n where
  col := col
  values := Vector.ofFn fun k =>
    if k = col then 1 else if col < k then ∑ i : Fin m, p.weights[i] * s.body i k else 0
  precision := p.precision

noncomputable def solve (s : WeightedReduction ℝ m n) (col : Fin n) (p : Pseudoinverse ℝ m) :
    WeightedReduction ℝ m n where
  body := Dense.ofFn fun i k =>
    if col < k then s.body i k - s.body i col * ∑ i : Fin m, p.weights[i] * s.body i k
      else s.body i k
  rows := s.rows ++ [s.combination col p]

theorem step_eq (sigmas : Fin m → ℝ) (zeroTol rankTol : ℝ) (maxRank : Nat)
    (s : WeightedReduction ℝ m n) (col : Fin n) :
    s.step sigmas zeroTol rankTol maxRank col =
      if s.rows.length < maxRank then
        let p := Pseudoinverse.ofColumn (fun i => s.body i col) sigmas zeroTol rankTol
        if p.precision.below rankTol then s else s.solve col p
      else s := by
  unfold step solve combination
  simp only [dot_eq_sum]
  congr 4
  funext i k
  by_cases hk : col < k
  case pos =>
    simp only [getElem_fin, Vector.getElem_ofFn, Fin.eta, hk, hk.ne', if_true, if_false, true_and]
    -- Where the combination is zero, nothing would have been taken out.
    split
    case isTrue => rfl
    case isFalse h0 => simp_all
  case neg => simp [hk]

section Solve

variable (s : WeightedReduction ℝ m n) (col : Fin n) (p : Pseudoinverse ℝ m)

theorem sum_combination (z : Fin n → ℝ) :
    ∑ k : Fin n, (s.combination col p).values[k] * z k =
      z col + ∑ k with col.val + 1 ≤ k.val, (∑ i : Fin m, p.weights[i] * s.body i k) * z k := by
  have hz : z col = ∑ k, if k = col then z k else 0 := by simp
  rw [hz, Finset.sum_filter, ← Finset.sum_add_distrib]
  apply Finset.sum_congr rfl
  intro k _
  simp only [combination, getElem_fin, Vector.getElem_ofFn, Fin.eta, Nat.succ_le_iff, ← Fin.lt_def]
  rcases lt_trichotomy k col with h | h | h
  case inl => simp [h.ne, h.not_gt]
  case inr.inl => simp [h]
  case inr.inr => simp [h.ne', h]

theorem tail_solve (i : Fin m) (z : Fin n → ℝ) :
    tail s.body col.val i z = s.body i col * (∑ k : Fin n, (s.combination col p).values[k] * z k) +
      tail (s.solve col p).body (col.val + 1) i z := by
  have hk : ∀ k ∈ Finset.univ.filter fun k : Fin n => col.val + 1 ≤ k.val,
      (s.solve col p).body i k * z k =
        s.body i k * z k - s.body i col * ((∑ i : Fin m, p.weights[i] * s.body i k) * z k) := by
    intro k hk
    have hk : col < k := (Finset.mem_filter_univ k).mp hk
    simp only [solve, Dense.get_ofFn, hk, if_true]
    ring
  rw [tail_eq, tail, tail, Finset.sum_congr rfl hk, Finset.sum_sub_distrib, ← Finset.mul_sum,
    sum_combination]
  ring

variable {s col p}

theorem sum_solve (h : ∑ i : Fin m, p.weights[i] * s.body i col = 1) {k : Fin n} (hk : col < k) :
    ∑ i : Fin m, p.weights[i] * (s.solve col p).body i k = 0 := by
  simp only [solve, Dense.get_ofFn, hk, if_true, mul_sub, Finset.sum_sub_distrib, ← mul_assoc,
    ← Finset.sum_mul]
  rw [h, one_mul, sub_self]

theorem sum_tail_solve (h : ∑ i : Fin m, p.weights[i] * s.body i col = 1) (z : Fin n → ℝ) :
    ∑ i : Fin m, p.weights[i] * tail (s.solve col p).body (col.val + 1) i z = 0 := by
  simp only [tail, Finset.mul_sum]
  rw [Finset.sum_comm]
  apply Finset.sum_eq_zero
  intro k hk
  simp only [← mul_assoc, ← Finset.sum_mul]
  rw [sum_solve h ((Finset.mem_filter_univ k).mp hk), zero_mul]

end Solve

-- Whatever the tolerances are, a new row has its pivot in the column solved for and nothing left of
-- it.
theorem staircase_step {s : WeightedReduction ℝ m n} {col : Fin n}
    (h : PivotRow.Staircase (s.rows.map (·.scaled)) col.val) (sigmas : Fin m → ℝ)
    (zeroTol rankTol : ℝ) (maxRank : Nat) :
    PivotRow.Staircase ((s.step sigmas zeroTol rankTol maxRank col).rows.map (·.scaled))
      (col.val + 1) := by
  simp only [step_eq]
  split
  case isTrue =>
    split
    case isTrue => exact h.succ
    case isFalse =>
      simp only [solve, List.map_append, List.map_singleton]
      apply h.snoc
      case hp => rw [WeightedRow.pivot_scaled, combination]
      case hl =>
        intro j hj
        have hj : j < col := by rwa [WeightedRow.pivot_scaled] at hj
        apply WeightedRow.values_scaled
        simp [combination, hj.ne, hj.not_gt]
      case hs => exact WeightedRow.sigma_scaled _
  case isFalse => exact h.succ

structure Reduced (s : WeightedReduction ℝ m n) (a : Dense ℝ m n) (sigmas : Fin m → ℝ) (c : Nat) :
    Prop where
  reduces : Reduces (ofRows sigmas (tail a 0)) (s.rows.map (·.scaled.measurement) ++
    ofRows sigmas (tail s.body c))
  length_le : s.rows.length ≤ c
  -- Every row that was found has taken a dimension from what the later columns can be.
  room : ∃ K : Submodule ℝ (Fin m → ℝ), finrank ℝ K + s.rows.length ≤ m ∧
    ∀ k : Fin n, c ≤ k.val → (fun i => s.body i k) ∈ K

namespace Reduced

variable {a : Dense ℝ m n} {sigmas : Fin m → ℝ} {c : Nat} {s : WeightedReduction ℝ m n}

theorem init (a : Dense ℝ m n) (sigmas : Fin m → ℝ) : Reduced ⟨a, []⟩ a sigmas 0 where
  reduces := .refl
  length_le := Nat.zero_le _
  room := ⟨⊤, by simp, by simp⟩

theorem skip (h : Reduced s a sigmas c) {col : Fin n} (hc : col.val = c)
    (hz : ∀ i, s.body i col = 0) :
    Reduced s a sigmas (c + 1) := by
  constructor
  case reduces =>
    have ht : tail s.body (c + 1) = tail s.body c := by
      funext i z
      rw [← hc, tail_eq, hz, zero_mul, zero_add]
    rw [ht]
    exact h.reduces
  case length_le => exact Nat.le_succ_of_le h.length_le
  case room =>
    have ⟨K, hr, hk⟩ := h.room
    exact ⟨K, hr, fun k hc => hk k (by omega)⟩

theorem eq_zero_of_full (h : Reduced s a sigmas c) (hm : m ≤ s.rows.length) {col : Fin n}
    (hc : col.val = c) (i : Fin m) :
    s.body i col = 0 := by
  -- When there are as many rows as there were at first, nothing is left in any column.
  have ⟨K, hr, hk⟩ := h.room
  have hb : K = ⊥ := Submodule.finrank_eq_zero.mp (by omega)
  have h0 := hk col hc.ge
  rw [hb, Submodule.mem_bot] at h0
  exact congrFun h0 i

theorem solve (h : Reduced s a sigmas c) {col : Fin n} (hc : col.val = c) {p : Pseudoinverse ℝ m}
    (hw : ∑ i : Fin m, p.weights[i] * s.body i col = 1)
    (hr : Reduces (ofRows sigmas (tail s.body c))
      ((s.combination col p).scaled.measurement :: ofRows sigmas
        (tail (s.solve col p).body (c + 1)))) :
    Reduced (s.solve col p) a sigmas (c + 1) := by
  constructor
  case reduces => simpa [WeightedReduction.solve] using h.reduces.trans hr.append_left
  case length_le => simpa [WeightedReduction.solve] using h.length_le
  case room =>
    have ⟨K, hm, hk⟩ := h.room
    -- What is left of the columns lies in the kernel of the combination, which the column solved
    -- for does not.
    let φ : (Fin m → ℝ) →ₗ[ℝ] ℝ := ∑ i : Fin m, p.weights[i] • LinearMap.proj i
    have hφ : ∀ v, φ v = ∑ i : Fin m, p.weights[i] * v i := by simp [φ]
    have hlt : K ⊓ LinearMap.ker φ < K := by
      refine inf_le_left.lt_of_ne fun he => ?_
      have h0 := (Submodule.mem_inf.mp $ he.symm ▸ hk col hc.ge).right
      rw [LinearMap.mem_ker, hφ, hw] at h0
      exact one_ne_zero h0
    refine ⟨K ⊓ LinearMap.ker φ, ?_, fun k hck => ⟨?_, ?_⟩⟩
    case refine_1 =>
      have hf := Submodule.finrank_lt_finrank_of_lt hlt
      simp only [WeightedReduction.solve, List.length_append, List.length_singleton]
      omega
    case refine_2 =>
      have hlt : col < k := by omega
      have he : (fun i => (s.solve col p).body i k) =
          (fun i => s.body i k) - (∑ i : Fin m, p.weights[i] * s.body i k) • fun i =>
            s.body i col := by
        funext i
        simp [WeightedReduction.solve, hlt, mul_comm]
      rw [he]
      exact K.sub_mem (hk k (by omega)) (K.smul_mem _ (hk col hc.ge))
    case refine_3 =>
      rw [SetLike.mem_coe, LinearMap.mem_ker, hφ]
      exact sum_solve hw (by omega)

variable {zeroTol rankTol : ℝ} {col : Fin n}

theorem solve_hard (h : Reduced s a sigmas c) (hc : col.val = c) {row : Fin m} (hs : sigmas row = 0)
    (ha : s.body row col ≠ 0) :
    Reduced (s.solve col (.hard (fun i => s.body i col) row)) a sigmas (c + 1) := by
  have hw := Pseudoinverse.sum_hard (fun i => s.body i col) (fun i => s.body i col) row
  rw [div_self ha] at hw
  apply h.solve hc hw
  subst hc
  apply reduces_of_hard (s.tail_solve col _) hs ha
  intro z
  have h0 := sum_tail_solve hw z
  rw [Pseudoinverse.sum_hard] at h0
  exact (div_eq_zero_iff.mp h0).resolve_right ha

theorem solve_noisy (h : Reduced s a sigmas c) (hc : col.val = c)
    (hs : ∀ i, sigmas i = 0 → s.body i col = 0)
    (hp : Pseudoinverse.precisionOf (fun i => s.body i col) sigmas ≠ 0) :
    Reduced (s.solve col (.noisy (fun i => s.body i col) sigmas)) a sigmas (c + 1) := by
  have hw := Pseudoinverse.sum_noisy (fun i => s.body i col) sigmas (fun i => s.body i col)
  have hq : ∑ i, s.body i col * NoiseModel.weightOf (sigmas i) ^ 2 * s.body i col =
      Pseudoinverse.precisionOf (fun i => s.body i col) sigmas := by
    apply Finset.sum_congr rfl
    intro i _
    ring
  rw [hq, div_self hp] at hw
  apply h.solve hc hw
  subst hc
  rw [WeightedRow.measurement_scaled rfl]
  apply reduces_of_noisy (s.tail_solve col _) hs
  intro z
  have h0 := sum_tail_solve hw z
  rw [Pseudoinverse.sum_noisy] at h0
  exact (div_eq_zero_iff.mp h0).resolve_right hp

theorem step (h : Reduced s a sigmas c) (hc : col.val = c) (hs : ∀ i, 0 ≤ sigmas i)
    (hz : 0 < zeroTol) (hr : 0 < rankTol) {count : Nat} (hm : c < count)
    (hd : s.rows.length < min m count →
      Pseudoinverse.Decisive (fun i => s.body i col) sigmas zeroTol rankTol) :
    Reduced (s.step sigmas zeroTol rankTol (min m count) col) a sigmas (c + 1) := by
  rw [step_eq]
  split
  case isTrue hl =>
    rcases Pseudoinverse.ofColumn_cases (hd hl) hs hz with ⟨row, hs, ha, he⟩ | ⟨hs, hp,
      he⟩ | ⟨h0, hb⟩
    case inl =>
      rw [he]
      exact h.solve_hard hc hs ha
    case inr.inl =>
      rw [he]
      have hb : (Pseudoinverse.noisy (fun i => s.body i col) sigmas).precision.below rankTol =
          false := by
        simpa [Pseudoinverse.noisy, Precision.below] using hp
      simp only [hb]
      exact h.solve_noisy hc hs (hr.trans_le hp).ne'
    case inr.inr =>
      simp only [hb, if_true]
      exact h.skip hc h0
  case isFalse hl =>
    have hle := h.length_le
    exact h.skip hc $ h.eq_zero_of_full (by omega) hc

end Reduced

noncomputable def before (a : Dense ℝ m n) (sigmas : Fin m → ℝ) (count : Nat) (zeroTol rankTol : ℝ)
    (col : Nat) : WeightedReduction ℝ m n :=
  foldWhere (fun c => c.val < col) (step sigmas zeroTol rankTol (min m count)) ⟨a, []⟩

def Decisive (a : Dense ℝ m n) (sigmas : Fin m → ℝ) (count : Nat) (zeroTol rankTol : ℝ) : Prop :=
  ∀ col : Fin n, col.val < count →
    (before a sigmas count zeroTol rankTol col).rows.length < min m count →
    Pseudoinverse.Decisive (fun i => (before a sigmas count zeroTol rankTol col).body i col) sigmas
      zeroTol rankTol

variable {a : Dense ℝ m n} {sigmas : Fin m → ℝ} {count : Nat} {zeroTol rankTol : ℝ}

theorem staircase_before {c : Nat} (hc : c ≤ n) :
    PivotRow.Staircase ((before a sigmas count zeroTol rankTol c).rows.map (·.scaled)) c := by
  induction c
  case zero =>
    rw [before, foldWhere_lt_zero]
    exact .nil
  case succ c ih =>
    rw [before, foldWhere_lt_succ _ _ hc]
    have hs := ih (by omega)
    exact staircase_step (show PivotRow.Staircase _ (⟨c, hc⟩ : Fin n).val from hs) _ _ _ _

theorem reduced_before (hd : Decisive a sigmas count zeroTol rankTol) (hs : ∀ i, 0 ≤ sigmas i)
    (hz : 0 < zeroTol) (hr : 0 < rankTol) (hn : count ≤ n) {c : Nat} (hc : c ≤ count) :
    Reduced (before a sigmas count zeroTol rankTol c) a sigmas c := by
  induction c
  case zero =>
    rw [before, foldWhere_lt_zero]
    exact .init a sigmas
  case succ c ih =>
    have hlt : c < n := by omega
    rw [before, foldWhere_lt_succ _ _ hlt]
    exact (ih (by omega)).step rfl hs hz hr hc (hd ⟨c, hlt⟩ hc)

end WeightedReduction

theorem staircase_weightedReduce {a : Dense ℝ m n} {sigmas : Fin m → ℝ} {count : Nat}
    {zeroTol rankTol : ℝ} (hn : count ≤ n) :
    PivotRow.Staircase ((weightedReduce a sigmas count zeroTol rankTol).rows.map (·.scaled))
      count :=
  WeightedReduction.staircase_before hn

theorem weightedReduce_reduced {a : Dense ℝ m n} {sigmas : Fin m → ℝ} {count : Nat}
    {zeroTol rankTol : ℝ} (hd : WeightedReduction.Decisive a sigmas count zeroTol rankTol)
    (hs : ∀ i, 0 ≤ sigmas i) (hz : 0 < zeroTol) (hr : 0 < rankTol) (hn : count ≤ n) :
    (weightedReduce a sigmas count zeroTol rankTol).Reduced a sigmas count :=
  WeightedReduction.reduced_before hd hs hz hr hn (le_refl _)

end LinearGaussian
