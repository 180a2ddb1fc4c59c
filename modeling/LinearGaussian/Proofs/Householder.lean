import LinearGaussian.Proofs.Dense
import LinearGaussian.Proofs.PivotRow
import LinearGaussian.Reduction.Householder

namespace LinearGaussian

open Matrix

variable {m n : Nat}

namespace Reflection

variable {r : Reflection ℝ m} {row : Fin m} {x : Fin m → ℝ}

def direction (r : Reflection ℝ m) (i : Fin m) : ℝ :=
  if i < r.row then 0 else if i = r.row then 1 else r.tail[i]

noncomputable def reflect (r : Reflection ℝ m) (y : Fin m → ℝ) : Fin m → ℝ :=
  y - r.weight y • r.direction

theorem direction_dotProduct (r : Reflection ℝ m) (y : Fin m → ℝ) :
    r.direction ⬝ᵥ y = y r.row + ∑ i with r.row < i, r.tail[i] * y i := by
  have hs : y r.row = ∑ i, if i = r.row then y i else 0 := by simp
  rw [hs, Finset.sum_filter, ← Finset.sum_add_distrib]
  apply Finset.sum_congr rfl
  intro i _
  rcases lt_trichotomy i r.row with h | h | h
  case inl => simp [direction, h, h.ne, h.not_gt]
  case inr.inl => simp [direction, h]
  case inr.inr => simp [direction, h, h.ne', h.not_gt]

theorem weight_eq (r : Reflection ℝ m) (y : Fin m → ℝ) :
    r.weight y = r.tau * (r.direction ⬝ᵥ y) := by
  rw [direction_dotProduct, mul_comm]
  unfold weight
  rw [foldWhere_add]
  simp

theorem reflect_dotProduct (h : r.tau * (r.direction ⬝ᵥ r.direction) = 2) (y z : Fin m → ℝ) :
    r.reflect y ⬝ᵥ r.reflect z = y ⬝ᵥ z := by
  simp only [reflect, weight_eq, sub_dotProduct, dotProduct_sub, smul_dotProduct, dotProduct_smul,
    smul_eq_mul, dotProduct_comm y r.direction]
  linear_combination r.tau * (r.direction ⬝ᵥ y) * (r.direction ⬝ᵥ z) * h

theorem reflect_eq_self (h : ∀ i, r.row ≤ i → x i = 0) : r.reflect x = x := by
  have hw : r.direction ⬝ᵥ x = 0 := by
    rw [direction_dotProduct, h _ (le_refl _), zero_add]
    apply Finset.sum_eq_zero
    intro i hi
    rw [h i (Finset.mem_filter.mp hi).right.le, mul_zero]
  simp [reflect, weight_eq, hw]

def normSqFrom (row : Fin m) (x : Fin m → ℝ) : ℝ :=
  ∑ i with row ≤ i, x i * x i

theorem normSqFrom_eq (row : Fin m) (x : Fin m → ℝ) :
    normSqFrom row x = x row * x row + ∑ i with row < i, x i * x i := by
  have hi : (Finset.univ.filter (row ≤ ·)) = insert row (Finset.univ.filter (row < ·)) := by
    ext i
    simp [le_iff_eq_or_lt, eq_comm]
  rw [normSqFrom, hi, Finset.sum_insert (by simp)]

theorem ofColumn?_eq (row : Fin m) (x : Fin m → ℝ) :
    ofColumn? row x = if normSqFrom row x = 0 then none else
      let sigma := if x row < 0 then -√(normSqFrom row x) else √(normSqFrom row x)
      some ⟨row, sigma, (x row + sigma) / sigma, Vector.ofFn fun i => x i / (x row + sigma)⟩ := by
  have hn : foldWhere (row ≤ ·) (fun s i => s + x i * x i) 0 = normSqFrom row x := by
    simp [foldWhere_add, normSqFrom]
  unfold ofColumn?
  rw [hn]
  simp only [beq_iff_eq]
  rfl

theorem ofColumn?_eq_none (h : ofColumn? row x = none) {i : Fin m} (hi : row ≤ i) : x i = 0 := by
  have h0 : normSqFrom row x = 0 := by
    rw [ofColumn?_eq] at h
    by_contra hn
    simp [hn] at h
  have hs :=
    (Finset.sum_eq_zero_iff_of_nonneg fun i _ => mul_self_nonneg (x i)).mp h0 i (by simp [hi])
  exact mul_self_eq_zero.mp hs

-- What makes the reflection of a column: it keeps lengths, and leaves of the column nothing below
-- the pivot row.
structure Clears (r : Reflection ℝ m) (row : Fin m) (x : Fin m → ℝ) : Prop where
  row_eq : r.row = row
  sigma_ne : r.sigma ≠ 0
  isometry : r.tau * (r.direction ⬝ᵥ r.direction) = 2
  image : ∀ i, r.reflect x i = if i < row then x i else if i = row then -r.sigma else 0

-- The length of the column with the sign of the pivot does not cancel when it is added to the
-- pivot.
theorem clears_of_sigma {sigma : ℝ} (hs : sigma ≠ 0) (hl : x row + sigma ≠ 0)
    (hn : sigma * sigma = normSqFrom row x) :
    Clears ⟨row, sigma, (x row + sigma) / sigma,
      Vector.ofFn fun i => x i / (x row + sigma)⟩ row x := by
  have ht : ∑ i with row < i, x i * x i = sigma * sigma - x row * x row := by
    rw [hn, normSqFrom_eq, add_sub_cancel_left]
  constructor
  case row_eq => rfl
  case sigma_ne => exact hs
  case isometry =>
    have hd : ∀ i ∈ Finset.univ.filter (row < ·), x i / (x row + sigma) *
        direction ⟨row, sigma, (x row + sigma) / sigma,
          Vector.ofFn fun i => x i / (x row + sigma)⟩ i =
        x i * x i / ((x row + sigma) * (x row + sigma)) := by
      intro i hi
      have hi := (Finset.mem_filter.mp hi).right
      simp [direction, hi.not_gt, hi.ne', div_mul_div_comm]
    simp only [direction_dotProduct, getElem_fin, Vector.getElem_ofFn, Fin.eta]
    rw [Finset.sum_congr rfl hd, ← Finset.sum_div, ht]
    simp only [direction, lt_irrefl, if_false, if_true]
    field_simp
    ring
  case image =>
    intro i
    have hw : x row + ∑ i with row < i, x i / (x row + sigma) * x i = sigma := by
      simp only [div_mul_eq_mul_div, ← Finset.sum_div, ht]
      field_simp
      ring
    rw [reflect, weight_eq, direction_dotProduct]
    simp only [getElem_fin, Vector.getElem_ofFn, Fin.eta, hw, div_mul_cancel₀ _ hs]
    rcases lt_trichotomy i row with h | h | h
    case inl => simp [direction, h]
    case inr.inl => simp [direction, h]
    case inr.inr => simp [direction, h.not_gt, h.ne', mul_div_cancel₀ _ hl]

theorem ofColumn?_eq_some (h : ofColumn? row x = some r) : r.Clears row x := by
  rw [ofColumn?_eq] at h
  split at h
  case isTrue => contradiction
  case isFalse hn =>
    cases h
    have h0 : 0 < normSqFrom row x :=
      lt_of_le_of_ne (Finset.sum_nonneg fun i _ => mul_self_nonneg (x i)) (Ne.symm hn)
    have hr := Real.sqrt_pos.mpr h0
    have hm := Real.mul_self_sqrt h0.le
    split
    case isTrue hx => exact clears_of_sigma (by linarith) (by linarith) (by linarith)
    case isFalse hx => exact clears_of_sigma (by linarith) (by linarith) (by linarith)

theorem apply_eq_self {col : Fin n} (a : Dense ℝ m n) {i : Fin m} {j : Fin n}
    (h : i < r.row ∨ j < col) :
    r.apply col a i j = a i j := by
  simp only [apply, Dense.get_ofFn, h, if_true]

theorem apply_eq {col : Fin n} {a : Dense ℝ m n} (hc : r.Clears row fun i => a i col)
    (hz : ∀ i, row ≤ i → ∀ j < col, a i j = 0) (i : Fin m) (j : Fin n) :
    r.apply col a i j = r.reflect (fun i => a i j) i := by
  have hr := hc.row_eq
  simp only [apply, Dense.get_ofFn, getElem_fin, Vector.getElem_ofFn, Fin.eta]
  rcases lt_trichotomy j col with h | h | h
  case inl =>
    have hx := reflect_eq_self fun i hi => hz i (hr ▸ hi) j h
    simp [h, hx]
  case inr.inl =>
    subst h
    rw [hc.image]
    simp [hr]
  case inr.inr =>
    rcases lt_trichotomy i row with hi | hi | hi
    case inl => simp [reflect, direction, hr, hi]
    case inr.inl => simp [reflect, direction, hr, hi, h.not_gt, h.ne']
    case inr.inr => simp [reflect, direction, hr, hi.not_gt, hi.ne', h.not_gt, h.ne']

end Reflection

namespace Echelon

-- The first `c` columns of `a` have been dealt with.
structure Reduced (e : Echelon ℝ m n) (a : Dense ℝ m n) (c : Nat) : Prop where
  gram  : ∀ j k, ∑ i, e.body i j * e.body i k = ∑ i, a i j * a i k
  lt    : ∀ p ∈ e.pivots, p.val < c
  mono  : e.pivots.Pairwise (· < ·)
  left  : ∀ i p, e.pivots[i.val]? = some p → ∀ j < p, e.body i j = 0
  pivot : ∀ i p, e.pivots[i.val]? = some p → e.body i p ≠ 0
  below : ∀ i, e.pivots.length ≤ i.val → ∀ j, j.val < c → e.body i j = 0

namespace Reduced

variable {a : Dense ℝ m n} {e : Echelon ℝ m n} {c : Nat}

theorem init (a : Dense ℝ m n) : Reduced ⟨a, []⟩ a 0 := by
  constructor <;> simp

theorem skip (h : Reduced e a c) {col : Fin n} (hc : col.val = c)
    (hz : ∀ i, e.pivots.length ≤ i.val → e.body i col = 0) : Reduced e a (c + 1) where
  gram := h.gram
  lt p hp := Nat.lt_succ_of_lt (h.lt p hp)
  mono := h.mono
  left := h.left
  pivot := h.pivot
  below i hi j hj := by
    by_cases he : j.val = c
    case pos => exact (Fin.ext (he.trans hc.symm) : j = col) ▸ hz i hi
    case neg => exact h.below i hi j (by omega)

theorem getElem?_snoc {ps : List (Fin n)} {col : Fin n} {row : Fin m} (hr : row.val = ps.length)
    {i : Fin m} {p : Fin n} (h : (ps ++ [col])[i.val]? = some p) :
    i < row ∧ ps[i.val]? = some p ∨ i = row ∧ p = col := by
  rw [List.getElem?_append] at h
  split at h
  case isTrue hi => exact .inl ⟨Fin.lt_def.mpr (hr ▸ hi), h⟩
  case isFalse hi =>
    have ⟨hi', hp⟩ := List.getElem?_eq_some_iff.mp h
    simp only [List.getElem_singleton] at hp
    rw [List.length_singleton] at hi'
    exact .inr ⟨by omega, hp.symm⟩

theorem reflect (h : Reduced e a c) {col : Fin n} (hc : col.val = c) {row : Fin m}
    (hr : row.val = e.pivots.length) {r : Reflection ℝ m}
    (hx : r.Clears row fun i => e.body i col) :
    Reduced ⟨r.apply col e.body, e.pivots ++ [col]⟩ a (c + 1) := by
  have hz : ∀ i, row ≤ i → ∀ j < col, e.body i j = 0 :=
    fun i hi j hj => h.below i (hr ▸ hi) j (hc ▸ hj)
  have ha := Reflection.apply_eq hx hz
  -- Finished rows and columns are outside of the part that is reflected.
  have hk : ∀ i j, i < row ∨ j < col → r.apply col e.body i j = e.body i j :=
    fun i j hij => Reflection.apply_eq_self e.body (hx.row_eq ▸ hij)
  have hs : Ascending (e.pivots ++ [col]) (c + 1) := hc ▸ (Ascending.mk (hc ▸ h.lt) h.mono).snoc
  constructor
  case gram =>
    intro j k
    simp only [ha]
    exact (Reflection.reflect_dotProduct hx.isometry _ _).trans (h.gram j k)
  case lt => exact hs.lt
  case mono => exact hs.mono
  case left =>
    intro i p hp j hj
    cases getElem?_snoc hr hp
    case inl hp => rw [hk i j (.inl hp.left), h.left i p hp.right j hj]
    case inr hp =>
      rw [hp.right] at hj
      rw [hk i j (.inr hj), hz i hp.left.ge j hj]
  case pivot =>
    intro i p hp
    cases getElem?_snoc hr hp
    case inl hp =>
      rw [hk i p (.inl hp.left)]
      exact h.pivot i p hp.right
    case inr hp =>
      rw [hp.right, ha, hx.image, hp.left]
      simpa using hx.sigma_ne
  case below =>
    intro i hi j hj
    have hi : row < i := by
      rw [List.length_append, List.length_singleton] at hi
      omega
    by_cases he : j = col
    case pos => simp [ha, he, hx.image, hi.not_gt, hi.ne']
    case neg =>
      have hj : j < col := by omega
      rw [hk i j (.inr hj), hz i hi.le j hj]

theorem step (h : Reduced e a c) {col : Fin n} (hc : col.val = c) :
    Reduced (e.step col) a (c + 1) := by
  unfold Echelon.step
  split
  case isTrue hm =>
    split
    case h_1 hx => exact h.skip hc fun i hi => Reflection.ofColumn?_eq_none hx hi
    case h_2 r hx => exact h.reflect hc rfl (Reflection.ofColumn?_eq_some hx)
  case isFalse hm => exact h.skip hc fun i hi => absurd i.isLt (by omega)

theorem exists_sign (h : Reduced e a c) (i : Fin m) :
    ∃ s : ℝ, s * s = 1 ∧ (∀ j, e.makePositive.body i j = s * e.body i j) ∧
      ∀ p, e.pivots[i.val]? = some p → 0 < s * e.body i p := by
  cases hp : e.pivots[i.val]?
  case none => exact ⟨1, by simp [Echelon.makePositive, hp]⟩
  case some p =>
    have hl := h.left i p hp
    have hne := h.pivot i p hp
    by_cases hn : e.body i p < 0
    case pos =>
      refine ⟨-1, by norm_num, fun j => ?_, by simpa using hn⟩
      by_cases hj : p ≤ j
      case pos => simp [Echelon.makePositive, hp, hn, hj]
      case neg => simp [Echelon.makePositive, hp, hj, hl j (not_le.mp hj)]
    case neg =>
      refine ⟨1, by norm_num, fun j => by simp [Echelon.makePositive, hp, hn], ?_⟩
      intro q hq
      cases hq
      simpa using lt_of_le_of_ne (not_lt.mp hn) (Ne.symm hne)

theorem makePositive (h : Reduced e a c) :
    Reduced e.makePositive a c ∧ ∀ i p, e.pivots[i.val]? = some p →
      0 < e.makePositive.body i p := by
  -- Every row is multiplied by one or by minus one.
  choose s hs hb hp using h.exists_sign
  constructor
  case left =>
    constructor
    case gram =>
      intro j k
      rw [← h.gram j k]
      apply Finset.sum_congr rfl
      intro i _
      rw [hb, hb]
      linear_combination e.body i j * e.body i k * hs i
    case lt => exact h.lt
    case mono => exact h.mono
    case left =>
      intro i p hi j hj
      rw [hb, h.left i p hi j hj, mul_zero]
    case pivot =>
      intro i p hi
      rw [hb]
      exact (hp i p hi).ne'
    case below =>
      intro i hi j hj
      rw [hb, h.below i hi j hj, mul_zero]
  case right =>
    intro i p hi
    rw [hb]
    exact hp i p hi

theorem foldWhere (a : Dense ℝ m n) {count : Nat} (h : count ≤ n) :
    Reduced (LinearGaussian.foldWhere (fun col => col.val < count) Echelon.step ⟨a,
      []⟩) a count := by
  induction count
  case zero =>
    rw [foldWhere_lt_zero]
    exact init a
  case succ c ih =>
    rw [foldWhere_lt_succ _ _ h]
    exact (ih (by omega)).step rfl

end Reduced
end Echelon

theorem triangularize_reduced (a : Dense ℝ m n) {count : Nat} (h : count ≤ n) :
    (triangularize a count).Reduced a count :=
  (Echelon.Reduced.foldWhere a h).makePositive.left

theorem triangularize_pos (a : Dense ℝ m n) {count : Nat} (h : count ≤ n) {i : Fin m} {p : Fin n}
    (hp : (triangularize a count).pivots[i.val]? = some p) : 0 < (triangularize a count).body i p :=
  (Echelon.Reduced.foldWhere a h).makePositive.right i p hp

namespace Echelon

open PivotRow

variable {e : Echelon ℝ m n}

theorem getElem_rows {k : Nat} (hk : k < e.rows.length) :
    ∃ (hp : k < e.pivots.length) (hm : k < m),
      e.rows[k] = ⟨e.pivots[k], Vector.ofFn (e.body ⟨k, hm⟩), 1⟩ := by
  have hl : k < min e.pivots.length m := by simpa [rows] using hk
  refine ⟨by omega, by omega, ?_⟩
  simp [rows]

theorem map_rows {β : Type} {f : PivotRow ℝ n → β} {g : Fin m → β}
    (h : ∀ p i, f ⟨p, Vector.ofFn (e.body i), 1⟩ = g i) :
    e.rows.map f = ((List.finRange m).take e.pivots.length).map g := by
  apply List.ext_getElem
  case hl => simp [rows]
  case h =>
    intro k hk _
    rw [List.length_map] at hk
    obtain ⟨_, _, he⟩ := getElem_rows hk
    simp [he, h]

theorem exists_of_mem_rows {row : PivotRow ℝ n} (h : row ∈ e.rows) :
    ∃ (i : Fin m) (p : Fin n), e.pivots[i.val]? = some p ∧
      row = ⟨p, Vector.ofFn (e.body i), 1⟩ := by
  obtain ⟨k, hk, rfl⟩ := List.mem_iff_getElem.mp h
  obtain ⟨hp, hm, he⟩ := getElem_rows hk
  exact ⟨⟨k, hm⟩, e.pivots[k], List.getElem?_eq_getElem hp, he⟩

theorem Reduced.staircase {a : Dense ℝ m n} {c : Nat} (h : Reduced e a c) : Staircase e.rows c := by
  constructor
  case lt =>
    intro row hr
    obtain ⟨i, p, hp, rfl⟩ := exists_of_mem_rows hr
    exact h.lt p (List.mem_of_getElem? hp)
  case mono =>
    refine List.pairwise_iff_getElem.mpr fun i j hi hj hij => ?_
    obtain ⟨hpi, _, hi⟩ := getElem_rows hi
    obtain ⟨hpj, _, hj⟩ := getElem_rows hj
    rw [hi, hj]
    exact List.pairwise_iff_getElem.mp h.mono i j hpi hpj hij
  case left =>
    intro row hr j hj
    obtain ⟨i, p, hp, rfl⟩ := exists_of_mem_rows hr
    simpa using h.left i p hp j hj
  case unit =>
    intro row hr
    obtain ⟨i, p, _, rfl⟩ := exists_of_mem_rows hr
    exact .inr rfl

end Echelon

theorem pos_triangularize (a : Dense ℝ m n) {count : Nat} (h : count ≤ n) {row : PivotRow ℝ n}
    (hr : row ∈ (triangularize a count).rows) : 0 < row.values[row.pivot] := by
  obtain ⟨i, p, hp, rfl⟩ := Echelon.exists_of_mem_rows hr
  simpa using triangularize_pos a h hp

theorem sum_sq_eq_gram (a : Dense ℝ m n) (z : Fin n → ℝ) :
    ∑ i, (∑ j, a i j * z j) ^ 2 = ∑ j, ∑ k, (∑ i, a i j * a i k) * (z j * z k) := by
  simp only [sq, Finset.sum_mul]
  rw [Finset.sum_comm]
  apply Finset.sum_congr rfl
  intro j _
  simp only [Finset.mul_sum]
  rw [Finset.sum_comm]
  simp only [mul_mul_mul_comm]

-- As a whole, the rows say the same about every vector as before.
theorem sum_sq_triangularize (a : Dense ℝ m n) {count : Nat} (h : count ≤ n) (z : Fin n → ℝ) :
    ∑ i, (∑ j, (triangularize a count).body i j * z j) ^ 2 = ∑ i, (∑ j, a i j * z j) ^ 2 := by
  simp only [sum_sq_eq_gram, (triangularize_reduced a h).gram]

end LinearGaussian
