import LinearGaussian.Proofs.Householder
import LinearGaussian.Proofs.Pivots

namespace LinearGaussian

open Matrix

variable {m n c : Nat}

def Dense.leading (a : Dense ℝ m n) (h : c ≤ n) : Matrix (Fin m) (Fin c) ℝ :=
  of fun i j => a i (Fin.castLE h j)

namespace Echelon

-- The triangular form of `a` in its first `c` columns. Row `i` has its pivot in the column
-- `pivots[i]`, and rows without a pivot are at the end.
structure IsFormOf (e : Echelon ℝ m n) (a : Dense ℝ m n) (h : c ≤ n) : Prop where
  ascending : Ascending e.pivots c
  length    : e.pivots.length ≤ m
  gram      : (e.body.leading le_rfl)ᵀ * e.body.leading le_rfl =
    (a.leading le_rfl)ᵀ * a.leading le_rfl
  left      : ∀ i p, e.pivots[i.val]? = some p → ∀ j < p, e.body i j = 0
  pos       : ∀ i p, e.pivots[i.val]? = some p → 0 < e.body i p
  below     : ∀ i p, e.pivots[i.val]? = some p → ∀ l > i, e.body l p = 0
  rest      : ∀ i, e.pivots.length ≤ i.val → ∀ j, j.val < c → e.body i j = 0
  rank      : e.pivots.length = (a.leading h).rank

variable {e : Echelon ℝ m n} {a : Dense ℝ m n}

def lead (ps : List (Fin c)) (i : Fin m) : WithTop (Fin c) :=
  ps[i.val]?

section Lead

variable {ps : List (Fin c)} {i j : Fin m} {p : Fin c}

theorem lead_eq_coe (h : ps[i.val]? = some p) : lead ps i = p :=
  h

theorem lead_eq_top (h : ps[i.val]? = none) : lead ps i = ⊤ :=
  h

theorem lead_ne_top_iff : lead ps i ≠ ⊤ ↔ i.val < ps.length := by
  cases h : ps[i.val]?
  case none => simpa [lead_eq_top h] using h
  case some p => simpa [lead_eq_coe h] using (List.getElem?_eq_some_iff.mp h).choose

theorem lead_lt (hs : ps.Pairwise (· < ·)) (hij : i < j) (hj : lead ps j ≠ ⊤) :
    lead ps i < lead ps j := by
  have hj := lead_ne_top_iff.mp hj
  have hi := Nat.lt_trans (Fin.lt_def.mp hij) hj
  rw [lead_eq_coe (List.getElem?_eq_getElem hi), lead_eq_coe (List.getElem?_eq_getElem hj),
    WithTop.coe_lt_coe]
  exact List.pairwise_iff_getElem.mp hs _ _ hi hj hij

theorem lead_monotone (hs : ps.Pairwise (· < ·)) : Monotone (lead (m := m) ps) := by
  refine monotone_iff_forall_lt.mpr fun i j hij => ?_
  by_cases hj : lead ps j = ⊤
  case pos => exact hj ▸ le_top
  case neg => exact (lead_lt hs hij hj).le

end Lead

namespace Reduced

theorem gram_leading (hr : e.Reduced a c) {k : Nat} (h : k ≤ n) :
    (e.body.leading h)ᵀ * e.body.leading h = (a.leading h)ᵀ * a.leading h := by
  ext i j
  simpa [Dense.leading, mul_apply] using hr.gram (Fin.castLE h i) (Fin.castLE h j)

theorem below_pivot (hr : e.Reduced a c) {i l : Fin m} {p : Fin n} (hp : e.pivots[i.val]? = some p)
    (hl : i < l) :
    e.body l p = 0 := by
  cases hq : e.pivots[l.val]?
  case none =>
    exact hr.below l (List.getElem?_eq_none_iff.mp hq) p (hr.lt p (List.mem_of_getElem? hp))
  case some q =>
    obtain ⟨hi, rfl⟩ := List.getElem?_eq_some_iff.mp hp
    obtain ⟨hl', rfl⟩ := List.getElem?_eq_some_iff.mp hq
    exact hr.left l _ hq _ (List.pairwise_iff_getElem.mp hr.mono _ _ hi hl' hl)

theorem isPivotedBy (hr : e.Reduced a c) (h : c ≤ n) {ps : List (Fin c)}
    (hp : ps.map (Fin.castLE h) = e.pivots) :
    (e.body.leading h).IsPivotedBy (lead ps) := by
  have hs : ps.Pairwise (· < ·) := List.pairwise_map (f := Fin.castLE h) |>.mp (hp ▸ hr.mono)
  refine isPivotedBy_iff.mpr ⟨lead_monotone hs, fun i _ l hl hil => lead_lt hs hil hl, fun i => ?_⟩
  cases hi : ps[i.val]?
  case none =>
    have hlen : e.pivots.length ≤ i.val := by simpa [← hp] using hi
    refine ⟨fun j _ => hr.below i hlen _ j.isLt, fun p he => ?_⟩
    simp [lead_eq_top hi] at he
  case some p =>
    have hq : e.pivots[i.val]? = some (Fin.castLE h p) := by simp [← hp, hi]
    simp only [lead_eq_coe hi, WithTop.coe_lt_coe, WithTop.coe_eq_coe]
    refine ⟨fun j hj => hr.left i _ hq _ hj, ?_⟩
    rintro _ rfl
    exact hr.pivot i _ hq

theorem length_eq_rank (hr : e.Reduced a c) (hm : e.pivots.length ≤ m) (h : c ≤ n) :
    e.pivots.length = (a.leading h).rank := by
  obtain ⟨ps, hp⟩ : ∃ ps : List (Fin c), ps.map (Fin.castLE h) = e.pivots := by
    refine ⟨e.pivots.attach.map fun p => ⟨p.val, hr.lt p.val p.property⟩, ?_⟩
    simp
  rw [← rank_transpose_mul_self, ← hr.gram_leading, rank_transpose_mul_self,
    (hr.isPivotedBy h hp).rank_eq]
  have hl : ps.length ≤ m := by simpa [← hp] using hm
  rw [← hp, List.length_map, Finset.filter_congr fun i _ => lead_ne_top_iff, Fin.card_filter_val_lt,
    Nat.min_eq_right hl]

end Reduced
end Echelon

-- Whatever the matrix is, reflections bring its first columns into triangular form.
theorem exists_triangularize (a : Mat ℝ) (h : c ≤ a.cols) :
    ∃ e, a.triangularize c = .ok e ∧ e.IsFormOf a.body h := by
  have hr := triangularize_reduced a.body h
  obtain ⟨ha, hm⟩ := ascending_triangularize a.body h
  refine ⟨_, if_pos h, ?_⟩
  constructor
  case ascending => exact ha
  case length => exact hm
  case gram => exact hr.gram_leading le_rfl
  case left => exact hr.left
  case pos => exact fun i p => triangularize_pos a.body h
  case below => exact fun i p hp l hl => hr.below_pivot hp hl
  case rest => exact hr.below
  case rank => exact hr.length_eq_rank hm h

def repeated : Mat ℝ :=
  .ofFn 2 3 fun i j => if j.val < 2 then 1 else i.val

theorem exists_triangularize_repeated :
    2 ≤ repeated.cols ∧ ∃ e, repeated.triangularize 2 = .ok e ∧
      e.IsFormOf repeated.body (show 2 ≤ 3 by decide) ∧ e.pivots.length < 2 := by
  have h : 2 ≤ repeated.cols := by decide
  obtain ⟨e, he, hf⟩ := exists_triangularize repeated h
  have hl : repeated.body.leading h = vecMulVec 1 1 := by
    ext i j
    have hb : repeated.body.leading h i j = if j.val < 2 then 1 else (i.val : ℝ) :=
      Dense.get_ofFn _ i (Fin.castLE h j)
    rw [hb, if_pos j.isLt]
    simp [vecMulVec_apply]
  refine ⟨h, e, he, hf, ?_⟩
  rw [hf.rank, hl]
  exact Nat.lt_succ_of_le (rank_vecMulVec_le _ _)

end LinearGaussian
