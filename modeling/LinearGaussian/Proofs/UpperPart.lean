import LinearGaussian.Proofs.Triangular
import LinearGaussian.Reduction.SquareRoot

namespace LinearGaussian

section Entries

variable {α : Type} {n : Nat} {r s : Fin n → Fin n → α}

def EqUpper (r s : Fin n → Fin n → α) : Prop :=
  ∀ i j, i ≤ j → r i j = s i j

variable [Arith α]

theorem solveUpper_congr (h : EqUpper r s) (b : Vector α n) : solveUpper r b = solveUpper s b := by
  unfold solveUpper
  congr 1
  funext i x
  have hf : foldWhere (i < ·) (fun t j => t - r i j * x[j]) x[i] =
      foldWhere (i < ·) (fun t j => t - s i j * x[j]) x[i] :=
    foldWhere_congr (fun t j hj => by rw [h i j (of_decide_eq_true hj).le]) _
  rw [hf, h i i le_rfl]

theorem solveUpperTranspose_congr (h : EqUpper r s) (b : Vector α n) :
    solveUpperTranspose r b = solveUpperTranspose s b := by
  unfold solveUpperTranspose
  congr 1
  funext x i
  have hf : foldWhere (· < i) (fun t j => t - r j i * x[j]) x[i] =
      foldWhere (· < i) (fun t j => t - s j i * x[j]) x[i] :=
    foldWhere_congr (fun t j hj => by rw [h j i (of_decide_eq_true hj).le]) _
  rw [hf, h i i le_rfl]

variable [RealLike α]

theorem SquareRoot.step_congr (h : EqUpper r s) (tol : α) : step r tol = step s tol := by
  -- A row is found from the entries of the same row, from the diagonal on, and from the rows that
  -- are found already.
  funext a j
  have hj := h j j le_rfl
  simp only [step, hj]
  split
  case isTrue => rfl
  case isFalse =>
    congr 1
    funext i c
    split
    case isTrue => rfl
    case isFalse hc => rw [h j c (not_lt.mp (not_or.mp hc).right)]

theorem squareRoot_congr (h : EqUpper r s) (tol : α) : squareRoot r tol = squareRoot s tol := by
  rw [squareRoot, SquareRoot.step_congr h, squareRoot]

end Entries

section Field

variable {K : Type} [Field K] {n : Nat} {r : Fin n → Fin n → K}

def upperPart (r : Fin n → Fin n → K) : Matrix (Fin n) (Fin n) K :=
  Matrix.of fun i j => if i ≤ j then r i j else 0

def Solves (a : Matrix (Fin n) (Fin n) K) (b : Array K) (outcome : Outcome (Array K)) : Prop :=
  ∃ x, outcome = .ok x ∧ x.size = n ∧
    ∀ y : Fin n → K, (a.mulVec y = fun i : Fin n => b.getD i 0) ↔ y = fun i : Fin n => x.getD i 0

theorem eqUpper_upperPart (r : Fin n → Fin n → K) : EqUpper r (upperPart r) :=
  fun _ _ h => (if_pos h).symm

theorem upperPart_eq_zero {i j : Fin n} (h : j < i) : upperPart r i j = 0 :=
  if_neg (not_le.mpr h)

theorem upperPart_diagonal (i : Fin n) : upperPart r i i = r i i :=
  if_pos le_rfl

theorem det_upperPart_ne_zero (hd : ∀ i, r i i ≠ 0) : (upperPart r).det ≠ 0 :=
  (det_ne_zero_iff fun _ _ => upperPart_eq_zero).mpr fun i => (upperPart_diagonal i).trans_ne (hd i)

theorem solves_of_mulVec {a : Matrix (Fin n) (Fin n) K} (ha : a.det ≠ 0) {b : Array K}
    {x : Vector K n} (hx : a.mulVec (fun i => x[i]) = fun i : Fin n => b.getD i 0) :
    Solves a b (.ok x.toArray) := by
  have he : (fun i : Fin n => x.toArray.getD i 0) = fun i => x[i] := by simp
  refine ⟨x.toArray, rfl, x.size_toArray, fun y => ?_⟩
  rw [← hx, he]
  exact (Matrix.mulVec_injective_of_det_ne_zero ha).eq_iff

theorem Solves.eq_ok {a : Matrix (Fin n) (Fin n) K} {b x : Array K} {outcome : Outcome (Array K)}
    (h : Solves a b outcome) (hs : x.size = n)
    (hx : (a.mulVec fun i : Fin n => x.getD i 0) = fun i : Fin n => b.getD i 0) :
    outcome = .ok x := by
  obtain ⟨z, hz, hzs, hy⟩ := h
  have he := (hy _).mp hx
  rw [hz]
  congr 1
  refine Array.ext (hzs.trans hs.symm) fun i hi hi' => ?_
  have hi := congrFun he ⟨i, hs ▸ hi'⟩
  simpa [hzs, hs, hs ▸ hi'] using hi.symm

theorem solves_solveUpper (hd : ∀ i, r i i ≠ 0) {b : Array K} (hb : b.size = n) :
    Solves (upperPart r) b (.ok (solveUpper r ⟨b, hb⟩).toArray) := by
  rw [solveUpper_congr (eqUpper_upperPart r)]
  refine solves_of_mulVec (det_upperPart_ne_zero hd) (funext fun i => ?_)
  have hs := sum_solveUpper (r := upperPart r) (fun _ _ => upperPart_eq_zero)
    (fun i => (upperPart_diagonal i).trans_ne (hd i)) ⟨b, hb⟩ i
  exact hs.trans (by simp [hb])

theorem solves_solveUpperTranspose (hd : ∀ i, r i i ≠ 0) {b : Array K} (hb : b.size = n) :
    Solves (upperPart r).transpose b (.ok (solveUpperTranspose r ⟨b, hb⟩).toArray) := by
  rw [solveUpperTranspose_congr (eqUpper_upperPart r)]
  refine solves_of_mulVec ((upperPart r).det_transpose.trans_ne (det_upperPart_ne_zero hd))
    (funext fun j => ?_)
  have hs := sum_solveUpperTranspose (r := upperPart r) (fun _ _ => upperPart_eq_zero)
    (fun i => (upperPart_diagonal i).trans_ne (hd i)) ⟨b, hb⟩ j
  exact hs.trans (by simp [hb])

end Field

namespace Window

section Entries

variable {α : Type} [Arith α] {v w : Window α}

theorem entry_square (h : w.rows = w.cols) :
    (fun i j => w.entry i (j.cast h)) = fun i j : Fin w.rows => w.toMat.entry i j := by
  funext i j
  exact (Mat.entry_ofFn _ i.isLt (j.cast h).isLt).symm

theorem triangular_bind (w : Window α) (b : Array α)
    (solve : (Fin w.rows → Fin w.rows → α) → Vector α w.rows → Vector α w.rows) :
    (w.triangular b >>= fun p => pure (solve p.1 p.2).toArray) = if w.rows = w.cols then
      (fun b => (solve (fun i j => w.toMat.entry i j) b).toArray) <$>
        Vec.sized b w.rows .triangularLength
    else violated .triangularShape := by
  -- A triangular solve, whichever it is, goes by the entries of the square.
  unfold triangular
  split
  case isTrue h =>
    rw [entry_square h]
    cases Vec.sized b w.rows .triangularLength <;> rfl
  case isFalse => rfl

theorem solveUpper_eq_ite (w : Window α) (b : Array α) :
    w.solveUpper b = if w.rows = w.cols then
      (fun b => (LinearGaussian.solveUpper (fun i j : Fin w.rows => w.toMat.entry i j) b).toArray)
        <$> Vec.sized b w.rows .triangularLength
    else violated .triangularShape :=
  w.triangular_bind b LinearGaussian.solveUpper

theorem solveUpperTranspose_eq_ite (w : Window α) (b : Array α) :
    w.solveUpperTranspose b = if w.rows = w.cols then
      (fun b =>
        (LinearGaussian.solveUpperTranspose (fun i j : Fin w.rows => w.toMat.entry i j) b).toArray)
        <$> Vec.sized b w.rows .triangularLength
    else violated .triangularShape :=
  w.triangular_bind b LinearGaussian.solveUpperTranspose

theorem squareRoot_eq_ite [RealLike α] (w : Window α) (tol : α) :
    w.squareRoot tol = if w.rows = w.cols then
      .ok ⟨w.rows, w.rows,
        LinearGaussian.squareRoot (fun i j : Fin w.rows => w.toMat.entry i j) tol⟩
    else violated .squareRootShape := by
  unfold squareRoot
  split
  case isTrue h => rw [entry_square h]
  case isFalse => rfl

structure EqUpper (v w : Window α) : Prop where
  rows  : v.rows = w.rows
  cols  : v.cols = w.cols
  entry : ∀ i j, i ≤ j → v.toMat.entry i j = w.toMat.entry i j

namespace EqUpper

theorem square (h : v.EqUpper w) (n : Nat) :
    LinearGaussian.EqUpper (fun i j : Fin n => v.toMat.entry i j) fun i j => w.toMat.entry i j :=
  fun i j hij => h.entry i j hij

theorem solveUpper_eq (h : v.EqUpper w) (b : Array α) : v.solveUpper b = w.solveUpper b := by
  rw [solveUpper_eq_ite, solveUpper_eq_ite, h.rows, h.cols]
  simp only [solveUpper_congr (h.square _)]

theorem solveUpperTranspose_eq (h : v.EqUpper w) (b : Array α) :
    v.solveUpperTranspose b = w.solveUpperTranspose b := by
  rw [solveUpperTranspose_eq_ite, solveUpperTranspose_eq_ite, h.rows, h.cols]
  simp only [solveUpperTranspose_congr (h.square _)]

theorem squareRoot_eq [RealLike α] (h : v.EqUpper w) (tol : α) :
    v.squareRoot tol = w.squareRoot tol := by
  rw [squareRoot_eq_ite, squareRoot_eq_ite, h.rows, h.cols, squareRoot_congr (h.square _)]

end EqUpper
end Entries

section Field

variable {K : Type} [Field K] {w : Window K} {b : Array K}

def upper (w : Window K) : Matrix (Fin w.rows) (Fin w.rows) K :=
  upperPart fun i j => w.toMat.entry i j

theorem solves_of_diagonal (hs : w.rows = w.cols) (hd : ∀ i < w.rows, w.toMat.entry i i ≠ 0)
    (hb : b.size = w.rows) :
    Solves w.upper b (w.solveUpper b) ∧ Solves w.upper.transpose b (w.solveUpperTranspose b) := by
  have hd (i : Fin w.rows) : w.toMat.entry i i ≠ 0 := hd i i.isLt
  rw [solveUpper_eq_ite, solveUpperTranspose_eq_ite, if_pos hs, if_pos hs, Vec.sized, dif_pos hb]
  exact ⟨solves_solveUpper hd hb, solves_solveUpperTranspose hd hb⟩

end Field
end Window

-- Over a field, substitution finds the only solution of the system with zeros below the diagonal.
-- What stands there instead changes no result, whatever the scalars are.
theorem solves_upper {K α : Type} [Field K] [Arith α] [RealLike α] :
    (∀ (w : Window K) (b : Array K), w.rows = w.cols → (∀ i < w.rows, w.toMat.entry i i ≠ 0) →
      b.size = w.rows →
      Solves w.upper b (w.solveUpper b) ∧ Solves w.upper.transpose b (w.solveUpperTranspose b)) ∧
    ∀ v w : Window α, v.EqUpper w → (∀ b, v.solveUpper b = w.solveUpper b) ∧
      (∀ b, v.solveUpperTranspose b = w.solveUpperTranspose b) ∧
      ∀ tol, v.squareRoot tol = w.squareRoot tol := by
  refine ⟨fun w b hs hd hb => Window.solves_of_diagonal hs hd hb, fun v w h => ?_⟩
  exact ⟨h.solveUpper_eq, h.solveUpperTranspose_eq, h.squareRoot_eq⟩

def twice {α : Type} (diagonal above below : α) : Window α :=
  .full (.ofFn 2 2 fun i j => if i = j then diagonal else if i < j then above else below)

theorem entry_twice {α : Type} [Arith α] (diagonal above below : α) {i j : Nat} (hi : i < 2)
    (hj : j < 2) :
    (twice diagonal above below).toMat.entry i j = if i = j then diagonal else if i < j then
      above else below := by
  simp [twice, Window.full, Window.toMat, Window.entry, Mat.ofFn, Mat.entry, hi, hj]

theorem upper_twice {K : Type} [Field K] (diagonal above below : K) :
    (twice diagonal above below).upper = !![diagonal, above; 0, diagonal] := by
  have he : ∀ i j : Fin 2, (if i ≤ j then if i = j then diagonal else above else 0) =
      !![diagonal, above; 0, diagonal] i j := by simp [Fin.forall_fin_two]
  funext i j
  refine Eq.trans ?_ (he i j)
  rw [Window.upper, upperPart, Matrix.of_apply, entry_twice _ _ _ i.isLt j.isLt]
  grind

theorem solves_upper_twice :
    (twice (2 : ℚ) 1 9).solveUpper #[5, 6] = .ok #[1, 3] ∧
      (twice (2 : ℚ) 1 9).solveUpperTranspose #[4, 10] = .ok #[2, 4] ∧
      ∀ tol, (twice (4 : Float) 2 (0 / 0)).squareRoot tol = (twice 4 2 2).squareRoot tol := by
  obtain ⟨hsolve, hsame⟩ := solves_upper (K := ℚ) (α := Float)
  have hd : ∀ i < (twice (2 : ℚ) 1 9).rows, (twice (2 : ℚ) 1 9).toMat.entry i i ≠ 0 := by
    intro i hi
    rw [entry_twice _ _ _ hi hi]
    simp
  have hx : !![2, 1; 0, 2].mulVec (fun i : Fin 2 => (#[1, 3] : Array ℚ).getD i 0) =
      fun i : Fin 2 => #[5, 6].getD i 0 := by
    ext i
    fin_cases i <;> norm_num [Matrix.mulVec, dotProduct, Fin.sum_univ_two]
  have hy : !![2, 1; 0, 2].transpose.mulVec (fun i : Fin 2 => (#[2, 4] : Array ℚ).getD i 0) =
      fun i : Fin 2 => #[4, 10].getD i 0 := by
    ext i
    fin_cases i <;> norm_num [Matrix.mulVec, dotProduct, Fin.sum_univ_two]
  rw [← upper_twice 2 1 9] at hx hy
  refine ⟨?_, ?_, ?_⟩
  case refine_1 => exact (hsolve (twice 2 1 9) #[5, 6] rfl hd rfl).left.eq_ok rfl hx
  case refine_2 => exact (hsolve (twice 2 1 9) #[4, 10] rfl hd rfl).right.eq_ok rfl hy
  case refine_3 =>
    have he : (twice (4 : Float) 2 (0 / 0)).EqUpper (twice 4 2 2) := by
      refine ⟨rfl, rfl, fun i j hij => ?_⟩
      by_cases hj : j < 2
      case pos =>
        rw [entry_twice _ _ _ (hij.trans_lt hj) hj, entry_twice _ _ _ (hij.trans_lt hj) hj]
        grind
      case neg => simp [Mat.entry, twice, Window.full, Window.toMat, Mat.ofFn, hj]
    exact (hsame _ _ he).right.right

end LinearGaussian
