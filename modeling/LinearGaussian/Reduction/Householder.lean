import LinearGaussian.Dense.Mat

namespace LinearGaussian

variable {α : Type} [Arith α] [RealLike α] {m n : Nat}

-- The reflection along `v`, where `v` is zero above the row `row`, one at it and `tail` below it.
-- It maps `y` to `y - tau (v · y) v`, and the column that it was made for to `-sigma` at the row
-- `row`.
structure Reflection (α : Type) (m : Nat) where
  row : Fin m
  sigma : α
  tau : α
  tail : Vector α m

namespace Reflection

-- The reflection that clears the column `x` below the row `row`. There is none if nothing is left
-- to clear. The sign of `sigma` is that of the pivot, so that `x row + sigma` does not cancel.
def ofColumn? (row : Fin m) (x : Fin m → α) : Option (Reflection α m) :=
  let normSq := foldWhere (row ≤ ·) (fun s i => s + x i * x i) 0
  if normSq == 0 then none
  else
    let norm := RealLike.sqrt normSq
    let sigma := if x row < 0 then -norm else norm
    let lead := x row + sigma
    some ⟨row, sigma, lead / sigma, Vector.ofFn fun i => x i / lead⟩

def weight (r : Reflection α m) (y : Fin m → α) : α :=
  foldWhere (r.row < ·) (fun s i => s + r.tail[i] * y i) (y r.row) * r.tau

def apply (r : Reflection α m) (col : Fin n) (a : Dense α m n) : Dense α m n :=
  let weights : Vector α n := Vector.ofFn fun j => r.weight fun i => a i j
  Dense.ofFn fun i j =>
    if i < r.row ∨ j < col then a i j
    else if j = col then if i = r.row then -r.sigma else 0
    else if i = r.row then a i j - weights[j]
    else a i j - weights[j] * r.tail[i]

end Reflection

-- A matrix on its way to triangular form. Row `i` has its pivot in the column `pivots[i]`.
structure Echelon (α : Type) (m n : Nat) where
  body : Dense α m n
  pivots : List (Fin n)

namespace Echelon

def step (e : Echelon α m n) (col : Fin n) : Echelon α m n :=
  if h : e.pivots.length < m then
    match Reflection.ofColumn? ⟨e.pivots.length, h⟩ (fun i => e.body i col) with
    | none => e
    | some r => ⟨r.apply col e.body, e.pivots ++ [col]⟩
  else e

def makePositive (e : Echelon α m n) : Echelon α m n where
  body := Dense.ofFn fun i j =>
    match e.pivots[i]? with
    | none => e.body i j
    | some col => if col ≤ j ∧ e.body i col < 0 then -e.body i j else e.body i j
  pivots := e.pivots

end Echelon

def triangularize (a : Dense α m n) (count : Nat) : Echelon α m n :=
  (foldWhere (fun col => col.val < count) Echelon.step ⟨a, []⟩).makePositive

def Mat.triangularize (a : Mat α) (count : Nat) : Outcome (Echelon α a.rows a.cols) :=
  if count ≤ a.cols then .ok (LinearGaussian.triangularize a.body count)
  else violated $ .reducedColumns count a.cols

end LinearGaussian
