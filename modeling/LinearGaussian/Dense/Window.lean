import LinearGaussian.Dense.Mat

namespace LinearGaussian

structure Window (α : Type) where
  base : Mat α
  row : Nat
  col : Nat
  rows : Nat
  cols : Nat
  row_le : row + rows ≤ base.rows
  col_le : col + cols ≤ base.cols

namespace Window

variable {α : Type}

def full (a : Mat α) : Window α :=
  ⟨a, 0, 0, a.rows, a.cols, by omega, by omega⟩

def of (a : Mat α) (r : Region) : Outcome (Window α) :=
  if h : r.row + r.rows ≤ a.rows ∧ r.col + r.cols ≤ a.cols then
    .ok ⟨a, r.row, r.col, r.rows, r.cols, h.left, h.right⟩
  else violated $ .viewBounds r a.shape

def takeRows (w : Window α) (start len : Nat) : Outcome (Window α) :=
  if h : start + len ≤ w.rows then
    have := w.row_le
    .ok { w with row := w.row + start, rows := len, row_le := by omega }
  else violated .viewRows

def entry (w : Window α) (i : Fin w.rows) (j : Fin w.cols) : α :=
  have := w.row_le
  have := w.col_le
  w.base.body ⟨w.row + i, by omega⟩ ⟨w.col + j, by omega⟩

def read (w : Window α) (row col : Nat) : Outcome α :=
  if h : row < w.rows ∧ col < w.cols then
    .ok $ w.entry ⟨row, h.left⟩ ⟨col, h.right⟩
  else violated .outOfRange

def toMat (w : Window α) : Mat α :=
  Mat.ofFn w.rows w.cols w.entry

@[simp]
theorem get_toMat (w : Window α) (i : Fin w.rows) (j : Fin w.cols) :
    w.toMat.body.get i j = w.entry i j := by
  simp [toMat, Mat.ofFn]

def column (w : Window α) (j : Nat) : Outcome (Array α) :=
  if h : j < w.cols then .ok $ Array.ofFn fun i => w.entry i ⟨j, h⟩
  else if w.rows = 0 then .ok #[]
  else violated .outOfRange

section Arith

variable [Arith α]

def isZero [BEq α] (w : Window α) : Bool :=
  (List.finRange w.cols).all fun j => (List.finRange w.rows).all fun i => w.entry i j == 0

def addMulVec (w : Window α) (alpha : α) (x y : Array α) : Outcome (Array α) := do
  let x ← Vec.sized x w.cols .addMulInput
  let y ← Vec.sized y w.rows .addMulOutput
  return (LinearGaussian.addMulVec w.entry alpha (fun j => x[j]) (fun i => y[i])).toArray

def addTrMulVec (w : Window α) (alpha : α) (x y : Array α) : Outcome (Array α) := do
  let x ← Vec.sized x w.rows .addTrMulInput
  let y ← Vec.sized y w.cols .addTrMulOutput
  return (LinearGaussian.addTrMulVec w.entry alpha (fun i => x[i]) (fun j => y[j])).toArray

end Arith
end Window
end LinearGaussian
