import LinearGaussian.Dense.Window

namespace LinearGaussian

variable {α : Type} [Arith α] {n : Nat}

def solveUpper (r : Fin n → Fin n → α) (b : Vector α n) : Vector α n :=
  Fin.foldr n (fun i x =>
    x.set i (foldWhere (i < ·) (fun s j => s - r i j * x[j]) x[i] / r i i) i.isLt) b

def solveUpperTranspose (r : Fin n → Fin n → α) (b : Vector α n) : Vector α n :=
  Fin.foldl n (fun x i =>
    x.set i (foldWhere (· < i) (fun s j => s - r j i * x[j]) x[i] / r i i) i.isLt) b

namespace Window

def triangular (w : Window α) (b : Array α) :
    Outcome ((Fin w.rows → Fin w.rows → α) × Vector α w.rows) :=
  if h : w.rows = w.cols then do
    let b ← Vec.sized b w.rows .triangularLength
    return (fun i j => w.entry i (j.cast h), b)
  else violated .triangularShape

def solveUpper (w : Window α) (b : Array α) : Outcome (Array α) := do
  let (r, b) ← w.triangular b
  return (LinearGaussian.solveUpper r b).toArray

def solveUpperTranspose (w : Window α) (b : Array α) : Outcome (Array α) := do
  let (r, b) ← w.triangular b
  return (LinearGaussian.solveUpperTranspose r b).toArray

end Window
end LinearGaussian
