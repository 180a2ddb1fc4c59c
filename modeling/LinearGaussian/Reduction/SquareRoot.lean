import LinearGaussian.Dense.Window

namespace LinearGaussian

variable {α : Type} [Arith α] [RealLike α] {n : Nat}

namespace SquareRoot

-- Fills the row `j`, given the rows above it. A pivot within the tolerance of zero leaves the row
-- zero.
def step (g : Fin n → Fin n → α) (tol : α) (r : Dense α n n) (j : Fin n) : Dense α n n :=
  let square := foldWhere (· < j) (fun s k => s - r k j * r k j) (g j j)
  if square ≤ tol * RealLike.max (RealLike.abs (g j j)) 1 then r
  else
    let pivot := RealLike.sqrt square
    let inverse := 1 / pivot
    Dense.ofFn fun i c =>
      if i ≠ j ∨ c < j then r i c
      else if c = j then pivot
      else foldWhere (· < j) (fun s k => s - r k j * r k c) (g j c) * inverse

end SquareRoot

-- The square root of `g`, of which only the entries on and above the diagonal are read.
def squareRoot (g : Fin n → Fin n → α) (tol : α) : Dense α n n :=
  Fin.foldl n (SquareRoot.step g tol) (Dense.ofFn fun _ _ => 0)

def Window.squareRoot (w : Window α) (tol : α) : Outcome (Mat α) :=
  if h : w.rows = w.cols then
    .ok ⟨w.rows, w.rows, LinearGaussian.squareRoot (fun i j => w.entry i (j.cast h)) tol⟩
  else violated .squareRootShape

end LinearGaussian
