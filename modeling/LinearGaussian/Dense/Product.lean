import LinearGaussian.Dense.Basic
import LinearGaussian.Dense.Fold

namespace LinearGaussian

variable {α : Type} [Arith α] {m n k : Nat}

def mulVec (a : Fin m → Fin n → α) (x : Fin n → α) : Vector α m :=
  Vector.ofFn fun i => dot (a i) x

def trMulVec (a : Fin m → Fin n → α) (x : Fin m → α) : Vector α n :=
  Vector.ofFn fun j => dot (fun i => a i j) x

def addMulVec (a : Fin m → Fin n → α) (alpha : α) (x : Fin n → α) (y : Fin m → α) : Vector α m :=
  Vector.ofFn fun i => Fin.foldl n (fun s j => s + a i j * (alpha * x j)) (y i)

def addTrMulVec (a : Fin m → Fin n → α) (alpha : α) (x : Fin m → α) (y : Fin n → α) : Vector α n :=
  Vector.ofFn fun j => y j + alpha * dot (fun i => a i j) x

-- `A B`. A factor of zero on the right adds nothing, whatever stands on the left.
def mul [BEq α] (a : Fin m → Fin k → α) (b : Fin k → Fin n → α) : Dense α m n :=
  Dense.ofFn fun i j => foldWhere (fun l => b l j != 0) (fun s l => s + a i l * b l j) 0

end LinearGaussian
