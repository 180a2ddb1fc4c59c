import LinearGaussian.Dense.Basic
import LinearGaussian.Dense.Fold
import LinearGaussian.Fault

namespace LinearGaussian.Vec

variable {α : Type}

-- `v` as a vector of length `n`. That it has this length is a precondition.
def sized (v : Array α) (n : Nat) (cause : Violation) : Outcome (Vector α n) :=
  if h : v.size = n then .ok ⟨v, h⟩ else violated cause

def fill (n : Nat) (a : α) : Array α :=
  Array.replicate n a

def concat (parts : List (Array α)) : Array α :=
  parts.foldl (· ++ ·) #[]

def read (v : Array α) (i : Nat) : Outcome α :=
  inRange v[i]?

def write (v : Array α) (i : Nat) (a : α) : Outcome (Array α) :=
  if i < v.size then .ok (v.setIfInBounds i a) else violated .outOfRange

def slice (v : Array α) (start stop : Nat) : Outcome (Array α) :=
  if start ≤ stop ∧ stop ≤ v.size then .ok (v.extract start stop) else violated .outOfRange

def segment (v : Array α) (start len : Nat) : Outcome (Array α) :=
  slice v start (start + len)

section Arith

variable [Arith α]

def zeros (n : Nat) : Array α :=
  fill n 0

def dot (a b : Array α) : Outcome α := do
  let b ← sized b a.size .vectorLength
  return LinearGaussian.dot (fun i : Fin a.size => a[i]) (fun i => b[i])

def normSq (a : Array α) : α :=
  LinearGaussian.dot (fun i : Fin a.size => a[i]) (fun i => a[i])

def axpy (alpha : α) (x y : Array α) : Outcome (Array α) := do
  let x ← sized x y.size .vectorLength
  return (Vector.ofFn fun i : Fin y.size => y[i] + alpha * x[i]).toArray

def scale (a : Array α) (s : α) : Array α :=
  a.map (· * s)

def neg (a : Array α) : Array α :=
  a.map (- ·)

def add (a b : Array α) : Outcome (Array α) := do
  let b ← sized b a.size .vectorLength
  return (Vector.ofFn fun i : Fin a.size => a[i] + b[i]).toArray

def sub (a b : Array α) : Outcome (Array α) := do
  let b ← sized b a.size .vectorLength
  return (Vector.ofFn fun i : Fin a.size => a[i] - b[i]).toArray

variable [RealLike α]

def norm (a : Array α) : α :=
  RealLike.sqrt (normSq a)

def maxAbsDiff (a b : Array α) : Outcome α := do
  let b ← sized b a.size .vectorLength
  return Fin.foldl a.size (fun s i => RealLike.max s (RealLike.abs (a[i] - b[i]))) 0

end Arith
end LinearGaussian.Vec
