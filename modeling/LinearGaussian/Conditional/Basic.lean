import LinearGaussian.Factor.Linear

namespace LinearGaussian

structure Conditional (α : Type) where
  keys : List Key
  frontalCount : Nat
  rsd : BlockMatrix α
  model : NoiseModel α

namespace Conditional

variable {α : Type}

def frontals (c : Conditional α) : List Key :=
  c.keys.take c.frontalCount

def parents (c : Conditional α) : List Key :=
  c.keys.drop c.frontalCount

def rows (c : Conditional α) : Nat :=
  c.rsd.rows

def frontalDim (c : Conditional α) : Nat :=
  c.rsd.offsetAt c.frontalCount

def position? (c : Conditional α) (k : Key) : Option Nat :=
  c.keys.idxOf? k

def dim? (c : Conditional α) (k : Key) : Option Nat :=
  (c.position? k).bind (c.rsd.widths[·]?)

def isFrontal (c : Conditional α) (k : Key) : Bool :=
  c.frontals.contains k

def r (c : Conditional α) : Outcome (Window α) :=
  c.rsd.blocks 0 c.frontalCount

-- The columns of `S` for the parent number `i`. After the last parent comes `d`.
def s (c : Conditional α) (i : Nat) : Outcome (Window α) :=
  c.rsd.block (c.frontalCount + i)

variable [Arith α]

def d (c : Conditional α) : Array α :=
  Array.ofFn fun i : Fin c.rows => c.rsd.full.entry i (c.rsd.offsetAt c.keys.length)

variable [RealLike α]

-- The first place below the diagonal of the first `n` columns with an entry that is not zero,
-- column by column.
def firstBelowDiagonal? (a : Mat α) (n : Nat) : Option (Nat × Nat) :=
  (List.range n).findSome? fun j =>
    (List.range n).findSome? fun i => if j < i ∧ a.entry i j != 0 then some (i, j) else none

def ofParts (keys : List Key) (frontalCount : Nat) (rsd : BlockMatrix α) (model : NoiseModel α) :
    Outcome (Conditional α) := do
  if rsd.count ≠ keys.length + 1 ∨ rsd.widths[keys.length]? ≠ some 1 then
    fail (.invalidConditional (.blockCount keys.length rsd.count))
  if keys.length < frontalCount then
    fail (.invalidConditional (.frontalCount frontalCount keys.length))
  requireDistinct keys
  let n := rsd.offsetAt frontalCount
  if n ≠ rsd.rows then fail (.invalidConditional (.notSquare rsd.rows n))
  if model.dim ≠ rsd.rows then fail (.rowMismatch rsd.rows model.dim)
  match firstBelowDiagonal? rsd.full n with
  | some (i, j) => fail (.invalidConditional (.notUpperTriangular i j))
  | none => return ⟨keys, frontalCount, rsd, model⟩

def ofTerms (frontal : Key) (d : Array α) (r : Mat α) (parents : List (Key × Mat α))
    (model : Option (NoiseModel α)) : Outcome (Conditional α) := do
  let factor ← LinearFactor.ofTerms ((frontal, r) :: parents) d none
  ofParts factor.keys 1 factor.ab (model.getD (NoiseModel.unit d.size))

def diagonal (c : Conditional α) : List α :=
  (List.range c.rows).map fun i => c.rsd.full.entry i i

def logDeterminant (c : Conditional α) : α :=
  c.diagonal.foldl (fun s a => s + RealLike.ln (RealLike.abs a)) 0

def determinant (c : Conditional α) : α :=
  c.diagonal.foldl (· * ·) 1

-- The factor whose error is that of the density. Unit deviations need no model.
def toFactor (c : Conditional α) : LinearFactor α :=
  ⟨c.keys, c.rsd, if c.model.isUnit then none else some c.model⟩

end Conditional
end LinearGaussian
