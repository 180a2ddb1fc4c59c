import LinearGaussian.Conditional.Basic
import LinearGaussian.Reduction.Triangular

namespace LinearGaussian.Conditional

variable {α : Type} [Arith α] [RealLike α]

def gather (c : Conditional α) (x : Assignment α) : Outcome (Array α) := do
  return Vec.concat (← (c.frontals.zip c.rsd.widths).mapM fun (k, d) => x.valueOf k d)

def scatter (c : Conditional α) (v : Array α) (x : Assignment α) : Assignment α :=
  c.frontals.zipIdx.foldl
    (fun x (k, pos) => x.insert k (v.extract (c.rsd.offsetAt pos) (c.rsd.offsetAt (pos + 1)))) x

def solveFor (c : Conditional α) (rhs : Array α) (x : Assignment α) : Outcome (Array α) := do
  let rhs ← c.parents.zipIdx.foldlM (fun rhs (k, i) => do
    let s ← c.s i
    let v ← x.valueOf k s.cols
    s.addMulVec (-1) v rhs) rhs
  (← c.r).solveUpper rhs

def solveInPlace (c : Conditional α) : Edit (Assignment α) Unit := do
  let v ← Edit.lift $ c.solveFor c.d (← get)
  modify (c.scatter (c.model.scaleBySigma v))

-- Like `solveInPlace`, with the values that `rhs` has for the frontal variables in the place of
-- `d`, and unscaled.
def solveWithRhs (c : Conditional α) (rhs : Assignment α) : Edit (Assignment α) Unit := do
  let b ← Edit.lift $ c.gather rhs
  let v ← Edit.lift $ c.solveFor b (← get)
  modify (c.scatter v)

-- Takes `Sᵀ v` for a parent out of its value. A parent that has none starts from zero.
def propagate (c : Conditional α) (v : Array α) (k : Key) (i : Nat) : Edit (Assignment α) Unit := do
  let s ← Edit.lift $ c.s i
  let old := ((← get).get? k).getD (Vec.zeros s.cols)
  if old.size ≠ s.cols then Edit.lift $ fail (.dimensionMismatch k s.cols old.size)
  let new ← Edit.lift $ s.addTrMulVec (-1) v old
  modify (·.insert k new)

-- Solves `Rᵀ v = y` for the frontal variables and takes what this explains out of the parents.
def solveTransposeInPlace (c : Conditional α) : Edit (Assignment α) Unit := do
  let b ← Edit.lift $ c.gather (← get)
  let v ← Edit.lift $ do (← c.r).solveUpperTranspose b
  c.parents.zipIdx.forM fun (k, i) => c.propagate v k i
  modify (c.scatter v)

def scaleFrontals (c : Conditional α) : Edit (Assignment α) Unit := do
  let v ← Edit.lift $ c.gather (← get)
  modify (c.scatter (c.model.scaleBySigma v))

end LinearGaussian.Conditional
