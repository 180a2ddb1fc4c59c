import LinearGaussian.Factor.Linear
import LinearGaussian.Reduction.SquareRoot

namespace LinearGaussian

structure InformationFactor (α : Type) where
  keys : List Key
  info : BlockMatrix α

namespace InformationFactor

variable {α : Type}

instance [BEq α] : BEq (InformationFactor α) where
  beq f g := f.keys == g.keys && f.info == g.info

def dims (h : InformationFactor α) : List (Key × Nat) :=
  h.keys.zip h.info.widths

def side (h : InformationFactor α) : Nat :=
  h.info.offsetAt h.keys.length

def augmentedInformation (h : InformationFactor α) : Mat α :=
  h.info.full

def stacked (h : InformationFactor α) (x : Assignment α) : Outcome (Array α) := do
  return Vec.concat (← h.dims.mapM fun (k, d) => x.valueOf k d)

variable [Arith α]

def ofParts (keys : List Key) (dims : List Nat) (g : Mat α) (linear : Array α) (constant : α) :
    Outcome (InformationFactor α) := do
  if keys.length ≠ dims.length then fail (.rowMismatch keys.length dims.length)
  requireDistinct keys
  let n := dims.sum
  if g.rows ≠ n ∨ g.cols ≠ n then fail (.rowMismatch n g.rows)
  if linear.size ≠ n then fail (.rowMismatch n linear.size)
  let info := BlockMatrix.ofFn (n + 1) (dims ++ [1]) fun i j =>
    if i.val < n ∧ j.val < n then g.entry i j
    else if i.val < n then linear.getD i 0
    else if j.val < n then linear.getD j 0
    else constant
  return ⟨keys, info⟩

def information (h : InformationFactor α) : Mat α :=
  Mat.ofFn h.side h.side fun i j => h.info.full.entry i j

def linearTerm (h : InformationFactor α) : Array α :=
  Array.ofFn fun i : Fin h.side => h.info.full.entry i h.side

def constantTerm (h : InformationFactor α) : α :=
  h.info.full.entry h.side h.side

def error (h : InformationFactor α) (x : Assignment α) : Outcome α := do
  let v ← h.stacked x
  let gv ← h.information.mulVec v
  let quadratic ← Vec.dot v gv
  let linear ← Vec.dot v h.linearTerm
  return half * (quadratic - two * linear + h.constantTerm)

def addPart (h : InformationFactor α) (gradient : Array α) (g : Assignment α) :
    Key × Nat → Outcome (Assignment α) := fun (k, pos) => do
  let (start, stop) ← h.info.range pos
  let part ← Vec.slice gradient start stop
  match g.get? k with
  | some v => return g.insert k (← Vec.axpy 1 part v)
  | none => return g.insert k part

-- Adds the gradient of the error at `x` to `g`. A variable that `g` does not assign gets its part
-- of the gradient.
def gradientAdd (h : InformationFactor α) (x g : Assignment α) : Outcome (Assignment α) := do
  let v ← h.stacked x
  let gv ← h.information.mulVec v
  let gradient ← Vec.axpy (-1) h.linearTerm gv
  h.keys.zipIdx.foldlM (h.addPart gradient) g

variable [RealLike α]

def ofLinear (f : LinearFactor α) : Outcome (InformationFactor α) := do
  if f.isConstrained then fail (.constrainedInformation f.keys)
  return ⟨f.keys, ← BlockMatrix.ofMat (← f.whitenInformation) f.ab.widths⟩

def isEmpty (h : InformationFactor α) : Bool :=
  h.keys.isEmpty && h.constantTerm == 0

-- The tolerance below which a pivot of a matrix with `n` rows counts as zero.
def rankTolerance (n : Nat) : α :=
  RealLike.epsilon * RealLike.ofNat (16 * max n 1)

-- The solution of `Rᵀ d = g`. Where the pivot is zero, so is the solution.
def solveRows {n : Nat} (r : Fin n → Fin n → α) (g : Vector α n) : Vector α n :=
  Fin.foldl n (fun d i =>
    if r i i == 0 then d.set i 0 i.isLt
    else d.set i (foldWhere (· < i) (fun s j => s - r j i * d[j]) d[i] / r i i) i.isLt) g

-- A linear factor with the same error up to a constant: `A` is the square root of `G`, found with
-- the tolerance.
def rootWith (h : InformationFactor α) (tol : α) : LinearFactor α :=
  let r : Dense α h.side h.side := squareRoot (fun i j => h.info.full.entry i j) tol
  let d := solveRows r (Vector.ofFn fun i => h.info.full.entry i h.side)
  ⟨h.keys, BlockMatrix.ofFn h.side h.info.widths fun i j =>
    if j.val < h.side then (Mat.ofFn h.side h.side r).entry i j else d[i], none⟩

def toLinear (h : InformationFactor α) : LinearFactor α :=
  h.rootWith (rankTolerance h.side)

end InformationFactor
end LinearGaussian
