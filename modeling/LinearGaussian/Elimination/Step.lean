import LinearGaussian.Conditional.Basic
import LinearGaussian.Factor.Combine
import LinearGaussian.Reduction.Householder
import LinearGaussian.Reduction.Weighted

namespace LinearGaussian

structure EliminationSettings (α : Type) where
  -- A smaller coefficient cannot be the pivot of a hard constraint and adds nothing to a precision.
  zeroTol : α
  -- A column of smaller precision is left alone if there are hard constraints.
  rankTol : α
  -- Whether a frontal variable may have no coefficients but zero.
  allowFree : Bool

def EliminationSettings.default {α : Type} [Tolerances α] : EliminationSettings α :=
  ⟨Tolerances.zero, Tolerances.rank, false⟩

structure Elimination (α : Type) where
  conditional : Conditional α
  remaining : LinearFactor α

structure PivotRow (α : Type) (n : Nat) where
  pivot : Fin n
  values : Vector α n
  sigma : α

def Echelon.rows {α : Type} [Arith α] {m n : Nat} (e : Echelon α m n) : List (PivotRow α n) :=
  (e.pivots.zip (List.finRange m)).map fun (pivot, i) => ⟨pivot, Vector.ofFn (e.body i), 1⟩

def WeightedRow.scaled {α : Type} [Arith α] [RealLike α] {n : Nat} (row : WeightedRow α n) :
    PivotRow α n :=
  match row.precision with
  | .infinite => ⟨row.col, row.values, 0⟩
  | .finite p => ⟨row.col, row.values.map (· * RealLike.sqrt p), 1⟩

namespace LinearFactor

variable {α : Type} [Arith α] [RealLike α]

def reduceOrthogonal (f : LinearFactor α) (count : Nat) :
    Outcome (List (PivotRow α f.ab.full.cols)) := do
  let e ← Mat.triangularize ⟨f.ab.full.rows, f.ab.full.cols, ← f.whitenBody⟩ count
  return e.rows

def reduceConstrained (f : LinearFactor α) (count : Nat) (settings : EliminationSettings α) :
    Outcome (List (PivotRow α f.ab.full.cols)) := do
  let reduction ← f.ab.full.weightedReduce f.sigmas count settings.zeroTol settings.rankTol
  return reduction.rows.map (·.scaled)

def reduce (f : LinearFactor α) (settings : EliminationSettings α) :
    Outcome (List (PivotRow α f.ab.full.cols)) :=
  let count := f.ab.offsetAt f.keys.length
  if f.isConstrained then f.reduceConstrained count settings else f.reduceOrthogonal count

end LinearFactor

namespace PivotRow

variable {α : Type} [Arith α] [RealLike α] {n : Nat}

def find? (rows : List (PivotRow α n)) (i : Nat) : Option (PivotRow α n) :=
  rows.find? (·.pivot.val = i)

def entry (row : PivotRow α n) (j : Fin n) : α :=
  if row.pivot ≤ j then row.values[j] else 0

end PivotRow

namespace Elimination

variable {α : Type} [Arith α] [RealLike α]

section Parts

variable (f : LinearFactor α) (frontalCount : Nat) (rows : List (PivotRow α f.ab.full.cols))

-- The rows with a frontal pivot, each at the diagonal place of its pivot. A frontal column without
-- a row gets a zero row.
def frontalRows : BlockMatrix α :=
  { f.ab with full := Mat.ofFn (f.ab.offsetAt frontalCount) f.ab.full.cols fun i j =>
      ((PivotRow.find? rows i).map (·.entry j)).getD 0 }

def frontalSigmas : Array α :=
  Array.ofFn fun i : Fin (f.ab.offsetAt frontalCount) =>
    ((PivotRow.find? rows i).map (·.sigma)).getD 1

def conditionalOf : Outcome (Conditional α) := do
  return ⟨f.keys, frontalCount, frontalRows f frontalCount rows,
    ← NoiseModel.diagonal (frontalSigmas f frontalCount rows)⟩

def laterRows : List (PivotRow α f.ab.full.cols) :=
  rows.filter fun row => f.ab.offsetAt frontalCount ≤ row.pivot

def laterSigmas : Array α :=
  ((laterRows f frontalCount rows).map (·.sigma)).toArray

-- Only hard constraints need a model.
def remainingOf : Outcome (LinearFactor α) := do
  let later := (laterRows f frontalCount rows).map (·.values.drop (f.ab.offsetAt frontalCount))
  let ab ← BlockMatrix.ofMat (Mat.ofRows later) (f.ab.widths.drop frontalCount)
  let sigmas := laterSigmas f frontalCount rows
  let model ← if sigmas.any (· == 0) then some <$> NoiseModel.diagonal sigmas else pure none
  return ⟨f.keys.drop frontalCount, ab, model⟩

end Parts

end Elimination

variable {α : Type} [Arith α] [RealLike α]

-- Fails on the first frontal variable whose coefficients are all zero.
def requireInformative (f : LinearFactor α) (frontals : List Key) : Outcome Unit :=
  frontals.zipIdx.forM fun (k, pos) => do
    if (← f.blockAt pos).isZero then fail (.zeroFrontalBlock k)

def eliminate (factors : List (LinearFactor α)) (frontals : List Key)
    (settings : EliminationSettings α) : Outcome (Elimination α) := do
  if frontals.isEmpty then fail .noFrontals
  let f ← LinearFactor.combine factors frontals
  if !settings.allowFree then requireInformative f frontals
  let rows ← f.reduce settings
  let conditional ← Elimination.conditionalOf f frontals.length rows
  let remaining ← Elimination.remainingOf f frontals.length rows
  return ⟨conditional, remaining⟩

end LinearGaussian
