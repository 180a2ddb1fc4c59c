import LinearGaussian.Dense.Mat

namespace LinearGaussian

variable {α : Type} [Arith α] [RealLike α] {m n : Nat}

inductive Precision (α : Type)
  -- A hard constraint fixes it.
  | infinite
  -- The sum of `a² / σ²` over the noisy rows.
  | finite (value : α)

namespace Precision

def below (p : Precision α) (tolerance : α) : Bool :=
  match p with
  | infinite => false
  | finite value => value < tolerance

end Precision

structure Pseudoinverse (α : Type) (m : Nat) where
  precision : Precision α
  weights : Vector α m

namespace Pseudoinverse

-- The pseudo-inverse of the column `a`. The first hard constraint with a usable coefficient decides
-- alone. Without one, the noisy rows with a usable coefficient are combined by their precision.
def ofColumn (a sigmas : Fin m → α) (zeroTol rankTol : α) : Pseudoinverse α m :=
  match (List.finRange m).find? fun i => sigmas i == 0 && zeroTol ≤ RealLike.abs (a i) with
  | some i => ⟨.infinite, Vector.ofFn fun k => if k = i then 1 / a i else 0⟩
  | none =>
    let noisy (i : Fin m) : Bool := 0 < sigmas i && zeroTol ≤ RealLike.abs (a i)
    let precision := foldWhere noisy (fun s i => s + a i * a i / (sigmas i * sigmas i)) 0
    if precision < rankTol then ⟨.finite precision, Vector.ofFn fun _ => 0⟩
    else ⟨.finite precision,
      Vector.ofFn fun i => if noisy i then a i / (sigmas i * sigmas i) / precision else 0⟩

end Pseudoinverse

-- A column solved for: `values` is zero before `col` and one at it.
structure WeightedRow (α : Type) (n : Nat) where
  col : Fin n
  values : Vector α n
  precision : Precision α

structure WeightedReduction (α : Type) (m n : Nat) where
  body : Dense α m n
  rows : List (WeightedRow α n)

namespace WeightedReduction

-- Solves for the column `col`, unless there are `maxRank` rows already or the column is not
-- informative.
def step (sigmas : Fin m → α) (zeroTol rankTol : α) (maxRank : Nat) (s : WeightedReduction α m n)
    (col : Fin n) : WeightedReduction α m n :=
  if s.rows.length < maxRank then
    let p := Pseudoinverse.ofColumn (fun i => s.body i col) sigmas zeroTol rankTol
    if p.precision.below rankTol then s
    else
      let values : Vector α n := Vector.ofFn fun k =>
        if k = col then 1
        else if col < k then dot (fun i => p.weights[i]) (fun i => s.body i k)
        else 0
      let body := Dense.ofFn fun i k =>
        if col < k ∧ values[k] != 0 then s.body i k - s.body i col * values[k] else s.body i k
      ⟨body, s.rows ++ [⟨col, values, p.precision⟩]⟩
  else s

end WeightedReduction

def weightedReduce (a : Dense α m n) (sigmas : Fin m → α) (count : Nat) (zeroTol rankTol : α) :
    WeightedReduction α m n :=
  foldWhere (fun col => col.val < count)
    (WeightedReduction.step sigmas zeroTol rankTol (min m count)) ⟨a, []⟩

def Mat.weightedReduce (a : Mat α) (sigmas : Array α) (count : Nat) (zeroTol rankTol : α) :
    Outcome (WeightedReduction α a.rows a.cols) := do
  let sigmas ← Vec.sized sigmas a.rows .sigmaPerRow
  require (count ≤ a.cols) (.reducedColumns count a.cols)
  return LinearGaussian.weightedReduce a.body (fun i => sigmas[i]) count zeroTol rankTol

def Vec.pseudoinverse (a sigmas : Array α) (slots : Nat) (zeroTol rankTol : α) :
    Outcome (Pseudoinverse α a.size) := do
  let sigmas ← Vec.sized sigmas a.size .pseudoinverseSigmas
  require (a.size = slots) .pseudoinverseOutput
  return Pseudoinverse.ofColumn (fun i => a.toVector[i]) (fun i => sigmas[i]) zeroTol rankTol

end LinearGaussian
