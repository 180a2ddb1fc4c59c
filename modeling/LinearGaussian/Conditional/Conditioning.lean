import LinearGaussian.Conditional.Basic

namespace LinearGaussian

inductive Conditioned (α : Type)
  -- No variable of the density was removed.
  | unchanged
  -- All frontal variables were removed.
  | dropped
  | reduced (c : Conditional α)

namespace Conditional

variable {α : Type} [Arith α] [RealLike α]

def keptPositions (c : Conditional α) (saved : Key → Bool) : List Nat :=
  (c.keys.zipIdx.filter fun (k, _) => saved k).map (·.2)

def rowsOf (c : Conditional α) (positions : List Nat) : List Nat :=
  positions.flatMap fun pos => List.range' (c.rsd.offsetAt pos) (c.rsd.widths.getD pos 0)

-- Takes the contribution of a variable with value `v` out of the right-hand side of the given rows.
def substitute (c : Conditional α) (rows : List Nat) (pos : Nat) (v : Array α) (d : List α) :
    List α :=
  (rows.zip d).map fun (i, a) =>
    Fin.foldl v.size
      (fun s j => s + c.rsd.full.entry i (c.rsd.offsetAt pos + j) * (-1 * v.toVector[j])) a

-- The density of the saved variables, given the values of all others. The rows of removed frontal
-- variables are left out, and what removed variables contribute to the other rows moves to the
-- right-hand side.
def conditionOn (c : Conditional α) (saved : Key → Bool) (solution : Assignment α) :
    Outcome (Conditioned α) := do
  if c.keys.all saved then return .unchanged
  let kept := c.keptPositions saved
  let keptFrontals := kept.filter (· < c.frontalCount)
  if keptFrontals.isEmpty then return .dropped
  let rows := c.rowsOf keptFrontals
  let removed := (c.keys.zip c.rsd.widths).zipIdx.filter fun ((k, _), _) => !saved k
  let d := rows.map fun i => c.rsd.full.entry i (c.rsd.offsetAt c.keys.length)
  let d ← removed.foldlM (fun d ((k, w), pos) => do
    let v ← solution.valueOf k w
    return c.substitute rows pos v d) d
  let widths := kept.map fun pos => c.rsd.widths.getD pos 0
  let rsd := BlockMatrix.ofFn rows.length (widths ++ [1]) fun i j =>
    endToEnd (d.getD i 0)
      (kept.map fun pos =>
        (c.rsd.widths.getD pos 0, fun l => c.rsd.full.entry rows[i] (c.rsd.offsetAt pos + l))) j
  let model ← NoiseModel.diagonal (← rows.mapM c.model.sigma).toArray
  let keys := c.keys.filter saved
  return .reduced (← ofParts keys keptFrontals.length rsd model)

def conditioned (c : Conditional α) (saved : Key → Bool) (solution : Assignment α) :
    Outcome (Option (Conditional α)) := do
  match ← c.conditionOn saved solution with
  | .unchanged => return some c
  | .dropped => return none
  | .reduced c => return some c

end Conditional
end LinearGaussian
