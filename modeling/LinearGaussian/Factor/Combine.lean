import LinearGaussian.Factor.Linear

namespace LinearGaussian

-- Variables with their dimensions, in order of first appearance.
abbrev Widths := List (Key × Nat)

namespace Widths

-- Records an occurrence of a variable. All occurrences have to have the dimension of the first.
def add (ws : Widths) (k : Key) (d : Nat) : Outcome Widths :=
  match KeyMap.lookup k ws with
  | some d' => if d' = d then .ok ws else fail (.dimensionMismatch k d' d)
  | none => .ok (ws ++ [(k, d)])

def ofOccurrences (occurrences : List (Key × Nat)) : Outcome Widths :=
  occurrences.foldlM (fun ws (k, d) => ws.add k d) []

def keys (ws : Widths) : List Key :=
  ws.map (·.1)

def reorder (ws : Widths) (order : List Key) : Widths :=
  order.filterMap (fun k => (KeyMap.lookup k ws).map (k, ·)) ++
    ws.filter fun w => !order.contains w.1

end Widths

namespace LinearFactor

variable {α : Type} [Arith α]

def coefficient (f : LinearFactor α) (k : Key) (i j : Nat) : α :=
  match f.position? k with
  | some pos => f.ab.full.entry i (f.ab.offsetAt pos + j)
  | none => 0

-- Row `i` of the factor, spread over the columns of the given variables and one column for the
-- right-hand side.
def spread (f : LinearFactor α) (ws : Widths) (i : Nat) : Nat → α :=
  endToEnd (f.ab.full.entry i (f.ab.offsetAt f.keys.length))
    (ws.map fun (k, d) => (d, f.coefficient k i))

def sigmas (f : LinearFactor α) : Array α :=
  match f.model with
  | some m => m.sigmas
  | none => Vec.fill f.rows 1

def stacked (factors : List (LinearFactor α)) (ws : Widths) : BlockMatrix α :=
  BlockMatrix.ofFn (factors.map rows).sum (ws.map (·.2) ++ [1]) fun i j =>
    endToEnd (fun _ => 0) (factors.map fun f => (f.rows, f.spread ws)) i.val j.val

variable [RealLike α]

-- The rows of all factors on top of each other, over the variables of `order` first and then all
-- others in order of first appearance.
def combine (factors : List (LinearFactor α)) (order : List Key) : Outcome (LinearFactor α) := do
  requireDistinct order
  let widths ← Widths.ofOccurrences (factors.flatMap dims)
  match order.find? fun k => !widths.keys.contains k with
  | some k => fail (.unknownVariable k)
  | none => pure ()
  let widths := widths.reorder order
  let model ←
    if factors.any (·.model.isSome) then
      some <$> NoiseModel.diagonal (Vec.concat (factors.map sigmas))
    else pure none
  return ⟨widths.keys, stacked factors widths, model⟩

end LinearFactor
end LinearGaussian
