import LinearGaussian.Graph.Basic

namespace LinearGaussian.FactorGraph

variable {α : Type} [Arith α] [RealLike α]

def augmentedJacobian (g : FactorGraph α) (order : EliminationOrder) : Outcome (Mat α) := do
  g.checkCovers order
  let f ← LinearFactor.combine (g.factors.map (·.toLinear)) order.keys
  return ⟨f.ab.full.rows, f.ab.full.cols, ← f.whitenBody⟩

def offsets (dims : KeyMap Nat) : Nat → List Key → KeyMap Nat × Nat
  | n, [] => (∅, n)
  | n, k :: ks =>
    let (rest, stop) := offsets dims (n + (dims.get? k).getD 0) ks
    (rest.insert k n, stop)

-- The columns of the joint matrix that belong to the columns of a factor. The last one is the
-- right-hand side.
def columnsOf (offsets : KeyMap Nat) (n : Nat) (f : Factor α) : List Nat :=
  f.dims.flatMap (fun (k, d) => List.range' ((offsets.get? k).getD 0) d) ++ [n]

def addEntry (i j : Nat) (s : α) : List Nat × Mat α → α := fun (columns, info) =>
  match columns.idxOf? i, columns.idxOf? j with
  | some li, some lj => s + info.entry li lj
  | _, _ => s

def augmentedInformation (g : FactorGraph α) (order : EliminationOrder) : Outcome (Mat α) := do
  g.checkCovers order
  let dims ← g.dims
  let (offsets, n) := offsets dims 0 order.keys
  let parts ← g.factors.mapM fun f => do return (columnsOf offsets n f, ← f.whitenInformation)
  return Mat.ofFn (n + 1) (n + 1) fun i j => parts.foldl (addEntry i.val j.val) 0

end LinearGaussian.FactorGraph
