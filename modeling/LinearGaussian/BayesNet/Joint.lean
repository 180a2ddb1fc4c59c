import LinearGaussian.BayesNet.Basic

namespace LinearGaussian.BayesNet

variable {α : Type}

def offsets (n : BayesNet α) : KeyMap Nat × Nat :=
  n.conditionals.foldl (fun acc c =>
    (c.frontals.zip c.rsd.widths).foldl (fun (m, stop) (k, d) => (m.insert k stop, stop + d)) acc)
      (∅, 0)

-- Where a block of a density is placed: its first column in the density, its first joint column and
-- its width.
structure Placement where
  source : Nat
  target : Nat
  width : Nat

def placeBlock (offsets : KeyMap Nat) (side : Nat) (c : Conditional α) (k : Key) (width pos : Nat) :
    Outcome Placement :=
  match offsets.get? k with
  | none => fail (.notInNet k)
  | some target => do
    require (c.rows = 0 || width = 0 || target + width ≤ side) .outOfRange
    return ⟨c.rsd.offsetAt pos, target, width⟩

def placements (offsets : KeyMap Nat) (side : Nat) (c : Conditional α) : Outcome (List Placement) :=
  (c.keys.zip c.rsd.widths).zipIdx.mapM fun ((k, width), pos) =>
    placeBlock offsets side c k width pos

variable [Arith α] [RealLike α]

-- Row `i` of a density over the joint columns. Of two blocks at the same place, the later one
-- stands.
def placedRow (c : Conditional α) (ps : List Placement) (i : Nat) (j : Nat) : α :=
  ps.foldl (fun a p =>
    if p.target ≤ j ∧ j < p.target + p.width then
      c.rsd.full.entry i (p.source + (j - p.target)) * c.model.weight i
    else a) 0

def matrix (n : BayesNet α) : Outcome (Mat α × Array α) := do
  let (offsets, side) := n.offsets
  let placed ← n.conditionals.mapM fun c => do return (c, ← placements offsets side c)
  let r := Mat.ofFn side side fun i j =>
    endToEnd (fun _ => 0) (placed.map fun (c, ps) => (c.rows, placedRow c ps)) i.val j.val
  let d := Vec.concat (n.conditionals.map fun c => c.d.mapIdx fun i a => a * c.model.weight i)
  return (r, d)

end LinearGaussian.BayesNet
