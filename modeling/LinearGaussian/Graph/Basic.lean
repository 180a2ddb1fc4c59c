import LinearGaussian.Factor.Basic

namespace LinearGaussian

structure FactorGraph (α : Type) where
  factors : List (Factor α)

namespace FactorGraph

variable {α : Type}

def empty : FactorGraph α :=
  ⟨[]⟩

def push (g : FactorGraph α) (f : Factor α) : FactorGraph α :=
  ⟨g.factors ++ [f]⟩

def size (g : FactorGraph α) : Nat :=
  g.factors.length

def isEmpty (g : FactorGraph α) : Bool :=
  g.factors.isEmpty

def get? (g : FactorGraph α) (i : Nat) : Option (Factor α) :=
  g.factors[i]?

def set (g : FactorGraph α) (i : Nat) (f : Factor α) : FactorGraph α :=
  ⟨g.factors.set i f⟩

def keys (g : FactorGraph α) : List Key :=
  Key.ascending (g.factors.flatMap (·.keys))

def dims (g : FactorGraph α) : Outcome (KeyMap Nat) := do
  return KeyMap.ofList (← Widths.ofOccurrences (g.factors.flatMap (·.dims)))

-- An order covers a graph if it names its variables and no others.
def checkCovers (g : FactorGraph α) (order : EliminationOrder) : Outcome Unit :=
  match order.keys.find? fun k => !g.keys.contains k with
  | some k => fail (.unknownVariable k)
  | none =>
    match g.keys.find? fun k => !order.contains k with
    | some k => fail (.incompleteOrder k)
    | none => .ok ()

variable [Arith α] [RealLike α]

def addTerms (g : FactorGraph α) (terms : List (Key × Mat α)) (b : Array α)
    (model : Option (NoiseModel α)) : Outcome (FactorGraph α) := do
  return g.push (.linear (← LinearFactor.ofTerms terms b model))

def error (g : FactorGraph α) (x : Assignment α) : Outcome α :=
  g.factors.foldlM (fun s f => return s + (← f.error x)) 0

def gradient (g : FactorGraph α) (x : Assignment α) : Outcome (Assignment α) := do
  let dims ← g.dims
  g.factors.foldlM (fun gradient f => f.gradientAdd x gradient) (Assignment.zeros dims.entries)

def gradientAtZero (g : FactorGraph α) : Outcome (Assignment α) := do
  let dims ← g.dims
  g.gradient (Assignment.zeros dims.entries)

def multiply (g : FactorGraph α) (x : Assignment α) : Outcome (List (Array α)) :=
  g.factors.mapM fun f => f.toLinear.multiply x

def transposeMultiplyAdd (g : FactorGraph α) (alpha : α) (errors : List (Array α))
    (x : Assignment α) : Outcome (Assignment α) := do
  require (errors.length = g.factors.length) .errorPerFactor
  (g.factors.zip errors).foldlM (fun x (f, e) => f.toLinear.transposeMultiplyAdd alpha e x) x

end FactorGraph
end LinearGaussian
