import LinearGaussian.Conditional.Solve
import LinearGaussian.Graph.Basic

namespace LinearGaussian

structure BayesNet (α : Type) where
  conditionals : List (Conditional α)

namespace BayesNet

variable {α : Type}

def empty : BayesNet α :=
  ⟨[]⟩

def push (n : BayesNet α) (c : Conditional α) : BayesNet α :=
  ⟨n.conditionals ++ [c]⟩

def size (n : BayesNet α) : Nat :=
  n.conditionals.length

def isEmpty (n : BayesNet α) : Bool :=
  n.conditionals.isEmpty

def get? (n : BayesNet α) (i : Nat) : Option (Conditional α) :=
  n.conditionals[i]?

-- The frontal variables, in the order in which they were eliminated.
def order (n : BayesNet α) : Outcome EliminationOrder :=
  EliminationOrder.ofKeys (n.conditionals.flatMap (·.frontals))

def keys (n : BayesNet α) : List Key :=
  Key.ascending (n.conditionals.flatMap (·.keys))

variable [Arith α] [RealLike α]

def toFactorGraph (n : BayesNet α) : FactorGraph α :=
  ⟨n.conditionals.map fun c => .linear c.toFactor⟩

def error (n : BayesNet α) (x : Assignment α) : Outcome α :=
  n.toFactorGraph.error x

def gradient (n : BayesNet α) (x : Assignment α) : Outcome (Assignment α) :=
  n.toFactorGraph.gradient x

def gradientAtZero (n : BayesNet α) : Outcome (Assignment α) :=
  n.toFactorGraph.gradientAtZero

def logDeterminant (n : BayesNet α) : α :=
  n.conditionals.foldl (fun s c => s + c.logDeterminant) 0

def determinant (n : BayesNet α) : α :=
  let diagonal := n.conditionals.flatMap (·.diagonal)
  if diagonal.any (· == 0) then 0
  else
    let magnitude := RealLike.exp n.logDeterminant
    if diagonal.foldl (fun negative a => negative ^^ (a < 0 : Bool)) false then
      -magnitude
    else magnitude

end BayesNet
end LinearGaussian
