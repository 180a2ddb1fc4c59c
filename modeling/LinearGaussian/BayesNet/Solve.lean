import LinearGaussian.BayesNet.Basic

namespace LinearGaussian.BayesNet

variable {α : Type} [Arith α] [RealLike α]

-- Assigns the most likely values to all frontal variables, from the last density to the first.
def optimizeInPlace (n : BayesNet α) : Edit (Assignment α) Unit :=
  n.conditionals.reverse.forM (·.solveInPlace)

def optimize (n : BayesNet α) : Outcome (Assignment α) :=
  n.optimizeInPlace.outcome ∅

def scaleFrontals (n : BayesNet α) : Edit (Assignment α) Unit :=
  n.conditionals.forM (·.scaleFrontals)

def backSubstitute (n : BayesNet α) (x : Assignment α) : Outcome (Assignment α) :=
  Edit.outcome (do
    n.conditionals.reverse.forM (·.solveWithRhs x)
    n.scaleFrontals) x

def backSubstituteTranspose (n : BayesNet α) (x : Assignment α) : Outcome (Assignment α) :=
  Edit.outcome (do
    n.conditionals.forM (·.solveTransposeInPlace)
    n.scaleFrontals) x

-- The best point on the line through zero along the gradient at zero.
def optimizeGradientSearch (n : BayesNet α) : Outcome (Assignment α) := do
  let graph := n.toFactorGraph
  let gradient ← graph.gradientAtZero
  let images ← graph.multiply gradient
  let curvature := images.foldl (fun s e => s + Vec.normSq e) 0
  if curvature == 0 then return gradient.zeroLike
  return gradient.scale (-gradient.normSq / curvature)

end LinearGaussian.BayesNet
