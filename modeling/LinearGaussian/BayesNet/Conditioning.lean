import LinearGaussian.BayesNet.Solve
import LinearGaussian.Conditional.Conditioning

namespace LinearGaussian.BayesNet

variable {α : Type} [Arith α] [RealLike α]

def conditionOn (n : BayesNet α) (saved : List Key) (solution : Assignment α) :
    Outcome (BayesNet α) := do
  match (Key.ascending saved).find? fun k => !n.keys.contains k with
  | some k => fail (.notInNet k)
  | none =>
    let conditioned ← n.conditionals.mapM (·.conditioned saved.contains solution)
    return ⟨conditioned.filterMap id⟩

def condition (n : BayesNet α) (saved : List Key) (solution : Assignment α) :
    Outcome (FactorGraph α) := do
  return (← n.conditionOn saved solution).toFactorGraph

-- The factors of the net conditioned on its own most likely values.
def summarize (n : BayesNet α) (saved : List Key) : Outcome (FactorGraph α) := do
  n.condition saved (← n.optimize)

end LinearGaussian.BayesNet
