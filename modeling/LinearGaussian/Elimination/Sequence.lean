import LinearGaussian.BayesNet.Solve
import LinearGaussian.Elimination.Incidence
import LinearGaussian.Elimination.Step

namespace LinearGaussian

-- The factors that are left and the densities found so far.
structure EliminationState (α : Type) where
  pool : Array (Option (Factor α))
  incidence : Incidence
  conditionals : List (Conditional α)

namespace EliminationState

variable {α : Type}

def ofGraph (g : FactorGraph α) : EliminationState α :=
  ⟨(g.factors.map some).toArray, Incidence.ofFactors g.factors, []⟩

def remaining (s : EliminationState α) : FactorGraph α :=
  ⟨s.pool.toList.filterMap id⟩

def net (s : EliminationState α) : BayesNet α :=
  ⟨s.conditionals⟩

def take (s : EliminationState α) (k : Key) : List (Factor α) × EliminationState α :=
  let slots := s.incidence.slots k
  (slots.filterMap fun slot => s.pool[slot]?.join,
    { s with
      pool := slots.foldl (·.setIfInBounds · none) s.pool, incidence := s.incidence.erase k })

def push (s : EliminationState α) (f : Factor α) : EliminationState α :=
  { s with pool := s.pool.push (some f), incidence := s.incidence.add s.pool.size f.keys }

-- Puts what remains of an elimination into a new slot, if it is about any variable.
def put (s : EliminationState α) (f : LinearFactor α) : EliminationState α :=
  if f.keys.isEmpty then s else s.push (.linear f)

def record (s : EliminationState α) (r : Elimination α) : EliminationState α :=
  ({ s with conditionals := s.conditionals ++ [r.conditional] }).put r.remaining

variable [Arith α] [RealLike α]

def step (settings : EliminationSettings α) (s : EliminationState α) (k : Key) :
    Outcome (EliminationState α) := do
  let (gathered, s) := s.take k
  if gathered.isEmpty then fail (.unknownVariable k)
  let result ← eliminate (gathered.map (·.toLinear)) [k] settings
  return s.record result

end EliminationState

namespace FactorGraph

variable {α : Type} [Arith α] [RealLike α]

def eliminatePartial (g : FactorGraph α) (order : EliminationOrder)
    (settings : EliminationSettings α) : Outcome (BayesNet α × FactorGraph α) := do
  let s ← order.keys.foldlM (EliminationState.step settings) (EliminationState.ofGraph g)
  return (s.net, s.remaining)

def eliminate (g : FactorGraph α) (order : EliminationOrder) (settings : EliminationSettings α) :
    Outcome (BayesNet α) := do
  g.checkCovers order
  return (← g.eliminatePartial order settings).1

def optimize (g : FactorGraph α) (order : EliminationOrder) (settings : EliminationSettings α) :
    Outcome (Assignment α) := do
  (← g.eliminate order settings).optimize

-- The factors on the saved variables that remain when all others have been eliminated.
def summarize (g : FactorGraph α) (saved : List Key) (settings : EliminationSettings α) :
    Outcome (FactorGraph α) := do
  match (Key.ascending saved).find? fun k => !g.keys.contains k with
  | some k => fail (.unknownVariable k)
  | none =>
    return (← g.eliminatePartial (.natural (g.keys.filter fun k => !saved.contains k)) settings).2

end FactorGraph
end LinearGaussian
