import LinearGaussian.Factor.Combine
import LinearGaussian.Factor.Information

namespace LinearGaussian

inductive Factor (α : Type)
  | linear (f : LinearFactor α)
  | information (h : InformationFactor α)

namespace Factor

variable {α : Type}

instance [BEq α] : BEq (Factor α) where
  beq
    | linear f, linear g => f == g
    | information f, information g => f == g
    | _, _ => false

def keys : Factor α → List Key
  | linear f => f.keys
  | information h => h.keys

def dims : Factor α → List (Key × Nat)
  | linear f => f.dims
  | information h => h.dims

variable [Arith α] [RealLike α]

def isEmpty : Factor α → Bool
  | linear f => f.isEmpty
  | information h => h.isEmpty

def error : Factor α → Assignment α → Outcome α
  | linear f => f.error
  | information h => h.error

def gradientAdd : Factor α → Assignment α → Assignment α → Outcome (Assignment α)
  | linear f => f.gradientAdd
  | information h => h.gradientAdd

def augmentedInformation : Factor α → Mat α
  | linear f => f.augmentedInformation
  | information h => h.augmentedInformation

def whitenInformation : Factor α → Outcome (Mat α)
  | linear f => f.whitenInformation
  | information h => .ok h.augmentedInformation

def toLinear : Factor α → LinearFactor α
  | linear f => f
  | information h => h.toLinear

end Factor
end LinearGaussian
