namespace LinearGaussian

class Arith (α : Type) extends Zero α, One α, Neg α, Add α, Sub α, Mul α, Div α

class RealLike (α : Type) extends BEq α, LT α, LE α where
  decLt : DecidableLT α
  decLe : DecidableLE α
  abs : α → α
  -- The larger of two scalars. An argument that is not a number is passed over.
  max : α → α → α
  sqrt : α → α
  ln : α → α
  exp : α → α
  isFinite : α → Bool
  isInfinite : α → Bool
  ofNat : Nat → α
  -- The distance from one to the next larger scalar.
  epsilon : α

instance decidableLT {α : Type} [RealLike α] : DecidableLT α := RealLike.decLt

instance decidableLE {α : Type} [RealLike α] : DecidableLE α := RealLike.decLe

class Tolerances (α : Type) where
  -- A smaller coefficient counts as zero.
  zero : α
  -- A smaller precision carries no information.
  rank : α

variable {α : Type} [Arith α]

def half : α := 1 / (1 + 1)

def two : α := 1 + 1

end LinearGaussian
