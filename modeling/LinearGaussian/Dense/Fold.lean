import LinearGaussian.Scalar.Basic

namespace LinearGaussian

def foldWhere {β : Type} {n : Nat} (p : Fin n → Bool) (step : β → Fin n → β) (init : β) : β :=
  Fin.foldl n (fun b i => if p i then step b i else b) init

def dot {α : Type} [Arith α] {n : Nat} (a b : Fin n → α) : α :=
  Fin.foldl n (fun s i => s + a i * b i) 0

end LinearGaussian
