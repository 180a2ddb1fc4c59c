import LinearGaussian.Dense.Vec
import LinearGaussian.Key.Order

namespace LinearGaussian

abbrev Assignment (α : Type) := KeyMap (Array α)

namespace Assignment

variable {α : Type}

def value (x : Assignment α) (k : Key) : Outcome (Array α) :=
  match x.get? k with
  | some v => .ok v
  | none => fail (.missingValue k)

def valueOf (x : Assignment α) (k : Key) (dim : Nat) : Outcome (Array α) := do
  let v ← value x k
  if v.size = dim then return v else fail (.dimensionMismatch k dim v.size)

-- Replaces entry `i` of the value of `k`. A variable without a value is left without one.
def setEntry (x : Assignment α) (k : Key) (i : Nat) (a : α) : Outcome (Assignment α) :=
  match x.get? k with
  | some v => return x.insert k (← Vec.write v i a)
  | none => .ok x

def stacked (x : Assignment α) (order : EliminationOrder) : Outcome (Array α) := do
  return Vec.concat (← order.keys.mapM (value x))

section Arith

variable [Arith α]

def zeros (dims : List (Key × Nat)) : Assignment α :=
  KeyMap.ofList (dims.map fun (k, d) => (k, Vec.zeros d))

def zeroLike (x : Assignment α) : Assignment α :=
  x.map fun v => Vec.zeros v.size

def scale (x : Assignment α) (s : α) : Assignment α :=
  x.map fun v => Vec.scale v s

-- The sum of the inner products over the variables that both assign.
def dot (x y : Assignment α) : Outcome α :=
  x.entries.foldlM (fun s (k, v) =>
    match y.get? k with
    | some w => return s + (← Vec.dot v w)
    | none => return s) 0

def normSq (x : Assignment α) : α :=
  x.entries.foldl (fun s e => s + Vec.normSq e.2) 0

-- Combines the values of each variable. Both sides have to assign the same variables in the same
-- dimensions.
def zipWith (f : Array α → Array α → Outcome (Array α)) (x y : Assignment α) :
    Outcome (Assignment α) :=
  match y.keys.find? fun k => !x.contains k with
  | some k => fail (.missingValue k)
  | none => do
    let entries ← x.entries.mapM fun (k, v) => do
      let w ← valueOf y k v.size
      return (k, ← f v w)
    return KeyMap.ofList entries

def add (x y : Assignment α) : Outcome (Assignment α) :=
  zipWith Vec.add x y

def sub (x y : Assignment α) : Outcome (Assignment α) :=
  zipWith Vec.sub x y

variable [RealLike α]

def norm (x : Assignment α) : α :=
  RealLike.sqrt (normSq x)

def maxAbsDiff (x y : Assignment α) : Outcome α :=
  x.entries.foldlM (fun s (k, v) =>
    match y.get? k with
    | some w => return RealLike.max s (← Vec.maxAbsDiff v w)
    | none => return s) 0

end Arith
end Assignment
end LinearGaussian
