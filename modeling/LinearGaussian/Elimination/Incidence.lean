import LinearGaussian.Factor.Basic

namespace LinearGaussian

structure Incidence where
  slotsOf : KeyMap (List Nat)

namespace Incidence

def empty : Incidence :=
  ⟨∅⟩

def slots (t : Incidence) (k : Key) : List Nat :=
  (t.slotsOf.get? k).getD []

def add (t : Incidence) (slot : Nat) (keys : List Key) : Incidence :=
  keys.foldl (fun t k => ⟨t.slotsOf.insert k (t.slots k ++ [slot])⟩) t

def erase (t : Incidence) (k : Key) : Incidence :=
  ⟨t.slotsOf.erase k⟩

def size (t : Incidence) : Nat :=
  t.slotsOf.size

def isEmpty (t : Incidence) : Bool :=
  t.slotsOf.isEmpty

def ofFactors {α : Type} (factors : List (Factor α)) : Incidence :=
  factors.zipIdx.foldl (fun t (f, slot) => t.add slot f.keys) empty

end Incidence
end LinearGaussian
