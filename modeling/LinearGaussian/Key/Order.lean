import LinearGaussian.Fault
import LinearGaussian.Key.Map

namespace LinearGaussian

structure EliminationOrder where
  keys : List Key
  nodup : keys.Nodup

namespace EliminationOrder

def ofKeys (keys : List Key) : Outcome EliminationOrder :=
  match h : Key.firstRepeat? keys with
  | some k => fail (.duplicateKey k)
  | none => .ok ⟨keys, Key.firstRepeat?_eq_none_iff.mp h⟩

def natural (keys : List Key) : EliminationOrder :=
  ⟨Key.ascending keys, KeyMap.keys_nodup _⟩

def empty : EliminationOrder :=
  ⟨[], .nil⟩

def size (o : EliminationOrder) : Nat :=
  o.keys.length

def isEmpty (o : EliminationOrder) : Bool :=
  o.keys.isEmpty

def contains (o : EliminationOrder) (k : Key) : Bool :=
  o.keys.contains k

def position? (o : EliminationOrder) (k : Key) : Option Nat :=
  o.keys.idxOf? k

end EliminationOrder
end LinearGaussian
