import LinearGaussian.Assignment
import LinearGaussian.Dense.Blocks
import LinearGaussian.Noise

namespace LinearGaussian

structure LinearFactor (α : Type) where
  keys : List Key
  ab : BlockMatrix α
  model : Option (NoiseModel α)

namespace LinearFactor

variable {α : Type}

instance [BEq α] : BEq (LinearFactor α) where
  beq f g := f.keys == g.keys && f.ab == g.ab && f.model == g.model

def rows (f : LinearFactor α) : Nat :=
  f.ab.rows

def isEmpty (f : LinearFactor α) : Bool :=
  f.rows = 0

def position? (f : LinearFactor α) (k : Key) : Option Nat :=
  f.keys.idxOf? k

def dims (f : LinearFactor α) : List (Key × Nat) :=
  f.keys.zip f.ab.widths

def dim? (f : LinearFactor α) (k : Key) : Option Nat :=
  (f.position? k).bind (f.ab.widths[·]?)

def blockAt (f : LinearFactor α) (pos : Nat) : Outcome (Window α) :=
  if pos < f.keys.length then f.ab.block pos else violated $ .variableIndex f.keys.length pos

def blockFor? (f : LinearFactor α) (k : Key) : Outcome (Option (Window α)) :=
  match f.position? k with
  | some pos => return some (← f.ab.block pos)
  | none => return none

def checkModel (model : Option (NoiseModel α)) (rows : Nat) : Outcome Unit :=
  match model with
  | some m => if m.dim = rows then .ok () else fail (.rowMismatch rows m.dim)
  | none => .ok ()

def checkTerms (rows : Nat) : List Key → List (Key × Mat α) → Outcome Unit
  | _, [] => .ok ()
  | seen, (k, a) :: terms =>
    if k ∈ seen then fail (.duplicateKey k)
    else if a.rows = rows then checkTerms rows (k :: seen) terms
    else fail (.rowMismatch rows a.rows)

def ofBlocks (keys : List Key) (ab : BlockMatrix α) (model : Option (NoiseModel α)) :
    Outcome (LinearFactor α) := do
  if ab.count ≠ keys.length + 1 ∨ ab.widths[keys.length]? ≠ some 1 then
    fail (.rowMismatch (keys.length + 1) ab.count)
  requireDistinct keys
  checkModel model ab.rows
  return ⟨keys, ab, model⟩

-- The factor without variables, which says nothing about any assignment.
def ofRhs (b : Array α) : LinearFactor α :=
  ⟨[], BlockMatrix.ofFn b.size [1] fun i _ => b.toVector[i], none⟩

def empty : LinearFactor α :=
  ofRhs #[]

section Arith

variable [Arith α]

def b (f : LinearFactor α) : Array α :=
  Array.ofFn fun i : Fin f.rows => f.ab.full.entry i (f.ab.offsetAt f.keys.length)

def ofTerms (terms : List (Key × Mat α)) (b : Array α) (model : Option (NoiseModel α)) :
    Outcome (LinearFactor α) := do
  checkTerms b.size [] terms
  checkModel model b.size
  let ab := BlockMatrix.ofFn b.size (terms.map (·.2.cols) ++ [1]) fun i j =>
    endToEnd b.toVector[i] (terms.map fun (_, a) => (a.cols, a.entry i)) j
  return ⟨terms.map (·.1), ab, model⟩

def addBlock (f : LinearFactor α) (x : Assignment α) (y : Array α) (t : Key × Nat) :
    Outcome (Array α) := do
  let a ← f.ab.block t.2
  let v ← x.valueOf t.1 a.cols
  a.addMulVec 1 v y

def addImage (f : LinearFactor α) (x : Assignment α) (y : Array α) : Outcome (Array α) :=
  f.keys.zipIdx.foldlM (f.addBlock x) y

def unweightedError (f : LinearFactor α) (x : Assignment α) : Outcome (Array α) :=
  f.addImage x (Vec.scale f.b (-1))

variable [RealLike α]

def whitenVec (f : LinearFactor α) (v : Array α) : Outcome (Array α) :=
  match f.model with
  | some m => m.whiten v
  | none => .ok v

def errorVector (f : LinearFactor α) (x : Assignment α) : Outcome (Array α) := do
  f.whitenVec (← f.unweightedError x)

-- Half of the squared length of the error vector. A factor without rows is not asked for values.
def error (f : LinearFactor α) (x : Assignment α) : Outcome α := do
  if f.rows = 0 then return 0
  return half * Vec.normSq (← f.errorVector x)

def multiply (f : LinearFactor α) (x : Assignment α) : Outcome (Array α) := do
  f.whitenVec (← f.addImage x (Vec.zeros f.rows))

def addTrBlock (f : LinearFactor α) (alpha : α) (e : Array α) (x : Assignment α) (t : Key × Nat) :
    Outcome (Assignment α) := do
  let a ← f.ab.block t.2
  return x.insert t.1 (← a.addTrMulVec alpha e ((x.get? t.1).getD (Vec.zeros a.cols)))

-- Adds `alpha (W A)ᵀ e` to `x`. A variable that `x` does not assign starts from zero.
def transposeMultiplyAdd (f : LinearFactor α) (alpha : α) (e : Array α) (x : Assignment α) :
    Outcome (Assignment α) := do
  require (e.size = f.rows) .transposeLength
  let e ← f.whitenVec e
  f.keys.zipIdx.foldlM (f.addTrBlock alpha e) x

def gradientAdd (f : LinearFactor α) (x g : Assignment α) : Outcome (Assignment α) := do
  f.transposeMultiplyAdd 1 (← f.errorVector x) g

def whitenedBody (f : LinearFactor α) : Dense α f.ab.full.rows f.ab.full.cols :=
  match f.model with
  | some m => m.whitened f.ab.full.body
  | none => f.ab.full.body

-- Like `whitenedBody`, for a model that has to have a deviation for each row.
def whitenBody (f : LinearFactor α) : Outcome (Dense α f.ab.full.rows f.ab.full.cols) :=
  match f.model with
  | some m => m.whitenBody f.ab.full.body
  | none => .ok f.ab.full.body

def augmentedJacobian (f : LinearFactor α) (whiten : Bool) : Mat α :=
  if whiten then ⟨f.ab.full.rows, f.ab.full.cols, f.whitenedBody⟩ else f.ab.full

def jacobian (f : LinearFactor α) (whiten : Bool) : Mat α × Array α :=
  let ab := f.augmentedJacobian whiten
  let n := ab.cols - 1
  (Mat.ofFn ab.rows n fun i j => ab.entry i j, Array.ofFn fun i : Fin ab.rows => ab.entry i n)

def information (f : LinearFactor α) : Mat α :=
  (f.jacobian true).1.gram

def augmentedInformation (f : LinearFactor α) : Mat α :=
  (f.augmentedJacobian true).gram

def whitenInformation (f : LinearFactor α) : Outcome (Mat α) := do
  return Mat.gram ⟨f.ab.full.rows, f.ab.full.cols, ← f.whitenBody⟩

def isConstrained (f : LinearFactor α) : Bool :=
  match f.model with
  | some m => m.isConstrained
  | none => false

-- The same factor with unit deviations. Hard constraints stay hard constraints.
def whiten (f : LinearFactor α) : LinearFactor α where
  keys := f.keys
  ab := { f.ab with full := ⟨f.ab.full.rows, f.ab.full.cols, f.whitenedBody⟩ }
  model := match f.model with
    | some m =>
      if m.isConstrained then some ⟨m.sigmas.map fun s => if s == 0 then 0 else 1⟩ else none
    | none => none

end Arith
end LinearFactor
end LinearGaussian
