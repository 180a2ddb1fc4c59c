import LinearGaussian.Dense.Mat

namespace LinearGaussian

structure NoiseModel (α : Type) where
  sigmas : Array α

namespace NoiseModel

variable {α : Type}

instance [BEq α] : BEq (NoiseModel α) where
  beq m n := m.sigmas == n.sigmas

def dim (m : NoiseModel α) : Nat :=
  m.sigmas.size

def sigma (m : NoiseModel α) (row : Nat) : Outcome α :=
  inRange m.sigmas[row]?

def rows (m : NoiseModel α) (start len : Nat) : Outcome (NoiseModel α) := do
  return ⟨← Vec.segment m.sigmas start len⟩

variable [Arith α]

def unit (dim : Nat) : NoiseModel α :=
  ⟨Vec.fill dim 1⟩

def constrained (dim : Nat) : NoiseModel α :=
  ⟨Vec.fill dim 0⟩

variable [RealLike α]

def admissible (s : α) : Bool :=
  0 ≤ s && RealLike.isFinite s

def diagonal (sigmas : Array α) : Outcome (NoiseModel α) :=
  match sigmas.findIdx? fun s => !admissible s with
  | some row => violated (.sigma row)
  | none => .ok ⟨sigmas⟩

def isotropic (dim : Nat) (sigma : α) : Outcome (NoiseModel α) :=
  diagonal (Vec.fill dim sigma)

-- The deviation with a given precision. An infinite precision makes a hard constraint.
def ofPrecision (p : α) : α :=
  if RealLike.isInfinite p then 0 else 1 / RealLike.sqrt p

def ofPrecisions (precisions : Array α) : Outcome (NoiseModel α) :=
  diagonal (precisions.map ofPrecision)

def weightOf (s : α) : α :=
  if s == 0 then 1 else 1 / s

-- By what whitening multiplies a row. A row without a deviation counts as it is.
def weight (m : NoiseModel α) (row : Nat) : α :=
  match m.sigmas[row]? with
  | some s => weightOf s
  | none => 1

def rowWeight (m : NoiseModel α) (row : Nat) : Outcome α := do
  return weightOf (← m.sigma row)

def isConstrainedRow (m : NoiseModel α) (row : Nat) : Outcome Bool := do
  return (← m.sigma row) == 0

def isConstrained (m : NoiseModel α) : Bool :=
  m.sigmas.any (· == 0)

def isUnit (m : NoiseModel α) : Bool :=
  m.sigmas.all (· == 1)

def whiten (m : NoiseModel α) (v : Array α) : Outcome (Array α) := do
  require (v.size = m.dim) .whitenLength
  return v.mapIdx fun i x => x * m.weight i

def scaleBySigma (m : NoiseModel α) (v : Array α) : Array α :=
  v.mapIdx fun i x =>
    match m.sigmas[i]? with
    | some s => if s != 0 then x * s else x
    | none => x

def unwhiten (m : NoiseModel α) (v : Array α) : Outcome (Array α) := do
  require (v.size = m.dim) .unwhitenLength
  return m.scaleBySigma v

def whitened {rows cols : Nat} (m : NoiseModel α) (a : Dense α rows cols) : Dense α rows cols :=
  Dense.ofFn fun i j => if m.weight i == 1 then a i j else a i j * m.weight i

-- Like `whitened`, for a matrix that has to have a row for each deviation.
def whitenBody {rows cols : Nat} (m : NoiseModel α) (a : Dense α rows cols) :
    Outcome (Dense α rows cols) := do
  require (rows = m.dim) .whitenRows
  return m.whitened a

def whitenRows (m : NoiseModel α) (a : Mat α) : Outcome (Mat α) := do
  return ⟨a.rows, a.cols, ← m.whitenBody a.body⟩

end NoiseModel
end LinearGaussian
