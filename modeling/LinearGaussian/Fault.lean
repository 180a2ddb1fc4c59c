import LinearGaussian.Key.Basic

namespace LinearGaussian

def bracketed (ns : List Nat) : String :=
  "[" ++ ", ".intercalate (ns.map toString) ++ "]"

inductive ConditionalDefect
  | blockCount (keys blocks : Nat)
  | frontalCount (frontals keys : Nat)
  | notSquare (rows cols : Nat)
  | notUpperTriangular (row col : Nat)
  deriving DecidableEq, Repr

def ConditionalDefect.message : ConditionalDefect → String
  | .blockCount keys blocks =>
    s!"{keys} keys need {keys} blocks plus one RHS column, got {blocks} blocks"
  | .frontalCount frontals keys => s!"{frontals} frontals but only {keys} keys"
  | .notSquare rows cols => s!"R must be square: {rows} rows, {cols} frontal columns"
  | .notUpperTriangular row col => s!"R is not upper triangular at ({row}, {col})"

inductive Error
  | unknownVariable (key : Key)
  | dimensionMismatch (key : Key) (expected got : Nat)
  | rowMismatch (expected got : Nat)
  | duplicateKey (key : Key)
  | noFrontals
  | zeroFrontalBlock (key : Key)
  | missingValue (key : Key)
  | notInNet (key : Key)
  | incompleteOrder (key : Key)
  | constrainedInformation (keys : List Key)
  | invalidConditional (defect : ConditionalDefect)
  deriving DecidableEq, Repr

def Error.message : Error → String
  | .unknownVariable key => s!"variable {key} does not appear in any factor"
  | .dimensionMismatch key expected got =>
    s!"variable {key} has dimension {expected}, got a block with {got} columns"
  | .rowMismatch expected got => s!"expected {expected} rows, got {got}"
  | .duplicateKey key => s!"variable {key} appears more than once"
  | .noFrontals => "no frontal variables given"
  | .zeroFrontalBlock key => s!"frontal variable {key} has an all-zero column block"
  | .missingValue key => s!"no value for variable {key}"
  | .notInNet key => s!"variable {key} is not part of the Bayes net"
  | .incompleteOrder key => s!"variable {key} is in the graph but not in the ordering"
  | .constrainedInformation keys =>
    "factor on " ++ bracketed keys ++ " has hard-constraint rows and no information form"
  | .invalidConditional defect => "invalid conditional: " ++ defect.message

-- A window of `rows` by `cols` entries whose first entry stands at `(row, col)`.
structure Region where
  row : Nat
  col : Nat
  rows : Nat
  cols : Nat
  deriving DecidableEq, Repr

structure Shape where
  rows : Nat
  cols : Nat
  deriving DecidableEq, Repr

def Region.message (r : Region) (s : Shape) : String :=
  let ⟨row, col, rows, cols⟩ := r
  let ⟨allRows, allCols⟩ := s
  s!"({row},{col}) size {rows}x{cols} out of bounds for {allRows}x{allCols} matrix"

inductive MatrixOp
  | add
  | sub
  | mul
  deriving DecidableEq, Repr

def MatrixOp.symbol : MatrixOp → String
  | .add => "+"
  | .sub => "-"
  | .mul => "*"

inductive Violation
  -- An index or a range outside of what is stored.
  | outOfRange
  | sigma (row : Nat)
  | whitenLength
  | unwhitenLength
  | whitenRows
  | rowMajorLength (length : Nat) (shape : Shape)
  | columnMajorLength (length : Nat) (shape : Shape)
  | stackWidth
  | blockBounds (region : Region) (shape : Shape)
  | setBlockBounds (region : Region) (shape : Shape)
  | viewBounds (region : Region) (shape : Shape)
  | viewRows
  | mulVecLength
  | trMulVecLength
  | operands (op : MatrixOp) (left right : Shape)
  | vectorLength
  | addMulInput
  | addMulOutput
  | addTrMulInput
  | addTrMulOutput
  | blockCover (widths : List Nat) (cols : Nat)
  | blockWidth (block width got : Nat)
  | notColumn (block : Nat)
  | reducedColumns (count cols : Nat)
  | sigmaPerRow
  | pseudoinverseSigmas
  | pseudoinverseOutput
  | squareRootShape
  | triangularShape
  | triangularLength
  | variableIndex (count asked : Nat)
  | transposeLength
  | errorPerFactor
  deriving DecidableEq, Repr

-- The text of a violation. An index out of range has none.
def Violation.message? : Violation → Option String
  | .outOfRange => none
  | .sigma row => some s!"sigma {row} must be finite and non-negative"
  | .whitenLength => some "whiten: length mismatch"
  | .unwhitenLength => some "unwhiten: length mismatch"
  | .whitenRows => some "whiten: row count mismatch"
  | .rowMajorLength length ⟨rows, cols⟩ =>
    some s!"slice length {length} does not match {rows}x{cols} matrix"
  | .columnMajorLength length ⟨rows, cols⟩ =>
    some s!"vec length {length} does not match {rows}x{cols} matrix"
  | .stackWidth => some "vstack: column count mismatch"
  | .blockBounds region shape => some ("block " ++ region.message shape)
  | .setBlockBounds region shape => some ("set_block " ++ region.message shape)
  | .viewBounds region shape => some ("block view " ++ region.message shape)
  | .viewRows => some "row range out of bounds"
  | .mulVecLength => some "mul_vec: dimension mismatch"
  | .trMulVecLength => some "tr_mul_vec: dimension mismatch"
  | .operands op ⟨r₁, c₁⟩ ⟨r₂, c₂⟩ =>
    some (s!"dimension mismatch: {r₁}x{c₁} " ++ op.symbol ++ s!" {r₂}x{c₂}")
  | .vectorLength => some "vector length mismatch"
  | .addMulInput => some "gemv: x length mismatch"
  | .addMulOutput => some "gemv: y length mismatch"
  | .addTrMulInput => some "gemv_t: x length mismatch"
  | .addTrMulOutput => some "gemv_t: y length mismatch"
  | .blockCover widths cols =>
    some ("block widths " ++ bracketed widths ++ s!" do not cover {cols} columns")
  | .blockWidth block width got => some s!"block {block} has width {width}, got {got} columns"
  | .notColumn block => some s!"block {block} is not a column"
  | .reducedColumns count cols => some s!"cannot reduce {count} of {cols} columns"
  | .sigmaPerRow => some "one sigma per row required"
  | .pseudoinverseSigmas => some "pseudo-inverse: sigma count mismatch"
  | .pseudoinverseOutput => some "pseudo-inverse: output length mismatch"
  | .squareRootShape => some "Cholesky decomposition requires a square matrix"
  | .triangularShape => some "triangular solve requires a square matrix"
  | .triangularLength => some "triangular solve: rhs length mismatch"
  | .variableIndex count asked => some s!"factor has {count} variables, asked for {asked}"
  | .transposeLength => some "transpose_multiply_add: length mismatch"
  | .errorPerFactor => some "one error vector per factor required"

inductive Fault
  | error (cause : Error)
  | violation (cause : Violation)
  deriving DecidableEq, Repr

abbrev Outcome (β : Type) := Except Fault β

def fail {β : Type} (cause : Error) : Outcome β :=
  .error (.error cause)

def violated {β : Type} (cause : Violation) : Outcome β :=
  .error (.violation cause)

def require (holds : Bool) (cause : Violation) : Outcome Unit :=
  if holds then .ok () else violated cause

def inRange {β : Type} : Option β → Outcome β
  | some b => .ok b
  | none => violated .outOfRange

def requireDistinct (keys : List Key) : Outcome Unit :=
  match Key.firstRepeat? keys with
  | some k => fail (.duplicateKey k)
  | none => .ok ()

-- A change of a state that may stop half way. What was done before it stopped stays done.
abbrev Edit (σ : Type) := ExceptT Fault (StateM σ)

namespace Edit

variable {σ β : Type}

def lift (r : Outcome β) : Edit σ β :=
  ExceptT.mk (pure r)

def outcome (e : Edit σ Unit) (s : σ) : Outcome σ :=
  match e s with
  | (.ok (), s') => .ok s'
  | (.error f, _) => .error f

end Edit
end LinearGaussian
