import LinearGaussian.Dense.Layout
import LinearGaussian.Dense.Product
import LinearGaussian.Dense.Vec

namespace LinearGaussian

structure Mat (α : Type) where
  rows : Nat
  cols : Nat
  body : Dense α rows cols

namespace Mat

variable {α : Type}

def shape (a : Mat α) : Shape :=
  ⟨a.rows, a.cols⟩

def ofFn (rows cols : Nat) (f : Fin rows → Fin cols → α) : Mat α :=
  ⟨rows, cols, Dense.ofFn f⟩

def data (a : Mat α) : Array α :=
  a.body.data.toArray

def rowMajor (a : Mat α) : Array α :=
  a.body.transpose.data.toArray

def ofColumnMajor (rows cols : Nat) (data : Array α) : Outcome (Mat α) :=
  if h : data.size = cols * rows then .ok ⟨rows, cols, ⟨data, h⟩⟩
  else violated $ .columnMajorLength data.size ⟨rows, cols⟩

def ofRowMajor (rows cols : Nat) (data : Array α) : Outcome (Mat α) :=
  if h : data.size = rows * cols then .ok ⟨rows, cols, Dense.transpose ⟨⟨data, h⟩⟩⟩
  else violated $ .rowMajorLength data.size ⟨rows, cols⟩

def isSquare (a : Mat α) : Bool :=
  a.rows = a.cols

def isEmpty (a : Mat α) : Bool :=
  a.data.isEmpty

-- An entry is found by its place alone, so a row past the end reaches into the next column.
def read (a : Mat α) (row col : Nat) : Outcome α :=
  Vec.read a.data (col * a.rows + row)

def writePlace (a : Mat α) (k : Nat) (v : α) : Outcome (Mat α) :=
  if h : k < a.cols * a.rows then
    .ok ⟨a.rows, a.cols, ⟨a.body.data.set k v h⟩⟩
  else violated .outOfRange

def write (a : Mat α) (row col : Nat) (v : α) : Outcome (Mat α) :=
  a.writePlace (col * a.rows + row) v

def columnFrom (a : Mat α) (col row : Nat) : Outcome (Array α) :=
  Vec.slice a.data (col * a.rows + row) (col * a.rows + a.rows)

def writeColumnFrom (a : Mat α) (col row : Nat) (v : Array α) : Outcome (Mat α) := do
  let old ← a.columnFrom col row
  if old.size < v.size then violated .outOfRange
  let start := col * a.rows + row
  return ⟨a.rows, a.cols,
    ⟨a.body.data.mapFinIdx fun k x _ => if start ≤ k then v.getD (k - start) x else x⟩⟩

def fillColumnFrom (a : Mat α) (v : α) (col row : Nat) : Outcome (Mat α) := do
  let old ← a.columnFrom col row
  a.writeColumnFrom col row (Vec.fill old.size v)

def transpose (a : Mat α) : Mat α :=
  ⟨a.cols, a.rows, a.body.transpose⟩

def block (a : Mat α) (r : Region) : Outcome (Mat α) :=
  if h : r.row + r.rows ≤ a.rows ∧ r.col + r.cols ≤ a.cols then
    .ok $ ofFn r.rows r.cols fun i j => a.body ⟨r.row + i, by omega⟩ ⟨r.col + j, by omega⟩
  else violated $ .blockBounds r a.shape

def setBlock (a : Mat α) (row col : Nat) (b : Mat α) : Outcome (Mat α) :=
  if row + b.rows ≤ a.rows ∧ col + b.cols ≤ a.cols then
    .ok $ ofFn a.rows a.cols fun i j =>
      if h : (row ≤ i.val ∧ i.val - row < b.rows) ∧ (col ≤ j.val ∧ j.val - col < b.cols) then
        b.body ⟨i.val - row, h.left.right⟩ ⟨j.val - col, h.right.right⟩
      else a.body i j
  else violated $ .setBlockBounds ⟨row, col, b.rows, b.cols⟩ a.shape

def diag (a : Mat α) : Array α :=
  Array.ofFn fun i : Fin (min a.rows a.cols) => a.body ⟨i, by omega⟩ ⟨i, by omega⟩

def ofRows {cols : Nat} (rows : List (Vector α cols)) : Mat α :=
  ofFn rows.length cols fun i j => rows[i][j]

def row (v : Array α) : Mat α :=
  ⟨1, v.size, ⟨v, (Nat.mul_one v.size).symm⟩⟩

instance [BEq α] : BEq (Mat α) where
  beq a b := a.shape == b.shape && a.data == b.data

section Arith

variable [Arith α]

-- An entry, zero outside of the matrix.
def entry (a : Mat α) (i j : Nat) : α :=
  if h : i < a.rows ∧ j < a.cols then a.body ⟨i, h.left⟩ ⟨j, h.right⟩ else 0

theorem entry_ofFn {rows cols i j : Nat} (f : Fin rows → Fin cols → α) (hi : i < rows)
    (hj : j < cols) :
    (ofFn rows cols f).entry i j = f ⟨i, hi⟩ ⟨j, hj⟩ := by
  simp [entry, ofFn, hi, hj]

def zeros (rows cols : Nat) : Mat α :=
  ofFn rows cols fun _ _ => 0

def scaledEye (n : Nat) (s : α) : Mat α :=
  ofFn n n fun i j => if i = j then s else 0

def eye (n : Nat) : Mat α :=
  scaledEye n 1

def ofDiag (d : Array α) : Mat α :=
  ofFn d.size d.size fun i j => if i = j then d.toVector[i] else 0

-- Stacks matrices of one width on top of each other. No matrix at all gives the empty one.
def vstack (parts : List (Mat α)) : Outcome (Mat α) := do
  let cols := match parts with
    | [] => 0
    | a :: _ => a.cols
  require (parts.all (·.cols = cols)) .stackWidth
  return ofFn (parts.map (·.rows)).sum cols fun i j =>
    endToEnd (fun _ => 0) (parts.map fun a => (a.rows, a.entry)) i.val j.val

def scaleRow (a : Mat α) (i : Nat) (s : α) : Outcome (Mat α) :=
  if i < a.rows ∨ a.cols = 0 then
    .ok $ ofFn a.rows a.cols fun r c => if r = i then a.body r c * s else a.body r c
  else violated .outOfRange

def mulVec (a : Mat α) (x : Array α) : Outcome (Array α) := do
  let x ← Vec.sized x a.cols .mulVecLength
  return (LinearGaussian.mulVec a.body fun j => x[j]).toArray

def trMulVec (a : Mat α) (x : Array α) : Outcome (Array α) := do
  let x ← Vec.sized x a.rows .trMulVecLength
  return (LinearGaussian.trMulVec a.body fun i => x[i]).toArray

def add (a b : Mat α) : Outcome (Mat α) :=
  if a.shape = b.shape then .ok $ ofFn a.rows a.cols fun i j => a.body i j + b.entry i j
  else violated $ .operands .add a.shape b.shape

def sub (a b : Mat α) : Outcome (Mat α) :=
  if a.shape = b.shape then .ok $ ofFn a.rows a.cols fun i j => a.body i j - b.entry i j
  else violated $ .operands .sub a.shape b.shape

def neg (a : Mat α) : Mat α :=
  ⟨a.rows, a.cols, a.body.map (- ·)⟩

def scale (a : Mat α) (s : α) : Mat α :=
  ⟨a.rows, a.cols, a.body.map (· * s)⟩

def mul [BEq α] (a b : Mat α) : Outcome (Mat α) :=
  if h : a.cols = b.rows then
    .ok ⟨a.rows, b.cols, LinearGaussian.mul a.body fun l => b.body (l.cast h)⟩
  else violated $ .operands .mul a.shape b.shape

def gram [BEq α] (a : Mat α) : Mat α :=
  ⟨a.cols, a.cols, LinearGaussian.mul a.body.transpose a.body⟩

end Arith
end Mat
end LinearGaussian
