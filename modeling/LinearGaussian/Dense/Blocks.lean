import LinearGaussian.Dense.Window

namespace LinearGaussian

structure BlockMatrix (α : Type) where
  full : Mat α
  widths : List Nat
  cover : widths.sum = full.cols

namespace BlockMatrix

variable {α : Type}

def ofMat (a : Mat α) (widths : List Nat) : Outcome (BlockMatrix α) :=
  if h : widths.sum = a.cols then .ok ⟨a, widths, h⟩ else violated $ .blockCover widths a.cols

def ofFn (rows : Nat) (widths : List Nat) (f : Fin rows → Fin widths.sum → α) : BlockMatrix α :=
  ⟨Mat.ofFn rows widths.sum f, widths, rfl⟩

def zeros [Arith α] (rows : Nat) (widths : List Nat) : BlockMatrix α :=
  ofFn rows widths fun _ _ => 0

def rows (b : BlockMatrix α) : Nat :=
  b.full.rows

def cols (b : BlockMatrix α) : Nat :=
  b.full.cols

def count (b : BlockMatrix α) : Nat :=
  b.widths.length

-- The first column of block `i`. The number of blocks gives the number of columns.
def offsetAt (b : BlockMatrix α) (i : Nat) : Nat :=
  (b.widths.take i).sum

theorem offsetAt_le (b : BlockMatrix α) (i : Nat) : b.offsetAt i ≤ b.full.cols := by
  have h := congrArg List.sum (List.take_append_drop i b.widths)
  rw [List.sum_append, b.cover] at h
  unfold offsetAt
  omega

theorem offsetAt_succ (b : BlockMatrix α) {i : Nat} (h : i < b.widths.length) :
    b.offsetAt (i + 1) = b.offsetAt i + b.widths[i] := by
  unfold offsetAt
  rw [List.take_succ_eq_append_getElem h, List.sum_append]
  simp

def offset (b : BlockMatrix α) (i : Nat) : Outcome Nat :=
  if i ≤ b.count then .ok (b.offsetAt i) else violated .outOfRange

def width (b : BlockMatrix α) (i : Nat) : Outcome Nat :=
  inRange b.widths[i]?

def blocks (b : BlockMatrix α) (first last : Nat) : Outcome (Window α) :=
  if h : (first ≤ b.count ∧ last ≤ b.count) ∧ b.offsetAt first ≤ b.offsetAt last then
    have := b.offsetAt_le last
    .ok ⟨b.full, 0, b.offsetAt first, b.full.rows,
      b.offsetAt last - b.offsetAt first, by omega, by omega⟩
  else violated .outOfRange

def block (b : BlockMatrix α) (i : Nat) : Outcome (Window α) :=
  b.blocks i (i + 1)

def range (b : BlockMatrix α) (i : Nat) : Outcome (Nat × Nat) := do
  let first ← b.offset i
  let last ← b.offset (i + 1)
  return (first, last)

def modify (b : BlockMatrix α) (f : Mat α → Outcome (Mat α)) : Outcome (BlockMatrix α) := do
  ofMat (← f b.full) b.widths

def setBlock (b : BlockMatrix α) (i row : Nat) (a : Mat α) : Outcome (BlockMatrix α) := do
  let width ← b.width i
  require (a.cols = width) (.blockWidth i width a.cols)
  b.modify (·.setBlock row (b.offsetAt i) a)

def setColumn (b : BlockMatrix α) (i row : Nat) (v : Array α) : Outcome (BlockMatrix α) := do
  let width ← b.width i
  require (width = 1) (.notColumn i)
  b.modify (·.writeColumnFrom (b.offsetAt i) row v)

def rowRange (b : BlockMatrix α) (start len : Nat) : Outcome (BlockMatrix α) :=
  b.modify (·.block ⟨start, 0, len, b.full.cols⟩)

instance [BEq α] : BEq (BlockMatrix α) where
  beq b c := b.full == c.full && b.widths == c.widths

end BlockMatrix
end LinearGaussian
