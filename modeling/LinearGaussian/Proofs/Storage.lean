import LinearGaussian.Proofs.Triangular
import LinearGaussian.Reduction.SquareRoot

namespace LinearGaussian

section Arrays

variable {β γ δ : Type} {n : Nat}

theorem exists_ofFn (v : Array β) (h : v.size = n) : ∃ u : Fin n → β, v = Array.ofFn u := by
  subst h
  exact ⟨fun i => v[i], by simp⟩

theorem zipWith_ofFn (f : β → γ → δ) (u : Fin n → β) (v : Fin n → γ) :
    (Array.ofFn u).zipWith f (Array.ofFn v) = Array.ofFn fun i => f (u i) (v i) := by
  apply Array.ext <;> simp

theorem foldl_ofFn (f : γ → β → γ) (c : γ) (u : Fin n → β) :
    (Array.ofFn u).foldl f c = Fin.foldl n (fun c i => f c (u i)) c := by
  rw [← Array.foldl_toList, Array.toList_ofFn, List.ofFn_eq_map, List.foldl_map,
    Fin.foldl_eq_finRange_foldl]

theorem zipIdx_ofFn (u : Fin n → β) :
    (Array.ofFn u).toList.zipIdx = (List.finRange n).map fun j => (u j, j.val) := by
  apply List.ext_getElem <;> simp

end Arrays

namespace Window

variable {α : Type}

section Storage

-- Column `j` of the window as it lies in the storage: what stands from the first row of the window
-- on, as far as the window reaches.
def strip (w : Window α) (j : Nat) : Outcome (Array α) := do
  let below ← w.base.columnFrom (w.col + j) w.row
  Vec.slice below 0 w.rows

theorem strip_eq (w : Window α) (j : Fin w.cols) :
    w.strip j = .ok (Array.ofFn fun i => w.entry i j) := by
  have hr := w.row_le
  have hc := w.col_le
  have hd : w.base.data.size = w.base.cols * w.base.rows := w.base.body.data.size_toArray
  -- The column ends inside of the storage.
  have hp : (w.col + j) * w.base.rows + w.base.rows ≤ w.base.cols * w.base.rows := by
    rw [← Nat.succ_mul]
    exact Nat.mul_le_mul_right _ (by omega)
  rw [strip, Mat.columnFrom, Vec.slice, if_pos ⟨by omega, by omega⟩, Outcome.ok_bind, Vec.slice,
    if_pos ⟨by omega, by
    rw [Array.size_extract]
    omega⟩]
  congr 1
  apply Array.ext
  case h₁ =>
    simp only [Array.size_extract, Array.size_ofFn]
    omega
  case h₂ =>
    intro i hi hi'
    simp [entry, Dense.get, Dense.place, Mat.data, Nat.add_assoc]

end Storage

section Products

variable [Arith α] {x y : Array α}

def addStrip (w : Window α) (a : α) (j : Nat) (y : Array α) : Outcome (Array α) :=
  return y.zipWith (fun b c => b + c * a) (← w.strip j)

def addStrips (w : Window α) (alpha : α) (x y : Array α) : Outcome (Array α) :=
  x.toList.zipIdx.foldlM (fun y t => w.addStrip (alpha * t.1) t.2 y) y

def dotStrip (w : Window α) (j : Nat) (x : Array α) : Outcome α :=
  return ((← w.strip j).zip x).foldl (fun s p => s + p.1 * p.2) 0

def addTrStrips (w : Window α) (alpha : α) (x y : Array α) : Outcome (Array α) :=
  List.toArray <$> y.toList.zipIdx.mapM fun t => return t.1 + alpha * (← w.dotStrip t.2 x)

theorem addStrip_eq (w : Window α) (a : α) (j : Fin w.cols) (y : Fin w.rows → α) :
    w.addStrip a j (Array.ofFn y) = .ok (Array.ofFn fun i => y i + w.entry i j * a) := by
  rw [addStrip, strip_eq, Outcome.ok_bind, Outcome.pure_eq_ok, zipWith_ofFn]

theorem dotStrip_eq (w : Window α) (j : Fin w.cols) (x : Fin w.rows → α) :
    w.dotStrip j (Array.ofFn x) = .ok (dot (fun i => w.entry i j) x) := by
  rw [dotStrip, strip_eq, Outcome.ok_bind, Outcome.pure_eq_ok, Array.zip, zipWith_ofFn, foldl_ofFn]
  rfl

theorem foldlM_addStrip (w : Window α) (x : Fin w.cols → α) (js : List (Fin w.cols))
    (y : Fin w.rows → α) :
    js.foldlM (fun y j => w.addStrip (x j) j y) (Array.ofFn y) =
      .ok (Array.ofFn fun i => js.foldl (fun s j => s + w.entry i j * x j) (y i)) := by
  induction js generalizing y
  case nil => rfl
  case cons j js ih =>
    rw [List.foldlM_cons, addStrip_eq, Outcome.ok_bind, ih]
    rfl

theorem addStrips_eq (w : Window α) (alpha : α) (hx : x.size = w.cols) (hy : y.size = w.rows) :
    w.addStrips alpha x y = w.addMulVec alpha x y := by
  obtain ⟨u, rfl⟩ := exists_ofFn x hx
  obtain ⟨v, rfl⟩ := exists_ofFn y hy
  rw [addStrips, zipIdx_ofFn, List.foldlM_map, foldlM_addStrip w (alpha * u ·)]
  simp [addMulVec, Vec.sized, LinearGaussian.addMulVec, Fin.foldl_eq_finRange_foldl]

theorem addTrStrips_eq (w : Window α) (alpha : α) (hx : x.size = w.rows) (hy : y.size = w.cols) :
    w.addTrStrips alpha x y = w.addTrMulVec alpha x y := by
  obtain ⟨u, rfl⟩ := exists_ofFn x hx
  obtain ⟨v, rfl⟩ := exists_ofFn y hy
  have hs (j : Fin w.cols) : (return v j + alpha * (← w.dotStrip j (Array.ofFn u))) =
      (.ok (v j + alpha * dot (fun i => w.entry i j) u) : Outcome α) := by
    rw [dotStrip_eq, Outcome.ok_bind, Outcome.pure_eq_ok]
  rw [addTrStrips, zipIdx_ofFn, List.mapM_map]
  refine (congrArg _ (Outcome.mapM_eq_ok fun j _ => hs j)).trans ?_
  simp [addTrMulVec, Vec.sized, LinearGaussian.addTrMulVec, ← List.ofFn_eq_map]

end Products

section Copies

variable [Arith α] [RealLike α] {v w : Window α}

-- Nothing that can be asked of a window tells the two apart.
structure Alike (v w : Window α) : Prop where
  toMat               : v.toMat = w.toMat
  column              : ∀ j < v.cols, v.column j = w.column j
  isZero              : v.isZero = w.isZero
  addMulVec           : ∀ alpha x y, v.addMulVec alpha x y = w.addMulVec alpha x y
  addTrMulVec         : ∀ alpha x y, v.addTrMulVec alpha x y = w.addTrMulVec alpha x y
  solveUpper          : ∀ b, v.solveUpper b = w.solveUpper b
  solveUpperTranspose : ∀ b, v.solveUpperTranspose b = w.solveUpperTranspose b
  squareRoot          : ∀ tol, v.squareRoot tol = w.squareRoot tol

-- The window answers if the sizes fit, and what it answers is made of its strips.
structure Answers (w : Window α) : Prop where
  column              : ∀ j < w.cols, ∃ v, w.column j = .ok v ∧ w.strip j = .ok v
  addMulVec           : ∀ alpha x y, x.size = w.cols → y.size = w.rows →
    ∃ z, w.addMulVec alpha x y = .ok z ∧ w.addStrips alpha x y = .ok z
  addTrMulVec         : ∀ alpha x y, x.size = w.rows → y.size = w.cols →
    ∃ z, w.addTrMulVec alpha x y = .ok z ∧ w.addTrStrips alpha x y = .ok z
  solveUpper          : ∀ b, w.rows = w.cols → b.size = w.rows → ∃ x, w.solveUpper b = .ok x
  solveUpperTranspose : ∀ b, w.rows = w.cols → b.size = w.rows →
    ∃ x, w.solveUpperTranspose b = .ok x
  squareRoot          : ∀ tol, w.rows = w.cols → ∃ r, w.squareRoot tol = .ok r

theorem alike_of_toMat (h : v.toMat = w.toMat) : v.Alike w := by
  obtain ⟨base, row, col, m, n, hr, hc⟩ := v
  obtain ⟨base', row', col', m', n', hr', hc'⟩ := w
  have hm : m = m' := congrArg Mat.rows h
  have hn : n = n' := congrArg Mat.cols h
  subst hm hn
  have he : entry ⟨base, row, col, m, n, hr, hc⟩ = entry ⟨base', row', col', m, n, hr', hc'⟩ := by
    funext i j
    have hij := congrArg (fun a : Mat α => a.entry i j) h
    simpa [toMat, Mat.entry_ofFn] using hij
  constructor
  case toMat => exact h
  case column => simp only [column, he, implies_true]
  case isZero => simp only [isZero, he]
  case addMulVec => simp only [addMulVec, he, implies_true]
  case addTrMulVec => simp only [addTrMulVec, he, implies_true]
  case solveUpper => simp only [solveUpper, triangular, he, implies_true]
  case solveUpperTranspose => simp only [solveUpperTranspose, triangular, he, implies_true]
  case squareRoot => simp only [squareRoot, he, implies_true]

omit [RealLike α] in
theorem toMat_full (a : Mat α) : (full a).toMat = a := by
  refine Mat.ext_entry rfl rfl fun i hi j hj => ?_
  rw [entry_toMat _ hi hj]
  simp [full]

theorem alike_full_toMat (w : Window α) : w.Alike (full w.toMat) :=
  alike_of_toMat (toMat_full _).symm

theorem answers (w : Window α) : w.Answers := by
  constructor
  case column => exact fun j hj => ⟨_, dif_pos hj, w.strip_eq ⟨j, hj⟩⟩
  case addMulVec =>
    intro alpha x y hx hy
    obtain ⟨z, hz, _⟩ := w.exists_addMulVec alpha hx hy
    exact ⟨z, hz, (w.addStrips_eq alpha hx hy).trans hz⟩
  case addTrMulVec =>
    intro alpha x y hx hy
    obtain ⟨z, hz, _⟩ := w.exists_addTrMulVec alpha hx hy
    exact ⟨z, hz, (w.addTrStrips_eq alpha hx hy).trans hz⟩
  case solveUpper =>
    intro b hw hb
    obtain ⟨x, hx, _⟩ := exists_solveUpper hw hb
    exact ⟨x, hx⟩
  case solveUpperTranspose =>
    intro b hw hb
    obtain ⟨x, hx, _⟩ := exists_solveUpperTranspose hw hb
    exact ⟨x, hx⟩
  case squareRoot => exact fun tol hw => ⟨_, dif_pos hw⟩

end Copies
end Window

namespace Region

def Within (r : Region) (s : Shape) : Prop :=
  r.row + r.rows ≤ s.rows ∧ r.col + r.cols ≤ s.cols

def takeRows (r : Region) (cut : Nat × Nat) : Region :=
  { r with row := r.row + cut.1, rows := cut.2 }

-- Every cut keeps to the rows that the cuts before it have left.
def Allows (r : Region) : List (Nat × Nat) → Prop
  | [] => True
  | cut :: cuts => cut.1 + cut.2 ≤ r.rows ∧ (r.takeRows cut).Allows cuts

end Region

namespace Window

variable {α : Type} {w : Window α} {cuts : List (Nat × Nat)}

def region (w : Window α) : Region :=
  ⟨w.row, w.col, w.rows, w.cols⟩

def takeRowsEach (w : Window α) (cuts : List (Nat × Nat)) : Outcome (Window α) :=
  cuts.foldlM (fun w cut => w.takeRows cut.1 cut.2) w

theorem exists_takeRowsEach (h : w.region.Allows cuts) :
    ∃ v, w.takeRowsEach cuts = .ok v ∧ v.base = w.base ∧
      v.region = cuts.foldl Region.takeRows w.region := by
  induction cuts generalizing w
  case nil => exact ⟨w, rfl, rfl, rfl⟩
  case cons cut cuts ih =>
    obtain ⟨hcut, hcuts⟩ := h
    obtain ⟨u, hu, hub, hur⟩ : ∃ u, w.takeRows cut.1 cut.2 = .ok u ∧ u.base = w.base ∧
        u.region = w.region.takeRows cut := ⟨_, dif_pos hcut, rfl, rfl⟩
    obtain ⟨v, hv, hvb, hvr⟩ := ih (hur ▸ hcuts)
    refine ⟨v, ?_, hvb.trans hub, ?_⟩
    case refine_1 => rw [takeRowsEach, List.foldlM_cons, hu, Outcome.ok_bind, ← hv, takeRowsEach]
    case refine_2 => rw [hvr, hur, List.foldl_cons]

theorem block_region (w : Window α) : w.base.block w.region = .ok w.toMat :=
  dif_pos ⟨w.row_le, w.col_le⟩

theorem exists_block (a : Mat α) {r : Region} (hr : r.Within a.shape) (hc : r.Allows cuts) :
    ∃ w, (of a r >>= fun w => w.takeRowsEach cuts) = .ok w ∧
      a.block (cuts.foldl Region.takeRows r) = .ok w.toMat := by
  obtain ⟨u, hu, hub, hur⟩ : ∃ u, of a r = .ok u ∧ u.base = a ∧ u.region = r :=
    ⟨_, dif_pos hr, rfl, rfl⟩
  obtain ⟨w, hw, hwb, hwr⟩ := exists_takeRowsEach (hur ▸ hc)
  refine ⟨w, ?_, ?_⟩
  case refine_1 => rw [hu, Outcome.ok_bind, hw]
  case refine_2 => rw [← hub, ← hwb, ← hur, ← hwr, block_region]

end Window

theorem Dense.place_inj {m n : Nat} {i k : Fin m} {j l : Fin n} :
    place i j = place k l ↔ i = k ∧ j = l := by
  refine ⟨fun h => ⟨?_, ?_⟩, fun h => h.left ▸ h.right ▸ rfl⟩
  case refine_1 => rw [← rowOf_place i j, h, rowOf_place]
  case refine_2 => rw [← colOf_place i j, h, colOf_place]

namespace Mat

variable {α : Type} [Arith α] {a b : Mat α} {i j row col : Nat}

theorem read_eq (hi : i < a.rows) (hj : j < a.cols) : a.read i j = .ok (a.entry i j) := by
  have hp := Dense.place_lt ⟨i, hi⟩ ⟨j, hj⟩
  simp only at hp
  simp [read, Vec.read, data, hp, inRange, entry, hi, hj, Dense.get, Dense.place]

theorem exists_write (hi : i < a.rows) (hj : j < a.cols) (v : α) :
    ∃ c, a.write i j v = .ok c ∧ c.shape = a.shape ∧
      ∀ k < a.rows, ∀ l < a.cols, c.entry k l = if k = i ∧ l = j then v else a.entry k l := by
  have hp := Dense.place_lt ⟨i, hi⟩ ⟨j, hj⟩
  refine ⟨_, dif_pos hp, rfl, fun k hk l hl => ?_⟩
  have he : j * a.rows + i = l * a.rows + k ↔ k = i ∧ l = j := by
    have hij := Dense.place_inj (i := ⟨i, hi⟩) (j := ⟨j, hj⟩) (k := ⟨k, hk⟩) (l := ⟨l, hl⟩)
    simpa [Dense.place, eq_comm] using hij
  simp [entry, hk, hl, Dense.get, Dense.place, Vector.getElem_set, he]

def writeEach (a : Mat α) (row col : Nat) (b : Mat α) : Outcome (Mat α) :=
  (List.finRange b.cols ×ˢ List.finRange b.rows).foldlM
    (fun a p => a.write (row + p.2) (col + p.1) (b.body p.2 p.1)) a

theorem exists_foldlM_write (hr : row + b.rows ≤ a.rows) (hc : col + b.cols ≤ a.cols)
    (ps : List (Fin b.cols × Fin b.rows)) :
    ∃ c, ps.foldlM (fun a p => a.write (row + p.2) (col + p.1) (b.body p.2 p.1)) a = .ok c ∧
      c.shape = a.shape ∧
      ∀ k < a.rows, ∀ l < a.cols, c.entry k l =
        if ∃ p ∈ ps, k = row + p.2 ∧ l = col + p.1 then b.entry (k - row)
          (l - col) else a.entry k l := by
  induction ps generalizing a
  case nil => exact ⟨a, rfl, rfl, by simp⟩
  case cons p ps ih =>
    obtain ⟨d, hd, hds, hde⟩ :=
      a.exists_write (i := row + p.2) (j := col + p.1) (by omega) (by omega) (b.body p.2 p.1)
    obtain ⟨hdr, hdc⟩ := Shape.mk.inj hds
    obtain ⟨c, hw, hcs, hce⟩ := ih (a := d) (hr.trans_eq hdr.symm) (hc.trans_eq hdc.symm)
    refine ⟨c, ?_, hcs.trans hds, fun k hk l hl => ?_⟩
    case refine_1 => rw [List.foldlM_cons, hd, Outcome.ok_bind, hw]
    case refine_2 =>
      rw [hce k (hk.trans_eq hdr.symm) l (hl.trans_eq hdc.symm), hde k hk l hl]
      by_cases hp : k = row + p.2 ∧ l = col + p.1
      case pos =>
        have he : b.entry (k - row) (l - col) = b.body p.2 p.1 := by
          rw [hp.left, hp.right, Nat.add_sub_cancel_left, Nat.add_sub_cancel_left, entry_body]
        rw [if_pos hp, he, ite_self, if_pos ⟨p, List.mem_cons_self, hp⟩]
      case neg => simp [hp]

theorem exists_writeEach (hr : row + b.rows ≤ a.rows) (hc : col + b.cols ≤ a.cols) :
    ∃ c, a.writeEach row col b = .ok c ∧ c.shape = a.shape ∧ ∀ i < a.rows, ∀ j < a.cols,
      c.entry i j =
      if (row ≤ i ∧ i - row < b.rows) ∧ col ≤ j ∧ j - col < b.cols then b.entry (i - row) (j - col)
      else a.entry i j := by
  obtain ⟨c, hw, hs, he⟩ := exists_foldlM_write hr hc (List.finRange b.cols ×ˢ List.finRange b.rows)
  refine ⟨c, hw, hs, fun i hi j hj => (he i hi j hj).trans (if_congr ⟨?_, ?_⟩ rfl rfl)⟩
  case refine_1 =>
    rintro ⟨p, _, hp, hp'⟩
    omega
  case refine_2 =>
    rintro ⟨⟨hi, hib⟩, hj, hjb⟩
    exact ⟨(⟨j - col, hjb⟩,
      ⟨i - row, hib⟩), by simp, (Nat.add_sub_cancel' hi).symm, (Nat.add_sub_cancel' hj).symm⟩

theorem setBlock_eq_writeEach (hr : row + b.rows ≤ a.rows) (hc : col + b.cols ≤ a.cols) :
    a.setBlock row col b = a.writeEach row col b := by
  obtain ⟨c, hw, hs, he⟩ := exists_writeEach hr hc
  obtain ⟨hsr, hsc⟩ := Shape.mk.inj hs
  rw [hw, setBlock, if_pos ⟨hr, hc⟩]
  congr 1
  refine ext_entry hsr.symm hsc.symm fun i (hi : i < a.rows) j (hj : j < a.cols) => ?_
  rw [entry_ofFn _ hi hj, he i hi j hj]
  split
  case isTrue h => exact (b.entry_body _ _).symm
  case isFalse => exact (a.entry_body ⟨i, hi⟩ ⟨j, hj⟩).symm

structure Replaces (c a : Mat α) (row col : Nat) (b : Mat α) : Prop where
  shape   : c.shape = a.shape
  inside  : c.block ⟨row, col, b.rows, b.cols⟩ = .ok b
  outside : ∀ i < a.rows, ∀ j < a.cols, ¬((row ≤ i ∧ i < row + b.rows) ∧ col ≤ j ∧
    j < col + b.cols) →
    c.read i j = a.read i j

theorem exists_setBlock (hr : row + b.rows ≤ a.rows) (hc : col + b.cols ≤ a.cols) :
    ∃ c, a.setBlock row col b = .ok c ∧ a.writeEach row col b = .ok c ∧ c.Replaces a row col b := by
  obtain ⟨c, hw, hs, he⟩ := exists_writeEach hr hc
  obtain ⟨hsr, hsc⟩ := Shape.mk.inj hs
  refine ⟨c, (setBlock_eq_writeEach hr hc).trans hw, hw, hs, ?_, fun i hi j hj hn => ?_⟩
  case refine_1 =>
    refine block_eq_ok (hr.trans_eq hsr.symm) (hc.trans_eq hsc.symm) rfl ?_
    intro i (hi : i < b.rows) j (hj : j < b.cols)
    rw [he (row + i) (by omega) (col + j) (by omega), if_pos (by omega), Nat.add_sub_cancel_left,
      Nat.add_sub_cancel_left]
  case refine_2 =>
    rw [read_eq hi hj, read_eq (hi.trans_eq hsr.symm) (hj.trans_eq hsc.symm), he i hi j hj,
      if_neg (by omega)]

end Mat

-- A window, however often rows have been taken from it, answers like a copy of its entries, and a
-- block that is written into a matrix is found there again, with everything around it as it was.
theorem alike_block_and_replaces_setBlock {α : Type} [Arith α] [RealLike α] (a : Mat α) :
    (∀ (r : Region) (cuts : List (Nat × Nat)), r.Within a.shape → r.Allows cuts →
      ∃ w c, (Window.of a r >>= fun w => w.takeRowsEach cuts) = .ok w ∧
        a.block (cuts.foldl Region.takeRows r) = .ok c ∧
        w.toMat = c ∧ w.Alike (.full c) ∧ w.Answers) ∧
    ∀ (row col : Nat) (b : Mat α), Region.Within ⟨row, col, b.rows, b.cols⟩ a.shape →
      ∃ c, a.setBlock row col b = .ok c ∧ a.writeEach row col b = .ok c ∧
        c.Replaces a row col b := by
  refine ⟨fun r cuts hr hc => ?_, fun row col b h => Mat.exists_setBlock h.left h.right⟩
  obtain ⟨w, hw, hb⟩ := Window.exists_block a hr hc
  exact ⟨w, w.toMat, hw, hb, rfl, w.alike_full_toMat, w.answers⟩

def countdown : Mat Float :=
  .ofFn 3 4 fun i j => .ofNat (12 - 4 * i - j)

theorem alike_block_and_replaces_setBlock_corner :
    (∀ cuts ∈ [[], [(1, 1)], [(1, 1), (1, 0)]], Region.Allows ⟨1, 2, 2, 2⟩ cuts ∧
      ∃ w c, (Window.of countdown ⟨1, 2, 2, 2⟩ >>= fun w => w.takeRowsEach cuts) = .ok w ∧
        countdown.block (cuts.foldl Region.takeRows ⟨1, 2, 2, 2⟩) = .ok c ∧
        w.toMat = c ∧ w.Alike (.full c) ∧ w.Answers) ∧
    ∃ c, countdown.setBlock 1 2 (.ofFn 2 2 fun _ _ => 1) = .ok c ∧
      countdown.writeEach 1 2 (.ofFn 2 2 fun _ _ => 1) = .ok c ∧
      c.Replaces countdown 1 2 (.ofFn 2 2 fun _ _ => 1) := by
  have hw : Region.Within ⟨1, 2, 2, 2⟩ countdown.shape := ⟨le_rfl, le_rfl⟩
  obtain ⟨h, h'⟩ := alike_block_and_replaces_setBlock countdown
  refine ⟨fun cuts hm => ?_, h' 1 2 _ hw⟩
  have hc : Region.Allows ⟨1, 2, 2, 2⟩ cuts := by
    simp only [List.mem_cons, List.not_mem_nil, or_false] at hm
    obtain rfl | rfl | rfl := hm <;> simp [Region.Allows, Region.takeRows]
  exact ⟨hc, h _ cuts hw hc⟩

end LinearGaussian
