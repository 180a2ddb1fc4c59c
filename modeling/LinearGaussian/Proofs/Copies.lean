import LinearGaussian.Proofs.NetMatrix
import LinearGaussian.Proofs.Storage

namespace LinearGaussian

open LinearFactor

def Region.Contains (r : Region) (k l : Nat) : Prop :=
  (r.row ≤ k ∧ k < r.row + r.rows) ∧ r.col ≤ l ∧ l < r.col + r.cols

namespace Mat

variable {α : Type} [Arith α] {a b c : Mat α} {t : Nat → Nat → α} {p q : Nat → Nat → Prop}
  {row col : Nat}

-- The places in `p` have been given the values of `t`, and all others are as they were.
structure Fills (t : Nat → Nat → α) (p : Nat → Nat → Prop) (a c : Mat α) : Prop where
  shape  : c.shape = a.shape
  copied : ∀ k < a.rows, ∀ l < a.cols, p k l → c.entry k l = t k l
  frame  : ∀ k < a.rows, ∀ l < a.cols, ¬p k l → c.entry k l = a.entry k l

namespace Fills

theorem refl (t : Nat → Nat → α) (a : Mat α) : Fills t (fun _ _ => False) a a where
  shape  := rfl
  copied := fun _ _ _ _ h => h.elim
  frame  := fun _ _ _ _ _ => rfl

theorem trans (h : Fills t p a b) (h' : Fills t q b c) :
    Fills t (fun k l => p k l ∨ q k l) a c := by
  obtain ⟨hr, hc⟩ := Shape.mk.inj h.shape
  constructor
  case shape => exact h'.shape.trans h.shape
  case copied =>
    intro k hk l hl hpq
    by_cases hq : q k l
    case pos => exact h'.copied k (hr ▸ hk) l (hc ▸ hl) hq
    case neg => rw [h'.frame k (hr ▸ hk) l (hc ▸ hl) hq, h.copied k hk l hl (hpq.resolve_right hq)]
  case frame =>
    intro k hk l hl hpq
    obtain ⟨hp, hq⟩ := not_or.mp hpq
    rw [h'.frame k (hr ▸ hk) l (hc ▸ hl) hq, h.frame k hk l hl hp]

theorem congr (h : Fills t p a c) (hpq : ∀ k l, p k l ↔ q k l) : Fills t q a c where
  shape  := h.shape
  copied := fun k hk l hl hq => h.copied k hk l hl ((hpq k l).mpr hq)
  frame  := fun k hk l hl hq => h.frame k hk l hl (mt (hpq k l).mp hq)

theorem eq_ofFn {m n : Nat} (h : Fills t p (zeros m n) c)
    (h0 : ∀ k < m, ∀ l < n, ¬p k l → t k l = 0) :
    c = ofFn m n fun k l => t k l := by
  obtain ⟨hr, hc⟩ := Shape.mk.inj h.shape
  refine ext_entry hr hc fun k hk l hl => ?_
  have hk : k < m := hk.trans_eq hr
  have hl : l < n := hl.trans_eq hc
  rw [entry_ofFn _ hk hl]
  by_cases hp : p k l
  case pos => exact h.copied k hk l hl hp
  case neg => rw [h.frame k hk l hl hp, h0 k hk l hl hp, zeros, entry_ofFn _ hk hl]

end Fills

-- If every round of a loop fills its own places, the loop fills the places of all rounds.
theorem exists_fills_foldlM {σ ι : Type} {view : σ → Mat α} {I : σ → Prop}
    {step : σ → ι → Outcome σ} {p : ι → Nat → Nat → Prop} {es : List ι} {s : σ}
    (h : ∀ e ∈ es, ∀ s, I s → ∃ s', step s e = .ok s' ∧ I s' ∧ Fills t (p e) (view s) (view s'))
    (hs : I s) :
    ∃ s', es.foldlM step s = .ok s' ∧ I s' ∧
      Fills t (fun k l => ∃ e ∈ es, p e k l) (view s) (view s') := by
  induction es generalizing s
  case nil => exact ⟨s, rfl, hs, (Fills.refl t _).congr (by simp)⟩
  case cons e es ih =>
    obtain ⟨he, hes⟩ := List.forall_mem_cons.mp h
    obtain ⟨u, hu, hui, huf⟩ := he s hs
    obtain ⟨s', hs', hi, hf⟩ := ih hes hui
    refine ⟨s', ?_, hi, (huf.trans hf).congr (by simp)⟩
    rw [List.foldlM_cons, hu, Outcome.ok_bind, hs']

theorem exists_fills_foldlM_of_shape {ι : Type} {step : Mat α → ι → Outcome (Mat α)}
    {p : ι → Nat → Nat → Prop} {es : List ι}
    (h : ∀ e ∈ es, ∀ b, b.shape = a.shape → ∃ c, step b e = .ok c ∧ Fills t (p e) b c) :
    ∃ c, es.foldlM step a = .ok c ∧ Fills t (fun k l => ∃ e ∈ es, p e k l) a c := by
  have hstep : ∀ e ∈ es, ∀ b, b.shape = a.shape →
      ∃ c, step b e = .ok c ∧ c.shape = a.shape ∧ Fills t (p e) b c := by
    intro e he b hb
    obtain ⟨c, hc, hf⟩ := h e he b hb
    exact ⟨c, hc, hf.shape.trans hb, hf⟩
  obtain ⟨c, hc, _, hf⟩ := exists_fills_foldlM hstep rfl
  exact ⟨c, hc, hf⟩

theorem exists_fills_writeEach (hr : row + b.rows ≤ a.rows) (hc : col + b.cols ≤ a.cols)
    (ht : ∀ i < b.rows, ∀ j < b.cols, t (row + i) (col + j) = b.entry i j) :
    ∃ c, a.writeEach row col b = .ok c ∧
      Fills t (Region.Contains ⟨row, col, b.rows, b.cols⟩) a c := by
  obtain ⟨c, hw, hs, he⟩ := exists_writeEach hr hc
  refine ⟨c, hw, hs, fun k hk l hl hp => ?_, fun k hk l hl hp => ?_⟩
  case refine_1 =>
    obtain ⟨⟨hk₁, hk₂⟩, hl₁, hl₂⟩ := hp
    dsimp only at hk₁ hk₂ hl₁ hl₂
    rw [he k hk l hl, if_pos (by omega), ← ht _ (by omega) _ (by omega), Nat.add_sub_cancel' hk₁,
      Nat.add_sub_cancel' hl₁]
  case refine_2 =>
    refine (he k hk l hl).trans (if_neg fun h => hp ?_)
    simp only [Region.Contains]
    omega

theorem exists_fills_writeEach_ofFn {m n : Nat} {g : Fin m → Fin n → α} (hr : row + m ≤ a.rows)
    (hc : col + n ≤ a.cols) (ht : ∀ i j, t (row + i.val) (col + j.val) = g i j) :
    ∃ c, a.writeEach row col (ofFn m n g) = .ok c ∧
      Fills t (Region.Contains ⟨row, col, m, n⟩) a c := by
  refine exists_fills_writeEach hr hc fun i (hi : i < m) j (hj : j < n) => ?_
  rw [entry_ofFn _ hi hj, ← ht]

end Mat

theorem BlockMatrix.exists_fills_setBlock {α : Type} [Arith α] {b : BlockMatrix α} {a : Mat α}
    {i row : Nat} {t : Nat → Nat → α} (hi : b.widths[i]? = some a.cols) (hr : row + a.rows ≤ b.rows)
    (ht : ∀ k < a.rows, ∀ l < a.cols, t (row + k) (b.offsetAt i + l) = a.entry k l) :
    ∃ c, b.setBlock i row a = .ok c ∧ c.widths = b.widths ∧
      Mat.Fills t (Region.Contains ⟨row, b.offsetAt i, a.rows, a.cols⟩) b.full c.full := by
  obtain ⟨hw, hiw⟩ := List.getElem?_eq_some_iff.mp hi
  have hc : b.offsetAt i + a.cols ≤ b.full.cols := by
    rw [← hiw, ← b.offsetAt_succ hw]
    exact b.offsetAt_le _
  obtain ⟨c, hset, hf⟩ := Mat.exists_fills_writeEach hr hc ht
  have hcover : b.widths.sum = c.cols := b.cover.trans (Shape.mk.inj hf.shape).right.symm
  refine ⟨⟨c, b.widths, hcover⟩, ?_, rfl, hf⟩
  rw [← Mat.setBlock_eq_writeEach hr hc] at hset
  simp [setBlock, width, hi, inRange, require, modify, hset, ofMat, hcover]

theorem BlockMatrix.exists_block {α : Type} [Arith α] (b : BlockMatrix α) {i : Nat}
    (h : i < b.widths.length) :
    ∃ w, b.block i = .ok w ∧ w.toMat.rows = b.rows ∧ w.toMat.cols = b.widths[i] ∧
      ∀ k < b.rows, ∀ l < b.widths[i], w.toMat.entry k l = b.full.entry k (b.offsetAt i + l) := by
  obtain ⟨w, hw, hbase, hrow, hcol, hr, hc⟩ := b.block_eq h
  refine ⟨w, hw, hr, hc, fun k hk l hl => ?_⟩
  rw [w.entry_toMat (hk.trans_eq hr.symm) (hl.trans_eq hc.symm), hbase, hrow, hcol, Nat.zero_add]

section RowStarts

variable {ι β : Type} {extent : ι → Nat} {es : List ι} {row : Nat} {part : Nat × ι}

def rowStarts (extent : ι → Nat) : Nat → List ι → List (Nat × ι)
  | _, [] => []
  | row, e :: es => (row, e) :: rowStarts extent (row + extent e) es

theorem exists_append_of_mem_rowStarts (h : part ∈ rowStarts extent row es) :
    ∃ before after, es = before ++ part.2 :: after ∧ part.1 = row + (before.map extent).sum := by
  induction es generalizing row
  case nil => contradiction
  case cons e es ih =>
    cases h
    case head => exact ⟨[], es, rfl, rfl⟩
    case tail h =>
      obtain ⟨before, after, he, hp⟩ := ih h
      refine ⟨e :: before, after, by rw [he, List.cons_append], ?_⟩
      rw [hp, List.map_cons, List.sum_cons, Nat.add_assoc]

theorem mem_of_mem_rowStarts (h : part ∈ rowStarts extent row es) : part.2 ∈ es := by
  obtain ⟨_, _, he, _⟩ := exists_append_of_mem_rowStarts h
  simp [he]

theorem add_extent_le (h : part ∈ rowStarts extent 0 es) :
    part.1 + extent part.2 ≤ (es.map extent).sum := by
  obtain ⟨before, after, he, hp⟩ := exists_append_of_mem_rowStarts h
  simp [he, hp]

theorem endToEnd_rowStarts (b : β) (u : ι → Nat → β) (h : part ∈ rowStarts extent 0 es) {i : Nat}
    (hi : i < extent part.2) :
    endToEnd b (es.map fun e => (extent e, u e)) (part.1 + i) = u part.2 i := by
  obtain ⟨before, after, he, hp⟩ := exists_append_of_mem_rowStarts h
  have ha := endToEnd_append b (before.map fun e => (extent e, u e))
    (after.map fun e => (extent e, u e)) _ (u part.2) hi
  rw [he, hp, Nat.zero_add, List.map_append, List.map_cons]
  simpa [Function.comp_def] using ha

theorem exists_rowStarts {k : Nat} (hr : row ≤ k) (hk : k < row + (es.map extent).sum) :
    ∃ part ∈ rowStarts extent row es, ∃ i < extent part.2, k = part.1 + i := by
  induction es generalizing row
  case nil =>
    rw [List.map_nil, List.sum_nil] at hk
    omega
  case cons e es ih =>
    rw [List.map_cons, List.sum_cons] at hk
    by_cases he : k < row + extent e
    case pos =>
      exact ⟨(row, e), .head _, k - row,
        show k - row < extent e by omega, show k = row + (k - row) by omega⟩
    case neg =>
      obtain ⟨part, hp, h⟩ := ih (show row + extent e ≤ k by omega) (by omega)
      exact ⟨part, .tail _ hp, h⟩

-- If every part of a stack is filled in turn, and all that is left out of it is zero, the stack is
-- complete.
theorem exists_foldlM_rowStarts {α σ : Type} [Arith α] {view : σ → Mat α} {I : σ → Prop}
    {step : σ → Nat × ι → Outcome σ} {q : ι → Nat → Prop} {t : Nat → Nat → α} {n : Nat} {s : σ}
    (h : ∀ part ∈ rowStarts extent 0 es, ∀ s, I s → ∃ s', step s part = .ok s' ∧ I s' ∧
      Mat.Fills t (fun k l => (part.1 ≤ k ∧ k < part.1 + extent part.2) ∧ q part.2 l)
        (view s) (view s'))
    (h0 : ∀ part ∈ rowStarts extent 0 es, ∀ i < extent part.2, ∀ l < n, ¬q part.2 l →
      t (part.1 + i) l = 0)
    (hs : I s) (hv : view s = .zeros (es.map extent).sum n) :
    ∃ s', (rowStarts extent 0 es).foldlM step s = .ok s' ∧ I s' ∧
      view s' = .ofFn (es.map extent).sum n fun k l => t k l := by
  obtain ⟨s', hs', hi, hf⟩ := Mat.exists_fills_foldlM h hs
  refine ⟨s', hs', hi, (hv ▸ hf).eq_ofFn fun k hk l hl hp => ?_⟩
  obtain ⟨part, he, i, hi, rfl⟩ :=
    exists_rowStarts (Nat.zero_le k) (hk.trans_eq (Nat.zero_add _).symm)
  exact h0 part he i hi l hl fun hq =>
    hp ⟨part, he, ⟨Nat.le_add_right _ _, Nat.add_lt_add_left hi _⟩, hq⟩

end RowStarts

theorem exists_mem_zipIdx_iff {β : Type} {es : List β} (p : β → Prop) :
    (∃ e ∈ es.zipIdx, p e.1) ↔ ∃ e ∈ es, p e := by
  constructor
  case mp => exact fun ⟨e, he, hp⟩ => ⟨e.1, List.fst_mem_of_mem_zipIdx he, hp⟩
  case mpr =>
    rintro ⟨e, he, hp⟩
    obtain ⟨pos, hm⟩ := exists_mem_zipIdx he
    exact ⟨(e, pos), hm, hp⟩

namespace Widths

variable {ws : Widths} {w : Key × Nat}

def Spans (ws : Widths) (w : Key × Nat) (l : Nat) : Prop :=
  ws.start w.1 ≤ l ∧ l < ws.start w.1 + w.2

theorem exists_append_of_mem (hn : ws.keys.Nodup) (hw : w ∈ ws) :
    ∃ before after, ws = before ++ w :: after ∧ ws.keys.idxOf w.1 = before.length ∧
      ws.start w.1 = (before.map (·.2)).sum := by
  induction ws
  case nil => contradiction
  case cons u ws ih =>
    cases hw
    case head => exact ⟨[], ws, rfl, by simp [keys], start_cons_self _ _⟩
    case tail hw =>
      obtain ⟨before, after, he, hi, hs⟩ := ih (List.nodup_cons.mp hn).right hw
      have hu : u.1 ≠ w.1 :=
        fun h => (List.nodup_cons.mp hn).left (List.mem_map.mpr ⟨w, hw, h.symm⟩)
      refine ⟨u :: before, after, by rw [he, List.cons_append], ?_, ?_⟩
      case refine_1 =>
        rw [keys, List.map_cons, List.idxOf_cons_ne _ hu, ← keys, hi, List.length_cons]
      case refine_2 => rw [start_cons_of_mem hn hw, hs, List.map_cons, List.sum_cons]

end Widths

namespace LinearFactor

variable {α : Type} [Arith α] [RealLike α] {f : LinearFactor α} {factors : List (LinearFactor α)}
  {ws : Widths} {b : BlockMatrix α} {t : Nat → Nat → α} {row : Nat}

def copyBlock (f : LinearFactor α) (ws : Widths) (row : Nat) (b : BlockMatrix α) (e : Key × Nat) :
    Outcome (BlockMatrix α) := do
  b.setBlock (ws.keys.idxOf e.1) row (← f.ab.block e.2).toMat

def copyRhs (f : LinearFactor α) (ws : Widths) (row : Nat) (b : BlockMatrix α) :
    Outcome (BlockMatrix α) := do
  b.setBlock ws.length row (← f.ab.block f.keys.length).toMat

def copyRows (ws : Widths) (b : BlockMatrix α) (part : Nat × LinearFactor α) :
    Outcome (BlockMatrix α) := do
  part.2.copyRhs ws part.1 (← part.2.keys.zipIdx.foldlM (part.2.copyBlock ws part.1) b)

def copyAll (factors : List (LinearFactor α)) (ws : Widths) : Outcome (BlockMatrix α) :=
  (rowStarts rows 0 factors).foldlM (copyRows ws)
    (.zeros (factors.map rows).sum (ws.map (·.2) ++ [1]))

def Copied (ws : Widths) (f : LinearFactor α) (l : Nat) : Prop :=
  (∃ w ∈ f.dims, ws.Spans w l) ∨ l = (ws.map (·.2)).sum

namespace WellFormed

theorem spread_of_mem_zipIdx (h : f.WellFormed) (hn : ws.keys.Nodup) (hs : f.dims ⊆ ws)
    {e : (Key × Nat) × Nat} (he : e ∈ f.dims.zipIdx) (i : Nat) {l : Nat} (hl : l < e.1.2) :
    f.spread ws i (ws.start e.1.1 + l) = f.ab.full.entry i (f.ab.offsetAt e.2 + l) := by
  rw [f.spread_start hn (hs (List.fst_mem_of_mem_zipIdx he)) i hl, h.coefficient_of_mem_zipIdx he]

theorem spread_eq_zero (h : f.WellFormed) (hn : ws.keys.Nodup) (hs : f.dims ⊆ ws) {l : Nat}
    (hl : l < (ws.map (·.2)).sum) (hd : ∀ w ∈ f.dims, ¬ws.Spans w l) (i : Nat) :
    f.spread ws i l = 0 := by
  obtain ⟨w, hw, j, hj, rfl⟩ := Widths.exists_start hn hl
  rw [f.spread_start hn hw i hj]
  refine coefficient_of_not_mem ((h.mem_dims_or hn hs hw).resolve_left fun hm => hd w hm ?_) i j
  exact ⟨Nat.le_add_right _ _, Nat.add_lt_add_left hj _⟩

theorem exists_copyBlock (h : f.WellFormed) (hn : ws.keys.Nodup) (hs : f.dims ⊆ ws)
    (hb : b.widths = ws.map (·.2) ++ [1]) (hr : row + f.rows ≤ b.rows)
    (ht : ∀ i < f.rows, ∀ l, t (row + i) l = f.spread ws i l) {e : (Key × Nat) × Nat}
    (he : e ∈ f.dims.zipIdx) :
    ∃ c, f.copyBlock ws row b (e.1.1, e.2) = .ok c ∧ c.widths = b.widths ∧
      Mat.Fills t (fun k l => (row ≤ k ∧ k < row + f.rows) ∧ ws.Spans e.1 l) b.full c.full := by
  obtain ⟨before, after, hws, hi, hst⟩ :=
    Widths.exists_append_of_mem hn (hs (List.fst_mem_of_mem_zipIdx he))
  have ho : b.offsetAt (ws.keys.idxOf e.1.1) = ws.start e.1.1 := by
    rw [BlockMatrix.offsetAt, hb, hi, hst, hws]
    simp
  obtain ⟨hp, hd⟩ := List.mem_zipIdx' he
  obtain ⟨_, hw, hde⟩ := h.getElem_dims (hp.trans_eq h.length_dims)
  have hc : e.1.2 = f.ab.widths[e.2] := by rw [hd, hde]
  obtain ⟨w, hbl, hwr, hwc, hwe⟩ := f.ab.exists_block hw
  have hwc : w.toMat.cols = e.1.2 := hwc.trans hc.symm
  have hwi : b.widths[ws.keys.idxOf e.1.1]? = some w.toMat.cols := by
    rw [hb, hi, hwc, hws]
    simp
  have hwt : ∀ k < w.toMat.rows, ∀ l < w.toMat.cols,
      t (row + k) (b.offsetAt (ws.keys.idxOf e.1.1) + l) = w.toMat.entry k l := by
    intro k hk l hl
    have hk : k < f.rows := hk.trans_eq hwr
    rw [ho, ht k hk, h.spread_of_mem_zipIdx hn hs he k (hl.trans_eq hwc)]
    exact (hwe k hk l (hl.trans_eq (hwc.trans hc))).symm
  obtain ⟨c, hset, hcw, hf⟩ := BlockMatrix.exists_fills_setBlock hwi (hwr ▸ hr) hwt
  refine ⟨c, by rw [copyBlock, hbl, Outcome.ok_bind, hset], hcw, hf.congr fun k l => ?_⟩
  rw [ho, hwr, hwc]
  rfl

theorem exists_copyRhs (h : f.WellFormed) (hb : b.widths = ws.map (·.2) ++ [1])
    (hr : row + f.rows ≤ b.rows) (ht : ∀ i < f.rows, ∀ l, t (row + i) l = f.spread ws i l) :
    ∃ c, f.copyRhs ws row b = .ok c ∧ c.widths = b.widths ∧
      Mat.Fills t (fun k l => (row ≤ k ∧ k < row + f.rows) ∧ l = (ws.map (·.2)).sum)
        b.full c.full := by
  obtain ⟨hl, hl1⟩ := List.getElem?_eq_some_iff.mp h.last
  obtain ⟨w, hbl, hwr, hwc, hwe⟩ := f.ab.exists_block hl
  rw [hl1] at hwc hwe
  have ho : b.offsetAt ws.length = (ws.map (·.2)).sum := by simp [BlockMatrix.offsetAt, hb]
  have hwi : b.widths[ws.length]? = some w.toMat.cols := by simp [hb, hwc]
  have hwt : ∀ k < w.toMat.rows, ∀ l < w.toMat.cols, t (row + k) (b.offsetAt ws.length + l) =
      w.toMat.entry k l := by
    intro k hk l hl
    have hk : k < f.rows := hk.trans_eq hwr
    have hl : l = 0 := by omega
    rw [hl, ho, ht k hk, spread_eq, hwe k hk 0 Nat.one_pos]
    exact endToEnd_sum ..
  obtain ⟨c, hset, hcw, hf⟩ := BlockMatrix.exists_fills_setBlock hwi (hwr ▸ hr) hwt
  refine ⟨c, by rw [copyRhs, hbl, Outcome.ok_bind, hset], hcw, hf.congr fun k l => ?_⟩
  have hl : ((ws.map (·.2)).sum ≤ l ∧ l < (ws.map (·.2)).sum + 1) ↔ l = (ws.map (·.2)).sum := by
    omega
  rw [ho, hwr, hwc, Region.Contains, hl]
  rfl

theorem exists_copyRows (h : f.WellFormed) (hn : ws.keys.Nodup) (hs : f.dims ⊆ ws)
    (hb : b.widths = ws.map (·.2) ++ [1]) (hr : row + f.rows ≤ b.rows)
    (ht : ∀ i < f.rows, ∀ l, t (row + i) l = f.spread ws i l) :
    ∃ c, copyRows ws b (row, f) = .ok c ∧ c.widths = b.widths ∧
      Mat.Fills t (fun k l => (row ≤ k ∧ k < row + f.rows) ∧ Copied ws f l) b.full c.full := by
  have hk : f.keys.zipIdx = f.dims.zipIdx.map fun e => (e.1.1, e.2) := h.zipIdx_keys 0
  have hstep : ∀ e ∈ f.dims.zipIdx, ∀ c : BlockMatrix α, c.widths = b.widths ∧ c.rows = b.rows →
      ∃ d, f.copyBlock ws row c (e.1.1, e.2) = .ok d ∧ (d.widths = b.widths ∧ d.rows = b.rows) ∧
        Mat.Fills t (fun k l => (row ≤ k ∧ k < row + f.rows) ∧ ws.Spans e.1 l) c.full d.full := by
    rintro e he c ⟨hcw, hcr⟩
    obtain ⟨d, hd, hdw, hf⟩ := h.exists_copyBlock hn hs (hcw.trans hb) (hcr ▸ hr) ht he
    exact ⟨d, hd, ⟨hdw.trans hcw, (Shape.mk.inj hf.shape).left.trans hcr⟩, hf⟩
  obtain ⟨u, hu, ⟨huw, hur⟩, huf⟩ := Mat.exists_fills_foldlM hstep ⟨rfl, rfl⟩
  obtain ⟨c, hc, hcw, hf⟩ := h.exists_copyRhs (huw.trans hb) (hur ▸ hr) ht
  refine ⟨c, by rw [copyRows, hk, List.foldlM_map, hu, Outcome.ok_bind, hc], hcw.trans huw, ?_⟩
  refine (huf.trans hf).congr fun k l => ?_
  rw [exists_mem_zipIdx_iff fun w => (row ≤ k ∧ k < row + f.rows) ∧ ws.Spans w l, Copied,
    and_or_left]
  grind

end WellFormed

-- The blocks of all factors, copied into a matrix of zeros, are the stack.
theorem copyAll_eq (hf : ∀ f ∈ factors, f.WellFormed) (hn : ws.keys.Nodup)
    (hs : ∀ f ∈ factors, f.dims ⊆ ws) :
    copyAll factors ws = .ok (stacked factors ws) := by
  -- What the buffer holds in the end. Each round of the loop writes the rows of a factor.
  let t (k l : Nat) : α := endToEnd (fun _ => 0) (factors.map fun f => (f.rows, f.spread ws)) k l
  have ht : ∀ part ∈ rowStarts rows 0 factors, ∀ i < part.2.rows, ∀ l,
      t (part.1 + i) l = part.2.spread ws i l :=
    fun _ he _ hi => congrFun (endToEnd_rowStarts (fun _ => 0) (fun f => f.spread ws) he hi)
  have hstep : ∀ part ∈ rowStarts rows 0 factors, ∀ b : BlockMatrix α,
      b.widths = ws.map (·.2) ++ [1] ∧ b.rows = (factors.map rows).sum →
      ∃ c, copyRows ws b part = .ok c ∧
        (c.widths = ws.map (·.2) ++ [1] ∧ c.rows = (factors.map rows).sum) ∧
        Mat.Fills t (fun k l => (part.1 ≤ k ∧ k < part.1 + part.2.rows) ∧ Copied ws part.2 l)
          b.full c.full := by
    rintro part he b ⟨hbw, hbr⟩
    have hm := mem_of_mem_rowStarts he
    obtain ⟨c, hc, hcw, hfill⟩ :=
      (hf _ hm).exists_copyRows hn (hs _ hm) hbw (hbr ▸ add_extent_le he) (ht part he)
    exact ⟨c, hc, ⟨hcw.trans hbw, (Shape.mk.inj hfill.shape).left.trans hbr⟩, hfill⟩
  have h0 : ∀ part ∈ rowStarts rows 0 factors, ∀ i < part.2.rows,
      ∀ l < (ws.map (fun w : Key × Nat => w.2) ++ [1]).sum, ¬Copied ws part.2 l →
        t (part.1 + i) l = 0 := by
    intro part he i hi l hl hq
    obtain ⟨hd, hl'⟩ := not_or.mp hq
    have hm := mem_of_mem_rowStarts he
    rw [List.sum_append, List.sum_singleton] at hl
    rw [ht part he i hi]
    exact (hf _ hm).spread_eq_zero hn (hs _ hm) (by omega) (fun w hw hl => hd ⟨w, hw, hl⟩) i
  have hz : (BlockMatrix.zeros (factors.map rows).sum (ws.map (·.2) ++ [1]) : BlockMatrix α).full =
      .zeros _ _ := rfl
  obtain ⟨c, hc, ⟨hcw, _⟩, hfull⟩ := exists_foldlM_rowStarts hstep h0 ⟨rfl, rfl⟩ hz
  rw [copyAll, hc]
  exact congrArg _ (BlockMatrix.eq_of_full hfull hcw)

-- The matrix of combined factors is made of copies of their blocks.
theorem copyAll_combine {order : List Key} (hf : ∀ g ∈ factors, g.WellFormed)
    (h : combine factors order = .ok f) :
    copyAll factors f.dims = .ok f.ab := by
  obtain ⟨hab, _⟩ := dims_combine h
  rw [hab]
  refine copyAll_eq hf (wellFormed_combine hf h).nodup_dims fun g hg w hw => ?_
  exact (mem_dims_combine h).mpr ⟨g, hg, hw⟩

end LinearFactor

namespace PivotRow

variable {α : Type} [Arith α] {n : Nat} {rows : List (PivotRow α n)} {row : PivotRow α n}
  {a : Mat α}

def writeInto (a : Mat α) (row : PivotRow α n) : Outcome (Mat α) :=
  a.writeEach row.pivot row.pivot
    (.ofFn 1 (n - row.pivot) fun _ j => row.values.get ⟨row.pivot + j, by omega⟩)

def entryAt (rows : List (PivotRow α n)) (k l : Nat) : α :=
  if h : l < n then ((find? rows k).map (·.entry ⟨l, h⟩)).getD 0 else 0

theorem exists_writeInto (hn : (rows.map (·.pivot)).Nodup) (hr : row ∈ rows)
    (ha : row.pivot < a.rows) (hc : n = a.cols) :
    ∃ c, row.writeInto a = .ok c ∧
      Mat.Fills (entryAt rows) (fun k l => k = row.pivot ∧ row.pivot ≤ l ∧ l < n) a c := by
  have hp : row.pivot.val < n := row.pivot.isLt
  have hf : find? rows row.pivot = some row := (find?_eq_some_iff hn).mpr ⟨hr, rfl⟩
  have ht (i : Fin 1) (j : Fin (n - row.pivot)) :
      entryAt rows (row.pivot + i.val) (row.pivot + j.val) =
        row.values.get ⟨row.pivot + j, by omega⟩ := by
    have hl : row.pivot + j.val < n := by omega
    rw [Fin.val_eq_zero, Nat.add_zero, entryAt, dif_pos hl, hf]
    exact if_pos (Nat.le_add_right _ _)
  obtain ⟨c, hw, hfill⟩ := Mat.exists_fills_writeEach_ofFn (show row.pivot + 1 ≤ a.rows by omega)
    (show row.pivot + (n - row.pivot) ≤ a.cols by omega) ht
  refine ⟨c, hw, hfill.congr fun k l => ?_⟩
  simp only [Region.Contains]
  omega

-- The rows with a frontal pivot, written into a matrix of zeros, are those of the density.
theorem foldlM_writeInto {f : LinearFactor α} {rows : List (PivotRow α f.ab.full.cols)}
    (hn : (rows.map (·.pivot)).Nodup) (count : Nat) :
    (rows.filter fun row => row.pivot.val < f.ab.offsetAt count).foldlM writeInto
      (Mat.zeros (f.ab.offsetAt count) f.ab.full.cols) =
        .ok (Elimination.frontalRows f count rows).full := by
  have hstep : ∀ row ∈ rows.filter fun row => row.pivot.val < f.ab.offsetAt count, ∀ a : Mat α,
      a.shape = (Mat.zeros (f.ab.offsetAt count) f.ab.full.cols : Mat α).shape →
      ∃ c, row.writeInto a = .ok c ∧
        Mat.Fills (entryAt rows) (fun k l => k = row.pivot ∧ row.pivot ≤ l ∧ l < f.ab.full.cols)
          a c := by
    intro row hrow a ha
    obtain ⟨hr, hp⟩ := List.mem_filter.mp hrow
    obtain ⟨har, hac⟩ := Shape.mk.inj ha
    exact exists_writeInto hn hr ((of_decide_eq_true hp).trans_eq har.symm) hac.symm
  obtain ⟨c, hc, hf⟩ := Mat.exists_fills_foldlM_of_shape hstep
  -- Places that no row is written to are left of a pivot, or in a row without one.
  have h0 : ∀ k < f.ab.offsetAt count, ∀ l < f.ab.full.cols,
      (¬∃ row ∈ rows.filter fun row => row.pivot.val < f.ab.offsetAt count,
        k = row.pivot ∧ row.pivot ≤ l ∧ l < f.ab.full.cols) → entryAt rows k l = 0 := by
    intro k hk l hl hp
    rw [entryAt, dif_pos hl]
    cases hfind : find? rows k
    case none => rfl
    case some row =>
      obtain ⟨hr, hrk⟩ := (find?_eq_some_iff hn).mp hfind
      subst hrk
      exact if_neg fun hle => hp ⟨row, List.mem_filter.mpr ⟨hr, decide_eq_true hk⟩, rfl, hle, hl⟩
  rw [hc, hf.eq_ofFn h0]
  simp [Elimination.frontalRows, entryAt]

end PivotRow

namespace BayesNet

variable {α : Type} [Arith α] [RealLike α]

def writeBlock (offsets : KeyMap Nat) (row : Nat) (c : Conditional α) (r : Mat α)
    (e : (Key × Nat) × Nat) : Outcome (Mat α) :=
  match offsets.get? e.1.1 with
  | none => fail (.notInNet e.1.1)
  | some col => r.writeEach row col
      (.ofFn c.rows e.1.2 fun i j => c.rsd.full.entry i (c.rsd.offsetAt e.2 + j) * c.model.weight i)

def writeRows (offsets : KeyMap Nat) (r : Mat α) (part : Nat × Conditional α) : Outcome (Mat α) :=
  (part.2.keys.zip part.2.rsd.widths).zipIdx.foldlM (writeBlock offsets part.1 part.2) r

def writeAll (n : BayesNet α) : Outcome (Mat α) :=
  (rowStarts Conditional.rows 0 n.conditionals).foldlM (writeRows n.offsets.1)
    (.zeros n.offsets.2 n.offsets.2)

end BayesNet

section Densities

variable {n : BayesNet ℝ} {c : Conditional ℝ} {ds : Widths} {r : Mat ℝ} {t : Nat → Nat → ℝ}
  {row : Nat}

theorem LinearFactor.WellFormed.exists_writeBlock (h : c.toFactor.WellFormed) (hn : ds.keys.Nodup)
    (hs : c.toFactor.dims ⊆ ds) {offsets : KeyMap Nat}
    (ho : ∀ w ∈ ds, offsets.get? w.1 = some (ds.start w.1)) (hr : row + c.rows ≤ r.rows)
    (hc : (ds.map (·.2)).sum = r.cols)
    (ht : ∀ i < c.rows, ∀ l, t (row + i) l = c.toFactor.spread ds i l * c.model.weight i)
    {e : (Key × Nat) × Nat} (he : e ∈ c.toFactor.dims.zipIdx) :
    ∃ s, BayesNet.writeBlock offsets row c r e = .ok s ∧
      Mat.Fills t (fun k l => (row ≤ k ∧ k < row + c.rows) ∧ ds.Spans e.1 l) r s := by
  have hw : e.1 ∈ ds := hs (List.fst_mem_of_mem_zipIdx he)
  have hle := Widths.start_add_le hn hw
  have hb (i : Fin c.rows) (j : Fin e.1.2) : t (row + i.val) (ds.start e.1.1 + j.val) =
      c.rsd.full.entry i (c.rsd.offsetAt e.2 + j) * c.model.weight i := by
    rw [ht i i.isLt, h.spread_of_mem_zipIdx hn hs he i j.isLt]
    rfl
  obtain ⟨s, hset, hf⟩ := Mat.exists_fills_writeEach_ofFn hr (hle.trans_eq hc) hb
  exact ⟨s, by simp only [BayesNet.writeBlock, ho _ hw, hset], hf⟩

theorem LinearFactor.WellFormed.exists_writeRows (h : c.toFactor.WellFormed) (hn : ds.keys.Nodup)
    (hs : c.toFactor.dims ⊆ ds) {offsets : KeyMap Nat}
    (ho : ∀ w ∈ ds, offsets.get? w.1 = some (ds.start w.1)) (hr : row + c.rows ≤ r.rows)
    (hc : (ds.map (·.2)).sum = r.cols)
    (ht : ∀ i < c.rows, ∀ l, t (row + i) l = c.toFactor.spread ds i l * c.model.weight i) :
    ∃ s, BayesNet.writeRows offsets r (row, c) = .ok s ∧
      Mat.Fills t (fun k l => (row ≤ k ∧ k < row + c.rows) ∧
        ∃ w ∈ c.toFactor.dims, ds.Spans w l) r s := by
  have hstep : ∀ e ∈ c.toFactor.dims.zipIdx, ∀ q : Mat ℝ, q.shape = r.shape →
      ∃ s, BayesNet.writeBlock offsets row c q e = .ok s ∧
        Mat.Fills t (fun k l => (row ≤ k ∧ k < row + c.rows) ∧ ds.Spans e.1 l) q s := by
    intro e he q hq
    obtain ⟨hqr, hqc⟩ := Shape.mk.inj hq
    exact h.exists_writeBlock hn hs ho (hqr ▸ hr) (hc.trans hqc.symm) ht he
  obtain ⟨s, hs, hf⟩ := Mat.exists_fills_foldlM_of_shape hstep
  refine ⟨s, hs, hf.congr fun k l => ?_⟩
  rw [exists_mem_zipIdx_iff fun w => (row ≤ k ∧ k < row + c.rows) ∧ ds.Spans w l]
  grind

-- The whitened blocks, written into a matrix of zeros, are the joint matrix.
theorem BayesNet.Coherent.writeAll_eq (h : n.Coherent) {d : Array ℝ} (hm : n.matrix = .ok (r, d)) :
    n.writeAll = .ok r := by
  obtain ⟨hcl, hr, _⟩ := h.of_matrix_eq_ok hm
  obtain ⟨hside, hoff⟩ : n.offsets.2 = (n.dims.map (·.2)).sum ∧
      ∀ w ∈ n.dims, n.offsets.1.get? w.1 = some (n.dims.start w.1) := BayesNet.offsets_eq hcl
  have hsum := h.sum_rows
  have ht : ∀ part ∈ rowStarts Conditional.rows 0 n.conditionals, ∀ i < part.2.rows, ∀ l,
      joint n.dims n.conditionals (part.1 + i) l =
        part.2.toFactor.spread n.dims i l * part.2.model.weight i :=
    fun _ he _ hi l =>
      endToEnd_rowStarts 0
        (fun (c : Conditional ℝ) i => c.toFactor.spread n.dims i l * c.model.weight i) he hi
  have hstep : ∀ part ∈ rowStarts Conditional.rows 0 n.conditionals, ∀ r : Mat ℝ,
      r.shape = ⟨(n.dims.map (·.2)).sum, (n.dims.map (·.2)).sum⟩ →
      ∃ s, writeRows n.offsets.1 r part = .ok s ∧
        s.shape = ⟨(n.dims.map (·.2)).sum, (n.dims.map (·.2)).sum⟩ ∧
        Mat.Fills (joint n.dims n.conditionals) (fun k l =>
          (part.1 ≤ k ∧ k < part.1 + part.2.rows) ∧
          ∃ w ∈ part.2.toFactor.dims, n.dims.Spans w l) r s := by
    intro part he r hr
    obtain ⟨hrr, hrc⟩ := Shape.mk.inj hr
    have hm := mem_of_mem_rowStarts he
    have hle : part.1 + part.2.rows ≤ r.rows := (add_extent_le he).trans_eq (hsum.trans hrr.symm)
    obtain ⟨s, hs, hf⟩ :=
      (hcl.wellFormed _ hm).exists_writeRows hcl.nodup (hcl.subset _ hm) hoff hle hrc.symm
        (ht part he)
    exact ⟨s, hs, hf.shape.trans hr, hf⟩
  -- A density has no coefficients in the columns that its loop does not reach.
  have h0 : ∀ part ∈ rowStarts Conditional.rows 0 n.conditionals, ∀ i < part.2.rows,
      ∀ l < (n.dims.map (·.2)).sum, (¬∃ w ∈ part.2.toFactor.dims, n.dims.Spans w l) →
        joint n.dims n.conditionals (part.1 + i) l = 0 := by
    intro part he i hi l hl hq
    have hm := mem_of_mem_rowStarts he
    rw [ht part he i hi, (hcl.wellFormed _ hm).spread_eq_zero hcl.nodup (hcl.subset _ hm) hl
      (fun w hw hl => hq ⟨w, hw, hl⟩), zero_mul]
  have hz : (Mat.zeros (n.dims.map (·.2)).sum (n.dims.map (·.2)).sum : Mat ℝ) =
      .zeros (n.conditionals.map Conditional.rows).sum (n.dims.map (·.2)).sum := by rw [hsum]
  obtain ⟨s, hs, _, hfull⟩ := exists_foldlM_rowStarts
    (q := fun (c : Conditional ℝ) l => ∃ w ∈ c.toFactor.dims, n.dims.Spans w l) hstep h0 rfl hz
  rw [writeAll, hside, hs, hfull, hr, hsum]

end Densities
end LinearGaussian
