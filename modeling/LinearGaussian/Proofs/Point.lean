import LinearGaussian.Proofs.Dense
import LinearGaussian.Assignment

namespace LinearGaussian

abbrev Point := Key → Nat → ℝ

namespace Point

def EqOn (dims : List (Key × Nat)) (p q : Point) : Prop :=
  ∀ w ∈ dims, ∀ j < w.2, p w.1 j = q w.1 j

variable {ds es : List (Key × Nat)} {p q r : Point}

theorem EqOn.symm (h : EqOn ds p q) : EqOn ds q p :=
  fun w hw j hj => (h w hw j hj).symm

theorem EqOn.trans (h₁ : EqOn ds p q) (h₂ : EqOn ds q r) : EqOn ds p r :=
  fun w hw j hj => (h₁ w hw j hj).trans (h₂ w hw j hj)

theorem EqOn.mono (h : EqOn es p q) (hs : ds ⊆ es) : EqOn ds p q :=
  fun w hw => h w (hs hw)

end Point

namespace Assignment

def Fits {α : Type} (x : Assignment α) (dims : List (Key × Nat)) : Prop :=
  ∀ w ∈ dims, ∃ v, x.get? w.1 = some v ∧ v.size = w.2

-- The point that an assignment describes. Coordinates that it does not assign are zero.
noncomputable def point (x : Assignment ℝ) : Point :=
  fun k j => ((x.get? k).getD #[]).getD j 0

theorem Fits.mono {α : Type} {x : Assignment α} {ds es : List (Key × Nat)} (h : x.Fits es)
    (hs : ds ⊆ es) :
    x.Fits ds :=
  fun w hw => h w (hs hw)

theorem valueOf_eq {α : Type} {x : Assignment α} {k : Key} {v : Array α} (h : x.get? k = some v) :
    x.valueOf k v.size = .ok v := by
  simp [valueOf, value, h]

theorem point_eq {x : Assignment ℝ} {k : Key} {v : Array ℝ} (h : x.get? k = some v) (j : Nat) :
    x.point k j = v.getD j 0 := by
  simp [point, h]

theorem point_congr {x y : Assignment ℝ} {k : Key} (h : x.get? k = y.get? k) :
    x.point k = y.point k := by
  funext j
  rw [point, point, h]

theorem get?_eq_of_eqOn {x y : Assignment ℝ} {ds : List (Key × Nat)} (hx : x.Fits ds)
    (hy : y.Fits ds) (h : Point.EqOn ds x.point y.point) {w : Key × Nat} (hw : w ∈ ds) :
    x.get? w.1 = y.get? w.1 := by
  have ⟨u, hu, hus⟩ := hx w hw
  have ⟨v, hv, hvs⟩ := hy w hw
  have huv : u = v := by
    apply Array.ext
    case h₁ => rw [hus, hvs]
    case h₂ =>
      intro j hju hjv
      have hj := h w hw j (hus ▸ hju)
      rw [point_eq hu, point_eq hv] at hj
      simpa [hju, hjv] using hj
  rw [hu, hv, huv]

end Assignment

namespace BlockMatrix

theorem exists_addBlocks {α : Type} [Arith α] (b : BlockMatrix α) (alpha : α) (x : Assignment α)
    (place : Nat → Nat) {ks : List (Key × Nat)}
    (h : ∀ e ∈ ks, ∃ v, ∃ h : place e.2 < b.widths.length, x.get? e.1 = some v ∧
      v.size = b.widths[place e.2])
    {y : Array α} (hy : y.size = b.rows) :
    ∃ z, ks.foldlM (fun y (k, pos) => do
        let a ← b.block (place pos)
        let v ← x.valueOf k a.cols
        a.addMulVec alpha v y) y = .ok z ∧ z.size = b.rows := by
  refine Outcome.exists_foldlM (P := fun y : Array α => y.size = b.rows) (fun e he y hy => ?_) hy
  have ⟨v, hp, hv, hd⟩ := h e he
  have ⟨w, hw, _, _, _, hrows, hcols⟩ := b.block_eq hp
  have hx : v.size = w.cols := hd.trans hcols.symm
  have ⟨z, hz, hs⟩ := w.exists_addMulVec alpha hx (hy.trans hrows.symm)
  refine ⟨z, Outcome.bind_eq_ok.mpr ⟨w, hw, ?_⟩, hs.trans hrows⟩
  rw [← hx, Assignment.valueOf_eq hv, Outcome.ok_bind, hz]

theorem addBlock_eq (b : BlockMatrix ℝ) (alpha : ℝ) {pos : Nat} (h : pos < b.widths.length)
    {x : Assignment ℝ} {k : Key} {v y : Array ℝ} (hv : x.get? k = some v)
    (hd : v.size = b.widths[pos]) (hy : y.size = b.rows) :
    ∃ z, (do
        let a ← b.block pos
        let v ← x.valueOf k a.cols
        a.addMulVec alpha v y) = .ok z ∧ z.size = b.rows ∧
      ∀ i < b.rows, z.getD i 0 = y.getD i 0 +
        alpha * ∑ j ∈ Finset.range (b.widths.getD pos 0), b.full.entry i (b.offsetAt pos + j) *
          x.point k j := by
  have ⟨w, hw, hbase, hrow, hcol, hrows, hcols⟩ := b.block_eq h
  have hx : v.size = w.cols := hd.trans hcols.symm
  have ⟨z, hz, hs, he⟩ := w.addMulVec_eq alpha hx (hy.trans hrows.symm)
  refine ⟨z, ?_, hs.trans hrows, ?_⟩
  case refine_1 => rw [hw, Outcome.ok_bind, ← hx, Assignment.valueOf_eq hv, Outcome.ok_bind, hz]
  case refine_2 =>
    intro i hi
    simpa [hbase, hrow, hcol, hcols, h, Assignment.point_eq hv] using he i (hrows ▸ hi)

theorem addBlocks_eq (b : BlockMatrix ℝ) (alpha : ℝ) (x : Assignment ℝ) (place : Nat → Nat)
    {ks : List (Key × Nat)}
    (h : ∀ e ∈ ks, ∃ v, ∃ h : place e.2 < b.widths.length, x.get? e.1 = some v ∧
      v.size = b.widths[place e.2])
    {y : Array ℝ} (hy : y.size = b.rows) :
    ∃ z, ks.foldlM (fun y (k, pos) => do
        let a ← b.block (place pos)
        let v ← x.valueOf k a.cols
        a.addMulVec alpha v y) y = .ok z ∧ z.size = b.rows ∧
      ∀ i < b.rows, z.getD i 0 = y.getD i 0 + alpha * (ks.map fun (k, pos) =>
        ∑ j ∈ Finset.range (b.widths.getD (place pos) 0),
          b.full.entry i (b.offsetAt (place pos) + j) * x.point k j).sum := by
  induction ks generalizing y
  case nil => exact ⟨y, rfl, hy, by simp⟩
  case cons e ks ih =>
    have ⟨v, hp, hv, hd⟩ := h e (by simp)
    have ⟨u, hu, hus, hue⟩ := b.addBlock_eq alpha hp hv hd hy
    have ⟨z, hz, hzs, hze⟩ := ih (fun e he => h e (by simp [he])) hus
    refine ⟨z, ?_, hzs, ?_⟩
    case refine_1 =>
      rw [List.foldlM_cons]
      exact Outcome.bind_eq_ok.mpr ⟨u, hu, hz⟩
    case refine_2 =>
      intro i hi
      rw [hze i hi, hue i hi, List.map_cons, List.sum_cons]
      ring

end BlockMatrix
end LinearGaussian
