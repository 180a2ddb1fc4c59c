import LinearGaussian.Proofs.Factor

namespace LinearGaussian

namespace Assignment

def Suits {α : Type} (x : Assignment α) (dims : List (Key × Nat)) : Prop :=
  ∀ w ∈ dims, ∀ v, x.get? w.1 = some v → v.size = w.2

theorem Fits.suits {α : Type} {x : Assignment α} {ds : List (Key × Nat)} (h : x.Fits ds) :
    x.Suits ds := by
  intro w hw v hv
  have ⟨u, hu, hs⟩ := h w hw
  cases hv.symm.trans hu
  exact hs

theorem Suits.mono {α : Type} {x : Assignment α} {ds es : List (Key × Nat)} (h : x.Suits es)
    (hs : ds ⊆ es) :
    x.Suits ds :=
  fun w hw => h w (hs hw)

theorem getD_getD_zeros (x : Assignment ℝ) (k : Key) (n j : Nat) :
    ((x.get? k).getD (Vec.zeros n)).getD j 0 = x.point k j := by
  cases hk : x.get? k
  case none =>
    by_cases hj : j < n <;> simp [point, hk, Vec.zeros, Vec.fill, hj]
  case some v => simp [point, hk]

-- If each step changes the value of its own variable, then in the end all of them have been
-- changed.
theorem foldlM_insert {ι : Type} (step : Assignment ℝ → ι → Outcome (Assignment ℝ))
    (var : ι → Key × Nat) (change : Key → Nat → ℝ) {is : List ι}
    (hn : (is.map fun i => (var i).1).Nodup) (h : ∀ i ∈ is, ∀ x : Assignment ℝ, x.Suits [var i] →
      ∃ v, step x i = .ok (x.insert (var i).1 v) ∧ v.size = (var i).2 ∧
        ∀ j < (var i).2, v.getD j 0 = x.point (var i).1 j + change (var i).1 j)
    {x : Assignment ℝ} (hx : x.Suits (is.map var)) :
    ∃ y, is.foldlM step x = .ok y ∧ y.Fits (is.map var) ∧
      (∀ k ∉ is.map fun i => (var i).1, y.get? k = x.get? k) ∧
      ∀ w ∈ is.map var, ∀ j < w.2, y.point w.1 j = x.point w.1 j + change w.1 j := by
  induction is generalizing x
  case nil => exact ⟨x, rfl, nofun, fun _ _ => rfl, nofun⟩
  case cons i is ih =>
    have ⟨hi, his⟩ := List.forall_mem_cons.mp h
    have ⟨hin, hisn⟩ := List.nodup_cons.mp hn
    have ⟨v, hv, hvs, hve⟩ := hi x (hx.mono (by simp))
    have hne {w : Key × Nat} (hw : w ∈ is.map var) : w.1 ≠ (var i).1 := by
      have ⟨l, hl, hlw⟩ := List.mem_map.mp hw
      exact fun he => hin (List.mem_map.mpr ⟨l, hl, hlw ▸ he⟩)
    have hoff {w : Key × Nat} (hw : w ∈ is.map var) : (x.insert (var i).1 v).get? w.1 =
        x.get? w.1 := by
      rw [KeyMap.get?_insert, if_neg (hne hw)]
    have ⟨y, hy, hyf, hyo, hye⟩ := ih hisn his (x := x.insert (var i).1 v) fun w hw u hu =>
      hx w (List.mem_cons_of_mem _ hw) u (hoff hw ▸ hu)
    -- The later steps leave the value that this one has put.
    have hyi : y.get? (var i).1 = some v := by rw [hyo _ hin, KeyMap.get?_insert, if_pos rfl]
    refine ⟨y, ?_, List.forall_mem_cons.mpr ⟨⟨v, hyi, hvs⟩, hyf⟩, fun k hk => ?_,
      List.forall_mem_cons.mpr ⟨fun j hj => ?_, fun w hw j hj => ?_⟩⟩
    case refine_1 => rw [List.foldlM_cons, hv, Outcome.ok_bind, hy]
    case refine_2 =>
      have ⟨hki, hk⟩ := not_or.mp (mt List.mem_cons.mpr hk)
      rw [hyo k hk, KeyMap.get?_insert, if_neg hki]
    case refine_3 => rw [point_eq hyi, hve j hj]
    case refine_4 => rw [hye w hw j hj, point_congr (hoff hw)]

end Assignment

theorem BlockMatrix.addTrBlock_eq (b : BlockMatrix ℝ) (alpha : ℝ) {pos : Nat}
    (h : pos < b.widths.length) {x : Assignment ℝ} {k : Key} (hx : x.Suits [(k, b.widths[pos])])
    {e : Array ℝ} (he : e.size = b.rows) :
    ∃ w v, b.block pos = .ok w ∧ ((x.get? k).getD (Vec.zeros w.cols)).size = w.cols ∧
      w.addTrMulVec alpha e ((x.get? k).getD (Vec.zeros w.cols)) = .ok v ∧ v.size = b.widths[pos] ∧
      ∀ j < b.widths[pos], v.getD j 0 =
        x.point k j + alpha * ∑ i ∈ Finset.range b.rows, b.full.entry i (b.offsetAt pos + j) *
          e.getD i 0 := by
  obtain ⟨w, hw, hbase, hrow, hcol, hrows, hcols⟩ := b.block_eq h
  have hs : ((x.get? k).getD (Vec.zeros w.cols)).size = w.cols := by
    cases hk : x.get? k
    case none => simp [Vec.zeros, Vec.fill]
    case some v => exact (hx _ (.head _) v hk).trans hcols.symm
  obtain ⟨v, hv, hvs, hve⟩ := w.addTrMulVec_eq alpha (he.trans hrows.symm) hs
  refine ⟨w, v, hw, hs, hv, hvs.trans hcols, fun j hj => ?_⟩
  rw [hve j (hcols ▸ hj), Assignment.getD_getD_zeros, hbase, hrow, hcol, hrows]
  simp only [Nat.zero_add]

namespace LinearFactor

section Step

variable {α : Type} [Arith α] {f : LinearFactor α} {alpha : α} {e v : Array α} {x : Assignment α}
  {t : Key × Nat} {w : Window α}

theorem addTrBlock_eq (hw : f.ab.block t.2 = .ok w)
    (hv : w.addTrMulVec alpha e ((x.get? t.1).getD (Vec.zeros w.cols)) = .ok v) :
    f.addTrBlock alpha e x t = .ok (x.insert t.1 v) := by
  simp only [addTrBlock, hw, hv, Outcome.ok_bind, Outcome.pure_eq_ok]

end Step

variable {f : LinearFactor ℝ} {x : Assignment ℝ}

-- What the rows take back to the variables from some variable on, whatever else a step checks.
theorem addTrBlocks_drop (h : f.WellFormed) (alpha : ℝ) (count : Nat) {e : Array ℝ}
    (he : e.size = f.rows) (step : Assignment ℝ → Key × Nat → Outcome (Assignment ℝ))
    (hstep : ∀ x k pos w v, f.ab.block (count + pos) = .ok w →
      ((x.get? k).getD (Vec.zeros w.cols)).size = w.cols →
      w.addTrMulVec alpha e ((x.get? k).getD (Vec.zeros w.cols)) = .ok v → step x (k, pos) =
        .ok (x.insert k v))
    (hx : x.Suits (f.dims.drop count)) :
    ∃ y, (f.keys.drop count).zipIdx.foldlM step x = .ok y ∧ y.Fits (f.dims.drop count) ∧
      (∀ k ∉ f.keys.drop count, y.get? k = x.get? k) ∧ ∀ w ∈ f.dims.drop count, ∀ j < w.2,
        y.point w.1 j = x.point w.1 j + alpha * ∑ i ∈ Finset.range f.rows, f.coefficient w.1 i j *
          e.getD i 0 := by
  have hd : (f.dims.drop count).zipIdx.map (·.1) = f.dims.drop count := List.zipIdx_map_fst 0 _
  have hkeys := h.map_zipIdx_dims count
  have hnodup : ((f.dims.drop count).zipIdx.map fun e => e.1.1).Nodup :=
    hkeys ▸ h.nodup.sublist (List.drop_sublist ..)
  have ⟨y, hy, hyf, hyo, hye⟩ :=
    Assignment.foldlM_insert (fun x (e : (Key × Nat) × Nat) => step x (e.1.1, e.2)) (·.1)
      (fun k j => alpha * ∑ i ∈ Finset.range f.rows, f.coefficient k i j * e.getD i 0) hnodup ?_
      (hd.symm ▸ hx)
  case refine_1 =>
    intro t ht x hx
    have ⟨hp, hg⟩ := List.mem_zipIdx' ht
    -- The loop counts from zero, and the blocks of the factor from `count`.
    rw [List.getElem_drop] at hg
    have hp : count + t.2 < f.keys.length := by
      rw [List.length_drop, h.length_dims] at hp
      omega
    have ⟨_, hw, hgd⟩ := h.getElem_dims hp
    rw [hg.trans hgd] at hx ⊢
    have ⟨w, v, hb, hs, hv, hvs, hve⟩ := f.ab.addTrBlock_eq alpha hw hx he
    refine ⟨v, hstep x _ t.2 w v hb hs hv, hvs, fun j hj => ?_⟩
    rw [hve j hj]
    simp only [h.coefficient_getElem hp]
    rfl
  rw [hd] at hyf hye
  rw [hkeys] at hyo
  refine ⟨y, ?_, hyf, hyo, hye⟩
  rw [h.zipIdx_keys, List.foldlM_map, hy]

theorem transposeMultiplyAdd_eq (h : f.WellFormed) (alpha : ℝ) {e : Array ℝ} (he : e.size = f.rows)
    (hx : x.Suits f.dims) :
    ∃ y, f.transposeMultiplyAdd alpha e x = .ok y ∧ y.Fits f.dims ∧
      (∀ k ∉ f.keys, y.get? k = x.get? k) ∧
      ∀ w ∈ f.dims, ∀ j < w.2, y.point w.1 j = x.point w.1 j + alpha * ∑ i ∈ Finset.range f.rows,
        f.coefficient w.1 i j * (e.getD i 0 * NoiseModel.weightOf (f.sigmas.getD i 1)) := by
  obtain ⟨u, hu, hus, hue⟩ := whitenVec_eq h he
  obtain ⟨y, hy, hyf, hyo, hye⟩ := addTrBlocks_drop h alpha 0 hus (f.addTrBlock alpha u)
    (fun x k pos w v hb _ hv => addTrBlock_eq (Nat.zero_add pos ▸ hb) hv) hx
  refine ⟨y, ?_, hyf, hyo, fun w hw j hj => ?_⟩
  case refine_1 =>
    simp only [transposeMultiplyAdd, he, decide_true, require, if_true, Outcome.ok_bind, hu]
    exact hy
  case refine_2 =>
    rw [hye w hw j hj, Finset.sum_congr rfl fun i hi => by rw [hue i (Finset.mem_range.mp hi)]]

end LinearFactor
end LinearGaussian
