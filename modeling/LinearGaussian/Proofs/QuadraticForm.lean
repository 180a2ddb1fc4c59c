import LinearGaussian.Proofs.Construction
import LinearGaussian.Proofs.Coordinates
import LinearGaussian.Proofs.Gradient
import LinearGaussian.Proofs.OneShot

namespace LinearGaussian

open LinearFactor Measurement

section Form

noncomputable def Mat.image (a : Mat ℝ) (v : Nat → ℝ) (i : Nat) : ℝ :=
  ∑ j ∈ Finset.range a.cols, a.entry i j * v j

noncomputable def Mat.form (a : Mat ℝ) (u v : Nat → ℝ) : ℝ :=
  ∑ i ∈ Finset.range a.rows, u i * a.image v i

namespace Mat

variable {a b : Mat ℝ} {u u' v v' : Nat → ℝ}

theorem form_congr (hu : ∀ i < a.rows, u i = u' i) (hv : ∀ j < a.cols, v j = v' j) :
    a.form u v = a.form u' v' := by
  have hi (i : Nat) : a.image v i = a.image v' i :=
    Finset.sum_congr rfl fun j hj => by rw [hv j (Finset.mem_range.mp hj)]
  exact Finset.sum_congr rfl fun i h => by rw [hu i (Finset.mem_range.mp h), hi]

theorem form_add_left (t : ℝ) :
    a.form (fun i => u i + t * u' i) v = a.form u v + t * a.form u' v := by
  simp only [form, add_mul, mul_assoc, Finset.sum_add_distrib, Finset.mul_sum]

theorem form_add_right (t : ℝ) :
    a.form u (fun j => v j + t * v' j) = a.form u v + t * a.form u v' := by
  simp only [form, image, mul_add, Finset.sum_add_distrib, Finset.mul_sum, mul_left_comm t]

theorem entry_transpose {α : Type} [Arith α] (a : Mat α) (i j : Nat) :
    a.transpose.entry i j = a.entry j i := by
  by_cases h : i < a.cols ∧ j < a.rows
  case pos =>
    have ht : a.transpose.entry i j = a.body.transpose.get ⟨i, h.left⟩ ⟨j, h.right⟩ := dif_pos h
    have he : a.entry j i = a.body.get ⟨j, h.right⟩ ⟨i, h.left⟩ := dif_pos h.symm
    rw [ht, he, Dense.get_transpose]
  case neg =>
    have ht : a.transpose.entry i j = 0 := dif_neg h
    have he : a.entry j i = 0 := dif_neg (mt And.symm h)
    rw [ht, he]

theorem form_transpose (a : Mat ℝ) (u v : Nat → ℝ) : a.transpose.form u v = a.form v u := by
  simp only [form, image, entry_transpose, Finset.mul_sum]
  rw [Finset.sum_comm]
  exact Finset.sum_congr rfl fun i _ => Finset.sum_congr rfl fun j _ => by ring

theorem form_comm (hs : a.transpose = a) (u v : Nat → ℝ) : a.form u v = a.form v u := by
  rw [← form_transpose, hs]

theorem form_single (a : Mat ℝ) {i j : Nat} (hi : i < a.rows) (hj : j < a.cols) :
    a.form (Pi.single i 1) (Pi.single j 1) = a.entry i j := by
  simp [form, image, Pi.single_apply, hi, hj]

theorem image_gram (b : Mat ℝ) (v : Nat → ℝ) {i : Nat} (hi : i < b.cols) :
    b.gram.image v i = ∑ l ∈ Finset.range b.rows, b.entry l i * b.image v l := by
  calc b.gram.image v i
    _ = ∑ j ∈ Finset.range b.cols, ∑ l ∈ Finset.range b.rows, b.entry l i *
      (b.entry l j * v j) := by
      refine Finset.sum_congr rfl fun j hj => ?_
      rw [b.entry_gram hi (Finset.mem_range.mp hj), Finset.sum_mul]
      exact Finset.sum_congr rfl fun l _ => mul_assoc ..
    _ = ∑ l ∈ Finset.range b.rows, b.entry l i * b.image v l := by
      rw [Finset.sum_comm]
      exact Finset.sum_congr rfl fun l _ => (Finset.mul_sum ..).symm

theorem form_gram (b : Mat ℝ) (u v : Nat → ℝ) :
    b.gram.form u v = ∑ l ∈ Finset.range b.rows, b.image u l * b.image v l := by
  calc b.gram.form u v
    _ = ∑ i ∈ Finset.range b.cols, ∑ l ∈ Finset.range b.rows, b.entry l i * u i * b.image v l := by
      refine Finset.sum_congr rfl fun i hi => ?_
      rw [b.image_gram v (Finset.mem_range.mp hi), Finset.mul_sum]
      exact Finset.sum_congr rfl fun l _ => by ring
    _ = ∑ l ∈ Finset.range b.rows, b.image u l * b.image v l := by
      rw [Finset.sum_comm]
      exact Finset.sum_congr rfl fun l _ => (Finset.sum_mul ..).symm

theorem transpose_gram (b : Mat ℝ) : b.gram.transpose = b.gram := by
  refine ext_entry rfl rfl fun i (hi : i < b.cols) j (hj : j < b.cols) => ?_
  rw [entry_transpose, b.entry_gram hi hj, b.entry_gram hj hi]
  exact Finset.sum_congr rfl fun l _ => mul_comm _ _

theorem form_add (a : Mat ℝ) (u v : Nat → ℝ) (t : ℝ) :
    a.form (fun i => u i + t * v i) (fun i => u i + t * v i) =
      a.form u u + t * (a.form v u + a.form u v) + t ^ 2 * a.form v v := by
  rw [form_add_left, form_add_right, form_add_right]
  ring

-- `xᵀ G x - 2 xᵀ g + f`, where the vector is `x` and then minus one.
theorem form_bordered {n : Nat} (hr : a.rows = n + 1) (hc : a.cols = n + 1)
    (hb : ∀ j < n, a.entry n j = a.entry j n) {z : Nat → ℝ} (hz : z n = -1) :
    a.form z z = ∑ i ∈ Finset.range n, z i * ∑ j ∈ Finset.range n, a.entry i j * z j -
      2 * ∑ i ∈ Finset.range n, z i * a.entry i n + a.entry n n := by
  have hl : ∑ j ∈ Finset.range n, a.entry n j * z j = ∑ i ∈ Finset.range n, z i * a.entry i n :=
    Finset.sum_congr rfl fun j hj => by rw [hb j (Finset.mem_range.mp hj), mul_comm]
  simp only [form, image, hr, hc, Finset.sum_range_succ, hz, mul_add, Finset.sum_add_distrib, hl,
    mul_neg, mul_one, Finset.sum_neg_distrib]
  ring

theorem exists_move {n : Nat} {e : Nat → ℝ} (he : e n = -1) (w : Nat → ℝ) :
    ∃ u : Nat → ℝ, ∃ s, u n = 0 ∧ w = fun i => u i + s * e i :=
  ⟨fun i => w i + w n * e i, -w n, by simp [he], by funext; ring⟩

-- Symmetric matrices are known by their values at vectors that end in minus one.
theorem eq_of_form {n : Nat} (hra : a.rows = n + 1) (hrb : b.rows = n + 1) (hsa : a.transpose = a)
    (hsb : b.transpose = b) (h : ∀ z : Nat → ℝ, z n = -1 → a.form z z = b.form z z) : a = b := by
  have hca : a.cols = n + 1 := (congrArg rows hsa).trans hra
  have hcb : b.cols = n + 1 := (congrArg rows hsb).trans hrb
  obtain ⟨e, he⟩ : ∃ e : Nat → ℝ, e n = -1 := ⟨fun _ => -1, rfl⟩
  -- The last coordinate is fixed, so that only the others can be moved.
  have hline {u : Nat → ℝ} (hu : u n = 0) : a.form u e = b.form u e ∧ a.form u u = b.form u u := by
    have hl (t : ℝ) := h (fun i => e i + t * u i) (by simp [he, hu])
    simp only [form_add, form_comm hsa e u, form_comm hsb e u, h e he] at hl
    have h1 := hl 1
    have h2 := hl (-1)
    constructor <;> linarith
  have hpair {u v : Nat → ℝ} (hu : u n = 0) (hv : v n = 0) : a.form u v = b.form u v := by
    have hs := (hline (u := fun i => u i + 1 * v i) (by simp [hu, hv])).right
    rw [form_add, form_add, form_comm hsa v u, form_comm hsb v u, (hline hu).right,
      (hline hv).right] at hs
    linarith
  have hall (v w : Nat → ℝ) : a.form v w = b.form v w := by
    have ⟨u, s, hu, hv⟩ := exists_move he v
    have ⟨u', s', hu', hw⟩ := exists_move he w
    simp only [hv, hw, form_add_left, form_add_right, form_comm hsa e u', form_comm hsb e u',
      hpair hu hu', (hline hu).left, (hline hu').left, h e he]
  refine ext_entry (hra.trans hrb.symm) (hca.trans hcb.symm) fun i hi j hj => ?_
  rw [← form_single a hi hj, ← form_single b (hrb ▸ hra ▸ hi) (hcb ▸ hca ▸ hj), hall]

-- A matrix is symmetric if its values are, for one vector that ends in zero and one that ends in
-- minus one.
theorem transpose_eq_of_form {n : Nat} (hr : a.rows = n + 1) (hc : a.cols = n + 1)
    (h : ∀ u z : Nat → ℝ, u n = 0 → z n = -1 → a.form u z = a.form z u) : a.transpose = a := by
  obtain ⟨e, he⟩ : ∃ e : Nat → ℝ, e n = -1 := ⟨fun _ => -1, rfl⟩
  have hpair {u v : Nat → ℝ} (hu : u n = 0) (hv : v n = 0) : a.form u v = a.form v u := by
    have hs := h u (fun i => e i + 1 * v i) hu (by simp [he, hv])
    rw [form_add_left, form_add_right, h u e hu he] at hs
    linarith
  have hall (v w : Nat → ℝ) : a.form v w = a.form w v := by
    have ⟨u, s, hu, hv⟩ := exists_move he v
    have ⟨u', s', hu', hw⟩ := exists_move he w
    simp only [hv, hw, form_add_left, form_add_right, hpair hu hu', h u e hu he, h u' e hu' he]
    ring
  refine ext_entry (hc.trans hr.symm) (hr.trans hc.symm) fun i hi j hj => ?_
  rw [← form_single a.transpose hi hj, form_transpose, hall,
    form_single a (hr ▸ hc ▸ hi) (hc ▸ hr ▸ hj)]

end Mat
end Form

section Stack

variable {ws : Widths}

noncomputable def stackTo (c : ℝ) (ws : Widths) (p : Point) : Nat → ℝ :=
  endToEnd c (ws.map fun w => (w.2, p w.1))

theorem stackTo_start (hn : ws.keys.Nodup) (z : Nat → ℝ) {j : Nat}
    (hj : j < (ws.map (·.2)).sum + 1) :
    stackTo (z (ws.map (·.2)).sum) ws (fun k l => z (ws.start k + l)) j = z j := by
  cases Nat.lt_succ_iff_lt_or_eq.mp hj
  case inl hj =>
    have ⟨w, hw, l, hl, he⟩ := Widths.exists_start hn hj
    rw [he]
    exact Widths.endToEnd_start hn hw _ (fun k l => z (ws.start k + l)) hl
  case inr hj => rw [hj, stackTo, endToEnd_sum]

theorem stackTo_congr {p q : Point} (h : Point.EqOn ws p q) (c : ℝ) :
    stackTo c ws p = stackTo c ws q := by
  funext j
  induction ws generalizing j
  case nil => rfl
  case cons w ws ih =>
    have ⟨hw, hws⟩ := List.forall_mem_cons.mp h
    have ih := ih hws (j - w.2)
    simp only [stackTo, List.map_cons, endToEnd] at ih ⊢
    split
    case isTrue hj => exact hw j hj
    case isFalse => exact ih

theorem stack_add (ws : Widths) (p q : Point) (t : ℝ) (j : Nat) :
    stack ws (p + t • q) j = stack ws p j + t * stackTo 0 ws q j := by
  induction ws generalizing j
  case nil => simp [stack, stackTo, endToEnd]
  case cons w ws ih =>
    have ih := ih (j - w.2)
    simp only [stack, stackTo, List.map_cons, endToEnd] at ih ⊢
    split
    case isTrue => rfl
    case isFalse => exact ih

theorem sum_stackTo (hn : ws.keys.Nodup) (u : Nat → ℝ) (c : ℝ) (q : Point) :
    ∑ i ∈ Finset.range (ws.map (·.2)).sum, u i * stackTo c ws q i =
      (ws.map fun w => ∑ j ∈ Finset.range w.2, u (ws.start w.1 + j) * q w.1 j).sum := by
  have hs :=
    sum_endToEnd 0 c (·.2) (fun (w : Key × Nat) j => u (ws.start w.1 + j)) (fun w => q w.1) ws
  rw [← hs]
  apply Finset.sum_congr rfl
  intro i hi
  have ⟨w, hw, l, hl, he⟩ := Widths.exists_start hn (Finset.mem_range.mp hi)
  have hs : endToEnd 0 (ws.map fun w => (w.2, fun j => u (ws.start w.1 + j))) i = u i := by
    rw [he, Widths.endToEnd_start hn hw 0 (fun k j => u (ws.start k + j)) hl]
  rw [hs]
  rfl

end Stack

section Vectors

variable {u v : Array ℝ}

theorem Vec.dot_eq (h : v.size = u.size) :
    dot u v = .ok (∑ i ∈ Finset.range u.size, u.getD i 0 * v.getD i 0) := by
  simp only [dot, sized, h, dif_pos, Outcome.ok_bind, Outcome.pure_eq_ok, dot_eq_sum,
    Finset.sum_range]
  simp [h]

theorem Vec.axpy_eq (t : ℝ) (h : u.size = v.size) :
    ∃ w, axpy t u v = .ok w ∧ w.size = v.size ∧ ∀ i < v.size, w.getD i 0 =
      v.getD i 0 + t * u.getD i 0 := by
  simp only [axpy, sized, h, dif_pos, Outcome.ok_bind, Outcome.pure_eq_ok]
  exact ⟨_, rfl, by simp, fun i hi => by simp [h, hi]⟩

theorem Vec.slice_eq {start len : Nat} (h : start + len ≤ v.size) :
    ∃ w, slice v start (start + len) = .ok w ∧ w.size = len ∧ ∀ i < len, w.getD i 0 =
      v.getD (start + i) 0 := by
  have hl : start ≤ start + len ∧ start + len ≤ v.size := ⟨Nat.le_add_right .., h⟩
  refine ⟨_, if_pos hl, by simp [h], fun i hi => ?_⟩
  have hs : start + i < v.size := by omega
  simp [hs, hi, h]

end Vectors


namespace InformationFactor

variable {h : InformationFactor ℝ} {x g : Assignment ℝ}

theorem entry_information (h : InformationFactor ℝ) {i j : Nat} (hi : i < h.side)
    (hj : j < h.side) :
    h.information.entry i j = h.info.full.entry i j :=
  Mat.entry_ofFn _ hi hj

def Bordered (h : InformationFactor ℝ) : Prop :=
  ∀ j < h.side, h.info.full.entry h.side j = h.info.full.entry j h.side

section OfParts

variable {keys : List Key} {dims : List Nat} {a : Mat ℝ} {linear : Array ℝ} {constant : ℝ}

theorem side_ofParts (hp : ofParts keys dims a linear constant = .ok h) : h.side = dims.sum := by
  have ⟨hk, _, _, _, he⟩ := (ofParts_yields ..).right h hp
  simp [side, he, BlockMatrix.offsetAt, BlockMatrix.ofFn, hk]

theorem bordered_ofParts (hp : ofParts keys dims a linear constant = .ok h) : h.Bordered := by
  have ⟨_, _, _, _, he⟩ := (ofParts_yields ..).right h hp
  have hl : (dims ++ [1]).sum = dims.sum + 1 := by simp
  rw [Bordered, side_ofParts hp, he]
  intro j hj
  rw [BlockMatrix.entry_ofFn _ (by omega) (by omega),
    BlockMatrix.entry_ofFn _ (by omega) (by omega)]
  simp [hj]

theorem information_ofParts (hp : ofParts keys dims a linear constant = .ok h) :
    h.information = a := by
  have ⟨_, _, ⟨hr, hc⟩, _, he⟩ := (ofParts_yields ..).right h hp
  have hs := side_ofParts hp
  have hl : (dims ++ [1]).sum = dims.sum + 1 := by simp
  refine Mat.ext_entry (hs.trans hr.symm) (hs.trans hc.symm) fun i hi j hj => ?_
  rw [entry_information h hi hj]
  have hi : i < dims.sum := hs ▸ hi
  have hj : j < dims.sum := hs ▸ hj
  rw [he, BlockMatrix.entry_ofFn _ (by omega) (by omega)]
  simp [hi, hj]

end OfParts

theorem full_ofLinear {f : LinearFactor ℝ} (hf : f.WellFormed) (hl : ofLinear f = .ok h) :
    h.info.full = (f.augmentedJacobian true).gram := by
  rw [ofLinear_eq hf, Outcome.ite_fail_eq_ok] at hl
  cases hl.right
  rfl

theorem Built.bordered (hb : h.Built) : h.Bordered := by
  cases hb
  case informationOfParts hp => exact bordered_ofParts hp
  case informationOfLinear hf hl =>
    intro j _
    rw [← Mat.entry_transpose, full_ofLinear (Piece.built_linear_iff.mp hf) hl, Mat.transpose_gram]

theorem stacked_eq (hx : x.Fits h.dims) : h.stacked x = .ok (coordinates h.dims x.point) := by
  rw [stacked, Assignment.mapM_valueOf hx, Outcome.ok_bind, Outcome.pure_eq_ok, concat_values hx]

namespace WellFormed

theorem keys_dims (hw : h.WellFormed) : Widths.keys h.dims = h.keys :=
  hw.linear.keys_dims

theorem nodup_dims (hw : h.WellFormed) : (Widths.keys h.dims).Nodup :=
  hw.linear.nodup_dims

theorem rows_eq (hw : h.WellFormed) : h.info.full.rows = (h.dims.map (·.2)).sum + 1 :=
  hw.square.trans hw.cols_eq

theorem mulVec_information (hw : h.WellFormed) (p : Point) :
    h.information.mulVec (coordinates h.dims p) =
      .ok (Array.ofFn fun i : Fin (h.dims.map (·.2)).sum =>
      ∑ j ∈ Finset.range (h.dims.map (·.2)).sum, h.info.full.entry i j * stack h.dims p j) := by
  rw [information, hw.side_eq]
  exact mulVec_coordinates h.info.full.entry h.dims p

theorem error_eq_sum (hw : h.WellFormed) (hx : x.Fits h.dims) :
    h.error x = .ok (1 / 2 * (∑ i ∈ Finset.range (h.dims.map (·.2)).sum, stack h.dims x.point i *
        ∑ j ∈ Finset.range (h.dims.map (·.2)).sum, h.info.full.entry i j * stack h.dims x.point j -
      2 * ∑ i ∈ Finset.range (h.dims.map (·.2)).sum,
        stack h.dims x.point i * h.info.full.entry i (h.dims.map (·.2)).sum +
      h.info.full.entry (h.dims.map (·.2)).sum (h.dims.map (·.2)).sum)) := by
  have hl : h.linearTerm.size = (coordinates h.dims x.point).size := by
    simp [linearTerm, hw.side_eq]
  rw [error, stacked_eq hx, Outcome.ok_bind, hw.mulVec_information, Outcome.ok_bind,
    Vec.dot_eq (by simp), Outcome.ok_bind, Vec.dot_eq hl, Outcome.ok_bind, Outcome.pure_eq_ok,
    size_coordinates, half_eq, constantTerm, hw.side_eq, two, one_add_one_eq_two]
  congr 4
  case e_a =>
    refine Finset.sum_congr rfl fun i hi => ?_
    have hi := Finset.mem_range.mp hi
    rw [getD_coordinates hi]
    simp [hi]
  case e_a =>
    congr 1
    refine Finset.sum_congr rfl fun i hi => ?_
    have hi := Finset.mem_range.mp hi
    rw [getD_coordinates hi]
    simp [linearTerm, hw.side_eq, hi]

theorem error_eq (hw : h.WellFormed) (hb : h.Bordered) (hx : x.Fits h.dims) :
    h.error x = .ok (1 / 2 * h.info.full.form (stack h.dims x.point) (stack h.dims x.point)) := by
  rw [Bordered, hw.side_eq] at hb
  rw [hw.error_eq_sum hx, Mat.form_bordered hw.rows_eq hw.cols_eq hb (stack_sum ..)]

theorem range_eq (hw : h.WellFormed) {e : (Key × Nat) × Nat} (he : e ∈ h.dims.zipIdx) :
    h.info.range e.2 = .ok (Widths.start h.dims e.1.1, Widths.start h.dims e.1.1 + e.1.2) := by
  have ⟨hp, hd⟩ := List.mem_zipIdx' he
  have ⟨_, hl, hg⟩ := hw.linear.getElem_dims (hw.linear.length_dims ▸ hp)
  have ho : h.info.offsetAt e.2 = Widths.start h.dims e.1.1 := hw.linear.offsetAt_of_mem_zipIdx he
  have hs : h.info.offsetAt (e.2 + 1) = Widths.start h.dims e.1.1 + e.1.2 := by
    rw [← ho, congrArg Prod.snd (hd.trans hg)]
    exact h.info.offsetAt_succ hl
  have hc : e.2 + 1 ≤ h.info.count := hl
  simp [BlockMatrix.range, BlockMatrix.offset, hc, Nat.le_of_succ_le hc, hs, ho]

theorem addPart_eq (hw : h.WellFormed) {d : Array ℝ} (hd : d.size = h.side) {e : (Key × Nat) × Nat}
    (he : e ∈ h.dims.zipIdx) {g : Assignment ℝ} (hg : g.Suits [e.1]) :
    ∃ v, h.addPart d g (e.1.1, e.2) = .ok (g.insert e.1.1 v) ∧ v.size = e.1.2 ∧
      ∀ j < e.1.2, v.getD j 0 = g.point e.1.1 j + d.getD (Widths.start h.dims e.1.1 + j) 0 := by
  have hle := Widths.start_add_le hw.nodup_dims (List.fst_mem_of_mem_zipIdx he)
  rw [← hw.side_eq, ← hd] at hle
  obtain ⟨part, hp, hps, hpe⟩ := Vec.slice_eq hle
  simp only [addPart, hw.range_eq he, hp, Outcome.ok_bind]
  cases hk : g.get? e.1.1
  case none => exact ⟨part, rfl, hps, fun j hj => by simp [hpe j hj, Assignment.point, hk]⟩
  case some v =>
    have hv : v.size = e.1.2 := hg _ (.head _) v hk
    obtain ⟨u, hu, hus, hue⟩ := Vec.axpy_eq 1 (hps.trans hv.symm)
    refine ⟨u, by simp only [hu, Outcome.ok_bind, Outcome.pure_eq_ok], hus.trans hv, fun j hj => ?_⟩
    rw [hue j (hv ▸ hj), one_mul, hpe j hj, Assignment.point_eq hk]

theorem addsOwn_image (hw : h.WellFormed) (hx : x.Fits h.dims) :
    (Factor.information h).AddsOwn x fun k j =>
      if k ∈ h.keys then h.info.full.image (stack h.dims x.point)
        (Widths.start h.dims k + j) else 0 := by
  intro g (hg : g.Suits h.dims)
  have hl : h.linearTerm.size = (Array.ofFn fun i : Fin (h.dims.map (·.2)).sum =>
      ∑ j ∈ Finset.range (h.dims.map (·.2)).sum, h.info.full.entry i j *
        stack h.dims x.point j).size := by
    simp [linearTerm, hw.side_eq]
  obtain ⟨d, hd, hds, hde⟩ := Vec.axpy_eq (-1) hl
  rw [Array.size_ofFn] at hds hde
  -- The last column of the matrix meets the minus one that ends the stacked values.
  have hde {i : Nat} (hi : i < (h.dims.map (·.2)).sum) : d.getD i 0 =
      h.info.full.image (stack h.dims x.point) i := by
    have hc : h.info.full.cols = (h.dims.map (·.2)).sum + 1 := hw.cols_eq
    rw [hde i hi, Mat.image, hc, Finset.sum_range_succ, stack_sum]
    simp [hi, linearTerm, hw.side_eq]
  have hm : h.dims.zipIdx.map (·.1) = h.dims := List.zipIdx_map_fst 0 _
  have hk : h.dims.zipIdx.map (·.1.1) = h.keys := hw.linear.map_zipIdx_dims 0
  obtain ⟨y, hy, hyf, hyo, hye⟩ :=
    Assignment.foldlM_insert (fun g e => h.addPart d g (e.1.1, e.2)) (·.1)
      (fun k j => d.getD (Widths.start h.dims k + j) 0) (hk ▸ hw.nodup)
      (fun e he g hg => hw.addPart_eq (hds.trans hw.side_eq.symm) he hg) (hm.symm ▸ hg)
  rw [hm] at hyf hye
  rw [hk] at hyo
  refine ⟨y, ?_, hyf, fun k hn => hyo k (hw.keys_dims ▸ hn), fun w hw' j hj => ?_⟩
  case refine_1 =>
    have hz : h.keys.zipIdx = h.dims.zipIdx.map fun e => (e.1.1, e.2) := hw.linear.zipIdx_keys 0
    rw [Factor.gradientAdd, gradientAdd, stacked_eq hx, Outcome.ok_bind, hw.mulVec_information,
      Outcome.ok_bind, hd, Outcome.ok_bind, hz, List.foldlM_map, hy]
  case refine_2 =>
    have hm : w.1 ∈ h.keys := hw.keys_dims ▸ List.mem_map_of_mem hw'
    have hle := Widths.start_add_le hw.nodup_dims hw'
    rw [hye w hw' j hj, hde (by omega)]
    exact congrArg _ (if_pos hm).symm

end WellFormed
end InformationFactor

namespace Factor

variable {f : Factor ℝ} {x : Assignment ℝ}

def Built {α : Type} [Arith α] [RealLike α] : Factor α → Prop
  | linear f => f.Built
  | information h => h.Built

noncomputable def slope (f : Factor ℝ) (p : Point) : Point :=
  fun k j => if k ∈ f.keys then
    f.augmentedInformation.image (stack f.dims p) (Widths.start f.dims k + j) else 0

section Linear

variable {f : LinearFactor ℝ}

theorem image_augmentedJacobian (h : f.WellFormed) {i : Nat} (hi : i < f.rows) (p : Point) :
    (f.augmentedJacobian true).image (stack f.dims p) i =
      f.residual i p * NoiseModel.weightOf (f.sigmas.getD i 1) := by
  rw [Mat.image, cols_augmentedJacobian, h.cols_eq, sum_augmentedJacobian_stack h hi]

theorem form_augmentedInformation (h : f.WellFormed) (p : Point) :
    f.augmentedInformation.form (stack f.dims p)
      (stack f.dims p) = 2 * totalCost f.measurements p := by
  rw [LinearFactor.augmentedInformation, Mat.form_gram, totalCost_measurements, Finset.mul_sum,
    rows_augmentedJacobian]
  refine Finset.sum_congr rfl fun i hi => ?_
  rw [image_augmentedJacobian h (Finset.mem_range.mp hi)]
  ring

-- A linear factor takes its whitened error back to its variables.
theorem slope_linear (h : f.WellFormed) (p : Point) :
    Point.EqOn f.dims (f.slope p) ((linear f).slope p) := by
  intro w hw j hj
  have hk : w.1 ∈ f.keys := h.keys_dims ▸ List.mem_map_of_mem hw
  have hle := Widths.start_add_le h.nodup_dims hw
  have hc : Widths.start f.dims w.1 + j < f.ab.full.cols := by
    rw [h.cols_eq, width]
    omega
  have hs : (linear f).slope p w.1 j =
      (f.augmentedJacobian true).gram.image (stack f.dims p) (Widths.start f.dims w.1 + j) :=
    if_pos hk
  rw [hs, Mat.image_gram _ _ (by rwa [cols_augmentedJacobian]), rows_augmentedJacobian]
  refine Finset.sum_congr rfl fun i hi => ?_
  have hi := Finset.mem_range.mp hi
  rw [image_augmentedJacobian h hi, augmentedJacobian_eq, entry_whitenedBody h hi hc,
    h.coefficient_of_mem hw]
  ring

end Linear

theorem Adds.congr {ds : Widths} {s t : Point} (h : f.Adds x ds s) (he : Point.EqOn ds s t) :
    f.Adds x ds t := by
  intro g hg
  have ⟨y, hy, hyf, hyo, hye⟩ := h g hg
  exact ⟨y, hy, hyf, hyo, fun w hw j hj => (hye w hw j hj).trans (by rw [he w hw j hj])⟩

namespace Built

theorem wellFormed (hb : f.Built) : f.WellFormed := by
  cases f
  case linear f => exact ⟨Piece.Built.wellFormed hb, rfl⟩
  case information h =>
    have hw : h.WellFormed := Piece.Built.wellFormed hb
    exact wellFormed_information hw.nodup hw.count hw.last

theorem keys_dims (hb : f.Built) : Widths.keys f.dims = f.keys := by
  rw [← f.dims_toLinear, ← hb.wellFormed.keys]
  exact hb.wellFormed.linear.keys_dims

theorem nodup_dims (hb : f.Built) : (Widths.keys f.dims).Nodup := by
  rw [← f.dims_toLinear]
  exact hb.wellFormed.linear.nodup_dims

theorem cols_eq (hb : f.Built) : f.augmentedInformation.cols = (f.dims.map (·.2)).sum + 1 := by
  cases f
  case linear f =>
    have hw : f.WellFormed := Piece.Built.wellFormed hb
    exact hw.cols_eq
  case information h =>
    have hw : h.WellFormed := Piece.Built.wellFormed hb
    exact hw.cols_eq

theorem rows_eq (hb : f.Built) : f.augmentedInformation.rows = (f.dims.map (·.2)).sum + 1 := by
  cases f
  case linear f => exact hb.cols_eq
  case information h =>
    have hw : h.WellFormed := Piece.Built.wellFormed hb
    exact hw.rows_eq

theorem error_eq (hb : f.Built) (hx : x.Fits f.dims) :
    f.error x =
      .ok (1 / 2 * f.augmentedInformation.form (stack f.dims x.point) (stack f.dims x.point)) := by
  cases f
  case linear f =>
    have hw : f.WellFormed := Piece.Built.wellFormed hb
    have hf : (linear f).augmentedInformation.form (stack f.dims x.point) (stack f.dims x.point) =
      2 * totalCost f.measurements x.point := form_augmentedInformation hw x.point
    rw [dims, hf, error, LinearFactor.error_eq hw hx]
    congr 1
    ring
  case information h =>
    have hw : h.WellFormed := Piece.Built.wellFormed hb
    exact hw.error_eq (InformationFactor.Built.bordered hb) hx

theorem adds_slope (hb : f.Built) (hx : x.Fits f.dims) : f.Adds x f.dims (f.slope x.point) := by
  cases f
  case linear f =>
    have hw : f.WellFormed := Piece.Built.wellFormed hb
    exact (LinearFactor.adds_slope hw hx).congr (slope_linear hw x.point)
  case information h =>
    have hw : h.WellFormed := Piece.Built.wellFormed hb
    exact (hw.addsOwn_image hx).adds

end Built
end Factor
end LinearGaussian
