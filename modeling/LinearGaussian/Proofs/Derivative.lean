import Mathlib.Algebra.Polynomial.Roots
import LinearGaussian.Proofs.JointInformation

namespace LinearGaussian

open LinearFactor Measurement

namespace Assignment

variable {x y : Assignment ℝ} {dims : KeyMap Nat} {q : Point}

theorem get?_of_mem_entries {β : Type} {m : KeyMap β} {e : Key × β} (he : e ∈ m.entries) :
    m.get? e.1 = some e.2 :=
  (KeyMap.lookup_eq_some_iff m.keys_nodup).mpr he

theorem keys_of_shape {α : Type} {x : Assignment α} (hx : x.map (·.size) = dims) :
    x.keys = dims.keys := by
  cases hx
  simp [KeyMap.map, KeyMap.keys]

theorem shape_iff {α : Type} {x : Assignment α} :
    x.map (·.size) = dims ↔ x.Fits dims.entries ∧ ∀ k ∉ dims.keys, x.get? k = none := by
  constructor
  case mp =>
    intro hx
    refine ⟨fun w hw => ?_, fun k hk => KeyMap.get?_eq_none_iff.mpr (keys_of_shape hx ▸ hk)⟩
    cases hx
    have ⟨e, he, hw⟩ := List.mem_map.mp hw
    cases hw
    exact ⟨e.2, get?_of_mem_entries he, rfl⟩
  case mpr =>
    intro ⟨hf, hn⟩
    apply KeyMap.ext_get?
    intro k
    rw [KeyMap.get?_map]
    by_cases hk : k ∈ dims.keys
    case pos =>
      have ⟨w, hw, he⟩ := List.mem_map.mp hk
      have ⟨v, hv, hs⟩ := hf w hw
      rw [← he, hv, get?_of_mem_entries hw, Option.map_some, hs]
    case neg => rw [hn k hk, KeyMap.get?_eq_none_iff.mpr hk, Option.map_none]

theorem shape_withPoint (dims : KeyMap Nat) (q : Point) :
    (withPoint ∅ dims.entries q).map (·.size) = dims := by
  refine shape_iff.mpr ⟨fun w hw => ⟨_, get?_withPoint_of_mem dims.keys_nodup hw, Array.size_ofFn⟩,
    fun k hk => ?_⟩
  rw [get?_withPoint_of_not_mem dims.keys_nodup hk, KeyMap.get?_empty]

theorem point_withPoint (dims : KeyMap Nat) (q : Point) :
    Point.EqOn dims.entries (withPoint ∅ dims.entries q).point q := by
  intro w hw j hj
  rw [point_eq (get?_withPoint_of_mem dims.keys_nodup hw)]
  simp [hj]

theorem add_eq (hx : x.map (·.size) = dims) (hy : y.map (·.size) = dims) :
    x.add y = .ok (withPoint ∅ dims.entries (x.point + y.point)) := by
  have hk : y.keys.find? (fun k => !x.contains k) = none := by
    rw [keys_of_shape hy, ← keys_of_shape hx, List.find?_eq_none]
    intro k hk
    simpa [KeyMap.contains, Option.isSome_iff_ne_none] using KeyMap.mem_keys_iff.mp hk
  rw [add, zipWith, hk]
  refine Outcome.bind_eq_ok.mpr ⟨x.entries.map fun e =>
    (e.1, Array.ofFn fun j : Fin e.2.size => (x.point + y.point) e.1 j),
    Outcome.mapM_eq_ok fun e he => ?_, ?_⟩
  case refine_1 =>
    have hm : (e.1, e.2.size) ∈ dims.entries := hx ▸ List.mem_map_of_mem he
    have ⟨w, hw, (hs : w.size = e.2.size)⟩ := (shape_iff.mp hy).left _ hm
    have hv : valueOf y e.1 e.2.size = .ok w := by rw [← hs, valueOf_eq hw]
    simp only [hv, Vec.add, Vec.sized, hs, dif_pos, Outcome.ok_bind, Outcome.pure_eq_ok]
    have hp : ∀ j : Fin e.2.size, (x.point + y.point) e.1 j = e.2[j] + w[j] := by
      intro j
      simp [point_eq (get?_of_mem_entries he), point_eq hw, hs]
    simp only [hp, Vector.toArray_ofFn]
    rfl
  case refine_2 =>
    cases hx
    rw [withPoint, entriesOf, KeyMap.map, List.map_map]
    rfl

theorem shape_scale (x : Assignment ℝ) (t : ℝ) : (x.scale t).map (·.size) = x.map (·.size) := by
  apply KeyMap.ext_get?
  intro k
  simp only [scale, KeyMap.get?_map, Option.map_map]
  congr 1
  funext v
  simp [Vec.scale]

theorem point_scale (x : Assignment ℝ) (t : ℝ) : (x.scale t).point = t • x.point := by
  funext k j
  rw [point, scale, KeyMap.get?_map]
  cases hk : x.get? k
  case none => simp [point, hk]
  case some v =>
    by_cases hj : j < v.size <;> simp [point, hk, Vec.scale, hj, mul_comm]

theorem dot_eq (hx : x.map (·.size) = dims) (hy : y.map (·.size) = dims) :
    x.dot y =
      .ok (dims.entries.map fun w => ∑ j ∈ Finset.range w.2, x.point w.1 j *
        y.point w.1 j).sum := by
  have hd : x.dot y =
      .ok (0 +
        (x.entries.map fun e => ∑ j ∈ Finset.range e.2.size, x.point e.1 j *
        y.point e.1 j).sum) := by
    refine Outcome.foldlM_add (fun e he s => ?_) 0
    have hm : (e.1, e.2.size) ∈ dims.entries := hx ▸ List.mem_map_of_mem he
    have ⟨w, hw, (hs : w.size = e.2.size)⟩ := (shape_iff.mp hy).left _ hm
    simp only [hw, Vec.dot_eq hs, Outcome.ok_bind, Outcome.pure_eq_ok, point_eq hw,
      point_eq (get?_of_mem_entries he)]
  cases hx
  rw [hd, zero_add, KeyMap.map, List.map_map]
  rfl

end Assignment

section Symmetry

theorem InformationFactor.WellFormed.transpose_full {h : InformationFactor ℝ} (hw : h.WellFormed)
    (hb : h.Bordered) (hs : h.information.transpose = h.information) :
    h.info.full.transpose = h.info.full := by
  have hr : h.info.full.rows = h.side + 1 := hw.side_eq ▸ hw.rows_eq
  have hc : h.info.full.cols = h.side + 1 := hw.side_eq ▸ hw.cols_eq
  refine Mat.ext_entry (hc.trans hr.symm) (hr.trans hc.symm) fun i hi j hj => ?_
  rw [Mat.entry_transpose]
  have hi : i < h.side + 1 := hc ▸ hi
  have hj : j < h.side + 1 := hr ▸ hj
  cases Nat.lt_succ_iff_lt_or_eq.mp hi
  case inl hi =>
    cases Nat.lt_succ_iff_lt_or_eq.mp hj
    case inl hj =>
      have he := h.information.entry_transpose i j
      rw [hs, h.entry_information hi hj, h.entry_information hj hi] at he
      exact he.symm
    case inr hj => rw [hj, hb i hi]
  case inr hi =>
    cases Nat.lt_succ_iff_lt_or_eq.mp hj
    case inl hj => rw [hi, hb j hj]
    case inr hj => rw [hi, hj]

theorem Factor.Built.transpose_augmentedInformation {f : Factor ℝ} (hb : f.Built)
    (hs : ∀ h, f = .information h → h.information.transpose = h.information) :
    f.augmentedInformation.transpose = f.augmentedInformation := by
  cases f
  case linear f => exact Mat.transpose_gram _
  case information h =>
    have hw : h.WellFormed := Piece.Built.wellFormed hb
    exact hw.transpose_full (InformationFactor.Built.bordered hb) (hs h rfl)

end Symmetry

section Slope

variable {f : Factor ℝ} {ds : Widths}

theorem Factor.Built.sum_slope (hb : f.Built) (hn : ds.keys.Nodup) (hs : f.dims ⊆ ds)
    (p q : Point) :
    (ds.map fun w => ∑ j ∈ Finset.range w.2, f.slope p w.1 j * q w.1 j).sum =
      f.augmentedInformation.form (stackTo 0 f.dims q) (stack f.dims p) := by
  have hz : stackTo 0 f.dims q (f.dims.map (·.2)).sum = 0 := endToEnd_sum ..
  calc (ds.map fun w => ∑ j ∈ Finset.range w.2, f.slope p w.1 j * q w.1 j).sum
    _ = (f.dims.map fun w => ∑ j ∈ Finset.range w.2, f.slope p w.1 j * q w.1 j).sum := by
      refine Widths.sum_of_subset hn hs (List.Nodup.of_map _ hb.nodup_dims) fun w hw hw' => ?_
      have hk : w.1 ∉ f.keys := by
        rw [← hb.keys_dims]
        intro hk
        have ⟨v, hv, he⟩ := List.mem_map.mp hk
        exact hw' (List.inj_on_of_nodup_map hn (hs hv) hw he ▸ hv)
      simp [slope, hk]
    _ = (f.dims.map fun w => ∑ j ∈ Finset.range w.2,
        f.augmentedInformation.image (stack f.dims p) (Widths.start f.dims w.1 + j) *
          q w.1 j).sum := by
      refine congrArg _ (List.map_congr_left fun w hw => Finset.sum_congr rfl fun j _ => ?_)
      have hk : w.1 ∈ f.keys := hb.keys_dims ▸ List.mem_map_of_mem hw
      simp [slope, hk]
    _ = f.augmentedInformation.form (stackTo 0 f.dims q) (stack f.dims p) := by
      rw [← sum_stackTo hb.nodup_dims _ 0 q, Mat.form, hb.rows_eq, Finset.sum_range_succ, hz,
        zero_mul, add_zero]
      exact Finset.sum_congr rfl fun i _ => mul_comm _ _

theorem sum_slopes (ds : Widths) (factors : List (Factor ℝ)) (slope : Factor ℝ → Point)
    (q : Point) :
    (ds.map fun w => ∑ j ∈ Finset.range w.2, (factors.map fun f => slope f w.1 j).sum *
      q w.1 j).sum =
      (factors.map fun f =>
        (ds.map fun w => ∑ j ∈ Finset.range w.2, slope f w.1 j * q w.1 j).sum).sum := by
  induction factors
  case nil => simp
  case cons f factors ih =>
    simp only [List.map_cons, List.sum_cons, add_mul, Finset.sum_add_distrib, List.sum_map_add, ih]

end Slope

section Quadratic

noncomputable def quadratic (a b c : ℝ) : Polynomial ℝ :=
  .C a + .C b * .X + .C c * .X ^ 2

theorem eval_quadratic (a b c t : ℝ) : (quadratic a b c).eval t = a + b * t + c * t ^ 2 := by
  simp [quadratic]

theorem coeff_one_quadratic (a b c : ℝ) : (quadratic a b c).coeff 1 = b := by
  simp [quadratic, Polynomial.coeff_C_mul, Polynomial.coeff_X_pow]

end Quadratic

theorem Assignment.exists_stackTo {ds : Widths} {dims : KeyMap Nat} (hn : ds.keys.Nodup)
    (hs : ds ⊆ dims.entries) (z : Nat → ℝ) : ∃ x : Assignment ℝ, x.map (·.size) = dims ∧
      ∀ j < (ds.map (·.2)).sum + 1, stackTo (z (ds.map (·.2)).sum) ds x.point j = z j := by
  refine ⟨_, shape_withPoint dims fun k l => z (ds.start k + l), fun j hj => ?_⟩
  rw [stackTo_congr ((point_withPoint dims _).mono hs), stackTo_start hn z hj]

namespace FactorGraph

variable {g : FactorGraph ℝ} {order : EliminationOrder} {ds : Widths} {dims : KeyMap Nat}
  {x grad : Assignment ℝ}

theorem mem_entries_iff (hf : ∀ f ∈ g.factors, f.WellFormed) (hd : g.dims = .ok dims)
    {w : Key × Nat} :
    w ∈ dims.entries ↔ w ∈ dimsOf g.factors := by
  constructor
  case mp =>
    intro hw
    have hk : w.1 ∈ dims.keys := List.mem_map_of_mem hw
    have ⟨d, hm⟩ := (mem_keys_iff_dims hf).mp ((mem_keys_dims hf hd).mp hk)
    have he : w.2 = d :=
      Option.some.inj ((Assignment.get?_of_mem_entries hw).symm.trans (get?_dims hd hm))
    cases he
    exact hm
  case mpr => exact fun hw => (KeyMap.lookup_eq_some_iff dims.keys_nodup).mp (get?_dims hd hw)

theorem subset_entries (hf : ∀ f ∈ g.factors, f.WellFormed) (hd : g.dims = .ok dims) :
    ∀ f ∈ g.factors, f.dims ⊆ dims.entries :=
  fun f hm _ hw => (mem_entries_iff hf hd).mpr (mem_dimsOf.mpr ⟨f, hm, f.dims_toLinear ▸ hw⟩)

-- Along every line, the error is a polynomial whose linear coefficient is the product of the values
-- with the direction.
def IsGradient (g : FactorGraph ℝ) (x grad : Assignment ℝ) : Prop :=
  ∀ h : Assignment ℝ, h.map (·.size) = x.map (·.size) → ∃ p : Polynomial ℝ,
    (∀ t, ∃ y, x.add (h.scale t) = .ok y ∧ g.error y = .ok (p.eval t)) ∧
    grad.dot h = .ok (p.coeff 1)

theorem form_add (g : FactorGraph ℝ) (p q : Point) (t : ℝ) :
    g.form (-1) (-1) (p + t • q) (p + t • q) =
      g.form (-1)
        (-1) p p + t * (g.form 0 (-1) q p + g.form (-1) 0 p q) + t ^ 2 * g.form 0 0 q q := by
  have hf (f : Factor ℝ) : stackTo (-1) f.dims (p + t • q) =
      fun j => stackTo (-1) f.dims p j + t * stackTo 0 f.dims q j :=
    funext (stack_add f.dims p q t)
  simp only [form, hf, Mat.form_add, List.sum_map_add, List.sum_map_mul_left]

theorem exists_gradient (hb : ∀ f ∈ g.factors, f.Built) (hd : g.dims = .ok dims)
    (hx : x.map (·.size) = dims) :
    ∃ grad, g.gradient x = .ok grad ∧ grad.map (·.size) = dims ∧ ∀ h : Assignment ℝ,
      h.map (·.size) = dims →
      grad.dot h = .ok (g.form 0 (-1) h.point x.point) := by
  have hf : ∀ f ∈ g.factors, f.WellFormed := fun f hm => (hb f hm).wellFormed
  have hn : (Widths.keys dims.entries).Nodup := dims.keys_nodup
  have hs := subset_entries hf hd
  have hadds : ∀ f ∈ g.factors, f.Adds x dims.entries (f.slope x.point) := by
    intro f hm
    have ha := (hb f hm).adds_slope ((Assignment.shape_iff.mp hx).left.mono (hs f hm))
    exact ha.mono hn (hs f hm) fun k hk => funext fun j => if_neg ((hb f hm).keys_dims ▸ hk)
  have ⟨grad, hg, hgn, hgf, hge⟩ := gradient_eq hf hn (fun w => (mem_entries_iff hf hd).symm) hadds
  have hshape := Assignment.shape_iff.mpr ⟨hgf, hgn⟩
  refine ⟨grad, hg, hshape, fun h hh => ?_⟩
  rw [Assignment.dot_eq hshape hh]
  congr 1
  calc (dims.entries.map fun w => ∑ j ∈ Finset.range w.2, grad.point w.1 j * h.point w.1 j).sum
    _ = (dims.entries.map fun w => ∑ j ∈ Finset.range w.2,
        (g.factors.map fun f => f.slope x.point w.1 j).sum * h.point w.1 j).sum := by
      refine congrArg _ (List.map_congr_left fun w hw => Finset.sum_congr rfl fun j hj => ?_)
      rw [hge w hw j (Finset.mem_range.mp hj)]
    _ = (g.factors.map fun f => (dims.entries.map fun w =>
        ∑ j ∈ Finset.range w.2, f.slope x.point w.1 j * h.point w.1 j).sum).sum :=
      sum_slopes dims.entries g.factors (fun f => f.slope x.point) h.point
    _ = g.form 0 (-1) h.point x.point :=
      congrArg _ (List.map_congr_left fun f hm => (hb f hm).sum_slope hn (hs f hm) x.point h.point)

theorem error_add (hb : ∀ f ∈ g.factors, f.Built) (hd : g.dims = .ok dims)
    (hx : x.map (·.size) = dims) {h : Assignment ℝ} (hh : h.map (·.size) = dims) (t : ℝ) :
    ∃ y, x.add (h.scale t) = .ok y ∧ g.error y = .ok (1 / 2 * (g.form (-1) (-1) x.point x.point +
      t * (g.form 0 (-1) h.point x.point + g.form (-1) 0 x.point h.point) +
        t ^ 2 * g.form 0 0 h.point h.point)) := by
  have hs := subset_entries (fun f hm => (hb f hm).wellFormed) hd
  have hy := Assignment.shape_withPoint dims (x.point + t • h.point)
  have hp := Assignment.point_withPoint dims (x.point + t • h.point)
  refine ⟨_, Assignment.add_eq hx ((Assignment.shape_scale h t).trans hh), ?_⟩
  rw [Assignment.point_scale,
    error_eq_form hb fun f hm => (Assignment.shape_iff.mp hy).left.mono (hs f hm), ← form_add]
  refine congrArg (fun v => Except.ok (1 / 2 * v)) (congrArg _ (List.map_congr_left fun f hm => ?_))
  rw [stackTo_congr (hp.mono (hs f hm))]

theorem isGradient_iff (hb : ∀ f ∈ g.factors, f.Built) (hd : g.dims = .ok dims)
    (hx : x.map (·.size) = dims) (hg : g.gradient x = .ok grad) :
    g.IsGradient x grad ↔ ∀ h : Assignment ℝ, h.map (·.size) = dims →
      g.form 0 (-1) h.point x.point = g.form (-1) 0 x.point h.point := by
  have ⟨grad', hg', _, hdot⟩ := exists_gradient hb hd hx
  cases hg.symm.trans hg'
  rw [IsGradient, hx]
  refine forall₂_congr fun h hh => ?_
  have he := error_add hb hd hx hh
  rw [hdot h hh]
  constructor
  case mp =>
    intro ⟨p, hp, hc⟩
    -- Polynomials with the same values are the same, so it does not matter which one is given.
    have hq : p = quadratic (1 / 2 * g.form (-1) (-1) x.point x.point)
        (1 / 2 * (g.form 0 (-1) h.point x.point + g.form (-1) 0 x.point h.point))
        (1 / 2 * g.form 0 0 h.point h.point) := by
      apply Polynomial.funext
      intro t
      have ⟨y, hy, hey⟩ := hp t
      have ⟨y', hy', hey'⟩ := he t
      cases hy.symm.trans hy'
      rw [Except.ok.inj (hey.symm.trans hey'), eval_quadratic]
      ring
    have hc := Except.ok.inj hc
    rw [hq, coeff_one_quadratic] at hc
    linarith
  case mpr =>
    intro hs
    refine ⟨quadratic (1 / 2 * g.form (-1) (-1) x.point x.point) (g.form 0 (-1) h.point x.point)
      (1 / 2 * g.form 0 0 h.point h.point), fun t => ?_, by rw [coeff_one_quadratic]⟩
    have ⟨y, hy, hey⟩ := he t
    refine ⟨y, hy, hey.trans ?_⟩
    rw [eval_quadratic, ← hs]
    congr 1
    ring

-- The gradient at all points is that of the error just if the joint matrix is symmetric.
theorem Arranged.isGradient_iff_transpose (ha : g.Arranged order ds) (hb : ∀ f ∈ g.factors, f.Built)
    (hd : g.dims = .ok dims) :
    (∀ x grad, x.map (·.size) = dims → g.gradient x = .ok grad → g.IsGradient x grad) ↔
      (jointInformation ds g.factors).transpose = jointInformation ds g.factors := by
  have hf : ∀ f ∈ g.factors, f.WellFormed := fun f hm => (hb f hm).wellFormed
  have hs : ds ⊆ dims.entries := fun w hw => (mem_entries_iff hf hd).mpr ((ha.mem_iff w).mp hw)
  constructor
  case mp =>
    intro h
    refine Mat.transpose_eq_of_form rfl rfl fun u z hu hz => ?_
    have ⟨x, hx, hxz⟩ := Assignment.exists_stackTo ha.nodup hs z
    have ⟨d, hds, hdu⟩ := Assignment.exists_stackTo ha.nodup hs u
    rw [hz] at hxz
    rw [hu] at hdu
    have ⟨grad, hg, _⟩ := exists_gradient hb hd hx
    have he := (isGradient_iff hb hd hx hg).mp (h x grad hx hg) d hds
    rw [ha.form_eq hb, ha.form_eq hb] at he
    calc (jointInformation ds g.factors).form u z
      _ = (jointInformation ds g.factors).form (stackTo 0 ds d.point) (stackTo (-1) ds x.point) :=
        (Mat.form_congr hdu hxz).symm
      _ = (jointInformation ds g.factors).form (stackTo (-1) ds x.point) (stackTo 0 ds d.point) :=
        he
      _ = (jointInformation ds g.factors).form z u := Mat.form_congr hxz hdu
  case mpr =>
    intro ht x grad hx hg
    refine (isGradient_iff hb hd hx hg).mpr fun h _ => ?_
    rw [ha.form_eq hb, ha.form_eq hb, Mat.form_comm ht]

-- The gradient can be asked for at all points and has the variables of the graph. It is the
-- gradient of the error just if the joint matrix is symmetric, and so in particular if the matrices
-- of all information factors are.
theorem isGradient_gradient_iff (hb : ∀ f ∈ g.factors, f.Built) (hd : g.dims = .ok dims) :
    (∀ x : Assignment ℝ, x.map (·.size) = dims →
      ∃ grad, g.gradient x = .ok grad ∧ grad.map (·.size) = dims) ∧
    ((∀ x grad, x.map (·.size) = dims → g.gradient x = .ok grad → g.IsGradient x grad) ↔
      ∀ order a, g.augmentedInformation order = .ok a → a.transpose = a) ∧
    ((∀ h, .information h ∈ g.factors → h.information.transpose = h.information) →
      ∀ x grad, x.map (·.size) = dims → g.gradient x = .ok grad → g.IsGradient x grad) := by
  have hf : ∀ f ∈ g.factors, f.WellFormed := fun f hm => (hb f hm).wellFormed
  have ha : g.Arranged ⟨dims.keys, dims.keys_nodup⟩ _ :=
    arranged_inOrder hf hd fun k => mem_keys_dims hf hd
  refine ⟨fun x hx => ?_, ⟨fun h order a hi => ?_, fun h => ?_⟩, fun hs => ?_⟩
  case refine_1 =>
    have ⟨grad, hg, hs, _⟩ := exists_gradient hb hd hx
    exact ⟨grad, hg, hs⟩
  case refine_2 =>
    have ⟨ds, ha, he⟩ := arranged_of_augmentedInformation hf hi
    exact he ▸ (ha.isGradient_iff_transpose hb hd).mp h
  case refine_3 => exact (ha.isGradient_iff_transpose hb hd).mpr (h _ _ ha.information)
  case refine_4 =>
    refine (ha.isGradient_iff_transpose hb hd).mpr (transpose_jointInformation fun f hm => ?_)
    exact (hb f hm).transpose_augmentedInformation fun h he => hs h (he ▸ hm)

noncomputable def level : Mat ℝ :=
  Mat.ofFn 2 2 fun i j => if i = j then 1 else 2

theorem transpose_level : level.transpose = level := by
  refine Mat.ext_entry rfl rfl fun i (hi : i < 2) j (hj : j < 2) => ?_
  rw [Mat.entry_transpose, level, Mat.entry_ofFn _ hj hi, Mat.entry_ofFn _ hi hj]
  simp [eq_comm]

theorem isGradient_gradient_tilted :
    ∃ h grad, InformationFactor.ofParts [1] [2] level #[0, 3] 1 = .ok h ∧
      (tilted h).gradient (KeyMap.ofList [(0, #[4]), (1, #[1, -2])]) = .ok grad ∧
      grad.map (·.size) = KeyMap.ofList [(0, 1), (1, 2)] ∧
      (tilted h).IsGradient (KeyMap.ofList [(0, #[4]), (1, #[1, -2])]) grad := by
  have ⟨h, hh⟩ : ∃ h, InformationFactor.ofParts [1] [2] level #[0, 3] 1 = .ok h := ⟨_, rfl⟩
  have hd : (tilted h).dims = .ok (KeyMap.ofList [(0, 1), (1, 2)]) := by
    cases hh
    rfl
  have ⟨hgrad, _, hsymm⟩ := isGradient_gradient_iff (built_tilted hh) hd
  have ⟨grad, hg, hs⟩ := hgrad (KeyMap.ofList [(0, #[4]), (1, #[1, -2])]) rfl
  refine ⟨h, grad, hh, hg, hs, hsymm (fun h' hm => ?_) _ _ rfl hg⟩
  obtain rfl : h' = h := by simpa [tilted] using hm
  rw [InformationFactor.information_ofParts hh, transpose_level]

-- Only the row of a coordinate counts for its entry of the gradient, so that along the second
-- coordinate the gradient is zero while the error changes.
theorem not_isGradient_skewed :
    ∃ h grad, InformationFactor.ofParts [1] [2] skewed #[0, 0] 0 = .ok h ∧
      gradient ⟨[.information h]⟩ (KeyMap.ofList [(1, #[1, 0])]) = .ok grad ∧
      ¬IsGradient ⟨[.information h]⟩ (KeyMap.ofList [(1, #[1, 0])]) grad := by
  have ⟨h, hh⟩ : ∃ h, InformationFactor.ofParts [1] [2] skewed #[0, 0] 0 = .ok h := ⟨_, rfl⟩
  have hb : ∀ f ∈ [Factor.information h], f.Built :=
    List.forall_mem_singleton.mpr (.informationOfParts hh)
  have hd : dims ⟨[Factor.information h]⟩ = .ok (KeyMap.ofList [(1, 2)]) := by
    cases hh
    rfl
  have ⟨grad, hg, _⟩ := exists_gradient (x := KeyMap.ofList [(1, #[1, 0])]) hb hd rfl
  refine ⟨h, grad, hh, hg, fun hi => ?_⟩
  have he := (isGradient_iff hb hd rfl hg).mp hi (KeyMap.ofList [(1, #[0, 1])]) rfl
  have ⟨hdims, hs, hr, hc⟩ : h.dims = [(1, 2)] ∧ h.side = 2 ∧ h.info.full.rows = 3 ∧
      h.info.full.cols = 3 := by
    cases hh
    exact ⟨rfl, rfl, rfl, rfl⟩
  have hp (a b : ℝ) : Assignment.point (KeyMap.ofList [(1, #[a, b])]) 1 =
      fun j => #[a, b].getD j 0 := rfl
  -- The entries of the border are the same on both sides, so that those of `G` would have to be.
  have he : h.info.full.entry 1 0 - h.info.full.entry 1 2 =
      h.info.full.entry 0 1 - h.info.full.entry 2 1 := by
    simpa [form, Factor.augmentedInformation, InformationFactor.augmentedInformation, Factor.dims,
      hdims, Mat.form, Mat.image, hr, hc, Finset.sum_range_succ, stackTo, endToEnd, hp,
      sub_eq_add_neg] using
      (isGradient_iff hb hd rfl hg).mp hi (KeyMap.ofList [(1, #[0, 1])]) rfl
  have hborder : h.info.full.entry 2 1 = h.info.full.entry 1 2 :=
    hs ▸ InformationFactor.bordered_ofParts hh 1 (by omega)
  have hlower : h.info.full.entry 1 0 = 0 := by
    rw [← h.entry_information (by omega) (by omega), InformationFactor.information_ofParts hh,
      skewed]
    simp [Mat.entry_ofFn]
  have hupper : h.info.full.entry 0 1 = 2 := by
    rw [← h.entry_information (by omega) (by omega), InformationFactor.information_ofParts hh,
      skewed]
    simp [Mat.entry_ofFn]
  linarith

end FactorGraph
end LinearGaussian
