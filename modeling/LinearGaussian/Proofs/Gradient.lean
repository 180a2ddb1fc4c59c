import LinearGaussian.Proofs.Optimum
import LinearGaussian.Proofs.Success
import LinearGaussian.Proofs.Transposed

namespace LinearGaussian

namespace Assignment

theorem get?_zeros {α : Type} [Arith α] (m : KeyMap Nat) (k : Key) :
    (zeros m.entries : Assignment α).get? k = (m.get? k).map Vec.zeros := by
  have hn : ((m.entries.map fun e => (e.1, (Vec.zeros e.2 : Array α))).map (·.1)).Nodup := by
    rw [List.map_map]
    exact m.keys_nodup
  rw [zeros, KeyMap.ofList, KeyMap.get?_foldl_insert hn, KeyMap.lookup_map Vec.zeros,
    KeyMap.get?_empty, Option.or_none]
  rfl

theorem point_zeroLike (x : Assignment ℝ) (k : Key) (j : Nat) : x.zeroLike.point k j = 0 := by
  rw [point, zeroLike, KeyMap.get?_map]
  cases x.get? k
  case none => rfl
  case some v => by_cases hj : j < v.size <;> simp [Vec.zeros, Vec.fill, hj]

theorem eq_zeroLike_iff {x : Assignment ℝ} {ds : Widths} (hf : x.Fits ds)
    (hn : ∀ k ∉ ds.keys, x.get? k = none) :
    x = x.zeroLike ↔ ∀ w ∈ ds, ∀ j < w.2, x.point w.1 j = 0 := by
  have hg (k : Key) : x.zeroLike.get? k = (x.get? k).map fun v => Vec.zeros v.size :=
    KeyMap.get?_map ..
  constructor
  case mp =>
    intro h w _ j _
    rw [h, point_zeroLike]
  case mpr =>
    intro h
    have hz : x.zeroLike.Fits ds := by
      intro w hw
      obtain ⟨v, hv, hs⟩ := hf w hw
      exact ⟨_, by rw [hg, hv]; rfl, by simp [Vec.zeros, Vec.fill, hs]⟩
    apply KeyMap.ext_get?
    intro k
    by_cases hk : k ∈ ds.keys
    case pos =>
      obtain ⟨w, hw, hwk⟩ := List.mem_map.mp hk
      rw [← hwk, get?_eq_of_eqOn hf hz (fun w hw j hj => by rw [h w hw j hj, point_zeroLike]) hw]
    case neg => rw [hg, hn k hk, Option.map_none]

end Assignment

-- The factor adds its slope to whatever is given for the variables, and leaves other variables
-- alone.
def Factor.Adds (f : Factor ℝ) (x : Assignment ℝ) (ds : Widths) (slope : Point) : Prop :=
  ∀ g : Assignment ℝ, g.Fits ds → ∃ g', f.gradientAdd x g = .ok g' ∧ g'.Fits ds ∧
    (∀ k ∉ ds.keys, g'.get? k = g.get? k) ∧
    ∀ w ∈ ds, ∀ j < w.2, g'.point w.1 j = g.point w.1 j + slope w.1 j

-- The factor adds its slope to whatever is given for its own variables, where some of them may not
-- be given at all.
def Factor.AddsOwn (f : Factor ℝ) (x : Assignment ℝ) (slope : Point) : Prop :=
  ∀ g : Assignment ℝ, g.Suits f.dims → ∃ g', f.gradientAdd x g = .ok g' ∧ g'.Fits f.dims ∧
    (∀ k ∉ Widths.keys f.dims, g'.get? k = g.get? k) ∧
    ∀ w ∈ f.dims, ∀ j < w.2, g'.point w.1 j = g.point w.1 j + slope w.1 j

theorem Factor.AddsOwn.adds {f : Factor ℝ} {x : Assignment ℝ} {slope : Point}
    (h : f.AddsOwn x slope) :
    f.Adds x f.dims slope :=
  fun g hg => h g hg.suits

theorem Factor.Adds.mono {f : Factor ℝ} {x : Assignment ℝ} {ds es : Widths} {slope : Point}
    (h : f.Adds x es slope) (hn : ds.keys.Nodup) (hs : es ⊆ ds) (hz : ∀ k ∉ es.keys, slope k = 0) :
    f.Adds x ds slope := by
  intro g hg
  have ⟨y, hy, hyf, hyo, hye⟩ := h g (hg.mono hs)
  have hor {w : Key × Nat} (hw : w ∈ ds) : w ∈ es ∨ w.1 ∉ es.keys := by
    by_cases hk : w.1 ∈ es.keys
    case pos =>
      have ⟨v, hv, he⟩ := List.mem_map.mp hk
      exact .inl (List.inj_on_of_nodup_map hn (hs hv) hw he ▸ hv)
    case neg => exact .inr hk
  refine ⟨y, hy, fun w hw => ?_, fun k hk => hyo k fun hm => hk (List.map_subset _ hs hm),
    fun w hw j hj => ?_⟩
  case refine_1 =>
    cases hor hw
    case inl hw => exact hyf w hw
    case inr hk =>
      rw [hyo w.1 hk]
      exact hg w hw
  case refine_2 =>
    cases hor hw
    case inl hw => exact hye w hw j hj
    case inr hk => rw [Assignment.point_congr (hyo w.1 hk), hz w.1 hk, Pi.zero_apply, add_zero]

namespace LinearFactor

variable {f : LinearFactor ℝ} {x : Assignment ℝ}

noncomputable def slope (f : LinearFactor ℝ) (p : Point) (k : Key) (j : Nat) : ℝ :=
  ∑ i ∈ Finset.range f.rows, f.coefficient k i j *
    (f.residual i p * NoiseModel.weightOf (f.sigmas.getD i 1) *
      NoiseModel.weightOf (f.sigmas.getD i 1))

theorem slope_of_not_mem {k : Key} (hk : k ∉ f.keys) (p : Point) : f.slope p k = 0 := by
  funext j
  exact Finset.sum_eq_zero fun i _ => by rw [coefficient_of_not_mem hk, zero_mul]

theorem addsOwn_slope (h : f.WellFormed) (hx : x.Fits f.dims) :
    (Factor.linear f).AddsOwn x (f.slope x.point) := by
  intro g hg
  have ⟨e, he, hes, hee⟩ := errorVector_eq h hx
  have ⟨y, hy, hyf, hyo, hye⟩ := transposeMultiplyAdd_eq h 1 hes hg
  refine ⟨y, ?_, hyf, fun k hk => hyo k (h.keys_dims ▸ hk), fun w hw j hj => ?_⟩
  case refine_1 => rw [Factor.gradientAdd, gradientAdd, he, Outcome.ok_bind, hy]
  case refine_2 =>
    rw [hye w hw j hj, one_mul, slope]
    congr 1
    exact Finset.sum_congr rfl fun i hi => by rw [hee i (Finset.mem_range.mp hi)]

theorem adds_slope (h : f.WellFormed) (hx : x.Fits f.dims) :
    (Factor.linear f).Adds x f.dims (f.slope x.point) :=
  (addsOwn_slope h hx).adds

end LinearFactor

namespace FactorGraph

variable {x : Assignment ℝ} {ds : Widths}

theorem foldlM_gradientAdd {factors : List (Factor ℝ)} {slope : Factor ℝ → Point}
    (h : ∀ f ∈ factors, f.Adds x ds (slope f)) {g : Assignment ℝ} (hg : g.Fits ds) :
    ∃ g', factors.foldlM (fun g f => f.gradientAdd x g) g = .ok g' ∧ g'.Fits ds ∧
      (∀ k ∉ ds.keys, g'.get? k = g.get? k) ∧
      ∀ w ∈ ds, ∀ j < w.2, g'.point w.1 j =
        g.point w.1 j + (factors.map fun f => slope f w.1 j).sum := by
  induction factors generalizing g
  case nil => exact ⟨g, rfl, hg, fun _ _ => rfl, by simp⟩
  case cons f factors ih =>
    have ⟨hf, hfs⟩ := List.forall_mem_cons.mp h
    have ⟨y, hy, hyf, hyo, hye⟩ := hf g hg
    have ⟨z, hz, hzf, hzo, hze⟩ := ih hfs hyf
    refine ⟨z, ?_, hzf, fun k hk => ?_, fun w hw j hj => ?_⟩
    case refine_1 =>
      rw [List.foldlM_cons]
      exact Outcome.bind_eq_ok.mpr ⟨y, hy, hz⟩
    case refine_2 => rw [hzo k hk, hyo k hk]
    case refine_3 => rw [hze w hw j hj, hye w hw j hj, List.map_cons, List.sum_cons, add_assoc]

-- The gradient has an entry for each coordinate of the variables, which is what the factors add to
-- it.
theorem gradient_eq {graph : FactorGraph ℝ} {slope : Factor ℝ → Point}
    (hf : ∀ f ∈ graph.factors, f.WellFormed) (hn : ds.keys.Nodup)
    (hd : ∀ w, w ∈ dimsOf graph.factors ↔ w ∈ ds) (h : ∀ f ∈ graph.factors, f.Adds x ds (slope f)) :
    ∃ g, graph.gradient x = .ok g ∧ (∀ k ∉ ds.keys, g.get? k = none) ∧ g.Fits ds ∧
      ∀ w ∈ ds, ∀ j < w.2, g.point w.1 j = (graph.factors.map fun f => slope f w.1 j).sum := by
  have hc : Widths.Consistent (dimsOf graph.factors) :=
    fun v hv w hw he => KeyMap.eq_of_mem hn ((hd v).mp hv) (he ▸ (hd w).mp hw)
  obtain ⟨dims, hdims⟩ := exists_dims_iff.mpr hc
  have hget {w : Key × Nat} (hw : w ∈ ds) :
      (Assignment.zeros dims.entries : Assignment ℝ).get? w.1 = some (Vec.zeros w.2) := by
    rw [Assignment.get?_zeros, get?_dims hdims ((hd w).mpr hw), Option.map_some]
  have hz : (Assignment.zeros dims.entries : Assignment ℝ).Fits ds :=
    fun w hw => ⟨_, hget hw, by simp [Vec.zeros, Vec.fill]⟩
  obtain ⟨g, hg, hgf, hgo, hge⟩ := foldlM_gradientAdd h hz
  refine ⟨g, ?_, fun k hk => ?_, hgf, fun w hw j hj => ?_⟩
  case refine_1 => rw [gradient, hdims, Outcome.ok_bind, hg]
  case refine_2 =>
    rw [hgo k hk, Assignment.get?_zeros, KeyMap.get?_eq_none_iff.mpr, Option.map_none]
    intro hm
    obtain ⟨d, hm⟩ := (mem_keys_iff_dims hf).mp ((mem_keys_dims hf hdims).mp hm)
    exact hk (List.mem_map_of_mem ((hd _).mp hm))
  case refine_3 =>
    rw [hge w hw j hj, Assignment.point_eq (hget hw)]
    simp [Vec.zeros, Vec.fill, hj]

theorem gradient_ofLinear {factors : List (LinearFactor ℝ)} (hf : ∀ f ∈ factors, f.WellFormed)
    (hn : ds.keys.Nodup) (hd : ∀ w, w ∈ factors.flatMap LinearFactor.dims ↔ w ∈ ds)
    (hx : x.Fits ds) :
    ∃ g, (ofLinear factors).gradient x = .ok g ∧ (∀ k ∉ ds.keys, g.get? k = none) ∧ g.Fits ds ∧
      ∀ w ∈ ds, ∀ j < w.2, g.point w.1 j = (factors.map fun f => f.slope x.point w.1 j).sum := by
  have hs : ∀ f ∈ factors, f.dims ⊆ ds :=
    fun f hm w hw => (hd w).mp (List.mem_flatMap.mpr ⟨f, hm, hw⟩)
  have hl : ∀ f ∈ factors, (Factor.linear f).Adds x ds (f.slope x.point) := fun f hm =>
    (LinearFactor.adds_slope (hf f hm) (hx.mono (hs f hm))).mono hn (hs f hm) fun k hk =>
      LinearFactor.slope_of_not_mem ((hf f hm).keys_dims ▸ hk) _
  have ha : ∀ f ∈ (ofLinear factors).factors, f.Adds x ds (f.toLinear.slope x.point) :=
    List.forall_mem_map.mpr hl
  have ⟨g, hg, hgo, hgf, hge⟩ := gradient_eq (wellFormed_ofLinear hf) hn
    (fun w => by simp [← hd, dimsOf, ofLinear, Factor.toLinear]) ha
  refine ⟨g, hg, hgo, hgf, fun w hw j hj => ?_⟩
  rw [hge w hw j hj, ofLinear, List.map_map]
  rfl

end FactorGraph
end LinearGaussian
