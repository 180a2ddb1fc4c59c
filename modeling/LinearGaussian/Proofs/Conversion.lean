import LinearGaussian.Proofs.QuadraticForm
import LinearGaussian.Proofs.Reduction

namespace LinearGaussian

open Outcome

theorem Factor.AddsOwn.gradientAdd_eq {f f' : Factor ℝ} {x g : Assignment ℝ} {s s' : Point}
    (h : f.AddsOwn x s) (h' : f'.AddsOwn x s') (hd : f'.dims = f.dims) (hs : Point.EqOn f.dims s s')
    (hg : g.Suits f.dims) :
    ∃ g', f.gradientAdd x g = .ok g' ∧ f'.gradientAdd x g = .ok g' ∧
      ∀ k, k ∈ g'.keys ↔ k ∈ g.keys ∨ k ∈ Widths.keys f.dims := by
  obtain ⟨y, hy, hyf, hyo, hye⟩ := h g hg
  obtain ⟨z, hz, hzf, hzo, hze⟩ := h' g (hd ▸ hg)
  rw [hd] at hzf hzo hze
  have heq : Point.EqOn f.dims y.point z.point := fun w hw j hj => by
    rw [hye w hw j hj, hze w hw j hj, hs w hw j hj]
  have hyz : z = y := by
    apply KeyMap.ext_get?
    intro k
    by_cases hk : k ∈ Widths.keys f.dims
    case pos =>
      obtain ⟨w, hw, rfl⟩ := List.mem_map.mp hk
      exact (Assignment.get?_eq_of_eqOn hyf hzf heq hw).symm
    case neg => rw [hzo k hk, hyo k hk]
  refine ⟨y, hy, hyz ▸ hz, fun k => ?_⟩
  by_cases hk : k ∈ Widths.keys f.dims
  case pos =>
    obtain ⟨w, hw, rfl⟩ := List.mem_map.mp hk
    obtain ⟨v, hv, _⟩ := hyf w hw
    simp [KeyMap.mem_keys_iff, hv, hk]
  case neg => simp [KeyMap.mem_keys_iff, hyo k hk, hk]

namespace InformationFactor

variable {f : LinearFactor ℝ} {h : InformationFactor ℝ} {x : Assignment ℝ}

theorem ofLinear_settles (hf : f.WellFormed) :
    (ofLinear f).Settles
      (if 0 ∈ f.sigmas then some (.constrainedInformation f.keys) else none) := by
  simp only [ofLinear_eq hf, ← LinearFactor.isConstrained_iff]
  split
  case isTrue => exact settles_fail _
  case isFalse => exact settles_ok _

theorem keys_ofLinear (hf : f.WellFormed) (hl : ofLinear f = .ok h) :
    h.keys = f.keys ∧ h.dims = f.dims := by
  rw [ofLinear_eq hf, ite_fail_eq_ok] at hl
  cases hl.right
  exact ⟨rfl, rfl⟩

theorem error_ofLinear (hf : f.WellFormed) (hl : ofLinear f = .ok h) (hx : x.Fits f.dims) :
    ∃ e, f.error x = .ok e ∧ h.error x = .ok e := by
  have hb : f.Built := Piece.built_linear_iff.mpr hf
  have hh : h.Built := .informationOfLinear hb hl
  have hw : h.WellFormed := Piece.Built.wellFormed hh
  have hd := (keys_ofLinear hf hl).right
  refine ⟨_, Factor.Built.error_eq (f := .linear f) hb hx, ?_⟩
  rw [hw.error_eq (Built.bordered hh) (hd ▸ hx), full_ofLinear hf hl, hd]
  rfl

theorem gradientAdd_ofLinear (hf : f.WellFormed) (hl : ofLinear f = .ok h) (hx : x.Fits f.dims)
    {g : Assignment ℝ} (hg : g.Suits f.dims) :
    ∃ g', f.gradientAdd x g = .ok g' ∧ h.gradientAdd x g = .ok g' ∧ ∀ k, k ∈ g'.keys ↔ k ∈ g.keys ∨
      k ∈ f.keys := by
  have hh : h.Built := .informationOfLinear (Piece.built_linear_iff.mpr hf) hl
  have hw : h.WellFormed := Piece.Built.wellFormed hh
  obtain ⟨hk, hd⟩ := keys_ofLinear hf hl
  have ha := LinearFactor.addsOwn_slope hf hx
  have ha' := hw.addsOwn_image (hd ▸ hx)
  rw [← hf.keys_dims]
  refine ha.gradientAdd_eq ha' hd ?_ hg
  rw [hk, hd, full_ofLinear hf hl]
  exact Factor.slope_linear hf x.point

-- Only hard constraints have no information form. It has the error of the factor, and adds the same
-- to a gradient.
theorem ofLinear_agrees (hf : f.WellFormed) :
    (ofLinear f).Settles (if 0 ∈ f.sigmas then some (.constrainedInformation f.keys) else none) ∧
      ∀ h, ofLinear f = .ok h → h.keys = f.keys ∧ h.dims = f.dims ∧ ∀ x, x.Fits f.dims →
        (∃ e, f.error x = .ok e ∧ h.error x = .ok e) ∧
        ∀ g, g.Suits f.dims → ∃ g', f.gradientAdd x g = .ok g' ∧ h.gradientAdd x g = .ok g' ∧
          ∀ k, k ∈ g'.keys ↔ k ∈ g.keys ∨ k ∈ f.keys := by
  refine ⟨ofLinear_settles hf, fun h hl => ?_⟩
  obtain ⟨hk, hd⟩ := keys_ofLinear hf hl
  exact ⟨hk, hd,
    fun x hx => ⟨error_ofLinear hf hl hx, fun g hg => gradientAdd_ofLinear hf hl hx hg⟩⟩

theorem ofLinear_agrees_scalarRow :
    let f (sigma : ℝ) : LinearFactor ℝ := .scalarRow [1, 2] [3, 4] 5 sigma
    let x : Assignment ℝ := KeyMap.ofList [(1, #[6]), (2, #[7])]
    let g : Assignment ℝ := KeyMap.ofList [(2, #[8])]
    (f (1 / 2)).WellFormed ∧ (f 0).WellFormed ∧
    ofLinear (f 0) = fail (.constrainedInformation [1, 2]) ∧
      ∃ h e g', ofLinear (f (1 / 2)) = .ok h ∧ (f (1 / 2)).error x = .ok e ∧ h.error x = .ok e ∧
        (f (1 / 2)).gradientAdd x g = .ok g' ∧ h.gradientAdd x g = .ok g' ∧ ∀ k, k ∈ g'.keys ↔ k =
          1 ∨ k = 2 := by
  intro f x g
  have hf (sigma : ℝ) (hs : 0 ≤ sigma) : (f sigma).WellFormed :=
    LinearFactor.wellFormed_scalarRow (by decide) hs
  have hsigmas (sigma : ℝ) : (f sigma).sigmas = #[sigma] := rfl
  have hhalf := hf (1 / 2) (by norm_num)
  obtain ⟨hsoft, hagree⟩ := ofLinear_agrees hhalf
  obtain ⟨hhard, _⟩ := ofLinear_agrees (hf 0 le_rfl)
  rw [hsigmas, if_neg (by simp)] at hsoft
  rw [hsigmas, if_pos (by simp)] at hhard
  obtain ⟨h, hh⟩ := hsoft
  have hdims : (f (1 / 2)).dims = [(1, 1), (2, 1)] := rfl
  have hx : x.Fits (f (1 / 2)).dims := by
    simp only [hdims, Assignment.Fits, List.forall_mem_cons, List.not_mem_nil, false_imp_iff,
      implies_true, and_true]
    exact ⟨⟨_, rfl, rfl⟩, ⟨_, rfl, rfl⟩⟩
  have hg : g.Suits (f (1 / 2)).dims := by
    simp only [hdims, Assignment.Suits, List.forall_mem_cons, List.not_mem_nil, false_imp_iff,
      implies_true, and_true]
    refine ⟨fun v hv => ?_, fun v hv => ?_⟩
    case refine_1 =>
      have hnone : g.get? 1 = none := rfl
      simp [hnone] at hv
    case refine_2 =>
      have hsome : g.get? 2 = some #[8] := rfl
      cases hsome.symm.trans hv
      rfl
  obtain ⟨_, _, hagree⟩ := hagree h hh
  obtain ⟨⟨e, he, he'⟩, hagree⟩ := hagree x hx
  obtain ⟨g', hg', hg'', hk⟩ := hagree g hg
  refine ⟨hhalf, hf 0 le_rfl, hhard, h, e, g', hh, he, he', hg', hg'', fun k => ?_⟩
  have hkeys : g.keys = [2] ∧ (f (1 / 2)).keys = [1, 2] := ⟨rfl, rfl⟩
  rw [hk, hkeys.left, hkeys.right]
  simp only [List.mem_cons, List.not_mem_nil, or_false]
  tauto

end InformationFactor
end LinearGaussian
