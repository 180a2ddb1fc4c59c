import LinearGaussian.Proofs.Assembly
import LinearGaussian.Proofs.Conditioning
import LinearGaussian.Proofs.Construction

namespace LinearGaussian

open Outcome

namespace Assignment

variable {α : Type}

def misfit? (x : Assignment α) (w : Key × Nat) : Option Error :=
  (x.get? w.1).elim (some (.missingValue w.1)) fun v =>
    if v.size = w.2 then none else some (.dimensionMismatch w.1 w.2 v.size)

theorem valueOf_settles (x : Assignment α) (w : Key × Nat) :
    (x.valueOf w.1 w.2).Settles (x.misfit? w) := by
  unfold valueOf value misfit?
  cases x.get? w.1
  case none => exact settles_fail _
  case some v =>
    simp only [ok_bind, Option.elim_some]
    split
    case isTrue => exact settles_ok v
    case isFalse => exact settles_fail _

theorem requireFits_settles (x : Assignment α) (ws : Widths) :
    (x.requireFits ws).Settles (ws.findSome? x.misfit?) :=
  Settles.forM fun w _ => (x.valueOf_settles w).map _

end Assignment

variable {α : Type} [Arith α] [RealLike α] {c : Conditional α}

theorem Conditional.WellFormed.valid [UnitDeviations α] [LawfulZero α] (h : c.WellFormed) :
    c.Valid := by
  refine valid_iff.mpr ⟨h.ofParts_eq, NoiseModel.diagonal_eq_ok.mpr ⟨rfl, fun s hs => ?_⟩⟩
  exact UnitDeviations.admissible (h.unit s hs)

theorem Piece.Built.valid [UnitDeviations α] [LawfulZero α] (h : Piece.Built (.density c)) :
    c.Valid := by
  cases h
  case densityOfParts hm h => exact valid_of_ofParts hm.diagonal_eq h
  case densityOfTerms hm h => exact valid_of_ofTerms hm h
  case eliminated hg h =>
    obtain ⟨_, _, ho⟩ := Elimination.of_eliminate (fun g hm => (hg g hm).wellFormed) h
    exact ho.wellFormed_conditional.valid
  case conditioned _ h => exact valid_of_conditionOn h

namespace Conditional

-- What the density `c₁` says of some variables is what `c` says of them, and it has no others.
structure PartOf (c₁ c : Conditional α) (saved : Key → Bool) : Prop where
  frontals    : c₁.frontals = c.frontals.filter saved
  parents     : c₁.parents = c.parents.filter saved
  dims        : c₁.toFactor.dims = c.toFactor.dims.filter (saved ·.1)
  coefficient : ∀ v ∈ c₁.frontalDims, ∀ l < v.2, ∀ w ∈ c₁.toFactor.dims, ∀ j < w.2,
    c₁.toFactor.coefficient w.1 (c₁.rowOf v.1 l) j = c.toFactor.coefficient w.1 (c.rowOf v.1 l) j
  sigma       : ∀ v ∈ c₁.frontalDims, ∀ l < v.2, c₁.model.sigmas[c₁.rowOf v.1 l]? =
    c.model.sigmas[c.rowOf v.1 l]?
  accepted    : ofParts c₁.keys c₁.frontalCount c₁.rsd c₁.model = .ok c₁
  model       : NoiseModel.diagonal c₁.model.sigmas = .ok c₁.model

theorem Valid.partOf_restrict (h : c.Valid) (saved : Key → Bool) (x : Assignment α) :
    (c.restrict saved x).PartOf c saved := by
  obtain ⟨hp, hm⟩ := valid_iff.mp (h.restrict saved x)
  have hrow {v : Key × Nat} {l : Nat} (hv : v ∈ (c.restrict saved x).frontalDims) (hl : l < v.2) :
      (c.keptRows saved)[(c.restrict saved x).rowOf v.1 l]? = some (c.rowOf v.1 l) ∧
      c.rowOf v.1 l < c.rows := by
    rw [frontalDims_restrict] at hv
    obtain ⟨hv, hs⟩ := mem_keptFrontalDims.mp hv
    exact ⟨h.getElem?_keptRows x hv hs hl, h.rowOf_lt hv hl⟩
  constructor
  case frontals => exact h.frontals_restrict saved x
  case parents => exact h.parents_restrict saved x
  case dims => exact dims_restrict c saved x
  case coefficient =>
    intro v hv l hl w hw j hj
    exact h.coefficient_restrict (hrow hv hl).left (dims_restrict c saved x ▸ hw) hj
  case sigma =>
    intro v hv l hl
    obtain ⟨hr, hlt⟩ := hrow hv hl
    have hlt : c.rowOf v.1 l < c.model.sigmas.size := hlt.trans_eq h.dim.symm
    rw [sigma_restrict hr, Array.getD_eq_getD_getElem?, Array.getElem?_eq_getElem hlt,
      Option.getD_some]
  case accepted => exact hp
  case model => exact hm

theorem Valid.conditioned_eq_none_iff (h : c.Valid) (saved : Key → Bool) (x : Assignment α) :
    c.conditioned saved x = .ok none ↔ ¬c.Remains saved := by
  rw [h.conditioned_eq_bind]
  split
  case isTrue hr =>
    refine iff_of_false (fun he => ?_) (not_not_intro hr)
    obtain ⟨_, _, he⟩ := bind_eq_ok.mp he
    cases he
  case isFalse hr => exact iff_of_true rfl hr

-- Conditioning fails only for the values of removed variables, for the first one that does not fit.
theorem conditioned_settles [UnitDeviations α] [LawfulZero α] (h : Piece.Built (.density c))
    (saved : Key → Bool) (x : Assignment α) :
    (c.conditioned saved x = .ok none ↔ (∃ k ∈ c.keys, ¬saved k) ∧ ∀ k ∈ c.frontals, ¬saved k) ∧
      (c.conditioned saved x).Settles
        (if c.Remains saved then (c.removedDims saved).findSome? x.misfit? else none) ∧
      ∀ c₁, c.conditioned saved x = .ok (some c₁) → c₁.PartOf c saved := by
  have h := h.valid
  refine ⟨?_, ?_, ?_⟩
  case refine_1 =>
    simp [h.conditioned_eq_none_iff, Remains, not_or]
  case refine_2 =>
    rw [h.conditioned_eq_bind]
    split
    case isTrue =>
      rw [← Option.or_none (o := List.findSome? _ _)]
      exact (x.requireFits_settles _).bind fun _ _ => settles_ok _
    case isFalse => exact settles_ok _
  case refine_3 =>
    intro c₁ hc
    rw [h.conditioned_eq_bind] at hc
    split at hc
    case isTrue =>
      obtain ⟨_, _, hc⟩ := bind_eq_ok.mp hc
      cases hc
      exact h.partOf_restrict saved x
    case isFalse => cases hc

def slanted : Conditional Float where
  keys := [1, 2, 3]
  frontalCount := 2
  rsd :=
  BlockMatrix.ofFn 3 [2, 1, 1, 1] fun i j => if j.val < i.val then -0 else if i.val = j.val then
    1 else 0 / 0
  model := ⟨#[2, 0, 3]⟩

theorem built_slanted : Piece.Built (.density slanted) := by
  have hm : NoiseModel.diagonal slanted.model.sigmas = .ok slanted.model :=
    NoiseModel.diagonal_eq_ok.mpr ⟨rfl, by decide⟩
  have hp : ofParts slanted.keys slanted.frontalCount slanted.rsd slanted.model = .ok slanted := rfl
  exact .densityOfParts (.diagonal hm) hp

theorem conditioned_settles_slanted :
    let x (v : Array Float) : Assignment Float := KeyMap.ofList [(1, v)]
    slanted.conditioned (· == 3) ∅ = .ok none ∧
      slanted.conditioned (· == 2) (x #[5, 6]) = fail (.missingValue 3) ∧
      slanted.conditioned (· != 1) (x #[5]) = fail (.dimensionMismatch 1 2 1) ∧
      ∃ c₁, slanted.conditioned (· != 1) (x #[5, 6]) = .ok (some c₁) ∧ c₁.PartOf slanted (· != 1) ∧
        c₁.frontals = [2] ∧ c₁.parents = [3] := by
  intro x
  have h := conditioned_settles built_slanted
  have hnone := (h (· != 1) (x #[5, 6])).left
  obtain ⟨r, hr⟩ : ∃ r, slanted.conditioned (· != 1) (x #[5, 6]) = .ok r :=
    (h (· != 1) (x #[5, 6])).right.left
  cases r
  case none => exact absurd (hnone.mp hr) (by decide)
  case some c₁ =>
    have hp := (h _ _).right.right c₁ hr
    exact ⟨(h (· == 3) ∅).left.mpr (by decide), (h (· == 2) (x #[5, 6])).right.left,
      (h (· != 1) (x #[5])).right.left, c₁, hr, hp, hp.frontals, hp.parents⟩

end Conditional
end LinearGaussian
