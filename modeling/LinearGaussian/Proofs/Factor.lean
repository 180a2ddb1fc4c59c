import LinearGaussian.Proofs.Measurement
import LinearGaussian.Proofs.Point
import LinearGaussian.Factor.Combine

namespace LinearGaussian

namespace NoiseModel

variable {α : Type} [Arith α] [RealLike α] {sigmas : Array α}

theorem diagonal_eq_ok {m : NoiseModel α} :
    diagonal sigmas = .ok m ↔ m = ⟨sigmas⟩ ∧ ∀ s ∈ sigmas, admissible s = true := by
  unfold diagonal
  cases h : sigmas.findIdx? fun s => !admissible s
  case none =>
    have hn := Array.findIdx?_eq_none_iff.mp h
    constructor
    case mp =>
      intro he
      cases he
      exact ⟨rfl, by simpa using hn⟩
    case mpr => exact fun ⟨hm, _⟩ => hm ▸ rfl
  case some i =>
    constructor
    case mp => exact fun he => absurd he (Outcome.violated_ne_ok _ _)
    case mpr =>
      intro ⟨_, ha⟩
      have hn : sigmas.findIdx? (fun s => !admissible s) = none :=
        Array.findIdx?_eq_none_iff.mpr (by simpa using ha)
      rw [h] at hn
      contradiction

theorem diagonal_eq_error {e : Fault} (h : diagonal sigmas = .error e) :
    (∃ row, e = .violation (.sigma row)) ∧ ∃ s ∈ sigmas, admissible s = false := by
  unfold diagonal at h
  split at h
  case h_1 row hr =>
    cases h
    have ⟨hi, ha, _⟩ := Array.findIdx?_eq_some_iff_getElem.mp hr
    exact ⟨⟨row, rfl⟩, _, Array.getElem_mem hi, by simpa using ha⟩
  case h_2 => contradiction

end NoiseModel

namespace LinearFactor

section Layout

variable {α : Type} [Arith α] [RealLike α] {f : LinearFactor α}

-- There is one block for each variable and a last one of a single column, and one admissible
-- deviation for each row.
structure WellFormed (f : LinearFactor α) : Prop where
  nodup : f.keys.Nodup
  count : f.ab.count = f.keys.length + 1
  last  : f.ab.widths[f.keys.length]? = some 1
  model : ∀ m, f.model = some m → m.dim = f.rows ∧ ∀ s ∈ m.sigmas, NoiseModel.admissible s = true

def width (f : LinearFactor α) : Nat :=
  (f.dims.map (·.2)).sum

-- The assignment satisfies every hard constraint of the factor.
def Admits (f : LinearFactor α) (x : Assignment α) : Prop :=
  ∃ v, f.unweightedError x = .ok v ∧ ∀ i : Nat, f.sigmas[i]? = some 0 → v[i]? = some 0

omit [RealLike α] in
theorem spread_eq (f : LinearFactor α) (ws : Widths) (i : Nat) :
    f.spread ws i =
      endToEnd (f.ab.full.entry i (f.ab.offsetAt f.keys.length))
        (ws.map fun w => (w.2, f.coefficient w.1 i)) :=
  rfl

theorem augmentedJacobian_eq (f : LinearFactor α) :
    f.augmentedJacobian true = ⟨f.ab.full.rows, f.ab.full.cols, f.whitenedBody⟩ :=
  rfl

@[simp]
theorem rows_augmentedJacobian (f : LinearFactor α) : (f.augmentedJacobian true).rows = f.rows :=
  rfl

@[simp]
theorem cols_augmentedJacobian (f : LinearFactor α) :
    (f.augmentedJacobian true).cols = f.ab.full.cols :=
  rfl

omit [RealLike α] in
theorem coefficient_of_not_mem {k : Key} (hk : k ∉ f.keys) (i j : Nat) :
    f.coefficient k i j = 0 := by
  simp [coefficient, position?, List.idxOf?_eq_none_iff.mpr hk]

namespace WellFormed

theorem length_widths (h : f.WellFormed) : f.ab.widths.length = f.keys.length + 1 :=
  h.count

theorem length_dims (h : f.WellFormed) : f.dims.length = f.keys.length := by
  simp [dims, h.length_widths]

theorem keys_dims (h : f.WellFormed) : f.dims.map (·.1) = f.keys := by
  have hl := h.length_widths
  exact List.map_fst_zip (by omega)

theorem zipIdx_keys (h : f.WellFormed) (count : Nat) :
    (f.keys.drop count).zipIdx = (f.dims.drop count).zipIdx.map fun e => (e.1.1, e.2) := by
  rw [← h.keys_dims, ← List.map_drop, List.zipIdx_map]
  rfl

theorem map_zipIdx_dims (h : f.WellFormed) (count : Nat) :
    (f.dims.drop count).zipIdx.map (·.1.1) = f.keys.drop count := by
  have hk : (f.keys.drop count).zipIdx.map (·.1) = f.keys.drop count := List.zipIdx_map_fst 0 _
  rw [← hk, h.zipIdx_keys, List.map_map]
  rfl

theorem getElem_dims (h : f.WellFormed) {pos : Nat} (hp : pos < f.keys.length) :
    ∃ (hd : pos < f.dims.length) (hw : pos < f.ab.widths.length), f.dims[pos] =
      (f.keys[pos], f.ab.widths[pos]) := by
  have hl := h.length_widths
  refine ⟨by rw [h.length_dims]; exact hp, by omega, ?_⟩
  simp [dims]

theorem map_dims (h : f.WellFormed) : f.dims.map (·.2) = f.ab.widths.take f.keys.length := by
  have hl := h.length_widths
  apply List.ext_getElem
  case hl => simp [dims]
  case h => simp [dims]

theorem offsetAt_length (h : f.WellFormed) : f.ab.offsetAt f.keys.length = f.width := by
  rw [BlockMatrix.offsetAt, width, h.map_dims]

theorem offsetAt_eq (h : f.WellFormed) {pos : Nat} (hp : pos ≤ f.keys.length) :
    f.ab.offsetAt pos = ((f.dims.take pos).map (·.2)).sum := by
  rw [List.map_take, h.map_dims, List.take_take, Nat.min_eq_left hp, BlockMatrix.offsetAt]

theorem widths_eq (h : f.WellFormed) : f.ab.widths = f.dims.map (·.2) ++ [1] := by
  have hl := h.length_widths
  have ht := List.take_add_one (l := f.ab.widths) (i := f.keys.length)
  rw [← hl, List.take_length, h.last] at ht
  rw [h.map_dims]
  exact ht

theorem cols_eq (h : f.WellFormed) : f.ab.full.cols = f.width + 1 := by
  rw [← f.ab.cover, h.widths_eq, List.sum_append, List.sum_singleton, width]

theorem whitenBody_eq (h : f.WellFormed) : f.whitenBody = .ok f.whitenedBody := by
  unfold whitenBody whitenedBody
  cases hm : f.model
  case none => rfl
  case some m =>
    have hd : f.ab.full.rows = m.dim := (h.model m hm).left.symm
    simp [NoiseModel.whitenBody, require, hd]

theorem whitenInformation_eq (h : f.WellFormed) :
    f.whitenInformation = .ok f.augmentedInformation := by
  rw [whitenInformation, h.whitenBody_eq]
  rfl

theorem size_sigmas (h : f.WellFormed) : f.sigmas.size = f.rows := by
  unfold sigmas
  split
  case h_1 m hm => exact (h.model m hm).left
  case h_2 => simp [Vec.fill]

theorem admissible_of_mem_sigmas [UnitDeviations α] (h : f.WellFormed) {s : α} (hs : s ∈ f.sigmas) :
    NoiseModel.admissible s = true := by
  unfold sigmas at hs
  cases hf : f.model
  case none =>
    have h1 : s = 1 := by simp_all [Vec.fill]
    exact UnitDeviations.admissible (.inr h1)
  case some m =>
    rw [hf] at hs
    exact (h.model m hf).right s hs

theorem mem_dims_or (h : f.WellFormed) {ws : Widths} (hn : ws.keys.Nodup) (hs : f.dims ⊆ ws)
    {w : Key × Nat} (hw : w ∈ ws) : w ∈ f.dims ∨ w.1 ∉ f.keys := by
  by_cases hk : w.1 ∈ f.keys
  case neg => exact .inr hk
  case pos =>
    rw [← h.keys_dims] at hk
    have ⟨v, hv, he⟩ := List.mem_map.mp hk
    exact .inl (List.inj_on_of_nodup_map hn (hs hv) hw he ▸ hv)

theorem position?_getElem (h : f.WellFormed) {pos : Nat} (hp : pos < f.keys.length) :
    f.position? f.keys[pos] = some pos := by
  refine List.idxOf?_eq_some_iff.mpr ⟨hp, rfl, fun q hq he => ?_⟩
  exact absurd (h.nodup.getElem_inj_iff.mp he) hq.ne

theorem coefficient_getElem (h : f.WellFormed) {pos : Nat} (hp : pos < f.keys.length) (i j : Nat) :
    f.coefficient f.keys[pos] i j = f.ab.full.entry i (f.ab.offsetAt pos + j) := by
  simp [coefficient, h.position?_getElem hp]

theorem coefficient_of_mem_zipIdx (h : f.WellFormed) {e : (Key × Nat) × Nat}
    (he : e ∈ f.dims.zipIdx) (i j : Nat) :
    f.coefficient e.1.1 i j = f.ab.full.entry i (f.ab.offsetAt e.2 + j) := by
  have ⟨hp, hd⟩ := List.mem_zipIdx' he
  rw [h.length_dims] at hp
  have ⟨_, _, hd'⟩ := h.getElem_dims hp
  rw [hd, hd', h.coefficient_getElem hp]

theorem spread_dims (h : f.WellFormed) (i : Nat) {j : Nat} (hj : j < f.ab.full.cols) :
    f.spread f.dims i j = f.ab.full.entry i j := by
  have hw := h.cols_eq
  rw [spread_eq, h.offsetAt_length]
  apply endToEnd_pieces (fun w : Key × Nat => w.2) (fun w => f.coefficient w.1 i)
    (f.ab.full.entry i)
  case hg =>
    intro pos hp l _
    rw [h.length_dims] at hp
    have ⟨_, _, hd⟩ := h.getElem_dims hp
    rw [hd, h.coefficient_getElem hp, h.offsetAt_eq (Nat.le_of_lt hp)]
  case hi =>
    unfold width at hw
    omega

theorem get?_of_mem_zipIdx (h : f.WellFormed) {x : Assignment α} {count : Nat}
    (hx : x.Fits (f.dims.drop count)) {e : Key × Nat} (he : e ∈ (f.keys.drop count).zipIdx) :
    ∃ v, ∃ h : count + e.2 < f.ab.widths.length, x.get? e.1 = some v ∧
      v.size = f.ab.widths[count + e.2] := by
  have ⟨hp, hk⟩ := List.mem_zipIdx' he
  rw [List.length_drop] at hp
  have ⟨hd, hw, he⟩ := h.getElem_dims (Nat.add_lt_of_lt_sub' hp)
  have ⟨v, hv, hs⟩ := hx _ (List.mem_drop_iff_getElem.mpr ⟨e.2, Nat.add_comm count e.2 ▸ hd, rfl⟩)
  rw [he] at hv hs
  rw [List.getElem_drop] at hk
  exact ⟨v, hw, hk ▸ hv, hs⟩

theorem exists_addBlocks (h : f.WellFormed) (alpha : α) {x : Assignment α} {count : Nat}
    (hx : x.Fits (f.dims.drop count)) {y : Array α} (hy : y.size = f.ab.rows) :
    ∃ z, (f.keys.drop count).zipIdx.foldlM (fun y (k, pos) => do
        let a ← f.ab.block (count + pos)
        let v ← x.valueOf k a.cols
        a.addMulVec alpha v y) y = .ok z ∧ z.size = f.ab.rows :=
  f.ab.exists_addBlocks alpha x (count + ·) (fun _ he => h.get?_of_mem_zipIdx hx he) hy

end WellFormed

section Construction

variable {keys : List Key} {ab : BlockMatrix α} {model : Option (NoiseModel α)}
  {terms : List (Key × Mat α)}

omit [Arith α] [RealLike α] in
theorem checkModel_eq_ok {n : Nat} {u : Unit} :
    checkModel model n = .ok u ↔ ∀ m, model = some m → m.dim = n := by
  cases model
  case none => simp [checkModel]
  case some m => by_cases hm : m.dim = n <;> simp [checkModel, hm]

omit [Arith α] [RealLike α] in
theorem nodup_of_checkTerms {n : Nat} {seen : List Key} {u : Unit}
    (h : checkTerms n seen terms = .ok u) :
    (terms.map (·.1)).Nodup ∧ ∀ k ∈ terms.map (·.1), k ∉ seen := by
  induction terms generalizing seen
  case nil => simp
  case cons t terms ih =>
    simp only [checkTerms] at h
    split at h
    case isTrue => exact absurd h (Outcome.fail_ne_ok _ _)
    case isFalse ht =>
      split at h
      case isTrue =>
        have ⟨hn, hs⟩ := ih h
        have hk : t.1 ∉ terms.map (·.1) := fun hm => hs t.1 hm (.head _)
        refine ⟨List.nodup_cons.mpr ⟨hk, hn⟩, List.forall_mem_cons.mpr ⟨ht, fun k hm => ?_⟩⟩
        exact List.not_mem_of_not_mem_cons (hs k hm)
      case isFalse => exact absurd h (Outcome.fail_ne_ok _ _)

theorem wellFormed_ofBlocks (h : ofBlocks keys ab model = .ok f)
    (hm : ∀ m, model = some m → NoiseModel.diagonal m.sigmas = .ok m) : f.WellFormed := by
  simp only [ofBlocks] at h
  split at h
  case isTrue => exact absurd h (Outcome.fail_ne_ok _ _)
  case isFalse hb =>
    have ⟨hcount, hlast⟩ := not_or.mp hb
    have ⟨_, hk, h⟩ := Outcome.bind_eq_ok.mp h
    have ⟨_, hc, h⟩ := Outcome.bind_eq_ok.mp h
    cases h
    exact ⟨Outcome.requireDistinct_eq_ok.mp hk, not_not.mp hcount, not_not.mp hlast, fun m he =>
      ⟨checkModel_eq_ok.mp hc m he, (NoiseModel.diagonal_eq_ok.mp (hm m he)).right⟩⟩

theorem wellFormed_ofTerms {b : Array α} (h : ofTerms terms b model = .ok f)
    (hm : ∀ m, model = some m → NoiseModel.diagonal m.sigmas = .ok m) : f.WellFormed := by
  obtain ⟨_, ht, h⟩ := Outcome.bind_eq_ok.mp h
  obtain ⟨_, hc, h⟩ := Outcome.bind_eq_ok.mp h
  cases h
  constructor
  case nodup => exact (nodup_of_checkTerms ht).left
  case count => simp [BlockMatrix.ofFn, BlockMatrix.count]
  case last => simp [BlockMatrix.ofFn]
  case model =>
    exact fun m he => ⟨checkModel_eq_ok.mp hc m he, (NoiseModel.diagonal_eq_ok.mp (hm m he)).right⟩

theorem wellFormed_ofRhs (b : Array α) : (ofRhs b).WellFormed := by
  constructor
  case nodup => exact .nil
  case count => rfl
  case last => rfl
  case model => nofun

end Construction
end Layout

noncomputable def image (f : LinearFactor ℝ) (i : Nat) (p : Point) : ℝ :=
  (f.dims.map fun w => ∑ j ∈ Finset.range w.2, f.coefficient w.1 i j * p w.1 j).sum

noncomputable def residual (f : LinearFactor ℝ) (i : Nat) (p : Point) : ℝ :=
  (f.dims.map fun w => ∑ j ∈ Finset.range w.2, f.coefficient w.1 i j * p w.1 j).sum -
    f.ab.full.entry i (f.ab.offsetAt f.keys.length)

noncomputable def measurement (f : LinearFactor ℝ) (i : Nat) : Measurement Point :=
  ⟨f.sigmas.getD i 1, f.residual i⟩

noncomputable def measurements (f : LinearFactor ℝ) : List (Measurement Point) :=
  (List.range f.rows).map f.measurement

-- The coordinates of the variables one after the other, and then minus one to meet the right-hand
-- side.
noncomputable def stack (ws : Widths) (p : Point) : Nat → ℝ :=
  endToEnd (-1) (ws.map fun w => (w.2, p w.1))

noncomputable def unstack (f : LinearFactor ℝ) (v : Nat → ℝ) : Point :=
  fun k j => v (f.ab.offsetAt (f.keys.idxOf k) + j)

open Measurement

variable {f : LinearFactor ℝ} {x : Assignment ℝ}

theorem stack_sum (ws : Widths) (p : Point) : stack ws p (ws.map (·.2)).sum = -1 :=
  endToEnd_sum ..

theorem nonneg_of_mem_sigmas (h : f.WellFormed) {s : ℝ} (hs : s ∈ f.sigmas) : 0 ≤ s :=
  (admissible_iff s).mp (h.admissible_of_mem_sigmas hs)

theorem sum_spread_mul (f : LinearFactor ℝ) (ws : Widths) (i : Nat) (p : Point) :
    ∑ j ∈ Finset.range (ws.map (·.2)).sum, f.spread ws i j * stack ws p j =
      (ws.map fun w => ∑ j ∈ Finset.range w.2, f.coefficient w.1 i j * p w.1 j).sum :=
  sum_endToEnd ..

theorem sum_spread (f : LinearFactor ℝ) (ws : Widths) (i : Nat) (p : Point) :
    ∑ j ∈ Finset.range ((ws.map (·.2)).sum + 1), f.spread ws i j * stack ws p j =
      (ws.map fun w => ∑ j ∈ Finset.range w.2, f.coefficient w.1 i j * p w.1 j).sum -
        f.ab.full.entry i (f.ab.offsetAt f.keys.length) := by
  rw [Finset.sum_range_succ, sum_spread_mul, spread_eq, stack_sum, endToEnd_sum, mul_neg_one,
    ← sub_eq_add_neg]

theorem sum_take (h : f.WellFormed) {count : Nat} (hc : count ≤ f.keys.length) (i : Nat)
    (p : Point) :
    ((f.dims.take count).map fun w => ∑ j ∈ Finset.range w.2, f.coefficient w.1 i j * p w.1 j).sum =
      ∑ j ∈ Finset.range (f.ab.offsetAt count), f.ab.full.entry i j * stack
        (f.dims.take count) p j := by
  rw [← sum_endToEnd (f.ab.full.entry i (f.ab.offsetAt f.keys.length)) (-1), h.offsetAt_eq hc]
  apply Finset.sum_congr rfl
  intro j hj
  have hj : j < ((f.dims.take count).map (·.2)).sum := Finset.mem_range.mp hj
  have hcols := f.ab.offsetAt_le count
  rw [h.offsetAt_eq hc] at hcols
  have ha : f.spread (f.dims.take count ++ f.dims.drop count) i j =
      f.spread (f.dims.take count) i j := by
    simp only [spread_eq, List.map_append]
    exact endToEnd_append_left _ _ _ _ (by simpa [Function.comp_def] using hj)
  rw [List.take_append_drop, h.spread_dims i (hj.trans_le hcols)] at ha
  rw [ha]
  rfl

theorem eqOn_iff_stack {ws : Widths} {p q : Point} :
    Point.EqOn ws p q ↔ ∀ j < (ws.map (·.2)).sum, stack ws p j = stack ws q j := by
  induction ws
  case nil => simp [Point.EqOn]
  case cons w ws ih =>
    have hs (p : Point) (j : Nat) : stack (w :: ws) p j = if j < w.2 then
        p w.1 j else stack ws p (j - w.2) := rfl
    have hc : Point.EqOn (w :: ws) p q ↔ (∀ j < w.2, p w.1 j = q w.1 j) ∧ Point.EqOn ws p q :=
      List.forall_mem_cons
    rw [hc, ih]
    simp only [List.map_cons, List.sum_cons, hs]
    constructor
    case mp =>
      intro ⟨hw, hws⟩ j hj
      split
      case isTrue h => exact hw j h
      case isFalse h => exact hws _ (by omega)
    case mpr =>
      intro h
      constructor
      case left =>
        intro j hj
        simpa [hj] using h j (by omega)
      case right =>
        intro j hj
        simpa using h (w.2 + j) (by omega)

theorem stack_unstack (h : f.WellFormed) {count : Nat} (hc : count ≤ f.keys.length) (v : Nat → ℝ)
    {j : Nat} (hj : j < f.ab.offsetAt count) : stack (f.dims.take count) (f.unstack v) j = v j := by
  rw [h.offsetAt_eq hc] at hj
  have hp :=
    endToEnd_pieces (fun w : Key × Nat => w.2) (fun w => f.unstack v w.1) v
      (f.dims.take count) ?_ hj.le
  case refine_1 =>
    intro pos hpos l _
    have hpos : pos < count ∧ pos < f.keys.length := by simpa [h.length_dims] using hpos
    have ⟨_, _, hd⟩ := h.getElem_dims hpos.right
    rw [List.getElem_take, hd, unstack, h.nodup.idxOf_getElem pos hpos.right, List.take_take,
      Nat.min_eq_left hpos.left.le, h.offsetAt_eq hpos.right.le]
  have hl := endToEnd_append_left (-1) (v ((f.dims.take count).map (·.2)).sum)
    ((f.dims.take count).map fun w => (w.2, f.unstack v w.1)) [] (i := j)
      (by simpa [Function.comp_def] using hj)
  rw [List.append_nil, hp] at hl
  exact hl

theorem residual_eq_image (f : LinearFactor ℝ) (i : Nat) (p : Point) :
    f.residual i p = f.image i p - f.ab.full.entry i (f.ab.offsetAt f.keys.length) :=
  rfl

theorem image_congr {p q : Point} (h : Point.EqOn f.dims p q) (i : Nat) :
    f.image i p = f.image i q := by
  unfold image
  congr 1
  apply List.map_congr_left
  intro w hw
  apply Finset.sum_congr rfl
  intro j hj
  rw [h w hw j (Finset.mem_range.mp hj)]

theorem residual_congr {p q : Point} (h : Point.EqOn f.dims p q) (i : Nat) :
    f.residual i p = f.residual i q := by
  rw [residual_eq_image, residual_eq_image, image_congr h]

-- Residuals grow evenly: at the corners of a parallelogram, those of opposite corners add up to the
-- same.
theorem residual_add_sub (f : LinearFactor ℝ) (i : Nat) (p q r : Point) :
    f.residual i (p + q - r) = f.residual i p + f.residual i q - f.residual i r := by
  unfold residual
  induction f.dims
  case nil => simp
  case cons w ws ih =>
    have hs : ∑ j ∈ Finset.range w.2, f.coefficient w.1 i j * (p + q - r) w.1 j =
        ∑ j ∈ Finset.range w.2, f.coefficient w.1 i j * p w.1 j +
          ∑ j ∈ Finset.range w.2, f.coefficient w.1 i j * q w.1 j -
          ∑ j ∈ Finset.range w.2, f.coefficient w.1 i j * r w.1 j := by
      rw [← Finset.sum_add_distrib, ← Finset.sum_sub_distrib]
      exact Finset.sum_congr rfl fun j _ => by simp only [Pi.add_apply, Pi.sub_apply]; ring
    simp only [List.map_cons, List.sum_cons, hs]
    linarith

theorem residual_eq_sum (h : f.WellFormed) (i : Nat) (p : Point) :
    f.residual i p = ∑ j ∈ Finset.range f.ab.full.cols, f.ab.full.entry i j * stack f.dims p j := by
  rw [residual, ← f.sum_spread, ← width, ← h.cols_eq]
  apply Finset.sum_congr rfl
  intro j hj
  rw [h.spread_dims i (Finset.mem_range.mp hj)]

theorem map_zipIdx_drop (h : f.WellFormed) (count i : Nat) (p : Point) :
    ((f.keys.drop count).zipIdx.map fun (k, pos) =>
      ∑ j ∈ Finset.range (f.ab.widths.getD (count + pos) 0),
        f.ab.full.entry i (f.ab.offsetAt (count + pos) + j) * p k j) =
      (f.dims.drop count).map fun w => ∑ j ∈ Finset.range w.2, f.coefficient w.1 i j * p w.1 j := by
  apply List.ext_getElem
  case hl => simp [h.length_dims]
  case h =>
    intro pos hp _
    have hp : count + pos < f.keys.length := by
      simp at hp
      omega
    have ⟨_, hw, hd⟩ := h.getElem_dims hp
    simp [hd, hw, h.coefficient_getElem hp]

theorem addBlocks_drop (h : f.WellFormed) (alpha : ℝ) {count : Nat}
    (hx : x.Fits (f.dims.drop count)) {y : Array ℝ} (hy : y.size = f.ab.rows) :
    ∃ z, (f.keys.drop count).zipIdx.foldlM (fun y (k, pos) => do
        let a ← f.ab.block (count + pos)
        let v ← x.valueOf k a.cols
        a.addMulVec alpha v y) y = .ok z ∧ z.size = f.ab.rows ∧
      ∀ i < f.ab.rows, z.getD i 0 = y.getD i 0 +
        alpha * ((f.dims.drop count).map fun w => ∑ j ∈ Finset.range w.2, f.coefficient w.1 i j *
          x.point w.1 j).sum := by
  have ⟨z, hz, hs, he⟩ :=
    f.ab.addBlocks_eq alpha x (count + ·) (fun _ he => h.get?_of_mem_zipIdx hx he) hy
  refine ⟨z, hz, hs, fun i hi => ?_⟩
  rw [he i hi, map_zipIdx_drop h count i]

theorem unweightedError_eq (h : f.WellFormed) (hx : x.Fits f.dims) :
    ∃ v, f.unweightedError x = .ok v ∧ v.size = f.rows ∧ ∀ i < f.rows, v.getD i 0 =
      f.residual i x.point := by
  have hy : (Vec.scale f.b (-1)).size = f.ab.rows := by simp [Vec.scale, b, rows]
  have ⟨v, hv, hs, he⟩ := addBlocks_drop h 1 (show x.Fits (f.dims.drop 0) from hx) hy
  simp only [List.drop_zero, Nat.zero_add] at hv he
  refine ⟨v, hv, hs, fun i hi => ?_⟩
  rw [he i hi, residual]
  simp [Vec.scale, b, hi]
  ring

theorem sigma_of_model {m : NoiseModel ℝ} (h : f.WellFormed) (hm : f.model = some m) {i : Nat}
    (hi : i < f.rows) :
    m.weight i = NoiseModel.weightOf (f.sigmas.getD i 1) := by
  have hs : i < m.sigmas.size := by
    rw [← h.size_sigmas] at hi
    simpa [sigmas, hm] using hi
  simp [NoiseModel.weight, sigmas, hm, hs]

theorem whitenVec_eq (h : f.WellFormed) {v : Array ℝ} (hv : v.size = f.rows) :
    ∃ u, f.whitenVec v = .ok u ∧ u.size = f.rows ∧
      ∀ i < f.rows, u.getD i 0 = v.getD i 0 * NoiseModel.weightOf (f.sigmas.getD i 1) := by
  unfold whitenVec
  split
  case h_1 m hm =>
    have hd : v.size = m.dim := hv.trans (h.model m hm).left.symm
    simp only [NoiseModel.whiten, hd, decide_true, require, if_true, Outcome.ok_bind,
      Outcome.pure_eq_ok]
    refine ⟨_, rfl, by simp [hv], fun i hi => ?_⟩
    simp [hv, hi, sigma_of_model h hm]
  case h_2 hm =>
    refine ⟨v, rfl, hv, fun i hi => ?_⟩
    simp [sigmas, hm, Vec.fill, hi, weightOf_eq]

theorem errorVector_eq (h : f.WellFormed) (hx : x.Fits f.dims) :
    ∃ v, f.errorVector x = .ok v ∧ v.size = f.rows ∧
      ∀ i < f.rows, v.getD i 0 =
        f.residual i x.point * NoiseModel.weightOf (f.sigmas.getD i 1) := by
  have ⟨v, hv, hs, he⟩ := unweightedError_eq h hx
  have ⟨u, hu, hus, hue⟩ := whitenVec_eq h hs
  refine ⟨u, ?_, hus, fun i hi => ?_⟩
  case refine_1 => rw [errorVector, hv, Outcome.ok_bind, hu]
  case refine_2 => rw [hue i hi, he i hi]

theorem totalCost_measurements (f : LinearFactor ℝ) (p : Point) :
    totalCost f.measurements p =
      ∑ i ∈ Finset.range f.rows, 1 / 2 *
        (f.residual i p * NoiseModel.weightOf (f.sigmas.getD i 1)) ^ 2 := by
  rw [totalCost, measurements, List.map_map]
  rfl

theorem error_eq (h : f.WellFormed) (hx : x.Fits f.dims) :
    f.error x = .ok (totalCost f.measurements x.point) := by
  have ⟨v, hv, hs, he⟩ := errorVector_eq h hx
  unfold error
  split
  case isTrue hr => simp [measurements, hr]
  case isFalse =>
    have hn : Vec.normSq v = ∑ i ∈ Finset.range v.size, v.getD i 0 ^ 2 := by
      simp [Vec.normSq, Finset.sum_range, sq]
    rw [hv, Outcome.ok_bind, Outcome.pure_eq_ok, hn, hs, totalCost_measurements, half_eq,
      Finset.mul_sum]
    congr 1
    apply Finset.sum_congr rfl
    intro i hi
    rw [he i (Finset.mem_range.mp hi)]

theorem admits_iff (h : f.WellFormed) (hx : x.Fits f.dims) :
    f.Admits x ↔ Feasible f.measurements x.point := by
  obtain ⟨v, hv, hs, he⟩ := unweightedError_eq h hx
  have hsize := h.size_sigmas
  simp only [Admits, hv, Except.ok.injEq, exists_eq_left', Feasible, measurements, List.mem_map,
    List.mem_range, forall_exists_index, and_imp, forall_apply_eq_imp_iff₂]
  constructor
  case mp =>
    intro ha i hi hz
    have hi' : i < f.sigmas.size := by omega
    have hz' : f.sigmas[i]? = some 0 := by simpa [measurement, hi'] using hz
    have hr : f.residual i x.point = 0 := by
      rw [← he i hi, Array.getD_eq_getD_getElem?, ha i hz', Option.getD_some]
    exact hr
  case mpr =>
    intro ha i hz
    obtain ⟨hi, _⟩ := Array.getElem?_eq_some_iff.mp hz
    have hi' : i < f.rows := by omega
    have hr := he i hi'
    have h0 : f.residual i x.point = 0 := ha i hi' (by simp [measurement, hz])
    rw [h0] at hr
    have hv' : i < v.size := by omega
    simpa [hv'] using hr

section ScalarRow

def scalarRow {α : Type} [Arith α] (keys : List Key) (coefficients : List α) (rhs sigma : α) :
    LinearFactor α :=
  ⟨keys, BlockMatrix.ofFn 1 (keys.map (fun _ => 1) ++ [1]) fun _ j =>
    (coefficients ++ [rhs]).getD j 0, some ⟨#[sigma]⟩⟩

theorem wellFormed_scalarRow_of_admissible {α : Type} [Arith α] [RealLike α] {keys : List Key}
    {coefficients : List α} {rhs sigma : α} (hn : keys.Nodup)
    (hs : NoiseModel.admissible sigma = true) :
    (scalarRow keys coefficients rhs sigma).WellFormed := by
  constructor
  case nodup => exact hn
  case count => simp [scalarRow, BlockMatrix.ofFn, BlockMatrix.count]
  case last => simp [scalarRow, BlockMatrix.ofFn]
  case model =>
    intro m hm
    cases hm
    exact ⟨rfl, by simpa using hs⟩

variable {keys : List Key} {coefficients : List ℝ} {rhs sigma : ℝ}

theorem wellFormed_scalarRow (hn : keys.Nodup) (hs : 0 ≤ sigma) :
    (scalarRow keys coefficients rhs sigma).WellFormed :=
  wellFormed_scalarRow_of_admissible hn ((admissible_iff sigma).mpr hs)

@[simp]
theorem rows_scalarRow : (scalarRow keys coefficients rhs sigma).rows = 1 :=
  rfl

@[simp]
theorem sigmas_scalarRow : (scalarRow keys coefficients rhs sigma).sigmas = #[sigma] :=
  rfl

theorem coefficient_scalarRow (k : Key) (a b sigma : ℝ) :
    (scalarRow [k] [a] b sigma).coefficient k 0 0 = a := by
  simp [scalarRow, coefficient, position?, BlockMatrix.ofFn, Mat.entry, Mat.ofFn,
    BlockMatrix.offsetAt, List.idxOf?]

theorem residual_scalarRow (k : Key) (a b sigma : ℝ) (p : Point) :
    (scalarRow [k] [a] b sigma).residual 0 p = a * p k 0 - b := by
  have hd : (scalarRow [k] [a] b sigma).dims = [(k, 1)] := rfl
  simp only [residual, hd, List.map_cons, List.map_nil, List.sum_cons, List.sum_nil,
    Finset.sum_range_one, coefficient_scalarRow]
  simp [scalarRow, BlockMatrix.ofFn, Mat.entry, Mat.ofFn, BlockMatrix.offsetAt]

end ScalarRow

end LinearFactor
end LinearGaussian
