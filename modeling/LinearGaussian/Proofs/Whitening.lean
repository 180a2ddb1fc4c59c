import LinearGaussian.Proofs.Construction
import LinearGaussian.Proofs.Refusal

namespace LinearGaussian

section Rows

variable (s : Nat → ℝ)

noncomputable def Vec.scaleRows (v : Array ℝ) : Array ℝ :=
  v.mapIdx fun i x => x * s i

noncomputable def Mat.scaleRows (a : Mat ℝ) : Mat ℝ :=
  .ofFn a.rows a.cols fun i j => a.body i j * s i

noncomputable def Window.scaleRows (w : Window ℝ) : Window ℝ :=
  { w with base := w.base.scaleRows s }

noncomputable def BlockMatrix.scaleRows (b : BlockMatrix ℝ) : BlockMatrix ℝ :=
  ⟨b.full.scaleRows s, b.widths, b.cover⟩

theorem Vec.scaleRows_one (v : Array ℝ) : scaleRows (fun _ => 1) v = v := by
  apply Array.ext <;> simp [scaleRows]

theorem Vec.size_scaleRows (v : Array ℝ) : (scaleRows s v).size = v.size :=
  Array.size_mapIdx

theorem Vec.getD_scaleRows (v : Array ℝ) (i : Nat) :
    (scaleRows s v).getD i 0 = v.getD i 0 * s i := by
  by_cases hi : i < v.size <;> simp [scaleRows, hi]

theorem Vec.scale_scaleRows (v : Array ℝ) (a : ℝ) :
    scale (scaleRows s v) a = scaleRows s (scale v a) := by
  apply Array.ext <;> simp [scale, scaleRows, mul_right_comm]

theorem Mat.entry_scaleRows (a : Mat ℝ) (i j : Nat) :
    (a.scaleRows s).entry i j = a.entry i j * s i := by
  by_cases h : i < a.rows ∧ j < a.cols
  case pos => rw [scaleRows, entry_ofFn _ h.left h.right, ← entry_body]
  case neg => simp [entry, scaleRows, ofFn, h]

theorem Mat.scaleRows_one (a : Mat ℝ) : a.scaleRows (fun _ => 1) = a := by
  refine ext_entry rfl rfl fun i _ j _ => ?_
  rw [entry_scaleRows, mul_one]

theorem BlockMatrix.block_scaleRows (b : BlockMatrix ℝ) (i : Nat) :
    (b.scaleRows s).block i = Window.scaleRows s <$> b.block i := by
  unfold block blocks
  by_cases h : (i ≤ b.count ∧ i + 1 ≤ b.count) ∧ b.offsetAt i ≤ b.offsetAt (i + 1)
  case pos =>
    rw [dif_pos h]
    exact dif_pos h
  case neg =>
    rw [dif_neg h]
    exact dif_neg h

theorem BlockMatrix.row_of_block {b : BlockMatrix ℝ} {i : Nat} {w : Window ℝ}
    (h : b.block i = .ok w) : w.row = 0 := by
  unfold block blocks at h
  split at h
  case isTrue =>
    cases h
    rfl
  case isFalse => exact absurd h (Outcome.violated_ne_ok _ _)

namespace Window

variable {w : Window ℝ}

theorem entry_scaleRows (w : Window ℝ) (i : Fin w.rows) (j : Fin w.cols) :
    (w.scaleRows s).entry i j = w.entry i j * s (w.row + i) := by
  rw [w.entry_eq_base, ← Mat.entry_scaleRows]
  exact (w.scaleRows s).entry_eq_base i j

theorem addMulVec_scaleRows_of_size (hw : w.row = 0) (a : ℝ) {x y : Array ℝ} (hx : x.size = w.cols)
    (hy : y.size = w.rows) :
    (w.scaleRows s).addMulVec a x (Vec.scaleRows s y) = Vec.scaleRows s <$> w.addMulVec a x y := by
  obtain ⟨z, hz, hzs, hze⟩ := w.addMulVec_eq a hx hy
  obtain ⟨u, hu, hus, hue⟩ := (w.scaleRows s).addMulVec_eq a hx ((Vec.size_scaleRows s y).trans hy)
  have hus : u.size = w.rows := hus
  rw [hz, hu, Outcome.map_ok]
  congr 1
  apply Array.ext
  case h₁ => rw [hus, Vec.size_scaleRows, hzs]
  case h₂ =>
    intro i hi hi'
    have hiw : i < w.rows := hus ▸ hi
    have he : u.getD i 0 = (Vec.scaleRows s z).getD i 0 := by
      rw [hue i hiw, Vec.getD_scaleRows, Vec.getD_scaleRows, hze i hiw, add_mul, mul_assoc,
        Finset.sum_mul]
      congr 2
      refine Finset.sum_congr rfl fun j _ => ?_
      have hij := w.base.entry_scaleRows s (w.row + i) (w.col + j)
      rw [hw, Nat.zero_add] at hij ⊢
      rw [mul_right_comm, ← hij]
      simp [scaleRows, hw]
    simpa [hi, hi'] using he

theorem addMulVec_scaleRows (hw : w.row = 0) (a : ℝ) (x y : Array ℝ) :
    (w.scaleRows s).addMulVec a x (Vec.scaleRows s y) = Vec.scaleRows s <$> w.addMulVec a x y := by
  by_cases hx : x.size = w.cols
  case pos =>
    by_cases hy : y.size = w.rows
    case pos => exact addMulVec_scaleRows_of_size s hw a hx hy
    case neg =>
      -- Neither product is defined, for the same reason.
      have hys : ¬(Vec.scaleRows s y).size = (w.scaleRows s).rows :=
        fun h => hy ((Vec.size_scaleRows s y).symm.trans h)
      have hxs : x.size = (w.scaleRows s).cols := hx
      unfold addMulVec Vec.sized
      simp only [dif_pos hx, dif_pos hxs, dif_neg hy, dif_neg hys, Outcome.ok_bind]
      rfl
  case neg =>
    have hxs : ¬x.size = (w.scaleRows s).cols := hx
    unfold addMulVec Vec.sized
    simp only [dif_neg hx, dif_neg hxs]
    rfl

theorem isZero_scaleRows (hs : ∀ i, s i ≠ 0) (w : Window ℝ) :
    (w.scaleRows s).isZero = w.isZero := by
  have he (i : Fin w.rows) (j : Fin w.cols) : ((w.scaleRows s).entry i j == 0) =
      (w.entry i j == 0) := by
    rw [entry_scaleRows, Bool.eq_iff_iff]
    simp [hs]
  exact congrArg (List.all _) (funext fun j => congrArg (List.all _) (funext fun i => he i j))

end Window
end Rows

namespace LinearFactor

variable {f : LinearFactor ℝ}

section Images

variable (s : Nat → ℝ) (model : Option (NoiseModel ℝ))

theorem b_scaleRows (f : LinearFactor ℝ) :
    b ⟨f.keys, f.ab.scaleRows s, model⟩ = Vec.scaleRows s f.b := by
  apply Array.ext
  case h₁ =>
    simp [b, Vec.scaleRows, rows, BlockMatrix.rows, BlockMatrix.scaleRows, Mat.scaleRows, Mat.ofFn]
  case h₂ =>
    intro i _ _
    simp only [b, Vec.scaleRows, Array.getElem_ofFn, Array.getElem_mapIdx]
    exact Mat.entry_scaleRows ..

theorem addImage_scaleRows (f : LinearFactor ℝ) (x : Assignment ℝ) (y : Array ℝ) :
    addImage ⟨f.keys, f.ab.scaleRows s, model⟩ x (Vec.scaleRows s y) =
      Vec.scaleRows s <$> f.addImage x y := by
  refine Outcome.foldlM_hom (fun y e => ?_) y
  rw [addBlock, addBlock, BlockMatrix.block_scaleRows]
  cases hb : f.ab.block e.2
  case error => rfl
  case ok w =>
    rw [Outcome.map_ok, Outcome.ok_bind, Outcome.ok_bind, map_bind]
    simp only [w.addMulVec_scaleRows s (BlockMatrix.row_of_block hb)]
    rfl

end Images

section White

noncomputable def weight (f : LinearFactor ℝ) (i : Nat) : ℝ :=
  NoiseModel.weightOf (f.sigmas.getD i 1)

noncomputable def whiteSigma (s : ℝ) : ℝ :=
  if s = 0 then 0 else 1

theorem weight_ne_zero (f : LinearFactor ℝ) (i : Nat) : f.weight i ≠ 0 :=
  weightOf_ne_zero _

theorem weightOf_whiteSigma (s : ℝ) : NoiseModel.weightOf (whiteSigma s) = 1 := by
  rw [weightOf_eq, whiteSigma]
  split <;> simp

theorem whiteSigma_whiteSigma (s : ℝ) : whiteSigma (whiteSigma s) = whiteSigma s := by
  unfold whiteSigma
  split <;> simp

theorem whiteSigma_eq_zero_iff {s : ℝ} : whiteSigma s = 0 ↔ s = 0 := by
  simp [whiteSigma]

theorem full_whiten (f : LinearFactor ℝ) : f.whiten.ab.full = f.augmentedJacobian true :=
  rfl

theorem scaleRows_weight (h : f.WellFormed) :
    f.ab.full.scaleRows f.weight = f.augmentedJacobian true := by
  rw [augmentedJacobian_eq, Mat.scaleRows, Mat.ofFn]
  congr 1
  apply Dense.ext_get
  intro i j
  rw [whitenedBody_get h, Dense.get_ofFn, weight]

theorem model_whiten (f : LinearFactor ℝ) :
    f.whiten.model = if f.isConstrained then some ⟨f.sigmas.map whiteSigma⟩ else none := by
  unfold whiten isConstrained sigmas
  cases f.model
  case none => rfl
  case some m =>
    have hs : whiteSigma = fun s => if s == 0 then 0 else 1 := by
      funext s
      simp [whiteSigma]
    rw [hs]

theorem ab_whiten (h : f.WellFormed) : f.whiten.ab = f.ab.scaleRows f.weight :=
  BlockMatrix.eq_of_full ((full_whiten f).trans (scaleRows_weight h).symm) rfl

theorem whiten_eq (h : f.WellFormed) :
    f.whiten =
      ⟨f.keys, f.ab.scaleRows f.weight, if f.isConstrained then some ⟨f.sigmas.map whiteSigma⟩
        else none⟩ := by
  rw [← model_whiten, ← ab_whiten h]
  rfl

theorem sigmas_whiten (h : f.WellFormed) : f.whiten.sigmas = f.sigmas.map whiteSigma := by
  cases hc : f.isConstrained
  case true => simp [sigmas, model_whiten, hc]
  case false =>
    have hs : ∀ s ∈ f.sigmas, whiteSigma s = 1 := by
      intro s hs
      have h0 : s ≠ 0 :=
        fun h0 => Bool.false_ne_true (hc.symm.trans ((isConstrained_iff f).mpr (h0 ▸ hs)))
      rw [whiteSigma, if_neg h0]
    rw [Array.map_congr_left hs, Array.map_const', h.size_sigmas, whiten_eq h, hc]
    rfl

theorem weight_whiten (h : f.WellFormed) : f.whiten.weight = fun _ => 1 := by
  funext i
  rw [weight, sigmas_whiten h]
  by_cases hi : i < f.sigmas.size
  case pos => simpa [hi] using weightOf_whiteSigma f.sigmas[i]
  case neg => simp [hi, weightOf_eq]

theorem whitenVec_eq_scaleRows (h : f.WellFormed) {v : Array ℝ} (hv : v.size = f.rows) :
    f.whitenVec v = .ok (Vec.scaleRows f.weight v) := by
  obtain ⟨u, hu, hus, hue⟩ := whitenVec_eq h hv
  have hs : (Vec.scaleRows f.weight v).size = f.rows := (Vec.size_scaleRows _ v).trans hv
  rw [hu, Except.ok.injEq]
  apply Array.ext
  case h₁ => rw [hus, hs]
  case h₂ =>
    intro i hi hi'
    have he := (hue i (hus ▸ hi)).trans (Vec.getD_scaleRows f.weight v i).symm
    simpa [hi, hi'] using he

theorem errorVector_eq_scaleRows (h : f.WellFormed) (x : Assignment ℝ) :
    f.errorVector x = Vec.scaleRows f.weight <$> f.unweightedError x := by
  have hy := (h.addImage_yields x (y := Vec.scale f.b (-1)) (by simp [Vec.scale, b])).right
  unfold errorVector unweightedError at *
  cases hz : f.addImage x (Vec.scale f.b (-1))
  case error => rfl
  case ok z => exact whitenVec_eq_scaleRows h (hy z hz)

theorem unweightedError_whiten (h : f.WellFormed) (x : Assignment ℝ) :
    f.whiten.unweightedError x = f.errorVector x := by
  rw [errorVector_eq_scaleRows h, whiten_eq h, unweightedError, b_scaleRows, Vec.scale_scaleRows,
    addImage_scaleRows]
  rfl

theorem errorVector_whiten (h : f.WellFormed) (x : Assignment ℝ) :
    f.whiten.errorVector x = f.errorVector x := by
  rw [errorVector_eq_scaleRows (wellFormed_whiten h), weight_whiten h, unweightedError_whiten h]
  cases f.errorVector x
  case error => rfl
  case ok v => rw [Outcome.map_ok, Vec.scaleRows_one]

theorem whiten_whiten (h : f.WellFormed) : f.whiten.whiten = f.whiten := by
  have hc : f.whiten.isConstrained = f.isConstrained := by
    rw [Bool.eq_iff_iff, isConstrained_iff, isConstrained_iff, sigmas_whiten h]
    simp [whiteSigma_eq_zero_iff]
  have hs : (f.sigmas.map whiteSigma).map whiteSigma = f.sigmas.map whiteSigma := by
    simp [whiteSigma_whiteSigma, Function.comp_def]
  have hab : f.whiten.ab.scaleRows (fun _ => 1) = f.whiten.ab :=
    BlockMatrix.eq_of_full (Mat.scaleRows_one _) rfl
  rw [whiten_eq (wellFormed_whiten h), weight_whiten h, sigmas_whiten h, hc, hs, hab,
    ← model_whiten]

theorem augmentedInformation_whiten (h : f.WellFormed) :
    f.whiten.augmentedInformation = f.augmentedInformation := by
  rw [augmentedInformation, ← full_whiten, whiten_whiten h, full_whiten]
  rfl

end White

section Stacking

variable {factors : List (LinearFactor ℝ)} {order : List Key}

theorem dims_whiten (f : LinearFactor ℝ) : f.whiten.dims = f.dims :=
  rfl

theorem rows_whiten (f : LinearFactor ℝ) : f.whiten.rows = f.rows :=
  rfl

theorem model_whiten_eq_none (h : 0 ∉ f.sigmas) : f.whiten.model = none := by
  rw [model_whiten, if_neg (mt (isConstrained_iff f).mp h)]

theorem entry_whiten (h : f.WellFormed) (i j : Nat) :
    f.whiten.ab.full.entry i j = f.ab.full.entry i j * f.weight i := by
  rw [ab_whiten h]
  exact f.ab.full.entry_scaleRows f.weight i j

theorem offsetAt_whiten (h : f.WellFormed) (pos : Nat) :
    f.whiten.ab.offsetAt pos = f.ab.offsetAt pos := by
  rw [ab_whiten h]
  rfl

theorem coefficient_whiten (h : f.WellFormed) (k : Key) (i j : Nat) :
    f.whiten.coefficient k i j = f.coefficient k i j * f.weight i := by
  have hp : f.whiten.position? k = f.position? k := rfl
  unfold coefficient
  rw [hp]
  cases f.position? k
  case none => exact (zero_mul _).symm
  case some pos =>
    dsimp only
    rw [entry_whiten h, offsetAt_whiten h]

theorem spread_whiten (h : f.WellFormed) (ws : Widths) (i j : Nat) :
    f.whiten.spread ws i j = f.spread ws i j * f.weight i := by
  have hk : f.whiten.keys = f.keys := rfl
  rw [spread_eq, spread_eq, entry_whiten h, offsetAt_whiten h, hk]
  exact (endToEnd_map (· * f.weight i) rfl (fun w : Key × Nat => w.2)
    (fun w _ j => (coefficient_whiten h w.1 i j).symm) j).symm

theorem weight_combine (hf : ∀ g ∈ factors, g.WellFormed) (h : combine factors order = .ok f)
    (i : Nat) :
    f.weight i = endToEnd 1 (factors.map fun g => (g.rows, g.weight)) i := by
  rw [weight, sigmas_combine h, Vec.getD_concat 1 rows sigmas fun g hg => (hf g hg).size_sigmas]
  exact endToEnd_map NoiseModel.weightOf (by simp [weightOf_eq]) rows (fun _ _ _ => rfl) i

theorem wellFormed_map_whiten (hf : ∀ g ∈ factors, g.WellFormed) :
    ∀ g ∈ factors.map whiten, g.WellFormed :=
  List.forall_mem_map.mpr fun g hg => wellFormed_whiten (hf g hg)

theorem flatMap_dims_whiten (factors : List (LinearFactor ℝ)) :
    (factors.map whiten).flatMap dims = factors.flatMap dims := by
  rw [List.flatMap_map]
  exact List.flatMap_congr fun g _ => dims_whiten g

theorem stack_whiten (hf : ∀ g ∈ factors, g.WellFormed) (h : combine factors order = .ok f)
    (ws : Widths) {i : Nat} (hi : i < f.rows) (j : Nat) :
    endToEnd (fun _ => 0) ((factors.map whiten).map fun g => (g.rows, g.spread ws)) i j =
      endToEnd (fun _ => 0) (factors.map fun g => (g.rows, g.spread ws)) i j * f.weight i := by
  -- A row of the stack belongs to one of the factors, where it is multiplied by the same weight.
  obtain ⟨g, hg, r, _, he⟩ := exists_endToEnd rows (rows_combine h ▸ hi)
  have hw : endToEnd (fun _ => 0) ((factors.map whiten).map fun g => (g.rows, g.spread ws)) i =
      g.whiten.spread ws r := by
    rw [← he (fun _ => 0) fun g => g.whiten.spread ws, List.map_map]
    simp only [Function.comp_def, rows_whiten]
  rw [hw, weight_combine hf h, he, he, spread_whiten (hf g hg)]

theorem model_combine_whiten (hs : ∀ g ∈ factors, 0 ∉ g.sigmas)
    (h : combine (factors.map whiten) order = .ok f) :
    f.model = none := by
  obtain ⟨_, _, _, _, _, _, hm⟩ := combine_eq_ok h
  have hn : (factors.map whiten).any (·.model.isSome) = false := by
    rw [List.any_map, List.any_eq_false]
    intro g hg
    simp [model_whiten_eq_none (hs g hg)]
  simpa [hn] using hm

theorem dims_combine_whiten (h : combine factors order = .ok f) {g : LinearFactor ℝ}
    (hg : combine (factors.map whiten) order = .ok g) : g.dims = f.dims := by
  obtain ⟨_, ws, hw, _, hfd⟩ := dims_combine h
  obtain ⟨_, us, hu, _, hgd⟩ := dims_combine hg
  rw [flatMap_dims_whiten, hw] at hu
  rw [hfd, hgd, Except.ok.inj hu]

theorem eq_whiten_of_combine (hf : ∀ g ∈ factors, g.WellFormed) (hs : ∀ g ∈ factors, 0 ∉ g.sigmas)
    (h : combine factors order = .ok f) {g : LinearFactor ℝ}
    (hg : combine (factors.map whiten) order = .ok g) :
    g = f.whiten := by
  have hfw := wellFormed_combine hf h
  have hgw := wellFormed_combine (wellFormed_map_whiten hf) hg
  have hd := dims_combine_whiten h hg
  have hk : g.keys = f.keys := by rw [← hgw.keys_dims, ← hfw.keys_dims, hd]
  have hw : g.ab.widths = f.ab.widths := by rw [hgw.widths_eq, hfw.widths_eq, hd]
  have hr : g.rows = f.rows := by
    rw [rows_combine hg, rows_combine h, List.map_map]
    rfl
  have hc : g.ab.full.cols = f.ab.full.cols := by rw [← g.ab.cover, hw, f.ab.cover]
  have hfull : g.ab.full = f.ab.full.scaleRows f.weight := by
    refine Mat.ext_entry hr hc fun i hi j hj => ?_
    have hi' : i < f.rows := hr ▸ hi
    rw [entry_combine hg hi hj, Mat.entry_scaleRows, entry_combine h hi' (hc ▸ hj), hd,
      stack_whiten hf h _ hi']
  have hab : g.ab = f.ab.scaleRows f.weight := BlockMatrix.eq_of_full hfull hw
  rw [whiten_eq hfw, isConstrained_combine h hs, ← hk, ← hab, if_neg Bool.false_ne_true,
    ← model_combine_whiten hs hg]

theorem combine_whiten (hf : ∀ g ∈ factors, g.WellFormed) (hs : ∀ g ∈ factors, 0 ∉ g.sigmas) :
    combine (factors.map whiten) order = whiten <$> combine factors order := by
  have hc := combine_settles hf order
  have hc' := combine_settles (wellFormed_map_whiten hf) order
  have hk : (fun k => (factors.map whiten).all (k ∉ ·.keys)) =
      fun k => factors.all (k ∉ ·.keys) := by
    funext k
    rw [List.all_map]
    rfl
  rw [flatMap_dims_whiten, hk] at hc'
  generalize ((Option.or _ _).or _) = e? at hc hc'
  cases e?
  case none =>
    obtain ⟨f, h⟩ := hc
    obtain ⟨g, hg⟩ := hc'
    rw [h, hg, eq_whiten_of_combine hf hs h hg, Outcome.map_ok]
  case some e =>
    have h : combine factors order = fail e := hc
    have hg : combine (factors.map whiten) order = fail e := hc'
    rw [h, hg]
    rfl

end Stacking
end LinearFactor

section Elimination

open LinearFactor

variable {f : LinearFactor ℝ}

theorem requireInformative_whiten (h : f.WellFormed) (frontals : List Key) :
    requireInformative f.whiten frontals = requireInformative f frontals := by
  have hb (pos : Nat) : f.whiten.blockAt pos = Window.scaleRows f.weight <$> f.blockAt pos := by
    have hk : f.whiten.keys = f.keys := rfl
    rw [blockAt, blockAt, ab_whiten h, BlockMatrix.block_scaleRows, hk]
    split <;> rfl
  unfold requireInformative
  simp only [hb, bind_map_left, Window.isZero_scaleRows _ f.weight_ne_zero]

theorem split_whiten (h : f.WellFormed) (hc : f.isConstrained = false) (count : Nat)
    (settings : EliminationSettings ℝ) :
    (do
      let rows ← f.whiten.reduce settings
      let conditional ← Elimination.conditionalOf f.whiten count rows
      let remaining ← Elimination.remainingOf f.whiten count rows
      return (⟨conditional, remaining⟩ : Elimination ℝ)) = (do
      let rows ← f.reduce settings
      let conditional ← Elimination.conditionalOf f count rows
      let remaining ← Elimination.remainingOf f count rows
      return ⟨conditional, remaining⟩) := by
  -- The rows of a white stack are the rows to which the reflections are applied anyway.
  have hw : f.whiten =
      ⟨f.keys, ⟨⟨f.ab.full.rows, f.ab.full.cols, f.whitenedBody⟩, f.ab.widths, f.ab.cover⟩,
        none⟩ := by
    have hm := model_whiten f
    rw [hc, if_neg Bool.false_ne_true] at hm
    rw [← hm]
    rfl
  have hr : f.reduce settings =
      (·.rows) <$> Mat.triangularize ⟨f.ab.full.rows, f.ab.full.cols,
        f.whitenedBody⟩ (f.ab.offsetAt f.keys.length) := by
    rw [reduce, hc, if_neg Bool.false_ne_true, reduceOrthogonal, h.whitenBody_eq]
    rfl
  rw [hw, hr]
  rfl

theorem eliminate_whiten {factors : List (LinearFactor ℝ)} (hf : ∀ g ∈ factors, g.WellFormed)
    (hs : ∀ g ∈ factors, 0 ∉ g.sigmas) (frontals : List Key) (settings : EliminationSettings ℝ) :
    eliminate (factors.map whiten) frontals settings = eliminate factors frontals settings := by
  cases frontals
  case nil => rfl
  case cons k ks =>
    unfold eliminate
    rw [combine_whiten hf hs]
    cases hg : combine factors (k :: ks)
    case error => rfl
    case ok g =>
      have hw := wellFormed_combine hf hg
      have hc := isConstrained_combine hg hs
      simp only [Outcome.map_ok, Outcome.ok_bind, requireInformative_whiten hw]
      cases settings.allowFree
      case true => exact split_whiten hw hc _ settings
      case false => exact congrArg (_ >>= fun _ => ·) (split_whiten hw hc _ settings)

structure LinearFactor.Whitens (g f : LinearFactor ℝ) : Prop where
  keys                 : g.keys = f.keys
  widths               : g.ab.widths = f.ab.widths
  errorVector          : ∀ x, g.errorVector x = f.errorVector x
  augmentedInformation : g.augmentedInformation = f.augmentedInformation
  unit                 : ∀ s ∈ g.sigmas, s = 0 ∨ s = 1
  hard                 : ∀ i : Nat, g.sigmas[i]? = some 0 ↔ f.sigmas[i]? = some 0
  row                  : ∀ i : Nat, f.sigmas[i]? = some 0 → ∀ j, g.ab.full.entry i j =
    f.ab.full.entry i j

theorem whitens_whiten (h : f.WellFormed) : f.whiten.Whitens f := by
  constructor
  case keys => rfl
  case widths =>
    rw [ab_whiten h]
    rfl
  case errorVector => exact errorVector_whiten h
  case augmentedInformation => exact augmentedInformation_whiten h
  case unit =>
    intro s hs
    rw [sigmas_whiten h] at hs
    obtain ⟨t, _, rfl⟩ := Array.mem_map.mp hs
    unfold whiteSigma
    split <;> simp
  case hard =>
    intro i
    rw [sigmas_whiten h]
    simp [whiteSigma_eq_zero_iff]
  case row =>
    intro i hi j
    have hw : f.weight i = 1 := by simp [weight, hi, weightOf_eq]
    rw [entry_whiten h, hw, mul_one]

-- Whitening changes how a factor is written, not what it says. Elimination whitens its rows anyway
-- if there are no hard constraints, and it does not matter whether this has been done before.
theorem whitens_and_eliminate_whiten :
    (∀ f : LinearFactor ℝ, f.WellFormed → f.whiten.Whitens f ∧ f.whiten.whiten = f.whiten) ∧
    ∀ factors : List (LinearFactor ℝ), (∀ f ∈ factors, f.WellFormed ∧ 0 ∉ f.sigmas) →
      ∀ frontals settings,
        eliminate (factors.map whiten) frontals settings = eliminate factors frontals settings :=
  ⟨fun _ h => ⟨whitens_whiten h, whiten_whiten h⟩,
    fun _ h => eliminate_whiten (fun f hf => (h f hf).left) fun f hf => (h f hf).right⟩

noncomputable def ramp (model : Option (NoiseModel ℝ)) : LinearFactor ℝ :=
  ⟨[0], .ofFn 2 [1, 1] fun i j => ((i.val + j.val : Nat) : ℝ), model⟩

theorem wellFormed_ramp {model : Option (NoiseModel ℝ)}
    (h : ∀ m, model = some m → m.dim = 2 ∧ ∀ s ∈ m.sigmas, NoiseModel.admissible s = true) :
    (ramp model).WellFormed :=
  ⟨by simp [ramp], rfl, rfl, h⟩

theorem whitens_and_eliminate_whiten_ramp :
    ((ramp (some ⟨#[0, 2]⟩)).WellFormed ∧
      (ramp (some ⟨#[0, 2]⟩)).whiten.Whitens (ramp (some ⟨#[0, 2]⟩)) ∧
      (ramp (some ⟨#[0, 2]⟩)).whiten.whiten = (ramp (some ⟨#[0, 2]⟩)).whiten) ∧
    (∀ f ∈ [ramp (some ⟨#[3, 2]⟩), ramp none], f.WellFormed ∧ 0 ∉ f.sigmas) ∧
    eliminate ([ramp (some ⟨#[3, 2]⟩), ramp none].map whiten) [0] ⟨1, 1, false⟩ =
      eliminate [ramp (some ⟨#[3, 2]⟩), ramp none] [0] ⟨1, 1, false⟩ := by
  have hw : (ramp (some ⟨#[0, 2]⟩)).WellFormed := wellFormed_ramp (by simp [NoiseModel.dim])
  have hs : ∀ f ∈ [ramp (some ⟨#[3, 2]⟩), ramp none], f.WellFormed ∧ 0 ∉ f.sigmas := by
    have hm : (ramp (some ⟨#[3, 2]⟩)).WellFormed := wellFormed_ramp (by simp [NoiseModel.dim])
    have hn : (ramp none).WellFormed := wellFormed_ramp (by simp)
    rw [List.forall_mem_cons, List.forall_mem_singleton]
    exact ⟨⟨hm, by simp [ramp, sigmas]⟩, hn, by simp [ramp, sigmas, Vec.fill]⟩
  exact ⟨⟨hw, whitens_and_eliminate_whiten.left _ hw⟩, hs,
    whitens_and_eliminate_whiten.right _ hs _ _⟩

end Elimination
end LinearGaussian
