import LinearGaussian.Proofs.Conditioning
import LinearGaussian.Proofs.Elimination
import LinearGaussian.Proofs.Graph
import LinearGaussian.Proofs.Transposed

namespace LinearGaussian

open Outcome

section Queries

variable {α : Type} [Arith α] {x : Assignment α}

omit [Arith α] in
theorem Assignment.valueOf_yields (x : Assignment α) (k : Key) (d : Nat) :
    (x.valueOf k d).Yields (·.size = d) := by
  cases hk : x.get? k
  case none =>
    simp only [valueOf, value, hk, fail_bind]
    exact yields_fail _
  case some v =>
    simp only [valueOf, value, hk, ok_bind]
    split
    case isTrue hv => exact yields_ok hv
    case isFalse => exact yields_fail _

omit [Arith α] in
theorem Assignment.Suits.insert {ds : List (Key × Nat)} (hn : (ds.map (·.1)).Nodup)
    (hx : x.Suits ds) {w : Key × Nat} (hw : w ∈ ds) {v : Array α} (hv : v.size = w.2) :
    Suits (x.insert w.1 v) ds := by
  intro u hu a ha
  simp only [KeyMap.get?_insert] at ha
  split at ha
  case isTrue he =>
    cases ha
    cases List.inj_on_of_nodup_map hn hu hw he
    exact hv
  case isFalse => exact hx u hu a ha

namespace Vec

theorem dot_yields {u v : Array α} (h : v.size = u.size) : (dot u v).Yields fun _ => True := by
  simp only [dot, sized, h, dif_pos, ok_bind]
  exact yields_ok trivial

theorem axpy_yields (a : α) {u v : Array α} (h : u.size = v.size) :
    (axpy a u v).Yields (·.size = v.size) := by
  simp only [axpy, sized, h, dif_pos, ok_bind]
  exact yields_ok (by simp)

omit [Arith α] in
theorem slice_yields {v : Array α} {start stop : Nat} (hs : start ≤ stop) (hv : stop ≤ v.size) :
    (slice v start stop).Yields (·.size = stop - start) := by
  simp only [slice, hs, hv, and_self, if_true]
  exact yields_ok (by simp [hv])

end Vec

theorem Mat.mulVec_yields (a : Mat α) {v : Array α} (h : v.size = a.cols) :
    (a.mulVec v).Yields (·.size = a.rows) := by
  simp only [mulVec, Vec.sized, h, dif_pos, ok_bind]
  exact yields_ok (by simp)

namespace Window

theorem addMulVec_yields (w : Window α) (a : α) {u v : Array α} (hu : u.size = w.cols)
    (hv : v.size = w.rows) :
    (w.addMulVec a u v).Yields (·.size = w.rows) := by
  have ⟨z, hz, hs⟩ := w.exists_addMulVec a hu hv
  exact hz ▸ yields_ok hs

theorem addTrMulVec_yields (w : Window α) (a : α) {u v : Array α} (hu : u.size = w.rows)
    (hv : v.size = w.cols) :
    (w.addTrMulVec a u v).Yields (·.size = w.cols) := by
  simp only [addTrMulVec, Vec.sized, hu, hv, dif_pos, ok_bind]
  exact yields_ok (by simp)

end Window

end Queries

namespace LinearFactor

variable {α : Type} [Arith α] [RealLike α] {f : LinearFactor α}

namespace WellFormed

theorem block_of_mem_zipIdx (h : f.WellFormed) {e : Key × Nat} (he : e ∈ f.keys.zipIdx) :
    ∃ w, f.ab.block e.2 = .ok w ∧ w.rows = f.rows ∧ (e.1, w.cols) ∈ f.dims := by
  have ⟨hp, hk⟩ := List.mem_zipIdx' he
  have ⟨hd, hw, hg⟩ := h.getElem_dims hp
  have ⟨w, hb, _, _, _, hr, hc⟩ := f.ab.block_eq hw
  refine ⟨w, hb, hr, ?_⟩
  have hm := List.getElem_mem hd
  rwa [hg, ← hk, ← hc] at hm

theorem addImage_yields (h : f.WellFormed) (x : Assignment α) {y : Array α} (hy : y.size = f.rows) :
    (f.addImage x y).Yields (·.size = f.rows) := by
  refine Yields.foldlM (Q := fun y : Array α => y.size = f.rows) (fun e he y hy => ?_) hy
  have ⟨w, hw, hr, _⟩ := h.block_of_mem_zipIdx he
  simp only [addBlock, hw, ok_bind, ← hr] at hy ⊢
  exact (x.valueOf_yields e.1 w.cols).bind fun v hv => w.addMulVec_yields 1 hv hy

theorem whitenVec_yields (h : f.WellFormed) {v : Array α} (hv : v.size = f.rows) :
    (f.whitenVec v).Yields (·.size = f.rows) := by
  unfold whitenVec
  split
  case h_1 m hm =>
    simp only [NoiseModel.whiten, (h.model m hm).left, hv, decide_true, require, if_true, ok_bind]
    exact yields_ok (by simp [hv])
  case h_2 => exact yields_ok hv

theorem errorVector_yields (h : f.WellFormed) (x : Assignment α) :
    (f.errorVector x).Yields (·.size = f.rows) :=
  (h.addImage_yields x (by simp [Vec.scale, b])).bind fun _ hv => h.whitenVec_yields hv

theorem error_yields (h : f.WellFormed) (x : Assignment α) : (f.error x).Yields fun _ => True := by
  unfold error
  split
  case isTrue => exact yields_ok trivial
  case isFalse => exact (h.errorVector_yields x).bind fun _ _ => yields_ok trivial

theorem transposeMultiplyAdd_yields (h : f.WellFormed) (a : α) {e : Array α} (he : e.size = f.rows)
    {x : Assignment α} (hx : x.Suits f.dims) :
    (f.transposeMultiplyAdd a e x).Yields (·.Suits f.dims) := by
  simp only [transposeMultiplyAdd, he, decide_true, require, if_true, ok_bind]
  refine (h.whitenVec_yields he).bind fun u hu => Yields.foldlM (fun t ht y hy => ?_) hx
  obtain ⟨w, hw, hr, hd⟩ := h.block_of_mem_zipIdx ht
  have hs : ((y.get? t.1).getD (Vec.zeros w.cols)).size = w.cols := by
    cases hk : y.get? t.1
    case none => simp [Vec.zeros, Vec.fill]
    case some v => exact hy _ hd v hk
  simp only [addTrBlock, hw, ok_bind]
  refine (w.addTrMulVec_yields a (hu.trans hr.symm) hs).bind fun v hv => yields_ok ?_
  exact hy.insert (h.keys_dims ▸ h.nodup) hd hv

theorem gradientAdd_yields (h : f.WellFormed) (x : Assignment α) {g : Assignment α}
    (hg : g.Suits f.dims) :
    (f.gradientAdd x g).Yields (·.Suits f.dims) :=
  (h.errorVector_yields x).bind fun _ he => h.transposeMultiplyAdd_yields 1 he hg

end WellFormed

section Operations

variable {keys : List Key} {ab : BlockMatrix α} {model : Option (NoiseModel α)}
  {terms : List (Key × Mat α)} {factors : List (LinearFactor α)}

omit [Arith α] [RealLike α] in
theorem checkModel_yields (model : Option (NoiseModel α)) (n : Nat) :
    (checkModel model n).Yields fun _ => True := by
  unfold checkModel
  split
  case h_1 =>
    split
    case isTrue => exact yields_ok trivial
    case isFalse => exact yields_fail _
  case h_2 => exact yields_ok trivial

omit [Arith α] [RealLike α] in
theorem checkTerms_yields (n : Nat) (seen : List Key) (terms : List (Key × Mat α)) :
    (checkTerms n seen terms).Yields fun _ => True := by
  induction terms generalizing seen
  case nil => exact yields_ok trivial
  case cons t terms ih =>
    unfold checkTerms
    split
    case isTrue => exact yields_fail _
    case isFalse =>
      split
      case isTrue => exact ih (t.1 :: seen)
      case isFalse => exact yields_fail _

omit [RealLike α] in
theorem ofTerms_yields (terms : List (Key × Mat α)) (b : Array α) (model : Option (NoiseModel α)) :
    (ofTerms terms b model).Yields fun _ => True :=
  (checkTerms_yields b.size [] terms).bind fun _ _ => (checkModel_yields model b.size).bind
    fun _ _ => yields_ok trivial

omit [Arith α] [RealLike α] in
theorem ofBlocks_yields (keys : List Key) (ab : BlockMatrix α) (model : Option (NoiseModel α)) :
    (ofBlocks keys ab model).Yields fun _ => True := by
  unfold ofBlocks
  split
  case isTrue => exact yields_fail _
  case isFalse =>
    exact (requireDistinct_yields keys).bind fun _ _ =>
      (checkModel_yields model ab.rows).bind fun _ _ => yields_ok trivial

theorem wellFormed_whiten [UnitDeviations α] (h : f.WellFormed) : f.whiten.WellFormed := by
  have hw : f.whiten.ab.widths = f.ab.widths := by
    unfold whiten
    cases f.model <;> rfl
  have hr : f.whiten.rows = f.rows := by
    unfold whiten rows
    cases f.model <;> rfl
  refine ⟨h.nodup, ?_, hw ▸ h.last, fun m hm => ?_⟩
  case refine_1 => exact (congrArg List.length hw).trans h.count
  case refine_2 =>
    simp only [whiten] at hm
    split at hm
    case h_1 n hn =>
      split at hm
      case isTrue =>
        cases hm
        refine ⟨?_, fun s hs => ?_⟩
        case refine_1 => simpa [NoiseModel.dim, hr] using (h.model n hn).left
        case refine_2 =>
          obtain ⟨t, _, ht⟩ := Array.mem_map.mp hs
          refine UnitDeviations.admissible ?_
          rw [← ht]
          split
          case isTrue => exact .inl rfl
          case isFalse => exact .inr rfl
      case isFalse => contradiction
    case h_2 => contradiction

end Operations
end LinearFactor

namespace InformationFactor

variable {α : Type} {h : InformationFactor α}

structure WellFormed (h : InformationFactor α) : Prop where
  nodup  : h.keys.Nodup
  count  : h.info.count = h.keys.length + 1
  last   : h.info.widths[h.keys.length]? = some 1
  square : h.info.rows = h.info.cols

variable [Arith α] [RealLike α]

namespace WellFormed

theorem linear (hw : h.WellFormed) : h.toLinear.WellFormed :=
  ⟨hw.nodup, hw.count, hw.last, nofun⟩

theorem side_eq (hw : h.WellFormed) : h.side = (h.dims.map (·.2)).sum :=
  hw.linear.offsetAt_length

theorem cols_eq (hw : h.WellFormed) : h.info.cols = (h.dims.map (·.2)).sum + 1 :=
  (h.info.cover.symm.trans h.toLinear.ab.cover).trans hw.linear.cols_eq

theorem stacked_yields (hw : h.WellFormed) (x : Assignment α) :
    (h.stacked x).Yields (·.size = h.side) := by
  have hm : Yields (h.dims.mapM fun w => x.valueOf w.1 w.2) fun vs => vs.map (·.size) =
      h.dims.map (·.2) :=
    Yields.mapM fun w _ => x.valueOf_yields w.1 w.2
  refine hm.bind fun vs hvs => yields_ok ?_
  rw [Vec.size_concat, hvs, hw.side_eq]

theorem error_yields (hw : h.WellFormed) (x : Assignment α) : (h.error x).Yields fun _ => True := by
  refine (hw.stacked_yields x).bind fun v hv => (h.information.mulVec_yields hv).bind fun u hu => ?_
  refine (Vec.dot_yields (hu.trans hv.symm)).bind fun _ _ => ?_
  exact (Vec.dot_yields (by simp [linearTerm, hv])).bind fun _ _ => yields_ok trivial

theorem range_of_mem_zipIdx (hw : h.WellFormed) {e : Key × Nat} (he : e ∈ h.keys.zipIdx) :
    h.info.range e.2 = .ok (h.info.offsetAt e.2, h.info.offsetAt (e.2 + 1)) ∧
      h.info.offsetAt e.2 ≤ h.info.offsetAt (e.2 + 1) ∧ h.info.offsetAt (e.2 + 1) ≤ h.side ∧
      (e.1, h.info.offsetAt (e.2 + 1) - h.info.offsetAt e.2) ∈ h.dims := by
  have ⟨hp, hk⟩ := List.mem_zipIdx' he
  have ⟨hd, hl, hg⟩ := hw.linear.getElem_dims hp
  have hs : h.info.offsetAt (e.2 + 1) = h.info.offsetAt e.2 + h.info.widths[e.2] :=
    h.info.offsetAt_succ hl
  have hc : e.2 + 1 ≤ h.info.count := hl
  have hm := List.getElem_mem hd
  refine ⟨?_, by omega, h.info.offsetAt_mono hp, ?_⟩
  case refine_1 => simp [BlockMatrix.range, BlockMatrix.offset, hc, Nat.le_of_succ_le hc]
  case refine_2 =>
    rw [hs, Nat.add_sub_cancel_left, hk]
    exact hg ▸ hm

theorem gradientAdd_yields (hw : h.WellFormed) (x : Assignment α) {g : Assignment α}
    (hg : g.Suits h.dims) :
    (h.gradientAdd x g).Yields (·.Suits h.dims) := by
  refine (hw.stacked_yields x).bind fun v hv => (h.information.mulVec_yields hv).bind fun u hu => ?_
  have hl : h.linearTerm.size = u.size := by simp [linearTerm, hu, information, Mat.ofFn]
  refine (Vec.axpy_yields (-1) hl).bind fun d hd => Yields.foldlM (fun e he y hy => ?_) hg
  obtain ⟨hr, hle, hs, hm⟩ := hw.range_of_mem_zipIdx he
  have hn : (h.dims.map (·.1)).Nodup := hw.linear.keys_dims ▸ hw.nodup
  have hds : h.info.offsetAt (e.2 + 1) ≤ d.size := hs.trans_eq (hd.trans hu).symm
  simp only [addPart, hr, ok_bind]
  refine (Vec.slice_yields hle hds).bind fun p hp => ?_
  cases hk : y.get? e.1
  case none => exact yields_ok (hy.insert hn hm hp)
  case some w =>
    have hws := hy _ hm w hk
    exact (Vec.axpy_yields 1 (hp.trans hws.symm)).bind fun z hz =>
      yields_ok (hy.insert hn hm (hz.trans hws))

end WellFormed

section Operations

variable {keys : List Key} {dims : List Nat} {g : Mat α} {linear : Array α} {constant : α}
  {f : LinearFactor α}

omit [RealLike α] in
theorem ofParts_yields (keys : List Key) (dims : List Nat) (g : Mat α) (linear : Array α)
    (constant : α) :
    (ofParts keys dims g linear constant).Yields fun h => keys.length = dims.length ∧ keys.Nodup ∧
      (g.rows = dims.sum ∧ g.cols = dims.sum) ∧ linear.size = dims.sum ∧
      h = ⟨keys, BlockMatrix.ofFn (dims.sum + 1) (dims ++ [1]) fun i j =>
        if i.val < dims.sum ∧ j.val < dims.sum then g.entry i j
        else if i.val < dims.sum then linear.getD i 0
        else if j.val < dims.sum then linear.getD j 0
        else constant⟩ := by
  simp only [ofParts]
  split
  case isTrue => exact yields_fail _
  case isFalse hk =>
    refine (requireDistinct_yields keys).bind fun _ hn => ?_
    split
    case isTrue => exact yields_fail _
    case isFalse hg =>
      split
      case isTrue => exact yields_fail _
      case isFalse hl => exact yields_ok ⟨not_not.mp hk, hn, by omega, not_not.mp hl, rfl⟩

omit [RealLike α] in
theorem wellFormed_ofParts (hp : ofParts keys dims g linear constant = .ok h) : h.WellFormed := by
  have ⟨hk, hn, _, _, he⟩ := (ofParts_yields ..).right h hp
  subst he
  refine ⟨hn, ?_, ?_, ?_⟩
  case refine_1 => simp [BlockMatrix.ofFn, BlockMatrix.count, hk]
  case refine_2 => simp [BlockMatrix.ofFn, hk]
  case refine_3 => simp [BlockMatrix.ofFn, BlockMatrix.rows, BlockMatrix.cols, Mat.ofFn]

theorem sum_widths_augmentedInformation (f : LinearFactor α) :
    f.ab.widths.sum = f.augmentedInformation.cols :=
  f.ab.cover

theorem ofLinear_eq (hf : f.WellFormed) :
    ofLinear f = if f.isConstrained then fail (.constrainedInformation f.keys) else
      .ok ⟨f.keys, f.augmentedInformation, f.ab.widths, sum_widths_augmentedInformation f⟩ := by
  simp only [ofLinear, hf.whitenInformation_eq, BlockMatrix.ofMat,
    dif_pos (sum_widths_augmentedInformation f), fail_bind, ok_bind, pure_eq_ok]

theorem ofLinear_yields (hf : f.WellFormed) : (ofLinear f).Yields WellFormed := by
  rw [ofLinear_eq hf]
  split
  case isTrue => exact yields_fail _
  case isFalse => exact yields_ok ⟨hf.nodup, hf.count, hf.last, rfl⟩

end Operations
end InformationFactor

section Built

variable {α : Type} [Arith α] [RealLike α]

inductive NoiseModel.Built : NoiseModel α → Prop
  | unit (dim : Nat) : Built (unit dim)
  | constrained (dim : Nat) : Built (constrained dim)
  | diagonal {sigmas : Array α} {m : NoiseModel α} : diagonal sigmas = .ok m → Built m
  | isotropic {dim : Nat} {sigma : α} {m : NoiseModel α} : isotropic dim sigma = .ok m → Built m
  | ofPrecisions {precisions : Array α} {m : NoiseModel α} : ofPrecisions precisions =
    .ok m → Built m
  | rows {m n : NoiseModel α} {start len : Nat} : Built m → m.rows start len = .ok n → Built n

theorem NoiseModel.diagonal_of_diagonal {sigmas : Array α} {m : NoiseModel α}
    (h : NoiseModel.diagonal sigmas = .ok m) :
    NoiseModel.diagonal m.sigmas = .ok m := by
  have ⟨hm, ha⟩ := diagonal_eq_ok.mp h
  exact diagonal_eq_ok.mpr ⟨rfl, hm ▸ ha⟩

theorem NoiseModel.Built.diagonal_eq [UnitDeviations α] {m : NoiseModel α} (h : m.Built) :
    NoiseModel.diagonal m.sigmas = .ok m := by
  induction h
  case unit =>
    exact diagonal_eq_ok.mpr ⟨rfl,
      fun s hs => UnitDeviations.admissible (.inr (Array.eq_of_mem_replicate hs))⟩
  case constrained =>
    exact diagonal_eq_ok.mpr ⟨rfl,
      fun s hs => UnitDeviations.admissible (.inl (Array.eq_of_mem_replicate hs))⟩
  case diagonal h => exact diagonal_of_diagonal h
  case isotropic h => exact diagonal_of_diagonal h
  case ofPrecisions h => exact diagonal_of_diagonal h
  case rows m n start len _ h ih =>
    have ⟨s, hs, hn⟩ := bind_eq_ok.mp h
    cases hn
    unfold Vec.segment Vec.slice at hs
    split at hs
    case isTrue =>
      cases hs
      refine diagonal_eq_ok.mpr ⟨rfl, fun a ha => (diagonal_eq_ok.mp ih).right a ?_⟩
      have ⟨_, _, he⟩ := Array.mem_extract_iff_getElem.mp ha
      exact he ▸ Array.getElem_mem _
    case isFalse => contradiction

-- A factor of either form or a density.
inductive Piece (α : Type)
  | linear (f : LinearFactor α)
  | information (h : InformationFactor α)
  | density (c : Conditional α)

namespace Piece

-- The pieces that can be built from checked blocks and from other pieces.
inductive Built : Piece α → Prop
  -- One term and two terms are among these.
  | ofTerms {terms : List (Key × Mat α)} {b : Array α} {model : Option (NoiseModel α)}
    {f : LinearFactor α} :
    (∀ m ∈ model, m.Built) → LinearFactor.ofTerms terms b model = .ok f → Built (.linear f)
  | ofBlocks {keys : List Key} {ab : BlockMatrix α} {model : Option (NoiseModel α)}
    {f : LinearFactor α} :
    (∀ m ∈ model, m.Built) → LinearFactor.ofBlocks keys ab model = .ok f → Built (.linear f)
  | ofRhs (b : Array α) : Built (.linear (.ofRhs b))
  | empty : Built (.linear .empty)
  | combine {factors : List (LinearFactor α)} {order : List Key} {f : LinearFactor α} :
    (∀ g ∈ factors, Built (.linear g)) → LinearFactor.combine factors order = .ok f →
      Built (.linear f)
  | whiten {f : LinearFactor α} : Built (.linear f) → Built (.linear f.whiten)
  | toLinear {h : InformationFactor α} : Built (.information h) → Built (.linear h.toLinear)
  | toFactor {c : Conditional α} : Built (.density c) → Built (.linear c.toFactor)
  | remaining {factors : List (LinearFactor α)} {frontals : List Key}
    {settings : EliminationSettings α}
      {r : Elimination α} :
    (∀ g ∈ factors, Built (.linear g)) → eliminate factors frontals settings = .ok r →
      Built (.linear r.remaining)
  | informationOfParts {keys : List Key} {dims : List Nat} {g : Mat α} {linear : Array α}
    {constant : α}
      {h : InformationFactor α} :
    InformationFactor.ofParts keys dims g linear constant = .ok h → Built (.information h)
  | informationOfLinear {f : LinearFactor α} {h : InformationFactor α} :
    Built (.linear f) → InformationFactor.ofLinear f = .ok h → Built (.information h)
  | densityOfParts {keys : List Key} {count : Nat} {rsd : BlockMatrix α} {model : NoiseModel α}
    {c : Conditional α} :
    model.Built → Conditional.ofParts keys count rsd model = .ok c → Built (.density c)
  | densityOfTerms {frontal : Key} {d : Array α} {r : Mat α} {parents : List (Key × Mat α)}
      {model : Option (NoiseModel α)} {c : Conditional α} :
    (∀ m ∈ model, m.Built) → Conditional.ofTerms frontal d r parents model = .ok c →
      Built (.density c)
  | eliminated {factors : List (LinearFactor α)} {frontals : List Key}
    {settings : EliminationSettings α}
      {r : Elimination α} :
    (∀ g ∈ factors, Built (.linear g)) → eliminate factors frontals settings = .ok r →
      Built (.density r.conditional)
  | conditioned {c c' : Conditional α} {saved : Key → Bool} {solution : Assignment α} :
    Built (.density c) → c.conditionOn saved solution = .ok (.reduced c') → Built (.density c')

def WellFormed : Piece α → Prop
  | linear f => f.WellFormed
  | information h => h.WellFormed
  | density c => c.toFactor.WellFormed

theorem valid_of_ofParts {keys : List Key} {count : Nat} {rsd : BlockMatrix α}
    {model : NoiseModel α} {c : Conditional α} (hm : NoiseModel.diagonal model.sigmas = .ok model)
    (h : Conditional.ofParts keys count rsd model = .ok c) : c.Valid := by
  have ⟨_, _, _, _, _, _, hc⟩ := Conditional.ofParts_eq_ok.mp h
  cases hc
  exact Conditional.valid_iff.mpr ⟨h, hm⟩

theorem valid_of_ofTerms [UnitDeviations α] {frontal : Key} {d : Array α} {r : Mat α}
    {parents : List (Key × Mat α)} {model : Option (NoiseModel α)} {c : Conditional α}
    (hm : ∀ m ∈ model, m.Built) (h : Conditional.ofTerms frontal d r parents model = .ok c) :
    c.Valid := by
  obtain ⟨_, _, h⟩ := bind_eq_ok.mp h
  refine valid_of_ofParts ?_ h
  cases model
  case none => exact (NoiseModel.Built.unit _).diagonal_eq
  case some => exact (hm _ rfl).diagonal_eq

theorem valid_of_conditionOn {c c' : Conditional α} {saved : Key → Bool} {solution : Assignment α}
    (h : c.conditionOn saved solution = .ok (.reduced c')) : c'.Valid := by
  simp only [Conditional.conditionOn] at h
  split at h
  case isTrue => cases h
  case isFalse =>
    split at h
    case isTrue => cases h
    case isFalse =>
      have ⟨_, _, h⟩ := bind_eq_ok.mp h
      have ⟨_, _, h⟩ := bind_eq_ok.mp h
      have ⟨_, hm, h⟩ := bind_eq_ok.mp h
      have ⟨_, hc, h⟩ := bind_eq_ok.mp h
      cases h
      exact valid_of_ofParts (NoiseModel.diagonal_of_diagonal hm) hc

theorem Built.wellFormed [UnitDeviations α] {p : Piece α} (h : p.Built) : p.WellFormed := by
  induction h
  case ofTerms hm h => exact LinearFactor.wellFormed_ofTerms h fun m he => (hm m he).diagonal_eq
  case ofBlocks hm h => exact LinearFactor.wellFormed_ofBlocks h fun m he => (hm m he).diagonal_eq
  case ofRhs b => exact LinearFactor.wellFormed_ofRhs b
  case empty => exact LinearFactor.wellFormed_ofRhs #[]
  case combine h ih => exact LinearFactor.wellFormed_combine ih h
  case whiten ih => exact LinearFactor.wellFormed_whiten ih
  case toLinear ih => exact ih.linear
  case toFactor ih => exact ih
  case remaining h ih =>
    have ⟨_, _, ho⟩ := Elimination.of_eliminate ih h
    exact ho.wellFormed_remaining
  case informationOfParts h => exact InformationFactor.wellFormed_ofParts h
  case informationOfLinear h ih => exact (InformationFactor.ofLinear_yields ih).right _ h
  case densityOfParts hm h => exact (valid_of_ofParts hm.diagonal_eq h).factor
  case densityOfTerms hm h => exact (valid_of_ofTerms hm h).factor
  case eliminated h ih =>
    have ⟨_, _, ho⟩ := Elimination.of_eliminate ih h
    exact ho.wellFormed_conditional.factor
  case conditioned h _ => exact (valid_of_conditionOn h).factor

end Piece

abbrev LinearFactor.Built (f : LinearFactor α) : Prop :=
  Piece.Built (.linear f)

abbrev InformationFactor.Built (h : InformationFactor α) : Prop :=
  Piece.Built (.information h)

-- The blocks fit the variables and fill the storage, so that the blocks, the error and the gradient
-- can be asked for.
structure LinearFactor.Sound (f : LinearFactor α) : Prop extends f.WellFormed where
  cover    : f.ab.widths.sum = f.ab.cols
  stored   : f.ab.full.data.size = f.rows * f.ab.cols
  block    : ∀ pos < f.keys.length, ∃ w, f.blockAt pos = .ok w ∧ w.rows = f.rows ∧
  f.ab.widths[pos]? = some w.cols
  error    : ∀ x v, f.error x ≠ violated v
  gradient : ∀ x g v, g.Suits f.dims → f.gradientAdd x g ≠ violated v

structure InformationFactor.Sound (h : InformationFactor α) : Prop extends h.WellFormed where
  cover    : h.info.widths.sum = h.info.cols
  side     : h.info.cols = (h.dims.map (·.2)).sum + 1
  stored   : h.info.full.data.size = h.info.rows * h.info.cols
  error    : ∀ x v, h.error x ≠ violated v
  gradient : ∀ x g v, g.Suits h.dims → h.gradientAdd x g ≠ violated v

theorem LinearFactor.WellFormed.sound {f : LinearFactor α} (h : f.WellFormed) : f.Sound := by
  refine ⟨h, f.ab.cover, ?_, fun pos hp => ?_, fun x => (h.error_yields x).left, fun x g v hg =>
    (h.gradientAdd_yields x hg).left v⟩
  case refine_1 =>
    simp [Mat.data, rows, BlockMatrix.rows, BlockMatrix.cols, Nat.mul_comm]
  case refine_2 =>
    obtain ⟨_, hw, _⟩ := h.getElem_dims hp
    obtain ⟨w, hb, _, _, _, hr, hc⟩ := f.ab.block_eq hw
    exact ⟨w, by rw [blockAt, if_pos hp, hb], hr, by rw [hc, List.getElem?_eq_getElem hw]⟩

theorem InformationFactor.WellFormed.sound {h : InformationFactor α} (hw : h.WellFormed) :
    h.Sound := by
  refine ⟨hw, h.info.cover, hw.cols_eq, ?_, fun x => (hw.error_yields x).left, fun x g v hg =>
    (hw.gradientAdd_yields x hg).left v⟩
  simp [Mat.data, BlockMatrix.rows, BlockMatrix.cols, Nat.mul_comm]

namespace Piece

theorem built_linear_iff [UnitDeviations α] {f : LinearFactor α} : f.Built ↔ f.WellFormed := by
  refine ⟨fun h => h.wellFormed, fun h => ?_⟩
  have hb : LinearFactor.ofBlocks f.keys f.ab f.model = .ok f := by
    have hd : requireDistinct f.keys = .ok () := requireDistinct_eq_ok.mpr h.nodup
    have hm : LinearFactor.checkModel f.model f.ab.rows = .ok () :=
      LinearFactor.checkModel_eq_ok.mpr fun m he => (h.model m he).left
    simp [LinearFactor.ofBlocks, h.count, h.last, hd, hm]
  exact .ofBlocks
    (fun m he => .diagonal (NoiseModel.diagonal_eq_ok.mpr ⟨rfl, (h.model m he).right⟩)) hb

-- However many steps it takes to build factors, they are laid out as they should be, and no step
-- breaks a precondition.
theorem layout_built [UnitDeviations α] :
    (∀ f : LinearFactor α, f.Built → f.Sound ∧
      (InformationFactor.ofLinear f).Yields InformationFactor.Built) ∧
    (∀ h : InformationFactor α, h.Built → h.Sound) ∧
    (∀ factors : List (LinearFactor α), (∀ f ∈ factors, f.Built) → ∀ keys settings,
      (LinearFactor.combine factors keys).Yields LinearFactor.Built ∧
      (eliminate factors keys settings).Yields fun r => r.remaining.Built ∧
        Built (.density r.conditional)) ∧
    (∀ (terms : List (Key × Mat α)) b model, (∀ m ∈ model, m.Built) →
      (LinearFactor.ofTerms terms b model).Yields LinearFactor.Built) ∧
    (∀ keys (ab : BlockMatrix α) model, (∀ m ∈ model, m.Built) →
      (LinearFactor.ofBlocks keys ab model).Yields LinearFactor.Built) ∧
    ∀ keys dims (g : Mat α) linear constant,
      (InformationFactor.ofParts keys dims g linear constant).Yields InformationFactor.Built := by
  refine ⟨fun f hf => ?_, fun h hh => ?_, fun factors hf keys settings => ?_,
    fun terms b model hm => ?_, fun keys ab model hm => ?_, fun keys dims g linear constant => ?_⟩
  case refine_1 =>
    have hw : f.WellFormed := hf.wellFormed
    exact ⟨hw.sound, (InformationFactor.ofLinear_yields hw).left,
      fun _ h => .informationOfLinear hf h⟩
  case refine_2 =>
    have hw : h.WellFormed := hh.wellFormed
    exact hw.sound
  case refine_3 =>
    have hw : ∀ f ∈ factors, f.WellFormed := fun f hm => (hf f hm).wellFormed
    exact ⟨⟨LinearFactor.combine_ne_violated hw keys, fun _ h => .combine hf h⟩,
      Elimination.eliminate_ne_violated hw keys settings,
      fun _ h => ⟨.remaining hf h, .eliminated hf h⟩⟩
  case refine_4 =>
    exact ⟨(LinearFactor.ofTerms_yields terms b model).left, fun _ h => .ofTerms hm h⟩
  case refine_5 =>
    exact ⟨(LinearFactor.ofBlocks_yields keys ab model).left, fun _ h => .ofBlocks hm h⟩
  case refine_6 =>
    exact ⟨(InformationFactor.ofParts_yields keys dims g linear constant).left,
      fun _ h => .informationOfParts h⟩

-- A right-hand side alone, information about two variables, and a hard constraint with a
-- coefficient that is no number.
def assorted (h : InformationFactor Float) : List (LinearFactor Float) :=
  [.ofRhs #[3], h.toLinear, (LinearFactor.scalarRow [0, 2] [0 / 0, 1] (1 / 0) 0).whiten]

theorem layout_built_assorted :
    ∃ h r, InformationFactor.ofParts [1, 2] [1, 1] (Mat.eye 2) #[0, 0] 1 = .ok h ∧ h.Sound ∧
      eliminate (assorted h) [1] ⟨0, 0, true⟩ = .ok r ∧ r.remaining.Sound := by
  have ⟨h, hh⟩ : ∃ h, InformationFactor.ofParts [1, 2] [1, 1] (Mat.eye 2) #[0, 0] (1 : Float) =
      .ok h := ⟨_, rfl⟩
  have hd : h.toLinear.dims = [(1, 1), (2, 1)] := by
    cases hh
    rfl
  have hf : ∀ f ∈ assorted h, f.Built := by
    simp only [assorted, List.forall_mem_cons, List.not_mem_nil, false_imp_iff, implies_true,
      and_true]
    exact ⟨.ofRhs _, .toLinear (.informationOfParts hh), .whiten (built_linear_iff.mpr
      (LinearFactor.wellFormed_scalarRow_of_admissible (by decide) UnitDeviations.zero))⟩
  have hw : ∀ f ∈ assorted h, f.WellFormed := fun f hm => built_linear_iff.mp (hf f hm)
  have hws : Widths.ofOccurrences ((assorted h).flatMap LinearFactor.dims) =
      .ok [(1, 1), (2, 1), (0, 1)] := by
    simp only [assorted, List.flatMap_cons, hd]
    rfl
  have ⟨g, hg⟩ := LinearFactor.exists_combine hw (List.nodup_singleton 1) hws (by decide)
  have ⟨r, hr⟩ : ∃ r, eliminate (assorted h) [1] ⟨0, 0, true⟩ = .ok r :=
    Elimination.exists_eliminate hw (by decide) hg rfl
  have ⟨hl, hi, ho, _⟩ := layout_built (α := Float)
  exact ⟨h, r, hh, hi h (.informationOfParts hh), hr,
    (hl _ ((ho _ hf [1] _).right.right r hr).left).left⟩

end Piece
end Built
end LinearGaussian
