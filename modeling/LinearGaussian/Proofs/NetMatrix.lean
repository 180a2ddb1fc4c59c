import LinearGaussian.Proofs.Marginal
import LinearGaussian.Proofs.NetSystem

namespace LinearGaussian

open LinearFactor Measurement

theorem Outcome.mapM_append_error {β γ : Type} {f : β → Outcome γ} {bs : List β}
    (h : ∀ b ∈ bs, ∃ c, f b = .ok c) {b : β} {e : Fault} (he : f b = .error e) (bs' : List β) :
    (bs ++ b :: bs').mapM f = .error e := by
  induction bs
  case nil =>
    rw [List.nil_append, List.mapM_cons, he]
    rfl
  case cons a bs ih =>
    have ⟨⟨c, hc⟩, hbs⟩ := List.forall_mem_cons.mp h
    rw [List.cons_append, List.mapM_cons, hc, ok_bind, ih hbs]
    rfl

namespace BayesNet

section Layout

variable {α : Type} [Arith α] [RealLike α] {n : BayesNet α}

def frontals {α : Type} (n : BayesNet α) : List Key :=
  n.conditionals.flatMap (·.frontals)

-- Densities of distinct variables that agree on all dimensions.
structure Coherent (n : BayesNet α) : Prop where
  valid      : ∀ c ∈ n.conditionals, c.Valid
  nodup      : n.frontals.Nodup
  consistent : Widths.Consistent (n.conditionals.flatMap (·.toFactor.dims))

def ParentsFrontal {α : Type} (n : BayesNet α) : Prop :=
  ∀ c ∈ n.conditionals, ∀ k ∈ c.parents, k ∈ n.frontals

def missing? {α : Type} (n : BayesNet α) : Option Key :=
  n.conditionals.findSome? fun c => c.keys.find? (· ∉ n.frontals)

omit [Arith α] [RealLike α] in
theorem mem_frontals_or {c : Conditional α} (hc : c ∈ n.conditionals) {k : Key} (hk : k ∈ c.keys) :
    k ∈ n.frontals ∨ k ∈ c.parents := by
  rw [← List.take_append_drop c.frontalCount c.keys] at hk
  cases List.mem_append.mp hk
  case inl hk => exact .inl (List.mem_flatMap.mpr ⟨c, hc, hk⟩)
  case inr hk => exact .inr hk

omit [Arith α] [RealLike α] in
theorem missing?_eq_none_iff : n.missing? = none ↔ n.ParentsFrontal := by
  simp only [missing?, List.findSome?_eq_none_iff, List.find?_eq_none, decide_eq_true_eq, not_not]
  constructor
  case mp => exact fun h c hc k hk => h c hc k (List.mem_of_mem_drop hk)
  case mpr =>
    intro h c hc k hk
    cases mem_frontals_or hc hk
    case inl hk => exact hk
    case inr hk => exact h c hc k hk

omit [Arith α] [RealLike α] in
theorem exists_parent {k : Key} (h : n.missing? = some k) :
    (∃ c ∈ n.conditionals, k ∈ c.parents) ∧ k ∉ n.frontals := by
  have ⟨c, hc, hk⟩ := List.exists_of_findSome?_eq_some h
  have hn : k ∉ n.frontals := by simpa using List.find?_some hk
  exact ⟨⟨c, hc, (mem_frontals_or hc (List.mem_of_find?_eq_some hk)).resolve_left hn⟩, hn⟩

namespace Coherent

theorem keys_dims (h : n.Coherent) : n.dims.keys = n.frontals :=
  keys_flatMap_frontalDims h.valid

theorem nodup_dims (h : n.Coherent) : n.dims.keys.Nodup :=
  h.keys_dims ▸ h.nodup

theorem exists_order (h : n.Coherent) : ∃ order, n.order = .ok order ∧ order.keys = n.dims.keys :=
  ⟨⟨_, h.nodup⟩, EliminationOrder.ofKeys_keys ⟨_, h.nodup⟩, h.keys_dims.symm⟩

theorem mem_dims (h : n.Coherent) {c : Conditional α} (hc : c ∈ n.conditionals) {w : Key × Nat}
    (hw : w ∈ c.toFactor.dims) (hk : w.1 ∈ n.frontals) : w ∈ n.dims := by
  rw [← h.keys_dims] at hk
  have ⟨v, hv, he⟩ := List.mem_map.mp hk
  have ⟨b, hb, hvb⟩ := List.mem_flatMap.mp hv
  have hd : v.2 = w.2 := h.consistent v (List.mem_flatMap.mpr ⟨b, hb, List.mem_of_mem_take hvb⟩) w
    (List.mem_flatMap.mpr ⟨c, hc, hw⟩) he
  exact Prod.ext he hd ▸ hv

theorem closed (h : n.Coherent) (hp : n.ParentsFrontal) : Closed n.dims n.conditionals := by
  refine ⟨fun c hc => (h.valid c hc).factor, rfl, h.nodup_dims,
    fun c hc w hw => h.mem_dims hc hw ?_⟩
  have hk : w.1 ∈ c.toFactor.keys := (h.valid c hc).factor.keys_dims ▸ List.mem_map_of_mem hw
  cases mem_frontals_or hc hk
  case inl hk => exact hk
  case inr hk => exact hp c hc w.1 hk

theorem sum_rows (h : n.Coherent) : (n.conditionals.map (·.rows)).sum = (n.dims.map (·.2)).sum := by
  have hr := List.map_congr_left fun c hc => (h.valid c hc).rows_eq
  rw [hr, List.map_flatMap, List.flatMap_def, List.sum_flatten, List.map_map]
  rfl

theorem offsets_eq (h : n.Coherent) : n.offsets.2 = (n.dims.map (·.2)).sum ∧
    ∀ k, n.offsets.1.get? k = if k ∈ n.frontals then some (n.dims.start k) else none := by
  obtain ⟨hs, hk⟩ := foldl_offsets h.nodup_dims ∅ 0
  rw [offsets_eq_foldl]
  exact ⟨by rw [hs, Nat.zero_add], fun k => by rw [hk, h.keys_dims, Nat.zero_add]; rfl⟩

theorem placeBlock_eq (h : n.Coherent) {c : Conditional α} (hc : c ∈ n.conditionals)
    {e : (Key × Nat) × Nat} (he : e ∈ c.toFactor.dims.zipIdx) :
    placeBlock n.offsets.1 n.offsets.2 c e.1.1 e.1.2 e.2 =
      if e.1.1 ∈ n.frontals then .ok ⟨c.rsd.offsetAt e.2, n.dims.start e.1.1, e.1.2⟩
      else fail (.notInNet e.1.1) := by
  have ⟨hs, hg⟩ := h.offsets_eq
  unfold placeBlock
  rw [hg, hs]
  by_cases hk : e.1.1 ∈ n.frontals
  case pos =>
    have hle := Widths.start_add_le h.nodup_dims (h.mem_dims hc (List.fst_mem_of_mem_zipIdx he) hk)
    simp [hk, require, hle]
  case neg => simp [hk]

theorem keys_eq_map_zipIdx (h : n.Coherent) {c : Conditional α} (hc : c ∈ n.conditionals) :
    c.keys = c.toFactor.dims.zipIdx.map (·.1.1) :=
  ((h.valid c hc).factor.map_zipIdx_dims 0).symm

theorem placements_eq (h : n.Coherent) {c : Conditional α} (hc : c ∈ n.conditionals)
    (hk : c.keys.find? (· ∉ n.frontals) = none) :
    placements n.offsets.1 n.offsets.2 c = .ok (placementsOf n.dims c) := by
  show c.toFactor.dims.zipIdx.mapM (fun e => placeBlock n.offsets.1 n.offsets.2 c e.1.1 e.1.2 e.2) =
    .ok (c.toFactor.dims.zipIdx.map _)
  refine Outcome.mapM_eq_ok fun e he => ?_
  have hm : e.1.1 ∈ c.keys := h.keys_eq_map_zipIdx hc ▸ List.mem_map_of_mem he
  have hk : e.1.1 ∈ n.frontals := by simpa using List.find?_eq_none.mp hk _ hm
  exact (h.placeBlock_eq hc he).trans (if_pos hk)

theorem placements_eq_fail (h : n.Coherent) {c : Conditional α} (hc : c ∈ n.conditionals) {k : Key}
    (hk : c.keys.find? (· ∉ n.frontals) = some k) :
    placements n.offsets.1 n.offsets.2 c = fail (.notInNet k) := by
  rw [h.keys_eq_map_zipIdx hc, List.find?_map] at hk
  have ⟨e, he, hek⟩ := Option.map_eq_some_iff.mp hk
  have ⟨hn, es, es', hd, hes⟩ := List.find?_eq_some_iff_append.mp he
  have hm : ∀ t ∈ es ++ e :: es', t ∈ c.toFactor.dims.zipIdx := by simp [hd]
  have hf : placeBlock n.offsets.1 n.offsets.2 c e.1.1 e.1.2 e.2 = fail (.notInNet k) := by
    rw [h.placeBlock_eq hc (hm e (by simp)), if_neg (by simpa using hn), hek]
  show c.toFactor.dims.zipIdx.mapM (fun e => placeBlock n.offsets.1 n.offsets.2 c e.1.1 e.1.2 e.2) =
    fail (.notInNet k)
  rw [hd]
  refine Outcome.mapM_append_error (b := e) (fun t ht => ?_) hf es'
  have hk : t.1.1 ∈ n.frontals := by simpa using hes t ht
  exact ⟨_, (h.placeBlock_eq hc (hm t (by simp [ht]))).trans (if_pos hk)⟩

-- Without its first missing variable, there is no joint matrix.
theorem matrix_eq_fail (h : n.Coherent) {k : Key} (hk : n.missing? = some k) :
    n.matrix = fail (.notInNet k) := by
  let place (c : Conditional α) : Outcome (Conditional α × List Placement) := do
    return (c, ← placements n.offsets.1 n.offsets.2 c)
  have ⟨cs, c, cs', hd, hc, hcs⟩ := List.findSome?_eq_some_iff.mp hk
  have hm : ∀ b ∈ cs ++ c :: cs', b ∈ n.conditionals := by simp [hd]
  have hf : place c = fail (.notInNet k) := by
    simp only [place, h.placements_eq_fail (hm c (by simp)) hc, Outcome.fail_bind]
  have hp : (cs ++ c :: cs').mapM place = fail (.notInNet k) := by
    refine Outcome.mapM_append_error (fun b hb => ?_) hf cs'
    have hps := h.placements_eq (hm b (by simp [hb])) (hcs b hb)
    exact ⟨(b, placementsOf n.dims b),
      by simp only [place, hps, Outcome.ok_bind, Outcome.pure_eq_ok]⟩
  rw [← hd] at hp
  simp only [matrix]
  rw [hp, Outcome.fail_bind]

end Coherent
end Layout
end BayesNet

section Vectors

theorem Vec.sub_eq_ok {u v w : Array ℝ} (hv : v.size = u.size) (hw : w.size = u.size)
    (h : ∀ i < u.size, u.getD i 0 - v.getD i 0 = w.getD i 0) : sub u v = .ok w := by
  simp only [sub, sized, hv, dif_pos, Outcome.ok_bind, Outcome.pure_eq_ok, Except.ok.injEq]
  apply Array.ext
  case h₁ => simp [hw]
  case h₂ =>
    intro i hi hi'
    have he := h i (hw ▸ hi')
    simpa [hw ▸ hi', hv, hi'] using he

theorem Vec.normSq_eq (v : Array ℝ) : normSq v = ∑ i ∈ Finset.range v.size, v.getD i 0 ^ 2 := by
  simp [normSq, Finset.sum_range, pow_two]

end Vectors

section Misses

variable {ds : Widths} {cs : List (Conditional ℝ)} {c : Conditional ℝ} {x : Assignment ℝ}

noncomputable def Conditional.misses (c : Conditional ℝ) (p : Point) : Array ℝ :=
  Array.ofFn fun i : Fin c.rows => c.toFactor.residual i p * c.model.weight i

theorem Conditional.size_misses (c : Conditional ℝ) (p : Point) : (c.misses p).size = c.rows :=
  Array.size_ofFn

theorem Conditional.getD_misses (c : Conditional ℝ) (p : Point) {i : Nat} (hi : i < c.rows) :
    (c.misses p).getD i 0 = c.toFactor.residual i p * c.model.weight i := by
  simp [misses, hi]

theorem Conditional.Valid.errorVector_eq (h : c.Valid) (hx : x.Fits c.toFactor.dims) :
    c.toFactor.errorVector x = .ok (c.misses x.point) := by
  have ⟨v, hv, hs, he⟩ := LinearFactor.errorVector_eq h.factor hx
  have hs : v.size = c.rows := hs
  rw [hv, Except.ok.injEq]
  apply Array.ext
  case h₁ => rw [hs, size_misses]
  case h₂ =>
    intro i hi hi'
    have hi : i < c.rows := hs ▸ hi
    have hm := c.getD_misses x.point hi
    rw [weight_eq h.dim hi, ← he i hi] at hm
    simpa [hi, hs, hi'] using hm.symm

theorem Closed.getD_concat (h : Closed ds cs) (p : Point) {i : Nat}
    (hi : i < (cs.map (·.rows)).sum) :
    (Vec.concat (cs.map (·.misses p))).getD i 0 = jointResidual ds cs i p := by
  have ⟨c, hc, l, hl, he⟩ := exists_endToEnd Conditional.rows hi
  have hj (j : Nat) : joint ds cs i j = c.toFactor.spread ds l j * c.model.weight l := he 0 _
  rw [Vec.getD_concat 0 (·.rows) (fun c : Conditional ℝ => c.misses p) (fun c _ => c.size_misses p),
    he, c.getD_misses p hl, jointResidual]
  simp only [hj]
  exact (sum_spread_residual (h.wellFormed c hc) h.nodup (h.subset c hc) l p).symm

theorem size_concat_misses (cs : List (Conditional ℝ)) (p : Point) :
    (Vec.concat (cs.map (·.misses p))).size = (cs.map (·.rows)).sum := by
  rw [Vec.size_concat, List.map_map]
  exact congrArg List.sum (List.map_congr_left fun c _ => c.size_misses p)

theorem Closed.normSq_concat (h : Closed ds cs) (hm : ∀ c ∈ cs, c.model.dim = c.rows) (p : Point) :
    1 / 2 * Vec.normSq (Vec.concat (cs.map (·.misses p))) = totalCost (densityRows cs) p := by
  have hr := h.rating_joint hm p
  have hs : Vec.normSq (Vec.concat (cs.map (·.misses p))) =
      rating (cs.map (·.rows)).sum (ds.map (·.2)).sum (joint ds cs) (stack ds p) := by
    rw [Vec.normSq_eq, size_concat_misses, rating_stack]
    exact Finset.sum_congr rfl fun i hi => by rw [h.getD_concat p (Finset.mem_range.mp hi)]; rfl
  rw [hs, hr]
  ring

end Misses

namespace BayesNet

variable {n : BayesNet ℝ} {r : Mat ℝ} {d : Array ℝ}

namespace Coherent

theorem of_matrix_eq_ok (h : n.Coherent) (hm : n.matrix = .ok (r, d)) :
    Closed n.dims n.conditionals ∧
      r = Mat.ofFn (n.dims.map (·.2)).sum (n.dims.map (·.2)).sum
        (fun i j => joint n.dims n.conditionals i j) ∧
      d = Array.ofFn fun i : Fin (n.conditionals.map (·.rows)).sum =>
        joint n.dims n.conditionals i (n.dims.map (·.2)).sum := by
  cases hk : n.missing?
  case none =>
    have hc := h.closed (missing?_eq_none_iff.mp hk)
    cases (matrix_eq hc).symm.trans hm
    exact ⟨hc, rfl, rfl⟩
  case some k =>
    rw [h.matrix_eq_fail hk] at hm
    contradiction

theorem exists_matrix_iff (h : n.Coherent) : (∃ r d, n.matrix = .ok (r, d)) ↔ n.ParentsFrontal := by
  constructor
  case mp =>
    intro ⟨r, d, hm⟩
    rw [← missing?_eq_none_iff, Option.eq_none_iff_forall_ne_some]
    intro k hk
    rw [h.matrix_eq_fail hk] at hm
    contradiction
  case mpr => exact fun hp => ⟨_, _, matrix_eq (h.closed hp)⟩

theorem entry_eq_zero (h : n.Coherent) (hm : n.matrix = .ok (r, d))
    (hl : ParentsLater n.conditionals) {i j : Nat} (hi : i < r.rows) (hj : j < i) :
    r.entry i j = 0 := by
  have ⟨_, hr, _⟩ := h.of_matrix_eq_ok hm
  have hi : i < (n.dims.map (·.2)).sum := by simpa [hr, Mat.ofFn] using hi
  have hch := hl.chain h.valid h.nodup h.consistent
  rw [hr, Mat.entry_ofFn _ hi (hj.trans hi)]
  exact hch.joint_upper (fun c hm => (h.valid c hm).triangular) hi hj

theorem sub_mulVec (h : n.Coherent) (hm : n.matrix = .ok (r, d)) (p : Point) :
    ∃ u, r.mulVec (coordinates n.dims p) = .ok u ∧
      Vec.sub u d = .ok (Vec.concat (n.conditionals.map (·.misses p))) := by
  have ⟨hc, hr, hd⟩ := h.of_matrix_eq_ok hm
  refine ⟨_, hr ▸ mulVec_coordinates (joint n.dims n.conditionals) n.dims p,
    Vec.sub_eq_ok ?_ ?_ fun i hi => ?_⟩
  case refine_1 => simp [hd, h.sum_rows]
  case refine_2 => simp [size_concat_misses, h.sum_rows]
  case refine_3 =>
    have hi : i < (n.dims.map (·.2)).sum := by simpa using hi
    have hi' : i < (n.conditionals.map (·.rows)).sum := h.sum_rows ▸ hi
    rw [hc.getD_concat p hi', jointResidual_eq]
    simp [hd, hi, hi']

end Coherent

-- A net has a joint matrix just if all parents are frontal variables of the net. It misses values
-- by the errors of the densities, and is upper triangular if parents are later.
theorem matrix_misses (h : n.Coherent) :
    ((∃ r d, n.matrix = .ok (r, d)) ↔ n.ParentsFrontal) ∧
    (∀ k, n.missing? = some k →
      ((∃ c ∈ n.conditionals, k ∈ c.parents) ∧ k ∉ n.frontals) ∧ n.matrix = fail (.notInNet k)) ∧
    ∀ r d, n.matrix = .ok (r, d) →
      (ParentsLater n.conditionals → ∀ i < r.rows, ∀ j < i, r.entry i j = 0) ∧
      ∀ x : Assignment ℝ, x.Fits n.dims → ∃ order v u es,
        n.order = .ok order ∧ x.stacked order = .ok v ∧ r.mulVec v = .ok u ∧
        n.conditionals.mapM (·.toFactor.errorVector x) = .ok es ∧
        Vec.sub u d = .ok (Vec.concat es) ∧
        n.error x = .ok (1 / 2 * Vec.normSq (Vec.concat es)) := by
  refine ⟨h.exists_matrix_iff, fun k hk => ⟨exists_parent hk, h.matrix_eq_fail hk⟩, fun r d hm =>
    ⟨fun hl i hi j hj => h.entry_eq_zero hm hl hi hj, fun x hx => ?_⟩⟩
  have ⟨hc, _, _⟩ := h.of_matrix_eq_ok hm
  have ⟨order, ho, hk⟩ := h.exists_order
  have hxc : ∀ c ∈ n.conditionals, x.Fits c.toFactor.dims := fun c hm => hx.mono (hc.subset c hm)
  have hes : n.conditionals.mapM (·.toFactor.errorVector x) =
      .ok (n.conditionals.map (·.misses x.point)) :=
    Outcome.mapM_eq_ok fun c hm => (h.valid c hm).errorVector_eq (hxc c hm)
  have ⟨u, hu, hsub⟩ := h.sub_mulVec hm x.point
  refine ⟨order, _, u, _, ho, Assignment.stacked_eq hx hk, hu, hes, hsub, ?_⟩
  rw [FactorGraph.error_densities hc.wellFormed hxc,
    hc.normSq_concat fun c hm => (h.valid c hm).dim]

theorem Solvable.coherent (h : n.Solvable) : n.Coherent :=
  ⟨h.valid, h.nodup, h.consistent⟩

theorem matrix_misses_stretched :
    (∃ r d order v u es, stretched.matrix = .ok (r, d) ∧ (∀ i < r.rows, ∀ j < i, r.entry i j = 0) ∧
      stretched.order = .ok order ∧ directions.stacked order = .ok v ∧ r.mulVec v = .ok u ∧
      stretched.conditionals.mapM (·.toFactor.errorVector directions) = .ok es ∧
      Vec.sub u d = .ok (Vec.concat es) ∧
      stretched.error directions = .ok (1 / 2 * Vec.normSq (Vec.concat es))) ∧
    matrix ⟨stretched.conditionals.take 1⟩ = fail (.notInNet 3) := by
  have hs := solvable_stretched
  have hc : Coherent ⟨stretched.conditionals.take 1⟩ := by
    constructor
    case valid => exact fun c hc => hs.valid c (List.mem_of_mem_take hc)
    case nodup => exact hs.nodup.sublist ((List.take_sublist 1 _).flatMap _)
    case consistent =>
      have hm := (List.take_sublist 1 stretched.conditionals).flatMap (·.toFactor.dims)
      exact fun v hv w hw => hs.consistent v (hm.subset hv) w (hm.subset hw)
  have ⟨hm, _, hr⟩ := matrix_misses hs.coherent
  have hp : stretched.ParentsFrontal := by
    unfold ParentsFrontal
    decide
  have ⟨r, d, hrd⟩ := hm.mpr hp
  have ⟨hu, hx⟩ := hr r d hrd
  have ⟨order, v, u, es, he⟩ := hx directions (fits_directions stretched rfl)
  exact ⟨⟨r, d, order, v, u, es, hrd, hu hs.later, he⟩, ((matrix_misses hc).right.left 3 rfl).right⟩

end BayesNet
end LinearGaussian
