import LinearGaussian.Proofs.Run
import LinearGaussian.BayesNet.Joint

namespace LinearGaussian

open LinearFactor Measurement

namespace Widths

def start : Widths → Key → Nat
  | [], _ => 0
  | w :: ws, k => if w.1 = k then 0 else w.2 + start ws k

variable {ws : Widths} {v w : Key × Nat} {j : Nat}

theorem start_cons_of_mem (hn : (keys (w :: ws)).Nodup) (hv : v ∈ ws) :
    start (w :: ws) v.1 = w.2 + start ws v.1 := by
  have hk : w.1 ≠ v.1 := fun he => (List.nodup_cons.mp hn).left (List.mem_map.mpr ⟨v, hv, he.symm⟩)
  simp [start, hk]

theorem start_cons_self (w : Key × Nat) (ws : Widths) : start (w :: ws) w.1 = 0 := by
  simp [start]

theorem start_add_le (hn : ws.keys.Nodup) (hw : w ∈ ws) :
    start ws w.1 + w.2 ≤ (ws.map (·.2)).sum := by
  induction ws
  case nil => contradiction
  case cons u ws ih =>
    rw [List.map_cons, List.sum_cons]
    cases hw
    case head => simp [start_cons_self]
    case tail hw =>
      have hi := ih (List.nodup_cons.mp hn).right hw
      rw [start_cons_of_mem hn hw]
      omega

theorem exists_start (hn : ws.keys.Nodup) (hj : j < (ws.map (·.2)).sum) :
    ∃ w ∈ ws, ∃ l < w.2, j = start ws w.1 + l := by
  induction ws generalizing j
  case nil => contradiction
  case cons u ws ih =>
    by_cases hu : j < u.2
    case pos => exact ⟨u, .head _, j, hu, by rw [start_cons_self, Nat.zero_add]⟩
    case neg =>
      rw [List.map_cons, List.sum_cons] at hj
      have ⟨w, hw, l, hl, he⟩ := ih (List.nodup_cons.mp hn).right (show j - u.2 < _ by omega)
      refine ⟨w, .tail _ hw, l, hl, ?_⟩
      rw [start_cons_of_mem hn hw]
      omega

theorem eq_of_start (hn : ws.keys.Nodup) (hv : v ∈ ws) (hw : w ∈ ws)
    (hjv : start ws v.1 ≤ j ∧ j < start ws v.1 + v.2)
    (hjw : start ws w.1 ≤ j ∧ j < start ws w.1 + w.2) : v = w := by
  induction ws generalizing j
  case nil => contradiction
  case cons u ws ih =>
    cases hv
    case head =>
      cases hw
      case head => rfl
      case tail hw =>
        rw [start_cons_self] at hjv
        rw [start_cons_of_mem hn hw] at hjw
        omega
    case tail hv =>
      rw [start_cons_of_mem hn hv] at hjv
      cases hw
      case head =>
        rw [start_cons_self] at hjw
        omega
      case tail hw =>
        rw [start_cons_of_mem hn hw] at hjw
        exact ih (List.nodup_cons.mp hn).right hv hw (show _ ≤ j - u.2 ∧ _ by omega) (by omega)

theorem endToEnd_start {β : Type} (hn : ws.keys.Nodup) (hw : w ∈ ws) (b : β) (u : Key → Nat → β)
    {l : Nat} (hl : l < w.2) :
    endToEnd b (ws.map fun w => (w.2, u w.1)) (start ws w.1 + l) = u w.1 l := by
  induction ws
  case nil => contradiction
  case cons v ws ih =>
    cases hw
    case head => simp [start_cons_self, endToEnd, hl]
    case tail hw =>
      rw [start_cons_of_mem hn hw, Nat.add_assoc]
      simpa [endToEnd] using ih (List.nodup_cons.mp hn).right hw

end Widths

section Start

variable {ds : Widths} {w : Key × Nat} {l : Nat}

theorem LinearFactor.spread_start {α : Type} [Arith α] (f : LinearFactor α) (hn : ds.keys.Nodup)
    (hw : w ∈ ds) (i : Nat) (hl : l < w.2) :
    f.spread ds i (ds.start w.1 + l) = f.coefficient w.1 i l :=
  Widths.endToEnd_start hn hw _ (fun k => f.coefficient k i) hl

theorem stack_start_add (hn : ds.keys.Nodup) (hw : w ∈ ds) (p : Point) (hl : l < w.2) :
    stack ds p (ds.start w.1 + l) = p w.1 l :=
  Widths.endToEnd_start hn hw (-1) p hl

end Start

section Layout

variable {α : Type} [Arith α] [RealLike α] {ds : Widths} {cs : List (Conditional α)}
  {c : Conditional α}

-- Every variable that the densities mention is frontal in just one of them.
structure Closed (ds : Widths) (cs : List (Conditional α)) : Prop where
  wellFormed : ∀ c ∈ cs, c.toFactor.WellFormed
  frontals   : cs.flatMap (·.frontalDims) = ds
  nodup      : ds.keys.Nodup
  subset     : ∀ c ∈ cs, c.toFactor.dims ⊆ ds

theorem Closed.mem_dims_iff (h : Closed ds cs) {w : Key × Nat} :
    w ∈ cs.flatMap (·.toFactor.dims) ↔ w ∈ ds := by
  constructor
  case mp =>
    intro hw
    have ⟨c, hc, hw⟩ := List.mem_flatMap.mp hw
    exact h.subset c hc hw
  case mpr =>
    intro hw
    have ⟨c, hc, hw⟩ := List.mem_flatMap.mp (h.frontals ▸ hw)
    exact List.mem_flatMap.mpr ⟨c, hc, List.mem_of_mem_take hw⟩

namespace BayesNet

omit [Arith α] [RealLike α] in
theorem foldl_offsets (hn : ds.keys.Nodup) (m : KeyMap Nat) (stop : Nat) :
    (ds.foldl (fun acc w => (acc.1.insert w.1 acc.2, acc.2 + w.2)) (m, stop)).2 =
      stop + (ds.map (·.2)).sum ∧
      ∀ k, (ds.foldl (fun acc w => (acc.1.insert w.1 acc.2, acc.2 + w.2)) (m, stop)).1.get? k =
        if k ∈ ds.keys then some (stop + ds.start k) else m.get? k := by
  induction ds generalizing m stop
  case nil => simp [Widths.keys]
  case cons w ws ih =>
    obtain ⟨hw, hws⟩ := List.nodup_cons.mp hn
    obtain ⟨hs, hk⟩ := ih hws (m.insert w.1 stop) (stop + w.2)
    refine ⟨by rw [List.foldl_cons, hs, List.map_cons, List.sum_cons, Nat.add_assoc], fun k => ?_⟩
    rw [List.foldl_cons, hk, KeyMap.get?_insert]
    have hm : k ∈ Widths.keys (w :: ws) ↔ k = w.1 ∨ k ∈ Widths.keys ws := List.mem_cons
    by_cases he : k = w.1
    case pos =>
      subst he
      have hw : w.1 ∉ Widths.keys ws := hw
      simp [hm, hw, Widths.start_cons_self]
    case neg => simp [hm, he, Ne.symm he, Widths.start, Nat.add_assoc]

theorem zip_frontals (c : Conditional α) : c.frontals.zip c.rsd.widths = c.frontalDims := by
  have hd : c.frontalDims = (c.keys.zip c.rsd.widths).take c.frontalCount := rfl
  rw [hd, Conditional.frontals]
  apply List.ext_getElem
  case hl => simp [Nat.min_assoc]
  case h => simp

theorem offsets_eq_foldl (n : BayesNet α) :
    n.offsets = (n.conditionals.flatMap (·.frontalDims)).foldl
    (fun acc w => (acc.1.insert w.1 acc.2, acc.2 + w.2)) (∅, 0) := by
  simp only [offsets, zip_frontals, List.foldl_flatMap]

theorem offsets_eq (h : Closed ds cs) :
    (offsets ⟨cs⟩).2 = (ds.map (·.2)).sum ∧ ∀ w ∈ ds, (offsets ⟨cs⟩).1.get? w.1 =
      some (ds.start w.1) := by
  obtain ⟨hs, hk⟩ := foldl_offsets h.nodup ∅ 0
  rw [offsets_eq_foldl, h.frontals]
  refine ⟨by rw [hs, Nat.zero_add], fun w hw => ?_⟩
  have hm : w.1 ∈ ds.keys := List.mem_map_of_mem hw
  rw [hk, if_pos hm, Nat.zero_add]

def placementsOf (ds : Widths) (c : Conditional α) : List Placement :=
  c.toFactor.dims.zipIdx.map fun e => ⟨c.rsd.offsetAt e.2, ds.start e.1.1, e.1.2⟩

theorem placements_eq (h : Closed ds cs) (hc : c ∈ cs) :
    placements (offsets ⟨cs⟩).1 (offsets ⟨cs⟩).2 c = .ok (placementsOf ds c) := by
  have ⟨hs, hk⟩ := offsets_eq h
  refine Outcome.mapM_eq_ok fun e he => ?_
  have hw : e.1 ∈ ds := h.subset c hc (List.fst_mem_of_mem_zipIdx he)
  have hle := Widths.start_add_le h.nodup hw
  simp [placeBlock, hk _ hw, hs, hle, require]

end BayesNet
end Layout

section Placement

variable {ds : Widths} {cs : List (Conditional ℝ)} {c : Conditional ℝ}

-- Entry `(i, j)` of the whitened rows of all densities over the columns of the given variables.
noncomputable def joint (ds : Widths) (cs : List (Conditional ℝ)) (i j : Nat) : ℝ :=
  endToEnd 0 (cs.map fun c => (c.rows, fun i => c.toFactor.spread ds i j * c.model.weight i)) i

namespace BayesNet

-- Of blocks at the same place that agree there, it does not matter which one stands.
theorem foldl_ite {ι β : Type} {p : ι → Prop} [DecidablePred p] {u : ι → β} {b : β} {ps : List ι}
    (h : ∀ i ∈ ps, p i → u i = b) (a : β) :
    ps.foldl (fun a i => if p i then u i else a) a = if ∃ i ∈ ps, p i then b else a := by
  induction ps generalizing a
  case nil => simp
  case cons i ps ih =>
    have ⟨hi, hps⟩ := List.forall_mem_cons.mp h
    rw [List.foldl_cons, ih hps]
    by_cases hp : p i <;> by_cases he : ∃ i ∈ ps, p i <;> simp_all

theorem placedRow_eq (h : Closed ds cs) (hc : c ∈ cs) (i : Nat) {j : Nat}
    (hj : j < (ds.map (·.2)).sum) :
    placedRow c (placementsOf ds c) i j = c.toFactor.spread ds i j * c.model.weight i := by
  have ⟨w, hw, l, hl, he⟩ := Widths.exists_start h.nodup hj
  have hs : c.toFactor.spread ds i j = c.toFactor.coefficient w.1 i l := by
    rw [he, spread_start _ h.nodup hw i hl]
  -- Blocks of distinct variables do not overlap, so only the block of `w` can cover the column.
  have hp : ∀ p ∈ placementsOf ds c, p.target ≤ j ∧ j < p.target + p.width →
      c.rsd.full.entry i (p.source + (j - p.target)) * c.model.weight i =
        c.toFactor.coefficient w.1 i l * c.model.weight i := by
    refine List.forall_mem_map.mpr fun e hm hje => ?_
    have hew : e.1 = w :=
      Widths.eq_of_start h.nodup (h.subset c hc (List.fst_mem_of_mem_zipIdx hm)) hw hje (by omega)
    have hl : j - ds.start e.1.1 = l := by
      rw [hew]
      omega
    have hk := (h.wellFormed c hc).coefficient_of_mem_zipIdx hm i l
    rw [hew] at hk
    rw [hl, hk]
    rfl
  rw [placedRow, foldl_ite hp, hs]
  split
  case isTrue => rfl
  case isFalse hn =>
    have hk : w.1 ∉ c.toFactor.keys := by
      intro hk
      rw [← (h.wellFormed c hc).keys_dims] at hk
      have ⟨v, hv, hvw⟩ := List.mem_map.mp hk
      have hvw : v = w := List.inj_on_of_nodup_map h.nodup (h.subset c hc hv) hw hvw
      have ⟨pos, hz⟩ := exists_mem_zipIdx hv
      refine hn ⟨_, List.mem_map_of_mem hz, ?_⟩
      rw [hvw]
      show ds.start w.1 ≤ j ∧ j < ds.start w.1 + w.2
      omega
    rw [coefficient_of_not_mem hk, zero_mul]

theorem concat_d (ds : Widths) (cs : List (Conditional ℝ)) :
    Vec.concat (cs.map fun c => c.d.mapIdx fun i a => a * c.model.weight i) =
      Array.ofFn fun i : Fin (cs.map (·.rows)).sum => joint ds cs i (ds.map (·.2)).sum := by
  have hc (c : Conditional ℝ) (i : Nat) : (c.d.mapIdx fun i a => a * c.model.weight i).getD i 0 =
      c.toFactor.spread ds i (ds.map (·.2)).sum * c.model.weight i := by
    have hs : c.toFactor.spread ds i (ds.map (·.2)).sum =
        c.rsd.full.entry i (c.rsd.offsetAt c.keys.length) :=
      endToEnd_sum ..
    rw [hs]
    by_cases hi : i < c.rows
    case pos => simp [Conditional.d, hi]
    case neg =>
      have h0 : c.rsd.full.entry i (c.rsd.offsetAt c.keys.length) = 0 := dif_neg fun h => hi h.left
      simp [Conditional.d, hi, h0]
  have hsize : ∀ c ∈ cs, (c.d.mapIdx fun i a => a * c.model.weight i).size = c.rows := by
    simp [Conditional.d]
  have hg :=
    Vec.getD_concat 0 (·.rows) (fun c : Conditional ℝ => c.d.mapIdx fun i a =>
      a * c.model.weight i) hsize
  simp only [hc] at hg
  apply Array.ext
  case h₁ =>
    rw [Vec.size_concat, List.map_map, Array.size_ofFn]
    exact congrArg List.sum (List.map_congr_left hsize)
  case h₂ =>
    intro i hi _
    have hi := hg i
    simp_all [joint]

theorem matrix_eq (h : Closed ds cs) :
    matrix ⟨cs⟩ = .ok (Mat.ofFn (ds.map (·.2)).sum (ds.map (·.2)).sum fun i j => joint ds cs i j,
      Array.ofFn fun i : Fin (cs.map (·.rows)).sum => joint ds cs i (ds.map (·.2)).sum) := by
  have ⟨hs, _⟩ := offsets_eq h
  have hp : cs.mapM (fun c => do return (c, ← placements (offsets ⟨cs⟩).1 (offsets ⟨cs⟩).2 c)) =
      .ok (cs.map fun c => (c, placementsOf ds c)) :=
    Outcome.mapM_eq_ok fun c hc => by rw [placements_eq h hc]; rfl
  have hr (i j : Fin (ds.map (·.2)).sum) :
      endToEnd (fun _ => 0) ((cs.map fun c => (c, placementsOf ds c)).map fun (c, ps) => (c.rows,
        placedRow c ps))
        i.val j.val = joint ds cs i j := by
    rw [List.map_map]
    exact endToEnd_map (fun row : Nat → ℝ => row j.val) rfl (·.rows)
      (fun c hc i => placedRow_eq h hc i j.isLt) i
  simp only [matrix]
  rw [hp, Outcome.ok_bind, hs, concat_d ds]
  simp only [hr]
  rfl

end BayesNet
end Placement

section Rating

variable {ds : Widths} {cs : List (Conditional ℝ)} {c : Conditional ℝ} {i j : Nat}

theorem joint_cons_of_lt (hi : i < c.rows) :
    joint ds (c :: cs) i j = c.toFactor.spread ds i j * c.model.weight i :=
  if_pos hi

theorem joint_cons_add (c : Conditional ℝ) (i j : Nat) :
    joint ds (c :: cs) (c.rows + i) j = joint ds cs i j := by
  simp [joint, endToEnd]

theorem sum_joint (ds : Widths) (cs : List (Conditional ℝ)) (g : (Nat → ℝ) → ℝ) :
    ∑ i ∈ Finset.range (cs.map (·.rows)).sum, g (joint ds cs i) =
      (cs.map fun c => ∑ i ∈ Finset.range c.rows, g fun j => c.toFactor.spread ds i j *
        c.model.weight i).sum := by
  induction cs
  case nil => simp
  case cons c cs ih =>
    rw [List.map_cons, List.sum_cons, List.map_cons, List.sum_cons, Finset.sum_range_add, ← ih]
    congr 1
    case e_a =>
      apply Finset.sum_congr rfl
      intro i hi
      congr 1
      funext j
      exact joint_cons_of_lt (Finset.mem_range.mp hi)
    case e_a =>
      apply Finset.sum_congr rfl
      intro i _
      congr 1
      funext j
      exact joint_cons_add c i j

theorem rating_stack (m : Nat) (a : Nat → Nat → ℝ) (ds : Widths) (p : Point) :
    rating m (ds.map (·.2)).sum a (stack ds p) =
      ∑ i ∈ Finset.range m, (∑ j ∈ Finset.range ((ds.map (·.2)).sum + 1), a i j *
        stack ds p j) ^ 2 := by
  simp only [rating, Finset.sum_range_succ, stack_sum, mul_neg_one, sub_eq_add_neg]

theorem Conditional.weight_eq (h : c.model.dim = c.rows) (hi : i < c.rows) :
    c.model.weight i = NoiseModel.weightOf (c.toFactor.sigmas.getD i 1) := by
  have hi : i < c.model.sigmas.size := hi.trans_eq h.symm
  rw [sigmas_toFactor h]
  simp [NoiseModel.weight, hi]

theorem sum_spread_residual (h : c.toFactor.WellFormed) (hn : ds.keys.Nodup)
    (hs : c.toFactor.dims ⊆ ds) (i : Nat) (p : Point) :
    ∑ j ∈ Finset.range ((ds.map (·.2)).sum + 1), c.toFactor.spread ds i j * c.model.weight i *
      stack ds p j =
      c.toFactor.residual i p * c.model.weight i := by
  rw [← residual_eq_of_subset h hn hs, ← sum_spread, Finset.sum_mul]
  exact Finset.sum_congr rfl fun j _ => mul_right_comm ..

-- The joint matrix rates points as the densities do, in whatever order the columns are.
theorem rating_joint (h : ∀ c ∈ cs, c.toFactor.WellFormed) (hn : ds.keys.Nodup)
    (hs : ∀ c ∈ cs, c.toFactor.dims ⊆ ds) (hm : ∀ c ∈ cs, c.model.dim = c.rows) (p : Point) :
    rating (cs.map (·.rows)).sum (ds.map (·.2)).sum (joint ds cs) (stack ds p) =
      2 * totalCost (densityRows cs) p := by
  rw [rating_stack,
    sum_joint ds cs fun row =>
    (∑ j ∈ Finset.range ((ds.map (·.2)).sum + 1), row j * stack ds p j) ^ 2, densityRows,
    totalCost_flatMap, ← List.sum_map_mul_left]
  congr 1
  apply List.map_congr_left
  intro c hc
  rw [totalCost_measurements, Finset.mul_sum]
  apply Finset.sum_congr rfl
  intro i hi
  rw [sum_spread_residual (h c hc) hn (hs c hc),
    Conditional.weight_eq (hm c hc) (Finset.mem_range.mp hi)]
  ring

theorem Closed.rating_joint (h : Closed ds cs) (hm : ∀ c ∈ cs, c.model.dim = c.rows) (p : Point) :
    rating (cs.map (·.rows)).sum (ds.map (·.2)).sum (joint ds cs) (stack ds p) =
      2 * totalCost (densityRows cs) p :=
  LinearGaussian.rating_joint h.wellFormed h.nodup h.subset hm p

theorem stack_start (hn : ds.keys.Nodup) (x : Nat → ℝ) (hj : j < (ds.map (·.2)).sum) :
    stack ds (fun k l => x (ds.start k + l)) j = x j := by
  have ⟨w, hw, l, hl, he⟩ := Widths.exists_start hn hj
  rw [he, stack_start_add hn hw _ hl]

theorem gram_eq_of_stack {m m' : Nat} {a b : Nat → Nat → ℝ} {e : ℝ} (hn : ds.keys.Nodup)
    (h : ∀ p, rating m (ds.map (·.2)).sum a (stack ds p) =
      rating m' (ds.map (·.2)).sum b (stack ds p) + e)
    (hi : i < (ds.map (·.2)).sum) (hj : j ≤ (ds.map (·.2)).sum) :
    ∑ l ∈ Finset.range m, a l i * a l j = ∑ l ∈ Finset.range m', b l i * b l j := by
  refine gram_eq_of_rating (c := e) (fun x => ?_) hi hj
  have hx {j : Nat} (hj : j < (ds.map (·.2)).sum) := stack_start hn x hj
  rw [← rating_congr fun j hj => hx hj, ← rating_congr fun j hj => hx hj]
  exact h _

end Rating

end LinearGaussian
