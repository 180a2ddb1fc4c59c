import LinearGaussian.Proofs.JointMatrix

namespace LinearGaussian

open LinearFactor Measurement

section Chain

variable {α : Type} [Arith α] [RealLike α]

-- Parents are frontal variables of later densities.
inductive Chain : Widths → List (Conditional α) → Prop
  | nil : Chain [] []
  | cons : c.toFactor.WellFormed → (c.frontalDims.map (·.2)).sum = c.rows → c.parentDims ⊆ ds →
    (∀ w ∈ c.frontalDims, w.1 ∉ ds.keys) → Chain ds cs → Chain (c.frontalDims ++ ds) (c :: cs)

namespace Chain

variable {ds : Widths} {cs : List (Conditional α)}

theorem closed (h : Chain ds cs) : Closed ds cs := by
  induction h
  case nil => exact ⟨nofun, rfl, List.nodup_nil, nofun⟩
  case cons ds cs c hw _ hp hd _ ih =>
    constructor
    case wellFormed => exact List.forall_mem_cons.mpr ⟨hw, ih.wellFormed⟩
    case frontals => rw [List.flatMap_cons, ih.frontals]
    case nodup =>
      have hf : (c.frontalDims.map (·.1)).Nodup := by
        have hn := hw.nodup
        rw [← hw.keys_dims] at hn
        exact hn.sublist ((List.take_sublist _ _).map _)
      rw [Widths.keys, List.map_append]
      refine List.nodup_append.mpr ⟨hf, ih.nodup, fun k hk l hl he => ?_⟩
      obtain ⟨w, hw, hwk⟩ := List.mem_map.mp hk
      exact hd w hw (hwk ▸ he ▸ hl)
    case subset =>
      refine List.forall_mem_cons.mpr ⟨?_,
        fun e he => List.subset_append_of_subset_right _ (ih.subset e he)⟩
      rw [← c.frontalDims_append_parentDims]
      exact List.append_subset.mpr ⟨List.subset_append_left _ _,
        List.subset_append_of_subset_right _ hp⟩

theorem rows_eq (h : Chain ds cs) : (cs.map (·.rows)).sum = (ds.map (·.2)).sum := by
  induction h
  case nil => rfl
  case cons hr _ _ _ ih =>
    rw [List.map_cons, List.sum_cons, ih, List.map_append, List.sum_append, hr]

end Chain
end Chain

namespace LinearFactor

theorem spread_append (f : LinearFactor ℝ) {ws : Widths} (hk : ∀ w ∈ ws, w.1 ∉ f.keys) (ds : Widths)
    (i j : Nat) :
    f.spread (ws ++ ds) i j = if j < (ws.map (·.2)).sum then
      0 else f.spread ds i (j - (ws.map (·.2)).sum) := by
  induction ws generalizing j
  case nil => rfl
  case cons w ws ih =>
    have ⟨hw, hws⟩ := List.forall_mem_cons.mp hk
    have hc : f.spread (w :: ws ++ ds) i j =
        if j < w.2 then f.coefficient w.1 i j else f.spread (ws ++ ds) i (j - w.2) := rfl
    rw [hc, ih hws, coefficient_of_not_mem hw, List.map_cons, List.sum_cons]
    split
    case isTrue hj => rw [if_pos (Nat.lt_add_right _ hj)]
    case isFalse hj =>
      rw [Nat.sub_sub]
      congr 1
      exact propext (by omega)

theorem spread_eq_zero {f : LinearFactor ℝ} {i : Nat} (h : ∀ j, f.ab.full.entry i j = 0)
    (ds : Widths) (j : Nat) :
    f.spread ds i j = 0 := by
  have hc (w : Key × Nat) (j : Nat) : f.coefficient w.1 i j = 0 := by
    unfold coefficient
    split
    case h_1 => exact h _
    case h_2 => rfl
  rw [spread_eq, h]
  exact (endToEnd_map (fun _ : Unit => (0 : ℝ)) (b := ()) rfl (·.2) (u := fun _ _ => ())
    (fun w _ j => (hc w j).symm) j).symm

end LinearFactor

section Root

variable {ds ws : Widths} {cs : List (Conditional ℝ)} {c : Conditional ℝ} {i j : Nat}

theorem joint_append (hk : ∀ c ∈ cs, ∀ w ∈ ws, w.1 ∉ c.toFactor.keys) (ds : Widths) (i j : Nat) :
    joint (ws ++ ds) cs i j = if j < (ws.map (·.2)).sum then
      0 else joint ds cs i (j - (ws.map (·.2)).sum) := by
  induction cs generalizing i
  case nil => simp [joint, endToEnd]
  case cons c cs ih =>
    obtain ⟨hc, hcs⟩ := List.forall_mem_cons.mp hk
    by_cases hi : i < c.rows
    case pos =>
      rw [joint_cons_of_lt hi, joint_cons_of_lt hi, spread_append _ hc, ite_mul, zero_mul]
    case neg =>
      obtain ⟨l, hl⟩ := Nat.exists_eq_add_of_le (Nat.le_of_not_lt hi)
      rw [hl, joint_cons_add, joint_cons_add, ih hcs]

theorem Conditional.spread_frontals (hw : c.toFactor.WellFormed) (i : Nat)
    (hj : j < (c.frontalDims.map (·.2)).sum) :
    c.toFactor.spread (c.frontalDims ++ ds) i j = c.rsd.full.entry i j := by
  have hl (es : Widths) : c.toFactor.spread (c.frontalDims ++ es) i j =
      c.toFactor.spread c.frontalDims i j := by
    rw [spread_eq, spread_eq, List.map_append]
    exact endToEnd_append_left _ _ _ _ (by simpa [Function.comp_def] using hj)
  have hc : j < c.rsd.full.cols := by
    have hcols := hw.cols_eq
    rw [width, ← c.frontalDims_append_parentDims, List.map_append, List.sum_append] at hcols
    exact hj.trans_le (by show _ ≤ c.toFactor.ab.full.cols; omega)
  rw [hl, ← hl c.parentDims, c.frontalDims_append_parentDims, hw.spread_dims i hc]
  rfl

theorem joint_frontals (hw : c.toFactor.WellFormed) (hsum : (c.frontalDims.map (·.2)).sum = c.rows)
    (hi : i < c.rows) (hj : j < c.rows) :
    joint (c.frontalDims ++ ds) (c :: cs) i j = c.rsd.full.entry i j * c.model.weight i := by
  rw [joint_cons_of_lt hi, Conditional.spread_frontals hw i (hsum ▸ hj)]

theorem joint_later (h : Chain ds cs) (hsum : (c.frontalDims.map (·.2)).sum = c.rows)
    (hd : ∀ w ∈ c.frontalDims, w.1 ∉ ds.keys) (i j : Nat) :
    joint (c.frontalDims ++ ds) (c :: cs) (c.rows + i) j = if j < c.rows then
      0 else joint ds cs i (j - c.rows) := by
  rw [joint_cons_add, joint_append, hsum]
  intro e he w hw hk
  rw [← (h.closed.wellFormed e he).keys_dims] at hk
  exact hd w hw (List.map_subset _ (h.closed.subset e he) hk)

theorem isRoot_joint (h : Chain ds cs) (hr : ∀ c ∈ cs, IsRoot c.rows c.rsd.full.entry)
    (hu : ∀ c ∈ cs, ∀ i, c.model.weight i = 1) : IsRoot (ds.map (·.2)).sum (joint ds cs) := by
  induction h
  case nil => exact ⟨nofun, nofun, nofun⟩
  case cons ds cs c hw hsum _ hd hch ih =>
    have ⟨hrc, hrcs⟩ := List.forall_mem_cons.mp hr
    have ⟨huc, hucs⟩ := List.forall_mem_cons.mp hu
    rw [List.map_append, List.sum_append, hsum]
    refine hrc.append (ih hrcs hucs) (fun i hi j hj => ?_) (fun i hi h0 j => ?_)
      (joint_later hch hsum hd)
    case refine_1 => rw [joint_frontals hw hsum hi hj, huc, mul_one]
    case refine_2 => rw [joint_cons_of_lt hi, spread_eq_zero (hrc.zero i hi h0), zero_mul]

-- A net of triangular roots is known by how it rates points.
theorem matrix_eq_of_cost {cs' : List (Conditional ℝ)} (h : Chain ds cs) (h' : Chain ds cs')
    (hr : ∀ c ∈ cs ++ cs', IsRoot c.rows c.rsd.full.entry)
    (hu : ∀ c ∈ cs ++ cs', ∀ i, c.model.weight i = 1) (hd : ∀ c ∈ cs ++ cs', c.model.dim = c.rows)
    {e : ℝ} (hc : ∀ p, totalCost (densityRows cs) p = totalCost (densityRows cs') p + e) :
    BayesNet.matrix ⟨cs⟩ = BayesNet.matrix ⟨cs'⟩ := by
  have ⟨hr, hr'⟩ := List.forall_mem_append.mp hr
  have ⟨hu, hu'⟩ := List.forall_mem_append.mp hu
  have ⟨hd, hd'⟩ := List.forall_mem_append.mp hd
  have hg (p : Point) : rating (ds.map (·.2)).sum (ds.map (·.2)).sum (joint ds cs) (stack ds p) =
      rating (ds.map (·.2)).sum (ds.map (·.2)).sum (joint ds cs') (stack ds p) + 2 * e := by
    have hp := h.closed.rating_joint hd p
    have hp' := h'.closed.rating_joint hd' p
    rw [h.rows_eq] at hp
    rw [h'.rows_eq] at hp'
    rw [hp, hp', hc, mul_add]
  have hj {i : Nat} (hi : i < (ds.map (·.2)).sum) :=
    (isRoot_joint h hr hu).unique (isRoot_joint h' hr' hu') (Nat.le_succ _)
      (fun j hj k hk => gram_eq_of_stack h.closed.nodup hg hj (Nat.le_of_lt_succ hk)) hi
  rw [BayesNet.matrix_eq h.closed, BayesNet.matrix_eq h'.closed, h.rows_eq, h'.rows_eq]
  congr 3
  case e_fst =>
    funext i j
    exact hj i.isLt j (Nat.lt_succ_of_lt j.isLt)
  case e_snd =>
    funext i
    exact hj i.isLt _ (Nat.lt_succ_self _)

end Root
end LinearGaussian
