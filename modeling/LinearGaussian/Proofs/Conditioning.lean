import LinearGaussian.Proofs.Restriction
import LinearGaussian.Conditional.Conditioning

namespace LinearGaussian

namespace Assignment

variable {α : Type} {x : Assignment α} {k : Key} {d : Nat} {ws : Widths}

def requireFits (x : Assignment α) (ws : Widths) : Outcome Unit :=
  ws.forM fun w => (fun _ => ()) <$> x.valueOf w.1 w.2

theorem valueOf_eq_ok {v : Array α} : x.valueOf k d = .ok v ↔ x.get? k = some v ∧ v.size = d := by
  unfold valueOf value
  cases x.get? k
  case none => simp
  case some u =>
    rw [Outcome.ok_bind]
    split
    case isTrue hd => simp +contextual [← hd]
    case isFalse hd => grind [Outcome.fail_ne_ok]

theorem requireFits_cons (x : Assignment α) (w : Key × Nat) (ws : Widths) :
    x.requireFits (w :: ws) = x.valueOf w.1 w.2 >>= fun _ => x.requireFits ws := by
  show ((fun _ => ()) <$> x.valueOf w.1 w.2 >>= fun _ => x.requireFits ws) = _
  cases x.valueOf w.1 w.2 <;> rfl

theorem requireFits_eq_ok : x.requireFits ws = .ok () ↔ x.Fits ws := by
  induction ws
  case nil => exact ⟨fun _ => nofun, fun _ => rfl⟩
  case cons w ws ih =>
    simp only [requireFits_cons, Outcome.bind_eq_ok, valueOf_eq_ok, ih, Fits, List.forall_mem_cons,
      exists_and_right]

end Assignment

namespace Conditional

variable {α : Type} [Arith α] [RealLike α] {c : Conditional α} {saved saved' : Key → Bool}
  {x : Assignment α}

namespace Valid

section Positions

theorem keptPositions_eq (h : c.Valid) (saved : Key → Bool) :
    c.keptPositions saved = (c.toFactor.dims.zipIdx.filter (saved ·.1.1)).map (·.2) := by
  have hk : c.toFactor.dims.map (·.1) = c.keys := h.factor.keys_dims
  rw [keptPositions, ← hk, List.zipIdx_map, List.filter_map, List.map_map]
  rfl

theorem map_keptPositions (h : c.Valid) (saved : Key → Bool) {γ : Type} {f : Nat → γ}
    {g : Key × Nat → γ} (hf : ∀ e ∈ c.toFactor.dims.zipIdx, f e.2 = g e.1) :
    (c.keptPositions saved).map f = (c.keptDims saved).map g := by
  rw [h.keptPositions_eq, List.map_map]
  exact map_zipIdx_filter (saved ·.1) hf

theorem keptFrontals_eq (h : c.Valid) (saved : Key → Bool) :
    (c.keptPositions saved).filter (· < c.frontalCount) =
      (c.frontalDims.zipIdx.filter (saved ·.1.1)).map (·.2) := by
  rw [h.keptPositions_eq, ← c.frontalDims_append_parentDims, List.zipIdx_append, List.filter_append,
    List.map_append, List.filter_append, h.length_frontalDims]
  have hl : ((c.frontalDims.zipIdx.filter (saved ·.1.1)).map (·.2)).filter (· < c.frontalCount) =
      (c.frontalDims.zipIdx.filter (saved ·.1.1)).map (·.2) := by
    rw [List.filter_eq_self]
    intro pos hp
    have ⟨e, he, hep⟩ := List.mem_map.mp hp
    have hlt := (List.mem_zipIdx' (List.mem_of_mem_filter he)).left
    simpa [← hep, ← h.length_frontalDims] using hlt
  have hr : (((c.parentDims.zipIdx (0 + c.frontalCount)).filter (saved ·.1.1)).map (·.2)).filter
      (· < c.frontalCount) =
      [] := by
    rw [List.filter_eq_nil_iff]
    intro pos hp
    have ⟨e, he, hep⟩ := List.mem_map.mp hp
    have hle := List.le_snd_of_mem_zipIdx (List.mem_of_mem_filter he)
    simp only [decide_eq_true_eq]
    omega
  rw [hl, hr, List.append_nil]

theorem map_keptFrontals (h : c.Valid) (saved : Key → Bool) {γ : Type} {f : Nat → γ}
    {g : Key × Nat → γ} (hf : ∀ e ∈ c.toFactor.dims.zipIdx, f e.2 = g e.1) :
    ((c.keptPositions saved).filter (· < c.frontalCount)).map f =
      (c.keptFrontalDims saved).map g := by
  rw [h.keptFrontals_eq, List.map_map]
  refine map_zipIdx_filter (saved ·.1) fun e he => hf e ?_
  rw [← c.frontalDims_append_parentDims, List.zipIdx_append]
  exact List.mem_append_left _ he

theorem width_of_mem_zipIdx (h : c.Valid) {e : (Key × Nat) × Nat}
    (he : e ∈ c.toFactor.dims.zipIdx) :
    c.rsd.widths.getD e.2 0 = e.1.2 := by
  have ⟨hp, hd⟩ := List.mem_zipIdx' he
  have ⟨_, hw, hd'⟩ := h.factor.getElem_dims (hp.trans_eq h.factor.length_dims)
  rw [hd, hd']
  exact List.getD_eq_getElem _ _ hw

theorem rowsOf_eq (h : c.Valid) (saved : Key → Bool) :
    c.rowsOf ((c.keptPositions saved).filter (· < c.frontalCount)) = c.keptRows saved := by
  rw [rowsOf, keptRows, Widths.places, List.flatMap_def, List.flatMap_def]
  congr 1
  apply h.map_keptFrontals
  intro e he
  rw [h.width_of_mem_zipIdx he]
  exact congrArg (List.range' · _) (h.factor.offsetAt_of_mem_zipIdx he)

end Positions

section Values

theorem substitute_eq (h : c.Valid) {e : (Key × Nat) × Nat} (he : e ∈ c.toFactor.dims.zipIdx)
    {v : Array α} (hv : x.get? e.1.1 = some v) (hd : v.size = e.1.2) (rows : List Nat)
    (f : Nat → α) :
    c.substitute rows e.2 v (rows.map f) = rows.map fun i => (c.terms x i e.1).foldl (· + ·)
      (f i) := by
  rw [substitute, ← List.map_prod_left_eq_zip, List.map_map]
  apply List.map_congr_left
  intro i _
  have ht : c.terms x i e.1 = (List.finRange v.size).map fun j : Fin v.size =>
      c.rsd.full.entry i (c.rsd.offsetAt e.2 + j) * (-1 * v[j]) := by
    rw [terms, hv, ← hd, ← List.map_coe_finRange_eq_range, List.map_map]
    apply List.map_congr_left
    intro j _
    have hc : c.toFactor.coefficient e.1.1 i j = c.rsd.full.entry i (c.rsd.offsetAt e.2 + j) :=
      h.factor.coefficient_of_mem_zipIdx he i j
    simp [hc]
  rw [ht, List.foldl_map, ← Fin.foldl_eq_foldl_finRange]
  rfl

-- Substitution reads the values one after the other, and has nothing else to fail on.
theorem foldlM_substitute (h : c.Valid) (x : Assignment α) (rows : List Nat)
    {es : List ((Key × Nat) × Nat)} (he : es ⊆ c.toFactor.dims.zipIdx) (f : Nat → α) :
    es.foldlM (fun d ((k, w), pos) => do
      let v ← x.valueOf k w
      return c.substitute rows pos v d) (rows.map f) =
    x.requireFits (es.map (·.1)) >>= fun _ =>
      .ok (rows.map fun i => ((es.map (·.1)).flatMap (c.terms x i)).foldl (· + ·) (f i)) := by
  induction es generalizing f
  case nil => rfl
  case cons e es ih =>
    obtain ⟨he, hes⟩ := List.cons_subset.mp he
    rw [List.foldlM_cons, List.map_cons, x.requireFits_cons]
    cases hv : x.valueOf e.1.1 e.1.2
    case error =>
      simp only [hv]
      rfl
    case ok v =>
      obtain ⟨hg, hd⟩ := Assignment.valueOf_eq_ok.mp hv
      simp only [hv, Outcome.ok_bind, Outcome.pure_eq_ok, h.substitute_eq he hg hd,
        List.flatMap_cons, List.foldl_append]
      exact ih hes _

end Values

section Outcome

theorem keys_filter (h : c.Valid) (saved : Key → Bool) :
    c.keys.filter saved = (c.keptDims saved).keys := by
  have hk : c.toFactor.dims.map (·.1) = c.keys := h.factor.keys_dims
  rw [← hk, List.filter_map]
  rfl

theorem length_keptFrontals (h : c.Valid) (saved : Key → Bool) :
    ((c.keptPositions saved).filter (· < c.frontalCount)).length =
      (c.keptFrontalDims saved).length := by
  have hm :=
    congrArg List.length (h.map_keptFrontals saved (f := fun _ => ()) (g := fun _ => ())
      fun _ _ => rfl)
  rwa [List.length_map, List.length_map] at hm

theorem foldlM_removed (h : c.Valid) (saved : Key → Bool) (x : Assignment α) (rows : List Nat) :
    ((c.keys.zip c.rsd.widths).zipIdx.filter fun ((k, _), _) => !saved k).foldlM
      (fun d ((k, w), pos) => do
      let v ← x.valueOf k w
      return c.substitute rows pos v d) (rows.map c.rhs) =
    x.requireFits (c.removedDims saved) >>= fun _ => .ok (rows.map (c.rhsGiven saved x)) := by
  have hm : c.removedDims saved =
      (c.toFactor.dims.zipIdx.filter fun e => !saved e.1.1).map (·.1) := by
    conv_lhs => rw [removedDims, ← List.zipIdx_map_fst 0 c.toFactor.dims, Widths.pick,
      List.filter_map]
    rfl
  refine (h.foldlM_substitute x rows (List.filter_subset_self _) c.rhs).trans ?_
  unfold rhsGiven
  rw [hm]

theorem mapM_sigma (h : c.Valid) {rows : List Nat} (hr : rows = c.keptRows saved) :
    rows.mapM c.model.sigma = .ok ((c.keptRows saved).map fun i => c.model.sigmas.getD i 1) := by
  rw [hr]
  apply Outcome.mapM_eq_ok
  intro i hi
  have hi : i < c.model.sigmas.size := (h.lt_of_mem_keptRows hi).trans_eq h.dim.symm
  simp [NoiseModel.sigma, inRange, hi]

theorem rsd_restrict (h : c.Valid) (x : Assignment α) {rows : List Nat}
    (hr : rows = c.keptRows saved) :
    BlockMatrix.ofFn rows.length
      ((c.keptPositions saved).map (fun pos => c.rsd.widths.getD pos 0) ++ [1]) (fun i j =>
      endToEnd ((rows.map (c.rhsGiven saved x)).getD i 0) ((c.keptPositions saved).map fun pos =>
        (c.rsd.widths.getD pos 0, fun l => c.rsd.full.entry rows[i] (c.rsd.offsetAt pos + l))) j) =
      (c.restrict saved x).rsd := by
  have hw : (c.keptPositions saved).map (fun pos => c.rsd.widths.getD pos 0) =
      (c.keptDims saved).map (·.2) :=
    h.map_keptPositions saved fun e he => h.width_of_mem_zipIdx he
  have hc (i : Nat) : (c.keptPositions saved).map (fun pos =>
      (c.rsd.widths.getD pos 0, fun l => c.rsd.full.entry i (c.rsd.offsetAt pos + l))) =
      (c.keptDims saved).map fun w => (w.2, c.toFactor.coefficient w.1 i) := by
    apply h.map_keptPositions
    intro e he
    rw [h.width_of_mem_zipIdx he]
    congr
    funext l
    exact (h.factor.coefficient_of_mem_zipIdx he i l).symm
  simp only [hc]
  rw [hw, hr]
  simp [Conditional.restrict]

theorem isEmpty_keptFrontals (h : c.Valid) (saved : Key → Bool) :
    ((c.keptPositions saved).filter (· < c.frontalCount)).isEmpty =
      (c.keptFrontalDims saved).isEmpty := by
  rw [Bool.eq_iff_iff, List.isEmpty_iff_length_eq_zero, List.isEmpty_iff_length_eq_zero,
    h.length_keptFrontals]

-- Conditioning checks the values of the removed variables if it needs them, and then restricts the
-- density.
theorem conditionOn_eq_bind (h : c.Valid) (saved : Key → Bool) (x : Assignment α) :
    c.conditionOn saved x = if c.keys.all saved then .ok .unchanged
      else if (c.keptFrontalDims saved).isEmpty then .ok .dropped
      else x.requireFits (c.removedDims saved) >>=
        fun _ => .ok (.reduced (c.restrict saved x)) := by
  have hf := h.isEmpty_keptFrontals saved
  unfold conditionOn
  by_cases ha : c.keys.all saved
  case pos => simp [ha]
  case neg =>
    by_cases he : (c.keptFrontalDims saved).isEmpty
    case pos => simp [ha, he, hf]
    case neg =>
      have hv := valid_iff.mp (h.restrict saved x)
      simp only [ha, he, hf]
      refine (congrArg (· >>= _) (h.foldlM_removed saved x _)).trans ?_
      cases x.requireFits (c.removedDims saved)
      case error => rfl
      case ok =>
        rw [Outcome.ok_bind, Outcome.ok_bind]
        refine Outcome.bind_eq_ok.mpr ⟨_, h.mapM_sigma (h.rowsOf_eq saved), ?_⟩
        refine Outcome.bind_eq_ok.mpr ⟨_, hv.right,
          Outcome.bind_eq_ok.mpr ⟨c.restrict saved x, ?_, rfl⟩⟩
        rw [h.rsd_restrict x (h.rowsOf_eq saved), h.keys_filter, h.length_keptFrontals]
        exact hv.left

end Outcome
end Valid

def Remains (c : Conditional α) (saved : Key → Bool) : Prop :=
  (∀ k ∈ c.keys, saved k) ∨ ∃ k ∈ c.frontals, saved k

instance : Decidable (c.Remains saved) :=
  inferInstanceAs (Decidable (_ ∨ _))

omit [Arith α] [RealLike α] in
theorem Remains.mono (h : c.Remains saved') (hs : ∀ k, saved' k → saved k) : c.Remains saved := by
  cases h
  case inl h => exact .inl fun k hk => hs k (h k hk)
  case inr h =>
    have ⟨k, hk, hk'⟩ := h
    exact .inr ⟨k, hk, hs k hk'⟩

namespace Valid

theorem isEmpty_keptFrontalDims (h : c.Valid) (saved : Key → Bool) :
    (c.keptFrontalDims saved).isEmpty ↔ ¬∃ k ∈ c.frontals, saved k := by
  rw [← h.keys_frontalDims]
  simp [keptFrontalDims, Widths.pick]

theorem conditioned_eq_bind (h : c.Valid) (saved : Key → Bool) (x : Assignment α) :
    c.conditioned saved x = if c.Remains saved then
      x.requireFits (c.removedDims saved) >>= fun _ => .ok (some (c.restrict saved x))
        else .ok none := by
  rw [conditioned, h.conditionOn_eq_bind]
  by_cases ha : ∀ k ∈ c.keys, saved k
  case pos =>
    have hr : c.Remains saved := .inl ha
    have hs : c.restrict saved x = c := h.restrict_eq_self ha
    rw [if_pos (List.all_eq_true.mpr ha), if_pos hr, hs, h.removedDims_eq_nil ha]
    rfl
  case neg =>
    have hr : c.Remains saved ↔ ∃ k ∈ c.frontals, saved k := or_iff_right ha
    rw [if_neg (mt List.all_eq_true.mp ha)]
    by_cases hf : ∃ k ∈ c.frontals, saved k
    case pos =>
      rw [if_neg (mt (h.isEmpty_keptFrontalDims saved).mp (not_not_intro hf)), if_pos (hr.mpr hf)]
      cases x.requireFits (c.removedDims saved) <;> rfl
    case neg =>
      rw [if_pos ((h.isEmpty_keptFrontalDims saved).mpr hf), if_neg (mt hr.mp hf)]
      rfl

theorem conditioned_eq (h : c.Valid) (hx : x.Fits c.toFactor.dims) (saved : Key → Bool) :
    c.conditioned saved x = .ok (if c.Remains saved then some (c.restrict saved x) else none) := by
  have hr : x.Fits (c.removedDims saved) := hx.mono (Widths.pick_sublist _ _).subset
  rw [h.conditioned_eq_bind, Assignment.requireFits_eq_ok.mpr hr]
  split <;> rfl

theorem keys_restrict (h : c.Valid) (saved : Key → Bool) (x : Assignment α) :
    (c.restrict saved x).keys = c.keys.filter saved :=
  (h.keys_filter saved).symm

theorem frontals_restrict (h : c.Valid) (saved : Key → Bool) (x : Assignment α) :
    (c.restrict saved x).frontals = c.frontals.filter saved := by
  rw [← (h.restrict saved x).keys_frontalDims, frontalDims_restrict, ← h.keys_frontalDims,
    List.filter_map]
  rfl

theorem parents_restrict (h : c.Valid) (saved : Key → Bool) (x : Assignment α) :
    (c.restrict saved x).parents = c.parents.filter saved := by
  rw [← (h.restrict saved x).keys_parentDims, parentDims_restrict, ← h.keys_parentDims,
    List.filter_map]
  rfl

theorem remains_restrict_iff (h : c.Valid) (x : Assignment α) (hr : c.Remains saved)
    (hs : ∀ k, saved' k → saved k) :
    (c.restrict saved x).Remains saved' ↔ c.Remains saved' := by
  simp only [Remains, h.keys_restrict, h.frontals_restrict, List.mem_filter, and_imp]
  constructor
  case mp =>
    rintro (ha | ⟨k, ⟨hk, _⟩, hk'⟩)
    case inl =>
      cases hr
      case inl hr => exact .inl fun k hk => ha k hk (hr k hk)
      case inr hr =>
        have ⟨k, hk, hks⟩ := hr
        exact .inr ⟨k, hk, ha k (List.mem_of_mem_take hk) hks⟩
    case inr => exact .inr ⟨k, hk, hk'⟩
  case mpr =>
    rintro (ha | ⟨k, hk, hk'⟩)
    case inl => exact .inl fun k hk _ => ha k hk
    case inr => exact .inr ⟨k, ⟨hk, hs k hk'⟩, hk'⟩

end Valid

-- Conditioning in two steps is conditioning in one, if sums may be taken in any order.
theorem conditioned_conditioned (hadd : ∀ a b c : α, a + b + c = a + c + b) (h : c.Valid)
    (hx : x.Fits c.toFactor.dims) (hs : ∀ k, saved' k → saved k) :
    ∃ r r', c.conditioned saved x = .ok r ∧ c.conditioned saved' x = .ok r' ∧
      (r = none → r' = none) ∧
      ∀ c₁, r = some c₁ → c₁.conditioned saved' x = .ok r' := by
  refine ⟨_, _, h.conditioned_eq hx saved, h.conditioned_eq hx saved', ?_⟩
  by_cases hr : c.Remains saved
  case pos =>
    have hx₁ : x.Fits (c.restrict saved x).toFactor.dims := by
      rw [dims_restrict]
      exact hx.mono (Widths.pick_sublist _ _).subset
    rw [if_pos hr]
    refine ⟨nofun, fun c₁ hc => ?_⟩
    cases hc
    rw [(h.restrict saved x).conditioned_eq hx₁, h.restrict_restrict hadd hs]
    simp only [h.remains_restrict_iff x hr hs]
  case neg =>
    have hr' : ¬c.Remains saved' := fun hr' => hr (hr'.mono hs)
    rw [if_neg hr, if_neg hr']
    exact ⟨fun _ => rfl, nofun⟩

noncomputable def paired : Conditional ℝ where
  keys := [1, 2, 3]
  frontalCount := 2
  rsd := BlockMatrix.ofFn 3 [2, 1, 1, 1] fun i j => if j.val < i.val then 0 else i + j + 1
  model := .unit 3

theorem dims_paired : paired.toFactor.dims = [(1, 2), (2, 1), (3, 1)] :=
  rfl

theorem entry_paired {i j : Nat} (hi : i < 3) (hj : j < 5) :
    paired.rsd.full.entry i j = if j < i then 0 else (i + j + 1 : ℝ) :=
  BlockMatrix.entry_ofFn _ hi hj

theorem valid_paired : paired.Valid := by
  constructor
  case nodup => decide
  case count => rfl
  case last => rfl
  case le => decide
  case square => rfl
  case dim => rfl
  case upper =>
    intro i hi j hj
    have hi : i < 3 := hi
    rw [entry_paired hi (by omega), if_pos hj]
    exact bne_self_eq_false 0
  case admissible =>
    intro s hs
    have hs : s = 1 := (Array.mem_replicate.mp hs).right
    simp [hs]

theorem conditioned_conditioned_paired :
    let x : Assignment ℝ := KeyMap.ofList [(1, #[1, 2]), (2, #[3]), (3, #[4])]
    ∃ c₁ c₂, paired.conditioned (· != 2) x = .ok (some c₁) ∧ c₁.conditioned (· == 1) x =
      .ok (some c₂) ∧
      paired.conditioned (· == 1) x = .ok (some c₂) ∧ c₁.keys = [1, 3] ∧ c₂.keys = [1] := by
  intro x
  have hx : x.Fits paired.toFactor.dims := by
    simp only [Assignment.Fits, dims_paired, List.forall_mem_cons, List.not_mem_nil, false_imp_iff,
      implies_true, and_true]
    exact ⟨⟨_, rfl, rfl⟩, ⟨_, rfl, rfl⟩, ⟨_, rfl, rfl⟩⟩
  have hs : ∀ k : Key, (k == 1) = true → (k != 2) = true := by simp +contextual
  have ⟨r, r', hr, hr', _, h⟩ := conditioned_conditioned add_right_comm valid_paired hx hs
  have hr₁ :=
    hr.symm.trans ((valid_paired.conditioned_eq hx (· != 2)).trans (by rw [if_pos (by decide)]))
  have hr₂ :=
    hr'.symm.trans ((valid_paired.conditioned_eq hx (· == 1)).trans (by rw [if_pos (by decide)]))
  cases hr₁
  cases hr₂
  exact ⟨_, _, hr, h _ rfl, hr', valid_paired.keys_restrict _ _, valid_paired.keys_restrict _ _⟩

end Conditional
end LinearGaussian
