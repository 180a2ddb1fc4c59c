import LinearGaussian.Proofs.Factor
import LinearGaussian.Proofs.KeyMap

namespace LinearGaussian

namespace Widths

variable {ws ws' : Widths} {occurrences : List (Key × Nat)} {order : List Key}

theorem add_eq_ok {k : Key} {d : Nat} (h : ws.add k d = .ok ws') (hn : ws.keys.Nodup) :
    ws'.keys.Nodup ∧ ∀ w, w ∈ ws' ↔ w ∈ ws ∨ w = (k, d) := by
  unfold add at h
  split at h
  case h_1 d' hk =>
    split at h
    case isTrue hd =>
      cases h
      have hm := KeyMap.mem_of_lookup hk
      refine ⟨hn, fun w => ⟨.inl, ?_⟩⟩
      intro hw
      cases hw
      case inl hw => exact hw
      case inr hw => exact hw ▸ hd ▸ hm
    case isFalse => exact absurd h (Outcome.fail_ne_ok _ _)
  case h_2 hk =>
    cases h
    have hk := KeyMap.lookup_eq_none_iff.mp hk
    constructor
    case left =>
      unfold keys
      rw [List.map_append, List.map_singleton]
      have hne : ∀ a d, (a, d) ∈ ws → a ≠ k :=
        fun a d hm he => hk (List.mem_map.mpr ⟨(a, d), hm, he⟩)
      exact List.nodup_append.mpr ⟨hn, List.nodup_singleton _, by simpa [keys] using hne⟩
    case right => simp

theorem foldlM_add_eq_ok (h : occurrences.foldlM (fun ws (k, d) => ws.add k d) ws = .ok ws')
    (hn : ws.keys.Nodup) :
    ws'.keys.Nodup ∧ ∀ w, w ∈ ws' ↔ w ∈ ws ∨ w ∈ occurrences := by
  induction occurrences generalizing ws
  case nil =>
    cases h
    simp [hn]
  case cons o os ih =>
    rw [List.foldlM_cons] at h
    have ⟨us, hu, h⟩ := Outcome.bind_eq_ok.mp h
    have ⟨hun, hum⟩ := add_eq_ok hu hn
    have ⟨hn', hm'⟩ := ih h hun
    simp [hn', hm', hum, or_assoc]

theorem ofOccurrences_eq_ok (h : ofOccurrences occurrences = .ok ws) :
    ws.keys.Nodup ∧ ∀ w, w ∈ ws ↔ w ∈ occurrences := by
  simpa using foldlM_add_eq_ok h .nil

theorem keys_add {k : Key} {d : Nat} (h : ws.add k d = .ok ws') :
    ws'.keys = if k ∈ ws.keys then ws.keys else ws.keys ++ [k] := by
  unfold add at h
  split at h
  case h_1 d' hk =>
    split at h
    case isTrue =>
      cases h
      have hk : k ∈ ws.keys := List.mem_map_of_mem (KeyMap.mem_of_lookup hk)
      rw [if_pos hk]
    case isFalse => exact absurd h (Outcome.fail_ne_ok _ _)
  case h_2 hk =>
    cases h
    have hk : k ∉ ws.keys := KeyMap.lookup_eq_none_iff.mp hk
    rw [if_neg hk, keys, List.map_append]
    rfl

theorem keys_foldlM_add (h : occurrences.foldlM (fun ws (k, d) => ws.add k d) ws = .ok ws') :
    ws'.keys = ws.keys ++ ((occurrences.map (·.1)).filter (· ∉ ws.keys)).eraseDups := by
  induction occurrences generalizing ws
  case nil =>
    cases h
    simp
  case cons o os ih =>
    rw [List.foldlM_cons] at h
    obtain ⟨us, hu, h⟩ := Outcome.bind_eq_ok.mp h
    have hk := keys_add hu
    rw [ih h, hk, List.map_cons]
    split
    case isTrue ho => rw [List.filter_cons_of_neg (by simpa using ho)]
    case isFalse ho =>
      rw [List.filter_cons_of_pos (by simpa using ho), List.eraseDups_cons, List.filter_filter,
        List.append_assoc, List.singleton_append]
      congr 3
      apply List.filter_congr
      intro k _
      simp [and_comm, Bool.beq_eq_decide_eq]

theorem keys_ofOccurrences (h : ofOccurrences occurrences = .ok ws) :
    ws.keys = (occurrences.map (·.1)).eraseDups := by
  have hk := keys_foldlM_add h
  simpa [keys] using hk

theorem add_eq_error {k : Key} {d : Nat} {e : Fault} (h : ws.add k d = .error e) :
    ∃ d', e = .error (.dimensionMismatch k d' d) := by
  unfold add at h
  split at h
  case h_1 d' _ =>
    split at h
    case isTrue => contradiction
    case isFalse =>
      cases h
      exact ⟨d', rfl⟩
  case h_2 => contradiction

theorem foldlM_add_eq_error {e : Fault}
    (h : occurrences.foldlM (fun ws (k, d) => ws.add k d) ws = .error e) :
    ∃ k d d', e = .error (.dimensionMismatch k d d') := by
  induction occurrences generalizing ws
  case nil => contradiction
  case cons o os ih =>
    rw [List.foldlM_cons] at h
    cases Outcome.bind_eq_error.mp h
    case inl h =>
      have ⟨d, he⟩ := add_eq_error h
      exact ⟨_, _, _, he⟩
    case inr h =>
      have ⟨_, _, h⟩ := h
      exact ih h

-- No variable occurs with two dimensions.
def Consistent (occurrences : List (Key × Nat)) : Prop :=
  ∀ v ∈ occurrences, ∀ w ∈ occurrences, v.1 = w.1 → v.2 = w.2

theorem exists_add (h : Consistent occurrences) (hw : ws ⊆ occurrences) {o : Key × Nat}
    (ho : o ∈ occurrences) :
    ∃ us, ws.add o.1 o.2 = .ok us ∧ us ⊆ occurrences := by
  cases hl : KeyMap.lookup o.1 ws
  case none => exact ⟨ws ++ [o], by simp [add, hl], List.append_subset.mpr ⟨hw, by simpa using ho⟩⟩
  case some d =>
    have hd : d = o.2 := h _ (hw (KeyMap.mem_of_lookup hl)) o ho rfl
    exact ⟨ws, by simp [add, hl, hd], hw⟩

theorem exists_foldlM_add (h : Consistent occurrences) {os : List (Key × Nat)}
    (ho : os ⊆ occurrences) (hw : ws ⊆ occurrences) :
    ∃ us, os.foldlM (fun ws (k, d) => ws.add k d) ws = .ok us := by
  induction os generalizing ws
  case nil => exact ⟨ws, rfl⟩
  case cons o os ih =>
    have ⟨hom, hos⟩ := List.cons_subset.mp ho
    have ⟨us, hu, hus⟩ := exists_add h hw hom
    have ⟨us', hr⟩ := ih hos hus
    exact ⟨us', Outcome.bind_eq_ok.mpr ⟨us, hu, hr⟩⟩

theorem exists_ofOccurrences (h : Consistent occurrences) :
    ∃ ws, ofOccurrences occurrences = .ok ws :=
  exists_foldlM_add h (List.Subset.refl _) (List.nil_subset _)

theorem mem_reorder (hn : ws.keys.Nodup) (w : Key × Nat) : w ∈ ws.reorder order ↔ w ∈ ws := by
  have hl (k : Key) (d : Nat) := KeyMap.lookup_eq_some_iff hn (k := k) (v := d)
  simp only [reorder, List.mem_append, List.mem_filterMap, Option.map_eq_some_iff, hl,
    List.mem_filter]
  constructor
  case mp =>
    intro h
    cases h
    case inl h =>
      have ⟨k, _, d, hd, hw⟩ := h
      exact hw ▸ hd
    case inr h => exact h.left
  case mpr =>
    intro hw
    by_cases ho : w.1 ∈ order
    case pos => exact .inl ⟨w.1, ho, w.2, hw, rfl⟩
    case neg => exact .inr ⟨hw, by simpa using ho⟩

theorem keys_reorder (ho : ∀ k ∈ order, k ∈ ws.keys) :
    (ws.reorder order).keys = order ++ ws.keys.filter (!order.contains ·) := by
  have hf (ks : List Key) (hks : ∀ k ∈ ks, k ∈ ws.keys) :
      (ks.filterMap fun k => (KeyMap.lookup k ws).map (k, ·)).map (·.1) = ks := by
    induction ks
    case nil => rfl
    case cons k ks ih =>
      have hk := mt KeyMap.lookup_eq_none_iff.mp (not_not_intro (hks k (by simp)))
      have ⟨d, hd⟩ := Option.ne_none_iff_exists'.mp hk
      have hi := ih fun l hl => hks l (by simp [hl])
      simpa [hd] using hi
  unfold reorder keys
  rw [List.map_append, hf order ho, List.filter_map]
  rfl

theorem nodup_reorder (hn : ws.keys.Nodup) (hon : order.Nodup) (ho : ∀ k ∈ order, k ∈ ws.keys) :
    (ws.reorder order).keys.Nodup := by
  rw [keys_reorder ho]
  refine List.nodup_append.mpr ⟨hon, hn.filter _, ?_⟩
  intro a ha b hb he
  simp_all

theorem sum_of_subset {us : Widths} (hn : ws.keys.Nodup) (hs : us ⊆ ws) (hu : us.Nodup)
    {term : Key × Nat → ℝ} (hz : ∀ w ∈ ws, w ∉ us → term w = 0) :
    (ws.map term).sum = (us.map term).sum := by
  rw [← List.sum_toFinset _ hu, ← List.sum_toFinset _ (List.Nodup.of_map _ hn)]
  symm
  apply Finset.sum_subset
  case h => exact fun w hw => List.mem_toFinset.mpr $ hs $ List.mem_toFinset.mp hw
  case hf => exact fun w hw hw' => hz w (List.mem_toFinset.mp hw) (mt List.mem_toFinset.mpr hw')

theorem zip_append_one (ws : Widths) : ws.keys.zip (ws.map (·.2) ++ [1]) = ws := by
  induction ws
  case nil => rfl
  case cons w ws ih => simpa [keys] using ih

end Widths

theorem Vec.concat_fill {β ι : Type} (b : β) (extent : ι → Nat) (ps : List ι) :
    concat (ps.map fun p => fill (extent p) b) = fill (ps.map extent).sum b := by
  induction ps
  case nil => rfl
  case cons p ps ih =>
    rw [List.map_cons, concat_cons, ih]
    simp [fill]

namespace LinearFactor

section Layout

variable {α : Type} [Arith α] [RealLike α] {factors : List (LinearFactor α)} {order : List Key}
  {f : LinearFactor α}

theorem combine_eq_ok (h : combine factors order = .ok f) :
    order.Nodup ∧ ∃ ws, Widths.ofOccurrences (factors.flatMap dims) = .ok ws ∧
      (∀ k ∈ order, k ∈ ws.keys) ∧
      f.keys = (ws.reorder order).keys ∧ f.ab = stacked factors (ws.reorder order) ∧
      if factors.any (·.model.isSome) then
        some <$> NoiseModel.diagonal (Vec.concat (factors.map sigmas)) = .ok f.model
      else f.model = none := by
  have ⟨_, ho, h⟩ := Outcome.bind_eq_ok.mp h
  have ⟨ws, hw, h⟩ := Outcome.bind_eq_ok.mp h
  refine ⟨Outcome.requireDistinct_eq_ok.mp ho, ws, hw, ?_⟩
  cases hf : order.find? fun k => !ws.keys.contains k
  case some k =>
    rw [hf] at h
    exact absurd h (Outcome.fail_ne_ok _ _)
  case none =>
    have hk : ∀ k ∈ order, k ∈ ws.keys := by simpa using List.find?_eq_none.mp hf
    rw [hf] at h
    by_cases hm : factors.any (·.model.isSome)
    case pos =>
      simp only [hm, if_true] at h ⊢
      have ⟨model, hd, h⟩ := Outcome.bind_eq_ok.mp h
      cases h
      exact ⟨hk, rfl, rfl, hd⟩
    case neg =>
      simp only [hm] at h ⊢
      cases h
      exact ⟨hk, rfl, rfl, rfl⟩

theorem combine_eq_error {e : Fault} (h : combine factors order = .error e) :
    (∃ k, e = .error (.duplicateKey k)) ∨ (∃ k d d', e = .error (.dimensionMismatch k d d')) ∨
      (∃ k ∈ order, (∀ f ∈ factors, k ∉ f.dims.map (·.1)) ∧ e = .error (.unknownVariable k)) ∨
      (∃ row, e = .violation (.sigma row)) ∧ ∃ f ∈ factors, ∃ s ∈ f.sigmas,
        NoiseModel.admissible s = false := by
  cases Outcome.bind_eq_error.mp h
  case inl h => exact .inl $ Outcome.requireDistinct_eq_error h
  case inr h =>
    have ⟨_, _, h⟩ := h
    cases Outcome.bind_eq_error.mp h
    case inl h => exact .inr $ .inl $ Widths.foldlM_add_eq_error h
    case inr h =>
      have ⟨ws, hws, h⟩ := h
      refine .inr $ .inr ?_
      -- The dimensions are known now, so only the order and the deviations can be refused.
      cases hk : order.find? fun k => !ws.keys.contains k
      case some k =>
        rw [hk] at h
        cases h
        have hw : k ∉ ws.keys := by simpa using List.find?_some hk
        refine .inl ⟨k, List.mem_of_find?_eq_some hk, fun f hf hm => hw ?_, rfl⟩
        have ⟨w, hw, he⟩ := List.mem_map.mp hm
        have hd : w ∈ factors.flatMap dims := List.mem_flatMap.mpr ⟨f, hf, hw⟩
        exact he ▸ List.mem_map_of_mem (((Widths.ofOccurrences_eq_ok hws).right w).mpr hd)
      case none =>
        rw [hk] at h
        by_cases hm : factors.any (·.model.isSome)
        case pos =>
          simp only [hm, if_true] at h
          have h := (Outcome.bind_eq_error.mp h).resolve_right nofun
          have ⟨hr, s, hs, ha⟩ := NoiseModel.diagonal_eq_error (Outcome.map_eq_error.mp h)
          have ⟨v, hv, hs⟩ := Vec.mem_concat.mp hs
          have ⟨f, hf, hv⟩ := List.mem_map.mp hv
          exact .inr ⟨hr, f, hf, s, hv ▸ hs, ha⟩
        case neg =>
          simp only [hm] at h
          contradiction

theorem sigmas_combine (h : combine factors order = .ok f) :
    f.sigmas = Vec.concat (factors.map sigmas) := by
  have ⟨_, _, _, _, _, hab, hm⟩ := combine_eq_ok h
  split at hm
  case isTrue =>
    have ⟨m, hd, hs⟩ := Outcome.map_eq_ok.mp hm
    simp [sigmas, ← hs, (NoiseModel.diagonal_eq_ok.mp hd).left]
  case isFalse hn =>
    have hg : ∀ g ∈ factors, g.sigmas = Vec.fill g.rows 1 := by
      intro g hg
      have : g.model = none := by simpa using fun hs => hn (List.any_eq_true.mpr ⟨g, hg, hs⟩)
      simp [sigmas, this]
    rw [List.map_congr_left hg, Vec.concat_fill, sigmas, hm, rows, hab]
    rfl

theorem rows_combine (h : combine factors order = .ok f) : f.rows = (factors.map rows).sum := by
  have ⟨_, _, _, _, _, hab, _⟩ := combine_eq_ok h
  rw [rows, hab]
  rfl

theorem dims_combine (h : combine factors order = .ok f) :
    f.ab = stacked factors f.dims ∧ ∃ ws, Widths.ofOccurrences (factors.flatMap dims) = .ok ws ∧
      (∀ k ∈ order, k ∈ ws.keys) ∧ f.dims = ws.reorder order := by
  have ⟨_, ws, hw, ho, hk, hab, _⟩ := combine_eq_ok h
  have hd : f.dims = ws.reorder order := by
    rw [dims, hk, hab]
    exact Widths.zip_append_one _
  exact ⟨hd ▸ hab, ws, hw, ho, hd⟩

theorem mem_dims_combine (h : combine factors order = .ok f) {w : Key × Nat} :
    w ∈ f.dims ↔ ∃ g ∈ factors, w ∈ g.dims := by
  have ⟨_, ws, hw, _, hd⟩ := dims_combine h
  have ⟨hn, hm⟩ := Widths.ofOccurrences_eq_ok hw
  rw [hd, Widths.mem_reorder hn, hm, List.mem_flatMap]

theorem keys_combine (h : combine factors order = .ok f) : ∃ rest, f.keys = order ++ rest := by
  have ⟨_, ws, _, ho, hk, _, _⟩ := combine_eq_ok h
  exact ⟨_, hk.trans $ Widths.keys_reorder ho⟩

theorem keys_combine_eq (hf : ∀ g ∈ factors, g.WellFormed) (h : combine factors order = .ok f) :
    f.keys = order ++ (factors.flatMap (·.keys)).eraseDups.filter (· ∉ order) := by
  obtain ⟨_, ws, hw, ho, hk, _, _⟩ := combine_eq_ok h
  have hf : (factors.flatMap dims).map (·.1) = factors.flatMap (·.keys) := by
    rw [List.map_flatMap]
    exact List.flatMap_congr fun g hg => (hf g hg).keys_dims
  rw [hk, Widths.keys_reorder ho, Widths.keys_ofOccurrences hw, hf]
  congr 2
  funext k
  simp

theorem wellFormed_combine (hf : ∀ g ∈ factors, g.WellFormed) (h : combine factors order = .ok f) :
    f.WellFormed := by
  obtain ⟨hn, ws, hw, ho, hk, hab, hm⟩ := combine_eq_ok h
  obtain ⟨hws, _⟩ := Widths.ofOccurrences_eq_ok hw
  have hl : f.keys.length = ((ws.reorder order).map (·.2)).length := by simp [hk, Widths.keys]
  have hwidths : f.ab.widths = (ws.reorder order).map (·.2) ++ [1] := by
    rw [hab]
    rfl
  constructor
  case nodup => exact hk ▸ Widths.nodup_reorder hws hn ho
  case count => simp [BlockMatrix.count, hwidths, hl]
  case last => simp [hwidths, hl]
  case model =>
    intro m hm'
    have hs : f.sigmas = m.sigmas := by simp [sigmas, hm']
    rw [sigmas_combine h] at hs
    constructor
    case left =>
      rw [NoiseModel.dim, ← hs, Vec.size_concat, rows_combine h, List.map_map]
      congr 1
      exact List.map_congr_left fun g hg => (hf g hg).size_sigmas
    case right =>
      split at hm
      case isTrue =>
        obtain ⟨_, hd, _⟩ := Outcome.map_eq_ok.mp hm
        exact hs ▸ (NoiseModel.diagonal_eq_ok.mp hd).right
      case isFalse => simp [hm] at hm'

-- Deviations are checked when factors are combined, but those of well-formed factors pass.
theorem diagonal_sigmas [UnitDeviations α] (hf : ∀ g ∈ factors, g.WellFormed) :
    NoiseModel.diagonal (Vec.concat (factors.map sigmas)) =
      .ok ⟨Vec.concat (factors.map sigmas)⟩ := by
  refine NoiseModel.diagonal_eq_ok.mpr ⟨rfl, fun s hs => ?_⟩
  have ⟨v, hv, hs⟩ := Vec.mem_concat.mp hs
  have ⟨g, hg, he⟩ := List.mem_map.mp hv
  exact (hf g hg).admissible_of_mem_sigmas (he ▸ hs)

theorem exists_combine [UnitDeviations α] (hf : ∀ g ∈ factors, g.WellFormed) (hn : order.Nodup)
    {ws : Widths} (hw : Widths.ofOccurrences (factors.flatMap dims) = .ok ws)
    (ho : ∀ k ∈ order, k ∈ ws.keys) :
    ∃ f, combine factors order = .ok f := by
  have hk : order.find? (fun k => !ws.keys.contains k) = none := by
    simpa [List.find?_eq_none] using ho
  have hr : requireDistinct order = .ok () := Outcome.requireDistinct_eq_ok.mpr hn
  simp only [combine, hr, hw, hk, diagonal_sigmas hf, Outcome.ok_bind, Outcome.map_ok,
    Outcome.pure_eq_ok]
  split <;> exact ⟨_, rfl⟩

theorem combine_ne_violated [UnitDeviations α] (hf : ∀ g ∈ factors, g.WellFormed) (order : List Key)
    (v : Violation) :
    combine factors order ≠ violated v := by
  intro h
  rcases combine_eq_error h with ⟨_, he⟩ | ⟨_, _, _, he⟩ | ⟨_, _, _, he⟩ | ⟨_, g, hg, s, hs, ha⟩
  case inr.inr.inr => exact absurd ((hf g hg).admissible_of_mem_sigmas hs) (by simp [ha])
  all_goals cases he

end Layout

variable {factors : List (LinearFactor ℝ)} {order : List Key} {f : LinearFactor ℝ}

theorem image_eq_of_subset {g : LinearFactor ℝ} (hg : g.WellFormed) {ws : Widths}
    (hn : ws.keys.Nodup) (hs : g.dims ⊆ ws) (i : Nat) (p : Point) :
    (ws.map fun w => ∑ j ∈ Finset.range w.2, g.coefficient w.1 i j * p w.1 j).sum =
      g.image i p := by
  refine Widths.sum_of_subset hn hs (List.Nodup.of_map _ (hg.keys_dims ▸ hg.nodup))
    fun w hw hw' => ?_
  simp [coefficient_of_not_mem ((hg.mem_dims_or hn hs hw).resolve_left hw')]

theorem residual_eq_of_subset {g : LinearFactor ℝ} (hg : g.WellFormed) {ws : Widths}
    (hn : ws.keys.Nodup) (hs : g.dims ⊆ ws) (i : Nat) (p : Point) :
    (ws.map fun w => ∑ j ∈ Finset.range w.2, g.coefficient w.1 i j * p w.1 j).sum -
      g.ab.full.entry i (g.ab.offsetAt g.keys.length) = g.residual i p := by
  rw [image_eq_of_subset hg hn hs, residual_eq_image]

theorem residual_combine (hf : ∀ g ∈ factors, g.WellFormed) (h : combine factors order = .ok f)
    {i : Nat} (hi : i < f.rows) :
    f.residual i = endToEnd 0 (factors.map fun g => (g.rows, g.residual)) i := by
  have hw := wellFormed_combine hf h
  have ⟨hab, _⟩ := dims_combine h
  have hn : (f.dims.map (·.1)).Nodup := hw.keys_dims ▸ hw.nodup
  rw [← endToEnd_map (fun row p => ∑ j ∈ Finset.range f.ab.full.cols, row j * stack f.dims p j)
    (b := fun _ => 0)
    (u := fun g => g.spread f.dims)]
  case hb => simp [Pi.zero_def]
  case h =>
    intro g hg j
    funext p
    have hs : g.dims ⊆ f.dims := fun w hw => (mem_dims_combine h).mpr ⟨g, hg, hw⟩
    rw [hw.cols_eq, width, sum_spread, residual_eq_of_subset (hf g hg) hn hs]
  funext p
  rw [residual_eq_sum hw]
  apply Finset.sum_congr rfl
  intro j hj
  congr 1
  have hj : j < f.ab.widths.sum := f.ab.cover ▸ Finset.mem_range.mp hj
  rw [hw.widths_eq] at hj
  rw [hab]
  exact BlockMatrix.entry_ofFn _ (rows_combine h ▸ hi) hj

theorem measurements_combine (hf : ∀ g ∈ factors, g.WellFormed)
    (h : combine factors order = .ok f) :
    f.measurements = factors.flatMap measurements := by
  let layout : List (Nat × (Nat → Measurement Point)) :=
    factors.map fun g => (g.rows, g.measurement)
  have hm : ∀ i ∈ List.range f.rows, f.measurement i = endToEnd ⟨1, 0⟩ layout i := by
    intro i hi
    have hs : (endToEnd ⟨1, 0⟩ layout i).sigma = f.sigmas.getD i 1 := by
      rw [sigmas_combine h, Vec.getD_concat 1 rows sigmas (fun g hg => (hf g hg).size_sigmas)]
      exact endToEnd_map Measurement.sigma rfl rows (fun _ _ _ => rfl) i
    have hr : (endToEnd ⟨1, 0⟩ layout i).residual = f.residual i := by
      rw [residual_combine hf h (List.mem_range.mp hi)]
      exact endToEnd_map Measurement.residual rfl rows (fun _ _ _ => rfl) i
    rw [measurement, ← hs, ← hr]
  rw [measurements, List.map_congr_left hm, rows_combine h, map_endToEnd]
  rfl

end LinearFactor
end LinearGaussian
