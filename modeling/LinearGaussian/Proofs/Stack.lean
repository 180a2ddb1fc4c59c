import LinearGaussian.Proofs.Columns

namespace LinearGaussian

theorem Vec.toList_concat {β : Type} (vs : List (Array β)) :
    (concat vs).toList = vs.flatMap (·.toList) := by
  induction vs
  case nil => rfl
  case cons v vs ih => rw [concat_cons, Array.toList_append, ih, List.flatMap_cons]

theorem Mat.entry_zeros {α : Type} [Arith α] (m n i j : Nat) :
    (zeros m n : Mat α).entry i j = 0 := by
  simp [entry, zeros, ofFn]

namespace Window

variable {α : Type} [Arith α] {w : Window α} {start len : Nat}

theorem exists_takeRows (h : start + len ≤ w.rows) :
    ∃ p, w.takeRows start len = .ok p ∧ p.rows = len ∧ p.cols = w.cols ∧
      ∀ i < len, ∀ j < w.cols, p.toMat.entry i j = w.toMat.entry (start + i) j := by
  refine ⟨_, dif_pos h, rfl, rfl, fun i hi j hj => ?_⟩
  have hi' : start + i < w.rows := by omega
  rw [w.entry_toMat hi' hj, ← Nat.add_assoc]
  exact entry_toMat _ hi hj

end Window

namespace LinearFactor

variable {α : Type} [Arith α] [RealLike α] {factors : List (LinearFactor α)} {order : List Key}
  {f g : LinearFactor α} {w : Key × Nat} {i j l r : Nat}

section Blocks

theorem WellFormed.exists_blockFor (h : f.WellFormed) (hw : w ∈ f.dims) :
    ∃ b, f.blockFor? w.1 = .ok (some b) ∧ b.rows = f.rows ∧ b.cols = w.2 ∧
      ∀ i < f.rows, ∀ j < w.2, b.toMat.entry i j = f.coefficient w.1 i j := by
  obtain ⟨pos, hp, hd⟩ := List.getElem_of_mem hw
  have hp' : pos < f.keys.length := hp.trans_eq h.length_dims
  obtain ⟨_, hl, hg⟩ := h.getElem_dims hp'
  obtain ⟨b, hb, hbase, hrow, hcol, hrows, hcols⟩ := f.ab.block_eq hl
  cases hd.symm.trans hg
  refine ⟨b, by simp [blockFor?, h.position?_getElem hp', hb], hrows, hcols, fun i hir j hj => ?_⟩
  rw [b.entry_toMat (hir.trans_eq hrows.symm) (hj.trans_eq hcols.symm), hbase, hrow, hcol,
    Nat.zero_add, h.coefficient_getElem hp']

theorem WellFormed.exists_dims (h : f.WellFormed) {k : Key} (hk : k ∈ f.keys) :
    ∃ d, (k, d) ∈ f.dims := by
  rw [← h.keys_dims] at hk
  obtain ⟨w, hw, rfl⟩ := List.mem_map.mp hk
  exact ⟨w.2, hw⟩

end Blocks

section Rows

def firstRow (factors : List (LinearFactor α)) (i : Nat) : Nat :=
  ((factors.take i).map rows).sum

omit [Arith α] [RealLike α] in
theorem eq_take_append (hg : factors[i]? = some g) :
    factors = factors.take i ++ g :: factors.drop (i + 1) := by
  obtain ⟨hi, rfl⟩ := List.getElem?_eq_some_iff.mp hg
  rw [← List.drop_eq_getElem_cons, List.take_append_drop]

omit [Arith α] [RealLike α] in
theorem firstRow_add_le (hg : factors[i]? = some g) :
    firstRow factors i + g.rows ≤ (factors.map rows).sum := by
  have hs := congrArg (fun fs => (fs.map rows).sum) (eq_take_append hg)
  simp only [List.map_append, List.map_cons, List.sum_append, List.sum_cons] at hs
  unfold firstRow
  omega

omit [Arith α] [RealLike α] in
theorem endToEnd_firstRow {β : Type} (b : β) (u : LinearFactor α → Nat → β)
    (hg : factors[i]? = some g) (hr : r < g.rows) :
    endToEnd b (factors.map fun f => (f.rows, u f)) (firstRow factors i + r) = u g r := by
  have he := endToEnd_append b ((factors.take i).map fun f => (f.rows, u f))
    ((factors.drop (i + 1)).map fun f => (f.rows, u f)) g.rows (u g) hr
  rw [← List.map_cons (f := fun f => (f.rows, u f)), ← List.map_append, ← eq_take_append hg,
    List.map_map] at he
  exact he

theorem entry_combine (h : combine factors order = .ok f) (hi : i < f.rows)
    (hj : j < f.ab.full.cols) :
    f.ab.full.entry i j = endToEnd (fun _ => 0)
      (factors.map fun g => (g.rows, g.spread f.dims)) i j := by
  obtain ⟨hab, _⟩ := dims_combine h
  have hj : j < (stacked factors f.dims).full.cols := hab ▸ hj
  rw [hab]
  exact BlockMatrix.entry_ofFn _ (rows_combine h ▸ hi) hj

theorem coefficient_combine (hf : ∀ g ∈ factors, g.WellFormed) (h : combine factors order = .ok f)
    (hi : i < f.rows) (hw : w ∈ f.dims) (hl : l < w.2) :
    f.coefficient w.1 i l =
      endToEnd 0 (factors.map fun g => (g.rows, fun r => g.coefficient w.1 r l)) i := by
  have hc := wellFormed_combine hf h
  have hle := Widths.start_add_le hc.nodup_dims hw
  have hcols := hc.cols_eq
  rw [hc.coefficient_of_mem hw, entry_combine h hi (by unfold width at hcols; omega)]
  exact endToEnd_map (fun row : Nat → α => row (Widths.start f.dims w.1 + l)) rfl rows
    (fun g _ r => g.spread_start hc.nodup_dims hw r hl) i

theorem rhs_combine (hf : ∀ g ∈ factors, g.WellFormed) (h : combine factors order = .ok f) :
    f.b = Vec.concat (factors.map b) := by
  have hc := wellFormed_combine hf h
  have hb (g : LinearFactor α) :
      g.b.toList = (List.range g.rows).map fun r =>
        g.ab.full.entry r (g.ab.offsetAt g.keys.length) := by
    rw [b, Array.toList_ofFn, List.ofFn_eq_map, ← List.map_coe_finRange_eq_range, List.map_map]
    rfl
  apply Array.toList_inj.mp
  rw [Vec.toList_concat, List.flatMap_map, List.flatMap_congr fun g _ => hb g,
    ← map_endToEnd 0 rows, hb, rows_combine h]
  apply List.map_congr_left
  intro i hi
  have hi : i < f.rows := rows_combine h ▸ List.mem_range.mp hi
  have hcols := hc.cols_eq
  rw [hc.offsetAt_length, entry_combine h hi (by omega)]
  exact endToEnd_map (fun row : Nat → α => row f.width) rfl rows (fun g _ r => endToEnd_sum ..) i

end Rows

section Stacks

-- What the rows from `start` on say of each variable is what the factor `g` says of it.
structure Holds (f : LinearFactor α) (start : Nat) (g : LinearFactor α) : Prop where
  mentioned : ∀ k ∈ g.keys, ∃ w part u, f.blockFor? k = .ok (some w) ∧ w.takeRows start g.rows =
    .ok part ∧
    g.blockFor? k = .ok (some u) ∧ part.toMat = u.toMat
  absent    : ∀ k ∈ f.keys, k ∉ g.keys → ∃ w part, f.blockFor? k = .ok (some w) ∧
  w.takeRows start g.rows = .ok part ∧
    part.toMat = Mat.zeros g.rows w.cols

-- The factor has the rows of all others, over the variables of the order and then the others as
-- they first appear. Where some of them have deviations, the others count as having unit
-- deviations.
structure Stacks (f : LinearFactor α) (factors : List (LinearFactor α)) (order : List Key) :
    Prop where
  keys   : f.keys = order ++ (factors.flatMap (·.keys)).eraseDups.filter (· ∉ order)
  nodup  : f.keys.Nodup
  rows   : f.rows = (factors.map (·.rows)).sum
  parts  : ∀ i g, factors[i]? = some g → f.Holds (firstRow factors i) g
  rhs    : f.b = Vec.concat (factors.map (·.b))
  model  : f.model.isSome ↔ ∃ g ∈ factors, g.model.isSome
  sigmas : ∀ m, f.model = some m →
    m.sigmas = Vec.concat (factors.map fun g => (g.model.getD (.unit g.rows)).sigmas)

theorem exists_rows (hf : ∀ g ∈ factors, g.WellFormed) (h : combine factors order = .ok f)
    (hg : factors[i]? = some g) (hw : w ∈ f.dims) :
    ∃ b part, f.blockFor? w.1 = .ok (some b) ∧ b.takeRows (firstRow factors i) g.rows = .ok part ∧
      part.rows = g.rows ∧ b.cols = w.2 ∧ part.cols = w.2 ∧
      ∀ r < g.rows, ∀ l < w.2, part.toMat.entry r l = g.coefficient w.1 r l := by
  obtain ⟨b, hb, hrows, hcols, hentry⟩ := (wellFormed_combine hf h).exists_blockFor hw
  have hle : firstRow factors i + g.rows ≤ f.rows := rows_combine h ▸ firstRow_add_le hg
  obtain ⟨part, hp, hpr, hpc, hpe⟩ := b.exists_takeRows (hle.trans_eq hrows.symm)
  refine ⟨b, part, hb, hp, hpr, hcols, hpc.trans hcols, fun r hr l hl => ?_⟩
  have hr' : firstRow factors i + r < f.rows := by omega
  rw [hpe r hr l (hl.trans_eq hcols.symm), hentry _ hr' l hl, coefficient_combine hf h hr' hw hl]
  exact endToEnd_firstRow 0 (fun g r => g.coefficient w.1 r l) hg hr

theorem holds_combine (hf : ∀ g ∈ factors, g.WellFormed) (h : combine factors order = .ok f)
    (hg : factors[i]? = some g) : f.Holds (firstRow factors i) g := by
  have hgm := List.mem_of_getElem? hg
  constructor
  case mentioned =>
    intro k hk
    obtain ⟨d, hw⟩ := (hf g hgm).exists_dims hk
    obtain ⟨b, part, hb, hp, hpr, _, hpc, hpe⟩ :=
      exists_rows hf h hg ((mem_dims_combine h).mpr ⟨g, hgm, hw⟩)
    obtain ⟨u, hu, hur, huc, hue⟩ := (hf g hgm).exists_blockFor hw
    refine ⟨b, part, u, hb, hp, hu, Mat.ext_entry (hpr.trans hur.symm) (hpc.trans huc.symm)
      fun r hr l hl => ?_⟩
    rw [hpe r (hr.trans_eq hpr) l (hl.trans_eq hpc), hue r (hr.trans_eq hpr) l (hl.trans_eq hpc)]
  case absent =>
    intro k hk hkg
    obtain ⟨d, hw⟩ := (wellFormed_combine hf h).exists_dims hk
    obtain ⟨b, part, hb, hp, hpr, hbc, hpc, hpe⟩ := exists_rows hf h hg hw
    refine ⟨b, part, hb, hp, Mat.ext_entry hpr (hpc.trans hbc.symm) fun r hr l hl => ?_⟩
    rw [hpe r (hr.trans_eq hpr) l (hl.trans_eq hpc), coefficient_of_not_mem hkg, Mat.entry_zeros]

-- Factors that can be combined are stacked.
theorem stacks_combine (hf : ∀ g ∈ factors, g.WellFormed) (h : combine factors order = .ok f) :
    f.Stacks factors order := by
  constructor
  case keys => exact keys_combine_eq hf h
  case nodup => exact (wellFormed_combine hf h).nodup
  case rows => exact rows_combine h
  case parts => exact fun i g => holds_combine hf h
  case rhs => exact rhs_combine hf h
  case model =>
    obtain ⟨_, _, _, _, _, _, hm⟩ := combine_eq_ok h
    split at hm
    case isTrue ha =>
      obtain ⟨m, _, hm⟩ := Outcome.map_eq_ok.mp hm
      simpa [← hm] using ha
    case isFalse ha => simpa [hm] using ha
  case sigmas =>
    intro m hm
    have hs : m.sigmas = f.sigmas := by simp [sigmas, hm]
    rw [hs, sigmas_combine h]
    congr 2
    funext g
    cases hg : g.model <;> simp [sigmas, hg, NoiseModel.unit]

def twoRows : LinearFactor Float :=
  ⟨[3, 2], BlockMatrix.ofFn 2 [0, 1, 1] fun i j => if i.val = j.val then 1 else 0, none⟩

def mingled : List (LinearFactor Float) :=
  [scalarRow [2, 0] [0 / 0, 1] 2 0, twoRows, ofRhs #[3],
    ⟨[0, 4], BlockMatrix.ofFn 0 [1, 2, 1] fun _ _ => 0, none⟩]

theorem wellFormed_mingled : ∀ g ∈ mingled, g.WellFormed := by
  simp only [mingled, List.forall_mem_cons, List.not_mem_nil, false_imp_iff, implies_true, and_true]
  exact ⟨wellFormed_scalarRow_of_admissible (by decide) UnitDeviations.zero,
    ⟨by decide, rfl, rfl, nofun⟩, wellFormed_ofRhs _, by decide, rfl, rfl, nofun⟩

theorem stacks_combine_mingled :
    ∃ f, combine mingled [4, 2] = .ok f ∧ f.Stacks mingled [4, 2] ∧ f.keys = [4, 2, 0, 3] ∧
      f.rows = 4 ∧ f.Holds 1 twoRows ∧ f.model.isSome := by
  have hws : Widths.ofOccurrences (mingled.flatMap dims) = .ok [(2, 1), (0, 1), (3, 0), (4, 2)] :=
    rfl
  obtain ⟨f, hc⟩ : ∃ f, combine mingled [4, 2] = .ok f :=
    exists_combine wellFormed_mingled (by decide) hws (by decide)
  have h := stacks_combine wellFormed_mingled hc
  exact ⟨f, hc, h, h.keys.trans (by decide), h.rows.trans (by decide), h.parts 1 _ rfl,
    h.model.mpr ⟨_, .head _, rfl⟩⟩

end Stacks

end LinearFactor
end LinearGaussian
