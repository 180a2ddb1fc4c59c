import LinearGaussian.Proofs.Columns

namespace LinearGaussian

theorem Outcome.ite_fail_eq_ok {β : Type} {p : Prop} [Decidable p] {e : Error} {r : Outcome β}
    {b : β} :
    (if p then fail e else r) = .ok b ↔ ¬p ∧ r = .ok b := by
  by_cases h : p <;> simp [h]

namespace Conditional

variable {α : Type} [Arith α] [RealLike α] {c c' : Conditional α} {v w : Key × Nat} {i j l r : Nat}

section Valid

-- There is one block for each variable and a last one of a single column, as many rows as columns
-- of frontal variables, nothing below the diagonal, and one admissible deviation for each row.
structure Valid (c : Conditional α) : Prop where
  nodup      : c.keys.Nodup
  count      : c.rsd.count = c.keys.length + 1
  last       : c.rsd.widths[c.keys.length]? = some 1
  le         : c.frontalCount ≤ c.keys.length
  square     : c.rows = c.frontalDim
  dim        : c.model.dim = c.rows
  upper      : ∀ i < c.rows, ∀ j < i, (c.rsd.full.entry i j != 0) = false
  admissible : ∀ s ∈ c.model.sigmas, NoiseModel.admissible s = true

theorem firstBelowDiagonal?_eq_none_iff {a : Mat α} {n : Nat} :
    firstBelowDiagonal? a n = none ↔ ∀ i < n, ∀ j < i, (a.entry i j != 0) = false := by
  simp only [firstBelowDiagonal?, List.findSome?_eq_none_iff, List.mem_range]
  constructor
  case mp =>
    intro h i hi j hj
    have := h j (hj.trans hi) i hi
    simp_all
  case mpr =>
    intro h j hj i hi
    rw [if_neg]
    intro ⟨hji, hne⟩
    have := h i hi j hji
    simp_all

theorem ofParts_eq_ok {keys : List Key} {n : Nat} {rsd : BlockMatrix α} {model : NoiseModel α} :
    ofParts keys n rsd model = .ok c ↔
      (rsd.count = keys.length + 1 ∧ rsd.widths[keys.length]? = some 1) ∧ n ≤ keys.length ∧
        keys.Nodup ∧
        rsd.offsetAt n = rsd.rows ∧ model.dim = rsd.rows ∧
        firstBelowDiagonal? rsd.full (rsd.offsetAt n) = none ∧
        ⟨keys, n, rsd, model⟩ = c := by
  simp only [ofParts, Outcome.fail_bind, Outcome.ite_fail_eq_ok, Outcome.bind_eq_ok,
    Outcome.requireDistinct_eq_ok, Outcome.pure_eq_ok, not_or, not_not, not_lt, exists_const]
  cases firstBelowDiagonal? rsd.full (rsd.offsetAt n) <;> simp

-- This is what is checked when a density and its noise model are built.
theorem valid_iff : c.Valid ↔
    ofParts c.keys c.frontalCount c.rsd c.model = .ok c ∧ NoiseModel.diagonal c.model.sigmas =
      .ok c.model := by
  rw [ofParts_eq_ok, NoiseModel.diagonal_eq_ok, firstBelowDiagonal?_eq_none_iff]
  constructor
  case mp =>
    intro h
    have hs : c.rsd.offsetAt c.frontalCount = c.rsd.rows := h.square.symm
    exact ⟨⟨⟨h.count, h.last⟩, h.le, h.nodup, hs, h.dim, hs ▸ h.upper, rfl⟩, rfl, h.admissible⟩
  case mpr =>
    intro ⟨⟨⟨hc, hl⟩, hle, hn, hs, hd, hu, _⟩, _, ha⟩
    exact ⟨hn, hc, hl, hle, hs.symm, hd, fun i hi => hu i (hi.trans_eq hs.symm), ha⟩

namespace Valid

theorem factor (h : c.Valid) : c.toFactor.WellFormed :=
  wellFormed_toFactor h.nodup h.count h.last h.dim h.admissible

theorem nodup_frontalDims (h : c.Valid) : (Widths.keys c.frontalDims).Nodup :=
  h.factor.nodup_dims.sublist ((List.take_sublist _ _).map _)

theorem keys_frontalDims (h : c.Valid) : c.frontalDims.map (·.1) = c.frontals :=
  Conditional.keys_frontalDims h.factor

theorem keys_parentDims (h : c.Valid) : c.parentDims.map (·.1) = c.parents :=
  Conditional.keys_parentDims h.factor

theorem length_frontalDims (h : c.Valid) : c.frontalDims.length = c.frontalCount := by
  rw [frontalDims, List.length_take, h.factor.length_dims]
  exact Nat.min_eq_left h.le

theorem rows_eq (h : c.Valid) : c.rows = (c.frontalDims.map (·.2)).sum := by
  rw [h.square]
  exact h.factor.offsetAt_eq h.le

end Valid
end Valid

section Rows

def rowOf (c : Conditional α) (k : Key) (l : Nat) : Nat :=
  Widths.start c.toFactor.dims k + l

def rhs (c : Conditional α) (i : Nat) : α :=
  c.rsd.full.entry i (c.rsd.offsetAt c.keys.length)

theorem rowOf_eq (hv : v ∈ c.frontalDims) : c.rowOf v.1 l = Widths.start c.frontalDims v.1 + l := by
  rw [rowOf, ← c.frontalDims_append_parentDims, Widths.start_append_of_mem hv]

namespace Valid

theorem exists_rowOf (h : c.Valid) (hi : i < c.rows) :
    ∃ v ∈ c.frontalDims, ∃ l < v.2, i = c.rowOf v.1 l := by
  have ⟨v, hv, l, hl, he⟩ := Widths.exists_start h.nodup_frontalDims (h.rows_eq ▸ hi)
  exact ⟨v, hv, l, hl, he.trans (rowOf_eq hv).symm⟩

theorem rowOf_lt (h : c.Valid) (hv : v ∈ c.frontalDims) (hl : l < v.2) :
    c.rowOf v.1 l < c.rows := by
  have hle := Widths.start_add_le h.nodup_frontalDims hv
  rw [rowOf_eq hv, h.rows_eq]
  omega

theorem column_cases (h : c.Valid) (hj : j < c.rsd.full.cols) :
    (∃ w ∈ c.toFactor.dims, ∃ l < w.2, j = Widths.start c.toFactor.dims w.1 + l) ∨
      j = c.rsd.offsetAt c.keys.length := by
  have hc : c.rsd.full.cols = c.toFactor.width + 1 := h.factor.cols_eq
  by_cases hw : j < c.toFactor.width
  case pos => exact .inl (Widths.exists_start h.factor.nodup_dims hw)
  case neg =>
    exact .inr ((Nat.le_antisymm (by omega) (by omega)).trans h.factor.offsetAt_length.symm)

end Valid
end Rows

section Ext

omit [Arith α] [RealLike α] in
theorem eq_of_parts (hk : c.keys = c'.keys) (hc : c.frontalCount = c'.frontalCount)
    (hf : c.rsd.full = c'.rsd.full) (hw : c.rsd.widths = c'.rsd.widths)
    (hs : c.model.sigmas = c'.model.sigmas) : c = c' := by
  have ⟨_, _, ⟨_, _, _⟩, ⟨_⟩⟩ := c
  have ⟨_, _, ⟨_, _, _⟩, ⟨_⟩⟩ := c'
  cases hk
  cases hc
  cases hf
  cases hw
  cases hs
  rfl

-- The rows of two densities have the same coefficients, right-hand sides and deviations.
structure SameRow (c : Conditional α) (i : Nat) (c' : Conditional α) (i' : Nat) : Prop where
  coefficient : ∀ w ∈ c.toFactor.dims, ∀ j < w.2, c.toFactor.coefficient w.1 i j =
    c'.toFactor.coefficient w.1 i' j
  rhs         : c.rhs i = c'.rhs i'
  sigma       : c.model.sigmas[i]? = c'.model.sigmas[i']?

namespace Valid

theorem keys_eq (h : c.Valid) (h' : c'.Valid) (hd : c.toFactor.dims = c'.toFactor.dims) :
    c.keys = c'.keys := by
  have hk := congrArg (List.map (·.1)) hd
  rwa [h.factor.keys_dims, h'.factor.keys_dims] at hk

theorem widths_eq (h : c.Valid) (h' : c'.Valid) (hd : c.toFactor.dims = c'.toFactor.dims) :
    c.rsd.widths = c'.rsd.widths := by
  have hw := h.factor.widths_eq
  rw [hd, ← h'.factor.widths_eq] at hw
  exact hw

theorem ext (h : c.Valid) (h' : c'.Valid) (hd : c.toFactor.dims = c'.toFactor.dims)
    (hf : c.frontalCount = c'.frontalCount)
    (hr : ∀ v ∈ c.frontalDims, ∀ l < v.2, SameRow c (c.rowOf v.1 l) c' (c'.rowOf v.1 l)) :
    c = c' := by
  have hk := h.keys_eq h' hd
  have hw := h.widths_eq h' hd
  have hrows : c.rows = c'.rows := by rw [h.rows_eq, h'.rows_eq, frontalDims, frontalDims, hd, hf]
  have hcols : c.rsd.full.cols = c'.rsd.full.cols := by rw [← c.rsd.cover, ← c'.rsd.cover, hw]
  -- Densities of the same dimensions number their rows alike.
  have hsame {i : Nat} (hi : i < c.rows) : SameRow c i c' i := by
    obtain ⟨v, hv, l, hl, he⟩ := h.exists_rowOf hi
    have hr := hr v hv l hl
    have he' : c.rowOf v.1 l = c'.rowOf v.1 l := by rw [rowOf, rowOf, hd]
    rwa [← he', ← he] at hr
  refine eq_of_parts hk hf (Mat.ext_entry hrows hcols fun i hi j hj => ?_) hw
    (Array.ext_getElem? fun i => ?_)
  case refine_1 =>
    cases h.column_cases hj
    case inl hj =>
      obtain ⟨w, hw, l, hl, hj⟩ := hj
      have hc := (hsame hi).coefficient w hw l hl
      rwa [h.factor.coefficient_of_mem hw, h'.factor.coefficient_of_mem (hd ▸ hw), ← hd, ← hj] at hc
    case inr hj =>
      have hr := (hsame hi).rhs
      have ho : c.rsd.offsetAt c.keys.length = c'.rsd.offsetAt c'.keys.length := by
        rw [BlockMatrix.offsetAt, BlockMatrix.offsetAt, hk, hw]
      rwa [Conditional.rhs, Conditional.rhs, ← ho, ← hj] at hr
  case refine_2 =>
    by_cases hi : i < c.rows
    case pos => exact (hsame hi).sigma
    case neg =>
      have hs : c.model.sigmas.size = c.rows := h.dim
      have hs' : c'.model.sigmas.size = c'.rows := h'.dim
      rw [Array.getElem?_eq_none (by omega), Array.getElem?_eq_none (by omega)]

end Valid
end Ext

section Restrict

variable {saved saved' : Key → Bool} {x : Assignment α}

def keptDims (c : Conditional α) (saved : Key → Bool) : Widths :=
  Widths.pick c.toFactor.dims saved

def keptFrontalDims (c : Conditional α) (saved : Key → Bool) : Widths :=
  Widths.pick c.frontalDims saved

def removedDims (c : Conditional α) (saved : Key → Bool) : Widths :=
  Widths.pick c.toFactor.dims (!saved ·)

def keptRows (c : Conditional α) (saved : Key → Bool) : List Nat :=
  Widths.places c.toFactor.dims (c.keptFrontalDims saved)

def terms (c : Conditional α) (x : Assignment α) (i : Nat) (w : Key × Nat) : List α :=
  (List.range w.2).map fun j =>
    c.toFactor.coefficient w.1 i j * (-1 * ((x.get? w.1).getD #[]).getD j 0)

-- The right-hand side of row `i` if the values of all variables are known that are not saved.
def rhsGiven (c : Conditional α) (saved : Key → Bool) (x : Assignment α) (i : Nat) : α :=
  ((c.removedDims saved).flatMap (c.terms x i)).foldl (· + ·) (c.rhs i)

def restrict (c : Conditional α) (saved : Key → Bool) (x : Assignment α) : Conditional α where
  keys := (c.keptDims saved).keys
  frontalCount := (c.keptFrontalDims saved).length
  rsd := BlockMatrix.ofFn (c.keptRows saved).length ((c.keptDims saved).map (·.2) ++ [1]) fun i j =>
    endToEnd (c.rhsGiven saved x (c.keptRows saved)[i])
      ((c.keptDims saved).map fun w => (w.2, c.toFactor.coefficient w.1 (c.keptRows saved)[i])) j
  model := ⟨((c.keptRows saved).map fun i => c.model.sigmas.getD i 1).toArray⟩

section Dims

theorem keptDims_eq_append (c : Conditional α) (saved : Key → Bool) :
    c.keptDims saved = c.keptFrontalDims saved ++ Widths.pick c.parentDims saved := by
  rw [keptDims, ← c.frontalDims_append_parentDims, Widths.pick_append, keptFrontalDims]

theorem dims_restrict (c : Conditional α) (saved : Key → Bool) (x : Assignment α) :
    (c.restrict saved x).toFactor.dims = c.keptDims saved :=
  Widths.zip_append_one _

theorem frontalDims_restrict (c : Conditional α) (saved : Key → Bool) (x : Assignment α) :
    (c.restrict saved x).frontalDims = c.keptFrontalDims saved := by
  rw [frontalDims, dims_restrict, keptDims_eq_append]
  exact List.take_left

theorem parentDims_restrict (c : Conditional α) (saved : Key → Bool) (x : Assignment α) :
    (c.restrict saved x).parentDims = Widths.pick c.parentDims saved := by
  rw [parentDims, dims_restrict, keptDims_eq_append]
  exact List.drop_left

theorem rows_restrict (c : Conditional α) (saved : Key → Bool) (x : Assignment α) :
    (c.restrict saved x).rows = (c.keptRows saved).length :=
  rfl

theorem mem_keptFrontalDims : v ∈ c.keptFrontalDims saved ↔ v ∈ c.frontalDims ∧ saved v.1 :=
  Widths.mem_pick

theorem mem_keptDims : w ∈ c.keptDims saved ↔ w ∈ c.toFactor.dims ∧ saved w.1 :=
  Widths.mem_pick

namespace Valid

theorem nodup_keptDims (h : c.Valid) (saved : Key → Bool) : (c.keptDims saved).keys.Nodup :=
  Widths.nodup_pick h.factor.nodup_dims saved

theorem nodup_keptFrontalDims (h : c.Valid) (saved : Key → Bool) :
    (c.keptFrontalDims saved).keys.Nodup :=
  Widths.nodup_pick h.nodup_frontalDims saved

theorem keptRows_sublist (h : c.Valid) (saved : Key → Bool) :
    (c.keptRows saved).Sublist (List.range c.rows) := by
  have hn := h.factor.nodup_dims
  rw [← c.frontalDims_append_parentDims] at hn
  rw [h.rows_eq, ← Widths.places_append_left hn, c.frontalDims_append_parentDims]
  exact Widths.places_sublist (Widths.pick_sublist _ _)

theorem lt_of_mem_keptRows (h : c.Valid) (hi : i ∈ c.keptRows saved) : i < c.rows :=
  List.mem_range.mp ((h.keptRows_sublist saved).subset hi)

theorem exists_keptRow (h : c.Valid) (hi : i < (c.restrict saved x).rows) :
    ∃ r < c.rows, (c.keptRows saved)[i]? = some r := by
  have hi : i < (c.keptRows saved).length := hi
  exact ⟨_, h.lt_of_mem_keptRows (List.getElem_mem hi), List.getElem?_eq_getElem hi⟩

theorem getElem?_keptRows (h : c.Valid) (x : Assignment α) (hv : v ∈ c.frontalDims) (hs : saved v.1)
    (hl : l < v.2) :
    (c.keptRows saved)[(c.restrict saved x).rowOf v.1 l]? = some (c.rowOf v.1 l) := by
  have hv : v ∈ c.keptFrontalDims saved := mem_keptFrontalDims.mpr ⟨hv, hs⟩
  rw [rowOf, dims_restrict, keptDims_eq_append, Widths.start_append_of_mem hv]
  exact Widths.getElem?_places _ (h.nodup_keptFrontalDims saved) hv hl

end Valid
end Dims

section Entries

theorem entry_restrict (hr : (c.keptRows saved)[i]? = some r)
    (hj : j ≤ ((c.keptDims saved).map (·.2)).sum) :
    (c.restrict saved x).rsd.full.entry i j = endToEnd (c.rhsGiven saved x r)
      ((c.keptDims saved).map fun w => (w.2, c.toFactor.coefficient w.1 r)) j := by
  have ⟨hi, hr⟩ := List.getElem?_eq_some_iff.mp hr
  rw [← hr]
  refine Mat.entry_ofFn _ hi ?_
  rw [List.sum_append, List.sum_singleton]
  exact Nat.lt_succ_of_le hj

theorem rhs_restrict (hr : (c.keptRows saved)[i]? = some r) :
    (c.restrict saved x).rhs i = c.rhsGiven saved x r := by
  have hl : (c.restrict saved x).keys.length = ((c.keptDims saved).map (·.2)).length := by
    simp [restrict, Widths.keys]
  have ho : (c.restrict saved x).rsd.offsetAt (c.restrict saved x).keys.length =
      ((c.keptDims saved).map (·.2)).sum := by
    rw [hl]
    exact congrArg List.sum List.take_left
  rw [rhs, ho, entry_restrict hr le_rfl, endToEnd_sum]

theorem sigma_restrict (hr : (c.keptRows saved)[i]? = some r) :
    (c.restrict saved x).model.sigmas[i]? = some (c.model.sigmas.getD r 1) := by
  simp [restrict, hr]

namespace Valid

theorem entry_start (h : c.Valid) (hr : (c.keptRows saved)[i]? = some r) (hw : w ∈ c.keptDims saved)
    (hj : j < w.2) :
    (c.restrict saved x).rsd.full.entry i (Widths.start (c.keptDims saved) w.1 + j) =
      c.toFactor.coefficient w.1 r j := by
  have hle := Widths.start_add_le (h.nodup_keptDims saved) hw
  rw [entry_restrict hr (by omega)]
  exact Widths.endToEnd_start (h.nodup_keptDims saved) hw _ (fun k => c.toFactor.coefficient k r) hj

theorem entry_keptRows (h : c.Valid) {s : Nat} (hr : (c.keptRows saved)[i]? = some r)
    (hs : (c.keptRows saved)[j]? = some s) :
    (c.restrict saved x).rsd.full.entry i j = c.rsd.full.entry r s := by
  have hn := h.nodup_keptFrontalDims saved
  have ⟨hj, _⟩ := List.getElem?_eq_some_iff.mp hs
  have ⟨w, hw, m, hm, he⟩ := Widths.exists_start hn (hj.trans_eq (Widths.length_places _ _))
  have hk : w ∈ c.keptDims saved := keptDims_eq_append c saved ▸ List.mem_append_left _ hw
  have hst : Widths.start (c.keptDims saved) w.1 = Widths.start (c.keptFrontalDims saved) w.1 := by
    rw [keptDims_eq_append, Widths.start_append_of_mem hw]
  have hp := Widths.getElem?_places c.toFactor.dims hn hw hm
  cases hs.symm.trans (he ▸ hp)
  rw [he, ← hst, h.entry_start hr hk hm, h.factor.coefficient_of_mem (mem_keptDims.mp hk).left]
  rfl

theorem restrict (h : c.Valid) (saved : Key → Bool) (x : Assignment α) :
    (c.restrict saved x).Valid := by
  constructor
  case nodup => exact h.nodup_keptDims saved
  case count => simp [Conditional.restrict, BlockMatrix.count, BlockMatrix.ofFn, Widths.keys]
  case last => simp [Conditional.restrict, BlockMatrix.ofFn, Widths.keys]
  case le => simp [Conditional.restrict, Widths.keys, keptDims_eq_append]
  case square =>
    rw [rows_restrict, keptRows, Widths.length_places]
    simp [Conditional.restrict, frontalDim, BlockMatrix.offsetAt, BlockMatrix.ofFn,
      keptDims_eq_append]
  case dim =>
    rw [rows_restrict]
    simp [Conditional.restrict, NoiseModel.dim]
  case upper =>
    intro i hi j hj
    have hj' : j < (c.keptRows saved).length := hj.trans hi
    rw [h.entry_keptRows (List.getElem?_eq_getElem hi) (List.getElem?_eq_getElem hj')]
    -- The rows are picked in order, so what is below the diagonal was so before.
    have hlt := List.pairwise_lt_range.sublist (h.keptRows_sublist saved)
    apply h.upper
    case a => exact h.lt_of_mem_keptRows (List.getElem_mem _)
    case a => exact List.pairwise_iff_getElem.mp hlt j i hj' hi hj
  case admissible =>
    intro s hs
    obtain ⟨i, hi, he⟩ := List.mem_map.mp (List.mem_toArray.mp hs)
    have hi : i < c.model.sigmas.size := (h.lt_of_mem_keptRows hi).trans_eq h.dim.symm
    apply h.admissible
    rw [← he]
    simp [hi]

theorem coefficient_restrict (h : c.Valid) (hr : (c.keptRows saved)[i]? = some r)
    (hw : w ∈ c.keptDims saved) (hj : j < w.2) :
    (c.restrict saved x).toFactor.coefficient w.1 i j = c.toFactor.coefficient w.1 r j := by
  rw [(h.restrict saved x).factor.coefficient_of_mem (dims_restrict c saved x ▸ hw), dims_restrict]
  exact h.entry_start hr hw hj

end Valid
end Entries

section Compose

theorem keptDims_restrict (c : Conditional α) (x : Assignment α) (hs : ∀ k, saved' k → saved k) :
    (c.restrict saved x).keptDims saved' = c.keptDims saved' := by
  rw [keptDims, dims_restrict, keptDims, Widths.pick_pick hs, keptDims]

theorem keptFrontalDims_restrict (c : Conditional α) (x : Assignment α)
    (hs : ∀ k, saved' k → saved k) :
    (c.restrict saved x).keptFrontalDims saved' = c.keptFrontalDims saved' := by
  rw [keptFrontalDims, frontalDims_restrict, keptFrontalDims, Widths.pick_pick hs, keptFrontalDims]

theorem removedDims_perm (c : Conditional α) (x : Assignment α) (hs : ∀ k, saved' k → saved k) :
    (c.removedDims saved').Perm (c.removedDims saved ++
      (c.restrict saved x).removedDims saved') := by
  rw [removedDims, removedDims, removedDims, dims_restrict, keptDims]
  exact Widths.pick_not_perm hs c.toFactor.dims

namespace Valid

theorem terms_restrict (h : c.Valid) (hr : (c.keptRows saved)[i]? = some r)
    (hw : w ∈ c.keptDims saved) :
    (c.restrict saved x).terms x i w = c.terms x r w := by
  apply List.map_congr_left
  intro j hj
  rw [h.coefficient_restrict hr hw (List.mem_range.mp hj)]

-- It does not matter in how many steps values are put in, if sums may be taken in any order.
theorem rhsGiven_restrict (hadd : ∀ a b c : α, a + b + c = a + c + b) (h : c.Valid)
    (hs : ∀ k, saved' k → saved k) (hr : (c.keptRows saved)[i]? = some r) :
    (c.restrict saved x).rhsGiven saved' x i = c.rhsGiven saved' x r := by
  have hc : RightCommutative (fun a b : α => a + b) := ⟨hadd⟩
  have hp := (removedDims_perm c x hs).flatMap_right (c.terms x r)
  have ht : ((c.restrict saved x).removedDims saved').flatMap ((c.restrict saved x).terms x i) =
      ((c.restrict saved x).removedDims saved').flatMap (c.terms x r) := by
    apply List.flatMap_congr
    intro w hw
    exact h.terms_restrict hr (dims_restrict c saved x ▸ (Widths.mem_pick.mp hw).left)
  rw [rhsGiven, ht, rhs_restrict hr, rhsGiven, rhsGiven, hp.foldl_eq, List.flatMap_append,
    List.foldl_append]

theorem restrict_restrict (hadd : ∀ a b c : α, a + b + c = a + c + b) (h : c.Valid)
    (hs : ∀ k, saved' k → saved k) :
    (c.restrict saved x).restrict saved' x = c.restrict saved' x := by
  have h₁ := h.restrict saved x
  have hk := keptDims_restrict c x hs
  have hf := keptFrontalDims_restrict c x hs
  apply Valid.ext (h₁.restrict saved' x) (h.restrict saved' x)
  case hd => rw [dims_restrict, dims_restrict, hk]
  case hf => exact congrArg List.length hf
  case hr =>
    rw [frontalDims_restrict, hf]
    intro v hv l hl
    have ⟨hm, hv'⟩ := mem_keptFrontalDims.mp hv
    have hm₁ : v ∈ (c.restrict saved x).frontalDims := by
      rw [frontalDims_restrict]
      exact mem_keptFrontalDims.mpr ⟨hm, hs _ hv'⟩
    -- The row in the middle is found in the first density, and that at the end in both.
    have hr := h₁.getElem?_keptRows x hm₁ hv' hl
    have hr₁ := h.getElem?_keptRows x hm (hs _ hv') hl
    have hr' := h.getElem?_keptRows x hm hv' hl
    constructor
    case coefficient =>
      rw [dims_restrict, hk]
      intro w hw j hj
      have ⟨hd, hw'⟩ := mem_keptDims.mp hw
      rw [h₁.coefficient_restrict hr (hk ▸ hw) hj,
        h.coefficient_restrict hr₁ (mem_keptDims.mpr ⟨hd, hs _ hw'⟩) hj,
        h.coefficient_restrict hr' hw hj]
    case rhs => rw [rhs_restrict hr, rhs_restrict hr', h.rhsGiven_restrict hadd hs hr₁]
    case sigma =>
      rw [sigma_restrict hr, sigma_restrict hr', Array.getD_eq_getD_getElem?, sigma_restrict hr₁,
        Option.getD_some]

theorem saved_of_mem_dims (h : c.Valid) (hs : ∀ k ∈ c.keys, saved k) (hw : w ∈ c.toFactor.dims) :
    saved w.1 := by
  apply hs
  have hk : c.toFactor.dims.map (·.1) = c.keys := h.factor.keys_dims
  exact hk ▸ List.mem_map_of_mem hw

theorem removedDims_eq_nil (h : c.Valid) (hs : ∀ k ∈ c.keys, saved k) : c.removedDims saved = [] :=
  List.filter_eq_nil_iff.mpr fun w hw => by simp [h.saved_of_mem_dims hs hw]

theorem restrict_eq_self (h : c.Valid) (hs : ∀ k ∈ c.keys, saved k) : c.restrict saved x = c := by
  have hd {w : Key × Nat} (hw : w ∈ c.toFactor.dims) : saved w.1 := h.saved_of_mem_dims hs hw
  have hk : c.keptDims saved = c.toFactor.dims := List.filter_eq_self.mpr fun w hw => hd hw
  have hf : c.keptFrontalDims saved = c.frontalDims :=
    List.filter_eq_self.mpr fun w hw => hd (List.mem_of_mem_take hw)
  have hg := h.removedDims_eq_nil hs
  apply Valid.ext (h.restrict saved x) h
  case hd => rw [dims_restrict, hk]
  case hf => rw [← h.length_frontalDims, ← hf]; rfl
  case hr =>
    rw [frontalDims_restrict, hf]
    intro v hv l hl
    have hr := h.getElem?_keptRows x hv (hd (List.mem_of_mem_take hv)) hl
    constructor
    case coefficient =>
      rw [dims_restrict]
      intro w hw j hj
      exact h.coefficient_restrict hr hw hj
    case rhs =>
      rw [rhs_restrict hr, rhsGiven, hg]
      rfl
    case sigma =>
      have hlt : c.rowOf v.1 l < c.model.sigmas.size := (h.rowOf_lt hv hl).trans_eq h.dim.symm
      rw [sigma_restrict hr, Array.getD_eq_getD_getElem?, Array.getElem?_eq_getElem hlt,
        Option.getD_some]

end Valid
end Compose
end Restrict
end Conditional
end LinearGaussian
