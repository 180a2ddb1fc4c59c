import LinearGaussian.Proofs.QuadraticForm
import LinearGaussian.Graph.Joint

namespace LinearGaussian

open LinearFactor Measurement

theorem Mat.eq_of_form_stack {ds : Widths} {a b : Mat ℝ} (hn : ds.keys.Nodup)
    (hra : a.rows = (ds.map (·.2)).sum + 1) (hrb : b.rows = (ds.map (·.2)).sum + 1)
    (hsa : a.transpose = a) (hsb : b.transpose = b)
    (h : ∀ p, a.form (stack ds p) (stack ds p) = b.form (stack ds p) (stack ds p)) : a = b := by
  refine eq_of_form hra hrb hsa hsb fun z hz => ?_
  have hp : ∀ j < (ds.map (·.2)).sum + 1, z j = stack ds (fun k l => z (ds.start k + l)) j := by
    intro j hj
    have hs := stackTo_start hn z hj
    rw [hz] at hs
    exact hs.symm
  have hca : a.cols = (ds.map (·.2)).sum + 1 := (congrArg rows hsa).trans hra
  have hcb : b.cols = (ds.map (·.2)).sum + 1 := (congrArg rows hsb).trans hrb
  rw [form_congr (a := a) (hra ▸ hp) (hca ▸ hp), form_congr (a := b) (hrb ▸ hp) (hcb ▸ hp), h]

section Scatter

noncomputable def scatter (columns : List Nat) (a : Mat ℝ) (i j : Nat) : ℝ :=
  (columns.idxOf? i).elim 0 fun l => (columns.idxOf? j).elim 0 fun m => a.entry l m

variable {columns : List Nat} {a : Mat ℝ}

theorem scatter_comm (ha : a.transpose = a) (columns : List Nat) (i j : Nat) :
    scatter columns a i j = scatter columns a j i := by
  unfold scatter
  cases columns.idxOf? i <;> cases columns.idxOf? j <;> simp only [Option.elim_none,
    Option.elim_some]
  rw [← Mat.entry_transpose, ha]

theorem idxOf?_eq_some_iff (hn : columns.Nodup) {i l : Nat} :
    columns.idxOf? i = some l ↔ columns[l]? = some i := by
  rw [List.idxOf?, List.findIdx?_eq_some_iff_getElem, List.getElem?_eq_some_iff]
  constructor
  case mp => exact fun ⟨hl, hi, _⟩ => ⟨hl, by simpa using hi⟩
  case mpr =>
    intro ⟨hl, hi⟩
    refine ⟨hl, by simpa using hi, fun m hm he => hm.ne ?_⟩
    exact (hn.getElem_inj_iff).mp ((beq_iff_eq.mp he).trans hi.symm)

theorem sum_idxOf? (hn : columns.Nodup) {n : Nat} (hl : ∀ c ∈ columns, c < n) (u : Nat → Nat → ℝ) :
    ∑ i ∈ Finset.range n, (columns.idxOf? i).elim 0 (u i) =
      ∑ l ∈ Finset.range columns.length, u (columns.getD l 0) l := by
  have hg {l : Nat} (h : l ∈ Finset.range columns.length) : columns[l]? =
      some (columns.getD l 0) := by
    simp [Finset.mem_range.mp h]
  symm
  apply Finset.sum_of_injOn (columns.getD · 0)
  case he =>
    intro l hl m hm (he : columns.getD l 0 = columns.getD m 0)
    have hi := (idxOf?_eq_some_iff hn).mpr (hg hl)
    rw [he, (idxOf?_eq_some_iff hn).mpr (hg hm)] at hi
    exact (Option.some.inj hi).symm
  case hest => exact fun l h => Finset.mem_range.mpr (hl _ (List.mem_of_getElem? (hg h)))
  case h' =>
    intro i _ hi
    cases hk : columns.idxOf? i
    case none => rfl
    case some l =>
      have hl := (idxOf?_eq_some_iff hn).mp hk
      refine absurd ⟨l, ?_, ?_⟩ hi
      case refine_1 => exact Finset.mem_range.mpr (List.getElem?_eq_some_iff.mp hl).choose
      case refine_2 => simp [hl]
  case h =>
    intro l h
    rw [(idxOf?_eq_some_iff hn).mpr (hg h), Option.elim_some]

theorem form_scatter (hn : columns.Nodup) {n : Nat} (hl : ∀ c ∈ columns, c < n)
    (hr : a.rows = columns.length) (hc : a.cols = columns.length) (u v : Nat → ℝ) :
    ∑ i ∈ Finset.range n, u i * ∑ j ∈ Finset.range n, scatter columns a i j * v j =
      a.form (fun l => u (columns.getD l 0)) fun m => v (columns.getD m 0) := by
  have hs (i : Nat) : u i * ∑ j ∈ Finset.range n, scatter columns a i j * v j =
      (columns.idxOf? i).elim 0 fun l =>
      u i * ∑ j ∈ Finset.range n, (columns.idxOf? j).elim 0 fun m => a.entry l m * v j := by
    unfold scatter
    cases columns.idxOf? i
    case none => simp
    case some l =>
      refine congrArg (u i * ·) (Finset.sum_congr rfl fun j _ => ?_)
      cases columns.idxOf? j <;> simp
  simp only [hs, sum_idxOf? hn hl, Mat.form, Mat.image, hr, hc]

end Scatter

section Columns

variable {ds es : Widths}

theorem Widths.mem_places {j : Nat} :
    j ∈ places ds es ↔ ∃ w ∈ es, ∃ l < w.2, j = start ds w.1 + l := by
  simp [places, List.mem_flatMap, List.mem_range']

theorem Widths.nodup_places (hn : ds.keys.Nodup) (he : es.keys.Nodup) (hs : es ⊆ ds) :
    (places ds es).Nodup := by
  refine List.nodup_flatMap.mpr ⟨fun w _ => List.nodup_range', ?_⟩
  refine (List.Nodup.of_map _ he).imp_of_mem fun {v w} hv hw hne => ?_
  intro j hjv hjw
  have ⟨l, hl, hjl⟩ := List.mem_range'.mp hjv
  have ⟨m, hm, hjm⟩ := List.mem_range'.mp hjw
  exact hne (eq_of_start hn (hs hv) (hs hw) (j := j) (by omega) (by omega))

-- The columns of a factor with the variables `es` among all columns, of which the last one is the
-- right-hand side.
def Widths.columns (ds es : Widths) : List Nat :=
  places ds es ++ [(ds.map (·.2)).sum]

theorem Widths.length_columns (ds es : Widths) :
    (columns ds es).length = (es.map (·.2)).sum + 1 := by
  simp [columns, length_places]

theorem Widths.lt_of_mem_columns (hn : ds.keys.Nodup) (hs : es ⊆ ds) {j : Nat}
    (hj : j ∈ columns ds es) :
    j < (ds.map (·.2)).sum + 1 := by
  cases List.mem_append.mp hj
  case inl hj =>
    have ⟨w, hw, l, hl, he⟩ := mem_places.mp hj
    have hle := start_add_le hn (hs hw)
    omega
  case inr hj => simp_all

theorem Widths.nodup_columns (hn : ds.keys.Nodup) (he : es.keys.Nodup) (hs : es ⊆ ds) :
    (columns ds es).Nodup := by
  refine List.nodup_append.mpr ⟨nodup_places hn he hs, List.nodup_singleton _, fun i hi j hj => ?_⟩
  have ⟨w, hw, l, hl, he⟩ := mem_places.mp hi
  have hle := start_add_le hn (hs hw)
  have hj := List.mem_singleton.mp hj
  omega

theorem stackTo_columns (hn : ds.keys.Nodup) (he : es.keys.Nodup) (hs : es ⊆ ds) (c : ℝ) (p : Point)
    {l : Nat} (hl : l < (es.map (·.2)).sum + 1) :
    stackTo c ds p ((ds.columns es).getD l 0) = stackTo c es p l := by
  cases Nat.lt_succ_iff_lt_or_eq.mp hl
  case inl hl =>
    have ⟨w, hw, m, hm, hlm⟩ := Widths.exists_start he hl
    have hg := Widths.getElem?_places ds he hw hm
    have hlt : l < (ds.places es).length := by rwa [Widths.length_places]
    have hc : (ds.columns es).getD l 0 = ds.start w.1 + m := by
      rw [List.getD_eq_getElem?_getD, Widths.columns, List.getElem?_append_left hlt, hlm, hg,
        Option.getD_some]
    rw [hc, hlm, stackTo, stackTo, Widths.endToEnd_start hn (hs hw) c p hm,
      Widths.endToEnd_start he hw c p hm]
  case inr hl =>
    have hc : (ds.columns es).getD l 0 = (ds.map (·.2)).sum := by
      simp [Widths.columns, hl, ← Widths.length_places ds es]
    rw [hc, hl, stackTo, stackTo, endToEnd_sum, endToEnd_sum]

end Columns

section Joint

variable {ds : Widths} {factors : List (Factor ℝ)}

-- The matrices of the factors, summed up over the columns of the given variables.
noncomputable def jointInformation (ds : Widths) (factors : List (Factor ℝ)) : Mat ℝ :=
  Mat.ofFn ((ds.map (·.2)).sum + 1) ((ds.map (·.2)).sum + 1) fun i j =>
    (factors.map fun f => scatter (ds.columns f.dims) f.augmentedInformation i j).sum

theorem entry_jointInformation {i j : Nat} (hi : i < (ds.map (·.2)).sum + 1)
    (hj : j < (ds.map (·.2)).sum + 1) :
    (jointInformation ds factors).entry i j =
      (factors.map fun f => scatter (ds.columns f.dims) f.augmentedInformation i j).sum :=
  Mat.entry_ofFn _ hi hj

theorem transpose_jointInformation (h : ∀ f ∈ factors, f.augmentedInformation.transpose =
      f.augmentedInformation) :
    (jointInformation ds factors).transpose = jointInformation ds factors := by
  refine Mat.ext_entry rfl rfl fun i hi j hj => ?_
  rw [Mat.entry_transpose, entry_jointInformation hj hi, entry_jointInformation hi hj]
  exact congrArg List.sum (List.map_congr_left fun f hf => scatter_comm (h f hf) _ _ _)

theorem sum_form (n : Nat) (a : Factor ℝ → Nat → Nat → ℝ) (factors : List (Factor ℝ))
    (u v : Nat → ℝ) :
    ∑ i ∈ Finset.range n, u i * ∑ j ∈ Finset.range n, (factors.map fun f => a f i j).sum * v j =
      (factors.map fun f => ∑ i ∈ Finset.range n, u i * ∑ j ∈ Finset.range n, a f i j *
        v j).sum := by
  induction factors
  case nil => simp
  case cons f factors ih =>
    simp only [List.map_cons, List.sum_cons, add_mul, mul_add, Finset.sum_add_distrib, ih]

theorem form_jointInformation (hb : ∀ f ∈ factors, f.Built) (hn : ds.keys.Nodup)
    (hs : ∀ f ∈ factors, f.dims ⊆ ds) (c c' : ℝ) (p q : Point) :
    (jointInformation ds factors).form (stackTo c ds p) (stackTo c' ds q) =
      (factors.map fun f => f.augmentedInformation.form (stackTo c f.dims p)
        (stackTo c' f.dims q)).sum := by
  have he : (jointInformation ds factors).form (stackTo c ds p) (stackTo c' ds q) =
      ∑ i ∈ Finset.range ((ds.map (·.2)).sum + 1), stackTo c ds p i *
        ∑ j ∈ Finset.range ((ds.map (·.2)).sum + 1), (factors.map fun f =>
          scatter (ds.columns f.dims) f.augmentedInformation i j).sum * stackTo c' ds q j := by
    refine Finset.sum_congr rfl fun i hi => congrArg _ (Finset.sum_congr rfl fun j hj => ?_)
    rw [entry_jointInformation (Finset.mem_range.mp hi) (Finset.mem_range.mp hj)]
  rw [he, sum_form]
  congr 1
  apply List.map_congr_left
  intro f hf
  have hfb := hb f hf
  have hl := ds.length_columns f.dims
  have hnd := hfb.nodup_dims
  rw [form_scatter (Widths.nodup_columns hn hnd (hs f hf))
    (fun j hj => Widths.lt_of_mem_columns hn (hs f hf) hj)
    (hfb.rows_eq.trans hl.symm) (hfb.cols_eq.trans hl.symm)]
  apply Mat.form_congr
  case hu => exact fun l h => stackTo_columns hn hnd (hs f hf) c p (hfb.rows_eq ▸ h)
  case hv => exact fun l h => stackTo_columns hn hnd (hs f hf) c' q (hfb.cols_eq ▸ h)

end Joint

namespace FactorGraph

variable {g : FactorGraph ℝ} {order : EliminationOrder} {dims : KeyMap Nat} {x : Assignment ℝ}

noncomputable def form (g : FactorGraph ℝ) (c c' : ℝ) (p q : Point) : ℝ :=
  (g.factors.map fun f => f.augmentedInformation.form (stackTo c f.dims p)
    (stackTo c' f.dims q)).sum

theorem error_eq_form (hb : ∀ f ∈ g.factors, f.Built) (hx : ∀ f ∈ g.factors, x.Fits f.dims) :
    g.error x = .ok (1 / 2 * g.form (-1) (-1) x.point x.point) := by
  rw [form, ← List.sum_map_mul_left]
  exact error_eq_sum fun f hm => (hb f hm).error_eq (hx f hm)

def inOrder (dims : KeyMap Nat) (ks : List Key) : Widths :=
  ks.map fun k => (k, (dims.get? k).getD 0)

theorem keys_inOrder (dims : KeyMap Nat) (ks : List Key) : (inOrder dims ks).keys = ks := by
  simp [inOrder, Widths.keys, Function.comp_def]

theorem mem_inOrder_iff (hf : ∀ f ∈ g.factors, f.WellFormed) (hd : g.dims = .ok dims)
    (ho : ∀ k, k ∈ order.keys ↔ k ∈ g.keys) {w : Key × Nat} :
    w ∈ inOrder dims order.keys ↔ w ∈ dimsOf g.factors := by
  have hget {w : Key × Nat} (hw : w ∈ dimsOf g.factors) : (w.1, (dims.get? w.1).getD 0) = w := by
    rw [get?_dims hd hw, Option.getD_some]
  rw [inOrder, List.mem_map]
  constructor
  case mp =>
    intro ⟨k, hk, he⟩
    have ⟨d, hw⟩ := (mem_keys_iff_dims hf).mp ((ho k).mp hk)
    rw [← he, hget hw]
    exact hw
  case mpr => exact fun hw => ⟨w.1, (ho w.1).mpr ((mem_keys_iff_dims hf).mpr ⟨w.2, hw⟩), hget hw⟩

theorem offsets_eq (dims : KeyMap Nat) {ks : List Key} (hn : ks.Nodup) (n : Nat) :
    (offsets dims n ks).2 = n + ((inOrder dims ks).map (·.2)).sum ∧
      ∀ k ∈ ks, (offsets dims n ks).1.get? k = some (n + (inOrder dims ks).start k) := by
  induction ks generalizing n
  case nil => exact ⟨rfl, nofun⟩
  case cons k ks ih =>
    have ⟨hk, hks⟩ := List.nodup_cons.mp hn
    have ⟨hs, hm⟩ := ih hks (n + (dims.get? k).getD 0)
    refine ⟨?_, List.forall_mem_cons.mpr ⟨?_, fun l hl => ?_⟩⟩
    case refine_1 => simp [offsets, hs, inOrder, Nat.add_assoc]
    case refine_2 => simp [offsets, inOrder, Widths.start, KeyMap.get?_insert]
    case refine_3 =>
      have hne : l ≠ k := fun he => hk (he ▸ hl)
      have hst : (inOrder dims (k :: ks)).start l =
          (dims.get? k).getD 0 + (inOrder dims ks).start l := if_neg hne.symm
      simp [offsets, KeyMap.get?_insert, hne, hm l hl, hst, Nat.add_assoc]

theorem columnsOf_eq {f : Factor ℝ} (hs : f.dims ⊆ inOrder dims order.keys) :
    columnsOf (offsets dims 0 order.keys).1 (offsets dims 0 order.keys).2 f =
      (inOrder dims order.keys).columns f.dims := by
  have ⟨hstop, hstart⟩ := offsets_eq dims order.nodup 0
  rw [columnsOf, Widths.columns, hstop, Nat.zero_add]
  congr 1
  refine List.flatMap_congr fun w hw => ?_
  have hk : w.1 ∈ order.keys := keys_inOrder dims order.keys ▸ List.mem_map_of_mem (hs hw)
  have hst : ((offsets dims 0 order.keys).1.get? w.1).getD 0 =
      (inOrder dims order.keys).start w.1 := by
    rw [hstart w.1 hk, Option.getD_some, Nat.zero_add]
  exact congrArg (List.range' · w.2) hst

theorem foldl_addEntry (parts : List (List Nat × Mat ℝ)) (i j : Nat) (s : ℝ) :
    parts.foldl (addEntry i j) s = s + (parts.map fun e => scatter e.1 e.2 i j).sum := by
  induction parts generalizing s
  case nil => simp
  case cons e parts ih =>
    rw [List.foldl_cons, ih, List.map_cons, List.sum_cons, ← add_assoc]
    congr 1
    cases hi : e.1.idxOf? i <;> cases hj : e.1.idxOf? j <;> simp [addEntry, scatter, hi, hj]

theorem augmentedInformation_eq (hf : ∀ f ∈ g.factors, f.WellFormed) (hd : g.dims = .ok dims)
    (ho : ∀ k, k ∈ order.keys ↔ k ∈ g.keys) :
    g.augmentedInformation order = .ok (jointInformation (inOrder dims order.keys) g.factors) := by
  have ⟨hstop, _⟩ := offsets_eq dims order.nodup 0
  have hc : g.checkCovers order = .ok () := checkCovers_eq_ok.mpr ho
  have hcol : ∀ f ∈ g.factors,
      columnsOf (offsets dims 0 order.keys).1 (offsets dims 0 order.keys).2 f =
      (inOrder dims order.keys).columns f.dims := fun f hm => columnsOf_eq fun w hw =>
    (mem_inOrder_iff hf hd ho).mpr (mem_dimsOf.mpr ⟨f, hm, f.dims_toLinear ▸ hw⟩)
  have hparts : (g.factors.mapM fun f => do
        return (columnsOf (offsets dims 0 order.keys).1 (offsets dims 0 order.keys).2 f,
          ← f.whitenInformation)) =
      .ok (g.factors.map fun f => ((inOrder dims order.keys).columns f.dims,
        f.augmentedInformation)) := by
    refine Outcome.mapM_eq_ok fun f hm => ?_
    rw [hcol f hm, (hf f hm).whitenInformation_eq]
    rfl
  simp only [augmentedInformation, hc, hd, Outcome.ok_bind]
  rw [hparts]
  simp only [Outcome.ok_bind, Outcome.pure_eq_ok, foldl_addEntry, zero_add, List.map_map]
  rw [hstop, Nat.zero_add]
  rfl

-- The variables with their dimensions, in the order in which the joint matrix has them.
structure Arranged (g : FactorGraph ℝ) (order : EliminationOrder) (ds : Widths) : Prop where
  keys        : ds.keys = order.keys
  mem_iff     : ∀ w, w ∈ ds ↔ w ∈ dimsOf g.factors
  information : g.augmentedInformation order = .ok (jointInformation ds g.factors)

theorem arranged_inOrder (hf : ∀ f ∈ g.factors, f.WellFormed) (hd : g.dims = .ok dims)
    (ho : ∀ k, k ∈ order.keys ↔ k ∈ g.keys) : g.Arranged order (inOrder dims order.keys) :=
  ⟨keys_inOrder dims order.keys, fun _ => mem_inOrder_iff hf hd ho,
    augmentedInformation_eq hf hd ho⟩

theorem arranged_of_augmentedInformation (hf : ∀ f ∈ g.factors, f.WellFormed) {a : Mat ℝ}
    (h : g.augmentedInformation order = .ok a) :
    ∃ ds, g.Arranged order ds ∧ a = jointInformation ds g.factors := by
  have ⟨_, hc, hr⟩ := Outcome.bind_eq_ok.mp h
  have ⟨dims, hd, _⟩ := Outcome.bind_eq_ok.mp hr
  have hl := arranged_inOrder hf hd (checkCovers_eq_ok.mp hc)
  exact ⟨_, hl, Except.ok.inj (h.symm.trans hl.information)⟩

namespace Arranged

variable {ds : Widths}

theorem nodup (h : g.Arranged order ds) : ds.keys.Nodup :=
  h.keys ▸ order.nodup

theorem subset (h : g.Arranged order ds) {f : Factor ℝ} (hm : f ∈ g.factors) : f.dims ⊆ ds :=
  fun w hw => (h.mem_iff w).mpr (mem_dimsOf.mpr ⟨f, hm, f.dims_toLinear ▸ hw⟩)

theorem fits (h : g.Arranged order ds) (hx : ∀ f ∈ g.factors, x.Fits f.dims) : x.Fits ds := by
  intro w hw
  have ⟨f, hm, hw⟩ := mem_dimsOf.mp ((h.mem_iff w).mp hw)
  exact hx f hm w (f.dims_toLinear ▸ hw)

theorem form_eq (h : g.Arranged order ds) (hb : ∀ f ∈ g.factors, f.Built) (c c' : ℝ) (p q : Point) :
    g.form c c' p q = (jointInformation ds g.factors).form (stackTo c ds p) (stackTo c' ds q) :=
  (form_jointInformation hb h.nodup (fun _ hm => h.subset hm) c c' p q).symm

end Arranged

theorem dot_mulVec {a : Mat ℝ} {v : Array ℝ} (hr : a.rows = v.size) (hc : a.cols = v.size) :
    ∃ w, a.mulVec v = .ok w ∧ Vec.dot v w = .ok (a.form (v.getD · 0) (v.getD · 0)) := by
  refine ⟨_, Mat.mulVec_eq a hc.symm, ?_⟩
  rw [Vec.dot_eq (by simp [hr]), Mat.form, hr]
  congr 1
  refine Finset.sum_congr rfl fun i hi => ?_
  congr 1
  rw [Array.getD_eq_getD_getElem?, Array.getElem?_ofFn, dif_pos (Finset.mem_range.mp hi)]
  rfl

theorem getD_push_coordinates (ds : Widths) (p : Point) {j : Nat}
    (hj : j < (ds.map (·.2)).sum + 1) :
    ((coordinates ds p).push (-1)).getD j 0 = stack ds p j := by
  rw [Array.getD_eq_getD_getElem?, Array.getElem?_push, size_coordinates]
  split
  case isTrue he => rw [he, stack_sum, Option.getD_some]
  case isFalse he => rw [getElem?_coordinates (by omega), Option.getD_some]

theorem dimsOf_ofLinear (factors : List (LinearFactor ℝ)) :
    dimsOf (ofLinear factors).factors = factors.flatMap LinearFactor.dims := by
  rw [dimsOf, ← List.flatMap_map, map_toLinear_ofLinear]

theorem built_ofLinear {factors : List (LinearFactor ℝ)} (hf : ∀ f ∈ factors, f.WellFormed) :
    ∀ f ∈ (ofLinear factors).factors, f.Built :=
  List.forall_mem_map.mpr fun f hm => Piece.built_linear_iff.mpr (hf f hm)

theorem Arranged.gram_combine {factors : List (LinearFactor ℝ)} (hf : ∀ f ∈ factors, f.WellFormed)
    {ds : Widths} (h : (ofLinear factors).Arranged order ds) {f : LinearFactor ℝ}
    (hc : combine factors order.keys = .ok f) :
    jointInformation ds (ofLinear factors).factors = (f.augmentedJacobian true).gram := by
  have hw := wellFormed_combine hf hc
  have hm : ∀ w ∈ f.dims, w ∈ ds := by
    intro w hw
    have ⟨g, hg, hw⟩ := (mem_dims_combine hc).mp hw
    exact (h.mem_iff w).mpr (dimsOf_ofLinear factors ▸ List.mem_flatMap.mpr ⟨g, hg, hw⟩)
  have hk : f.keys = order.keys :=
    keys_combine_of_covers hf hc fun w hw => h.keys ▸ List.mem_map_of_mem (hm w hw)
  have hd : f.dims = ds := Widths.eq_of_keys (hw.keys_dims.trans (hk.trans h.keys.symm)) h.nodup hm
  have hcols : (f.augmentedJacobian true).cols = (ds.map (·.2)).sum + 1 := by
    rw [cols_augmentedJacobian, hw.cols_eq, width, hd]
  -- Both matrices are symmetric, so it is enough that they rate all points alike.
  refine Mat.eq_of_form_stack h.nodup rfl hcols (transpose_jointInformation ?_)
    (Mat.transpose_gram _) fun p => ?_
  case refine_1 => exact List.forall_mem_map.mpr fun g _ => Mat.transpose_gram _
  case refine_2 =>
    calc (jointInformation ds (ofLinear factors).factors).form (stack ds p) (stack ds p)
      _ = ((ofLinear factors).factors.map fun g =>
          g.augmentedInformation.form (stack g.dims p) (stack g.dims p)).sum :=
        form_jointInformation (built_ofLinear hf) h.nodup (fun _ hm => h.subset hm) (-1) (-1) p p
      _ = (factors.map fun g => 2 * totalCost g.measurements p).sum := by
        rw [ofLinear, List.map_map]
        exact congrArg _ (List.map_congr_left fun g hg =>
          Factor.form_augmentedInformation (hf g hg) p)
      _ = 2 * totalCost f.measurements p := by
        rw [List.sum_map_mul_left, measurements_combine hf hc, totalCost_flatMap]
      _ = (f.augmentedJacobian true).gram.form (stack ds p) (stack ds p) :=
        hd ▸ (Factor.form_augmentedInformation hw p).symm

theorem augmentedInformation_ofLinear {factors : List (LinearFactor ℝ)}
    (hf : ∀ f ∈ factors, f.WellFormed) (order : EliminationOrder) :
    (ofLinear factors).augmentedInformation order =
      Mat.gram <$> (ofLinear factors).augmentedJacobian order := by
  have hw := wellFormed_ofLinear hf
  have hd : (ofLinear factors).dims =
      KeyMap.ofList <$> Widths.ofOccurrences (factors.flatMap LinearFactor.dims) := by
    rw [dims_eq, dimsOf_ofLinear]
  cases hc : (ofLinear factors).checkCovers order
  case error e => simp only [augmentedInformation, augmentedJacobian, hc]; rfl
  case ok =>
    have ho := checkCovers_eq_ok.mp hc
    cases hws : Widths.ofOccurrences (factors.flatMap LinearFactor.dims)
    case error e =>
      have hj : combine factors order.keys = .error e :=
        Outcome.bind_eq_error.mpr (.inr ⟨(), Outcome.requireDistinct_eq_ok.mpr order.nodup,
          Outcome.bind_eq_error.mpr (.inl hws)⟩)
      simp only [augmentedInformation, augmentedJacobian, hc, hd, hws, map_toLinear_ofLinear, hj]
      rfl
    case ok ws =>
      rw [hws] at hd
      have ha := arranged_inOrder hw hd ho
      have ⟨j, hj⟩ := exists_augmentedJacobian hw (exists_dims_iff.mp ⟨_, hd⟩) ho
      obtain ⟨_, f, hf', rfl⟩ := (augmentedJacobian_eq_ok hw).mp hj
      rw [map_toLinear_ofLinear] at hf'
      rw [hj, ha.information, ha.gram_combine hf hf', Outcome.map_ok]

-- The dense matrices say what the factors say. Those of linear factors are the products of the
-- columns of their joint rows, and if there is none, both fail alike. For factors of any form, the
-- error is half of the value of the matrix at the coordinates of the variables, followed by minus
-- one.
theorem augmentedInformation_agrees :
    (∀ factors : List (LinearFactor ℝ), (∀ f ∈ factors, f.Built) → ∀ order,
      (ofLinear factors).augmentedInformation order =
        Mat.gram <$> (ofLinear factors).augmentedJacobian order) ∧
    ∀ g : FactorGraph ℝ, (∀ f ∈ g.factors, f.Built) → ∀ order a,
      g.augmentedInformation order = .ok a →
      ∀ x : Assignment ℝ, (∀ f ∈ g.factors, x.Fits f.dims) →
        ∃ v w e, x.stacked order = .ok v ∧ a.mulVec (v.push (-1)) = .ok w ∧
          Vec.dot (v.push (-1)) w = .ok e ∧
          g.error x = .ok (1 / 2 * e) := by
  refine ⟨fun factors hb order => ?_, fun g hb order a h x hx => ?_⟩
  case refine_1 =>
    exact augmentedInformation_ofLinear (fun f hm => Piece.built_linear_iff.mp (hb f hm)) order
  case refine_2 =>
    have ⟨ds, hl, ha⟩ := arranged_of_augmentedInformation (fun f hm => (hb f hm).wellFormed) h
    have hxs := hl.fits hx
    have hsize : ((coordinates ds x.point).push (-1)).size = (ds.map (·.2)).sum + 1 := by simp
    have ⟨w, hw, he⟩ := dot_mulVec (a := jointInformation ds g.factors) hsize.symm hsize.symm
    refine ⟨_, w, _, Assignment.stacked_eq hxs hl.keys.symm, ha ▸ hw, he, ?_⟩
    rw [error_eq_form hb hx, hl.form_eq hb]
    congr 2
    apply Mat.form_congr
    case hu => exact fun j hj => (getD_push_coordinates ds x.point hj).symm
    case hv => exact fun j hj => (getD_push_coordinates ds x.point hj).symm

noncomputable def skewed : Mat ℝ :=
  Mat.ofFn 2 2 fun i j => if i = j then 1 else if i < j then 2 else 0

noncomputable def tilted (h : InformationFactor ℝ) : FactorGraph ℝ :=
  ⟨[.information h, .linear (scalarRow [0] [2] 3 0), .linear (ofRhs #[5])]⟩

theorem built_tilted {h : InformationFactor ℝ} {a : Mat ℝ} {linear : Array ℝ} {constant : ℝ}
    (hh : InformationFactor.ofParts [1] [2] a linear constant = .ok h) :
    ∀ f ∈ (tilted h).factors, f.Built := by
  simp only [tilted, List.forall_mem_cons, List.not_mem_nil, false_imp_iff, implies_true, and_true]
  exact ⟨.informationOfParts hh,
    Piece.built_linear_iff.mpr (wellFormed_scalarRow (by decide) le_rfl), .ofRhs _⟩

theorem augmentedInformation_agrees_tilted :
    ∃ h a v w e, InformationFactor.ofParts [1] [2] skewed #[0, 3] 1 = .ok h ∧
      (tilted h).augmentedInformation ⟨[0, 1], by decide⟩ = .ok a ∧
      Assignment.stacked (KeyMap.ofList [(0, #[4]), (1, #[1, -2])]) ⟨[0, 1], by decide⟩ = .ok v ∧
      a.mulVec (v.push (-1)) = .ok w ∧ Vec.dot (v.push (-1)) w = .ok e ∧
      (tilted h).error (KeyMap.ofList [(0, #[4]), (1, #[1, -2])]) = .ok (1 / 2 * e) ∧
      ∃ j, (ofLinear compared).augmentedJacobian ⟨[1, 2, 0], by decide⟩ = .ok j ∧
        (ofLinear compared).augmentedInformation ⟨[1, 2, 0], by decide⟩ = .ok j.gram := by
  obtain ⟨h, hh⟩ : ∃ h, InformationFactor.ofParts [1] [2] skewed #[0, 3] 1 = .ok h := ⟨_, rfl⟩
  have hb := built_tilted hh
  have hw : ∀ f ∈ (tilted h).factors, f.WellFormed := fun f hm => (hb f hm).wellFormed
  have hd : dimsOf (tilted h).factors = [(1, 2), (0, 1)] := by
    cases hh
    rfl
  obtain ⟨dims, hdims⟩ : ∃ dims, (tilted h).dims = .ok dims := by
    rw [exists_dims_iff, hd]
    unfold Widths.Consistent
    decide
  have ho (k : Key) : k ∈ [0, 1] ↔ k ∈ (tilted h).keys := by
    rw [mem_keys_iff_dims hw, hd]
    simp
    grind
  have hx : Assignment.Fits (KeyMap.ofList [(0, #[4]), (1, #[1, -2])] : Assignment ℝ) [(1, 2),
      (0, 1)] := by
    simp only [Assignment.Fits, List.forall_mem_cons, List.not_mem_nil, false_imp_iff, implies_true,
      and_true]
    exact ⟨⟨_, rfl, rfl⟩, _, rfl, rfl⟩
  have ha : Arranged _ ⟨[0, 1], by decide⟩ _ := arranged_inOrder hw hdims ho
  obtain ⟨hl, hi⟩ := augmentedInformation_agrees
  obtain ⟨v, w, e, hv, hw, he, herr⟩ := hi _ hb _ _ ha.information _ fun f hm w hw =>
    hx w (hd ▸ mem_dimsOf.mpr ⟨f, hm, f.dims_toLinear ▸ hw⟩)
  have hc (k : Key) : k ∈ [1, 2, 0] ↔ k ∈ (ofLinear compared).keys := by
    rw [mem_keys_iff_dims (wellFormed_ofLinear wellFormed_compared), dimsOf_compared]
    simp
    grind
  obtain ⟨j, hj⟩ : ∃ j, (ofLinear compared).augmentedJacobian ⟨[1, 2, 0], by decide⟩ = .ok j :=
    exists_augmentedJacobian (wellFormed_ofLinear wellFormed_compared) consistent_compared hc
  refine ⟨h, _, v, w, e, hh, ha.information, hv, hw, he, herr, j, hj, ?_⟩
  rw [hl compared fun f hm => Piece.built_linear_iff.mpr (wellFormed_compared f hm), hj,
    Outcome.map_ok]

end FactorGraph
end LinearGaussian
