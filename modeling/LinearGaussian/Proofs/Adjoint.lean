import LinearGaussian.Proofs.Derivative

namespace LinearGaussian

open Outcome Assignment

section Sum

variable {R : Type} [CommSemiring R] {m n : Nat}

theorem sum_addTrMulVec (a : Fin m → Fin n → R) (alpha : R) (e : Fin m → R) (v x : Fin n → R) :
    ∑ j, (v j + alpha * ∑ i, a i j * e i) * x j =
      ∑ j, v j * x j + alpha * ∑ i, e i * ∑ j, a i j * x j := by
  have hswap : ∑ j, (∑ i, a i j * e i) * x j = ∑ i, e i * ∑ j, a i j * x j := by
    simp only [Finset.sum_mul, Finset.mul_sum]
    rw [Finset.sum_comm]
    exact Finset.sum_congr rfl fun i _ => Finset.sum_congr rfl fun j _ => by ring
  simp only [add_mul, Finset.sum_add_distrib, mul_assoc, ← Finset.mul_sum, hswap]

theorem sum_addMulVec (a : Fin m → Fin n → R) (e z : Fin m → R) (x : Fin n → R) :
    ∑ i, e i * (z i + ∑ j, a i j * (1 * x j)) = ∑ i, e i * z i + ∑ i, e i * ∑ j, a i j * x j := by
  simp only [one_mul, mul_add, Finset.sum_add_distrib]

end Sum

namespace Assignment

variable {α : Type} {y : Assignment α} {dims : KeyMap Nat} {k : Key} {v : Array α}

-- Every value is one of a variable with a dimension, and has this dimension.
def Within (y : Assignment α) (dims : KeyMap Nat) : Prop :=
  ∀ k v, y.get? k = some v → dims.get? k = some v.size

theorem Within.insert (hy : y.Within dims) (hk : dims.get? k = some v.size) :
    Within (y.insert k v) dims := by
  intro l u hu
  rw [KeyMap.get?_insert] at hu
  split at hu
  case isTrue hl =>
    cases hu
    exact hl ▸ hk
  case isFalse => exact hy l u hu

end Assignment

section Inner

variable {α : Type} [Arith α]

def Vec.inner (a b : Array α) : α :=
  LinearGaussian.dot (fun i : Fin a.size => a.getD i 0) fun i => b.getD i 0

theorem Vec.dot_eq_inner {a b : Array α} (h : b.size = a.size) : Vec.dot a b = .ok (inner a b) := by
  simp only [Vec.dot, sized, h, dif_pos, ok_bind, pure_eq_ok, inner]
  congr 2
  case e_a => simp
  case e_b => simp [h]

-- The sum of the inner products over some variables. A variable without a value counts as zero.
def Assignment.pairing (ks : List Key) (y x : Assignment α) : α :=
  (ks.map fun k => Vec.inner ((y.get? k).getD #[]) ((x.get? k).getD #[])).sum

variable [ExactArith α]

attribute [local instance] ExactArith.commSemiring

namespace Vec

theorem inner_eq_sum {a : Array α} {n : Nat} (h : a.size = n) (b : Array α) :
    inner a b = ∑ i : Fin n, a.getD i 0 * b.getD i 0 := by
  subst h
  rw [inner, LinearGaussian.dot, foldl_add, zero_add]

theorem inner_zeros_left (n : Nat) (b : Array α) : inner (zeros n) b = 0 := by
  rw [inner_eq_sum (n := n) (by simp [zeros, fill])]
  exact Finset.sum_eq_zero fun i _ => by simp [zeros, fill]

theorem inner_zeros_right (a : Array α) (n : Nat) : inner a (zeros n) = 0 := by
  rw [inner_eq_sum rfl]
  refine Finset.sum_eq_zero fun i _ => ?_
  by_cases hi : i < n <;> simp [zeros, fill, hi]

end Vec

theorem Window.addTrMulVec_adjoint (w : Window α) (alpha : α) {e z v x : Array α}
    (he : e.size = w.rows) (hz : z.size = w.rows) (hv : v.size = w.cols) (hx : x.size = w.cols) :
    ∃ v' z' d, w.addTrMulVec alpha e v = .ok v' ∧ w.addMulVec 1 x z = .ok z' ∧ v'.size = w.cols ∧
      z'.size = w.rows ∧
      Vec.inner v' x = Vec.inner v x + alpha * d ∧ Vec.inner e z' = Vec.inner e z + d := by
  simp only [addTrMulVec, addMulVec, Vec.sized, he, hz, hv, hx, dif_pos, ok_bind, pure_eq_ok]
  refine ⟨_, _, ∑ i : Fin w.rows, e.getD i 0 * ∑ j, w.entry i j * x.getD j 0, rfl,
    rfl, by simp, by simp, ?_, ?_⟩
  case refine_1 =>
    have hs := sum_addTrMulVec w.entry alpha (fun i => e.getD i 0) (fun j => v.getD j 0) fun j =>
      x.getD j 0
    rw [Vec.inner_eq_sum (n := w.cols) (by simp), Vec.inner_eq_sum hv]
    simpa [LinearGaussian.addTrMulVec, foldl_add, LinearGaussian.dot, he, hv, hx] using hs
  case refine_2 =>
    have hs := sum_addMulVec w.entry (fun i => e.getD i 0) (fun i => z.getD i 0) fun j => x.getD j 0
    rw [Vec.inner_eq_sum he, Vec.inner_eq_sum he]
    simpa [LinearGaussian.addMulVec, foldl_add, he, hz, hx] using hs

namespace Assignment

variable {x y : Assignment α} {dims : KeyMap Nat} {k : Key} {ks : List Key}

-- The value of one variable is replaced, and the others count as before.
theorem exists_pairing_insert (hn : ks.Nodup) (hk : k ∈ ks) (y x : Assignment α) :
    ∃ rest, pairing ks y x = Vec.inner ((y.get? k).getD #[]) ((x.get? k).getD #[]) + rest ∧
      ∀ v, pairing ks (y.insert k v) x = Vec.inner v ((x.get? k).getD #[]) + rest := by
  refine ⟨pairing (ks.erase k) y x, (List.sum_map_erase _ hk).symm,
    fun v => (List.sum_map_erase _ hk).symm.trans ?_⟩
  have hrest : pairing (ks.erase k) (y.insert k v) x = pairing (ks.erase k) y x := by
    refine congrArg List.sum (List.map_congr_left fun l hl => ?_)
    rw [KeyMap.get?_insert, if_neg (hn.mem_erase_iff.mp hl).left]
  rw [KeyMap.get?_insert, if_pos rfl, Option.getD_some]
  exact congrArg _ hrest

theorem dot_eq_pairing (hy : y.Within dims) (hx : x.Fits dims.entries) :
    y.dot x = .ok (pairing dims.keys y x) := by
  let term (k : Key) : α := Vec.inner ((y.get? k).getD #[]) ((x.get? k).getD #[])
  have hd : y.dot x = .ok (0 + (y.entries.map fun e => term e.1).sum) := by
    refine foldlM_add (fun e he s => ?_) 0
    have hg := get?_of_mem_entries he
    obtain ⟨v, hv, hs⟩ := hx (e.1, e.2.size) (KeyMap.mem_of_lookup (hy _ _ hg))
    simp only [term, hg, hv, Vec.dot_eq_inner hs, ok_bind, pure_eq_ok, Option.getD_some]
  -- A variable without a value has no part in the sum.
  have hk : (y.keys.map term).sum = (dims.keys.map term).sum := by
    rw [← List.sum_toFinset term y.keys_nodup, ← List.sum_toFinset term dims.keys_nodup]
    refine Finset.sum_subset (fun k hk => ?_) fun k _ hk => ?_
    case refine_1 =>
      obtain ⟨v, hv⟩ :=
        Option.isSome_iff_exists.mp (KeyMap.mem_keys_iff.mp (List.mem_toFinset.mp hk))
      refine List.mem_toFinset.mpr (KeyMap.mem_keys_iff.mpr ?_)
      rw [hy k v hv, Option.isSome_some]
    case refine_2 =>
      rw [KeyMap.get?_eq_none_iff.mpr (mt List.mem_toFinset.mpr hk)]
      rfl
  rw [hd, zero_add, pairing, ← hk, KeyMap.keys, List.map_map]
  rfl

end Assignment

namespace LinearFactor

variable [RealLike α] {f : LinearFactor α} {e z : Array α} {x y : Assignment α} {dims : KeyMap Nat}

theorem WellFormed.whitenVec_adjoint (h : f.WellFormed) (he : e.size = f.rows)
    (hz : z.size = f.rows) :
    ∃ e' z', f.whitenVec e = .ok e' ∧ f.whitenVec z = .ok z' ∧ e'.size = f.rows ∧ z'.size = f.rows ∧
      Vec.inner e' z = Vec.inner e z' := by
  unfold whitenVec
  cases hm : f.model
  case none => exact ⟨e, z, rfl, rfl, he, hz, rfl⟩
  case some m =>
    have hd := (h.model m hm).left
    simp only [NoiseModel.whiten, require, hd, he, hz, decide_true, if_true, ok_bind, pure_eq_ok]
    refine ⟨_, _, rfl, rfl, by simp [he], by simp [hz], ?_⟩
    rw [Vec.inner_eq_sum (n := f.rows) (by simp [he]), Vec.inner_eq_sum he]
    refine Finset.sum_congr rfl fun i _ => ?_
    simp [he, hz, mul_assoc, mul_comm (m.weight i)]

section Blocks

variable (h : f.WellFormed) (hd : ∀ w ∈ f.dims, dims.get? w.1 = some w.2) (hx : x.Fits dims.entries)
  (alpha : α) (he : e.size = f.rows)

include h hd hx he

theorem addBlock_adjoint {t : Key × Nat} (ht : t ∈ f.keys.zipIdx) (hy : y.Within dims)
    (hz : z.size = f.rows) :
    ∃ y' z' d, f.addTrBlock alpha e y t = .ok y' ∧ f.addBlock x z t = .ok z' ∧ y'.Within dims ∧
      z'.size = f.rows ∧
      (∀ k, k ∈ y'.keys ↔ k = t.1 ∨ k ∈ y.keys) ∧
      pairing dims.keys y' x = pairing dims.keys y x + alpha * d ∧
        Vec.inner e z' = Vec.inner e z + d := by
  obtain ⟨w, hw, hr, hm⟩ := h.block_of_mem_zipIdx ht
  have hdim : dims.get? t.1 = some w.cols := hd _ hm
  obtain ⟨v, hv, hvs⟩ := hx (t.1, w.cols) (KeyMap.mem_of_lookup hdim)
  have hold : ((y.get? t.1).getD (Vec.zeros w.cols)).size = w.cols ∧
      Vec.inner ((y.get? t.1).getD (Vec.zeros w.cols)) v = Vec.inner ((y.get? t.1).getD #[]) v := by
    cases hk : y.get? t.1
    case none => exact ⟨by simp [Vec.zeros, Vec.fill], Vec.inner_zeros_left _ _⟩
    case some u => exact ⟨Option.some.inj ((hy _ _ hk).symm.trans hdim), rfl⟩
  obtain ⟨u, z', d, hu, hz', hus, hzs, hud, hzd⟩ :=
    w.addTrMulVec_adjoint alpha (he.trans hr.symm) (hz.trans hr.symm) hold.left hvs
  have hk : t.1 ∈ dims.keys := KeyMap.mem_keys_iff.mpr (hdim ▸ Option.isSome_some)
  obtain ⟨rest, hrest, hins⟩ := exists_pairing_insert dims.keys_nodup hk y x
  refine ⟨y.insert t.1 u, z', d, ?_, ?_, hy.insert (hus ▸ hdim), hzs.trans hr,
    fun k => KeyMap.mem_keys_insert, ?_, hzd⟩
  case refine_1 => exact addTrBlock_eq hw hu
  case refine_2 => simp only [addBlock, hw, valueOf_eq_ok.mpr ⟨hv, hvs⟩, hz', ok_bind]
  case refine_3 => rw [hins u, hrest, hv, Option.getD_some, hud, hold.right, add_right_comm]

theorem foldlM_addBlock_adjoint {ts : List (Key × Nat)} (ht : ts ⊆ f.keys.zipIdx)
    (hy : y.Within dims) (hz : z.size = f.rows) :
    ∃ y' z' d, ts.foldlM (f.addTrBlock alpha e) y = .ok y' ∧ ts.foldlM (f.addBlock x) z = .ok z' ∧
      y'.Within dims ∧
      z'.size = f.rows ∧ (∀ k, k ∈ y'.keys ↔ k ∈ ts.map (·.1) ∨ k ∈ y.keys) ∧
      pairing dims.keys y' x = pairing dims.keys y x + alpha * d ∧
        Vec.inner e z' = Vec.inner e z + d := by
  induction ts generalizing y z
  case nil => exact ⟨y, z, 0, rfl, rfl, hy, hz, by simp, by simp, by simp⟩
  case cons t ts ih =>
    obtain ⟨hhead, htail⟩ := List.cons_subset.mp ht
    obtain ⟨y₁, z₁, d₁, hy₁, hz₁, hw₁, hs₁, hk₁, hp₁, hi₁⟩ :=
      addBlock_adjoint h hd hx alpha he hhead hy hz
    obtain ⟨y', z', d, hy', hz', hw', hs', hk', hp', hi'⟩ := ih htail hw₁ hs₁
    refine ⟨y', z', d₁ + d, ?_, ?_, hw', hs', fun k => ?_, ?_, ?_⟩
    case refine_1 => rw [List.foldlM_cons, hy₁, ok_bind, hy']
    case refine_2 => rw [List.foldlM_cons, hz₁, ok_bind, hz']
    case refine_3 => rw [hk', hk₁, List.map_cons, List.mem_cons, or_left_comm, or_assoc]
    case refine_4 => rw [hp', hp₁, mul_add, add_assoc]
    case refine_5 => rw [hi', hi₁, add_assoc]

theorem transposeMultiplyAdd_adjoint (hy : y.Within dims) :
    ∃ y' z, f.transposeMultiplyAdd alpha e y = .ok y' ∧ f.multiply x = .ok z ∧ y'.Within dims ∧
      z.size = f.rows ∧
      (∀ k, k ∈ y'.keys ↔ k ∈ f.keys ∨ k ∈ y.keys) ∧
      pairing dims.keys y' x = pairing dims.keys y x + alpha * Vec.inner e z := by
  have hzeros : (Vec.zeros f.rows : Array α).size = f.rows := by simp [Vec.zeros, Vec.fill]
  obtain ⟨e', _, he', _, hes, _, _⟩ := h.whitenVec_adjoint he hzeros
  obtain ⟨y', z, d, hy', hz, hw, hs, hk, hp, hi⟩ :=
    foldlM_addBlock_adjoint h hd hx alpha hes (List.Subset.refl _) hy hzeros
  obtain ⟨e'', z', he'', hz', _, hzs, hsym⟩ := h.whitenVec_adjoint he hs
  cases he'.symm.trans he''
  have hkeys : f.keys.zipIdx.map (·.1) = f.keys := List.zipIdx_map_fst 0 _
  refine ⟨y', z', ?_, ?_, hw, hzs, hkeys ▸ hk, ?_⟩
  case refine_1 =>
    simp only [transposeMultiplyAdd, he, decide_true, require, if_true, ok_bind, he']
    exact hy'
  case refine_2 => exact bind_eq_ok.mpr ⟨z, hz, hz'⟩
  case refine_3 => rw [hp, ← hsym, hi, Vec.inner_zeros_right, zero_add]

end Blocks
end LinearFactor

namespace FactorGraph

variable [RealLike α] {g : FactorGraph α} {x y : Assignment α} {dims : KeyMap Nat}

theorem foldlM_transposeMultiplyAdd_adjoint {factors : List (Factor α)}
    (hf : ∀ f ∈ factors, f.WellFormed) (hd : ∀ w ∈ dimsOf factors, dims.get? w.1 = some w.2)
    (hx : x.Fits dims.entries) (alpha : α) {es : List (Array α)}
    (he : es.map (·.size) = factors.map (·.toLinear.rows)) (hy : y.Within dims) :
    ∃ y' zs terms,
      (factors.zip es).foldlM (fun y t => t.1.toLinear.transposeMultiplyAdd alpha t.2 y) y =
        .ok y' ∧
      factors.mapM (fun f => f.toLinear.multiply x) = .ok zs ∧
      (es.zip zs).mapM (fun t => Vec.dot t.1 t.2) = .ok terms ∧ y'.Within dims ∧
      (∀ k, k ∈ y'.keys ↔ (∃ f ∈ factors, k ∈ f.keys) ∨ k ∈ y.keys) ∧
      pairing dims.keys y' x = pairing dims.keys y x + alpha * terms.sum := by
  induction factors generalizing es y
  case nil => exact ⟨y, [], [], by simp, rfl, by simp, hy, by simp, by simp⟩
  case cons f factors ih =>
    cases es
    case nil => contradiction
    case cons e es =>
      obtain ⟨he, hes⟩ := List.cons.inj he
      obtain ⟨hwf, hwfs⟩ := List.forall_mem_cons.mp hf
      obtain ⟨hdf, hdfs⟩ := List.forall_mem_append.mp hd
      obtain ⟨y₁, z, hy₁, hz, hw₁, hs, hk₁, hp₁⟩ :=
        LinearFactor.transposeMultiplyAdd_adjoint hwf.linear hdf hx alpha he hy
      obtain ⟨y', zs, terms, hy', hzs, ht, hw', hk', hp'⟩ := ih hwfs hdfs hes hw₁
      refine ⟨y', z :: zs, Vec.inner e z :: terms, ?_, ?_, ?_, hw', fun k => ?_, ?_⟩
      case refine_1 => rw [List.zip_cons_cons, List.foldlM_cons, hy₁, ok_bind, hy']
      case refine_2 => rw [List.mapM_cons, hz, ok_bind, hzs, ok_bind, pure_eq_ok]
      case refine_3 =>
        rw [List.zip_cons_cons, List.mapM_cons, Vec.dot_eq_inner (hs.trans he.symm), ok_bind, ht,
          ok_bind, pure_eq_ok]
      case refine_4 =>
        simp only [hk', hk₁, hwf.keys, List.mem_cons, exists_eq_or_imp, or_assoc, or_left_comm]
      case refine_5 => rw [hp', hp₁, List.sum_cons, mul_add, add_assoc]

end FactorGraph
end Inner

namespace FactorGraph

variable {α : Type} [Arith α] [RealLike α] [ExactArith α] {g : FactorGraph α} {x y : Assignment α}
  {dims : KeyMap Nat}

-- Taking error vectors back to the variables changes the inner product with `x` by `alpha` times
-- the inner product of the error vectors with the images of `x`. The variables of the graph have
-- values then.
theorem dot_transposeMultiplyAdd (hf : ∀ f ∈ g.factors, f.WellFormed) (hd : g.dims = .ok dims)
    (hx : x.map (·.size) = dims) (alpha : α) {es : List (Array α)}
    (he : es.map (·.size) = g.factors.map (·.toLinear.rows)) (hy : y.Within dims) :
    ∃ y' zs terms s, g.transposeMultiplyAdd alpha es y = .ok y' ∧ g.multiply x = .ok zs ∧
      (es.zip zs).mapM (fun t => Vec.dot t.1 t.2) = .ok terms ∧ y.dot x = .ok s ∧
      y'.dot x = .ok (s + alpha * terms.sum) ∧ y'.Within dims ∧
      ∀ k, k ∈ y'.keys ↔ k ∈ y.keys ∨ k ∈ g.keys := by
  have hx := (shape_iff.mp hx).left
  obtain ⟨y', zs, terms, hy', hzs, ht, hw, hk, hp⟩ :=
    foldlM_transposeMultiplyAdd_adjoint hf (fun w hw => get?_dims hd hw) hx alpha he hy
  have hlen : es.length = g.factors.length := by simpa using congrArg List.length he
  refine ⟨y', zs, terms, pairing dims.keys y x, ?_, hzs, ht, dot_eq_pairing hy hx, ?_, hw,
    fun k => ?_⟩
  case refine_1 =>
    simp only [transposeMultiplyAdd, hlen, decide_true, require, if_true, ok_bind]
    exact hy'
  case refine_2 => rw [dot_eq_pairing hw hx, hp]
  case refine_3 => rw [hk, mem_keys, or_comm]

noncomputable def braced (sigma : ℝ) : FactorGraph ℝ :=
  ⟨[.linear (LinearFactor.scalarRow [0, 1] [1, -1] 1 sigma),
    .information ⟨[1, 2], BlockMatrix.ofFn 3 [1, 1, 1] fun _ _ => 1⟩]⟩

theorem wellFormed_braced {sigma : ℝ} (hs : 0 ≤ sigma) :
    ∀ f ∈ (braced sigma).factors, f.WellFormed := by
  simp only [braced, List.forall_mem_cons, List.not_mem_nil, false_imp_iff, implies_true, and_true]
  exact ⟨⟨LinearFactor.wellFormed_scalarRow (by decide) hs, rfl⟩,
    Factor.wellFormed_information (by decide) rfl rfl⟩

theorem dot_transposeMultiplyAdd_braced :
    let g : FactorGraph ℝ := braced (1 / 2)
    let x : Assignment ℝ := KeyMap.ofList [(0, #[1]), (1, #[2]), (2, #[3])]
    let y : Assignment ℝ := KeyMap.ofList [(1, #[4])]
    ∃ y' zs terms s, g.transposeMultiplyAdd 3 [#[1], #[6, 7]] y = .ok y' ∧ g.multiply x = .ok zs ∧
      ([#[1], #[6, 7]].zip zs).mapM (fun t => Vec.dot t.1 t.2) = .ok terms ∧ y.dot x = .ok s ∧
      y'.dot x = .ok (s + 3 * terms.sum) ∧ ∀ k, k ∈ y'.keys ↔ k = 0 ∨ k = 1 ∨ k = 2 := by
  intro g x y
  have hd : g.dims = .ok (KeyMap.ofList [(0, 1), (1, 1), (2, 1)]) := rfl
  have hy : y.Within (KeyMap.ofList [(0, 1), (1, 1), (2, 1)]) := by
    intro k v hv
    have hget : y.get? k = if k = 1 then some #[4] else none := KeyMap.get?_insert ∅ 1 k _
    rw [hget] at hv
    split at hv
    case isTrue hk =>
      cases hv
      rw [hk]
      rfl
    case isFalse => contradiction
  have he : ([#[1], #[6, 7]] : List (Array ℝ)).map (·.size) = g.factors.map (·.toLinear.rows) := rfl
  obtain ⟨y', zs, terms, s, hy', hzs, ht, hs, hd, _, hk⟩ :=
    dot_transposeMultiplyAdd (x := x) (wellFormed_braced (by norm_num)) hd rfl 3 he hy
  refine ⟨y', zs, terms, s, hy', hzs, ht, hs, hd, fun k => ?_⟩
  have hkeys : y.keys = [1] ∧ g.keys = [0, 1, 2] := ⟨rfl, rfl⟩
  rw [hk, hkeys.left, hkeys.right]
  simp only [List.mem_cons, List.not_mem_nil, or_false]
  tauto

end FactorGraph
end LinearGaussian
