import LinearGaussian.Proofs.Factor
import LinearGaussian.Proofs.KeyMap
import LinearGaussian.Graph.Basic

namespace LinearGaussian

open Measurement LinearFactor

section Factors

variable {α : Type} [Arith α] [RealLike α] {factors : List (Factor α)}

-- The factor can be used as a linear one, on the same variables.
structure Factor.WellFormed (f : Factor α) : Prop where
  linear : f.toLinear.WellFormed
  keys   : f.toLinear.keys = f.keys

theorem Factor.WellFormed.mem_keys {f : Factor α} (h : f.WellFormed) {w : Key × Nat}
    (hw : w ∈ f.toLinear.dims) :
    w.1 ∈ f.keys := by
  rw [← h.keys, ← h.linear.keys_dims]
  exact List.mem_map_of_mem hw

def dimsOf (factors : List (Factor α)) : List (Key × Nat) :=
  factors.flatMap (·.toLinear.dims)

theorem mem_dimsOf {w : Key × Nat} : w ∈ dimsOf factors ↔ ∃ f ∈ factors, w ∈ f.toLinear.dims :=
  List.mem_flatMap

namespace Factor

theorem dims_toLinear (f : Factor α) : f.toLinear.dims = f.dims := by
  cases f <;> rfl

theorem WellFormed.whitenInformation_eq {f : Factor α} (h : f.WellFormed) :
    f.whitenInformation = .ok f.augmentedInformation := by
  cases f
  case linear => exact h.linear.whitenInformation_eq
  case information => rfl

theorem wellFormed_information {h : InformationFactor α} (hn : h.keys.Nodup)
    (hc : h.info.count = h.keys.length + 1) (hl : h.info.widths[h.keys.length]? = some 1) :
    (information h).WellFormed :=
  ⟨⟨hn, hc, hl, nofun⟩, rfl⟩

end Factor

end Factors

theorem Outcome.foldlM_add {M β : Type} [AddMonoid M] {step : M → β → Outcome M} {term : β → M}
    {bs : List β} (h : ∀ b ∈ bs, ∀ s, step s b = .ok (s + term b)) (s : M) :
    bs.foldlM step s = .ok (s + (bs.map term).sum) := by
  induction bs generalizing s
  case nil => simp
  case cons b bs ih =>
    have ⟨hb, hbs⟩ := List.forall_mem_cons.mp h
    rw [List.foldlM_cons, hb, Outcome.ok_bind, ih hbs, List.map_cons, List.sum_cons, add_assoc]

namespace FactorGraph

section Keys

variable {α : Type} {g : FactorGraph α} {order : EliminationOrder}

theorem mem_keys {k : Key} : k ∈ g.keys ↔ ∃ f ∈ g.factors, k ∈ f.keys := by
  rw [keys, Key.mem_ascending, List.mem_flatMap]

theorem checkCovers_eq_ok {u : Unit} :
    g.checkCovers order = .ok u ↔ ∀ k, k ∈ order.keys ↔ k ∈ g.keys := by
  unfold checkCovers
  split
  case h_1 k hk =>
    have hg : k ∉ g.keys := by simpa using List.find?_some hk
    simpa using ⟨k, fun h => hg (h.mp (List.mem_of_find?_eq_some hk))⟩
  case h_2 ho =>
    have ho : ∀ k ∈ order.keys, k ∈ g.keys := by simpa using ho
    split
    case h_1 k hk =>
      have hk' : k ∉ order.keys := by simpa [EliminationOrder.contains] using List.find?_some hk
      simpa using ⟨k, fun h => hk' (h.mpr (List.mem_of_find?_eq_some hk))⟩
    case h_2 hg =>
      have hg : ∀ k ∈ g.keys, k ∈ order.keys := by simpa [EliminationOrder.contains] using hg
      simpa using fun k => ⟨ho k, hg k⟩

theorem checkCovers_ne_violated (v : Violation) : g.checkCovers order ≠ violated v := by
  unfold checkCovers
  split
  case h_1 => nofun
  case h_2 => split <;> nofun

theorem pairwise_keys (g : FactorGraph α) : g.keys.Pairwise (· < ·) :=
  KeyMap.keys_pairwise _

variable [Arith α] [RealLike α]

theorem mem_keys_iff_dims (hf : ∀ f ∈ g.factors, f.WellFormed) {k : Key} :
    k ∈ g.keys ↔ ∃ d, (k, d) ∈ dimsOf g.factors := by
  rw [mem_keys]
  constructor
  case mp =>
    intro ⟨f, hm, hk⟩
    rw [← (hf f hm).keys, ← (hf f hm).linear.keys_dims] at hk
    have ⟨w, hw, he⟩ := List.mem_map.mp hk
    exact ⟨w.2, mem_dimsOf.mpr ⟨f, hm, he ▸ hw⟩⟩
  case mpr =>
    intro ⟨d, hd⟩
    have ⟨f, hm, hw⟩ := mem_dimsOf.mp hd
    exact ⟨f, hm, (hf f hm).mem_keys hw⟩

theorem nodup_keys (hf : ∀ f ∈ g.factors, f.WellFormed) : ∀ f ∈ g.factors, f.keys.Nodup :=
  fun f hm => (hf f hm).keys ▸ (hf f hm).linear.nodup

end Keys

theorem error_eq_sum {g : FactorGraph ℝ} {x : Assignment ℝ} {e : Factor ℝ → ℝ}
    (h : ∀ f ∈ g.factors, f.error x = .ok (e f)) : g.error x = .ok (g.factors.map e).sum := by
  refine (Outcome.foldlM_add (fun f hm s => ?_) 0).trans (by rw [zero_add])
  rw [h f hm, Outcome.ok_bind, Outcome.pure_eq_ok]

def ofLinear {α : Type} (factors : List (LinearFactor α)) : FactorGraph α :=
  ⟨factors.map .linear⟩

variable {factors : List (LinearFactor ℝ)} {x : Assignment ℝ}

theorem error_ofLinear (hf : ∀ f ∈ factors, f.WellFormed) (hx : ∀ f ∈ factors, x.Fits f.dims) :
    (ofLinear factors).error x = .ok (totalCost (factors.flatMap measurements) x.point) := by
  have he : ∀ f ∈ (ofLinear factors).factors, f.error x =
      .ok (totalCost f.toLinear.measurements x.point) :=
    List.forall_mem_map.mpr fun f hm => error_eq (hf f hm) (hx f hm)
  refine (error_eq_sum he).trans ?_
  rw [ofLinear, List.map_map, totalCost_flatMap]
  rfl

theorem admits_ofLinear (hf : ∀ f ∈ factors, f.WellFormed) (hx : ∀ f ∈ factors, x.Fits f.dims) :
    (∀ f ∈ factors, f.Admits x) ↔ Feasible (factors.flatMap measurements) x.point := by
  constructor
  case mp =>
    intro ha m hm
    have ⟨f, hf', hm⟩ := List.mem_flatMap.mp hm
    exact (admits_iff (hf f hf') (hx f hf')).mp (ha f hf') m hm
  case mpr =>
    intro ha f hf'
    exact (admits_iff (hf f hf') (hx f hf')).mpr fun m hm =>
      ha m (List.mem_flatMap.mpr ⟨f, hf', hm⟩)

end FactorGraph
end LinearGaussian
