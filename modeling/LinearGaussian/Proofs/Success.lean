import LinearGaussian.Proofs.BackSubstitution
import LinearGaussian.Proofs.Structure

namespace LinearGaussian

open LinearFactor Elimination

namespace Elimination

variable {α : Type} [Arith α] [RealLike α] {settings : EliminationSettings α}
  {factors rest : List (Factor α)} {k : Key} {ks : List Key} {cs : List (Conditional α)}

theorem Run.consistent (h : Run settings ks factors cs rest)
    (hr : Widths.Consistent (dimsOf rest)) :
    Widths.Consistent (dimsOf factors) := by
  -- Every elimination needs factors that agree, so that all of them agree if those that are left
  -- do.
  induction h
  case nil => exact hr
  case cons hs _ ih =>
    have ⟨d, _, _, hm, hne⟩ := hs.exists_dims
    intro v hv w hw he
    cases (hm v).mp hv
    case inl hv =>
      cases (hm w).mp hw
      case inl hw => rw [hv, hw]
      case inr hw => exact absurd (by rw [← he, hv]) (hne w hw)
    case inr hv =>
      cases (hm w).mp hw
      case inl hw => exact absurd (by rw [he, hw]) (hne v hv)
      case inr hw => exact ih hr v hv w hw he

theorem eliminateKey_ne_violated [UnitDeviations α] (hf : ∀ f ∈ factors, f.WellFormed)
    (v : Violation) :
    eliminateKey settings factors k ≠ violated v := by
  intro h
  rcases eliminateKey_eq_error h with ⟨_, he⟩ | ⟨_, h⟩
  case inl => cases he
  case inr => exact eliminate_ne_violated (wellFormed_gathered hf k) [k] settings v h

end Elimination

namespace FactorGraph

variable {α : Type} [Arith α] [RealLike α] {g : FactorGraph α} {order : EliminationOrder}
  {settings : EliminationSettings α} {net : BayesNet α}

section Dims

theorem dims_eq (g : FactorGraph α) :
    g.dims = KeyMap.ofList <$> Widths.ofOccurrences (dimsOf g.factors) := by
  have hd : g.factors.flatMap (·.dims) = dimsOf g.factors := by
    simp only [dimsOf, Factor.dims_toLinear]
  rw [← hd]
  rfl

theorem exists_dims_iff : (∃ ds, g.dims = .ok ds) ↔ Widths.Consistent (dimsOf g.factors) := by
  rw [dims_eq]
  constructor
  case mp =>
    intro ⟨_, h⟩
    have ⟨ws, hw, _⟩ := Outcome.map_eq_ok.mp h
    have ⟨hn, hm⟩ := Widths.ofOccurrences_eq_ok hw
    intro v hv w hw he
    exact KeyMap.eq_of_mem hn ((hm v).mpr hv) (he ▸ (hm w).mpr hw)
  case mpr =>
    intro hc
    have ⟨ws, hw⟩ := Widths.exists_ofOccurrences hc
    exact ⟨_, Outcome.map_eq_ok.mpr ⟨ws, hw, rfl⟩⟩

theorem get?_dims {ds : KeyMap Nat} (h : g.dims = .ok ds) {w : Key × Nat}
    (hw : w ∈ dimsOf g.factors) :
    ds.get? w.1 = some w.2 := by
  rw [dims_eq] at h
  have ⟨ws, hws, hd⟩ := Outcome.map_eq_ok.mp h
  have ⟨hn, hm⟩ := Widths.ofOccurrences_eq_ok hws
  rw [← hd, KeyMap.ofList, KeyMap.get?_foldl_insert hn,
    (KeyMap.lookup_eq_some_iff hn).mpr ((hm w).mpr hw)]
  rfl

theorem mem_keys_dims {ds : KeyMap Nat} (hf : ∀ f ∈ g.factors, f.WellFormed) (h : g.dims = .ok ds)
    {k : Key} :
    k ∈ ds.keys ↔ k ∈ g.keys := by
  rw [dims_eq] at h
  have ⟨ws, hws, hd⟩ := Outcome.map_eq_ok.mp h
  have hm := (Widths.ofOccurrences_eq_ok hws).right
  have he : (∅ : KeyMap Nat).keys = [] := rfl
  rw [← hd, KeyMap.ofList, KeyMap.mem_keys_foldl_insert, he, mem_keys_iff_dims hf]
  simp [hm]

theorem dims_eq_map_size (hf : ∀ f ∈ g.factors, f.WellFormed)
    (hc : Widths.Consistent (dimsOf g.factors)) {x : Assignment α} (hk : x.keys = g.keys)
    (hx : x.Fits (dimsOf g.factors)) : g.dims = .ok (x.map (·.size)) := by
  have ⟨ds, hd⟩ := exists_dims_iff.mpr hc
  have hkeys : ds.keys = (x.map (·.size)).keys := by
    have hm : (x.map (·.size)).keys = x.keys := by simp [KeyMap.map, KeyMap.keys]
    rw [hm, KeyMap.keys_eq_iff, hk]
    exact fun k => mem_keys_dims hf hd
  rw [hd]
  congr 1
  refine KeyMap.ext_of_keys hkeys fun k hm => ?_
  have ⟨d, hw⟩ := (mem_keys_iff_dims hf).mp ((mem_keys_dims hf hd).mp hm)
  have ⟨v, hv, hs⟩ := hx _ hw
  rw [get?_dims hd hw, KeyMap.get?_map, hv, Option.map_some, hs]

end Dims

theorem run_of_eliminate (hf : ∀ f ∈ g.factors, f.WellFormed)
    (h : g.eliminate order settings = .ok net) :
    ∃ rest, Run settings order.keys g.factors net.conditionals rest ∧ dimsOf rest = [] ∧
      ∀ k, k ∈ order.keys ↔ k ∈ g.keys := by
  have ⟨hc, rest, hr⟩ := (eliminate_eq_ok (nodup_keys hf)).mp h
  have hrun := run_iff.mpr ⟨hf, hr⟩
  refine ⟨rest, hrun, List.eq_nil_iff_forall_not_mem.mpr fun w hw => ?_, hc⟩
  have ⟨hw, hk⟩ := hrun.mem_dims_rest.mp hw
  exact hk ((hc w.1).mpr ((mem_keys_iff_dims hf).mpr ⟨w.2, hw⟩))

theorem consistent_of_eliminate (hf : ∀ f ∈ g.factors, f.WellFormed)
    (h : g.eliminate order settings = .ok net) :
    Widths.Consistent (dimsOf g.factors) := by
  have ⟨_, hrun, hrest, _⟩ := run_of_eliminate hf h
  exact hrun.consistent (by simp [Widths.Consistent, hrest])

theorem exists_eliminate [UnitDeviations α] (hf : ∀ f ∈ g.factors, f.WellFormed)
    (hc : Widths.Consistent (dimsOf g.factors)) (ho : ∀ k, k ∈ order.keys ↔ k ∈ g.keys)
    (hfree : settings.allowFree = true) : ∃ net, g.eliminate order settings = .ok net := by
  have ⟨cs, rest, hr⟩ := Run.exists_run hf hc order.nodup
    (fun k hk => (mem_keys_iff_dims hf).mp ((ho k).mp hk)) hfree
  exact ⟨⟨cs⟩, (eliminate_eq_ok (nodup_keys hf)).mpr ⟨ho, rest, (run_iff.mp hr).right⟩⟩

theorem eliminate_ne_violated [UnitDeviations α] (hf : ∀ f ∈ g.factors, f.WellFormed)
    (v : Violation) :
    g.eliminate order settings ≠ violated v := by
  intro h
  cases Outcome.bind_eq_error.mp h
  case inl h => exact checkCovers_ne_violated v h
  case inr h =>
    have ⟨_, _, h⟩ := h
    have h := (Outcome.bind_eq_error.mp h).resolve_right nofun
    rw [eliminatePartial_eq (nodup_keys hf), Outcome.map_eq_error] at h
    have ⟨_, _, _, _, _, _, hrun, he⟩ := Run.exists_stop hf h
    exact eliminateKey_ne_violated hrun.wellFormed.right v he

theorem exists_optimize_net (hf : ∀ f ∈ g.factors, f.WellFormed)
    (h : g.eliminate order settings = .ok net) :
    ∃ x, net.optimize = .ok x ∧ x.keys = g.keys ∧ x.Fits (dimsOf g.factors) := by
  have ⟨_, hrun, hrest, hc⟩ := run_of_eliminate hf h
  have ⟨x, hx, hk, hfit⟩ := hrun.exists_optimize hrest
  exact ⟨x, hx, KeyMap.keys_eq_iff.mpr fun k => (hk k).trans (hc k), hfit⟩

-- Elimination breaks no precondition. If variables may be free, it returns exactly if the order
-- covers the graph and all factors agree on the dimensions. Whenever it returns, so does
-- substitution, with a value of the right dimension for each variable of the graph.
theorem eliminate_returns [UnitDeviations α] (hf : ∀ f ∈ g.factors, f.WellFormed) :
    (∀ v, g.eliminate order settings ≠ violated v) ∧
    (settings.allowFree = true → ((∃ net, g.eliminate order settings = .ok net) ↔
      (∀ k, k ∈ order.keys ↔ k ∈ g.keys) ∧ ∃ ds, g.dims = .ok ds)) ∧
    ∀ net, g.eliminate order settings = .ok net →
      ∃ x, net.optimize = .ok x ∧ x.keys = g.keys ∧ g.dims = .ok (x.map (·.size)) := by
  refine ⟨eliminate_ne_violated hf, fun hfree => ?_, fun net h => ?_⟩
  case refine_1 =>
    rw [exists_dims_iff]
    constructor
    case mp =>
      exact fun ⟨_, h⟩ => ⟨((eliminate_eq_ok (nodup_keys hf)).mp h).left,
        consistent_of_eliminate hf h⟩
    case mpr => exact fun ⟨ho, hc⟩ => exists_eliminate hf hc ho hfree
  case refine_2 =>
    have ⟨x, hx, hk, hfit⟩ := exists_optimize_net hf h
    exact ⟨x, hx, hk, dims_eq_map_size hf (consistent_of_eliminate hf h) hk hfit⟩

theorem mem_keys_mixed (k : Key) : k ∈ [2, 0, 1] ↔ k ∈ mixed.keys := by
  rw [mem_keys_iff_dims wellFormed_mixed, dimsOf_mixed]
  simp
  grind

theorem eliminate_returns_mixed :
    ∃ net, mixed.eliminate ⟨[2, 0, 1], by decide⟩ ⟨0, 0, true⟩ = .ok net ∧
      ∃ x, net.optimize = .ok x ∧ x.keys = mixed.keys ∧ mixed.dims = .ok (x.map (·.size)) := by
  have ⟨net, h⟩ : ∃ net, mixed.eliminate ⟨[2, 0, 1], by decide⟩ ⟨0, 0, true⟩ = .ok net :=
    ((eliminate_returns wellFormed_mixed).right.left rfl).mpr ⟨mem_keys_mixed,
      exists_dims_iff.mpr consistent_mixed⟩
  exact ⟨net, h, (eliminate_returns wellFormed_mixed).right.right net h⟩

end FactorGraph
end LinearGaussian
