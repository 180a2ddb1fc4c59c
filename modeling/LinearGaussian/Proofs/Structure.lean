import LinearGaussian.Proofs.Run

namespace LinearGaussian

open LinearFactor

theorem EliminationOrder.ofKeys_keys (o : EliminationOrder) : ofKeys o.keys = .ok o := by
  unfold ofKeys
  split
  case h_1 k hk =>
    rw [Key.firstRepeat?_eq_none_iff.mpr o.nodup] at hk
    contradiction
  case h_2 => rfl

namespace Elimination

variable {α : Type} [Arith α] [RealLike α] {settings : EliminationSettings α}
  {factors rest : List (Factor α)} {k : Key} {ks : List Key} {r : Elimination α} {c : Conditional α}
    {cs : List (Conditional α)}

theorem Step.keys_remaining (h : Step settings factors k r) :
    r.remaining.keys = r.conditional.parents := by
  have ⟨_, _, ho⟩ := h.exists_of
  rw [ho.remaining_eq, ho.conditional_eq]
  rfl

def untouched (ks : List Key) (factors : List (Factor α)) : List (Factor α) :=
  factors.filter fun f => ∀ k ∈ f.keys, k ∉ ks

omit [Arith α] [RealLike α] in
theorem untouched_cons (k : Key) (ks : List Key) (factors : List (Factor α)) :
    untouched (k :: ks) factors = untouched ks (factors.filter (k ∉ ·.keys)) := by
  simp only [untouched, List.filter_filter]
  apply List.filter_congr
  intro f _
  rw [← Bool.decide_and, decide_eq_decide]
  grind

theorem Step.untouched_leftover (h : Step settings factors k r) (ks : List Key) :
    ∃ fs : List (LinearFactor α), untouched ks (leftover factors k r) =
      untouched (k :: ks) factors ++ fs.map .linear ∧
      (fs.map (·.keys)).Sublist [r.conditional.parents] := by
  rw [untouched_cons, ← h.keys_remaining]
  simp only [leftover]
  split
  case isTrue => exact ⟨[], by simp, by simp⟩
  case isFalse =>
    by_cases hr : ∀ l ∈ (Factor.linear r.remaining).keys, l ∉ ks
    case pos => exact ⟨[r.remaining], by simpa [untouched] using hr, by simp⟩
    case neg => exact ⟨[], by simpa [untouched] using hr, by simp⟩

namespace Run

theorem frontals_eq (h : Run settings ks factors cs rest) : cs.map (·.frontals) = ks.map ([·]) := by
  induction h
  case nil => rfl
  case cons hs _ ih => rw [List.map_cons, List.map_cons, hs.frontals_eq, ih]

theorem mem_parentDims (h : Run settings ks factors cs rest) {i : Nat} (hc : cs[i]? = some c)
    {w : Key × Nat} (hw : w ∈ c.parentDims) : w ∈ dimsOf factors ∧ w.1 ∉ ks.take (i + 1) := by
  induction h generalizing i
  case nil => simp at hc
  case cons hs _ ih =>
    have ⟨_, _, hp, hm, hne⟩ := hs.exists_dims
    cases i
    case zero =>
      cases hc
      exact ⟨(hm w).mpr (.inr (hp hw)), by simpa using hne w (hp hw)⟩
    case succ i =>
      have ⟨hw, hk⟩ := ih hc
      exact ⟨(hm w).mpr (.inr hw), by simpa using ⟨hne w hw, hk⟩⟩

-- The factors that mention no eliminated variable stay as they are. What remains of others comes
-- after them, in the order of the densities.
theorem exists_residuals (h : Run settings ks factors cs rest) :
    ∃ residuals : List (LinearFactor α), rest = untouched ks factors ++ residuals.map .linear ∧
      (residuals.map (·.keys)).Sublist (cs.map (·.parents)) := by
  induction h
  case nil factors => exact ⟨[], by simp [untouched], .slnil⟩
  case cons factors k r ks cs rest hs _ ih =>
    have ⟨residuals, hr, hk⟩ := ih
    have ⟨fs, hu, hfs⟩ := hs.untouched_leftover ks
    exact ⟨fs ++
      residuals, by rw [hr, hu, List.map_append, List.append_assoc], by simpa using hfs.append hk⟩

end Run

theorem eliminateKey_unknown {l : Key} (hf : ∀ f ∈ factors, f.WellFormed)
    (h : eliminateKey settings factors k = fail (.unknownVariable l)) :
    l = k ∧ ∀ d, (k, d) ∉ dimsOf factors := by
  cases eliminateKey_eq_error h
  case inl h =>
    have ⟨hg, he⟩ := h
    cases he
    refine ⟨rfl, fun d hd => ?_⟩
    have ⟨f, hm, hw⟩ := mem_dimsOf.mp hd
    exact List.filter_eq_nil_iff.mp hg f hm (by simpa using (hf f hm).mem_keys hw)
  case inr h =>
    -- Every gathered factor mentions the variable, so that they can be combined.
    have ⟨hg, h⟩ := h
    have ⟨f, hm⟩ := List.exists_mem_of_ne_nil _ hg
    have ⟨hfm, hk⟩ := List.mem_filter.mp hm
    have hk : k ∈ f.toLinear.dims.map (·.1) := by
      rw [(hf f hfm).linear.keys_dims, (hf f hfm).keys]
      simpa using hk
    rcases eliminate_eq_error (wellFormed_gathered hf k) h with he | hc | ⟨_, _, he⟩ | ⟨⟨_, he⟩, _⟩
    case inr.inl =>
      rcases combine_eq_error hc with ⟨_, he⟩ | ⟨_, _, _, he⟩ | ⟨_, hl, hn, he⟩ | ⟨⟨_, he⟩, _⟩
      case inr.inr.inl =>
        exact absurd (List.mem_singleton.mp hl ▸ hk) (hn f.toLinear (List.mem_map_of_mem hm))
      all_goals cases he
    all_goals cases he

end Elimination

namespace FactorGraph

open Elimination

variable {α : Type} [Arith α] [RealLike α] {g rest : FactorGraph α} {order : EliminationOrder}
  {settings : EliminationSettings α} {net : BayesNet α}

theorem run_of_eliminatePartial (hf : ∀ f ∈ g.factors, f.WellFormed)
    (h : g.eliminatePartial order settings = .ok (net, rest)) :
    Run settings order.keys g.factors net.conditionals rest.factors :=
  run_iff.mpr ⟨hf, (eliminatePartial_eq_ok (nodup_keys hf)).mp h⟩

structure Layout (g : FactorGraph α) (o : EliminationOrder) (net : BayesNet α)
    (rest : FactorGraph α) : Prop where
  frontals : net.conditionals.map (·.frontals) = o.keys.map ([·])
  parents  : ∀ i c, net.get? i = some c → ∀ k ∈ c.parents, k ∈ g.keys ∧ k ∉ o.keys.take (i + 1)
  order    : net.order = .ok o
  keys     : rest.keys = g.keys.filter (· ∉ o.keys)
  factors  : ∃ residuals : List (LinearFactor α),
    rest.factors = g.factors.filter (fun f => ∀ k ∈ f.keys, k ∉ o.keys) ++ residuals.map .linear ∧
      (residuals.map (·.keys)).Sublist (net.conditionals.map (·.parents))

theorem keys_of_run (h : Run settings order.keys g.factors net.conditionals rest.factors) :
    rest.keys = g.keys.filter (· ∉ order.keys) := by
  apply rest.pairwise_keys.eq_of_mem_iff (g.pairwise_keys.filter _)
  have ⟨hf, _⟩ := run_iff.mp h
  intro k
  simp only [mem_keys_iff_dims h.wellFormed.right, h.mem_dims_rest, List.mem_filter,
    mem_keys_iff_dims hf, exists_and_right, decide_eq_true_eq]

-- Whatever the numbers are, a partial elimination that returns leaves everything in its place. It
-- fails because of an unknown variable only if the order names one.
theorem layout_eliminatePartial (hf : ∀ f ∈ g.factors, f.WellFormed) :
    (∀ net rest, g.eliminatePartial order settings = .ok (net, rest) → g.Layout order net rest) ∧
      ∀ k, g.eliminatePartial order settings = fail (.unknownVariable k) →
        k ∈ order.keys ∧ k ∉ g.keys := by
  constructor
  case left =>
    intro net rest h
    have hr := run_of_eliminatePartial hf h
    constructor
    case frontals => exact hr.frontals_eq
    case parents =>
      intro i c hc k hk
      have hw := hr.wellFormed.left c (List.mem_of_getElem? hc)
      rw [← hw.keys_parentDims] at hk
      have ⟨w, hw, he⟩ := List.mem_map.mp hk
      have ⟨hm, hn⟩ := hr.mem_parentDims hc hw
      exact he ▸ ⟨(mem_keys_iff_dims hf).mpr ⟨w.2, hm⟩, hn⟩
    case order =>
      have hk : net.conditionals.flatMap (·.frontals) = order.keys := by
        rw [List.flatMap_def, hr.frontals_eq, ← List.flatMap_def, List.flatMap_singleton']
      rw [BayesNet.order, hk, order.ofKeys_keys]
    case keys => exact keys_of_run hr
    case factors => exact hr.exists_residuals
  case right =>
    intro l h
    rw [eliminatePartial_eq (nodup_keys hf), fail, Outcome.map_eq_error] at h
    -- The loop stops at some variable, which the factors that are left by then do not mention.
    have ⟨before, k, after, cs, rest, hks, hrun, he⟩ := Run.exists_stop hf h
    have ⟨hl, hd⟩ := eliminateKey_unknown hrun.wellFormed.right he
    have hn := order.nodup
    rw [hks] at hn ⊢
    subst hl
    have hk : l ∉ before := fun hm => (List.nodup_append.mp hn).right.right l hm l (.head _) rfl
    refine ⟨by simp, fun hm => ?_⟩
    have ⟨d, hm⟩ := (mem_keys_iff_dims hf).mp hm
    exact hd d (hrun.mem_dims_rest.mpr ⟨hm, hk⟩)

-- Variables of which one is seen through a coefficient that is no number, with a factor about no
-- variable and one that is given by its information.
def mixed : FactorGraph Float :=
  ⟨[.linear (scalarRow [0, 1] [0 / 0, 1] 2 1), .linear (ofRhs #[3]),
    .information ⟨[1, 2], BlockMatrix.ofFn 3 [1, 1, 1] fun i j => if i.val = j.val then 1 else 0⟩,
    .linear (scalarRow [2] [1] (1 / 0) 0)]⟩

theorem wellFormed_mixed : ∀ f ∈ mixed.factors, f.WellFormed := by
  simp only [mixed, List.forall_mem_cons, List.not_mem_nil, false_imp_iff, implies_true, and_true]
  exact ⟨⟨wellFormed_scalarRow_of_admissible (by decide) UnitDeviations.one, rfl⟩,
    ⟨wellFormed_ofRhs _, rfl⟩, Factor.wellFormed_information (by decide) rfl rfl,
    ⟨wellFormed_scalarRow_of_admissible (by decide) UnitDeviations.zero, rfl⟩⟩

theorem dimsOf_mixed : dimsOf mixed.factors = [(0, 1), (1, 1), (1, 1), (2, 1), (2, 1)] :=
  rfl

theorem consistent_mixed : Widths.Consistent (dimsOf mixed.factors) := by
  rw [dimsOf_mixed]
  unfold Widths.Consistent
  decide

theorem exists_eliminatePartial_mixed :
    ∃ net rest, mixed.eliminatePartial ⟨[1, 0], by decide⟩ ⟨0, 0, true⟩ = .ok (net, rest) := by
  have ⟨cs, rest, hr⟩ : ∃ cs rest, Run ⟨0, 0, true⟩ [1, 0] mixed.factors cs rest :=
    Run.exists_run wellFormed_mixed consistent_mixed (by decide) (by simp [dimsOf_mixed]) rfl
  exact ⟨⟨cs⟩, ⟨rest⟩,
    (eliminatePartial_eq_ok (nodup_keys wellFormed_mixed)).mpr (run_iff.mp hr).right⟩

theorem layout_eliminatePartial_mixed :
    (∃ net rest, mixed.eliminatePartial ⟨[1, 0], by decide⟩ ⟨0, 0, true⟩ = .ok (net, rest) ∧
      mixed.Layout ⟨[1, 0], by decide⟩ net rest) ∧
    mixed.eliminatePartial ⟨[3], by decide⟩ ⟨0, 0, true⟩ = fail (.unknownVariable 3) ∧
      3 ∉ mixed.keys := by
  have ⟨_, _, h⟩ := exists_eliminatePartial_mixed
  have hn : mixed.eliminatePartial ⟨[3], by decide⟩ ⟨0, 0, true⟩ = fail (.unknownVariable 3) := rfl
  exact ⟨⟨_, _, h, (layout_eliminatePartial wellFormed_mixed).left _ _ h⟩, hn,
    ((layout_eliminatePartial wellFormed_mixed).right 3 hn).right⟩

end FactorGraph
end LinearGaussian
