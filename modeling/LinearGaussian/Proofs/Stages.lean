import LinearGaussian.Proofs.Structure

namespace LinearGaussian

open Elimination

section Loop

variable {α : Type} [Arith α] [RealLike α] {settings : EliminationSettings α}

-- Eliminates one variable from a plain list of factors. What remains of the factors that mention it
-- goes to the end of the list, if it is about any variable.
def plainStep (settings : EliminationSettings α) :
    List (Conditional α) × List (Factor α) → Key → Outcome (List (Conditional α) × List (Factor α))
  | (found, factors), k => do
    let (mentioning, others) := factors.partition (k ∈ ·.keys)
    if mentioning.isEmpty then fail (.unknownVariable k)
    let r ← eliminate (mentioning.map (·.toLinear)) [k] settings
    return (found ++ [r.conditional], if r.remaining.keys.isEmpty then others
      else others ++ [.linear r.remaining])

theorem plainStep_eq (found : List (Conditional α)) (factors : List (Factor α)) (k : Key) :
    plainStep settings (found, factors) k =
      (fun r => (found ++ [r.1], r.2)) <$> eliminateKey settings factors k := by
  simp only [plainStep, List.partition_eq_filter_filter, eliminateKey]
  by_cases hg : (factors.filter (k ∈ ·.keys)).isEmpty
  case pos =>
    simp only [hg, if_true]
    rfl
  case neg =>
    simp only [hg]
    simp [map_eq_pure_bind, leftover, Function.comp_def]

theorem foldlM_plainStep (ks : List Key) (found : List (Conditional α))
    (factors : List (Factor α)) :
    ks.foldlM (plainStep settings) (found, factors) =
      (fun r => (found ++ r.1, r.2)) <$> eliminateKeys settings ks factors := by
  induction ks generalizing found factors
  case nil => simp [eliminateKeys]
  case cons k ks ih =>
    rw [List.foldlM_cons, plainStep_eq, eliminateKeys]
    cases eliminateKey settings factors k
    case error => rfl
    case ok r => simp [ih, map_eq_pure_bind]

end Loop

section Stages

variable {α : Type} [Arith α] [RealLike α] {settings : EliminationSettings α}
  {factors rest : List (Factor α)} {ks : List Key} {cs : List (Conditional α)}

omit [Arith α] [RealLike α] in
theorem nodup_leftover {k : Key} {r : Elimination α} (hn : ∀ f ∈ factors, f.keys.Nodup)
    (hr : r.remaining.keys.Nodup) : ∀ f ∈ leftover factors k r, f.keys.Nodup := by
  intro f hf
  cases mem_leftover hf
  case inl hf => exact hn f hf.left
  case inr hf => exact hf ▸ hr

theorem nodup_eliminateKeys (hn : ∀ f ∈ factors, f.keys.Nodup)
    (h : eliminateKeys settings ks factors = .ok (cs, rest)) : ∀ f ∈ rest, f.keys.Nodup := by
  induction ks generalizing factors cs
  case nil =>
    cases h
    exact hn
  case cons k ks ih =>
    have ⟨_, _, _, hk, h, _⟩ := eliminateKeys_cons_eq_ok.mp h
    have ⟨_, r, hr, _, hl⟩ := eliminateKey_eq_ok.mp hk
    exact ih (hl ▸ nodup_leftover hn (nodup_remaining hr)) h

theorem eliminateKeys_append (ks ls : List Key) (factors : List (Factor α)) :
    eliminateKeys settings (ks ++ ls) factors = (do
      let (cs, rest) ← eliminateKeys settings ks factors
      let (ds, rest) ← eliminateKeys settings ls rest
      return (cs ++ ds, rest)) := by
  induction ks generalizing factors
  case nil => exact (bind_pure _).symm
  case cons k ks ih => simp [eliminateKeys, ih]

end Stages

namespace FactorGraph

variable {α : Type} [Arith α] [RealLike α] {g : FactorGraph α} {order : EliminationOrder}
  {settings : EliminationSettings α}

def eliminatePlainly (g : FactorGraph α) (order : EliminationOrder)
    (settings : EliminationSettings α) : Outcome (BayesNet α × FactorGraph α) := do
  let (found, factors) ← order.keys.foldlM (plainStep settings) ([], g.factors)
  return (⟨found⟩, ⟨factors⟩)

-- A partial elimination is the plain loop, down to the order of all factors and to the reason of a
-- failure.
theorem eliminatePartial_eq_eliminatePlainly (hn : ∀ f ∈ g.factors, f.keys.Nodup) :
    g.eliminatePartial order settings = g.eliminatePlainly order settings := by
  rw [eliminatePartial_eq hn, eliminatePlainly, foldlM_plainStep]
  simp [map_eq_pure_bind]

-- A partial elimination can be stopped after any variable and taken up again from the factors that
-- are left.
theorem eliminatePartial_append (hn : ∀ f ∈ g.factors, f.keys.Nodup)
    (order₁ order₂ : EliminationOrder) (ho : order.keys = order₁.keys ++ order₂.keys) :
    g.eliminatePartial order settings = (do
      let (net₁, rest) ← g.eliminatePartial order₁ settings
      let (net₂, remaining) ← rest.eliminatePartial order₂ settings
      return (⟨net₁.conditionals ++ net₂.conditionals⟩, remaining)) := by
  rw [eliminatePartial_eq hn, eliminatePartial_eq hn, ho, eliminateKeys_append]
  cases h : eliminateKeys settings order₁.keys g.factors
  case error => rfl
  case ok r =>
    -- What is left of the first run is a graph of the same kind, so the second may start from it.
    have hr := nodup_eliminateKeys hn h
    simp only [Outcome.map_ok, Outcome.ok_bind]
    rw [eliminatePartial_eq hr]
    cases eliminateKeys settings order₂.keys r.2 <;> rfl

theorem eliminatePartial_eq_eliminatePlainly_mixed :
    (∃ r, mixed.eliminatePartial ⟨[1, 0], by decide⟩ ⟨0, 0, true⟩ = .ok r ∧
      mixed.eliminatePlainly ⟨[1, 0], by decide⟩ ⟨0, 0, true⟩ = .ok r) ∧
    mixed.eliminatePartial ⟨[3], by decide⟩ ⟨0, 0, true⟩ = fail (.unknownVariable 3) ∧
    mixed.eliminatePlainly ⟨[3], by decide⟩ ⟨0, 0, true⟩ = fail (.unknownVariable 3) := by
  have ⟨net, rest, h⟩ := exists_eliminatePartial_mixed
  have hn := nodup_keys wellFormed_mixed
  exact ⟨⟨_, h, eliminatePartial_eq_eliminatePlainly hn ▸ h⟩, rfl,
    eliminatePartial_eq_eliminatePlainly hn ▸ rfl⟩

theorem eliminatePartial_append_mixed :
    (∃ net₁ rest net₂ remaining,
      mixed.eliminatePartial ⟨[1], by decide⟩ ⟨0, 0, true⟩ = .ok (net₁, rest) ∧
      rest.eliminatePartial ⟨[0], by decide⟩ ⟨0, 0, true⟩ = .ok (net₂, remaining) ∧
      mixed.eliminatePartial ⟨[1, 0], by decide⟩ ⟨0, 0, true⟩ =
        .ok (⟨net₁.conditionals ++ net₂.conditionals⟩, remaining)) ∧
    mixed.eliminatePartial ⟨[3, 0], by decide⟩ ⟨0, 0, true⟩ = fail (.unknownVariable 3) := by
  have hn := nodup_keys wellFormed_mixed
  constructor
  case left =>
    have ⟨net, rest, h⟩ := exists_eliminatePartial_mixed
    have h' := h
    rw [eliminatePartial_append hn ⟨[1], by decide⟩ ⟨[0], by decide⟩ rfl] at h'
    have ⟨⟨net₁, rest₁⟩, h₁, h'⟩ := Outcome.bind_eq_ok.mp h'
    have ⟨⟨net₂, rest₂⟩, h₂, h'⟩ := Outcome.bind_eq_ok.mp h'
    exact ⟨net₁, rest₁, net₂, rest₂, h₁, h₂, h.trans h'.symm⟩
  case right =>
    rw [eliminatePartial_append hn ⟨[3], by decide⟩ ⟨[0], by decide⟩ rfl]
    rfl

end FactorGraph
end LinearGaussian
