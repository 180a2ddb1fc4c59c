import LinearGaussian.Proofs.Elimination
import LinearGaussian.Elimination.Sequence

namespace LinearGaussian

section Lists

variable {β : Type}

theorem filter_range_mem {slots : List Nat} (hs : slots.Pairwise (· < ·)) {n : Nat}
    (hn : ∀ i ∈ slots, i < n) :
    (List.range n).filter (· ∈ slots) = slots := by
  apply List.Pairwise.eq_of_mem_iff (r := (· < ·))
  case h₁ => exact List.pairwise_lt_range.filter _
  case h₂ => exact hs
  case h =>
    intro i
    simpa using hn i

theorem getElem?_clear (slots : List Nat) (pool : Array (Option β)) (i : Nat) :
    (slots.foldl (·.setIfInBounds · none) pool)[i]?.join = if i ∈ slots then
      none else pool[i]?.join := by
  induction slots generalizing pool
  case nil => simp
  case cons j js ih =>
    rw [List.foldl_cons, ih, Array.getElem?_setIfInBounds]
    by_cases hj : j = i
    case pos => by_cases hi : i < pool.size <;> simp [hj, hi]
    case neg => simp [hj, Ne.symm hj]

theorem size_clear (slots : List Nat) (pool : Array (Option β)) :
    (slots.foldl (·.setIfInBounds · none) pool).size = pool.size := by
  induction slots generalizing pool <;> simp_all

theorem filterMap_id_eq (pool : Array (Option β)) :
    pool.toList.filterMap id = (List.range pool.size).filterMap fun i => pool[i]?.join := by
  have h : pool.toList = (List.range pool.size).map fun i => pool[i]?.join := by
    apply List.ext_getElem
    case hl => simp
    case h =>
      intro i hi _
      have hi : i < pool.size := by simpa using hi
      simp [hi]
  rw [h, List.filterMap_map]
  rfl

end Lists

namespace Incidence

variable {t : Incidence} {slot : Nat} {keys : List Key}

theorem slots_add (hn : keys.Nodup) (k : Key) :
    (t.add slot keys).slots k = if k ∈ keys then t.slots k ++ [slot] else t.slots k := by
  induction keys generalizing t
  case nil => simp [add]
  case cons l ls ih =>
    have ⟨hl, hls⟩ := List.nodup_cons.mp hn
    have hi := ih (t := ⟨t.slotsOf.insert l (t.slots l ++ [slot])⟩) hls
    have ha : t.add slot (l :: ls) = add ⟨t.slotsOf.insert l (t.slots l ++ [slot])⟩ slot ls := rfl
    rw [ha, hi]
    by_cases hk : k = l
    case pos => simp [hk, hl, slots]
    case neg => simp [hk, slots]

theorem slots_erase (l k : Key) : (t.erase l).slots k = if k = l then [] else t.slots k := by
  by_cases h : k = l <;> simp [erase, slots, h]

theorem ofFactors_concat {α : Type} (fs : List (Factor α)) (f : Factor α) :
    ofFactors (fs ++ [f]) = (ofFactors fs).add fs.length f.keys := by
  simp [ofFactors, List.zipIdx_append]

end Incidence

section Index

variable {α : Type} {k : Key}

def leftover (factors : List (Factor α)) (k : Key) (r : Elimination α) : List (Factor α) :=
  let others := factors.filter (k ∉ ·.keys)
  if r.remaining.keys.isEmpty then others else others ++ [.linear r.remaining]

namespace EliminationState

variable {s : EliminationState α}

def live (s : EliminationState α) : List (Factor α) :=
  s.remaining.factors

def at? (s : EliminationState α) (i : Nat) : Option (Factor α) :=
  s.pool[i]?.join

-- The table lists the slots in order. A slot that still holds a factor is listed for the variables
-- of that factor only, but for all of them.
structure Indexed (s : EliminationState α) : Prop where
  sorted : ∀ k, (s.incidence.slots k).Pairwise (· < ·)
  lt     : ∀ k, ∀ i ∈ s.incidence.slots k, i < s.pool.size
  mem    : ∀ k i f, s.at? i = some f → (i ∈ s.incidence.slots k ↔ k ∈ f.keys)

-- What can be told apart from outside.
def view (s : EliminationState α) : List (Conditional α) × List (Factor α) :=
  (s.conditionals, s.live)

def after (s : EliminationState α) (k : Key) (r : Elimination α) : EliminationState α :=
  (s.take k).2.record r

theorem live_eq (s : EliminationState α) : s.live = (List.range s.pool.size).filterMap s.at? :=
  filterMap_id_eq s.pool

theorem at?_take (s : EliminationState α) (k : Key) (i : Nat) :
    (s.take k).2.at? i = if i ∈ s.incidence.slots k then none else s.at? i :=
  getElem?_clear _ _ i

theorem at?_push (s : EliminationState α) (f : Factor α) (i : Nat) :
    (s.push f).at? i = if i = s.pool.size then some f else s.at? i := by
  unfold at? push
  rw [Array.getElem?_push]
  split <;> rfl

theorem slots_push {f : Factor α} (hn : f.keys.Nodup) (l : Key) : (s.push f).incidence.slots l =
    if l ∈ f.keys then s.incidence.slots l ++ [s.pool.size] else s.incidence.slots l :=
  Incidence.slots_add hn l

theorem mem_slots_push {f : Factor α} (hn : f.keys.Nodup) (l : Key) (i : Nat) :
    i ∈ (s.push f).incidence.slots l ↔ i ∈ s.incidence.slots l ∨ l ∈ f.keys ∧ i = s.pool.size := by
  by_cases hl : l ∈ f.keys <;> simp [slots_push hn, hl]

@[simp]
theorem live_push (s : EliminationState α) (f : Factor α) : (s.push f).live = s.live ++ [f] := by
  simp [live, remaining, push]

theorem live_ofGraph (g : FactorGraph α) : (ofGraph g).live = g.factors := by
  simp [live, remaining, ofGraph]

theorem ofGraph_concat (fs : List (Factor α)) (f : Factor α) :
    ofGraph ⟨fs ++ [f]⟩ = (ofGraph ⟨fs⟩).push f := by
  simp [ofGraph, push, Incidence.ofFactors_concat]

namespace Indexed

theorem gathered (h : s.Indexed) (k : Key) : (s.take k).1 = s.live.filter (k ∈ ·.keys) := by
  have hf := filter_range_mem (h.sorted k) (h.lt k)
  rw [live_eq, List.filter_filterMap]
  show (s.incidence.slots k).filterMap s.at? = _
  rw [← hf, List.filterMap_filter]
  apply List.filterMap_congr
  intro i _
  cases hi : s.at? i
  case none => simp
  case some f => by_cases hk : k ∈ f.keys <;> simp [h.mem k i f hi, hk, Option.filter]

theorem live_take (h : s.Indexed) (k : Key) : (s.take k).2.live = s.live.filter (k ∉ ·.keys) := by
  have hs : (s.take k).2.pool.size = s.pool.size := size_clear _ _
  rw [live_eq, live_eq, List.filter_filterMap, hs]
  apply List.filterMap_congr
  intro i _
  rw [at?_take]
  cases hi : s.at? i
  case none => simp
  case some f => by_cases hk : k ∈ f.keys <;> simp [h.mem k i f hi, hk, Option.filter]

theorem take (h : s.Indexed) (k : Key) : (s.take k).2.Indexed := by
  have hs : (s.take k).2.pool.size = s.pool.size := size_clear _ _
  have hi (l : Key) : (s.take k).2.incidence.slots l = if l = k then [] else s.incidence.slots l :=
    Incidence.slots_erase k l
  constructor
  case sorted =>
    intro l
    by_cases hl : l = k <;> simp [hi, hl, h.sorted]
  case lt =>
    intro l i hm
    by_cases hl : l = k
    case pos => simp [hi, hl] at hm
    case neg =>
      rw [hi, if_neg hl] at hm
      exact hs ▸ h.lt l i hm
  case mem =>
    intro l i f hf
    rw [at?_take] at hf
    split at hf
    case isTrue => contradiction
    case isFalse hk =>
      by_cases hl : l = k
      case pos => simpa [hi, hl] using mt (h.mem k i f hf).mpr hk
      case neg => simpa [hi, hl] using h.mem l i f hf

theorem push (h : s.Indexed) {f : Factor α} (hn : f.keys.Nodup) : (s.push f).Indexed := by
  have hs : (s.push f).pool.size = s.pool.size + 1 := Array.size_push _
  constructor
  case sorted =>
    intro l
    rw [slots_push hn]
    by_cases hl : l ∈ f.keys
    case pos =>
      rw [if_pos hl]
      refine List.pairwise_append.mpr ⟨h.sorted l, List.pairwise_singleton _ _, ?_⟩
      simpa using h.lt l
    case neg => simpa [hl] using h.sorted l
  case lt =>
    intro l i hm
    rw [hs]
    cases (mem_slots_push hn l i).mp hm
    case inl hm => exact Nat.lt_succ_of_lt (h.lt l i hm)
    case inr hm => exact hm.right ▸ Nat.lt_succ_self _
  case mem =>
    intro l i g hg
    rw [at?_push] at hg
    -- No variable has the new slot in its list yet, as all listed slots are in the pool.
    have hnew : s.pool.size ∉ s.incidence.slots l := fun hm => Nat.lt_irrefl _ (h.lt l _ hm)
    split at hg
    case isTrue hp =>
      cases hg
      simp [mem_slots_push hn, hp, hnew]
    case isFalse hp => simp [mem_slots_push hn, hp, h.mem l i g hg]

theorem append_conditional (h : s.Indexed) (cs : List (Conditional α)) :
    ({ s with conditionals := cs }).Indexed :=
  ⟨h.sorted, h.lt, h.mem⟩

theorem put (h : s.Indexed) {f : LinearFactor α} (hn : f.keys.Nodup) : (s.put f).Indexed := by
  unfold EliminationState.put
  split
  case isTrue => exact h
  case isFalse => exact h.push (f := .linear f) hn

theorem after (h : s.Indexed) {r : Elimination α} (hn : r.remaining.keys.Nodup) :
    (s.after k r).Indexed :=
  ((h.take k).append_conditional _).put hn

theorem view_after (h : s.Indexed) (r : Elimination α) :
    (s.after k r).view = (s.conditionals ++ [r.conditional], leftover s.live k r) := by
  have hl := h.live_take k
  unfold EliminationState.after EliminationState.record EliminationState.put leftover
  split
  case isTrue => exact Prod.ext rfl hl
  case isFalse =>
    exact Prod.ext rfl $ (live_push _ (.linear r.remaining)).trans (congrArg (· ++ _) hl)

end Indexed

theorem indexed_ofGraph {g : FactorGraph α} (hn : ∀ f ∈ g.factors, f.keys.Nodup) :
    (ofGraph g).Indexed := by
  have ⟨fs⟩ := g
  induction fs using List.reverseRecOn
  case nil =>
    constructor <;> intro k <;> simp [ofGraph, Incidence.ofFactors, Incidence.empty,
      Incidence.slots, at?]
  case append_singleton fs f ih =>
    rw [ofGraph_concat]
    exact (ih fun f hf => hn f (List.mem_append_left _ hf)).push $ hn f (by simp)

end EliminationState
end Index

section Plain

variable {α : Type} [Arith α] [RealLike α] {settings : EliminationSettings α}

def eliminateKey (settings : EliminationSettings α) (factors : List (Factor α)) (k : Key) :
    Outcome (Conditional α × List (Factor α)) :=
  let gathered := factors.filter (k ∈ ·.keys)
  if gathered.isEmpty then fail (.unknownVariable k)
  else do
    let r ← eliminate (gathered.map (·.toLinear)) [k] settings
    return (r.conditional, leftover factors k r)

-- The densities of several variables, and the factors that are left when these have been eliminated
-- in turn.
def eliminateKeys (settings : EliminationSettings α) :
    List Key → List (Factor α) → Outcome (List (Conditional α) × List (Factor α))
  | [], factors => return ([], factors)
  | k :: ks, factors => do
    let (c, factors) ← eliminateKey settings factors k
    let (cs, factors) ← eliminateKeys settings ks factors
    return (c :: cs, factors)

theorem keys_remainingOf {f g : LinearFactor α} {count : Nat}
    {rows : List (PivotRow α f.ab.full.cols)} (h : Elimination.remainingOf f count rows = .ok g) :
    g.keys = f.keys.drop count :=
  (Elimination.remainingOf_eq_ok.mp h).left ▸ rfl

theorem nodup_remaining {factors : List (LinearFactor α)} {frontals : List Key} {r : Elimination α}
    (h : eliminate factors frontals settings = .ok r) : r.remaining.keys.Nodup := by
  have ⟨_, f, _, hc, _, _, _, hr⟩ := eliminate_eq_ok.mp h
  have ⟨hn, ws, hw, ho, hk, _⟩ := LinearFactor.combine_eq_ok hc
  have hf : f.keys.Nodup := hk ▸ Widths.nodup_reorder (Widths.ofOccurrences_eq_ok hw).left hn ho
  exact keys_remainingOf hr ▸ hf.sublist (List.drop_sublist _ _)

namespace EliminationState

variable {s t : EliminationState α} {k : Key}

theorem step_eq (s : EliminationState α) (k : Key) :
    step settings s k =
      if (s.take k).1.isEmpty then fail (.unknownVariable k)
      else do return s.after k (← eliminate ((s.take k).1.map (·.toLinear)) [k] settings) := by
  unfold step
  by_cases hg : (s.take k).1.isEmpty
  case pos => simp [hg]
  case neg =>
    simp only [hg]
    rfl

namespace Indexed

theorem step (h : s.Indexed) (ht : step settings s k = .ok t) : t.Indexed := by
  rw [step_eq] at ht
  split at ht
  case isTrue => exact absurd ht (Outcome.fail_ne_ok _ _)
  case isFalse =>
    have ⟨r, hr, ht⟩ := Outcome.bind_eq_ok.mp ht
    cases ht
    exact h.after (nodup_remaining hr)

theorem run (h : s.Indexed) {ks : List Key}
    (ht : ks.foldlM (EliminationState.step settings) s = .ok t) : t.Indexed := by
  induction ks generalizing s
  case nil =>
    cases ht
    exact h
  case cons k ks ih =>
    rw [List.foldlM_cons] at ht
    have ⟨_, hs, ht⟩ := Outcome.bind_eq_ok.mp ht
    exact ih (h.step hs) ht

theorem view_step (h : s.Indexed) (settings : EliminationSettings α) (k : Key) :
    view <$> EliminationState.step settings s k =
      (fun r => (s.conditionals ++ [r.1], r.2)) <$> eliminateKey settings s.live k := by
  unfold eliminateKey
  rw [step_eq, h.gathered]
  dsimp only
  split
  case isTrue => rfl
  case isFalse => simp only [map_bind, map_pure, h.view_after]

theorem view_run (h : s.Indexed) (ks : List Key) :
    view <$> ks.foldlM (EliminationState.step settings) s =
      (fun r => (s.conditionals ++ r.1, r.2)) <$> eliminateKeys settings ks s.live := by
  induction ks generalizing s
  case nil => simp [eliminateKeys, view]
  case cons k ks ih =>
    have hv := h.view_step settings k
    rw [List.foldlM_cons, eliminateKeys]
    cases ht : EliminationState.step settings s k
    case error e =>
      cases he : eliminateKey settings s.live k
      case error e' =>
        rw [ht, he] at hv
        cases hv
        rfl
      case ok r =>
        rw [ht, he] at hv
        contradiction
    case ok t =>
      rw [ht] at hv
      have ⟨r, hr, hv⟩ := Outcome.map_eq_ok.mp hv.symm
      have hc : s.conditionals ++ [r.1] = t.conditionals := congrArg Prod.fst hv
      have hl : r.2 = t.live := congrArg Prod.snd hv
      rw [hr, Outcome.ok_bind, Outcome.ok_bind, ih (h.step ht), ← hc, ← hl]
      simp only [map_eq_pure_bind, bind_assoc, pure_bind, List.append_assoc, List.singleton_append]

end Indexed

theorem view_ofGraph {g : FactorGraph α} (hn : ∀ f ∈ g.factors, f.keys.Nodup) (ks : List Key) :
    view <$> ks.foldlM (step settings) (ofGraph g) = eliminateKeys settings ks g.factors := by
  rw [(indexed_ofGraph hn).view_run, live_ofGraph]
  exact id_map _

theorem gathered_iff {g : FactorGraph α} (hn : ∀ f ∈ g.factors, f.keys.Nodup) {ks : List Key}
    {k : Key} {fs : List (Factor α)} :
    (∃ s, ks.foldlM (step settings) (ofGraph g) = .ok s ∧ (s.take k).1 = fs) ↔
      ∃ cs rest, eliminateKeys settings ks g.factors = .ok (cs, rest) ∧
        rest.filter (k ∈ ·.keys) = fs := by
  rw [← view_ofGraph hn]
  have hg {s : EliminationState α} (hs : ks.foldlM (step settings) (ofGraph g) = .ok s) :
      (s.take k).1 = s.live.filter (k ∈ ·.keys) := ((indexed_ofGraph hn).run hs).gathered k
  constructor
  case mp =>
    intro ⟨s, hs, ht⟩
    exact ⟨_, _, Outcome.map_eq_ok.mpr ⟨s, hs, rfl⟩, (hg hs).symm.trans ht⟩
  case mpr =>
    intro ⟨cs, rest, h, hr⟩
    have ⟨s, hs, hv⟩ := Outcome.map_eq_ok.mp h
    have hl : s.live = rest := congrArg Prod.snd hv
    exact ⟨s, hs, (hg hs).trans (hl ▸ hr)⟩

end EliminationState

section Inversion

variable {factors rest : List (Factor α)} {k : Key} {ks : List Key} {c : Conditional α}
  {cs : List (Conditional α)}

theorem eliminateKey_eq_ok :
    eliminateKey settings factors k = .ok (c, rest) ↔
      factors.filter (k ∈ ·.keys) ≠ [] ∧
        ∃ r, eliminate ((factors.filter (k ∈ ·.keys)).map (·.toLinear)) [k] settings = .ok r ∧
        r.conditional = c ∧ leftover factors k r = rest := by
  unfold eliminateKey
  by_cases hg : factors.filter (k ∈ ·.keys) = []
  case pos => simp [hg]
  case neg => simp [hg, Outcome.bind_eq_ok]

theorem eliminateKeys_cons_eq_ok :
    eliminateKeys settings (k :: ks) factors = .ok (cs, rest) ↔
      ∃ c factors' cs', eliminateKey settings factors k = .ok (c, factors') ∧
        eliminateKeys settings ks factors' = .ok (cs', rest) ∧ c :: cs' = cs := by
  simp [eliminateKeys, Outcome.bind_eq_ok]

theorem eliminateKey_eq_error {e : Fault} (h : eliminateKey settings factors k = .error e) :
    (factors.filter (k ∈ ·.keys) = [] ∧ e = .error (.unknownVariable k)) ∨
      (factors.filter (k ∈ ·.keys) ≠ [] ∧
        eliminate ((factors.filter (k ∈ ·.keys)).map (·.toLinear)) [k] settings = .error e) := by
  unfold eliminateKey at h
  by_cases hg : factors.filter (k ∈ ·.keys) = []
  case pos =>
    simp only [hg, List.isEmpty_nil, if_true] at h
    cases h
    exact .inl ⟨hg, rfl⟩
  case neg =>
    simp only [List.isEmpty_iff, hg, if_false] at h
    exact .inr ⟨hg, (Outcome.bind_eq_error.mp h).resolve_right nofun⟩

theorem eliminateKeys_cons_eq_error {e : Fault}
    (h : eliminateKeys settings (k :: ks) factors = .error e) :
    eliminateKey settings factors k = .error e ∨
      ∃ c rest, eliminateKey settings factors k = .ok (c, rest) ∧ eliminateKeys settings ks rest =
        .error e := by
  cases Outcome.bind_eq_error.mp h
  case inl h => exact .inl h
  case inr h =>
    have ⟨⟨c, rest⟩, hk, h⟩ := h
    exact .inr ⟨c, rest, hk, (Outcome.bind_eq_error.mp h).resolve_right nofun⟩

end Inversion

namespace FactorGraph

variable {g : FactorGraph α} {order : EliminationOrder} {net : BayesNet α}

theorem eliminatePartial_eq (hn : ∀ f ∈ g.factors, f.keys.Nodup) :
    g.eliminatePartial order settings =
      (fun r => (⟨r.1⟩, ⟨r.2⟩)) <$> eliminateKeys settings order.keys g.factors := by
  rw [← EliminationState.view_ofGraph hn, eliminatePartial, map_eq_pure_bind, map_eq_pure_bind,
    bind_assoc]
  simp only [pure_bind]
  rfl

theorem eliminatePartial_eq_ok (hn : ∀ f ∈ g.factors, f.keys.Nodup) {rest : FactorGraph α} :
    g.eliminatePartial order settings = .ok (net, rest) ↔
      eliminateKeys settings order.keys g.factors = .ok (net.conditionals, rest.factors) := by
  rw [eliminatePartial_eq hn, Outcome.map_eq_ok]
  constructor
  case mp =>
    intro ⟨r, hr, he⟩
    cases he
    exact hr
  case mpr => exact fun h => ⟨_, h, rfl⟩

theorem eliminate_eq_ok (hn : ∀ f ∈ g.factors, f.keys.Nodup) :
    g.eliminate order settings = .ok net ↔
      (∀ k, k ∈ order.keys ↔ k ∈ g.keys) ∧
        ∃ rest, eliminateKeys settings order.keys g.factors = .ok (net.conditionals, rest) := by
  simp only [eliminate, Outcome.bind_eq_ok, checkCovers_eq_ok, exists_and_left, exists_const,
    Outcome.pure_eq_ok, Except.ok.injEq]
  constructor
  case mp =>
    intro ⟨hc, ⟨_, rest⟩, h, he⟩
    cases he
    exact ⟨hc, rest.factors, (eliminatePartial_eq_ok hn).mp h⟩
  case mpr =>
    intro ⟨hc, rest, h⟩
    exact ⟨hc, (net, ⟨rest⟩), (eliminatePartial_eq_ok hn).mpr h, rfl⟩

end FactorGraph
end Plain
end LinearGaussian
