import LinearGaussian.Proofs.Sequence

namespace LinearGaussian

open Measurement LinearFactor

section Factors

variable {α : Type} [Arith α] [RealLike α] {factors : List (Factor α)} {k : Key} {r : Elimination α}

theorem wellFormed_gathered (hf : ∀ f ∈ factors, f.WellFormed) (k : Key) :
    ∀ g ∈ (factors.filter (k ∈ ·.keys)).map (·.toLinear), g.WellFormed := by
  intro g hg
  have ⟨f, hm, hg⟩ := List.mem_map.mp hg
  exact hg ▸ (hf f (List.mem_of_mem_filter hm)).linear

omit [Arith α] [RealLike α] in
theorem mem_leftover {g : Factor α} (h : g ∈ leftover factors k r) :
    (g ∈ factors ∧ k ∉ g.keys) ∨ g = .linear r.remaining := by
  simp only [leftover] at h
  split at h <;> simp at h <;> grind

theorem dimsOf_leftover (factors : List (Factor α)) (k : Key) (r : Elimination α) :
    dimsOf (leftover factors k r) = dimsOf (factors.filter (k ∉ ·.keys)) ++ r.remaining.dims := by
  simp only [leftover]
  split
  case isTrue he =>
    have hd : r.remaining.dims = [] := by simp [dims, List.isEmpty_iff.mp he]
    rw [hd, List.append_nil]
  case isFalse => simp [dimsOf, Factor.toLinear]

end Factors

section Rows

noncomputable def rowsOf (factors : List (Factor ℝ)) : List (Measurement Point) :=
  factors.flatMap (·.toLinear.measurements)

noncomputable def densityRows (cs : List (Conditional ℝ)) : List (Measurement Point) :=
  cs.flatMap (·.toFactor.measurements)

variable {factors : List (Factor ℝ)} {k : Key} {r : Elimination ℝ}

theorem isConstrained_gathered (hs : ∀ f ∈ factors, 0 ∉ f.toLinear.sigmas) {f : LinearFactor ℝ}
    (hc : combine ((factors.filter (k ∈ ·.keys)).map (·.toLinear)) [k] = .ok f) :
    f.isConstrained = false := by
  apply isConstrained_combine hc
  intro g hg
  have ⟨f, hm, hg⟩ := List.mem_map.mp hg
  exact hg ▸ hs f (List.mem_of_mem_filter hm)

theorem residual_eq_of_keys {f : LinearFactor ℝ} (h : f.keys = []) (i : Nat) (p q : Point) :
    f.residual i p = f.residual i q :=
  residual_congr (by simp [Point.EqOn, dims, h]) i

theorem rowsOf_perm (factors : List (Factor ℝ)) (k : Key) :
    (rowsOf factors).Perm (rowsOf (factors.filter (k ∈ ·.keys)) ++
      rowsOf (factors.filter (k ∉ ·.keys))) := by
  have hp :=
    (List.filter_append_perm (fun f : Factor ℝ => decide (k ∈ f.keys)) factors).symm.flatMap_right
      (·.toLinear.measurements)
  simpa [rowsOf] using hp

theorem reduces_leftover (factors : List (Factor ℝ)) (k : Key) (r : Elimination ℝ) :
    Reduces (rowsOf (factors.filter (k ∉ ·.keys)) ++ r.remaining.measurements)
      (rowsOf (leftover factors k r)) := by
  simp only [leftover]
  split
  case isTrue he =>
    apply Reduces.drop_constant
    intro m hm p q
    have ⟨i, _, hi⟩ := List.mem_map.mp hm
    exact hi ▸ residual_eq_of_keys (List.isEmpty_iff.mp he) i p q
  case isFalse =>
    have hr : rowsOf (factors.filter (k ∉ ·.keys) ++ [.linear r.remaining]) =
        rowsOf (factors.filter (k ∉ ·.keys)) ++ r.remaining.measurements := by
      simp [rowsOf, Factor.toLinear]
    exact hr ▸ Reduces.refl

end Rows

namespace Elimination

section Shape

variable {α : Type} [Arith α] [RealLike α]

-- One variable is eliminated from its factors.
structure Step (settings : EliminationSettings α) (factors : List (Factor α)) (k : Key)
    (r : Elimination α) : Prop where
  wellFormed : ∀ f ∈ factors, f.WellFormed
  gathered   : factors.filter (k ∈ ·.keys) ≠ []
  returned   : eliminate ((factors.filter (k ∈ ·.keys)).map (·.toLinear)) [k] settings = .ok r

-- Variables are eliminated one after the other. The last list has the factors that are left.
inductive Run (settings : EliminationSettings α) :
    List Key → List (Factor α) → List (Conditional α) → List (Factor α) → Prop
  | nil : (∀ f ∈ factors, f.WellFormed) → Run settings [] factors [] factors
  | cons : Step settings factors k r → Run settings ks (leftover factors k r) cs rest →
    Run settings (k :: ks) factors (r.conditional :: cs) rest

variable {settings : EliminationSettings α} {factors rest : List (Factor α)} {k : Key}
  {ks : List Key} {r : Elimination α} {cs : List (Conditional α)} {f : LinearFactor α}

namespace Step

theorem exists_of (h : Step settings factors k r) :
    ∃ f, combine ((factors.filter (k ∈ ·.keys)).map (·.toLinear)) [k] = .ok f ∧ r.Of f 1 settings :=
  of_eliminate (wellFormed_gathered h.wellFormed k) h.returned

theorem wellFormed_conditional (h : Step settings factors k r) : r.conditional.WellFormed :=
  have ⟨_, _, ho⟩ := h.exists_of
  ho.wellFormed_conditional

theorem wellFormed_leftover (h : Step settings factors k r) :
    ∀ g ∈ leftover factors k r, g.WellFormed := by
  have ⟨_, _, ho⟩ := h.exists_of
  intro g hg
  cases mem_leftover hg
  case inl hg => exact h.wellFormed g hg.left
  case inr hg => exact hg ▸ ⟨ho.wellFormed_remaining, rfl⟩

theorem ne_of_mem_dims (h : Step settings factors k r) {w : Key × Nat}
    (hw : w ∈ dimsOf (factors.filter (k ∉ ·.keys))) : w.1 ≠ k := by
  have ⟨f, hm, hw⟩ := mem_dimsOf.mp hw
  have ⟨hm, hk⟩ := List.mem_filter.mp hm
  intro he
  simp [← he, (h.wellFormed f hm).mem_keys hw] at hk

theorem mem_dimsOf_iff (hc : combine ((factors.filter (k ∈ ·.keys)).map (·.toLinear)) [k] = .ok f)
    (w : Key × Nat) :
    w ∈ dimsOf factors ↔ w ∈ f.dims ∨ w ∈ dimsOf (factors.filter (k ∉ ·.keys)) := by
  rw [mem_dims_combine hc]
  simp only [mem_dimsOf, List.mem_map, List.mem_filter, decide_eq_true_eq]
  grind

theorem exists_dims (h : Step settings factors k r) :
    ∃ d, r.conditional.frontalDims = [(k, d)] ∧
      r.conditional.parentDims ⊆ dimsOf (leftover factors k r) ∧
      (∀ w, w ∈ dimsOf factors ↔ w = (k, d) ∨ w ∈ dimsOf (leftover factors k r)) ∧
      ∀ w ∈ dimsOf (leftover factors k r), w.1 ≠ k := by
  have ⟨f, hc, ho⟩ := h.exists_of
  have ⟨ls, hk⟩ := keys_combine hc
  have hkd := ho.wellFormed.keys_dims
  have hn := ho.wellFormed.nodup
  rw [ho.frontalDims_conditional, ho.parentDims_conditional, dimsOf_leftover, ho.dims_remaining]
  cases hd : f.dims
  case nil => simp [hd, hk] at hkd
  case cons w ps =>
    rw [← hkd, hd] at hk hn
    have ⟨hw, _⟩ := List.nodup_cons.mp hn
    cases hk
    refine ⟨w.2, rfl, by simp, fun v => ?_, fun v hv => ?_⟩
    case refine_1 =>
      rw [mem_dimsOf_iff hc, hd, List.mem_cons, List.drop_one, List.tail_cons, List.mem_append,
        or_assoc,
      @or_comm (v ∈ ps)]
    case refine_2 =>
      cases List.mem_append.mp hv
      case inl hv => exact h.ne_of_mem_dims hv
      case inr hv => exact fun he => hw $ he ▸ List.mem_map_of_mem hv

theorem frontals_eq (h : Step settings factors k r) : r.conditional.frontals = [k] := by
  have ⟨_, hd, _⟩ := h.exists_dims
  rw [← h.wellFormed_conditional.keys_frontalDims, hd]
  rfl

theorem dims_subset (h : Step settings factors k r) :
    r.conditional.toFactor.dims ⊆ dimsOf factors := by
  have ⟨d, hd, hps, hm, _⟩ := h.exists_dims
  intro w hw
  rw [← r.conditional.frontalDims_append_parentDims, hd] at hw
  exact (hm w).mpr $ (List.mem_cons.mp hw).imp id (hps ·)

end Step

theorem exists_step [UnitDeviations α] (hf : ∀ f ∈ factors, f.WellFormed)
    (hc : Widths.Consistent (dimsOf factors)) {d : Nat} (hd : (k, d) ∈ dimsOf factors)
    (hfree : settings.allowFree = true) : ∃ r, Step settings factors k r := by
  have ⟨f, hm, hw⟩ := mem_dimsOf.mp hd
  have hg : f ∈ factors.filter (k ∈ ·.keys) :=
    List.mem_filter.mpr ⟨hm, by simpa using (hf f hm).mem_keys hw⟩
  have hwf := wellFormed_gathered hf k
  have hsub : ((factors.filter (k ∈ ·.keys)).map (·.toLinear)).flatMap dims ⊆ dimsOf factors := by
    intro w hw
    have ⟨g, hg, hw⟩ := List.mem_flatMap.mp hw
    have ⟨f, hf, he⟩ := List.mem_map.mp hg
    exact mem_dimsOf.mpr ⟨f, List.mem_of_mem_filter hf, he ▸ hw⟩
  have ⟨ws, hws⟩ := Widths.exists_ofOccurrences fun v hv w hw => hc v (hsub hv) w (hsub hw)
  have hk : k ∈ ws.keys := List.mem_map_of_mem $
    ((Widths.ofOccurrences_eq_ok hws).right (k, d)).mpr $
      List.mem_flatMap.mpr ⟨_, List.mem_map_of_mem hg, hw⟩
  have ⟨f, hcomb⟩ := exists_combine hwf (List.nodup_singleton k) hws (by simpa using hk)
  have ⟨r, hr⟩ := exists_eliminate hwf (List.cons_ne_nil k []) hcomb hfree
  exact ⟨r, hf, List.ne_nil_of_mem hg, hr⟩

theorem run_iff : Run settings ks factors cs rest ↔
    (∀ f ∈ factors, f.WellFormed) ∧ eliminateKeys settings ks factors = .ok (cs, rest) := by
  constructor
  case mp =>
    intro h
    induction h
    case nil hf => exact ⟨hf, rfl⟩
    case cons hs _ ih =>
      exact ⟨hs.wellFormed, eliminateKeys_cons_eq_ok.mpr ⟨_, _, _,
        eliminateKey_eq_ok.mpr ⟨hs.gathered, _, hs.returned, rfl, rfl⟩, ih.right, rfl⟩⟩
  case mpr =>
    intro ⟨hf, h⟩
    induction ks generalizing factors cs
    case nil =>
      cases h
      exact .nil hf
    case cons k ks ih =>
      have ⟨c, factors', cs', hk, hr, hcs⟩ := eliminateKeys_cons_eq_ok.mp h
      have ⟨hg, r, hr', hc, hl⟩ := eliminateKey_eq_ok.mp hk
      have hs : Step settings factors k r := ⟨hf, hg, hr'⟩
      exact hcs ▸ hc ▸ .cons hs (hl ▸ ih (hl ▸ hs.wellFormed_leftover) hr)

namespace Run

theorem wellFormed (h : Run settings ks factors cs rest) :
    (∀ c ∈ cs, c.WellFormed) ∧ ∀ f ∈ rest, f.WellFormed := by
  induction h
  case nil hf => exact ⟨nofun, hf⟩
  case cons hs _ ih =>
    exact ⟨List.forall_mem_cons.mpr ⟨hs.wellFormed_conditional, ih.left⟩, ih.right⟩

theorem exists_run [UnitDeviations α] (hf : ∀ f ∈ factors, f.WellFormed)
    (hc : Widths.Consistent (dimsOf factors)) (hn : ks.Nodup)
    (hk : ∀ k ∈ ks, ∃ d, (k, d) ∈ dimsOf factors) (hfree : settings.allowFree = true) :
    ∃ cs rest, Run settings ks factors cs rest := by
  induction ks generalizing factors
  case nil => exact ⟨[], factors, .nil hf⟩
  case cons k ks ih =>
    have ⟨⟨d, hd⟩, hks⟩ := List.forall_mem_cons.mp hk
    have ⟨hkn, hn⟩ := List.nodup_cons.mp hn
    have ⟨r, hs⟩ := exists_step hf hc hd hfree
    have ⟨_, _, _, hm, _⟩ := hs.exists_dims
    have hc : Widths.Consistent (dimsOf (leftover factors k r)) := fun v hv w hw =>
      hc v ((hm v).mpr (.inr hv)) w ((hm w).mpr (.inr hw))
    have ⟨cs, rest, hr⟩ := ih hs.wellFormed_leftover hc hn ?_
    case refine_1 =>
      intro l hl
      have ⟨e, he⟩ := hks l hl
      refine ⟨e, ((hm _).mp he).resolve_left fun h => hkn ?_⟩
      cases h
      exact hl
    exact ⟨_, _, .cons hs hr⟩

theorem dims_subset (h : Run settings ks factors cs rest) :
    ∀ c ∈ cs, c.toFactor.dims ⊆ dimsOf factors := by
  induction h
  case nil => nofun
  case cons hs _ ih =>
    have ⟨_, _, _, hm, _⟩ := hs.exists_dims
    exact List.forall_mem_cons.mpr ⟨hs.dims_subset, fun c hc w hw => (hm w).mpr $ .inr (ih c hc hw)⟩

theorem mem_dims_rest (h : Run settings ks factors cs rest) {w : Key × Nat} :
    w ∈ dimsOf rest ↔ w ∈ dimsOf factors ∧ w.1 ∉ ks := by
  induction h
  case nil => simp
  case cons hs _ ih =>
    have ⟨d, _, _, hm, hne⟩ := hs.exists_dims
    rw [ih, hm, List.mem_cons, not_or]
    constructor
    case mp => exact fun ⟨hw, hk⟩ => ⟨.inr hw, hne w hw, hk⟩
    case mpr => exact fun ⟨hw, hne, hk⟩ => ⟨hw.resolve_left fun he => hne (he ▸ rfl), hk⟩

theorem exists_eliminated (h : Run settings ks factors cs rest) :
    ∃ ds : List (Key × Nat), ds.map (·.1) = ks ∧ ∀ w, w ∈ dimsOf factors ↔ w ∈ ds ∨
      w ∈ dimsOf rest := by
  induction h
  case nil => exact ⟨[], rfl, by simp⟩
  case cons k _ _ _ _ hs _ ih =>
    have ⟨d, _, _, hm, _⟩ := hs.exists_dims
    have ⟨ds, hds, hw⟩ := ih
    exact ⟨(k, d) :: ds, by rw [List.map_cons, hds],
      fun w => by rw [hm, hw, List.mem_cons, or_assoc]⟩

-- A run that fails does so at some variable, after a run that has eliminated those before it.
theorem exists_stop (hf : ∀ f ∈ factors, f.WellFormed) {e : Fault}
    (h : eliminateKeys settings ks factors = .error e) :
    ∃ before k after cs rest, ks = before ++ k :: after ∧ Run settings before factors cs rest ∧
      eliminateKey settings rest k = .error e := by
  induction ks generalizing factors
  case nil => contradiction
  case cons k ks ih =>
    cases eliminateKeys_cons_eq_error h
    case inl h => exact ⟨[], k, ks, [], factors, rfl, .nil hf, h⟩
    case inr h =>
      have ⟨c, factors', hk, h⟩ := h
      have ⟨hg, r, hr, _, hl⟩ := eliminateKey_eq_ok.mp hk
      have hs : Step settings factors k r := ⟨hf, hg, hr⟩
      subst hl
      have ⟨before, l, after, cs, rest, hks, hrun, he⟩ := ih hs.wellFormed_leftover h
      exact ⟨k :: before, l, after, _, rest, by rw [hks, List.cons_append], .cons hs hrun, he⟩

end Run
end Shape

variable {settings : EliminationSettings ℝ} {factors rest : List (Factor ℝ)} {k : Key}
  {ks : List Key} {r : Elimination ℝ} {cs : List (Conditional ℝ)} {f : LinearFactor ℝ}

namespace Step

theorem reduces (h : Step settings factors k r)
    (hc : combine ((factors.filter (k ∈ ·.keys)).map (·.toLinear)) [k] = .ok f)
    (hd : f.Decisive settings)
    (ht : f.isConstrained = true → 0 < settings.zeroTol ∧ 0 < settings.rankTol) :
    Reduces (rowsOf factors)
      (r.conditional.toFactor.measurements ++ rowsOf (leftover factors k r)) := by
  have ⟨_, hc', ho⟩ := h.exists_of
  cases hc.symm.trans hc'
  have hm : f.measurements = rowsOf (factors.filter (k ∈ ·.keys)) := by
    rw [measurements_combine (wellFormed_gathered h.wellFormed k) hc, rowsOf, List.flatMap_map]
  have hr : Reduces (f.measurements ++ rowsOf (factors.filter (k ∉ ·.keys))) _ :=
    (ho.reduces hd ht).append_right
  rw [hm, List.append_assoc] at hr
  have hl := (Reduces.of_perm List.perm_append_comm).trans (reduces_leftover factors k r)
  exact (Reduces.of_perm (rowsOf_perm factors k)).trans $ hr.trans hl.append_left

theorem soft_leftover (h : Step settings factors k r) (hs : ∀ f ∈ factors, 0 ∉ f.toLinear.sigmas) :
    ∀ g ∈ leftover factors k r, 0 ∉ g.toLinear.sigmas := by
  have ⟨f, hc, ho⟩ := h.exists_of
  intro g hg
  cases mem_leftover hg
  case inl hg => exact hs g hg.left
  case inr hg => exact hg ▸ ho.soft_remaining (isConstrained_gathered hs hc)

end Step

namespace Run

theorem soft (h : Run settings ks factors cs rest) (hs : ∀ f ∈ factors, 0 ∉ f.toLinear.sigmas) :
    ∀ f ∈ rest, 0 ∉ f.toLinear.sigmas := by
  induction h
  case nil => exact hs
  case cons hk _ ih => exact ih (hk.soft_leftover hs)

theorem isRoot (h : Run settings ks factors cs rest) (hs : ∀ f ∈ factors, 0 ∉ f.toLinear.sigmas) :
    ∀ c ∈ cs, IsRoot c.rows c.rsd.full.entry ∧ ∀ s ∈ c.model.sigmas, s = 1 := by
  induction h
  case nil => nofun
  case cons hk _ ih =>
    have ⟨f, hc, ho⟩ := hk.exists_of
    have hn := isConstrained_gathered hs hc
    exact List.forall_mem_cons.mpr ⟨⟨ho.isRoot_conditional hn, ho.soft_conditional hn⟩,
      ih (hk.soft_leftover hs)⟩

-- No comparison with a tolerance is close, at any step of a run.
def Decisive (settings : EliminationSettings ℝ) (ks : List Key) (factors : List (Factor ℝ)) :
    Prop :=
  ∀ before k after cs rest f, ks = before ++ k :: after → Run settings before factors cs rest →
    combine ((rest.filter (k ∈ ·.keys)).map (·.toLinear)) [k] = .ok f → f.Decisive settings

theorem decisive_nil : Decisive settings [] factors :=
  fun _ _ _ _ _ _ hks => absurd hks (by simp)

theorem decisive_cons
    (h : ∀ f, combine ((factors.filter (k ∈ ·.keys)).map (·.toLinear)) [k] = .ok f →
      f.Decisive settings)
    (ht : ∀ r, Step settings factors k r →
      Decisive settings ks (LinearGaussian.leftover factors k r)) :
    Decisive settings (k :: ks) factors := by
  intro before l after cs rest f hks hr hc
  cases before
  case nil =>
    cases hks
    cases hr
    exact h f hc
  case cons =>
    cases hks
    cases hr
    case cons hs hr => exact ht _ hs _ l after _ _ f rfl hr hc

theorem Decisive.leftover (h : Decisive settings (k :: ks) factors)
    (hs : Step settings factors k r) :
    Decisive settings ks (leftover factors k r) :=
  fun before l after _ _ _ hks hr => h (k :: before) l after _ _ _ (by rw [hks, List.cons_append])
    (.cons hs hr)

theorem decisive_of_soft (hs : ∀ f ∈ factors, 0 ∉ f.toLinear.sigmas)
    (settings : EliminationSettings ℝ) (ks : List Key) :
    Decisive settings ks factors := by
  intro before k after cs rest f _ hr hc
  simp [LinearFactor.Decisive, isConstrained_gathered (hr.soft hs) hc]

theorem reduces (h : Run settings ks factors cs rest) (hd : Decisive settings ks factors)
    (ht : (∀ f ∈ factors, 0 ∉ f.toLinear.sigmas) ∨ (0 < settings.zeroTol ∧ 0 < settings.rankTol)) :
    Reduces (rowsOf factors) (densityRows cs ++ rowsOf rest) := by
  induction h
  case nil => exact Reduces.refl
  case cons factors k r ks cs rest hs _ ih =>
    have ⟨f, hc, _⟩ := hs.exists_of
    have htf : f.isConstrained = true → 0 < settings.zeroTol ∧ 0 < settings.rankTol := by
      intro hf
      refine ht.resolve_left fun hsoft => ?_
      simp [isConstrained_gathered hsoft hc] at hf
    have he : densityRows (r.conditional :: cs) ++ rowsOf rest =
        r.conditional.toFactor.measurements ++ (densityRows cs ++ rowsOf rest) := by
      simp [densityRows]
    rw [he]
    exact (hs.reduces hc (hd [] k ks [] factors f rfl (.nil hs.wellFormed) hc) htf).trans
      (ih (hd.leftover hs) (ht.imp_left hs.soft_leftover)).append_left

end Run
end Elimination
end LinearGaussian
