import LinearGaussian.Proofs.Chain
import LinearGaussian.Proofs.Solve

namespace LinearGaussian

open LinearFactor

theorem BayesNet.optimize_cons {α : Type} [Arith α] [RealLike α] (c : Conditional α)
    (cs : List (Conditional α)) :
    optimize ⟨c :: cs⟩ = optimize ⟨cs⟩ >>= c.solveInPlace.outcome :=
  Edit.outcome_forM_reverse_cons ..

def Elimination.Alike (cs : List (Conditional ℝ)) (p q : Point) : Prop :=
  ∀ c ∈ cs, ∀ i < c.rows, c.toFactor.residual i p = c.toFactor.residual i q

namespace Chain

section Shape

variable {α : Type} [Arith α] [RealLike α] {ds : Widths} {cs : List (Conditional α)}

theorem not_mem_frontals {c : Conditional α} (hc : c.Triangular)
    (hd : ∀ v ∈ c.frontalDims, v.1 ∉ ds.keys) {w : Key × Nat} (hw : w ∈ ds) : w.1 ∉ c.frontals := by
  rw [← hc.keys_frontalDims]
  intro hk
  have ⟨v, hv, he⟩ := List.mem_map.mp hk
  exact hd v hv (he ▸ List.mem_map_of_mem hw)

theorem exists_optimize (h : Chain ds cs) (ht : ∀ c ∈ cs, c.Triangular) :
    ∃ x, BayesNet.optimize ⟨cs⟩ = .ok x ∧ (∀ k, k ∈ x.keys ↔ k ∈ ds.keys) ∧ x.Fits ds := by
  induction h
  case nil => exact ⟨∅, rfl, by simp [KeyMap.mem_keys_iff, Widths.keys], nofun⟩
  case cons ds cs c _ _ hp hd _ ih =>
    obtain ⟨hc, hcs⟩ := List.forall_mem_cons.mp ht
    obtain ⟨x, hx, hk, hf⟩ := ih hcs
    obtain ⟨y, hy, hyk, hyf, hyo⟩ := hc.exists_solve (hf.mono hp)
    refine ⟨y, ?_, fun l => ?_, fun w hw => ?_⟩
    case refine_1 => rw [BayesNet.optimize_cons, hx, Outcome.ok_bind, hy]
    case refine_2 =>
      simp only [hyk, hk, Widths.keys, List.map_append, List.mem_append, hc.keys_frontalDims]
    case refine_3 =>
      cases List.mem_append.mp hw
      case inl hw => exact hyf w hw
      case inr hw =>
        rw [hyo w.1 (not_mem_frontals hc hd hw)]
        exact hf w hw

end Shape

variable {ds : Widths} {cs : List (Conditional ℝ)} {p q : Point}

theorem residual_congr (h : Chain ds cs) (hpq : Point.EqOn ds p q) : Elimination.Alike cs p q :=
  fun c hc i _ => LinearFactor.residual_congr (hpq.mono (h.closed.subset c hc)) i

theorem stack_congr (h : Chain ds cs) (hpq : Point.EqOn ds p q) {c : Conditional ℝ} (hc : c ∈ cs)
    (ht : c.Triangular) {i : Nat} (hi : i < c.rows) :
    stack c.frontalDims p i = stack c.frontalDims q i :=
  eqOn_iff_stack.mp (hpq.mono fun _ hw => h.closed.subset c hc (List.mem_of_mem_take hw)) i
    (ht.sum_frontalDims ▸ hi)

-- If no diagonal has a zero, the values that are found meet the rows of a density just if its
-- deviations do not scale the values of its own variables.
theorem meets_optimize_iff (h : Chain ds cs) (ht : ∀ c ∈ cs, c.Triangular)
    (hd : ∀ c ∈ cs, ∀ a ∈ c.diagonal, a ≠ 0) {x : Assignment ℝ}
    (hx : BayesNet.optimize ⟨cs⟩ = .ok x) :
    ∀ c ∈ cs, c.Meets x.point ↔
      ∀ i < c.rows, c.model.weight i * stack c.frontalDims x.point i =
        stack c.frontalDims x.point i := by
  induction h generalizing x
  case nil => nofun
  case cons ds cs c _ _ hp hne hch ih =>
    have ⟨hc, hcs⟩ := List.forall_mem_cons.mp ht
    have ⟨hdc, hdcs⟩ := List.forall_mem_cons.mp hd
    rw [BayesNet.optimize_cons] at hx
    have ⟨y, hy, hx⟩ := Outcome.bind_eq_ok.mp hx
    have ⟨_, hy', _, hf⟩ := hch.exists_optimize hcs
    cases hy.symm.trans hy'
    have ⟨_, hx', _, _, hxo⟩ := hc.exists_solve (hf.mono hp)
    cases hx.symm.trans hx'
    have hoff : Point.EqOn ds y.point x.point := by
      intro w hw j _
      rw [Assignment.point_congr (hxo w.1 (not_mem_frontals hc hne hw))]
    refine List.forall_mem_cons.mpr ⟨hc.meets_solve_iff hdc (hf.mono hp) hx, fun e he => ?_⟩
    have hm : e.Meets y.point ↔ e.Meets x.point :=
      forall₂_congr fun i hi => by rw [hch.residual_congr hoff e he i hi]
    rw [← hm, ih hcs hdcs hy e he]
    exact forall₂_congr fun i hi => by rw [hch.stack_congr hoff he (hcs e he) hi]

theorem meets_optimize (h : Chain ds cs) (hw : ∀ c ∈ cs, c.WellFormed)
    (hd : ∀ c ∈ cs, ∀ a ∈ c.diagonal, a ≠ 0) {x : Assignment ℝ}
    (hx : BayesNet.optimize ⟨cs⟩ = .ok x) : ∀ c ∈ cs, c.Meets x.point := by
  intro c hc
  rw [h.meets_optimize_iff (fun c hc => (hw c hc).triangular) hd hx c hc]
  intro i _
  rw [NoiseModel.weight_of_unit (hw c hc).unit, one_mul]

theorem eqOn_of_alike (h : Chain ds cs) (ht : ∀ c ∈ cs, c.Triangular)
    (hd : ∀ c ∈ cs, ∀ a ∈ c.diagonal, a ≠ 0) (hpq : Elimination.Alike cs p q) :
    Point.EqOn ds p q := by
  induction h
  case nil => nofun
  case cons hp _ _ ih =>
    have ⟨hc, hcs⟩ := List.forall_mem_cons.mp ht
    have ⟨hdc, hdcs⟩ := List.forall_mem_cons.mp hd
    have ⟨hrc, hrcs⟩ := List.forall_mem_cons.mp hpq
    have ht := ih hcs hdcs hrcs
    have hf := hc.eqOn_of_residual hdc (ht.mono hp) hrc
    exact fun w hw => (List.mem_append.mp hw).elim (hf w) (ht w)

end Chain

namespace Elimination

section Shape

variable {α : Type} [Arith α] [RealLike α] {settings : EliminationSettings α} {ks : List Key}
  {factors rest : List (Factor α)} {cs : List (Conditional α)}

theorem Run.chain (h : Run settings ks factors cs rest) (hr : dimsOf rest = []) :
    ∃ ds : Widths, ds.keys = ks ∧ (∀ w, w ∈ dimsOf factors ↔ w ∈ ds) ∧ Chain ds cs := by
  induction h
  case nil => exact ⟨[], rfl, by simp [hr], .nil⟩
  case cons k _ _ _ _ hs _ ih =>
    have ⟨ds, hk, hds, hch⟩ := ih hr
    have ⟨d, hfd, hpd, hm, hne⟩ := hs.exists_dims
    have hw := hs.wellFormed_conditional
    refine ⟨(k, d) :: ds, congrArg (k :: ·) hk, fun w => by rw [hm, hds, List.mem_cons], ?_⟩
    have hc := Chain.cons hw.factor hw.sum_frontalDims (fun w hw => (hds w).mp (hpd hw)) ?_ hch
    case refine_1 =>
      rw [hfd, List.forall_mem_singleton]
      intro hk
      have ⟨w, hw, he⟩ := List.mem_map.mp hk
      exact hne w ((hds w).mpr hw) he
    rw [hfd] at hc
    exact hc

theorem Run.exists_optimize (h : Run settings ks factors cs rest) (hr : dimsOf rest = []) :
    ∃ x, BayesNet.optimize ⟨cs⟩ = .ok x ∧ (∀ k, k ∈ x.keys ↔ k ∈ ks) ∧ x.Fits (dimsOf factors) := by
  have ⟨ds, hk, hds, hch⟩ := h.chain hr
  have ⟨x, hx, hxk, hf⟩ := hch.exists_optimize fun c hc => (h.wellFormed.left c hc).triangular
  exact ⟨x, hx, hk ▸ hxk, hf.mono fun w => (hds w).mp⟩

end Shape

variable {settings : EliminationSettings ℝ} {factors rest : List (Factor ℝ)} {k : Key}
  {ks : List Key} {r : Elimination ℝ} {cs : List (Conditional ℝ)} {p q : Point}

theorem Step.eqOn_iff (h : Step settings factors k r) :
    Point.EqOn (dimsOf factors) p q ↔
      Point.EqOn r.conditional.frontalDims p q ∧
        Point.EqOn (dimsOf (leftover factors k r)) p q := by
  have ⟨d, hd, _, hm, _⟩ := h.exists_dims
  simp only [Point.EqOn, hm, hd, List.mem_singleton, or_imp, forall_and]

theorem Step.eqOn_leftover (h : Step settings factors k r)
    (hpq : ∀ l ∉ r.conditional.frontals, p l = q l) :
    Point.EqOn (dimsOf (leftover factors k r)) p q := by
  -- A change of the eliminated variable is of no concern to what is left.
  have ⟨_, _, _, _, hne⟩ := h.exists_dims
  intro w hw j _
  rw [hpq w.1 (by simpa [h.frontals_eq] using hne w hw)]

namespace Run

theorem residual_congr (h : Run settings ks factors cs rest)
    (hpq : Point.EqOn (dimsOf factors) p q) : Alike cs p q :=
  fun c hc i _ => LinearFactor.residual_congr (hpq.mono (h.dims_subset c hc)) i

theorem meets_optimize (h : Run settings ks factors cs rest) (hr : dimsOf rest = [])
    (hd : ∀ c ∈ cs, ∀ a ∈ c.diagonal, a ≠ 0) {x : Assignment ℝ}
    (hx : BayesNet.optimize ⟨cs⟩ = .ok x) :
    ∀ c ∈ cs, c.Meets x.point := by
  have ⟨_, _, _, hch⟩ := h.chain hr
  exact hch.meets_optimize h.wellFormed.left hd hx

theorem eqOn_of_alike (h : Run settings ks factors cs rest) (hr : dimsOf rest = [])
    (hd : ∀ c ∈ cs, ∀ a ∈ c.diagonal, a ≠ 0) (hpq : Alike cs p q) :
    Point.EqOn (dimsOf factors) p q := by
  have ⟨_, _, hds, hch⟩ := h.chain hr
  exact (hch.eqOn_of_alike (fun c hc => (h.wellFormed.left c hc).triangular) hd hpq).mono fun w =>
    (hds w).mp

theorem exists_meets (h : Run settings ks factors cs rest)
    (hs : ∀ f ∈ factors, 0 ∉ f.toLinear.sigmas) (p : Point) :
    ∃ q, (∀ k ∉ ks, q k = p k) ∧ ∀ c ∈ cs, c.Meets q := by
  have hroot := h.isRoot hs
  clear hs
  induction h
  case nil => exact ⟨p, fun _ _ => rfl, nofun⟩
  case cons factors k r ks cs rest hk hrun ih =>
    have ⟨hc, hcs⟩ := List.forall_mem_cons.mp hroot
    have ⟨q, hq, hm⟩ := ih hcs
    have ⟨q', hq', hm'⟩ := hk.wellFormed_conditional.triangular.exists_meets hc.left.zero q
    refine ⟨q', fun l hl => ?_, List.forall_mem_cons.mpr ⟨hm', fun c hc i hi => ?_⟩⟩
    case refine_1 =>
      have ⟨hne, hl⟩ := not_or.mp (mt List.mem_cons.mpr hl)
      rw [hq' l (by simpa [hk.frontals_eq] using hne), hq l hl]
    case refine_2 =>
      rw [hrun.residual_congr (hk.eqOn_leftover hq') c hc i hi]
      exact hm c hc i hi

theorem exists_alike (h : Run settings ks factors cs rest)
    (hd : ¬∀ c ∈ cs, ∀ a ∈ c.diagonal, a ≠ 0) :
    ∃ p q, Alike cs p q ∧ ¬Point.EqOn (dimsOf factors) p q := by
  induction h
  case nil => exact absurd nofun hd
  case cons factors k r ks cs rest hs hrun ih =>
    have ht := hs.wellFormed_conditional.triangular
    by_cases hdc : ∀ a ∈ r.conditional.diagonal, a ≠ 0
    case pos =>
      -- The first density can be met at both points, without a change that those after it would
      -- notice.
      have ⟨p, q, hpq, hne⟩ := ih fun hdcs => hd (List.forall_mem_cons.mpr ⟨hdc, hdcs⟩)
      have h0 : ∀ i < r.conditional.rows, r.conditional.rsd.full.entry i i = 0 →
          ∀ j, r.conditional.rsd.full.entry i j = 0 :=
        fun i hi hz => absurd hz (Conditional.diagonal_ne_zero_iff.mp hdc i hi)
      have ⟨p', hp, hpm⟩ := ht.exists_meets h0 p
      have ⟨q', hq, hqm⟩ := ht.exists_meets h0 q
      have hp := hs.eqOn_leftover hp
      have hq := hs.eqOn_leftover hq
      refine ⟨p', q', List.forall_mem_cons.mpr ⟨fun i hi => ?_, fun c hc i hi => ?_⟩,
        fun he => hne ?_⟩
      case refine_1 => rw [hpm i hi, hqm i hi]
      case refine_2 =>
        rw [hrun.residual_congr hp c hc i hi, hrun.residual_congr hq c hc i hi]
        exact hpq c hc i hi
      case refine_3 => exact hp.symm.trans $ (hs.eqOn_iff.mp he).right.trans hq
    case neg =>
      -- The points differ in the frontal variables only, of which later densities know nothing.
      have ⟨p, q, hoff, hpq, hne⟩ := ht.exists_unseen hdc
      exact ⟨p, q, List.forall_mem_cons.mpr ⟨hpq, hrun.residual_congr (hs.eqOn_leftover hoff)⟩,
        fun he => hne (hs.eqOn_iff.mp he).left⟩

end Run
end Elimination
end LinearGaussian
