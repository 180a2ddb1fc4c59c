import LinearGaussian.Proofs.Construction
import LinearGaussian.Proofs.Coordinates
import LinearGaussian.Proofs.Independence

namespace LinearGaussian

open Outcome

namespace Edit

variable {σ β : Type}

def Atomic (e : Edit σ Unit) : Prop :=
  ∀ s f s', e s = (.error f, s') → s' = s

theorem atomic_modify (change : σ → σ) : Atomic (modify change) := by
  intro s f s' h
  cases h

theorem Atomic.lift_bind {e : β → Edit σ Unit} (h : ∀ b, Atomic (e b)) (r : Outcome β) :
    Atomic (lift r >>= e) := by
  intro s f s' hs
  cases r
  case error =>
    cases hs
    rfl
  case ok b => exact h b s f s' hs

theorem Atomic.get_bind {e : σ → Edit σ Unit} (h : ∀ s, Atomic (e s)) : Atomic (get >>= e) :=
  fun s => h s s

theorem lift_bind_apply_ok {r : Outcome β} {b : β} (h : r = .ok b) (e : β → Edit σ Unit) (s : σ) :
    (lift r >>= e) s = e b s := by
  rw [h]
  rfl

theorem lift_bind_apply_error {r : Outcome β} {f : Fault} (h : r = .error f) (e : β → Edit σ Unit)
    (s : σ) :
    (lift r >>= e) s = (.error f, s) := by
  rw [h]
  rfl

theorem bind_apply_ok {e : Edit σ Unit} {s t : σ} (h : e s = (.ok (), t)) (e' : Edit σ Unit) :
    (e >>= fun _ => e') s = e' t := by
  simp only [bind, ExceptT.bind, ExceptT.mk, StateT.bind, ExceptT.bindCont, h]

theorem bind_apply_error {e : Edit σ Unit} {s t : σ} {f : Fault} (h : e s = (.error f, t))
    (e' : Edit σ Unit) :
    (e >>= fun _ => e') s = (.error f, t) := by
  simp only [bind, ExceptT.bind, ExceptT.mk, StateT.bind, ExceptT.bindCont, h]
  rfl

end Edit

namespace Assignment

variable {α : Type} {x y : Assignment α} {ws : Widths} {w : Key × Nat} {u : Array α} {f : Fault}

-- The variables have been given values of their dimensions, in the place of any that they had, and
-- no others have changed.
structure Replaced (ws : Widths) (x y : Assignment α) : Prop where
  suits : x.Suits ws
  fits  : y.Fits ws
  off   : y.AgreeOff ws.keys x

theorem Replaced.nil (x : Assignment α) : Replaced [] x x :=
  ⟨nofun, nofun, fun _ _ => rfl⟩

theorem Replaced.cons (hn : w.1 ∉ ws.keys) (hx : x.Suits [w]) (hu : u.size = w.2)
    (h : Replaced ws (x.insert w.1 u) y) : Replaced (w :: ws) x y := by
  have hne {v : Key × Nat} (hv : v ∈ ws) : v.1 ≠ w.1 := fun he => hn (he ▸ List.mem_map_of_mem hv)
  constructor
  case suits =>
    refine List.forall_mem_cons.mpr ⟨hx w (.head _), fun v hv a ha => h.suits v hv a ?_⟩
    rw [KeyMap.get?_insert, if_neg (hne hv), ha]
  case fits =>
    refine List.forall_mem_cons.mpr ⟨⟨u, ?_, hu⟩, h.fits⟩
    rw [h.off w.1 hn, KeyMap.get?_insert, if_pos rfl]
  case off =>
    intro k hk
    obtain ⟨hkw, hk⟩ := not_or.mp (mt List.mem_cons.mpr hk)
    rw [h.off k hk, KeyMap.get?_insert, if_neg hkw]

-- The first variable with a value of another dimension is reported, and those before it have been
-- replaced.
def Stops (ws : Widths) (x : Assignment α) (f : Fault) (y : Assignment α) : Prop :=
  ∃ before w after u, ws = before ++ w :: after ∧ x.get? w.1 = some u ∧ u.size ≠ w.2 ∧
    f = .error (.dimensionMismatch w.1 w.2 u.size) ∧ Replaced before x y

theorem Stops.cons (hn : w.1 ∉ ws.keys) (hx : x.Suits [w]) (hu : u.size = w.2)
    (h : Stops ws (x.insert w.1 u) f y) :
    Stops (w :: ws) x f y := by
  obtain ⟨before, v, after, a, hws, ha, hs, hf, hr⟩ := h
  have hsplit : ws.keys = Widths.keys before ++ v.1 :: Widths.keys after := by
    simp [hws, Widths.keys]
  rw [hsplit, List.mem_append, List.mem_cons, not_or, not_or] at hn
  refine ⟨w :: before, v, after, a, by rw [hws, List.cons_append], ?_, hs, hf, hr.cons hn.1 hx hu⟩
  rwa [KeyMap.get?_insert, if_neg (Ne.symm hn.2.1)] at ha

theorem fits_of_mapM {vs : List (Array α)} (h : ws.mapM (fun (k, d) => x.valueOf k d) = .ok vs) :
    x.Fits ws := by
  induction ws generalizing vs
  case nil => nofun
  case cons w ws ih =>
    rw [List.mapM_cons] at h
    obtain ⟨v, hv, h⟩ := bind_eq_ok.mp h
    obtain ⟨us, hus, _⟩ := bind_eq_ok.mp h
    exact List.forall_mem_cons.mpr ⟨⟨v, valueOf_eq_ok.mp hv⟩, ih hus⟩

section Zeros

variable [Arith α]

theorem fits_zeros (hn : ws.keys.Nodup) : (zeros ws : Assignment α).Fits ws := by
  intro w hw
  have hm : (w.1, (Vec.zeros w.2 : Array α)) ∈ ws.map fun w => (w.1, Vec.zeros w.2) :=
    List.mem_map_of_mem hw
  have hn : ((ws.map fun w => (w.1, (Vec.zeros w.2 : Array α))).map (·.1)).Nodup := by
    rwa [List.map_map]
  refine ⟨Vec.zeros w.2, ?_, by simp [Vec.zeros, Vec.fill]⟩
  rw [zeros, KeyMap.ofList, KeyMap.get?_foldl_insert hn, (KeyMap.lookup_eq_some_iff hn).mpr hm,
    Option.some_or]

theorem get?_zeros_of_not_mem {k : Key} (hk : k ∉ ws.keys) :
    (zeros ws : Assignment α).get? k = none := by
  rw [KeyMap.get?_eq_none_iff, zeros, KeyMap.ofList, KeyMap.mem_keys_foldl_insert, List.map_map]
  exact not_or.mpr ⟨hk, List.not_mem_nil⟩

end Zeros
end Assignment

namespace Conditional

section Atomic

variable {α : Type} [Arith α] [RealLike α]

theorem atomic_solveInPlace (c : Conditional α) : c.solveInPlace.Atomic :=
  Edit.Atomic.get_bind fun _ => Edit.Atomic.lift_bind (fun _ => Edit.atomic_modify _) _

omit [RealLike α] in
theorem atomic_solveWithRhs (c : Conditional α) (rhs : Assignment α) :
    (c.solveWithRhs rhs).Atomic :=
  Edit.Atomic.lift_bind (fun _ => Edit.Atomic.get_bind fun _ =>
    Edit.Atomic.lift_bind (fun _ => Edit.atomic_modify _) _) _

theorem atomic_scaleFrontals (c : Conditional α) : c.scaleFrontals.Atomic :=
  Edit.Atomic.get_bind fun _ => Edit.Atomic.lift_bind (fun _ => Edit.atomic_modify _) _

end Atomic

variable {α : Type} [Arith α] [RealLike α] {c : Conditional α} {x y : Assignment α} {v : Array α}
  {f : Fault}

namespace Valid

theorem s_eq (h : c.Valid) {e : (Key × Nat) × Nat} (he : e ∈ c.parentDims.zipIdx) :
    ∃ a, c.s e.2 = .ok a ∧ a.rows = c.rows ∧ a.cols = e.1.2 := by
  obtain ⟨hp, hg⟩ := List.mem_zipIdx' he
  rw [parentDims, List.length_drop, h.factor.length_dims] at hp
  have hpos : c.frontalCount + e.2 < c.toFactor.keys.length := by omega
  obtain ⟨hd, hw, he⟩ := h.factor.getElem_dims hpos
  obtain ⟨a, ha, _, _, _, hr, hc⟩ := c.rsd.block_eq hw
  refine ⟨a, ha, hr, hc.trans ?_⟩
  have hg : e.1 = c.toFactor.dims[c.frontalCount + e.2] := by simpa [parentDims] using hg
  rw [hg, he]
  rfl

theorem propagate_cases (h : c.Valid) (hv : v.size = c.rows) {e : (Key × Nat) × Nat}
    (he : e ∈ c.parentDims.zipIdx) (x : Assignment α) :
    (x.Suits [e.1] ∧ ∃ u, u.size = e.1.2 ∧ c.propagate v e.1.1 e.2 x = (.ok (), x.insert e.1.1 u)) ∨
      ∃ u, x.get? e.1.1 = some u ∧ u.size ≠ e.1.2 ∧
        c.propagate v e.1.1 e.2 x =
          (.error (.error (.dimensionMismatch e.1.1 e.1.2 u.size)), x) := by
  obtain ⟨a, ha, hr, hc⟩ := h.s_eq he
  have hp : c.propagate v e.1.1 e.2 x = (do
      let old := (x.get? e.1.1).getD (Vec.zeros a.cols)
      if old.size ≠ a.cols then Edit.lift (fail (.dimensionMismatch e.1.1 a.cols old.size))
      let new ← Edit.lift (a.addTrMulVec (-1) v old)
      modify (·.insert e.1.1 new) : Edit (Assignment α) Unit) x := by
    simp only [propagate, ha]
    rfl
  by_cases hs : ((x.get? e.1.1).getD (Vec.zeros a.cols)).size = a.cols
  case pos =>
    left
    obtain ⟨u, hu, hus⟩ := a.exists_addTrMulVec (-1) (hv.trans hr.symm) hs
    refine ⟨List.forall_mem_singleton.mpr fun w hw => ?_, u, hus.trans hc, hp.trans ?_⟩
    case refine_1 => simpa [hw, hc] using hs
    case refine_2 =>
      simp only [hs, ne_eq, not_true_eq_false, if_false, hu]
      rfl
  case neg =>
    right
    cases hk : x.get? e.1.1
    case none => simp [hk, Vec.zeros, Vec.fill] at hs
    case some u =>
      rw [hk, Option.getD_some] at hs
      refine ⟨u, rfl, hc ▸ hs, hp.trans ?_⟩
      rw [← hc]
      simp only [hk, Option.getD_some, if_pos hs]
      rfl

theorem forM_propagate_cases (h : c.Valid) (hv : v.size = c.rows) {es : List ((Key × Nat) × Nat)}
    (he : es ⊆ c.parentDims.zipIdx) (hn : (Widths.keys (es.map (·.1))).Nodup) (x : Assignment α) :
    (∃ y, es.forM (fun e => c.propagate v e.1.1 e.2) x = (.ok (), y) ∧
      Assignment.Replaced (es.map (·.1)) x y) ∨
      ∃ f y, es.forM (fun e => c.propagate v e.1.1 e.2) x = (.error f, y) ∧
        Assignment.Stops (es.map (·.1)) x f y := by
  induction es generalizing x
  case nil => exact .inl ⟨x, rfl, .nil x⟩
  case cons e es ih =>
    obtain ⟨hhead, htail⟩ := List.cons_subset.mp he
    obtain ⟨hne, hn⟩ := List.nodup_cons.mp hn
    obtain ⟨hx, u, hu, hp⟩ | ⟨u, hu, hs, hp⟩ := h.propagate_cases hv hhead x
    case inl =>
      obtain ⟨y, hy, hr⟩ | ⟨f, y, hy, hs⟩ := ih htail hn (x.insert e.1.1 u)
      case inl => exact .inl ⟨y, (Edit.bind_apply_ok hp _).trans hy, hr.cons hne hx hu⟩
      case inr => exact .inr ⟨f, y, (Edit.bind_apply_ok hp _).trans hy, hs.cons hne hx hu⟩
    case inr =>
      exact .inr ⟨_, x, Edit.bind_apply_error hp _, [], e.1, es.map (·.1), u, rfl, hu, hs,
        rfl, .nil x⟩

theorem gather_cases (h : c.Valid) (x : Assignment α) :
    (x.Fits c.frontalDims ∧ ∃ b, c.gather x = .ok b ∧ b.size = c.rows) ∨
      ¬x.Fits c.frontalDims ∧ ∃ f, c.gather x = .error f := by
  rw [gather, BayesNet.zip_frontals]
  by_cases hx : x.Fits c.frontalDims
  case pos =>
    refine .inl ⟨hx, _, by rw [Assignment.mapM_valueOf hx]; rfl, ?_⟩
    rw [Vec.size_concat, List.map_map, h.rows_eq]
    refine congrArg _ (List.map_congr_left fun w hw => ?_)
    obtain ⟨v, hv, hs⟩ := hx w hw
    simp [hv, hs]
  case neg =>
    refine .inr ⟨hx, ?_⟩
    cases hg : c.frontalDims.mapM (fun (k, d) => x.valueOf k d)
    case error f => exact ⟨f, rfl⟩
    case ok vs => exact absurd (Assignment.fits_of_mapM hg) hx

theorem propagateAll_cases (h : c.Valid) (hv : v.size = c.rows) (x : Assignment α) :
    (∃ y, (c.parents.zipIdx.forM fun e => c.propagate v e.1 e.2 : Edit _ Unit) x = (.ok (), y) ∧
        Assignment.Replaced c.parentDims x y) ∨
      ∃ f y, (c.parents.zipIdx.forM fun e => c.propagate v e.1 e.2 : Edit _ Unit) x =
        (.error f, y) ∧
        Assignment.Stops c.parentDims x f y := by
  have hz : c.parents.zipIdx = c.parentDims.zipIdx.map fun e => (e.1.1, e.2) :=
    h.factor.zipIdx_keys c.frontalCount
  have he : c.parentDims.zipIdx.map (·.1) = c.parentDims := List.zipIdx_map_fst 0 _
  have hn : (Widths.keys c.parentDims).Nodup := by
    rw [Widths.keys, h.keys_parentDims]
    exact h.nodup.drop
  have hc := h.forM_propagate_cases hv (List.Subset.refl _) (he.symm ▸ hn) x
  rw [he] at hc
  rw [hz, List.forM_eq_forM, List.forM_map]
  exact hc

theorem solveTransposeInPlace_cases (h : c.Valid) (x : Assignment α) :
    (x.Fits c.frontalDims ∧ x.Suits c.parentDims ∧ ∃ y, c.solveTransposeInPlace x = (.ok (), y)) ∨
      (¬x.Fits c.frontalDims ∧ ∃ f, c.solveTransposeInPlace x = (.error f, x)) ∨
      x.Fits c.frontalDims ∧
        ∃ f y, c.solveTransposeInPlace x = (.error f, y) ∧ Assignment.Stops c.parentDims x f y := by
  obtain ⟨a, ha, _, _, _, hrows, hcols⟩ := c.rsd.blocks_eq (h.le.trans (h.count ▸ Nat.le_succ _))
  have hr : c.r = .ok a := ha
  have hrows : a.rows = c.rows := hrows
  obtain ⟨hx, b, hb, hbs⟩ | ⟨hx, f, hf⟩ := h.gather_cases x
  case inl =>
    obtain ⟨v, hv, hvs⟩ :=
      Window.exists_solveUpperTranspose (hrows.trans (h.square.trans hcols.symm))
        (hbs.trans hrows.symm)
    have hrun : c.solveTransposeInPlace x =
        ((c.parents.zipIdx.forM fun e => c.propagate v e.1 e.2) >>=
          fun _ => modify (c.scatter v) : Edit _ Unit) x := by
      have hq : (do (← c.r).solveUpperTranspose b) = .ok v := by rw [hr, ok_bind, hv]
      exact (Edit.lift_bind_apply_ok hb _ x).trans (Edit.lift_bind_apply_ok hq _ x)
    obtain ⟨y, hy, hp⟩ | ⟨f, y, hy, hs⟩ := h.propagateAll_cases (hvs.trans hrows) x
    case inl => exact .inl ⟨hx, hp.suits, c.scatter v y, hrun.trans (Edit.bind_apply_ok hy _)⟩
    case inr => exact .inr (.inr ⟨hx, f, y, hrun.trans (Edit.bind_apply_error hy _), hs⟩)
  case inr =>
    exact .inr (.inl ⟨hx, f, Edit.lift_bind_apply_error hf _ x⟩)

theorem exists_parentDims_eq (h : c.Valid) (hp : 1 < c.parents.length) :
    ∃ first second rest, c.parentDims = first :: second :: rest := by
  rw [← h.keys_parentDims, List.length_map] at hp
  cases hd : c.parentDims
  case nil => simp [hd] at hp
  case cons first ds =>
    cases ds
    case nil => simp [hd] at hp
    case cons second rest => exact ⟨first, second, rest, rfl⟩

theorem interrupted_of_parents (h : c.Valid) {first second : Key × Nat} {rest : List (Key × Nat)}
    (hd : c.parentDims = first :: second :: rest) {x : Assignment α} (hx : x.Fits c.frontalDims)
    (hfirst : x.get? first.1 = none) {v : Array α} (hsecond : x.get? second.1 = some v)
    (hv : v.size ≠ second.2) :
    ∃ f y, c.solveTransposeInPlace x = (.error f, y) ∧ y ≠ x := by
  -- The first parent of two has no value, so it is written before the second one, whose value does
  -- not fit, is refused.
  obtain ⟨_, hs, _⟩ | ⟨hnot, _⟩ | ⟨_, f, y, hy, before, w, after, u, hsplit, hu, _, _, hr⟩ :=
    h.solveTransposeInPlace_cases x
  case inl => exact absurd (hs second (by simp [hd]) v hsecond) hv
  case inr.inl => exact absurd hx hnot
  case inr.inr =>
    refine ⟨f, y, hy, fun he => ?_⟩
    rw [hd] at hsplit
    cases before
    case nil => simp_all
    case cons =>
      obtain ⟨v, hv, _⟩ := hr.fits _ List.mem_cons_self
      simp_all

theorem exists_interrupted (h : c.Valid) (hp : 1 < c.parents.length) :
    ∃ x f y, c.solveTransposeInPlace x = (.error f, y) ∧ y ≠ x := by
  obtain ⟨first, second, rest, hd⟩ := h.exists_parentDims_eq hp
  have hn : (Widths.keys (c.frontalDims ++ first :: second :: rest)).Nodup := by
    rw [← hd, c.frontalDims_append_parentDims]
    exact h.factor.nodup_dims
  rw [Widths.keys, List.map_append, List.nodup_append] at hn
  obtain ⟨hf, hn, hne⟩ := hn
  let x : Assignment α :=
    (Assignment.zeros c.frontalDims).insert second.1 (Vec.zeros (second.2 + 1))
  have hx : x.Fits c.frontalDims := by
    intro w hw
    have hk : w.1 ≠ second.1 := hne w.1 (List.mem_map_of_mem hw) second.1 (by simp)
    rw [KeyMap.get?_insert, if_neg hk]
    exact Assignment.fits_zeros hf w hw
  have hfirst : x.get? first.1 = none := by
    have hk : first.1 ≠ second.1 :=
      fun he => (List.nodup_cons.mp hn).left (List.mem_cons.mpr (.inl he))
    rw [KeyMap.get?_insert, if_neg hk]
    exact Assignment.get?_zeros_of_not_mem fun hm => hne _ hm _ List.mem_cons_self rfl
  have hsecond : x.get? second.1 = some (Vec.zeros (second.2 + 1)) := by
    rw [KeyMap.get?_insert, if_pos rfl]
  exact ⟨x, h.interrupted_of_parents hd hx hfirst hsecond (by simp [Vec.zeros, Vec.fill])⟩

theorem atomic_solveTransposeInPlace_iff (h : c.Valid) :
    c.solveTransposeInPlace.Atomic ↔ c.parents.length ≤ 1 := by
  constructor
  case mp =>
    intro ha
    by_contra hp
    obtain ⟨x, f, y, hy, hne⟩ := h.exists_interrupted (not_le.mp hp)
    exact hne (ha x f y hy)
  case mpr =>
    intro hp x f y hy
    rw [← h.keys_parentDims, List.length_map] at hp
    obtain ⟨_, _, y', hy'⟩ | ⟨_, f', hy'⟩ | ⟨_, f', y', hy', before, w, after, u, hsplit, _, _,
        _, hr⟩ :=
      h.solveTransposeInPlace_cases x
    case inl => cases hy'.symm.trans hy
    case inr.inl =>
      cases hy'.symm.trans hy
      rfl
    case inr.inr =>
      cases hy'.symm.trans hy
      have hb : before = [] := by
        apply List.eq_nil_of_length_eq_zero
        simp only [hsplit, List.length_append, List.length_cons] at hp
        omega
      subst hb
      exact KeyMap.ext_get? fun k => hr.off k nofun

-- A substitution that fails has changed nothing, except for the transposed one through a density
-- with several parents. It fails for the frontal variables before it has written anything, or for
-- the first parent that does not fit, after it has written those before that one.
theorem atomic_solves (h : c.Valid) :
    c.solveInPlace.Atomic ∧ (∀ rhs, (c.solveWithRhs rhs).Atomic) ∧ c.scaleFrontals.Atomic ∧
      (c.solveTransposeInPlace.Atomic ↔ c.parents.length ≤ 1) ∧
      ∀ x f y, c.solveTransposeInPlace x = (.error f, y) →
        ¬x.Fits c.frontalDims ∧ y = x ∨
          x.Fits c.frontalDims ∧ Assignment.Stops c.parentDims x f y := by
  refine ⟨c.atomic_solveInPlace, c.atomic_solveWithRhs, c.atomic_scaleFrontals,
    h.atomic_solveTransposeInPlace_iff, fun x f y hy => ?_⟩
  obtain ⟨_, _, y', hy'⟩ | ⟨hx, f', hy'⟩ | ⟨hx, f', y', hy', hs⟩ := h.solveTransposeInPlace_cases x
  case inl => cases hy'.symm.trans hy
  case inr.inl =>
    cases hy'.symm.trans hy
    exact .inl ⟨hx, rfl⟩
  case inr.inr =>
    cases hy'.symm.trans hy
    exact .inr ⟨hx, hs⟩

end Valid

def forked : Conditional Float where
  keys := [1, 2, 3, 4]
  frontalCount := 1
  rsd := BlockMatrix.ofFn 1 [1, 1, 1, 1, 1] fun _ j => if j.val < 4 then 1 else 0
  model := ⟨#[1]⟩

theorem valid_forked : forked.Valid where
  nodup := by decide
  count := rfl
  last := rfl
  le := by decide
  square := rfl
  dim := rfl
  upper := by decide
  admissible := by decide

theorem atomic_solves_forked :
    forked.Valid ∧ forked.solveInPlace.Atomic ∧ (∀ rhs, (forked.solveWithRhs rhs).Atomic) ∧
      forked.scaleFrontals.Atomic ∧ ¬forked.solveTransposeInPlace.Atomic ∧
      ∀ x f y, forked.solveTransposeInPlace x = (.error f, y) → x.Fits [(1, 1)] →
        Assignment.Stops [(2, 1), (3, 1), (4, 1)] x f y := by
  obtain ⟨hsolve, hrhs, hscale, htr, hf⟩ := valid_forked.atomic_solves
  refine ⟨valid_forked, hsolve, hrhs, hscale, htr.not.mpr (by decide), fun x f y hy hx => ?_⟩
  exact ((hf x f y hy).resolve_left fun h => h.left hx).right

-- The last parent is refused, after a part of the value of the first one has been explained and the
-- second one has been added.
theorem interrupted_forked :
    forked.Valid ∧ ∃ x y : Assignment Float, x.entries = [(1, #[2]), (2, #[10]), (4, #[5, 6])] ∧
      forked.solveTransposeInPlace x = (.error (.error (.dimensionMismatch 4 1 2)), y) ∧
      y.entries = [(1, #[2]), (2, #[8]), (3, #[-2]), (4, #[5, 6])] :=
  ⟨valid_forked, KeyMap.ofList [(1, #[2]), (2, #[10]), (4, #[5, 6])], _, rfl,
    rfl, by decide +kernel⟩

end Conditional
end LinearGaussian
