import LinearGaussian.Proofs.Solve

namespace LinearGaussian

namespace Outcome

variable {β γ δ ε : Type} {R : β → γ → Prop} {S : δ → ε → Prop}

-- Both operations fail for the same reason, or return results that are related.
inductive SameUpTo (R : β → γ → Prop) : Outcome β → Outcome γ → Prop
  | ok {b : β} {c : γ} : R b c → SameUpTo R (.ok b) (.ok c)
  | error (e : Fault) : SameUpTo R (.error e) (.error e)

theorem SameUpTo.bind {r : Outcome β} {r' : Outcome γ} {f : β → Outcome δ} {g : γ → Outcome ε}
    (h : SameUpTo R r r') (hf : ∀ b c, R b c → SameUpTo S (f b) (g c)) :
    SameUpTo S (r >>= f) (r' >>= g) := by
  cases h
  case ok h => exact hf _ _ h
  case error e => exact .error e

theorem SameUpTo.eq {r r' : Outcome β} (h : SameUpTo (· = ·) r r') : r = r' := by
  cases h
  case ok h => rw [h]
  case error => rfl

theorem SameUpTo.mono {R' : β → γ → Prop} {r : Outcome β} {r' : Outcome γ} (h : SameUpTo R r r')
    (hr : ∀ b c, R b c → R' b c) : SameUpTo R' r r' := by
  cases h
  case ok h => exact .ok (hr _ _ h)
  case error e => exact .error e

theorem foldlM_congr {f g : γ → β → Outcome γ} {bs : List β} (h : ∀ b ∈ bs, ∀ c, f c b = g c b)
    (c : γ) :
    bs.foldlM f c = bs.foldlM g c := by
  induction bs generalizing c
  case nil => rfl
  case cons b bs ih =>
    obtain ⟨hb, hbs⟩ := List.forall_mem_cons.mp h
    rw [List.foldlM_cons, List.foldlM_cons, hb, funext (ih hbs)]

end Outcome

namespace Edit

variable {σ β : Type} {P : σ → Prop}

def Maintains (P : σ → Prop) (e : Edit σ Unit) : Prop :=
  ∀ s, P s → P (e s).2

theorem Maintains.bind {e e' : Edit σ Unit} (h : Maintains P e) (h' : Maintains P e') :
    Maintains P (e >>= fun _ => e') := by
  intro s hs
  have hp := h s hs
  simp only [Bind.bind, ExceptT.bind, ExceptT.mk, StateT.bind, ExceptT.bindCont]
  rcases he : e s with ⟨_ | _, s'⟩ <;> rw [he] at hp
  case error => exact hp
  case ok => exact h' s' hp

theorem Maintains.forM {e : β → Edit σ Unit} {bs : List β} (h : ∀ b ∈ bs, Maintains P (e b)) :
    Maintains P (bs.forM e) := by
  induction bs
  case nil => exact fun _ hs => hs
  case cons b bs ih =>
    obtain ⟨hb, hbs⟩ := List.forall_mem_cons.mp h
    exact hb.bind (ih hbs)

theorem maintains_update {r : σ → Outcome β} {change : β → σ → σ}
    (h : ∀ s b, P s → P (change b s)) :
    Maintains P (do
      let b ← lift (r (← get))
      modify (change b)) := by
  intro s hs
  change P ((lift (r s) >>= fun b => modify (change b) : Edit σ Unit) s).2
  cases r s
  case error => exact hs
  case ok b => exact h s b hs

end Edit

namespace Assignment

variable {α : Type} {x y : Assignment α}

def AgreeOff (ks : List Key) (x y : Assignment α) : Prop :=
  ∀ k, k ∉ ks → x.get? k = y.get? k

theorem valueOf_congr {k : Key} (h : x.get? k = y.get? k) (d : Nat) :
    x.valueOf k d = y.valueOf k d := by
  rw [valueOf, valueOf, value, value, h]

end Assignment

namespace Conditional

variable {α : Type} [Arith α] [RealLike α] {c : Conditional α} {x y : Assignment α} {ks : List Key}

section Step

omit [RealLike α] in
theorem solveFor_congr (h : ∀ k ∈ c.parents, x.get? k = y.get? k) (rhs : Array α) :
    c.solveFor rhs x = c.solveFor rhs y := by
  unfold solveFor
  congr 1
  refine Outcome.foldlM_congr (fun e he rhs => ?_) rhs
  simp only [Assignment.valueOf_congr (h e.1 (List.fst_mem_of_mem_zipIdx he))]

omit [Arith α] [RealLike α] in
theorem agreeOff_scatter (h : x.AgreeOff (ks ++ c.frontals) y) (v : Array α) :
    (c.scatter v x).AgreeOff ks (c.scatter v y) := by
  intro k hk
  by_cases hf : k ∈ c.frontals
  case pos => exact get?_scatter_congr v x y hf
  case neg =>
    rw [c.get?_scatter_of_not_mem v x hf, c.get?_scatter_of_not_mem v y hf,
      h k (List.not_mem_append hk hf)]

theorem sameUpTo_solveInPlace (hk : ∀ k ∈ c.parents, k ∉ ks ++ c.frontals)
    (h : x.AgreeOff (ks ++ c.frontals) y) :
    Outcome.SameUpTo (Assignment.AgreeOff ks) (c.solveInPlace.outcome x)
      (c.solveInPlace.outcome y) := by
  rw [outcome_solveInPlace_eq, outcome_solveInPlace_eq, solveFor_congr fun k hp => h k (hk k hp)]
  cases c.solveFor c.d y
  case error e => exact .error e
  case ok v => exact .ok (agreeOff_scatter h _)

theorem maintains_solveInPlace {k : Key} (hk : k ∉ c.frontals) (x : Assignment α) :
    Edit.Maintains (fun z : Assignment α => z.get? k = x.get? k) c.solveInPlace := by
  refine Edit.maintains_update fun z v hz => ?_
  rw [c.get?_scatter_of_not_mem _ z hk, hz]

end Step

section Run

variable {cs : List (Conditional α)}

-- No parent of a density is a frontal variable of the same density or of an earlier one.
def Forward (cs : List (Conditional α)) : Prop :=
  ∀ (i j : Nat) (c d : Conditional α), cs[i]? = some c → cs[j]? = some d → j ≤ i → ∀ k ∈ c.parents,
    k ∉ d.frontals

omit [Arith α] [RealLike α] in
theorem forward_cons_iff :
    Forward (c :: cs) ↔ (∀ d ∈ c :: cs, ∀ k ∈ d.parents, k ∉ c.frontals) ∧ Forward cs := by
  constructor
  case mp =>
    intro h
    refine ⟨fun d hd => ?_,
      fun i j d e hd he hij => h (i + 1) (j + 1) d e hd he (Nat.succ_le_succ hij)⟩
    obtain ⟨i, hi⟩ := List.mem_iff_getElem?.mp hd
    exact h i 0 d c hi rfl (Nat.zero_le i)
  case mpr =>
    rintro ⟨hc, hcs⟩ (_ | i) (_ | j) d e hd he hij
    case zero.succ => omega
    case succ.succ => exact hcs i j d e hd he (Nat.le_of_succ_le_succ hij)
    all_goals
      cases he
      exact hc d (List.mem_of_getElem? hd)

theorem sameUpTo_forM_reverse (h : Forward cs) (hk : ∀ c ∈ cs, ∀ k ∈ c.parents, k ∉ ks)
    (hx : x.AgreeOff (ks ++ cs.flatMap (·.frontals)) y) :
    Outcome.SameUpTo (Assignment.AgreeOff ks) (Edit.outcome (cs.reverse.forM (·.solveInPlace)) x)
      (Edit.outcome (cs.reverse.forM (·.solveInPlace)) y) := by
  induction cs generalizing ks
  case nil => exact .ok (by simpa using hx)
  case cons c cs ih =>
    obtain ⟨hc, hcs⟩ := List.forall_mem_cons.mp hk
    obtain ⟨hf, h⟩ := forward_cons_iff.mp h
    -- The run reaches `c` last, so before that the frontal variables of `c` may differ as well.
    rw [Edit.outcome_forM_reverse_cons, Edit.outcome_forM_reverse_cons]
    have hks : ∀ d ∈ cs, ∀ k ∈ d.parents, k ∉ ks ++ c.frontals :=
      fun d hd k hp => List.not_mem_append (hcs d hd k hp) (hf d (.tail _ hd) k hp)
    have hx : x.AgreeOff ((ks ++ c.frontals) ++ cs.flatMap (·.frontals)) y := by
      rwa [List.append_assoc]
    refine (ih h hks hx).bind fun z z' hz => sameUpTo_solveInPlace (fun k hp => ?_) hz
    exact List.not_mem_append (hc k hp) (hf c (.head _) k hp)

end Run

end Conditional

namespace BayesNet

variable {α : Type} [Arith α] [RealLike α] {n : BayesNet α} {x y : Assignment α}

-- A run over all densities does not depend on the values that the frontal variables had, and
-- changes no others, also if it stops half way.
theorem optimizeInPlace_eq_of_agreeOff (hn : Conditional.Forward n.conditionals)
    (h : x.AgreeOff (n.conditionals.flatMap (·.frontals)) y) :
    n.optimizeInPlace.outcome x = n.optimizeInPlace.outcome y ∧
      ∀ k ∉ n.conditionals.flatMap (·.frontals), (n.optimizeInPlace x).2.get? k = x.get? k := by
  constructor
  case left =>
    have ha : Outcome.SameUpTo (Assignment.AgreeOff []) (n.optimizeInPlace.outcome x)
        (n.optimizeInPlace.outcome y) :=
      Conditional.sameUpTo_forM_reverse hn (fun _ _ _ _ => List.not_mem_nil) h
    exact (ha.mono fun z z' hz => KeyMap.ext_get? fun k => hz k List.not_mem_nil).eq
  case right =>
    intro k hk
    have hm : Edit.Maintains (fun z : Assignment α => z.get? k = x.get? k) n.optimizeInPlace := by
      refine Edit.Maintains.forM fun c hc => Conditional.maintains_solveInPlace (fun hf => hk ?_) x
      exact List.mem_flatMap.mpr ⟨c, List.mem_reverse.mp hc, hf⟩
    exact hm x rfl

def relay : BayesNet Float where
  conditionals :=
    [⟨[1, 2, 3, 9], 2, BlockMatrix.ofFn 2 [1, 1, 1, 1, 1] fun i j => if j.val < i.val then 0 else 2,
      .unit 2⟩, ⟨[3, 9], 1, BlockMatrix.ofFn 1 [1, 1, 1] fun _ _ => 2, .unit 1⟩]

theorem forward_relay : Conditional.Forward relay.conditionals :=
  Conditional.forward_cons_iff.mpr ⟨by decide, Conditional.forward_cons_iff.mpr ⟨by decide, nofun⟩⟩

theorem agreeOff_relay {x y : Assignment Float} (h : ∀ k, k ≠ 1 ∧ k ≠ 3 → x.get? k = y.get? k) :
    x.AgreeOff (relay.conditionals.flatMap (·.frontals)) y := by
  intro k hk
  have hf : relay.conditionals.flatMap (·.frontals) = [1, 2, 3] := rfl
  rw [hf] at hk
  exact h k (by simp_all)

theorem optimizeInPlace_eq_of_agreeOff_relay :
    let x : Assignment Float := KeyMap.ofList [(1, #[]), (3, #[7, 8]), (9, #[1])]
    let y : Assignment Float := KeyMap.ofList [(3, #[0 / 0]), (9, #[1])]
    let z : Assignment Float := KeyMap.ofList [(3, #[1])]
    (∃ u, relay.optimizeInPlace.outcome x = .ok u ∧ relay.optimizeInPlace.outcome y = .ok u) ∧
      (relay.optimizeInPlace x).2.get? 9 = some #[1] ∧
      relay.optimizeInPlace.outcome z = relay.optimizeInPlace.outcome ∅ ∧
      relay.optimizeInPlace.outcome ∅ = fail (.missingValue 9) := by
  intro x y z
  have hxy := agreeOff_relay (x := x) (y := y) fun k hk => by simp [x, y, KeyMap.ofList, hk]
  have hz := agreeOff_relay (x := z) (y := ∅) fun k hk => by simp [z, KeyMap.ofList, hk]
  obtain ⟨he, hkeep⟩ := optimizeInPlace_eq_of_agreeOff forward_relay hxy
  obtain ⟨u, hu⟩ : ∃ u, relay.optimizeInPlace.outcome x = .ok u := ⟨_, rfl⟩
  exact ⟨⟨u, hu, he.symm.trans hu⟩, hkeep 9 (by decide),
    (optimizeInPlace_eq_of_agreeOff forward_relay hz).left, rfl⟩

end BayesNet
end LinearGaussian
