import LinearGaussian.Proofs.Scalar

namespace LinearGaussian

-- A row as it is seen from a point: its deviation, and by how much the point misses it.
structure Measurement (P : Type) where
  sigma : ℝ
  residual : P → ℝ

namespace Measurement

variable {P Q : Type} {ks ls ms ns : List (Measurement P)} {p : P}

noncomputable def cost (m : Measurement P) (p : P) : ℝ :=
  1 / 2 * (m.residual p * NoiseModel.weightOf m.sigma) ^ 2

noncomputable def totalCost (ms : List (Measurement P)) (p : P) : ℝ :=
  (ms.map (·.cost p)).sum

def Feasible (ms : List (Measurement P)) (p : P) : Prop :=
  ∀ m ∈ ms, m.sigma = 0 → m.residual p = 0

-- Both lists admit the same points, and rate them alike up to a constant.
structure Agree (ms ns : List (Measurement P)) : Prop where
  feasible : ∀ p, Feasible ms p ↔ Feasible ns p
  cost : ∃ c ≥ 0, ∀ p, Feasible ms p → totalCost ms p = totalCost ns p + c

-- The second list can stand in for the first one, unless that admits no point.
def Reduces (ms ns : List (Measurement P)) : Prop :=
  (∃ p, Feasible ms p) → Agree ms ns

def idle : Measurement P :=
  ⟨1, fun _ => 0⟩

def comap (g : Q → P) (m : Measurement P) : Measurement Q :=
  ⟨m.sigma, fun q => m.residual (g q)⟩

def change (m : Measurement P) (p : P) : Measurement P :=
  ⟨m.sigma, fun q => m.residual q - m.residual p⟩

def ofRows {m : Nat} (sigmas : Fin m → ℝ) (residuals : Fin m → P → ℝ) : List (Measurement P) :=
  (List.finRange m).map fun i => ⟨sigmas i, residuals i⟩

theorem cost_nonneg (m : Measurement P) (p : P) : 0 ≤ m.cost p := by
  unfold cost
  positivity

@[simp]
theorem totalCost_nil : totalCost ([] : List (Measurement P)) p = 0 :=
  rfl

@[simp]
theorem totalCost_cons (m : Measurement P) : totalCost (m :: ms) p = m.cost p + totalCost ms p :=
  rfl

@[simp]
theorem totalCost_append : totalCost (ms ++ ns) p = totalCost ms p + totalCost ns p := by
  simp [totalCost]

theorem totalCost_flatMap {ι : Type} (is : List ι) (rows : ι → List (Measurement P)) (p : P) :
    totalCost (is.flatMap rows) p = (is.map fun i => totalCost (rows i) p).sum := by
  induction is
  case nil => rfl
  case cons i is ih => rw [List.flatMap_cons, totalCost_append, ih, List.map_cons, List.sum_cons]

theorem totalCost_nonneg : 0 ≤ totalCost ms p := by
  apply List.sum_nonneg
  intro a ha
  have ⟨m, _, hm⟩ := List.mem_map.mp ha
  exact hm ▸ m.cost_nonneg p

theorem totalCost_perm (h : ms.Perm ns) : totalCost ms p = totalCost ns p :=
  (h.map _).sum_eq

@[simp]
theorem feasible_nil : Feasible ([] : List (Measurement P)) p :=
  nofun

@[simp]
theorem feasible_cons {m : Measurement P} :
    Feasible (m :: ms) p ↔ (m.sigma = 0 → m.residual p = 0) ∧ Feasible ms p :=
  List.forall_mem_cons

@[simp]
theorem feasible_append : Feasible (ms ++ ns) p ↔ Feasible ms p ∧ Feasible ns p := by
  simp only [Feasible, List.mem_append, or_imp, forall_and]

theorem feasible_perm (h : ms.Perm ns) : Feasible ms p ↔ Feasible ns p := by
  simp only [Feasible, h.mem_iff]

theorem feasible_of_soft (h : ∀ m ∈ ms, m.sigma ≠ 0) : Feasible ms p :=
  fun m hm hs => absurd hs (h m hm)

theorem residual_eq_zero_of_cost {m : Measurement P} (h : m.cost p = 0) : m.residual p = 0 := by
  simpa [cost, weightOf_ne_zero] using h

theorem totalCost_eq_zero_iff : totalCost ms p = 0 ↔ ∀ m ∈ ms, m.residual p = 0 := by
  induction ms
  case nil => simp
  case cons m ms ih =>
    rw [totalCost_cons, add_eq_zero_iff_of_nonneg (m.cost_nonneg p) totalCost_nonneg, ih,
      List.forall_mem_cons]
    refine and_congr_left fun _ => ⟨residual_eq_zero_of_cost, fun h => ?_⟩
    simp [cost, h]

theorem totalCost_congr {q : P} (h : ∀ m ∈ ms, m.residual p = m.residual q) :
    totalCost ms p = totalCost ms q := by
  unfold totalCost
  congr 1
  apply List.map_congr_left
  intro m hm
  rw [cost, cost, h m hm]

theorem totalCost_add_totalCost {q r : P}
    (h : ∀ m ∈ ms, m.residual r = 2 * m.residual p - m.residual q) :
    totalCost ms q + totalCost ms r =
      2 * totalCost ms p + 2 * totalCost (ms.map (·.change p)) q := by
  induction ms
  case nil => simp
  case cons m ms ih =>
    have ⟨hm, hms⟩ := List.forall_mem_cons.mp h
    have hi := ih hms
    have hc : m.cost q + m.cost r = 2 * m.cost p + 2 * (m.change p).cost q := by
      simp only [cost, change, hm]
      ring
    simp only [totalCost_cons, List.map_cons]
    linarith

theorem residual_eq_of_totalCost {q r : P}
    (h : ∀ m ∈ ms, m.residual r = 2 * m.residual p - m.residual q)
    (hq : totalCost ms q = totalCost ms p) (hr : totalCost ms r = totalCost ms p) :
    ∀ m ∈ ms, m.residual q = m.residual p := by
  -- A cost that is the same at three points on a line is due to residuals that are the same there.
  have hc : totalCost (ms.map (·.change p)) q = 0 := by
    linarith [totalCost_add_totalCost h]
  intro m hm
  exact sub_eq_zero.mp $ totalCost_eq_zero_iff.mp hc (m.change p) (List.mem_map_of_mem hm)
theorem feasible_comap {g : Q → P} {q : Q} :
    Feasible (ms.map (·.comap g)) q ↔ Feasible ms (g q) := by
  simp [Feasible, comap]

theorem totalCost_comap (g : Q → P) (q : Q) :
    totalCost (ms.map (·.comap g)) q = totalCost ms (g q) := by
  rw [totalCost, List.map_map]
  rfl

theorem feasible_ofRows {m : Nat} {sigmas : Fin m → ℝ} {residuals : Fin m → P → ℝ} :
    Feasible (ofRows sigmas residuals) p ↔ ∀ i, sigmas i = 0 → residuals i p = 0 := by
  simp [Feasible, ofRows]

theorem totalCost_ofRows {m : Nat} {sigmas : Fin m → ℝ} {residuals : Fin m → P → ℝ} :
    totalCost (ofRows sigmas residuals) p =
      ∑ i, 1 / 2 * (residuals i p * NoiseModel.weightOf (sigmas i)) ^ 2 := by
  rw [totalCost, ofRows, List.map_map, Fin.sum_univ_def]
  rfl

namespace Reduces

theorem of_eq (hf : ∀ p, Feasible ms p ↔ Feasible ns p)
    (hc : ∀ p, totalCost ms p = totalCost ns p) : Reduces ms ns :=
  fun _ => ⟨hf, 0, le_refl _, fun p _ => by simp [hc]⟩

theorem of_perm (h : ms.Perm ns) : Reduces ms ns :=
  of_eq (fun _ => feasible_perm h) (fun _ => totalCost_perm h)

theorem refl : Reduces ms ms :=
  of_perm (.refl _)

theorem trans (h₁ : Reduces ls ms) (h₂ : Reduces ms ns) : Reduces ls ns := by
  intro ⟨q, hq⟩
  have a₁ := h₁ ⟨q, hq⟩
  have a₂ := h₂ ⟨q, (a₁.feasible q).mp hq⟩
  have ⟨c₁, hc₁, h₁⟩ := a₁.cost
  have ⟨c₂, hc₂, h₂⟩ := a₂.cost
  refine ⟨fun p => (a₁.feasible p).trans (a₂.feasible p), c₂ + c₁, by positivity, ?_⟩
  intro p hp
  rw [h₁ p hp, h₂ p $ (a₁.feasible p).mp hp, add_assoc]

theorem append_left (h : Reduces ms ns) : Reduces (ks ++ ms) (ks ++ ns) := by
  intro ⟨q, hq⟩
  have a := h ⟨q, (feasible_append.mp hq).right⟩
  have ⟨c, hc, h⟩ := a.cost
  constructor
  case feasible => simp [a.feasible]
  case cost =>
    refine ⟨c, hc, fun p hp => ?_⟩
    rw [totalCost_append, totalCost_append, h p (feasible_append.mp hp).right, add_assoc]

theorem cons (h : Reduces ms ns) (m : Measurement P) : Reduces (m :: ms) (m :: ns) :=
  show Reduces ([m] ++ ms) ([m] ++ ns) from h.append_left

theorem append_right (h : Reduces ms ns) : Reduces (ms ++ ks) (ns ++ ks) :=
  (of_perm List.perm_append_comm).trans $ h.append_left.trans $ of_perm List.perm_append_comm

theorem comap (g : Q → P) (h : Reduces ms ns) :
    Reduces (ms.map (·.comap g)) (ns.map (·.comap g)) := by
  intro ⟨q, hq⟩
  have a := h ⟨g q, feasible_comap.mp hq⟩
  have ⟨c, hc, h⟩ := a.cost
  constructor
  case feasible => simp [feasible_comap, a.feasible]
  case cost =>
    refine ⟨c, hc, fun q hq => ?_⟩
    rw [totalCost_comap, totalCost_comap, h (g q) (feasible_comap.mp hq)]

theorem drop_constant (h : ∀ m ∈ ks, ∀ p q, m.residual p = m.residual q) :
    Reduces (ms ++ ks) ms := by
  intro ⟨q, hq⟩
  have hq := (feasible_append.mp hq).right
  constructor
  case feasible =>
    intro p
    refine ⟨fun hp => (feasible_append.mp hp).left,
      fun hp => feasible_append.mpr ⟨hp, fun m hm hs => ?_⟩⟩
    rw [h m hm p q, hq m hm hs]
  case cost =>
    refine ⟨totalCost ks q, totalCost_nonneg, fun p _ => ?_⟩
    rw [totalCost_append, totalCost_congr fun m hm => h m hm p q]

theorem getD_idle {ι : Type} (g : ι → Option (Measurement P)) (is : List ι) :
    Reduces (is.filterMap g) (is.map fun i => (g i).getD idle) := by
  induction is
  case nil => exact refl
  case cons i is ih =>
    cases hi : g i
    case none =>
      have hp : Reduces (is.filterMap g) (idle :: is.filterMap g) :=
        of_eq (by simp [idle]) (by simp [idle, cost])
      simpa [hi] using hp.trans (ih.cons idle)
    case some m => simpa [hi] using ih.cons m

end Reduces
end Measurement
end LinearGaussian
