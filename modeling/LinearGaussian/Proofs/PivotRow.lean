import LinearGaussian.Proofs.Measurement
import LinearGaussian.Elimination.Step

namespace LinearGaussian

structure Ascending {n : Nat} (pivots : List (Fin n)) (c : Nat) : Prop where
  lt   : ∀ p ∈ pivots, p.val < c
  mono : pivots.Pairwise (· < ·)

namespace Ascending

variable {n c : Nat} {pivots : List (Fin n)}

theorem nil : Ascending ([] : List (Fin n)) c :=
  ⟨by simp, .nil⟩

theorem succ (h : Ascending pivots c) : Ascending pivots (c + 1) :=
  ⟨fun p hp => Nat.lt_succ_of_lt (h.lt p hp), h.mono⟩

theorem snoc {col : Fin n} (h : Ascending pivots col.val) :
    Ascending (pivots ++ [col]) (col.val + 1) := by
  constructor
  case lt =>
    intro p hp
    cases List.mem_append.mp hp
    case inl hp => exact Nat.lt_succ_of_lt (h.lt p hp)
    case inr hp => exact List.mem_singleton.mp hp ▸ Nat.lt_succ_self _
  case mono =>
    refine List.pairwise_append.mpr ⟨h.mono, List.pairwise_singleton _ _, fun p hp q hq => ?_⟩
    exact List.mem_singleton.mp hq ▸ Fin.lt_def.mpr (h.lt p hp)

theorem nodup (h : Ascending pivots c) : pivots.Nodup :=
  h.mono.imp fun hp => hp.ne

theorem length_le (h : Ascending pivots c) : pivots.length ≤ c := by
  have hn : (pivots.map Fin.val).Nodup := h.nodup.map Fin.val_injective
  have hs : pivots.map Fin.val ⊆ List.range c := by
    intro i hi
    obtain ⟨p, hp, rfl⟩ := List.mem_map.mp hi
    exact List.mem_range.mpr (h.lt p hp)
  simpa using (List.subperm_of_subset hn hs).length_le

end Ascending

namespace PivotRow

open Measurement

theorem find?_eq_some_iff {α : Type} {n i : Nat} {rows : List (PivotRow α n)} {row : PivotRow α n}
    (h : (rows.map (·.pivot)).Nodup) :
    find? rows i = some row ↔ row ∈ rows ∧ row.pivot.val = i := by
  constructor
  case mp =>
    intro hf
    exact ⟨List.mem_of_find?_eq_some hf, by simpa using List.find?_some hf⟩
  case mpr =>
    rintro ⟨hr, hi⟩
    cases hf : find? rows i
    case none => exact absurd hi (by simpa using List.find?_eq_none.mp hf row hr)
    case some row' =>
      have hr' := List.mem_of_find?_eq_some hf
      have hi' : row'.pivot.val = i := by simpa using List.find?_some hf
      rw [List.inj_on_of_nodup_map h hr hr' (Fin.ext (hi.trans hi'.symm))]

variable {n c : Nat} {rows : List (PivotRow ℝ n)} {row : PivotRow ℝ n}

def measurement (row : PivotRow ℝ n) : Measurement (Fin n → ℝ) :=
  ⟨row.sigma, fun z => ∑ j : Fin n, row.values[j] * z j⟩

-- The rows have their pivots in the first `c` columns, each one right of the one before.
structure Staircase (rows : List (PivotRow ℝ n)) (c : Nat) : Prop where
  lt   : ∀ row ∈ rows, row.pivot.val < c
  mono : rows.Pairwise (·.pivot < ·.pivot)
  left : ∀ row ∈ rows, ∀ j < row.pivot, row.values[j] = 0
  unit : ∀ row ∈ rows, row.sigma = 0 ∨ row.sigma = 1

namespace Staircase

theorem nil : Staircase ([] : List (PivotRow ℝ n)) c := by
  constructor <;> simp

theorem succ (h : Staircase rows c) : Staircase rows (c + 1) where
  lt row hr := Nat.lt_succ_of_lt (h.lt row hr)
  mono := h.mono
  left := h.left
  unit := h.unit

theorem ascending (h : Staircase rows c) : Ascending (rows.map (·.pivot)) c :=
  ⟨List.forall_mem_map.mpr h.lt, List.pairwise_map.mpr h.mono⟩

theorem snoc (h : Staircase rows c) (hp : row.pivot.val = c)
    (hl : ∀ j < row.pivot, row.values[j] = 0) (hs : row.sigma = 0 ∨ row.sigma = 1) :
    Staircase (rows ++ [row]) (c + 1) := by
  subst hp
  have ha : Ascending ((rows ++ [row]).map (·.pivot)) (row.pivot.val + 1) := by
    simpa using h.ascending.snoc
  constructor
  case lt => exact List.forall_mem_map.mp ha.lt
  case mono => exact List.pairwise_map.mp ha.mono
  case left =>
    intro r hr
    cases List.mem_append.mp hr
    case inl hr => exact h.left r hr
    case inr hr => exact List.mem_singleton.mp hr ▸ hl
  case unit =>
    intro r hr
    cases List.mem_append.mp hr
    case inl hr => exact h.unit r hr
    case inr hr => exact List.mem_singleton.mp hr ▸ hs

theorem nodup_pivots (h : Staircase rows c) : (rows.map (·.pivot)).Nodup :=
  h.ascending.nodup

theorem find?_eq_some_iff (h : Staircase rows c) {i : Nat} :
    find? rows i = some row ↔ row ∈ rows ∧ row.pivot.val = i :=
  PivotRow.find?_eq_some_iff h.nodup_pivots

theorem filterMap_find? (h : Staircase rows c) (k : Nat) :
    ((List.range k).filterMap (find? rows)).Perm (rows.filter fun row => row.pivot.val < k) := by
  have hn : ((List.range k).filterMap (find? rows)).Nodup := by
    apply List.nodup_range.filterMap
    intro i j row hi hj
    exact (h.find?_eq_some_iff.mp hi).right.symm.trans (h.find?_eq_some_iff.mp hj).right
  apply (List.perm_ext_iff_of_nodup hn (h.nodup_pivots.of_map.filter _)).mpr
  intro row
  simp only [List.mem_filterMap, List.mem_range, h.find?_eq_some_iff, List.mem_filter,
    decide_eq_true_eq]
  constructor
  case mp =>
    intro ⟨i, hi, hr, hp⟩
    exact ⟨hr, hp ▸ hi⟩
  case mpr =>
    intro ⟨hr, hp⟩
    exact ⟨row.pivot, hp, hr, rfl⟩

theorem entry_eq (h : Staircase rows c) (hr : row ∈ rows) (j : Fin n) :
    row.entry j = row.values[j] := by
  unfold entry
  split
  case isTrue => rfl
  case isFalse hj => rw [h.left row hr j (not_le.mp hj)]

end Staircase
end PivotRow
end LinearGaussian
