import LinearGaussian.Proofs.JointMatrix
import LinearGaussian.Conditional.Solve

namespace LinearGaussian

open LinearFactor

section Stack

variable {ds es : Widths} {p : Point} {j : Nat}

theorem stack_append_left (hj : j < (ds.map (·.2)).sum) : stack (ds ++ es) p j = stack ds p j := by
  rw [stack, stack, List.map_append]
  exact endToEnd_append_left _ _ _ _ (by simpa [Function.comp_def] using hj)

theorem stack_append_right (ds es : Widths) (p : Point) (j : Nat) :
    stack (ds ++ es) p ((ds.map (·.2)).sum + j) = stack es p j := by
  have h :=
    endToEnd_append_right (-1) (ds.map fun w => (w.2, p w.1)) (es.map fun w => (w.2, p w.1)) j
  rw [← List.map_append, List.map_map] at h
  exact h

noncomputable def coordinates (ds : Widths) (p : Point) : Array ℝ :=
  Array.ofFn fun j : Fin (ds.map (·.2)).sum => stack ds p j

@[simp]
theorem size_coordinates (ds : Widths) (p : Point) : (coordinates ds p).size = (ds.map (·.2)).sum :=
  Array.size_ofFn

theorem getElem?_coordinates (hj : j < (ds.map (·.2)).sum) :
    (coordinates ds p)[j]? = some (stack ds p j) := by
  simp [coordinates, hj]

theorem getD_coordinates (hj : j < (ds.map (·.2)).sum) :
    (coordinates ds p).getD j 0 = stack ds p j := by
  rw [Array.getD_eq_getD_getElem?, getElem?_coordinates hj, Option.getD_some]

end Stack

section Values

variable {ds : Widths} {x : Assignment ℝ}

theorem concat_values (h : x.Fits ds) :
    Vec.concat (ds.map fun w => (x.get? w.1).getD #[]) = coordinates ds x.point := by
  have hs : ∀ w ∈ ds, ((x.get? w.1).getD #[]).size = w.2 := by
    intro w hw
    have ⟨v, hv, hs⟩ := h w hw
    rw [hv, Option.getD_some, hs]
  have hsize : (Vec.concat (ds.map fun w => (x.get? w.1).getD #[])).size = (ds.map (·.2)).sum := by
    rw [Vec.size_concat, List.map_map]
    exact congrArg List.sum (List.map_congr_left hs)
  apply Array.ext
  case h₁ => rw [hsize, size_coordinates]
  case h₂ =>
    intro j hj hj'
    rw [hsize] at hj
    have hg := Vec.getD_concat 0 (·.2) (fun w : Key × Nat => (x.get? w.1).getD #[]) hs j
    have he : endToEnd 0 (ds.map fun w => (w.2, x.point w.1)) j = stack ds x.point j := by
      have hl : j < ((ds.map fun w => (w.2, x.point w.1)).map (·.1)).sum := by
        simpa [Function.comp_def] using hj
      have ha := endToEnd_append_left 0 (-1) (ds.map fun w => (w.2, x.point w.1)) [] hl
      rwa [List.append_nil] at ha
    have hc : (Vec.concat (ds.map fun w => (x.get? w.1).getD #[])).getD j 0 = stack ds x.point j :=
      hg.trans he
    simpa [coordinates, hsize, hj] using hc

theorem Assignment.stacked_eq (h : x.Fits ds) {order : EliminationOrder}
    (ho : order.keys = ds.keys) :
    x.stacked order = .ok (coordinates ds x.point) := by
  have hm : order.keys.mapM (value x) = .ok (order.keys.map fun k => (x.get? k).getD #[]) := by
    rw [ho]
    refine Outcome.mapM_eq_ok fun k hk => ?_
    have ⟨w, hw, he⟩ := List.mem_map.mp hk
    have ⟨v, hv, _⟩ := h w hw
    simp [value, ← he, hv]
  rw [stacked, hm, ho, Widths.keys, List.map_map, Outcome.ok_bind, Outcome.pure_eq_ok]
  exact congrArg _ (concat_values h)

theorem Assignment.mapM_valueOf {α : Type} {x : Assignment α} (h : x.Fits ds) :
    ds.mapM (fun (k, d) => x.valueOf k d) = .ok (ds.map fun w => (x.get? w.1).getD #[]) := by
  refine Outcome.mapM_eq_ok fun (k, d) hw => ?_
  have ⟨v, hv, hs⟩ := h (k, d) hw
  cases hs
  simp [valueOf_eq hv, hv]

theorem Conditional.gather_eq {c : Conditional ℝ} (h : x.Fits c.frontalDims) :
    c.gather x = .ok (coordinates c.frontalDims x.point) := by
  rw [gather, BayesNet.zip_frontals, Assignment.mapM_valueOf h, Outcome.ok_bind, Outcome.pure_eq_ok,
    concat_values h]

end Values

section Product

theorem Mat.mulVec_eq (a : Mat ℝ) {v : Array ℝ} (hv : v.size = a.cols) :
    a.mulVec v =
      .ok (Array.ofFn fun i : Fin a.rows => ∑ j ∈ Finset.range a.cols, a.entry i j *
        v.getD j 0) := by
  have hd (j : Fin a.cols) : v.getD j 0 = v[j.val] := by simp [hv]
  simp only [mulVec, Vec.sized, hv, dif_pos, Outcome.ok_bind, Outcome.pure_eq_ok,
    LinearGaussian.mulVec, dot_eq_sum, Finset.sum_range, entry_body, hd, Vector.toArray_ofFn]
  rfl

theorem Mat.trMulVec_eq (a : Mat ℝ) {v : Array ℝ} (hv : v.size = a.rows) :
    a.trMulVec v =
      .ok (Array.ofFn fun j : Fin a.cols => ∑ i ∈ Finset.range a.rows, a.entry i j *
        v.getD i 0) := by
  have hd (i : Fin a.rows) : v.getD i 0 = v[i.val] := by simp [hv]
  simp only [trMulVec, Vec.sized, hv, dif_pos, Outcome.ok_bind, Outcome.pure_eq_ok,
    LinearGaussian.trMulVec, dot_eq_sum, Finset.sum_range, entry_body, hd, Vector.toArray_ofFn]
  rfl

theorem mulVec_coordinates (a : Nat → Nat → ℝ) (ds : Widths) (p : Point) :
    (Mat.ofFn (ds.map (·.2)).sum (ds.map (·.2)).sum fun i j => a i j).mulVec (coordinates ds p) =
      .ok (Array.ofFn fun i : Fin (ds.map (·.2)).sum =>
        ∑ j ∈ Finset.range (ds.map (·.2)).sum, a i j * stack ds p j) := by
  rw [Mat.mulVec_eq _ (size_coordinates ds p)]
  congr 2
  funext (i : Fin (ds.map (·.2)).sum)
  refine Finset.sum_congr rfl fun j (hj : j ∈ Finset.range (ds.map (·.2)).sum) => ?_
  have hj := Finset.mem_range.mp hj
  rw [Mat.entry_ofFn _ i.isLt hj, getD_coordinates hj]

theorem trMulVec_coordinates (a : Nat → Nat → ℝ) (ds : Widths) (p : Point) :
    (Mat.ofFn (ds.map (·.2)).sum (ds.map (·.2)).sum fun i j => a i j).trMulVec (coordinates ds p) =
      .ok (Array.ofFn fun j : Fin (ds.map (·.2)).sum =>
        ∑ i ∈ Finset.range (ds.map (·.2)).sum, a i j * stack ds p i) := by
  rw [Mat.trMulVec_eq _ (size_coordinates ds p)]
  congr 2
  funext (j : Fin (ds.map (·.2)).sum)
  refine Finset.sum_congr rfl fun i (hi : i ∈ Finset.range (ds.map (·.2)).sum) => ?_
  have hi := Finset.mem_range.mp hi
  rw [Mat.entry_ofFn _ hi j.isLt, getD_coordinates hi]

end Product
end LinearGaussian
