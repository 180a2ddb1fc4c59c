import LinearGaussian.Proofs.Reduction

namespace LinearGaussian

variable {α : Type} [Arith α] [RealLike α] {m n count : Nat}

theorem ascending_foldWhere {β : Type} (pivots : β → List (Fin n)) {step : β → Fin n → β} {init : β}
    {limit : Nat} (h0 : pivots init = [])
    (hs : ∀ b col, pivots (step b col) = pivots b ∨
      (pivots b).length < limit ∧ pivots (step b col) = pivots b ++ [col]) (h : count ≤ n) :
    Ascending (pivots (foldWhere (fun col => col.val < count) step init)) count ∧
      (pivots (foldWhere (fun col => col.val < count) step init)).length ≤ limit := by
  refine foldWhere_induction (P := fun c b => Ascending (pivots b) c ∧
    (pivots b).length ≤ limit) ?_ ?_ h
  case refine_1 => simpa [h0] using Ascending.nil
  case refine_2 =>
    rintro col b ⟨ha, hl⟩
    rcases hs b col with he | ⟨hlt, he⟩
    case inl => exact he ▸ ⟨ha.succ, hl⟩
    case inr => exact he ▸ ⟨ha.snoc, by simpa using hlt⟩

theorem Echelon.pivots_step (e : Echelon α m n) (col : Fin n) :
    (e.step col).pivots = e.pivots ∨ e.pivots.length < m ∧ (e.step col).pivots =
      e.pivots ++ [col] := by
  unfold step
  split
  case isTrue hm =>
    split
    case h_1 => exact .inl rfl
    case h_2 => exact .inr ⟨hm, rfl⟩
  case isFalse => exact .inl rfl

theorem ascending_triangularize (a : Dense α m n) (h : count ≤ n) :
    Ascending (triangularize a count).pivots count ∧ (triangularize a count).pivots.length ≤ m :=
  ascending_foldWhere Echelon.pivots rfl Echelon.pivots_step h

theorem WeightedReduction.cols_step (s : WeightedReduction α m n) (sigmas : Fin m → α)
    (zeroTol rankTol : α) (maxRank : Nat) (col : Fin n) :
    (s.step sigmas zeroTol rankTol maxRank col).rows.map (·.col) = s.rows.map (·.col) ∨
      (s.rows.map (·.col)).length < maxRank ∧
        (s.step sigmas zeroTol rankTol maxRank col).rows.map (·.col) =
          s.rows.map (·.col) ++ [col] := by
  simp only [step, List.length_map]
  split
  case isTrue hm =>
    split
    case isTrue => exact .inl rfl
    case isFalse => exact .inr ⟨hm, by simp⟩
  case isFalse => exact .inl rfl

theorem ascending_weightedReduce (a : Dense α m n) (sigmas : Fin m → α) (zeroTol rankTol : α)
    (h : count ≤ n) :
    Ascending ((weightedReduce a sigmas count zeroTol rankTol).rows.map (·.col)) count ∧
      ((weightedReduce a sigmas count zeroTol rankTol).rows.map (·.col)).length ≤ m := by
  let cols (s : WeightedReduction α m n) := s.rows.map (·.col)
  have h0 : cols ⟨a, []⟩ = [] := rfl
  have hr :=
    ascending_foldWhere cols h0 (fun s => s.cols_step sigmas zeroTol rankTol (min m count)) h
  exact ⟨hr.left, hr.right.trans (Nat.min_le_left _ _)⟩

namespace LinearFactor

variable {f : LinearFactor α}

theorem pivots_orthogonalRows (f : LinearFactor α) (h : f.width ≤ f.ab.full.cols) :
    f.orthogonalRows.map (·.pivot) = (triangularize f.whitenedBody f.width).pivots := by
  simp only [orthogonalRows, Echelon.rows, List.map_map]
  refine List.map_fst_zip ?_
  simpa using (ascending_triangularize _ h).right

theorem pivots_constrainedRows (f : LinearFactor α) (settings : EliminationSettings α) :
    (f.constrainedRows settings).map (·.pivot) =
      (weightedReduce f.ab.full.body (fun i => f.sigmas.getD i 1) f.width
      settings.zeroTol settings.rankTol).rows.map (·.col) := by
  simp [constrainedRows]

-- Whatever the numbers are, the pivots of the reduced rows ascend, and there are at most as many as
-- rows of the factor.
theorem ascending_reducedRows (h : f.WellFormed) (settings : EliminationSettings α) :
    Ascending ((f.reducedRows settings).map (·.pivot)) f.width ∧
      (f.reducedRows settings).length ≤ f.rows := by
  have hw : f.width ≤ f.ab.full.cols := h.cols_eq ▸ Nat.le_succ _
  rw [← List.length_map (·.pivot)]
  unfold reducedRows
  split
  case isTrue =>
    rw [pivots_constrainedRows]
    exact ascending_weightedReduce _ _ _ _ hw
  case isFalse =>
    rw [f.pivots_orthogonalRows hw]
    exact ascending_triangularize _ hw

end LinearFactor
end LinearGaussian
