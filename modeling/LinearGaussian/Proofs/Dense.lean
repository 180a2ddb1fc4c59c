import LinearGaussian.Proofs.Outcome
import LinearGaussian.Proofs.Scalar
import LinearGaussian.Dense.Blocks

namespace LinearGaussian

section Fold

variable {β : Type} {n : Nat}

theorem foldWhere_lt_zero (step : β → Fin n → β) (init : β) :
    foldWhere (fun c => c.val < 0) step init = init := by
  have h (l : List (Fin n)) : l.foldl (fun b _ => b) init = init := by induction l <;> simp_all
  simp [foldWhere, Fin.foldl_eq_finRange_foldl, h]

theorem foldWhere_lt_succ (step : β → Fin n → β) (init : β) {i : Nat} (h : i < n) :
    foldWhere (fun c => c.val < i + 1) step init =
      step (foldWhere (fun c => c.val < i) step init) ⟨i, h⟩ := by
  induction n
  case zero => contradiction
  case succ n ih =>
    unfold foldWhere at ih ⊢
    rw [Fin.foldl_succ_last, Fin.foldl_succ_last]
    by_cases hi : i = n
    case pos =>
      subst hi
      have hc (c : Fin i) : c.val < i + 1 := by omega
      simp [hc, Fin.last]
    case neg =>
      have hi' : i < n := by omega
      have hn : ¬n < i + 1 := by omega
      have hn' : ¬n < i := by omega
      simpa [hn, hn'] using ih (fun b c => step b c.castSucc) hi'

theorem foldWhere_induction {P : Nat → β → Prop} {step : β → Fin n → β} {init : β} (h0 : P 0 init)
    (hs : ∀ (i : Fin n) b, P i b → P (i + 1) (step b i)) {count : Nat} (h : count ≤ n) :
    P count (foldWhere (fun c => c.val < count) step init) := by
  induction count
  case zero => rwa [foldWhere_lt_zero]
  case succ i ih =>
    rw [foldWhere_lt_succ _ _ h]
    exact hs ⟨i, h⟩ _ (ih (by omega))

theorem foldWhere_congr {p : Fin n → Bool} {step step' : β → Fin n → β}
    (h : ∀ b i, p i → step b i = step' b i) (init : β) :
    foldWhere p step init = foldWhere p step' init := by
  unfold foldWhere
  congr 1
  funext b i
  split
  case isTrue hi => exact h b i hi
  case isFalse => rfl

theorem foldl_induction {P : Nat → β → Prop} {step : β → Fin n → β} {init : β} (h0 : P 0 init)
    (hs : ∀ (i : Fin n) b, P i b → P (i + 1) (step b i)) : P n (Fin.foldl n step init) := by
  simpa [foldWhere] using foldWhere_induction h0 hs le_rfl

end Fold

section Layout

variable {β γ ι : Type}

theorem exists_mem_zipIdx {es : List β} {e : β} (he : e ∈ es) : ∃ pos, (e, pos) ∈ es.zipIdx := by
  obtain ⟨pos, hp, he⟩ := List.getElem_of_mem he
  exact ⟨pos, List.mk_mem_zipIdx_iff_getElem?.mpr (List.getElem?_eq_some_iff.mpr ⟨hp, he⟩)⟩

theorem endToEnd_map (g : β → γ) {b : β} {c : γ} (hb : g b = c) (extent : ι → Nat) {u : ι → Nat → β}
    {v : ι → Nat → γ} {ps : List ι} (h : ∀ p ∈ ps, ∀ j, g (u p j) = v p j) (i : Nat) :
    g (endToEnd b (ps.map fun p => (extent p, u p)) i) =
      endToEnd c (ps.map fun p => (extent p, v p)) i := by
  induction ps generalizing i
  case nil => exact hb
  case cons p ps ih =>
    simp only [List.map_cons, endToEnd]
    split
    case isTrue => exact h p (by simp) i
    case isFalse => exact ih (fun q hq => h q (by simp [hq])) _

theorem map_endToEnd (b : β) (extent : ι → Nat) (u : ι → Nat → β) (ps : List ι) :
    (List.range (ps.map extent).sum).map (endToEnd b (ps.map fun p => (extent p, u p))) =
      ps.flatMap fun p => (List.range (extent p)).map (u p) := by
  induction ps
  case nil => rfl
  case cons p ps ih =>
    simp only [List.map_cons, List.sum_cons, List.range_add, List.map_append, List.map_map,
      List.flatMap_cons, ← ih]
    congr 1
    case e_a =>
      apply List.map_congr_left
      intro i hi
      simp [endToEnd, List.mem_range.mp hi]
    case e_a =>
      apply List.map_congr_left
      intro i _
      simp [endToEnd]

-- A function is the layout of its own pieces.
theorem endToEnd_pieces (extent : ι → Nat) (g : ι → Nat → β) (u : Nat → β) (ps : List ι)
    (hg : ∀ pos (h : pos < ps.length), ∀ j < extent ps[pos], g ps[pos] j =
      u (((ps.take pos).map extent).sum + j))
    {i : Nat} (hi : i ≤ (ps.map extent).sum) :
    endToEnd (u (ps.map extent).sum) (ps.map fun p => (extent p, g p)) i = u i := by
  induction ps generalizing u i
  case nil =>
    simp only [List.map_nil, List.sum_nil, Nat.le_zero] at hi
    simp [endToEnd, hi]
  case cons p ps ih =>
    simp only [List.map_cons, List.sum_cons, endToEnd] at hi ⊢
    split
    case isTrue hp =>
      have h := hg 0 (by simp) i hp
      simpa using h
    case isFalse hp =>
      have h := ih (fun j => u (extent p + j)) (i := i - extent p) ?_ (by omega)
      case refine_1 =>
        intro pos h j hj
        have h := hg (pos + 1) (by simpa using h) j hj
        simpa [Nat.add_assoc] using h
      rw [h, Nat.add_sub_cancel' (by omega)]

theorem endToEnd_append_left (b c : β) (ps qs : List (Nat × (Nat → β))) {i : Nat}
    (hi : i < (ps.map (·.1)).sum) : endToEnd b (ps ++ qs) i = endToEnd c ps i := by
  induction ps generalizing i
  case nil => contradiction
  case cons p ps ih =>
    simp only [List.cons_append, endToEnd]
    split
    case isTrue => rfl
    case isFalse hp =>
      rw [List.map_cons, List.sum_cons] at hi
      exact ih (by omega)

theorem endToEnd_append_right (b : β) (ps qs : List (Nat × (Nat → β))) (i : Nat) :
    endToEnd b (ps ++ qs) ((ps.map (·.1)).sum + i) = endToEnd b qs i := by
  induction ps
  case nil => simp
  case cons p ps ih =>
    have hp : ¬ p.1 + (ps.map (·.1)).sum + i < p.1 := by omega
    have he : p.1 + (ps.map (·.1)).sum + i - p.1 = (ps.map (·.1)).sum + i := by omega
    simp [endToEnd, hp, he, ih]

theorem sum_endToEnd (a b : ℝ) (extent : ι → Nat) (u v : ι → Nat → ℝ) (ps : List ι) :
    ∑ j ∈ Finset.range (ps.map extent).sum,
      endToEnd a (ps.map fun p => (extent p, u p)) j *
        endToEnd b (ps.map fun p => (extent p, v p)) j =
      (ps.map fun p => ∑ j ∈ Finset.range (extent p), u p j * v p j).sum := by
  induction ps
  case nil => simp
  case cons p ps ih =>
    simp only [List.map_cons, List.sum_cons]
    rw [Finset.sum_range_add, ← ih]
    congr 1
    case e_a =>
      apply Finset.sum_congr rfl
      intro j hj
      simp [endToEnd, Finset.mem_range.mp hj]
    case e_a => simp [endToEnd]

-- Every index belongs to a part, in whatever is laid out over the same parts.
theorem exists_endToEnd (extent : ι → Nat) {ps : List ι} {i : Nat} (hi : i < (ps.map extent).sum) :
    ∃ p ∈ ps, ∃ j < extent p, ∀ {β : Type} (b : β) (u : ι → Nat → β),
      endToEnd b (ps.map fun p => (extent p, u p)) i = u p j := by
  induction ps generalizing i
  case nil => contradiction
  case cons p ps ih =>
    by_cases hp : i < extent p
    case pos => exact ⟨p, .head _, i, hp, fun b u => if_pos hp⟩
    case neg =>
      rw [List.map_cons, List.sum_cons] at hi
      have ⟨q, hq, j, hj, h⟩ := ih (i := i - extent p) (by omega)
      exact ⟨q, .tail _ hq, j, hj, fun b u => (if_neg hp).trans (h b u)⟩

theorem endToEnd_sum (b : β) (extent : ι → Nat) (u : ι → Nat → β) (ps : List ι) :
    endToEnd b (ps.map fun p => (extent p, u p)) (ps.map extent).sum = b := by
  simpa [Function.comp_def] using endToEnd_past b (ps.map fun p => (extent p, u p)) 0

end Layout

namespace Vec

variable {β ι : Type}

theorem concat_cons (v : Array β) (vs : List (Array β)) : concat (v :: vs) = v ++ concat vs := by
  have h (w : Array β) : vs.foldl (· ++ ·) w = w ++ vs.foldl (· ++ ·) #[] := by
    induction vs generalizing w
    case nil => simp
    case cons u us ih =>
      rw [List.foldl_cons, List.foldl_cons, ih, ih (#[] ++ u)]
      simp
  simpa [concat] using h v

theorem size_concat (vs : List (Array β)) : (concat vs).size = (vs.map (·.size)).sum := by
  induction vs
  case nil => rfl
  case cons v vs ih => simp [concat_cons, ih]

theorem mem_concat {vs : List (Array β)} {b : β} : b ∈ concat vs ↔ ∃ v ∈ vs, b ∈ v := by
  induction vs
  case nil => simp [concat]
  case cons v vs ih => simp [concat_cons, ih]

theorem getD_concat (d : β) (extent : ι → Nat) (v : ι → Array β) {ps : List ι}
    (h : ∀ p ∈ ps, (v p).size = extent p) (i : Nat) :
    (concat (ps.map v)).getD i d =
      endToEnd d (ps.map fun p => (extent p, fun j => (v p).getD j d)) i := by
  induction ps generalizing i
  case nil => simp [concat, endToEnd]
  case cons p ps ih =>
    have hp := h p (by simp)
    have hps := ih (fun q hq => h q (by simp [hq])) (i - extent p)
    simp only [List.map_cons, concat_cons, endToEnd, ← hps]
    split
    case isTrue hi => simp [Array.getElem?_append_left (hp ▸ hi)]
    case isFalse hi => simp [Array.getElem?_append_right (hp ▸ Nat.le_of_not_lt hi), hp]

end Vec

namespace Mat

theorem entry_body {α : Type} [Arith α] (a : Mat α) (i : Fin a.rows) (j : Fin a.cols) :
    a.entry i j = a.body i j := by
  simp [entry]

section Entries

variable {α : Type} [Arith α] {a b : Mat α}

theorem ext_entry (hr : a.rows = b.rows) (hc : a.cols = b.cols)
    (h : ∀ i < a.rows, ∀ j < a.cols, a.entry i j = b.entry i j) : a = b := by
  have ⟨rows, cols, body⟩ := a
  have ⟨_, _, body'⟩ := b
  cases hr
  cases hc
  congr 1
  apply Dense.ext_get
  intro i j
  have he := h i i.isLt j j.isLt
  simpa [entry] using he

theorem block_eq_ok {r : Region} (hr : r.row + r.rows ≤ a.rows) (hc : r.col + r.cols ≤ a.cols)
    (hb : b.shape = ⟨r.rows, r.cols⟩)
    (h : ∀ i < r.rows, ∀ j < r.cols, a.entry (r.row + i) (r.col + j) = b.entry i j) :
    a.block r = .ok b := by
  have ⟨hbr, hbc⟩ := Shape.mk.inj hb
  unfold block
  rw [dif_pos ⟨hr, hc⟩]
  congr 1
  refine ext_entry hbr.symm hbc.symm fun i (hi : i < r.rows) j (hj : j < r.cols) => ?_
  rw [entry_ofFn _ hi hj, ← h i hi j hj]
  exact (a.entry_body ⟨r.row + i, _⟩ ⟨r.col + j, _⟩).symm

end Entries

theorem sum_entry (a : Mat ℝ) (i : Fin a.rows) (z : Nat → ℝ) :
    ∑ j, a.body i j * z j = ∑ j ∈ Finset.range a.cols, a.entry i j * z j := by
  rw [Finset.sum_range]
  simp only [entry_body]

theorem entry_gram (a : Mat ℝ) {i j : Nat} (hi : i < a.cols) (hj : j < a.cols) :
    a.gram.entry i j = ∑ l ∈ Finset.range a.rows, a.entry l i * a.entry l j := by
  have he : a.gram.entry i j = LinearGaussian.mul a.body.transpose a.body ⟨i, hi⟩ ⟨j, hj⟩ :=
    a.gram.entry_body ⟨i, hi⟩ ⟨j, hj⟩
  rw [he, LinearGaussian.mul, Dense.get_ofFn, foldWhere_add, zero_add, Finset.sum_filter,
    Finset.sum_range]
  apply Finset.sum_congr rfl
  intro l _
  rw [a.entry_body l ⟨i, hi⟩, a.entry_body l ⟨j, hj⟩, Dense.get_transpose]
  split
  case isTrue => rfl
  case isFalse h => simp_all

end Mat

namespace Window

theorem entry_eq_base {α : Type} [Arith α] (w : Window α) (i : Fin w.rows) (j : Fin w.cols) :
    w.entry i j = w.base.entry (w.row + i) (w.col + j) := by
  have := w.row_le
  have := w.col_le
  exact (w.base.entry_body ⟨w.row + i, by omega⟩ ⟨w.col + j, by omega⟩).symm

theorem entry_toMat {α : Type} [Arith α] (w : Window α) {i j : Nat} (hi : i < w.rows)
    (hj : j < w.cols) :
    w.toMat.entry i j = w.base.entry (w.row + i) (w.col + j) := by
  rw [toMat, Mat.entry_ofFn _ hi hj, entry_eq_base]

theorem exists_addMulVec {α : Type} [Arith α] (w : Window α) (alpha : α) {x y : Array α}
    (hx : x.size = w.cols) (hy : y.size = w.rows) :
    ∃ z, w.addMulVec alpha x y = .ok z ∧ z.size = w.rows := by
  simp only [addMulVec, Vec.sized, hx, hy, dif_pos, Outcome.ok_bind, Outcome.pure_eq_ok]
  exact ⟨_, rfl, by simp⟩

theorem exists_addTrMulVec {α : Type} [Arith α] (w : Window α) (alpha : α) {x y : Array α}
    (hx : x.size = w.rows) (hy : y.size = w.cols) :
    ∃ z, w.addTrMulVec alpha x y = .ok z ∧ z.size = w.cols := by
  simp only [addTrMulVec, Vec.sized, hx, hy, dif_pos, Outcome.ok_bind, Outcome.pure_eq_ok]
  exact ⟨_, rfl, by simp⟩

theorem addMulVec_eq (w : Window ℝ) (alpha : ℝ) {x y : Array ℝ} (hx : x.size = w.cols)
    (hy : y.size = w.rows) :
    ∃ z, w.addMulVec alpha x y = .ok z ∧ z.size = w.rows ∧ ∀ i < w.rows, z.getD i 0 =
      y.getD i 0 + alpha * ∑ j ∈ Finset.range w.cols, w.base.entry (w.row + i)
        (w.col + j) * x.getD j 0 := by
  simp only [addMulVec, Vec.sized, hx, hy, dif_pos, Outcome.ok_bind, Outcome.pure_eq_ok]
  refine ⟨_, rfl, by simp, ?_⟩
  intro i hi
  simp [LinearGaussian.addMulVec, foldl_add, entry_eq_base, Finset.sum_range, Finset.mul_sum, hi,
    hx, hy, mul_left_comm]

theorem addTrMulVec_eq (w : Window ℝ) (alpha : ℝ) {x y : Array ℝ} (hx : x.size = w.rows)
    (hy : y.size = w.cols) :
    ∃ z, w.addTrMulVec alpha x y = .ok z ∧ z.size = w.cols ∧ ∀ j < w.cols, z.getD j 0 =
      y.getD j 0 + alpha * ∑ i ∈ Finset.range w.rows, w.base.entry (w.row + i)
        (w.col + j) * x.getD i 0 := by
  simp only [addTrMulVec, Vec.sized, hx, hy, dif_pos, Outcome.ok_bind, Outcome.pure_eq_ok]
  refine ⟨_, rfl, by simp, ?_⟩
  intro j hj
  simp [LinearGaussian.addTrMulVec, entry_eq_base, Finset.sum_range, hj, hx, hy]

end Window

namespace BlockMatrix

variable {β : Type}

theorem offsetAt_mono (b : BlockMatrix β) {i j : Nat} (h : i ≤ j) :
    b.offsetAt i ≤ b.offsetAt j := by
  have hs := congrArg List.sum (List.take_append_drop i (b.widths.take j))
  rw [List.take_take, Nat.min_eq_left h, List.sum_append] at hs
  exact Nat.le_of_add_right_le hs.le

theorem eq_of_full {a b : BlockMatrix β} (hf : a.full = b.full) (hw : a.widths = b.widths) :
    a = b := by
  cases a
  cases b
  cases hf
  cases hw
  rfl

theorem blocks_eq (b : BlockMatrix β) {last : Nat} (h : last ≤ b.count) :
    ∃ w, b.blocks 0 last = .ok w ∧ w.base = b.full ∧ w.row = 0 ∧ w.col = 0 ∧ w.rows = b.rows ∧
      w.cols = b.offsetAt last := by
  have hb : (0 ≤ b.count ∧ last ≤ b.count) ∧ b.offsetAt 0 ≤ b.offsetAt last :=
    ⟨⟨Nat.zero_le _, h⟩, Nat.zero_le _⟩
  simp only [blocks, dif_pos hb]
  exact ⟨_, rfl, rfl, rfl, rfl, rfl, rfl⟩

theorem block_eq (b : BlockMatrix β) {i : Nat} (h : i < b.widths.length) :
    ∃ w, b.block i = .ok w ∧ w.base = b.full ∧ w.row = 0 ∧ w.col = b.offsetAt i ∧ w.rows = b.rows ∧
      w.cols = b.widths[i] := by
  have hs := b.offsetAt_succ h
  have hb : (i ≤ b.count ∧ i + 1 ≤ b.count) ∧ b.offsetAt i ≤ b.offsetAt (i + 1) := by
    unfold count
    omega
  simp only [block, blocks, dif_pos hb]
  exact ⟨_, rfl, rfl, rfl, rfl, rfl, Nat.sub_eq_of_eq_add' hs⟩

theorem entry_ofFn [Arith β] {rows : Nat} {widths : List Nat} (f : Fin rows → Fin widths.sum → β)
    {i j : Nat} (hi : i < rows) (hj : j < widths.sum) :
    (ofFn rows widths f).full.entry i j = f ⟨i, hi⟩ ⟨j, hj⟩ :=
  Mat.entry_ofFn f hi hj

end BlockMatrix
end LinearGaussian
