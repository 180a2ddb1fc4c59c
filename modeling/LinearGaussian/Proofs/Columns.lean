import LinearGaussian.Proofs.JointMatrix

namespace LinearGaussian

theorem map_zipIdx_filter {β γ : Type} {f : Nat → γ} {g : β → γ} {bs : List β} (p : β → Bool)
    {n : Nat} (h : ∀ e ∈ bs.zipIdx n, f e.2 = g e.1) :
    ((bs.zipIdx n).filter (p ·.1)).map (f ·.2) = (bs.filter p).map g := by
  have hm : (bs.zipIdx n).map (·.1) = bs := List.zipIdx_map_fst n bs
  conv_rhs => rw [← hm, List.filter_map, List.map_map]
  apply List.map_congr_left
  intro e he
  exact h e (List.mem_of_mem_filter he)

namespace Widths

variable {ws us vs : Widths} {v w : Key × Nat} {l : Nat} {s t : Key → Bool}

section Pick

def pick (ws : Widths) (s : Key → Bool) : Widths :=
  ws.filter (s ·.1)

theorem mem_pick : w ∈ ws.pick s ↔ w ∈ ws ∧ s w.1 :=
  List.mem_filter

theorem pick_sublist (ws : Widths) (s : Key → Bool) : (ws.pick s).Sublist ws :=
  List.filter_sublist

theorem nodup_pick (hn : ws.keys.Nodup) (s : Key → Bool) : (ws.pick s).keys.Nodup :=
  hn.sublist ((pick_sublist ws s).map _)

theorem pick_append (ws us : Widths) (s : Key → Bool) :
    pick (ws ++ us) s = ws.pick s ++ us.pick s :=
  List.filter_append _ _

theorem pick_pick (h : ∀ k, t k → s k) (ws : Widths) : (ws.pick s).pick t = ws.pick t := by
  rw [pick, pick, List.filter_filter]
  apply List.filter_congr
  intro w _
  exact Bool.and_eq_left_iff_imp.mpr (h w.1)

theorem pick_comm (ws : Widths) (s t : Key → Bool) : (ws.pick s).pick t = (ws.pick t).pick s := by
  simp only [pick, List.filter_filter, Bool.and_comm]

theorem pick_not_perm (h : ∀ k, t k → s k) (ws : Widths) :
    (ws.pick (!t ·)).Perm (ws.pick (!s ·) ++ (ws.pick s).pick (!t ·)) := by
  -- What is left out in the end is left out at once or afterwards.
  have hp := List.filter_append_perm (fun w : Key × Nat => !s w.1) (ws.pick (!t ·))
  have hn : (ws.pick (!t ·)).pick (!s ·) = ws.pick (!s ·) :=
    pick_pick (fun k hk => by simpa using mt (h k) (by simpa using hk)) ws
  simp only [Bool.not_not] at hp
  rw [← hn, pick_comm ws s]
  exact hp.symm

end Pick

section Start

theorem start_append_of_mem (hw : w ∈ ws) (us : Widths) : start (ws ++ us) w.1 = start ws w.1 := by
  induction ws
  case nil => contradiction
  case cons u ws ih =>
    by_cases hu : u.1 = w.1
    case pos => simp [start, hu]
    case neg =>
      have hw : w ∈ ws := (List.mem_cons.mp hw).resolve_left fun he => hu (he ▸ rfl)
      simp [start, hu, ih hw]

theorem start_getElem (hn : ws.keys.Nodup) {pos : Nat} (hp : pos < ws.length) :
    start ws ws[pos].1 = ((ws.take pos).map (·.2)).sum := by
  induction ws generalizing pos
  case nil => contradiction
  case cons u ws ih =>
    cases pos
    case zero => exact start_cons_self u ws
    case succ pos =>
      have hp : pos < ws.length := Nat.lt_of_succ_lt_succ hp
      rw [List.getElem_cons_succ, start_cons_of_mem hn (List.getElem_mem hp),
        ih (List.nodup_cons.mp hn).right hp]
      simp

end Start

section Places

-- The columns of the variables `vs` among those of `ws`, one variable after the other.
def places (ws vs : Widths) : List Nat :=
  vs.flatMap fun v => List.range' (start ws v.1) v.2

theorem places_cons (ws : Widths) (v : Key × Nat) (vs : Widths) :
    places ws (v :: vs) = List.range' (start ws v.1) v.2 ++ places ws vs :=
  List.flatMap_cons

theorem length_places (ws vs : Widths) : (places ws vs).length = (vs.map (·.2)).sum := by
  simp [places, List.length_flatMap]

theorem places_sublist (h : us.Sublist vs) : (places ws us).Sublist (places ws vs) := by
  induction h
  case slnil => exact .slnil
  case cons v _ ih => exact ih.trans (List.sublist_append_right _ _)
  case cons_cons v _ ih => exact ih.append_left _

theorem getElem?_places (ws : Widths) (hn : vs.keys.Nodup) (hv : v ∈ vs) (hl : l < v.2) :
    (places ws vs)[start vs v.1 + l]? = some (start ws v.1 + l) := by
  induction vs
  case nil => contradiction
  case cons u vs ih =>
    rw [places_cons]
    cases hv
    case head =>
      rw [start_cons_self, Nat.zero_add, List.getElem?_append_left (by simpa using hl)]
      simp [hl]
    case tail hv =>
      rw [start_cons_of_mem hn hv, Nat.add_assoc, List.getElem?_append_right (by simp),
        List.length_range', Nat.add_sub_cancel_left]
      exact ih (List.nodup_cons.mp hn).right hv

theorem places_append_left (hn : (keys (ws ++ us)).Nodup) :
    places (ws ++ us) ws = List.range (ws.map (·.2)).sum := by
  induction ws
  case nil => rfl
  case cons w ws ih =>
    have ht : places (w :: ws ++ us) ws = (places (ws ++ us) ws).map (w.2 + ·) := by
      rw [places, places, List.map_flatMap]
      apply List.flatMap_congr
      intro v hv
      rw [List.map_add_range']
      congr 1
      exact start_cons_of_mem hn (List.mem_append_left us hv)
    rw [places_cons, ht, ih (List.nodup_cons.mp hn).right, List.cons_append, start_cons_self,
      List.map_cons, List.sum_cons, List.range_add, ← List.range_eq_range']

end Places
end Widths

namespace LinearFactor.WellFormed

variable {α : Type} [Arith α] [RealLike α] {f : LinearFactor α}

theorem nodup_dims (h : f.WellFormed) : (Widths.keys f.dims).Nodup := by
  rw [Widths.keys, h.keys_dims]
  exact h.nodup

theorem offsetAt_of_mem_zipIdx (h : f.WellFormed) {e : (Key × Nat) × Nat} (he : e ∈ f.dims.zipIdx) :
    f.ab.offsetAt e.2 = Widths.start f.dims e.1.1 := by
  have ⟨hp, hd⟩ := List.mem_zipIdx' he
  rw [hd, Widths.start_getElem h.nodup_dims, h.offsetAt_eq (h.length_dims ▸ hp.le)]

theorem coefficient_of_mem (h : f.WellFormed) {w : Key × Nat} (hw : w ∈ f.dims) (i j : Nat) :
    f.coefficient w.1 i j = f.ab.full.entry i (Widths.start f.dims w.1 + j) := by
  have ⟨pos, hm⟩ := exists_mem_zipIdx hw
  rw [h.coefficient_of_mem_zipIdx hm, h.offsetAt_of_mem_zipIdx hm]

end LinearFactor.WellFormed
end LinearGaussian
