import LinearGaussian.Proofs.Elimination
import LinearGaussian.Proofs.Stack

namespace LinearGaussian

open Outcome

namespace Key

def repeated? (keys : List Key) : Option Key :=
  (keys.zipIdx.find? fun o => o.1 ∈ keys.take o.2).map (·.1)

theorem firstRepeatAfter?_eq {seen keys : List Key} (before : List Key)
    (hs : ∀ k, k ∈ seen ↔ k ∈ before) :
    firstRepeatAfter? seen keys =
      ((keys.zipIdx before.length).find? fun o => o.1 ∈ (before ++ keys).take o.2).map (·.1) := by
  induction keys generalizing seen before
  case nil => rfl
  case cons k ks ih =>
    have ht : (before ++ k :: ks).take before.length = before := List.take_left
    rw [firstRepeatAfter?, List.zipIdx_cons, List.find?_cons, ht]
    by_cases hk : k ∈ seen
    case pos => simp [hk, (hs k).mp hk]
    case neg =>
      have hs' : ∀ l, l ∈ k :: seen ↔ l ∈ before ++ [k] := by simp [hs, or_comm]
      simp [hk, mt (hs k).mpr hk, ih _ hs']

theorem firstRepeat?_eq (keys : List Key) : firstRepeat? keys = repeated? keys :=
  firstRepeatAfter?_eq [] fun _ => Iff.rfl

end Key

theorem Outcome.requireDistinct_settles (keys : List Key) :
    (requireDistinct keys).Settles ((Key.repeated? keys).map .duplicateKey) := by
  rw [requireDistinct, Key.firstRepeat?_eq]
  cases Key.repeated? keys
  case none => exact settles_ok ()
  case some k => exact settles_fail _

namespace Widths

def mismatch? (occurrences : List (Key × Nat)) (o : Key × Nat) : Option Error :=
  (KeyMap.lookup o.1 occurrences).bind fun d => if d = o.2 then
    none else some (.dimensionMismatch o.1 d o.2)

variable {ws ws' : Widths} {before occurrences : List (Key × Nat)} {o : Key × Nat}

-- Whether an occurrence fits is known when it is reached.
theorem mismatch?_append_cons (os : List (Key × Nat)) :
    mismatch? (before ++ o :: os) o = mismatch? before o := by
  unfold mismatch?
  rw [KeyMap.lookup_append]
  cases KeyMap.lookup o.1 before <;> simp [KeyMap.lookup]

-- What has been recorded is the first occurrence of every variable.
theorem add_settles (hw : ∀ k, KeyMap.lookup k ws = KeyMap.lookup k before) :
    (ws.add o.1 o.2).Settles (mismatch? before o) := by
  rw [mismatch?, ← hw, add]
  cases KeyMap.lookup o.1 ws
  case none => exact settles_ok _
  case some d =>
    by_cases hd : d = o.2
    case pos => simpa [hd] using settles_ok ws
    case neg => simpa [hd] using settles_fail _

theorem lookup_add (h : ws.add o.1 o.2 = .ok ws') (k : Key) :
    KeyMap.lookup k ws' = (KeyMap.lookup k ws).or (KeyMap.lookup k [o]) := by
  unfold add at h
  split at h
  case h_1 d hd =>
    split at h
    case isTrue he =>
      cases h
      by_cases hk : o.1 = k
      case pos => simp [← hk, hd]
      case neg => simp [KeyMap.lookup, hk]
    case isFalse => exact absurd h (fail_ne_ok _ _)
  case h_2 =>
    cases h
    exact KeyMap.lookup_append ..

theorem foldlM_add_settles (before : List (Key × Nat))
    (hw : ∀ k, KeyMap.lookup k ws = KeyMap.lookup k before) :
    Settles (occurrences.foldlM (fun (ws : Widths) o => ws.add o.1 o.2) ws)
      (occurrences.findSome? (mismatch? (before ++ occurrences))) := by
  induction occurrences generalizing ws before
  case nil => exact settles_ok ws
  case cons o os ih =>
    have hb : (o :: os).findSome? (mismatch? (before ++ o :: os)) =
        (mismatch? before o).or (os.findSome? (mismatch? ((before ++ [o]) ++ os))) := by
      rw [List.append_assoc, List.singleton_append, ← mismatch?_append_cons os]
      exact findSome?_cons_or _ o os
    rw [hb, List.foldlM_cons]
    refine (add_settles hw).bind fun us hu => ih (before ++ [o]) fun k => ?_
    rw [lookup_add hu, hw, KeyMap.lookup_append]

theorem ofOccurrences_settles (occurrences : List (Key × Nat)) :
    (ofOccurrences occurrences).Settles (occurrences.findSome? (mismatch? occurrences)) :=
  foldlM_add_settles [] fun _ => rfl

end Widths

theorem Window.isZero_iff {α : Type} [Arith α] [BEq α] {w : Window α} :
    w.isZero ↔ ∀ i < w.rows, ∀ j < w.cols, w.toMat.entry i j == 0 := by
  simp only [isZero, List.all_eq_true, List.mem_finRange, forall_const]
  constructor
  case mp =>
    intro h i hi j hj
    rw [toMat, Mat.entry_ofFn _ hi hj]
    exact h ⟨j, hj⟩ ⟨i, hi⟩
  case mpr =>
    intro h j i
    have he := h i i.isLt j j.isLt
    rwa [toMat, Mat.entry_ofFn _ i.isLt j.isLt] at he

namespace LinearFactor

variable {α : Type} [Arith α] [RealLike α] {factors : List (LinearFactor α)} {order : List Key}
  {f g : LinearFactor α} {k : Key} {w : Key × Nat}

section Silent

def silentOn (f : LinearFactor α) (k : Key) : Bool :=
  (f.blockFor? k).toOption.join.all (·.isZero)

theorem silentOn_of_blockFor {b : Window α} (h : f.blockFor? k = .ok (some b)) :
    f.silentOn k = b.isZero := by
  rw [silentOn, h]
  rfl

theorem silentOn_of_not_mem (hk : k ∉ f.keys) : f.silentOn k = true := by
  have hp : f.position? k = none := List.idxOf?_eq_none_iff.mpr hk
  simp [silentOn, blockFor?, hp, Except.toOption]

theorem WellFormed.silentOn_iff (h : f.WellFormed) (hw : w ∈ f.dims) :
    f.silentOn w.1 ↔ ∀ i < f.rows, ∀ j < w.2, f.coefficient w.1 i j == 0 := by
  obtain ⟨b, hb, hrows, hcols, he⟩ := h.exists_blockFor hw
  rw [silentOn_of_blockFor hb, Window.isZero_iff, hrows, hcols]
  refine forall₂_congr fun i hi => forall₂_congr fun j hj => ?_
  rw [he i hi j hj]

theorem silentOn_combine [LawfulZero α] (hf : ∀ g ∈ factors, g.WellFormed)
    (h : combine factors order = .ok f) (hk : k ∈ f.keys) :
    f.silentOn k = factors.all (·.silentOn k) := by
  have hc := wellFormed_combine hf h
  rw [Bool.eq_iff_iff, List.all_eq_true]
  constructor
  case mp =>
    intro hz g hg
    by_cases hkg : k ∈ g.keys
    case pos =>
      obtain ⟨d, hw⟩ := (hf g hg).exists_dims hkg
      have hwf : (k, d) ∈ f.dims := (mem_dims_combine h).mpr ⟨g, hg, hw⟩
      obtain ⟨n, hn⟩ := List.mem_iff_getElem?.mp hg
      have hle := rows_combine h ▸ firstRow_add_le hn
      refine ((hf g hg).silentOn_iff hw).mpr fun r hr l hl => ?_
      -- Its own rows are found again in the stack, from its first row on.
      have he := (hc.silentOn_iff hwf).mp hz (firstRow factors n + r) (by omega) l hl
      rwa [coefficient_combine hf h (by omega) hwf hl,
        endToEnd_firstRow 0 (fun g r => g.coefficient k r l) hn hr] at he
    case neg => exact silentOn_of_not_mem hkg
  case mpr =>
    intro hz
    obtain ⟨d, hw⟩ := hc.exists_dims hk
    refine (hc.silentOn_iff hw).mpr fun i hi l hl => ?_
    obtain ⟨g, hg, r, hr, he⟩ := exists_endToEnd rows (rows_combine h ▸ hi)
    rw [coefficient_combine hf h hi hw hl, he]
    by_cases hkg : k ∈ g.keys
    case pos =>
      obtain ⟨d', hw'⟩ := (hf g hg).exists_dims hkg
      cases KeyMap.eq_of_mem hc.nodup_dims hw ((mem_dims_combine h).mpr ⟨g, hg, hw'⟩)
      exact ((hf g hg).silentOn_iff hw').mp (hz g hg) r hr l hl
    case neg => simp [coefficient_of_not_mem hkg, LawfulZero.beq]

end Silent

section Combine

theorem mem_keys_ofOccurrences (hf : ∀ g ∈ factors, g.WellFormed) {ws : Widths}
    (hw : Widths.ofOccurrences (factors.flatMap dims) = .ok ws) :
    k ∈ ws.keys ↔ ∃ g ∈ factors, k ∈ g.keys := by
  rw [Widths.keys_ofOccurrences hw, List.mem_eraseDups, List.map_flatMap, List.mem_flatMap]
  exact exists_congr fun g => and_congr_right fun hg => by rw [(hf g hg).keys_dims]

theorem combine_settles [UnitDeviations α] (hf : ∀ g ∈ factors, g.WellFormed) (order : List Key) :
    (combine factors order).Settles
      ((((Key.repeated? order).map .duplicateKey).or
        ((factors.flatMap dims).findSome? (Widths.mismatch? (factors.flatMap dims)))).or
        ((order.find? fun k => factors.all (k ∉ ·.keys)).map .unknownVariable)) := by
  rw [Option.or_assoc]
  refine (requireDistinct_settles order).bind fun _ _ => (Widths.ofOccurrences_settles _).bind
    fun ws hws => ?_
  have hp : (fun k => factors.all (k ∉ ·.keys)) = fun k => !ws.keys.contains k := by
    funext k
    rw [Bool.eq_iff_iff]
    simp [mem_keys_ofOccurrences hf hws]
  rw [hp]
  cases order.find? fun k => !ws.keys.contains k
  case some k => exact settles_fail _
  case none =>
    simp only [diagonal_sigmas hf, Outcome.ok_bind, Outcome.map_ok, Outcome.pure_eq_ok]
    split <;> exact settles_ok _

end Combine

end LinearFactor

section Eliminate

open LinearFactor

variable {α : Type} [Arith α] [RealLike α] {factors : List (LinearFactor α)}
  {frontals rest : List Key} {f : LinearFactor α}

theorem requireInformative_settles (hf : f.WellFormed) (hk : f.keys = frontals ++ rest) :
    (requireInformative f frontals).Settles
      ((frontals.find? f.silentOn).map .zeroFrontalBlock) := by
  rw [List.find?_eq_findSome?_guard, List.map_findSome?, ← List.zipIdx_map_fst 0 frontals,
    List.findSome?_map, List.zipIdx_map_fst]
  refine Settles.forM fun o ho => ?_
  obtain ⟨hpos, hget⟩ := List.mem_zipIdx' ho
  have hlt : o.2 < f.keys.length := by rw [hk, List.length_append]; omega
  have hkey : f.keys[o.2] = o.1 := by simp [hk, hpos, hget]
  obtain ⟨b, hb, _⟩ := f.ab.block_eq (hlt.trans (hf.length_widths ▸ Nat.lt_succ_self _))
  have hfor : f.blockFor? o.1 = .ok (some b) := by
    simp [← hkey, blockFor?, hf.position?_getElem hlt, hb]
  simp only [Function.comp_apply, Option.guard, silentOn_of_blockFor hfor, blockAt, if_pos hlt, hb,
    ok_bind]
  cases b.isZero
  case false => exact settles_ok ()
  case true => exact settles_fail _

-- All that can be wrong with a request to eliminate the frontal variables, what is reported first
-- coming first.
def objections (factors : List (LinearFactor α)) (frontals : List Key)
    (settings : EliminationSettings α) : List (Option Error) :=
  [if frontals = [] then some .noFrontals else none,
    (Key.repeated? frontals).map .duplicateKey,
    (factors.flatMap dims).findSome? (Widths.mismatch? (factors.flatMap dims)),
    (frontals.find? fun k => factors.all (k ∉ ·.keys)).map .unknownVariable,
    if settings.allowFree then
      none else (frontals.find? fun k => factors.all (·.silentOn k)).map .zeroFrontalBlock]

theorem split_settles [UnitDeviations α] (hf : f.WellFormed) (count : Nat)
    (settings : EliminationSettings α) :
    Settles (do
      let rows ← f.reduce settings
      let conditional ← Elimination.conditionalOf f count rows
      let remaining ← Elimination.remainingOf f count rows
      return (⟨conditional, remaining⟩ : Elimination α)) none := by
  rw [reduce_eq hf, ok_bind, Elimination.conditionalOf_eq unit_reducedRows, ok_bind,
    Elimination.remainingOf_eq unit_reducedRows]
  exact settles_ok _

-- A request is refused for the first objection to it, and every other request is answered.
theorem eliminate_settles [UnitDeviations α] [LawfulZero α] (hf : ∀ g ∈ factors, g.WellFormed)
    (frontals : List Key) (settings : EliminationSettings α) :
    (eliminate factors frontals settings).Settles
      ((objections factors frontals settings).findSome? id) := by
  simp only [objections, findSome?_cons_or, List.findSome?_nil, Option.or_none, id]
  cases frontals
  case nil => exact settles_fail _
  case cons k ks =>
    simp only [eliminate, List.isEmpty_cons, Bool.false_eq_true, if_false, reduceCtorEq,
      Option.none_or]
    rw [← Option.or_assoc, ← Option.or_assoc]
    refine (combine_settles hf _).bind fun f hc => ?_
    obtain ⟨rest, hk⟩ := keys_combine hc
    have hw := wellFormed_combine hf hc
    have hs : (k :: ks).find? (fun k => factors.all (·.silentOn k)) =
        (k :: ks).find? f.silentOn := by
      refine List.find?_congr fun l hl => (silentOn_combine hf hc ?_).symm
      exact hk ▸ List.mem_append_left rest hl
    cases settings.allowFree
    case true => exact split_settles hw _ settings
    case false =>
      rw [hs, ← Option.or_none (o := Option.map _ _)]
      exact (requireInformative_settles hw hk).bind fun _ _ => split_settles hw _ settings

def disagreeing : List (LinearFactor Float) :=
  scalarRow [4] [1] 0 1 :: mingled

theorem wellFormed_disagreeing : ∀ g ∈ disagreeing, g.WellFormed :=
  List.forall_mem_cons.mpr ⟨wellFormed_scalarRow_of_admissible (by decide) UnitDeviations.one,
    wellFormed_mingled⟩

theorem eliminate_settles_mingled :
    eliminate disagreeing [7, 7] ⟨0, 0, false⟩ = fail (.duplicateKey 7) ∧
      eliminate disagreeing [7] ⟨0, 0, false⟩ = fail (.dimensionMismatch 4 1 2) ∧
      eliminate mingled [4, 7] ⟨0, 0, false⟩ = fail (.unknownVariable 7) ∧
      eliminate mingled [2, 4] ⟨0, 0, false⟩ = fail (.zeroFrontalBlock 4) ∧
      ∃ r, eliminate mingled [2, 4] ⟨0, 0, true⟩ = .ok r := by
  have hd (frontals : List Key) := eliminate_settles wellFormed_disagreeing frontals ⟨0, 0, false⟩
  have hm (frontals : List Key) (free : Bool) :=
    eliminate_settles wellFormed_mingled frontals ⟨0, 0, free⟩
  exact ⟨hd [7, 7], hd [7], hm [4, 7] false, hm [2, 4] false, hm [2, 4] true⟩

end Eliminate

end LinearGaussian
