import Mathlib
import LinearGaussian.Key.Map

namespace LinearGaussian

namespace KeyMap

variable {β : Type} {es : List (Key × β)} {k : Key} {v : β} {m : KeyMap β}

theorem mem_of_lookup (h : lookup k es = some v) : (k, v) ∈ es := by
  induction es
  case nil => contradiction
  case cons e es ih =>
    simp only [lookup] at h
    split at h
    case isTrue hk =>
      cases h
      simp [← hk]
    case isFalse => exact List.mem_cons_of_mem _ (ih h)

theorem lookup_eq_none_iff : lookup k es = none ↔ k ∉ es.map (·.1) := by
  induction es
  case nil => simp [lookup]
  case cons e es ih =>
    simp only [lookup, List.map_cons, List.mem_cons, not_or, ← ih]
    split
    case isTrue hk => simp [hk]
    case isFalse hk => simp [Ne.symm hk]

theorem eq_of_mem (hn : (es.map (·.1)).Nodup) {w : β} (hv : (k, v) ∈ es) (hw : (k, w) ∈ es) :
    v = w := by
  have h := List.inj_on_of_nodup_map hn hv hw rfl
  exact (Prod.mk.inj h).right

theorem lookup_eq_some_iff (hn : (es.map (·.1)).Nodup) : lookup k es = some v ↔ (k, v) ∈ es := by
  constructor
  case mp => exact mem_of_lookup
  case mpr =>
    intro hm
    cases h : lookup k es
    case none => exact absurd (List.mem_map_of_mem hm) (lookup_eq_none_iff.mp h)
    case some w => rw [eq_of_mem hn (mem_of_lookup h) hm]

theorem lookup_append (k : Key) (es fs : List (Key × β)) :
    lookup k (es ++ fs) = (lookup k es).or (lookup k fs) := by
  induction es
  case nil => rfl
  case cons e es ih =>
    simp only [List.cons_append, lookup]
    split
    case isTrue => rfl
    case isFalse => exact ih

theorem get?_eq_none_iff : m.get? k = none ↔ k ∉ m.keys :=
  lookup_eq_none_iff

theorem mem_keys_iff : k ∈ m.keys ↔ (m.get? k).isSome := by
  rw [Option.isSome_iff_ne_none, ne_eq, get?_eq_none_iff, not_not]

theorem mem_keys_insert {l : Key} : k ∈ (m.insert l v).keys ↔ k = l ∨ k ∈ m.keys := by
  rw [mem_keys_iff, mem_keys_iff, get?_insert]
  by_cases h : k = l <;> simp [h]

theorem mem_keys_foldl_insert :
    k ∈ (es.foldl (fun m e => m.insert e.1 e.2) m).keys ↔ k ∈ es.map (·.1) ∨ k ∈ m.keys := by
  induction es generalizing m
  case nil => simp
  case cons e es ih =>
    rw [List.foldl_cons, ih, mem_keys_insert, List.map_cons, List.mem_cons, or_left_comm, or_assoc]

theorem get?_foldl_insert_reverse :
    (es.foldl (fun m e => m.insert e.1 e.2) m).get? k = (lookup k es.reverse).or (m.get? k) := by
  induction es generalizing m
  case nil => rfl
  case cons e es ih =>
    rw [List.foldl_cons, ih, get?_insert, List.reverse_cons, lookup_append, Option.or_assoc]
    by_cases hk : k = e.1 <;> simp [lookup, hk, Ne.symm]

theorem get?_foldl_insert (hn : (es.map (·.1)).Nodup) :
    (es.foldl (fun m e => m.insert e.1 e.2) m).get? k = (lookup k es).or (m.get? k) := by
  induction es generalizing m
  case nil => rfl
  case cons e es ih =>
    have ⟨he, hes⟩ := List.nodup_cons.mp hn
    rw [List.foldl_cons, ih hes, get?_insert]
    by_cases hk : k = e.1
    case pos =>
      rw [hk, lookup_eq_none_iff.mpr he]
      simp [lookup]
    case neg => simp [lookup, hk, Ne.symm hk]

theorem ext_of_keys {n : KeyMap β} (hk : m.keys = n.keys) (h : ∀ k ∈ m.keys, m.get? k = n.get? k) :
    m = n := by
  apply ext_get?
  intro k
  by_cases hm : k ∈ m.keys
  case pos => exact h k hm
  case neg => rw [get?_eq_none_iff.mpr hm, get?_eq_none_iff.mpr (hk ▸ hm)]

theorem keys_eq_iff {γ : Type} {n : KeyMap γ} : m.keys = n.keys ↔ ∀ k, k ∈ m.keys ↔ k ∈ n.keys :=
  ⟨fun h _ => h ▸ Iff.rfl, fun h => m.keys_pairwise.eq_of_mem_iff n.keys_pairwise h⟩

end KeyMap

theorem Key.mem_ascending {k : Key} {ks : List Key} : k ∈ Key.ascending ks ↔ k ∈ ks := by
  rw [ascending, KeyMap.ofList, KeyMap.mem_keys_foldl_insert]
  have he : (∅ : KeyMap Unit).keys = [] := rfl
  simp [he]

end LinearGaussian
