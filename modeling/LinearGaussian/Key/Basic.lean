namespace LinearGaussian

-- The name of a variable. Its value only fixes the order in which variables are listed.
abbrev Key := Nat

namespace Key

def firstRepeatAfter? : List Key → List Key → Option Key
  | _, [] => none
  | seen, k :: ks => if k ∈ seen then some k else firstRepeatAfter? (k :: seen) ks

def firstRepeat? (keys : List Key) : Option Key :=
  firstRepeatAfter? [] keys

theorem firstRepeatAfter?_eq_none_iff {seen keys : List Key} :
    firstRepeatAfter? seen keys = none ↔ keys.Nodup ∧ ∀ k ∈ keys, k ∉ seen := by
  induction keys generalizing seen with
  | nil => simp [firstRepeatAfter?]
  | cons k ks ih =>
    by_cases h : k ∈ seen
    case pos => simp [firstRepeatAfter?, h]
    case neg =>
      simp only [firstRepeatAfter?, h, if_false, ih, List.mem_cons, List.nodup_cons, not_or,
        forall_eq_or_imp]
      constructor
      case mp =>
        intro ⟨hn, hs⟩
        exact ⟨⟨fun hk => (hs k hk).left rfl, hn⟩, not_false, fun a ha => (hs a ha).right⟩
      case mpr =>
        intro ⟨⟨hk, hn⟩, _, hs⟩
        exact ⟨hn, fun a ha => ⟨fun e => hk $ e ▸ ha, hs a ha⟩⟩

theorem firstRepeat?_eq_none_iff {keys : List Key} : firstRepeat? keys = none ↔ keys.Nodup := by
  simp [firstRepeat?, firstRepeatAfter?_eq_none_iff]

end Key
end LinearGaussian
