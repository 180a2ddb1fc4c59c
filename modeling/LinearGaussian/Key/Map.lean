import LinearGaussian.Key.Basic

namespace LinearGaussian

structure KeyMap (β : Type) where
  entries : List (Key × β)
  sorted : entries.Pairwise (fun a b => a.1 < b.1)

namespace KeyMap

variable {β γ : Type}

-- Puts `v` at `k` into a list sorted by key, in place of what stood there.
def insertSorted (k : Key) (v : β) : List (Key × β) → List (Key × β)
  | [] => [(k, v)]
  | e :: es =>
    if k < e.1 then (k, v) :: e :: es
    else if k = e.1 then (k, v) :: es
    else e :: insertSorted k v es

theorem mem_insertSorted {k : Key} {v : β} {a : Key × β} {es : List (Key × β)}
    (h : a ∈ insertSorted k v es) : a = (k, v) ∨ a ∈ es := by
  induction es with
  | nil => simpa [insertSorted] using h
  | cons e es ih => grind [insertSorted]

theorem sorted_insertSorted (k : Key) (v : β) {es : List (Key × β)}
    (h : es.Pairwise (fun a b => a.1 < b.1)) :
    (insertSorted k v es).Pairwise (fun a b => a.1 < b.1) := by
  induction es with
  | nil => simp [insertSorted]
  | cons e es ih =>
    have ⟨he, hes⟩ := List.pairwise_cons.mp h
    simp only [insertSorted]
    split
    case isTrue hk =>
      refine List.pairwise_cons.mpr ⟨fun a ha => ?_, h⟩
      cases List.mem_cons.mp ha
      case inl ha => exact ha ▸ hk
      case inr ha => exact Nat.lt_trans hk $ he a ha
    case isFalse hk =>
      split
      case isTrue hk => exact List.pairwise_cons.mpr ⟨fun a ha => hk ▸ he a ha, hes⟩
      case isFalse hk' =>
        refine List.pairwise_cons.mpr ⟨fun a ha => ?_, ih hes⟩
        cases mem_insertSorted ha
        case inl ha => exact ha ▸ Nat.lt_of_le_of_ne (Nat.le_of_not_lt hk) (Ne.symm hk')
        case inr ha => exact he a ha

def empty : KeyMap β :=
  ⟨[], .nil⟩

instance : EmptyCollection (KeyMap β) := ⟨empty⟩

def insert (m : KeyMap β) (k : Key) (v : β) : KeyMap β :=
  ⟨insertSorted k v m.entries, sorted_insertSorted k v m.sorted⟩

-- The map of the pairs. A later pair replaces an earlier one with its key.
def ofList (es : List (Key × β)) : KeyMap β :=
  es.foldl (fun m e => m.insert e.1 e.2) ∅

def lookup (k : Key) : List (Key × β) → Option β
  | [] => none
  | e :: es => if e.1 = k then some e.2 else lookup k es

def get? (m : KeyMap β) (k : Key) : Option β :=
  lookup k m.entries

def contains (m : KeyMap β) (k : Key) : Bool :=
  (m.get? k).isSome

def keys (m : KeyMap β) : List Key :=
  m.entries.map (·.1)

def size (m : KeyMap β) : Nat :=
  m.entries.length

def isEmpty (m : KeyMap β) : Bool :=
  m.entries.isEmpty

def erase (m : KeyMap β) (k : Key) : KeyMap β :=
  ⟨m.entries.filter (·.1 ≠ k), m.sorted.sublist List.filter_sublist⟩

def map (f : β → γ) (m : KeyMap β) : KeyMap γ :=
  ⟨m.entries.map fun e => (e.1, f e.2), List.pairwise_map.mpr m.sorted⟩

instance [BEq β] : BEq (KeyMap β) where
  beq m n := m.entries == n.entries

theorem keys_pairwise (m : KeyMap β) : m.keys.Pairwise (· < ·) :=
  List.pairwise_map.mpr m.sorted

theorem keys_nodup (m : KeyMap β) : m.keys.Nodup :=
  m.keys_pairwise.imp Nat.ne_of_lt

theorem lookup_insertSorted (k i : Key) (v : β) (es : List (Key × β)) :
    lookup i (insertSorted k v es) = if i = k then some v else lookup i es := by
  induction es with
  | nil => grind [insertSorted, lookup]
  | cons e es ih => grind [insertSorted, lookup]

@[simp]
theorem get?_insert (m : KeyMap β) (k i : Key) (v : β) :
    (m.insert k v).get? i = if i = k then some v else m.get? i :=
  lookup_insertSorted k i v m.entries

@[simp]
theorem get?_empty (k : Key) : (∅ : KeyMap β).get? k = none :=
  rfl

theorem lookup_filter_ne (k i : Key) (es : List (Key × β)) :
    lookup i (es.filter (·.1 ≠ k)) = if i = k then none else lookup i es := by
  induction es with
  | nil => simp [lookup]
  | cons e es ih => grind [lookup]

@[simp]
theorem get?_erase (m : KeyMap β) (k i : Key) :
    (m.erase k).get? i = if i = k then none else m.get? i :=
  lookup_filter_ne k i m.entries

theorem lookup_map (f : β → γ) (k : Key) (es : List (Key × β)) :
    lookup k (es.map fun e => (e.1, f e.2)) = (lookup k es).map f := by
  induction es with
  | nil => rfl
  | cons e es ih => grind [lookup]

@[simp]
theorem get?_map (f : β → γ) (m : KeyMap β) (k : Key) : (m.map f).get? k = (m.get? k).map f :=
  lookup_map f k m.entries

theorem lookup_eq_none {k : Key} {es : List (Key × β)} (h : ∀ e ∈ es, k < e.1) :
    lookup k es = none := by
  induction es with
  | nil => rfl
  | cons e es ih => grind [lookup]

theorem eq_of_lookup_eq {es fs : List (Key × β)} (he : es.Pairwise (fun a b => a.1 < b.1))
    (hf : fs.Pairwise (fun a b => a.1 < b.1)) (h : ∀ k, lookup k es = lookup k fs) : es = fs := by
  induction es generalizing fs with
  | nil =>
    cases fs
    case nil => rfl
    case cons f fs => simpa [lookup] using h f.1
  | cons e es ih =>
    cases fs
    case nil => simpa [lookup] using h e.1
    case cons f fs =>
      have ⟨he₁, he₂⟩ := List.pairwise_cons.mp he
      have ⟨hf₁, hf₂⟩ := List.pairwise_cons.mp hf
      have hk : e.1 = f.1 := by
        have h₁ := h e.1
        have h₂ := h f.1
        have n₁ := @lookup_eq_none _ e.1 fs
        have n₂ := @lookup_eq_none _ f.1 es
        simp only [lookup, if_true] at h₁ h₂
        grind
      have hv : e.2 = f.2 := by simpa [lookup, hk] using h e.1
      have ht : es = fs := ih he₂ hf₂ fun k => by
        have hk' := h k
        have n₁ := @lookup_eq_none _ e.1 es he₁
        have n₂ := @lookup_eq_none _ f.1 fs hf₁
        grind [lookup]
      rw [Prod.ext hk hv, ht]

theorem ext_get? {m n : KeyMap β} (h : ∀ k, m.get? k = n.get? k) : m = n := by
  have he := eq_of_lookup_eq m.sorted n.sorted h
  cases m
  cases n
  cases he
  rfl

end KeyMap

def Key.ascending (keys : List Key) : List Key :=
  (KeyMap.ofList (keys.map fun k => (k, ()))).keys

end LinearGaussian
