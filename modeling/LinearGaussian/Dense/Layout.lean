namespace LinearGaussian

-- Extents are added up from this zero, whatever other ones are in scope.
scoped instance (priority := high) natZero : Zero Nat := Zero.ofOfNat0

variable {β : Type}

-- The value at an index of parts that are laid end to end, each given by its extent and its values.
-- Past the last part it is `rest`.
def endToEnd (rest : β) : List (Nat × (Nat → β)) → Nat → β
  | [], _ => rest
  | (extent, f) :: parts, i => if i < extent then f i else endToEnd rest parts (i - extent)

theorem endToEnd_append (rest : β) (before after : List (Nat × (Nat → β))) (extent : Nat)
    (f : Nat → β) {i : Nat} (h : i < extent) :
    endToEnd rest (before ++ (extent, f) :: after) ((before.map (·.1)).sum + i) = f i := by
  induction before with
  | nil => simp [endToEnd, h]
  | cons p ps ih =>
    have hp : ¬ p.1 + (ps.map (·.1)).sum + i < p.1 := by omega
    have he : p.1 + (ps.map (·.1)).sum + i - p.1 = (ps.map (·.1)).sum + i := by omega
    simp [endToEnd, hp, he, ih]

theorem endToEnd_past (rest : β) (parts : List (Nat × (Nat → β))) (i : Nat) :
    endToEnd rest parts ((parts.map (·.1)).sum + i) = rest := by
  induction parts with
  | nil => simp [endToEnd]
  | cons p ps ih =>
    have hp : ¬ p.1 + (ps.map (·.1)).sum + i < p.1 := by omega
    have he : p.1 + (ps.map (·.1)).sum + i - p.1 = (ps.map (·.1)).sum + i := by omega
    simp [endToEnd, hp, he, ih]

end LinearGaussian
