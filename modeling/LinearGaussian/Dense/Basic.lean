namespace LinearGaussian

-- A vector is read at an index that is bounded by its type, and no other bound is asked for.
scoped instance getElemFin {α : Type} {n : Nat} :
    GetElem (Vector α n) (Fin n) α fun _ _ => True where
  getElem v i _ := v.get i

@[simp]
theorem getElem_fin {α : Type} {n : Nat} (v : Vector α n) (i : Fin n) : v[i] = v[i.val] :=
  rfl

-- A matrix with `m` rows and `n` columns. Entry `(i, j)` stands at place `j * m + i`.
@[ext]
structure Dense (α : Type) (m n : Nat) where
  data : Vector α (n * m)

namespace Dense

variable {α β : Type} {m n : Nat}

theorem place_lt (i : Fin m) (j : Fin n) : j.val * m + i.val < n * m := by
  have h := Nat.mul_le_mul_right m (Nat.succ_le_of_lt j.isLt)
  rw [Nat.succ_mul] at h
  omega

def place (i : Fin m) (j : Fin n) : Fin (n * m) :=
  ⟨j.val * m + i.val, place_lt i j⟩

theorem rows_pos (k : Fin (n * m)) : 0 < m :=
  Nat.pos_of_ne_zero fun h => absurd k.isLt (by simp [h])

def rowOf (k : Fin (n * m)) : Fin m :=
  ⟨k.val % m, Nat.mod_lt _ (rows_pos k)⟩

def colOf (k : Fin (n * m)) : Fin n :=
  ⟨k.val / m, Nat.div_lt_of_lt_mul (Nat.mul_comm n m ▸ k.isLt)⟩

theorem rowOf_place (i : Fin m) (j : Fin n) : rowOf (place i j) = i := by
  simp [rowOf, place, Nat.mod_eq_of_lt i.isLt]

theorem colOf_place (i : Fin m) (j : Fin n) : colOf (place i j) = j := by
  have h : 0 < m := Nat.lt_of_le_of_lt (Nat.zero_le _) i.isLt
  simp [colOf, place, Nat.mul_comm j.val m, Nat.mul_add_div h, Nat.div_eq_of_lt i.isLt]

theorem place_rowOf_colOf (k : Fin (n * m)) : place (rowOf k) (colOf k) = k := by
  simp [rowOf, colOf, place, Nat.div_add_mod']

def get (a : Dense α m n) (i : Fin m) (j : Fin n) : α :=
  a.data[place i j]

instance : CoeFun (Dense α m n) (fun _ => Fin m → Fin n → α) := ⟨get⟩

def ofFn (f : Fin m → Fin n → α) : Dense α m n :=
  ⟨Vector.ofFn fun k => f (rowOf k) (colOf k)⟩

@[simp]
theorem get_ofFn (f : Fin m → Fin n → α) (i : Fin m) (j : Fin n) : (ofFn f).get i j = f i j := by
  simp [get, ofFn, rowOf_place, colOf_place]

theorem ext_get {a b : Dense α m n} (h : ∀ i j, a.get i j = b.get i j) : a = b := by
  apply Dense.ext
  apply Vector.ext
  intro k hk
  have he := h (rowOf ⟨k, hk⟩) (colOf ⟨k, hk⟩)
  simpa [get, place_rowOf_colOf] using he

def map (f : α → β) (a : Dense α m n) : Dense β m n :=
  ⟨a.data.map f⟩

def transpose (a : Dense α m n) : Dense α n m :=
  ofFn fun i j => a j i

@[simp]
theorem get_transpose (a : Dense α m n) (i : Fin n) (j : Fin m) :
    a.transpose.get i j = a.get j i := by
  simp [transpose]

@[simp]
theorem get_map (f : α → β) (a : Dense α m n) (i : Fin m) (j : Fin n) :
    (a.map f).get i j = f (a.get i j) := by
  simp [map, get]

end Dense
end LinearGaussian
