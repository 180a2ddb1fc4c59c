import LinearGaussian.Fault

namespace LinearGaussian.Outcome

variable {β γ : Type}

@[simp]
theorem ok_bind (b : β) (f : β → Outcome γ) : ((Except.ok b : Outcome β) >>= f) = f b :=
  rfl

@[simp]
theorem pure_eq_ok (b : β) : (pure b : Outcome β) = .ok b :=
  rfl

@[simp]
theorem map_ok (f : β → γ) (b : β) : f <$> (Except.ok b : Outcome β) = .ok (f b) :=
  rfl

@[simp]
theorem fail_bind (e : Error) (f : β → Outcome γ) : (fail e >>= f) = fail e :=
  rfl

@[simp]
theorem fail_ne_ok (e : Error) (b : β) : fail e ≠ .ok b :=
  nofun

@[simp]
theorem violated_ne_ok (v : Violation) (b : β) : violated v ≠ .ok b :=
  nofun

theorem bind_eq_ok {r : Outcome β} {f : β → Outcome γ} {c : γ} :
    (r >>= f) = .ok c ↔ ∃ b, r = .ok b ∧ f b = .ok c := by
  cases r
  case error => simp [bind, Except.bind]
  case ok => simp

theorem map_eq_ok {r : Outcome β} {f : β → γ} {c : γ} :
    f <$> r = .ok c ↔ ∃ b, r = .ok b ∧ f b = c := by
  cases r
  case error => simp [Functor.map, Except.map]
  case ok => simp

theorem bind_eq_error {r : Outcome β} {f : β → Outcome γ} {e : Fault} :
    (r >>= f) = .error e ↔ r = .error e ∨ ∃ b, r = .ok b ∧ f b = .error e := by
  cases r
  case error => simp [bind, Except.bind]
  case ok => simp

theorem map_eq_error {r : Outcome β} {f : β → γ} {e : Fault} :
    f <$> r = .error e ↔ r = .error e := by
  cases r <;> simp [Functor.map, Except.map]

theorem exists_foldlM {P : γ → Prop} {f : γ → β → Outcome γ} {bs : List β}
    (h : ∀ b ∈ bs, ∀ c, P c → ∃ c', f c b = .ok c' ∧ P c') {c : γ} (hc : P c) :
    ∃ c', bs.foldlM f c = .ok c' ∧ P c' := by
  induction bs generalizing c
  case nil => exact ⟨c, rfl, hc⟩
  case cons b bs ih =>
    have ⟨hb, hbs⟩ := List.forall_mem_cons.mp h
    have ⟨d, hd, hpd⟩ := hb c hc
    rw [List.foldlM_cons, hd, ok_bind]
    exact ih hbs hpd

theorem foldlM_hom {δ : Type} {h : γ → δ} {f : γ → β → Outcome γ} {g : δ → β → Outcome δ}
    {bs : List β} (hs : ∀ c b, g (h c) b = h <$> f c b) (c : γ) :
    bs.foldlM g (h c) = h <$> bs.foldlM f c := by
  induction bs generalizing c
  case nil => rfl
  case cons b bs ih => simp only [List.foldlM_cons, hs, map_bind, bind_map_left, ih]

theorem mapM_eq_ok {f : β → Outcome γ} {g : β → γ} {bs : List β} (h : ∀ b ∈ bs, f b = .ok (g b)) :
    bs.mapM f = .ok (bs.map g) := by
  induction bs
  case nil => rfl
  case cons b bs ih =>
    have ⟨hb, hbs⟩ := List.forall_mem_cons.mp h
    simp [List.mapM_cons, hb, ih hbs]

theorem requireDistinct_eq_ok {keys : List Key} {u : Unit} :
    requireDistinct keys = .ok u ↔ keys.Nodup := by
  rw [← Key.firstRepeat?_eq_none_iff]
  cases h : Key.firstRepeat? keys <;> simp [requireDistinct, h]

theorem requireDistinct_eq_error {keys : List Key} {e : Fault}
    (h : requireDistinct keys = .error e) :
    ∃ k, e = .error (.duplicateKey k) := by
  unfold requireDistinct at h
  split at h
  case h_1 k _ =>
    cases h
    exact ⟨k, rfl⟩
  case h_2 => contradiction

section Yields

-- No precondition was broken, and what was returned, if anything, has the property.
def Yields (r : Outcome β) (P : β → Prop) : Prop :=
  (∀ v, r ≠ violated v) ∧ ∀ b, r = .ok b → P b

variable {P : β → Prop} {Q : γ → Prop} {r : Outcome β}

theorem yields_ok {b : β} (h : P b) : Yields (.ok b) P :=
  ⟨nofun, fun _ he => Except.ok.inj he ▸ h⟩

theorem yields_fail (e : Error) : Yields (fail e) P :=
  ⟨nofun, nofun⟩

theorem Yields.bind {f : β → Outcome γ} (h : r.Yields P) (hf : ∀ b, P b → (f b).Yields Q) :
    (r >>= f).Yields Q := by
  cases r
  case error e =>
    refine ⟨fun v he => h.left v ?_, nofun⟩
    cases he
    rfl
  case ok b => exact hf b (h.right b rfl)

theorem Yields.foldlM {f : γ → β → Outcome γ} {bs : List β}
    (h : ∀ b ∈ bs, ∀ c, Q c → (f c b).Yields Q) {c : γ} (hc : Q c) : (bs.foldlM f c).Yields Q := by
  induction bs generalizing c
  case nil => exact yields_ok hc
  case cons b bs ih =>
    rw [List.foldlM_cons]
    exact (h b (by simp) c hc).bind fun d hd => ih (fun b hb => h b (by simp [hb])) hd

theorem Yields.mapM {δ : Type} {f : β → Outcome γ} {m : γ → δ} {n : β → δ} {bs : List β}
    (h : ∀ b ∈ bs, (f b).Yields fun c => m c = n b) :
    (bs.mapM f).Yields fun cs => cs.map m = bs.map n := by
  induction bs
  case nil => exact yields_ok rfl
  case cons b bs ih =>
    rw [List.mapM_cons]
    refine (h b (by simp)).bind fun c hc => (ih fun b hb => h b (by simp [hb])).bind
      fun cs hcs => ?_
    exact yields_ok (by rw [List.map_cons, List.map_cons, hc, hcs])

theorem requireDistinct_yields (keys : List Key) :
    (requireDistinct keys).Yields fun _ => keys.Nodup := by
  refine ⟨fun v h => ?_, fun _ => requireDistinct_eq_ok.mp⟩
  have ⟨_, he⟩ := requireDistinct_eq_error h
  cases he

end Yields

section Settles

-- The operation fails with the error, if there is one, and otherwise returns.
def Settles (r : Outcome β) (e? : Option Error) : Prop :=
  e?.elim (∃ b, r = .ok b) (r = fail ·)

variable {r : Outcome β} {e? e?' : Option Error}

theorem settles_ok (b : β) : Settles (.ok b) none :=
  ⟨b, rfl⟩

theorem settles_fail (e : Error) : Settles (fail e : Outcome β) (some e) :=
  rfl

-- What is wrong later only counts if nothing is wrong earlier.
theorem Settles.bind {f : β → Outcome γ} (h : r.Settles e?)
    (hf : ∀ b, r = .ok b → (f b).Settles e?') :
    (r >>= f).Settles (e?.or e?') := by
  cases e?
  case none =>
    obtain ⟨b, hb⟩ := h
    rw [hb]
    exact hf b hb
  case some e =>
    have hr : r = fail e := h
    rw [hr]
    exact settles_fail e

theorem Settles.map (f : β → γ) (h : r.Settles e?) : (f <$> r).Settles e? := by
  cases e?
  case none =>
    obtain ⟨b, hb⟩ := h
    exact ⟨f b, hb ▸ rfl⟩
  case some e =>
    have hr : r = fail e := h
    exact hr ▸ settles_fail e

theorem findSome?_cons_or (f : β → Option γ) (b : β) (bs : List β) :
    (b :: bs).findSome? f = (f b).or (bs.findSome? f) := by
  cases h : f b <;> simp [h]

theorem Settles.forM {f : β → Outcome Unit} {e? : β → Option Error} {bs : List β}
    (h : ∀ b ∈ bs, (f b).Settles (e? b)) :
    (bs.forM f).Settles (bs.findSome? e?) := by
  induction bs
  case nil => exact settles_ok ()
  case cons b bs ih =>
    obtain ⟨hb, hbs⟩ := List.forall_mem_cons.mp h
    rw [findSome?_cons_or]
    exact hb.bind fun _ _ => ih hbs

end Settles

end LinearGaussian.Outcome

namespace LinearGaussian.Edit

variable {σ β : Type}

theorem outcome_bind (e e' : Edit σ Unit) (s : σ) :
    (e >>= fun _ => e').outcome s = e.outcome s >>= e'.outcome := by
  simp only [outcome, bind, ExceptT.bind, ExceptT.mk, StateT.bind, ExceptT.bindCont]
  rcases e s with ⟨_ | _, s'⟩ <;> rfl

theorem outcome_lift_bind (r : Outcome β) (e : β → Edit σ Unit) (s : σ) :
    (lift r >>= e).outcome s = r >>= fun b => (e b).outcome s := by
  cases r <;> rfl

theorem outcome_get_bind (e : σ → Edit σ Unit) (s : σ) : (get >>= e).outcome s = (e s).outcome s :=
  rfl

theorem outcome_modify (change : σ → σ) (s : σ) : outcome (modify change) s = .ok (change s) :=
  rfl

theorem outcome_forM_cons (e : β → Edit σ Unit) (b : β) (bs : List β) (s : σ) :
    outcome ((b :: bs).forM e) s = (e b).outcome s >>= outcome (bs.forM e) :=
  outcome_bind (e b) (bs.forM e) s

theorem outcome_forM (e : β → Edit σ Unit) (bs : List β) (s : σ) :
    outcome (bs.forM e) s = bs.foldlM (fun s b => (e b).outcome s) s := by
  induction bs generalizing s
  case nil => rfl
  case cons b bs ih =>
    rw [outcome_forM_cons, List.foldlM_cons, funext ih]

theorem outcome_forM_reverse_cons (e : β → Edit σ Unit) (b : β) (bs : List β) (s : σ) :
    outcome ((b :: bs).reverse.forM e) s = outcome (bs.reverse.forM e) s >>= (e b).outcome := by
  simp only [outcome_forM, List.reverse_cons, List.foldlM_append, List.foldlM_cons, List.foldlM_nil,
    bind_pure]

end LinearGaussian.Edit
