import Mathlib.Data.List.Forall2
import NestedQuery.Error

/-! # Outcomes

How an outcome of several steps comes about: a chain of steps succeeds exactly if every step does
(`bind_eq_ok`, `map_eq_ok`, `mapM_eq_ok`), and fails with the error of one of them (`bind_eq_error`,
`exists_of_mapM_eq_error`), a run with that of its first step that fails (`foldlM_eq_error_iff`). -/

namespace NestedQuery.Result
variable {ε α β : Type}

@[simp] theorem ok_bind (a : α) (f : α → Except ε β) : (Except.ok a >>= f) = f a := rfl

@[simp] theorem error_bind (e : ε) (f : α → Except ε β) :
    ((Except.error e : Except ε α) >>= f) = .error e := rfl

theorem bind_eq_ok {x : Except ε α} {f : α → Except ε β} {b : β} :
    (x >>= f) = .ok b ↔ ∃ a, x = .ok a ∧ f a = .ok b := by
  cases x <;> simp

theorem map_eq_ok {x : Except ε α} {f : α → β} {b : β} :
    f <$> x = .ok b ↔ ∃ a, x = .ok a ∧ f a = b := by
  cases x <;> simp

theorem exists_map_eq_ok {x : Except ε α} {f : α → β} :
    (∃ b, f <$> x = .ok b) ↔ ∃ a, x = .ok a := by
  cases x <;> simp

theorem mapM_eq_ok {f : α → Except ε β} {as : List α} {bs : List β} :
    as.mapM f = .ok bs ↔ List.Forall₂ (fun a b => f a = .ok b) as bs := by
  induction as generalizing bs with
  | nil => simp [pure, Except.pure, eq_comm]
  | cons a as ih =>
    simp only [List.mapM_cons, bind_eq_ok, ih, List.forall₂_cons_left_iff]
    constructor
    · rintro ⟨b, hb, bs', hbs, h⟩
      exact ⟨b, bs', hb, hbs, (Except.ok.inj h).symm⟩
    · rintro ⟨b, bs', hb, hbs, rfl⟩
      exact ⟨b, hb, bs', hbs, rfl⟩

theorem exists_of_forall₂ {R : α → β → Prop} {as : List α} {bs : List β}
    (h : List.Forall₂ R as bs) : ∀ b ∈ bs, ∃ a ∈ as, R a b := by
  induction h with
  | nil => simp
  | @cons a b as bs hab _ ih =>
    rintro c (_ | ⟨_, hc⟩)
    · exact ⟨a, by simp, hab⟩
    · obtain ⟨a', ha', hc⟩ := ih c hc
      exact ⟨a', by simp [ha'], hc⟩

theorem exists_forall₂ {R : α → β → Prop} {as : List α} (h : ∀ a ∈ as, ∃ b, R a b) :
    ∃ bs, List.Forall₂ R as bs := by
  induction as with
  | nil => exact ⟨[], .nil⟩
  | cons a as ih =>
    obtain ⟨⟨b, hb⟩, h⟩ := List.forall_mem_cons.1 h
    obtain ⟨bs, hbs⟩ := ih h
    exact ⟨b :: bs, .cons hb hbs⟩

/-- Whatever a list of outcomes holds comes from one of them. -/
theorem exists_of_mapM_eq_ok {f : α → Except ε β} {as : List α} {bs : List β}
    (h : as.mapM f = .ok bs) : ∀ b ∈ bs, ∃ a ∈ as, f a = .ok b :=
  exists_of_forall₂ (mapM_eq_ok.1 h)

theorem exists_mapM_eq_ok_iff {f : α → Except ε β} {as : List α} :
    (∃ bs, as.mapM f = .ok bs) ↔ ∀ a ∈ as, ∃ b, f a = .ok b := by
  simp only [mapM_eq_ok]
  constructor
  · rintro ⟨bs, h⟩ a ha
    obtain ⟨b, -, hb⟩ := exists_of_forall₂ h.flip a ha
    exact ⟨b, hb⟩
  · exact exists_forall₂

section MapError
variable {ε' : Type} {k : ε → ε'}

@[simp] theorem mapError_ok (a : α) : (Except.ok a : Except ε α).mapError k = .ok a := rfl

/-- The first error is the same whatever is kept of it. -/
theorem mapError_bind (x : Except ε α) (f : α → Except ε β) :
    (x >>= f).mapError k = x.mapError k >>= fun a => (f a).mapError k := by
  cases x <;> rfl

theorem mapError_map (f : α → β) (x : Except ε α) :
    (f <$> x).mapError k = f <$> x.mapError k := by
  cases x <;> rfl

theorem mapError_mapM (f : α → Except ε β) (as : List α) :
    (as.mapM f).mapError k = as.mapM fun a => (f a).mapError k := by
  induction as with
  | nil => rfl
  | cons a as ih =>
    simp only [List.mapM_cons, mapError_bind, ih]
    rfl

theorem mapError_foldlM (f : β → α → Except ε β) (as : List α) (start : β) :
    (as.foldlM f start).mapError k = as.foldlM (fun b a => (f b a).mapError k) start := by
  induction as generalizing start with
  | nil => rfl
  | cons a as ih => simp only [List.foldlM_cons, mapError_bind, ih]

end MapError

theorem mapError_eq_ok {ε' : Type} {x : Except ε α} {f : ε → ε'} {a : α} :
    x.mapError f = .ok a ↔ x = .ok a := by
  cases x <;> simp [Except.mapError]

/-! ### Success alone

Outcomes with the same `toOption` succeed with the same, or fail both. -/

theorem toOption_eq_iff {x y : Except ε α} :
    x.toOption = y.toOption ↔ ∀ a, x = .ok a ↔ y = .ok a := by
  cases x <;> cases y <;> simp [Except.toOption, eq_comm]

theorem toOption_bind (x : Except ε α) (f : α → Except ε β) :
    (x >>= f).toOption = x.toOption.bind fun a => (f a).toOption := by
  cases x <;> rfl

theorem toOption_map_congr (f : α → β) {x y : Except ε α} (h : x.toOption = y.toOption) :
    (f <$> x).toOption = (f <$> y).toOption := by
  have hmap : ∀ z : Except ε α, (f <$> z).toOption = z.toOption.map f := fun z => by
    cases z <;> rfl
  rw [hmap, hmap, h]

/-! ### Errors -/

theorem bind_eq_error {x : Except ε α} {f : α → Except ε β} {e : ε} :
    (x >>= f) = .error e ↔ x = .error e ∨ ∃ a, x = .ok a ∧ f a = .error e := by
  cases x <;> simp

theorem map_eq_error {x : Except ε α} {f : α → β} {e : ε} :
    f <$> x = .error e ↔ x = .error e := by
  cases x <;> simp

theorem mapError_eq_error {ε' : Type} {x : Except ε α} {f : ε → ε'} {e' : ε'} :
    x.mapError f = .error e' ↔ ∃ e, x = .error e ∧ e' = f e := by
  cases x <;> simp [Except.mapError, eq_comm]

theorem exists_of_mapM_eq_error {f : α → Except ε β} {as : List α} {e : ε}
    (h : as.mapM f = .error e) : ∃ a ∈ as, f a = .error e := by
  induction as with
  | nil => cases h
  | cons a as ih =>
    rw [List.mapM_cons, bind_eq_error] at h
    rcases h with h | ⟨b, -, h⟩
    · exact ⟨a, by simp, h⟩
    · rcases bind_eq_error.1 h with h | ⟨bs, -, h⟩
      · obtain ⟨a', ha', h⟩ := ih h
        exact ⟨a', by simp [ha'], h⟩
      · cases h

/-- A run fails at the first step that does, with the error of that step. -/
theorem foldlM_eq_error_iff {f : β → α → Except ε β} {as : List α} {start : β} {e : ε} :
    as.foldlM f start = .error e ↔
      ∃ front a back mid, as = front ++ a :: back ∧ front.foldlM f start = .ok mid ∧
        f mid a = .error e := by
  constructor
  · intro h
    induction as generalizing start with
    | nil => cases h
    | cons a as ih =>
      rw [List.foldlM_cons, bind_eq_error] at h
      rcases h with h | ⟨next, hnext, h⟩
      · exact ⟨[], a, as, start, rfl, rfl, h⟩
      · obtain ⟨front, b, back, mid, rfl, hfront, hb⟩ := ih h
        refine ⟨a :: front, b, back, mid, rfl, ?_, hb⟩
        rw [List.foldlM_cons, hnext]
        exact hfront
  · rintro ⟨front, a, back, mid, rfl, hfront, ha⟩
    rw [List.foldlM_append, hfront, ok_bind, List.foldlM_cons, ha, error_bind]

theorem exists_of_foldlM_eq_error {f : β → α → Except ε β} {as : List α} {start : β} {e : ε}
    (h : as.foldlM f start = .error e) : ∃ a ∈ as, ∃ b, f b a = .error e := by
  obtain ⟨front, a, back, mid, rfl, -, ha⟩ := foldlM_eq_error_iff.1 h
  exact ⟨a, by simp, mid, ha⟩

end NestedQuery.Result
