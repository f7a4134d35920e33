import Formula.Fault

namespace Formula

variable {ε ε' α β γ δ : Type}

theorem bind_eq_ok {x : Except ε α} {f : α → Except ε β} {b : β} :
    x >>= f = .ok b ↔ ∃ a, x = .ok a ∧ f a = .ok b := by
  cases x with
  | error fault => simp [bind, Except.bind]
  | ok a => simp [bind, Except.bind]

theorem map_eq_ok {x : Except ε α} {f : α → β} {b : β} :
    x.map f = .ok b ↔ ∃ a, x = .ok a ∧ f a = b := by
  cases x with
  | error fault => simp [Except.map]
  | ok a => simp [Except.map]

theorem mapError_eq_ok {x : Except ε α} {f : ε → β} {a : α} :
    x.mapError f = .ok a ↔ x = .ok a := by
  cases x with
  | error fault => constructor <;> intro h <;> cases h
  | ok a => constructor <;> intro h <;> cases h <;> rfl

theorem map_eq_error {x : Except ε α} {f : α → β} {e : ε} : x.map f = .error e ↔ x = .error e := by
  cases x with
  | error fault => simp [Except.map]
  | ok a => simp [Except.map]

theorem mapError_eq_error {x : Except ε α} {f : ε → β} {e : β} :
    x.mapError f = .error e ↔ ∃ a, x = .error a ∧ f a = e := by
  cases x with
  | error fault =>
    constructor
    · intro h
      exact ⟨fault, rfl, Except.error.inj h⟩
    · rintro ⟨_, ha, rfl⟩
      obtain rfl := Except.error.inj ha
      rfl
  | ok a =>
    constructor
    · intro h
      cases h
    · rintro ⟨_, ha, -⟩
      cases ha

theorem pure_eq_ok {a b : α} : (pure a : Except ε α) = .ok b ↔ a = b := by
  simp [pure, Except.pure]

def mapBoth (g : ε → ε') (f : α → β) : Except ε α → Except ε' β
  | .error fault => .error (g fault)
  | .ok a => .ok (f a)

theorem mapBoth_eq_ok {g : ε → ε'} {f : α → β} {x : Except ε α} {b : β} :
    mapBoth g f x = .ok b ↔ ∃ a, x = .ok a ∧ f a = b := by
  cases x with
  | error fault => simp [mapBoth]
  | ok a => simp [mapBoth]

theorem mapBoth_bind {g : ε → ε'} {f : α → β} {h : γ → δ} {x : Except ε α} {k : α → Except ε γ}
    {k' : β → Except ε' δ} (hk : ∀ a, k' (f a) = mapBoth g h (k a)) :
    mapBoth g f x >>= k' = mapBoth g h (x >>= k) := by
  cases x with
  | error fault => rfl
  | ok a => exact hk a

end Formula
