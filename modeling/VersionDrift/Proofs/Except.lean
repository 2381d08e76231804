/-!
# Results of steps

A step that succeeds hands its result on to the next one, and one that fails is the last.
-/

set_option autoImplicit false

namespace VersionDrift

variable {ε δ α β : Type}

@[simp] theorem ok_bind (a : α) (f : α → Except ε β) : (Except.ok a >>= f) = f a := rfl

@[simp] theorem error_bind (e : ε) (f : α → Except ε β) :
    ((.error e : Except ε α) >>= f) = .error e := rfl

@[simp] theorem pure_eq_ok (a : α) : (pure a : Except ε α) = .ok a := rfl

@[simp] theorem map_ok (f : α → β) (a : α) : (.ok a : Except ε α).map f = .ok (f a) := rfl

@[simp] theorem map_error (f : α → β) (e : ε) : (.error e : Except ε α).map f = .error e := rfl

theorem bind_eq_ok {x : Except ε α} {f : α → Except ε β} {b : β} (h : (x >>= f) = .ok b) :
    ∃ a, x = .ok a ∧ f a = .ok b := by
  cases x with
  | error e => cases h
  | ok a => exact ⟨a, rfl, h⟩

theorem bind_eq_error {x : Except ε α} {f : α → Except ε β} {e : ε} (h : (x >>= f) = .error e) :
    x = .error e ∨ ∃ a, x = .ok a ∧ f a = .error e := by
  cases x with
  | error e' =>
    cases h
    exact .inl rfl
  | ok a => exact .inr ⟨a, rfl, h⟩

theorem map_eq_ok {f : α → β} {x : Except ε α} {b : β} (h : x.map f = .ok b) :
    ∃ a, x = .ok a ∧ f a = b := by
  cases x with
  | error e => cases h
  | ok a => exact ⟨a, rfl, Except.ok.inj h⟩

theorem map_eq_error {f : α → β} {x : Except ε α} {e : ε} (h : x.map f = .error e) :
    x = .error e := by
  cases x with
  | error e' =>
    cases h
    rfl
  | ok a => cases h

theorem mapError_eq_error {f : ε → δ} {x : Except ε α} {e : δ} (h : x.mapError f = .error e) :
    ∃ e', x = .error e' ∧ f e' = e := by
  cases x with
  | error e' => exact ⟨e', rfl, Except.error.inj h⟩
  | ok a => cases h

theorem mapError_eq_ok {f : ε → δ} {x : Except ε α} {a : α} (h : x.mapError f = .ok a) :
    x = .ok a := by
  cases x with
  | error e => cases h
  | ok b => rw [Except.ok.inj h]

theorem eq_ok_of_toOption {x : Except ε α} {a : α} (h : x.toOption = some a) : x = .ok a := by
  cases x with
  | error e => cases h
  | ok b => rw [Option.some.inj h]

theorem eq_error_of_toOption {x : Except ε α} (h : x.toOption = none) : ∃ e, x = .error e := by
  cases x with
  | error e => exact ⟨e, rfl⟩
  | ok a => cases h

theorem eq_error_of_match {x : Except ε α} {e : ε}
    (h : (match x with
      | .error e => some e
      | .ok _ => none) = some e) : x = .error e := by
  cases x with
  | error e' => rw [Option.some.inj h]
  | ok a => cases h

/-! Steps that also pass on a state. -/

section

variable {σ : Type} {f : StateT σ (Except ε) α} {g : α → StateT σ (Except ε) β} {s r : σ} {a : α}
  {b : β}

theorem run_bind_eq_ok (h : (f >>= g).run s = .ok (b, r)) :
    ∃ a q, f.run s = .ok (a, q) ∧ (g a).run q = .ok (b, r) := by
  obtain ⟨p, hf, hg⟩ := bind_eq_ok h
  exact ⟨p.1, p.2, hf, hg⟩

theorem run_bind_of_eq_ok (h : f.run s = .ok (a, r)) : (f >>= g).run s = (g a).run r := by
  rw [StateT.run_bind, h]
  rfl

theorem run_bind_of_eq_error {e : ε} (h : f.run s = .error e) : (f >>= g).run s = .error e := by
  rw [StateT.run_bind, h]
  rfl

end

end VersionDrift
