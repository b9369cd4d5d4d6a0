/-!
# Steps that may fail

Two steps that may fail, one after the other, succeed exactly if both do. A step whose error is told
as another fails exactly if it does.
-/

namespace Except

variable {ε ε' α β : Type} {x : Except ε α} {f : α → Except ε β}

/-- A step that succeeds hands its value to the next. -/
theorem exists_bind_eq_ok (hx : ∃ a, x = .ok a) (hf : ∀ a, ∃ b, f a = .ok b) :
    ∃ b, x >>= f = .ok b := by
  obtain ⟨a, rfl⟩ := hx
  exact hf a

/-- A sequence of two steps that succeeds. -/
theorem bind_eq_ok_iff {b : β} : x >>= f = .ok b ↔ ∃ a, x = .ok a ∧ f a = .ok b := by
  cases x with
  | error e => exact ⟨nofun, fun ⟨_, h, _⟩ => nomatch h⟩
  | ok a => exact ⟨fun h => ⟨a, rfl, h⟩, fun ⟨_, h, hf⟩ => Except.ok.inj h ▸ hf⟩

/-- A step that fails, with its error told as another. -/
theorem mapError_eq_error_iff {g : ε → ε'} {err : ε'} :
    x.mapError g = .error err ↔ ∃ e, x = .error e ∧ g e = err := by
  cases x with
  | error e => exact ⟨fun h => ⟨e, rfl, Except.error.inj h⟩, fun ⟨_, h, hg⟩ => by
      rw [← hg, Except.error.inj h]
      rfl⟩
  | ok a =>
    constructor
    · rintro ⟨⟩
    · rintro ⟨_, ⟨⟩, -⟩

end Except
