import Mathlib

/-!
# Results of computations that can fail

Everything that checks, reads or lowers is written with `do` in a monad that can fail.  The lemmas here
take such a computation apart: it gives a result exactly when each of its parts does.

* `bind_eq_ok_iff`, `bind_eq_error_iff` — for `Except`.
* `Meets` — the value of a computation has a property, or its failure has one.
* `run_bind_eq_ok_iff` and the lemmas beside it — for `EStateM`, with the state each part leaves.
-/

namespace ScalarLang

variable {ε σ α β : Type}

/-! ### Without state -/

theorem bind_eq_ok_iff {x : Except ε α} {f : α → Except ε β} {b : β} :
    x >>= f = .ok b ↔ ∃ a, x = .ok a ∧ f a = .ok b := by
  cases x with
  | error e => simp [bind, Except.bind]
  | ok a => simp [bind, Except.bind]

theorem bind_unit_eq_ok_iff {x : Except ε Unit} {f : Unit → Except ε β} {b : β} :
    x >>= f = .ok b ↔ x = .ok () ∧ f () = .ok b := by
  rw [bind_eq_ok_iff]
  exact ⟨fun ⟨_, h⟩ => h, fun h => ⟨(), h⟩⟩

theorem bind_eq_error_iff {x : Except ε α} {f : α → Except ε β} {e : ε} :
    x >>= f = .error e ↔ x = .error e ∨ ∃ a, x = .ok a ∧ f a = .error e := by
  cases x with
  | error e => simp [bind, Except.bind]
  | ok a => simp [bind, Except.bind]

theorem pure_eq_ok_iff {a b : α} : (pure a : Except ε α) = .ok b ↔ a = b := by
  simp [pure, Except.pure]

/-- The value of a computation meets `Q`, or its failure meets `E`. -/
def Meets (Q : α → Prop) (E : ε → Prop) : Except ε α → Prop
  | .ok a => Q a
  | .error e => E e

theorem Meets.bind {P : α → Prop} {Q : β → Prop} {E : ε → Prop} {x : Except ε α}
    {f : α → Except ε β} (h : Meets P E x) (hf : ∀ a, P a → Meets Q E (f a)) :
    Meets Q E (x >>= f) := by
  cases x with
  | error e => exact h
  | ok a => exact hf a h

/-- What is known of the failures can be exchanged. -/
theorem Meets.exchange {P : α → Prop} {E E' : ε → Prop} {x : Except ε α} (h : Meets P E x)
    (he : ∀ e, x = .error e → E' e) : Meets P E' x := by
  cases x with
  | error e => exact he e rfl
  | ok a => exact h

/-- What holds of the values of all parts holds of the values together. -/
theorem Meets.mapM {γ δ : Type} {R : γ → δ → Prop} {Q : δ → α → Prop} {E : ε → Prop}
    {f : γ → Except ε α} {l : List γ} {l' : List δ} (h : List.Forall₂ R l l')
    (hf : ∀ c d, R c d → Meets (Q d) E (f c)) : Meets (List.Forall₂ Q l') E (l.mapM f) := by
  induction h with
  | nil => exact List.Forall₂.nil
  | cons h _ ih =>
    rw [List.mapM_cons]
    refine (hf _ _ h).bind fun a ha => ?_
    refine ih.bind fun as has => ?_
    exact List.Forall₂.cons ha has

/-! ### With state -/

theorem run_bind_eq_ok_iff {x : EStateM ε σ α} {f : α → EStateM ε σ β} {s s' : σ} {b : β} :
    (x >>= f) s = .ok b s' ↔ ∃ a s₁, x s = .ok a s₁ ∧ f a s₁ = .ok b s' := by
  show EStateM.bind x f s = .ok b s' ↔ _
  unfold EStateM.bind
  cases x s with
  | error e s₁ => simp
  | ok a s₁ =>
    constructor
    · intro h
      exact ⟨a, s₁, rfl, h⟩
    · rintro ⟨a', s₁', h, h'⟩
      cases h
      exact h'

theorem run_bind_of_ok {x : EStateM ε σ α} {f : α → EStateM ε σ β} {s s' : σ} {a : α}
    (h : x s = .ok a s') : (x >>= f) s = f a s' := by
  show EStateM.bind x f s = f a s'
  unfold EStateM.bind
  rw [h]

theorem run_bind_of_error {x : EStateM ε σ α} {f : α → EStateM ε σ β} {s s' : σ} {e : ε}
    (h : x s = .error e s') : (x >>= f) s = .error e s' := by
  show EStateM.bind x f s = .error e s'
  unfold EStateM.bind
  rw [h]

theorem run_pure_eq_ok_iff {s s' : σ} {a b : α} :
    (pure a : EStateM ε σ α) s = .ok b s' ↔ a = b ∧ s = s' := by
  show EStateM.Result.ok a s = .ok b s' ↔ _
  simp

theorem run_get_eq_ok_iff {s s' t : σ} :
    (get : EStateM ε σ σ) s = .ok t s' ↔ s = t ∧ s = s' := by
  show EStateM.Result.ok s s = .ok t s' ↔ _
  simp

theorem run_modifyGet_eq_ok_iff {f : σ → α × σ} {s s' : σ} {a : α} :
    (modifyGet f : EStateM ε σ α) s = .ok a s' ↔ f s = (a, s') := by
  show EStateM.Result.ok (f s).1 (f s).2 = .ok a s' ↔ _
  simp [Prod.ext_iff]

theorem run_modify_eq_ok_iff {f : σ → σ} {s s' : σ} {u : PUnit} :
    (modify f : EStateM ε σ PUnit) s = .ok u s' ↔ f s = s' := by
  show EStateM.Result.ok PUnit.unit (f s) = .ok u s' ↔ _
  simp

theorem run_throw_ne_ok {s s' : σ} {e : ε} {a : α} :
    (throw e : EStateM ε σ α) s ≠ .ok a s' := by
  show EStateM.Result.error e s ≠ .ok a s'
  simp

end ScalarLang
