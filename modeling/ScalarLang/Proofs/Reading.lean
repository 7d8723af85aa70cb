import ScalarLang.Program
import ScalarLang.Proofs.Results

/-!
# What reading keeps

Whatever reads from a cursor only ever moves it on, item by item.  So a property of cursors that one
item keeps is kept by all reading, also by reading that fails.

* `Cursor.step`, `Cursor.Stable` — moving over one item, and properties that this keeps.
* `Parse.Reads` — a reader keeps a property of cursors, and what it gives has another property.
* `Parse.Reads.bind` and the lemmas beside it — one for each form a reader is built from.
-/

namespace ScalarLang

/-- Moves over one item, or to the end. -/
def Cursor.step (c : Cursor) : Cursor :=
  match c.ahead with
  | [] => { c with current := c.final }
  | .ok token :: ahead => { c with current := token, ahead }
  | .error _ :: ahead => { c with ahead }

/-- A property that moving over an item keeps. -/
def Cursor.Stable (I : Cursor → Prop) : Prop := ∀ c, I c → I c.step

namespace Parse

variable {α β : Type} {I : Cursor → Prop}

/-- Reading keeps `I`, and what it gives has the property `Q`. -/
def Reads (I : Cursor → Prop) (Q : α → Prop) (p : Parse α) : Prop :=
  ∀ c, I c → match p c with
    | .ok a c' => I c' ∧ Q a
    | .error _ c' => I c'

namespace Reads

theorem ok {Q : α → Prop} {p : Parse α} (h : Reads I Q p) {c c' : Cursor} {a : α} (hc : I c)
    (hp : p c = .ok a c') : I c' ∧ Q a := by
  have := h c hc
  rw [hp] at this
  exact this

theorem error {Q : α → Prop} {p : Parse α} (h : Reads I Q p) {c c' : Cursor} {e : InputError}
    (hc : I c) (hp : p c = .error e c') : I c' := by
  have := h c hc
  rw [hp] at this
  exact this

theorem pure {Q : α → Prop} {a : α} (ha : Q a) : Reads I Q (Pure.pure a) :=
  fun _ hc => ⟨hc, ha⟩

theorem bind {P : α → Prop} {Q : β → Prop} {p : Parse α} {f : α → Parse β} (hp : Reads I P p)
    (hf : ∀ a, P a → Reads I Q (f a)) : Reads I Q (p >>= f) := by
  intro c hc
  have hpc := hp c hc
  show match EStateM.bind p f c with
    | .ok a c' => I c' ∧ Q a
    | .error _ c' => I c'
  unfold EStateM.bind
  cases hr : p c with
  | ok a c' =>
    rw [hr] at hpc
    exact hf a hpc.2 c' hpc.1
  | error e c' =>
    rw [hr] at hpc
    exact hpc

theorem get : Reads I I (get : Parse Cursor) := fun _ hc => ⟨hc, hc⟩

theorem throw {Q : α → Prop} {e : InputError} : Reads I Q (throw e : Parse α) := fun _ hc => hc

theorem expected {Q : α → Prop} {what : String} : Reads I Q (Parse.expected what : Parse α) :=
  fun _ hc => hc

theorem check {Q : α → Prop} {result : Except TypeError α} (h : ∀ a, result = .ok a → Q a) :
    Reads I Q (Parse.check result) := by
  cases result with
  | ok a => exact pure (h a rfl)
  | error e => exact throw

theorem ite {Q : α → Prop} {b : Prop} [Decidable b] {p q : Parse α} (hp : Reads I Q p)
    (hq : Reads I Q q) : Reads I Q (if b then p else q) := by
  split
  · exact hp
  · exact hq

variable (hI : Cursor.Stable I)
include hI

theorem advance : Reads I (fun _ => True) Parse.advance := by
  intro c hc
  have hs := hI c hc
  unfold Cursor.step at hs
  unfold Parse.advance
  split at hs <;> simp_all

theorem expect {kind : Token.Kind} {what : String} :
    Reads I (fun _ => True) (Parse.expect kind what) := by
  refine get.bind fun c _ => ite ?_ expected
  exact (advance hI).bind fun _ _ => pure trivial

theorem expectChar {ch : Char} : Reads I (fun _ => True) (Parse.expectChar ch) := expect hI

end Reads

end Parse

end ScalarLang
