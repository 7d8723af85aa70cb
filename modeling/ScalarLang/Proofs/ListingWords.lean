import ScalarLang.Proofs.Constants
import ScalarLang.Proofs.PlainNames

/-!
# The words of a listing

A listing is read from left to right.  A word goes up to the next blank, comma, bracket, colon or line end,
since no name and no constant has one of these in it.  The first word of an instruction tells its kind.  The
items of a list are parted by commas, and a list ends where something else follows.

* `Ir.Listing.Solid.cut` — a word is told from what follows it.
* `Ir.Listing.Words`, `Ir.Listing.Words.cut` — types, comparisons and kinds of instructions are told from
  their words.
* `Ir.Listing.opText_eq` — an instruction is its first word and what stands behind it.
* `Ir.Listing.list_cut` — lists are told apart item by item.
-/

namespace ScalarLang

namespace Ir

/-! ### Words -/

namespace Listing

/-- The characters that end a word. -/
def isMark (c : Char) : Bool := [' ', ',', '(', ')', ':', '\n'].contains c

/-- No character ends the word before its end. -/
def Solid (cs : List Char) : Prop := cs.all (fun c => !isMark c) = true

instance (cs : List Char) : Decidable (Solid cs) :=
  inferInstanceAs (Decidable (cs.all (fun c => !isMark c) = true))

/-- The first character ends a word. -/
def Stops (cs : List Char) : Prop := ∃ c ∈ cs.head?, isMark c = true

/-- A word of one text is the word at the same place of an equal text. -/
theorem Solid.cut {a b r s : List Char} (ha : Solid a) (hb : Solid b) (hr : Stops r) (hs : Stops s)
    (h : a ++ r = b ++ s) : a = b ∧ r = s := by
  have htake : ∀ {a r : List Char}, Solid a → Stops r →
      (a ++ r).takeWhile (fun c => !isMark c) = a := by
    intro a r ha hr
    obtain ⟨c, hc, hmark⟩ := hr
    obtain ⟨r', rfl⟩ := List.head?_eq_some_iff.1 hc
    rw [List.takeWhile_append_of_pos (List.all_eq_true.1 ha)]
    simp [hmark]
  have hword : a = b := by
    rw [← htake ha hr, h, htake hb hs]
  rw [hword] at h
  exact ⟨hword, List.append_cancel_left h⟩

/-- Characters that include no mark make a word. -/
theorem solid_of_forall {cs : List Char} {p : Char → Bool} (h : ∀ c ∈ cs, p c = true)
    (hmarks : ∀ c ∈ [' ', ',', '(', ')', ':', '\n'], p c = false) : Solid cs := by
  refine List.all_eq_true.2 fun c hc => ?_
  rw [Bool.not_eq_true', isMark, List.contains_eq_mem, decide_eq_false_iff_not]
  intro hmem
  have hp := h c hc
  rw [hmarks c hmem] at hp
  cases hp

theorem solid_of_isPlain {name : String} (h : IsPlain name) : Solid name.toList :=
  solid_of_forall (isPlain_iff.1 h) (by simp [isPlainChar])

theorem solid_of_isNumberChar {cs : List Char} (h : ∀ c ∈ cs, Double.isNumberChar c = true) :
    Solid cs :=
  solid_of_forall h (by simp [Double.isNumberChar])

/-- Different things are spelled as different words. -/
structure Words {α : Type} (spell : α → String) : Prop where
  solid : ∀ a, Solid (spell a).toList
  inj : ∀ a b, (spell a).toList = (spell b).toList → a = b

theorem Words.cut {α : Type} {spell : α → String} (h : Words spell) {a b : α} {r s : List Char}
    (hr : Stops r) (hs : Stops s) (htext : (spell a).toList ++ r = (spell b).toList ++ s) :
    a = b ∧ r = s := by
  obtain ⟨hword, hrest⟩ := (h.solid a).cut (h.solid b) hr hs htext
  exact ⟨h.inj a b hword, hrest⟩

theorem words_ty : Words Ty.text where
  solid ty := by cases ty <;> decide
  inj ty ty' := by cases ty <;> cases ty' <;> decide

theorem words_intPred : Words IntPred.mnemonic where
  solid pred := by cases pred <;> decide
  inj pred pred' := by cases pred <;> cases pred' <;> decide

theorem words_floatPred : Words FloatPred.mnemonic where
  solid pred := by cases pred <;> decide
  inj pred pred' := by cases pred <;> cases pred' <;> decide

/-- What the first word of an instruction tells. -/
inductive Form where
  | arith (code : Arith)
  | icmp
  | fcmp
  | zext
  | uitofp
  | call
  | phi
deriving DecidableEq, Repr

namespace Form

def all : List Form := Arith.all.map arith ++ [icmp, fcmp, zext, uitofp, call, phi]

def word : Form → String
  | arith code => code.mnemonic
  | icmp => "icmp"
  | fcmp => "fcmp"
  | zext => "zext"
  | uitofp => "uitofp"
  | call => "call"
  | phi => "phi"

theorem mem_all (form : Form) : form ∈ all := by
  cases form with
  | arith code => cases code <;> decide
  | _ => decide

theorem words_word : Words word where
  solid form := by
    have hall : ∀ form ∈ all, Solid form.word.toList := by decide
    exact hall form form.mem_all
  inj form form' := by
    have hall : ∀ form ∈ all, ∀ form' ∈ all, form.word.toList = form'.word.toList → form = form' := by
      decide
    exact hall form form.mem_all form' form'.mem_all

end Form

def form : Op → Form
  | .binary code _ _ => .arith code
  | .icmp _ _ _ => .icmp
  | .fcmp _ _ _ => .fcmp
  | .zext _ => .zext
  | .uitofp _ => .uitofp
  | .call _ _ => .call
  | .phi _ => .phi

/-- What stands behind the first word of an instruction. -/
def details (f : Function) (ty : Ty) : Op → String
  | .binary code lhs rhs => " " ++ code.ty.text ++ " " ++ f.operandText lhs ++ ", " ++ f.operandText rhs
  | .icmp pred lhs rhs =>
    " " ++ pred.mnemonic ++ " i64 " ++ f.operandText lhs ++ ", " ++ f.operandText rhs
  | .fcmp pred lhs rhs =>
    " " ++ pred.mnemonic ++ " double " ++ f.operandText lhs ++ ", " ++ f.operandText rhs
  | .zext value => " i1 " ++ f.operandText value ++ " to i64"
  | .uitofp value => " i1 " ++ f.operandText value ++ " to double"
  | .call callee args =>
    " " ++ ty.text ++ " @" ++ callee ++ "(" ++ Function.commaSeparated (args.map f.typedText) ++ ")"
  | .phi incoming =>
    " " ++ ty.text ++ " " ++ Function.commaSeparated (incoming.map fun arm =>
      "[ " ++ f.operandText arm.1 ++ ", " ++ f.labelText arm.2 ++ " ]")

theorem opText_eq (f : Function) (ty : Ty) (op : Op) :
    f.opText ty op = (form op).word ++ details f ty op := by
  cases op <;> simp [Function.opText, form, Form.word, details, ← String.toList_inj]

/-! ### Lists -/

/-- The first character does not end a word. -/
def Starts (cs : List Char) : Prop := ∃ c ∈ cs.head?, isMark c = false

theorem Starts.append {x : String} (h : Starts x.toList) (y : String) : Starts (x ++ y).toList := by
  obtain ⟨c, hc, hmark⟩ := h
  obtain ⟨cs, hcs⟩ := List.head?_eq_some_iff.1 hc
  refine ⟨c, ?_, hmark⟩
  rw [String.toList_append, hcs]
  rfl

theorem starts_ty (ty : Ty) : Starts ty.text.toList := by
  cases ty with
  | i1 => exact ⟨'i', rfl, rfl⟩
  | i64 => exact ⟨'i', rfl, rfl⟩
  | double => exact ⟨'d', rfl, rfl⟩

/-- The first character ends a word, and no further item follows it. -/
def Closes (cs : List Char) : Prop := ∃ c ∈ cs.head?, isMark c = true ∧ c ≠ ','

theorem Closes.stops {cs : List Char} (h : Closes cs) : Stops cs := by
  obtain ⟨c, hc, hmark, -⟩ := h
  exact ⟨c, hc, hmark⟩

/-- What follows an item of a list. -/
def tailText : List String → String
  | [] => ""
  | x :: l => ", " ++ Function.commaSeparated (x :: l)

theorem commaSeparated_cons (x : String) (l : List String) :
    Function.commaSeparated (x :: l) = x ++ tailText l := by
  cases l with
  | nil => simp [Function.commaSeparated, tailText]
  | cons y l =>
    rw [Function.commaSeparated, String.intercalate_cons_cons, String.append_assoc]
    rfl

theorem stops_tailText {l : List String} {r : List Char} (hr : Closes r) :
    Stops ((tailText l).toList ++ r) := by
  cases l with
  | nil => exact hr.stops
  | cons x l => exact ⟨',', by simp [tailText], rfl⟩

/-- Where a list has ended, no item follows. -/
theorem Closes.ne_commaSeparated {x : String} {l : List String} {r s : List Char} (hr : Closes r)
    (hx : Starts x.toList) : r ≠ (Function.commaSeparated (x :: l)).toList ++ s := by
  intro heq
  obtain ⟨c, hc, hmark⟩ := hx
  obtain ⟨d, hd, hstop, -⟩ := hr
  obtain ⟨cs, hcs⟩ := List.head?_eq_some_iff.1 hc
  rw [heq, commaSeparated_cons, String.toList_append, hcs] at hd
  cases hd
  rw [hmark] at hstop
  cases hstop

theorem Closes.ne_tailText {x : String} {l : List String} {r s : List Char} (hr : Closes r) :
    r ≠ (tailText (x :: l)).toList ++ s := by
  intro heq
  obtain ⟨c, hc, -, hne⟩ := hr
  rw [heq] at hc
  have hfirst : ',' = c := by simpa [tailText] using hc
  exact hne hfirst.symm

/-- What follows an item tells the items behind it. -/
theorem tailText_cut {l l' : List String} {r s : List Char} (hr : Closes r) (hs : Closes s)
    (h : (tailText l).toList ++ r = (tailText l').toList ++ s) :
    (Function.commaSeparated l).toList ++ r = (Function.commaSeparated l').toList ++ s := by
  cases l with
  | nil =>
    cases l' with
    | nil => exact h
    | cons y l' => exact absurd h hr.ne_tailText
  | cons x l =>
    cases l' with
    | nil => exact absurd h.symm hs.ne_tailText
    | cons y l' =>
      simp only [tailText, String.toList_append, List.append_assoc] at h
      exact List.append_cancel_left h

/-- **Lists are told apart item by item**, if items are. -/
theorem list_cut {α β : Type} {R : α → β → Prop} {p : α → String} {q : β → String} {as : List α}
    {bs : List β} {r s : List Char}
    (hitem : ∀ a ∈ as, ∀ b ∈ bs, ∀ r s, Stops r → Stops s →
      (p a).toList ++ r = (q b).toList ++ s → R a b ∧ r = s)
    (hp : ∀ a ∈ as, Starts (p a).toList) (hq : ∀ b ∈ bs, Starts (q b).toList) (hr : Closes r)
    (hs : Closes s)
    (h : (Function.commaSeparated (as.map p)).toList ++ r =
      (Function.commaSeparated (bs.map q)).toList ++ s) : List.Forall₂ R as bs ∧ r = s := by
  induction as generalizing bs with
  | nil =>
    cases bs with
    | nil => exact ⟨.nil, h⟩
    | cons b bs => exact absurd h (hr.ne_commaSeparated (hq b List.mem_cons_self))
  | cons a as ih =>
    cases bs with
    | nil => exact absurd h.symm (hs.ne_commaSeparated (hp a List.mem_cons_self))
    | cons b bs =>
      simp only [List.map_cons, commaSeparated_cons, String.toList_append, List.append_assoc] at h
      obtain ⟨hfirst, hrest⟩ := hitem a List.mem_cons_self b List.mem_cons_self _ _
        (stops_tailText hr) (stops_tailText hs) h
      obtain ⟨hothers, hend⟩ := ih
        (fun a ha b hb => hitem a (List.mem_cons_of_mem _ ha) b (List.mem_cons_of_mem _ hb))
        (fun a ha => hp a (List.mem_cons_of_mem _ ha)) (fun b hb => hq b (List.mem_cons_of_mem _ hb))
        (tailText_cut hr hs hrest)
      exact ⟨.cons hfirst hothers, hend⟩

end Listing

end Ir

end ScalarLang
