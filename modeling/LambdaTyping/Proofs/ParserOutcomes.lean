import Mathlib
import LambdaTyping.Surface.Parser
import LambdaTyping.Proofs.FreshNames

/-!
# What the parsers do

Every parser of the written syntax as an equation between outcomes. An outcome is a
reading without the bound on its rest, so that the lexemes in it can be rewritten like
any other argument.
-/
namespace LambdaTyping

section Bind
variable {ε α β : Type}

@[simp] theorem ok_bind (a : α) (f : α → Except ε β) : (Except.ok a >>= f) = f a := rfl
@[simp] theorem error_bind (e : ε) (f : α → Except ε β) : (Except.error e >>= f) = .error e := rfl

theorem bind_congr_of_ok {r : Except ε α} {f g : α → Except ε β}
    (h : ∀ a, r = .ok a → f a = g a) : r >>= f = r >>= g := by
  cases r with
  | ok a => exact h a rfl
  | error e => rfl

end Bind

namespace Reading

variable {σ ε α β : Type} {n : Nat}

theorem toExcept_map (r : Reading σ ε α n) (f : α → β) :
    (r.map f).toExcept = r.toExcept >>= fun p => .ok (f p.1, p.2) := by
  cases r <;> rfl

theorem toExcept_andThen (r : Reading σ ε α n)
    (f : α → (rest : List σ) → Reading σ ε β rest.length) :
    (r.andThen fun a rest _ => f a rest).toExcept =
      r.toExcept >>= fun p => (f p.1 p.2).toExcept := by
  cases r with
  | done a rest h =>
    simp only [andThen, toExcept_done, ok_bind]
    cases h' : f a rest <;> simp
  | stuck e rest => rfl

theorem toExcept_andMaybe (r : Reading σ ε α n)
    (f : α → (rest : List σ) → Reading σ ε β (rest.length + 1)) :
    (r.andMaybe fun a rest _ => f a rest).toExcept =
      r.toExcept >>= fun p => (f p.1 p.2).toExcept := by
  cases r with
  | done a rest h =>
    simp only [andMaybe, toExcept_done, ok_bind]
    cases h' : f a rest <;> simp
  | stuck e rest => rfl

theorem length_lt_of_toExcept {r : Reading σ ε α n} {a : α} {rest : List σ}
    (h : r.toExcept = .ok (a, rest)) : rest.length < n := by
  cases r with
  | done b rest' hlt =>
    simp only [toExcept_done, Except.ok.injEq, Prod.mk.injEq] at h
    exact h.2 ▸ hlt
  | stuck e rest' => simp at h

end Reading

namespace Surface.Parser

open Reading (toExcept_map toExcept_andThen toExcept_andMaybe)

variable {α : Type}

/-- A result, or what was looked for and the lexemes that are left. -/
abbrev Outcome := Except (Expected × List Lexeme)

/-- What a parser makes of some lexemes. -/
def outcome {bound : List Lexeme → Nat} (p : (ls : List Lexeme) → Parsed α (bound ls))
    (ls : List Lexeme) : Outcome (α × List Lexeme) :=
  (p ls).toExcept

theorem length_lt_of_outcome {bound : List Lexeme → Nat}
    {p : (ls : List Lexeme) → Parsed α (bound ls)} {a : α} {ls rest : List Lexeme}
    (h : outcome p ls = .ok (a, rest)) : rest.length < bound ls :=
  Reading.length_lt_of_toExcept h

theorem expect_nil (token : Token) (what : Expected) :
    outcome (expect token what) [] = .error (what, []) := rfl

theorem expect_cons (token : Token) (what : Expected) (l : Lexeme) (ls : List Lexeme) :
    outcome (expect token what) (l :: ls) =
      if l.token = token then .ok ((), ls) else .error (what, l :: ls) := by
  rw [outcome, expect]
  split <;> rfl

theorem ident_nil : outcome ident [] = .error (.ident, []) := rfl

theorem ident_cons (l : Lexeme) (ls : List Lexeme) :
    outcome ident (l :: ls) =
      match l.token with
      | .var x => .ok (x, ls)
      | _ => .error (.ident, l :: ls) := by
  rw [outcome, ident]
  split <;> simp [*]

theorem tyIdent_nil : outcome tyIdent [] = .error (.tyIdent, []) := rfl

theorem tyIdent_cons (l : Lexeme) (ls : List Lexeme) :
    outcome tyIdent (l :: ls) =
      match l.token with
      | .tyVar x => .ok (x, ls)
      | _ => .error (.tyIdent, l :: ls) := by
  rw [outcome, tyIdent]
  split <;> simp [*]

theorem tyIdents_eq (ls : List Lexeme) :
    outcome tyIdents ls = outcome tyIdent ls >>= fun p =>
      outcome moreTyIdents p.2 >>= fun q => .ok (p.1 :: q.1, q.2) := by
  rw [outcome, tyIdents]
  simp [outcome, toExcept_andMaybe, toExcept_map]

theorem moreTyIdents_nil : outcome moreTyIdents [] = .ok ([], []) := by
  rw [outcome, moreTyIdents]
  rfl

theorem moreTyIdents_cons (l : Lexeme) (ls : List Lexeme) :
    outcome moreTyIdents (l :: ls) =
      if l.token = .comma then outcome tyIdents ls else .ok ([], l :: ls) := by
  rw [outcome, moreTyIdents]
  split <;> simp [outcome]

theorem type_eq (ls : List Lexeme) :
    outcome type ls = outcome typeArg ls >>= fun p => outcome (codomain p.1) p.2 := by
  rw [outcome, type]
  simp [outcome, toExcept_andMaybe]

theorem codomain_nil (a : Ty) : outcome (codomain a) [] = .ok (a, []) := by
  rw [outcome, codomain]
  rfl

theorem codomain_cons (a : Ty) (l : Lexeme) (ls : List Lexeme) :
    outcome (codomain a) (l :: ls) =
      if l.token = .arrow then outcome type ls >>= fun p => .ok (.arr a p.1, p.2)
      else .ok (a, l :: ls) := by
  rw [outcome, codomain]
  split <;> simp [outcome, toExcept_map]

theorem typeArg_nil : outcome typeArg [] = .error (.type, []) := by
  rw [outcome, typeArg]
  rfl

theorem typeArg_cons (l : Lexeme) (ls : List Lexeme) :
    outcome typeArg (l :: ls) =
      match l.token with
      | .boolKw => .ok (.bool, ls)
      | .tyVar x => .ok (.var x, ls)
      | .lpar => outcome type ls >>= fun p =>
          outcome (expect .rpar .rpar) p.2 >>= fun q => .ok (p.1, q.2)
      | .forAll => outcome tyIdents ls >>= fun p =>
          outcome (expect .dot .dot) p.2 >>= fun q =>
            outcome type q.2 >>= fun r => .ok (.allOf p.1 r.1, r.2)
      | _ => .error (.type, l :: ls) := by
  rw [outcome, typeArg]
  split <;> simp [*, outcome, toExcept_andThen, toExcept_map]

theorem ascription_nil : outcome ascription [] = .ok (none, []) := rfl

theorem ascription_cons (l : Lexeme) (ls : List Lexeme) :
    outcome ascription (l :: ls) =
      if l.token = .colon then outcome type ls >>= fun p => .ok (some p.1, p.2)
      else .ok (none, l :: ls) := by
  rw [outcome, ascription]
  split <;> simp [outcome, toExcept_map]

theorem term_nil : outcome term [] = .error (.term, []) := by
  rw [outcome, term]
  rfl

theorem term_cons (l : Lexeme) (ls : List Lexeme) :
    outcome term (l :: ls) =
      if l.token.opensForm then outcome form (l :: ls)
      else outcome atom (l :: ls) >>= fun p => outcome (arguments l.pos p.1) p.2 := by
  rw [outcome, term]
  split <;> simp [outcome, toExcept_andMaybe]

theorem arguments_cons (pos : Text.Position) (head : Term) (l : Lexeme) (ls : List Lexeme) :
    outcome (arguments pos head) (l :: ls) =
      if l.token = .lbrk then
        outcome type ls >>= fun p =>
          outcome (expect .rbrk .rbrk) p.2 >>= fun q =>
            outcome (arguments pos (.tyApp pos head p.1)) q.2
      else if l.token.startsTerm then
        outcome atom (l :: ls) >>= fun p => outcome (arguments pos (.app pos head p.1)) p.2
      else .ok (head, l :: ls) := by
  rw [outcome, arguments]
  split
  · simp [outcome, toExcept_andThen, toExcept_andMaybe]
  · split <;> simp [outcome, toExcept_andMaybe]

theorem atom_cons (l : Lexeme) (ls : List Lexeme) :
    outcome atom (l :: ls) =
      match l.token with
      | .var x => .ok (.var l.pos x, ls)
      | .trueKw => .ok (.const l.pos true, ls)
      | .falseKw => .ok (.const l.pos false, ls)
      | .lpar => outcome term ls >>= fun p =>
          outcome (expect .rpar .rpar) p.2 >>= fun q => .ok (p.1, q.2)
      | .letKw | .ifKw | .lambda | .bigLambda => outcome form (l :: ls)
      | _ => .error (.term, l :: ls) := by
  rw [outcome, atom]
  split <;> simp [*, outcome, toExcept_andThen, toExcept_map]

theorem atom_nil : outcome atom [] = .error (.term, []) := by
  rw [outcome, atom]
  rfl

theorem arguments_nil (pos : Text.Position) (head : Term) :
    outcome (arguments pos head) [] = .ok (head, []) := by
  rw [outcome, arguments]
  rfl

theorem form_nil : outcome form [] = .error (.term, []) := by
  rw [outcome, form]
  rfl

theorem form_cons (l : Lexeme) (ls : List Lexeme) :
    outcome form (l :: ls) =
      match l.token with
      | .letKw => outcome ident ls >>= fun x =>
          outcome (expect .eq .eq) x.2 >>= fun p =>
            outcome term p.2 >>= fun e =>
              outcome (expect .inKw .inKw) e.2 >>= fun q =>
                outcome term q.2 >>= fun t => .ok (.letIn l.pos x.1 e.1 t.1, t.2)
      | .ifKw => outcome term ls >>= fun c =>
          outcome (expect .thenKw .thenKw) c.2 >>= fun p =>
            outcome term p.2 >>= fun t =>
              outcome (expect .elseKw .elseKw) t.2 >>= fun q =>
                outcome term q.2 >>= fun e => .ok (.ite l.pos c.1 t.1 e.1, e.2)
      | .lambda => outcome ident ls >>= fun x =>
          outcome ascription x.2 >>= fun ty =>
            outcome (expect .dot .dot) ty.2 >>= fun p =>
              outcome term p.2 >>= fun t => .ok (.abs l.pos x.1 ty.1 t.1, t.2)
      | .bigLambda => outcome tyIdent ls >>= fun x =>
          outcome (expect .dot .dot) x.2 >>= fun p =>
            outcome term p.2 >>= fun t => .ok (.tyAbs l.pos x.1 t.1, t.2)
      | _ => .error (.term, l :: ls) := by
  rw [outcome, form]
  split <;> simp [*, outcome, toExcept_andThen, toExcept_andMaybe, toExcept_map]

theorem binding_nil : outcome binding [] = .error (.binding, []) := rfl

theorem binding_cons (l : Lexeme) (ls : List Lexeme) :
    outcome binding (l :: ls) =
      match l.token with
      | .var x => outcome ascription ls >>= fun p => .ok ((x, .var p.1), p.2)
      | .tyVar x => .ok ((x, .tyVar), ls)
      | _ => .error (.binding, l :: ls) := by
  rw [outcome, binding]
  cases l.token with
  | var x => exact toExcept_map (ascription ls) fun ty => (x, Binding.var ty)
  | _ => rfl

theorem context_nil : outcome context [] = .ok ([], []) := by
  rw [outcome, context]
  rfl

theorem context_cons (l : Lexeme) (ls : List Lexeme) :
    outcome context (l :: ls) = outcome binding (l :: ls) >>= fun p =>
      outcome moreContext p.2 >>= fun q => .ok (p.1 :: q.1, q.2) := by
  rw [outcome, context]
  simp [outcome, toExcept_andMaybe, toExcept_map]

theorem moreContext_nil : outcome moreContext [] = .ok ([], []) := by
  rw [outcome, moreContext]
  rfl

theorem moreContext_cons (l : Lexeme) (ls : List Lexeme) :
    outcome moreContext (l :: ls) =
      if l.token = .comma then outcome context ls else .ok ([], l :: ls) := by
  rw [outcome, moreContext]
  split <;> simp [outcome]

end Surface.Parser

end LambdaTyping
