import Mathlib
import LambdaTyping.Proofs.ParserOutcomes

/-!
# The grammar

The written syntax as a context-free grammar over tokens. The grammar is ambiguous: a
form such as an abstraction may be an argument without parentheses, and what follows it
is then either a part of its body or the next argument; the same holds of a quantified
type in front of an arrow.

The parsers accept all that the grammar derives. A derivation need not be the one that
a parser finds, so what is shown is where a parser stands when it has read the lexemes
of a derivation: as after the head of an application, or in front of the codomain of an
arrow. From there it goes on in the same way, whichever derivation it was.
-/
namespace LambdaTyping.Surface

/-- What a sequence of tokens can be. -/
inductive Symbol where
  | idents | type | typeArg | quantified | ascription
  | term | form | app | args | atom
  | binding | bindings | context
  deriving DecidableEq

/-- The grammar, with one constructor for each alternative. -/
inductive Derives : Symbol → List Token → Prop
  | ident (x : String) : Derives .idents [.tyVar x]
  | identsComma {v : List Token} (x : String) (hv : Derives .idents v) :
      Derives .idents (.tyVar x :: .comma :: v)
  | typeArg {w : List Token} (hw : Derives .typeArg w) : Derives .type w
  | arrow {w v : List Token} (hw : Derives .typeArg w) (hv : Derives .type v) :
      Derives .type (w ++ .arrow :: v)
  | bool : Derives .typeArg [.boolKw]
  | tyVar (x : String) : Derives .typeArg [.tyVar x]
  | typeParens {w : List Token} (hw : Derives .type w) : Derives .typeArg (.lpar :: (w ++ [.rpar]))
  | quantified {w : List Token} (hw : Derives .quantified w) : Derives .typeArg w
  | forAll {w v : List Token} (hw : Derives .idents w) (hv : Derives .type v) :
      Derives .quantified (.forAll :: (w ++ .dot :: v))
  | noType : Derives .ascription []
  | ofType {w : List Token} (hw : Derives .type w) : Derives .ascription (.colon :: w)
  | form {w : List Token} (hw : Derives .form w) : Derives .term w
  | app {w : List Token} (hw : Derives .app w) : Derives .term w
  | letIn {w v : List Token} (x : String) (hw : Derives .term w) (hv : Derives .term v) :
      Derives .form (.letKw :: .var x :: .eq :: (w ++ .inKw :: v))
  | ite {u w v : List Token} (hu : Derives .term u) (hw : Derives .term w) (hv : Derives .term v) :
      Derives .form (.ifKw :: (u ++ .thenKw :: (w ++ .elseKw :: v)))
  | abs {w v : List Token} (x : String) (hw : Derives .ascription w) (hv : Derives .term v) :
      Derives .form (.lambda :: .var x :: (w ++ .dot :: v))
  | tyAbs {v : List Token} (x : String) (hv : Derives .term v) :
      Derives .form (.bigLambda :: .tyVar x :: .dot :: v)
  | atomArgs {w v : List Token} (hw : Derives .atom w) (hv : Derives .args v) :
      Derives .app (w ++ v)
  | noArgs : Derives .args []
  | arg {w v : List Token} (hw : Derives .atom w) (hv : Derives .args v) : Derives .args (w ++ v)
  | tyArg {w v : List Token} (hw : Derives .type w) (hv : Derives .args v) :
      Derives .args (.lbrk :: (w ++ .rbrk :: v))
  | var (x : String) : Derives .atom [.var x]
  | true : Derives .atom [.trueKw]
  | false : Derives .atom [.falseKw]
  | parens {w : List Token} (hw : Derives .term w) : Derives .atom (.lpar :: (w ++ [.rpar]))
  | atomForm {w : List Token} (hw : Derives .form w) : Derives .atom w
  | varBinding {w : List Token} (x : String) (hw : Derives .ascription w) :
      Derives .binding (.var x :: w)
  | tyVarBinding (x : String) : Derives .binding [.tyVar x]
  | oneBinding {w : List Token} (hw : Derives .binding w) : Derives .bindings w
  | bindingsComma {w v : List Token} (hw : Derives .binding w) (hv : Derives .bindings v) :
      Derives .bindings (w ++ .comma :: v)
  | noBindings : Derives .context []
  | bindings {w : List Token} (hw : Derives .bindings w) : Derives .context w
  | trailingComma {w : List Token} (hw : Derives .bindings w) : Derives .context (w ++ [.comma])

namespace Parser

variable {α : Type}

/-- No lexeme follows that would go on as an argument. -/
def EndsApp (ls : List Lexeme) : Prop :=
  ∀ l ∈ ls.head?, l.token ≠ .lbrk ∧ l.token.startsTerm = false

/-- No arrow follows. -/
def EndsType (ls : List Lexeme) : Prop := ∀ l ∈ ls.head?, l.token ≠ .arrow

theorem arguments_of_endsApp {ls : List Lexeme} (h : EndsApp ls) (pos : Text.Position)
    (head : Term) : outcome (arguments pos head) ls = .ok (head, ls) := by
  cases ls with
  | nil => exact arguments_nil pos head
  | cons l ls =>
    obtain ⟨h₁, h₂⟩ := h l rfl
    simp [arguments_cons, h₁, h₂]

theorem codomain_of_endsType {ls : List Lexeme} (h : EndsType ls) (a : Ty) :
    outcome (codomain a) ls = .ok (a, ls) := by
  cases ls with
  | nil => exact codomain_nil a
  | cons l ls => simp [codomain_cons, h l rfl]

theorem endsApp_of_arguments {pos : Text.Position} {head t : Term} {ls rest : List Lexeme}
    (h : outcome (arguments pos head) ls = .ok (t, rest)) : EndsApp rest := by
  induction hn : ls.length using Nat.strong_induction_on generalizing ls head with
  | _ n ih =>
    subst hn
    cases ls with
    | nil =>
      rw [arguments_nil] at h
      cases h
      simp [EndsApp]
    | cons l ls =>
      rw [arguments_cons] at h
      split at h
      next hl =>
        obtain ⟨⟨a, ls₁⟩, h₁, h⟩ := bind_eq_ok_iff.mp h
        obtain ⟨⟨u, ls₂⟩, h₂, h⟩ := bind_eq_ok_iff.mp h
        have hlt₁ := length_lt_of_outcome h₁
        have hlt₂ := length_lt_of_outcome h₂
        exact ih ls₂.length (by simp only [List.length_cons] at *; omega) h rfl
      next hl =>
        split at h
        next hstarts =>
          obtain ⟨⟨u, ls₁⟩, h₁, h⟩ := bind_eq_ok_iff.mp h
          exact ih ls₁.length (length_lt_of_outcome h₁) h rfl
        next hstarts =>
          cases h
          simpa [EndsApp, hl] using hstarts

theorem endsType_of_type {a : Ty} {ls rest : List Lexeme}
    (h : outcome type ls = .ok (a, rest)) : EndsType rest := by
  induction hn : ls.length using Nat.strong_induction_on generalizing ls a with
  | _ n ih =>
    subst hn
    rw [type_eq] at h
    obtain ⟨⟨b, ls₁⟩, h₁, h⟩ := bind_eq_ok_iff.mp h
    have hlt := length_lt_of_outcome h₁
    cases ls₁ with
    | nil =>
      rw [codomain_nil] at h
      cases h
      simp [EndsType]
    | cons l ls₁ =>
      rw [codomain_cons] at h
      split at h
      next hl =>
        obtain ⟨⟨c, ls₂⟩, h₂, h⟩ := bind_eq_ok_iff.mp h
        cases h
        exact ih ls₁.length (by simp only [List.length_cons] at hlt; omega) h₂ rfl
      next hl =>
        cases h
        simpa [EndsType] using hl

theorem endsType_of_codomain {a b : Ty} {ls rest : List Lexeme}
    (h : outcome (codomain a) ls = .ok (b, rest)) : EndsType rest := by
  cases ls with
  | nil =>
    rw [codomain_nil] at h
    cases h
    simp [EndsType]
  | cons l ls =>
    rw [codomain_cons] at h
    split at h
    next hl =>
      obtain ⟨⟨c, ls₁⟩, h₁, h⟩ := bind_eq_ok_iff.mp h
      cases h
      exact endsType_of_type h₁
    next hl =>
      cases h
      simpa [EndsType] using hl

/-- The tokens of some lexemes. -/
def tokens (ls : List Lexeme) : List Token := ls.map (·.token)

@[simp] theorem tokens_nil : tokens [] = [] := rfl
@[simp] theorem tokens_cons (l : Lexeme) (ls : List Lexeme) :
    tokens (l :: ls) = l.token :: tokens ls := rfl
@[simp] theorem tokens_append (ls ls' : List Lexeme) :
    tokens (ls ++ ls') = tokens ls ++ tokens ls' := List.map_append

theorem tokens_eq_append_iff {c : List Lexeme} {w v : List Token} :
    tokens c = w ++ v ↔ ∃ c₁ c₂, c = c₁ ++ c₂ ∧ tokens c₁ = w ∧ tokens c₂ = v :=
  List.map_eq_append_iff

theorem tokens_eq_cons_iff {c : List Lexeme} {t : Token} {w : List Token} :
    tokens c = t :: w ↔ ∃ l ls, c = l :: ls ∧ l.token = t ∧ tokens ls = w :=
  List.map_eq_cons_iff

theorem tokens_eq_singleton_iff {c : List Lexeme} {t : Token} :
    tokens c = [t] ↔ ∃ l, l.token = t ∧ c = [l] := by
  rw [tokens, List.map_eq_singleton_iff]
  tauto

theorem tokens_eq_nil_iff {c : List Lexeme} : tokens c = [] ↔ c = [] := List.map_eq_nil_iff

/-- Having read `c`, the parser `p` goes on as one of the parsers `q` does, and puts what it reads
into its own result. -/
def GoesOn {ι : Type} {b d : List Lexeme → Nat} (q : ι → (ls : List Lexeme) → Parsed α (d ls))
    (p : (ls : List Lexeme) → Parsed α (b ls)) (c : List Lexeme) : Prop :=
  ∃ (i : ι) (f : α → α), ∀ r, outcome p (c ++ r) = outcome (q i) r >>= fun x => .ok (f x.1, x.2)

/-- Going on with the arguments of an application. -/
def appRest (i : Text.Position × Term) (ls : List Lexeme) : Parsed Term (ls.length + 1) :=
  arguments i.1 i.2 ls

/-- What parsers do with the lexemes that a symbol derives. A term may be followed by arguments of
its last application, and a type by the codomain of its last arrow. -/
def Passes : Symbol → List Lexeme → Prop
  | .idents, c => ∃ xs, ∀ r, (∀ l ∈ r.head?, l.token ≠ .comma) →
      outcome tyIdents (c ++ r) = .ok (xs, r)
  | .type, c => GoesOn codomain type c
  | .typeArg, c => (∃ a, ∀ r, outcome typeArg (c ++ r) = .ok (a, r)) ∨ GoesOn codomain typeArg c
  | .quantified, c => GoesOn codomain typeArg c
  | .ascription, c => ∃ ty, ∀ r, (∀ l ∈ r.head?, l.token ≠ .colon ∧ l.token ≠ .arrow) →
      outcome ascription (c ++ r) = .ok (ty, r)
  | .term, c | .app, c => GoesOn appRest term c
  | .form, c => (∃ l ∈ c.head?, l.token.opensForm) ∧ GoesOn appRest form c
  | .args, c => ∀ i, GoesOn appRest (appRest i) c
  | .atom, c => ∃ l ∈ c.head?, (l.token.startsTerm ∧ l.token.opensForm = false ∧
      ∃ t, ∀ r, outcome atom (c ++ r) = .ok (t, r)) ∨ (l.token.opensForm ∧ GoesOn appRest form c)
  | .binding, c => ∃ b, ∀ r, (∀ l ∈ r.head?, l.token = .comma) →
      outcome binding (c ++ r) = .ok (b, r)
  | .bindings, c => ∃ bs, outcome context c = .ok (bs, []) ∧
    ∀ l, l.token = .comma → outcome context (c ++ [l]) = .ok (bs, [])
  | .context, c => ∃ bs, outcome context c = .ok (bs, [])

/-- What follows a term that has been read whole can only be an argument. -/
theorem GoesOn.eq_ok_of_endsApp {b : List Lexeme → Nat} {p : (ls : List Lexeme) → Parsed Term (b ls)}
    {c : List Lexeme} (h : GoesOn appRest p c) :
    ∃ t, ∀ r, EndsApp r → outcome p (c ++ r) = .ok (t, r) := by
  obtain ⟨⟨pos, head⟩, f, hf⟩ := h
  refine ⟨f head, fun r hr => ?_⟩
  rw [hf r]
  exact congrArg (· >>= _) (arguments_of_endsApp hr pos head)

theorem GoesOn.eq_ok_of_endsType {b : List Lexeme → Nat} {p : (ls : List Lexeme) → Parsed Ty (b ls)}
    {c : List Lexeme} (h : GoesOn codomain p c) :
    ∃ a, ∀ r, EndsType r → outcome p (c ++ r) = .ok (a, r) := by
  obtain ⟨a, f, hf⟩ := h
  refine ⟨f a, fun r hr => ?_⟩
  rw [hf r, codomain_of_endsType hr]
  rfl

/-- Where a parser ends with another one, it goes on in the same way. -/
theorem GoesOn.of_tail {ι : Type} {b b' d : List Lexeme → Nat}
    {q : ι → (ls : List Lexeme) → Parsed α (d ls)} {p : (ls : List Lexeme) → Parsed α (b ls)}
    {p' : (ls : List Lexeme) → Parsed α (b' ls)} {c c' : List Lexeme} (h : GoesOn q p c)
    (f : α → α) (hp : ∀ r, outcome p' (c' ++ r) = outcome p (c ++ r) >>= fun x => .ok (f x.1, x.2)) :
    GoesOn q p' c' := by
  obtain ⟨i, g, hg⟩ := h
  refine ⟨i, f ∘ g, fun r => ?_⟩
  rw [hp, hg r, bind_assoc]
  rfl

theorem passes_arrow {c₁ c₂ : List Lexeme} {l : Lexeme} (hl : l.token = .arrow)
    (h₁ : Passes .typeArg c₁) (h₂ : Passes .type c₂) : Passes .type (c₁ ++ l :: c₂) := by
  rcases h₁ with ⟨a, ha⟩ | ⟨a, f, hf⟩
  · refine GoesOn.of_tail h₂ (.arr a) fun r => ?_
    rw [List.append_assoc, List.cons_append, type_eq, ha]
    simp [codomain_cons, hl]
  · -- the quantified type takes the arrow and all that follows
    refine GoesOn.of_tail h₂ (fun b => f (.arr a b)) fun r => ?_
    rw [List.append_assoc, List.cons_append, type_eq, hf]
    simp only [codomain_cons, hl, if_true, bind_assoc, ok_bind]
    refine bind_congr_of_ok fun x hx => ?_
    exact codomain_of_endsType (endsType_of_type hx) _

theorem passes_typeArg {c : List Lexeme} (h : Passes .typeArg c) : Passes .type c := by
  rcases h with ⟨a, ha⟩ | ⟨a, f, hf⟩
  · refine ⟨a, id, fun r => ?_⟩
    rw [type_eq, ha]
    cases h : outcome (codomain a) r <;> simp [h]
  · refine ⟨a, f, fun r => ?_⟩
    rw [type_eq, hf, bind_assoc]
    refine bind_congr_of_ok fun x hx => ?_
    exact codomain_of_endsType (endsType_of_codomain hx) _

theorem passes_typeParens {c : List Lexeme} {l l' : Lexeme} (hl : l.token = .lpar)
    (hl' : l'.token = .rpar) (h : Passes .type c) : Passes .typeArg (l :: (c ++ [l'])) := by
  obtain ⟨a, ha⟩ := GoesOn.eq_ok_of_endsType h
  refine .inl ⟨a, fun r => ?_⟩
  have hends : EndsType (l' :: r) := by simp [EndsType, hl']
  simp [typeArg_cons, hl, ha _ hends, expect_cons, hl']

theorem passes_forAll {c₁ c₂ : List Lexeme} {l l' : Lexeme} (hl : l.token = .forAll)
    (hl' : l'.token = .dot) (h₁ : Passes .idents c₁) (h₂ : Passes .type c₂) :
    Passes .quantified (l :: (c₁ ++ l' :: c₂)) := by
  obtain ⟨xs, hxs⟩ := h₁
  refine GoesOn.of_tail h₂ (.allOf xs) fun r => ?_
  have hr : ∀ k ∈ (l' :: (c₂ ++ r)).head?, k.token ≠ .comma := by simp [hl']
  simp [typeArg_cons, hl, hxs _ hr, expect_cons, hl']

theorem passes_ofType {c : List Lexeme} {l : Lexeme} (hl : l.token = .colon)
    (h : Passes .type c) : Passes .ascription (l :: c) := by
  obtain ⟨a, ha⟩ := GoesOn.eq_ok_of_endsType h
  refine ⟨some a, fun r hr => ?_⟩
  simp [ascription_cons, hl, ha r fun k hk => (hr k hk).2]

theorem passes_noType : Passes .ascription [] := by
  refine ⟨none, fun r hr => ?_⟩
  cases r with
  | nil => rfl
  | cons l r => simp [ascription_cons, (hr l rfl).1]

theorem passes_identsComma {x : String} {c : List Lexeme} {l l' : Lexeme} (hl : l.token = .tyVar x)
    (hl' : l'.token = .comma) (h : Passes .idents c) : Passes .idents (l :: l' :: c) := by
  obtain ⟨xs, hxs⟩ := h
  refine ⟨x :: xs, fun r hr => ?_⟩
  simp [tyIdents_eq, tyIdent_cons, hl, moreTyIdents_cons, hl', hxs r hr]

theorem passes_ident {x : String} {l : Lexeme} (hl : l.token = .tyVar x) : Passes .idents [l] := by
  refine ⟨[x], fun r hr => ?_⟩
  have hmore : outcome moreTyIdents r = .ok ([], r) := by
    cases r with
    | nil => exact moreTyIdents_nil
    | cons l' r => simp [moreTyIdents_cons, hr l' rfl]
  simp [tyIdents_eq, tyIdent_cons, hl, hmore]

theorem passes_form {c : List Lexeme} (h : Passes .form c) : Passes .term c := by
  obtain ⟨⟨l, hl, hopens⟩, h⟩ := h
  obtain ⟨c', rfl⟩ := List.head?_eq_some_iff.mp hl
  refine GoesOn.of_tail h id fun r => ?_
  simp only [List.cons_append, term_cons, hopens, if_true, id]
  cases outcome form (l :: (c' ++ r)) <;> rfl

theorem passes_letIn {x : String} {c₁ c₂ : List Lexeme} {l₀ l₁ l₂ l₃ : Lexeme}
    (h₀ : l₀.token = .letKw) (h₁ : l₁.token = .var x) (h₂ : l₂.token = .eq)
    (h₃ : l₃.token = .inKw) (hc₁ : Passes .term c₁) (hc₂ : Passes .term c₂) :
    Passes .form (l₀ :: l₁ :: l₂ :: (c₁ ++ l₃ :: c₂)) := by
  obtain ⟨e, he⟩ := GoesOn.eq_ok_of_endsApp hc₁
  refine ⟨⟨l₀, rfl, by rw [h₀]; rfl⟩, GoesOn.of_tail hc₂ (.letIn l₀.pos x e) fun r => ?_⟩
  have hends : EndsApp (l₃ :: (c₂ ++ r)) := by simp [EndsApp, h₃, Token.startsTerm]
  simp [form_cons, h₀, ident_cons, h₁, expect_cons, h₂, he _ hends, h₃]

theorem passes_ite {c₁ c₂ c₃ : List Lexeme} {l₀ l₁ l₂ : Lexeme}
    (h₀ : l₀.token = .ifKw) (h₁ : l₁.token = .thenKw) (h₂ : l₂.token = .elseKw)
    (hc₁ : Passes .term c₁) (hc₂ : Passes .term c₂) (hc₃ : Passes .term c₃) :
    Passes .form (l₀ :: (c₁ ++ l₁ :: (c₂ ++ l₂ :: c₃))) := by
  obtain ⟨c, hc⟩ := GoesOn.eq_ok_of_endsApp hc₁
  obtain ⟨t, ht⟩ := GoesOn.eq_ok_of_endsApp hc₂
  refine ⟨⟨l₀, rfl, by rw [h₀]; rfl⟩, GoesOn.of_tail hc₃ (.ite l₀.pos c t) fun r => ?_⟩
  have hends₁ : EndsApp (l₁ :: (c₂ ++ l₂ :: (c₃ ++ r))) := by simp [EndsApp, h₁, Token.startsTerm]
  have hends₂ : EndsApp (l₂ :: (c₃ ++ r)) := by simp [EndsApp, h₂, Token.startsTerm]
  simp [form_cons, h₀, hc _ hends₁, expect_cons, h₁, ht _ hends₂, h₂]

theorem passes_abs {x : String} {c₁ c₂ : List Lexeme} {l₀ l₁ l₂ : Lexeme}
    (h₀ : l₀.token = .lambda) (h₁ : l₁.token = .var x) (h₂ : l₂.token = .dot)
    (hc₁ : Passes .ascription c₁) (hc₂ : Passes .term c₂) :
    Passes .form (l₀ :: l₁ :: (c₁ ++ l₂ :: c₂)) := by
  obtain ⟨ty, hty⟩ := hc₁
  refine ⟨⟨l₀, rfl, by rw [h₀]; rfl⟩, GoesOn.of_tail hc₂ (.abs l₀.pos x ty) fun r => ?_⟩
  have hends : ∀ l ∈ (l₂ :: (c₂ ++ r)).head?, l.token ≠ .colon ∧ l.token ≠ .arrow := by simp [h₂]
  simp [form_cons, h₀, ident_cons, h₁, hty _ hends, expect_cons, h₂]

theorem passes_tyAbs {x : String} {c : List Lexeme} {l₀ l₁ l₂ : Lexeme}
    (h₀ : l₀.token = .bigLambda) (h₁ : l₁.token = .tyVar x) (h₂ : l₂.token = .dot)
    (hc : Passes .term c) : Passes .form (l₀ :: l₁ :: l₂ :: c) := by
  refine ⟨⟨l₀, rfl, by rw [h₀]; rfl⟩, GoesOn.of_tail hc (.tyAbs l₀.pos x) fun r => ?_⟩
  simp [form_cons, h₀, tyIdent_cons, h₁, expect_cons, h₂]

theorem passes_noArgs : Passes .args [] := by
  refine fun i => ⟨i, id, fun r => ?_⟩
  cases h : outcome (appRest i) r <;> simp [h]

/-- A form that has been read with the arguments after it is at the end of the application. -/
theorem form_bind_arguments {c : List Lexeme} {i : Text.Position × Term} {f : Term → Term}
    {r : List Lexeme} (pos : Text.Position) (g : Term → Term)
    (h : outcome form c = outcome (appRest i) r >>= fun x => .ok (f x.1, x.2)) :
    (outcome form c >>= fun p => outcome (arguments pos (g p.1)) p.2) =
      outcome (appRest i) r >>= fun x => .ok (g (f x.1), x.2) := by
  rw [h, bind_assoc]
  refine bind_congr_of_ok fun x hx => ?_
  exact arguments_of_endsApp (endsApp_of_arguments hx) pos _

theorem atom_of_opensForm {l : Lexeme} (h : l.token.opensForm) (ls : List Lexeme) :
    outcome atom (l :: ls) = outcome form (l :: ls) := by
  rw [atom_cons]
  cases hl : l.token <;> simp_all [Token.opensForm]

theorem startsTerm_of_opensForm {t : Token} (h : t.opensForm) : t.startsTerm := by
  cases t <;> simp_all [Token.opensForm, Token.startsTerm]

theorem ne_lbrk_of_startsTerm {t : Token} (h : t.startsTerm) : t ≠ .lbrk := by
  rintro rfl
  simp [Token.startsTerm] at h

theorem passes_arg {c₁ c₂ : List Lexeme} (h₁ : Passes .atom c₁) (h₂ : Passes .args c₂) :
    Passes .args (c₁ ++ c₂) := by
  rintro ⟨pos, head⟩
  obtain ⟨l, hl, h₁⟩ := h₁
  obtain ⟨c, rfl⟩ := List.head?_eq_some_iff.mp hl
  rcases h₁ with ⟨hstarts, -, t, ht⟩ | ⟨hopens, i, f, hf⟩
  · refine GoesOn.of_tail (h₂ (pos, .app pos head t)) id fun r => ?_
    have harg : outcome (appRest (pos, head)) (l :: c ++ c₂ ++ r) =
        outcome (appRest (pos, .app pos head t)) (c₂ ++ r) := by
      change outcome (arguments pos head) _ = outcome (arguments pos _) _
      rw [List.append_assoc, List.cons_append, arguments_cons, if_neg (ne_lbrk_of_startsTerm hstarts),
        if_pos hstarts, ← List.cons_append, ht]
      rfl
    rw [harg]
    cases outcome (appRest (pos, .app pos head t)) (c₂ ++ r) <;> rfl
  · -- the form takes the arguments that follow it
    obtain ⟨j, g, hg⟩ := h₂ i
    refine ⟨j, fun t => .app pos head (f (g t)), fun r => ?_⟩
    have hform : outcome form (l :: (c ++ c₂ ++ r)) =
        outcome (appRest j) r >>= fun x => .ok (f (g x.1), x.2) := by
      have h := hf (c₂ ++ r)
      rw [hg r, bind_assoc] at h
      simpa using h
    change outcome (arguments pos head) _ = _
    have hstarts := startsTerm_of_opensForm hopens
    rw [List.cons_append, List.cons_append, arguments_cons,
      if_neg (ne_lbrk_of_startsTerm hstarts), if_pos hstarts, atom_of_opensForm hopens]
    exact form_bind_arguments (f := fun t => f (g t)) pos (.app pos head) hform

theorem passes_tyArg {c₁ c₂ : List Lexeme} {l l' : Lexeme} (hl : l.token = .lbrk)
    (hl' : l'.token = .rbrk) (h₁ : Passes .type c₁) (h₂ : Passes .args c₂) :
    Passes .args (l :: (c₁ ++ l' :: c₂)) := by
  rintro ⟨pos, head⟩
  obtain ⟨a, ha⟩ := GoesOn.eq_ok_of_endsType h₁
  refine GoesOn.of_tail (h₂ (pos, .tyApp pos head a)) id fun r => ?_
  have hends : EndsType (l' :: (c₂ ++ r)) := by simp [EndsType, hl']
  have harg : outcome (arguments pos head) (l :: (c₁ ++ l' :: c₂) ++ r) =
      outcome (arguments pos (.tyApp pos head a)) (c₂ ++ r) := by
    simp [arguments_cons, hl, ha _ hends, expect_cons, hl']
  change outcome (arguments pos head) _ = outcome (arguments pos _) _ >>= _
  rw [harg]
  cases outcome (arguments pos (.tyApp pos head a)) (c₂ ++ r) <;> rfl

theorem passes_app {c₁ c₂ : List Lexeme} (h₁ : Passes .atom c₁) (h₂ : Passes .args c₂) :
    Passes .app (c₁ ++ c₂) := by
  obtain ⟨l, hl, h₁⟩ := h₁
  obtain ⟨c, rfl⟩ := List.head?_eq_some_iff.mp hl
  rcases h₁ with ⟨-, hform, t, ht⟩ | ⟨hopens, i, f, hf⟩
  · refine GoesOn.of_tail (h₂ (l.pos, t)) id fun r => ?_
    have hterm : outcome term (l :: c ++ c₂ ++ r) = outcome (arguments l.pos t) (c₂ ++ r) := by
      rw [List.append_assoc, List.cons_append, term_cons, if_neg (by simp [hform]),
        ← List.cons_append, ht]
      rfl
    change _ = outcome (arguments l.pos t) _ >>= _
    rw [hterm]
    cases outcome (arguments l.pos t) (c₂ ++ r) <;> rfl
  · obtain ⟨j, g, hg⟩ := h₂ i
    refine ⟨j, f ∘ g, fun r => ?_⟩
    have h := hf (c₂ ++ r)
    rw [hg r, bind_assoc] at h
    rw [List.cons_append, List.cons_append, term_cons, if_pos hopens]
    simpa using h

theorem passes_atom_of_closed {c : List Lexeme} {l : Lexeme} (hl : l ∈ c.head?)
    (hstarts : l.token.startsTerm) (hform : l.token.opensForm = false) {t : Term}
    (ht : ∀ r, outcome atom (c ++ r) = .ok (t, r)) : Passes .atom c :=
  ⟨l, hl, .inl ⟨hstarts, hform, t, ht⟩⟩

theorem passes_parens {c : List Lexeme} {l l' : Lexeme} (hl : l.token = .lpar)
    (hl' : l'.token = .rpar) (h : Passes .term c) : Passes .atom (l :: (c ++ [l'])) := by
  obtain ⟨t, ht⟩ := GoesOn.eq_ok_of_endsApp h
  refine passes_atom_of_closed (t := t) rfl (by rw [hl]; rfl) (by rw [hl]; rfl) fun r => ?_
  have hends : EndsApp (l' :: r) := by simp [EndsApp, hl', Token.startsTerm]
  simp [atom_cons, hl, ht _ hends, expect_cons, hl']

theorem passes_varBinding {x : String} {c : List Lexeme} {l : Lexeme} (hl : l.token = .var x)
    (h : Passes .ascription c) : Passes .binding (l :: c) := by
  obtain ⟨ty, hty⟩ := h
  refine ⟨(x, .var ty), fun r hr => ?_⟩
  have hends : ∀ k ∈ r.head?, k.token ≠ .colon ∧ k.token ≠ .arrow := fun k hk => by simp [hr k hk]
  simp [binding_cons, hl, hty r hends]

theorem context_of_binding {c r : List Lexeme} {b : String × Binding} {bs : Context}
    (hb : outcome binding (c ++ r) = .ok (b, r)) (hr : outcome moreContext r = .ok (bs, [])) :
    outcome context (c ++ r) = .ok (b :: bs, []) := by
  cases hc : c ++ r with
  | nil =>
    rw [hc, binding_nil] at hb
    simp at hb
  | cons l ls =>
    rw [hc] at hb
    simp [context_cons, hb, hr]

theorem passes_oneBinding {c : List Lexeme} (h : Passes .binding c) : Passes .bindings c := by
  obtain ⟨b, hb⟩ := h
  refine ⟨[b], ?_, fun l hl => ?_⟩
  · have h := context_of_binding (hb [] (by simp)) moreContext_nil
    rwa [List.append_nil] at h
  · refine context_of_binding (hb [l] (by simpa using hl)) ?_
    simp [moreContext_cons, hl, context_nil]

theorem passes_bindingsComma {c₁ c₂ : List Lexeme} {l : Lexeme} (hl : l.token = .comma)
    (h₁ : Passes .binding c₁) (h₂ : Passes .bindings c₂) : Passes .bindings (c₁ ++ l :: c₂) := by
  obtain ⟨b, hb⟩ := h₁
  obtain ⟨bs, hbs, hcomma⟩ := h₂
  refine ⟨b :: bs, ?_, fun k hk => ?_⟩
  · refine context_of_binding (hb (l :: c₂) (by simpa using hl)) ?_
    simp [moreContext_cons, hl, hbs]
  · rw [List.append_assoc, List.cons_append]
    refine context_of_binding (hb (l :: (c₂ ++ [k])) (by simpa using hl)) ?_
    simp [moreContext_cons, hl, hcomma k hk]

/-- The parsers get past all lexemes that the grammar derives. -/
theorem passes_of_derives {s : Symbol} {w : List Token} (h : Derives s w) {c : List Lexeme}
    (hc : tokens c = w) : Passes s c := by
  induction h generalizing c with
  | ident x =>
    obtain ⟨l, hl, rfl⟩ := tokens_eq_singleton_iff.mp hc
    exact passes_ident hl
  | identsComma x _ ih =>
    obtain ⟨l, _, rfl, hl, hc⟩ := tokens_eq_cons_iff.mp hc
    obtain ⟨l', c', rfl, hl', hc'⟩ := tokens_eq_cons_iff.mp hc
    exact passes_identsComma hl hl' (ih hc')
  | typeArg _ ih => exact passes_typeArg (ih hc)
  | arrow _ _ ihw ihv =>
    obtain ⟨c₁, _, rfl, hc₁, hc⟩ := tokens_eq_append_iff.mp hc
    obtain ⟨l, c₂, rfl, hl, hc₂⟩ := tokens_eq_cons_iff.mp hc
    exact passes_arrow hl (ihw hc₁) (ihv hc₂)
  | bool =>
    obtain ⟨l, hl, rfl⟩ := tokens_eq_singleton_iff.mp hc
    exact .inl ⟨.bool, fun r => by simp [typeArg_cons, hl]⟩
  | tyVar x =>
    obtain ⟨l, hl, rfl⟩ := tokens_eq_singleton_iff.mp hc
    exact .inl ⟨.var x, fun r => by simp [typeArg_cons, hl]⟩
  | typeParens _ ih =>
    obtain ⟨l, _, rfl, hl, hc⟩ := tokens_eq_cons_iff.mp hc
    obtain ⟨c', _, rfl, hc', hc⟩ := tokens_eq_append_iff.mp hc
    obtain ⟨l', hl', rfl⟩ := tokens_eq_singleton_iff.mp hc
    exact passes_typeParens hl hl' (ih hc')
  | quantified _ ih => exact .inr (ih hc)
  | forAll _ _ ihw ihv =>
    obtain ⟨l, _, rfl, hl, hc⟩ := tokens_eq_cons_iff.mp hc
    obtain ⟨c₁, _, rfl, hc₁, hc⟩ := tokens_eq_append_iff.mp hc
    obtain ⟨l', c₂, rfl, hl', hc₂⟩ := tokens_eq_cons_iff.mp hc
    exact passes_forAll hl hl' (ihw hc₁) (ihv hc₂)
  | noType =>
    obtain rfl := tokens_eq_nil_iff.mp hc
    exact passes_noType
  | ofType _ ih =>
    obtain ⟨l, c', rfl, hl, hc'⟩ := tokens_eq_cons_iff.mp hc
    exact passes_ofType hl (ih hc')
  | form _ ih => exact passes_form (ih hc)
  | app _ ih => exact ih hc
  | letIn x _ _ ihw ihv =>
    obtain ⟨l₀, _, rfl, h₀, hc⟩ := tokens_eq_cons_iff.mp hc
    obtain ⟨l₁, _, rfl, h₁, hc⟩ := tokens_eq_cons_iff.mp hc
    obtain ⟨l₂, _, rfl, h₂, hc⟩ := tokens_eq_cons_iff.mp hc
    obtain ⟨c₁, _, rfl, hc₁, hc⟩ := tokens_eq_append_iff.mp hc
    obtain ⟨l₃, c₂, rfl, h₃, hc₂⟩ := tokens_eq_cons_iff.mp hc
    exact passes_letIn h₀ h₁ h₂ h₃ (ihw hc₁) (ihv hc₂)
  | ite _ _ _ ihu ihw ihv =>
    obtain ⟨l₀, _, rfl, h₀, hc⟩ := tokens_eq_cons_iff.mp hc
    obtain ⟨c₁, _, rfl, hc₁, hc⟩ := tokens_eq_append_iff.mp hc
    obtain ⟨l₁, _, rfl, h₁, hc⟩ := tokens_eq_cons_iff.mp hc
    obtain ⟨c₂, _, rfl, hc₂, hc⟩ := tokens_eq_append_iff.mp hc
    obtain ⟨l₂, c₃, rfl, h₂, hc₃⟩ := tokens_eq_cons_iff.mp hc
    exact passes_ite h₀ h₁ h₂ (ihu hc₁) (ihw hc₂) (ihv hc₃)
  | abs x _ _ ihw ihv =>
    obtain ⟨l₀, _, rfl, h₀, hc⟩ := tokens_eq_cons_iff.mp hc
    obtain ⟨l₁, _, rfl, h₁, hc⟩ := tokens_eq_cons_iff.mp hc
    obtain ⟨c₁, _, rfl, hc₁, hc⟩ := tokens_eq_append_iff.mp hc
    obtain ⟨l₂, c₂, rfl, h₂, hc₂⟩ := tokens_eq_cons_iff.mp hc
    exact passes_abs h₀ h₁ h₂ (ihw hc₁) (ihv hc₂)
  | tyAbs x _ ih =>
    obtain ⟨l₀, _, rfl, h₀, hc⟩ := tokens_eq_cons_iff.mp hc
    obtain ⟨l₁, _, rfl, h₁, hc⟩ := tokens_eq_cons_iff.mp hc
    obtain ⟨l₂, c', rfl, h₂, hc'⟩ := tokens_eq_cons_iff.mp hc
    exact passes_tyAbs h₀ h₁ h₂ (ih hc')
  | atomArgs _ _ ihw ihv =>
    obtain ⟨c₁, c₂, rfl, hc₁, hc₂⟩ := tokens_eq_append_iff.mp hc
    exact passes_app (ihw hc₁) (ihv hc₂)
  | noArgs =>
    obtain rfl := tokens_eq_nil_iff.mp hc
    exact passes_noArgs
  | arg _ _ ihw ihv =>
    obtain ⟨c₁, c₂, rfl, hc₁, hc₂⟩ := tokens_eq_append_iff.mp hc
    exact passes_arg (ihw hc₁) (ihv hc₂)
  | tyArg _ _ ihw ihv =>
    obtain ⟨l, _, rfl, hl, hc⟩ := tokens_eq_cons_iff.mp hc
    obtain ⟨c₁, _, rfl, hc₁, hc⟩ := tokens_eq_append_iff.mp hc
    obtain ⟨l', c₂, rfl, hl', hc₂⟩ := tokens_eq_cons_iff.mp hc
    exact passes_tyArg hl hl' (ihw hc₁) (ihv hc₂)
  | var x =>
    obtain ⟨l, hl, rfl⟩ := tokens_eq_singleton_iff.mp hc
    exact passes_atom_of_closed (t := .var l.pos x) rfl (by rw [hl]; rfl) (by rw [hl]; rfl)
      fun r => by simp [atom_cons, hl]
  | true =>
    obtain ⟨l, hl, rfl⟩ := tokens_eq_singleton_iff.mp hc
    exact passes_atom_of_closed (t := .const l.pos .true) rfl (by rw [hl]; rfl) (by rw [hl]; rfl)
      fun r => by simp [atom_cons, hl]
  | false =>
    obtain ⟨l, hl, rfl⟩ := tokens_eq_singleton_iff.mp hc
    exact passes_atom_of_closed (t := .const l.pos .false) rfl (by rw [hl]; rfl) (by rw [hl]; rfl)
      fun r => by simp [atom_cons, hl]
  | parens _ ih =>
    obtain ⟨l, _, rfl, hl, hc⟩ := tokens_eq_cons_iff.mp hc
    obtain ⟨c', _, rfl, hc', hc⟩ := tokens_eq_append_iff.mp hc
    obtain ⟨l', hl', rfl⟩ := tokens_eq_singleton_iff.mp hc
    exact passes_parens hl hl' (ih hc')
  | atomForm _ ih =>
    obtain ⟨⟨l, hl, hopens⟩, h⟩ := ih hc
    exact ⟨l, hl, .inr ⟨hopens, h⟩⟩
  | varBinding x _ ih =>
    obtain ⟨l, c', rfl, hl, hc'⟩ := tokens_eq_cons_iff.mp hc
    exact passes_varBinding hl (ih hc')
  | tyVarBinding x =>
    obtain ⟨l, hl, rfl⟩ := tokens_eq_singleton_iff.mp hc
    exact ⟨(x, .tyVar), fun r _ => by simp [binding_cons, hl]⟩
  | oneBinding _ ih => exact passes_oneBinding (ih hc)
  | bindingsComma _ _ ihw ihv =>
    obtain ⟨c₁, _, rfl, hc₁, hc⟩ := tokens_eq_append_iff.mp hc
    obtain ⟨l, c₂, rfl, hl, hc₂⟩ := tokens_eq_cons_iff.mp hc
    exact passes_bindingsComma hl (ihw hc₁) (ihv hc₂)
  | noBindings =>
    obtain rfl := tokens_eq_nil_iff.mp hc
    exact ⟨[], context_nil⟩
  | bindings _ ih =>
    obtain ⟨bs, hbs, -⟩ := ih hc
    exact ⟨bs, hbs⟩
  | trailingComma _ ih =>
    obtain ⟨c', _, rfl, hc', hc⟩ := tokens_eq_append_iff.mp hc
    obtain ⟨l, hl, rfl⟩ := tokens_eq_singleton_iff.mp hc
    obtain ⟨bs, -, hbs⟩ := ih hc'
    exact ⟨bs, hbs l hl⟩

end Parser

end LambdaTyping.Surface
