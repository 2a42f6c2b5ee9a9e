import Mathlib
import LambdaTyping.Proofs.SyntaxErrors

/-!
# Parse trees

Which tree a source stands for. The grammar alone leaves it open, so readings are defined
apart from the parsers: they build the tree as the grammar does, and every form and every
quantified type has to reach as far to the right as the grammar allows.

That a parser reads in this way follows from completeness, since it goes on through all that
the grammar derives. That no other reading exists is shown by following a reading with the
parser: both stop at the same places, so they find the same parts.
-/
namespace LambdaTyping.Surface

namespace Parser

/-- A symbol of the grammar with what was written. Arguments belong to an application that starts
at a given place and has been read up to a given head. -/
inductive Phrase where
  | idents (xs : List String)
  | type (a : Ty)
  | typeArg (a : Ty)
  | quantified (a : Ty)
  | ascription (ty : Option Ty)
  | term (t : Term)
  | form (t : Term)
  | args (pos : Text.Position) (head t : Term)
  | atom (t : Term)
  | binding (b : String × Binding)
  | context (bs : Context)

def Phrase.symbol : Phrase → Symbol
  | idents _ => .idents
  | type _ => .type
  | typeArg _ => .typeArg
  | quantified _ => .quantified
  | ascription _ => .ascription
  | term _ => .term
  | form _ => .form
  | args _ _ _ => .args
  | atom _ => .atom
  | binding _ => .binding
  | context _ => .context

/-- No start of the lexemes that is longer than what is in front of `rest` is derived. -/
def Farthest (s : Symbol) (ls rest : List Lexeme) : Prop :=
  ∀ w v, tokens ls = w ++ v → Derives s w → rest.length ≤ v.length

/-- Lexemes are read as a phrase, with some of them left. Applications associate to the left:
each argument is added to all that has been read in front of it. Arrows associate to the right.
A form is only read as a term, as a head or as an argument, and a quantified type only as a
type, where it reaches as far as possible. -/
inductive Reads : Phrase → List Lexeme → List Lexeme → Prop
  | ident {x : String} {l : Lexeme} {rest : List Lexeme} (hl : l.token = .tyVar x) :
      Reads (.idents [x]) (l :: rest) rest
  | identsComma {x : String} {xs : List String} {l k : Lexeme} {ls rest : List Lexeme}
      (hl : l.token = .tyVar x) (hk : k.token = .comma) (h : Reads (.idents xs) ls rest) :
      Reads (.idents (x :: xs)) (l :: k :: ls) rest
  | typeArg {a : Ty} {ls rest : List Lexeme} (h : Reads (.typeArg a) ls rest) :
      Reads (.type a) ls rest
  | arrow {a b : Ty} {k : Lexeme} {ls ls₁ rest : List Lexeme} (hk : k.token = .arrow)
      (h₁ : Reads (.typeArg a) ls (k :: ls₁)) (h₂ : Reads (.type b) ls₁ rest) :
      Reads (.type (.arr a b)) ls rest
  | bool {l : Lexeme} {rest : List Lexeme} (hl : l.token = .boolKw) :
      Reads (.typeArg .bool) (l :: rest) rest
  | tyVar {x : String} {l : Lexeme} {rest : List Lexeme} (hl : l.token = .tyVar x) :
      Reads (.typeArg (.var x)) (l :: rest) rest
  | typeParens {a : Ty} {l k : Lexeme} {ls rest : List Lexeme} (hl : l.token = .lpar)
      (hk : k.token = .rpar) (h : Reads (.type a) ls (k :: rest)) :
      Reads (.typeArg a) (l :: ls) rest
  | quantified {a : Ty} {ls rest : List Lexeme} (h : Reads (.quantified a) ls rest)
      (hfar : Farthest .quantified ls rest) : Reads (.typeArg a) ls rest
  | forAll {xs : List String} {a : Ty} {l k : Lexeme} {ls ls₁ rest : List Lexeme}
      (hl : l.token = .forAll) (hk : k.token = .dot) (h₁ : Reads (.idents xs) ls (k :: ls₁))
      (h₂ : Reads (.type a) ls₁ rest) : Reads (.quantified (.allOf xs a)) (l :: ls) rest
  | noType {rest : List Lexeme} : Reads (.ascription none) rest rest
  | ofType {a : Ty} {l : Lexeme} {ls rest : List Lexeme} (hl : l.token = .colon)
      (h : Reads (.type a) ls rest) : Reads (.ascription (some a)) (l :: ls) rest
  | form {t : Term} {ls rest : List Lexeme} (h : Reads (.form t) ls rest)
      (hfar : Farthest .form ls rest) : Reads (.term t) ls rest
  | app {head t : Term} {l : Lexeme} {ls ls₁ rest : List Lexeme}
      (h₁ : Reads (.atom head) (l :: ls) ls₁) (h₂ : Reads (.args l.pos head t) ls₁ rest) :
      Reads (.term t) (l :: ls) rest
  | letIn {x : String} {e t : Term} {l k₁ k₂ k₃ : Lexeme} {ls ls₁ rest : List Lexeme}
      (hl : l.token = .letKw) (hk₁ : k₁.token = .var x) (hk₂ : k₂.token = .eq)
      (hk₃ : k₃.token = .inKw) (h₁ : Reads (.term e) ls (k₃ :: ls₁))
      (h₂ : Reads (.term t) ls₁ rest) :
      Reads (.form (.letIn l.pos x e t)) (l :: k₁ :: k₂ :: ls) rest
  | ite {c t e : Term} {l k₁ k₂ : Lexeme} {ls ls₁ ls₂ rest : List Lexeme}
      (hl : l.token = .ifKw) (hk₁ : k₁.token = .thenKw) (hk₂ : k₂.token = .elseKw)
      (h₁ : Reads (.term c) ls (k₁ :: ls₁)) (h₂ : Reads (.term t) ls₁ (k₂ :: ls₂))
      (h₃ : Reads (.term e) ls₂ rest) : Reads (.form (.ite l.pos c t e)) (l :: ls) rest
  | abs {x : String} {ty : Option Ty} {t : Term} {l k₁ k₂ : Lexeme} {ls ls₁ rest : List Lexeme}
      (hl : l.token = .lambda) (hk₁ : k₁.token = .var x) (hk₂ : k₂.token = .dot)
      (h₁ : Reads (.ascription ty) ls (k₂ :: ls₁)) (h₂ : Reads (.term t) ls₁ rest) :
      Reads (.form (.abs l.pos x ty t)) (l :: k₁ :: ls) rest
  | tyAbs {x : String} {t : Term} {l k₁ k₂ : Lexeme} {ls rest : List Lexeme}
      (hl : l.token = .bigLambda) (hk₁ : k₁.token = .tyVar x) (hk₂ : k₂.token = .dot)
      (h : Reads (.term t) ls rest) : Reads (.form (.tyAbs l.pos x t)) (l :: k₁ :: k₂ :: ls) rest
  | noArgs {pos : Text.Position} {head : Term} {rest : List Lexeme} :
      Reads (.args pos head head) rest rest
  | arg {pos : Text.Position} {head u t : Term} {ls ls₁ rest : List Lexeme}
      (h₁ : Reads (.atom u) ls ls₁) (h₂ : Reads (.args pos (.app pos head u) t) ls₁ rest) :
      Reads (.args pos head t) ls rest
  | tyArg {pos : Text.Position} {head t : Term} {a : Ty} {l k : Lexeme} {ls ls₁ rest : List Lexeme}
      (hl : l.token = .lbrk) (hk : k.token = .rbrk) (h₁ : Reads (.type a) ls (k :: ls₁))
      (h₂ : Reads (.args pos (.tyApp pos head a) t) ls₁ rest) :
      Reads (.args pos head t) (l :: ls) rest
  | var {x : String} {l : Lexeme} {rest : List Lexeme} (hl : l.token = .var x) :
      Reads (.atom (.var l.pos x)) (l :: rest) rest
  | true {l : Lexeme} {rest : List Lexeme} (hl : l.token = .trueKw) :
      Reads (.atom (.const l.pos .true)) (l :: rest) rest
  | false {l : Lexeme} {rest : List Lexeme} (hl : l.token = .falseKw) :
      Reads (.atom (.const l.pos .false)) (l :: rest) rest
  | parens {t : Term} {l k : Lexeme} {ls rest : List Lexeme} (hl : l.token = .lpar)
      (hk : k.token = .rpar) (h : Reads (.term t) ls (k :: rest)) : Reads (.atom t) (l :: ls) rest
  | atomForm {t : Term} {ls rest : List Lexeme} (h : Reads (.form t) ls rest)
      (hfar : Farthest .form ls rest) : Reads (.atom t) ls rest
  | varBinding {x : String} {ty : Option Ty} {l : Lexeme} {ls rest : List Lexeme}
      (hl : l.token = .var x) (h : Reads (.ascription ty) ls rest) :
      Reads (.binding (x, .var ty)) (l :: ls) rest
  | tyVarBinding {x : String} {l : Lexeme} {rest : List Lexeme} (hl : l.token = .tyVar x) :
      Reads (.binding (x, .tyVar)) (l :: rest) rest
  | noBindings : Reads (.context []) [] []
  | oneBinding {b : String × Binding} {ls rest : List Lexeme} (h : Reads (.binding b) ls rest) :
      Reads (.context [b]) ls rest
  | bindingsComma {b : String × Binding} {bs : Context} {k : Lexeme} {ls ls₁ rest : List Lexeme}
      (hk : k.token = .comma) (h₁ : Reads (.binding b) ls (k :: ls₁))
      (h₂ : Reads (.context bs) ls₁ rest) : Reads (.context (b :: bs)) ls rest

namespace Reads

/-- What has been read is derived by the symbol of the phrase. -/
theorem derives {φ : Phrase} {ls rest : List Lexeme} (h : Reads φ ls rest) :
    ∃ c, ls = c ++ rest ∧ Derives φ.symbol (tokens c) := by
  induction h with
  | @ident x l rest hl => exact ⟨[l], rfl, by simpa [hl] using .ident x⟩
  | @identsComma x xs l k ls rest hl hk _ ih =>
    obtain ⟨c, rfl, hc⟩ := ih
    exact ⟨l :: k :: c, rfl, by simpa [hl, hk] using .identsComma x hc⟩
  | typeArg _ ih =>
    obtain ⟨c, rfl, hc⟩ := ih
    exact ⟨c, rfl, .typeArg hc⟩
  | @arrow a b k ls ls₁ rest hk _ _ ih₁ ih₂ =>
    obtain ⟨c₁, rfl, hc₁⟩ := ih₁
    obtain ⟨c₂, rfl, hc₂⟩ := ih₂
    exact ⟨c₁ ++ k :: c₂, by simp, by simpa [hk] using .arrow hc₁ hc₂⟩
  | @bool l rest hl => exact ⟨[l], rfl, by simpa [hl] using .bool⟩
  | @tyVar x l rest hl => exact ⟨[l], rfl, by simpa [hl] using .tyVar x⟩
  | @typeParens a l k ls rest hl hk _ ih =>
    obtain ⟨c, rfl, hc⟩ := ih
    exact ⟨l :: (c ++ [k]), by simp, by simpa [hl, hk] using .typeParens hc⟩
  | quantified _ _ ih =>
    obtain ⟨c, rfl, hc⟩ := ih
    exact ⟨c, rfl, .quantified hc⟩
  | @forAll xs a l k ls ls₁ rest hl hk _ _ ih₁ ih₂ =>
    obtain ⟨c₁, rfl, hc₁⟩ := ih₁
    obtain ⟨c₂, rfl, hc₂⟩ := ih₂
    exact ⟨l :: (c₁ ++ k :: c₂), by simp, by simpa [hl, hk] using .forAll hc₁ hc₂⟩
  | noType => exact ⟨[], rfl, .noType⟩
  | @ofType a l ls rest hl _ ih =>
    obtain ⟨c, rfl, hc⟩ := ih
    exact ⟨l :: c, rfl, by simpa [hl] using .ofType hc⟩
  | form _ _ ih =>
    obtain ⟨c, rfl, hc⟩ := ih
    exact ⟨c, rfl, .form hc⟩
  | app _ _ ih₁ ih₂ =>
    obtain ⟨c₁, h, hc₁⟩ := ih₁
    obtain ⟨c₂, rfl, hc₂⟩ := ih₂
    exact ⟨c₁ ++ c₂, by simpa using h, by simpa using .app (.atomArgs hc₁ hc₂)⟩
  | @letIn x e t l k₁ k₂ k₃ ls ls₁ rest hl hk₁ hk₂ hk₃ _ _ ih₁ ih₂ =>
    obtain ⟨c₁, rfl, hc₁⟩ := ih₁
    obtain ⟨c₂, rfl, hc₂⟩ := ih₂
    exact ⟨l :: k₁ :: k₂ :: (c₁ ++ k₃ :: c₂), by simp,
      by simpa [hl, hk₁, hk₂, hk₃] using .letIn x hc₁ hc₂⟩
  | @ite c t e l k₁ k₂ ls ls₁ ls₂ rest hl hk₁ hk₂ _ _ _ ih₁ ih₂ ih₃ =>
    obtain ⟨c₁, rfl, hc₁⟩ := ih₁
    obtain ⟨c₂, rfl, hc₂⟩ := ih₂
    obtain ⟨c₃, rfl, hc₃⟩ := ih₃
    exact ⟨l :: (c₁ ++ k₁ :: (c₂ ++ k₂ :: c₃)), by simp,
      by simpa [hl, hk₁, hk₂] using .ite hc₁ hc₂ hc₃⟩
  | @abs x ty t l k₁ k₂ ls ls₁ rest hl hk₁ hk₂ _ _ ih₁ ih₂ =>
    obtain ⟨c₁, rfl, hc₁⟩ := ih₁
    obtain ⟨c₂, rfl, hc₂⟩ := ih₂
    exact ⟨l :: k₁ :: (c₁ ++ k₂ :: c₂), by simp, by simpa [hl, hk₁, hk₂] using .abs x hc₁ hc₂⟩
  | @tyAbs x t l k₁ k₂ ls rest hl hk₁ hk₂ _ ih =>
    obtain ⟨c, rfl, hc⟩ := ih
    exact ⟨l :: k₁ :: k₂ :: c, rfl, by simpa [hl, hk₁, hk₂] using .tyAbs x hc⟩
  | noArgs => exact ⟨[], rfl, .noArgs⟩
  | arg _ _ ih₁ ih₂ =>
    obtain ⟨c₁, rfl, hc₁⟩ := ih₁
    obtain ⟨c₂, rfl, hc₂⟩ := ih₂
    exact ⟨c₁ ++ c₂, by simp, by simpa using .arg hc₁ hc₂⟩
  | @tyArg pos head t a l k ls ls₁ rest hl hk _ _ ih₁ ih₂ =>
    obtain ⟨c₁, rfl, hc₁⟩ := ih₁
    obtain ⟨c₂, rfl, hc₂⟩ := ih₂
    exact ⟨l :: (c₁ ++ k :: c₂), by simp, by simpa [hl, hk] using .tyArg hc₁ hc₂⟩
  | @var x l rest hl => exact ⟨[l], rfl, by simpa [hl] using .var x⟩
  | @true l rest hl => exact ⟨[l], rfl, by simpa [hl] using .true⟩
  | @false l rest hl => exact ⟨[l], rfl, by simpa [hl] using .false⟩
  | @parens t l k ls rest hl hk _ ih =>
    obtain ⟨c, rfl, hc⟩ := ih
    exact ⟨l :: (c ++ [k]), by simp, by simpa [hl, hk] using .parens hc⟩
  | atomForm _ _ ih =>
    obtain ⟨c, rfl, hc⟩ := ih
    exact ⟨c, rfl, .atomForm hc⟩
  | @varBinding x ty l ls rest hl _ ih =>
    obtain ⟨c, rfl, hc⟩ := ih
    exact ⟨l :: c, rfl, by simpa [hl] using .varBinding x hc⟩
  | @tyVarBinding x l rest hl => exact ⟨[l], rfl, by simpa [hl] using .tyVarBinding x⟩
  | noBindings => exact ⟨[], rfl, .noBindings⟩
  | oneBinding _ ih =>
    obtain ⟨c, rfl, hc⟩ := ih
    exact ⟨c, rfl, .bindings (.oneBinding hc)⟩
  | @bindingsComma b bs k ls ls₁ rest hk _ _ ih₁ ih₂ =>
    obtain ⟨c₁, rfl, hc₁⟩ := ih₁
    obtain ⟨c₂, rfl, hc₂⟩ := ih₂
    refine ⟨c₁ ++ k :: c₂, by simp, ?_⟩
    have hc := derives_context_of_binding hc₁ (.inr ⟨_, rfl, hc₂⟩)
    rwa [← hk, ← tokens_cons, ← tokens_append] at hc

end Reads

theorem GoesOn.length_le {α ι : Type} {b : List Lexeme → Nat}
    {q : ι → (ls : List Lexeme) → Parsed α (ls.length + 1)}
    {p : (ls : List Lexeme) → Parsed α (b ls)} {c r rest : List Lexeme} {a : α}
    (h : GoesOn q p c) (hp : outcome p (c ++ r) = .ok (a, rest)) :
    rest.length ≤ r.length := by
  obtain ⟨i, f, hf⟩ := h
  rw [hf r] at hp
  obtain ⟨⟨u, rest'⟩, hu, hp⟩ := bind_eq_ok_iff.mp hp
  cases hp
  exact Nat.le_of_lt_succ (length_lt_of_outcome hu)

theorem length_tokens (ls : List Lexeme) : (tokens ls).length = ls.length := List.length_map ..

theorem farthest_form {t : Term} {ls rest : List Lexeme} (h : outcome form ls = .ok (t, rest)) :
    Farthest .form ls rest := by
  intro w v hw hd
  obtain ⟨c, r, rfl, hc, rfl⟩ := tokens_eq_append_iff.mp hw
  rw [length_tokens]
  exact GoesOn.length_le (passes_of_derives hd hc).2 h

theorem farthest_quantified {a : Ty} {ls rest : List Lexeme}
    (h : outcome typeArg ls = .ok (a, rest)) : Farthest .quantified ls rest := by
  intro w v hw hd
  obtain ⟨c, r, rfl, hc, rfl⟩ := tokens_eq_append_iff.mp hw
  rw [length_tokens]
  exact GoesOn.length_le (passes_of_derives hd hc) h

theorem fitsAt_form (ls : List Lexeme) : FitsAt (outcome form) (words .form) ls :=
  fitsAt_form_of fun ls' _ => fitsAt_term ls'

theorem fitsAt_typeArg (ls : List Lexeme) : FitsAt (outcome typeArg) (words .typeArg) ls :=
  fitsAt_typeArg_of fun ls' _ => fitsAt_type ls'

/-- Two readings that both reach as far as possible stop at the same place. -/
theorem Farthest.eq {s : Symbol} {c c' rest rest' : List Lexeme} (h : c ++ rest = c' ++ rest')
    (hc : Derives s (tokens c)) (hc' : Derives s (tokens c')) (hfar : Farthest s (c ++ rest) rest)
    (hfar' : Farthest s (c ++ rest) rest') : rest' = rest := by
  have hle := hfar (tokens c') (tokens rest') (by rw [h, tokens_append]) hc'
  have hle' := hfar' (tokens c) (tokens rest) (by rw [tokens_append]) hc
  rw [length_tokens] at hle hle'
  exact (List.append_inj' h (le_antisymm hle hle')).2.symm

theorem form_rest {t u : Term} {ls rest rest' : List Lexeme} (h : Reads (.form t) ls rest)
    (hfar : Farthest .form ls rest) (hp : outcome form ls = .ok (u, rest')) : rest' = rest := by
  obtain ⟨c, rfl, hc⟩ := h.derives
  obtain ⟨c', hls, hc', -⟩ := (fitsAt_form _).of_ok hp
  exact Farthest.eq hls hc hc' hfar (farthest_form hp)

/-- Only lists of arguments, ascriptions and contexts can be empty. -/
theorem ne_nil_of_derives {s : Symbol} {w : List Token} (h : Derives s w)
    (hs : s ≠ .args ∧ s ≠ .ascription ∧ s ≠ .context) : w ≠ [] := by
  induction h <;> simp_all

/-- A form takes all arguments that follow it. -/
theorem endsApp_of_form {t : Term} {ls rest : List Lexeme} (h : outcome form ls = .ok (t, rest)) :
    EndsApp rest := by
  obtain ⟨c, rfl, hc, -⟩ := (fitsAt_form _).of_ok h
  obtain ⟨-, i, f, hf⟩ := passes_of_derives hc rfl
  rw [hf rest] at h
  obtain ⟨⟨u, _⟩, hu, h⟩ := bind_eq_ok_iff.mp h
  cases h
  exact endsApp_of_arguments hu

theorem exists_forAll_of_derives {w : List Token} (h : Derives .quantified w) :
    ∃ v, w = .forAll :: v := by
  cases h with
  | forAll hw hv => exact ⟨_, rfl⟩

theorem derives_quantified_of_forAll {w : List Token} (h : Derives .typeArg (.forAll :: w)) :
    Derives .quantified (.forAll :: w) := by
  cases h with
  | quantified h => exact h

theorem quantified_rest {a b : Ty} {ls rest rest' : List Lexeme}
    (h : Reads (.quantified a) ls rest) (hfar : Farthest .quantified ls rest)
    (hp : outcome typeArg ls = .ok (b, rest')) : rest' = rest := by
  obtain ⟨c, rfl, hc⟩ := h.derives
  obtain ⟨c', hls, hc', -⟩ := (fitsAt_typeArg _).of_ok hp
  have hforAll : Derives .quantified (tokens c') := by
    obtain ⟨v, hv⟩ := exists_forAll_of_derives hc
    obtain ⟨l, c, rfl, hl, -⟩ := tokens_eq_cons_iff.mp hv
    cases c' with
    | nil => exact absurd rfl (ne_nil_of_derives hc' (by simp))
    | cons k c' =>
      obtain ⟨rfl, -⟩ := List.cons_eq_cons.mp hls
      rw [tokens_cons, hl] at hc' ⊢
      exact derives_quantified_of_forAll hc'
  exact Farthest.eq hls hc hforAll hfar (farthest_quantified hp)

theorem exists_type_of_reads {a : Ty} {ls rest : List Lexeme} (h : Reads (.type a) ls rest)
    (hends : EndsType rest) : ∃ b, outcome type ls = .ok (b, rest) := by
  obtain ⟨c, rfl, hc⟩ := h.derives
  obtain ⟨b, hb⟩ := GoesOn.eq_ok_of_endsType (passes_of_derives hc rfl)
  exact ⟨b, hb rest hends⟩

theorem exists_term_of_reads {t : Term} {ls rest : List Lexeme} (h : Reads (.term t) ls rest)
    (hends : EndsApp rest) : ∃ u, outcome term ls = .ok (u, rest) := by
  obtain ⟨c, rfl, hc⟩ := h.derives
  obtain ⟨u, hu⟩ := GoesOn.eq_ok_of_endsApp (passes_of_derives hc rfl)
  exact ⟨u, hu rest hends⟩

/-- If the parser stops where the phrase ends, then its result is the one of the phrase. -/
def Agrees : Phrase → List Lexeme → List Lexeme → Prop
  | .idents xs, ls, rest => ∀ ys, outcome tyIdents ls = .ok (ys, rest) → ys = xs
  | .type a, ls, rest => ∀ b, outcome type ls = .ok (b, rest) → b = a
  | .typeArg a, ls, rest | .quantified a, ls, rest =>
      ∀ b, outcome typeArg ls = .ok (b, rest) → b = a
  | .ascription ty, ls, rest => ∀ ty', outcome ascription ls = .ok (ty', rest) → ty' = ty
  | .term t, ls, rest => ∀ u, outcome term ls = .ok (u, rest) → u = t
  | .form t, ls, rest => ∀ u, outcome form ls = .ok (u, rest) → u = t
  | .args pos head t, ls, rest => ∀ u, outcome (arguments pos head) ls = .ok (u, rest) → u = t
  | .atom t, ls, rest => ∀ u, outcome atom ls = .ok (u, rest) → u = t
  | .binding b, ls, rest => ∀ b', outcome binding ls = .ok (b', rest) → b' = b
  | .context bs, ls, rest => ∀ bs', outcome context ls = .ok (bs', rest) → bs' = bs

theorem type_of_agrees {a : Ty} {ls rest : List Lexeme} (h : Reads (.type a) ls rest)
    (hagree : Agrees (.type a) ls rest) (hends : EndsType rest) :
    outcome type ls = .ok (a, rest) := by
  obtain ⟨b, hb⟩ := exists_type_of_reads h hends
  rw [hb, hagree b hb]

theorem term_of_agrees {t : Term} {ls rest : List Lexeme} (h : Reads (.term t) ls rest)
    (hagree : Agrees (.term t) ls rest) (hends : EndsApp rest) :
    outcome term ls = .ok (t, rest) := by
  obtain ⟨u, hu⟩ := exists_term_of_reads h hends
  rw [hu, hagree u hu]

theorem typeArg_rest {a b : Ty} {ls rest rest' : List Lexeme} (h : Reads (.typeArg a) ls rest)
    (hp : outcome typeArg ls = .ok (b, rest')) : rest' = rest := by
  cases h with
  | bool hl =>
    simp only [typeArg_cons, hl] at hp
    cases hp
    rfl
  | tyVar hl =>
    simp only [typeArg_cons, hl] at hp
    cases hp
    rfl
  | typeParens hl hk h =>
    obtain ⟨c, hc⟩ := exists_type_of_reads h (by simp [EndsType, hk])
    simp only [typeArg_cons, hl, hc, ok_bind, expect_cons, hk, if_true] at hp
    cases hp
    rfl
  | quantified h hfar => exact quantified_rest h hfar hp

theorem exists_opensForm_of_reads {t : Term} {ls rest : List Lexeme}
    (h : Reads (.form t) ls rest) : ∃ l ls', ls = l :: ls' ∧ l.token.opensForm := by
  cases h with
  | letIn hl | ite hl | abs hl | tyAbs hl => exact ⟨_, _, rfl, by rw [hl]; rfl⟩

theorem atom_rest {t u : Term} {ls rest rest' : List Lexeme} (h : Reads (.atom t) ls rest)
    (hp : outcome atom ls = .ok (u, rest')) : rest' = rest := by
  cases h with
  | var hl =>
    simp only [atom_cons, hl] at hp
    cases hp
    rfl
  | true hl =>
    simp only [atom_cons, hl] at hp
    cases hp
    rfl
  | false hl =>
    simp only [atom_cons, hl] at hp
    cases hp
    rfl
  | parens hl hk h =>
    obtain ⟨u, hu⟩ := exists_term_of_reads h (by simp [EndsApp, hk, Token.startsTerm])
    simp only [atom_cons, hl, hu, ok_bind, expect_cons, hk, if_true] at hp
    cases hp
    rfl
  | atomForm h hfar =>
    obtain ⟨l, ls, rfl, hopens⟩ := exists_opensForm_of_reads h
    rw [atom_of_opensForm hopens] at hp
    exact form_rest h hfar hp

theorem exists_startsTerm_of_reads {t : Term} {ls rest : List Lexeme}
    (h : Reads (.atom t) ls rest) : ∃ l ls', ls = l :: ls' ∧ l.token.startsTerm := by
  cases h with
  | var hl | true hl | false hl | parens hl => exact ⟨_, _, rfl, by rw [hl]; rfl⟩
  | atomForm h =>
    obtain ⟨l, ls, rfl, hopens⟩ := exists_opensForm_of_reads h
    exact ⟨l, ls, rfl, startsTerm_of_opensForm hopens⟩

theorem moreTyIdents_eq_nil {xs : List String} {ls : List Lexeme}
    (h : outcome moreTyIdents ls = .ok (xs, ls)) : xs = [] := by
  cases ls with
  | nil =>
    rw [moreTyIdents_nil] at h
    cases h
    rfl
  | cons l ls =>
    rw [moreTyIdents_cons] at h
    split at h
    · exact absurd (length_lt_of_outcome h) (by simp)
    · cases h
      rfl

theorem codomain_eq_self {a b : Ty} {ls : List Lexeme}
    (h : outcome (codomain a) ls = .ok (b, ls)) : b = a := by
  rw [codomain_of_endsType (endsType_of_codomain h)] at h
  cases h
  rfl

theorem arguments_eq_self {pos : Text.Position} {head t : Term} {ls : List Lexeme}
    (h : outcome (arguments pos head) ls = .ok (t, ls)) : t = head := by
  rw [arguments_of_endsApp (endsApp_of_arguments h)] at h
  cases h
  rfl

theorem moreContext_eq_nil {bs : Context} {ls : List Lexeme}
    (h : outcome moreContext ls = .ok (bs, ls)) : bs = [] := by
  cases ls with
  | nil =>
    rw [moreContext_nil] at h
    cases h
    rfl
  | cons l ls =>
    rw [moreContext_cons] at h
    split at h
    · exact absurd (length_lt_of_outcome h) (by simp)
    · cases h
      rfl

section Agrees
variable {a b : Ty} {t u e head : Term} {pos : Text.Position} {x : String} {xs : List String}
  {ty : Option Ty} {l k k₁ k₂ k₃ : Lexeme} {ls ls₁ ls₂ rest : List Lexeme}

theorem agrees_ident (hl : l.token = .tyVar x) : Agrees (.idents [x]) (l :: rest) rest := by
  intro ys hp
  simp only [tyIdents_eq, tyIdent_cons, hl, ok_bind] at hp
  obtain ⟨⟨zs, _⟩, hzs, hp⟩ := bind_eq_ok_iff.mp hp
  cases hp
  rw [moreTyIdents_eq_nil hzs]

theorem agrees_identsComma (hl : l.token = .tyVar x) (hk : k.token = .comma)
    (ih : Agrees (.idents xs) ls rest) : Agrees (.idents (x :: xs)) (l :: k :: ls) rest := by
  intro ys hp
  simp only [tyIdents_eq, tyIdent_cons, hl, ok_bind, moreTyIdents_cons, hk, if_true] at hp
  rw [← tyIdents_eq] at hp
  obtain ⟨⟨zs, _⟩, hzs, hp⟩ := bind_eq_ok_iff.mp hp
  cases hp
  rw [ih zs hzs]

theorem agrees_typeArg (h : Reads (.typeArg a) ls rest) (ih : Agrees (.typeArg a) ls rest) :
    Agrees (.type a) ls rest := by
  intro b hp
  rw [type_eq] at hp
  obtain ⟨⟨c, ls₁⟩, hc, hp⟩ := bind_eq_ok_iff.mp hp
  obtain rfl := typeArg_rest h hc
  rw [codomain_eq_self hp, ih c hc]

theorem agrees_arrow (hk : k.token = .arrow) (h : Reads (.typeArg a) ls (k :: ls₁))
    (ih₁ : Agrees (.typeArg a) ls (k :: ls₁)) (ih₂ : Agrees (.type b) ls₁ rest) :
    Agrees (.type (.arr a b)) ls rest := by
  intro c hp
  rw [type_eq] at hp
  obtain ⟨⟨a', ls'⟩, ha', hp⟩ := bind_eq_ok_iff.mp hp
  obtain rfl := typeArg_rest h ha'
  simp only [codomain_cons, hk, if_true] at hp
  obtain ⟨⟨b', _⟩, hb', hp⟩ := bind_eq_ok_iff.mp hp
  cases hp
  rw [ih₁ a' ha', ih₂ b' hb']

theorem agrees_typeParens (hl : l.token = .lpar) (hk : k.token = .rpar)
    (h : Reads (.type a) ls (k :: rest)) (ih : Agrees (.type a) ls (k :: rest)) :
    Agrees (.typeArg a) (l :: ls) rest := by
  intro b hp
  simp only [typeArg_cons, hl, type_of_agrees h ih (by simp [EndsType, hk]), ok_bind, expect_cons,
    hk, if_true] at hp
  cases hp
  rfl

theorem agrees_forAll (hl : l.token = .forAll) (hk : k.token = .dot)
    (h : Reads (.idents xs) ls (k :: ls₁)) (ih₁ : Agrees (.idents xs) ls (k :: ls₁))
    (ih₂ : Agrees (.type a) ls₁ rest) : Agrees (.quantified (.allOf xs a)) (l :: ls) rest := by
  intro b hp
  have hidents : outcome tyIdents ls = .ok (xs, k :: ls₁) := by
    obtain ⟨c, rfl, hc⟩ := h.derives
    obtain ⟨ys, hys⟩ := passes_of_derives hc rfl
    have h := hys (k :: ls₁) (by simp [hk])
    rw [h, ih₁ ys h]
  simp only [typeArg_cons, hl, hidents, ok_bind, expect_cons, hk, if_true] at hp
  obtain ⟨⟨a', _⟩, ha', hp⟩ := bind_eq_ok_iff.mp hp
  cases hp
  rw [ih₂ a' ha']

theorem agrees_ofType (hl : l.token = .colon) (ih : Agrees (.type a) ls rest) :
    Agrees (.ascription (some a)) (l :: ls) rest := by
  intro ty hp
  simp only [ascription_cons, hl, if_true] at hp
  obtain ⟨⟨a', _⟩, ha', hp⟩ := bind_eq_ok_iff.mp hp
  cases hp
  rw [ih a' ha']

theorem agrees_noType : Agrees (.ascription none) rest rest := by
  intro ty hp
  cases rest with
  | nil =>
    cases hp
    rfl
  | cons l rest =>
    rw [ascription_cons] at hp
    split at hp
    · obtain ⟨⟨a, _⟩, ha, hp⟩ := bind_eq_ok_iff.mp hp
      cases hp
      exact absurd (length_lt_of_outcome ha) (by simp)
    · cases hp
      rfl

theorem agrees_form (h : Reads (.form t) ls rest) (ih : Agrees (.form t) ls rest) :
    Agrees (.term t) ls rest := by
  intro u hp
  obtain ⟨l, ls, rfl, hopens⟩ := exists_opensForm_of_reads h
  rw [term_cons, if_pos hopens] at hp
  exact ih u hp

theorem agrees_app (h₁ : Reads (.atom head) (l :: ls) ls₁) (ih₁ : Agrees (.atom head) (l :: ls) ls₁)
    (ih₂ : Agrees (.args l.pos head t) ls₁ rest) : Agrees (.term t) (l :: ls) rest := by
  intro u hp
  rw [term_cons] at hp
  split at hp
  next hopens =>
    -- the form has taken all arguments
    have hatom := hp
    rw [← atom_of_opensForm hopens] at hatom
    obtain rfl := atom_rest h₁ hatom
    have hends : EndsApp rest := endsApp_of_form hp
    rw [ih₁ u hatom, ih₂ head (arguments_of_endsApp hends _ _)]
  next =>
    obtain ⟨⟨head', ls'⟩, hhead, hp⟩ := bind_eq_ok_iff.mp hp
    obtain rfl := atom_rest h₁ hhead
    obtain rfl := ih₁ head' hhead
    exact ih₂ u hp

theorem agrees_letIn (hl : l.token = .letKw) (hk₁ : k₁.token = .var x) (hk₂ : k₂.token = .eq)
    (hk₃ : k₃.token = .inKw) (h : Reads (.term e) ls (k₃ :: ls₁))
    (ih₁ : Agrees (.term e) ls (k₃ :: ls₁)) (ih₂ : Agrees (.term t) ls₁ rest) :
    Agrees (.form (.letIn l.pos x e t)) (l :: k₁ :: k₂ :: ls) rest := by
  intro u hp
  have he := term_of_agrees h ih₁ (by simp [EndsApp, hk₃, Token.startsTerm])
  simp only [form_cons, hl, ident_cons, hk₁, ok_bind, expect_cons, hk₂, if_true, he, hk₃] at hp
  obtain ⟨⟨t', _⟩, ht', hp⟩ := bind_eq_ok_iff.mp hp
  cases hp
  rw [ih₂ t' ht']

theorem agrees_ite {c : Term} (hl : l.token = .ifKw) (hk₁ : k₁.token = .thenKw)
    (hk₂ : k₂.token = .elseKw) (h₁ : Reads (.term c) ls (k₁ :: ls₁))
    (h₂ : Reads (.term t) ls₁ (k₂ :: ls₂)) (ih₁ : Agrees (.term c) ls (k₁ :: ls₁))
    (ih₂ : Agrees (.term t) ls₁ (k₂ :: ls₂)) (ih₃ : Agrees (.term e) ls₂ rest) :
    Agrees (.form (.ite l.pos c t e)) (l :: ls) rest := by
  intro u hp
  have hc := term_of_agrees h₁ ih₁ (by simp [EndsApp, hk₁, Token.startsTerm])
  have ht := term_of_agrees h₂ ih₂ (by simp [EndsApp, hk₂, Token.startsTerm])
  simp only [form_cons, hl, hc, ok_bind, expect_cons, hk₁, if_true, ht, hk₂] at hp
  obtain ⟨⟨e', _⟩, he', hp⟩ := bind_eq_ok_iff.mp hp
  cases hp
  rw [ih₃ e' he']

theorem agrees_abs (hl : l.token = .lambda) (hk₁ : k₁.token = .var x) (hk₂ : k₂.token = .dot)
    (h : Reads (.ascription ty) ls (k₂ :: ls₁)) (ih₁ : Agrees (.ascription ty) ls (k₂ :: ls₁))
    (ih₂ : Agrees (.term t) ls₁ rest) :
    Agrees (.form (.abs l.pos x ty t)) (l :: k₁ :: ls) rest := by
  intro u hp
  have hty : outcome ascription ls = .ok (ty, k₂ :: ls₁) := by
    obtain ⟨c, rfl, hc⟩ := h.derives
    obtain ⟨ty', hty'⟩ := passes_of_derives hc rfl
    have h := hty' (k₂ :: ls₁) (by simp [hk₂])
    rw [h, ih₁ ty' h]
  simp only [form_cons, hl, ident_cons, hk₁, ok_bind, hty, expect_cons, hk₂, if_true] at hp
  obtain ⟨⟨t', _⟩, ht', hp⟩ := bind_eq_ok_iff.mp hp
  cases hp
  rw [ih₂ t' ht']

theorem agrees_tyAbs (hl : l.token = .bigLambda) (hk₁ : k₁.token = .tyVar x)
    (hk₂ : k₂.token = .dot) (ih : Agrees (.term t) ls rest) :
    Agrees (.form (.tyAbs l.pos x t)) (l :: k₁ :: k₂ :: ls) rest := by
  intro u hp
  simp only [form_cons, hl, tyIdent_cons, hk₁, ok_bind, expect_cons, hk₂, if_true] at hp
  obtain ⟨⟨t', _⟩, ht', hp⟩ := bind_eq_ok_iff.mp hp
  cases hp
  rw [ih t' ht']

theorem agrees_arg (h : Reads (.atom u) ls ls₁) (ih₁ : Agrees (.atom u) ls ls₁)
    (ih₂ : Agrees (.args pos (.app pos head u) t) ls₁ rest) :
    Agrees (.args pos head t) ls rest := by
  intro t' hp
  obtain ⟨l, ls, rfl, hstarts⟩ := exists_startsTerm_of_reads h
  rw [arguments_cons, if_neg (ne_lbrk_of_startsTerm hstarts), if_pos hstarts] at hp
  obtain ⟨⟨u', ls'⟩, hu', hp⟩ := bind_eq_ok_iff.mp hp
  obtain rfl := atom_rest h hu'
  obtain rfl := ih₁ u' hu'
  exact ih₂ t' hp

theorem agrees_tyArg (hl : l.token = .lbrk) (hk : k.token = .rbrk)
    (h : Reads (.type a) ls (k :: ls₁)) (ih₁ : Agrees (.type a) ls (k :: ls₁))
    (ih₂ : Agrees (.args pos (.tyApp pos head a) t) ls₁ rest) :
    Agrees (.args pos head t) (l :: ls) rest := by
  intro u hp
  have ha := type_of_agrees h ih₁ (by simp [EndsType, hk])
  simp only [arguments_cons, hl, if_true, ha, ok_bind, expect_cons, hk] at hp
  exact ih₂ u hp

theorem agrees_parens (hl : l.token = .lpar) (hk : k.token = .rpar)
    (h : Reads (.term t) ls (k :: rest)) (ih : Agrees (.term t) ls (k :: rest)) :
    Agrees (.atom t) (l :: ls) rest := by
  intro u hp
  have ht := term_of_agrees h ih (by simp [EndsApp, hk, Token.startsTerm])
  simp only [atom_cons, hl, ht, ok_bind, expect_cons, hk, if_true] at hp
  cases hp
  rfl

theorem agrees_atomForm (h : Reads (.form t) ls rest) (ih : Agrees (.form t) ls rest) :
    Agrees (.atom t) ls rest := by
  intro u hp
  obtain ⟨l, ls, rfl, hopens⟩ := exists_opensForm_of_reads h
  rw [atom_of_opensForm hopens] at hp
  exact ih u hp

theorem agrees_varBinding (hl : l.token = .var x) (ih : Agrees (.ascription ty) ls rest) :
    Agrees (.binding (x, .var ty)) (l :: ls) rest := by
  intro b hp
  simp only [binding_cons, hl] at hp
  obtain ⟨⟨ty', _⟩, hty', hp⟩ := bind_eq_ok_iff.mp hp
  cases hp
  rw [ih ty' hty']

theorem ascription_length_le {ty' : Option Ty} {rest' : List Lexeme}
    (h : Reads (.ascription ty) ls rest) (hp : outcome ascription ls = .ok (ty', rest')) :
    rest'.length ≤ rest.length := by
  cases h with
  | noType => exact Nat.le_of_lt_succ (length_lt_of_outcome hp)
  | ofType hl h =>
    simp only [ascription_cons, hl, if_true] at hp
    obtain ⟨⟨b, _⟩, hb, hp⟩ := bind_eq_ok_iff.mp hp
    cases hp
    obtain ⟨c, rfl, hc⟩ := h.derives
    exact GoesOn.length_le (passes_of_derives hc rfl) hb

theorem binding_length_le {b b' : String × Binding} {rest' : List Lexeme}
    (h : Reads (.binding b) ls rest) (hp : outcome binding ls = .ok (b', rest')) :
    rest'.length ≤ rest.length := by
  cases h with
  | varBinding hl h =>
    simp only [binding_cons, hl] at hp
    obtain ⟨⟨ty', _⟩, hty', hp⟩ := bind_eq_ok_iff.mp hp
    cases hp
    exact ascription_length_le h hty'
  | tyVarBinding hl =>
    simp only [binding_cons, hl] at hp
    cases hp
    rfl

theorem agrees_oneBinding {b : String × Binding} (h : Reads (.binding b) ls rest)
    (ih : Agrees (.binding b) ls rest) : Agrees (.context [b]) ls rest := by
  intro bs hp
  obtain ⟨c, hls, hc⟩ := h.derives
  cases ls with
  | nil =>
    obtain ⟨rfl, rfl⟩ := List.append_eq_nil_iff.mp hls.symm
    exact absurd rfl (ne_nil_of_derives hc (by simp [Phrase.symbol]))
  | cons l ls =>
    rw [context_cons] at hp
    obtain ⟨⟨b', ls'⟩, hb', hp⟩ := bind_eq_ok_iff.mp hp
    obtain ⟨⟨bs', _⟩, hbs', hp⟩ := bind_eq_ok_iff.mp hp
    cases hp
    -- the rest of the context can only be empty, so the binding ends where it should
    have hle := binding_length_le h hb'
    have hge := Nat.le_of_lt_succ (length_lt_of_outcome hbs')
    obtain ⟨c', hls', -⟩ := (fitsAt_binding _).of_ok hb'
    obtain rfl := (List.append_inj' (hls'.symm.trans hls) (le_antisymm hle hge)).2
    rw [ih b' hb', moreContext_eq_nil hbs']

theorem agrees_bindingsComma {b : String × Binding} {bs : Context} (hk : k.token = .comma)
    (h : Reads (.binding b) ls (k :: ls₁)) (ih₁ : Agrees (.binding b) ls (k :: ls₁))
    (ih₂ : Agrees (.context bs) ls₁ rest) : Agrees (.context (b :: bs)) ls rest := by
  intro bs' hp
  obtain ⟨c, rfl, hc⟩ := h.derives
  have hb : outcome binding (c ++ k :: ls₁) = .ok (b, k :: ls₁) := by
    obtain ⟨b', hb'⟩ := passes_of_derives hc rfl
    have h := hb' (k :: ls₁) (by simp [hk])
    rw [h, ih₁ b' h]
  cases c with
  | nil => exact absurd rfl (ne_nil_of_derives hc (by simp [Phrase.symbol]))
  | cons l c =>
    rw [List.cons_append] at hp hb
    simp only [context_cons, hb, ok_bind, moreContext_cons, hk, if_true] at hp
    obtain ⟨⟨bs₁, _⟩, hbs₁, hp⟩ := bind_eq_ok_iff.mp hp
    cases hp
    rw [ih₂ bs₁ hbs₁]

end Agrees

theorem Reads.agrees {φ : Phrase} {ls rest : List Lexeme} (h : Reads φ ls rest) :
    Agrees φ ls rest := by
  induction h with
  | ident hl => exact agrees_ident hl
  | identsComma hl hk _ ih => exact agrees_identsComma hl hk ih
  | typeArg h ih => exact agrees_typeArg h ih
  | arrow hk h₁ _ ih₁ ih₂ => exact agrees_arrow hk h₁ ih₁ ih₂
  | bool hl =>
    intro b hp
    simp only [typeArg_cons, hl] at hp
    cases hp
    rfl
  | tyVar hl =>
    intro b hp
    simp only [typeArg_cons, hl] at hp
    cases hp
    rfl
  | typeParens hl hk h ih => exact agrees_typeParens hl hk h ih
  | quantified _ _ ih => exact ih
  | forAll hl hk h₁ _ ih₁ ih₂ => exact agrees_forAll hl hk h₁ ih₁ ih₂
  | noType => exact agrees_noType
  | ofType hl _ ih => exact agrees_ofType hl ih
  | form h _ ih => exact agrees_form h ih
  | app h₁ _ ih₁ ih₂ => exact agrees_app h₁ ih₁ ih₂
  | letIn hl hk₁ hk₂ hk₃ h₁ _ ih₁ ih₂ => exact agrees_letIn hl hk₁ hk₂ hk₃ h₁ ih₁ ih₂
  | ite hl hk₁ hk₂ h₁ h₂ _ ih₁ ih₂ ih₃ => exact agrees_ite hl hk₁ hk₂ h₁ h₂ ih₁ ih₂ ih₃
  | abs hl hk₁ hk₂ h₁ _ ih₁ ih₂ => exact agrees_abs hl hk₁ hk₂ h₁ ih₁ ih₂
  | tyAbs hl hk₁ hk₂ _ ih => exact agrees_tyAbs hl hk₁ hk₂ ih
  | noArgs => exact fun _ hp => arguments_eq_self hp
  | arg h₁ _ ih₁ ih₂ => exact agrees_arg h₁ ih₁ ih₂
  | tyArg hl hk h₁ _ ih₁ ih₂ => exact agrees_tyArg hl hk h₁ ih₁ ih₂
  | var hl =>
    intro u hp
    simp only [atom_cons, hl] at hp
    cases hp
    rfl
  | true hl =>
    intro u hp
    simp only [atom_cons, hl] at hp
    cases hp
    rfl
  | false hl =>
    intro u hp
    simp only [atom_cons, hl] at hp
    cases hp
    rfl
  | parens hl hk h ih => exact agrees_parens hl hk h ih
  | atomForm h _ ih => exact agrees_atomForm h ih
  | varBinding hl _ ih => exact agrees_varBinding hl ih
  | tyVarBinding hl =>
    intro b hp
    simp only [binding_cons, hl] at hp
    cases hp
    rfl
  | noBindings =>
    intro bs hp
    rw [context_nil] at hp
    cases hp
    rfl
  | oneBinding h ih => exact agrees_oneBinding h ih
  | bindingsComma hk h₁ _ ih₁ ih₂ => exact agrees_bindingsComma hk h₁ ih₁ ih₂

theorem reads_expect {token : Token} {what : Expected} {ls rest : List Lexeme}
    (h : outcome (expect token what) ls = .ok ((), rest)) :
    ∃ k, k.token = token ∧ ls = k :: rest := by
  cases ls with
  | nil => simp [expect_nil] at h
  | cons k ls =>
    rw [expect_cons] at h
    split at h
    next hk =>
      cases h
      exact ⟨k, hk, rfl⟩
    next => cases h

theorem reads_ident {x : String} {ls rest : List Lexeme}
    (h : outcome ident ls = .ok (x, rest)) : ∃ k, k.token = .var x ∧ ls = k :: rest := by
  cases ls with
  | nil => simp [ident_nil] at h
  | cons k ls =>
    rw [ident_cons] at h
    split at h
    next hk =>
      cases h
      exact ⟨k, hk, rfl⟩
    next => cases h

theorem reads_tyIdent {x : String} {ls rest : List Lexeme}
    (h : outcome tyIdent ls = .ok (x, rest)) : ∃ k, k.token = .tyVar x ∧ ls = k :: rest := by
  cases ls with
  | nil => simp [tyIdent_nil] at h
  | cons k ls =>
    rw [tyIdent_cons] at h
    split at h
    next hk =>
      cases h
      exact ⟨k, hk, rfl⟩
    next => cases h

theorem reads_tyIdents {xs : List String} {ls rest : List Lexeme}
    (h : outcome tyIdents ls = .ok (xs, rest)) : Reads (.idents xs) ls rest := by
  induction hn : ls.length using Nat.strong_induction_on generalizing ls xs with
  | _ n ih =>
    subst hn
    rw [tyIdents_eq] at h
    obtain ⟨⟨x, ls₁⟩, h₁, h⟩ := bind_eq_ok_iff.mp h
    obtain ⟨⟨ys, ls₂⟩, h₂, h⟩ := bind_eq_ok_iff.mp h
    cases h
    obtain ⟨l, hl, rfl⟩ := reads_tyIdent h₁
    cases ls₁ with
    | nil =>
      rw [moreTyIdents_nil] at h₂
      cases h₂
      exact .ident hl
    | cons k ls₁ =>
      rw [moreTyIdents_cons] at h₂
      split at h₂
      next hk => exact .identsComma hl hk (ih ls₁.length (by simp) h₂ rfl)
      next =>
        cases h₂
        exact .ident hl

section Types
variable {ls : List Lexeme}

theorem reads_typeArg_of
    (ih : ∀ ls', ls'.length < ls.length → ∀ a rest, outcome type ls' = .ok (a, rest) →
      Reads (.type a) ls' rest)
    {a : Ty} {rest : List Lexeme} (h : outcome typeArg ls = .ok (a, rest)) :
    Reads (.typeArg a) ls rest := by
  have hfar := farthest_quantified h
  cases ls with
  | nil => simp [typeArg_nil] at h
  | cons l ls =>
    rw [typeArg_cons] at h
    split at h
    next hl =>
      cases h
      exact .bool hl
    next x hl =>
      cases h
      exact .tyVar hl
    next hl =>
      obtain ⟨⟨b, ls₁⟩, h₁, h⟩ := bind_eq_ok_iff.mp h
      obtain ⟨⟨_, ls₂⟩, h₂, h⟩ := bind_eq_ok_iff.mp h
      cases h
      obtain ⟨k, hk, rfl⟩ := reads_expect h₂
      exact .typeParens hl hk (ih ls (by simp) b _ h₁)
    next hl =>
      obtain ⟨⟨xs, ls₁⟩, h₁, h⟩ := bind_eq_ok_iff.mp h
      obtain ⟨⟨_, ls₂⟩, h₂, h⟩ := bind_eq_ok_iff.mp h
      obtain ⟨⟨b, ls₃⟩, h₃, h⟩ := bind_eq_ok_iff.mp h
      cases h
      obtain ⟨k, hk, rfl⟩ := reads_expect h₂
      have hlt := length_lt_of_outcome h₁
      have hbody := ih ls₂ (by simp only [List.length_cons] at *; omega) b _ h₃
      exact .quantified (.forAll hl hk (reads_tyIdents h₁) hbody) hfar
    next => cases h

end Types

theorem reads_type {a : Ty} {ls rest : List Lexeme} (h : outcome type ls = .ok (a, rest)) :
    Reads (.type a) ls rest := by
  induction hn : ls.length using Nat.strong_induction_on generalizing ls a rest with
  | _ n ih =>
    subst hn
    rw [type_eq] at h
    obtain ⟨⟨b, ls₁⟩, h₁, h⟩ := bind_eq_ok_iff.mp h
    have hb := reads_typeArg_of (fun ls' hlt a rest h => ih ls'.length hlt h rfl) h₁
    have hlt := length_lt_of_outcome h₁
    cases ls₁ with
    | nil =>
      rw [codomain_nil] at h
      cases h
      exact .typeArg hb
    | cons k ls₁ =>
      rw [codomain_cons] at h
      split at h
      next hk =>
        obtain ⟨⟨c, ls₂⟩, h₂, h⟩ := bind_eq_ok_iff.mp h
        cases h
        exact .arrow hk hb (ih ls₁.length (by simp only [List.length_cons] at hlt; omega) h₂ rfl)
      next =>
        cases h
        exact .typeArg hb

theorem reads_ascription {ty : Option Ty} {ls rest : List Lexeme}
    (h : outcome ascription ls = .ok (ty, rest)) : Reads (.ascription ty) ls rest := by
  cases ls with
  | nil =>
    cases h
    exact .noType
  | cons l ls =>
    rw [ascription_cons] at h
    split at h
    next hl =>
      obtain ⟨⟨a, _⟩, h₁, h⟩ := bind_eq_ok_iff.mp h
      cases h
      exact .ofType hl (reads_type h₁)
    next =>
      cases h
      exact .noType

section Terms
variable {ls : List Lexeme}
  (ih : ∀ ls', ls'.length < ls.length → ∀ t rest, outcome term ls' = .ok (t, rest) →
    Reads (.term t) ls' rest)
include ih

theorem reads_form_of {t : Term} {rest : List Lexeme} (h : outcome form ls = .ok (t, rest)) :
    Reads (.form t) ls rest := by
  cases ls with
  | nil => simp [form_nil] at h
  | cons l ls =>
    rw [form_cons] at h
    split at h
    next hl =>
      obtain ⟨⟨x, ls₁⟩, h₁, h⟩ := bind_eq_ok_iff.mp h
      obtain ⟨⟨_, ls₂⟩, h₂, h⟩ := bind_eq_ok_iff.mp h
      obtain ⟨⟨e, ls₃⟩, h₃, h⟩ := bind_eq_ok_iff.mp h
      obtain ⟨⟨_, ls₄⟩, h₄, h⟩ := bind_eq_ok_iff.mp h
      obtain ⟨⟨t, ls₅⟩, h₅, h⟩ := bind_eq_ok_iff.mp h
      cases h
      obtain ⟨k₁, hk₁, rfl⟩ := reads_ident h₁
      obtain ⟨k₂, hk₂, rfl⟩ := reads_expect h₂
      obtain ⟨k₃, hk₃, rfl⟩ := reads_expect h₄
      have hlt := length_lt_of_outcome h₃
      simp only [List.length_cons] at ih hlt
      exact .letIn hl hk₁ hk₂ hk₃ (ih ls₂ (by omega) e _ h₃) (ih ls₄ (by omega) t _ h₅)
    next hl =>
      obtain ⟨⟨c, ls₁⟩, h₁, h⟩ := bind_eq_ok_iff.mp h
      obtain ⟨⟨_, ls₂⟩, h₂, h⟩ := bind_eq_ok_iff.mp h
      obtain ⟨⟨t, ls₃⟩, h₃, h⟩ := bind_eq_ok_iff.mp h
      obtain ⟨⟨_, ls₄⟩, h₄, h⟩ := bind_eq_ok_iff.mp h
      obtain ⟨⟨e, ls₅⟩, h₅, h⟩ := bind_eq_ok_iff.mp h
      cases h
      obtain ⟨k₁, hk₁, rfl⟩ := reads_expect h₂
      obtain ⟨k₂, hk₂, rfl⟩ := reads_expect h₄
      have hlt₁ := length_lt_of_outcome h₁
      have hlt₃ := length_lt_of_outcome h₃
      simp only [List.length_cons] at ih hlt₁ hlt₃
      exact .ite hl hk₁ hk₂ (ih ls (by omega) c _ h₁) (ih ls₂ (by omega) t _ h₃)
        (ih ls₄ (by omega) e _ h₅)
    next hl =>
      obtain ⟨⟨x, ls₁⟩, h₁, h⟩ := bind_eq_ok_iff.mp h
      obtain ⟨⟨ty, ls₂⟩, h₂, h⟩ := bind_eq_ok_iff.mp h
      obtain ⟨⟨_, ls₃⟩, h₃, h⟩ := bind_eq_ok_iff.mp h
      obtain ⟨⟨t, ls₄⟩, h₄, h⟩ := bind_eq_ok_iff.mp h
      cases h
      obtain ⟨k₁, hk₁, rfl⟩ := reads_ident h₁
      obtain ⟨k₂, hk₂, rfl⟩ := reads_expect h₃
      have hlt := length_lt_of_outcome h₂
      simp only [List.length_cons] at ih hlt
      exact .abs hl hk₁ hk₂ (reads_ascription h₂) (ih ls₃ (by omega) t _ h₄)
    next hl =>
      obtain ⟨⟨x, ls₁⟩, h₁, h⟩ := bind_eq_ok_iff.mp h
      obtain ⟨⟨_, ls₂⟩, h₂, h⟩ := bind_eq_ok_iff.mp h
      obtain ⟨⟨t, ls₃⟩, h₃, h⟩ := bind_eq_ok_iff.mp h
      cases h
      obtain ⟨k₁, hk₁, rfl⟩ := reads_tyIdent h₁
      obtain ⟨k₂, hk₂, rfl⟩ := reads_expect h₂
      simp only [List.length_cons] at ih
      exact .tyAbs hl hk₁ hk₂ (ih ls₂ (by omega) t _ h₃)
    next => cases h

theorem reads_atom_of {t : Term} {rest : List Lexeme} (h : outcome atom ls = .ok (t, rest)) :
    Reads (.atom t) ls rest := by
  cases ls with
  | nil => simp [atom_nil] at h
  | cons l ls =>
    by_cases hopens : l.token.opensForm
    · rw [atom_of_opensForm hopens] at h
      exact .atomForm (reads_form_of ih h) (farthest_form h)
    · rw [atom_cons] at h
      split at h
      next x hl =>
        cases h
        exact .var hl
      next hl =>
        cases h
        exact .true hl
      next hl =>
        cases h
        exact .false hl
      next hl =>
        obtain ⟨⟨u, ls₁⟩, h₁, h⟩ := bind_eq_ok_iff.mp h
        obtain ⟨⟨_, ls₂⟩, h₂, h⟩ := bind_eq_ok_iff.mp h
        cases h
        obtain ⟨k, hk, rfl⟩ := reads_expect h₂
        exact .parens hl hk (ih ls (by simp) u _ h₁)
      all_goals simp_all [Token.opensForm]

theorem reads_arguments_of {pos : Text.Position} {head t : Term} {rest : List Lexeme}
    (h : outcome (arguments pos head) ls = .ok (t, rest)) :
    Reads (.args pos head t) ls rest := by
  induction hn : ls.length using Nat.strong_induction_on generalizing ls head with
  | _ n iha =>
    subst hn
    cases ls with
    | nil =>
      rw [arguments_nil] at h
      cases h
      exact .noArgs
    | cons l ls =>
      rw [arguments_cons] at h
      split at h
      next hl =>
        obtain ⟨⟨a, ls₁⟩, h₁, h⟩ := bind_eq_ok_iff.mp h
        obtain ⟨⟨_, ls₂⟩, h₂, h⟩ := bind_eq_ok_iff.mp h
        obtain ⟨k, hk, rfl⟩ := reads_expect h₂
        have hlt := length_lt_of_outcome h₁
        simp only [List.length_cons] at ih iha hlt
        have ih' : ∀ ls', ls'.length < ls₂.length → ∀ t rest, outcome term ls' = .ok (t, rest) →
            Reads (.term t) ls' rest := fun ls' hlt' => ih ls' (by omega)
        exact .tyArg hl hk (reads_type h₁) (iha ls₂.length (by omega) ih' h rfl)
      next =>
        split at h
        next hstarts =>
          obtain ⟨⟨u, ls₁⟩, h₁, h⟩ := bind_eq_ok_iff.mp h
          have hlt := length_lt_of_outcome h₁
          exact .arg (reads_atom_of ih h₁)
            (iha ls₁.length hlt (fun ls' hlt' => ih ls' (hlt'.trans hlt)) h rfl)
        next =>
          cases h
          exact .noArgs

end Terms

theorem reads_term {t : Term} {ls rest : List Lexeme} (h : outcome term ls = .ok (t, rest)) :
    Reads (.term t) ls rest := by
  induction hn : ls.length using Nat.strong_induction_on generalizing ls t rest with
  | _ n ih =>
    subst hn
    have ih' : ∀ ls', ls'.length < ls.length → ∀ t rest, outcome term ls' = .ok (t, rest) →
        Reads (.term t) ls' rest := fun ls' hlt t rest h => ih ls'.length hlt h rfl
    cases ls with
    | nil => simp [term_nil] at h
    | cons l ls =>
      rw [term_cons] at h
      split at h
      next => exact .form (reads_form_of ih' h) (farthest_form h)
      next =>
        obtain ⟨⟨head, ls₁⟩, h₁, h⟩ := bind_eq_ok_iff.mp h
        have hlt := length_lt_of_outcome h₁
        exact .app (reads_atom_of ih' h₁)
          (reads_arguments_of (fun ls' hlt' => ih' ls' (hlt'.trans hlt)) h)

theorem reads_binding {b : String × Binding} {ls rest : List Lexeme}
    (h : outcome binding ls = .ok (b, rest)) : Reads (.binding b) ls rest := by
  cases ls with
  | nil => simp [binding_nil] at h
  | cons l ls =>
    rw [binding_cons] at h
    split at h
    next x hl =>
      obtain ⟨⟨ty, _⟩, h₁, h⟩ := bind_eq_ok_iff.mp h
      cases h
      exact .varBinding hl (reads_ascription h₁)
    next x hl =>
      cases h
      exact .tyVarBinding hl
    next => cases h

theorem reads_context {bs : Context} {ls rest : List Lexeme}
    (h : outcome context ls = .ok (bs, rest)) : Reads (.context bs) ls rest := by
  induction hn : ls.length using Nat.strong_induction_on generalizing ls bs with
  | _ n ih =>
    subst hn
    cases ls with
    | nil =>
      rw [context_nil] at h
      cases h
      exact .noBindings
    | cons l ls =>
      rw [context_cons] at h
      obtain ⟨⟨b, ls₁⟩, h₁, h⟩ := bind_eq_ok_iff.mp h
      obtain ⟨⟨bs', ls₂⟩, h₂, h⟩ := bind_eq_ok_iff.mp h
      cases h
      have hlt := length_lt_of_outcome h₁
      cases ls₁ with
      | nil =>
        rw [moreContext_nil] at h₂
        cases h₂
        exact .oneBinding (reads_binding h₁)
      | cons k ls₁ =>
        rw [moreContext_cons] at h₂
        split at h₂
        next hk =>
          exact .bindingsComma hk (reads_binding h₁)
            (ih ls₁.length (by simp only [List.length_cons] at *; omega) h₂ rfl)
        next =>
          cases h₂
          exact .oneBinding (reads_binding h₁)

theorem outcome_term_eq_ok_iff {t : Term} {ls : List Lexeme} :
    outcome term ls = .ok (t, []) ↔ Reads (.term t) ls [] :=
  ⟨reads_term, fun h => term_of_agrees h h.agrees (by simp [EndsApp])⟩

theorem outcome_type_eq_ok_iff {a : Ty} {ls : List Lexeme} :
    outcome type ls = .ok (a, []) ↔ Reads (.type a) ls [] :=
  ⟨reads_type, fun h => type_of_agrees h h.agrees (by simp [EndsType])⟩

theorem outcome_context_eq_ok_iff {bs : Context} {ls : List Lexeme} :
    outcome context ls = .ok (bs, []) ↔ Reads (.context bs) ls [] := by
  refine ⟨reads_context, fun h => ?_⟩
  obtain ⟨c, rfl, hc⟩ := h.derives
  obtain ⟨bs', hbs'⟩ := parserFor_context.eq_ok c hc
  rw [List.append_nil] at h ⊢
  rw [hbs', h.agrees bs' hbs']

end Parser

/-- The parsers accept what the grammar derives, and their result is the reading in which
applications associate to the left, arrows to the right, and forms and quantified types reach as far
as possible. -/
theorem parseAll_iff_reads (source : Source) :
    (((∃ t, parseAll source (Parser.term source.lexemes) = .ok t) ↔
        Derives .term (Parser.tokens source.lexemes)) ∧
      ∀ t, parseAll source (Parser.term source.lexemes) = .ok t ↔
        Parser.Reads (.term t) source.lexemes []) ∧
    (((∃ a, parseAll source (Parser.type source.lexemes) = .ok a) ↔
        Derives .type (Parser.tokens source.lexemes)) ∧
      ∀ a, parseAll source (Parser.type source.lexemes) = .ok a ↔
        Parser.Reads (.type a) source.lexemes []) ∧
    (((∃ bs, parseAll source (Parser.context source.lexemes) = .ok bs) ↔
        Derives .context (Parser.tokens source.lexemes)) ∧
      ∀ bs, parseAll source (Parser.context source.lexemes) = .ok bs ↔
        Parser.Reads (.context bs) source.lexemes []) :=
  ⟨⟨Parser.parserFor_term.exists_parseAll_iff source,
      fun _ => Parser.parseAll_eq_ok_iff.trans Parser.outcome_term_eq_ok_iff⟩,
    ⟨Parser.parserFor_type.exists_parseAll_iff source,
      fun _ => Parser.parseAll_eq_ok_iff.trans Parser.outcome_type_eq_ok_iff⟩,
    ⟨Parser.parserFor_context.exists_parseAll_iff source,
      fun _ => Parser.parseAll_eq_ok_iff.trans Parser.outcome_context_eq_ok_iff⟩⟩

end LambdaTyping.Surface
