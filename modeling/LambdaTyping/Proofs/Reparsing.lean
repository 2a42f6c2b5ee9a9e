import Mathlib
import LambdaTyping.Surface.Printer
import LambdaTyping.Printer
import LambdaTyping.Proofs.Lexing

/-!
# Reading back what is written

The tokens of types, terms and contexts in the form in which they are printed. The parsers give
back what the tokens were made from, up to positions: where the printer leaves out parentheses,
nothing else can be read. The printed text is read as these tokens, since words are kept apart.
-/
namespace LambdaTyping

namespace Surface

/-- The tokens of a type as it is written. -/
def Ty.written : Ty → List Token
  | .var x => [.tyVar x]
  | .bool => [.boolKw]
  | .arr a b =>
    (if a.isCompound then .lpar :: (a.written ++ [.rpar]) else a.written) ++ .arrow :: b.written
  | .all x a => .forAll :: .tyVar x :: .dot :: a.written

theorem writes_parens {cs : List Char} {ts : List Token} (h : Writes cs ts) :
    Writes ('(' :: (cs ++ [')'])) (.lpar :: (ts ++ [.rpar])) :=
  .symbol rfl (h.append (Writes.nil.symbol (c := ')') rfl) (endsWord_cons rfl _))

theorem renders_parens {cs : List Char} {ts : List Token} (h : Renders cs ts) :
    Renders ('(' :: (cs ++ [')'])) (.lpar :: (ts ++ [.rpar])) :=
  .token (s := "(") rfl nofun (h.append (.ofToken (s := ")") rfl) (endsWord_cons rfl _))

theorem Ty.renders_text (a : Ty) : Renders a.text.toList a.written := by
  induction a with
  | var x => exact .ofToken rfl
  | bool => exact .ofToken rfl
  | arr a b iha ihb =>
    have hb : Renders (' ' :: '→' :: ' ' :: b.text.toList) (.arrow :: b.written) :=
      .blank (.token (s := "→") rfl nofun (.blank ihb))
    have hends : EndsWord (' ' :: '→' :: ' ' :: b.text.toList) := endsWord_cons rfl _
    cases hc : a.isCompound with
    | true =>
      have hab := (renders_parens iha).append hb hends
      simpa [Ty.text, Ty.written, hc] using hab
    | false =>
      have hab := iha.append hb hends
      simpa [Ty.text, Ty.written, hc] using hab
  | all x a ih =>
    have hbody : Renders ('.' :: ' ' :: a.text.toList) (.dot :: a.written) :=
      .token (s := ".") rfl nofun (.blank ih)
    have hall : Renders ('∀' :: (x.toList ++ '.' :: ' ' :: a.text.toList))
        (.forAll :: .tyVar x :: .dot :: a.written) :=
      .token (s := "∀") rfl nofun (.token rfl (fun _ => endsWord_cons rfl _) hbody)
    simpa [Ty.text, Ty.written] using hall

theorem Ty.namedBy_written {P : Kind → String → Prop} {a : Ty} :
    (∀ t ∈ a.written, t.NamedBy P) ↔ a.NamedBy P := by
  induction a with
  | arr a b iha ihb =>
    cases hc : a.isCompound <;>
      simp [written, NamedBy, Token.NamedBy, hc, ← iha, ← ihb, or_imp, forall_and]
  | _ => simp_all [written, NamedBy, Token.NamedBy]

theorem Ty.writes_text {a : Ty} (h : a.Named) : Writes a.text.toList a.written :=
  a.renders_text.writes (namedBy_written.mpr h)

namespace Parser

theorem typeArg_parens {a : Ty} {c : List Lexeme} {ts : List Token}
    (hc : tokens c = .lpar :: (ts ++ [.rpar]))
    (h : ∀ c' rest, tokens c' = ts → EndsType rest → outcome type (c' ++ rest) = .ok (a, rest))
    (rest : List Lexeme) : outcome typeArg (c ++ rest) = .ok (a, rest) := by
  obtain ⟨l, _, rfl, hl, hc⟩ := tokens_eq_cons_iff.mp hc
  obtain ⟨c', _, rfl, hc', hc⟩ := tokens_eq_append_iff.mp hc
  obtain ⟨k, hk, rfl⟩ := tokens_eq_singleton_iff.mp hc
  have ha := h c' (k :: rest) hc' (by simp [EndsType, hk])
  simp [typeArg_cons, hl, ha, expect_cons, hk]

/-- A type is read back from its tokens. -/
theorem type_of_written (a : Ty) {c rest : List Lexeme} (hc : tokens c = a.written)
    (hrest : EndsType rest) : outcome type (c ++ rest) = .ok (a, rest) := by
  induction a generalizing c rest with
  | var x =>
    obtain ⟨l, hl, rfl⟩ := tokens_eq_singleton_iff.mp hc
    simp [type_eq, typeArg_cons, hl, codomain_of_endsType hrest]
  | bool =>
    obtain ⟨l, hl, rfl⟩ := tokens_eq_singleton_iff.mp hc
    simp [type_eq, typeArg_cons, hl, codomain_of_endsType hrest]
  | arr a b iha ihb =>
    obtain ⟨c₁, _, rfl, hc₁, hc⟩ := tokens_eq_append_iff.mp hc
    obtain ⟨k, c₂, rfl, hk, hc₂⟩ := tokens_eq_cons_iff.mp hc
    have harg : ∀ rest, outcome typeArg (c₁ ++ rest) = .ok (a, rest) := by
      intro rest
      cases a with
      | var x =>
        obtain ⟨l, hl, rfl⟩ := tokens_eq_singleton_iff.mp hc₁
        simp [typeArg_cons, hl]
      | bool =>
        obtain ⟨l, hl, rfl⟩ := tokens_eq_singleton_iff.mp hc₁
        simp [typeArg_cons, hl]
      | arr a₁ a₂ => exact typeArg_parens hc₁ (fun c' rest hc' hrest => iha hc' hrest) rest
      | all x a => exact typeArg_parens hc₁ (fun c' rest hc' hrest => iha hc' hrest) rest
    rw [List.append_assoc, List.cons_append, type_eq, harg]
    simp [codomain_cons, hk, ihb hc₂ hrest]
  | all x a ih =>
    obtain ⟨l, _, rfl, hl, hc⟩ := tokens_eq_cons_iff.mp hc
    obtain ⟨k, _, rfl, hk, hc⟩ := tokens_eq_cons_iff.mp hc
    obtain ⟨m, c', rfl, hm, hc'⟩ := tokens_eq_cons_iff.mp hc
    rw [type_eq]
    simp [typeArg_cons, hl, tyIdents_eq, tyIdent_cons, hk, moreTyIdents_cons, hm, expect_cons,
      ih hc' hrest, Ty.allOf, codomain_of_endsType hrest]

end Parser

namespace Term

/-- Terms that can be applied without parentheses. -/
def isHead : Term → Bool
  | .var .. | .const .. | .app .. | .tyApp .. => true
  | _ => false

/-- Terms that can be arguments without parentheses. -/
def isAtom : Term → Bool
  | .var .. | .const .. => true
  | _ => false

/-- The tokens of a term that is written with few parentheses. -/
def written : Term → List Token
  | .var _ x => [.var x]
  | .const _ b => [if b then .trueKw else .falseKw]
  | .abs _ x ty t =>
    .lambda :: .var x :: ((match ty with | some a => .colon :: a.written | none => []) ++
      .dot :: t.written)
  | .app _ t u =>
    (if t.isHead then t.written else .lpar :: (t.written ++ [.rpar])) ++
      (if u.isAtom then u.written else .lpar :: (u.written ++ [.rpar]))
  | .ite _ c t e => .ifKw :: (c.written ++ .thenKw :: (t.written ++ .elseKw :: e.written))
  | .tyAbs _ x t => .bigLambda :: .tyVar x :: .dot :: t.written
  | .tyApp _ t ty =>
    (if t.isHead then t.written else .lpar :: (t.written ++ [.rpar])) ++
      .lbrk :: (ty.written ++ [.rbrk])
  | .letIn _ x e t => .letKw :: .var x :: .eq :: (e.written ++ .inKw :: t.written)

/-- The term without its positions. -/
def unplaced : Term → Term
  | .var _ x => .var default x
  | .const _ b => .const default b
  | .abs _ x ty t => .abs default x ty t.unplaced
  | .app _ t u => .app default t.unplaced u.unplaced
  | .ite _ c t e => .ite default c.unplaced t.unplaced e.unplaced
  | .tyAbs _ x t => .tyAbs default x t.unplaced
  | .tyApp _ t ty => .tyApp default t.unplaced ty
  | .letIn _ x e t => .letIn default x e.unplaced t.unplaced

end Term

namespace Parser

/-- The lexemes are read as the term, up to positions, where no argument follows. -/
def ReadAs (t : Term) (c : List Lexeme) : Prop :=
  ∃ u, u.unplaced = t.unplaced ∧ ∀ rest, EndsApp rest → outcome term (c ++ rest) = .ok (u, rest)

/-- The lexemes are read as the head of an application, to which arguments may be added. -/
def ReadAsHead (t : Term) (c : List Lexeme) : Prop :=
  ∃ pos u, u.unplaced = t.unplaced ∧
    ∀ rest, outcome term (c ++ rest) = outcome (arguments pos u) rest

/-- The lexemes are read as an argument. -/
def ReadAsAtom (t : Term) (c : List Lexeme) : Prop :=
  ∃ l c' u, c = l :: c' ∧ l.token.startsTerm ∧ l.token.opensForm = false ∧
    u.unplaced = t.unplaced ∧ ∀ rest, outcome atom (c ++ rest) = .ok (u, rest)

section ReadAs
variable {t u : Term} {a : Ty} {c c₁ c₂ : List Lexeme} {pos : Text.Position}

theorem ReadAsAtom.readAsHead (h : ReadAsAtom t c) : ReadAsHead t c := by
  obtain ⟨l, c', u, rfl, -, hopens, hu, hatom⟩ := h
  refine ⟨l.pos, u, hu, fun rest => ?_⟩
  have := hatom rest
  rw [List.cons_append] at this ⊢
  rw [term_cons, if_neg (by simp [hopens]), this]
  rfl

theorem ReadAsHead.readAs (h : ReadAsHead t c) : ReadAs t c := by
  obtain ⟨pos, u, hu, hhead⟩ := h
  refine ⟨u, hu, fun rest hrest => ?_⟩
  rw [hhead, arguments_of_endsApp hrest]

theorem ReadAsAtom.readAs (h : ReadAsAtom t c) : ReadAs t c := h.readAsHead.readAs

theorem ReadAs.parens (h : ReadAs t c) {l k : Lexeme} (hl : l.token = .lpar)
    (hk : k.token = .rpar) : ReadAsAtom t (l :: (c ++ [k])) := by
  obtain ⟨u, hu, hterm⟩ := h
  refine ⟨l, _, u, rfl, by rw [hl]; rfl, by rw [hl]; rfl, hu, fun rest => ?_⟩
  have hends : EndsApp (k :: rest) := by simp [EndsApp, hk, Token.startsTerm]
  simp [atom_cons, hl, hterm _ hends, expect_cons, hk]

theorem ReadAsHead.app (h₁ : ReadAsHead t c₁) (h₂ : ReadAsAtom u c₂) :
    ReadAsHead (.app pos t u) (c₁ ++ c₂) := by
  obtain ⟨p, t', ht', hhead⟩ := h₁
  obtain ⟨l, c', u', rfl, hstarts, -, hu', hatom⟩ := h₂
  refine ⟨p, .app p t' u', by simp [Term.unplaced, ht', hu'], fun rest => ?_⟩
  rw [List.append_assoc, hhead, List.cons_append, arguments_cons,
    if_neg (ne_lbrk_of_startsTerm hstarts), if_pos hstarts, ← List.cons_append, hatom]
  rfl

theorem ReadAsHead.tyApp (h : ReadAsHead t c₁) (hc₂ : tokens c₂ = a.written) {l k : Lexeme}
    (hl : l.token = .lbrk) (hk : k.token = .rbrk) :
    ReadAsHead (.tyApp pos t a) (c₁ ++ l :: (c₂ ++ [k])) := by
  obtain ⟨p, t', ht', hhead⟩ := h
  refine ⟨p, .tyApp p t' a, by simp [Term.unplaced, ht'], fun rest => ?_⟩
  have ha := @type_of_written a _ (k :: rest) hc₂ (by simp [EndsType, hk])
  rw [List.append_assoc, hhead]
  simp [arguments_cons, hl, ha, expect_cons, hk]

theorem readAs_abs {x : String} {ty : Option Ty} {l k₁ k₂ : Lexeme} (hl : l.token = .lambda)
    (hk₁ : k₁.token = .var x) (hk₂ : k₂.token = .dot)
    (hc₁ : tokens c₁ = match ty with | some a => .colon :: a.written | none => [])
    (h : ReadAs t c₂) : ReadAs (.abs pos x ty t) (l :: k₁ :: (c₁ ++ k₂ :: c₂)) := by
  obtain ⟨t', ht', hterm⟩ := h
  refine ⟨.abs l.pos x ty t', by simp [Term.unplaced, ht'], fun rest hrest => ?_⟩
  have hty : outcome ascription (c₁ ++ k₂ :: (c₂ ++ rest)) = .ok (ty, k₂ :: (c₂ ++ rest)) := by
    cases ty with
    | none =>
      obtain rfl := tokens_eq_nil_iff.mp hc₁
      simp [ascription_cons, hk₂]
    | some a =>
      obtain ⟨m, c, rfl, hm, hc⟩ := tokens_eq_cons_iff.mp hc₁
      have ha := @type_of_written a _ (k₂ :: (c₂ ++ rest)) hc (by simp [EndsType, hk₂])
      simp [ascription_cons, hm, ha]
  simp [form_cons, term_cons, hl, Token.opensForm, ident_cons, hk₁, hty, expect_cons, hk₂,
    hterm rest hrest]

theorem readAs_tyAbs {x : String} {l k₁ k₂ : Lexeme} (hl : l.token = .bigLambda)
    (hk₁ : k₁.token = .tyVar x) (hk₂ : k₂.token = .dot) (h : ReadAs t c) :
    ReadAs (.tyAbs pos x t) (l :: k₁ :: k₂ :: c) := by
  obtain ⟨t', ht', hterm⟩ := h
  refine ⟨.tyAbs l.pos x t', by simp [Term.unplaced, ht'], fun rest hrest => ?_⟩
  simp [form_cons, term_cons, hl, Token.opensForm, tyIdent_cons, hk₁, expect_cons, hk₂,
    hterm rest hrest]

theorem readAs_letIn {x : String} {l k₁ k₂ k₃ : Lexeme} (hl : l.token = .letKw)
    (hk₁ : k₁.token = .var x) (hk₂ : k₂.token = .eq) (hk₃ : k₃.token = .inKw)
    (h₁ : ReadAs u c₁) (h₂ : ReadAs t c₂) :
    ReadAs (.letIn pos x u t) (l :: k₁ :: k₂ :: (c₁ ++ k₃ :: c₂)) := by
  obtain ⟨u', hu', hdef⟩ := h₁
  obtain ⟨t', ht', hterm⟩ := h₂
  refine ⟨.letIn l.pos x u' t', by simp [Term.unplaced, hu', ht'], fun rest hrest => ?_⟩
  have hends : EndsApp (k₃ :: (c₂ ++ rest)) := by simp [EndsApp, hk₃, Token.startsTerm]
  rw [List.cons_append, term_cons, if_pos (by rw [hl]; rfl), form_cons, hl]
  simp [ident_cons, hk₁, expect_cons, hk₂, hdef _ hends, hk₃, hterm rest hrest]

theorem readAs_ite {i e : Term} {c₃ : List Lexeme} {l k₁ k₂ : Lexeme} (hl : l.token = .ifKw)
    (hk₁ : k₁.token = .thenKw) (hk₂ : k₂.token = .elseKw) (h₁ : ReadAs i c₁) (h₂ : ReadAs t c₂)
    (h₃ : ReadAs e c₃) : ReadAs (.ite pos i t e) (l :: (c₁ ++ k₁ :: (c₂ ++ k₂ :: c₃))) := by
  obtain ⟨i', hi', hcond⟩ := h₁
  obtain ⟨t', ht', hthen⟩ := h₂
  obtain ⟨e', he', helse⟩ := h₃
  refine ⟨.ite l.pos i' t' e', by simp [Term.unplaced, hi', ht', he'], fun rest hrest => ?_⟩
  have hends₁ : EndsApp (k₁ :: (c₂ ++ k₂ :: (c₃ ++ rest))) := by
    simp [EndsApp, hk₁, Token.startsTerm]
  have hends₂ : EndsApp (k₂ :: (c₃ ++ rest)) := by simp [EndsApp, hk₂, Token.startsTerm]
  rw [List.cons_append, term_cons, if_pos (by rw [hl]; rfl), form_cons, hl]
  simp [hcond _ hends₁, expect_cons, hk₁, hthen _ hends₂, hk₂, helse rest hrest]

end ReadAs

theorem readAsAtom_parens {t : Term} {c : List Lexeme} {ts : List Token}
    (hc : tokens c = .lpar :: (ts ++ [.rpar])) (h : ∀ c', tokens c' = ts → ReadAs t c') :
    ReadAsAtom t c := by
  obtain ⟨l, _, rfl, hl, hc⟩ := tokens_eq_cons_iff.mp hc
  obtain ⟨c', _, rfl, hc', hc⟩ := tokens_eq_append_iff.mp hc
  obtain ⟨k, hk, rfl⟩ := tokens_eq_singleton_iff.mp hc
  exact (h c' hc').parens hl hk

theorem readAsAtom_written {t : Term} (ht : t.isAtom) {c : List Lexeme}
    (hc : tokens c = t.written) : ReadAsAtom t c := by
  cases t with
  | var p x =>
    obtain ⟨l, hl, rfl⟩ := tokens_eq_singleton_iff.mp hc
    exact ⟨l, [], .var l.pos x, rfl, by rw [hl]; rfl, by rw [hl]; rfl, rfl,
      fun rest => by simp [atom_cons, hl]⟩
  | const p b =>
    obtain ⟨l, hl, rfl⟩ := tokens_eq_singleton_iff.mp hc
    refine ⟨l, [], .const l.pos b, rfl, ?_, ?_, rfl, fun rest => ?_⟩
    · rw [hl]
      cases b <;> rfl
    · rw [hl]
      cases b <;> rfl
    · cases b <;> simp [atom_cons, hl]
  | _ => simp [Term.isAtom] at ht

/-- A term is read back from its tokens, and the head of an application also in front of
arguments. -/
theorem readAs_written (t : Term) :
    (∀ c, tokens c = t.written → ReadAs t c) ∧
      (t.isHead → ∀ c, tokens c = t.written → ReadAsHead t c) := by
  have hhead : ∀ t : Term, (∀ c, tokens c = t.written → ReadAs t c) ∧
      (t.isHead → ∀ c, tokens c = t.written → ReadAsHead t c) →
      ∀ c, tokens c = (if t.isHead then t.written else .lpar :: (t.written ++ [.rpar])) →
        ReadAsHead t c := by
    intro t h c hc
    split at hc
    next ht => exact h.2 ht c hc
    next => exact (readAsAtom_parens hc h.1).readAsHead
  have of_head : ∀ t : Term, (∀ c, tokens c = t.written → ReadAsHead t c) →
      (∀ c, tokens c = t.written → ReadAs t c) ∧
        (t.isHead → ∀ c, tokens c = t.written → ReadAsHead t c) :=
    fun t h => ⟨fun c hc => (h c hc).readAs, fun _ => h⟩
  induction t with
  | var p x => exact of_head _ fun c hc => (readAsAtom_written rfl hc).readAsHead
  | const p b => exact of_head _ fun c hc => (readAsAtom_written rfl hc).readAsHead
  | app p t u iht ihu =>
    refine of_head _ fun c hc => ?_
    obtain ⟨c₁, c₂, rfl, hc₁, hc₂⟩ := tokens_eq_append_iff.mp hc
    refine (hhead t iht c₁ hc₁).app ?_
    split at hc₂
    next hu => exact readAsAtom_written hu hc₂
    next => exact readAsAtom_parens hc₂ ihu.1
  | tyApp p t ty ih =>
    refine of_head _ fun c hc => ?_
    obtain ⟨c₁, _, rfl, hc₁, hc⟩ := tokens_eq_append_iff.mp hc
    obtain ⟨l, _, rfl, hl, hc⟩ := tokens_eq_cons_iff.mp hc
    obtain ⟨c₂, _, rfl, hc₂, hc⟩ := tokens_eq_append_iff.mp hc
    obtain ⟨k, hk, rfl⟩ := tokens_eq_singleton_iff.mp hc
    exact (hhead t ih c₁ hc₁).tyApp hc₂ hl hk
  | abs p x ty t ih =>
    refine ⟨fun c hc => ?_, fun h => by simp [Term.isHead] at h⟩
    obtain ⟨l, _, rfl, hl, hc⟩ := tokens_eq_cons_iff.mp hc
    obtain ⟨k₁, _, rfl, hk₁, hc⟩ := tokens_eq_cons_iff.mp hc
    obtain ⟨c₁, _, rfl, hc₁, hc⟩ := tokens_eq_append_iff.mp hc
    obtain ⟨k₂, c₂, rfl, hk₂, hc₂⟩ := tokens_eq_cons_iff.mp hc
    exact readAs_abs hl hk₁ hk₂ hc₁ (ih.1 c₂ hc₂)
  | tyAbs p x t ih =>
    refine ⟨fun c hc => ?_, fun h => by simp [Term.isHead] at h⟩
    obtain ⟨l, _, rfl, hl, hc⟩ := tokens_eq_cons_iff.mp hc
    obtain ⟨k₁, _, rfl, hk₁, hc⟩ := tokens_eq_cons_iff.mp hc
    obtain ⟨k₂, c', rfl, hk₂, hc'⟩ := tokens_eq_cons_iff.mp hc
    exact readAs_tyAbs hl hk₁ hk₂ (ih.1 c' hc')
  | letIn p x e t ihe iht =>
    refine ⟨fun c hc => ?_, fun h => by simp [Term.isHead] at h⟩
    obtain ⟨l, _, rfl, hl, hc⟩ := tokens_eq_cons_iff.mp hc
    obtain ⟨k₁, _, rfl, hk₁, hc⟩ := tokens_eq_cons_iff.mp hc
    obtain ⟨k₂, _, rfl, hk₂, hc⟩ := tokens_eq_cons_iff.mp hc
    obtain ⟨c₁, _, rfl, hc₁, hc⟩ := tokens_eq_append_iff.mp hc
    obtain ⟨k₃, c₂, rfl, hk₃, hc₂⟩ := tokens_eq_cons_iff.mp hc
    exact readAs_letIn hl hk₁ hk₂ hk₃ (ihe.1 c₁ hc₁) (iht.1 c₂ hc₂)
  | ite p i t e ihi iht ihe =>
    refine ⟨fun c hc => ?_, fun h => by simp [Term.isHead] at h⟩
    obtain ⟨l, _, rfl, hl, hc⟩ := tokens_eq_cons_iff.mp hc
    obtain ⟨c₁, _, rfl, hc₁, hc⟩ := tokens_eq_append_iff.mp hc
    obtain ⟨k₁, _, rfl, hk₁, hc⟩ := tokens_eq_cons_iff.mp hc
    obtain ⟨c₂, _, rfl, hc₂, hc⟩ := tokens_eq_append_iff.mp hc
    obtain ⟨k₂, c₃, rfl, hk₂, hc₃⟩ := tokens_eq_cons_iff.mp hc
    exact readAs_ite hl hk₁ hk₂ (ihi.1 c₁ hc₁) (iht.1 c₂ hc₂) (ihe.1 c₃ hc₃)

end Parser

/-- The tokens of a binding. -/
def Binding.written (x : String) : Binding → List Token
  | .var (some a) => .var x :: .colon :: a.written
  | .var none => [.var x]
  | .tyVar => [.tyVar x]

/-- The tokens of a context, with commas between the bindings. -/
def Context.written : Context → List Token
  | [] => []
  | [(x, b)] => b.written x
  | (x, b) :: b' :: bs => b.written x ++ .comma :: written (b' :: bs)

namespace Parser

theorem binding_of_written {x : String} {b : Binding} {c rest : List Lexeme}
    (hc : tokens c = b.written x) (hrest : ∀ l ∈ rest.head?, l.token = .comma) :
    outcome binding (c ++ rest) = .ok ((x, b), rest) := by
  cases b with
  | tyVar =>
    obtain ⟨l, hl, rfl⟩ := tokens_eq_singleton_iff.mp hc
    simp [binding_cons, hl]
  | var ty =>
    cases ty with
    | none =>
      obtain ⟨l, hl, rfl⟩ := tokens_eq_singleton_iff.mp hc
      have hnone : outcome ascription rest = .ok (none, rest) := by
        cases rest with
        | nil => exact ascription_nil
        | cons k rest => simp [ascription_cons, hrest k rfl]
      simp [binding_cons, hl, hnone]
    | some a =>
      obtain ⟨l, _, rfl, hl, hc⟩ := tokens_eq_cons_iff.mp hc
      obtain ⟨k, c', rfl, hk, hc'⟩ := tokens_eq_cons_iff.mp hc
      have ha := @type_of_written a _ rest hc' fun m hm => by simp [hrest m hm]
      simp [binding_cons, hl, ascription_cons, hk, ha]

/-- A context is read back from its tokens. -/
theorem context_of_written (bs : Context) {c : List Lexeme} (hc : tokens c = bs.written) :
    outcome context c = .ok (bs, []) := by
  induction bs generalizing c with
  | nil =>
    obtain rfl := tokens_eq_nil_iff.mp hc
    exact context_nil
  | cons b bs ih =>
    obtain ⟨x, b⟩ := b
    cases bs with
    | nil =>
      have hb := @binding_of_written _ _ _ [] hc (by simp)
      simpa using context_of_binding hb moreContext_nil
    | cons b' bs =>
      obtain ⟨c₁, _, rfl, hc₁, hc⟩ := tokens_eq_append_iff.mp hc
      obtain ⟨k, c₂, rfl, hk, hc₂⟩ := tokens_eq_cons_iff.mp hc
      refine context_of_binding (binding_of_written hc₁ (by simp [hk])) ?_
      simp [moreContext_cons, hk, ih hc₂]

end Parser

end Surface

namespace Surface

theorem Ty.parse_of_writes {text : String} {a : Ty} (h : Writes text.toList a.written) :
    Ty.parse (Text.expand text) = .ok a := by
  refine Parser.parseAll_eq_ok_iff.mpr ?_
  have ha := @Parser.type_of_written a _ [] h.tokens_ofText (by simp [Parser.EndsType])
  rwa [List.append_nil] at ha

theorem Term.parse_of_writes {text : String} {t : Term} (h : Writes text.toList t.written) :
    ∃ u, u.unplaced = t.unplaced ∧ Term.parse (Text.expand text) = .ok u := by
  obtain ⟨u, hu, hterm⟩ := (Parser.readAs_written t).1 _ h.tokens_ofText
  refine ⟨u, hu, Parser.parseAll_eq_ok_iff.mpr ?_⟩
  have ht := hterm [] (by simp [Parser.EndsApp])
  rwa [List.append_nil] at ht

theorem Context.parse_of_writes {text : String} {bs : Context}
    (h : Writes text.toList bs.written) : Context.parse (Text.expand text) = .ok bs :=
  Parser.parseAll_eq_ok_iff.mpr (Parser.context_of_written bs h.tokens_ofText)

end Surface

/-- The type with the names under which it is printed. -/
def Ty.named (ν : Naming) : Ty → Surface.Ty
  | name x => .var x
  | var i _ => .var (ν.var i)
  | bool => .bool
  | arr a b => .arr (a.named ν) (b.named ν)
  | all x a => .all (ν.fresh x) (a.named (ν.bind (ν.fresh x)))

/-- The term with the names under which it is printed. -/
def Term.named (ν : Naming) : Term → Surface.Term
  | var _ i _ => .var default (ν.var i)
  | const _ b => .const default b
  | abs _ x ty t =>
    .abs default (ν.fresh x) (ty.map (Ty.named ν)) (t.named (ν.bind (ν.fresh x)))
  | app _ t u => .app default (t.named ν) (u.named ν)
  | ite _ c t e => .ite default (c.named ν) (t.named ν) (e.named ν)
  | tyAbs _ x t => .tyAbs default (ν.fresh x) (t.named (ν.bind (ν.fresh x)))
  | tyApp _ t ty => .tyApp default (t.named ν) (ty.named ν)
  | letIn _ x e t => .letIn default (ν.fresh x) (e.named ν) (t.named (ν.bind (ν.fresh x)))

theorem Ty.isCompound_named (ν : Naming) (a : Ty) : (a.named ν).isCompound = a.isCompound := by
  cases a <;> rfl

theorem Ty.text_named (ν : Naming) (a : Ty) : (a.named ν).text = a.print ν := by
  induction a generalizing ν with
  | arr a b iha ihb =>
    simp [named, Surface.Ty.text, print, iha, ihb, isCompound_named, parens]
  | all x a ih => simp [named, Surface.Ty.text, print, ih]
  | _ => rfl

theorem Ty.writes_print {ν : Naming} {a : Ty} (h : (a.named ν).Named) :
    Writes (a.print ν).toList (a.named ν).written := by
  rw [← text_named]
  exact Surface.Ty.writes_text h

namespace Term

theorem isHead_named (ν : Naming) (t : Term) : (t.named ν).isHead = t.isHead := by
  cases t <;> rfl

theorem isAtom_named (ν : Naming) (t : Term) : (t.named ν).isAtom = t.isAtom := by
  cases t <;> rfl

theorem toList_parens (s : String) : (parens s).toList = '(' :: (s.toList ++ [')']) := by
  simp [parens]

theorem writes_head {ν : Naming} {t : Term}
    (h : Writes (t.print ν).toList (t.named ν).written) :
    Writes (if t.isHead then t.print ν else parens (t.print ν)).toList
      (if (t.named ν).isHead then (t.named ν).written
        else .lpar :: ((t.named ν).written ++ [.rpar])) := by
  rw [isHead_named]
  split
  · exact h
  · rw [toList_parens]
    exact Surface.writes_parens h

theorem writes_atom {ν : Naming} {t : Term}
    (h : Writes (t.print ν).toList (t.named ν).written) :
    Writes (if t.isAtom then t.print ν else parens (t.print ν)).toList
      (if (t.named ν).isAtom then (t.named ν).written
        else .lpar :: ((t.named ν).written ++ [.rpar])) := by
  rw [isAtom_named]
  split
  · exact h
  · rw [toList_parens]
    exact Surface.writes_parens h

theorem writes_print {ν : Naming} {t : Term} (h : (t.named ν).Named) :
    Writes (t.print ν).toList (t.named ν).written := by
  induction t generalizing ν with
  | var p i n => exact IsName.writes (k := .term) h
  | const p b =>
    cases b with
    | true =>
      have htrue : Writes "true".toList [.trueKw] := .token rfl trivial
      simpa [print, named, Surface.Term.written] using htrue
    | false =>
      have hfalse : Writes "false".toList [.falseKw] := .token rfl trivial
      simpa [print, named, Surface.Term.written] using hfalse
  | abs p x ty t ih =>
    obtain ⟨hx, hty, ht⟩ := h
    have hbody : Writes ('.' :: ' ' :: (t.print (ν.bind (ν.fresh x))).toList)
        (.dot :: (t.named (ν.bind (ν.fresh x))).written) :=
      .symbol (c := '.') rfl (.blank (ih ht))
    cases ty with
    | none =>
      have habs : Writes ('λ' :: ((ν.fresh x).toList ++ _)) (.lambda :: .var (ν.fresh x) :: _) :=
        .symbol rfl (hx.writes.append hbody (endsWord_cons rfl _))
      simpa [print, named, Surface.Term.written] using habs
    | some a =>
      have ha : Writes (':' :: ' ' :: (a.print ν).toList) (.colon :: (a.named ν).written) :=
        .symbol (c := ':') rfl (.blank (Ty.writes_print (hty _ rfl)))
      have hrest := ha.append hbody (endsWord_cons rfl _)
      have habs : Writes ('λ' :: ((ν.fresh x).toList ++ _)) (.lambda :: .var (ν.fresh x) :: _) :=
        .symbol rfl (hx.writes.append hrest (endsWord_cons rfl _))
      simpa [print, named, Surface.Term.written] using habs
  | app p t u iht ihu =>
    have happ := (writes_head (iht h.1)).append (writes_atom (ihu h.2)).blank (endsWord_cons rfl _)
    simpa [print, named, Surface.Term.written] using happ
  | ite p c t e ihc iht ihe =>
    obtain ⟨hc, ht, he⟩ := h
    have hif : Writes "if".toList [.ifKw] := .token rfl trivial
    have hthen : Writes "then".toList [.thenKw] := .token rfl trivial
    have helse : Writes "else".toList [.elseKw] := .token rfl trivial
    have hlast := (helse.append (ihe he).blank (endsWord_cons rfl _)).blank
    have hbranches := (hthen.append ((iht ht).append hlast (endsWord_cons rfl _)).blank
      (endsWord_cons rfl _)).blank
    have hite := hif.append ((ihc hc).append hbranches (endsWord_cons rfl _)).blank
      (endsWord_cons rfl _)
    simpa [print, named, Surface.Term.written] using hite
  | tyAbs p x t ih =>
    have hbody : Writes ('.' :: ' ' :: (t.print (ν.bind (ν.fresh x))).toList)
        (.dot :: (t.named (ν.bind (ν.fresh x))).written) :=
      .symbol (c := '.') rfl (.blank (ih h.2))
    have habs : Writes ('Λ' :: ((ν.fresh x).toList ++ _)) (.bigLambda :: .tyVar (ν.fresh x) :: _) :=
      .symbol rfl (h.1.writes.append hbody (endsWord_cons rfl _))
    simpa [print, named, Surface.Term.written] using habs
  | tyApp p t ty ih =>
    have hty : Writes (' ' :: '[' :: ((ty.print ν).toList ++ [']']))
        (.lbrk :: ((ty.named ν).written ++ [.rbrk])) :=
      .blank (.symbol rfl ((Ty.writes_print h.2).append (Writes.nil.symbol (c := ']') rfl)
        (endsWord_cons rfl _)))
    have happ := (writes_head (ih h.1)).append hty (endsWord_cons rfl _)
    simpa [print, named, Surface.Term.written] using happ
  | letIn p x e t ihe iht =>
    obtain ⟨hx, he, ht⟩ := h
    have hlet : Writes "let".toList [.letKw] := .token rfl trivial
    have hin : Writes "in".toList [.inKw] := .token rfl trivial
    have hbody := (hin.append (iht ht).blank (endsWord_cons rfl _)).blank
    have heq : Writes (' ' :: '=' :: ' ' :: ((e.print ν).toList ++ _)) (.eq :: _) :=
      .blank (.symbol rfl (.blank ((ihe he).append hbody (endsWord_cons rfl _))))
    have hterm := hlet.append (hx.writes.append heq (endsWord_cons rfl _)).blank
      (endsWord_cons rfl _)
    simpa [print, named, Surface.Term.written, Kind.token] using hterm

end Term

/-- The binding with the names under which it is printed. -/
def Binding.named (ν : Naming) : Binding → Surface.Binding
  | .var ty => .var (some (ty.named ν))
  | .name => .var none
  | .tyVar => .tyVar

namespace Context

/-- The bindings of a context, given from the root on, with the names under which they are
printed. -/
def namedEntries (ν : Naming) : List Entry → Surface.Context
  | [] => []
  | e :: es => (e.name, e.binding.named ν) :: namedEntries (ν.bind e.name) es

/-- The printed form of the first binding. -/
theorem exists_printEntries_cons {ν : Naming} {e : Entry} (es : List Entry)
    (h : (e.binding.named ν).NamedFor e.name) :
    ∃ s, printEntries ν (e :: es) = s :: printEntries (ν.bind e.name) es ∧
      Writes s.toList ((e.binding.named ν).written e.name) := by
  obtain ⟨x, b⟩ := e
  cases b with
  | name => exact ⟨x, rfl, h.1.writes⟩
  | tyVar => exact ⟨x, rfl, IsName.writes (k := .type) h⟩
  | var ty =>
    have hty : Writes (':' :: ' ' :: (ty.print ν).toList) (.colon :: (ty.named ν).written) :=
      .symbol (c := ':') rfl (.blank (Ty.writes_print (h.2 _ rfl)))
    have hvar := h.1.writes.append hty (endsWord_cons rfl _)
    exact ⟨x ++ ": " ++ ty.print ν, rfl, by
      simpa [Binding.named, Surface.Binding.written, Kind.token] using hvar⟩

theorem writes_printEntries {ν : Naming} {es : List Entry}
    (h : ∀ b ∈ namedEntries ν es, b.2.NamedFor b.1) :
    Writes (", ".intercalate (printEntries ν es)).toList (namedEntries ν es).written := by
  induction es generalizing ν with
  | nil => simpa [printEntries, namedEntries, Surface.Context.written] using Writes.nil
  | cons e es ih =>
    obtain ⟨he, hes⟩ := List.forall_mem_cons.mp h
    obtain ⟨s, hs, hwrites⟩ := exists_printEntries_cons es he
    have ih := ih hes
    rw [hs]
    cases es with
    | nil => simpa [printEntries, namedEntries, Surface.Context.written] using hwrites
    | cons e' es =>
      obtain ⟨s', hs', -⟩ := exists_printEntries_cons es (hes _ List.mem_cons_self)
      rw [hs'] at ih ⊢
      have hcomma := hwrites.append (Writes.symbol (c := ',') rfl ih.blank) (endsWord_cons rfl _)
      rw [String.intercalate_cons_cons]
      simpa [namedEntries, Surface.Context.written, Token.ofChar] using hcomma

end Context

end LambdaTyping
