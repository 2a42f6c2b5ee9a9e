import Mathlib
import LambdaTyping.Proofs.Reparsing

/-!
# The text of surface syntax

Surface syntax is written with the fewest parentheses in types and with parentheses
around every compound term. What was read from some text, without expanding
shorthands, is read back from its own text: its names are words of the text, and so
they are scanned as the same names again. Parentheses leave no trace, so only
positions can change.
-/
namespace LambdaTyping.Surface

/-- Tokens in parentheses. -/
def parenthesized (ts : List Token) : List Token := .lpar :: (ts ++ [.rpar])

namespace Term

/-- The tokens of a term as it is written, with parentheses around every compound term. -/
def displayed : Term → List Token
  | .var _ x => [.var x]
  | .const _ b => [if b then .trueKw else .falseKw]
  | .abs _ x (some a) t =>
    parenthesized (.lambda :: .var x :: .colon :: (a.written ++ .dot :: t.displayed))
  | .abs _ x none t => parenthesized (.lambda :: .var x :: .dot :: t.displayed)
  | .app _ t u => parenthesized (t.displayed ++ u.displayed)
  | .ite _ c t e =>
    parenthesized (.ifKw :: (c.displayed ++ .thenKw :: (t.displayed ++ .elseKw :: e.displayed)))
  | .tyAbs _ x t => parenthesized (.bigLambda :: .tyVar x :: .dot :: t.displayed)
  | .tyApp _ t a => parenthesized (t.displayed ++ .lbrk :: (a.written ++ [.rbrk]))
  | .letIn _ x e t =>
    parenthesized (.letKw :: .var x :: .eq :: (e.displayed ++ .inKw :: t.displayed))

theorem renders_text (t : Term) : Renders t.text.toList t.displayed := by
  induction t with
  | var p x => exact .ofToken rfl
  | const p b => cases b <;> exact .ofToken rfl
  | abs p x ty t ih =>
    have hbody : Renders ('.' :: ' ' :: t.text.toList) (.dot :: t.displayed) :=
      .token (s := ".") rfl nofun (.blank ih)
    cases ty with
    | none =>
      have habs : Renders ('λ' :: (x.toList ++ _)) (.lambda :: .var x :: _) :=
        .token (s := "λ") rfl nofun (.token rfl (fun _ => endsWord_cons rfl _) hbody)
      simpa [Term.text, displayed, parenthesized] using renders_parens habs
    | some a =>
      have ha : Renders (':' :: ' ' :: (a.text.toList ++ _)) (.colon :: (a.written ++ _)) :=
        .token (s := ":") rfl nofun (.blank (a.renders_text.append hbody (endsWord_cons rfl _)))
      have habs : Renders ('λ' :: (x.toList ++ _)) (.lambda :: .var x :: _) :=
        .token (s := "λ") rfl nofun (.token rfl (fun _ => endsWord_cons rfl _) ha)
      simpa [Term.text, displayed, parenthesized] using renders_parens habs
  | app p t u iht ihu =>
    have happ := iht.append (.blank ihu) (endsWord_cons rfl _)
    simpa [Term.text, displayed, parenthesized] using renders_parens happ
  | ite p c t e ihc iht ihe =>
    have helse : Renders (' ' :: 'e' :: 'l' :: 's' :: 'e' :: ' ' :: _) (.elseKw :: _) :=
      .blank (.token (s := "else") rfl (fun _ => endsWord_cons rfl _) (.blank ihe))
    have hthen : Renders (' ' :: 't' :: 'h' :: 'e' :: 'n' :: ' ' :: _) (.thenKw :: _) :=
      .blank (.token (s := "then") rfl (fun _ => endsWord_cons rfl _)
        (.blank (iht.append helse (endsWord_cons rfl _))))
    have hif : Renders ('i' :: 'f' :: ' ' :: _) (.ifKw :: _) :=
      .token (s := "if") rfl (fun _ => endsWord_cons rfl _)
        (.blank (ihc.append hthen (endsWord_cons rfl _)))
    simpa [Term.text, displayed, parenthesized] using renders_parens hif
  | tyAbs p x t ih =>
    have hbody : Renders ('.' :: ' ' :: t.text.toList) (.dot :: t.displayed) :=
      .token (s := ".") rfl nofun (.blank ih)
    have habs : Renders ('Λ' :: (x.toList ++ _)) (.bigLambda :: .tyVar x :: _) :=
      .token (s := "Λ") rfl nofun (.token rfl (fun _ => endsWord_cons rfl _) hbody)
    simpa [Term.text, displayed, parenthesized] using renders_parens habs
  | tyApp p t a ih =>
    have ha : Renders (' ' :: '[' :: (a.text.toList ++ [']'])) (.lbrk :: (a.written ++ [.rbrk])) :=
      .blank (.token (s := "[") rfl nofun
        (a.renders_text.append (.ofToken (s := "]") rfl) (endsWord_cons rfl _)))
    have happ := ih.append ha (endsWord_cons rfl _)
    simpa [Term.text, displayed, parenthesized] using renders_parens happ
  | letIn p x e t ihe iht =>
    have hin : Renders (' ' :: 'i' :: 'n' :: ' ' :: _) (.inKw :: _) :=
      .blank (.token (s := "in") rfl (fun _ => endsWord_cons rfl _) (.blank iht))
    have heq : Renders (' ' :: '=' :: ' ' :: _) (.eq :: _) :=
      .blank (.token (s := "=") rfl nofun (.blank (ihe.append hin (endsWord_cons rfl _))))
    have hlet : Renders ('l' :: 'e' :: 't' :: ' ' :: (x.toList ++ _)) (.letKw :: .var x :: _) :=
      .token (s := "let") rfl (fun _ => endsWord_cons rfl _)
        (.blank (.token rfl (fun _ => endsWord_cons rfl _) heq))
    simpa [Term.text, displayed, parenthesized] using renders_parens hlet

theorem namedBy_displayed {P : Kind → String → Prop} {t : Term} :
    (∀ u ∈ t.displayed, u.NamedBy P) ↔ t.NamedBy P := by
  induction t with
  | const p b => cases b <;> simp [displayed, NamedBy, Token.NamedBy]
  | abs p x ty t ih =>
    cases ty <;> simp [displayed, parenthesized, NamedBy, Token.NamedBy, ← ih,
      ← Ty.namedBy_written, or_imp, forall_and]
  | _ => simp_all [displayed, parenthesized, NamedBy, Token.NamedBy, ← Ty.namedBy_written, or_imp,
      forall_and]

end Term

namespace Parser

/-- A term is read back from its tokens, as an argument would be. -/
theorem readAsAtom_displayed (t : Term) {c : List Lexeme} (hc : tokens c = t.displayed) :
    ReadAsAtom t c := by
  induction t generalizing c with
  | var p x => exact readAsAtom_written rfl hc
  | const p b => exact readAsAtom_written rfl hc
  | abs p x ty t ih =>
    cases ty with
    | none =>
      refine readAsAtom_parens hc fun c hc => ?_
      obtain ⟨l, _, rfl, hl, hc⟩ := tokens_eq_cons_iff.mp hc
      obtain ⟨k₁, _, rfl, hk₁, hc⟩ := tokens_eq_cons_iff.mp hc
      obtain ⟨k₂, c', rfl, hk₂, hc'⟩ := tokens_eq_cons_iff.mp hc
      show ReadAs _ (l :: k₁ :: ([] ++ k₂ :: c'))
      exact readAs_abs hl hk₁ hk₂ rfl (ih hc').readAs
    | some a =>
      refine readAsAtom_parens hc fun c hc => ?_
      obtain ⟨l, _, rfl, hl, hc⟩ := tokens_eq_cons_iff.mp hc
      obtain ⟨k₁, _, rfl, hk₁, hc⟩ := tokens_eq_cons_iff.mp hc
      obtain ⟨m, _, rfl, hm, hc⟩ := tokens_eq_cons_iff.mp hc
      obtain ⟨c₁, _, rfl, hc₁, hc⟩ := tokens_eq_append_iff.mp hc
      obtain ⟨k₂, c', rfl, hk₂, hc'⟩ := tokens_eq_cons_iff.mp hc
      have hann : tokens (m :: c₁) = .colon :: a.written := by rw [tokens_cons, hm, hc₁]
      show ReadAs _ (l :: k₁ :: (m :: c₁ ++ k₂ :: c'))
      exact readAs_abs hl hk₁ hk₂ hann (ih hc').readAs
  | app p t u iht ihu =>
    refine readAsAtom_parens hc fun c hc => ?_
    obtain ⟨c₁, c₂, rfl, hc₁, hc₂⟩ := tokens_eq_append_iff.mp hc
    exact ((iht hc₁).readAsHead.app (ihu hc₂)).readAs
  | ite p i t e ihi iht ihe =>
    refine readAsAtom_parens hc fun c hc => ?_
    obtain ⟨l, _, rfl, hl, hc⟩ := tokens_eq_cons_iff.mp hc
    obtain ⟨c₁, _, rfl, hc₁, hc⟩ := tokens_eq_append_iff.mp hc
    obtain ⟨k₁, _, rfl, hk₁, hc⟩ := tokens_eq_cons_iff.mp hc
    obtain ⟨c₂, _, rfl, hc₂, hc⟩ := tokens_eq_append_iff.mp hc
    obtain ⟨k₂, c₃, rfl, hk₂, hc₃⟩ := tokens_eq_cons_iff.mp hc
    exact readAs_ite hl hk₁ hk₂ (ihi hc₁).readAs (iht hc₂).readAs (ihe hc₃).readAs
  | tyAbs p x t ih =>
    refine readAsAtom_parens hc fun c hc => ?_
    obtain ⟨l, _, rfl, hl, hc⟩ := tokens_eq_cons_iff.mp hc
    obtain ⟨k₁, _, rfl, hk₁, hc⟩ := tokens_eq_cons_iff.mp hc
    obtain ⟨k₂, c', rfl, hk₂, hc'⟩ := tokens_eq_cons_iff.mp hc
    exact readAs_tyAbs hl hk₁ hk₂ (ih hc').readAs
  | tyApp p t a ih =>
    refine readAsAtom_parens hc fun c hc => ?_
    obtain ⟨c₁, _, rfl, hc₁, hc⟩ := tokens_eq_append_iff.mp hc
    obtain ⟨l, _, rfl, hl, hc⟩ := tokens_eq_cons_iff.mp hc
    obtain ⟨c₂, _, rfl, hc₂, hc⟩ := tokens_eq_append_iff.mp hc
    obtain ⟨k, hk, rfl⟩ := tokens_eq_singleton_iff.mp hc
    exact ((ih hc₁).readAsHead.tyApp hc₂ hl hk).readAs
  | letIn p x e t ihe iht =>
    refine readAsAtom_parens hc fun c hc => ?_
    obtain ⟨l, _, rfl, hl, hc⟩ := tokens_eq_cons_iff.mp hc
    obtain ⟨k₁, _, rfl, hk₁, hc⟩ := tokens_eq_cons_iff.mp hc
    obtain ⟨k₂, _, rfl, hk₂, hc⟩ := tokens_eq_cons_iff.mp hc
    obtain ⟨c₁, _, rfl, hc₁, hc⟩ := tokens_eq_append_iff.mp hc
    obtain ⟨k₃, c₂, rfl, hk₃, hc₂⟩ := tokens_eq_cons_iff.mp hc
    exact readAs_letIn hl hk₁ hk₂ hk₃ (ihe hc₁).readAs (iht hc₂).readAs

end Parser

theorem Ty.parse_text {a : Ty} (h : a.NamedBy IsWord) : Ty.parse a.text = .ok a := by
  have htokens := a.renders_text.tokens_ofText (namedBy_written.mpr h)
  refine Parser.parseAll_eq_ok_iff.mpr ?_
  have ha := @Parser.type_of_written a _ [] htokens (by simp [Parser.EndsType])
  rwa [List.append_nil] at ha

theorem Term.exists_parse_text {t : Term} (h : t.NamedBy IsWord) :
    ∃ u, Term.parse t.text = .ok u ∧ u.unplaced = t.unplaced := by
  have htokens := t.renders_text.tokens_ofText (namedBy_displayed.mpr h)
  obtain ⟨u, hu, hterm⟩ := (Parser.readAsAtom_displayed t htokens).readAs
  refine ⟨u, Parser.parseAll_eq_ok_iff.mpr ?_, hu⟩
  have ht := hterm [] (by simp [Parser.EndsApp])
  rwa [List.append_nil] at ht

/-- What was read from a text is read back from its own text, a term up to its positions. -/
theorem parse_text_of_parse (text : String) :
    (∀ a, Ty.parse text = .ok a → Ty.parse a.text = .ok a) ∧
    ∀ t, Term.parse text = .ok t → ∃ u, Term.parse t.text = .ok u ∧ u.unplaced = t.unplaced := by
  have hnames := Parser.hasNames_ofText text
  constructor
  · intro a ha
    exact Ty.parse_text ((Parser.reads_type (Parser.parseAll_eq_ok_iff.mp ha)).namedBy hnames)
  · intro t ht
    exact Term.exists_parse_text
      ((Parser.reads_term (Parser.parseAll_eq_ok_iff.mp ht)).namedBy hnames)

/-- Names that are shorthands elsewhere, and an annotation that ends at the dot of the
abstraction. -/
theorem parse_text_of_parse_shorthands :
    (∃ a, Ty.parse "(A → B) → ∀X, Let. X → Let" = .ok a ∧ Ty.parse a.text = .ok a) ∧
    ∃ t, Term.parse
        "λf: ∀X. X. let lambda = f x [A → ∀Z. Z] in if lambda then f else true" = .ok t ∧
      ∃ u, Term.parse t.text = .ok u ∧ u.unplaced = t.unplaced := by
  let a : Ty := .arr (.arr (.var "A") (.var "B"))
    (.all "X" (.all "Let" (.arr (.var "X") (.var "Let"))))
  let t : Term := .abs ⟨1, 1⟩ "f" (some (.all "X" (.var "X"))) (.letIn ⟨1, 12⟩ "lambda"
    (.tyApp ⟨1, 25⟩ (.app ⟨1, 25⟩ (.var ⟨1, 25⟩ "f") (.var ⟨1, 27⟩ "x"))
      (.arr (.var "A") (.all "Z" (.var "Z"))))
    (.ite ⟨1, 44⟩ (.var ⟨1, 47⟩ "lambda") (.var ⟨1, 59⟩ "f") (.const ⟨1, 66⟩ true)))
  have ha : Ty.parse "(A → B) → ∀X, Let. X → Let" = .ok a := by decide +kernel
  have ht : Term.parse
      "λf: ∀X. X. let lambda = f x [A → ∀Z. Z] in if lambda then f else true" = .ok t := by
    decide +kernel
  exact ⟨⟨a, ha, (parse_text_of_parse _).1 a ha⟩, t, ht, (parse_text_of_parse _).2 t ht⟩

end LambdaTyping.Surface
