import Mathlib
import LambdaTyping.Proofs.Grammar

/-!
# Syntax errors

The parsers look one lexeme ahead and never go back, so where a parser stops says more
than that it stopped: what it has read is a word of its language, or the start of one,
and it would have stopped there whatever follows the next lexeme. Together with the
grammar this places every syntax error at the first lexeme with which no accepted
source goes on.
-/
namespace LambdaTyping.Surface

namespace Parser

variable {α β : Type}

/-- How a parser for a language ends: what it has read is a word of the language, or the start of
one if it got stuck; and of what it has not read it has seen no more than the next lexeme. -/
def FitsAt (p : List Lexeme → Outcome (α × List Lexeme)) (L : Language Token)
    (ls : List Lexeme) : Prop :=
  match p ls with
  | .ok (a, rest) => ∃ c, ls = c ++ rest ∧ tokens c ∈ L ∧
      ∀ rest', rest'.head? = rest.head? → p (c ++ rest') = .ok (a, rest')
  | .error (e, rest) => ∃ c, ls = c ++ rest ∧ (∃ w, tokens c ++ w ∈ L) ∧
      ∀ rest', rest'.head? = rest.head? → p (c ++ rest') = .error (e, rest')

theorem head?_append_congr (c : List Lexeme) {r r' : List Lexeme} (h : r'.head? = r.head?) :
    (c ++ r').head? = (c ++ r).head? := by
  cases c <;> simp [h]

namespace FitsAt

variable {p : List Lexeme → Outcome (α × List Lexeme)}
  {q : α × List Lexeme → Outcome (β × List Lexeme)} {L M : Language Token} {ls : List Lexeme}

theorem of_ok {a : α} {rest : List Lexeme} (h : FitsAt p L ls) (hp : p ls = .ok (a, rest)) :
    ∃ c, ls = c ++ rest ∧ tokens c ∈ L ∧
      ∀ rest', rest'.head? = rest.head? → p (c ++ rest') = .ok (a, rest') := by
  simpa [FitsAt, hp] using h

theorem of_error {e : Expected} {rest : List Lexeme} (h : FitsAt p L ls)
    (hp : p ls = .error (e, rest)) :
    ∃ c, ls = c ++ rest ∧ (∃ w, tokens c ++ w ∈ L) ∧
      ∀ rest', rest'.head? = rest.head? → p (c ++ rest') = .error (e, rest') := by
  simpa [FitsAt, hp] using h

theorem mono (h : FitsAt p L ls) (hLM : ∀ w ∈ L, w ∈ M) : FitsAt p M ls := by
  cases hp : p ls with
  | ok x =>
    obtain ⟨c, hc, hL, hstable⟩ := h.of_ok hp
    simp only [FitsAt, hp]
    exact ⟨c, hc, hLM _ hL, hstable⟩
  | error x =>
    obtain ⟨c, hc, ⟨w, hw⟩, hstable⟩ := h.of_error hp
    simp only [FitsAt, hp]
    exact ⟨c, hc, ⟨w, hLM _ hw⟩, hstable⟩

theorem nothing {a : α} (hp : ∀ ls', ls'.head? = ls.head? → p ls' = .ok (a, ls')) (hL : [] ∈ L) :
    FitsAt p L ls := by
  simp only [FitsAt, hp ls rfl]
  exact ⟨[], rfl, hL, hp⟩

theorem stuck {e : Expected} (hp : ∀ ls', ls'.head? = ls.head? → p ls' = .error (e, ls'))
    (hL : ∃ w, w ∈ L) : FitsAt p L ls := by
  simp only [FitsAt, hp ls rfl]
  exact ⟨[], rfl, hL, hp⟩

theorem done (a : α) (ls : List Lexeme) : FitsAt (fun ls => .ok (a, ls)) 1 ls :=
  nothing (fun _ _ => rfl) rfl

theorem stuck_nil {e : Expected} (hp : p [] = .error (e, [])) (hL : ∃ w, w ∈ L) :
    FitsAt p L [] := by
  refine .stuck (e := e) (fun ls' h => ?_) hL
  rw [List.head?_eq_none_iff.mp h, hp]

theorem stuck_cons {e : Expected} {l : Lexeme} (hp : ∀ ls, p (l :: ls) = .error (e, l :: ls))
    (hL : ∃ w, w ∈ L) (ls : List Lexeme) : FitsAt p L (l :: ls) := by
  refine .stuck (e := e) (fun ls' h => ?_) hL
  obtain ⟨ls', rfl⟩ := List.head?_eq_some_iff.mp h
  exact hp ls'

theorem nothing_nil {a : α} (hp : p [] = .ok (a, [])) (hL : [] ∈ L) : FitsAt p L [] := by
  refine .nothing (a := a) (fun ls' h => ?_) hL
  rw [List.head?_eq_none_iff.mp h, hp]

theorem nothing_cons {a : α} {l : Lexeme} (hp : ∀ ls, p (l :: ls) = .ok (a, l :: ls)) (hL : [] ∈ L)
    (ls : List Lexeme) : FitsAt p L (l :: ls) := by
  refine .nothing (a := a) (fun ls' h => ?_) hL
  obtain ⟨ls', rfl⟩ := List.head?_eq_some_iff.mp h
  exact hp ls'

/-- One parser after the other. -/
theorem bind (hp : FitsAt p L ls)
    (hq : ∀ a rest, p ls = .ok (a, rest) → FitsAt (fun ls => q (a, ls)) M rest)
    (hM : ∃ w, w ∈ M) : FitsAt (fun ls => p ls >>= q) (L * M) ls := by
  cases h : p ls with
  | error x =>
    obtain ⟨c, hc, ⟨w, hw⟩, hstable⟩ := hp.of_error h
    obtain ⟨v, hv⟩ := hM
    simp only [FitsAt, h, error_bind]
    refine ⟨c, hc, ⟨w ++ v, ?_⟩, fun rest' hrest' => by rw [hstable rest' hrest']; rfl⟩
    rw [← List.append_assoc]
    exact Language.append_mem_mul hw hv
  | ok x =>
    obtain ⟨a, rest⟩ := x
    obtain ⟨c, hc, hL, hstable⟩ := hp.of_ok h
    cases h' : q (a, rest) with
    | ok y =>
      obtain ⟨b, rest₂⟩ := y
      obtain ⟨c₂, rfl, hM, hstable₂⟩ := (hq a rest h).of_ok h'
      simp only [FitsAt, h, ok_bind, h']
      refine ⟨c ++ c₂, by simpa using hc, ?_, fun rest' hrest' => ?_⟩
      · rw [tokens_append]
        exact Language.append_mem_mul hL hM
      · rw [List.append_assoc, hstable _ (head?_append_congr c₂ hrest'), ok_bind,
          hstable₂ rest' hrest']
    | error y =>
      obtain ⟨e, rest₂⟩ := y
      obtain ⟨c₂, rfl, ⟨w, hw⟩, hstable₂⟩ := (hq a rest h).of_error h'
      simp only [FitsAt, h, ok_bind, h']
      refine ⟨c ++ c₂, by simpa using hc, ⟨w, ?_⟩, fun rest' hrest' => ?_⟩
      · rw [tokens_append, List.append_assoc]
        exact Language.append_mem_mul hL hw
      · rw [List.append_assoc, hstable _ (head?_append_congr c₂ hrest'), ok_bind,
          hstable₂ rest' hrest']

theorem map (f : α → β) (h : FitsAt p L ls) :
    FitsAt (fun ls => p ls >>= fun x => .ok (f x.1, x.2)) L ls := by
  have hdone := h.bind (q := fun x => .ok (f x.1, x.2)) (fun a rest _ => done (f a) rest) ⟨[], rfl⟩
  rwa [mul_one] at hdone

/-- A lexeme in front that decides what is done next. -/
theorem cons {p' : List Lexeme → Outcome (α × List Lexeme)} {l : Lexeme}
    (hp : ∀ ls, p' (l :: ls) = p ls) (h : FitsAt p L ls) (hLM : ∀ w ∈ L, l.token :: w ∈ M) :
    FitsAt p' M (l :: ls) := by
  cases h' : p ls with
  | ok x =>
    obtain ⟨c, rfl, hL, hstable⟩ := h.of_ok h'
    simp only [FitsAt, hp, h']
    refine ⟨l :: c, rfl, hLM _ hL, fun rest' hrest' => ?_⟩
    rw [List.cons_append, hp, hstable rest' hrest']
  | error x =>
    obtain ⟨c, rfl, ⟨w, hw⟩, hstable⟩ := h.of_error h'
    simp only [FitsAt, hp, h']
    refine ⟨l :: c, rfl, ⟨w, hLM _ hw⟩, fun rest' hrest' => ?_⟩
    rw [List.cons_append, hp, hstable rest' hrest']

theorem congr {p' : List Lexeme → Outcome (α × List Lexeme)} {l : Lexeme}
    (hp : ∀ ls, p' (l :: ls) = p (l :: ls)) (h : FitsAt p L (l :: ls)) : FitsAt p' L (l :: ls) := by
  have hcongr : ∀ c r r', l :: ls = c ++ r → r'.head? = r.head? → p' (c ++ r') = p (c ++ r') := by
    intro c r r' hc hr
    have hhead := head?_append_congr c hr
    rw [← hc, List.head?_cons, List.head?_eq_some_iff] at hhead
    obtain ⟨ls', hls'⟩ := hhead
    rw [hls', hp]
  cases h' : p (l :: ls) with
  | ok x =>
    obtain ⟨c, hc, hL, hstable⟩ := h.of_ok h'
    simp only [FitsAt, hp, h']
    exact ⟨c, hc, hL, fun r' hr' => by rw [hcongr c _ r' hc hr', hstable r' hr']⟩
  | error x =>
    obtain ⟨c, hc, hL, hstable⟩ := h.of_error h'
    simp only [FitsAt, hp, h']
    exact ⟨c, hc, hL, fun r' hr' => by rw [hcongr c _ r' hc hr', hstable r' hr']⟩

end FitsAt

/-- The words that a symbol derives. -/
def words (s : Symbol) : Language Token := {w | Derives s w}

theorem exists_mem_mul {L M : Language Token} (hL : ∃ w, w ∈ L) (hM : ∃ w, w ∈ M) :
    ∃ w, w ∈ L * M := by
  obtain ⟨w, hw⟩ := hL
  obtain ⟨v, hv⟩ := hM
  exact ⟨w ++ v, Language.append_mem_mul hw hv⟩

theorem exists_mem_singleton (w : List Token) : ∃ v, v ∈ ({w} : Language Token) := ⟨w, rfl⟩

theorem exists_mem_words_type : ∃ w, w ∈ words .type := ⟨_, .typeArg .bool⟩

theorem exists_mem_words_term : ∃ w, w ∈ words .term := ⟨_, .app (.atomArgs .true .noArgs)⟩

theorem exists_mem_words_args : ∃ w, w ∈ words .args := ⟨[], .noArgs⟩

/-- Nothing, or what a symbol derives after a token. -/
def optionalAfter (t : Token) (s : Symbol) : Language Token :=
  {w | w = [] ∨ ∃ v, w = t :: v ∧ Derives s v}

theorem exists_mem_optionalAfter (t : Token) (s : Symbol) : ∃ w, w ∈ optionalAfter t s :=
  ⟨[], .inl rfl⟩

theorem fitsAt_expect (token : Token) (what : Expected) (ls : List Lexeme) :
    FitsAt (outcome (expect token what)) {[token]} ls := by
  cases ls with
  | nil => exact .stuck_nil (expect_nil token what) (exists_mem_singleton _)
  | cons l ls =>
    by_cases hl : l.token = token
    · refine .cons (fun ls => by rw [expect_cons, if_pos hl]) (.done () ls) ?_
      rintro _ rfl
      rw [hl]
      rfl
    · exact .stuck_cons (fun ls => by rw [expect_cons, if_neg hl]) (exists_mem_singleton _) ls

/-- One identifier of terms. -/
def identWords : Language Token := {w | ∃ x, w = [.var x]}

/-- One identifier of types. -/
def tyIdentWords : Language Token := {w | ∃ x, w = [.tyVar x]}

theorem exists_mem_identWords : ∃ w, w ∈ identWords := ⟨_, "", rfl⟩

theorem exists_mem_tyIdentWords : ∃ w, w ∈ tyIdentWords := ⟨_, "", rfl⟩

theorem fitsAt_ident (ls : List Lexeme) : FitsAt (outcome ident) identWords ls := by
  cases ls with
  | nil => exact .stuck_nil ident_nil exists_mem_identWords
  | cons l ls =>
    cases hl : l.token with
    | var x =>
      refine .cons (fun ls => by rw [ident_cons, hl]) (.done x ls) ?_
      rintro _ rfl
      exact ⟨x, by rw [hl]⟩
    | _ => exact .stuck_cons (fun ls => by rw [ident_cons, hl]) exists_mem_identWords ls

theorem fitsAt_tyIdent (ls : List Lexeme) : FitsAt (outcome tyIdent) tyIdentWords ls := by
  cases ls with
  | nil => exact .stuck_nil tyIdent_nil ⟨_, "", rfl⟩
  | cons l ls =>
    cases hl : l.token with
    | tyVar x =>
      refine .cons (fun ls => by rw [tyIdent_cons, hl]) (.done x ls) ?_
      rintro _ rfl
      exact ⟨x, by rw [hl]⟩
    | _ => exact .stuck_cons (fun ls => by rw [tyIdent_cons, hl]) exists_mem_tyIdentWords ls

theorem fitsAt_tyIdents (ls : List Lexeme) : FitsAt (outcome tyIdents) (words .idents) ls := by
  induction hn : ls.length using Nat.strong_induction_on generalizing ls with
  | _ n ih =>
    subst hn
    have hmore : ∀ ls', ls'.length < ls.length →
        FitsAt (outcome moreTyIdents) (optionalAfter .comma .idents) ls' := by
      intro ls' hlt
      cases ls' with
      | nil => exact .nothing_nil moreTyIdents_nil (.inl rfl)
      | cons l ls' =>
        by_cases hl : l.token = .comma
        · refine .cons (fun ls => by rw [moreTyIdents_cons, if_pos hl])
            (ih ls'.length ?_ ls' rfl) ?_
          · simp only [List.length_cons] at hlt
            omega
          · intro w hw
            exact .inr ⟨w, by rw [hl], hw⟩
        · exact .nothing_cons (fun ls => by rw [moreTyIdents_cons, if_neg hl]) (.inl rfl) ls'
    rw [show outcome tyIdents = _ from funext tyIdents_eq]
    refine (FitsAt.bind (fitsAt_tyIdent ls) (fun x ls₁ h₁ => .map (x :: ·) (hmore ls₁ ?_))
      (exists_mem_optionalAfter _ _)).mono ?_
    · exact length_lt_of_outcome h₁
    · rintro _ ⟨_, ⟨x, rfl⟩, w, hw, rfl⟩
      rcases hw with rfl | ⟨v, rfl, hv⟩
      · exact .ident x
      · exact .identsComma x hv

section Types
variable {l : Lexeme} {ls : List Lexeme}

theorem fitsAt_typeParens (hl : l.token = .lpar)
    (ih : ∀ ls', ls'.length ≤ ls.length → FitsAt (outcome type) (words .type) ls') :
    FitsAt (outcome typeArg) (words .typeArg) (l :: ls) := by
  refine .cons (fun ls => by rw [typeArg_cons, hl]) (.bind (ih ls le_rfl) (fun a ls₁ h₁ =>
    .map (fun _ => a) (fitsAt_expect .rpar .rpar ls₁)) (exists_mem_singleton _)) ?_
  rintro _ ⟨w, hw, _, rfl, rfl⟩
  rw [hl]
  exact .typeParens hw

theorem fitsAt_forAll (hl : l.token = .forAll)
    (ih : ∀ ls', ls'.length ≤ ls.length → FitsAt (outcome type) (words .type) ls') :
    FitsAt (outcome typeArg) (words .typeArg) (l :: ls) := by
  have hbody := exists_mem_mul (exists_mem_singleton [.dot]) exists_mem_words_type
  refine .cons (fun ls => by rw [typeArg_cons, hl]) (.bind (fitsAt_tyIdents ls) (fun xs ls₁ h₁ =>
    .bind (fitsAt_expect .dot .dot ls₁) (fun _ ls₂ h₂ => .map (Ty.allOf xs) (ih ls₂ ?_))
    exists_mem_words_type) hbody) ?_
  · have hlt₁ := length_lt_of_outcome h₁
    have hlt₂ := length_lt_of_outcome h₂
    omega
  · rintro _ ⟨w, hw, _, ⟨_, rfl, v, hv, rfl⟩, rfl⟩
    rw [hl]
    exact .quantified (.forAll hw hv)

theorem fitsAt_typeArg_of
    (ih : ∀ ls', ls'.length < ls.length → FitsAt (outcome type) (words .type) ls') :
    FitsAt (outcome typeArg) (words .typeArg) ls := by
  cases ls with
  | nil => exact .stuck_nil typeArg_nil ⟨_, .bool⟩
  | cons l ls =>
    have ih' : ∀ ls', ls'.length ≤ ls.length → FitsAt (outcome type) (words .type) ls' :=
      fun ls' h => ih ls' (Nat.lt_succ_of_le h)
    cases hl : l.token with
    | boolKw =>
      refine .cons (fun ls => by rw [typeArg_cons, hl]) (.done _ ls) ?_
      rintro _ rfl
      rw [hl]
      exact .bool
    | tyVar x =>
      refine .cons (fun ls => by rw [typeArg_cons, hl]) (.done _ ls) ?_
      rintro _ rfl
      rw [hl]
      exact .tyVar x
    | lpar => exact fitsAt_typeParens hl ih'
    | forAll => exact fitsAt_forAll hl ih'
    | _ => exact .stuck_cons (fun ls => by rw [typeArg_cons, hl]) ⟨_, Derives.bool⟩ ls

theorem fitsAt_codomain_of (a : Ty)
    (ih : ∀ ls', ls'.length < ls.length → FitsAt (outcome type) (words .type) ls') :
    FitsAt (outcome (codomain a)) (optionalAfter .arrow .type) ls := by
  cases ls with
  | nil => exact .nothing_nil (codomain_nil a) (.inl rfl)
  | cons l ls =>
    by_cases hl : l.token = .arrow
    · refine .cons (fun ls => by rw [codomain_cons, if_pos hl])
        (.map (Ty.arr a) (ih ls (Nat.lt_succ_self _))) fun w hw => ?_
      exact .inr ⟨w, by rw [hl], hw⟩
    · exact .nothing_cons (fun ls => by rw [codomain_cons, if_neg hl]) (.inl rfl) ls

end Types

theorem fitsAt_type (ls : List Lexeme) : FitsAt (outcome type) (words .type) ls := by
  induction hn : ls.length using Nat.strong_induction_on generalizing ls with
  | _ n ih =>
    subst hn
    have ih' : ∀ ls', ls'.length < ls.length → FitsAt (outcome type) (words .type) ls' :=
      fun ls' h => ih ls'.length h ls' rfl
    rw [show outcome type = _ from funext type_eq]
    refine (FitsAt.bind (fitsAt_typeArg_of ih')
      (fun a ls₁ h₁ => fitsAt_codomain_of a fun ls' h => ?_)
      (exists_mem_optionalAfter _ _)).mono ?_
    · exact ih' ls' (h.trans (length_lt_of_outcome h₁))
    · rintro _ ⟨w, hw, _, rfl | ⟨v, rfl, hv⟩, rfl⟩
      · dsimp only
        rw [List.append_nil]
        exact .typeArg hw
      · exact .arrow hw hv

theorem fitsAt_ascription (ls : List Lexeme) :
    FitsAt (outcome ascription) (words .ascription) ls := by
  cases ls with
  | nil => exact .nothing_nil ascription_nil .noType
  | cons l ls =>
    by_cases hl : l.token = .colon
    · refine .cons (fun ls => by rw [ascription_cons, if_pos hl]) (.map some (fitsAt_type ls)) ?_
      intro w hw
      rw [hl]
      exact .ofType hw
    · exact .nothing_cons (fun ls => by rw [ascription_cons, if_neg hl]) .noType ls

section Terms
variable {l : Lexeme} {ls : List Lexeme}

theorem fitsAt_letIn (hl : l.token = .letKw)
    (ih : ∀ ls', ls'.length ≤ ls.length → FitsAt (outcome term) (words .term) ls') :
    FitsAt (outcome form) (words .form) (l :: ls) := by
  have hbody := exists_mem_mul (exists_mem_singleton [.inKw]) exists_mem_words_term
  have hdef := exists_mem_mul exists_mem_words_term hbody
  have heq := exists_mem_mul (exists_mem_singleton [.eq]) hdef
  refine .cons (fun ls => by rw [form_cons, hl]) (.bind (fitsAt_ident ls) (fun x ls₁ h₁ =>
    .bind (fitsAt_expect .eq .eq ls₁) (fun _ ls₂ h₂ => .bind (ih ls₂ ?_) (fun e ls₃ h₃ =>
    .bind (fitsAt_expect .inKw .inKw ls₃) (fun _ ls₄ h₄ =>
    .map (Term.letIn l.pos x e) (ih ls₄ ?_)) exists_mem_words_term) hbody) hdef) heq) ?_
  · have hlt₁ := length_lt_of_outcome h₁
    have hlt₂ := length_lt_of_outcome h₂
    omega
  · have hlt₁ := length_lt_of_outcome h₁
    have hlt₂ := length_lt_of_outcome h₂
    have hlt₃ := length_lt_of_outcome h₃
    have hlt₄ := length_lt_of_outcome h₄
    omega
  · rintro _ ⟨_, ⟨x, rfl⟩, _, ⟨_, rfl, _, ⟨w, hw, _, ⟨_, rfl, v, hv, rfl⟩, rfl⟩, rfl⟩, rfl⟩
    rw [hl]
    exact .letIn x hw hv

theorem fitsAt_ite (hl : l.token = .ifKw)
    (ih : ∀ ls', ls'.length ≤ ls.length → FitsAt (outcome term) (words .term) ls') :
    FitsAt (outcome form) (words .form) (l :: ls) := by
  have helse := exists_mem_mul (exists_mem_singleton [.elseKw]) exists_mem_words_term
  have hbranch := exists_mem_mul exists_mem_words_term helse
  have hthen := exists_mem_mul (exists_mem_singleton [.thenKw]) hbranch
  refine .cons (fun ls => by rw [form_cons, hl]) (.bind (ih ls le_rfl) (fun c ls₁ h₁ =>
    .bind (fitsAt_expect .thenKw .thenKw ls₁) (fun _ ls₂ h₂ => .bind (ih ls₂ ?_) (fun t ls₃ h₃ =>
    .bind (fitsAt_expect .elseKw .elseKw ls₃) (fun _ ls₄ h₄ =>
    .map (Term.ite l.pos c t) (ih ls₄ ?_)) exists_mem_words_term) helse) hbranch) hthen) ?_
  · have hlt₁ := length_lt_of_outcome h₁
    have hlt₂ := length_lt_of_outcome h₂
    omega
  · have hlt₁ := length_lt_of_outcome h₁
    have hlt₂ := length_lt_of_outcome h₂
    have hlt₃ := length_lt_of_outcome h₃
    have hlt₄ := length_lt_of_outcome h₄
    omega
  · rintro _ ⟨u, hu, _, ⟨_, rfl, _, ⟨w, hw, _, ⟨_, rfl, v, hv, rfl⟩, rfl⟩, rfl⟩, rfl⟩
    rw [hl]
    exact .ite hu hw hv

theorem fitsAt_abs (hl : l.token = .lambda)
    (ih : ∀ ls', ls'.length ≤ ls.length → FitsAt (outcome term) (words .term) ls') :
    FitsAt (outcome form) (words .form) (l :: ls) := by
  have hbody := exists_mem_mul (exists_mem_singleton [.dot]) exists_mem_words_term
  have hty := exists_mem_mul (L := words .ascription) ⟨[], .noType⟩ hbody
  refine .cons (fun ls => by rw [form_cons, hl]) (.bind (fitsAt_ident ls) (fun x ls₁ h₁ =>
    .bind (fitsAt_ascription ls₁) (fun ty ls₂ h₂ => .bind (fitsAt_expect .dot .dot ls₂)
    (fun _ ls₃ h₃ => .map (Term.abs l.pos x ty) (ih ls₃ ?_)) exists_mem_words_term) hbody) hty) ?_
  · have hlt₁ := length_lt_of_outcome h₁
    have hlt₂ := length_lt_of_outcome h₂
    have hlt₃ := length_lt_of_outcome h₃
    omega
  · rintro _ ⟨_, ⟨x, rfl⟩, _, ⟨w, hw, _, ⟨_, rfl, v, hv, rfl⟩, rfl⟩, rfl⟩
    rw [hl]
    exact .abs x hw hv

theorem fitsAt_tyAbs (hl : l.token = .bigLambda)
    (ih : ∀ ls', ls'.length ≤ ls.length → FitsAt (outcome term) (words .term) ls') :
    FitsAt (outcome form) (words .form) (l :: ls) := by
  have hbody := exists_mem_mul (exists_mem_singleton [.dot]) exists_mem_words_term
  refine .cons (fun ls => by rw [form_cons, hl]) (.bind (fitsAt_tyIdent ls) (fun x ls₁ h₁ =>
    .bind (fitsAt_expect .dot .dot ls₁) (fun _ ls₂ h₂ => .map (Term.tyAbs l.pos x) (ih ls₂ ?_))
    exists_mem_words_term) hbody) ?_
  · have hlt₁ := length_lt_of_outcome h₁
    have hlt₂ := length_lt_of_outcome h₂
    omega
  · rintro _ ⟨_, ⟨x, rfl⟩, _, ⟨_, rfl, v, hv, rfl⟩, rfl⟩
    rw [hl]
    exact .tyAbs x hv

theorem fitsAt_form_of
    (ih : ∀ ls', ls'.length < ls.length → FitsAt (outcome term) (words .term) ls') :
    FitsAt (outcome form) (words .form) ls := by
  have hform : ∃ w, w ∈ words .form := ⟨_, .tyAbs "X" (.app (.atomArgs .true .noArgs))⟩
  cases ls with
  | nil => exact .stuck_nil form_nil hform
  | cons l ls =>
    have ih' : ∀ ls', ls'.length ≤ ls.length → FitsAt (outcome term) (words .term) ls' :=
      fun ls' h => ih ls' (Nat.lt_succ_of_le h)
    cases hl : l.token with
    | letKw => exact fitsAt_letIn hl ih'
    | ifKw => exact fitsAt_ite hl ih'
    | lambda => exact fitsAt_abs hl ih'
    | bigLambda => exact fitsAt_tyAbs hl ih'
    | _ => exact .stuck_cons (fun ls => by rw [form_cons, hl]) hform ls

theorem fitsAt_parens (hl : l.token = .lpar) (ih : FitsAt (outcome term) (words .term) ls) :
    FitsAt (outcome atom) (words .atom) (l :: ls) := by
  refine .cons (fun ls => by rw [atom_cons, hl]) (.bind ih (fun t ls₁ h₁ =>
    .map (fun _ => t) (fitsAt_expect .rpar .rpar ls₁)) (exists_mem_singleton _)) ?_
  rintro _ ⟨w, hw, _, rfl, rfl⟩
  rw [hl]
  exact .parens hw

theorem fitsAt_atom_of
    (ih : ∀ ls', ls'.length < ls.length → FitsAt (outcome term) (words .term) ls') :
    FitsAt (outcome atom) (words .atom) ls := by
  have hform := fitsAt_form_of ih
  cases ls with
  | nil => exact .stuck_nil atom_nil ⟨_, .true⟩
  | cons l ls =>
    cases hl : l.token with
    | var x =>
      refine .cons (fun ls => by rw [atom_cons, hl]) (.done _ ls) ?_
      rintro _ rfl
      rw [hl]
      exact .var x
    | trueKw =>
      refine .cons (fun ls => by rw [atom_cons, hl]) (.done _ ls) ?_
      rintro _ rfl
      rw [hl]
      exact .true
    | falseKw =>
      refine .cons (fun ls => by rw [atom_cons, hl]) (.done _ ls) ?_
      rintro _ rfl
      rw [hl]
      exact .false
    | lpar => exact fitsAt_parens hl (ih ls (Nat.lt_succ_self _))
    | letKw | ifKw | lambda | bigLambda =>
      exact .congr (fun ls => by rw [atom_cons, hl]) (hform.mono fun w hw => .atomForm hw)
    | _ => exact .stuck_cons (fun ls => by rw [atom_cons, hl]) ⟨_, Derives.true⟩ ls

theorem fitsAt_arguments_of (pos : Text.Position) (head : Term)
    (ih : ∀ ls', ls'.length < ls.length → FitsAt (outcome term) (words .term) ls') :
    FitsAt (outcome (arguments pos head)) (words .args) ls := by
  induction hn : ls.length using Nat.strong_induction_on generalizing ls head with
  | _ n iha =>
    subst hn
    cases ls with
    | nil => exact .nothing_nil (arguments_nil pos head) .noArgs
    | cons l ls =>
      by_cases hl : l.token = .lbrk
      · have hrest := exists_mem_mul (exists_mem_singleton [.rbrk]) exists_mem_words_args
        refine .cons (fun ls => by rw [arguments_cons, if_pos hl]) (.bind (fitsAt_type ls)
          (fun a ls₁ h₁ => .bind (fitsAt_expect .rbrk .rbrk ls₁) (fun _ ls₂ h₂ =>
          iha ls₂.length ?_ _ (fun ls' h => ih ls' ?_) rfl)
          exists_mem_words_args) hrest) ?_
        · have hlt₁ := length_lt_of_outcome h₁
          have hlt₂ := length_lt_of_outcome h₂
          simp only [List.length_cons]
          omega
        · have hlt₁ := length_lt_of_outcome h₁
          have hlt₂ := length_lt_of_outcome h₂
          simp only [List.length_cons]
          omega
        · rintro _ ⟨w, hw, _, ⟨_, rfl, v, hv, rfl⟩, rfl⟩
          rw [hl]
          exact .tyArg hw hv
      · by_cases hstarts : l.token.startsTerm
        · refine .congr (fun ls => by rw [arguments_cons, if_neg hl, if_pos hstarts])
            ((FitsAt.bind (fitsAt_atom_of ih) (fun u ls₁ h₁ =>
              iha ls₁.length (length_lt_of_outcome h₁) _ (fun ls' h => ih ls' ?_) rfl)
              exists_mem_words_args).mono ?_)
          · exact h.trans (length_lt_of_outcome h₁)
          · rintro _ ⟨w, hw, v, hv, rfl⟩
            exact .arg hw hv
        · exact .nothing_cons (fun ls => by rw [arguments_cons, if_neg hl, if_neg hstarts])
            .noArgs ls

end Terms

theorem fitsAt_term (ls : List Lexeme) : FitsAt (outcome term) (words .term) ls := by
  induction hn : ls.length using Nat.strong_induction_on generalizing ls with
  | _ n ih =>
    subst hn
    have ih' : ∀ ls', ls'.length < ls.length → FitsAt (outcome term) (words .term) ls' :=
      fun ls' h => ih ls'.length h ls' rfl
    cases ls with
    | nil => exact .stuck_nil term_nil exists_mem_words_term
    | cons l ls =>
      by_cases hl : l.token.opensForm
      · exact .congr (fun ls => by rw [term_cons, if_pos hl])
          ((fitsAt_form_of ih').mono fun w hw => .form hw)
      · refine .congr (fun ls => by rw [term_cons, if_neg hl])
          ((FitsAt.bind (fitsAt_atom_of ih') (fun t ls₁ h₁ =>
            fitsAt_arguments_of l.pos t fun ls' h => ih' ls' ?_) exists_mem_words_args).mono ?_)
        · exact h.trans (length_lt_of_outcome h₁)
        · rintro _ ⟨w, hw, v, hv, rfl⟩
          exact .app (.atomArgs hw hv)

theorem fitsAt_binding (ls : List Lexeme) : FitsAt (outcome binding) (words .binding) ls := by
  cases ls with
  | nil => exact .stuck_nil binding_nil ⟨_, .tyVarBinding "X"⟩
  | cons l ls =>
    cases hl : l.token with
    | var x =>
      refine .cons (fun ls => by rw [binding_cons, hl])
        (.map (fun ty => (x, Binding.var ty)) (fitsAt_ascription ls)) ?_
      intro w hw
      rw [hl]
      exact .varBinding x hw
    | tyVar x =>
      refine .cons (fun ls => by rw [binding_cons, hl]) (.done _ ls) ?_
      rintro _ rfl
      rw [hl]
      exact .tyVarBinding x
    | _ => exact .stuck_cons (fun ls => by rw [binding_cons, hl]) ⟨_, Derives.tyVarBinding "X"⟩ ls

theorem derives_context_of_binding {w v : List Token} (hw : Derives .binding w)
    (hv : v ∈ optionalAfter .comma .context) : Derives .context (w ++ v) := by
  obtain rfl | ⟨v, rfl, hv⟩ := hv
  · rw [List.append_nil]
    exact .bindings (.oneBinding hw)
  · cases hv with
    | noBindings => exact .trailingComma (.oneBinding hw)
    | bindings hv => exact .bindings (.bindingsComma hw hv)
    | trailingComma hv =>
      have := Derives.trailingComma (.bindingsComma hw hv)
      rwa [List.append_assoc] at this

theorem fitsAt_context (ls : List Lexeme) : FitsAt (outcome context) (words .context) ls := by
  induction hn : ls.length using Nat.strong_induction_on generalizing ls with
  | _ n ih =>
    subst hn
    cases ls with
    | nil => exact .nothing_nil context_nil .noBindings
    | cons l ls =>
      have hmore : ∀ ls', ls'.length < (l :: ls).length →
          FitsAt (outcome moreContext) (optionalAfter .comma .context) ls' := by
        intro ls' hlt
        cases ls' with
        | nil => exact .nothing_nil moreContext_nil (.inl rfl)
        | cons k ls' =>
          by_cases hk : k.token = .comma
          · refine .cons (fun ls => by rw [moreContext_cons, if_pos hk])
              (ih ls'.length ((Nat.lt_succ_self _).trans hlt) ls' rfl) fun w hw => ?_
            exact .inr ⟨w, by rw [hk], hw⟩
          · exact .nothing_cons (fun ls => by rw [moreContext_cons, if_neg hk]) (.inl rfl) ls'
      refine .congr (fun ls => by rw [context_cons]) ((FitsAt.bind (fitsAt_binding (l :: ls))
        (fun b ls₁ h₁ => .map (fun bs => b :: bs) (hmore ls₁ (length_lt_of_outcome h₁)))
        (exists_mem_optionalAfter _ _)).mono ?_)
      rintro _ ⟨w, hw, v, hv, rfl⟩
      exact derives_context_of_binding hw hv

theorem exists_tokens_eq (w : List Token) : ∃ ls, tokens ls = w :=
  ⟨w.map fun t => ⟨t, .start, 0⟩, by rw [tokens, List.map_map]; exact List.map_id w⟩

section Whole
variable {bound : List Lexeme → Nat} {p : (ls : List Lexeme) → Parsed α (bound ls)}

theorem parseAll_of_ok {source : Source} {a : α} {rest : List Lexeme}
    (h : outcome p source.lexemes = .ok (a, rest)) :
    parseAll source (p source.lexemes) =
      (parseEnd { source with lexemes := rest }).map fun _ => a := by
  cases hp : p source.lexemes with
  | stuck e rest => simp [outcome, hp] at h
  | done b rest' hlt =>
    simp only [outcome, hp, Reading.toExcept_done, Except.ok.injEq, Prod.mk.injEq] at h
    obtain ⟨rfl, rfl⟩ := h
    rfl

theorem parseAll_of_error {source : Source} {e : Expected} {rest : List Lexeme}
    (h : outcome p source.lexemes = .error (e, rest)) :
    parseAll source (p source.lexemes) = .error ⟨e, { source with lexemes := rest }.here⟩ := by
  cases hp : p source.lexemes with
  | done b rest' hlt => simp [outcome, hp] at h
  | stuck e' rest' =>
    simp only [outcome, hp, Reading.toExcept_stuck, Except.error.injEq, Prod.mk.injEq] at h
    obtain ⟨rfl, rfl⟩ := h
    rfl

theorem parseAll_eq_ok_iff {source : Source} {a : α} :
    parseAll source (p source.lexemes) = .ok a ↔ outcome p source.lexemes = .ok (a, []) := by
  cases h : outcome p source.lexemes with
  | error x => simp [parseAll_of_error h]
  | ok x =>
    obtain ⟨b, rest⟩ := x
    cases rest <;> simp [parseAll_of_ok h, parseEnd, Except.map]

/-- The parser accepts a sequence of tokens. -/
def Accepts (p : (ls : List Lexeme) → Parsed α (bound ls)) (w : List Token) : Prop :=
  ∃ source : Source, tokens source.lexemes = w ∧ ∃ a, parseAll source (p source.lexemes) = .ok a

/-- The parser reads a language: it accepts the words of it, and what it has read when it ends
is a word, or the start of one. -/
structure ParserFor (p : (ls : List Lexeme) → Parsed α (bound ls)) (L : Language Token) : Prop where
  fitsAt : ∀ ls, FitsAt (outcome p) L ls
  eq_ok : ∀ ls, tokens ls ∈ L → ∃ a, outcome p ls = .ok (a, [])

namespace ParserFor

variable {L : Language Token}

theorem exists_eq_ok_iff (h : ParserFor p L) {ls : List Lexeme} :
    (∃ a, outcome p ls = .ok (a, [])) ↔ tokens ls ∈ L := by
  refine ⟨fun ⟨a, ha⟩ => ?_, h.eq_ok ls⟩
  obtain ⟨c, hc, hL, -⟩ := (h.fitsAt ls).of_ok ha
  rwa [hc, List.append_nil]

theorem exists_parseAll_iff (h : ParserFor p L) (source : Source) :
    (∃ a, parseAll source (p source.lexemes) = .ok a) ↔ tokens source.lexemes ∈ L := by
  simp only [parseAll_eq_ok_iff, h.exists_eq_ok_iff]

theorem accepts_iff (h : ParserFor p L) {w : List Token} : Accepts p w ↔ w ∈ L := by
  constructor
  · rintro ⟨source, rfl, ha⟩
    exact (h.exists_parseAll_iff source).mp ha
  · intro hw
    obtain ⟨ls, rfl⟩ := exists_tokens_eq w
    exact ⟨⟨ls, ⟨1, 1⟩⟩, rfl, (h.exists_parseAll_iff ⟨ls, ⟨1, 1⟩⟩).mpr hw⟩

/-- A parser that does not reach the end after `c`, whatever follows the next lexeme, stands in
front of a lexeme with which no word goes on. -/
theorem notMem_of_stable (h : ParserFor p L) {c d : List Lexeme} {k : Lexeme}
    (hp : ∀ d', d'.head? = d.head? → ∀ a, outcome p (c ++ d') ≠ .ok (a, [])) (hk : k ∈ d.head?)
    (w : List Token) : tokens c ++ k.token :: w ∉ L := by
  intro hw
  obtain ⟨ls, rfl⟩ := exists_tokens_eq w
  obtain ⟨a, ha⟩ := h.eq_ok (c ++ k :: ls) (by simpa using hw)
  exact hp (k :: ls) (by simp [Option.mem_def.mp hk]) a ha

end ParserFor

/-- The place of the first offence of a source: what is before it can go on to something that is
accepted, but not with the lexeme that is there, and the source cannot end there either. -/
def FirstOffence (p : (ls : List Lexeme) → Parsed α (bound ls)) (source : Source)
    (pos : Text.Position) : Prop :=
  ∃ before after, source.lexemes = before ++ after ∧ pos = { source with lexemes := after }.here ∧
    (∃ w, Accepts p (tokens before ++ w)) ∧
    (∀ k ∈ after.head?, ∀ w, ¬ Accepts p (tokens before ++ k.token :: w)) ∧
    (after = [] → ¬ Accepts p (tokens before))

theorem ParserFor.firstOffence_of_error {L : Language Token} (h : ParserFor p L) {source : Source}
    {e : SyntaxError} (he : parseAll source (p source.lexemes) = .error e) :
    FirstOffence p source e.pos := by
  unfold FirstOffence
  simp only [h.accepts_iff]
  cases hp : outcome p source.lexemes with
  | error x =>
    obtain ⟨c, hc, hviable, hstable⟩ := (h.fitsAt _).of_error hp
    rw [parseAll_of_error hp] at he
    cases he
    have hstuck : ∀ d', d'.head? = x.2.head? → ∀ a, outcome p (c ++ d') ≠ .ok (a, []) := by
      intro d' hd' a
      simp [hstable d' hd']
    refine ⟨c, x.2, hc, rfl, hviable, fun k hk w => h.notMem_of_stable hstuck hk w,
      fun hnil hw => ?_⟩
    obtain ⟨a, ha⟩ := h.eq_ok c hw
    exact hstuck [] (by simp [hnil]) a (by simpa using ha)
  | ok x =>
    obtain ⟨a, rest⟩ := x
    obtain ⟨c, hc, hL, hstable⟩ := (h.fitsAt _).of_ok hp
    rw [parseAll_of_ok hp] at he
    cases rest with
    | nil => simp [parseEnd, Except.map] at he
    | cons k rest =>
      cases he
      have hmore : ∀ d', d'.head? = (k :: rest).head? → ∀ b, outcome p (c ++ d') ≠ .ok (b, []) := by
        rintro d' hd' b hb
        rw [hstable d' hd'] at hb
        cases hb
        simp at hd'
      refine ⟨c, k :: rest, hc, rfl, ⟨[], by simpa using hL⟩,
        fun k' hk' w => h.notMem_of_stable hmore hk' w, by simp⟩

end Whole

theorem parserFor_type : ParserFor type (words .type) where
  fitsAt := fitsAt_type
  eq_ok ls h := by
    obtain ⟨a, ha⟩ := GoesOn.eq_ok_of_endsType (passes_of_derives h rfl)
    exact ⟨a, by simpa using ha [] (by simp [EndsType])⟩

theorem parserFor_term : ParserFor term (words .term) where
  fitsAt := fitsAt_term
  eq_ok ls h := by
    obtain ⟨t, ht⟩ := GoesOn.eq_ok_of_endsApp (passes_of_derives h rfl)
    exact ⟨t, by simpa using ht [] (by simp [EndsApp])⟩

theorem parserFor_context : ParserFor context (words .context) where
  fitsAt := fitsAt_context
  eq_ok _ h := passes_of_derives h rfl

end Parser

/-- A syntax error is reported at the first lexeme with which nothing that is accepted goes on. -/
theorem pos_of_syntaxError (text : String) :
    (∀ e, Term.parse text = .error e → Parser.FirstOffence Parser.term (.ofText text) e.pos) ∧
    (∀ e, Ty.parse text = .error e → Parser.FirstOffence Parser.type (.ofText text) e.pos) ∧
    (∀ e, Context.parse text = .error e →
      Parser.FirstOffence Parser.context (.ofText text) e.pos) :=
  ⟨fun _ he => Parser.parserFor_term.firstOffence_of_error he,
    fun _ he => Parser.parserFor_type.firstOffence_of_error he,
    fun _ he => Parser.parserFor_context.firstOffence_of_error he⟩

theorem pos_of_syntaxError_missingDot :
    Term.parse "λ x x" = .error ⟨.dot, ⟨1, 5⟩⟩ ∧
      Parser.FirstOffence Parser.term (.ofText "λ x x") ⟨1, 5⟩ := by
  have he : Term.parse "λ x x" = .error ⟨.dot, ⟨1, 5⟩⟩ := by decide +kernel
  exact ⟨he, (pos_of_syntaxError "λ x x").1 _ he⟩

end LambdaTyping.Surface
