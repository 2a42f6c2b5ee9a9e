import Mathlib
import LambdaTyping.Proofs.Lexing

/-!
# Shorthands

Expanding shorthands works piece by piece: two texts that do not run into each other
are expanded one after the other. They run into each other if a word goes on over the
boundary, or if an arrow is put together there. What comes out of an expansion has no
shorthands left, whatever stands next to it. So an operator or a keyword may be
written with any of its shorthands, as long as these are kept apart from their
neighbours.
-/
namespace LambdaTyping

open Text

/-- Two neighbouring characters belong to one word or make up one arrow. -/
def joins (c d : Char) : Bool := isWordChar c && isWordChar d || c == '-' && d == '>'

/-- The character does not belong together with the first one after it. -/
def Apart (c : Char) (ds : List Char) : Prop := ∀ d ∈ ds.head?, joins c d = false

/-- The two texts do not run into each other. -/
def Separate (cs ds : List Char) : Prop := ∀ c ∈ cs.getLast?, Apart c ds

theorem joins_of_isWordChar {c d : Char} (hd : isWordChar d) : joins c d = isWordChar c := by
  have hgt : (d == '>') = false := beq_eq_false_iff_ne.mpr fun h => by
    subst h
    simp [isWordChar] at hd
  rw [joins, hd, hgt, Bool.and_true, Bool.and_false, Bool.or_false]

theorem joins_of_isSymbol {c d : Char} (hd : isSymbol d) (hgt : d ≠ '>') : joins c d = false := by
  simp only [isSymbol, Bool.and_eq_true, Bool.not_eq_true'] at hd
  rw [joins, hd.1.1.1, beq_eq_false_iff_ne.mpr hgt, Bool.and_false, Bool.and_false, Bool.or_false]

theorem joins_expandChar {c d : Char} (h : joins c d = false) : joins c (expandChar d) = false := by
  unfold expandChar
  split
  · exact joins_of_isSymbol rfl (by decide)
  · exact joins_of_isSymbol rfl (by decide)
  · exact joins_of_isSymbol rfl (by decide)
  · exact h

theorem apart_cons {c d : Char} {ds : List Char} : Apart c (d :: ds) ↔ joins c d = false := by
  simp [Apart]

theorem Apart.endsWord {c : Char} {ds : List Char} (h : Apart c ds) (hc : isWordChar c) :
    EndsWord ds := by
  intro d hd
  have hcd := h d hd
  rw [joins, hc, Bool.true_and, Bool.or_eq_false_iff] at hcd
  exact hcd.1

theorem EndsWord.apart {c : Char} {ds : List Char} (h : EndsWord ds) (hc : isWordChar c) :
    Apart c ds := by
  intro d hd
  have hminus : (c == '-') = false := beq_eq_false_iff_ne.mpr fun heq => by
    subst heq
    simp [isWordChar] at hc
  rw [joins, h d hd, hminus, Bool.and_false, Bool.false_and, Bool.or_false]

namespace Separate

variable {c : Char} {cs ds es : List Char}

@[simp] theorem nil_left : Separate [] ds := by simp [Separate]

@[simp] theorem nil_right : Separate cs [] := by simp [Separate, Apart]

theorem of_append (h : Separate (cs ++ ds) es) : Separate ds es := by
  intro c hc
  refine h c ?_
  rw [List.getLast?_append, Option.mem_def.mp hc]
  rfl

theorem of_cons (h : Separate (c :: ds) es) : Separate ds es :=
  have h' : Separate ([c] ++ ds) es := h
  h'.of_append

/-- What follows a character of the first text is its next one or the second text. -/
theorem apart_append (h : Separate (c :: cs) ds) (hc : Apart c cs) : Apart c (cs ++ ds) := by
  cases cs with
  | nil => exact h c rfl
  | cons d cs => exact apart_cons.mpr (apart_cons.mp hc)

/-- A word of the first text does not go on in the second one. -/
theorem endsWord_append {w rest : List Char} (h : Separate (c :: w ++ rest) ds)
    (hw : ∀ d ∈ c :: w, isWordChar d) (hrest : EndsWord rest) : EndsWord (rest ++ ds) := by
  cases rest with
  | cons d rest => exact hrest
  | nil =>
    rw [List.append_nil] at h
    have hlast := List.getLast?_eq_some_getLast (List.cons_ne_nil c w)
    exact (h _ hlast).endsWord (hw _ (List.getLast_mem _))

end Separate

theorem expandChars_arrow (cs : List Char) :
    expandChars ('-' :: '>' :: cs) = '→' :: expandChars cs := by
  rw [expandChars]

/-- A character outside words that does not start an arrow is expanded alone. -/
theorem expandChars_alone {c : Char} {cs : List Char} (hc : isWordChar c = false)
    (h : Apart c cs) : expandChars (c :: cs) = expandChar c :: expandChars cs := by
  rw [expandChars, if_neg (by simp [hc])]
  rintro cs' rfl rfl
  exact absurd (apart_cons.mp h) (by decide)

/-- The characters of a text are those of an arrow, of a word or one outside of both. -/
theorem pieces_induction {motive : List Char → Prop} (nil : motive [])
    (arrow : ∀ cs, motive cs → motive ('-' :: '>' :: cs))
    (word : ∀ c w rest, (∀ d ∈ c :: w, isWordChar d) → EndsWord rest → motive rest →
      motive (c :: w ++ rest))
    (alone : ∀ c cs, isWordChar c = false → Apart c cs → motive cs → motive (c :: cs))
    (cs : List Char) : motive cs := by
  induction cs using expandChars.induct with
  | case1 => exact nil
  | case2 cs ih => exact arrow cs ih
  | case3 c cs _ hc ih =>
    have hw : ∀ d ∈ c :: cs.takeWhile isWordChar, isWordChar d :=
      List.forall_mem_cons.mpr ⟨hc, fun d hd => List.mem_takeWhile_imp hd⟩
    have h := word c _ _ hw (endsWord_dropWhile cs) ih
    rwa [List.cons_append, List.takeWhile_append_dropWhile] at h
  | case4 c cs harrow hc ih =>
    refine alone c cs (by simpa using hc) ?_ ih
    intro d hd
    rw [joins, Bool.eq_false_iff.mpr hc, Bool.false_and, Bool.false_or, Bool.and_eq_false_iff,
      beq_eq_false_iff_ne, beq_eq_false_iff_ne]
    by_contra hne
    push Not at hne
    obtain ⟨cs', rfl⟩ := List.head?_eq_some_iff.mp (Option.mem_def.mp hd)
    exact harrow cs' hne.1 (by rw [hne.2])

theorem expandChars_append {cs ds : List Char} (h : Separate cs ds) :
    expandChars (cs ++ ds) = expandChars cs ++ expandChars ds := by
  induction cs using pieces_induction with
  | nil => simp
  | arrow cs ih =>
    rw [List.cons_append, List.cons_append, expandChars_arrow, expandChars_arrow,
      ih h.of_cons.of_cons, List.cons_append]
  | word c w rest hw hrest ih =>
    rw [List.append_assoc, expandChars_word_append hw (h.endsWord_append hw hrest),
      expandChars_word_append hw hrest, ih h.of_append, List.append_assoc]
  | alone c cs hc hcs ih =>
    rw [List.cons_append, expandChars_alone hc (h.apart_append hcs), expandChars_alone hc hcs,
      ih h.of_cons, List.cons_append]

/-- A word stands for an operator, or for a word that stands for itself. -/
theorem expandWord_shape {c : Char} {w : List Char} (hw : ∀ d ∈ c :: w, isWordChar d) :
    (∃ d, expandWord (c :: w) = [d] ∧ isSymbol d ∧ d ≠ '>') ∨
      ∃ d v, expandWord (c :: w) = d :: v ∧ (∀ e ∈ d :: v, isWordChar e) ∧
        expandWord (d :: v) = d :: v := by
  obtain ⟨v, hv⟩ : ∃ v, expandWord (c :: w) = v := ⟨_, rfl⟩
  rw [hv]
  have hcases := hv
  unfold expandWord at hcases
  split at hcases
  all_goals subst hcases
  · exact .inl ⟨'λ', rfl, rfl, by decide⟩
  · exact .inl ⟨'Λ', rfl, rfl, by decide⟩
  · exact .inl ⟨'∀', rfl, rfl, by decide⟩
  · exact .inl ⟨'∀', rfl, rfl, by decide⟩
  · exact .inl ⟨'∀', rfl, rfl, by decide⟩
  · exact .inl ⟨'∀', rfl, rfl, by decide⟩
  · exact .inr ⟨'l', ['e', 't'], rfl, List.all_eq_true.mp rfl, by decide +kernel⟩
  · exact .inr ⟨'i', ['n'], rfl, List.all_eq_true.mp rfl, by decide +kernel⟩
  · exact .inr ⟨'i', ['f'], rfl, List.all_eq_true.mp rfl, by decide +kernel⟩
  · exact .inr ⟨'t', ['h', 'e', 'n'], rfl, List.all_eq_true.mp rfl, by decide +kernel⟩
  · exact .inr ⟨'e', ['l', 's', 'e'], rfl, List.all_eq_true.mp rfl, by decide +kernel⟩
  · exact .inr ⟨c, w, rfl, hw, hv⟩

theorem expandChars_expandWord_append {c : Char} {w rest : List Char}
    (hw : ∀ d ∈ c :: w, isWordChar d) (hrest : EndsWord rest) :
    expandChars (expandWord (c :: w) ++ rest) = expandWord (c :: w) ++ expandChars rest := by
  rcases expandWord_shape hw with ⟨d, heq, hd, -⟩ | ⟨d, v, heq, hv, hself⟩
  · rw [heq, List.singleton_append, expandChars_of_isSymbol hd, List.singleton_append]
  · rw [heq, expandChars_word_append hv hrest, hself]

theorem expandChar_eq_or_isSymbol (c : Char) : expandChar c = c ∨ isSymbol (expandChar c) := by
  unfold expandChar
  split
  · exact .inr rfl
  · exact .inr rfl
  · exact .inr rfl
  · exact .inl rfl

/-- An expansion starts like its text, as far as the character before it is concerned. -/
theorem Apart.expandChars_append {c : Char} {cs ds : List Char} (h : Apart c (cs ++ ds)) :
    Apart c (expandChars cs ++ ds) := by
  cases cs using pieces_induction with
  | nil => simpa using h
  | arrow cs =>
    rw [expandChars_arrow, List.cons_append, apart_cons]
    exact joins_of_isSymbol rfl (by decide)
  | word e w rest hw hrest =>
    rw [expandChars_word_append hw hrest]
    rcases expandWord_shape hw with ⟨d, heq, hd, hgt⟩ | ⟨d, v, heq, hv, -⟩
    · rw [heq, List.append_assoc, List.singleton_append, apart_cons]
      exact joins_of_isSymbol hd hgt
    · have hde : joins c d = joins c e := by
        rw [joins_of_isWordChar (hv d List.mem_cons_self),
          joins_of_isWordChar (hw e List.mem_cons_self)]
      rw [heq, List.append_assoc, List.cons_append, apart_cons, hde]
      exact apart_cons.mp h
  | alone d cs hd hcs =>
    rw [expandChars_alone hd hcs, List.cons_append, apart_cons]
    exact joins_expandChar (apart_cons.mp h)

/-- An expansion is not expanded further, and joins with its neighbours as little as its text. -/
theorem expandChars_expandChars_append {cs ds : List Char} (h : Separate cs ds) :
    expandChars (expandChars cs ++ ds) = expandChars (cs ++ ds) := by
  induction cs using pieces_induction with
  | nil => rw [expandChars_nil]
  | arrow cs ih =>
    rw [expandChars_arrow, List.cons_append, expandChars_of_isSymbol rfl, ih h.of_cons.of_cons,
      List.cons_append, List.cons_append, expandChars_arrow]
  | word c w rest hw hrest ih =>
    have hends := h.endsWord_append hw hrest
    have hc := hw c List.mem_cons_self
    -- what the word stands for may be a word again, so what follows it must still end a word
    rw [expandChars_word_append hw hrest, List.append_assoc,
      expandChars_expandWord_append hw ((hends.apart hc).expandChars_append.endsWord hc),
      ih h.of_append, List.append_assoc, expandChars_word_append hw hends]
  | alone c cs hc hcs ih =>
    have hnext := h.apart_append hcs
    rw [expandChars_alone hc hcs, List.cons_append, List.cons_append, expandChars_alone hc hnext,
      ← ih h.of_cons]
    -- a `-` is kept, and no expansion starts with a `>` that its text does not start with
    rcases expandChar_eq_or_isSymbol c with heq | hsymbol
    · rw [heq, expandChars_alone hc hnext.expandChars_append, heq]
    · rw [expandChars_of_isSymbol hsymbol]

theorem expandChars_append_expandChars_append {cs ds es : List Char} (h : Separate cs ds)
    (h' : Separate ds es) :
    expandChars (cs ++ (expandChars ds ++ es)) = expandChars (cs ++ (ds ++ es)) := by
  cases ds with
  | nil => rw [expandChars_nil]
  | cons d ds =>
    have hjoined : Separate cs (d :: ds ++ es) := h
    have hexpanded : Separate cs (expandChars (d :: ds) ++ es) := fun c hc =>
      (hjoined c hc).expandChars_append
    rw [expandChars_append hexpanded, expandChars_expandChars_append h', expandChars_append hjoined]

theorem expand_append {s t : String} (h : Separate s.toList t.toList) :
    expand (s ++ t) = expand s ++ expand t := by
  rw [expand, String.toList_append, expandChars_append h, String.ofList_append, expand, expand]

theorem expand_expand (s : String) : expand (expand s) = expand s := by
  have h : expandChars (expandChars s.toList ++ []) = expandChars (s.toList ++ []) :=
    expandChars_expandChars_append Separate.nil_right
  rw [List.append_nil, List.append_nil] at h
  rw [expand, expand, String.toList_ofList, h]

/-- A piece of a text may be expanded on its own, if it is kept apart from its neighbours. -/
theorem expand_append_expand_append {s m t : String} (h : Separate s.toList m.toList)
    (h' : Separate m.toList t.toList) : expand (s ++ expand m ++ t) = expand (s ++ m ++ t) := by
  simp only [expand, String.toList_append, String.toList_ofList, List.append_assoc,
    expandChars_append_expandChars_append h h']

/-- The shorthands with the operators and keywords that they stand for. -/
def shorthands : List (String × String) :=
  [("lambda", "λ"), ("\\", "λ"), ("Lambda", "Λ"), ("|", "Λ"), ("^", "Λ"), ("forall", "∀"),
    ("forAll", "∀"), ("Forall", "∀"), ("ForAll", "∀"), ("->", "→"), ("Let", "let"), ("In", "in"),
    ("If", "if"), ("Then", "then"), ("Else", "else")]

theorem expand_of_mem_shorthands : ∀ p ∈ shorthands, expand p.1 = p.2 := by
  simp [shorthands, expand, expandChars, expandWord, expandChar, isWordChar]

/-- An operator or a keyword is written with a shorthand that is kept apart from its neighbours. -/
inductive Respells : String → String → Prop
  | intro {s short op t : String} (hmem : (short, op) ∈ shorthands)
    (hs : Separate s.toList short.toList) (ht : Separate short.toList t.toList) :
    Respells (s ++ op ++ t) (s ++ short ++ t)

theorem Respells.expand_eq {s t : String} (h : Respells s t) : expand s = expand t := by
  cases h with
  | @intro s short op t hmem hs ht =>
    have hop : expand short = op := expand_of_mem_shorthands _ hmem
    rw [← hop, expand_append_expand_append hs ht]

/-- The two texts are read as the same context, and as the same term and type in each context. -/
def ReadAlike (s t : String) : Prop :=
  Context.parse s = Context.parse t ∧
    ∀ Γ, Term.parse Γ s = Term.parse Γ t ∧ Ty.parse Γ s = Ty.parse Γ t

theorem readAlike_of_expand_eq {s t : String} (h : expand s = expand t) : ReadAlike s t := by
  refine ⟨?_, fun Γ => ⟨?_, ?_⟩⟩
  · rw [Context.parse, Context.parse, h]
  · rw [Term.parse, Term.parse, h]
  · rw [Ty.parse, Ty.parse, h]

/-- The notations agree. Shorthands are replaced by what they stand for and nothing is left to be
replaced, so that a text is read like its expansion. Texts are expanded piece by piece, so that
writing operators and keywords with their shorthands, any number of times and in both directions,
changes neither the expansion nor what is read. -/
theorem notations_agree :
    (∀ p ∈ shorthands, expand p.1 = p.2 ∧ expand p.2 = p.2) ∧
    (∀ s, expand (expand s) = expand s ∧ ReadAlike (expand s) s) ∧
    (∀ s t, Separate s.toList t.toList → expand (s ++ t) = expand s ++ expand t) ∧
    ∀ s t, Relation.EqvGen Respells s t → expand s = expand t ∧ ReadAlike s t := by
  refine ⟨fun p hp => ?_, fun s => ?_, fun s t => expand_append, fun s t h => ?_⟩
  · have hexpand := expand_of_mem_shorthands p hp
    exact ⟨hexpand, by rw [← hexpand, expand_expand]⟩
  · exact ⟨expand_expand s, readAlike_of_expand_eq (expand_expand s)⟩
  · have hexpand : expand s = expand t := by
      induction h with
      | rel s t h => exact h.expand_eq
      | refl s => rfl
      | symm s t _ ih => exact ih.symm
      | trans s t u _ _ ih ih' => exact ih.trans ih'
    exact ⟨hexpand, readAlike_of_expand_eq hexpand⟩

theorem notations_agree_mixed :
    (("ForAll", "∀") ∈ shorthands ∧ expand "ForAll" = "∀") ∧
    (Relation.EqvGen Respells "\\x: A→A. x" "λx: A->A. x" ∧
      ReadAlike "\\x: A→A. x" "λx: A->A. x") ∧
    Separate "a -".toList "- > b".toList ∧
      expand ("a -" ++ "- > b") = expand "a -" ++ expand "- > b" := by
  have hmem : ("ForAll", "∀") ∈ shorthands := by simp [shorthands]
  have hlambda : Respells ("" ++ "λ" ++ "x: A→A. x") ("" ++ "\\" ++ "x: A→A. x") :=
    .intro (by simp [shorthands]) (by simp) (by simp [Separate, Apart, joins, isWordChar])
  have harrow : Respells ("λx: A" ++ "→" ++ "A. x") ("λx: A" ++ "->" ++ "A. x") :=
    .intro (by simp [shorthands]) (by simp [Separate, Apart, joins, isWordChar])
      (by simp [Separate, Apart, joins, isWordChar])
  have hmixed : Relation.EqvGen Respells "\\x: A→A. x" "λx: A->A. x" :=
    .trans _ _ _ (.symm _ _ (.rel _ _ hlambda)) (.rel _ _ harrow)
  have hseparate : Separate "a -".toList "- > b".toList := by
    simp [Separate, Apart, joins, isWordChar]
  obtain ⟨hshort, -, happend, hrespelled⟩ := notations_agree
  exact ⟨⟨hmem, (hshort _ hmem).1⟩, ⟨hmixed, (hrespelled _ _ hmixed).2⟩, hseparate,
    happend _ _ hseparate⟩

end LambdaTyping
