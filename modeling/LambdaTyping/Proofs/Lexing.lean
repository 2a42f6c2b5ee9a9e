import Mathlib
import LambdaTyping.Scoping
import LambdaTyping.Proofs.FreshNames
import LambdaTyping.Proofs.ParseTrees

/-!
# Lexing

Texts made of words, symbols and blanks are read token by token, as long as no two words
touch. A name is a word that is read as itself: it is no keyword and no shorthand. All names
in a text that is accepted are of this kind, and they stay so when a number is added.
-/
namespace LambdaTyping

open Text Surface.Parser

/-- The tokens of some characters. -/
def scan (cs : List Char) : List Token := tokens (Lexeme.scanFrom .start cs)

/-- The token of a word that starts with the letter `c`. -/
def wordToken (c : Char) (w : List Char) : Token :=
  if c.isLower then .ofLowerWord (String.ofList (c :: w)) else .ofUpperWord (String.ofList (c :: w))

theorem tokens_scanFrom (k : Cursor) (cs : List Char) :
    tokens (Lexeme.scanFrom k cs) = scan cs := by
  unfold scan
  generalize Cursor.start = k'
  induction hn : cs.length using Nat.strong_induction_on generalizing cs k k' with
  | _ n ih =>
    subst hn
    cases cs with
    | nil => rw [Lexeme.scanFrom, Lexeme.scanFrom]
    | cons c cs =>
      rw [Lexeme.scanFrom, Lexeme.scanFrom]
      split
      · exact ih _ (by simp) _ _ _ rfl
      · split
        · have hle := (List.dropWhile_sublist (l := cs) isWordChar).length_le
          rw [tokens_cons, tokens_cons, ih _ (by simp only [List.length_cons]; omega) _ _ _ rfl]
        · rw [tokens_cons, tokens_cons, ih _ (by simp) _ _ _ rfl]

@[simp] theorem scan_nil : scan [] = [] := by
  rw [scan, Lexeme.scanFrom]
  rfl

theorem scan_blank {c : Char} (h : Lexeme.isBlank c) (cs : List Char) :
    scan (c :: cs) = scan cs := by
  rw [scan, Lexeme.scanFrom, if_pos h, tokens_scanFrom]

theorem isBlank_eq_false_of_isWordChar {c : Char} (h : isWordChar c) :
    Lexeme.isBlank c = false := by
  rw [← Bool.not_eq_true]
  intro hblank
  simp only [Lexeme.isBlank, Bool.or_eq_true, beq_iff_eq] at hblank
  obtain (((rfl | rfl) | rfl) | rfl) | rfl := hblank <;> simp [isWordChar] at h

theorem isWordChar_of_isAlpha {c : Char} (h : c.isAlpha) : isWordChar c := by
  simp [isWordChar, Char.isAlphanum, h]

theorem scan_word {c : Char} (h : c.isAlpha) (cs : List Char) :
    scan (c :: cs) = wordToken c (cs.takeWhile isWordChar) :: scan (cs.dropWhile isWordChar) := by
  have hblank := isBlank_eq_false_of_isWordChar (isWordChar_of_isAlpha h)
  rw [scan, Lexeme.scanFrom, if_neg (by simp [hblank]), if_pos h, tokens_cons, tokens_scanFrom]
  rfl

theorem scan_symbol {c : Char} (hblank : Lexeme.isBlank c = false) (halpha : c.isAlpha = false)
    (cs : List Char) : scan (c :: cs) = Token.ofChar c :: scan cs := by
  rw [scan, Lexeme.scanFrom, if_neg (by simp [hblank]), if_neg (by simp [halpha]), tokens_cons,
    tokens_scanFrom]

@[simp] theorem expandChars_nil : expandChars [] = [] := by rw [expandChars]

theorem expandChars_word {c : Char} (h : isWordChar c) (cs : List Char) :
    expandChars (c :: cs) =
      expandWord (c :: cs.takeWhile isWordChar) ++ expandChars (cs.dropWhile isWordChar) := by
  have hc : c ≠ '-' := by
    rintro rfl
    simp [isWordChar] at h
  rw [expandChars, if_pos h]
  exact fun _ hc' _ => hc hc'

theorem expandChars_symbol {c : Char} (h : isWordChar c = false) (hc : c ≠ '-') (cs : List Char) :
    expandChars (c :: cs) = expandChar c :: expandChars cs := by
  rw [expandChars, if_neg (by simp [h])]
  exact fun _ hc' _ => hc hc'

/-- The characters do not go on with a word. -/
def EndsWord (cs : List Char) : Prop := ∀ c ∈ cs.head?, isWordChar c = false

theorem endsWord_cons {c : Char} (h : isWordChar c = false) (cs : List Char) :
    EndsWord (c :: cs) := by
  simpa [EndsWord] using h

theorem EndsWord.append {cs rest : List Char} (h : EndsWord cs) (hrest : EndsWord rest) :
    EndsWord (cs ++ rest) := by
  cases cs with
  | nil => exact hrest
  | cons c cs => exact h

theorem EndsWord.takeWhile_append {w rest : List Char} (hw : ∀ c ∈ w, isWordChar c)
    (h : EndsWord rest) : (w ++ rest).takeWhile isWordChar = w := by
  rw [List.takeWhile_append_of_pos hw]
  cases rest with
  | nil => simp
  | cons c rest => simp [h c rfl]

theorem EndsWord.dropWhile_append {w rest : List Char} (hw : ∀ c ∈ w, isWordChar c)
    (h : EndsWord rest) : (w ++ rest).dropWhile isWordChar = rest := by
  rw [List.dropWhile_append_of_pos hw]
  cases rest with
  | nil => simp
  | cons c rest => simp [h c rfl]

theorem expandChars_word_append {c : Char} {w rest : List Char}
    (hw : ∀ d ∈ c :: w, isWordChar d) (hrest : EndsWord rest) :
    expandChars (c :: w ++ rest) = expandWord (c :: w) ++ expandChars rest := by
  obtain ⟨hc, hw⟩ := List.forall_mem_cons.mp hw
  rw [List.cons_append, expandChars_word hc, hrest.takeWhile_append hw, hrest.dropWhile_append hw]

/-- A character that is a token and no shorthand. -/
def isSymbol (c : Char) : Bool :=
  !isWordChar c && !Lexeme.isBlank c && c != '-' && expandChar c == c

theorem scan_of_isSymbol {c : Char} (hc : isSymbol c) (cs : List Char) :
    scan (c :: cs) = Token.ofChar c :: scan cs := by
  simp only [isSymbol, Bool.and_eq_true, Bool.not_eq_true'] at hc
  have halpha : c.isAlpha = false := by
    rw [← Bool.not_eq_true]
    exact fun h => by simp [isWordChar_of_isAlpha h] at hc
  exact scan_symbol hc.1.1.2 halpha cs

theorem expandChars_of_isSymbol {c : Char} (hc : isSymbol c) (cs : List Char) :
    expandChars (c :: cs) = c :: expandChars cs := by
  simp only [isSymbol, Bool.and_eq_true, Bool.not_eq_true', bne_iff_ne, beq_iff_eq] at hc
  rw [expandChars_symbol hc.1.1.1 hc.1.2, hc.2]

/-- The characters have no shorthands and scan to the tokens, whatever follows after a word. -/
structure Writes (cs : List Char) (ts : List Token) : Prop where
  expand : ∀ rest, EndsWord rest → expandChars (cs ++ rest) = cs ++ expandChars rest
  scan : ∀ rest, EndsWord rest → scan (cs ++ rest) = ts ++ scan rest

namespace Writes

variable {cs cs' w : List Char} {ts ts' : List Token} {c : Char}

theorem nil : Writes [] [] := ⟨fun _ _ => rfl, fun _ _ => rfl⟩

theorem append (h : Writes cs ts) (h' : Writes cs' ts') (hends : EndsWord cs') :
    Writes (cs ++ cs') (ts ++ ts') where
  expand rest hrest := by
    rw [List.append_assoc, h.expand _ (hends.append hrest), h'.expand rest hrest, List.append_assoc]
  scan rest hrest := by
    rw [List.append_assoc, h.scan _ (hends.append hrest), h'.scan rest hrest, List.append_assoc]

theorem blank (h : Writes cs ts) : Writes (' ' :: cs) ts where
  expand rest hrest := by
    rw [List.cons_append, expandChars_symbol rfl (by decide), h.expand rest hrest]
    rfl
  scan rest hrest := by rw [List.cons_append, scan_blank rfl, h.scan rest hrest]

theorem symbol (hc : isSymbol c) (h : Writes cs ts) : Writes (c :: cs) (Token.ofChar c :: ts) where
  expand rest hrest := by
    rw [List.cons_append, expandChars_of_isSymbol hc, h.expand rest hrest]
    rfl
  scan rest hrest := by
    rw [List.cons_append, scan_of_isSymbol hc, h.scan rest hrest]
    rfl

theorem word (hc : c.isAlpha) (hw : ∀ d ∈ w, isWordChar d)
    (hplain : expandWord (c :: w) = c :: w) : Writes (c :: w) [wordToken c w] where
  expand rest hrest := by
    have hall : ∀ d ∈ c :: w, isWordChar d :=
      List.forall_mem_cons.mpr ⟨isWordChar_of_isAlpha hc, hw⟩
    rw [expandChars_word_append hall hrest, hplain]
  scan rest hrest := by
    rw [List.cons_append, scan_word hc, hrest.takeWhile_append hw, hrest.dropWhile_append hw]
    rfl

theorem tokens_ofText {text : String} (h : Writes text.toList ts) :
    tokens (Source.ofText (Text.expand text)).lexemes = ts := by
  have hends : EndsWord [] := by simp [EndsWord]
  have hexpand := h.expand [] hends
  have hscan := h.scan [] hends
  simp only [List.append_nil, expandChars_nil, scan_nil] at hexpand hscan
  rw [Source.ofText, Text.expand, String.toList_ofList, hexpand]
  exact hscan

end Writes

/-- The token of a name. -/
def Kind.token : Kind → String → Token
  | .term, x => .var x
  | .type, x => .tyVar x

/-- A text that is scanned as a name of a given kind. -/
def IsWord (k : Kind) (x : String) : Prop :=
  ∃ c w, x.toList = c :: w ∧ c.isAlpha ∧ (∀ d ∈ w, isWordChar d) ∧ wordToken c w = k.token x

/-- A text that is read as a name of a given kind, also where shorthands are expanded. -/
structure IsName (k : Kind) (x : String) : Prop where
  word : IsWord k x
  plain : expandWord x.toList = x.toList

theorem IsName.writes {k : Kind} {x : String} (h : IsName k x) : Writes x.toList [k.token x] := by
  obtain ⟨c, w, hx, hc, hw, htoken⟩ := h.word
  have hplain := h.plain
  rw [hx] at hplain ⊢
  rw [← htoken]
  exact .word hc hw hplain

theorem eq_of_ofLowerWord {w : String} {k : Kind} {x : String}
    (h : Token.ofLowerWord w = k.token x) : k = .term ∧ w = x := by
  cases k <;> (unfold Token.ofLowerWord at h; split at h <;> simp_all [Kind.token])

theorem eq_of_ofUpperWord {w : String} {k : Kind} {x : String}
    (h : Token.ofUpperWord w = k.token x) : k = .type ∧ w = x := by
  cases k <;> (unfold Token.ofUpperWord at h; split at h <;> simp_all [Kind.token])

theorem eq_of_wordToken {k : Kind} {c : Char} {w : List Char} {x : String}
    (h : wordToken c w = k.token x) : x.toList = c :: w := by
  unfold wordToken at h
  split at h
  · rw [← (eq_of_ofLowerWord h).2, String.toList_ofList]
  · rw [← (eq_of_ofUpperWord h).2, String.toList_ofList]

theorem isWord_of_wordToken {k : Kind} {c : Char} {w : List Char} {x : String} (hc : c.isAlpha)
    (hw : ∀ d ∈ w, isWordChar d) (htoken : wordToken c w = k.token x) : IsWord k x :=
  ⟨c, w, eq_of_wordToken htoken, hc, hw, htoken⟩

theorem isName_of_wordToken {k : Kind} {c : Char} {w : List Char} {x : String} (hc : c.isAlpha)
    (hw : ∀ d ∈ w, isWordChar d) (hplain : expandWord (c :: w) = c :: w)
    (htoken : wordToken c w = k.token x) : IsName k x :=
  ⟨isWord_of_wordToken hc hw htoken, by rw [eq_of_wordToken htoken, hplain]⟩

theorem ofChar_ne_token (c : Char) (k : Kind) (x : String) : Token.ofChar c ≠ k.token x := by
  cases k <;> (unfold Token.ofChar; split <;> simp [Kind.token])

theorem ofChar_of_isWordChar {c : Char} (h : isWordChar c) : Token.ofChar c = .error := by
  unfold Token.ofChar
  split <;> first | rfl | simp [isWordChar] at h

/-- All names of a text are scanned as names again. -/
theorem isWord_of_mem_scan {cs : List Char} {k : Kind} {x : String} (hx : k.token x ∈ scan cs) :
    IsWord k x := by
  induction hn : cs.length using Nat.strong_induction_on generalizing cs with
  | _ n ih =>
    subst hn
    cases cs with
    | nil => simp at hx
    | cons c cs =>
      by_cases hblank : Lexeme.isBlank c
      · rw [scan_blank hblank] at hx
        exact ih cs.length (by simp) hx rfl
      · by_cases hc : c.isAlpha
        · have hle := (List.dropWhile_sublist (l := cs) isWordChar).length_le
          rw [scan_word hc, List.mem_cons] at hx
          rcases hx with hx | hx
          · exact isWord_of_wordToken hc (fun d hd => List.mem_takeWhile_imp hd) hx.symm
          · exact ih _ (by simp only [List.length_cons]; omega) hx rfl
        · rw [scan_symbol (by simpa using hblank) (by simpa using hc), List.mem_cons] at hx
          rcases hx with hx | hx
          · exact absurd hx.symm (ofChar_ne_token c k x)
          · exact ih cs.length (by simp) hx rfl

theorem isWordChar_expandChar {c : Char} (h : isWordChar c = false) :
    isWordChar (expandChar c) = false := by
  unfold expandChar
  split
  · rfl
  · rfl
  · rfl
  · exact h

/-- Between words, one character is taken at a time, or the two of an arrow. -/
theorem exists_expandChars_eq_cons {c : Char} (h : isWordChar c = false) (cs : List Char) :
    ∃ d cs', cs'.length ≤ cs.length ∧ isWordChar d = false ∧
      expandChars (c :: cs) = d :: expandChars cs' := by
  by_cases hc : c = '-'
  · subst hc
    by_cases hcs : ∃ cs', cs = '>' :: cs'
    · obtain ⟨cs', rfl⟩ := hcs
      exact ⟨'→', cs', by simp, rfl, by rw [expandChars]⟩
    · refine ⟨'-', cs, le_rfl, rfl, ?_⟩
      rw [expandChars, if_neg (by simp [h])]
      · rfl
      · exact fun cs' _ hcs' => hcs ⟨cs', hcs'⟩
  · exact ⟨expandChar c, cs, le_rfl, isWordChar_expandChar h, expandChars_symbol h hc cs⟩

theorem EndsWord.expandChars {cs : List Char} (h : EndsWord cs) : EndsWord (expandChars cs) := by
  cases cs with
  | nil => simpa using h
  | cons c cs =>
    obtain ⟨d, cs', -, hd, heq⟩ := exists_expandChars_eq_cons (h c rfl) cs
    rw [heq]
    exact endsWord_cons hd _

theorem endsWord_dropWhile (cs : List Char) : EndsWord (cs.dropWhile isWordChar) := by
  intro c hc
  have h := List.head?_dropWhile_not isWordChar cs
  rw [Option.mem_def.mp hc] at h
  simpa using h

theorem scan_keyword {c : Char} {w rest : List Char} (hc : c.isAlpha) (hw : ∀ d ∈ w, isWordChar d)
    (hrest : EndsWord rest) : scan (c :: w ++ rest) = wordToken c w :: scan rest := by
  rw [List.cons_append, scan_word hc, hrest.takeWhile_append hw, hrest.dropWhile_append hw]

/-- A shorthand stands for one token that is no name; other words stand for themselves. -/
theorem expandWord_cases (w : List Char) : expandWord w = w ∨
    ∃ t, (∀ k x, t ≠ Kind.token k x) ∧
      ∀ rest, EndsWord rest → scan (expandWord w ++ rest) = t :: scan rest := by
  have hsymbol : ∀ c, isSymbol c → ∃ t, (∀ k x, t ≠ Kind.token k x) ∧
      ∀ rest, EndsWord rest → scan ([c] ++ rest) = t :: scan rest := fun c hc =>
    ⟨_, ofChar_ne_token c, fun rest hrest => (Writes.nil.symbol hc).scan rest hrest⟩
  have hkeyword : ∀ c w t, c.isAlpha → w.all isWordChar → wordToken c w = t →
      (∀ k x, t ≠ Kind.token k x) → ∃ t, (∀ k x, t ≠ Kind.token k x) ∧
      ∀ rest, EndsWord rest → scan (c :: w ++ rest) = t :: scan rest := fun c w t hc hw ht hname =>
    ⟨t, hname, fun rest hrest => ht ▸ scan_keyword hc (List.all_eq_true.mp hw) hrest⟩
  unfold expandWord
  split
  · exact .inr (hsymbol 'λ' rfl)
  · exact .inr (hsymbol 'Λ' rfl)
  · exact .inr (hsymbol '∀' rfl)
  · exact .inr (hsymbol '∀' rfl)
  · exact .inr (hsymbol '∀' rfl)
  · exact .inr (hsymbol '∀' rfl)
  · exact .inr (hkeyword 'l' ['e', 't'] .letKw rfl rfl (by decide +kernel)
      (by rintro (_ | _) x <;> simp [Kind.token]))
  · exact .inr (hkeyword 'i' ['n'] .inKw rfl rfl (by decide +kernel)
      (by rintro (_ | _) x <;> simp [Kind.token]))
  · exact .inr (hkeyword 'i' ['f'] .ifKw rfl rfl (by decide +kernel)
      (by rintro (_ | _) x <;> simp [Kind.token]))
  · exact .inr (hkeyword 't' ['h', 'e', 'n'] .thenKw rfl rfl (by decide +kernel)
      (by rintro (_ | _) x <;> simp [Kind.token]))
  · exact .inr (hkeyword 'e' ['l', 's', 'e'] .elseKw rfl rfl (by decide +kernel)
      (by rintro (_ | _) x <;> simp [Kind.token]))
  · exact .inl rfl

/-- All names of a text are names, unless there is a character that starts no token. -/
theorem isName_of_mem_scan {cs : List Char} (hok : Token.error ∉ scan (expandChars cs)) {k : Kind}
    {x : String} (hx : k.token x ∈ scan (expandChars cs)) : IsName k x := by
  induction hn : cs.length using Nat.strong_induction_on generalizing cs with
  | _ n ih =>
    subst hn
    cases cs with
    | nil => simp at hx
    | cons c cs =>
      by_cases hc : isWordChar c
      · -- a word as a whole: a name, a shorthand or a keyword
        have hle := (List.dropWhile_sublist (l := cs) isWordChar).length_le
        have hrest := (endsWord_dropWhile cs).expandChars
        have ih' := @ih (cs.dropWhile isWordChar).length (by simp only [List.length_cons]; omega)
          (cs.dropWhile isWordChar)
        rw [expandChars_word hc] at hok hx
        have hw : ∀ d ∈ cs.takeWhile isWordChar, isWordChar d :=
          fun d hd => List.mem_takeWhile_imp hd
        rcases expandWord_cases (c :: cs.takeWhile isWordChar) with hplain | ⟨t, ht, hscan⟩
        · rw [hplain] at hok hx
          by_cases halpha : c.isAlpha
          · rw [scan_keyword halpha hw hrest, List.mem_cons, not_or] at hok
            rw [scan_keyword halpha hw hrest, List.mem_cons] at hx
            rcases hx with hx | hx
            · exact isName_of_wordToken halpha hw hplain hx.symm
            · exact ih' hok.2 hx rfl
          · rw [List.cons_append, scan_symbol (isBlank_eq_false_of_isWordChar hc)
              (by simpa using halpha), ofChar_of_isWordChar hc] at hok
            simp at hok
        · rw [hscan _ hrest, List.mem_cons, not_or] at hok
          rw [hscan _ hrest, List.mem_cons] at hx
          rcases hx with hx | hx
          · exact absurd hx.symm (ht k x)
          · exact ih' hok.2 hx rfl
      · obtain ⟨d, cs', hle, hd, heq⟩ := exists_expandChars_eq_cons (by simpa using hc) cs
        have ih' := @ih cs'.length (by simp only [List.length_cons]; omega) cs'
        rw [heq] at hok hx
        by_cases hblank : Lexeme.isBlank d
        · rw [scan_blank hblank] at hok hx
          exact ih' hok hx rfl
        · have halpha : d.isAlpha = false := by
            rw [← Bool.not_eq_true]
            exact fun h => by simp [isWordChar_of_isAlpha h] at hd
          rw [scan_symbol (by simpa using hblank) halpha, List.mem_cons, not_or] at hok
          rw [scan_symbol (by simpa using hblank) halpha, List.mem_cons] at hx
          rcases hx with hx | hx
          · exact absurd hx.symm (ofChar_ne_token d k x)
          · exact ih' hok.2 hx rfl

theorem toList_numbered_succ (x : String) (n : Nat) :
    (Name.numbered x (n + 1)).toList = x.toList ++ (n + 1).repr.toList := by
  simp [Name.numbered]

theorem isDigit_of_mem_repr {n : Nat} {c : Char} (h : c ∈ n.repr.toList) : c.isDigit := by
  rw [Nat.toList_repr] at h
  exact Nat.isDigit_of_mem_toDigits (by decide) (by decide) h

/-- The last character is a digit. -/
def EndsInDigit (x : String) : Prop := ∃ c ∈ x.toList.getLast?, c.isDigit

theorem endsInDigit_numbered_succ (x : String) (n : Nat) :
    EndsInDigit (Name.numbered x (n + 1)) := by
  have hne : (n + 1).repr.toList ≠ [] := by
    have hpos : 0 < (n + 1).repr.length := Nat.length_repr_pos
    rw [← String.length_toList] at hpos
    exact List.ne_nil_of_length_pos hpos
  refine ⟨(n + 1).repr.toList.getLast hne, ?_, isDigit_of_mem_repr (List.getLast_mem hne)⟩
  rw [toList_numbered_succ, List.getLast?_append_of_ne_nil _ hne]
  exact List.getLast?_eq_some_getLast hne

theorem EndsInDigit.ofLowerWord {x : String} (h : EndsInDigit x) :
    Token.ofLowerWord x = .var x := by
  obtain ⟨c, hc, hdigit⟩ := h
  unfold Token.ofLowerWord
  split <;> first | rfl | (simp at hc; subst hc; simp at hdigit)

theorem EndsInDigit.ofUpperWord {x : String} (h : EndsInDigit x) :
    Token.ofUpperWord x = .tyVar x := by
  obtain ⟨c, hc, hdigit⟩ := h
  unfold Token.ofUpperWord
  split <;> first | rfl | (simp at hc; subst hc; simp at hdigit)

theorem EndsInDigit.expandWord {x : String} (h : EndsInDigit x) :
    expandWord x.toList = x.toList := by
  obtain ⟨c, hc, hdigit⟩ := h
  unfold Text.expandWord
  rw [String.ofList_toList]
  split <;> first | rfl | (simp at hc; subst hc; simp at hdigit)

theorem IsName.numbered {k : Kind} {x : String} (h : IsName k x) (n : Nat) :
    IsName k (Name.numbered x n) := by
  cases n with
  | zero => exact h
  | succ n =>
    obtain ⟨c, w, hx, hc, hw, htoken⟩ := h.word
    have hdigit := endsInDigit_numbered_succ x n
    have hlist := toList_numbered_succ x n
    rw [hx, List.cons_append] at hlist
    refine ⟨⟨c, w ++ (n + 1).repr.toList, hlist, hc, ?_, ?_⟩, hdigit.expandWord⟩
    · intro d hd
      rcases List.mem_append.mp hd with hd | hd
      · exact hw d hd
      · simp [isWordChar, Char.isAlphanum, isDigit_of_mem_repr hd]
    · unfold wordToken at htoken ⊢
      rw [← hlist, String.ofList_toList, hdigit.ofLowerWord, hdigit.ofUpperWord]
      split at htoken
      next hlower =>
        obtain ⟨rfl, -⟩ := eq_of_ofLowerWord htoken
        exact if_pos hlower
      next hlower =>
        obtain ⟨rfl, -⟩ := eq_of_ofUpperWord htoken
        exact if_neg hlower

theorem isName_unusedLike {k : Kind} {x : String} (h : IsName k x) (used : NameSet) :
    IsName k (Name.unusedLike used x) := h.numbered _

/-- Tokens that are written as words. -/
def Token.isWord : Token → Bool
  | letKw | inKw | ifKw | thenKw | elseKw | trueKw | falseKw | boolKw | var _ | tyVar _ => true
  | _ => false

/-- A token is a symbol, a keyword or a name. -/
theorem Token.text?_cases {t : Token} {s : String} (h : t.text? = some s) :
    (∃ c, s.toList = [c] ∧ isSymbol c ∧ Token.ofChar c = t) ∨
    (∃ c w, t.isWord ∧ s.toList = c :: w ∧ c.isAlpha ∧ w.all isWordChar ∧
      expandWord (c :: w) = c :: w ∧ wordToken c w = t) ∨
    ∃ k, t.isWord ∧ t = Kind.token k s := by
  cases t with
  | letKw => cases h; exact .inr (.inl ⟨'l', ['e', 't'], by decide +kernel⟩)
  | inKw => cases h; exact .inr (.inl ⟨'i', ['n'], by decide +kernel⟩)
  | ifKw => cases h; exact .inr (.inl ⟨'i', ['f'], by decide +kernel⟩)
  | thenKw => cases h; exact .inr (.inl ⟨'t', ['h', 'e', 'n'], by decide +kernel⟩)
  | elseKw => cases h; exact .inr (.inl ⟨'e', ['l', 's', 'e'], by decide +kernel⟩)
  | trueKw => cases h; exact .inr (.inl ⟨'t', ['r', 'u', 'e'], by decide +kernel⟩)
  | falseKw => cases h; exact .inr (.inl ⟨'f', ['a', 'l', 's', 'e'], by decide +kernel⟩)
  | boolKw => cases h; exact .inr (.inl ⟨'B', ['o', 'o', 'l'], by decide +kernel⟩)
  | var x => cases h; exact .inr (.inr ⟨.term, rfl, rfl⟩)
  | tyVar x => cases h; exact .inr (.inr ⟨.type, rfl, rfl⟩)
  | lambda => cases h; exact .inl ⟨'λ', by decide +kernel⟩
  | bigLambda => cases h; exact .inl ⟨'Λ', by decide +kernel⟩
  | forAll => cases h; exact .inl ⟨'∀', by decide +kernel⟩
  | arrow => cases h; exact .inl ⟨'→', by decide +kernel⟩
  | dot => cases h; exact .inl ⟨'.', by decide +kernel⟩
  | comma => cases h; exact .inl ⟨',', by decide +kernel⟩
  | colon => cases h; exact .inl ⟨':', by decide +kernel⟩
  | eq => cases h; exact .inl ⟨'=', by decide +kernel⟩
  | lpar => cases h; exact .inl ⟨'(', by decide +kernel⟩
  | rpar => cases h; exact .inl ⟨')', by decide +kernel⟩
  | lbrk => cases h; exact .inl ⟨'[', by decide +kernel⟩
  | rbrk => cases h; exact .inl ⟨']', by decide +kernel⟩
  | error => cases h

/-- A token that is a name satisfies the condition. -/
def Token.NamedBy (P : Kind → String → Prop) : Token → Prop
  | var x => P .term x
  | tyVar x => P .type x
  | _ => True

theorem Token.NamedBy.mono {P Q : Kind → String → Prop} {t : Token} (h : t.NamedBy P)
    (hPQ : ∀ k x, P k x → Q k x) : t.NamedBy Q := by
  cases t <;> first | trivial | exact hPQ _ _ h

theorem Token.namedBy_token {P : Kind → String → Prop} {k : Kind} {x : String} :
    (Kind.token k x).NamedBy P ↔ P k x := by
  cases k <;> rfl

section
variable {t : Token} {s : String} {rest : List Char}

theorem scan_token (ht : t.text? = some s) (hname : t.NamedBy IsWord)
    (hrest : t.isWord → EndsWord rest) : scan (s.toList ++ rest) = t :: scan rest := by
  rcases Token.text?_cases ht with
    ⟨c, hs, hc, rfl⟩ | ⟨c, w, hword, hs, hc, hw, -, rfl⟩ | ⟨k, hword, rfl⟩
  · rw [hs]
    exact scan_of_isSymbol hc rest
  · rw [hs, scan_keyword hc (List.all_eq_true.mp hw) (hrest hword)]
  · obtain ⟨c, w, hs, hc, hw, htoken⟩ := Token.namedBy_token.mp hname
    rw [hs, scan_keyword hc hw (hrest hword), htoken]

theorem expandChars_token (ht : t.text? = some s) (hname : t.NamedBy IsName)
    (hrest : t.isWord → EndsWord rest) :
    expandChars (s.toList ++ rest) = s.toList ++ expandChars rest := by
  rcases Token.text?_cases ht with
    ⟨c, hs, hc, rfl⟩ | ⟨c, w, hword, hs, hc, hw, hplain, rfl⟩ | ⟨k, hword, rfl⟩
  · rw [hs]
    exact expandChars_of_isSymbol hc rest
  · rw [hs]
    exact (Writes.word hc (List.all_eq_true.mp hw) hplain).expand rest (hrest hword)
  · exact (Token.namedBy_token.mp hname).writes.expand rest (hrest hword)

end

/-- The characters are the texts of the tokens, with blanks anywhere between them, and a word ends
before the next token. What the names are does not matter here. -/
inductive Renders : List Char → List Token → Prop
  | nil : Renders [] []
  | blank {cs : List Char} {ts : List Token} (h : Renders cs ts) : Renders (' ' :: cs) ts
  | token {t : Token} {s : String} {cs : List Char} {ts : List Token} (ht : t.text? = some s)
    (hends : t.isWord → EndsWord cs) (h : Renders cs ts) : Renders (s.toList ++ cs) (t :: ts)

namespace Renders

variable {cs cs' : List Char} {ts ts' : List Token}

theorem ofToken {t : Token} {s : String} (ht : t.text? = some s) : Renders s.toList [t] := by
  simpa using Renders.token ht (by simp [EndsWord]) .nil

theorem append (h : Renders cs ts) (h' : Renders cs' ts') (hends : EndsWord cs') :
    Renders (cs ++ cs') (ts ++ ts') := by
  induction h with
  | nil => exact h'
  | blank _ ih => exact .blank ih
  | token ht hword _ ih =>
    rw [List.append_assoc]
    exact .token ht (fun hw => (hword hw).append hends) ih

/-- Rendered tokens are scanned as they are if their names are words. -/
theorem scan (h : Renders cs ts) (hnames : ∀ t ∈ ts, t.NamedBy IsWord) {rest : List Char}
    (hrest : EndsWord rest) : LambdaTyping.scan (cs ++ rest) = ts ++ LambdaTyping.scan rest := by
  induction h with
  | nil => rfl
  | blank _ ih => rw [List.cons_append, scan_blank rfl, ih hnames]
  | token ht hword _ ih =>
    obtain ⟨hname, hnames⟩ := List.forall_mem_cons.mp hnames
    rw [List.append_assoc, scan_token ht hname fun hw => (hword hw).append hrest, ih hnames]
    rfl

/-- Rendered tokens have no shorthands if their names are none. -/
theorem expand (h : Renders cs ts) (hnames : ∀ t ∈ ts, t.NamedBy IsName) {rest : List Char}
    (hrest : EndsWord rest) : expandChars (cs ++ rest) = cs ++ expandChars rest := by
  induction h with
  | nil => rfl
  | blank _ ih =>
    rw [List.cons_append, expandChars_symbol rfl (by decide), ih hnames]
    rfl
  | token ht hword _ ih =>
    obtain ⟨hname, hnames⟩ := List.forall_mem_cons.mp hnames
    rw [List.append_assoc, expandChars_token ht hname fun hw => (hword hw).append hrest, ih hnames,
      List.append_assoc]

theorem writes (h : Renders cs ts) (hnames : ∀ t ∈ ts, t.NamedBy IsName) : Writes cs ts where
  expand _ hrest := h.expand hnames hrest
  scan _ hrest := h.scan (fun t ht => (hnames t ht).mono fun _ _ hx => hx.word) hrest

theorem tokens_ofText {text : String} (h : Renders text.toList ts)
    (hnames : ∀ t ∈ ts, t.NamedBy IsWord) : tokens (Source.ofText text).lexemes = ts := by
  have hends : EndsWord [] := by simp [EndsWord]
  have hscan := h.scan hnames hends
  rwa [List.append_nil, scan_nil, List.append_nil] at hscan

end Renders

/-- A token is scanned from its text. -/
theorem Writes.token {t : Token} {s : String} (ht : t.text? = some s) (hname : t.NamedBy IsName) :
    Writes s.toList [t] :=
  (Renders.ofToken ht).writes (List.forall_mem_singleton.mpr hname)

namespace Surface

section
variable (P : Kind → String → Prop)

/-- All names of the type satisfy the condition. -/
def Ty.NamedBy : Ty → Prop
  | .var x => P .type x
  | .bool => True
  | .arr a b => a.NamedBy ∧ b.NamedBy
  | .all x a => P .type x ∧ a.NamedBy

/-- All names of the term satisfy the condition. -/
def Term.NamedBy : Term → Prop
  | .var _ x => P .term x
  | .const .. => True
  | .abs _ x ty t => P .term x ∧ (∀ a ∈ ty, a.NamedBy P) ∧ t.NamedBy
  | .app _ t u => t.NamedBy ∧ u.NamedBy
  | .ite _ c t e => c.NamedBy ∧ t.NamedBy ∧ e.NamedBy
  | .tyAbs _ x t => P .type x ∧ t.NamedBy
  | .tyApp _ t ty => t.NamedBy ∧ ty.NamedBy P
  | .letIn _ x e t => P .term x ∧ e.NamedBy ∧ t.NamedBy

def Binding.NamedForBy (x : String) : Binding → Prop
  | .var ty => P .term x ∧ ∀ a ∈ ty, a.NamedBy P
  | .tyVar => P .type x

end

/-- All names of the type are names of types. -/
abbrev Ty.Named (a : Ty) : Prop := a.NamedBy IsName

/-- All names of the term are names. -/
abbrev Term.Named (t : Term) : Prop := t.NamedBy IsName

abbrev Binding.NamedFor (x : String) (b : Binding) : Prop := b.NamedForBy IsName x

theorem Ty.namedBy_allOf {P : Kind → String → Prop} {xs : List String} {a : Ty} :
    (Ty.allOf xs a).NamedBy P ↔ (∀ x ∈ xs, P .type x) ∧ a.NamedBy P := by
  induction xs with
  | nil => simp [Ty.allOf]
  | cons x xs ih =>
    have hcons : (Ty.allOf (x :: xs) a).NamedBy P ↔ P .type x ∧ (Ty.allOf xs a).NamedBy P := Iff.rfl
    simp [hcons, ih, and_assoc]

namespace Parser

def Phrase.NamedBy (P : Kind → String → Prop) : Phrase → Prop
  | .idents xs => ∀ x ∈ xs, P .type x
  | .type a | .typeArg a | .quantified a => a.NamedBy P
  | .ascription ty => ∀ a ∈ ty, a.NamedBy P
  | .term t | .form t | .atom t => t.NamedBy P
  | .args _ head t => head.NamedBy P → t.NamedBy P
  | .binding b => b.2.NamedForBy P b.1
  | .context bs => ∀ b ∈ bs, b.2.NamedForBy P b.1

/-- The names of the lexemes satisfy the condition. -/
def HasNames (P : Kind → String → Prop) (ls : List Lexeme) : Prop :=
  ∀ l ∈ ls, ∀ k x, l.token = Kind.token k x → P k x

section
variable {P : Kind → String → Prop}

theorem hasNames_cons {l : Lexeme} {ls : List Lexeme} :
    HasNames P (l :: ls) ↔ (∀ k x, l.token = Kind.token k x → P k x) ∧ HasNames P ls :=
  List.forall_mem_cons

theorem HasNames.rest {φ : Phrase} {ls rest : List Lexeme} (h : HasNames P ls)
    (hreads : Reads φ ls rest) : HasNames P rest := by
  obtain ⟨c, rfl, -⟩ := hreads.derives
  exact fun l hl => h l (List.mem_append_right c hl)

theorem HasNames.tail {l : Lexeme} {ls : List Lexeme} (h : HasNames P (l :: ls)) :
    HasNames P ls := (hasNames_cons.mp h).2

theorem HasNames.isName {l : Lexeme} {ls : List Lexeme} (h : HasNames P (l :: ls)) {k : Kind}
    {x : String} (hl : l.token = k.token x) : P k x :=
  (hasNames_cons.mp h).1 k x hl

theorem Reads.namedBy {φ : Phrase} {ls rest : List Lexeme} (h : Reads φ ls rest)
    (hls : HasNames P ls) : φ.NamedBy P := by
  induction h with
  | ident hl => simpa [Phrase.NamedBy] using hls.isName (k := .type) hl
  | identsComma hl hk _ ih =>
    exact List.forall_mem_cons.mpr ⟨hls.isName (k := .type) hl, ih hls.tail.tail⟩
  | typeArg _ ih => exact ih hls
  | arrow hk h₁ _ ih₁ ih₂ => exact ⟨ih₁ hls, ih₂ (hls.rest h₁).tail⟩
  | bool => trivial
  | tyVar hl => exact hls.isName (k := .type) hl
  | typeParens _ _ _ ih => exact ih hls.tail
  | quantified _ _ ih => exact ih hls
  | forAll _ _ h₁ _ ih₁ ih₂ =>
    exact Ty.namedBy_allOf.mpr ⟨ih₁ hls.tail, ih₂ (hls.tail.rest h₁).tail⟩
  | noType => simp [Phrase.NamedBy]
  | ofType _ _ ih => simpa [Phrase.NamedBy] using ih hls.tail
  | form _ _ ih => exact ih hls
  | app h₁ _ ih₁ ih₂ => exact ih₂ (hls.rest h₁) (ih₁ hls)
  | letIn _ hk₁ _ _ h₁ _ ih₁ ih₂ =>
    have hls' := hls.tail.tail.tail
    exact ⟨hls.tail.isName (k := .term) hk₁, ih₁ hls', ih₂ (hls'.rest h₁).tail⟩
  | ite _ _ _ h₁ h₂ _ ih₁ ih₂ ih₃ =>
    have hls₁ := (hls.tail.rest h₁).tail
    exact ⟨ih₁ hls.tail, ih₂ hls₁, ih₃ (hls₁.rest h₂).tail⟩
  | abs _ hk₁ _ h₁ _ ih₁ ih₂ =>
    have hls' := hls.tail.tail
    exact ⟨hls.tail.isName (k := .term) hk₁, ih₁ hls', ih₂ (hls'.rest h₁).tail⟩
  | tyAbs _ hk₁ _ _ ih => exact ⟨hls.tail.isName (k := .type) hk₁, ih hls.tail.tail.tail⟩
  | noArgs => exact id
  | arg h₁ _ ih₁ ih₂ => exact fun hhead => ih₂ (hls.rest h₁) ⟨hhead, ih₁ hls⟩
  | tyArg _ _ h₁ _ ih₁ ih₂ =>
    exact fun hhead => ih₂ (hls.tail.rest h₁).tail ⟨hhead, ih₁ hls.tail⟩
  | var hl => exact hls.isName (k := .term) hl
  | true => trivial
  | false => trivial
  | parens _ _ _ ih => exact ih hls.tail
  | atomForm _ _ ih => exact ih hls
  | varBinding hl _ ih => exact ⟨hls.isName (k := .term) hl, ih hls.tail⟩
  | tyVarBinding hl => exact hls.isName (k := .type) hl
  | noBindings => simp [Phrase.NamedBy]
  | oneBinding _ ih => simpa [Phrase.NamedBy] using ih hls
  | bindingsComma _ h₁ _ ih₁ ih₂ =>
    exact List.forall_mem_cons.mpr ⟨ih₁ hls, ih₂ (hls.rest h₁).tail⟩

end

theorem error_notMem_of_derives {s : Symbol} {w : List Token} (h : Derives s w) :
    Token.error ∉ w := by
  induction h <;> simp_all

/-- What was accepted after shorthands were expanded has names only. -/
theorem hasNames_of_derives {s : Symbol} {text : String}
    (h : Derives s (tokens (Source.ofText (Text.expand text)).lexemes)) :
    HasNames IsName (Source.ofText (Text.expand text)).lexemes := by
  have hscan : tokens (Source.ofText (Text.expand text)).lexemes =
      scan (expandChars text.toList) := by
    rw [Source.ofText, Text.expand, String.toList_ofList, tokens_scanFrom]
  intro l hl k x hx
  refine @isName_of_mem_scan text.toList ?_ _ _ ?_
  · rw [← hscan]
    exact error_notMem_of_derives h
  · rw [← hscan, ← hx]
    exact List.mem_map_of_mem hl

theorem Reads.named_of_text {φ : Phrase} {text : String}
    (h : Reads φ (Source.ofText (Text.expand text)).lexemes []) : φ.NamedBy IsName := by
  obtain ⟨c, hc, hd⟩ := h.derives
  rw [List.append_nil] at hc
  rw [← hc] at hd
  exact h.namedBy (hasNames_of_derives hd)

/-- What was accepted as it stands has words for names. -/
theorem hasNames_ofText (text : String) : HasNames IsWord (Source.ofText text).lexemes := by
  intro l hl k x hx
  have hmem : l.token ∈ scan text.toList := List.mem_map_of_mem hl
  exact isWord_of_mem_scan (hx ▸ hmem)

end Parser

theorem Term.named_of_parse {text : String} {t : Term}
    (h : Term.parse (Text.expand text) = .ok t) : t.Named :=
  (Parser.reads_term (Parser.parseAll_eq_ok_iff.mp h)).named_of_text

theorem Ty.named_of_parse {text : String} {a : Ty}
    (h : Ty.parse (Text.expand text) = .ok a) : a.Named :=
  (Parser.reads_type (Parser.parseAll_eq_ok_iff.mp h)).named_of_text

theorem Context.named_of_parse {text : String} {bs : Context}
    (h : Context.parse (Text.expand text) = .ok bs) : ∀ b ∈ bs, b.2.NamedFor b.1 :=
  (Parser.reads_context (Parser.parseAll_eq_ok_iff.mp h)).named_of_text

end Surface

end LambdaTyping
