import Mathlib
import LambdaTyping.Proofs.Lexing

/-!
# The spans of tokens

A text is split into tokens without loss. Its lexemes cover it from the start to the
end: a token is read from the characters that it is written with, a character that
starts no token is read alone, and only blanks are passed over. All that is to be
known of the byte offsets of the lexemes follows from the lengths of the parts.
-/
namespace LambdaTyping

open Text Surface.Parser
open String (utf8Len)

theorem Text.Cursor.offset_skip (k : Cursor) (cs : List Char) :
    (k.skip cs).offset = k.offset + utf8Len cs := by
  induction cs generalizing k with
  | nil => rfl
  | cons c cs ih =>
    have hadvance : (k.advance c).offset = k.offset + c.utf8Size := rfl
    rw [Cursor.skip_cons, ih, hadvance, String.utf8Len_cons]
    omega

theorem Text.Cursor.offset_start_skip (cs : List Char) :
    (Cursor.start.skip cs).offset = utf8Len cs := by
  rw [offset_skip]
  exact Nat.zero_add _

/-- Of two ways to cut a text, the cut at the smaller offset is further left. -/
theorem exists_append_of_utf8Len_le {p q p' q' : List Char} (h : p ++ q = p' ++ q')
    (hle : utf8Len p ≤ utf8Len p') : ∃ m, p' = p ++ m ∧ q = m ++ q' := by
  rcases List.append_eq_append_iff.mp h with ⟨m, hp', hq⟩ | ⟨m, rfl, rfl⟩
  · exact ⟨m, hp', hq⟩
  · rw [String.utf8Len_append] at hle
    obtain rfl : m = [] := String.utf8Len_eq_zero.mp (by omega)
    exact ⟨[], by simp, rfl⟩

theorem append_inj_of_utf8Len {p q p' q' : List Char} (h : p ++ q = p' ++ q')
    (hlen : utf8Len p = utf8Len p') : q = q' := by
  obtain ⟨m, rfl, rfl⟩ := exists_append_of_utf8Len_le h hlen.le
  rw [String.utf8Len_append] at hlen
  obtain rfl : m = [] := String.utf8Len_eq_zero.mp (by omega)
  rfl

/-- A character that starts between the ends of a piece of the text is in the piece. -/
theorem mem_of_utf8Len {p q p' w q' : List Char} {c : Char} (h : p ++ c :: q = p' ++ (w ++ q'))
    (hstart : utf8Len p' ≤ utf8Len p) (hstop : utf8Len p < utf8Len p' + utf8Len w) : c ∈ w := by
  obtain ⟨m, rfl, hm⟩ := exists_append_of_utf8Len_le h.symm hstart
  rw [String.utf8Len_append] at hstop
  obtain ⟨r, rfl, hr⟩ := exists_append_of_utf8Len_le hm.symm (by omega)
  cases r with
  | nil => simp at hstop
  | cons d r =>
    rw [List.cons_append, List.cons.injEq] at hr
    simp [hr.1]

/-- What a token is read from: the text with which it is written, or else one character with which
no token starts. -/
inductive Token.ReadFrom : Token → String → Prop
  | text {t : Token} {s : String} (h : t.text? = some s) : ReadFrom t s
  | error {c : Char} (halpha : c.isAlpha = false) (hsymbol : Token.ofChar c = .error) :
    ReadFrom .error (String.singleton c)

/-- From a place on the lexemes cover the characters up to blanks, and no word could be longer. -/
inductive Covers : Cursor → List Char → List Lexeme → Prop
  | nil (k : Cursor) : Covers k [] []
  | blank {k : Cursor} {c : Char} {cs : List Char} {ls : List Lexeme} (hc : Lexeme.isBlank c)
    (h : Covers (k.advance c) cs ls) : Covers k (c :: cs) ls
  | token {k : Cursor} {t : Token} {w cs : List Char} {ls : List Lexeme} (hne : w ≠ [])
    (hread : t.ReadFrom (String.ofList w)) (hblank : ∀ c ∈ w, Lexeme.isBlank c = false)
    (hends : t.isWord → EndsWord cs) (h : Covers (k.skip w) cs ls) :
    Covers k (w ++ cs) (⟨t, k, (k.skip w).offset⟩ :: ls)

theorem text?_wordToken (c : Char) (w : List Char) :
    (wordToken c w).text? = some (String.ofList (c :: w)) := by
  unfold wordToken Token.ofLowerWord Token.ofUpperWord
  split <;> split <;> simp_all [Token.text?]

theorem readFrom_ofChar {c : Char} (hc : c.isAlpha = false) :
    (Token.ofChar c).ReadFrom (String.singleton c) := by
  by_cases herror : Token.ofChar c = .error
  · rw [herror]
    exact .error hc herror
  · refine .text ?_
    unfold Token.ofChar at herror ⊢
    split <;> first | rfl | simp at herror

theorem isWord_ofChar (c : Char) : (Token.ofChar c).isWord = false := by
  unfold Token.ofChar
  split <;> rfl

theorem covers_scanFrom (k : Cursor) (cs : List Char) : Covers k cs (Lexeme.scanFrom k cs) := by
  fun_induction Lexeme.scanFrom k cs with
  | case1 k => exact .nil k
  | case2 k c cs hc ih => exact .blank hc ih
  | case3 k c cs hblank halpha word next token ih =>
    have hword : ∀ d ∈ word, isWordChar d :=
      List.forall_mem_cons.mpr ⟨isWordChar_of_isAlpha halpha, fun d hd => List.mem_takeWhile_imp hd⟩
    have hcover := Covers.token (List.cons_ne_nil c _) (.text (text?_wordToken c _))
      (fun d hd => isBlank_eq_false_of_isWordChar (hword d hd)) (fun _ => endsWord_dropWhile cs) ih
    rwa [List.cons_append, List.takeWhile_append_dropWhile] at hcover
  | case4 k c cs hblank halpha ih =>
    rw [Bool.not_eq_true] at hblank halpha
    have hread := readFrom_ofChar halpha
    rw [String.singleton_eq_ofList] at hread
    refine Covers.token (w := [c]) (by simp) hread (by simpa using hblank) (fun hword => ?_) ih
    simp [isWord_ofChar] at hword

/-- The lexeme is read from the characters `w`, which come after `p` and before `q`. -/
structure Lexeme.ReadBetween (l : Lexeme) (k : Cursor) (p w q : List Char) : Prop where
  start : l.start = k.skip p
  stop : l.stop = (k.skip (p ++ w)).offset
  ne_nil : w ≠ []
  read : l.token.ReadFrom (String.ofList w)
  notBlank : ∀ c ∈ w, Lexeme.isBlank c = false
  ends : l.token.isWord → EndsWord q

namespace Covers

variable {k : Cursor} {cs : List Char} {ls : List Lexeme} {l : Lexeme}

theorem exists_readBetween (h : Covers k cs ls) (hl : l ∈ ls) :
    ∃ p w q, cs = p ++ (w ++ q) ∧ l.ReadBetween k p w q := by
  induction h with
  | nil => simp at hl
  | @blank k c cs ls hc h ih =>
    obtain ⟨p, w, q, rfl, hpiece⟩ := ih hl
    exact ⟨c :: p, w, q, rfl, { hpiece with }⟩
  | @token k t v cs ls hne hread hblank hends h ih =>
    rcases List.mem_cons.mp hl with rfl | hl
    · exact ⟨[], v, cs, rfl, rfl, rfl, hne, hread, hblank, hends⟩
    · obtain ⟨p, w, q, rfl, hpiece⟩ := ih hl
      refine ⟨v ++ p, w, q, by simp, { hpiece with start := ?_, stop := ?_ }⟩
      · rw [hpiece.start, k.skip_append]
      · rw [hpiece.stop, List.append_assoc, k.skip_append v]

theorem disjoint (h : Covers k cs ls) : ls.Pairwise fun l l' => l.stop ≤ l'.start.offset := by
  induction h with
  | nil => exact .nil
  | blank _ _ ih => exact ih
  | token _ _ _ _ h ih =>
    refine List.pairwise_cons.mpr ⟨fun l hl => ?_, ih⟩
    obtain ⟨p, w, q, -, hpiece⟩ := h.exists_readBetween hl
    rw [hpiece.start, Cursor.offset_skip _ p]
    exact Nat.le_add_right _ _

/-- A character is a blank, or it belongs to a lexeme. -/
theorem isBlank_or_exists_mem (h : Covers k cs ls) {p q : List Char} {c : Char}
    (hcs : cs = p ++ c :: q) : Lexeme.isBlank c = true ∨
      ∃ l ∈ ls, l.start.offset ≤ (k.skip p).offset ∧ (k.skip p).offset < l.stop := by
  induction h generalizing p with
  | nil => simp at hcs
  | @blank k d cs ls hd h ih =>
    cases p with
    | nil => exact .inl ((List.cons.inj hcs).1 ▸ hd)
    | cons e p =>
      obtain ⟨rfl, htail⟩ := List.cons.inj hcs
      exact ih htail
  | @token k t w cs ls hne hread hblank hends h ih =>
    rcases Nat.lt_or_ge (utf8Len p) (utf8Len w) with hlt | hle
    · refine .inr ⟨_, List.mem_cons_self, ?_⟩
      simp only [k.offset_skip]
      omega
    · obtain ⟨m, rfl, htail⟩ := exists_append_of_utf8Len_le hcs hle
      rw [k.skip_append]
      refine (ih htail).imp_right ?_
      rintro ⟨l, hl, hspan⟩
      exact ⟨l, List.mem_cons_of_mem _ hl, hspan⟩

end Covers

open String.Pos (Raw)

theorem utf8Len_toList (s : String) : utf8Len s.toList = s.utf8ByteSize := by
  rw [← String.utf8ByteSize_ofList, String.ofList_toList]

namespace Lexeme.ReadBetween

variable {text : String} {l : Lexeme} {p w q : List Char} (h : l.ReadBetween .start p w q)

include h

theorem offset_start : l.start.offset = utf8Len p := by rw [h.start, Cursor.offset_start_skip]

theorem stop_eq : l.stop = utf8Len p + utf8Len w := by
  rw [h.stop, Cursor.offset_start_skip, String.utf8Len_append]

theorem start_lt_stop : l.start.offset < l.stop := by
  have hpos : utf8Len w ≠ 0 := fun hzero => h.ne_nil (String.utf8Len_eq_zero.mp hzero)
  rw [h.offset_start, h.stop_eq]
  omega

variable (htext : text.toList = p ++ (w ++ q))

include htext

theorem isValid_start : Raw.IsValid text ⟨l.start.offset⟩ := by
  refine Raw.isValid_iff_exists_append.mpr ⟨.ofList p, .ofList (w ++ q), ?_, ?_⟩
  · rw [← String.ofList_append, ← htext, String.ofList_toList]
  · rw [h.offset_start, String.rawEndPos_ofList]

theorem isValid_stop : Raw.IsValid text ⟨l.stop⟩ := by
  refine Raw.isValid_iff_exists_append.mpr ⟨.ofList (p ++ w), .ofList q, ?_, ?_⟩
  · rw [← String.ofList_append, List.append_assoc, ← htext, String.ofList_toList]
  · rw [h.stop_eq, String.rawEndPos_ofList, String.utf8Len_append]

theorem extract_eq : Raw.extract text ⟨l.start.offset⟩ ⟨l.stop⟩ = String.ofList w := by
  rw [h.offset_start, h.stop_eq, ← String.extract_of_valid p w q, List.append_assoc, ← htext,
    String.ofList_toList]

variable {before after : List Char} {c : Char} (hchar : text.toList = before ++ c :: after)

include hchar

/-- The characters of a lexeme are no blanks. -/
theorem isBlank_eq_false_of_mem (hstart : l.start.offset ≤ utf8Len before)
    (hstop : utf8Len before < l.stop) : Lexeme.isBlank c = false := by
  rw [h.offset_start] at hstart
  rw [h.stop_eq] at hstop
  exact h.notBlank c (mem_of_utf8Len (hchar.symm.trans htext) hstart hstop)

/-- The character after a word does not belong to one. -/
theorem isWordChar_eq_false (hword : l.token.isWord) (hstop : l.stop = utf8Len before) :
    isWordChar c = false := by
  rw [h.stop_eq, ← String.utf8Len_append] at hstop
  rw [htext, ← List.append_assoc] at hchar
  have hq : q = c :: after := append_inj_of_utf8Len hchar hstop
  exact h.ends hword c (by simp [hq])

end Lexeme.ReadBetween

/-- The lexemes split the text without loss. -/
structure Splits (text : String) (ls : List Lexeme) : Prop where
  nonempty : ∀ l ∈ ls, l.start.offset < l.stop
  increasing : ls.Pairwise fun l l' => l.start.offset < l'.start.offset
  disjoint : ls.Pairwise fun l l' => l.stop ≤ l'.start.offset
  /-- Lexemes start and stop between characters. -/
  boundary : ∀ l ∈ ls, Raw.IsValid text ⟨l.start.offset⟩ ∧ Raw.IsValid text ⟨l.stop⟩
  read : ∀ l ∈ ls, l.token.ReadFrom (Raw.extract text ⟨l.start.offset⟩ ⟨l.stop⟩)
  /-- The characters outside all lexemes are the blanks. -/
  outside_iff : ∀ before c after, text = before ++ String.singleton c ++ after →
    ((∀ l ∈ ls, ¬ (l.start.offset ≤ before.utf8ByteSize ∧ before.utf8ByteSize < l.stop)) ↔
      c ∈ [' ', '\t', '\r', '\n', '\x0c'])
  /-- A word does not go on after it stops. -/
  ends : ∀ before c after, text = before ++ String.singleton c ++ after →
    ∀ l ∈ ls, l.token.isWord → l.stop = before.utf8ByteSize → isWordChar c = false

namespace Covers

variable {text : String} {ls : List Lexeme} (h : Covers .start text.toList ls)

include h

/-- The characters that belong to no lexeme are the blanks. -/
theorem outside_iff_isBlank {before after : List Char} {c : Char}
    (hchar : text.toList = before ++ c :: after) :
    (∀ l ∈ ls, ¬ (l.start.offset ≤ utf8Len before ∧ utf8Len before < l.stop)) ↔
      Lexeme.isBlank c = true := by
  constructor
  · intro hout
    refine (h.isBlank_or_exists_mem hchar).resolve_right ?_
    rintro ⟨l, hl, hspan⟩
    rw [Cursor.offset_start_skip] at hspan
    exact hout l hl hspan
  · rintro hc l hl ⟨hstart, hstop⟩
    obtain ⟨p, w, q, htext, hpiece⟩ := h.exists_readBetween hl
    rw [hpiece.isBlank_eq_false_of_mem htext hchar hstart hstop] at hc
    cases hc

theorem splits : Splits text ls := by
  have hnonempty : ∀ l ∈ ls, l.start.offset < l.stop := fun l hl => by
    obtain ⟨p, w, q, -, hpiece⟩ := h.exists_readBetween hl
    exact hpiece.start_lt_stop
  refine ⟨hnonempty, ?_, h.disjoint, fun l hl => ?_, fun l hl => ?_, ?_, ?_⟩
  · exact h.disjoint.imp_of_mem fun hl _ hle => Nat.lt_of_lt_of_le (hnonempty _ hl) hle
  · obtain ⟨p, w, q, htext, hpiece⟩ := h.exists_readBetween hl
    exact ⟨hpiece.isValid_start htext, hpiece.isValid_stop htext⟩
  · obtain ⟨p, w, q, htext, hpiece⟩ := h.exists_readBetween hl
    rw [hpiece.extract_eq htext]
    exact hpiece.read
  · intro before c after hcut
    have hchar : text.toList = before.toList ++ c :: after.toList := by simp [hcut]
    rw [← utf8Len_toList, h.outside_iff_isBlank hchar]
    simp [Lexeme.isBlank, or_assoc]
  · intro before c after hcut l hl hword hstop
    have hchar : text.toList = before.toList ++ c :: after.toList := by simp [hcut]
    obtain ⟨p, w, q, htext, hpiece⟩ := h.exists_readBetween hl
    rw [← utf8Len_toList] at hstop
    exact hpiece.isWordChar_eq_false htext hchar hword hstop

end Covers

theorem namedBy_of_mem_scan {cs : List Char} {t : Token} (h : t ∈ scan cs) : t.NamedBy IsWord := by
  cases t with
  | var x => exact isWord_of_mem_scan (k := .term) h
  | tyVar x => exact isWord_of_mem_scan (k := .type) h
  | _ => trivial

theorem exists_text?_eq_some {t : Token} (h : t ≠ .error) : ∃ s, t.text? = some s := by
  cases t <;> first | exact ⟨_, rfl⟩ | exact absurd rfl h

/-- Tokens can be written with single blanks between them. -/
theorem renders_intercalate {ts : List Token} (h : Token.error ∉ ts) :
    Renders (" ".intercalate (ts.filterMap Token.text?)).toList ts := by
  induction ts with
  | nil => exact .nil
  | cons t ts ih =>
    rw [List.mem_cons, not_or] at h
    obtain ⟨s, hs⟩ := exists_text?_eq_some (Ne.symm h.1)
    rw [List.filterMap_cons_some hs]
    cases ts with
    | nil => exact .ofToken hs
    | cons u ts =>
      obtain ⟨s', hs'⟩ := exists_text?_eq_some (t := u) fun hu => h.2 (by simp [hu])
      have hne : (u :: ts).filterMap Token.text? ≠ [] := by
        rw [List.filterMap_cons_some hs']
        exact List.cons_ne_nil _ _
      rw [String.intercalate_cons_of_ne_nil hne, String.toList_append, String.toList_append,
        List.append_assoc]
      exact .token hs (fun _ => endsWord_cons rfl _) (.blank (ih h.2))

/-- The lexemes of a text split it without loss. If every character belongs to a token or is a
blank, the tokens can be written with single blanks between them and are read again as they are. -/
theorem lexemes_split_text (text : String) :
    Splits text (Source.ofText text).lexemes ∧
    (Token.error ∉ tokens (Source.ofText text).lexemes →
      tokens (Source.ofText
        (" ".intercalate ((tokens (Source.ofText text).lexemes).filterMap Token.text?))).lexemes =
          tokens (Source.ofText text).lexemes) := by
  refine ⟨(covers_scanFrom .start text.toList).splits, fun herror => ?_⟩
  exact (renders_intercalate herror).tokens_ofText fun t ht => namedBy_of_mem_scan ht

/-- A symbol takes more bytes than one, and a name may start like a keyword. -/
theorem lexemes_split_text_words :
    ((Source.ofText "∀X.letx →let\n").lexemes.map fun l => (l.token, l.start.offset, l.stop)) =
      [(.forAll, 0, 3), (.tyVar "X", 3, 4), (.dot, 4, 5), (.var "letx", 5, 9), (.arrow, 10, 13),
        (.letKw, 13, 16)] ∧
    Token.error ∉ tokens (Source.ofText "∀X.letx →let\n").lexemes ∧
    tokens (Source.ofText "∀ X . letx → let").lexemes =
      tokens (Source.ofText "∀X.letx →let\n").lexemes := by
  have herror : Token.error ∉ tokens (Source.ofText "∀X.letx →let\n").lexemes := by decide +kernel
  have hjoined : " ".intercalate ((tokens (Source.ofText "∀X.letx →let\n").lexemes).filterMap
      Token.text?) = "∀ X . letx → let" := by decide +kernel
  refine ⟨by decide +kernel, herror, ?_⟩
  rw [← hjoined]
  exact (lexemes_split_text "∀X.letx →let\n").2 herror

end LambdaTyping
