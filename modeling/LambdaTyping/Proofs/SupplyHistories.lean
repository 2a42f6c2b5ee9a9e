import Mathlib
import LambdaTyping.Proofs.SchemeComparison

/-!
# Histories of a name supply

A supply is asked for letters, for names like a hint, to stay clear of names, and
to open types. The two ways of making names up share one set of used names, so
what a request gives depends on the requests before it. It depends on nothing
else: after any history, the names that are given are determined by the names
known at that time, which are those in use from the start, those that the supply
was told of and those it gave.
-/
namespace LambdaTyping

namespace NameSupply

/-- What can be asked of a supply. -/
inductive Request where
  | letter
  | like (hint : String)
  | avoid (names : List String)
  | openAll (ty : Ty)
  | instantiate (ty : Ty)

/-- The names that a request takes from the supply, in order, and the type that it returns, if it
returns one. -/
structure Reply where
  names : List String
  ty : Option Ty

/-- The names that the request says to stay clear of. -/
def Request.told : Request → List String
  | .avoid names => names
  | _ => []

/-- The answer to a request, and the supply that is left. -/
def serve (σ : NameSupply) : Request → Reply × NameSupply
  | .letter => (⟨[σ.letter.1], none⟩, σ.letter.2)
  | .like hint => (⟨[(σ.like hint).1], none⟩, (σ.like hint).2)
  | .avoid names => (⟨[], none⟩, σ.avoid names)
  | .openAll ty => (⟨(σ.openAll ty).1.1, some (σ.openAll ty).1.2⟩, (σ.openAll ty).2)
  | .instantiate ty =>
    match Supplied.instantiate ty σ with
    | .ok t σ' => (⟨(σ.openAll ty).1.1, some t⟩, σ')
    | .error _ σ' => (⟨[], none⟩, σ')

/-- The supply after some requests. -/
def after (σ : NameSupply) : List Request → NameSupply
  | [] => σ
  | r :: rs => (σ.serve r).2.after rs

/-- All names that were taken for some requests. -/
def handedOut (σ : NameSupply) : List Request → List String
  | [] => []
  | r :: rs => (σ.serve r).1.names ++ (σ.serve r).2.handedOut rs

/-- The names that are not new any more after some requests to a supply that stays clear of
`names`. -/
def known (names : List String) (before : List Request) : List String :=
  names ++ before.flatMap Request.told ++ (avoiding names).handedOut before

/-- The hint, or the hint with the smallest positive number that makes it new. The search for the
number ends: at most it looks at one candidate more than there are known names. -/
inductive NewLike (known : List String) (hint : String) : String → Prop
  | itself (h : hint ∉ known) : NewLike known hint hint
  | numbered {n : Nat} (h : hint ∈ known) (hn : IsLeast {n | 0 < n ∧ hint ++ n.repr ∉ known} n)
    (hle : n ≤ known.length) : NewLike known hint (hint ++ n.repr)

/-- A new name for each hint, where each name is known to the next ones. -/
inductive NewLikeEach : List String → List String → List String → Prop
  | nil (known : List String) : NewLikeEach known [] []
  | cons {known hints xs : List String} {hint x : String} (h : NewLike known hint x)
    (hs : NewLikeEach (x :: known) hints xs) : NewLikeEach known (hint :: hints) (x :: xs)

/-- What a request gives when some names are known. -/
inductive Request.Gives (known : List String) : Request → Reply → Prop
  | letter {i : Nat} (h : IsLeast {i | Name.lettered i ∉ known} i) (hle : i ≤ known.length) :
    Gives known .letter ⟨[Name.lettered i], none⟩
  | like {hint x : String} (h : NewLike known hint x) : Gives known (.like hint) ⟨[x], none⟩
  | avoid (names : List String) : Gives known (.avoid names) ⟨[], none⟩
  | openAll {ty : Ty} {xs : List String} (h : NewLikeEach known ty.binders xs) :
    Gives known (.openAll ty) ⟨xs, some (ty.fillAll (xs.map .name))⟩
  | instantiate {ty : Ty} {xs : List String} (h : NewLikeEach known ty.binders xs) :
    Gives known (.instantiate ty) ⟨xs, some (ty.fillAll (xs.map .name))⟩

section Given

variable {known hints xs : List String} {hint x : String}

theorem NewLike.notMem (h : NewLike known hint x) : x ∉ known := by
  cases h with
  | itself h => exact h
  | numbered _ hn _ => exact hn.1.2

theorem NewLikeEach.notMem (h : NewLikeEach known hints xs) (hx : x ∈ xs) : x ∉ known := by
  induction h with
  | nil => simp at hx
  | cons h _ ih =>
    rcases List.mem_cons.mp hx with rfl | hx
    · exact h.notMem
    · exact fun hmem => ih hx (List.mem_cons_of_mem _ hmem)

theorem NewLikeEach.nodup (h : NewLikeEach known hints xs) : xs.Nodup := by
  induction h with
  | nil => exact List.nodup_nil
  | cons _ hs ih => exact List.nodup_cons.mpr ⟨fun hx => hs.notMem hx List.mem_cons_self, ih⟩

variable {r : Request} {p : Reply}

theorem Request.Gives.notMem (h : r.Gives known p) (hx : x ∈ p.names) : x ∉ known := by
  cases h with
  | letter h _ =>
    obtain rfl := List.mem_singleton.mp hx
    exact h.1
  | like h =>
    obtain rfl := List.mem_singleton.mp hx
    exact h.notMem
  | avoid => simp at hx
  | openAll h | instantiate h => exact h.notMem hx

theorem Request.Gives.nodup (h : r.Gives known p) : p.names.Nodup := by
  cases h with
  | letter | like => exact List.nodup_singleton _
  | avoid => exact List.nodup_nil
  | openAll h | instantiate h => exact h.nodup

end Given

variable {σ : NameSupply}

section Known

variable {known : List String} (h : ∀ x, x ∈ σ.used ↔ x ∈ known)
include h

theorem newLike_like (hint : String) : NewLike known hint (σ.like hint).1 := by
  have hleast : IsLeast {n | 0 ≤ n ∧ Name.numbered hint n ∉ σ.used} _ :=
    Name.isLeast_firstUnused (Name.numbered_injective hint) 0
  obtain ⟨k, hk, hnew⟩ := Name.exists_le_notMem (Name.numbered_injective hint) known
  have hle := (hleast.2 ⟨Nat.zero_le k, (h _).not.mpr hnew⟩).trans hk
  change NewLike known hint (Name.numbered hint (Name.firstUnused σ.used (Name.numbered hint) 0))
  cases hn : Name.firstUnused σ.used (Name.numbered hint) 0 with
  | zero =>
    rw [hn] at hleast
    exact .itself ((h _).not.mp hleast.1.2)
  | succ n =>
    rw [hn] at hleast hle
    -- the hint itself is the first candidate, so it was passed over
    have hhint : hint ∈ known := by
      by_contra hnot
      exact Nat.not_succ_le_zero n (hleast.2 ⟨le_rfl, (h hint).not.mpr hnot⟩)
    refine .numbered hhint ⟨⟨Nat.succ_pos n, (h _).not.mp hleast.1.2⟩, fun m hm => ?_⟩ hle
    obtain ⟨hpos, hm⟩ := hm
    obtain ⟨m, rfl⟩ := Nat.exists_eq_succ_of_ne_zero hpos.ne'
    exact hleast.2 ⟨Nat.zero_le _, (h _).not.mpr hm⟩

theorem newLikeEach_openAll (ty : Ty) : NewLikeEach known ty.binders (σ.openAll ty).1.1 := by
  induction ty, σ using openAll_induction generalizing known with
  | all x a σ ih =>
    rw [openAll_all]
    refine .cons (newLike_like h x) ?_
    rw [← Ty.binders_fillAt_name (σ.like x).1 0 a, ← Ty.openWith_eq_fillAt]
    refine ih fun y => ?_
    rw [mem_used_like, List.mem_cons, h, eq_comm]
  | other ty σ hne =>
    rw [openAll_of_not_all hne]
    cases ty with
    | all x a => exact absurd rfl (hne x a)
    | _ => exact .nil known

end Known

/-- All letters before the next one to try are used. -/
def CoversLetters (σ : NameSupply) : Prop := ∀ i < σ.next, Name.lettered i ∈ σ.used

theorem isLeast_letter (hσ : σ.CoversLetters) :
    IsLeast {i | Name.lettered i ∉ σ.used} (Name.firstUnused σ.used Name.lettered σ.next) := by
  have hleast : IsLeast {i | σ.next ≤ i ∧ Name.lettered i ∉ σ.used} _ :=
    Name.isLeast_firstUnused Name.lettered_injective σ.next
  refine ⟨hleast.1.2, fun i hi => hleast.2 ⟨?_, hi⟩⟩
  by_contra! hlt
  exact hi (hσ i hlt)

@[simp] theorem next_openAll (ty : Ty) (σ : NameSupply) : (σ.openAll ty).2.next = σ.next := by
  induction ty, σ using openAll_induction with
  | all x a σ ih =>
    rw [openAll_all]
    exact ih
  | other ty σ hne => rw [openAll_of_not_all hne]

theorem serve_instantiate (ty : Ty) (σ : NameSupply) :
    σ.serve (.instantiate ty) = σ.serve (.openAll ty) := rfl

theorem gives_serve {known : List String} (h : ∀ x, x ∈ σ.used ↔ x ∈ known)
    (hσ : σ.CoversLetters) (r : Request) : r.Gives known (σ.serve r).1 := by
  cases r with
  | letter =>
    obtain ⟨k, hk, hnew⟩ := Name.exists_le_notMem Name.lettered_injective known
    have hleast := isLeast_letter hσ
    simp only [h] at hleast
    exact .letter hleast ((hleast.2 hnew).trans hk)
  | like hint => exact .like (newLike_like h hint)
  | avoid names => exact .avoid names
  | openAll ty =>
    rw [serve, openAll_eq_fillAll]
    exact .openAll (newLikeEach_openAll h ty)
  | instantiate ty =>
    rw [serve_instantiate, serve, openAll_eq_fillAll]
    exact .instantiate (newLikeEach_openAll h ty)

theorem mem_used_serve {r : Request} {x : String} :
    x ∈ (σ.serve r).2.used ↔ x ∈ σ.used ∨ x ∈ r.told ∨ x ∈ (σ.serve r).1.names := by
  cases r with
  | letter => simp [serve, Request.told, or_comm, eq_comm]
  | like hint => simp [serve, Request.told, or_comm, eq_comm]
  | avoid names => simp [serve, Request.told, avoid]
  | openAll ty => simp [serve, Request.told, mem_used_openAll, or_comm]
  | instantiate ty =>
    rw [serve_instantiate]
    simp [serve, Request.told, mem_used_openAll, or_comm]

theorem CoversLetters.serve (hσ : σ.CoversLetters) (r : Request) :
    (σ.serve r).2.CoversLetters := by
  intro i hi
  rw [mem_used_serve]
  cases r with
  | letter =>
    -- the letters that the search passed over are used, and the one it stopped at is given
    rcases Nat.lt_succ_iff_lt_or_eq.mp hi with hi | rfl
    · by_contra! hnot
      exact hi.not_ge ((isLeast_letter hσ).2 hnot.1)
    · exact .inr (.inr (List.mem_singleton.mpr rfl))
  | like hint => exact .inl (hσ i hi)
  | avoid names => exact .inl (hσ i hi)
  | openAll ty | instantiate ty => exact .inl (hσ i (next_openAll ty σ ▸ hi))

theorem mem_used_after {before : List Request} {x : String} :
    x ∈ (σ.after before).used ↔
      x ∈ σ.used ∨ x ∈ before.flatMap Request.told ∨ x ∈ σ.handedOut before := by
  induction before generalizing σ with
  | nil => simp [after, handedOut]
  | cons r rs ih =>
    simp only [after, handedOut, ih, mem_used_serve, List.flatMap_cons, List.mem_append]
    tauto

theorem CoversLetters.after (hσ : σ.CoversLetters) (before : List Request) :
    (σ.after before).CoversLetters := by
  induction before generalizing σ with
  | nil => exact hσ
  | cons r rs ih => exact ih (hσ.serve r)

theorem coversLetters_avoiding (names : List String) : (avoiding names).CoversLetters :=
  fun i hi => absurd hi (Nat.not_lt_zero i)

theorem mem_used_after_iff_known (names : List String) (before : List Request) (x : String) :
    x ∈ ((avoiding names).after before).used ↔ x ∈ known names before := by
  rw [mem_used_after, mem_used_avoiding, known, List.mem_append, List.mem_append, or_assoc]

/-- After any requests, the next one is answered, with names that differ from each other and from
all names known before. A name like a hint is the hint or has the smallest number that makes it new,
a letter is the first that is new, and the outermost quantified variables of a type are replaced by
names like those that their quantifiers carry, one after the other. -/
theorem serve_gives_newNames (names : List String) (before : List Request) (r : Request) :
    r.Gives (known names before) (((avoiding names).after before).serve r).1 ∧
    (∀ x ∈ (((avoiding names).after before).serve r).1.names, x ∉ known names before) ∧
    (((avoiding names).after before).serve r).1.names.Nodup := by
  have hgives := gives_serve (mem_used_after_iff_known names before)
    ((coversLetters_avoiding names).after before) r
  exact ⟨hgives, fun x hx => hgives.notMem hx, hgives.nodup⟩

/-- The hint `X` was in use from the start, and `A` was given out as a letter and `A1` as a name like
it. -/
theorem serve_gives_newNames_interleaved :
    let before : List Request := [.letter, .like "A", .avoid ["C"]]
    let ty : Ty := .all "X" (.all "A" (.arr (.var 1 2) (.var 0 2)))
    let σ := (avoiding ["B", "X"]).after before
    known ["B", "X"] before = ["B", "X", "C", "A", "A1"] ∧
      (σ.serve (.openAll ty)).1.names = ["X1", "A2"] ∧
      "X1" ∉ known ["B", "X"] before ∧ "A2" ∉ known ["B", "X"] before := by
  intro before ty σ
  have hnames : (σ.serve (.openAll ty)).1.names = ["X1", "A2"] := by decide +kernel
  obtain ⟨-, hnew, -⟩ := serve_gives_newNames ["B", "X"] before (.openAll ty)
  refine ⟨by decide +kernel, hnames, hnew "X1" ?_, hnew "A2" ?_⟩
  · rw [hnames]
    simp
  · rw [hnames]
    simp

end NameSupply

end LambdaTyping
