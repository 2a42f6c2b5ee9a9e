import Mathlib
import LambdaTyping.Proofs.MostGeneralUnifiers

/-!
# The rounds of opening unification

Opening unification starts a new round for every quantifier it opens and for
every codomain it has changed. Where no quantifier stands to the left of an arrow
this ends: the domains bind names to types without quantifiers, so quantifiers
are not copied and each one is opened once, and all other rounds remove a name.

Elsewhere it need not end. A name can be bound to a quantified type, which is
copied and opened again. The types `∀X. X → X → X` and
`(∀X. X → X → X) → ∀X. X → X → X` lead back to themselves after four rounds, with
their sides changed after two.
-/
namespace LambdaTyping

namespace Ty

/-- No quantifier stands to the left of an arrow. -/
def isRankOne : Ty → Bool
  | name _ | var .. | bool => true
  | arr a b => a.isMono && b.isRankOne
  | all _ a => a.isRankOne

@[simp] theorem isRankOne_arr {a b : Ty} :
    (arr a b).isRankOne = true ↔ a.isMono = true ∧ b.isRankOne = true := by simp [isRankOne]

theorem isRankOne_of_isMono {t : Ty} (h : t.isMono) : t.isRankOne := by
  induction t with
  | arr a b iha ihb =>
    simp only [isMono, Bool.and_eq_true] at h
    exact isRankOne_arr.mpr ⟨h.1, ihb h.2⟩
  | all x a ih => simp [isMono] at h
  | _ => rfl

theorem quantifiers_of_isMono {t : Ty} (h : t.isMono) : t.quantifiers = 0 := by
  induction t with
  | arr a b iha ihb =>
    simp only [isMono, Bool.and_eq_true] at h
    simp only [quantifiers, iha h.1, ihb h.2]
  | all x a ih => simp [isMono] at h
  | _ => rfl

theorem isRankOne_fillAt {s : Ty} (hs : s.isMono) {c : Nat} {t : Ty} (h : t.isRankOne) :
    (t.fillAt s c).isRankOne := by
  induction t generalizing c with
  | var i n => exact isRankOne_of_isMono (isMono_fillAt hs rfl)
  | arr a b iha ihb =>
    rw [isRankOne_arr] at h
    exact isRankOne_arr.mpr ⟨isMono_fillAt hs h.1, ihb h.2⟩
  | all x a ih => exact ih h
  | _ => rfl

theorem quantifiers_fillAt {s : Ty} (hs : s.isMono) (c : Nat) (t : Ty) :
    (t.fillAt s c).quantifiers = t.quantifiers := by
  induction t generalizing c with
  | var i n => exact quantifiers_of_isMono (isMono_fillAt hs rfl)
  | arr a b iha ihb => simp only [fillAt, quantifiers, iha, ihb]
  | all x a ih => simp only [fillAt, quantifiers, ih]
  | _ => rfl

section MonoMaps

variable {θ : String → Ty} (hθ : ∀ x, (θ x).isMono)

include hθ

theorem isRankOne_mapNamesAt (c : Nat) {t : Ty} (h : t.isRankOne) :
    (t.mapNamesAt θ c).isRankOne := by
  induction t generalizing c with
  | name x => exact isRankOne_of_isMono (by simpa [mapNamesAt] using hθ x)
  | arr a b iha ihb =>
    rw [isRankOne_arr] at h
    have hmono := isMono_mapNames (θ := fun x => (θ x).shift c) (by simpa using hθ) h.1
    rw [mapNames, ← mapNamesAt_add] at hmono
    exact isRankOne_arr.mpr ⟨hmono, ihb c h.2⟩
  | all x a ih => exact ih (c + 1) h
  | _ => rfl

theorem quantifiers_mapNamesAt (c : Nat) (t : Ty) :
    (t.mapNamesAt θ c).quantifiers = t.quantifiers := by
  induction t generalizing c with
  | name x => exact quantifiers_of_isMono (by simpa [mapNamesAt] using hθ x)
  | arr a b iha ihb => simp only [mapNamesAt, quantifiers, iha, ihb]
  | all x a ih => simp only [mapNamesAt, quantifiers, ih]
  | _ => rfl

end MonoMaps

end Ty

namespace Unify

/-- Does unification end by itself, and not because the rounds ran out? -/
def Answered : EStateM.Result TypeError NameSupply Subst → Prop
  | .error (.unresolved ..) _ => False
  | _ => True

/-- What a round starts if there are so many left. -/
def nextRound : Nat → Ty → Ty → Supplied Subst
  | 0 => fun a b => .fail (.unresolved a b)
  | rounds + 1 => openingWithin rounds

theorem openingWithin_eq (rounds : Nat) : openingWithin rounds = openingRound (nextRound rounds) := by
  cases rounds <;> rfl

section Round

variable {next next' : Ty → Ty → Supplied Subst} {a a₁ a₂ b b₁ b₂ : Ty} {x y : String}
  {σ σ' : NameSupply}

theorem openingRound_all_left (hb : ∀ y, b ≠ .name y) :
    openingRound next (.all x a) b σ = next (a.openWith (σ.like x).1) b (σ.like x).2 := by
  cases b with
  | name y => exact absurd rfl (hb y)
  | _ => rfl

theorem openingRound_all_right (ha : ∀ x, a ≠ .name x) (ha' : ∀ x a', a ≠ .all x a') :
    openingRound next a (.all y b) σ = next a (b.openWith (σ.like y).1) (σ.like y).2 := by
  cases a with
  | name x => exact absurd rfl (ha x)
  | all x a => exact absurd rfl (ha' x a)
  | _ => rfl

theorem openingRound_arr_of_error {e : TypeError} (h : openingRound next a₁ a₂ σ = .error e σ') :
    openingRound next (.arr a₁ b₁) (.arr a₂ b₂) σ = .error e σ' := by
  rw [openingRound]
  change EStateM.bind _ _ σ = _
  rw [EStateM.bind, h]

theorem openingRound_arr_of_ok {s : Subst} (h : openingRound next a₁ a₂ σ = .ok s σ') :
    openingRound next (.arr a₁ b₁) (.arr a₂ b₂) σ =
      if s.isEmpty then openingRound next b₁ b₂ σ'
      else (next (s.apply b₁) (s.apply b₂) >>= fun r => pure (r ++ s)) σ' := by
  rw [openingRound]
  change EStateM.bind _ _ σ = _
  simp only [EStateM.bind, h]
  split <;> rfl

theorem answered_ofExcept_bind (x : String) (t : Ty) (σ : NameSupply) :
    Answered (Supplied.ofExcept (Subst.bind x t) σ) := by
  unfold Subst.bind
  split <;> trivial

theorem answered_bind_pure_iff {m : Supplied Subst} {f : Subst → Subst} :
    Answered ((m >>= fun r => pure (f r)) σ) ↔ Answered (m σ) := by
  change Answered (EStateM.bind m _ σ) ↔ _
  unfold EStateM.bind
  cases m σ <;> exact Iff.rfl

/-- A round that ends does not change if the rounds it starts change only where they do not end. -/
theorem openingRound_eq_of_answered
    (hnext : ∀ a b σ, Answered (next a b σ) → next' a b σ = next a b σ)
    (h : Answered (openingRound next a b σ)) :
    openingRound next' a b σ = openingRound next a b σ := by
  induction a generalizing b σ with
  | arr a₁ b₁ ih₁ ih₂ =>
    cases b with
    | arr a₂ b₂ =>
      cases h₁ : openingRound next a₁ a₂ σ with
      | error e σ' =>
        rw [openingRound_arr_of_error h₁] at h ⊢
        exact openingRound_arr_of_error ((ih₁ (by rwa [h₁])).trans h₁)
      | ok s σ' =>
        have h₁' := (ih₁ (by rw [h₁]; trivial)).trans h₁
        rw [openingRound_arr_of_ok h₁] at h ⊢
        rw [openingRound_arr_of_ok h₁']
        split
        · rename_i hempty
          rw [if_pos hempty] at h
          exact ih₂ h
        · rename_i hne
          rw [if_neg hne] at h
          have hs := hnext _ _ _ (answered_bind_pure_iff.mp h)
          change EStateM.bind _ _ σ' = EStateM.bind _ _ σ'
          simp only [EStateM.bind, hs]
    | all y b =>
      rw [openingRound_all_right (by simp) (by simp)] at h ⊢
      rw [openingRound_all_right (by simp) (by simp)]
      exact hnext _ _ _ h
    | _ => rfl
  | all x a ih =>
    by_cases hb : ∃ y, b = .name y
    · obtain ⟨y, rfl⟩ := hb
      rfl
    · rw [openingRound_all_left (by simpa using hb)] at h ⊢
      rw [openingRound_all_left (by simpa using hb)]
      exact hnext _ _ _ h
  | name x => rfl
  | _ =>
    cases b with
    | all y b =>
      rw [openingRound_all_right (by simp) (by simp)] at h ⊢
      rw [openingRound_all_right (by simp) (by simp)]
      exact hnext _ _ _ h
    | _ => rfl

end Round

/-- Further rounds do not change an answer. -/
theorem openingWithin_succ_of_answered {rounds : Nat} {a b : Ty} {σ : NameSupply}
    (h : Answered (openingWithin rounds a b σ)) :
    openingWithin (rounds + 1) a b σ = openingWithin rounds a b σ := by
  induction rounds generalizing a b σ with
  | zero => exact openingRound_eq_of_answered (fun _ _ _ h => absurd h id) h
  | succ rounds ih => exact openingRound_eq_of_answered (fun _ _ _ h => ih h) h

theorem openingWithin_of_answered {rounds more : Nat} (hle : rounds ≤ more) {a b : Ty}
    {σ : NameSupply} (h : Answered (openingWithin rounds a b σ)) :
    openingWithin more a b σ = openingWithin rounds a b σ := by
  induction more, hle using Nat.le_induction with
  | base => rfl
  | succ more _ ih =>
    rw [openingWithin_succ_of_answered (by rwa [ih]), ih]

/-- Opening a quantifier brings in one name, so quantifiers count twice. -/
def weight (a b : Ty) : Nat := (nameSet a b).card + 2 * (a.quantifiers + b.quantifiers)

theorem weight_le_of_subset {a b a' b' : Ty} (hnames : nameSet a' b' ⊆ nameSet a b)
    (hq : a'.quantifiers + b'.quantifiers ≤ a.quantifiers + b.quantifiers) :
    weight a' b' ≤ weight a b := by
  have := Finset.card_le_card hnames
  simp only [weight]
  omega

theorem card_nameSet_openWith_le (x z : String) (a b : Ty) :
    (nameSet (a.openWith z) b).card ≤ (nameSet (.all x a) b).card + 1 := by
  refine le_trans (Finset.card_le_card ?_) (Finset.card_insert_le z _)
  intro y hy
  simp only [Finset.mem_insert, mem_nameSet, Ty.freeNames] at hy ⊢
  rcases hy with hy | hy
  · rw [Ty.openWith_eq_fillAt] at hy
    have := Ty.freeNames_fillAt_subset _ _ _ hy
    simp only [Ty.freeNames, List.mem_singleton] at this
    tauto
  · tauto

theorem nameSet_comm (a b : Ty) : nameSet a b = nameSet b a := by
  ext x
  simp [mem_nameSet, or_comm]

theorem weight_openWith_lt (x z : String) (a b : Ty) :
    weight (a.openWith z) b < weight (.all x a) b := by
  have hcard := card_nameSet_openWith_le x z a b
  simp only [weight, Ty.quantifiers, Ty.openWith_eq_fillAt, Ty.quantifiers_fillAt (s := .name z) rfl]
    at hcard ⊢
  omega

theorem weight_comm (a b : Ty) : weight a b = weight b a := by
  rw [weight, weight, nameSet_comm, Nat.add_comm a.quantifiers]

/-- The types unification has in hand: well scoped and of rank one. -/
structure InRankOne (n : Nat) (a b : Ty) : Prop where
  left : a.WellScoped n
  right : b.WellScoped n
  rankLeft : a.isRankOne
  rankRight : b.isRankOne

namespace InRankOne

variable {n : Nat} {a a₁ a₂ b b₁ b₂ : Ty}

theorem symm (h : InRankOne n a b) : InRankOne n b a :=
  ⟨h.right, h.left, h.rankRight, h.rankLeft⟩

theorem openWith {x : String} (h : InRankOne n (.all x a) b) (z : String) :
    InRankOne n (a.openWith z) b := by
  rw [Ty.openWith_eq_fillAt]
  exact ⟨Ty.WellScoped.fillAt (c := 0) (s := .name z) trivial h.left, h.right,
    Ty.isRankOne_fillAt rfl h.rankLeft, h.rankRight⟩

theorem domains (h : InRankOne n (.arr a₁ b₁) (.arr a₂ b₂)) :
    InRankOne n a₁ a₂ ∧ a₁.isMono ∧ a₂.isMono := by
  have hm₁ := (Ty.isRankOne_arr.mp h.rankLeft).1
  have hm₂ := (Ty.isRankOne_arr.mp h.rankRight).1
  exact ⟨⟨h.left.1, h.right.1, Ty.isRankOne_of_isMono hm₁, Ty.isRankOne_of_isMono hm₂⟩, hm₁, hm₂⟩

theorem codomains (h : InRankOne n (.arr a₁ b₁) (.arr a₂ b₂)) : InRankOne n b₁ b₂ :=
  ⟨h.left.2, h.right.2, (Ty.isRankOne_arr.mp h.rankLeft).2, (Ty.isRankOne_arr.mp h.rankRight).2⟩

end InRankOne

theorem weight_domains_le (a₁ b₁ a₂ b₂ : Ty) :
    weight a₁ a₂ ≤ weight (.arr a₁ b₁) (.arr a₂ b₂) :=
  weight_le_of_subset (nameSet_domains_subset a₁ b₁ a₂ b₂) (by simp only [Ty.quantifiers]; omega)

theorem weight_codomains_le (a₁ b₁ a₂ b₂ : Ty) :
    weight b₁ b₂ ≤ weight (.arr a₁ b₁) (.arr a₂ b₂) :=
  weight_le_of_subset (nameSet_codomains_subset a₁ b₁ a₂ b₂) (by simp only [Ty.quantifiers]; omega)

/-- A most general unifier of domains without quantifiers keeps the rank of the codomains, and
lowers the weight if it changes them. -/
theorem InRankOne.apply {n : Nat} {a₁ b₁ a₂ b₂ : Ty} (h : InRankOne n (.arr a₁ b₁) (.arr a₂ b₂))
    {s : Subst} (hs : IsMgu n a₁ a₂ s) (hmono : ∀ c ∈ s, c.2.isMono) (hne : s.isEmpty = false) :
    InRankOne n (s.apply b₁) (s.apply b₂) ∧
      weight (s.apply b₁) (s.apply b₂) < weight (.arr a₁ b₁) (.arr a₂ b₂) := by
  have himage : ∀ x, (s.image x).isMono := fun x =>
    apply_of_hereditary Ty.hereditary_isMono (i := ()) hmono (t := .name x) rfl
  have hq : ∀ t : Ty, (s.apply t).quantifiers = t.quantifiers := fun t => by
    rw [Subst.apply_eq_mapNames]
    exact Ty.quantifiers_mapNamesAt himage 0 t
  have hrank : ∀ t : Ty, t.isRankOne → (s.apply t).isRankOne := fun t ht => by
    rw [Subst.apply_eq_mapNames]
    exact Ty.isRankOne_mapNamesAt himage 0 ht
  have hcard : (nameSet (s.apply b₁) (s.apply b₂)).card < (nameSet (.arr a₁ b₁) (.arr a₂ b₂)).card :=
    hs.eliminates.card_names_apply_lt hne
  obtain ⟨hb₁, hb₂, hr₁, hr₂⟩ := h.codomains
  refine ⟨⟨hs.wellScoped_apply hb₁, hs.wellScoped_apply hb₂, hrank b₁ hr₁, hrank b₂ hr₂⟩, ?_⟩
  simp only [weight, hq, Ty.quantifiers]
  omega

/-- What a round does with types without quantifiers, for the domains of arrows. -/
theorem isMgu_of_openingWithin {rounds n : Nat} {a b : Ty} (h : InRankOne n a b) (ha : a.isMono)
    (hb : b.isMono) (hw : weight a b ≤ rounds) {σ σ' : NameSupply} {s : Subst}
    (hs : openingWithin rounds a b σ = .ok s σ') : IsMgu n a b s ∧ ∀ c ∈ s, c.2.isMono := by
  rw [openingWithin_eq_ofExcept rounds ha hb, Supplied.ofExcept_eq_ok_iff] at hs
  have hmgu := isUnification_rigidWithin h.left h.right ((Nat.le_add_right _ _).trans hw)
  rw [hs.1] at hmgu
  exact ⟨hmgu, keeps_rigidWithin Ty.hereditary_isMono rounds () a b s ha hb hs.1⟩

section RankOne

variable {rounds n : Nat}
  (hnext : ∀ a b σ, InRankOne n a b → weight a b < rounds → Answered (nextRound rounds a b σ))

include hnext

theorem answered_all_right {a b : Ty} {y : String} (h : InRankOne n a (.all y b))
    (hw : weight a (.all y b) ≤ rounds) (ha : ∀ x, a ≠ .name x) (ha' : ∀ x a', a ≠ .all x a')
    (σ : NameSupply) : Answered (openingRound (nextRound rounds) a (.all y b) σ) := by
  rw [openingRound_all_right ha ha']
  refine hnext _ _ _ (h.symm.openWith _).symm (lt_of_lt_of_le ?_ hw)
  rw [weight_comm, weight_comm a]
  exact weight_openWith_lt _ _ _ _

/-- One round ends if the lighter ones do that it starts. -/
theorem answered_openingRound {a b : Ty} (h : InRankOne n a b) (hw : weight a b ≤ rounds)
    (σ : NameSupply) : Answered (openingRound (nextRound rounds) a b σ) := by
  induction a generalizing b σ with
  | name x =>
    rw [openingRound]
    split
    · trivial
    · exact answered_ofExcept_bind x b σ
  | arr a₁ b₁ ih₁ ih₂ =>
    cases b with
    | name y => exact answered_ofExcept_bind y _ σ
    | arr a₂ b₂ =>
      obtain ⟨hdom, hm₁, hm₂⟩ := h.domains
      have hdw := (weight_domains_le a₁ b₁ a₂ b₂).trans hw
      have hans := ih₁ hdom hdw σ
      cases h₁ : openingRound (nextRound rounds) a₁ a₂ σ with
      | error e σ' =>
        rw [openingRound_arr_of_error h₁]
        rwa [h₁] at hans
      | ok s σ' =>
        rw [openingRound_arr_of_ok h₁]
        split
        · exact ih₂ h.codomains ((weight_codomains_le a₁ b₁ a₂ b₂).trans hw) σ'
        · rename_i hne
          rw [Bool.not_eq_true] at hne
          rw [← openingWithin_eq] at h₁
          obtain ⟨hmgu, hmono⟩ := isMgu_of_openingWithin hdom hm₁ hm₂ hdw h₁
          obtain ⟨hcod, hlt⟩ := h.apply hmgu hmono hne
          exact answered_bind_pure_iff.mpr (hnext _ _ _ hcod (lt_of_lt_of_le hlt hw))
    | all y b => exact answered_all_right hnext h hw (by simp) (by simp) σ
    | _ => trivial
  | all x a ih =>
    by_cases hb : ∃ y, b = .name y
    · obtain ⟨y, rfl⟩ := hb
      exact answered_ofExcept_bind y _ σ
    · rw [openingRound_all_left (by simpa using hb)]
      exact hnext _ _ _ (h.openWith _) (lt_of_lt_of_le (weight_openWith_lt _ _ _ _) hw)
  | var i m =>
    cases b with
    | name y => exact answered_ofExcept_bind y _ σ
    | var j k =>
      rw [openingRound]
      split <;> trivial
    | all y b => exact answered_all_right hnext h hw (by simp) (by simp) σ
    | _ => trivial
  | bool =>
    cases b with
    | name y => exact answered_ofExcept_bind y _ σ
    | all y b => exact answered_all_right hnext h hw (by simp) (by simp) σ
    | _ => trivial

end RankOne

theorem answered_openingWithin {rounds n : Nat} {a b : Ty} (h : InRankOne n a b)
    (hw : weight a b ≤ rounds) (σ : NameSupply) : Answered (openingWithin rounds a b σ) := by
  induction rounds generalizing a b σ with
  | zero =>
    rw [openingWithin_eq]
    exact answered_openingRound (fun _ _ _ _ hlt => absurd hlt (Nat.not_lt_zero _)) h hw σ
  | succ rounds ih =>
    rw [openingWithin_eq]
    exact answered_openingRound (fun a b σ h hlt => ih h (Nat.lt_succ_iff.mp hlt) σ) h hw σ

theorem weight_le (a b : Ty) : weight a b ≤ namesOf a b + 2 * (a.quantifiers + b.quantifiers) :=
  Nat.add_le_add_right (card_nameSet_le a b) _

/-- Where no quantifier stands to the left of an arrow, unification comes to an answer, in at most as
many rounds as there are names and twice the quantifiers. -/
theorem exists_answer_of_isRankOne {n : Nat} {a b : Ty} (ha : a.WellScoped n) (hb : b.WellScoped n)
    (hra : a.isRankOne = true) (hrb : b.isRankOne = true) (σ : NameSupply) :
    ∃ r, Answered r ∧
      (∀ rounds ≥ namesOf a b + 2 * (a.quantifiers + b.quantifiers),
        openingWithin rounds a b σ = r) ∧
      unifyOpening a b σ = r := by
  have hans := answered_openingWithin ⟨ha, hb, hra, hrb⟩ (weight_le a b) σ
  refine ⟨_, hans, fun rounds hle => openingWithin_of_answered hle hans, ?_⟩
  exact openingWithin_of_answered (Nat.le_add_right _ _) hans

theorem exists_answer_of_isRankOne_schemes :
    let a : Ty := .all "X" (.arr (.var 0 1) (.name "A"))
    let b : Ty := .arr .bool (.all "Y" (.arr (.var 0 1) (.var 0 1)))
    (a.WellScoped 0 ∧ b.WellScoped 0 ∧ a.isRankOne = true ∧ b.isRankOne = true) ∧
      ∃ r, Answered r ∧ (∀ rounds ≥ 5, openingWithin rounds a b (.avoiding ["A"]) = r) ∧
        unifyOpening a b (.avoiding ["A"]) = r := by
  intro a b
  have ha : a.WellScoped 0 := by simp [a, Ty.WellScoped]
  have hb : b.WellScoped 0 := by simp [b, Ty.WellScoped]
  obtain ⟨r, hr, hrounds, hunify⟩ := exists_answer_of_isRankOne ha hb rfl rfl (.avoiding ["A"])
  exact ⟨⟨ha, hb, rfl, rfl⟩, r, hr, hrounds, hunify⟩

/-- The type, to the left of so many arrows. -/
def leftOf : Nat → Ty → Ty
  | 0, t => t
  | d + 1, t => .arr (leftOf d t) .bool

theorem fillAt_leftOf (s : Ty) (c d : Nat) (t : Ty) :
    (leftOf d t).fillAt s c = leftOf d (t.fillAt s c) := by
  induction d with
  | zero => rfl
  | succ d ih => simp only [leftOf, Ty.fillAt, ih]

theorem apply_leftOf (s : Subst) (d : Nat) (t : Ty) :
    s.apply (leftOf d t) = leftOf d (s.apply t) := by
  induction d with
  | zero => rfl
  | succ d ih => simp only [leftOf, Subst.apply_arr, Subst.apply_bool, ih]

theorem wellScoped_leftOf {n d : Nat} {t : Ty} (h : t.WellScoped n) : (leftOf d t).WellScoped n := by
  induction d with
  | zero => exact h
  | succ d ih => exact ⟨ih, trivial⟩

theorem freeNames_leftOf (d : Nat) (t : Ty) : (leftOf d t).freeNames = t.freeNames := by
  induction d with
  | zero => rfl
  | succ d ih => simp only [leftOf, Ty.freeNames, ih, List.append_nil]

/-- A type that leads back to itself when it is opened against an arrow from itself to itself. With
no arrows in between it is `∀X. X → X → X`. -/
def endless (d : Nat) : Ty :=
  .all "X" (.arr (.var 0 1) (leftOf d (.arr (.var 0 1) (leftOf d (.var 0 1)))))

/-- What `endless d` is unified with. -/
def endlessArrow (d : Nat) : Ty := .arr (endless d) (leftOf d (endless d))

theorem wellScoped_endless (d : Nat) : (endless d).WellScoped 0 := by
  have hvar : (Ty.var 0 1).WellScoped 1 := ⟨rfl, Nat.zero_lt_one⟩
  exact ⟨hvar, wellScoped_leftOf ⟨hvar, wellScoped_leftOf hvar⟩⟩

theorem freeNames_endless (d : Nat) : (endless d).freeNames = [] := by
  simp [endless, Ty.freeNames, freeNames_leftOf]

theorem bind_endless (x : String) (d : Nat) : Subst.bind x (endless d) = .ok [(x, endless d)] := by
  have hx : (endless d).mentions x = false := by
    rw [← Bool.not_eq_true, Ty.mentions_iff, freeNames_endless]
    simp
  simp [Subst.bind, hx, Subst.single]

section Endless

variable {next : Ty → Ty → Supplied Subst} {a a₁ a₂ b b₁ b₂ : Ty} {σ σ' : NameSupply} {rounds : Nat}

theorem not_answered_nextRound (h : ∀ r < rounds, ¬ Answered (openingWithin r a b σ)) :
    ¬ Answered (nextRound rounds a b σ) := by
  cases rounds with
  | zero => exact id
  | succ rounds => exact h rounds (Nat.lt_succ_self rounds)

theorem not_answered_domains (h : ¬ Answered (openingRound next a₁ a₂ σ)) :
    ¬ Answered (openingRound next (.arr a₁ b₁) (.arr a₂ b₂) σ) := by
  cases h₁ : openingRound next a₁ a₂ σ with
  | ok s σ' =>
    rw [h₁] at h
    exact absurd trivial h
  | error e σ' =>
    rw [openingRound_arr_of_error h₁]
    rwa [h₁] at h

theorem not_answered_codomains {s : Subst} (h₁ : openingRound next a₁ a₂ σ = .ok s σ')
    (hne : s.isEmpty = false) (h : ¬ Answered (next (s.apply b₁) (s.apply b₂) σ')) :
    ¬ Answered (openingRound next (.arr a₁ b₁) (.arr a₂ b₂) σ) := by
  rw [openingRound_arr_of_ok h₁, if_neg (by simp [hne]), answered_bind_pure_iff]
  exact h

theorem not_answered_leftOf (d : Nat) (h : ¬ Answered (openingRound next a b σ)) :
    ¬ Answered (openingRound next (leftOf d a) (leftOf d b) σ) := by
  induction d with
  | zero => exact h
  | succ d ih => exact not_answered_domains ih

theorem not_answered_nextRound_leftOf (d : Nat)
    (h : ∀ r < rounds, ¬ Answered (openingWithin r a b σ)) :
    ¬ Answered (nextRound rounds (leftOf d a) (leftOf d b) σ) := by
  refine not_answered_nextRound fun r hr => ?_
  have hr := h r hr
  rw [openingWithin_eq] at hr ⊢
  exact not_answered_leftOf d hr

theorem openingRound_name_endless (x : String) (d : Nat) :
    openingRound next (.name x) (endless d) σ = .ok [(x, endless d)] σ := by
  rw [openingRound, if_neg (by simp [endless]), bind_endless]
  rfl

theorem openingRound_endless_name (x : String) (d : Nat) :
    openingRound next (endless d) (.name x) σ = .ok [(x, endless d)] σ := by
  rw [endless, openingRound, ← endless, bind_endless]
  · rfl
  · simp

end Endless

theorem openWith_endless (x : String) (d : Nat) :
    Ty.openWith x (.arr (.var 0 1) (leftOf d (.arr (.var 0 1) (leftOf d (.var 0 1))))) =
      .arr (.name x) (leftOf d (.arr (.name x) (leftOf d (.name x)))) := by
  simp only [Ty.openWith_eq_fillAt, Ty.fillAt, fillAt_leftOf]
  rfl

theorem apply_endless (x : String) (d : Nat) :
    Subst.apply [(x, endless d)] (endless d) = endless d :=
  Subst.apply_of_disjoint fun y hy => by simp [freeNames_endless] at hy

theorem apply_opened_endless (x : String) (d : Nat) :
    Subst.apply [(x, endless d)] (leftOf d (.arr (.name x) (leftOf d (.name x)))) =
      leftOf d (endlessArrow d) := by
  have hx : Subst.apply [(x, endless d)] (.name x) = endless d := by
    simp [Subst.apply_cons, Subst.substName_eq_mapNames]
  rw [apply_leftOf, Subst.apply_arr, apply_leftOf, hx, endlessArrow]

/-- Two rounds lead from one side to the other: the quantifier is opened, and its variable bound to
the type itself. -/
theorem not_answered_endless (d rounds : Nat) (σ : NameSupply) :
    ¬ Answered (openingWithin rounds (endless d) (endlessArrow d) σ) ∧
      ¬ Answered (openingWithin rounds (endlessArrow d) (endless d) σ) := by
  induction rounds using Nat.strong_induction_on generalizing σ with
  | _ rounds ih =>
    constructor
    · rw [openingWithin_eq, endless, openingRound_all_left (by simp [endlessArrow]),
        openWith_endless]
      refine not_answered_nextRound fun r hr => ?_
      rw [openingWithin_eq]
      refine not_answered_codomains (openingRound_name_endless _ d) rfl ?_
      rw [apply_opened_endless, apply_leftOf, apply_endless]
      exact not_answered_nextRound_leftOf d fun q hq => (ih q (hq.trans hr) _).2
    · rw [openingWithin_eq, endless, openingRound_all_right (by simp [endlessArrow])
        (by simp [endlessArrow]), openWith_endless]
      refine not_answered_nextRound fun r hr => ?_
      rw [openingWithin_eq]
      refine not_answered_codomains (openingRound_endless_name _ d) rfl ?_
      rw [apply_opened_endless, apply_leftOf, apply_endless]
      exact not_answered_nextRound_leftOf d fun q hq => (ih q (hq.trans hr) _).1

/-- The closed types `∀X. X → X → X` and `(∀X. X → X → X) → ∀X. X → X → X` have no answer, however
many rounds their unification may take and whatever names it is given. -/
theorem unification_without_answer :
    ((endless 0).WellScoped 0 ∧ (endlessArrow 0).WellScoped 0) ∧
      ∀ rounds σ, ¬ Answered (openingWithin rounds (endless 0) (endlessArrow 0) σ) :=
  ⟨⟨wellScoped_endless 0, wellScoped_endless 0, wellScoped_leftOf (wellScoped_endless 0)⟩,
    fun rounds σ => (not_answered_endless 0 rounds σ).1⟩

end Unify

end LambdaTyping
