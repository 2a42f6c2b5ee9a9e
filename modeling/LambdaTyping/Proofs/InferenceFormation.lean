import Mathlib
import LambdaTyping.Proofs.InferenceSoundness
import LambdaTyping.Proofs.SystemFRules
import LambdaTyping.Proofs.OpeningAnswers
import LambdaTyping.Proofs.RoundTrip

/-!
# Formation of inferred types

What inference makes of a context and a term that were read from text, in System
F as well: substitutions and types that are formed in the context, whose names
can be read as names of types and are known to the supply.

A type abstraction is inferred with a name for its variable, so inductions over a
run go down a term whose type variables are filled on the way.
-/
namespace LambdaTyping

namespace Ty

@[simp] theorem named_shiftAbove {d : Int} {c : Nat} {t : Ty} :
    (t.shiftAbove d c).Named ↔ t.Named := by
  induction t generalizing c with
  | arr a b iha ihb => exact and_congr iha ihb
  | all x a ih => exact and_congr Iff.rfl ih
  | _ => exact Iff.rfl

@[simp] theorem named_shift {d : Int} {t : Ty} : (t.shift d).Named ↔ t.Named := named_shiftAbove

theorem Named.fillAt {s t : Ty} {c : Nat} (ht : t.Named) (hs : s.Named) : (t.fillAt s c).Named := by
  induction t generalizing c with
  | var i n =>
    simp only [Ty.fillAt]
    split
    · exact named_shift.mpr hs
    · trivial
  | arr a b iha ihb => exact ⟨iha ht.1, ihb ht.2⟩
  | all x a ih => exact ⟨ht.1, ih ht.2⟩
  | _ => exact ht

theorem Named.mapNamesAt {θ : String → Ty} {t : Ty} {c : Nat} (ht : t.Named)
    (hθ : ∀ x ∈ t.freeNames, (θ x).Named) : (t.mapNamesAt θ c).Named := by
  induction t generalizing c with
  | name x => exact named_shift.mpr (hθ x (by simp [freeNames]))
  | arr a b iha ihb =>
    exact ⟨iha ht.1 fun x hx => hθ x (List.mem_append_left _ hx),
      ihb ht.2 fun x hx => hθ x (List.mem_append_right _ hx)⟩
  | all x a ih => exact ⟨ht.1, ih ht.2 hθ⟩
  | _ => exact ht

theorem Named.isName {t : Ty} (ht : t.Named) {x : String} (hx : x ∈ t.freeNames) :
    IsName .type x := by
  induction t with
  | name y =>
    obtain rfl : x = y := by simpa [freeNames] using hx
    exact ht
  | arr a b iha ihb => exact (List.mem_append.mp hx).elim (iha ht.1) (ihb ht.2)
  | all y a ih => exact ih ht.2 hx
  | _ => simp [freeNames] at hx

/-- Binding a name maps it to the variable. -/
theorem bindNameAt_eq_mapNamesAt (x : String) (len c : Nat) (t : Ty) :
    t.bindNameAt x len c = t.mapNamesAt (Function.update name x (var 0 (len + 1))) c := by
  induction t generalizing c with
  | name y =>
    by_cases hy : y = x
    · subst hy
      simp [bindNameAt, Ty.mapNamesAt, shift, Ty.shiftAbove, offsetAbove]
    · simp [bindNameAt, Ty.mapNamesAt, hy]
  | arr a b iha ihb => simp only [bindNameAt, Ty.mapNamesAt, iha, ihb]
  | all y a ih => simp only [bindNameAt, Ty.mapNamesAt, ih]
  | _ => rfl

theorem bindName_eq_mapNames (x : String) (len : Nat) (t : Ty) :
    t.bindName x len = t.mapNames (Function.update name x (var 0 (len + 1))) :=
  bindNameAt_eq_mapNamesAt x len 0 t

/-- What was shifted into more bindings was formed without them. -/
theorem FormedIn.of_shiftAbove {l new ks : List Kind} {t : Ty}
    (h : (t.shiftAbove new.length l.length).FormedIn (l ++ (new ++ ks))) :
    t.FormedIn (l ++ ks) := by
  induction t generalizing l with
  | var i n =>
    obtain ⟨hn, hi⟩ := h
    simp only [offset_natCast, List.length_append] at hn
    refine ⟨by simp; omega, ?_⟩
    simp only [offsetAbove, offset_natCast] at hi
    split at hi
    · rw [List.getElem?_append_right (by omega), List.getElem?_append_right (by omega)] at hi
      rw [List.getElem?_append_right (by omega), ← hi]
      congr 1
      omega
    · rw [List.getElem?_append_left (by omega)] at hi ⊢
      exact hi
  | arr a b iha ihb => exact ⟨iha h.1, ihb h.2⟩
  | all x a ih => exact ih (l := .type :: l) h
  | _ => trivial

theorem FormedIn.of_shift_one {k : Kind} {ks : List Kind} {t : Ty}
    (h : (t.shift 1).FormedIn (k :: ks)) : t.FormedIn ks := @FormedIn.of_shiftAbove [] [k] ks t h

/-- A variable of a formed type is a type variable. -/
theorem FormedIn.getElem?_of_hasVar {ks : List Kind} {a : Ty} (ha : a.FormedIn ks) {i : Nat}
    (hi : a.hasVar i) : ks[i]? = some .type := by
  induction a generalizing ks i with
  | var j n =>
    obtain rfl : j = i := by simpa [hasVar] using hi
    exact ha.2
  | arr a b iha ihb =>
    rcases (Bool.or_eq_true _ _).mp hi with hi | hi
    · exact iha ha.1 hi
    · exact ihb ha.2 hi
  | all x a ih => simpa using ih ha hi
  | _ => simp [hasVar] at hi

/-- The type is formed, and its names are names of types that the supply knows. -/
structure KnownIn (ks : List Kind) (σ : NameSupply) (a : Ty) : Prop where
  formed : a.FormedIn ks
  named : a.Named
  known : ∀ x ∈ a.freeNames, x ∈ σ.used

namespace KnownIn

variable {ks : List Kind} {k : Kind} {σ σ' : NameSupply} {a b s : Ty} {x : String}

theorem mono (h : a.KnownIn ks σ) (hσ : ∀ x ∈ σ.used, x ∈ σ'.used) : a.KnownIn ks σ' :=
  ⟨h.formed, h.named, fun x hx => hσ x (h.known x hx)⟩

theorem name (hx : IsName .type x) (hσ : x ∈ σ.used) : (Ty.name x).KnownIn ks σ :=
  ⟨trivial, hx, by simpa [freeNames] using hσ⟩

theorem bool : Ty.bool.KnownIn ks σ := ⟨trivial, trivial, by simp [freeNames]⟩

theorem arr_iff : (Ty.arr a b).KnownIn ks σ ↔ a.KnownIn ks σ ∧ b.KnownIn ks σ := by
  constructor
  · intro h
    exact ⟨⟨h.formed.1, h.named.1, fun x hx => h.known x (List.mem_append_left _ hx)⟩,
      ⟨h.formed.2, h.named.2, fun x hx => h.known x (List.mem_append_right _ hx)⟩⟩
  · rintro ⟨ha, hb⟩
    exact ⟨⟨ha.formed, hb.formed⟩, ⟨ha.named, hb.named⟩, fun x hx =>
      (List.mem_append.mp hx).elim (ha.known x) (hb.known x)⟩

theorem all_iff : (Ty.all x a).KnownIn ks σ ↔ IsName .type x ∧ a.KnownIn (.type :: ks) σ :=
  ⟨fun h => ⟨h.named.1, h.formed, h.named.2, h.known⟩,
    fun h => ⟨h.2.formed, ⟨h.1, h.2.named⟩, h.2.known⟩⟩

theorem shift_one (h : a.KnownIn ks σ) (k : Kind) : (a.shift 1).KnownIn (k :: ks) σ :=
  ⟨h.formed.shift_one k, named_shift.mpr h.named, by simpa using h.known⟩

theorem shift_neg_one (h : a.KnownIn (.term :: ks) σ) : (a.shift (-1)).KnownIn ks σ :=
  ⟨h.formed.shift_neg_one.1, named_shift.mpr h.named, by simpa using h.known⟩

theorem substTop (h : (Ty.all x a).KnownIn ks σ) (hs : s.KnownIn ks σ) :
    (a.substTop s).KnownIn ks σ where
  formed := h.formed.substTop hs.formed
  named := by
    rw [substTop_eq_fillAt]
    exact h.named.2.fillAt hs.named
  known y hy := by
    rw [substTop_eq_fillAt] at hy
    exact (freeNames_fillAt_subset s 0 a hy).elim (hs.known y) (h.known y)

/-- A quantified variable is replaced by a name like its own. -/
theorem openLike (h : (Ty.all x a).KnownIn ks σ) :
    (a.openWith (σ.like x).1).KnownIn ks (σ.like x).2 :=
  (h.mono fun _ hy => NameSupply.mem_used_like.mpr (.inr hy)).substTop
    (.name (isName_unusedLike h.named.1 σ.used) (NameSupply.mem_used_like.mpr (.inl rfl)))

theorem openAll (h : a.KnownIn ks σ) : (σ.openAll a).1.2.KnownIn ks (σ.openAll a).2 := by
  induction a, σ using NameSupply.openAll_induction with
  | all x a σ ih =>
    rw [NameSupply.openAll_all]
    exact ih h.openLike
  | other a σ ha => rwa [NameSupply.openAll_of_not_all ha]

theorem mapNames {θ : String → Ty} (h : a.KnownIn ks σ)
    (hθ : ∀ x ∈ a.freeNames, (θ x).KnownIn ks σ) : (a.mapNames θ).KnownIn ks σ where
  formed := FormedIn.mapNamesAt (l := []) (fun x hx => (hθ x hx).formed) h.formed
  named := h.named.mapNamesAt fun x hx => (hθ x hx).named
  known y hy := by
    obtain ⟨x, hx, hy⟩ := mem_freeNames_mapNames.mp hy
    exact (hθ x hx).known y hy

/-- A name becomes a variable bound right outside. -/
theorem bindName (h : a.KnownIn ks σ) (x : String) :
    ((a.shift 1).bindName x ks.length).KnownIn (.type :: ks) σ := by
  rw [bindName_eq_mapNames]
  refine (h.shift_one .type).mapNames fun y hy => ?_
  by_cases hyx : y = x
  · subst hyx
    rw [Function.update_self]
    exact ⟨⟨rfl, rfl⟩, trivial, by simp [freeNames]⟩
  · rw [Function.update_of_ne hyx]
    rw [freeNames_shift] at hy
    exact .name (h.named.isName hy) (h.known y hy)

theorem generalize (h : a.KnownIn ks σ) {xs : List String} (hxs : ∀ x ∈ xs, IsName .type x) :
    (a.generalize ks.length xs).KnownIn ks σ := by
  induction xs with
  | nil => exact h
  | cons x xs ih =>
    rw [List.forall_mem_cons] at hxs
    exact all_iff.mpr ⟨hxs.1, (ih hxs.2).bindName x⟩

end KnownIn

end Ty

theorem isName_lettered (i : Nat) : IsName .type (Name.lettered i) := by
  have hletter : IsName .type (Char.ofNat (65 + i % 26)).toString := by
    have hall : ∀ j < 26, (let c := Char.ofNat (65 + j)
        c.isAlpha && (wordToken c [] == Token.tyVar c.toString) &&
          (Text.expandWord [c] == [c])) = true := by decide +kernel
    have h := hall (i % 26) (Nat.mod_lt i (by decide))
    simp only [Bool.and_eq_true, beq_iff_eq] at h
    exact isName_of_wordToken h.1.1 (by simp) h.2 h.1.2
  exact hletter.numbered _

/-- All names that are bound are known, and so are the types they are bound to. -/
def Subst.KnownIn (ks : List Kind) (σ : NameSupply) (s : Subst) : Prop :=
  ∀ b ∈ s, b.1 ∈ σ.used ∧ b.2.KnownIn ks σ

namespace Subst.KnownIn

variable {ks : List Kind} {σ σ' : NameSupply} {s r : Subst} {a : Ty}

theorem nil : Subst.KnownIn ks σ [] := by simp [Subst.KnownIn]

theorem formedIn (h : s.KnownIn ks σ) : s.FormedIn ks := fun b hb => (h b hb).2.formed

theorem mono (h : s.KnownIn ks σ) (hσ : ∀ x ∈ σ.used, x ∈ σ'.used) : s.KnownIn ks σ' :=
  fun b hb => ⟨hσ _ (h b hb).1, (h b hb).2.mono hσ⟩

theorem append (hs : s.KnownIn ks σ) (hr : r.KnownIn ks σ) : Subst.KnownIn ks σ (s ++ r) :=
  fun b hb => (List.mem_append.mp hb).elim (hs b) (hr b)

theorem single {x : String} (hx : x ∈ σ.used) (ha : a.KnownIn ks σ) :
    (Subst.single x a).KnownIn ks σ := fun b hb => by
  obtain rfl : b = (x, a) := by simpa [Subst.single] using hb
  exact ⟨hx, ha⟩

theorem known (h : s.KnownIn ks σ) : ∀ x ∈ s.freeNames, x ∈ σ.used := fun x hx => by
  obtain ⟨b, hb, hx⟩ := List.mem_flatMap.mp hx
  rcases List.mem_append.mp hx with hx | hx
  · exact (h b hb).2.known x hx
  · exact List.mem_singleton.mp hx ▸ (h b hb).1

theorem apply (h : s.KnownIn ks σ) (ha : a.KnownIn ks σ) : (s.apply a).KnownIn ks σ := by
  induction s with
  | nil => exact ha
  | cons b s ih =>
    rw [Subst.KnownIn, List.forall_mem_cons] at h
    have hs := ih h.2
    rw [Subst.apply_cons, Subst.substName_eq_mapNames]
    refine hs.mapNames fun x hx => ?_
    by_cases hxb : x = b.1
    · subst hxb
      rw [Function.update_self]
      exact h.1.2
    · rw [Function.update_of_ne hxb]
      exact .name (hs.named.isName hx) (hs.known x hx)

theorem shift_neg_one (h : s.KnownIn (.term :: ks) σ) : (s.shift (-1)).KnownIn ks σ := by
  rw [Subst.KnownIn, Subst.shift, List.forall_mem_map]
  exact fun b hb => ⟨(h b hb).1, (h b hb).2.shift_neg_one⟩

end Subst.KnownIn

namespace Context

/-- The types of all variables are known. -/
def Known (σ : NameSupply) (Γ : Context) : Prop :=
  ∀ i a, Γ.getType? i = some a → a.KnownIn Γ.kinds σ

theorem formed_of_getType? {Γ : Context}
    (h : ∀ i a, Γ.getType? i = some a → a.FormedIn Γ.kinds) : Γ.Formed := by
  induction Γ with
  | nil => trivial
  | cons e Γ ih =>
    obtain ⟨x, b⟩ := e
    refine ⟨fun a ha => ?_, ih fun i a ha => ?_⟩
    · obtain rfl : b = .var a := ha
      exact (h 0 (a.shift 1) rfl).of_shift_one
    · exact (h (i + 1) (a.shift 1) (by rw [getType?_cons_succ, ha]; rfl)).of_shift_one

namespace Known

variable {Γ Δ : Context} {σ σ' : NameSupply}

theorem formed (h : Γ.Known σ) : Γ.Formed :=
  formed_of_getType? fun i a ha => (h i a ha).formed

theorem mono (h : Γ.Known σ) (hσ : ∀ x ∈ σ.used, x ∈ σ'.used) : Γ.Known σ' :=
  fun i a ha => (h i a ha).mono hσ

theorem cons (h : Γ.Known σ) (x : String) {b : Binding}
    (hb : ∀ a, b = .var a → a.KnownIn Γ.kinds σ) : Context.Known σ (⟨x, b⟩ :: Γ) := by
  intro i a ha
  cases i with
  | zero =>
    obtain ⟨a, rfl, rfl⟩ := getType?_cons_zero_eq_some ha
    exact (hb a rfl).shift_one _
  | succ i =>
    rw [getType?_cons_succ, Option.map_eq_some_iff] at ha
    obtain ⟨a, ha, rfl⟩ := ha
    exact (h i a ha).shift_one _

theorem cons_var (h : Γ.Known σ) (x : String) {a : Ty} (ha : a.KnownIn Γ.kinds σ) :
    Context.Known σ (⟨x, .var a⟩ :: Γ) :=
  h.cons x fun a' ha' => by
    obtain rfl : a = a' := by simpa using ha'
    exact ha

theorem apply (h : Γ.Known σ) {s : Subst} (hs : s.KnownIn Γ.kinds σ) (hΔ : Γ.apply s = .ok Δ) :
    Δ.kinds = Γ.kinds ∧ Δ.Known σ := by
  obtain ⟨hkinds, htypes⟩ := apply_spec hs.formedIn h.formed hΔ
  refine ⟨hkinds, fun i a ha => ?_⟩
  rw [htypes, Option.map_eq_some_iff] at ha
  obtain ⟨b, hb, rfl⟩ := ha
  rw [hkinds]
  exact hs.apply (h i b hb)

end Known

theorem knownIn_generalize {Γ : Context} {σ : NameSupply} {a : Ty} (ha : a.KnownIn Γ.kinds σ)
    (avoid : List String) : (Γ.generalize a avoid).KnownIn Γ.kinds σ := by
  have hxs : ∀ x ∈ Γ.generic a avoid, IsName .type x := fun x hx =>
    ha.named.isName (mem_generic.mp hx).1
  have hgen := ha.generalize hxs
  rwa [length_kinds] at hgen

end Context

namespace Term

/-- Variables are term variables of the context, and all types and binders of type variables have
names that the supply knows. -/
def KnownIn (σ : NameSupply) : List Kind → Term → Prop
  | ks, var _ i n => n = ks.length ∧ ks[i]? = some .term
  | _, const .. => True
  | ks, abs _ _ ty t => (∀ a ∈ ty, a.KnownIn ks σ) ∧ t.KnownIn σ (.term :: ks)
  | ks, app _ t u => t.KnownIn σ ks ∧ u.KnownIn σ ks
  | ks, ite _ c t e => c.KnownIn σ ks ∧ t.KnownIn σ ks ∧ e.KnownIn σ ks
  | ks, tyAbs _ x t => IsName .type x ∧ t.KnownIn σ (.type :: ks)
  | ks, tyApp _ t ty => t.KnownIn σ ks ∧ ty.KnownIn ks σ
  | ks, letIn _ _ e t => e.KnownIn σ ks ∧ t.KnownIn σ (.term :: ks)

theorem KnownIn.mono {ks : List Kind} {σ σ' : NameSupply} {t : Term} (h : t.KnownIn σ ks)
    (hσ : ∀ x ∈ σ.used, x ∈ σ'.used) : t.KnownIn σ' ks := by
  induction t generalizing ks with
  | var p i n => exact h
  | const p b => trivial
  | abs p x ty t ih => exact ⟨fun a ha => (h.1 a ha).mono hσ, ih h.2⟩
  | app p t u iht ihu => exact ⟨iht h.1, ihu h.2⟩
  | ite p c t e ihc iht ihe => exact ⟨ihc h.1, iht h.2.1, ihe h.2.2⟩
  | tyAbs p x t ih => exact ⟨h.1, ih h.2⟩
  | tyApp p t ty ih => exact ⟨ih h.1, h.2.mono hσ⟩
  | letIn p x e t ihe iht => exact ⟨ihe h.1, iht h.2⟩

/-- Put `s` for the type variable `c` binders out, and drop its binder. -/
def fillAt (s : Ty) (c : Nat) : Term → Term
  | var p i n => var p (offsetAbove c i (-1)) (n - 1)
  | const p b => const p b
  | abs p x ty t => abs p x (ty.map fun a => a.fillAt s c) (t.fillAt s (c + 1))
  | app p t u => app p (t.fillAt s c) (u.fillAt s c)
  | ite p i t e => ite p (i.fillAt s c) (t.fillAt s c) (e.fillAt s c)
  | tyAbs p x t => tyAbs p x (t.fillAt s (c + 1))
  | tyApp p t ty => tyApp p (t.fillAt s c) (ty.fillAt s c)
  | letIn p x e t => letIn p x (e.fillAt s c) (t.fillAt s (c + 1))

theorem shiftAbove_substTy (s : Ty) (c : Nat) (t : Term) :
    (t.substTy c (s.shift 1)).shiftAbove (-1) c = t.fillAt s c := by
  induction t generalizing c with
  | var p i n => simp only [substTy, shiftAbove, fillAt, offset_neg_one]
  | const p b => rfl
  | abs p x ty t ih =>
    cases ty <;> simp [substTy, shiftAbove, fillAt, ih, Ty.shiftAbove_subst]
  | app p t u iht ihu => simp only [substTy, shiftAbove, fillAt, iht, ihu]
  | ite p i t e ihi iht ihe => simp only [substTy, shiftAbove, fillAt, ihi, iht, ihe]
  | tyAbs p x t ih => simp only [substTy, shiftAbove, fillAt, ih]
  | tyApp p t ty ih => simp only [substTy, shiftAbove, fillAt, ih, Ty.shiftAbove_subst]
  | letIn p x e t ihe iht => simp only [substTy, shiftAbove, fillAt, ihe, iht]

theorem substTyTop_eq_fillAt (t : Term) (s : Ty) : t.substTyTop s = t.fillAt s 0 :=
  shiftAbove_substTy s 0 t

theorem KnownIn.fillAt {l ks : List Kind} {σ : NameSupply} {t : Term} {s : Ty}
    (h : t.KnownIn σ (l ++ .type :: ks)) (hs : s.KnownIn ks σ) :
    (t.fillAt s l.length).KnownIn σ (l ++ ks) := by
  have hty : ∀ {l : List Kind} {a : Ty}, a.KnownIn (l ++ .type :: ks) σ →
      (a.fillAt s l.length).KnownIn (l ++ ks) σ := fun ha =>
    ⟨ha.formed.fillAt hs.formed, ha.named.fillAt hs.named, fun x hx =>
      (Ty.freeNames_fillAt_subset s _ _ hx).elim (hs.known x) (ha.known x)⟩
  induction t generalizing l with
  | var p i n =>
    obtain ⟨rfl, hi⟩ := h
    refine ⟨by simp, ?_⟩
    rw [offsetAbove, offset_neg_one]
    split
    · rename_i hle
      rw [List.getElem?_append_right hle, List.getElem?_cons] at hi
      split at hi
      · cases hi
      · rw [List.getElem?_append_right (by omega), ← hi]
        congr 1
        omega
    · rw [List.getElem?_append_left (by omega)] at hi ⊢
      exact hi
  | const p b => trivial
  | abs p x ty t ih =>
    refine ⟨fun a ha => ?_, ih (l := .term :: l) h.2⟩
    obtain ⟨a', ha', rfl⟩ := Option.map_eq_some_iff.mp ha
    exact hty (h.1 a' ha')
  | app p t u iht ihu => exact ⟨iht h.1, ihu h.2⟩
  | ite p c t e ihc iht ihe => exact ⟨ihc h.1, iht h.2.1, ihe h.2.2⟩
  | tyAbs p x t ih => exact ⟨h.1, ih (l := .type :: l) h.2⟩
  | tyApp p t ty ih => exact ⟨ih h.1, hty h.2⟩
  | letIn p x e t ihe iht => exact ⟨ihe h.1, iht (l := .term :: l) h.2⟩

/-- A type variable is replaced by a name like its own. -/
theorem KnownIn.openLike {ks : List Kind} {σ : NameSupply} {p : Text.Position} {x : String}
    {t : Term} (h : (tyAbs p x t).KnownIn σ ks) :
    (t.substTyTop (.name (σ.like x).1)).KnownIn (σ.like x).2 ks := by
  rw [substTyTop_eq_fillAt]
  refine KnownIn.fillAt (l := []) (h.2.mono fun _ hy => NameSupply.mem_used_like.mpr (.inr hy)) ?_
  exact .name (isName_unusedLike h.1 σ.used) (NameSupply.mem_used_like.mpr (.inl rfl))

/-- Induction over a term whose type variables are replaced by types on the way down. -/
theorem filled_induction {motive : Term → Prop}
    (var : ∀ p i n, motive (.var p i n)) (const : ∀ p b, motive (.const p b))
    (abs : ∀ p x ty t, motive t → motive (.abs p x ty t))
    (app : ∀ p t u, motive t → motive u → motive (.app p t u))
    (ite : ∀ p c t e, motive c → motive t → motive e → motive (.ite p c t e))
    (tyAbs : ∀ p x t, (∀ s, motive (t.substTyTop s)) → motive (.tyAbs p x t))
    (tyApp : ∀ p t ty, motive t → motive (.tyApp p t ty))
    (letIn : ∀ p x e t, motive e → motive t → motive (.letIn p x e t)) (t : Term) : motive t := by
  induction hn : t.size using Nat.strong_induction_on generalizing t with
  | _ n ih =>
    subst hn
    have hsub : ∀ u : Term, u.size < t.size → motive u := fun u hu => ih u.size hu u rfl
    cases t with
    | var p i n => exact var p i n
    | const p b => exact const p b
    | abs p x ty t => exact abs p x ty t (hsub t (by simp [size]))
    | app p t u =>
      exact app p t u (hsub t (by simp only [size]; omega)) (hsub u (by simp only [size]; omega))
    | ite p c t e =>
      exact ite p c t e (hsub c (by simp only [size]; omega)) (hsub t (by simp only [size]; omega))
        (hsub e (by simp only [size]; omega))
    | tyAbs p x t => exact tyAbs p x t fun s => hsub _ (by simp [size])
    | tyApp p t ty => exact tyApp p t ty (hsub t (by simp [size]))
    | letIn p x e t =>
      exact letIn p x e t (hsub e (by simp only [size]; omega))
        (hsub t (by simp only [size]; omega))

end Term

/-- What unification binds is known, if the types are. -/
theorem Unify.Answers.knownIn {ks : List Kind} {a b : Ty} {σ σ' : NameSupply} {s : Subst}
    (h : Answers a b σ s σ') (ha : a.KnownIn ks σ) (hb : b.KnownIn ks σ) : s.KnownIn ks σ' := by
  have hlike : ∀ {x : String} {σ : NameSupply}, ∀ y ∈ σ.used, y ∈ (σ.like x).2.used :=
    fun y hy => NameSupply.mem_used_like.mpr (.inr hy)
  induction h with
  | name | bool | var => exact .nil
  | @bindLeft x b σ hx => exact .single (ha.known x (by simp [Ty.freeNames])) hb
  | @bindRight a y σ hy => exact .single (hb.known y (by simp [Ty.freeNames])) ha
  | arr h₁ h₂ ih₁ ih₂ =>
    obtain ⟨ha₁, hb₁⟩ := Ty.KnownIn.arr_iff.mp ha
    obtain ⟨ha₂, hb₂⟩ := Ty.KnownIn.arr_iff.mp hb
    have hs₁ := ih₁ ha₁ ha₂
    exact (ih₂ (hs₁.apply (hb₁.mono h₁.used)) (hs₁.apply (hb₂.mono h₁.used))).append
      (hs₁.mono h₂.used)
  | openLeft _ _ ih => exact ih ha.openLike (hb.mono hlike)
  | openRight _ _ ih => exact ih (ha.mono hlike) hb.openLike

namespace Infer

section Cases

variable {Γ : Context} {p : Text.Position} {x : String} {t : Term} {r : Subst × Ty}
  {σ σ' : NameSupply}

theorem run_tyAbs_eq_ok_iff :
    run Γ (.tyAbs p x t) σ = .ok r σ' ↔
      ∃ s b s', run Γ (t.substTyTop (.name (σ.like x).1)) (σ.like x).2 = .ok (s, b) σ' ∧
        keepRigid Γ s (σ.like x).1 x = .ok s' ∧
        r = (s', .all x (((s'.apply b).shift 1).bindName (σ.like x).1 Γ.length)) := by
  rw [run]
  simp only [Supplied.bind_eq_ok_iff, Supplied.pure_eq_ok_iff, Prod.exists,
    Supplied.ofExcept_eq_ok_iff, Supplied.take_eq_ok_iff]
  grind

/-- What is applied to a type: a variable with the type it has, or the result of a run. -/
def Heads (Γ : Context) (t : Term) (σ : NameSupply) (s : Subst) (a : Ty) (σ' : NameSupply) : Prop :=
  (∃ q i n, t = .var q i n ∧ Γ.getType? i = some a ∧ s = [] ∧ σ' = σ) ∨
    (∀ q i n, t ≠ .var q i n) ∧ run Γ t σ = .ok (s, a) σ'

/-- What is done with the type of a head: a quantified variable is filled, everything else fails. -/
theorem bind_fill_eq_ok_iff {ty : Ty} {m : Supplied (Subst × Ty)}
    {f : Subst × Ty → Supplied (Subst × Ty)}
    (hall : ∀ s y b, f (s, .all y b) = pure (s, b.substTop (s.apply ty)))
    (hother : ∀ s a, (∃ y b, a = .all y b) ∨ ∃ e, f (s, a) = .fail e) :
    (m >>= f) σ = .ok r σ' ↔
      ∃ s y b, m σ = .ok (s, .all y b) σ' ∧ r = (s, b.substTop (s.apply ty)) := by
  rw [Supplied.bind_eq_ok_iff]
  constructor
  · rintro ⟨⟨s, a⟩, σ₁, hm, h⟩
    rcases hother s a with ⟨y, b, rfl⟩ | ⟨e, he⟩
    · rw [hall] at h
      obtain ⟨rfl, rfl⟩ := Supplied.pure_eq_ok_iff.mp h
      exact ⟨s, y, b, hm, rfl⟩
    · rw [he] at h
      cases h
  · rintro ⟨s, y, b, hm, rfl⟩
    exact ⟨(s, .all y b), σ', hm, by rw [hall]; rfl⟩

theorem run_tyApp_eq_ok_iff {ty : Ty} :
    run Γ (.tyApp p t ty) σ = .ok r σ' ↔
      ∃ s y b, Heads Γ t σ s (.all y b) σ' ∧ r = (s, b.substTop (s.apply ty)) := by
  cases t with
  | var q i n =>
    rw [run, ← bind_assoc]
    refine (bind_fill_eq_ok_iff (m := lookup Γ i >>= fun a => pure ([], a)) (fun _ _ _ => rfl)
      fun s a => ?_).trans ?_
    · cases a with
      | all y b => exact .inl ⟨y, b, rfl⟩
      | _ => exact .inr ⟨_, rfl⟩
    have hhead : ∀ s a, (lookup Γ i >>= fun a => pure (([] : Subst), a)) σ = .ok (s, a) σ' ↔
        Heads Γ (.var q i n) σ s a σ' := fun s a => by
      rw [Supplied.bind_eq_ok_iff, lookup]
      cases hi : Γ.getType? i with
      | none => simp [Supplied.fail, Heads, hi]
      | some b =>
        simp only [Supplied.pure_eq_ok_iff, Heads]
        grind
    simp only [hhead]
  | _ =>
    rw [run]
    · refine (bind_fill_eq_ok_iff (m := run Γ _) (fun _ _ _ => rfl) fun s a => ?_).trans ?_
      · cases a with
        | all y b => exact .inl ⟨y, b, rfl⟩
        | _ => exact .inr ⟨_, rfl⟩
      simp [Heads]
    · simp

end Cases

/-- The result of a run: a substitution and a type that are known by then. -/
structure Known (Γ : Context) (σ : NameSupply) (s : Subst) (a : Ty) (σ' : NameSupply) : Prop where
  used : ∀ x ∈ σ.used, x ∈ σ'.used
  subst : s.KnownIn Γ.kinds σ'
  ty : a.KnownIn Γ.kinds σ'

theorem isName_letter (σ : NameSupply) : IsName .type σ.letter.1 := isName_lettered _

theorem knownIn_letter (ks : List Kind) (σ : NameSupply) :
    (Ty.name σ.letter.1).KnownIn ks σ.letter.2 :=
  .name (isName_letter σ) (NameSupply.mem_used_letter.mpr (.inl rfl))

namespace Known

variable {Γ Γ₁ : Context} {σ σ₁ σ₂ σ' : NameSupply} {s s₁ s₂ : Subst} {a b : Ty}

/-- A new name is taken. -/
theorem letter (h : Known Γ σ s a σ') : Known Γ σ s a σ'.letter.2 :=
  have hletter : ∀ x ∈ σ'.used, x ∈ σ'.letter.2.used := fun _ hx =>
    NameSupply.mem_used_letter.mpr (.inr hx)
  ⟨fun x hx => hletter x (h.used x hx), h.subst.mono hletter, h.ty.mono hletter⟩

/-- The context under the substitution, for what comes next. -/
theorem context (h : Known Γ σ s a σ') (hΓ : Γ.Known σ) (hΓ₁ : Γ.apply s = .ok Γ₁) :
    Γ₁.kinds = Γ.kinds ∧ Γ₁.Known σ' := (hΓ.mono h.used).apply h.subst hΓ₁

/-- One run after the other, in the context under the first substitution. -/
theorem trans (h₁ : Known Γ σ s₁ a σ₁) (hkinds : Γ₁.kinds = Γ.kinds) (h₂ : Known Γ₁ σ₁ s₂ b σ₂) :
    Known Γ σ (s₂ ++ s₁) b σ₂ ∧ Known Γ σ (s₂ ++ s₁) (s₂.apply a) σ₂ := by
  obtain ⟨hused, hsubst, hty⟩ := h₂
  rw [hkinds] at hsubst hty
  have hused' : ∀ x ∈ σ.used, x ∈ σ₂.used := fun x hx => hused x (h₁.used x hx)
  have hboth := hsubst.append (h₁.subst.mono hused)
  exact ⟨⟨hused', hboth, hty⟩, hused', hboth, hsubst.apply (h₁.ty.mono hused)⟩

/-- What is unified after a run. -/
theorem unify {c d : Ty} (h : Known Γ σ s a σ₁) (hc : c.KnownIn Γ.kinds σ₁)
    (hd : d.KnownIn Γ.kinds σ₁) {r : Subst} (hr : unifyOpening c d σ₁ = .ok r σ₂) {e : Ty}
    (he : e.KnownIn Γ.kinds σ₁) : Known Γ σ (r ++ s) (r.apply e) σ₂ := by
  have hanswer := Unify.answers_of_unifyOpening hr
  have hknown := hanswer.knownIn hc hd
  exact ⟨fun x hx => hanswer.used x (h.used x hx), hknown.append (h.subst.mono hanswer.used),
    hknown.apply (he.mono hanswer.used)⟩

end Known

theorem known_of_orNew {ks : List Kind} {ty : Option Ty} {a : Ty} {σ σ' : NameSupply}
    (hty : ∀ b ∈ ty, b.KnownIn ks σ) (h : orNew ty σ = .ok a σ') :
    (∀ x ∈ σ.used, x ∈ σ'.used) ∧ a.KnownIn ks σ' := by
  rcases orNew_eq_ok_iff.mp h with ⟨rfl, rfl⟩ | ⟨-, rfl, rfl⟩
  · exact ⟨fun _ hx => hx, hty a rfl⟩
  · exact ⟨fun x hx => NameSupply.mem_used_letter.mpr (.inr hx),
      .name (isName_letter σ) (NameSupply.mem_used_letter.mpr (.inl rfl))⟩

theorem knownIn_of_keepRigid {Γ : Context} {σ : NameSupply} {s s' : Subst} {n x : String}
    (hs : s.KnownIn Γ.kinds σ) (hn : IsName .type n) (hσ : n ∈ σ.used)
    (h : keepRigid Γ s n x = .ok s') : s'.KnownIn Γ.kinds σ := by
  obtain ⟨⟨m, hm, rfl⟩, -⟩ := Conclusion.keepRigid_eq_ok_iff.mp h
  have hname : (Ty.name n).KnownIn Γ.kinds σ := .name hn hσ
  split
  · exact hs
  · have himage : (Ty.name m).KnownIn Γ.kinds σ := hm ▸ hs.apply hname
    exact (Subst.KnownIn.single (himage.known m (by simp [Ty.freeNames])) hname).append hs

/-- Whatever a run returns is known to the supply it returns. -/
theorem known_of_run {t : Term} {Γ : Context} {σ σ' : NameSupply} {s : Subst} {a : Ty}
    (hΓ : Γ.Known σ) (ht : t.KnownIn σ Γ.kinds) (h : run Γ t σ = .ok (s, a) σ') :
    Known Γ σ s a σ' := by
  induction t using Term.filled_induction generalizing Γ σ σ' s a with
  | var p i n =>
    obtain ⟨ty, hi, hr, rfl⟩ := run_var_eq_ok_iff.mp h
    cases hr
    exact ⟨fun x hx => NameSupply.mem_used_openAll.mpr (.inr hx), .nil, (hΓ i ty hi).openAll⟩
  | const p b =>
    obtain ⟨hr, rfl⟩ := run_const_eq_ok_iff.mp h
    cases hr
    exact ⟨fun _ hx => hx, .nil, .bool⟩
  | abs p x ty t ih =>
    obtain ⟨a₁, σ₁, s₁, b, hnew, hrun, hr⟩ := run_abs_eq_ok_iff.mp h
    cases hr
    obtain ⟨hused, ha⟩ := known_of_orNew ht.1 hnew
    obtain ⟨hused', hs, hb⟩ := ih ((hΓ.mono hused).cons_var x ha) (ht.2.mono hused) hrun
    have hs' := hs.shift_neg_one
    exact ⟨fun y hy => hused' y (hused y hy), hs',
      Ty.KnownIn.arr_iff.mpr ⟨hs'.apply (ha.mono hused'), hb.shift_neg_one⟩⟩
  | app p t u iht ihu =>
    obtain ⟨s₁, a₁, σ₁, Γ₁, s₂, b, σ₂, s₃, hrun₁, hΓ₁, hrun₂, hunify, hr⟩ := run_app_eq_ok_iff.mp h
    cases hr
    have h₁ := iht hΓ ht.1 hrun₁
    obtain ⟨hkinds, hknown⟩ := h₁.context hΓ hΓ₁
    have h₂ := ihu hknown (hkinds ▸ ht.2.mono h₁.used) hrun₂
    obtain ⟨hb, ha⟩ := h₁.trans hkinds h₂
    have hname := knownIn_letter Γ.kinds σ₂
    rw [List.append_assoc]
    exact hb.letter.unify ha.letter.ty (Ty.KnownIn.arr_iff.mpr ⟨hb.letter.ty, hname⟩) hunify hname
  | ite p c t e ihc iht ihe =>
    obtain ⟨s₁, a₁, σ₁, s₂, σ₂, Γ₁, s₃, b, σ₃, Γ₂, s₄, d, σ₄, s₅, hrun₁, hbool, hΓ₁, hrun₂, hΓ₂,
      hrun₃, hunify, hr⟩ := run_ite_eq_ok_iff.mp h
    cases hr
    have h₁ := ihc hΓ ht.1 hrun₁
    have hc := h₁.unify h₁.ty .bool hbool h₁.ty
    obtain ⟨hkinds₁, hknown₁⟩ := hc.context hΓ hΓ₁
    have h₃ := iht hknown₁ (hkinds₁ ▸ ht.2.1.mono hc.used) hrun₂
    obtain ⟨hthen, -⟩ := hc.trans hkinds₁ h₃
    obtain ⟨hkinds₂, hknown₂⟩ := hthen.context hΓ hΓ₂
    have h₄ := ihe hknown₂ (hkinds₂ ▸ ht.2.2.mono hthen.used) hrun₃
    obtain ⟨helse, hb⟩ := hthen.trans hkinds₂ h₄
    rw [List.append_assoc]
    exact helse.unify hb.ty helse.ty hunify helse.ty
  | letIn p x e t ihe iht =>
    obtain ⟨s₁, a₁, σ₁, Γ₁, s₂, b, hrun₁, hΓ₁, hrun₂, hr⟩ := run_letIn_eq_ok_iff.mp h
    cases hr
    have h₁ := ihe hΓ ht.1 hrun₁
    obtain ⟨hkinds, hknown⟩ := h₁.context hΓ hΓ₁
    have hgen := Context.knownIn_generalize (hkinds ▸ h₁.ty : a₁.KnownIn Γ₁.kinds σ₁) []
    obtain ⟨hused, hs, hb⟩ := iht (hknown.cons_var x hgen)
      (by rw [Context.kinds_cons, hkinds]; exact ht.2.mono h₁.used) hrun₂
    rw [Context.kinds_cons, hkinds] at hs hb
    exact ⟨fun y hy => hused y (h₁.used y hy), hs.shift_neg_one.append (h₁.subst.mono hused),
      hb.shift_neg_one⟩
  | tyAbs p x t ih =>
    obtain ⟨s₁, b, s₂, hrun, hrigid, hr⟩ := run_tyAbs_eq_ok_iff.mp h
    cases hr
    have hlike : ∀ y ∈ σ.used, y ∈ (σ.like x).2.used := fun y hy =>
      NameSupply.mem_used_like.mpr (.inr hy)
    have h₁ := ih (.name (σ.like x).1) (hΓ.mono hlike) ht.openLike hrun
    have hs := knownIn_of_keepRigid h₁.subst (isName_unusedLike ht.1 σ.used)
      (h₁.used _ (NameSupply.mem_used_like.mpr (.inl rfl))) hrigid
    have hbody := (hs.apply h₁.ty).bindName (σ.like x).1
    rw [Context.length_kinds] at hbody
    exact ⟨fun y hy => h₁.used y (hlike y hy), hs, Ty.KnownIn.all_iff.mpr ⟨ht.1, hbody⟩⟩
  | tyApp p t ty ih =>
    obtain ⟨s₁, y, b, hhead, hr⟩ := run_tyApp_eq_ok_iff.mp h
    cases hr
    have h₁ : Known Γ σ s (.all y b) σ' := by
      rcases hhead with ⟨q, i, n, rfl, hi, rfl, rfl⟩ | ⟨-, hrun⟩
      · exact ⟨fun _ hx => hx, .nil, hΓ i _ hi⟩
      · exact ih hΓ ht.1 hrun
    exact ⟨h₁.used, h₁.subst, h₁.ty.substTop (h₁.subst.apply (ht.2.mono h₁.used))⟩

end Infer

theorem Ty.knownIn_resolve {sc : Scope} {u : Surface.Ty} (hu : u.Named) {σ : NameSupply}
    (hσ : ∀ x ∈ (u.resolve sc).freeNames, x ∈ σ.used) :
    (u.resolve sc).KnownIn (sc.map Prod.snd) σ :=
  ⟨formedIn_resolve sc u, named_resolve hu sc, hσ⟩

theorem Term.knownIn_resolve {sc : Scope} {u : Surface.Term} (hu : u.Named) {t : Term}
    (h : u.resolve sc = .ok t) {σ : NameSupply} (hσ : ∀ x ∈ t.typeNames, x ∈ σ.used) :
    t.KnownIn σ (sc.map Prod.snd) := by
  induction u generalizing sc t with
  | var p x =>
    simp only [Surface.Term.resolve] at h
    split at h
    next i hi =>
      cases h
      exact ⟨(List.length_map _).symm, by rw [List.getElem?_map, Scope.getElem?_of_index? hi]; rfl⟩
    next => cases h
  | const p b => cases h; trivial
  | abs p x ty u ih =>
    obtain ⟨t, ht, h⟩ := bind_eq_ok_iff.mp h
    cases h
    simp only [Term.typeNames, List.mem_append] at hσ
    refine ⟨fun a ha => ?_, ih hu.2.2 ht fun y hy => hσ y (.inr hy)⟩
    obtain ⟨v, rfl, rfl⟩ := Option.map_eq_some_iff.mp ha
    exact Ty.knownIn_resolve (hu.2.1 v rfl) fun y hy => hσ y (.inl hy)
  | app p u v ihu ihv =>
    obtain ⟨t₁, h₁, h⟩ := bind_eq_ok_iff.mp h
    obtain ⟨t₂, h₂, h⟩ := bind_eq_ok_iff.mp h
    cases h
    simp only [Term.typeNames, List.mem_append] at hσ
    exact ⟨ihu hu.1 h₁ fun y hy => hσ y (.inl hy), ihv hu.2 h₂ fun y hy => hσ y (.inr hy)⟩
  | ite p c u v ihc ihu ihv =>
    obtain ⟨t₁, h₁, h⟩ := bind_eq_ok_iff.mp h
    obtain ⟨t₂, h₂, h⟩ := bind_eq_ok_iff.mp h
    obtain ⟨t₃, h₃, h⟩ := bind_eq_ok_iff.mp h
    cases h
    simp only [Term.typeNames, List.mem_append] at hσ
    exact ⟨ihc hu.1 h₁ fun y hy => hσ y (.inl (.inl hy)),
      ihu hu.2.1 h₂ fun y hy => hσ y (.inl (.inr hy)), ihv hu.2.2 h₃ fun y hy => hσ y (.inr hy)⟩
  | tyAbs p x u ih =>
    obtain ⟨t, ht, h⟩ := bind_eq_ok_iff.mp h
    cases h
    have hbody : t.KnownIn σ ((sc.push (x, .type)).map Prod.snd) := ih hu.2 ht hσ
    exact ⟨hu.1, hbody⟩
  | tyApp p u ty ih =>
    obtain ⟨t, ht, h⟩ := bind_eq_ok_iff.mp h
    cases h
    simp only [Term.typeNames, List.mem_append] at hσ
    exact ⟨ih hu.1 ht fun y hy => hσ y (.inl hy),
      Ty.knownIn_resolve hu.2 fun y hy => hσ y (.inr hy)⟩
  | letIn p x u v ihu ihv =>
    obtain ⟨t₁, h₁, h⟩ := bind_eq_ok_iff.mp h
    obtain ⟨t₂, h₂, h⟩ := bind_eq_ok_iff.mp h
    cases h
    simp only [Term.typeNames, List.mem_append] at hσ
    have hbody : t₂.KnownIn σ ((sc.push (x, .term)).map Prod.snd) :=
      ihv hu.2.2 h₂ fun y hy => hσ y (.inr hy)
    exact ⟨ihu hu.2.1 h₁ fun y hy => hσ y (.inl hy), hbody⟩

theorem Term.knownIn_of_parse {Γ : Context} {text : String} {t : Term}
    (h : Term.parse Γ text = .ok t) {σ : NameSupply} (hσ : ∀ x ∈ t.typeNames, x ∈ σ.used) :
    t.KnownIn σ Γ.kinds := by
  unfold Term.parse at h
  split at h
  next u hu =>
    split at h
    next ht =>
      cases h
      have hknown := knownIn_resolve (Surface.Term.named_of_parse hu) ht hσ
      rwa [Scope.ofContext, List.map_map] at hknown
    next => cases h
  next => cases h

theorem Context.Written.known {Γ : Context} (h : Γ.Written) {σ : NameSupply}
    (hσ : ∀ x ∈ Γ.freeNames, x ∈ σ.used) : Γ.Known σ := by
  induction Γ with
  | nil => intro i a ha; simp [Context.getType?] at ha
  | cons e Γ ih =>
    obtain ⟨x, b⟩ := e
    have hΓ : Context.Known σ Γ := ih h.2.2 fun y hy => hσ y (by
      rw [Context.freeNames, List.flatMap_cons]
      exact List.mem_append_right _ hy)
    refine hΓ.cons x fun a ha => ?_
    obtain ⟨u, hu, rfl⟩ := h.2.1 a ha
    have hnames : ∀ y ∈ (u.resolve (.ofContext Γ)).freeNames, y ∈ σ.used := fun y hy => hσ y (by
      rw [Context.freeNames, List.flatMap_cons]
      exact List.mem_append_left _ (by rw [ha]; exact hy))
    have hknown := Ty.knownIn_resolve hu hnames
    rwa [Scope.ofContext, List.map_map] at hknown

/-- The supply for a term that was read knows all names of the context and of the term. -/
theorem known_forTerm {contextText termText : String} {Γ : Context} {t : Term}
    (hΓ : Context.parse contextText = .ok Γ) (ht : Term.parse Γ termText = .ok t) :
    Γ.Known (.forTerm Γ t) ∧ t.KnownIn (.forTerm Γ t) Γ.kinds :=
  ⟨(Context.written_of_parse hΓ).known fun x hx => by simp [NameSupply.forTerm, hx],
    Term.knownIn_of_parse ht fun x hx => by simp [NameSupply.forTerm, hx]⟩

/-- The type of a term that was read is formed in the context, and its names are names of types. -/
theorem knownIn_of_inferType {contextText termText : String} {Γ : Context} {t : Term} {a : Ty}
    (hΓ : Context.parse contextText = .ok Γ) (ht : Term.parse Γ termText = .ok t)
    (h : inferType Γ t = .ok a) : ∃ σ, a.KnownIn Γ.kinds σ := by
  obtain ⟨⟨s, b⟩, hrun, h⟩ := bind_eq_ok_iff.mp h
  obtain ⟨Δ, hΔ, h⟩ := bind_eq_ok_iff.mp h
  cases h
  obtain ⟨σ, hrun⟩ := Supplied.answer_eq_ok_iff.mp hrun
  obtain ⟨hcontext, hterm⟩ := known_forTerm hΓ ht
  have hknown := Infer.known_of_run hcontext hterm hrun
  obtain ⟨hkinds, -⟩ := hknown.context hcontext hΔ
  have hgen := Context.knownIn_generalize (hkinds ▸ hknown.ty : b.KnownIn Δ.kinds σ) []
  exact ⟨σ, hkinds ▸ hgen⟩

end LambdaTyping
