import Mathlib
import LambdaTyping.Proofs.LargerContexts

/-!
# System F with implicit instances

The typing rules of System F for inference. As in the explicit system parameters
are annotated, and types are abstracted and applied explicitly. In addition
variables are instantiated where they stand, and the type of a definition is
generalised over names that neither the context nor the annotations of the
definition know.

There are two policies for the quantifiers of a function and its argument, of a
condition, and of the branches of a conditional. They are rigid, so that the
types have to be equal, or transparent, so that quantified variables on both
sides may be replaced by types until they are.

Derivations are kept in larger contexts, by maps of names to formed types, and
when a name that the context does not know becomes a type variable.
-/
namespace LambdaTyping

open Text (Position)

namespace Ty

/-- `b` is `a` with types for some of its outermost quantified variables. -/
inductive Instantiates (ks : List Kind) : Ty → Ty → Prop
  | refl {a : Ty} : Instantiates ks a a
  | all {x : String} {a b s : Ty} (hs : s.FormedIn ks) (h : Instantiates ks (a.substTop s) b) :
    Instantiates ks (.all x a) b

/-- The types are equal if quantified variables of both are replaced by types, at any place. -/
inductive Agrees (ks : List Kind) : Ty → Ty → Prop
  | same {a b : Ty} (h : a.erase = b.erase) : Agrees ks a b
  | arr {a₁ b₁ a₂ b₂ : Ty} (ha : Agrees ks a₁ a₂) (hb : Agrees ks b₁ b₂) :
    Agrees ks (.arr a₁ b₁) (.arr a₂ b₂)
  | left {x : String} {a b s : Ty} (hs : s.FormedIn ks) (h : Agrees ks (a.substTop s) b) :
    Agrees ks (.all x a) b
  | right {x : String} {a b s : Ty} (hs : s.FormedIn ks) (h : Agrees ks a (b.substTop s)) :
    Agrees ks a (.all x b)

theorem Instantiates.formedIn {ks : List Kind} {a b : Ty} (h : a.Instantiates ks b)
    (ha : a.FormedIn ks) : b.FormedIn ks := by
  induction h with
  | refl => exact ha
  | @all x a b s hs _ ih => exact ih (FormedIn.substTop (x := x) ha hs)

theorem erase_substTop_congr {a b s s' : Ty} (h : a.erase = b.erase) (hs : s.erase = s'.erase) :
    (a.substTop s).erase = (b.substTop s').erase := by
  rw [substTop_eq_fillAt, substTop_eq_fillAt, erase_fillAt, erase_fillAt, h, hs]

theorem exists_of_erase_eq_all {a : Ty} {x : String} {b : Ty} (h : (all x b).erase = a.erase) :
    ∃ y b', a = all y b' ∧ b.erase = b'.erase := by
  cases a <;> simp_all [erase]

theorem exists_of_erase_eq_arr {a b c : Ty} (h : (arr a b).erase = c.erase) :
    ∃ a' b', c = arr a' b' ∧ a.erase = a'.erase ∧ b.erase = b'.erase := by
  cases c <;> simp_all [erase]

theorem Instantiates.of_erase_eq {ks : List Kind} {a b a' : Ty} (h : a.Instantiates ks b)
    (ha : a.erase = a'.erase) : ∃ b', a'.Instantiates ks b' ∧ b.erase = b'.erase := by
  induction h generalizing a' with
  | refl => exact ⟨a', .refl, ha⟩
  | @all x a b s hs _ ih =>
    obtain ⟨y, c, rfl, hc⟩ := exists_of_erase_eq_all ha
    obtain ⟨b', hb', hb⟩ := ih (erase_substTop_congr hc rfl)
    exact ⟨b', .all hs hb', hb⟩

theorem Agrees.of_erase_eq {ks : List Kind} {a b a' b' : Ty} (h : a.Agrees ks b)
    (ha : a.erase = a'.erase) (hb : b.erase = b'.erase) : a'.Agrees ks b' := by
  induction h generalizing a' b' with
  | same h => exact .same (ha.symm.trans (h.trans hb))
  | arr _ _ iha ihb =>
    obtain ⟨a₁, b₁, rfl, ha₁, hb₁⟩ := exists_of_erase_eq_arr ha
    obtain ⟨a₂, b₂, rfl, ha₂, hb₂⟩ := exists_of_erase_eq_arr hb
    exact .arr (iha ha₁ ha₂) (ihb hb₁ hb₂)
  | @left x a b s hs _ ih =>
    obtain ⟨y, c, rfl, hc⟩ := exists_of_erase_eq_all ha
    exact .left hs (ih (erase_substTop_congr hc rfl) hb)
  | @right x a b s hs _ ih =>
    obtain ⟨y, c, rfl, hc⟩ := exists_of_erase_eq_all hb
    exact .right hs (ih ha (erase_substTop_congr hc rfl))

end Ty

namespace Moves

variable {d c : Nat} {θ : String → Ty} {ks ks' : List Kind} {a b : Ty}

theorem instantiates (h : Moves d c θ ks ks') (ha : a.FormedIn ks) (hab : a.Instantiates ks b) :
    (a.moved d c θ).Instantiates ks' (b.moved d c θ) := by
  induction hab with
  | refl => exact .refl
  | @all x a b s hs _ ih =>
    rw [Ty.moved_all]
    refine .all (h.formedIn hs) ?_
    rw [← Ty.moved_substTop ha]
    exact ih (Ty.FormedIn.substTop (x := x) ha hs)

theorem agrees (h : Moves d c θ ks ks') (ha : a.FormedIn ks) (hb : b.FormedIn ks)
    (hab : a.Agrees ks b) : (a.moved d c θ).Agrees ks' (b.moved d c θ) := by
  induction hab with
  | same hab => exact .same (Ty.erase_moved_eq hab d c θ)
  | arr _ _ iha ihb => exact .arr (iha ha.1 hb.1) (ihb ha.2 hb.2)
  | @left x a b s hs _ ih =>
    rw [Ty.moved_all]
    refine .left (h.formedIn hs) ?_
    rw [← Ty.moved_substTop ha]
    exact ih (Ty.FormedIn.substTop (x := x) ha hs) hb
  | @right x a b s hs _ ih =>
    rw [Ty.moved_all]
    refine .right (h.formedIn hs) ?_
    rw [← Ty.moved_substTop hb]
    exact ih ha (Ty.FormedIn.substTop (x := x) hb hs)

end Moves

/-- What becomes of quantifiers where two types have to be equal: they stay what they are, or their
variables are replaced by whatever is needed. -/
inductive Policy where
  | rigid | transparent

namespace Policy

/-- The type of a function, or of a condition, may be used as the other one. -/
def Opens (ks : List Kind) : Policy → Ty → Ty → Prop
  | rigid => Eq
  | transparent => Ty.Instantiates ks

/-- The types of a parameter and an argument, or of two branches, fit. -/
def Fits (ks : List Kind) : Policy → Ty → Ty → Prop
  | rigid => Eq
  | transparent => Ty.Agrees ks

variable {P : Policy} {d c : Nat} {θ : String → Ty} {ks ks' : List Kind} {a b : Ty}

theorem Opens.formedIn (h : P.Opens ks a b) (ha : a.FormedIn ks) : b.FormedIn ks := by
  cases P with
  | rigid => exact (h : a = b) ▸ ha
  | transparent => exact Ty.Instantiates.formedIn h ha

theorem Opens.moved (h : P.Opens ks a b) (hm : Moves d c θ ks ks') (ha : a.FormedIn ks) :
    P.Opens ks' (a.moved d c θ) (b.moved d c θ) := by
  cases P with
  | rigid => exact congrArg _ h
  | transparent => exact hm.instantiates ha h

theorem Fits.moved (h : P.Fits ks a b) (hm : Moves d c θ ks ks') (ha : a.FormedIn ks)
    (hb : b.FormedIn ks) : P.Fits ks' (a.moved d c θ) (b.moved d c θ) := by
  cases P with
  | rigid => exact congrArg _ h
  | transparent => exact hm.agrees ha hb h

end Policy

/-- Terms with annotated parameters, explicit type abstraction and application, and definitions
whose types are generalised. Variables are instantiated where they stand. -/
inductive ImplicitF (P : Policy) : Context → Term → Ty → Prop
  | var {Γ : Context} {p : Position} {i n : Nat} {a b : Ty} (ha : Γ.getType? i = some a)
    (hb : a.Instantiates Γ.kinds b) : ImplicitF P Γ (.var p i n) b
  | const {Γ : Context} {p : Position} {b : Bool} : ImplicitF P Γ (.const p b) .bool
  | abs {Γ : Context} {p : Position} {x : String} {a b : Ty} {t : Term} (ha : a.FormedIn Γ.kinds)
    (ht : ImplicitF P (⟨x, .var a⟩ :: Γ) t (b.shift 1)) :
    ImplicitF P Γ (.abs p x (some a) t) (.arr a b)
  | app {Γ : Context} {p : Position} {a a' b c : Ty} {t u : Term} (ht : ImplicitF P Γ t c)
    (hu : ImplicitF P Γ u a) (hc : P.Opens Γ.kinds c (.arr a' b)) (ha : P.Fits Γ.kinds a' a) :
    ImplicitF P Γ (.app p t u) b
  | ite {Γ : Context} {p : Position} {a a' k : Ty} {c t e : Term} (hc : ImplicitF P Γ c k)
    (ht : ImplicitF P Γ t a') (he : ImplicitF P Γ e a) (hk : P.Opens Γ.kinds k .bool)
    (ha : P.Fits Γ.kinds a' a) : ImplicitF P Γ (.ite p c t e) a
  | tyAbs {Γ : Context} {p : Position} {x : String} {a : Ty} {t : Term}
    (ht : ImplicitF P (⟨x, .tyVar⟩ :: Γ) t a) : ImplicitF P Γ (.tyAbs p x t) (.all x a)
  | tyApp {Γ : Context} {p : Position} {x : String} {a s : Ty} {t : Term} (hs : s.FormedIn Γ.kinds)
    (ht : ImplicitF P Γ t (.all x a)) : ImplicitF P Γ (.tyApp p t s) (a.substTop s)
  | letIn {Γ : Context} {p : Position} {x : String} {xs : List String} {a b : Ty} {e t : Term}
    (he : ImplicitF P Γ e a) (hxs : ∀ y ∈ xs, y ∉ Γ.freeNames ∧ y ∉ e.typeNames)
    (ht : ImplicitF P (⟨x, .var (a.generalize Γ.length xs)⟩ :: Γ) t (b.shift 1)) :
    ImplicitF P Γ (.letIn p x e t) b
  /-- The names of binders do not matter. -/
  | alpha {Γ : Context} {t : Term} {a b : Ty} (hab : a.erase = b.erase) (ht : ImplicitF P Γ t a) :
    ImplicitF P Γ t b

/-- The context `Δ` has the types of `Γ` in a larger context, up to the names of binders. -/
structure Context.Moves (d c : Nat) (θ : String → Ty) (Γ Δ : Context) : Prop where
  kinds : LambdaTyping.Moves d c θ Γ.kinds Δ.kinds
  types : ∀ i a, Γ.getType? i = some a →
    ∃ b, Δ.getType? (offsetAbove c i d) = some b ∧ (a.moved d c θ).erase = b.erase

namespace Context.Moves

variable {d c : Nat} {θ η : String → Ty} {Γ Δ : Context}

theorem cons (h : Γ.Moves d c θ Δ) (x y : String) {b₁ b₂ : Binding} (hkind : b₂.kind = b₁.kind)
    (hb : ∀ a, b₁ = .var a → ∃ b, b₂ = .var b ∧ (a.moved d c θ).erase = b.erase) :
    Context.Moves d (c + 1) (liftMap θ) (⟨x, b₁⟩ :: Γ) (⟨y, b₂⟩ :: Δ) where
  kinds := by
    rw [kinds_cons, kinds_cons, hkind]
    exact h.kinds.lift b₁.kind
  types i a ha := by
    have hshift : ∀ {a b : Ty}, (a.moved d c θ).erase = b.erase →
        ((a.shift 1).moved d (c + 1) (liftMap θ)).erase = (b.shift 1).erase := fun hab => by
      rw [Ty.moved_shift_one, Ty.erase_shift, Ty.erase_shift, hab]
    cases i with
    | zero =>
      obtain ⟨a, rfl, rfl⟩ := getType?_cons_zero_eq_some ha
      obtain ⟨b, rfl, hab⟩ := hb a rfl
      exact ⟨b.shift 1, rfl, hshift hab⟩
    | succ i =>
      rw [getType?_cons_succ, Option.map_eq_some_iff] at ha
      obtain ⟨a, ha, rfl⟩ := ha
      obtain ⟨b, hb, hab⟩ := h.types i a ha
      have hi : offsetAbove (c + 1) (i + 1) d = offsetAbove c i d + 1 := by
        simp only [offsetAbove, offset_natCast, Nat.add_le_add_iff_right]
        split <;> omega
      exact ⟨b.shift 1, by rw [hi, getType?_cons_succ, hb]; rfl, hshift hab⟩

theorem cons_var (h : Γ.Moves d c θ Δ) (x y : String) {a b : Ty}
    (hab : (a.moved d c θ).erase = b.erase) :
    Context.Moves d (c + 1) (liftMap θ) (⟨x, .var a⟩ :: Γ) (⟨y, .var b⟩ :: Δ) := by
  refine h.cons x y rfl fun a' ha' => ?_
  obtain rfl : a = a' := by simpa using ha'
  exact ⟨b, rfl, hab⟩

theorem cons_tyVar (h : Γ.Moves d c θ Δ) (x y : String) :
    Context.Moves d (c + 1) (liftMap θ) (⟨x, .tyVar⟩ :: Γ) (⟨y, .tyVar⟩ :: Δ) :=
  h.cons x y rfl fun a ha => by simp at ha

/-- Only the names of the context matter. -/
theorem congr (h : Γ.Moves d c θ Δ) (hη : ∀ x, (η x).FormedIn Δ.kinds)
    (heq : ∀ x ∈ Γ.freeNames, η x = θ x) : Γ.Moves d c η Δ where
  kinds := ⟨h.kinds.kinds, hη⟩
  types i a ha := by
    obtain ⟨b, hb, hab⟩ := h.types i a ha
    refine ⟨b, hb, ?_⟩
    rw [← hab, Ty.moved, Ty.moved, Ty.mapNames_congr fun x hx => heq x ?_]
    rw [Ty.freeNames_shiftAbove] at hx
    exact mem_freeNames_of_getType? ha hx

end Context.Moves

theorem Context.Formed.cons_var {Γ : Context} (h : Γ.Formed) (x : String) {a : Ty}
    (ha : a.FormedIn Γ.kinds) : Context.Formed (⟨x, .var a⟩ :: Γ) :=
  ⟨fun b hb => by
    obtain rfl : a = b := by simpa using hb
    exact ha, h⟩

theorem Context.Formed.cons_tyVar {Γ : Context} (h : Γ.Formed) (x : String) :
    Context.Formed (⟨x, .tyVar⟩ :: Γ) := ⟨fun b hb => by simp at hb, h⟩

namespace ImplicitF

variable {P : Policy}

theorem formedIn {Γ : Context} {t : Term} {a : Ty} (h : ImplicitF P Γ t a) (hΓ : Γ.Formed) :
    a.FormedIn Γ.kinds := by
  induction h with
  | var ha hb => exact hb.formedIn (hΓ.getType? ha)
  | const => trivial
  | abs ha _ ih => exact ⟨ha, (ih (hΓ.cons_var _ ha)).of_shift_one⟩
  | app _ _ hc _ iht _ => exact (hc.formedIn (iht hΓ)).2
  | ite _ _ _ _ _ _ _ ihe => exact ihe hΓ
  | tyAbs _ ih => exact ih (hΓ.cons_tyVar _)
  | tyApp hs _ ih => exact (ih hΓ).substTop hs
  | @letIn Γ p x xs a b e t _ _ _ ihe iht =>
    have ha := (ihe hΓ).generalize xs
    rw [Context.length_kinds] at ha
    exact (iht (hΓ.cons_var x ha)).of_shift_one
  | alpha hab _ ih => exact (ih hΓ).of_erase_eq hab

/-- The names that a definition is generalised over are replaced by new ones, if the definition can
be derived whatever they are. -/
theorem letIn_renamed {d c len : Nat} {θ : String → Ty} {Δ : Context} {p : Position} {y : String}
    {xs : List String} {a b : Ty} {u v : Term} (hθ : ∀ z, (θ z).FormedIn Δ.kinds)
    (hlen : len + d = Δ.length)
    (hu : ∀ η : String → Ty, (∀ z, (η z).FormedIn Δ.kinds) → (∀ z ∉ xs, η z = θ z) →
      ImplicitF P Δ u (a.moved d c η))
    (hv : ∀ a', ((a.generalize len xs).moved d c θ).erase = a'.erase →
      ImplicitF P (⟨y, .var a'⟩ :: Δ) v (b.shift 1)) :
    ImplicitF P Δ (.letIn p y u v) b := by
  obtain ⟨ρ, hρ, hfresh⟩ := Name.exists_renaming
    (Δ.freeNames ++ u.typeNames ++ a.freeNames.flatMap fun z => (θ z).freeNames)
  simp only [List.mem_append, List.mem_flatMap, not_or, not_exists, not_and] at hfresh
  have hformed : ∀ z, (Ty.renameMap ρ xs θ z).FormedIn Δ.kinds := fun z => by
    unfold Ty.renameMap
    split
    · trivial
    · exact hθ z
  have hgeneral := Ty.erase_moved_generalize (d := d) (c := c) (θ := θ) (a := a) hρ xs len
    fun z hz _ w _ => (hfresh w).2 z hz
  rw [hlen] at hgeneral
  refine .letIn (hu _ hformed fun z hz => if_neg hz) (fun w hw => ?_) (hv _ hgeneral)
  obtain ⟨z, -, rfl⟩ := List.mem_map.mp hw
  exact (hfresh z).1

/-- Derivations are kept in larger contexts and by maps of names, whatever binders are called. -/
theorem move {d c : Nat} {Γ Δ : Context} {t u : Term} {a : Ty} {θ : String → Ty}
    (h : ImplicitF P Γ t a) (hΓ : Γ.Formed) (hΔ : Γ.Moves d c θ Δ)
    (hu : (t.moved d c θ).erase = u.erase) : ImplicitF P Δ u (a.moved d c θ) := by
  induction h generalizing c Δ u θ with
  | @var Γ p i n a b ha hb =>
    cases u with
    | var q j m =>
      obtain ⟨rfl, -⟩ : offsetAbove c i d = j ∧ n + d = m := by simpa [Term.erase] using hu
      obtain ⟨a', ha', haa'⟩ := hΔ.types i a ha
      obtain ⟨b', hb', hbb'⟩ := (hΔ.kinds.instantiates (hΓ.getType? ha) hb).of_erase_eq haa'
      exact .alpha hbb'.symm (.var ha' hb')
    | _ => simp [Term.erase] at hu
  | const =>
    cases u with
    | const q b => exact .const
    | _ => simp [Term.erase] at hu
  | @abs Γ p x a b t ha _ ih =>
    cases u with
    | abs q y ty u =>
      cases ty with
      | none => simp [Term.erase] at hu
      | some a' =>
        simp only [Term.moved_abs, Term.erase, Option.map_some, Term.abs.injEq, true_and,
          Option.some.injEq] at hu
        obtain ⟨ha', ht⟩ := hu
        have hbody := ih (hΓ.cons_var x ha) (hΔ.cons_var x y ha') ht
        rw [Ty.moved_shift_one] at hbody
        refine .alpha ?_ (.abs ((hΔ.kinds.formedIn ha).of_erase_eq ha') hbody)
        rw [Ty.moved_arr, Ty.erase, Ty.erase, ha']
    | _ => simp [Term.erase] at hu
  | app ht hv hc ha iht ihv =>
    cases u with
    | app q u₁ u₂ =>
      simp only [Term.moved_app, Term.erase, Term.app.injEq, true_and] at hu
      have hcformed := ht.formedIn hΓ
      exact .app (iht hΓ hΔ hu.1) (ihv hΓ hΔ hu.2) (hc.moved hΔ.kinds hcformed)
        (ha.moved hΔ.kinds (hc.formedIn hcformed).1 (hv.formedIn hΓ))
    | _ => simp [Term.erase] at hu
  | ite hc ht he hk ha ihc iht ihe =>
    cases u with
    | ite q u₁ u₂ u₃ =>
      simp only [Term.moved_ite, Term.erase, Term.ite.injEq, true_and] at hu
      exact .ite (ihc hΓ hΔ hu.1) (iht hΓ hΔ hu.2.1) (ihe hΓ hΔ hu.2.2)
        (hk.moved hΔ.kinds (hc.formedIn hΓ)) (ha.moved hΔ.kinds (ht.formedIn hΓ) (he.formedIn hΓ))
    | _ => simp [Term.erase] at hu
  | @tyAbs Γ p x a t _ ih =>
    cases u with
    | tyAbs q y u =>
      simp only [Term.moved_tyAbs, Term.erase, Term.tyAbs.injEq, true_and] at hu
      refine .alpha ?_ (.tyAbs (ih (hΓ.cons_tyVar x) (hΔ.cons_tyVar x y) hu))
      rw [Ty.moved_all]
      rfl
    | _ => simp [Term.erase] at hu
  | @tyApp Γ p x a s t hs ht ih =>
    cases u with
    | tyApp q u s' =>
      simp only [Term.moved_tyApp, Term.erase, Term.tyApp.injEq, true_and] at hu
      obtain ⟨ht', hs'⟩ := hu
      have hall := ih hΓ hΔ ht'
      rw [Ty.moved_all] at hall
      refine .alpha ?_ (.tyApp ((hΔ.kinds.formedIn hs).of_erase_eq hs') hall)
      rw [Ty.moved_substTop (ht.formedIn hΓ), Ty.substTop_eq_fillAt, Ty.substTop_eq_fillAt,
        Ty.erase_fillAt, Ty.erase_fillAt, hs']
    | _ => simp [Term.erase] at hu
  | @letIn Γ p x xs a b e t he hxs _ ihe iht =>
    cases u with
    | letIn q y u₁ u₂ =>
      simp only [Term.moved_letIn, Term.erase, Term.letIn.injEq, true_and] at hu
      have hlength := hΔ.kinds.length_eq
      rw [Context.length_kinds, Context.length_kinds] at hlength
      have hdef : ∀ η : String → Ty, (∀ z, (η z).FormedIn Δ.kinds) → (∀ z ∉ xs, η z = θ z) →
          ImplicitF P Δ u₁ (a.moved d c η) := fun η hη heq => by
        refine ihe hΓ (hΔ.congr hη fun z hz => heq z fun hzxs => (hxs z hzxs).1 hz) ?_
        rw [← hu.1, Term.moved_congr fun z hz => heq z fun hzxs => (hxs z hzxs).2 hz]
      refine letIn_renamed hΔ.kinds.formed hlength.symm hdef fun a' ha' => ?_
      have ha := (he.formedIn hΓ).generalize xs
      rw [Context.length_kinds] at ha
      have hbody := iht (hΓ.cons_var x ha) (hΔ.cons_var x y ha') hu.2
      rwa [Ty.moved_shift_one] at hbody
    | _ => simp [Term.erase] at hu
  | alpha hab _ ih => exact .alpha (Ty.erase_moved_eq hab d c θ) (ih hΓ hΔ hu)

/-- A name that the context does not know becomes a type variable. -/
theorem bindName {Γ : Context} {t u : Term} {a : Ty} {n x : String} (h : ImplicitF P Γ t a)
    (hΓ : Γ.Formed) (hn : n ∉ Γ.freeNames)
    (hu : ((t.shift 1).mapNames (Function.update Ty.name n (.var 0 (Γ.length + 1)))).erase =
      u.erase) : ImplicitF P (⟨x, .tyVar⟩ :: Γ) u ((a.shift 1).bindName n Γ.length) := by
  have hmoves : Γ.Moves 1 0 (Function.update Ty.name n (.var 0 (Γ.length + 1)))
      (⟨x, .tyVar⟩ :: Γ) := by
    refine ⟨⟨⟨[], [.type], Γ.kinds, rfl, rfl, rfl, rfl⟩, fun y => ?_⟩, fun i b hb => ?_⟩
    · by_cases hy : y = n
      · subst hy
        rw [Function.update_self]
        exact ⟨by simp, rfl⟩
      · rw [update_name_of_ne hy]
        trivial
    · refine ⟨b.shift 1, ?_, ?_⟩
      · rw [offsetAbove, if_pos (Nat.zero_le i), offset_natCast, Context.getType?_cons_succ, hb]
        rfl
      · refine congrArg Ty.erase (Ty.mapNames_eq_self fun y hy => update_name_of_ne ?_)
        rintro rfl
        exact hn (Context.mem_freeNames_of_getType? hb (by rwa [Ty.freeNames_shiftAbove] at hy))
  rw [Ty.bindName_eq_mapNames]
  exact h.move hΓ hmoves hu

end ImplicitF

end LambdaTyping
