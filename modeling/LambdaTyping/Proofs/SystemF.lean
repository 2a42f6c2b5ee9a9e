import Mathlib
import LambdaTyping.Proofs.Formation

/-!
# System F

The typing rules of System F with free names as unknown types. Types are only
meant up to the names of their binders, so there is a rule that changes them. The
type of a body that leaves the scope of a term variable is written as a type
outside that scope, shifted into it.

Derivations are kept by every map of names to types that are formed in the
context, for terms and contexts up to the names of binders. Types are unique.
-/
namespace LambdaTyping

open Text (Position)

inductive SystemF : Context → Term → Ty → Prop
  | var {Γ : Context} {p : Position} {i n : Nat} {a : Ty} (ha : Γ.getType? i = some a) :
    SystemF Γ (.var p i n) a
  | const {Γ : Context} {p : Position} {b : Bool} : SystemF Γ (.const p b) .bool
  | abs {Γ : Context} {p : Position} {x : String} {a b : Ty} {t : Term} (ha : a.FormedIn Γ.kinds)
    (ht : SystemF (⟨x, .var a⟩ :: Γ) t (b.shift 1)) : SystemF Γ (.abs p x (some a) t) (.arr a b)
  | app {Γ : Context} {p : Position} {a b : Ty} {t u : Term} (ht : SystemF Γ t (.arr a b))
    (hu : SystemF Γ u a) : SystemF Γ (.app p t u) b
  | ite {Γ : Context} {p : Position} {a : Ty} {c t e : Term} (hc : SystemF Γ c .bool)
    (ht : SystemF Γ t a) (he : SystemF Γ e a) : SystemF Γ (.ite p c t e) a
  | tyAbs {Γ : Context} {p : Position} {x : String} {a : Ty} {t : Term}
    (ht : SystemF (⟨x, .tyVar⟩ :: Γ) t a) : SystemF Γ (.tyAbs p x t) (.all x a)
  | tyApp {Γ : Context} {p : Position} {x : String} {a s : Ty} {t : Term} (hs : s.FormedIn Γ.kinds)
    (ht : SystemF Γ t (.all x a)) : SystemF Γ (.tyApp p t s) (a.substTop s)
  | letIn {Γ : Context} {p : Position} {x : String} {a b : Ty} {e t : Term} (he : SystemF Γ e a)
    (ht : SystemF (⟨x, .var a⟩ :: Γ) t (b.shift 1)) : SystemF Γ (.letIn p x e t) b
  /-- The names of binders do not matter. -/
  | alpha {Γ : Context} {t : Term} {a b : Ty} (hab : a.erase = b.erase) (ht : SystemF Γ t a) :
    SystemF Γ t b

/-- The map of names, seen from one binder further in. -/
def liftMap (θ : String → Ty) (x : String) : Ty := (θ x).shift 1

theorem Ty.mapNamesAt_one_eq (θ : String → Ty) (t : Ty) :
    t.mapNamesAt θ 1 = t.mapNames (liftMap θ) := Ty.mapNamesAt_one θ t

theorem Ty.mapNames_all_eq (θ : String → Ty) (x : String) (a : Ty) :
    (Ty.all x a).mapNames θ = .all x (a.mapNames (liftMap θ)) := by
  rw [← mapNamesAt_one_eq]
  rfl

theorem Ty.mapNames_liftMap_shift (θ : String → Ty) (t : Ty) :
    (t.shift 1).mapNames (liftMap θ) = (t.mapNames θ).shift 1 := by
  have h := Ty.mapNamesAt_shift θ 1 t
  rwa [Nat.cast_one, mapNamesAt_one_eq] at h

theorem Ty.erase_shift (d : Int) (t : Ty) : (t.shift d).erase = t.erase.shift d :=
  erase_shiftAbove d 0 t

theorem Ty.erase_fillAt (s : Ty) (c : Nat) (t : Ty) :
    (t.fillAt s c).erase = t.erase.fillAt s.erase c := by
  induction t generalizing c with
  | var i n =>
    simp only [fillAt, erase]
    split
    · exact erase_shift c s
    · rfl
  | arr a b iha ihb => simp only [fillAt, erase, iha, ihb]
  | all x a ih => simp only [fillAt, erase, ih]
  | _ => rfl

theorem Ty.erase_mapNames_eq {a b : Ty} (h : a.erase = b.erase) (θ : String → Ty) :
    (a.mapNames θ).erase = (b.mapNames θ).erase := by
  rw [mapNames, mapNames, erase_mapNamesAt, erase_mapNamesAt, h]

namespace Term

theorem mapNamesAt_add (θ : String → Ty) (c d : Nat) (t : Term) :
    t.mapNamesAt θ (d + c) = t.mapNamesAt (fun x => (θ x).shift d) c := by
  induction t generalizing c with
  | abs p x ty t ih => cases ty <;> simp [mapNamesAt, Nat.add_assoc, ih, Ty.mapNamesAt_add]
  | app p t u iht ihu => simp only [mapNamesAt, iht, ihu]
  | ite p i t e ihi iht ihe => simp only [mapNamesAt, ihi, iht, ihe]
  | tyAbs p x t ih => simp only [mapNamesAt, Nat.add_assoc, ih]
  | tyApp p t ty ih => simp only [mapNamesAt, ih, Ty.mapNamesAt_add]
  | letIn p x e t ihe iht => simp only [mapNamesAt, Nat.add_assoc, ihe, iht]
  | _ => rfl

theorem mapNamesAt_one_eq (θ : String → Ty) (t : Term) :
    t.mapNamesAt θ 1 = t.mapNames (liftMap θ) := mapNamesAt_add θ 0 1 t

theorem mapNamesAt_mapNamesAt (θ η : String → Ty) (c : Nat) (t : Term) :
    (t.mapNamesAt θ c).mapNamesAt η c = t.mapNamesAt (fun x => (θ x).mapNames η) c := by
  induction t generalizing c with
  | abs p x ty t ih => cases ty <;> simp [mapNamesAt, ih, Ty.mapNamesAt_mapNamesAt]
  | app p t u iht ihu => simp only [mapNamesAt, iht, ihu]
  | ite p i t e ihi iht ihe => simp only [mapNamesAt, ihi, iht, ihe]
  | tyAbs p x t ih => simp only [mapNamesAt, ih]
  | tyApp p t ty ih => simp only [mapNamesAt, ih, Ty.mapNamesAt_mapNamesAt]
  | letIn p x e t ihe iht => simp only [mapNamesAt, ihe, iht]
  | _ => rfl

theorem mapNames_mapNames (θ η : String → Ty) (t : Term) :
    (t.mapNames θ).mapNames η = t.mapNames fun x => (θ x).mapNames η :=
  mapNamesAt_mapNamesAt θ η 0 t

theorem erase_mapNames_congr {θ η : String → Ty} (h : ∀ x, (θ x).erase = (η x).erase) (t : Term) :
    (t.mapNames θ).erase = (t.mapNames η).erase := by
  rw [mapNames, mapNames, erase_mapNamesAt, erase_mapNamesAt, funext h]

end Term

/-- The context `Δ` has the types of `Γ` under the map, up to the names of binders. -/
structure Context.Maps (θ : String → Ty) (Γ Δ : Context) : Prop where
  kinds : Δ.kinds = Γ.kinds
  types : ∀ i a, Γ.getType? i = some a → ∃ b, Δ.getType? i = some b ∧ (a.mapNames θ).erase = b.erase

namespace Context.Maps

variable {θ : String → Ty} {Γ Δ : Context}

/-- One more binding on both sides. -/
theorem cons (h : Γ.Maps θ Δ) (x y : String) {b₁ b₂ : Binding} (hkind : b₂.kind = b₁.kind)
    (hb : ∀ a, b₁ = .var a → ∃ b, b₂ = .var b ∧ (a.mapNames θ).erase = b.erase) :
    Context.Maps (liftMap θ) (⟨x, b₁⟩ :: Γ) (⟨y, b₂⟩ :: Δ) where
  kinds := by simp [hkind, h.kinds]
  types i a ha := by
    -- both types come from one binder further out
    have hshift : ∀ {a b : Ty}, (a.mapNames θ).erase = b.erase →
        ((a.shift 1).mapNames (liftMap θ)).erase = (b.shift 1).erase := fun hab => by
      rw [Ty.mapNames_liftMap_shift, Ty.erase_shift, Ty.erase_shift, hab]
    cases i with
    | zero =>
      obtain ⟨a, rfl, rfl⟩ := getType?_cons_zero_eq_some ha
      obtain ⟨b, rfl, hab⟩ := hb a rfl
      exact ⟨b.shift 1, rfl, hshift hab⟩
    | succ i =>
      rw [getType?_cons_succ, Option.map_eq_some_iff] at ha
      obtain ⟨a, ha, rfl⟩ := ha
      obtain ⟨b, hb, hab⟩ := h.types i a ha
      exact ⟨b.shift 1, by rw [getType?_cons_succ, hb]; rfl, hshift hab⟩

theorem cons_var (h : Γ.Maps θ Δ) (x y : String) {a b : Ty} (hab : (a.mapNames θ).erase = b.erase) :
    Context.Maps (liftMap θ) (⟨x, .var a⟩ :: Γ) (⟨y, .var b⟩ :: Δ) := by
  refine h.cons x y rfl fun a' ha' => ?_
  obtain rfl : a = a' := by simpa using ha'
  exact ⟨b, rfl, hab⟩

theorem cons_tyVar (h : Γ.Maps θ Δ) (x y : String) :
    Context.Maps (liftMap θ) (⟨x, .tyVar⟩ :: Γ) (⟨y, .tyVar⟩ :: Δ) :=
  h.cons x y rfl fun a ha => by simp at ha

theorem refl (Γ : Context) : Γ.Maps Ty.name Γ := ⟨rfl, fun _ a ha => ⟨a, ha, by simp⟩⟩

end Context.Maps

theorem formedIn_liftMap {θ : String → Ty} {ks : List Kind} (h : ∀ x, (θ x).FormedIn ks) (k : Kind)
    (x : String) : (liftMap θ x).FormedIn (k :: ks) := (h x).shift_one k

namespace SystemF

/-- Derivations are kept by maps of names, whatever the binders are called. -/
theorem map {Γ Δ : Context} {t u : Term} {a : Ty} {θ : String → Ty} (h : SystemF Γ t a)
    (hθ : ∀ x, (θ x).FormedIn Γ.kinds) (hΔ : Γ.Maps θ Δ) (hu : (t.mapNames θ).erase = u.erase) :
    SystemF Δ u (a.mapNames θ) := by
  induction h generalizing Δ u θ with
  | @var Γ p i n a ha =>
    cases u with
    | var q j m =>
      obtain ⟨rfl, -⟩ : i = j ∧ n = m := by simpa [Term.mapNames, Term.mapNamesAt, Term.erase] using hu
      obtain ⟨b, hb, hab⟩ := hΔ.types i a ha
      exact .alpha hab.symm (.var hb)
    | _ => simp [Term.mapNames, Term.mapNamesAt, Term.erase] at hu
  | const =>
    cases u with
    | const q b => exact .const
    | _ => simp [Term.mapNames, Term.mapNamesAt, Term.erase] at hu
  | @abs Γ p x a b t ha _ ih =>
    cases u with
    | abs q y ty u =>
      cases ty with
      | none => simp [Term.mapNames, Term.mapNamesAt, Term.erase] at hu
      | some a' =>
        simp only [Term.mapNames, Term.mapNamesAt, Term.erase, Option.map_some, Nat.zero_add,
          Term.mapNamesAt_one_eq, Term.abs.injEq, true_and, Option.some.injEq] at hu
        obtain ⟨ha', ht⟩ := hu
        have hformed := (ha.mapNames hθ).of_erase_eq ha'
        have hbody := ih (formedIn_liftMap hθ _) (hΔ.cons_var x y ha') ht
        rw [Ty.mapNames_liftMap_shift] at hbody
        refine .alpha ?_ (.abs (by rwa [hΔ.kinds]) hbody)
        simp only [Ty.mapNames_arr, Ty.erase, Ty.arr.injEq, and_true]
        exact ha'.symm
    | _ => simp [Term.mapNames, Term.mapNamesAt, Term.erase] at hu
  | app _ _ iht ihu =>
    cases u with
    | app q u₁ u₂ =>
      simp only [Term.mapNames, Term.mapNamesAt, Term.erase, Term.app.injEq, true_and] at hu
      exact .app (iht hθ hΔ hu.1) (ihu hθ hΔ hu.2)
    | _ => simp [Term.mapNames, Term.mapNamesAt, Term.erase] at hu
  | ite _ _ _ ihc iht ihe =>
    cases u with
    | ite q u₁ u₂ u₃ =>
      simp only [Term.mapNames, Term.mapNamesAt, Term.erase, Term.ite.injEq, true_and] at hu
      exact .ite (ihc hθ hΔ hu.1) (iht hθ hΔ hu.2.1) (ihe hθ hΔ hu.2.2)
    | _ => simp [Term.mapNames, Term.mapNamesAt, Term.erase] at hu
  | @tyAbs Γ p x a t _ ih =>
    cases u with
    | tyAbs q y u =>
      simp only [Term.mapNames, Term.mapNamesAt, Term.erase, Nat.zero_add, Term.mapNamesAt_one_eq,
        Term.tyAbs.injEq, true_and] at hu
      have hbody := ih (formedIn_liftMap hθ _) (hΔ.cons_tyVar x y) hu
      refine .alpha ?_ (.tyAbs hbody)
      rw [Ty.mapNames_all_eq]
      rfl
    | _ => simp [Term.mapNames, Term.mapNamesAt, Term.erase] at hu
  | @tyApp Γ p x a s t hs _ ih =>
    cases u with
    | tyApp q u s' =>
      simp only [Term.mapNames, Term.mapNamesAt, Term.erase, Term.tyApp.injEq, true_and] at hu
      obtain ⟨ht, hs'⟩ := hu
      have hformed := (hs.mapNames hθ).of_erase_eq hs'
      have hall : SystemF Δ u (.all x (a.mapNamesAt θ 1)) := ih hθ hΔ ht
      refine .alpha ?_ (.tyApp (by rwa [hΔ.kinds]) hall)
      rw [Ty.substTop_eq_fillAt, Ty.substTop_eq_fillAt, Ty.mapNames, Ty.mapNamesAt_fillAt,
        Ty.erase_fillAt, Ty.erase_fillAt, ← hs']
      rfl
    | _ => simp [Term.mapNames, Term.mapNamesAt, Term.erase] at hu
  | @letIn Γ p x a b e t _ _ ihe iht =>
    cases u with
    | letIn q y u₁ u₂ =>
      simp only [Term.mapNames, Term.mapNamesAt, Term.erase, Nat.zero_add, Term.mapNamesAt_one_eq,
        Term.letIn.injEq, true_and] at hu
      have hbody := iht (formedIn_liftMap hθ _) (hΔ.cons_var x y rfl) hu.2
      rw [Ty.mapNames_liftMap_shift] at hbody
      exact .letIn (ihe hθ hΔ hu.1) hbody
    | _ => simp [Term.mapNames, Term.mapNamesAt, Term.erase] at hu
  | alpha hab _ ih => exact .alpha (Ty.erase_mapNames_eq hab θ) (ih hθ hΔ hu)

/-- What stands above the last rule of a derivation, up to changes of names of binders. The type is
given without them. -/
def Above (Γ : Context) (c : Ty) : Term → Prop
  | .var _ i _ => ∃ a : Ty, Γ.getType? i = some a ∧ a.erase = c
  | .const .. => c = .bool
  | .abs _ x ty t =>
    ∃ a b : Ty, ty = some a ∧ SystemF (⟨x, .var a⟩ :: Γ) t (b.shift 1) ∧ (Ty.arr a b).erase = c
  | .app _ t u => ∃ a b : Ty, SystemF Γ t (.arr a b) ∧ SystemF Γ u a ∧ b.erase = c
  | .ite _ i t e => ∃ a : Ty, SystemF Γ i .bool ∧ SystemF Γ t a ∧ SystemF Γ e a ∧ a.erase = c
  | .tyAbs _ x t => ∃ a : Ty, SystemF (⟨x, .tyVar⟩ :: Γ) t a ∧ (Ty.all x a).erase = c
  | .tyApp _ t s => ∃ (x : String) (a : Ty), SystemF Γ t (.all x a) ∧ (a.substTop s).erase = c
  | .letIn _ x e t =>
    ∃ a b : Ty, SystemF Γ e a ∧ SystemF (⟨x, .var a⟩ :: Γ) t (b.shift 1) ∧ b.erase = c

theorem above {Γ : Context} {t : Term} {c : Ty} (h : SystemF Γ t c) : Above Γ c.erase t := by
  induction h with
  | var ha => exact ⟨_, ha, rfl⟩
  | const => rfl
  | abs _ ht => exact ⟨_, _, rfl, ht, rfl⟩
  | app ht hu => exact ⟨_, _, ht, hu, rfl⟩
  | ite hc ht he => exact ⟨_, hc, ht, he, rfl⟩
  | tyAbs ht => exact ⟨_, ht, rfl⟩
  | tyApp _ ht => exact ⟨_, _, ht, rfl⟩
  | letIn he ht => exact ⟨_, _, he, ht, rfl⟩
  | alpha hab _ ih => rwa [← hab]

/-- The type of a variable may be replaced by one that is the same up to the names of binders. -/
theorem cons_congr {Γ : Context} {x : String} {a b c : Ty} {t : Term} (hab : a.erase = b.erase)
    (h : SystemF (⟨x, .var a⟩ :: Γ) t c) : SystemF (⟨x, .var b⟩ :: Γ) t c := by
  have hmaps : Context.Maps Ty.name (⟨x, .var a⟩ :: Γ) (⟨x, .var b⟩ :: Γ) :=
    (Context.Maps.refl Γ).cons_var x x (by simpa using hab)
  simpa using h.map (u := t) (θ := Ty.name) (fun _ => trivial) hmaps (by simp)

theorem unique {Γ : Context} {t : Term} {a b : Ty} (ha : SystemF Γ t a) (hb : SystemF Γ t b) :
    a.erase = b.erase := by
  induction t generalizing Γ a b with
  | var p i n =>
    obtain ⟨a', ha', ha⟩ := ha.above
    obtain ⟨b', hb', hb⟩ := hb.above
    obtain rfl : a' = b' := by simpa [ha'] using hb'
    exact ha.symm.trans hb
  | const p c => exact ha.above.trans hb.above.symm
  | abs p x ty t ih =>
    obtain ⟨a₁, a₂, rfl, hat, ha⟩ := ha.above
    obtain ⟨b₁, b₂, hty, hbt, hb⟩ := hb.above
    obtain rfl : a₁ = b₁ := by simpa using hty
    have hbody := ih hat hbt
    rw [Ty.erase_shift, Ty.erase_shift] at hbody
    rw [← ha, ← hb, Ty.erase, Ty.erase, Ty.shift_one_injective hbody]
  | app p t u iht ihu =>
    obtain ⟨a₁, a₂, hat, -, ha⟩ := ha.above
    obtain ⟨b₁, b₂, hbt, -, hb⟩ := hb.above
    have harr := iht hat hbt
    simp only [Ty.erase, Ty.arr.injEq] at harr
    rw [← ha, ← hb, harr.2]
  | ite p c t e ihc iht ihe =>
    obtain ⟨a', -, hat, -, ha⟩ := ha.above
    obtain ⟨b', -, hbt, -, hb⟩ := hb.above
    rw [← ha, ← hb, iht hat hbt]
  | tyAbs p x t ih =>
    obtain ⟨a', hat, ha⟩ := ha.above
    obtain ⟨b', hbt, hb⟩ := hb.above
    rw [← ha, ← hb, Ty.erase, Ty.erase, ih hat hbt]
  | tyApp p t s ih =>
    obtain ⟨x, a', hat, ha⟩ := ha.above
    obtain ⟨y, b', hbt, hb⟩ := hb.above
    have hall := ih hat hbt
    simp only [Ty.erase, Ty.all.injEq, true_and] at hall
    rw [← ha, ← hb, Ty.substTop_eq_fillAt, Ty.substTop_eq_fillAt, Ty.erase_fillAt, Ty.erase_fillAt,
      hall]
  | letIn p x e t ihe iht =>
    obtain ⟨a₁, a₂, hae, hat, ha⟩ := ha.above
    obtain ⟨b₁, b₂, hbe, hbt, hb⟩ := hb.above
    have hbody := iht (cons_congr (ihe hae hbe) hat) hbt
    rw [Ty.erase_shift, Ty.erase_shift] at hbody
    rw [← ha, ← hb, Ty.shift_one_injective hbody]

end SystemF

end LambdaTyping
