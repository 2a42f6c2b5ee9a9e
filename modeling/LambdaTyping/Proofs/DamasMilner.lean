import Mathlib
import LambdaTyping.Proofs.Admission

/-!
# Generalisation and instantiation as rules

The usual presentation of Hindley-Milner: a term may have a scheme as its type,
a quantifier is introduced over a name that neither the context nor the
annotations of the term know, and eliminated by filling in a simple type.

For the schemes that a term has in this system it has all instances in the
syntax-directed one, and conversely, so on simple types the two agree.
-/
namespace LambdaTyping

/-- `DamasMilner Γ t σ`: the term has the scheme `σ`. The names in annotations are constants. -/
inductive DamasMilner : Context → Term → Ty → Prop
  | var {Γ : Context} {p : Text.Position} {i n : Nat} {σ : Ty} (hi : Γ.getType? i = some σ) :
      DamasMilner Γ (.var p i n) σ
  | inst {Γ : Context} {t : Term} {x : String} {a s : Ty} (hs : s.isSimple)
      (ht : DamasMilner Γ t (.all x a)) : DamasMilner Γ t (a.substTop s)
  | gen {Γ : Context} {t : Term} {x y : String} {a : Ty} (hΓ : x ∉ Γ.freeNames)
      (hnames : x ∉ t.typeNames) (ha : x ∉ a.freeNames) (ht : DamasMilner Γ t (a.openWith x)) :
      DamasMilner Γ t (.all y a)
  | const {Γ : Context} {p : Text.Position} {b : Bool} : DamasMilner Γ (.const p b) .bool
  | abs {Γ : Context} {p : Text.Position} {x : String} {ty : Option Ty} {t : Term} {a b : Ty}
      (ha : a.isSimple) (hb : b.isSimple) (hty : ∀ a' ∈ ty, a' = a)
      (ht : DamasMilner (⟨x, .var a⟩ :: Γ) t b) : DamasMilner Γ (.abs p x ty t) (.arr a b)
  | app {Γ : Context} {p : Text.Position} {t u : Term} {a b : Ty} (ha : a.isSimple)
      (hb : b.isSimple) (ht : DamasMilner Γ t (.arr a b)) (hu : DamasMilner Γ u a) :
      DamasMilner Γ (.app p t u) b
  | ite {Γ : Context} {p : Text.Position} {c t e : Term} {a : Ty} (ha : a.isSimple)
      (hc : DamasMilner Γ c .bool) (ht : DamasMilner Γ t a) (he : DamasMilner Γ e a) :
      DamasMilner Γ (.ite p c t e) a
  | letIn {Γ : Context} {p : Text.Position} {x : String} {e t : Term} {σ b : Ty} (hb : b.isSimple)
      (he : DamasMilner Γ e σ) (ht : DamasMilner (⟨x, .var σ⟩ :: Γ) t b) :
      DamasMilner Γ (.letIn p x e t) b

namespace DamasMilner

variable {Γ : Context} {t : Term} {σ τ a : Ty}

theorem instantiate (h : DamasMilner Γ t σ) (hτ : σ.Instance τ) : DamasMilner Γ t τ := by
  induction hτ with
  | simple _ => exact h
  | all hs _ ih => exact ih (.inst hs h)

theorem generalizeTop (len : Nat) {x : String} (hΓ : x ∉ Γ.freeNames) (hnames : x ∉ t.typeNames)
    (h : DamasMilner Γ t a) : DamasMilner Γ t (a.generalizeTop len x) := by
  refine .gen hΓ hnames (fun hx => (Ty.mem_freeNames_bindNameAt.mp hx).2 rfl) ?_
  have hopen := Ty.fillAt_mapNamesAt_bindNameAt Ty.name x len (.name x) 0 a
  rw [Ty.mapNamesAt_id, Function.update_eq_self, Ty.mapNamesAt_id] at hopen
  rw [Ty.openWith_eq_fillAt]
  exact hopen.symm ▸ h

theorem generalize (len : Nat) {xs : List String}
    (hxs : ∀ x ∈ xs, x ∉ Γ.freeNames ∧ x ∉ t.typeNames) (h : DamasMilner Γ t a) :
    DamasMilner Γ t (a.generalize len xs) := by
  induction xs with
  | nil => exact h
  | cons x xs ih =>
    rw [List.forall_mem_cons] at hxs
    exact (ih hxs.2).generalizeTop len hxs.1.1 hxs.1.2

theorem of_hindleyMilner (h : HindleyMilner Γ t τ) : DamasMilner Γ t τ := by
  induction h with
  | var hi hτ => exact (var hi).instantiate hτ
  | const => exact .const
  | abs ha hty ht ih => exact .abs ha ht.isSimple hty ih
  | app ht hu iht ihu => exact .app hu.isSimple ((Ty.isSimple_arr _ _).mp ht.isSimple).2 iht ihu
  | ite hc ht he ihc iht ihe => exact .ite ht.isSimple ihc iht ihe
  | letIn he ht ihe iht =>
    exact .letIn ht.isSimple
      (ihe.generalize _ fun x hx => (Context.mem_generic.mp hx).2) iht

/-- A type has instances if it has some after names have been replaced. -/
theorem exists_instance_of_mapNames {θ : String → Ty} (hθ : IsSimpleMap θ)
    (h : (σ.mapNames θ).Instance τ) : ∃ τ, σ.Instance τ := by
  have hsimple := NameSupply.isSimple_openAll (σ := .avoiding σ.freeNames) hθ
    (by simp [NameSupply.avoiding]) h
  exact ⟨_, NameSupply.instance_openAll_self hsimple⟩

theorem exists_instance (h : DamasMilner Γ t σ) (hΓ : Γ.IsPolymorphic) : ∃ τ, σ.Instance τ := by
  induction h with
  | var hi => exact hΓ _ _ hi
  | @inst Γ t x a s hs ht ih =>
    obtain ⟨τ, hτ⟩ := ih hΓ
    obtain ⟨s', hs', hτ⟩ := Ty.instance_all_iff.mp hτ
    -- what fills the quantified variable is the image of a name that is not in the type
    obtain ⟨ρ, -, hρ⟩ := Name.exists_renaming a.freeNames
    have hfill : ∀ s, s.isSimple → (a.openWith (ρ x)).mapNames (Function.update .name (ρ x) s) =
        a.fillAt s 0 := fun s hs => by
      rw [Ty.mapNames_update_openWith isSimpleMap_name (hρ x) hs, Ty.mapNames_id]
    rw [← hfill s' hs'] at hτ
    obtain ⟨τ', hτ'⟩ := exists_instance_of_mapNames (isSimpleMap_name.update _ hs') hτ
    rw [Ty.substTop_eq_fillAt, ← hfill s hs]
    exact ⟨_, hτ'.mapNames (isSimpleMap_name.update _ hs)⟩
  | gen hx hnames ha ht ih =>
    obtain ⟨τ, hτ⟩ := ih hΓ
    rw [Ty.openWith_eq_fillAt] at hτ
    exact ⟨τ, Ty.instance_all_iff.mpr ⟨_, rfl, hτ⟩⟩
  | const => exact ⟨_, .simple rfl⟩
  | abs ha hb hty ht ih => exact ⟨_, .simple ((Ty.isSimple_arr _ _).mpr ⟨ha, hb⟩)⟩
  | app ha hb ht hu iht ihu => exact ⟨_, .simple hb⟩
  | ite ha hc ht he ihc iht ihe => exact ⟨_, .simple ha⟩
  | letIn hb he ht ihe iht => exact ⟨_, .simple hb⟩

/-- A definition that has all instances of a scheme may be used at that scheme. -/
theorem hindleyMilner_letIn {θ : String → Ty} (hθ : IsSimpleMap θ) {p : Text.Position} {x : String}
    {e : Term} {b : Ty} (hσ : ∃ τ, σ.Instance τ)
    (he : ∀ τ, (σ.mapNames θ).Instance τ → HindleyMilner Γ e τ)
    (ht : HindleyMilner (⟨x, .var (σ.mapNames θ)⟩ :: Γ) t b) : HindleyMilner Γ (.letIn p x e t) b := by
  let supply : NameSupply := .avoiding σ.freeNames
  have hnames : ∀ y ∈ σ.freeNames, y ∈ supply.used := by simp [supply, NameSupply.avoiding]
  have hnew : ∀ y ∈ (supply.openAll σ).1.1, y ∉ σ.freeNames := fun y hy hyσ =>
    NameSupply.openAll_notMem hy (hnames y hyσ)
  have hsimple : (supply.openAll σ).1.2.isSimple := by
    obtain ⟨τ, hτ⟩ := hσ
    rw [← Ty.mapNames_id σ] at hτ
    exact NameSupply.isSimple_openAll isSimpleMap_name hnames hτ
  refine HindleyMilner.letIn_of_instances hθ (fun η hη hoff => he _ ?_)
    (fun τ hτ => NameSupply.exists_of_instance_openAll hθ hnames hτ) (fun y hy hyx z hz => ?_) ht
  · have hsame : σ.mapNames η = σ.mapNames θ :=
      Ty.mapNames_congr fun y hy => hoff y fun hyx => hnew y hyx hy
    rw [← hsame]
    exact NameSupply.instance_openAll hη (Ty.isSimple_mapNames hη hsimple)
  · have hyσ := (NameSupply.mem_freeNames_openAll hy).resolve_left hyx
    exact Ty.mem_freeNames_mapNames.mpr ⟨y, hyσ, hz⟩

/-- Names may be replaced on the way, as generalisation over a name asks for all images of it. -/
theorem hindleyMilner_mapNames (h : DamasMilner Γ t σ) (hΓ : Γ.IsPolymorphic) {θ : String → Ty}
    (hθ : IsSimpleMap θ) (hτ : (σ.mapNames θ).Instance τ) :
    HindleyMilner (Γ.mapNames θ) (t.mapNames θ) τ := by
  induction h generalizing θ τ with
  | var hi => exact .var (by rw [Context.getType?_mapNames hθ, hi]; rfl) hτ
  | @inst Γ t x a s hs ht ih =>
    rw [Ty.substTop_eq_fillAt, Ty.mapNames_fillAt hθ] at hτ
    refine ih hΓ hθ ?_
    rw [Ty.mapNames_all hθ]
    exact Ty.instance_all_iff.mpr ⟨_, Ty.isSimple_mapNames hθ hs, hτ⟩
  | @gen Γ t x y a hx hnames ha ht ih =>
    rw [Ty.mapNames_all hθ] at hτ
    obtain ⟨s, hs, hτ⟩ := Ty.instance_all_iff.mp hτ
    rw [← Ty.mapNames_update_openWith hθ ha hs] at hτ
    have hsame : ∀ z, z ≠ x → Function.update θ x s z = θ z := fun z hz => Function.update_of_ne hz _ _
    have hΓx : Γ.mapNames (Function.update θ x s) = Γ.mapNames θ :=
      Context.mapNames_congr fun z hz => hsame z fun h => hx (h ▸ hz)
    have htx : t.mapNames (Function.update θ x s) = t.mapNames θ :=
      Term.mapNames_congr fun z hz => hsame z fun h => hnames (h ▸ hz)
    rw [← hΓx, ← htx]
    exact ih hΓ (hθ.update x hs) hτ
  | const =>
    obtain rfl := (Ty.instance_iff_of_isSimple rfl).mp hτ
    exact .const
  | @abs Γ p x ty t a b ha hb hty ht ih =>
    have hab := (Ty.isSimple_arr a b).mpr ⟨ha, hb⟩
    obtain rfl := (Ty.instance_iff_of_isSimple (Ty.isSimple_mapNames hθ hab)).mp hτ
    rw [Term.mapNames_abs hθ]
    refine .abs (Ty.isSimple_mapNames hθ ha) (fun a' ha' => ?_)
      (ih (hΓ.cons_simple x ha) hθ (.simple (Ty.isSimple_mapNames hθ hb)))
    obtain ⟨a₁, ha₁, rfl⟩ := Option.map_eq_some_iff.mp ha'
    exact congrArg _ (hty a₁ ha₁)
  | app ha hb ht hu iht ihu =>
    obtain rfl := (Ty.instance_iff_of_isSimple (Ty.isSimple_mapNames hθ hb)).mp hτ
    exact .app (iht hΓ hθ (.simple (Ty.isSimple_mapNames hθ ((Ty.isSimple_arr _ _).mpr ⟨ha, hb⟩))))
      (ihu hΓ hθ (.simple (Ty.isSimple_mapNames hθ ha)))
  | ite ha hc ht he ihc iht ihe =>
    obtain rfl := (Ty.instance_iff_of_isSimple (Ty.isSimple_mapNames hθ ha)).mp hτ
    exact .ite (ihc hΓ hθ (.simple rfl)) (iht hΓ hθ hτ) (ihe hΓ hθ hτ)
  | @letIn Γ p x e t σ b hb he ht ihe iht =>
    obtain rfl := (Ty.instance_iff_of_isSimple (Ty.isSimple_mapNames hθ hb)).mp hτ
    have hσ := he.exists_instance hΓ
    have hbody := iht (hΓ.cons x fun a ha => by cases ha; exact hσ) hθ hτ
    rw [Term.mapNames_letIn hθ]
    exact hindleyMilner_letIn hθ hσ (fun τ hτ => ihe hΓ hθ hτ) hbody

/-- A term has the instances of its schemes. -/
theorem hindleyMilner (h : DamasMilner Γ t σ) (hΓ : Γ.IsPolymorphic) (hτ : σ.Instance τ) :
    HindleyMilner Γ t τ := by
  have hmapped := h.hindleyMilner_mapNames hΓ isSimpleMap_name (by rwa [Ty.mapNames_id])
  rwa [Context.mapNames_id, Term.mapNames_id] at hmapped

end DamasMilner

end LambdaTyping
