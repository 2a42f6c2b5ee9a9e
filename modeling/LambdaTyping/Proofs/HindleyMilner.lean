import Mathlib
import LambdaTyping.Proofs.Schemes

/-!
# The Hindley-Milner system

A declarative typing relation in which variables are instantiated where they
stand and `let` generalises. It gives simple types only, so no rule has to shift
a type across a term binder.

Derivations are kept when the context becomes more general, and when names are
replaced by simple types throughout.
-/
namespace LambdaTyping

/-- `HindleyMilner Γ t τ`: the term has the simple type `τ`. The names in annotations are constants,
so `let` does not generalise over them. -/
inductive HindleyMilner : Context → Term → Ty → Prop
  | var {Γ : Context} {p : Text.Position} {i n : Nat} {σ τ : Ty} (hi : Γ.getType? i = some σ)
      (hτ : σ.Instance τ) : HindleyMilner Γ (.var p i n) τ
  | const {Γ : Context} {p : Text.Position} {b : Bool} : HindleyMilner Γ (.const p b) .bool
  | abs {Γ : Context} {p : Text.Position} {x : String} {ty : Option Ty} {t : Term} {a b : Ty}
      (ha : a.isSimple) (hty : ∀ a' ∈ ty, a' = a) (ht : HindleyMilner (⟨x, .var a⟩ :: Γ) t b) :
      HindleyMilner Γ (.abs p x ty t) (.arr a b)
  | app {Γ : Context} {p : Text.Position} {t u : Term} {a b : Ty}
      (ht : HindleyMilner Γ t (.arr a b)) (hu : HindleyMilner Γ u a) :
      HindleyMilner Γ (.app p t u) b
  | ite {Γ : Context} {p : Text.Position} {c t e : Term} {a : Ty} (hc : HindleyMilner Γ c .bool)
      (ht : HindleyMilner Γ t a) (he : HindleyMilner Γ e a) : HindleyMilner Γ (.ite p c t e) a
  | letIn {Γ : Context} {p : Text.Position} {x : String} {e t : Term} {a b : Ty}
      (he : HindleyMilner Γ e a)
      (ht : HindleyMilner (⟨x, .var (Γ.generalize a e.typeNames)⟩ :: Γ) t b) :
      HindleyMilner Γ (.letIn p x e t) b

namespace Context

@[simp] theorem getType?_cons_var_zero (x : String) (ty : Ty) (Γ : Context) :
    getType? (⟨x, .var ty⟩ :: Γ) 0 = some (ty.shift 1) := rfl

theorem getType?_cons_succ (e : Entry) (Γ : Context) (i : Nat) :
    getType? (e :: Γ) (i + 1) = (Γ.getType? i).map (Ty.shift 1) := by
  simp only [getType?, List.getElem?_cons_succ]
  cases Γ[i]? with
  | none => rfl
  | some e =>
    obtain ⟨y, b⟩ := e
    cases b with
    | var ty =>
      have h := Ty.shift_shift (i + 1) 1 ty
      push_cast at h
      simp [h]
    | _ => rfl

@[simp] theorem mem_freeNames_cons_var {x y : String} {ty : Ty} {Γ : Context} :
    y ∈ freeNames (⟨x, .var ty⟩ :: Γ) ↔ y ∈ ty.freeNames ∨ y ∈ Γ.freeNames := by
  simp [freeNames, Binding.freeNames]

/-- Induction along a lookup: the type is that of the most recent binding, or it comes from the
context below. -/
theorem getType?_induction {motive : Context → Ty → Prop}
    (here : ∀ x a Γ, motive (⟨x, .var a⟩ :: Γ) (a.shift 1))
    (there : ∀ e Γ a, motive Γ a → motive (e :: Γ) (a.shift 1)) {Γ : Context} {i : Nat} {a : Ty}
    (h : Γ.getType? i = some a) : motive Γ a := by
  induction Γ generalizing i a with
  | nil => simp [getType?] at h
  | cons e Γ ih =>
    obtain ⟨x, b⟩ := e
    cases i with
    | zero =>
      cases b with
      | var a' =>
        obtain rfl : a'.shift 1 = a := by simpa using h
        exact here x a' Γ
      | _ => simp [getType?] at h
    | succ i =>
      rw [getType?_cons_succ, Option.map_eq_some_iff] at h
      obtain ⟨a, ha, rfl⟩ := h
      exact there ⟨x, b⟩ Γ a (ih ha)

theorem mem_freeNames_of_getType? {Γ : Context} {i : Nat} {ty : Ty} (h : Γ.getType? i = some ty)
    {x : String} (hx : x ∈ ty.freeNames) : x ∈ Γ.freeNames := by
  refine getType?_induction (motive := fun Γ a => x ∈ a.freeNames → x ∈ Γ.freeNames) ?_ ?_ h hx
  · intro y a Γ hx
    exact mem_freeNames_cons_var.mpr (.inl (by simpa using hx))
  · intro e Γ a ih hx
    rw [Ty.freeNames_shift] at hx
    exact List.mem_append_right _ (ih hx)

/-- One context has all instances of the other, and knows no more names. -/
structure Generalizes (Δ Γ : Context) : Prop where
  names : ∀ x ∈ Δ.freeNames, x ∈ Γ.freeNames
  instances : ∀ i σ τ, Γ.getType? i = some σ → σ.Instance τ →
    ∃ σ', Δ.getType? i = some σ' ∧ σ'.Instance τ

theorem Generalizes.refl (Γ : Context) : Generalizes Γ Γ :=
  ⟨fun _ hx => hx, fun _ σ _ hi hτ => ⟨σ, hi, hτ⟩⟩

theorem Generalizes.cons {Δ Γ : Context} (h : Generalizes Δ Γ) (y x : String) {σ' σ : Ty}
    (hnames : ∀ z ∈ σ'.freeNames, z ∈ σ.freeNames) (hσ : ∀ τ, σ.Instance τ → σ'.Instance τ) :
    Generalizes (⟨y, .var σ'⟩ :: Δ) (⟨x, .var σ⟩ :: Γ) where
  names z hz := by
    rw [mem_freeNames_cons_var] at hz ⊢
    exact hz.imp (hnames z) (h.names z)
  instances i ς τ hi hτ := by
    cases i with
    | zero =>
      obtain rfl : σ.shift 1 = ς := by simpa using hi
      refine ⟨σ'.shift 1, rfl, ?_⟩
      exact Ty.instance_shift_iff (d := 1) |>.mpr (hσ τ (Ty.instance_shift_iff (d := 1) |>.mp hτ))
    | succ i =>
      rw [getType?_cons_succ, Option.map_eq_some_iff] at hi
      obtain ⟨a, ha, rfl⟩ := hi
      obtain ⟨a', ha', hτ'⟩ := h.instances i a τ ha (Ty.instance_shift_iff (d := 1) |>.mp hτ)
      refine ⟨a'.shift 1, ?_, Ty.instance_shift_iff (d := 1) |>.mpr hτ'⟩
      rw [getType?_cons_succ, ha']
      rfl

theorem Generalizes.cons_self {Δ Γ : Context} (h : Generalizes Δ Γ) (x : String) (σ : Ty) :
    Generalizes (⟨x, .var σ⟩ :: Δ) (⟨x, .var σ⟩ :: Γ) :=
  h.cons x x (fun _ hz => hz) fun _ hτ => hτ

theorem instance_generalize_iff {Γ : Context} {a τ : Ty} {avoid : List String} (ha : a.isSimple) :
    (Γ.generalize a avoid).Instance τ ↔
      ∃ η, IsSimpleMap η ∧ (∀ x ∉ Γ.generic a avoid, η x = .name x) ∧ a.mapNames η = τ := by
  rw [← Ty.mapNames_id (Γ.generalize a avoid)]
  exact Ty.instance_generalize_iff isSimpleMap_name ha

/-- A more general context generalises further. -/
theorem Generalizes.generalize {Δ Γ : Context} (h : Generalizes Δ Γ) (y x : String) {a : Ty}
    (ha : a.isSimple) (avoid : List String) :
    Generalizes (⟨y, .var (Δ.generalize a avoid)⟩ :: Δ) (⟨x, .var (Γ.generalize a avoid)⟩ :: Γ) := by
  refine h.cons y x (fun z hz => ?_) fun τ hτ => ?_
  · rw [mem_freeNames_generalize] at hz ⊢
    exact hz.imp_right (Or.imp_left (h.names z))
  · rw [instance_generalize_iff ha] at hτ ⊢
    obtain ⟨η, hη, hoff, hτ⟩ := hτ
    refine ⟨η, hη, fun z hz => hoff z fun hgen => hz ?_, hτ⟩
    rw [mem_generic] at hgen ⊢
    exact hgen.imp_right (And.imp_left (mt (h.names z)))

end Context

namespace HindleyMilner

theorem isSimple {Γ : Context} {t : Term} {τ : Ty} (h : HindleyMilner Γ t τ) : τ.isSimple := by
  induction h with
  | var hi hτ => exact hτ.isSimple
  | const => rfl
  | abs ha hty ht ih => exact (Ty.isSimple_arr _ _).mpr ⟨ha, ih⟩
  | app ht hu iht ihu => exact ((Ty.isSimple_arr _ _).mp iht).2
  | ite hc ht he ihc iht ihe => exact iht
  | letIn he ht ihe iht => exact iht

theorem of_generalizes {Γ Δ : Context} {t : Term} {τ : Ty} (h : HindleyMilner Γ t τ)
    (hΔ : Δ.Generalizes Γ) : HindleyMilner Δ t τ := by
  induction h generalizing Δ with
  | var hi hτ =>
    obtain ⟨σ', hi', hτ'⟩ := hΔ.instances _ _ _ hi hτ
    exact .var hi' hτ'
  | const => exact .const
  | abs ha hty ht ih => exact .abs ha hty (ih (hΔ.cons_self _ _))
  | app ht hu iht ihu => exact .app (iht hΔ) (ihu hΔ)
  | ite hc ht he ihc iht ihe => exact .ite (ihc hΔ) (iht hΔ) (ihe hΔ)
  | letIn he ht ihe iht => exact .letIn (ihe hΔ) (iht (hΔ.generalize _ _ he.isSimple _))

section Renaming

variable {θ : String → Ty} {xs : List String} {ρ : String → String}

/-- Replace the names `xs` by their renamings and all others by their images. -/
def renameOn (θ : String → Ty) (xs : List String) (ρ : String → String) (y : String) : Ty :=
  if y ∈ xs then .name (ρ y) else θ y

theorem isSimpleMap_renameOn (hθ : IsSimpleMap θ) : IsSimpleMap (renameOn θ xs ρ) := by
  intro y
  unfold renameOn
  split
  · rfl
  · exact hθ y

/-- What `η` does to `xs`, done to the renamed names of the list `ys`. -/
noncomputable def afterRenaming (η : String → Ty) (xs ys : List String) (ρ : String → String)
    (z : String) : Ty :=
  open Classical in if h : z ∈ ys ∧ ∃ y ∈ xs, ρ y = z then η h.2.choose else .name z

theorem isSimpleMap_afterRenaming {η : String → Ty} (hη : IsSimpleMap η) (ys : List String) :
    IsSimpleMap (afterRenaming η xs ys ρ) := by
  intro z
  unfold afterRenaming
  split
  · exact hη _
  · rfl

theorem afterRenaming_of_notMem (η : String → Ty) {ys : List String} {z : String} (h : z ∉ ys) :
    afterRenaming η xs ys ρ z = .name z := dif_neg fun h' => h h'.1

theorem afterRenaming_rename (hρ : Function.Injective ρ) (η : String → Ty) {ys : List String}
    {y : String} (hy : y ∈ xs) (hys : ρ y ∈ ys) : afterRenaming η xs ys ρ (ρ y) = η y := by
  have h : ρ y ∈ ys ∧ ∃ y' ∈ xs, ρ y' = ρ y := ⟨hys, y, hy, rfl⟩
  rw [afterRenaming, dif_pos h, hρ h.2.choose_spec.2]

theorem afterRenaming_of_ne (η : String → Ty) {ys : List String} {z : String}
    (h : ∀ y, ρ y ≠ z) : afterRenaming η xs ys ρ z = .name z :=
  dif_neg fun ⟨_, y, _, hy⟩ => h y hy

end Renaming

/-- A definition may be used at any scheme all of whose instances it has: if `xs` are the names that
the scheme quantifies, they are renamed first, so that the context does not know them. -/
theorem letIn_of_instances {Δ : Context} {e t : Term} {p : Text.Position} {x : String}
    {θ : String → Ty} {xs : List String} {a ς b : Ty} (hθ : IsSimpleMap θ)
    (he : ∀ η, IsSimpleMap η → (∀ y ∉ xs, η y = θ y) → HindleyMilner Δ e (a.mapNames η))
    (hς : ∀ τ, ς.Instance τ → ∃ η, IsSimpleMap η ∧ (∀ y ∉ xs, η y = θ y) ∧ a.mapNames η = τ)
    (hnames : ∀ y ∈ a.freeNames, y ∉ xs → ∀ z ∈ (θ y).freeNames, z ∈ ς.freeNames)
    (ht : HindleyMilner (⟨x, .var ς⟩ :: Δ) t b) : HindleyMilner Δ (.letIn p x e t) b := by
  obtain ⟨ρ, hρ, hfresh⟩ :=
    Name.exists_renaming (Δ.freeNames ++ e.typeNames ++ (a.mapNames θ).freeNames)
  simp only [List.mem_append, not_or] at hfresh
  have hrename : ∀ y ∉ xs, renameOn θ xs ρ y = θ y := fun y hy => if_neg hy
  have he₀ := he _ (isSimpleMap_renameOn hθ) hrename
  refine .letIn he₀ (ht.of_generalizes ?_)
  refine (Context.Generalizes.refl Δ).cons x x (fun z hz => ?_) fun τ hτ => ?_
  · obtain ⟨hz, hknown⟩ := Context.mem_freeNames_generalize.mp hz
    obtain ⟨y, hy, hz⟩ := Ty.mem_freeNames_mapNames.mp hz
    by_cases hyx : y ∈ xs
    · obtain rfl : z = ρ y := by simpa [renameOn, hyx, Ty.freeNames] using hz
      exact absurd hknown (not_or.mpr ⟨(hfresh y).1.1, (hfresh y).1.2⟩)
    · rw [hrename y hyx] at hz
      exact hnames y hy hyx z hz
  · obtain ⟨η, hη, hoff, rfl⟩ := hς τ hτ
    rw [Context.instance_generalize_iff he₀.isSimple]
    refine ⟨afterRenaming η xs (Δ.generic (a.mapNames (renameOn θ xs ρ)) e.typeNames) ρ,
      isSimpleMap_afterRenaming hη _, fun z hz => afterRenaming_of_notMem η hz, ?_⟩
    rw [Ty.mapNames_mapNames]
    refine Ty.mapNames_congr fun y hy => ?_
    by_cases hyx : y ∈ xs
    · have hgen : ρ y ∈ Δ.generic (a.mapNames (renameOn θ xs ρ)) e.typeNames := by
        rw [Context.mem_generic, Ty.mem_freeNames_mapNames]
        exact ⟨⟨y, hy, by simp [renameOn, hyx, Ty.freeNames]⟩, (hfresh y).1.1, (hfresh y).1.2⟩
      rw [renameOn, if_pos hyx, Ty.mapNames_name, afterRenaming_rename hρ η hyx hgen]
    · rw [hrename y hyx, hoff y hyx]
      refine Ty.mapNames_eq_self fun z hz => afterRenaming_of_ne η fun w hw => ?_
      subst hw
      exact (hfresh w).2 (Ty.mem_freeNames_mapNames.mpr ⟨y, hy, hz⟩)

/-- The rule for `let` under a map of names: the map may bring in the names that were generalised
over, so its premise is asked for under all maps that differ from it there. -/
theorem letIn_mapNames {Γ : Context} {e t : Term} {p : Text.Position} {x : String} {a b : Ty}
    {avoid : List String} {θ : String → Ty} (hθ : IsSimpleMap θ) (ha : a.isSimple)
    (havoid : ∀ y ∈ e.typeNames, y ∈ avoid)
    (he : ∀ η, IsSimpleMap η → HindleyMilner (Γ.mapNames η) (e.mapNames η) (a.mapNames η))
    (ht : HindleyMilner (⟨x, .var ((Γ.generalize a avoid).mapNames θ)⟩ :: Γ.mapNames θ) t b) :
    HindleyMilner (Γ.mapNames θ) (.letIn p x (e.mapNames θ) t) b := by
  refine letIn_of_instances hθ (fun η hη hoff => ?_)
    (fun τ hτ => (Ty.instance_generalize_iff hθ ha).mp hτ) (fun y hy hgen z hz => ?_) ht
  · have hΓ : Γ.mapNames η = Γ.mapNames θ := Context.mapNames_congr fun y hy =>
      hoff y fun hgen => (Context.mem_generic.mp hgen).2.1 hy
    have hterm : e.mapNames η = e.mapNames θ := Term.mapNames_congr fun y hy =>
      hoff y fun hgen => (Context.mem_generic.mp hgen).2.2 (havoid y hy)
    rw [← hΓ, ← hterm]
    exact he η hη
  · refine Ty.mem_freeNames_mapNames.mpr ⟨y, Context.mem_freeNames_generalize.mpr ⟨hy, ?_⟩, hz⟩
    rw [Context.mem_generic] at hgen
    tauto

/-- Replacing names by simple types keeps derivations. -/
theorem mapNames {θ : String → Ty} (hθ : IsSimpleMap θ) {Γ : Context} {t : Term} {τ : Ty}
    (h : HindleyMilner Γ t τ) : HindleyMilner (Γ.mapNames θ) (t.mapNames θ) (τ.mapNames θ) := by
  induction h generalizing θ with
  | @var Γ p i n σ τ hi hτ =>
    refine .var (σ := σ.mapNames θ) ?_ (hτ.mapNames hθ)
    rw [Context.getType?_mapNames hθ, hi]
    rfl
  | const => exact .const
  | @abs Γ p x ty t a b ha hty ht ih =>
    rw [Term.mapNames_abs hθ]
    refine .abs (Ty.isSimple_mapNames hθ ha) (fun a' ha' => ?_) (ih hθ)
    obtain ⟨a₁, ha₁, rfl⟩ := Option.map_eq_some_iff.mp ha'
    exact congrArg _ (hty a₁ ha₁)
  | app ht hu iht ihu => exact .app (iht hθ) (ihu hθ)
  | ite hc ht he ihc iht ihe => exact .ite (ihc hθ) (iht hθ) (ihe hθ)
  | @letIn Γ p x e t a b he ht ihe iht =>
    rw [Term.mapNames_letIn hθ]
    exact letIn_mapNames hθ he.isSimple (fun _ hy => hy) (fun η hη => ihe hη) (iht hθ)

end HindleyMilner

end LambdaTyping
