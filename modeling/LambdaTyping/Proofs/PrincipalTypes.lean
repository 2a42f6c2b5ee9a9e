import Mathlib
import LambdaTyping.Proofs.InferenceSoundness

/-!
# Completeness of inference

Inference finds a result for every term that has a type in some instance of the
context, and that type is an instance of the result. So the scheme that is
returned in the end is principal: its instances are the types of the term.
-/
namespace LambdaTyping

namespace Context

theorem eq_of_mapNames_eq_self {θ : String → Ty} {Γ : Context} (h : Γ.mapNames θ = Γ) {x : String}
    (hx : x ∈ Γ.freeNames) : θ x = .name x := by
  induction Γ with
  | nil => simp [freeNames] at hx
  | cons e Γ ih =>
    obtain ⟨y, b⟩ := e
    obtain ⟨hhead, htail⟩ := List.cons.inj h
    rcases List.mem_append.mp hx with hx | hx
    · cases b with
      | var ty =>
        have hty : ty.mapNames θ = ty := by simpa [Binding.mapNames] using hhead
        exact Ty.eq_of_mapNames_eq_self hty hx
      | _ => simp [Binding.freeNames] at hx
    · exact ih htail hx

/-- Generalising before names are replaced loses no instances. -/
theorem generalizes_mapNames_generalize {θ : String → Ty} (hθ : IsSimpleMap θ) (Γ : Context)
    (x : String) {a : Ty} (ha : a.isSimple) :
    Generalizes (mapNames θ (⟨x, .var (Γ.generalize a [])⟩ :: Γ))
      (⟨x, .var ((Γ.mapNames θ).generalize (a.mapNames θ) [])⟩ :: Γ.mapNames θ) := by
  refine (Generalizes.refl (Γ.mapNames θ)).cons x x (fun z hz => ?_) fun τ hτ => ?_
  · obtain ⟨y, hy, hz⟩ := Ty.mem_freeNames_mapNames.mp hz
    obtain ⟨hya, hyΓ⟩ := mem_freeNames_generalize.mp hy
    have hyΓ : y ∈ Γ.freeNames := by simpa using hyΓ
    exact mem_freeNames_generalize.mpr ⟨Ty.mem_freeNames_mapNames.mpr ⟨y, hya, hz⟩,
      .inl (mem_freeNames_mapNames.mpr ⟨y, hyΓ, hz⟩)⟩
  · obtain ⟨η, hη, hoff, rfl⟩ := (instance_generalize_iff (Ty.isSimple_mapNames hθ ha)).mp hτ
    refine (Ty.instance_generalize_iff hθ ha).mpr
      ⟨fun y => if y ∈ Γ.generic a [] then (θ y).mapNames η else θ y, fun y => ?_, fun y hy => if_neg hy,
        ?_⟩
    · dsimp only
      split
      · exact Ty.isSimple_mapNames hη (hθ y)
      · exact hθ y
    · rw [Ty.mapNames_mapNames]
      refine Ty.mapNames_congr fun y hy => ?_
      split
      · rfl
      · rename_i hgen
        have hyΓ : y ∈ Γ.freeNames := by
          by_contra hyΓ
          exact hgen (mem_generic.mpr ⟨hy, hyΓ, by simp⟩)
        refine (Ty.mapNames_eq_self fun z hz => hoff z fun hz' => ?_).symm
        exact (mem_generic.mp hz').2.1 (mem_freeNames_mapNames.mpr ⟨y, hyΓ, hz⟩)

end Context

namespace Infer

/-- On the names that the supply knows, `θ` is the substitution `s` followed by `θ'`. -/
def Factors (σ : NameSupply) (θ : String → Ty) (s : Subst) (θ' : String → Ty) : Prop :=
  ∀ x ∈ σ.used, (s.image x).mapNames θ' = θ x

namespace Factors

variable {σ σ₁ : NameSupply} {θ θ₁ θ₂ : String → Ty} {s s₁ s₂ : Subst}

theorem apply (h : Factors σ θ s θ₁) {a : Ty} (ha : ∀ x ∈ a.freeNames, x ∈ σ.used) :
    (s.apply a).mapNames θ₁ = a.mapNames θ := by
  rw [Subst.apply_eq_mapNames, Ty.mapNames_mapNames]
  exact Ty.mapNames_congr fun x hx => h x (ha x hx)

theorem context (h : Factors σ θ s θ₁) {Γ : Context} (hΓ : ∀ x ∈ Γ.freeNames, x ∈ σ.used) :
    (Γ.mapNames s.image).mapNames θ₁ = Γ.mapNames θ := by
  rw [Context.mapNames_mapNames]
  exact Context.mapNames_congr fun x hx => h x (hΓ x hx)

theorem trans {Γ : Context} {t : Term} {τ : Ty} (h₁ : Factors σ θ s₁ θ₁)
    (hs₁ : Sound Γ t σ s₁ τ σ₁) (h₂ : Factors σ₁ θ₁ s₂ θ₂) : Factors σ θ (s₂ ++ s₁) θ₂ := by
  intro x hx
  have hnames : ∀ y ∈ (s₁.image x).freeNames, y ∈ σ₁.used := hs₁.applyNames (a := .name x) fun y hy => by
    obtain rfl : y = x := by simpa [Ty.freeNames] using hy
    exact hx
  rw [Subst.image_append_apply, h₂.apply hnames, h₁ x hx]

/-- Other names may be mapped to anything else. -/
theorem congr {Γ : Context} {t : Term} {τ : Ty} (h : Factors σ θ s θ₁) (hs : Sound Γ t σ s τ σ₁)
    (hθ : ∀ x ∈ σ₁.used, θ₂ x = θ₁ x) : Factors σ θ s θ₂ := by
  have hid : Factors σ₁ θ₁ [] θ₂ := fun x hx => by simpa using hθ x hx
  exact h.trans hs hid

theorem unify (h : Factors σ θ s θ₁) (hr : s₁.Models θ₁) : Factors σ θ (s₁ ++ s) θ₁ := by
  intro x hx
  rw [Subst.image_append_apply, hr.apply_mapNames, h x hx]

end Factors

/-- Inference finds a result of which `τ` under `θ` is an instance. -/
def Finds (Γ : Context) (t : Term) (σ : NameSupply) (θ : String → Ty) (τ : Ty) : Prop :=
  ∃ s τ₀ σ' θ', run Γ t σ = .ok (s, τ₀) σ' ∧ IsSimpleMap θ' ∧ Factors σ θ s θ' ∧
    τ₀.mapNames θ' = τ

variable {Γ : Context} {p : Text.Position} {x : String} {σ : NameSupply} {θ : String → Ty} {τ : Ty}

theorem finds_var {i n : Nat} (hσ : ∀ x ∈ Γ.freeNames, x ∈ σ.used) (hθ : IsSimpleMap θ)
    (h : HindleyMilner (Γ.mapNames θ) (.var p i n) τ) : Finds Γ (.var p i n) σ θ τ := by
  cases h with
  | var hi hτ =>
    rw [Context.getType?_mapNames hθ, Option.map_eq_some_iff] at hi
    obtain ⟨ty, hi, rfl⟩ := hi
    obtain ⟨η, hη, hoff, hbody⟩ := NameSupply.exists_of_instance_openAll hθ
      (fun x hx => hσ x (Context.mem_freeNames_of_getType? hi hx)) hτ
    refine ⟨[], _, _, η, run_var_eq_ok_iff.mpr ⟨ty, hi, rfl, rfl⟩, hη, fun x hx => ?_, hbody⟩
    rw [Subst.image_nil, Ty.mapNames_name]
    exact hoff x fun hnew => NameSupply.openAll_notMem hnew hx

/-- The parameter of an abstraction can be chosen so that it stands for a given type. -/
theorem exists_orNew {ty : Option Ty} {a : Ty} (σ : NameSupply) (hθ : IsSimpleMap θ)
    (hnames : (ty.map Ty.freeNames).getD [] = []) (ha : a.isSimple) (hty : ∀ a' ∈ ty, a' = a) :
    ∃ a₀ σ₁ θ₁, orNew ty σ = .ok a₀ σ₁ ∧ IsSimpleMap θ₁ ∧ (∀ x ∈ σ.used, θ₁ x = θ x) ∧
      a₀.mapNames θ₁ = a := by
  cases ty with
  | some b =>
    obtain rfl : b = a := hty b rfl
    have hnil : b.freeNames = [] := by simpa using hnames
    exact ⟨b, σ, θ, orNew_eq_ok_iff.mpr (.inl ⟨rfl, rfl⟩), hθ, fun _ _ => rfl,
      Ty.mapNames_eq_self (by simp [hnil])⟩
  | none =>
    refine ⟨_, _, Function.update θ σ.letter.1 a, orNew_eq_ok_iff.mpr (.inr ⟨rfl, rfl, rfl⟩),
      hθ.update _ ha, fun x hx => Function.update_of_ne ?_ _ _, by simp⟩
    rintro rfl
    exact NameSupply.letter_notMem σ hx

theorem finds_app {t u : Term} {s₁ s₂ : Subst} {a a' b : Ty} {σ₁ σ₂ : NameSupply}
    {θ₁ θ₂ : String → Ty} (hrun₁ : run Γ t σ = .ok (s₁, a) σ₁) (hs₁ : Sound Γ t σ s₁ a σ₁)
    (hf₁ : Factors σ θ s₁ θ₁) (ha : a.mapNames θ₁ = .arr a' τ)
    (hrun₂ : run (Γ.mapNames s₁.image) u σ₁ = .ok (s₂, b) σ₂)
    (hs₂ : Sound (Γ.mapNames s₁.image) u σ₁ s₂ b σ₂) (hθ₂ : IsSimpleMap θ₂)
    (hf₂ : Factors σ₁ θ₁ s₂ θ₂) (hb : b.mapNames θ₂ = a') (hτ : τ.isSimple) :
    Finds Γ (.app p t u) σ θ τ := by
  have hagree : ∀ y ∈ σ₂.used, Function.update θ₂ σ₂.letter.1 τ y = θ₂ y := by
    intro y hy
    refine Function.update_of_ne ?_ _ _
    rintro rfl
    exact NameSupply.letter_notMem σ₂ hy
  have hf₃ := hf₂.congr hs₂ hagree
  have hb₃ : b.mapNames (Function.update θ₂ σ₂.letter.1 τ) = a' := by
    rw [← hb]
    exact Ty.mapNames_congr fun y hy => hagree y (hs₂.tyNames y hy)
  have heq : (s₂.apply a).mapNames (Function.update θ₂ σ₂.letter.1 τ) =
      (Ty.arr b (.name σ₂.letter.1)).mapNames (Function.update θ₂ σ₂.letter.1 τ) := by
    rw [hf₃.apply hs₁.tyNames, ha, Ty.mapNames_arr, hb₃, Ty.mapNames_name, Function.update_self]
  obtain ⟨s₃, hunify, -, hmodels⟩ := exists_unifyOpening_eq_ok
    (hs₂.isSimple.apply hs₁.derivation.isSimple)
    ((Ty.isSimple_arr _ _).mpr ⟨hs₂.derivation.isSimple, rfl⟩) (hθ₂.update _ hτ) heq σ₂.letter.2
  refine ⟨_, _, _, Function.update θ₂ σ₂.letter.1 τ, run_app_eq_ok_iff.mpr
    ⟨s₁, a, σ₁, _, s₂, b, σ₂, s₃, hrun₁, Context.apply_eq_ok Γ hs₁.isSimple, hrun₂, hunify, rfl⟩,
    hθ₂.update _ hτ, ?_, ?_⟩
  · rw [List.append_assoc]
    exact (hf₁.trans hs₁ hf₃).unify hmodels
  · rw [hmodels.apply_mapNames, Ty.mapNames_name, Function.update_self]

theorem finds_ite {c t e : Term} {s₁ s₂ s₃ s₄ : Subst} {a b d : Ty} {σ₁ σ₃ σ₄ : NameSupply}
    {θ₁ θ₃ θ₄ : String → Ty} (hrun₁ : run Γ c σ = .ok (s₁, a) σ₁)
    (hbool : unifyOpening a .bool σ₁ = .ok s₂ σ₁) (hs₁ : Sound Γ c σ (s₂ ++ s₁) .bool σ₁)
    (hf₁ : Factors σ θ (s₂ ++ s₁) θ₁)
    (hrun₃ : run (Γ.mapNames (s₂ ++ s₁).image) t σ₁ = .ok (s₃, b) σ₃)
    (hs₃ : Sound (Γ.mapNames (s₂ ++ s₁).image) t σ₁ s₃ b σ₃) (hf₃ : Factors σ₁ θ₁ s₃ θ₃)
    (hb : b.mapNames θ₃ = τ) (hs₁₃ : Sound Γ c σ (s₃ ++ (s₂ ++ s₁)) .bool σ₃)
    (hrun₄ : run (Γ.mapNames (s₃ ++ (s₂ ++ s₁)).image) e σ₃ = .ok (s₄, d) σ₄)
    (hs₄ : Sound (Γ.mapNames (s₃ ++ (s₂ ++ s₁)).image) e σ₃ s₄ d σ₄) (hθ₄ : IsSimpleMap θ₄)
    (hf₄ : Factors σ₃ θ₃ s₄ θ₄) (hd : d.mapNames θ₄ = τ) : Finds Γ (.ite p c t e) σ θ τ := by
  have heq : (s₄.apply b).mapNames θ₄ = d.mapNames θ₄ := by
    rw [hf₄.apply hs₃.tyNames, hb, hd]
  obtain ⟨s₅, hunify, -, hmodels⟩ := exists_unifyOpening_eq_ok
    (hs₄.isSimple.apply hs₃.derivation.isSimple) hs₄.derivation.isSimple hθ₄ heq σ₄
  refine ⟨_, _, _, θ₄, run_ite_eq_ok_iff.mpr
    ⟨s₁, a, σ₁, s₂, σ₁, _, s₃, b, σ₃, _, s₄, d, σ₄, s₅, hrun₁, hbool, Context.apply_eq_ok Γ hs₁.isSimple,
      hrun₃, Context.apply_eq_ok Γ hs₁₃.isSimple, hrun₄, hunify, rfl⟩, hθ₄, ?_, ?_⟩
  · rw [List.append_assoc]
    exact ((hf₁.trans hs₁ hf₃).trans hs₁₃ hf₄).unify hmodels
  · rw [hmodels.apply_mapNames, hd]

theorem finds_of_hindleyMilner {t : Term} (ht : t.IsPlain) (hnames : t.typeNames = [])
    (hΓ : Γ.IsPolymorphic) (hσ : ∀ x ∈ Γ.freeNames, x ∈ σ.used) (hθ : IsSimpleMap θ)
    (h : HindleyMilner (Γ.mapNames θ) t τ) : Finds Γ t σ θ τ := by
  induction t generalizing Γ σ θ τ with
  | var p i n => exact finds_var hσ hθ h
  | const p b =>
    cases h with
    | const => exact ⟨[], .bool, σ, θ, run_const_eq_ok_iff.mpr ⟨rfl, rfl⟩, hθ, fun x _ => by simp, rfl⟩
  | abs p x ty t ih =>
    simp only [Term.typeNames, List.append_eq_nil_iff] at hnames
    cases h with
    | @abs _ _ _ _ _ a b ha hty hb =>
      obtain ⟨a₀, σ₁, θ₁, hnew, hθ₁, hagree, rfl⟩ := exists_orNew σ hθ hnames.1 ha hty
      have ha₀ := isSimple_of_orNew ht.1 hnew
      obtain ⟨hused, hanames, -⟩ := orNew_names hnames.1 hnew
      have hσ₁ : ∀ y ∈ Context.freeNames (⟨x, .var a₀⟩ :: Γ), y ∈ σ₁.used := fun y hy =>
        (Context.mem_freeNames_cons_var.mp hy).elim (hanames y) fun hy => hused y (hσ y hy)
      have hctx : Γ.mapNames θ₁ = Γ.mapNames θ := Context.mapNames_congr fun y hy => hagree y (hσ y hy)
      rw [← hctx, ← Context.mapNames_cons_var] at hb
      have hΓ₁ := hΓ.cons_simple x ha₀
      obtain ⟨s, b₀, σ', θ', hrun, hθ', hfactors, rfl⟩ := ih ht.2 hnames.2 hΓ₁ hσ₁ hθ₁ hb
      have hs := sound_of_run ht.2 hnames.2 hΓ₁ hσ₁ hrun
      refine ⟨_, _, _, θ', run_abs_eq_ok_iff.mpr ⟨a₀, σ₁, s, b₀, hnew, hrun, rfl⟩, hθ', ?_, ?_⟩
      · rw [hs.isSimple.shift_eq]
        intro y hy
        rw [hfactors y (hused y hy), hagree y hy]
      · rw [hs.isSimple.shift_eq, Ty.shift_of_isSimple _ hs.derivation.isSimple, Ty.mapNames_arr,
          hfactors.apply hanames]
  | app p t u iht ihu =>
    simp only [Term.typeNames, List.append_eq_nil_iff] at hnames
    cases h with
    | @app _ _ _ _ a _ hta hu =>
      obtain ⟨s₁, a₁, σ₁, θ₁, hrun₁, hθ₁, hf₁, ha₁⟩ := iht ht.1 hnames.1 hΓ hσ hθ hta
      have hs₁ := sound_of_run ht.1 hnames.1 hΓ hσ hrun₁
      have hΓ₁ := hΓ.mapNames hs₁.isSimple.image
      rw [← hf₁.context hσ] at hu
      obtain ⟨s₂, b, σ₂, θ₂, hrun₂, hθ₂, hf₂, hb⟩ := ihu ht.2 hnames.2 hΓ₁ (hs₁.contextNames hσ) hθ₁ hu
      have hs₂ := sound_of_run ht.2 hnames.2 hΓ₁ (hs₁.contextNames hσ) hrun₂
      exact finds_app hrun₁ hs₁ hf₁ ha₁ hrun₂ hs₂ hθ₂ hf₂ hb ((Ty.isSimple_arr _ _).mp hta.isSimple).2
  | ite p c t e ihc iht ihe =>
    simp only [Term.typeNames, List.append_eq_nil_iff] at hnames
    obtain ⟨⟨hcn, htn⟩, hen⟩ := hnames
    cases h with
    | ite hc htτ heτ =>
      obtain ⟨s₁, a, σ₁, θ₁, hrun₁, hθ₁, hf₁, ha⟩ := ihc ht.1 hcn hΓ hσ hθ hc
      have hs₁ := sound_of_run ht.1 hcn hΓ hσ hrun₁
      obtain ⟨s₂, hbool, hmgu, hmodels⟩ :=
        exists_unifyOpening_eq_ok (b := .bool) hs₁.derivation.isSimple rfl hθ₁ ha σ₁
      have hs₂ := hs₁.refine hcn hmgu.isSimple (fun _ hy => hy) fun y hy =>
        (hmgu.names y hy).elim (hs₁.tyNames y) (by simp [Ty.freeNames])
      rw [hmgu.apply_eq, Subst.apply_bool] at hs₂
      have hf₂ := hf₁.unify hmodels
      have hΓ₂ := hΓ.mapNames hs₂.isSimple.image
      rw [← hf₂.context hσ] at htτ
      obtain ⟨s₃, b, σ₃, θ₃, hrun₃, hθ₃, hf₃, hb⟩ := iht ht.2.1 htn hΓ₂ (hs₂.contextNames hσ) hθ₁ htτ
      have hs₃ := sound_of_run ht.2.1 htn hΓ₂ (hs₂.contextNames hσ) hrun₃
      have hs₂₃ := hs₂.refine hcn hs₃.isSimple hs₃.used hs₃.substNames
      rw [Subst.apply_bool] at hs₂₃
      have hΓ₃ := hΓ.mapNames hs₂₃.isSimple.image
      rw [← (hf₂.trans hs₂ hf₃).context hσ] at heτ
      obtain ⟨s₄, d, σ₄, θ₄, hrun₄, hθ₄, hf₄, hd⟩ :=
        ihe ht.2.2 hen hΓ₃ (hs₂₃.contextNames hσ) hθ₃ heτ
      have hs₄ := sound_of_run ht.2.2 hen hΓ₃ (hs₂₃.contextNames hσ) hrun₄
      exact finds_ite hrun₁ hbool hs₂ hf₂ hrun₃ hs₃ hf₃ hb hs₂₃ hrun₄ hs₄ hθ₄ hf₄ hd
  | letIn p x e t ihe iht =>
    simp only [Term.typeNames, List.append_eq_nil_iff] at hnames
    cases h with
    | @letIn _ _ _ _ _ a _ he hb =>
      obtain ⟨s₁, a₁, σ₁, θ₁, hrun₁, hθ₁, hf₁, rfl⟩ := ihe ht.1 hnames.1 hΓ hσ hθ he
      have hs₁ := sound_of_run ht.1 hnames.1 hΓ hσ hrun₁
      have ha₁ := hs₁.derivation.isSimple
      rw [hnames.1, ← hf₁.context hσ] at hb
      have hb₁ := hb.of_generalizes (Context.generalizes_mapNames_generalize hθ₁ _ x ha₁)
      have hΓ₁ := isPolymorphic_cons_generalize (hΓ.mapNames hs₁.isSimple.image) x ha₁ []
      have hσ₁ := hs₁.generalizeNames x hσ
      obtain ⟨s₂, b, σ₂, θ₂, hrun₂, hθ₂, hf₂, hτ⟩ := iht ht.2 hnames.2 hΓ₁ hσ₁ hθ₁ hb₁
      have hs₂ := sound_of_run ht.2 hnames.2 hΓ₁ hσ₁ hrun₂
      refine ⟨_, _, _, θ₂, run_letIn_eq_ok_iff.mpr ⟨s₁, a₁, σ₁, _, s₂, b, hrun₁,
        Context.apply_eq_ok Γ hs₁.isSimple, hrun₂, rfl⟩, hθ₂, ?_, ?_⟩
      · rw [hs₂.isSimple.shift_eq]
        exact hf₁.trans hs₁ hf₂
      · rw [Ty.shift_of_isSimple _ hs₂.derivation.isSimple, hτ]
  | tyAbs p x t ih => exact ht.elim
  | tyApp p t ty ih => exact ht.elim

theorem Sound.inferType_eq_ok {t : Term} {s : Subst} {σ' : NameSupply}
    (hs : Sound Γ t (.forTerm Γ t) s τ σ') (hrun : run Γ t (.forTerm Γ t) = .ok (s, τ) σ') :
    inferType Γ t = .ok ((Γ.mapNames s.image).generalize τ []) := by
  unfold inferType
  rw [Supplied.answer_eq_ok_iff.mpr ⟨σ', hrun⟩]
  change (Γ.apply s >>= _) = _
  rw [Context.apply_eq_ok Γ hs.isSimple]
  rfl

/-- In the context under the substitution that inference returns, the types of the term are the
instances of the generalised result. -/
theorem hindleyMilner_iff_instance {t : Term} (ht : t.IsPlain) (hnames : t.typeNames = [])
    (hΓ : Γ.IsPolymorphic) (hσ : ∀ x ∈ Γ.freeNames, x ∈ σ.used) {s : Subst} {τ₀ : Ty}
    {σ' : NameSupply} (hrun : run Γ t σ = .ok (s, τ₀) σ') :
    HindleyMilner (Γ.mapNames s.image) t τ ↔ ((Γ.mapNames s.image).generalize τ₀ []).Instance τ := by
  have hs := sound_of_run ht hnames hΓ hσ hrun
  rw [Context.instance_generalize_iff hs.derivation.isSimple]
  constructor
  · intro h
    obtain ⟨s', τ', σ'', θ', hrun', hθ', hf, rfl⟩ :=
      finds_of_hindleyMilner ht hnames hΓ hσ hs.isSimple.image h
    rw [hrun] at hrun'
    cases hrun'
    refine ⟨fun y => if y ∈ Context.generic (Γ.mapNames s.image) τ₀ [] then θ' y else .name y,
      fun y => ?_, fun y hy => if_neg hy, Ty.mapNames_congr fun y hy => ?_⟩
    · dsimp only
      split
      · exact hθ' y
      · rfl
    · split
      · rfl
      · rename_i hgen
        have hy : y ∈ (Γ.mapNames s.image).freeNames := by
          by_contra hyΓ
          exact hgen (Context.mem_generic.mpr ⟨hy, hyΓ, by simp⟩)
        exact (Context.eq_of_mapNames_eq_self (hf.context hσ) hy).symm
  · rintro ⟨η, hη, hoff, rfl⟩
    have hmap := hs.derivation.mapNames hη
    have hfix : (Γ.mapNames s.image).mapNames η = Γ.mapNames s.image := by
      rw [Context.mapNames_congr (η := .name) fun y hy => hoff y fun hgen =>
        (Context.mem_generic.mp hgen).2.1 hy, Context.mapNames_id]
    rwa [hfix, Term.mapNames_of_typeNames_eq_nil _ hnames] at hmap

/-- Completeness and principality: if the term has a type in some instance of the context, then
inference succeeds and that typing is an instance of its result. The scheme that `inferType` returns
has exactly the types of the term as its instances. -/
theorem exists_principal_run {contextText termText : String} {Γ : Context} {t : Term}
    (hΓ : Context.parse contextText = .ok Γ) (ht : Term.parse Γ termText = .ok t)
    (hcontext : Calculus.hindleyMilner.admitsContext Γ = .ok ())
    (hterm : Calculus.hindleyMilner.admitsTerm t = .ok ()) (hnames : t.typeNames = [])
    {θ : String → Ty} (hθ : IsSimpleMap θ) {τ : Ty} (h : HindleyMilner (Γ.mapNames θ) t τ) :
    ∃ s τ₀ σ' Γ' ς, run Γ t (.forTerm Γ t) = .ok (s, τ₀) σ' ∧ Γ.apply s = .ok Γ' ∧
      (∃ θ', IsSimpleMap θ' ∧ Γ'.mapNames θ' = Γ.mapNames θ ∧ τ₀.mapNames θ' = τ) ∧
      inferType Γ t = .ok ς ∧ ∀ τ', HindleyMilner Γ' t τ' ↔ ς.Instance τ' := by
  have hplain := Term.isPlain_of_parse (by simp) hcontext ht hterm
  have hpoly := Context.isPolymorphic_of_admitsContext (Context.isResolved_of_parse hΓ) hcontext
  have hσ : ∀ x ∈ Γ.freeNames, x ∈ (NameSupply.forTerm Γ t).used := fun x hx => by
    simp [NameSupply.forTerm, hx]
  obtain ⟨s, τ₀, σ', θ', hrun, hθ', hf, hτ⟩ :=
    finds_of_hindleyMilner hplain hnames hpoly hσ hθ h
  have hs := sound_of_run hplain hnames hpoly hσ hrun
  exact ⟨s, τ₀, σ', Γ.mapNames s.image, _, hrun, Context.apply_eq_ok Γ hs.isSimple,
    ⟨θ', hθ', hf.context hσ, hτ⟩, hs.inferType_eq_ok hrun,
    fun τ' => hindleyMilner_iff_instance hplain hnames hpoly hσ hrun⟩

/-- The term has a type only if the context is specialised: `y` has to be a function on `Bool`. -/
theorem exists_principal_run_specialized : ∃ Γ t,
    Context.parse "y: A" = .ok Γ ∧ Term.parse Γ "let i = λx. x in i y true" = .ok t ∧
    HindleyMilner (Γ.mapNames (Function.update .name "A" (.arr .bool .bool))) t .bool ∧
    ∃ s τ₀ σ' Γ' ς, run Γ t (.forTerm Γ t) = .ok (s, τ₀) σ' ∧ Γ.apply s = .ok Γ' ∧
      (∃ θ', IsSimpleMap θ' ∧
        Γ'.mapNames θ' = Γ.mapNames (Function.update .name "A" (.arr .bool .bool)) ∧
        τ₀.mapNames θ' = .bool) ∧
      inferType Γ t = .ok ς ∧ ∀ τ', HindleyMilner Γ' t τ' ↔ ς.Instance τ' := by
  let Γ : Context := [⟨"y", .var (.name "A")⟩]
  let t : Term := .letIn ⟨1, 1⟩ "i" (.abs ⟨1, 9⟩ "x" none (.var ⟨1, 13⟩ 0 2))
    (.app ⟨1, 18⟩ (.app ⟨1, 18⟩ (.var ⟨1, 18⟩ 0 2) (.var ⟨1, 20⟩ 1 2)) (.const ⟨1, 22⟩ true))
  have hΓ : Context.parse "y: A" = .ok Γ := by decide +kernel
  have ht : Term.parse Γ "let i = λx. x in i y true" = .ok t := by decide +kernel
  have hθ : IsSimpleMap (Function.update .name "A" (.arr .bool .bool)) :=
    isSimpleMap_name.update "A" rfl
  have hderivation :
      HindleyMilner (Γ.mapNames (Function.update .name "A" (.arr .bool .bool))) t .bool := by
    have hy : Γ.mapNames (Function.update .name "A" (.arr .bool .bool)) =
        [⟨"y", .var (.arr .bool .bool)⟩] := by simp [Γ, Context.mapNames, Binding.mapNames]
    rw [hy]
    refine .letIn (a := .arr (.name "X") (.name "X")) (.abs rfl (by simp) (.var rfl (.simple rfl))) ?_
    have hid : (Context.generalize [⟨"y", .var (.arr .bool .bool)⟩] (.arr (.name "X") (.name "X"))
        []).Instance (.arr (.arr .bool .bool) (.arr .bool .bool)) := by
      refine (Context.instance_generalize_iff rfl).mpr
        ⟨Function.update .name "X" (.arr .bool .bool), isSimpleMap_name.update "X" rfl, ?_, by simp⟩
      intro z hz
      refine Function.update_of_ne ?_ _ _
      rintro rfl
      exact hz (Context.mem_generic.mpr (by decide))
    exact .app (.app (.var rfl (Ty.instance_shift_iff (d := 1) |>.mpr hid)) (.var rfl (.simple rfl)))
      .const
  exact ⟨Γ, t, hΓ, ht, hderivation, exists_principal_run hΓ ht (by decide +kernel)
    (by decide +kernel) (by decide) hθ hderivation⟩

end Infer

end LambdaTyping
