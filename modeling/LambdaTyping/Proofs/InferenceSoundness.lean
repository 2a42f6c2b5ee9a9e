import Mathlib
import LambdaTyping.Inference
import LambdaTyping.Proofs.Admission
import LambdaTyping.Proofs.MostGeneralUnifiers

/-!
# Soundness of inference

What inference returns for a Hindley-Milner term is a derivation: under the
substitution it returns, the context gives the term the type it returns.
-/
namespace LambdaTyping

namespace Infer

variable {Γ : Context} {p : Text.Position} {x : String} {r : Subst × Ty} {σ σ' : NameSupply}

theorem orNew_eq_ok_iff {ty : Option Ty} {a : Ty} :
    orNew ty σ = .ok a σ' ↔
      (ty = some a ∧ σ' = σ) ∨ (ty = none ∧ a = .name σ.letter.1 ∧ σ' = σ.letter.2) := by
  cases ty with
  | some b => simp [orNew, Supplied.pure_eq_ok_iff, eq_comm]
  | none =>
    simp only [orNew, Supplied.bind_eq_ok_iff, Supplied.take_eq_ok_iff, Supplied.pure_eq_ok_iff]
    simp

theorem run_var_eq_ok_iff {i n : Nat} :
    run Γ (.var p i n) σ = .ok r σ' ↔
      ∃ ty, Γ.getType? i = some ty ∧ r = ([], (σ.openAll ty).1.2) ∧ σ' = (σ.openAll ty).2 := by
  rw [run]
  simp only [Supplied.bind_eq_ok_iff, Supplied.instantiate, Supplied.take_eq_ok_iff,
    Supplied.pure_eq_ok_iff, lookup]
  cases Γ.getType? i with
  | none => simp [Supplied.fail]
  | some ty => simp [Supplied.pure_eq_ok_iff]

theorem run_const_eq_ok_iff {b : Bool} :
    run Γ (.const p b) σ = .ok r σ' ↔ r = ([], .bool) ∧ σ' = σ := by
  rw [run]
  exact Supplied.pure_eq_ok_iff

theorem run_abs_eq_ok_iff {ty : Option Ty} {t : Term} :
    run Γ (.abs p x ty t) σ = .ok r σ' ↔
      ∃ a σ₁ s b, orNew ty σ = .ok a σ₁ ∧ run (⟨x, .var a⟩ :: Γ) t σ₁ = .ok (s, b) σ' ∧
        r = (s.shift (-1), .arr ((s.shift (-1)).apply a) (b.shift (-1))) := by
  rw [run]
  simp only [Supplied.bind_eq_ok_iff, Supplied.pure_eq_ok_iff, Prod.exists]
  grind

theorem run_app_eq_ok_iff {t u : Term} :
    run Γ (.app p t u) σ = .ok r σ' ↔
      ∃ s₁ a σ₁ Γ₁ s₂ b σ₂ s₃, run Γ t σ = .ok (s₁, a) σ₁ ∧ Γ.apply s₁ = .ok Γ₁ ∧
        run Γ₁ u σ₁ = .ok (s₂, b) σ₂ ∧
        unifyOpening (s₂.apply a) (.arr b (.name σ₂.letter.1)) σ₂.letter.2 = .ok s₃ σ' ∧
        r = (s₃ ++ s₂ ++ s₁, s₃.apply (.name σ₂.letter.1)) := by
  rw [run]
  simp only [Supplied.bind_eq_ok_iff, Supplied.pure_eq_ok_iff, Prod.exists,
    Supplied.ofExcept_eq_ok_iff, Supplied.take_eq_ok_iff]
  grind

theorem run_ite_eq_ok_iff {c t e : Term} :
    run Γ (.ite p c t e) σ = .ok r σ' ↔
      ∃ s₁ a σ₁ s₂ σ₂ Γ₁ s₃ b σ₃ Γ₂ s₄ d σ₄ s₅, run Γ c σ = .ok (s₁, a) σ₁ ∧
        unifyOpening a .bool σ₁ = .ok s₂ σ₂ ∧ Γ.apply (s₂ ++ s₁) = .ok Γ₁ ∧
        run Γ₁ t σ₂ = .ok (s₃, b) σ₃ ∧ Γ.apply (s₃ ++ (s₂ ++ s₁)) = .ok Γ₂ ∧
        run Γ₂ e σ₃ = .ok (s₄, d) σ₄ ∧ unifyOpening (s₄.apply b) d σ₄ = .ok s₅ σ' ∧
        r = (s₅ ++ s₄ ++ (s₃ ++ (s₂ ++ s₁)), s₅.apply d) := by
  rw [run]
  simp only [Supplied.bind_eq_ok_iff, Supplied.pure_eq_ok_iff, Prod.exists,
    Supplied.ofExcept_eq_ok_iff]
  grind

theorem run_letIn_eq_ok_iff {e t : Term} :
    run Γ (.letIn p x e t) σ = .ok r σ' ↔
      ∃ s₁ a σ₁ Γ₁ s₂ b, run Γ e σ = .ok (s₁, a) σ₁ ∧ Γ.apply s₁ = .ok Γ₁ ∧
        run (⟨x, .var (Γ₁.generalize a [])⟩ :: Γ₁) t σ₁ = .ok (s₂, b) σ' ∧
        r = (s₂.shift (-1) ++ s₁, b.shift (-1)) := by
  rw [run]
  simp only [Supplied.bind_eq_ok_iff, Supplied.pure_eq_ok_iff, Prod.exists,
    Supplied.ofExcept_eq_ok_iff]
  grind

theorem isSimple_of_orNew {ty : Option Ty} {a : Ty} (hty : ∀ b ∈ ty, b.isSimple)
    (h : orNew ty σ = .ok a σ') : a.isSimple := by
  rcases orNew_eq_ok_iff.mp h with ⟨rfl, -⟩ | ⟨-, rfl, -⟩
  · exact hty a rfl
  · rfl

theorem isPolymorphic_cons_generalize {Γ : Context} (hΓ : Γ.IsPolymorphic) (x : String) {a : Ty}
    (ha : a.isSimple) (avoid : List String) :
    Context.IsPolymorphic (⟨x, .var (Γ.generalize a avoid)⟩ :: Γ) := by
  refine hΓ.cons x fun b hb => ?_
  obtain rfl : Γ.generalize a avoid = b := by simpa using hb
  exact ⟨a, (Context.instance_generalize_iff ha).mpr ⟨.name, isSimpleMap_name, by simp, by simp⟩⟩

/-- Result of a run: a derivation of simple types, all of whose names the supply knows. -/
structure Sound (Γ : Context) (t : Term) (σ : NameSupply) (s : Subst) (τ : Ty) (σ' : NameSupply) :
    Prop where
  isSimple : s.IsSimple
  used : ∀ x ∈ σ.used, x ∈ σ'.used
  substNames : ∀ x ∈ s.freeNames, x ∈ σ'.used
  tyNames : ∀ x ∈ τ.freeNames, x ∈ σ'.used
  derivation : HindleyMilner (Γ.mapNames s.image) t τ

namespace Sound

variable {t : Term} {s : Subst} {τ : Ty}

theorem contextNames (h : Sound Γ t σ s τ σ') (hΓ : ∀ x ∈ Γ.freeNames, x ∈ σ.used) :
    ∀ x ∈ (Γ.mapNames s.image).freeNames, x ∈ σ'.used := by
  intro x hx
  obtain ⟨y, hy, hx⟩ := Context.mem_freeNames_mapNames.mp hx
  rcases Subst.mem_freeNames_image hx with rfl | hx
  · exact h.used x (hΓ x hy)
  · exact h.substNames x hx

theorem generalizeNames (h : Sound Γ t σ s τ σ') (x : String)
    (hΓ : ∀ y ∈ Γ.freeNames, y ∈ σ.used) :
    ∀ y ∈ Context.freeNames (⟨x, .var ((Γ.mapNames s.image).generalize τ [])⟩ :: Γ.mapNames s.image),
      y ∈ σ'.used := fun y hy =>
  (Context.mem_freeNames_cons_var.mp hy).elim
    (fun hy => h.tyNames y (Context.mem_freeNames_generalize.mp hy).1) (h.contextNames hΓ y)

theorem applyNames (h : Sound Γ t σ s τ σ') {a : Ty} (ha : ∀ x ∈ a.freeNames, x ∈ σ.used) :
    ∀ x ∈ (s.apply a).freeNames, x ∈ σ'.used := fun x hx =>
  (Subst.mem_freeNames_apply hx).elim (fun hx => h.used x (ha x hx)) (h.substNames x)

/-- A later substitution of names that the supply knows by then is pushed into the derivation. -/
theorem refine (h : Sound Γ t σ s τ σ') (hnames : t.typeNames = []) {r : Subst} (hr : r.IsSimple)
    {σ'' : NameSupply} (hused : ∀ x ∈ σ'.used, x ∈ σ''.used)
    (hrnames : ∀ x ∈ r.freeNames, x ∈ σ''.used) : Sound Γ t σ (r ++ s) (r.apply τ) σ'' where
  isSimple := hr.append h.isSimple
  used x hx := hused x (h.used x hx)
  substNames x hx := (Subst.mem_freeNames_append.mp hx).elim (hrnames x)
    fun hx => hused x (h.substNames x hx)
  tyNames x hx := (Subst.mem_freeNames_apply hx).elim (fun hx => hused x (h.tyNames x hx))
    (hrnames x)
  derivation := by
    have hmap := h.derivation.mapNames hr.image
    rwa [Term.mapNames_of_typeNames_eq_nil _ hnames, ← Subst.apply_eq_mapNames,
      ← Context.mapNames_image_append] at hmap

end Sound

theorem sound_var {i n : Nat} (hΓ : Γ.IsPolymorphic) (hσ : ∀ x ∈ Γ.freeNames, x ∈ σ.used) {ty : Ty}
    (hi : Γ.getType? i = some ty) :
    Sound Γ (.var p i n) σ [] (σ.openAll ty).1.2 (σ.openAll ty).2 := by
  have hty : ∀ x ∈ ty.freeNames, x ∈ σ.used := fun x hx =>
    hσ x (Context.mem_freeNames_of_getType? hi hx)
  have hsimple : (σ.openAll ty).1.2.isSimple := by
    obtain ⟨τ, hτ⟩ := hΓ i ty hi
    rw [← Ty.mapNames_id ty] at hτ
    exact NameSupply.isSimple_openAll isSimpleMap_name hty hτ
  refine ⟨by simp [Subst.IsSimple], fun x hx => NameSupply.mem_used_openAll.mpr (.inr hx),
    by simp [Subst.freeNames], fun x hx => NameSupply.mem_used_openAll.mpr ?_, ?_⟩
  · exact (NameSupply.mem_freeNames_openAll hx).imp_right (hty x)
  · rw [Subst.image_nil, Context.mapNames_id]
    exact .var hi (NameSupply.instance_openAll_self hsimple)

theorem sound_abs {ty : Option Ty} {t : Term} {a b : Ty} {s : Subst} {σ₁ : NameSupply}
    (hty : ∀ a' ∈ ty, a' = s.apply a) (ha : a.isSimple) (hanames : ∀ y ∈ a.freeNames, y ∈ σ₁.used)
    (hused : ∀ y ∈ σ.used, y ∈ σ₁.used) (h : Sound (⟨x, .var a⟩ :: Γ) t σ₁ s b σ') :
    Sound Γ (.abs p x ty t) σ s (.arr (s.apply a) b) σ' where
  isSimple := h.isSimple
  used y hy := h.used y (hused y hy)
  substNames := h.substNames
  tyNames y hy := (List.mem_append.mp hy).elim (h.applyNames hanames y) (h.tyNames y)
  derivation := by
    refine .abs (h.isSimple.apply ha) hty ?_
    rw [Subst.apply_eq_mapNames]
    exact h.derivation

theorem sound_app {t u : Term} {s₁ s₂ s₃ : Subst} {a b c : Ty} {σ₁ σ₂ : NameSupply}
    (ht : t.typeNames = []) (hu : u.typeNames = []) (h₁ : Sound Γ t σ s₁ a σ₁)
    (h₂ : Sound (Γ.mapNames s₁.image) u σ₁ s₂ b σ₂)
    (hused : ∀ y ∈ σ₂.used, y ∈ σ'.used) (hcnames : ∀ y ∈ c.freeNames, y ∈ σ'.used)
    (h₃ : IsSimpleMgu (s₂.apply a) (.arr b c) s₃) :
    Sound Γ (.app p t u) σ (s₃ ++ s₂ ++ s₁) (s₃.apply c) σ' := by
  have hs₃ : ∀ y ∈ s₃.freeNames, y ∈ σ'.used := by
    intro y hy
    rcases h₃.names y hy with hy | hy
    · exact hused y (h₂.applyNames h₁.tyNames y hy)
    · rcases List.mem_append.mp hy with hy | hy
      · exact hused y (h₂.tyNames y hy)
      · exact hcnames y hy
  have ht₃ := (h₁.refine ht h₂.isSimple h₂.used h₂.substNames).refine ht h₃.isSimple hused hs₃
  have hu₃ := h₂.refine hu h₃.isSimple hused hs₃
  rw [h₃.apply_eq, Subst.apply_arr] at ht₃
  rw [List.append_assoc]
  refine ⟨ht₃.isSimple, ht₃.used, ht₃.substNames, fun y hy => ?_, ?_⟩
  · exact ht₃.tyNames y (List.mem_append_right _ hy)
  · have hu' := hu₃.derivation
    rw [← Context.mapNames_image_append, List.append_assoc] at hu'
    exact .app ht₃.derivation hu'

theorem sound_ite {c t e : Term} {s₁ s₂ s₃ s₄ : Subst} {b d : Ty} {σ₁ σ₂ : NameSupply}
    (hc : c.typeNames = []) (ht : t.typeNames = []) (he : e.typeNames = [])
    (h₁ : Sound Γ c σ s₁ .bool σ₁) (h₂ : Sound (Γ.mapNames s₁.image) t σ₁ s₂ b σ₂)
    (h₃ : Sound (Γ.mapNames (s₂ ++ s₁).image) e σ₂ s₃ d σ') (h₄ : IsSimpleMgu (s₃.apply b) d s₄) :
    Sound Γ (.ite p c t e) σ (s₄ ++ s₃ ++ (s₂ ++ s₁)) (s₄.apply d) σ' := by
  have hs₄ : ∀ y ∈ s₄.freeNames, y ∈ σ'.used := fun y hy =>
    (h₄.names y hy).elim (h₃.applyNames h₂.tyNames y) (h₃.tyNames y)
  have hkeep : ∀ y ∈ σ'.used, y ∈ σ'.used := fun _ hy => hy
  have hc₄ := ((h₁.refine hc h₂.isSimple h₂.used h₂.substNames).refine hc h₃.isSimple h₃.used
    h₃.substNames).refine hc h₄.isSimple hkeep hs₄
  have ht₄ := (h₂.refine ht h₃.isSimple h₃.used h₃.substNames).refine ht h₄.isSimple hkeep hs₄
  have he₄ := h₃.refine he h₄.isSimple hkeep hs₄
  rw [← List.append_assoc] at hc₄
  refine ⟨hc₄.isSimple, hc₄.used, hc₄.substNames, he₄.tyNames, .ite ?_ ?_ ?_⟩
  · simpa using hc₄.derivation
  · have h := ht₄.derivation
    rw [h₄.apply_eq, ← Context.mapNames_image_append] at h
    simpa only [List.append_assoc] using h
  · have h := he₄.derivation
    rwa [← Context.mapNames_image_append] at h

theorem sound_letIn {e t : Term} {s₁ s₂ : Subst} {a b : Ty} {σ₁ : NameSupply}
    (he : e.typeNames = []) (h₁ : Sound Γ e σ s₁ a σ₁)
    (h₂ : Sound (⟨x, .var ((Γ.mapNames s₁.image).generalize a [])⟩ :: Γ.mapNames s₁.image) t σ₁ s₂ b
      σ') : Sound Γ (.letIn p x e t) σ (s₂ ++ s₁) b σ' := by
  have he₂ := h₁.refine he h₂.isSimple h₂.used h₂.substNames
  refine ⟨he₂.isSimple, he₂.used, he₂.substNames, h₂.tyNames, ?_⟩
  have havoid : ∀ y ∈ e.typeNames, y ∈ ([] : List String) := by simp [he]
  have hlet := HindleyMilner.letIn_mapNames (p := p) h₂.isSimple.image h₁.derivation.isSimple havoid
    (fun η hη => h₁.derivation.mapNames hη) h₂.derivation
  rwa [Term.mapNames_of_typeNames_eq_nil _ he, ← Context.mapNames_image_append] at hlet

/-- The parameter of an abstraction: a type that no substitution changes, or a new name. -/
theorem orNew_names {ty : Option Ty} {a : Ty} (hty : (ty.map Ty.freeNames).getD [] = [])
    (h : orNew ty σ = .ok a σ') :
    (∀ y ∈ σ.used, y ∈ σ'.used) ∧ (∀ y ∈ a.freeNames, y ∈ σ'.used) ∧
      ∀ s : Subst, ∀ a' ∈ ty, a' = s.apply a := by
  rcases orNew_eq_ok_iff.mp h with ⟨rfl, rfl⟩ | ⟨rfl, rfl, rfl⟩
  · have hnil : a.freeNames = [] := by simpa using hty
    refine ⟨fun _ hy => hy, by simp [hnil], fun s a' ha' => ?_⟩
    obtain rfl : a = a' := by simpa using ha'
    exact (Subst.apply_of_disjoint (by simp [hnil])).symm
  · refine ⟨fun y hy => NameSupply.mem_used_letter.mpr (.inr hy), fun y hy => ?_, by simp⟩
    exact NameSupply.mem_used_letter.mpr (.inl (by simpa [Ty.freeNames, eq_comm] using hy))

theorem sound_of_run {t : Term} (ht : t.IsPlain) (hnames : t.typeNames = [])
    {Γ : Context} (hΓ : Γ.IsPolymorphic) {s : Subst} {τ : Ty} {σ σ' : NameSupply}
    (hσ : ∀ x ∈ Γ.freeNames, x ∈ σ.used) (h : run Γ t σ = .ok (s, τ) σ') : Sound Γ t σ s τ σ' := by
  induction t generalizing Γ s τ σ σ' with
  | var p i n =>
    obtain ⟨ty, hi, hr, rfl⟩ := run_var_eq_ok_iff.mp h
    cases hr
    exact sound_var hΓ hσ hi
  | const p b =>
    obtain ⟨hr, rfl⟩ := run_const_eq_ok_iff.mp h
    cases hr
    exact ⟨by simp [Subst.IsSimple], fun _ hx => hx, by simp [Subst.freeNames],
      by simp [Ty.freeNames], .const⟩
  | abs p x ty t ih =>
    obtain ⟨a, σ₁, s₁, b, hnew, hrun, hr⟩ := run_abs_eq_ok_iff.mp h
    cases hr
    simp only [Term.typeNames, List.append_eq_nil_iff] at hnames
    have ha := isSimple_of_orNew ht.1 hnew
    obtain ⟨hused, hanames, hty⟩ := orNew_names hnames.1 hnew
    have hσ₁ : ∀ y ∈ Context.freeNames (⟨x, .var a⟩ :: Γ), y ∈ σ₁.used := fun y hy =>
      (Context.mem_freeNames_cons_var.mp hy).elim (hanames y) fun hy => hused y (hσ y hy)
    have h₁ := ih ht.2 hnames.2 (hΓ.cons_simple x ha) hσ₁ hrun
    rw [h₁.isSimple.shift_eq, Ty.shift_of_isSimple _ h₁.derivation.isSimple]
    exact sound_abs (hty s₁) ha hanames hused h₁
  | app p t u iht ihu =>
    obtain ⟨s₁, a, σ₁, Γ₁, s₂, b, σ₂, s₃, hrun₁, hΓ₁, hrun₂, hunify, hr⟩ := run_app_eq_ok_iff.mp h
    cases hr
    simp only [Term.typeNames, List.append_eq_nil_iff] at hnames
    have h₁ := iht ht.1 hnames.1 hΓ hσ hrun₁
    obtain rfl : Γ.mapNames s₁.image = Γ₁ := by
      simpa [Context.apply_eq_ok Γ h₁.isSimple] using hΓ₁
    have h₂ := ihu ht.2 hnames.2 (hΓ.mapNames h₁.isSimple.image) (h₁.contextNames hσ) hrun₂
    obtain ⟨h₃, rfl⟩ := isSimpleMgu_of_unifyOpening (h₂.isSimple.apply h₁.derivation.isSimple)
      ((Ty.isSimple_arr _ _).mpr ⟨h₂.derivation.isSimple, rfl⟩) hunify
    refine sound_app hnames.1 hnames.2 h₁ h₂ (fun y hy => ?_) (fun y hy => ?_) h₃
    · exact NameSupply.mem_used_letter.mpr (.inr hy)
    · exact NameSupply.mem_used_letter.mpr (.inl (by simpa [Ty.freeNames, eq_comm] using hy))
  | ite p c t e ihc iht ihe =>
    obtain ⟨s₁, a, σ₁, s₂, σ₂, Γ₁, s₃, b, σ₃, Γ₂, s₄, d, σ₄, s₅, hrun₁, hbool, hΓ₁, hrun₂, hΓ₂, hrun₃,
      hunify, hr⟩ := run_ite_eq_ok_iff.mp h
    cases hr
    simp only [Term.typeNames, List.append_eq_nil_iff] at hnames
    obtain ⟨⟨hcn, htn⟩, hen⟩ := hnames
    have h₁ := ihc ht.1 hcn hΓ hσ hrun₁
    obtain ⟨hs₂, rfl⟩ := isSimpleMgu_of_unifyOpening h₁.derivation.isSimple rfl hbool
    have hc := h₁.refine hcn hs₂.isSimple (fun _ hy => hy) fun y hy =>
      (hs₂.names y hy).elim (h₁.tyNames y) (by simp [Ty.freeNames])
    rw [hs₂.apply_eq, Subst.apply_bool] at hc
    obtain rfl : Γ.mapNames (s₂ ++ s₁).image = Γ₁ := by
      simpa [Context.apply_eq_ok Γ hc.isSimple] using hΓ₁
    have h₃ := iht ht.2.1 htn (hΓ.mapNames hc.isSimple.image) (hc.contextNames hσ) hrun₂
    have hc₃ := hc.refine hcn h₃.isSimple h₃.used h₃.substNames
    obtain rfl : Γ.mapNames (s₃ ++ (s₂ ++ s₁)).image = Γ₂ := by
      simpa [Context.apply_eq_ok Γ hc₃.isSimple] using hΓ₂
    have h₄ := ihe ht.2.2 hen (hΓ.mapNames hc₃.isSimple.image) (hc₃.contextNames hσ) hrun₃
    obtain ⟨h₅, rfl⟩ := isSimpleMgu_of_unifyOpening (h₄.isSimple.apply h₃.derivation.isSimple)
      h₄.derivation.isSimple hunify
    exact sound_ite hcn htn hen hc h₃ h₄ h₅
  | letIn p x e t ihe iht =>
    obtain ⟨s₁, a, σ₁, Γ₁, s₂, b, hrun₁, hΓ₁, hrun₂, hr⟩ := run_letIn_eq_ok_iff.mp h
    cases hr
    simp only [Term.typeNames, List.append_eq_nil_iff] at hnames
    have h₁ := ihe ht.1 hnames.1 hΓ hσ hrun₁
    obtain rfl : Γ.mapNames s₁.image = Γ₁ := by
      simpa [Context.apply_eq_ok Γ h₁.isSimple] using hΓ₁
    have h₂ := iht ht.2 hnames.2
      (isPolymorphic_cons_generalize (hΓ.mapNames h₁.isSimple.image) x h₁.derivation.isSimple [])
      (h₁.generalizeNames x hσ) hrun₂
    rw [h₂.isSimple.shift_eq, Ty.shift_of_isSimple _ h₂.derivation.isSimple]
    exact sound_letIn hnames.1 h₁ h₂
  | tyAbs p x t ih => exact ht.elim
  | tyApp p t ty ih => exact ht.elim

/-- Soundness: whatever supply inference starts with, if it knows the names of the context, then a
result is a derivation in the context under the substitution of the result. -/
theorem exists_derivation_of_run {contextText termText : String} {Γ : Context} {t : Term}
    (hΓ : Context.parse contextText = .ok Γ) (ht : Term.parse Γ termText = .ok t)
    (hcontext : Calculus.hindleyMilner.admitsContext Γ = .ok ())
    (hterm : Calculus.hindleyMilner.admitsTerm t = .ok ()) (hnames : t.typeNames = [])
    {σ σ' : NameSupply} (hσ : ∀ x ∈ Γ.freeNames, x ∈ σ.used) {s : Subst} {τ : Ty}
    (h : run Γ t σ = .ok (s, τ) σ') : ∃ Γ', Γ.apply s = .ok Γ' ∧ HindleyMilner Γ' t τ := by
  have hsound := sound_of_run (Term.isPlain_of_parse (by simp) hcontext ht hterm) hnames
    (Context.isPolymorphic_of_admitsContext (Context.isResolved_of_parse hΓ) hcontext) hσ h
  exact ⟨Γ.mapNames s.image, Context.apply_eq_ok Γ hsound.isSimple, hsound.derivation⟩

/-- The generalised function is used at `Bool` and at the type of a variable of the context. -/
theorem exists_derivation_of_run_letIn : ∃ Γ t s σ',
    Context.parse "f: ∀X. X -> X, y: A" = .ok Γ ∧
    Term.parse Γ "let g = λz. f z in if g true then g y else y" = .ok t ∧
    run Γ t (.forTerm Γ t) = .ok (s, .name "E") σ' ∧
    ∃ Γ', Γ.apply s = .ok Γ' ∧ HindleyMilner Γ' t (.name "E") := by
  let Γ : Context := [⟨"y", .var (.name "A")⟩, ⟨"f", .var (.all "X" (.arr (.var 0 1) (.var 0 1)))⟩]
  let t : Term :=
    .letIn ⟨1, 1⟩ "g"
      (.abs ⟨1, 9⟩ "z" none (.app ⟨1, 13⟩ (.var ⟨1, 13⟩ 2 3) (.var ⟨1, 15⟩ 0 3)))
      (.ite ⟨1, 20⟩ (.app ⟨1, 23⟩ (.var ⟨1, 23⟩ 0 3) (.const ⟨1, 25⟩ true))
        (.app ⟨1, 35⟩ (.var ⟨1, 35⟩ 0 3) (.var ⟨1, 37⟩ 1 3)) (.var ⟨1, 44⟩ 1 3))
  let s : Subst := [("A", .name "E"), ("C2", .name "A"), ("D", .bool), ("C1", .bool),
    ("B", .name "C"), ("X", .name "B")]
  have hΓ : Context.parse "f: ∀X. X -> X, y: A" = .ok Γ := by decide +kernel
  have ht : Term.parse Γ "let g = λz. f z in if g true then g y else y" = .ok t := by
    decide +kernel
  have hanswer : (run Γ t).answer (.forTerm Γ t) = .ok (s, .name "E") := by decide +kernel
  obtain ⟨σ', hrun⟩ := Supplied.answer_eq_ok_iff.mp hanswer
  exact ⟨Γ, t, s, σ', hΓ, ht, hrun, exists_derivation_of_run hΓ ht (by decide +kernel)
    (by decide +kernel) (by decide) (by simp [NameSupply.forTerm]; tauto) hrun⟩

end Infer

end LambdaTyping
