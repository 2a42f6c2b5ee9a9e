import Mathlib
import LambdaTyping.Proofs.CheckedTrees
import LambdaTyping.Proofs.Matching

/-!
# Derivations from the rules of Hindley-Milner

If the check of a rule succeeds and its premises are derivable under their
substitutions, then its conclusion is derivable under the substitution of the
check. Contexts may hold schemes; a premise has to have the same ones as the
conclusion.

A variable is instantiated with names that the node forgets again, and `let`
compares the scheme of its variable with the generalised type of its definition.
-/
namespace LambdaTyping

/-- Neither positions nor the names of binders count, and the context may be more general. -/
theorem HindleyMilner.of_erase_eq {Γ Δ : Context} {t u : Term} {τ : Ty} (h : HindleyMilner Γ t τ)
    (hΔ : Δ.Generalizes Γ) (ht : t.erase = u.erase) (hu : u.IsPlain) : HindleyMilner Δ u τ := by
  induction h generalizing Δ u with
  | var hi hτ =>
    cases u with
    | var q j m =>
      simp only [Term.erase, Term.var.injEq] at ht
      obtain ⟨σ', hi', hτ'⟩ := hΔ.instances _ _ _ hi hτ
      exact .var (ht.2.1 ▸ hi') hτ'
    | _ => simp [Term.erase] at ht
  | const =>
    cases u with
    | const q b => exact .const
    | _ => simp [Term.erase] at ht
  | @abs Γ p x annot t a b ha hannot _ ih =>
    cases u with
    | abs q y annot' u =>
      simp only [Term.erase, Term.abs.injEq] at ht
      refine .abs ha (fun a' ha' => ?_) (ih (hΔ.cons y x (fun _ hz => hz) fun _ hτ => hτ) ht.2.2.2 hu.2)
      obtain ⟨a₁, ha₁, heq⟩ : ∃ a₁ ∈ annot, a₁.erase = a'.erase := by
        have hmem : a'.erase ∈ annot.map Ty.erase := ht.2.2.1 ▸ Option.mem_map_of_mem _ ha'
        simpa using hmem
      obtain rfl := hannot a₁ ha₁
      rwa [Ty.erase_of_isSimple ha, Ty.erase_of_isSimple (hu.1 a' ha'), eq_comm] at heq
    | _ => simp [Term.erase] at ht
  | app _ _ ih₁ ih₂ =>
    cases u with
    | app q u₁ u₂ =>
      simp only [Term.erase, Term.app.injEq] at ht
      exact .app (ih₁ hΔ ht.2.1 hu.1) (ih₂ hΔ ht.2.2 hu.2)
    | _ => simp [Term.erase] at ht
  | ite _ _ _ ih₁ ih₂ ih₃ =>
    cases u with
    | ite q u₁ u₂ u₃ =>
      simp only [Term.erase, Term.ite.injEq] at ht
      exact .ite (ih₁ hΔ ht.2.1 hu.1) (ih₂ hΔ ht.2.2.1 hu.2.1) (ih₃ hΔ ht.2.2.2 hu.2.2)
    | _ => simp [Term.erase] at ht
  | @letIn Γ p x e t a b he _ ih₁ ih₂ =>
    cases u with
    | letIn q y u₁ u₂ =>
      simp only [Term.erase, Term.letIn.injEq] at ht
      refine .letIn (ih₁ hΔ ht.2.2.1 hu.1) (ih₂ ?_ ht.2.2.2 hu.2)
      rw [Term.typeNames_eq_of_erase_eq ht.2.2.1]
      exact hΔ.generalize y x he.isSimple _
    | _ => simp [Term.erase] at ht

namespace Context

theorem exists_getType?_of_mem_freeNames {Γ : Context} {x : String} (hx : x ∈ Γ.freeNames) :
    ∃ i a, Γ.getType? i = some a ∧ x ∈ a.freeNames := by
  induction Γ with
  | nil => simp [freeNames] at hx
  | cons e Γ ih =>
    obtain ⟨y, b⟩ := e
    rcases List.mem_append.mp hx with hx | hx
    · cases b with
      | var a => exact ⟨0, a.shift 1, rfl, by rw [Ty.freeNames_shift]; exact hx⟩
      | _ => simp [Binding.freeNames] at hx
    · obtain ⟨i, a, ha, hxa⟩ := ih hx
      exact ⟨i + 1, a.shift 1, by rw [getType?_cons_succ, ha]; rfl, by simpa using hxa⟩

theorem SameKinds.symm {Γ Δ : Context} (h : Γ.SameKinds Δ) : Δ.SameKinds Γ := by
  have hcomm : ∀ b₁ b₂ : Binding, b₁.sameKind b₂ = b₂.sameKind b₁ := by
    intro b₁ b₂
    cases b₁ <;> cases b₂ <;> rfl
  exact List.Forall₂.flip (h.imp fun e f hef => (hcomm f.binding e.binding).trans hef)

/-- Contexts that a map makes equal have the same instances. -/
theorem generalizes_of_equalUnder {θ : String → Ty} (hθ : IsSimpleMap θ) {Γ Δ : Context}
    (hkinds : Δ.SameKinds Γ) (hequal : Δ.EqualUnder θ Γ) :
    (Γ.mapNames θ).Generalizes (Δ.mapNames θ) where
  names x hx := by
    obtain ⟨i, a, ha, hxa⟩ := exists_getType?_of_mem_freeNames hx
    rw [getType?_mapNames hθ, Option.map_eq_some_iff] at ha
    obtain ⟨a, ha, rfl⟩ := ha
    obtain ⟨b, hb⟩ := hkinds.symm.exists_getType? ha
    refine @mem_freeNames_of_getType? _ i (b.mapNames θ) ?_ x ?_
    · rw [getType?_mapNames hθ, hb]
      rfl
    · rw [← Ty.freeNames_erase, hequal i b a hb ha, Ty.freeNames_erase]
      exact hxa
  instances i ς τ hi hτ := by
    rw [getType?_mapNames hθ, Option.map_eq_some_iff] at hi
    obtain ⟨b, hb, rfl⟩ := hi
    obtain ⟨a, ha⟩ := hkinds.exists_getType? hb
    refine ⟨a.mapNames θ, ?_, hτ.of_erase_eq (hequal i b a hb ha)⟩
    rw [getType?_mapNames hθ, ha]
    rfl

end Context

/-- A judgment that has been read and admitted, and whose type has no quantifiers. -/
structure Judgment.IsMonotyped (j : Judgment) : Prop where
  resolved : j.context.IsResolved
  context : j.context.IsPolymorphic
  term : j.term.IsPlain
  wellScoped : j.term.WellScoped j.context.length
  ty : j.ty.isSimple

/-- The judgment of the premise is derivable under all maps for which its substitution holds. -/
structure Premise.Derived (p : Premise) : Prop where
  judgment : p.judgment.IsMonotyped
  isSimple : p.subst.IsSimple
  solved : p.subst.Solved
  derivation : ∀ θ, IsSimpleMap θ → p.subst.Models θ → HindleyMilner (p.judgment.context.mapNames θ)
    (p.judgment.term.mapNames θ) (p.judgment.ty.mapNames θ)

theorem Subst.Solves.derived {P : (String → Ty) → Prop} {j : Judgment} {s : Subst}
    (h : s.Solves P) (hj : j.IsMonotyped) (hP : ∀ θ, IsSimpleMap θ → P θ →
      HindleyMilner (j.context.mapNames θ) (j.term.mapNames θ) (j.ty.mapNames θ)) :
    Premise.Derived ⟨j, s⟩ :=
  ⟨hj, h.isSimple, h.solved, fun θ hθ hmodels => hP θ hθ ((h.models_iff θ hθ).mp hmodels)⟩

namespace Premise.Derived

variable {p : Premise} {θ : String → Ty} {Γ Δ : Context} {t : Term}

/-- A premise in the context of the conclusion. -/
theorem same (h : p.Derived) (hθ : IsSimpleMap θ) (hmodels : p.subst.Models θ)
    (hmatch : (p.judgment.context.SameKinds Γ ∧ p.judgment.term.alphaEq t) ∧
      p.judgment.context.EqualUnder θ Γ) (ht : t.WellScoped Γ.length) (hplain : t.IsPlain) :
    HindleyMilner (Γ.mapNames θ) (t.mapNames θ) (p.judgment.ty.mapNames θ) := by
  obtain ⟨⟨hkinds, halpha⟩, hequal⟩ := hmatch
  have hscoped := h.judgment.wellScoped
  rw [hkinds.length_eq] at hscoped
  exact (h.derivation θ hθ hmodels).of_erase_eq (Context.generalizes_of_equalUnder hθ hkinds hequal)
    (Term.erase_mapNames_eq ((Term.alphaEq_iff_erase hscoped ht).mp halpha) θ) (hplain.mapNames hθ)

/-- A premise with one more variable. -/
theorem extended (h : p.Derived) (hθ : IsSimpleMap θ) (hmodels : p.subst.Models θ) {y : String}
    {a : Ty} (hcontext : p.judgment.context = ⟨y, .var a⟩ :: Δ)
    (hmatch : (Context.SameKinds Δ Γ ∧ p.judgment.term.alphaEq t) ∧ Context.EqualUnder θ Δ Γ)
    (ht : t.WellScoped (Γ.length + 1)) (hplain : t.IsPlain) (x : String) :
    HindleyMilner (⟨x, .var (a.mapNames θ)⟩ :: Γ.mapNames θ) (t.mapNames θ)
      (p.judgment.ty.mapNames θ) := by
  obtain ⟨⟨hkinds, halpha⟩, hequal⟩ := hmatch
  exact h.same (Γ := ⟨x, .var a⟩ :: Γ) hθ hmodels
    ⟨⟨hcontext ▸ hkinds.cons_var y x a a, halpha⟩, hcontext ▸ hequal.cons hθ y x rfl⟩ ht hplain

end Premise.Derived

namespace Conclusion

variable {Γ : Context} {ty : Ty} {σ σ' : NameSupply} {s : Subst} {pos : Text.Position} {x : String}

theorem derived_const {b : Bool} (hj : Judgment.IsMonotyped ⟨Γ, .const pos b, ty⟩)
    (h : unify ⟨.hindleyMilner, Γ⟩ ty .bool ⟨σ, []⟩ = .ok ⟨σ', s⟩) :
    Premise.Derived ⟨⟨Γ, .const pos b, ty⟩, s⟩ := by
  have hdecides := decides_checkConst (c := ⟨.hindleyMilner, Γ⟩) (k := ⟨σ, []⟩) (by simp)
    Subst.solves_nil hj.ty
  rw [h] at hdecides
  refine Subst.Solves.derived hdecides hj fun θ _ hP => ?_
  rw [hP.2]
  exact .const

theorem derived_checkApp {t u : Term} (hj : Judgment.IsMonotyped ⟨Γ, .app pos t u, ty⟩)
    {p q : Premise} (hp : p.Derived) (hq : q.Derived)
    (hΓ : ∀ r ∈ [p, q], r.judgment.context.Comparable Γ)
    (h : checkApp ⟨.hindleyMilner, Γ⟩ t u ty p q ⟨σ, []⟩ = .ok ⟨σ', s⟩) :
    Premise.Derived ⟨⟨Γ, .app pos t u, ty⟩, s⟩ := by
  have hdecides := decides_checkApp (c := ⟨.hindleyMilner, Γ⟩) (k := ⟨σ, []⟩) (t := t) (u := u)
    (by simp) Subst.solves_nil hΓ ⟨hp.judgment.ty, hp.isSimple⟩ ⟨hq.judgment.ty, hq.isSimple⟩ hj.ty
  rw [h] at hdecides
  refine Subst.Solves.derived hdecides hj fun θ hθ hP => ?_
  obtain ⟨⟨⟨-, hmatchp, hmatchq, -⟩, hmodels⟩, hty⟩ := hP
  have ht := hp.same hθ (hmodels p (by simp)) hmatchp hj.wellScoped.1 hj.term.1
  have hu := hq.same hθ (hmodels q (by simp)) hmatchq hj.wellScoped.2 hj.term.2
  rw [hty] at ht
  exact .app ht hu

theorem derived_checkIte {i t e : Term} (hj : Judgment.IsMonotyped ⟨Γ, .ite pos i t e, ty⟩)
    {p q r : Premise} (hp : p.Derived) (hq : q.Derived) (hr : r.Derived)
    (hΓ : ∀ r' ∈ [p, q, r], r'.judgment.context.Comparable Γ)
    (h : checkIte ⟨.hindleyMilner, Γ⟩ i t e ty p q r ⟨σ, []⟩ = .ok ⟨σ', s⟩) :
    Premise.Derived ⟨⟨Γ, .ite pos i t e, ty⟩, s⟩ := by
  have hdecides := decides_checkIte (c := ⟨.hindleyMilner, Γ⟩) (k := ⟨σ, []⟩) (i := i) (t := t)
    (e := e) (by simp) Subst.solves_nil hΓ ⟨hp.judgment.ty, hp.isSimple⟩
    ⟨hq.judgment.ty, hq.isSimple⟩ ⟨hr.judgment.ty, hr.isSimple⟩ hj.ty
  rw [h] at hdecides
  refine Subst.Solves.derived hdecides hj fun θ hθ hP => ?_
  obtain ⟨⟨⟨⟨⟨-, hmatchp, hmatchq, hmatchr, -⟩, hmodels⟩, hcond⟩, hthen⟩, helse⟩ := hP
  have hc := hp.same hθ (hmodels p (by simp)) hmatchp hj.wellScoped.1 hj.term.1
  have ht := hq.same hθ (hmodels q (by simp)) hmatchq hj.wellScoped.2.1 hj.term.2.1
  have he := hr.same hθ (hmodels r (by simp)) hmatchr hj.wellScoped.2.2 hj.term.2.2
  rw [hcond] at hc
  rw [hthen] at ht
  rw [helse] at he
  exact .ite hc ht he

theorem derived_checkAbs {annot : Option Ty} {t : Term}
    (hj : Judgment.IsMonotyped ⟨Γ, .abs pos x annot t, ty⟩) {p : Premise} (hp : p.Derived)
    {y : String} {a : Ty} {Δ : Context} (hcontext : p.judgment.context = ⟨y, .var a⟩ :: Δ)
    (ha : a.isSimple) (hΔ : Context.Comparable Δ Γ)
    (h : checkAbs ⟨.hindleyMilner, Γ⟩ annot t ty p ⟨σ, []⟩ = .ok ⟨σ', s⟩) :
    Premise.Derived ⟨⟨Γ, .abs pos x annot t, ty⟩, s⟩ := by
  have hdecides := decides_checkAbs (c := ⟨.hindleyMilner, Γ⟩) (k := ⟨σ, []⟩) (by simp)
    Subst.solves_nil annot t hcontext hΔ ha hj.term.1 ⟨hp.judgment.ty, hp.isSimple⟩ hj.ty
  rw [h] at hdecides
  refine Subst.Solves.derived hdecides hj fun θ hθ hP => ?_
  obtain ⟨⟨⟨⟨-, hmatch⟩, hmodels⟩, hannot⟩, hty⟩ := hP
  have hbody := hp.extended hθ hmodels hcontext hmatch hj.wellScoped.2 hj.term.2 x
  rw [hty, Ty.shift_of_isSimple _ hp.judgment.ty, Ty.mapNames_arr, Term.mapNames_abs hθ]
  refine .abs (Ty.isSimple_mapNames hθ ha) (fun a' ha' => ?_) hbody
  obtain ⟨a₁, ha₁, rfl⟩ := Option.map_eq_some_iff.mp ha'
  exact hannot a₁ ha₁

end Conclusion

namespace Conclusion

variable {Γ : Context} {ty : Ty} {σ σ' : NameSupply} {s : Subst} {pos : Text.Position} {x : String}

/-- A variable is opened, compared with its type, and its names are dropped. -/
theorem checkVar_eq {i : Nat} {ς : Ty} (hi : Γ.getType? i = some ς) :
    checkVar ⟨.hindleyMilner, Γ⟩ i ty ⟨σ, s⟩ =
      (unify ⟨.hindleyMilner, Γ⟩ (σ.openAll ς).1.2 ty ⟨(σ.openAll ς).2, s⟩ >>= fun k =>
        .ok ⟨k.supply, k.subst.without (σ.openAll ς).1.1⟩) := by
  simp only [checkVar, hi]
  rfl

theorem exists_unify_of_checkVar {i : Nat}
    (h : checkVar ⟨.hindleyMilner, Γ⟩ i ty ⟨σ, []⟩ = .ok ⟨σ', s⟩) :
    ∃ ς r, Γ.getType? i = some ς ∧ s = r.without (σ.openAll ς).1.1 ∧
      unify ⟨.hindleyMilner, Γ⟩ (σ.openAll ς).1.2 ty ⟨(σ.openAll ς).2, []⟩ = .ok ⟨σ', r⟩ := by
  cases hi : Γ.getType? i with
  | none =>
    unfold checkVar at h
    simp [hi] at h
  | some ς =>
    rw [checkVar_eq hi] at h
    obtain ⟨⟨σ'', r⟩, hunify, hk⟩ := bind_eq_ok_iff.mp h
    cases hk
    exact ⟨ς, r, rfl, rfl, hunify⟩

/-- The names of the instantiated variables are not those of the judgment, so they may stand for
anything. -/
theorem derived_checkVar {i n : Nat} (hj : Judgment.IsMonotyped ⟨Γ, .var pos i n, ty⟩)
    (hσ : ∀ y, y ∈ Γ.freeNames ∨ y ∈ ty.freeNames → y ∈ σ.used)
    (h : checkVar ⟨.hindleyMilner, Γ⟩ i ty ⟨σ, []⟩ = .ok ⟨σ', s⟩) :
    Premise.Derived ⟨⟨Γ, .var pos i n, ty⟩, s⟩ := by
  obtain ⟨ς, r, hi, rfl, hunify⟩ := exists_unify_of_checkVar h
  obtain ⟨τ, hτ⟩ := hj.context i ς hi
  have hς : ∀ y ∈ ς.freeNames, y ∈ σ.used := fun y hy =>
    hσ y (.inl (Context.mem_freeNames_of_getType? hi hy))
  rw [← Ty.mapNames_id ς] at hτ
  have hsimple := NameSupply.isSimple_openAll isSimpleMap_name hς hτ
  have hdecides := decides_unify (c := ⟨.hindleyMilner, Γ⟩) (k := ⟨(σ.openAll ς).2, []⟩) (by simp)
    Subst.solves_nil hsimple hj.ty
  rw [hunify] at hdecides
  have hr : r.Solves _ := hdecides
  refine ⟨hj, hr.isSimple.without _, hr.solved.without _, fun θ hθ hmodels => ?_⟩
  -- the map for which the whole substitution holds is another one only on the opened names
  have hη : IsSimpleMap fun y => (r.image y).mapNames θ := fun y =>
    Ty.isSimple_mapNames hθ (hr.isSimple.image y)
  have hsame : ∀ {t : Ty}, (∀ y ∈ t.freeNames, y ∈ σ.used) →
      t.mapNames (fun y => (r.image y).mapNames θ) = t.mapNames θ := fun ht =>
    Ty.mapNames_congr fun y hy => hmodels.of_without fun hnew =>
      NameSupply.openAll_notMem hnew (ht y hy)
  have hty := ((hr.models_iff _ hη).mp (hr.solved.models_mapNames θ)).2
  rw [hsame fun y hy => hσ y (.inr hy)] at hty
  refine .var (σ := ς.mapNames θ) (by rw [Context.getType?_mapNames hθ, hi]; rfl) ?_
  rw [← hty, ← hsame hς]
  exact NameSupply.instance_openAll hη (Ty.isSimple_mapNames hη hsimple)

end Conclusion

/-- A definition may be used at a scheme of which its generalised type is as general. The names of
its annotations are known to the context, so they are not generalised over. -/
theorem HindleyMilner.letIn_of_isInstance {Γ : Context} {s : Subst} {e t : Term} {p : Text.Position}
    {x : String} {a b ς : Ty} (hs : s.IsSimple) (hsolved : s.Solved) (ha : a.isSimple)
    (hς : ∃ τ, ς.Instance τ) (hnames : ∀ y ∈ e.typeNames, y ∈ Γ.freeNames)
    (hgen : (Γ.mapNames s.image).isInstance ((Γ.mapNames s.image).generalize (s.apply a) [])
      (s.apply ς) = true)
    (he : ∀ η, IsSimpleMap η → s.Models η →
      HindleyMilner (Γ.mapNames η) (e.mapNames η) (a.mapNames η))
    {θ : String → Ty} (hθ : IsSimpleMap θ) (hmodels : s.Models θ)
    (ht : HindleyMilner (⟨x, .var (ς.mapNames θ)⟩ :: Γ.mapNames θ) t b) :
    HindleyMilner (Γ.mapNames θ) (.letIn p x (e.mapNames θ) t) b := by
  have hsa : (s.apply a).isSimple := hs.apply ha
  obtain ⟨hknown, hinstances⟩ := Context.instance_of_isInstance
    ⟨_, (Context.instance_generalize_iff hsa).mpr ⟨.name, isSimpleMap_name, fun _ _ => rfl, rfl⟩⟩
    (by rw [Subst.apply_eq_mapNames]; exact hς.imp' _ fun τ hτ => hτ.mapNames hs.image) hgen
  rw [← hmodels.apply_mapNames ς] at ht
  refine @letIn_of_instances _ _ _ _ _ θ ((Γ.mapNames s.image).generic (s.apply a) []) (s.apply a) _ _ hθ
    (fun η hη hoff => ?_) (fun τ hτ => ?_) (fun y hy hgeneric z hz => ?_) ht
  · -- a map of the generalised names, after the substitution
    have hcomp : IsSimpleMap fun y => (s.image y).mapNames η := fun y =>
      Ty.isSimple_mapNames hη (hs.image y)
    have hsame : ∀ y ∈ Γ.freeNames, (s.image y).mapNames η = θ y := fun y hy => by
      rw [← hmodels.image_mapNames y]
      refine Ty.mapNames_congr fun z hz => hoff z fun hgeneric => ?_
      exact (Context.mem_generic.mp hgeneric).2.1 (Context.mem_freeNames_mapNames.mpr ⟨y, hy, hz⟩)
    have hderiv := he _ hcomp (hsolved.models_mapNames η)
    rw [Context.mapNames_congr hsame, Term.mapNames_congr fun y hy => hsame y (hnames y hy),
      ← Ty.mapNames_mapNames, ← Subst.apply_eq_mapNames] at hderiv
    exact hderiv
  · exact (Ty.instance_generalize_iff hθ hsa).mp (hinstances θ hθ τ hτ)
  · refine Ty.mem_freeNames_mapNames.mpr ⟨y, hknown y ?_, hz⟩
    rw [Context.mem_freeNames_generalize]
    rw [Context.mem_generic] at hgeneric
    tauto

namespace Conclusion

variable {Γ : Context} {ty : Ty} {σ σ' : NameSupply} {s : Subst} {pos : Text.Position} {x : String}

theorem isInstance_of_letScheme {a b : Ty} {k k' : Solution} (hk : k.subst.IsSimple)
    (h : letScheme ⟨.hindleyMilner, Γ⟩ a b k = .ok k') :
    k' = k ∧ (Γ.mapNames k.subst.image).isInstance
      ((Γ.mapNames k.subst.image).generalize (k.subst.apply b) []) (k.subst.apply a) = true := by
  obtain ⟨Γ', hΓ', h⟩ := bind_eq_ok_iff.mp h
  rw [Context.apply_eq_ok Γ hk] at hΓ'
  cases hΓ'
  by_cases hequivalent : (Γ.mapNames k.subst.image).areEquivalent
      ((Γ.mapNames k.subst.image).generalize (k.subst.apply b) []) (k.subst.apply a) = true
  · rw [if_pos hequivalent] at h
    cases h
    exact ⟨rfl, Context.isInstance_of_areEquivalent hequivalent⟩
  · rw [if_neg hequivalent] at h
    cases h

theorem derived_checkLet {e t : Term} (hj : Judgment.IsMonotyped ⟨Γ, .letIn pos x e t, ty⟩)
    {p q : Premise} (hp : p.Derived) (hq : q.Derived) {y : String} {a : Ty} {Δ : Context}
    (hcontext : q.judgment.context = ⟨y, .var a⟩ :: Δ) (hΓ : p.judgment.context.Comparable Γ)
    (hΔ : Context.Comparable Δ Γ) (hnames : ∀ y ∈ e.typeNames, y ∈ Γ.freeNames)
    (h : checkLet ⟨.hindleyMilner, Γ⟩ e t ty p q ⟨σ, []⟩ = .ok ⟨σ', s⟩) :
    Premise.Derived ⟨⟨Γ, .letIn pos x e t, ty⟩, s⟩ := by
  rw [checkLet_eq e t ty p hcontext] at h
  obtain ⟨k, hpremises, h⟩ := bind_eq_ok_iff.mp h
  obtain ⟨k', hscheme, hunify⟩ := bind_eq_ok_iff.mp h
  have hdecides := decides_letPremises (c := ⟨.hindleyMilner, Γ⟩) (k := ⟨σ, []⟩) (e := e) (t := t)
    (by simp) Subst.solves_nil hΓ hΔ hp.isSimple hq.isSimple
  rw [hpremises] at hdecides
  have hk : k.subst.Solves _ := hdecides
  obtain ⟨rfl, hgen⟩ := isInstance_of_letScheme hk.isSimple hscheme
  have hb := hq.judgment.ty
  rw [← Ty.shift_of_isSimple (-1) hb] at hb
  have hsolved := decides_unify (c := ⟨.hindleyMilner, Γ⟩) (a := ty) (by simp) hk hj.ty hb
  rw [hunify] at hsolved
  refine Subst.Solves.derived hsolved hj fun θ hθ hP => ?_
  obtain ⟨hP, hty⟩ := hP
  have hmodels := (hk.models_iff θ hθ).mpr hP
  obtain ⟨⟨⟨-, hmatch⟩, -⟩, hmodelsq⟩ := hP
  have hbody := hq.extended hθ hmodelsq hcontext hmatch hj.wellScoped.2 hj.term.2 x
  have hscheme : ∃ τ, a.Instance τ := by
    obtain ⟨τ, hτ⟩ := hq.judgment.context 0 (a.shift 1) (by rw [hcontext]; rfl)
    exact ⟨τ, Ty.instance_shift_iff (d := 1) |>.mp hτ⟩
  rw [hty, Ty.shift_of_isSimple _ hq.judgment.ty, Term.mapNames_letIn hθ]
  refine HindleyMilner.letIn_of_isInstance hk.isSimple hk.solved hp.judgment.ty hscheme hnames hgen
    (fun η hη hmodels => ?_) hθ hmodels hbody
  obtain ⟨⟨⟨⟨-, hmatchp, -⟩, -⟩, hmodelsp⟩, -⟩ := (hk.models_iff η hη).mp hmodels
  exact hp.same hη hmodelsp hmatchp hj.wellScoped.1 hj.term.1

end Conclusion

end LambdaTyping
