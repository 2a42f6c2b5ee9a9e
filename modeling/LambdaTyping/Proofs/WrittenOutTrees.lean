import Mathlib
import LambdaTyping.Proofs.PolymorphicRules
import LambdaTyping.Proofs.HindleyMilnerTrees

/-!
# Derivations that are written out

A tree whose nodes are instances of the rules of Hindley-Milner as they stand, with
no name left to be found, is valid, and no node binds a name. So every step of a
check only confirms what is there: where types are compared they are equal up to the
names of binders, a variable binds no names but those it has been opened with, and
these are dropped again.
-/
namespace LambdaTyping

theorem Subst.without_eq_nil {s : Subst} {names : List String} (h : ∀ x ∈ s.domain, x ∈ names) :
    s.without names = [] := by
  rw [without, List.map_eq_nil_iff, List.filter_eq_nil_iff]
  simpa using h

namespace Conclusion

variable {c : Conclusion} {k : Solution} {a b : Ty}

theorem unify_of_alphaEq (hk : k.subst = []) (h : a.alphaEq b = true) : c.unify a b k = .ok k := by
  rw [unify, equate_of_alphaEq (by rwa [hk])]
  rfl

/-- What is left of two contexts below the `d` most recent bindings. -/
theorem equateBelow_of_alphaEq (hk : k.subst = []) {Γ₀ Δ₀ Γ Δ : Context} {d : Nat}
    (hΓ₀ : Γ₀.drop d = Γ) (hΔ₀ : Δ₀.drop d = Δ) (hΓ : Γ.IsResolved) (hΔ : Δ.IsResolved)
    (h : Γ.AlphaEq Δ) : c.equateBelow Γ₀ Δ₀ d Γ Δ k = some k := by
  induction Γ generalizing Δ d with
  | nil =>
    cases h
    rfl
  | cons e Γ ih =>
    cases Δ with
    | nil => cases h
    | cons f Δ =>
      obtain ⟨x, b₁⟩ := e
      obtain ⟨y, b₂⟩ := f
      obtain ⟨hb, htail⟩ := Context.alphaEq_cons_iff.mp h
      obtain ⟨hΓ₁, hget₁⟩ := getType?_of_drop hΓ₀
      obtain ⟨hΔ₁, hget₂⟩ := getType?_of_drop hΔ₀
      have hrest := ih hΓ₁ hΔ₁ hΓ.2 hΔ.2 htail
      rcases hget₁ with ⟨a, rfl, hA⟩ | ⟨hb₁, -⟩
      · rcases hget₂ with ⟨b, rfl, hB⟩ | ⟨hb₂, -⟩
        · have hshift := (Ty.alphaEq_shift_iff hΓ.wellScoped_head
            (htail.length_eq ▸ hΔ.wellScoped_head) (d + 1)).mpr hb
          rw [Nat.cast_succ] at hshift
          rw [equateBelow_of_typed hA hB, equate_of_alphaEq (by rwa [hk])]
          exact hrest
        · cases b₂ with
          | var b => exact absurd rfl (hb₂ b)
          | _ => cases hb
      · rw [equateBelow_of_untyped (Binding.sameKind_of_alphaEq hb) hb₁]
        exact hrest

theorem sameContext_of_alphaEq (hk : k.subst = []) (i : Nat) {Γ : Context} (hΓ : Γ.IsResolved)
    (hcontext : c.context.IsResolved) (h : Γ.AlphaEq c.context) : c.sameContext i Γ k = .ok k := by
  have hbelow : c.equateBelow Γ c.context 0 Γ c.context k = some k :=
    equateBelow_of_alphaEq hk rfl rfl hΓ hcontext h
  rw [sameContext, if_neg (not_not.mpr h.length_eq), hbelow]

theorem samePremises_of_isFor (hk : k.subst = []) (i : Nat) {js : List Judgment} {ts : List Term}
    (hjs : ∀ j ∈ js, j.context.IsResolved) (hcontext : c.context.IsResolved)
    (h : List.Forall₂ (fun j t => j.IsFor c.context t) js ts) :
    c.samePremises i (js.map .bare) ts k = .ok k := by
  induction h generalizing i with
  | nil => rfl
  | cons hj _ ih =>
    rw [List.forall_mem_cons] at hjs
    refine bind_eq_ok_iff.mpr ⟨k, sameContext_of_alphaEq hk i hjs.1 hcontext hj.1, ?_⟩
    exact bind_eq_ok_iff.mpr ⟨(), if_pos hj.2, ih (i + 1) hjs.2⟩

/-- A premise with one more variable, up to what its rule says of the types. -/
theorem absPremise_of_isFor (hk : k.subst = []) {annot : Option Ty} {t t' : Term} {y : String}
    {Δ : Context} (hΔ : Δ.IsResolved) (hcontext : c.context.IsResolved)
    (h : Judgment.IsFor c.context t ⟨Δ, t', b⟩) (hannot : ∀ a' ∈ annot, a'.alphaEq a = true) :
    c.absPremise annot t (.bare ⟨⟨y, .var a⟩ :: Δ, t', b⟩) a Δ k = .ok k := by
  refine bind_eq_ok_iff.mpr ⟨k, sameContext_of_alphaEq hk 0 hΔ hcontext h.1, ?_⟩
  refine bind_eq_ok_iff.mpr ⟨(), if_pos h.2, ?_⟩
  refine bind_eq_ok_iff.mpr ⟨[], unbind_of_isSimple 0 Subst.solves_nil.isSimple, ?_⟩
  refine bind_eq_ok_iff.mpr ⟨k, rfl, ?_⟩
  cases annot with
  | none => rfl
  | some a' => exact unify_of_alphaEq hk (hannot a' rfl)

theorem letPremises_of_isFor (hk : k.subst = []) {e t t' : Term} {p : Judgment} {y : String}
    {Δ : Context} (hp : p.context.IsResolved) (hΔ : Δ.IsResolved) (hcontext : c.context.IsResolved)
    (he : p.IsFor c.context e) (ht : Judgment.IsFor c.context t ⟨Δ, t', b⟩) :
    c.letPremises e t (.bare p) (.bare ⟨⟨y, .var a⟩ :: Δ, t', b⟩) Δ k = .ok k := by
  have hpremise : c.samePremises 0 ([p].map .bare) [e] k = .ok k :=
    samePremises_of_isFor hk 0 (by simpa using hp) hcontext (.cons he .nil)
  refine bind_eq_ok_iff.mpr ⟨k, hpremise, ?_⟩
  refine bind_eq_ok_iff.mpr ⟨k, sameContext_of_alphaEq hk 1 hΔ hcontext ht.1, ?_⟩
  refine bind_eq_ok_iff.mpr ⟨(), if_pos ht.2, ?_⟩
  refine bind_eq_ok_iff.mpr ⟨k, rfl, ?_⟩
  exact bind_eq_ok_iff.mpr ⟨[], unbind_of_isSimple 1 Subst.solves_nil.isSimple, rfl⟩

/-- A variable binds only the names it is opened with, and drops them again. -/
theorem exists_checkVar_eq_ok {Γ : Context} {ty ς : Ty} {i : Nat} {σ : NameSupply}
    (hσ : ∀ y, y ∈ Γ.freeNames ∨ y ∈ ty.freeNames → y ∈ σ.used) (hi : Γ.getType? i = some ς)
    (hinstance : ς.Instance ty) :
    ∃ σ', checkVar ⟨.hindleyMilner, Γ⟩ i ty ⟨σ, []⟩ = .ok ⟨σ', []⟩ := by
  have hς : ∀ y ∈ ς.freeNames, y ∈ σ.used := fun y hy =>
    hσ y (.inl (Context.mem_freeNames_of_getType? hi hy))
  obtain ⟨η, hmatches, hsimple⟩ := NameSupply.exists_matches_of_instance hς hinstance fun y hy hnew =>
    NameSupply.openAll_notMem hnew (hσ y (.inr hy))
  suffices ∃ k : Solution, unify ⟨.hindleyMilner, Γ⟩ (σ.openAll ς).1.2 ty ⟨(σ.openAll ς).2, []⟩ = .ok k ∧
      ∀ x ∈ k.subst.domain, x ∈ (σ.openAll ς).1.1 by
    obtain ⟨k, hunify, hdomain⟩ := this
    refine ⟨k.supply, ?_⟩
    rw [checkVar_eq hi, hunify, ← Subst.without_eq_nil hdomain]
    rfl
  cases halpha : (σ.openAll ς).1.2.alphaEq ty with
  | true => exact ⟨_, unify_of_alphaEq rfl halpha, by simp [Subst.domain]⟩
  | false =>
    obtain ⟨s, hrun, hmgu, hfollows⟩ :=
      hmatches.exists_unifyOpening (Ty.isMonoIn_of_isSimple 0 hsimple) (σ.openAll ς).2
    have hs : s.IsSimple := fun p hp => (hmgu.isMonoIn hp).isSimple
    have hequate : equate ⟨.hindleyMilner, Γ⟩ (σ.openAll ς).1.2 ty ⟨(σ.openAll ς).2, []⟩ =
        .ok ⟨(σ.openAll ς).2, s ++ []⟩ :=
      equate_of_unifyOpening_ok (k := ⟨(σ.openAll ς).2, []⟩) (by simp) halpha
        (by simpa using hs) hrun
    refine ⟨_, by rw [unify, hequate]; rfl, fun x hx => ?_⟩
    rw [List.append_nil] at hx
    obtain ⟨p, hp, rfl⟩ := List.mem_map.mp hx
    exact (hfollows p hp).1

theorem letScheme_of_perm {Γ : Context} (hk : k.subst = []) {τ ς : Ty} {xs : List String}
    (hτ : τ.isSimple) (hxs : xs.Perm (Γ.generic τ []))
    (hς : ς.alphaEq (τ.generalize Γ.length xs) = true) :
    letScheme ⟨.hindleyMilner, Γ⟩ ς τ k = .ok k := by
  have hequivalent := Context.areEquivalent_generalize hτ hxs hς
  refine bind_eq_ok_iff.mpr ⟨Γ, ?_, ?_⟩
  · rw [hk, Context.apply_nil]
    rfl
  · rw [hk]
    exact if_pos hequivalent

/-- A rule whose conclusion follows from its premises as they stand, above premises that bind
nothing. -/
theorem exists_check_eq_ok {j : Judgment} (hj : j.IsMonotyped) {r : Rule} {js : List Judgment}
    (hjs : ∀ i ∈ js, i.IsMonotyped) {σ : NameSupply} (hσ : ∀ x ∈ j.freeNames, x ∈ σ.used)
    (h : r.DerivesPolymorphic j.context j.ty j.term js) :
    ∃ σ', check ⟨.hindleyMilner, j.context⟩ r j.term j.ty (js.map .bare) ⟨σ, []⟩ = .ok ⟨σ', []⟩ := by
  obtain ⟨Γ, t, ty⟩ := j
  have hresolved : ∀ i ∈ js, i.context.IsResolved := fun i hi => (hjs i hi).resolved
  dsimp only at h ⊢
  unfold Rule.DerivesPolymorphic at h
  split at h
  case h_1 =>
    obtain ⟨ς, hi, hinstance⟩ := h
    refine exists_checkVar_eq_ok (fun y hy => hσ y ?_) hi hinstance
    simp only [Judgment.freeNames, List.mem_append]
    tauto
  case h_2 annot t y a Δ t' b =>
    obtain ⟨hfor, hannot, hty⟩ := h
    refine ⟨σ, (checkAbs_eq annot t ty rfl).trans ?_⟩
    have hΔ := (hresolved _ List.mem_cons_self).2
    have hpremise := absPremise_of_isFor (c := ⟨.hindleyMilner, Γ⟩) (k := ⟨σ, []⟩) (y := y) rfl hΔ
      hj.resolved hfor hannot
    exact bind_eq_ok_iff.mpr ⟨_, hpremise, unify_of_alphaEq rfl hty⟩
  case h_3 p q =>
    obtain ⟨hp, hq, hty⟩ := h
    have hpremises := samePremises_of_isFor (c := ⟨.hindleyMilner, Γ⟩) (k := ⟨σ, []⟩) rfl 0 hresolved
      hj.resolved (.cons hp (.cons hq .nil))
    refine ⟨σ, bind_eq_ok_iff.mpr ⟨_, hpremises, ?_⟩⟩
    exact bind_eq_ok_iff.mpr ⟨_, adoptAll_bare 0 [p, q], unify_of_alphaEq rfl hty⟩
  case h_4 p q r =>
    obtain ⟨hp, hq, hr, hpty, hqty, hrty⟩ := h
    have hpremises := samePremises_of_isFor (c := ⟨.hindleyMilner, Γ⟩) (k := ⟨σ, []⟩) rfl 0 hresolved
      hj.resolved (.cons hp (.cons hq (.cons hr .nil)))
    refine ⟨σ, bind_eq_ok_iff.mpr ⟨_, hpremises, ?_⟩⟩
    refine bind_eq_ok_iff.mpr ⟨_, adoptAll_bare 0 [p, q, r], ?_⟩
    refine bind_eq_ok_iff.mpr ⟨_, unify_of_alphaEq rfl hpty, ?_⟩
    exact bind_eq_ok_iff.mpr ⟨_, unify_of_alphaEq rfl hqty, unify_of_alphaEq rfl hrty⟩
  case h_5 e t p y ς Δ t' b =>
    obtain ⟨he, ht, ⟨xs, hxs, hς⟩, hty⟩ := h
    rw [List.forall_mem_cons, List.forall_mem_singleton] at hresolved hjs
    refine ⟨σ, (checkLet_eq e t ty _ rfl).trans ?_⟩
    have hpremises := letPremises_of_isFor (c := ⟨.hindleyMilner, Γ⟩) (k := ⟨σ, []⟩) (y := y) (a := ς)
      rfl hresolved.1 hresolved.2.2 hj.resolved he ht
    refine bind_eq_ok_iff.mpr ⟨_, hpremises, ?_⟩
    exact bind_eq_ok_iff.mpr ⟨_, letScheme_of_perm rfl hjs.1.ty hxs hς, unify_of_alphaEq rfl hty⟩
  case h_6 => exact ⟨σ, unify_of_alphaEq rfl h⟩
  case h_7 => exact ⟨σ, unify_of_alphaEq rfl h⟩
  case h_8 => exact h.elim

end Conclusion

namespace RuleTree

/-- Hindley-Milner admits the judgment of the root, whose type has no quantifiers, and derives it by
its rule from those of the children. -/
def IsWrittenOut (n : RuleTree) : Prop :=
  ∃ j ∈ n.judgment?, j.Admitted .hindleyMilner ∧ j.ty.isMono = true ∧
    n.rule.DerivesPolymorphic j.context j.ty j.term (n.children.filterMap judgment?)

instance (n : RuleTree) : Decidable n.IsWrittenOut :=
  inferInstanceAs (Decidable (∃ j ∈ n.judgment?, _))

theorem IsWrittenOut.exists_isMonotyped {n : RuleTree} (h : n.IsWrittenOut) :
    ∃ j, n.judgment? = some j ∧ j.IsMonotyped := by
  obtain ⟨j, hj, hadmitted, hmono, -⟩ := h
  exact ⟨j, hj, isMonotyped_of_admitted hj hadmitted hmono⟩

theorem map_judgment?_eq {cs : List RuleTree} (h : ∀ c ∈ cs, ∃ j, c.judgment? = some j) :
    cs.map judgment? = (cs.filterMap judgment?).map some := by
  induction cs with
  | nil => rfl
  | cons c cs ih =>
    rw [List.forall_mem_cons] at h
    obtain ⟨⟨j, hj⟩, h⟩ := h
    rw [List.map_cons, List.filterMap_cons_some hj, List.map_cons, ih h, hj]

/-- One node above trees that bind nothing. -/
theorem checkRule_of_derivesPolymorphic {r : Rule} {j : Judgment} {js : List Judgment}
    (hj : j.IsMonotyped) (hjs : ∀ i ∈ js, i.IsMonotyped)
    (h : r.DerivesPolymorphic j.context j.ty j.term js) :
    checkRule .hindleyMilner r j ((js.map Premise.bare).map fun p => (some p.judgment, p.subst)) =
      .ok [] := by
  obtain ⟨hfits, harity⟩ := Rule.fits_of_derivesPolymorphic h
  have hused : ∀ x ∈ j.freeNames, x ∈ (NameSupply.avoiding (namesInUse j (js.map .bare))).used :=
    fun x hx => by
      rw [NameSupply.mem_used_avoiding, namesInUse]
      exact List.mem_append_right _ hx
  obtain ⟨σ, hcheck⟩ := Conclusion.exists_check_eq_ok hj hjs hused h
  exact checkRule_eq_ok_iff.mpr ⟨hfits, by simp [harity], _, rfl, σ, hcheck⟩

theorem isValid_of_forall_isWrittenOut {t : RuleTree} (h : ∀ n, t.HasNode n → n.IsWrittenOut) :
    (t.check .hindleyMilner).isValid = true ∧ (t.check .hindleyMilner).outcome = .ok [] := by
  induction t using RuleTree.induction with
  | node t ih =>
    obtain ⟨⟨j, hj, hadmitted, hmono, hderives⟩, hbelow⟩ := forall_hasNode_iff.mp h
    have hmonotyped : ∀ c ∈ t.children, ∃ i, c.judgment? = some i ∧ i.IsMonotyped := fun c hc =>
      (hbelow c hc c (.root c)).exists_isMonotyped
    have hchildren : ∀ i ∈ t.children.filterMap judgment?, i.IsMonotyped := fun i hi => by
      obtain ⟨c, hc, hci⟩ := List.mem_filterMap.mp hi
      obtain ⟨i', hi', hmonotyped⟩ := hmonotyped c hc
      obtain rfl : i' = i := Option.some.inj (hi'.symm.trans hci)
      exact hmonotyped
    have hrule := checkRule_of_derivesPolymorphic (isMonotyped_of_admitted hj hadmitted hmono)
      hchildren hderives
    have hjs := map_judgment?_eq fun c hc => (hmonotyped c hc).imp fun _ h => h.1
    rw [← map_asPremise_eq hjs fun c hc => (ih c hc (hbelow c hc)).2] at hrule
    exact isValid_check_iff.mpr ⟨j, hj, hadmitted, hrule, fun c hc => (ih c hc (hbelow c hc)).1⟩

/-- A derivation that is written out is accepted, and nothing is found out about its names. -/
theorem check_hindleyMilner_of_isWrittenOut {t : RuleTree}
    (h : ∀ n, t.HasNode n → n.IsWrittenOut) :
    (t.check .hindleyMilner).isValid = true ∧
      ∀ c, (t.check .hindleyMilner).HasNode c → c.outcome = .ok [] := by
  refine ⟨(isValid_of_forall_isWrittenOut h).1, fun c hc => ?_⟩
  have hjudgments : ∀ n, t.HasNode n → ∃ j, n.judgment? = some j := fun n hn =>
    (h n hn).exists_isMonotyped.imp fun _ hj => hj.1
  obtain ⟨n, hn, rfl⟩ := exists_hasNode_of_check hjudgments hc
  exact (isValid_of_forall_isWrittenOut fun m hm => h m (hn.trans hm)).2

/-- A definition with two quantifiers, which the premise for its body has in another order. -/
def reorderedScheme : RuleTree :=
  let Γ := "k: ∀Y. ∀X. X → Y → X"
  ⟨"", "let k = λx. λy. x in k true", "C → Bool", .letIn,
    [⟨"", "λx. λy. x", "A → B → A", .abs,
      [⟨"x: A", "λz. x", "B → A", .abs, [⟨"y: A, x: B", "y", "A", .var, []⟩]⟩]⟩,
    ⟨Γ, "k true", "C → Bool", .app,
      [⟨Γ, "k", "Bool → C → Bool", .var, []⟩, ⟨Γ, "true", "Bool", .constTrue, []⟩]⟩]⟩

theorem check_hindleyMilner_reorderedScheme :
    (∀ n, reorderedScheme.HasNode n → n.IsWrittenOut) ∧
      (reorderedScheme.check .hindleyMilner).isValid = true ∧
      ∀ c, (reorderedScheme.check .hindleyMilner).HasNode c → c.outcome = .ok [] := by
  have h : ∀ n, reorderedScheme.HasNode n → n.IsWrittenOut := forall_of_allNodes (by decide +kernel)
  exact ⟨h, check_hindleyMilner_of_isWrittenOut h⟩

end RuleTree

end LambdaTyping
