import Mathlib
import LambdaTyping.Proofs.GuardedRuns
import LambdaTyping.Proofs.HindleyMilnerRules
import LambdaTyping.Proofs.Containment

/-!
# Scopes of checked trees

The substitution of a node that holds is one of the node's own context: its types
are formed there, and it can be applied to the context. Both are kept by every
equation that is solved on the way. The types of a premise are compared before all
bindings of its context are, but if all goes well the bindings are of the same
kinds in the end, so that the types were formed in the context of the conclusion
from the beginning. Types never refer to term variables, and so the substitution
and the type of a premise with one more term variable can always leave its scope.
-/
namespace LambdaTyping

/-- If there is a result, it has the property. -/
def Ensures {ε α : Type} (P : α → Prop) (r : Except ε α) : Prop := ∀ a, r = .ok a → P a

namespace Ensures

variable {ε ε' α β : Type} {P : α → Prop} {Q : β → Prop} {r : Except ε α}

theorem ok {a : α} (h : P a) : Ensures P (.ok a : Except ε α) := by
  intro b hb
  cases hb
  exact h

theorem error (e : ε) : Ensures P (.error e) := fun _ h => by cases h

theorem mapError (h : Ensures P r) (f : ε → ε') : Ensures P (r.mapError f) :=
  fun a ha => h a (mapError_eq_ok_iff.mp ha)

theorem bind {f : α → Except ε β} (h : Ensures P r) (hf : ∀ a, P a → Ensures Q (f a)) :
    Ensures Q (r >>= f) := by
  intro b hb
  obtain ⟨a, ha, hb⟩ := bind_eq_ok_iff.mp hb
  exact hf a (h a ha) b hb

/-- A step of which nothing but success is known. -/
theorem after {f : α → Except ε β} (hf : ∀ a, Ensures Q (f a)) : Ensures Q (r >>= f) :=
  bind (P := fun _ => True) (fun _ _ => trivial) fun a _ => hf a

end Ensures

namespace Ty

theorem mem_of_mem_minOption {a b : Option Nat} {i : Nat} (h : i ∈ minOption a b) :
    i ∈ a ∨ i ∈ b := by
  cases a with
  | none => exact .inr h
  | some j =>
    cases b with
    | none => exact .inl h
    | some k =>
      simp only [minOption, Option.mem_some_iff] at h ⊢
      omega

variable {l ks : List Kind} {t : Ty}

theorem FormedIn.getElem?_of_minFreeVarAt (h : t.FormedIn (l ++ ks)) {i : Nat}
    (hi : i ∈ t.minFreeVarAt l.length) : ks[i]? = some .type := by
  induction t generalizing l with
  | name x => cases hi
  | bool => cases hi
  | var j n =>
    obtain ⟨-, hj⟩ := h
    rw [minFreeVarAt] at hi
    split at hi
    · rename_i hl
      obtain rfl : j - l.length = i := Option.mem_some_iff.mp hi
      rwa [List.getElem?_append_right hl] at hj
    · cases hi
  | arr a b iha ihb =>
    rw [minFreeVarAt] at hi
    rcases mem_of_mem_minOption hi with hi | hi
    · exact iha h.1 hi
    · exact ihb h.2 hi
  | all x a ih => exact ih (l := .type :: l) h hi

/-- A type can leave the scope of bindings among which there is no type variable. -/
theorem FormedIn.unshift?_eq_some (h : t.FormedIn ks) {d : Nat}
    (hd : ∀ i < d, ks[i]? ≠ some .type) : t.unshift? d = some (t.shift (-(d : Int))) := by
  rw [unshift?]
  cases hmin : t.minFreeVar? with
  | none => rfl
  | some i =>
    have hi := h.getElem?_of_minFreeVarAt (l := []) hmin
    exact if_neg fun hlt => hd i hlt hi

end Ty

theorem Subst.FormedIn.unbind_eq_ok {ks : List Kind} {s : Subst} (h : s.FormedIn (.term :: ks))
    (i : Nat) : unbind i s = .ok (s.shift (-1)) := by
  have hs : s.unshift? 1 = some (s.shift (-1)) := by
    induction s with
    | nil => rfl
    | cons b s ih =>
      obtain ⟨hb, hs⟩ := List.forall_mem_cons.mp h
      have hb' : b.2.unshift? 1 = some (b.2.shift (-1)) := hb.unshift?_eq_some (by simp)
      rw [Subst.unshift?, hb', ih hs]
      rfl
  rw [unbind, hs]

theorem ensures_unbind {ks : List Kind} {s : Subst} (h : s.FormedIn (.term :: ks)) (i : Nat) :
    Ensures (Subst.FormedIn ks) (unbind i s) := by
  rw [h.unbind_eq_ok]
  exact .ok h.formedIn_shift_neg_one

theorem Subst.FormedIn.without {ks : List Kind} {s : Subst} (h : s.FormedIn ks)
    (names : List String) : (s.without names).FormedIn ks := by
  intro b hb
  obtain ⟨x, -, rfl⟩ := List.mem_map.mp hb
  exact h.image x

/-- In a context without type variables nothing gets out of scope. -/
theorem Context.Formed.exists_apply {Γ : Context} {s : Subst} (hΓ : Γ.Formed)
    (hs : s.FormedIn Γ.kinds) (hkinds : .type ∉ Γ.kinds) : ∃ Δ, Γ.apply s = .ok Δ := by
  refine ⟨_, apply_eq_ok_iff.mpr ⟨fun i e he => ?_, rfl⟩⟩
  obtain ⟨x, b⟩ := e
  cases b with
  | var a =>
    have hformed := hs.apply (hΓ.getType? (getType?_of_getElem? he))
    have hun := hformed.unshift?_eq_some (d := i + 1) fun j _ hj => hkinds (List.mem_of_getElem? hj)
    exact (Ty.unshift?_eq_some_iff.mp hun).1
  | _ => trivial

/-- What is formed in the context of a premise, taken apart. -/
theorem Premise.Formed.of_cons {p : Premise} (h : p.Formed) {e : Entry} {Δ : Context}
    (heq : p.judgment.context = e :: Δ) :
    Context.Formed (e :: Δ) ∧ p.subst.FormedIn (e.binding.kind :: Context.kinds Δ) ∧
      p.judgment.ty.FormedIn (e.binding.kind :: Context.kinds Δ) := by
  rw [← Context.kinds_cons, ← heq]
  exact ⟨h.judgment.context, h.subst, h.judgment.ty⟩

/-- The types of the substitution are formed in the context, to which it can be applied. -/
structure Subst.Fits (Γ : Context) (s : Subst) : Prop where
  formed : s.FormedIn Γ.kinds
  applies : ∃ Δ, Γ.apply s = .ok Δ

theorem Subst.fits_nil (Γ : Context) : Subst.Fits Γ [] := ⟨.nil, Γ, Γ.apply_nil⟩

/-- What is known fits the context of the conclusion. -/
abbrev Conclusion.Fits (c : Conclusion) (k : Solution) : Prop := k.subst.Fits c.context

namespace Conclusion

variable {c : Conclusion} {k : Solution} {a b : Ty}

theorem ensures_solve {ks : List Kind} (ha : a.FormedIn ks) (hb : b.FormedIn ks) (σ : NameSupply) :
    Ensures (fun r => r.1.FormedIn ks) (c.solve a b σ) := by
  intro r h
  unfold solve at h
  split at h
  · cases hs : unifyRigid a b with
    | error e =>
      rw [hs] at h
      cases h
    | ok s =>
      rw [hs] at h
      cases h
      exact .unifyRigid ha hb hs
  · split at h
    · rename_i s σ' hs
      cases h
      exact (agrees_unifyOpening ha hb).result hs
    · cases h

theorem ensures_equate (hk : c.Fits k) (ha : a.FormedIn c.context.kinds)
    (hb : b.FormedIn c.context.kinds) : Ensures c.Fits (c.equate a b k) := by
  simp only [equate]
  split
  · exact .ok hk
  · refine .bind (ensures_solve (hk.formed.apply ha) (hk.formed.apply hb) _) fun r hs => ?_
    obtain ⟨s, σ⟩ := r
    intro k' h
    obtain ⟨Δ, hΔ, h⟩ := bind_eq_ok_iff.mp h
    cases h
    exact ⟨hs.append hk.formed, Δ, hΔ⟩

theorem ensures_unify (hk : c.Fits k) (ha : a.FormedIn c.context.kinds)
    (hb : b.FormedIn c.context.kinds) : Ensures c.Fits (c.unify a b k) :=
  (ensures_equate hk ha hb).mapError _

theorem ensures_adopt (hk : c.Fits k) (i : Nat) {s : Subst} (hs : s.FormedIn c.context.kinds) :
    Ensures c.Fits (c.adopt i s k) := by
  induction s with
  | nil => exact .ok hk
  | cons b s ih =>
    obtain ⟨hb, hs⟩ := List.forall_mem_cons.mp hs
    exact .bind (ih hs) fun k' hk' => (ensures_equate hk' (a := .name b.1) trivial hb).mapError _

theorem ensures_adoptAll (hk : c.Fits k) (i : Nat) {ps : List Premise}
    (hps : ∀ p ∈ ps, p.subst.FormedIn c.context.kinds) : Ensures c.Fits (c.adoptAll i ps k) := by
  induction ps generalizing k i with
  | nil => exact .ok hk
  | cons p ps ih =>
    obtain ⟨hp, hps⟩ := List.forall_mem_cons.mp hps
    exact .bind (ensures_adopt hk i hp) fun k' hk' => ih hk' (i + 1) hps

theorem fits_of_equateBelow (hk : c.Fits k) {Γ₀ Δ₀ : Context}
    (hΓ₀ : ∀ i a, Γ₀.getType? i = some a → a.FormedIn c.context.kinds)
    (hΔ₀ : ∀ i a, Δ₀.getType? i = some a → a.FormedIn c.context.kinds) {d : Nat} {Γ Δ : Context}
    (hΓ : Γ₀.drop d = Γ) (hΔ : Δ₀.drop d = Δ) {k' : Solution}
    (h : c.equateBelow Γ₀ Δ₀ d Γ Δ k = some k') : c.Fits k' := by
  induction Γ generalizing Δ d k with
  | nil =>
    cases Δ with
    | nil =>
      cases h
      exact hk
    | cons f Δ => cases h
  | cons e Γ ih =>
    cases Δ with
    | nil => cases h
    | cons f Δ =>
      obtain ⟨x, b₁⟩ := e
      obtain ⟨y, b₂⟩ := f
      obtain ⟨hkind, -⟩ := sameKinds_cons_iff.mp (sameKinds_of_equateBelow hΓ hΔ h)
      obtain ⟨hΓ', hget₁⟩ := getType?_of_drop hΓ
      obtain ⟨hΔ', hget₂⟩ := getType?_of_drop hΔ
      rcases hget₁ with ⟨a₁, rfl, hA⟩ | ⟨hb₁, -⟩
      · rcases hget₂ with ⟨a₂, rfl, hB⟩ | ⟨hb₂, -⟩
        · rw [equateBelow_of_typed hA hB] at h
          split at h
          · rename_i k₁ hk₁
            exact ih (ensures_equate hk (hΓ₀ d _ hA) (hΔ₀ d _ hB) k₁ hk₁) hΓ' hΔ' h
          · cases h
        · cases b₂ with
          | var a₂ => exact absurd rfl (hb₂ a₂)
          | _ => simp [Binding.sameKind] at hkind
      · rw [equateBelow_of_untyped hkind hb₁] at h
        exact ih hk hΓ' hΔ' h

theorem ensures_sameContext (hk : c.Fits k) (hcontext : c.context.Formed) (i : Nat) {Γ : Context}
    (hΓ : Γ.Formed) :
    Ensures (fun k => Γ.kinds = c.context.kinds ∧ c.Fits k) (c.sameContext i Γ k) := by
  intro k' h
  unfold sameContext at h
  split at h
  · cases h
  · split at h
    · rename_i k₁ hk₁
      cases h
      -- only now the kinds of all bindings have been compared
      have hkinds := (sameKinds_of_equateBelow (d := 0) rfl rfl hk₁).kinds_eq
      exact ⟨hkinds, fits_of_equateBelow hk (d := 0) (fun i a ha => hkinds ▸ hΓ.getType? ha)
        (fun i a ha => hcontext.getType? ha) rfl rfl hk₁⟩
    · cases h

theorem ensures_samePremises (hk : c.Fits k) (hcontext : c.context.Formed) (i : Nat)
    {ps : List Premise} {ts : List Term} (hlen : ps.length = ts.length) (hps : ∀ p ∈ ps, p.Formed) :
    Ensures (fun k => (∀ p ∈ ps, p.judgment.context.kinds = c.context.kinds) ∧ c.Fits k)
      (c.samePremises i ps ts k) := by
  induction ps generalizing ts k i with
  | nil => exact .ok ⟨by simp, hk⟩
  | cons p ps ih =>
    cases ts with
    | nil => simp at hlen
    | cons t ts =>
      obtain ⟨hp, hps⟩ := List.forall_mem_cons.mp hps
      rw [List.length_cons, List.length_cons, Nat.succ_inj] at hlen
      refine .bind (ensures_sameContext hk hcontext i hp.judgment.context) fun k₁ hk₁ => .after ?_
      intro _ k' hk'
      obtain ⟨hkinds, hfits⟩ := ih hk₁.2 (i + 1) hlen hps k' hk'
      exact ⟨List.forall_mem_cons.mpr ⟨hk₁.1, hkinds⟩, hfits⟩

theorem ensures_keepRigid {s : Subst} (hs : s.Fits c.context) (n x : String) :
    Ensures (Subst.Fits c.context) (keepRigid c.context s n x) := by
  intro r h
  obtain ⟨-, Δ, hΔ, -⟩ := keepRigid_eq_ok_iff.mp h
  exact ⟨formedIn_of_keepRigid hs.formed h, Δ, hΔ⟩

theorem ensures_tyAbsBody (hk : c.Fits k) {n x : String} {ty : Ty}
    (hty : ty.FormedIn c.context.kinds) (hb : b.FormedIn (.type :: c.context.kinds)) :
    Ensures c.Fits (c.tyAbsBody n x ty b k) := by
  have htop := hk.formed.apply hty
  unfold tyAbsBody
  split
  · rename_i y a heq
    rw [heq] at htop
    refine .bind (ensures_unify hk htop.openWith hb.openWith) fun k' hk' => ?_
    exact .bind ((ensures_keepRigid hk' n x).mapError _) fun s hs => .ok hs
  · exact .error _

section Rules

variable (hk : c.Fits k) (hcontext : c.context.Formed)

include hk hcontext

/-- Premises in the context of the conclusion, and the substitutions under which they hold. -/
theorem ensures_premises {ps : List Premise} {ts : List Term} (hlen : ps.length = ts.length)
    (hps : ∀ p ∈ ps, p.Formed) {f : Solution → Except RuleError Solution}
    (hf : ∀ k, c.Fits k → (∀ p ∈ ps, p.judgment.ty.FormedIn c.context.kinds) →
      Ensures c.Fits (f k)) :
    Ensures c.Fits (c.samePremises 0 ps ts k >>= fun k => c.adoptAll 0 ps k >>= f) := by
  refine .bind (ensures_samePremises hk hcontext 0 hlen hps) fun k₁ ⟨hkinds, hk₁⟩ => ?_
  refine .bind (ensures_adoptAll hk₁ 0 fun p hp => hkinds p hp ▸ (hps p hp).subst) fun k₂ hk₂ => ?_
  exact hf k₂ hk₂ fun p hp => hkinds p hp ▸ (hps p hp).judgment.ty

/-- The check of an abstraction up to the type of its conclusion. -/
theorem ensures_absPremise {annot : Option Ty} (hannot : ∀ a ∈ annot, a.FormedIn c.context.kinds)
    (t : Term) {p : Premise} {x : String} {a : Ty} {Δ : Context} (hp : p.Formed)
    (heq : p.judgment.context = ⟨x, .var a⟩ :: Δ) :
    Ensures (fun k => Δ.kinds = c.context.kinds ∧ c.Fits k) (c.absPremise annot t p a Δ k) := by
  obtain ⟨hΔ, hs, -⟩ := hp.of_cons heq
  refine .bind (ensures_sameContext hk hcontext 0 hΔ.2) fun k₁ ⟨hkinds, hk₁⟩ => .after fun _ => ?_
  refine .bind (ensures_unbind (hkinds ▸ hs) 0) fun s hs => ?_
  refine .bind (ensures_adopt hk₁ 0 hs) fun k₂ hk₂ => ?_
  cases annot with
  | none => exact .ok ⟨hkinds, hk₂⟩
  | some a' =>
    exact fun k' h => ⟨hkinds, ensures_unify hk₂ (hannot a' rfl) (hkinds ▸ hΔ.1 a rfl) k' h⟩

/-- The check of `let` up to the type of the variable. -/
theorem ensures_letPremises (e t : Term) {p q : Premise} {x : String} {a : Ty} {Δ : Context}
    (hp : p.Formed) (hq : q.Formed) (heq : q.judgment.context = ⟨x, .var a⟩ :: Δ) :
    Ensures (fun k => p.judgment.context.kinds = c.context.kinds ∧ Δ.kinds = c.context.kinds ∧
      c.Fits k) (c.letPremises e t p q Δ k) := by
  obtain ⟨hΔ, hs, -⟩ := hq.of_cons heq
  refine .bind (ensures_samePremises hk hcontext 0 rfl (by simpa using hp)) fun k₁ ⟨hpk, hk₁⟩ => ?_
  rw [List.forall_mem_singleton] at hpk
  refine .bind (ensures_sameContext hk₁ hcontext 1 hΔ.2) fun k₂ ⟨hkinds, hk₂⟩ => .after fun _ => ?_
  refine .bind (ensures_adopt hk₂ 0 (hpk ▸ hp.subst)) fun k₃ hk₃ => ?_
  refine .bind (ensures_unbind (hkinds ▸ hs) 1) fun s hs => ?_
  exact fun k' h => ⟨hpk, hkinds, ensures_adopt hk₃ 1 hs k' h⟩

omit hcontext in
theorem ensures_letScheme (ha : a.FormedIn c.context.kinds) (hb : b.FormedIn c.context.kinds) :
    Ensures c.Fits (c.letScheme a b k) := by
  unfold letScheme
  split
  · refine .after fun Γ => ?_
    simp only
    split
    · exact .ok hk
    · exact .error _
  · exact ensures_unify hk ha hb

variable {ty : Ty} (hty : ty.FormedIn c.context.kinds)

include hty

/-- In Hindley-Milner, where names are dropped again, there are no type variables. -/
theorem ensures_checkVar (hkinds : c.calculus = .hindleyMilner → .type ∉ c.context.kinds)
    (i : Nat) : Ensures c.Fits (c.checkVar i ty k) := by
  obtain ⟨calculus, Γ⟩ := c
  obtain ⟨σ, s⟩ := k
  cases hi : Γ.getType? i with
  | none =>
    simp only [checkVar, hi]
    exact .error _
  | some scheme =>
    have hscheme := hcontext.getType? hi
    cases calculus with
    | hindleyMilner =>
      have hinst := (agrees_instantiate hscheme).result (instantiate_apply scheme σ)
      rw [checkVar_eq hi]
      refine .bind (ensures_unify ⟨hk.formed, hk.applies⟩ hinst hty) fun k' hk' => .ok ?_
      have hformed := hk'.formed.without (σ.openAll scheme).1.1
      exact ⟨hformed, hcontext.exists_apply hformed (hkinds rfl)⟩
    | _ =>
      simp only [checkVar, hi]
      exact ensures_unify hk hscheme hty

theorem ensures_checkApp (t u : Term) {p q : Premise} (hps : ∀ r ∈ [p, q], r.Formed) :
    Ensures c.Fits (c.checkApp t u ty p q k) :=
  ensures_premises hk hcontext rfl hps fun _ hk' htys =>
    ensures_unify hk' (htys p (by simp)) ⟨htys q (by simp), hty⟩

theorem ensures_checkIte (i t e : Term) {p q r : Premise} (hps : ∀ s ∈ [p, q, r], s.Formed) :
    Ensures c.Fits (c.checkIte i t e ty p q r k) :=
  ensures_premises hk hcontext rfl hps fun _ hk₁ htys =>
    .bind (ensures_unify hk₁ (htys p (by simp)) trivial) fun _ hk₂ =>
      .bind (ensures_unify hk₂ (htys q (by simp)) hty) fun _ hk₃ =>
        ensures_unify hk₃ (htys r (by simp)) hty

theorem ensures_checkTyApp (t : Term) {arg : Ty} (harg : arg.FormedIn c.context.kinds) {p : Premise}
    (hp : p.Formed) : Ensures c.Fits (c.checkTyApp t arg ty p k) := by
  have hps : ∀ r ∈ [p], r.Formed := by simpa using hp
  simp only [checkTyApp, ← adoptAll_singleton]
  refine ensures_premises hk hcontext rfl hps fun k' hk' htys => ?_
  have hhead := hk'.formed.apply (htys p (by simp))
  split
  · rename_i y a heq
    rw [heq] at hhead
    exact ensures_unify hk' (hhead.substTop harg) hty
  · exact .error _

theorem ensures_checkAbs {annot : Option Ty} (hannot : ∀ a ∈ annot, a.FormedIn c.context.kinds)
    (t : Term) {p : Premise} (hp : p.Formed) : Ensures c.Fits (c.checkAbs annot t ty p k) := by
  by_cases h : ∃ x a Δ, p.judgment.context = ⟨x, .var a⟩ :: Δ
  · obtain ⟨x, a, Δ, heq⟩ := h
    obtain ⟨hΔ, -, hbody⟩ := hp.of_cons heq
    rw [checkAbs_eq annot t ty heq]
    refine .bind (ensures_absPremise hk hcontext hannot t hp heq) fun k' ⟨hkinds, hk'⟩ => ?_
    exact ensures_unify hk' hty (hkinds ▸ ⟨hΔ.1 a rfl, hbody.shift_neg_one.1⟩)
  · obtain ⟨e, he⟩ := checkAbs_eq_error (c := c) (k := k) annot t ty
      fun x a Δ heq => h ⟨x, a, Δ, heq⟩
    rw [he]
    exact .error e

theorem ensures_checkLet (e t : Term) {p q : Premise} (hp : p.Formed) (hq : q.Formed) :
    Ensures c.Fits (c.checkLet e t ty p q k) := by
  by_cases h : ∃ x a Δ, q.judgment.context = ⟨x, .var a⟩ :: Δ
  · obtain ⟨x, a, Δ, heq⟩ := h
    obtain ⟨hΔ, -, hbody⟩ := hq.of_cons heq
    rw [checkLet_eq e t ty p heq]
    refine .bind (ensures_letPremises hk hcontext e t hp hq heq) fun k₁ ⟨hpk, hkinds, hk₁⟩ => ?_
    have hscheme := ensures_letScheme hk₁ (hkinds ▸ hΔ.1 a rfl) (hpk ▸ hp.judgment.ty)
    refine .bind hscheme fun k₂ hk₂ => ?_
    exact ensures_unify hk₂ hty (hkinds ▸ hbody.shift_neg_one.1)
  · obtain ⟨err, he⟩ := checkLet_eq_error (c := c) (k := k) e t ty p
      fun x a Δ heq => h ⟨x, a, Δ, heq⟩
    rw [he]
    exact .error err

/-- The types of the premise refer to one more type variable, for which there is a new name. -/
theorem ensures_checkTyAbs (x : String) (t : Term) {p : Premise} (hp : p.Formed) :
    Ensures c.Fits (c.checkTyAbs x t ty p k) := by
  by_cases h : ∃ y Δ, p.judgment.context = ⟨y, .tyVar⟩ :: Δ
  · obtain ⟨y, Δ, heq⟩ := h
    obtain ⟨hΔ, hs, hbody⟩ := hp.of_cons heq
    rw [checkTyAbs_eq x t ty heq]
    refine .bind (ensures_sameContext hk hcontext 0 hΔ.2) fun k₁ ⟨hkinds, hk₁⟩ => .after fun _ => ?_
    have hopened : Subst.FormedIn c.context.kinds
        (p.subst.map fun b => (b.1, b.2.openWith (k₁.supply.like x).1)) := by
      intro b hb
      obtain ⟨b₀, hb₀, rfl⟩ := List.mem_map.mp hb
      exact hkinds ▸ (hs b₀ hb₀).openWith
    refine .bind (ensures_adopt (k := ⟨(k₁.supply.like x).2, k₁.subst⟩) hk₁ 0 hopened)
      fun k₂ hk₂ => ?_
    exact ensures_tyAbsBody hk₂ hty (hkinds ▸ hbody)
  · obtain ⟨e, he⟩ := checkTyAbs_eq_error (c := c) (k := k) x t ty
      fun y Δ heq => h ⟨y, Δ, heq⟩
    rw [he]
    exact .error e

/-- All nine rules. -/
theorem ensures_check (hkinds : c.calculus = .hindleyMilner → .type ∉ c.context.kinds) (r : Rule)
    {t : Term} (ht : t.FormedIn c.context.kinds) {ps : List Premise} (hps : ∀ p ∈ ps, p.Formed) :
    Ensures c.Fits (c.check r t ty ps k) := by
  unfold check
  split
  · exact ensures_checkVar hk hcontext hty hkinds _
  · exact ensures_checkAbs hk hcontext hty ht.1 _ (hps _ (by simp))
  · exact ensures_checkApp hk hcontext hty _ _ hps
  · exact ensures_checkIte hk hcontext hty _ _ _ hps
  · exact ensures_checkTyAbs hk hcontext hty _ _ (hps _ (by simp))
  · exact ensures_checkTyApp hk hcontext hty _ ht.2 (hps _ (by simp))
  · exact ensures_checkLet hk hcontext hty _ _ (hps _ (by simp)) (hps _ (by simp))
  · exact ensures_unify hk hty trivial
  · exact ensures_unify hk hty trivial
  · exact .error _

end Rules

end Conclusion

theorem Context.notMem_kinds_of_admitsContext {k : Calculus} (hk : k ≠ .systemF) {Γ : Context}
    (h : k.admitsContext Γ = .ok ()) : .type ∉ Γ.kinds := by
  intro hmem
  rw [← Scope.map_snd_ofContext] at hmem
  obtain ⟨⟨x, _⟩, hentry, rfl⟩ := List.mem_map.mp hmem
  obtain ⟨i, hi⟩ := List.getElem?_of_mem hentry
  exact absurd (typesBelow_ofContext hk h i x hi) (Nat.not_lt_zero i)

theorem Fields.context_of_judgment? {f : Fields} {j : Judgment} (h : f.judgment? = some j) :
    f.context = .ok j.context := by
  obtain ⟨Γ, hΓ, h⟩ := bind_eq_ok_iff.mp (Fields.judgment?_eq_some_iff.mp h)
  obtain ⟨t, -, h⟩ := bind_eq_ok_iff.mp h
  obtain ⟨ty, -, h⟩ := bind_eq_ok_iff.mp h
  cases h
  exact hΓ

namespace RuleTree

variable {k : Calculus} {t : RuleTree} {j : Judgment} {s : Subst}

/-- A tree as a premise: one that does not hold constrains nothing. -/
theorem formed_of_asPremise {p : Premise}
    (hfits : ∀ j s, t.judgment? = some j → (t.check k).outcome = .ok s → s.Fits j.context)
    (h : (t.check k).asPremise = (some p.judgment, p.subst)) : p.Formed := by
  obtain ⟨hj, hs⟩ := Prod.ext_iff.mp h
  replace hj : t.judgment? = some p.judgment := by
    rw [judgment?, ← fields_check k t]
    exact hj
  refine ⟨formed_of_judgment? hj, ?_⟩
  simp only [Checked.asPremise] at hs
  split at hs
  · rename_i s hok
    exact hs ▸ (hfits _ s hj hok).formed
  · exact hs ▸ .nil

/-- The substitution of a node fits the context of the node. -/
theorem fits_of_check (hj : t.judgment? = some j) (h : (t.check k).outcome = .ok s) :
    s.Fits j.context := by
  induction t using RuleTree.induction generalizing j s with
  | node t ih =>
    rw [check_eq hj] at h
    obtain ⟨j', hj', hadmitted, hrule⟩ := checkNode_eq_ok_iff.mp h
    obtain rfl : j = j' := Option.some_injective _ (hj.symm.trans hj')
    obtain ⟨-, -, ps, hps, σ, hcheck⟩ := checkRule_eq_ok_iff.mp hrule
    have hformed : ∀ p ∈ ps, p.Formed := by
      intro p hp
      have hmem : (some p.judgment, p.subst) ∈ t.children.map fun c => (c.check k).asPremise :=
        hps ▸ List.mem_map.mpr ⟨p, hp, rfl⟩
      obtain ⟨c, hc, heq⟩ := List.mem_map.mp hmem
      exact formed_of_asPremise (fun j s => ih c hc) heq
    have hkinds : k = .hindleyMilner → .type ∉ j.context.kinds := by
      rintro rfl
      exact Context.notMem_kinds_of_admitsContext (by simp) hadmitted.context
    obtain ⟨hcontext, hterm, hty⟩ := formed_of_judgment? hj
    exact Conclusion.ensures_check (c := ⟨k, j.context⟩) (Subst.fits_nil _) hcontext hty hkinds _
      hterm hformed _ hcheck

/-- Checking stays in scope. At every node that holds, all types of the substitution are in scope in
the context of the node, and the substitution can be applied to it. So whatever a node is as a
premise, its substitution and its type can leave the scope of a term variable on top of its
context: nothing refers to it. -/
theorem check_staysInScope (k : Calculus) (t : RuleTree) {p : List Nat} {c : Checked}
    (hc : (t.check k).at? p = some c) :
    (∀ s, c.outcome = .ok s → ∃ Γ, c.fields.context = .ok Γ ∧ (∀ b ∈ s, b.2.InScope Γ) ∧
        ∃ Δ, Γ.apply s = .ok Δ) ∧
      ∀ j x a Γ, c.asPremise.1 = some j → j.context = ⟨x, .var a⟩ :: Γ →
        (∀ i, unbind i c.asPremise.2 = .ok (c.asPremise.2.shift (-1))) ∧
          c.asPremise.2.canShift (-1) = true ∧ j.ty.canShift (-1) = true := by
  rw [at?_check, Option.map_eq_some_iff] at hc
  obtain ⟨n, -, rfl⟩ := hc
  cases t.blocksAbove p with
  | true =>
    refine ⟨fun s hs => ?_, fun j x a Γ hj => ?_⟩
    · rw [outcome_checkBelow_true] at hs
      cases hs
    · rw [Checked.asPremise, fields_checkBelow] at hj
      cases hj
  | false =>
    rw [show n.checkBelow k false = n.check k from rfl]
    refine ⟨fun s hs => ?_, fun j x a Γ hj hcons => ?_⟩
    · obtain ⟨j, hj⟩ := exists_judgment_of_outcome_eq_ok hs
      have hfits := fits_of_check hj hs
      refine ⟨j.context, ?_, fun b hb => (hfits.formed b hb).inScope, hfits.applies⟩
      rw [fields_check]
      exact Fields.context_of_judgment? hj
    · have hp : Premise.Formed ⟨j, (n.check k).asPremise.2⟩ :=
        formed_of_asPremise (fun _ _ => fits_of_check) (Prod.ext hj rfl)
      obtain ⟨-, hs, hty⟩ := hp.of_cons hcons
      exact ⟨hs.unbind_eq_ok, hs.canShift, hty.canShift⟩

/-- A function whose domain has a name of its own for the type variable of the context. -/
def renamedDomain : RuleTree :=
  ⟨"X", "λx: A. x", "A → X", .abs, [⟨"X, x: A", "x", "X", .var, []⟩]⟩

/-- The body requires the name to be the type variable, which has another index there. -/
theorem check_staysInScope_renamedDomain :
    ∃ c j, (renamedDomain.check .systemF).at? [0] = some c ∧
      c.outcome = .ok [("A", .var 1 2)] ∧ c.asPremise.1 = some j ∧
      j.context = [⟨"x", .var (.name "A")⟩, ⟨"X", .tyVar⟩] ∧ (Ty.var 1 2).InScope j.context ∧
      unbind 0 c.asPremise.2 = .ok [("A", .var 0 1)] ∧ j.ty.canShift (-1) = true ∧
      (renamedDomain.check .systemF).outcome = .ok [("A", .var 0 1)] := by
  let n : RuleTree := ⟨"X, x: A", "x", "X", .var, []⟩
  let j : Judgment := ⟨[⟨"x", .var (.name "A")⟩, ⟨"X", .tyVar⟩], .var ⟨1, 1⟩ 0 2, .var 1 2⟩
  have hopen : renamedDomain.blocksAbove [0] = false := by decide +kernel
  have hat : (renamedDomain.check .systemF).at? [0] = some (n.check .systemF) := by
    rw [at?_check, hopen]
    rfl
  have hj : (n.check .systemF).fields.judgment? = some j := by
    rw [fields_check, Fields.judgment?_eq_some_iff, Fields.judgment_parse_eq_ok_iff]
    decide +kernel
  have hok : (n.check .systemF).outcome = .ok [("A", .var 1 2)] := by decide +kernel
  obtain ⟨hscope, hleave⟩ := check_staysInScope .systemF renamedDomain hat
  obtain ⟨Γ, hΓ, hs, -⟩ := hscope _ hok
  obtain rfl : j.context = Γ := Except.ok.inj ((Fields.context_of_judgment? hj).symm.trans hΓ)
  obtain ⟨hunbind, -, hty⟩ := hleave j "x" (.name "A") [⟨"X", .tyVar⟩] hj rfl
  refine ⟨_, j, hat, hok, hj, rfl, hs ("A", .var 1 2) (by simp), ?_, hty, by decide +kernel⟩
  rw [hunbind, Checked.asPremise, hok]
  rfl

end RuleTree

end LambdaTyping
