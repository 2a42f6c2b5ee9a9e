import Mathlib
import LambdaTyping.Proofs.SystemF
import LambdaTyping.Proofs.CheckedTrees
import LambdaTyping.Proofs.PrincipalUnifiers

/-!
# The rule checks of System F

Equations of System F are solved rigidly, so a step of a check that succeeds
extends the substitution by a most general unifier. Here it is said what a step
adds to what is known. Everything that is known stays true when the substitution
is extended, since it says that types are equal under it.
-/
namespace LambdaTyping

/-- The types in the term are formed, and its variables are in scope. -/
def Term.FormedIn : List Kind → Term → Prop
  | ks, var _ i n => n = ks.length ∧ i < ks.length
  | _, const .. => True
  | ks, abs _ _ ty t => (∀ a ∈ ty, a.FormedIn ks) ∧ t.FormedIn (.term :: ks)
  | ks, app _ t u => t.FormedIn ks ∧ u.FormedIn ks
  | ks, ite _ c t e => c.FormedIn ks ∧ t.FormedIn ks ∧ e.FormedIn ks
  | ks, tyAbs _ _ t => t.FormedIn (.type :: ks)
  | ks, tyApp _ t ty => t.FormedIn ks ∧ ty.FormedIn ks
  | ks, letIn _ _ e t => e.FormedIn ks ∧ t.FormedIn (.term :: ks)

theorem Term.FormedIn.wellScoped {ks : List Kind} {t : Term} (h : t.FormedIn ks) :
    t.WellScoped ks.length := by
  induction t generalizing ks with
  | var p i n => exact h
  | const p b => trivial
  | abs p x ty t ih => exact ⟨fun a ha => (h.1 a ha).wellScoped, ih h.2⟩
  | app p t u iht ihu => exact ⟨iht h.1, ihu h.2⟩
  | ite p c t e ihc iht ihe => exact ⟨ihc h.1, iht h.2.1, ihe h.2.2⟩
  | tyAbs p x t ih => exact ih h
  | tyApp p t ty ih => exact ⟨ih h.1, h.2.wellScoped⟩
  | letIn p x e t ihe iht => exact ⟨ihe h.1, iht h.2⟩

theorem Term.formedIn_resolve {sc : Scope} {u : Surface.Term} {t : Term}
    (h : u.resolve sc = .ok t) : t.FormedIn (sc.map Prod.snd) := by
  induction u generalizing sc t with
  | var p x =>
    simp only [Surface.Term.resolve] at h
    split at h
    · rename_i i hi
      cases h
      have hlt := Scope.index?_lt_length hi
      exact ⟨(List.length_map _).symm, by rwa [List.length_map]⟩
    · cases h
  | const p b => cases h; trivial
  | abs p x ty u ih =>
    obtain ⟨t, ht, h⟩ := bind_eq_ok_iff.mp h
    cases h
    refine ⟨fun a ha => ?_, ih ht⟩
    obtain ⟨a, -, rfl⟩ := Option.map_eq_some_iff.mp ha
    exact Ty.formedIn_resolve sc a
  | app p u v ihu ihv =>
    obtain ⟨t₁, h₁, h⟩ := bind_eq_ok_iff.mp h
    obtain ⟨t₂, h₂, h⟩ := bind_eq_ok_iff.mp h
    cases h
    exact ⟨ihu h₁, ihv h₂⟩
  | ite p c u v ihc ihu ihv =>
    obtain ⟨t₁, h₁, h⟩ := bind_eq_ok_iff.mp h
    obtain ⟨t₂, h₂, h⟩ := bind_eq_ok_iff.mp h
    obtain ⟨t₃, h₃, h⟩ := bind_eq_ok_iff.mp h
    cases h
    exact ⟨ihc h₁, ihu h₂, ihv h₃⟩
  | tyAbs p x u ih =>
    obtain ⟨t, ht, h⟩ := bind_eq_ok_iff.mp h
    cases h
    exact @ih (sc.push (x, .type)) _ ht
  | tyApp p u ty ih =>
    obtain ⟨t, ht, h⟩ := bind_eq_ok_iff.mp h
    cases h
    exact ⟨ih ht, Ty.formedIn_resolve sc ty⟩
  | letIn p x u v ihu ihv =>
    obtain ⟨t₁, h₁, h⟩ := bind_eq_ok_iff.mp h
    obtain ⟨t₂, h₂, h⟩ := bind_eq_ok_iff.mp h
    cases h
    exact ⟨ihu h₁, ihv h₂⟩

/-- All types of the judgment are formed, and its variables are in scope. -/
structure Judgment.Formed (j : Judgment) : Prop where
  context : j.context.Formed
  term : j.term.FormedIn j.context.kinds
  ty : j.ty.FormedIn j.context.kinds

theorem Scope.map_snd_ofContext (Γ : Context) : (Scope.ofContext Γ).map Prod.snd = Γ.kinds := by
  rw [Scope.ofContext, List.map_map]
  rfl

theorem RuleTree.formed_of_judgment? {t : RuleTree} {j : Judgment} (h : t.judgment? = some j) :
    j.Formed := by
  obtain ⟨hΓ, ht, hty⟩ :=
    Fields.judgment_parse_eq_ok_iff.mp (Fields.judgment?_eq_some_iff.mp h)
  refine ⟨Context.formed_of_isResolved (Context.isResolved_of_parse hΓ), ?_, ?_⟩
  · unfold Term.parse at ht
    split at ht
    · split at ht
      · cases ht
        rename_i hres
        rw [← Scope.map_snd_ofContext]
        exact Term.formedIn_resolve hres
      · cases ht
    · cases ht
  · unfold Ty.parse at hty
    split at hty
    · rw [← Except.ok.inj hty, ← Scope.map_snd_ofContext]
      exact Ty.formedIn_resolve _ _
    · cases hty

/-- What is known of the substitution of a check in System F: it is solved, by types that are formed
in the context of the conclusion, and the types of that context stay in scope under it. -/
structure Conclusion.Admissible (c : Conclusion) (k : Solution) : Prop where
  formed : k.subst.FormedIn c.context.kinds
  solved : k.subst.Solved
  applies : ∃ Δ, c.context.apply k.subst = .ok Δ

/-- From `k` to `k'` the substitution was extended so that `P` holds under it. -/
structure Conclusion.Reaches (c : Conclusion) (k : Solution) (P : (String → Ty) → Prop)
    (k' : Solution) : Prop where
  admissible : c.Admissible k'
  supply : k'.supply = k.supply
  extended : ∃ s, k'.subst = s ++ k.subst
  holds : P k'.subst.image

/-- If the step succeeds, it reaches a substitution under which `P` holds. -/
def Yields {ε : Type} (c : Conclusion) (k : Solution) (P : (String → Ty) → Prop)
    (r : Except ε Solution) : Prop := ∀ k', r = .ok k' → c.Reaches k P k'

/-- The property stays true when the types that stand for names are changed further. -/
def Stable (P : (String → Ty) → Prop) : Prop := ∀ θ η, P θ → P fun x => (θ x).mapNames η

variable {P Q : (String → Ty) → Prop}

theorem Stable.and (hP : Stable P) (hQ : Stable Q) : Stable fun θ => P θ ∧ Q θ :=
  fun θ η h => ⟨hP θ η h.1, hQ θ η h.2⟩

theorem stable_const (p : Prop) : Stable fun _ => p := fun _ _ h => h

theorem stable_unifies (a b : Ty) : Stable fun θ => Unifies θ a b := fun θ η h => by
  change (a.mapNames _).erase = (b.mapNames _).erase
  rw [← Ty.mapNames_mapNames, ← Ty.mapNames_mapNames]
  exact Ty.erase_mapNames_eq h η

theorem stable_holds (s : Subst) : Stable fun θ => s.Holds θ :=
  fun θ η h b hb => stable_unifies _ _ θ η (h b hb)

theorem stable_equalUnder (Γ Δ : Context) : Stable fun θ => Γ.EqualUnder θ Δ :=
  fun θ η h i a b ha hb => stable_unifies a b θ η (h i a b ha hb)

theorem unifies_image_append_iff {s r : Subst} {a b : Ty} :
    Unifies (Subst.image (s ++ r)) a b ↔ Unifies s.image (r.apply a) (r.apply b) := by
  simp only [Unifies, Subst.image_append, ← Ty.mapNames_mapNames, Subst.apply_eq_mapNames]

theorem Stable.append (hP : Stable P) {r : Subst} (h : P r.image) (s : Subst) :
    P (Subst.image (s ++ r)) := by
  rw [Subst.image_append]
  exact hP _ _ h

theorem Conclusion.Reaches.trans {c : Conclusion} {k k' k'' : Solution} (h : c.Reaches k P k')
    (hP : Stable P) (h' : c.Reaches k' Q k'') : c.Reaches k (fun θ => P θ ∧ Q θ) k'' := by
  obtain ⟨s, hs⟩ := h.extended
  obtain ⟨s', hs'⟩ := h'.extended
  refine ⟨h'.admissible, h'.supply.trans h.supply, ⟨s' ++ s, ?_⟩, ?_, h'.holds⟩
  · rw [hs', hs, List.append_assoc]
  · rw [hs']
    exact hP.append h.holds s'

theorem Conclusion.Reaches.mono {c : Conclusion} {k k' : Solution} (h : c.Reaches k P k')
    (hPQ : ∀ θ, P θ → Q θ) : c.Reaches k Q k' :=
  ⟨h.admissible, h.supply, h.extended, hPQ _ h.holds⟩

theorem Conclusion.Reaches.refl {c : Conclusion} {k : Solution} (hk : c.Admissible k)
    (hP : P k.subst.image) : c.Reaches k P k := ⟨hk, rfl, ⟨[], rfl⟩, hP⟩

namespace Yields

variable {ε ε' : Type} {c : Conclusion} {k : Solution} {r : Except ε Solution}

theorem mono (h : Yields c k P r) (hPQ : ∀ θ, P θ → Q θ) : Yields c k Q r :=
  fun k' hk' => (h k' hk').mono hPQ

theorem mapError (h : Yields c k P r) (f : ε → ε') : Yields c k P (r.mapError f) :=
  fun k' hk' => h k' (mapError_eq_ok_iff.mp hk')

theorem refl (hk : c.Admissible k) (hP : P k.subst.image) : Yields (ε := ε) c k P (.ok k) := by
  intro k' hk'
  cases hk'
  exact .refl hk hP

/-- Steps one after the other. -/
theorem bind {f : Solution → Except ε Solution} (h : Yields c k P r) (hP : Stable P)
    (hf : ∀ k', c.Admissible k' → P k'.subst.image → Yields c k' Q (f k')) :
    Yields c k (fun θ => P θ ∧ Q θ) (r >>= f) := by
  intro k'' hk''
  obtain ⟨k', hk', hk''⟩ := bind_eq_ok_iff.mp hk''
  have hreach := h k' hk'
  exact hreach.trans hP (hf k' hreach.admissible hreach.holds k'' hk'')

/-- A test that says `p` and leaves the substitution alone. -/
theorem guard {α : Type} {p : Prop} {m : Except ε α} {f : α → Except ε Solution}
    (hm : ∀ a, m = .ok a → p ∧ Yields c k Q (f a)) : Yields c k (fun θ => p ∧ Q θ) (m >>= f) := by
  intro k' hk'
  obtain ⟨a, ha, hk'⟩ := bind_eq_ok_iff.mp hk'
  obtain ⟨hp, hf⟩ := hm a ha
  exact (hf k' hk').mono fun θ hQ => ⟨hp, hQ⟩

end Yields

namespace Conclusion

variable {c : Conclusion} {k : Solution}

theorem solve_systemF (hc : c.calculus = .systemF) (a b : Ty) (σ : NameSupply) :
    c.solve a b σ = (unifyRigid a b).map (·, σ) := by rw [solve, hc]

/-- The three ways in which an equation of System F ends. -/
theorem equate_eq_ok (hc : c.calculus = .systemF) {a b : Ty} {k' : Solution}
    (h : c.equate a b k = .ok k') :
    (k.subst.apply a).alphaEq (k.subst.apply b) = true ∧ k' = k ∨
      ∃ s, unifyRigid (k.subst.apply a) (k.subst.apply b) = .ok s ∧
        (∃ Δ, c.context.apply (s ++ k.subst) = .ok Δ) ∧ k' = ⟨k.supply, s ++ k.subst⟩ := by
  simp only [equate, solve_systemF hc] at h
  split at h
  · rename_i halpha
    cases h
    exact .inl ⟨halpha, rfl⟩
  · obtain ⟨⟨s, σ⟩, hs, h⟩ := bind_eq_ok_iff.mp h
    obtain ⟨Δ, hΔ, h⟩ := bind_eq_ok_iff.mp h
    cases h
    cases hr : unifyRigid (k.subst.apply a) (k.subst.apply b) with
    | error e => simp [hr, Except.map] at hs
    | ok r =>
      simp only [hr, Except.map, Except.ok.injEq, Prod.mk.injEq] at hs
      obtain ⟨rfl, rfl⟩ := hs
      exact .inr ⟨r, rfl, ⟨Δ, hΔ⟩, rfl⟩

theorem yields_equate (hc : c.calculus = .systemF) (hk : c.Admissible k) {a b : Ty}
    (ha : a.FormedIn c.context.kinds) (hb : b.FormedIn c.context.kinds) :
    Yields c k (fun θ => Unifies θ a b) (c.equate a b k) := by
  intro k' h
  have ha' := hk.formed.apply ha
  have hb' := hk.formed.apply hb
  rcases equate_eq_ok hc h with ⟨halpha, rfl⟩ | ⟨s, hs, happlies, rfl⟩
  · refine ⟨hk, rfl, ⟨[], rfl⟩, ?_⟩
    change (a.mapNames _).erase = (b.mapNames _).erase
    rw [← Subst.apply_eq_mapNames, ← Subst.apply_eq_mapNames]
    exact (Ty.alphaEq_iff_erase ha'.wellScoped hb'.wellScoped).mp halpha
  · have hmgu := isMgu_of_unifyRigid ha'.wellScoped hb'.wellScoped hs
    have hformed := Subst.FormedIn.unifyRigid ha' hb' hs
    have hsolved : Subst.Solved (s ++ k.subst) := by
      refine hmgu.solved.append hk.solved fun x hx hd => ?_
      rcases hmgu.names x hx with hx | hx
      · exact hk.solved.notMem_freeNames_apply hd a hx
      · exact hk.solved.notMem_freeNames_apply hd b hx
    refine ⟨⟨hformed.append hk.formed, hsolved, happlies⟩, rfl, ⟨s, rfl⟩, ?_⟩
    have hunifies : Unifies s.image (k.subst.apply a) (k.subst.apply b) :=
      (hmgu.unifies_iff s.image fun x => (hformed.image x).wellScoped).mpr hmgu.solved.holds
    exact unifies_image_append_iff.mpr hunifies

theorem yields_unify (hc : c.calculus = .systemF) (hk : c.Admissible k) {a b : Ty}
    (ha : a.FormedIn c.context.kinds) (hb : b.FormedIn c.context.kinds) :
    Yields c k (fun θ => Unifies θ a b) (c.unify a b k) :=
  (yields_equate hc hk ha hb).mapError RuleError.unify

theorem yields_adopt (hc : c.calculus = .systemF) (hk : c.Admissible k) (i : Nat) {s : Subst}
    (hs : s.FormedIn c.context.kinds) : Yields c k (fun θ => s.Holds θ) (c.adopt i s k) := by
  induction s with
  | nil => exact .refl hk fun b hb => by simp at hb
  | cons b s ih =>
    obtain ⟨x, ty⟩ := b
    have hty : ty.FormedIn c.context.kinds := hs (x, ty) (by simp)
    refine ((ih fun b hb => hs b (by simp [hb])).bind (stable_holds s) fun k' hk' _ =>
      (yields_equate hc hk' (a := .name x) trivial hty).mapError _).mono fun θ h => ?_
    exact List.forall_mem_cons.mpr ⟨h.2, h.1⟩

theorem yields_adoptAll (hc : c.calculus = .systemF) (hk : c.Admissible k) (i : Nat)
    {ps : List Premise} (hps : ∀ p ∈ ps, p.subst.FormedIn c.context.kinds) :
    Yields c k (fun θ => ∀ p ∈ ps, p.subst.Holds θ) (c.adoptAll i ps k) := by
  induction ps generalizing k i with
  | nil => exact .refl hk fun p hp => by simp at hp
  | cons p ps ih =>
    rw [List.forall_mem_cons] at hps
    refine ((yields_adopt hc hk i hps.1).bind (stable_holds p.subst) fun k' hk' _ =>
      ih hk' (i + 1) hps.2).mono fun θ h => ?_
    exact List.forall_mem_cons.mpr h

theorem sameKinds_of_equateBelow {Γ₀ Δ₀ Γ Δ : Context} {d : Nat} {k' : Solution}
    (hΓ : Γ₀.drop d = Γ) (hΔ : Δ₀.drop d = Δ)
    (h : c.equateBelow Γ₀ Δ₀ d Γ Δ k = some k') : Γ.SameKinds Δ := by
  induction Γ generalizing Δ d k with
  | nil =>
    cases Δ with
    | nil => exact .nil
    | cons f Δ => cases h
  | cons e Γ ih =>
    cases Δ with
    | nil => cases h
    | cons f Δ =>
      obtain ⟨x, b₁⟩ := e
      obtain ⟨y, b₂⟩ := f
      obtain ⟨hΓ', hget₁⟩ := getType?_of_drop hΓ
      obtain ⟨hΔ', hget₂⟩ := getType?_of_drop hΔ
      cases hkind : b₁.sameKind b₂ with
      | false =>
        rw [equateBelow_of_sameKind_eq_false hkind] at h
        cases h
      | true =>
        refine sameKinds_cons_iff.mpr ⟨hkind, ?_⟩
        rcases hget₁ with ⟨a₁, rfl, hA⟩ | ⟨hb₁, -⟩
        · rcases hget₂ with ⟨a₂, rfl, hB⟩ | ⟨hb₂, -⟩
          · rw [equateBelow_of_typed hA hB] at h
            split at h
            · exact ih hΓ' hΔ' h
            · cases h
          · cases b₂ with
            | var a₂ => exact absurd rfl (hb₂ a₂)
            | _ => simp [Binding.sameKind] at hkind
        · rw [equateBelow_of_untyped hkind hb₁] at h
          exact ih hΓ' hΔ' h

theorem reaches_equateBelow (hc : c.calculus = .systemF) (hk : c.Admissible k) {Γ₀ Δ₀ : Context}
    (hΓ₀ : ∀ i a, Γ₀.getType? i = some a → a.FormedIn c.context.kinds)
    (hΔ₀ : ∀ i a, Δ₀.getType? i = some a → a.FormedIn c.context.kinds) {d : Nat} {Γ Δ : Context}
    (hΓ : Γ₀.drop d = Γ) (hΔ : Δ₀.drop d = Δ) {k' : Solution}
    (h : c.equateBelow Γ₀ Δ₀ d Γ Δ k = some k') :
    c.Reaches k (fun θ => ∀ j, Γ₀.EqualAt θ Δ₀ (d + j)) k' := by
  induction Γ generalizing Δ d k with
  | nil =>
    cases Δ with
    | nil =>
      cases h
      refine .refl hk fun j a b ha _ => ?_
      have hnone : Γ₀[d + j]? = none := by
        rw [List.getElem?_eq_none_iff]
        exact le_trans (List.drop_eq_nil_iff.mp hΓ) (Nat.le_add_right d j)
      simp [Context.getType?, hnone] at ha
    | cons f Δ => cases h
  | cons e Γ ih =>
    cases Δ with
    | nil => cases h
    | cons f Δ =>
      obtain ⟨x, b₁⟩ := e
      obtain ⟨y, b₂⟩ := f
      obtain ⟨hkind, -⟩ := sameKinds_cons_iff.mp (sameKinds_of_equateBelow hΓ hΔ h)
      obtain ⟨hΓ', hget₁⟩ := getType?_of_drop hΓ
      obtain ⟨hΔ', hget₂⟩ := getType?_of_drop hΔ
      have hsplit := fun θ => forall_add_iff (p := fun i => Γ₀.EqualAt θ Δ₀ i) (d := d)
      rcases hget₁ with ⟨a₁, rfl, hA⟩ | ⟨hb₁, hA⟩
      · rcases hget₂ with ⟨a₂, rfl, hB⟩ | ⟨hb₂, -⟩
        · rw [equateBelow_of_typed hA hB] at h
          split at h
          · rename_i k₁ hk₁
            have hhead := yields_equate hc hk (hΓ₀ d _ hA) (hΔ₀ d _ hB) k₁ hk₁
            have hrest := ih hhead.admissible hΓ' hΔ' h
            refine (hhead.trans (stable_unifies _ _) hrest).mono fun θ hθ => ?_
            refine (hsplit θ).mpr ⟨fun a b ha hb => ?_, hθ.2⟩
            rw [hA] at ha
            rw [hB] at hb
            cases ha
            cases hb
            exact hθ.1
          · cases h
        · cases b₂ with
          | var a₂ => exact absurd rfl (hb₂ a₂)
          | _ => simp [Binding.sameKind] at hkind
      · rw [equateBelow_of_untyped hkind hb₁] at h
        refine (ih hk hΓ' hΔ' h).mono fun θ hθ => (hsplit θ).mpr ⟨?_, hθ⟩
        exact fun a b ha => by simp [hA] at ha

theorem yields_sameContext (hc : c.calculus = .systemF) (hk : c.Admissible k)
    (hcontext : c.context.Formed) (i : Nat) {Γ : Context} (hΓ : Γ.Formed) :
    Yields c k (fun θ => Γ.SameKinds c.context ∧ Γ.EqualUnder θ c.context)
      (c.sameContext i Γ k) := by
  intro k' h
  unfold sameContext at h
  split at h
  · cases h
  · split at h
    · rename_i k₁ hk₁
      cases h
      have hkinds : Γ.SameKinds c.context := sameKinds_of_equateBelow (d := 0) rfl rfl hk₁
      have hreach := reaches_equateBelow hc hk (d := 0)
        (fun i a ha => by rw [← hkinds.kinds_eq]; exact hΓ.getType? ha)
        (fun i a ha => hcontext.getType? ha) rfl rfl hk₁
      refine hreach.mono fun θ hθ => ⟨hkinds, fun i => ?_⟩
      simpa using hθ i
    · cases h

theorem stable_sameContext (Γ Δ : Context) :
    Stable fun θ => Γ.SameKinds Δ ∧ Γ.EqualUnder θ Δ :=
  (stable_const _).and (stable_equalUnder Γ Δ)

theorem sameTerm_eq_ok {i : Nat} {t u : Term} {a : Unit} (h : sameTerm i t u = .ok a) :
    t.alphaEq u = true := by
  unfold sameTerm at h
  split at h
  · assumption
  · cases h

theorem yields_samePremises (hc : c.calculus = .systemF) (hk : c.Admissible k)
    (hcontext : c.context.Formed) (i : Nat) {ps : List Premise} {ts : List Term}
    (hps : ∀ p ∈ ps, p.judgment.context.Formed) :
    Yields c k (fun θ => PremisesMatch θ c.context ps ts) (c.samePremises i ps ts k) := by
  induction ps generalizing ts k i with
  | nil => exact .refl hk trivial
  | cons p ps ih =>
    cases ts with
    | nil => exact .refl hk trivial
    | cons t ts =>
      rw [List.forall_mem_cons] at hps
      have hstep : Yields c k (fun θ => (p.judgment.context.SameKinds c.context ∧
          p.judgment.context.EqualUnder θ c.context) ∧ p.judgment.term.alphaEq t = true ∧
          PremisesMatch θ c.context ps ts) (c.samePremises i (p :: ps) (t :: ts) k) :=
        (yields_sameContext hc hk hcontext i hps.1).bind (stable_sameContext _ _) fun k' hk' _ =>
          Yields.guard fun _ hterm => ⟨sameTerm_eq_ok hterm, ih hk' (i + 1) hps.2⟩
      refine hstep.mono ?_
      rintro θ ⟨⟨hkinds, hequal⟩, hterm, hrest⟩
      exact ⟨⟨⟨hkinds, hterm⟩, hequal⟩, hrest⟩

end Conclusion

/-- The judgment of the premise is formed, and it holds under formed types. -/
structure Premise.Formed (p : Premise) : Prop where
  judgment : p.judgment.Formed
  subst : p.subst.FormedIn p.judgment.context.kinds

theorem stable_premisesMatch (Γ : Context) (ps : List Premise) (ts : List Term) :
    Stable fun θ => PremisesMatch θ Γ ps ts := by
  induction ps generalizing ts with
  | nil => exact stable_const True
  | cons p ps ih =>
    cases ts with
    | nil => exact stable_const True
    | cons t ts => exact ((stable_const _).and (stable_equalUnder _ _)).and (ih ts)

theorem stable_forall_holds (ps : List Premise) :
    Stable fun θ => ∀ p ∈ ps, p.subst.Holds θ :=
  fun θ η h p hp => stable_holds p.subst θ η (h p hp)

theorem kinds_eq_of_premisesMatch {θ : String → Ty} {Γ : Context} {ps : List Premise}
    {ts : List Term} (hlen : ps.length ≤ ts.length) (h : PremisesMatch θ Γ ps ts) :
    ∀ p ∈ ps, p.judgment.context.kinds = Γ.kinds := by
  induction ps generalizing ts with
  | nil => simp
  | cons p ps ih =>
    cases ts with
    | nil => simp at hlen
    | cons t ts =>
      exact List.forall_mem_cons.mpr ⟨h.1.1.1.kinds_eq, ih (by simpa using hlen) h.2⟩

/-- A type leaves the scope of a term variable, if it can be unshifted. -/
theorem Ty.FormedIn.of_unshift? {ks : List Kind} {t u : Ty} (h : t.FormedIn (.term :: ks))
    (hu : t.unshift? 1 = some u) : u.FormedIn ks ∧ u.shift 1 = t := by
  obtain ⟨hdown, hback⟩ := h.shift_neg_one
  have hut : u.shift 1 = t := h.wellScoped.shift_of_unshift? (by simp) hu
  obtain rfl : u = t.shift (-1) := Ty.shift_one_injective (hut.trans hback.symm)
  exact ⟨hdown, hback⟩

theorem unbind_eq_ok {ks : List Kind} {i : Nat} {s r : Subst} (hs : s.FormedIn (.term :: ks))
    (h : unbind i s = .ok r) : r.FormedIn ks ∧ r.shift 1 = s := by
  have hr : s.unshift? 1 = some r := by
    unfold unbind at h
    split at h
    · cases h; assumption
    · cases h
  clear h
  induction s generalizing r with
  | nil =>
    cases hr
    exact ⟨fun b hb => by simp at hb, rfl⟩
  | cons b s ih =>
    obtain ⟨x, t⟩ := b
    simp only [Subst.unshift?, Option.bind_eq_bind, Option.bind_eq_some_iff, Option.pure_def,
      Option.some.injEq] at hr
    obtain ⟨t', ht', s', hs', rfl⟩ := hr
    obtain ⟨hformed, hback⟩ := Ty.FormedIn.of_unshift? (hs (x, t) (by simp)) ht'
    obtain ⟨hformeds, hbacks⟩ := ih (fun b hb => hs b (by simp [hb])) hs'
    refine ⟨List.forall_mem_cons.mpr ⟨hformed, hformeds⟩, ?_⟩
    rw [← hbacks, Subst.shift, List.map_cons, hback]
    rfl

theorem Stable.liftMap (hP : Stable P) : Stable fun θ => P (liftMap θ) := fun θ η h => by
  have hη : (LambdaTyping.liftMap fun x => (θ x).mapNames η) =
      fun x => (LambdaTyping.liftMap θ x).mapNames (LambdaTyping.liftMap η) :=
    funext fun x => (Ty.mapNames_liftMap_shift η (θ x)).symm
  change P (LambdaTyping.liftMap fun x => (θ x).mapNames η)
  rw [hη]
  exact hP _ _ h

namespace Conclusion

variable {c : Conclusion} {k : Solution}

theorem adoptAll_singleton (c : Conclusion) (i : Nat) (p : Premise) (k : Solution) :
    c.adoptAll i [p] k = c.adopt i p.subst k := by
  rw [adoptAll]
  cases c.adopt i p.subst k <;> rfl

/-- The substitution of a premise is taken out of the scope of a term variable and adopted. -/
theorem yields_adopt_unbind (hc : c.calculus = .systemF) (hk : c.Admissible k) (i : Nat) {s : Subst}
    (hs : s.FormedIn (.term :: c.context.kinds)) :
    Yields c k (fun θ => s.Holds (liftMap θ)) (unbind i s >>= fun s => c.adopt i s k) := by
  intro k' hbind
  obtain ⟨r, hr, hk'⟩ := bind_eq_ok_iff.mp hbind
  obtain ⟨hformed, rfl⟩ := unbind_eq_ok hs hr
  exact (yields_adopt hc hk i hformed k' hk').mono fun θ hθ => Subst.holds_shift_iff.mpr hθ

theorem Admissible.unifies_apply (hk : c.Admissible k) (t : Ty) :
    Unifies k.subst.image t (k.subst.apply t) := by
  rw [Unifies, ← Subst.apply_eq_mapNames, ← Subst.apply_eq_mapNames, hk.solved.apply_apply]

section Checks

variable (hc : c.calculus = .systemF) (hk : c.Admissible k) (hcontext : c.context.Formed)

include hc hk hcontext

theorem yields_checkVar {i : Nat} {ty : Ty} (hty : ty.FormedIn c.context.kinds) :
    Yields c k (fun θ => ∃ a, c.context.getType? i = some a ∧ Unifies θ a ty)
      (c.checkVar i ty k) := by
  unfold checkVar
  split
  · intro k' h
    cases h
  · rename_i a ha
    rw [hc]
    exact (yields_unify hc hk (hcontext.getType? ha) hty).mono fun θ h => ⟨a, ha, h⟩

/-- Premises in the context of the conclusion, and the substitutions under which they hold. -/
theorem yields_premises {ps : List Premise} {ts : List Term} (hlen : ps.length ≤ ts.length)
    (hps : ∀ p ∈ ps, p.Formed) {f : Solution → Except RuleError Solution}
    (hf : ∀ k', c.Admissible k' → (∀ p ∈ ps, p.judgment.ty.FormedIn c.context.kinds) →
      Yields c k' Q (f k')) :
    Yields c k (fun θ => PremisesMatch θ c.context ps ts ∧ (∀ p ∈ ps, p.subst.Holds θ) ∧ Q θ)
      (c.samePremises 0 ps ts k >>= fun k => c.adoptAll 0 ps k >>= f) := by
  have hcontexts : ∀ p ∈ ps, p.judgment.context.Formed := fun p hp => (hps p hp).judgment.context
  refine (yields_samePremises hc hk hcontext 0 hcontexts).bind (stable_premisesMatch _ _ _)
    fun k₁ hk₁ hmatch => ?_
  have hkinds := kinds_eq_of_premisesMatch hlen hmatch
  have hsubsts : ∀ p ∈ ps, p.subst.FormedIn c.context.kinds := fun p hp => by
    rw [← hkinds p hp]
    exact (hps p hp).subst
  refine (yields_adoptAll hc hk₁ 0 hsubsts).bind (stable_forall_holds ps) fun k₂ hk₂ _ => ?_
  refine hf k₂ hk₂ fun p hp => ?_
  rw [← hkinds p hp]
  exact (hps p hp).judgment.ty

theorem yields_checkApp {t u : Term} {ty : Ty} {p q : Premise} (hps : ∀ r ∈ [p, q], r.Formed)
    (hty : ty.FormedIn c.context.kinds) :
    Yields c k (fun θ => PremisesMatch θ c.context [p, q] [t, u] ∧
        (∀ r ∈ [p, q], r.subst.Holds θ) ∧ Unifies θ p.judgment.ty (.arr q.judgment.ty ty))
      (c.checkApp t u ty p q k) :=
  yields_premises hc hk hcontext (by simp) hps fun _ hk' htypes =>
    yields_unify hc hk' (htypes p (by simp)) ⟨htypes q (by simp), hty⟩

theorem yields_checkIte {i t e : Term} {ty : Ty} {p q r : Premise}
    (hps : ∀ s ∈ [p, q, r], s.Formed) (hty : ty.FormedIn c.context.kinds) :
    Yields c k (fun θ => PremisesMatch θ c.context [p, q, r] [i, t, e] ∧
        (∀ s ∈ [p, q, r], s.subst.Holds θ) ∧ Unifies θ p.judgment.ty .bool ∧
        Unifies θ q.judgment.ty ty ∧ Unifies θ r.judgment.ty ty)
      (c.checkIte i t e ty p q r k) := by
  refine yields_premises hc hk hcontext (by simp) hps fun _ hk₁ htypes => ?_
  refine (yields_unify hc hk₁ (b := .bool) (htypes p (by simp)) trivial).bind (stable_unifies _ _)
    fun _ hk₂ _ => ?_
  refine (yields_unify hc hk₂ (htypes q (by simp)) hty).bind (stable_unifies _ _) fun _ hk₃ _ => ?_
  exact yields_unify hc hk₃ (htypes r (by simp)) hty

theorem yields_checkTyApp {t : Term} {arg ty : Ty} {p : Premise} (hp : p.Formed)
    (harg : arg.FormedIn c.context.kinds) (hty : ty.FormedIn c.context.kinds) :
    Yields c k (fun θ => PremisesMatch θ c.context [p] [t] ∧ (∀ r ∈ [p], r.subst.Holds θ) ∧
        ∃ y a, Unifies θ p.judgment.ty (.all y a) ∧ Unifies θ (a.substTop arg) ty)
      (c.checkTyApp t arg ty p k) := by
  simp only [checkTyApp, ← adoptAll_singleton]
  refine yields_premises hc hk hcontext (by simp) (by simpa using hp) fun k₁ hk₁ htypes => ?_
  have happly := hk₁.unifies_apply p.judgment.ty
  have hformed := hk₁.formed.apply (htypes p (by simp))
  split
  · rename_i y a hall
    rw [hall] at happly hformed
    intro k₂ hk₂
    have hreach := yields_unify hc hk₁ (hformed.substTop harg) hty k₂ hk₂
    exact ((Reaches.refl hk₁ happly).trans (stable_unifies _ _) hreach).mono
      fun θ hθ => ⟨y, a, hθ⟩
  · intro k₂ hk₂
    cases hk₂

theorem yields_checkAbs {a' : Ty} {t : Term} {ty : Ty} {p : Premise} {x : String} {a : Ty}
    {Δ : Context} (heq : p.judgment.context = ⟨x, .var a⟩ :: Δ) (hp : p.Formed)
    (ha' : a'.FormedIn c.context.kinds) (hty : ty.FormedIn c.context.kinds) :
    Yields c k (fun θ => (Context.SameKinds Δ c.context ∧ Context.EqualUnder θ Δ c.context) ∧
        p.judgment.term.alphaEq t = true ∧ p.subst.Holds (liftMap θ) ∧ Unifies θ a' a ∧
        Unifies θ ty (.arr a (p.judgment.ty.shift (-1))))
      (c.checkAbs (some a') t ty p k) := by
  have hΔ := hp.judgment.context
  have hb := hp.judgment.ty
  have hs := hp.subst
  rw [heq] at hΔ hb hs
  rw [checkAbs_eq _ t ty heq]
  simp only [absPremise, bind_assoc]
  refine (yields_sameContext hc hk hcontext 0 hΔ.2).bind (stable_sameContext _ _) fun k₁ hk₁ hmatch => ?_
  have hkinds := hmatch.1.kinds_eq
  have ha := hΔ.1 a rfl
  rw [Context.kinds_cons, hkinds] at hb hs
  rw [hkinds] at ha
  refine Yields.guard fun _ hterm => ⟨sameTerm_eq_ok hterm, ?_⟩
  rw [← bind_assoc]
  refine (yields_adopt_unbind hc hk₁ 0 hs).bind (stable_holds p.subst).liftMap fun k₂ hk₂ _ => ?_
  refine (yields_unify hc hk₂ ha' ha).bind (stable_unifies _ _) fun k₃ hk₃ _ => ?_
  exact yields_unify hc hk₃ hty ⟨ha, hb.shift_neg_one.1⟩

theorem yields_checkLet {e t : Term} {ty : Ty} {p q : Premise} {x : String} {a : Ty} {Δ : Context}
    (heq : q.judgment.context = ⟨x, .var a⟩ :: Δ) (hp : p.Formed) (hq : q.Formed)
    (hty : ty.FormedIn c.context.kinds) :
    Yields c k (fun θ => PremisesMatch θ c.context [p] [e] ∧
        (Context.SameKinds Δ c.context ∧ Context.EqualUnder θ Δ c.context) ∧
        q.judgment.term.alphaEq t = true ∧ p.subst.Holds θ ∧ q.subst.Holds (liftMap θ) ∧
        Unifies θ a p.judgment.ty ∧ Unifies θ ty (q.judgment.ty.shift (-1)))
      (c.checkLet e t ty p q k) := by
  have hΔ := hq.judgment.context
  have hb := hq.judgment.ty
  have hs := hq.subst
  have hps : ∀ r ∈ [p], r.judgment.context.Formed := by simpa using hp.judgment.context
  rw [heq] at hΔ hb hs
  rw [checkLet_eq e t ty p heq]
  simp only [letPremises, letScheme, hc, bind_assoc]
  refine (yields_samePremises hc hk hcontext 0 hps).bind (stable_premisesMatch _ _ _)
    fun k₁ hk₁ hmatchp => ?_
  have hkindsp := kinds_eq_of_premisesMatch (by simp) hmatchp p (by simp)
  refine (yields_sameContext hc hk₁ hcontext 1 hΔ.2).bind (stable_sameContext _ _)
    fun k₂ hk₂ hmatch => ?_
  have hkinds := hmatch.1.kinds_eq
  have ha := hΔ.1 a rfl
  rw [Context.kinds_cons, hkinds] at hb hs
  rw [hkinds] at ha
  refine Yields.guard fun _ hterm => ⟨sameTerm_eq_ok hterm, ?_⟩
  refine (yields_adopt hc hk₂ 0 (hkindsp ▸ hp.subst)).bind (stable_holds p.subst) fun k₃ hk₃ _ => ?_
  rw [← bind_assoc]
  refine (yields_adopt_unbind hc hk₃ 1 hs).bind (stable_holds q.subst).liftMap fun k₄ hk₄ _ => ?_
  refine (yields_unify hc hk₄ ha (hkindsp ▸ hp.judgment.ty)).bind (stable_unifies _ _)
    fun k₅ hk₅ _ => ?_
  exact yields_unify hc hk₅ hty hb.shift_neg_one.1

end Checks

/-- The check of a type abstraction from the type of its conclusion on, with `n` for the type
variable. -/
def tyAbsBody (c : Conclusion) (n x : String) (ty b : Ty) (k : Solution) :
    Except RuleError Solution :=
  match k.subst.apply ty with
  | .all _ a => do
    let k ← c.unify (a.openWith n) (b.openWith n) k
    let s ← (keepRigid c.context k.subst n x).mapError .unify
    return ⟨k.supply, s⟩
  | ty => .error (.unify (.forallExpected ty))

theorem checkTyAbs_eq (x : String) (t : Term) (ty : Ty) {p : Premise} {y : String} {Δ : Context}
    (heq : p.judgment.context = ⟨y, .tyVar⟩ :: Δ) :
    c.checkTyAbs x t ty p k = (c.sameContext 0 Δ k >>= fun k => sameTerm 0 p.judgment.term t >>=
      fun _ => c.adopt 0 (p.subst.map fun b => (b.1, b.2.openWith (k.supply.like x).1))
        ⟨(k.supply.like x).2, k.subst⟩ >>= c.tyAbsBody (k.supply.like x).1 x ty p.judgment.ty) := by
  rw [checkTyAbs, heq, extended_cons]
  cases c.sameContext 0 Δ k <;> rfl

theorem checkTyAbs_eq_error (x : String) (t : Term) (ty : Ty) {p : Premise}
    (h : ∀ y Δ, p.judgment.context ≠ ⟨y, .tyVar⟩ :: Δ) :
    ∃ e, c.checkTyAbs x t ty p k = .error e := by
  unfold checkTyAbs
  cases hΓ : p.judgment.context with
  | nil => exact ⟨_, rfl⟩
  | cons e Δ =>
    obtain ⟨y, b⟩ := e
    rw [extended_cons]
    cases c.sameContext 0 Δ k with
    | error err => exact ⟨err, rfl⟩
    | ok k' =>
      cases b with
      | tyVar => exact absurd hΓ (h y Δ)
      | _ => exact ⟨_, rfl⟩

/-- `P` holds under the substitution, which leaves the name `n` alone and keeps it out of the types
of the context. -/
structure ReachesRigid (c : Conclusion) (n : String) (P : (String → Ty) → Prop) (s : Subst) :
    Prop where
  formed : s.FormedIn c.context.kinds
  rigid : s.image n = .name n
  applies : ∃ Δ, c.context.apply s = .ok Δ ∧ n ∉ Δ.freeNames
  holds : P s.image

/-- A name that stands for another one is written for it. -/
theorem keepRigid_eq_ok_iff {Γ : Context} {s r : Subst} {n x : String} :
    keepRigid Γ s n x = .ok r ↔
      (∃ m, s.image n = .name m ∧ r = if m = n then s else Subst.single m (.name n) ++ s) ∧
        ∃ Δ, Γ.apply r = .ok Δ ∧ n ∉ Δ.freeNames := by
  have hlast : ∀ s : Subst, (Γ.apply s >>= fun Δ =>
      if n ∈ Δ.freeNames then .error (.escape x) else pure s) = .ok r ↔
      r = s ∧ ∃ Δ, Γ.apply r = .ok Δ ∧ n ∉ Δ.freeNames := fun s => by
    rw [bind_eq_ok_iff]
    constructor
    · rintro ⟨Δ, hΔ, hs⟩
      split at hs
      · cases hs
      · cases hs
        exact ⟨rfl, Δ, hΔ, ‹_›⟩
    · rintro ⟨rfl, Δ, hΔ, hn⟩
      exact ⟨Δ, hΔ, if_neg hn⟩
  unfold keepRigid
  rw [Subst.image]
  cases s.apply (.name n) with
  | name m =>
    by_cases hm : m = n
    · simp only [hm, ↓reduceIte, Ty.name.injEq, exists_eq_left']
      exact hlast s
    · simp only [hm, ↓reduceIte, Ty.name.injEq, exists_eq_left']
      exact hlast _
  | _ =>
    refine iff_of_false (fun h => by cases h) ?_
    simp

/-- A rigid name is its own image, and no other type is brought in for that. -/
theorem image_of_keepRigid {Γ : Context} {s r : Subst} {n x : String}
    (h : keepRigid Γ s n x = .ok r) :
    r.image n = .name n ∧ ∃ s', (∀ b ∈ s', b.2 = .name n) ∧ r = s' ++ s := by
  obtain ⟨⟨m, hm, rfl⟩, -⟩ := keepRigid_eq_ok_iff.mp h
  split
  · rename_i heq
    exact ⟨by rw [hm, heq], [], by simp, rfl⟩
  · refine ⟨?_, Subst.single m (.name n), by simp [Subst.single], rfl⟩
    rw [Subst.image_append_apply, hm]
    simp [Subst.single, Subst.apply, Ty.substName, Ty.substNameAt]

theorem formedIn_of_keepRigid {Γ : Context} {s r : Subst} {n x : String} (hs : s.FormedIn Γ.kinds)
    (h : keepRigid Γ s n x = .ok r) : r.FormedIn Γ.kinds := by
  obtain ⟨-, s', hs', rfl⟩ := image_of_keepRigid h
  refine Subst.FormedIn.append (fun b hb => ?_) hs
  rw [hs' b hb]
  trivial

theorem reachesRigid_keepRigid (hk : c.Admissible k) (hP : Stable P) (h : P k.subst.image)
    {n x : String} {s : Subst} (hs : keepRigid c.context k.subst n x = .ok s) :
    c.ReachesRigid n P s := by
  have hformed := formedIn_of_keepRigid hk.formed hs
  obtain ⟨hn, s', -, rfl⟩ := image_of_keepRigid hs
  exact ⟨hformed, hn, (keepRigid_eq_ok_iff.mp hs).2, hP.append h s'⟩

theorem reachesRigid_checkTyAbs (hc : c.calculus = .systemF) (hk : c.Admissible k)
    (hcontext : c.context.Formed) {x : String} {t : Term} {ty : Ty} {p : Premise} {y : String}
    {Δ : Context} (heq : p.judgment.context = ⟨y, .tyVar⟩ :: Δ) (hp : p.Formed)
    (hty : ty.FormedIn c.context.kinds) {k' : Solution} (h : c.checkTyAbs x t ty p k = .ok k') :
    ∃ n ∉ k.supply.used, c.ReachesRigid n (fun θ =>
      (Context.SameKinds Δ c.context ∧ Context.EqualUnder θ Δ c.context) ∧
        (p.judgment.term.alphaEq t = true ∧ ∀ b ∈ p.subst, Unifies θ (.name b.1) (b.2.openWith n)) ∧
        ∃ z a, a.FormedIn (.type :: c.context.kinds) ∧ Unifies θ ty (.all z a) ∧
          Unifies θ (a.openWith n) (p.judgment.ty.openWith n)) k'.subst := by
  have hΔ := hp.judgment.context
  have hb := hp.judgment.ty
  have hs := hp.subst
  rw [heq] at hΔ hb hs
  rw [checkTyAbs_eq x t ty heq] at h
  obtain ⟨k₁, hk₁, h⟩ := bind_eq_ok_iff.mp h
  obtain ⟨_, hterm, h⟩ := bind_eq_ok_iff.mp h
  obtain ⟨k₂, hk₂, h⟩ := bind_eq_ok_iff.mp h
  have hsame := yields_sameContext hc hk hcontext 0 hΔ.2 k₁ hk₁
  rw [hsame.supply] at hk₂ h
  rw [Context.kinds_cons, hsame.holds.1.kinds_eq] at hb hs
  refine ⟨(k.supply.like x).1, NameSupply.like_notMem x k.supply, ?_⟩
  generalize (k.supply.like x).1 = n at hk₂ h ⊢
  -- a new supply changes nothing that is known of the substitution
  have hnew : c.Admissible ⟨(k.supply.like x).2, k₁.subst⟩ :=
    ⟨hsame.admissible.formed, hsame.admissible.solved, hsame.admissible.applies⟩
  have hopened : Subst.FormedIn c.context.kinds (p.subst.map fun b => (b.1, b.2.openWith n)) := by
    rw [Subst.FormedIn, List.forall_mem_map]
    exact fun b hb => (hs b hb).openWith
  have hadopt := (Reaches.refl hnew hsame.holds).trans (stable_sameContext _ _)
    (yields_adopt hc hnew 0 hopened k₂ hk₂)
  have happly := hadopt.admissible.unifies_apply ty
  have hformed := hadopt.admissible.formed.apply hty
  unfold tyAbsBody at h
  split at h
  · rename_i z a hall
    rw [hall] at happly hformed
    obtain ⟨k₃, hk₃, h⟩ := bind_eq_ok_iff.mp h
    obtain ⟨s, hkeep, h⟩ := bind_eq_ok_iff.mp h
    cases h
    have hbody := (Reaches.refl hadopt.admissible happly).trans (stable_unifies _ _)
      (yields_unify hc hadopt.admissible (Ty.FormedIn.openWith hformed) hb.openWith k₃ hk₃)
    have hknown := (stable_sameContext Δ c.context).and
      (stable_holds (p.subst.map fun b => (b.1, b.2.openWith n)))
    have hlast := hadopt.trans hknown hbody
    obtain ⟨hformed', hrigid, happlies, ⟨hmatch, hholds⟩, hty, hbodies⟩ :=
      reachesRigid_keepRigid hlast.admissible
        (hknown.and ((stable_unifies _ _).and (stable_unifies _ _))) hlast.holds
        (mapError_eq_ok_iff.mp hkeep)
    refine ⟨hformed', hrigid, happlies, hmatch, ⟨sameTerm_eq_ok hterm, ?_⟩, z, a, hformed, hty, hbodies⟩
    exact List.forall_mem_map.mp hholds
  · cases h

end Conclusion

end LambdaTyping
