import Mathlib
import LambdaTyping.Proofs.SolvedRuns

/-!
# Applied types

The substitution of a run has been applied to the type of the run, as far as it
can: a run applies the substitutions it finds to the types it has found before, but
what it finds out about a name does not reach the annotations that it reads later.
A name that is given in two places, in two annotations or in an annotation and the
context, can be bound in the first one and come back with the second one. These are
the only names of the type that the substitution may still move.
-/
namespace LambdaTyping

namespace Term

/-- The types that are written in a term. -/
def annotations : Term → List Ty
  | var .. | const .. => []
  | abs _ _ ty t => ty.toList ++ t.annotations
  | app _ t u => t.annotations ++ u.annotations
  | ite _ c t e => c.annotations ++ t.annotations ++ e.annotations
  | tyAbs _ _ t => t.annotations
  | tyApp _ t ty => t.annotations ++ [ty]
  | letIn _ _ e t => e.annotations ++ t.annotations

theorem KnownIn.known_annotations {ks : List Kind} {σ : NameSupply} {t : Term}
    (h : t.KnownIn σ ks) : ∀ a ∈ t.annotations, ∀ x ∈ a.freeNames, x ∈ σ.used := by
  induction t generalizing ks with
  | var | const => simp [annotations]
  | abs p x ty t ih =>
    rw [annotations, List.forall_mem_append]
    exact ⟨fun a ha => (h.1 a (Option.mem_toList.mp ha)).known, ih h.2⟩
  | app p t u iht ihu =>
    rw [annotations, List.forall_mem_append]
    exact ⟨iht h.1, ihu h.2⟩
  | ite p c t e ihc iht ihe =>
    rw [annotations, List.forall_mem_append, List.forall_mem_append]
    exact ⟨⟨ihc h.1, iht h.2.1⟩, ihe h.2.2⟩
  | tyAbs p x t ih => exact ih h.2
  | tyApp p t ty ih =>
    rw [annotations, List.forall_mem_append, List.forall_mem_singleton]
    exact ⟨ih h.1, h.2.known⟩
  | letIn p x e t ihe iht =>
    rw [annotations, List.forall_mem_append]
    exact ⟨ihe h.1, iht h.2⟩

theorem hasTyAbs_of_admitsTerm {k : Calculus} (hk : k ≠ .systemF) {t : Term}
    (h : k.admitsTerm t = .ok ()) : t.hasTyAbs = false := by
  induction t with
  | var | const => rfl
  | abs p x ty t ih =>
    cases ty with
    | none =>
      obtain ⟨_, -, ht⟩ := bind_eq_ok_iff.mp h
      exact ih ht
    | some a =>
      obtain ⟨_, -, ht⟩ := bind_eq_ok_iff.mp h
      exact ih ht
  | app p t u iht ihu =>
    obtain ⟨_, ht, hu⟩ := bind_eq_ok_iff.mp h
    rw [hasTyAbs, iht ht, ihu hu]
    rfl
  | ite p c t e ihc iht ihe =>
    obtain ⟨_, hc, h⟩ := bind_eq_ok_iff.mp h
    obtain ⟨_, ht, he⟩ := bind_eq_ok_iff.mp h
    rw [hasTyAbs, ihc hc, iht ht, ihe he]
    rfl
  | tyAbs p x t ih =>
    obtain ⟨_, hneed, -⟩ := bind_eq_ok_iff.mp h
    exact absurd (by simpa using Calculus.need_eq_ok.mp hneed) hk
  | tyApp p t ty ih =>
    obtain ⟨_, hneed, -⟩ := bind_eq_ok_iff.mp h
    exact absurd (by simpa using Calculus.need_eq_ok.mp hneed) hk
  | letIn p x e t ihe iht =>
    obtain ⟨_, he, ht⟩ := bind_eq_ok_iff.mp h
    rw [hasTyAbs, ihe he, iht ht]
    rfl

end Term

namespace Infer

/-- The name is in the context or in one of the types. -/
def Given (Γ : Context) (as : List Ty) (x : String) : Prop :=
  x ∈ Γ.freeNames ∨ ∃ a ∈ as, x ∈ a.freeNames

/-- The name is given in two places: in two of the types, or in one of them and in the context. -/
def Shared (Γ : Context) (as : List Ty) (x : String) : Prop :=
  2 ≤ as.countP (x ∈ ·.freeNames) + if x ∈ Γ.freeNames then 1 else 0

instance (Γ : Context) (as : List Ty) (x : String) : Decidable (Shared Γ as x) :=
  inferInstanceAs (Decidable (_ ≤ _))

section Places

variable {Γ Γ₁ : Context} {as bs : List Ty} {x : String}

theorem Given.append_right (h : Given Γ as x) (bs : List Ty) : Given Γ (as ++ bs) x :=
  h.imp_right fun ⟨a, ha, hx⟩ => ⟨a, List.mem_append_left bs ha, hx⟩

/-- What a later context gives was given before. -/
theorem Given.earlier (h : Given Γ₁ bs x) (hΓ₁ : x ∈ Γ₁.freeNames → Given Γ as x) :
    Given Γ (as ++ bs) x := by
  rcases h with hx | ⟨b, hb, hx⟩
  · exact (hΓ₁ hx).append_right bs
  · exact .inr ⟨b, List.mem_append_right as hb, hx⟩

theorem Shared.append_right (h : Shared Γ as x) (bs : List Ty) : Shared Γ (as ++ bs) x := by
  rw [Shared, List.countP_append]
  exact le_trans h (by omega)

theorem countP_pos (h : ∃ a ∈ as, x ∈ a.freeNames) : 0 < as.countP (x ∈ ·.freeNames) := by
  simpa [List.countP_pos_iff] using h

/-- A name that is given again. -/
theorem Given.shared (h : Given Γ as x) (hbs : ∃ b ∈ bs, x ∈ b.freeNames) :
    Shared Γ (as ++ bs) x := by
  have hpos := countP_pos hbs
  rw [Shared, List.countP_append]
  rcases h with hx | has
  · rw [if_pos hx]
    omega
  · have := countP_pos has
    omega

/-- A name that is given twice in a later context was given twice before, if the later context has
no names that are not given. -/
theorem Shared.earlier (h : Shared Γ₁ bs x)
    (hΓ₁ : x ∈ Γ₁.freeNames → (∃ b ∈ bs, x ∈ b.freeNames) → Given Γ as x) :
    Shared Γ (as ++ bs) x := by
  by_cases hx : x ∈ Γ₁.freeNames
  · rw [Shared, if_pos hx] at h
    have hbs : ∃ b ∈ bs, x ∈ b.freeNames := by
      simpa [List.countP_pos_iff] using (show 0 < bs.countP (x ∈ ·.freeNames) by omega)
    exact (hΓ₁ hx hbs).shared hbs
  · rw [Shared, if_neg hx] at h
    rw [Shared, List.countP_append]
    omega

end Places

theorem annotated_of_orNew {ty : Option Ty} {a : Ty} {σ σ' : NameSupply}
    (h : orNew ty σ = .ok a σ') :
    ∀ x ∈ a.freeNames, x ∈ σ.used → ∃ c ∈ ty.toList, x ∈ c.freeNames := by
  rcases orNew_eq_ok_iff.mp h with ⟨rfl, -⟩ | ⟨-, rfl, -⟩
  · exact fun x hx _ => ⟨a, by simp, hx⟩
  · intro x hx hσ
    obtain rfl : x = σ.letter.1 := by simpa [Ty.freeNames] using hx
    exact absurd hσ (NameSupply.letter_notMem σ)

theorem mem_freeNames_apply_shift {s : Subst} {d : Int} {b : Ty} {x : String} :
    x ∈ ((s.shift d).apply b).freeNames ↔ x ∈ (s.apply b).freeNames := by
  induction s generalizing x with
  | nil => rfl
  | cons c s ih =>
    change x ∈ (((Subst.shift d s).apply b).substName c.1 (c.2.shift d)).freeNames ↔ _
    simp only [Subst.apply_cons, Subst.substName_eq_mapNames, Ty.mem_freeNames_mapNames, ih]
    refine exists_congr fun y => and_congr_right fun _ => ?_
    by_cases hy : y = c.1
    · subst hy
      simp
    · simp [Function.update_of_ne hy]

/-- All names of the substitution and of the type that the supply knew before are given, and a name
that is bound and not shared is gone: the substitution removes it from every type, and the type does
not have it. -/
structure Applied (Γ : Context) (as : List Ty) (σ : NameSupply) (s : Subst) (a : Ty) : Prop where
  subst : ∀ x ∈ s.freeNames, x ∈ σ.used → Given Γ as x
  ty : ∀ x ∈ a.freeNames, x ∈ σ.used → Given Γ as x
  removed : ∀ x ∈ s.domain, ¬ Shared Γ as x → ∀ b, x ∉ (s.apply b).freeNames
  applied : ∀ x ∈ s.domain, ¬ Shared Γ as x → x ∉ a.freeNames

namespace Applied

variable {Γ Γ₁ : Context} {as bs : List Ty} {σ σ₁ σ₂ : NameSupply} {s s₁ s₂ r : Subst}
  {a b c e : Ty}

theorem nil (h : ∀ x ∈ a.freeNames, x ∈ σ.used → Given Γ as x) : Applied Γ as σ [] a :=
  ⟨by simp [Subst.freeNames], h, by simp [Subst.domain], by simp [Subst.domain]⟩

theorem of_subset (h : Applied Γ as σ s a) (hb : ∀ x ∈ b.freeNames, x ∈ a.freeNames) :
    Applied Γ as σ s b :=
  ⟨h.subst, fun x hx => h.ty x (hb x hx), h.removed,
    fun x hx hshared hxb => h.applied x hx hshared (hb x hxb)⟩

/-- Fewer names are known before, and more of them are given or shared. -/
theorem mono (h : Applied Γ₁ bs σ₁ s a) (hused : ∀ x ∈ σ.used, x ∈ σ₁.used)
    (hgiven : ∀ x ∈ σ.used, Given Γ₁ bs x → Given Γ as x)
    (hshared : ∀ x, Shared Γ₁ bs x → Shared Γ as x) : Applied Γ as σ s a where
  subst x hx hσ := hgiven x hσ (h.subst x hx (hused x hσ))
  ty x hx hσ := hgiven x hσ (h.ty x hx (hused x hσ))
  removed x hx hnot := h.removed x hx fun hx => hnot (hshared x hx)
  applied x hx hnot := h.applied x hx fun hx => hnot (hshared x hx)

theorem arr (ha : Applied Γ as σ s a) (hb : Applied Γ as σ s b) : Applied Γ as σ s (.arr a b) where
  subst := ha.subst
  ty x hx := (List.mem_append.mp hx).elim (ha.ty x) (hb.ty x)
  removed := ha.removed
  applied x hx hnot hxab :=
    (List.mem_append.mp hxab).elim (ha.applied x hx hnot) (hb.applied x hx hnot)

theorem apply (h : Applied Γ as σ s a) (hb : ∀ x ∈ b.freeNames, x ∈ σ.used → Given Γ as x) :
    Applied Γ as σ s (s.apply b) where
  subst := h.subst
  ty x hx := (Subst.mem_freeNames_apply hx).elim (hb x) (h.subst x)
  removed := h.removed
  applied x hx hnot := h.removed x hx hnot b

theorem shift (h : Applied Γ as σ s a) (d : Int) : Applied Γ as σ (s.shift d) (a.shift d) where
  subst := by simpa using h.subst
  ty := by simpa using h.ty
  removed x hx hnot b hxb := by
    rw [Subst.domain_shift] at hx
    exact h.removed x hx hnot b (mem_freeNames_apply_shift.mp hxb)
  applied := by simpa using h.applied

theorem name (h : Applied Γ as σ s a) (hknown : Known Γ σ s b σ₁) {x : String} (hx : x ∉ σ₁.used) :
    Applied Γ as σ s (.name x) := by
  have hsingle : ∀ y ∈ (Ty.name x).freeNames, y ∉ σ₁.used := by simpa [Ty.freeNames] using hx
  refine ⟨h.subst, fun y hy hσ => ?_, h.removed, fun y hdom _ hy => ?_⟩
  · exact absurd (hknown.used y hσ) (hsingle y hy)
  · exact hsingle y hy (hknown.subst.known y (Subst.mem_freeNames_of_mem_domain hdom))

/-- The names of a context under a substitution. -/
theorem context (h : Applied Γ as σ s a) (hΓ : Γ.Formed) (hs : s.FormedIn Γ.kinds)
    (hΓ₁ : Γ.apply s = .ok Γ₁) {x : String} (hx : x ∈ Γ₁.freeNames) :
    (x ∈ s.domain → Shared Γ as x) ∧ (x ∈ σ.used → Given Γ as x) := by
  obtain ⟨i, b, hb, hxb⟩ := Context.exists_getType?_of_mem_freeNames hx
  rw [(Context.apply_spec hs hΓ hΓ₁).2, Option.map_eq_some_iff] at hb
  obtain ⟨b, hb, rfl⟩ := hb
  refine ⟨fun hdom => by_contra fun hnot => h.removed x hdom hnot b hxb, ?_⟩
  rcases Subst.mem_freeNames_apply hxb with hxb | hxs
  · exact fun _ => .inl (Context.mem_freeNames_of_getType? hb hxb)
  · exact h.subst x hxs

/-- More is substituted, with names that are given, and without names that are gone already. -/
theorem extend (h : Applied Γ as σ s a) (hgiven : ∀ x ∈ r.freeNames, x ∈ σ.used → Given Γ as x)
    (hremoved : ∀ x ∈ r.domain, ¬ Shared Γ as x → ∀ c, x ∉ (r.apply c).freeNames)
    (hnew : ∀ x ∈ s.domain, ¬ Shared Γ as x → x ∉ r.freeNames) :
    Applied Γ as σ (r ++ s) (r.apply a) := by
  have hgone : ∀ x ∈ Subst.domain (r ++ s), ¬ Shared Γ as x →
      ∀ c, (x ∈ s.domain → x ∉ c.freeNames) → x ∉ (r.apply c).freeNames := by
    intro x hdom hnot c hc hx
    rcases Subst.mem_domain_append.mp hdom with hdom | hdom
    · exact hremoved x hdom hnot c hx
    · exact (Subst.mem_freeNames_apply hx).elim (hc hdom) (hnew x hdom hnot)
  refine ⟨fun x hx => ?_, fun x hx => ?_, fun x hdom hnot c => ?_, fun x hdom hnot => ?_⟩
  · exact (Subst.mem_freeNames_append.mp hx).elim (hgiven x) (h.subst x)
  · exact (Subst.mem_freeNames_apply hx).elim (h.ty x) (hgiven x)
  · rw [Subst.apply_append]
    exact hgone x hdom hnot _ fun hdom => h.removed x hdom hnot c
  · exact hgone x hdom hnot a fun hdom => h.applied x hdom hnot

/-- One run after the other, in the context under the first substitution. -/
theorem trans (h₁ : Applied Γ as σ s₁ a) (hknown : Known Γ σ s₁ a σ₁) (hΓ : Γ.Formed)
    (hΓ₁ : Γ.apply s₁ = .ok Γ₁) (h₂ : Applied Γ₁ bs σ₁ s₂ b)
    (hbs : ∀ c ∈ bs, ∀ x ∈ c.freeNames, x ∈ σ.used) :
    Applied Γ (as ++ bs) σ (s₂ ++ s₁) b ∧ Applied Γ (as ++ bs) σ (s₂ ++ s₁) (s₂.apply a) := by
  have hcontext : ∀ x ∈ Γ₁.freeNames, _ := fun x => h₁.context hΓ hknown.subst.formedIn hΓ₁
  have hwritten : ∀ x, (∃ c ∈ bs, x ∈ c.freeNames) → x ∈ σ.used :=
    fun x ⟨c, hc, hx⟩ => hbs c hc x hx
  have hgiven : ∀ x, (x ∈ σ₁.used → Given Γ₁ bs x) → x ∈ σ.used → Given Γ (as ++ bs) x :=
    fun x hx hσ => (hx (hknown.used x hσ)).earlier fun hx => (hcontext x hx).2 hσ
  have hlater : ∀ x, ¬ Shared Γ (as ++ bs) x → ¬ Shared Γ₁ bs x := fun x hnot hx =>
    hnot (hx.earlier fun hxΓ hxbs => (hcontext x hxΓ).2 (hwritten x hxbs))
  -- what the first run binds comes back only with a name that is given again
  have hback : ∀ x ∈ s₁.domain, ¬ Shared Γ (as ++ bs) x → ¬ (x ∈ σ₁.used → Given Γ₁ bs x) := by
    intro x hdom hnot hx
    have hfree := Subst.mem_freeNames_of_mem_domain hdom
    rcases hx (hknown.subst.known x hfree) with hx | hx
    · exact hnot (((hcontext x hx).1 hdom).append_right bs)
    · exact hnot ((h₁.subst x hfree (hwritten x hx)).shared hx)
  have hfirst : Applied Γ (as ++ bs) σ s₁ a :=
    h₁.mono (fun _ hx => hx) (fun _ _ hx => hx.append_right bs) fun _ hx => hx.append_right bs
  have hboth := hfirst.extend (fun x hx => hgiven x (h₂.subst x hx))
    (fun x hdom hnot => h₂.removed x hdom (hlater x hnot))
    fun x hdom hnot hx => hback x hdom hnot (h₂.subst x hx)
  refine ⟨⟨hboth.subst, fun x hx => hgiven x (h₂.ty x hx), hboth.removed, ?_⟩, hboth⟩
  intro x hdom hnot hx
  rcases Subst.mem_domain_append.mp hdom with hdom | hdom
  · exact h₂.applied x hdom (hlater x hnot) hx
  · exact hback x hdom hnot (h₂.ty x hx)

/-- What is unified after a run. -/
theorem unify (ha : Applied Γ as σ s a) (hb : Applied Γ as σ s b) (hknown : Known Γ σ s c σ₁)
    (haknown : a.KnownIn Γ.kinds σ₁) (hbknown : b.KnownIn Γ.kinds σ₁)
    (h : unifyOpening a b σ₁ = .ok r σ₂) (he : Applied Γ as σ s e) :
    Applied Γ as σ (r ++ s) (r.apply e) := by
  have hanswer := Unify.answers_of_unifyOpening h
  have hsolved := hanswer.solved haknown.known hbknown.known
  have hold : ∀ x ∈ r.freeNames, x ∈ σ₁.used → x ∈ a.freeNames ∨ x ∈ b.freeNames :=
    fun x hx hσ => by
      by_contra hnot
      rw [not_or] at hnot
      exact hanswer.notMem_freeNames hσ hnot.1 hnot.2 hx
  refine he.extend (fun x hx hσ => ?_) (fun x hdom _ => hsolved.notMem_freeNames_apply hdom)
    fun x hdom hnot hx => ?_
  · exact (hold x hx (hknown.used x hσ)).elim (fun hx => ha.ty x hx hσ) fun hx => hb.ty x hx hσ
  · exact (hold x hx (hknown.subst.known x (Subst.mem_freeNames_of_mem_domain hdom))).elim
      (ha.applied x hdom hnot) (hb.applied x hdom hnot)

/-- A parameter is added to the context: its annotation, or a new name. -/
theorem of_parameter {x : String} {ty : Option Ty} (h : Applied (⟨x, .var b⟩ :: Γ) as σ₁ s a)
    (hused : ∀ y ∈ σ.used, y ∈ σ₁.used) (hnew : orNew ty σ = .ok b σ₁)
    (has : ∀ c ∈ as, ∀ y ∈ c.freeNames, y ∈ σ.used) :
    Applied Γ (ty.toList ++ as) σ s a := by
  have hcontext : ∀ y ∈ Context.freeNames (⟨x, .var b⟩ :: Γ), y ∈ σ.used → Given Γ ty.toList y :=
    fun y hy hσ => (Context.mem_freeNames_cons_var.mp hy).elim
      (fun hy => .inr (annotated_of_orNew hnew y hy hσ)) .inl
  refine h.mono hused (fun y hσ hy => hy.earlier fun hy => hcontext y hy hσ) fun y hy => ?_
  exact hy.earlier fun hyΓ ⟨c, hc, hyc⟩ => hcontext y hyΓ (has c hc y hyc)

end Applied

/-- The substitution of a run without type abstractions is applied to its type, up to the names that
the annotations of the term share. -/
theorem applied_of_run {t : Term} {Γ : Context} {σ σ' : NameSupply} {s : Subst} {a : Ty}
    (hΓ : Γ.Known σ) (ht : t.KnownIn σ Γ.kinds) (habs : t.hasTyAbs = false)
    (h : run Γ t σ = .ok (s, a) σ') : Applied Γ t.annotations σ s a := by
  induction t generalizing Γ σ σ' s a with
  | var p i n =>
    obtain ⟨ty, hi, hr, rfl⟩ := run_var_eq_ok_iff.mp h
    cases hr
    refine .nil fun x hx hσ => ?_
    rcases NameSupply.mem_freeNames_openAll hx with hnew | hx
    · exact absurd hσ (NameSupply.openAll_notMem hnew)
    · exact .inl (Context.mem_freeNames_of_getType? hi hx)
  | const p b =>
    obtain ⟨hr, rfl⟩ := run_const_eq_ok_iff.mp h
    cases hr
    exact .nil (by simp [Ty.freeNames])
  | abs p x ty t ih =>
    obtain ⟨a₁, σ₁, s₁, b, hnew, hrun, hr⟩ := run_abs_eq_ok_iff.mp h
    cases hr
    obtain ⟨hused, ha⟩ := known_of_orNew ht.1 hnew
    have hbody := ih ((hΓ.mono hused).cons_var x ha) (ht.2.mono hused) habs hrun
    have hb := (hbody.of_parameter hused hnew ht.2.known_annotations).shift (-1)
    exact (hb.apply fun y hy hσ =>
      Given.append_right (.inr (annotated_of_orNew hnew y hy hσ)) t.annotations).arr hb
  | app p t u iht ihu =>
    obtain ⟨s₁, a₁, σ₁, Γ₁, s₂, b, σ₂, s₃, hrun₁, hΓ₁, hrun₂, hunify, hr⟩ := run_app_eq_ok_iff.mp h
    cases hr
    rw [Term.hasTyAbs, Bool.or_eq_false_iff] at habs
    have h₁ := known_of_run hΓ ht.1 hrun₁
    obtain ⟨hkinds, hknown⟩ := h₁.context hΓ hΓ₁
    have htu : u.KnownIn σ₁ Γ₁.kinds := hkinds ▸ ht.2.mono h₁.used
    have h₂ := known_of_run hknown htu hrun₂
    obtain ⟨hb, ha⟩ := h₁.trans hkinds h₂
    obtain ⟨happb, happa⟩ := (iht hΓ ht.1 habs.1 hrun₁).trans h₁ hΓ.formed hΓ₁
      (ihu hknown htu habs.2 hrun₂) ht.2.known_annotations
    have hname := happb.name hb (NameSupply.letter_notMem σ₂)
    rw [List.append_assoc]
    exact happa.unify (happb.arr hname) hb.letter ha.letter.ty
      (Ty.KnownIn.arr_iff.mpr ⟨hb.letter.ty, knownIn_letter Γ.kinds σ₂⟩) hunify hname
  | ite p c t e ihc iht ihe =>
    obtain ⟨s₁, a₁, σ₁, s₂, σ₂, Γ₁, s₃, b, σ₃, Γ₂, s₄, d, σ₄, s₅, hrun₁, hbool, hΓ₁, hrun₂, hΓ₂,
      hrun₃, hunify, hr⟩ := run_ite_eq_ok_iff.mp h
    cases hr
    simp only [Term.hasTyAbs, Bool.or_eq_false_iff] at habs
    have h₁ := known_of_run hΓ ht.1 hrun₁
    have hc := h₁.unify h₁.ty .bool hbool h₁.ty
    obtain ⟨hkinds₁, hknown₁⟩ := hc.context hΓ hΓ₁
    have htt : t.KnownIn σ₂ Γ₁.kinds := hkinds₁ ▸ ht.2.1.mono hc.used
    have h₃ := known_of_run hknown₁ htt hrun₂
    obtain ⟨hthen, -⟩ := hc.trans hkinds₁ h₃
    obtain ⟨hkinds₂, hknown₂⟩ := hthen.context hΓ hΓ₂
    have hte : e.KnownIn σ₃ Γ₂.kinds := hkinds₂ ▸ ht.2.2.mono hthen.used
    obtain ⟨helse, hb⟩ := hthen.trans hkinds₂ (known_of_run hknown₂ hte hrun₃)
    have happ₁ := ihc hΓ ht.1 habs.1.1 hrun₁
    have happc := happ₁.unify (happ₁.of_subset (b := .bool) (by simp [Ty.freeNames])) h₁ h₁.ty .bool
      hbool happ₁
    obtain ⟨happt, -⟩ := happc.trans hc hΓ.formed hΓ₁ (iht hknown₁ htt habs.1.2 hrun₂)
      ht.2.1.known_annotations
    obtain ⟨happe, happb⟩ := happt.trans hthen hΓ.formed hΓ₂ (ihe hknown₂ hte habs.2 hrun₃)
      ht.2.2.known_annotations
    rw [List.append_assoc]
    exact happb.unify happe helse hb.ty helse.ty hunify happe
  | letIn p x e t ihe iht =>
    obtain ⟨s₁, a₁, σ₁, Γ₁, s₂, b, hrun₁, hΓ₁, hrun₂, hr⟩ := run_letIn_eq_ok_iff.mp h
    cases hr
    rw [Term.hasTyAbs, Bool.or_eq_false_iff] at habs
    have h₁ := known_of_run hΓ ht.1 hrun₁
    obtain ⟨hkinds, hknown⟩ := h₁.context hΓ hΓ₁
    have ha₁ : a₁.KnownIn Γ₁.kinds σ₁ := hkinds ▸ h₁.ty
    have hbody : t.KnownIn σ₁ (.term :: Γ₁.kinds) := hkinds ▸ ht.2.mono h₁.used
    have h₂ := iht (hknown.cons_var x (Context.knownIn_generalize ha₁ [])) hbody habs.2 hrun₂
    have hb : Applied Γ₁ ([] ++ t.annotations) σ₁ s₂ b :=
      h₂.mono (fun _ hy => hy)
        (fun y _ hy => hy.earlier fun hyΓ => .inl (Context.mem_freeNames_of_definition hyΓ))
        fun y hy => hy.earlier fun hyΓ _ => .inl (Context.mem_freeNames_of_definition hyΓ)
    exact ((ihe hΓ ht.1 habs.1 hrun₁).trans h₁ hΓ.formed hΓ₁ (hb.shift (-1))
      ht.2.known_annotations).1
  | tyAbs p x t ih => cases habs
  | tyApp p t ty ih =>
    obtain ⟨s₁, y, b, hhead, hr⟩ := run_tyApp_eq_ok_iff.mp h
    cases hr
    have h₁ : Applied Γ t.annotations σ s (.all y b) := by
      rcases hhead with ⟨q, i, n, rfl, hi, rfl, rfl⟩ | ⟨-, hrun⟩
      · exact .nil fun x hx _ => .inl (Context.mem_freeNames_of_getType? hi hx)
      · exact ih hΓ ht.1 habs hrun
    have h₂ : Applied Γ (t.annotations ++ [ty]) σ s (.all y b) :=
      h₁.mono (fun _ hx => hx) (fun _ _ hx => hx.append_right [ty]) fun _ hx => hx.append_right [ty]
    have hargument := h₂.apply (b := ty) fun x hx _ => .inr ⟨ty, by simp, hx⟩
    refine (hargument.arr h₂).of_subset fun x hx => ?_
    rw [Ty.substTop_eq_fillAt] at hx
    exact List.mem_append.mpr (Ty.freeNames_fillAt_subset _ 0 b hx)

/-- What the substitution of a run still moves in the type of the run are names that are given in
two places. If the type has no such name, the substitution has been applied to it. -/
theorem shared_of_run_moves {contextText termText : String} {Γ : Context} {t : Term}
    (hΓ : Context.parse contextText = .ok Γ) (ht : Term.parse Γ termText = .ok t)
    (hadm : Calculus.hindleyMilner.admitsTerm t = .ok ()) {s : Subst} {τ : Ty} {σ' : NameSupply}
    (hrun : run Γ t (.forTerm Γ t) = .ok (s, τ) σ') :
    (∀ x ∈ τ.freeNames, s.apply (.name x) ≠ .name x → Shared Γ t.annotations x) ∧
      ((∀ x ∈ τ.freeNames, ¬ Shared Γ t.annotations x) → s.apply τ = τ) := by
  obtain ⟨hcontext, hterm⟩ := known_forTerm hΓ ht
  have happlied := applied_of_run hcontext hterm (Term.hasTyAbs_of_admitsTerm (by simp) hadm) hrun
  refine ⟨fun x hx hmoves => by_contra fun hnot => ?_, fun hnot => ?_⟩
  · exact hmoves (Subst.image_of_notMem_domain fun hdom => happlied.applied x hdom hnot hx)
  · exact Subst.apply_of_disjoint fun x hx hdom => happlied.applied x hdom (hnot x hx) hx

theorem shared_of_run_moves_definition :
    ∃ Γ t s σ', Context.parse "y: A" = .ok Γ ∧
      Term.parse Γ "λg: B → C. let h = λx: D. g y in h true" = .ok t ∧
      Calculus.hindleyMilner.admitsTerm t = .ok () ∧
      run Γ t (.forTerm Γ t) =
        .ok (s, .arr (.arr (.name "A") (.name "F")) (.name "F")) σ' ∧
      s = [("E", .name "F"), ("D1", .bool), ("C", .name "E"), ("B", .name "A")] ∧
      s.apply (.arr (.arr (.name "A") (.name "F")) (.name "F")) =
        .arr (.arr (.name "A") (.name "F")) (.name "F") := by
  let Γ : Context := [⟨"y", .var (.name "A")⟩]
  let t : Term := .abs ⟨1, 1⟩ "g" (some (.arr (.name "B") (.name "C")))
    (.letIn ⟨1, 12⟩ "h"
      (.abs ⟨1, 20⟩ "x" (some (.name "D"))
        (.app ⟨1, 27⟩ (.var ⟨1, 27⟩ 1 3) (.var ⟨1, 29⟩ 2 3)))
      (.app ⟨1, 34⟩ (.var ⟨1, 34⟩ 0 3) (.const ⟨1, 36⟩ true)))
  let s : Subst := [("E", .name "F"), ("D1", .bool), ("C", .name "E"), ("B", .name "A")]
  let τ : Ty := .arr (.arr (.name "A") (.name "F")) (.name "F")
  have hΓ : Context.parse "y: A" = .ok Γ := by decide +kernel
  have ht : Term.parse Γ "λg: B → C. let h = λx: D. g y in h true" = .ok t := by decide +kernel
  have hadm : Calculus.hindleyMilner.admitsTerm t = .ok () := by decide +kernel
  have hanswer : (run Γ t).answer (.forTerm Γ t) = .ok (s, τ) := by decide +kernel
  obtain ⟨σ', hrun⟩ := Supplied.answer_eq_ok_iff.mp hanswer
  obtain ⟨-, happlied⟩ := shared_of_run_moves hΓ ht hadm hrun
  exact ⟨Γ, t, s, σ', hΓ, ht, hadm, hrun, rfl, happlied (by decide +kernel)⟩

/-- A name that the definition binds comes back with the body. -/
theorem run_moves_sharedName :
    ∃ Γ t s σ', Context.parse "" = .ok Γ ∧
      Term.parse Γ "let z = (λx: A. x) true in λv: A. v" = .ok t ∧
      Calculus.hindleyMilner.admitsContext Γ = .ok () ∧
      Calculus.hindleyMilner.admitsTerm t = .ok () ∧
      run Γ t (.forTerm Γ t) = .ok (s, .arr (.name "A") (.name "A")) σ' ∧
      s.apply (.arr (.name "A") (.name "A")) = .arr .bool .bool ∧ Shared Γ t.annotations "A" := by
  let t : Term := .letIn ⟨1, 1⟩ "z"
    (.app ⟨1, 9⟩ (.abs ⟨1, 10⟩ "x" (some (.name "A")) (.var ⟨1, 17⟩ 0 1)) (.const ⟨1, 20⟩ true))
    (.abs ⟨1, 28⟩ "v" (some (.name "A")) (.var ⟨1, 35⟩ 0 2))
  let s : Subst := [("B", .bool), ("A", .bool)]
  have hanswer : (run [] t).answer (.forTerm [] t) = .ok (s, .arr (.name "A") (.name "A")) := by
    decide +kernel
  obtain ⟨σ', hrun⟩ := Supplied.answer_eq_ok_iff.mp hanswer
  exact ⟨[], t, s, σ', by decide +kernel, by decide +kernel, by decide +kernel, by decide +kernel,
    hrun, by decide +kernel, by decide +kernel⟩

end Infer

end LambdaTyping
