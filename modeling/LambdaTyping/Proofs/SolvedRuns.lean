import Mathlib
import LambdaTyping.Proofs.InferenceFormation
import LambdaTyping.Proofs.HindleyMilnerRules

/-!
# Abstractions and solved runs

A run abstracts over names at definitions, whose types are generalised, and at type
abstractions. This is sound if nothing else is known of these names by then.

Without type abstractions and without names in annotations it always is: a run
only binds names that it does not see again, so its substitution is solved and
has been applied to the type. What the result has of the supply that the run
started with are names of the context.
-/
namespace LambdaTyping

open Text (Position)

namespace Infer

/-- Names that are abstracted over in a run: with the substitution and the type by then, and the
term in which they were met. -/
structure Abstraction where
  names : List String
  subst : Subst
  ty : Ty
  term : Term

/-- The substitution satisfies its own bindings and has been applied to the type, and no annotation
of the term has one of the names left under it. -/
structure Abstraction.Settled (r : Abstraction) : Prop where
  solved : r.subst.Holds r.subst.image
  applied : (r.subst.apply r.ty).erase = r.ty.erase
  notMem : ∀ x ∈ r.names, x ∉ (r.term.mapNames r.subst.image).typeNames

instance (r : Abstraction) : Decidable r.Settled :=
  decidable_of_iff ((∀ b ∈ r.subst, ((Ty.name b.1).mapNames r.subst.image).erase =
      (b.2.mapNames r.subst.image).erase) ∧ (r.subst.apply r.ty).erase = r.ty.erase ∧
      ∀ x ∈ r.names, x ∉ (r.term.mapNames r.subst.image).typeNames)
    ⟨fun h => ⟨h.1, h.2.1, h.2.2⟩, fun h => ⟨h.solved, h.applied, h.notMem⟩⟩

/-- What comes of a result, nothing if there is none. -/
def follow {α β : Type} (r : EStateM.Result TypeError NameSupply α)
    (f : α → NameSupply → List β) : List β :=
  match r with
  | .ok a σ => f a σ
  | .error .. => []

theorem follow_of_eq_ok {α β : Type} {r : EStateM.Result TypeError NameSupply α} {a : α}
    {σ : NameSupply} (h : r = .ok a σ) (f : α → NameSupply → List β) : follow r f = f a σ :=
  congrArg (follow · f) h

/-- The names over which a run abstracts, at definitions and at type abstractions. -/
def abstractions (Γ : Context) (t : Term) (σ : NameSupply) : List Abstraction :=
  match t with
  | .var .. | .const .. => []
  | .abs _ x ty t => follow (orNew ty σ) fun a σ => abstractions (⟨x, .var a⟩ :: Γ) t σ
  | .app _ t u =>
    abstractions Γ t σ ++ follow (run Γ t σ) fun (s₁, _) σ =>
      follow (Supplied.ofExcept (Γ.apply s₁) σ) fun Γ₁ σ => abstractions Γ₁ u σ
  | .ite _ c t e =>
    abstractions Γ c σ ++ follow (run Γ c σ) fun (s₁, a) σ =>
      follow (unifyOpening a .bool σ) fun s₂ σ =>
        follow (Supplied.ofExcept (Γ.apply (s₂ ++ s₁)) σ) fun Γ₁ σ =>
          abstractions Γ₁ t σ ++ follow (run Γ₁ t σ) fun (s₃, _) σ =>
            follow (Supplied.ofExcept (Γ.apply (s₃ ++ (s₂ ++ s₁))) σ) fun Γ₂ σ =>
              abstractions Γ₂ e σ
  | .letIn _ x e t =>
    abstractions Γ e σ ++ follow (run Γ e σ) fun (s₁, a) σ =>
      follow (Supplied.ofExcept (Γ.apply s₁) σ) fun Γ₁ σ =>
        ⟨Γ₁.generic a [], s₁, a, e⟩ :: abstractions (⟨x, .var (Γ₁.generalize a [])⟩ :: Γ₁) t σ
  | .tyAbs p x t =>
    let n := (σ.like x).1
    abstractions Γ (t.substTyTop (.name n)) (σ.like x).2 ++
      follow (run Γ (t.substTyTop (.name n)) (σ.like x).2) fun (s, b) σ =>
        follow (Supplied.ofExcept (keepRigid Γ s n x) σ) fun s _ =>
          [⟨[n], s, s.apply b, .tyAbs p x t⟩]
  | .tyApp _ t _ => abstractions Γ t σ
termination_by t.size
decreasing_by all_goals (simp only [Term.size, Term.size_substTyTop]; omega)

theorem ofExcept_of_eq_ok {α : Type} {r : Except TypeError α} {a : α} (h : r = .ok a)
    (σ : NameSupply) : Supplied.ofExcept r σ = .ok a σ := Supplied.ofExcept_eq_ok_iff.mpr ⟨h, rfl⟩

section Abstractions

variable {Γ Γ₁ Γ₂ : Context} {p : Position} {x : String} {t u : Term}
  {s s₁ s₂ s₃ : Subst} {a b : Ty} {σ σ₁ σ₂ σ₃ : NameSupply}

theorem abstractions_abs {ty : Option Ty} (hnew : orNew ty σ = .ok a σ₁) :
    abstractions Γ (.abs p x ty t) σ = abstractions (⟨x, .var a⟩ :: Γ) t σ₁ := by
  rw [abstractions]
  exact follow_of_eq_ok hnew _

theorem abstractions_app (hrun : run Γ t σ = .ok (s₁, a) σ₁) (hΓ₁ : Γ.apply s₁ = .ok Γ₁) :
    abstractions Γ (.app p t u) σ = abstractions Γ t σ ++ abstractions Γ₁ u σ₁ := by
  rw [abstractions, follow_of_eq_ok hrun]
  exact congrArg _ (follow_of_eq_ok (ofExcept_of_eq_ok hΓ₁ σ₁) _)

theorem abstractions_ite {c e : Term} (hrun₁ : run Γ c σ = .ok (s₁, a) σ₁)
    (hbool : unifyOpening a .bool σ₁ = .ok s₂ σ₂) (hΓ₁ : Γ.apply (s₂ ++ s₁) = .ok Γ₁)
    (hrun₂ : run Γ₁ t σ₂ = .ok (s₃, b) σ₃) (hΓ₂ : Γ.apply (s₃ ++ (s₂ ++ s₁)) = .ok Γ₂) :
    abstractions Γ (.ite p c t e) σ =
      abstractions Γ c σ ++ (abstractions Γ₁ t σ₂ ++ abstractions Γ₂ e σ₃) := by
  rw [abstractions, follow_of_eq_ok hrun₁]
  refine congrArg _ ((follow_of_eq_ok hbool _).trans ?_)
  refine (follow_of_eq_ok (ofExcept_of_eq_ok hΓ₁ σ₂) _).trans ?_
  refine congrArg _ ((follow_of_eq_ok hrun₂ _).trans ?_)
  exact follow_of_eq_ok (ofExcept_of_eq_ok hΓ₂ σ₃) _

theorem abstractions_letIn {e : Term} (hrun : run Γ e σ = .ok (s₁, a) σ₁)
    (hΓ₁ : Γ.apply s₁ = .ok Γ₁) :
    abstractions Γ (.letIn p x e t) σ = abstractions Γ e σ ++ ⟨Γ₁.generic a [], s₁, a, e⟩ ::
      abstractions (⟨x, .var (Γ₁.generalize a [])⟩ :: Γ₁) t σ₁ := by
  rw [abstractions, follow_of_eq_ok hrun]
  exact congrArg _ (follow_of_eq_ok (ofExcept_of_eq_ok hΓ₁ σ₁) _)

theorem abstractions_tyAbs
    (hrun : run Γ (t.substTyTop (.name (σ.like x).1)) (σ.like x).2 = .ok (s, b) σ₁)
    (hrigid : keepRigid Γ s (σ.like x).1 x = .ok s₁) :
    abstractions Γ (.tyAbs p x t) σ =
      abstractions Γ (t.substTyTop (.name (σ.like x).1)) (σ.like x).2 ++
        [⟨[(σ.like x).1], s₁, s₁.apply b, .tyAbs p x t⟩] := by
  rw [abstractions, follow_of_eq_ok hrun]
  exact congrArg _ (follow_of_eq_ok (ofExcept_of_eq_ok hrigid σ₁) _)

end Abstractions

end Infer

/-- Is there a type abstraction in the term? -/
def Term.hasTyAbs : Term → Bool
  | var .. | const .. => false
  | abs _ _ _ t => t.hasTyAbs
  | app _ t u => t.hasTyAbs || u.hasTyAbs
  | ite _ c t e => c.hasTyAbs || t.hasTyAbs || e.hasTyAbs
  | tyAbs .. => true
  | tyApp _ t _ => t.hasTyAbs
  | letIn _ _ e t => e.hasTyAbs || t.hasTyAbs

theorem Subst.mem_domain_append {s r : Subst} {x : String} :
    x ∈ domain (s ++ r) ↔ x ∈ s.domain ∨ x ∈ r.domain := by
  rw [domain, List.map_append, List.mem_append]
  rfl

/-- The type of a definition brings no names of its own. -/
theorem Context.mem_freeNames_of_definition {Γ : Context} {x y : String} {a : Ty}
    (h : y ∈ Context.freeNames (⟨x, .var (Γ.generalize a [])⟩ :: Γ)) : y ∈ Γ.freeNames := by
  rcases Context.mem_freeNames_cons_var.mp h with hy | hy
  · exact (Context.mem_freeNames_generalize.mp hy).2.resolve_right (by simp)
  · exact hy

namespace Infer

/-- The substitution is solved and has been applied to the type, and whatever both have of the names
of the supply is in the context. -/
structure Separated (Γ : Context) (σ : NameSupply) (s : Subst) (a : Ty) : Prop where
  solved : s.Solved
  disjoint : ∀ x ∈ a.freeNames, x ∉ s.domain
  subst : ∀ x ∈ s.freeNames, x ∈ σ.used → x ∈ Γ.freeNames
  ty : ∀ x ∈ a.freeNames, x ∈ σ.used → x ∈ Γ.freeNames

namespace Separated

variable {Γ Γ₁ : Context} {σ σ₁ σ₂ : NameSupply} {s s₁ s₂ r : Subst} {a b c d e : Ty}

theorem nil (h : ∀ x ∈ a.freeNames, x ∈ σ.used → x ∈ Γ.freeNames) : Separated Γ σ [] a :=
  ⟨trivial, by simp [Subst.domain], by simp [Subst.freeNames], h⟩

theorem of_subset (h : Separated Γ σ s a) (hb : ∀ x ∈ b.freeNames, x ∈ a.freeNames) :
    Separated Γ σ s b :=
  ⟨h.solved, fun x hx => h.disjoint x (hb x hx), h.subst, fun x hx => h.ty x (hb x hx)⟩

theorem arr (ha : Separated Γ σ s a) (hb : Separated Γ σ s b) : Separated Γ σ s (.arr a b) where
  solved := ha.solved
  disjoint x hx := (List.mem_append.mp hx).elim (ha.disjoint x) (hb.disjoint x)
  subst := ha.subst
  ty x hx := (List.mem_append.mp hx).elim (ha.ty x) (hb.ty x)

theorem apply (h : Separated Γ σ s a) (hb : ∀ x ∈ b.freeNames, x ∈ σ.used → x ∈ Γ.freeNames) :
    Separated Γ σ s (s.apply b) where
  solved := h.solved
  disjoint _ hx hdom := h.solved.notMem_freeNames_apply hdom b hx
  subst := h.subst
  ty x hx := (Subst.mem_freeNames_apply hx).elim (hb x) (h.subst x)

theorem shift (h : Separated Γ σ s a) (d : Int) : Separated Γ σ (s.shift d) (a.shift d) where
  solved := h.solved.shift d
  disjoint := by simpa using h.disjoint
  subst := by simpa using h.subst
  ty := by simpa using h.ty

theorem name (h : Separated Γ σ s a) (hknown : Known Γ σ s b σ₁) {x : String} (hx : x ∉ σ₁.used) :
    Separated Γ σ s (.name x) := by
  have hsingle : ∀ y ∈ (Ty.name x).freeNames, y ∉ σ₁.used := by simpa [Ty.freeNames] using hx
  refine ⟨h.solved, fun y hy hdom => ?_, h.subst, fun y hy hσ => ?_⟩
  · exact hsingle y hy (hknown.subst.known y (Subst.mem_freeNames_of_mem_domain hdom))
  · exact absurd (hknown.used y hσ) (hsingle y hy)

/-- The names of a context under a solved substitution. -/
theorem context (h : Separated Γ σ s a) (hΓ : Γ.Formed) (hs : s.FormedIn Γ.kinds)
    (hΓ₁ : Γ.apply s = .ok Γ₁) {x : String} (hx : x ∈ Γ₁.freeNames) :
    x ∉ s.domain ∧ (x ∈ σ.used → x ∈ Γ.freeNames) := by
  obtain ⟨i, b, hb, hxb⟩ := Context.exists_getType?_of_mem_freeNames hx
  rw [(Context.apply_spec hs hΓ hΓ₁).2, Option.map_eq_some_iff] at hb
  obtain ⟨b, hb, rfl⟩ := hb
  refine ⟨fun hdom => h.solved.notMem_freeNames_apply hdom b hxb, ?_⟩
  rcases Subst.mem_freeNames_apply hxb with hxb | hxs
  · exact fun _ => Context.mem_freeNames_of_getType? hb hxb
  · exact h.subst x hxs

/-- One run after the other, in the context under the first substitution. -/
theorem trans (h₁ : Separated Γ σ s₁ a) (hknown : Known Γ σ s₁ a σ₁) (hΓ : Γ.Formed)
    (hΓ₁ : Γ.apply s₁ = .ok Γ₁) (h₂ : Separated Γ₁ σ₁ s₂ b) :
    Separated Γ σ (s₂ ++ s₁) b ∧ Separated Γ σ (s₂ ++ s₁) (s₂.apply a) := by
  have hcontext : ∀ x ∈ Γ₁.freeNames, _ := fun x => h₁.context hΓ hknown.subst.formedIn hΓ₁
  -- what the second run knows of the first one are names of the context in between
  have hlater : ∀ x, (x ∈ σ₁.used → x ∈ Γ₁.freeNames) →
      x ∉ s₁.domain ∧ (x ∈ σ.used → x ∈ Γ.freeNames) := fun x hx =>
    ⟨fun hdom => (hcontext x (hx (hknown.subst.known x
        (Subst.mem_freeNames_of_mem_domain hdom)))).1 hdom,
      fun hσ => (hcontext x (hx (hknown.used x hσ))).2 hσ⟩
  have hsolved := h₂.solved.append h₁.solved fun x hx => (hlater x (h₂.subst x hx)).1
  have hsubst : ∀ x ∈ Subst.freeNames (s₂ ++ s₁), x ∈ σ.used → x ∈ Γ.freeNames := fun x hx =>
    (Subst.mem_freeNames_append.mp hx).elim (fun hx => (hlater x (h₂.subst x hx)).2) (h₁.subst x)
  have hdomain : ∀ x, x ∉ s₂.domain → x ∉ s₁.domain → x ∉ Subst.domain (s₂ ++ s₁) :=
    fun x hx₂ hx₁ hdom => (Subst.mem_domain_append.mp hdom).elim hx₂ hx₁
  refine ⟨⟨hsolved, fun x hx => ?_, hsubst, fun x hx => (hlater x (h₂.ty x hx)).2⟩, hsolved,
    fun x hx => ?_, hsubst, fun x hx => ?_⟩
  · exact hdomain x (h₂.disjoint x hx) (hlater x (h₂.ty x hx)).1
  · refine hdomain x (fun hdom => h₂.solved.notMem_freeNames_apply hdom a hx) ?_
    exact (Subst.mem_freeNames_apply hx).elim (h₁.disjoint x) fun hx => (hlater x (h₂.subst x hx)).1
  · exact (Subst.mem_freeNames_apply hx).elim (h₁.ty x) fun hx => (hlater x (h₂.subst x hx)).2

/-- What is unified after a run. -/
theorem unify (ha : Separated Γ σ s a) (hb : Separated Γ σ s b) (hknown : Known Γ σ s c σ₁)
    (haknown : a.KnownIn Γ.kinds σ₁) (hbknown : b.KnownIn Γ.kinds σ₁)
    (h : unifyOpening a b σ₁ = .ok r σ₂) (he : Separated Γ σ s e) :
    Separated Γ σ (r ++ s) (r.apply e) := by
  have hanswer := Unify.answers_of_unifyOpening h
  have hsolved := hanswer.solved haknown.known hbknown.known
  have hold : ∀ x ∈ r.freeNames, x ∈ σ₁.used → x ∈ a.freeNames ∨ x ∈ b.freeNames :=
    fun x hx hσ => by
      by_contra hnot
      rw [not_or] at hnot
      exact hanswer.notMem_freeNames hσ hnot.1 hnot.2 hx
  have hnew : ∀ x ∈ r.freeNames, x ∉ s.domain := fun x hx hdom =>
    (hold x hx (hknown.subst.known x (Subst.mem_freeNames_of_mem_domain hdom))).elim
      (fun hx => ha.disjoint x hx hdom) fun hx => hb.disjoint x hx hdom
  have hcontext : ∀ x ∈ r.freeNames, x ∈ σ.used → x ∈ Γ.freeNames := fun x hx hσ =>
    (hold x hx (hknown.used x hσ)).elim (fun hx => ha.ty x hx hσ) fun hx => hb.ty x hx hσ
  refine ⟨hsolved.append ha.solved hnew, fun x hx => ?_, fun x hx => ?_, fun x hx => ?_⟩
  · rw [Subst.mem_domain_append, not_or]
    exact ⟨fun hdom => hsolved.notMem_freeNames_apply hdom e hx,
      (Subst.mem_freeNames_apply hx).elim (he.disjoint x) (hnew x)⟩
  · exact (Subst.mem_freeNames_append.mp hx).elim (hcontext x) (ha.subst x)
  · exact (Subst.mem_freeNames_apply hx).elim (he.ty x) (hcontext x)

end Separated

theorem notMem_of_orNew {ty : Option Ty} {a : Ty} {σ σ' : NameSupply}
    (hty : (ty.map Ty.freeNames).getD [] = []) (h : orNew ty σ = .ok a σ') :
    ∀ x ∈ a.freeNames, x ∉ σ.used := by
  rcases orNew_eq_ok_iff.mp h with ⟨rfl, -⟩ | ⟨-, rfl, -⟩
  · have hnil : a.freeNames = [] := hty
    simp [hnil]
  · simpa [Ty.freeNames] using NameSupply.letter_notMem σ

theorem Separated.settled {Γ : Context} {σ : NameSupply} {s : Subst} {a : Ty} {t : Term}
    (h : Separated Γ σ s a) (hnames : t.typeNames = []) (xs : List String) :
    Abstraction.Settled ⟨xs, s, a, t⟩ := by
  refine ⟨h.solved.holds, congrArg Ty.erase (Subst.apply_of_disjoint h.disjoint), fun x _ => ?_⟩
  rw [Term.mapNames_of_typeNames_eq_nil _ hnames, hnames]
  exact List.not_mem_nil

/-- Without type abstractions a run is separated, and all its abstractions are settled. -/
theorem settled_of_run {t : Term} {Γ : Context} {σ σ' : NameSupply} {s : Subst} {a : Ty}
    (hΓ : Γ.Known σ) (ht : t.KnownIn σ Γ.kinds) (hnames : t.typeNames = [])
    (habs : t.hasTyAbs = false) (h : run Γ t σ = .ok (s, a) σ') :
    Separated Γ σ s a ∧ ∀ r ∈ abstractions Γ t σ, r.Settled := by
  induction t generalizing Γ σ σ' s a with
  | var p i n =>
    obtain ⟨ty, hi, hr, rfl⟩ := run_var_eq_ok_iff.mp h
    cases hr
    refine ⟨.nil fun x hx hσ => ?_, by simp [abstractions]⟩
    rcases NameSupply.mem_freeNames_openAll hx with hnew | hx
    · exact absurd hσ (NameSupply.openAll_notMem hnew)
    · exact Context.mem_freeNames_of_getType? hi hx
  | const p b =>
    obtain ⟨hr, rfl⟩ := run_const_eq_ok_iff.mp h
    cases hr
    exact ⟨.nil (by simp [Ty.freeNames]), by simp [abstractions]⟩
  | abs p x ty t ih =>
    obtain ⟨a₁, σ₁, s₁, b, hnew, hrun, hr⟩ := run_abs_eq_ok_iff.mp h
    cases hr
    rw [Term.typeNames, List.append_eq_nil_iff] at hnames
    obtain ⟨hused, ha⟩ := known_of_orNew ht.1 hnew
    have hfresh := notMem_of_orNew hnames.1 hnew
    obtain ⟨h₁, hsettled⟩ := ih ((hΓ.mono hused).cons_var x ha) (ht.2.mono hused) hnames.2 habs hrun
    have hdrop : ∀ y, (y ∈ σ₁.used → y ∈ Context.freeNames (⟨x, .var a₁⟩ :: Γ)) → y ∈ σ.used →
        y ∈ Γ.freeNames := fun y hy hσ =>
      (Context.mem_freeNames_cons_var.mp (hy (hused y hσ))).resolve_left fun hya => hfresh y hya hσ
    have hb : Separated Γ σ s₁ b := ⟨h₁.solved, h₁.disjoint, fun y hy => hdrop y (h₁.subst y hy),
      fun y hy => hdrop y (h₁.ty y hy)⟩
    rw [abstractions_abs hnew]
    exact ⟨((hb.shift (-1)).apply fun y hy hσ => absurd hσ (hfresh y hy)).arr (hb.shift (-1)),
      hsettled⟩
  | app p t u iht ihu =>
    obtain ⟨s₁, a₁, σ₁, Γ₁, s₂, b, σ₂, s₃, hrun₁, hΓ₁, hrun₂, hunify, hr⟩ := run_app_eq_ok_iff.mp h
    cases hr
    rw [Term.typeNames, List.append_eq_nil_iff] at hnames
    rw [Term.hasTyAbs, Bool.or_eq_false_iff] at habs
    have h₁ := known_of_run hΓ ht.1 hrun₁
    obtain ⟨hkinds, hknown⟩ := h₁.context hΓ hΓ₁
    have htu : u.KnownIn σ₁ Γ₁.kinds := hkinds ▸ ht.2.mono h₁.used
    have h₂ := known_of_run hknown htu hrun₂
    obtain ⟨hb, ha⟩ := h₁.trans hkinds h₂
    obtain ⟨hsept, hsettledt⟩ := iht hΓ ht.1 hnames.1 habs.1 hrun₁
    obtain ⟨hsepu, hsettledu⟩ := ihu hknown htu hnames.2 habs.2 hrun₂
    obtain ⟨hsepb, hsepa⟩ := hsept.trans h₁ hΓ.formed hΓ₁ hsepu
    have hname := hsepb.name hb (NameSupply.letter_notMem σ₂)
    rw [List.append_assoc, abstractions_app hrun₁ hΓ₁, List.forall_mem_append]
    refine ⟨?_, hsettledt, hsettledu⟩
    exact hsepa.unify (hsepb.arr hname) hb.letter ha.letter.ty
      (Ty.KnownIn.arr_iff.mpr ⟨hb.letter.ty, knownIn_letter Γ.kinds σ₂⟩) hunify hname
  | ite p c t e ihc iht ihe =>
    obtain ⟨s₁, a₁, σ₁, s₂, σ₂, Γ₁, s₃, b, σ₃, Γ₂, s₄, d, σ₄, s₅, hrun₁, hbool, hΓ₁, hrun₂, hΓ₂,
      hrun₃, hunify, hr⟩ := run_ite_eq_ok_iff.mp h
    cases hr
    simp only [Term.typeNames, List.append_eq_nil_iff] at hnames
    simp only [Term.hasTyAbs, Bool.or_eq_false_iff] at habs
    have h₁ := known_of_run hΓ ht.1 hrun₁
    have hc := h₁.unify h₁.ty .bool hbool h₁.ty
    obtain ⟨hkinds₁, hknown₁⟩ := hc.context hΓ hΓ₁
    have htt : t.KnownIn σ₂ Γ₁.kinds := hkinds₁ ▸ ht.2.1.mono hc.used
    have h₃ := known_of_run hknown₁ htt hrun₂
    obtain ⟨hthen, -⟩ := hc.trans hkinds₁ h₃
    obtain ⟨hkinds₂, hknown₂⟩ := hthen.context hΓ hΓ₂
    have hte : e.KnownIn σ₃ Γ₂.kinds := hkinds₂ ▸ ht.2.2.mono hthen.used
    obtain ⟨helse, hb⟩ := hthen.trans hkinds₂ (known_of_run hknown₂ hte hrun₃)
    obtain ⟨hsep₁, hsettled₁⟩ := ihc hΓ ht.1 hnames.1.1 habs.1.1 hrun₁
    obtain ⟨hsep₂, hsettled₂⟩ := iht hknown₁ htt hnames.1.2 habs.1.2 hrun₂
    obtain ⟨hsep₃, hsettled₃⟩ := ihe hknown₂ hte hnames.2 habs.2 hrun₃
    have hsepc := hsep₁.unify (hsep₁.of_subset (b := .bool) (by simp [Ty.freeNames])) h₁ h₁.ty .bool
      hbool hsep₁
    obtain ⟨hsept, -⟩ := hsepc.trans hc hΓ.formed hΓ₁ hsep₂
    obtain ⟨hsepe, hsepb⟩ := hsept.trans hthen hΓ.formed hΓ₂ hsep₃
    rw [List.append_assoc, abstractions_ite hrun₁ hbool hΓ₁ hrun₂ hΓ₂, List.forall_mem_append,
      List.forall_mem_append]
    exact ⟨hsepb.unify hsepe helse hb.ty helse.ty hunify hsepe, hsettled₁, hsettled₂, hsettled₃⟩
  | letIn p x e t ihe iht =>
    obtain ⟨s₁, a₁, σ₁, Γ₁, s₂, b, hrun₁, hΓ₁, hrun₂, hr⟩ := run_letIn_eq_ok_iff.mp h
    cases hr
    rw [Term.typeNames, List.append_eq_nil_iff] at hnames
    rw [Term.hasTyAbs, Bool.or_eq_false_iff] at habs
    have h₁ := known_of_run hΓ ht.1 hrun₁
    obtain ⟨hkinds, hknown⟩ := h₁.context hΓ hΓ₁
    have ha₁ : a₁.KnownIn Γ₁.kinds σ₁ := hkinds ▸ h₁.ty
    have hbody : t.KnownIn σ₁ (.term :: Γ₁.kinds) := hkinds ▸ ht.2.mono h₁.used
    obtain ⟨hsep, hsettlede⟩ := ihe hΓ ht.1 hnames.1 habs.1 hrun₁
    obtain ⟨h₂, hsettledt⟩ := iht (hknown.cons_var x (Context.knownIn_generalize ha₁ [])) hbody
      hnames.2 habs.2 hrun₂
    have hb : Separated Γ₁ σ₁ s₂ b := ⟨h₂.solved, h₂.disjoint,
      fun y hy hσ => Context.mem_freeNames_of_definition (h₂.subst y hy hσ),
      fun y hy hσ => Context.mem_freeNames_of_definition (h₂.ty y hy hσ)⟩
    rw [abstractions_letIn hrun₁ hΓ₁, List.forall_mem_append, List.forall_mem_cons]
    exact ⟨(hsep.trans h₁ hΓ.formed hΓ₁ (hb.shift (-1))).1, hsettlede, hsep.settled hnames.1 _,
      hsettledt⟩
  | tyAbs p x t ih => cases habs
  | tyApp p t ty ih =>
    obtain ⟨s₁, y, b, hhead, hr⟩ := run_tyApp_eq_ok_iff.mp h
    cases hr
    rw [Term.typeNames, List.append_eq_nil_iff] at hnames
    have h₁ : Separated Γ σ s (.all y b) ∧ ∀ r ∈ abstractions Γ t σ, r.Settled := by
      rcases hhead with ⟨q, i, n, rfl, hi, rfl, rfl⟩ | ⟨-, hrun⟩
      · exact ⟨.nil fun x hx _ => Context.mem_freeNames_of_getType? hi hx, by simp [abstractions]⟩
      · exact ih hΓ ht.1 hnames.1 habs hrun
    rw [abstractions]
    refine ⟨h₁.1.of_subset fun x hx => ?_, h₁.2⟩
    rw [Subst.apply_of_disjoint (by simp [hnames.2]), Ty.substTop_eq_fillAt] at hx
    exact (Ty.freeNames_fillAt_subset _ _ _ hx).resolve_left (by simp [hnames.2])

end Infer

end LambdaTyping
