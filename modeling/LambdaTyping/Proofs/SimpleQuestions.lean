import Mathlib
import LambdaTyping.Proofs.ReturningChecks
import LambdaTyping.Proofs.CommonFragment
import LambdaTyping.Proofs.Matching

/-!
# Questions about simple types

A check of judgments without quantifiers asks for unifiers of simple types only:
the answers bind names to simple types, and a generalised type is opened before it
is compared. Unification of simple types ends, so such a check returns.
-/
namespace LambdaTyping

namespace Asking

variable {ε ε' α β : Type}

/-- All questions are about simple types as long as the answers are, and a result has the
property. -/
def AsksSimple (p : α → Prop) : Asking ε α → Prop
  | done r => ∀ a, r = .ok a → p a
  | ask a b _ next => a.isSimple = true ∧ b.isSimple = true ∧
      ∀ r, (∀ s σ, r = .ok (s, σ) → s.IsSimple) → AsksSimple p (next r)

namespace AsksSimple

variable {p : α → Prop} {q : β → Prop} {x : Asking ε α}

theorem ok {a : α} (h : p a) : AsksSimple p (done (.ok a) : Asking ε α) := fun _ hb =>
  Except.ok.inj hb ▸ h

theorem error {e : ε} : AsksSimple p (done (.error e) : Asking ε α) := fun _ h => by cases h

theorem bind {f : α → Asking ε β} (h : AsksSimple p x) (hf : ∀ a, p a → AsksSimple q (f a)) :
    AsksSimple q (x >>= f) := by
  induction x with
  | done r =>
    cases r with
    | error e => exact error
    | ok a => exact hf a (h a rfl)
  | ask a b σ next ih => exact ⟨h.1, h.2.1, fun r hr => ih r (h.2.2 r hr)⟩

/-- A step without a question. -/
theorem step (r : Except ε α) {f : α → Asking ε β} (hf : ∀ a, r = .ok a → AsksSimple q (f a)) :
    AsksSimple q (done r >>= f) :=
  bind (p := fun a => r = .ok a) (fun _ h => h) hf

theorem mapError (h : AsksSimple p x) (g : ε → ε') : AsksSimple p (x.mapError g) := by
  induction x with
  | done r =>
    cases r with
    | error e => exact error
    | ok a => exact ok (h a rfl)
  | ask a b σ next ih => exact ⟨h.1, h.2.1, fun r hr => ih r (h.2.2 r hr)⟩

end AsksSimple

end Asking

/-- Unification of simple types ends by itself. -/
theorem Unify.answered_unifyOpening {a b : Ty} (ha : a.isSimple) (hb : b.isSimple)
    (σ : NameSupply) : Answered (unifyOpening a b σ) := by
  refine answered_openingWithin (n := 0) ⟨Ty.wellScoped_of_isSimple 0 ha,
    Ty.wellScoped_of_isSimple 0 hb, Ty.isRankOne_of_isMono (Ty.isMono_of_isSimple ha),
    Ty.isRankOne_of_isMono (Ty.isMono_of_isSimple hb)⟩ ?_ σ
  exact (weight_le a b).trans (Nat.le_add_right _ _)

namespace Asking

variable {ε α : Type} {p : α → Prop} {x : Asking ε α}

/-- All questions about simple types are answered in enough rounds, as they are by unification that
counts. -/
theorem AsksSimple.exists_run (h : AsksSimple p x) :
    ∃ rounds r, x.run (.within rounds) = some r ∧ x.run .counting = some r ∧
      ∀ a, r = .ok a → p a := by
  induction x with
  | done r => exact ⟨0, r, rfl, rfl, h⟩
  | ask a b σ next ih =>
    obtain ⟨ha, hb, hnext⟩ := h
    have hwithin : Solver.within (Unify.openingRounds a b) a b σ =
        some (Unify.answer (unifyOpening a b σ)) :=
      Unify.answer?_eq_some_iff.mpr ⟨Unify.answered_unifyOpening ha hb σ, rfl⟩
    have hsimple : ∀ s σ', Unify.answer (unifyOpening a b σ) = .ok (s, σ') → s.IsSimple := by
      intro s σ' hs
      rcases unifyOpening_cases ha hb with ⟨r, hr, hrun⟩ | ⟨⟨e, hrun⟩, -⟩
      · rw [hrun] at hs
        cases hs
        exact hr.isSimple
      · rw [hrun] at hs
        cases hs
    obtain ⟨rounds, r, hr, hcounting, hp⟩ := ih _ (hnext _ hsimple)
    refine ⟨max (Unify.openingRounds a b) rounds, r, ?_, ?_, hp⟩
    · have hmax := Solver.extendsTo_within (Nat.le_max_left (Unify.openingRounds a b) rounds)
      rw [run, hmax a b σ _ hwithin]
      exact run_of_extendsTo (Solver.extendsTo_within (Nat.le_max_right _ _)) hr
    · exact hcounting

section Schemes

variable {Γ : Context} {a b : Ty} (ha : ∃ τ, a.Instance τ) (hb : ∃ τ, b.Instance τ)

include ha hb

theorem asks_isInstance : AsksSimple (fun _ => True) (isInstance Γ a b : Asking ε Bool) := by
  obtain ⟨hsimple, hsimple'⟩ := Context.isSimple_of_instances (Γ := Γ) rfl ha hb
  exact ⟨hsimple, hsimple', fun _ _ => .ok trivial⟩

theorem asks_areEquivalent : AsksSimple (fun _ => True) (areEquivalent Γ a b : Asking ε Bool) := by
  obtain ⟨hsimple, hsimple'⟩ := Context.isSimple_of_instances (Γ := Γ) rfl ha hb
  refine (asks_isInstance ha hb).bind fun r _ => ?_
  split
  · exact .ok trivial
  · refine (asks_isInstance hb ha).bind fun r _ => ?_
    split
    · exact .ok trivial
    · exact ⟨hsimple, hsimple', fun _ _ => .ok trivial⟩

end Schemes

section Rules

variable {c : Conclusion} (hne : c.calculus ≠ .systemF) {k : Solution} {a b : Ty}

include hne

theorem asks_equate (hk : k.IsSimple) (ha : a.isSimple) (hb : b.isSimple) :
    AsksSimple Solution.IsSimple (equate c a b k) := by
  have ha' := Subst.IsSimple.apply hk ha
  have hb' := Subst.IsSimple.apply hk hb
  have hsolve : AsksSimple (fun r => r.1.IsSimple)
      (solve c (k.subst.apply a) (k.subst.apply b) k.supply) := by
    unfold solve
    cases hc : c.calculus with
    | systemF => exact absurd hc hne
    | _ => exact ⟨ha', hb', fun r hr a ha => hr a.1 a.2 ha⟩
  simp only [equate]
  split
  · exact .ok hk
  · exact hsolve.bind fun r hr => .step _ fun _ _ => .ok (hr.append hk)

theorem asks_unify (hk : k.IsSimple) (ha : a.isSimple) (hb : b.isSimple) :
    AsksSimple Solution.IsSimple (unify c a b k) :=
  (asks_equate hne hk ha hb).mapError RuleError.unify

theorem asks_adopt (i : Nat) {s : Subst} (hs : s.IsSimple) (hk : k.IsSimple) :
    AsksSimple Solution.IsSimple (adopt c i s k) := by
  induction s with
  | nil => exact .ok hk
  | cons b s ih =>
    refine (ih fun b hb => hs b (List.mem_cons_of_mem _ hb)).bind fun k hk => ?_
    exact (asks_equate hne hk rfl (hs b (by simp))).mapError (RuleError.conflict i)

theorem asks_adoptAll (i : Nat) {ps : List Premise} (hps : ∀ p ∈ ps, p.subst.IsSimple)
    (hk : k.IsSimple) : AsksSimple Solution.IsSimple (adoptAll c i ps k) := by
  induction ps generalizing i k with
  | nil => exact .ok hk
  | cons p ps ih =>
    rw [List.forall_mem_cons] at hps
    exact (asks_adopt hne i hps.1 hk).bind fun k hk => ih (i + 1) hps.2 hk

theorem asks_equateBelow (i : Nat) {Γ₀ Δ₀ : Context} (hΓ₀ : Γ₀.IsSimple) (hΔ₀ : Δ₀.IsSimple)
    (d : Nat) {Γ Δ : Context} (hk : k.IsSimple) :
    AsksSimple Solution.IsSimple (equateBelow c i Γ₀ Δ₀ d Γ Δ k) := by
  induction Γ generalizing Δ d k with
  | nil =>
    cases Δ with
    | nil => exact .ok hk
    | cons f Δ => exact .error
  | cons e Γ ih =>
    cases Δ with
    | nil => exact .error
    | cons f Δ =>
      simp only [equateBelow]
      cases e.binding <;> cases f.binding
      case var.var =>
        cases hA : Γ₀.getType? d <;> cases hB : Δ₀.getType? d
        case some.some A B =>
          exact ((asks_equate hne hk (hΓ₀ d A hA) (hΔ₀ d B hB)).mapError _).bind fun k hk =>
            ih (d + 1) hk
        all_goals exact .error
      case name.name => exact ih (d + 1) hk
      case tyVar.tyVar => exact ih (d + 1) hk
      all_goals exact .error

variable (hΓ : c.context.IsSimple)

include hΓ

theorem asks_sameContext (i : Nat) {Δ : Context} (hΔ : Δ.IsSimple) (hk : k.IsSimple) :
    AsksSimple Solution.IsSimple (sameContext c i Δ k) := by
  unfold sameContext
  split
  · exact .error
  · exact asks_equateBelow hne i hΔ hΓ 0 hk

theorem asks_samePremises (i : Nat) {ps : List Premise} {ts : List Term}
    (hps : ∀ p ∈ ps, p.judgment.context.IsSimple) (hk : k.IsSimple) :
    AsksSimple Solution.IsSimple (samePremises c i ps ts k) := by
  induction ps generalizing ts i k with
  | nil => exact .ok hk
  | cons p ps ih =>
    cases ts with
    | nil => exact .ok hk
    | cons t ts =>
      rw [List.forall_mem_cons] at hps
      exact (asks_sameContext hne hΓ i hps.1 hk).bind fun k hk => .step _ fun _ _ =>
        ih (i + 1) hps.2 hk

theorem asks_extended (i : Nat) {Δ : Context} (hΔ : Δ.IsSimple) (hk : k.IsSimple) :
    AsksSimple (fun b => (∀ a, b.1 = .var a → a.isSimple) ∧ b.2.IsSimple) (extended c i Δ k) := by
  cases Δ with
  | nil => exact .error
  | cons e Δ =>
    refine (asks_sameContext hne hΓ i hΔ.tail hk).bind fun k hk => .ok ⟨fun a ha => ?_, hk⟩
    obtain ⟨x, b⟩ := e
    cases ha
    exact hΔ.of_cons.1

theorem asks_checkVar (i : Nat) {ty : Ty} (hty : ty.isSimple) (hk : k.IsSimple) :
    AsksSimple Solution.IsSimple (checkVar c i ty k) := by
  unfold checkVar
  cases hi : c.context.getType? i with
  | none => exact .error
  | some scheme =>
    have hscheme := hΓ i scheme hi
    cases c.calculus with
    | hindleyMilner =>
      dsimp only
      rw [NameSupply.openAll_of_not_all (Ty.ne_all_of_isSimple hscheme)]
      exact (asks_unify hne (k := { k with supply := k.supply }) hk hscheme hty).bind fun k hk =>
        .ok (Subst.IsSimple.without hk [])
    | _ => exact asks_unify hne hk hscheme hty

theorem asks_checkAbs {annot : Option Ty} (hannot : ∀ a ∈ annot, a.isSimple) (t : Term) {ty : Ty}
    (hty : ty.isSimple) {p : Premise} (hj : p.judgment.IsSimple) (hs : p.subst.IsSimple)
    (hk : k.IsSimple) : AsksSimple Solution.IsSimple (checkAbs c annot t ty p k) := by
  have hb : (p.judgment.ty.shift (-1)).isSimple := by rw [Ty.shift_of_isSimple _ hj.ty]; exact hj.ty
  refine (asks_extended hne hΓ 0 hj.context hk).bind ?_
  rintro ⟨b, k⟩ ⟨hb', hk⟩
  cases b with
  | var a =>
    have ha := hb' a rfl
    rw [unbind_of_isSimple 0 hs]
    refine .step _ fun _ _ => (asks_adopt hne 0 hs hk).bind fun k hk => ?_
    have hconclusion : ∀ k : Solution, k.IsSimple → AsksSimple Solution.IsSimple
        (unify c ty (.arr a (p.judgment.ty.shift (-1))) k) := fun k hk =>
      asks_unify hne hk hty ((Ty.isSimple_arr a _).mpr ⟨ha, hb⟩)
    cases annot with
    | none => exact hconclusion k hk
    | some a' => exact (asks_unify hne hk (hannot a' rfl) ha).bind hconclusion
  | _ => exact .error

theorem asks_checkApp (t u : Term) {ty : Ty} (hty : ty.isSimple) {p q : Premise}
    (hps : ∀ r ∈ [p, q], r.judgment.IsSimple ∧ r.subst.IsSimple) (hk : k.IsSimple) :
    AsksSimple Solution.IsSimple (checkApp c t u ty p q k) := by
  refine (asks_samePremises hne hΓ 0 (fun r hr => (hps r hr).1.context) hk).bind fun k hk => ?_
  refine (asks_adoptAll hne 0 (fun r hr => (hps r hr).2) hk).bind fun k hk => ?_
  exact asks_unify hne hk (hps p (by simp)).1.ty
    ((Ty.isSimple_arr _ _).mpr ⟨(hps q (by simp)).1.ty, hty⟩)

theorem asks_checkIte (i t e : Term) {ty : Ty} (hty : ty.isSimple) {p q r : Premise}
    (hps : ∀ r' ∈ [p, q, r], r'.judgment.IsSimple ∧ r'.subst.IsSimple) (hk : k.IsSimple) :
    AsksSimple Solution.IsSimple (checkIte c i t e ty p q r k) := by
  refine (asks_samePremises hne hΓ 0 (fun r hr => (hps r hr).1.context) hk).bind fun k hk => ?_
  refine (asks_adoptAll hne 0 (fun r hr => (hps r hr).2) hk).bind fun k hk => ?_
  refine (asks_unify hne hk (hps p (by simp)).1.ty rfl).bind fun k hk => ?_
  refine (asks_unify hne hk (hps q (by simp)).1.ty hty).bind fun k hk => ?_
  exact asks_unify hne hk (hps r (by simp)).1.ty hty

theorem asks_checkLet (e t : Term) {ty : Ty} (hty : ty.isSimple) {p q : Premise}
    (hps : ∀ r ∈ [p, q], r.judgment.IsSimple ∧ r.subst.IsSimple) (hk : k.IsSimple) :
    AsksSimple Solution.IsSimple (checkLet c e t ty p q k) := by
  simp only [List.forall_mem_cons] at hps
  obtain ⟨⟨hp, hps⟩, ⟨hq, hqs⟩, -⟩ := hps
  have hb : (q.judgment.ty.shift (-1)).isSimple := by rw [Ty.shift_of_isSimple _ hq.ty]; exact hq.ty
  refine (asks_samePremises hne hΓ 0 (by simpa using hp.context) hk).bind fun k hk => ?_
  refine (asks_extended hne hΓ 1 hq.context hk).bind ?_
  rintro ⟨b, k⟩ ⟨hb', hk⟩
  cases b with
  | var a =>
    have ha := hb' a rfl
    rw [unbind_of_isSimple 1 hqs]
    refine .step _ fun _ _ => (asks_adopt hne 0 hps hk).bind fun k hk => ?_
    refine (asks_adopt hne 1 hqs hk).bind fun k hk => ?_
    have hconclusion : ∀ k : Solution, k.IsSimple → AsksSimple Solution.IsSimple
        (unify c ty (q.judgment.ty.shift (-1)) k) := fun k hk => asks_unify hne hk hty hb
    cases c.calculus with
    | hindleyMilner =>
      have hscheme := Subst.IsSimple.apply hk ha
      have hdefinition := Subst.IsSimple.apply hk hp.ty
      have hself : ∀ Γ : Context, (Γ.generalize (k.subst.apply p.judgment.ty) []).Instance
          (k.subst.apply p.judgment.ty) := fun Γ =>
        (Context.instance_generalize_iff hdefinition).mpr
          ⟨.name, isSimpleMap_name, fun _ _ => rfl, Ty.mapNames_id _⟩
      refine .step _ fun Γ _ => ?_
      refine (asks_areEquivalent ⟨_, hself Γ⟩ ⟨_, .simple hscheme⟩).bind fun same _ => ?_
      split
      · exact hconclusion k hk
      · exact .error
    | _ => exact (asks_unify hne hk ha hp.ty).bind hconclusion
  | _ => exact .error

theorem asks_check {r : Rule} {t : Term} (ht : t.IsPlain) {ty : Ty} (hty : ty.isSimple)
    {ps : List Premise} (hps : ∀ p ∈ ps, p.judgment.IsSimple ∧ p.subst.IsSimple)
    (hk : k.IsSimple) : AsksSimple Solution.IsSimple (check c r t ty ps k) := by
  unfold check
  split
  case h_1 => exact asks_checkVar hne hΓ _ hty hk
  case h_2 => exact asks_checkAbs hne hΓ ht.1 _ hty (hps _ (by simp)).1 (hps _ (by simp)).2 hk
  case h_3 => exact asks_checkApp hne hΓ _ _ hty hps hk
  case h_4 => exact asks_checkIte hne hΓ _ _ _ hty hps hk
  case h_5 => exact ht.elim
  case h_6 => exact ht.elim
  case h_7 => exact asks_checkLet hne hΓ _ _ hty hps hk
  case h_8 => exact asks_unify hne hk hty rfl
  case h_9 => exact asks_unify hne hk hty rfl
  case h_10 => exact .error

end Rules

section Nodes

variable {k : Calculus} (hne : k ≠ .systemF) {cs : List (Option Judgment × Subst)}
  (hcs : ∀ c ∈ cs, c.2.IsSimple ∧ ∀ j ∈ c.1, j.IsSimple)

include hne hcs

theorem asks_checkRule {r : Rule} {j : Judgment} (hj : j.IsSimple) :
    AsksSimple Subst.IsSimple (checkRule k r j cs) := by
  unfold checkRule
  by_cases hnone : r = .none
  · rw [if_pos hnone]
    exact .error
  rw [if_neg hnone]
  by_cases hfits : (!r.fits j.term) = true
  · rw [if_pos hfits]
    exact .error
  rw [if_neg hfits]
  by_cases harity : r.arity ≠ cs.length
  · rw [if_pos harity]
    exact .error
  rw [if_neg harity]
  refine .step _ fun ps hps => ?_
  obtain rfl := premises_eq_ok_iff.mp hps
  simp only [List.forall_mem_map, Option.mem_some_iff, forall_eq'] at hcs
  refine (asks_check (c := ⟨k, j.context⟩) hne hj.context hj.term hj.ty
    (fun p hp => (hcs p hp).symm) ?_).bind fun k hk => .ok hk
  exact Subst.solves_nil.isSimple

theorem asks_checkNode {r : Rule} {f : Fields} (hf : ∀ j, f.judgment? = some j → j.IsSimple) :
    AsksSimple Subst.IsSimple (checkNode k r f cs) := by
  refine .step _ fun j hj => .step _ fun _ _ => .step _ fun _ _ => .step _ fun _ _ => ?_
  have hj' := hf j (Fields.judgment?_eq_some_iff.mpr (mapError_eq_ok_iff.mp hj))
  exact (asks_checkRule hne hcs hj').mapError NodeError.rule

end Nodes

end Asking

namespace RuleTree

/-- All judgments that are read are simple. -/
def IsSimple (t : RuleTree) : Prop := ∀ n, t.Reads n → ∀ j, n.judgment? = some j → j.IsSimple

variable {k : Calculus}

theorem exists_rounds_forall {blocked : Bool} {ts : List RuleTree}
    (h : ∀ t ∈ ts, ∃ rounds,
      t.checkBelowBy (.within rounds) k blocked = some (t.checkBelow k blocked)) :
    ∃ rounds, ∀ t ∈ ts,
      t.checkBelowBy (.within rounds) k blocked = some (t.checkBelow k blocked) := by
  induction ts with
  | nil => exact ⟨0, by simp⟩
  | cons t ts ih =>
    rw [List.forall_mem_cons] at h
    obtain ⟨m, hm⟩ := h.1
    obtain ⟨n, hn⟩ := ih h.2
    refine ⟨max m n, List.forall_mem_cons.mpr ⟨?_, fun u hu => ?_⟩⟩
    · exact checkBelowBy_of_le (Nat.le_max_left m n) hm
    · exact checkBelowBy_of_le (Nat.le_max_right m n) (hn u hu)

section Simple

variable {blocked : Bool} {t : RuleTree} (h : blocked = false → t.IsSimple)

include h

theorem isSimple_of_fields {j : Judgment}
    (hj : (t.checkBelow k blocked).fields.judgment? = some j) : j.IsSimple := by
  rw [fields_checkBelow] at hj
  cases blocked with
  | true => cases hj
  | false => exact h rfl t (.root t) j hj

theorem isSimple_of_asPremise (hs : ∀ s, (t.checkBelow k blocked).outcome = .ok s → s.IsSimple) :
    (t.checkBelow k blocked).asPremise.2.IsSimple ∧
      ∀ j ∈ (t.checkBelow k blocked).asPremise.1, j.IsSimple := by
  refine ⟨?_, fun j => isSimple_of_fields h⟩
  unfold Checked.asPremise
  cases houtcome : (t.checkBelow k blocked).outcome with
  | ok s => exact hs s houtcome
  | error e => exact Subst.solves_nil.isSimple

/-- A tree is checked in enough rounds, and its outcome binds names to simple types. -/
theorem checkBelowBy_of_isSimple (hne : k ≠ .systemF) :
    (∃ rounds, t.checkBelowBy (.within rounds) k blocked = some (t.checkBelow k blocked)) ∧
      ∀ s, (t.checkBelow k blocked).outcome = .ok s → s.IsSimple := by
  induction t using induction generalizing blocked with
  | node t ih =>
    have hchild : ∀ n ∈ t.children, (blocked || t.judgment?.isNone) = false → n.IsSimple := by
      intro n hn hflag m hm
      rw [Bool.or_eq_false_iff, Option.isNone_eq_false_iff, Option.isSome_iff_exists] at hflag
      obtain ⟨hblocked, j, hj⟩ := hflag
      exact h hblocked m (.child hj hn hm)
    have hpremises : ∀ c ∈ (t.checkBelow k blocked).children.map Checked.asPremise,
        c.2.IsSimple ∧ ∀ j ∈ c.1, j.IsSimple := by
      rw [children_checkBelow, List.map_map, List.forall_mem_map]
      exact fun n hn => isSimple_of_asPremise (hchild n hn) (ih n hn (hchild n hn)).2
    obtain ⟨m, hm⟩ := exists_rounds_forall fun n hn => (ih n hn (hchild n hn)).1
    obtain ⟨n, r, hr, hcounting, hsimple⟩ := (Asking.asks_checkNode (r := t.rule) hne hpremises
      fun j => isSimple_of_fields h).exists_run
    rw [Asking.run_checkNode (.inr rfl), ← outcome_checkBelow] at hcounting
    obtain rfl := Option.some.inj hcounting
    refine ⟨⟨max m n, checkBelowBy_of_children (fun c hc => ?_) ?_⟩, hsimple⟩
    · exact checkBelowBy_of_le (Nat.le_max_left m n) (hm c hc)
    · exact Asking.run_of_extendsTo (Solver.extendsTo_within (Nat.le_max_right m n)) hr

end Simple

/-- A check of simple judgments returns, and so does every check in System F. -/
theorem returns_check {t : RuleTree} (h : k = .systemF ∨ t.IsSimple) : t.Returns k (t.check k) := by
  by_cases hk : k = .systemF
  · rw [hk]
    exact returns_systemF t
  · exact (checkBelowBy_of_isSimple (fun _ => h.resolve_left hk) hk).1

end RuleTree

end LambdaTyping
