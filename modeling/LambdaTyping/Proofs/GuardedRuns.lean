import Mathlib
import LambdaTyping.Proofs.GuardedShifts
import LambdaTyping.Proofs.LargerContexts

/-!
# Guarded runs

Inference moves types and terms out of the scope of binders: a substitution and a
type out of an abstraction or a definition, the type below a quantifier and the
term below a type abstraction when their variable is replaced, the types of a
context when a substitution has been applied to them. A guarded run is a run that
tests before each of these moves whether anything would be lost, and stops with a
fault of its own kind if so. On what was read from text the guarded run is the
run: the tests never fail.
-/
namespace LambdaTyping

/-- Why a guarded computation stops. -/
inductive Fault where
  /-- A move would lose a variable. -/
  | shift
  | type (e : TypeError)

/-- Computations with new names that test their moves. -/
abbrev Guarded := EStateM Fault NameSupply

namespace Guarded

variable {α β : Type}

/-- A computation without a test. -/
def lift (m : Supplied α) : Guarded α := fun σ =>
  match m σ with
  | .ok a σ => .ok a σ
  | .error e σ => .error (.type e) σ

/-- Stop if a test fails. -/
def check (ok : Bool) : Guarded Unit := fun σ => if ok then .ok () σ else .error .shift σ

/-- Replace the most recent variable by `s` and drop its binder. -/
def substTop (a s : Ty) : Guarded Ty := do
  check ((a.subst 0 (s.shift 1)).canShift (-1))
  return a.substTop s

/-- The type with new names for all its outermost quantified variables. -/
def instantiate (ty : Ty) : Guarded Ty :=
  match ty with
  | .all x a => do
    let x ← lift (.take (·.like x))
    check ((a.subst 0 ((Ty.name x).shift 1)).canShift (-1))
    instantiate (a.openWith x)
  | ty => return ty
termination_by ty.size
decreasing_by simp [Ty.size]

/-- One round of opening unification; `next` starts another one. -/
def openingRound (next : Ty → Ty → Guarded Subst) : Ty → Ty → Guarded Subst
  | .name x, b => if b = .name x then return [] else lift (.ofExcept (Subst.bind x b))
  | a, .name y => lift (.ofExcept (Subst.bind y a))
  | .bool, .bool => return []
  | .arr a₁ b₁, .arr a₂ b₂ => do
    let s₁ ← openingRound next a₁ a₂
    if s₁.isEmpty then openingRound next b₁ b₂
    else
      let s₂ ← next (s₁.apply b₁) (s₁.apply b₂)
      return s₂ ++ s₁
  | .all x a, b => do
    let x ← lift (.take (·.like x))
    let a ← substTop a (.name x)
    next a b
  | a, .all y b => do
    let y ← lift (.take (·.like y))
    let b ← substTop b (.name y)
    next a b
  | .var i n, .var j m =>
    if level i n = level j m then return []
    else lift (.fail (.incompatible (.var i n) (.var j m)))
  | a, b => lift (.fail (.incompatible a b))

def openingWithin : Nat → Ty → Ty → Guarded Subst
  | 0 => openingRound fun a b => lift (.fail (.unresolved a b))
  | rounds + 1 => openingRound (openingWithin rounds)

def unifyOpening (a b : Ty) : Guarded Subst := openingWithin (Unify.openingRounds a b) a b

def applyContext (Γ : Context) (s : Subst) : Guarded Context := do
  check (Γ.canApply s)
  lift (.ofExcept (Γ.apply s))

def keepRigid (Γ : Context) (s : Subst) (n x : String) : Guarded Subst := do
  let s ← match s.apply (.name n) with
    | .name m => if m = n then pure s else pure (Subst.single m (.name n) ++ s)
    | _ => lift (.fail (.escape x))
  let Δ ← applyContext Γ s
  if n ∈ Δ.freeNames then lift (.fail (.escape x)) else return s

/-- A substitution, and the type of the term under it. -/
def run (Γ : Context) (t : Term) : Guarded (Subst × Ty) :=
  match t with
  | .var _ i _ => do
    let ty ← lift (Infer.lookup Γ i)
    let ty ← instantiate ty
    return ([], ty)
  | .const .. => return ([], .bool)
  | .abs _ x ty t => do
    let a ← lift (Infer.orNew ty)
    let (s, b) ← run (⟨x, .var a⟩ :: Γ) t
    check (s.canShift (-1) && b.canShift (-1))
    let s := s.shift (-1)
    return (s, .arr (s.apply a) (b.shift (-1)))
  | .app _ t u => do
    let (s₁, a) ← run Γ t
    let Γ₁ ← applyContext Γ s₁
    let (s₂, b) ← run Γ₁ u
    let r ← lift (.take NameSupply.letter)
    let s₃ ← unifyOpening (s₂.apply a) (.arr b (.name r))
    return (s₃ ++ s₂ ++ s₁, s₃.apply (.name r))
  | .ite _ c t e => do
    let (s₁, a) ← run Γ c
    let s ← unifyOpening a .bool
    let s₁ := s ++ s₁
    let Γ₁ ← applyContext Γ s₁
    let (s₂, b) ← run Γ₁ t
    let s₂ := s₂ ++ s₁
    let Γ₂ ← applyContext Γ s₂
    let (s₃, d) ← run Γ₂ e
    let s₄ ← unifyOpening (s₃.apply b) d
    return (s₄ ++ s₃ ++ s₂, s₄.apply d)
  | .letIn _ x e t => do
    let (s₁, a) ← run Γ e
    let Γ₁ ← applyContext Γ s₁
    let (s₂, b) ← run (⟨x, .var (Γ₁.generalize a [])⟩ :: Γ₁) t
    check (s₂.canShift (-1) && b.canShift (-1))
    return (s₂.shift (-1) ++ s₁, b.shift (-1))
  | .tyAbs _ x t => do
    let n ← lift (.take (·.like x))
    check ((t.substTy 0 ((Ty.name n).shift 1)).canShift (-1))
    let (s, b) ← run Γ (t.substTyTop (.name n))
    let s ← keepRigid Γ s n x
    return (s, .all x (((s.apply b).shift 1).bindName n Γ.length))
  | .tyApp _ t ty => do
    let (s, a) : Subst × Ty ← match t with
      | .var _ i _ => do
        let a ← lift (Infer.lookup Γ i)
        pure ([], a)
      | t => run Γ t
    match a with
    | .all _ b => do
      let b ← substTop b (s.apply ty)
      return (s, b)
    | a => lift (.fail (.forallExpected a))
termination_by t.size
decreasing_by all_goals (simp only [Term.size, Term.size_substTyTop]; omega)

theorem lift_bind (m : Supplied α) (f : α → Supplied β) :
    lift (m >>= f) = lift m >>= fun a => lift (f a) := by
  funext σ
  change lift (EStateM.bind m f) σ = EStateM.bind (lift m) (fun a => lift (f a)) σ
  simp only [lift, EStateM.bind]
  cases m σ <;> rfl

/-- Without a test there is no fault of its kind. -/
theorem lift_ne_shift (m : Supplied α) (σ σ' : NameSupply) : lift m σ ≠ .error .shift σ' := by
  rw [lift]
  cases m σ <;> simp

end Guarded

/-- The guarded computation is the computation itself, all of whose results have the property. -/
structure Agrees {α : Type} (P : α → Prop) (g : Guarded α) (m : Supplied α) : Prop where
  eq : g = .lift m
  result : ∀ {σ a σ'}, m σ = .ok a σ' → P a

namespace Agrees

open Guarded (lift check)

variable {α β : Type} {P : α → Prop} {Q : β → Prop}

theorem pure {a : α} (h : P a) : Agrees P (pure a) (pure a) where
  eq := rfl
  result hm := by
    obtain ⟨rfl, -⟩ := Supplied.pure_eq_ok_iff.mp hm
    exact h

theorem unguarded {m : Supplied α} (h : ∀ {σ a σ'}, m σ = .ok a σ' → P a) :
    Agrees P (lift m) m := ⟨rfl, h⟩

theorem fail (e : TypeError) : Agrees P (lift (.fail e)) (.fail e) :=
  unguarded fun h => by cases h

/-- One computation after the other. -/
theorem bind {g : Guarded α} {m : Supplied α} {g' : α → Guarded β} {m' : α → Supplied β}
    (h : Agrees P g m) (h' : ∀ a, P a → Agrees Q (g' a) (m' a)) :
    Agrees Q (g >>= g') (m >>= m') where
  eq := by
    rw [Guarded.lift_bind, h.eq]
    funext σ
    change EStateM.bind _ _ σ = EStateM.bind _ _ σ
    simp only [EStateM.bind, lift]
    cases hm : m σ with
    | ok a σ' => exact congrFun (h' a (h.result hm)).eq σ'
    | error e σ' => rfl
  result hm := by
    obtain ⟨a, σ₁, ha, hb⟩ := Supplied.bind_eq_ok_iff.mp hm
    exact (h' a (h.result ha)).result hb

/-- A test that does not fail. -/
theorem guard {ok : Bool} {g : Guarded α} {m : Supplied α} (hok : ok = true) (h : Agrees P g m) :
    Agrees P (check ok >>= fun _ => g) m := by
  subst hok
  exact h

end Agrees

section Steps

theorem Subst.FormedIn.nil {ks : List Kind} : Subst.FormedIn ks [] := by simp [Subst.FormedIn]

variable {ks : List Kind} {Γ : Context} {a b : Ty} {s : Subst}

/-- A quantified variable is replaced before something else is done. -/
theorem agrees_substTop_bind {α : Type} {Q : α → Prop} {x : String} (ha : (Ty.all x a).FormedIn ks)
    (b : Ty) {g : Ty → Guarded α} {m : Supplied α} (h : Agrees Q (g (a.substTop b)) m) :
    Agrees Q (Guarded.substTop a b >>= g) m := by
  have hok : (a.subst 0 (b.shift 1)).canShift (-1) = true :=
    Ty.FormedIn.canShiftAbove_subst (l := []) ha b
  rw [Guarded.substTop, hok]
  exact h

theorem instantiate_apply (a : Ty) (σ : NameSupply) :
    Supplied.instantiate a σ = .ok (σ.openAll a).1.2 (σ.openAll a).2 := rfl

theorem instantiate_all (x : String) (a : Ty) :
    Supplied.instantiate (.all x a) =
      (Supplied.take (·.like x) >>= fun x => Supplied.instantiate (a.openWith x)) := by
  funext σ
  rw [instantiate_apply, NameSupply.openAll_all]
  rfl

theorem instantiate_of_not_all (h : ∀ x b, a ≠ .all x b) : Supplied.instantiate a = pure a := by
  funext σ
  rw [instantiate_apply, NameSupply.openAll_of_not_all h]
  rfl

theorem agrees_instantiate (ha : a.FormedIn ks) :
    Agrees (Ty.FormedIn ks) (Guarded.instantiate a) (.instantiate a) := by
  induction hn : a.size generalizing a with
  | zero => cases a <;> simp [Ty.size] at hn
  | succ n ih =>
    cases a with
    | all x a =>
      rw [instantiate_all, Guarded.instantiate]
      refine .bind (P := fun _ => True) (.unguarded fun _ => trivial) fun y _ => ?_
      refine .guard (Ty.FormedIn.canShiftAbove_subst (l := []) ha (.name y)) (ih ha.openWith ?_)
      simpa [Ty.size] using hn
    | _ =>
      rw [instantiate_of_not_all (by simp), Guarded.instantiate]
      · exact .pure ha
      · simp

theorem agrees_applyContext (hΓ : Γ.Formed) (hs : s.FormedIn Γ.kinds) :
    Agrees (fun Δ => Δ.kinds = Γ.kinds ∧ Δ.Formed) (Guarded.applyContext Γ s)
      (.ofExcept (Γ.apply s)) :=
  .guard (hΓ.canApply hs) <| .unguarded fun h =>
    hΓ.apply hs (Supplied.ofExcept_eq_ok_iff.mp h).1

theorem agrees_bind {x : String} (ha : a.FormedIn ks) :
    Agrees (Subst.FormedIn ks) (.lift (.ofExcept (Subst.bind x a))) (.ofExcept (Subst.bind x a)) :=
  .unguarded fun h => by
    obtain ⟨-, rfl, -⟩ := Unify.bind_eq_ok h
    simpa [Subst.FormedIn] using ha

section Round

variable {next : Ty → Ty → Supplied Subst} {guardedNext : Ty → Ty → Guarded Subst}
  (hnext : ∀ {a b : Ty}, a.FormedIn ks → b.FormedIn ks →
    Agrees (Subst.FormedIn ks) (guardedNext a b) (next a b))

include hnext

theorem agrees_open_left {x : String} (ha : (Ty.all x a).FormedIn ks) (hb : b.FormedIn ks) :
    Agrees (Subst.FormedIn ks)
      (Guarded.lift (.take (·.like x)) >>= fun y =>
        Guarded.substTop a (.name y) >>= (guardedNext · b))
      (Supplied.take (·.like x) >>= fun y => next (a.openWith y) b) :=
  .bind (P := fun _ => True) (.unguarded fun _ => trivial) fun y _ =>
    agrees_substTop_bind ha (.name y) (hnext ha.openWith hb)

theorem agrees_open_right {y : String} (ha : a.FormedIn ks) (hb : (Ty.all y b).FormedIn ks) :
    Agrees (Subst.FormedIn ks)
      (Guarded.lift (.take (·.like y)) >>= fun y =>
        Guarded.substTop b (.name y) >>= guardedNext a)
      (Supplied.take (·.like y) >>= fun y => next a (b.openWith y)) :=
  .bind (P := fun _ => True) (.unguarded fun _ => trivial) fun y _ =>
    agrees_substTop_bind hb (.name y) (hnext ha hb.openWith)

theorem agrees_openingRound (ha : a.FormedIn ks) (hb : b.FormedIn ks) :
    Agrees (Subst.FormedIn ks) (Guarded.openingRound guardedNext a b)
      (Unify.openingRound next a b) := by
  have hnil : Agrees (Subst.FormedIn ks) (pure []) (pure []) := .pure .nil
  induction a generalizing b with
  | name x =>
    rw [Guarded.openingRound, Unify.openingRound]
    split
    · exact hnil
    · exact agrees_bind hb
  | bool =>
    cases b with
    | name y => exact agrees_bind ha
    | bool => exact hnil
    | all y b => exact agrees_open_right hnext ha hb
    | _ => exact .fail _
  | var i n =>
    cases b with
    | name y => exact agrees_bind ha
    | var j m =>
      rw [Guarded.openingRound, Unify.openingRound]
      split
      · exact hnil
      · exact .fail _
    | all y b => exact agrees_open_right hnext ha hb
    | _ => exact .fail _
  | arr a₁ b₁ iha ihb =>
    cases b with
    | name y => exact agrees_bind ha
    | arr a₂ b₂ =>
      rw [Guarded.openingRound, Unify.openingRound]
      refine .bind (iha ha.1 hb.1) fun s₁ hs₁ => ?_
      split
      · exact ihb ha.2 hb.2
      · exact .bind (hnext (hs₁.apply ha.2) (hs₁.apply hb.2)) fun s₂ hs₂ => .pure (hs₂.append hs₁)
    | all y b => exact agrees_open_right hnext ha hb
    | _ => exact .fail _
  | all x a ih =>
    cases b with
    | name y => exact agrees_bind ha
    | _ => exact agrees_open_left hnext ha hb

end Round

theorem agrees_openingWithin (rounds : Nat) (ha : a.FormedIn ks) (hb : b.FormedIn ks) :
    Agrees (Subst.FormedIn ks) (Guarded.openingWithin rounds a b)
      (Unify.openingWithin rounds a b) := by
  induction rounds generalizing a b with
  | zero => exact agrees_openingRound (fun _ _ => .fail _) ha hb
  | succ rounds ih => exact agrees_openingRound ih ha hb

theorem agrees_unifyOpening (ha : a.FormedIn ks) (hb : b.FormedIn ks) :
    Agrees (Subst.FormedIn ks) (Guarded.unifyOpening a b) (unifyOpening a b) :=
  agrees_openingWithin _ ha hb

theorem agrees_keepRigid (hΓ : Γ.Formed) (hs : s.FormedIn Γ.kinds) (n x : String) :
    Agrees (Subst.FormedIn Γ.kinds) (Guarded.keepRigid Γ s n x)
      (.ofExcept (keepRigid Γ s n x)) := by
  have habsent {r : Subst} (hr : r.FormedIn Γ.kinds) :
      Agrees (Subst.FormedIn Γ.kinds)
        (Guarded.applyContext Γ r >>= fun Δ =>
          if n ∈ Δ.freeNames then .lift (.fail (.escape x)) else pure r)
        (.ofExcept (Γ.apply r >>= fun Δ =>
          if n ∈ Δ.freeNames then .error (.escape x) else pure r)) := by
    rw [Supplied.ofExcept_bind]
    refine .bind (agrees_applyContext hΓ hr) fun Δ _ => ?_
    split
    · exact .fail _
    · exact .pure hr
  rw [Guarded.keepRigid, keepRigid]
  cases s.apply (.name n) with
  | name m =>
    by_cases hm : m = n
    · simp only [hm, if_true]
      exact habsent hs
    · simp only [hm, if_false]
      have hback : (Subst.single m (.name n)).FormedIn Γ.kinds := by
        simp [Subst.FormedIn, Subst.single, Ty.FormedIn]
      exact habsent (hback.append hs)
  | _ => exact .fail _

theorem agrees_lookup (hΓ : Γ.Formed) (i : Nat) :
    Agrees (Ty.FormedIn Γ.kinds) (.lift (Infer.lookup Γ i)) (Infer.lookup Γ i) :=
  .unguarded fun h => by
    cases ha : Γ.getType? i with
    | none =>
      rw [Infer.lookup, ha] at h
      cases h
    | some a =>
      rw [Infer.lookup, ha] at h
      obtain ⟨rfl, -⟩ := Supplied.pure_eq_ok_iff.mp h
      exact hΓ.getType? ha

theorem agrees_orNew {ty : Option Ty} (hty : ∀ a ∈ ty, a.FormedIn ks) :
    Agrees (Ty.FormedIn ks) (.lift (Infer.orNew ty)) (Infer.orNew ty) :=
  .unguarded fun h => by
    cases ty with
    | some a =>
      obtain ⟨rfl, -⟩ := Supplied.pure_eq_ok_iff.mp h
      exact hty _ rfl
    | none =>
      obtain ⟨x, σ₁, -, h⟩ := Supplied.bind_eq_ok_iff.mp h
      obtain ⟨rfl, -⟩ := Supplied.pure_eq_ok_iff.mp h
      trivial

end Steps

/-- A substitution and a type that are formed. -/
def FormedResult (ks : List Kind) (r : Subst × Ty) : Prop := r.1.FormedIn ks ∧ r.2.FormedIn ks

/-- What is done with the type of a head: a quantified variable is filled, everything else fails. -/
theorem agrees_fill {ks : List Kind} {ty : Ty} (hty : ty.FormedIn ks) {g : Guarded (Subst × Ty)}
    {m : Supplied (Subst × Ty)} (h : Agrees (FormedResult ks) g m)
    {f : Subst × Ty → Guarded (Subst × Ty)} {f' : Subst × Ty → Supplied (Subst × Ty)}
    (hf : ∀ s y b, f (s, .all y b) = (Guarded.substTop b (s.apply ty) >>= fun b => pure (s, b)))
    (hf' : ∀ s y b, f' (s, .all y b) = pure (s, b.substTop (s.apply ty)))
    (hother : ∀ s a, (∀ y b, a ≠ .all y b) →
      ∃ e, f (s, a) = .lift (.fail e) ∧ f' (s, a) = .fail e) :
    Agrees (FormedResult ks) (g >>= f) (m >>= f') := by
  refine .bind h fun r hr => ?_
  obtain ⟨s, a⟩ := r
  by_cases ha : ∃ y b, a = .all y b
  · obtain ⟨y, b, rfl⟩ := ha
    rw [hf, hf']
    exact agrees_substTop_bind hr.2 _ (.pure ⟨hr.1, hr.2.substTop (hr.1.apply hty)⟩)
  · obtain ⟨e, he, he'⟩ := hother s a fun y b h => ha ⟨y, b, h⟩
    rw [he, he']
    exact .fail e

theorem agrees_run {t : Term} {Γ : Context} (hΓ : Γ.Formed) (ht : t.ScopedIn Γ.kinds) :
    Agrees (FormedResult Γ.kinds) (Guarded.run Γ t) (Infer.run Γ t) := by
  induction t using Term.filled_induction generalizing Γ with
  | var p i n =>
    rw [Guarded.run, Infer.run]
    exact .bind (agrees_lookup hΓ i) fun a ha => .bind (agrees_instantiate ha) fun b hb =>
      .pure ⟨.nil, hb⟩
  | const p b =>
    rw [Guarded.run, Infer.run]
    exact .pure ⟨.nil, trivial⟩
  | abs p x ty t ih =>
    rw [Guarded.run, Infer.run]
    refine .bind (agrees_orNew ht.1) fun a ha => ?_
    have hΓ' : Context.Formed (⟨x, .var a⟩ :: Γ) := ⟨fun _ h => by cases h; exact ha, hΓ⟩
    refine .bind (ih hΓ' ht.2) fun r hr => ?_
    have hs := hr.1.formedIn_shift_neg_one
    refine .guard (by simp [hr.1.canShift, hr.2.canShift]) (.pure ⟨hs, hs.apply ha, ?_⟩)
    exact hr.2.shift_neg_one.1
  | app p t u iht ihu =>
    rw [Guarded.run, Infer.run]
    refine .bind (iht hΓ ht.1) fun r₁ hr₁ => .bind (agrees_applyContext hΓ hr₁.1) fun Γ₁ hΓ₁ => ?_
    refine .bind (ihu hΓ₁.2 (hΓ₁.1 ▸ ht.2)) fun r₂ hr₂ => ?_
    rw [hΓ₁.1] at hr₂
    refine .bind (P := fun _ => True) (.unguarded fun _ => trivial) fun x _ => ?_
    refine .bind (agrees_unifyOpening (hr₂.1.apply hr₁.2) ⟨hr₂.2, trivial⟩) fun s₃ hs₃ => ?_
    exact .pure ⟨(hs₃.append hr₂.1).append hr₁.1, hs₃.apply trivial⟩
  | ite p c t e ihc iht ihe =>
    rw [Guarded.run, Infer.run]
    refine .bind (ihc hΓ ht.1) fun r₁ hr₁ => ?_
    refine .bind (agrees_unifyOpening hr₁.2 trivial) fun s hs => ?_
    have hs₁ := hs.append hr₁.1
    refine .bind (agrees_applyContext hΓ hs₁) fun Γ₁ hΓ₁ => ?_
    refine .bind (iht hΓ₁.2 (hΓ₁.1 ▸ ht.2.1)) fun r₂ hr₂ => ?_
    rw [hΓ₁.1] at hr₂
    have hs₂ := hr₂.1.append hs₁
    refine .bind (agrees_applyContext hΓ hs₂) fun Γ₂ hΓ₂ => ?_
    refine .bind (ihe hΓ₂.2 (hΓ₂.1 ▸ ht.2.2)) fun r₃ hr₃ => ?_
    rw [hΓ₂.1] at hr₃
    refine .bind (agrees_unifyOpening (hr₃.1.apply hr₂.2) hr₃.2) fun s₄ hs₄ => ?_
    exact .pure ⟨(hs₄.append hr₃.1).append hs₂, hs₄.apply hr₃.2⟩
  | tyAbs p x t ih =>
    rw [Guarded.run, Infer.run]
    refine .bind (P := fun _ => True) (.unguarded fun _ => trivial) fun n _ => ?_
    refine .guard (Term.ScopedIn.canShiftAbove_substTy (l := []) ht (.name n)) ?_
    refine .bind (ih (.name n) hΓ (Term.ScopedIn.substTyTop ht trivial)) fun r hr => ?_
    refine .bind (agrees_keepRigid hΓ hr.1 n x) fun s hs => .pure ⟨hs, ?_⟩
    exact Context.length_kinds Γ ▸ (hs.apply hr.2).bindName n
  | tyApp p t ty ih =>
    cases t with
    | var q i n =>
      rw [Guarded.run, Infer.run, ← bind_assoc, ← bind_assoc]
      refine agrees_fill ht.2 (.bind (agrees_lookup hΓ i) fun a ha => .pure ⟨.nil, ha⟩)
        (fun _ _ _ => rfl) (fun _ _ _ => rfl) fun s a h => ?_
      cases a with
      | all y b => exact absurd rfl (h y b)
      | _ => exact ⟨_, rfl, rfl⟩
    | _ =>
      rw [Guarded.run, Infer.run]
      · refine agrees_fill ht.2 (ih hΓ ht.1) (fun _ _ _ => rfl) (fun _ _ _ => rfl) fun s a h => ?_
        cases a with
        | all y b => exact absurd rfl (h y b)
        | _ => exact ⟨_, rfl, rfl⟩
      all_goals simp
  | letIn p x e t ihe iht =>
    rw [Guarded.run, Infer.run]
    refine .bind (ihe hΓ ht.1) fun r₁ hr₁ => .bind (agrees_applyContext hΓ hr₁.1) fun Γ₁ hΓ₁ => ?_
    rw [← hΓ₁.1] at hr₁ ht
    have hscheme : (Γ₁.generalize r₁.2 []).FormedIn Γ₁.kinds := by
      rw [Context.generalize, ← Γ₁.length_kinds]
      exact hr₁.2.generalize _
    have hΓ' : Context.Formed (⟨x, .var (Γ₁.generalize r₁.2 [])⟩ :: Γ₁) :=
      ⟨fun _ h => by cases h; exact hscheme, hΓ₁.2⟩
    refine .bind (iht hΓ' ht.2) fun r₂ hr₂ => ?_
    rw [← hΓ₁.1]
    refine .guard (by simp [hr₂.1.canShift, hr₂.2.canShift]) (.pure ⟨?_, ?_⟩)
    · exact hr₂.1.formedIn_shift_neg_one.append hr₁.1
    · exact hr₂.2.shift_neg_one.1

/-- Inference of what was read from text never loses a variable, whatever names are already in use:
all tests of the guarded run are passed. Its results are in scope and refer to type variables of the
context only. -/
theorem Infer.run_staysInScope {contextText termText : String} {Γ : Context} {t : Term}
    (hΓ : Context.parse contextText = .ok Γ) (ht : Term.parse Γ termText = .ok t)
    (σ : NameSupply) :
    Guarded.run Γ t σ = Guarded.lift (Infer.run Γ t) σ ∧
      (∀ σ', Guarded.run Γ t σ ≠ .error .shift σ') ∧
      ∀ s a σ', Infer.run Γ t σ = .ok (s, a) σ' → a.InScope Γ ∧ ∀ b ∈ s, b.2.InScope Γ := by
  have hformed := Context.formed_of_isResolved (Context.isResolved_of_parse hΓ)
  have hagrees := agrees_run hformed (Term.scopedIn_of_parse ht)
  refine ⟨congrFun hagrees.eq σ, fun σ' => ?_, fun s a σ' hrun => ?_⟩
  · rw [hagrees.eq]
    exact Guarded.lift_ne_shift _ σ σ'
  · obtain ⟨hs, ha⟩ := hagrees.result hrun
    exact ⟨ha.inScope, fun b hb => (hs b hb).inScope⟩

theorem Infer.run_staysInScope_conditional :
    ∃ Γ t s σ', Context.parse "X, f: ∀A. A → X, y: B" = .ok Γ ∧
      Term.parse Γ "let g = ΛY. λx: Y. f [Y] x in if true then (λz: X. z) y else g y" = .ok t ∧
      Infer.run Γ t (.forTerm Γ t) = .ok (s, .var 2 3) σ' ∧
      Guarded.run Γ t (.forTerm Γ t) = .ok (s, .var 2 3) σ' ∧
      (Ty.var 2 3).InScope Γ ∧ ("B", .var 2 3) ∈ s ∧ ∀ b ∈ s, b.2.InScope Γ := by
  let Γ : Context := [⟨"y", .var (.name "B")⟩,
    ⟨"f", .var (.all "A" (.arr (.var 0 2) (.var 1 2)))⟩, ⟨"X", .tyVar⟩]
  let t : Term := .letIn ⟨1, 1⟩ "g"
    (.tyAbs ⟨1, 9⟩ "Y" (.abs ⟨1, 13⟩ "x" (some (.var 0 4))
      (.app ⟨1, 20⟩ (.tyApp ⟨1, 20⟩ (.var ⟨1, 20⟩ 3 5) (.var 1 5)) (.var ⟨1, 26⟩ 0 5))))
    (.ite ⟨1, 31⟩ (.const ⟨1, 34⟩ true)
      (.app ⟨1, 44⟩ (.abs ⟨1, 45⟩ "z" (some (.var 3 4)) (.var ⟨1, 52⟩ 0 5)) (.var ⟨1, 55⟩ 1 4))
      (.app ⟨1, 62⟩ (.var ⟨1, 62⟩ 0 4) (.var ⟨1, 64⟩ 1 4)))
  let s : Subst := [("D", .var 2 3), ("Y1", .var 2 3), ("C", .var 2 3), ("B", .var 2 3),
    ("A", .var 2 3)]
  have hΓ : Context.parse "X, f: ∀A. A → X, y: B" = .ok Γ := by decide +kernel
  have ht : Term.parse Γ "let g = ΛY. λx: Y. f [Y] x in if true then (λz: X. z) y else g y" =
    .ok t := by decide +kernel
  have hanswer : (Infer.run Γ t).answer (.forTerm Γ t) = .ok (s, .var 2 3) := by decide +kernel
  obtain ⟨σ', hrun⟩ := Supplied.answer_eq_ok_iff.mp hanswer
  obtain ⟨hguarded, -, hscope⟩ := Infer.run_staysInScope hΓ ht (.forTerm Γ t)
  obtain ⟨ha, hs⟩ := hscope s (.var 2 3) σ' hrun
  rw [Guarded.lift, hrun] at hguarded
  exact ⟨Γ, t, s, σ', hΓ, ht, hrun, hguarded, ha, by decide, hs⟩

end LambdaTyping
