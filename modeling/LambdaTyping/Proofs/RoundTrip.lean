import Mathlib
import LambdaTyping.Proofs.Reparsing
import LambdaTyping.Proofs.Formation

/-!
# Printing and reading back

A printed variable is read back as the nearest binder with its name. Binders inside a printed
term or type have new names, so only a context can hide one of its own binders; what was read
in the context does not refer to a hidden one. A free name is read back as free if the context
has no type variable of that name, and this is so for what was read in it.
-/
namespace LambdaTyping

namespace Scope

/-- The binder at an index is the nearest one with its name and kind. -/
def Sees (sc : Scope) (i : Nat) : Prop := ∃ p, sc[i]? = some p ∧ sc.index? p.1 p.2 = some i

theorem getElem?_of_index? {sc : Scope} {x : String} {k : Kind} {i : Nat}
    (h : sc.index? x k = some i) : sc[i]? = some (x, k) := by
  obtain ⟨hlt, hx, -⟩ := List.findIdx?_eq_some_iff_getElem.mp h
  rw [List.getElem?_eq_getElem hlt, eq_of_beq hx]

theorem sees_of_index? {sc : Scope} {x : String} {k : Kind} {i : Nat}
    (h : sc.index? x k = some i) : sc.Sees i := ⟨(x, k), getElem?_of_index? h, h⟩

theorem index?_eq_none_iff {sc : Scope} {x : String} {k : Kind} :
    sc.index? x k = none ↔ (x, k) ∉ sc := by
  rw [index?, List.findIdx?_eq_none_iff]
  constructor
  · intro h hmem
    simpa using h _ hmem
  · intro h p hp
    have : p ≠ (x, k) := fun heq => h (heq ▸ hp)
    simpa using this

theorem index?_push_self (sc : Scope) (x : String) (k : Kind) :
    index? (sc.push (x, k)) x k = some 0 := by
  simp [index?, Stack.push, List.findIdx?_cons]

theorem index?_push_of_ne {sc : Scope} {p : String × Kind} {x : String} {k : Kind}
    (h : p ≠ (x, k)) : index? (sc.push p) x k = (sc.index? x k).map (· + 1) := by
  simp [index?, Stack.push, List.findIdx?_cons, h]

theorem sees_push_zero (sc : Scope) (x : String) (k : Kind) : Sees (sc.push (x, k)) 0 :=
  ⟨(x, k), rfl, index?_push_self sc x k⟩

/-- What is seen from above a binder is seen from below it. -/
theorem Sees.of_push {sc : Scope} {p : String × Kind} {i : Nat} (h : Sees (sc.push p) (i + 1)) :
    sc.Sees i := by
  obtain ⟨q, hq, hindex⟩ := h
  refine ⟨q, hq, ?_⟩
  by_cases hpq : p = (q.1, q.2)
  · rw [hpq, index?_push_self] at hindex
    simp at hindex
  · rw [index?_push_of_ne hpq] at hindex
    obtain ⟨j, hj, hji⟩ := Option.map_eq_some_iff.mp hindex
    obtain rfl : j = i := by omega
    exact hj

/-- A binder with a new name hides nothing. -/
theorem Sees.push {sc : Scope} {p : String × Kind} {i : Nat} (h : sc.Sees i) (hp : p ∉ sc) :
    Sees (sc.push p) (i + 1) := by
  obtain ⟨q, hq, hindex⟩ := h
  have hpq : p ≠ (q.1, q.2) := fun heq => hp (heq ▸ List.mem_of_getElem? hq)
  exact ⟨q, hq, by rw [index?_push_of_ne hpq, hindex]; rfl⟩

end Scope

/-- All names of the type are names of types. -/
def Ty.Named : Ty → Prop
  | name x => IsName .type x
  | var .. | bool => True
  | arr a b => a.Named ∧ b.Named
  | all x a => IsName .type x ∧ a.Named

/-- The names in force are those of a scope, and they and some free names are avoided. -/
structure Naming.Covers (ν : Naming) (sc : Scope) (free : List String) : Prop where
  bound : ν.bound = sc.map Prod.fst
  avoid_bound : ∀ x ∈ ν.bound, x ∈ ν.avoid
  avoid_free : ∀ x ∈ free, x ∈ ν.avoid

namespace Naming.Covers

variable {ν : Naming} {sc : Scope} {free free' : List String}

theorem mono (h : ν.Covers sc free) (hfree : ∀ x ∈ free', x ∈ free) : ν.Covers sc free' :=
  ⟨h.bound, h.avoid_bound, fun x hx => h.avoid_free x (hfree x hx)⟩

theorem fresh_notMem (ν : Naming) (x : String) : ν.fresh x ∉ ν.avoid :=
  Name.firstUnused_notMem (Name.numbered_injective x) 0

theorem fresh_notMem_scope (h : ν.Covers sc free) (x : String) (k : Kind) :
    (ν.fresh x, k) ∉ sc := by
  intro hmem
  refine fresh_notMem ν x (h.avoid_bound _ ?_)
  rw [h.bound]
  exact List.mem_map_of_mem hmem

theorem bind (h : ν.Covers sc free) (x : String) (k : Kind) :
    (ν.bind x).Covers (sc.push (x, k)) free where
  bound := by simp [Naming.bind, Stack.push, h.bound]
  avoid_bound y hy := by
    rcases List.mem_cons.mp hy with rfl | hy
    · simp [Naming.bind]
    · simp [Naming.bind, h.avoid_bound y hy]
  avoid_free y hy := by simp [Naming.bind, h.avoid_free y hy]

theorem var_eq (h : ν.Covers sc free) {i : Nat} {p : String × Kind} (hp : sc[i]? = some p) :
    ν.var i = p.1 := by
  simp [Naming.var, h.bound, hp]

end Naming.Covers

namespace Ty

theorem notMem_of_mem_freeNames_resolve {u : Surface.Ty} {sc : Scope} {x : String}
    (h : x ∈ (u.resolve sc).freeNames) : (x, Kind.type) ∉ sc := by
  induction u generalizing sc with
  | var y =>
    simp only [Surface.Ty.resolve] at h
    split at h
    · simp [freeNames] at h
    next hnone =>
      obtain rfl : x = y := by simpa [freeNames] using h
      exact Scope.index?_eq_none_iff.mp hnone
  | bool => simp [Surface.Ty.resolve, freeNames] at h
  | arr a b iha ihb =>
    rcases List.mem_append.mp h with h | h
    · exact iha h
    · exact ihb h
  | all y a ih => exact fun hmem => ih h (List.mem_cons_of_mem _ hmem)

theorem sees_of_hasVar_resolve {u : Surface.Ty} {sc : Scope} {i : Nat}
    (h : (u.resolve sc).hasVar i) : sc.Sees i := by
  induction u generalizing sc i with
  | var y =>
    simp only [Surface.Ty.resolve] at h
    split at h
    next j hj =>
      obtain rfl : j = i := by simpa [hasVar] using h
      exact Scope.sees_of_index? hj
    · simp [hasVar] at h
  | bool => simp [Surface.Ty.resolve, hasVar] at h
  | arr a b iha ihb =>
    rcases Bool.or_eq_true_iff.mp h with h | h
    · exact iha h
    · exact ihb h
  | all y a ih => exact (ih h).of_push

theorem named_resolve {u : Surface.Ty} (h : u.Named) (sc : Scope) : (u.resolve sc).Named := by
  induction u generalizing sc with
  | var y =>
    simp only [Surface.Ty.resolve]
    split
    · trivial
    · exact h
  | bool => trivial
  | arr a b iha ihb => exact ⟨iha h.1 sc, ihb h.2 sc⟩
  | all y a ih => exact ⟨h.1, ih h.2 _⟩

/-- The names under which a type is printed are names. -/
theorem named_named {ν : Naming} {sc : Scope} {a : Ty} (hν : ν.Covers sc a.freeNames)
    (hsc : ∀ p ∈ sc, IsName p.2 p.1) (ha : a.FormedIn (sc.map Prod.snd)) (h : a.Named) :
    (a.named ν).Named := by
  induction a generalizing ν sc with
  | name x => exact h
  | var i n =>
    have hi := ha.2
    rw [List.getElem?_map, Option.map_eq_some_iff] at hi
    obtain ⟨p, hp, hk⟩ := hi
    have hname := hsc p (List.mem_of_getElem? hp)
    rw [hk] at hname
    rw [named, hν.var_eq hp]
    exact hname
  | bool => trivial
  | arr a b iha ihb =>
    exact ⟨iha (hν.mono fun x hx => List.mem_append_left _ hx) hsc ha.1 h.1,
      ihb (hν.mono fun x hx => List.mem_append_right _ hx) hsc ha.2 h.2⟩
  | all x a ih =>
    have hx := isName_unusedLike h.1 ν.avoid
    exact ⟨hx, ih (hν.bind _ .type) (List.forall_mem_cons.mpr ⟨hx, hsc⟩) ha h.2⟩

/-- A printed type is read back as itself, unless a free name is bound by the scope or a variable
is hidden in it. -/
theorem erase_resolve_named_iff {ν : Naming} {sc : Scope} {a : Ty} (hν : ν.Covers sc a.freeNames)
    (ha : a.FormedIn (sc.map Prod.snd)) :
    ((a.named ν).resolve sc).erase = a.erase ↔
      (∀ x ∈ a.freeNames, (x, Kind.type) ∉ sc) ∧ ∀ i, a.hasVar i → sc.Sees i := by
  induction a generalizing ν sc with
  | name x =>
    simp only [named, Surface.Ty.resolve, freeNames, hasVar, List.mem_singleton, forall_eq]
    rw [← Scope.index?_eq_none_iff]
    cases sc.index? x .type <;> simp [erase]
  | var i n =>
    obtain ⟨hn, hi⟩ := ha
    rw [List.getElem?_map, Option.map_eq_some_iff] at hi
    obtain ⟨⟨y, k⟩, hp, hk⟩ := hi
    obtain rfl : k = .type := hk
    have hmem : (y, Kind.type) ∈ sc := List.mem_of_getElem? hp
    rw [List.length_map] at hn
    subst hn
    obtain ⟨j, hj⟩ : ∃ j, sc.index? y .type = some j :=
      Option.ne_none_iff_exists'.mp fun hnone => Scope.index?_eq_none_iff.mp hnone hmem
    have hsees : sc.Sees i ↔ j = i := by
      constructor
      · rintro ⟨q, hq, hindex⟩
        obtain rfl : q = (y, .type) := by simpa [hp, eq_comm] using hq
        simpa [hj] using hindex
      · rintro rfl
        exact Scope.sees_of_index? hj
    simp [named, Surface.Ty.resolve, hν.var_eq hp, hj, erase, freeNames, hasVar, hsees]
  | bool => simp [named, Surface.Ty.resolve, erase, freeNames, hasVar]
  | arr a b iha ihb =>
    have iha := iha (hν.mono fun x hx => List.mem_append_left _ hx) ha.1
    have ihb := ihb (hν.mono fun x hx => List.mem_append_right _ hx) ha.2
    simp only [named, Surface.Ty.resolve, erase, arr.injEq, iha, ihb, freeNames, hasVar,
      List.mem_append, Bool.or_eq_true]
    constructor
    · rintro ⟨⟨hfa, hva⟩, hfb, hvb⟩
      exact ⟨fun x hx => hx.elim (hfa x) (hfb x), fun i hi => hi.elim (hva i) (hvb i)⟩
    · rintro ⟨hf, hv⟩
      exact ⟨⟨fun x hx => hf x (.inl hx), fun i hi => hv i (.inl hi)⟩,
        fun x hx => hf x (.inr hx), fun i hi => hv i (.inr hi)⟩
  | all x a ih =>
    have ih := ih (hν.bind (ν.fresh x) .type) ha
    have hnew := hν.fresh_notMem_scope x .type
    simp only [named, Surface.Ty.resolve, erase, all.injEq, true_and, ih, freeNames, hasVar]
    refine and_congr (forall₂_congr fun y hy => ?_) ⟨fun h i hi => (h (i + 1) hi).of_push,
      fun h i hi => ?_⟩
    · have hne : y ≠ ν.fresh x := fun heq =>
        Naming.Covers.fresh_notMem ν x (heq ▸ hν.avoid_free y hy)
      simp [Stack.push, hne]
    · cases i with
      | zero => exact Scope.sees_push_zero sc _ _
      | succ i => exact (h i hi).push hnew

end Ty

namespace Term

/-- Positions do not matter for what the names of a term refer to. -/
theorem resolve_of_unplaced {u v : Surface.Term} (huv : u.unplaced = v.unplaced) {sc : Scope}
    {t : Term} (h : v.resolve sc = .ok t) : ∃ t', u.resolve sc = .ok t' ∧ t'.erase = t.erase := by
  induction u generalizing v sc t with
  | var p x =>
    cases v with
    | var q y =>
      obtain rfl : x = y := by simpa [Surface.Term.unplaced] using huv
      simp only [Surface.Term.resolve] at h ⊢
      split at h
      next i hi =>
        cases h
        exact ⟨_, rfl, rfl⟩
      next => cases h
    | _ => simp [Surface.Term.unplaced] at huv
  | const p b =>
    cases v with
    | const q b' =>
      obtain rfl : b = b' := by simpa [Surface.Term.unplaced] using huv
      cases h
      exact ⟨_, rfl, rfl⟩
    | _ => simp [Surface.Term.unplaced] at huv
  | abs p x ty u ih =>
    cases v with
    | abs q y ty' v =>
      simp only [Surface.Term.unplaced, Surface.Term.abs.injEq, true_and] at huv
      obtain ⟨rfl, rfl, huv⟩ := huv
      obtain ⟨t, ht, h⟩ := bind_eq_ok_iff.mp h
      cases h
      obtain ⟨t', ht', herase⟩ := ih huv ht
      exact ⟨_, bind_eq_ok_iff.mpr ⟨t', ht', rfl⟩, by simp [erase, herase]⟩
    | _ => simp [Surface.Term.unplaced] at huv
  | app p u₁ u₂ ih₁ ih₂ =>
    cases v with
    | app q v₁ v₂ =>
      simp only [Surface.Term.unplaced, Surface.Term.app.injEq, true_and] at huv
      obtain ⟨t₁, h₁, h⟩ := bind_eq_ok_iff.mp h
      obtain ⟨t₂, h₂, h⟩ := bind_eq_ok_iff.mp h
      cases h
      obtain ⟨t₁', h₁', herase₁⟩ := ih₁ huv.1 h₁
      obtain ⟨t₂', h₂', herase₂⟩ := ih₂ huv.2 h₂
      exact ⟨_, bind_eq_ok_iff.mpr ⟨t₁', h₁', bind_eq_ok_iff.mpr ⟨t₂', h₂', rfl⟩⟩,
        by simp [erase, herase₁, herase₂]⟩
    | _ => simp [Surface.Term.unplaced] at huv
  | ite p u₁ u₂ u₃ ih₁ ih₂ ih₃ =>
    cases v with
    | ite q v₁ v₂ v₃ =>
      simp only [Surface.Term.unplaced, Surface.Term.ite.injEq, true_and] at huv
      obtain ⟨t₁, h₁, h⟩ := bind_eq_ok_iff.mp h
      obtain ⟨t₂, h₂, h⟩ := bind_eq_ok_iff.mp h
      obtain ⟨t₃, h₃, h⟩ := bind_eq_ok_iff.mp h
      cases h
      obtain ⟨t₁', h₁', herase₁⟩ := ih₁ huv.1 h₁
      obtain ⟨t₂', h₂', herase₂⟩ := ih₂ huv.2.1 h₂
      obtain ⟨t₃', h₃', herase₃⟩ := ih₃ huv.2.2 h₃
      exact ⟨_, bind_eq_ok_iff.mpr ⟨t₁', h₁', bind_eq_ok_iff.mpr ⟨t₂', h₂',
        bind_eq_ok_iff.mpr ⟨t₃', h₃', rfl⟩⟩⟩, by simp [erase, herase₁, herase₂, herase₃]⟩
    | _ => simp [Surface.Term.unplaced] at huv
  | tyAbs p x u ih =>
    cases v with
    | tyAbs q y v =>
      simp only [Surface.Term.unplaced, Surface.Term.tyAbs.injEq, true_and] at huv
      obtain ⟨rfl, huv⟩ := huv
      obtain ⟨t, ht, h⟩ := bind_eq_ok_iff.mp h
      cases h
      obtain ⟨t', ht', herase⟩ := ih huv ht
      exact ⟨_, bind_eq_ok_iff.mpr ⟨t', ht', rfl⟩, by simp [erase, herase]⟩
    | _ => simp [Surface.Term.unplaced] at huv
  | tyApp p u ty ih =>
    cases v with
    | tyApp q v ty' =>
      simp only [Surface.Term.unplaced, Surface.Term.tyApp.injEq, true_and] at huv
      obtain ⟨huv, rfl⟩ := huv
      obtain ⟨t, ht, h⟩ := bind_eq_ok_iff.mp h
      cases h
      obtain ⟨t', ht', herase⟩ := ih huv ht
      exact ⟨_, bind_eq_ok_iff.mpr ⟨t', ht', rfl⟩, by simp [erase, herase]⟩
    | _ => simp [Surface.Term.unplaced] at huv
  | letIn p x u₁ u₂ ih₁ ih₂ =>
    cases v with
    | letIn q y v₁ v₂ =>
      simp only [Surface.Term.unplaced, Surface.Term.letIn.injEq, true_and] at huv
      obtain ⟨rfl, huv₁, huv₂⟩ := huv
      obtain ⟨t₁, h₁, h⟩ := bind_eq_ok_iff.mp h
      obtain ⟨t₂, h₂, h⟩ := bind_eq_ok_iff.mp h
      cases h
      obtain ⟨t₁', h₁', herase₁⟩ := ih₁ huv₁ h₁
      obtain ⟨t₂', h₂', herase₂⟩ := ih₂ huv₂ h₂
      exact ⟨_, bind_eq_ok_iff.mpr ⟨t₁', h₁', bind_eq_ok_iff.mpr ⟨t₂', h₂', rfl⟩⟩,
        by simp [erase, herase₁, herase₂]⟩
    | _ => simp [Surface.Term.unplaced] at huv

theorem notMem_of_mem_typeNames_resolve {u : Surface.Term} {sc : Scope} {t : Term}
    (h : u.resolve sc = .ok t) {x : String} (hx : x ∈ t.typeNames) : (x, Kind.type) ∉ sc := by
  induction u generalizing sc t with
  | var p y =>
    simp only [Surface.Term.resolve] at h
    split at h
    next =>
      cases h
      simp [typeNames] at hx
    next => cases h
  | const p b =>
    cases h
    simp [typeNames] at hx
  | abs p y ty u ih =>
    obtain ⟨t, ht, h⟩ := bind_eq_ok_iff.mp h
    cases h
    rcases List.mem_append.mp hx with hx | hx
    · cases ty with
      | none => simp at hx
      | some a => exact Ty.notMem_of_mem_freeNames_resolve hx
    · exact fun hmem => ih ht hx (List.mem_cons_of_mem _ hmem)
  | app p u v ihu ihv =>
    obtain ⟨t₁, h₁, h⟩ := bind_eq_ok_iff.mp h
    obtain ⟨t₂, h₂, h⟩ := bind_eq_ok_iff.mp h
    cases h
    exact (List.mem_append.mp hx).elim (ihu h₁) (ihv h₂)
  | ite p c u v ihc ihu ihv =>
    obtain ⟨t₁, h₁, h⟩ := bind_eq_ok_iff.mp h
    obtain ⟨t₂, h₂, h⟩ := bind_eq_ok_iff.mp h
    obtain ⟨t₃, h₃, h⟩ := bind_eq_ok_iff.mp h
    cases h
    exact (List.mem_append.mp hx).elim (fun hx => (List.mem_append.mp hx).elim (ihc h₁) (ihu h₂))
      (ihv h₃)
  | tyAbs p y u ih =>
    obtain ⟨t, ht, h⟩ := bind_eq_ok_iff.mp h
    cases h
    exact fun hmem => ih ht hx (List.mem_cons_of_mem _ hmem)
  | tyApp p u ty ih =>
    obtain ⟨t, ht, h⟩ := bind_eq_ok_iff.mp h
    cases h
    exact (List.mem_append.mp hx).elim (ih ht) Ty.notMem_of_mem_freeNames_resolve
  | letIn p y u v ihu ihv =>
    obtain ⟨t₁, h₁, h⟩ := bind_eq_ok_iff.mp h
    obtain ⟨t₂, h₂, h⟩ := bind_eq_ok_iff.mp h
    cases h
    exact (List.mem_append.mp hx).elim (ihu h₁)
      fun hx hmem => ihv h₂ hx (List.mem_cons_of_mem _ hmem)

end Term

/-- What is needed to print in the scope `sc'` what was read in the scope `sc`: the printed names
are those of `sc'`, nothing that `sc` shows is hidden in it, and the free names are free there. -/
structure Naming.Prints (ν : Naming) (sc sc' : Scope) (free : List String) : Prop where
  covers : ν.Covers sc' free
  names : ∀ p ∈ sc', IsName p.2 p.1
  kinds : sc.map Prod.snd = sc'.map Prod.snd
  sees : ∀ i, sc.Sees i → sc'.Sees i
  free : ∀ x ∈ free, (x, Kind.type) ∉ sc'

namespace Naming.Prints

variable {ν : Naming} {sc sc' : Scope} {free free' : List String}

theorem mono (h : ν.Prints sc sc' free) (hfree : ∀ x ∈ free', x ∈ free) : ν.Prints sc sc' free' :=
  { h with covers := h.covers.mono hfree, free := fun x hx => h.free x (hfree x hx) }

/-- A binder is printed under a new name. -/
theorem bind (h : ν.Prints sc sc' free) {x : String} {k : Kind} (hx : IsName k x) :
    (ν.bind (ν.fresh x)).Prints (sc.push (x, k)) (sc'.push (ν.fresh x, k)) free where
  covers := h.covers.bind _ k
  names := List.forall_mem_cons.mpr ⟨isName_unusedLike hx ν.avoid, h.names⟩
  kinds := by simp [Stack.push, h.kinds]
  sees i hi := by
    cases i with
    | zero => exact Scope.sees_push_zero sc' _ _
    | succ i => exact (h.sees i hi.of_push).push (h.covers.fresh_notMem_scope x k)
  free y hy := by
    have hne : y ≠ ν.fresh x := fun heq =>
      Covers.fresh_notMem ν x (heq ▸ h.covers.avoid_free y hy)
    simp [Stack.push, hne, h.free y hy]

theorem type (h : ν.Prints sc sc' free) {u : Surface.Ty} (hu : u.Named)
    (hfree : ∀ x ∈ (u.resolve sc).freeNames, x ∈ free) :
    ((u.resolve sc).named ν).Named ∧
      (((u.resolve sc).named ν).resolve sc').erase = (u.resolve sc).erase := by
  have h := h.mono hfree
  have hformed : (u.resolve sc).FormedIn (sc'.map Prod.snd) := h.kinds ▸ Ty.formedIn_resolve sc u
  exact ⟨Ty.named_named h.covers h.names hformed (Ty.named_resolve hu sc),
    (Ty.erase_resolve_named_iff h.covers hformed).mpr
      ⟨h.free, fun i hi => h.sees i (Ty.sees_of_hasVar_resolve hi)⟩⟩

/-- What was read is printed with names, and these are resolved to the same term. -/
theorem term (h : ν.Prints sc sc' free) {u : Surface.Term} (hu : u.Named) {t : Term}
    (ht : u.resolve sc = .ok t) (hfree : ∀ x ∈ t.typeNames, x ∈ free) :
    (t.named ν).Named ∧ ∃ t', (t.named ν).resolve sc' = .ok t' ∧ t'.erase = t.erase := by
  induction u generalizing ν sc sc' t with
  | var p x =>
    simp only [Surface.Term.resolve] at ht
    split at ht
    next i hi =>
      cases ht
      obtain ⟨⟨y, k⟩, hy, hindex⟩ := h.sees i (Scope.sees_of_index? hi)
      have hk : sc'.map Prod.snd = sc.map Prod.snd := h.kinds.symm
      obtain rfl : k = .term := by
        have hkind := congrArg (·[i]?) hk
        simpa [hy, Scope.getElem?_of_index? hi] using hkind
      have hlen : sc'.length = sc.length := by simpa using congrArg List.length hk
      rw [Term.named, h.covers.var_eq hy]
      refine ⟨h.names _ (List.mem_of_getElem? hy), .var default i sc'.length, ?_, ?_⟩
      · simp only [Surface.Term.resolve, hindex]
      · simp [Term.erase, hlen]
    next => cases ht
  | const p b =>
    cases ht
    exact ⟨trivial, _, rfl, rfl⟩
  | abs p x ty u ih =>
    obtain ⟨t, ht', hdone⟩ := bind_eq_ok_iff.mp ht
    cases hdone
    have hbody := ih (h.bind hu.1) hu.2.2 ht' fun y hy => hfree y (List.mem_append_right _ hy)
    obtain ⟨hnamed, t', ht', herase⟩ := hbody
    cases ty with
    | none =>
      exact ⟨⟨isName_unusedLike hu.1 _, by simp, hnamed⟩, _, bind_eq_ok_iff.mpr ⟨t', ht', rfl⟩,
        by simp [Term.erase, herase]⟩
    | some a =>
      have ha := h.type (hu.2.1 a rfl) fun y hy => hfree y (List.mem_append_left _ hy)
      exact ⟨⟨isName_unusedLike hu.1 _, by simpa using ha.1, hnamed⟩, _,
        bind_eq_ok_iff.mpr ⟨t', ht', rfl⟩, by simp [Term.erase, herase, ha.2]⟩
  | app p u v ihu ihv =>
    obtain ⟨t₁, h₁, hdone⟩ := bind_eq_ok_iff.mp ht
    obtain ⟨t₂, h₂, hdone⟩ := bind_eq_ok_iff.mp hdone
    cases hdone
    obtain ⟨hnamed₁, t₁', ht₁', herase₁⟩ :=
      ihu h hu.1 h₁ fun y hy => hfree y (List.mem_append_left _ hy)
    obtain ⟨hnamed₂, t₂', ht₂', herase₂⟩ :=
      ihv h hu.2 h₂ fun y hy => hfree y (List.mem_append_right _ hy)
    exact ⟨⟨hnamed₁, hnamed₂⟩, _,
      bind_eq_ok_iff.mpr ⟨t₁', ht₁', bind_eq_ok_iff.mpr ⟨t₂', ht₂', rfl⟩⟩,
      by simp [Term.erase, herase₁, herase₂]⟩
  | ite p c u v ihc ihu ihv =>
    obtain ⟨t₁, h₁, hdone⟩ := bind_eq_ok_iff.mp ht
    obtain ⟨t₂, h₂, hdone⟩ := bind_eq_ok_iff.mp hdone
    obtain ⟨t₃, h₃, hdone⟩ := bind_eq_ok_iff.mp hdone
    cases hdone
    obtain ⟨hnamed₁, t₁', ht₁', herase₁⟩ := ihc h hu.1 h₁ fun y hy =>
      hfree y (List.mem_append_left _ (List.mem_append_left _ hy))
    obtain ⟨hnamed₂, t₂', ht₂', herase₂⟩ := ihu h hu.2.1 h₂ fun y hy =>
      hfree y (List.mem_append_left _ (List.mem_append_right _ hy))
    obtain ⟨hnamed₃, t₃', ht₃', herase₃⟩ :=
      ihv h hu.2.2 h₃ fun y hy => hfree y (List.mem_append_right _ hy)
    exact ⟨⟨hnamed₁, hnamed₂, hnamed₃⟩, _, bind_eq_ok_iff.mpr ⟨t₁', ht₁', bind_eq_ok_iff.mpr
      ⟨t₂', ht₂', bind_eq_ok_iff.mpr ⟨t₃', ht₃', rfl⟩⟩⟩,
      by simp [Term.erase, herase₁, herase₂, herase₃]⟩
  | tyAbs p x u ih =>
    obtain ⟨t, ht', hdone⟩ := bind_eq_ok_iff.mp ht
    cases hdone
    obtain ⟨hnamed, t', ht', herase⟩ := ih (h.bind hu.1) hu.2 ht' hfree
    exact ⟨⟨isName_unusedLike hu.1 _, hnamed⟩, _, bind_eq_ok_iff.mpr ⟨t', ht', rfl⟩,
      by simp [Term.erase, herase]⟩
  | tyApp p u ty ih =>
    obtain ⟨t, ht', hdone⟩ := bind_eq_ok_iff.mp ht
    cases hdone
    obtain ⟨hnamed, t', ht', herase⟩ :=
      ih h hu.1 ht' fun y hy => hfree y (List.mem_append_left _ hy)
    have hty := h.type hu.2 fun y hy => hfree y (List.mem_append_right _ hy)
    exact ⟨⟨hnamed, hty.1⟩, _, bind_eq_ok_iff.mpr ⟨t', ht', rfl⟩,
      by simp [Term.erase, herase, hty.2]⟩
  | letIn p x u v ihu ihv =>
    obtain ⟨t₁, h₁, hdone⟩ := bind_eq_ok_iff.mp ht
    obtain ⟨t₂, h₂, hdone⟩ := bind_eq_ok_iff.mp hdone
    cases hdone
    obtain ⟨hnamed₁, t₁', ht₁', herase₁⟩ :=
      ihu h hu.2.1 h₁ fun y hy => hfree y (List.mem_append_left _ hy)
    obtain ⟨hnamed₂, t₂', ht₂', herase₂⟩ :=
      ihv (h.bind hu.1) hu.2.2 h₂ fun y hy => hfree y (List.mem_append_right _ hy)
    exact ⟨⟨isName_unusedLike hu.1 _, hnamed₁, hnamed₂⟩, _,
      bind_eq_ok_iff.mpr ⟨t₁', ht₁', bind_eq_ok_iff.mpr ⟨t₂', ht₂', rfl⟩⟩,
      by simp [Term.erase, herase₁, herase₂]⟩

end Naming.Prints

theorem Binding.kind_eq_of_alphaEq {b b' : Binding} (h : b.alphaEq b' = true) :
    b.kind = b'.kind := by
  cases b <;> cases b' <;> first | rfl | cases h

/-- The same name with the same binding, up to the names of quantified variables. -/
def Entry.SameAs (e e' : Entry) : Prop := e.name = e'.name ∧ e.binding.alphaEq e'.binding = true

namespace Context

/-- All names are names, and every type was resolved in the context below it. -/
def Written : Context → Prop
  | [] => True
  | e :: Γ => IsName e.binding.kind e.name ∧
      (∀ a, e.binding = .var a → ∃ u : Surface.Ty, u.Named ∧ u.resolve (.ofContext Γ) = a) ∧
      Written Γ

theorem Written.of_append {Γ Δ : Context} (h : Written (Δ ++ Γ)) : Γ.Written := by
  induction Δ with
  | nil => exact h
  | cons e Δ ih => exact ih h.2.2

theorem written_resolveOnto {Γ : Context} (h : Γ.Written) {bs : Surface.Context}
    (hbs : ∀ b ∈ bs, b.2.NamedFor b.1) :
    Written (Surface.Context.resolveOnto (.ofContext Γ) Γ bs) := by
  induction bs generalizing Γ with
  | nil => exact h
  | cons b bs ih =>
    obtain ⟨x, b⟩ := b
    obtain ⟨hb, hbs⟩ := List.forall_mem_cons.mp hbs
    refine ih (Γ := Γ.push ⟨x, b.resolve (.ofContext Γ)⟩) ⟨?_, fun a ha => ?_, h⟩ hbs
    · cases b with
      | tyVar => exact hb
      | var ty => cases ty <;> exact hb.1
    · cases b with
      | tyVar => simp [Surface.Binding.resolve] at ha
      | var ty =>
        cases ty with
        | none => simp [Surface.Binding.resolve] at ha
        | some u => exact ⟨u, hb.2 u rfl, by simpa [Surface.Binding.resolve] using ha⟩

theorem written_of_parse {text : String} {Γ : Context} (h : Context.parse text = .ok Γ) :
    Γ.Written := by
  unfold Context.parse at h
  split at h
  next bs hbs =>
    cases h
    exact written_resolveOnto (Γ := []) trivial (Surface.Context.named_of_parse hbs)
  next => cases h

theorem Written.isName {Γ : Context} (h : Γ.Written) : ∀ p ∈ Scope.ofContext Γ, IsName p.2 p.1 := by
  induction Γ with
  | nil => simp [Scope.ofContext]
  | cons e Γ ih => exact List.forall_mem_cons.mpr ⟨h.1, ih h.2.2⟩

/-- Printing in the context itself. -/
theorem Written.prints {Γ : Context} (h : Γ.Written) {ν : Naming} {free : List String}
    (hν : ν.Covers (.ofContext Γ) free) (hfree : ∀ x ∈ free, (x, Kind.type) ∉ Scope.ofContext Γ) :
    ν.Prints (.ofContext Γ) (.ofContext Γ) free :=
  ⟨hν, h.isName, rfl, fun _ => id, hfree⟩

theorem covers_ofContext (Γ : Context) (free : List String) :
    (Naming.ofContext Γ free).Covers (.ofContext Γ) free where
  bound := by simp [Naming.ofContext, Scope.ofContext, Function.comp_def]
  avoid_bound x hx := NameSet.mem_ofNames.mpr (by simp_all [Naming.ofContext])
  avoid_free x hx := NameSet.mem_ofNames.mpr (by simp [hx])

/-- The printed form of a binding is resolved to the same binding. -/
theorem sameAs_resolve_named {Γ : Context} {e : Entry} (h : Written (e :: Γ)) {ν : Naming}
    {free : List String} (hν : ν.Covers (.ofContext Γ) free)
    (hfree : ∀ x ∈ e.binding.freeNames, x ∈ free) :
    (e.binding.named ν).NamedFor e.name ∧
      e.binding.alphaEq ((e.binding.named ν).resolve (.ofContext Γ)) = true := by
  obtain ⟨x, b⟩ := e
  cases b with
  | name => exact ⟨⟨h.1, by simp⟩, rfl⟩
  | tyVar => exact ⟨h.1, rfl⟩
  | var a =>
    obtain ⟨u, hu, rfl⟩ := h.2.1 a rfl
    have hprints := h.2.2.prints (hν.mono hfree) fun x hx => Ty.notMem_of_mem_freeNames_resolve hx
    obtain ⟨hnamed, herase⟩ := hprints.type hu fun _ => id
    refine ⟨⟨h.1, by simpa using hnamed⟩, ?_⟩
    exact (Ty.alphaEq_iff_erase (Ty.wellScoped_resolve _ _) (Ty.wellScoped_resolve _ _)).mpr
      herase.symm

/-- Entries are printed and read back from the root on. -/
theorem sameAs_resolveOnto {Γ Δ : Context} {es : List Entry} {ν : Naming} {free : List String}
    (h : Written (es.reverse ++ Γ)) (hΔ : List.Forall₂ Entry.SameAs Γ Δ)
    (hν : ν.Covers (.ofContext Γ) free) (hfree : ∀ e ∈ es, ∀ x ∈ e.binding.freeNames, x ∈ free) :
    (∀ b ∈ namedEntries ν es, b.2.NamedFor b.1) ∧
      List.Forall₂ Entry.SameAs (es.reverse ++ Γ)
        (Surface.Context.resolveOnto (.ofContext Γ) Δ (namedEntries ν es)) := by
  induction es generalizing Γ Δ ν with
  | nil => exact ⟨by simp [namedEntries], hΔ⟩
  | cons e es ih =>
    rw [List.reverse_cons, List.append_assoc, List.singleton_append] at h ⊢
    obtain ⟨hfe, hfree⟩ := List.forall_mem_cons.mp hfree
    obtain ⟨hnamed, hsame⟩ := sameAs_resolve_named h.of_append hν hfe
    have hkind := Binding.kind_eq_of_alphaEq hsame
    obtain ⟨hnameds, hsames⟩ := ih (Γ := e :: Γ)
      (Δ := ⟨e.name, (e.binding.named ν).resolve (.ofContext Γ)⟩ :: Δ) h
      (.cons ⟨rfl, hsame⟩ hΔ) (hν.bind e.name e.binding.kind) hfree
    refine ⟨List.forall_mem_cons.mpr ⟨hnamed, hnameds⟩, ?_⟩
    simp only [namedEntries, Surface.Context.resolveOnto, ← hkind]
    exact hsames

theorem exists_parse_text {Γ : Context} (h : Γ.Written) :
    ∃ Δ, Context.parse Γ.text = .ok Δ ∧ List.Forall₂ Entry.SameAs Γ Δ := by
  have hfree : ∀ e ∈ Γ.bottomUp, ∀ x ∈ e.binding.freeNames, x ∈ Γ.freeNames := by
    intro e he x hx
    exact List.mem_flatMap.mpr ⟨e, List.mem_reverse.mp he, hx⟩
  have hν : Naming.Covers ⟨[], .ofNames Γ.freeNames⟩ (.ofContext []) Γ.freeNames :=
    ⟨rfl, by simp, fun x hx => NameSet.mem_ofNames.mpr hx⟩
  have hΓ : Γ.bottomUp.reverse ++ [] = Γ := by simp [Stack.bottomUp]
  obtain ⟨hnamed, hsame⟩ := sameAs_resolveOnto (Γ := []) (Δ := []) (by rwa [hΓ]) .nil hν hfree
  rw [hΓ] at hsame
  refine ⟨_, ?_, hsame⟩
  rw [Context.parse, text, Surface.Context.parse_of_writes (writes_printEntries hnamed)]
  rfl

end Context

theorem Ty.exists_parse_showIn {Γ : Context} (hΓ : Γ.Written) {text : String} {a : Ty}
    (h : Ty.parse Γ text = .ok a) : ∃ b, Ty.parse Γ (a.showIn Γ) = .ok b ∧ b.alphaEq a := by
  unfold Ty.parse at h
  split at h
  next u hu =>
    cases h
    have hprints := hΓ.prints (Context.covers_ofContext Γ (u.resolve (.ofContext Γ)).freeNames)
      fun x hx => Ty.notMem_of_mem_freeNames_resolve hx
    obtain ⟨hnamed, herase⟩ := hprints.type (Surface.Ty.named_of_parse hu) fun _ => id
    refine ⟨_, ?_, (Ty.alphaEq_iff_erase (Ty.wellScoped_resolve _ _)
      (Ty.wellScoped_resolve _ _)).mpr herase⟩
    rw [Ty.parse, showIn, Surface.Ty.parse_of_writes (writes_print hnamed)]
  next => cases h

theorem Term.exists_parse_showIn {Γ : Context} (hΓ : Γ.Written) {text : String} {t : Term}
    (h : Term.parse Γ text = .ok t) : ∃ u, Term.parse Γ (t.showIn Γ) = .ok u ∧ u.alphaEq t := by
  unfold Term.parse at h
  split at h
  next u hu =>
    split at h
    next ht =>
      cases h
      have hprints := hΓ.prints (Context.covers_ofContext Γ t.typeNames)
        fun x hx => notMem_of_mem_typeNames_resolve ht hx
      obtain ⟨hnamed, t₁, ht₁, herase₁⟩ :=
        hprints.term (Surface.Term.named_of_parse hu) ht fun _ => id
      obtain ⟨v, hv, hparse⟩ := Surface.Term.parse_of_writes (writes_print hnamed)
      obtain ⟨t₂, ht₂, herase₂⟩ := resolve_of_unplaced hv ht₁
      refine ⟨t₂, ?_, (alphaEq_iff_erase (wellScoped_resolve ht₂) (wellScoped_resolve ht)).mpr
        (herase₂.trans herase₁)⟩
      rw [Term.parse, showIn, hparse]
      simp only [ht₂]
    next => cases h
  next => cases h

/-- What was read and is printed is read back as the same thing. -/
theorem parse_showIn_of_parse {text : String} {Γ : Context} (h : Context.parse text = .ok Γ) :
    (∃ Δ, Context.parse Γ.text = .ok Δ ∧ List.Forall₂ Entry.SameAs Γ Δ) ∧
    (∀ s t, Term.parse Γ s = .ok t → ∃ u, Term.parse Γ (t.showIn Γ) = .ok u ∧ u.alphaEq t) ∧
    (∀ s a, Ty.parse Γ s = .ok a → ∃ b, Ty.parse Γ (a.showIn Γ) = .ok b ∧ b.alphaEq a) :=
  have hΓ := Context.written_of_parse h
  ⟨Context.exists_parse_text hΓ, fun _ _ => Term.exists_parse_showIn hΓ,
    fun _ _ => Ty.exists_parse_showIn hΓ⟩

theorem parse_showIn_of_parse_shadowed :
    ∃ Γ t, Context.parse "X, x: X, X" = .ok Γ ∧ Term.parse Γ "λx. λx: X. x" = .ok t ∧
      (∃ Δ, Context.parse Γ.text = .ok Δ ∧ List.Forall₂ Entry.SameAs Γ Δ) ∧
      ∃ u, Term.parse Γ (t.showIn Γ) = .ok u ∧ u.alphaEq t := by
  let Γ : Context := [⟨"X", .tyVar⟩, ⟨"x", .var (.var 0 1)⟩, ⟨"X", .tyVar⟩]
  let t : Term := .abs ⟨1, 1⟩ "x" none (.abs ⟨1, 5⟩ "x" (some (.var 1 4)) (.var ⟨1, 12⟩ 0 5))
  have hΓ : Context.parse "X, x: X, X" = .ok Γ := by decide +kernel
  have ht : Term.parse Γ "λx. λx: X. x" = .ok t := by decide +kernel
  have h := parse_showIn_of_parse hΓ
  exact ⟨Γ, t, hΓ, ht, h.1, h.2.1 _ t ht⟩

end LambdaTyping
