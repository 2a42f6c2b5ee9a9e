import Mathlib
import LambdaTyping.Proofs.InferenceFormation
import LambdaTyping.Proofs.SystemFSoundness

/-!
# Larger contexts

Types and terms are moved into a context that has more bindings somewhere in the
middle, and their names are replaced on the way. This commutes with all that the
typing rules do to types. A quantifier over a name can be moved with a new name
for it, which keeps it apart from the types that other names are replaced by.
-/
namespace LambdaTyping

open Text (Position)

namespace Ty

/-- Two shifts at different places commute. -/
theorem shiftAbove_comm (d e k c : Nat) (t : Ty) :
    (t.shiftAbove e k).shiftAbove d (k + e + c) = (t.shiftAbove d (k + c)).shiftAbove e k := by
  induction t generalizing k with
  | var i n =>
    simp only [shiftAbove, offsetAbove, offset_natCast, var.injEq]
    exact ⟨by split_ifs <;> omega, by omega⟩
  | arr a b iha ihb => simp only [shiftAbove, iha, ihb]
  | all x a ih =>
    have h := ih (k + 1)
    simp only [shiftAbove, all.injEq, true_and]
    rwa [show k + 1 + e + c = k + e + c + 1 by omega, show k + 1 + c = k + c + 1 by omega] at h
  | _ => rfl

theorem shift_one_shiftAbove (d c : Nat) (t : Ty) :
    (t.shift 1).shiftAbove d (c + 1) = (t.shiftAbove d c).shift 1 := by
  have h := shiftAbove_comm d 1 0 c t
  rwa [Nat.zero_add, Nat.zero_add, Nat.add_comm 1 c, Nat.cast_one] at h

theorem shiftAbove_fillAt (d c : Nat) (s : Ty) {n k : Nat} {t : Ty}
    (ht : t.WellScoped (n + k + 1)) :
    (t.fillAt s k).shiftAbove d (k + c) =
      (t.shiftAbove d (k + c + 1)).fillAt (s.shiftAbove d c) k := by
  induction t generalizing k with
  | var i m =>
    obtain ⟨rfl, -⟩ := ht
    have hs := shiftAbove_comm d k 0 c s
    rw [Nat.zero_add, Nat.zero_add] at hs
    by_cases hik : i = k
    · subst hik
      simp only [fillAt, shiftAbove, offsetAbove, offset_natCast, if_pos trivial,
        if_neg (show ¬ i + c + 1 ≤ i by omega)]
      exact hs
    · have hne : ¬ (if k + c + 1 ≤ i then i + d else i) = k := by split_ifs <;> omega
      simp only [fillAt, shiftAbove, offsetAbove, offset_natCast, if_neg hik, if_neg hne, var.injEq]
      exact ⟨by split_ifs <;> omega, by omega⟩
  | arr a b iha ihb => simp only [fillAt, shiftAbove, iha ht.1, ihb ht.2]
  | all x a ih =>
    have h := ih (k := k + 1) ht
    simp only [fillAt, shiftAbove, all.injEq, true_and]
    rwa [show k + 1 + c = k + c + 1 by omega] at h
  | _ => rfl

theorem shiftAbove_mapNamesAt (d c : Nat) (θ : String → Ty) (k : Nat) (t : Ty) :
    (t.mapNamesAt θ k).shiftAbove d (k + c) =
      (t.shiftAbove d (k + c)).mapNamesAt (fun x => (θ x).shiftAbove d c) k := by
  induction t generalizing k with
  | name x =>
    have h := shiftAbove_comm d k 0 c (θ x)
    rwa [Nat.zero_add, Nat.zero_add] at h
  | arr a b iha ihb => simp only [mapNamesAt, shiftAbove, iha, ihb]
  | all x a ih =>
    have h := ih (k + 1)
    simp only [mapNamesAt, shiftAbove, all.injEq, true_and]
    rwa [show k + 1 + c = k + c + 1 by omega] at h
  | _ => rfl

theorem shiftAbove_mapNames (d c : Nat) (θ : String → Ty) (t : Ty) :
    (t.mapNames θ).shiftAbove d c =
      (t.shiftAbove d c).mapNames fun x => (θ x).shiftAbove d c := by
  have h := shiftAbove_mapNamesAt d c θ 0 t
  rwa [Nat.zero_add] at h

theorem shiftAbove_update_name (d : Int) (c : Nat) (x : String) (u : Ty) :
    (fun y => (Function.update name x u y).shiftAbove d c) =
      Function.update name x (u.shiftAbove d c) := by
  funext y
  by_cases hy : y = x
  · rw [hy, Function.update_self, Function.update_self]
  · rw [Function.update_of_ne hy, Function.update_of_ne hy, shiftAbove_name]

/-- The type with `d` more bindings below the `c` most recent ones, and its names replaced. -/
def moved (d c : Nat) (θ : String → Ty) (t : Ty) : Ty := (t.shiftAbove d c).mapNames θ

section Moved

variable {d c : Nat} {θ : String → Ty}

@[simp] theorem moved_zero (t : Ty) : t.moved 0 0 θ = t.mapNames θ := by simp [moved]

@[simp] theorem moved_bool : bool.moved d c θ = bool := rfl

@[simp] theorem moved_arr (a b : Ty) :
    (arr a b).moved d c θ = arr (a.moved d c θ) (b.moved d c θ) := rfl

@[simp] theorem moved_all (x : String) (a : Ty) :
    (all x a).moved d c θ = all x (a.moved d (c + 1) (liftMap θ)) := mapNames_all_eq θ x _

theorem moved_shift_one (t : Ty) :
    (t.shift 1).moved d (c + 1) (liftMap θ) = (t.moved d c θ).shift 1 := by
  rw [moved, shift_one_shiftAbove, mapNames_liftMap_shift]
  rfl

theorem moved_substTop {ks : List Kind} {x : String} {a : Ty} (ha : (all x a).FormedIn ks)
    (s : Ty) :
    (a.substTop s).moved d c θ = (a.moved d (c + 1) (liftMap θ)).substTop (s.moved d c θ) := by
  have h := shiftAbove_fillAt d c s (n := ks.length) (k := 0) (FormedIn.wellScoped ha)
  rw [Nat.zero_add] at h
  rw [substTop_eq_fillAt, substTop_eq_fillAt, moved, h, mapNames, mapNamesAt_fillAt, Nat.zero_add,
    mapNamesAt_one_eq]
  rfl

theorem erase_moved_eq {a b : Ty} (h : a.erase = b.erase) (d c : Nat) (θ : String → Ty) :
    (a.moved d c θ).erase = (b.moved d c θ).erase := by
  refine erase_mapNames_eq ?_ θ
  rw [erase_shiftAbove, erase_shiftAbove, h]

/-- A name that is bound may be replaced by another one on the way. -/
theorem moved_bindName {x y : String} {a : Ty} (len : Nat)
    (hy : ∀ z ∈ a.freeNames, z ≠ x → y ∉ (θ z).freeNames) :
    ((a.shift 1).bindName x len).moved d (c + 1) (liftMap θ) =
      ((a.moved d c (Function.update θ x (.name y))).shift 1).bindName y (len + d) := by
  have hvar : (var 0 (len + 1)).shiftAbove d (c + 1) = var 0 (len + d + 1) := by
    simp only [shiftAbove, offsetAbove, offset_natCast, var.injEq]
    exact ⟨by simp, by omega⟩
  rw [moved, bindName_eq_mapNames, shiftAbove_mapNames, shiftAbove_update_name, hvar,
    shift_one_shiftAbove, mapNames_mapNames, bindName_eq_mapNames, moved, ← mapNames_liftMap_shift, mapNames_mapNames]
  refine mapNames_congr fun z hz => ?_
  rw [freeNames_shift, freeNames_shiftAbove] at hz
  by_cases hzx : z = x
  · subst hzx
    simp [liftMap]
  · rw [Function.update_of_ne hzx, mapNames_name, liftMap, liftMap, Function.update_of_ne hzx]
    refine (mapNames_eq_self fun w hw => update_name_of_ne ?_).symm
    rintro rfl
    exact hy z hz hzx (by rwa [freeNames_shift] at hw)

theorem erase_moved_generalizeTop {x y : String} {a : Ty} (len : Nat)
    (hy : ∀ z ∈ a.freeNames, z ≠ x → y ∉ (θ z).freeNames) :
    ((a.generalizeTop len x).moved d c θ).erase =
      ((a.moved d c (Function.update θ x (.name y))).generalizeTop (len + d) y).erase := by
  rw [generalizeTop, generalizeTop, moved_all, erase, erase, moved_bindName len hy]

theorem erase_generalizeTop_eq {a b : Ty} (h : a.erase = b.erase) (len : Nat) (x : String) :
    (a.generalizeTop len x).erase = (b.generalizeTop len x).erase := by
  simp only [generalizeTop, erase, bindName_eq_mapNames]
  rw [erase_mapNames_eq]
  rw [erase_shift, erase_shift, h]

/-- The names `xs` are renamed, all others mapped. -/
def renameMap (ρ : String → String) (xs : List String) (θ : String → Ty) (z : String) : Ty :=
  if z ∈ xs then .name (ρ z) else θ z

/-- Names that are generalised may be replaced by others on the way. -/
theorem erase_moved_generalize {ρ : String → String} {a : Ty} (hρ : Function.Injective ρ)
    (xs : List String) (len : Nat)
    (hfresh : ∀ z ∈ a.freeNames, z ∉ xs → ∀ x ∈ xs, ρ x ∉ (θ z).freeNames) :
    ((a.generalize len xs).moved d c θ).erase =
      ((a.moved d c (renameMap ρ xs θ)).generalize (len + d) (xs.map ρ)).erase := by
  induction xs generalizing θ with
  | nil =>
    have hnil : renameMap ρ [] θ = θ := funext fun z => by simp [renameMap]
    rw [hnil]
    rfl
  | cons x xs ih =>
    have hrename : renameMap ρ xs (Function.update θ x (.name (ρ x))) =
        renameMap ρ (x :: xs) θ := by
      funext z
      by_cases hz : z ∈ xs
      · simp [renameMap, hz]
      · by_cases hzx : z = x
        · subst hzx
          simp [renameMap, hz]
        · simp [renameMap, hz, hzx]
    rw [List.map_cons, generalize_cons, generalize_cons, erase_moved_generalizeTop (y := ρ x) len]
    · refine erase_generalizeTop_eq ?_ _ _
      rw [ih, hrename]
      intro z hz hzxs w hw
      by_cases hzx : z = x
      · subst hzx
        have hne : w ≠ z := fun h => hzxs (h ▸ hw)
        simpa [freeNames] using fun h => hne (hρ h)
      · rw [Function.update_of_ne hzx]
        exact hfresh z hz (by simp [hzx, hzxs]) w (List.mem_cons_of_mem _ hw)
    · intro z hz hzx
      obtain ⟨hz, hzxs⟩ := mem_freeNames_generalize.mp hz
      exact hfresh z hz (by simp [hzx, hzxs]) x List.mem_cons_self

end Moved

/-- A name becomes a variable bound right outside. -/
theorem FormedIn.bindName {ks : List Kind} {a : Ty} (ha : a.FormedIn ks) (x : String) :
    ((a.shift 1).bindName x ks.length).FormedIn (.type :: ks) := by
  rw [bindName_eq_mapNames]
  refine FormedIn.mapNames (fun y => ?_) (ha.shift_one .type)
  by_cases hy : y = x
  · subst hy
    rw [Function.update_self]
    exact ⟨rfl, rfl⟩
  · rw [update_name_of_ne hy]
    trivial

theorem FormedIn.generalize {ks : List Kind} {a : Ty} (ha : a.FormedIn ks) (xs : List String) :
    (a.generalize ks.length xs).FormedIn ks := by
  induction xs with
  | nil => exact ha
  | cons x xs ih => exact ih.bindName x

end Ty

/-- Types formed in bindings of the kinds `ks` are moved to bindings of the kinds `ks'`, of which
there are `d` more below the `c` most recent ones. -/
structure Moves (d c : Nat) (θ : String → Ty) (ks ks' : List Kind) : Prop where
  kinds : ∃ l new rest, ks = l ++ rest ∧ ks' = l ++ (new ++ rest) ∧ l.length = c ∧ new.length = d
  formed : ∀ x, (θ x).FormedIn ks'

namespace Moves

variable {d c : Nat} {θ : String → Ty} {ks ks' : List Kind} {a : Ty}

theorem lift (h : Moves d c θ ks ks') (k : Kind) :
    Moves d (c + 1) (liftMap θ) (k :: ks) (k :: ks') where
  kinds := by
    obtain ⟨l, new, rest, rfl, rfl, rfl, rfl⟩ := h.kinds
    exact ⟨k :: l, new, rest, rfl, rfl, rfl, rfl⟩
  formed := formedIn_liftMap h.formed k

theorem length_eq (h : Moves d c θ ks ks') : ks'.length = ks.length + d := by
  obtain ⟨l, new, rest, rfl, rfl, -, rfl⟩ := h.kinds
  simp only [List.length_append]
  omega

theorem formedIn (h : Moves d c θ ks ks') (ha : a.FormedIn ks) : (a.moved d c θ).FormedIn ks' := by
  obtain ⟨l, new, rest, rfl, rfl, rfl, rfl⟩ := h.kinds
  exact (ha.shiftAbove new).mapNames h.formed

end Moves

namespace Term

/-- The term with `d` more bindings below the `c` most recent ones, and its names replaced. -/
def moved (d c : Nat) (θ : String → Ty) (t : Term) : Term := (t.shiftAbove d c).mapNames θ

section Moved

variable {d c : Nat} {θ : String → Ty} {p : Position} {x : String}

@[simp] theorem moved_zero (t : Term) : t.moved 0 0 θ = t.mapNames θ := by
  have h : ∀ c, t.shiftAbove 0 c = t := by
    induction t with
    | var p i n => simp [shiftAbove, offsetAbove]
    | abs p x ty t ih => cases ty <;> simp_all [shiftAbove]
    | _ => simp_all [shiftAbove]
  rw [moved, Nat.cast_zero, h]

@[simp] theorem moved_var (i n : Nat) :
    (var p i n).moved d c θ = var p (offsetAbove c i d) (n + d) := by
  simp [moved, shiftAbove, mapNames, mapNamesAt]

@[simp] theorem moved_const (b : Bool) : (const p b).moved d c θ = const p b := rfl

@[simp] theorem moved_abs (ty : Option Ty) (t : Term) :
    (abs p x ty t).moved d c θ =
      abs p x (ty.map (Ty.moved d c θ)) (t.moved d (c + 1) (liftMap θ)) := by
  simp only [moved, shiftAbove, mapNames, mapNamesAt, Nat.zero_add, mapNamesAt_one_eq,
    Option.map_map]
  rfl

@[simp] theorem moved_app (t u : Term) :
    (app p t u).moved d c θ = app p (t.moved d c θ) (u.moved d c θ) := rfl

@[simp] theorem moved_ite (i t e : Term) :
    (ite p i t e).moved d c θ = ite p (i.moved d c θ) (t.moved d c θ) (e.moved d c θ) := rfl

@[simp] theorem moved_tyAbs (t : Term) :
    (tyAbs p x t).moved d c θ = tyAbs p x (t.moved d (c + 1) (liftMap θ)) := by
  simp only [moved, shiftAbove, mapNames, mapNamesAt, Nat.zero_add, mapNamesAt_one_eq]

@[simp] theorem moved_tyApp (t : Term) (ty : Ty) :
    (tyApp p t ty).moved d c θ = tyApp p (t.moved d c θ) (ty.moved d c θ) := rfl

@[simp] theorem moved_letIn (e t : Term) :
    (letIn p x e t).moved d c θ = letIn p x (e.moved d c θ) (t.moved d (c + 1) (liftMap θ)) := by
  simp only [moved, shiftAbove, mapNames, mapNamesAt, Nat.zero_add, mapNamesAt_one_eq]

@[simp] theorem typeNames_shiftAbove (d : Int) (c : Nat) (t : Term) :
    (t.shiftAbove d c).typeNames = t.typeNames := by
  induction t generalizing c with
  | abs p x ty t ih => cases ty <;> simp [shiftAbove, typeNames, ih]
  | _ => simp_all [shiftAbove, typeNames]

theorem moved_congr {η : String → Ty} {t : Term} (h : ∀ x ∈ t.typeNames, θ x = η x) :
    t.moved d c θ = t.moved d c η :=
  mapNames_congr fun x hx => h x (by rwa [typeNames_shiftAbove] at hx)

end Moved

theorem mapNames_abs_eq (θ : String → Ty) (p : Position) (x : String) (ty : Option Ty) (t : Term) :
    (abs p x ty t).mapNames θ = abs p x (ty.map (Ty.mapNames θ)) (t.mapNames (liftMap θ)) :=
  congrArg (abs p x (ty.map (Ty.mapNames θ))) (mapNamesAt_one_eq θ t)

theorem mapNames_tyAbs_eq (θ : String → Ty) (p : Position) (x : String) (t : Term) :
    (tyAbs p x t).mapNames θ = tyAbs p x (t.mapNames (liftMap θ)) :=
  congrArg (tyAbs p x) (mapNamesAt_one_eq θ t)

theorem mapNames_letIn_eq (θ : String → Ty) (p : Position) (x : String) (e t : Term) :
    (letIn p x e t).mapNames θ = letIn p x (e.mapNames θ) (t.mapNames (liftMap θ)) :=
  congrArg (letIn p x (e.mapNames θ)) (mapNamesAt_one_eq θ t)

theorem mapNamesAt_shiftAbove (θ : String → Ty) (c d : Nat) (t : Term) :
    (t.shiftAbove d c).mapNamesAt θ (c + d) = (t.mapNamesAt θ c).shiftAbove d c := by
  have hsucc : ∀ c, c + d + 1 = c + 1 + d := fun c => by omega
  induction t generalizing c with
  | abs p x ty t ih =>
    cases ty <;> simp [shiftAbove, mapNamesAt, hsucc, ih, Ty.mapNamesAt_shiftAbove]
  | app p t u iht ihu => simp only [shiftAbove, mapNamesAt, iht, ihu]
  | ite p i t e ihi iht ihe => simp only [shiftAbove, mapNamesAt, ihi, iht, ihe]
  | tyAbs p x t ih => simp only [shiftAbove, mapNamesAt, hsucc, ih]
  | tyApp p t ty ih => simp only [shiftAbove, mapNamesAt, ih, Ty.mapNamesAt_shiftAbove]
  | letIn p x e t ihe iht => simp only [shiftAbove, mapNamesAt, hsucc, ihe, iht]
  | _ => rfl

theorem mapNames_liftMap_shift (θ : String → Ty) (t : Term) :
    (t.shift 1).mapNames (liftMap θ) = (t.mapNames θ).shift 1 := by
  have h := mapNamesAt_shiftAbove θ 0 1 t
  rwa [Nat.zero_add, mapNamesAt_one_eq] at h

/-- A type variable that is replaced by a name comes back under a map that has the variable for
that name. -/
theorem mapNamesAt_fillAt_shift {θ : String → Ty} {n : String} {l ks : List Kind} {σ : NameSupply}
    (hn : θ n = .var 0 (ks.length + 1)) {t : Term} (ht : t.KnownIn σ (l ++ .type :: ks)) :
    ((t.fillAt (.name n) l.length).shiftAbove 1 l.length).mapNamesAt θ l.length =
      t.mapNamesAt θ l.length := by
  have hty : ∀ {l : List Kind} {a : Ty}, a.KnownIn (l ++ .type :: ks) σ →
      ((a.fillAt (.name n) l.length).shiftAbove 1 l.length).mapNamesAt θ l.length =
        a.mapNamesAt θ l.length := fun {l a} ha => by
    have hscope := ha.formed.wellScoped
    rw [List.length_append, List.length_cons, Nat.add_comm] at hscope
    exact Ty.mapNamesAt_openWith_shift hn l.length hscope
  induction t generalizing l with
  | var p i m =>
    obtain ⟨rfl, hi⟩ := ht
    have hne : i ≠ l.length := by
      rintro rfl
      simp at hi
    simp only [fillAt, shiftAbove, mapNamesAt, var.injEq, true_and, offsetAbove, offset,
      List.length_append, List.length_cons]
    split_ifs <;> omega
  | abs p x ty t ih =>
    have hbody := ih (l := .term :: l) ht.2
    cases ty with
    | none => simpa [fillAt, shiftAbove, mapNamesAt] using hbody
    | some a =>
      simp only [fillAt, shiftAbove, mapNamesAt, Option.map_some, hty (ht.1 a rfl)]
      exact congrArg _ hbody
  | app p t u iht ihu => simp only [fillAt, shiftAbove, mapNamesAt, iht ht.1, ihu ht.2]
  | ite p c t e ihc iht ihe =>
    simp only [fillAt, shiftAbove, mapNamesAt, ihc ht.1, iht ht.2.1, ihe ht.2.2]
  | tyAbs p x t ih => exact congrArg (Term.tyAbs p x) (ih (l := .type :: l) ht.2)
  | tyApp p t ty ih => simp only [fillAt, shiftAbove, mapNamesAt, ih ht.1, hty ht.2]
  | letIn p x e t ihe iht =>
    simp only [fillAt, shiftAbove, mapNamesAt, ihe ht.1]
    exact congrArg _ (iht (l := .term :: l) ht.2)
  | const => rfl

theorem erase_mapNames_eq_of_typeNames {θ η : String → Ty} {t : Term}
    (h : ∀ x ∈ t.typeNames, (θ x).erase = (η x).erase) :
    (t.mapNames θ).erase = (t.mapNames η).erase := by
  rw [mapNames, mapNames, erase_mapNamesAt, erase_mapNamesAt]
  exact mapNamesAt_congr (fun x hx => h x (by rwa [typeNames_erase] at hx)) 0

theorem mem_typeNames_mapNamesAt {θ : String → Ty} {c : Nat} {t : Term} {y : String} :
    y ∈ (t.mapNamesAt θ c).typeNames ↔ ∃ x ∈ t.typeNames, y ∈ (θ x).freeNames := by
  induction t generalizing c with
  | abs p x ty t ih =>
    cases ty <;>
      simp [mapNamesAt, typeNames, ih, Ty.mem_freeNames_mapNamesAt, or_and_right, exists_or]
  | _ => simp_all [mapNamesAt, typeNames, Ty.mem_freeNames_mapNamesAt, or_and_right, exists_or]

theorem mem_typeNames_mapNames {θ : String → Ty} {t : Term} {y : String} :
    y ∈ (t.mapNames θ).typeNames ↔ ∃ x ∈ t.typeNames, y ∈ (θ x).freeNames :=
  mem_typeNames_mapNamesAt

end Term

end LambdaTyping
