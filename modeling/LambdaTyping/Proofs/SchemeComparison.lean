import Mathlib
import LambdaTyping.Proofs.Matching

/-!
# What the comparisons of schemes decide

Schemes of a context, that is, types whose quantifiers are all outermost, in terms
of the ways to fill their quantified variables. A scheme is recognised as an
instance of another one exactly if, with new names for its own variables, it comes
from filling the variables of the other one.

Schemes are recognised as equivalent if a bijection between their quantified
variables makes them equal, but only if every quantifier is used: an idle one is
opened with a new name on each side, and no unifier brings the two together. So
the comparison is an equivalence relation on the schemes that use all their
quantifiers, and a scheme with an idle one is equivalent to none, not even to itself.
-/
namespace LambdaTyping

namespace Ty

/-- The number of outermost quantifiers. -/
def outermost : Ty → Nat
  | all _ a => a.outermost + 1
  | _ => 0

/-- Put types for the outermost quantified variables, from the outside in. -/
def fillAll : Ty → List Ty → Ty
  | t, [] => t
  | all _ a, s :: ss => (a.substTop s).fillAll ss
  | t, _ :: _ => t

/-- The names that the outermost quantifiers carry, from the outside in. -/
def binders : Ty → List String
  | all x a => x :: a.binders
  | _ => []

theorem length_binders (t : Ty) : t.binders.length = t.outermost := by
  induction t with
  | all x a ih => simp only [binders, outermost, List.length_cons, ih]
  | _ => rfl

theorem binders_fillAt_name (x : String) (c : Nat) (t : Ty) :
    (t.fillAt (name x) c).binders = t.binders := by
  induction t generalizing c with
  | var i n =>
    rw [fillAt]
    split <;> rfl
  | all y a ih => simp only [fillAt, binders, ih]
  | _ => rfl

theorem outermost_fillAt_name (x : String) (c : Nat) (t : Ty) :
    (t.fillAt (name x) c).outermost = t.outermost := by
  rw [← length_binders, binders_fillAt_name, length_binders]

theorem outermost_le_fillAt (s : Ty) (c : Nat) (t : Ty) :
    t.outermost ≤ (t.fillAt s c).outermost := by
  induction t generalizing c with
  | all y a ih => exact Nat.succ_le_succ (ih (c + 1))
  | _ => exact Nat.zero_le _

theorem mapNames_fillAll {θ : String → Ty} {t : Ty} {ss : List Ty} (h : ss.length ≤ t.outermost) :
    (t.fillAll ss).mapNames θ = (t.mapNames θ).fillAll (ss.map (mapNames θ)) := by
  induction ss generalizing t with
  | nil => rfl
  | cons s ss ih =>
    cases t with
    | all x a =>
      have hlength : ss.length ≤ (a.fillAt s 0).outermost :=
        (Nat.le_of_succ_le_succ h).trans (outermost_le_fillAt s 0 a)
      rw [fillAll, substTop_eq_fillAt, ih hlength, mapNames, mapNamesAt_fillAt,
        ← substTop_eq_fillAt]
      rfl
    | _ => cases h

theorem IsMonoIn.of_mapNames {n : Nat} {θ : String → Ty} {t : Ty} (h : (t.mapNames θ).IsMonoIn n)
    {x : String} (hx : x ∈ t.freeNames) : (θ x).IsMonoIn n := by
  induction t with
  | name y =>
    rw [List.mem_singleton.mp hx]
    rwa [mapNames_name] at h
  | arr a b iha ihb =>
    obtain ⟨hmono, hscoped⟩ := h
    rw [mapNames_arr, Ty.isMono, Bool.and_eq_true] at hmono
    rw [mapNames_arr] at hscoped
    rcases List.mem_append.mp hx with hx | hx
    · exact iha ⟨hmono.1, hscoped.1⟩ hx
    · exact ihb ⟨hmono.2, hscoped.2⟩ hx
  | all y a ih => simpa [mapNames, mapNamesAt, Ty.isMono] using h.isMono
  | _ => cases hx

theorem isMonoIn_of_mem_map_name (n : Nat) {xs : List String} :
    ∀ s ∈ xs.map name, s.IsMonoIn n :=
  List.forall_mem_map.mpr fun _ _ => isMonoIn_of_isSimple n rfl

end Ty

/-- The map that takes the names of a list to the types of another list, in order. -/
def assign (xs : List String) (ss : List Ty) (x : String) : Ty := ss[xs.idxOf x]?.getD (.name x)

section Assign

variable {xs : List String} {ss : List Ty}

theorem assign_of_notMem (hlength : ss.length = xs.length) {x : String} (hx : x ∉ xs) :
    assign xs ss x = .name x := by
  rw [assign, List.idxOf_eq_length hx, ← hlength, List.getElem?_length]
  rfl

theorem map_assign (hlength : ss.length = xs.length) (hnodup : xs.Nodup) :
    xs.map (assign xs ss) = ss := by
  refine List.ext_getElem (by simp [hlength]) fun i hi hi' => ?_
  rw [List.getElem_map, assign, hnodup.idxOf_getElem, List.getElem?_eq_getElem hi',
    Option.getD_some]

theorem isMonoMap_assign {n : Nat} (h : ∀ s ∈ ss, s.IsMonoIn n) : IsMonoMap n (assign xs ss) := by
  intro x
  rw [assign]
  cases hs : ss[xs.idxOf x]? with
  | none => exact Ty.isMonoIn_of_isSimple n rfl
  | some s => exact h s (List.mem_of_getElem? hs)

end Assign

/-- Different names for the outermost quantified variables of `t`, which occur neither in `t` nor
in `u`. -/
structure NewNames (t u : Ty) (xs : List String) : Prop where
  nodup : xs.Nodup
  length_eq : xs.length = t.outermost
  notMem : ∀ x ∈ xs, x ∉ t.freeNames ∧ x ∉ u.freeNames

namespace NewNames

variable {t u : Ty} {xs : List String} {ss : List Ty}

theorem mapNames_fillAll_name {θ : String → Ty} (h : NewNames t u xs)
    (hθ : ∀ x, x ∉ xs → θ x = .name x) :
    (t.fillAll (xs.map .name)).mapNames θ = t.fillAll (xs.map θ) := by
  have hself : t.mapNames θ = t :=
    Ty.mapNames_eq_self fun x hx => hθ x fun hx' => (h.notMem x hx').1 hx
  have hlength : (xs.map Ty.name).length ≤ t.outermost := by rw [List.length_map, h.length_eq]
  have hnames : Ty.mapNames θ ∘ Ty.name = θ := funext (Ty.mapNames_name θ)
  rw [Ty.mapNames_fillAll hlength, hself, List.map_map, hnames]

/-- The type with names for its variables stands for all ways to fill these. -/
theorem mapNames_assign (h : NewNames t u xs) (hss : ss.length = t.outermost) :
    (t.fillAll (xs.map .name)).mapNames (assign xs ss) = t.fillAll ss := by
  have hlength : ss.length = xs.length := hss.trans h.length_eq.symm
  rw [h.mapNames_fillAll_name fun x => assign_of_notMem hlength, map_assign hlength h.nodup]

/-- A way to fill the other type so that it is this one with names gives one for all types in place
of the names. -/
theorem fillAll_of_eq (h : NewNames t u xs) {args : List Ty} (hargs : args.length = u.outermost)
    (heq : u.fillAll args = t.fillAll (xs.map .name)) (hss : ss.length = t.outermost) :
    u.fillAll (args.map (Ty.mapNames (assign xs ss))) = t.fillAll ss := by
  have hlength : ss.length = xs.length := hss.trans h.length_eq.symm
  have hself : u.mapNames (assign xs ss) = u :=
    Ty.mapNames_eq_self fun x hx => assign_of_notMem hlength fun hx' => (h.notMem x hx').2 hx
  rw [← h.mapNames_assign hss, ← heq, Ty.mapNames_fillAll hargs.le, hself]

end NewNames

/-- A type in a context of length `n` whose quantifiers are all outermost. -/
structure Scheme (n : Nat) where
  ty : Ty
  wellScoped : ty.WellScoped n
  isPrenex : ty.isPrenex

namespace NameSupply

theorem length_openAll (ty : Ty) (σ : NameSupply) : (σ.openAll ty).1.1.length = ty.outermost := by
  induction ty, σ using openAll_induction with
  | all x a σ ih =>
    rw [openAll_all, List.length_cons, ih, Ty.openWith_eq_fillAt, Ty.outermost_fillAt_name,
      Ty.outermost]
  | other ty σ hne =>
    rw [openAll_of_not_all hne]
    cases ty with
    | all x a => exact absurd rfl (hne x a)
    | _ => rfl

theorem openAll_eq_fillAll (ty : Ty) (σ : NameSupply) :
    (σ.openAll ty).1.2 = ty.fillAll ((σ.openAll ty).1.1.map .name) := by
  induction ty, σ using openAll_induction with
  | all x a σ ih =>
    rw [openAll_all]
    exact ih
  | other ty σ hne => rw [openAll_of_not_all hne, List.map_nil, Ty.fillAll]

theorem isMonoIn_openAll {n : Nat} (t : Scheme n) (σ : NameSupply) :
    (σ.openAll t.ty).1.2.IsMonoIn n := by
  obtain ⟨ty, hscoped, hprenex⟩ := t
  induction ty, σ using openAll_induction with
  | all x a σ ih =>
    rw [openAll_all]
    rw [Ty.openWith_eq_fillAt] at ih ⊢
    refine ih ?_ (Ty.isPrenex_fillAt rfl hprenex)
    exact Ty.WellScoped.fillAt (n := n) (c := 0) trivial hscoped
  | other ty σ hne =>
    rw [openAll_of_not_all hne]
    cases ty with
    | all x a => exact absurd rfl (hne x a)
    | _ => exact ⟨hprenex, hscoped⟩

/-- Types for the variables of a scheme as a map from the names it is opened with. -/
theorem matches_assign {n : Nat} {t u v : Ty} {σ : NameSupply} {args : List Ty}
    (hnew : NewNames t u (σ.openAll t).1.1) (hlength : args.length = t.outermost)
    (hargs : ∀ s ∈ args, s.IsMonoIn n) (hv : ∀ x ∈ v.freeNames, x ∉ (σ.openAll t).1.1)
    (heq : t.fillAll args = v) : Matches n (· ∈ (σ.openAll t).1.1) (assign (σ.openAll t).1.1 args)
      (σ.openAll t).1.2 v where
  isMonoMap := isMonoMap_assign hargs
  eq := by rw [openAll_eq_fillAll, hnew.mapNames_assign hlength, heq]
  off x := assign_of_notMem (hlength.trans hnew.length_eq.symm)
  fresh := hv

end NameSupply

namespace Context

section TwoTypes

variable {Γ : Context} {a b : Ty} {σ : NameSupply}

theorem newNames_left (hσ : Γ.supplyFor [a, b] = σ) : NewNames a b (σ.openAll a).1.1 where
  nodup := NameSupply.nodup_openAll a σ
  length_eq := NameSupply.length_openAll a σ
  notMem x hx := by
    constructor <;> exact fun hx' =>
      NameSupply.openAll_notMem hx (hσ ▸ mem_used_supplyFor (by simp) hx')

theorem newNames_right (hσ : Γ.supplyFor [a, b] = σ) :
    NewNames b a ((σ.openAll a).2.openAll b).1.1 where
  nodup := NameSupply.nodup_openAll b _
  length_eq := NameSupply.length_openAll b _
  notMem x hx := by
    constructor <;> exact fun hx' => NameSupply.openAll_notMem hx
      (NameSupply.mem_used_openAll.mpr (.inr (hσ ▸ mem_used_supplyFor (by simp) hx')))

theorem notMem_left (hσ : Γ.supplyFor [a, b] = σ) :
    ∀ x ∈ ((σ.openAll a).2.openAll b).1.2.freeNames, x ∉ (σ.openAll a).1.1 := fun _ =>
  NameSupply.notMem_left_of_mem_freeNames fun _ hx => hσ ▸ mem_used_supplyFor (by simp) hx

theorem notMem_right (hσ : Γ.supplyFor [a, b] = σ) :
    ∀ x ∈ (σ.openAll a).1.2.freeNames, x ∉ ((σ.openAll a).2.openAll b).1.1 := fun _ =>
  NameSupply.notMem_right_of_mem_freeNames fun _ hx => hσ ▸ mem_used_supplyFor (by simp) hx

end TwoTypes

variable {Γ : Context} {a b g t : Scheme Γ.length}

/-- What the special scheme is filled to, the general one is filled to as well. -/
theorem exists_fillAll_of_isInstance (h : Γ.isInstance g.ty t.ty = true) {ss : List Ty}
    (hlength : ss.length = t.ty.outermost) (hss : ∀ s ∈ ss, s.IsMonoIn Γ.length) :
    ∃ args, args.length = g.ty.outermost ∧ (∀ s ∈ args, s.IsMonoIn Γ.length) ∧
      g.ty.fillAll args = t.ty.fillAll ss := by
  generalize hσ : Γ.supplyFor [g.ty, t.ty] = σ
  obtain ⟨η, hη⟩ := (isInstance_iff_exists_matches hσ (NameSupply.isMonoIn_openAll g _)
    (NameSupply.isMonoIn_openAll t _)).mp h
  have hfill := hη.eq
  rw [NameSupply.openAll_eq_fillAll, (newNames_left hσ).mapNames_fillAll_name hη.off,
    NameSupply.openAll_eq_fillAll] at hfill
  have hargs : ((σ.openAll g.ty).1.1.map η).length = g.ty.outermost := by
    rw [List.length_map, NameSupply.length_openAll]
  refine ⟨_, ?_, ?_, (newNames_right hσ).fillAll_of_eq hargs hfill hlength⟩
  · rw [List.length_map, hargs]
  · rw [List.forall_mem_map, List.forall_mem_map]
    exact fun x _ => (isMonoMap_assign hss).mapNames (hη.isMonoMap x)

/-- A scheme that is filled to the other one with new names has it as an instance. -/
theorem isInstance_of_fillAll {ys : List String} (hys : NewNames t.ty g.ty ys) {args : List Ty}
    (hargs : args.length = g.ty.outermost)
    (heq : g.ty.fillAll args = t.ty.fillAll (ys.map .name)) :
    Γ.isInstance g.ty t.ty = true := by
  generalize hσ : Γ.supplyFor [g.ty, t.ty] = σ
  have hopeng := NameSupply.isMonoIn_openAll g σ
  have hopent := NameSupply.isMonoIn_openAll t (σ.openAll g.ty).2
  -- the same with the names of the comparison
  obtain ⟨args', hlength, hfill⟩ : ∃ args', args'.length = g.ty.outermost ∧
      g.ty.fillAll args' = ((σ.openAll g.ty).2.openAll t.ty).1.2 := by
    refine ⟨_, ?_, (hys.fillAll_of_eq hargs heq ?_).trans
      (NameSupply.openAll_eq_fillAll t.ty _).symm⟩
    · rw [List.length_map, hargs]
    · rw [List.length_map, NameSupply.length_openAll]
  have hmap : (σ.openAll g.ty).1.2.mapNames (assign (σ.openAll g.ty).1.1 args') =
      ((σ.openAll g.ty).2.openAll t.ty).1.2 := by
    rw [NameSupply.openAll_eq_fillAll, (newNames_left hσ).mapNames_assign hlength, hfill]
  -- a type for an idle variable may be any, so it is left out
  refine (isInstance_iff_exists_matches hσ hopeng hopent).mpr
    ⟨fun x => if x ∈ (σ.openAll g.ty).1.2.freeNames then
      assign (σ.openAll g.ty).1.1 args' x else .name x, fun x => ?_, ?_, fun x hx => ?_,
      notMem_left hσ⟩
  · split
    case isTrue hx => exact Ty.IsMonoIn.of_mapNames (hmap ▸ hopent) hx
    case isFalse => exact Ty.isMonoIn_of_isSimple _ rfl
  · rw [← hmap]
    exact Ty.mapNames_congr fun x hx => if_pos hx
  · rw [assign_of_notMem (hlength.trans (newNames_left hσ).length_eq.symm) hx, ite_self]

/-- The comparison decides whether types for the outermost quantified variables of the general
scheme turn it into the special one, with new names for the variables of that. It makes no
difference whether these types may have quantifiers and variables of their own, or none but those
of the context. -/
theorem isInstance_tfae_fillAll (g t : Scheme Γ.length) {ys : List String}
    (hys : NewNames t.ty g.ty ys) :
    List.TFAE [Γ.isInstance g.ty t.ty = true,
      ∃ args, args.length = g.ty.outermost ∧ g.ty.fillAll args = t.ty.fillAll (ys.map .name),
      ∃ args, args.length = g.ty.outermost ∧ (∀ s ∈ args, s.IsMonoIn Γ.length) ∧
        g.ty.fillAll args = t.ty.fillAll (ys.map .name)] := by
  tfae_have 1 → 3 := fun h => exists_fillAll_of_isInstance h
    (by rw [List.length_map, hys.length_eq]) (Ty.isMonoIn_of_mem_map_name _)
  tfae_have 3 → 2 := fun ⟨args, hargs, _, heq⟩ => ⟨args, hargs, heq⟩
  tfae_have 2 → 1 := fun ⟨_, hargs, heq⟩ => isInstance_of_fillAll hys hargs heq
  tfae_finish

/-- Two arguments of which one comes back, as one that takes functions, below a type variable. -/
theorem isInstance_of_function_arguments :
    NewNames
      (.all "C" (.arr (.arr (.var 0 2) (.var 1 2)) (.arr .bool (.arr (.var 0 2) (.var 1 2)))))
      (.all "A" (.all "B" (.arr (.var 1 3) (.arr (.var 0 3) (.var 1 3))))) ["Z"] ∧
    isInstance [⟨"X", .tyVar⟩] (.all "A" (.all "B" (.arr (.var 1 3) (.arr (.var 0 3) (.var 1 3)))))
      (.all "C" (.arr (.arr (.var 0 2) (.var 1 2)) (.arr .bool (.arr (.var 0 2) (.var 1 2))))) =
        true := by
  have hnew : NewNames
      (.all "C" (.arr (.arr (.var 0 2) (.var 1 2)) (.arr .bool (.arr (.var 0 2) (.var 1 2)))))
      (.all "A" (.all "B" (.arr (.var 1 3) (.arr (.var 0 3) (.var 1 3))))) ["Z"] :=
    ⟨by decide, rfl, by decide⟩
  have htfae := isInstance_tfae_fillAll (Γ := [⟨"X", .tyVar⟩]) ⟨_, by simp [Ty.WellScoped], rfl⟩
    ⟨_, by simp [Ty.WellScoped], rfl⟩ hnew
  refine ⟨hnew, (htfae.out 0 1).mpr ?_⟩
  exact ⟨[.arr (.name "Z") (.var 0 1), .bool], rfl, by decide⟩

end Context

theorem exists_ofFn_eq {α : Type} {n : Nat} {xs : List α} (h : xs.length = n) :
    ∃ f : Fin n → α, List.ofFn f = xs := by
  subst h
  exact ⟨xs.get, List.ofFn_get xs⟩

theorem assign_ofFn {n : Nat} {f : Fin n → String} (hf : Function.Injective f) (args : Fin n → Ty)
    (i : Fin n) : assign (List.ofFn f) (List.ofFn args) (f i) = args i := by
  have hlength : (List.ofFn args).length = (List.ofFn f).length := by simp
  have hmap := map_assign hlength (List.nodup_ofFn.mpr hf)
  rw [List.map_ofFn] at hmap
  exact congrFun (List.ofFn_injective hmap) i

namespace Ty

variable {a b c : Ty}

/-- A bijection between the outermost quantified variables makes the types below the quantifiers
equal, whatever is put for the variables. -/
def EqualUpToOrder (a b : Ty) : Prop :=
  ∃ e : Fin a.outermost ≃ Fin b.outermost, ∀ args : Fin b.outermost → Ty,
    a.fillAll (List.ofFn (args ∘ e)) = b.fillAll (List.ofFn args)

namespace EqualUpToOrder

theorem refl (a : Ty) : a.EqualUpToOrder a := ⟨Equiv.refl _, fun _ => rfl⟩

theorem symm (h : a.EqualUpToOrder b) : b.EqualUpToOrder a := by
  obtain ⟨e, he⟩ := h
  refine ⟨e.symm, fun args => ?_⟩
  rw [← he, Function.comp_assoc, e.symm_comp_self, Function.comp_id]

theorem trans (h : a.EqualUpToOrder b) (h' : b.EqualUpToOrder c) : a.EqualUpToOrder c := by
  obtain ⟨e, he⟩ := h
  obtain ⟨e', he'⟩ := h'
  refine ⟨e.trans e', fun args => ?_⟩
  rw [← he', ← he, Function.comp_assoc, Equiv.coe_trans]

/-- The names of one type for the variables of the other one, in another order. -/
theorem exists_perm (h : a.EqualUpToOrder b) {vs : List String} (hvs : vs.length = b.outermost) :
    ∃ ws : List String, ws.Perm vs ∧ ws.length = a.outermost ∧
      a.fillAll (ws.map .name) = b.fillAll (vs.map .name) := by
  obtain ⟨e, he⟩ := h
  obtain ⟨f, rfl⟩ := exists_ofFn_eq hvs
  refine ⟨List.ofFn (f ∘ e), ?_, List.length_ofFn, ?_⟩
  · generalize a.outermost = m at e
    obtain rfl : m = b.outermost := Fin.equiv_iff_eq.mp ⟨e⟩
    exact Equiv.Perm.ofFn_comp_perm e f
  · rw [List.map_ofFn, List.map_ofFn, ← Function.comp_assoc, he]

theorem of_perm {ws vs : List String} (hnew : NewNames b a vs) (hperm : ws.Perm vs)
    (hws : ws.length = a.outermost) (heq : a.fillAll (ws.map .name) = b.fillAll (vs.map .name)) :
    a.EqualUpToOrder b := by
  obtain ⟨g, rfl⟩ := exists_ofFn_eq hws
  obtain ⟨f, rfl⟩ := exists_ofFn_eq hnew.length_eq
  have hf : Function.Injective f := List.nodup_ofFn.mp hnew.nodup
  have hg : Function.Injective g := List.nodup_ofFn.mp (hperm.nodup_iff.mpr hnew.nodup)
  have hcard : a.outermost = b.outermost := by simpa using hperm.length_eq
  have hplace : ∀ i, ∃ j, f j = g i := fun i =>
    List.mem_ofFn.mp (hperm.mem_iff.mp (List.mem_ofFn.mpr ⟨i, rfl⟩))
  choose e he using hplace
  have hbijective : Function.Bijective e := by
    refine (Fintype.bijective_iff_injective_and_card e).mpr ⟨fun i j hij => hg ?_, by simp [hcard]⟩
    rw [← he i, ← he j, hij]
  refine ⟨Equiv.ofBijective e hbijective, fun args => ?_⟩
  have hfill := hnew.fillAll_of_eq (by simp) heq (List.length_ofFn (f := args))
  rw [List.map_ofFn, List.map_ofFn] at hfill
  rw [← hfill]
  congr 2
  funext i
  rw [Function.comp_apply, Function.comp_apply, Function.comp_apply, mapNames_name, ← he i,
    assign_ofFn hf]
  rfl

end EqualUpToOrder

end Ty

namespace Context

variable {Γ : Context} {a b : Scheme Γ.length}

/-- Equivalent schemes are mapped to each other, and have all the names they are opened with. -/
theorem exists_matches_of_areEquivalent {σ : NameSupply} (hσ : Γ.supplyFor [a.ty, b.ty] = σ)
    (h : Γ.areEquivalent a.ty b.ty = true) :
    ∃ η η', Matches Γ.length (· ∈ (σ.openAll a.ty).1.1) η (σ.openAll a.ty).1.2
        ((σ.openAll a.ty).2.openAll b.ty).1.2 ∧
      Matches Γ.length (· ∈ ((σ.openAll a.ty).2.openAll b.ty).1.1) η'
        ((σ.openAll a.ty).2.openAll b.ty).1.2 (σ.openAll a.ty).1.2 ∧
      (∀ x ∈ (σ.openAll a.ty).1.1, x ∈ (σ.openAll a.ty).1.2.freeNames) ∧
      ∀ y ∈ ((σ.openAll a.ty).2.openAll b.ty).1.1,
        y ∈ ((σ.openAll a.ty).2.openAll b.ty).1.2.freeNames := by
  rw [areEquivalent, Bool.and_eq_true, Bool.and_eq_true, hσ] at h
  obtain ⟨⟨hab, hba⟩, hsame⟩ := h
  have hopena := NameSupply.isMonoIn_openAll a σ
  have hopenb := NameSupply.isMonoIn_openAll b (σ.openAll a.ty).2
  obtain ⟨η, hη⟩ := (isInstance_iff_exists_matches hσ hopena hopenb).mp hab
  -- the other way round the names are others, so the map comes from the ways to fill
  have hnames : ((σ.openAll a.ty).1.1.map Ty.name).length = a.ty.outermost := by
    rw [List.length_map, NameSupply.length_openAll]
  obtain ⟨args, hlength, hargs, heq⟩ :=
    exists_fillAll_of_isInstance hba hnames (Ty.isMonoIn_of_mem_map_name _)
  rw [← NameSupply.openAll_eq_fillAll] at heq
  have hη' := NameSupply.matches_assign (newNames_right hσ) hlength hargs (notMem_right hσ) heq
  obtain ⟨s, hrun, hmgu, hfollows⟩ :=
    hη.exists_unifyOpening hopena ((σ.openAll a.ty).2.openAll b.ty).2
  rw [Supplied.answer_eq_ok_iff.mpr ⟨_, hrun⟩] at hsame
  have huses := mem_freeNames_of_sameImages hsame
    (fun x hx hx' => NameSupply.openAll_notMem hx' (NameSupply.mem_used_openAll.mpr (.inl hx)))
    fun x hx => (hη.mem_of_mem_domain hmgu hfollows hx).symm
  rw [hmgu.apply_eq hopena.isMono hopenb.isMono, hη.apply_right hfollows] at huses
  exact ⟨η, _, hη, hη', huses⟩

theorem equalUpToOrder_of_areEquivalent (h : Γ.areEquivalent a.ty b.ty = true) :
    a.ty.UsesQuantifiers ∧ a.ty.EqualUpToOrder b.ty := by
  generalize hσ : Γ.supplyFor [a.ty, b.ty] = σ
  obtain ⟨η, η', hη, hη', husesa, husesb⟩ := exists_matches_of_areEquivalent hσ h
  obtain ⟨f, hf, hperm⟩ := hη.exists_renaming hη' husesa husesb (newNames_left hσ).nodup
    (newNames_right hσ).nodup
  constructor
  · apply NameSupply.usesQuantifiers_of_openAll _ husesa
    intro x hx
    exact hσ ▸ mem_used_supplyFor (by simp) hx
  · apply Ty.EqualUpToOrder.of_perm (newNames_right hσ) hperm
    · rw [List.length_map, NameSupply.length_openAll]
    · have hnames : ((σ.openAll a.ty).1.1.map f).map Ty.name = (σ.openAll a.ty).1.1.map η := by
        rw [List.map_map]
        exact List.map_congr_left fun x hx => (hf x hx).symm
      rw [hnames, ← (newNames_left hσ).mapNames_fillAll_name hη.off,
        ← NameSupply.openAll_eq_fillAll, hη.eq, NameSupply.openAll_eq_fillAll]

theorem areEquivalent_of_equalUpToOrder (huses : a.ty.UsesQuantifiers)
    (h : a.ty.EqualUpToOrder b.ty) : Γ.areEquivalent a.ty b.ty = true := by
  generalize hσ : Γ.supplyFor [a.ty, b.ty] = σ
  obtain ⟨ws, hws, hlength, heq⟩ := h.exists_perm (newNames_right hσ).length_eq
  obtain ⟨ws', -, hlength', heq'⟩ := h.symm.exists_perm (newNames_left hσ).length_eq
  rw [← List.length_map Ty.name] at hlength hlength'
  have hab := isInstance_of_fillAll (newNames_right hσ) hlength heq
  have hba := isInstance_of_fillAll (newNames_left hσ) hlength' heq'
  rw [← NameSupply.openAll_eq_fillAll] at heq heq'
  have hη := NameSupply.matches_assign (newNames_left hσ) hlength
    (Ty.isMonoIn_of_mem_map_name Γ.length) (notMem_left hσ) heq
  have hη' := NameSupply.matches_assign (newNames_right hσ) hlength'
    (Ty.isMonoIn_of_mem_map_name Γ.length) (notMem_right hσ) heq'
  have husesa : ∀ x ∈ (σ.openAll a.ty).1.1, x ∈ (σ.openAll a.ty).1.2.freeNames := fun x =>
    NameSupply.mem_freeNames_of_mem_openAll huses
  refine areEquivalent_of_matches hσ hab hba hη hη' (NameSupply.isMonoIn_openAll a σ) husesa
    fun y hy => ?_
  -- each name of the second scheme is the image of one of the first
  have hy' : Ty.name y ∈ ws.map Ty.name := List.mem_map_of_mem (hws.mem_iff.mpr hy)
  rw [← map_assign (hlength.trans (newNames_left hσ).length_eq.symm) (newNames_left hσ).nodup,
    List.mem_map] at hy'
  obtain ⟨x, hx, himage⟩ := hy'
  rw [← hη.eq, Ty.mem_freeNames_mapNames]
  exact ⟨x, husesa x hx, by rw [himage]; exact List.mem_singleton_self y⟩

/-- Types that are equal up to the order of their quantifiers are recognised if these are used. -/
theorem areEquivalent_iff (a b : Scheme Γ.length) : Γ.areEquivalent a.ty b.ty = true ↔
    a.ty.UsesQuantifiers ∧ a.ty.EqualUpToOrder b.ty := by
  constructor
  · exact equalUpToOrder_of_areEquivalent
  · rintro ⟨huses, hequal⟩
    exact areEquivalent_of_equalUpToOrder huses hequal

/-- The comparison decides equality up to the names and the order of the quantifiers, for schemes
that use all of these; other schemes are equivalent to none, not even to themselves. -/
theorem areEquivalent_equivalence (Γ : Context) :
    (∀ a b : Scheme Γ.length, Γ.areEquivalent a.ty b.ty = true ↔
      a.ty.UsesQuantifiers ∧ a.ty.EqualUpToOrder b.ty) ∧
    Equivalence fun a b : { a : Scheme Γ.length // a.ty.UsesQuantifiers } =>
      Γ.areEquivalent a.1.ty b.1.ty = true := by
  refine ⟨areEquivalent_iff, ?_, ?_, ?_⟩
  · intro a
    exact (areEquivalent_iff a.1 a.1).mpr ⟨a.2, .refl a.1.ty⟩
  · intro a b hab
    have hequal := ((areEquivalent_iff a.1 b.1).mp hab).2
    exact (areEquivalent_iff b.1 a.1).mpr ⟨b.2, hequal.symm⟩
  · intro a b c hab hbc
    have hequal := ((areEquivalent_iff a.1 b.1).mp hab).2
    have hequal' := ((areEquivalent_iff b.1 c.1).mp hbc).2
    exact (areEquivalent_iff a.1 c.1).mpr ⟨a.2, hequal.trans hequal'⟩

/-- Two arguments of which the first comes back, with the quantifiers in either order. -/
theorem areEquivalent_equivalence_swapped :
    areEquivalent [] (.all "X" (.all "Y" (.arr (.var 1 2) (.arr (.var 0 2) (.var 1 2)))))
      (.all "A" (.all "B" (.arr (.var 0 2) (.arr (.var 1 2) (.var 0 2))))) = true := by
  have hnew : NewNames (.all "A" (.all "B" (.arr (.var 0 2) (.arr (.var 1 2) (.var 0 2)))))
      (.all "X" (.all "Y" (.arr (.var 1 2) (.arr (.var 0 2) (.var 1 2))))) ["P", "Q"] :=
    ⟨by decide, rfl, by decide⟩
  refine ((areEquivalent_equivalence []).1 ⟨_, by simp [Ty.WellScoped], rfl⟩
    ⟨_, by simp [Ty.WellScoped], rfl⟩).mpr ⟨by decide, ?_⟩
  exact .of_perm hnew (List.Perm.swap "P" "Q" []) rfl (by decide)

/-- A scheme with an idle quantifier is not recognised as equivalent to itself. -/
theorem not_areEquivalent_self_of_idleQuantifier :
    Ty.EqualUpToOrder (.all "X" (.all "Y" (.arr (.var 1 2) (.var 1 2))))
      (.all "X" (.all "Y" (.arr (.var 1 2) (.var 1 2)))) ∧
    areEquivalent [] (.all "X" (.all "Y" (.arr (.var 1 2) (.var 1 2))))
      (.all "X" (.all "Y" (.arr (.var 1 2) (.var 1 2)))) = false := by
  refine ⟨.refl _, Bool.eq_false_iff.mpr fun h => ?_⟩
  have huses := ((areEquivalent_iff (Γ := []) ⟨_, by simp [Ty.WellScoped], rfl⟩
    ⟨_, by simp [Ty.WellScoped], rfl⟩).mp h).1
  exact absurd huses (by decide)

end Context

end LambdaTyping
