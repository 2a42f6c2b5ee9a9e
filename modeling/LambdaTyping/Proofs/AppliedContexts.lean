import Mathlib
import LambdaTyping.Proofs.LargerContexts
import LambdaTyping.Proofs.Matching

/-!
# Contexts under a substitution

What follows from the application of a substitution entry by entry. Generalisation
commutes with substitutions that keep clear of the names that are generalised. To
keep a name rigid loses no solution, so that the substitution it gives is a most
general one. Neither needs well scoped contexts and substitutions. In well scoped
contexts one substitution is applied after another, and types are looked up before
or after that.
-/
namespace LambdaTyping

namespace Ty

/-- A substitution that keeps clear of a name goes below its quantifier. -/
theorem mapNames_generalizeTop {θ : String → Ty} {x : String} {t : Ty} (len : Nat)
    (hx : θ x = .name x) (hfresh : ∀ z ∈ t.freeNames, z ≠ x → x ∉ (θ z).freeNames) :
    (t.generalizeTop len x).mapNames θ = (t.mapNames θ).generalizeTop len x := by
  have hbind := moved_bindName (d := 0) (c := 0) len hfresh
  rw [← hx, Function.update_eq_self, moved_zero, Nat.add_zero len] at hbind
  rw [generalizeTop, mapNames_all_eq, generalizeTop, ← hbind, moved, Nat.cast_zero, shiftAbove_zero]

theorem mapNames_generalize {θ : String → Ty} {xs : List String} {t : Ty} (len : Nat)
    (hxs : ∀ x ∈ xs, θ x = .name x)
    (hfresh : ∀ z ∈ t.freeNames, ∀ x ∈ xs, z ≠ x → x ∉ (θ z).freeNames) :
    (t.generalize len xs).mapNames θ = (t.mapNames θ).generalize len xs := by
  induction xs with
  | nil => rfl
  | cons x xs ih =>
    rw [List.forall_mem_cons] at hxs
    rw [generalize_cons, generalize_cons, mapNames_generalizeTop len hxs.1, ih hxs.2]
    · exact fun z hz y hy => hfresh z hz y (List.mem_cons_of_mem x hy)
    · exact fun z hz => hfresh z (mem_freeNames_generalize.mp hz).1 x List.mem_cons_self

end Ty

theorem Subst.image_of_notMem_freeNames {s : Subst} {x : String} (h : x ∉ s.freeNames) :
    s.image x = .name x :=
  image_of_notMem_domain fun hd => h (mem_freeNames_of_mem_domain hd)

theorem NameSet.pairwise_sorted (xs : List String) :
    (sorted xs).Pairwise fun x y => compare x y = .lt := Std.TreeSet.ordered_toList

namespace Context

variable {Γ Δ : Context} {s : Subst} {τ : Ty}

/-- The names to generalise are known by their members: they are in ascending order. -/
theorem generic_congr {a b : Ty} {avoid avoid' : List String}
    (h : ∀ x, x ∈ Γ.generic a avoid ↔ x ∈ Δ.generic b avoid') :
    Γ.generic a avoid = Δ.generic b avoid' := by
  refine List.Perm.eq_of_pairwise (fun x y _ _ hxy hyx => ?_)
    ((NameSet.pairwise_sorted _).filter _) ((NameSet.pairwise_sorted _).filter _)
    ((List.perm_ext_iff_of_nodup (nodup_generic _ _ _) (nodup_generic _ _ _)).mpr h)
  exact absurd hyx (Std.OrientedCmp.not_lt_of_lt hxy)

/-- The same names are generalised before and after a substitution that keeps clear of them. -/
theorem generic_apply (hΔ : Γ.apply s = .ok Δ)
    (hs : ∀ x ∈ τ.freeNames, x ∉ Γ.freeNames → x ∉ s.freeNames) :
    Δ.generic (s.apply τ) [] = Γ.generic τ [] := by
  obtain ⟨-, rfl⟩ := apply_eq_ok_iff.mp hΔ
  have hself : ∀ x ∈ τ.freeNames, x ∉ Γ.freeNames → s.image x = .name x := fun x hx hx' =>
    Subst.image_of_notMem_freeNames (hs x hx hx')
  apply generic_congr
  intro y
  simp only [mem_generic, List.not_mem_nil, not_false_eq_true, and_true, mem_freeNames_applied,
    Subst.apply_eq_mapNames, Ty.mem_freeNames_mapNames]
  constructor
  · rintro ⟨⟨z, hz, hy⟩, hnot⟩
    have hzΓ : z ∉ Γ.freeNames := fun hzΓ => hnot ⟨z, hzΓ, hy⟩
    rw [hself z hz hzΓ] at hy
    obtain rfl := List.mem_singleton.mp hy
    exact ⟨hz, hzΓ⟩
  · rintro ⟨hy, hyΓ⟩
    refine ⟨⟨y, hy, by rw [hself y hy hyΓ]; exact List.mem_singleton_self y⟩, ?_⟩
    rintro ⟨x, hx, hyx⟩
    rcases Subst.mem_freeNames_image hyx with rfl | hys
    · exact hyΓ hx
    · exact hs y hy hyΓ hys

/-- Generalisation commutes with a substitution in whose bindings the names that are generalised do
not occur. -/
theorem apply_generalize (hΔ : Γ.apply s = .ok Δ)
    (hs : ∀ x ∈ τ.freeNames, x ∉ Γ.freeNames → x ∉ s.freeNames) :
    s.apply (Γ.generalize τ []) = Δ.generalize (s.apply τ) [] := by
  have hlength : Δ.length = Γ.length := by rw [(apply_eq_ok_iff.mp hΔ).2, length_applied]
  have hnames : ∀ x ∈ Γ.generic τ [], x ∉ s.freeNames := fun x hx =>
    hs x (mem_generic.mp hx).1 (mem_generic.mp hx).2.1
  rw [generalize, generalize, generic_apply hΔ hs, hlength, Subst.apply_eq_mapNames,
    Subst.apply_eq_mapNames]
  apply Ty.mapNames_generalize
  · intro x hx
    exact Subst.image_of_notMem_freeNames (hnames x hx)
  · intro z _ x hx hzx hxz
    exact (Subst.mem_freeNames_image hxz).elim (fun h => hzx h.symm) (hnames x hx)

/-- The name of a context stands for a type variable below it; two names are generalised. -/
theorem apply_generalize_below_tyVar :
    Context.apply [⟨"y", .var (.name "A")⟩, ⟨"X", .tyVar⟩] [("A", .var 1 2)] =
      .ok [⟨"y", .var (.var 0 1)⟩, ⟨"X", .tyVar⟩] ∧
    Subst.apply [("A", .var 1 2)] (generalize [⟨"y", .var (.name "A")⟩, ⟨"X", .tyVar⟩]
      (.arr (.name "C") (.arr (.name "A") (.name "B"))) []) =
        generalize [⟨"y", .var (.var 0 1)⟩, ⟨"X", .tyVar⟩]
          (.arr (.name "C") (.arr (.var 1 2) (.name "B"))) [] := by
  have hΔ : Context.apply [⟨"y", .var (.name "A")⟩, ⟨"X", .tyVar⟩] [("A", .var 1 2)] =
      .ok [⟨"y", .var (.var 0 1)⟩, ⟨"X", .tyVar⟩] := rfl
  exact ⟨hΔ, apply_generalize (τ := .arr (.name "C") (.arr (.name "A") (.name "B"))) hΔ (by decide)⟩

end Context

namespace Subst

variable {θ s r : Subst}

/-- Under `θ` it makes no difference whether `s` has been applied before. -/
def Absorbs (θ s : Subst) : Prop := ∀ t, θ.apply (s.apply t) = θ.apply t

theorem Absorbs.append (hs : θ.Absorbs s) (hr : θ.Absorbs r) : θ.Absorbs (s ++ r) := fun t => by
  rw [apply_append, hs, hr]

theorem Absorbs.append_left (h : s.Absorbs r) (θ : Subst) : Absorbs (θ ++ s) r := fun t => by
  rw [apply_append, apply_append, h]

theorem absorbs_single {x : String} {u : Ty} (h : θ.apply u = θ.image x) :
    θ.Absorbs (single x u) := fun t => by
  have hsingle : (single x u).apply t = t.mapNames (Function.update Ty.name x u) :=
    substName_eq_mapNames t x u
  rw [hsingle, apply_eq_mapNames θ, Ty.mapNames_mapNames, apply_eq_mapNames]
  refine Ty.mapNames_congr fun y _ => ?_
  by_cases hy : y = x
  · subst hy
    rw [Function.update_self, ← apply_eq_mapNames, h]
  · rw [Function.update_of_ne hy, Ty.mapNames_name]

/-- A name that stays what it is comes from a name. -/
theorem Absorbs.exists_image_eq (h : θ.Absorbs s) {n : String} (hn : θ.image n = .name n) :
    ∃ m, s.image n = .name m ∧ θ.image m = .name n := by
  have himage : θ.apply (s.image n) = .name n := (h (.name n)).trans hn
  rw [apply_eq_mapNames] at himage
  cases hs : s.image n with
  | name m =>
    rw [hs, Ty.mapNames_name] at himage
    exact ⟨m, rfl, himage⟩
  | _ =>
    rw [hs] at himage
    cases himage

/-- A substitution takes no variable out of a type. -/
theorem hasVar_eq_false_of_apply {i : Nat} {t : Ty} (h : (s.apply t).hasVar i = false) :
    t.hasVar i = false := by
  by_contra hvar
  rw [apply_eq_mapNames, Ty.mapNames,
    Ty.hasVar_mapNamesAt_of_hasVar _ (Bool.not_eq_false _ ▸ hvar)] at h
  cases h

end Subst

/-- What refers to no binding under a solution does not do so before. -/
theorem Binding.StaysBelow.of_absorbs {θ r : Subst} {d : Nat} {b : Binding} (h : b.StaysBelow θ d)
    (habsorbs : θ.Absorbs r) : b.StaysBelow r d := by
  cases b with
  | var a =>
    intro i hi
    apply Subst.hasVar_eq_false_of_apply (s := θ)
    rw [habsorbs]
    exact h i hi
  | _ => trivial

theorem Context.apply_eq_ok_of_absorbs {Γ Δ : Context} {θ r : Subst} (h : Γ.apply θ = .ok Δ)
    (habsorbs : θ.Absorbs r) : Γ.apply r = .ok (Γ.applied r) :=
  apply_eq_ok_iff.mpr ⟨fun i e he => ((apply_eq_ok_iff.mp h).1 i e he).of_absorbs habsorbs, rfl⟩

/-- A solution of `s` under which the name `n` stays what it is, with a context that does not know
the name. -/
structure RigidSolution (Γ : Context) (s : Subst) (n : String) (θ : Subst) : Prop where
  absorbs : θ.Absorbs s
  rigid : θ.image n = .name n
  applies : ∃ Δ, Γ.apply θ = .ok Δ ∧ n ∉ Δ.freeNames

namespace RigidSolution

variable {Γ : Context} {s θ r : Subst} {n x : String}

theorem of_keepRigid (hs : s.Absorbs s) (h : keepRigid Γ s n x = .ok r) :
    RigidSolution Γ s n r := by
  obtain ⟨hn, s', -, rfl⟩ := Conclusion.image_of_keepRigid h
  exact ⟨hs.append_left s', hn, (Conclusion.keepRigid_eq_ok_iff.mp h).2⟩

/-- Writing a rigid name for the one that it was renamed to loses no solution. -/
theorem absorbs_of_image_eq (h : RigidSolution Γ s n θ) {m : String} (hm : θ.image m = .name n) :
    θ.Absorbs (if m = n then s else Subst.single m (.name n) ++ s) := by
  split
  · exact h.absorbs
  · refine (Subst.absorbs_single ?_).append h.absorbs
    exact h.rigid.trans hm.symm

theorem exists_keepRigid (h : RigidSolution Γ s n θ) (x : String) :
    ∃ r, keepRigid Γ s n x = .ok r := by
  obtain ⟨m, hsm, hθm⟩ := h.absorbs.exists_image_eq h.rigid
  obtain ⟨Δ, hΔ, hn⟩ := h.applies
  have habsorbs := h.absorbs_of_image_eq hθm
  refine ⟨_, Conclusion.keepRigid_eq_ok_iff.mpr ⟨⟨m, hsm, rfl⟩, _,
    Context.apply_eq_ok_of_absorbs hΔ habsorbs, fun hr => hn ?_⟩⟩
  -- a name that the context knows before, it knows under the solution
  obtain ⟨y, hy, hny⟩ := Context.mem_freeNames_applied.mp hr
  rw [(Context.apply_eq_ok_iff.mp hΔ).2]
  refine Context.mem_freeNames_applied.mpr ⟨y, hy, ?_⟩
  rw [Subst.image, ← habsorbs (.name y), Subst.apply_eq_mapNames, Ty.mem_freeNames_mapNames]
  exact ⟨n, hny, by rw [h.rigid]; exact List.mem_singleton_self n⟩

theorem absorbs_keepRigid (h : RigidSolution Γ s n θ) (hr : keepRigid Γ s n x = .ok r) :
    θ.Absorbs r := by
  obtain ⟨⟨m, hm, rfl⟩, -⟩ := Conclusion.keepRigid_eq_ok_iff.mp hr
  obtain ⟨m', hm', hθ⟩ := h.absorbs.exists_image_eq h.rigid
  rw [hm, Ty.name.injEq] at hm'
  exact h.absorbs_of_image_eq (hm' ▸ hθ)

end RigidSolution

/-- To keep a name rigid under an idempotent substitution succeeds exactly if there is a solution
under which the name stays what it is, and then gives a most general one. It brings in no type that
is not well scoped. -/
theorem keepRigid_mostGeneral {Γ : Context} {s : Subst} (hs : ∀ t, s.apply (s.apply t) = s.apply t)
    (n x : String) :
    ((∃ r, keepRigid Γ s n x = .ok r) ↔ ∃ θ, RigidSolution Γ s n θ) ∧
      ∀ r, keepRigid Γ s n x = .ok r →
        RigidSolution Γ s n r ∧ (∀ θ, RigidSolution Γ s n θ → θ.Absorbs r) ∧
          ((∀ b ∈ s, b.2.WellScoped Γ.length) → ∀ b ∈ r, b.2.WellScoped Γ.length) := by
  refine ⟨⟨?_, ?_⟩, fun r hr => ⟨.of_keepRigid hs hr, ?_, ?_⟩⟩
  · rintro ⟨r, hr⟩
    exact ⟨r, .of_keepRigid hs hr⟩
  · rintro ⟨θ, hθ⟩
    exact hθ.exists_keepRigid x
  · intro θ hθ
    exact hθ.absorbs_keepRigid hr
  · intro hscoped
    obtain ⟨-, s', hs', rfl⟩ := Conclusion.image_of_keepRigid hr
    refine List.forall_mem_append.mpr ⟨fun b hb => ?_, hscoped⟩
    rw [hs' b hb]
    trivial

/-- A name that was renamed is written for its new name, unless the context knows that one. -/
theorem keepRigid_mostGeneral_renamedBack :
    (∀ t, Subst.apply [("N", .name "M")] (Subst.apply [("N", .name "M")] t) =
      Subst.apply [("N", .name "M")] t) ∧
    keepRigid [⟨"f", .var (.arr (.name "A") .bool)⟩] [("N", .name "M")] "N" "X" =
      .ok [("M", .name "N"), ("N", .name "M")] ∧
    (∀ θ, RigidSolution [⟨"f", .var (.arr (.name "A") .bool)⟩] [("N", .name "M")] "N" θ →
      θ.Absorbs [("M", .name "N"), ("N", .name "M")]) ∧
    ¬ ∃ θ, RigidSolution [⟨"f", .var (.arr (.name "M") .bool)⟩] [("N", .name "M")] "N" θ := by
  have hs : Subst.Solved [("N", .name "M")] := by simp [Subst.Solved, Subst.domain, Ty.freeNames]
  have hkept : keepRigid [⟨"f", .var (.arr (.name "A") .bool)⟩] [("N", .name "M")] "N" "X" =
      .ok [("M", .name "N"), ("N", .name "M")] := rfl
  have hescapes : keepRigid [⟨"f", .var (.arr (.name "M") .bool)⟩] [("N", .name "M")] "N" "X" =
      .error (.escape "X") := rfl
  refine ⟨hs.apply_apply, hkept, ((keepRigid_mostGeneral hs.apply_apply "N" "X").2 _ hkept).2.1,
    fun h => ?_⟩
  obtain ⟨r, hr⟩ := (keepRigid_mostGeneral hs.apply_apply "N" "X").1.mpr h
  rw [hescapes] at hr
  cases hr

namespace Binding

variable {b : Binding} {r s : Subst} {n d : Nat}

/-- Two substitutions keep a type below the bindings above it exactly if each does in its turn: no
substitution takes back a reference that another one has left. -/
theorem staysBelow_append_iff (hd : d ≤ n)
    (hb : ∀ a, b = .var a → (s.apply (a.shift d)).WellScoped n) :
    b.StaysBelow (r ++ s) d ↔ b.StaysBelow s d ∧ (b.applied s d).StaysBelow r d := by
  cases b with
  | var a =>
    have hback := (hb a rfl).shift_shift_neg hd
    simp only [StaysBelow, applied, Subst.apply_append]
    constructor
    · intro h
      have hs : ∀ i < d, (s.apply (a.shift d)).hasVar i = false := fun i hi =>
        Subst.hasVar_eq_false_of_apply (h i hi)
      exact ⟨hs, by rwa [hback hs]⟩
    · rintro ⟨hs, hr⟩
      rwa [hback hs] at hr
  | _ => simp [StaysBelow, applied]

theorem applied_applied (hd : d ≤ n)
    (hb : ∀ a, b = .var a → (s.apply (a.shift d)).WellScoped n) (h : b.StaysBelow s d) :
    (b.applied s d).applied r d = b.applied (r ++ s) d := by
  cases b with
  | var a => rw [applied, applied, (hb a rfl).shift_shift_neg hd h, applied, Subst.apply_append]
  | _ => rfl

end Binding

namespace Context

variable {Γ Δ : Context} {s : Subst}

/-- Every type of a variable is well scoped in the context below it. -/
def WellScoped : Context → Prop
  | [] => True
  | e :: Γ => (∀ a, e.binding = .var a → a.WellScoped (List.length Γ)) ∧ WellScoped Γ

theorem WellScoped.getType? (h : Γ.WellScoped) {i : Nat} {a : Ty} (ha : Γ.getType? i = some a) :
    a.WellScoped Γ.length := by
  refine getType?_induction (motive := fun Γ a => Γ.WellScoped → a.WellScoped Γ.length) ?_ ?_ ha h
  · intro x a Γ h
    exact (h.1 a rfl).shiftAbove 1 0
  · intro e Γ a ih h
    exact (ih h.2).shiftAbove 1 0

section Scoped

variable (hΓ : Γ.WellScoped) (hs : ∀ b ∈ s, b.2.WellScoped Γ.length)

include hΓ hs

theorem wellScoped_apply_of_getElem? {i : Nat} {e : Entry} (he : Γ[i]? = some e) :
    ∀ a, e.binding = .var a → (s.apply (a.shift (i + 1 : Nat))).WellScoped Γ.length := by
  obtain ⟨x, b⟩ := e
  rintro a rfl
  exact Subst.wellScoped_apply hs (hΓ.getType? (getType?_of_getElem? he))

theorem applied_append (h : ∀ i (e : Entry), Γ[i]? = some e → e.binding.StaysBelow s (i + 1))
    (r : Subst) : (Γ.applied s).applied r = Γ.applied (r ++ s) := by
  refine List.ext_getElem? fun i => ?_
  rw [getElem?_applied, getElem?_applied, getElem?_applied, Option.map_map]
  refine Option.map_congr fun e he => ?_
  have hi : i + 1 ≤ Γ.length := (List.getElem?_eq_some_iff.mp he).1
  simp only [Function.comp_apply]
  rw [Binding.applied_applied hi (wellScoped_apply_of_getElem? hΓ hs he) (h i e he)]

/-- Two substitutions are applied one after the other. -/
theorem apply_append_eq_ok_iff {r : Subst} :
    Γ.apply (r ++ s) = .ok Δ ↔ ∃ Γ₁, Γ.apply s = .ok Γ₁ ∧ Γ₁.apply r = .ok Δ := by
  have hbelow : ∀ {i : Nat} {e : Entry}, Γ[i]? = some e →
      (e.binding.StaysBelow (r ++ s) (i + 1) ↔
        e.binding.StaysBelow s (i + 1) ∧ (e.binding.applied s (i + 1)).StaysBelow r (i + 1)) :=
    fun he => Binding.staysBelow_append_iff (List.getElem?_eq_some_iff.mp he).1
      (wellScoped_apply_of_getElem? hΓ hs he)
  simp only [apply_eq_ok_iff]
  constructor
  · rintro ⟨h, rfl⟩
    have h₁ : ∀ i (e : Entry), Γ[i]? = some e → e.binding.StaysBelow s (i + 1) := fun i e he =>
      ((hbelow he).mp (h i e he)).1
    refine ⟨Γ.applied s, ⟨h₁, rfl⟩, fun i e he => ?_, (applied_append hΓ hs h₁ r).symm⟩
    rw [getElem?_applied, Option.map_eq_some_iff] at he
    obtain ⟨e, he, rfl⟩ := he
    exact ((hbelow he).mp (h i e he)).2
  · rintro ⟨_, ⟨h₁, rfl⟩, h₂, rfl⟩
    refine ⟨fun i e he => (hbelow he).mpr ⟨h₁ i e he, ?_⟩, applied_append hΓ hs h₁ r⟩
    exact h₂ i ⟨e.name, e.binding.applied s (i + 1)⟩ (by rw [getElem?_applied, he]; rfl)

end Scoped

theorem map_name_applied (s : Subst) (Γ : Context) :
    (Γ.applied s).map Entry.name = Γ.map Entry.name := by
  refine List.ext_getElem? fun i => ?_
  simp [getElem?_applied, Function.comp_def]

theorem sameKinds_applied (s : Subst) (Γ : Context) : (Γ.applied s).SameKinds Γ := by
  refine List.forall₂_iff_get.mpr ⟨length_applied s Γ, fun i hi hi' => ?_⟩
  simp only [applied, List.get_eq_getElem, List.getElem_mapIdx]
  cases (Γ[i]).binding <;> rfl

/-- The substitution brings no type out of scope, said of the types that are looked up. -/
theorem forall_staysBelow_iff :
    (∀ i (e : Entry), Γ[i]? = some e → e.binding.StaysBelow s (i + 1)) ↔
      ∀ i a, Γ.getType? i = some a → ∀ j ≤ i, (s.apply a).hasVar j = false := by
  constructor
  · intro h i a ha j hj
    obtain ⟨x, b, he, rfl⟩ := getType?_eq_some_iff.mp ha
    exact h i _ he j (Nat.lt_succ_of_le hj)
  · intro h i e he
    obtain ⟨x, b⟩ := e
    cases b with
    | var a => exact fun j hj => h i _ (getType?_of_getElem? he) j (Nat.le_of_lt_succ hj)
    | _ => trivial

theorem apply_eq_error_iff :
    (∃ e, Γ.apply s = .error e) ↔
      ∃ i a, Γ.getType? i = some a ∧ ∃ j ≤ i, (s.apply a).hasVar j = true := by
  have hfails : (∃ e, Γ.apply s = .error e) ↔ ¬ ∃ Δ, Γ.apply s = .ok Δ := by
    cases Γ.apply s <;> simp
  simp only [hfails, apply_eq_ok_iff, forall_staysBelow_iff, exists_and_left, exists_eq, and_true]
  push Not
  simp only [Bool.not_eq_false]

/-- In a well scoped context, substitutions compose as they do on types: two of them are applied one
after the other. Under a substitution the entries keep their names and kinds, and types are looked
up before or after. It fails exactly if some type would refer to its own binding or a later one. -/
theorem apply_functorial (hΓ : Γ.WellScoped) (hs : ∀ b ∈ s, b.2.WellScoped Γ.length) :
    (∀ r Δ, Γ.apply (r ++ s) = .ok Δ ↔ ∃ Γ₁, Γ.apply s = .ok Γ₁ ∧ Γ₁.apply r = .ok Δ) ∧
    (∀ Δ, Γ.apply s = .ok Δ →
      Δ.map Entry.name = Γ.map Entry.name ∧ Δ.SameKinds Γ ∧ Δ.length = Γ.length ∧
        ∀ i, Δ.getType? i = (Γ.getType? i).map s.apply) ∧
    ((∃ e, Γ.apply s = .error e) ↔
      ∃ i a, Γ.getType? i = some a ∧ ∃ j ≤ i, (s.apply a).hasVar j = true) := by
  refine ⟨fun r Δ => apply_append_eq_ok_iff hΓ hs, fun Δ hΔ => ?_, apply_eq_error_iff⟩
  obtain ⟨hbelow, rfl⟩ := apply_eq_ok_iff.mp hΔ
  refine ⟨map_name_applied s Γ, sameKinds_applied s Γ, length_applied s Γ, fun i => ?_⟩
  exact getType?_applied (hbelow i) fun a ha => Subst.wellScoped_apply hs (hΓ.getType? ha)

/-- The name `A` stands for `B → X` and `B` for `Bool`, where `X` is declared before both variables;
declared after its variable, `X` cannot stand for `A`. -/
theorem apply_functorial_declaredBefore :
    WellScoped [⟨"y", .var (.arr (.name "A") (.var 1 2))⟩, ⟨"x", .var (.name "A")⟩, ⟨"X", .tyVar⟩] ∧
    (Ty.arr (.name "B") (.var 2 3)).WellScoped 3 ∧
    (∃ Γ₁, Context.apply
        [⟨"y", .var (.arr (.name "A") (.var 1 2))⟩, ⟨"x", .var (.name "A")⟩, ⟨"X", .tyVar⟩]
        [("A", .arr (.name "B") (.var 2 3))] = .ok Γ₁ ∧
      Γ₁.apply [("B", .bool)] = .ok [⟨"y", .var (.arr (.arr .bool (.var 1 2)) (.var 1 2))⟩,
        ⟨"x", .var (.arr .bool (.var 0 1))⟩, ⟨"X", .tyVar⟩]) ∧
    ∃ e, Context.apply [⟨"X", .tyVar⟩, ⟨"y", .var (.name "A")⟩] [("A", .var 0 2)] = .error e := by
  have hΓ : WellScoped
      [⟨"y", .var (.arr (.name "A") (.var 1 2))⟩, ⟨"x", .var (.name "A")⟩, ⟨"X", .tyVar⟩] := by
    simp [WellScoped, Ty.WellScoped]
  have hΔ : WellScoped [⟨"X", .tyVar⟩, ⟨"y", .var (.name "A")⟩] := by
    simp [WellScoped, Ty.WellScoped]
  refine ⟨hΓ, by simp [Ty.WellScoped], ?_, ?_⟩
  · exact ((apply_functorial hΓ (by simp [Ty.WellScoped])).1 [("B", .bool)] _).mp rfl
  · exact (apply_functorial hΔ (by simp [Ty.WellScoped])).2.2.mpr ⟨1, .name "A", rfl, 0, by decide⟩

end Context

end LambdaTyping
