import Mathlib
import LambdaTyping.Proofs.DamasMilner
import LambdaTyping.Proofs.HindleyMilnerRules

/-!
# Trees of Hindley-Milner

The equations of a tree are solved by opening quantifiers wherever they stand,
and definitions are generalised over all names that the context does not know.
So a tree can be valid without being a derivation. It is one if schemes only
occur in contexts, where they stay the same from a conclusion to its premises,
and if the annotations of definitions have no names of their own.
-/
namespace LambdaTyping

/-- The judgment is derivable when the substitution is applied to all its parts. -/
def Judgment.TypableUnder (j : Judgment) (s : Subst) : Prop :=
  ∃ Δ, j.context.apply s = .ok Δ ∧ DamasMilner Δ (j.term.mapNames s.image) (s.apply j.ty)

theorem Premise.Derived.typableUnder {p : Premise} (h : p.Derived) :
    p.judgment.TypableUnder p.subst := by
  refine ⟨_, Context.apply_eq_ok p.judgment.context h.isSimple, ?_⟩
  rw [Subst.apply_eq_mapNames]
  exact .of_hindleyMilner (h.derivation _ h.isSimple.image h.solved.models)

/-- Types without quantifiers, or one scheme up to the names of its variables. -/
def Binding.sameScheme : Binding → Binding → Bool
  | .var a, .var b => (a.isMono && b.isMono) || a.alphaEq b
  | _, _ => true

/-- The contexts have the same schemes, one by one. -/
def Context.sameSchemes : Context → Context → Bool
  | [], [] => true
  | e :: Γ, f :: Δ => e.binding.sameScheme f.binding && sameSchemes Γ Δ
  | _, _ => false

theorem Ty.Instance.isSimple_of_isMono {σ τ : Ty} (h : σ.Instance τ) (hmono : σ.isMono) :
    σ.isSimple := by
  cases h with
  | simple hσ => exact hσ
  | all => simp [isMono] at hmono

namespace Context

theorem IsPolymorphic.of_cons {e : Entry} {Γ : Context} (h : IsPolymorphic (e :: Γ)) :
    (∀ a, e.binding = .var a → ∃ τ, a.Instance τ) ∧ Γ.IsPolymorphic := by
  constructor
  · intro a ha
    obtain ⟨x, b⟩ := e
    obtain rfl : b = .var a := ha
    obtain ⟨τ, hτ⟩ := h 0 (a.shift 1) rfl
    exact ⟨τ, Ty.instance_shift_iff (d := 1) |>.mp hτ⟩
  · intro i a ha
    obtain ⟨τ, hτ⟩ := h (i + 1) (a.shift 1) (by rw [getType?_cons_succ, ha]; rfl)
    exact ⟨τ, Ty.instance_shift_iff (d := 1) |>.mp hτ⟩

theorem length_eq_of_sameSchemes {Γ Δ : Context} (h : Γ.sameSchemes Δ = true) :
    Γ.length = Δ.length := by
  induction Γ generalizing Δ with
  | nil =>
    cases Δ with
    | nil => rfl
    | cons f Δ => simp [sameSchemes] at h
  | cons e Γ ih =>
    cases Δ with
    | nil => simp [sameSchemes] at h
    | cons f Δ =>
      simp only [sameSchemes, Bool.and_eq_true] at h
      simp [ih h.2]

theorem comparable_shift {a b : Ty}
    (h : a.isSimple ∧ b.isSimple ∨ ∃ n, a.WellScoped n ∧ b.WellScoped n ∧ a.erase = b.erase) :
    (a.shift 1).isSimple ∧ (b.shift 1).isSimple ∨
      ∃ n, (a.shift 1).WellScoped n ∧ (b.shift 1).WellScoped n ∧
        (a.shift 1).erase = (b.shift 1).erase := by
  rcases h with ⟨ha, hb⟩ | ⟨n, ha, hb, heq⟩
  · rw [Ty.shift_of_isSimple _ ha, Ty.shift_of_isSimple _ hb]
    exact .inl ⟨ha, hb⟩
  · refine .inr ⟨n + 1, ha.shiftAbove 1 0, hb.shiftAbove 1 0, ?_⟩
    rw [Ty.shift, Ty.shift, Ty.erase_shiftAbove, Ty.erase_shiftAbove, heq]

theorem comparable_of_sameSchemes {Γ Δ : Context} (h : Γ.sameSchemes Δ = true)
    (hΓ : Γ.IsResolved) (hΔ : Δ.IsResolved) (hΓp : Γ.IsPolymorphic) (hΔp : Δ.IsPolymorphic) :
    Γ.Comparable Δ := by
  induction Γ generalizing Δ with
  | nil => intro i a b ha; simp [getType?] at ha
  | cons e Γ ih =>
    cases Δ with
    | nil => simp [sameSchemes] at h
    | cons f Δ =>
      obtain ⟨x, bΓ⟩ := e
      obtain ⟨y, bΔ⟩ := f
      simp only [sameSchemes, Bool.and_eq_true] at h
      intro i A B hA hB
      cases i with
      | zero =>
        obtain ⟨a, rfl, rfl⟩ := getType?_cons_zero_eq_some hA
        obtain ⟨b, rfl, rfl⟩ := getType?_cons_zero_eq_some hB
        refine comparable_shift ?_
        have hhead := h.1
        simp only [Binding.sameScheme, Bool.or_eq_true, Bool.and_eq_true] at hhead
        rcases hhead with ⟨ha, hb⟩ | halpha
        · obtain ⟨τa, hτa⟩ := hΓp.of_cons.1 a rfl
          obtain ⟨τb, hτb⟩ := hΔp.of_cons.1 b rfl
          exact .inl ⟨hτa.isSimple_of_isMono ha, hτb.isSimple_of_isMono hb⟩
        · have ha := hΓ.wellScoped_head
          have hb := hΔ.wellScoped_head
          rw [length_eq_of_sameSchemes h.2] at ha
          exact .inr ⟨_, ha, hb, (Ty.alphaEq_iff_erase ha hb).mp halpha⟩
      | succ i =>
        rw [getType?_cons_succ, Option.map_eq_some_iff] at hA hB
        obtain ⟨a, ha, rfl⟩ := hA
        obtain ⟨b, hb, rfl⟩ := hB
        exact comparable_shift (ih h.2 hΓ.2 hΔ.2 hΓp.of_cons.2 hΔp.of_cons.2 i a b ha hb)

end Context

/-- The premises have the schemes of the context `Γ` of the conclusion. A parameter is no scheme, and
the annotations of a definition have only names that the context knows. -/
def Rule.keepsSchemes (Γ : Context) : Rule → Term → List Judgment → Bool
  | .abs, _, [⟨⟨_, .var a⟩ :: Δ, _, _⟩] => a.isMono && Context.sameSchemes Δ Γ
  | .letIn, .letIn _ _ e _, [p, ⟨_ :: Δ, _, _⟩] =>
    p.context.sameSchemes Γ && Context.sameSchemes Δ Γ &&
      e.typeNames.all fun x => Γ.freeNames.contains x
  | _, _, ps => ps.all fun p => p.context.sameSchemes Γ

theorem Judgment.IsMonotyped.comparable {j : Judgment} (hj : j.IsMonotyped) {p : Premise}
    (hp : p.Derived) (h : p.judgment.context.sameSchemes j.context = true) :
    p.judgment.context.Comparable j.context :=
  Context.comparable_of_sameSchemes h hp.judgment.resolved hj.resolved hp.judgment.context hj.context

/-- A premise with one more variable has the schemes of the conclusion below it. -/
theorem Judgment.IsMonotyped.comparable_tail {j : Judgment} (hj : j.IsMonotyped) {p : Premise}
    (hp : p.Derived) {e : Entry} {Δ : Context} (hcontext : p.judgment.context = e :: Δ)
    (h : Context.sameSchemes Δ j.context = true) : Context.Comparable Δ j.context := by
  have hresolved := hp.judgment.resolved
  have hpolymorphic := hp.judgment.context
  rw [hcontext] at hresolved hpolymorphic
  exact Context.comparable_of_sameSchemes h hresolved.2 hj.resolved hpolymorphic.of_cons.2 hj.context

namespace Conclusion

variable {Γ : Context} {ty : Ty} {σ σ' : NameSupply} {s : Subst} {pos : Text.Position} {x : String}

theorem derived_check_abs {annot : Option Ty} {t : Term}
    (hj : Judgment.IsMonotyped ⟨Γ, .abs pos x annot t, ty⟩) {p : Premise} (hp : p.Derived)
    (hkeeps : Rule.keepsSchemes Γ .abs (.abs pos x annot t) [p.judgment] = true)
    (h : checkAbs ⟨.hindleyMilner, Γ⟩ annot t ty p ⟨σ, []⟩ = .ok ⟨σ', s⟩) :
    Premise.Derived ⟨⟨Γ, .abs pos x annot t, ty⟩, s⟩ := by
  by_cases hext : ∃ y a Δ, p.judgment.context = ⟨y, .var a⟩ :: Δ
  · obtain ⟨y, a, Δ, hcontext⟩ := hext
    obtain ⟨hmono, hΔ⟩ : a.isMono = true ∧ Context.sameSchemes Δ Γ = true := by
      obtain ⟨⟨Γ', t', b⟩, s'⟩ := p
      obtain rfl : Γ' = ⟨y, .var a⟩ :: Δ := hcontext
      simpa [Rule.keepsSchemes] using hkeeps
    have hpolymorphic := hp.judgment.context
    rw [hcontext] at hpolymorphic
    obtain ⟨τ, hτ⟩ := hpolymorphic.of_cons.1 a rfl
    exact derived_checkAbs hj hp hcontext (hτ.isSimple_of_isMono hmono)
      (hj.comparable_tail hp hcontext hΔ) h
  · obtain ⟨err, herr⟩ := checkAbs_eq_error (c := ⟨.hindleyMilner, Γ⟩) (k := ⟨σ, []⟩) annot t ty
      fun y a Δ hcontext => hext ⟨y, a, Δ, hcontext⟩
    rw [herr] at h
    cases h

theorem derived_check_letIn {e t : Term} (hj : Judgment.IsMonotyped ⟨Γ, .letIn pos x e t, ty⟩)
    {p q : Premise} (hp : p.Derived) (hq : q.Derived)
    (hkeeps : Rule.keepsSchemes Γ .letIn (.letIn pos x e t) [p.judgment, q.judgment] = true)
    (h : checkLet ⟨.hindleyMilner, Γ⟩ e t ty p q ⟨σ, []⟩ = .ok ⟨σ', s⟩) :
    Premise.Derived ⟨⟨Γ, .letIn pos x e t, ty⟩, s⟩ := by
  by_cases hext : ∃ y a Δ, q.judgment.context = ⟨y, .var a⟩ :: Δ
  · obtain ⟨y, a, Δ, hcontext⟩ := hext
    obtain ⟨⟨hΓ, hΔ⟩, hnames⟩ : (p.judgment.context.sameSchemes Γ = true ∧
        Context.sameSchemes Δ Γ = true) ∧ ∀ y ∈ e.typeNames, y ∈ Γ.freeNames := by
      obtain ⟨⟨Γ', t', b⟩, s'⟩ := q
      obtain rfl : Γ' = ⟨y, .var a⟩ :: Δ := hcontext
      simpa [Rule.keepsSchemes] using hkeeps
    exact derived_checkLet hj hp hq hcontext (hj.comparable hp hΓ) (hj.comparable_tail hq hcontext hΔ)
      hnames h
  · obtain ⟨err, herr⟩ := checkLet_eq_error (c := ⟨.hindleyMilner, Γ⟩) (k := ⟨σ, []⟩) e t ty p
      fun y a Δ hcontext => hext ⟨y, a, Δ, hcontext⟩
    rw [herr] at h
    cases h

/-- A rule that keeps schemes derives its conclusion from its premises. -/
theorem derived_of_check {j : Judgment} (hj : j.IsMonotyped) {r : Rule} {ps : List Premise}
    (hps : ∀ p ∈ ps, p.Derived)
    (hkeeps : r.keepsSchemes j.context j.term (ps.map (·.judgment)) = true)
    (h : check ⟨.hindleyMilner, j.context⟩ r j.term j.ty ps ⟨.avoiding (namesInUse j ps), []⟩ =
      .ok ⟨σ, s⟩) : Premise.Derived ⟨j, s⟩ := by
  obtain ⟨Γ, t, ty⟩ := j
  simp only at hkeeps h
  unfold check at h
  split at h
  case h_1 pos i n =>
    refine derived_checkVar hj (fun y hy => ?_) h
    rw [NameSupply.mem_used_avoiding]
    simp only [namesInUse, Judgment.freeNames, List.flatMap_nil, List.nil_append, List.mem_append]
    tauto
  case h_2 pos x annot t p => exact derived_check_abs hj (hps p (by simp)) hkeeps h
  case h_3 pos t u p q =>
    simp only [Rule.keepsSchemes, List.map_cons, List.map_nil, List.all_cons, Bool.and_eq_true] at hkeeps
    have hp := hps p (by simp)
    have hq := hps q (by simp)
    exact derived_checkApp hj hp hq
      (by simp [hj.comparable hp hkeeps.1, hj.comparable hq hkeeps.2.1]) h
  case h_4 pos i t e p q r =>
    simp only [Rule.keepsSchemes, List.map_cons, List.map_nil, List.all_cons, Bool.and_eq_true] at hkeeps
    have hp := hps p (by simp)
    have hq := hps q (by simp)
    have hr := hps r (by simp)
    exact derived_checkIte hj hp hq hr (by
      simp [hj.comparable hp hkeeps.1, hj.comparable hq hkeeps.2.1, hj.comparable hr hkeeps.2.2.1]) h
  case h_5 => exact hj.term.elim
  case h_6 => exact hj.term.elim
  case h_7 pos x e t p q =>
    exact derived_check_letIn hj (hps p (by simp)) (hps q (by simp)) hkeeps h
  case h_8 => exact derived_const hj h
  case h_9 => exact derived_const hj h
  case h_10 => cases h

end Conclusion

namespace RuleTree

/-- The type of the root has no quantifiers, and the rule there keeps the schemes of the context. -/
def keepsSchemes (n : RuleTree) : Bool :=
  match n.judgment? with
  | some j => j.ty.isMono && n.rule.keepsSchemes j.context j.term (n.children.filterMap judgment?)
  | none => false

theorem isMonotyped_of_admitted {t : RuleTree} {j : Judgment} (hj : t.judgment? = some j)
    (h : j.Admitted .hindleyMilner) (hmono : j.ty.isMono) : j.IsMonotyped := by
  obtain ⟨hΓ, ht, hty⟩ :=
    Fields.judgment_parse_eq_ok_iff.mp (Fields.judgment?_eq_some_iff.mp hj)
  have hresolved := Context.isResolved_of_parse hΓ
  exact ⟨hresolved, Context.isPolymorphic_of_admitsContext hresolved h.context,
    Term.isPlain_of_parse (by simp) h.context ht h.term, Term.wellScoped_of_parse ht,
    Ty.isSimple_of_isMono hmono (Ty.varsBelow_of_parse (by simp) h.context hty)⟩

/-- The judgments of the children are those of the premises. -/
theorem filterMap_judgment?_eq {k : Calculus} {cs : List RuleTree} {ps : List Premise}
    (h : cs.map (fun c => (c.check k).asPremise) = ps.map fun p => (some p.judgment, p.subst)) :
    cs.filterMap judgment? = ps.map (·.judgment) := by
  induction cs generalizing ps with
  | nil =>
    cases ps with
    | nil => rfl
    | cons p ps => simp at h
  | cons c cs ih =>
    cases ps with
    | nil => simp at h
    | cons p ps =>
      simp only [List.map_cons, List.cons.injEq] at h
      have hc : c.judgment? = some p.judgment := by
        have hfields := congrArg Prod.fst h.1
        rwa [Checked.asPremise, fields_check] at hfields
      rw [List.filterMap_cons, hc, ih h.2]
      rfl

theorem derived_of_isValid {t : RuleTree} {p : Premise} (hj : t.judgment? = some p.judgment)
    (hvalid : (t.check .hindleyMilner).isValid = true)
    (hs : (t.check .hindleyMilner).outcome = .ok p.subst)
    (hkeeps : ∀ n, t.HasNode n → n.keepsSchemes = true) : p.Derived := by
  induction t using RuleTree.induction generalizing p with
  | node t ih =>
    obtain ⟨hroot, hbelow⟩ := forall_hasNode_iff.mp hkeeps
    obtain ⟨j, hj', hadmitted, hrule, hchildren⟩ := isValid_check_iff.mp ⟨hvalid, hs⟩
    obtain rfl : p.judgment = j := Option.some.inj (hj.symm.trans hj')
    obtain ⟨-, -, ps, hps, σ, hcheck⟩ := checkRule_eq_ok_iff.mp hrule
    have hpremises : ∀ q ∈ ps, q.Derived := by
      intro q hq
      obtain ⟨c, hc, hjc, hsc⟩ := exists_child_of_mem hchildren hps hq
      exact ih c hc hjc (hchildren c hc) hsc (hbelow c hc)
    simp only [keepsSchemes, hj, Bool.and_eq_true, filterMap_judgment?_eq hps] at hroot
    exact Conclusion.derived_of_check (isMonotyped_of_admitted hj hadmitted hroot.1) hpremises
      hroot.2 hcheck

/-- Soundness: the judgment of the root of a valid tree is derivable under the substitution of the
root, if all nodes keep schemes. -/
theorem typableUnder_of_isValid {t : RuleTree} (hvalid : (t.check .hindleyMilner).isValid = true)
    (hkeeps : ∀ n, t.HasNode n → n.keepsSchemes = true) :
    ∃ j s, t.judgment? = some j ∧ (t.check .hindleyMilner).outcome = .ok s ∧ j.TypableUnder s := by
  obtain ⟨p, hj, hs, -⟩ := exists_asPremise hvalid
  exact ⟨p.judgment, p.subst, hj, hs, (derived_of_isValid hj hvalid hs hkeeps).typableUnder⟩

/-- The identity applied to itself and then to `true`, with names for two of the types. -/
def selfApplication : RuleTree :=
  let Γ := "i: ∀X. X → X"
  ⟨"", "let i = λx. x in i i true", "M", .letIn,
    [⟨"", "λx. x", "A → A", .abs, [⟨"x: A", "x", "A", .var, []⟩]⟩,
      ⟨Γ, "i i true", "Bool", .app,
        [⟨Γ, "i i", "N", .app,
          [⟨Γ, "i", "(Bool → Bool) → N", .var, []⟩, ⟨Γ, "i", "Bool → Bool", .var, []⟩]⟩,
          ⟨Γ, "true", "Bool", .constTrue, []⟩]⟩]⟩

theorem typableUnder_of_isValid_selfApplication :
    (selfApplication.check .hindleyMilner).isValid = true ∧
      (∀ n, selfApplication.HasNode n → n.keepsSchemes = true) ∧
      ∃ j s, selfApplication.judgment? = some j ∧
        (selfApplication.check .hindleyMilner).outcome = .ok s ∧ j.TypableUnder s := by
  have hvalid : (selfApplication.check .hindleyMilner).isValid = true := by decide +kernel
  have hkeeps : ∀ n, selfApplication.HasNode n → n.keepsSchemes = true :=
    allNodes_iff.mp (by decide +kernel)
  exact ⟨hvalid, hkeeps, typableUnder_of_isValid hvalid hkeeps⟩

/-- A constant whose type is a scheme. -/
def constantScheme : RuleTree := ⟨"", "true", "∀X. X", .constTrue, []⟩

/-- A parameter that is a scheme in the premise. -/
def parameterScheme : RuleTree :=
  ⟨"", "λx: Bool. x", "Bool → Bool → Bool", .abs, [⟨"x: ∀X. X", "x", "Bool → Bool", .var, []⟩]⟩

/-- A variable that is a scheme in the premises only. -/
def premiseScheme : RuleTree :=
  ⟨"x: Bool", "x x", "Bool", .app,
    [⟨"x: ∀X. X", "x", "Bool → Bool", .var, []⟩, ⟨"x: ∀X. X", "x", "Bool", .var, []⟩]⟩

/-- A definition with a name in its annotation, which is generalised. -/
def annotationScheme : RuleTree :=
  let Γ := "f: ∀X. X → X"
  ⟨"", "let f = λx: A. x in f true", "Bool", .letIn,
    [⟨"", "λx: A. x", "A → A", .abs, [⟨"x: A", "x", "A", .var, []⟩]⟩,
      ⟨Γ, "f true", "Bool", .app,
        [⟨Γ, "f", "Bool → Bool", .var, []⟩, ⟨Γ, "true", "Bool", .constTrue, []⟩]⟩]⟩

/-- What is derivable under a substitution that leaves everything as it is, is derivable. -/
theorem hindleyMilner_of_typableUnder {t : RuleTree} {j : Judgment} {s : Subst} {Γ : Context}
    {u : Term} {a τ : Ty} (hj : t.judgment? = some j)
    (hread : (t.judgment?.map fun j => (j.context, j.term.erase, j.ty)) = some (Γ, u.erase, a))
    (hΓ : Γ.apply s = .ok Γ) (hu : u.mapNames s.image = u) (ha : s.apply a = a)
    (hplain : u.IsPlain) (hpolymorphic : Γ.IsPolymorphic) (hτ : a.Instance τ)
    (h : j.TypableUnder s) : HindleyMilner Γ u τ := by
  obtain ⟨Γ', t', ty'⟩ := j
  obtain ⟨rfl, hterm, rfl⟩ : Γ' = Γ ∧ t'.erase = u.erase ∧ ty' = a := by simpa [hj] using hread
  obtain ⟨Δ, hΔ, hderivation⟩ := h
  obtain rfl : Γ' = Δ := Except.ok.inj (hΓ.symm.trans hΔ)
  simp only [ha] at hderivation
  refine (hderivation.hindleyMilner hpolymorphic hτ).of_erase_eq (.refl Γ') ?_ hplain
  rw [Term.erase_mapNames_eq hterm, hu]

theorem not_hindleyMilner_var_arr {x : String} {p : Text.Position} {n : Nat} {a b : Ty} :
    ¬ HindleyMilner [⟨x, .var .bool⟩] (.var p 0 n) (.arr a b) := by
  intro h
  cases h with
  | var hi hτ =>
    obtain rfl : Ty.bool = _ := Option.some.inj hi
    cases (Ty.instance_iff_of_isSimple rfl).mp hτ

/-- `let f = λx: A. x in f true`, without positions. -/
def annotatedLet : Term :=
  .letIn default "f" (.abs default "x" (some (.name "A")) (.var default 0 1))
    (.app default (.var default 0 1) (.const default true))

/-- The name of the annotation is a constant, so the definition is no function on `Bool`. -/
theorem not_hindleyMilner_annotatedLet {τ : Ty} : ¬ HindleyMilner [] annotatedLet τ := by
  intro h
  cases h with
  | letIn he ht =>
    cases he with
    | @abs _ _ _ _ _ a b ha hty hx =>
      obtain rfl : .name "A" = a := hty _ rfl
      cases hx with
      | var hi hb =>
        obtain rfl : Ty.name "A" = _ := Option.some.inj hi
        obtain rfl := (Ty.instance_iff_of_isSimple rfl).mp hb
        have hgen : Context.generalize [] (.arr (.name "A") (.name "A")) ["A"] =
            .arr (.name "A") (.name "A") := by decide +kernel
        rw [show Term.typeNames (.abs default "x" (some (.name "A")) (.var default 0 1)) = ["A"]
          from rfl, hgen] at ht
        cases ht with
        | app ht hu =>
          cases hu
          cases ht with
          | var hi hτ =>
            obtain rfl : Ty.arr (.name "A") (.name "A") = _ := Option.some.inj hi
            cases (Ty.instance_iff_of_isSimple rfl).mp hτ

/-- The tree is valid, and its judgment is not derivable under the substitution it is given. -/
def IsMisjudged (t : RuleTree) : Prop :=
  (t.check .hindleyMilner).isValid = true ∧ ∃ j s, t.judgment? = some j ∧
    (t.check .hindleyMilner).outcome = .ok s ∧ ¬ j.TypableUnder s

theorem isMisjudged_of_forall {t : RuleTree} (hvalid : (t.check .hindleyMilner).isValid = true)
    (h : ∀ j s, t.judgment? = some j → (t.check .hindleyMilner).outcome = .ok s →
      ¬ j.TypableUnder s) : t.IsMisjudged := by
  obtain ⟨p, hj, hs, -⟩ := exists_asPremise hvalid
  exact ⟨hvalid, p.judgment, p.subst, hj, hs, h _ _ hj hs⟩

/-- Schemes that a type, a parameter or a premise has without a reason, and a definition that is
generalised over a name of its annotations: each makes a valid tree whose judgment is not derivable. -/
theorem not_typableUnder_misplacedScheme :
    constantScheme.IsMisjudged ∧ parameterScheme.IsMisjudged ∧ premiseScheme.IsMisjudged ∧
      annotationScheme.IsMisjudged := by
  have hnil : Context.IsPolymorphic [] := Context.isPolymorphic_nil
  refine ⟨isMisjudged_of_forall (by decide +kernel) fun j s hj _ h => ?_,
    isMisjudged_of_forall (by decide +kernel) fun j s hj _ h => ?_,
    isMisjudged_of_forall (by decide +kernel) fun j s hj _ h => ?_,
    isMisjudged_of_forall (by decide +kernel) fun j s hj hs h => ?_⟩
  · have htyped := hindleyMilner_of_typableUnder (Γ := []) (u := .const default true)
      (τ := .arr .bool .bool) (a := .all "X" (.var 0 1)) hj (by decide +kernel) rfl rfl
      (Subst.apply_of_disjoint (by simp [Ty.freeNames])) trivial hnil
      (.all (s := .arr .bool .bool) rfl (.simple rfl)) h
    cases htyped
  · have htyped := hindleyMilner_of_typableUnder (Γ := [])
      (u := .abs default "x" (some .bool) (.var default 0 1)) (τ := .arr .bool (.arr .bool .bool)) hj
      (by decide +kernel) rfl rfl (by simp) ⟨by simp, trivial⟩ hnil (.simple rfl) h
    cases htyped with
    | abs ha hty ht => exact not_hindleyMilner_var_arr ht
  · have hbool : s.apply (Ty.bool.shift 1) = .bool := s.apply_bool
    have htyped := hindleyMilner_of_typableUnder (Γ := [⟨"x", .var .bool⟩])
      (u := .app default (.var default 0 1) (.var default 0 1)) (τ := .bool) hj (by decide +kernel)
      (by simp [Context.apply, Context.applyBelow, Context.applyBinding, hbool]; rfl) rfl (by simp)
      ⟨trivial, trivial⟩ (hnil.cons_simple "x" rfl) (.simple rfl) h
    cases htyped with
    | app ht hu => exact not_hindleyMilner_var_arr ht
  · obtain rfl : [] = s := Except.ok.inj (Eq.trans (by decide +kernel) hs)
    have htyped := hindleyMilner_of_typableUnder (Γ := [])
      (u := annotatedLet) (τ := .bool) hj (by decide +kernel) rfl (by simp) (by simp)
      ⟨⟨by simp, trivial⟩, trivial, trivial⟩ hnil (.simple rfl) h
    exact not_hindleyMilner_annotatedLet htyped

end RuleTree

end LambdaTyping
