import LambdaTyping.Context.Basic
import LambdaTyping.Unification

/-!
Generalisation over names that a context does not know, and comparison of types
whose quantifiers are all outermost.
-/
namespace LambdaTyping

/-- Quantify over the given names, the first of them outermost. -/
def Ty.generalize (len : Nat) (xs : List String) (ty : Ty) : Ty :=
  xs.foldr (fun x ty => ty.generalizeTop len x) ty

namespace Context

/-- A supply that stays clear of the names of a context and some types. -/
def supplyFor (Γ : Context) (tys : List Ty) : NameSupply :=
  .avoiding (Γ.freeNames ++ tys.flatMap Ty.freeNames)

/-- The names of a type that are neither in the context nor to be avoided, in ascending order. -/
def generic (Γ : Context) (ty : Ty) (avoid : List String) : List String :=
  let known := NameSet.ofNames (Γ.freeNames ++ avoid)
  (NameSet.sorted ty.freeNames).filter (· ∉ known)

def generalize (Γ : Context) (ty : Ty) (avoid : List String) : Ty :=
  ty.generalize Γ.length (Γ.generic ty avoid)

/-- The type with new names for its outermost quantified variables. -/
def instantiate (Γ : Context) (ty : Ty) (avoid : List String) : Ty :=
  (((Γ.supplyFor [ty]).avoid avoid).openAll ty).1.2

/-- Does a unifier exist, and does it bind no names but those of both sets? -/
def bindsOnly (free vars : NameSet) : Except TypeError Subst → Bool
  | .ok r => r.domain.all fun x => x ∈ free && x ∈ vars
  | .error _ => false

/-- Is `spec` an instance of `gen`? Only the outermost quantified variables of `gen` may be
instantiated. -/
def isInstance (Γ : Context) (gen spec : Ty) : Bool :=
  let g := (Γ.supplyFor [gen, spec]).openAll gen
  let s := g.2.openAll spec
  bindsOnly (.ofNames g.1.2.freeNames) (.ofNames g.1.1) ((unifyOpening g.1.2 s.1.2).answer s.2)

/-- The images of names under a substitution, if they are as many different ones of `among`. -/
def images? (s : Subst) (among : NameSet) (xs : List String) : Option (List String) := do
  let ys ← xs.mapM fun x =>
    match s.apply (.name x) with
    | .name y => if y ∈ among then some y else none
    | _ => none
  let ys := NameSet.sorted ys
  if ys.length = xs.length then some ys else none

/-- Does a unifier exist, and does it take both lists of names to the same ones among them? -/
def sameImages (xs ys : List String) : Except TypeError Subst → Bool
  | .ok s =>
    let among := NameSet.ofNames (xs ++ ys)
    match images? s among xs, images? s among ys with
    | some is, some js => is == js
    | _, _ => false
  | .error _ => false

/-- Are two types equal up to the names and the order of their outermost quantifiers? -/
def areEquivalent (Γ : Context) (a b : Ty) : Bool :=
  let x := (Γ.supplyFor [a, b]).openAll a
  let y := x.2.openAll b
  Γ.isInstance a b && Γ.isInstance b a &&
    sameImages x.1.1 y.1.1 ((unifyOpening x.1.2 y.1.2).answer y.2)

end Context

end LambdaTyping
