import LambdaTyping.Text.Position
import LambdaTyping.Ty.Basic

/-!
Terms with de Bruijn indices. Term binders, type binders and `let` count alike,
and a variable records the length of its context as type variables do.
-/
namespace LambdaTyping

open Text (Position)

inductive Term where
  | var (pos : Position) (i n : Nat)
  | abs (pos : Position) (x : String) (ty : Option Ty) (t : Term)
  | app (pos : Position) (t u : Term)
  | ite (pos : Position) (c t e : Term)
  | tyAbs (pos : Position) (x : String) (t : Term)
  | tyApp (pos : Position) (t : Term) (ty : Ty)
  | letIn (pos : Position) (x : String) (e t : Term)
  | const (pos : Position) (b : Bool)
  deriving DecidableEq, Inhabited

namespace Term

def size : Term → Nat
  | var .. | const .. => 1
  | abs _ _ _ t | tyAbs _ _ t | tyApp _ t _ => t.size + 1
  | app _ t u | letIn _ _ t u => t.size + u.size + 1
  | ite _ c t e => c.size + t.size + e.size + 1

/-- Add `d` to all indices from `c` on, and to all lengths, in types as well. -/
def shiftAbove (d : Int) (c : Nat) : Term → Term
  | var p i n => var p (offsetAbove c i d) (offset n d)
  | abs p x ty t => abs p x (ty.map (Ty.shiftAbove d c)) (t.shiftAbove d (c + 1))
  | app p t u => app p (t.shiftAbove d c) (u.shiftAbove d c)
  | ite p i t e => ite p (i.shiftAbove d c) (t.shiftAbove d c) (e.shiftAbove d c)
  | tyAbs p x t => tyAbs p x (t.shiftAbove d (c + 1))
  | tyApp p t ty => tyApp p (t.shiftAbove d c) (ty.shiftAbove d c)
  | letIn p x e t => letIn p x (e.shiftAbove d c) (t.shiftAbove d (c + 1))
  | const p b => const p b

def shift (d : Int) (t : Term) : Term := t.shiftAbove d 0

/-- Replace term variable `j` by `s`; types are left alone. -/
def subst (t : Term) (j : Nat) (s : Term) : Term :=
  match t with
  | var p i n => if i = j then s.shift j else var p i n
  | abs p x ty t => abs p x ty (t.subst (j + 1) s)
  | app p t u => app p (t.subst j s) (u.subst j s)
  | ite p c t e => ite p (c.subst j s) (t.subst j s) (e.subst j s)
  | tyAbs p x t => tyAbs p x (t.subst (j + 1) s)
  | tyApp p t ty => tyApp p (t.subst j s) ty
  | letIn p x e t => letIn p x (e.subst j s) (t.subst (j + 1) s)
  | const p b => const p b

/-- Replace the most recent variable by `s` and drop its binder. -/
def substTop (t s : Term) : Term := (t.subst 0 (s.shift 1)).shift (-1)

/-- Replace type variable `j` in all types of a term. -/
def substTy (t : Term) (j : Nat) (s : Ty) : Term :=
  match t with
  | var p i n => var p i n
  | abs p x ty t => abs p x (ty.map (·.subst j s)) (t.substTy (j + 1) s)
  | app p t u => app p (t.substTy j s) (u.substTy j s)
  | ite p c t e => ite p (c.substTy j s) (t.substTy j s) (e.substTy j s)
  | tyAbs p x t => tyAbs p x (t.substTy (j + 1) s)
  | tyApp p t ty => tyApp p (t.substTy j s) (ty.subst j s)
  | letIn p x e t => letIn p x (e.substTy j s) (t.substTy (j + 1) s)
  | const p b => const p b

/-- Replace the most recent variable, a type variable, by a type and drop its binder. -/
def substTyTop (t : Term) (s : Ty) : Term := (t.substTy 0 (s.shift 1)).shift (-1)

/-- The free type names from left to right, with repetitions. -/
def typeNames : Term → List String
  | var .. | const .. => []
  | abs _ _ ty t => (ty.map Ty.freeNames).getD [] ++ t.typeNames
  | app _ t u => t.typeNames ++ u.typeNames
  | ite _ c t e => c.typeNames ++ t.typeNames ++ e.typeNames
  | tyAbs _ _ t => t.typeNames
  | tyApp _ t ty => t.typeNames ++ ty.freeNames
  | letIn _ _ e t => e.typeNames ++ t.typeNames

/-- Annotations are equal if both are missing or both are there and equal. -/
def sameAnnot (c : Nat) : Option Ty → Option Ty → Bool
  | some a, some b => a.alphaEqAt c b
  | none, none => true
  | _, _ => false

def alphaEqAt (c : Nat) : Term → Term → Bool
  | var _ i n, var _ j m => Ty.sameVar c i n j m
  | abs _ _ ty t, abs _ _ ty' t' => sameAnnot c ty ty' && t.alphaEqAt (c + 1) t'
  | app _ t u, app _ t' u' => t.alphaEqAt c t' && u.alphaEqAt c u'
  | ite _ i t e, ite _ i' t' e' => i.alphaEqAt c i' && t.alphaEqAt c t' && e.alphaEqAt c e'
  | tyAbs _ _ t, tyAbs _ _ t' => t.alphaEqAt (c + 1) t'
  | tyApp _ t ty, tyApp _ t' ty' => t.alphaEqAt c t' && ty.alphaEqAt c ty'
  | letIn _ _ e t, letIn _ _ e' t' => e.alphaEqAt c e' && t.alphaEqAt (c + 1) t'
  | const _ b, const _ b' => b == b'
  | _, _ => false

/-- Equality up to positions and the names of binders, across contexts of any lengths. -/
def alphaEq (s t : Term) : Bool := s.alphaEqAt 0 t

@[simp] theorem size_shiftAbove (d : Int) (c : Nat) (t : Term) :
    (t.shiftAbove d c).size = t.size := by
  induction t generalizing c <;> simp_all [shiftAbove, size]

@[simp] theorem size_substTy (t : Term) (j : Nat) (s : Ty) : (t.substTy j s).size = t.size := by
  induction t generalizing j <;> simp_all [substTy, size]

@[simp] theorem size_substTyTop (t : Term) (s : Ty) : (t.substTyTop s).size = t.size := by
  simp [substTyTop, shift]

end Term

end LambdaTyping
