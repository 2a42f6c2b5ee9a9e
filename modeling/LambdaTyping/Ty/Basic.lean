/-!
Types. A type variable is written as its de Bruijn index together with the length
of the context it lives in; term and type binders are counted together. The two
numbers give the place of the binder counted from the root of the context, so
that variables of types in contexts of different lengths can be compared. Free
names stand for unknown types.

Nothing here assumes that indices lie below lengths: the operations are defined
on all values, and a shift that would leave the context stops at zero.
-/
namespace LambdaTyping

inductive Ty where
  /-- A free name. -/
  | name (x : String)
  /-- A bound variable, with its index and the length of its context. -/
  | var (i n : Nat)
  | arr (a b : Ty)
  /-- A quantified type; `x` only matters for printing. -/
  | all (x : String) (a : Ty)
  | bool
  deriving DecidableEq, Inhabited

/-- The place of the binder of variable `i` in a context of length `n`, counted from the root. -/
def level (i n : Nat) : Int := (n : Int) - (i : Int) - 1

/-- Move an index or a length; a result below zero is cut off. -/
def offset (k : Nat) (d : Int) : Nat := ((k : Int) + d).toNat

@[simp] theorem offset_zero (k : Nat) : offset k 0 = k := by simp [offset]
@[simp] theorem offset_natCast (k d : Nat) : offset k (d : Int) = k + d := by simp [offset]; omega

/-- Move an index if it is not below the cutoff. -/
def offsetAbove (c k : Nat) (d : Int) : Nat := if c ≤ k then offset k d else k

namespace Ty

def size : Ty → Nat
  | name _ | var .. | bool => 1
  | arr a b => a.size + b.size + 1
  | all _ a => a.size + 1

/-- Add `d` to all indices from `c` on, and to the lengths of all variables. -/
def shiftAbove (d : Int) (c : Nat) : Ty → Ty
  | name x => name x
  | var i n => var (offsetAbove c i d) (offset n d)
  | arr a b => arr (a.shiftAbove d c) (b.shiftAbove d c)
  | all x a => all x (a.shiftAbove d (c + 1))
  | bool => bool

def shift (d : Int) (t : Ty) : Ty := t.shiftAbove d 0

/-- Replace variable `j` by `s`. The type `s` lives `j` binders below the root of the replacement,
so it is shifted by the number of binders above each place where it is put. -/
def subst (t : Ty) (j : Nat) (s : Ty) : Ty :=
  match t with
  | name x => name x
  | var i n => if i = j then s.shift j else var i n
  | arr a b => arr (a.subst j s) (b.subst j s)
  | all x a => all x (a.subst (j + 1) s)
  | bool => bool

/-- Replace the most recent variable by `s` and drop its binder. -/
def substTop (t s : Ty) : Ty := (t.subst 0 (s.shift 1)).shift (-1)

/-- Replace a free name, below `c` quantifiers. -/
def substNameAt (t : Ty) (x : String) (s : Ty) (c : Nat) : Ty :=
  match t with
  | name y => if y = x then s.shift c else name y
  | var i n => var i n
  | arr a b => arr (a.substNameAt x s c) (b.substNameAt x s c)
  | all y a => all y (a.substNameAt x s (c + 1))
  | bool => bool

/-- Replace a free name by a type. -/
def substName (t : Ty) (x : String) (s : Ty) : Ty := t.substNameAt x s 0

/-- Replace a free name by the variable bound right outside, below `c` quantifiers. -/
def bindNameAt (x : String) (len c : Nat) : Ty → Ty
  | name y => if y = x then var c (len + 1 + c) else name y
  | var i n => var i n
  | arr a b => arr (a.bindNameAt x len c) (b.bindNameAt x len c)
  | all y a => all y (a.bindNameAt x len (c + 1))
  | bool => bool

/-- Replace a free name by the variable of a binder that stands in a context of length `len`. -/
def bindName (x : String) (len : Nat) (t : Ty) : Ty := t.bindNameAt x len 0

/-- Quantify over the free name `x`; `len` is the length of the context of the type. -/
def generalizeTop (len : Nat) (x : String) (t : Ty) : Ty := all x ((t.shift 1).bindName x len)

/-- The type below a quantifier, with a free name for its variable. -/
def openWith (x : String) (a : Ty) : Ty := a.substTop (name x)

/-- Open the outermost quantifier, if there is one. -/
def degeneralizeTop? (x : String) : Ty → Option Ty
  | all _ a => some (a.openWith x)
  | _ => none

/-- The free names from left to right, with repetitions. -/
def freeNames : Ty → List String
  | name x => [x]
  | var .. | bool => []
  | arr a b => a.freeNames ++ b.freeNames
  | all _ a => a.freeNames

/-- Does a free name occur? -/
def mentions (x : String) : Ty → Bool
  | name y => y == x
  | var .. | bool => false
  | arr a b => a.mentions x || b.mentions x
  | all _ a => a.mentions x

@[simp] theorem mentions_iff {x : String} {t : Ty} : t.mentions x = true ↔ x ∈ t.freeNames := by
  induction t with
  | name y =>
    simp only [mentions, freeNames, beq_iff_eq, List.mem_singleton]
    exact eq_comm
  | arr a b iha ihb => simp [mentions, freeNames, iha, ihb]
  | all y a ih => simpa [mentions, freeNames] using ih
  | _ => simp [mentions, freeNames]

/-- The number of places where free names stand. -/
def nameCount : Ty → Nat
  | name _ => 1
  | var .. | bool => 0
  | arr a b => a.nameCount + b.nameCount
  | all _ a => a.nameCount

/-- The number of quantifiers. -/
def quantifiers : Ty → Nat
  | name _ | var .. | bool => 0
  | arr a b => a.quantifiers + b.quantifiers
  | all _ a => a.quantifiers + 1

/-- No quantifier anywhere. -/
def isMono : Ty → Bool
  | name _ | var .. | bool => true
  | arr a b => a.isMono && b.isMono
  | all .. => false

/-- All quantifiers are outermost. -/
def isPrenex : Ty → Bool
  | all _ a => a.isPrenex
  | t => t.isMono

/-- Does the variable with index `i` outside the type occur in it? -/
def hasVar (i : Nat) : Ty → Bool
  | var j _ => j == i
  | name _ | bool => false
  | arr a b => a.hasVar i || b.hasVar i
  | all _ a => a.hasVar (i + 1)

def minOption : Option Nat → Option Nat → Option Nat
  | some i, some j => some (min i j)
  | some i, none => some i
  | none, j => j

def minFreeVarAt (c : Nat) : Ty → Option Nat
  | var i _ => if c ≤ i then some (i - c) else none
  | name _ | bool => none
  | arr a b => minOption (a.minFreeVarAt c) (b.minFreeVarAt c)
  | all _ a => a.minFreeVarAt (c + 1)

/-- The smallest index of a variable that is bound outside the type. -/
def minFreeVar? (t : Ty) : Option Nat := t.minFreeVarAt 0

/-- Drop the `d` most recent binders, unless the type refers to one of them. -/
def unshift? (d : Nat) (t : Ty) : Option Ty :=
  match t.minFreeVar? with
  | some i => if i < d then none else some (t.shift (-(d : Int)))
  | none => some (t.shift (-(d : Int)))

/-- Are two variables below `c` shared binders the same? Inside variables are compared by index,
outside ones by the level of their binder. -/
def sameVar (c i n j m : Nat) : Bool :=
  if i < c ∨ j < c then i == j else level i n == level j m

def alphaEqAt (c : Nat) : Ty → Ty → Bool
  | name x, name y => x == y
  | var i n, var j m => sameVar c i n j m
  | bool, bool => true
  | arr a b, arr a' b' => a.alphaEqAt c a' && b.alphaEqAt c b'
  | all _ a, all _ a' => a.alphaEqAt (c + 1) a'
  | _, _ => false

/-- Equality up to the names of quantified variables, across contexts of any lengths. -/
def alphaEq (s t : Ty) : Bool := s.alphaEqAt 0 t

@[simp] theorem size_shiftAbove (d : Int) (c : Nat) (t : Ty) : (t.shiftAbove d c).size = t.size := by
  induction t generalizing c with
  | arr a b iha ihb => simp [shiftAbove, size, iha, ihb]
  | all x a ih => simp [shiftAbove, size, ih]
  | _ => rfl

@[simp] theorem size_shift (d : Int) (t : Ty) : (t.shift d).size = t.size := size_shiftAbove d 0 t

theorem size_subst_of_size_eq_one {s : Ty} (h : s.size = 1) (j : Nat) (t : Ty) :
    (t.subst j s).size = t.size := by
  induction t generalizing j with
  | var i n => simp only [subst]; split <;> simp [size, h]
  | arr a b iha ihb => simp [subst, size, iha, ihb]
  | all x a ih => simp [subst, size, ih]
  | _ => rfl

@[simp] theorem size_openWith (x : String) (a : Ty) : (a.openWith x).size = a.size := by
  simp [openWith, substTop, size_subst_of_size_eq_one, size]

end Ty

end LambdaTyping
