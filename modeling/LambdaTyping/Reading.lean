/-!
Reading a list of symbols from the front. A reader takes the symbols that are
left and either stops with a value and a shorter rest, or gets stuck. A stuck
reader keeps the symbols it could not read past, so a caller can see where it
stopped and go on from there.

The bound on the rest is part of the result, so recursive readers end by the
number of symbols left and need no other argument. A reader of the symbols `ls`
has the bound `ls.length` if it takes at least one of them, and
`ls.length + 1` if it may take none.
-/
namespace LambdaTyping

/-- A value with a rest of fewer than `bound` symbols, or a reason why there is none. -/
inductive Reading (σ ε α : Type) (bound : Nat) where
  | done (value : α) (rest : List σ) (shorter : rest.length < bound)
  | stuck (reason : ε) (rest : List σ)

namespace Reading

variable {σ ε α β : Type} {n : Nat}

/-- Go on with a reader that takes at least one symbol of the rest. -/
def andThen (r : Reading σ ε α n)
    (f : α → (rest : List σ) → rest.length < n → Reading σ ε β rest.length) : Reading σ ε β n :=
  match r with
  | done a rest h =>
    match f a rest h with
    | done b rest' h' => done b rest' (Nat.lt_trans h' h)
    | stuck e rest' => stuck e rest'
  | stuck e rest => stuck e rest

/-- Go on with a reader that may take nothing. -/
def andMaybe (r : Reading σ ε α n)
    (f : α → (rest : List σ) → rest.length < n → Reading σ ε β (rest.length + 1)) :
    Reading σ ε β n :=
  match r with
  | done a rest h =>
    match f a rest h with
    | done b rest' h' => done b rest' (Nat.lt_of_lt_of_le h' h)
    | stuck e rest' => stuck e rest'
  | stuck e rest => stuck e rest

/-- Go on after a success; where the first reader gets stuck, do something else instead. -/
def ifDone (r : Reading σ ε α n)
    (f : α → (rest : List σ) → rest.length < n → Reading σ ε β rest.length)
    (g : Reading σ ε β n) : Reading σ ε β n :=
  match r with
  | done a rest h =>
    match f a rest h with
    | done b rest' h' => done b rest' (Nat.lt_trans h' h)
    | stuck e rest' => stuck e rest'
  | stuck .. => g

/-- The first reading if it is done, else the second. -/
def orElse : Reading σ ε α n → Reading σ ε α n → Reading σ ε α n
  | done a rest h, _ => done a rest h
  | stuck .., r => r

/-- Change the value read. -/
def map (f : α → β) : Reading σ ε α n → Reading σ ε β n
  | done a rest h => done (f a) rest h
  | stuck e rest => stuck e rest

/-- What is read below a bound is read below the next one: a symbol in front has been taken, or
none had to be. -/
def up : Reading σ ε α n → Reading σ ε α (n + 1)
  | done a rest h => done a rest (Nat.lt_succ_of_lt h)
  | stuck e rest => stuck e rest

/-- Take one symbol. -/
def one (a : α) (l : σ) (rest : List σ) : Reading σ ε α (l :: rest).length :=
  done a rest (Nat.lt_succ_self _)

/-- Take nothing. -/
def nothing (a : α) (rest : List σ) : Reading σ ε α (rest.length + 1) :=
  done a rest (Nat.lt_succ_self _)

/-- The value and the rest, without the bound. -/
def toExcept : Reading σ ε α n → Except (ε × List σ) (α × List σ)
  | done a rest _ => .ok (a, rest)
  | stuck e rest => .error (e, rest)

@[simp] theorem toExcept_done (a : α) (rest : List σ) (h : rest.length < n) :
    (done a rest h : Reading σ ε α n).toExcept = .ok (a, rest) := rfl

@[simp] theorem toExcept_stuck (e : ε) (rest : List σ) :
    (stuck e rest : Reading σ ε α n).toExcept = .error (e, rest) := rfl

@[simp] theorem toExcept_one (a : α) (l : σ) (rest : List σ) :
    (one a l rest : Reading σ ε α _).toExcept = .ok (a, rest) := rfl

@[simp] theorem toExcept_nothing (a : α) (rest : List σ) :
    (nothing a rest : Reading σ ε α _).toExcept = .ok (a, rest) := rfl

@[simp] theorem toExcept_up (r : Reading σ ε α n) : r.up.toExcept = r.toExcept := by
  cases r <;> rfl

end Reading

end LambdaTyping
