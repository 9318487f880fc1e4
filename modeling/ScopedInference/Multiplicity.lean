/-!
# Multiplicities

How many values a position may hold: a range of counts, or a named parameter that stands for one.
`subsumes` orders multiplicities by the counts they accept, and `leastSubsuming` is the smallest one
above a list.
-/

namespace ScopedInference

/-- A missing upper bound means that there is none. -/
inductive Multiplicity where
  | range (lower : Nat) (upper : Option Nat)
  | param (name : String)
deriving DecidableEq, Ord, Inhabited

namespace Multiplicity

def one : Multiplicity := .range 1 (some 1)

def zeroOne : Multiplicity := .range 0 (some 1)

def many : Multiplicity := .range 0 none

def oneMany : Multiplicity := .range 1 none

def isConcrete : Multiplicity → Bool
  | .range _ _ => true
  | .param _ => false

def parameterName? : Multiplicity → Option String
  | .range _ _ => none
  | .param name => some name

/-- Whether no count within the second upper bound is above the first one. -/
@[grind =]
def upperCovers : Option Nat → Option Nat → Bool
  | none, _ => true
  | some _, none => false
  | some u, some v => v ≤ u

/-- Every count that the second multiplicity accepts is accepted by the first. A parameter subsumes
itself alone. -/
@[grind =]
def subsumes : Multiplicity → Multiplicity → Bool
  | .range lower upper, .range lower' upper' => lower ≤ lower' && upperCovers upper upper'
  | m, m' => m = m'

/-- The smallest range above two ranges. A parameter joins with itself; nothing is known of any
other pair, so it joins to every count. -/
@[grind =]
def join : Multiplicity → Multiplicity → Multiplicity
  | .range lower upper, .range lower' upper' =>
    .range (min lower lower') (upper.bind fun u => upper'.map (max u))
  | m, m' => if m = m' then m else many

/-- Goes on through a list with the bounds that the ranges before it come to, if there are any. A
parameter ends the search: it is above the whole list if there is nothing else in it. -/
@[grind =]
def widen (all : List Multiplicity) (lower? upper : Option Nat) : List Multiplicity → Multiplicity
  | [] => .range (lower?.getD 0) upper
  | .range lower upper' :: ms =>
    widen all (some (lower?.elim lower (min · lower))) (upper.bind fun u => upper'.map (max u)) ms
  | .param name :: _ => if all.all (· = .param name) then .param name else many

/-- The smallest multiplicity above all of a list; no count at all for the empty list. -/
def leastSubsuming (ms : List Multiplicity) : Multiplicity := widen ms none (some 0) ms

/-- The text inside an argument list: `n`, `n..m`, `n..*`, or `*` for every count. -/
def bare : Multiplicity → String
  | .param name => name
  | .range 0 none => "*"
  | .range lower none => toString lower ++ "..*"
  | .range lower (some upper) =>
    if lower = upper then toString lower else toString lower ++ ".." ++ toString upper

/-- The text at a position of a signature: in brackets. -/
def display (m : Multiplicity) : String := "[" ++ m.bare ++ "]"

end Multiplicity

end ScopedInference
