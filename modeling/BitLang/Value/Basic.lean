/-
# Values

A value is null, a bit sequence, a set of bindings or a function that remembers
the scope it was made in.  Beside these stands the absent value, which is no
value of the language: it reads like null wherever a kind is asked for, but the
operator has no rule for it.
-/

import BitLang.Bindings
import BitLang.BitSeq.Integer
import BitLang.Expr.Basic

namespace BitLang

/-- The four kinds of values. -/
inductive Kind where
  | null
  | bits
  | set
  | function
deriving DecidableEq, Repr, Inhabited

namespace Kind

/-- The number that a type query answers. -/
def code : Kind → Nat
  | null => 0
  | bits => 1
  | set => 2
  | function => 3

/-- The kind's name in messages. -/
def name : Kind → String
  | null => "Null"
  | bits => "Bits"
  | set => "Set"
  | function => "Function"

/-- The kind with the given number. -/
def ofCode? : Nat → Option Kind
  | 0 => some null
  | 1 => some bits
  | 2 => some set
  | 3 => some function
  | _ => none

/-- The name of the kind with the given number. -/
def nameOfCode (code : Nat) : String := ((ofCode? code).map name).getD "Unknown"

end Kind

/-- A value of the language, or none of them. -/
inductive Value where
  | absent
  | null
  | bits (bits : BitSeq)
  | set (entries : Bindings Value)
  | function (scope : Bindings Value) (pattern : BitSeq) (body : Expr)
deriving Inhabited

/-- What an expression sees of its surroundings. -/
abbrev Scope := Bindings Value

namespace Value

/-- The kind of a value; the absent value counts as null. -/
def kind : Value → Kind
  | absent => .null
  | null => .null
  | bits _ => .bits
  | set _ => .set
  | function _ _ _ => .function

/-- A natural number as a value. -/
def nat (x : Nat) : Value := bits (.encode x)

/-- The value is absent. -/
def isAbsent : Value → Bool
  | absent => true
  | _ => false

/-- The value is null or absent. -/
def isNull (v : Value) : Bool := v.kind == .null

end Value

end BitLang
