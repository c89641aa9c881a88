/-
# Outlines

An outline lists the nodes of a tree, one to a line, each indented below its
parent.
-/

import BitLang.Expr.Basic

namespace BitLang.Expr

/-- A line indented by `depth` steps of two spaces. -/
def outlineLine (depth : Nat) (text : String) : String :=
  String.ofList (List.replicate (2 * depth) ' ') ++ text ++ "\n"

mutual

/-- Puts the lines of a tree before the given lines. -/
def outlineOnto (depth : Nat) : Expr → List String → List String
  | absent, rest => outlineLine depth "Null" :: rest
  | literal _ bits, rest =>
    outlineLine depth ("Literal len=" ++ toString bits.len ++ " \x60" ++ bits.digits ++ "\x60")
      :: rest
  | scope _, rest => outlineLine depth "Scope" :: rest
  | set _ entries, rest =>
    outlineLine depth ("Set (" ++ toString entries.length ++ " entries)")
      :: outlineEntries depth entries rest
  | function _ pattern body, rest =>
    outlineLine depth "Function" :: outlineLine (depth + 1) "Pattern"
      :: pattern.outlineOnto (depth + 2)
        (outlineLine (depth + 1) "Body" :: body.outlineOnto (depth + 2) rest)
  | combine _ left right, rest =>
    outlineLine depth "Combine"
      :: left.outlineOnto (depth + 1) (right.outlineOnto (depth + 1) rest)

/-- Puts the lines of set entries before the given lines. -/
def outlineEntries (depth : Nat) : List (Expr × Expr) → List String → List String
  | [], rest => rest
  | (key, value) :: entries, rest =>
    outlineLine (depth + 1) "Key"
      :: key.outlineOnto (depth + 2) (outlineLine (depth + 1) "Value"
        :: value.outlineOnto (depth + 2) (outlineEntries depth entries rest))

end

/-- The outline of a tree. -/
def outline (e : Expr) : String := String.join (e.outlineOnto 0 [])

end BitLang.Expr
