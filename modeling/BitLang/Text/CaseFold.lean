/-
# Names without regard to case

The names that the program knows are ASCII, so only the characters that have an
ASCII letter as their other case matter when a name is compared with them.
-/

namespace BitLang

/-- A character without regard to case.  Only these two characters outside ASCII
have a letter of ASCII as their other case. -/
def foldCase (c : Char) : Char :=
  if c = '\u017f' then 's' else if c = '\u212a' then 'k' else c.toLower

/-- Two names are equal but for case. -/
def sameName (name other : String) : Bool :=
  name.toList.map foldCase == other.toList.map foldCase

end BitLang
