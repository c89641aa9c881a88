/-
# What a session remembers

A session is given entries and command lines, in any order.  Of all of them it remembers two
things, a last result and a scope, and this module says which: the last result is that of the
latest entry that had a value, and the scope is made of the names that were given to last
results, both counted from the latest line that cleared the session.

Which value an entry has depends on the scope, and so on the inputs before it.  Each input is
therefore taken together with the session it was given to.
-/

import BitLang.Proofs.Bindings
import BitLang.Session
import Mathlib.Data.List.DropRight

namespace BitLang

/-! ## Command lines -/

namespace Command

/-- The line consists of a command's word, alone or with a blank and an argument behind it. -/
def IsLineOf (word line : Bytes) : Prop := line = word ∨ word ++ [0x20] <+: line

instance (word line : Bytes) : Decidable (IsLineOf word line) :=
  inferInstanceAs (Decidable (_ ∨ _))

/-- The name that a line gives to the last result: what stands behind `:let` and a blank,
without white space around it, unless nothing is left. -/
def name? (line : Bytes) : Option Bytes :=
  if utf8 ":let" ++ [0x20] <+: line ∧ trim (line.drop 5) ≠ [] then some (trim (line.drop 5))
  else none

/-- A line is cut at its first blank. -/
theorem takeWhile_eq_iff {word : Bytes} (hword : 0x20 ∉ word) (line : Bytes) :
    (line.takeWhile fun byte => byte != 0x20) = word ↔ IsLineOf word line := by
  unfold IsLineOf
  induction word generalizing line with
  | nil =>
      cases line with
      | nil => simp
      | cons first rest =>
          by_cases hfirst : first = 0x20
          · simp [hfirst]
          · simp [hfirst, Ne.symm hfirst]
  | cons byte word ih =>
      rw [List.mem_cons, not_or] at hword
      cases line with
      | nil => simp
      | cons first rest =>
          have hrest := ih hword.2 rest
          rw [List.cons_append, List.cons_prefix_cons, List.cons.injEq]
          by_cases hfirst : first = 0x20
          · simp [hfirst, hword.1, Ne.symm hword.1]
          · simp [hfirst, hrest, eq_comm (a := byte), and_or_left]

theorem read_reset {line : Bytes} (h : IsLineOf (utf8 ":reset") line) : read line = .reset := by
  have hword := (takeWhile_eq_iff (by decide) line).mpr h
  unfold read
  simp only [hword]
  rfl

theorem read_let {line : Bytes} (h : IsLineOf (utf8 ":let") line) :
    read line = .bind (trim (line.drop 5)) := by
  have hword := (takeWhile_eq_iff (by decide) line).mpr h
  unfold read
  simp only [hword]
  rfl

/-- No other line clears the session or names anything. -/
theorem read_ne {line : Bytes} (hreset : ¬ IsLineOf (utf8 ":reset") line)
    (hlet : ¬ IsLineOf (utf8 ":let") line) :
    read line ≠ .reset ∧ ∀ name, read line ≠ .bind name := by
  rw [← takeWhile_eq_iff (by decide)] at hreset hlet
  unfold read
  simp only [hreset, hlet, if_false]
  repeat' split
  all_goals simp

theorem name?_of_isLineOf {line : Bytes} (h : IsLineOf (utf8 ":let") line) :
    name? line = if trim (line.drop 5) = [] then none else some (trim (line.drop 5)) := by
  rcases h with rfl | hprefix
  · rfl
  · by_cases htrim : trim (line.drop 5) = [] <;> simp [name?, hprefix, htrim]

theorem name?_of_not_isLineOf {line : Bytes} (h : ¬ IsLineOf (utf8 ":let") line) :
    name? line = none :=
  if_neg fun hlet => h (.inr hlet.1)

end Command

/-! ## Inputs -/

namespace Session

/-- What a session is given: an entry to evaluate, or a line to obey. -/
inductive Input where
  | entry (source : Bytes)
  | command (line : Bytes)
deriving DecidableEq, Repr

/-- The session after an input. -/
def take (s : Session) : Input → Session
  | .entry source => (s.enter source).1
  | .command line => (s.obey (Command.read line)).1

/-- The session after inputs, one after another. -/
def takeAll (s : Session) (inputs : List Input) : Session := inputs.foldl take s

/-- Inputs, each together with the session it is given to. -/
def course (s : Session) : List Input → List (Session × Input)
  | [] => []
  | input :: rest => (s, input) :: (s.take input).course rest

/-- The value of an input: that of an entry which can be read and evaluated, whether or not
the value can be printed. -/
def valueOf? (s : Session) : Input → Option Value
  | .entry source => (Expr.parse source).toOption.bind fun e => (e.result s.limit s.scope).toOption
  | .command _ => none

/-- What an input binds: the name on a line that gives one, to the last result so far. -/
def bindingOf? (s : Session) : Input → Option (BitSeq × Value)
  | .entry _ => none
  | .command line => (Command.name? line).map fun name => (.ofBytes name, s.last)

/-- The input clears the session. -/
def Input.resets : Input → Bool
  | .entry _ => false
  | .command line => Command.IsLineOf (utf8 ":reset") line

/-- What was given since the latest input that cleared the session, or everything if none
did. -/
def sinceReset (course : List (Session × Input)) : List (Session × Input) :=
  course.rtakeWhile fun (_, input) => !input.resets

/-! ## One input -/

theorem last_enter (s : Session) (source : Bytes) :
    (s.enter source).1.last = (s.valueOf? (.entry source)).getD s.last := by
  simp only [enter, valueOf?, Expr.result]
  cases Expr.parse source with
  | error error => rfl
  | ok e =>
      simp only [Except.toOption, Option.bind_some]
      cases e.eval s.limit s.scope <;> rfl

theorem scope_enter (s : Session) (source : Bytes) : (s.enter source).1.scope = s.scope := by
  unfold enter
  split
  · rfl
  · split <;> rfl

/-- A command that neither clears the session nor names anything leaves it as it is. -/
theorem obey_of_ne (s : Session) {command : Command} (hreset : command ≠ .reset)
    (hbind : ∀ name, command ≠ .bind name) : (s.obey command).1 = s := by
  cases command with
  | bind name => exact absurd rfl (hbind name)
  | reset => exact absurd rfl hreset
  | showTokens source =>
      simp only [obey]
      split <;> rfl
  | showTree source =>
      simp only [obey]
      split <;> rfl
  | _ => rfl

/-- What a line does to a session: it clears it, or names its last result, or nothing. -/
theorem take_command (s : Session) (line : Bytes) :
    s.take (.command line) =
      if (Input.command line).resets then { s with scope := .empty, last := .null }
      else { s with scope := s.scope.insertAll (s.bindingOf? (.command line)).toList } := by
  simp only [take, Input.resets, decide_eq_true_eq]
  by_cases hreset : Command.IsLineOf (utf8 ":reset") line
  · rw [Command.read_reset hreset, if_pos hreset]
    rfl
  · rw [if_neg hreset]
    by_cases hlet : Command.IsLineOf (utf8 ":let") line
    · rw [Command.read_let hlet, bindingOf?, Command.name?_of_isLineOf hlet, obey]
      split <;> rfl
    · obtain ⟨hne, hbind⟩ := Command.read_ne hreset hlet
      rw [s.obey_of_ne hne hbind, bindingOf?, Command.name?_of_not_isLineOf hlet]
      rfl

/-- The last result after an input. -/
theorem last_take (s : Session) (input : Input) :
    (s.take input).last = if input.resets then .null else (s.valueOf? input).getD s.last := by
  cases input with
  | entry source => exact s.last_enter source
  | command line =>
      rw [take_command]
      split <;> rfl

/-- The scope after an input. -/
theorem scope_take (s : Session) (input : Input) :
    (s.take input).scope =
      if input.resets then .empty else s.scope.insertAll (s.bindingOf? input).toList := by
  cases input with
  | entry source => exact s.scope_enter source
  | command line =>
      rw [take_command]
      split <;> rfl

/-! ## Any number of inputs -/

theorem course_concat (s : Session) (inputs : List Input) (input : Input) :
    s.course (inputs ++ [input]) = s.course inputs ++ [(s.takeAll inputs, input)] := by
  induction inputs generalizing s with
  | nil => rfl
  | cons first rest ih => exact congrArg (List.cons (s, first)) (ih (s.take first))

theorem takeAll_concat (s : Session) (inputs : List Input) (input : Input) :
    s.takeAll (inputs ++ [input]) = (s.takeAll inputs).take input := by
  rw [takeAll, List.foldl_append]
  rfl

theorem sinceReset_concat (course : List (Session × Input)) (s : Session) (input : Input) :
    sinceReset (course ++ [(s, input)]) =
      if input.resets then [] else sinceReset course ++ [(s, input)] := by
  rw [sinceReset, List.rtakeWhile_concat]
  by_cases h : input.resets
  · simp [h]
  · simp [h, sinceReset]

/-- The last result is the value of the latest input that had one. -/
theorem last_takeAll_start (limit : Int) (format : Bytes) (inputs : List Input) :
    ((start limit format).takeAll inputs).last =
      ((sinceReset ((start limit format).course inputs)).filterMap
        fun (s, input) => s.valueOf? input).getLast?.getD .null := by
  induction inputs using List.reverseRecOn with
  | nil => rfl
  | append_singleton inputs input ih =>
      rw [takeAll_concat, course_concat, sinceReset_concat, last_take]
      split
      · rfl
      · rw [ih, List.filterMap_append, List.getLast?_append]
        cases hvalue : ((start limit format).takeAll inputs).valueOf? input <;> simp [hvalue]

theorem scope_takeAll_start (limit : Int) (format : Bytes) (inputs : List Input) :
    ((start limit format).takeAll inputs).scope =
      .ofList ((sinceReset ((start limit format).course inputs)).filterMap
        fun (s, input) => s.bindingOf? input) := by
  induction inputs using List.reverseRecOn with
  | nil => rfl
  | append_singleton inputs input ih =>
      rw [takeAll_concat, course_concat, sinceReset_concat, scope_take]
      split
      · rfl
      · rw [ih, List.filterMap_append, Bindings.ofList_append]
        cases hbinding : ((start limit format).takeAll inputs).bindingOf? input <;>
          simp [hbinding]

/-- After any inputs, the last result of a session is the value of the latest entry that had
one, or null, and its scope binds the names that were given, in order, each to the last
result at that time; both since the session was last cleared.  Only an input that clears the
session or has a value changes the last result, and only one that clears it or binds a name
changes the scope. -/
theorem takeAll_start (limit : Int) (format : Bytes) (inputs : List Input) :
    let recent := sinceReset ((start limit format).course inputs)
    ((start limit format).takeAll inputs).last =
        (recent.filterMap fun (s, input) => s.valueOf? input).getLast?.getD .null ∧
      ((start limit format).takeAll inputs).scope =
        .ofList (recent.filterMap fun (s, input) => s.bindingOf? input) ∧
      ∀ (s : Session) (input : Input), input.resets = false →
        (s.valueOf? input = none → (s.take input).last = s.last) ∧
        (s.bindingOf? input = none → (s.take input).scope = s.scope) := by
  refine ⟨last_takeAll_start limit format inputs, scope_takeAll_start limit format inputs, ?_⟩
  intro s input hresets
  rw [last_take, scope_take, hresets]
  constructor
  · intro hvalue
    rw [hvalue]
    rfl
  · intro hbinding
    rw [hbinding]
    rfl

end Session

end BitLang
