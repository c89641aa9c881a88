/-
# Evaluation errors point at the text

In a tree that was read, every node begins with a token of the text, unless it is absent, and a key
that was made up stands where its value begins.  An evaluation error is attributed to a node of the
tree, so it points at the first token of a node, however deep in calls, folds and remembered scopes
it comes up.

Only an absent operand stands nowhere.  It has a value, the null value, and it is no key, so the
one thing that can be held against it is that it is entered too deep.
-/

import BitLang.Proofs.Eval.Positions
import BitLang.Proofs.Expr.Standing

namespace BitLang

/-- The token is the first of the tokens of the text that are in the stretch: it is where the
stretch starts and lies within it, and the tokens before it end before the stretch. -/
def Token.IsFirstOf (token : Token) (source : Bytes) (span : Span) : Prop :=
  token.lexeme ≠ .endOfInput ∧ token.pos = span.start ∧ token.stop.offset ≤ span.stop.offset ∧
    ∃ before after, scan source = before ++ token :: after ∧
      ∀ earlier ∈ before, earlier.stop.offset ≤ span.start.offset

theorem Token.IsFirstOf.pos_ne_none {token : Token} {source : Bytes} {span : Span}
    (h : token.IsFirstOf source span) : token.pos ≠ .none := by
  obtain ⟨hlexeme, -, -, before, after, hscan, -⟩ := h
  have hmem : token ∈ scan source := by simp [hscan]
  rw [pos_eq_ofOffset hmem hlexeme]
  intro hnone
  have hline := congrArg Position.line hnone
  simp [Position.ofOffset, Position.none] at hline

theorem Span.BeginsWith.exists_isFirstOf {source : Bytes} {span : Span} {first last : Nat}
    (horder : Token.InOrder (Token.scan source))
    (h : span.BeginsWith (Token.scan source) first last) :
    ∃ token : Token, token.IsFirstOf source span := by
  obtain ⟨token, hmem, hlexeme, hstart, -, hstop, -⟩ := h
  obtain ⟨before, after, hscan⟩ := List.append_of_mem hmem
  refine ⟨token, hlexeme, hstart.symm, hstop, before, after, hscan, fun earlier hearlier => ?_⟩
  rw [Token.InOrder, hscan, List.pairwise_append] at horder
  rw [hstart]
  exact horder.2.2 earlier hearlier token List.mem_cons_self

namespace Expr

variable {source : Bytes} {root node : Expr}

/-- A part of the tree that is absent, or a node that starts where a part begins with its first
token. -/
inductive Led (source : Bytes) (root : Expr) : Expr → Prop
  | absent : root.HasPart .absent → Led source root .absent
  | present {node part : Expr} {span : Span} {token : Token} : root.HasPart part →
      part.span? = some span → token.IsFirstOf source span → node.isAbsent = false →
      node.pos = token.pos → Led source root node

/-- If the node is a set, each of its keys is there. -/
def HasKeys : Expr → Prop
  | set _ entries => ∀ entry ∈ entries, entry.1.isAbsent = false
  | _ => True

theorem EntriesStand.hasKeys {tokens : List Token} {entries : List (Expr × Expr)}
    {first last : Nat} (h : EntriesStand tokens entries first last) :
    ∀ entry ∈ entries, entry.1.isAbsent = false := by
  induction entries generalizing first with
  | nil => exact fun entry hmem => nomatch hmem
  | cons entry rest ih =>
      rw [List.forall_mem_cons]
      cases h with
      | keyed hkey _ _ _ _ _ hrest => exact ⟨hkey, ih hrest⟩
      | keyless _ _ hrest => exact ⟨rfl, ih hrest⟩

theorem Stands.hasKeys {tokens : List Token} {first last : Nat}
    (h : node.Stands tokens first last) : node.HasKeys := by
  cases h with
  | set _ _ _ _ _ _ hentries => exact hentries.hasKeys
  | absent | literal | scope | function | combine => trivial

theorem Stands.led {first last : Nat} (horder : Token.InOrder (Token.scan source))
    (hpart : root.HasPart node) (h : node.Stands (Token.scan source) first last) :
    Led source root node := by
  cases hpresent : node.isAbsent with
  | true =>
      rw [isAbsent_iff.mp hpresent] at hpart ⊢
      exact .absent hpart
  | false =>
      obtain ⟨span, hspan, hbegins, -⟩ := h.exists_span hpresent
      obtain ⟨token, htoken⟩ := hbegins.exists_isFirstOf horder
      exact .present hpart hspan htoken hpresent ((pos_eq_start hspan).trans htoken.2.1.symm)

/-- A key that was made up starts where its value begins with its first token. -/
theorem Led.key {value : Expr} (h : Led source root value) (hpresent : value.isAbsent = false)
    (bits : BitSeq) : Led source root (.literal ⟨value.pos, value.pos⟩ bits) := by
  cases h with
  | absent => cases hpresent
  | present hpart hspan htoken _ hpos => exact .present hpart hspan htoken rfl hpos

theorem led_of_parse {e : Expr} (h : parse source = .ok e) :
    e.All fun node => Led source e node ∧ node.HasKeys := by
  have horder := Token.inOrder_scan (ofTokens_of_parse h).1
  exact all_of_parse h
    ⟨fun hpart hstands _ => ⟨hstands.led horder hpart, hstands.hasKeys⟩,
      fun hpart hpresent hvalue _ => ⟨(hvalue.led horder hpart).key hpresent _, trivial⟩⟩

end Expr

/-- The error stands nowhere, since an absent operand of the tree is entered too deep, or it stands
at the first token of a part of the tree. -/
inductive EvalError.PointsInto (source : Bytes) (root : Expr) : EvalError → Prop
  | absent {cause : Cause} : root.HasPart .absent → cause.class = .resourceExhausted →
      PointsInto source root ⟨.none, cause⟩
  | token {part : Expr} {span : Span} {token : Token} (cause : Cause) : root.HasPart part →
      part.span? = some span → token.IsFirstOf source span → token.pos ≠ .none →
      PointsInto source root ⟨token.pos, cause⟩

namespace Expr

variable {source : Bytes} {root node : Expr} {cause : EvalError.Cause}

theorem Led.pointsInto_of_present (h : Led source root node) (hpresent : node.isAbsent = false)
    (cause : EvalError.Cause) : EvalError.PointsInto source root ⟨node.pos, cause⟩ := by
  cases h with
  | absent => cases hpresent
  | present hpart hspan htoken _ hpos =>
      rw [hpos]
      exact .token cause hpart hspan htoken htoken.pos_ne_none

theorem Led.pointsInto (h : Led source root node) (hcause : cause.class = .resourceExhausted) :
    EvalError.PointsInto source root ⟨node.pos, cause⟩ := by
  cases hpresent : node.isAbsent with
  | true =>
      cases h with
      | absent hpart => exact .absent hpart hcause
      | present _ _ _ hother => cases hpresent.symm.trans hother
  | false => exact h.pointsInto_of_present hpresent cause

/-- An error of evaluation stands at the first token of a part of the tree that was read, or it
stands nowhere and an absent operand of the tree is entered too deep. -/
theorem pointsInto_of_failure {e : Expr} (hparse : parse source = .ok e) {limit : Int}
    {error : EvalError} {tally : Tally} (heval : e.eval limit .empty = .failure error tally) :
    error.PointsInto source e := by
  cases (led_of_parse hparse).of_failure heval with
  | level _ hnode => exact hnode.1.pointsInto rfl
  | key _ hset hmem hkey => exact hkey.1.pointsInto_of_present (hset.2 _ hmem) _
  | pattern _ hnode => exact hnode.1.pointsInto_of_present rfl _
  | operands _ hnode => exact hnode.1.pointsInto_of_present rfl _

/-- A function is kept in a set, taken out of it and called; its body asks for a window whose bounds
are missing. -/
def keptSource : Bytes := utf8 "\x7bf=x:\"ab\"$\x7df y"

/-- The tree of the set and of the call. -/
def kept : Expr :=
  let on (start stop : Nat) : Span := ⟨⟨start, 1, start + 1⟩, ⟨stop, 1, stop + 1⟩⟩
  .combine (on 0 14)
    (.combine (on 0 12)
      (.set (on 0 11)
        [(.literal (on 1 2) ⟨8, [0x66]⟩,
          .function (on 3 10) (.literal (on 3 4) ⟨8, [0x78]⟩)
            (.combine (on 5 10) (.literal (on 5 9) ⟨16, [0x61, 0x62]⟩) (.scope (on 9 10))))])
      (.literal (on 11 12) ⟨8, [0x66]⟩))
    (.literal (on 13 14) ⟨8, [0x79]⟩)

/-- The error stands where the body of the function begins. -/
theorem pointsInto_kept :
    parse keptSource = .ok kept ∧
      kept.eval 10 .empty = .failure ⟨⟨5, 1, 6⟩, .missingBound 0⟩ ⟨1, 3⟩ ∧
      EvalError.PointsInto keptSource kept ⟨⟨5, 1, 6⟩, .missingBound 0⟩ := by
  have hparse : parse keptSource = .ok kept := by rfl
  have hrun : ((Eval.Task.expr kept .empty 0).run 10 10).run ⟨0, 0⟩ =
      .failure ⟨⟨5, 1, 6⟩, .missingBound 0⟩ ⟨1, 3⟩ := by rfl
  have heval : kept.eval 10 .empty = .failure ⟨⟨5, 1, 6⟩, .missingBound 0⟩ ⟨1, 3⟩ := by
    rw [eval_of_ended (by rw [hrun]; exact Outcome.failure_ne_outOfFuel _ _), hrun]
  exact ⟨hparse, heval, pointsInto_of_failure hparse heval⟩

end Expr

end BitLang
