/-
# Where diagnostics point

A document has one diagnostic or none, and none exactly if it parses and evaluates.  The
diagnostic points into the document, whatever the error: a token or a node of the tree stands
where it says, and an error that stands nowhere is shown at the start.

There is one exception.  That something nests too deeply may be reported at the end of the text,
and if the last line is empty, the end of the text has no column that could be counted from
zero.
-/

import BitLang.Editor.Diagnostic
import BitLang.Proofs.Editor.Lines
import BitLang.Proofs.Eval.Positions
import BitLang.Proofs.Token.Tiling

namespace BitLang

open Scanner Cursor

/-! ## The tokens of a text -/

theorem Token.exists_scan_eq_ofEnd (source : Bytes) :
    ∃ tokens, scan source = tokens ++ [⟨.endOfInput, [], .ofEnd source⟩] := by
  obtain ⟨count, -, hend, hscan⟩ := exists_scan_eq_map source
  exact ⟨_, hscan.trans (congrArg (_ ++ [·]) (nth_of_eq source hend))⟩

namespace Editor

open BitLang.Parser

/-- Tokens stand in the text. -/
theorem marks_inText {source : Bytes} (hlines : source.count 0x0A < 0x100000000)
    {tokens : List Token} {stop : Token} (hscan : Token.scan source = tokens ++ [stop]) :
    ∀ token ∈ tokens, Marks (fun pos => (Location.ofPosition pos).InText source) token := by
  obtain ⟨front, last, hfront, hne, -⟩ := Token.exists_scan_eq source
  obtain ⟨rfl, -⟩ := List.append_inj' (hscan.symm.trans hfront) rfl
  intro token hmem
  refine ⟨hne token hmem, ?_⟩
  obtain ⟨passed, spelling, rest, hlist, hspelled⟩ :=
    Token.exists_isSpelled (hscan ▸ List.mem_append_left [stop] hmem) (hne token hmem)
  rw [hspelled.pos_eq]
  exact inText_ahead (hlist.trans (List.append_assoc _ _ _)) hlines

/-- Nowhere in the text is shown at its start. -/
theorem inText_none (text : Bytes) : (Location.ofPosition .none).InText text :=
  ⟨Nat.zero_le _, Nat.zero_le _⟩

/-! ## Diagnostics -/

section Diagnose

variable {worker : Worker} {limit : Int} {text : Bytes}

theorem diagnose_of_malformed {e : SyntaxError} (h : Expr.parse text = .error (.malformed e)) :
    diagnose worker limit text = [⟨.ofPosition e.pos, .error, e.cause.describe⟩] := by
  rw [diagnose, h]

theorem diagnose_of_failure {e : Expr} {error : EvalError} {tally : Tally}
    (h : Expr.parse text = .ok e) (heval : e.eval limit .empty = .failure error tally) :
    diagnose .running limit text =
      [⟨.ofPosition error.pos, .warning, utf8 error.describe⟩] := by
  simp [diagnose, h, heval, Worker.perform, Except.mapError]

/-- Nothing is said of a text that parses unless evaluating it fails. -/
theorem diagnose_of_ok {e : Expr} (h : Expr.parse text = .ok e)
    (hother : worker = .stopped ∨ ∀ error tally, e.eval limit .empty ≠ .failure error tally) :
    diagnose worker limit text = [] := by
  cases worker with
  | stopped => simp [diagnose, h, Worker.perform]
  | running =>
      cases heval : e.eval limit .empty with
      | failure error tally => simp [heval] at hother
      | _ => simp [diagnose, h, heval, Worker.perform, Except.mapError]

theorem length_diagnose_le (worker : Worker) (limit : Int) (text : Bytes) :
    (diagnose worker limit text).length ≤ 1 := by
  unfold diagnose
  repeat' split
  all_goals simp

/-- A text that does not parse has a syntax error. -/
theorem exists_malformed {error : ParseError} (h : Expr.parse text = .error error) :
    ∃ e, error = .malformed e := by
  obtain ⟨tokens, stop, hscan, htokens, hstop⟩ := Token.exists_scan_eq text
  have hmarks : ∀ token ∈ tokens, Marks (fun _ => True) token := fun token hmem =>
    ⟨htokens token hmem, trivial⟩
  obtain ⟨e, rfl, -⟩ := (Expr.places_parse trivial hscan hmarks hstop).2 error h
  exact ⟨e, rfl⟩

/-- If the evaluation ends, there is no diagnostic exactly if it ends with a value. -/
theorem diagnose_eq_nil_iff
    (hends : ∀ e, Expr.parse text = .ok e → e.eval limit .empty ≠ .outOfFuel) :
    diagnose .running limit text = [] ↔
      ∃ e v tally, Expr.parse text = .ok e ∧ e.eval limit .empty = .value v tally := by
  cases hparse : Expr.parse text with
  | error error =>
      obtain ⟨e, rfl⟩ := exists_malformed hparse
      rw [diagnose_of_malformed hparse]
      exact iff_of_false nofun (by rintro ⟨_, _, _, ⟨⟩, _⟩)
  | ok e =>
      cases heval : e.eval limit .empty with
      | value v tally =>
          have hnil : diagnose .running limit text = [] :=
            diagnose_of_ok hparse (.inr (by simp [heval]))
          exact iff_of_true hnil ⟨e, v, tally, rfl, heval⟩
      | failure error tally =>
          rw [diagnose_of_failure hparse heval]
          refine iff_of_false nofun ?_
          rintro ⟨_, v, tally', ⟨⟩, hvalue⟩
          cases heval.symm.trans hvalue
      | outOfFuel => exact absurd heval (hends e hparse)

/-- The text ends with a newline, and behind that, at its end, it is found to nest too deeply. -/
def NestsTooDeepAtEnd (text : Bytes) : Prop :=
  text.getLast? = some 0x0A ∧
    Expr.parse text = .error (.malformed ⟨.ofEnd text, .tooDeep⟩)

/-- Whatever a diagnostic is about stands in the text, unless that is the end of it. -/
theorem inText_or_nestsTooDeepAtEnd (hlines : text.count 0x0A < 0x100000000) {d : Diagnostic}
    (h : d ∈ diagnose worker limit text) : d.location.InText text ∨ NestsTooDeepAtEnd text := by
  obtain ⟨tokens, hscan⟩ := Token.exists_scan_eq_ofEnd text
  obtain ⟨htrees, herrors⟩ :=
    Expr.places_parse (inText_none text) hscan (marks_inText hlines hscan) rfl
  cases hparse : Expr.parse text with
  | error error =>
      obtain ⟨⟨pos, cause⟩, rfl, hpos⟩ := herrors error hparse
      rw [diagnose_of_malformed hparse, List.mem_singleton] at h
      rw [h]
      rcases hpos with hpos | ⟨rfl, rfl⟩
      · exact .inl hpos
      · by_cases hin : (Location.ofPosition (.ofEnd text)).InText text
        · exact .inl hin
        · rw [inText_ofEnd_iff hlines, not_and_or, not_ne_iff, not_ne_iff] at hin
          rcases hin with rfl | hlast
          · cases hparse
          · exact .inr ⟨hlast, hparse⟩
  | ok e =>
      by_cases hother : worker = .stopped ∨
          ∀ error tally, e.eval limit .empty ≠ .failure error tally
      · rw [diagnose_of_ok hparse hother] at h
        cases h
      · simp only [not_or, not_forall, not_not] at hother
        obtain ⟨hworker, error, tally, heval⟩ := hother
        have hrunning : worker = .running := by
          cases worker with
          | running => rfl
          | stopped => exact absurd rfl hworker
        rw [hrunning, diagnose_of_failure hparse heval, List.mem_singleton] at h
        rw [h]
        exact .inl ((htrees e hparse).of_failure heval)

end Diagnose

/-- A document has at most one diagnostic, and, if evaluating it ends, none exactly if it parses
and has a value.  As long as its lines can be counted in 32 bits, diagnostics point into the
document, unless that ends with a newline and nests too deeply where it ends; and then they do
not. -/
theorem diagnose_inText_iff (worker : Worker) (limit : Int) (text : Bytes) :
    (diagnose worker limit text).length ≤ 1 ∧
      ((∀ e, Expr.parse text = .ok e → e.eval limit .empty ≠ .outOfFuel) →
        (diagnose .running limit text = [] ↔
          ∃ e v tally, Expr.parse text = .ok e ∧ e.eval limit .empty = .value v tally)) ∧
      (text.count 0x0A < 0x100000000 →
        ((∀ d ∈ diagnose worker limit text, d.location.InText text) ↔
          ¬NestsTooDeepAtEnd text)) := by
  refine ⟨length_diagnose_le worker limit text, diagnose_eq_nil_iff, fun hlines => ?_⟩
  constructor
  · rintro hall ⟨hlast, hparse⟩
    rw [diagnose_of_malformed hparse, List.forall_mem_singleton, inText_ofEnd_iff hlines] at hall
    exact hall.2 hlast
  · intro hend d hmem
    exact (inText_or_nestsTooDeepAtEnd hlines hmem).resolve_right hend

end Editor

/-! ## A text that nests too deeply where it ends -/

/-- Parentheses of which the last nests too deeply, with nothing behind them. -/
theorem Parser.operands_parens {tokens : List Token}
    (h : ∀ token ∈ tokens, token.lexeme = .openParen) (hne : tokens ≠ []) {depth fuel : Nat}
    (hdepth : depth + tokens.length = maxNesting + 1) (hfuel : tokens.length ≤ fuel)
    (chain : Expr) (last stop : Token) :
    operands fuel depth chain last (tokens ++ [stop]) = reject stop.pos .tooDeep := by
  induction tokens generalizing depth fuel chain last with
  | nil => exact absurd rfl hne
  | cons token rest ih =>
      obtain ⟨htoken, hrest⟩ := List.forall_mem_cons.mp h
      rw [List.length_cons] at hdepth hfuel
      cases fuel with
      | zero => omega
      | succ fuel =>
          cases rest with
          | nil => exact operands_tooDeep_inside (.inl htoken) (by simp at hdepth; omega)
          | cons next rest =>
              rw [List.length_cons] at hdepth hfuel
              rw [List.cons_append, operands_openParen htoken (by omega),
                ih hrest (List.cons_ne_nil _ _) (by simp; omega) (by simp; omega)]
              rfl

/-- The tokens of parentheses. -/
theorem Scanner.exists_tokensFrom_parens (n : Nat) (place : Place) (rest : List Rune) :
    ∃ tokens, tokens.length = n ∧ (∀ token ∈ tokens, token.lexeme = .openParen) ∧
      ∃ behind, tokensFrom .layout place (List.replicate n (.ascii 0x28) ++ rest) =
        tokens ++ tokensFrom .layout behind rest := by
  induction n generalizing place with
  | zero => exact ⟨[], rfl, List.forall_mem_nil _, place, rfl⟩
  | succ n ih =>
      obtain ⟨tokens, hlength, hparens, behind, hbehind⟩ := ih (place.pass (.ascii 0x28))
      refine ⟨⟨.openParen, [0x28], place.ahead⟩ :: tokens, congrArg (· + 1) hlength,
        List.forall_mem_cons.mpr ⟨rfl, hparens⟩, behind, ?_⟩
      rw [List.replicate_succ, List.cons_append, tokensFrom]
      exact congrArg (List.cons _) hbehind

/-- Parentheses of which the last nests too deeply are found to do so at the end of the text,
behind a newline. -/
theorem Expr.parse_parens {source : Bytes}
    (hlist : Rune.list source =
      List.replicate (maxNesting + 1) (.ascii 0x28) ++ [.ascii 0x0A]) :
    parse source = .error (.malformed ⟨.ofEnd source, .tooDeep⟩) := by
  obtain ⟨parens, hlength, hparens, behind, hbehind⟩ :=
    exists_tokensFrom_parens (maxNesting + 1) .start [.ascii 0x0A]
  obtain ⟨tokens, hscan⟩ := Token.exists_scan_eq_ofEnd source
  have hend : tokensFrom .layout behind [.ascii 0x0A] =
      [Cursor.endToken ⟨behind.pass (.ascii 0x0A), []⟩] := rfl
  have htokens : tokens = parens := by
    rw [scan_eq, hlist, hbehind, hend] at hscan
    exact (List.append_inj_left' hscan rfl).symm
  subst htokens
  have hfault : Token.firstFault? (tokens ++ [⟨.endOfInput, [], .ofEnd source⟩]) = none := by
    rw [Token.firstFault?, List.find?_eq_none, List.forall_mem_append]
    exact ⟨fun token hmem => by simp [hparens token hmem], by simp⟩
  obtain ⟨first, hfirst⟩ := ofTokens_append_end tokens ⟨.endOfInput, [], .ofEnd source⟩
  have hne : tokens ≠ [] := List.ne_nil_of_length_pos (by omega)
  rw [parse, Token.tokenize, hscan, hfault]
  refine hfirst.trans ?_
  rw [Parser.operands_parens hparens hne (by omega) (by simp; omega)]
  rfl

namespace Editor

/-- So many parentheses that the last of them nests too deeply, and a newline. -/
def overNested : Bytes := List.replicate (maxNesting + 1) 0x28 ++ [0x0A]

theorem list_overNested : Rune.list overNested =
    List.replicate (maxNesting + 1) (.ascii 0x28) ++ [.ascii 0x0A] := by
  have hascii : ∀ byte ∈ overNested, byte < 0x80 := by
    intro byte hmem
    rcases List.mem_append.mp hmem with h | h
    · rw [List.eq_of_mem_replicate h]
      decide
    · rw [List.mem_singleton.mp h]
      decide
  rw [Rune.list_ascii hascii, overNested, List.map_append, List.map_replicate]
  rfl

/-- The diagnostic for this document lies on its last line, which is empty, and far outside. -/
theorem diagnose_overNested :
    diagnose .running defaultLimit overNested =
        [⟨⟨1, 0xFFFFFFFF⟩, .error, SyntaxError.Cause.describe .tooDeep⟩] ∧
      ¬∀ d ∈ diagnose .running defaultLimit overNested, d.location.InText overNested := by
  have hlines : overNested.count 0x0A = 1 := by simp [overNested, List.count_replicate]
  have hlast : overNested.getLast? = some 0x0A := by simp [overNested]
  rw [diagnose_of_malformed (Expr.parse_parens list_overNested)]
  constructor
  · rw [ofEnd_of_newline hlast, hlines]
    rfl
  · rw [List.forall_mem_singleton, inText_ofEnd_iff (by omega)]
    exact fun hin => hin.2 hlast

end Editor

end BitLang
