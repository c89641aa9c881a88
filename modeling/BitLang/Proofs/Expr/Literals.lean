/-
# Literals of trees

However a literal is spelled, the scanner gives it canonical bits, and the parser takes
over the bits of its tokens or numbers a value that has no key.  All literals of a tree
that was read from a text are therefore canonical.
-/

import BitLang.Expr.Parser
import BitLang.Proofs.BitSeq.Canonical

namespace BitLang

/-- A computation in two parts succeeds only if both do. -/
theorem exists_of_bind_eq_ok {ε α β : Type} {x : Except ε α} {f : α → Except ε β} {b : β}
    (h : (x >>= f) = .ok b) : ∃ a, x = .ok a ∧ f a = .ok b := by
  cases x with
  | error error => cases h
  | ok a => exact ⟨a, rfl, h⟩

namespace Expr

/-- Induction over a tree and the trees it holds. -/
@[elab_as_elim]
theorem induction {P : Expr → Prop} (absent : P absent)
    (literal : ∀ span bits, P (literal span bits)) (scope : ∀ span, P (scope span))
    (set : ∀ span entries, (∀ entry ∈ entries, P entry.1 ∧ P entry.2) → P (set span entries))
    (function : ∀ span pattern body, P pattern → P body → P (function span pattern body))
    (combine : ∀ span left right, P left → P right → P (combine span left right)) (e : Expr) :
    P e :=
  @Expr.rec P (fun entries => ∀ entry ∈ entries, P entry.1 ∧ P entry.2)
    (fun entry => P entry.1 ∧ P entry.2) absent literal scope set function combine
    (fun _ hmem => nomatch hmem)
    (fun _ _ hfirst hrest => List.forall_mem_cons.mpr ⟨hfirst, hrest⟩)
    (fun _ _ hkey hvalue => ⟨hkey, hvalue⟩) e

/-! ## Properties of all nodes -/

mutual

/-- Every node of the tree has the property. -/
def All (P : Expr → Prop) : Expr → Prop
  | absent => P absent
  | literal span bits => P (literal span bits)
  | scope span => P (scope span)
  | set span entries => P (set span entries) ∧ AllEntries P entries
  | function span pattern body => P (function span pattern body) ∧ pattern.All P ∧ body.All P
  | combine span left right => P (combine span left right) ∧ left.All P ∧ right.All P

/-- Every node of the entries of a set has the property. -/
def AllEntries (P : Expr → Prop) : List (Expr × Expr) → Prop
  | [] => True
  | (key, value) :: rest => key.All P ∧ value.All P ∧ AllEntries P rest

end

theorem allEntries_iff {P : Expr → Prop} {entries : List (Expr × Expr)} :
    AllEntries P entries ↔ ∀ entry ∈ entries, entry.1.All P ∧ entry.2.All P := by
  induction entries with
  | nil => simp [AllEntries]
  | cons entry rest ih =>
      rcases entry with ⟨key, value⟩
      simp only [AllEntries, ih, List.forall_mem_cons, and_assoc]

theorem All.node {P : Expr → Prop} {e : Expr} (h : e.All P) : P e := by
  cases e with
  | absent | literal | scope => exact h
  | set | function | combine => exact h.1

/-- What holds of every node of a chain holds of every node of its operands. -/
theorem All.spine {P : Expr → Prop} {e : Expr} (h : e.All P) {others : List (Span × Expr)}
    (hothers : ∀ operand ∈ others, operand.2.All P) :
    (e.spine others).1.All P ∧ ∀ operand ∈ (e.spine others).2, operand.2.All P := by
  induction e using Expr.induction generalizing others with
  | combine span left right ih _ => exact ih h.2.1 (List.forall_mem_cons.mpr ⟨h.2.2, hothers⟩)
  | _ => exact ⟨h, hothers⟩

/-- A literal is canonical; other nodes have nothing to say. -/
def LiteralCanonical : Expr → Prop
  | literal _ bits => bits.Canonical
  | _ => True

/-- All literals of the tree are canonical. -/
def Canonical (e : Expr) : Prop := e.All LiteralCanonical

end Expr

/-! ## Tokens -/

/-- A token that is a literal has canonical bits. -/
def Token.Canonical (token : Token) : Prop := ∀ bits, token.lexeme = .literal bits → bits.Canonical

theorem Quote.canonical_denote (quote : Quote) (body : Bytes) : (quote.denote body).Canonical := by
  cases quote with
  | text => exact BitSeq.canonical_ofBytes _
  | hex => exact BitSeq.canonical_ofBytes _
  | bits => exact BitSeq.canonical_ofDigits _

namespace Scanner

theorem canonical_literal (start : Position) (raw : List Rune) {bits : BitSeq}
    (h : bits.Canonical) : (literal start raw bits).Canonical := by
  rintro _ ⟨⟩
  exact h

theorem canonical_number (start : Position) (digits : Bytes) :
    (number start digits).Canonical := by
  intro bits hbits
  unfold number at hbits
  split at hbits
  · cases hbits
    exact BitSeq.canonical_encode _
  · cases hbits

theorem canonical_finish (mode : Mode) : ∀ token ∈ mode.finish, token.Canonical := by
  intro token hmem
  cases mode with
  | layout | comment => cases hmem
  | word start escaped raw content =>
      change token ∈ if content.isEmpty then [] else [_] at hmem
      split at hmem
      · cases hmem
      · rw [List.mem_singleton.mp hmem]
        exact canonical_literal _ _ (BitSeq.canonical_ofBytes _)
  | number start raw =>
      rw [List.mem_singleton.mp hmem]
      exact canonical_number _ _
  | quoted start quote escaped raw content =>
      rw [List.mem_singleton.mp hmem]
      exact canonical_literal _ _ (quote.canonical_denote _)

/-- What holds of every mark and of every token that ends holds of every token that a scan
completes. -/
theorem forall_start {P : Token → Prop}
    (hmark : ∀ rune lexeme pos, Lexeme.mark? rune = some lexeme → P ⟨lexeme, rune.bytes, pos⟩)
    (pos : Position) (rune : Rune) : ∀ token ∈ (start pos rune).1, P token := by
  intro token hmem
  unfold start at hmem
  split at hmem
  · cases hmem
  · split at hmem
    · cases hmem
    · split at hmem
      · next lexeme hlexeme =>
          rw [List.mem_singleton.mp hmem]
          exact hmark rune lexeme pos hlexeme
      · split at hmem
        · cases hmem
        · split at hmem
          · cases hmem
          · split at hmem <;> cases hmem

theorem forall_step {P : Token → Prop} (hfinish : ∀ mode : Mode, ∀ token ∈ mode.finish, P token)
    (hmark : ∀ rune lexeme pos, Lexeme.mark? rune = some lexeme → P ⟨lexeme, rune.bytes, pos⟩)
    (pos : Position) (mode : Mode) (rune : Rune) :
    ∀ token ∈ (step pos mode rune).1, P token := by
  -- a token that ends comes before what the rune starts by itself
  have hboth {ended next : Mode} {tokens : List Token} (hstart : start pos rune = (tokens, next)) :
      ∀ token ∈ ended.finish ++ tokens, P token := by
    have htokens := forall_start hmark pos rune
    rw [hstart] at htokens
    exact List.forall_mem_append.mpr ⟨hfinish ended, htokens⟩
  fun_cases step pos mode rune with
  | case1 => exact forall_start hmark pos rune
  | case7 first raw content _ _ tokens next hstart => exact hboth hstart
  | case10 first raw _ tokens next hstart => exact hboth hstart
  | case13 first quote raw content _ _ =>
      exact hfinish (.quoted first quote false (rune :: raw) content)
  | _ => exact fun _ hmem => nomatch hmem

theorem tokens_read (s : Scanner) (rune : Rune) :
    (s.read rune).tokens.toList = s.tokens.toList ++ (step s.place.ahead s.mode rune).1 := by
  show ((step s.place.ahead s.mode rune).1.foldl Array.push s.tokens).toList = _
  rw [List.foldl_push_eq_append, List.map_id', Array.toList_append]

/-- What holds of every mark and of every token that ends holds of every token of a
text. -/
theorem forall_foldl_read {P : Token → Prop}
    (hfinish : ∀ mode : Mode, ∀ token ∈ mode.finish, P token)
    (hmark : ∀ rune lexeme pos, Lexeme.mark? rune = some lexeme → P ⟨lexeme, rune.bytes, pos⟩)
    (runes : List Rune) {s : Scanner} (h : ∀ token ∈ s.tokens.toList, P token) :
    ∀ token ∈ (runes.foldl read s).tokens.toList, P token := by
  induction runes generalizing s with
  | nil => exact h
  | cons rune rest ih =>
      refine ih ?_
      rw [tokens_read]
      exact List.forall_mem_append.mpr ⟨h, forall_step hfinish hmark _ _ _⟩

/-- A punctuation mark is no literal. -/
theorem mark?_ne_literal {rune : Rune} {lexeme : Lexeme} (h : Lexeme.mark? rune = some lexeme)
    (bits : BitSeq) : lexeme ≠ .literal bits := by
  rintro rfl
  unfold Lexeme.mark? at h
  repeat' split at h
  all_goals cases h

end Scanner

/-- Every literal among the tokens of a text is canonical. -/
theorem Token.canonical_scan (source : Bytes) : ∀ token ∈ scan source, token.Canonical := by
  unfold scan
  simp only [List.forall_mem_append, List.forall_mem_singleton]
  refine ⟨⟨?_, Scanner.canonical_finish _⟩, ?_⟩
  · refine Scanner.forall_foldl_read Scanner.canonical_finish ?_ _ (fun _ hmem => nomatch hmem)
    intro rune lexeme pos hmark bits hbits
    exact absurd hbits (Scanner.mark?_ne_literal hmark bits)
  · rintro bits ⟨⟩

/-! ## Trees -/

namespace Expr

theorem canonical_literal {bits : BitSeq} (h : bits.Canonical) (span : Span) :
    (literal span bits).Canonical := h

theorem canonical_scope (span : Span) : (scope span).Canonical := trivial

theorem Canonical.function {pattern body : Expr} (hpattern : pattern.Canonical)
    (hbody : body.Canonical) (span : Span) : (function span pattern body).Canonical :=
  ⟨trivial, hpattern, hbody⟩

theorem Canonical.follow {chain next : Expr} (hchain : chain.Canonical) (hnext : next.Canonical)
    (pos : Position) : (chain.follow next pos).Canonical := by
  cases chain with
  | absent => exact hnext
  | _ => exact ⟨trivial, hchain, hnext⟩

theorem Canonical.splitLast {chain : Expr} (h : chain.Canonical) :
    chain.splitLast.1.Canonical ∧ chain.splitLast.2.Canonical := by
  cases chain with
  | combine span left right => exact h.2
  | _ => exact ⟨trivial, h⟩

theorem Canonical.spine {e : Expr} (h : e.Canonical) {others : List (Span × Expr)}
    (hothers : ∀ operand ∈ others, operand.2.Canonical) :
    (e.spine others).1.Canonical ∧ ∀ operand ∈ (e.spine others).2, operand.2.Canonical :=
  All.spine h hothers

end Expr

namespace Parser

/-- All literals of the tree that was read, and of the tokens that are left, are
canonical. -/
structure Group.Canonical (group : Group) : Prop where
  tree : group.tree.Canonical
  stop : group.stop.Canonical
  rest : ∀ token ∈ group.rest, token.Canonical

/-- All literals of the statements read so far are canonical. -/
structure Statements.Canonical (s : Statements) : Prop where
  key : s.key.Canonical
  entries : Expr.AllEntries Expr.LiteralCanonical s.entries.toList

theorem Statements.Canonical.close {s : Statements} {value : Expr} (h : s.Canonical)
    (hvalue : value.Canonical) : (s.close value).Canonical := by
  have hpush {key : Expr} (hkey : key.Canonical) :
      Expr.AllEntries Expr.LiteralCanonical (s.entries.push (key, value)).toList := by
    rw [Array.toList_push, Expr.allEntries_iff, List.forall_mem_append, List.forall_mem_singleton]
    exact ⟨Expr.allEntries_iff.mp h.entries, hkey, hvalue⟩
  unfold Statements.close
  split
  · exact ⟨trivial, h.entries⟩
  · split
    · exact ⟨trivial, hpush (BitSeq.canonical_encode _)⟩
    · exact ⟨trivial, hpush h.key⟩

/-- What is read with a certain amount of fuel is canonical, if what it is read from
is. -/
structure Reads (fuel : Nat) : Prop where
  operands : ∀ {depth chain last tokens group},
    Parser.operands fuel depth chain last tokens = .ok group → chain.Canonical →
    last.Canonical → (∀ token ∈ tokens, token.Canonical) → group.Canonical
  statements : ∀ {depth opening done last tokens group},
    Parser.statements fuel depth opening done last tokens = .ok group → done.Canonical →
    last.Canonical → (∀ token ∈ tokens, token.Canonical) → group.Canonical

theorem Reads.operands_succ {fuel : Nat} (ih : Reads fuel) {depth : Nat} {chain : Expr}
    {last : Token} {tokens : List Token} {group : Group}
    (h : Parser.operands (fuel + 1) depth chain last tokens = .ok group)
    (hchain : chain.Canonical) (hlast : last.Canonical)
    (htokens : ∀ token ∈ tokens, token.Canonical) : group.Canonical := by
  cases tokens with
  | nil =>
      rw [Parser.operands] at h
      cases h
      exact ⟨hchain, hlast, htokens⟩
  | cons token rest =>
      obtain ⟨htoken, hrest⟩ := List.forall_mem_cons.mp htokens
      rw [Parser.operands] at h
      split at h
      · next bits hlexeme =>
          have hbits := Expr.canonical_literal (htoken bits hlexeme) token.span
          exact ih.operands h (hchain.follow hbits _) htoken hrest
      · exact ih.operands h (hchain.follow (Expr.canonical_scope _) _) htoken hrest
      · cases h; exact ⟨hchain, htoken, hrest⟩
      · cases h; exact ⟨hchain, htoken, hrest⟩
      · cases h; exact ⟨hchain, htoken, hrest⟩
      · cases h; exact ⟨hchain, htoken, hrest⟩
      · cases h; exact ⟨hchain, htoken, hrest⟩
      · obtain ⟨-, -, h⟩ := exists_of_bind_eq_ok h
        obtain ⟨inner, hinner, h⟩ := exists_of_bind_eq_ok h
        have hgroup := ih.operands hinner trivial htoken hrest
        split at h
        · exact ih.operands h (hchain.follow hgroup.tree _) hgroup.stop hgroup.rest
        · cases h
        · cases h
      · obtain ⟨-, -, h⟩ := exists_of_bind_eq_ok h
        obtain ⟨inner, hinner, h⟩ := exists_of_bind_eq_ok h
        have hgroup := ih.statements hinner ⟨trivial, trivial⟩ htoken hrest
        exact ih.operands h (hchain.follow hgroup.tree _) hgroup.stop hgroup.rest
      · obtain ⟨-, -, h⟩ := exists_of_bind_eq_ok h
        obtain ⟨body, hbody, h⟩ := exists_of_bind_eq_ok h
        have hgroup := ih.operands hbody trivial htoken hrest
        have hsplit := hchain.splitLast
        exact ih.operands h (hsplit.1.follow (hsplit.2.function hgroup.tree _) _) htoken
          (List.forall_mem_cons.mpr ⟨hgroup.stop, hgroup.rest⟩)
      · cases h
      · cases h

theorem Reads.statements_succ {fuel : Nat} (ih : Reads fuel) {depth : Nat} {opening : Token}
    {done : Statements} {last : Token} {tokens : List Token} {group : Group}
    (h : Parser.statements (fuel + 1) depth opening done last tokens = .ok group)
    (hdone : done.Canonical) (hlast : last.Canonical)
    (htokens : ∀ token ∈ tokens, token.Canonical) : group.Canonical := by
  rw [Parser.statements] at h
  obtain ⟨value, hvalue, h⟩ := exists_of_bind_eq_ok h
  have hgroup := ih.operands hvalue trivial hlast htokens
  split at h
  · cases h
  · cases h
  · split at h
    · cases h
    · exact ih.statements h ⟨hgroup.tree, hdone.entries⟩ hgroup.stop hgroup.rest
  · exact ih.statements h (hdone.close hgroup.tree) hgroup.stop hgroup.rest
  · cases h
    exact ⟨⟨trivial, (hdone.close hgroup.tree).entries⟩, hgroup.stop, hgroup.rest⟩
  · exact ih.statements h hdone hgroup.stop hgroup.rest

theorem reads (fuel : Nat) : Reads fuel := by
  induction fuel with
  | zero =>
      refine ⟨fun h => ?_, fun h => ?_⟩
      · rw [Parser.operands] at h
        cases h
      · rw [Parser.statements] at h
        cases h
  | succ fuel ih => exact ⟨ih.operands_succ, ih.statements_succ⟩

end Parser

/-- All literals of a tree that was read from a text are canonical. -/
theorem Expr.canonical_of_parse {source : Bytes} {e : Expr} (h : parse source = .ok e) :
    e.Canonical := by
  unfold parse Token.tokenize at h
  have htokens := Token.canonical_scan source
  generalize Token.scan source = tokens at h htokens
  simp only at h
  split at h
  · cases h
  · next hok =>
      split at hok
      · cases hok
      · cases hok
        cases tokens with
        | nil => cases h
        | cons first rest =>
            obtain ⟨group, hgroup, h⟩ := exists_of_bind_eq_ok h
            have hcanonical := (Parser.reads _).operands hgroup trivial
              (List.forall_mem_cons.mp htokens).1 htokens
            split at h
            · cases h
              exact hcanonical.tree
            · cases h

end BitLang
