/-
# Places in a text

A place is where a part of a text stands: the text with the place left open, the lexemes before it
and the lexemes behind it.  Whatever fills a place of a text makes a text again, whose tree is made
of the tree of what fills it.  Places are followed inwards, from a text to its operands, from those
to what their brackets enclose, and so on.

Main statement: every colon in a text stands in a group of its own (`Group.colonInGroup`).  The
group has operands right before the colon and a body right behind it, it begins with the text or
behind a mark that begins groups, and it ends with the text or at a mark that ends groups.
-/

import BitLang.Proofs.Expr.Grammar

namespace BitLang

/-- A group begins behind the lexeme: an opening mark, a mark between statements or between a key
and its value, or a colon. -/
def Lexeme.beginsGroup : Lexeme → Bool
  | openParen | openBrace | semicolon | equals | colon => true
  | _ => false

namespace Grammar

/-! ## Operands in front of a group -/

/-- A group with more operands in front. -/
def Group.behind (operands : List Operand) (group : Group) : Group :=
  operands.foldr .operand group

/-- The chain of operands. -/
def chainOf (operands : List Operand) : Expr :=
  operands.foldl (fun chain operand => join chain operand.tree) .absent

/-- The group of operands and a colon behind them, with the body of the function. -/
def functionBehind (operands : List Operand) (body : Group) : Group :=
  .behind operands (.function body)

variable {operands : List Operand} {body : Group} {limit : Nat}

@[simp]
theorem Group.behind_nil (group : Group) : behind [] group = group := rfl

theorem Group.behind_concat (operands : List Operand) (last : Operand) (group : Group) :
    behind (operands ++ [last]) group = behind operands (.operand last group) := by
  rw [behind, List.foldr_append]
  rfl

theorem Group.lexemes_behind (operands : List Operand) (group : Group) :
    (behind operands group).lexemes = operands.flatMap Operand.lexemes ++ group.lexemes := by
  induction operands with
  | nil => rfl
  | cons first rest ih =>
      rw [List.flatMap_cons, List.append_assoc, ← ih]
      rfl

theorem Group.tree_behind (operands : List Operand) (group : Group) :
    (behind operands group).tree = group.treeOnto (chainOf operands) := by
  rw [tree, chainOf]
  generalize Expr.absent = chain
  induction operands generalizing chain with
  | nil => rfl
  | cons first rest ih => exact ih (join chain first.tree)

theorem lexemes_functionBehind (operands : List Operand) (body : Group) :
    (functionBehind operands body).lexemes =
      operands.flatMap Operand.lexemes ++ .colon :: body.lexemes :=
  Group.lexemes_behind operands (.function body)

theorem tree_functionBehind (operands : List Operand) (body : Group) :
    (functionBehind operands body).tree = functionOnto (chainOf operands) body.tree :=
  Group.tree_behind operands (.function body)

/-- Operands as the reader wants them: their keys denote something, and they do not nest deeper
than the limit. -/
def WithinLimit (limit : Nat) (operands : List Operand) : Prop :=
  ∀ operand ∈ operands, operand.Keyed ∧ operand.nesting ≤ limit

theorem withinLimit_nil : WithinLimit limit [] := by simp [WithinLimit]

theorem WithinLimit.concat (h : WithinLimit limit operands) {last : Operand}
    (hkeyed : last.Keyed) (hnesting : last.nesting ≤ limit) :
    WithinLimit limit (operands ++ [last]) :=
  List.forall_mem_append.mpr ⟨h, List.forall_mem_singleton.mpr ⟨hkeyed, hnesting⟩⟩

theorem WithinLimit.functionBehind (h : WithinLimit limit operands) (hkeyed : body.Keyed)
    (hnesting : body.nesting + 1 ≤ limit) :
    (functionBehind operands body).Keyed ∧ (functionBehind operands body).nesting ≤ limit := by
  induction operands with
  | nil => exact ⟨hkeyed, hnesting⟩
  | cons first rest ih =>
      obtain ⟨⟨hfirst, hdeep⟩, hrest⟩ := List.forall_mem_cons.mp h
      obtain ⟨hgroup, hless⟩ := ih hrest
      exact ⟨⟨hfirst, hgroup⟩, Nat.max_le.mpr ⟨hdeep, hless⟩⟩

/-! ## Places in a text -/

/-- A place for a part of a text: the text with the place filled, and the lexemes before the place
and behind it.  Parts that are alike fill it to texts of the same tree. -/
structure Place {Part : Type} (spell : Part → List Lexeme) (alike : Part → Part → Prop) where
  fill : Part → Group
  front : List Lexeme
  back : List Lexeme
  lexemes_fill : ∀ part, (fill part).lexemes = front ++ spell part ++ back
  tree_fill : ∀ part other, alike part other → (fill part).tree = (fill other).tree

section Into

variable {Part Inner : Type} {spell : Part → List Lexeme} {alike : Part → Part → Prop}
  {spellInner : Inner → List Lexeme} {alikeInner : Inner → Inner → Prop}
  (place : Place spell alike) (wrap : Inner → Part) (left right : List Lexeme)
  (hspell : ∀ part, spell (wrap part) = left ++ spellInner part ++ right)
  (halike : ∀ part other, alikeInner part other → alike (wrap part) (wrap other))

/-- The place for a part of what fills a place. -/
def Place.into : Place spellInner alikeInner where
  fill part := place.fill (wrap part)
  front := place.front ++ left
  back := right ++ place.back
  lexemes_fill part := by simp only [place.lexemes_fill, hspell, List.append_assoc]
  tree_fill part other h := place.tree_fill _ _ (halike part other h)

@[simp]
theorem Place.fill_into (part : Inner) :
    (place.into wrap left right hspell halike).fill part = place.fill (wrap part) := rfl

@[simp]
theorem Place.front_into :
    (place.into wrap left right hspell halike).front = place.front ++ left := rfl

@[simp]
theorem Place.back_into :
    (place.into wrap left right hspell halike).back = right ++ place.back := rfl

end Into

/-- A place for a group, of which only the tree counts. -/
abbrev GroupPlace := Place Group.lexemes fun group other => group.tree = other.tree

/-- A place for an operand, of which only the tree counts. -/
abbrev OperandPlace := Place Operand.lexemes fun operand other => operand.tree = other.tree

/-- A place for the statements of a set, of which only the entries count. -/
abbrev StatementsPlace := Place Statements.lexemes fun statements other =>
  ∀ key keyless, statements.entries key keyless = other.entries key keyless

/-- A place for a statement, of which only its last key and its value count. -/
abbrev StatementPlace := Place Statement.lexemes fun statement other =>
  ∀ key, statement.parts key = other.parts key

/-- The place of a whole text. -/
def GroupPlace.whole : GroupPlace := ⟨id, [], [], by simp, fun _ _ h => h⟩

/-- A group begins at the end of the lexemes, which is also where the whole text begins. -/
def Begins (front : List Lexeme) : Prop := ∀ last ∈ front.getLast?, last.beginsGroup = true

/-- A group ends at the start of the lexemes, which is also where the whole text ends. -/
def Ends (back : List Lexeme) : Prop := ∀ first ∈ back.head?, first.endsGroup = true

theorem begins_append (front inside : List Lexeme) (opening : Lexeme)
    (h : opening.beginsGroup = true) : Begins (front ++ (inside ++ [opening])) := by
  simpa [Begins] using h

theorem ends_cons (closing : Lexeme) (back : List Lexeme) (h : closing.endsGroup = true) :
    Ends (closing :: back) := by
  simpa [Ends] using h

/-! ## The group of a colon -/

/-- A colon between the lexemes of a text belongs to a group.  The operands of the group come right
before the colon, from where the group begins, and the body of its function comes right behind it,
up to where the group ends. -/
structure ColonAt (limit : Nat) (text : Group) (before after : List Lexeme) (place : GroupPlace)
    (operands : List Operand) (body : Group) : Prop where
  text_eq : text = place.fill (functionBehind operands body)
  before_eq : before = place.front ++ operands.flatMap Operand.lexemes
  after_eq : after = body.lexemes ++ place.back
  begins : Begins place.front
  ends : Ends place.back
  keyed : (functionBehind operands body).Keyed
  nesting_le : (functionBehind operands body).nesting ≤ limit

/-- A colon between the lexemes of a text belongs to some group. -/
def ColonInGroup (limit : Nat) (text : Group) (before after : List Lexeme) : Prop :=
  ∃ place operands body, ColonAt limit text before after place operands body

section Splits

variable {before after : List Lexeme}

/-- A colon in two lists is in one of them. -/
theorem colon_mem_append {left right : List Lexeme}
    (h : left ++ right = before ++ .colon :: after) :
    (∃ rest, left = before ++ .colon :: rest ∧ after = rest ++ right) ∨
      ∃ rest, before = left ++ rest ∧ right = rest ++ .colon :: after := by
  rcases List.append_eq_append_iff.mp h with ⟨rest, hbefore, hright⟩ | ⟨rest, hleft, hafter⟩
  · exact .inr ⟨rest, hbefore, hright⟩
  · cases rest with
    | nil => exact .inr ⟨[], by simpa using hleft.symm, hafter.symm⟩
    | cons first rest =>
        obtain ⟨rfl, hbehind⟩ := List.cons.inj hafter
        exact .inl ⟨rest, hleft, hbehind⟩

/-- A colon in two lists with another mark between them is in one of the two. -/
theorem colon_mem_between {left right : List Lexeme} {mark : Lexeme} (hmark : mark ≠ .colon)
    (h : left ++ mark :: right = before ++ .colon :: after) :
    (∃ rest, left = before ++ .colon :: rest ∧ after = rest ++ mark :: right) ∨
      ∃ rest, before = left ++ mark :: rest ∧ right = rest ++ .colon :: after := by
  rcases colon_mem_append h with hleft | ⟨rest, rfl, hright⟩
  · exact .inl hleft
  · cases rest with
    | nil => exact absurd (List.cons.inj hright).1 hmark
    | cons first rest =>
        obtain ⟨rfl, hbehind⟩ := List.cons.inj hright
        exact .inr ⟨rest, rfl, hbehind⟩

/-- A colon in brackets is between them. -/
theorem colon_mem_bracketed {opening closing : Lexeme} {inside : List Lexeme}
    (hopening : opening ≠ .colon) (hclosing : closing ≠ .colon)
    (h : opening :: (inside ++ [closing]) = before ++ .colon :: after) :
    ∃ front back, before = opening :: front ∧ inside = front ++ .colon :: back ∧
      after = back ++ [closing] := by
  have hbetween : [] ++ opening :: (inside ++ [closing]) = before ++ .colon :: after := h
  rcases colon_mem_between hopening hbetween with ⟨rest, hnil, -⟩ | ⟨front, hbefore, hinside⟩
  · simp at hnil
  · rcases colon_mem_between hclosing hinside with ⟨back, hback, hafter⟩ | ⟨rest, -, hnil⟩
    · exact ⟨front, back, hbefore, hback, hafter⟩
    · simp at hnil

end Splits

/-! The places inside of what fills a place: an operand and the body of a function in a group, the
inside of brackets, and the statements of a set with their keys and values. -/

def GroupPlace.operand (place : GroupPlace) (operands : List Operand) (rest : Group) :
    OperandPlace :=
  place.into (fun first => .behind operands (.operand first rest))
    (operands.flatMap Operand.lexemes) rest.lexemes
    (fun _ => by rw [Group.lexemes_behind, Group.lexemes, List.append_assoc])
    (fun _ _ h => by rw [Group.tree_behind, Group.tree_behind, Group.treeOnto, Group.treeOnto, h])

def GroupPlace.functionBody (place : GroupPlace) (operands : List Operand) : GroupPlace :=
  place.into (functionBehind operands) (operands.flatMap Operand.lexemes ++ [.colon]) []
    (fun _ => by rw [lexemes_functionBehind, List.append_nil, List.append_assoc,
      List.singleton_append])
    (fun _ _ h => by rw [tree_functionBehind, tree_functionBehind, h])

def OperandPlace.paren (place : OperandPlace) : GroupPlace :=
  place.into .paren [.openParen] [.closeParen]
    (fun _ => by rw [Operand.lexemes, List.append_assoc, List.singleton_append])
    (fun _ _ h => by rw [Operand.tree, Operand.tree]; exact h)

def OperandPlace.set (place : OperandPlace) : StatementsPlace :=
  place.into .set [.openBrace] [.closeBrace]
    (fun _ => by rw [Operand.lexemes, List.append_assoc, List.singleton_append])
    (fun _ _ h => by rw [Operand.tree, Operand.tree, h])

def StatementsPlace.last (place : StatementsPlace) : StatementPlace :=
  place.into .last [] [] (fun _ => by rw [Statements.lexemes, List.nil_append, List.append_nil])
    (fun _ _ h _ _ => by rw [Statements.entries, Statements.entries, h])

def StatementsPlace.first (place : StatementsPlace) (rest : Statements) : StatementPlace :=
  place.into (.more · rest) [] (.semicolon :: rest.lexemes)
    (fun _ => by rw [Statements.lexemes, List.nil_append])
    (fun _ _ h _ _ => by rw [Statements.entries, Statements.entries, h])

def StatementsPlace.others (place : StatementsPlace) (statement : Statement) : StatementsPlace :=
  place.into (.more statement) (statement.lexemes ++ [.semicolon]) []
    (fun _ => by rw [Statements.lexemes, List.append_nil, List.append_assoc,
      List.singleton_append])
    (fun _ _ h _ _ => by rw [Statements.entries, Statements.entries, h])

def StatementPlace.value (place : StatementPlace) : GroupPlace :=
  place.into .value [] [] (fun _ => by rw [Statement.lexemes, List.nil_append, List.append_nil])
    (fun _ _ h _ => by rw [Statement.parts, Statement.parts]; exact congrArg (Prod.mk _) h)

def StatementPlace.key (place : StatementPlace) (rest : Statement) : GroupPlace :=
  place.into (.keyed · rest) [] (.equals :: rest.lexemes)
    (fun _ => by rw [Statement.lexemes, List.nil_append])
    (fun _ _ h _ => by
      rw [Statement.parts, Statement.parts]
      exact congrArg (fun tree => rest.parts (some tree)) h)

def StatementPlace.behindKey (place : StatementPlace) (key : Group) : StatementPlace :=
  place.into (.keyed key) (key.lexemes ++ [.equals]) []
    (fun _ => by rw [Statement.lexemes, List.append_nil, List.append_assoc,
      List.singleton_append])
    (fun _ _ h _ => by rw [Statement.parts, Statement.parts, h])

-- A group may begin before what is left of it, so the operands that were read of it come along.
mutual

/-- A colon in a group belongs to it or to a group inside of it. -/
theorem Group.colonInGroup : (group : Group) → group.Keyed → group.nesting ≤ limit →
    (place : GroupPlace) → Begins place.front → Ends place.back → (operands : List Operand) →
    WithinLimit limit operands → {before after : List Lexeme} →
    group.lexemes = before ++ .colon :: after →
    ColonInGroup limit (place.fill (.behind operands group))
      (place.front ++ operands.flatMap Operand.lexemes ++ before) (after ++ place.back)
  | .done, _, _, _, _, _, _, _, _, _, h => by simp [Group.lexemes] at h
  | .operand first rest, hkeyed, hnesting, place, hfront, hback, operands, hoperands, _, _, h => by
    obtain ⟨hfirstNesting, hrestNesting⟩ := Nat.max_le.mp hnesting
    rcases colon_mem_append h with ⟨after, hfirst, rfl⟩ | ⟨before, rfl, hrest⟩
    · have hgroup := first.colonInGroup hkeyed.1 hfirstNesting (place.operand operands rest) hfirst
      simpa [GroupPlace.operand] using hgroup
    · have hgroup := rest.colonInGroup hkeyed.2 hrestNesting place hfront hback
        (operands ++ [first]) (hoperands.concat hkeyed.1 hfirstNesting) hrest
      rw [Group.behind_concat] at hgroup
      simpa using hgroup
  | .function body, hkeyed, hnesting, place, hfront, hback, operands, hoperands, before, after,
      h => by
    cases before with
    | nil =>
        obtain ⟨-, rfl⟩ := List.cons.inj h
        obtain ⟨hfunction, hless⟩ : (functionBehind operands body).Keyed ∧
            (functionBehind operands body).nesting ≤ limit :=
          hoperands.functionBehind hkeyed hnesting
        exact ⟨place, operands, body, rfl, List.append_nil _, rfl, hfront, hback, hfunction, hless⟩
    | cons mark before =>
        obtain ⟨rfl, hbody⟩ := List.cons.inj h
        have hgroup := body.colonInGroup hkeyed (Nat.le_of_succ_le hnesting)
          (place.functionBody operands) (begins_append place.front _ .colon rfl) hback []
          withinLimit_nil hbody
        simpa [GroupPlace.functionBody, functionBehind] using hgroup

/-- A colon in an operand belongs to a group inside of it. -/
theorem Operand.colonInGroup : (operand : Operand) → operand.Keyed → operand.nesting ≤ limit →
    (place : OperandPlace) → {before after : List Lexeme} →
    operand.lexemes = before ++ .colon :: after →
    ColonInGroup limit (place.fill operand) (place.front ++ before) (after ++ place.back)
  | .literal bits, _, _, _, before, _, h => by cases before <;> simp [Operand.lexemes] at h
  | .scope, _, _, _, before, _, h => by cases before <;> simp [Operand.lexemes] at h
  | .paren group, hkeyed, hnesting, place, _, _, h => by
    obtain ⟨before, after, rfl, hinside, rfl⟩ := colon_mem_bracketed (by simp) (by simp) h
    have hgroup := group.colonInGroup hkeyed (Nat.le_of_succ_le hnesting) place.paren
      (begins_append place.front [] .openParen rfl) (ends_cons .closeParen place.back rfl) []
      withinLimit_nil hinside
    simpa [OperandPlace.paren] using hgroup
  | .set statements, hkeyed, hnesting, place, _, _, h => by
    obtain ⟨before, after, rfl, hinside, rfl⟩ := colon_mem_bracketed (by simp) (by simp) h
    have hgroup := statements.colonInGroup hkeyed (Nat.le_of_succ_le hnesting) place.set
      (begins_append place.front [] .openBrace rfl) (ends_cons .closeBrace place.back rfl) hinside
    simpa [OperandPlace.set] using hgroup

/-- A colon in a set belongs to a group inside of it. -/
theorem Statements.colonInGroup : (statements : Statements) → statements.Keyed →
    statements.nesting ≤ limit → (place : StatementsPlace) → Begins place.front →
    Ends place.back → {before after : List Lexeme} →
    statements.lexemes = before ++ .colon :: after →
    ColonInGroup limit (place.fill statements) (place.front ++ before) (after ++ place.back)
  | .last statement, hkeyed, hnesting, place, hfront, hback, _, _, h => by
    have hgroup := statement.colonInGroup hkeyed hnesting place.last
      (by simpa [StatementsPlace.last] using hfront) hback h
    simpa [StatementsPlace.last] using hgroup
  | .more statement rest, hkeyed, hnesting, place, hfront, hback, _, _, h => by
    obtain ⟨hfirst, hothers⟩ := Nat.max_le.mp hnesting
    rcases colon_mem_between (by simp) h with ⟨after, hstatement, rfl⟩ | ⟨before, rfl, hrest⟩
    · have hgroup := statement.colonInGroup hkeyed.1 hfirst (place.first rest)
        (by simpa [StatementsPlace.first] using hfront) (ends_cons .semicolon _ rfl) hstatement
      simpa [StatementsPlace.first] using hgroup
    · have hgroup := rest.colonInGroup hkeyed.2 hothers (place.others statement)
        (begins_append place.front _ .semicolon rfl) hback hrest
      simpa [StatementsPlace.others] using hgroup

/-- A colon in a statement belongs to a group inside of it. -/
theorem Statement.colonInGroup : (statement : Statement) → statement.Keyed →
    statement.nesting ≤ limit → (place : StatementPlace) → Begins place.front →
    Ends place.back → {before after : List Lexeme} →
    statement.lexemes = before ++ .colon :: after →
    ColonInGroup limit (place.fill statement) (place.front ++ before) (after ++ place.back)
  | .value group, hkeyed, hnesting, place, hfront, hback, _, _, h => by
    have hgroup := group.colonInGroup hkeyed hnesting place.value
      (by simpa [StatementPlace.value] using hfront) hback [] withinLimit_nil h
    simpa [StatementPlace.value] using hgroup
  | .keyed key rest, hkeyed, hnesting, place, hfront, hback, _, _, h => by
    obtain ⟨hkeyNesting, hrestNesting⟩ := Nat.max_le.mp hnesting
    rcases colon_mem_between (by simp) h with ⟨after, hkey, rfl⟩ | ⟨before, rfl, hrest⟩
    · have hgroup := key.colonInGroup hkeyed.2.1 hkeyNesting (place.key rest)
        (by simpa [StatementPlace.key] using hfront) (ends_cons .equals _ rfl) [] withinLimit_nil
        hkey
      simpa [StatementPlace.key] using hgroup
    · have hgroup := rest.colonInGroup hkeyed.2.2 hrestNesting (place.behindKey key)
        (begins_append place.front _ .equals rfl) hback hrest
      simpa [StatementPlace.behindKey] using hgroup

end

end Grammar

end BitLang
