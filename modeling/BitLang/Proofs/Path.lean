/-
# Normal forms of absolute paths

The normal form of an absolute path is spelled by its names, and each of them is a proper one:
not empty, not a dot or a double dot, and without a slash.  Proper names are read back from the
path that they spell (`names_render`).  Such paths (`IsNormal`) are therefore as good as lists of
names: joining a proper name to one puts it in front of the list, and the parent of a path takes
the innermost name away, down to the root, which is its own parent.
-/

import Mathlib.Algebra.GroupWithZero.Nat
import Mathlib.Data.List.Induction
import Mathlib.Logic.Function.Iterate
import BitLang.Path

namespace BitLang

/-! ## Pieces -/

theorem pieces_eq_splitOn (separator : UInt8) (bytes : Bytes) :
    pieces separator bytes = bytes.splitOn separator := by
  induction bytes with
  | nil => rfl
  | cons byte bytes ih =>
      rw [pieces, List.foldr_cons, ← pieces, ih, List.splitOn_cons_eq_if_modifyHead]
      cases hpieces : bytes.splitOn separator with
      | nil => exact absurd hpieces (List.splitOn_ne_nil separator bytes)
      | cons piece rest => simp [prependByte]

theorem not_mem_of_mem_pieces {separator : UInt8} {bytes piece : Bytes}
    (h : piece ∈ pieces separator bytes) : separator ∉ piece := by
  induction bytes generalizing piece with
  | nil =>
      rw [List.mem_singleton.mp h]
      exact List.not_mem_nil
  | cons byte bytes ih =>
      rw [pieces, List.foldr_cons, ← pieces, prependByte.eq_def] at h
      by_cases hbyte : byte = separator
      · rw [if_pos hbyte] at h
        rcases List.mem_cons.mp h with rfl | hpiece
        · exact List.not_mem_nil
        · exact ih hpiece
      · rw [if_neg hbyte] at h
        cases hpieces : pieces separator bytes with
        | nil =>
            rw [pieces_eq_splitOn] at hpieces
            exact absurd hpieces (List.splitOn_ne_nil separator bytes)
        | cons first rest =>
            rw [hpieces] at h ih
            rcases List.mem_cons.mp h with rfl | hpiece
            · rw [List.mem_cons, not_or]
              exact ⟨Ne.symm hbyte, ih List.mem_cons_self⟩
            · exact ih (List.mem_cons_of_mem _ hpiece)

namespace Path

/-! ## Proper names -/

/-- What a directory may call something that stands in it. -/
def IsName (name : Bytes) : Prop := name ≠ [] ∧ name ≠ dot ∧ name ≠ dotDot ∧ slash ∉ name

instance : DecidablePred IsName := fun name =>
  inferInstanceAs (Decidable (name ≠ [] ∧ name ≠ dot ∧ name ≠ dotDot ∧ slash ∉ name))

variable {names : List Bytes} {name path segment : Bytes} {atRoot : Bool}

theorem enter_of_isName (h : IsName name) (names : List Bytes) :
    enter atRoot names name = name :: names := by
  obtain ⟨hempty, hdot, hdotDot, -⟩ := h
  rw [enter.eq_def, if_neg (not_or.mpr ⟨hempty, hdot⟩), if_neg hdotDot]

/-- Whatever segment is taken in below the root, the names stay proper. -/
theorem isName_of_mem_enter (hnames : ∀ name ∈ names, IsName name) (hsegment : slash ∉ segment)
    (h : name ∈ enter true names segment) : IsName name := by
  rw [enter.eq_def] at h
  by_cases hstay : segment = [] ∨ segment = dot
  · rw [if_pos hstay] at h
    exact hnames name h
  · rw [if_neg hstay] at h
    by_cases hleave : segment = dotDot
    · rw [if_pos hleave] at h
      cases names with
      | nil => cases h
      | cons inner outer =>
          dsimp only at h
          rw [if_neg (hnames inner List.mem_cons_self).2.2.1] at h
          exact hnames name (List.mem_cons_of_mem inner h)
    · rw [if_neg hleave] at h
      obtain ⟨hempty, hdot⟩ := not_or.mp hstay
      rcases List.mem_cons.mp h with rfl | hmem
      · exact ⟨hempty, hdot, hleave, hsegment⟩
      · exact hnames name hmem

/-- The names of an absolute path are proper. -/
theorem isName_of_mem_names (h : isAbsolute path) : ∀ name ∈ Path.names path, IsName name := by
  rw [Path.names, h]
  have hsegments : ∀ segment ∈ segments path, slash ∉ segment := fun _ => not_mem_of_mem_pieces
  generalize segments path = list at hsegments
  rw [normalNames]
  induction list using List.reverseRecOn with
  | nil => exact nofun
  | append_singleton list segment ih =>
      rw [List.foldl_append]
      obtain ⟨hlist, hsegment⟩ := List.forall_mem_append.mp hsegments
      intro name
      exact isName_of_mem_enter (ih hlist) (hsegment segment List.mem_cons_self)

/-! ## Paths from names -/

theorem normalNames_reverse (h : ∀ name ∈ names, IsName name) :
    normalNames atRoot names.reverse = names := by
  induction names with
  | nil => rfl
  | cons name outer ih =>
      obtain ⟨hname, houter⟩ := List.forall_mem_cons.mp h
      rw [normalNames, List.reverse_cons, List.foldl_append, ← normalNames, ih houter]
      exact enter_of_isName hname outer

theorem normalNames_nil_cons (list : List Bytes) :
    normalNames atRoot ([] :: list) = normalNames atRoot list := by
  rw [normalNames, List.foldl_cons, enter.eq_def, if_pos (Or.inl rfl), ← normalNames]

/-- A segment behind a path is taken in after it. -/
theorem segments_append_slash (path : Bytes) (h : slash ∉ segment) :
    segments (path ++ slash :: segment) = segments path ++ [segment] := by
  rw [segments, segments, pieces_eq_splitOn, pieces_eq_splitOn, List.splitOn_append_cons_self,
    List.splitOn_eq_singleton h]

/-- The path of the root ends with a slash, any other one with its innermost name. -/
theorem segments_render (h : ∀ name ∈ names, IsName name) :
    segments (render true names) = [] :: if names = [] then [[]] else names.reverse := by
  have hslash : segments (render true names) =
      [] :: ([slash].intercalate names.reverse).splitOn slash := by
    rw [segments, pieces_eq_splitOn]
    exact List.splitOn_append_cons_self [] _
  rw [hslash]
  by_cases hempty : names = []
  · rw [if_pos hempty, hempty]
    rfl
  · rw [if_neg hempty, List.splitOn_intercalate]
    · exact fun name hname => (h name (List.mem_reverse.mp hname)).2.2.2
    · exact List.reverse_ne_nil_iff.mpr hempty

@[simp]
theorem isAbsolute_render (names : List Bytes) : isAbsolute (render true names) = true := rfl

@[simp]
theorem names_render (h : ∀ name ∈ names, IsName name) :
    Path.names (render true names) = names := by
  rw [Path.names, isAbsolute_render, segments_render h, normalNames_nil_cons]
  by_cases hempty : names = []
  · rw [if_pos hempty, hempty]
    rfl
  · rw [if_neg hempty, normalNames_reverse h]

theorem mem_of_mem_intercalate {separator byte : UInt8} {list : List Bytes}
    (h : byte ∈ [separator].intercalate list) :
    byte = separator ∨ ∃ piece ∈ list, byte ∈ piece := by
  induction list with
  | nil => cases h
  | cons piece list ih =>
      cases list with
      | nil =>
          rw [List.intercalate_singleton] at h
          exact .inr ⟨piece, List.mem_cons_self, h⟩
      | cons next list =>
          rw [List.intercalate_cons_cons, List.mem_append, List.mem_append] at h
          rcases h with (hpiece | hseparator) | hrest
          · exact .inr ⟨piece, List.mem_cons_self, hpiece⟩
          · exact .inl (List.mem_singleton.mp hseparator)
          · rcases ih hrest with hseparator | ⟨inner, hinner, hbyte⟩
            · exact .inl hseparator
            · exact .inr ⟨inner, List.mem_cons_of_mem piece hinner, hbyte⟩

/-- An absolute path has no bytes but slashes and those of its names. -/
theorem mem_of_mem_render {byte : UInt8} (h : byte ∈ render true names) :
    byte = slash ∨ ∃ name ∈ names, byte ∈ name := by
  rcases List.mem_cons.mp h with hslash | hjoined
  · exact .inl hslash
  · rcases mem_of_mem_intercalate hjoined with hslash | ⟨name, hname, hbyte⟩
    · exact .inl hslash
    · exact .inr ⟨name, List.mem_reverse.mp hname, hbyte⟩

theorem length_intercalate {separator : UInt8} {list : List Bytes} (hne : list ≠ []) :
    ([separator].intercalate list).length + 1 = (list.map fun piece => piece.length + 1).sum := by
  induction list with
  | nil => exact absurd rfl hne
  | cons piece list ih =>
      cases list with
      | nil => simp
      | cons next list =>
          have hrest := ih (List.cons_ne_nil next list)
          rw [List.intercalate_cons_cons, List.map_cons, List.sum_cons, ← hrest,
            List.length_append, List.length_append, List.length_singleton]
          omega

/-- Every name adds its length and a slash to a path. -/
theorem length_render (hne : names ≠ []) :
    (render true names).length = (names.map fun name => name.length + 1).sum := by
  have hjoined : ([slash].intercalate names.reverse).length + 1 = _ :=
    length_intercalate (List.reverse_ne_nil_iff.mpr hne)
  rw [List.map_reverse, List.sum_reverse] at hjoined
  exact hjoined

theorem clean_of_isAbsolute (h : isAbsolute path) :
    clean path = render true (Path.names path) := by
  rw [clean, h]

theorem isAbsolute_append (h : isAbsolute path) (more : Bytes) : isAbsolute (path ++ more) := by
  cases path with
  | nil => cases h
  | cons byte path => exact h

theorem ne_nil_of_isAbsolute (h : isAbsolute path) : path ≠ [] := by
  rintro rfl
  cases h

theorem isAbsolute_join (h : isAbsolute path) (more : Bytes) : isAbsolute (join path more) := by
  rw [join, if_neg (ne_nil_of_isAbsolute h)]
  split
  · rw [clean_of_isAbsolute h, isAbsolute_render]
  · rw [clean_of_isAbsolute (isAbsolute_append h _), isAbsolute_render]

/-- Joining a name to a directory leads into it. -/
theorem join_render (h : ∀ name ∈ names, IsName name) (hname : IsName name) :
    join (render true names) name = render true (name :: names) := by
  have habs := isAbsolute_render names
  have hnames : Path.names (render true names ++ slash :: name) = name :: names := by
    have hread := names_render h
    rw [Path.names, habs, normalNames] at hread
    rw [Path.names, isAbsolute_append habs, segments_append_slash _ hname.2.2.2, normalNames,
      List.foldl_append, hread]
    exact enter_of_isName hname names
  rw [join, if_neg (ne_nil_of_isAbsolute habs), if_neg hname.1,
    clean_of_isAbsolute (isAbsolute_append habs _), hnames]

/-- The parent of a path is the path without its innermost name. -/
theorem parent_render_cons (h : ∀ inner ∈ name :: names, IsName inner) :
    parent (render true (name :: names)) = render true names := by
  have houter := (List.forall_mem_cons.mp h).2
  rw [parent, isAbsolute_render, segments_render h, if_neg (List.cons_ne_nil name names),
    List.reverse_cons, ← List.cons_append, List.dropLast_concat, normalNames_nil_cons,
    normalNames_reverse houter]

/-- The root is its own parent. -/
theorem parent_render_nil : parent (render true []) = render true [] := rfl

theorem render_ne_render_cons (h : ∀ inner ∈ name :: names, IsName inner) :
    render true names ≠ render true (name :: names) := by
  intro heq
  have hnames := congrArg Path.names heq
  rw [names_render h, names_render (List.forall_mem_cons.mp h).2] at hnames
  exact List.cons_ne_self name names hnames.symm

/-! ## Absolute paths in normal form -/

/-- The path is absolute and spelled by proper names. -/
def IsNormal (path : Bytes) : Prop :=
  ∃ names, (∀ name ∈ names, IsName name) ∧ path = render true names

theorem isNormal_clean (h : isAbsolute path) : IsNormal (clean path) :=
  ⟨_, isName_of_mem_names h, clean_of_isAbsolute h⟩

/-- A path seen from an absolute one is in normal form. -/
theorem isNormal_absolute {here : Bytes} (hhere : isAbsolute here) (path : Bytes) :
    IsNormal (absolute here path) := by
  rw [absolute]
  split
  · exact isNormal_clean ‹_›
  · rw [join, if_neg (ne_nil_of_isAbsolute hhere)]
    split
    · exact isNormal_clean hhere
    · exact isNormal_clean (isAbsolute_append hhere _)

namespace IsNormal

theorem isAbsolute (h : IsNormal path) : isAbsolute path := by
  obtain ⟨names, -, rfl⟩ := h
  exact isAbsolute_render names

theorem clean_eq (h : IsNormal path) : clean path = path := by
  obtain ⟨names, hnames, rfl⟩ := h
  rw [clean_of_isAbsolute (isAbsolute_render names), names_render hnames]

theorem absolute_eq (h : IsNormal path) (here : Bytes) : absolute here path = path := by
  rw [absolute, if_pos h.isAbsolute, h.clean_eq]

theorem parent (h : IsNormal path) : IsNormal (parent path) := by
  obtain ⟨names, hnames, rfl⟩ := h
  cases names with
  | nil => exact ⟨[], nofun, parent_render_nil⟩
  | cons name outer =>
      exact ⟨outer, (List.forall_mem_cons.mp hnames).2, parent_render_cons hnames⟩

theorem iterate_parent (h : IsNormal path) (n : Nat) : IsNormal (Path.parent^[n] path) := by
  induction n generalizing path with
  | zero => exact h
  | succ n ih => exact ih h.parent

/-- What a directory holds has that directory for its parent. -/
theorem parent_join (h : IsNormal path) (hname : IsName name) :
    Path.parent (join path name) = path := by
  obtain ⟨names, hnames, rfl⟩ := h
  rw [join_render hnames hname, parent_render_cons (List.forall_mem_cons.mpr ⟨hname, hnames⟩)]

end IsNormal

end Path

end BitLang
