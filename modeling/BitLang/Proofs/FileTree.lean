/-
# What an absolute path leads to

In a tree of files everything but the root stands in a directory, under a name that the system
takes.  The path spelled by the names of a place then leads to what stands there, whatever the
directory it is seen from (`isOk_look_render`).  Only the length of a path sets a limit: what
stands so deep that its path is too long for the system is not found by it.
-/

import BitLang.FileTree
import BitLang.Proofs.Path

namespace BitLang.FileTree

variable {tree : FileTree} {here place outer : List Bytes} {name : Bytes}

/-! ## Well-formed trees -/

/-- A name that the system takes: it has no zero byte and is not too long. -/
def IsFileName (name : Bytes) : Prop :=
  Path.IsName name ∧ 0 ∉ name ∧ name.length ≤ maxName

instance : DecidablePred IsFileName := fun name =>
  inferInstanceAs (Decidable (Path.IsName name ∧ 0 ∉ name ∧ name.length ≤ maxName))

/-- Everything but the root stands in a directory, under a name that the system takes. -/
def WellFormed (tree : FileTree) : Prop :=
  ∀ entry ∈ tree.nodes, ∀ name ∈ entry.1.head?,
    tree.node? entry.1.tail = some .directory ∧ IsFileName name

instance : DecidablePred WellFormed := fun tree =>
  inferInstanceAs (Decidable (∀ entry ∈ tree.nodes, ∀ name ∈ entry.1.head?,
    tree.node? entry.1.tail = some .directory ∧ IsFileName name))

theorem WellFormed.of_node? (htree : tree.WellFormed) (h : (tree.node? (name :: outer)).isSome) :
    tree.node? outer = some .directory ∧ IsFileName name := by
  obtain ⟨node, hnode⟩ := Option.isSome_iff_exists.mp h
  obtain ⟨before, behind, hnodes, -⟩ := List.lookup_eq_some_iff.mp hnode
  refine htree (name :: outer, node) ?_ name rfl
  rw [hnodes]
  exact List.mem_append_right before List.mem_cons_self

/-- The names that lead to what stands in the tree are names that the system takes. -/
theorem WellFormed.isFileName_of_mem (htree : tree.WellFormed) (h : (tree.node? place).isSome) :
    ∀ name ∈ place, IsFileName name := by
  induction place with
  | nil => exact nofun
  | cons name outer ih =>
      obtain ⟨houter, hname⟩ := htree.of_node? h
      exact List.forall_mem_cons.mpr ⟨hname, ih (by rw [houter]; rfl)⟩

theorem node?_cons {nodes : List (List Bytes × FileNode)} {node : FileNode} (hne : place ≠ [])
    (other : List Bytes) :
    node? ⟨(place, node) :: nodes⟩ other =
      if other = place then some node else node? ⟨nodes⟩ other := by
  cases other with
  | nil =>
      rw [if_neg (Ne.symm hne)]
      rfl
  | cons name outer =>
      rw [node?, node?, List.isEmpty_cons, if_neg Bool.false_ne_true, if_neg Bool.false_ne_true,
        List.lookup_cons]
      by_cases hsame : name :: outer = place
      · rw [if_pos hsame, beq_iff_eq.mpr hsame]
      · rw [if_neg hsame, beq_false_of_ne hsame]

/-- Something new in a directory of a well-formed tree leaves it well-formed. -/
theorem WellFormed.cons {nodes : List (List Bytes × FileNode)} (htree : WellFormed ⟨nodes⟩)
    (houter : node? ⟨nodes⟩ outer = some .directory) (hname : IsFileName name)
    (hnew : node? ⟨nodes⟩ (name :: outer) = none) (node : FileNode) :
    WellFormed ⟨(name :: outer, node) :: nodes⟩ := by
  have hkept {other : List Bytes} (h : node? ⟨nodes⟩ other = some .directory) :
      node? ⟨(name :: outer, node) :: nodes⟩ other = some .directory := by
    rw [node?_cons (List.cons_ne_nil name outer), if_neg, h]
    rintro rfl
    rw [hnew] at h
    cases h
  intro entry hentry inner hinner
  rcases List.mem_cons.mp hentry with rfl | hold
  · obtain rfl := Option.mem_some.mp hinner
    exact ⟨hkept houter, hname⟩
  · obtain ⟨hdirectory, hproper⟩ := htree entry hold inner hinner
    exact ⟨hkept hdirectory, hproper⟩

/-! ## Following a path -/

theorem follow_append (base first second : List Bytes) :
    tree.follow base (first ++ second) =
      tree.follow base first >>= fun place => tree.follow place second := by
  induction first generalizing base with
  | nil => rfl
  | cons segment first ih =>
      rw [List.cons_append, follow, follow]
      split
      · rfl
      · rfl
      · split
        · rfl
        · exact ih _

/-- Wherever segments lead, they lead to the names that they make up. -/
theorem eq_of_follow {base segments : List Bytes} (h : tree.follow base segments = .ok place) :
    place = segments.foldl (Path.enter true) base := by
  induction segments generalizing base with
  | nil =>
      rw [follow] at h
      exact (Except.ok.inj h).symm
  | cons segment segments ih =>
      rw [follow] at h
      split at h
      · cases h
      · cases h
      · split at h
        · cases h
        · exact ih h

/-- The names that lead to what stands in a tree can be followed to it. -/
theorem WellFormed.follow_reverse (htree : tree.WellFormed) (h : (tree.node? place).isSome) :
    tree.follow [] place.reverse = .ok place := by
  induction place with
  | nil => rfl
  | cons name outer ih =>
      obtain ⟨houter, hname, -, hlength⟩ := htree.of_node? h
      have hfollow : tree.follow outer [name] = .ok (name :: outer) := by
        rw [follow, houter]
        dsimp only
        rw [if_neg (Nat.not_lt.mpr hlength), follow, Path.enter_of_isName hname]
      rw [List.reverse_cons, follow_append, ih (by rw [houter]; rfl)]
      exact hfollow

/-! ## Looking at a path -/

theorem pathFault?_eq_none {path : Bytes} :
    pathFault? path = none ↔ 0 ∉ path ∧ path ≠ [] ∧ path.length ≤ maxPath := by
  by_cases hzero : 0 ∈ path
  · simp [pathFault?, hzero]
  · by_cases hempty : path = []
    · simp [pathFault?, hempty]
    · simp [pathFault?, hzero, hempty]

/-- Something is found at a path that can be followed to it. -/
theorem isOk_look {path : Bytes} :
    (tree.look here path).isOk ↔
      ∃ place, tree.locate here path = .ok place ∧ (tree.node? place).isSome := by
  rw [look]
  cases tree.locate here path with
  | error fault => simp [Except.isOk, Except.toBool, bind, Except.bind]
  | ok place =>
      cases hnode : tree.node? place with
      | none => simp [Except.isOk, Except.toBool, bind, Except.bind, hnode]
      | some node => simp [Except.isOk, Except.toBool, bind, Except.bind, hnode]

theorem locate_render {found : List Bytes} (hplace : ∀ name ∈ place, Path.IsName name)
    (hne : place ≠ []) :
    tree.locate here (Path.render true place) = .ok found ↔
      pathFault? (Path.render true place) = none ∧ tree.follow [] place.reverse = .ok found := by
  rw [locate, Path.segments_render hplace, if_neg hne, Path.isAbsolute_render, if_pos rfl]
  cases pathFault? (Path.render true place) with
  | none => exact ⟨fun h => ⟨rfl, h⟩, And.right⟩
  | some fault => exact ⟨nofun, fun h => nomatch h.1⟩

/-- The path spelled by proper names leads to what stands at that place, if it is not too long
for the system. -/
theorem isOk_look_render (htree : tree.WellFormed) (hplace : ∀ name ∈ place, Path.IsName name)
    (hne : place ≠ []) :
    (tree.look here (Path.render true place)).isOk ↔
      (tree.node? place).isSome ∧ (Path.render true place).length ≤ maxPath := by
  rw [isOk_look]
  constructor
  · rintro ⟨found, hlocate, hsome⟩
    obtain ⟨hfault, hfollow⟩ := (locate_render hplace hne).mp hlocate
    have hfound : found = place := by
      rw [eq_of_follow hfollow]
      exact Path.normalNames_reverse hplace
    exact ⟨hfound ▸ hsome, (pathFault?_eq_none.mp hfault).2.2⟩
  · rintro ⟨hsome, hlength⟩
    have hzero : 0 ∉ Path.render true place := by
      intro hmem
      rcases Path.mem_of_mem_render hmem with hslash | ⟨name, hname, hbyte⟩
      · cases hslash
      · exact (htree.isFileName_of_mem hsome name hname).2.1 hbyte
    have hfault := pathFault?_eq_none.mpr ⟨hzero, List.cons_ne_nil _ _, hlength⟩
    exact ⟨place, (locate_render hplace hne).mpr ⟨hfault, htree.follow_reverse hsome⟩, hsome⟩

end BitLang.FileTree
