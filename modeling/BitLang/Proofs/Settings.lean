/-
# The nearest settings file

The search for settings goes from a directory to the one around it until it finds something under
the name of the settings file, or until a directory is its own parent.  It is given here as a
relation on paths (`Climbs`), with no list of directories to run through.  From an absolute path
the relation has exactly one outcome, which is what is found (`climbs_find_iff`): leaving a
directory takes the innermost name off a path in normal form, so the root is reached.

What is found comes from the nearest directory with a settings file, be it broken or not, as long
as the path of the file is not too long for the system (`InReach`).  A file with a longer path is
taken for absent and passed over, even if it is the nearest one (`find_misses_nearest`).

Settings that are found have no fault and carry the directory that they were found in, and since
that one is absolute, so are the paths that start from it.
-/

import BitLang.Proofs.FileTree
import BitLang.Settings

namespace BitLang.Settings

/-! ## Settings from one file -/

section Load

theorem map_some_ne_none {ε α : Type} (x : Except ε α) : x.map some ≠ .ok none := by
  cases x <;> exact nofun

theorem eq_ok_of_map_some {ε α : Type} {x : Except ε α} {a : α} (h : x.map some = .ok (some a)) :
    x = .ok a := by
  cases x <;> cases h
  rfl

variable {files : FileReader Id} {s : Settings} {here directory path text : Bytes}

theorem of_read_eq_ok (h : read directory path text = .ok s) :
    s.fault? = none ∧ s.directory = directory := by
  rw [read] at h
  split at h
  · cases h
  · split at h
    · cases h
    · dsimp only at h
      split at h
      · cases h
      · split at h
        · cases h
        · cases h
          exact ⟨‹_›, rfl⟩

theorem load_of_read_eq_error {error : FileError} (h : (files.read path).run = .error error) :
    (load files here path).run = .error (.unreadable path error) := by
  rw [load, Id.run_bind, h]
  rfl

theorem load_of_read_eq_ok (h : (files.read path).run = .ok text) :
    (load files here path).run = read (Path.absolute here (Path.parent path)) path text := by
  rw [load, Id.run_bind, h]
  rfl

/-- Settings that are loaded have no fault and carry the directory of their file. -/
theorem of_load_eq_ok (h : (load files here path).run = .ok s) :
    s.fault? = none ∧ s.directory = Path.absolute here (Path.parent path) := by
  cases hread : (files.read path).run with
  | error error =>
      rw [load_of_read_eq_error hread] at h
      cases h
  | ok text =>
      rw [load_of_read_eq_ok hread] at h
      exact of_read_eq_ok h

/-- A path of the settings is empty or absolute if their directory is absolute. -/
theorem resolve_eq_nil_or_isAbsolute (h : Path.isAbsolute s.directory) (path : Bytes) :
    s.resolve path = [] ∨ Path.isAbsolute (s.resolve path) := by
  rw [resolve]
  split
  · rename_i hkeep
    rcases hkeep with hempty | habsolute | hnone
    · exact .inl hempty
    · exact .inr habsolute
    · exact absurd hnone (Path.ne_nil_of_isAbsolute h)
  · exact .inr (Path.isAbsolute_join h path)

end Load

/-! ## Climbing to the root -/

/-- There is something at the path of the settings file of a directory. -/
def IsPresent (files : FileReader Id) (directory : Bytes) : Prop :=
  (files.isPresent (Path.join directory fileName)).run = true

/-- The search from a directory on comes to an outcome: that of the settings file if there is
one, nothing in a directory that is its own parent, and otherwise that of the search from the
parent on. -/
inductive Climbs (files : FileReader Id) (here : Bytes) :
    Bytes → Except SettingsError (Option Settings) → Prop
  | found {directory : Bytes} : IsPresent files directory →
      Climbs files here directory
        ((load files here (Path.join directory fileName)).run.map some)
  | top {directory : Bytes} : ¬IsPresent files directory → Path.parent directory = directory →
      Climbs files here directory (.ok none)
  | up {directory : Bytes} {outcome : Except SettingsError (Option Settings)} :
      ¬IsPresent files directory → Path.parent directory ≠ directory →
      Climbs files here (Path.parent directory) outcome → Climbs files here directory outcome

/-- Of a directory and all those around it, this is the innermost one with a property. -/
def IsNearest (property : Bytes → Prop) (start directory : Bytes) : Prop :=
  ∃ n, directory = Path.parent^[n] start ∧ property directory ∧
    ∀ k < n, ¬property (Path.parent^[k] start)

section Climb

variable {files : FileReader Id} {here directory : Bytes} {names : List Bytes}
  {outcome : Except SettingsError (Option Settings)}

theorem IsNearest.eq {property : Bytes → Prop} {start first second : Bytes}
    (hfirst : IsNearest property start first) (hsecond : IsNearest property start second) :
    first = second := by
  obtain ⟨n, rfl, hn, hbefore⟩ := hfirst
  obtain ⟨m, rfl, hm, hless⟩ := hsecond
  rcases Nat.lt_trichotomy n m with hlt | rfl | hlt
  · exact absurd hn (hless n hlt)
  · rfl
  · exact absurd hm (hbefore m hlt)

theorem IsNearest.of_parent {property : Bytes → Prop} {start : Bytes} (hstart : ¬property start)
    (h : IsNearest property (Path.parent start) directory) :
    IsNearest property start directory := by
  obtain ⟨n, hdirectory, hproperty, hbefore⟩ := h
  refine ⟨n + 1, hdirectory, hproperty, fun k hk => ?_⟩
  cases k with
  | zero => exact hstart
  | succ k => exact hbefore k (Nat.lt_of_succ_lt_succ hk)

theorem IsNearest.congr {first second : Bytes → Prop} {start : Bytes}
    (hsame : ∀ n, first (Path.parent^[n] start) ↔ second (Path.parent^[n] start)) :
    IsNearest first start directory ↔ IsNearest second start directory := by
  refine exists_congr fun n => and_congr_right fun hdirectory => ?_
  rw [hdirectory, hsame n]
  exact and_congr_right' (forall₂_congr fun k _ => not_congr (hsame k))

/-- A search ends with the nearest settings file, or with nothing where there is none. -/
theorem Climbs.cases_nearest (h : Climbs files here directory outcome) :
    (∃ nearest, IsNearest (IsPresent files) directory nearest ∧
      outcome = (load files here (Path.join nearest fileName)).run.map some) ∨
    (outcome = .ok none ∧ ∀ n, ¬IsPresent files (Path.parent^[n] directory)) := by
  induction h with
  | @found directory hpresent => exact .inl ⟨directory, ⟨0, rfl, hpresent, nofun⟩, rfl⟩
  | top habsent htop =>
      refine .inr ⟨rfl, fun n => ?_⟩
      rw [Function.iterate_fixed htop]
      exact habsent
  | up habsent _ _ ih =>
      rcases ih with ⟨nearest, hnearest, houtcome⟩ | ⟨houtcome, hnone⟩
      · exact .inl ⟨nearest, hnearest.of_parent habsent, houtcome⟩
      · refine .inr ⟨houtcome, fun n => ?_⟩
        cases n with
        | zero => exact habsent
        | succ n => exact hnone n

theorem climbs_of_present (h : IsPresent files directory) :
    Climbs files here directory outcome ↔
      outcome = (load files here (Path.join directory fileName)).run.map some := by
  constructor
  · rintro (_ | ⟨habsent, -⟩ | ⟨habsent, -⟩)
    · rfl
    · exact absurd h habsent
    · exact absurd h habsent
  · rintro rfl
    exact .found h

theorem climbs_of_top (h : ¬IsPresent files directory) (htop : Path.parent directory = directory) :
    Climbs files here directory outcome ↔ outcome = .ok none := by
  constructor
  · rintro (hpresent | _ | ⟨-, hmore, -⟩)
    · exact absurd hpresent h
    · rfl
    · exact absurd htop hmore
  · rintro rfl
    exact .top h htop

theorem climbs_of_parent (h : ¬IsPresent files directory)
    (hmore : Path.parent directory ≠ directory) :
    Climbs files here directory outcome ↔ Climbs files here (Path.parent directory) outcome := by
  constructor
  · rintro (hpresent | ⟨-, htop⟩ | ⟨-, -, hclimbs⟩)
    · exact absurd hpresent h
    · exact absurd htop hmore
    · exact hclimbs
  · exact .up h hmore

theorem run_loadFirst_cons (files : FileReader Id) (here directory : Bytes)
    (outer : List Bytes) :
    (loadFirst files here (directory :: outer)).run =
      if (files.isPresent (Path.join directory fileName)).run then
        (load files here (Path.join directory fileName)).run.map some
      else (loadFirst files here outer).run := by
  rw [loadFirst, Id.run_bind]
  cases (files.isPresent (Path.join directory fileName)).run <;> rfl

/-- From the path spelled by proper names on, the search has one outcome. -/
theorem climbs_iff (h : ∀ name ∈ names, Path.IsName name) :
    Climbs files here (Path.render true names) outcome ↔
      outcome = (loadFirst files here (Path.enclosing names)).run := by
  induction names with
  | nil =>
      rw [Path.enclosing, run_loadFirst_cons]
      split
      · exact climbs_of_present ‹_›
      · exact climbs_of_top ‹_› Path.parent_render_nil
  | cons name outer ih =>
      have hparent := Path.parent_render_cons h
      rw [Path.enclosing, run_loadFirst_cons]
      split
      · exact climbs_of_present ‹_›
      · rw [climbs_of_parent ‹_›, hparent, ih (List.forall_mem_cons.mp h).2]
        rw [hparent]
        exact Path.render_ne_render_cons h

/-- What is found from an absolute directory on is the one outcome of the search. -/
theorem climbs_find_iff (hhere : Path.isAbsolute here) (start : Bytes) :
    Climbs files here (Path.absolute here start) outcome ↔
      outcome = (find files here start).run := by
  obtain ⟨names, hnames, hstart⟩ := Path.isNormal_absolute hhere start
  rw [find, Path.ancestors, hstart, Path.names_render hnames]
  exact climbs_iff hnames

end Climb

/-! ## The nearest file of a tree -/

/-- Something stands under the name of the settings file in a directory of a tree. -/
def HasFile (tree : FileTree) (directory : Bytes) : Prop :=
  (tree.node? (fileName :: Path.names directory)).isSome

instance (tree : FileTree) : DecidablePred (HasFile tree) := fun directory =>
  inferInstanceAs (Decidable (tree.node? (fileName :: Path.names directory)).isSome)

/-- The path of the settings file of a directory is not too long for the system. -/
def InReach (directory : Bytes) : Prop :=
  (Path.join directory fileName).length ≤ FileTree.maxPath

instance : DecidablePred InReach := fun directory =>
  inferInstanceAs (Decidable ((Path.join directory fileName).length ≤ FileTree.maxPath))

theorem isFileName_fileName : FileTree.IsFileName fileName := by decide +kernel

theorem isName_fileName : Path.IsName fileName := isFileName_fileName.1

section Tree

variable {tree : FileTree} {cwd : List Bytes}

/-- The path of a directory around another one is shorter. -/
theorem InReach.parent {directory : Bytes} (h : InReach directory)
    (hnormal : Path.IsNormal directory) : InReach (Path.parent directory) := by
  obtain ⟨names, hnames, rfl⟩ := hnormal
  cases names with
  | nil => exact h
  | cons name outer =>
      have houter := (List.forall_mem_cons.mp hnames).2
      rw [InReach, Path.join_render hnames isName_fileName,
        Path.length_render (List.cons_ne_nil _ _)] at h
      rw [InReach, Path.parent_render_cons hnames, Path.join_render houter isName_fileName,
        Path.length_render (List.cons_ne_nil _ _)]
      simp only [List.map_cons, List.sum_cons] at h ⊢
      omega

theorem InReach.iterate_parent {directory : Bytes} (h : InReach directory)
    (hnormal : Path.IsNormal directory) (n : Nat) : InReach (Path.parent^[n] directory) := by
  induction n generalizing directory with
  | zero => exact h
  | succ n ih => exact ih (h.parent hnormal) hnormal.parent

/-- The search finds what stands in a directory, unless its path is too long. -/
theorem isPresent_iff (htree : tree.WellFormed) {directory : Bytes}
    (h : Path.IsNormal directory) :
    IsPresent (tree.reader cwd) directory ↔ HasFile tree directory ∧ InReach directory := by
  obtain ⟨names, hnames, rfl⟩ := h
  rw [HasFile, InReach, Path.names_render hnames, Path.join_render hnames isName_fileName]
  have hpath : IsPresent (tree.reader cwd) (Path.render true names) ↔
      (tree.look cwd (Path.render true (fileName :: names))).isOk := by
    rw [IsPresent, Path.join_render hnames isName_fileName]
    rfl
  rw [hpath]
  exact FileTree.isOk_look_render htree (List.forall_mem_cons.mpr ⟨isName_fileName, hnames⟩)
    (List.cons_ne_nil _ _)

/-- What is found is what the nearest settings file in reach comes to, or nothing where there is
none. -/
theorem find_cases (htree : tree.WellFormed) (cwd : List Bytes) (start : Bytes) :
    let here := Path.render true cwd
    let top := Path.absolute here start
    let result := (find (tree.reader cwd) here start).run
    (∃ nearest, Path.IsNormal nearest ∧
      IsNearest (fun directory => HasFile tree directory ∧ InReach directory) top nearest ∧
      result = (load (tree.reader cwd) here (Path.join nearest fileName)).run.map some) ∨
    (result = .ok none ∧
      ∀ n, ¬(HasFile tree (Path.parent^[n] top) ∧ InReach (Path.parent^[n] top))) := by
  intro here top result
  have hhere : Path.isAbsolute here := Path.isAbsolute_render cwd
  have hnormal (n : Nat) : Path.IsNormal (Path.parent^[n] top) :=
    (Path.isNormal_absolute hhere start).iterate_parent n
  have hpresent (n : Nat) : IsPresent (tree.reader cwd) (Path.parent^[n] top) ↔
      HasFile tree (Path.parent^[n] top) ∧ InReach (Path.parent^[n] top) :=
    isPresent_iff htree (hnormal n)
  have hclimbs : Climbs (tree.reader cwd) here top result := (climbs_find_iff hhere start).mpr rfl
  rcases hclimbs.cases_nearest with ⟨nearest, hnearest, hload⟩ | ⟨hnone, habsent⟩
  · have hsame : IsNearest (IsPresent (tree.reader cwd)) top nearest ↔
        IsNearest (fun directory => HasFile tree directory ∧ InReach directory) top nearest :=
      IsNearest.congr hpresent
    refine .inl ⟨nearest, ?_, hsame.mp hnearest, hload⟩
    obtain ⟨n, rfl, -⟩ := hnearest
    exact hnormal n
  · exact .inr ⟨hnone, fun n hfile => habsent n ((hpresent n).mpr hfile)⟩

/-- The search for settings ends, wherever it starts: going up from one path to its parent has one
outcome, and this is what is found.  It is what loading the settings file of the nearest directory
comes to, an error included, and nothing exactly where no directory has such a file; a file whose
path is too long for the system does not count, which makes no difference if the first one that
the search looks for is in reach.  Settings that are found have no fault, carry the absolute path
of that directory, and say where results and the log go by an absolute path or not at all. -/
theorem find_eq_nearest_inReach (htree : tree.WellFormed) (cwd : List Bytes) (start : Bytes) :
    let here := Path.render true cwd
    let files := tree.reader cwd
    let top := Path.absolute here start
    let result := (find files here start).run
    (∀ outcome, Climbs files here top outcome ↔ outcome = result) ∧
    (InReach top → ∀ n, InReach (Path.parent^[n] top)) ∧
    (∀ directory,
      IsNearest (fun directory => HasFile tree directory ∧ InReach directory) top directory →
        result = (load files here (Path.join directory fileName)).run.map some) ∧
    (result = .ok none ↔
      ∀ n, ¬(HasFile tree (Path.parent^[n] top) ∧ InReach (Path.parent^[n] top))) ∧
    (∀ s, result = .ok (some s) →
      s.fault? = none ∧
      IsNearest (fun directory => HasFile tree directory ∧ InReach directory) top s.directory ∧
      Path.isAbsolute s.directory ∧
      (s.storeFile = [] ∨ Path.isAbsolute s.storeFile) ∧
      (s.logFile = [] ∨ Path.isAbsolute s.logFile)) := by
  intro here files top result
  have hhere : Path.isAbsolute here := Path.isAbsolute_render cwd
  refine ⟨fun outcome => climbs_find_iff hhere start,
    fun hreach => hreach.iterate_parent (Path.isNormal_absolute hhere start), ?_⟩
  rcases find_cases htree cwd start with ⟨nearest, hnormal, hnearest, hload⟩ | ⟨hnone, habsent⟩
  · refine ⟨fun directory hdirectory => ?_, ?_, fun s hs => ?_⟩
    · rw [hdirectory.eq hnearest]
      exact hload
    · obtain ⟨n, rfl, hfile, -⟩ := hnearest
      refine iff_of_false (fun hnone => ?_) fun habsent => habsent n hfile
      exact map_some_ne_none _ (hload.symm.trans hnone)
    · obtain ⟨hfault, hdirectory⟩ := of_load_eq_ok (eq_ok_of_map_some (hload.symm.trans hs))
      rw [hnormal.parent_join isName_fileName, hnormal.absolute_eq] at hdirectory
      have habsolute : Path.isAbsolute s.directory := hdirectory ▸ hnormal.isAbsolute
      exact ⟨hfault, hdirectory ▸ hnearest, habsolute,
        resolve_eq_nil_or_isAbsolute habsolute s.storePath,
        resolve_eq_nil_or_isAbsolute habsolute s.logPath⟩
  · refine ⟨fun directory hdirectory => ?_, iff_of_true hnone habsent, fun s hs => ?_⟩
    · obtain ⟨n, rfl, hfile, -⟩ := hdirectory
      exact absurd hfile (habsent n)
    · cases hnone.symm.trans hs

/-- A settings file at the root, and a directory in which a directory has its name. -/
def brokenBelowRoot : FileTree :=
  ⟨[([fileName], .file (utf8 "[log]\nfile = \"x.log\"\n")), ([utf8 "a"], .directory),
    ([fileName, utf8 "a"], .directory)]⟩

theorem find_eq_nearest_brokenBelowRoot :
    brokenBelowRoot.WellFormed ∧
    (find (brokenBelowRoot.reader [utf8 "a"]) (utf8 "/a") (utf8 "b/../c/")).run =
      .error (.unreadable (utf8 "/a/nick.toml")
        (.reading (utf8 "/a/nick.toml") .isDirectory)) ∧
    (∃ s, (find (brokenBelowRoot.reader [utf8 "a"]) (utf8 "/a") (utf8 "../b")).run =
      .ok (some s) ∧ s.logFile = utf8 "/x.log" ∧ s.fault? = none) := by
  have htree : brokenBelowRoot.WellFormed := by decide +kernel
  have hhere : Path.render true [utf8 "a"] = utf8 "/a" := by decide +kernel
  refine ⟨htree, ?_, ?_⟩
  · obtain ⟨-, -, hnearest, -⟩ := find_eq_nearest_inReach htree [utf8 "a"] (utf8 "b/../c/")
    rw [hhere] at hnearest
    rw [hnearest (utf8 "/a") ⟨1, by decide +kernel, by decide +kernel, by decide +kernel⟩]
    decide +kernel
  · obtain ⟨-, -, -, -, hfound⟩ := find_eq_nearest_inReach htree [utf8 "a"] (utf8 "../b")
    rw [hhere] at hfound
    have hs : (find (brokenBelowRoot.reader [utf8 "a"]) (utf8 "/a") (utf8 "../b")).run =
        .ok (some ⟨Eval.defaultLimit, utf8 "inspect", 0, utf8 "x.log", [], utf8 "/"⟩) := by
      decide +kernel
    exact ⟨_, hs, by decide +kernel, (hfound _ hs).1⟩

end Tree

/-! ## A file out of reach -/

/-- The root and directories in each other, all with one name. -/
def nested (name : Bytes) : Nat → FileTree
  | 0 => .empty
  | depth + 1 => ⟨(name :: List.replicate depth name, .directory) :: (nested name depth).nodes⟩

/-- An empty settings file in the innermost of directories in each other. -/
def buried (name : Bytes) (depth : Nat) : FileTree :=
  ⟨(fileName :: List.replicate depth name, .file []) :: (nested name depth).nodes⟩

section Buried

variable {name : Bytes} {depth : Nat}

theorem node?_nested_replicate {k : Nat} (hk : k ≤ depth) :
    (nested name depth).node? (List.replicate k name) = some .directory := by
  induction depth with
  | zero =>
      rw [Nat.le_zero.mp hk]
      rfl
  | succ depth ih =>
      rw [nested, FileTree.node?_cons (List.cons_ne_nil _ _)]
      rcases Nat.lt_or_eq_of_le hk with hlt | rfl
      · rw [ih (Nat.le_of_lt_succ hlt), ite_self]
      · exact if_pos rfl

theorem node?_nested_eq_none {place : List Bytes} (h : ∀ k ≤ depth, place ≠ List.replicate k name) :
    (nested name depth).node? place = none := by
  induction depth with
  | zero =>
      cases place with
      | nil => exact absurd rfl (h 0 (Nat.le_refl 0))
      | cons inner outer => rfl
  | succ depth ih =>
      have hnew : place ≠ name :: List.replicate depth name := h (depth + 1) (Nat.le_refl _)
      rw [nested, FileTree.node?_cons (List.cons_ne_nil _ _), if_neg hnew]
      exact ih fun k hk => h k (Nat.le_succ_of_le hk)

theorem fileName_cons_ne_replicate (hname : name ≠ fileName) (outer : List Bytes) (k : Nat) :
    fileName :: outer ≠ List.replicate k name := by
  intro heq
  have hmem : fileName ∈ List.replicate k name := heq ▸ List.mem_cons_self
  exact hname (List.eq_of_mem_replicate hmem).symm

theorem wellFormed_nested (hname : FileTree.IsFileName name) (depth : Nat) :
    (nested name depth).WellFormed := by
  induction depth with
  | zero => exact nofun
  | succ depth ih =>
      refine ih.cons (node?_nested_replicate (Nat.le_refl depth)) hname ?_ .directory
      refine node?_nested_eq_none fun k hk heq => ?_
      have hlength := congrArg List.length heq
      rw [List.length_cons, List.length_replicate, List.length_replicate] at hlength
      exact absurd hk (Nat.not_le.mpr (Nat.lt_of_succ_le (Nat.le_of_eq hlength)))

theorem wellFormed_buried (hname : FileTree.IsFileName name) (hother : name ≠ fileName) :
    (buried name depth).WellFormed :=
  (wellFormed_nested hname depth).cons (node?_nested_replicate (Nat.le_refl depth))
    isFileName_fileName (node?_nested_eq_none fun k _ => fileName_cons_ne_replicate hother _ k) _

/-- Of directories in each other, the innermost one has the settings file. -/
theorem hasFile_buried_iff (hname : Path.IsName name) (hother : name ≠ fileName) (k : Nat) :
    HasFile (buried name depth) (Path.render true (List.replicate k name)) ↔ k = depth := by
  have hnames : ∀ inner ∈ List.replicate k name, Path.IsName inner :=
    fun inner hinner => List.eq_of_mem_replicate hinner ▸ hname
  rw [HasFile, Path.names_render hnames, buried, FileTree.node?_cons (List.cons_ne_nil _ _)]
  by_cases hk : k = depth
  · rw [hk, if_pos rfl]
    exact iff_of_true rfl rfl
  · have hplace : fileName :: List.replicate k name ≠ fileName :: List.replicate depth name := by
      intro heq
      have hlength := congrArg List.length heq
      rw [List.length_cons, List.length_cons, List.length_replicate, List.length_replicate]
        at hlength
      omega
    rw [if_neg hplace,
      node?_nested_eq_none fun other _ => fileName_cons_ne_replicate hother _ other]
    exact iff_of_false Bool.false_ne_true hk

theorem iterate_parent_replicate (hname : Path.IsName name) (n : Nat) :
    Path.parent^[n] (Path.render true (List.replicate depth name)) =
      Path.render true (List.replicate (depth - n) name) := by
  induction n generalizing depth with
  | zero => rfl
  | succ n ih =>
      rw [Function.iterate_succ_apply]
      cases depth with
      | zero =>
          have hroot : Path.parent (Path.render true (List.replicate 0 name)) =
              Path.render true (List.replicate 0 name) := Path.parent_render_nil
          rw [hroot, ih, Nat.zero_sub, Nat.zero_sub]
      | succ depth =>
          have hnames : ∀ inner ∈ name :: List.replicate depth name, Path.IsName inner :=
            fun inner hinner => List.eq_of_mem_replicate
              (show inner ∈ List.replicate (depth + 1) name from hinner) ▸ hname
          rw [List.replicate_succ, Path.parent_render_cons hnames, ih, Nat.succ_sub_succ]

/-- A settings file that is out of reach is the nearest one and is not found. -/
theorem find_buried (hname : FileTree.IsFileName name) (hother : name ≠ fileName)
    (hdeep : ¬InReach (Path.render true (List.replicate depth name))) :
    let here := Path.render true (List.replicate depth name)
    IsNearest (HasFile (buried name depth)) (Path.absolute here here) here ∧
      (find ((buried name depth).reader (List.replicate depth name)) here here).run = .ok none := by
  intro here
  have hnormal : Path.IsNormal here :=
    ⟨_, fun inner hinner => List.eq_of_mem_replicate hinner ▸ hname.1, rfl⟩
  have htree : (buried name depth).WellFormed := wellFormed_buried hname hother
  constructor
  · refine ⟨0, (hnormal.absolute_eq here).symm, ?_, nofun⟩
    exact (hasFile_buried_iff hname.1 hother depth).mpr rfl
  · rcases find_cases htree (List.replicate depth name) here with
      ⟨nearest, -, ⟨n, rfl, ⟨hfile, hreach⟩, -⟩, -⟩ | ⟨hnone, -⟩
    · rw [hnormal.absolute_eq, iterate_parent_replicate hname.1] at hfile hreach
      rw [(hasFile_buried_iff hname.1 hother _).mp hfile] at hreach
      exact absurd hreach hdeep
    · exact hnone

end Buried

/-- A name that leaves the path of the eighteenth directory in reach, but not that of its file. -/
def longName : Bytes := List.replicate 226 0x61

/-- The settings file of the working directory is passed over if its path is too long, although
that of the directory is not. -/
theorem find_misses_nearest :
    let here := Path.render true (List.replicate 18 longName)
    let files := (buried longName 18).reader (List.replicate 18 longName)
    (buried longName 18).WellFormed ∧ here.length ≤ FileTree.maxPath ∧
      IsNearest (HasFile (buried longName 18)) (Path.absolute here here) here ∧
      (find files here here).run = .ok none ∧
      (find files here here).run ≠
        (load files here (Path.join here fileName)).run.map some := by
  have hname : FileTree.IsFileName longName := by decide +kernel
  have hother : longName ≠ fileName := by decide +kernel
  have hnames : ∀ inner ∈ List.replicate 18 longName, Path.IsName inner :=
    fun inner hinner => List.eq_of_mem_replicate hinner ▸ hname.1
  have hdeep : ¬InReach (Path.render true (List.replicate 18 longName)) := by
    rw [InReach, Path.join_render hnames isName_fileName,
      Path.length_render (List.cons_ne_nil _ _)]
    decide +kernel
  have hlength : (Path.render true (List.replicate 18 longName)).length ≤ FileTree.maxPath := by
    rw [Path.length_render (List.ne_nil_of_length_pos (by decide))]
    decide +kernel
  obtain ⟨hnearest, hnone⟩ := find_buried hname hother hdeep
  refine ⟨wellFormed_buried hname hother, hlength, hnearest, hnone, fun hload => ?_⟩
  exact map_some_ne_none _ (hload.symm.trans hnone)

end BitLang.Settings
