import Mathlib.Data.List.Nodup
import TapeLang.Breach
import TapeLang.FileTree.Basic

/-!
# Installing files

A file is installed whole or not at all. Whatever is refused on the way, only the temporary file was
touched, and removing it gives the tree back as it was. The move leads to the same place with the
temporary file and without it, because paths lead through directories only and no step makes or removes one.
-/

namespace TapeLang.FileTree

variable {t u : FileTree} {place other : Place} {e : Entry}

/-! Places. -/

theorem lookup_erase_of_ne (h : other ≠ place) : (t.erase place).lookup other = t.lookup other := by
  have hfilter : ∀ entries : List (Place × Entry),
      (entries.filter (·.1 ≠ place)).lookup other = entries.lookup other := by
    intro entries
    induction entries with
    | nil => rfl
    | cons entry rest ih =>
      by_cases hkey : entry.1 = place
      · rw [List.filter_cons_of_neg (by simpa using hkey), ih, List.lookup_cons,
          beq_false_of_ne (hkey ▸ h)]
      · rw [List.filter_cons_of_pos (by simpa using hkey), List.lookup_cons, List.lookup_cons, ih]
  rw [lookup, lookup, erase, hfilter]

theorem lookup_insert_of_ne (h : other ≠ place) : (t.insert place e).lookup other = t.lookup other := by
  have hcons : (t.insert place e).lookup other = (t.erase place).lookup other := by
    rw [lookup, insert, List.lookup_cons, beq_false_of_ne h, lookup]
  exact hcons.trans (lookup_erase_of_ne h)

theorem lookup_insert_self (h : place ≠ []) : (t.insert place e).lookup place = some e := by
  rw [lookup, if_neg h, insert, List.lookup_cons, beq_self_eq_true]

private theorem append_name_ne_nil (directory : Place) (name : String) : directory ++ [name] ≠ [] :=
  List.append_ne_nil_of_right_ne_nil directory (List.cons_ne_nil name [])

/-- Nothing is where the root is but a directory. -/
theorem ne_nil_of_lookup (h : t.lookup place ≠ some .directory) : place ≠ [] := by
  rintro rfl
  exact h (if_pos rfl)

private theorem lookup_eq_none (h : place ≠ []) :
    t.lookup place = none ↔ place ∉ t.entries.map (·.1) := by
  rw [lookup, if_neg h, List.lookup_eq_none_iff, List.mem_map]
  constructor
  · rintro hkeys ⟨entry, hentry, rfl⟩
    exact absurd rfl (bne_iff_ne.mp (hkeys entry hentry))
  · intro habsent entry hentry
    exact bne_iff_ne.mpr fun same => habsent ⟨entry, hentry, same.symm⟩

theorem insert_insert {e' : Entry} : (t.insert place e).insert place e' = t.insert place e' := by
  simp [insert, erase]

/-- Removing a new entry gives the tree back as it was. -/
theorem erase_insert (h : t.lookup place = none) : (t.insert place e).erase place = t := by
  have hne : place ≠ [] := ne_nil_of_lookup (by rw [h]; exact nofun)
  rw [lookup_eq_none hne] at h
  have hkept : t.entries.filter (·.1 ≠ place) = t.entries := by
    rw [List.filter_eq_self]
    intro entry hentry
    refine decide_eq_true fun same => h ?_
    rw [← same]
    exact List.mem_map_of_mem hentry
  simp only [insert, erase, hkept]
  rw [List.filter_cons_of_neg (by simp), hkept]

/-! Paths lead through directories. -/

structure SameDirectories (t u : FileTree) : Prop where
  working : u.working = t.working
  directory : ∀ place, u.lookup place = some .directory ↔ t.lookup place = some .directory

theorem SameDirectories.symm (h : SameDirectories t u) : SameDirectories u t :=
  ⟨h.working.symm, fun place => (h.directory place).symm⟩

/-- A file that does not take the place of a directory leaves the directories as they are. -/
theorem sameDirectories_insert (h : t.lookup place ≠ some .directory) (content : Bytes)
    (executable : Bool) : SameDirectories t (t.insert place (.file content executable)) := by
  refine ⟨rfl, fun other => ?_⟩
  by_cases hplace : other = place
  · subst hplace
    rw [lookup_insert_self (ne_nil_of_lookup h)]
    exact ⟨nofun, fun directory => absurd directory h⟩
  · rw [lookup_insert_of_ne hplace]

private theorem directory_of_enter {name : String} {next : Place} (h : t.enter place name = .ok next) :
    t.lookup place = some .directory := by
  unfold enter at h
  split at h
  next => cases h
  next hplace => exact not_not.mp hplace

/-- Entering a directory does not depend on files. -/
theorem SameDirectories.enter (h : SameDirectories t u) {name : String} {next : Place}
    (henter : t.enter place name = .ok next) (hnext : t.lookup next = some .directory) :
    u.enter place name = .ok next := by
  have hplace := directory_of_enter henter
  rw [FileTree.enter, if_neg (not_not.mpr hplace)] at henter
  rw [FileTree.enter, if_neg (not_not.mpr ((h.directory place).mpr hplace))]
  split at henter
  next isDot => rw [if_pos isDot, henter]
  next notDot =>
    rw [if_neg notDot]
    split at henter
    next isUp => rw [if_pos isUp, henter]
    next notUp =>
      rw [if_neg notUp]
      split at henter
      next => cases henter
      next noZero =>
        rw [if_neg noZero]
        split at henter
        next => cases henter
        next short =>
          rw [if_neg short]
          split at henter
          next => cases henter
          next =>
            -- What was entered is a directory, so it is there in both trees.
            obtain rfl := Except.ok.inj henter
            rw [if_neg (by rw [(h.directory _).mpr hnext]; exact nofun)]

private theorem directory_of_walk {names : List String} {stop : Place}
    (h : t.walk place names = .ok stop) (hstop : t.lookup stop = some .directory) :
    t.lookup place = some .directory := by
  cases names with
  | nil =>
    obtain rfl := Except.ok.inj h
    exact hstop
  | cons name rest =>
    rw [walk, List.foldlM_cons] at h
    obtain ⟨next, henter, -⟩ := Except.bind_eq_ok.mp h
    exact directory_of_enter henter

theorem SameDirectories.walk (h : SameDirectories t u) {names : List String} {stop : Place}
    (hwalk : t.walk place names = .ok stop) (hstop : t.lookup stop = some .directory) :
    u.walk place names = .ok stop := by
  induction names generalizing place with
  | nil => exact hwalk
  | cons name rest ih =>
    rw [FileTree.walk, List.foldlM_cons] at hwalk ⊢
    obtain ⟨next, henter, hrest⟩ := Except.bind_eq_ok.mp hwalk
    rw [h.enter henter (directory_of_walk hrest hstop)]
    exact ih hrest

/-- A path under which a file can be put in a directory, with the name it gets there. -/
structure Names (t : FileTree) (path : String) (directory : Place) (name : String) : Prop where
  noZero : hasZero path = false
  short : path.utf8ByteSize ≤ longestPath
  last : (Path.parts path).getLast? = some name
  walk : t.walk (t.start (Path.isAbsolute path)) (Path.parts path).dropLast = .ok directory
  isDirectory : t.lookup directory = some .directory
  proper : ¬ (name = "." ∨ name = "..")
  shortName : name.utf8ByteSize ≤ longestName
  noSlash : Path.endsInSlash path = false
  noDirectory : t.lookup (directory ++ [name]) ≠ some .directory

theorem renameTarget_eq_ok {path : String} {target : Place} :
    t.renameTarget path = .ok target ↔
      ∃ directory name, Names t path directory name ∧ target = directory ++ [name] := by
  constructor
  · intro h
    unfold renameTarget at h
    dsimp only at h
    split at h
    next => cases h
    next noZero =>
    split at h
    next => cases h
    next short =>
    split at h
    next => cases h
    next name last =>
    obtain ⟨directory, hwalk, h⟩ := Except.bind_eq_ok.mp h
    split at h
    next => cases h
    next isDirectory =>
    split at h
    next => cases h
    next proper =>
    split at h
    next => cases h
    next shortName =>
    split at h
    next => cases h
    next noSlash =>
    split at h
    next => cases h
    next noDirectory =>
    exact ⟨directory, name, ⟨by simpa using noZero, Nat.le_of_not_lt short, last, hwalk,
      not_not.mp isDirectory, proper, Nat.le_of_not_lt shortName, by simpa using noSlash,
      noDirectory⟩, (Except.ok.inj h).symm⟩
  · rintro ⟨directory, name, h, rfl⟩
    simp only [renameTarget, h.noZero, Bool.false_eq_true, if_false, h.last, h.walk, h.isDirectory,
      h.noSlash, h.noDirectory, h.proper, Nat.not_lt.mpr h.short, Nat.not_lt.mpr h.shortName,
      ne_eq, not_true, Bind.bind, Except.bind, pure, Except.pure]

theorem SameDirectories.names (h : SameDirectories t u) {path name : String} {directory : Place}
    (hnames : Names t path directory name) : Names u path directory name := by
  have hwalk := h.walk hnames.walk hnames.isDirectory
  have hstart : u.start (Path.isAbsolute path) = t.start (Path.isAbsolute path) := by
    rw [start, start, h.working]
  rw [← hstart] at hwalk
  exact { hnames with
    walk := hwalk
    isDirectory := (h.directory directory).mpr hnames.isDirectory
    noDirectory := fun isDirectory => hnames.noDirectory ((h.directory _).mp isDirectory) }

private theorem mem_intercalate {α : Type} {separator part : List α} {a : α} {parts : List (List α)}
    (h : part ∈ parts) (ha : a ∈ part) : a ∈ separator.intercalate parts := by
  induction parts with
  | nil => cases h
  | cons first rest ih =>
    cases rest with
    | nil =>
      obtain rfl := List.mem_singleton.mp h
      rwa [List.intercalate_singleton]
    | cons second rest =>
      rw [List.intercalate_cons_cons, List.append_assoc, List.mem_append, List.mem_append]
      rcases List.mem_cons.mp h with rfl | h
      · exact .inl ha
      · exact .inr (.inr (ih h))

private theorem hasZero_of_mem_parts {path name : String} (h : name ∈ Path.parts path)
    (noZero : hasZero path = false) : hasZero name = false := by
  rw [Path.parts, List.mem_map] at h
  obtain ⟨part, hpart, rfl⟩ := h
  rw [hasZero, List.any_eq_false] at noZero ⊢
  intro c hc
  rw [String.toList_ofList] at hc
  have hpath : ['/'].intercalate (path.toList.splitOn '/') = path.toList :=
    List.intercalate_splitOn '/'
  apply noZero
  rw [← hpath]
  exact mem_intercalate (List.mem_of_mem_filter hpart) hc

namespace Names

variable {path name : String} {directory : Place}

theorem enter (h : Names t path directory name) (present : t.lookup (directory ++ [name]) ≠ none) :
    t.enter directory name = .ok (directory ++ [name]) := by
  have noZero := hasZero_of_mem_parts (List.mem_of_getLast? h.last) h.noZero
  have proper := h.proper
  rw [not_or] at proper
  simp only [FileTree.enter, h.isDirectory, proper.1, proper.2, noZero, Nat.not_lt.mpr h.shortName,
    present, ne_eq, not_true, if_false, Bool.false_eq_true]

/-- A file that is put under a path is found there. -/
theorem resolve_insert (h : Names t path directory name) (content : Bytes) (executable : Bool) :
    (t.insert (directory ++ [name]) (.file content executable)).resolve path =
      .ok (directory ++ [name], .file content executable) := by
  have hu := (sameDirectories_insert h.noDirectory content executable).names h
  have hfile : (t.insert (directory ++ [name]) (.file content executable)).lookup
      (directory ++ [name]) = some (.file content executable) :=
    lookup_insert_self (append_name_ne_nil directory name)
  generalize t.insert (directory ++ [name]) (.file content executable) = u at hu hfile ⊢
  have hne : path ≠ "" := by
    rintro rfl
    cases h.last
  have hwalk : u.walk (u.start (Path.isAbsolute path)) (Path.parts path) =
      .ok (directory ++ [name]) := by
    rw [← List.dropLast_append_getLast? name h.last, FileTree.walk, List.foldlM_append]
    rw [← FileTree.walk, hu.walk]
    have henter := hu.enter (by rw [hfile]; exact nofun)
    simp only [Bind.bind, Except.bind, List.foldlM_cons, List.foldlM_nil, henter, pure, Except.pure]
  simp only [resolve, hne, if_false, Nat.not_lt.mpr h.short, hwalk, hfile, h.noSlash,
    Bool.false_eq_true, Bind.bind, Except.bind, pure, Except.pure]

end Names

/-! New names. -/

theorem toString_injective {i j : Nat} (h : toString i = toString j) : i = j := by
  rw [Nat.toString_eq_ofList_toDigits, Nat.toString_eq_ofList_toDigits, String.ofList_inj] at h
  rw [← Nat.ofDigitChars_ten_toDigits (n := i), h, Nat.ofDigitChars_ten_toDigits]

private theorem nodup_temporaries (directory : Place) (count : Nat) :
    ((List.range count).map fun i => directory ++ [".tmp" ++ toString i]).Nodup := by
  refine List.Nodup.map ?_ List.nodup_range
  intro i j hij
  have hname := List.singleton_inj.mp (List.append_cancel_left hij)
  exact toString_injective ((String.append_right_inj _).mp hname)

/-- One of more names than there are entries is new. -/
theorem firstNewName_ok (t : FileTree) (directory : Place) :
    ∃ name, t.firstNewName directory = .ok name := by
  unfold firstNewName
  dsimp only
  split
  next name hname => exact ⟨_, rfl⟩
  next hnone =>
    -- Were all of them used, there would be more places than entries.
    have hused : (List.range (t.entries.length + 1)).map
        (fun i => directory ++ [".tmp" ++ toString i]) ⊆ t.entries.map (·.1) := by
      intro place hplace
      obtain ⟨i, hi, rfl⟩ := List.mem_map.mp hplace
      have htaken := List.find?_eq_none.mp hnone _ (List.mem_map_of_mem hi)
      rw [decide_eq_true_eq, lookup_eq_none (append_name_ne_nil _ _), not_not] at htaken
      exact htaken
    have hlength := (nodup_temporaries directory _).length_le_of_subset hused
    rw [List.length_map, List.length_map, List.length_range] at hlength
    omega

/-! Installing. -/

section

variable {temporary target : Place} {path : String} {content : Bytes}

/-- The complete file is moved to where the path leads. -/
theorem rename_insert (hne : temporary ≠ []) {e : Entry} :
    (t.insert temporary e).rename temporary path =
      ((t.insert temporary e).renameTarget path).map fun target =>
        ((t.insert temporary e).erase temporary).insert target e := by
  rw [rename, lookup_insert_self hne]
  cases (t.insert temporary e).renameTarget path with
  | error f => rfl
  | ok target => rfl

/-- Whatever is refused, up to then only the temporary file was touched. -/
theorem complete_cases (c : Circumstances) (t : FileTree) (hne : temporary ≠ []) (path : String)
    (content : Bytes) :
    (∃ e f, complete c t temporary path content = (t.insert temporary e, .error f)) ∨
      ∃ target, (t.insert temporary (.file content true)).renameTarget path = .ok target ∧
        complete c t temporary path content =
          (((t.insert temporary (.file content true)).erase temporary).insert target
            (.file content true), .ok ()) := by
  unfold complete
  split
  next count f hwrite => exact .inl ⟨_, f, rfl⟩
  next hwrite =>
    dsimp only
    split
    next f hrefused => exact .inl ⟨_, f, rfl⟩
    next hallowed =>
      rw [insert_insert]
      split
      next f hmove => exact .inl ⟨_, f, rfl⟩
      next hmove =>
        rw [rename_insert hne]
        cases htarget : (t.insert temporary (.file content true)).renameTarget path with
        | error f => exact .inl ⟨_, f, rfl⟩
        | ok target => exact .inr ⟨target, rfl, rfl⟩

/-- Where nothing is refused, a path that leads somewhere is enough. -/
theorem complete_ok (hne : temporary ≠ [])
    (h : (t.insert temporary (.file content true)).renameTarget path = .ok target) :
    complete {} t temporary path content =
      (((t.insert temporary (.file content true)).erase temporary).insert target
        (.file content true), .ok ()) := by
  simp only [complete, Option.or_none, insert_insert, rename_insert hne, h, Except.map]

/-- A temporary file has no part in where a path leads. -/
theorem renameTarget_insert (h : t.lookup temporary = none) :
    (t.insert temporary (.file content true)).renameTarget path = .ok target ↔
      t.renameTarget path = .ok target := by
  have hnone : t.lookup temporary ≠ some .directory := by
    rw [h]
    exact nofun
  have same := sameDirectories_insert hnone content true
  rw [renameTarget_eq_ok, renameTarget_eq_ok]
  constructor
  · rintro ⟨directory, name, names, rfl⟩
    exact ⟨directory, name, same.symm.names names, rfl⟩
  · rintro ⟨directory, name, names, rfl⟩
    exact ⟨directory, name, same.names names, rfl⟩

/-- A file is installed whole, or the tree is as it was. -/
theorem installUnder_cases (c : Circumstances) (t : FileTree) (path : String) (content : Bytes) :
    (∃ f, installUnder c t path content = (t, .error f)) ∨
      ∃ target, t.renameTarget path = .ok target ∧
        installUnder c t path content = (t.insert target (.file content true), .ok ()) := by
  unfold installUnder
  split
  next f hparent => exact .inl ⟨f, rfl⟩
  next directory hparent =>
    split
    next f hcreate => exact .inl ⟨f, rfl⟩
    next name hcreate =>
      obtain ⟨name, hnew⟩ := name
      have hne := append_name_ne_nil directory name
      dsimp only
      rcases complete_cases c (t.insert (directory ++ [name]) (.file [] false)) hne path content with
        ⟨e, f, hcomplete⟩ | ⟨target, htarget, hcomplete⟩
      · rw [hcomplete, insert_insert]
        exact .inl ⟨f, by simp only [erase_insert hnew]⟩
      · rw [insert_insert, renameTarget_insert hnew] at htarget
        rw [hcomplete, insert_insert, erase_insert hnew]
        exact .inr ⟨target, htarget, rfl⟩

theorem install_ok {directory : Place} (hparent : t.parentPlace path = .ok directory)
    (h : t.renameTarget path = .ok target) :
    t.install path content = (t.insert target (.file content true), .ok ()) := by
  obtain ⟨⟨name, hnew⟩, hname⟩ := firstNewName_ok t directory
  have hne := append_name_ne_nil directory name
  have htarget : ((t.insert (directory ++ [name]) (.file [] false)).insert (directory ++ [name])
      (.file content true)).renameTarget path = .ok target := by
    rwa [insert_insert, renameTarget_insert hnew]
  simp only [install, installUnder, hparent, hname, complete_ok hne htarget]
  rw [insert_insert, erase_insert hnew]

end

end TapeLang.FileTree
