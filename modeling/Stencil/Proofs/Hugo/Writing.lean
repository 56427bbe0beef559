import Stencil.Hugo.Project
import Stencil.Proofs.FileTree.Writing

/-!
# Writing generated files in any order

Generated files that are apart from each other do not get into each other's way: whether all of them
can be written is told by the tree before the first one is (`exists_perform_writes_iff`), and what
the tree holds in the end is told by what has been written (`Wrote`).  So neither depends on the
order in which they are written.
-/

namespace Stencil

namespace Change

open FileTree

section Write

variable {tree later : FileTree} {base : Place} {name : String} {now : Nat} {path text : String}
  {front parents : List String}
  (hsegments : Path.segments path = front ++ (parents ++ [name]))
  (hplain : ArePlain (parents ++ [name])) (hfront : tree.follow [] front = some base)
  (hbase : tree.look base = some .directory)

include hsegments hplain hfront hbase

/-- Writing a generated file makes the directories on the way to it and then puts it there. -/
theorem perform_write_eq :
    (Change.write path text).perform now tree =
      match enter now base parents tree with
      | .ok _ later =>
        if tree.hasDirectory (base ++ (parents ++ [name])) then .error (.unwritable path) later
        else if isStorable name then
          .ok () (later.put (base ++ (parents ++ [name])) (.file text.toUTF8 now))
        else .error (.unwritable path) later
      | .error error later => .error (.system error) later := by
  have hparents := makeParents_of_segments now hsegments hfront hbase
  cases henter : enter now base parents tree with
  | error error later =>
      rw [henter] at hparents
      apply bind_of_error
      rw [EStateM.adaptExcept, hparents]
  | ok last later =>
      rw [henter] at hparents
      have hmade : ((makeParents now path).adaptExcept Failure.system) tree = .ok () later := by
        rw [EStateM.adaptExcept, hparents]
      have hperform : (Change.write path text).perform now tree =
          ((FileTree.write now path text.toUTF8).adaptExcept fun _ => Failure.unwritable path)
            later :=
        bind_of_ok hmade
      rw [hperform, EStateM.adaptExcept, write_of_enter hsegments hplain hfront hbase henter]
      by_cases htaken : tree.hasDirectory (base ++ (parents ++ [name])) = true
      · simp only [htaken, if_pos]
      · by_cases hstorable : isStorable name = true
        · simp only [htaken, hstorable, if_pos, if_neg, Bool.false_eq_true, not_false_eq_true]
        · simp only [htaken, hstorable, if_neg, Bool.false_eq_true, not_false_eq_true]

/-- A generated file can be written if nothing but directories is on the way to it and no directory
is in its place. -/
theorem exists_perform_write_iff :
    (∃ later, (Change.write path text).perform now tree = .ok () later) ↔
      CanWrite tree base (base ++ (parents ++ [name])) := by
  have hparents : ArePlain parents := fun name hname => hplain name (List.mem_append_left _ hname)
  rw [← List.append_assoc, canWrite_concat_iff, ← exists_enter_iff now hparents hbase,
    perform_write_eq hsegments hplain hfront hbase, List.append_assoc]
  cases henter : enter now base parents tree with
  | error error later => simp
  | ok last later =>
      by_cases htaken : tree.hasDirectory (base ++ (parents ++ [name])) = true
      · simp [htaken]
      · by_cases hstorable : isStorable name = true
        · simp [htaken, hstorable]
        · simp [htaken, hstorable]

/-- Writing a file adds it and the directories on the way to it. -/
theorem look_perform_write
    (h : (Change.write path text).perform now tree = .ok () later) (place : Place) :
    later.look place =
      if place = base ++ (parents ++ [name]) then some (.file text.toUTF8 now)
      else if base <+: place ∧ place <+: base ++ (parents ++ [name]) then some .directory
      else tree.look place := by
  have hparents : ArePlain parents := fun name hname => hplain name (List.mem_append_left _ hname)
  rw [perform_write_eq hsegments hplain hfront hbase] at h
  cases henter : enter now base parents tree with
  | error error made => simp [henter] at h
  | ok last made =>
      obtain ⟨rfl, hmade⟩ := look_enter hparents hbase henter
      obtain ⟨hfree, hput⟩ : tree.look (base ++ (parents ++ [name])) ≠ some .directory ∧
          made.put (base ++ (parents ++ [name])) (.file text.toUTF8 now) = later := by
        by_cases htaken : tree.hasDirectory (base ++ (parents ++ [name])) = true
        · simp [henter, htaken] at h
        · by_cases hstorable : isStorable name = true
          · refine ⟨fun hlook => htaken (hasDirectory_iff.mpr hlook), ?_⟩
            simpa [henter, htaken, hstorable] using h
          · simp [henter, htaken, hstorable] at h
      rw [← hput, ← List.append_assoc]
      by_cases heq : place = base ++ parents ++ [name]
      · rw [heq, look_put_self, if_pos rfl]
        rfl
      have hparent : made.look (base ++ parents) = some .directory := by
        rw [hmade, if_pos ⟨List.prefix_append base parents, List.prefix_refl _⟩]
      have hfree : made.look (base ++ parents ++ [name]) ≠ some .directory := by
        rw [hmade, if_neg (fun hway => (prefix_concat_iff_ne.mp hway.2).2 rfl), List.append_assoc]
        exact hfree
      rw [look_put_of_ne (isBare_file _ now) hparent hfree heq, hmade, if_neg heq]
      have hway : place <+: base ++ parents ↔
          place <+: base ++ parents ++ [name] ∧ place ≠ base ++ parents ++ [name] :=
        prefix_concat_iff_ne
      simp only [hway, heq, ne_eq, not_false_eq_true, and_true]

end Write

end Change

namespace Hugo

open FileTree

/-- No file is at the place of another one or needs a directory there. -/
structure Separate (files : List File) : Prop where
  plain : ∀ file ∈ files, ArePlain (Path.segments file.pathname)
  apart : files.Pairwise fun file other =>
    Apart (Path.segments file.pathname) (Path.segments other.pathname)

/-- The files are called by paths from the output directory. -/
def AreRelative (files : List File) : Prop :=
  ∀ file ∈ files, Path.isAbsolute file.pathname = false ∧ file.pathname ≠ ""

/-- What the tree holds after the files have been written below `base`. -/
structure Wrote (tree : FileTree) (base : Place) (now : Nat) (files : List File)
    (later : FileTree) : Prop where
  targets : ∀ file ∈ files,
    later.look (base ++ Path.segments file.pathname) = some (.file file.contents.toUTF8 now)
  way : ∀ file ∈ files, ∀ place, base <+: place → place <+: base ++ Path.segments file.pathname →
    place ≠ base ++ Path.segments file.pathname → later.look place = some .directory
  others : ∀ place,
    (∀ file ∈ files, ¬(base <+: place ∧ place <+: base ++ Path.segments file.pathname)) →
    later.look place = tree.look place

variable {tree later other : FileTree} {base : Place} {now : Nat} {output : String}
  {file : File} {files more : List File}

theorem AreRelative.perm (h : AreRelative files) (hperm : more.Perm files) : AreRelative more :=
  fun file hfile => h file (hperm.mem_iff.mp hfile)

theorem Separate.perm (h : Separate files) (hperm : more.Perm files) : Separate more where
  plain file hfile := h.plain file (hperm.mem_iff.mp hfile)
  apart := (hperm.pairwise_iff fun hapart => hapart.symm).mpr h.apart

/-- What has been written tells all that the tree holds, in whatever order it was written. -/
theorem Wrote.look_eq
    (h : Wrote tree base now files later) (hother : Wrote tree base now more other)
    (hsame : ∀ file, file ∈ files ↔ file ∈ more) (place : Place) :
    later.look place = other.look place := by
  by_cases hway : ∃ file ∈ files, base <+: place ∧ place <+: base ++ Path.segments file.pathname
  · obtain ⟨file, hfile, hbelow, habove⟩ := hway
    by_cases heq : place = base ++ Path.segments file.pathname
    · rw [heq, h.targets file hfile, hother.targets file ((hsame file).mp hfile)]
    · rw [h.way file hfile place hbelow habove heq,
        hother.way file ((hsame file).mp hfile) place hbelow habove heq]
  · rw [h.others place fun file hfile hdown => hway ⟨file, hfile, hdown⟩,
      hother.others place fun file hfile hdown => hway ⟨file, (hsame file).mpr hfile, hdown⟩]

/-! ## One file after another -/

/-- A file that has been written is in no way of a file apart from it. -/
theorem canWrite_iff_of_apart
    {target place : Place} {kind : Kind} (hcan : CanWrite tree base target)
    (hlook : ∀ place, later.look place =
      if place = target then some kind
      else if base <+: place ∧ place <+: target then some .directory
      else tree.look place)
    (hapart : Apart target place) : CanWrite later base place ↔ CanWrite tree base place := by
  have hpassable : ∀ way, base <+: way → way <+: place →
      (later.Passable way ↔ tree.Passable way) := by
    intro way hbelow habove
    have hne : way ≠ target := by
      rintro rfl
      exact hapart.1 habove
    by_cases hdown : way <+: target
    · have hdirectory : later.look way = some .directory := by
        rw [hlook, if_neg hne, if_pos ⟨hbelow, hdown⟩]
      exact iff_of_true (.inl hdirectory) (hcan.way way hbelow hdown hne)
    · apply passable_congr
      rw [hlook, if_neg hne, if_neg fun h => hdown h.2]
  have hfree : later.look place = tree.look place := by
    have hne : place ≠ target := by
      rintro rfl
      exact hapart.1 (List.prefix_refl _)
    rw [hlook, if_neg hne, if_neg fun h => hapart.2 h.2]
  constructor
  · rintro ⟨hway, hnot, hstorable⟩
    refine ⟨?_, hfree ▸ hnot, hstorable⟩
    intro way hbelow habove hne
    exact (hpassable way hbelow habove).mp (hway way hbelow habove hne)
  · rintro ⟨hway, hnot, hstorable⟩
    refine ⟨?_, hfree ▸ hnot, hstorable⟩
    intro way hbelow habove hne
    exact (hpassable way hbelow habove).mpr (hway way hbelow habove hne)

/-- The directory that the output path leads to. -/
structure LeadsTo (tree : FileTree) (output : String) (base : Place) : Prop where
  follow : tree.follow [] (Path.names output) = some base
  directory : tree.look base = some .directory

/-- What writing one of the files does, whose place is below the output directory. -/
theorem perform_file
    (now : Nat) (hbase : LeadsTo tree output base) (hrelative : AreRelative files)
    (hseparate : Separate files) (hfile : file ∈ files) :
    ((∃ later, (Change.write (Path.join output file.pathname) file.contents).perform now tree =
        .ok () later) ↔ CanWrite tree base (base ++ Path.segments file.pathname)) ∧
      ∀ later, (Change.write (Path.join output file.pathname) file.contents).perform now tree =
        .ok () later → ∀ place, later.look place =
          if place = base ++ Path.segments file.pathname then
            some (.file file.contents.toUTF8 now)
          else if base <+: place ∧ place <+: base ++ Path.segments file.pathname then
            some .directory
          else tree.look place := by
  obtain ⟨habsolute, hne⟩ := hrelative file hfile
  have hplain := hseparate.plain file hfile
  have hjoin : Path.segments (Path.join output file.pathname) =
      Path.names output ++ Path.segments file.pathname :=
    Path.segments_join habsolute hne
  obtain ⟨parents, name, hsegments⟩ : ∃ parents name,
      Path.segments file.pathname = parents ++ [name] :=
    List.eq_nil_or_concat' _ |>.resolve_left (Path.segments_ne_nil habsolute hne)
  rw [hsegments] at hplain hjoin ⊢
  exact ⟨Change.exists_perform_write_iff hjoin hplain hbase.follow hbase.directory,
    fun later h => Change.look_perform_write hjoin hplain hbase.follow hbase.directory h⟩

/-- The output directory stays where it is when a file is written. -/
theorem LeadsTo.of_look
    {target : Place} {kind : Kind} (hbase : LeadsTo tree output base)
    (hcan : CanWrite tree base target)
    (hlook : ∀ place, later.look place =
      if place = target then some kind
      else if base <+: place ∧ place <+: target then some .directory
      else tree.look place) : LeadsTo later output base := by
  have hkept : ∀ place, tree.look place = some .directory →
      later.look place = some .directory := by
    intro place hdirectory
    have hne : place ≠ target := by
      rintro rfl
      exact hcan.free hdirectory
    rw [hlook, if_neg hne]
    split
    · rfl
    · exact hdirectory
  exact ⟨follow_of_directories hkept hbase.directory hbase.follow, hkept base hbase.directory⟩

theorem Separate.tail (h : Separate (file :: files)) : Separate files where
  plain other hother := h.plain other (List.mem_cons_of_mem _ hother)
  apart := (List.pairwise_cons.mp h.apart).2

theorem Separate.apart_of_mem (h : Separate (file :: files)) {next : File} (hnext : next ∈ files)
    (base : Place) :
    Apart (base ++ Path.segments file.pathname) (base ++ Path.segments next.pathname) := by
  have hapart := (List.pairwise_cons.mp h.apart).1 next hnext
  rwa [Apart, List.prefix_append_right_inj, List.prefix_append_right_inj]

/-- All files can be written if each of them can be before the first one is. -/
theorem exists_perform_writes_iff
    (now : Nat) (hbase : LeadsTo tree output base) (hrelative : AreRelative files)
    (hseparate : Separate files) :
    (∃ later, (writes output files).forM (Change.perform now) tree = .ok () later) ↔
      ∀ file ∈ files, CanWrite tree base (base ++ Path.segments file.pathname) := by
  induction files generalizing tree with
  | nil =>
      refine iff_of_true ⟨tree, rfl⟩ ?_
      intro file hfile
      exact absurd hfile List.not_mem_nil
  | cons file files ih =>
      obtain ⟨hexists, hlook⟩ := perform_file now hbase hrelative hseparate
        List.mem_cons_self
      have hrest : AreRelative files :=
        fun next hnext => hrelative next (List.mem_cons_of_mem _ hnext)
      have hmiddle : ∀ middle, (Change.write (Path.join output file.pathname)
          file.contents).perform now tree = .ok () middle →
          CanWrite tree base (base ++ Path.segments file.pathname) →
          ((∃ later, (writes output files).forM (Change.perform now) middle = .ok () later) ↔
            ∀ next ∈ files, CanWrite tree base (base ++ Path.segments next.pathname)) := by
        intro middle hfirst hcan
        rw [ih (hbase.of_look hcan (hlook middle hfirst)) hrest hseparate.tail]
        have hsame : ∀ next ∈ files,
            (CanWrite middle base (base ++ Path.segments next.pathname) ↔
              CanWrite tree base (base ++ Path.segments next.pathname)) := by
          intro next hnext
          exact canWrite_iff_of_apart hcan (hlook middle hfirst) (hseparate.apart_of_mem hnext base)
        exact forall₂_congr hsame
      rw [List.forall_mem_cons]
      constructor
      · rintro ⟨later, hok⟩
        obtain ⟨_, middle, hfirst, hlast⟩ := exists_of_bind_ok hok
        have hcan := hexists.mp ⟨middle, hfirst⟩
        exact ⟨hcan, (hmiddle middle hfirst hcan).mp ⟨later, hlast⟩⟩
      · rintro ⟨hcan, hall⟩
        obtain ⟨middle, hfirst⟩ := hexists.mpr hcan
        obtain ⟨later, hlast⟩ := (hmiddle middle hfirst hcan).mpr hall
        exact ⟨later, (bind_of_ok hfirst).trans hlast⟩

/-- What the tree holds when all files have been written. -/
theorem wrote_of_perform_writes
    (hbase : LeadsTo tree output base) (hrelative : AreRelative files)
    (hseparate : Separate files)
    (h : (writes output files).forM (Change.perform now) tree = .ok () later) :
    Wrote tree base now files later := by
  induction files generalizing tree with
  | nil =>
      obtain rfl : tree = later := by simpa using EStateM.Result.ok.inj h
      exact ⟨by simp, by simp, fun _ _ => rfl⟩
  | cons file files ih =>
      obtain ⟨_, middle, hfirst, hlast⟩ := exists_of_bind_ok h
      obtain ⟨hexists, hlook⟩ := perform_file now hbase hrelative hseparate
        List.mem_cons_self
      have hlook := hlook middle hfirst
      have hcan := hexists.mp ⟨middle, hfirst⟩
      have hrest : AreRelative files :=
        fun next hnext => hrelative next (List.mem_cons_of_mem _ hnext)
      have hwrote := ih (hbase.of_look hcan hlook) hrest hseparate.tail hlast
      have hoff : ∀ place, base ++ Path.segments file.pathname = place → ∀ next ∈ files,
          ¬(base <+: place ∧ place <+: base ++ Path.segments next.pathname) := by
        rintro place rfl next hnext ⟨-, hdown⟩
        exact (hseparate.apart_of_mem hnext base).1 hdown
      constructor
      · refine List.forall_mem_cons.mpr ⟨?_, hwrote.targets⟩
        rw [hwrote.others _ (hoff _ rfl), hlook, if_pos rfl]
      · refine List.forall_mem_cons.mpr ⟨?_, hwrote.way⟩
        intro place hbelow habove hne
        by_cases hway : ∃ next ∈ files,
            base <+: place ∧ place <+: base ++ Path.segments next.pathname
        · obtain ⟨next, hnext, -, hdown⟩ := hway
          refine hwrote.way next hnext place hbelow hdown ?_
          rintro rfl
          exact (hseparate.apart_of_mem hnext base).2 habove
        · rw [hwrote.others place fun next hnext hdown => hway ⟨next, hnext, hdown⟩, hlook,
            if_neg hne, if_pos ⟨hbelow, habove⟩]
      · intro place hplace
        obtain ⟨hfile, hothers⟩ := List.forall_mem_cons.mp hplace
        have hne : place ≠ base ++ Path.segments file.pathname := by
          rintro rfl
          exact hfile ⟨List.prefix_append _ _, List.prefix_refl _⟩
        rw [hwrote.others place hothers, hlook, if_neg hne, if_neg hfile]

/-- A path to a directory leads there. -/
theorem leadsTo_of_place?
    (hplace : tree.place? output = some base) (hdirectory : tree.look base = some .directory) :
    LeadsTo tree output base := by
  rw [place?, Path.segments_eq] at hplace
  split at hplace
  · rw [follow_append, Option.bind_eq_some_iff] at hplace
    obtain ⟨middle, hmiddle, hhere⟩ := hplace
    rw [follow_cons (look_of_follow_cons hhere), if_pos rfl] at hhere
    obtain rfl := Option.some.inj hhere
    exact ⟨hmiddle, hdirectory⟩
  · exact ⟨hplace, hdirectory⟩

/-- In an empty directory everything with a name that can be stored can be written. -/
theorem canWrite_of_empty
    {names : List String} {modified : Nat} (hempty : tree.at? base = some (.empty modified))
    (hnames : names ≠ []) (hstorable : ∀ name ∈ names, isStorable name = true) :
    CanWrite tree base (base ++ names) := by
  have hnone : ∀ rest, rest ≠ [] → tree.look (base ++ rest) = none := by
    intro rest hrest
    obtain ⟨name, more, rfl⟩ := List.exists_cons_of_ne_nil hrest
    rw [look, at?_append, hempty]
    rfl
  have hlast : ∀ rest, rest <+: names → rest ≠ [] → ∀ name ∈ (base ++ rest).getLast?,
      isStorable name = true := by
    intro rest hdown hrest name hname
    rw [List.getLast?_append_of_ne_nil base hrest] at hname
    exact hstorable name (hdown.subset (List.mem_of_getLast? hname))
  constructor
  · rintro place ⟨rest, rfl⟩ hdown -
    rw [List.prefix_append_right_inj] at hdown
    by_cases hrest : rest = []
    · left
      rw [hrest, List.append_nil, look, hempty]
      rfl
    · right
      exact ⟨hnone rest hrest, hlast rest hdown hrest⟩
  · rw [hnone names hnames]
    simp
  · exact hlast names (List.prefix_refl _) hnames

/-- All files can be written into an empty directory. -/
theorem exists_perform_writes_of_empty
    {modified : Nat} (houtput : tree.find? output = some (.empty modified))
    (hrelative : AreRelative files) (hseparate : Separate files)
    (hstorable : ∀ file ∈ files, ∀ name ∈ Path.segments file.pathname, isStorable name = true) :
    ∃ later, (writes output files).forM (Change.perform now) tree = .ok () later := by
  obtain ⟨base, hplace, hempty⟩ := Option.bind_eq_some_iff.mp houtput
  have hdirectory : tree.look base = some .directory := by
    rw [look, hempty]
    rfl
  have hleads := leadsTo_of_place? hplace hdirectory
  apply (exists_perform_writes_iff now hleads hrelative hseparate).mpr
  intro file hfile
  obtain ⟨habsolute, hne⟩ := hrelative file hfile
  exact canWrite_of_empty hempty (Path.segments_ne_nil habsolute hne) (hstorable file hfile)

/-- The files that have been written are found under their paths. -/
theorem Wrote.contents?_eq
    (h : Wrote tree base now files later) (hbase : LeadsTo tree output base)
    (hrelative : AreRelative files) (hseparate : Separate files)
    (hcan : ∀ file ∈ files, CanWrite tree base (base ++ Path.segments file.pathname))
    (hfile : file ∈ files) :
    later.contents? (Path.join output file.pathname) = some file.contents.toUTF8 := by
  have hkept : ∀ place, tree.look place = some .directory →
      later.look place = some .directory := by
    intro place hdirectory
    by_cases hway : ∃ file ∈ files, base <+: place ∧ place <+: base ++ Path.segments file.pathname
    · obtain ⟨file, hfile, hbelow, habove⟩ := hway
      refine h.way file hfile place hbelow habove ?_
      rintro rfl
      exact (hcan file hfile).free hdirectory
    · rw [h.others place fun file hfile hdown => hway ⟨file, hfile, hdown⟩]
      exact hdirectory
  have hlook := h.targets file hfile
  have hplace : later.place? (Path.join output file.pathname) =
      some (base ++ Path.segments file.pathname) := by
    obtain ⟨habsolute, hne⟩ := hrelative file hfile
    rw [place?, Path.segments_join habsolute hne, follow_append,
      follow_of_directories hkept hbase.directory hbase.follow, Option.bind_some]
    exact follow_of_plain (hseparate.plain file hfile) (by simp [hlook])
  rw [contents?, find?, hplace, Option.bind_some, look_eq_file.mp hlook]

/-- Files that are apart can be written in any order: all of them are there in the end, and so is
everything else. -/
theorem perform_writes_perm
    (houtput : tree.isDirectoryAt output = true) (hrelative : AreRelative files)
    (hseparate : Separate files) (hperm : files.Perm more)
    (h : (writes output files).forM (Change.perform now) tree = .ok () later) :
    ∃ other, (writes output more).forM (Change.perform now) tree = .ok () other ∧
      (∀ place, other.look place = later.look place) ∧
      ∀ file ∈ files, other.contents? (Path.join output file.pathname) =
        some file.contents.toUTF8 := by
  obtain ⟨base, hplace, hdirectory⟩ := exists_of_isDirectoryAt houtput
  have hbase := leadsTo_of_place? hplace hdirectory
  have hsame : ∀ file, file ∈ files ↔ file ∈ more := fun file => hperm.mem_iff
  have hmoreRelative := hrelative.perm hperm.symm
  have hmoreSeparate := hseparate.perm hperm.symm
  have hcan := (exists_perform_writes_iff now hbase hrelative hseparate).mp ⟨later, h⟩
  have hmoreCan : ∀ file ∈ more, CanWrite tree base (base ++ Path.segments file.pathname) :=
    fun file hfile => hcan file ((hsame file).mpr hfile)
  obtain ⟨other, hother⟩ :=
    (exists_perform_writes_iff now hbase hmoreRelative hmoreSeparate).mpr hmoreCan
  have hwrote := wrote_of_perform_writes hbase hrelative hseparate h
  have hmoreWrote := wrote_of_perform_writes hbase hmoreRelative hmoreSeparate hother
  refine ⟨other, hother, hmoreWrote.look_eq hwrote fun file => (hsame file).symm, ?_⟩
  intro file hfile
  exact hmoreWrote.contents?_eq hbase hmoreRelative hmoreSeparate hmoreCan
    ((hsame file).mp hfile)

end Hugo

end Stencil
