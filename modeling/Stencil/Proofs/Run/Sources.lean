import Stencil.Proofs.FileTree.Action
import Stencil.Proofs.Hugo.Project
import Stencil.Proofs.Run.Obstacle
import Stencil.Proofs.Source

/-!
# What a build leaves of its sources

A build clears a directory or writes to places (`Change.Clears`, `Change.WritesTo`), and it keeps
every file that is not in the one and at none of the others, whether it succeeds or fails half-way
(`holdsFile_after_buildSite`).  All of this is in its output directory unless the key of a
collection leads out of it, so a build keeps the sources that are not in the output directory.  Of
those that are, cleaning leaves only what is written again (`sources_after_build`).

The check of the settings compares the two directories only as paths, so they can be one in the
other, and then sources are lost (`not_keeps_sources`).
-/

namespace Stencil

open FileTree

/-! ## Changes -/

namespace Change

/-- The directory that the change clears. -/
def cleared? : Change → Option String
  | .clear path => some path
  | .create _ | .write .. | .copy .. => none

/-- The path that the change writes or copies to. -/
def target? : Change → Option String
  | .write path _ => some path
  | .copy _ target _ => some target
  | .clear _ | .create _ => none

/-- The change clears a directory that the place is in. -/
def Clears (change : Change) (place : Place) : Prop :=
  ∃ directory ∈ change.cleared?, Path.landing directory <+: place

/-- The change writes or copies to the place. -/
def WritesTo (change : Change) (place : Place) : Prop :=
  ∃ path ∈ change.target?, Path.landing path = place

/-- A change keeps what is kept by making directories, by clearing its directory and by writing to
its target. -/
theorem keeps_perform
    {p : FileTree → Prop} {change : Change} {now : Nat}
    (henter : ∀ segments, Keeps p (enter now [] segments))
    (hclear : ∀ directory ∈ change.cleared?, Keeps p (removeDirectory now directory))
    (hwrite : ∀ path ∈ change.target?, ∀ contents, Keeps p (FileTree.write now path contents)) :
    Keeps p (change.perform now) := by
  cases change with
  | clear path =>
      refine keeps_get.bind ?_
      intro tree
      split
      · exact (hclear path rfl).adaptExcept _
      · exact keeps_pure ()
  | create path => exact (keeps_makeDirectories henter path).adaptExcept _
  | write path contents =>
      refine ((keeps_makeParents henter path).adaptExcept _).bind ?_
      intro _
      exact (hwrite path rfl _).adaptExcept _
  | copy source target always =>
      exact (keeps_copy henter (hwrite target rfl) source always).adaptExcept _

variable {change : Change} {place : Place} {contents : ByteArray} {modified : Nat}

/-- A change keeps the files that it neither clears nor writes to. -/
theorem keeps_perform_of_file
    (hplace : place ≠ []) (hclear : ¬change.Clears place) (hwrite : ¬change.WritesTo place)
    (now : Nat) : Keeps (HoldsFile place contents modified) (change.perform now) := by
  apply keeps_perform
  · exact keeps_enter_of_file hplace
  · intro directory hdirectory
    exact keeps_removeDirectory_of_file fun hdown => hclear ⟨directory, hdirectory, hdown⟩
  · intro path hpath contents
    exact keeps_write_of_file fun heq => hwrite ⟨path, hpath, heq⟩

/-- Only a change that writes to a place makes a file there. -/
theorem keeps_perform_of_noFile
    (hclear : change.cleared? = none) (hwrite : ¬change.WritesTo place) (now : Nat) :
    Keeps (HoldsNoFile place) (change.perform now) := by
  apply keeps_perform
  · exact keeps_enter_of_noFile
  · intro directory hdirectory
    rw [hclear] at hdirectory
    exact absurd hdirectory (by simp)
  · intro path hpath contents
    exact keeps_write_of_noFile fun heq => hwrite ⟨path, hpath, heq⟩

/-- Clearing a directory that is there removes it. -/
theorem after_clear
    {tree : FileTree} {directory : String} {now : Nat} (hplace : tree.place? directory = some place)
    (hdirectory : tree.look place = some .directory) :
    tree.after ((Change.clear directory).perform now) = tree.remove now place := by
  obtain rfl : place = Path.landing directory := eq_land_of_follow hplace
  have hfound : (tree.find? directory).isSome = true := by
    rw [find?, hplace, Option.bind_some]
    rw [look] at hdirectory
    cases hat : tree.at? (Path.landing directory) with
    | none => simp [hat] at hdirectory
    | some found => rfl
  have hcleared : tree.after ((Change.clear directory).perform now) =
      tree.after ((removeDirectory now directory).adaptExcept
        fun _ => Failure.unclearable directory) := by
    rw [after, after, Change.perform, get_bind, if_pos hfound]
  rw [hcleared, after_adaptExcept, after, removeDirectory_of_place hplace,
    if_pos (hasDirectory_iff.mpr hdirectory)]

end Change

namespace Settings

variable {settings : Settings} {tree : FileTree} {place : Place} {contents : ByteArray}
  {modified : Nat}

/-- A build that has been planned carries out its changes. -/
theorem after_buildSite {plan : Plan} (hplan : settings.planBuild tree = .ok plan) (now : Nat) :
    tree.after (settings.buildSite now) =
      tree.after (do
        plan.perform now
        return plan.output : EStateM Failure FileTree String) := by
  rw [after, after, buildSite, Plan.follow, get_bind, hplan]

/-- A build that cannot be planned changes nothing. -/
theorem after_buildSite_of_error
    {failure : Failure} (hplan : settings.planBuild tree = .error failure) (now : Nat) :
    tree.after (settings.buildSite now) = tree := by
  rw [after, buildSite_of_error hplan]

/-- A build keeps the files that its plan neither clears nor writes to. -/
theorem holdsFile_after_buildSite
    (hplace : place ≠ []) (hfile : HoldsFile place contents modified tree)
    (hsafe : ∀ plan, settings.planBuild tree = .ok plan →
      ∀ change ∈ plan.changes, ¬change.Clears place ∧ ¬change.WritesTo place) (now : Nat) :
    HoldsFile place contents modified (tree.after (settings.buildSite now)) := by
  cases hplan : settings.planBuild tree with
  | error failure =>
      rw [after_buildSite_of_error hplan]
      exact hfile
  | ok plan =>
      have hperform : Keeps (HoldsFile place contents modified) (plan.perform now) := by
        apply Keeps.forM
        intro change hchange
        obtain ⟨hclear, hwrite⟩ := hsafe plan hplan change hchange
        exact Change.keeps_perform_of_file hplace hclear hwrite now
      rw [after_buildSite hplan]
      exact holds_after_bind (hperform tree hfile) fun _ => keeps_pure plan.output

/-! ## Where a build writes -/

/-- A path from the output directory leads to a place in it, if it does not lead up. -/
theorem landing_prefix_of_join
    {output path : String} (hpath : Path.isAbsolute path = false)
    (habove : Path.above ∉ Path.names path) :
    Path.landing output <+: Path.landing (Path.join output path) := by
  rw [Path.landing_join hpath]
  exact Path.prefix_land _ habove

/-- The changes of a build: those of the output directory, the generated files and the copies. -/
theorem mem_changes
    {collections : Collections} {sources : List SourceFile} {change : Change} :
    change ∈ settings.changes collections sources ↔
      (settings.build.clean = true ∧ change = .clear settings.build.output) ∨
      change = .create settings.build.output ∨
      (∃ file ∈ Hugo.project settings.site collections,
        change = .write (Path.join settings.build.output file.pathname) file.contents) ∨
      ∃ source ∈ sources, source.isHtml = false ∧
        change = .copy source.path
          (Path.join (Path.join settings.build.output Hugo.staticDirectory) source.pathname)
          settings.build.clean := by
  have hclear : ∀ clean : Bool, change ∈ (if clean = true then [.clear settings.build.output]
      else [] : List Change) ↔ clean = true ∧ change = .clear settings.build.output := by
    intro clean
    cases clean <;> simp
  simp only [changes, preparation, Hugo.writes, copies, List.mem_append, hclear,
    List.mem_singleton, List.mem_map, List.mem_filter, Bool.not_eq_true', or_assoc, and_assoc,
    @eq_comm Change _ change]

/-- What a build tells comes between its changes. -/
theorem filterMap_change?_steps
    (settings : Settings) (collections : Collections) (sources : List SourceFile) :
    (settings.steps collections sources).filterMap Plan.Step.change? =
      settings.changes collections sources := by
  have hmake : ∀ changes : List Change,
      (changes.map Plan.Step.make).filterMap Plan.Step.change? = changes := by
    intro changes
    rw [List.filterMap_map]
    exact List.filterMap_some
  have htell : (warnings collections).filterMap Plan.Step.change? = [] := by
    rw [List.filterMap_eq_nil_iff]
    intro step hstep
    obtain ⟨entry, -, hline⟩ := List.mem_flatMap.mp hstep
    obtain ⟨line, -, rfl⟩ := List.mem_map.mp hline
    rfl
  have hcopies : ∀ changes : List Change, (changes.flatMap fun change =>
      [.make change, .tell (.step "static")]).filterMap Plan.Step.change? = changes := by
    intro changes
    induction changes with
    | nil => rfl
    | cons change changes ih => simp [List.filterMap_cons, Plan.Step.change?, ih]
  simp [steps, changes, hmake, htell, hcopies, List.filterMap_cons, Plan.Step.change?]

theorem changes_of_planBuild {plan : Plan} (hplan : settings.planBuild tree = .ok plan) :
    ∃ collections, settings.infer (tree.sources settings.build.source) none = .ok collections ∧
      plan.changes = settings.changes collections (tree.sources settings.build.source) := by
  obtain ⟨collections, hinfer, hmade⟩ := bind_eq_ok.mp hplan
  obtain rfl := Except.ok.inj hmade
  exact ⟨collections, hinfer, filterMap_change?_steps settings collections _⟩

/-- Only the first change clears a directory. -/
theorem exists_changes_append
    (settings : Settings) (collections : Collections) (sources : List SourceFile) :
    ∃ rest, settings.changes collections sources =
        (if settings.build.clean then [.clear settings.build.output] else []) ++ rest ∧
      ∀ change ∈ rest, change.cleared? = none := by
  refine ⟨_, by rw [changes, preparation, List.append_assoc, List.append_assoc], ?_⟩
  intro change hchange
  rcases List.mem_append.mp hchange with hmem | hmem
  · obtain rfl := List.mem_singleton.mp hmem
    rfl
  rcases List.mem_append.mp hmem with hmem | hmem
  · obtain ⟨file, -, rfl⟩ := List.mem_map.mp hmem
    rfl
  · obtain ⟨source, -, rfl⟩ := List.mem_map.mp hmem
    rfl

/-- What a build clears or writes to is in its output directory, unless the key of a collection
leads out of it. -/
theorem landing_prefix_of_change
    {plan : Plan} (hnames : tree.HasNames)
    (hkeys : ∀ entry ∈ settings.effectiveCollections, Path.above ∉ Path.names entry.1)
    (hplan : settings.planBuild tree = .ok plan) {change : Change} (hchange : change ∈ plan.changes)
    (hplace : change.Clears place ∨ change.WritesTo place) :
    Path.landing settings.build.output <+: place := by
  obtain ⟨collections, hinfer, hchanges⟩ := changes_of_planBuild hplan
  rw [hchanges] at hchange
  have hsource : ∀ source ∈ tree.sources settings.build.source,
      Path.isAbsolute source.pathname = false ∧ Path.above ∉ Path.names source.pathname := by
    intro source hmem
    obtain ⟨names, hpathname, hnames⟩ := hnames.exists_names hmem
    rw [hpathname, Path.names_intercalate hnames]
    exact ⟨Path.isAbsolute_intercalate hnames, fun habove => (hnames _ habove).ne_above rfl⟩
  rcases mem_changes.mp hchange with
    ⟨-, rfl⟩ | rfl | ⟨file, hfile, rfl⟩ | ⟨source, hmem, -, rfl⟩
  · rcases hplace with ⟨path, hpath, hdown⟩ | ⟨path, hpath, -⟩
    · obtain rfl := Option.some.inj hpath
      exact hdown
    · exact absurd hpath (by simp [Change.target?])
  · rcases hplace with ⟨path, hpath, -⟩ | ⟨path, hpath, -⟩
    · exact absurd hpath (by simp [Change.cleared?])
    · exact absurd hpath (by simp [Change.target?])
  · have habove : Path.above ∉ Path.names file.pathname := by
      apply Hugo.above_notMem_project _ _ hfile
      · intro entry hentry
        obtain ⟨known, hknown⟩ := (exists_source_of_infer hinfer hentry).1
        exact hkeys _ hknown
      · intro entry hentry page hpage
        obtain ⟨source, hmem, hpathname⟩ := (exists_source_of_infer hinfer hentry).2 page hpage
        rw [hpathname]
        exact (hsource source hmem).2
    rcases hplace with ⟨path, hpath, -⟩ | ⟨path, hpath, rfl⟩
    · exact absurd hpath (by simp [Change.cleared?])
    · obtain rfl := Option.some.inj hpath
      exact landing_prefix_of_join (Hugo.isAbsolute_of_mem_project hfile) habove
  · obtain ⟨habsolute, habove⟩ := hsource source hmem
    rcases hplace with ⟨path, hpath, -⟩ | ⟨path, hpath, rfl⟩
    · exact absurd hpath (by simp [Change.cleared?])
    · obtain rfl := Option.some.inj hpath
      exact (landing_prefix_of_join (by decide) (by decide)).trans
        (landing_prefix_of_join habsolute habove)

/-! ## What is left of the sources -/

/-- The source directory of valid settings is there. -/
theorem exists_source_of_validate
    {clean : Bool} {trim : Option Bool}
    (hvalid : settings.validate (.build clean trim) tree = .ok ()) :
    ∃ source, tree.place? settings.build.source = some source ∧
      tree.look source = some .directory := by
  have hdirectory : tree.isDirectoryAt settings.build.source = true := by
    by_contra hmissing
    have hfailed : settings.validate (.build clean trim) tree =
        .error (.sourceMissing settings.build.source) := by
      simp [validate, CommandLine.Command.isDiff, hmissing]
      rfl
    rw [hfailed] at hvalid
    exact absurd hvalid (by simp)
  exact exists_of_isDirectoryAt hdirectory

/-- Cleaning leaves no file in the output directory but those that are written afterwards. -/
theorem holdsNoFile_after_buildSite
    {plan : Plan} (hplan : settings.planBuild tree = .ok plan)
    (hclean : settings.build.clean = true)
    (houtput : tree.isDirectoryAt settings.build.output = true)
    (hbelow : Path.landing settings.build.output <+: place)
    (hwrite : ∀ change ∈ plan.changes, ¬change.WritesTo place) (now : Nat) :
    HoldsNoFile place (tree.after (settings.buildSite now)) := by
  obtain ⟨output, hplace, hdirectory⟩ := exists_of_isDirectoryAt houtput
  obtain rfl : output = Path.landing settings.build.output := eq_land_of_follow hplace
  obtain ⟨collections, -, hmade⟩ := changes_of_planBuild hplan
  obtain ⟨rest, hrest, hkeep⟩ := exists_changes_append settings collections
    (tree.sources settings.build.source)
  have hchanges : plan.changes = .clear settings.build.output :: rest := by
    rw [hmade, hrest, hclean]
    rfl
  have hcleared : HoldsNoFile place
      (tree.after ((Change.clear settings.build.output).perform now)) := by
    rw [Change.after_clear hplace hdirectory]
    exact holdsNoFile_remove hbelow
  rw [after_buildSite hplan]
  refine holds_after_bind ?_ fun _ => keeps_pure plan.output
  rw [Plan.perform, hchanges]
  refine holds_after_bind hcleared ?_
  intro _
  apply Keeps.forM
  intro change hchange
  exact Change.keeps_perform_of_noFile (hkeep change hchange)
    (hwrite change (by rw [hchanges]; exact List.mem_cons_of_mem _ hchange)) now

/-- A build with valid settings keeps every source that its plan neither clears nor writes to.  If
no key of a collection leads up, these are all sources that are not in the output directory, and all
sources if neither of the two directories is in the other.  With cleaning, a source in the output
directory is kept only if it is written again. -/
theorem sources_after_build
    {clean : Bool} {trim : Option Bool}
    (hvalid : settings.validate (.build clean trim) tree = .ok ()) (now : Nat) :
    ∃ source, tree.place? settings.build.source = some source ∧
      ∀ place contents modified, source <+: place → HoldsFile place contents modified tree →
        ((∀ plan, settings.planBuild tree = .ok plan →
            ∀ change ∈ plan.changes, ¬change.Clears place ∧ ¬change.WritesTo place) →
          HoldsFile place contents modified (tree.after (settings.buildSite now))) ∧
        (tree.HasNames →
          (∀ entry ∈ settings.effectiveCollections, Path.above ∉ Path.names entry.1) →
          (¬Path.landing settings.build.output <+: place ∨
            Apart (Path.landing settings.build.output) source) →
          HoldsFile place contents modified (tree.after (settings.buildSite now))) ∧
        (∀ plan, settings.planBuild tree = .ok plan → settings.build.clean = true →
          tree.isDirectoryAt settings.build.output = true →
          Path.landing settings.build.output <+: place →
          (∀ change ∈ plan.changes, ¬change.WritesTo place) →
          HoldsNoFile place (tree.after (settings.buildSite now))) := by
  obtain ⟨source, hplace, hdirectory⟩ := exists_source_of_validate hvalid
  refine ⟨source, hplace, ?_⟩
  intro place contents modified hbelow hfile
  have hroot : place ≠ [] := by
    rintro rfl
    rw [List.prefix_nil.mp hbelow] at hdirectory
    rw [HoldsFile, hdirectory] at hfile
    exact absurd hfile (by simp)
  refine ⟨fun hsafe => holdsFile_after_buildSite hroot hfile hsafe now, ?_, ?_⟩
  · intro hnames hkeys houtside
    have hnot : ¬Path.landing settings.build.output <+: place := by
      rcases houtside with hnot | hapart
      · exact hnot
      · intro houtput
        rcases List.prefix_or_prefix_of_prefix houtput hbelow with h | h
        · exact hapart.1 h
        · exact hapart.2 h
    apply holdsFile_after_buildSite hroot hfile
    intro plan hplan change hchange
    have hoff := fun hplace => hnot (landing_prefix_of_change hnames hkeys hplan hchange hplace)
    exact ⟨fun hclear => hoff (.inl hclear), fun hwrite => hoff (.inr hwrite)⟩
  · intro plan hplan hclean houtput hinside hwrite
    exact holdsNoFile_after_buildSite hplan hclean houtput hinside hwrite now

/-- Two pages, and a third one in the directory that the project is written to. -/
def publicTree : FileTree :=
  .directory [("site", .directory
    [("a.html", .file ⟨#[]⟩ 0), ("b.html", .file ⟨#[]⟩ 0),
      ("public", .directory [("c.html", .file ⟨#[]⟩ 0)] 0)] 0)] 0

/-- Settings that clean a directory in the source directory. -/
def publicSettings : Settings :=
  { build := { source := "/site", output := "/site/public", clean := true } }

theorem sources_after_build_of_public :
    publicSettings.validate (.build true none) publicTree = .ok () ∧
    HoldsFile ["site", "a.html"] ⟨#[]⟩ 0 (publicTree.after (publicSettings.buildSite 1)) ∧
    HoldsFile ["site", "b.html"] ⟨#[]⟩ 0 (publicTree.after (publicSettings.buildSite 1)) ∧
    HoldsNoFile ["site", "public", "c.html"]
      (publicTree.after (publicSettings.buildSite 1)) := by
  have hvalid : publicSettings.validate (.build true none) publicTree = .ok () := by
    decide +kernel
  have hnames : publicTree.HasNames := by
    decide
  have hkeys : ∀ entry ∈ publicSettings.effectiveCollections,
      Path.above ∉ Path.names entry.1 := by
    decide
  obtain ⟨source, hsource, hfiles⟩ := sources_after_build hvalid 1
  obtain rfl : ["site"] = source := by
    have hplace : publicTree.place? publicSettings.build.source = some ["site"] := by
      decide
    exact Option.some.inj (hplace.symm.trans hsource)
  refine ⟨hvalid, ?_, ?_, ?_⟩
  · have hoff : ¬Path.landing publicSettings.build.output <+: ["site", "a.html"] := by
      decide
    exact (hfiles ["site", "a.html"] ⟨#[]⟩ 0 (by decide) rfl).2.1 hnames hkeys (.inl hoff)
  · have hoff : ¬Path.landing publicSettings.build.output <+: ["site", "b.html"] := by
      decide
    exact (hfiles ["site", "b.html"] ⟨#[]⟩ 0 (by decide) rfl).2.1 hnames hkeys (.inl hoff)
  · have hwrite : (publicSettings.planBuild publicTree).toOption.any (fun plan =>
        plan.changes.all fun change => change.target?.all fun path =>
          Path.landing path ≠ ["site", "public", "c.html"]) = true := by
      decide +kernel
    cases hplan : publicSettings.planBuild publicTree with
    | error failure => simp [hplan, Except.toOption] at hwrite
    | ok plan =>
        refine (hfiles ["site", "public", "c.html"] ⟨#[]⟩ 0 (by decide) rfl).2.2 plan hplan rfl
          (by decide) (by decide) ?_
        rintro change hchange ⟨path, hpath, heq⟩
        rw [hplan] at hwrite
        simp only [Except.toOption, Option.any_some, List.all_eq_true] at hwrite
        have hne := hwrite change hchange
        rw [Option.mem_def.mp hpath] at hne
        simp [heq] at hne

/-- Pages below a directory that is cleaned. -/
def nestedTree : FileTree :=
  .directory [("out", .directory
    [("site", .directory [("a.html", .file ⟨#[]⟩ 0), ("b.html", .file ⟨#[]⟩ 0)] 0)] 0)] 0

/-- Settings that clean the directory above the source directory. -/
def nestedSettings : Settings :=
  { build := { source := "/out/site", output := "/out", clean := true } }

/-- The check of the settings does not keep a build from cleaning away its sources. -/
theorem not_keeps_sources :
    ¬∀ (settings : Settings) (clean : Bool) (trim : Option Bool) (tree : FileTree) (now : Nat),
      settings.validate (.build clean trim) tree = .ok () →
      ∀ source place contents modified, tree.place? settings.build.source = some source →
        source <+: place → HoldsFile place contents modified tree →
        ∃ later, HoldsFile place contents later (tree.after (settings.buildSite now)) := by
  intro hkeeps
  have hvalid : nestedSettings.validate (.build true none) nestedTree = .ok () := by
    decide +kernel
  have hplace : nestedTree.place? nestedSettings.build.source = some ["out", "site"] := by
    decide
  obtain ⟨later, hfile⟩ := hkeeps nestedSettings true none nestedTree 1 hvalid ["out", "site"]
    ["out", "site", "a.html"] ⟨#[]⟩ 0 hplace (by decide) rfl
  have hgone : ((nestedTree.after (nestedSettings.buildSite 1)).at?
      ["out", "site", "a.html"]).isNone = true := by
    decide +kernel
  rw [HoldsFile, look_eq_file] at hfile
  simp [hfile] at hgone

end Settings

end Stencil
