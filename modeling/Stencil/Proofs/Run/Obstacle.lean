import Stencil.Proofs.FileTree.Action
import Stencil.Proofs.Result
import Stencil.Run

/-!
# What keeps a build from its changes

A collection cannot be inferred if its selector is not one, if one of its documents cannot be read
or is not markup, or if it has fewer than two documents (`Settings.Obstructed`), and for no other
reason (`exists_inferCollection_eq_error_iff`).  The first such collection, in the order of the
keys, fails the inference, whatever comes before and after it (`infer_eq_error_iff`).

A build changes nothing before everything has been inferred, so that an obstructed collection leaves
the whole file tree as it was (`unchanged_of_obstructed`).
-/

namespace Stencil

/-! ## Parts of an inference -/

theorem CollectionSettings.exists_selector_eq_error_iff {settings : CollectionSettings} :
    (∃ error, settings.selector = .error error) ↔
      ∃ text error, settings.content = some text ∧ Selector.parse text = .error error := by
  rw [selector]
  cases settings.content with
  | none => simp
  | some text => simp [map_eq_error]

/-- A document is read unless its file is not text or its text is not markup. -/
theorem SourceFile.exists_document_eq_error_iff
    {collapse : Bool} {selector : Option Selector} {file : SourceFile} :
    (∃ failure, file.document collapse selector = .error failure) ↔
      String.fromUTF8? file.contents = none ∨
        ∃ markup position, String.fromUTF8? file.contents = some markup ∧
          Markup.parse collapse markup = .error position := by
  rw [document]
  cases String.fromUTF8? file.contents with
  | none => simp
  | some markup => simp [mapError_eq_error, Document.read, map_eq_error]

theorem Collection.exists_infer_eq_error_iff {name : String} {documents : List Document} :
    (∃ error, infer name documents = .error error) ↔ documents.length < 2 := by
  obtain _ | ⟨anchor, _ | ⟨second, rest⟩⟩ := documents
  · simp [infer]
  · simp [infer]
  · simp [infer]

namespace Settings

/-! ## Obstacles -/

/-- Something keeps the collection from being inferred from the sources. -/
inductive Obstructed (settings : Settings) (sources : List SourceFile)
    (collection : CollectionSettings) : Prop
  | selector {text : String} {error : Selector.ParseError}
      (hcontent : collection.content = some text) (hselector : Selector.parse text = .error error)
  | unread {file : SourceFile} (hfile : file ∈ sources)
      (hselects : collection.selects file.pathname = true)
      (hcontents : String.fromUTF8? file.contents = none)
  | malformed {file : SourceFile} {markup : String} {position : Nat} (hfile : file ∈ sources)
      (hselects : collection.selects file.pathname = true)
      (hcontents : String.fromUTF8? file.contents = some markup)
      (hmarkup : Markup.parse settings.build.trimWhitespace markup = .error position)
  | few (hfew : (sources.filter fun file => collection.selects file.pathname).length < 2)

variable {settings : Settings} {sources : List SourceFile} {key : String}
  {collection : CollectionSettings} {failure : Failure}

/-- A collection that is obstructed cannot be inferred. -/
theorem Obstructed.exists_error (h : settings.Obstructed sources collection) (key : String) :
    ∃ failure, settings.inferCollection sources key collection = .error failure := by
  by_contra hnone
  obtain ⟨inferred, hinfer⟩ := not_exists_error_iff.mp hnone
  obtain ⟨selector, hselector, hinfer⟩ := bind_eq_ok.mp hinfer
  obtain ⟨documents, hdocuments, hinfer⟩ := bind_eq_ok.mp hinfer
  have hread : ∀ file ∈ sources, collection.selects file.pathname = true →
      ¬∃ failure, file.document settings.build.trimWhitespace selector = .error failure := by
    intro file hfile hselects
    exact not_exists_error_iff.mpr
      (exists_ok_of_mapM hdocuments (List.mem_filter.mpr ⟨hfile, hselects⟩))
  rw [mapError_eq_ok] at hselector hinfer
  cases h with
  | @selector text error hcontent herror =>
      have hfails :=
        CollectionSettings.exists_selector_eq_error_iff.mpr ⟨text, error, hcontent, herror⟩
      exact not_exists_error_iff.mpr ⟨selector, hselector⟩ hfails
  | unread hfile hselects hcontents =>
      exact hread _ hfile hselects (SourceFile.exists_document_eq_error_iff.mpr (Or.inl hcontents))
  | malformed hfile hselects hcontents hmarkup =>
      exact hread _ hfile hselects
        (SourceFile.exists_document_eq_error_iff.mpr (Or.inr ⟨_, _, hcontents, hmarkup⟩))
  | few hfew =>
      rw [(mapM_eq_ok_iff.mp hdocuments).length_eq] at hfew
      exact not_exists_error_iff.mpr ⟨inferred, hinfer⟩
        (Collection.exists_infer_eq_error_iff.mpr hfew)

/-- A collection that cannot be inferred is obstructed. -/
theorem obstructed_of_error
    (h : settings.inferCollection sources key collection = .error failure) :
    settings.Obstructed sources collection := by
  rcases bind_eq_error.mp h with hselector | ⟨selector, -, h⟩
  · obtain ⟨error, hselector, -⟩ := mapError_eq_error.mp hselector
    obtain ⟨text, error, hcontent, herror⟩ :=
      CollectionSettings.exists_selector_eq_error_iff.mp ⟨error, hselector⟩
    exact .selector hcontent herror
  rcases bind_eq_error.mp h with hdocuments | ⟨documents, hdocuments, hinfer⟩
  · obtain ⟨file, hfile, hfails⟩ := exists_mapM_eq_error_iff.mp ⟨failure, hdocuments⟩
    obtain ⟨hfile, hselects⟩ := List.mem_filter.mp hfile
    rcases SourceFile.exists_document_eq_error_iff.mp hfails with
      hcontents | ⟨markup, position, hcontents, hmarkup⟩
    · exact .unread hfile hselects hcontents
    · exact .malformed hfile hselects hcontents hmarkup
  · obtain ⟨error, hinfer, -⟩ := mapError_eq_error.mp hinfer
    have hfew := Collection.exists_infer_eq_error_iff.mp ⟨error, hinfer⟩
    rw [← (mapM_eq_ok_iff.mp hdocuments).length_eq] at hfew
    exact .few hfew

/-- A collection cannot be inferred exactly if something obstructs it. -/
theorem exists_inferCollection_eq_error_iff :
    (∃ failure, settings.inferCollection sources key collection = .error failure) ↔
      settings.Obstructed sources collection :=
  ⟨fun ⟨_, h⟩ => obstructed_of_error h, fun h => h.exists_error key⟩

/-! ## The first obstacle -/

theorem infer_none :
    settings.infer sources none = settings.effectiveCollections.mapM fun (key, collection) => do
      return (key, ← settings.inferCollection sources key collection) := by
  have hall : settings.effectiveCollections.filter
      (fun (key, _) => (none : Option String).all (· == key)) = settings.effectiveCollections :=
    List.filter_eq_self.mpr fun _ _ => rfl
  rw [infer, selected, hall]

/-- The inference of all collections fails if one of them is obstructed. -/
theorem exists_infer_eq_error_iff :
    (∃ failure, settings.infer sources none = .error failure) ↔
      ∃ entry ∈ settings.effectiveCollections, settings.Obstructed sources entry.2 := by
  rw [infer_none, exists_mapM_eq_error_iff]
  simp only [bind_pure_eq_error, exists_inferCollection_eq_error_iff]

/-- The inference of all collections fails as it does for the first one that is obstructed. -/
theorem infer_eq_error_iff :
    settings.infer sources none = .error failure ↔
      ∃ before key collection after,
        settings.effectiveCollections = before ++ (key, collection) :: after ∧
          (∀ entry ∈ before, ¬settings.Obstructed sources entry.2) ∧
          settings.inferCollection sources key collection = .error failure := by
  rw [infer_none, mapM_eq_error_iff]
  simp only [← not_exists_error_iff, bind_pure_eq_error, exists_inferCollection_eq_error_iff,
    Prod.exists]

/-! ## Builds -/

/-- A build that cannot be planned fails and changes nothing. -/
theorem buildSite_of_error
    {tree : FileTree} (hplan : settings.planBuild tree = .error failure) (now : Nat) :
    settings.buildSite now tree = .error failure tree := by
  rw [buildSite, Plan.follow, FileTree.get_bind, hplan]
  rfl

/-- An obstructed collection leaves everything as it was: the build fails as the inference of the
first obstructed collection does, with the file tree unchanged, whatever was inferred before it and
whether or not the output directory is to be cleaned. -/
theorem unchanged_of_obstructed
    {settings : Settings} {tree : FileTree}
    (h : ∃ entry ∈ settings.effectiveCollections,
      settings.Obstructed (tree.sources settings.build.source) entry.2) (now : Nat) :
    ∃ before key collection after failure,
      settings.effectiveCollections = before ++ (key, collection) :: after ∧
        (∀ entry ∈ before, ¬settings.Obstructed (tree.sources settings.build.source) entry.2) ∧
        settings.inferCollection (tree.sources settings.build.source) key collection =
          .error failure ∧
        settings.buildSite now tree = .error failure tree := by
  obtain ⟨failure, hinfer⟩ := exists_infer_eq_error_iff.mpr h
  obtain ⟨before, key, collection, after, hentries, hbefore, hfails⟩ := infer_eq_error_iff.mp hinfer
  have hplan : settings.planBuild tree = .error failure := bind_eq_error.mpr (Or.inl hinfer)
  exact ⟨before, key, collection, after, failure, hentries, hbefore, hfails,
    buildSite_of_error hplan now⟩

/-- Two collections, one with a page that is not text, and a project written earlier. -/
def docsTree : FileTree :=
  .directory
    [("hugo", .directory [("config.toml", .file ⟨#[]⟩ 0)] 0),
      ("site", .directory
        [("blog", .directory [("a.html", .file ⟨#[]⟩ 0), ("b.html", .file ⟨#[]⟩ 0)] 0),
          ("docs", .directory [("c.html", .file ⟨#[255]⟩ 0), ("d.html", .file ⟨#[]⟩ 0)] 0)] 0)]
    0

/-- Settings that clean the directory of the earlier project. -/
def docsSettings : Settings :=
  { build := { source := "/site", output := "/hugo", clean := true }
    collections := [("blog", { subPath := "blog/" }), ("docs", { subPath := "docs/" })] }

theorem unchanged_of_obstructed_docs :
    let sources := docsTree.sources docsSettings.build.source
    (docsSettings.inferCollection sources "blog" { subPath := "blog/" }).toOption.isSome = true ∧
      docsSettings.Obstructed sources { subPath := "docs/" } ∧
      ∃ failure, docsSettings.buildSite 1 docsTree = .error failure docsTree := by
  intro sources
  have hblog : (docsSettings.inferCollection sources "blog"
      { subPath := "blog/" }).toOption.isSome = true := by
    decide +kernel
  have hunread : (sources.any fun file =>
      ({ subPath := "docs/" } : CollectionSettings).selects file.pathname &&
        (String.fromUTF8? file.contents).isNone) = true := by
    decide +kernel
  obtain ⟨file, hfile, hpage⟩ := List.any_eq_true.mp hunread
  obtain ⟨hselects, hcontents⟩ := Bool.and_eq_true_iff.mp hpage
  have hdocs : docsSettings.Obstructed sources { subPath := "docs/" } :=
    .unread hfile hselects (Option.isNone_iff_eq_none.mp hcontents)
  obtain ⟨_, _, _, _, failure, -, -, -, hbuild⟩ :=
    unchanged_of_obstructed ⟨("docs", { subPath := "docs/" }), by decide, hdocs⟩ 1
  exact ⟨hblog, hdocs, failure, hbuild⟩

end Settings

end Stencil
