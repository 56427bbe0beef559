import Stencil.Proofs.Collection.Pages
import Stencil.Proofs.FileTree
import Stencil.Proofs.Result
import Stencil.Source

/-!
# Names of sources

The pathname of a source is put together from names of the file system, and inferring collections
hands the pathnames of the sources on to the pages (`exists_source_of_infer`).
-/

namespace Stencil

namespace FileTree

/-! ## Files below a place -/

mutual

/-- The way to a place comes first in the places of the files. -/
theorem files_eq_map (place : Place) (tree : FileTree) :
    tree.files place = (tree.files []).map fun file => (place ++ file.1, file.2) := by
  cases tree with
  | file contents modified => simp [files]
  | directory entries => exact filesOf_eq_map place entries

theorem filesOf_eq_map (place : Place) (entries : List (String × FileTree)) :
    filesOf place entries = (filesOf [] entries).map fun file => (place ++ file.1, file.2) := by
  cases entries with
  | nil => rfl
  | cons entry entries =>
      obtain ⟨name, tree⟩ := entry
      rw [filesOf, filesOf, files_eq_map (place ++ [name]) tree, files_eq_map ([] ++ [name]) tree,
        filesOf_eq_map place entries]
      simp

end

/-- The files of an entry are files of the list of entries. -/
theorem mem_filesOf
    {name : String} {tree : FileTree} {entries : List (String × FileTree)}
    (hentry : entries.lookup name = some tree) {file : Place × ByteArray}
    (hfile : file ∈ tree.files []) : (name :: file.1, file.2) ∈ filesOf [] entries := by
  induction entries with
  | nil => exact absurd hentry (by simp)
  | cons entry entries ih =>
      obtain ⟨known, knownTree⟩ := entry
      rw [filesOf, List.mem_append]
      by_cases hname : name = known
      · subst hname
        obtain rfl : knownTree = tree := by
          rw [List.lookup_cons_self] at hentry
          exact Option.some.inj hentry
        left
        rw [files_eq_map]
        exact List.mem_map.mpr ⟨file, hfile, rfl⟩
      · right
        rw [lookup_cons_of_ne hname] at hentry
        exact ih hentry

/-- The files at and below a place are files of the tree. -/
theorem mem_files_of_at?
    {tree found : FileTree} {place : Place} (hfound : tree.at? place = some found)
    {file : Place × ByteArray} (hfile : file ∈ found.files []) :
    (place ++ file.1, file.2) ∈ tree.files [] := by
  induction place generalizing tree with
  | nil =>
      obtain rfl : tree = found := Option.some.inj hfound
      exact hfile
  | cons name place ih =>
      rw [at?, Option.bind_eq_some_iff] at hfound
      obtain ⟨known, hknown, hfound⟩ := hfound
      cases tree with
      | file contents modified => exact absurd hknown (by simp [entries])
      | directory entries => exact mem_filesOf hknown (ih hfound)

/-! ## Names -/

/-- The names on the way to the files are names that files and directories can have. -/
def HasNames (tree : FileTree) : Prop :=
  ∀ file ∈ tree.files [], ∀ name ∈ file.1, Path.IsName name

instance (tree : FileTree) : Decidable tree.HasNames :=
  inferInstanceAs (Decidable (∀ file ∈ tree.files [], ∀ name ∈ file.1, Path.IsName name))

/-- The pathname of a source consists of the names on the way to it. -/
theorem HasNames.exists_names
    {tree : FileTree} (h : tree.HasNames) {directory : String} {source : SourceFile}
    (hsource : source ∈ tree.sources directory) :
    ∃ names, source.pathname = "/".intercalate names ∧ ∀ name ∈ names, Path.IsName name := by
  rw [sources] at hsource
  cases hplace : tree.place? directory with
  | none => simp [hplace] at hsource
  | some place =>
      simp only [hplace, List.mem_filterMap] at hsource
      obtain ⟨⟨names, contents⟩, hfile, hsource⟩ := hsource
      have hpathname : source.pathname = "/".intercalate names := by
        split at hsource
        · exact absurd hsource (by simp)
        · rw [← Option.some.inj hsource]
      refine ⟨names, hpathname, ?_⟩
      cases hfound : tree.at? place with
      | none => simp [hfound] at hfile
      | some found =>
          rw [hfound] at hfile
          have hmem := mem_files_of_at? hfound hfile
          exact fun name hname => h _ hmem name (List.mem_append_right _ hname)

end FileTree

/-! ## Pages -/

theorem Document.pathname_of_read
    {collapse : Bool} {selector : Option Selector} {pathname markup : String} {document : Document}
    (h : Document.read collapse selector pathname markup = .ok document) :
    document.pathname = pathname := by
  obtain ⟨tree, -, rfl⟩ := map_eq_ok.mp h
  rw [ofTree]
  split <;> rfl

theorem SourceFile.pathname_of_document
    {collapse : Bool} {selector : Option Selector} {file : SourceFile} {document : Document}
    (h : file.document collapse selector = .ok document) : document.pathname = file.pathname := by
  rw [SourceFile.document] at h
  split at h
  · exact absurd h (by simp)
  · exact Document.pathname_of_read (mapError_eq_ok.mp h)

/-- The pages of a collection are those of its documents. -/
theorem Collection.document_mem_of_infer
    {name : String} {documents : List Document} {collection : Collection}
    (h : infer name documents = .ok collection) :
    ∀ page ∈ collection.pages, page.document ∈ documents := by
  obtain _ | ⟨anchor, _ | ⟨second, rest⟩⟩ := documents
  · exact absurd h (by simp [infer])
  · exact absurd h (by simp [infer])
  · rw [infer_eq_after] at h
    obtain rfl := Except.ok.inj h
    intro page hpage
    have hmem : page.document ∈
        (Inference.after anchor second rest).finish.pages.map Page.document :=
      List.mem_map_of_mem hpage
    rw [Inference.documents_finish] at hmem
    obtain ⟨known, hknown, heq⟩ := List.mem_map.mp hmem
    rw [← heq]
    exact Inference.document_mem_after hknown

namespace Settings

variable {settings : Settings} {sources : List SourceFile}

/-- Collections are inferred under the keys of the settings, and their pages have the pathnames of
sources. -/
theorem exists_source_of_infer
    {only : Option String} {collections : Collections}
    (h : settings.infer sources only = .ok collections)
    {key : String} {collection : Collection} (hmem : (key, collection) ∈ collections) :
    (∃ known, (key, known) ∈ settings.effectiveCollections) ∧
      ∀ page ∈ collection.pages, ∃ source ∈ sources, page.pathname = source.pathname := by
  obtain ⟨⟨known, knownSettings⟩, hknown, hinfer⟩ := exists_of_mem_mapM h hmem
  obtain ⟨inferred, hinferred, heq⟩ := bind_eq_ok.mp hinfer
  obtain ⟨rfl, rfl⟩ : known = key ∧ inferred = collection := by
    simpa [pure, Except.pure] using heq
  refine ⟨⟨knownSettings, List.mem_of_mem_filter hknown⟩, ?_⟩
  intro page hpage
  obtain ⟨selector, -, hrest⟩ := bind_eq_ok.mp hinferred
  obtain ⟨documents, hdocuments, hrest⟩ := bind_eq_ok.mp hrest
  have hdocument := Collection.document_mem_of_infer (mapError_eq_ok.mp hrest) page hpage
  obtain ⟨source, hsource, hread⟩ := exists_of_mem_mapM hdocuments hdocument
  exact ⟨source, List.mem_of_mem_filter hsource, SourceFile.pathname_of_document hread⟩

end Settings

end Stencil
