import Mathlib.Data.List.Nodup
import Mathlib.Data.List.Pairwise
import Stencil.Proofs.Hugo.Project
import Stencil.Proofs.Hugo.Writing

/-!
# Pathnames of generated files

The settings of the site, the templates and the pages of a project have different pathnames, and so
have the pages of one collection.  Pages of two collections are called alike when the folder of the
one is named in the pathname of a page of the other (`Collide`): above all when a page of the root
collection, which has no folder, lies in a folder that is called like another collection.

Where this does not happen all pathnames are distinct, and where no file needs a directory in the
place of another the files can be written in any order (`pathnames_project`).
-/

namespace Stencil

namespace Hugo

open FileTree

variable {site : SiteSettings} {collections : Collections} {key other : String}
  {page otherPage : Page}

/-! ## Pages that are called alike -/

/-- The page is called like one of another collection: it is in the root collection and its pathname
names the other one first, or its pathname names what the key of the other collection goes on
with. -/
def Collide (key : String) (page : Page) (other : String) (otherPage : Page) : Prop :=
  (key = rootCollection ∧ page.pathname = other ++ "/" ++ otherPage.pathname) ∨
    key ≠ rootCollection ∧ other ≠ rootCollection ∧
      ∃ rest, other = key ++ "/" ++ rest ∧ page.pathname = rest ++ "/" ++ otherPage.pathname

theorem pathname_pageFile_eq_iff :
    (pageFile page key).pathname = (pageFile otherPage other).pathname ↔
      folder key ++ page.pathname = folder other ++ otherPage.pathname := by
  rw [pathname_pageFile, pathname_pageFile, String.append_assoc, String.append_assoc,
    String.append_right_inj]

/-- When a path begins with two different texts before slashes, one of them goes on with a slash. -/
theorem append_slash_eq_iff {first second rest last : String} (hne : first ≠ second) :
    first ++ "/" ++ rest = second ++ "/" ++ last ↔
      (∃ middle, second = first ++ "/" ++ middle ∧ rest = middle ++ "/" ++ last) ∨
        ∃ middle, first = second ++ "/" ++ middle ∧ last = middle ++ "/" ++ rest := by
  have hslash : ∀ front back : String,
      (front ++ "/" ++ back).toList = front.toList ++ '/' :: back.toList := by
    intro front back
    simp
  constructor
  · intro h
    rw [← String.toList_inj, hslash, hslash] at h
    rcases List.append_eq_append_iff.mp h with ⟨between, hsecond, hrest⟩ | ⟨between, hfirst, hlast⟩
    · cases between with
      | nil =>
          rw [List.append_nil, String.toList_inj] at hsecond
          exact absurd hsecond.symm hne
      | cons c middle =>
          obtain ⟨rfl, htail⟩ := List.cons.inj hrest
          left
          refine ⟨.ofList middle, ?_, ?_⟩
          · rw [← String.toList_inj, hslash, String.toList_ofList, hsecond]
          · rw [← String.toList_inj, hslash, String.toList_ofList]
            exact htail
    · cases between with
      | nil =>
          rw [List.append_nil, String.toList_inj] at hfirst
          exact absurd hfirst hne
      | cons c middle =>
          obtain ⟨rfl, htail⟩ := List.cons.inj hlast
          right
          refine ⟨.ofList middle, ?_, ?_⟩
          · rw [← String.toList_inj, hslash, String.toList_ofList, hfirst]
          · rw [← String.toList_inj, hslash, String.toList_ofList]
            exact htail
  · rintro (⟨middle, rfl, rfl⟩ | ⟨middle, rfl, rfl⟩)
    · simp only [String.append_assoc]
    · simp only [String.append_assoc]

/-- Pages of two collections have one pathname if one of them is called like the other. -/
theorem pathname_pageFile_eq_iff_collide (hne : key ≠ other) :
    (pageFile page key).pathname = (pageFile otherPage other).pathname ↔
      Collide key page other otherPage ∨ Collide other otherPage key page := by
  rw [pathname_pageFile_eq_iff, folder, folder]
  by_cases hkey : key = rootCollection
  · have hother : other ≠ rootCollection := fun heq => hne (hkey.trans heq.symm)
    simp [Collide, hkey, hother]
  by_cases hother : other = rootCollection
  · simp [Collide, hkey, hother, eq_comm]
  rw [if_neg hkey, if_neg hother, append_slash_eq_iff hne]
  simp [Collide, hkey, hother]

/-! ## Distinct pathnames -/

theorem pathname_layoutFile_inj {layout otherLayout : Layout} :
    (layoutFile layout key).pathname = (layoutFile otherLayout other).pathname ↔ key = other := by
  rw [pathname_layoutFile, pathname_layoutFile, String.append_left_inj, String.append_right_inj]

theorem pathname_layoutFile_ne_pageFile (layout : Layout) :
    (layoutFile layout key).pathname ≠ (pageFile page other).pathname := by
  intro heq
  have hnames := congrArg Path.names heq
  rw [names_layoutFile, names_pageFile] at hnames
  exact absurd (List.cons.inj hnames).1 (by decide)

/-- The files of a collection. -/
def collectionFiles (entry : String × Collection) : List File :=
  layoutFile entry.2.layout entry.1 :: entry.2.pages.map (pageFile · entry.1)

theorem project_eq :
    project site collections =
      configFile site.baseUrl site.title :: collections.flatMap collectionFiles :=
  rfl

/-- The files of a collection have distinct pathnames if its pages have. -/
theorem nodup_collectionFiles
    {entry : String × Collection} (hpages : (entry.2.pages.map Page.pathname).Nodup) :
    ((collectionFiles entry).map File.pathname).Nodup := by
  rw [collectionFiles, List.map_cons, List.nodup_cons, List.map_map]
  constructor
  · intro hmem
    obtain ⟨page, -, heq⟩ := List.mem_map.mp hmem
    exact pathname_layoutFile_ne_pageFile entry.2.layout heq.symm
  · have hcomp : File.pathname ∘ (pageFile · entry.1) =
        ("content/" ++ folder entry.1 ++ ·) ∘ Page.pathname := rfl
    rw [hcomp, ← List.map_map]
    exact hpages.map fun first second heq => (String.append_right_inj _).mp heq

theorem mem_map_collectionFiles {entry : String × Collection} {pathname : String} :
    pathname ∈ (collectionFiles entry).map File.pathname ↔
      pathname = (layoutFile entry.2.layout entry.1).pathname ∨
        ∃ page ∈ entry.2.pages, pathname = (pageFile page entry.1).pathname := by
  rw [collectionFiles, List.map_cons, List.mem_cons, List.map_map, List.mem_map]
  simp only [Function.comp_apply, @eq_comm _ _ pathname]

/-- The files of two collections have different pathnames if no pages collide. -/
theorem disjoint_collectionFiles_iff
    {first second : String × Collection} (hne : first.1 ≠ second.1) :
    ((collectionFiles first).map File.pathname).Disjoint
        ((collectionFiles second).map File.pathname) ↔
      ∀ page ∈ first.2.pages, ∀ otherPage ∈ second.2.pages,
        ¬Collide first.1 page second.1 otherPage ∧ ¬Collide second.1 otherPage first.1 page := by
  rw [List.disjoint_left]
  constructor
  · intro hdisjoint page hpage otherPage hother
    rw [← not_or, ← pathname_pageFile_eq_iff_collide hne]
    intro heq
    have hfirst : (pageFile page first.1).pathname ∈ (collectionFiles first).map File.pathname :=
      mem_map_collectionFiles.mpr (.inr ⟨page, hpage, rfl⟩)
    exact hdisjoint hfirst (mem_map_collectionFiles.mpr (.inr ⟨otherPage, hother, heq⟩))
  · intro hcollide pathname hfirst hsecond
    rcases mem_map_collectionFiles.mp hfirst with rfl | ⟨page, hpage, rfl⟩
    · rcases mem_map_collectionFiles.mp hsecond with heq | ⟨otherPage, -, heq⟩
      · exact hne (pathname_layoutFile_inj.mp heq)
      · exact pathname_layoutFile_ne_pageFile _ heq
    · rcases mem_map_collectionFiles.mp hsecond with heq | ⟨otherPage, hother, heq⟩
      · exact pathname_layoutFile_ne_pageFile _ heq.symm
      · obtain ⟨hnot, hnotOther⟩ := hcollide page hpage otherPage hother
        rcases (pathname_pageFile_eq_iff_collide hne).mp heq with h | h
        · exact hnot h
        · exact hnotOther h

/-- The settings of the site are called like no other file. -/
theorem pathname_configFile_notMem :
    (configFile site.baseUrl site.title).pathname ∉
      (collections.flatMap collectionFiles).map File.pathname := by
  rw [List.map_flatMap, List.mem_flatMap]
  rintro ⟨entry, -, hmem⟩
  have hconfig : Path.names (configFile site.baseUrl site.title).pathname = ["config.toml"] := by
    rw [pathname_configFile]
    decide
  rcases mem_map_collectionFiles.mp hmem with heq | ⟨page, -, heq⟩
  · rw [heq, names_layoutFile] at hconfig
    exact absurd (List.cons.inj hconfig).1 (by decide)
  · rw [heq, names_pageFile] at hconfig
    exact absurd (List.cons.inj hconfig).1 (by decide)

/-- The generated files have distinct pathnames if no pages of two collections collide. -/
theorem nodup_pathnames_iff
    (hkeys : (collections.map Prod.fst).Nodup)
    (hpages : ∀ entry ∈ collections, (entry.2.pages.map Page.pathname).Nodup) :
    ((project site collections).map File.pathname).Nodup ↔
      ∀ first ∈ collections, ∀ second ∈ collections, first.1 ≠ second.1 →
        ∀ page ∈ first.2.pages, ∀ otherPage ∈ second.2.pages,
          ¬Collide first.1 page second.1 otherPage := by
  have hflat : (collections.flatMap collectionFiles).map File.pathname =
      collections.flatMap fun entry => (collectionFiles entry).map File.pathname :=
    List.map_flatMap
  have hdistinct : collections.Pairwise fun first second => first.1 ≠ second.1 :=
    List.pairwise_map.mp hkeys
  rw [project_eq, List.map_cons, List.nodup_cons]
  constructor
  · rintro ⟨-, hnodup⟩ first hfirst second hsecond hne page hpage otherPage hother
    rw [hflat, List.nodup_flatMap] at hnodup
    have hsymm : Std.Symm (Function.onFun List.Disjoint fun entry : String × Collection =>
        (collectionFiles entry).map File.pathname) :=
          ⟨fun _ _ h _ hmem hother => h hother hmem⟩
    have hdisjoint := hnodup.2.forall hfirst hsecond fun heq => hne (congrArg Prod.fst heq)
    exact ((disjoint_collectionFiles_iff hne).mp hdisjoint page hpage otherPage hother).1
  · intro hcollide
    refine ⟨pathname_configFile_notMem, ?_⟩
    rw [hflat, List.nodup_flatMap]
    refine ⟨fun entry hentry => nodup_collectionFiles (hpages entry hentry), ?_⟩
    refine hdistinct.imp_of_mem ?_
    intro first second hfirst hsecond hne
    apply (disjoint_collectionFiles_iff hne).mpr
    intro page hpage otherPage hother
    exact ⟨hcollide first hfirst second hsecond hne page hpage otherPage hother,
      hcollide second hsecond first hfirst (Ne.symm hne) otherPage hother page hpage⟩

/-! ## Places that are apart -/

/-- A path is the names of the directories on the way to a file and of the file. -/
structure IsClean (path : String) : Prop where
  ne_nil : Path.names path ≠ []
  isName : ∀ name ∈ Path.names path, Path.IsName name
  eq_intercalate : path = "/".intercalate (Path.names path)

theorem isClean_iff {path : String} :
    (Path.names path ≠ [] ∧ (∀ name ∈ Path.names path, Path.IsName name) ∧
      path = "/".intercalate (Path.names path)) ↔ IsClean path := by
  constructor
  · rintro ⟨hsome, hnames, heq⟩
    exact ⟨hsome, hnames, heq⟩
  · rintro ⟨hsome, hnames, heq⟩
    exact ⟨hsome, hnames, heq⟩

instance (path : String) : Decidable (IsClean path) :=
  decidable_of_iff _ isClean_iff

theorem IsClean.endsInSlash {path : String} (h : IsClean path) :
    Path.endsInSlash path = false := by
  rw [h.eq_intercalate]
  exact Path.endsInSlash_intercalate h.isName

theorem IsClean.ne_empty {path : String} (h : IsClean path) : path ≠ "" := by
  rw [h.eq_intercalate]
  exact Path.intercalate_ne_empty h.ne_nil h.isName

theorem arePlain_of_isName {names : List String} (h : ∀ name ∈ names, Path.IsName name) :
    ArePlain names :=
  fun name hname => ⟨(h name hname).ne_here, (h name hname).ne_above⟩

/-- Keys and pathnames consist of names of files and directories, no page is in the way of another
one of its collection, and no page of the root collection is in the folder of another collection. -/
structure AreTidy (collections : Collections) : Prop where
  keys : ∀ entry ∈ collections, Path.IsName entry.1
  pages : ∀ entry ∈ collections, ∀ page ∈ entry.2.pages, IsClean page.pathname
  apart : ∀ entry ∈ collections, entry.2.pages.Pairwise fun page other =>
    Apart (Path.names page.pathname) (Path.names other.pathname)
  root : ∀ first ∈ collections, ∀ second ∈ collections, first.1 = rootCollection →
    second.1 ≠ rootCollection → ∀ page ∈ first.2.pages,
      (Path.names page.pathname).head? ≠ some second.1

theorem areRelative_project : AreRelative (project site collections) := by
  intro file hfile
  refine ⟨isAbsolute_of_mem_project hfile, ?_⟩
  rcases mem_project.mp hfile with rfl | ⟨entry, -, rfl | ⟨page, -, rfl⟩⟩
  · rw [pathname_configFile]
    decide
  · rw [pathname_layoutFile]
    simp
  · rw [pathname_pageFile]
    simp

theorem segments_configFile :
    Path.segments (configFile site.baseUrl site.title).pathname = ["config.toml"] := by
  rw [pathname_configFile]
  decide

theorem isName_extended (hkey : Path.IsName key) : Path.IsName (key ++ ".html") where
  ne_empty := by simp
  slash_notMem := by
    rw [String.toList_append, List.mem_append, not_or]
    exact ⟨hkey.slash_notMem, by decide⟩
  ne_here := by
    intro heq
    have hlength := congrArg String.length heq
    rw [String.length_append] at hlength
    have hhere : Path.here.length = 1 := by decide
    have hextension : ".html".length = 5 := by decide
    omega
  ne_above := by
    intro heq
    have hlength := congrArg String.length heq
    rw [String.length_append] at hlength
    have habove : Path.above.length = 2 := by decide
    have hextension : ".html".length = 5 := by decide
    omega

theorem segments_layoutFile (layout : Layout) (hkey : Path.IsName key) :
    Path.segments (layoutFile layout key).pathname = ["layouts", "_default", key ++ ".html"] := by
  have hslash : Path.endsInSlash (layoutFile layout key).pathname = false := by
    rw [pathname_layoutFile, Path.endsInSlash_append _ (by decide)]
    decide
  rw [Path.segments_eq_names hslash, names_layoutFile, Path.names_of_isName (isName_extended hkey)]

/-- The names between `content` and those of a page. -/
def location (key : String) : List String :=
  if key = rootCollection then [] else [key]

theorem segments_pageFile (hkey : Path.IsName key) (hpage : IsClean page.pathname) :
    Path.segments (pageFile page key).pathname =
      "content" :: (location key ++ Path.names page.pathname) := by
  have hslash : Path.endsInSlash (pageFile page key).pathname = false := by
    rw [pathname_pageFile, Path.endsInSlash_append _ hpage.ne_empty, hpage.endsInSlash]
  rw [Path.segments_eq_names hslash, names_pageFile, Path.names_of_isName hkey]
  rfl

/-- The segments of the files of a collection. -/
theorem AreTidy.segments_eq
    {entry : String × Collection} {file : File} (h : AreTidy collections)
    (hentry : entry ∈ collections) (hfile : file ∈ collectionFiles entry) :
    Path.segments file.pathname = ["layouts", "_default", entry.1 ++ ".html"] ∨
      ∃ page ∈ entry.2.pages, Path.segments file.pathname =
        "content" :: (location entry.1 ++ Path.names page.pathname) := by
  have hkey := h.keys entry hentry
  rw [collectionFiles, List.mem_cons, List.mem_map] at hfile
  rcases hfile with rfl | ⟨page, hpage, rfl⟩
  · left
    exact segments_layoutFile entry.2.layout hkey
  · right
    exact ⟨page, hpage, segments_pageFile hkey (h.pages entry hentry page hpage)⟩

theorem AreTidy.arePlain
    {entry : String × Collection} {file : File} (h : AreTidy collections)
    (hentry : entry ∈ collections) (hfile : file ∈ collectionFiles entry) :
    ArePlain (Path.segments file.pathname) := by
  apply arePlain_of_isName
  have hkey := h.keys entry hentry
  rcases h.segments_eq hentry hfile with heq | ⟨page, hpage, heq⟩
  · rw [heq]
    intro name hname
    simp only [List.mem_cons, List.not_mem_nil, or_false] at hname
    rcases hname with rfl | rfl | rfl
    · decide
    · decide
    · exact isName_extended hkey
  · rw [heq]
    intro name hname
    rw [List.mem_cons, List.mem_append, location] at hname
    rcases hname with rfl | hlocation | hmem
    · decide
    · split at hlocation
      · exact absurd hlocation List.not_mem_nil
      · rwa [List.mem_singleton.mp hlocation]
    · exact (h.pages entry hentry page hpage).isName name hmem

/-- The files of one collection are apart. -/
theorem AreTidy.apart_collectionFiles
    {entry : String × Collection} (h : AreTidy collections) (hentry : entry ∈ collections) :
    (collectionFiles entry).Pairwise fun file other =>
      Apart (Path.segments file.pathname) (Path.segments other.pathname) := by
  have hkey := h.keys entry hentry
  rw [collectionFiles, List.pairwise_cons, List.pairwise_map]
  constructor
  · intro file hfile
    obtain ⟨page, hpage, rfl⟩ := List.mem_map.mp hfile
    rw [segments_layoutFile _ hkey, segments_pageFile hkey (h.pages entry hentry page hpage)]
    exact apart_of_head_ne (by decide)
  · refine (h.apart entry hentry).imp_of_mem ?_
    intro page other hpage hother hapart
    rw [segments_pageFile hkey (h.pages entry hentry page hpage),
      segments_pageFile hkey (h.pages entry hentry other hother), apart_cons]
    rwa [Apart, List.prefix_append_right_inj, List.prefix_append_right_inj]

/-- Pages of two collections are apart. -/
theorem AreTidy.apart_pages
    {first second : String × Collection} (h : AreTidy collections)
    (hfirst : first ∈ collections) (hsecond : second ∈ collections) (hne : first.1 ≠ second.1)
    (hpage : page ∈ first.2.pages) (hother : otherPage ∈ second.2.pages) :
    Apart (location first.1 ++ Path.names page.pathname)
      (location second.1 ++ Path.names otherPage.pathname) := by
  obtain ⟨name, names, hnames⟩ :=
    List.exists_cons_of_ne_nil (h.pages first hfirst page hpage).ne_nil
  obtain ⟨next, others, hothers⟩ :=
    List.exists_cons_of_ne_nil (h.pages second hsecond otherPage hother).ne_nil
  rw [location, location]
  by_cases hroot : first.1 = rootCollection
  · have hfolder : second.1 ≠ rootCollection := fun heq => hne (hroot.trans heq.symm)
    have hhead := h.root first hfirst second hsecond hroot hfolder page hpage
    rw [hnames, List.head?_cons, ne_eq, Option.some.injEq] at hhead
    rw [if_pos hroot, if_neg hfolder, hnames]
    exact apart_of_head_ne hhead
  by_cases hotherRoot : second.1 = rootCollection
  · have hhead := h.root second hsecond first hfirst hotherRoot hroot otherPage hother
    rw [hothers, List.head?_cons, ne_eq, Option.some.injEq] at hhead
    rw [if_neg hroot, if_pos hotherRoot, hothers]
    exact apart_of_head_ne (Ne.symm hhead)
  · rw [if_neg hroot, if_neg hotherRoot]
    exact apart_of_head_ne hne

/-- Files of two collections are apart. -/
theorem AreTidy.apart_of_ne
    {first second : String × Collection} {file other : File} (h : AreTidy collections)
    (hfirst : first ∈ collections) (hsecond : second ∈ collections) (hne : first.1 ≠ second.1)
    (hfile : file ∈ collectionFiles first) (hother : other ∈ collectionFiles second) :
    Apart (Path.segments file.pathname) (Path.segments other.pathname) := by
  rcases h.segments_eq hfirst hfile with heq | ⟨page, hpage, heq⟩
  · rcases h.segments_eq hsecond hother with hlast | ⟨otherPage, -, hlast⟩
    · rw [heq, hlast, apart_cons, apart_cons]
      exact apart_of_head_ne fun hkey => hne ((String.append_left_inj _).mp hkey)
    · rw [heq, hlast]
      exact apart_of_head_ne (by decide)
  · rcases h.segments_eq hsecond hother with hlast | ⟨otherPage, hotherPage, hlast⟩
    · rw [heq, hlast]
      exact apart_of_head_ne (by decide)
    · rw [heq, hlast, apart_cons]
      exact h.apart_pages hfirst hsecond hne hpage hotherPage

/-- The generated files of tidy collections are at places that are apart. -/
theorem AreTidy.separate_project (h : AreTidy collections)
    (hkeys : (collections.map Prod.fst).Nodup) : Separate (project site collections) := by
  rw [project_eq]
  constructor
  · rw [List.forall_mem_cons]
    constructor
    · rw [segments_configFile]
      exact arePlain_of_isName (by decide)
    · intro file hfile
      obtain ⟨entry, hentry, hmem⟩ := List.mem_flatMap.mp hfile
      exact h.arePlain hentry hmem
  · rw [List.pairwise_cons, List.pairwise_flatMap]
    refine ⟨?_, fun entry hentry => h.apart_collectionFiles hentry, ?_⟩
    · intro file hfile
      obtain ⟨entry, hentry, hmem⟩ := List.mem_flatMap.mp hfile
      rw [segments_configFile]
      rcases h.segments_eq hentry hmem with heq | ⟨page, -, heq⟩
      · rw [heq]
        exact apart_of_head_ne (by decide)
      · rw [heq]
        exact apart_of_head_ne (by decide)
    · refine (List.pairwise_map.mp hkeys).imp_of_mem ?_
      intro first second hfirst hsecond hne file hfile other hother
      exact h.apart_of_ne hfirst hsecond hne hfile hother

/-! ## Writing a project -/

/-- Files can be written in any order: nothing keeps them from being written into an empty output
directory, and if they can be written in one order then they can in every other, with all of them
and everything else where it was in the end. -/
structure AnyOrder (files : List File) : Prop where
  possible : ∀ (now modified : Nat) (output : String) (tree : FileTree) (order : List File),
    tree.find? output = some (.empty modified) →
    (∀ file ∈ files, ∀ name ∈ Path.segments file.pathname, isStorable name = true) →
    order.Perm files →
    ∃ later, (writes output order).forM (Change.perform now) tree = .ok () later
  same : ∀ (now : Nat) (output : String) (tree later : FileTree) (first second : List File),
    tree.isDirectoryAt output = true → first.Perm files → second.Perm files →
    (writes output first).forM (Change.perform now) tree = .ok () later →
    ∃ other, (writes output second).forM (Change.perform now) tree = .ok () other ∧
      (∀ place, other.look place = later.look place) ∧
      ∀ file ∈ files, other.contents? (Path.join output file.pathname) =
        some file.contents.toUTF8

/-- Files at places that are apart can be written in any order. -/
theorem Separate.anyOrder {files : List File} (h : Separate files) (hrelative : AreRelative files) :
    AnyOrder files := by
  constructor
  · intro now modified output tree order houtput hstorable horder
    apply exists_perform_writes_of_empty houtput (hrelative.perm horder) (h.perm horder)
    intro file hfile
    exact hstorable file (horder.mem_iff.mp hfile)
  · intro now output tree later first second houtput hfirst hsecond hlater
    obtain ⟨other, hother, hlook, hcontents⟩ := perform_writes_perm houtput
      (hrelative.perm hfirst) (h.perm hfirst) (hfirst.trans hsecond.symm) hlater
    exact ⟨other, hother, hlook, fun file hfile => hcontents file (hfirst.mem_iff.mpr hfile)⟩

/-- The generated files have distinct pathnames unless a page of one collection is called like a
page of another, and can be written in any order when they are at places that are apart, as they are
for tidy collections. -/
theorem pathnames_project (site : SiteSettings) (collections : Collections)
    (hkeys : (collections.map Prod.fst).Nodup)
    (hpages : ∀ entry ∈ collections, (entry.2.pages.map Page.pathname).Nodup) :
    (((project site collections).map File.pathname).Nodup ↔
      ∀ first ∈ collections, ∀ second ∈ collections, first.1 ≠ second.1 →
        ∀ page ∈ first.2.pages, ∀ other ∈ second.2.pages,
          ¬Collide first.1 page second.1 other) ∧
      (Separate (project site collections) → AnyOrder (project site collections)) ∧
      (AreTidy collections → Separate (project site collections)) :=
  ⟨nodup_pathnames_iff hkeys hpages, fun h => h.anyOrder areRelative_project,
    fun h => h.separate_project hkeys⟩

/-- A collection of pages with these pathnames and nothing else. -/
def bareCollection (pathnames : List String) : Collection :=
  { pages := pathnames.map fun pathname => { pathname, data := [], content := [], source := [] }
    layout := ⟨[]⟩
    warnings := [] }

/-- Pages at the root of the site and posts in a folder. -/
def postCollections : Collections :=
  [("pages", bareCollection ["index.html", "about.html"]),
    ("posts", bareCollection ["a.html", "b.html"])]

theorem pathnames_project_of_posts :
    (postCollections.map Prod.fst).Nodup ∧
      (∀ entry ∈ postCollections, (entry.2.pages.map Page.pathname).Nodup) ∧
      (∀ first ∈ postCollections, ∀ second ∈ postCollections, first.1 ≠ second.1 →
        ∀ page ∈ first.2.pages, ∀ other ∈ second.2.pages,
          ¬Collide first.1 page second.1 other) ∧
      AreTidy postCollections ∧ Separate (project {} postCollections) ∧
      AnyOrder (project {} postCollections) ∧
      ∃ later, (writes "hugo" (project {} postCollections).reverse).forM (Change.perform 1)
        (.directory [("hugo", .empty 0)] 0) = .ok () later := by
  have hkeys : (postCollections.map Prod.fst).Nodup := by
    decide
  have hpages : ∀ entry ∈ postCollections, (entry.2.pages.map Page.pathname).Nodup := by
    decide
  have htidy : AreTidy postCollections :=
    { keys := by decide
      pages := by decide
      apart := by decide
      root := by decide }
  obtain ⟨hnodup, horder, hseparate⟩ := pathnames_project {} postCollections hkeys hpages
  have hany := horder (hseparate htidy)
  refine ⟨hkeys, hpages, hnodup.mp (by decide), htidy, hseparate htidy, hany, ?_⟩
  exact hany.possible 1 0 "hugo" _ _ rfl (by decide) (List.reverse_perm _)

/-- Posts in a folder, and a page of the root collection that lies in a folder of this name. -/
def twinCollections : Collections :=
  [("pages", bareCollection ["posts/a.html"]), ("posts", bareCollection ["a.html"])]

/-- The files are found as they were written, unless writing them failed. -/
def readsBack (output : String) (files : List File) : EStateM.Result Failure FileTree Unit → Bool
  | .ok _ tree => files.all fun file =>
      (tree.contents? (Path.join output file.pathname)).any fun contents =>
        decide (contents.data = file.contents.toUTF8.data)
  | .error _ _ => true

theorem AnyOrder.readsBack {files : List File} (h : AnyOrder files) (now : Nat) (output : String)
    (tree : FileTree) (houtput : tree.isDirectoryAt output = true) :
    readsBack output files ((writes output files).forM (Change.perform now) tree) = true := by
  cases hlater : (writes output files).forM (Change.perform now) tree with
  | error failure later => rfl
  | ok last later =>
      obtain ⟨other, hother, -, hcontents⟩ := h.same now output tree later files files houtput
        (List.Perm.refl files) (List.Perm.refl files) hlater
      obtain rfl : later = other := (EStateM.Result.ok.inj (hlater.symm.trans hother)).2
      rw [Hugo.readsBack, List.all_eq_true]
      intro file hfile
      rw [hcontents file hfile]
      exact decide_eq_true rfl

/-- Posts in two folders that are one place. -/
def windingCollections : Collections :=
  [("posts", bareCollection ["a.html"]), ("drafts/../posts", bareCollection ["a.html"])]

/-- Pages of two collections can have one pathname, and files with different pathnames can still be
written to one place. -/
theorem not_nodup_pathnames :
    (¬∀ (site : SiteSettings) (collections : Collections), (collections.map Prod.fst).Nodup →
      (∀ entry ∈ collections, (entry.2.pages.map Page.pathname).Nodup) →
      ((project site collections).map File.pathname).Nodup) ∧
    ¬∀ (site : SiteSettings) (collections : Collections), (collections.map Prod.fst).Nodup →
      (∀ entry ∈ collections, (entry.2.pages.map Page.pathname).Nodup) →
      ((project site collections).map File.pathname).Nodup →
      AnyOrder (project site collections) := by
  constructor
  · intro hnodup
    have htwins := hnodup {} twinCollections (by decide) (by decide)
    exact absurd htwins (by decide)
  · intro horder
    have hwinding := horder {} windingCollections (by decide) (by decide) (by decide)
    let tree : FileTree := .directory [("hugo", .empty 0)] 0
    have hread := hwinding.readsBack 1 "hugo" tree (by decide)
    have hlost : readsBack "hugo" (project {} windingCollections)
        ((writes "hugo" (project {} windingCollections)).forM (Change.perform 1) tree) = false := by
      decide +kernel
    exact absurd (hread.symm.trans hlost) (by decide)

end Hugo

end Stencil
