import Stencil.Hugo.Project
import Stencil.Proofs.Path

/-!
# The files of a project

A generated file is the settings of the site, the template of a collection or a page of one.  All
of them are called by names below the output directory, and none leads out of it unless the key of
a collection or the pathname of a page does (`above_notMem_project`).
-/

namespace Stencil

namespace Hugo

/-- What comes before the pathname of a page, below `content`. -/
def folder (key : String) : String :=
  if key = rootCollection then "" else key ++ "/"

theorem pathname_configFile (baseUrl title : String) :
    (configFile baseUrl title).pathname = "config.toml" :=
  rfl

theorem pathname_layoutFile (layout : Layout) (key : String) :
    (layoutFile layout key).pathname = "layouts/_default/" ++ key ++ ".html" :=
  rfl

theorem pathname_pageFile (page : Page) (key : String) :
    (pageFile page key).pathname = "content/" ++ folder key ++ page.pathname :=
  rfl

variable {site : SiteSettings} {collections : Collections} {file : File}

theorem mem_project :
    file ∈ project site collections ↔
      file = configFile site.baseUrl site.title ∨
        ∃ entry ∈ collections, file = layoutFile entry.2.layout entry.1 ∨
          ∃ page ∈ entry.2.pages, file = pageFile page entry.1 := by
  simp [project, List.mem_flatMap, eq_comm]

/-! ## Names of the pathnames -/

theorem names_layoutFile (layout : Layout) (key : String) :
    Path.names (layoutFile layout key).pathname =
      "layouts" :: "_default" :: Path.names (key ++ ".html") := by
  have hsplit : (layoutFile layout key).pathname =
      "layouts" ++ "/" ++ ("_default" ++ "/" ++ (key ++ ".html")) := by
    have hfront : "layouts/_default/" = "layouts" ++ "/" ++ ("_default" ++ "/") := by decide
    rw [pathname_layoutFile, hfront]
    simp only [String.append_assoc]
  rw [hsplit, Path.names_append_slash, Path.names_append_slash]
  rfl

theorem names_pageFile (page : Page) (key : String) :
    Path.names (pageFile page key).pathname =
      "content" ::
        ((if key = rootCollection then [] else Path.names key) ++ Path.names page.pathname) := by
  rw [pathname_pageFile, folder]
  split
  · have hsplit : "content/" ++ "" ++ page.pathname = "content" ++ "/" ++ page.pathname := by
      have hfront : "content/" = "content" ++ "/" := by decide
      rw [hfront, String.append_empty]
    rw [hsplit, Path.names_append_slash]
    rfl
  · have hsplit : "content/" ++ (key ++ "/") ++ page.pathname =
        "content" ++ "/" ++ (key ++ "/" ++ page.pathname) := by
      have hfront : "content/" = "content" ++ "/" := by decide
      rw [hfront]
      simp only [String.append_assoc]
    rw [hsplit, Path.names_append_slash, Path.names_append_slash]
    rfl

theorem isAbsolute_of_mem_project (h : file ∈ project site collections) :
    Path.isAbsolute file.pathname = false := by
  rcases mem_project.mp h with rfl | ⟨entry, -, rfl | ⟨page, -, rfl⟩⟩
  · rw [pathname_configFile]
    decide
  · rw [pathname_layoutFile, String.append_assoc, Path.isAbsolute_append _ (by decide)]
    decide
  · rw [pathname_pageFile, String.append_assoc, Path.isAbsolute_append _ (by decide)]
    decide

/-- No generated file leads up if no key and no pathname does. -/
theorem above_notMem_project
    (hkeys : ∀ entry ∈ collections, Path.above ∉ Path.names entry.1)
    (hpages : ∀ entry ∈ collections, ∀ page ∈ entry.2.pages,
      Path.above ∉ Path.names page.pathname)
    (h : file ∈ project site collections) : Path.above ∉ Path.names file.pathname := by
  rcases mem_project.mp h with rfl | ⟨entry, hentry, rfl | ⟨page, hpage, rfl⟩⟩
  · rw [pathname_configFile]
    decide
  · rw [names_layoutFile, List.mem_cons, List.mem_cons]
    rintro (heq | heq | hmem)
    · exact absurd heq (by decide)
    · exact absurd heq (by decide)
    · rcases Path.mem_names_append (by decide) hmem with hkey | ⟨stem, heq⟩
      · exact hkeys entry hentry hkey
      · have hlength := congrArg String.length heq
        rw [String.length_append] at hlength
        have habove : Path.above.length = 2 := by decide
        have hextension : ".html".length = 5 := by decide
        omega
  · have hpathname := hpages entry hentry page hpage
    have hkey := hkeys entry hentry
    rw [names_pageFile, List.mem_cons, List.mem_append]
    rintro (heq | hmem | hmem)
    · exact absurd heq (by decide)
    · split at hmem
      · exact absurd hmem List.not_mem_nil
      · exact hkey hmem
    · exact hpathname hmem

end Hugo

end Stencil
