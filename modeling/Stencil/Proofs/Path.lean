import Mathlib.Data.List.Basic
import Stencil.FileTree

/-!
# Paths and places

Without links, a path leads to a place that can be told from its segments alone (`Path.land`).
Joining two paths joins their names, so what lies below a directory is told by the path of the
directory and the names after it (`Path.land_join`).
-/

namespace Stencil

namespace Path

/-! ## Pieces -/

theorem pieces_ne_nil (cs : List Char) : pieces cs ≠ [] := by
  cases cs with
  | nil => simp [pieces]
  | cons c cs =>
      rw [pieces]
      split
      · simp
      · split <;> simp

@[simp]
theorem pieces_cons_slash (cs : List Char) : pieces ('/' :: cs) = [] :: pieces cs :=
  rfl

/-- A character other than a slash belongs to the first piece. -/
theorem pieces_cons
    {c : Char} {cs piece : List Char} {rest : List (List Char)} (hc : c ≠ '/')
    (hcs : pieces cs = piece :: rest) : pieces (c :: cs) = (c :: piece) :: rest := by
  rw [pieces, if_neg hc, hcs]

/-- The last piece of a text and the first piece of the next one become one. -/
theorem pieces_append
    {before after last head : List Char} {init rest : List (List Char)}
    (hbefore : pieces before = init ++ [last]) (hafter : pieces after = head :: rest) :
    pieces (before ++ after) = init ++ (last ++ head) :: rest := by
  induction before generalizing init last with
  | nil =>
      obtain ⟨rfl, hlast⟩ : init = [] ∧ [last] = [[]] :=
        List.append_eq_singleton_iff.mp hbefore.symm |>.resolve_right (by simp)
      cases hlast
      exact hafter
  | cons c before ih =>
      by_cases hc : c = '/'
      · subst hc
        rw [pieces_cons_slash] at hbefore
        cases init with
        | nil => exact absurd (List.cons.inj hbefore).2 (pieces_ne_nil before)
        | cons first init =>
            obtain ⟨rfl, hinit⟩ := List.cons.inj hbefore
            rw [List.cons_append, pieces_cons_slash, ih hinit]
            rfl
      · obtain ⟨piece, more, hmore⟩ := List.exists_cons_of_ne_nil (pieces_ne_nil before)
        rw [pieces_cons hc hmore] at hbefore
        cases init with
        | nil =>
            obtain ⟨rfl, rfl⟩ := List.cons.inj hbefore
            have hlast : pieces before = [] ++ [piece] := hmore
            exact pieces_cons hc (ih hlast)
        | cons first init =>
            obtain ⟨rfl, rfl⟩ := List.cons.inj hbefore
            have hlast : pieces before = piece :: init ++ [last] := hmore
            exact pieces_cons hc (ih hlast)

/-- A slash sets the pieces of two texts apart. -/
theorem pieces_append_slash (before after : List Char) :
    pieces (before ++ '/' :: after) = pieces before ++ pieces after := by
  obtain ⟨init, last, hbefore⟩ := List.eq_nil_or_concat'  (pieces before) |>.resolve_left
    (pieces_ne_nil before)
  rw [pieces_append hbefore (pieces_cons_slash after), hbefore, List.append_nil]
  simp

/-- A text without slashes is a single piece. -/
theorem pieces_of_notMem {cs : List Char} (hslash : '/' ∉ cs) : pieces cs = [cs] := by
  induction cs with
  | nil => rfl
  | cons c cs ih =>
      rw [List.mem_cons, not_or] at hslash
      exact pieces_cons (Ne.symm hslash.1) (ih hslash.2)

/-! ## Names -/

/-- The names on a path: its segments, without the one that a slash at the end stands for. -/
def names (path : String) : List String :=
  ((pieces path.toList).filter (!·.isEmpty)).map String.ofList

theorem segments_eq (path : String) :
    segments path =
      if endsInSlash path && !(names path).isEmpty then names path ++ [here] else names path :=
  rfl

/-- The names after those of `base`. -/
theorem names_append_slash (base path : String) :
    names (base ++ "/" ++ path) = names base ++ names path := by
  have hchars : (base ++ "/" ++ path).toList = base.toList ++ '/' :: path.toList := by simp
  rw [names, hchars, pieces_append_slash, List.filter_append, List.map_append]
  rfl

@[simp]
theorem names_empty : names "" = [] :=
  rfl

theorem exists_of_endsInSlash {path : String} (h : endsInSlash path = true) :
    ∃ front, path = front ++ "/" := by
  rw [endsInSlash, beq_iff_eq] at h
  obtain ⟨front, hfront⟩ := List.getLast?_eq_some_iff.mp h
  refine ⟨.ofList front, ?_⟩
  rw [← String.toList_inj, hfront]
  simp

/-- Joining paths joins their names. -/
theorem names_join {base path : String} (hpath : isAbsolute path = false) :
    names (join base path) = names base ++ names path := by
  rw [join, hpath, if_neg (by simp)]
  split
  case isFalse => exact names_append_slash base path
  case isTrue hbase =>
      rw [Bool.or_eq_true, decide_eq_true_iff] at hbase
      rcases hbase with rfl | hslash
      · rw [names_empty, String.empty_append]
        rfl
      · obtain ⟨front, rfl⟩ := exists_of_endsInSlash hslash
        have hfront := names_append_slash front ""
        rw [String.append_empty, names_empty, List.append_nil] at hfront
        rw [hfront, names_append_slash]

/-- A relative path has a name. -/
theorem names_ne_nil {path : String} (hpath : isAbsolute path = false) (hne : path ≠ "") :
    names path ≠ [] := by
  have hsome : path.toList ≠ [] := by simpa using hne
  obtain ⟨c, cs, hchars⟩ := List.exists_cons_of_ne_nil hsome
  have hc : c ≠ '/' := by
    rintro rfl
    rw [isAbsolute, hchars] at hpath
    simp at hpath
  obtain ⟨piece, rest, hpieces⟩ := List.exists_cons_of_ne_nil (pieces_ne_nil cs)
  rw [names, hchars, pieces_cons hc hpieces]
  simp

theorem segments_ne_nil {path : String} (hpath : isAbsolute path = false) (hne : path ≠ "") :
    segments path ≠ [] := by
  rw [segments_eq]
  split
  · simp
  · exact names_ne_nil hpath hne

/-- Below a directory come the segments of the path from there. -/
theorem segments_join
    {base path : String} (hpath : isAbsolute path = false) (hne : path ≠ "") :
    segments (join base path) = names base ++ segments path := by
  have hsome := names_ne_nil hpath hne
  have hchars : path.toList ≠ [] := by simpa using hne
  obtain ⟨front, last, hlast⟩ := List.eq_nil_or_concat' path.toList |>.resolve_left hchars
  have hslash : endsInSlash (join base path) = endsInSlash path := by
    rw [join, hpath, if_neg (by simp)]
    split
    · simp [endsInSlash, hlast]
    · simp [endsInSlash, hlast, List.getLast?_cons]
  rw [segments_eq, segments_eq, hslash, names_join hpath]
  cases endsInSlash path <;> simp [hsome]

theorem endsInSlash_append (front : String) {rest : String} (hrest : rest ≠ "") :
    endsInSlash (front ++ rest) = endsInSlash rest := by
  have hsome : rest.toList ≠ [] := by simpa using hrest
  rw [endsInSlash, endsInSlash, String.toList_append, List.getLast?_append_of_ne_nil _ hsome]

theorem segments_eq_names {path : String} (h : endsInSlash path = false) :
    segments path = names path := by
  rw [segments_eq, h]
  rfl

theorem isAbsolute_append {front : String} (rest : String) (hfront : front ≠ "") :
    isAbsolute (front ++ rest) = isAbsolute front := by
  have hsome : front.toList ≠ [] := by simpa using hfront
  obtain ⟨c, cs, hchars⟩ := List.exists_cons_of_ne_nil hsome
  simp [isAbsolute, hchars]

/-! ## Names that are put together -/

/-- A file or a directory can have this name. -/
structure IsName (name : String) : Prop where
  ne_empty : name ≠ ""
  slash_notMem : '/' ∉ name.toList
  ne_here : name ≠ here
  ne_above : name ≠ above

theorem isName_iff {name : String} :
    (name ≠ "" ∧ '/' ∉ name.toList ∧ name ≠ here ∧ name ≠ above) ↔ IsName name := by
  constructor
  · rintro ⟨hempty, hslash, hhere, habove⟩
    exact ⟨hempty, hslash, hhere, habove⟩
  · rintro ⟨hempty, hslash, hhere, habove⟩
    exact ⟨hempty, hslash, hhere, habove⟩

instance (name : String) : Decidable (IsName name) :=
  decidable_of_iff _ isName_iff

theorem names_of_isName {name : String} (h : IsName name) : names name = [name] := by
  rw [names, pieces_of_notMem h.slash_notMem]
  simp [h.ne_empty]

theorem isAbsolute_intercalate {place : List String} (h : ∀ name ∈ place, IsName name) :
    isAbsolute ("/".intercalate place) = false := by
  cases place with
  | nil => rfl
  | cons name place =>
      have hname := h name List.mem_cons_self
      have hsome : name.toList ≠ [] := by simpa using hname.ne_empty
      obtain ⟨c, cs, hchars⟩ := List.exists_cons_of_ne_nil hsome
      have hc : c ≠ '/' := by
        rintro rfl
        exact hname.slash_notMem (by simp [hchars])
      have hhead : ("/".intercalate (name :: place)).toList.head? = some c := by
        cases place with
        | nil => simp [hchars]
        | cons next place => simp [hchars]
      rw [isAbsolute, hhead]
      simpa using hc

theorem intercalate_cons_cons (name next : String) (place : List String) :
    "/".intercalate (name :: next :: place) = name ++ "/" ++ "/".intercalate (next :: place) := by
  rw [← String.toList_inj]
  simp

theorem intercalate_ne_empty {place : List String} (hplace : place ≠ [])
    (h : ∀ name ∈ place, IsName name) : "/".intercalate place ≠ "" := by
  obtain ⟨name, rest, rfl⟩ := List.exists_cons_of_ne_nil hplace
  have hname := (h name List.mem_cons_self).ne_empty
  cases rest with
  | nil => simpa using hname
  | cons next rest =>
      rw [intercalate_cons_cons]
      simp

theorem endsInSlash_intercalate {place : List String} (h : ∀ name ∈ place, IsName name) :
    endsInSlash ("/".intercalate place) = false := by
  induction place with
  | nil => rfl
  | cons name place ih =>
      obtain ⟨hname, hplace⟩ := List.forall_mem_cons.mp h
      cases place with
      | nil =>
          by_contra hslash
          rw [Bool.not_eq_false] at hslash
          obtain ⟨front, hfront⟩ := exists_of_endsInSlash hslash
          have hmem : '/' ∈ ("/".intercalate [name]).toList := by simp [hfront]
          exact hname.slash_notMem (by simpa using hmem)
      | cons next place =>
          rw [intercalate_cons_cons, endsInSlash_append _ (intercalate_ne_empty (by simp) hplace)]
          exact ih hplace

/-- The names on a path are those it is put together from. -/
theorem names_intercalate {place : List String} (h : ∀ name ∈ place, IsName name) :
    names ("/".intercalate place) = place := by
  induction place with
  | nil => rfl
  | cons name place ih =>
      obtain ⟨hname, hplace⟩ := List.forall_mem_cons.mp h
      cases place with
      | nil => exact names_of_isName hname
      | cons next place =>
          rw [intercalate_cons_cons, names_append_slash, ih hplace, names_of_isName hname]
          rfl

/-- An extension changes only the last name. -/
theorem mem_names_append
    {path extension name : String} (hextension : '/' ∉ extension.toList)
    (hname : name ∈ names (path ++ extension)) :
    name ∈ names path ∨ ∃ stem, name = stem ++ extension := by
  obtain ⟨init, last, hinit⟩ := List.eq_nil_or_concat' (pieces path.toList) |>.resolve_left
    (pieces_ne_nil _)
  have hpieces := pieces_append hinit (pieces_of_notMem hextension)
  rw [names, String.toList_append, hpieces] at hname
  obtain ⟨piece, hpiece, rfl⟩ := List.mem_map.mp hname
  obtain ⟨hmem, hsome⟩ := List.mem_filter.mp hpiece
  rcases List.mem_append.mp hmem with hfront | hback
  · left
    rw [names, hinit]
    exact List.mem_map.mpr ⟨piece, by simp [hfront, hsome], rfl⟩
  · right
    obtain rfl := List.mem_singleton.mp hback
    exact ⟨.ofList last, by rw [← String.toList_inj]; simp⟩

/-! ## The place of a path -/

/-- Where segments lead from a place. -/
def land : Place → List String → Place
  | place, [] => place
  | place, segment :: segments =>
    if segment = here then land place segments
    else if segment = above then land place.dropLast segments
    else land (place ++ [segment]) segments

/-- Where an absolute path leads, whether there is anything or not. -/
def landing (path : String) : Place :=
  land [] (segments path)

theorem land_append (place : Place) (before after : List String) :
    land place (before ++ after) = land (land place before) after := by
  induction before generalizing place with
  | nil => rfl
  | cons segment before ih =>
      rw [List.cons_append, land, land]
      split
      · exact ih place
      · split
        · exact ih place.dropLast
        · exact ih (place ++ [segment])

/-- Segments that do not lead up lead down. -/
theorem prefix_land {segments : List String} (place : Place) (habove : above ∉ segments) :
    place <+: land place segments := by
  induction segments generalizing place with
  | nil => exact List.prefix_refl place
  | cons segment segments ih =>
      rw [List.mem_cons, not_or] at habove
      rw [land]
      split
      · exact ih place habove.2
      · rw [if_neg (Ne.symm habove.1)]
        exact (List.prefix_append place [segment]).trans (ih (place ++ [segment]) habove.2)

theorem landing_eq (path : String) : landing path = land [] (names path) := by
  rw [landing, segments_eq]
  split
  · rw [land_append]
    rfl
  · rfl

/-- What lies below a directory is where the names lead from there. -/
theorem landing_join {base path : String} (hpath : isAbsolute path = false) :
    landing (join base path) = land (landing base) (names path) := by
  rw [landing_eq, names_join hpath, land_append, ← landing_eq]

end Path

end Stencil
