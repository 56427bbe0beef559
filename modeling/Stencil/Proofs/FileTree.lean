import Stencil.Proofs.Path

/-!
# What a file tree holds

What a tree holds at a place is a directory, a file or nothing (`FileTree.look`), and apart from the
times of directories this is all of it.  Putting something at a place makes directories on the way
to it and leaves every place apart from it as it was (`at?_put_of_apart`), as removing does
(`at?_remove_of_apart`).  A path that can be followed leads to the place that its segments tell
(`eq_land_of_follow`).
-/

namespace Stencil

namespace FileTree

/-! ## Entries -/

section Entries

variable {name other : String} {tree : FileTree} {entries : List (String × FileTree)}

theorem lookup_cons_of_ne (hne : other ≠ name) :
    ((name, tree) :: entries).lookup other = entries.lookup other := by
  have hfalse : (other == name) = false := by simpa using hne
  rw [List.lookup_cons, hfalse]

@[simp]
theorem lookup_setEntry_self : (setEntry name tree entries).lookup name = some tree := by
  induction entries with
  | nil => exact List.lookup_cons_self
  | cons entry entries ih =>
      rw [setEntry]
      split
      · exact List.lookup_cons_self
      · split
        · exact List.lookup_cons_self
        · next hne _ => rw [lookup_cons_of_ne hne, ih]

/-- The entries of other names are left as they were. -/
theorem lookup_setEntry_of_ne (hne : other ≠ name) :
    (setEntry name tree entries).lookup other = entries.lookup other := by
  induction entries with
  | nil => exact lookup_cons_of_ne hne
  | cons entry entries ih =>
      rw [setEntry]
      split
      · next heq =>
          subst heq
          rw [lookup_cons_of_ne hne, lookup_cons_of_ne hne]
      · split
        · exact lookup_cons_of_ne hne
        · rw [List.lookup_cons, List.lookup_cons, ih]

theorem lookup_filter_of_ne (hne : other ≠ name) :
    (entries.filter (·.1 != name)).lookup other = entries.lookup other := by
  induction entries with
  | nil => rfl
  | cons entry entries ih =>
      obtain ⟨known, knownTree⟩ := entry
      by_cases hname : known = name
      · subst hname
        rw [List.filter_cons_of_neg (by simp), ih, lookup_cons_of_ne hne]
      · rw [List.filter_cons_of_pos (by simpa using hname), List.lookup_cons, List.lookup_cons, ih]

end Entries

/-! ## Places -/

/-- Neither place is on the way to the other. -/
def Apart (place other : Place) : Prop :=
  ¬place <+: other ∧ ¬other <+: place

instance (place other : Place) : Decidable (Apart place other) :=
  inferInstanceAs (Decidable (_ ∧ _))

theorem Apart.symm {place other : Place} (h : Apart place other) : Apart other place :=
  And.symm h

/-- What a tree is by itself, without what is in it.  The time of a directory is left out, because
it changes with what is in it. -/
inductive Kind where
  | directory
  | file (contents : ByteArray) (modified : Nat)

/-- The kind of a tree. -/
def kind : FileTree → Kind
  | .directory .. => .directory
  | .file contents modified => .file contents modified

/-- What a tree holds at a place. -/
def look (tree : FileTree) (place : Place) : Option Kind :=
  (tree.at? place).map kind

variable {tree new : FileTree} {place other : Place} {name : String}

theorem at?_append : tree.at? (place ++ other) = (tree.at? place).bind (·.at? other) := by
  induction place generalizing tree with
  | nil => rfl
  | cons name place ih =>
      rw [List.cons_append, at?, at?]
      cases tree.entries.lookup name with
      | none => rfl
      | some known => exact ih

theorem look_eq_file {contents : ByteArray} {modified : Nat} :
    tree.look place = some (.file contents modified) ↔
      tree.at? place = some (.file contents modified) := by
  rw [look]
  cases tree.at? place with
  | none => simp
  | some found => cases found <;> simp [kind]

theorem hasDirectory_iff : tree.hasDirectory place = true ↔ tree.look place = some .directory := by
  rw [hasDirectory, look]
  cases tree.at? place with
  | none => simp
  | some found => cases found <;> simp [kind, isDirectory]

/-- There is nothing in a file. -/
theorem at?_file {contents : ByteArray} {modified : Nat} (hplace : place ≠ []) :
    (FileTree.file contents modified).at? place = none := by
  cases place with
  | nil => exact absurd rfl hplace
  | cons name place => rfl

/-- What is on the way to something is a directory. -/
theorem look_of_isPrefix
    (hdown : place <+: other) (hne : place ≠ other) (hother : tree.look other ≠ none) :
    tree.look place = some .directory := by
  obtain ⟨rest, rfl⟩ := hdown
  have hrest : rest ≠ [] := by
    rintro rfl
    exact hne (List.append_nil place).symm
  rw [look, at?_append] at hother
  rw [look]
  cases hfound : tree.at? place with
  | none => simp [hfound] at hother
  | some found =>
      cases found with
      | directory entries modified => rfl
      | file contents modified => simp [hfound, at?_file hrest] at hother

theorem look_of_isPrefix_directory
    (hdown : place <+: other) (hother : tree.look other = some .directory) :
    tree.look place = some .directory := by
  by_cases heq : place = other
  · rw [heq, hother]
  · exact look_of_isPrefix hdown heq (by simp [hother])

theorem look_ne_none_of_isPrefix (hdown : place <+: other) (hother : tree.look other ≠ none) :
    tree.look place ≠ none := by
  by_cases heq : place = other
  · rw [heq]
    exact hother
  · rw [look_of_isPrefix hdown heq hother]
    simp

/-! ## Putting -/

theorem at?_put_append : (tree.put place new).at? (place ++ other) = new.at? other := by
  induction place generalizing tree with
  | nil => rfl
  | cons name place ih => simp [put, at?, entries, ih]

theorem look_put_self : (tree.put place new).look place = some new.kind := by
  have hput : (tree.put place new).at? (place ++ []) = new.at? [] := at?_put_append
  rw [List.append_nil] at hput
  rw [look, hput]
  rfl

theorem apart_cons : Apart (name :: place) (name :: other) ↔ Apart place other := by
  rw [Apart, Apart, List.prefix_cons_inj, List.prefix_cons_inj]

theorem apart_of_head_ne {next : String} {place other : Place} (hne : name ≠ next) :
    Apart (name :: place) (next :: other) := by
  constructor
  · intro hdown
    exact hne (List.cons_prefix_cons.mp hdown).1
  · intro hdown
    exact hne (List.cons_prefix_cons.mp hdown).1.symm

/-- Apart from the way to it and what is below, everything stays as it was. -/
theorem at?_put_of_apart (h : Apart place other) :
    (tree.put place new).at? other = tree.at? other := by
  induction place generalizing tree other with
  | nil => exact absurd List.nil_prefix h.1
  | cons name place ih =>
      cases other with
      | nil => exact absurd List.nil_prefix h.2
      | cons next other =>
          rw [put, at?, at?, entries]
          by_cases hname : next = name
          · subst hname
            rw [lookup_setEntry_self, Option.bind_some, ih (apart_cons.mp h)]
            cases tree.entries.lookup next with
            | none =>
                have hother : other ≠ [] := by
                  rintro rfl
                  exact h.2 (List.prefix_append [next] place)
                cases other with
                | nil => exact absurd rfl hother
                | cons _ _ => rfl
            | some known => rfl
          · rw [lookup_setEntry_of_ne hname]

/-- On the way to it there are directories. -/
theorem look_put_of_isPrefix (hdown : other <+: place) (hne : other ≠ place) :
    (tree.put place new).look other = some .directory := by
  induction other generalizing tree place with
  | nil =>
      cases place with
      | nil => exact absurd rfl hne
      | cons name place => rfl
  | cons name other ih =>
      obtain ⟨rest, rfl⟩ := hdown
      have hrest : other ≠ other ++ rest := fun heq => hne (congrArg (name :: ·) heq)
      rw [List.cons_append, put, look, at?, entries, lookup_setEntry_self]
      exact ih (List.prefix_append other rest) hrest

/-- There is nothing in the tree. -/
def IsBare (tree : FileTree) : Prop :=
  ∀ place, place ≠ [] → tree.at? place = none

theorem isBare_empty (modified : Nat) : (empty modified).IsBare := by
  intro place hplace
  cases place with
  | nil => exact absurd rfl hplace
  | cons name place => rfl

theorem isBare_file (contents : ByteArray) (modified : Nat) :
    (FileTree.file contents modified).IsBare :=
  fun _ hplace => at?_file hplace

/-- Putting something bare into a directory, in place of no other directory, changes nothing
else. -/
theorem look_put_of_ne
    (hbare : new.IsBare) (hparent : tree.look place = some .directory)
    (htaken : tree.look (place ++ [name]) ≠ some .directory) (hne : other ≠ place ++ [name]) :
    (tree.put (place ++ [name]) new).look other = tree.look other := by
  by_cases hbelow : place ++ [name] <+: other
  · have hnone : tree.look other = none := by
      by_contra hsome
      exact htaken (look_of_isPrefix hbelow (Ne.symm hne) hsome)
    obtain ⟨rest, rfl⟩ := hbelow
    have hrest : rest ≠ [] := by
      rintro rfl
      exact hne (List.append_nil _)
    rw [hnone, look, at?_put_append, hbare rest hrest]
    rfl
  · by_cases habove : other <+: place ++ [name]
    · have hdown : other <+: place := (List.prefix_concat_iff.mp habove).resolve_left hne
      rw [look_put_of_isPrefix habove hne, look_of_isPrefix_directory hdown hparent]
    · rw [look, at?_put_of_apart ⟨hbelow, habove⟩]
      rfl

/-! ## Removing -/

variable {now : Nat}

theorem remove_cons_cons {below : String} :
    tree.remove now (name :: below :: place) =
      match tree.entries.lookup name with
      | none => tree
      | some known =>
        .directory (setEntry name (known.remove now (below :: place)) tree.entries)
          tree.modified :=
  rfl

theorem lookup_filter_self {entries : List (String × FileTree)} :
    (entries.filter (·.1 != name)).lookup name = none := by
  induction entries with
  | nil => rfl
  | cons entry entries ih =>
      by_cases hname : entry.1 = name
      · rw [List.filter_cons_of_neg (by simpa using hname), ih]
      · rw [List.filter_cons_of_pos (by simpa using hname), lookup_cons_of_ne (Ne.symm hname), ih]

/-- Nothing is left of what is removed, unless it is the root. -/
theorem at?_remove_append (hplace : place ≠ []) :
    (tree.remove now place).at? (place ++ other) = none := by
  induction place generalizing tree with
  | nil => exact absurd rfl hplace
  | cons name place ih =>
      cases place with
      | nil =>
          rw [remove, List.singleton_append, at?, entries, lookup_filter_self]
          rfl
      | cons below place =>
          rw [remove_cons_cons, List.cons_append, at?]
          cases hknown : tree.entries.lookup name with
          | none => simp [hknown]
          | some known =>
              rw [entries, lookup_setEntry_self]
              exact ih (by simp)

/-- Apart from the way to it and what is below, everything stays as it was. -/
theorem at?_remove_of_apart (h : Apart place other) :
    (tree.remove now place).at? other = tree.at? other := by
  induction place generalizing tree other with
  | nil => exact absurd List.nil_prefix h.1
  | cons name place ih =>
      cases other with
      | nil => exact absurd List.nil_prefix h.2
      | cons next other =>
          by_cases hname : next = name
          · subst hname
            have hrest := apart_cons.mp h
            cases place with
            | nil => exact absurd List.nil_prefix hrest.1
            | cons below place =>
                rw [remove_cons_cons]
                cases hknown : tree.entries.lookup next with
                | none => rfl
                | some known =>
                    rw [at?, at?, entries, lookup_setEntry_self, hknown]
                    exact ih hrest
          · cases place with
            | nil => rw [remove, at?, at?, entries, lookup_filter_of_ne hname]
            | cons below place =>
                rw [remove_cons_cons]
                split
                · rfl
                · rw [at?, at?, entries, lookup_setEntry_of_ne hname]

/-! ## Following a path -/

variable {segment : String} {segments : List String}

/-- A step of a path from a directory. -/
theorem follow_cons (hplace : tree.look place = some .directory) :
    tree.follow place (segment :: segments) =
      if segment = Path.here then tree.follow place segments
      else if segment = Path.above then tree.follow place.dropLast segments
      else if (tree.look (place ++ [segment])).isSome then tree.follow (place ++ [segment]) segments
      else none := by
  rw [look, Option.map_eq_some_iff] at hplace
  obtain ⟨found, hfound, hkind⟩ := hplace
  cases found with
  | file contents modified => exact absurd hkind (by simp [kind])
  | directory entries modified =>
      have hnext : (tree.look (place ++ [segment])).isSome = (entries.lookup segment).isSome := by
        rw [look, at?_append, hfound, Option.isSome_map, Option.bind_some, at?, FileTree.entries]
        cases entries.lookup segment <;> rfl
      rw [follow, hfound, hnext]

/-- Only directories can be passed. -/
theorem look_of_follow_cons (h : tree.follow place (segment :: segments) = some other) :
    tree.look place = some .directory := by
  rw [follow] at h
  rw [look]
  cases hfound : tree.at? place with
  | none => simp [hfound] at h
  | some found =>
      cases found with
      | directory entries modified => rfl
      | file contents modified => simp [hfound] at h

/-- A path is followed in two parts. -/
theorem follow_append {more : List String} :
    tree.follow place (segments ++ more) =
      (tree.follow place segments).bind fun middle => tree.follow middle more := by
  induction segments generalizing place with
  | nil => rfl
  | cons segment segments ih =>
      by_cases hplace : tree.look place = some .directory
      · rw [List.cons_append, follow_cons hplace, follow_cons hplace, ih, ih, ih]
        split
        · rfl
        · split
          · rfl
          · split
            · rfl
            · rfl
      · have hnone : ∀ rest, tree.follow place (segment :: rest) = none := by
          intro rest
          by_contra hsome
          obtain ⟨other, hother⟩ := Option.ne_none_iff_exists'.mp hsome
          exact hplace (look_of_follow_cons hother)
        rw [List.cons_append, hnone, hnone]
        rfl

/-- Induction along a path that can be followed, from its end. -/
theorem follow_induction
    {p : Place → List String → Prop} (hnil : p other [])
    (hhere : ∀ place segments, tree.look place = some .directory →
      tree.follow place segments = some other → p place segments →
      p place (Path.here :: segments))
    (habove : ∀ place segments, tree.look place = some .directory →
      tree.follow place.dropLast segments = some other → p place.dropLast segments →
      p place (Path.above :: segments))
    (hname : ∀ place segment segments, segment ≠ Path.here → segment ≠ Path.above →
      tree.look place = some .directory → tree.follow (place ++ [segment]) segments = some other →
      p (place ++ [segment]) segments → p place (segment :: segments))
    (h : tree.follow place segments = some other) : p place segments := by
  induction segments generalizing place with
  | nil =>
      obtain rfl := Option.some.inj h
      exact hnil
  | cons segment segments ih =>
      have hplace := look_of_follow_cons h
      rw [follow_cons hplace] at h
      by_cases hishere : segment = Path.here
      · rw [if_pos hishere] at h
        rw [hishere]
        exact hhere place segments hplace h (ih h)
      rw [if_neg hishere] at h
      by_cases hisabove : segment = Path.above
      · rw [if_pos hisabove] at h
        rw [hisabove]
        exact habove place segments hplace h (ih h)
      rw [if_neg hisabove] at h
      split at h
      · exact hname place segment segments hishere hisabove hplace h (ih h)
      · exact absurd h (by simp)

/-- A path leads nowhere but to the place that its segments tell. -/
theorem eq_land_of_follow (h : tree.follow place segments = some other) :
    other = Path.land place segments := by
  refine follow_induction (p := fun place segments => other = Path.land place segments) rfl
    ?_ ?_ ?_ h
  · intro place segments _ _ ih
    exact ih
  · intro place segments _ _ ih
    exact ih
  · intro place segment segments hhere habove _ _ ih
    rw [Path.land, if_neg hhere, if_neg habove]
    exact ih

theorem exists_of_isDirectoryAt {path : String} (h : tree.isDirectoryAt path = true) :
    ∃ place, tree.place? path = some place ∧ tree.look place = some .directory := by
  rw [isDirectoryAt, find?] at h
  cases hplace : tree.place? path with
  | none => simp [hplace] at h
  | some place =>
      rw [hplace, Option.bind_some] at h
      exact ⟨place, rfl, hasDirectory_iff.mp h⟩

end FileTree

end Stencil
