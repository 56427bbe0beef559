import Stencil.FileTree.Action
import Stencil.Proofs.FileTree

/-!
# What actions do to a file tree

Making directories only adds to a tree (`Grows`), and writing a file adds nothing else; so a file
stays as it is (`HoldsFile`) under every action that is not directed at it (`Keeps`), whether the
action succeeds or not.
-/

namespace Stencil

namespace FileTree

/-- The tree that an action leaves behind, whether it succeeds or not. -/
def after {ε α : Type} (tree : FileTree) (action : EStateM ε FileTree α) : FileTree :=
  match action tree with
  | .ok _ tree => tree
  | .error _ tree => tree

/-! ## Running an action -/

theorem bind_of_ok
    {ε α β : Type} {action : EStateM ε FileTree α} {rest : α → EStateM ε FileTree β}
    {tree later : FileTree} {result : α} (h : action tree = .ok result later) :
    (action >>= rest) tree = rest result later := by
  change EStateM.bind action rest tree = _
  rw [EStateM.bind, h]

theorem bind_of_error
    {ε α β : Type} {action : EStateM ε FileTree α} {rest : α → EStateM ε FileTree β}
    {tree later : FileTree} {error : ε} (h : action tree = .error error later) :
    (action >>= rest) tree = .error error later := by
  change EStateM.bind action rest tree = _
  rw [EStateM.bind, h]

theorem exists_of_bind_ok
    {ε α β : Type} {action : EStateM ε FileTree α} {rest : α → EStateM ε FileTree β}
    {tree last : FileTree} {result : β} (h : (action >>= rest) tree = .ok result last) :
    ∃ first later, action tree = .ok first later ∧ rest first later = .ok result last := by
  cases haction : action tree with
  | ok first later => exact ⟨first, later, rfl, (bind_of_ok haction).symm.trans h⟩
  | error error later =>
      rw [bind_of_error haction] at h
      exact absurd h (by simp)

@[simp]
theorem get_bind {ε α : Type} (tree : FileTree) (rest : FileTree → EStateM ε FileTree α) :
    (get >>= rest) tree = rest tree tree :=
  rfl

/-! ## Growing -/

/-- Everything that the first tree holds is still there. -/
def Grows (tree later : FileTree) : Prop :=
  ∀ place kind, tree.look place = some kind → later.look place = some kind

theorem Grows.refl (tree : FileTree) : Grows tree tree :=
  fun _ _ h => h

theorem Grows.trans {tree later last : FileTree} (h : Grows tree later) (h' : Grows later last) :
    Grows tree last :=
  fun place kind hlook => h' place kind (h place kind hlook)

variable {tree new : FileTree} {place other : Place} {name segment : String}
  {segments : List String} {now : Nat}

/-! ## Making directories -/

/-- A step down, into a directory that is made if there is nothing. -/
theorem enter_name (hhere : segment ≠ Path.here) (habove : segment ≠ Path.above) :
    enter now place (segment :: segments) tree =
      match tree.look (place ++ [segment]) with
      | some .directory => enter now (place ++ [segment]) segments tree
      | some (.file ..) =>
        .error (if segments.isEmpty then .alreadyExists else .notDirectory) tree
      | none =>
        if isStorable segment then
          enter now (place ++ [segment]) segments (tree.put (place ++ [segment]) (empty now))
        else .error .invalidName tree := by
  rw [enter, if_neg hhere, if_neg habove, get_bind, look]
  cases tree.at? (place ++ [segment]) with
  | none =>
      by_cases hstorable : isStorable segment = true
      · simp only [hstorable, if_pos]
        rfl
      · simp only [hstorable]
        rfl
  | some found => cases found <;> rfl

/-- There is a directory at the place, or there is nothing and a directory can be made. -/
def Passable (tree : FileTree) (place : Place) : Prop :=
  tree.look place = some .directory ∨
    tree.look place = none ∧ ∀ name ∈ place.getLast?, isStorable name = true

/-- A step down goes on from a directory, which is the only one made on the way, or it fails at
once. -/
theorem enter_name_cases
    (segments : List String) (hplace : tree.look place = some .directory)
    (hhere : segment ≠ Path.here) (habove : segment ≠ Path.above) :
    (¬tree.Passable (place ++ [segment]) ∧
      ∃ error, enter now place (segment :: segments) tree = .error error tree) ∨
    tree.Passable (place ++ [segment]) ∧
      ∃ made : FileTree, made.look (place ++ [segment]) = some .directory ∧
        (∀ other, other ≠ place ++ [segment] → made.look other = tree.look other) ∧
        enter now place (segment :: segments) tree =
          enter now (place ++ [segment]) segments made := by
  rw [enter_name hhere habove]
  cases hnext : tree.look (place ++ [segment]) with
  | none =>
      have hothers : ∀ other, other ≠ place ++ [segment] →
          (tree.put (place ++ [segment]) (empty now)).look other = tree.look other :=
        fun other => look_put_of_ne (isBare_empty now) hplace (by simp [hnext])
      by_cases hstorable : isStorable segment = true
      · right
        exact ⟨.inr ⟨hnext, by simpa using hstorable⟩, _, look_put_self, hothers,
          if_pos hstorable⟩
      · left
        refine ⟨?_, .invalidName, if_neg hstorable⟩
        rintro (hdirectory | ⟨-, hlast⟩)
        · rw [hnext] at hdirectory
          exact absurd hdirectory (by simp)
        · exact hstorable (hlast segment (by simp))
  | some kind =>
      cases kind with
      | directory => exact .inr ⟨.inl hnext, tree, hnext, fun _ _ => rfl, rfl⟩
      | file contents modified =>
          left
          refine ⟨?_, _, rfl⟩
          rintro (hdirectory | ⟨hnone, -⟩)
          · rw [hnext] at hdirectory
            exact absurd hdirectory (by simp)
          · rw [hnext] at hnone
            exact absurd hnone (by simp)

theorem grows_of_passable
    {made : FileTree} (hpassable : tree.Passable place)
    (hmade : made.look place = some .directory)
    (hothers : ∀ other, other ≠ place → made.look other = tree.look other) : Grows tree made := by
  intro other kind hother
  by_cases heq : other = place
  · subst heq
    rcases hpassable with hdirectory | ⟨hnone, -⟩
    · rw [hmade, ← hdirectory, hother]
    · rw [hnone] at hother
      exact absurd hother (by simp)
  · rw [hothers other heq, hother]

/-- Making directories only adds to a tree. -/
theorem grows_enter
    (now : Nat) (segments : List String) (hplace : tree.look place = some .directory) :
    Grows tree (tree.after (enter now place segments)) := by
  induction segments generalizing tree place with
  | nil => exact Grows.refl tree
  | cons segment segments ih =>
      by_cases hhere : segment = Path.here
      · subst hhere
        exact ih hplace
      by_cases habove : segment = Path.above
      · subst habove
        exact ih (look_of_isPrefix_directory place.dropLast_prefix hplace)
      rw [after]
      rcases enter_name_cases segments hplace hhere habove with
        ⟨-, error, herror⟩ | ⟨hpassable, made, hmade, hothers, hstep⟩
      · rw [herror]
        exact Grows.refl tree
      · rw [hstep]
        exact (grows_of_passable hpassable hmade hothers).trans (ih hmade)

/-- When directories have been made, the path to the last of them can be followed. -/
theorem follow_of_enter
    {later : FileTree} (hplace : tree.look place = some .directory)
    (h : enter now place segments tree = .ok other later) :
    later.look other = some .directory ∧ later.follow place segments = some other := by
  induction segments generalizing tree place with
  | nil =>
      obtain ⟨rfl, rfl⟩ : place = other ∧ tree = later := by
        simpa using EStateM.Result.ok.inj h
      exact ⟨hplace, rfl⟩
  | cons segment segments ih =>
      have hgrows : Grows tree later := by
        have hafter := grows_enter now (segment :: segments) hplace
        rwa [after, h] at hafter
      rw [follow_cons (hgrows _ _ hplace)]
      by_cases hhere : segment = Path.here
      · subst hhere
        rw [if_pos rfl]
        exact ih hplace h
      by_cases habove : segment = Path.above
      · subst habove
        rw [if_neg hhere, if_pos rfl]
        exact ih (look_of_isPrefix_directory place.dropLast_prefix hplace) h
      rw [if_neg hhere, if_neg habove]
      rcases enter_name_cases segments hplace hhere habove with
        ⟨-, error, herror⟩ | ⟨-, made, hmade, -, hstep⟩
      · rw [herror] at h
        exact absurd h (by simp)
      · rw [hstep] at h
        have hkept : Grows made later := by
          have hafter := grows_enter now segments hmade
          rwa [after, h] at hafter
        have hsome : (later.look (place ++ [segment])).isSome = true := by
          rw [hkept _ _ hmade]
          rfl
        rw [if_pos hsome]
        exact ih hmade h

/-! ## Writing files -/

section Writing

variable {path : String} {contents : ByteArray} {parent : Place}

/-- Writing puts a file into the directory that a path leads to, if the last segment of the path is
a name that can be stored and a directory has not this name already. -/
theorem write_of_follow
    (hparent : tree.follow [] (Path.segments path).dropLast = some parent)
    (hname : (Path.segments path).getLast? = some name) :
    write now path contents tree =
      if tree.hasDirectory parent then
        if name = Path.here || name = Path.above then .error .isDirectory tree
        else if tree.hasDirectory (parent ++ [name]) then .error .isDirectory tree
        else if isStorable name then .ok () (tree.put (parent ++ [name]) (.file contents now))
        else .error .invalidName tree
      else .error .notDirectory tree := by
  rw [write, get_bind, hparent, hname]
  change (get >>= _ : Action Unit) tree = _
  rw [get_bind]
  split
  case isFalse => rfl
  split
  case isTrue => rfl
  rw [get_bind]
  split
  case isTrue => rfl
  split
  case isTrue => rfl
  case isFalse => rfl

/-- Writing changes nothing, or it puts a file where the path leads, which is in a directory and
not in place of one. -/
theorem write_cases (tree : FileTree) (now : Nat) (path : String) (contents : ByteArray) :
    (∃ error, write now path contents tree = .error error tree) ∨
      ∃ parent name, parent ++ [name] = Path.landing path ∧ tree.look parent = some .directory ∧
        tree.look (parent ++ [name]) ≠ some .directory ∧
        write now path contents tree =
          .ok () (tree.put (parent ++ [name]) (.file contents now)) := by
  cases hparent : tree.follow [] (Path.segments path).dropLast with
  | none => exact .inl ⟨.notFound, by rw [write, get_bind, hparent]; rfl⟩
  | some parent =>
      cases hname : (Path.segments path).getLast? with
      | none => exact .inl ⟨.notFound, by rw [write, get_bind, hparent, hname]; rfl⟩
      | some name =>
          rw [write_of_follow hparent hname]
          split
          case isFalse => exact .inl ⟨_, rfl⟩
          case isTrue hdirectory =>
          split
          case isTrue => exact .inl ⟨_, rfl⟩
          case isFalse hplain =>
          split
          case isTrue => exact .inl ⟨_, rfl⟩
          case isFalse htaken =>
          split
          case isFalse => exact .inl ⟨_, rfl⟩
          case isTrue =>
          right
          refine ⟨parent, name, ?_, hasDirectory_iff.mp hdirectory,
            fun hlook => htaken (hasDirectory_iff.mpr hlook), rfl⟩
          obtain ⟨hhere, habove⟩ : name ≠ Path.here ∧ name ≠ Path.above := by simpa using hplain
          obtain ⟨front, hfront⟩ := List.getLast?_eq_some_iff.mp hname
          rw [hfront, List.dropLast_concat] at hparent
          rw [Path.landing, hfront, Path.land_append, ← eq_land_of_follow hparent, Path.land,
            if_neg hhere, if_neg habove]
          rfl

end Writing

/-! ## Removing directories -/

theorem removeDirectory_of_place {path : String} (hplace : tree.place? path = some place) :
    removeDirectory now path tree =
      if tree.hasDirectory place then .ok () (tree.remove now place)
      else .error .notDirectory tree := by
  rw [removeDirectory, get_bind, hplace]
  change (get >>= _ : Action Unit) tree = _
  rw [get_bind]
  split <;> rfl

/-- Removing changes nothing, or it removes the directory that the path leads to. -/
theorem removeDirectory_cases (tree : FileTree) (path : String) :
    (∃ error, removeDirectory now path tree = .error error tree) ∨
      tree.look (Path.landing path) = some .directory ∧
        removeDirectory now path tree = .ok () (tree.remove now (Path.landing path)) := by
  cases hfound : tree.place? path with
  | none => exact .inl ⟨.notFound, by rw [removeDirectory, get_bind, hfound]; rfl⟩
  | some found =>
      obtain rfl : found = Path.landing path := eq_land_of_follow hfound
      rw [removeDirectory_of_place hfound]
      by_cases hdirectory : tree.hasDirectory (Path.landing path) = true
      · exact .inr ⟨hasDirectory_iff.mp hdirectory, if_pos hdirectory⟩
      · exact .inl ⟨_, if_neg hdirectory⟩

/-! ## What actions keep -/

/-- What is true of a tree is true of what the action leaves behind, whether it succeeds or not. -/
def Keeps {ε α : Type} (p : FileTree → Prop) (action : EStateM ε FileTree α) : Prop :=
  ∀ tree, p tree → p (tree.after action)

section Keeps

variable {ε ε' α β : Type} {p : FileTree → Prop}

theorem keeps_pure (result : α) : Keeps p (pure result : EStateM ε FileTree α) :=
  fun _ h => h

theorem keeps_throw (error : ε) : Keeps p (throw error : EStateM ε FileTree α) :=
  fun _ h => h

theorem keeps_get : Keeps p (get : EStateM ε FileTree FileTree) :=
  fun _ h => h

/-- What is true after an action is true at the end if all that follows keeps it. -/
theorem holds_after_bind
    {action : EStateM ε FileTree α} {rest : α → EStateM ε FileTree β} (h : p (tree.after action))
    (hrest : ∀ result, Keeps p (rest result)) : p (tree.after (action >>= rest)) := by
  rw [after] at h
  rw [after]
  cases hresult : action tree with
  | error error later =>
      rw [bind_of_error hresult]
      rwa [hresult] at h
  | ok result later =>
      rw [bind_of_ok hresult]
      rw [hresult] at h
      exact hrest result later h

theorem Keeps.bind {action : EStateM ε FileTree α} {rest : α → EStateM ε FileTree β}
    (h : Keeps p action) (hrest : ∀ result, Keeps p (rest result)) : Keeps p (action >>= rest) :=
  fun tree htree => holds_after_bind (h tree htree) hrest

theorem after_adaptExcept (action : EStateM ε FileTree α) (adapt : ε → ε') :
    tree.after (action.adaptExcept adapt) = tree.after action := by
  rw [after, after, EStateM.adaptExcept]
  cases action tree <;> rfl

theorem Keeps.adaptExcept {action : EStateM ε FileTree α} (h : Keeps p action)
    (adapt : ε → ε') : Keeps p (action.adaptExcept adapt) := by
  intro tree htree
  rw [after_adaptExcept]
  exact h tree htree

theorem Keeps.forM {items : List α} {action : α → EStateM ε FileTree Unit}
    (h : ∀ item ∈ items, Keeps p (action item)) : Keeps p (items.forM action) := by
  induction items with
  | nil => exact keeps_pure ()
  | cons item items ih =>
      obtain ⟨hitem, hitems⟩ := List.forall_mem_cons.mp h
      exact hitem.bind fun _ => ih hitems

/-! ## Actions that are made of others -/

theorem keeps_makeParents (henter : ∀ segments, Keeps p (enter now [] segments)) (path : String) :
    Keeps p (makeParents now path) :=
  (henter _).bind fun _ => keeps_pure ()

theorem keeps_makeDirectories (henter : ∀ segments, Keeps p (enter now [] segments))
    (path : String) : Keeps p (makeDirectories now path) := by
  rw [makeDirectories]
  split
  · refine keeps_get.bind ?_
    intro tree
    split
    · exact keeps_pure ()
    · exact (henter _).bind fun _ => keeps_throw _
  · exact (henter _).bind fun _ => keeps_pure ()

theorem keeps_copy
    {target : String} (henter : ∀ segments, Keeps p (enter now [] segments))
    (hwrite : ∀ contents, Keeps p (write now target contents)) (source : String) (always : Bool) :
    Keeps p (copy now source target always) := by
  rw [copy]
  refine keeps_get.bind ?_
  intro tree
  split
  · exact keeps_pure ()
  · refine (keeps_makeParents henter target).bind ?_
    intro _
    refine keeps_get.bind ?_
    intro tree
    split
    · exact hwrite _
    · exact keeps_throw _
    · exact keeps_throw _

end Keeps

/-! ## Files that stay -/

section HoldsFile

variable {contents known : ByteArray} {modified : Nat} {path : String}

/-- The tree holds this file at the place. -/
def HoldsFile (place : Place) (contents : ByteArray) (modified : Nat) (tree : FileTree) : Prop :=
  tree.look place = some (.file contents modified)

/-- The root of a tree with a file below it is a directory. -/
theorem HoldsFile.look_root (h : HoldsFile place contents modified tree) (hplace : place ≠ []) :
    tree.look [] = some .directory :=
  look_of_isPrefix List.nil_prefix (Ne.symm hplace) (ne_of_eq_of_ne h (by simp))

/-- There is nothing below a file. -/
theorem HoldsFile.apart
    (h : HoldsFile place contents modified tree) (hother : tree.look other ≠ none)
    (hbelow : ¬other <+: place) : Apart other place := by
  refine ⟨hbelow, ?_⟩
  intro hdown
  by_cases heq : place = other
  · exact hbelow (by simp [heq])
  · rw [HoldsFile, look_of_isPrefix hdown heq hother] at h
    exact absurd h (by simp)

theorem keeps_enter_of_file (hplace : place ≠ []) (segments : List String) :
    Keeps (HoldsFile place contents modified) (enter now [] segments) :=
  fun _ hfile => grows_enter now segments (hfile.look_root hplace) _ _ hfile

/-- Removing a directory leaves the files that are not in it. -/
theorem keeps_removeDirectory_of_file (hpath : ¬Path.landing path <+: place) :
    Keeps (HoldsFile place contents modified) (removeDirectory now path) := by
  intro tree hfile
  rw [after]
  rcases removeDirectory_cases tree path with
    ⟨error, herror⟩ | ⟨hdirectory, hremove⟩
  · rw [herror]
    exact hfile
  · have hapart : Apart (Path.landing path) place := hfile.apart (by simp [hdirectory]) hpath
    rw [hremove, HoldsFile, look, at?_remove_of_apart hapart]
    exact hfile

/-- Writing a file leaves all others. -/
theorem keeps_write_of_file (hpath : Path.landing path ≠ place) :
    Keeps (HoldsFile place contents modified) (write now path known) := by
  intro tree hfile
  rw [after]
  rcases write_cases tree now path known with
    ⟨error, herror⟩ | ⟨parent, name, htarget, hparent, htaken, hwrite⟩
  · rw [herror]
    exact hfile
  · rw [← htarget] at hpath
    rw [hwrite, HoldsFile, look_put_of_ne (isBare_file known now) hparent htaken (Ne.symm hpath)]
    exact hfile

end HoldsFile

/-! ## Places without a file -/

section HoldsNoFile

variable {contents : ByteArray} {path : String}

/-- The tree holds no file at the place. -/
def HoldsNoFile (place : Place) (tree : FileTree) : Prop :=
  ∀ contents modified, ¬HoldsFile place contents modified tree

theorem holdsNoFile_put_empty (h : HoldsNoFile place tree) :
    HoldsNoFile place (tree.put other (empty now)) := by
  intro contents modified hfile
  by_cases hbelow : other <+: place
  · obtain ⟨rest, rfl⟩ := hbelow
    rw [HoldsFile, look, at?_put_append] at hfile
    cases rest with
    | nil => exact absurd hfile (by simp [at?, kind, empty])
    | cons name rest => exact absurd hfile (by simp [at?, entries, empty])
  · by_cases habove : place <+: other
    · rw [HoldsFile, look_put_of_isPrefix habove (fun heq => hbelow (by simp [heq]))] at hfile
      exact absurd hfile (by simp)
    · rw [HoldsFile, look, at?_put_of_apart ⟨hbelow, habove⟩] at hfile
      exact h contents modified hfile

/-- Making directories makes no files. -/
theorem keeps_enter_of_noFile (segments : List String) :
    Keeps (HoldsNoFile place) (enter now other segments) := by
  induction segments generalizing other with
  | nil => exact keeps_pure other
  | cons segment segments ih =>
      by_cases hhere : segment = Path.here
      · subst hhere
        exact ih
      by_cases habove : segment = Path.above
      · subst habove
        exact ih
      intro tree hnone
      rw [after, enter_name hhere habove]
      cases hnext : tree.look (other ++ [segment]) with
      | none =>
          by_cases hstorable : isStorable segment = true
          · simp only [hstorable, if_pos]
            exact ih _ (holdsNoFile_put_empty hnone)
          · simp only [hstorable]
            exact hnone
      | some kind =>
          cases kind with
          | directory => exact ih tree hnone
          | file contents modified => exact hnone

/-- Writing makes one file. -/
theorem keeps_write_of_noFile (hpath : Path.landing path ≠ place) :
    Keeps (HoldsNoFile place) (write now path contents) := by
  intro tree hnone
  rw [after]
  rcases write_cases tree now path contents with
    ⟨error, herror⟩ | ⟨parent, name, htarget, hparent, htaken, hwrite⟩
  · rw [herror]
    exact hnone
  · rw [← htarget] at hpath
    intro known modified hfile
    rw [hwrite, HoldsFile,
      look_put_of_ne (isBare_file contents now) hparent htaken (Ne.symm hpath)] at hfile
    exact hnone known modified hfile

/-- There is no file left in a directory that has been removed. -/
theorem holdsNoFile_remove (h : other <+: place) : HoldsNoFile place (tree.remove now other) := by
  intro contents modified hfile
  obtain ⟨rest, rfl⟩ := h
  rw [HoldsFile, look] at hfile
  by_cases hroot : other = []
  · subst hroot
    cases rest with
    | nil => exact absurd hfile (by simp [remove, at?, kind, empty])
    | cons name rest => exact absurd hfile (by simp [remove, at?, entries, empty])
  · rw [at?_remove_append hroot] at hfile
    exact absurd hfile (by simp)

end HoldsNoFile

end FileTree

end Stencil
