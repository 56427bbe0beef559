import Stencil.Proofs.FileTree.Action

/-!
# Writing files in any order

Whether a file can be written below a directory depends only on what the tree holds on the way to
it (`CanWrite`), and writing adds the file and the directories on the way (`look_write`).  Neither
has anything to do with files that are apart, so files that are pairwise apart can be written in
any order.
-/

namespace Stencil

namespace FileTree

variable {tree later : FileTree} {base place other : Place} {name : String}
  {names segments : List String} {now : Nat}

/-! ## On the way -/

/-- A path to a directory goes through directories. -/
theorem look_of_follow
    (h : tree.follow place segments = some other) (hother : tree.look other = some .directory) :
    tree.look place = some .directory := by
  cases segments with
  | nil =>
      obtain rfl := Option.some.inj h
      exact hother
  | cons segment segments => exact look_of_follow_cons h

/-- What leads through directories does not depend on what else there is. -/
theorem follow_of_directories
    (hkept : ∀ place, tree.look place = some .directory → later.look place = some .directory)
    (hother : tree.look other = some .directory) (h : tree.follow place segments = some other) :
    later.follow place segments = some other := by
  refine follow_induction (p := fun place segments => later.follow place segments = some other)
    rfl ?_ ?_ ?_ h
  · intro place segments hplace _ ih
    rw [follow_cons (hkept place hplace), if_pos rfl]
    exact ih
  · intro place segments hplace _ ih
    rw [follow_cons (hkept place hplace), if_neg (by decide), if_pos rfl]
    exact ih
  · intro place segment segments hhere habove hplace hrest ih
    have hnext := hkept _ (look_of_follow hrest hother)
    rw [follow_cons (hkept place hplace), if_neg hhere, if_neg habove, if_pos (by rw [hnext]; rfl)]
    exact ih

/-- Making directories goes on from where a path to a directory ends. -/
theorem enter_append
    (now : Nat) (names : List String) (hbase : tree.look base = some .directory)
    (h : tree.follow place segments = some base) :
    enter now place (segments ++ names) tree = enter now base names tree := by
  refine follow_induction
    (p := fun place segments =>
      enter now place (segments ++ names) tree = enter now base names tree)
    rfl ?_ ?_ ?_ h
  · intro place segments _ _ ih
    exact ih
  · intro place segments _ _ ih
    exact ih
  · intro place segment segments hhere habove _ hrest ih
    rw [List.cons_append, enter_name hhere habove, look_of_follow hrest hbase]
    exact ih

/-! ## Making directories below another -/

/-- The names are those of directories below, not of directories above. -/
def ArePlain (names : List String) : Prop :=
  ∀ name ∈ names, name ≠ Path.here ∧ name ≠ Path.above

/-- Names lead down to what is there. -/
theorem follow_of_plain (hplain : ArePlain names) (hsome : tree.look (base ++ names) ≠ none) :
    tree.follow base names = some (base ++ names) := by
  induction names generalizing base with
  | nil => rw [List.append_nil]; rfl
  | cons name names ih =>
      obtain ⟨⟨hhere, habove⟩, hrest⟩ := List.forall_mem_cons.mp hplain
      have hsplit : base ++ name :: names = base ++ [name] ++ names := by simp
      have hbase : tree.look base = some .directory :=
        look_of_isPrefix (List.prefix_append base _) (by simp) hsome
      have hnext : (tree.look (base ++ [name])).isSome = true := by
        rw [hsplit] at hsome
        exact Option.isSome_iff_ne_none.mpr
          (look_ne_none_of_isPrefix (List.prefix_append _ names) hsome)
      rw [follow_cons hbase, if_neg hhere, if_neg habove, if_pos hnext, hsplit]
      exact ih hrest (hsplit ▸ hsome)

theorem passable_congr (h : later.look place = tree.look place) :
    later.Passable place ↔ tree.Passable place := by
  rw [Passable, Passable, h]

/-- On the way down there is the place itself, and then what is on the way from the next one. -/
theorem prefix_cases
    (hbase : base <+: place) (hplace : place <+: base ++ [name] ++ names) :
    place = base ∨ base ++ [name] <+: place := by
  obtain ⟨rest, rfl⟩ := hbase
  rw [List.append_assoc, List.prefix_append_right_inj, List.singleton_append] at hplace
  cases rest with
  | nil => exact .inl (List.append_nil base)
  | cons first rest =>
      obtain rfl := (List.cons_prefix_cons.mp hplace).1
      right
      rw [List.prefix_append_right_inj]
      exact List.prefix_append [first] rest

/-- Directories can be made below another if nothing but directories is on the way. -/
theorem exists_enter_iff
    (now : Nat) (hplain : ArePlain names) (hbase : tree.look base = some .directory) :
    (∃ last later, enter now base names tree = .ok last later) ↔
      ∀ place, base <+: place → place <+: base ++ names → tree.Passable place := by
  induction names generalizing base tree with
  | nil =>
      constructor
      · intro _ place hbelow habove
        rw [List.append_nil] at habove
        rw [habove.eq_of_length_le hbelow.length_le]
        exact .inl hbase
      · intro _
        exact ⟨base, tree, rfl⟩
  | cons name names ih =>
      obtain ⟨⟨hhere, habove⟩, hrest⟩ := List.forall_mem_cons.mp hplain
      have hsplit : base ++ name :: names = base ++ [name] ++ names := by simp
      rcases enter_name_cases names hbase hhere habove with
        ⟨hnot, error, herror⟩ | ⟨hpassable, made, hmade, hothers, hstep⟩
      · constructor
        · rintro ⟨last, later, hok⟩
          rw [herror] at hok
          exact absurd hok (by simp)
        · intro hall
          refine absurd (hall _ (List.prefix_append base [name]) ?_) hnot
          rw [hsplit]
          exact List.prefix_append _ names
      · rw [hstep, ih hrest hmade, hsplit]
        have hsame : ∀ place, place ≠ base ++ [name] →
            (made.Passable place ↔ tree.Passable place) :=
          fun place hne => passable_congr (hothers place hne)
        constructor
        · intro hall place hbelow habove
          rcases prefix_cases hbelow habove with rfl | hnext
          · exact .inl hbase
          · by_cases heq : place = base ++ [name]
            · rw [heq]
              exact hpassable
            · exact (hsame place heq).mp (hall place hnext habove)
        · intro hall place hbelow habove
          by_cases heq : place = base ++ [name]
          · rw [heq]
            exact .inl hmade
          · exact (hsame place heq).mpr
              (hall place ((List.prefix_append base [name]).trans hbelow) habove)

/-- Making directories below another adds those on the way. -/
theorem look_enter
    {last : Place} (hplain : ArePlain names) (hbase : tree.look base = some .directory)
    (h : enter now base names tree = .ok last later) :
    last = base ++ names ∧ ∀ place, later.look place =
      if base <+: place ∧ place <+: base ++ names then some .directory else tree.look place := by
  induction names generalizing base tree with
  | nil =>
      obtain ⟨rfl, rfl⟩ : base = last ∧ tree = later := by
        simpa using EStateM.Result.ok.inj h
      refine ⟨(List.append_nil base).symm, ?_⟩
      intro place
      split
      case isTrue hway =>
          rw [List.append_nil] at hway
          rw [hway.2.eq_of_length_le hway.1.length_le, hbase]
      case isFalse => rfl
  | cons name names ih =>
      obtain ⟨⟨hhere, habove⟩, hrest⟩ := List.forall_mem_cons.mp hplain
      have hsplit : base ++ name :: names = base ++ [name] ++ names := by simp
      rcases enter_name_cases names hbase hhere habove with
        ⟨-, error, herror⟩ | ⟨-, made, hmade, hothers, hstep⟩
      · rw [herror] at h
        exact absurd h (by simp)
      · rw [hstep] at h
        obtain ⟨rfl, hlook⟩ := ih hrest hmade h
        refine ⟨hsplit.symm, ?_⟩
        intro place
        rw [hlook place, hsplit]
        split
        case isTrue hway =>
            rw [if_pos ⟨(List.prefix_append base [name]).trans hway.1, hway.2⟩]
        case isFalse hoff =>
            split
            case isTrue hway =>
                rcases prefix_cases hway.1 hway.2 with rfl | hnext
                · rw [hothers _ (by simp), hbase]
                · exact absurd ⟨hnext, hway.2⟩ hoff
            case isFalse houtside =>
                apply hothers
                rintro rfl
                exact hoff ⟨List.prefix_refl _, List.prefix_append _ _⟩

/-! ## Writing a file below a directory -/

/-- A file can be written to the target, with the directories that are missing below `base`. -/
structure CanWrite (tree : FileTree) (base target : Place) : Prop where
  way : ∀ place, base <+: place → place <+: target → place ≠ target → tree.Passable place
  free : tree.look target ≠ some .directory
  storable : ∀ name ∈ target.getLast?, isStorable name = true

/-- What is on the way to an entry of a directory is on the way to the directory. -/
theorem prefix_concat_iff_ne :
    place <+: other ↔ place <+: other ++ [name] ∧ place ≠ other ++ [name] := by
  rw [List.prefix_concat_iff]
  constructor
  · intro hdown
    refine ⟨.inr hdown, ?_⟩
    rintro rfl
    have hlength := hdown.length_le
    rw [List.length_append, List.length_singleton] at hlength
    omega
  · rintro ⟨heq | hdown, hne⟩
    · exact absurd heq hne
    · exact hdown

theorem canWrite_concat_iff :
    CanWrite tree base (other ++ [name]) ↔
      (∀ place, base <+: place → place <+: other → tree.Passable place) ∧
        tree.hasDirectory (other ++ [name]) = false ∧ isStorable name = true := by
  have hfree : tree.look (other ++ [name]) ≠ some .directory ↔
      tree.hasDirectory (other ++ [name]) = false := by
    rw [Ne, ← hasDirectory_iff, Bool.not_eq_true]
  constructor
  · rintro ⟨hpassable, hnot, hstorable⟩
    refine ⟨?_, hfree.mp hnot, hstorable name (by simp)⟩
    intro place hbelow habove
    obtain ⟨hdown, hne⟩ := prefix_concat_iff_ne.mp habove
    exact hpassable place hbelow hdown hne
  · rintro ⟨hpassable, hnot, hstorable⟩
    refine ⟨?_, hfree.mpr hnot, by simpa using hstorable⟩
    intro place hbelow hdown hne
    exact hpassable place hbelow (prefix_concat_iff_ne.mpr ⟨hdown, hne⟩)

section Writing

variable {path : String} {contents : ByteArray} {front parents : List String}

theorem makeParents_of_segments
    (now : Nat) (hsegments : Path.segments path = front ++ (parents ++ [name]))
    (hfront : tree.follow [] front = some base) (hbase : tree.look base = some .directory) :
    makeParents now path tree =
      match enter now base parents tree with
      | .ok _ later => .ok () later
      | .error error later => .error error later := by
  have hdrop : (Path.segments path).dropLast = front ++ parents := by
    rw [hsegments, ← List.append_assoc, List.dropLast_concat]
  have henter := enter_append now parents hbase hfront
  rw [makeParents, hdrop]
  cases hresult : enter now base parents tree with
  | ok last later => exact bind_of_ok (henter.trans hresult)
  | error error later => exact bind_of_error (henter.trans hresult)

variable (hsegments : Path.segments path = front ++ (parents ++ [name]))
  (hplain : ArePlain (parents ++ [name])) (hfront : tree.follow [] front = some base)
  (hbase : tree.look base = some .directory)

include hsegments hplain hfront hbase

/-- Once the directories on the way are there, writing needs a name that can be stored and is not
that of a directory. -/
theorem write_of_enter
    {last : Place} (h : enter now base parents tree = .ok last later) :
    write now path contents later =
      if tree.hasDirectory (base ++ (parents ++ [name])) then .error .isDirectory later
      else if isStorable name then
        .ok () (later.put (base ++ (parents ++ [name])) (.file contents now))
      else .error .invalidName later := by
  have hparents : ArePlain parents := fun name hname => hplain name (List.mem_append_left _ hname)
  have hname : name ≠ Path.here ∧ name ≠ Path.above := hplain name (by simp)
  obtain ⟨rfl, hlook⟩ := look_enter hparents hbase h
  have hroot : tree.look [] = some .directory := look_of_follow hfront hbase
  obtain ⟨hdirectory, hfollow⟩ := follow_of_enter hroot
    ((enter_append now parents hbase hfront).trans h)
  have hdrop : (Path.segments path).dropLast = front ++ parents := by
    rw [hsegments, ← List.append_assoc, List.dropLast_concat]
  have hlast : (Path.segments path).getLast? = some name := by
    rw [hsegments, ← List.append_assoc, List.getLast?_concat]
  have htarget : later.look (base ++ parents ++ [name]) =
      tree.look (base ++ parents ++ [name]) := by
    rw [hlook, if_neg]
    rintro ⟨-, hdown⟩
    exact (prefix_concat_iff_ne.mp hdown).2 rfl
  have htaken : later.hasDirectory (base ++ parents ++ [name]) =
      tree.hasDirectory (base ++ parents ++ [name]) := by
    rw [Bool.eq_iff_iff, hasDirectory_iff, hasDirectory_iff, htarget]
  rw [← hdrop] at hfollow
  rw [write_of_follow hfollow hlast, if_pos (hasDirectory_iff.mpr hdirectory), htaken]
  simp [hname]

end Writing

end FileTree

end Stencil
