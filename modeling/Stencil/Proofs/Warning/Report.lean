import Mathlib.Algebra.BigOperators.Group.List.Basic
import Mathlib.Algebra.GroupWithZero.Nat
import Mathlib.Data.List.Basic
import Mathlib.Data.List.Forall2
import Mathlib.Data.List.Induction
import Mathlib.Data.List.Nodup
import Stencil.Proofs.Document.Site
import Stencil.Terminal
import Stencil.Warning.Tally

/-!
# Reports account for all warnings

Warnings about one dropped attribute, or about one page, share a line of the report
(`Warning.SharesLine`).  The first ones of the lines stand in the order of the list, and every
warning shares the line of exactly one of them (`Warning.Heads`).  Counting one more warning keeps
this and the sizes of the groups (`Counted.count`), so it holds of the groups of every list
(`counted_groups`).

The groups can also be found with an index of their places.  Index and groups stay in step
(`Tally.InStep`), so the index never leads to a wrong group or to none, and the groups are the same
(`exists_ofWarnings?`).

What a line adds to its first warning tells the size of the group (`Warning.Tells`), so that the
lines and the total account for every warning (`lines_of_report`).
-/

namespace Stencil.Warning

/-! ## Sharing a line -/

/-- Two warnings have one line: they are about the same attribute, dropped from elements of the same
name on the same side, or about the same page. -/
inductive SharesLine : Warning → Warning → Prop
  | attribute (element name : String) (side : Side) :
      SharesLine (.unresolvedAttribute element name side) (.unresolvedAttribute element name side)
  | page (pathname detail other : String) :
      SharesLine (.unmatchedNode pathname detail) (.unmatchedNode pathname other)

theorem sharesLine_iff {a b : Warning} : SharesLine a b ↔ a.topic = b.topic := by
  constructor
  · rintro (_ | _) <;> rfl
  · intro h
    cases a <;> cases b <;> simp only [topic, Topic.attribute.injEq, Topic.page.injEq,
      reduceCtorEq] at h
    case unresolvedAttribute.unresolvedAttribute =>
      obtain ⟨rfl, rfl, rfl⟩ := h
      exact .attribute _ _ _
    case unmatchedNode.unmatchedNode =>
      subst h
      exact .page _ _ _

instance (a b : Warning) : Decidable (SharesLine a b) :=
  decidable_of_iff _ sharesLine_iff.symm

theorem SharesLine.refl (warning : Warning) : SharesLine warning warning :=
  sharesLine_iff.mpr rfl

theorem SharesLine.symm {a b : Warning} (h : SharesLine a b) : SharesLine b a :=
  sharesLine_iff.mpr (sharesLine_iff.mp h).symm

theorem SharesLine.trans {a b c : Warning} (hab : SharesLine a b) (hbc : SharesLine b c) :
    SharesLine a c :=
  sharesLine_iff.mpr ((sharesLine_iff.mp hab).trans (sharesLine_iff.mp hbc))

/-- The warnings of a list that share the line of `first`, in order. -/
def sharing (first : Warning) (warnings : List Warning) : List Warning :=
  warnings.filter fun warning => SharesLine first warning

section Sharing

variable {first other warning : Warning} {warnings : List Warning}

theorem mem_sharing :
    warning ∈ first.sharing warnings ↔ warning ∈ warnings ∧ SharesLine first warning := by
  simp [sharing]

theorem sharing_congr (h : SharesLine first other) (warnings : List Warning) :
    first.sharing warnings = other.sharing warnings := by
  simp only [sharing, sharesLine_iff, sharesLine_iff.mp h]

theorem sharing_concat_of_sharesLine (h : SharesLine first warning) (warnings : List Warning) :
    first.sharing (warnings ++ [warning]) = first.sharing warnings ++ [warning] := by
  simp [sharing, h]

theorem sharing_concat_of_not (h : ¬SharesLine first warning) (warnings : List Warning) :
    first.sharing (warnings ++ [warning]) = first.sharing warnings := by
  simp [sharing, h]

theorem mem_of_head?_sharing (h : (first.sharing warnings).head? = some first) :
    first ∈ warnings :=
  (mem_sharing.mp (List.mem_of_head? h)).1

theorem head?_sharing_concat (h : (first.sharing warnings).head? = some first) (warning : Warning) :
    (first.sharing (warnings ++ [warning])).head? = some first := by
  rw [sharing, List.filter_append, List.head?_append, ← sharing, h, Option.some_or]

/-- Two first warnings that share a line are one. -/
theorem eq_of_head?_sharing
    (hfirst : (first.sharing warnings).head? = some first)
    (hother : (other.sharing warnings).head? = some other) (h : SharesLine first other) :
    first = other := by
  rw [sharing_congr h, hother] at hfirst
  exact (Option.some.inj hfirst).symm

end Sharing

/-! ## The first warnings of the lines -/

/-- The first warnings of the lines of a report. -/
structure Heads (warnings firsts : List Warning) : Prop where
  /-- Each of them is the first of the warnings that share its line. -/
  first : ∀ first ∈ firsts, (first.sharing warnings).head? = some first
  /-- They stand in the order of the list. -/
  ordered : firsts.Pairwise fun a b => warnings.idxOf a < warnings.idxOf b
  /-- Every warning shares the line of exactly one of them. -/
  covers : ∀ warning ∈ warnings, ∃! first, first ∈ firsts ∧ SharesLine first warning

namespace Heads

variable {warnings firsts : List Warning} {warning : Warning}

theorem of_exists
    (hfirst : ∀ first ∈ firsts, (first.sharing warnings).head? = some first)
    (hordered : firsts.Pairwise fun a b => warnings.idxOf a < warnings.idxOf b)
    (hcovers : ∀ warning ∈ warnings, ∃ first ∈ firsts, SharesLine first warning) :
    Heads warnings firsts where
  first := hfirst
  ordered := hordered
  covers := by
    intro warning hwarning
    obtain ⟨first, hmem, hshares⟩ := hcovers warning hwarning
    refine ⟨first, ⟨hmem, hshares⟩, ?_⟩
    rintro other ⟨hother, hsharesOther⟩
    exact eq_of_head?_sharing (hfirst other hother) (hfirst first hmem)
      (hsharesOther.trans hshares.symm)

theorem nil : Heads [] [] :=
  of_exists (by simp) List.Pairwise.nil (by simp)

theorem mem (h : Heads warnings firsts) {first : Warning} (hfirst : first ∈ firsts) :
    first ∈ warnings :=
  mem_of_head?_sharing (h.first first hfirst)

theorem nodup (h : Heads warnings firsts) : firsts.Nodup :=
  h.ordered.imp fun hlt heq => Nat.ne_of_lt hlt (congrArg warnings.idxOf heq)

/-- Further warnings do not change the order. -/
theorem ordered_concat (h : Heads warnings firsts) (warning : Warning) :
    firsts.Pairwise fun a b =>
      (warnings ++ [warning]).idxOf a < (warnings ++ [warning]).idxOf b := by
  refine h.ordered.imp_of_mem ?_
  intro a b ha hb hlt
  rw [List.idxOf_append_of_mem (h.mem ha), List.idxOf_append_of_mem (h.mem hb)]
  exact hlt

/-- A warning that shares a line is counted there. -/
theorem concat_of_exists
    (h : Heads warnings firsts) (hseen : ∃ first ∈ firsts, SharesLine first warning) :
    Heads (warnings ++ [warning]) firsts := by
  apply of_exists
  · exact fun first hfirst => head?_sharing_concat (h.first first hfirst) warning
  · exact h.ordered_concat warning
  · intro other hother
    obtain hmem | rfl : other ∈ warnings ∨ other = warning := by simpa using hother
    · exact (h.covers other hmem).exists
    · exact hseen

/-- Nothing in the list shares a line with a warning that none of the first ones does. -/
theorem sharing_eq_nil
    (h : Heads warnings firsts) (hnew : ∀ first ∈ firsts, ¬SharesLine first warning) :
    warning.sharing warnings = [] := by
  rw [List.eq_nil_iff_forall_not_mem]
  intro other hother
  obtain ⟨hmem, hshares⟩ := mem_sharing.mp hother
  obtain ⟨first, hfirst, hsharesFirst⟩ := (h.covers other hmem).exists
  exact hnew first hfirst (hsharesFirst.trans hshares.symm)

/-- A warning that shares no line is the first of a new one. -/
theorem concat_of_forall_not
    (h : Heads warnings firsts) (hnew : ∀ first ∈ firsts, ¬SharesLine first warning) :
    Heads (warnings ++ [warning]) (firsts ++ [warning]) := by
  have halone := h.sharing_eq_nil hnew
  have hnotMem : warning ∉ warnings := by
    intro hmem
    have hsharing : warning ∈ warning.sharing warnings := mem_sharing.mpr ⟨hmem, .refl warning⟩
    exact List.not_mem_nil (halone ▸ hsharing)
  apply of_exists
  · intro first hfirst
    obtain hmem | rfl : first ∈ firsts ∨ first = warning := by simpa using hfirst
    · exact head?_sharing_concat (h.first first hmem) warning
    · rw [sharing_concat_of_sharesLine (.refl first), halone]
      rfl
  · rw [List.pairwise_append]
    refine ⟨h.ordered_concat warning, List.pairwise_singleton _ _, ?_⟩
    intro first hfirst other hother
    obtain rfl := List.mem_singleton.mp hother
    rw [List.idxOf_append_of_mem (h.mem hfirst), List.idxOf_append_of_notMem hnotMem]
    exact Nat.lt_add_right _ (List.idxOf_lt_length_of_mem (h.mem hfirst))
  · intro other hother
    obtain hmem | rfl : other ∈ warnings ∨ other = warning := by simpa using hother
    · obtain ⟨first, hfirst, hshares⟩ := (h.covers other hmem).exists
      exact ⟨first, List.mem_append_left _ hfirst, hshares⟩
    · exact ⟨other, List.mem_concat_self, .refl other⟩

/-- The warnings on the lines are the warnings of the list, each once. -/
theorem flatMap_sharing_perm (h : Heads warnings firsts) :
    (firsts.flatMap fun first => first.sharing warnings).Perm warnings := by
  rw [List.perm_iff_count]
  intro warning
  by_cases hwarning : warning ∈ warnings
  · obtain ⟨first, ⟨hfirst, hshares⟩, hunique⟩ := h.covers warning hwarning
    have hothers : ∀ other, other ≠ first → other ∈ firsts →
        (other.sharing warnings).count warning = 0 := by
      intro other hne hother
      rw [List.count_eq_zero]
      exact fun hmem => hne (hunique other ⟨hother, (mem_sharing.mp hmem).2⟩)
    -- Of the counts on the single lines, only that for `first` is not zero.
    rw [List.count_flatMap, Function.comp_def, List.sum_map_eq_nsmul_single first _ hothers,
      List.count_eq_one_of_mem h.nodup hfirst, one_nsmul, sharing, List.count_filter]
    exact decide_eq_true hshares
  · rw [List.count_eq_zero.mpr hwarning, List.count_eq_zero]
    intro hmem
    obtain ⟨first, -, hsharing⟩ := List.mem_flatMap.mp hmem
    exact hwarning (mem_sharing.mp hsharing).1

/-- The sizes of the lines add up to the number of warnings. -/
theorem sum_sizes (h : Heads warnings firsts) :
    (firsts.map fun first => (first.sharing warnings).length).sum = warnings.length := by
  rw [← List.length_flatMap]
  exact h.flatMap_sharing_perm.length_eq

end Heads

/-! ## The groups -/

/-- The groups are those of the list, with their sizes. -/
structure Counted (warnings : List Warning) (groups : List Group) : Prop where
  heads : Heads warnings (groups.map Group.first)
  size : ∀ group ∈ groups, group.size = (group.first.sharing warnings).length

/-- A warning is counted in the first group whose line it shares, or in a new group at the end. -/
theorem Group.count_cases (warning : Warning) (groups : List Group) :
    (∃ before group after, groups = before ++ group :: after ∧ SharesLine group.first warning ∧
      count warning groups = before ++ { group with more := group.more + 1 } :: after) ∨
    ((∀ group ∈ groups, ¬SharesLine group.first warning) ∧
      count warning groups = groups ++ [{ first := warning }]) := by
  induction groups with
  | nil => exact .inr ⟨by simp, rfl⟩
  | cons group groups ih =>
      by_cases htopic : group.first.topic = warning.topic
      · refine .inl ⟨[], group, groups, rfl, sharesLine_iff.mpr htopic, ?_⟩
        rw [count, if_pos htopic]
        rfl
      · rw [count, if_neg htopic]
        obtain ⟨before, found, after, rfl, hshares, hcount⟩ | ⟨hnew, hcount⟩ := ih
        · exact .inl ⟨group :: before, found, after, rfl, hshares, by rw [hcount]; rfl⟩
        · refine .inr ⟨?_, by rw [hcount]; rfl⟩
          rw [List.forall_mem_cons]
          exact ⟨fun hshares => htopic (sharesLine_iff.mp hshares), hnew⟩

namespace Counted

variable {warnings : List Warning} {warning : Warning} {groups before after : List Group}
  {group : Group}

theorem nil : Counted [] [] where
  heads := .nil
  size := by simp

theorem subset_middle : before ++ after ⊆ before ++ group :: after :=
  ((List.sublist_cons_self group after).append_left before).subset

/-- Only one group has the line of a warning. -/
theorem not_sharesLine
    (h : Counted warnings (before ++ group :: after)) (hshares : SharesLine group.first warning) :
    ∀ other ∈ before ++ after, ¬SharesLine other.first warning := by
  intro other hother hsharesOther
  have hnodup := h.heads.nodup
  rw [List.map_append, List.map_cons, List.nodup_middle, List.nodup_cons, ← List.map_append]
    at hnodup
  have hfirst := h.heads.first other.first (List.mem_map_of_mem (subset_middle hother))
  have hgroup := h.heads.first group.first (List.mem_map_of_mem (by simp))
  have heq : other.first = group.first :=
    eq_of_head?_sharing hfirst hgroup (hsharesOther.trans hshares.symm)
  exact hnodup.1 (heq ▸ List.mem_map_of_mem hother)

theorem enlarged
    (h : Counted warnings (before ++ group :: after)) (hshares : SharesLine group.first warning) :
    Counted (warnings ++ [warning])
      (before ++ { group with more := group.more + 1 } :: after) where
  heads := by
    have hseen : ∃ first ∈ (before ++ group :: after).map Group.first, SharesLine first warning :=
      ⟨group.first, List.mem_map_of_mem (by simp), hshares⟩
    simpa using h.heads.concat_of_exists hseen
  size := by
    intro other hother
    obtain rfl | hother : other = { group with more := group.more + 1 } ∨
        other ∈ before ++ after := by simpa [or_left_comm] using hother
    · have hsize := h.size group (by simp)
      rw [sharing_concat_of_sharesLine hshares, List.length_append, ← hsize]
      rfl
    · rw [sharing_concat_of_not (h.not_sharesLine hshares other hother)]
      exact h.size other (subset_middle hother)

theorem opened
    (h : Counted warnings groups) (hnew : ∀ group ∈ groups, ¬SharesLine group.first warning) :
    Counted (warnings ++ [warning]) (groups ++ [{ first := warning }]) := by
  have hfirsts : ∀ first ∈ groups.map Group.first, ¬SharesLine first warning := by
    simpa using hnew
  constructor
  · rw [List.map_append]
    exact h.heads.concat_of_forall_not hfirsts
  · intro group hgroup
    obtain hmem | rfl : group ∈ groups ∨ group = { first := warning } := by simpa using hgroup
    · rw [sharing_concat_of_not (hnew group hmem)]
      exact h.size group hmem
    · rw [sharing_concat_of_sharesLine (.refl warning), h.heads.sharing_eq_nil hfirsts]
      rfl

/-- Counting one more warning keeps heads and sizes. -/
theorem count (h : Counted warnings groups) (warning : Warning) :
    Counted (warnings ++ [warning]) (Group.count warning groups) := by
  obtain ⟨before, group, after, rfl, hshares, hcount⟩ | ⟨hnew, hcount⟩ :=
    Group.count_cases warning groups
  · rw [hcount]
    exact h.enlarged hshares
  · rw [hcount]
    exact h.opened hnew

end Counted

theorem groups_concat (warnings : List Warning) (warning : Warning) :
    groups (warnings ++ [warning]) = Group.count warning (groups warnings) :=
  List.foldl_concat _ _ _ _

theorem counted_groups (warnings : List Warning) : Counted warnings (groups warnings) := by
  -- The last warning is counted last, so the list is taken apart from its end.
  induction warnings using List.reverseRecOn with
  | nil => exact .nil
  | append_singleton warnings warning ih =>
      rw [groups_concat]
      exact ih.count warning

/-! ## The index -/

namespace Tally

/-- The topics of the groups. -/
def topics (tally : Tally) : List Topic :=
  tally.groups.map fun group => group.first.topic

/-- The index has the places of the topics of the groups, and no others. -/
def InStep (tally : Tally) : Prop :=
  ∀ topic place, tally.place? topic = some place ↔ tally.topics[place]? = some topic

variable {tally : Tally} {warning : Warning}

theorem topics_opened (tally : Tally) (warning : Warning) :
    (tally.opened warning).topics = tally.topics ++ [warning.topic] := by
  simp [topics, opened]

theorem place?_opened (tally : Tally) (warning : Warning) (topic : Topic) :
    (tally.opened warning).place? topic =
      if topic = warning.topic then some tally.topics.length else tally.place? topic := by
  rw [place?, opened, List.lookup_cons]
  by_cases htopic : topic = warning.topic
  · rw [if_pos htopic, beq_iff_eq.mpr htopic, topics, List.length_map]
  · rw [if_neg htopic, beq_eq_false_iff_ne.mpr htopic]
    rfl

theorem getElem?_concat_eq_some_iff {α : Type} {items : List α} {item last : α} {place : Nat} :
    (items ++ [last])[place]? = some item ↔
      items[place]? = some item ∨ items.length = place ∧ last = item := by
  grind

theorem inStep_empty : InStep {} := by
  intro topic place
  simp [place?, topics]

/-- The index has no place for a topic that no group has. -/
theorem InStep.place?_eq_none
    (h : tally.InStep) (hnew : ∀ group ∈ tally.groups, ¬SharesLine group.first warning) :
    tally.place? warning.topic = none := by
  rw [Option.eq_none_iff_forall_ne_some]
  intro place hplace
  obtain ⟨group, hgroup, htopic⟩ := List.mem_map.mp (List.mem_of_getElem? ((h _ _).mp hplace))
  exact hnew group hgroup (sharesLine_iff.mpr htopic)

/-- A new group stands at the place that the index gets for it. -/
theorem InStep.opened (h : tally.InStep) (hnew : tally.place? warning.topic = none) :
    (tally.opened warning).InStep := by
  intro topic place
  rw [topics_opened, place?_opened, getElem?_concat_eq_some_iff]
  by_cases htopic : topic = warning.topic
  · subst htopic
    have hnone : tally.topics[place]? ≠ some warning.topic := by
      rw [ne_eq, ← h, hnew]
      exact fun hfound => nomatch hfound
    rw [if_pos rfl]
    simp [hnone]
  · rw [if_neg htopic, h]
    simp [Ne.symm htopic]

/-- In step with the groups, the index leads to the group that a search finds. -/
theorem InStep.enlarged?_eq_some
    (h : tally.InStep) {before after : List Group} {group : Group}
    (hgroups : tally.groups = before ++ group :: after) :
    ∃ enlarged, tally.enlarged? before.length = some enlarged ∧ enlarged.InStep ∧
      enlarged.groups = before ++ { group with more := group.more + 1 } :: after := by
  let enlarged : Tally :=
    { tally with groups := before ++ { group with more := group.more + 1 } :: after }
  refine ⟨enlarged, ?_, ?_, rfl⟩
  · simp [enlarged?, hgroups, enlarged]
  · intro topic place
    have htopics : enlarged.topics = tally.topics := by
      simp [topics, enlarged, hgroups]
    rw [htopics]
    exact h topic place

/-- A count never fails, keeps index and groups in step, and does to the groups what a search
does. -/
theorem InStep.exists_count? (h : tally.InStep) (warning : Warning) :
    ∃ after, tally.count? warning = some after ∧ after.InStep ∧
      after.groups = Group.count warning tally.groups := by
  obtain ⟨before, group, after, hgroups, hshares, hcount⟩ | ⟨hnew, hcount⟩ :=
    Group.count_cases warning tally.groups
  · have hplace : tally.place? warning.topic = some before.length := by
      rw [h, topics, hgroups]
      simpa using sharesLine_iff.mp hshares
    obtain ⟨enlarged, henlarged, hinStep, heq⟩ := h.enlarged?_eq_some hgroups
    refine ⟨enlarged, ?_, hinStep, heq.trans hcount.symm⟩
    rw [count?, hplace]
    exact henlarged
  · have hplace := h.place?_eq_none hnew
    refine ⟨tally.opened warning, ?_, h.opened hplace, hcount.symm⟩
    rw [count?, hplace]

theorem exists_ofWarnings? (warnings : List Warning) :
    ∃ tally, ofWarnings? warnings = some tally ∧ tally.InStep ∧
      tally.groups = Warning.groups warnings := by
  induction warnings using List.reverseRecOn with
  | nil => exact ⟨{}, rfl, inStep_empty, rfl⟩
  | append_singleton warnings warning ih =>
      obtain ⟨tally, hcounted, hinStep, hgroups⟩ := ih
      obtain ⟨after, hcount, hafter, heq⟩ := hinStep.exists_count? warning
      refine ⟨after, ?_, hafter, ?_⟩
      · rw [ofWarnings?] at hcounted ⊢
        rw [List.foldlM_append, hcounted]
        simpa using hcount
      · rw [heq, hgroups, groups_concat]

/-- The lines can be found with the index. -/
theorem summary?_eq_some (warnings : List Warning) :
    summary? warnings = some (summary warnings) := by
  obtain ⟨tally, htally, -, hgroups⟩ := exists_ofWarnings? warnings
  rw [summary?, htally, Option.map_some, hgroups, summary]

end Tally

/-! ## The lines -/

/-- What a line adds to its first warning to tell that it stands for `n` warnings. -/
inductive Tells : Warning → Nat → String → Prop
  /-- Nothing is added to a single warning. -/
  | once (warning : Warning) : Tells warning 1 ""
  /-- Dropped attributes are counted in all. -/
  | times (element name : String) (side : Side) {n : Nat} (h : 1 < n) :
      Tells (.unresolvedAttribute element name side) n (" (" ++ toString n ++ " times)")
  /-- Of unmatched nodes, the further ones are counted. -/
  | further (pathname detail : String) {n : Nat} (h : 0 < n) :
      Tells (.unmatchedNode pathname detail) (n + 1) (" (+" ++ toString n ++ " more)")

/-- The number can be read off. -/
theorem Tells.eq {first : Warning} {m n : Nat} {remark : String}
    (hm : Tells first m remark) (hn : Tells first n remark) : m = n := by
  generalize hremark : remark = other at hn
  replace hremark := congrArg String.toList hremark
  cases hm <;> cases hn <;>
    simp only [String.toList_append, Comparison.toList_toString] at hremark
  case once.once => rfl
  case times.times =>
    exact Comparison.toDigits_injective
      (List.append_cancel_left (List.append_cancel_right hremark))
  case further.further =>
    have hdigits := List.append_cancel_left (List.append_cancel_right hremark)
    rw [Comparison.toDigits_injective hdigits]
  all_goals simp at hremark

theorem Group.tells_remark (group : Group) : Tells group.first group.size group.remark := by
  obtain ⟨first, more⟩ := group
  rw [remark, size]
  split_ifs with hmore
  · obtain rfl : more = 0 := hmore
    exact .once first
  · have hpos : 0 < more := Nat.pos_of_ne_zero hmore
    cases first with
    | unresolvedAttribute element name side =>
        exact .times element name side (Nat.succ_lt_succ hpos)
    | unmatchedNode pathname detail => exact .further pathname detail hpos

theorem Group.tells_remark_iff {group : Group} {n : Nat} :
    Tells group.first n group.remark ↔ n = group.size :=
  ⟨fun h => h.eq group.tells_remark, fun h => h ▸ group.tells_remark⟩

/-- However narrow the terminal is, the lines of a report are shown with their ends. -/
theorem map_shown_report (terminal : Terminal) (collection : String) (warnings : List Warning) :
    (report collection warnings).map (terminal.shown "warn") = report collection warnings := by
  have hkept : Terminal.keepsLine "warn" = true := by decide +kernel
  have hshown : ∀ line, terminal.shown "warn" line = line := by
    intro line
    rw [Terminal.shown, hkept, Bool.or_true, if_pos rfl]
  rw [funext hshown, List.map_id']

/-- A report has one line for every warning that shares its line with no earlier one, in the order
of the list.  The line begins with this warning and ends with a remark that tells how many warnings
share it, and these numbers add up to the total, which the report ends with.  Counting with an index
gives the same lines, and none of them is cut on a terminal. -/
theorem lines_of_report (terminal : Terminal) (collection : String) (warnings : List Warning) :
    ∃ firsts : List Warning, Heads warnings firsts ∧
      List.Forall₂
        (fun first line => ∃ remark, line = first.message ++ remark ∧
          ∀ n, Tells first n remark ↔ n = (first.sharing warnings).length)
        firsts (summary warnings) ∧
      (firsts.map fun first => (first.sharing warnings).length).sum = warnings.length ∧
      Tally.summary? warnings = some (summary warnings) ∧
      (report collection warnings).map (terminal.shown "warn") =
        if warnings = [] then []
        else (summary warnings ++ [toString warnings.length ++ " warnings"]).map
          (collection ++ ": " ++ ·) := by
  have hcounted := counted_groups warnings
  refine ⟨(groups warnings).map Group.first, hcounted.heads, ?_, hcounted.heads.sum_sizes,
    Tally.summary?_eq_some warnings, ?_⟩
  · rw [summary, List.forall₂_map_left_iff, List.forall₂_map_right_iff, List.forall₂_same]
    intro group hgroup
    refine ⟨group.remark, rfl, fun n => ?_⟩
    rw [Group.tells_remark_iff, hcounted.size group hgroup]
  · rw [map_shown_report, report]
    simp only [List.isEmpty_iff]

example :
    summary
        [.unmatchedNode "b.html" "text \"y\" has no slot in the layout",
          .unresolvedAttribute "a" "target" .second,
          .unmatchedNode "b.html" "<aside> has no slot in the layout",
          .unresolvedAttribute "a" "target" .second, .unresolvedAttribute "a" "target" .first] =
      ["b.html: text \"y\" has no slot in the layout (+1 more)",
        "dropped attribute `target` on <a>: only present on the second side (2 times)",
        "dropped attribute `target` on <a>: only present on the first side"] := by
  decide

end Stencil.Warning
