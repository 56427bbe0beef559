import Mathlib.Data.List.Forall2
import Stencil.Markup.Reader
import Stencil.Proofs.Markup.Ignored
import Stencil.Proofs.Markup.RoundTrip

/-!
# Byte order marks

A byte order mark at the beginning of markup is skipped.  Anywhere else it is a character of a
text, so markup that begins with one is not read the same behind other markup
(`build_kept_mark_ne`): its mark is a character more in a text, or a text of its own.
-/

namespace Stencil.Markup

open Builder

variable {collapse : Bool}

theorem parse_eq_ok_iff {markup : String} {tree : List Node} :
    parse collapse markup = .ok tree ↔
      ∃ events, readEvents (unmark markup.toList).1 (unmark markup.toList).2 = .ok events ∧
        build collapse events = tree := by
  cases hread : readEvents (unmark markup.toList).1 (unmark markup.toList).2 <;>
    simp [parse, hread]

theorem unmark_of_head?_ne {cs : List Char} (hhead : cs.head? ≠ some '\uFEFF') :
    unmark cs = (false, cs) :=
  unmark.eq_2 cs fun rest heq => hhead (by rw [heq]; rfl)

/-! ## Builders of the same shape -/

namespace Builder

/-- The builders have as many roots, open elements of the same names, and the same pending text. -/
structure Alike (builder other : Builder) : Prop where
  roots : builder.roots.length = other.roots.length
  names : builder.elements.map OpenElement.name = other.elements.map OpenElement.name
  pending : builder.pending = other.pending

variable {builder other : Builder}

theorem Alike.append (h : Alike builder other) (node next : Node) :
    Alike (builder.append node) (other.append next) := by
  obtain ⟨roots, elements, pending⟩ := builder
  obtain ⟨roots', elements', pending'⟩ := other
  obtain ⟨hroots, hnames, hpending⟩ := h
  cases elements with
  | nil =>
      obtain rfl : elements' = [] := by simpa using hnames.symm
      exact ⟨congrArg Nat.succ hroots, rfl, hpending⟩
  | cons element outer =>
      cases elements' with
      | nil => cases hnames
      | cons element' outer' => exact ⟨hroots, hnames, hpending⟩

theorem Alike.flush (collapse : Bool) (h : Alike builder other) :
    Alike (builder.flush collapse) (other.flush collapse) := by
  have hclear : Alike { builder with pending := [] } { other with pending := [] } :=
    ⟨h.roots, h.names, rfl⟩
  rw [flush_eq, flush_eq, appendText, appendText, h.pending]
  split
  · exact hclear
  · exact hclear.append _ _

theorem Alike.pop (h : Alike builder other) : Alike builder.pop other.pop := by
  obtain ⟨roots, elements, pending⟩ := builder
  obtain ⟨roots', elements', pending'⟩ := other
  obtain ⟨hroots, hnames, hpending⟩ := h
  cases elements with
  | nil =>
      obtain rfl : elements' = [] := by simpa using hnames.symm
      exact ⟨hroots, rfl, hpending⟩
  | cons element outer =>
      cases elements' with
      | nil => cases hnames
      | cons element' outer' =>
          have hrest : Alike ⟨roots, outer, pending⟩ ⟨roots', outer', pending'⟩ :=
            ⟨hroots, (List.cons.inj hnames).2, hpending⟩
          exact hrest.append _ _

theorem Alike.popMany (n : Nat) (h : Alike builder other) :
    Alike (builder.popMany n) (other.popMany n) := by
  induction n generalizing builder other with
  | zero => exact h
  | succ n ih => exact ih h.pop

end Builder

/-- The events are the same, or complete nodes both. -/
inductive Event.Alike : Event → Event → Prop
  | same (event : Event) : Alike event event
  | node (node next : Node) : Alike (.node node) (.node next)

theorem Builder.Alike.add {builder other : Builder} {event next : Event}
    (h : builder.Alike other) (hevent : event.Alike next) :
    Builder.Alike (builder.add collapse event) (other.add collapse next) := by
  have hflush := h.flush collapse
  cases hevent with
  | node => exact hflush.append _ _
  | same =>
      cases event with
      | text value => exact ⟨h.roots, h.names, congrArg (· ++ value) h.pending⟩
      | opened name attrs => exact ⟨hflush.roots, congrArg (name :: ·) hflush.names, hflush.pending⟩
      | node => exact hflush.append _ _
      | closed name =>
          have hfind := congrArg (List.findIdx? (· = name)) hflush.names
          simp only [List.findIdx?_map, Function.comp_def] at hfind
          rw [Builder.add, Builder.add, hfind]
          split
          · exact hflush
          · exact hflush.popMany _

theorem Builder.Alike.foldl_add
    {builder other : Builder} {events others : List Event} (collapse : Bool)
    (h : builder.Alike other) (hevents : List.Forall₂ Event.Alike events others) :
    Builder.Alike (events.foldl (Builder.add collapse) builder)
      (others.foldl (Builder.add collapse) other) := by
  induction hevents generalizing builder other with
  | nil => exact h
  | cons hevent _ ih => exact ih (h.add hevent)

/-- Trees of such events have as many nodes at the top level. -/
theorem length_build_of_alike
    {events others : List Event} (collapse : Bool)
    (hevents : List.Forall₂ Event.Alike events others) :
    (build collapse events).length = (build collapse others).length := by
  have hstart : Builder.Alike {} {} := ⟨rfl, rfl, rfl⟩
  have hflush := (hstart.foldl_add collapse hevents).flush collapse
  have hcount : ((events.foldl (add collapse) {}).flush collapse).elements.length =
      ((others.foldl (add collapse) {}).flush collapse).elements.length := by
    simpa using congrArg List.length hflush.names
  have hfinish := (hflush.popMany
    ((others.foldl (add collapse) {}).flush collapse).elements.length).roots
  rw [build, build, finish, finish, List.length_reverse, List.length_reverse, hcount]
  exact hfinish

/-! ## Reading with and without a mark -/

theorem exists_alike_append
    {marked other : Bool} {cs later : List Char} {next events : List Event} (before : List Event)
    (hread : (readEvents marked later).map (before ++ ·) = .ok events)
    (hother : readEvents other cs = (readEvents other later).map (next ++ ·))
    (hbefore : List.Forall₂ Event.Alike before next)
    (hlater : ∀ {events : List Event}, readEvents marked later = .ok events →
      ∃ others, readEvents other later = .ok others ∧ List.Forall₂ Event.Alike events others) :
    ∃ others, readEvents other cs = .ok others ∧ List.Forall₂ Event.Alike events others := by
  cases hmarked : readEvents marked later with
  | error fault =>
      rw [hmarked] at hread
      cases hread
  | ok inside =>
      rw [hmarked] at hread
      cases hread
      obtain ⟨others, hothers, halike⟩ := hlater hmarked
      exact ⟨next ++ others, by rw [hother, hothers]; rfl, List.rel_append hbefore halike⟩

/-- A mark makes a difference to the texts of script and style elements only. -/
theorem exists_alike_of_readEvents
    {marked : Bool} {cs : List Char} {events : List Event} (other : Bool)
    (hread : readEvents marked cs = .ok events) :
    ∃ others, readEvents other cs = .ok others ∧ List.Forall₂ Event.Alike events others := by
  fun_induction readEvents marked cs generalizing events with
  | case1 =>
      cases hread
      exact ⟨[], by rw [readEvents], .nil⟩
  | case2 => cases hread
  | case3 c cs name attrs later htoken small hvoid =>
      rename_i ih
      exact exists_alike_append [_] hread (readEvents_void htoken hvoid) (.cons (.same _) .nil) ih
  | case4 => cases hread
  | case5 c cs name attrs later htoken small hvoid hraw tag after hfind body =>
      rename_i ih
      have hother : readEvents other (c :: cs) = _ :=
        readEvents_raw htoken (by simpa using hvoid) hraw hfind
      exact exists_alike_append [_] hread hother (.cons (.node _ _) .nil) ih
  | case6 c cs name attrs later htoken small hvoid hraw =>
      rename_i ih
      have hother : readEvents other (c :: cs) = _ :=
        readEvents_opened htoken (by simpa using hvoid) (by simpa using hraw)
      exact exists_alike_append [_] hread hother (.cons (.same _) .nil) ih
  | case7 c cs token later hstart htoken ih =>
      have hother : readEvents other (c :: cs) =
          (readEvents other later).map ((eventOf token).toList ++ ·) := by
        rw [readEvents_cons htoken]
        split
        · exact (hstart _ _ rfl).elim
        · rfl
      refine exists_alike_append _ hread hother ?_ ih
      exact List.forall₂_same.mpr fun event _ => .same event

/-! ## A mark that is kept -/

/-- The node of a text, unless its value is empty. -/
def textNodes (value : List Char) : List Node :=
  if value.isEmpty then [] else [.text (.ofList value)]

theorem textNodes_injective {value other : List Char} (heq : textNodes value = textNodes other) :
    value = other := by
  rw [textNodes, textNodes] at heq
  split at heq <;> split at heq
  · simp_all
  · cases heq
  · cases heq
  · simp only [List.cons.injEq, Node.text.injEq, and_true] at heq
    simpa using congrArg String.toList heq

/-- The node of the text at the beginning comes before all others. -/
theorem build_eq (events : List Event) :
    build collapse events =
      textNodes (textValue collapse (leadingText events)) ++ build collapse (afterText events) := by
  have hrun : run collapse {} events = _ := run_eq {} events
  rw [List.nil_append, appendText] at hrun
  rw [textNodes]
  split at hrun
  · rename_i hempty
    rw [if_pos hempty]
    exact hrun
  · rename_i hne
    rw [if_neg hne]
    refine hrun.trans ?_
    have hbehind := @foldl_add_behind collapse {}
      [.text (.ofList (textValue collapse (leadingText events)))] (afterText events)
    exact (congrArg (finish collapse) hbehind).trans (finish_behind _)

theorem alike_afterText {events others : List Event}
    (h : List.Forall₂ Event.Alike events others) :
    leadingText events = leadingText others ∧
      List.Forall₂ Event.Alike (afterText events) (afterText others) := by
  induction h with
  | nil => exact ⟨rfl, .nil⟩
  | @cons event next events others hevent hrest ih =>
      cases hevent with
      | node => exact ⟨rfl, .cons (.node _ _) hrest⟩
      | same =>
          cases event with
          | text value => exact ⟨congrArg (value ++ ·) ih.1, ih.2⟩
          | opened | node | closed => exact ⟨rfl, .cons (.same _) hrest⟩

theorem leadingText_append (parts : List (List Char)) (events : List Event) :
    leadingText (parts.map .text ++ events) = parts.flatten ++ leadingText events ∧
      afterText (parts.map .text ++ events) = afterText events := by
  induction parts with
  | nil => simp
  | cons part parts ih => simpa [leadingText, afterText] using ih

theorem textValue_mark_ne (cs : List Char) :
    textValue collapse ('\uFEFF' :: cs) ≠ textValue collapse cs := by
  cases collapse with
  | false => simp [textValue]
  | true => exact Text.collapsed_cons_ne cs (by decide)

/-- Markup that begins with a mark gives another tree when the mark is kept. -/
theorem build_kept_mark_ne {cs : List Char} {skipped kept : List Event}
    (hskipped : readEvents true cs = .ok skipped)
    (hkept : readEvents false ('\uFEFF' :: cs) = .ok kept) :
    build collapse kept ≠ build collapse skipped := by
  obtain ⟨others, hothers, halike⟩ := exists_alike_of_readEvents false hskipped
  obtain ⟨hleading, hafter⟩ := alike_afterText halike
  obtain ⟨parts, hparts, hreads⟩ := reads_run cs
  have hmark : readEvents false ('\uFEFF' :: cs) = _ :=
    readEvents_cons (nextToken_text cs (by decide))
  rw [hkept] at hmark
  rw [Reads, hothers] at hreads
  cases hrest : readEvents false (cs.dropWhile isTextChar) with
  | error fault => simp [hrest, Except.map] at hreads
  | ok rest =>
      obtain rfl : others = parts.map .text ++ rest := by simpa [hrest, Except.map] using hreads
      obtain rfl : kept = .text ('\uFEFF' :: parts.flatten) :: rest := by
        simpa [hrest, Except.map, eventOf, hparts] using hmark
      obtain ⟨htext, hrest⟩ := leadingText_append parts rest
      rw [htext] at hleading
      rw [hrest] at hafter
      have hlength := length_build_of_alike collapse hafter
      intro heq
      rw [build_eq, build_eq skipped, hleading] at heq
      have hnodes := (List.append_inj' heq hlength.symm).1
      exact textValue_mark_ne _ (textNodes_injective hnodes)

end Stencil.Markup
