import Mathlib.Data.List.Chain
import Stencil.Proofs.Markup.Siblings
import Stencil.Proofs.Node.Concrete
import Stencil.Proofs.Text.Words

/-!
# Ignored end tags

An end tag without an open element of its name closes nothing.  It leaves a trace all the same when
it stands inside a text: the text before it is complete, and what comes after it is a text of its
own.  Deleting one such end tag changes the tree exactly if there is text on both sides of it, and
deleting all of them changes the tree exactly if two texts are next to each other in it
(`build_ignored_iff`).

Everything is proved of a builder that has taken in some events already, `run`.
-/

namespace Stencil

/-! ## Neighbouring texts -/

namespace Node

/-- One of two neighbouring siblings is not a text. -/
def Parted (node next : Node) : Prop :=
  node.kind ≠ .text ∨ next.kind ≠ .text

instance : DecidableRel Parted :=
  fun _ _ => inferInstanceAs (Decidable (_ ∨ _))

/-- The children of an element have no two texts next to each other. -/
def ChildrenParted : Node → Prop
  | .element _ _ children => children.IsChain Parted
  | _ => True

instance : DecidablePred ChildrenParted
  | .element _ _ children => inferInstanceAs (Decidable (children.IsChain Parted))
  | .doctype _ | .text _ | .comment _ | .var _ | .conditional .. | .content | .markdown _
  | .loop .. => isTrue trivial

/-- No two texts are next to each other, at any depth. -/
def Unsplit (nodes : List Node) : Prop :=
  nodes.IsChain Parted ∧ Everywhere ChildrenParted nodes

instance (nodes : List Node) : Decidable (Unsplit nodes) :=
  inferInstanceAs (Decidable (_ ∧ _))

theorem unsplit_nil : Unsplit [] :=
  ⟨.nil, everywhere_nil⟩

theorem unsplit_append_singleton {nodes : List Node} {node : Node} :
    Unsplit (nodes ++ [node]) ↔
      Unsplit nodes ∧ Unsplit [node] ∧ ∀ last ∈ nodes.getLast?, Parted last node := by
  simp only [Unsplit, List.isChain_append, everywhere_append, List.head?_cons, Option.mem_some_iff,
    forall_eq', List.isChain_singleton, true_and]
  tauto

theorem unsplit_element {name : String} {attrs : List Attribute} {children : List Node} :
    Unsplit [.element name attrs children] ↔ Unsplit children := by
  simp only [Unsplit, List.isChain_singleton, everywhere_element, ChildrenParted, everywhere_nil,
    and_true, true_and]

theorem unsplit_text (value : String) : Unsplit [.text value] := by
  simp [Unsplit, ChildrenParted]

/-- A list that ends in an element. -/
theorem unsplit_append_element
    {nodes children : List Node} {name : String} {attrs : List Attribute} :
    Unsplit (nodes ++ [.element name attrs children]) ↔ Unsplit nodes ∧ Unsplit children := by
  simp [unsplit_append_singleton, unsplit_element, Parted, kind]

end Node

namespace Markup

open Node

/-! ## Text at the ends of a sequence of events -/

/-- The run of text that an event leaves, given the run before it. -/
def textAfter (run : List Char) : Event → List Char
  | .text value => run ++ value
  | _ => []

/-- The text at the end of a sequence of events. -/
def trailingText (events : List Event) : List Char :=
  events.foldl textAfter []

/-- The text at the beginning of a sequence of events. -/
def leadingText : List Event → List Char
  | .text value :: events => value ++ leadingText events
  | _ => []

/-- The events after the text at the beginning. -/
def afterText : List Event → List Event
  | .text _ :: events => afterText events
  | events => events

/-- The event is not a complete node that is a text, or that has two texts next to each other below
it. -/
def Event.AddsNoText : Event → Prop
  | .node added => Unsplit [added] ∧ added.kind ≠ .text
  | _ => True

instance : DecidablePred Event.AddsNoText
  | .node added => inferInstanceAs (Decidable (Unsplit [added] ∧ added.kind ≠ .text))
  | .text _ | .opened .. | .closed _ => isTrue trivial

namespace Builder

/-- Take in the events and finish the tree. -/
def run (collapse : Bool) (builder : Builder) (events : List Event) : List Node :=
  (events.foldl (add collapse) builder).finish collapse

/-- The event is an end tag without an open element of its name. -/
def Ignores (builder : Builder) : Event → Bool
  | .closed name => builder.elements.all (·.name ≠ name)
  | _ => false

/-- The events without the end tags that are ignored. -/
def heeded (collapse : Bool) : Builder → List Event → List Event
  | _, [] => []
  | builder, event :: events =>
    if builder.Ignores event then heeded collapse builder events
    else event :: heeded collapse (builder.add collapse event) events

/-- Add a text node, unless its value is empty. -/
def appendText (builder : Builder) (value : List Char) : Builder :=
  if value.isEmpty then builder else builder.append (.text (.ofList value))

variable {collapse : Bool} {builder : Builder} {event : Event} {events : List Event}

theorem flush_eq :
    builder.flush collapse =
      appendText { builder with pending := [] } (textValue collapse builder.pending) :=
  rfl

@[simp]
theorem pending_appendText (value : List Char) :
    (builder.appendText value).pending = builder.pending := by
  rw [appendText]
  split
  · rfl
  · exact pending_append _

@[simp]
theorem flush_flush : (builder.flush collapse).flush collapse = builder.flush collapse :=
  flush_of_pending_eq_nil pending_flush

theorem map_name_flush :
    (builder.flush collapse).elements.map OpenElement.name =
      builder.elements.map OpenElement.name := by
  rw [flush_eq, appendText]
  split
  · rfl
  · rw [append]
    split <;> simp_all

theorem ignores_flush (collapse : Bool) :
    (builder.flush collapse).Ignores event = builder.Ignores event := by
  cases event with
  | closed name =>
      have hnames := congrArg (List.all · (· ≠ name)) (@map_name_flush collapse builder)
      simpa [Ignores, Function.comp_def] using hnames
  | text | opened | node => rfl

/-- An ignored end tag makes the pending text a node. -/
theorem add_of_ignores (h : builder.Ignores event = true) :
    builder.add collapse event = builder.flush collapse := by
  rw [← ignores_flush collapse] at h
  cases event with
  | closed name =>
      have hnone : (builder.flush collapse).elements.findIdx? (·.name = name) = none := by
        rw [List.findIdx?_eq_none_iff]
        simpa [Ignores] using h
      rw [add, hnone]
  | text | opened | node => cases h

/-! ## Running over a text -/

theorem pending_foldl_add :
    (events.foldl (add collapse) builder).pending = events.foldl textAfter builder.pending := by
  induction events generalizing builder with
  | nil => rfl
  | cons event events ih =>
      rw [List.foldl_cons, List.foldl_cons, ih]
      congr 1
      cases event with
      | text value => rfl
      | opened | node | closed => exact pending_add (by simp)

theorem pending_foldl_add_empty :
    (events.foldl (add collapse) {}).pending = trailingText events :=
  pending_foldl_add

/-- All other events, and the end, make the pending text a node first. -/
theorem run_flush (hevents : ∀ value rest, events ≠ .text value :: rest) :
    run collapse (builder.flush collapse) events = run collapse builder events := by
  cases events with
  | nil => simp [run, finish]
  | cons event events =>
      cases event with
      | text value => exact absurd rfl (hevents value events)
      | opened | node | closed => simp [run, add]

theorem afterText_ne (events : List Event) :
    ∀ value rest, afterText events ≠ .text value :: rest := by
  induction events with
  | nil => simp [afterText]
  | cons event events ih =>
      cases event with
      | text value => exact ih
      | opened | node | closed => simp [afterText]

/-- The text at the beginning of the events goes on with the pending text, and both are complete
when another event comes or the events end. -/
theorem run_text (builder : Builder) (events : List Event) :
    run collapse builder events =
      run collapse
        (flush collapse { builder with pending := builder.pending ++ leadingText events })
        (afterText events) := by
  rw [run_flush (afterText_ne events)]
  induction events generalizing builder with
  | nil => simp [leadingText, afterText]
  | cons event events ih =>
      cases event with
      | text value =>
          have hstep : run collapse builder (.text value :: events) =
              run collapse { builder with pending := builder.pending ++ value } events := rfl
          rw [hstep, ih]
          simp [leadingText, afterText]
      | opened | node | closed => simp [leadingText, afterText]

/-- Without the split, the two parts are one text. -/
theorem run_eq (builder : Builder) (events : List Event) :
    run collapse builder events =
      run collapse
        (appendText { builder with pending := [] }
          (textValue collapse (builder.pending ++ leadingText events)))
        (afterText events) := by
  rw [run_text, flush_eq]

/-- With a split in between, the text before it and the text after it are two nodes. -/
theorem run_flush_eq (builder : Builder) (events : List Event) :
    run collapse (builder.flush collapse) events =
      run collapse
        (appendText
          (appendText { builder with pending := [] } (textValue collapse builder.pending))
          (textValue collapse (leadingText events)))
        (afterText events) := by
  have hclear : (builder.flush collapse).pending = [] := pending_flush
  have hsame : { builder.flush collapse with pending := [] } = builder.flush collapse := by
    rw [← hclear]
  rw [run_eq, hclear, List.nil_append, hsame, flush_eq]

/-! ## Text that does not show -/

theorem textValue_append_of_left (after : List Char) {before : List Char}
    (hbefore : textValue collapse before = []) :
    textValue collapse (before ++ after) = textValue collapse after := by
  cases collapse with
  | false => simp_all [textValue]
  | true =>
      have hblank := Text.isBlank_of_collapsed_eq_nil hbefore
      exact Text.collapsed_append_of_blank_left after hblank

theorem textValue_append_of_right (before : List Char) {after : List Char}
    (hafter : textValue collapse after = []) :
    textValue collapse (before ++ after) = textValue collapse before := by
  cases collapse with
  | false => simp_all [textValue]
  | true =>
      have hblank := Text.isBlank_of_collapsed_eq_nil hafter
      exact Text.collapsed_append_of_blank_right before hblank

/-- A split does not show where there is no text on one side of it. -/
theorem run_flush_of_textValue_eq_nil
    (hblank : textValue collapse builder.pending = [] ∨
      textValue collapse (leadingText events) = []) :
    run collapse (builder.flush collapse) events = run collapse builder events := by
  rw [run_flush_eq, run_eq builder]
  rcases hblank with hpending | hleading
  · rw [textValue_append_of_left _ hpending, hpending]
    rfl
  · rw [textValue_append_of_right _ hleading, hleading]
    rfl

/-! ## Counting nodes -/

/-- The number of nodes met so far, those in open elements and these themselves included. -/
def size (builder : Builder) : Nat :=
  (preorderList builder.roots).length + builder.elements.length +
    (builder.elements.flatMap fun element => preorderList element.children).length

theorem length_preorderList_append (nodes more : List Node) :
    (preorderList (nodes ++ more)).length =
      (preorderList nodes).length + (preorderList more).length := by
  induction nodes with
  | nil => simp [preorderList]
  | cons node nodes ih => simp [preorderList, ih, Nat.add_assoc]

theorem length_preorderList_reverse (nodes : List Node) :
    (preorderList nodes.reverse).length = (preorderList nodes).length := by
  induction nodes with
  | nil => rfl
  | cons node nodes ih =>
      rw [List.reverse_cons, length_preorderList_append, ih]
      simp [preorderList, Nat.add_comm]

theorem size_append (node : Node) :
    (builder.append node).size = builder.size + node.preorder.length := by
  obtain ⟨roots, elements, pending⟩ := builder
  cases elements with
  | nil => simp [append, size, preorderList, Nat.add_comm]
  | cons element outer =>
      simp only [append, size, preorderList, List.flatMap_cons, List.length_append,
        List.length_cons]
      omega

@[simp]
theorem size_pop : builder.pop.size = builder.size := by
  obtain ⟨roots, elements, pending⟩ := builder
  cases elements with
  | nil => rfl
  | cons element outer =>
      rw [pop, size_append]
      simp only [OpenElement.toNode, preorder, size, List.flatMap_cons, List.length_append,
        List.length_cons, length_preorderList_reverse]
      omega

@[simp]
theorem size_popMany (n : Nat) : (builder.popMany n).size = builder.size := by
  induction n generalizing builder with
  | zero => rfl
  | succ n ih => rw [popMany, ih, size_pop]

theorem size_appendText (value : List Char) :
    (builder.appendText value).size = builder.size + if value.isEmpty then 0 else 1 := by
  rw [appendText]
  split
  · rfl
  · rw [size_append]
    rfl

/-- What an event adds to the number of nodes when some text is pending. -/
def growth (collapse : Bool) (pending : List Char) (event : Event) : Nat :=
  let text := if (textValue collapse pending).isEmpty then 0 else 1
  match event with
  | .text _ => 0
  | .opened .. => text + 1
  | .node node => text + node.preorder.length
  | .closed _ => text

theorem size_flush :
    (builder.flush collapse).size =
      builder.size + if (textValue collapse builder.pending).isEmpty then 0 else 1 := by
  rw [flush_eq, size_appendText]
  rfl

theorem size_add :
    (builder.add collapse event).size = builder.size + growth collapse builder.pending event := by
  have hflush := @size_flush collapse builder
  cases event with
  | text value => rfl
  | opened name attrs =>
      simp only [add, growth, size, preorderList, List.flatMap_cons, List.length_cons,
        List.nil_append] at hflush ⊢
      omega
  | node node => rw [add, size_append, hflush, growth, Nat.add_assoc]
  | closed name =>
      rw [add, growth, ← hflush]
      split
      · rfl
      · exact size_popMany _

/-- What a sequence of events adds to the number of nodes. -/
def growthOf (collapse : Bool) : List Char → List Event → Nat
  | pending, [] => if (textValue collapse pending).isEmpty then 0 else 1
  | pending, event :: events =>
    growth collapse pending event + growthOf collapse (textAfter pending event) events

theorem length_finish :
    (preorderList (builder.finish collapse)).length = (builder.flush collapse).size := by
  rw [finish, length_preorderList_reverse, ← size_popMany (builder.flush collapse).elements.length]
  simp [size, elements_popMany_length]

/-- The number of nodes of a tree depends on the events and on the pending text only, apart from
the nodes met before. -/
theorem length_run :
    (preorderList (run collapse builder events)).length =
      builder.size + growthOf collapse builder.pending events := by
  induction events generalizing builder with
  | nil => exact length_finish.trans size_flush
  | cons event events ih =>
      have hpending := @pending_foldl_add collapse builder [event]
      simp only [List.foldl_cons, List.foldl_nil] at hpending
      have hstep : run collapse builder (event :: events) =
          run collapse (builder.add collapse event) events := rfl
      rw [hstep, ih, size_add, hpending, growthOf, Nat.add_assoc]

/-- Where there is text on both sides, a split gives one more node. -/
theorem run_flush_ne
    (hpending : textValue collapse builder.pending ≠ [])
    (hleading : textValue collapse (leadingText events) ≠ []) :
    run collapse (builder.flush collapse) events ≠ run collapse builder events := by
  intro heq
  have hlength := congrArg (fun nodes => (preorderList nodes).length) heq
  rw [run_flush_eq, run_eq builder] at hlength
  simp only [length_run, size_appendText, pending_appendText, List.isEmpty_iff, hpending, hleading,
    if_false] at hlength
  split at hlength <;> omega

/-! ## Two texts next to each other -/

/-- No two texts are next to each other in what has been built so far. -/
abbrev Unsplit (builder : Builder) : Prop :=
  builder.Each Node.Unsplit fun _ _ => True

theorem unsplit_of_append {node : Node} (h : (builder.append node).Unsplit) : builder.Unsplit :=
  h.of_append fun hsiblings => (unsplit_append_singleton.mp hsiblings).1

theorem unsplit_of_popMany (n : Nat) (h : (builder.popMany n).Unsplit) : builder.Unsplit :=
  h.of_popMany n fun _ _ _ _ hsiblings =>
    ⟨(unsplit_append_element.mp hsiblings).1, trivial, (unsplit_append_element.mp hsiblings).2⟩

theorem unsplit_of_flush (h : (builder.flush collapse).Unsplit) : builder.Unsplit := by
  rw [flush_eq, appendText] at h
  split at h
  · exact h
  · have hclear : Unsplit { builder with pending := [] } := unsplit_of_append h
    exact hclear

theorem unsplit_of_add (h : (builder.add collapse event).Unsplit) : builder.Unsplit := by
  cases event with
  | text value => exact h
  | opened name attrs =>
      have helements := (List.forall_mem_cons.mp h.2).2
      exact unsplit_of_flush ⟨h.1, helements⟩
  | node node => exact unsplit_of_flush (unsplit_of_append h)
  | closed name =>
      rw [add] at h
      split at h
      · exact unsplit_of_flush h
      · exact unsplit_of_flush (unsplit_of_popMany _ h)

/-- A tree hands down to its beginnings that no two texts are next to each other. -/
theorem unsplit_of_run (h : Node.Unsplit (run collapse builder events)) : builder.Unsplit := by
  induction events generalizing builder with
  | nil => exact unsplit_of_flush (unsplit_of_popMany _ (each_finish.mpr h))
  | cons event events ih => exact unsplit_of_add (ih h)

/-- Where there is text on both sides, a split leaves two texts next to each other. -/
theorem not_unsplit_run_flush
    (hpending : textValue collapse builder.pending ≠ [])
    (hleading : textValue collapse (leadingText events) ≠ []) :
    ¬Node.Unsplit (run collapse (builder.flush collapse) events) := by
  intro hunsplit
  rw [run_flush_eq] at hunsplit
  have hbuilder := unsplit_of_run hunsplit
  simp only [appendText, List.isEmpty_iff, hpending, hleading, if_false] at hbuilder
  have hsiblings := hbuilder.siblings
  rw [siblings_append, siblings_append, unsplit_append_singleton] at hsiblings
  simp [Parted, kind] at hsiblings

/-! ## Without ignored end tags -/

/-- No two texts are next to each other, and the next node can be a text. -/
def Ready (builder : Builder) : Prop :=
  builder.Unsplit ∧ ∀ last ∈ builder.siblings.getLast?, last.kind ≠ .text

theorem Ready.flush (h : builder.Ready) : (builder.flush collapse).Unsplit := by
  rw [flush_eq, appendText]
  split
  · exact h.1
  · refine Each.append h.1 (unsplit_append_singleton.mpr ⟨h.1.siblings, unsplit_text _, ?_⟩)
    exact fun last hlast => .inl (h.2 last hlast)

theorem ready_append {node : Node} (h : builder.Unsplit)
    (hnode : Node.Unsplit [node]) (hkind : node.kind ≠ .text) : (builder.append node).Ready := by
  refine ⟨h.append (unsplit_append_singleton.mpr ⟨h.siblings, hnode, fun _ _ => .inr hkind⟩), ?_⟩
  rw [siblings_append]
  simpa using hkind

theorem ready_pop (h : builder.Unsplit) (hopen : builder.elements ≠ []) : builder.pop.Ready := by
  obtain ⟨roots, elements, pending⟩ := builder
  cases elements with
  | nil => exact absurd rfl hopen
  | cons element outer =>
      obtain ⟨⟨-, hchildren⟩, houter⟩ := List.forall_mem_cons.mp h.2
      have hkind : (OpenElement.toNode element).kind ≠ .text := by simp [OpenElement.toNode, kind]
      exact ready_append ⟨h.1, houter⟩ (unsplit_element.mpr hchildren) hkind

theorem ready_popMany {n : Nat} (h : builder.Unsplit) (hn : n < builder.elements.length) :
    (builder.popMany (n + 1)).Ready := by
  induction n generalizing builder with
  | zero => exact ready_pop h (List.ne_nil_of_length_pos hn)
  | succ n ih =>
      have hpop := ready_pop h (List.ne_nil_of_length_pos (Nat.zero_lt_of_lt hn))
      refine ih hpop.1 ?_
      have hlength := @length_elements_popMany builder 1
      simp only [popMany] at hlength
      omega

theorem Ready.add
    (h : builder.Ready) (hheeded : builder.Ignores event = false) (hevent : event.AddsNoText) :
    (builder.add collapse event).Ready := by
  cases event with
  | text value => exact h
  | opened name attrs =>
      refine ⟨⟨h.flush.1, List.forall_mem_cons.mpr ⟨⟨trivial, unsplit_nil⟩, h.flush.2⟩⟩, ?_⟩
      simp [add, siblings]
  | node node => exact ready_append h.flush hevent.1 hevent.2
  | closed name =>
      rw [← ignores_flush collapse] at hheeded
      rw [add]
      split
      · rename_i hnone
        obtain ⟨element, helement, hname⟩ : ∃ element ∈ (builder.flush collapse).elements,
            element.name = name := by simpa [Ignores] using hheeded
        have hother := List.findIdx?_eq_none_iff.mp hnone element helement
        exact absurd hname (by simpa using hother)
      · rename_i depth hdepth
        obtain ⟨hlt, -⟩ := List.findIdx?_eq_some_iff_findIdx_eq.mp hdepth
        exact ready_popMany h.flush hlt

/-- Without the ignored end tags no two texts are next to each other. -/
theorem unsplit_run_heeded
    (h : builder.Ready) (hevents : ∀ event ∈ events, event.AddsNoText) :
    Node.Unsplit (run collapse builder (heeded collapse builder events)) := by
  induction events generalizing builder with
  | nil => exact each_finish.mp (Each.popMany _ h.flush fun _ _ _ _ hnodes _ hchildren =>
      unsplit_append_element.mpr ⟨hnodes, hchildren⟩)
  | cons event events ih =>
      obtain ⟨hevent, hrest⟩ := List.forall_mem_cons.mp hevents
      rw [heeded]
      split
      · exact ih h hrest
      · rename_i hheeded
        exact ih (h.add (by simpa using hheeded) hevent) hrest

/-- If no two texts are next to each other, no ignored end tag has left a trace. -/
theorem run_eq_run_heeded (h : Node.Unsplit (run collapse builder events)) :
    run collapse builder events = run collapse builder (heeded collapse builder events) := by
  induction events generalizing builder with
  | nil => rfl
  | cons event events ih =>
      have hstep : run collapse builder (event :: events) =
          run collapse (builder.add collapse event) events := rfl
      rw [heeded]
      split
      · rename_i hignored
        rw [hstep, add_of_ignores hignored] at h ⊢
        have hblank : textValue collapse builder.pending = [] ∨
            textValue collapse (leadingText events) = [] := by
          by_contra hboth
          obtain ⟨hpending, hleading⟩ := not_or.mp hboth
          exact not_unsplit_run_flush hpending hleading h
        rw [run_flush_of_textValue_eq_nil hblank] at h ⊢
        exact ih h
      · exact ih h

/-- Deleting an ignored end tag changes the tree exactly if there is text on both sides of it.
Deleting all of them leaves no two texts next to each other, unless they are added as such, and
changes the tree exactly if there were two. -/
theorem build_ignored_iff (collapse : Bool) :
    (∀ (before after : List Event) (name : String),
      (before.foldl (add collapse) {}).Ignores (.closed name) = true →
        (build collapse (before ++ .closed name :: after) = build collapse (before ++ after) ↔
          textValue collapse (trailingText before) = [] ∨
            textValue collapse (leadingText after) = [])) ∧
      ∀ events : List Event, (∀ event ∈ events, event.AddsNoText) →
        Node.Unsplit (build collapse (heeded collapse {} events)) ∧
          (Node.Unsplit (build collapse events) ↔
            build collapse events = build collapse (heeded collapse {} events)) := by
  constructor
  · intro before after name hignored
    have hwith : build collapse (before ++ .closed name :: after) =
        run collapse ((before.foldl (add collapse) {}).flush collapse) after := by
      rw [build, List.foldl_append, List.foldl_cons, add_of_ignores hignored]
      rfl
    have hwithout : build collapse (before ++ after) =
        run collapse (before.foldl (add collapse) {}) after := by
      rw [build, List.foldl_append]
      rfl
    rw [hwith, hwithout, ← @pending_foldl_add_empty collapse]
    refine ⟨fun heq => ?_, run_flush_of_textValue_eq_nil⟩
    by_contra hboth
    obtain ⟨hpending, hleading⟩ := not_or.mp hboth
    exact run_flush_ne hpending hleading heq
  · intro events hevents
    have hstart : Ready {} := ⟨⟨unsplit_nil, by simp⟩, by simp [siblings]⟩
    have hheeded : Node.Unsplit (build collapse (heeded collapse {} events)) :=
      unsplit_run_heeded hstart hevents
    refine ⟨hheeded, run_eq_run_heeded, fun heq => ?_⟩
    rw [heq]
    exact hheeded

/-- A text with an end tag in it that is ignored. -/
theorem build_ignored_iff_of_paragraph :
    let before : List Event := [.opened "p" [], .text "one ".toList]
    let after : List Event := [.text "two".toList, .closed "p"]
    let events := before ++ .closed "b" :: after
    (before.foldl (add true) {}).Ignores (.closed "b") = true ∧
      (∀ event ∈ events, event.AddsNoText) ∧
      build true events ≠ build true (before ++ after) ∧
      ¬Node.Unsplit (build true events) ∧
      Node.Unsplit (build true (heeded true {} events)) := by
  intro before after events
  have hignored : (before.foldl (add true) {}).Ignores (.closed "b") = true := by decide
  have hevents : ∀ event ∈ events, event.AddsNoText := by decide
  obtain ⟨hone, hall⟩ := build_ignored_iff true
  refine ⟨hignored, hevents, ?_, by decide, (hall events hevents).1⟩
  rw [ne_eq, hone before after "b" hignored]
  decide

/-- An end tag that is ignored is not the same as none. -/
theorem not_build_of_ignored :
    ¬∀ (before after : List Event) (name : String),
      (before.foldl (add true) {}).Ignores (.closed name) = true →
        build true (before ++ .closed name :: after) = build true (before ++ after) := by
  intro h
  exact absurd (h [.text ['a']] [.text ['b']] "x" rfl) (by decide)

end Builder

end Markup

end Stencil
