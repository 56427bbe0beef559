import Stencil.Markup.Builder

/-!
# Building a tree from its events

A sequence of events spells a tree when every element stands between an event that opens it and
one that closes it, and every text is the concatenation of the text events in its place.  The
builder gives the tree that is spelled (`build_of_spells`).
-/

namespace Stencil.Markup

/-- The events spell a list of siblings. -/
inductive Spells (collapse : Bool) : List Node → List Event → Prop
  | nil : Spells collapse [] []
  /-- A text may come in parts, but nothing may be glued to it. -/
  | text {value : String} {parts : List (List Char)} {nodes : List Node} {events : List Event}
      (hne : value ≠ "") (hparts : parts.flatten = value.toList)
      (hvalue : Builder.textValue collapse value.toList = value.toList)
      (halone : ∀ other rest, nodes ≠ .text other :: rest)
      (hnodes : Spells collapse nodes events) :
      Spells collapse (.text value :: nodes) (parts.map .text ++ events)
  | node (node : Node) {nodes : List Node} {events : List Event}
      (hnodes : Spells collapse nodes events) :
      Spells collapse (node :: nodes) (.node node :: events)
  | element (name : String) (attrs : List Attribute) {children nodes : List Node}
      {inside events : List Event}
      (hchildren : Spells collapse children inside) (hnodes : Spells collapse nodes events) :
      Spells collapse (.element name attrs children :: nodes)
        (.opened name attrs :: (inside ++ .closed name :: events))

namespace Builder

variable {collapse : Bool} {builder : Builder}

@[simp]
theorem pending_append (node : Node) : (builder.append node).pending = builder.pending := by
  rw [append]
  split <;> rfl

theorem textValue_nil : textValue collapse [] = [] := by
  cases collapse <;> rfl

theorem flush_of_pending_eq_nil (hpending : builder.pending = []) :
    builder.flush collapse = builder := by
  obtain ⟨roots, elements, pending⟩ := builder
  subst hpending
  rw [flush, textValue_nil]
  rfl

@[simp]
theorem pending_flush : (builder.flush collapse).pending = [] := by
  rw [flush]
  split
  · rfl
  · exact pending_append _

@[simp]
theorem pending_popMany (n : Nat) : (builder.popMany n).pending = builder.pending := by
  induction n generalizing builder with
  | zero => rfl
  | succ n ih =>
      rw [popMany, ih, pop]
      split
      · rfl
      · exact pending_append _

theorem length_elements_append (node : Node) :
    (builder.append node).elements.length = builder.elements.length := by
  rw [append]
  split <;> simp_all

theorem length_elements_popMany (n : Nat) :
    (builder.popMany n).elements.length = builder.elements.length - n := by
  induction n generalizing builder with
  | zero => rfl
  | succ n ih =>
      rw [popMany, ih, pop]
      split
      · simp_all
      · rename_i helements
        simp [length_elements_append, helements]

theorem elements_popMany_length : (builder.popMany builder.elements.length).elements = [] := by
  rw [← List.length_eq_zero_iff, length_elements_popMany, Nat.sub_self]

/-- No text is pending after an event that is not a text. -/
theorem pending_add {event : Event} (hevent : ∀ value, event ≠ .text value) :
    (builder.add collapse event).pending = [] := by
  cases event with
  | text value => exact absurd rfl (hevent value)
  | opened name attrs => exact pending_flush
  | node node => exact (pending_append node).trans pending_flush
  | closed name =>
      rw [add]
      split
      · exact pending_flush
      · exact (pending_popMany _).trans pending_flush

/-- A pending text that collapsing leaves as it is becomes a node. -/
theorem flush_of_pending_eq
    {value : String} (hne : value ≠ "")
    (hvalue : textValue collapse value.toList = value.toList) :
    flush collapse { builder with pending := value.toList } =
      append { builder with pending := [] } (.text value) := by
  have hempty : value.toList.isEmpty = false := by
    simpa using hne
  rw [flush]
  simp only [hvalue, hempty, String.ofList_toList]
  rfl

/-- Text events add to the pending text. -/
theorem foldl_add_text (parts : List (List Char)) :
    (parts.map .text).foldl (add collapse) builder =
      { builder with pending := builder.pending ++ parts.flatten } := by
  induction parts generalizing builder with
  | nil => simp
  | cons part parts ih => simp [ih, add]

/-- Nodes added inside an open element become its children. -/
theorem foldl_append_open
    {element : OpenElement} {outer : List OpenElement} (nodes : List Node) :
    nodes.foldl append { builder with elements := element :: outer } =
      { builder with
        elements := { element with children := nodes.reverse ++ element.children } :: outer } := by
  induction nodes generalizing element with
  | nil => rfl
  | cons node nodes ih => simp [append, ih]

/-- Nodes added outside all elements become roots. -/
theorem foldl_append_roots
    (nodes : List Node) (helements : builder.elements = []) :
    nodes.foldl append builder = { builder with roots := nodes.reverse ++ builder.roots } := by
  induction nodes generalizing builder with
  | nil => rfl
  | cons node nodes ih => simp [append, helements, ih]

/-- The innermost open element is closed by an end tag of its name. -/
theorem add_closed
    {around : Builder} {name : String} {attrs : List Attribute} {children : List Node}
    (hflush : builder.flush collapse =
      { around with elements := ⟨name, attrs, children⟩ :: around.elements }) :
    builder.add collapse (.closed name) = around.append (.element name attrs children.reverse) := by
  simp [add, hflush, List.findIdx?_cons, popMany, pop, OpenElement.toNode]

/-! ## Roots that are complete -/

/-- The builder with further roots before its own. -/
def behind (nodes : List Node) (builder : Builder) : Builder :=
  { builder with roots := builder.roots ++ nodes.reverse }

theorem append_behind (nodes : List Node) (node : Node) :
    (builder.behind nodes).append node = (builder.append node).behind nodes := by
  obtain ⟨roots, elements, pending⟩ := builder
  cases elements <;> rfl

theorem flush_behind (nodes : List Node) :
    (builder.behind nodes).flush collapse = (builder.flush collapse).behind nodes := by
  have hpending : (builder.behind nodes).pending = builder.pending := rfl
  rw [flush, flush, hpending]
  by_cases hempty : (textValue collapse builder.pending).isEmpty = true
  · simp only [hempty, if_true]
    rfl
  · simp only [hempty]
    exact @append_behind { builder with pending := [] } nodes _

theorem pop_behind (nodes : List Node) :
    (builder.behind nodes).pop = builder.pop.behind nodes := by
  obtain ⟨roots, elements, pending⟩ := builder
  cases elements with
  | nil => rfl
  | cons element outer => exact @append_behind ⟨roots, outer, pending⟩ nodes _

theorem popMany_behind (nodes : List Node) (n : Nat) :
    (builder.behind nodes).popMany n = (builder.popMany n).behind nodes := by
  induction n generalizing builder with
  | zero => rfl
  | succ n ih => rw [popMany, pop_behind, ih, popMany]

theorem add_behind (nodes : List Node) (event : Event) :
    (builder.behind nodes).add collapse event = (builder.add collapse event).behind nodes := by
  cases event with
  | text value => rfl
  | opened name attrs => rw [add, flush_behind, add]; rfl
  | node node => rw [add, flush_behind, append_behind, add]
  | closed name =>
      rw [add, flush_behind, add]
      simp only [behind]
      split
      · rfl
      · exact popMany_behind nodes _

theorem foldl_add_behind (nodes : List Node) (events : List Event) :
    events.foldl (add collapse) (builder.behind nodes) =
      (events.foldl (add collapse) builder).behind nodes := by
  induction events generalizing builder with
  | nil => rfl
  | cons event events ih => rw [List.foldl_cons, List.foldl_cons, add_behind, ih]

/-- Complete roots stay where they are. -/
theorem finish_behind (nodes : List Node) :
    (builder.behind nodes).finish collapse = nodes ++ builder.finish collapse := by
  rw [finish, flush_behind, popMany_behind]
  exact List.reverse_append.trans (congrArg (· ++ _) (List.reverse_reverse nodes))

/-- A node before all other events is the first one of the tree. -/
theorem build_node_cons (node : Node) (events : List Event) :
    build collapse (.node node :: events) = node :: build collapse events := by
  have hstart : add collapse {} (.node node) = behind [node] {} := by
    rw [add, flush_of_pending_eq_nil rfl]
    rfl
  rw [build, List.foldl_cons, hstart, foldl_add_behind, finish_behind]
  rfl

end Builder

open Builder

/-- The events of siblings add these siblings, the last text perhaps still pending. -/
theorem Spells.foldl_add
    {collapse : Bool} {nodes : List Node} {events : List Event} {builder : Builder}
    (h : Spells collapse nodes events)
    (hpending : ∀ value rest, nodes = .text value :: rest → builder.pending = []) :
    (events.foldl (add collapse) builder).flush collapse =
      nodes.foldl append (builder.flush collapse) := by
  induction h generalizing builder with
  | nil => rfl
  | @text value parts nodes events hne hparts hvalue halone _ ih =>
      have hclear := hpending value nodes rfl
      rw [List.foldl_append, foldl_add_text, hclear, hparts, List.nil_append,
        ih fun other rest heq => absurd heq (halone other rest), flush_of_pending_eq hne hvalue,
        flush_of_pending_eq_nil hclear, List.foldl_cons, ← hclear]
  | @node node nodes events _ ih =>
      have hclear : ((builder.flush collapse).append node).pending = [] := by simp
      rw [List.foldl_cons, add, ih fun _ _ _ => hclear, flush_of_pending_eq_nil hclear,
        List.foldl_cons]
  | @element name attrs children nodes inside events _ _ ihInside ih =>
      let opened : Builder := builder.add collapse (.opened name attrs)
      have hopened : opened.pending = [] := pending_flush
      have hclosed : (inside.foldl (add collapse) opened).add collapse (.closed name) =
          (builder.flush collapse).append (.element name attrs children) := by
        have hinside : (inside.foldl (add collapse) opened).flush collapse =
            children.foldl append (opened.flush collapse) :=
          ihInside fun _ _ _ => hopened
        rw [flush_of_pending_eq_nil hopened] at hinside
        have hchildren : children.foldl append opened =
            { builder.flush collapse with
              elements :=
                ⟨name, attrs, children.reverse ++ []⟩ :: (builder.flush collapse).elements } :=
          foldl_append_open children
        rw [hchildren, List.append_nil] at hinside
        rw [add_closed hinside, List.reverse_reverse]
      have hclear :
          ((builder.flush collapse).append (.element name attrs children)).pending = [] := by
        simp
      rw [List.foldl_cons, List.foldl_append, List.foldl_cons, hclosed, ih fun _ _ _ => hclear,
        flush_of_pending_eq_nil hclear, List.foldl_cons]

/-- The tree that events spell is the one that is built from them. -/
theorem build_of_spells
    {collapse : Bool} {nodes : List Node} {events : List Event}
    (h : Spells collapse nodes events) : build collapse events = nodes := by
  have hadded : (events.foldl (add collapse) {}).flush collapse =
      nodes.foldl append (flush collapse {}) :=
    h.foldl_add fun _ _ _ => rfl
  have hstart : flush collapse {} = {} := flush_of_pending_eq_nil rfl
  rw [hstart, foldl_append_roots nodes rfl] at hadded
  rw [build, finish, hadded]
  simp [popMany]

end Stencil.Markup
