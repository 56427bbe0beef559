import Stencil.Proofs.Layout.WellFormed
import Stencil.Proofs.Template.Braces

/-!
# The actions of a template

Whatever the tree, two braces in a row of its template are the beginning of an action of one of
its placeholders, or the first of them is a brace of the literal markup.  Where the latter does
not happen, reading the template gives exactly the actions of the placeholders, in document order
and properly nested (`actions_template`).

Escaping keeps braces, so literal markup with two braces in a row is taken for an action
(`not_opens_of_braces`).
-/

namespace Stencil

open Template

/-! ## The actions of a tree -/

/-- The actions of an attribute. -/
def Attribute.actions (scope : Scope) : Attribute → List Action
  | ⟨_, .literal _⟩ => []
  | ⟨_, .var reference⟩ => [.value (scope.path reference)]
  | ⟨_, .conditional reference⟩ =>
    [.ifBegin (scope.path reference), .value (scope.path reference), .blockEnd]

theorem isIdentifier_iff {name : String} :
    (name.toList.head?.any Char.isAlpha = true ∧
      (name.toList.all fun c => c.isAlphanum || c == '_') = true) ↔ IsIdentifier name := by
  rw [Option.any_eq_true, List.all_eq_true]
  simp only [Bool.or_eq_true, beq_iff_eq]
  exact ⟨fun h => ⟨h.1, h.2⟩, fun h => ⟨h.head, h.all⟩⟩

instance (name : String) : Decidable (IsIdentifier name) :=
  decidable_of_iff _ isIdentifier_iff

namespace Node

mutual

/-- The actions of the placeholders at and below a node.  An element that has no end tag has no
place for those of its children. -/
def actions (scope : Scope) : Node → List Action
  | .element name attrs children =>
    attrs.flatMap (Attribute.actions scope) ++
      if isVoidElement name then [] else actionsList scope children
  | .var reference => [.value (scope.path reference)]
  | .markdown reference => [.markdown (scope.path reference)]
  | .conditional reference child =>
    .ifBegin (scope.path reference) :: (actions scope child ++ [.blockEnd])
  | .loop reference template =>
    .rangeBegin (scope.path reference) :: (actions .item template ++ [.blockEnd])
  | .content => [.content]
  | .doctype _ | .text _ | .comment _ => []

/-- The actions of the placeholders of a tree in document order. -/
def actionsList (scope : Scope) : List Node → List Action
  | [] => []
  | node :: nodes => actions scope node ++ actionsList scope nodes

end

/-- The references of the node itself are identifiers. -/
def HasIdentifiers : Node → Prop
  | .element _ attrs _ => ∀ reference ∈ Attribute.references attrs, IsIdentifier reference
  | .var reference | .markdown reference | .conditional reference _ | .loop reference _ =>
    IsIdentifier reference
  | .doctype _ | .text _ | .comment _ | .content => True

/-- In the literals of the node itself, names included, every brace is followed by something other
than a brace. -/
def LiteralsApart : Node → Prop
  | .doctype value | .text value | .comment value => bracesApart value.toList = true
  | .element name attrs _ =>
    bracesApart name.toList = true ∧ ∀ attr ∈ attrs, bracesApart attr.name.toList = true ∧
      ∀ value ∈ attr.value.literal?, bracesApart value.toList = true
  | .var _ | .markdown _ | .conditional .. | .loop .. | .content => True

instance : DecidablePred HasIdentifiers
  | .element _ attrs _ =>
    inferInstanceAs (Decidable (∀ reference ∈ Attribute.references attrs, IsIdentifier reference))
  | .var _ | .markdown _ | .conditional .. | .loop .. =>
    inferInstanceAs (Decidable (IsIdentifier _))
  | .doctype _ | .text _ | .comment _ | .content => .isTrue trivial

instance : DecidablePred LiteralsApart
  | .doctype _ | .text _ | .comment _ => inferInstanceAs (Decidable (_ = true))
  | .element .. => inferInstanceAs (Decidable (_ ∧ _))
  | .var _ | .markdown _ | .conditional .. | .loop .. | .content => .isTrue trivial

end Node

namespace Template

/-- Every block that an action begins is ended after the blocks inside it. -/
inductive Nested : List Action → Prop
  | nil : Nested []
  | value (path : String) : Nested [.value path]
  | markdown (path : String) : Nested [.markdown path]
  | content : Nested [.content]
  | conditional (path : String) {inside : List Action} (h : Nested inside) :
      Nested (.ifBegin path :: (inside ++ [.blockEnd]))
  | loop (path : String) {inside : List Action} (h : Nested inside) :
      Nested (.rangeBegin path :: (inside ++ [.blockEnd]))
  | append {before after : List Action} (h : Nested before) (h' : Nested after) :
      Nested (before ++ after)

theorem nested_flatMap_attributes (scope : Scope) (attrs : List Attribute) :
    Nested (attrs.flatMap (Attribute.actions scope)) := by
  induction attrs with
  | nil => exact .nil
  | cons attr attrs ih =>
      refine .append ?_ ih
      obtain ⟨name, value⟩ := attr
      cases value with
      | literal value => exact .nil
      | var reference => exact .value _
      | conditional reference => exact .conditional _ (.value _)

theorem nested_actionsList (nodes : List Node) (scope : Scope) :
    Nested (Node.actionsList scope nodes) := by
  induction nodes using Node.inductionOn generalizing scope with
  | nil => exact .nil
  | doctype value nodes ih => exact ih scope
  | text value nodes ih => exact ih scope
  | comment value nodes ih => exact ih scope
  | var reference nodes ih => exact .append (.value _) (ih scope)
  | markdown reference nodes ih => exact .append (.markdown _) (ih scope)
  | content nodes ih => exact .append .content (ih scope)
  | element name attrs children nodes ihChildren ih =>
      refine .append (.append (nested_flatMap_attributes scope attrs) ?_) (ih scope)
      split
      · exact .nil
      · exact ihChildren scope
  | conditional reference child nodes ihChild ih =>
      have hchild := ihChild scope
      rw [Node.actionsList, Node.actionsList, List.append_nil] at hchild
      exact .append (.conditional _ hchild) (ih scope)
  | loop reference template nodes ihTemplate ih =>
      have htemplate := ihTemplate .item
      rw [Node.actionsList, Node.actionsList, List.append_nil] at htemplate
      exact .append (.loop _ htemplate) (ih scope)

/-- The actions written for attributes are those of the attributes. -/
theorem filterMap_action?_attributes (scope : Scope) (attrs : List Attribute) :
    (attrs.flatMap (Attribute.pieces scope)).filterMap Piece.action? =
      attrs.flatMap (Attribute.actions scope) := by
  induction attrs with
  | nil => rfl
  | cons attr attrs ih =>
      rw [List.flatMap_cons, List.filterMap_append, ih, List.flatMap_cons]
      congr 1
      obtain ⟨name, value⟩ := attr
      cases value with
      | literal value =>
          rw [Attribute.pieces.eq_1]
          split <;> rfl
      | var reference => rfl
      | conditional reference => rfl

/-- The actions written are those of the placeholders. -/
theorem filterMap_action?_piecesList (nodes : List Node) (scope : Scope) (raw : Bool) :
    (Node.piecesList scope raw nodes).filterMap Piece.action? = Node.actionsList scope nodes := by
  induction nodes using Node.inductionOn generalizing scope raw with
  | nil => rfl
  | doctype value nodes ih | text value nodes ih | comment value nodes ih | var reference nodes ih
  | markdown reference nodes ih | content nodes ih =>
      simp [Node.piecesList, Node.pieces, Node.actionsList, Node.actions, ih]
  | element name attrs children nodes ihChildren ih =>
      by_cases hvoid : isVoidElement name = true
      · simp [Node.piecesList, Node.pieces, Node.actionsList, Node.actions, hvoid, ih,
          filterMap_action?_attributes]
      · simp [Node.piecesList, Node.pieces, Node.actionsList, Node.actions, hvoid, ihChildren, ih,
          filterMap_action?_attributes]
  | conditional reference child nodes ihChild ih =>
      have hchild := ihChild scope raw
      simp only [Node.piecesList, Node.actionsList, List.append_nil] at hchild
      simp [Node.piecesList, Node.pieces, Node.actionsList, Node.actions, hchild, ih]
  | loop reference template nodes ihTemplate ih =>
      have htemplate := ihTemplate .item raw
      simp only [Node.piecesList, Node.actionsList, List.append_nil] at htemplate
      simp [Node.piecesList, Node.pieces, Node.actionsList, Node.actions, htemplate, ih]

/-! ## Plain actions -/

/-- The path that an action looks up. -/
def Action.path? : Action → Option String
  | .value path | .markdown path | .ifBegin path | .rangeBegin path => some path
  | .blockEnd | .content => none

/-- Every path is that of an identifier. -/
def LooksUpIdentifiers (actions : List Action) : Prop :=
  ∀ instruction ∈ actions, ∀ path ∈ instruction.path?,
    ∃ scope : Scope, ∃ reference, IsIdentifier reference ∧ path = scope.path reference

theorem lookUpIdentifiers_append {before after : List Action} :
    LooksUpIdentifiers (before ++ after) ↔
      LooksUpIdentifiers before ∧ LooksUpIdentifiers after := by
  simp only [LooksUpIdentifiers, List.mem_append, or_imp, forall_and]

theorem lookUpIdentifiers_cons {instruction : Action} {actions : List Action} :
    LooksUpIdentifiers (instruction :: actions) ↔
      LooksUpIdentifiers [instruction] ∧ LooksUpIdentifiers actions := by
  rw [← List.singleton_append, lookUpIdentifiers_append]

/-- The path of an identifier is made of letters, digits, underscores and dots. -/
theorem braces_notMem_path (scope : Scope) {reference : String} (h : IsIdentifier reference) :
    ∀ c ∈ (scope.path reference).toList, c ≠ '{' ∧ c ≠ '}' := by
  have hreference : ∀ c ∈ reference.toList, c ≠ '{' ∧ c ≠ '}' := by
    rintro c hc
    constructor
    · rintro rfl
      exact absurd (h.all _ hc) (by decide)
    · rintro rfl
      exact absurd (h.all _ hc) (by decide)
  cases scope with
  | page => simpa [Scope.path, or_imp, forall_and] using hreference
  | item => simpa [Scope.path, or_imp, forall_and] using hreference

/-- Actions that look up identifiers are plain. -/
theorem LooksUpIdentifiers.isPlain
    {actions : List Action} (h : LooksUpIdentifiers actions) {instruction : Action}
    (hmem : instruction ∈ actions) : instruction.IsPlain := by
  have hpath : ∀ path ∈ instruction.path?, ∀ c ∈ path.toList, c ≠ '{' ∧ c ≠ '}' := by
    intro path hpath
    obtain ⟨scope, reference, hreference, rfl⟩ := h instruction hmem path hpath
    exact braces_notMem_path scope hreference
  cases instruction with
  | value path => exact hpath path rfl
  | markdown path | ifBegin path | rangeBegin path =>
      simpa [Action.IsPlain, Action.body, or_imp, forall_and] using hpath path rfl
  | blockEnd => simp [Action.IsPlain, Action.body]
  | content => simp [Action.IsPlain, Action.body]

theorem lookUpIdentifiers_singleton
    {instruction : Action} {scope : Scope} {reference : String} (h : IsIdentifier reference)
    (hpath : instruction.path? = some (scope.path reference)) :
    LooksUpIdentifiers [instruction] := by
  intro other hother path hmem
  obtain rfl := List.mem_singleton.mp hother
  rw [hpath] at hmem
  exact ⟨scope, reference, h, (Option.some.inj hmem).symm⟩

theorem lookUpIdentifiers_of_pathless {instruction : Action} (hpath : instruction.path? = none) :
    LooksUpIdentifiers [instruction] := by
  intro other hother path hmem
  obtain rfl := List.mem_singleton.mp hother
  rw [hpath] at hmem
  exact absurd hmem (by simp)

theorem lookUpIdentifiers_attributes
    (scope : Scope) {attrs : List Attribute}
    (hattrs : ∀ reference ∈ Attribute.references attrs, IsIdentifier reference) :
    LooksUpIdentifiers (attrs.flatMap (Attribute.actions scope)) := by
  have hattr : ∀ attr ∈ attrs, LooksUpIdentifiers (attr.actions scope) := by
    intro attr hattr
    have hidentifier : ∀ reference ∈ attr.value.reference?, IsIdentifier reference :=
      fun reference href => hattrs reference (List.mem_filterMap.mpr ⟨attr, hattr, href⟩)
    obtain ⟨name, value⟩ := attr
    cases value with
    | literal value => exact fun _ hmem => absurd hmem List.not_mem_nil
    | var reference => exact lookUpIdentifiers_singleton (hidentifier reference rfl) rfl
    | conditional reference =>
        have hreference := hidentifier reference rfl
        exact lookUpIdentifiers_cons.mpr ⟨lookUpIdentifiers_singleton hreference rfl,
          lookUpIdentifiers_cons.mpr ⟨lookUpIdentifiers_singleton hreference rfl,
            lookUpIdentifiers_of_pathless rfl⟩⟩
  intro instruction hmem
  obtain ⟨attr, hmemAttr, hmem⟩ := List.mem_flatMap.mp hmem
  exact hattr attr hmemAttr instruction hmem

/-- The placeholders of a tree with identifiers look them up. -/
theorem lookUpIdentifiers_actionsList
    (scope : Scope) {nodes : List Node} (hnodes : Node.Everywhere Node.HasIdentifiers nodes) :
    LooksUpIdentifiers (Node.actionsList scope nodes) := by
  induction nodes using Node.inductionOn generalizing scope with
  | nil => exact fun _ hmem => absurd hmem List.not_mem_nil
  | doctype _ nodes ih | text _ nodes ih | comment _ nodes ih =>
      exact ih scope (Node.everywhere_cons.mp hnodes).2
  | var reference nodes ih =>
      obtain ⟨hreference, hrest⟩ := Node.everywhere_var.mp hnodes
      exact lookUpIdentifiers_append.mpr
        ⟨lookUpIdentifiers_singleton hreference rfl, ih scope hrest⟩
  | markdown reference nodes ih =>
      obtain ⟨hreference, hrest⟩ := Node.everywhere_markdown.mp hnodes
      exact lookUpIdentifiers_append.mpr
        ⟨lookUpIdentifiers_singleton hreference rfl, ih scope hrest⟩
  | content nodes ih =>
      exact lookUpIdentifiers_append.mpr
        ⟨lookUpIdentifiers_of_pathless rfl, ih scope (Node.everywhere_cons.mp hnodes).2⟩
  | element name attrs children nodes ihChildren ih =>
      obtain ⟨hattrs, hchildren, hrest⟩ := Node.everywhere_element.mp hnodes
      refine lookUpIdentifiers_append.mpr ⟨lookUpIdentifiers_append.mpr
        ⟨lookUpIdentifiers_attributes scope hattrs, ?_⟩, ih scope hrest⟩
      split
      · exact fun _ hmem => absurd hmem List.not_mem_nil
      · exact ihChildren scope hchildren
  | conditional reference child nodes ihChild ih =>
      obtain ⟨hreference, hchild, hrest⟩ := Node.everywhere_conditional.mp hnodes
      have hinside := ihChild scope hchild
      rw [Node.actionsList, Node.actionsList, List.append_nil] at hinside
      refine lookUpIdentifiers_append.mpr ⟨lookUpIdentifiers_cons.mpr ⟨?_, ?_⟩, ih scope hrest⟩
      · exact lookUpIdentifiers_singleton hreference rfl
      · exact lookUpIdentifiers_append.mpr ⟨hinside, lookUpIdentifiers_of_pathless rfl⟩
  | loop reference template nodes ihTemplate ih =>
      obtain ⟨hreference, htemplate, hrest⟩ := Node.everywhere_loop.mp hnodes
      have hinside := ihTemplate .item htemplate
      rw [Node.actionsList, Node.actionsList, List.append_nil] at hinside
      refine lookUpIdentifiers_append.mpr ⟨lookUpIdentifiers_cons.mpr ⟨?_, ?_⟩, ih scope hrest⟩
      · exact lookUpIdentifiers_singleton hreference rfl
      · exact lookUpIdentifiers_append.mpr ⟨hinside, lookUpIdentifiers_of_pathless rfl⟩

/-- The actions of a tree with identifiers are plain. -/
theorem arePlain_piecesList
    (scope : Scope) (raw : Bool) {nodes : List Node}
    (hnodes : Node.Everywhere Node.HasIdentifiers nodes) :
    ArePlain (Node.piecesList scope raw nodes) := by
  intro instruction hmem
  have hactions := filterMap_action?_piecesList nodes scope raw
  have hmem : instruction ∈ Node.actionsList scope nodes := by
    rw [← hactions]
    exact List.mem_filterMap.mpr ⟨_, hmem, rfl⟩
  exact (lookUpIdentifiers_actionsList scope hnodes).isPlain hmem

/-! ## Literals with their braces apart -/

theorem markupApart_attributes
    (scope : Scope) {attrs : List Attribute}
    (hattrs : ∀ attr ∈ attrs, bracesApart attr.name.toList = true ∧
      ∀ value ∈ attr.value.literal?, bracesApart value.toList = true) :
    MarkupApart (attrs.flatMap (Attribute.pieces scope)) := by
  have hattr : ∀ attr ∈ attrs, MarkupApart (attr.pieces scope) := by
    intro attr hattr
    obtain ⟨hname, hvalue⟩ := hattrs attr hattr
    obtain ⟨name, value⟩ := attr
    have hstart : bracesApart (" " ++ name).toList = true := by
      rw [String.toList_append]
      exact bracesApart_append (by decide) hname
    have hbound : ∀ reference, MarkupApart (Attribute.pieces.bound scope name reference) := by
      intro reference
      have hopen : bracesApart (" " ++ name ++ "=\"").toList = true := by
        rw [String.toList_append]
        exact bracesApart_append hstart (by decide)
      exact markupApart_markup.mpr ⟨hopen, markupApart_action.mpr
        (markupApart_markup.mpr ⟨by decide, markupApart_nil⟩)⟩
    cases value with
    | literal value =>
        rw [Attribute.pieces.eq_1]
        split
        · exact markupApart_markup.mpr ⟨hstart, markupApart_nil⟩
        · have hescaped : bracesApart (escapedValue value).toList = true := by
            rw [toList_escapedValue]
            exact bracesApart_flatMap rfl (fun _ => escapedValueChar_of_ne) (hvalue value rfl)
          have hwhole : bracesApart (" " ++ name ++ "=\"" ++ escapedValue value ++ "\"").toList =
              true := by
            rw [String.toList_append, String.toList_append, String.toList_append]
            have hquote : bracesApart "=\"".toList = true := by decide
            have hopen := bracesApart_append hstart hquote
            exact bracesApart_append (bracesApart_append hopen hescaped) (by decide)
          exact markupApart_markup.mpr ⟨hwhole, markupApart_nil⟩
    | var reference => exact hbound reference
    | conditional reference =>
        exact markupApart_action.mpr (markupApart_append.mpr ⟨hbound reference, by simp⟩)
  intro text hmem
  obtain ⟨attr, hmemAttr, hmem⟩ := List.mem_flatMap.mp hmem
  exact hattr attr hmemAttr text hmem

/-- The markup of a tree has its braces apart if its literals have. -/
theorem markupApart_piecesList
    (scope : Scope) (raw : Bool) {nodes : List Node}
    (hnodes : Node.Everywhere Node.LiteralsApart nodes) :
    MarkupApart (Node.piecesList scope raw nodes) := by
  have hbetween : ∀ {before value after : String}, bracesApart before.toList = true →
      bracesApart value.toList = true → bracesApart after.toList = true →
      bracesApart (before ++ value ++ after).toList = true := by
    intro before value after hbefore hvalue hafter
    rw [String.toList_append, String.toList_append]
    exact bracesApart_append (bracesApart_append hbefore hvalue) hafter
  induction nodes using Node.inductionOn generalizing scope raw with
  | nil => exact markupApart_nil
  | doctype value nodes ih | comment value nodes ih =>
      obtain ⟨hvalue, hrest⟩ := Node.everywhere_cons.mp hnodes
      have hvalue := Node.everywhere_head hvalue
      exact markupApart_markup.mpr ⟨hbetween (by decide) hvalue (by decide), ih scope raw hrest⟩
  | text value nodes ih =>
      obtain ⟨hvalue, hrest⟩ := Node.everywhere_text.mp hnodes
      refine markupApart_markup.mpr ⟨?_, ih scope raw hrest⟩
      split
      · exact hvalue
      · rw [toList_escapedText]
        exact bracesApart_flatMap rfl (fun _ => escapedTextChar_of_ne) hvalue
  | var reference nodes ih | markdown reference nodes ih | content nodes ih =>
      exact markupApart_action.mpr (ih scope raw (Node.everywhere_cons.mp hnodes).2)
  | element name attrs children nodes ihChildren ih =>
      obtain ⟨⟨hname, hattrs⟩, hchildren, hrest⟩ := Node.everywhere_element.mp hnodes
      have hstart : bracesApart ("<" ++ name).toList = true := by
        rw [String.toList_append]
        exact bracesApart_append (by decide) hname
      refine markupApart_append.mpr ⟨markupApart_append.mpr
        ⟨markupApart_markup.mpr ⟨hstart, markupApart_attributes scope hattrs⟩, ?_⟩,
        ih scope raw hrest⟩
      split
      · exact markupApart_markup.mpr ⟨by decide, markupApart_nil⟩
      · have hinside := ihChildren scope (isRawTextElement name) hchildren
        have hend : bracesApart ("</" ++ name ++ ">").toList = true :=
          hbetween (by decide) hname (by decide)
        exact markupApart_markup.mpr ⟨by decide, markupApart_append.mpr
          ⟨hinside, markupApart_markup.mpr ⟨hend, markupApart_nil⟩⟩⟩
  | conditional reference child nodes ihChild ih =>
      obtain ⟨-, hchild, hrest⟩ := Node.everywhere_conditional.mp hnodes
      have hinside := ihChild scope raw hchild
      rw [Node.piecesList, Node.piecesList, List.append_nil] at hinside
      exact markupApart_append.mpr ⟨markupApart_action.mpr
        (markupApart_append.mpr ⟨hinside, by simp⟩), ih scope raw hrest⟩
  | loop reference template nodes ihTemplate ih =>
      obtain ⟨-, htemplate, hrest⟩ := Node.everywhere_loop.mp hnodes
      have hinside := ihTemplate .item raw htemplate
      rw [Node.piecesList, Node.piecesList, List.append_nil] at hinside
      exact markupApart_append.mpr ⟨markupApart_action.mpr
        (markupApart_append.mpr ⟨hinside, by simp⟩), ih scope raw hrest⟩

/-! ## Templates and their placeholders -/

/-- Two braces in a row of a template begin the action of a placeholder, or the first of them
belongs to the literal markup.  The actions written are those of the placeholders in document
order, and they are properly nested.  They are what reading the template gives if no brace of the
markup comes before another brace; this holds in particular if in every literal each brace is
followed by something other than a brace. -/
theorem actions_template
    {tree : List Node} (hreferences : Node.Everywhere Node.HasIdentifiers tree) :
    (∀ before, BracesAfter (Node.template tree).toList before ↔
      OpensAfter (Node.piecesList .page false tree) before ∨
        StrayAfter (Node.piecesList .page false tree) before) ∧
    (Node.piecesList .page false tree).filterMap Piece.action? = Node.actionsList .page tree ∧
    Nested (Node.actionsList .page tree) ∧
    ((∀ before, ¬StrayAfter (Node.piecesList .page false tree) before) →
      readActions none (Node.template tree).toList =
        some ((Node.actionsList .page tree).map Action.inside)) ∧
    (Node.Everywhere Node.LiteralsApart tree →
      ∀ before, ¬StrayAfter (Node.piecesList .page false tree) before) := by
  have hplain := arePlain_piecesList .page false hreferences
  have hactions := filterMap_action?_piecesList tree .page false
  have hchars : (Node.template tree).toList = chars (Node.piecesList .page false tree) :=
    toList_text _
  refine ⟨?_, hactions, nested_actionsList tree .page, ?_, ?_⟩
  · intro before
    rw [hchars]
    exact bracesAfter_iff hplain
  · intro hclear
    rw [hchars, readActions_chars hplain hclear, hactions]
  · intro hliterals
    exact not_strayAfter (markupApart_piecesList .page false hliterals)

/-- A menu with a style sheet, a guarded heading and a loop over its links. -/
def menuTree : List Node :=
  [.element "style" [] [.text "nav \x7b margin: 0 \x7d"],
    .element "nav" [⟨"class", .literal "top \x7b1\x7d"⟩, ⟨"id", .conditional "attr1"⟩]
      [.conditional "show1" (.element "h1" [] [.var "var1"]),
        .loop "list1" (.element "a" [⟨"href", .var "attr2"⟩] [.markdown "var2"])],
    .content]

theorem actions_template_of_menu :
    Node.Everywhere Node.HasIdentifiers menuTree ∧ Node.Everywhere Node.LiteralsApart menuTree ∧
    readActions none (Node.template menuTree).toList =
      some [" if .Params.attr1 ", " .Params.attr1 ", " end ", " if .Params.show1 ",
        " .Params.var1 ", " end ", " range .Params.list1 ", " .attr2 ", " .var2 | markdownify ",
        " end ", " .Content "] := by
  have hreferences : Node.Everywhere Node.HasIdentifiers menuTree := by
    decide
  have hliterals : Node.Everywhere Node.LiteralsApart menuTree := by
    decide
  obtain ⟨-, -, -, hread, hclear⟩ := actions_template hreferences
  exact ⟨hreferences, hliterals, hread (hclear hliterals)⟩

/-- Braces of a text are taken for an action. -/
theorem not_opens_of_braces :
    ¬∀ tree : List Node, Node.Everywhere Node.HasIdentifiers tree →
      ∀ before, BracesAfter (Node.template tree).toList before →
        OpensAfter (Node.piecesList .page false tree) before := by
  intro hopens
  have hreferences : Node.Everywhere Node.HasIdentifiers [.text "\x7b\x7b x \x7d\x7d"] := by
    decide
  have hbraces : BracesAfter (Node.template [.text "\x7b\x7b x \x7d\x7d"]).toList [] :=
    ⟨[' ', 'x', ' ', '}', '}'], by decide⟩
  obtain ⟨first, instruction, rest, hpieces, -⟩ := hopens _ hreferences [] hbraces
  have hmem : .action instruction ∈
      Node.piecesList .page false [.text "\x7b\x7b x \x7d\x7d"] := by
    rw [hpieces]
    simp
  simp [Node.piecesList, Node.pieces] at hmem

end Template

end Stencil
