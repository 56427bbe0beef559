import Stencil.Proofs.Markup.Mark
import Stencil.Proofs.Markup.Siblings
import Stencil.Proofs.Node.Concrete
import Stencil.Proofs.Text.Words

/-!
# Trees that are read

What reading markup promises to everything that comes after it: no placeholders, small names,
distinct attributes, nothing inside void elements, at most a text inside script and style elements,
and no empty, untrimmed or uncollapsed text (`Node.Regular`).

The promise does not depend on how markup is cut into tokens.  A `Report` is one thing that a
reader of markup can come across, with any text in every place where it has text, and the tree of
every sequence of reports is regular (`regular_build_reports`).  What `parse` builds comes from
reports, so its trees are regular whatever the markup is (`regular_parse`).
-/

namespace Stencil

/-! ## Regular trees -/

/-- A name without capital letters. -/
def IsSmallName (name : String) : Prop :=
  ∀ c ∈ name.toList, c.isUpper = false

/-- Literal attributes under distinct small names. -/
def Attribute.Small (attrs : List Attribute) : Prop :=
  Static attrs ∧ ∀ attr ∈ attrs, IsSmallName attr.name

namespace Node

/-- Sibling lists as reading gives them. -/
inductive Regular (collapse : Bool) : List Node → Prop
  | nil : Regular collapse []
  | doctype {value : String} {nodes : List Node} (htrim : Text.trim value = value)
      (hnodes : Regular collapse nodes) : Regular collapse (.doctype value :: nodes)
  | comment {value : String} {nodes : List Node} (htrim : Text.trim value = value)
      (hnodes : Regular collapse nodes) : Regular collapse (.comment value :: nodes)
  | text {value : String} {nodes : List Node} (hne : value ≠ "")
      (hcollapse : collapse = true → Text.collapse value = value)
      (hnodes : Regular collapse nodes) : Regular collapse (.text value :: nodes)
  | void {name : String} {attrs : List Attribute} {nodes : List Node}
      (hvoid : isVoidElement name = true)
      (hname : IsSmallName name) (hattrs : Attribute.Small attrs)
      (hnodes : Regular collapse nodes) : Regular collapse (.element name attrs [] :: nodes)
  /-- The text of a script or style element is neither empty nor blank, but kept as it is. -/
  | raw {name : String} {attrs : List Attribute} {children nodes : List Node}
      (hraw : isRawTextElement name = true)
      (hname : IsSmallName name) (hattrs : Attribute.Small attrs)
      (hbody : children = [] ∨
        ∃ value : String, children = [.text value] ∧ Text.isBlank value.toList = false)
      (hnodes : Regular collapse nodes) : Regular collapse (.element name attrs children :: nodes)
  | element {name : String} {attrs : List Attribute} {children nodes : List Node}
      (hvoid : isVoidElement name = false) (hraw : isRawTextElement name = false)
      (hname : IsSmallName name) (hattrs : Attribute.Small attrs)
      (hchildren : Regular collapse children)
      (hnodes : Regular collapse nodes) : Regular collapse (.element name attrs children :: nodes)

theorem Regular.append
    {collapse : Bool} {nodes more : List Node}
    (h : Regular collapse nodes) (hmore : Regular collapse more) :
    Regular collapse (nodes ++ more) := by
  induction h with
  | nil => exact hmore
  | doctype htrim _ ih => exact .doctype htrim ih
  | comment htrim _ ih => exact .comment htrim ih
  | text hne hcollapse _ ih => exact .text hne hcollapse ih
  | void hvoid hname hattrs _ ih => exact .void hvoid hname hattrs ih
  | raw hraw hname hattrs hbody _ ih => exact .raw hraw hname hattrs hbody ih
  | element hvoid hraw hname hattrs hchildren _ _ ih =>
      exact .element hvoid hraw hname hattrs hchildren ih

end Node

namespace Markup

open Builder

/-! ## Regular events -/

/-- An element that can stay open. -/
structure RegularTag (name : String) (attrs : List Attribute) : Prop where
  void : isVoidElement name = false
  raw : isRawTextElement name = false
  name : IsSmallName name
  attrs : Attribute.Small attrs

/-- An event that keeps a tree regular. -/
def Event.Regular (collapse : Bool) : Event → Prop
  | .text _ | .closed _ => True
  | .opened name attrs => RegularTag name attrs
  | .node added => Node.Regular collapse [added]

variable {collapse : Bool} {builder : Builder}

/-- Every sibling list met so far is regular. -/
abbrev Builder.Regular (collapse : Bool) (builder : Builder) : Prop :=
  builder.Each (Node.Regular collapse) RegularTag

theorem regular_textValue
    {cs : List Char} (hne : textValue collapse cs ≠ []) :
    Node.Regular collapse [.text (.ofList (textValue collapse cs))] := by
  refine .text (by simpa using hne) ?_ .nil
  rintro rfl
  rw [Text.collapse, String.toList_ofList, textValue, if_pos rfl, Text.collapsed_collapsed]

theorem regular_append_element
    (nodes : List Node) (name : String) (attrs : List Attribute) (children : List Node)
    (hnodes : Node.Regular collapse nodes) (htag : RegularTag name attrs)
    (hchildren : Node.Regular collapse children) :
    Node.Regular collapse (nodes ++ [.element name attrs children]) :=
  hnodes.append (.element htag.void htag.raw htag.name htag.attrs hchildren .nil)

theorem regular_append
    {node : Node} (h : builder.Regular collapse) (hnode : Node.Regular collapse [node]) :
    (builder.append node).Regular collapse :=
  Each.append h (h.siblings.append hnode)

theorem regular_flush (h : builder.Regular collapse) :
    (builder.flush collapse).Regular collapse := by
  rw [flush]
  split
  · exact h
  · rename_i hne
    have hclear : Builder.Regular collapse { builder with pending := [] } := h
    exact regular_append hclear (regular_textValue (by simpa using hne))

theorem regular_add
    {event : Event} (h : builder.Regular collapse) (hevent : event.Regular collapse) :
    (builder.add collapse event).Regular collapse := by
  have hflush := regular_flush h
  cases event with
  | text value => exact h
  | opened name attrs =>
      exact ⟨hflush.1, List.forall_mem_cons.mpr ⟨⟨hevent, .nil⟩, hflush.2⟩⟩
  | node node => exact regular_append hflush hevent
  | closed name =>
      rw [add]
      split
      · exact hflush
      · exact hflush.popMany _ regular_append_element

/-- Regular events build a regular tree. -/
theorem regular_build
    {events : List Event} (hevents : ∀ event ∈ events, event.Regular collapse) :
    Node.Regular collapse (build collapse events) := by
  have hfold : (events.foldl (add collapse) {}).Regular collapse := by
    refine List.foldlRecOn events (add collapse) ⟨.nil, by simp⟩ ?_
    exact fun builder h event hevent => regular_add h (hevents event hevent)
  exact each_finish.mp ((regular_flush hfold).popMany _ regular_append_element)

/-! ## Reports -/

/-- What a reader of markup can come across.  Names, values and texts are any texts at all; the
body of a start tag is the text up to the end tag, of which only script and style elements make
use. -/
inductive Report where
  | startTag (name : List Char) (attrs : List (List Char × List Char)) (body : List Char)
  | emptyTag (name : List Char) (attrs : List (List Char × List Char))
  | endTag (name : List Char)
  | text (value : List Char)
  | reference (name : List Char)
  | comment (value : List Char)
  | doctype (value : List Char)
  | instruction
  deriving Repr

/-- The attributes with the given names and values. -/
def reportedAttributes (attrs : List (List Char × List Char)) : List Attribute :=
  firstOfEachName <| attrs.map fun (name, value) =>
    .static (smallName name) (.ofList (unescape value))

/-- The event that a report is for the tree. -/
def Report.event? : Report → Option Event
  | .startTag name attrs body =>
    let small := smallName name
    let attrs := reportedAttributes attrs
    if isVoidElement small then some (.node (.element small attrs []))
    else if isRawTextElement small then some (.node (.element small attrs (rawChildren body)))
    else some (.opened small attrs)
  | .emptyTag name attrs => some (.node (.element (smallName name) (reportedAttributes attrs) []))
  | .endTag name => some (.closed (smallName name))
  | .text value => some (.text value)
  | .reference name => some (.text (unescape ('&' :: name ++ [';'])))
  | .comment value => some (.node (.comment (.ofList (Text.trimmed value))))
  | .doctype value => some (.node (.doctype (.ofList (Text.trimmed value))))
  | .instruction => none

/-- No letter is capital once it has been made small. -/
theorem isUpper_toLower (c : Char) : c.toLower.isUpper = false := by
  unfold Char.isUpper Char.toLower
  split
  case isTrue h => grind [UInt32.toNat_add, Char.toNat_val]
  case isFalse h => simpa using h

theorem isSmallName_smallName (name : List Char) : IsSmallName (smallName name) := by
  intro c hc
  rw [smallName, String.toList_ofList] at hc
  obtain ⟨d, -, rfl⟩ := List.mem_map.mp hc
  exact isUpper_toLower d

theorem firstOfEachName_sublist (attrs : List Attribute) :
    (firstOfEachName attrs).Sublist attrs := by
  induction attrs with
  | nil => exact .slnil
  | cons attr attrs ih => exact (List.filter_sublist.trans ih).cons_cons attr

theorem nodup_firstOfEachName (attrs : List Attribute) :
    ((firstOfEachName attrs).map Attribute.name).Nodup := by
  induction attrs with
  | nil => exact .nil
  | cons attr attrs ih =>
      rw [firstOfEachName, List.map_cons, List.nodup_cons]
      refine ⟨by simp, (List.filter_sublist.map Attribute.name).nodup ih⟩

theorem small_reportedAttributes (attrs : List (List Char × List Char)) :
    Attribute.Small (reportedAttributes attrs) := by
  have hstatic : ∀ attr ∈ reportedAttributes attrs, ∃ name value,
      attr = .static (smallName name) value := by
    intro attr hattr
    obtain ⟨⟨name, value⟩, -, rfl⟩ := List.mem_map.mp ((firstOfEachName_sublist _).subset hattr)
    exact ⟨name, _, rfl⟩
  refine ⟨⟨fun attr hattr => ?_, nodup_firstOfEachName _⟩, fun attr hattr => ?_⟩
  · obtain ⟨name, value, rfl⟩ := hstatic attr hattr
    rfl
  · obtain ⟨name, value, rfl⟩ := hstatic attr hattr
    exact isSmallName_smallName name

theorem trim_trimmed (value : List Char) :
    Text.trim (.ofList (Text.trimmed value)) = .ofList (Text.trimmed value) := by
  rw [Text.trim, String.toList_ofList, Text.trimmed_trimmed]

/-- Elements without children. -/
theorem regular_empty
    {name : String} {attrs : List Attribute}
    (hname : IsSmallName name) (hattrs : Attribute.Small attrs) :
    Node.Regular collapse [.element name attrs []] := by
  cases hvoid : isVoidElement name with
  | true => exact .void hvoid hname hattrs .nil
  | false =>
      cases hraw : isRawTextElement name with
      | true => exact .raw hraw hname hattrs (.inl rfl) .nil
      | false => exact .element hvoid hraw hname hattrs .nil .nil

theorem rawChildren_cases (body : List Char) :
    rawChildren body = [] ∨
      ∃ value : String, rawChildren body = [.text value] ∧ Text.isBlank value.toList = false := by
  rw [rawChildren]
  split
  · exact .inl rfl
  · rename_i hblank
    exact .inr ⟨_, rfl, by simpa using hblank⟩

/-- The event of a report is regular, whatever is reported. -/
theorem regular_event?
    {report : Report} {event : Event} (h : report.event? = some event) :
    event.Regular collapse := by
  have hname := isSmallName_smallName
  have hattrs := small_reportedAttributes
  cases report with
  | startTag name attrs body =>
      rw [Report.event?] at h
      split at h
      · cases h
        exact regular_empty (hname name) (hattrs attrs)
      · rename_i hvoid
        split at h
        · rename_i hraw
          cases h
          exact .raw hraw (hname name) (hattrs attrs) (rawChildren_cases body) .nil
        · rename_i hraw
          cases h
          exact ⟨by simpa using hvoid, by simpa using hraw, hname name, hattrs attrs⟩
  | emptyTag name attrs =>
      cases h
      exact regular_empty (hname name) (hattrs attrs)
  | endTag | text | reference =>
      cases h
      exact trivial
  | comment value =>
      cases h
      exact .comment (trim_trimmed value) .nil
  | doctype value =>
      cases h
      exact .doctype (trim_trimmed value) .nil
  | instruction => cases h

/-- The tree of any sequence of reports is regular. -/
theorem regular_build_reports (collapse : Bool) (reports : List Report) :
    Node.Regular collapse (build collapse (reports.filterMap Report.event?)) := by
  refine regular_build fun event hevent => ?_
  obtain ⟨report, -, hreport⟩ := List.mem_filterMap.mp hevent
  exact regular_event? hreport

/-! ## Reading -/

/-- Every token is a report. -/
theorem exists_report_of_eventOf
    {token : Token} (htoken : ∀ name attrs, token ≠ .startTag name attrs) :
    ∃ report : Report, report.event? = eventOf token := by
  cases token with
  | startTag name attrs => exact absurd rfl (htoken name attrs)
  | emptyTag name attrs => exact ⟨.emptyTag name (rawAttributes attrs), rfl⟩
  | endTag name => exact ⟨.endTag name, rfl⟩
  | text value | characterData value => exact ⟨.text value, rfl⟩
  | reference name => exact ⟨.reference name, rfl⟩
  | comment value => exact ⟨.comment value, rfl⟩
  | doctype value => exact ⟨.doctype value, rfl⟩
  | instruction => exact ⟨.instruction, rfl⟩

theorem exists_reports_cons
    {report : Report} {front events : List Event} {result : Except Fault (List Event)}
    (h : result.map (front ++ ·) = .ok events) (hreport : report.event?.toList = front)
    (ih : ∀ {later}, result = .ok later →
      ∃ reports : List Report, later = reports.filterMap Report.event?) :
    ∃ reports : List Report, events = reports.filterMap Report.event? := by
  cases result with
  | error fault => cases h
  | ok later =>
      cases h
      obtain ⟨reports, rfl⟩ := ih rfl
      refine ⟨report :: reports, ?_⟩
      rw [← hreport, List.filterMap_cons]
      cases report.event? <;> rfl

/-- The events of markup are those of reports. -/
theorem exists_reports_of_readEvents
    {marked : Bool} {cs : List Char} {events : List Event}
    (h : readEvents marked cs = .ok events) :
    ∃ reports : List Report, events = reports.filterMap Report.event? := by
  fun_induction readEvents marked cs generalizing events with
  | case1 =>
      cases h
      exact ⟨[], rfl⟩
  | case2 => cases h
  | case3 c cs name attrs later _ small hvoid =>
      rename_i ih
      have hreport : (Report.startTag name (rawAttributes attrs) []).event?.toList =
          [.node (.element small (attributes attrs) [])] := by
        rw [Report.event?, if_pos hvoid]
        rfl
      exact exists_reports_cons h hreport ih
  | case4 => cases h
  | case5 c cs name attrs later _ small hvoid hraw tag after _ body =>
      rename_i ih
      have hreport : (Report.startTag name (rawAttributes attrs) body).event?.toList =
          [.node (.element small (attributes attrs) (rawChildren body))] := by
        rw [Report.event?, if_neg hvoid, if_pos hraw]
        rfl
      exact exists_reports_cons h hreport ih
  | case6 c cs name attrs later _ small hvoid hraw =>
      rename_i ih
      have hreport : (Report.startTag name (rawAttributes attrs) []).event?.toList =
          [.opened small (attributes attrs)] := by
        rw [Report.event?, if_neg hvoid, if_neg hraw]
        rfl
      exact exists_reports_cons h hreport ih
  | case7 c cs token later htoken _ ih =>
      obtain ⟨report, hreport⟩ := exists_report_of_eventOf htoken
      exact exists_reports_cons h (by rw [hreport]) ih

/-- The tree of every sequence of reports is regular, and every tree that is read from markup is
one of these. -/
theorem regular_parse (collapse : Bool) :
    (∀ reports : List Report,
      Node.Regular collapse (build collapse (reports.filterMap Report.event?))) ∧
      ∀ (markup : String) (tree : List Node), parse collapse markup = .ok tree →
        (∃ reports : List Report, tree = build collapse (reports.filterMap Report.event?)) ∧
          Node.Regular collapse tree := by
  refine ⟨regular_build_reports collapse, fun markup tree hparse => ?_⟩
  obtain ⟨events, hread, rfl⟩ := parse_eq_ok_iff.mp hparse
  obtain ⟨reports, rfl⟩ := exists_reports_of_readEvents hread
  exact ⟨⟨reports, rfl⟩, regular_build_reports collapse reports⟩

/-- Capital letters, a repeated attribute, an end tag too many and one too few. -/
theorem regular_parse_of_paragraph :
    let markup := "<P Class=a CLASS=b> one\n two <BR></b><!-- end -->"
    let tree : List Node := [
      .element "p" [.static "class" "a"] [.text "one two", .element "br" [] [], .comment "end"]]
    parse true markup = .ok tree ∧ Node.Regular true tree := by
  intro markup tree
  have hparse : parse true markup = .ok tree := by decide +kernel
  exact ⟨hparse, ((regular_parse true).2 markup tree hparse).2⟩

end Markup

end Stencil
