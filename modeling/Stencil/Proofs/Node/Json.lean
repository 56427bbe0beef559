import Mathlib.Data.List.Forall2
import Stencil.Layout
import Stencil.Proofs.Json
import Stencil.Proofs.Node.Concrete
import Stencil.Proofs.Record.Json
import Stencil.Proofs.Result

/-!
# Reading what was written

`Node.Describes` says which JSON values describe a node: its tag names the kind, its fields stand
beside the tag by name or after it by position, and the attributes and children of an element may
be left out where there are none.  The values read as a node are those that describe it
(`Node.isReadExactly`), and its written form does (`Node.describes_toJson`), so reading undoes
writing (`Node.ofJson?_toJson`).

A reader with a limit of nesting may read a node and refuse what is written for it.  Written again a
node is at most one level deeper (`Node.growsByOne`), at any depth (`Node.exists_nesting_toJson_eq`).
-/

namespace Stencil

open Json

/-! ## Attributes -/

namespace Attribute

/-- The JSON value describes the attribute. -/
inductive Describes : Json → Attribute → Prop
  | literal {json : Json} {field : String → Option Json} {name value : String}
      (hgiven : Given bindings fieldNames json ("value", .literal) field)
      (hname : field "name" = some (.string name))
      (hvalue : field "value" = some (.string value)) :
      Describes json ⟨name, .literal value⟩
  | var {json : Json} {field : String → Option Json} {name reference : String}
      (hgiven : Given bindings fieldNames json ("reference", .var) field)
      (hname : field "name" = some (.string name))
      (hreference : field "reference" = some (.string reference)) :
      Describes json ⟨name, .var reference⟩
  | conditional {json : Json} {field : String → Option Json} {name reference : String}
      (hgiven : Given bindings fieldNames json ("reference", .conditional) field)
      (hname : field "name" = some (.string name))
      (hreference : field "reference" = some (.string reference)) :
      Describes json ⟨name, .conditional reference⟩

variable {json : Json} {attr : Attribute} {binding : String × (String → AttributeValue)}

/-- The bound text comes second. -/
theorem idxOf_bound (hbinding : binding ∈ bindings.map Prod.snd) :
    (fieldNames binding).idxOf binding.1 = 1 := by
  simp only [bindings, List.map_cons, List.map_nil, List.mem_cons, List.not_mem_nil,
    or_false] at hbinding
  obtain rfl | rfl | rfl := hbinding
  · rfl
  · rfl
  · rfl

/-- An attribute is read from its tag and two texts. -/
theorem ofPart?_eq_some_iff :
    ofPart? json = some attr ↔
      ∃ binding field bound, Given bindings fieldNames json binding field ∧
        field "name" = some (.string attr.name) ∧ field binding.1 = some (.string bound) ∧
          binding.2 bound = attr.value := by
  obtain ⟨name, value⟩ := attr
  constructor
  · intro hread
    unfold ofPart? at hread
    split at hread
    · simp only [Option.bind_eq_bind, Option.bind_eq_some_iff] at hread
      obtain ⟨tag, htype, binding, htag, hread⟩ := hread
      split at hread
      case isFalse => contradiction
      case isTrue hsingle =>
      simp only [Option.bind_eq_some_iff, string?_eq_some] at hread
      obtain ⟨_, hname, _, rfl, _, hbound, bound, rfl, hattr⟩ := hread
      cases hattr
      exact ⟨binding, _, bound, .named (htype ▸ htag) hsingle, hname, hbound, rfl⟩
    · simp only [Option.bind_eq_bind, Option.bind_eq_some_iff] at hread
      obtain ⟨binding, htag, hattr⟩ := hread
      cases hattr
      refine ⟨binding, _, _, .positional htag (Nat.le_refl 2), rfl, ?_, rfl⟩
      simp only [idxOf_bound (mem_of_choice? htag)]
      rfl
    · contradiction
  · rintro ⟨binding, field, bound, hgiven, hname, hbound, rfl⟩
    have hsecond := idxOf_bound hgiven.mem
    cases hgiven with
    | named htag hsingle =>
        simp [ofPart?, ← Option.bind_assoc, htag, hsingle, hname, hbound, string?]
    | @positional tag items _ htag hcount =>
        simp only [hsecond] at hbound
        obtain _ | ⟨first, _ | ⟨second, _ | ⟨third, rest⟩⟩⟩ := items
        · simp at hbound
        · simp at hbound
        · obtain rfl : first = .string name := by simpa [fieldNames] using hname
          obtain rfl : second = .string bound := by simpa using hbound
          simp [ofPart?, htag]
        · simp [fieldNames] at hcount

/-- The values read as an attribute are those that describe it. -/
theorem ofPart?_iff_describes : ofPart? json = some attr ↔ Describes json attr := by
  rw [ofPart?_eq_some_iff]
  constructor
  · rintro ⟨binding, field, bound, hgiven, hname, hbound, hvalue⟩
    obtain ⟨name, value⟩ := attr
    subst hvalue
    have hmem := hgiven.mem
    simp only [bindings, List.map_cons, List.map_nil, List.mem_cons, List.not_mem_nil,
      or_false] at hmem
    obtain rfl | rfl | rfl := hmem
    · exact .literal hgiven hname hbound
    · exact .var hgiven hname hbound
    · exact .conditional hgiven hname hbound
  · rintro (⟨hgiven, hname, hvalue⟩ | ⟨hgiven, hname, hreference⟩ | ⟨hgiven, hname, hreference⟩)
    · exact ⟨_, _, _, hgiven, hname, hvalue, rfl⟩
    · exact ⟨_, _, _, hgiven, hname, hreference, rfl⟩
    · exact ⟨_, _, _, hgiven, hname, hreference, rfl⟩

/-- A value that stands alone is read as an attribute if it describes it and its tag is a name. -/
theorem ofJson?_iff_describes :
    ofJson? json = some attr ↔
      (∃ name, json.tag? = some (.string name)) ∧ Describes json attr := by
  rw [ofJson?, outermost?_eq_some_iff, ofPart?_iff_describes]

theorem describes_toJson (attr : Attribute) : Describes attr.toJson attr := by
  obtain ⟨name, value⟩ := attr
  cases value with
  | literal value => exact .literal (.named rfl rfl) rfl rfl
  | var reference => exact .var (.named rfl rfl) rfl rfl
  | conditional reference => exact .conditional (.named rfl rfl) rfl rfl

theorem tag?_toJson (attr : Attribute) : ∃ name, attr.toJson.tag? = some (.string name) := by
  obtain ⟨name, value⟩ := attr
  cases value with
  | literal value => exact ⟨_, rfl⟩
  | var reference => exact ⟨_, rfl⟩
  | conditional reference => exact ⟨_, rfl⟩

/-- Reading an attribute undoes writing it. -/
theorem ofJson?_toJson (attr : Attribute) : ofJson? attr.toJson = some attr :=
  ofJson?_iff_describes.mpr ⟨tag?_toJson attr, describes_toJson attr⟩

end Attribute

/-! ## Nodes -/

namespace Node

/-- The JSON value describes the node. -/
inductive Describes : Json → Node → Prop
  | doctype {json : Json} {field : String → Option Json} {value : String}
      (hgiven : Given kinds Kind.fieldNames json .doctype field)
      (hvalue : field "value" = some (.string value)) :
      Describes json (.doctype value)
  | element {json : Json} {field : String → Option Json} {name : String}
      {attrs : List Attribute} {children : List Node} {attrItems childItems : List Json}
      (hgiven : Given kinds Kind.fieldNames json .element field)
      (hname : field "name" = some (.string name))
      (hattrItems : listed? (field "attrs") = some attrItems)
      (hattrs : List.Forall₂ Attribute.Describes attrItems attrs)
      (hchildItems : listed? (field "children") = some childItems)
      (hchildren : List.Forall₂ Describes childItems children) :
      Describes json (.element name attrs children)
  | text {json : Json} {field : String → Option Json} {value : String}
      (hgiven : Given kinds Kind.fieldNames json .text field)
      (hvalue : field "value" = some (.string value)) :
      Describes json (.text value)
  | comment {json : Json} {field : String → Option Json} {value : String}
      (hgiven : Given kinds Kind.fieldNames json .comment field)
      (hvalue : field "value" = some (.string value)) :
      Describes json (.comment value)
  | var {json : Json} {field : String → Option Json} {reference : String}
      (hgiven : Given kinds Kind.fieldNames json .var field)
      (hreference : field "reference" = some (.string reference)) :
      Describes json (.var reference)
  | conditional {json childJson : Json} {field : String → Option Json} {reference : String}
      {child : Node}
      (hgiven : Given kinds Kind.fieldNames json .conditional field)
      (hreference : field "reference" = some (.string reference))
      (hchildJson : field "child" = some childJson) (hchild : Describes childJson child) :
      Describes json (.conditional reference child)
  | content {json : Json} {field : String → Option Json}
      (hgiven : Given kinds Kind.fieldNames json .content field) :
      Describes json .content
  | markdown {json : Json} {field : String → Option Json} {reference : String}
      (hgiven : Given kinds Kind.fieldNames json .markdown field)
      (hreference : field "reference" = some (.string reference)) :
      Describes json (.markdown reference)
  | loop {json templateJson : Json} {field : String → Option Json} {reference : String}
      {template : Node}
      (hgiven : Given kinds Kind.fieldNames json .loop field)
      (hreference : field "reference" = some (.string reference))
      (htemplateJson : field "template" = some templateJson)
      (htemplate : Describes templateJson template) :
      Describes json (.loop reference template)

variable {json : Json} {node : Node}

@[simp]
theorem readJson_json (json : Json) : (readJson json).json = json := by
  cases json <;> rfl

theorem readItems_eq_map (items : List Json) : readItems items = items.map readJson := by
  induction items with
  | nil => rfl
  | cons item items ih => rw [readItems, ih, List.map_cons]

theorem lookup_readFields (fields : List (String × Json)) (key : String) :
    (readFields fields).lookup key = (fields.lookup key).map readJson := by
  induction fields with
  | nil => rfl
  | cons entry fields ih =>
      obtain ⟨other, json⟩ := entry
      rw [readFields, List.lookup_cons, List.lookup_cons, ih]
      cases key == other <;> rfl

@[simp]
theorem nodes?_readJson (json : Json) :
    (readJson json).nodes? =
      json.items?.bind fun items => (items.map readJson).mapM Reading.node? := by
  cases json with
  | array items => rw [readJson, readItems_eq_map]; rfl
  | null | bool _ | number _ | string _ | object _ => rfl

/-- The fields of a value with the readings in place of the values. -/
def readField (field : String → Option Json) (name : String) : Option Reading :=
  (field name).map readJson

variable {kind : Kind} {field : String → Option Json}

/-- The attributes and children of an element are read from lists that may be left out. -/
theorem ofFields?_element (field : String → Option Json) :
    ofFields? .element (readField field) =
      ((listed? (field "attrs")).bind (List.mapM Attribute.ofPart?)).bind fun attrs =>
        ((listed? (field "children")).bind fun items =>
            (items.map readJson).mapM Reading.node?).bind fun children =>
          ((field "name").bind string?).bind fun name => some (.element name attrs children) := by
  have hname :
      ((field "name").map readJson).bind (fun reading => reading.json.string?) =
        (field "name").bind string? := by
    cases field "name" <;> simp
  cases hattrs : field "attrs" <;> cases hchildren : field "children" <;>
    simp [ofFields?, readField, hattrs, hchildren, hname, listed?, Option.bind_assoc]

/-- A node read from fields has the kind they are read for. -/
theorem kind_of_ofFields? (field : String → Option Json)
    (hread : ofFields? kind (readField field) = some node) :
    node.kind = kind := by
  cases kind with
  | element =>
      rw [ofFields?_element] at hread
      simp only [Option.bind_eq_some_iff, Option.some.injEq] at hread
      obtain ⟨_, -, _, -, _, -, rfl⟩ := hread
      rfl
  | content =>
      obtain rfl := Option.some.inj hread
      rfl
  | doctype | text | comment | var | markdown =>
      simp only [ofFields?, Option.bind_eq_bind, Option.bind_eq_some_iff, Option.pure_def,
        Option.some.injEq] at hread
      obtain ⟨_, -, rfl⟩ := hread
      rfl
  | conditional | loop =>
      simp only [ofFields?, Option.bind_eq_bind, Option.bind_eq_some_iff, Option.pure_def,
        Option.some.injEq] at hread
      obtain ⟨_, -, _, -, rfl⟩ := hread
      rfl

theorem areSingle_readFields (keys : List String) (fields : List (String × Json)) :
    areSingle keys (readFields fields) = areSingle keys fields := by
  have hcount : ∀ key, (readFields fields).countP (·.1 == key) = fields.countP (·.1 == key) := by
    intro key
    induction fields with
    | nil => rfl
    | cons entry fields ih =>
        obtain ⟨other, json⟩ := entry
        rw [readFields, List.countP_cons, List.countP_cons, ih]
  simp only [areSingle, hcount]

theorem node?_object_iff {fields : List (String × Json)} :
    (readJson (.object fields)).node? = some node ↔
      ∃ kind, (fields.lookup "type").bind (choice? kinds) = some kind ∧
        areSingle ("type" :: kind.fieldNames) fields = true ∧
        ofFields? kind (readField fun name => fields.lookup name) = some node := by
  have hnode : (readJson (.object fields)).node? =
      ((fields.lookup "type").bind (choice? kinds)).bind fun kind =>
        if areSingle ("type" :: kind.fieldNames) fields then
          ofFields? kind (readField fun name => fields.lookup name)
        else none := by
    simp only [readJson, ofNamed?, lookup_readFields, areSingle_readFields, Option.bind_eq_bind]
    cases fields.lookup "type" with
    | none => rfl
    | some tag => simp only [Option.map_some, Option.bind_some, readJson_json]; rfl
  rw [hnode, Option.bind_eq_some_iff]
  simp

theorem node?_array_iff {tag : Json} {items : List Json} :
    (readJson (.array (tag :: items))).node? = some node ↔
      ∃ kind, tag.choice? kinds = some kind ∧ items.length ≤ kind.fieldNames.length ∧
        ofFields? kind (readField fun name => items[kind.fieldNames.idxOf name]?) =
          some node := by
  have hnode : (readJson (.array (tag :: items))).node? =
      (tag.choice? kinds).bind fun kind =>
        if items.length ≤ kind.fieldNames.length then
          ofFields? kind (readField fun name => items[kind.fieldNames.idxOf name]?)
        else none := by
    simp only [readJson, readItems_eq_map, List.map_cons, ofPositional?, readJson_json,
      Option.bind_eq_bind, List.length_map, List.getElem?_map]
    rfl
  rw [hnode, Option.bind_eq_some_iff]
  simp

/-- A node is read from the fields beside its tag. -/
theorem node?_readJson_iff_given :
    (readJson json).node? = some node ↔
      ∃ field, Given kinds Kind.fieldNames json node.kind field ∧
        ofFields? node.kind (readField field) = some node := by
  constructor
  · intro hread
    cases json with
    | object fields =>
        obtain ⟨kind, htag, hsingle, hfields⟩ := node?_object_iff.mp hread
        obtain rfl := kind_of_ofFields? _ hfields
        exact ⟨_, .named htag hsingle, hfields⟩
    | array items =>
        cases items with
        | nil => simp [readJson, readItems, ofPositional?] at hread
        | cons tag items =>
            obtain ⟨kind, htag, hcount, hfields⟩ := node?_array_iff.mp hread
            obtain rfl := kind_of_ofFields? _ hfields
            exact ⟨_, .positional htag hcount, hfields⟩
    | null | bool _ | number _ | string _ => simp [readJson] at hread
  · rintro ⟨field, hgiven, hfields⟩
    cases hgiven with
    | named htag hsingle => exact node?_object_iff.mpr ⟨_, htag, hsingle, hfields⟩
    | positional htag hcount => exact node?_array_iff.mpr ⟨_, htag, hcount, hfields⟩

/-- A text field is read as the text it holds. -/
theorem exists_readField_string? {name text : String} :
    (∃ reading, readField field name = some reading ∧ reading.json.string? = some text) ↔
      field name = some (.string text) := by
  simp [readField, string?_eq_some]

/-- A node field is read as the node it is read as alone. -/
theorem exists_readField_node? {name : String} {child : Node} :
    (∃ reading, readField field name = some reading ∧ reading.node? = some child) ↔
      ∃ json, field name = some json ∧ (readJson json).node? = some child := by
  simp [readField]

theorem ofFields?_element_eq_some_iff
    {name : String} {attrs : List Attribute} {children : List Node} :
    ofFields? .element (readField field) = some (.element name attrs children) ↔
      field "name" = some (.string name) ∧
        (∃ items, listed? (field "attrs") = some items ∧
          List.Forall₂ Attribute.Describes items attrs) ∧
        ∃ items, listed? (field "children") = some items ∧
          (items.map readJson).mapM Reading.node? = some children := by
  simp only [ofFields?_element, Option.bind_eq_some_iff, Option.some.injEq, Node.element.injEq,
    mapM_eq_some_iff (f := Attribute.ofPart?), Attribute.ofPart?_iff_describes, string?_eq_some]
  constructor
  · rintro ⟨_, hattrs, _, hchildren, _, ⟨_, hname, rfl⟩, rfl, rfl, rfl⟩
    exact ⟨hname, hattrs, hchildren⟩
  · rintro ⟨hname, hattrs, hchildren⟩
    exact ⟨_, hattrs, _, hchildren, _, ⟨_, hname, rfl⟩, rfl, rfl, rfl⟩

/-- The node is read from exactly the values that describe it. -/
def IsReadExactly (node : Node) : Prop :=
  ∀ json, (readJson json).node? = some node ↔ Describes json node

theorem mapM_node?_iff_describes
    {nodes : List Node} (hnodes : ∀ node ∈ nodes, node.IsReadExactly) (items : List Json) :
    (items.map readJson).mapM Reading.node? = some nodes ↔
      List.Forall₂ Describes items nodes := by
  rw [mapM_eq_some_iff, List.forall₂_map_left_iff]
  induction nodes generalizing items with
  | nil => simp
  | cons node nodes ih =>
      rw [List.forall_mem_cons] at hnodes
      simp only [List.forall₂_cons_right_iff, hnodes.1 _, ih hnodes.2]

theorem isReadExactly_element
    (name : String) (attrs : List Attribute) {children : List Node}
    (hchildren : ∀ child ∈ children, child.IsReadExactly) :
    (element name attrs children).IsReadExactly := by
  intro json
  rw [node?_readJson_iff_given]
  simp only [kind, ofFields?_element_eq_some_iff, mapM_node?_iff_describes hchildren]
  constructor
  · rintro ⟨field, hgiven, hname, ⟨_, hattrItems, hattrs⟩, _, hchildItems, hdescribes⟩
    exact .element hgiven hname hattrItems hattrs hchildItems hdescribes
  · intro hdescribes
    cases hdescribes with
    | element hgiven hname hattrItems hattrs hchildItems hdescribes =>
        exact ⟨_, hgiven, hname, ⟨_, hattrItems, hattrs⟩, _, hchildItems, hdescribes⟩

theorem isReadExactly_conditional
    (reference : String) {child : Node} (hchild : child.IsReadExactly) :
    (conditional reference child).IsReadExactly := by
  intro json
  rw [node?_readJson_iff_given]
  simp only [kind, ofFields?, Option.bind_eq_bind, Option.bind_eq_some_iff,
    exists_readField_string?, exists_readField_node?]
  constructor
  · rintro ⟨field, hgiven, _, hreference, _, ⟨_, hjson, hread⟩, hnode⟩
    cases hnode
    exact .conditional hgiven hreference hjson ((hchild _).mp hread)
  · intro hdescribes
    cases hdescribes with
    | conditional hgiven hreference hjson hdescribes =>
        exact ⟨_, hgiven, _, hreference, _, ⟨_, hjson, (hchild _).mpr hdescribes⟩, rfl⟩

theorem isReadExactly_loop
    (reference : String) {template : Node} (htemplate : template.IsReadExactly) :
    (loop reference template).IsReadExactly := by
  intro json
  rw [node?_readJson_iff_given]
  simp only [kind, ofFields?, Option.bind_eq_bind, Option.bind_eq_some_iff,
    exists_readField_string?, exists_readField_node?]
  constructor
  · rintro ⟨field, hgiven, _, hreference, _, ⟨_, hjson, hread⟩, hnode⟩
    cases hnode
    exact .loop hgiven hreference hjson ((htemplate _).mp hread)
  · intro hdescribes
    cases hdescribes with
    | loop hgiven hreference hjson hdescribes =>
        exact ⟨_, hgiven, _, hreference, _, ⟨_, hjson, (htemplate _).mpr hdescribes⟩, rfl⟩

/-- The values read as a node are those that describe it. -/
theorem isReadExactly (node : Node) : node.IsReadExactly := by
  suffices h : ∀ nodes : List Node, ∀ node ∈ nodes, node.IsReadExactly from
    h [node] node List.mem_cons_self
  intro nodes
  induction nodes using Node.inductionOn with
  | nil => simp
  | element name attrs children nodes ihchildren ih =>
      exact List.forall_mem_cons.mpr ⟨isReadExactly_element name attrs ihchildren, ih⟩
  | conditional reference child nodes ihchild ih =>
      have hchild := ihchild child List.mem_cons_self
      exact List.forall_mem_cons.mpr ⟨isReadExactly_conditional reference hchild, ih⟩
  | loop reference template nodes ihtemplate ih =>
      have htemplate := ihtemplate template List.mem_cons_self
      exact List.forall_mem_cons.mpr ⟨isReadExactly_loop reference htemplate, ih⟩
  | content nodes ih =>
      refine List.forall_mem_cons.mpr ⟨fun json => ?_, ih⟩
      rw [node?_readJson_iff_given]
      constructor
      · rintro ⟨field, hgiven, -⟩
        exact .content hgiven
      · intro hdescribes
        cases hdescribes with
        | content hgiven => exact ⟨_, hgiven, rfl⟩
  -- the kinds with one text and nothing below them
  | doctype text nodes ih | text text nodes ih | comment text nodes ih | var text nodes ih
  | markdown text nodes ih =>
      refine List.forall_mem_cons.mpr ⟨fun json => ?_, ih⟩
      rw [node?_readJson_iff_given]
      simp only [kind, ofFields?, Option.bind_eq_bind, Option.bind_eq_some_iff,
        exists_readField_string?]
      constructor
      · rintro ⟨field, hgiven, _, htext, hnode⟩
        cases hnode
        constructor
        · exact hgiven
        · exact htext
      · intro hdescribes
        cases hdescribes
        rename_i hgiven htext
        exact ⟨_, hgiven, _, htext, rfl⟩

/-- A value that stands alone is read as a node if it describes it and its tag is a name. -/
theorem ofJson?_iff_describes :
    ofJson? json = some node ↔
      (∃ name, json.tag? = some (.string name)) ∧ Describes json node := by
  rw [← isReadExactly node json]
  exact outermost?_eq_some_iff

/-- The written form of a node describes it. -/
theorem describes_listToJson (nodes : List Node) :
    List.Forall₂ Describes (listToJson nodes) nodes := by
  induction nodes using Node.inductionOn with
  | nil => exact .nil
  | doctype value nodes ih => exact .cons (.doctype (.named rfl rfl) rfl) ih
  | element name attrs children nodes ihchildren ih =>
      have hattrs : List.Forall₂ Attribute.Describes (attrs.map Attribute.toJson) attrs := by
        rw [List.forall₂_map_left_iff, List.forall₂_same]
        exact fun attr _ => Attribute.describes_toJson attr
      exact .cons (.element (.named rfl rfl) rfl rfl hattrs rfl ihchildren) ih
  | text value nodes ih => exact .cons (.text (.named rfl rfl) rfl) ih
  | comment value nodes ih => exact .cons (.comment (.named rfl rfl) rfl) ih
  | var reference nodes ih => exact .cons (.var (.named rfl rfl) rfl) ih
  | conditional reference child nodes ihchild ih =>
      have hchild := (List.forall₂_cons.mp ihchild).1
      exact .cons (.conditional (.named rfl rfl) rfl rfl hchild) ih
  | content nodes ih => exact .cons (.content (.named rfl rfl)) ih
  | markdown reference nodes ih => exact .cons (.markdown (.named rfl rfl) rfl) ih
  | loop reference template nodes ihtemplate ih =>
      have htemplate := (List.forall₂_cons.mp ihtemplate).1
      exact .cons (.loop (.named rfl rfl) rfl rfl htemplate) ih

theorem describes_toJson (node : Node) : Describes node.toJson node :=
  (List.forall₂_cons.mp (describes_listToJson [node])).1

theorem tag?_toJson (node : Node) : node.toJson.tag? = some (.string node.kind.label) := by
  cases node <;> rfl

/-- Reading a node undoes writing it. -/
theorem ofJson?_toJson (node : Node) : ofJson? node.toJson = some node :=
  ofJson?_iff_describes.mpr ⟨⟨_, tag?_toJson node⟩, describes_toJson node⟩

/-- Reading a tree undoes writing it. -/
theorem listOfJson?_treeToJson (tree : List Node) : listOfJson? (treeToJson tree) = some tree := by
  change (listToJson tree).mapM ofJson? = some tree
  induction tree with
  | nil => rfl
  | cons node nodes ih => rw [listToJson, List.mapM_cons, ofJson?_toJson, ih]; rfl

/-- An element without attribute list has no attributes, and one without child list has no
children. -/
theorem Describes.eq_nil_of_missing
    {fields : List (String × Json)} {name : String} {attrs : List Attribute} {children : List Node}
    (hdescribes : Describes (.object fields) (.element name attrs children)) :
    (fields.lookup "attrs" = none → attrs = []) ∧
      (fields.lookup "children" = none → children = []) := by
  cases hdescribes with
  | element hgiven hname hattrItems hattrs hchildItems hchildren =>
      cases hgiven
      constructor
      · intro hmissing
        simp only [hmissing, listed?, Option.some.injEq] at hattrItems
        subst hattrItems
        exact List.forall₂_nil_left_iff.mp hattrs
      · intro hmissing
        simp only [hmissing, listed?, Option.some.injEq] at hchildItems
        subst hchildItems
        exact List.forall₂_nil_left_iff.mp hchildren

end Node

/-! ## Nesting -/

namespace Attribute

/-- Nothing is nested in a written attribute. -/
theorem nesting_toJson (attr : Attribute) : attr.toJson.nesting = 1 := by
  obtain ⟨name, value⟩ := attr
  cases value <;> rfl

theorem Describes.nesting_pos {json : Json} {attr : Attribute} (h : Describes json attr) :
    0 < json.nesting := by
  cases h with
  | literal hgiven => exact hgiven.nesting_pos
  | var hgiven => exact hgiven.nesting_pos
  | conditional hgiven => exact hgiven.nesting_pos

/-- A list of attributes is nested no deeper when it is written again. -/
theorem nesting_map_toJson_le
    {items : List Json} {attrs : List Attribute} (h : List.Forall₂ Describes items attrs) :
    (Json.array (attrs.map toJson)).nesting ≤ (Json.array items).nesting := by
  have hitems : itemNesting (attrs.map toJson) ≤ itemNesting items := by
    induction h with
    | nil => exact Nat.le_refl 0
    | @cons item attr items attrs hdescribes _ ih =>
        have hpos := hdescribes.nesting_pos
        rw [List.map_cons, itemNesting, itemNesting, nesting_toJson]
        omega
  exact Nat.succ_le_succ hitems

end Attribute

namespace Node

/-- When the node is written again it is at most one level deeper than what it was read from. -/
def GrowsByOne (node : Node) : Prop :=
  ∀ json, Describes json node → node.toJson.nesting ≤ json.nesting + 1

/-- What is written for a field is nested no deeper than what the whole was read from. -/
theorem GrowsByOne.nesting_le
    {json childJson : Json} {kind : Kind} {field : String → Option Json} {name : String}
    {child : Node} (hchild : child.GrowsByOne)
    (hgiven : Given kinds Kind.fieldNames json kind field)
    (hfield : field name = some childJson) (hdescribes : Describes childJson child) :
    child.toJson.nesting ≤ json.nesting := by
  have hbelow := hchild childJson hdescribes
  have hlt := hgiven.nesting_lt hfield
  omega

theorem nesting_listToJson_le
    {nodes : List Node} (hnodes : ∀ node ∈ nodes, node.GrowsByOne) {items : List Json}
    (h : List.Forall₂ Describes items nodes) :
    (Json.array (listToJson nodes)).nesting ≤ (Json.array items).nesting + 1 := by
  have hitems : itemNesting (listToJson nodes) ≤ itemNesting items + 1 := by
    induction h with
    | nil => exact Nat.zero_le _
    | @cons item node items nodes hdescribes _ ih =>
        rw [List.forall_mem_cons] at hnodes
        have hnode := hnodes.1 item hdescribes
        have hrest := ih hnodes.2
        rw [listToJson, itemNesting, itemNesting]
        omega
  exact Nat.succ_le_succ hitems

theorem nesting_toJson_element (name : String) (attrs : List Attribute) (children : List Node) :
    (element name attrs children).toJson.nesting =
      max (Json.array (attrs.map Attribute.toJson)).nesting
        (Json.array (listToJson children)).nesting + 1 := by
  simp [toJson, tagField, nesting, fieldNesting]

theorem growsByOne_element
    (name : String) (attrs : List Attribute) {children : List Node}
    (hchildren : ∀ child ∈ children, child.GrowsByOne) :
    (element name attrs children).GrowsByOne := by
  intro json hdescribes
  cases hdescribes with
  | element hgiven hname hattrItems hattrs hchildItems hdescribes =>
      have hattrsLe : (Json.array (attrs.map Attribute.toJson)).nesting ≤ json.nesting := by
        refine hgiven.nesting_array_le hattrItems ?_
          (Nat.le_succ_of_le (Attribute.nesting_map_toJson_le hattrs))
        rintro rfl
        rw [List.forall₂_nil_left_iff.mp hattrs, List.map_nil]
      have hchildrenLe : (Json.array (listToJson children)).nesting ≤ json.nesting := by
        refine hgiven.nesting_array_le hchildItems ?_ (nesting_listToJson_le hchildren hdescribes)
        rintro rfl
        rw [List.forall₂_nil_left_iff.mp hdescribes, listToJson]
      rw [nesting_toJson_element]
      omega

/-- Writing a node that was read adds at most one level: the empty lists of its innermost elements
may have been left out. -/
theorem growsByOne (node : Node) : node.GrowsByOne := by
  suffices h : ∀ nodes : List Node, ∀ node ∈ nodes, node.GrowsByOne from
    h [node] node List.mem_cons_self
  intro nodes
  induction nodes using Node.inductionOn with
  | nil => simp
  | element name attrs children nodes ihchildren ih =>
      exact List.forall_mem_cons.mpr ⟨growsByOne_element name attrs ihchildren, ih⟩
  | conditional reference child nodes ihchild ih =>
      refine List.forall_mem_cons.mpr ⟨?_, ih⟩
      intro json hdescribes
      cases hdescribes with
      | conditional hgiven hreference hchildJson hchild =>
          have hbelow := (ihchild child List.mem_cons_self).nesting_le hgiven hchildJson hchild
          simp only [toJson, tagField, nesting, fieldNesting]
          omega
  | loop reference template nodes ihtemplate ih =>
      refine List.forall_mem_cons.mpr ⟨?_, ih⟩
      intro json hdescribes
      cases hdescribes with
      | loop hgiven hreference htemplateJson htemplate =>
          have hbelow :=
            (ihtemplate template List.mem_cons_self).nesting_le hgiven htemplateJson htemplate
          simp only [toJson, tagField, nesting, fieldNesting]
          omega
  -- the kinds with nothing below them
  | doctype text nodes ih | text text nodes ih | comment text nodes ih | var text nodes ih
  | markdown text nodes ih =>
      exact List.forall_mem_cons.mpr ⟨fun _ _ => Nat.succ_le_succ (Nat.zero_le _), ih⟩
  | content nodes ih =>
      exact List.forall_mem_cons.mpr ⟨fun _ _ => Nat.succ_le_succ (Nat.zero_le _), ih⟩

/-- The level that writing adds can be needed at any depth. -/
theorem exists_nesting_toJson_eq (depth : Nat) :
    ∃ json node, ofJson? json = some node ∧ json.nesting = depth + 1 ∧
      node.toJson.nesting = depth + 2 := by
  induction depth with
  | zero =>
      exact ⟨.object [("type", .string "element"), ("name", .string "hr")], .element "hr" [] [],
        rfl, rfl, rfl⟩
  | succ depth ih =>
      obtain ⟨json, node, hread, hjson, hnode⟩ := ih
      have hdescribes := (ofJson?_iff_describes.mp hread).2
      refine ⟨.object [("type", .string "conditional"), ("reference", .string ""), ("child", json)],
        .conditional "" node, ?_, ?_, ?_⟩
      · exact ofJson?_iff_describes.mpr
          ⟨⟨_, rfl⟩, .conditional (.named rfl rfl) rfl rfl hdescribes⟩
      · simp [nesting, fieldNesting, hjson]
      · simp [toJson, tagField, nesting, fieldNesting, hnode]

end Node

/-! ## Round trips -/

theorem Layout.ofJson?_toJson (layout : Layout) : ofJson? layout.toJson = some layout := by
  have htree := Node.listOfJson?_treeToJson layout.tree
  have hsingle : areSingle ["tree"] [("tree", Node.treeToJson layout.tree)] = true := rfl
  simp [Layout.ofJson?, Layout.toJson, htree, hsingle]

/-- What is written is read back, by any reader that accepts documents up to a limit of nesting, as
far as the written form is within it; without a limit this is everything.  A node or an attribute is
read from exactly the values that describe it, with the empty lists of elements left out at any
depth, and its written form is one of them, at most one level deeper.  The values of a page are read
in the first way that fits, and no other fits; their written form is no deeper. -/
theorem written_form_is_read_back
    {reader : Json.Reader} {limit : Option Nat} (hreader : reader.AcceptsUpTo limit) :
    (∀ json node, reader.read? Node.ofJson? json = some node ↔
      reader.accepts json = true ∧ (∃ name, json.tag? = some (.string name)) ∧
        Node.Describes json node) ∧
    (∀ fields name attrs children,
      Node.Describes (.object fields) (.element name attrs children) →
        (fields.lookup "attrs" = none → attrs = []) ∧
          (fields.lookup "children" = none → children = [])) ∧
    (∀ node : Node, Node.Describes node.toJson node ∧
      (node.toJson.IsWithin limit → reader.read? Node.ofJson? node.toJson = some node)) ∧
    (∀ json node, reader.read? Node.ofJson? json = some node →
      node.toJson.nesting ≤ json.nesting + 1 ∧
        (node.toJson.IsWithin limit → reader.read? Node.ofJson? node.toJson = some node)) ∧
    (∀ json attr, reader.read? Attribute.ofJson? json = some attr ↔
      reader.accepts json = true ∧ (∃ name, json.tag? = some (.string name)) ∧
        Attribute.Describes json attr) ∧
    (∀ attr : Attribute, Attribute.Describes attr.toJson attr ∧
      (attr.toJson.IsWithin limit → reader.read? Attribute.ofJson? attr.toJson = some attr)) ∧
    (∀ layout : Layout, layout.toJson.IsWithin limit →
      reader.read? Layout.ofJson? layout.toJson = some layout) ∧
    (∀ value : Value, value.IsOrdered → value.toJson.IsWithin limit →
      reader.read? Value.ofJson? value.toJson = some value) ∧
    (∀ json value, reader.read? Value.ofJson? json = some value →
      value.IsOrdered ∧ value.toJson.nesting ≤ json.nesting ∧
        (value.toJson.IsWithin limit → reader.read? Value.ofJson? value.toJson = some value)) ∧
    (∀ json, Value.ofJson? json = Value.readings.findSome? fun read => read json) ∧
    ∀ json value, ∀ read ∈ Value.readings, read json = some value →
      Value.ofJson? json = some value := by
  have hnodes : ∀ node : Node, node.toJson.IsWithin limit →
      reader.read? Node.ofJson? node.toJson = some node :=
    fun node => Reader.read?_of_isWithin hreader (Node.ofJson?_toJson node)
  have hvalues : ∀ value : Value, value.IsOrdered → value.toJson.IsWithin limit →
      reader.read? Value.ofJson? value.toJson = some value :=
    fun value hordered => Reader.read?_of_isWithin hreader (Value.ofJson?_toJson value hordered)
  refine ⟨fun json node => ?_, fun _ _ _ _ h => h.eq_nil_of_missing,
    fun node => ⟨Node.describes_toJson node, hnodes node⟩, fun json node hread => ?_,
    fun json attr => ?_, fun attr => ⟨Attribute.describes_toJson attr, ?_⟩, fun layout => ?_,
    hvalues, fun json value hread => ?_, Value.ofJson?_eq_findSome?,
    fun _ _ _ hread hvalue => Value.ofJson?_of_reading hread hvalue⟩
  · rw [Reader.read?_eq_some_iff, Node.ofJson?_iff_describes]
  · rw [Reader.read?_eq_some_iff, Node.ofJson?_iff_describes] at hread
    exact ⟨Node.growsByOne node json hread.2.2, hnodes node⟩
  · rw [Reader.read?_eq_some_iff, Attribute.ofJson?_iff_describes]
  · exact Reader.read?_of_isWithin hreader (Attribute.ofJson?_toJson attr)
  · exact Reader.read?_of_isWithin hreader (Layout.ofJson?_toJson layout)
  · obtain ⟨-, hread⟩ := Reader.read?_eq_some_iff.mp hread
    have hordered := Value.isOrdered_of_ofJson? hread
    exact ⟨hordered, Value.nesting_toJson_le hread, hvalues value hordered⟩

/-- A list with an item, a line break and an item of a loop, all without attributes, and a record
with a flag, a text and a list, read with the usual limit. -/
theorem written_form_is_read_back_of_list :
    let reader := Json.Reader.upTo 127
    let document : Json :=
      .object
        [("name", .string "ul"), ("children",
          .array
            [.object [("type", .string "element"), ("name", .string "br")],
              .object
                [("type", .string "loop"), ("reference", .string "loop1"), ("template",
                  .object
                    [("children",
                        .array
                          [.object [("reference", .string "var1"), ("type", .string "variable")]]),
                      ("type", .string "element"), ("name", .string "li")])]]),
          ("type", .string "element")]
    let node : Node :=
      .element "ul" [] [.element "br" [] [], .loop "loop1" (.element "li" [] [.var "var1"])]
    let value : Value := .list [[("a", .flag true), ("b", .list [[("c", .text "true")]])], []]
    reader.AcceptsUpTo (some 127) ∧
      (reader.read? Node.ofJson? document = some node ∧
        reader.read? Node.ofJson? node.toJson = some node) ∧
      value.IsOrdered ∧ reader.read? Value.ofJson? value.toJson = some value := by
  intro reader document node value
  have hreader : reader.AcceptsUpTo (some 127) := Reader.acceptsUpTo_upTo 127
  have hread : reader.read? Node.ofJson? document = some node := by rfl
  have hnode : node.toJson.IsWithin (some 127) := by
    rintro _ ⟨⟩
    decide
  have hordered : value.IsOrdered := by
    simp only [value, Value.IsOrdered, Record.AreOrdered, Record.IsOrdered]
    decide
  have hvalue : value.toJson.IsWithin (some 127) := by
    rintro _ ⟨⟩
    decide
  obtain ⟨-, -, -, hnodes, -, -, -, hvalues, -⟩ := written_form_is_read_back hreader
  exact ⟨hreader, ⟨hread, (hnodes document node hread).2 hnode⟩, hordered,
    hvalues value hordered hvalue⟩

end Stencil
