import Mathlib.Data.List.Infix
import Stencil.Proofs.Node.Concrete
import Stencil.Proofs.Template.Characters
import Stencil.Text.Space

/-!
# Canonical trees

The trees that can be read back from their markup: concrete trees without content nodes in which
every name is plain, no text is lost or changed by collapsing white space, and nothing in a
comment, a doctype or a script ends it early.

The markup of a canonical tree is written out construct by construct (`Node.markup_element` and the
lemmas beside it), as far as reading it back needs.
-/

namespace Stencil

/-! ## Plain names -/

/-- A small letter, a digit or a hyphen. -/
def isPlainChar (c : Char) : Bool :=
  c.isLower || c.isDigit || c == '-'

/-- A name that begins with a small letter and goes on with small letters, digits and hyphens. -/
def IsPlainName (name : String) : Prop :=
  name.toList.head?.any Char.isLower = true ∧ name.toList.all isPlainChar = true

instance (name : String) : Decidable (IsPlainName name) :=
  inferInstanceAs (Decidable (_ ∧ _))

theorem IsPlainName.exists_cons
    {name : String} (hname : IsPlainName name) :
    ∃ c cs, name.toList = c :: cs ∧ c.isLower = true ∧ ∀ d ∈ c :: cs, isPlainChar d = true := by
  obtain ⟨hhead, hall⟩ := hname
  cases hchars : name.toList with
  | nil => simp [hchars] at hhead
  | cons c cs =>
      rw [hchars] at hhead hall
      exact ⟨c, cs, rfl, by simpa using hhead, List.all_eq_true.mp hall⟩

theorem val_of_isLower {c : Char} (hc : c.isLower = true) : 'a'.val ≤ c.val := by
  have hrange : (decide ('a'.val ≤ c.val) && decide (c.val ≤ 'z'.val)) = true := hc
  exact of_decide_eq_true (Bool.and_eq_true_iff.mp hrange).1

theorem val_of_isDigit {c : Char} (hc : c.isDigit = true) : c.val ≤ '9'.val := by
  have hrange : (decide ('0'.val ≤ c.val) && decide (c.val ≤ '9'.val)) = true := hc
  exact of_decide_eq_true (Bool.and_eq_true_iff.mp hrange).2

/-- Plain characters are already small. -/
theorem toLower_of_isPlainChar {c : Char} (hc : isPlainChar c = true) : c.toLower = c := by
  have hrange : ¬('A'.val ≤ c.val ∧ c.val ≤ 'Z'.val) := by
    rintro ⟨hlow, hhigh⟩
    rw [isPlainChar, Bool.or_eq_true, Bool.or_eq_true, beq_iff_eq] at hc
    rcases hc with (hlower | hdigit) | rfl
    · exact absurd (UInt32.le_trans (val_of_isLower hlower) hhigh) (by decide)
    · exact absurd (UInt32.le_trans hlow (val_of_isDigit hdigit)) (by decide)
    · exact absurd hlow (by decide)
  exact dif_neg hrange

/-! ## Canonical trees -/

theorem isVoidElement_of_isRawTextElement
    {name : String} (hraw : isRawTextElement name = true) : isVoidElement name = false := by
  have hmem : name ∈ rawTextElements := List.contains_iff_mem.mp hraw
  rcases List.mem_cons.mp hmem with rfl | hmem
  · decide
  · rw [List.mem_singleton.mp hmem]
    decide

/-- Literal attributes under distinct plain names. -/
def Attribute.Canonical (attrs : List Attribute) : Prop :=
  Static attrs ∧ ∀ attr ∈ attrs, IsPlainName attr.name

instance (attrs : List Attribute) : Decidable (Attribute.Canonical attrs) :=
  inferInstanceAs (Decidable (_ ∧ _))

theorem Attribute.Canonical.exists_static
    {attr : Attribute} {attrs : List Attribute} (h : Canonical (attr :: attrs)) :
    ∃ value, attr = static attr.name value ∧ IsPlainName attr.name ∧
      attr.name ∉ attrs.map Attribute.name ∧ Canonical attrs := by
  obtain ⟨⟨hliteral, hdistinct⟩, hnames⟩ := h
  obtain ⟨hliteral, hliterals⟩ := List.forall_mem_cons.mp hliteral
  obtain ⟨hname, hnames⟩ := List.forall_mem_cons.mp hnames
  obtain ⟨hnew, hdistinct⟩ := List.nodup_cons.mp hdistinct
  obtain ⟨value, hvalue⟩ := eq_static_of_not_isPlaceholder hliteral
  exact ⟨value, hvalue, hname, hnew, ⟨hliterals, hdistinct⟩, hnames⟩

namespace Node

/-- The children of a script or style element: none, or one text that is not blank and cannot be
taken for markup. -/
def IsRawBody (children : List Node) : Prop :=
  children = [] ∨ ∃ value : String, children = [.text value] ∧
    Text.isBlank value.toList = false ∧ '<' ∉ value.toList ∧ '&' ∉ value.toList

/-- Sibling lists that can be read back from their markup. -/
inductive Canonical : List Node → Prop
  | nil : Canonical []
  | doctype {value : String} {nodes : List Node}
      (hne : value ≠ "") (htrim : Text.trim value = value)
      (hplain : ∀ c ∈ value.toList, c.isAlphanum = true ∨ c = ' ')
      (hnodes : Canonical nodes) : Canonical (.doctype value :: nodes)
  | comment {value : String} {nodes : List Node}
      (htrim : Text.trim value = value) (hplain : ¬['-', '-'] <:+: value.toList)
      (hnodes : Canonical nodes) : Canonical (.comment value :: nodes)
  /-- A text that collapsing leaves as it is, with no text right after it. -/
  | text {value : String} {nodes : List Node}
      (hne : value ≠ "") (hcollapse : Text.collapse value = value)
      (hmark : '\uFEFF' ∉ value.toList)
      (halone : ∀ other rest, nodes ≠ .text other :: rest)
      (hnodes : Canonical nodes) : Canonical (.text value :: nodes)
  | void {name : String} {attrs : List Attribute} {nodes : List Node}
      (hvoid : isVoidElement name = true)
      (hname : IsPlainName name) (hattrs : Attribute.Canonical attrs)
      (hnodes : Canonical nodes) : Canonical (.element name attrs [] :: nodes)
  | raw {name : String} {attrs : List Attribute} {children nodes : List Node}
      (hraw : isRawTextElement name = true)
      (hname : IsPlainName name) (hattrs : Attribute.Canonical attrs)
      (hbody : IsRawBody children)
      (hnodes : Canonical nodes) : Canonical (.element name attrs children :: nodes)
  | element {name : String} {attrs : List Attribute} {children nodes : List Node}
      (hvoid : isVoidElement name = false) (hraw : isRawTextElement name = false)
      (hname : IsPlainName name) (hattrs : Attribute.Canonical attrs)
      (hchildren : Canonical children)
      (hnodes : Canonical nodes) : Canonical (.element name attrs children :: nodes)

end Node

/-! ## Their markup -/

open Template

/-- The characters of an attribute list. -/
def Attribute.markup (attrs : List Attribute) : List Char :=
  chars (attrs.flatMap (pieces .page))

/-- What comes after the name of an attribute with a literal value. -/
def Attribute.valueMarkup (value : String) : List Char :=
  if value = "" then [] else '=' :: '"' :: (value.toList.flatMap escapedValueChar ++ ['"'])

theorem Attribute.markup_static (name value : String) (attrs : List Attribute) :
    markup (static name value :: attrs) =
      ' ' :: (name.toList ++ (valueMarkup value ++ markup attrs)) := by
  by_cases hvalue : value = "" <;> simp [markup, pieces, static, valueMarkup, hvalue]

namespace Node

/-- The characters of a sibling list. -/
def markup (nodes : List Node) : List Char :=
  chars (piecesList .page false nodes)

theorem toList_template (tree : List Node) : (template tree).toList = markup tree :=
  toList_text _

theorem markup_doctype (value : String) (nodes : List Node) :
    markup (.doctype value :: nodes) =
      '<' :: '!' :: 'D' :: 'O' :: 'C' :: 'T' :: 'Y' :: 'P' :: 'E' :: ' ' ::
        (value.toList ++ '>' :: markup nodes) := by
  simp [markup, piecesList, pieces]

theorem markup_comment (value : String) (nodes : List Node) :
    markup (.comment value :: nodes) =
      '<' :: '!' :: '-' :: '-' :: ' ' ::
        (value.toList ++ ' ' :: '-' :: '-' :: '>' :: markup nodes) := by
  simp [markup, piecesList, pieces]

theorem markup_text (value : String) (nodes : List Node) :
    markup (.text value :: nodes) = value.toList.flatMap escapedTextChar ++ markup nodes := by
  simp [markup, piecesList, pieces]

theorem markup_void
    {name : String} (attrs : List Attribute) (children nodes : List Node)
    (hvoid : isVoidElement name = true) :
    markup (.element name attrs children :: nodes) =
      '<' :: (name.toList ++ (Attribute.markup attrs ++ '>' :: markup nodes)) := by
  simp [markup, piecesList, pieces, Attribute.markup, hvoid]

theorem markup_raw
    {name : String} (attrs : List Attribute) (children nodes : List Node)
    (hvoid : isVoidElement name = false) (hraw : isRawTextElement name = true) :
    markup (.element name attrs children :: nodes) =
      '<' :: (name.toList ++ (Attribute.markup attrs ++ '>' ::
        (chars (piecesList .page true children) ++
          '<' :: '/' :: (name.toList ++ '>' :: markup nodes)))) := by
  simp [markup, piecesList, pieces, Attribute.markup, hvoid, hraw]

theorem markup_element
    {name : String} (attrs : List Attribute) (children nodes : List Node)
    (hvoid : isVoidElement name = false) (hraw : isRawTextElement name = false) :
    markup (.element name attrs children :: nodes) =
      '<' :: (name.toList ++ (Attribute.markup attrs ++ '>' ::
        (markup children ++ '<' :: '/' :: (name.toList ++ '>' :: markup nodes)))) := by
  simp [markup, piecesList, pieces, Attribute.markup, hvoid, hraw]

/-- A canonical sibling list that does not begin with a text begins with a tag, a comment or a
doctype. -/
theorem Canonical.exists_cons_markup
    {nodes : List Node} (h : Canonical nodes)
    (halone : ∀ other rest, nodes ≠ .text other :: rest) (hne : nodes ≠ []) :
    ∃ cs, markup nodes = '<' :: cs := by
  cases h with
  | nil => exact absurd rfl hne
  | doctype => exact ⟨_, markup_doctype _ _⟩
  | comment => exact ⟨_, markup_comment _ _⟩
  | text => exact absurd rfl (halone _ _)
  | void hvoid => exact ⟨_, markup_void _ _ _ hvoid⟩
  | raw hraw =>
      exact ⟨_, markup_raw _ _ _ (isVoidElement_of_isRawTextElement hraw) hraw⟩
  | element hvoid hraw => exact ⟨_, markup_element _ _ _ hvoid hraw⟩

end Node

end Stencil
