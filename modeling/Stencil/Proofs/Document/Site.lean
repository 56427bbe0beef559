import Mathlib.Data.List.Basic
import Stencil.Document.Difference

/-!
# Places of an anchor

A reference made by a comparison tells a place of the anchor: one of its texts, attributes or
nodes, or an insertion between its nodes.  Different places have different references
(`Site.reference_injective`), because the four forms begin differently, numbers are written in
digits, and no digit is an underscore.
-/

namespace Stencil.Comparison

/-- A place of the anchor that a placeholder can stand for. -/
inductive Site where
  | text (n : Nat)
  | attribute (n : Nat)
  | node (n : Nat)
  | insertion (parent child k : Nat)
  deriving DecidableEq, Repr

/-- The reference of a place. -/
def Site.reference : Site → String
  | .text n => varReference n
  | .attribute n => attrReference n
  | .node n => showReference n
  | .insertion parent child k => extraReference parent child k

/-! ## Numbers in references -/

theorem toList_toString (n : Nat) : (toString n).toList = Nat.toDigits 10 n :=
  Nat.toList_repr

theorem toDigits_injective {m n : Nat} (h : Nat.toDigits 10 m = Nat.toDigits 10 n) : m = n := by
  rw [← Nat.ofDigitChars_ten_toDigits (n := m), h, Nat.ofDigitChars_ten_toDigits]

theorem append_underscore_inj
    {as as' bs bs' : List Char} (has : '_' ∉ as) (has' : '_' ∉ as')
    (h : as ++ '_' :: bs = as' ++ '_' :: bs') :
    as = as' ∧ bs = bs' := by
  induction as generalizing as' with
  | nil =>
      cases as' with
      | nil => simpa using h
      | cons c as' =>
          simp only [List.nil_append, List.cons_append, List.cons.injEq] at h
          exact absurd (h.1 ▸ List.mem_cons_self) has'
  | cons c as ih =>
      cases as' with
      | nil =>
          simp only [List.nil_append, List.cons_append, List.cons.injEq] at h
          exact absurd (h.1 ▸ List.mem_cons_self) has
      | cons c' as' =>
          simp only [List.cons_append, List.cons.injEq] at h
          obtain ⟨rfl, rfl⟩ := ih (List.not_mem_of_not_mem_cons has)
            (List.not_mem_of_not_mem_cons has') h.2
          exact ⟨by rw [h.1], rfl⟩

/-- A number followed by an underscore can be read off. -/
theorem toDigits_append_underscore_inj
    {m n : Nat} {as bs : List Char}
    (h : Nat.toDigits 10 m ++ '_' :: as = Nat.toDigits 10 n ++ '_' :: bs) :
    m = n ∧ as = bs := by
  obtain ⟨hdigits, hrest⟩ :=
    append_underscore_inj Nat.underscore_not_in_toDigits Nat.underscore_not_in_toDigits h
  exact ⟨toDigits_injective hdigits, hrest⟩

theorem toList_extraReference (parent child k : Nat) :
    (extraReference parent child k).toList =
      "extra".toList ++ (Nat.toDigits 10 parent ++
        '_' :: (Nat.toDigits 10 child ++ '_' :: Nat.toDigits 10 k)) := by
  simp [extraReference]

/-! ## References tell places -/

theorem Site.reference_injective : Function.Injective Site.reference := by
  intro a b h
  replace h := congrArg String.toList h
  cases a <;> cases b <;>
    simp only [reference, varReference, attrReference, showReference, toList_extraReference,
      String.toList_append, toList_toString] at h
  case text.text m n =>
    exact congrArg Site.text (toDigits_injective (List.append_cancel_left h))
  case attribute.attribute m n =>
    exact congrArg Site.attribute (toDigits_injective (List.append_cancel_left h))
  case node.node m n =>
    exact congrArg Site.node (toDigits_injective (List.append_cancel_left h))
  case insertion.insertion parent child k parent' child' k' =>
    obtain ⟨rfl, hchild⟩ := toDigits_append_underscore_inj (List.append_cancel_left h)
    obtain ⟨rfl, hk⟩ := toDigits_append_underscore_inj hchild
    rw [toDigits_injective hk]
  all_goals simp at h

end Stencil.Comparison
