import Stencil.Proofs.Markup.Builder

/-!
# Sibling lists under construction

A builder holds one sibling list for the top level and one for every open element.  A property of
all of them is carried on by the steps of the builder as soon as it is kept when a node is added
at the end of a list, and when a list becomes the children of a closed element.  A property that a
list hands down to its beginning and to the children in it is carried back as well.
-/

namespace Stencil.Markup.Builder

/-- The siblings at the current place, in document order. -/
def siblings (builder : Builder) : List Node :=
  match builder.elements with
  | [] => builder.roots.reverse
  | element :: _ => element.children.reverse

/-- Every sibling list has the property `p`, and the tag of every open element `q`. -/
def Each (p : List Node → Prop) (q : String → List Attribute → Prop) (builder : Builder) : Prop :=
  p builder.roots.reverse ∧
    ∀ element ∈ builder.elements, q element.name element.attrs ∧ p element.children.reverse

section Each

variable {collapse : Bool} {builder : Builder} {node : Node}
variable {p : List Node → Prop} {q : String → List Attribute → Prop}

theorem siblings_append (node : Node) :
    (builder.append node).siblings = builder.siblings ++ [node] := by
  obtain ⟨roots, elements, pending⟩ := builder
  cases elements with
  | nil => simp [append, siblings]
  | cons element outer => simp [append, siblings]

theorem Each.siblings (h : Each p q builder) : p builder.siblings := by
  rw [Builder.siblings]
  split
  · exact h.1
  · rename_i element _ helements
    exact (h.2 element (by simp [helements])).2

theorem Each.append (h : Each p q builder) (hnode : p (builder.siblings ++ [node])) :
    Each p q (builder.append node) := by
  obtain ⟨roots, elements, pending⟩ := builder
  obtain ⟨hroots, helements⟩ := h
  cases elements with
  | nil => exact ⟨by simpa [Builder.append, Builder.siblings] using hnode, by simp [Builder.append]⟩
  | cons element outer =>
      obtain ⟨⟨htag, -⟩, houter⟩ := List.forall_mem_cons.mp helements
      refine ⟨hroots, List.forall_mem_cons.mpr ⟨⟨htag, ?_⟩, houter⟩⟩
      simpa [Builder.siblings] using hnode

theorem Each.of_append
    (h : Each p q (builder.append node))
    (hinit : p (builder.siblings ++ [node]) → p builder.siblings) :
    Each p q builder := by
  have hsiblings := hinit (siblings_append node ▸ h.siblings)
  obtain ⟨roots, elements, pending⟩ := builder
  obtain ⟨hroots, helements⟩ := h
  cases elements with
  | nil => exact ⟨hsiblings, by simp⟩
  | cons element outer =>
      obtain ⟨⟨htag, -⟩, houter⟩ := List.forall_mem_cons.mp helements
      exact ⟨hroots, List.forall_mem_cons.mpr ⟨⟨htag, hsiblings⟩, houter⟩⟩

theorem Each.pop
    (h : Each p q builder)
    (helement : ∀ nodes name attrs children, p nodes → q name attrs → p children →
      p (nodes ++ [.element name attrs children])) :
    Each p q builder.pop := by
  obtain ⟨roots, elements, pending⟩ := builder
  cases elements with
  | nil => exact h
  | cons element outer =>
      obtain ⟨⟨htag, hchildren⟩, houter⟩ := List.forall_mem_cons.mp h.2
      have hrest : Each p q ⟨roots, outer, pending⟩ := ⟨h.1, houter⟩
      exact hrest.append (helement _ _ _ _ hrest.siblings htag hchildren)

theorem Each.of_pop
    (h : Each p q builder.pop)
    (helement : ∀ nodes name attrs children, p (nodes ++ [.element name attrs children]) →
      p nodes ∧ q name attrs ∧ p children) :
    Each p q builder := by
  obtain ⟨roots, elements, pending⟩ := builder
  cases elements with
  | nil => exact h
  | cons element outer =>
      have hclosed := helement _ _ _ _ (siblings_append element.toNode ▸ h.siblings)
      have hrest : Each p q ⟨roots, outer, pending⟩ := Each.of_append h fun _ => hclosed.1
      exact ⟨hrest.1, List.forall_mem_cons.mpr ⟨hclosed.2, hrest.2⟩⟩

theorem Each.popMany
    (n : Nat) (h : Each p q builder)
    (helement : ∀ nodes name attrs children, p nodes → q name attrs → p children →
      p (nodes ++ [.element name attrs children])) :
    Each p q (builder.popMany n) := by
  induction n generalizing builder with
  | zero => exact h
  | succ n ih => exact ih (h.pop helement)

theorem Each.of_popMany
    (n : Nat) (h : Each p q (builder.popMany n))
    (helement : ∀ nodes name attrs children, p (nodes ++ [.element name attrs children]) →
      p nodes ∧ q name attrs ∧ p children) :
    Each p q builder := by
  induction n generalizing builder with
  | zero => exact h
  | succ n ih => exact Each.of_pop (ih h) helement

/-- In the end only the top level is left. -/
theorem each_finish :
    Each p q ((builder.flush collapse).popMany (builder.flush collapse).elements.length) ↔
      p (builder.finish collapse) := by
  simp [Each, elements_popMany_length, finish]

end Each

end Stencil.Markup.Builder
