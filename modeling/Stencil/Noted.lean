/-!
# Values with notes

A value together with notes on how it came about, in the order in which they were made.  Merging
layouts notes warnings, comparing documents notes placeholders and warnings.
-/

namespace Stencil

/-- A value and the notes made while computing it. -/
@[ext]
structure Noted (ε α : Type) where
  value : α
  notes : List ε := []
  deriving Repr, Inhabited

namespace Noted

variable {ε α β : Type}

/-- Change the value and keep the notes. -/
def map (f : α → β) (x : Noted ε α) : Noted ε β :=
  ⟨f x.value, x.notes⟩

/-- Continue with the value; the notes of the second computation come last. -/
def bind (x : Noted ε α) (f : α → Noted ε β) : Noted ε β :=
  ⟨(f x.value).value, x.notes ++ (f x.value).notes⟩

instance : Monad (Noted ε) where
  pure value := ⟨value, []⟩
  bind := bind
  map := map

/-- All values of a list, with their notes in order. -/
def all (xs : List (Noted ε α)) : Noted ε (List α) :=
  ⟨xs.map value, xs.flatMap notes⟩

end Noted

end Stencil
