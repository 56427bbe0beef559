import Stencil.Alignment

/-!
# Alignment by a policy

The pass over two lists with the choices left to a policy: whether two heads correspond, and what a
step turns into.  A policy keeps a state of its own, so that an answer may depend on everything it
was asked before.  `Stencil.Alignment.steps` is the pass of a policy that decides by a fixed
relation and only notes down the steps.
-/

namespace Stencil.Alignment

variable {σ α β γ : Type}

/-- What decides on the steps of a pass, and what makes something of them. -/
structure Policy (σ α β γ : Type) where
  /-- The two heads belong together. -/
  corresponds : α → β → StateM σ Bool
  /-- What a pair or a lone item turns into. -/
  resolve : Step α β → StateM σ γ

namespace Policy

/-- Resolve a step, then do the rest of the pass. -/
def emit (policy : Policy σ α β γ) (step : Step α β) (rest : StateM σ (List γ)) :
    StateM σ (List γ) := do
  let result ← policy.resolve step
  let results ← rest
  return result :: results

/-- The pass from a position onwards. -/
def runFrom (policy : Policy σ α β γ) (cursor : Cursor) :
    List α → List β → StateM σ (List γ)
  | [], [] => pure []
  | a :: as, [] => policy.emit (.first a cursor) (runFrom policy cursor.nextFirst as [])
  | [], b :: bs => policy.emit (.second b cursor) (runFrom policy cursor.nextSecond [] bs)
  | a :: as, b :: bs => do
    if ← policy.corresponds a b then
      policy.emit (.pair a b) (runFrom policy cursor.nextBoth as bs)
    else if bs.length < as.length then
      policy.emit (.first a cursor) (runFrom policy cursor.nextFirst as (b :: bs))
    else policy.emit (.second b cursor) (runFrom policy cursor.nextSecond (a :: as) bs)
termination_by as bs => as.length + bs.length

/-- The whole pass. -/
def run (policy : Policy σ α β γ) (as : List α) (bs : List β) : StateM σ (List γ) :=
  policy.runFrom {} as bs

/-- The policy that decides by a fixed relation and notes down the steps. -/
def recording (corresponds : α → β → Bool) : Policy Unit α β (Step α β) where
  corresponds a b := pure (corresponds a b)
  resolve := pure

end Policy

end Stencil.Alignment
