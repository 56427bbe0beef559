import Mathlib.Tactic.SplitIfs
import Stencil.Alignment.Policy
import Stencil.Document.Difference
import Stencil.Layout.Merge

/-!
# Policies that decide by a fixed relation

The answers of such a policy do not depend on what it was asked before, so the steps of the pass can
be found first and resolved afterwards (`run_eq_mapM_steps`).  The policy that only notes down the
steps gives back these steps (`run_recording`).  The merge of two sibling lists and their comparison
are passes of this kind: `run_merging` and `run_comparing` give their policies, whose state is the
notes made so far and, for a comparison, the number of insertions at the current place.
-/

namespace Stencil.Alignment.Policy

variable {σ α β γ : Type}

/-- The policy decides by a fixed relation. -/
def DecidesBy (policy : Policy σ α β γ) (corresponds : α → β → Bool) : Prop :=
  ∀ a b, policy.corresponds a b = pure (corresponds a b)

section Fixed

variable {policy : Policy σ α β γ} {corresponds : α → β → Bool}

theorem runFrom_cons_cons_of_decidesBy
    (hfixed : policy.DecidesBy corresponds) (cursor : Cursor) (a : α) (as : List α) (b : β)
    (bs : List β) :
    policy.runFrom cursor (a :: as) (b :: bs) =
      if corresponds a b then policy.emit (.pair a b) (policy.runFrom cursor.nextBoth as bs)
      else if bs.length < as.length then
        policy.emit (.first a cursor) (policy.runFrom cursor.nextFirst as (b :: bs))
      else policy.emit (.second b cursor) (policy.runFrom cursor.nextSecond (a :: as) bs) := by
  rw [runFrom, hfixed a b, pure_bind]

theorem emit_eq_mapM_cons (step : Step α β) (steps : List (Step α β)) :
    policy.emit step (steps.mapM policy.resolve) = (step :: steps).mapM policy.resolve :=
  List.mapM_cons.symm

theorem runFrom_nil_eq_mapM (cursor : Cursor) (bs : List β) :
    policy.runFrom cursor [] bs = (secondsFrom cursor bs).mapM policy.resolve := by
  induction bs generalizing cursor with
  | nil => rw [runFrom, secondsFrom, List.mapM_nil]
  | cons b bs ih => rw [runFrom, ih, secondsFrom, emit_eq_mapM_cons]

/-- From every position on, the steps can be found first and resolved afterwards. -/
theorem runFrom_eq_mapM_stepsFrom
    (hfixed : policy.DecidesBy corresponds) (cursor : Cursor) (as : List α) (bs : List β) :
    policy.runFrom cursor as bs = (stepsFrom corresponds as cursor bs).mapM policy.resolve := by
  induction as generalizing cursor bs with
  | nil => exact runFrom_nil_eq_mapM cursor bs
  | cons a as ih =>
      -- A step may use up an item of the second list and leave `a` where it is.
      induction bs generalizing cursor with
      | nil => rw [runFrom, ih, stepsFrom_cons_nil, emit_eq_mapM_cons]
      | cons b bs ihSecond =>
          rw [runFrom_cons_cons_of_decidesBy hfixed, stepsFrom_cons_cons, ih, ih, ihSecond]
          split_ifs <;> rw [emit_eq_mapM_cons]

/-- The steps can be found first and resolved afterwards. -/
theorem run_eq_mapM_steps
    (hfixed : policy.DecidesBy corresponds) (as : List α) (bs : List β) :
    policy.run as bs = (steps corresponds as bs).mapM policy.resolve :=
  runFrom_eq_mapM_stepsFrom hfixed {} as bs

/-- Noting down the steps gives back the steps. -/
theorem run_recording (corresponds : α → β → Bool) (as : List α) (bs : List β) :
    (recording corresponds).run as bs = pure (steps corresponds as bs) := by
  rw [run_eq_mapM_steps (fun _ _ => rfl), recording, List.mapM_pure, List.map_id']

end Fixed

end Stencil.Alignment.Policy

/-! ## The merge of layouts -/

namespace Stencil.Node

open Stencil.Alignment

/-- What a step of a merge becomes. -/
def mergeStep : Step Mergeable Node → Noted Warning Node
  | .pair a b => a.mergeWith b
  | .first a _ => pure a.node
  | .second b _ => pure b

/-- The merge of layouts as a policy: it keeps the warnings. -/
def merging : Policy (List Warning) Mergeable Node Node where
  corresponds a b := pure (equivalent a.node b)
  resolve step notes := ((mergeStep step).value, notes ++ (mergeStep step).notes)

theorem mapM_merging (steps : List (Step Mergeable Node)) (notes : List Warning) :
    (steps.mapM merging.resolve).run notes =
      ((Noted.all (steps.map mergeStep)).value,
        notes ++ (Noted.all (steps.map mergeStep)).notes) := by
  induction steps generalizing notes with
  | nil => exact congrArg (Prod.mk []) (List.append_nil notes).symm
  | cons step steps ih =>
      have hrest := ih (notes ++ (mergeStep step).notes)
      rw [List.append_assoc] at hrest
      rw [List.mapM_cons]
      exact congrArg (fun out => ((mergeStep step).value :: out.1, out.2)) hrest

/-- Merging two sibling lists is a pass of this policy. -/
theorem run_merging (first : List Mergeable) (second : List Node) (notes : List Warning) :
    (merging.run first second).run notes =
      ((mergeSiblings first second).value, notes ++ (mergeSiblings first second).notes) := by
  have hfixed : merging.DecidesBy fun a b => equivalent a.node b := fun _ _ => rfl
  rw [Policy.run_eq_mapM_steps hfixed]
  exact mapM_merging _ notes

end Stencil.Node

/-! ## The comparison of documents -/

namespace Stencil.Comparison

open Stencil.Alignment

/-- What a step of a comparison becomes under the parent with the given number, after the given
number of insertions at the current place. -/
def compareStep (parent insertions : Nat) : Step Comparable Node → Noted Note Node
  | .pair anchor other => anchor.compareWith other
  | .first anchor _ =>
    let reference := showReference (anchor.before.nodes + 1)
    introduce reference (.flag true) (.flag false) (.conditional reference anchor.node)
  | .second other cursor =>
    let reference := extraReference parent cursor.first (insertions + 1)
    introduce reference (.flag false) (.flag true) (.conditional reference other)

/-- The number of insertions at the current place after a step. -/
def insertionsAfter (insertions : Nat) : Step Comparable Node → Nat
  | .pair .. | .first .. => 0
  | .second .. => insertions + 1

/-- The comparison of documents as a policy: it counts the insertions at the current place and
keeps the notes. -/
def comparing (parent : Nat) : Policy (Nat × List Note) Comparable Node Node where
  corresponds a b := pure (corresponds a.node b)
  resolve step := fun (insertions, notes) =>
    let node := compareStep parent insertions step
    (node.value, insertionsAfter insertions step, notes ++ node.notes)

theorem resolveSteps_cons
    (parent insertions : Nat) (step : Step Comparable Node) (steps : List (Step Comparable Node)) :
    resolveSteps parent insertions (step :: steps) = do
      let node ← compareStep parent insertions step
      let nodes ← resolveSteps parent (insertionsAfter insertions step) steps
      return node :: nodes := by
  cases step <;> rfl

theorem mapM_comparing
    (parent insertions : Nat) (steps : List (Step Comparable Node)) (notes : List Note) :
    let out := (steps.mapM (comparing parent).resolve).run (insertions, notes)
    out.1 = (resolveSteps parent insertions steps).value ∧
      out.2.2 = notes ++ (resolveSteps parent insertions steps).notes := by
  induction steps generalizing insertions notes with
  | nil => exact ⟨rfl, (List.append_nil notes).symm⟩
  | cons step steps ih =>
      obtain ⟨hvalue, hnotes⟩ := ih (insertionsAfter insertions step)
        (notes ++ (compareStep parent insertions step).notes)
      rw [List.append_assoc] at hnotes
      rw [List.mapM_cons, resolveSteps_cons]
      refine ⟨congrArg (_ :: ·) hvalue, hnotes.trans ?_⟩
      simp [bind, pure, Noted.bind]

/-- Comparing two sibling lists is a pass of this policy. -/
theorem run_comparing
    (parent : Nat) (anchor : List Comparable) (other : List Node) (notes : List Note) :
    let out := ((comparing parent).run anchor other).run (0, notes)
    out.1 = (compareSiblings parent anchor other).value ∧
      out.2.2 = notes ++ (compareSiblings parent anchor other).notes := by
  have hfixed : (comparing parent).DecidesBy fun a b => corresponds a.node b := fun _ _ => rfl
  rw [Policy.run_eq_mapM_steps hfixed]
  exact mapM_comparing parent 0 _ notes

end Stencil.Comparison
