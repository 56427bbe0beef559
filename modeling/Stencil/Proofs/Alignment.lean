import Mathlib.Data.List.Forall2
import Mathlib.Data.List.NodupEquivFin
import Mathlib.Data.List.OfFn
import Stencil.Alignment

/-!
# What an alignment pairs

`Aligns` says as a relation what the pass over two lists does, one rule for every kind of step, and
the pass follows the rules from every position on (`aligns_stepsFrom`).

The pass never looks back, and still it is exact on pure insertions (`paired_iff_embeds`): one list
can be laid into the other, in order and along the relation, exactly if every item of it is paired
and only items of the other list are left alone.  Pairing as early as possible never spoils a later
pair, and where the heads do not correspond, the list that the other is laid into is the longer one
and gives up its head.  Nothing is asked of the relation.
-/

namespace Stencil.Alignment

variable {α β : Type}

/-! ## One list laid into another -/

/-- The items can be laid into the other list, in order and along the relation. -/
def Embeds (r : α → β → Prop) (items : List α) (others : List β) : Prop :=
  ∃ place : Fin items.length → Fin others.length,
    StrictMono place ∧ ∀ i, r (items.get i) (others.get (place i))

section Embeds

variable {r : α → β → Prop} {item : α} {items : List α} {other : β} {others : List β}

/-- Laying a list into another one is relating it, item by item, to a part of that list. -/
theorem embeds_iff_sublistForall₂ : Embeds r items others ↔ List.SublistForall₂ r items others := by
  rw [List.sublistForall₂_iff]
  constructor
  · rintro ⟨place, hmono, hrelated⟩
    refine ⟨(List.ofFn place).map fun i => others[i], ?_, ?_⟩
    · refine List.forall₂_iff_get.mpr ⟨by simp, ?_⟩
      intro i hitem hplace
      simpa using hrelated ⟨i, hitem⟩
    · exact List.map_getElem_sublist (List.pairwise_ofFn.mpr fun _ _ hlt => hmono hlt)
  · rintro ⟨part, hrelated, hpart⟩
    obtain ⟨places, rfl, hsorted⟩ := List.sublist_eq_map_getElem hpart
    obtain ⟨hlength, hrelated⟩ := List.forall₂_iff_get.mp hrelated
    rw [List.length_map] at hlength
    refine ⟨fun i => places.get (i.cast hlength), ?_, ?_⟩
    · intro i j hlt
      exact List.pairwise_iff_get.mp hsorted _ _ hlt
    · intro i
      simpa using hrelated i i.isLt (by simpa using hlength ▸ i.isLt)

theorem embeds_nil : Embeds r [] others :=
  embeds_iff_sublistForall₂.mpr .nil

theorem Embeds.cons (hrelated : r item other) (h : Embeds r items others) :
    Embeds r (item :: items) (other :: others) :=
  embeds_iff_sublistForall₂.mpr (.cons hrelated (embeds_iff_sublistForall₂.mp h))

theorem Embeds.cons_right (h : Embeds r items others) : Embeds r items (other :: others) :=
  embeds_iff_sublistForall₂.mpr (.cons_right (embeds_iff_sublistForall₂.mp h))

theorem Embeds.length_le (h : Embeds r items others) : items.length ≤ others.length := by
  obtain ⟨part, hrelated, hpart⟩ := List.sublistForall₂_iff.mp (embeds_iff_sublistForall₂.mp h)
  rw [hrelated.length_eq]
  exact hpart.length_le

/-- Without its first item a list can be laid into what comes after the first place, wherever the
first item was laid. -/
theorem Embeds.tail (h : Embeds r (item :: items) (other :: others)) : Embeds r items others := by
  rw [embeds_iff_sublistForall₂] at h ⊢
  cases h with
  | cons _ hrest => exact hrest
  | cons_right h =>
      rw [List.sublistForall₂_iff] at h ⊢
      obtain ⟨_, _ | ⟨_, hrelated⟩, hpart⟩ := h
      exact ⟨_, hrelated, (List.sublist_cons_self _ _).trans hpart⟩

/-- A place that the first item does not fit is left free. -/
theorem Embeds.of_cons_right
    (h : Embeds r items (other :: others)) (hdiffer : ∀ item ∈ items.head?, ¬r item other) :
    Embeds r items others := by
  rw [embeds_iff_sublistForall₂] at h ⊢
  cases h with
  | nil => exact .nil
  | cons hrelated _ => exact absurd hrelated (hdiffer _ rfl)
  | cons_right h => exact h

/-- If the first item does not fit the first place, there are more places than items. -/
theorem Embeds.length_lt
    (h : Embeds r (item :: items) others) (hdiffer : ∀ other ∈ others.head?, ¬r item other) :
    items.length + 1 < others.length := by
  cases others with
  | nil => exact absurd h.length_le (Nat.not_succ_le_zero _)
  | cons other others =>
      have hskipped : Embeds r (item :: items) others := by
        apply h.of_cons_right
        rintro _ ⟨⟩
        exact hdiffer other rfl
      exact Nat.lt_succ_of_le hskipped.length_le

end Embeds

/-! ## The items of the steps -/

/-- The pairs among the steps. -/
def pairs : List (Step α β) → List (α × β)
  | [] => []
  | .pair a b :: steps => (a, b) :: pairs steps
  | .first .. :: steps | .second .. :: steps => pairs steps

/-- The items of the first list that are left alone. -/
def loneFirsts : List (Step α β) → List α
  | [] => []
  | .first a _ :: steps => a :: loneFirsts steps
  | .pair .. :: steps | .second .. :: steps => loneFirsts steps

/-- The items of the second list that are left alone. -/
def loneSeconds : List (Step α β) → List β
  | [] => []
  | .second b _ :: steps => b :: loneSeconds steps
  | .pair .. :: steps | .first .. :: steps => loneSeconds steps

/-! ## The rules of the pass -/

/-- `Aligns corresponds cursor as bs steps`: from the position on, with `as` and `bs` left, the pass
makes these steps. -/
inductive Aligns (corresponds : α → β → Bool) :
    Cursor → List α → List β → List (Step α β) → Prop
  | nil (cursor : Cursor) : Aligns corresponds cursor [] [] []
  | pair {cursor : Cursor} {a : α} {b : β} {as : List α} {bs : List β} {steps : List (Step α β)}
      (hpair : corresponds a b = true)
      (hrest : Aligns corresponds cursor.nextBoth as bs steps) :
      Aligns corresponds cursor (a :: as) (b :: bs) (.pair a b :: steps)
  | first {cursor : Cursor} {a : α} {as : List α} {bs : List β} {steps : List (Step α β)}
      (hlone : ∀ b ∈ bs.head?, corresponds a b = false ∧ bs.length ≤ as.length)
      (hrest : Aligns corresponds cursor.nextFirst as bs steps) :
      Aligns corresponds cursor (a :: as) bs (.first a cursor :: steps)
  | second {cursor : Cursor} {b : β} {as : List α} {bs : List β} {steps : List (Step α β)}
      (hlone : ∀ a ∈ as.head?, corresponds a b = false ∧ as.length ≤ bs.length + 1)
      (hrest : Aligns corresponds cursor.nextSecond as bs steps) :
      Aligns corresponds cursor as (b :: bs) (.second b cursor :: steps)

/-- The pass follows the rules from every position on. -/
theorem aligns_stepsFrom
    (corresponds : α → β → Bool) (cursor : Cursor) (as : List α) (bs : List β) :
    Aligns corresponds cursor as bs (stepsFrom corresponds as cursor bs) := by
  induction as generalizing cursor bs with
  | nil =>
      rw [stepsFrom_nil]
      induction bs generalizing cursor with
      | nil => exact .nil cursor
      | cons b bs ih => exact .second (by simp) (ih cursor.nextSecond)
  | cons a as ih =>
      -- A step may use up an item of the second list and leave `a` where it is.
      induction bs generalizing cursor with
      | nil =>
          rw [stepsFrom_cons_nil]
          exact .first (by simp) (ih cursor.nextFirst [])
      | cons b bs ihSecond =>
          rw [stepsFrom_cons_cons]
          by_cases hpair : corresponds a b = true
          · rw [if_pos hpair]
            exact .pair hpair (ih cursor.nextBoth bs)
          rw [if_neg hpair]
          rw [Bool.not_eq_true] at hpair
          by_cases hlonger : bs.length < as.length
          · rw [if_pos hlonger]
            refine .first ?_ (ih cursor.nextFirst (b :: bs))
            simpa [hpair] using Nat.succ_le_of_lt hlonger
          · rw [if_neg hlonger]
            refine .second ?_ (ihSecond cursor.nextSecond)
            simpa [hpair] using hlonger

/-! ## Pure insertions -/

namespace Aligns

variable {corresponds : α → β → Bool} {cursor : Cursor} {as : List α} {bs : List β}
  {steps : List (Step α β)}

/-- If the second list can be laid into the first, none of its items is left alone. -/
theorem loneSeconds_eq_nil
    (h : Aligns corresponds cursor as bs steps)
    (hembeds : Embeds (fun b a => corresponds a b = true) bs as) :
    loneSeconds steps = [] := by
  induction h with
  | nil => rfl
  | pair _ _ ih => exact ih hembeds.tail
  | first hlone _ ih =>
      apply ih
      apply hembeds.of_cons_right
      intro b hb
      simp [(hlone b hb).1]
  | @second _ _ as _ _ hlone _ _ =>
      -- The first list would be the longer one, and would give up its own head.
      have hlonger := hembeds.length_lt fun a ha => by simp [(hlone a ha).1]
      cases as with
      | nil => exact absurd hlonger (Nat.not_lt_zero _)
      | cons a as => exact absurd hlonger (Nat.not_lt_of_le (hlone a rfl).2)

/-- If the first list can be laid into the second, none of its items is left alone. -/
theorem loneFirsts_eq_nil
    (h : Aligns corresponds cursor as bs steps)
    (hembeds : Embeds (fun a b => corresponds a b = true) as bs) :
    loneFirsts steps = [] := by
  induction h with
  | nil => rfl
  | pair _ _ ih => exact ih hembeds.tail
  | @first _ _ _ bs _ hlone _ _ =>
      have hlonger := hembeds.length_lt fun b hb => by simp [(hlone b hb).1]
      cases bs with
      | nil => exact absurd hlonger (Nat.not_lt_zero _)
      | cons b bs =>
          exact absurd hlonger (Nat.not_lt_of_le ((hlone b rfl).2.trans (Nat.le_succ _)))
  | second hlone _ ih =>
      apply ih
      apply hembeds.of_cons_right
      intro a ha
      simp [(hlone a ha).1]

/-- If no item of the second list is left alone, the pairs lay it into the first. -/
theorem embeds_second (h : Aligns corresponds cursor as bs steps) (hnone : loneSeconds steps = []) :
    Embeds (fun b a => corresponds a b = true) bs as ∧ (pairs steps).map Prod.snd = bs := by
  induction h with
  | nil => exact ⟨embeds_nil, rfl⟩
  | pair hpair _ ih =>
      obtain ⟨hembeds, hpairs⟩ := ih hnone
      exact ⟨hembeds.cons hpair, congrArg (_ :: ·) hpairs⟩
  | first _ _ ih =>
      obtain ⟨hembeds, hpairs⟩ := ih hnone
      exact ⟨hembeds.cons_right, hpairs⟩
  | second _ _ _ => exact absurd hnone (List.cons_ne_nil _ _)

/-- If no item of the first list is left alone, the pairs lay it into the second. -/
theorem embeds_first (h : Aligns corresponds cursor as bs steps) (hnone : loneFirsts steps = []) :
    Embeds (fun a b => corresponds a b = true) as bs ∧ (pairs steps).map Prod.fst = as := by
  induction h with
  | nil => exact ⟨embeds_nil, rfl⟩
  | pair hpair _ ih =>
      obtain ⟨hembeds, hpairs⟩ := ih hnone
      exact ⟨hembeds.cons hpair, congrArg (_ :: ·) hpairs⟩
  | first _ _ _ => exact absurd hnone (List.cons_ne_nil _ _)
  | second _ _ ih =>
      obtain ⟨hembeds, hpairs⟩ := ih hnone
      exact ⟨hembeds.cons_right, hpairs⟩

end Aligns

/-- The pass is exact on pure insertions, whatever the relation: the second list can be laid into
the first exactly if all of its items are paired, in order, and only items of the first list are
left alone; and likewise with the lists exchanged. -/
theorem paired_iff_embeds (corresponds : α → β → Bool) (first : List α) (second : List β) :
    (Embeds (fun b a => corresponds a b = true) second first ↔
        (pairs (steps corresponds first second)).map Prod.snd = second ∧
          loneSeconds (steps corresponds first second) = []) ∧
      (Embeds (fun a b => corresponds a b = true) first second ↔
        (pairs (steps corresponds first second)).map Prod.fst = first ∧
          loneFirsts (steps corresponds first second) = []) := by
  have hsteps : Aligns corresponds {} first second (steps corresponds first second) :=
    aligns_stepsFrom corresponds {} first second
  refine ⟨⟨fun hembeds => ?_, fun h => (hsteps.embeds_second h.2).1⟩,
    ⟨fun hembeds => ?_, fun h => (hsteps.embeds_first h.2).1⟩⟩
  · have hnone := hsteps.loneSeconds_eq_nil hembeds
    exact ⟨(hsteps.embeds_second hnone).2, hnone⟩
  · have hnone := hsteps.loneFirsts_eq_nil hembeds
    exact ⟨(hsteps.embeds_first hnone).2, hnone⟩

end Stencil.Alignment
