import Mathlib.Data.List.Forall2

/-!
# Computations that can fail

What follows from the outcome of a computation that was put together from others: where it succeeds,
all of its parts have (`mapM_eq_ok_iff`), and where it fails, the first of its parts that fails has
failed in the same way (`mapM_eq_error_iff`).
-/

namespace Stencil

variable {ε ε' α β : Type}

/-! ## Success -/

theorem bind_eq_ok {action : Except ε α} {rest : α → Except ε β} {result : β} :
    action >>= rest = .ok result ↔ ∃ first, action = .ok first ∧ rest first = .ok result := by
  cases action with
  | error error => simp [bind, Except.bind]
  | ok first => simp [bind, Except.bind]

theorem map_eq_ok {action : Except ε α} {f : α → β} {result : β} :
    action.map f = .ok result ↔ ∃ first, action = .ok first ∧ f first = result := by
  cases action with
  | error error => simp [Except.map]
  | ok first => simp [Except.map]

theorem mapError_eq_ok {action : Except ε α} {f : ε → ε'} {result : α} :
    action.mapError f = .ok result ↔ action = .ok result := by
  cases action with
  | error error => simp [Except.mapError]
  | ok first => simp [Except.mapError]

/-- A computation over a list succeeds if it does for all items, in order. -/
theorem mapM_eq_ok_iff {f : α → Except ε β} {items : List α} {results : List β} :
    items.mapM f = .ok results ↔
      List.Forall₂ (fun item result => f item = .ok result) items results := by
  induction items generalizing results with
  | nil => simp [pure, Except.pure, eq_comm]
  | cons item items ih =>
      rw [List.mapM_cons, bind_eq_ok, List.forall₂_cons_left_iff]
      constructor
      · rintro ⟨first, hfirst, h⟩
        obtain ⟨rest, hrest, h⟩ := bind_eq_ok.mp h
        exact ⟨first, rest, hfirst, ih.mp hrest, (Except.ok.inj h).symm⟩
      · rintro ⟨first, rest, hfirst, hrest, rfl⟩
        exact ⟨first, hfirst, bind_eq_ok.mpr ⟨rest, ih.mpr hrest, rfl⟩⟩

theorem mapM_eq_some_iff {f : α → Option β} {items : List α} {results : List β} :
    items.mapM f = some results ↔
      List.Forall₂ (fun item result => f item = some result) items results := by
  induction items generalizing results with
  | nil => simp [eq_comm]
  | cons item items ih =>
      simp only [List.mapM_cons, Option.bind_eq_bind, Option.bind_eq_some_iff, Option.pure_def,
        List.forall₂_cons_left_iff, ih]
      constructor
      · rintro ⟨first, hfirst, rest, hrest, h⟩
        exact ⟨first, rest, hfirst, hrest, (Option.some.inj h).symm⟩
      · rintro ⟨first, rest, hfirst, hrest, rfl⟩
        exact ⟨first, hfirst, rest, hrest, rfl⟩

/-- What a computation makes of a list, it makes of its items. -/
theorem exists_of_mem_mapM
    {f : α → Except ε β} {items : List α} {results : List β}
    (h : items.mapM f = .ok results) {result : β} (hmem : result ∈ results) :
    ∃ item ∈ items, f item = .ok result := by
  obtain ⟨hlength, hresults⟩ := List.forall₂_iff_get.mp (mapM_eq_ok_iff.mp h)
  obtain ⟨i, rfl⟩ := List.mem_iff_get.mp hmem
  have hitem : i < items.length := by
    rw [hlength]
    exact i.isLt
  exact ⟨items.get ⟨i, hitem⟩, List.get_mem items _, hresults i hitem i.isLt⟩

/-- A computation over a list has succeeded for all of its items. -/
theorem exists_ok_of_mapM
    {f : α → Except ε β} {items : List α} {results : List β}
    (h : items.mapM f = .ok results) {item : α} (hmem : item ∈ items) :
    ∃ result, f item = .ok result := by
  obtain ⟨hlength, hresults⟩ := List.forall₂_iff_get.mp (mapM_eq_ok_iff.mp h)
  obtain ⟨i, rfl⟩ := List.mem_iff_get.mp hmem
  have hresult : i < results.length := by
    rw [← hlength]
    exact i.isLt
  exact ⟨results.get ⟨i, hresult⟩, hresults i i.isLt hresult⟩

/-! ## Failure -/

theorem bind_eq_error {action : Except ε α} {rest : α → Except ε β} {failure : ε} :
    action >>= rest = .error failure ↔
      action = .error failure ∨ ∃ first, action = .ok first ∧ rest first = .error failure := by
  cases action with
  | error error => simp [bind, Except.bind]
  | ok first => simp [bind, Except.bind]

theorem map_eq_error {action : Except ε α} {f : α → β} {failure : ε} :
    action.map f = .error failure ↔ action = .error failure := by
  cases action with
  | error error => simp [Except.map]
  | ok first => simp [Except.map]

theorem bind_pure_eq_error {action : Except ε α} {f : α → β} {failure : ε} :
    (do return f (← action)) = (.error failure : Except ε β) ↔ action = .error failure := by
  cases action with
  | error error => simp [bind, Except.bind]
  | ok first => simp [bind, Except.bind, pure, Except.pure]

theorem mapError_eq_error {action : Except ε α} {f : ε → ε'} {failure : ε'} :
    action.mapError f = .error failure ↔ ∃ error, action = .error error ∧ f error = failure := by
  cases action with
  | error error => simp [Except.mapError]
  | ok first => simp [Except.mapError]

/-- A computation either fails or succeeds. -/
theorem not_exists_error_iff {action : Except ε α} :
    (¬∃ failure, action = .error failure) ↔ ∃ result, action = .ok result := by
  cases action <;> simp

/-- A computation over a list fails as it does for the first item for which it fails. -/
theorem mapM_eq_error_iff {f : α → Except ε β} {items : List α} {failure : ε} :
    items.mapM f = .error failure ↔
      ∃ before item after, items = before ++ item :: after ∧
        (∀ earlier ∈ before, ∃ result, f earlier = .ok result) ∧ f item = .error failure := by
  induction items with
  | nil => simp [pure, Except.pure]
  | cons item items ih =>
      rw [List.mapM_cons, bind_eq_error]
      constructor
      · rintro (hitem | ⟨first, hitem, hrest⟩)
        · exact ⟨[], item, items, rfl, by simp, hitem⟩
        · rcases bind_eq_error.mp hrest with hrest | ⟨results, -, hrest⟩
          · obtain ⟨before, later, after, rfl, hbefore, hlater⟩ := ih.mp hrest
            refine ⟨item :: before, later, after, rfl, ?_, hlater⟩
            exact List.forall_mem_cons.mpr ⟨⟨first, hitem⟩, hbefore⟩
          · exact absurd hrest (by simp [pure, Except.pure])
      · rintro ⟨_ | ⟨earlier, before⟩, later, after, hitems, hbefore, hlater⟩
        · obtain ⟨rfl, rfl⟩ := List.cons.inj hitems
          exact Or.inl hlater
        · obtain ⟨rfl, rfl⟩ := List.cons.inj hitems
          obtain ⟨⟨first, hfirst⟩, hrest⟩ := List.forall_mem_cons.mp hbefore
          refine Or.inr ⟨first, hfirst, bind_eq_error.mpr (Or.inl ?_)⟩
          exact ih.mpr ⟨before, later, after, rfl, hrest, hlater⟩

/-- A computation over a list fails if it does for one of the items. -/
theorem exists_mapM_eq_error_iff {f : α → Except ε β} {items : List α} :
    (∃ failure, items.mapM f = .error failure) ↔
      ∃ item ∈ items, ∃ failure, f item = .error failure := by
  constructor
  · rintro ⟨failure, hfails⟩
    obtain ⟨before, item, after, rfl, -, hitem⟩ := mapM_eq_error_iff.mp hfails
    exact ⟨item, by simp, failure, hitem⟩
  · rintro ⟨item, hitem, failure, hfails⟩
    by_contra hnone
    obtain ⟨results, hresults⟩ := not_exists_error_iff.mp hnone
    obtain ⟨result, hsucceeds⟩ := exists_ok_of_mapM hresults hitem
    exact absurd (hfails.symm.trans hsucceeds) (by simp)

end Stencil
