import Stencil.Proofs.Alignment
import Stencil.Proofs.Alignment.Policy

/-!
# The path of a pass

A pass hands every item of either list to its policy exactly once and in order, whatever the policy
answers (`run_path`).  To say so of a policy with a state of its own, the pass is run with a policy
that also writes down what it is asked and what it resolves (`Policy.logged`); this changes neither
the results nor the state.  The log then tells everything: the items of its steps make up the two
lists, a lone item comes with the position reached, and right before a step the policy has given
the answer that makes it so (`IsDue`).

The proof carries along what has been passed and what is left.  A shorter second list stays so:
before a lone item of the second list the first has at least as many left, and a step that takes one
of the first list is made with strictly more of them.
-/

namespace Stencil.Alignment

variable {σ α β γ : Type}

/-! ## The items of the steps -/

/-- The items of the first list, alone or in a pair. -/
def firsts : List (Step α β) → List α
  | [] => []
  | .pair a _ :: steps | .first a _ :: steps => a :: firsts steps
  | .second .. :: steps => firsts steps

/-- The items of the second list, alone or in a pair. -/
def seconds : List (Step α β) → List β
  | [] => []
  | .pair _ b :: steps | .second b _ :: steps => b :: seconds steps
  | .first .. :: steps => seconds steps

theorem firsts_append (steps more : List (Step α β)) :
    firsts (steps ++ more) = firsts steps ++ firsts more := by
  induction steps with
  | nil => rfl
  | cons step steps ih => cases step <;> simp [firsts, ih]

theorem seconds_append (steps more : List (Step α β)) :
    seconds (steps ++ more) = seconds steps ++ seconds more := by
  induction steps with
  | nil => rfl
  | cons step steps ih => cases step <;> simp [seconds, ih]

/-- A pair makes one step of two items. -/
theorem length_add_length_pairs (steps : List (Step α β)) :
    steps.length + (pairs steps).length = (firsts steps).length + (seconds steps).length := by
  induction steps with
  | nil => rfl
  | cons step steps ih =>
      cases step <;> simp only [firsts, seconds, pairs, List.length_cons] <;> omega

/-- How many items of either list the steps have passed. -/
def position (steps : List (Step α β)) : Cursor :=
  ⟨(firsts steps).length, (seconds steps).length⟩

/-! ## The log of a pass -/

/-- What happens between a pass and its policy: a question with its answer, or a step with what it
turned into. -/
inductive Event (α β γ : Type) where
  | asked (a : α) (b : β) (answer : Bool)
  | resolved (step : Step α β) (result : γ)

namespace Event

/-- The steps that were resolved. -/
def steps (log : List (Event α β γ)) : List (Step α β) :=
  log.filterMap fun
    | .asked .. => none
    | .resolved step _ => some step

/-- What the steps turned into. -/
def results (log : List (Event α β γ)) : List γ :=
  log.filterMap fun
    | .asked .. => none
    | .resolved _ result => some result

section

variable (log more : List (Event α β γ)) (a : α) (b : β) (answer : Bool) (step : Step α β)
  (result : γ)

@[simp] theorem steps_append : steps (log ++ more) = steps log ++ steps more :=
  List.filterMap_append

@[simp] theorem steps_asked : steps (.asked a b answer :: log) = steps log :=
  rfl

@[simp] theorem steps_resolved : steps (.resolved step result :: log) = step :: steps log :=
  rfl

@[simp] theorem steps_nil : steps ([] : List (Event α β γ)) = [] :=
  rfl

theorem length_results : (results log).length = (steps log).length := by
  induction log with
  | nil => rfl
  | cons event log ih => cases event <;> simp_all [results, steps]

end

end Event

namespace Policy

/-- The policy that also writes down what it is asked and what it resolves. -/
def logged (policy : Policy σ α β γ) : Policy (σ × List (Event α β γ)) α β γ where
  corresponds a b := fun (state, log) =>
    let (answer, state) := policy.corresponds a b state
    (answer, state, log ++ [.asked a b answer])
  resolve step := fun (state, log) =>
    let (result, state) := policy.resolve step state
    (result, state, log ++ [.resolved step result])

end Policy

/-! ## Steps that are due -/

/-- `IsDue first second before step`: after these events, in a pass over the two lists, it is up to
this step.  A pair has just been found to correspond.  A lone item comes with the position reached;
if the other list has items left, the two heads have just been found not to correspond, and the
first list gives up its head exactly if it has strictly more left. -/
def IsDue (first : List α) (second : List β) (before : List (Event α β γ)) : Step α β → Prop
  | .pair a b => [.asked a b true] <:+ before
  | .first a cursor =>
    cursor = position (Event.steps before) ∧
      ∀ b ∈ second[cursor.second]?, [.asked a b false] <:+ before ∧
        second.length - cursor.second < first.length - cursor.first
  | .second b cursor =>
    cursor = position (Event.steps before) ∧
      (∀ a ∈ first[cursor.first]?, [.asked a b false] <:+ before ∧
        first.length - cursor.first ≤ second.length - cursor.second) ∧
      (second.length ≤ first.length → cursor.first < first.length)

/-- Every step of the log is due when it is made, where the events `passed` came before. -/
def AllDue (first : List α) (second : List β) (passed log : List (Event α β γ)) : Prop :=
  ∀ before step result after, log = before ++ .resolved step result :: after →
    IsDue first second (passed ++ before) step

section AllDue

variable {first : List α} {second : List β} {passed log : List (Event α β γ)}

theorem AllDue.asked {a : α} {b : β} {answer : Bool}
    (h : AllDue first second (passed ++ [.asked a b answer]) log) :
    AllDue first second passed (.asked a b answer :: log) := by
  intro before step result after hlog
  cases before with
  | nil => simp at hlog
  | cons event before =>
      obtain ⟨rfl, hlater⟩ := List.cons.inj hlog
      simpa using h before step result after hlater

theorem AllDue.resolved {step : Step α β} {result : γ}
    (hdue : IsDue first second passed step)
    (h : AllDue first second (passed ++ [.resolved step result]) log) :
    AllDue first second passed (.resolved step result :: log) := by
  intro before other otherResult after hlog
  cases before with
  | nil =>
      obtain ⟨⟨rfl, -⟩, -⟩ : (step = other ∧ result = otherResult) ∧ log = after := by
        simpa using hlog
      simpa using hdue
  | cons event before =>
      obtain ⟨rfl, hlater⟩ := List.cons.inj hlog
      simpa using h before other otherResult after hlater

end AllDue

/-! ## Tracing a pass -/

/-- `Traced first second passed plain logged`: after the events `passed`, the logged rest of a pass
does what the plain one does and writes down events that bring the pass to its end, each step when
it is due. -/
def Traced (first : List α) (second : List β) (passed : List (Event α β γ))
    (plain : StateM σ (List γ)) (logged : StateM (σ × List (Event α β γ)) (List γ)) : Prop :=
  ∀ state, ∃ log,
    logged (state, passed) = ((plain state).1, (plain state).2, passed ++ log) ∧
      (plain state).1 = Event.results log ∧
      firsts (Event.steps (passed ++ log)) = first ∧
      seconds (Event.steps (passed ++ log)) = second ∧
      AllDue first second passed log

section Traced

variable {policy : Policy σ α β γ} {first : List α} {second : List β}
  {passed : List (Event α β γ)}

theorem traced_pure
    (hfirst : firsts (Event.steps passed) = first)
    (hsecond : seconds (Event.steps passed) = second) :
    Traced first second passed (pure [] : StateM σ (List γ)) (pure []) := by
  intro state
  refine ⟨[], ?_, rfl, ?_, ?_, ?_⟩
  · rw [List.append_nil]
    rfl
  · rw [List.append_nil, hfirst]
  · rw [List.append_nil, hsecond]
  · intro before step result after hlog
    simp at hlog

/-- A step that is due may be resolved. -/
theorem traced_emit
    {step : Step α β} {rest : StateM σ (List γ)}
    {restLogged : StateM (σ × List (Event α β γ)) (List γ)}
    (hdue : IsDue first second passed step)
    (hrest : ∀ result, Traced first second (passed ++ [.resolved step result]) rest restLogged) :
    Traced first second passed (policy.emit step rest) (policy.logged.emit step restLogged) := by
  intro state
  obtain ⟨log, hrun, hresults, hfirst, hsecond, hall⟩ :=
    hrest (policy.resolve step state).1 (policy.resolve step state).2
  simp only [List.append_assoc, List.singleton_append] at hrun hfirst hsecond
  refine ⟨_, ?_, ?_, hfirst, hsecond, hall.resolved hdue⟩
  · exact congrArg (fun out => ((policy.resolve step state).1 :: out.1, out.2)) hrun
  · exact congrArg ((policy.resolve step state).1 :: ·) hresults

/-- A question may be asked before the next step, which may depend on the answer. -/
theorem traced_ask
    {a : α} {b : β} {rest : Bool → StateM σ (List γ)}
    {restLogged : Bool → StateM (σ × List (Event α β γ)) (List γ)}
    (hrest : ∀ answer,
      Traced first second (passed ++ [.asked a b answer]) (rest answer) (restLogged answer)) :
    Traced first second passed (policy.corresponds a b >>= rest)
      (policy.logged.corresponds a b >>= restLogged) := by
  intro state
  obtain ⟨log, hrun, hresults, hfirst, hsecond, hall⟩ :=
    hrest (policy.corresponds a b state).1 (policy.corresponds a b state).2
  simp only [List.append_assoc, List.singleton_append] at hrun hfirst hsecond
  exact ⟨_, hrun, hresults, hfirst, hsecond, hall.asked⟩

end Traced

/-! ## Where a pass stands -/

/-- The events `passed` have brought a pass over the two lists to the cursor, where `as` and `bs`
are left, and a shorter second list has stayed the shorter one. -/
structure Reached (first : List α) (second : List β) (passed : List (Event α β γ))
    (cursor : Cursor) (as : List α) (bs : List β) : Prop where
  cursor : cursor = position (Event.steps passed)
  firsts : firsts (Event.steps passed) ++ as = first
  seconds : seconds (Event.steps passed) ++ bs = second
  shorter : second.length ≤ first.length → bs.length ≤ as.length

namespace Reached

variable {policy : Policy σ α β γ} {first : List α} {second : List β}
  {passed : List (Event α β γ)} {cursor : Cursor} {a : α} {b : β} {as : List α} {bs : List β}
  {answer : Bool} {result : γ}

theorem start (first : List α) (second : List β) :
    Reached first second ([] : List (Event α β γ)) {} first second where
  cursor := rfl
  firsts := rfl
  seconds := rfl
  shorter := id

theorem ask (h : Reached first second passed cursor as bs) :
    Reached first second (passed ++ [.asked a b answer]) cursor as bs where
  cursor := by simpa using h.cursor
  firsts := by simpa using h.firsts
  seconds := by simpa using h.seconds
  shorter := h.shorter

theorem passBoth (h : Reached first second passed cursor (a :: as) (b :: bs)) :
    Reached first second (passed ++ [.resolved (.pair a b) result]) cursor.nextBoth as bs where
  cursor := by
    simp [h.cursor, Cursor.nextBoth, position, firsts_append, seconds_append, Alignment.firsts,
      Alignment.seconds]
  firsts := by simpa [firsts_append, Alignment.firsts] using h.firsts
  seconds := by simpa [seconds_append, Alignment.seconds] using h.seconds
  shorter := by simpa using h.shorter

theorem passFirst
    (h : Reached first second passed cursor (a :: as) bs) (hlonger : bs.length ≤ as.length) :
    Reached first second (passed ++ [.resolved (.first a cursor) result]) cursor.nextFirst as
      bs where
  cursor := by
    simp [h.cursor, Cursor.nextFirst, position, firsts_append, seconds_append, Alignment.firsts,
      Alignment.seconds]
  firsts := by simpa [firsts_append, Alignment.firsts] using h.firsts
  seconds := by simpa [seconds_append, Alignment.seconds] using h.seconds
  shorter _ := hlonger

theorem passSecond (h : Reached first second passed cursor as (b :: bs)) :
    Reached first second (passed ++ [.resolved (.second b cursor) result]) cursor.nextSecond as
      bs where
  cursor := by
    simp [h.cursor, Cursor.nextSecond, position, firsts_append, seconds_append, Alignment.firsts,
      Alignment.seconds]
  firsts := by simpa [firsts_append, Alignment.firsts] using h.firsts
  seconds := by simpa [seconds_append, Alignment.seconds] using h.seconds
  shorter hshorter := (Nat.le_succ _).trans (h.shorter hshorter)

/-- What is left is what comes after the cursor. -/
theorem left (h : Reached first second passed cursor as bs) :
    (first[cursor.first]? = as.head? ∧ second[cursor.second]? = bs.head?) ∧
      first.length - cursor.first = as.length ∧ second.length - cursor.second = bs.length := by
  rw [h.cursor, ← h.firsts, ← h.seconds]
  simp [position, List.getElem?_append_right, List.head?_eq_getElem?]

theorem isDue_first
    (h : Reached first second passed cursor (a :: as) bs)
    (hlone : ∀ b ∈ bs.head?, [.asked a b false] <:+ passed ∧ bs.length ≤ as.length) :
    IsDue first second passed (.first a cursor) := by
  obtain ⟨⟨-, hhead⟩, hfirst, hsecond⟩ := h.left
  refine ⟨h.cursor, ?_⟩
  rw [hhead, hfirst, hsecond]
  exact fun b hb => ⟨(hlone b hb).1, Nat.lt_succ_of_le (hlone b hb).2⟩

theorem isDue_second
    (h : Reached first second passed cursor as (b :: bs))
    (hlone : ∀ a ∈ as.head?, [.asked a b false] <:+ passed ∧ as.length ≤ bs.length + 1) :
    IsDue first second passed (.second b cursor) := by
  obtain ⟨⟨hhead, -⟩, hfirst, hsecond⟩ := h.left
  refine ⟨h.cursor, ?_, ?_⟩
  · rw [hhead, hfirst, hsecond]
    exact hlone
  · intro hshorter
    have hleft := h.shorter hshorter
    simp only [List.length_cons] at hleft
    omega

/-! ## A pass makes the steps that are due -/

theorem traced_nil (h : Reached first second passed cursor [] bs) :
    Traced first second passed (policy.runFrom cursor [] bs)
      (policy.logged.runFrom cursor [] bs) := by
  induction bs generalizing passed cursor with
  | nil =>
      rw [Policy.runFrom, Policy.runFrom]
      exact traced_pure (by simpa using h.firsts) (by simpa using h.seconds)
  | cons b bs ih =>
      rw [Policy.runFrom, Policy.runFrom]
      exact traced_emit (h.isDue_second (by simp)) fun _ => ih h.passSecond

/-- From wherever it stands, a pass makes the steps that are due. -/
theorem traced_runFrom (h : Reached first second passed cursor as bs) :
    Traced first second passed (policy.runFrom cursor as bs)
      (policy.logged.runFrom cursor as bs) := by
  induction as generalizing passed cursor bs with
  | nil => exact h.traced_nil
  | cons a as ih =>
      -- A step may use up an item of the second list and leave `a` where it is.
      induction bs generalizing passed cursor with
      | nil =>
          rw [Policy.runFrom, Policy.runFrom]
          exact traced_emit (h.isDue_first (by simp)) fun _ => ih (h.passFirst (Nat.zero_le _))
      | cons b bs ihSecond =>
          rw [Policy.runFrom, Policy.runFrom]
          refine traced_ask fun answer => ?_
          have hasked : Reached first second (passed ++ [.asked a b answer]) cursor (a :: as)
              (b :: bs) := h.ask
          cases answer with
          | true => exact traced_emit (List.suffix_append _ _) fun _ => ih hasked.passBoth
          | false =>
              rw [if_neg Bool.false_ne_true, if_neg Bool.false_ne_true]
              by_cases hlonger : bs.length < as.length
              · rw [if_pos hlonger, if_pos hlonger]
                refine traced_emit (hasked.isDue_first ?_) fun _ => ih (hasked.passFirst hlonger)
                simpa using Nat.succ_le_of_lt hlonger
              · rw [if_neg hlonger, if_neg hlonger]
                refine traced_emit (hasked.isDue_second ?_) fun _ => ihSecond hasked.passSecond
                simpa using Nat.le_of_not_lt hlonger

end Reached

/-! ## The path -/

/-- Whatever the policy answers, a pass is a path from the start of both lists to their ends: its
steps hand over every item of either list once and in order, each step is due when it is made, and
its results are what the steps turned into, one for each step. -/
theorem run_path (policy : Policy σ α β γ) (first : List α) (second : List β) (state : σ) :
    ∃ log : List (Event α β γ),
      policy.logged.run first second (state, []) =
          ((policy.run first second state).1, (policy.run first second state).2, log) ∧
        (firsts (Event.steps log) = first ∧ seconds (Event.steps log) = second) ∧
        (∀ before step result after, log = before ++ .resolved step result :: after →
          IsDue first second before step) ∧
        (policy.run first second state).1 = Event.results log ∧
        (policy.run first second state).1.length + (pairs (Event.steps log)).length =
          first.length + second.length := by
  have htraced : Traced first second [] (policy.run first second)
      (policy.logged.run first second) := (Reached.start first second).traced_runFrom
  obtain ⟨log, hrun, hresults, hfirst, hsecond, hdue⟩ := htraced state
  have hlength : (policy.run first second state).1.length = (Event.steps log).length :=
    (congrArg List.length hresults).trans (Event.length_results log)
  refine ⟨log, hrun, ⟨hfirst, hsecond⟩, hdue, hresults, ?_⟩
  rw [hlength, length_add_length_pairs]
  exact congrArg₂ (fun as bs => as.length + bs.length) hfirst hsecond

end Stencil.Alignment
