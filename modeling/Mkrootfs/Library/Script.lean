import Mathlib.Data.List.Basic

/-
  Shell scripts as sequences of commands that may be
  interrupted between any two of them, and the rules to
  prove that an invariant holds at every moment.

  Main declarations:
    * `Script` and its constructions
    * `Guarded`, `AlwaysSafe`, `Script.Keeps`
    * `ScriptReachable`
    * `inv_of_scriptReachable`
-/

------------------------------------------------------------
-- Scripts
------------------------------------------------------------

namespace Mkrootfs

/- The commands that a script executes, and how it ends. -/
structure ScriptRun (A : Type) where
  acts : List A
  stopped : Bool
deriving DecidableEq, Repr

/-
  What a script executes depends on the state in which it
  starts. Its commands are deterministic.
-/
def Script (S A : Type) :=
  S → ScriptRun A

variable {S A B : Type}

/- The state after some commands. -/
def execActs
    (apply : S → A → S)
    (acts : List A)
    (state : S) : S :=
  acts.foldl apply state

@[simp] theorem execActs_nil
    (apply : S → A → S)
    (state : S) :
    execActs apply [] state = state := rfl

@[simp] theorem execActs_cons
    (apply : S → A → S)
    (act : A)
    (acts : List A)
    (state : S) :
    execActs apply (act :: acts) state =
      execActs apply acts (apply state act) := rfl

theorem execActs_append
    (apply : S → A → S)
    (first second : List A)
    (state : S) :
    execActs apply (first ++ second) state =
      execActs apply second
        (execActs apply first state) := by
  simp [execActs]

namespace Script

/- `:`. -/
def skip : Script S A :=
  fun _ => ⟨[], false⟩

/- `exit`. -/
def exit : Script S A :=
  fun _ => ⟨[], true⟩

/- One command, with arguments that it reads. -/
def act (a : S → A) : Script S A :=
  fun state => ⟨[a state], false⟩

/- `first; second`. -/
def seq
    (apply : S → A → S)
    (first second : Script S A) : Script S A :=
  fun state =>
    let run := first state
    if run.stopped then
      run
    else
      let rest := second (execActs apply run.acts state)
      ⟨run.acts ++ rest.acts, rest.stopped⟩

/- A sequence of scripts. -/
def block (apply : S → A → S) :
    List (Script S A) → Script S A
| [] => skip
| first :: scripts => seq apply first (block apply scripts)

/- `if condition; then first; else second; fi`. -/
def cond
    (condition : S → Bool)
    (first second : Script S A) : Script S A :=
  fun state =>
    if condition state then first state else second state

/- A script for each of the given items. -/
def forEach
    (apply : S → A → S)
    (body : B → Script S A) :
    List B → Script S A
| [] => skip
| item :: items =>
    seq apply (body item) (forEach apply body items)

/- The items are read when the loop starts. -/
def each
    (apply : S → A → S)
    (items : S → List B)
    (body : B → Script S A) : Script S A :=
  fun state => forEach apply body (items state) state

end Script

------------------------------------------------------------
-- Invariants At Every Moment
------------------------------------------------------------

section Rules

variable {apply : S → A → S}
variable {guard : A → S → Prop} {inv : S → Prop}

/- Every command meets its guard when it is executed. -/
def Guarded
    (apply : S → A → S)
    (guard : A → S → Prop) :
    List A →
    S →
    Prop
| [], _ => True
| act :: acts, state =>
    guard act state ∧
      Guarded apply guard acts (apply state act)

/- A guard that every command meets. -/
theorem guarded_of_forall
    {acts : List A}
    {state : S}
    (hGuard : ∀ act state, guard act state) :
    Guarded apply guard acts state := by
  induction acts generalizing state with
  | nil => exact trivial
  | cons act acts ih => exact ⟨hGuard act state, ih⟩

/-
  The invariant holds at every moment for as long as the
  commands meet their guards.
-/
def AlwaysSafe
    (apply : S → A → S)
    (guard : A → S → Prop)
    (inv : S → Prop) :
    List A →
    S →
    Prop
| [], state => inv state
| act :: acts, state =>
    inv state ∧
      (guard act state →
        AlwaysSafe apply guard inv acts (apply state act))

theorem guarded_append
    {first second : List A}
    {state : S}
    (hGuarded :
      Guarded apply guard (first ++ second) state) :
    Guarded apply guard first state ∧
      Guarded apply guard second
        (execActs apply first state) := by
  induction first generalizing state with
  | nil => exact ⟨trivial, hGuarded⟩
  | cons act first ih =>
      have hRest := ih hGuarded.2
      exact ⟨⟨hGuarded.1, hRest.1⟩, hRest.2⟩

theorem alwaysSafe_append
    {first second : List A}
    {state : S}
    (hFirst : AlwaysSafe apply guard inv first state)
    (hSecond : Guarded apply guard first state →
      AlwaysSafe apply guard inv second
        (execActs apply first state)) :
    AlwaysSafe apply guard inv (first ++ second) state := by
  induction first generalizing state with
  | nil => exact hSecond trivial
  | cons act first ih =>
      refine ⟨hFirst.1, ?_⟩
      intro hGuard
      exact ih (hFirst.2 hGuard)
        (fun hRest => hSecond ⟨hGuard, hRest⟩)

/- The moment after any number of commands. -/
theorem inv_of_alwaysSafe
    {acts before after : List A}
    {state : S}
    (hSafe : AlwaysSafe apply guard inv acts state)
    (hActs : acts = before ++ after)
    (hGuarded : Guarded apply guard before state) :
    inv (execActs apply before state) := by
  induction before generalizing acts state with
  | nil =>
      cases acts with
      | nil => exact hSafe
      | cons act acts => exact hSafe.1
  | cons act before ih =>
      subst hActs
      exact ih (hSafe.2 hGuarded.1) rfl hGuarded.2

namespace Script

/-
  From the precondition on, the invariant holds at every
  moment, and the postcondition where the script ends.
-/
def Keeps
    (apply : S → A → S)
    (guard : A → S → Prop)
    (inv : S → Prop)
    (pre : S → Prop)
    (script : Script S A)
    (post : S → Prop) : Prop :=
  ∀ state, pre state →
    AlwaysSafe apply guard inv (script state).acts state ∧
    ((script state).stopped = false →
      Guarded apply guard (script state).acts state →
      post (execActs apply (script state).acts state))

variable {pre mid post : S → Prop}
variable {first second : Script S A}

theorem keeps_skip
    (hInv : ∀ state, pre state → inv state) :
    Keeps apply guard inv pre skip pre := by
  intro state hPre
  exact ⟨hInv state hPre, fun _ _ => hPre⟩

theorem keeps_exit
    (hInv : ∀ state, pre state → inv state) :
    Keeps apply guard inv pre exit post := by
  intro state hPre
  refine ⟨hInv state hPre, ?_⟩
  intro hStopped
  cases hStopped

theorem keeps_act
    {a : S → A}
    (hInv : ∀ state, pre state → inv state)
    (hAct : ∀ state, pre state → guard (a state) state →
      inv (apply state (a state)) ∧
        post (apply state (a state))) :
    Keeps apply guard inv pre (act a) post := by
  intro state hPre
  refine ⟨⟨hInv state hPre, ?_⟩, ?_⟩
  · intro hGuard
    exact (hAct state hPre hGuard).1
  · intro _ hGuarded
    exact (hAct state hPre hGuarded.1).2

theorem keeps_seq
    (hFirst : Keeps apply guard inv pre first mid)
    (hSecond : Keeps apply guard inv mid second post) :
    Keeps apply guard inv pre (seq apply first second)
      post := by
  intro state hPre
  rcases hFirst state hPre with ⟨hSafe, hMid⟩
  cases hStopped : (first state).stopped with
  | true =>
      have hRun : seq apply first second state =
          first state := by
        simp [seq, hStopped]
      rw [hRun]
      refine ⟨hSafe, ?_⟩
      intro hNot
      rw [hStopped] at hNot
      cases hNot
  | false =>
      have hRun : seq apply first second state =
          ⟨(first state).acts ++
              (second (execActs apply (first state).acts
                state)).acts,
            (second (execActs apply (first state).acts
              state)).stopped⟩ := by
        simp [seq, hStopped]
      rw [hRun]
      constructor
      · apply alwaysSafe_append hSafe
        intro hGuarded
        exact (hSecond _ (hMid hStopped hGuarded)).1
      · intro hEnd hGuarded
        rcases guarded_append hGuarded with
          ⟨hBefore, hAfter⟩
        rw [execActs_append]
        exact (hSecond _ (hMid hStopped hBefore)).2 hEnd
          hAfter

theorem keeps_cond
    {condition : S → Bool}
    (hFirst : Keeps apply guard inv
      (fun state => pre state ∧ condition state = true)
      first post)
    (hSecond : Keeps apply guard inv
      (fun state => pre state ∧ condition state = false)
      second post) :
    Keeps apply guard inv pre (cond condition first second)
      post := by
  intro state hPre
  cases hCondition : condition state with
  | true =>
      have hRun : cond condition first second state =
          first state := by
        simp [cond, hCondition]
      rw [hRun]
      exact hFirst state ⟨hPre, hCondition⟩
  | false =>
      have hRun : cond condition first second state =
          second state := by
        simp [cond, hCondition]
      rw [hRun]
      exact hSecond state ⟨hPre, hCondition⟩

theorem keeps_of_imp
    {pre' post' : S → Prop}
    {script : Script S A}
    (hKeeps : Keeps apply guard inv pre script post)
    (hPre : ∀ state, pre' state → pre state)
    (hPost : ∀ state, post state → post' state) :
    Keeps apply guard inv pre' script post' := by
  intro state hState
  rcases hKeeps state (hPre state hState) with
    ⟨hSafe, hEnd⟩
  exact ⟨hSafe, fun hStopped hGuarded =>
    hPost _ (hEnd hStopped hGuarded)⟩

/-
  A loop, with an assertion that may speak of the items that
  it is done with.
-/
theorem keeps_forEach
    {body : B → Script S A}
    {loop : List B → S → Prop}
    {items : List B}
    (hInv : ∀ done state, loop done state → inv state)
    (hBody : ∀ done, ∀ item ∈ items,
      Keeps apply guard inv (loop done) (body item)
        (loop (done ++ [item])))
    (done : List B) :
    Keeps apply guard inv (loop done)
      (forEach apply body items) (loop (done ++ items)) := by
  induction items generalizing done with
  | nil =>
      rw [List.append_nil]
      exact keeps_skip (hInv done)
  | cons item items ih =>
      have hRest := ih
        (fun earlier other hMem =>
          hBody earlier other (List.mem_cons_of_mem item hMem))
        (done ++ [item])
      rw [List.append_assoc, List.singleton_append] at hRest
      exact keeps_seq (hBody done item List.mem_cons_self)
        hRest

/-
  A loop whose body establishes something about its item and
  keeps it for the items before.
-/
theorem keeps_forEach_all
    {body : B → Script S A}
    {loop : S → Prop}
    {done : B → S → Prop}
    {items : List B}
    (hInv : ∀ state, loop state → inv state)
    (hBody : ∀ earlier : List B, ∀ item ∈ items,
      Keeps apply guard inv
        (fun state =>
          loop state ∧ ∀ other ∈ earlier, done other state)
        (body item)
        (fun state =>
          (loop state ∧
            ∀ other ∈ earlier, done other state) ∧
          done item state)) :
    Keeps apply guard inv loop
      (forEach apply body items)
      (fun state =>
        loop state ∧ ∀ item ∈ items, done item state) := by
  have hStep : ∀ earlier : List B, ∀ item ∈ items,
      Keeps apply guard inv
        (fun state =>
          loop state ∧ ∀ other ∈ earlier, done other state)
        (body item)
        (fun state =>
          loop state ∧
            ∀ other ∈ earlier ++ [item],
              done other state) := by
    intro earlier item hMem
    refine keeps_of_imp (hBody earlier item hMem)
      (fun _ hState => hState) ?_
    intro state hState
    refine ⟨hState.1.1, ?_⟩
    intro other hOther
    rcases List.mem_append.mp hOther with hEarlier | hItem
    · exact hState.1.2 other hEarlier
    · rw [List.mem_singleton.mp hItem]
      exact hState.2
  have hLoop : Keeps apply guard inv
      (fun state =>
        loop state ∧ ∀ other ∈ [], done other state)
      (forEach apply body items)
      (fun state =>
        loop state ∧ ∀ other ∈ [] ++ items,
          done other state) :=
    keeps_forEach
      (fun _ state hState => hInv state hState.1) hStep []
  exact keeps_of_imp hLoop
    (fun _ hState => ⟨hState, by simp⟩)
    (fun _ hState => hState)

end Script

------------------------------------------------------------
-- Sequences Of Scripts
------------------------------------------------------------

/-
  The states of a sequence of executions, each of which may
  be interrupted, and whose commands meet their guards.
-/
inductive ScriptReachable
    {E : Type}
    (apply : S → A → S)
    (guard : A → S → Prop)
    (script : E → Script S A)
    (start : S) : S → Prop
| start : ScriptReachable apply guard script start start
| step
    (state : S)
    (execution : E)
    (before after : List A)
    (hState : ScriptReachable apply guard script start state)
    (hActs : (script execution state).acts = before ++ after)
    (hGuarded : Guarded apply guard before state) :
    ScriptReachable apply guard script start
      (execActs apply before state)

/- What every script keeps holds in every reachable state. -/
theorem inv_of_scriptReachable
    {E : Type}
    {script : E → Script S A}
    {start state : S}
    (hStart : inv start)
    (hKeeps : ∀ execution,
      Script.Keeps apply guard inv inv (script execution)
        (fun _ => True))
    (hReachable :
      ScriptReachable apply guard script start state) :
    inv state := by
  induction hReachable with
  | start => exact hStart
  | step state execution before after _ hActs hGuarded ih =>
      exact inv_of_alwaysSafe (hKeeps execution state ih).1
        hActs hGuarded

end Rules

end Mkrootfs
