import Mkrootfs.Library.Script

/-
  Whole runs of shell scripts: where they lead, whether they
  stop early, and what they leave alone.

  Main declarations:
    * `Script.run`
    * `Script.run_seq`, `Script.stopped_seq`
    * `Script.Only`
    * `Script.run_keeps`, `Script.run_of_only`
    * `Script.run_each_act`
-/

------------------------------------------------------------
-- Whole Runs
------------------------------------------------------------

namespace Mkrootfs

namespace Script

variable {S A B : Type} {apply : S → A → S}

/- The state after a script that is not interrupted. -/
def run
    (apply : S → A → S)
    (script : Script S A)
    (state : S) : S :=
  execActs apply (script state).acts state

@[simp] theorem run_skip (state : S) :
    run apply skip state = state := rfl

@[simp] theorem run_exit (state : S) :
    run apply exit state = state := rfl

@[simp] theorem run_act
    (a : S → A)
    (state : S) :
    run apply (act a) state = apply state (a state) := rfl

@[simp] theorem stopped_skip (state : S) :
    ((skip : Script S A) state).stopped = false := rfl

@[simp] theorem stopped_exit (state : S) :
    ((exit : Script S A) state).stopped = true := rfl

@[simp] theorem stopped_act
    (a : S → A)
    (state : S) :
    ((act a) state).stopped = false := rfl

/- A script that stops is not followed by anything. -/
theorem run_seq
    (first second : Script S A)
    (state : S) :
    run apply (seq apply first second) state =
      if (first state).stopped then
        run apply first state
      else
        run apply second (run apply first state) := by
  cases hStopped : (first state).stopped with
  | true => simp [run, seq, hStopped]
  | false => simp [run, seq, hStopped, execActs_append]

theorem stopped_seq
    (first second : Script S A)
    (state : S) :
    (seq apply first second state).stopped =
      ((first state).stopped ||
        (second (run apply first state)).stopped) := by
  cases hStopped : (first state).stopped with
  | true => simp [seq, hStopped]
  | false => simp [run, seq, hStopped]

/- Scripts that never stop. -/
theorem run_seq_of_not_stopped
    {first : Script S A}
    (second : Script S A)
    {state : S}
    (hFirst : (first state).stopped = false) :
    run apply (seq apply first second) state =
      run apply second (run apply first state) := by
  rw [run_seq, hFirst]
  rfl

theorem run_cond
    (condition : S → Bool)
    (first second : Script S A)
    (state : S) :
    run apply (cond condition first second) state =
      if condition state then
        run apply first state
      else
        run apply second state := by
  unfold run cond
  split
  · rfl
  · rfl

theorem stopped_cond
    (condition : S → Bool)
    (first second : Script S A)
    (state : S) :
    (cond condition first second state).stopped =
      if condition state then
        (first state).stopped
      else
        (second state).stopped := by
  unfold cond
  split
  · rfl
  · rfl

/- A loop goes on for as long as its body does. -/
theorem stopped_forEach
    {body : B → Script S A}
    {items : List B}
    (hBody : ∀ item ∈ items, ∀ state,
      (body item state).stopped = false)
    (state : S) :
    (forEach apply body items state).stopped = false := by
  induction items generalizing state with
  | nil => rfl
  | cons item items ih =>
      have hItem := hBody item List.mem_cons_self state
      have hRest := ih (fun other hMem =>
        hBody other (List.mem_cons_of_mem item hMem))
      simp only [forEach, stopped_seq, hItem, hRest,
        Bool.or_false]

theorem stopped_each
    {items : S → List B}
    {body : B → Script S A}
    {state : S}
    (hBody : ∀ item ∈ items state, ∀ state,
      (body item state).stopped = false) :
    (each apply items body state).stopped = false :=
  stopped_forEach hBody state

/- A sequence whose first scripts never stop. -/
theorem run_block_append
    {first : List (Script S A)}
    (hFirst : ∀ script ∈ first, ∀ state,
      (script state).stopped = false)
    (second : List (Script S A))
    (state : S) :
    run apply (block apply (first ++ second)) state =
      run apply (block apply second)
        (run apply (block apply first) state) := by
  induction first generalizing state with
  | nil => rfl
  | cons script first ih =>
      have hScript := hFirst script List.mem_cons_self state
      simp only [List.cons_append, block]
      rw [run_seq_of_not_stopped _ hScript,
        run_seq_of_not_stopped _ hScript]
      exact ih (fun other hMem => hFirst other
        (List.mem_cons_of_mem script hMem)) _

theorem stopped_block
    {scripts : List (Script S A)}
    (hScripts : ∀ script ∈ scripts, ∀ state,
      (script state).stopped = false)
    (state : S) :
    (block apply scripts state).stopped = false := by
  induction scripts generalizing state with
  | nil => rfl
  | cons script scripts ih =>
      have hScript :=
        hScripts script List.mem_cons_self state
      have hRest := ih (fun other hMem => hScripts other
        (List.mem_cons_of_mem script hMem))
      simp only [block, stopped_seq, hScript, hRest,
        Bool.or_false]

/- A loop is a fold over its items. -/
theorem run_forEach
    {body : B → Script S A}
    {items : List B}
    (hBody : ∀ item ∈ items, ∀ state,
      (body item state).stopped = false)
    (state : S) :
    run apply (forEach apply body items) state =
      items.foldl
        (fun current item => run apply (body item) current)
        state := by
  induction items generalizing state with
  | nil => rfl
  | cons item items ih =>
      have hItem := hBody item List.mem_cons_self state
      simp only [forEach, List.foldl_cons]
      rw [run_seq_of_not_stopped _ hItem]
      exact ih (fun other hMem =>
        hBody other (List.mem_cons_of_mem item hMem)) _

/- A loop with one command for each item. -/
theorem run_each_act
    (items : S → List B)
    (command : B → A)
    (state : S) :
    run apply
        (each apply items (fun item =>
          act (fun _ => command item)))
        state =
      (items state).foldl
        (fun current item => apply current (command item))
        state := by
  unfold each
  exact run_forEach (fun _ _ _ => rfl) state

------------------------------------------------------------
-- Frames
------------------------------------------------------------

/- A script that only executes some of the commands. -/
def Only
    (allowed : A → Prop)
    (script : Script S A) : Prop :=
  ∀ state, ∀ act ∈ (script state).acts, allowed act

variable {allowed : A → Prop}

theorem only_skip :
    Only allowed (skip : Script S A) := by
  intro state act hMem
  cases hMem

theorem only_exit :
    Only allowed (exit : Script S A) := by
  intro state act hMem
  cases hMem

theorem only_act
    {a : S → A}
    (hAct : ∀ state, allowed (a state)) :
    Only allowed (act a) := by
  intro state command hMem
  rw [List.mem_singleton.mp hMem]
  exact hAct state

theorem only_seq
    {first second : Script S A}
    (hFirst : Only allowed first)
    (hSecond : Only allowed second) :
    Only allowed (seq apply first second) := by
  intro state command hMem
  simp only [seq] at hMem
  split at hMem
  · exact hFirst state command hMem
  · rcases List.mem_append.mp hMem with hMem | hMem
    · exact hFirst state command hMem
    · exact hSecond _ command hMem

theorem only_block
    {scripts : List (Script S A)}
    (hScripts : ∀ script ∈ scripts, Only allowed script) :
    Only allowed (block apply scripts) := by
  induction scripts with
  | nil => exact only_skip
  | cons script scripts ih =>
      apply only_seq
      · exact hScripts script List.mem_cons_self
      · exact ih (fun other hMem => hScripts other
          (List.mem_cons_of_mem script hMem))

theorem only_cond
    {condition : S → Bool}
    {first second : Script S A}
    (hFirst : Only allowed first)
    (hSecond : Only allowed second) :
    Only allowed (cond condition first second) := by
  intro state command hMem
  unfold cond at hMem
  split at hMem
  · exact hFirst state command hMem
  · exact hSecond state command hMem

theorem only_forEach
    {body : B → Script S A}
    {items : List B}
    (hBody : ∀ item ∈ items, Only allowed (body item)) :
    Only allowed (forEach apply body items) := by
  induction items with
  | nil => exact only_skip
  | cons item items ih =>
      apply only_seq
      · exact hBody item List.mem_cons_self
      · exact ih (fun other hMem => hBody other
          (List.mem_cons_of_mem item hMem))

theorem only_each
    {items : S → List B}
    {body : B → Script S A}
    (hBody : ∀ item, Only allowed (body item)) :
    Only allowed (each apply items body) := by
  intro state
  exact only_forEach (fun item _ => hBody item) state

/- What every command keeps holds after a script. -/
theorem run_keeps
    {good : S → Prop}
    (hGood : ∀ state command, allowed command →
      good state → good (apply state command))
    {script : Script S A}
    (hOnly : Only allowed script)
    {state : S}
    (hState : good state) :
    good (run apply script state) := by
  have hActs : ∀ (acts : List A) (start : S),
      (∀ command ∈ acts, allowed command) →
      good start →
      good (execActs apply acts start) := by
    intro acts
    induction acts with
    | nil =>
        intro start _ hStart
        exact hStart
    | cons command acts ih =>
        intro start hAll hStart
        rw [execActs_cons]
        apply ih _ (fun other hMem =>
          hAll other (List.mem_cons_of_mem command hMem))
        exact hGood start command
          (hAll command List.mem_cons_self) hStart
  exact hActs _ state (hOnly state) hState

/- What no command changes is the same after a script. -/
theorem run_of_only
    {V : Type}
    (view : S → V)
    (hView : ∀ state command, allowed command →
      view (apply state command) = view state)
    {script : Script S A}
    (hOnly : Only allowed script)
    (state : S) :
    view (run apply script state) = view state := by
  have hKept : ∀ current command, allowed command →
      view current = view state →
      view (apply current command) = view state :=
    fun current command hAllowed hSame =>
      (hView current command hAllowed).trans hSame
  exact run_keeps hKept hOnly rfl

end Script

end Mkrootfs
