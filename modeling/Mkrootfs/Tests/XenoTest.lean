import Mkrootfs.Library.Text

/-
  The dialogs of `xeno-test-frontend.sh`, and the options of
  `dohell` that come out of them.

  The variables of the shell may be set before the script
  starts.  An unset variable is an empty one.

  Main declarations:
    * `WizardStep`, `Wizard`, `Wizard.iterate`
    * `Wizard.Reached`, `Wizard.remembers_of_reached`
    * `Wizard.dohellOpts_intended_iff`
    * `Wizard.hackbench_asks_duration_iff`
-/

------------------------------------------------------------
-- The Loop
------------------------------------------------------------

namespace Mkrootfs

/- The values of `step`, each with a dialog but the last. -/
inductive WizardStep
| whatToDo
| partition
| loadProgram
| duration
| server
| port
| period
| done
deriving DecidableEq, Repr

def WizardStep.number : WizardStep → Nat
| .whatToDo => 0
| .partition => 1
| .loadProgram => 2
| .duration => 3
| .server => 4
| .port => 5
| .period => 6
| .done => 7

/- What `dialog` leaves in `/tmp/choice`, or its failure. -/
inductive DialogAnswer
| ok (choice : Text)
| cancel
deriving DecidableEq, Repr

/- The variables of the script. -/
structure Wizard where
  step : WizardStep
  iostress : Text
  load : Text
  server : Text
  port : Text
  latencyPeriod : Text
  dohellOpts : Text
deriving DecidableEq

/- What comes after one run of the loop's body. -/
inductive WizardNext
| loop (w : Wizard)
| getty
| exit
| leaves (w : Wizard)
deriving DecidableEq

namespace Wizard

def ltpLoad : Text := "-l /ltp".toList

def hackbenchLoad (duration : Text) : Text :=
  "-b /ltp/testcases/bin/hackbench ".toList ++ duration

/- `step=0` -/
def start (env : Wizard) : Wizard :=
  { env with step := .whatToDo }

/-
  One run of the loop's body: the dialog that it shows, if it
  shows one, and what comes after the answer.
-/
def iterate
    (w : Wizard)
    (answer : DialogAnswer) :
    Option WizardStep × WizardNext :=
  match w.step with
  | .whatToDo =>
      (some .whatToDo,
        match answer with
        | .ok choice =>
            if choice = "1".toList then
              .getty
            else if choice = "2".toList then
              .loop { w with step := .partition }
            else
              .loop w
        | .cancel => .loop w)
  | .partition =>
      (some .partition,
        match answer with
        | .ok choice =>
            .loop
              { w with
                iostress := choice
                step := .loadProgram }
        | .cancel => .exit)
  | .loadProgram =>
      (some .loadProgram,
        match answer with
        | .ok choice =>
            if choice = "LTP".toList then
              .loop { w with load := ltpLoad, step := .server }
            else if choice = "Hackbench".toList then
              .loop { w with step := .duration }
            else
              .loop w
        | .cancel => .loop { w with step := .partition })
  | .duration =>
      if w.load = ltpLoad then
        (none, .loop { w with step := .loadProgram })
      else
        (some .duration,
          match answer with
          | .ok choice =>
              .loop
                { w with
                  load := hackbenchLoad choice
                  step := .server }
          | .cancel =>
              .loop { w with step := .loadProgram })
  | .server =>
      (some .server,
        match answer with
        | .ok choice =>
            .loop
              { w with
                server := choice
                step :=
                  if choice = [] then .period else .port }
        | .cancel => .loop { w with step := .duration })
  | .port =>
      if w.server = [] then
        (none, .loop { w with step := .server })
      else
        (some .port,
          match answer with
          | .ok choice =>
              .loop { w with port := choice, step := .period }
          | .cancel => .loop { w with step := .server })
  | .period =>
      (some .period,
        match answer with
        | .ok choice =>
            .loop
              { w with
                latencyPeriod := choice
                step := .done }
        | .cancel => .loop { w with step := .port })
  | .done => (none, .leaves w)

/- What follows the loop. -/
def dohellOptions (w : Wizard) : Text :=
  let opts :=
    if w.server ≠ [] then
      "-s ".toList ++ w.server
    else
      w.dohellOpts
  let opts :=
    if w.port ≠ [] then
      opts ++ " -p ".toList ++ w.port
    else
      opts
  let opts := opts ++ " ".toList ++ w.load
  if w.iostress ≠ "none".toList then
    "-m /mnt/".toList ++ w.iostress ++ " ".toList ++ opts
  else
    opts

------------------------------------------------------------
-- Histories
------------------------------------------------------------

/- The dialogs that were shown, with their answers. -/
abbrev History := List (WizardStep × DialogAnswer)

/- The dialog of one iteration. -/
def heard
    (shown : Option WizardStep)
    (answer : DialogAnswer) : History :=
  shown.toList.map (fun box => (box, answer))

/- The states between two iterations, latest dialog first. -/
inductive Reached (env : Wizard) :
    Wizard →
    History →
    Prop
| start : Reached env (start env) []
| loop
    {w next : Wizard}
    {history : History}
    {answer : DialogAnswer}
    {shown : Option WizardStep}
    (hReached : Reached env w history)
    (hIterate : iterate w answer = (shown, .loop next)) :
    Reached env next (heard shown answer ++ history)

/-
  A run on a list of answers, one for each iteration.  Where
  no dialog is shown the answer is not looked at.
-/
def run :
    List DialogAnswer →
    Wizard × History →
    Option (Wizard × History)
| [], state => some state
| answer :: answers, (w, history) =>
    match iterate w answer with
    | (shown, .loop next) =>
        run answers (next, heard shown answer ++ history)
    | _ => none

theorem reached_of_run
    {env w next : Wizard}
    {history after : History}
    {answers : List DialogAnswer}
    (hReached : Reached env w history)
    (hRun : run answers (w, history) = some (next, after)) :
    Reached env next after := by
  induction answers generalizing w history with
  | nil =>
      rcases Prod.mk.inj (Option.some.inj hRun) with
        ⟨rfl, rfl⟩
      exact hReached
  | cons answer answers ih =>
      unfold run at hRun
      split at hRun
      · next hIterate =>
          exact ih (Reached.loop hReached hIterate) hRun
      · cases hRun

/- The answer of a dialog, if it was accepted. -/
def accepted
    (box : WizardStep) :
    WizardStep × DialogAnswer →
    Option Text
| (shown, .ok choice) =>
    if shown = box then some choice else none
| (_, .cancel) => none

/- The last accepted answer of a dialog. -/
def lastAnswer
    (box : WizardStep)
    (history : History) : Option Text :=
  history.findSome? (accepted box)

/- The load that an answer confirms. -/
def confirmedLoad :
    WizardStep × DialogAnswer →
    Option Text
| (.loadProgram, .ok choice) =>
    if choice = "LTP".toList then some ltpLoad else none
| (.duration, .ok choice) => some (hackbenchLoad choice)
| _ => none

/- The load that was confirmed last. -/
def lastLoad (history : History) : Option Text :=
  history.findSome? confirmedLoad

/-
  The options for given answers: a port is only named beside
  a server.
-/
def optionsFor
    (partition load server : Text)
    (port : Option Text) : Text :=
  (if partition = "none".toList then
    []
  else
    "-m /mnt/".toList ++ partition ++ " ".toList) ++
  ((if server = [] then
    []
  else
    "-s ".toList ++ server ++
      (if port.getD [] = [] then
        []
      else
        " -p ".toList ++ port.getD [])) ++
  (" ".toList ++ load))

/- The options that the last answers stand for. -/
def Intended
    (history : History)
    (options : Text) : Prop :=
  ∃ partition load server,
    lastAnswer .partition history = some partition ∧
    lastLoad history = some load ∧
    lastAnswer .server history = some server ∧
    options = optionsFor partition load server
      (lastAnswer .port history)

------------------------------------------------------------
-- Variables
------------------------------------------------------------

/- Each variable holds the last answer of its dialog. -/
structure Remembers
    (env w : Wizard)
    (history : History) : Prop where
  iostress : w.iostress =
    (lastAnswer .partition history).getD env.iostress
  load : w.load = (lastLoad history).getD env.load
  server : w.server =
    (lastAnswer .server history).getD env.server
  port : w.port = (lastAnswer .port history).getD env.port
  dohellOpts : w.dohellOpts = env.dohellOpts

/- What one iteration hears and where it goes. -/
inductive Moves (w : Wizard) :
    History →
    Wizard →
    Prop
/- A guard steps back without a dialog. -/
| guard
    (step : WizardStep)
    (hBack : step.number < w.step.number) :
    Moves w [] { w with step := step }
| back
    (box step : WizardStep)
    (hBack : step.number ≤ w.step.number) :
    Moves w [(box, .cancel)] { w with step := step }
| whatToDo
    (choice : Text)
    (step : WizardStep)
    (hNumber : step.number ≤ 1) :
    Moves w [(.whatToDo, .ok choice)] { w with step := step }
| partition
    (choice : Text) :
    Moves w [(.partition, .ok choice)]
      { w with iostress := choice, step := .loadProgram }
| ltp
    (hStep : w.step = .loadProgram) :
    Moves w [(.loadProgram, .ok "LTP".toList)]
      { w with load := ltpLoad, step := .server }
| otherLoad
    (choice : Text)
    (step : WizardStep)
    (hChoice : choice ≠ "LTP".toList)
    (hStep : w.step = .loadProgram)
    (hNumber : step.number ≤ 3) :
    Moves w [(.loadProgram, .ok choice)]
      { w with step := step }
| duration
    (choice : Text)
    (hStep : w.step = .duration)
    (hLoad : w.load ≠ ltpLoad) :
    Moves w [(.duration, .ok choice)]
      { w with load := hackbenchLoad choice, step := .server }
| server
    (choice : Text)
    (hStep : w.step = .server) :
    Moves w [(.server, .ok choice)]
      { w with
        server := choice
        step := if choice = [] then .period else .port }
| port
    (choice : Text)
    (hStep : w.step = .port) :
    Moves w [(.port, .ok choice)]
      { w with port := choice, step := .period }
| period
    (choice : Text)
    (hStep : w.step = .period) :
    Moves w [(.period, .ok choice)]
      { w with latencyPeriod := choice, step := .done }

theorem moves_of_iterate
    {w next : Wizard}
    {answer : DialogAnswer}
    {shown : Option WizardStep}
    (hIterate : iterate w answer = (shown, .loop next)) :
    Moves w (heard shown answer) next := by
  unfold iterate at hIterate
  cases hStep : w.step with
  | whatToDo =>
      simp only [hStep, Prod.mk.injEq] at hIterate
      rcases hIterate with ⟨rfl, hNext⟩
      have hStay : w = { w with step := .whatToDo } := by
        rw [← hStep]
      cases answer with
      | ok choice =>
          dsimp only at hNext
          split_ifs at hNext
          · cases hNext
            exact Moves.whatToDo choice .partition le_rfl
          · cases hNext
            rw [hStay]
            exact Moves.whatToDo choice .whatToDo
              (by decide)
      | cancel =>
          cases hNext
          rw [hStay]
          exact Moves.back _ _ le_rfl
  | partition =>
      simp only [hStep, Prod.mk.injEq] at hIterate
      rcases hIterate with ⟨rfl, hNext⟩
      cases answer with
      | ok choice =>
          cases hNext
          exact Moves.partition choice
      | cancel => cases hNext
  | loadProgram =>
      simp only [hStep, Prod.mk.injEq] at hIterate
      rcases hIterate with ⟨rfl, hNext⟩
      have hStay : w = { w with step := .loadProgram } := by
        rw [← hStep]
      cases answer with
      | ok choice =>
          dsimp only at hNext
          split_ifs at hNext with hLtp
          · cases hNext
            rw [hLtp]
            exact Moves.ltp hStep
          · cases hNext
            exact Moves.otherLoad choice .duration hLtp hStep
              le_rfl
          · cases hNext
            have hOther := Moves.otherLoad choice
              .loadProgram hLtp hStep (by decide)
            rwa [← hStay] at hOther
      | cancel =>
          cases hNext
          exact Moves.back _ _ (by rw [hStep]; decide)
  | duration =>
      simp only [hStep] at hIterate
      split_ifs at hIterate with hLoad
      · cases hIterate
        exact Moves.guard _ (by rw [hStep]; decide)
      · simp only [Prod.mk.injEq] at hIterate
        rcases hIterate with ⟨rfl, hNext⟩
        cases answer with
        | ok choice =>
            cases hNext
            exact Moves.duration choice hStep hLoad
        | cancel =>
            cases hNext
            exact Moves.back _ _ (by rw [hStep]; decide)
  | server =>
      simp only [hStep, Prod.mk.injEq] at hIterate
      rcases hIterate with ⟨rfl, hNext⟩
      cases answer with
      | ok choice =>
          cases hNext
          exact Moves.server choice hStep
      | cancel =>
          cases hNext
          exact Moves.back _ _ (by rw [hStep]; decide)
  | port =>
      simp only [hStep] at hIterate
      split_ifs at hIterate
      · cases hIterate
        exact Moves.guard _ (by rw [hStep]; decide)
      · simp only [Prod.mk.injEq] at hIterate
        rcases hIterate with ⟨rfl, hNext⟩
        cases answer with
        | ok choice =>
            cases hNext
            exact Moves.port choice hStep
        | cancel =>
            cases hNext
            exact Moves.back _ _ (by rw [hStep]; decide)
  | period =>
      simp only [hStep, Prod.mk.injEq] at hIterate
      rcases hIterate with ⟨rfl, hNext⟩
      cases answer with
      | ok choice =>
          cases hNext
          exact Moves.period choice hStep
      | cancel =>
          cases hNext
          exact Moves.back _ _ (by rw [hStep]; decide)
  | done =>
      simp only [hStep, Prod.mk.injEq, reduceCtorEq,
        and_false] at hIterate

@[simp] theorem lastAnswer_nil (box : WizardStep) :
    lastAnswer box [] = none := rfl

@[simp] theorem lastAnswer_cons
    (box : WizardStep)
    (event : WizardStep × DialogAnswer)
    (history : History) :
    lastAnswer box (event :: history) =
      (accepted box event).or (lastAnswer box history) := by
  unfold lastAnswer
  rw [List.findSome?_cons]
  cases accepted box event with
  | none => rfl
  | some choice => rfl

@[simp] theorem lastLoad_nil : lastLoad [] = none := rfl

@[simp] theorem lastLoad_cons
    (event : WizardStep × DialogAnswer)
    (history : History) :
    lastLoad (event :: history) =
      (confirmedLoad event).or (lastLoad history) := by
  unfold lastLoad
  rw [List.findSome?_cons]
  cases confirmedLoad event with
  | none => rfl
  | some load => rfl

theorem remembers_of_moves
    {env w next : Wizard}
    {history events : History}
    (hRemembers : Remembers env w history)
    (hMoves : Moves w events next) :
    Remembers env next (events ++ history) := by
  rcases hRemembers with
    ⟨hIostress, hLoad, hServer, hPort, hOpts⟩
  cases hMoves with
  | otherLoad choice step hChoice hStep hNumber =>
      refine ⟨?_, ?_, ?_, ?_, hOpts⟩ <;>
        simpa only [List.cons_append, List.nil_append,
          lastAnswer_cons, lastLoad_cons, accepted,
          confirmedLoad, if_neg hChoice, Option.none_or,
          reduceCtorEq, if_false]
  | _ =>
      refine ⟨?_, ?_, ?_, ?_, hOpts⟩ <;>
        simp [accepted, confirmedLoad, hIostress, hLoad,
          hServer, hPort]

/- What has been answered when a step is reached. -/
structure Answered
    (w : Wizard)
    (history : History) : Prop where
  partition : 2 ≤ w.step.number →
    (lastAnswer .partition history).isSome
  load : 4 ≤ w.step.number → (lastLoad history).isSome
  server : 5 ≤ w.step.number →
    (lastAnswer .server history).isSome
  port : 6 ≤ w.step.number → w.server ≠ [] →
    (lastAnswer .port history).isSome

/- An answer is not forgotten. -/
theorem lastAnswer_append_isSome
    {box : WizardStep}
    {history : History}
    (events : History)
    (hSome : (lastAnswer box history).isSome) :
    (lastAnswer box (events ++ history)).isSome := by
  induction events with
  | nil => exact hSome
  | cons event events ih => simp [ih]

theorem lastLoad_append_isSome
    {history : History}
    (events : History)
    (hSome : (lastLoad history).isSome) :
    (lastLoad (events ++ history)).isSome := by
  induction events with
  | nil => exact hSome
  | cons event events ih => simp [ih]

/- Going back asks for nothing that was not answered. -/
theorem answered_of_back
    {w : Wizard}
    {history : History}
    {step : WizardStep}
    (events : History)
    (hAnswered : Answered w history)
    (hBack : step.number ≤ w.step.number) :
    Answered { w with step := step } (events ++ history) where
  partition hStep := lastAnswer_append_isSome events
    (hAnswered.partition (le_trans hStep hBack))
  load hStep := lastLoad_append_isSome events
    (hAnswered.load (le_trans hStep hBack))
  server hStep := lastAnswer_append_isSome events
    (hAnswered.server (le_trans hStep hBack))
  port hStep hServer := lastAnswer_append_isSome events
    (hAnswered.port (le_trans hStep hBack) hServer)

theorem answered_of_moves
    {w next : Wizard}
    {history events : History}
    (hAnswered : Answered w history)
    (hMoves : Moves w events next) :
    Answered next (events ++ history) := by
  have hPartition := hAnswered.partition
  have hLoad := hAnswered.load
  have hServer := hAnswered.server
  cases hMoves with
  | guard step hBack =>
      exact answered_of_back [] hAnswered hBack.le
  | back box step hBack =>
      exact answered_of_back _ hAnswered hBack
  | whatToDo choice step hNumber =>
      exact ⟨by dsimp; omega, by dsimp; omega,
        by dsimp; omega, by dsimp; omega⟩
  | partition choice =>
      refine ⟨?_, ?_, ?_, ?_⟩ <;>
        simp [accepted, WizardStep.number]
  | ltp hStep =>
      rw [hStep] at hPartition
      refine ⟨?_, ?_, ?_, ?_⟩ <;>
        simp [accepted, confirmedLoad, WizardStep.number,
          hPartition (by decide)]
  | otherLoad choice step hChoice hStep hNumber =>
      rw [hStep] at hPartition
      refine ⟨?_, by dsimp; omega, by dsimp; omega,
        by dsimp; omega⟩
      simp [accepted, hPartition (by decide)]
  | duration choice hStep _ =>
      rw [hStep] at hPartition
      refine ⟨?_, ?_, ?_, ?_⟩ <;>
        simp [accepted, confirmedLoad, WizardStep.number,
          hPartition (by decide)]
  | server choice hStep =>
      rw [hStep] at hPartition hLoad
      refine ⟨?_, ?_, ?_, ?_⟩
      · simp [accepted, hPartition (by decide)]
      · simp [confirmedLoad, hLoad (by decide)]
      · simp [accepted]
      · -- with a server the next step is its port
        intro hNumber hNonempty
        rw [if_neg hNonempty] at hNumber
        simp [WizardStep.number] at hNumber
  | port choice hStep =>
      rw [hStep] at hPartition hLoad hServer
      refine ⟨?_, ?_, ?_, ?_⟩ <;>
        simp [accepted, confirmedLoad,
          hPartition (by decide), hLoad (by decide),
          hServer (by decide)]
  | period choice hStep =>
      have hPort := hAnswered.port
      rw [hStep] at hPartition hLoad hServer hPort
      refine ⟨?_, ?_, ?_, ?_⟩
      · simp [accepted, hPartition (by decide)]
      · simp [confirmedLoad, hLoad (by decide)]
      · simp [accepted, hServer (by decide)]
      · intro _ hNonempty
        simp [accepted, hPort (by decide) hNonempty]

theorem remembers_of_reached
    {env w : Wizard}
    {history : History}
    (hReached : Reached env w history) :
    Remembers env w history := by
  induction hReached with
  | start => exact ⟨rfl, rfl, rfl, rfl, rfl⟩
  | loop _ hIterate ih =>
      exact remembers_of_moves ih (moves_of_iterate hIterate)

theorem answered_of_reached
    {env w : Wizard}
    {history : History}
    (hReached : Reached env w history) :
    Answered w history := by
  induction hReached with
  | start =>
      refine ⟨?_, ?_, ?_, ?_⟩ <;>
        simp [start, WizardStep.number]
  | loop _ hIterate ih =>
      exact answered_of_moves ih (moves_of_iterate hIterate)

------------------------------------------------------------
-- Options
------------------------------------------------------------

/- The options by the variables. -/
theorem dohellOptions_eq
    (w : Wizard) :
    dohellOptions w =
      (if w.iostress = "none".toList then
        []
      else
        "-m /mnt/".toList ++ w.iostress ++ " ".toList) ++
      (((if w.server = [] then
        w.dohellOpts
      else
        "-s ".toList ++ w.server) ++
      (if w.port = [] then
        []
      else
        " -p ".toList ++ w.port)) ++
      (" ".toList ++ w.load)) := by
  unfold dohellOptions
  by_cases hNone : w.iostress = "none".toList <;>
    by_cases hServer : w.server = [] <;>
      by_cases hPort : w.port = [] <;>
        simp only [hNone, hServer, hPort, ne_eq,
          not_true_eq_false, not_false_eq_true, if_true,
          if_false, List.append_assoc, List.nil_append,
          List.append_nil]

/-
  The options are those of given answers exactly when a port
  is only there beside a server.
-/
theorem dohellOptions_eq_optionsFor_iff
    (w : Wizard)
    (port : Option Text)
    (hPort : w.server ≠ [] → port.getD [] = w.port) :
    dohellOptions w =
        optionsFor w.iostress w.load w.server port ↔
      (w.server = [] →
        w.port = [] ∧ w.dohellOpts = []) := by
  rw [dohellOptions_eq, optionsFor,
    List.append_right_inj, List.append_left_inj]
  by_cases hServer : w.server = []
  · simp only [hServer, if_true, forall_const,
      List.append_eq_nil_iff]
    constructor
    · rintro ⟨hOpts, hEmpty⟩
      refine ⟨?_, hOpts⟩
      by_contra hNonempty
      rw [if_neg hNonempty] at hEmpty
      simp at hEmpty
    · rintro ⟨hEmpty, hOpts⟩
      exact ⟨hOpts, if_pos hEmpty⟩
  · simp only [hServer, if_false, hPort hServer,
      IsEmpty.forall_iff]

/-
  After the last dialog the options are those of the last
  answers exactly when an empty server comes without a port:
  none that was accepted earlier, and nothing from outside.
-/
theorem dohellOpts_intended_iff
    {env w : Wizard}
    {history : History}
    (hReached : Reached env w history)
    (hDone : w.step = .done) :
    Intended history (dohellOptions w) ↔
      (lastAnswer .server history = some [] →
        (lastAnswer .port history).getD env.port = [] ∧
          env.dohellOpts = []) := by
  have hRemembers := remembers_of_reached hReached
  have hAnswered := answered_of_reached hReached
  rcases Option.isSome_iff_exists.mp
      (hAnswered.partition (by rw [hDone]; decide)) with
    ⟨partition, hPartition⟩
  rcases Option.isSome_iff_exists.mp
      (hAnswered.load (by rw [hDone]; decide)) with
    ⟨load, hLoad⟩
  rcases Option.isSome_iff_exists.mp
      (hAnswered.server (by rw [hDone]; decide)) with
    ⟨server, hServer⟩
  have hIostressEq : w.iostress = partition := by
    rw [hRemembers.iostress, hPartition]
    rfl
  have hLoadEq : w.load = load := by
    rw [hRemembers.load, hLoad]
    rfl
  have hServerEq : w.server = server := by
    rw [hRemembers.server, hServer]
    rfl
  have hIntended : Intended history (dohellOptions w) ↔
      dohellOptions w =
        optionsFor w.iostress w.load w.server
          (lastAnswer .port history) := by
    constructor
    · rintro ⟨partition', load', server', hPartition',
        hLoad', hServer', hOptions⟩
      rw [hPartition, Option.some.injEq] at hPartition'
      rw [hLoad, Option.some.injEq] at hLoad'
      rw [hServer, Option.some.injEq] at hServer'
      rw [hIostressEq, hLoadEq, hServerEq, hPartition',
        hLoad', hServer', hOptions]
    · intro hOptions
      exact ⟨_, _, _, hPartition, hLoad, hServer, by
        rw [hOptions, hIostressEq, hLoadEq, hServerEq]⟩
  have hPort : w.server ≠ [] →
      (lastAnswer .port history).getD [] = w.port := by
    intro hNonempty
    rcases Option.isSome_iff_exists.mp
        (hAnswered.port (by rw [hDone]; decide)
          hNonempty) with
      ⟨port, hSome⟩
    rw [hRemembers.port, hSome]
    rfl
  rw [hIntended, dohellOptions_eq_optionsFor_iff w _ hPort,
    hServerEq, hServer, Option.some.injEq, hRemembers.port,
    hRemembers.dohellOpts]

------------------------------------------------------------
-- Runs With Another Choice
------------------------------------------------------------

/- No variable is set outside. -/
def plainEnv : Wizard :=
  ⟨.whatToDo, [], [], [], [], [], []⟩

/- A run on a list of answers from the start. -/
def runFrom
    (env : Wizard)
    (answers : List DialogAnswer) :
    Option (Wizard × History) :=
  run answers (start env, [])

theorem reached_of_runFrom
    (env : Wizard)
    (answers : List DialogAnswer)
    (hRun : (runFrom env answers).isSome) :
    Reached env
      ((runFrom env answers).getD (start env, [])).1
      ((runFrom env answers).getD (start env, [])).2 := by
  rcases Option.isSome_iff_exists.mp hRun with
    ⟨⟨next, after⟩, hSome⟩
  rw [hSome]
  exact reached_of_run Reached.start hSome

/-
  A server and its port are accepted, then the dialogs are
  left backwards and the server is emptied.
-/
def emptiedServer : List DialogAnswer :=
  [.ok "2".toList, .ok "none".toList, .ok "LTP".toList,
    .ok "10.0.0.1".toList, .ok "9".toList, .cancel, .cancel,
    .ok [], .ok "100".toList]

theorem emptiedServer_keeps_port :
    ∃ w history,
      Reached plainEnv w history ∧
      w.step = .done ∧
      lastAnswer .server history = some [] ∧
      dohellOptions w = " -p 9 -l /ltp".toList ∧
      ¬ Intended history (dohellOptions w) := by
  refine ⟨_, _, reached_of_runFrom plainEnv emptiedServer
      (by decide +kernel),
    by decide +kernel, by decide +kernel, by decide +kernel,
    ?_⟩
  rintro ⟨partition, load, server, hPartition, hLoad,
    hServer, hOptions⟩
  have hPartitionNone : partition = "none".toList :=
    Option.some.inj (hPartition.symm.trans (by decide +kernel))
  have hLoadLtp : load = ltpLoad :=
    Option.some.inj (hLoad.symm.trans (by decide +kernel))
  have hServerEmpty : server = [] :=
    Option.some.inj (hServer.symm.trans (by decide +kernel))
  subst hPartitionNone hLoadLtp hServerEmpty
  exact absurd hOptions (by decide +kernel)

/- Without a way back a port stands beside its server. -/
theorem straightRun_intended :
    ∃ w history,
      Reached plainEnv w history ∧
      w.step = .done ∧
      Intended history (dohellOptions w) := by
  have hReached := reached_of_runFrom plainEnv
      [.ok "2".toList, .ok "sda1".toList,
        .ok "Hackbench".toList, .ok "60".toList,
        .ok "10.0.0.1".toList, .ok "9".toList,
        .ok "100".toList]
      (by decide +kernel)
  exact ⟨_, _, hReached, by decide +kernel,
    (dohellOpts_intended_iff hReached
      (by decide +kernel)).mpr
      (fun hEmpty => absurd hEmpty (by decide +kernel))⟩

------------------------------------------------------------
-- The Duration Of Hackbench
------------------------------------------------------------

/- The first dialog that the script shows from here on. -/
inductive ShowsNext :
    WizardNext →
    WizardStep →
    Prop
| asks
    {w : Wizard}
    {answer : DialogAnswer}
    {box : WizardStep}
    {next : WizardNext}
    (hIterate : iterate w answer = (some box, next)) :
    ShowsNext (.loop w) box
| skips
    {w next : Wizard}
    {answer : DialogAnswer}
    {box : WizardStep}
    (hIterate : iterate w answer = (none, .loop next))
    (hNext : ShowsNext (.loop next) box) :
    ShowsNext (.loop w) box

/- What choosing Hackbench in the menu of loads leads to. -/
def HackbenchAsksDuration (w : Wizard) : Prop :=
  ShowsNext (iterate w (.ok "Hackbench".toList)).2 .duration

/- A dialog that is shown is that of its step. -/
theorem shown_eq_step
    {w : Wizard}
    {answer : DialogAnswer}
    {box : WizardStep}
    {next : WizardNext}
    (hIterate : iterate w answer = (some box, next)) :
    box = w.step := by
  unfold iterate at hIterate
  split at hIterate
  case h_4 hStep =>
    split at hIterate
    · cases hIterate
    · rw [hStep]
      exact (Option.some.inj (Prod.mk.inj hIterate).1).symm
  case h_6 hStep =>
    split at hIterate
    · cases hIterate
    · rw [hStep]
      exact (Option.some.inj (Prod.mk.inj hIterate).1).symm
  case h_8 => cases hIterate
  all_goals
    next hStep =>
      rw [hStep]
      exact (Option.some.inj (Prod.mk.inj hIterate).1).symm

/- The menu of loads is always shown. -/
theorem loadProgram_shown
    {w : Wizard}
    (hStep : w.step = .loadProgram)
    (answer : DialogAnswer) :
    (iterate w answer).1 = some .loadProgram := by
  unfold iterate
  simp only [hStep]

/- The duration is asked for exactly when the guard passes. -/
theorem duration_shown_iff
    {w : Wizard}
    (hStep : w.step = .duration) :
    ShowsNext (.loop w) .duration ↔ w.load ≠ ltpLoad := by
  constructor
  · intro hShows hLoad
    have hGuard : ∀ answer, iterate w answer =
        (none, .loop { w with step := .loadProgram }) := by
      intro answer
      unfold iterate
      simp only [hStep, hLoad, if_true]
    cases hShows with
    | asks hIterate =>
        rw [hGuard] at hIterate
        cases hIterate
    | skips hIterate hNext =>
        rw [hGuard] at hIterate
        cases hIterate
        cases hNext with
        | asks hIterate => cases shown_eq_step hIterate
        | skips hIterate _ =>
            have hShown := loadProgram_shown
              (w := { w with step := .loadProgram }) rfl
            rename_i answer _
            have hMenu := hShown answer
            rw [hIterate] at hMenu
            cases hMenu
  · intro hLoad
    have hIterate : iterate w .cancel =
        (some .duration,
          .loop { w with step := .loadProgram }) := by
      unfold iterate
      simp only [hStep, hLoad, if_false]
    exact ShowsNext.asks hIterate

theorem hackbenchLoad_ne_ltpLoad
    (duration : Text) :
    hackbenchLoad duration ≠ ltpLoad := by
  intro hEq
  cases hEq

theorem load_eq_ltp_of_moves
    {env w next : Wizard}
    {history events : History}
    (hLoad : w.load = ltpLoad ↔
      env.load = ltpLoad ∨
        (.loadProgram, .ok "LTP".toList) ∈ history)
    (hMoves : Moves w events next) :
    next.load = ltpLoad ↔
      env.load = ltpLoad ∨
        (.loadProgram, .ok "LTP".toList) ∈
          events ++ history := by
  cases hMoves with
  | ltp hStep => simp
  | otherLoad choice step hChoice hStep hNumber =>
      have hNe : "LTP".toList ≠ choice := hChoice.symm
      simp only [List.cons_append, List.nil_append,
        List.mem_cons, Prod.mk.injEq,
        DialogAnswer.ok.injEq, hNe, and_false, false_or,
        hLoad]
  | duration choice hStep hOther =>
      have hOld := mt hLoad.mpr hOther
      rw [not_or] at hOld
      refine iff_of_false (hackbenchLoad_ne_ltpLoad choice) ?_
      rintro (hEnv | hMem)
      · exact hOld.1 hEnv
      · rcases List.mem_cons.mp hMem with hEq | hMem
        · cases hEq
        · exact hOld.2 hMem
  | _ => simp [hLoad]

/-
  Once LTP was chosen it stays the load, since the duration
  of another load is never asked for.
-/
theorem load_eq_ltp_iff
    {env w : Wizard}
    {history : History}
    (hReached : Reached env w history) :
    w.load = ltpLoad ↔
      env.load = ltpLoad ∨
        (.loadProgram, .ok "LTP".toList) ∈ history := by
  induction hReached with
  | start => simp [start]
  | loop _ hIterate ih =>
      exact load_eq_ltp_of_moves ih
        (moves_of_iterate hIterate)

/-
  Choosing Hackbench leads to the dialog of its duration
  exactly when LTP was never chosen before.
-/
theorem hackbench_asks_duration_iff
    {env w : Wizard}
    {history : History}
    (hReached : Reached env w history)
    (hStep : w.step = .loadProgram) :
    HackbenchAsksDuration w ↔
      env.load ≠ ltpLoad ∧
        (.loadProgram, .ok "LTP".toList) ∉ history := by
  have hChosen : (iterate w (.ok "Hackbench".toList)).2 =
      .loop { w with step := .duration } := by
    unfold iterate
    simp only [hStep, if_true]
    exact if_neg (by decide)
  unfold HackbenchAsksDuration
  rw [hChosen, duration_shown_iff rfl, ← not_or,
    ← load_eq_ltp_iff hReached]

/- LTP is chosen and left backwards, twice. -/
theorem ltp_bars_hackbench :
    ∃ w history,
      Reached plainEnv w history ∧
      w.step = .loadProgram ∧
      ¬ HackbenchAsksDuration w := by
  have hReached := reached_of_runFrom plainEnv
      [.ok "2".toList, .ok "none".toList, .ok "LTP".toList,
        .cancel, .cancel]
      (by decide +kernel)
  refine ⟨_, _, hReached, by decide +kernel, ?_⟩
  have hLoad : ((runFrom plainEnv
      [.ok "2".toList, .ok "none".toList, .ok "LTP".toList,
        .cancel, .cancel]).getD (start plainEnv, [])).1 =
      { plainEnv with
        step := .loadProgram
        iostress := "none".toList
        load := ltpLoad } := by
    decide +kernel
  rw [hLoad]
  exact mt (duration_shown_iff rfl).mp (not_not_intro rfl)

/- The first choice of Hackbench is followed. -/
theorem hackbench_asks_duration_first :
    ∃ w history,
      Reached plainEnv w history ∧
      w.step = .loadProgram ∧
      HackbenchAsksDuration w := by
  have hReached := reached_of_runFrom plainEnv
    [.ok "2".toList, .ok "none".toList]
    (by decide +kernel)
  exact ⟨_, _, hReached, by decide +kernel,
    (hackbench_asks_duration_iff hReached
      (by decide +kernel)).mpr (by decide +kernel)⟩

end Wizard

end Mkrootfs
