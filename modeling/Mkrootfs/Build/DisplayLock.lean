import Mathlib.Logic.Function.Basic
import Mathlib.Logic.Relation

/-
  The lock around the messages of parallel recipes
  (`display.sh`): any number of shells that create, read and
  remove one file, and may die between any two operations.

  Main declarations:
    * `LockFile`, `LockPhase`, `LockState`
    * `LockAct`, `LockState.step`, `LockState.Effect`
    * `LockState.Sound`, `LockState.exclusive_of_sound`
    * `LockState.exclusive_of_safeSteps`
-/

------------------------------------------------------------
-- Shells And The File
------------------------------------------------------------

namespace Mkrootfs

/-
  The lock file that is found under its name: the shell that
  has created it, and whether its pid has been written.
-/
structure LockFile (Pid : Type) where
  creator : Pid
  written : Bool
deriving DecidableEq, Repr

/- `cat "$mutex"`. -/
def LockFile.owner
    {Pid : Type}
    (file : LockFile Pid) : Option Pid :=
  if file.written then some file.creator else none

/- Where a shell is in `mutex_lock` or `mutex_unlock`. -/
inductive LockPhase (Pid : Type) where
/- In none of them, without the lock. -/
| idle
/- Before the exclusive creation. -/
| trying
/- The subshell has created the file. -/
| created
/- `mutex_lock` has returned. -/
| held
/- The creation has failed. -/
| reading
/- `cat` has printed an owner, or nothing. -/
| checking (owner : Option Pid)
/- `kill -0` has failed. -/
| reclaiming
/- `mutex_unlock` has been called. -/
| testing
/- The file exists. -/
| comparing
/- The file names the shell itself. -/
| releasing
deriving DecidableEq, Repr

/- All shells, and the file. -/
structure LockState (Pid : Type) where
  file : Option (LockFile Pid)
  phase : Pid → LockPhase Pid
  alive : Pid → Bool

/- One operation of a shell, or its death. -/
inductive LockAct (Pid : Type) where
| lock (p : Pid)
| create (p : Pid)
| write (p : Pid)
| giveUp (p : Pid)
| read (p : Pid)
| check (p : Pid)
| reclaim (p : Pid)
| unlock (p : Pid)
| test (p : Pid)
| compare (p : Pid)
| release (p : Pid)
| die (p : Pid)
deriving DecidableEq, Repr

namespace LockState

variable {Pid : Type}

/- Between the creation of the file and its removal. -/
def inUse : LockPhase Pid → Bool
| .created | .held | .releasing => true
| _ => false

/-
  A shell that reclaims the lock does not remove a file that
  its creator, which is alive, still uses.
-/
def allows
    (state : LockState Pid) : LockAct Pid → Bool
| .reclaim _ =>
    !state.file.any (fun file =>
      state.alive file.creator &&
        inUse (state.phase file.creator))
| _ => true

/- At most one live shell has the lock. -/
def Exclusive (state : LockState Pid) : Prop :=
  ∀ p q,
    state.alive p = true → state.phase p = .held →
    state.alive q = true → state.phase q = .held →
    p = q

/- The file belongs to every live shell that uses it. -/
def Sound (state : LockState Pid) : Prop :=
  ∀ p, state.alive p = true → inUse (state.phase p) = true →
    ∃ file, state.file = some file ∧ file.creator = p

theorem exclusive_of_sound
    {state : LockState Pid}
    (hSound : state.Sound) :
    state.Exclusive := by
  intro p q hAlive hHeld hOther hOtherHeld
  rcases hSound p hAlive (by rw [hHeld]; rfl) with
    ⟨file, hFile, hCreator⟩
  rcases hSound q hOther (by rw [hOtherHeld]; rfl) with
    ⟨other, hSame, hOtherCreator⟩
  rw [hFile, Option.some.injEq] at hSame
  rw [← hCreator, hSame, hOtherCreator]

------------------------------------------------------------
-- Operations
------------------------------------------------------------

variable [DecidableEq Pid]

/- A shell goes on. -/
def goto
    (state : LockState Pid)
    (p : Pid)
    (phase : LockPhase Pid) : LockState Pid :=
  { state with phase := Function.update state.phase p phase }

/- What `kill -0 "$owner"` finds. -/
def runs
    (state : LockState Pid)
    (owner : Option Pid) : Bool :=
  owner.any state.alive

/-
  The operations. The subshell that creates and writes the
  file may outlive its shell, and may die alone; it writes
  to the file that it has created, which is no longer found
  once somebody has removed it.
-/
def step
    (state : LockState Pid) :
    LockAct Pid →
    Option (LockState Pid)
| .lock p =>
    if state.alive p ∧ state.phase p = .idle then
      some (state.goto p .trying)
    else
      none
| .create p =>
    if state.phase p = .trying then
      match state.file with
      | none =>
          some
            { state.goto p .created with
              file := some ⟨p, false⟩ }
      | some _ => some (state.goto p .reading)
    else
      none
| .write p =>
    if state.phase p = .created then
      some
        { state.goto p .held with
          file := state.file.map (fun file =>
            if file.creator = p then
              { file with written := true }
            else
              file) }
    else
      none
| .giveUp p =>
    if state.alive p ∧
        (state.phase p = .trying ∨
          state.phase p = .created) then
      some (state.goto p .reading)
    else
      none
| .read p =>
    if state.alive p ∧ state.phase p = .reading then
      match state.file with
      | none => some (state.goto p .trying)
      | some file =>
          some (state.goto p (.checking file.owner))
    else
      none
| .check p =>
    if state.alive p then
      match state.phase p with
      | .checking owner =>
          if state.runs owner then
            some (state.goto p .trying)
          else
            some (state.goto p .reclaiming)
      | _ => none
    else
      none
| .reclaim p =>
    if state.alive p ∧ state.phase p = .reclaiming then
      some { state.goto p .trying with file := none }
    else
      none
| .unlock p =>
    if state.alive p ∧
        (state.phase p = .held ∨ state.phase p = .idle) then
      some (state.goto p .testing)
    else
      none
| .test p =>
    if state.alive p ∧ state.phase p = .testing then
      match state.file with
      | none => some (state.goto p .idle)
      | some _ => some (state.goto p .comparing)
    else
      none
| .compare p =>
    if state.alive p ∧ state.phase p = .comparing then
      if state.file.bind LockFile.owner = some p then
        some (state.goto p .releasing)
      else
        some (state.goto p .idle)
    else
      none
| .release p =>
    if state.alive p ∧ state.phase p = .releasing then
      some { state.goto p .idle with file := none }
    else
      none
| .die p =>
    some
      { state with
        alive := Function.update state.alive p false }

------------------------------------------------------------
-- Runs
------------------------------------------------------------

/- One operation of any shell. -/
def Steps (state next : LockState Pid) : Prop :=
  ∃ act, state.step act = some next

/- The same, under the condition. -/
def SafeSteps (state next : LockState Pid) : Prop :=
  ∃ act, state.allows act = true ∧
    state.step act = some next

@[simp] theorem goto_file
    (state : LockState Pid)
    (p : Pid)
    (phase : LockPhase Pid) :
    (state.goto p phase).file = state.file := rfl

@[simp] theorem goto_alive
    (state : LockState Pid)
    (p : Pid)
    (phase : LockPhase Pid) :
    (state.goto p phase).alive = state.alive := rfl

/-
  What an operation can do. Most of them lead to a phase in
  which the file is not used.
-/
inductive Effect (state : LockState Pid) :
    LockAct Pid → LockState Pid → Prop
| moves
    (act : LockAct Pid)
    (p : Pid)
    (phase : LockPhase Pid)
    (unused : inUse phase = false) :
    Effect state act (state.goto p phase)
| creates
    (p : Pid)
    (free : state.file = none) :
    Effect state (.create p)
      { state.goto p .created with file := some ⟨p, false⟩ }
| writes
    (p : Pid)
    (created : state.phase p = .created) :
    Effect state (.write p)
      { state.goto p .held with
        file := state.file.map (fun file =>
          if file.creator = p then
            { file with written := true }
          else
            file) }
| reclaims (p : Pid) :
    Effect state (.reclaim p)
      { state.goto p .trying with file := none }
| owns
    (p : Pid)
    (owner : state.file.bind LockFile.owner = some p) :
    Effect state (.compare p) (state.goto p .releasing)
| releases
    (p : Pid)
    (alive : state.alive p = true)
    (releasing : state.phase p = .releasing) :
    Effect state (.release p)
      { state.goto p .idle with file := none }
| dies (p : Pid) :
    Effect state (.die p)
      { state with
        alive := Function.update state.alive p false }

theorem effect_of_step
    {state next : LockState Pid}
    {act : LockAct Pid}
    (hStep : state.step act = some next) :
    Effect state act next := by
  cases act with
  | lock p =>
      simp only [step, Option.ite_none_right_eq_some] at hStep
      cases hStep.2
      exact .moves _ p _ rfl
  | create p =>
      simp only [step, Option.ite_none_right_eq_some] at hStep
      have hMatch := hStep.2
      split at hMatch
      · next hFile =>
          cases hMatch
          exact .creates p hFile
      · cases hMatch
        exact .moves _ p _ rfl
  | write p =>
      simp only [step, Option.ite_none_right_eq_some] at hStep
      cases hStep.2
      exact .writes p hStep.1
  | giveUp p =>
      simp only [step, Option.ite_none_right_eq_some] at hStep
      cases hStep.2
      exact .moves _ p _ rfl
  | read p =>
      simp only [step, Option.ite_none_right_eq_some] at hStep
      have hMatch := hStep.2
      split at hMatch
      · cases hMatch
        exact .moves _ p _ rfl
      · cases hMatch
        exact .moves _ p _ rfl
  | check p =>
      simp only [step, Option.ite_none_right_eq_some] at hStep
      have hMatch := hStep.2
      split at hMatch
      · split at hMatch
        · cases hMatch
          exact .moves _ p _ rfl
        · cases hMatch
          exact .moves _ p _ rfl
      · cases hMatch
  | reclaim p =>
      simp only [step, Option.ite_none_right_eq_some] at hStep
      cases hStep.2
      exact .reclaims p
  | unlock p =>
      simp only [step, Option.ite_none_right_eq_some] at hStep
      cases hStep.2
      exact .moves _ p _ rfl
  | test p =>
      simp only [step, Option.ite_none_right_eq_some] at hStep
      have hMatch := hStep.2
      split at hMatch
      · cases hMatch
        exact .moves _ p _ rfl
      · cases hMatch
        exact .moves _ p _ rfl
  | compare p =>
      simp only [step, Option.ite_none_right_eq_some] at hStep
      have hMatch := hStep.2
      split at hMatch
      · next hOwner =>
          cases hMatch
          exact .owns p hOwner
      · cases hMatch
        exact .moves _ p _ rfl
  | release p =>
      simp only [step, Option.ite_none_right_eq_some] at hStep
      cases hStep.2
      exact .releases p hStep.1.1 hStep.1.2
  | die p =>
      cases hStep
      exact .dies p

------------------------------------------------------------
-- What Each Effect Keeps
------------------------------------------------------------

section Sound

variable {state : LockState Pid} {p : Pid}

/- A shell that goes on must have the file if it uses it. -/
theorem sound_goto
    (hSound : state.Sound)
    {phase : LockPhase Pid}
    (hPhase : state.alive p = true → inUse phase = true →
      ∃ file, state.file = some file ∧ file.creator = p) :
    (state.goto p phase).Sound := by
  intro q hAlive hUse
  by_cases hSame : q = p
  · subst hSame
    simp only [goto, Function.update_self] at hUse
    exact hPhase hAlive hUse
  · simp only [goto, Function.update_of_ne hSame] at hUse
    exact hSound q hAlive hUse

/- The file may go if no other live shell uses it. -/
theorem sound_removed
    {phase : LockPhase Pid}
    (hPhase : inUse phase = false)
    (hOthers : ∀ q, q ≠ p → state.alive q = true →
      inUse (state.phase q) = false) :
    Sound { state.goto p phase with file := none } := by
  intro q hAlive hUse
  exfalso
  by_cases hSame : q = p
  · subst hSame
    simp only [goto, Function.update_self, hPhase] at hUse
    cases hUse
  · simp only [goto, Function.update_of_ne hSame,
      hOthers q hSame hAlive] at hUse
    cases hUse

/- Without a file nobody else uses one. -/
theorem sound_created
    (hSound : state.Sound)
    (hFile : state.file = none) :
    Sound { state.goto p .created with
      file := some ⟨p, false⟩ } := by
  intro q hAlive hUse
  by_cases hSame : q = p
  · exact ⟨_, rfl, hSame.symm⟩
  · exfalso
    simp only [goto, Function.update_of_ne hSame] at hUse
    rcases hSound q hAlive hUse with ⟨file, hSome, _⟩
    rw [hFile] at hSome
    cases hSome

/- The pid does not change whose file it is. -/
theorem sound_written
    (hSound : state.Sound)
    (hPhase : state.phase p = .created) :
    Sound { state.goto p .held with
      file := state.file.map (fun file =>
        if file.creator = p then
          { file with written := true }
        else
          file) } := by
  have hGoto : (state.goto p .held).Sound :=
    sound_goto hSound (fun hAlive _ =>
      hSound p hAlive (by rw [hPhase]; rfl))
  intro q hAlive hUse
  rcases hGoto q hAlive hUse with ⟨file, hFile, hCreator⟩
  rw [goto_file] at hFile
  refine ⟨_, by rw [hFile]; rfl, ?_⟩
  dsimp only
  split
  · exact hCreator
  · exact hCreator

/- The condition: nobody uses a file that is reclaimed. -/
theorem sound_reclaimed
    (hSound : state.Sound)
    (hAllows : state.allows (.reclaim p) = true) :
    Sound { state.goto p .trying with file := none } := by
  refine @sound_removed _ _ state p .trying rfl ?_
  intro q _ hAlive
  by_contra hUse
  rw [Bool.not_eq_false] at hUse
  rcases hSound q hAlive hUse with ⟨file, hFile, rfl⟩
  simp [allows, hFile, hAlive, hUse] at hAllows

/- A file that names a shell is the file of this shell. -/
theorem sound_owned
    (hSound : state.Sound)
    (hOwner : state.file.bind LockFile.owner = some p) :
    (state.goto p .releasing).Sound := by
  apply sound_goto hSound
  intro _ _
  rcases Option.bind_eq_some_iff.mp hOwner with
    ⟨file, hFile, hFileOwner⟩
  refine ⟨file, hFile, ?_⟩
  unfold LockFile.owner at hFileOwner
  split at hFileOwner
  · exact Option.some.inj hFileOwner
  · cases hFileOwner

/- The shell that releases the lock has the only file. -/
theorem sound_released
    (hSound : state.Sound)
    (hAlive : state.alive p = true)
    (hPhase : state.phase p = .releasing) :
    Sound { state.goto p .idle with file := none } := by
  refine @sound_removed _ _ state p .idle rfl ?_
  intro q hNe hOtherAlive
  by_contra hUse
  rw [Bool.not_eq_false] at hUse
  rcases hSound p hAlive (by rw [hPhase]; rfl) with
    ⟨file, hFile, hCreator⟩
  rcases hSound q hOtherAlive hUse with
    ⟨other, hSame, hOther⟩
  rw [hFile, Option.some.injEq] at hSame
  apply hNe
  rw [← hOther, ← hSame, hCreator]

/- A dead shell uses nothing. -/
theorem sound_died (hSound : state.Sound) :
    Sound { state with
      alive := Function.update state.alive p false } := by
  intro q hAlive hUse
  by_cases hSame : q = p
  · subst hSame
    simp only [Function.update_self] at hAlive
    cases hAlive
  · simp only [Function.update_of_ne hSame] at hAlive
    exact hSound q hAlive hUse

/- Every operation keeps the file with its users. -/
theorem sound_step
    {next : LockState Pid}
    (hSound : state.Sound)
    {act : LockAct Pid}
    (hAllows : state.allows act = true)
    (hStep : state.step act = some next) :
    next.Sound := by
  cases effect_of_step hStep with
  | moves _ p phase hUnused =>
      apply sound_goto hSound
      intro _ hUse
      rw [hUnused] at hUse
      cases hUse
  | creates p hFree => exact sound_created hSound hFree
  | writes p hCreated => exact sound_written hSound hCreated
  | reclaims p => exact sound_reclaimed hSound hAllows
  | owns p hOwner => exact sound_owned hSound hOwner
  | releases p hAlive hReleasing =>
      exact sound_released hSound hAlive hReleasing
  | dies p => exact sound_died hSound

end Sound

/-
  Mutual exclusion: from any state in which no shell is in
  the code of the lock, whatever file has been left, as long
  as no reclaiming shell removes a file in use.
-/
theorem exclusive_of_safeSteps
    {start final : LockState Pid}
    (hIdle : ∀ p, start.phase p = .idle)
    (hRun : Relation.ReflTransGen SafeSteps start final) :
    final.Exclusive := by
  apply exclusive_of_sound
  induction hRun with
  | refl =>
      intro p _ hUse
      rw [hIdle p] at hUse
      cases hUse
  | tail _ hSteps ih =>
      rcases hSteps with ⟨act, hAllows, hStep⟩
      exact sound_step ih hAllows hStep

------------------------------------------------------------
-- Two Runs
------------------------------------------------------------

/-
  A run, given by its operations, as long as they meet a
  condition.
-/
def runActs
    (condition : LockState Pid → LockAct Pid → Bool)
    (state : LockState Pid) :
    List (LockAct Pid) →
    Option (LockState Pid)
| [] => some state
| act :: acts =>
    if condition state act then
      (state.step act).bind (fun next =>
        runActs condition next acts)
    else
      none

theorem reaches_of_runActs
    {condition : LockState Pid → LockAct Pid → Bool}
    {state final : LockState Pid}
    {acts : List (LockAct Pid)}
    (hRun : runActs condition state acts = some final) :
    Relation.ReflTransGen
      (fun state next => ∃ act,
        condition state act = true ∧
          state.step act = some next)
      state final := by
  induction acts generalizing state with
  | nil =>
      cases hRun
      exact Relation.ReflTransGen.refl
  | cons act acts ih =>
      simp only [runActs] at hRun
      split at hRun
      · next hCondition =>
          rcases Option.bind_eq_some_iff.mp hRun with
            ⟨next, hStep, hRest⟩
          exact (ih hRest).head ⟨act, hCondition, hStep⟩
      · cases hRun

end LockState

/- Shells `0`, `1`, and so on, and no file. -/
def freshLock : LockState Nat where
  file := none
  phase := fun _ => .idle
  alive := fun _ => true

/- Shell `1` takes over the lock of shell `0`, which dies. -/
theorem exclusive_reclaimed :
    ∃ final : LockState Nat,
      final.phase 1 = .held ∧ final.Exclusive := by
  have hSome : ((LockState.runActs LockState.allows freshLock
      [.lock 0, .create 0, .write 0, .die 0, .lock 1,
        .create 1, .read 1, .check 1, .reclaim 1, .create 1,
        .write 1]).map (fun state => state.phase 1)) =
      some .held := by
    decide
  rcases Option.map_eq_some_iff.mp hSome with
    ⟨final, hFinal, hHeld⟩
  exact ⟨final, hHeld,
    LockState.exclusive_of_safeSteps (fun _ => rfl)
      (LockState.reaches_of_runActs hFinal)⟩

/-
  The file of shell `0` is still empty when shell `1` reads
  it, so it is removed, and both get the lock.
-/
theorem emptyFile_not_exclusive :
    ¬ ∀ start final : LockState Nat,
      (∀ p, start.phase p = .idle) →
      Relation.ReflTransGen LockState.Steps start final →
      final.Exclusive := by
  intro hAll
  have hSome : ((LockState.runActs (fun _ _ => true) freshLock
      [.lock 0, .create 0, .lock 1, .create 1, .read 1,
        .check 1, .reclaim 1, .create 1, .write 1,
        .write 0]).map (fun state =>
          (state.phase 0, state.alive 0, state.phase 1,
            state.alive 1))) =
      some (.held, true, .held, true) := by
    decide
  rcases Option.map_eq_some_iff.mp hSome with
    ⟨final, hFinal, hBoth⟩
  simp only [Prod.mk.injEq] at hBoth
  have hRun : Relation.ReflTransGen LockState.Steps freshLock
      final := by
    refine Relation.ReflTransGen.mono ?_ _ _
      (LockState.reaches_of_runActs hFinal)
    rintro state next ⟨act, _, hStep⟩
    exact ⟨act, hStep⟩
  have hExclusive := hAll freshLock final (fun _ => rfl) hRun
  exact absurd
    (hExclusive 0 1 hBoth.2.1 hBoth.1 hBoth.2.2.2
      hBoth.2.2.1)
    (by decide)

end Mkrootfs
