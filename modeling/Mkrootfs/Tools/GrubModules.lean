import Mathlib.Algebra.GroupWithZero.Nat
import Mathlib.Algebra.Order.BigOperators.Group.List
import Mathlib.Algebra.Order.Group.Nat
import Mathlib.Logic.Relation
import Mkrootfs.Build.Recipes

/-
  The modules that `mkefi.sh` puts into a GRUB image: the
  shell function `add_module` and the loop that calls it.

  The function looks a name up with `grep`, which also finds
  it within a longer name, and it reads the line of the
  module that the loop is at, not of the module it was
  called with.

  Main declarations:
    * `ModuleMap`, `ModuleMap.text`
    * `addModule`, `addModules`
    * `addModules_eq`
    * `closesModules_iff`
-/

------------------------------------------------------------
-- The Script
------------------------------------------------------------

namespace Mkrootfs

namespace Mkefi

/- `grep -q $1 $modlist`, for a name of a module. -/
def inModlist (name : Text) (modlist : List Text) : Bool :=
  modlist.any (fun line => name <:+: line)

/- Why a run of the script does not go on. -/
inductive GrubStop
| fuel
| shift
deriving DecidableEq, Repr

/- The words of `grep "^$m:" x86_64-efi/moddep.lst`. -/
def moddepWords (m moddep : Text) : List Text :=
  shellWords (Text.unlines
    ((Text.lines moddep).filter
      (fun line => m ++ [':'] <+: line)))

/-
  `add_module`, with the words of the line that `$m` stands
  for and a bound for the depth of the calls.
-/
def addModule
    (words : List Text) :
    Nat →
    Text →
    List Text →
    Except GrubStop (List Text)
| 0, _, _ => .error .fuel
| fuel + 1, name, modlist =>
    if inModlist name modlist then
      .ok modlist
    else
      match words with
      -- `shift` without arguments ends the script
      | [] => .error .shift
      | _ :: deps =>
          deps.foldlM
            (fun modlist dep =>
              addModule words fuel dep modlist)
            (modlist ++ [name])

/- `for m in $modules` -/
def addModules
    (fuel : Nat)
    (moddep : Text)
    (modules : List Text) : Except GrubStop (List Text) :=
  modules.foldlM
    (fun modlist m =>
      addModule (moddepWords m moddep) fuel m modlist)
    []

------------------------------------------------------------
-- Module Maps
------------------------------------------------------------

/- The letters of module names. -/
def isModuleChar (c : Char) : Bool :=
  c.isAlphanum || c == '_'

def IsModuleName (name : Text) : Prop :=
  name ≠ [] ∧ ∀ c ∈ name, isModuleChar c = true

instance : DecidablePred IsModuleName := fun name =>
  decidable_of_iff
    (name ≠ [] ∧ name.all isModuleChar = true)
    (and_congr_right fun _ => List.all_eq_true)

/-
  The modules with what they depend on, one line for each,
  and the modules that the image starts from.
-/
structure ModuleMap where
  lines : List (Text × List Text)
  keys_nodup : (lines.map Prod.fst).Nodup
  names : ∀ line ∈ lines, IsModuleName line.1 ∧
    ∀ dep ∈ line.2, IsModuleName dep
  closed : ∀ line ∈ lines, ∀ dep ∈ line.2,
    dep ∈ lines.map Prod.fst
  modules : List Text
  modules_listed : ∀ m ∈ modules, m ∈ lines.map Prod.fst

/- A line of `moddep.lst`. -/
def moddepLine (line : Text × List Text) : Text :=
  line.1 ++ ':' :: line.2.flatMap (fun dep => ' ' :: dep)

namespace ModuleMap

variable (g : ModuleMap)

/- `moddep.lst`. -/
def text : Text :=
  Text.unlines (g.lines.map moddepLine)

/- What stands on the line of a module. -/
def deps (m : Text) : List Text :=
  ((g.lines.find? (fun line => line.1 = m)).map
    Prod.snd).getD []

/- The modules that are needed to load those of the list. -/
def Needed (name : Text) : Prop :=
  ∃ m ∈ g.modules,
    Relation.ReflTransGen
      (fun user dep => dep ∈ g.deps user) m name

end ModuleMap

/-
  The script ends, and `modules.list` names the needed
  modules, each once.
-/
def ClosesModules (g : ModuleMap) : Prop :=
  ∃ modlist,
    (∃ enough, ∀ fuel, enough ≤ fuel →
      addModules fuel g.text g.modules = .ok modlist) ∧
    modlist.Nodup ∧
    ∀ name, name ∈ modlist ↔ g.Needed name

------------------------------------------------------------
-- The Lines Of The Map
------------------------------------------------------------

theorem not_isBlank_of_isModuleChar
    {c : Char}
    (hChar : isModuleChar c = true) :
    isBlank c = false ∧ c ≠ ':' := by
  constructor
  · cases hBlank : isBlank c with
    | false => rfl
    | true =>
        exfalso
        simp only [isBlank, Bool.or_eq_true,
          decide_eq_true_eq] at hBlank
        rcases hBlank with (rfl | rfl) | rfl <;>
          revert hChar <;> decide
  · rintro rfl
    revert hChar
    decide

/- The words of a line of words. -/
theorem shellWords_line
    (word : Text)
    (words : List Text)
    (hWords : ∀ one ∈ word :: words,
      one ≠ [] ∧ ∀ c ∈ one, isBlank c = false) :
    shellWords (word ++
        (words.flatMap (fun one => ' ' :: one) ++ ['\n'])) =
      word :: words := by
  induction words generalizing word with
  | nil =>
      have hWord := hWords word List.mem_cons_self
      unfold shellWords
      rw [List.flatMap_nil, List.nil_append,
        List.splitOnP_append_cons_of_forall_mem hWord.2 '\n'
          rfl]
      simp [hWord.1]
  | cons next words ih =>
      have hWord := hWords word List.mem_cons_self
      have hRest := ih next (fun one hMem =>
        hWords one (List.mem_cons_of_mem word hMem))
      unfold shellWords at hRest ⊢
      rw [List.flatMap_cons, List.cons_append,
        List.cons_append,
        List.splitOnP_append_cons_of_forall_mem hWord.2 ' '
          rfl,
        List.filter_cons_of_pos (by simp [hWord.1]),
        List.append_assoc, hRest]

/- Names of modules are words. -/
theorem word_of_isModuleName
    {name : Text}
    (hName : IsModuleName name) :
    name ≠ [] ∧ ∀ c ∈ name, isBlank c = false :=
  ⟨hName.1, fun c hMem =>
    (not_isBlank_of_isModuleChar (hName.2 c hMem)).1⟩

theorem colon_not_mem
    {name : Text}
    (hName : IsModuleName name) :
    ':' ∉ name :=
  fun hMem =>
    (not_isBlank_of_isModuleChar (hName.2 ':' hMem)).2 rfl

/- `grep` finds the line of a module by its beginning. -/
theorem moddepLine_found_iff
    {m : Text}
    {line : Text × List Text}
    (hName : IsModuleName m)
    (hLine : IsModuleName line.1) :
    m ++ [':'] <+: moddepLine line ↔ line.1 = m := by
  constructor
  · rintro ⟨rest, hRest⟩
    have hBefore := congrArg (Text.before ':') hRest
    rw [moddepLine, List.append_assoc, List.singleton_append,
      Text.before_append _ (colon_not_mem hName),
      Text.before_append _ (colon_not_mem hLine)] at hBefore
    exact hBefore.symm
  · rintro rfl
    exact ⟨line.2.flatMap (fun dep => ' ' :: dep), by
      simp [moddepLine]⟩

/- A line has no newline in it. -/
theorem newline_not_mem_moddepLine
    {line : Text × List Text}
    (hNames : IsModuleName line.1 ∧
      ∀ dep ∈ line.2, IsModuleName dep) :
    '\n' ∉ moddepLine line := by
  have hWord : ∀ {name : Text}, IsModuleName name →
      '\n' ∉ name := by
    intro name hName hMem
    have hBlank := (word_of_isModuleName hName).2 '\n' hMem
    cases hBlank
  intro hMem
  simp only [moddepLine, List.mem_append, List.mem_cons,
    List.mem_flatMap] at hMem
  rcases hMem with hMem | hMem | ⟨dep, hDep, hMem | hMem⟩
  · exact hWord hNames.1 hMem
  · revert hMem
    decide
  · revert hMem
    decide
  · exact hWord (hNames.2 dep hDep) hMem

/- A key that occurs once picks one entry. -/
theorem filter_key_eq_singleton
    {lines : List (Text × List Text)}
    (hKeys : (lines.map Prod.fst).Nodup)
    {line : Text × List Text}
    (hMem : line ∈ lines) :
    lines.filter (fun other => other.1 = line.1) =
      [line] := by
  induction lines with
  | nil => cases hMem
  | cons head lines ih =>
      rw [List.map_cons, List.nodup_cons] at hKeys
      rcases List.mem_cons.mp hMem with rfl | hMem
      · rw [List.filter_cons_of_pos (by simp)]
        congr 1
        rw [List.filter_eq_nil_iff]
        intro other hOther hSame
        rw [decide_eq_true_eq] at hSame
        exact hKeys.1 (List.mem_map.mpr
          ⟨other, hOther, hSame⟩)
      · have hNe : head.1 ≠ line.1 := by
          intro hSame
          exact hKeys.1 (List.mem_map.mpr
            ⟨line, hMem, hSame.symm⟩)
        rw [List.filter_cons_of_neg (by simpa using hNe)]
        exact ih hKeys.2 hMem

namespace ModuleMap

variable (g : ModuleMap)

theorem deps_eq
    {line : Text × List Text}
    (hMem : line ∈ g.lines) :
    g.deps line.1 = line.2 := by
  have hOne := filter_key_eq_singleton g.keys_nodup hMem
  unfold deps
  rw [← List.head?_filter, hOne]
  rfl

/- What `set --` is given for a module of the map. -/
theorem moddepWords_eq
    {m : Text}
    (hListed : m ∈ g.lines.map Prod.fst) :
    moddepWords m g.text = (m ++ [':']) :: g.deps m := by
  rcases List.mem_map.mp hListed with ⟨line, hMem, rfl⟩
  have hNames := g.names line hMem
  have hNoNewline : ∀ text ∈ g.lines.map moddepLine,
      '\n' ∉ text := by
    intro text hText
    rcases List.mem_map.mp hText with ⟨other, hOther, rfl⟩
    exact newline_not_mem_moddepLine (g.names other hOther)
  have hFound : (g.lines.map moddepLine).filter
        (fun text => line.1 ++ [':'] <+: text) =
      [moddepLine line] := by
    rw [List.filter_map]
    have hSame : ∀ other ∈ g.lines,
        ((fun text => decide (line.1 ++ [':'] <+: text)) ∘
          moddepLine) other =
        decide (other.1 = line.1) := by
      intro other hOther
      rw [Function.comp_apply, decide_eq_decide]
      exact moddepLine_found_iff hNames.1
        (g.names other hOther).1
    rw [List.filter_congr hSame,
      filter_key_eq_singleton g.keys_nodup hMem]
    rfl
  unfold moddepWords text
  rw [Text.lines_unlines hNoNewline, hFound, g.deps_eq hMem]
  have hWords := shellWords_line (line.1 ++ [':']) line.2 ?_
  · rw [← hWords]
    simp [moddepLine, Text.unlines]
  · intro one hOne
    rcases List.mem_cons.mp hOne with rfl | hOne
    · refine ⟨by simp, ?_⟩
      intro c hChar
      rcases List.mem_append.mp hChar with hChar | hChar
      · exact (word_of_isModuleName hNames.1).2 c hChar
      · rw [List.mem_singleton.mp hChar]
        rfl
    · exact word_of_isModuleName (hNames.2 one hOne)

end ModuleMap

------------------------------------------------------------
-- What The Calls Add
------------------------------------------------------------

/- A name that is looked up, and added if it is not found. -/
def look (modlist : List Text) (name : Text) : List Text :=
  if inModlist name modlist then
    modlist
  else
    modlist ++ [name]

/- A call with the line of the module given. -/
def lookUp
    (deps modlist : List Text)
    (m : Text) : List Text :=
  if inModlist m modlist then
    modlist
  else
    deps.foldl look (modlist ++ [m])

theorem inModlist_of_mem
    {name : Text}
    {modlist : List Text}
    (hMem : name ∈ modlist) :
    inModlist name modlist = true :=
  List.any_eq_true.mpr
    ⟨name, hMem, decide_eq_true (List.infix_refl name)⟩

theorem inModlist_of_subset
    {name : Text}
    {modlist more : List Text}
    (hSubset : modlist ⊆ more)
    (hFound : inModlist name modlist = true) :
    inModlist name more = true := by
  rcases List.any_eq_true.mp hFound with ⟨line, hMem, hLine⟩
  exact List.any_eq_true.mpr ⟨line, hSubset hMem, hLine⟩

theorem subset_look
    (modlist : List Text)
    (name : Text) :
    modlist ⊆ look modlist name := by
  unfold look
  split
  · exact List.Subset.refl _
  · exact List.subset_append_left _ _

theorem subset_foldl_look
    (names modlist : List Text) :
    modlist ⊆ names.foldl look modlist := by
  induction names generalizing modlist with
  | nil => exact List.Subset.refl _
  | cons name names ih =>
      exact List.Subset.trans (subset_look modlist name)
        (ih (look modlist name))

theorem inModlist_look
    (modlist : List Text)
    (name : Text) :
    inModlist name (look modlist name) = true := by
  unfold look
  split
  · next hFound => exact hFound
  · exact inModlist_of_mem (by simp)

/- Afterwards every name is found. -/
theorem inModlist_foldl_look
    {name : Text}
    {names : List Text}
    (hMem : name ∈ names)
    (modlist : List Text) :
    inModlist name (names.foldl look modlist) = true := by
  induction names generalizing modlist with
  | nil => cases hMem
  | cons first names ih =>
      rcases List.mem_cons.mp hMem with rfl | hMem
      · exact inModlist_of_subset (subset_foldl_look names _)
          (inModlist_look modlist name)
      · exact ih hMem (look modlist first)

/- Names that are found change nothing. -/
theorem foldl_look_eq_self
    {names modlist : List Text}
    (hFound : ∀ name ∈ names,
      inModlist name modlist = true) :
    names.foldl look modlist = modlist := by
  induction names with
  | nil => rfl
  | cons name names ih =>
      have hName := hFound name List.mem_cons_self
      rw [List.foldl_cons, look, if_pos hName]
      exact ih (fun other hMem =>
        hFound other (List.mem_cons_of_mem name hMem))

/-
  The loop over the words of a line: a call in it already
  adds the words behind its own.
-/
theorem foldlM_addModule
    {word : Text}
    {deps : List Text}
    {fuel : Nat}
    {start : List Text}
    (hCalls : ∀ dep ∈ deps, ∀ modlist, start ⊆ modlist →
      addModule (word :: deps) fuel dep modlist =
        .ok (lookUp deps modlist dep))
    (before : List Text)
    {rest modlist : List Text}
    (hDeps : deps = before ++ rest)
    (hStart : start ⊆ modlist)
    (hBefore : ∀ dep ∈ before,
      inModlist dep modlist = true) :
    rest.foldlM
        (fun modlist dep =>
          addModule (word :: deps) fuel dep modlist)
        modlist =
      .ok (rest.foldl look modlist) := by
  induction rest generalizing before modlist with
  | nil => rfl
  | cons dep rest ih =>
      have hDep : dep ∈ deps := by
        rw [hDeps]
        simp
      have hNext : deps = (before ++ [dep]) ++ rest := by
        rw [hDeps]
        simp
      rw [List.foldlM_cons, hCalls dep hDep modlist hStart,
        List.foldl_cons]
      by_cases hFound : inModlist dep modlist = true
      · rw [lookUp, look, if_pos hFound, if_pos hFound]
        refine ih (before ++ [dep]) hNext hStart ?_
        intro other hMem
        rcases List.mem_append.mp hMem with hMem | hMem
        · exact hBefore other hMem
        · rw [List.mem_singleton.mp hMem]
          exact hFound
      · rw [lookUp, look, if_neg hFound, if_neg hFound]
        have hGrown : modlist ⊆ modlist ++ [dep] :=
          List.subset_append_left _ _
        have hNone : (before ++ [dep]).foldl look
            (modlist ++ [dep]) = modlist ++ [dep] := by
          apply foldl_look_eq_self
          intro other hMem
          rcases List.mem_append.mp hMem with hMem | hMem
          · exact inModlist_of_subset hGrown
              (hBefore other hMem)
          · rw [List.mem_singleton.mp hMem]
            exact inModlist_of_mem (by simp)
        have hSkip : deps.foldl look (modlist ++ [dep]) =
            rest.foldl look (modlist ++ [dep]) := by
          conv_lhs => rw [hNext, List.foldl_append, hNone]
        rw [hSkip]
        have hAll : ∀ other ∈ before ++ [dep] ++ rest,
            inModlist other
              (rest.foldl look (modlist ++ [dep])) =
            true := by
          intro other hMem
          rw [← hSkip]
          exact inModlist_foldl_look (hNext ▸ hMem) _
        have hKept :
            start ⊆ rest.foldl look (modlist ++ [dep]) :=
          List.Subset.trans hStart
            (List.Subset.trans hGrown
              (subset_foldl_look _ _))
        have hRest := ih (before ++ [dep]) hNext hKept
          (fun other hMem => hAll other
            (List.mem_append_left rest hMem))
        rw [foldl_look_eq_self (fun other hMem =>
          hAll other (List.mem_append_right _ hMem))] at hRest
        exact hRest

/- The words of a line that are not found yet. -/
def missing (deps modlist : List Text) : Nat :=
  deps.countP (fun dep => !inModlist dep modlist)

theorem missing_le_of_subset
    (deps : List Text)
    {modlist more : List Text}
    (hSubset : modlist ⊆ more) :
    missing deps more ≤ missing deps modlist := by
  apply List.countP_mono_left
  intro dep _ hMissing
  rw [Bool.not_eq_true'] at hMissing ⊢
  by_contra hFound
  rw [Bool.not_eq_false] at hFound
  rw [inModlist_of_subset hSubset hFound] at hMissing
  cases hMissing

theorem missing_append_lt
    {deps modlist : List Text}
    {dep : Text}
    (hMem : dep ∈ deps)
    (hMissing : ¬ inModlist dep modlist = true) :
    missing deps (modlist ++ [dep]) <
      missing deps modlist := by
  rcases List.append_of_mem hMem with ⟨front, back, rfl⟩
  have hGrown : modlist ⊆ modlist ++ [dep] :=
    List.subset_append_left _ _
  have hFront := missing_le_of_subset front hGrown
  have hBack := missing_le_of_subset back hGrown
  have hFound : inModlist dep (modlist ++ [dep]) = true :=
    inModlist_of_mem (by simp)
  unfold missing at *
  rw [List.countP_append, List.countP_append,
    List.countP_cons_of_neg (by simp [hFound]),
    List.countP_cons_of_pos (by simpa using hMissing)]
  omega

/-
  A call ends, since each call that adds a word finds fewer
  words missing.
-/
theorem addModule_eq
    {word : Text}
    {deps : List Text}
    {fuel : Nat}
    {name : Text}
    {modlist : List Text}
    (hFuel : missing deps (modlist ++ [name]) + 2 ≤ fuel) :
    addModule (word :: deps) fuel name modlist =
      .ok (lookUp deps modlist name) := by
  induction fuel generalizing name modlist with
  | zero => omega
  | succ fuel ih =>
      unfold addModule lookUp
      split
      · rfl
      · have hCalls : ∀ dep ∈ deps, ∀ more,
            modlist ++ [name] ⊆ more →
            addModule (word :: deps) fuel dep more =
              .ok (lookUp deps more dep) := by
          intro dep hDep more hMore
          by_cases hFound : inModlist dep more = true
          · cases fuel with
            | zero => omega
            | succ fuel =>
                rw [addModule, lookUp, if_pos hFound,
                  if_pos hFound]
          · have hFewer := missing_append_lt hDep hFound
            have hLe := missing_le_of_subset deps hMore
            exact ih (by omega)
        exact foldlM_addModule hCalls [] rfl
          (List.Subset.refl _) (by simp)

namespace ModuleMap

variable (g : ModuleMap)

/- What the loop over the modules leaves. -/
def listed : List Text :=
  g.modules.foldl
    (fun modlist m => lookUp (g.deps m) modlist m) []

/- The script ends for every map of modules. -/
theorem addModules_eq
    {fuel : Nat}
    (hFuel : (g.modules.map
      (fun m => (g.deps m).length)).sum + 2 ≤ fuel) :
    addModules fuel g.text g.modules = .ok g.listed := by
  have hLoop : ∀ modules modlist : List Text,
      (∀ m ∈ modules, m ∈ g.modules) →
      modules.foldlM
          (fun modlist m =>
            addModule (moddepWords m g.text) fuel m modlist)
          modlist =
        .ok (modules.foldl
          (fun modlist m => lookUp (g.deps m) modlist m)
          modlist) := by
    intro modules
    induction modules with
    | nil =>
        intro modlist _
        rfl
    | cons m modules ih =>
        intro modlist hModules
        have hMem := hModules m List.mem_cons_self
        have hRoom : (g.deps m).length ≤
            (g.modules.map
              (fun m => (g.deps m).length)).sum :=
          List.single_le_sum (fun _ _ => Nat.zero_le _) _
            (List.mem_map.mpr ⟨m, hMem, rfl⟩)
        have hMissing : missing (g.deps m) (modlist ++ [m]) ≤
            (g.deps m).length :=
          List.countP_le_length
        rw [List.foldlM_cons,
          g.moddepWords_eq (g.modules_listed m hMem),
          addModule_eq (by omega), List.foldl_cons]
        exact ih _ (fun other hOther =>
          hModules other (List.mem_cons_of_mem m hOther))
  exact hLoop g.modules [] (fun m hMem => hMem)

/-
  The names that the loop is to look up when it has come to
  some modules: the line of a module is skipped if an earlier
  line names it.
-/
def looked : List Text → List Text → List Text
| _, [] => []
| seen, m :: modules =>
    if m ∈ seen then
      looked seen modules
    else
      m :: g.deps m ++
        looked (seen ++ m :: g.deps m) modules

end ModuleMap

/-
  No name is a part of another one that comes earlier than
  its own first place.
-/
def ApartFrom : List Text → List Text → Prop
| _, [] => True
| seen, name :: names =>
    (name ∈ seen ∨ ∀ other ∈ seen, ¬ name <:+: other) ∧
      ApartFrom (seen ++ [name]) names

/-
  Every needed module is one of the list or on the line of
  one of the list, and no name hides another.
-/
structure DirectlyListed (g : ModuleMap) : Prop where
  direct : ∀ name, g.Needed name →
    name ∈ g.looked [] g.modules
  apart : ApartFrom [] (g.looked [] g.modules)

------------------------------------------------------------
-- Names That Are Hidden
------------------------------------------------------------

/- A list and the names it stands for. -/
def SameNames (modlist seen : List Text) : Prop :=
  ∀ name, name ∈ modlist ↔ name ∈ seen

theorem inModlist_eq_true_iff
    {name : Text}
    {modlist : List Text} :
    inModlist name modlist = true ↔
      ∃ other ∈ modlist, name <:+: other := by
  unfold inModlist
  rw [List.any_eq_true]
  simp only [decide_eq_true_eq]

/- What is added later is not yet found. -/
def AddsUnfound (modlist final : List Text) : Prop :=
  modlist ⊆ final ∧
    ∀ name ∈ final, name ∉ modlist →
      ¬ inModlist name modlist = true

theorem addsUnfound_refl
    (modlist : List Text) :
    AddsUnfound modlist modlist :=
  ⟨List.Subset.refl _, fun _ hMem hNot => absurd hMem hNot⟩

theorem AddsUnfound.trans
    {first second third : List Text}
    (hFirst : AddsUnfound first second)
    (hSecond : AddsUnfound second third) :
    AddsUnfound first third := by
  refine ⟨List.Subset.trans hFirst.1 hSecond.1, ?_⟩
  intro name hMem hNot hFound
  by_cases hMid : name ∈ second
  · exact hFirst.2 name hMid hNot hFound
  · exact hSecond.2 name hMem hMid
      (inModlist_of_subset hFirst.1 hFound)

theorem addsUnfound_look
    (modlist : List Text)
    (name : Text) :
    AddsUnfound modlist (look modlist name) := by
  unfold look
  split
  · exact addsUnfound_refl modlist
  · next hFound =>
      refine ⟨List.subset_append_left _ _, ?_⟩
      intro other hMem hNot
      rw [List.mem_append, List.mem_singleton] at hMem
      rw [hMem.resolve_left hNot]
      exact hFound

theorem addsUnfound_foldl_look
    (names modlist : List Text) :
    AddsUnfound modlist (names.foldl look modlist) := by
  induction names generalizing modlist with
  | nil => exact addsUnfound_refl modlist
  | cons name names ih =>
      exact (addsUnfound_look modlist name).trans
        (ih (look modlist name))

theorem addsUnfound_lookUp
    (deps modlist : List Text)
    (m : Text) :
    AddsUnfound modlist (lookUp deps modlist m) := by
  have hLook := addsUnfound_look modlist m
  unfold look at hLook
  unfold lookUp
  split
  · exact addsUnfound_refl modlist
  · next hFound =>
      rw [if_neg hFound] at hLook
      exact hLook.trans (addsUnfound_foldl_look deps _)

theorem addsUnfound_foldl_lookUp
    (g : ModuleMap)
    (modules modlist : List Text) :
    AddsUnfound modlist
      (modules.foldl
        (fun modlist m => lookUp (g.deps m) modlist m)
        modlist) := by
  induction modules generalizing modlist with
  | nil => exact addsUnfound_refl modlist
  | cons m modules ih =>
      exact (addsUnfound_lookUp (g.deps m) modlist m).trans
        (ih _)

/- A name that is apart is added when it is looked up. -/
theorem sameNames_look
    {modlist seen : List Text}
    {name : Text}
    (hSame : SameNames modlist seen)
    (hApart : name ∈ seen ∨
      ∀ other ∈ seen, ¬ name <:+: other) :
    SameNames (look modlist name) (seen ++ [name]) := by
  intro one
  unfold look
  split
  · next hFound =>
      have hMem : name ∈ seen := by
        rcases hApart with hMem | hApart
        · exact hMem
        · rcases inModlist_eq_true_iff.mp hFound with
            ⟨other, hOther, hInfix⟩
          exact absurd hInfix
            (hApart other ((hSame other).mp hOther))
      rw [hSame one, List.mem_append, List.mem_singleton]
      constructor
      · exact Or.inl
      · rintro (hOne | rfl)
        · exact hOne
        · exact hMem
  · rw [List.mem_append, List.mem_append, hSame one]

/- A name that the end result has was not hidden. -/
theorem apart_of_final
    {modlist seen final : List Text}
    {name : Text}
    (hSame : SameNames modlist seen)
    (hAdds : AddsUnfound modlist final)
    (hFinal : name ∈ final) :
    name ∈ seen ∨ ∀ other ∈ seen, ¬ name <:+: other := by
  by_cases hMem : name ∈ seen
  · exact Or.inl hMem
  · right
    intro other hOther hInfix
    exact hAdds.2 name hFinal (mt (hSame name).mp hMem)
      (inModlist_eq_true_iff.mpr
        ⟨other, (hSame other).mpr hOther, hInfix⟩)

theorem sameNames_foldl_look
    {names modlist seen : List Text}
    (hSame : SameNames modlist seen)
    (hApart : ApartFrom seen names) :
    SameNames (names.foldl look modlist) (seen ++ names) := by
  induction names generalizing modlist seen with
  | nil =>
      rw [List.append_nil]
      exact hSame
  | cons name names ih =>
      rcases hApart with ⟨hName, hNames⟩
      have hNext := ih (sameNames_look hSame hName) hNames
      rw [List.append_assoc, List.singleton_append] at hNext
      exact hNext

theorem apartFrom_of_final
    {names modlist seen final : List Text}
    (hSame : SameNames modlist seen)
    (hAdds : AddsUnfound (names.foldl look modlist) final)
    (hFinal : names ⊆ final) :
    ApartFrom seen names := by
  induction names generalizing modlist seen with
  | nil => exact trivial
  | cons name names ih =>
      have hAll : AddsUnfound modlist final :=
        (addsUnfound_foldl_look (name :: names) modlist).trans
          hAdds
      have hName := apart_of_final hSame hAll
        (hFinal List.mem_cons_self)
      exact ⟨hName, ih (sameNames_look hSame hName) hAdds
        (fun other hMem =>
          hFinal (List.mem_cons_of_mem name hMem))⟩

theorem apartFrom_append
    {seen front back : List Text} :
    ApartFrom seen (front ++ back) ↔
      ApartFrom seen front ∧
        ApartFrom (seen ++ front) back := by
  induction front generalizing seen with
  | nil => simp [ApartFrom]
  | cons name front ih =>
      rw [List.cons_append, ApartFrom, ih, ApartFrom,
        and_assoc, List.append_assoc,
        List.singleton_append]

------------------------------------------------------------
-- The Loop Over The Modules
------------------------------------------------------------

/- A module that is not found is looked up with its line. -/
theorem lookUp_of_not_found
    {deps modlist : List Text}
    {m : Text}
    (hFound : ¬ inModlist m modlist = true) :
    lookUp deps modlist m =
      (m :: deps).foldl look modlist := by
  rw [lookUp, if_neg hFound, List.foldl_cons, look,
    if_neg hFound]

namespace ModuleMap

variable (g : ModuleMap)

theorem sameNames_modules
    {modules modlist seen : List Text}
    (hSame : SameNames modlist seen)
    (hApart : ApartFrom seen (g.looked seen modules)) :
    SameNames
      (modules.foldl
        (fun modlist m => lookUp (g.deps m) modlist m)
        modlist)
      (seen ++ g.looked seen modules) := by
  induction modules generalizing modlist seen with
  | nil =>
      rw [looked, List.append_nil]
      exact hSame
  | cons m modules ih =>
      rw [looked] at hApart ⊢
      rw [List.foldl_cons]
      by_cases hMem : m ∈ seen
      · rw [if_pos hMem] at hApart ⊢
        rw [lookUp, if_pos
          (inModlist_of_mem ((hSame m).mpr hMem))]
        exact ih hSame hApart
      · rw [if_neg hMem] at hApart ⊢
        have hFound : ¬ inModlist m modlist = true := by
          intro hFound
          rcases inModlist_eq_true_iff.mp hFound with
            ⟨other, hOther, hInfix⟩
          rcases hApart.1 with hSeen | hNone
          · exact hMem hSeen
          · exact hNone other ((hSame other).mp hOther)
              hInfix
        rcases apartFrom_append.mp hApart with ⟨hLine, hRest⟩
        have hNext := ih (sameNames_foldl_look hSame hLine)
          hRest
        rw [lookUp_of_not_found hFound, ← List.append_assoc]
        exact hNext

theorem apartFrom_of_listed
    {modules modlist seen final : List Text}
    (hSame : SameNames modlist seen)
    (hAdds : AddsUnfound
      (modules.foldl
        (fun modlist m => lookUp (g.deps m) modlist m)
        modlist) final)
    (hFinal : g.looked seen modules ⊆ final) :
    ApartFrom seen (g.looked seen modules) := by
  induction modules generalizing modlist seen with
  | nil => exact trivial
  | cons m modules ih =>
      have hAll : AddsUnfound modlist final :=
        (addsUnfound_foldl_lookUp g (m :: modules)
          modlist).trans hAdds
      rw [looked] at hFinal ⊢
      rw [List.foldl_cons] at hAdds
      by_cases hMem : m ∈ seen
      · rw [if_pos hMem] at hFinal ⊢
        rw [lookUp, if_pos
          (inModlist_of_mem ((hSame m).mpr hMem))] at hAdds
        exact ih hSame hAdds hFinal
      · rw [if_neg hMem] at hFinal ⊢
        have hFound : ¬ inModlist m modlist = true :=
          hAll.2 m (hFinal List.mem_cons_self)
            (mt (hSame m).mp hMem)
        rw [lookUp_of_not_found hFound] at hAdds
        rcases List.append_subset.mp hFinal with
          ⟨hLine, hRest⟩
        have hApart := apartFrom_of_final hSame
          ((addsUnfound_foldl_lookUp g modules _).trans hAdds)
          hLine
        rw [apartFrom_append]
        exact ⟨hApart, ih (sameNames_foldl_look hSame hApart)
          hAdds hRest⟩

/- The line of a module names what it needs. -/
theorem needed_of_line
    {m name : Text}
    (hMem : m ∈ g.modules)
    (hName : name ∈ m :: g.deps m) :
    g.Needed name := by
  refine ⟨m, hMem, ?_⟩
  rcases List.mem_cons.mp hName with rfl | hName
  · exact Relation.ReflTransGen.refl
  · exact Relation.ReflTransGen.single hName

theorem needed_of_looked
    {seen modules : List Text}
    (hModules : modules ⊆ g.modules)
    {name : Text}
    (hName : name ∈ g.looked seen modules) :
    g.Needed name := by
  induction modules generalizing seen with
  | nil => cases hName
  | cons m modules ih =>
      rcases List.cons_subset.mp hModules with ⟨hMem, hRest⟩
      unfold looked at hName
      split at hName
      · exact ih hRest hName
      · rcases List.mem_append.mp hName with hName | hName
        · exact g.needed_of_line hMem hName
        · exact ih hRest hName

theorem mem_foldl_look
    {names modlist : List Text}
    {name : Text}
    (hName : name ∈ names.foldl look modlist) :
    name ∈ modlist ∨ name ∈ names := by
  induction names generalizing modlist with
  | nil => exact Or.inl hName
  | cons first names ih =>
      rcases ih hName with hLook | hMem
      · unfold look at hLook
        split at hLook
        · exact Or.inl hLook
        · rcases List.mem_append.mp hLook with hOld | hNew
          · exact Or.inl hOld
          · rw [List.mem_singleton.mp hNew]
            exact Or.inr List.mem_cons_self
      · exact Or.inr (List.mem_cons_of_mem first hMem)

/- Only needed modules are listed. -/
theorem needed_of_listed
    {name : Text}
    (hName : name ∈ g.listed) :
    g.Needed name := by
  have hLoop : ∀ modules modlist : List Text,
      modules ⊆ g.modules →
      name ∈ modules.foldl
        (fun modlist m => lookUp (g.deps m) modlist m)
        modlist →
      name ∈ modlist ∨ g.Needed name := by
    intro modules
    induction modules with
    | nil => exact fun modlist _ hMem => Or.inl hMem
    | cons m modules ih =>
        intro modlist hModules hMem
        rcases List.cons_subset.mp hModules with
          ⟨hFirst, hRest⟩
        rw [List.foldl_cons] at hMem
        rcases ih _ hRest hMem with hLookUp | hNeeded
        · by_cases hFound : inModlist m modlist = true
          · rw [lookUp, if_pos hFound] at hLookUp
            exact Or.inl hLookUp
          · rw [lookUp_of_not_found hFound] at hLookUp
            rcases mem_foldl_look hLookUp with hOld | hLine
            · exact Or.inl hOld
            · exact Or.inr (g.needed_of_line hFirst hLine)
        · exact Or.inr hNeeded
  rcases hLoop g.modules [] (List.Subset.refl _) hName with
    hNil | hNeeded
  · cases hNil
  · exact hNeeded

/- No name is listed twice. -/
theorem nodup_listed : g.listed.Nodup := by
  have hLook : ∀ names modlist : List Text,
      modlist.Nodup → (names.foldl look modlist).Nodup := by
    intro names
    induction names with
    | nil => exact fun _ hNodup => hNodup
    | cons name names ih =>
        intro modlist hNodup
        refine ih _ ?_
        unfold look
        split
        · exact hNodup
        · next hFound =>
            have hNew : name ∉ modlist :=
              fun hMem => hFound (inModlist_of_mem hMem)
            exact List.nodup_append.mpr
              ⟨hNodup, List.nodup_singleton name, by
                rintro one hOne other hOther rfl
                rw [List.mem_singleton.mp hOther] at hOne
                exact hNew hOne⟩
  have hLoop : ∀ modules modlist : List Text,
      modlist.Nodup →
      (modules.foldl
        (fun modlist m => lookUp (g.deps m) modlist m)
        modlist).Nodup := by
    intro modules
    induction modules with
    | nil => exact fun _ hNodup => hNodup
    | cons m modules ih =>
        intro modlist hNodup
        refine ih _ ?_
        dsimp only
        by_cases hFound : inModlist m modlist = true
        · rw [lookUp, if_pos hFound]
          exact hNodup
        · rw [lookUp_of_not_found hFound]
          exact hLook _ _ hNodup
  exact hLoop g.modules [] List.nodup_nil

/- What the script leaves once its calls may be deep enough. -/
theorem eq_listed
    {modlist : List Text}
    (hRun : ∃ enough, ∀ fuel, enough ≤ fuel →
      addModules fuel g.text g.modules = .ok modlist) :
    modlist = g.listed := by
  rcases hRun with ⟨enough, hEnough⟩
  have hBoth := hEnough
    (max enough ((g.modules.map
      (fun m => (g.deps m).length)).sum + 2))
    (le_max_left _ _)
  rw [g.addModules_eq (le_max_right _ _)] at hBoth
  exact (Except.ok.inj hBoth).symm

end ModuleMap

/-
  The script always ends.  The list is the closure exactly
  when no needed module is further away than the line of a
  module of the list, and no name hides another.
-/
theorem closesModules_iff
    (g : ModuleMap) :
    ClosesModules g ↔ DirectlyListed g := by
  have hStart : SameNames [] [] := fun _ => Iff.rfl
  constructor
  · rintro ⟨modlist, hRun, -, hClosure⟩
    rw [g.eq_listed hRun] at hClosure
    have hLooked : g.looked [] g.modules ⊆ g.listed :=
      fun name hName => (hClosure name).mpr
        (g.needed_of_looked (List.Subset.refl _) hName)
    have hApart := g.apartFrom_of_listed hStart
      (addsUnfound_refl g.listed) hLooked
    refine ⟨?_, hApart⟩
    intro name hNeeded
    exact (g.sameNames_modules hStart hApart name).mp
      ((hClosure name).mpr hNeeded)
  · rintro ⟨hDirect, hApart⟩
    have hSame := g.sameNames_modules hStart hApart
    refine ⟨g.listed, ⟨_, fun _ => g.addModules_eq⟩,
      g.nodup_listed, ?_⟩
    intro name
    refine ⟨g.needed_of_listed, fun hNeeded => ?_⟩
    exact (hSame name).mpr (hDirect name hNeeded)

/- Each module needs the next one. -/
def chainOfModules : ModuleMap where
  lines :=
    [("normal".toList, ["terminal".toList]),
      ("terminal".toList, ["extcmd".toList]),
      ("extcmd".toList, [])]
  keys_nodup := by decide
  names := by decide
  closed := by decide
  modules := ["normal".toList]
  modules_listed := by decide

/- The second step is not taken. -/
theorem chainOfModules_not_closed :
    addModules 10 chainOfModules.text
        chainOfModules.modules =
      .ok ["normal".toList, "terminal".toList] ∧
      ¬ ClosesModules chainOfModules := by
  refine ⟨by decide +kernel, ?_⟩
  rintro ⟨modlist, hRun, -, hClosure⟩
  rw [chainOfModules.eq_listed hRun] at hClosure
  have hNeeded : chainOfModules.Needed "extcmd".toList := by
    refine ⟨"normal".toList, by decide, ?_⟩
    refine Relation.ReflTransGen.head
      (b := "terminal".toList) ?_
      (Relation.ReflTransGen.single ?_)
    · decide +kernel
    · decide +kernel
  have hMem := (hClosure _).mpr hNeeded
  revert hMem
  decide +kernel

end Mkefi

end Mkrootfs
