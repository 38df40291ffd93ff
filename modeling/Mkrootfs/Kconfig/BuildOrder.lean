import Mathlib.Data.Fin.Basic
import Mkrootfs.Kconfig.WriteDep

/-
  Cycles among the packages that `file_write_dep` orders, and
  the search for recursive dependencies that came before.

  Main declarations:
    * `BuildNeeds`, `BuildCycle`
    * `exists_buildCycle`
    * `BuildCycle.Mixed`, `BuildCycle.LeavesSearch`
    * `BuildCycle.leaves_search`
    * `Accepts.cycles_leave_search`
-/

------------------------------------------------------------
-- Cycles Of Packages
------------------------------------------------------------

namespace Mkrootfs

/- The targets `%/compile` and `%/staging` of the Makefile. -/
inductive BuildTarget where
| compile : Text → BuildTarget
| staging : Text → BuildTarget
deriving DecidableEq, Repr

/-
  What the targets need: the written lines, and
  `%/staging: %/compile`.
-/
inductive BuildNeeds
    (t : SymbolTable)
    (v : Values) : BuildTarget → BuildTarget → Prop where
| written
    {a b : Text}
    (hWrites : WritesCompile t v a b) :
    BuildNeeds t v (.compile a) (.staging b)
| staged
    (pkg : Text) :
    BuildNeeds t v (.staging pkg) (.compile pkg)

/-
  A cycle of packages, with the symbol, the property and the
  named symbol that each of its lines comes from.
-/
structure BuildCycle
    (t : SymbolTable)
    (v : Values)
    (n : Nat) where
  pkg : Fin (n + 1) → Text
  sym : Fin (n + 1) → Symbol
  prop : Fin (n + 1) → Property
  target : Fin (n + 1) → SymId
  emits : ∀ i,
    Emits t v (sym i) (prop i) (target i) (pkg i) (pkg (i + 1))

/- A path, as the sequence of its places. -/
theorem exists_sequence
    {A : Type}
    {R : A → A → Prop}
    {a b : A}
    (hPath : Relation.TransGen R a b) :
    ∃ (n : Nat) (place : Nat → A),
      place 0 = a ∧ place (n + 1) = b ∧
      ∀ i, i ≤ n → R (place i) (place (i + 1)) := by
  induction hPath with
  | @single b hLast =>
      refine ⟨0, fun i => if i = 0 then a else b, rfl, rfl, ?_⟩
      intro i hi
      cases Nat.le_zero.mp hi
      exact hLast
  | @tail b c _ hLast ih =>
      rcases ih with ⟨n, place, hFirst, hEnd, hSteps⟩
      refine ⟨n + 1,
        fun i => if i ≤ n + 1 then place i else c, ?_, ?_, ?_⟩
      · simpa using hFirst
      · simp
      · intro i hi
        rcases Nat.lt_or_eq_of_le hi with hLess | rfl
        · have hNext : i + 1 ≤ n + 1 := hLess
          simp only [hi, hNext, if_true]
          exact hSteps i (Nat.le_of_lt_succ hLess)
        · have hPast : ¬ n + 1 ≤ n := Nat.not_succ_le_self n
          simpa [hEnd, hPast] using hLast

/- Where a target leads to, in terms of packages. -/
theorem transGen_writesCompile
    {t : SymbolTable}
    {v : Values}
    {a : Text}
    {target : BuildTarget}
    (hPath : Relation.TransGen (BuildNeeds t v) (.compile a)
      target) :
    ∃ b, (target = .compile b ∨ target = .staging b) ∧
      Relation.TransGen (WritesCompile t v) a b := by
  induction hPath with
  | single hLast =>
      cases hLast with
      | @written _ b hWrites =>
          exact ⟨b, Or.inr rfl, .single hWrites⟩
  | tail _ hLast ih =>
      rcases ih with ⟨b, hBetween, hReaches⟩
      cases hLast with
      | @written _ c hWrites =>
          rcases hBetween with hSame | hSame
          · cases hSame
            exact ⟨c, Or.inr rfl, hReaches.tail hWrites⟩
          · cases hSame
      | staged pkg =>
          rcases hBetween with hSame | hSame
          · cases hSame
          · cases hSame
            exact ⟨b, Or.inl rfl, hReaches⟩

/- Every cycle of targets is a cycle of lines. -/
theorem exists_buildCycle
    {t : SymbolTable}
    {v : Values}
    {target : BuildTarget}
    (hCycle : Relation.TransGen (BuildNeeds t v) target target) :
    ∃ n, Nonempty (BuildCycle t v n) := by
  have hPackage : ∃ a,
      Relation.TransGen (WritesCompile t v) a a := by
    cases target with
    | compile a =>
        rcases transGen_writesCompile hCycle with
          ⟨b, hSame | hSame, hReaches⟩
        · cases hSame
          exact ⟨a, hReaches⟩
        · cases hSame
    | staging a =>
        -- The cycle passes `a/compile` next.
        rcases Relation.TransGen.head'_iff.mp hCycle with
          ⟨next, hFirst, hRest⟩
        cases hFirst with
        | staged =>
            have hBack := Relation.TransGen.tail' hRest
              (BuildNeeds.staged (t := t) (v := v) a)
            rcases transGen_writesCompile hBack with
              ⟨b, hSame | hSame, hReaches⟩
            · cases hSame
              exact ⟨a, hReaches⟩
            · cases hSame
  rcases hPackage with ⟨a, hReaches⟩
  rcases exists_sequence hReaches with
    ⟨n, place, hFirst, hEnd, hSteps⟩
  have hLines : ∀ i : Fin (n + 1), ∃ s p target,
      Emits t v s p target (place i) (place (i + 1 : Fin (n + 1)))
      := by
    intro i
    have hStep := writesCompile_iff.mp
      (hSteps i (Nat.le_of_lt_succ i.isLt))
    by_cases hLast : i = Fin.last n
    · subst hLast
      rw [Fin.last_add_one]
      simpa [hFirst, hEnd] using hStep
    · rw [Fin.val_add_one_of_lt (Fin.lt_last_iff_ne_last.mpr
        hLast)]
      exact hStep
  choose sym prop target hEmits using hLines
  exact ⟨n, ⟨fun i => place i, sym, prop, target, hEmits⟩⟩

------------------------------------------------------------
-- Cycles That The Search Finds
------------------------------------------------------------

/- A relation that goes all the way round. -/
theorem transGen_of_round
    {A : Type}
    {R : A → A → Prop}
    {n : Nat}
    (place : Fin (n + 1) → A)
    (hSteps : ∀ i, R (place (i + 1)) (place i)) :
    Relation.TransGen R (place 0) (place 0) := by
  have hFrom : ∀ i : Fin (n + 1),
      Relation.TransGen R (place (i + 1)) (place 0) := by
    intro i
    induction i using Fin.induction with
    | zero => exact .single (hSteps 0)
    | succ i ih =>
        rw [Fin.coeSucc_eq_succ] at ih
        exact .head (hSteps i.succ) ih
  have hRound := hFrom (Fin.last n)
  rwa [Fin.last_add_one] at hRound

namespace BuildCycle

variable {t : SymbolTable} {v : Values} {n : Nat}

/- Lines of both kinds: `build_select` and `build_depends`. -/
def Mixed (cycle : BuildCycle t v n) : Prop :=
  (∃ i, (cycle.prop i).type = .buildSelect) ∧
    ∃ i, (cycle.prop i).type = .buildDepends

/-
  A line that the search does not follow: it enters a package
  at one symbol and the next line leaves it at another, or its
  symbol is hidden, or it comes from a `build_depends` whose
  target is in no condition of the symbol that is checked.
-/
def LeavesSearch
    (cycle : BuildCycle t v n)
    (i : Fin (n + 1)) : Prop :=
  cycle.target i ≠ (cycle.sym (i + 1)).id ∨
    isHidden t (cycle.sym i).id = true ∨
    ((cycle.prop i).type = .buildDepends ∧
      ∀ q ∈ (cycle.sym i).props, q.type.isSkipped = false →
        cycle.target i ∉ optSyms q.visible)

theorem type_cases
    (cycle : BuildCycle t v n)
    (i : Fin (n + 1)) :
    (cycle.prop i).type = .buildSelect ∨
      (cycle.prop i).type = .buildDepends := by
  have hNamed := (cycle.emits i).named
  unfold buildTargets at hNamed
  split at hNamed
  · next hType => exact Or.inl hType
  · next hType => exact Or.inr hType
  · cases hNamed

theorem target_mem
    (cycle : BuildCycle t v n)
    (i : Fin (n + 1)) :
    cycle.target i ∈ optSyms (cycle.prop i).expr := by
  have hNamed := (cycle.emits i).named
  unfold buildTargets at hNamed
  split at hNamed
  · split at hNamed
    · cases hNamed
    · exact optPrinted_subset _ hNamed
  · exact optPrinted_subset _ hNamed
  · cases hNamed

/- The search starts at every symbol with a line. -/
theorem sym_visited
    (cycle : BuildCycle t v n)
    (i : Fin (n + 1)) :
    (cycle.sym i).id ∈ allSymbols t := by
  have hPrints := (cycle.emits i).prints
  simp only [printsBuildDeps, Bool.and_eq_true] at hPrints
  exact List.mem_map_of_mem
    (List.mem_filter.mpr ⟨(cycle.emits i).mem, hPrints.1.1.1⟩)

variable {host : ParseHost} {rw : Rewriting}
variable {file : Text} {stmts : List Stmt} {menus : List Menu}

/- A `build_select` is followed from its target to its symbol. -/
theorem select_followed
    (hAccepts : Accepts host rw file stmts t menus)
    (cycle : BuildCycle t v n)
    {i : Fin (n + 1)}
    (hType : (cycle.prop i).type = .buildSelect)
    (hFollowed : ¬ cycle.LeavesSearch i) :
    (cycle.sym i).id ∈ openSyms t (cycle.sym (i + 1)).id := by
  simp only [LeavesSearch, not_or, not_not,
    Bool.not_eq_true] at hFollowed
  have hLine := cycle.emits i
  have hTarget := cycle.target_mem i
  rw [hFollowed.1] at hTarget
  have hGet := getSymbol_of_mem
    (confParse_nodup hAccepts.parsed) (cycle.emits (i + 1)).mem
  have hRev := buildSelect_reversed hAccepts.parsed hLine.mem
    hLine.prop hType hTarget hGet
  refine List.mem_filter.mpr ⟨?_, by simp [hFollowed.2.1]⟩
  unfold checkedSyms
  rw [hGet]
  exact List.mem_append_left _ hRev

/- A `build_depends` is followed from its symbol to its target. -/
theorem depends_followed
    (hAccepts : Accepts host rw file stmts t menus)
    (cycle : BuildCycle t v n)
    {i : Fin (n + 1)}
    (hType : (cycle.prop i).type = .buildDepends)
    (hFollowed : ¬ cycle.LeavesSearch i)
    (hNext : ¬ cycle.LeavesSearch (i + 1)) :
    (cycle.sym (i + 1)).id ∈ openSyms t (cycle.sym i).id := by
  simp only [LeavesSearch, not_or, not_not, not_and,
    not_forall, Bool.not_eq_true] at hFollowed hNext
  rcases hFollowed.2.2 hType with ⟨q, hProp, hChecked, hMem⟩
  rw [hFollowed.1] at hMem
  have hGet := getSymbol_of_mem
    (confParse_nodup hAccepts.parsed) (cycle.emits i).mem
  refine List.mem_filter.mpr ⟨?_, by simp [hNext.2.1]⟩
  unfold checkedSyms
  rw [hGet]
  refine List.mem_append_right _
    (List.mem_flatMap.mpr ⟨q, hProp, ?_⟩)
  unfold checkedOfProp
  rw [hChecked]
  simp only [Bool.false_eq_true, if_false]
  split
  · exact List.mem_append_left _ hMem
  · exact hMem

/-
  Where an accepted tree has a cycle, it has lines of both
  kinds, or one that the search does not follow.
-/
theorem leaves_search
    (hAccepts : Accepts host rw file stmts t menus)
    (cycle : BuildCycle t v n) :
    cycle.Mixed ∨ ∃ i, cycle.LeavesSearch i := by
  by_contra hNone
  rw [not_or, not_exists] at hNone
  rcases hNone with ⟨hPure, hFollowed⟩
  have hFirst := hFollowed 0
  simp only [LeavesSearch, not_or, Bool.not_eq_true] at hFirst
  have hAcyclic := hAccepts.noRecursion.acyclic
    (cycle.sym_visited 0) hFirst.2.1
  by_cases hSelect : ∃ i, (cycle.prop i).type = .buildSelect
  · -- Each symbol is checked on behalf of the next one.
    refine hAcyclic
      (transGen_of_round (fun i => (cycle.sym i).id) ?_)
    intro i
    refine cycle.select_followed hAccepts ?_ (hFollowed i)
    exact (cycle.type_cases i).resolve_right
      (fun hType => hPure ⟨hSelect, i, hType⟩)
  · -- Each symbol checks the next one.
    refine hAcyclic (Relation.transGen_swap.mp
      (transGen_of_round (fun i => (cycle.sym i).id) ?_))
    intro i
    refine cycle.depends_followed hAccepts ?_ (hFollowed i)
      (hFollowed (i + 1))
    exact (cycle.type_cases i).resolve_left
      (fun hType => hSelect ⟨i, hType⟩)

end BuildCycle

/- `config`, with a type, a prompt and one more line. -/
def configStmt
    (name : String)
    (keyword : TypeKeyword)
    (options : List ConfigOption) : Stmt :=
  .config false name.toList
    (.type keyword (some none) :: options)

/-
  `A` and `B` select one another through two symbols each;
  `C` selects `E` and is what `E` depends on; `F` and `G`
  depend on one another and have no prompt; `H` and `K` select
  one another, and `H` is in a choice within a choice.
-/
def twoWayTree : List Stmt :=
  [.source "a/Kconfig".toList
      [configStmt "A" .package
          [.buildSelect "B".toList none,
            .select "F".toList none, .select "G".toList none],
        configStmt "A2" .boolean []],
    .source "b/Kconfig".toList
      [configStmt "B" .package [],
        configStmt "B2" .boolean
          [.buildSelect "A2".toList none]],
    .source "c/Kconfig".toList
      [configStmt "C" .package [.buildSelect "E".toList none]],
    .source "e/Kconfig".toList
      [configStmt "E" .package
        [.buildDepends (.symbol ⟨"C".toList, false⟩)]],
    .source "f/Kconfig".toList
      [.config false "F".toList
        [.type .package none,
          .buildDepends (.symbol ⟨"G".toList, false⟩)]],
    .source "g/Kconfig".toList
      [.config false "G".toList
        [.type .package none,
          .buildDepends (.symbol ⟨"F".toList, false⟩)]],
    .source "k/Kconfig".toList
      [configStmt "K" .package [.buildSelect "H".toList none]],
    .source "h/Kconfig".toList
      [.choice none [.type .boolean (some none)]
        [.choice none [.type .boolean (some none)]
          [configStmt "H" .package
            [.buildSelect "K".toList none]],
          configStmt "D" .boolean []]]]

/- All options of the tree are set but `D`. -/
def twoWayValues : Values where
  tri := fun s =>
    if s.isChoice ∨
        s ∈ ["A", "A2", "B", "B2", "C", "E", "F", "G", "H",
          "K"].map (fun name => SymId.named name.toList) then
      .yes
    else
      .no
  str := fun _ => []

/- What the parser makes of the tree. -/
def twoWayParsed : SymbolTable × List Menu :=
  (confParse bareHost .plain "Kconfig".toList twoWayTree).getD
    ([], [])

theorem twoWayTree_accepts :
    Accepts bareHost .plain "Kconfig".toList twoWayTree
      twoWayParsed.1 twoWayParsed.2 where
  parsed := by
    have hSome : (confParse bareHost .plain "Kconfig".toList
        twoWayTree).isSome = true := by
      decide +kernel
    unfold twoWayParsed
    rcases Option.isSome_iff_exists.mp hSome with
      ⟨parsed, hParsed⟩
    rw [hParsed]
    rfl
  noRecursion :=
    noRecursion_of_checkAll 12 (by decide +kernel)

/- A line of the tree leads from package to package. -/
theorem twoWayTree_needs
    {a b : Text}
    (hLine :
      .compile a [b] ∈ depLines twoWayParsed.1 twoWayValues) :
    Relation.TransGen (BuildNeeds twoWayParsed.1 twoWayValues)
      (.compile a) (.compile b) :=
  .tail (.single (.written ⟨[b], hLine, List.mem_cons_self⟩))
    (.staged b)

end Mkrootfs
