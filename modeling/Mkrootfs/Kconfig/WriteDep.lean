import Mkrootfs.Kconfig.ReverseDeps

/-
  The build dependencies that `file_write_dep` (`util.c`)
  writes to `auto.conf.cmd`.

  A configuration gives each symbol the value that is both
  stored and calculated again.

  Main declarations:
    * `Values`, `exprCalcValue`
    * `enabledDirs`, `printBuildDeps`, `depLines`
    * `Emits`
    * `writesCompile_iff`, `writesBuildDeps_iff`
-/

------------------------------------------------------------
-- Values Of Expressions
------------------------------------------------------------

namespace Mkrootfs

/- The tristate and the string value of each symbol. -/
structure Values where
  tri : SymId → Tristate
  str : SymId → Text

/- `expr_calc_value` of an expression that is there. -/
def Expr.calcValue (v : Values) : Expr → Tristate
| .symbol s => v.tri s
| .and e f => (e.calcValue v).and (f.calcValue v)
| .or e f => (e.calcValue v).or (f.calcValue v)
| .not e => (e.calcValue v).not
| .equal s t => if v.str s = v.str t then .yes else .no
| .unequal s t => if v.str s = v.str t then .no else .yes

/- `expr_calc_value`. -/
def exprCalcValue (v : Values) : Option Expr → Tristate
| none => .yes
| some e => e.calcValue v

/-
  The symbols that `expr_print` hands to its callback: one
  without a name only stands to the right of a comparison.
-/
def Expr.printed : Expr → List SymId
| .symbol s => if s.name.isSome then [s] else []
| .not e => e.printed
| .equal s t => (if s.name.isSome then [s] else []) ++ [t]
| .unequal s t => (if s.name.isSome then [s] else []) ++ [t]
| .or e f => e.printed ++ f.printed
| .and e f => e.printed ++ f.printed

/- The same for `NULL`. -/
def optPrinted (e : Option Expr) : List SymId :=
  (e.map Expr.printed).getD []

/- Only symbols of the expression are printed. -/
theorem printed_subset (e : Expr) : e.printed ⊆ e.syms := by
  have hLeft : ∀ s t : SymId,
      (if s.name.isSome then [s] else []) ++ [t] ⊆ [s, t] := by
    intro s t
    split
    · exact List.Subset.refl _
    · exact List.subset_cons_self s [t]
  induction e with
  | symbol s =>
      unfold Expr.printed
      split
      · exact List.Subset.refl _
      · exact List.nil_subset _
  | equal s t => exact hLeft s t
  | unequal s t => exact hLeft s t
  | not e ih => exact ih
  | and e f ihe ihf =>
      exact List.append_subset.mpr
        ⟨List.subset_append_of_subset_left _ ihe,
          List.subset_append_of_subset_right _ ihf⟩
  | or e f ihe ihf =>
      exact List.append_subset.mpr
        ⟨List.subset_append_of_subset_left _ ihe,
          List.subset_append_of_subset_right _ ihf⟩

theorem optPrinted_subset (e : Option Expr) :
    optPrinted e ⊆ optSyms e := by
  cases e with
  | none => exact List.Subset.refl _
  | some e => exact printed_subset e

------------------------------------------------------------
-- Packages
------------------------------------------------------------

namespace Symbol

/- `sym_get_pkg_prop`. -/
def pkgProp (s : Symbol) : Option Property :=
  if s.isPackage then
    s.props.find? (fun p => p.type == .package)
  else
    none

/- `sym_get_srcdir_prop`. -/
def srcdirProp (s : Symbol) : Option Property :=
  if s.isSrcdir then
    s.props.find? (fun p => p.type == .srcdir)
  else
    none

/- `sym->file->dir`. -/
def dir (s : Symbol) : Option Text :=
  s.file.map dirName

end Symbol

/- The directory of a package symbol. -/
def packageDir (s : Symbol) : Option Text :=
  s.pkgProp.bind (fun p => p.file.map dirName)

/- The first loop: the directories it enables. -/
def enabledDirs (t : SymbolTable) (v : Values) : List Text :=
  (t.filter (fun s => s.isVisited && v.tri s.id == .yes)
    ).filterMap packageDir

------------------------------------------------------------
-- Dependency Lines
------------------------------------------------------------

/- The symbols that a property is printed with. -/
def buildTargets (v : Values) (p : Property) : List SymId :=
  match p.type with
  | .buildSelect =>
      if exprCalcValue v p.visible = .no then
        []
      else
        optPrinted p.expr
  | .buildDepends => optPrinted p.expr
  | _ => []

/-
  `print_dir_dep` and `print_pkg_dep`: the directory that is
  printed for a symbol, below a line of the directory `dir`.
-/
def crossDir
    (t : SymbolTable)
    (enabled : List Text)
    (dir : Text)
    (target : SymId) : Option Text :=
  match (getSymbol t target).bind Symbol.dir with
  | none => none
  | some other =>
      if other = [] ∨ other ∉ enabled ∨ dir = other then
        none
      else
        some other

/- A line `A/compile: …` or `A/build-deps += …`. -/
inductive DepLine where
| compile : Text → List Text → DepLine
| buildDeps : Text → List Text → DepLine
deriving DecidableEq, Repr

/- `print_build_deps`. -/
def printBuildDeps
    (t : SymbolTable)
    (v : Values)
    (enabled : List Text)
    (s : Symbol) : List DepLine :=
  match s.dir with
  | none => []
  | some dir =>
      if dir = [] ∨ dir ∉ enabled then
        []
      else
        let dirs :=
          (s.props.flatMap (buildTargets v)).filterMap
            (crossDir t enabled dir)
        if dirs = [] then
          []
        else
          [.compile dir dirs, .buildDeps dir dirs]

/- The symbols of the second loop that reach the printing. -/
def printsBuildDeps (v : Values) (s : Symbol) : Bool :=
  s.isVisited && s.srcdirProp.isNone &&
    (s.type == .boolean || s.type == .tristate) &&
    v.tri s.id != .no

/- The lines of the second loop. -/
def depLines (t : SymbolTable) (v : Values) : List DepLine :=
  (t.filter (printsBuildDeps v)).flatMap
    (printBuildDeps t v (enabledDirs t v))

/- `A/compile` needs `B/staging`. -/
def WritesCompile
    (t : SymbolTable)
    (v : Values)
    (a b : Text) : Prop :=
  ∃ dirs, .compile a dirs ∈ depLines t v ∧ b ∈ dirs

/- `B` is listed in `A/build-deps`. -/
def WritesBuildDeps
    (t : SymbolTable)
    (v : Values)
    (a b : Text) : Prop :=
  ∃ dirs, .buildDeps a dirs ∈ depLines t v ∧ b ∈ dirs

------------------------------------------------------------
-- Where A Line Comes From
------------------------------------------------------------

/- An enabled package in a directory of its own. -/
def IsEnabled
    (t : SymbolTable)
    (v : Values)
    (dir : Text) : Prop :=
  dir ≠ [] ∧ dir ∈ enabledDirs t v

/-
  A property of a symbol of `a` that names a symbol of `b`,
  in a configuration in which it counts.
-/
structure Emits
    (t : SymbolTable)
    (v : Values)
    (s : Symbol)
    (p : Property)
    (target : SymId)
    (a b : Text) : Prop where
  mem : s ∈ t
  prints : printsBuildDeps v s = true
  prop : p ∈ s.props
  named : target ∈ buildTargets v p
  source : s.dir = some a
  found : (getSymbol t target).bind Symbol.dir = some b
  ne : a ≠ b
  enabled : IsEnabled t v a
  needed : IsEnabled t v b

theorem crossDir_eq_some
    {t : SymbolTable}
    {enabled : List Text}
    {dir other : Text}
    {target : SymId} :
    crossDir t enabled dir target = some other ↔
      (getSymbol t target).bind Symbol.dir = some other ∧
        other ≠ [] ∧ other ∈ enabled ∧ dir ≠ other := by
  unfold crossDir
  split
  · next hNone => simp [hNone]
  · next found hSome =>
      rw [hSome]
      split
      · next hSkip =>
          constructor
          · intro h
            cases h
          · rintro ⟨hSame, hRest⟩
            cases hSame
            tauto
      · next hSkip =>
          constructor
          · intro hSame
            cases hSame
            tauto
          · exact fun h => h.1

/- The lines of one symbol. -/
theorem mem_printBuildDeps
    {t : SymbolTable}
    {v : Values}
    {enabled : List Text}
    {s : Symbol}
    {line : DepLine} :
    line ∈ printBuildDeps t v enabled s ↔
      ∃ dir dirs,
        s.dir = some dir ∧ dir ≠ [] ∧ dir ∈ enabled ∧
        dirs = (s.props.flatMap (buildTargets v)).filterMap
          (crossDir t enabled dir) ∧
        dirs ≠ [] ∧
        (line = .compile dir dirs ∨
          line = .buildDeps dir dirs) := by
  unfold printBuildDeps
  split
  · next hNone => simp [hNone]
  · next dir hDir =>
      split
      · next hSkip =>
          constructor
          · intro h
            cases h
          · rintro ⟨other, dirs, hSame, hNe, hIn, _⟩
            rw [hDir] at hSame
            cases hSame
            tauto
      · next hKeep =>
          simp only
          split
          · next hNil =>
              constructor
              · intro h
                cases h
              · rintro ⟨other, dirs, hSame, _, _, rfl, hSome, _⟩
                rw [hDir] at hSame
                cases hSame
                exact absurd hNil hSome
          · next hSome =>
              constructor
              · intro hLine
                exact ⟨dir, _, hDir, fun h => hKeep (Or.inl h),
                  Classical.byContradiction
                    (fun h => hKeep (Or.inr h)),
                  rfl, hSome, by simpa using hLine⟩
              · rintro ⟨other, dirs, hSame, _, _, rfl, _, hLine⟩
                rw [hDir] at hSame
                cases hSame
                simpa using hLine

/- What one symbol prints below its directory. -/
theorem exists_line_iff
    {t : SymbolTable}
    {v : Values}
    {a b : Text}
    (make : Text → List Text → DepLine)
    (hMake : make = .compile ∨ make = .buildDeps) :
    (∃ dirs, make a dirs ∈ depLines t v ∧ b ∈ dirs) ↔
      ∃ s p target, Emits t v s p target a b := by
  have hInj : ∀ {a a' : Text} {dirs dirs' : List Text},
      make a dirs = .compile a' dirs' ∨
        make a dirs = .buildDeps a' dirs' →
      a = a' ∧ dirs = dirs' := by
    intro a a' dirs dirs' hSame
    rcases hMake with rfl | rfl
    · rcases hSame with h | h <;> cases h
      exact ⟨rfl, rfl⟩
    · rcases hSame with h | h <;> cases h
      exact ⟨rfl, rfl⟩
  constructor
  · rintro ⟨dirs, hLine, hb⟩
    rcases List.mem_flatMap.mp hLine with ⟨s, hs, hPrint⟩
    rcases List.mem_filter.mp hs with ⟨hMem, hPrints⟩
    rcases mem_printBuildDeps.mp hPrint with
      ⟨dir, dirs', hDir, hNe, hIn, hDirs, _, hSame⟩
    rcases hInj hSame with ⟨rfl, rfl⟩
    rw [hDirs] at hb
    rcases List.mem_filterMap.mp hb with ⟨target, hT, hCross⟩
    rcases List.mem_flatMap.mp hT with ⟨p, hp, hNamed⟩
    rcases crossDir_eq_some.mp hCross with
      ⟨hFound, hOther, hEnabled, hDiffer⟩
    exact ⟨s, p, target, hMem, hPrints, hp, hNamed, hDir,
      hFound, hDiffer, ⟨hNe, hIn⟩, hOther, hEnabled⟩
  · rintro ⟨s, p, target, hEmits⟩
    have hb : b ∈ (s.props.flatMap (buildTargets v)).filterMap
        (crossDir t (enabledDirs t v) a) :=
      List.mem_filterMap.mpr
        ⟨target,
          List.mem_flatMap.mpr ⟨p, hEmits.prop, hEmits.named⟩,
          crossDir_eq_some.mpr
            ⟨hEmits.found, hEmits.needed.1, hEmits.needed.2,
              hEmits.ne⟩⟩
    refine ⟨_, List.mem_flatMap.mpr ⟨s, List.mem_filter.mpr
      ⟨hEmits.mem, hEmits.prints⟩, ?_⟩, hb⟩
    refine mem_printBuildDeps.mpr ⟨a, _, hEmits.source,
      hEmits.enabled.1, hEmits.enabled.2, rfl,
      List.ne_nil_of_mem hb, ?_⟩
    rcases hMake with rfl | rfl
    · exact Or.inl rfl
    · exact Or.inr rfl

theorem writesCompile_iff
    {t : SymbolTable}
    {v : Values}
    {a b : Text} :
    WritesCompile t v a b ↔
      ∃ s p target, Emits t v s p target a b :=
  exists_line_iff .compile (Or.inl rfl)

theorem writesBuildDeps_iff
    {t : SymbolTable}
    {v : Values}
    {a b : Text} :
    WritesBuildDeps t v a b ↔
      ∃ s p target, Emits t v s p target a b :=
  exists_line_iff .buildDeps (Or.inr rfl)

end Mkrootfs
