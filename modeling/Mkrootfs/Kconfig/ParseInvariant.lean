import Mathlib.Data.Set.Insert
import Mkrootfs.Kconfig.MenuFinalize

/-
  How a property of the symbols and the entries survives a
  whole parse: it is enough that it survives a lookup, a
  change of a symbol, a `build_select` line and the start of
  an entry.

  Main declarations:
    * `MenuEntry`, `entriesOf`
    * `ParseInvariant`
    * `ParseInvariant.parseTree`
-/

------------------------------------------------------------
-- Entries
------------------------------------------------------------

namespace Mkrootfs

inductive EntryKind where
| config
| menuconfig
| choice
deriving DecidableEq, Repr

/- An entry of the menu that has a symbol. -/
structure MenuEntry where
  id : Nat
  sym : SymId
  file : Text
  kind : EntryKind
deriving DecidableEq, Repr

/- `config` and `menuconfig`. -/
def entryKind (isMenu : Bool) : EntryKind :=
  if isMenu then .menuconfig else .config

/- A menu as an entry. -/
def Menu.entry : Menu → List MenuEntry
| .config id sym file isMenu _ =>
    [⟨id, sym, file, entryKind isMenu⟩]
| .choice id sym file _ _ => [⟨id, sym, file, .choice⟩]
| .menu _ _ _ => []
| .ifBlock _ _ _ => []

mutual

/- The entries below a menu. -/
def Menu.inner : Menu → List MenuEntry
| .config _ _ _ _ _ => []
| .choice _ _ _ _ list => entriesOf list
| .menu _ _ list => entriesOf list
| .ifBlock _ _ list => entriesOf list

/- The entries of a list of menus, at any depth. -/
def entriesOf : List Menu → List MenuEntry
| [] => []
| m :: list => m.entry ++ m.inner ++ entriesOf list

end

theorem entriesOf_append (first second : List Menu) :
    entriesOf (first ++ second) =
      entriesOf first ++ entriesOf second := by
  induction first with
  | nil => rfl
  | cons m first ih =>
      simp [entriesOf, ih]

------------------------------------------------------------
-- Invariants
------------------------------------------------------------

/- The symbols of a property have names. -/
def Property.IsNamed (p : Property) : Prop :=
  ∀ sym ∈ optSyms p.expr, sym.name.isSome = true

/-
  A change of a symbol other than a `build_select` line.  No
  property `build_select` is new, and each `select` stays.
-/
structure PlainChange (f : Symbol → Symbol) : Prop where
  id : ∀ s, (f s).id = s.id
  file : ∀ s, (f s).file = s.file
  buildSelect : ∀ s, ∀ p ∈ (f s).props,
    p.type = .buildSelect → p ∈ s.props
  buildDepends : ∀ s, ∀ p ∈ (f s).props,
    p.type = .buildDepends → p ∈ s.props ∨ p.IsNamed
  select : ∀ s, ∀ p ∈ s.props,
    p.type = .select → p ∈ (f s).props

/- The two properties of a line `build_select`. -/
def buildSelectProps
    (file : Text)
    (menu : Nat)
    (target : SymId)
    (visible : Option Expr) : List Property :=
  [⟨.buildSelect, visible, some (.symbol target), some menu,
      some file⟩,
    ⟨.select, visible, some (.symbol target), some menu,
      some file⟩]

/- The properties of a symbol, with some more at the end. -/
def appendProps (ps : List Property) (s : Symbol) : Symbol :=
  { s with props := s.props ++ ps }

/- The symbols after the start of an entry. -/
def enterConfig
    (file : Text)
    (isMenu : Bool)
    (name : Text)
    (t : SymbolTable) : SymbolTable :=
  modifySymbol (symLookup t name .plain (some file)).1
    (symLookupId name .plain) (fun s =>
      { s with
        optional := true
        file := if isMenu then s.file else some file })

/-
  What a property of the symbols, the number of nameless
  choices and the entries so far has to survive.
-/
structure ParseInvariant
    (Inv : SymbolTable → Nat → Set MenuEntry → Prop) :
    Prop where
  start : Inv builtinSymbols 0 ∅
  modules : ∀ {t n known} file,
    (∀ s ∈ t, s.id ≠ .modules) → Inv t n known →
    Inv (modulesSymbol file :: t) n known
  lookup : ∀ {t n known} name cls file,
    cls ≠ .choice → Inv t n known →
    Inv (symLookup t name cls file).1 n known
  change : ∀ {t n known} sym f,
    PlainChange f → Inv t n known →
    Inv (modifySymbol t sym f) n known
  buildSelect : ∀ {t n known} entry file target visible,
    target.name.isSome = true →
    entry ∈ known → Inv t n known →
    Inv (modifySymbol t entry.sym
      (appendProps (buildSelectProps file entry.id target
        visible))) n known
  config : ∀ {t n known} id file isMenu name,
    Inv t n known →
    Inv (enterConfig file isMenu name t) n
      (insert ⟨id, symLookupId name .plain, file,
        entryKind isMenu⟩ known)
  choice : ∀ {t n known} id file name,
    Inv t n known →
    Inv (symLookup t name .choice (some file)).1 n
      (insert ⟨id, symLookupId name .choice, file, .choice⟩
        known)
  anonymous : ∀ {t n known} id file,
    Inv t n known →
    Inv (Symbol.alloc (.choice (.anonymous n)) (some file) ::
        t) (n + 1)
      (insert ⟨id, .choice (.anonymous n), file, .choice⟩
        known)

/- A change that keeps the properties as they are. -/
theorem PlainChange.of_props
    {f : Symbol → Symbol}
    (hId : ∀ s, (f s).id = s.id)
    (hFile : ∀ s, (f s).file = s.file)
    (hProps : ∀ s, (f s).props = s.props) :
    PlainChange f := by
  refine ⟨hId, hFile, ?_, ?_, ?_⟩
  · intro s p hp _
    rwa [hProps] at hp
  · intro s p hp _
    rw [hProps] at hp
    exact Or.inl hp
  · intro s p hp _
    rwa [hProps]

/- A property that is no line `build_select`. -/
structure PlainProp (p : Property) : Prop where
  type : p.type ≠ .buildSelect
  named : p.type = .buildDepends → p.IsNamed

/- Another property at the end. -/
theorem PlainChange.appendProps
    {p : Property}
    (hPlain : PlainProp p) :
    PlainChange (appendProps [p]) := by
  refine ⟨fun _ => rfl, fun _ => rfl, ?_, ?_, ?_⟩
  · intro s q hq hBuild
    rcases List.mem_append.mp hq with hOld | hNew
    · exact hOld
    · rw [List.mem_singleton.mp hNew] at hBuild
      exact absurd hBuild hPlain.type
  · intro s q hq hBuild
    rcases List.mem_append.mp hq with hOld | hNew
    · exact Or.inl hOld
    · rw [List.mem_singleton.mp hNew] at hBuild ⊢
      exact Or.inr (hPlain.named hBuild)
  · intro s q hq _
    exact List.mem_append_left _ hq

/- `menuconfig` changes prompts only. -/
theorem mem_markLastPrompt
    {menu : Nat}
    {p : Property}
    {ps : List Property}
    (hType : p.type = .select ∨ p.type = .buildSelect ∨
      p.type = .buildDepends) :
    p ∈ markLastPrompt menu ps ↔ p ∈ ps := by
  induction ps with
  | nil => rfl
  | cons q ps ih =>
      unfold markLastPrompt
      split
      · next hPrompt =>
          have hq : q.type = .prompt := by
            simp only [Property.isPromptOf, Bool.and_eq_true,
              beq_iff_eq] at hPrompt
            exact hPrompt.1.1
          have hNe : p ≠ q := by
            rintro rfl
            simp [hq] at hType
          have hNeMenu : p ≠ { q with type := .menu } := by
            rintro rfl
            simp at hType
          simp [hNe, hNeMenu]
      · simp [ih]

theorem PlainChange.markLastPrompt (menu : Nat) :
    PlainChange (fun s =>
      { s with props := markLastPrompt menu s.props }) :=
  ⟨fun _ => rfl, fun _ => rfl,
    fun _ _ hp hType =>
      (mem_markLastPrompt (Or.inr (Or.inl hType))).mp hp,
    fun _ _ hp hType => Or.inl
      ((mem_markLastPrompt (Or.inr (Or.inr hType))).mp hp),
    fun _ _ hp hType =>
      (mem_markLastPrompt (Or.inl hType)).mpr hp⟩

------------------------------------------------------------
-- Actions
------------------------------------------------------------

namespace ParseInvariant

variable {Inv : SymbolTable → Nat → Set MenuEntry → Prop}
variable {known : Set MenuEntry}

/- The invariant, of a state of the parser. -/
def Holds
    (Inv : SymbolTable → Nat → Set MenuEntry → Prop)
    (known : Set MenuEntry)
    (st : ParseState) : Prop :=
  Inv st.symbols st.nextChoice known

theorem lookupState
    (hInv : ParseInvariant Inv)
    (file : Option Text)
    (name : Text)
    (cls : LookupClass)
    (hCls : cls ≠ .choice)
    {st : ParseState}
    (hSt : Holds Inv known st) :
    Holds Inv known (st.lookup file name cls) :=
  hInv.lookup name cls file hCls hSt

theorem lookupWords
    (hInv : ParseInvariant Inv)
    (file : Option Text)
    (ws : List Word)
    {st : ParseState}
    (hSt : Holds Inv known st) :
    Holds Inv known (st.lookupWords file ws) := by
  unfold ParseState.lookupWords
  induction ws generalizing st with
  | nil => exact hSt
  | cons w ws ih =>
      refine ih (hInv.lookupState file w.text w.lookupClass ?_
        hSt)
      unfold Word.lookupClass
      split <;> decide

theorem lookupIf
    (hInv : ParseInvariant Inv)
    (file : Option Text)
    (cond : IfExpr)
    {st : ParseState}
    (hSt : Holds Inv known st) :
    Holds Inv known (st.lookupIf file cond) := by
  unfold ParseState.lookupIf
  cases cond with
  | none => exact hSt
  | some e => exact hInv.lookupWords file e.words hSt

theorem propAlloc
    (hInv : ParseInvariant Inv)
    (sym : SymId)
    {p : Property}
    (hPlain : PlainProp p)
    {st : ParseState}
    (hSt : Holds Inv known st) :
    Holds Inv known (st.propAlloc sym p) :=
  hInv.change sym _ (.appendProps hPlain) hSt

theorem menuAddProp
    (hInv : ParseInvariant Inv)
    (file : Text)
    (menu : Nat)
    (sym : SymId)
    {type : PropType}
    (hType : type ≠ .buildSelect ∧ type ≠ .buildDepends)
    (expr : Option Expr)
    (dep : IfExpr)
    {st : ParseState}
    (hSt : Holds Inv known st) :
    Holds Inv known
      (st.menuAddProp file menu sym type expr dep) :=
  hInv.propAlloc sym
    ⟨hType.1, fun hBuild => absurd hBuild hType.2⟩ hSt

/- Changes that only concern flags and types. -/
theorem modifyFlags
    (hInv : ParseInvariant Inv)
    (sym : SymId)
    {f : Symbol → Symbol}
    (hId : ∀ s, (f s).id = s.id)
    (hFile : ∀ s, (f s).file = s.file)
    (hProps : ∀ s, (f s).props = s.props)
    {st : ParseState}
    (hSt : Holds Inv known st) :
    Holds Inv known (st.modify sym f) :=
  hInv.change sym f (.of_props hId hFile hProps) hSt

theorem menuSetType
    (hInv : ParseInvariant Inv)
    (file : Text)
    (sym : SymId)
    (keyword : TypeKeyword)
    {st : ParseState}
    (hSt : Holds Inv known st) :
    Holds Inv known (st.menuSetType file sym keyword) := by
  unfold ParseState.menuSetType
  simp only
  refine hInv.modifyFlags sym ?_ ?_ ?_ ?_
  · intro s; split <;> rfl
  · intro s; split <;> rfl
  · intro s; split <;> rfl
  · cases keyword with
    | package =>
        exact hInv.modifyFlags sym
          (f := fun s => { s with isPackage := true })
          (fun _ => rfl) (fun _ => rfl) (fun _ => rfl)
          (hInv.propAlloc sym
            (p := ⟨.package, none, none, none, some file⟩)
            ⟨by simp, by simp⟩ hSt)
    | srcdir =>
        exact hInv.modifyFlags sym
          (f := fun s => { s with isSrcdir := true })
          (fun _ => rfl) (fun _ => rfl) (fun _ => rfl)
          (hInv.propAlloc sym
            (p := ⟨.srcdir, none, none, none, some file⟩)
            ⟨by simp, by simp⟩ hSt)
    | boolean | tristate | int | hex | string => exact hSt

theorem symAddDefault
    (hInv : ParseInvariant Inv)
    (file : Option Text)
    (sym : SymId)
    (value : Text)
    {st : ParseState}
    (hSt : Holds Inv known st) :
    Holds Inv known (st.symAddDefault file sym value) :=
  hInv.lookupState file value .const (by decide)
    (hInv.propAlloc sym ⟨by simp, by simp⟩ hSt)

theorem propAddEnv
    (hInv : ParseInvariant Inv)
    (host : ParseHost)
    (file : Text)
    (sym : SymId)
    (name : Text)
    {st : ParseState}
    (hSt : Holds Inv known st) :
    Holds Inv known (st.propAddEnv host file sym name) := by
  have hFlagged : Holds Inv known
      (st.modify sym (fun s => { s with auto := true })) :=
    hInv.modifyFlags sym
      (f := fun s => { s with auto := true })
      (fun _ => rfl) (fun _ => rfl) (fun _ => rfl) hSt
  unfold ParseState.propAddEnv
  simp only
  split
  · exact hFlagged
  · split
    · exact hFlagged
    · have hAdded := hInv.lookupState (some file) name .const
        (by decide)
        (hInv.propAlloc sym (p := ⟨.env, none,
          some (.symbol (symLookupId name .const)), none,
          some file⟩) ⟨by simp, by simp⟩ hFlagged)
      split
      · exact hAdded
      · exact hInv.symAddDefault (some file) sym _ hAdded

theorem addPrompt
    (hInv : ParseInvariant Inv)
    (file : Text)
    (menu : Nat)
    (sym : SymId)
    (cond : IfExpr)
    {st : ParseState}
    (hSt : Holds Inv known st) :
    Holds Inv known (addPrompt file menu sym cond st) :=
  hInv.menuAddProp file menu sym (by decide) none cond
    (hInv.lookupIf (some file) cond hSt)

theorem addDepends
    (hInv : ParseInvariant Inv)
    (file : Text)
    (e : WordExpr)
    {st : ParseState}
    (hSt : Holds Inv known st) :
    Holds Inv known (addDepends file e st) :=
  hInv.lookupWords (some file) e.words hSt

theorem addBuildDepends
    (hInv : ParseInvariant Inv)
    (file : Text)
    (menu : Nat)
    (sym : SymId)
    (e : WordExpr)
    {st : ParseState}
    (hSt : Holds Inv known st) :
    Holds Inv known
      (addBuildDepends file menu sym e st) := by
  refine hInv.propAlloc sym ⟨by simp, ?_⟩
    (hInv.lookupWords (some file) e.words hSt)
  intro _ other hOther
  have hWords : other ∈ e.words.map Word.id := by
    rw [← WordExpr.toExpr_syms]
    exact hOther
  rcases List.mem_map.mp hWords with ⟨w, _, rfl⟩
  exact Option.isSome_iff_exists.mpr
    ⟨w.text, symLookupId_name w.text w.lookupClass⟩

/- The two properties of `build_select` are added as one. -/
theorem menuAddBuildSelect
    (hInv : ParseInvariant Inv)
    {entry : MenuEntry}
    (hEntry : entry ∈ known)
    (file target : Text)
    (cond : IfExpr)
    {st : ParseState}
    (hSt : Holds Inv known st) :
    Holds Inv known
      ((st.menuAddProp file entry.id entry.sym .buildSelect
        (some (.symbol (symLookupId target .plain)))
        cond).menuAddProp file entry.id entry.sym .select
          (some (.symbol (symLookupId target .plain)))
          cond) := by
  have hBoth := hInv.buildSelect entry file
    (symLookupId target .plain)
    (cond.map (fun e => menuCheckDep e.toExpr))
    (Option.isSome_iff_exists.mpr
      ⟨target, symLookupId_name target .plain⟩) hEntry hSt
  unfold Holds ParseState.menuAddProp ParseState.propAlloc
    ParseState.modify
  simp only
  rw [modifySymbol_modifySymbol]
  · simp only [List.append_assoc, List.singleton_append]
    exact hBoth
  · exact fun _ hSame => hSame

/- A prompt that may be missing. -/
theorem promptOpt
    (hInv : ParseInvariant Inv)
    (file : Text)
    (menu : Nat)
    (sym : SymId)
    (prompt : Option IfExpr)
    {st : ParseState}
    (hSt : Holds Inv known st) :
    Holds Inv known
      (match prompt with
        | none => st
        | some cond => Mkrootfs.addPrompt file menu sym cond st) := by
  cases prompt with
  | none => exact hSt
  | some cond => exact hInv.addPrompt file menu sym cond hSt

theorem configOption
    (hInv : ParseInvariant Inv)
    (host : ParseHost)
    {entry : MenuEntry}
    (hEntry : entry ∈ known)
    (file : Text)
    (option : ConfigOption)
    {st : ParseState}
    (hSt : Holds Inv known st) :
    Holds Inv known
      (configOption host file entry.id entry.sym st option) := by
  cases option with
  | type keyword prompt =>
      exact hInv.menuSetType file entry.sym keyword
        (hInv.promptOpt file entry.id entry.sym prompt hSt)
  | prompt cond =>
      exact hInv.addPrompt file entry.id entry.sym cond hSt
  | default keyword value cond =>
      have hType : PropType.default ≠ .buildSelect ∧
          PropType.default ≠ .buildDepends := by
        decide
      have hAdded := hInv.menuAddProp file entry.id entry.sym
        hType (some value.toExpr) cond
        (hInv.lookupIf (some file) cond
          (hInv.lookupWords (some file) value.words hSt))
      cases keyword with
      | none => exact hAdded
      | some keyword =>
          exact hInv.menuSetType file entry.sym keyword hAdded
  | select target cond =>
      exact hInv.menuAddProp file entry.id entry.sym
        (by decide) _ cond
        (hInv.lookupState (some file) target .plain (by decide)
          (hInv.lookupIf (some file) cond hSt))
  | buildSelect target cond =>
      exact hInv.menuAddBuildSelect hEntry file target cond
        (hInv.lookupState (some file) target .plain (by decide)
          (hInv.lookupIf (some file) cond hSt))
  | range low high cond =>
      exact hInv.menuAddProp file entry.id entry.sym
        (by decide) none cond
        (hInv.lookupIf (some file) cond
          (hInv.lookupWords (some file) [low, high] hSt))
  | modules => exact hInv.propAlloc .modules ⟨by simp, by simp⟩ hSt
  | defconfigList =>
      unfold Mkrootfs.configOption
      simp only
      split
      · exact hSt
      · split
        · exact hSt
        · exact hSt
  | env name =>
      exact hInv.propAddEnv host file entry.sym name hSt
  | depends e => exact hInv.addDepends file e hSt
  | buildDepends e =>
      exact hInv.addBuildDepends file entry.id entry.sym e hSt

theorem choiceOption
    (hInv : ParseInvariant Inv)
    (file : Text)
    (menu : Nat)
    (sym : SymId)
    (option : ChoiceOption)
    {st : ParseState}
    (hSt : Holds Inv known st) :
    Holds Inv known (choiceOption file menu sym st option) := by
  cases option with
  | type keyword prompt =>
      have hPrompted := hInv.promptOpt file menu sym prompt hSt
      cases keyword with
      | boolean =>
          exact hInv.menuSetType file sym .boolean hPrompted
      | tristate =>
          exact hInv.menuSetType file sym .tristate hPrompted
      | int | hex | string | package | srcdir =>
          exact hPrompted
  | prompt cond => exact hInv.addPrompt file menu sym cond hSt
  | optional =>
      exact hInv.modifyFlags sym
        (f := fun s => { s with optional := true })
        (fun _ => rfl) (fun _ => rfl) (fun _ => rfl) hSt
  | default target cond =>
      exact hInv.menuAddProp file menu sym (by decide) _ cond
        (hInv.lookupState (some file) target .plain (by decide)
          (hInv.lookupIf (some file) cond hSt))
  | depends e => exact hInv.addDepends file e hSt
  | buildDepends e =>
      exact hInv.addBuildDepends file menu sym e hSt

theorem dependsLines
    (hInv : ParseInvariant Inv)
    (file : Text)
    (lines : List DependsLine)
    {st : ParseState}
    (hSt : Holds Inv known st) :
    Holds Inv known (lines.foldl (dependsLine file) st) := by
  induction lines generalizing st with
  | nil => exact hSt
  | cons line lines ih =>
      refine ih ?_
      cases line with
      | depends e => exact hInv.addDepends file e hSt
      | buildDepends e => exact hInv.addDepends file e hSt

theorem configOptions
    (hInv : ParseInvariant Inv)
    (host : ParseHost)
    {entry : MenuEntry}
    (hEntry : entry ∈ known)
    (file : Text)
    (options : List ConfigOption)
    {st : ParseState}
    (hSt : Holds Inv known st) :
    Holds Inv known
      (options.foldl
        (Mkrootfs.configOption host file entry.id entry.sym)
        st) := by
  induction options generalizing st with
  | nil => exact hSt
  | cons option options ih =>
      exact ih (hInv.configOption host hEntry file option hSt)

theorem choiceOptions
    (hInv : ParseInvariant Inv)
    (file : Text)
    (menu : Nat)
    (sym : SymId)
    (options : List ChoiceOption)
    {st : ParseState}
    (hSt : Holds Inv known st) :
    Holds Inv known
      (options.foldl (Mkrootfs.choiceOption file menu sym)
        st) := by
  induction options generalizing st with
  | nil => exact hSt
  | cons option options ih =>
      exact ih (hInv.choiceOption file menu sym option hSt)

/- The end of `menuconfig`. -/
theorem menuconfigEnd
    (hInv : ParseInvariant Inv)
    (isMenu : Bool)
    (menu : Nat)
    (sym : SymId)
    {st : ParseState}
    (hSt : Holds Inv known st) :
    Holds Inv known (menuconfigEnd isMenu menu sym st) := by
  unfold Mkrootfs.menuconfigEnd
  split
  · exact hInv.change sym _ (.markLastPrompt menu) hSt
  · exact hSt

theorem configEntryStart
    (hInv : ParseInvariant Inv)
    (file : Text)
    (isMenu : Bool)
    (name : Text)
    {st : ParseState}
    (hSt : Holds Inv known st) :
    Holds Inv
      (insert ⟨st.nextMenu, symLookupId name .plain, file,
        entryKind isMenu⟩ known)
      (configEntryStart file isMenu name st) :=
  hInv.config st.nextMenu file isMenu name hSt

theorem choiceStart
    (hInv : ParseInvariant Inv)
    (file : Text)
    (name : Option Text)
    {st : ParseState}
    (hSt : Holds Inv known st) :
    Holds Inv
      (insert ⟨st.nextMenu, choiceSym name st, file, .choice⟩
        known)
      (choiceStart file name st) := by
  have hAuto : ∀ {found : ParseState} {known},
      Holds Inv known found →
      Holds Inv known
        (((found.modify (choiceSym name st) (fun s =>
          { s with auto := true })).addEntry).menuAddProp file
            st.nextMenu (choiceSym name st) .choice none
            none) := by
    intro found known hFound
    refine hInv.menuAddProp file st.nextMenu _ (by decide)
      none none ?_
    exact hInv.modifyFlags _
      (f := fun s => { s with auto := true })
      (fun _ => rfl) (fun _ => rfl) (fun _ => rfl) hFound
  cases name with
  | some name =>
      exact hAuto (hInv.choice st.nextMenu file name hSt)
  | none => exact hAuto (hInv.anonymous st.nextMenu file hSt)

------------------------------------------------------------
-- Statements
------------------------------------------------------------

/- The entries of parsed menus, with those before them. -/
def withEntries
    (known : Set MenuEntry)
    (list : List Menu) : Set MenuEntry :=
  { entry | entry ∈ known ∨ entry ∈ entriesOf list }

theorem withEntries_nil (known : Set MenuEntry) :
    withEntries known [] = known := by
  ext entry
  simp [withEntries, entriesOf]

theorem withEntries_append
    (known : Set MenuEntry)
    (first second : List Menu) :
    withEntries (withEntries known first) second =
      withEntries known (first ++ second) := by
  ext entry
  simp [withEntries, entriesOf_append, or_assoc]

/- An entry, and what is below it. -/
theorem withEntries_insert
    (known : Set MenuEntry)
    {m : Menu}
    {entry : MenuEntry}
    {list : List Menu}
    (hEntries : entriesOf [m] = entry :: entriesOf list) :
    withEntries (insert entry known) list =
      withEntries known [m] := by
  ext other
  simp only [withEntries, hEntries, Set.mem_ofPred_eq,
    Set.mem_insert_iff, List.mem_cons]
  tauto

/- A menu without a symbol has the entries below it only. -/
theorem withEntries_congr
    (known : Set MenuEntry)
    {m : Menu}
    {list : List Menu}
    (hEntries : entriesOf [m] = entriesOf list) :
    withEntries known list = withEntries known [m] := by
  ext other
  simp only [withEntries, hEntries]

mutual

/- A statement keeps the invariant. -/
theorem parseStmt
    (hInv : ParseInvariant Inv)
    (host : ParseHost)
    (file : Text)
    (stmt : Stmt)
    {known : Set MenuEntry}
    {st : ParseState}
    (hSt : Holds Inv known st) :
    Holds Inv
      (withEntries known (parseStmt host file stmt st).2)
      (parseStmt host file stmt st).1 := by
  cases stmt with
  | config isMenu name options =>
      have hStart := hInv.configEntryStart file isMenu name hSt
      have hDone := hInv.configOptions host
        (Set.mem_insert _ _) file options hStart
      have hEnd := hInv.menuconfigEnd isMenu st.nextMenu
        (symLookupId name .plain) hDone
      unfold Mkrootfs.parseStmt
      rwa [← withEntries_nil (insert _ known),
        withEntries_insert] at hEnd
      simp [entriesOf, Menu.entry, Menu.inner]
  | choice name options block =>
      have hStart := hInv.choiceStart file name hSt
      have hOptions := hInv.choiceOptions file st.nextMenu
        (choiceSym name st) options hStart
      have hBlock := parseStmts hInv host file block hOptions
      unfold Mkrootfs.parseStmt
      rwa [withEntries_insert] at hBlock
      simp [entriesOf, Menu.entry, Menu.inner]
  | menu lines block =>
      have hEntered : Holds Inv known st.addEntry := hSt
      have hLines := hInv.dependsLines file lines hEntered
      have hBlock := parseStmts hInv host file block hLines
      unfold Mkrootfs.parseStmt
      rwa [withEntries_congr known] at hBlock
      simp [entriesOf, Menu.entry, Menu.inner]
  | ifBlock cond block =>
      have hCond : Holds Inv known
          (((st.lookupWords (some file) cond.words).addEntry
            ).menuAddDep cond) :=
        hInv.lookupWords (some file) cond.words hSt
      have hBlock := parseStmts hInv host file block hCond
      unfold Mkrootfs.parseStmt
      rwa [withEntries_congr known] at hBlock
      simp [entriesOf, Menu.entry, Menu.inner]
  | comment lines =>
      unfold Mkrootfs.parseStmt
      rw [withEntries_nil]
      have hEntered : Holds Inv known st.addEntry := hSt
      exact hInv.dependsLines file lines hEntered
  | source name block =>
      unfold Mkrootfs.parseStmt
      split
      · rw [withEntries_nil]
        exact hSt
      · have hEntered : Holds Inv known
            { st with sourced := name :: st.sourced } := hSt
        exact parseStmts hInv host name block hEntered

theorem parseStmts
    (hInv : ParseInvariant Inv)
    (host : ParseHost)
    (file : Text)
    (stmts : List Stmt)
    {known : Set MenuEntry}
    {st : ParseState}
    (hSt : Holds Inv known st) :
    Holds Inv
      (withEntries known (parseStmts host file stmts st).2)
      (parseStmts host file stmts st).1 := by
  cases stmts with
  | nil =>
      unfold Mkrootfs.parseStmts
      rwa [withEntries_nil]
  | cons stmt stmts =>
      have hFirst := parseStmt hInv host file stmt hSt
      have hRest := parseStmts hInv host file stmts hFirst
      unfold Mkrootfs.parseStmts
      rwa [withEntries_append] at hRest

end

/- Lookups never make up `modules_sym`. -/
theorem symLookup_ne_modules
    {t : SymbolTable}
    (hNone : ∀ s ∈ t, s.id ≠ .modules)
    (name : Text)
    (cls : LookupClass)
    (file : Option Text) :
    ∀ s ∈ (symLookup t name cls file).1, s.id ≠ .modules := by
  unfold symLookup
  simp only
  split
  · exact hNone
  · intro s hs
    rcases List.mem_cons.mp hs with rfl | hOld
    · simp only [Symbol.alloc, symLookupId]
      split
      · next hBuiltin =>
          rcases builtinOfName_builtin hBuiltin with ⟨tri, rfl⟩
          simp
      · cases cls <;> simp
    · exact hNone s hOld

theorem modifySymbol_ne_modules
    {t : SymbolTable}
    (hNone : ∀ s ∈ t, s.id ≠ .modules)
    (id : SymId)
    {f : Symbol → Symbol}
    (hId : ∀ s, (f s).id = s.id) :
    ∀ s ∈ modifySymbol t id f, s.id ≠ .modules := by
  intro s hs
  rcases List.mem_map.mp hs with ⟨old, hOld, rfl⟩
  split
  · rw [hId]
    exact hNone old hOld
  · exact hNone old hOld

/- The state in which the parser starts. -/
theorem parseStart
    (hInv : ParseInvariant Inv)
    (host : ParseHost)
    (file : Text) :
    Holds Inv ∅ (parseStart host file) := by
  refine hInv.modules file ?_ ?_
  · unfold symInit ParseState.symAddDefault
    refine symLookup_ne_modules ?_ _ _ _
    refine modifySymbol_ne_modules ?_ _ (fun _ => rfl)
    refine modifySymbol_ne_modules ?_ _ (fun _ => rfl)
    refine symLookup_ne_modules ?_ _ _ _
    simp [builtinSymbols, Symbol.alloc]
  · refine hInv.symAddDefault (some file) _ _ ?_
    exact hInv.modifyFlags _
      (f := fun s => { s with type := .string, auto := true })
      (fun _ => rfl) (fun _ => rfl) (fun _ => rfl)
      (hInv.lookupState (some file) _ .plain (by decide)
        hInv.start)

/- A whole tree keeps the invariant. -/
theorem parseTree
    (hInv : ParseInvariant Inv)
    (host : ParseHost)
    (file : Text)
    (stmts : List Stmt) :
    Inv (parseTree host file stmts).1.symbols
      (parseTree host file stmts).1.nextChoice
      { entry | entry ∈
        entriesOf (Mkrootfs.parseTree host file stmts).2 } := by
  have hAll := hInv.parseStmts host file stmts
    (hInv.parseStart host file)
  have hSame : ∀ list, withEntries ∅ list =
      { entry | entry ∈ entriesOf list } := by
    intro list
    ext entry
    simp [withEntries]
  rw [hSame] at hAll
  exact hAll

end ParseInvariant

end Mkrootfs
