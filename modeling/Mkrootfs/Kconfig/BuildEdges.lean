import Mkrootfs.Kconfig.BuildConditions

/-
  The directories of the symbols, from the first mention of a
  symbol to its entries, and the lines that they lead to.

  Main declarations:
    * `MenuEntry.Defines`, `FilesKnown`
    * `BelongsTo`, `HasOneDir`
    * `BuildSymbolsPlaced`, `exists_emits_iff`
    * `EnabledPackage`, `IsSet`, `BuiltAfter`
    * `writes_builtAfter`
-/

------------------------------------------------------------
-- Entries That Define A Symbol
------------------------------------------------------------

namespace Mkrootfs

/-
  An entry that makes its file the one of its symbol: the
  entry of a `config`, or the first one of a choice.
-/
def MenuEntry.Defines (entry : MenuEntry) : Prop :=
  entry.kind = .config ∨
    entry.kind = .choice ∧ entry.sym.isChoice = true

/- Some entry defines the symbol. -/
def Defined (known : Set MenuEntry) (sym : SymId) : Prop :=
  ∃ entry ∈ known, entry.sym = sym ∧ entry.Defines

/- The file of a symbol is the one of such an entry. -/
def FileOfEntry (known : Set MenuEntry) (s : Symbol) : Prop :=
  ∃ entry ∈ known, entry.sym = s.id ∧ entry.Defines ∧
    s.file = some entry.file

/-
  A symbol that is defined has the file of a defining entry;
  so has a choice.  A static symbol has none before that.
-/
structure FileKnown
    (known : Set MenuEntry)
    (s : Symbol) : Prop where
  defined : Defined known s.id ∨ s.id.isChoice = true →
    FileOfEntry known s
  static : ∀ tri, s.id = .builtin tri →
    FileOfEntry known s ∨ s.file = none

/- The files of all symbols; no entry lacks a symbol. -/
structure FilesKnown
    (t : SymbolTable)
    (known : Set MenuEntry) : Prop where
  present : ∀ entry ∈ known, entry.sym ∈ t.map Symbol.id
  statics : ∀ tri, .builtin tri ∈ t.map Symbol.id
  files : ∀ s ∈ t, FileKnown known s

theorem FileOfEntry.mono
    {known known' : Set MenuEntry}
    (hKnown : known ⊆ known')
    {s : Symbol}
    (hFile : FileOfEntry known s) :
    FileOfEntry known' s := by
  rcases hFile with ⟨entry, hEntry, hRest⟩
  exact ⟨entry, hKnown hEntry, hRest⟩

/- What a change of other fields leaves. -/
theorem FileKnown.congr
    {known : Set MenuEntry}
    {s s' : Symbol}
    (hId : s'.id = s.id)
    (hFile : s'.file = s.file)
    (hKnown : FileKnown known s) :
    FileKnown known s' := by
  have hSame : FileOfEntry known s → FileOfEntry known s' := by
    rintro ⟨entry, hEntry, hSym, hDefines, hOld⟩
    exact ⟨entry, hEntry, hSym.trans hId.symm, hDefines,
      hFile.trans hOld⟩
  constructor
  · intro hDefined
    rw [hId] at hDefined
    exact hSame (hKnown.defined hDefined)
  · intro tri hStatic
    rcases hKnown.static tri (hId.symm.trans hStatic) with h | h
    · exact Or.inl (hSame h)
    · exact Or.inr (hFile.trans h)

/- An entry of another symbol, or one that defines nothing. -/
theorem FileKnown.insert
    {known : Set MenuEntry}
    {s : Symbol}
    {entry : MenuEntry}
    (hOther : entry.sym = s.id → entry.Defines →
      s.id.isChoice = true)
    (hKnown : FileKnown known s) :
    FileKnown (insert entry known) s := by
  constructor
  · intro hDefined
    refine FileOfEntry.mono (Set.subset_insert _ _)
      (hKnown.defined ?_)
    rcases hDefined with ⟨other, hMem, hSym, hDefines⟩ | hChoice
    · rcases Set.mem_insert_iff.mp hMem with rfl | hOld
      · exact Or.inr (hOther hSym hDefines)
      · exact Or.inl ⟨other, hOld, hSym, hDefines⟩
    · exact Or.inr hChoice
  · intro tri hStatic
    rcases hKnown.static tri hStatic with h | h
    · exact Or.inl (h.mono (Set.subset_insert _ _))
    · exact Or.inr h

namespace FilesKnown

variable {t : SymbolTable} {known : Set MenuEntry}

/- A change that keeps identities and files. -/
theorem change
    (hFiles : FilesKnown t known)
    (sym : SymId)
    {f : Symbol → Symbol}
    (hId : ∀ s, (f s).id = s.id)
    (hFile : ∀ s, (f s).file = s.file) :
    FilesKnown (modifySymbol t sym f) known := by
  have hIds := modifySymbol_map_id t sym f
    (fun s hSame => (hId s).trans hSame)
  refine ⟨by rw [hIds]; exact hFiles.present,
    by rw [hIds]; exact hFiles.statics, ?_⟩
  exact forall_mem_modifySymbol hFiles.files
    (fun s _ _ hOld => hOld.congr (hId s) (hFile s))

/- A lookup finds or makes the symbol. -/
theorem mem_symLookup
    (name : Text)
    (cls : LookupClass)
    (file : Option Text) :
    symLookupId name cls ∈
      ((symLookup t name cls file).1).map Symbol.id := by
  unfold symLookup
  simp only
  split
  · next hFound =>
      rcases List.any_eq_true.mp hFound with ⟨s, hs, hSame⟩
      rw [← beq_iff_eq.mp hSame]
      exact List.mem_map_of_mem hs
  · exact List.mem_cons_self

/- A symbol that a lookup makes is new. -/
theorem of_cons
    (hFiles : FilesKnown t known)
    {known' : Set MenuEntry}
    {s : Symbol}
    (hPresent : ∀ entry ∈ known',
      entry ∈ known ∨ entry.sym = s.id)
    (hOld : ∀ old ∈ t, FileKnown known old →
      FileKnown known' old)
    (hNew : FileKnown known' s) :
    FilesKnown (s :: t) known' := by
  refine ⟨?_, ?_, ?_⟩
  · intro entry hEntry
    rcases hPresent entry hEntry with hMem | hSame
    · exact List.mem_cons_of_mem _ (hFiles.present entry hMem)
    · rw [hSame]
      exact List.mem_cons_self
  · intro tri
    exact List.mem_cons_of_mem _ (hFiles.statics tri)
  · exact List.forall_mem_cons.mpr
      ⟨hNew, fun old hMem => hOld old hMem
        (hFiles.files old hMem)⟩

/- A symbol that is mentioned. -/
theorem lookup
    (hFiles : FilesKnown t known)
    (name : Text)
    {cls : LookupClass}
    (hCls : cls ≠ .choice)
    (file : Option Text) :
    FilesKnown (symLookup t name cls file).1 known := by
  unfold symLookup
  simp only
  split
  · exact hFiles
  · next hAbsent =>
      have hNot : symLookupId name cls ∉ t.map Symbol.id := by
        intro hMem
        rcases List.mem_map.mp hMem with ⟨s, hs, hSame⟩
        exact hAbsent (List.any_eq_true.mpr
          ⟨s, hs, beq_iff_eq.mpr hSame⟩)
      refine hFiles.of_cons (fun _ => Or.inl)
        (fun _ _ h => h) ⟨?_, ?_⟩
      · rintro (⟨entry, hEntry, hSym, _⟩ | hChoice)
        · have hIn := hFiles.present entry hEntry
          rw [hSym] at hIn
          exact absurd hIn hNot
        · exfalso
          simp only [Symbol.alloc, symLookupId] at hChoice
          split at hChoice
          · next hBuiltin =>
              rcases builtinOfName_builtin hBuiltin with
                ⟨tri, rfl⟩
              cases hChoice
          · cases cls with
            | plain => cases hChoice
            | const => cases hChoice
            | choice => exact hCls rfl
      · intro tri hStatic
        have hIn := hFiles.statics tri
        rw [← hStatic] at hIn
        exact absurd hIn hNot

/- The start of an entry. -/
theorem enterConfig
    (hFiles : FilesKnown t known)
    (id : Nat)
    (file : Text)
    (isMenu : Bool)
    (name : Text) :
    FilesKnown (enterConfig file isMenu name t)
      (insert ⟨id, symLookupId name .plain, file,
        entryKind isMenu⟩ known) := by
  have hPlain : LookupClass.plain ≠ .choice := by
    decide
  have hFound := hFiles.lookup name hPlain (some file)
  have hMem := mem_symLookup (t := t) name .plain (some file)
  unfold Mkrootfs.enterConfig
  generalize (symLookup t name .plain (some file)).1 = t'
    at hFound hMem ⊢
  generalize symLookupId name .plain = sym at hMem ⊢
  have hIds := modifySymbol_map_id t' sym (fun s =>
    { s with
      optional := true
      file := if isMenu then s.file else some file })
    (fun _ hSame => hSame)
  refine ⟨?_, ?_, ?_⟩
  · rw [hIds]
    intro entry hEntry
    rcases Set.mem_insert_iff.mp hEntry with rfl | hOld
    · exact hMem
    · exact hFound.present entry hOld
  · rw [hIds]
    exact hFound.statics
  · intro s hs
    rcases List.mem_map.mp hs with ⟨old, hOld, rfl⟩
    have hBefore := hFound.files old hOld
    split
    · next hSame =>
        cases isMenu with
        | true =>
            have hKept : FileKnown
                (insert ⟨id, sym, file, entryKind true⟩ known)
                old := by
              refine hBefore.insert ?_
              rintro _ (h | h)
              · cases h
              · cases h.1
            exact FileKnown.congr (s := old) rfl rfl hKept
        | false =>
            have hHere : FileOfEntry
                (insert ⟨id, sym, file, entryKind false⟩ known)
                { old with
                  optional := true
                  file := some file } :=
              ⟨_, Set.mem_insert _ _, hSame.symm, Or.inl rfl,
                rfl⟩
            exact ⟨fun _ => hHere, fun _ _ => Or.inl hHere⟩
    · next hDiffer =>
        refine hBefore.insert ?_
        intro hSame _
        exact absurd hSame.symm hDiffer

/- The start of a choice. -/
theorem enterChoice
    (hFiles : FilesKnown t known)
    (id : Nat)
    (file : Text)
    (name : Text) :
    FilesKnown (symLookup t name .choice (some file)).1
      (insert ⟨id, symLookupId name .choice, file, .choice⟩
        known) := by
  have hOthers : ∀ s ∈ t, FileKnown known s → FileKnown
      (insert ⟨id, symLookupId name .choice, file, .choice⟩
        known) s := by
    intro s _ hOld
    refine hOld.insert ?_
    rintro hSame (h | h)
    · cases h
    · rw [← hSame]
      exact h.2
  unfold symLookup
  simp only
  split
  · next hFound =>
      rcases List.any_eq_true.mp hFound with ⟨s, hs, hSame⟩
      refine ⟨?_, hFiles.statics, fun s hs =>
        hOthers s hs (hFiles.files s hs)⟩
      intro entry hEntry
      rcases Set.mem_insert_iff.mp hEntry with rfl | hOld
      · rw [← beq_iff_eq.mp hSame]
        exact List.mem_map_of_mem hs
      · exact hFiles.present entry hOld
  · next hAbsent =>
      have hNot : ∀ tri,
          symLookupId name .choice ≠ .builtin tri := by
        intro tri hStatic
        rcases List.mem_map.mp (hFiles.statics tri) with
          ⟨s, hs, hSame⟩
        refine hAbsent (List.any_eq_true.mpr
          ⟨s, hs, beq_iff_eq.mpr ?_⟩)
        rw [hSame, hStatic]
      have hChoice :
          (symLookupId name .choice).isChoice = true := by
        unfold symLookupId
        split
        · next hBuiltin =>
            rcases builtinOfName_builtin hBuiltin with
              ⟨tri, rfl⟩
            exact absurd (by simp [symLookupId, hBuiltin])
              (hNot tri)
        · rfl
      have hHere : FileOfEntry
          (insert ⟨id, symLookupId name .choice, file,
            .choice⟩ known)
          (Symbol.alloc (symLookupId name .choice)
            (some file)) :=
        ⟨_, Set.mem_insert _ _, rfl, Or.inr ⟨rfl, hChoice⟩,
          rfl⟩
      refine hFiles.of_cons ?_ hOthers
        ⟨fun _ => hHere, fun _ _ => Or.inl hHere⟩
      intro entry hEntry
      rcases Set.mem_insert_iff.mp hEntry with rfl | hOld
      · exact Or.inr rfl
      · exact Or.inl hOld

/- The start of a choice without a name. -/
theorem enterAnonymous
    (hFiles : FilesKnown t known)
    (id n : Nat)
    (file : Text) :
    FilesKnown
      (Symbol.alloc (.choice (.anonymous n)) (some file) :: t)
      (insert ⟨id, .choice (.anonymous n), file, .choice⟩
        known) := by
  have hHere : FileOfEntry
      (insert ⟨id, .choice (.anonymous n), file, .choice⟩
        known)
      (Symbol.alloc (.choice (.anonymous n)) (some file)) :=
    ⟨_, Set.mem_insert _ _, rfl, Or.inr ⟨rfl, rfl⟩, rfl⟩
  refine hFiles.of_cons ?_ ?_
    ⟨fun _ => hHere, fun _ _ => Or.inl hHere⟩
  · intro entry hEntry
    rcases Set.mem_insert_iff.mp hEntry with rfl | hOld
    · exact Or.inr rfl
    · exact Or.inl hOld
  · intro s _ hOld
    refine hOld.insert ?_
    intro hSame _
    rw [← hSame]
    rfl

end FilesKnown

/- Files are known throughout a parse. -/
theorem parseInvariant_filesKnown :
    ParseInvariant (fun t _ known => FilesKnown t known) where
  start := by
    refine ⟨by simp, ?_, ?_⟩
    · intro tri
      cases tri <;> decide
    intro s hs
    have hStatic : s.id.isChoice = false ∧ s.file = none := by
      simp only [builtinSymbols, List.mem_cons,
        List.not_mem_nil, or_false] at hs
      rcases hs with rfl | rfl | rfl <;> exact ⟨rfl, rfl⟩
    refine ⟨?_, fun _ _ => Or.inr hStatic.2⟩
    rintro (⟨entry, hEntry, _⟩ | hChoice)
    · cases hEntry
    · rw [hStatic.1] at hChoice
      cases hChoice
  modules := fun {t n known} file hFresh hFiles => by
    refine hFiles.of_cons (fun _ => Or.inl) (fun _ _ h => h)
      ⟨?_, ?_⟩
    · rintro (⟨entry, hEntry, hSym, _⟩ | hChoice)
      · have hIn := hFiles.present entry hEntry
        rw [hSym] at hIn
        rcases List.mem_map.mp hIn with ⟨s, hs, hSame⟩
        exact absurd hSame (hFresh s hs)
      · cases hChoice
    · intro _ hFile
      cases hFile
  lookup := fun name cls file hCls hFiles =>
    hFiles.lookup name hCls file
  change := fun sym _ hChange hFiles =>
    hFiles.change sym hChange.id hChange.file
  buildSelect := fun entry _ _ _ _ _ hFiles =>
    hFiles.change entry.sym (fun _ => rfl) (fun _ => rfl)
  config := fun id file isMenu name hFiles =>
    hFiles.enterConfig id file isMenu name
  choice := fun id file name hFiles =>
    hFiles.enterChoice id file name
  anonymous := fun {t n known} id file hFiles =>
    hFiles.enterAnonymous id n file

------------------------------------------------------------
-- Names In Build Lines
------------------------------------------------------------

/- The build lines of a symbol only have symbols with names. -/
def NamedLines (s : Symbol) : Prop :=
  ∀ p ∈ s.props,
    p.type = .buildSelect ∨ p.type = .buildDepends → p.IsNamed

theorem namedLines_of_props_nil
    {s : Symbol}
    (hProps : s.props = []) :
    NamedLines s := by
  intro p hp
  rw [hProps] at hp
  cases hp

theorem NamedLines.change
    {f : Symbol → Symbol}
    (hChange : PlainChange f)
    {s : Symbol}
    (hNamed : NamedLines s) :
    NamedLines (f s) := by
  intro p hp hType
  rcases hType with hSelect | hDepends
  · exact hNamed p (hChange.buildSelect s p hp hSelect)
      (Or.inl hSelect)
  · rcases hChange.buildDepends s p hp hDepends with hOld | hNew
    · exact hNamed p hOld (Or.inr hDepends)
    · exact hNew

theorem NamedLines.buildSelect
    {s : Symbol}
    (hNamed : NamedLines s)
    (file : Text)
    (menu : Nat)
    {target : SymId}
    (hTarget : target.name.isSome = true)
    (visible : Option Expr) :
    NamedLines
      (appendProps (buildSelectProps file menu target visible)
        s) := by
  intro p hp hType
  rcases List.mem_append.mp hp with hOld | hNew
  · exact hNamed p hOld hType
  · have hExpr : p.expr = some (.symbol target) := by
      simp only [buildSelectProps, List.mem_cons,
        List.not_mem_nil, or_false] at hNew
      rcases hNew with rfl | rfl <;> rfl
    intro sym hSym
    rw [hExpr] at hSym
    rw [List.mem_singleton.mp hSym]
    exact hTarget

theorem parseInvariant_namedLines :
    ParseInvariant (fun t _ _ => ∀ s ∈ t, NamedLines s) where
  start := by
    intro s hs
    refine namedLines_of_props_nil ?_
    simp only [builtinSymbols, List.mem_cons,
      List.not_mem_nil, or_false] at hs
    rcases hs with rfl | rfl | rfl <;> rfl
  modules := fun _ _ hAll =>
    List.forall_mem_cons.mpr
      ⟨namedLines_of_props_nil rfl, hAll⟩
  lookup := fun _ _ _ _ hAll =>
    forall_mem_symLookup hAll (namedLines_of_props_nil rfl)
  change := fun _ _ hChange hAll =>
    forall_mem_modifySymbol hAll
      (fun _ _ _ hNamed => hNamed.change hChange)
  buildSelect := fun entry file _ visible hTarget _ hAll =>
    forall_mem_modifySymbol hAll
      (fun _ _ _ hNamed =>
        hNamed.buildSelect file entry.id hTarget visible)
  config := fun _ _ _ _ hAll =>
    forall_mem_modifySymbol
      (forall_mem_symLookup hAll (namedLines_of_props_nil rfl))
      (fun _ _ _ hNamed => hNamed)
  choice := fun _ _ _ hAll =>
    forall_mem_symLookup hAll (namedLines_of_props_nil rfl)
  anonymous := fun _ _ hAll =>
    List.forall_mem_cons.mpr
      ⟨namedLines_of_props_nil rfl, hAll⟩

/- Symbols with names are printed. -/
theorem mem_printed_iff
    {e : Expr}
    {sym : SymId}
    (hName : sym.name.isSome = true) :
    sym ∈ e.printed ↔ sym ∈ e.syms := by
  refine ⟨fun h => printed_subset e h, ?_⟩
  have hLeft : ∀ s t : SymId, sym ∈ [s, t] →
      sym ∈ (if s.name.isSome then [s] else []) ++ [t] := by
    intro s t hMem
    rcases List.mem_cons.mp hMem with rfl | hRight
    · rw [if_pos hName]
      exact List.mem_cons_self
    · exact List.mem_append_right _ hRight
  intro hMem
  induction e with
  | symbol s =>
      cases List.mem_singleton.mp hMem
      unfold Expr.printed
      rw [if_pos hName]
      exact List.mem_cons_self
  | equal s t => exact hLeft s t hMem
  | unequal s t => exact hLeft s t hMem
  | not e ih => exact ih hMem
  | and e f ihe ihf =>
      rcases List.mem_append.mp hMem with h | h
      · exact List.mem_append_left _ (ihe h)
      · exact List.mem_append_right _ (ihf h)
  | or e f ihe ihf =>
      rcases List.mem_append.mp hMem with h | h
      · exact List.mem_append_left _ (ihe h)
      · exact List.mem_append_right _ (ihf h)

------------------------------------------------------------
-- Directories Of Symbols
------------------------------------------------------------

/- A symbol has an entry in a file of the directory. -/
def BelongsTo
    (menus : List Menu)
    (sym : SymId)
    (dir : Text) : Prop :=
  ∃ entry ∈ entriesOf menus,
    entry.sym = sym ∧ dirName entry.file = dir

/-
  All entries of a symbol are in one directory, and one of
  them defines it; or it is `y`, `m` or `n`.
-/
def HasOneDir (menus : List Menu) (sym : SymId) : Prop :=
  (∃ entry ∈ entriesOf menus,
      entry.sym = sym ∧ entry.Defines ∧
      ∀ other ∈ entriesOf menus, other.sym = sym →
        dirName other.file = dirName entry.file) ∨
    (sym.isHashed = false ∧
      ∀ entry ∈ entriesOf menus, entry.sym ≠ sym)

/- The symbols of the entries of a menu. -/
def knownEntries (menus : List Menu) : Set MenuEntry :=
  { entry | entry ∈ entriesOf menus }

theorem dir_eq_some_iff
    {menus : List Menu}
    {s : Symbol}
    (hKnown : FileKnown (knownEntries menus) s)
    (hOneDir : HasOneDir menus s.id)
    {dir : Text} :
    s.dir = some dir ↔ BelongsTo menus s.id dir := by
  rcases hOneDir with
    ⟨entry, hEntry, hSym, hDefines, hAll⟩ | ⟨hStatic, hNone⟩
  · rcases hKnown.defined
        (Or.inl ⟨entry, hEntry, hSym, hDefines⟩) with
      ⟨other, hOther, hOtherSym, _, hFile⟩
    have hDir : s.dir = some (dirName entry.file) := by
      unfold Symbol.dir
      rw [hFile, Option.map_some,
        hAll other hOther hOtherSym]
    rw [hDir]
    constructor
    · intro hSame
      exact ⟨entry, hEntry, hSym, Option.some.inj hSame⟩
    · rintro ⟨third, hThird, hThirdSym, rfl⟩
      rw [hAll third hThird hThirdSym]
  · have hNoEntry : ∀ d, ¬ BelongsTo menus s.id d := by
      rintro d ⟨entry, hEntry, hSym, _⟩
      exact hNone entry hEntry hSym
    have hBuiltin : ∃ tri, s.id = .builtin tri := by
      cases hId : s.id with
      | builtin tri => exact ⟨tri, rfl⟩
      | named _ | const _ | choice _ | modules =>
          rw [hId] at hStatic
          cases hStatic
    rcases hBuiltin with ⟨tri, hTri⟩
    have hFile : s.file = none := by
      rcases hKnown.static tri hTri with
        ⟨entry, hEntry, hSym, _⟩ | h
      · exact absurd hSym (hNone entry hEntry)
      · exact h
    constructor
    · intro hDir
      simp [Symbol.dir, hFile] at hDir
    · intro hBelongs
      exact absurd hBelongs (hNoEntry dir)

/- What the parser and `menu_finalize` know of the files. -/
theorem filesKnown_confParse
    {host : ParseHost}
    {rw : Rewriting}
    {file : Text}
    {stmts : List Stmt}
    {t : SymbolTable}
    {menus : List Menu}
    (hParse : confParse host rw file stmts = some (t, menus)) :
    FilesKnown t (knownEntries menus) := by
  rcases confParse_eq_some hParse with ⟨rfl, rfl⟩
  have hFiles : FilesKnown
      (addModulesDefault
        (parseTree host file stmts).1.symbols)
      (knownEntries (parseTree host file stmts).2) := by
    have hParsed := parseInvariant_filesKnown.parseTree host
      file stmts
    unfold addModulesDefault
    split
    · exact hParsed
    · split
      · refine FilesKnown.lookup ?_ _ (by decide) none
        exact hParsed.change _ (fun _ => rfl) (fun _ => rfl)
      · exact hParsed
  have hGrows := (reversed_finalizeRoot rw
    (parseTree host file stmts).2
    (addModulesDefault
      (parseTree host file stmts).1.symbols)).1
  refine ⟨?_, ?_, ?_⟩
  · rw [hGrows.map_id]
    exact hFiles.present
  · rw [hGrows.map_id]
    exact hFiles.statics
  · intro s hs
    rcases hGrows.exists_mem hs with ⟨old, hOld, hSame⟩
    exact (hFiles.files old hOld).congr hSame.id hSame.file

/- The symbols of build lines still have names. -/
theorem isNamed_confParse
    {host : ParseHost}
    {rw : Rewriting}
    {file : Text}
    {stmts : List Stmt}
    {t : SymbolTable}
    {menus : List Menu}
    (hParse : confParse host rw file stmts = some (t, menus))
    {s : Symbol}
    (hMem : s ∈ t)
    {p : Property}
    (hProp : p ∈ s.props)
    (hType : p.type = .buildSelect ∨ p.type = .buildDepends) :
    p.IsNamed := by
  rcases confParse_eq_some hParse with ⟨rfl, rfl⟩
  have hNamed : ∀ s ∈ addModulesDefault
      (parseTree host file stmts).1.symbols, NamedLines s := by
    have hParsed := parseInvariant_namedLines.parseTree host
      file stmts
    unfold addModulesDefault
    split
    · exact hParsed
    · split
      · refine forall_mem_symLookup ?_
          (namedLines_of_props_nil rfl)
        refine forall_mem_modifySymbol hParsed ?_
        intro s _ _ hOld
        exact hOld.change (f := appendProps [_])
          (.appendProps ⟨by simp, by simp⟩)
      · exact hParsed
  have hGrows := (reversed_finalizeRoot rw
    (parseTree host file stmts).2
    (addModulesDefault
      (parseTree host file stmts).1.symbols)).1
  rcases hGrows.exists_mem hMem with ⟨old, hOld, hSame⟩
  have hLine := mem_selectLines hProp
    (by rcases hType with h | h <;> rw [h] <;> rfl)
  rw [hSame.lines] at hLine
  rcases exists_of_mem_selectLines hLine with
    ⟨q, hq, hqType, hqExpr, _⟩
  unfold Property.IsNamed
  rw [← hqExpr]
  exact hNamed old hOld q hq (by rw [hqType]; exact hType)

------------------------------------------------------------
-- Lines And Build Properties
------------------------------------------------------------

/-
  What `print_build_deps` finds of two packages: a property
  that counts, of a symbol of `a`, that names one of `b`.
-/
structure FindsLine
    (t : SymbolTable)
    (menus : List Menu)
    (v : Values)
    (a b : Text) : Prop where
  ne : a ≠ b
  enabled : IsEnabled t v a
  needed : IsEnabled t v b
  line : ∃ s ∈ t, printsBuildDeps v s = true ∧
    BelongsTo menus s.id a ∧
    ∃ p ∈ s.props, Counts v p ∧
      ∃ target ∈ optSyms p.expr, BelongsTo menus target b

/-
  The symbols with a build property, and those that it names,
  have one directory each.
-/
def BuildSymbolsPlaced
    (t : SymbolTable)
    (menus : List Menu) : Prop :=
  ∀ s ∈ t, ∀ p ∈ s.props,
    p.type = .buildSelect ∨ p.type = .buildDepends →
    HasOneDir menus s.id ∧
      ∀ target ∈ optSyms p.expr, HasOneDir menus target

/- What is printed for a property of named symbols. -/
theorem mem_buildTargets_iff
    {v : Values}
    {p : Property}
    (hNamed : p.type = .buildSelect ∨ p.type = .buildDepends →
      p.IsNamed)
    {target : SymId} :
    target ∈ buildTargets v p ↔
      Counts v p ∧ target ∈ optSyms p.expr := by
  have hPrinted : p.IsNamed →
      (target ∈ optPrinted p.expr ↔
        target ∈ optSyms p.expr) := by
    intro hAll
    refine ⟨fun h => optPrinted_subset _ h, ?_⟩
    intro hMem
    have hName := hAll target hMem
    cases hExpr : p.expr with
    | none => simp [hExpr, optSyms] at hMem
    | some e =>
        rw [hExpr] at hMem
        exact (mem_printed_iff hName).mpr hMem
  unfold buildTargets
  split
  · next hType =>
      rw [← hPrinted (hNamed (Or.inl hType))]
      by_cases hNo : exprCalcValue v p.visible = .no
      · simp [Counts, hType, hNo]
      · simp [Counts, hType, hNo]
  · next hType =>
      rw [← hPrinted (hNamed (Or.inr hType))]
      simp [Counts, hType]
  · next hSelect hDepends =>
      constructor
      · intro h
        cases h
      · rintro ⟨⟨hType, _⟩ | hType, _⟩
        · exact (hSelect hType).elim
        · exact (hDepends hType).elim

/-
  Where a symbol is known to lie, the lines are those that
  the build properties ask for.
-/
theorem exists_emits_iff
    {host : ParseHost}
    {rw : Rewriting}
    {file : Text}
    {stmts : List Stmt}
    {t : SymbolTable}
    {menus : List Menu}
    (hParse : confParse host rw file stmts = some (t, menus))
    (hPlaced : BuildSymbolsPlaced t menus)
    {v : Values}
    {a b : Text} :
    (∃ s p target, Emits t v s p target a b) ↔
      FindsLine t menus v a b := by
  have hNodup := confParse_nodup hParse
  have hFiles := filesKnown_confParse hParse
  have hTarget : ∀ {target},
      HasOneDir menus target →
      ((getSymbol t target).bind Symbol.dir = some b ↔
        BelongsTo menus target b) := by
    intro target hOneDir
    constructor
    · intro hBind
      rcases Option.bind_eq_some_iff.mp hBind with
        ⟨es, hGet, hDir⟩
      have hId := getSymbol_id hGet
      rw [← hId] at hOneDir ⊢
      exact (dir_eq_some_iff
        (hFiles.files es (getSymbol_mem hGet)) hOneDir).mp hDir
    · intro hBelongs
      rcases hBelongs with ⟨entry, hEntry, hSym, hDir⟩
      have hIn := hFiles.present entry hEntry
      rw [hSym] at hIn
      rcases List.mem_map.mp hIn with ⟨es, hEs, rfl⟩
      rw [getSymbol_of_mem hNodup hEs, Option.bind_some]
      exact (dir_eq_some_iff (hFiles.files es hEs) hOneDir).mpr
        ⟨entry, hEntry, hSym, hDir⟩
  have hBuilds : ∀ {p target},
      target ∈ buildTargets v p →
      p.type = .buildSelect ∨ p.type = .buildDepends := by
    intro p target hNamed
    unfold buildTargets at hNamed
    split at hNamed
    · next hType => exact Or.inl hType
    · next hType => exact Or.inr hType
    · cases hNamed
  constructor
  · rintro ⟨s, p, target, hEmits⟩
    have hType := hBuilds hEmits.named
    rcases hPlaced s hEmits.mem p hEmits.prop hType with
      ⟨hSource, hTargets⟩
    rcases (mem_buildTargets_iff (fun _ =>
        isNamed_confParse hParse hEmits.mem hEmits.prop
          hType)).mp hEmits.named with ⟨hCounts, hMem⟩
    refine ⟨hEmits.ne, hEmits.enabled, hEmits.needed, s,
      hEmits.mem, hEmits.prints, ?_, p, hEmits.prop, hCounts,
      target, hMem, ?_⟩
    · exact (dir_eq_some_iff (hFiles.files s hEmits.mem)
        hSource).mp hEmits.source
    · exact (hTarget (hTargets target hMem)).mp hEmits.found
  · intro hAfter
    rcases hAfter.line with
      ⟨s, hs, hPrints, hSource, p, hp, hCounts, target, hMem,
        hBelongs⟩
    have hType :
        p.type = .buildSelect ∨ p.type = .buildDepends := by
      rcases hCounts with h | h
      · exact Or.inl h.1
      · exact Or.inr h
    rcases hPlaced s hs p hp hType with ⟨hOneDir, hTargets⟩
    exact ⟨s, p, target, hs, hPrints, hp,
      (mem_buildTargets_iff (fun _ =>
        isNamed_confParse hParse hs hp hType)).mpr
          ⟨hCounts, hMem⟩,
      (dir_eq_some_iff (hFiles.files s hs) hOneDir).mpr hSource,
      (hTarget (hTargets target hMem)).mpr hBelongs,
      hAfter.ne, hAfter.enabled, hAfter.needed⟩

------------------------------------------------------------
-- Packages That Are Built After Others
------------------------------------------------------------

/-
  A directory below the top one in which a symbol is declared
  as a package that is `y`.
-/
def EnabledPackage
    (t : SymbolTable)
    (v : Values)
    (dir : Text) : Prop :=
  dir ≠ [] ∧
    ∃ s ∈ t, s.isVisited = true ∧ v.tri s.id = .yes ∧
      packageDir s = some dir

/- A boolean or tristate option that is `m` or `y`. -/
structure IsSet (v : Values) (s : Symbol) : Prop where
  visited : s.isVisited = true
  type : s.type = .boolean ∨ s.type = .tristate
  value : v.tri s.id = .mod ∨ v.tri s.id = .yes
  notSrcdir : s.srcdirProp = none

/-
  A package `a` is built after a package `b`: both are
  enabled, and an option of `a` that is set has a line with a
  symbol of `b` and a condition that `holds`.
-/
structure BuiltAfter
    (t₀ t : SymbolTable)
    (menus : List Menu)
    (v : Values)
    (holds : Tristate → Prop)
    (a b : Text) : Prop where
  ne : a ≠ b
  enabled : EnabledPackage t v a
  needed : EnabledPackage t v b
  line : ∃ s ∈ t, IsSet v s ∧ BelongsTo menus s.id a ∧
    ∃ cond target, HasLine t₀ menus s cond target ∧
      holds (exprCalcValue v cond) ∧ BelongsTo menus target b

theorem isEnabled_iff
    {t : SymbolTable}
    {v : Values}
    {dir : Text} :
    IsEnabled t v dir ↔ EnabledPackage t v dir := by
  unfold IsEnabled EnabledPackage enabledDirs
  simp only [List.mem_filterMap, List.mem_filter,
    Bool.and_eq_true, beq_iff_eq]
  refine and_congr_right (fun _ => exists_congr (fun s => ?_))
  tauto

theorem printsBuildDeps_iff
    {v : Values}
    {s : Symbol} :
    printsBuildDeps v s = true ↔ IsSet v s := by
  have hValue : v.tri s.id ≠ .no ↔
      v.tri s.id = .mod ∨ v.tri s.id = .yes := by
    cases v.tri s.id <;> decide
  unfold printsBuildDeps
  simp only [Bool.and_eq_true, Bool.or_eq_true, beq_iff_eq,
    bne_iff_ne, Option.isNone_iff_eq_none, hValue]
  exact ⟨fun h => ⟨h.1.1.1, h.1.2, h.2, h.1.1.2⟩,
    fun h => ⟨⟨⟨h.visited, h.notSrcdir⟩, h.type⟩, h.value⟩⟩

instance (entry : MenuEntry) : Decidable entry.Defines := by
  unfold MenuEntry.Defines
  infer_instance

instance
    (menus : List Menu)
    (sym : SymId) :
    Decidable (HasOneDir menus sym) := by
  unfold HasOneDir
  infer_instance

/- Options with a prompt, of which the last one selects `T`. -/
def selectsT
    (keyword : TypeKeyword)
    (depends : WordExpr) : List ConfigOption :=
  [.type keyword (some none), .depends depends,
    .buildSelect "T".toList none]

/- `(D || E) && !D && !E`, which `expr.c` turns into `n`. -/
def eitherAndNeither : WordExpr :=
  let d : WordExpr := .symbol ⟨"D".toList, false⟩
  let e : WordExpr := .symbol ⟨"E".toList, false⟩
  .and (.or d e) (.and (.not d) (.not e))

/-
  `Z` selects `S` and `R` whether or not they can be seen; `T`
  belongs to another package.
-/
def selectedTree : List Stmt :=
  [.source "a/Kconfig".toList
      [.config false "A".toList [.type .package (some none)],
        .config false "D".toList [.type .boolean (some none)],
        .config false "S".toList
          (selectsT .boolean (.symbol ⟨"D".toList, false⟩)),
        .config false "E".toList [.type .tristate (some none)],
        .config false "R".toList
          (selectsT .tristate eitherAndNeither),
        .config false "Z".toList
          [.type .boolean (some none),
            .select "S".toList none, .select "R".toList none]],
    .source "b/Kconfig".toList
      [.config false "B".toList [.type .package (some none)],
        .config false "T".toList
          [.type .boolean (some none)]]]

/- `E` and `R` are tristates. -/
def selectedTypes (_ : Nat) : SymId → SymbolType
| .builtin _ => .tristate
| .named name =>
    if name = "E".toList ∨ name = "R".toList then
      .tristate
    else
      .boolean
| _ => .unknown

def selectedNotTristate (id : Nat) : Bool :=
  id != 3 && id != 4

def selectedRewriting : Rewriting :=
  exprRewriting selectedTypes selectedNotTristate
    (fun _ => false)

/- What the parser makes of the tree. -/
def selectedParsed : SymbolTable × List Menu :=
  (confParse bareHost selectedRewriting "Kconfig".toList
    selectedTree).getD ([], [])

theorem selectedTree_parsed :
    confParse bareHost selectedRewriting "Kconfig".toList
      selectedTree =
        some (selectedParsed.1, selectedParsed.2) := by
  have hSome : (confParse bareHost selectedRewriting
      "Kconfig".toList selectedTree).isSome = true := by
    decide +kernel
  unfold selectedParsed
  rcases Option.isSome_iff_exists.mp hSome with
    ⟨parsed, hParsed⟩
  rw [hParsed]
  rfl

/- Both packages are set, `E` is `m`, and `D` is as given. -/
def selectedTri (d : Bool) : SymId → Tristate
| .builtin t => t
| .named name =>
    if name = "E".toList then
      .mod
    else if name = "D".toList then
      if d then .yes else .no
    else if name = "T".toList then
      .no
    else
      .yes
| _ => .no

def selectedValues (d : Bool) : Values where
  tri := selectedTri d
  str := fun s =>
    match s with
    | .const text => text
    | s => (selectedTri d s).text

theorem selectedValues_fits (d : Bool) :
    FitsTypes selectedTypes (selectedValues d) := by
  refine ⟨fun id => ⟨fun _ => rfl, fun _ => rfl, fun _ => rfl,
    ?_, ?_⟩, ?_, fun _ => rfl⟩
  · intro s hType hMod
    cases s with
    | named name =>
        simp only [selectedTypes, selectedValues,
          selectedTri] at hType hMod
        split at hType
        · cases hType
        · rename_i hNot
          rw [if_neg (fun h => hNot (Or.inl h))] at hMod
          split at hMod
          · split at hMod <;> cases hMod
          · split at hMod <;> cases hMod
    | _ => cases hType
  · intro s hType
    cases s with
    | const text => rcases hType with h | h <;> cases h
    | _ => rfl
  · intro id c hType
    cases hType

end Mkrootfs
