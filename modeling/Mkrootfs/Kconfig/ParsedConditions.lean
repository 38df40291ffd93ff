import Mkrootfs.Kconfig.ExprRewriting

/-
  The conditions and the entries of a parsed tree: words are
  looked up as `sym_lookup` does, and no two entries share a
  number.

  Main declarations:
    * `ParseState.CondsNamed`, `KeepsConds`
    * `parseTree_parsed`
    * `confParse_exprRewriting`
-/

------------------------------------------------------------
-- Conditions
------------------------------------------------------------

namespace Mkrootfs

theorem wellNamed_symLookupId
    (name : Text)
    (cls : LookupClass) :
    (symLookupId name cls).WellNamed := by
  unfold symLookupId
  cases hName : builtinOfName name with
  | some id =>
      rcases builtinOfName_builtin hName with ⟨tri, rfl⟩
      trivial
  | none =>
      cases cls with
      | plain => trivial
      | choice => trivial
      | const =>
          rintro t rfl
          cases t <;> cases hName

theorem WordExpr.wellNamed_toExpr (e : WordExpr) :
    e.toExpr.WellNamed := by
  intro s hs
  rw [toExpr_syms] at hs
  rcases List.mem_map.mp hs with ⟨w, _, rfl⟩
  exact wellNamed_symLookupId w.text w.lookupClass

theorem wellNamed_menuCheckDep
    {e : Expr}
    (hNamed : e.WellNamed) :
    (menuCheckDep e).WellNamed := by
  have hBoth : ∀ {a b : Expr},
      (∀ s ∈ a.syms ++ b.syms, s.WellNamed) →
      a.WellNamed ∧ b.WellNamed := fun h =>
    ⟨fun s hs => h s (List.mem_append_left _ hs),
      fun s hs => h s (List.mem_append_right _ hs)⟩
  induction e with
  | symbol s =>
      unfold menuCheckDep
      split
      · exact hNamed.and
          (fun s hs => List.mem_singleton.mp hs ▸ trivial)
      · exact hNamed
  | equal s t => exact hNamed
  | unequal s t => exact hNamed
  | not a iha => exact iha hNamed
  | and a b iha ihb =>
      exact (iha (hBoth hNamed).1).and (ihb (hBoth hNamed).2)
  | or a b iha ihb =>
      exact (iha (hBoth hNamed).1).and (ihb (hBoth hNamed).2)

/- The condition of a property, as `menu_add_prop` stores it. -/
theorem optWellNamed_ifExpr (cond : IfExpr) :
    OptWellNamed
      (cond.map (fun e => menuCheckDep e.toExpr)) := by
  intro x hx
  rcases Option.map_eq_some_iff.mp hx with ⟨e, _, rfl⟩
  exact wellNamed_menuCheckDep e.wellNamed_toExpr

------------------------------------------------------------
-- Steps Of The Parser
------------------------------------------------------------

namespace ParseState

/- All conditions of the state are well named. -/
structure CondsNamed (st : ParseState) : Prop where
  visible : ∀ s ∈ st.symbols, ∀ p ∈ s.props,
    OptWellNamed p.visible
  dep : OptWellNamed st.dep

/- A step of the parser within an entry. -/
structure KeepsConds (st st' : ParseState) : Prop where
  nextMenu : st'.nextMenu = st.nextMenu
  named : st.CondsNamed → st'.CondsNamed

namespace KeepsConds

variable {st st' : ParseState}

theorem refl (st : ParseState) : KeepsConds st st :=
  ⟨rfl, id⟩

theorem trans
    {st'' : ParseState}
    (hFirst : KeepsConds st st')
    (hNext : KeepsConds st' st'') :
    KeepsConds st st'' :=
  ⟨hNext.nextMenu.trans hFirst.nextMenu,
    fun h => hNext.named (hFirst.named h)⟩

theorem foldl
    {A : Type}
    {step : ParseState → A → ParseState}
    (hStep : ∀ st a, KeepsConds st (step st a))
    (list : List A)
    (st : ParseState) :
    KeepsConds st (list.foldl step st) := by
  induction list generalizing st with
  | nil => exact refl st
  | cons a list ih => exact (hStep st a).trans (ih _)

theorem lookup
    (file : Option Text)
    (name : Text)
    (cls : LookupClass)
    (st : ParseState) :
    KeepsConds st (st.lookup file name cls) :=
  ⟨rfl, fun h => ⟨forall_mem_symLookup h.visible
    (fun _ hp => by cases hp), h.dep⟩⟩

theorem lookupWords
    (file : Option Text)
    (ws : List Word)
    (st : ParseState) :
    KeepsConds st (st.lookupWords file ws) := by
  have hStep : ∀ (st : ParseState) (w : Word),
      KeepsConds st (st.lookup file w.text w.lookupClass) :=
    fun st w => lookup file w.text w.lookupClass st
  exact foldl hStep ws st

theorem lookupIf
    (file : Option Text)
    (cond : IfExpr)
    (st : ParseState) :
    KeepsConds st (st.lookupIf file cond) := by
  cases cond with
  | none => exact refl st
  | some e => exact lookupWords file e.words st

/- A change of a symbol that keeps or adds conditions. -/
theorem modify
    (sym : SymId)
    {f : Symbol → Symbol}
    (hProps : ∀ s : Symbol,
      (∀ p ∈ s.props, OptWellNamed p.visible) →
      ∀ p ∈ (f s).props, OptWellNamed p.visible)
    (st : ParseState) :
    KeepsConds st (st.modify sym f) :=
  ⟨rfl, fun h => ⟨forall_mem_modifySymbol h.visible
    (fun s _ _ hs => hProps s hs), h.dep⟩⟩

/- A change that leaves the properties alone. -/
theorem modifyFlags
    (sym : SymId)
    {f : Symbol → Symbol}
    (hProps : ∀ s, (f s).props = s.props)
    (st : ParseState) :
    KeepsConds st (st.modify sym f) :=
  modify sym (fun s hs => by rwa [hProps]) st

theorem propAlloc
    (sym : SymId)
    {p : Property}
    (hNamed : OptWellNamed p.visible)
    (st : ParseState) :
    KeepsConds st (st.propAlloc sym p) := by
  refine modify sym (fun s hs q hq => ?_) st
  rcases List.mem_append.mp hq with hOld | hNew
  · exact hs q hOld
  · rw [List.mem_singleton.mp hNew]
    exact hNamed

theorem menuAddProp
    (file : Text)
    (menu : Nat)
    (sym : SymId)
    (type : PropType)
    (expr : Option Expr)
    (cond : IfExpr)
    (st : ParseState) :
    KeepsConds st (st.menuAddProp file menu sym type expr cond) :=
  propAlloc sym (optWellNamed_ifExpr cond) st

theorem menuAddDep (e : WordExpr) (st : ParseState) :
    KeepsConds st (st.menuAddDep e) := by
  refine ⟨rfl, fun h => ⟨h.visible, ?_⟩⟩
  refine forall_mem_exprAllocAnd Expr.WellNamed.and h.dep ?_
  rintro x ⟨⟩
  exact wellNamed_menuCheckDep e.wellNamed_toExpr

theorem menuSetType
    (file : Text)
    (sym : SymId)
    (keyword : TypeKeyword)
    (st : ParseState) :
    KeepsConds st (st.menuSetType file sym keyword) := by
  have hType : ∀ st : ParseState,
      KeepsConds st (st.modify sym (fun s =>
        if s.type = .unknown then
          { s with type := keyword.symbolType }
        else
          s)) := by
    refine modify sym (fun s hs => ?_)
    split
    · exact hs
    · exact hs
  have hMark : ∀ (p : Property) (f : Symbol → Symbol),
      OptWellNamed p.visible → (∀ s, (f s).props = s.props) →
      KeepsConds st ((st.propAlloc sym p).modify sym f) :=
    fun p f hp hf => (propAlloc sym hp st).trans
      (modifyFlags sym hf _)
  unfold ParseState.menuSetType
  simp only
  cases keyword with
  | package =>
      exact (hMark _ (fun s => { s with isPackage := true })
        optWellNamed_none (fun _ => rfl)).trans (hType _)
  | srcdir =>
      exact (hMark _ (fun s => { s with isSrcdir := true })
        optWellNamed_none (fun _ => rfl)).trans (hType _)
  | _ => exact hType st

theorem symAddDefault
    (file : Option Text)
    (sym : SymId)
    (value : Text)
    (st : ParseState) :
    KeepsConds st (st.symAddDefault file sym value) :=
  (propAlloc sym optWellNamed_none st).trans (lookup _ _ _ _)

theorem propAddEnv
    (host : ParseHost)
    (file : Text)
    (sym : SymId)
    (name : Text)
    (st : ParseState) :
    KeepsConds st (st.propAddEnv host file sym name) := by
  have hFlagged : KeepsConds st
      (st.modify sym (fun s => { s with auto := true })) :=
    modifyFlags sym
      (f := fun s => { s with auto := true }) (fun _ => rfl) st
  unfold ParseState.propAddEnv
  simp only
  split
  · exact hFlagged
  · split
    · exact hFlagged
    · refine hFlagged.trans ?_
      have hAdded : ∀ (p : Property) (st : ParseState),
          OptWellNamed p.visible →
          KeepsConds st
            ((st.propAlloc sym p).lookup (some file) name .const) :=
        fun p st hp => (propAlloc sym hp st).trans
          (lookup (some file) name .const _)
      split
      · exact hAdded _ _ optWellNamed_none
      · exact (hAdded _ _ optWellNamed_none).trans
          (symAddDefault (some file) sym _ _)

------------------------------------------------------------
-- Options
------------------------------------------------------------

theorem addPrompt
    (file : Text)
    (menu : Nat)
    (sym : SymId)
    (cond : IfExpr)
    (st : ParseState) :
    KeepsConds st (addPrompt file menu sym cond st) :=
  (lookupIf (some file) cond st).trans
    (menuAddProp file menu sym .prompt none cond _)

theorem addDepends
    (file : Text)
    (e : WordExpr)
    (st : ParseState) :
    KeepsConds st (addDepends file e st) :=
  (lookupWords (some file) e.words st).trans (menuAddDep e _)

theorem addBuildDepends
    (file : Text)
    (menu : Nat)
    (sym : SymId)
    (e : WordExpr)
    (st : ParseState) :
    KeepsConds st (addBuildDepends file menu sym e st) :=
  ((lookupWords (some file) e.words st).trans
    (menuAddProp file menu sym .buildDepends
      (some e.toExpr) none _)).trans (menuAddDep e _)

/- A prompt that may stand behind a type. -/
theorem promptOpt
    (file : Text)
    (menu : Nat)
    (sym : SymId)
    (prompt : Option IfExpr)
    (st : ParseState) :
    KeepsConds st
      (match prompt with
      | none => st
      | some cond => Mkrootfs.addPrompt file menu sym cond st) := by
  cases prompt with
  | none => exact refl st
  | some cond => exact addPrompt file menu sym cond st

/- A count of errors, or another field of no condition. -/
theorem of_same
    {st st' : ParseState}
    (hMenu : st'.nextMenu = st.nextMenu)
    (hSymbols : st'.symbols = st.symbols)
    (hDep : st'.dep = st.dep) :
    KeepsConds st st' :=
  ⟨hMenu, fun h => ⟨hSymbols ▸ h.visible, hDep ▸ h.dep⟩⟩

theorem configOption
    (host : ParseHost)
    (file : Text)
    (menu : Nat)
    (sym : SymId)
    (option : ConfigOption)
    (st : ParseState) :
    KeepsConds st (configOption host file menu sym st option) := by
  cases option with
  | type keyword prompt =>
      exact (promptOpt file menu sym prompt st).trans
        (menuSetType file sym keyword _)
  | prompt cond => exact addPrompt file menu sym cond st
  | default keyword value cond =>
      have hAdded := ((lookupWords (some file) value.words
        st).trans (lookupIf (some file) cond _)).trans
          (menuAddProp file menu sym .default
            (some value.toExpr) cond _)
      cases keyword with
      | none => exact hAdded
      | some keyword =>
          exact hAdded.trans (menuSetType file sym keyword _)
  | select target cond =>
      exact ((lookupIf (some file) cond st).trans
        (lookup (some file) target .plain _)).trans
          (menuAddProp file menu sym .select _ cond _)
  | buildSelect target cond =>
      exact (((lookupIf (some file) cond st).trans
        (lookup (some file) target .plain _)).trans
          (menuAddProp file menu sym .buildSelect _ cond
            _)).trans (menuAddProp file menu sym .select _ cond _)
  | range low high cond =>
      exact ((lookupWords (some file) [low, high] st).trans
        (lookupIf (some file) cond _)).trans
          (menuAddProp file menu sym .range none cond _)
  | modules => exact propAlloc .modules optWellNamed_none st
  | defconfigList =>
      simp only [Mkrootfs.configOption]
      split
      · exact of_same rfl rfl rfl
      · split
        · exact refl st
        · exact of_same rfl rfl rfl
  | env name => exact propAddEnv host file sym name st
  | depends e => exact addDepends file e st
  | buildDepends e => exact addBuildDepends file menu sym e st

theorem choiceOption
    (file : Text)
    (menu : Nat)
    (sym : SymId)
    (option : ChoiceOption)
    (st : ParseState) :
    KeepsConds st (choiceOption file menu sym st option) := by
  cases option with
  | type keyword prompt =>
      have hPrompt := promptOpt file menu sym prompt st
      cases keyword with
      | boolean =>
          exact hPrompt.trans (menuSetType file sym .boolean _)
      | tristate =>
          exact hPrompt.trans (menuSetType file sym .tristate _)
      | _ => exact hPrompt.trans (of_same rfl rfl rfl)
  | prompt cond => exact addPrompt file menu sym cond st
  | optional =>
      exact modifyFlags sym
        (f := fun s => { s with optional := true })
        (fun _ => rfl) st
  | default target cond =>
      exact ((lookupIf (some file) cond st).trans
        (lookup (some file) target .plain _)).trans
          (menuAddProp file menu sym .default _ cond _)
  | depends e => exact addDepends file e st
  | buildDepends e => exact addBuildDepends file menu sym e st

theorem dependsLine
    (file : Text)
    (line : DependsLine)
    (st : ParseState) :
    KeepsConds st (dependsLine file st line) := by
  cases line with
  | depends e => exact addDepends file e st
  | buildDepends e => exact addDepends file e st

/- `menuconfig` changes the kind of a prompt only. -/
theorem forall_visible_markLastPrompt
    (menu : Nat)
    {ps : List Property}
    (hNamed : ∀ p ∈ ps, OptWellNamed p.visible) :
    ∀ p ∈ markLastPrompt menu ps, OptWellNamed p.visible := by
  induction ps with
  | nil => exact hNamed
  | cons p ps ih =>
      rw [List.forall_mem_cons] at hNamed
      unfold markLastPrompt
      split
      · exact List.forall_mem_cons.mpr hNamed
      · exact List.forall_mem_cons.mpr ⟨hNamed.1, ih hNamed.2⟩

theorem menuconfigEnd
    (isMenu : Bool)
    (menu : Nat)
    (sym : SymId)
    (st : ParseState) :
    KeepsConds st (menuconfigEnd isMenu menu sym st) := by
  unfold Mkrootfs.menuconfigEnd
  split
  · exact modify sym
      (f := fun s => { s with
        props := markLastPrompt menu s.props })
      (fun s hs => forall_visible_markLastPrompt menu hs) st
  · exact refl st

end KeepsConds

------------------------------------------------------------
-- Entries
------------------------------------------------------------

/- A step that makes the next entry. -/
structure Enters (st st' : ParseState) : Prop where
  nextMenu : st'.nextMenu = st.nextMenu + 1
  named : st.CondsNamed → st'.CondsNamed

theorem Enters.keeps
    {st st' st'' : ParseState}
    (hEnter : Enters st st')
    (hKeeps : KeepsConds st' st'') :
    Enters st st'' :=
  ⟨hKeeps.nextMenu.trans hEnter.nextMenu,
    fun h => hKeeps.named (hEnter.named h)⟩

theorem KeepsConds.enters
    {st st' st'' : ParseState}
    (hKeeps : KeepsConds st st')
    (hEnter : Enters st' st'') :
    Enters st st'' :=
  ⟨hEnter.nextMenu.trans (congrArg (· + 1) hKeeps.nextMenu),
    fun h => hEnter.named (hKeeps.named h)⟩

theorem enters_addEntry (st : ParseState) :
    Enters st st.addEntry :=
  ⟨rfl, fun h => ⟨h.visible, optWellNamed_none⟩⟩

theorem enters_configEntryStart
    (file : Text)
    (isMenu : Bool)
    (name : Text)
    (st : ParseState) :
    Enters st (configEntryStart file isMenu name st) :=
  ((KeepsConds.lookup (some file) name .plain st).trans
    (KeepsConds.modifyFlags (symLookupId name .plain)
      (f := fun s => { s with
        optional := true
        file := if isMenu then s.file else some file })
      (fun _ => rfl) _)).enters (enters_addEntry _)

theorem enters_choiceStart
    (file : Text)
    (name : Option Text)
    (st : ParseState) :
    Enters st (choiceStart file name st) := by
  have hEnter : ∀ found : ParseState, KeepsConds st found →
      Enters st
        (((found.modify (choiceSym name st) (fun s =>
          { s with auto := true })).addEntry).menuAddProp file
            st.nextMenu (choiceSym name st) .choice none none) :=
    fun found hFound =>
      ((hFound.trans (KeepsConds.modifyFlags _
        (f := fun s => { s with auto := true })
        (fun _ => rfl) found)).enters
          (enters_addEntry _)).keeps
            (KeepsConds.menuAddProp file _ _ .choice none none _)
  cases name with
  | some name =>
      exact hEnter _ (KeepsConds.lookup (some file) name .choice st)
  | none =>
      refine hEnter _ ⟨rfl, fun h => ⟨?_, h.dep⟩⟩
      intro s hs
      rcases List.mem_cons.mp hs with rfl | hOld
      · rintro p ⟨⟩
      · exact h.visible s hOld

end ParseState

------------------------------------------------------------
-- Statements
------------------------------------------------------------

open ParseState

theorem nodesOf_append (first second : List Menu) :
    nodesOf (first ++ second) = nodesOf first ++ nodesOf second := by
  induction first with
  | nil => simp [nodesOf]
  | cons m first ih => simp [nodesOf, ih]

/-
  What the parser hands on after a state: the numbers of the
  entries are new ones, each used once.
-/
structure Parsed
    (st : ParseState)
    (result : ParseState × List Menu) : Prop where
  nextMenu : st.nextMenu ≤ result.1.nextMenu
  named : st.CondsNamed → result.1.CondsNamed
  deps : st.CondsNamed →
    ∀ m ∈ nodesOf result.2, OptWellNamed m.dep
  ids : ∀ m ∈ nodesOf result.2,
    st.nextMenu ≤ m.id ∧ m.id < result.1.nextMenu
  nodup : ((nodesOf result.2).map Menu.id).Nodup

namespace Parsed

/- Statements that make no entry. -/
theorem nil
    {st st' : ParseState}
    (hNext : st.nextMenu ≤ st'.nextMenu)
    (hNamed : st.CondsNamed → st'.CondsNamed) :
    Parsed st (st', []) := by
  refine ⟨hNext, hNamed, ?_, ?_, ?_⟩
  · rintro _ m ⟨⟩
  · rintro m ⟨⟩
  · exact List.nodup_nil

theorem append
    {st mid st' : ParseState}
    {first second : List Menu}
    (hFirst : Parsed st (mid, first))
    (hSecond : Parsed mid (st', second)) :
    Parsed st (st', first ++ second) := by
  have hNext : mid.nextMenu ≤ st'.nextMenu := hSecond.nextMenu
  have hBefore : st.nextMenu ≤ mid.nextMenu := hFirst.nextMenu
  refine ⟨hBefore.trans hNext,
    fun h => hSecond.named (hFirst.named h), ?_, ?_, ?_⟩
  · intro h m hm
    rw [nodesOf_append, List.mem_append] at hm
    rcases hm with hOld | hNew
    · exact hFirst.deps h m hOld
    · exact hSecond.deps (hFirst.named h) m hNew
  · intro m hm
    rw [nodesOf_append, List.mem_append] at hm
    rcases hm with hOld | hNew
    · have hIds := hFirst.ids m hOld
      exact ⟨hIds.1, hIds.2.trans_le hNext⟩
    · have hIds := hSecond.ids m hNew
      exact ⟨hBefore.trans hIds.1, hIds.2⟩
  · rw [nodesOf_append, List.map_append, List.nodup_append]
    refine ⟨hFirst.nodup, hSecond.nodup, ?_⟩
    intro a ha b hb hSame
    rcases List.mem_map.mp ha with ⟨m, hm, rfl⟩
    rcases List.mem_map.mp hb with ⟨n, hn, rfl⟩
    have hLow := (hFirst.ids m hm).2
    have hHigh := (hSecond.ids n hn).1
    simp only at hLow
    omega

/- An entry, and what is below it. -/
theorem entry
    {st started st' : ParseState}
    {m : Menu}
    {list : List Menu}
    (hEnters : Enters st started)
    (hId : m.id = st.nextMenu)
    (hDep : m.dep = started.dep)
    (hBelow : m.nodesBelow = nodesOf list)
    (hBlock : Parsed started (st', list)) :
    Parsed st (st', [m]) := by
  have hNodes : nodesOf [m] = m :: nodesOf list := by
    simp [nodesOf, hBelow]
  have hStart := hEnters.nextMenu
  have hNext : started.nextMenu ≤ st'.nextMenu := hBlock.nextMenu
  have hIds := hBlock.ids
  simp only at hIds
  refine ⟨by simp only; omega,
    fun h => hBlock.named (hEnters.named h), ?_, ?_, ?_⟩
  · intro h
    simp only [hNodes]
    rw [List.forall_mem_cons, hDep]
    exact ⟨(hEnters.named h).dep, hBlock.deps (hEnters.named h)⟩
  · simp only [hNodes]
    rw [List.forall_mem_cons, hId]
    refine ⟨by omega, fun n hn => ?_⟩
    have hn := hIds n hn
    omega
  · simp only [hNodes]
    rw [List.map_cons, List.nodup_cons, hId]
    refine ⟨fun hMem => ?_, hBlock.nodup⟩
    rcases List.mem_map.mp hMem with ⟨n, hn, hSame⟩
    have hn := hIds n hn
    omega

end Parsed

mutual

theorem parseStmt_parsed
    (host : ParseHost)
    (file : Text)
    (stmt : Stmt)
    (st : ParseState) :
    Parsed st (parseStmt host file stmt st) := by
  cases stmt with
  | config isMenu name options =>
      have hDone := (enters_configEntryStart file isMenu name
        st).keeps (KeepsConds.foldl (fun started option =>
          KeepsConds.configOption host file st.nextMenu
            (symLookupId name .plain) option started) options _)
      have hEnd := KeepsConds.menuconfigEnd isMenu st.nextMenu
        (symLookupId name .plain)
      unfold parseStmt
      exact Parsed.entry hDone rfl rfl rfl
        (Parsed.nil (hEnd _).nextMenu.ge (hEnd _).named)
  | choice name options block =>
      have hStarted := (enters_choiceStart file name st).keeps
        (KeepsConds.foldl (fun started option =>
          KeepsConds.choiceOption file st.nextMenu
            (choiceSym name st) option started) options _)
      unfold parseStmt
      exact Parsed.entry hStarted rfl rfl rfl
        (parseStmts_parsed host file block _)
  | menu lines block =>
      have hStarted := (enters_addEntry st).keeps
        (KeepsConds.foldl (fun started line =>
          KeepsConds.dependsLine file line started) lines _)
      unfold parseStmt
      exact Parsed.entry hStarted rfl rfl rfl
        (parseStmts_parsed host file block _)
  | ifBlock cond block =>
      have hStarted := ((KeepsConds.lookupWords (some file)
        cond.words st).enters (enters_addEntry _)).keeps
          (KeepsConds.menuAddDep cond _)
      unfold parseStmt
      exact Parsed.entry hStarted rfl rfl rfl
        (parseStmts_parsed host file block _)
  | comment lines =>
      have hLines := (enters_addEntry st).keeps
        (KeepsConds.foldl (fun started line =>
          KeepsConds.dependsLine file line started) lines _)
      unfold parseStmt
      exact Parsed.nil
        (Nat.le_of_succ_le hLines.nextMenu.ge) hLines.named
  | source name block =>
      unfold parseStmt
      split
      · exact Parsed.nil le_rfl
          (fun h => ⟨h.visible, h.dep⟩)
      · have hBlock := parseStmts_parsed host name block
          { st with sourced := name :: st.sourced }
        have hSame : st.CondsNamed → ParseState.CondsNamed
            { st with sourced := name :: st.sourced } :=
          fun h => ⟨h.visible, h.dep⟩
        exact ⟨hBlock.nextMenu, fun h => hBlock.named (hSame h),
          fun h => hBlock.deps (hSame h), hBlock.ids,
          hBlock.nodup⟩

theorem parseStmts_parsed
    (host : ParseHost)
    (file : Text)
    (stmts : List Stmt)
    (st : ParseState) :
    Parsed st (parseStmts host file stmts st) := by
  cases stmts with
  | nil =>
      unfold parseStmts
      exact Parsed.nil le_rfl id
  | cons stmt stmts =>
      unfold parseStmts
      exact (parseStmt_parsed host file stmt st).append
        (parseStmts_parsed host file stmts _)

end

theorem condsNamed_parseStart
    (host : ParseHost)
    (file : Text) :
    (parseStart host file).CondsNamed := by
  have hStarted : ParseState.CondsNamed
      { symbols := builtinSymbols
        dep := none
        sourced := [file]
        defconfigList := none
        nextMenu := 0
        nextChoice := 0
        errors := 0 } := by
    refine ⟨?_, optWellNamed_none⟩
    intro s hs p hp
    have hNone : s.props = [] := by
      revert hs
      simp only [builtinSymbols, Symbol.alloc]
      intro hs
      simp only [List.mem_cons, List.not_mem_nil, or_false] at hs
      rcases hs with rfl | rfl | rfl | rfl <;> rfl
    rw [hNone] at hp
    cases hp
  have hInit := ((((KeepsConds.lookup (some file)
    "UNAME_RELEASE".toList .plain _).trans
    (KeepsConds.modifyFlags (.named "UNAME_RELEASE".toList)
      (f := fun s => { s with type := .string, auto := true })
      (fun _ => rfl) _)).trans
    (KeepsConds.symAddDefault (some file)
      (.named "UNAME_RELEASE".toList) host.release _)).named
        hStarted)
  refine ⟨?_, hInit.dep⟩
  refine List.forall_mem_cons.mpr ⟨?_, hInit.visible⟩
  rintro p ⟨⟩

/- The entries and conditions of a parsed tree. -/
theorem parseTree_parsed
    (host : ParseHost)
    (file : Text)
    (stmts : List Stmt) :
    (parseTree host file stmts).1.CondsNamed ∧
      (∀ m ∈ nodesOf (parseTree host file stmts).2,
        OptWellNamed m.dep) ∧
      ((nodesOf (parseTree host file stmts).2).map
        Menu.id).Nodup := by
  have hParsed := parseStmts_parsed host file stmts
    (parseStart host file)
  have hStart := condsNamed_parseStart host file
  exact ⟨hParsed.named hStart, hParsed.deps hStart, hParsed.nodup⟩

theorem named_addModulesDefault
    {t : SymbolTable}
    (hNamed : ∀ s ∈ t, ∀ p ∈ s.props, OptWellNamed p.visible) :
    ∀ s ∈ addModulesDefault t, ∀ p ∈ s.props,
      OptWellNamed p.visible := by
  unfold addModulesDefault
  split
  · exact hNamed
  · split
    · refine forall_mem_symLookup
        (forall_mem_modifySymbol hNamed ?_) (fun p hp => by cases hp)
      intro s _ _ hs
      refine List.forall_mem_append.mpr ⟨hs, ?_⟩
      exact List.forall_mem_singleton.mpr optWellNamed_none
    · exact hNamed

------------------------------------------------------------
-- The Conditions Of A Tree
------------------------------------------------------------

/- Tables that differ in the form of their conditions only. -/
def SameTable (v : Values) (t t' : SymbolTable) : Prop :=
  List.Forall₂ (fun s s' : Symbol =>
    s' = { s with props := s'.props, revDep := s'.revDep } ∧
      SameVisibility (revDepValue v s.revDep)
        (revDepValue v s'.revDep) ∧
      List.Forall₂ (fun p p' : Property =>
        p' = { p with visible := p'.visible } ∧
          SameVisibility (exprCalcValue v p.visible)
            (exprCalcValue v p'.visible))
        s.props s'.props) t t'

theorem TableAgrees.sameTable
    {v : Values}
    {done : List Nat}
    {t t' : SymbolTable}
    (hAgrees : TableAgrees v done t t') :
    SameTable v t t' :=
  List.Forall₂.imp (fun _ _ hs => ⟨hs.same, hs.revDep,
    hs.props.imp (fun _ _ hp => ⟨hp.same, hp.visible⟩)⟩) hAgrees

/-
  An entry with the symbol that its kind has: a choice that
  is not called `y`, `m` or `n`, and no symbol for a menu.
-/
def Menu.KindFits (notTristate : Nat → Bool) : Menu → Prop
| .config _ _ _ _ _ => True
| .choice _ sym _ _ _ => sym.isChoice = true
| .menu id _ _ => notTristate id = false
| .ifBlock _ _ _ => True

instance (notTristate : Nat → Bool) (m : Menu) :
    Decidable (m.KindFits notTristate) :=
  match m with
  | .config _ _ _ _ _ => isTrue trivial
  | .choice _ sym _ _ _ =>
      inferInstanceAs (Decidable (sym.isChoice = true))
  | .menu id _ _ =>
      inferInstanceAs (Decidable (notTristate id = false))
  | .ifBlock _ _ _ => isTrue trivial

theorem Menu.KindFits.regular
    {notTristate : Nat → Bool}
    {m : Menu}
    (hFits : m.KindFits notTristate)
    (hNamed : OptWellNamed m.dep) :
    m.Regular notTristate := by
  refine ⟨hNamed, ?_, ?_⟩
  · rintro id sym file dep list rfl
    exact hFits
  · rintro id dep list rfl
    exact hFits

/- A line other than a `build_select` with a condition. -/
def ConfigOption.isUnshared : ConfigOption → Bool
| .buildSelect _ cond => cond.isNone
| _ => true

mutual

/- Only such lines stand in a statement. -/
def Stmt.isUnshared : Stmt → Bool
| .config _ _ options => options.all ConfigOption.isUnshared
| .choice _ _ block => areUnshared block
| .menu _ block => areUnshared block
| .ifBlock _ block => areUnshared block
| .comment _ => true
| .source _ block => areUnshared block

def areUnshared : List Stmt → Bool
| [] => true
| stmt :: stmts => stmt.isUnshared && areUnshared stmts

end

/-
  A tree in which each condition belongs to one property.
  The parser hands the condition of a `build_select` to two
  properties, and `menu_finalize` then rewrites, or frees, the
  same expression twice.
-/
structure UnsharedTree where
  stmts : List Stmt
  unshared : areUnshared stmts = true

/-
  Whatever such a tree says, the conditions that `expr.c`
  leaves can be seen where the written ones can.
-/
theorem confParse_exprRewriting
    (host : ParseHost)
    (file : Text)
    (tree : UnsharedTree)
    (submenu : Nat → Bool)
    {v : Values}
    {types : Nat → SymId → SymbolType}
    {notTristate : Nat → Bool}
    (hTyped : ∀ id, v.Typed (types id))
    (hTypes : ∀ id c, types id (.builtin c) ≠ .boolean)
    (hFits : ∀ m ∈ nodesOf (parseTree host file tree.stmts).2,
      m.KindFits notTristate) :
    Option.Rel
      (fun plain rewritten => plain.2 = rewritten.2 ∧
        SameTable v plain.1 rewritten.1)
      (confParse host (plainRewriting submenu) file tree.stmts)
      (confParse host
        (exprRewriting types notTristate submenu) file
        tree.stmts) := by
  rcases parseTree_parsed host file tree.stmts with
    ⟨hNamed, hDeps, hNodup⟩
  unfold confParse
  simp only
  split
  · refine Option.Rel.some ⟨rfl, ?_⟩
    have hStart := tableAgrees_self v
      (named_addModulesDefault hNamed.visible)
    exact (finalizeRoot_agrees submenu hTyped hTypes hStart
      (fun m hm => (hFits m hm).regular (hDeps m hm))
      hNodup).sameTable
  · exact Option.Rel.none

/- `A`, said three times over `B`. -/
def repeatedTree : UnsharedTree where
  stmts :=
    let a : WordExpr := .symbol ⟨"A".toList, false⟩
    [.ifBlock a
      [.config false "B".toList
        [.type .boolean (some (some (.or (.not (.not a)) a)))]]]
  unshared := rfl

theorem confParse_exprRewriting_repeated :
    Option.Rel
      (fun plain rewritten => plain.2 = rewritten.2 ∧
        SameTable (.setting ["A".toList]) plain.1 rewritten.1)
      (confParse bareHost (plainRewriting (fun _ => false))
        "Kconfig".toList repeatedTree.stmts)
      (confParse bareHost
        (exprRewriting (fun _ => optionTypes)
          (fun id => id == 1) (fun _ => false))
        "Kconfig".toList repeatedTree.stmts) :=
  confParse_exprRewriting bareHost "Kconfig".toList
    repeatedTree (fun _ => false)
    (fun _ => Values.setting_typed ["A".toList])
    (fun _ c h => by cases h) (by decide +kernel)

end Mkrootfs
