import Mkrootfs.Kconfig.Calculator

/-
  What the calculator of `symbol.c` is for: every symbol has
  an equation for its value, in terms of the values of the
  symbols that its prompts, conditions, defaults, ranges and
  its choice read.

  The equations know no state and no order.  A choice tries
  its values while it counts as `y` itself, so that its own
  value is no part of what it reads.

  Main declarations:
    * `visibleIn`, `revIn`, `chosenIn`, `valueIn`
    * `reads`, `equations`
-/

------------------------------------------------------------
-- Values In An Assignment
------------------------------------------------------------

namespace Mkrootfs

namespace CalcTable

variable (t : CalcTable)

section Assignment

variable (v : SymId → SymbolValue)

/- The tristate and the string values of an assignment. -/
def valuesOf : Values where
  tri s := (v s).tri
  str s := t.stringValue s (v s)

def condIn (e : Option Expr) : Tristate :=
  exprCalcValue (t.valuesOf v) e

def promptIn (s : SymId) : Tristate :=
  (t.prompts s).foldl
    (fun tri p => tri.or (t.condIn v p.visible)) .no

def visibleIn (s : SymId) : Tristate :=
  t.settleVisible (v .modules).tri s (t.promptIn v s)

def typeIn (s : SymId) : SymbolType :=
  t.typeAt (v .modules).tri (t.visibleIn v s) s

def revIn (s : SymId) : Tristate :=
  if t.isChoiceValue s then
    .no
  else
    match (t.symbol s).revDep with
    | none => .no
    | some e =>
        settleTri (t.typeIn v s) (e.calcValue (t.valuesOf v))

def firstIn
    {P : Type}
    (cond : P → Option Expr) :
    List P → Option (P × Tristate)
| [] => none
| p :: ps =>
    if t.condIn v (cond p) = .no then
      firstIn cond ps
    else
      some (p, t.condIn v (cond p))

def defaultTriIn (s : SymId) : Tristate :=
  match t.firstIn v Property.visible (t.defaults s) with
  | none => .no
  | some (p, tri) => (t.condIn v p.expr).and tri

def freeTriIn (s : SymId) (visible : Tristate) : Tristate :=
  if visible ≠ .no ∧ (t.symbol s).hasUser = true then
    ((t.symbol s).defUser.tri.and visible).or (t.revIn v s)
  else if s.isChoice then
    Tristate.no.or (t.revIn v s)
  else
    (t.defaultTriIn v s).or (t.revIn v s)

def tristateIn (s : SymId) : Tristate :=
  settleTri (t.typeIn v s)
    (match (t.symbol s).choiceOf, t.visibleIn v s with
    | some c, .yes =>
        if (v (.choice c)).chosen = some s then .yes else .no
    | _, visible => t.freeTriIn v s visible)

def stringIn
    (s : SymId)
    (newval : SymbolValue) : SymbolValue :=
  if t.visibleIn v s ≠ .no ∧
      (t.symbol s).hasUser = true then
    { newval with val := (t.symbol s).defUser.val }
  else
    match t.firstIn v Property.visible (t.defaults s) with
    | none => newval
    | some (p, _) =>
        match p.symbol with
        | none => newval
        | some ds =>
            { newval with
              val := (v ds).val
              chosen := (v ds).chosen }

def newvalIn
    (s : SymId)
    (newval : SymbolValue) : SymbolValue :=
  match t.typeIn v s with
  | .boolean | .tristate =>
      { newval with tri := t.tristateIn v s }
  | .string | .hex | .int => t.stringIn v s newval
  | .unknown | .other => newval

/- The first candidate of a choice that can be seen. -/
def chosenIn : List (Option Expr × SymId) → Option SymId
| [] => none
| (cond, value) :: rest =>
    if t.condIn v cond = .no ∨ t.visibleIn v value = .no then
      chosenIn rest
    else
      some value

def boundIn (s : SymId) (base : Nat) : Int :=
  strtolInt t.longBits (((t.type s).base).getD base) (v s).val

def rangeIn
    (s : SymId)
    (newval : SymbolValue) : SymbolValue :=
  match (t.type s).base with
  | none => newval
  | some base =>
      match t.firstIn v RangeProp.visible (t.ranges s) with
      | none => newval
      | some (p, _) =>
          let val := strtolInt t.longBits base newval.val
          if val < t.boundIn v p.low base then
            { newval with
              val := printBound (t.type s)
                (t.boundIn v p.low base) }
          else if val ≤ t.boundIn v p.high base then
            newval
          else
            { newval with
              val := printBound (t.type s)
                (t.boundIn v p.high base) }

end Assignment

/-
  The value of a choice: its values are tried under the
  assignment in which the choice has the value `newval`.
-/
def choiceIn
    (v : SymId → SymbolValue)
    (s : SymId)
    (newval : SymbolValue) : SymbolValue :=
  if s.isChoice ∧ newval.tri = .yes then
    match t.chosenIn (Function.update v s newval)
        (t.candidates s) with
    | some value =>
        { newval with val := [], chosen := some value }
    | none =>
        { newval with val := [], chosen := none, tri := .no }
  else
    newval

/- Symbols whose value is calculated at all. -/
def isTyped (s : SymId) : Bool :=
  s.isHashed && (t.type s).startValue.isSome

/- The equation of a symbol. -/
def valueIn
    (v : SymId → SymbolValue)
    (s : SymId) : SymbolValue :=
  match s with
  | .builtin tri => ⟨tri.text, none, tri⟩
  | _ =>
      match (t.type s).startValue with
      | none => ⟨s.name.getD [], none, .no⟩
      | some newval =>
          t.rangeIn v s
            (t.choiceIn v s (t.newvalIn v s newval))

/- The kind of a type stays, whatever is visible. -/
theorem typeAt_iff
    (modulesVal visible : Tristate)
    (s : SymId) :
    (t.typeAt modulesVal visible s = .boolean ∨
        t.typeAt modulesVal visible s = .tristate) ↔
      (t.type s = .boolean ∨ t.type s = .tristate) := by
  unfold typeAt
  by_cases hType : t.type s = .tristate
  · rw [if_pos hType]
    constructor
    · intro _
      exact Or.inr hType
    · intro _
      split
      · exact Or.inl rfl
      · split
        · exact Or.inl rfl
        · exact Or.inr rfl
  · rw [if_neg hType]

------------------------------------------------------------
-- What An Equation Reads
------------------------------------------------------------

/- Of the types, only tristate asks for the modules. -/
def typeReads (s : SymId) : List SymId :=
  if t.type s = .tristate then [.modules] else []

/- What the visibility of a symbol reads. -/
def shownReads (s : SymId) : List SymId :=
  (t.prompts s).flatMap (fun p => optSyms p.visible) ++
    t.typeReads s

/- What selects a symbol, or the choice of a choice value. -/
def revReads (s : SymId) : List SymId :=
  match (t.symbol s).choiceOf with
  | some c => [.choice c]
  | none => optSyms (t.symbol s).revDep

/- A choice looks at its defaults among the candidates. -/
def defaultReads (s : SymId) : List SymId :=
  if s.isChoice ∧
      (t.type s = .boolean ∨ t.type s = .tristate) then
    []
  else
    (t.defaults s).flatMap (fun p =>
      optSyms p.visible ++ optSyms p.expr)

def rangeReads (s : SymId) : List SymId :=
  (t.ranges s).flatMap (fun p =>
    optSyms p.visible ++ [p.low, p.high])

/- What a choice reads to see its candidates. -/
def candidateReads (s : SymId) : List SymId :=
  (t.candidates s).flatMap (fun candidate =>
    (optSyms candidate.1 ++ t.shownReads candidate.2).filter
      (fun other => other ≠ s))

/- All symbols that the value of a symbol depends on. -/
def reads (s : SymId) : List SymId :=
  if t.isTyped s then
    t.shownReads s ++ t.revReads s ++ t.defaultReads s ++
      t.rangeReads s ++ t.candidateReads s
  else
    []

------------------------------------------------------------
-- Equal Readings
------------------------------------------------------------

/- Expressions are valued alike where their symbols are. -/
theorem calcValue_congr
    {v w : Values}
    (e : Expr)
    (hTri : ∀ s ∈ e.syms, v.tri s = w.tri s)
    (hStr : ∀ s ∈ e.syms, v.str s = w.str s) :
    e.calcValue v = e.calcValue w := by
  induction e with
  | symbol s => exact hTri s List.mem_cons_self
  | equal s u =>
      simp only [Expr.syms, List.mem_cons, List.not_mem_nil,
        or_false, forall_eq_or_imp, forall_eq] at hStr
      simp only [Expr.calcValue, hStr]
  | unequal s u =>
      simp only [Expr.syms, List.mem_cons, List.not_mem_nil,
        or_false, forall_eq_or_imp, forall_eq] at hStr
      simp only [Expr.calcValue, hStr]
  | not e ih => simp only [Expr.calcValue, ih hTri hStr]
  | and e f ihe ihf =>
      simp only [Expr.syms, List.mem_append] at hTri hStr
      simp only [Expr.calcValue,
        ihe (fun s h => hTri s (Or.inl h))
          (fun s h => hStr s (Or.inl h)),
        ihf (fun s h => hTri s (Or.inr h))
          (fun s h => hStr s (Or.inr h))]
  | or e f ihe ihf =>
      simp only [Expr.syms, List.mem_append] at hTri hStr
      simp only [Expr.calcValue,
        ihe (fun s h => hTri s (Or.inl h))
          (fun s h => hStr s (Or.inl h)),
        ihf (fun s h => hTri s (Or.inr h))
          (fun s h => hStr s (Or.inr h))]

section Congruence

variable {t}
variable {v w : SymId → SymbolValue}

/- Conditions tell two values of a symbol apart by these. -/
def SeenAlike
    (t : CalcTable)
    (v w : SymId → SymbolValue)
    (s : SymId) : Prop :=
  (v s).tri = (w s).tri ∧
    t.stringValue s (v s) = t.stringValue s (w s)

theorem SeenAlike.of_eq
    {s : SymId}
    (hSame : v s = w s) : SeenAlike t v w s :=
  ⟨congrArg SymbolValue.tri hSame,
    congrArg (t.stringValue s) hSame⟩

theorem condIn_seen
    {e : Option Expr}
    (hSame : ∀ s ∈ optSyms e, SeenAlike t v w s) :
    t.condIn v e = t.condIn w e := by
  cases e with
  | none => rfl
  | some e =>
      exact calcValue_congr e (fun s hs => (hSame s hs).1)
        (fun s hs => (hSame s hs).2)

theorem condIn_congr
    {e : Option Expr}
    (hSame : ∀ s ∈ optSyms e, v s = w s) :
    t.condIn v e = t.condIn w e :=
  condIn_seen (fun s hs => .of_eq (hSame s hs))

/- Whether there are modules matters to tristates only. -/
theorem settleVisible_congr
    {s : SymId}
    {m n : Tristate}
    (hSame : t.type s = .tristate → m = n)
    (tri : Tristate) :
    t.settleVisible m s tri = t.settleVisible n s tri := by
  unfold settleVisible
  by_cases hType : t.type s = .tristate
  · rw [hSame hType]
  · simp [hType]

theorem typeAt_congr
    {s : SymId}
    {m n : Tristate}
    (hSame : t.type s = .tristate → m = n)
    (visible : Tristate) :
    t.typeAt m visible s = t.typeAt n visible s := by
  unfold typeAt
  by_cases hType : t.type s = .tristate
  · rw [hSame hType]
  · simp [hType]

theorem modules_of_shownReads
    {s : SymId}
    (hSame : ∀ r ∈ t.shownReads s, SeenAlike t v w r)
    (hType : t.type s = .tristate) :
    (v .modules).tri = (w .modules).tri :=
  (hSame .modules (by simp [shownReads, typeReads, hType])).1

theorem visibleIn_seen
    {s : SymId}
    (hSame : ∀ r ∈ t.shownReads s, SeenAlike t v w r) :
    t.visibleIn v s = t.visibleIn w s := by
  have hPrompts : t.promptIn v s = t.promptIn w s := by
    unfold promptIn
    refine List.foldl_ext _ _ _ ?_
    intro tri p hp
    congr 1
    refine condIn_seen ?_
    intro r hr
    exact hSame r (List.mem_append_left _
      (List.mem_flatMap.mpr ⟨p, hp, hr⟩))
  unfold visibleIn
  rw [hPrompts]
  exact settleVisible_congr (modules_of_shownReads hSame) _

theorem visibleIn_congr
    {s : SymId}
    (hSame : ∀ r ∈ t.shownReads s, v r = w r) :
    t.visibleIn v s = t.visibleIn w s :=
  visibleIn_seen (fun r hr => .of_eq (hSame r hr))

theorem typeIn_congr
    {s : SymId}
    (hSame : ∀ r ∈ t.shownReads s, v r = w r) :
    t.typeIn v s = t.typeIn w s := by
  unfold typeIn
  rw [visibleIn_congr hSame]
  exact typeAt_congr (modules_of_shownReads
    (fun r hr => .of_eq (hSame r hr))) _

theorem revIn_congr
    {s : SymId}
    (hShown : ∀ r ∈ t.shownReads s, v r = w r)
    (hRev : ∀ r ∈ t.revReads s, v r = w r) :
    t.revIn v s = t.revIn w s := by
  unfold revIn
  split
  · rfl
  · next hValue =>
      have hNone : (t.symbol s).choiceOf = none := by
        simpa [isChoiceValue] using hValue
      have hCond :=
        condIn_congr (t := t) (v := v) (w := w)
          (e := (t.symbol s).revDep)
          (by simpa only [revReads, hNone] using hRev)
      rw [typeIn_congr hShown]
      cases hDep : (t.symbol s).revDep with
      | none => rfl
      | some e =>
          have hValue : e.calcValue (t.valuesOf v) =
              e.calcValue (t.valuesOf w) := by
            rwa [hDep] at hCond
          simp only [hValue]

theorem firstIn_congr
    {P : Type}
    {cond : P → Option Expr}
    {ps : List P}
    (hSame : ∀ p ∈ ps, ∀ r ∈ optSyms (cond p), v r = w r) :
    t.firstIn v cond ps = t.firstIn w cond ps := by
  induction ps with
  | nil => rfl
  | cons p ps ih =>
      have hHead :=
        condIn_congr (t := t) (hSame p List.mem_cons_self)
      have hTail := ih (fun q hq =>
        hSame q (List.mem_cons_of_mem p hq))
      simp only [firstIn, hHead, hTail]

/- The property that is found is one of the list. -/
theorem firstIn_mem
    {P : Type}
    {cond : P → Option Expr}
    {ps : List P}
    {p : P}
    {tri : Tristate}
    (hFirst : t.firstIn v cond ps = some (p, tri)) :
    p ∈ ps ∧ tri = t.condIn v (cond p) ∧ tri ≠ .no := by
  induction ps with
  | nil => cases hFirst
  | cons q ps ih =>
      unfold firstIn at hFirst
      split at hFirst
      · rcases ih hFirst with ⟨hMem, hTri⟩
        exact ⟨List.mem_cons_of_mem q hMem, hTri⟩
      · next hCond =>
          cases hFirst
          exact ⟨List.mem_cons_self, rfl, hCond⟩

theorem chosenIn_congr
    {list : List (Option Expr × SymId)}
    (hSame : ∀ candidate ∈ list,
      ∀ r ∈ optSyms candidate.1 ++ t.shownReads candidate.2,
        v r = w r) :
    t.chosenIn v list = t.chosenIn w list := by
  induction list with
  | nil => rfl
  | cons candidate list ih =>
      rcases candidate with ⟨cond, value⟩
      have hHead := hSame (cond, value) List.mem_cons_self
      have hCond : t.condIn v cond = t.condIn w cond :=
        condIn_congr (fun r hr =>
          hHead r (List.mem_append_left _ hr))
      have hShown : t.visibleIn v value = t.visibleIn w value :=
        visibleIn_congr (fun r hr =>
          hHead r (List.mem_append_right _ hr))
      have hTail := ih (fun other hOther =>
        hSame other (List.mem_cons_of_mem _ hOther))
      simp only [chosenIn, hCond, hShown, hTail]

/- What the equation of a symbol with a value reads. -/
structure AgreeOn
    (t : CalcTable)
    (v w : SymId → SymbolValue)
    (s : SymId) : Prop where
  shown : ∀ r ∈ t.shownReads s, v r = w r
  rev : ∀ r ∈ t.revReads s, v r = w r
  defaults : ∀ r ∈ t.defaultReads s, v r = w r
  ranges : ∀ r ∈ t.rangeReads s, v r = w r
  candidates : ∀ r ∈ t.candidateReads s, v r = w r

theorem AgreeOn.of_reads
    {s : SymId}
    (hTyped : t.isTyped s = true)
    (hSame : ∀ r ∈ t.reads s, v r = w r) :
    AgreeOn t v w s := by
  simp only [reads, hTyped, if_true, List.mem_append] at hSame
  exact
    ⟨fun r h => hSame r (Or.inl (Or.inl (Or.inl (Or.inl h)))),
      fun r h => hSame r (Or.inl (Or.inl (Or.inl (Or.inr h)))),
      fun r h => hSame r (Or.inl (Or.inl (Or.inr h))),
      fun r h => hSame r (Or.inl (Or.inr h)),
      fun r h => hSame r (Or.inr h)⟩

namespace AgreeOn

variable {s : SymId}
variable (hAgree : AgreeOn t v w s)

include hAgree

/- The defaults agree, unless a boolean choice skips them. -/
theorem default_mem
    (hDefaults : ¬ (s.isChoice ∧
      (t.type s = .boolean ∨ t.type s = .tristate)))
    {p : Property}
    (hp : p ∈ t.defaults s) :
    (∀ r ∈ optSyms p.visible, v r = w r) ∧
      ∀ r ∈ optSyms p.expr, v r = w r := by
  have hSame := hAgree.defaults
  simp only [defaultReads, if_neg hDefaults] at hSame
  constructor
  · intro r hr
    exact hSame r (List.mem_flatMap.mpr
      ⟨p, hp, List.mem_append_left _ hr⟩)
  · intro r hr
    exact hSame r (List.mem_flatMap.mpr
      ⟨p, hp, List.mem_append_right _ hr⟩)

theorem default_eq
    (hDefaults : ¬ (s.isChoice ∧
      (t.type s = .boolean ∨ t.type s = .tristate))) :
    t.firstIn v Property.visible (t.defaults s) =
      t.firstIn w Property.visible (t.defaults s) :=
  firstIn_congr (fun _ hp =>
    (hAgree.default_mem hDefaults hp).1)

theorem tristateIn_eq :
    t.tristateIn v s = t.tristateIn w s := by
  have hDefault : s.isChoice = false →
      t.defaultTriIn v s = t.defaultTriIn w s := by
    intro hPlain
    have hNot : ¬ (s.isChoice ∧
        (t.type s = .boolean ∨ t.type s = .tristate)) := by
      simp [hPlain]
    unfold defaultTriIn
    rw [hAgree.default_eq hNot]
    split
    · rfl
    · next p tri hFirst =>
        rw [condIn_congr
          (hAgree.default_mem hNot (firstIn_mem hFirst).1).2]
  have hFree : ∀ visible,
      t.freeTriIn v s visible = t.freeTriIn w s visible := by
    intro visible
    unfold freeTriIn
    rw [revIn_congr hAgree.shown hAgree.rev]
    split
    · rfl
    · split
      · rfl
      · next hPlain => rw [hDefault (by simpa using hPlain)]
  unfold tristateIn
  rw [typeIn_congr hAgree.shown, visibleIn_congr hAgree.shown]
  congr 1
  split
  · next c hChoice _ =>
      rw [hAgree.rev (.choice c)
        (by simp [revReads, hChoice])]
  · rw [hFree]

theorem stringIn_eq
    (newval : SymbolValue)
    (hType : ¬ (t.type s = .boolean ∨ t.type s = .tristate)) :
    t.stringIn v s newval = t.stringIn w s newval := by
  have hNot : ¬ (s.isChoice ∧
      (t.type s = .boolean ∨ t.type s = .tristate)) :=
    fun h => hType h.2
  unfold stringIn
  rw [visibleIn_congr hAgree.shown, hAgree.default_eq hNot]
  split
  · rfl
  · split
    · rfl
    · next p tri hFirst =>
        cases hSymbol : p.symbol with
        | none => rfl
        | some ds =>
            simp only [(hAgree.default_mem hNot
              (firstIn_mem hFirst).1).2 ds
                (p.symbol_mem hSymbol)]

theorem newvalIn_eq
    (newval : SymbolValue) :
    t.newvalIn v s newval = t.newvalIn w s newval := by
  unfold newvalIn
  rw [typeIn_congr hAgree.shown]
  generalize hType : t.typeIn w s = type
  have hTri := t.typeAt_iff (w .modules).tri (t.visibleIn w s) s
  rw [show t.typeAt _ _ s = type from hType] at hTri
  cases type with
  | boolean =>
      simp only [hAgree.tristateIn_eq]
  | tristate =>
      simp only [hAgree.tristateIn_eq]
  | int => exact hAgree.stringIn_eq newval (by simp [← hTri])
  | hex => exact hAgree.stringIn_eq newval (by simp [← hTri])
  | string =>
      exact hAgree.stringIn_eq newval (by simp [← hTri])
  | unknown => rfl
  | other => rfl

theorem choiceIn_eq
    (newval : SymbolValue) :
    t.choiceIn v s newval = t.choiceIn w s newval := by
  have hChosen :
      t.chosenIn (Function.update v s newval)
          (t.candidates s) =
        t.chosenIn (Function.update w s newval)
          (t.candidates s) := by
    refine chosenIn_congr ?_
    intro candidate hCandidate r hr
    by_cases hSelf : r = s
    · subst hSelf
      simp
    · rw [Function.update_of_ne hSelf,
        Function.update_of_ne hSelf]
      refine hAgree.candidates r (List.mem_flatMap.mpr
        ⟨candidate, hCandidate, List.mem_filter.mpr ⟨hr, ?_⟩⟩)
      simpa using hSelf
  unfold choiceIn
  rw [hChosen]

theorem rangeIn_eq
    (newval : SymbolValue) :
    t.rangeIn v s newval = t.rangeIn w s newval := by
  have hRead : ∀ p ∈ t.ranges s,
      ∀ r ∈ optSyms p.visible ++ [p.low, p.high], v r = w r :=
    fun p hp r hr => hAgree.ranges r
      (List.mem_flatMap.mpr ⟨p, hp, hr⟩)
  have hFirst :
      t.firstIn v RangeProp.visible (t.ranges s) =
        t.firstIn w RangeProp.visible (t.ranges s) :=
    firstIn_congr (fun p hp r hr =>
      hRead p hp r (List.mem_append_left _ hr))
  unfold rangeIn
  rw [hFirst]
  split
  · rfl
  · split
    · rfl
    · next base _ _ p tri hSome =>
        have hBounds := hRead p (firstIn_mem hSome).1
        have hLow : t.boundIn v p.low base =
            t.boundIn w p.low base := by
          unfold boundIn
          rw [hBounds p.low (by simp)]
        have hHigh : t.boundIn v p.high base =
            t.boundIn w p.high base := by
          unfold boundIn
          rw [hBounds p.high (by simp)]
        rw [hLow, hHigh]

end AgreeOn

/- A value is determined by what its equation reads. -/
theorem valueIn_congr
    (t : CalcTable)
    (v w : SymId → SymbolValue)
    (s : SymId)
    (hSame : ∀ r ∈ t.reads s, v r = w r) :
    t.valueIn v s = t.valueIn w s := by
  unfold valueIn
  split
  · rfl
  · next hPlain =>
      have hHashed : s.isHashed = true := by
        cases s with
        | builtin tri => exact absurd rfl (hPlain tri)
        | _ => rfl
      split
      · rfl
      · next newval hStart =>
          have hTyped : t.isTyped s = true := by
            simp [isTyped, hHashed, hStart]
          have hAgree := AgreeOn.of_reads hTyped hSame
          rw [hAgree.newvalIn_eq, hAgree.choiceIn_eq,
            hAgree.rangeIn_eq]

end Congruence

/- The equations of all symbols. -/
def equations : Equations SymId SymbolValue where
  reads := t.reads
  value := t.valueIn
  value_congr := valueIn_congr t

end CalcTable

end Mkrootfs
