import Mathlib.Logic.Function.Basic
import Mkrootfs.Library.NumberText
import Mkrootfs.Library.Equations
import Mkrootfs.Kconfig.ExprValue

/-
  The calculator of `symbol.c`: `sym_calc_value` with the
  visibility, the choices and the ranges that it calculates
  on the way.

  What the parser and the reader leave is fixed; the flags
  `SYMBOL_VALID` and `SYMBOL_WRITE` and the calculated values
  form the state.  The calculator calls itself for symbols
  that are not valid yet, to a depth given by `fuel`.

  Main declarations:
    * `CalcTable`, `CalcState`
    * `calcExpr`, `symCalcVisibility`, `symCalcChoice`
    * `symCalcValue`, `symClearAllValid`
-/

------------------------------------------------------------
-- Symbols And Their State
------------------------------------------------------------

namespace Mkrootfs

/- A property `range`: its condition and its two bounds. -/
structure RangeProp where
  visible : Option Expr
  low : SymId
  high : SymId
deriving DecidableEq, Repr

/-
  The symbols with the ranges of the numbers and the list of
  values of each choice.  `longBits` is the width of a `long`.
-/
structure CalcTable where
  symbol : SymId → Symbol
  ranges : SymId → List RangeProp
  values : ChoiceId → List SymId
  longBits : Nat

/-
  What the calculator writes: `SYMBOL_VALID`, `SYMBOL_WRITE`,
  `curr`, `visible`, `rev_dep.tri` and `modules_val`.
-/
structure CalcState where
  valid : SymId → Bool
  write : SymId → Bool
  curr : SymId → SymbolValue
  visible : SymId → Tristate
  revTri : SymId → Tristate
  modulesVal : Tristate

namespace CalcState

/- The static symbols are valid from the start. -/
def initial : CalcState where
  valid s := !s.isHashed
  write _ := false
  curr
  | .builtin tri => ⟨tri.text, none, tri⟩
  | _ => .empty
  visible _ := .no
  revTri _ := .no
  modulesVal := .no

variable (st : CalcState)

def setValid (s : SymId) : CalcState :=
  { st with valid := Function.update st.valid s true }

def setWrite (s : SymId) (write : Bool) : CalcState :=
  { st with write := Function.update st.write s write }

def setCurr (s : SymId) (v : SymbolValue) : CalcState :=
  { st with curr := Function.update st.curr s v }

def setVisible (s : SymId) (tri : Tristate) : CalcState :=
  { st with visible := Function.update st.visible s tri }

def setRev (s : SymId) (tri : Tristate) : CalcState :=
  { st with revTri := Function.update st.revTri s tri }

end CalcState

namespace Property

/- `prop->text` is there. -/
def hasText (p : Property) : Bool :=
  p.type == .prompt || p.type == .menu || p.type == .comment

/- `prop_get_symbol`. -/
def symbol (p : Property) : Option SymId :=
  match p.expr with
  | some (.symbol s) => some s
  | _ => none

theorem symbol_mem
    (p : Property)
    {s : SymId}
    (hSymbol : p.symbol = some s) :
    s ∈ optSyms p.expr := by
  unfold symbol at hSymbol
  split at hSymbol
  · next hExpr =>
      cases hSymbol
      simp [hExpr, optSyms, Expr.syms]
  · cases hSymbol

end Property

namespace SymbolType

/- `symbol_no` or `symbol_empty`, for the types with values. -/
def startValue : SymbolType → Option SymbolValue
| .int | .hex | .string => some .empty
| .boolean | .tristate =>
    some { SymbolValue.empty with val := Tristate.no.text }
| .unknown | .other => none

/- The base in which numbers of a type are written. -/
def base : SymbolType → Option Nat
| .int => some 10
| .hex => some 16
| _ => none

end SymbolType

------------------------------------------------------------
-- Numbers
------------------------------------------------------------

/- `strtol`, and what is left of it in an `int`. -/
def strtolInt (longBits base : Nat) (text : Text) : Int :=
  match scanNumber base text with
  | none => 0
  | some (negative, value, _) =>
      let long : Int :=
        if negative then
          max (-(value : Int)) (-2 ^ (longBits - 1))
        else
          min (value : Int) (2 ^ (longBits - 1) - 1)
      long.bmod (2 ^ 32)

/- `sprintf` of an `int` with `%d`, or with `0x%x`. -/
def printBound (type : SymbolType) (val : Int) : Text :=
  if type = .int then
    if val < 0 then
      '-' :: Nat.toDigits 10 val.natAbs
    else
      Nat.toDigits 10 val.natAbs
  else
    '0' :: 'x' :: Nat.toDigits 16 (val.emod (2 ^ 32)).toNat

namespace CalcTable

/- The symbols of a table that the parser has filled. -/
def ofTable
    (symbols : SymbolTable)
    (ranges : SymId → List RangeProp)
    (values : ChoiceId → List SymId)
    (longBits : Nat) : CalcTable where
  symbol s := (getSymbol symbols s).getD (Symbol.alloc s none)
  ranges := ranges
  values := values
  longBits := longBits

variable (t : CalcTable)

------------------------------------------------------------
-- Types And Properties
------------------------------------------------------------

def type (s : SymId) : SymbolType :=
  (t.symbol s).type

/- `sym_is_choice_value`. -/
def isChoiceValue (s : SymId) : Bool :=
  (t.symbol s).choiceOf.isSome

/- `for_all_prompts`. -/
def prompts (s : SymId) : List Property :=
  (t.symbol s).props.filter Property.hasText

/- `for_all_defaults`. -/
def defaults (s : SymId) : List Property :=
  (t.symbol s).props.filter (fun p => p.type == .default)

/-
  What `sym_calc_choice` tries, in this order: the value that
  the user chose, the defaults and the list of values.
-/
def candidates (s : SymId) : List (Option Expr × SymId) :=
  match s with
  | .choice c =>
      (t.symbol s).defUser.chosen.toList.map (none, ·) ++
        (t.defaults s).filterMap (fun p =>
          p.symbol.map (p.visible, ·)) ++
        (t.values c).map (none, ·)
  | _ => []

/- `sym_get_type`, where the symbol is `visible`. -/
def typeAt
    (modulesVal visible : Tristate)
    (s : SymId) : SymbolType :=
  if t.type s = .tristate then
    if t.isChoiceValue s ∧ visible = .yes then
      .boolean
    else if modulesVal = .no then
      .boolean
    else
      .tristate
  else
    t.type s

/- `m` is `y` for a boolean. -/
def settleTri (type : SymbolType) (tri : Tristate) :
    Tristate :=
  if tri = .mod ∧ type = .boolean then .yes else tri

/- `m` is `y` for all that is no tristate with modules. -/
def settleVisible
    (modulesVal : Tristate)
    (s : SymId)
    (tri : Tristate) : Tristate :=
  if tri = .mod ∧
      (t.type s ≠ .tristate ∨ modulesVal = .no) then
    .yes
  else
    tri

/- `sym_get_string_value`. -/
def stringValue (s : SymId) (v : SymbolValue) : Text :=
  match t.type s with
  | .boolean | .tristate => v.tri.text
  | _ => v.val

/- `sym_get_type`. -/
def symGetType (st : CalcState) (s : SymId) : SymbolType :=
  t.typeAt st.modulesVal (st.visible s) s

------------------------------------------------------------
-- Expressions And Visibility
------------------------------------------------------------

variable (call : SymId → CalcState → CalcState)

/- `expr_calc_value` of an expression that is there. -/
def calcExpr : Expr → CalcState → Tristate × CalcState
| .symbol s, st =>
    let st := call s st
    ((st.curr s).tri, st)
| .and e f, st =>
    let left := calcExpr e st
    let right := calcExpr f left.2
    (left.1.and right.1, right.2)
| .or e f, st =>
    let left := calcExpr e st
    let right := calcExpr f left.2
    (left.1.or right.1, right.2)
| .not e, st =>
    let inner := calcExpr e st
    (inner.1.not, inner.2)
| .equal s u, st =>
    let st := call u (call s st)
    (if t.stringValue s (st.curr s) =
        t.stringValue u (st.curr u) then .yes else .no, st)
| .unequal s u, st =>
    let st := call u (call s st)
    (if t.stringValue s (st.curr s) =
        t.stringValue u (st.curr u) then .no else .yes, st)

/- `expr_calc_value`. -/
def calcCond
    (e : Option Expr)
    (st : CalcState) : Tristate × CalcState :=
  match e with
  | none => (.yes, st)
  | some e => t.calcExpr call e st

/- The loop over the prompts. -/
def calcPrompts :
    List Property →
    Tristate →
    CalcState →
    Tristate × CalcState
| [], tri, st => (tri, st)
| p :: ps, tri, st =>
    let cond := t.calcCond call p.visible st
    calcPrompts ps (tri.or cond.1) cond.2

/- `sym_calc_visibility`. -/
def symCalcVisibility
    (s : SymId)
    (st : CalcState) : CalcState :=
  let prompts := t.calcPrompts call (t.prompts s) .no st
  let st :=
    prompts.2.setVisible s
      (t.settleVisible prompts.2.modulesVal s prompts.1)
  if t.isChoiceValue s then
    st
  else
    let rev : Tristate × CalcState :=
      match (t.symbol s).revDep with
      | none => (.no, st)
      | some e => t.calcExpr call e st
    rev.2.setRev s (settleTri (t.symGetType rev.2 s) rev.1)

/-
  `sym_get_default_prop` and `sym_get_range_prop`: the first
  property whose condition holds, with its value.
-/
def firstVisible
    {P : Type}
    (cond : P → Option Expr) :
    List P →
    CalcState →
    Option (P × Tristate) × CalcState
| [], st => (none, st)
| p :: ps, st =>
    let tri := t.calcCond call (cond p) st
    if tri.1 = .no then
      firstVisible cond ps tri.2
    else
      (some (p, tri.1), tri.2)

------------------------------------------------------------
-- Choices And Ranges
------------------------------------------------------------

/- The first candidate that is visible. -/
def firstShown :
    List (Option Expr × SymId) →
    CalcState →
    Option SymId × CalcState
| [], st => (none, st)
| (cond, value) :: rest, st =>
    let tri := t.calcCond call cond st
    if tri.1 = .no then
      firstShown rest tri.2
    else
      let st := t.symCalcVisibility call value tri.2
      if st.visible value = .no then
        firstShown rest st
      else
        (some value, st)

/-
  `sym_calc_choice`: the chosen symbol becomes the value of
  the choice, which is `n` where none can be chosen.
-/
def symCalcChoice
    (s : SymId)
    (st : CalcState) : CalcState :=
  let shown := t.firstShown call (t.candidates s) st
  match shown.1 with
  | some value =>
      shown.2.setCurr s
        { shown.2.curr s with val := [], chosen := some value }
  | none =>
      shown.2.setCurr s
        { shown.2.curr s with
          val := []
          chosen := none
          tri := .no }

/- `sym_get_range_val`. -/
def symGetRangeVal
    (s : SymId)
    (base : Nat)
    (st : CalcState) : Int × CalcState :=
  let st := call s st
  (strtolInt t.longBits (((t.type s).base).getD base)
    (st.curr s).val, st)

/- `sym_validate_range`. -/
def symValidateRange
    (s : SymId)
    (st : CalcState) : CalcState :=
  match (t.type s).base with
  | none => st
  | some base =>
      let range :=
        t.firstVisible call RangeProp.visible (t.ranges s) st
      match range.1 with
      | none => range.2
      | some (p, _) =>
          let val :=
            strtolInt t.longBits base (range.2.curr s).val
          let low := t.symGetRangeVal call p.low base range.2
          if val < low.1 then
            low.2.setCurr s
              { low.2.curr s with
                val := printBound (t.type s) low.1 }
          else
            let high := t.symGetRangeVal call p.high base low.2
            if val ≤ high.1 then
              high.2
            else
              high.2.setCurr s
                { high.2.curr s with
                  val := printBound (t.type s) high.1 }

------------------------------------------------------------
-- Values
------------------------------------------------------------

/- The default of a boolean or tristate symbol. -/
def calcDefaultTri
    (s : SymId)
    (st : CalcState) : Tristate × CalcState :=
  let prop :=
    t.firstVisible call Property.visible (t.defaults s) st
  match prop.1 with
  | none => (.no, prop.2)
  | some (p, tri) =>
      let value :=
        t.calcCond call p.expr (prop.2.setWrite s true)
      (value.1.and tri, value.2)

/- The value of a symbol that no choice decides. -/
def calcFreeTri
    (s : SymId)
    (visible : Tristate)
    (st : CalcState) : Tristate × CalcState :=
  let st := if visible = .no then st else st.setWrite s true
  if visible ≠ .no ∧ (t.symbol s).hasUser = true then
    (((t.symbol s).defUser.tri.and visible).or
      (st.revTri s), st)
  else
    let st :=
      if st.revTri s = .no then st else st.setWrite s true
    let value : Tristate × CalcState :=
      if s.isChoice then (.no, st) else t.calcDefaultTri call s st
    (value.1.or (value.2.revTri s), value.2)

/- The value of a boolean or tristate symbol. -/
def calcTristate
    (s : SymId)
    (st : CalcState) : Tristate × CalcState :=
  let result : Tristate × CalcState :=
    match (t.symbol s).choiceOf, st.visible s with
    | some c, .yes =>
        (if (st.curr (.choice c)).chosen = some s then
          .yes
        else
          .no, st)
    | _, visible => t.calcFreeTri call s visible st
  (settleTri (t.symGetType result.2 s) result.1, result.2)

/- The value of a text or a number. -/
def calcString
    (s : SymId)
    (newval : SymbolValue)
    (st : CalcState) : SymbolValue × CalcState :=
  let st :=
    if st.visible s = .no then st else st.setWrite s true
  if st.visible s ≠ .no ∧ (t.symbol s).hasUser = true then
    ({ newval with val := (t.symbol s).defUser.val }, st)
  else
    let prop :=
      t.firstVisible call Property.visible (t.defaults s) st
    match prop.1 with
    | none => (newval, prop.2)
    | some (p, _) =>
        match p.symbol with
        | none => (newval, prop.2)
        | some ds =>
            let st := call ds (prop.2.setWrite s true)
            ({ newval with
                val := (st.curr ds).val
                chosen := (st.curr ds).chosen }, st)

/- The `switch` over the type, with the value to start from. -/
def calcNewval
    (s : SymId)
    (newval : SymbolValue)
    (st : CalcState) : SymbolValue × CalcState :=
  match t.symGetType st s with
  | .boolean | .tristate =>
      let tri := t.calcTristate call s st
      ({ newval with tri := tri.1 }, tri.2)
  | .string | .hex | .int => t.calcString call s newval st
  | .unknown | .other => (newval, st)

/- `modules_val` follows the value of `modules_sym`. -/
def noteModules
    (s : SymId)
    (oldval : SymbolValue)
    (st : CalcState) : CalcState :=
  if s = .modules ∧ oldval ≠ st.curr s then
    { st with modulesVal := (st.curr s).tri }
  else
    st

/- The values of a choice are written with it. -/
def noteWrite
    (s : SymId)
    (st : CalcState) : CalcState :=
  match s with
  | .choice c =>
      if st.write s then
        (t.values c).foldl
          (fun st value => st.setWrite value true) st
      else
        st
  | _ => st

/- `sym_calc_value` of a symbol that is marked as valid. -/
def calcBody
    (s : SymId)
    (newval oldval : SymbolValue)
    (st : CalcState) : CalcState :=
  let st :=
    if t.isChoiceValue s then st else st.setWrite s false
  let st := (t.symCalcVisibility call s st).setCurr s newval
  let value := t.calcNewval call s newval st
  let st := value.2.setCurr s value.1
  let st :=
    if s.isChoice ∧ value.1.tri = .yes then
      t.symCalcChoice call s st
    else
      st
  let st := t.symValidateRange call s st
  let st := t.noteWrite s (noteModules s oldval st)
  if (t.symbol s).auto then st.setWrite s false else st

/- `sym_calc_value`, with calls nested up to a depth. -/
def symCalcValue : Nat → SymId → CalcState → CalcState
| 0, _, st => st
| fuel + 1, s, st =>
    if st.valid s then
      st
    else
      match (t.type s).startValue with
      | none =>
          (st.setValid s).setCurr s
            ⟨s.name.getD [], none, .no⟩
      | some newval =>
          t.calcBody (symCalcValue fuel) s newval (st.curr s)
            (st.setValid s)

/- `SYMBOL_VALID` after the loop of `sym_clear_all_valid`. -/
def clearValid (st : CalcState) : CalcState :=
  { st with
    valid := fun s =>
      st.valid s && !(s.isHashed && t.type s != .other) }

/- `sym_clear_all_valid`. -/
def symClearAllValid
    (fuel : Nat)
    (st : CalcState) : CalcState :=
  t.symCalcValue fuel .modules (t.clearValid st)

/- Calls of `sym_calc_value` one after the other. -/
def calcRun
    (fuel : Nat)
    (run : List SymId)
    (st : CalcState) : CalcState :=
  run.foldl (fun st s => t.symCalcValue fuel s st) st

end CalcTable

end Mkrootfs
