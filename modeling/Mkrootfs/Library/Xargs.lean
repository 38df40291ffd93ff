import Mkrootfs.Library.Text

/-
  How `xargs` splits its input into items.

  Main declarations:
    * `xargsItems`
    * `xargsItems_unlines`
    * `fromLines_of_xargsItems`
-/

------------------------------------------------------------
-- Items
------------------------------------------------------------

namespace Mkrootfs

/- The characters that quote. -/
def singleQuote : Char := Char.ofNat 39
def doubleQuote : Char := Char.ofNat 34
def backslash : Char := Char.ofNat 92

/- The quoting that a character is read in. -/
inductive XargsMode where
| plain
| escaped
| quoted (quote : Char)
deriving DecidableEq, Repr

/- A character of an item, with what was read of it. -/
def appendItem
    (item : Option Text)
    (c : Char) : Option Text :=
  some (item.getD [] ++ [c])

/-
  The items of a text, between separators. The items before
  an unfinished quotation are handed on, and then `xargs`
  gives up. So it does at a newline in a quotation.
-/
def xargsFrom
    (isSeparator : Char → Bool) :
    XargsMode →
    Option Text →
    Text →
    List Text
| .plain, item, [] => item.toList
| .escaped, item, [] => item.toList
| .quoted _, _, [] => []
| .escaped, item, c :: text =>
    xargsFrom isSeparator .plain (appendItem item c) text
| .quoted quote, item, c :: text =>
    if c = quote then
      xargsFrom isSeparator .plain item text
    else if c = '\n' then
      []
    else
      xargsFrom isSeparator (.quoted quote)
        (appendItem item c) text
| .plain, item, c :: text =>
    if isSeparator c then
      match item with
      | none => xargsFrom isSeparator .plain none text
      | some item =>
          item :: xargsFrom isSeparator .plain none text
    else if item = none ∧ (c = ' ' ∨ c = '\t') then
      xargsFrom isSeparator .plain none text
    else if c = backslash then
      xargsFrom isSeparator .escaped (some (item.getD [])) text
    else if c = singleQuote ∨ c = doubleQuote then
      xargsFrom isSeparator (.quoted c) (some (item.getD []))
        text
    else
      xargsFrom isSeparator .plain (appendItem item c) text

/- `xargs`: blanks and newlines separate items. -/
def isBlank (c : Char) : Bool :=
  c = ' ' || c = '\t' || c = '\n'

/- `xargs -i`: only newlines do. -/
def isNewline (c : Char) : Bool :=
  c = '\n'

/- The items of a whole text. -/
def xargsItems
    (isSeparator : Char → Bool)
    (text : Text) : List Text :=
  xargsFrom isSeparator .plain none text

/- Newlines are separators, and so may other blanks be. -/
structure Separators (isSeparator : Char → Bool) : Prop where
  newline : isSeparator '\n' = true
  blank : ∀ c, isSeparator c = true → isBlank c = true

theorem separators_isBlank : Separators isBlank where
  newline := rfl
  blank _ h := h

theorem separators_isNewline : Separators isNewline where
  newline := rfl
  blank c hNewline := by
    simp only [isNewline, decide_eq_true_eq] at hNewline
    rw [hNewline]
    rfl

------------------------------------------------------------
-- Plain Names
------------------------------------------------------------

/- A character that `xargs` takes as it is. -/
def isTaken
    (isSeparator : Char → Bool)
    (c : Char) : Bool :=
  !isSeparator c && c ≠ backslash && c ≠ singleQuote &&
    c ≠ doubleQuote

/- Such a character of blank separated items. -/
def isPlainChar (c : Char) : Bool :=
  isTaken isBlank c

/- A name of such characters. -/
structure PlainItem (name : Text) : Prop where
  nonempty : name ≠ []
  plain : ∀ c ∈ name, isPlainChar c = true

/- A concrete name of such characters. -/
theorem plainItem_of_all
    {name : Text}
    (hNonempty : name ≠ [])
    (hAll : name.all isPlainChar = true) :
    PlainItem name :=
  ⟨hNonempty, fun c hMem => List.all_eq_true.mp hAll c hMem⟩

/- The blanks at its start are not a part of an item. -/
structure TakenItem
    (isSeparator : Char → Bool)
    (name : Text) : Prop where
  nonempty : name ≠ []
  start : name.head? ≠ some ' ' ∧ name.head? ≠ some '\t'
  taken : ∀ c ∈ name, isTaken isSeparator c = true

variable {isSeparator : Char → Bool}

theorem isTaken_of_plain
    (hSeparators : Separators isSeparator)
    {c : Char}
    (hPlain : isPlainChar c = true) :
    isTaken isSeparator c = true := by
  have hSeparator : isSeparator c = false := by
    by_contra hNot
    have hBlank := hSeparators.blank c (by simpa using hNot)
    simp [isPlainChar, isTaken, hBlank] at hPlain
  simp only [isPlainChar, isTaken, Bool.and_eq_true,
    Bool.not_eq_true'] at hPlain
  simp only [isTaken, hSeparator, Bool.and_eq_true,
    Bool.not_false]
  exact ⟨⟨⟨trivial, hPlain.1.1.2⟩, hPlain.1.2⟩, hPlain.2⟩

/- A plain name is an item in both ways. -/
theorem takenItem_of_plain
    (hSeparators : Separators isSeparator)
    {name : Text}
    (hPlain : PlainItem name) :
    TakenItem isSeparator name where
  nonempty := hPlain.nonempty
  start := by
    have hHead : ∀ c, isPlainChar c = false →
        name.head? ≠ some c := by
      intro c hNot hHead
      rw [hPlain.plain c (List.mem_of_mem_head? hHead)] at hNot
      cases hNot
    exact ⟨hHead ' ' rfl, hHead '\t' rfl⟩
  taken c hMem := isTaken_of_plain hSeparators
    (hPlain.plain c hMem)

/- A character within an item, or at its start. -/
theorem xargsFrom_plain_of_not_separator
    {c : Char}
    (hSeparator : isSeparator c = false)
    {item : Option Text}
    (hItem : ¬ (item = none ∧ (c = ' ' ∨ c = '\t')))
    (text : Text) :
    xargsFrom isSeparator .plain item (c :: text) =
      if c = backslash then
        xargsFrom isSeparator .escaped (some (item.getD []))
          text
      else if c = singleQuote ∨ c = doubleQuote then
        xargsFrom isSeparator (.quoted c)
          (some (item.getD [])) text
      else
        xargsFrom isSeparator .plain (appendItem item c)
          text := by
  simp only [xargsFrom, hSeparator, Bool.false_eq_true,
    if_false, if_neg hItem]

/- Such a character is added to the item. -/
theorem xargsFrom_taken_cons
    {c : Char}
    (hTaken : isTaken isSeparator c = true)
    {item : Option Text}
    (hItem : item = none → c ≠ ' ' ∧ c ≠ '\t')
    (text : Text) :
    xargsFrom isSeparator .plain item (c :: text) =
      xargsFrom isSeparator .plain (appendItem item c)
        text := by
  simp only [isTaken, Bool.and_eq_true, Bool.not_eq_true',
    decide_eq_true_eq, ne_eq] at hTaken
  rcases hTaken with
    ⟨⟨⟨hSeparator, hBackslash⟩, hSingle⟩, hDouble⟩
  rw [xargsFrom_plain_of_not_separator hSeparator]
  · rw [if_neg hBackslash, if_neg (by simp [hSingle, hDouble])]
  · rintro ⟨hNone, hSpace | hTab⟩
    · exact (hItem hNone).1 hSpace
    · exact (hItem hNone).2 hTab

/- The rest of such a line becomes one item. -/
theorem xargsFrom_line
    (hSeparators : Separators isSeparator)
    {item name : Text}
    (hTaken : ∀ c ∈ name, isTaken isSeparator c = true)
    (text : Text) :
    xargsFrom isSeparator .plain (some item)
        (name ++ '\n' :: text) =
      (item ++ name) ::
        xargsFrom isSeparator .plain none text := by
  induction name generalizing item with
  | nil => simp [xargsFrom, hSeparators.newline]
  | cons c name ih =>
      have hRest : ∀ d ∈ name, isTaken isSeparator d = true :=
        fun d hMem => hTaken d (List.mem_cons_of_mem c hMem)
      rw [List.cons_append, xargsFrom_taken_cons
        (hTaken c List.mem_cons_self)
        (fun hNone => by cases hNone)]
      simp only [appendItem, Option.getD_some]
      rw [ih hRest]
      simp

/- Such lines are the items. -/
theorem xargsItems_unlines
    (hSeparators : Separators isSeparator)
    {names : List Text}
    (hTaken : ∀ name ∈ names, TakenItem isSeparator name) :
    xargsItems isSeparator (Text.unlines names) = names := by
  unfold xargsItems
  induction names with
  | nil => rfl
  | cons name names ih =>
      have hName := hTaken name List.mem_cons_self
      have hRest := ih (fun other hMem =>
        hTaken other (List.mem_cons_of_mem name hMem))
      rw [Text.unlines_cons]
      cases name with
      | nil => exact absurd rfl hName.nonempty
      | cons c name =>
          have hStart := hName.start
          simp only [List.head?_cons, ne_eq,
            Option.some.injEq] at hStart
          rw [List.cons_append, xargsFrom_taken_cons
            (hName.taken c List.mem_cons_self)
            (fun _ => hStart)]
          simp only [appendItem, Option.getD_none,
            List.nil_append]
          rw [xargsFrom_line hSeparators (fun d hMem =>
            hName.taken d (List.mem_cons_of_mem c hMem)),
            hRest]
          simp

------------------------------------------------------------
-- Other Names
------------------------------------------------------------

/- How much of a name `xargs` interprets. -/
def specials
    (isSeparator : Char → Bool)
    (name : Text) : Nat :=
  name.countP (fun c => !isTaken isSeparator c)

theorem specials_append (first second : Text) :
    specials isSeparator (first ++ second) =
      specials isSeparator first +
        specials isSeparator second :=
  List.countP_append

theorem specials_eq_zero_iff (name : Text) :
    specials isSeparator name = 0 ↔
      ∀ c ∈ name, isTaken isSeparator c = true := by
  unfold specials
  rw [List.countP_eq_zero]
  simp

/-
  An item that goes back to some lines: it is one of them
  that is plain, or some line has more special characters
  than it has. An escaped newline is kept in an item.
-/
def FromLines
    (isSeparator : Char → Bool)
    (names : List Text)
    (item : Text) : Prop :=
  '\n' ∈ item ∨
    ∃ name ∈ names,
      (specials isSeparator name = 0 ∧ item = name) ∨
        specials isSeparator item < specials isSeparator name

/- A line that does not start with a blank to skip. -/
def KeepsStart
    (isSeparator : Char → Bool)
    (line : Text) : Prop :=
  ∀ c, line.head? = some c → c = ' ' ∨ c = '\t' →
    isSeparator c = true

/-
  What is known about an unfinished item, behind a first
  part of a line.
-/
def Reading
    (isSeparator : Char → Bool)
    (start : Text)
    (mode : XargsMode)
    (item : Option Text) : Prop :=
  mode ≠ .quoted '\n' ∧
    ('\n' ∈ item.getD [] ∨
      specials isSeparator (item.getD []) <
        specials isSeparator start ∨
      (mode = .plain ∧ item.getD [] = start ∧
        specials isSeparator start = 0))

/- A character of the line becomes one of the item. -/
theorem reading_append
    {start : Text}
    {mode mode' : XargsMode}
    {item : Option Text}
    (hReading : Reading isSeparator start mode item)
    {c : Char}
    (hPlain : mode = .plain → isTaken isSeparator c = true)
    (hMode : mode' = mode ∨ mode' = .plain) :
    Reading isSeparator (start ++ [c]) mode' (appendItem item c) := by
  rcases hReading with ⟨hQuote, hItem⟩
  have hQuote' : mode' ≠ .quoted '\n' := by
    rcases hMode with hSame | hSame
    · rw [hSame]
      exact hQuote
    · rw [hSame]
      exact XargsMode.noConfusion
  refine ⟨hQuote', ?_⟩
  simp only [appendItem, Option.getD_some, specials_append]
  rcases hItem with hNewline | hLess | ⟨hStart, hSame, hZero⟩
  · exact Or.inl (List.mem_append_left [c] hNewline)
  · right
    left
    omega
  · right
    right
    have hChar : specials isSeparator [c] = 0 := by
      rw [specials_eq_zero_iff, List.forall_mem_singleton]
      exact hPlain hStart
    have hPlainMode : mode' = .plain := by
      rcases hMode with hMode | hMode
      · exact hMode.trans hStart
      · exact hMode
    refine ⟨hPlainMode, by rw [hSame], ?_⟩
    omega

/- A character of the line is interpreted. -/
theorem reading_special
    {start : Text}
    {mode mode' : XargsMode}
    {item item' : Option Text}
    (hReading : Reading isSeparator start mode item)
    {c : Char}
    (hSpecial : isTaken isSeparator c = false)
    (hMode : mode' ≠ .quoted '\n')
    (hItem : item'.getD [] = item.getD []) :
    Reading isSeparator (start ++ [c]) mode' item' := by
  refine ⟨hMode, ?_⟩
  have hChar : specials isSeparator [c] = 1 := by
    simp [specials, hSpecial]
  rw [hItem, specials_append, hChar]
  rcases hReading.2 with hNewline | hLess | ⟨_, hSame, hZero⟩
  · exact Or.inl hNewline
  · right
    left
    omega
  · right
    left
    rw [hSame]
    omega

/- A quotation ends. -/
theorem reading_close
    {start : Text}
    {quote : Char}
    {item : Option Text}
    (hReading : Reading isSeparator start (.quoted quote) item)
    (c : Char) :
    Reading isSeparator (start ++ [c]) .plain item := by
  refine ⟨XargsMode.noConfusion, ?_⟩
  rw [specials_append]
  rcases hReading.2 with hNewline | hLess | ⟨hMode, _⟩
  · exact Or.inl hNewline
  · exact Or.inr (Or.inl (Nat.lt_add_right _ hLess))
  · cases hMode

/- An item that ends within its line. -/
theorem fromLines_of_reading
    {names : List Text}
    {start rest item : Text}
    {c : Char}
    {mode : XargsMode}
    (hReading : Reading isSeparator start mode (some item))
    (hSpecial : isTaken isSeparator c = false)
    (hMem : start ++ c :: rest ∈ names) :
    FromLines isSeparator names item := by
  have hNext : Reading isSeparator (start ++ [c]) .plain
      (some item) :=
    reading_special hReading hSpecial
      XargsMode.noConfusion rfl
  have hSpecials :
      specials isSeparator (start ++ c :: rest) =
        specials isSeparator (start ++ [c]) +
          specials isSeparator rest := by
    rw [← specials_append]
    simp
  rcases hNext.2 with hNewline | hLess | ⟨_, _, hZero⟩
  · exact Or.inl hNewline
  · refine Or.inr ⟨_, hMem, Or.inr ?_⟩
    rw [hSpecials]
    exact Nat.lt_add_right _ hLess
  · exfalso
    have hChar : specials isSeparator [c] = 1 := by
      simp [specials, hSpecial]
    rw [specials_append, hChar] at hZero
    omega

/- An item that ends with its line. -/
theorem fromLines_of_line
    {names : List Text}
    {line item : Text}
    {mode : XargsMode}
    (hReading : Reading isSeparator line mode (some item))
    (hMem : line ∈ names) :
    FromLines isSeparator names item := by
  rcases hReading.2 with hNewline | hLess | ⟨_, hSame, hZero⟩
  · exact Or.inl hNewline
  · exact Or.inr ⟨line, hMem, Or.inr hLess⟩
  · exact Or.inr ⟨line, hMem, Or.inl ⟨hZero, hSame⟩⟩

/- A quote is interpreted, and it is no newline. -/
theorem isTaken_of_quote
    {c : Char}
    (hQuote : c = singleQuote ∨ c = doubleQuote) :
    isTaken isSeparator c = false ∧ c ≠ '\n' := by
  rcases hQuote with rfl | rfl
  · exact ⟨by simp [isTaken], by decide⟩
  · exact ⟨by simp [isTaken], by decide⟩

------------------------------------------------------------
-- One Character
------------------------------------------------------------

/-
  Items that come from a line, or are still to be read from
  the text behind a part of this line.
-/
def Continues
    (isSeparator : Char → Bool)
    (all : List Text)
    (start text : Text)
    (items : List Text) : Prop :=
  ∃ mode item,
    Reading isSeparator start mode item ∧
      ∀ one ∈ items,
        FromLines isSeparator all one ∨
          one ∈ xargsFrom isSeparator mode item text

theorem continues_of_reading
    {all : List Text}
    {start text : Text}
    {mode : XargsMode}
    {item : Option Text}
    (hReading : Reading isSeparator start mode item) :
    Continues isSeparator all start text
      (xargsFrom isSeparator mode item text) :=
  ⟨mode, item, hReading, fun _ => Or.inr⟩

section Character

variable {all : List Text} {start rest : Text} {c : Char}
variable {item : Option Text}

theorem continues_escaped
    (hReading : Reading isSeparator start .escaped item)
    (text : Text) :
    Continues isSeparator all (start ++ [c]) text
      (xargsFrom isSeparator .escaped item (c :: text)) :=
  continues_of_reading (reading_append hReading
    (fun h => by cases h) (Or.inr rfl))

theorem continues_quoted
    {quote : Char}
    (hReading : Reading isSeparator start (.quoted quote) item)
    (hChar : c ≠ '\n')
    (text : Text) :
    Continues isSeparator all (start ++ [c]) text
      (xargsFrom isSeparator (.quoted quote) item
        (c :: text)) := by
  simp only [xargsFrom, hChar, if_false]
  split
  · exact continues_of_reading (reading_close hReading c)
  · exact continues_of_reading (reading_append hReading
      (fun h => by cases h) (Or.inl rfl))

/- A separator ends the item, if there is one. -/
theorem continues_separator
    (hReading : Reading isSeparator start .plain item)
    (hLine : start ++ c :: rest ∈ all)
    (hSeparator : isSeparator c = true)
    (text : Text) :
    Continues isSeparator all (start ++ [c]) text
      (xargsFrom isSeparator .plain item (c :: text)) := by
  have hSpecial : isTaken isSeparator c = false := by
    simp [isTaken, hSeparator]
  have hNone : Reading isSeparator (start ++ [c]) .plain
      none := by
    refine ⟨XargsMode.noConfusion, Or.inr (Or.inl ?_)⟩
    simp [specials, hSpecial]
  refine ⟨.plain, none, hNone, ?_⟩
  simp only [xargsFrom, hSeparator, if_true]
  cases item with
  | none => exact fun _ => Or.inr
  | some item =>
      intro one hMem
      rcases List.mem_cons.mp hMem with rfl | hMem
      · exact Or.inl
          (fromLines_of_reading hReading hSpecial hLine)
      · exact Or.inr hMem

/- Only a line that starts with a blank would lose it. -/
theorem continues_blank
    (hReading : Reading isSeparator start .plain none)
    (hStart : KeepsStart isSeparator (start ++ c :: rest))
    (hSeparator : isSeparator c = false)
    (hBlank : c = ' ' ∨ c = '\t')
    (text : Text) :
    Continues isSeparator all (start ++ [c]) text
      (xargsFrom isSeparator .plain none (c :: text)) := by
  have hNone : Reading isSeparator (start ++ [c]) .plain
      none := by
    refine ⟨XargsMode.noConfusion, Or.inr (Or.inl ?_)⟩
    rw [specials_append]
    rcases hReading.2 with hNewline | hLess | ⟨_, hSame, _⟩
    · cases hNewline
    · exact Nat.lt_add_right _ hLess
    · rw [← hSame] at hStart
      rw [hStart c rfl hBlank] at hSeparator
      cases hSeparator
  simp only [xargsFrom, hSeparator, Bool.false_eq_true,
    if_false, if_pos (And.intro trivial hBlank)]
  exact continues_of_reading hNone

/- Any other character, interpreted or taken. -/
theorem continues_other
    (hReading : Reading isSeparator start .plain item)
    (hSeparator : isSeparator c = false)
    (hSkip : ¬ (item = none ∧ (c = ' ' ∨ c = '\t')))
    (text : Text) :
    Continues isSeparator all (start ++ [c]) text
      (xargsFrom isSeparator .plain item (c :: text)) := by
  rw [xargsFrom_plain_of_not_separator hSeparator hSkip]
  split
  · next hSame =>
      exact continues_of_reading (reading_special hReading
        (by simp [isTaken, hSame]) XargsMode.noConfusion rfl)
  · next hEscape =>
      split
      · next hQuote =>
          have hSpecial : isTaken isSeparator c = false ∧
              c ≠ '\n' :=
            isTaken_of_quote hQuote
          have hMode : XargsMode.quoted c ≠ .quoted '\n' := by
            intro hMode
            cases hMode
            exact hSpecial.2 rfl
          exact continues_of_reading (reading_special hReading
            hSpecial.1 hMode rfl)
      · next hQuote =>
          rw [not_or] at hQuote
          have hTaken : isTaken isSeparator c = true := by
            simp [isTaken, hSeparator, hEscape, hQuote]
          exact continues_of_reading (reading_append hReading
            (fun _ => hTaken) (Or.inl rfl))

/- A character within a line, whatever has been read. -/
theorem continues_character
    {mode : XargsMode}
    (hChar : c ≠ '\n')
    (hLine : start ++ c :: rest ∈ all)
    (hStart : KeepsStart isSeparator (start ++ c :: rest))
    (hReading : Reading isSeparator start mode item)
    (text : Text) :
    Continues isSeparator all (start ++ [c]) text
      (xargsFrom isSeparator mode item (c :: text)) := by
  cases mode with
  | escaped => exact continues_escaped hReading text
  | quoted quote => exact continues_quoted hReading hChar text
  | plain =>
      by_cases hSeparator : isSeparator c = true
      · exact continues_separator hReading hLine hSeparator text
      · rw [Bool.not_eq_true] at hSeparator
        by_cases hSkip : item = none ∧ (c = ' ' ∨ c = '\t')
        · rcases hSkip with ⟨rfl, hBlank⟩
          exact continues_blank hReading hStart hSeparator
            hBlank text
        · exact continues_other hReading hSeparator hSkip text

/- The newline behind a line. -/
theorem fromLines_of_newline
    (hSeparators : Separators isSeparator)
    {mode : XargsMode}
    {behind : Text}
    (hBehind : ∀ item,
      (item = none ∨ '\n' ∈ item.getD []) →
      ∀ one ∈ xargsFrom isSeparator .plain item behind,
        FromLines isSeparator all one)
    (hLine : start ∈ all)
    (hReading : Reading isSeparator start mode item) :
    ∀ one ∈ xargsFrom isSeparator mode item
        ('\n' :: behind),
      FromLines isSeparator all one := by
  cases mode with
  | escaped =>
      exact hBehind _ (Or.inr (by simp [appendItem]))
  | quoted quote =>
      have hQuote : '\n' ≠ quote := by
        intro hSame
        exact hReading.1 (by rw [← hSame])
      intro one hMem
      simp [xargsFrom, hQuote] at hMem
  | plain =>
      simp only [xargsFrom, hSeparators.newline, if_true]
      cases item with
      | none => exact hBehind none (Or.inl rfl)
      | some item =>
          intro one hMem
          rcases List.mem_cons.mp hMem with rfl | hMem
          · exact fromLines_of_line hReading hLine
          · exact hBehind none (Or.inl rfl) one hMem

end Character

------------------------------------------------------------
-- Whole Lines
------------------------------------------------------------

/-
  The items that begin in one line, when those behind it are
  known.
-/
theorem fromLines_of_rest
    (hSeparators : Separators isSeparator)
    {all : List Text}
    {rest start behind : Text}
    {mode : XargsMode}
    {item : Option Text}
    (hBehind : ∀ item,
      (item = none ∨ '\n' ∈ item.getD []) →
      ∀ one ∈ xargsFrom isSeparator .plain item behind,
        FromLines isSeparator all one)
    (hRest : '\n' ∉ rest)
    (hLine : start ++ rest ∈ all)
    (hStart : KeepsStart isSeparator (start ++ rest))
    (hReading : Reading isSeparator start mode item) :
    ∀ one ∈ xargsFrom isSeparator mode item
        (rest ++ '\n' :: behind),
      FromLines isSeparator all one := by
  induction rest generalizing start mode item with
  | nil =>
      rw [List.append_nil] at hLine
      exact fromLines_of_newline hSeparators hBehind hLine
        hReading
  | cons c rest ih =>
      have hChar : c ≠ '\n' :=
        fun h => hRest (h ▸ List.mem_cons_self)
      have hAppend : (start ++ [c]) ++ rest =
          start ++ c :: rest := by
        simp
      rcases continues_character hChar hLine hStart hReading
          (rest ++ '\n' :: behind) with
        ⟨mode', item', hNext, hItems⟩
      intro one hMem
      rcases hItems one hMem with hFrom | hLater
      · exact hFrom
      · exact ih (fun h => hRest (List.mem_cons_of_mem c h))
          (hAppend ▸ hLine) (hAppend ▸ hStart) hNext one
          hLater

/- All items of some lines. -/
theorem fromLines_of_xargsFrom
    (hSeparators : Separators isSeparator)
    {names all : List Text}
    (hNames : ∀ name ∈ names, name ∈ all ∧ '\n' ∉ name ∧
      KeepsStart isSeparator name)
    {item : Option Text}
    (hItem : item = none ∨ '\n' ∈ item.getD []) :
    ∀ one ∈ xargsFrom isSeparator .plain item
        (Text.unlines names),
      FromLines isSeparator all one := by
  induction names generalizing item with
  | nil =>
      intro one hMem
      cases item with
      | none => cases hMem
      | some item =>
          rw [List.mem_singleton.mp hMem]
          exact Or.inl
            (hItem.resolve_left (Option.some_ne_none _))
  | cons name names ih =>
      have hName := hNames name List.mem_cons_self
      have hBehind := fun item =>
        @ih (fun other hMem => hNames other
          (List.mem_cons_of_mem name hMem)) item
      rw [Text.unlines_cons]
      have hReading : Reading isSeparator [] .plain item := by
        refine ⟨XargsMode.noConfusion, ?_⟩
        rcases hItem with rfl | hNewline
        · exact Or.inr (Or.inr ⟨rfl, rfl, rfl⟩)
        · exact Or.inl hNewline
      have hLine : [] ++ name ∈ all := hName.1
      have hStart : KeepsStart isSeparator ([] ++ name) :=
        hName.2.2
      exact fromLines_of_rest hSeparators hBehind hName.2.1
        hLine hStart hReading

theorem fromLines_of_xargsItems
    (hSeparators : Separators isSeparator)
    {names : List Text}
    (hNames : ∀ name ∈ names,
      '\n' ∉ name ∧ KeepsStart isSeparator name) :
    ∀ item ∈ xargsItems isSeparator (Text.unlines names),
      FromLines isSeparator names item :=
  fromLines_of_xargsFrom hSeparators
    (fun name hName => ⟨hName, hNames name hName⟩)
    (Or.inl rfl)

end Mkrootfs
