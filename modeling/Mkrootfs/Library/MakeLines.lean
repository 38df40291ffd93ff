import Mathlib.Data.List.DropRight
import Mathlib.Data.List.Nodup
import Mkrootfs.Library.Text

/-
  How GNU `make` reads lines `NAME=value`: continuation
  lines, comments, and the blanks before a value.

  Main declarations:
    * `joinLines`, `logicalLines`
    * `uncomment`
    * `makeAssignments`, `makeValue`
    * `PlainValue`, `plain_of_readValue`
    * `AssignmentFile`
    * `AssignmentFile.makeValue_first`
    * `AssignmentFile.makeValue_of_plain`
-/

------------------------------------------------------------
-- Lines
------------------------------------------------------------

namespace Mkrootfs

namespace Text

def isBlank (c : Char) : Bool :=
  c = ' ' || c = '\t'

def isSlash (c : Char) : Bool :=
  c = '\\'

/- The number of backslashes at the end of a line. -/
def endSlashes (line : Text) : Nat :=
  (line.rtakeWhile isSlash).length

/- A backslash that is not quoted itself is the last one. -/
def continues (line : Text) : Bool :=
  endSlashes line % 2 = 1

/-
  A line and the one that continues it. The blanks around
  the backslash become one space, and backslashes that are
  quoted lose their quotes.
-/
def joinLines (line next : Text) : Text :=
  (line.rdropWhile isSlash ++
      List.replicate (endSlashes line / 2) '\\').rdropWhile
        isBlank ++
    ' ' :: next.dropWhile isBlank

/- The lines with their continuation lines. -/
def logicalLines : List Text → List Text
| [] => []
| line :: rest =>
    if continues line then
      match logicalLines rest with
      | [] => [joinLines line []]
      | next :: others => joinLines line next :: others
    else
      line :: logicalLines rest

/-
  What stands before a comment, with some backslashes read
  before. A `#` that is quoted loses the backslash.
-/
def uncommentFrom : Nat → Text → Text
| slashes, [] => List.replicate slashes '\\'
| slashes, c :: rest =>
    if isSlash c then
      uncommentFrom (slashes + 1) rest
    else if c = '#' then
      List.replicate (slashes / 2) '\\' ++
        (if slashes % 2 = 1 then
          '#' :: uncommentFrom 0 rest
        else
          [])
    else
      List.replicate slashes '\\' ++ c :: uncommentFrom 0 rest

def uncomment (line : Text) : Text :=
  uncommentFrom 0 line

/- The variable that a line sets, and its value. -/
def makeAssignment (line : Text) : Option (Text × Text) :=
  let text := (uncomment line).dropWhile isBlank
  if '=' ∈ text then
    some ((before '=' text).rdropWhile isBlank,
      (after '=' text).dropWhile isBlank)
  else
    none

/- The variables that the lines of a file set, in order. -/
def makeAssignments (file : Text) : List (Text × Text) :=
  (logicalLines (lines file)).filterMap makeAssignment

/- The value that a variable has after a file. -/
def makeValue (file name : Text) : Option Text :=
  (((makeAssignments file).filter
    (fun line => line.1 = name)).getLast?).map Prod.snd

------------------------------------------------------------
-- Ends Of Lines
------------------------------------------------------------

theorem rdropWhile_append_cons
    {p : Char → Bool}
    {c : Char}
    (hStop : p c = false)
    (left right : Text) :
    (left ++ c :: right).rdropWhile p =
      left ++ c :: right.rdropWhile p := by
  induction right using List.reverseRecOn with
  | nil =>
      rw [List.rdropWhile_concat_neg _ _ _ (by simp [hStop])]
      rfl
  | append_singleton right last ih =>
      have hText : left ++ c :: (right ++ [last]) =
          (left ++ c :: right) ++ [last] := by
        simp
      rw [hText, List.rdropWhile_concat,
        List.rdropWhile_concat]
      split
      · exact ih
      · simp

theorem rtakeWhile_append_cons
    {p : Char → Bool}
    {c : Char}
    (hStop : p c = false)
    (left right : Text) :
    (left ++ c :: right).rtakeWhile p =
      right.rtakeWhile p := by
  induction right using List.reverseRecOn with
  | nil =>
      rw [List.rtakeWhile_concat_neg _ _ _ (by simp [hStop])]
      rfl
  | append_singleton right last ih =>
      have hText : left ++ c :: (right ++ [last]) =
          (left ++ c :: right) ++ [last] := by
        simp
      rw [hText, List.rtakeWhile_concat,
        List.rtakeWhile_concat]
      split
      · rw [ih]
      · rfl

/- A line is what stands before its last backslashes. -/
theorem rdropWhile_append_slashes
    (line : Text) :
    line.rdropWhile isSlash ++
      List.replicate (endSlashes line) '\\' = line := by
  have hSlashes : line.rtakeWhile isSlash =
      List.replicate (endSlashes line) '\\' := by
    rw [List.eq_replicate_iff]
    refine ⟨rfl, ?_⟩
    intro c hc
    simpa [isSlash] using List.mem_rtakeWhile_imp hc
  rw [← hSlashes]
  exact List.rdropWhile_append_rtakeWhile

/- The start of a line up to a character that stays. -/
theorem endSlashes_append_cons
    {c : Char}
    (hStop : isSlash c = false)
    (left right : Text) :
    endSlashes (left ++ c :: right) = endSlashes right := by
  unfold endSlashes
  rw [rtakeWhile_append_cons hStop]

theorem joinLines_append_cons
    {c : Char}
    (hSlash : isSlash c = false)
    (hBlank : isBlank c = false)
    (left right next : Text) :
    joinLines (left ++ c :: right) next =
      left ++ c :: joinLines right next := by
  unfold joinLines
  rw [endSlashes_append_cons hSlash,
    rdropWhile_append_cons hSlash, List.append_assoc,
    List.cons_append, rdropWhile_append_cons hBlank]
  simp

------------------------------------------------------------
-- Comments
------------------------------------------------------------

theorem uncommentFrom_cons
    (slashes : Nat)
    (c : Char)
    (rest : Text) :
    uncommentFrom slashes (c :: rest) =
      if isSlash c then
        uncommentFrom (slashes + 1) rest
      else if c = '#' then
        List.replicate (slashes / 2) '\\' ++
          (if slashes % 2 = 1 then
            '#' :: uncommentFrom 0 rest
          else
            [])
      else
        List.replicate slashes '\\' ++
          c :: uncommentFrom 0 rest := by
  rfl

/- A text without comments is kept. -/
theorem uncommentFrom_append
    {left : Text}
    (hLeft : '#' ∉ left)
    (slashes : Nat)
    (right : Text) :
    uncommentFrom slashes (left ++ right) =
      (List.replicate slashes '\\' ++ left).rdropWhile
          isSlash ++
        uncommentFrom
          (endSlashes (List.replicate slashes '\\' ++ left))
          right := by
  induction left generalizing slashes with
  | nil =>
      have hAll : ∀ c ∈ List.replicate slashes '\\',
          isSlash c = true := by
        intro c hc
        rw [List.eq_of_mem_replicate hc]
        rfl
      have hTake := List.rtakeWhile_eq_self_iff.mpr hAll
      have hDrop := List.rdropWhile_eq_nil_iff.mpr hAll
      simp [endSlashes, hTake, hDrop]
  | cons c left ih =>
      rw [List.mem_cons, not_or] at hLeft
      rw [List.cons_append, uncommentFrom_cons]
      by_cases hSlash : isSlash c = true
      · have hc : c = '\\' := by simpa [isSlash] using hSlash
        have hText : List.replicate slashes '\\' ++ c :: left =
            List.replicate (slashes + 1) '\\' ++ left := by
          rw [List.replicate_succ', hc]
          simp
        rw [if_pos hSlash, ih hLeft.2, hText]
      · have hNot : isSlash c = false := by simpa using hSlash
        rw [if_neg hSlash, if_neg (fun h => hLeft.1 h.symm),
          ih hLeft.2, rdropWhile_append_cons hNot,
          endSlashes_append_cons hNot]
        simp

theorem uncomment_append_cons
    {c : Char}
    {left : Text}
    (hSlash : isSlash c = false)
    (hLeft : '#' ∉ left ++ [c])
    (right : Text) :
    uncomment (left ++ c :: right) =
      left ++ c :: uncomment right := by
  have hText : left ++ c :: right =
      (left ++ [c]) ++ right := by
    simp
  unfold uncomment
  rw [hText, uncommentFrom_append hLeft]
  rw [List.replicate_zero, List.nil_append,
    rdropWhile_append_cons hSlash,
    endSlashes_append_cons hSlash]
  simp [endSlashes]

theorem uncomment_of_not_mem
    {line : Text}
    (hLine : '#' ∉ line) :
    uncomment line = line := by
  have hAll := uncommentFrom_append hLine 0 []
  rw [List.append_nil] at hAll
  unfold uncomment
  rw [hAll, List.replicate_zero, List.nil_append]
  exact rdropWhile_append_slashes line

/- A `#` that is not first is cut, or loses a backslash. -/
theorem uncomment_append_hash
    {left : Text}
    (hLeft : '#' ∉ left)
    (right : Text) :
    uncomment (left ++ '#' :: right) =
      left.rdropWhile isSlash ++
        (List.replicate (endSlashes left / 2) '\\' ++
          (if endSlashes left % 2 = 1 then
            '#' :: uncomment right
          else
            [])) := by
  unfold uncomment
  rw [uncommentFrom_append hLeft, List.replicate_zero,
    List.nil_append, uncommentFrom_cons]
  rfl

------------------------------------------------------------
-- Values
------------------------------------------------------------

/- A value that `make` reads as it stands. -/
structure PlainValue (value : Text) : Prop where
  noComment : '#' ∉ value
  noBlank : ∀ c, value.head? = some c → isBlank c = false
  ends : continues value = false

/- A line that does not start like the end of a value. -/
def StartsPlain (next : Text) : Prop :=
  ∀ c, next.head? = some c →
    isBlank c = false ∧ isSlash c = false

/- What follows `=`, with the line that may continue it. -/
def joinedValue (value next : Text) : Text :=
  if continues value then joinLines value next else value

/- The value that `make` takes from this. -/
def readValue (joined : Text) : Text :=
  (uncomment joined).dropWhile isBlank

theorem dropWhile_of_head
    {p : Char → Bool}
    {text : Text}
    (hHead : ∀ c, text.head? = some c → p c = false) :
    text.dropWhile p = text := by
  cases text with
  | nil => rfl
  | cons c rest =>
      rw [List.dropWhile_cons_of_neg]
      simpa using hHead c rfl

theorem readValue_of_plain
    {value : Text}
    (hPlain : PlainValue value)
    (next : Text) :
    readValue (joinedValue value next) = value := by
  unfold readValue joinedValue
  rw [hPlain.ends, if_neg Bool.false_ne_true,
    uncomment_of_not_mem hPlain.noComment]
  exact dropWhile_of_head hPlain.noBlank

/- A blank at the start of a value is lost. -/
theorem noBlank_of_readValue
    {value joined : Text}
    (hRead : readValue joined = value) :
    ∀ c, value.head? = some c → isBlank c = false := by
  intro c hc
  rw [← hRead] at hc
  unfold readValue at hc
  simpa [hc] using List.head?_dropWhile_not isBlank
    (uncomment joined)

/- Slashes at one end cannot stand for fewer of them. -/
theorem slashes_ne
    {left right other : Text}
    {slashes kept : Nat}
    (hLess : kept < slashes)
    (hHead : ∀ c, right.head? = some c → isSlash c = false) :
    left ++ (List.replicate kept '\\' ++ right) ≠
      left ++ (List.replicate slashes '\\' ++ other) := by
  intro hSame
  have hTail := List.append_cancel_left hSame
  have hSplit : List.replicate slashes '\\' =
      List.replicate kept '\\' ++
        '\\' :: List.replicate (slashes - kept - 1) '\\' := by
    rw [← List.replicate_succ, List.replicate_append_replicate]
    congr 1
    omega
  rw [hSplit, List.append_assoc] at hTail
  have hRight := List.append_cancel_left hTail
  have hSlash := hHead '\\' (by rw [hRight]; rfl)
  exact absurd hSlash (by decide)

/- A value with a `#` is cut or changed. -/
theorem noComment_of_readValue
    {value next : Text}
    (hRead : readValue (joinedValue value next) = value) :
    '#' ∉ value := by
  intro hHash
  have hBlank := noBlank_of_readValue hRead
  rcases List.eq_append_cons_of_mem hHash with
    ⟨left, right, rfl, hLeft⟩
  have hJoined : joinedValue (left ++ '#' :: right) next =
      left ++ '#' :: joinedValue right next := by
    unfold joinedValue continues
    rw [endSlashes_append_cons (by decide),
      joinLines_append_cons (by decide) (by decide)]
    split
    · rfl
    · rfl
  unfold readValue at hRead
  rw [hJoined, uncomment_append_hash hLeft] at hRead
  have hParts := rdropWhile_append_slashes left
  generalize left.rdropWhile isSlash = start at hRead hParts
  generalize endSlashes left = slashes at hRead hParts
  subst hParts
  rw [dropWhile_of_head] at hRead
  · by_cases hNone : slashes = 0
    · subst hNone
      simp at hRead
    · rw [List.append_assoc] at hRead
      refine slashes_ne (by omega) ?_ hRead
      intro c hc
      split at hc
      · cases hc
        rfl
      · cases hc
  · -- The text starts like the value, or is a comment.
    intro c hc
    cases start with
    | cons d start =>
        apply hBlank
        simpa using hc
    | nil =>
        cases hHalf : slashes / 2 with
        | zero =>
            rw [hHalf] at hc
            split at hc
            · cases hc
              rfl
            · cases hc
        | succ half =>
            rw [hHalf] at hc
            simp only [List.replicate_succ, List.nil_append,
              List.cons_append, List.head?_cons,
              Option.some.injEq] at hc
            rw [← hc]
            rfl

theorem startsPlain_uncomment
    {next : Text}
    (hNext : StartsPlain next) :
    StartsPlain (uncomment next) := by
  intro c hc
  cases next with
  | nil => cases hc
  | cons d rest =>
      have hFirst := hNext d rfl
      unfold uncomment at hc
      rw [uncommentFrom_cons, hFirst.2,
        if_neg Bool.false_ne_true] at hc
      split at hc
      · simp at hc
      · simp only [List.replicate_zero, List.nil_append,
          List.head?_cons, Option.some.injEq] at hc
        rw [← hc]
        exact hFirst

/- One space does not stand for blanks and a backslash. -/
theorem continued_ne
    {kept blanks tail : Text}
    (hTail : StartsPlain tail)
    (hBlanks : ∀ c ∈ blanks, isBlank c = true)
    (hHead : ∀ c,
      ((kept ++ blanks) ++ List.replicate 1 '\\').head? =
        some c → isBlank c = false) :
    (kept ++ ' ' :: tail).dropWhile isBlank ≠
      (kept ++ blanks) ++ List.replicate 1 '\\' := by
  intro hSame
  cases kept with
  | nil =>
      cases blanks with
      | cons c blanks =>
          have hFirst := hBlanks c List.mem_cons_self
          rw [hHead c rfl] at hFirst
          cases hFirst
      | nil =>
          have hDrop : tail.dropWhile isBlank = tail :=
            dropWhile_of_head (fun c hc => (hTail c hc).1)
          have hText : tail = ['\\'] := by
            rw [← hDrop]
            simpa [isBlank] using hSame
          have hFirst := (hTail '\\' (by rw [hText]; rfl)).2
          exact absurd hFirst (by decide)
  | cons d kept =>
      rw [dropWhile_of_head] at hSame
      · rw [List.append_assoc] at hSame
        have hRest := List.append_cancel_left hSame
        cases blanks with
        | nil => cases (List.cons.inj hRest).1
        | cons c blanks =>
            have hText : tail = blanks ++ ['\\'] :=
              (List.cons.inj hRest).2
            cases blanks with
            | nil =>
                have hFirst :=
                  (hTail '\\' (by rw [hText]; rfl)).2
                exact absurd hFirst (by decide)
            | cons e blanks =>
                have hFirst := (hTail e (by rw [hText]; rfl)).1
                rw [hBlanks e (by simp)] at hFirst
                cases hFirst
      · intro c hc
        apply hHead
        simpa using hc

/- A value that a line continues is changed. -/
theorem ends_of_readValue
    {value next : Text}
    (hNext : StartsPlain next)
    (hRead : readValue (joinedValue value next) = value) :
    continues value = false := by
  by_contra hContinues
  rw [Bool.not_eq_false] at hContinues
  have hBlank := noBlank_of_readValue hRead
  have hHash := noComment_of_readValue hRead
  have hSame : next.dropWhile isBlank = next :=
    dropWhile_of_head (fun c hc => (hNext c hc).1)
  have hParts := rdropWhile_append_slashes value
  have hOdd : endSlashes value % 2 = 1 := by
    simpa [continues] using hContinues
  unfold readValue joinedValue at hRead
  rw [if_pos hContinues] at hRead
  unfold joinLines at hRead
  rw [hSame] at hRead
  generalize value.rdropWhile isSlash = start at hRead hParts
  generalize endSlashes value = slashes at hRead hParts hOdd
  subst hParts
  have hTail := startsPlain_uncomment hNext
  have hKept : '#' ∉ (start ++
      List.replicate (slashes / 2) '\\').rdropWhile isBlank ++
        [' '] := by
    intro hMem
    rcases List.mem_append.mp hMem with hIn | hIn
    · rcases List.mem_append.mp
          ((List.rdropWhile_prefix isBlank _).subset hIn)
        with h | h
      · exact hHash (List.mem_append_left _ h)
      · have hSlash : '#' = '\\' := List.eq_of_mem_replicate h
        exact absurd hSlash (by decide)
    · have hSpace : '#' = ' ' := List.mem_singleton.mp hIn
      exact absurd hSpace (by decide)
  rw [uncomment_append_cons (by decide) hKept] at hRead
  generalize uncomment next = tail at hRead hTail
  cases hHalf : slashes / 2 with
  | zero =>
      -- One backslash: only the blanks before it go.
      have hOne : slashes = 1 := by omega
      subst hOne
      rw [hHalf, List.replicate_zero, List.append_nil] at hRead
      have hBlanks : start.rdropWhile isBlank ++
          start.rtakeWhile isBlank = start :=
        List.rdropWhile_append_rtakeWhile
      have hAllBlank : ∀ c ∈ start.rtakeWhile isBlank,
          isBlank c = true :=
        fun c hc => List.mem_rtakeWhile_imp hc
      generalize start.rdropWhile isBlank = kept
        at hRead hBlanks
      generalize start.rtakeWhile isBlank = blanks
        at hBlanks hAllBlank
      subst hBlanks
      exact continued_ne hTail hAllBlank hBlank hRead
  | succ half =>
      have hStays : (start ++
          List.replicate (slashes / 2) '\\').rdropWhile
            isBlank =
          start ++ List.replicate (slashes / 2) '\\' := by
        rw [hHalf, List.replicate_succ', ← List.append_assoc]
        exact List.rdropWhile_concat_neg _ _ _ (by decide)
      rw [hStays, dropWhile_of_head, List.append_assoc]
        at hRead
      · have hLess : slashes / 2 < slashes := by omega
        have hSpace : ∀ c, (' ' :: tail).head? = some c →
            isSlash c = false := by
          intro c hc
          cases hc
          rfl
        rw [← List.append_nil (List.replicate slashes '\\')]
          at hRead
        exact slashes_ne hLess hSpace hRead
      · intro c hc
        cases start with
        | cons d start =>
            apply hBlank
            simpa using hc
        | nil =>
            rw [hHalf] at hc
            cases hc
            rfl

theorem plain_of_readValue
    {value next : Text}
    (hNext : StartsPlain next)
    (hRead : readValue (joinedValue value next) = value) :
    PlainValue value :=
  ⟨noComment_of_readValue hRead, noBlank_of_readValue hRead,
    ends_of_readValue hNext hRead⟩

------------------------------------------------------------
-- Assignments
------------------------------------------------------------

/- A name of which `make` changes nothing. -/
def PlainName (name : Text) : Prop :=
  ∀ c ∈ name, isBlank c = false ∧ isSlash c = false ∧
    c ≠ '#' ∧ c ≠ '='

/- A line `NAME=value`. -/
def assignLine (line : Text × Text) : Text :=
  line.1 ++ '=' :: line.2

/- The line that comes first. -/
def firstLine : List (Text × Text) → Text
| [] => []
| line :: _ => assignLine line

/- Assignments with what their continuation lines add. -/
def joinAssignments : List (Text × Text) → List (Text × Text)
| [] => []
| line :: rest =>
    let joined := joinAssignments rest
    (line.1, joinedValue line.2 (firstLine joined)) ::
      (if continues line.2 then joined.tail else joined)

theorem logicalLines_cons
    (line : Text)
    (rest : List Text) :
    logicalLines (line :: rest) =
      if continues line then
        match logicalLines rest with
        | [] => [joinLines line []]
        | next :: others => joinLines line next :: others
      else
        line :: logicalLines rest := by
  rfl

theorem joinAssignments_cons
    (line : Text × Text)
    (rest : List (Text × Text)) :
    joinAssignments (line :: rest) =
      (line.1, joinedValue line.2
        (firstLine (joinAssignments rest))) ::
      (if continues line.2 then
        (joinAssignments rest).tail
      else
        joinAssignments rest) := by
  rfl

theorem logicalLines_assignments
    (assigned : List (Text × Text)) :
    logicalLines (assigned.map assignLine) =
      (joinAssignments assigned).map assignLine := by
  induction assigned with
  | nil => rfl
  | cons line rest ih =>
      have hEnds : continues (assignLine line) =
          continues line.2 := by
        unfold continues assignLine
        rw [endSlashes_append_cons (by decide)]
      have hJoin : ∀ next,
          joinLines (assignLine line) next =
            assignLine (line.1, joinLines line.2 next) :=
        fun next =>
          joinLines_append_cons (by decide) (by decide)
            line.1 line.2 next
      rw [List.map_cons, logicalLines_cons, hEnds, ih,
        joinAssignments_cons]
      unfold joinedValue
      cases hLine : continues line.2 with
      | false => rfl
      | true =>
          cases joinAssignments rest with
          | nil =>
              simp only [List.map_nil, if_true, hJoin]
              rfl
          | cons next others =>
              simp only [List.map_cons, if_true, hJoin]
              rfl

theorem joinAssignments_sublist
    (assigned : List (Text × Text)) :
    ((joinAssignments assigned).map Prod.fst).Sublist
      (assigned.map Prod.fst) := by
  induction assigned with
  | nil => exact List.Sublist.refl _
  | cons line rest ih =>
      rw [joinAssignments_cons, List.map_cons, List.map_cons]
      apply List.Sublist.cons_cons
      split
      · rw [List.map_tail]
        exact (List.tail_sublist _).trans ih
      · exact ih

/- Lines that end before their newline stay. -/
theorem joinAssignments_append
    {before : List (Text × Text)}
    (hEnds : ∀ line ∈ before, continues line.2 = false)
    (rest : List (Text × Text)) :
    joinAssignments (before ++ rest) =
      before ++ joinAssignments rest := by
  induction before with
  | nil => rfl
  | cons line before ih =>
      have hLine := hEnds line List.mem_cons_self
      have hRest := ih (fun other hOther =>
        hEnds other (List.mem_cons_of_mem line hOther))
      rw [List.cons_append, joinAssignments_cons]
      unfold joinedValue
      simp only [hLine, Bool.false_eq_true, if_false, hRest]
      rfl

theorem makeAssignment_assignLine
    {name : Text}
    (hName : PlainName name)
    (joined : Text) :
    makeAssignment (assignLine (name, joined)) =
      some (name, readValue joined) := by
  have hHash : '#' ∉ name ++ ['='] := by
    intro hMem
    rcases List.mem_append.mp hMem with hIn | hIn
    · exact (hName '#' hIn).2.2.1 rfl
    · exact absurd (List.mem_singleton.mp hIn) (by decide)
  have hEquals : '=' ∉ name :=
    fun hIn => (hName '=' hIn).2.2.2 rfl
  have hText : uncomment (assignLine (name, joined)) =
      name ++ '=' :: uncomment joined :=
    uncomment_append_cons (by decide) hHash joined
  have hStart : (name ++ '=' :: uncomment joined).dropWhile
      isBlank = name ++ '=' :: uncomment joined := by
    apply dropWhile_of_head
    intro c hc
    cases name with
    | nil =>
        cases hc
        rfl
    | cons d name =>
        cases hc
        exact (hName _ List.mem_cons_self).1
  have hEnd : name.rdropWhile isBlank = name := by
    rw [List.rdropWhile_eq_self_iff]
    intro hNe
    rw [(hName _ (List.getLast_mem hNe)).1]
    exact Bool.false_ne_true
  unfold makeAssignment
  rw [hText, hStart]
  simp [before_append _ hEquals, after_append _ hEquals,
    hEnd, readValue]

------------------------------------------------------------
-- Files
------------------------------------------------------------

/-
  A file of comment lines and assignments, which nothing in
  it joins or ends early.
-/
structure AssignmentFile where
  comments : List Text
  assigned : List (Text × Text)
  isComment : ∀ line ∈ comments, line.head? = some '#' ∧
    continues line = false ∧ '\n' ∉ line
  plainNames : ∀ line ∈ assigned, PlainName line.1
  newlines : ∀ line ∈ assigned,
    '\n' ∉ line.1 ∧ '\n' ∉ line.2
  nodup : (assigned.map Prod.fst).Nodup

namespace AssignmentFile

/- The contents of the file. -/
def text (file : AssignmentFile) : Text :=
  unlines (file.comments ++ file.assigned.map assignLine)

/- The variables that the file sets. -/
theorem makeAssignments_text
    (file : AssignmentFile) :
    makeAssignments file.text =
      (joinAssignments file.assigned).map
        (fun line => (line.1, readValue line.2)) := by
  have hLines : lines file.text =
      file.comments ++ file.assigned.map assignLine := by
    apply lines_unlines
    intro line hLine
    rcases List.mem_append.mp hLine with hIn | hIn
    · exact (file.isComment line hIn).2.2
    · rcases List.mem_map.mp hIn with ⟨pair, hPair, rfl⟩
      simp [assignLine, file.newlines pair hPair]
  have hComments : ∀ (comments rest : List Text),
      (∀ line ∈ comments, line.head? = some '#' ∧
        continues line = false ∧ '\n' ∉ line) →
      (logicalLines (comments ++ rest)).filterMap
          makeAssignment =
        (logicalLines rest).filterMap makeAssignment := by
    intro comments rest hAll
    induction comments with
    | nil => rfl
    | cons line comments ih =>
        rcases hAll line List.mem_cons_self with
          ⟨hHead, hEnds, _⟩
        rw [List.cons_append, logicalLines_cons, hEnds,
          if_neg Bool.false_ne_true,
          List.filterMap_cons_none, ih]
        · exact fun other hOther =>
            hAll other (List.mem_cons_of_mem line hOther)
        · rcases List.head?_eq_some_iff.mp hHead with
            ⟨tail, rfl⟩
          rfl
  unfold makeAssignments
  rw [hLines, hComments _ _ file.isComment,
    logicalLines_assignments, List.filterMap_map]
  rw [← List.filterMap_eq_map]
  apply List.filterMap_congr
  intro line hLine
  have hName : line.1 ∈ file.assigned.map Prod.fst :=
    (joinAssignments_sublist file.assigned).subset
      (List.mem_map_of_mem hLine)
  rcases List.mem_map.mp hName with ⟨old, hOld, hSame⟩
  have hPlain := file.plainNames old hOld
  rw [hSame] at hPlain
  exact makeAssignment_assignLine hPlain line.2

/- Different names: the only assignment is the last one. -/
theorem getLast?_filter_eq_find?
    {assigned : List (Text × Text)}
    (hNodup : (assigned.map Prod.fst).Nodup)
    (name : Text) :
    (assigned.filter (fun line => line.1 = name)).getLast? =
      assigned.find? (fun line => line.1 = name) := by
  induction assigned with
  | nil => rfl
  | cons line assigned ih =>
      rw [List.map_cons, List.nodup_cons] at hNodup
      by_cases hHere : line.1 = name
      · have hNone : assigned.filter
            (fun line => line.1 = name) = [] := by
          rw [List.filter_eq_nil_iff]
          intro other hOther hSame
          apply hNodup.1
          rw [hHere, ← of_decide_eq_true hSame]
          exact List.mem_map_of_mem hOther
        rw [List.filter_cons_of_pos (by simp [hHere]), hNone,
          List.find?_cons_of_pos (by simp [hHere])]
        rfl
      · rw [List.filter_cons_of_neg (by simp [hHere]),
          List.find?_cons_of_neg (by simp [hHere]),
          ih hNodup.2]

theorem makeValue_text
    (file : AssignmentFile)
    (name : Text) :
    makeValue file.text name =
      ((joinAssignments file.assigned).find?
        (fun line => line.1 = name)).map
          (fun line => readValue line.2) := by
  have hNodup :
      ((makeAssignments file.text).map Prod.fst).Nodup := by
    rw [makeAssignments_text, List.map_map]
    exact file.nodup.sublist
      (joinAssignments_sublist file.assigned)
  unfold makeValue
  rw [getLast?_filter_eq_find? hNodup, makeAssignments_text,
    List.find?_map, Option.map_map]
  rfl

theorem startsPlain_firstLine
    {assigned : List (Text × Text)}
    (hNames : ∀ line ∈ assigned, PlainName line.1) :
    StartsPlain (firstLine assigned) := by
  intro c hc
  cases assigned with
  | nil => cases hc
  | cons line assigned =>
      have hName := hNames line List.mem_cons_self
      rcases line with ⟨name, value⟩
      cases name with
      | nil =>
          cases hc
          exact ⟨rfl, rfl⟩
      | cons d name =>
          cases hc
          have hFirst := hName _ List.mem_cons_self
          exact ⟨hFirst.1, hFirst.2.1⟩

/- The first value that may not be plain. -/
theorem makeValue_first
    (file : AssignmentFile)
    {before after : List (Text × Text)}
    {name value : Text}
    (hAssigned : file.assigned =
      before ++ (name, value) :: after)
    (hPlain : ∀ line ∈ before, PlainValue line.2) :
    ∃ next, StartsPlain next ∧
      makeValue file.text name =
        some (readValue (joinedValue value next)) := by
  have hNodup := file.nodup
  have hNames := file.plainNames
  rw [hAssigned] at hNodup hNames
  refine ⟨firstLine (joinAssignments after), ?_, ?_⟩
  · apply startsPlain_firstLine
    intro line hLine
    have hName : line.1 ∈ after.map Prod.fst :=
      (joinAssignments_sublist after).subset
        (List.mem_map_of_mem hLine)
    rcases List.mem_map.mp hName with ⟨old, hOld, hSame⟩
    rw [← hSame]
    exact hNames old (by simp [hOld])
  · rw [makeValue_text, hAssigned, joinAssignments_append
      (fun line hLine => (hPlain line hLine).ends),
      joinAssignments_cons, List.find?_append]
    have hNone : before.find?
        (fun line => line.1 = name) = none := by
      rw [List.find?_eq_none]
      intro line hLine hSame
      rw [List.map_append, List.nodup_append] at hNodup
      exact hNodup.2.2 line.1 (List.mem_map_of_mem hLine)
        name (by simp) (of_decide_eq_true hSame)
    rw [hNone, Option.none_or,
      List.find?_cons_of_pos (by simp)]
    rfl

/- Plain values are read as they stand. -/
theorem makeValue_of_plain
    (file : AssignmentFile)
    (hPlain : ∀ line ∈ file.assigned, PlainValue line.2)
    (name : Text) :
    makeValue file.text name =
      (file.assigned.find? (fun line => line.1 = name)).map
        Prod.snd := by
  have hJoin := joinAssignments_append
    (fun line hLine => (hPlain line hLine).ends) []
  rw [List.append_nil] at hJoin
  rw [makeValue_text, hJoin]
  simp only [joinAssignments, List.append_nil]
  cases hFind : file.assigned.find?
      (fun line => line.1 = name) with
  | none => rfl
  | some line =>
      have hLine := hPlain line (List.mem_of_find?_eq_some hFind)
      have hRead := readValue_of_plain hLine []
      unfold joinedValue at hRead
      rw [hLine.ends, if_neg Bool.false_ne_true] at hRead
      rw [Option.map_some, Option.map_some, hRead]

end AssignmentFile

end Text

end Mkrootfs
