import Mathlib.Data.List.Basic
import Mathlib.Data.List.Infix

/-
  Texts as character lists, their lines, and the chunks a
  line reader with a fixed buffer takes from them.

  Main declarations:
    * `Text.before` and `Text.after`
    * `Text.fields`, `Text.fields_intercalate`
    * `Text.lines` and `Text.unlines`
    * `Text.fgets`
    * `Text.lines_append_newline`
    * `Text.fgets_append_newline`
    * `Text.fgets_unlines`
-/

------------------------------------------------------------
-- Cutting At A Character
------------------------------------------------------------

namespace Mkrootfs

/- A text is a list of characters. -/
abbrev Text := List Char

/- Texts are compared as lists of characters. -/
instance : LawfulBEq Text := inferInstance

namespace Text

/- What stands before the first `c`. -/
def before (c : Char) : Text → Text
| [] => []
| d :: rest => if d = c then [] else d :: before c rest

/- What stands after the first `c`. -/
def after (c : Char) : Text → Text
| [] => []
| d :: rest => if d = c then rest else after c rest

theorem before_sublist
    (c : Char)
    (text : Text) :
    (before c text).Sublist text := by
  induction text with
  | nil => exact List.Sublist.refl _
  | cons d rest ih =>
      unfold before
      split
      · exact List.nil_sublist _
      · exact ih.cons_cons d

/- The first `c` cuts the text in two. -/
theorem before_append_after
    {c : Char}
    {text : Text}
    (hMem : c ∈ text) :
    before c text ++ c :: after c text = text := by
  induction text with
  | nil => cases hMem
  | cons d rest ih =>
      by_cases hHere : d = c
      · simp [before, after, hHere]
      · have hTail : c ∈ rest := by
          rcases List.mem_cons.mp hMem with h | h
          · exact absurd h.symm hHere
          · exact h
        simp [before, after, hHere, ih hTail]

theorem before_append
    {c : Char}
    {left : Text}
    (right : Text)
    (hLeft : c ∉ left) :
    before c (left ++ c :: right) = left := by
  induction left with
  | nil => simp [before]
  | cons d left ih =>
      have hHead : d ≠ c := by
        intro h
        exact hLeft (by simp [h])
      have hTail : c ∉ left := by
        intro h
        exact hLeft (by simp [h])
      simp [before, hHead, ih hTail]

theorem after_append
    {c : Char}
    {left : Text}
    (right : Text)
    (hLeft : c ∉ left) :
    after c (left ++ c :: right) = right := by
  have hMem : c ∈ left ++ c :: right := by simp
  have hCut := before_append_after hMem
  rw [before_append right hLeft] at hCut
  simpa using hCut

------------------------------------------------------------
-- Lines
------------------------------------------------------------

/-
  The fields of a text that a separator ends. A final
  separator ends the last field and does not start another.
-/
def fields (separator : Char) : Text → List Text
| [] => []
| c :: rest =>
    if c = separator then
      [] :: fields separator rest
    else
      match fields separator rest with
      | [] => [[c]]
      | field :: others => (c :: field) :: others

/- The first separator ends the first field. -/
theorem fields_append_separator
    {separator : Char}
    (field rest : Text)
    (hField : separator ∉ field) :
    fields separator (field ++ separator :: rest) =
      field :: fields separator rest := by
  induction field with
  | nil => simp [fields]
  | cons c field ih =>
      have hHead : c ≠ separator := by
        intro h
        exact hField (by simp [h])
      have hTail : separator ∉ field := by
        intro h
        exact hField (by simp [h])
      simp [fields, hHead, ih hTail]

/- A nonempty text without separator is one field. -/
theorem fields_of_not_mem
    {separator : Char}
    (field : Text)
    (hField : separator ∉ field)
    (hNonempty : field ≠ []) :
    fields separator field = [field] := by
  induction field with
  | nil => exact absurd rfl hNonempty
  | cons c field ih =>
      have hHead : c ≠ separator := by
        intro h
        exact hField (by simp [h])
      have hTail : separator ∉ field := by
        intro h
        exact hField (by simp [h])
      by_cases hEmpty : field = []
      · subst field
        simp [fields, hHead]
      · simp [fields, hHead, ih hTail hEmpty]

/- A field has characters of the text, no separator. -/
theorem mem_of_mem_fields
    {separator : Char}
    {text field : Text}
    (hField : field ∈ fields separator text) :
    separator ∉ field ∧ field ⊆ text := by
  induction text generalizing field with
  | nil => simp [fields] at hField
  | cons c rest ih =>
      unfold fields at hField
      split at hField
      · rcases List.mem_cons.mp hField with
          rfl | hRest
        · simp
        · have hTail := ih hRest
          exact ⟨hTail.1,
            List.Subset.trans hTail.2
              (List.subset_cons_self c rest)⟩
      · next hHead =>
          split at hField
          · rw [List.mem_singleton] at hField
            subst field
            simpa using fun h : separator = c =>
              hHead h.symm
          · next first others hFields =>
              rcases List.mem_cons.mp hField with
                rfl | hOther
              · have hFirst :=
                  ih (hFields ▸ List.mem_cons_self)
                refine ⟨?_, List.cons_subset_cons c
                  hFirst.2⟩
                intro hMem
                rcases List.mem_cons.mp hMem with
                  hChar | hMem
                · exact hHead hChar.symm
                · exact hFirst.1 hMem
              · have hTail := ih
                  (hFields ▸ List.mem_cons_of_mem first
                    hOther)
                exact ⟨hTail.1,
                  List.Subset.trans hTail.2
                    (List.subset_cons_self c rest)⟩

/- Any other character starts the first field. -/
theorem fields_cons_of_ne
    {separator c : Char}
    (rest : Text)
    (hChar : c ≠ separator) :
    ∃ field others,
      fields separator (c :: rest) =
        (c :: field) :: others := by
  unfold fields
  rw [if_neg hChar]
  split
  · exact ⟨[], [], rfl⟩
  · exact ⟨_, _, rfl⟩

/- The fields that a text was joined from. -/
theorem fields_intercalate
    {separator : Char}
    {entries : List Text}
    (hEntries :
      ∀ entry ∈ entries,
        separator ∉ entry ∧ entry ≠ []) :
    fields separator ([separator].intercalate entries) =
      entries := by
  induction entries with
  | nil => rfl
  | cons entry entries ih =>
      have hEntry := hEntries entry List.mem_cons_self
      have hRest := ih (fun other hMem =>
        hEntries other (List.mem_cons_of_mem entry hMem))
      cases entries with
      | nil =>
          simpa using
            fields_of_not_mem entry hEntry.1 hEntry.2
      | cons next entries =>
          rw [List.intercalate_cons_cons,
            List.append_assoc, List.singleton_append,
            fields_append_separator _ _ hEntry.1, hRest]

/-
  The newline-separated records of a text. A final newline
  ends the last record and does not start another.
-/
def lines : Text → List Text
| [] => []
| c :: rest =>
    if c = '\n' then
      [] :: lines rest
    else
      match lines rest with
      | [] => [[c]]
      | line :: others => (c :: line) :: others

/- Lines are the fields that newlines end. -/
theorem lines_eq_fields
    (text : Text) :
    lines text = fields '\n' text := by
  induction text with
  | nil => rfl
  | cons c rest ih => simp only [lines, fields, ih]

/- Every line followed by a newline. -/
def unlines (ls : List Text) : Text :=
  ls.flatMap (fun line => line ++ ['\n'])

@[simp] theorem unlines_nil : unlines [] = [] := rfl

@[simp] theorem unlines_cons
    (line : Text)
    (ls : List Text) :
    unlines (line :: ls) =
      line ++ '\n' :: unlines ls := by
  simp [unlines]

theorem unlines_append
    (ls ms : List Text) :
    unlines (ls ++ ms) = unlines ls ++ unlines ms := by
  simp [unlines]

/- The first newline ends the first line. -/
theorem lines_append_newline
    (line rest : Text)
    (hLine : '\n' ∉ line) :
    lines (line ++ '\n' :: rest) = line :: lines rest := by
  rw [lines_eq_fields, lines_eq_fields,
    fields_append_separator _ _ hLine]

/- The lines that a text was made of. -/
theorem lines_unlines
    {ls : List Text}
    (hLines : ∀ line ∈ ls, '\n' ∉ line) :
    lines (unlines ls) = ls := by
  induction ls with
  | nil => rfl
  | cons line ls ih =>
      rw [unlines_cons,
        lines_append_newline _ _
          (hLines line List.mem_cons_self),
        ih (fun other hMem =>
          hLines other (List.mem_cons_of_mem line hMem))]

/- A nonempty text without newline is one line. -/
theorem lines_of_not_mem
    (line : Text)
    (hLine : '\n' ∉ line)
    (hNonempty : line ≠ []) :
    lines line = [line] := by
  rw [lines_eq_fields,
    fields_of_not_mem _ hLine hNonempty]

/-
  Every text is one unterminated line, or a line, its
  newline and a rest.
-/
theorem newline_cases
    (text : Text) :
    '\n' ∉ text ∨
      ∃ line rest,
        text = line ++ '\n' :: rest ∧ '\n' ∉ line := by
  by_cases hMem : '\n' ∈ text
  · right
    rcases List.eq_append_cons_of_mem hMem with
      ⟨line, rest, hText, hLine⟩
    exact ⟨line, rest, hText, hLine⟩
  · exact Or.inl hMem

------------------------------------------------------------
-- A Line Reader With A Fixed Buffer
------------------------------------------------------------

/-
  Continue reading with `taken` already in a buffer that
  holds `room` characters: a chunk ends after a newline or
  when the buffer is full.
-/
def fgetsFrom (room : Nat) : Text → Text → List Text
| taken, [] => if taken = [] then [] else [taken]
| taken, c :: rest =>
    if c = '\n' then
      (taken ++ [c]) :: fgetsFrom room [] rest
    else if taken.length + 1 = room then
      (taken ++ [c]) :: fgetsFrom room [] rest
    else
      fgetsFrom room (taken ++ [c]) rest

/-
  The chunks of successive `fgets` calls with a buffer of
  `size` bytes, one of which holds the terminating NUL.
-/
def fgets (size : Nat) (text : Text) : List Text :=
  fgetsFrom (size - 1) [] text

theorem fgetsFrom_append_newline
    (room : Nat)
    (line : Text)
    (taken rest : Text)
    (hLine : '\n' ∉ line)
    (hRoom : taken.length + line.length < room) :
    fgetsFrom room taken (line ++ '\n' :: rest) =
      (taken ++ line ++ ['\n']) ::
        fgetsFrom room [] rest := by
  induction line generalizing taken with
  | nil => simp [fgetsFrom]
  | cons c line ih =>
      have hHead : c ≠ '\n' := by
        intro h
        exact hLine (by simp [h])
      have hTail : '\n' ∉ line := by
        intro h
        exact hLine (by simp [h])
      have hFull : taken.length + 1 ≠ room := by
        simp only [List.length_cons] at hRoom
        omega
      have hNext :
          (taken ++ [c]).length + line.length < room := by
        simp only [List.length_append, List.length_cons,
          List.length_nil] at hRoom ⊢
        omega
      simp [fgetsFrom, hHead, hFull,
        ih (taken ++ [c]) hTail hNext]

/- A line that fits the buffer is one chunk. -/
theorem fgets_append_newline
    (size : Nat)
    (line rest : Text)
    (hLine : '\n' ∉ line)
    (hRoom : line.length + 1 < size) :
    fgets size (line ++ '\n' :: rest) =
      (line ++ ['\n']) :: fgets size rest := by
  unfold fgets
  rw [fgetsFrom_append_newline _ line [] rest hLine
    (by simp; omega)]
  simp

theorem fgetsFrom_full
    (room : Nat)
    (chunk : Text)
    (taken rest : Text)
    (hChunk : '\n' ∉ chunk)
    (hNonempty : chunk ≠ [])
    (hRoom : taken.length + chunk.length = room) :
    fgetsFrom room taken (chunk ++ rest) =
      (taken ++ chunk) :: fgetsFrom room [] rest := by
  induction chunk generalizing taken with
  | nil => exact absurd rfl hNonempty
  | cons c chunk ih =>
      have hHead : c ≠ '\n' := by
        intro h
        exact hChunk (by simp [h])
      have hTail : '\n' ∉ chunk := by
        intro h
        exact hChunk (by simp [h])
      by_cases hEmpty : chunk = []
      · subst chunk
        have hFull : taken.length + 1 = room := by
          simpa using hRoom
        simp [fgetsFrom, hHead, hFull]
      · have hFull : taken.length + 1 ≠ room := by
          have hPos := List.length_pos_iff.mpr hEmpty
          simp only [List.length_cons] at hRoom
          omega
        have hNext :
            (taken ++ [c]).length + chunk.length =
              room := by
          simp only [List.length_append, List.length_cons,
            List.length_nil] at hRoom ⊢
          omega
        simp [fgetsFrom, hHead, hFull,
          ih (taken ++ [c]) hTail hEmpty hNext]

/-
  A full buffer without newline is a chunk of its own, and
  reading goes on in the middle of the line.
-/
theorem fgets_full
    (size : Nat)
    (chunk rest : Text)
    (hChunk : '\n' ∉ chunk)
    (hNonempty : chunk ≠ [])
    (hSize : chunk.length + 1 = size) :
    fgets size (chunk ++ rest) =
      chunk :: fgets size rest := by
  unfold fgets
  rw [fgetsFrom_full _ chunk [] rest hChunk hNonempty
    (by simp; omega)]
  simp

/- Reading starts afresh behind a newline. -/
theorem fgetsFrom_append
    (room : Nat)
    (line : Text)
    (taken rest : Text) :
    fgetsFrom room taken (line ++ '\n' :: rest) =
      fgetsFrom room taken (line ++ ['\n']) ++
        fgetsFrom room [] rest := by
  induction line generalizing taken with
  | nil => simp [fgetsFrom]
  | cons c line ih =>
      by_cases hNewline : c = '\n'
      · simp [fgetsFrom, hNewline, ih]
      · by_cases hFull : taken.length + 1 = room
        · simp [fgetsFrom, hNewline, hFull, ih]
        · simp [fgetsFrom, hNewline, hFull, ih]

/- The chunks of a file are those of its lines. -/
theorem fgets_unlines_eq_flatMap
    (size : Nat)
    (ls : List Text) :
    fgets size (unlines ls) =
      ls.flatMap
        (fun line => fgets size (line ++ ['\n'])) := by
  induction ls with
  | nil => rfl
  | cons line ls ih =>
      rw [unlines_cons, List.flatMap_cons, ← ih]
      exact fgetsFrom_append (size - 1) line [] _

/- A chunk fits the buffer and holds read characters. -/
theorem fgetsFrom_chunk
    {room : Nat}
    {taken text chunk : Text}
    (hTaken : taken.length < room)
    (hChunk : chunk ∈ fgetsFrom room taken text) :
    chunk.length ≤ room ∧
      ∀ c ∈ chunk, c ∈ taken ∨ c ∈ text := by
  have hRoom : ([] : Text).length < room := by
    simp only [List.length_nil]
    omega
  induction text generalizing taken with
  | nil =>
      unfold fgetsFrom at hChunk
      split at hChunk
      · cases hChunk
      · have hEq : chunk = taken := by simpa using hChunk
        subst chunk
        exact ⟨by omega, fun c hc => Or.inl hc⟩
  | cons c rest ih =>
      have hHead :
          (taken ++ [c]).length ≤ room ∧
            ∀ d ∈ taken ++ [c],
              d ∈ taken ∨ d ∈ c :: rest := by
        constructor
        · simp only [List.length_append, List.length_cons,
            List.length_nil]
          omega
        · intro d hd
          rcases List.mem_append.mp hd with hOld | hNew
          · exact Or.inl hOld
          · right
            simp [List.mem_singleton.mp hNew]
      have hLater :
          chunk ∈ fgetsFrom room [] rest →
            chunk.length ≤ room ∧
              ∀ d ∈ chunk, d ∈ taken ∨ d ∈ c :: rest := by
        intro hRest
        rcases ih hRoom hRest with ⟨hLength, hMem⟩
        refine ⟨hLength, ?_⟩
        intro d hd
        rcases hMem d hd with hNil | hIn
        · cases hNil
        · exact Or.inr (List.mem_cons_of_mem _ hIn)
      unfold fgetsFrom at hChunk
      split at hChunk
      · rcases List.mem_cons.mp hChunk with rfl | hRest
        · exact hHead
        · exact hLater hRest
      · split at hChunk
        · rcases List.mem_cons.mp hChunk with rfl | hRest
          · exact hHead
          · exact hLater hRest
        · next hFull =>
            have hShort : (taken ++ [c]).length < room := by
              simp only [List.length_append, List.length_cons,
                List.length_nil]
              omega
            rcases ih hShort hChunk with ⟨hLength, hMem⟩
            refine ⟨hLength, ?_⟩
            intro d hd
            rcases hMem d hd with hIn | hIn
            · exact hHead.2 d hIn
            · exact Or.inr (List.mem_cons_of_mem _ hIn)

/- Chunks are shorter than the buffer. -/
theorem fgets_chunk
    {size : Nat}
    (hSize : 2 ≤ size)
    {text chunk : Text}
    (hChunk : chunk ∈ fgets size text) :
    chunk.length < size ∧ ∀ c ∈ chunk, c ∈ text := by
  rcases fgetsFrom_chunk (by simp; omega) hChunk with
    ⟨hLength, hMem⟩
  refine ⟨by omega, ?_⟩
  intro c hc
  rcases hMem c hc with hNil | hIn
  · cases hNil
  · exact hIn

@[simp] theorem fgets_nil (size : Nat) :
    fgets size [] = [] := rfl

/- Lines that all fit are read one by one. -/
theorem fgets_unlines
    (size : Nat)
    (ls : List Text)
    (hLines : ∀ line ∈ ls,
      '\n' ∉ line ∧ line.length + 1 < size) :
    fgets size (unlines ls) =
      ls.map (fun line => line ++ ['\n']) := by
  induction ls with
  | nil => simp
  | cons line ls ih =>
      have hHead := hLines line (by simp)
      have hTail : ∀ line ∈ ls,
          '\n' ∉ line ∧ line.length + 1 < size := by
        intro other hOther
        exact hLines other (by simp [hOther])
      rw [unlines_cons,
        fgets_append_newline size line _ hHead.1 hHead.2,
        ih hTail]
      simp

/- A read chunk is not empty. -/
theorem ne_nil_of_mem_fgetsFrom
    {room : Nat}
    {taken text chunk : Text}
    (hChunk : chunk ∈ fgetsFrom room taken text) :
    chunk ≠ [] := by
  induction text generalizing taken with
  | nil =>
      unfold fgetsFrom at hChunk
      split at hChunk
      · exact absurd hChunk List.not_mem_nil
      · next hTaken =>
          rw [List.mem_singleton] at hChunk
          exact hChunk ▸ hTaken
  | cons c rest ih =>
      unfold fgetsFrom at hChunk
      split at hChunk
      · rcases List.mem_cons.mp hChunk with rfl | hRest
        · simp
        · exact ih hRest
      · split at hChunk
        · rcases List.mem_cons.mp hChunk with rfl | hRest
          · simp
          · exact ih hRest
        · exact ih hChunk

------------------------------------------------------------
-- Selected Lines
------------------------------------------------------------

/-
  Two selections print the same lines when they agree, if
  they only look at what the lines tell.
-/
theorem unlines_filter_eq_iff
    {E : Type}
    {line : E → Text}
    {entries : List E}
    {first second : E → Bool}
    (hLines : ∀ entry ∈ entries, '\n' ∉ line entry)
    (hFirst :
      ∀ {entry other},
        line entry = line other → first entry = first other)
    (hSecond :
      ∀ {entry other},
        line entry = line other →
          second entry = second other) :
    unlines ((entries.filter first).map line) =
        unlines ((entries.filter second).map line) ↔
      ∀ entry ∈ entries, first entry = second entry := by
  have hPlain :
      ∀ choice : E → Bool,
        lines (unlines ((entries.filter choice).map line)) =
          (entries.filter choice).map line := by
    intro choice
    apply lines_unlines
    intro text hText
    obtain ⟨entry, hEntry, rfl⟩ := List.mem_map.mp hText
    exact hLines entry (List.mem_filter.mp hEntry).1
  constructor
  · intro hEq
    have hSame :
        (entries.filter first).map line =
          (entries.filter second).map line := by
      rw [← hPlain first, hEq, hPlain second]
    intro entry hMem
    rw [Bool.eq_iff_iff]
    constructor
    · intro hTrue
      have hLine : line entry ∈
          (entries.filter second).map line := by
        rw [← hSame]
        exact List.mem_map_of_mem
          (List.mem_filter.mpr ⟨hMem, hTrue⟩)
      obtain ⟨other, hOther, hEqual⟩ :=
        List.mem_map.mp hLine
      rw [← hSecond hEqual]
      exact (List.mem_filter.mp hOther).2
    · intro hTrue
      have hLine : line entry ∈
          (entries.filter first).map line := by
        rw [hSame]
        exact List.mem_map_of_mem
          (List.mem_filter.mpr ⟨hMem, hTrue⟩)
      obtain ⟨other, hOther, hEqual⟩ :=
        List.mem_map.mp hLine
      rw [← hFirst hEqual]
      exact (List.mem_filter.mp hOther).2
  · intro hAgree
    rw [List.filter_congr hAgree]

end Text

end Mkrootfs
