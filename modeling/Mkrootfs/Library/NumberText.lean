import Mathlib.Tactic.IntervalCases
import Mkrootfs.Library.Text

/-
  Numbers as `printf` writes them and `scanf` reads them
  again, in a base up to sixteen.

  Main declarations:
    * `digitValue`, `readDigits`
    * `foldl_toDigits`
    * `scanNumber`, `scanNumber_toDigits`
    * `scanLiteral`, `scanLiteral_append`
-/

------------------------------------------------------------
-- Digits
------------------------------------------------------------

namespace Mkrootfs

/- The value of a digit, sixteen for any other character. -/
def digitValue (c : Char) : Nat :=
  if c.isDigit then
    c.toNat - 48
  else if 'a' ≤ c ∧ c ≤ 'f' then
    c.toNat - 87
  else if 'A' ≤ c ∧ c ≤ 'F' then
    c.toNat - 55
  else
    16

theorem digitValue_digitChar
    {digit : Nat}
    (hDigit : digit < 16) :
    digitValue (Nat.digitChar digit) = digit := by
  revert digit
  decide

/- A printed number has digits of its base. -/
theorem digitValue_lt_of_mem_toDigits
    {base n : Nat}
    {c : Char}
    (hBase : 1 < base)
    (hSixteen : base ≤ 16)
    (hMem : c ∈ Nat.toDigits base n) :
    digitValue c < base := by
  induction n using Nat.strongRecOn with
  | ind n ih =>
      rw [Nat.toDigits_eq_if hBase] at hMem
      split at hMem
      · next hLt =>
          rw [List.mem_singleton] at hMem
          rw [hMem, digitValue_digitChar (by omega)]
          exact hLt
      · next hLe =>
          rcases List.mem_append.mp hMem with
            hFront | hLast
          · exact ih (n / base)
              (Nat.div_lt_self (by omega) hBase) hFront
          · have hMod := Nat.mod_lt n
              (show base > 0 by omega)
            rw [List.mem_singleton] at hLast
            rw [hLast, digitValue_digitChar (by omega)]
            exact hMod

/- The value of a printed number. -/
theorem foldl_toDigits
    {base : Nat}
    (n : Nat)
    (hBase : 1 < base)
    (hSixteen : base ≤ 16) :
    (Nat.toDigits base n).foldl
        (fun value c => base * value + digitValue c) 0 =
      n := by
  induction n using Nat.strongRecOn with
  | ind n ih =>
      rw [Nat.toDigits_eq_if hBase]
      split
      · next hLt =>
          simp [digitValue_digitChar
            (show n < 16 by omega)]
      · next hLe =>
          have hMod := Nat.mod_lt n
            (show base > 0 by omega)
          rw [List.foldl_append, ih (n / base)
            (Nat.div_lt_self (by omega) hBase),
            List.foldl_cons, List.foldl_nil,
            digitValue_digitChar (by omega)]
          exact Nat.div_add_mod n base

------------------------------------------------------------
-- Reading
------------------------------------------------------------

/- The value of the leading digits, and the rest. -/
def readDigits (base : Nat) : Nat → Text → Nat × Text
| value, [] => (value, [])
| value, c :: rest =>
    if digitValue c < base then
      readDigits base (base * value + digitValue c) rest
    else
      (value, c :: rest)

theorem readDigits_append
    {base : Nat}
    {digits : Text}
    (value : Nat)
    (rest : Text)
    (hDigits : ∀ c ∈ digits, digitValue c < base) :
    readDigits base value (digits ++ rest) =
      readDigits base
        (digits.foldl
          (fun value c => base * value + digitValue c)
          value)
        rest := by
  induction digits generalizing value with
  | nil => rfl
  | cons c digits ih =>
      rw [List.cons_append, readDigits,
        if_pos (hDigits c List.mem_cons_self),
        ih _ (fun other hMem =>
          hDigits other (List.mem_cons_of_mem c hMem)),
        List.foldl_cons]

/- `isspace`. -/
def isSpace (c : Char) : Bool :=
  c = ' ' || (9 ≤ c.toNat && c.toNat ≤ 13)

/- An optional sign. -/
def readSign : Text → Bool × Text
| [] => (false, [])
| c :: rest =>
    if c = '-' then
      (true, rest)
    else if c = '+' then
      (false, rest)
    else
      (false, c :: rest)

/- The optional `0x` of a hexadecimal number. -/
def dropHexMark : Text → Text
| zero :: mark :: rest =>
    if zero = '0' ∧ (mark = 'x' ∨ mark = 'X') then
      rest
    else
      zero :: mark :: rest
| text => text

/- `%lx` and `%ld`: the sign, the digits and the rest. -/
def scanNumber
    (base : Nat)
    (text : Text) : Option (Bool × Nat × Text) :=
  let (negative, text) := readSign (text.dropWhile isSpace)
  let text := if base = 16 then dropHexMark text else text
  match text with
  | [] => none
  | c :: _ =>
      if digitValue c < base then
        let (value, rest) := readDigits base 0 text
        some (negative, value, rest)
      else
        none

theorem readSign_of_digit
    {c : Char}
    (rest : Text)
    (hDigit : digitValue c < 16) :
    readSign (c :: rest) = (false, c :: rest) := by
  have hMinus : c ≠ '-' := by
    rintro rfl
    revert hDigit
    decide
  have hPlus : c ≠ '+' := by
    rintro rfl
    revert hDigit
    decide
  rw [readSign, if_neg hMinus, if_neg hPlus]

theorem not_isSpace_of_digit
    {c : Char}
    (hDigit : digitValue c < 16) :
    isSpace c = false := by
  by_contra hSpace
  simp only [isSpace, Bool.not_eq_false, Bool.or_eq_true,
    decide_eq_true_eq, Bool.and_eq_true] at hSpace
  rcases hSpace with rfl | ⟨hLow, hHigh⟩
  · revert hDigit
    decide
  · have hChar : c = Char.ofNat c.toNat := by simp
    rw [hChar] at hDigit
    revert hDigit
    interval_cases c.toNat <;> decide

/- The digits are not taken for a mark. -/
theorem dropHexMark_of_digits
    {digits : Text}
    (rest : Text)
    (hDigits : ∀ c ∈ digits, digitValue c < 16) :
    dropHexMark (digits ++ ',' :: rest) =
      digits ++ ',' :: rest := by
  have hMark :
      ∀ mark, digitValue mark < 16 →
        ¬ (mark = 'x' ∨ mark = 'X') := by
    rintro mark hDigit (rfl | rfl)
    all_goals
      revert hDigit
      decide
  match digits with
  | [] =>
      cases rest with
      | nil => rfl
      | cons c rest => simp [dropHexMark]
  | [zero] => simp [dropHexMark]
  | zero :: mark :: digits =>
      have hSecond := hMark mark (hDigits mark (by simp))
      simp [dropHexMark, hSecond]

/- A printed number is read up to the comma behind it. -/
theorem scanNumber_toDigits
    {base : Nat}
    (n : Nat)
    (rest : Text)
    (hBase : 1 < base)
    (hSixteen : base ≤ 16) :
    scanNumber base (Nat.toDigits base n ++ ',' :: rest) =
      some (false, n, ',' :: rest) := by
  have hDigits :
      ∀ c ∈ Nat.toDigits base n, digitValue c < base :=
    fun c hMem =>
      digitValue_lt_of_mem_toDigits hBase hSixteen hMem
  have hMarks :=
    dropHexMark_of_digits rest
      (fun c hMem => lt_of_lt_of_le (hDigits c hMem)
        hSixteen)
  have hRead :
      readDigits base 0
          (Nat.toDigits base n ++ ',' :: rest) =
        (n, ',' :: rest) := by
    have hComma : ¬ digitValue ',' < base := by
      have hValue : digitValue ',' = 16 := by decide
      omega
    rw [readDigits_append 0 _ hDigits,
      foldl_toDigits n hBase hSixteen, readDigits,
      if_neg hComma]
  cases hText : Nat.toDigits base n with
  | nil => exact absurd hText Nat.toDigits_ne_nil
  | cons c digits =>
      rw [hText] at hDigits hMarks hRead
      have hFirst := hDigits c List.mem_cons_self
      have hSmall := lt_of_lt_of_le hFirst hSixteen
      rw [List.cons_append] at hMarks hRead ⊢
      unfold scanNumber
      rw [List.dropWhile_cons_of_neg
          (by simp [not_isSpace_of_digit hSmall]),
        readSign_of_digit _ hSmall]
      simp only [hMarks, ite_self, if_pos hFirst, hRead]

/- A mark in front of hexadecimal digits is passed over. -/
theorem scanNumber_mark
    {digits : Text}
    (hDigits : ∀ c ∈ digits, digitValue c < 16)
    (hSome : digits ≠ []) :
    scanNumber 16 ('0' :: 'x' :: digits) =
      scanNumber 16 digits := by
  have hMark : dropHexMark digits = digits := by
    match digits with
    | [] => rfl
    | [zero] => rfl
    | zero :: mark :: digits =>
        have hNot : ¬ (mark = 'x' ∨ mark = 'X') := by
          rintro (rfl | rfl)
          all_goals
            have hSecond := hDigits _
              (List.mem_cons_of_mem _ List.mem_cons_self)
            revert hSecond
            decide
        rw [dropHexMark, if_neg (fun h => hNot h.2)]
  cases digits with
  | nil => exact absurd rfl hSome
  | cons c digits =>
      have hFirst := hDigits c List.mem_cons_self
      have hRight : readSign ((c :: digits).dropWhile isSpace) =
          (false, c :: digits) := by
        rw [List.dropWhile_cons_of_neg
          (by simp [not_isSpace_of_digit hFirst])]
        exact readSign_of_digit _ hFirst
      have hLeft : readSign
          (('0' :: 'x' :: c :: digits).dropWhile isSpace) =
            (false, '0' :: 'x' :: c :: digits) := rfl
      unfold scanNumber
      rw [hLeft, hRight]
      simp only [hMark, if_true]
      rfl

/- The characters of a format that stand for themselves. -/
def scanLiteral : Text → Text → Option Text
| [], text => some text
| _ :: _, [] => none
| f :: format, c :: text =>
    if f = c then scanLiteral format text else none

@[simp] theorem scanLiteral_append
    (format text : Text) :
    scanLiteral format (format ++ text) = some text := by
  induction format with
  | nil => rfl
  | cons f format ih => simp [scanLiteral, ih]

end Mkrootfs
