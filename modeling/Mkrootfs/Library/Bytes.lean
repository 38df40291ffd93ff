import Mathlib.Data.List.TakeWhile

/-
  Objects of a C program as lists of bytes: reading and
  writing a range of an object, and the string that starts
  at its first byte.

  An access outside the object has no result.

  Main declarations:
    * `Bytes.load`, `Bytes.store`
    * `Bytes.memcpy`, `Bytes.memmove`
    * `Bytes.cString`
    * `Bytes.store_append`, `Bytes.cString_eq_some_iff`
-/

------------------------------------------------------------
-- Ranges Of An Object
------------------------------------------------------------

namespace Mkrootfs

abbrev Bytes := List UInt8

namespace Bytes

/- `count` bytes from `start` on. -/
def load
    (object : Bytes)
    (start count : Nat) : Option Bytes :=
  if start + count ≤ object.length then
    some ((object.drop start).take count)
  else
    none

/- The object with `bytes` written from `start` on. -/
def store
    (object : Bytes)
    (start : Nat)
    (bytes : Bytes) : Option Bytes :=
  if start + bytes.length ≤ object.length then
    some (object.take start ++ bytes ++
      object.drop (start + bytes.length))
  else
    none

def memcpy
    (target : Bytes)
    (start : Nat)
    (source : Bytes)
    (origin count : Nat) : Option Bytes := do
  target.store start (← source.load origin count)

/- Both ranges are of one object and may overlap. -/
def memmove
    (object : Bytes)
    (start origin count : Nat) : Option Bytes :=
  object.memcpy start object origin count

/- A range is known by what stands before and behind it. -/
theorem load_append
    (first bytes last : Bytes) :
    load (first ++ bytes ++ last) first.length
        bytes.length =
      some bytes := by
  unfold load
  have hFits : first.length + bytes.length ≤
      (first ++ bytes ++ last).length := by
    simp only [List.length_append]
    omega
  rw [if_pos hFits, List.append_assoc, List.drop_left,
    List.take_left]

theorem store_append
    (first last : Bytes)
    {old bytes : Bytes}
    (hLength : old.length = bytes.length) :
    store (first ++ old ++ last) first.length bytes =
      some (first ++ bytes ++ last) := by
  unfold store
  have hFits : first.length + bytes.length ≤
      (first ++ old ++ last).length := by
    simp only [List.length_append]
    omega
  have hDrop : (first ++ old ++ last).drop
      (first.length + bytes.length) = last := by
    rw [← hLength, ← List.length_append, List.drop_left]
  rw [if_pos hFits, hDrop, List.append_assoc first old,
    List.take_left]

------------------------------------------------------------
-- Strings
------------------------------------------------------------

/- The string at the start of an object, if a byte ends it. -/
def cString (object : Bytes) : Option Bytes :=
  if (0 : UInt8) ∈ object then
    some (object.takeWhile (· ≠ 0))
  else
    none

theorem cString_append_zero
    {text : Bytes}
    (hText : (0 : UInt8) ∉ text)
    (rest : Bytes) :
    cString (text ++ 0 :: rest) = some text := by
  have hAll : ∀ byte ∈ text, decide (byte ≠ 0) = true := by
    intro byte hByte
    rw [decide_eq_true_eq]
    rintro rfl
    exact hText hByte
  unfold cString
  rw [if_pos (by simp), List.takeWhile_append_of_pos hAll]
  simp

/- A string is what stands before the first zero. -/
theorem cString_eq_some_iff
    {object text : Bytes} :
    cString object = some text ↔
      (0 : UInt8) ∉ text ∧
        ∃ rest, object = text ++ 0 :: rest := by
  constructor
  · intro hString
    unfold cString at hString
    split at hString
    · next hZero =>
        have hText := Option.some.inj hString
        subst hText
        refine ⟨?_, ?_⟩
        · intro hMem
          simpa using List.mem_takeWhile_imp hMem
        · have hSplit := List.takeWhile_append_dropWhile
            (p := fun byte : UInt8 => decide (byte ≠ 0))
            (l := object)
          cases hRest : object.dropWhile
              (fun byte => decide (byte ≠ 0)) with
          | nil =>
              rw [List.dropWhile_eq_nil_iff] at hRest
              simpa using hRest 0 hZero
          | cons byte rest =>
              have hNot := List.head_dropWhile_not
                (fun byte : UInt8 => decide (byte ≠ 0))
                (l := object) (by rw [hRest]; simp)
              simp only [hRest, List.head_cons,
                decide_eq_false_iff_not, not_not] at hNot
              subst hNot
              rw [hRest] at hSplit
              exact ⟨rest, hSplit.symm⟩
    · cases hString
  · rintro ⟨hText, rest, rfl⟩
    exact cString_append_zero hText rest

end Bytes

end Mkrootfs
