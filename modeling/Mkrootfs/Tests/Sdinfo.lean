import Mathlib.Algebra.Group.Nat.Defs
import Mkrootfs.Library.Bytes

/-
  `sdinfo`: the vendor and the product of a disk, from the
  36 bytes that the disk answers to an inquiry.

  Main declarations:
    * `sdinfo`, `sdinfoMain`
    * `PrintsFields`
    * `sdinfoMain_answers`
    * `sdinfoMain_prints_iff`
-/

------------------------------------------------------------
-- The Program
------------------------------------------------------------

namespace Mkrootfs

/- What `open` and `ioctl` give for the device. -/
inductive SgDevice
| openFails (errno : Nat)
| ioctlFails (errno : Nat)
| answers (resp : Vector UInt8 36)

/- `rc`, and the buffer of the caller. -/
def sdinfo
    (buffer : Bytes)
    (len : Nat)
    (dev : SgDevice) : Option (Int × Bytes) :=
  match dev with
  | .openFails errno => some (-errno, buffer)
  | .ioctlFails errno => some (-errno, buffer)
  | .answers resp => do
      let len := if len > 29 then 29 else len
      -- `len - 1` of a `size_t`
      let count := (len + (2 ^ 64 - 1)) % 2 ^ 64
      let buffer ← buffer.memcpy 0 resp.toList 8 count
      let buffer ← buffer.store count [0]
      some (0, buffer)

/- How `main` ends: what `printf` is given, or nothing. -/
inductive SdinfoEnd
| failure
| prints (buffer : Bytes)
deriving DecidableEq

/- `main`; `stack` is the array before it is written. -/
def sdinfoMain
    (argc : Nat)
    (dev : SgDevice)
    (stack : Vector UInt8 26) : Option SdinfoEnd :=
  if argc ≠ 2 then
    some .failure
  else do
    let (rc, buffer) ← sdinfo stack.toList (26 - 1) dev
    if rc < 0 then
      some .failure
    else
      let buffer ← buffer.memmove 9 8 16
      let buffer ← buffer.store 8 [32]
      some (.prints buffer)

/- The fields of the answer. -/
def vendor (resp : Vector UInt8 36) : Bytes :=
  (resp.toList.drop 8).take 8

def product (resp : Vector UInt8 36) : Bytes :=
  (resp.toList.drop 16).take 16

/-
  The program ends with a string of its buffer that is the
  vendor, a blank and the product.
-/
def PrintsFields
    (resp : Vector UInt8 36)
    (stack : Vector UInt8 26) : Prop :=
  ∃ buffer,
    sdinfoMain 2 (.answers resp) stack =
      some (.prints buffer) ∧
    buffer.length = 26 ∧
    buffer.cString = some (vendor resp ++ 32 :: product resp)

------------------------------------------------------------
-- The Buffer
------------------------------------------------------------

/- The answer by its fields. -/
theorem response_fields
    (resp : Vector UInt8 36) :
    resp.toList =
      resp.toList.take 8 ++ (vendor resp ++ product resp) ++
        resp.toList.drop 32 := by
  have hVendor : resp.toList.drop 8 =
      vendor resp ++ resp.toList.drop 16 := by
    have hCut := List.take_append_drop 8
      (resp.toList.drop 8)
    rw [List.drop_drop] at hCut
    exact hCut.symm
  have hProduct : resp.toList.drop 16 =
      product resp ++ resp.toList.drop 32 := by
    have hCut := List.take_append_drop 16
      (resp.toList.drop 16)
    rw [List.drop_drop] at hCut
    exact hCut.symm
  rw [List.append_assoc, List.append_assoc, ← hProduct,
    ← hVendor, List.take_append_drop]

@[simp] theorem vendor_length (resp : Vector UInt8 36) :
    (vendor resp).length = 8 := by
  simp [vendor]

@[simp] theorem product_length (resp : Vector UInt8 36) :
    (product resp).length = 16 := by
  simp [product]

/- `sdinfo` fills all but the last byte of the array. -/
theorem sdinfo_answers
    (resp : Vector UInt8 36)
    {old : Bytes}
    (hOld : old.length = 25)
    (last : UInt8) :
    sdinfo (old ++ [last]) 25 (.answers resp) =
      some (0, vendor resp ++ product resp ++ [0, last]) := by
  have hCut : old = old.take 24 ++ old.drop 24 :=
    (List.take_append_drop 24 old).symm
  have hTake : (old.take 24).length =
      (vendor resp ++ product resp).length := by
    simp [hOld]
  have hDrop : (old.drop 24).length = [(0 : UInt8)].length := by
    simp [hOld]
  have hLoad : Bytes.load resp.toList 8 24 =
      some (vendor resp ++ product resp) := by
    have hFields := Bytes.load_append (resp.toList.take 8)
      (vendor resp ++ product resp) (resp.toList.drop 32)
    rw [← response_fields] at hFields
    simpa using hFields
  have hCopy : Bytes.store (old ++ [last]) 0
        (vendor resp ++ product resp) =
      some (vendor resp ++ product resp ++
        (old.drop 24 ++ [last])) := by
    have hStore := Bytes.store_append []
      (old.drop 24 ++ [last]) hTake
    rw [List.nil_append, List.append_assoc,
      ← List.append_assoc (old.take 24), ← hCut] at hStore
    simpa using hStore
  have hEnd : Bytes.store (vendor resp ++ product resp ++
        (old.drop 24 ++ [last])) 24 [0] =
      some (vendor resp ++ product resp ++ [0, last]) := by
    have hStore := Bytes.store_append
      (vendor resp ++ product resp) [last] hDrop
    simpa using hStore
  unfold sdinfo Bytes.memcpy
  simp only [Nat.reduceLT, if_false, gt_iff_lt,
    Nat.reduceAdd, Nat.reduceSub, Nat.reducePow,
    Nat.reduceMod, hLoad, Option.bind_eq_bind,
    Option.bind_some, hCopy, hEnd]

/- The shift reaches the byte that ends the string. -/
theorem memmove_product
    (resp : Vector UInt8 36)
    (last : UInt8) :
    Bytes.memmove
        (vendor resp ++ product resp ++ [0, last]) 9 8 16 =
      some (vendor resp ++ (product resp).take 1 ++
        product resp ++ [last]) := by
  have hLoad : Bytes.load
        (vendor resp ++ product resp ++ [0, last]) 8 16 =
      some (product resp) := by
    have hFields := Bytes.load_append (vendor resp)
      (product resp) [0, last]
    simpa using hFields
  have hOld : ((product resp).drop 1 ++ [0]).length =
      (product resp).length := by
    simp
  have hStore := Bytes.store_append
    (vendor resp ++ (product resp).take 1) [last] hOld
  have hSame : vendor resp ++ (product resp).take 1 ++
        ((product resp).drop 1 ++ [0]) ++ [last] =
      vendor resp ++
        ((product resp).take 1 ++ (product resp).drop 1) ++
          [0, last] := by
    simp only [List.append_assoc, List.cons_append,
      List.nil_append]
  rw [hSame, List.take_append_drop] at hStore
  unfold Bytes.memmove Bytes.memcpy
  rw [hLoad]
  simpa using hStore

/- The blank takes the place of a copied byte. -/
theorem store_blank
    (resp : Vector UInt8 36)
    (last : UInt8) :
    Bytes.store (vendor resp ++ (product resp).take 1 ++
        product resp ++ [last]) 8 [32] =
      some (vendor resp ++ 32 :: product resp ++
        [last]) := by
  have hOld : ((product resp).take 1).length =
      [(32 : UInt8)].length := by
    simp
  have hStore := Bytes.store_append (vendor resp)
    (product resp ++ [last]) hOld
  simpa using hStore

/-
  The string that `printf` is given runs on to the last byte
  of the array, which the program never writes.
-/
theorem sdinfoMain_answers
    (resp : Vector UInt8 36)
    (stack : Vector UInt8 26) :
    sdinfoMain 2 (.answers resp) stack =
      some (.prints
        (vendor resp ++ 32 :: product resp ++
          [stack[25]])) := by
  have hStack : stack.toList =
      stack.toList.take 25 ++ [stack[25]] := by
    have hCut := List.take_append_drop 25 stack.toList
    have hLast : stack.toList.drop 25 = [stack[25]] := by
      rw [List.drop_eq_getElem_cons (by simp)]
      simp
    rw [hLast] at hCut
    exact hCut.symm
  have hOld : (stack.toList.take 25).length = 25 := by
    simp
  have hSdinfo := sdinfo_answers resp hOld stack[25]
  rw [← hStack] at hSdinfo
  unfold sdinfoMain
  simp only [ne_eq, not_true_eq_false, if_false,
    Nat.reduceSub, hSdinfo, Option.bind_eq_bind,
    Option.bind_some, memmove_product, store_blank]
  rfl

/-
  The fields are printed exactly when the last byte of the
  array happened to be zero before.
-/
theorem sdinfoMain_prints_iff
    (resp : Vector UInt8 36)
    (stack : Vector UInt8 26)
    (hFields : ∀ i (hi : i < 36), 8 ≤ i → i < 32 →
      resp[i] ≠ 0) :
    PrintsFields resp stack ↔ stack[25] = 0 := by
  have hText : (0 : UInt8) ∉
      vendor resp ++ 32 :: product resp := by
    intro hZero
    have hField : (0 : UInt8) ∈
        vendor resp ++ product resp := by
      simpa using hZero
    have hRange : vendor resp ++ product resp =
        (resp.toList.drop 8).take 24 := by
      rw [vendor, product, ← List.drop_drop (i := 8) (j := 8)]
      exact List.take_add.symm
    rw [hRange] at hField
    rcases List.mem_iff_getElem.mp hField with ⟨i, hi, hByte⟩
    rw [List.length_take, List.length_drop,
      Vector.length_toList] at hi
    rw [List.getElem_take, List.getElem_drop,
      Vector.getElem_toList] at hByte
    exact hFields (8 + i) (by omega) (by omega) (by omega)
      hByte
  constructor
  · rintro ⟨buffer, hMain, -, hString⟩
    rw [sdinfoMain_answers] at hMain
    cases hMain
    rcases Bytes.cString_eq_some_iff.mp hString with
      ⟨-, rest, hEq⟩
    have hTail := List.append_cancel_left hEq
    exact (List.cons.inj hTail).1
  · intro hLast
    refine ⟨_, sdinfoMain_answers resp stack, by simp, ?_⟩
    rw [hLast]
    exact Bytes.cString_append_zero hText []

/- A disk whose fields are full, and an array of ones. -/
def fullResponse : Vector UInt8 36 :=
  Vector.replicate 36 65

def usedStack : Vector UInt8 26 :=
  Vector.replicate 26 1

theorem fullResponse_not_printed :
    (∀ i (hi : i < 36), 8 ≤ i → i < 32 →
      fullResponse[i] ≠ 0) ∧
      ¬ PrintsFields fullResponse usedStack := by
  have hFull : ∀ i (hi : i < 36), fullResponse[i] ≠ 0 := by
    intro i hi
    simp [fullResponse]
  refine ⟨fun i hi _ _ => hFull i hi, ?_⟩
  rintro ⟨buffer, hMain, -, hString⟩
  rw [sdinfoMain_answers] at hMain
  cases hMain
  have hNone : Bytes.cString
      (vendor fullResponse ++ 32 :: product fullResponse ++
        [usedStack[25]]) = none := by decide +kernel
  rw [hNone] at hString
  cases hString

/- On a cleared array the fields are printed. -/
theorem fullResponse_printed_on_zero :
    PrintsFields fullResponse (Vector.replicate 26 0) := by
  refine (sdinfoMain_prints_iff fullResponse
    (Vector.replicate 26 0) ?_).mpr rfl
  intro i hi _ _
  simp [fullResponse]

end Mkrootfs
