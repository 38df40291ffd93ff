import Mathlib.Logic.Basic

/-
  What `rsync` does to one file of the receiver, by the
  options that decide whether the file is rewritten.

  Main declarations:
    * `FileCopy`
    * `checksumCopy`
    * `updateCopy`
-/

------------------------------------------------------------
-- Files
------------------------------------------------------------

namespace Mkrootfs

/-
  A file as `rsync` sees it: content, attributes such as
  permissions and ownership, and modification time.
-/
@[ext] structure FileCopy (C A : Type) where
  content : C
  attrs : A
  mtime : Nat
deriving DecidableEq, Repr

variable {C A : Type} [DecidableEq C]

------------------------------------------------------------
-- Copies
------------------------------------------------------------

/-
  `-c` without `-t`: files with equal contents only get the
  attributes of the source, others are written now.
-/
def checksumCopy
    (now : Nat)
    (content : C)
    (attrs : A)
    (receiver : Option (FileCopy C A)) : FileCopy C A :=
  match receiver with
  | none => ⟨content, attrs, now⟩
  | some old =>
      if old.content = content then
        { old with attrs := attrs }
      else
        ⟨content, attrs, now⟩

/-
  `-t -u` without `-c`: a newer file of the receiver is left
  alone, one of the same size and time only gets the
  attributes of the source, and any other one is replaced.
-/
def updateCopy
    (size : C → Nat)
    (source : FileCopy C A)
    (receiver : Option (FileCopy C A)) : FileCopy C A :=
  match receiver with
  | none => source
  | some old =>
      if source.mtime < old.mtime then
        old
      else if size old.content = size source.content ∧
          old.mtime = source.mtime then
        { old with attrs := source.attrs }
      else
        source

@[simp] theorem checksumCopy_content
    (now : Nat)
    (content : C)
    (attrs : A)
    (receiver : Option (FileCopy C A)) :
    (checksumCopy now content attrs receiver).content =
      content := by
  unfold checksumCopy
  split
  · rfl
  · split
    · next hSame => exact hSame
    · rfl

@[simp] theorem checksumCopy_attrs
    (now : Nat)
    (content : C)
    (attrs : A)
    (receiver : Option (FileCopy C A)) :
    (checksumCopy now content attrs receiver).attrs =
      attrs := by
  unfold checksumCopy
  split
  · rfl
  · split
    · rfl
    · rfl

omit [DecidableEq C] in
/- A receiver that is not newer and of another time. -/
theorem updateCopy_of_lt
    (size : C → Nat)
    {source old : FileCopy C A}
    (hOlder : old.mtime < source.mtime) :
    updateCopy size source (some old) = source := by
  have hNotNewer : ¬ source.mtime < old.mtime := by omega
  have hOther : ¬ old.mtime = source.mtime := by omega
  simp [updateCopy, hNotNewer, hOther]

omit [DecidableEq C] in
theorem updateCopy_of_newer
    (size : C → Nat)
    {source old : FileCopy C A}
    (hNewer : source.mtime < old.mtime) :
    updateCopy size source (some old) = old := by
  simp [updateCopy, hNewer]

omit [DecidableEq C] in
theorem updateCopy_of_same
    (size : C → Nat)
    {source old : FileCopy C A}
    (hContent : old.content = source.content)
    (hTime : old.mtime = source.mtime) :
    updateCopy size source (some old) = source := by
  cases source
  cases old
  simp_all [updateCopy]

end Mkrootfs
