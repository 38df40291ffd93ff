import Mathlib.Data.List.Basic
import Mkrootfs.Library.Text

/-
  The file of `include/config` that stands for one symbol,
  as `conf_split_config` computes it in its `path` buffer
  and opens it.

  Main declarations:
    * `configPath`
    * `FileLocation`
    * `touchedFile`
-/

------------------------------------------------------------
-- Symbol Characters
------------------------------------------------------------

namespace Mkrootfs

/- The class `[0-9A-Z_]` of option names. -/
def isOptionChar (c : Char) : Bool :=
  c.isDigit || c.isUpper || c == '_'

/- `tolower`, with underscores replaced by slashes. -/
def configPathChar (c : Char) : Char :=
  if c.toLower = '_' then '/' else c.toLower

/- The path of a name below `include/config`, no suffix. -/
def configPathBody (name : Text) : Text :=
  name.map configPathChar

/- The size of the `path` buffer of `conf_split_config`. -/
def pathBufferSize : Nat := 128

/-
  The path `conf_split_config` builds from a symbol name.
  Names that overrun the buffer have no defined path.
-/
def configPath (name : Text) : Option Text :=
  let path := configPathBody name ++ ['.', 'h']
  if path.length < pathBufferSize then
    some path
  else
    none

------------------------------------------------------------
-- Opened Files
------------------------------------------------------------

/-
  A file named by a program: below the build directory, or
  by an absolute path anywhere in the file system.
-/
inductive FileLocation where
| build : Text → FileLocation
| absolute : Text → FileLocation
deriving DecidableEq, Repr

/- The file a path names for a process in directory `cwd`. -/
def openFrom (cwd path : Text) : FileLocation :=
  match path with
  | '/' :: _ => .absolute path
  | _ => .build (cwd ++ '/' :: path)

/- The directory `conf_split_config` changes into. -/
def configDirectory : Text :=
  ['i', 'n', 'c', 'l', 'u', 'd', 'e', '/',
    'c', 'o', 'n', 'f', 'i', 'g']

/- The file `conf_split_config` opens for a symbol. -/
def touchedFile (name : Text) : Option FileLocation :=
  (configPath name).map (openFrom configDirectory)

theorem configPath_eq_some_iff
    (name path : Text) :
    configPath name = some path ↔
      name.length ≤ 125 ∧
        path = configPathBody name ++ ['.', 'h'] := by
  unfold configPath
  simp only [configPathBody, pathBufferSize,
    List.length_append, List.length_map, List.length_cons,
    List.length_nil]
  constructor
  · intro hPath
    split at hPath
    · next hFits =>
        exact ⟨by omega, (Option.some.inj hPath).symm⟩
    · cases hPath
  · intro hPath
    rw [if_pos (by omega), hPath.2]

/-
  A decidable fact about the characters of option names is
  checked on the ASCII codes.
-/
theorem optionChar_induction
    {P : Char → Prop}
    (hCodes : ∀ n < 128,
      isOptionChar (Char.ofNat n) = true →
        P (Char.ofNat n))
    {c : Char}
    (hChar : isOptionChar c = true) :
    P c := by
  have hCode : c.toNat < 128 := by
    simp only [isOptionChar, Bool.or_eq_true, beq_iff_eq]
      at hChar
    rcases hChar with (hDigit | hUpper) | rfl
    · have hBound := ((Bool.and_eq_true _ _).mp hDigit).2
      exact Nat.lt_of_le_of_lt
        (of_decide_eq_true hBound) (by decide)
    · have hBounds : c.val ≥ 'A'.val ∧ c.val ≤ 'Z'.val :=
        of_decide_eq_true hUpper
      exact Nat.lt_of_le_of_lt hBounds.2 (by decide)
    · decide
  have hSelf := hCodes c.toNat hCode
  rw [Char.ofNat_toNat] at hSelf
  exact hSelf hChar

/- Only an underscore is turned into a slash. -/
theorem configPathChar_eq_slash_iff
    {c : Char}
    (hChar : isOptionChar c = true) :
    configPathChar c = '/' ↔ c = '_' :=
  optionChar_induction
    (P := fun c => configPathChar c = '/' ↔ c = '_')
    (by decide) hChar

/-
  The opened file is the one of that name below
  `include/config` exactly when the name fits the buffer and
  does not start with an underscore, which would make the
  path absolute.
-/
theorem touchedFile_eq_build_iff
    {name : Text}
    (hName : name ≠ [])
    (hChars : ∀ c ∈ name, isOptionChar c = true) :
    touchedFile name =
        some (.build (configDirectory ++
          '/' :: (configPathBody name ++ ['.', 'h']))) ↔
      name.length ≤ 125 ∧ name.head? ≠ some '_' := by
  cases name with
  | nil => exact absurd rfl hName
  | cons c rest =>
      have hSlash := configPathChar_eq_slash_iff
        (hChars c (by simp))
      unfold touchedFile
      rw [Option.map_eq_some_iff]
      constructor
      · rintro ⟨path, hPath, hOpen⟩
        rcases (configPath_eq_some_iff _ _).mp hPath with
          ⟨hLength, rfl⟩
        refine ⟨hLength, ?_⟩
        intro hHead
        have hUnderscore : c = '_' := by
          simpa using hHead
        simp [configPathBody, openFrom,
          hSlash.mpr hUnderscore] at hOpen
      · intro hFits
        have hHead : configPathChar c ≠ '/' := by
          intro h
          exact hFits.2 (by simp [hSlash.mp h])
        refine ⟨_, (configPath_eq_some_iff _ _).mpr
          ⟨hFits.1, rfl⟩, ?_⟩
        simp [configPathBody, openFrom, hHead]

end Mkrootfs
