import Mkrootfs.Build.Recipes
import Mkrootfs.Library.Comm
import Mkrootfs.Library.PathExpansion
import Mathlib.Data.Finset.Max
import Mathlib.Data.List.DropRight

/-
  `mksrcdir.sh`: the greatest match of a source name under
  the first directory of a search path that has one.

  Main declarations:
    * `Mksrcdir.Shell`
    * `Mksrcdir.mksrcdir`
    * `Mksrcdir.PrintsGreatest`
    * `Mksrcdir.mksrcdir_prints_iff`
-/

------------------------------------------------------------
-- The Script
------------------------------------------------------------

namespace Mkrootfs

namespace Mksrcdir

/- Characters that the shell leaves as they are. -/
def isPlainEntryChar (c : Char) : Bool :=
  c.isAlphanum ||
    ['/', '.', '_', '-', '+', ','].contains c

def PlainEntry (entry : Text) : Prop :=
  ∀ c ∈ entry, isPlainEntryChar c = true

theorem not_mem_of_plain
    {entry : Text}
    {c : Char}
    (hEntry : PlainEntry entry)
    (hSpecial : isPlainEntryChar c = false) :
    c ∉ entry := by
  intro hMem
  rw [hEntry c hMem] at hSpecial
  cases hSpecial

/-
  What the script runs: `eval basedir=…`, `ls -1d`, which
  prints the operands that exist, and `echo`, which may
  take an option or a backslash for something else.
-/
structure Shell extends PathExpansion where
  eval : Text → Text
  ls : List Text → Text
  echo : List Text → Text
  eval_of_plain :
    ∀ {entry}, PlainEntry entry → eval entry = entry
  ls_of_absolute :
    ∀ {words},
      words ≠ [] →
        (∀ word ∈ words, word.head? = some '/') →
          ls words =
            Text.unlines (sortLines (words.filter present))
  echo_of_absolute :
    ∀ {word words},
      word.head? = some '/' →
        (∀ other ∈ word :: words, backslash ∉ other) →
          echo (word :: words) =
            joinBlank (word :: words) ++ ['\n']

/- What the script prints, and its exit status. -/
structure Output where
  text : Text
  status : Nat
deriving DecidableEq

variable (sh : Shell)

/- `{ ls -1d … | sort -r | head -n 1; } 2> /dev/null`. -/
def listGreatest (words : List Text) : Text :=
  match (sortLinesReverse
      (Text.lines (sh.ls words))).head? with
  | none => []
  | some line => line ++ ['\n']

/- Backquotes drop the newlines at the end. -/
def backquote (text : Text) : Text :=
  text.rdropWhile (· = '\n')

/- `"$basedir"/$srcdir` with `IFS=:`. -/
def sourceWords (basedir srcdir : Text) : List Text :=
  match Text.fields ':' srcdir with
  | [] => sh.expandWord (basedir ++ ['/']) []
  | field :: fields =>
      sh.expandWord (basedir ++ ['/']) field ++
        fields.flatMap (sh.expandWord [])

/- A relative directory is one of the source tree. -/
def absolute (srctree basedir : Text) : Text :=
  if basedir.head? = some '/' then
    basedir
  else
    srctree ++ '/' :: basedir

/- `for basedir in $basedirs`. -/
def searchBasedirs
    (srctree srcdir : Text) :
    List Text →
    Output
| [] => ⟨[], 1⟩
| word :: words =>
    let basedir := absolute srctree (sh.eval word)
    let result :=
      backquote (listGreatest sh
        (sourceWords sh basedir srcdir))
    if result = [] then
      searchBasedirs srctree srcdir words
    else
      ⟨sh.echo ((Text.fields ':' result).flatMap
        (sh.expandWord [])), 0⟩

/- `mksrcdir.sh srctree basedirs srcdir`. -/
def mksrcdir (srctree basedirs srcdir : Text) : Output :=
  if srcdir.head? = some '~' ∨ srcdir.head? = some '/' then
    ⟨listGreatest sh ((shellWords srcdir).flatMap
      (sh.expandWord [])), 0⟩
  else
    searchBasedirs sh srctree srcdir
      ((Text.fields ':' basedirs).flatMap
        (sh.expandWord []))

------------------------------------------------------------
-- One Directory
------------------------------------------------------------

/- A name pattern with `*` and `?` under a directory. -/
structure SourceName (srcdir : Text) : Prop where
  noSlash : srcdir.head? ≠ some '/'
  noTilde : srcdir.head? ≠ some '~'
  noColon : ':' ∉ srcdir
  noBracket : '[' ∉ srcdir
  noBackslash : backslash ∉ srcdir

/- The matches of a name under a directory. -/
def sources (dir srcdir : Text) : List Text :=
  sh.paths (dir ++ ['/']) srcdir

theorem sourceWords_eq
    (dir : Text)
    {srcdir : Text}
    (hColon : ':' ∉ srcdir) :
    sourceWords sh dir srcdir =
      sh.expandWord (dir ++ ['/']) srcdir := by
  unfold sourceWords
  by_cases hEmpty : srcdir = []
  · subst srcdir
    rfl
  · rw [Text.fields_of_not_mem srcdir hColon hEmpty]
    simp

theorem head?_of_isPrefix
    {c : Char}
    {start word : Text}
    (hStart : start.head? = some c)
    (hPrefix : start <+: word) :
    word.head? = some c := by
  obtain ⟨rest, rfl⟩ := hPrefix
  rw [List.head?_append, hStart]
  rfl

/- `ls` finds the matches, and nothing else. -/
theorem ls_sourceWords
    {dir srcdir : Text}
    (hDir : dir.head? = some '/')
    (hName : SourceName srcdir) :
    sh.ls (sourceWords sh dir srcdir) =
      Text.unlines (sortLines (sources sh dir srcdir)) := by
  rw [sourceWords_eq sh dir hName.noColon,
    sh.ls_of_absolute (sh.expandWord_ne_nil _ _)]
  · rw [sh.filter_expandWord _ hName.noBracket
      hName.noBackslash]
    rfl
  · intro word hWord
    exact head?_of_isPrefix hDir
      (List.IsPrefix.trans (List.prefix_append dir ['/'])
        (sh.isPrefix_of_mem_expandWord hWord))

/- What a directory without a match gives. -/
theorem result_of_no_source
    {dir srcdir : Text}
    (hDir : dir.head? = some '/')
    (hName : SourceName srcdir)
    (hNone : sources sh dir srcdir = []) :
    backquote (listGreatest sh
      (sourceWords sh dir srcdir)) = [] := by
  unfold listGreatest
  rw [ls_sourceWords sh hDir hName, hNone]
  rfl

theorem backquote_line
    {line : Text}
    (hLine : '\n' ∉ line) :
    backquote (line ++ ['\n']) = line := by
  unfold backquote
  rw [List.rdropWhile_concat_pos _ _ _ (by simp)]
  rcases List.eq_nil_or_concat line with
    rfl | ⟨front, c, rfl⟩
  · rfl
  · rw [List.concat_eq_append] at hLine ⊢
    rw [List.rdropWhile_concat_neg]
    rw [decide_eq_true_eq]
    rintro rfl
    exact hLine (by simp)

/- What a directory with matches gives. -/
theorem result_of_greatest
    {dir srcdir best : Text}
    (hDir : dir.head? = some '/')
    (hName : SourceName srcdir)
    (hBest :
      IsGreatest {path | path ∈ sources sh dir srcdir} best)
    (hLines :
      ∀ path ∈ sources sh dir srcdir, '\n' ∉ path) :
    backquote (listGreatest sh
      (sourceWords sh dir srcdir)) = best := by
  have hSorted :
      ∀ path,
        path ∈ sortLines (sources sh dir srcdir) ↔
          path ∈ sources sh dir srcdir :=
    fun path => List.mem_insertionSort _
  have hTop :
      IsGreatest
        {path |
          path ∈ sortLines (sources sh dir srcdir)}
        best := by
    simpa only [hSorted] using hBest
  unfold listGreatest
  rw [ls_sourceWords sh hDir hName,
    Text.lines_unlines (fun path hPath =>
      hLines path ((hSorted path).mp hPath)),
    head?_sortLinesReverse hTop]
  exact backquote_line (hLines best hBest.1)

------------------------------------------------------------
-- The Search Path
------------------------------------------------------------

/-
  An entry of the search path and the directory that the
  shell reads it as.
-/
structure Names (srctree entry dir : Text) : Prop where
  noColon : ':' ∉ entry
  nonempty : entry ≠ []
  alone : sh.expandWord [] entry = [entry]
  reads : absolute srctree (sh.eval entry) = dir
  isAbsolute : dir.head? = some '/'

/- A plain entry is read as the directory that it spells. -/
theorem names_of_plain
    {srctree entry : Text}
    (hTree : srctree.head? = some '/')
    (hEntry : PlainEntry entry)
    (hNonempty : entry ≠ []) :
    Names sh srctree entry (absolute srctree entry) where
  noColon := not_mem_of_plain hEntry (by decide)
  nonempty := hNonempty
  alone := by
    have hLiteral : Literal entry :=
      literal_of_not_mem
        (not_mem_of_plain hEntry (by decide))
        (not_mem_of_plain hEntry (by decide))
        (not_mem_of_plain hEntry (by decide))
        (not_mem_of_plain hEntry (by decide))
    simpa using sh.expandWord_of_literal [] hLiteral
  reads := by rw [sh.eval_of_plain hEntry]
  isAbsolute := by
    unfold absolute
    split
    · assumption
    · rw [List.head?_append, hTree]
      rfl

/- The first directory with a match. -/
def firstDir (dirs : List Text) (srcdir : Text) :
    Option Text :=
  dirs.find? (fun dir => sources sh dir srcdir ≠ [])

/- The greatest match under the first directory with one. -/
def IsSource
    (dirs : List Text)
    (srcdir best : Text) : Prop :=
  ∃ dir,
    firstDir sh dirs srcdir = some dir ∧
      IsGreatest {path | path ∈ sources sh dir srcdir} best

theorem exists_isSource
    {dirs : List Text}
    {srcdir dir : Text}
    (hDir : dir ∈ dirs)
    (hSome : sources sh dir srcdir ≠ []) :
    ∃ best, IsSource sh dirs srcdir best := by
  cases hFirst : firstDir sh dirs srcdir with
  | none =>
      have hNone := List.find?_eq_none.mp hFirst dir hDir
      exact absurd hSome (by simpa using hNone)
  | some first =>
      have hFound := List.find?_some hFirst
      have hNonempty :
          (sources sh first srcdir).toFinset.Nonempty := by
        rw [List.toFinset_nonempty_iff]
        simpa using hFound
      have hGreatest := Finset.isGreatest_max'
        (sources sh first srcdir).toFinset hNonempty
      simp only [List.coe_toFinset] at hGreatest
      exact ⟨_, first, hFirst, hGreatest⟩

/- The `for` loop goes over the entries. -/
theorem words_of_names
    {srctree : Text}
    {entries dirs : List Text}
    (hNames : List.Forall₂ (Names sh srctree) entries dirs) :
    (Text.fields ':' ([':'].intercalate entries)).flatMap
        (sh.expandWord []) =
      entries := by
  have hEntries :
      ∀ entry ∈ entries, ∃ dir, Names sh srctree entry dir := by
    induction hNames with
    | nil => simp
    | @cons entry dir entries dirs hEntry _ ih =>
        intro other hOther
        rcases List.mem_cons.mp hOther with rfl | hRest
        · exact ⟨dir, hEntry⟩
        · exact ih other hRest
  rw [Text.fields_intercalate]
  · rw [List.flatMap_congr (g := fun entry => [entry])]
    · simp
    · intro entry hMem
      obtain ⟨dir, hEntry⟩ := hEntries entry hMem
      exact hEntry.alone
  · intro entry hMem
    obtain ⟨dir, hEntry⟩ := hEntries entry hMem
    exact ⟨hEntry.noColon, hEntry.nonempty⟩

theorem searchBasedirs_of_no_source
    {srctree srcdir : Text}
    {entries dirs : List Text}
    (hNames : List.Forall₂ (Names sh srctree) entries dirs)
    (hName : SourceName srcdir)
    (hNone : ∀ dir ∈ dirs, sources sh dir srcdir = []) :
    searchBasedirs sh srctree srcdir entries = ⟨[], 1⟩ := by
  induction hNames with
  | nil => rfl
  | @cons entry dir entries dirs hEntry hNames ih =>
      have hResult := result_of_no_source sh
        hEntry.isAbsolute hName
        (hNone dir List.mem_cons_self)
      have hRest := ih (fun other hMem =>
        hNone other (List.mem_cons_of_mem dir hMem))
      simp only [searchBasedirs, hEntry.reads, hResult,
        if_true, hRest]

theorem searchBasedirs_of_source
    {srctree srcdir best : Text}
    {entries dirs : List Text}
    (hNames : List.Forall₂ (Names sh srctree) entries dirs)
    (hName : SourceName srcdir)
    (hBest : IsSource sh dirs srcdir best)
    (hLines :
      ∀ dir,
        firstDir sh dirs srcdir = some dir →
          ∀ path ∈ sources sh dir srcdir, '\n' ∉ path) :
    searchBasedirs sh srctree srcdir entries =
      ⟨sh.echo ((Text.fields ':' best).flatMap
        (sh.expandWord [])), 0⟩ := by
  induction hNames with
  | nil =>
      obtain ⟨dir, hDir, _⟩ := hBest
      exact absurd hDir (by simp [firstDir])
  | @cons entry dir entries dirs hEntry hNames ih =>
      by_cases hNone : sources sh dir srcdir = []
      · have hResult := result_of_no_source sh
          hEntry.isAbsolute hName hNone
        have hFirst :
            firstDir sh (dir :: dirs) srcdir =
              firstDir sh dirs srcdir := by
          simp [firstDir, hNone]
        unfold IsSource at hBest
        rw [hFirst] at hBest hLines
        simp only [searchBasedirs, hEntry.reads, hResult,
          if_true, ih hBest hLines]
      · have hFirst :
            firstDir sh (dir :: dirs) srcdir =
              some dir := by
          simp [firstDir, hNone]
        obtain ⟨found, hFound, hGreatest⟩ := hBest
        obtain rfl : dir = found :=
          Option.some.inj (hFirst.symm.trans hFound)
        have hResult := result_of_greatest sh
          hEntry.isAbsolute hName hGreatest
          (hLines dir hFirst)
        have hNonempty : best ≠ [] := by
          rintro rfl
          have hPrefix := sh.quoted_isPrefix hGreatest.1
          simp at hPrefix
        simp only [searchBasedirs, hEntry.reads, hResult,
          if_neg hNonempty]

theorem isAbsolute_of_names
    {srctree : Text}
    {entries dirs : List Text}
    (hNames : List.Forall₂ (Names sh srctree) entries dirs) :
    ∀ dir ∈ dirs, dir.head? = some '/' := by
  induction hNames with
  | nil => simp
  | @cons entry dir entries dirs hEntry _ ih =>
      intro other hOther
      rcases List.mem_cons.mp hOther with rfl | hRest
      · exact hEntry.isAbsolute
      · exact ih other hRest

/- The chosen path is one of an absolute directory. -/
theorem head?_of_isSource
    {srctree srcdir best : Text}
    {entries dirs : List Text}
    (hNames : List.Forall₂ (Names sh srctree) entries dirs)
    (hBest : IsSource sh dirs srcdir best) :
    best.head? = some '/' := by
  obtain ⟨dir, hDir, hGreatest⟩ := hBest
  have hPrefix := sh.quoted_isPrefix hGreatest.1
  exact head?_of_isPrefix
    (isAbsolute_of_names sh hNames dir
      (List.mem_of_find?_eq_some hDir))
    (List.IsPrefix.trans (List.prefix_append dir ['/'])
      hPrefix)

theorem present_of_isSource
    {dirs : List Text}
    {srcdir best : Text}
    (hBest : IsSource sh dirs srcdir best) :
    sh.present best = true := by
  obtain ⟨dir, _, hGreatest⟩ := hBest
  exact sh.present_of_mem hGreatest.1

------------------------------------------------------------
-- The Printed Path
------------------------------------------------------------

/-
  A path whose printed words can be told: `echo` changes
  none of them, it is a pattern for itself, and is not both
  a list of fields and a pattern.
-/
structure Printable (best : Text) : Prop where
  noBackslash : backslash ∉ best
  noBracket : '[' ∉ best
  noStar : ':' ∈ best → '*' ∉ best ∧ '?' ∉ best
  paths : ∀ path ∈ sh.paths [] best, backslash ∉ path

theorem literal_of_printable
    {best : Text}
    (hPrintable : Printable sh best)
    (hColon : ':' ∈ best) :
    Literal best := by
  obtain ⟨hStar, hMark⟩ := hPrintable.noStar hColon
  exact literal_of_not_mem hStar hMark
    hPrintable.noBracket hPrintable.noBackslash

/- The words of a literal path are its fields. -/
theorem echo_of_colon
    {best : Text}
    (hHead : best.head? = some '/')
    (hPrintable : Printable sh best)
    (hColon : ':' ∈ best) :
    sh.echo ((Text.fields ':' best).flatMap
      (sh.expandWord [])) ≠ best ++ ['\n'] := by
  have hLiteral := literal_of_printable sh hPrintable hColon
  have hWords :
      (Text.fields ':' best).flatMap (sh.expandWord []) =
        Text.fields ':' best := by
    have hAlone :
        ∀ field ∈ Text.fields ':' best,
          sh.expandWord [] field = [field] := by
      intro field hField
      have hChars := (Text.mem_of_mem_fields hField).2
      simpa using sh.expandWord_of_literal []
        (fun c hMem => hLiteral c (hChars hMem))
    rw [List.flatMap_congr hAlone]
    simp
  obtain ⟨rest, rfl⟩ := List.head?_eq_some_iff.mp hHead
  obtain ⟨field, others, hFields⟩ :=
    Text.fields_cons_of_ne rest
      (show '/' ≠ ':' by decide)
  have hPlain :
      ∀ other ∈ ('/' :: field) :: others,
        backslash ∉ other ∧ ':' ∉ other := by
    intro other hOther
    rw [← hFields] at hOther
    obtain ⟨hNo, hChars⟩ := Text.mem_of_mem_fields hOther
    exact ⟨fun hMem =>
      hPrintable.noBackslash (hChars hMem), hNo⟩
  rw [hWords, hFields, sh.echo_of_absolute rfl
    (fun other hOther => (hPlain other hOther).1)]
  intro hEq
  have hBest := List.append_cancel_right hEq
  rw [← hBest] at hColon
  exact not_mem_joinBlank (by decide)
    (fun other hOther => (hPlain other hOther).2) hColon

/- The words of a path without a colon are its matches. -/
theorem echo_of_no_colon
    {best : Text}
    (hHead : best.head? = some '/')
    (hPresent : sh.present best = true)
    (hPrintable : Printable sh best)
    (hColon : ':' ∉ best) :
    sh.echo ((Text.fields ':' best).flatMap
      (sh.expandWord [])) = best ++ ['\n'] ↔
      ∀ path ∈ sh.paths [] best, path = best := by
  obtain ⟨rest, rfl⟩ := List.head?_eq_some_iff.mp hHead
  have hSelf :
      [] ++ '/' :: rest ∈ sh.paths [] ('/' :: rest) :=
    sh.mem_paths_self hPrintable.noBracket
      hPrintable.noBackslash hPresent
  rw [List.nil_append] at hSelf
  have hWords :
      sh.expandWord [] ('/' :: rest) =
        sh.paths [] ('/' :: rest) := by
    unfold PathExpansion.expandWord
    rw [if_neg (List.ne_nil_of_mem hSelf)]
  rw [Text.fields_of_not_mem _ hColon
    (List.cons_ne_nil _ _), List.flatMap_singleton, hWords]
  cases hPaths : sh.paths [] ('/' :: rest) with
  | nil =>
      rw [hPaths] at hSelf
      exact absurd hSelf List.not_mem_nil
  | cons word words =>
      have hWord : word.head? = some '/' := by
        have hMem : word ∈ sh.paths ['/'] rest := by
          have hQuote := sh.paths_cons [] rest
            (c := '/') (by decide)
          rw [List.nil_append] at hQuote
          rw [← hQuote, hPaths]
          exact List.mem_cons_self
        have hPrefix := sh.quoted_isPrefix hMem
        exact head?_of_isPrefix rfl hPrefix
      have hBackslash := hPrintable.paths
      rw [hPaths] at hBackslash hSelf
      rw [sh.echo_of_absolute hWord hBackslash,
        List.append_left_inj]
      constructor
      · intro hJoined path hPath
        rw [eq_singleton_of_joinBlank hSelf hJoined]
          at hPath
        exact List.mem_singleton.mp hPath
      · intro hAlone
        rw [← hPaths] at hAlone
        have hOne := sh.expandWord_eq_self hAlone
        rw [hWords, hPaths] at hOne
        rw [hOne]
        simp [joinBlank]

------------------------------------------------------------
-- The Search
------------------------------------------------------------

/- What the script should print. -/
structure PrintsGreatest
    (dirs : List Text)
    (srcdir text : Text) : Prop where
  greatest :
    ∀ best,
      IsSource sh dirs srcdir best → text = best ++ ['\n']
  nothing :
    text = [] ↔ ∀ dir ∈ dirs, sources sh dir srcdir = []

/-
  The path is printed as it is when `echo` is given one word
  that is the path again: without a colon, where `IFS=:`
  splits, and without another path that it matches as a
  pattern.
-/
theorem mksrcdir_prints_iff
    {srctree srcdir : Text}
    {entries dirs : List Text}
    (hNames : List.Forall₂ (Names sh srctree) entries dirs)
    (hName : SourceName srcdir)
    (hLines :
      ∀ dir,
        firstDir sh dirs srcdir = some dir →
          ∀ path ∈ sources sh dir srcdir, '\n' ∉ path)
    (hPrintable :
      ∀ best,
        IsSource sh dirs srcdir best → Printable sh best) :
    PrintsGreatest sh dirs srcdir
        (mksrcdir sh srctree ([':'].intercalate entries)
          srcdir).text ↔
      ∀ best,
        IsSource sh dirs srcdir best →
          ':' ∉ best ∧
            ∀ path ∈ sh.paths [] best, path = best := by
  have hSearch :
      mksrcdir sh srctree ([':'].intercalate entries) srcdir =
        searchBasedirs sh srctree srcdir entries := by
    unfold mksrcdir
    rw [if_neg (by
      rintro (hTilde | hSlash)
      · exact hName.noTilde hTilde
      · exact hName.noSlash hSlash),
      words_of_names sh hNames]
  have hText :
      ∀ {best},
        IsSource sh dirs srcdir best →
          ((mksrcdir sh srctree ([':'].intercalate entries)
              srcdir).text = best ++ ['\n'] ↔
            ':' ∉ best ∧
              ∀ path ∈ sh.paths [] best, path = best) := by
    intro best hBest
    have hPrint := hPrintable best hBest
    have hHead := head?_of_isSource sh hNames hBest
    have hPresent := present_of_isSource sh hBest
    rw [hSearch, searchBasedirs_of_source sh hNames hName
      hBest hLines]
    by_cases hColon : ':' ∈ best
    · simp [hColon,
        echo_of_colon sh hHead hPrint hColon]
    · simpa [hColon] using
        echo_of_no_colon sh hHead hPresent hPrint hColon
  constructor
  · intro hPrints best hBest
    exact (hText hBest).mp (hPrints.greatest best hBest)
  · intro hSpared
    have hGreatest := fun best hBest =>
      (hText hBest).mpr (hSpared best hBest)
    refine ⟨hGreatest, ?_, ?_⟩
    · intro hEmpty dir hDir
      by_contra hSome
      obtain ⟨best, hBest⟩ := exists_isSource sh hDir hSome
      have hLine := hGreatest best hBest
      rw [hEmpty] at hLine
      simp at hLine
    · intro hNone
      rw [hSearch, searchBasedirs_of_no_source sh hNames
        hName hNone]

/- A shell over given files, where plain text is plain. -/
def shellOf
    (files : List Text)
    (hFiles : files.Nodup) :
    Shell where
  toPathExpansion := PathExpansion.ofFiles files hFiles
  eval := id
  ls words :=
    Text.unlines (sortLines (words.filter
      (PathExpansion.ofFiles files hFiles).present))
  echo words := joinBlank words ++ ['\n']
  eval_of_plain _ := rfl
  ls_of_absolute _ _ := rfl
  echo_of_absolute _ _ := rfl

/- Two directories with kernel sources. -/
def kernelFiles : List Text :=
  ["/src".toList, "/src/linux-5.4".toList,
    "/src/linux-6.1".toList, "/tree/alt".toList,
    "/tree/alt/linux-7.0".toList]

def kernelShell : Shell :=
  shellOf kernelFiles (by decide)

/- The later directory has the greater name. -/
theorem mksrcdir_prints_linux :
    PrintsGreatest kernelShell
        ["/src".toList, "/tree/alt".toList]
        "linux-*".toList
        (mksrcdir kernelShell "/tree".toList
          ([':'].intercalate
            ["/src".toList, "alt".toList])
          "linux-*".toList).text ↔
      ∀ best,
        IsSource kernelShell
            ["/src".toList, "/tree/alt".toList]
            "linux-*".toList best →
          ':' ∉ best ∧
            ∀ path ∈ kernelShell.paths [] best,
              path = best := by
  have hFirst :
      firstDir kernelShell
          ["/src".toList, "/tree/alt".toList]
          "linux-*".toList =
        some "/src".toList := by
    decide +kernel
  have hNames :
      List.Forall₂ (Names kernelShell "/tree".toList)
        ["/src".toList, "alt".toList]
        ["/src".toList, "/tree/alt".toList] := by
    refine .cons ?_ (.cons ?_ .nil)
    · exact names_of_plain kernelShell rfl
        (List.all_eq_true.mp (by decide)) (by decide)
    · exact names_of_plain kernelShell rfl
        (List.all_eq_true.mp (by decide)) (by decide)
  have hPaths :
      sources kernelShell "/src".toList
          "linux-*".toList =
        ["/src/linux-5.4".toList,
          "/src/linux-6.1".toList] := by
    decide +kernel
  refine mksrcdir_prints_iff kernelShell hNames
    ⟨by decide, by decide, by decide, by decide,
      by decide⟩ ?_ ?_
  · intro dir hDir
    obtain rfl := Option.some.inj (hFirst.symm.trans hDir)
    rw [hPaths]
    decide
  · rintro best ⟨dir, hDir, hBest⟩
    obtain rfl := Option.some.inj (hFirst.symm.trans hDir)
    have hMem := hBest.1
    rw [hPaths] at hMem
    rcases List.mem_pair.mp hMem with rfl | rfl
    · exact ⟨by decide, by decide, by decide,
        by decide +kernel⟩
    · exact ⟨by decide, by decide, by decide,
        by decide +kernel⟩

/- A directory with sources of a real-time kernel. -/
def realtimeShell : Shell :=
  shellOf ["/src".toList, "/src/linux-3:rt".toList]
    (by decide)

/- A colon of a name is printed as a blank. -/
theorem mksrcdir_splits_colon :
    ¬ PrintsGreatest
      realtimeShell ["/src".toList] "linux-*".toList
      (mksrcdir realtimeShell "/tree".toList
        "/src".toList "linux-*".toList).text := by
  intro hPrints
  have hText :
      (mksrcdir realtimeShell "/tree".toList
        "/src".toList "linux-*".toList).text =
        "/src/linux-3 rt\n".toList := by
    decide +kernel
  have hBest :=
    hPrints.greatest "/src/linux-3:rt".toList
      ⟨"/src".toList, by decide +kernel, by
        have hPaths :
            sources realtimeShell "/src".toList
                "linux-*".toList =
              ["/src/linux-3:rt".toList] := by
          decide +kernel
        rw [hPaths]
        simp⟩
  rw [hText] at hBest
  revert hBest
  decide

end Mksrcdir

end Mkrootfs
