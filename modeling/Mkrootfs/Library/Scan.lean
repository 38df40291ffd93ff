import Mathlib.Data.List.Basic
import Mathlib.Data.List.Infix
import Mathlib.Data.List.TakeWhile

/-
  Leftmost-longest scanning for tokens made of a fixed
  literal `first :: more` and a run of class symbols.

  `Scanner.tokens` is the scan that goes on right after each
  token.  The lemmas say when a scanner may also skip the
  symbol that ended a token, and when a text may be cut into
  separated pieces first.

  Main declarations:
    * `Scanner.tokens`
    * `Scanner.tokens_literal`
    * `Scanner.tokens_drop_one`
    * `Scanner.tokens_append_separator`
-/

------------------------------------------------------------
-- Scanners
------------------------------------------------------------

namespace Mkrootfs

/-
  A token is the literal `first :: more` followed by the
  longest run of symbols in `cls`.
-/
structure Scanner (α : Type) where
  first : α
  more : List α
  cls : α → Bool

namespace Scanner

variable {α : Type} [DecidableEq α]
variable (scanner : Scanner α)

/- The fixed part of a token. -/
def literal : List α :=
  scanner.first :: scanner.more

/- The run and the rest of a token that starts here. -/
def tokenHere (text : List α) : Option (List α × List α) :=
  if scanner.literal <+: text then
    let body := text.drop scanner.literal.length
    some (body.takeWhile scanner.cls,
      body.dropWhile scanner.cls)
  else
    none

/- A token uses up at least its first symbol. -/
theorem length_lt_of_tokenHere
    {text run rest : List α}
    (hToken :
      scanner.tokenHere text = some (run, rest)) :
    rest.length < text.length := by
  unfold tokenHere at hToken
  split at hToken
  · next hPrefix =>
      rcases hPrefix with ⟨body, rfl⟩
      simp only [List.drop_left, Option.some.injEq,
        Prod.mk.injEq] at hToken
      have hRest : rest.length ≤ body.length := by
        rw [← hToken.2]
        exact (List.dropWhile_sublist _).length_le
      simp only [literal, List.length_append,
        List.length_cons]
      omega
  · cases hToken

/-
  The runs of all tokens, scanned from left to right; after
  a token the scan goes on with what follows it.
-/
def tokens : List α → List (List α)
| [] => []
| c :: cs =>
    match hToken : scanner.tokenHere (c :: cs) with
    | some (run, rest) =>
        have := scanner.length_lt_of_tokenHere hToken
        run :: tokens rest
    | none => tokens cs
termination_by text => text.length
decreasing_by
  · exact this
  · exact Nat.lt_succ_self cs.length

@[simp] theorem tokens_nil : scanner.tokens [] = [] := by
  simp [tokens]

theorem tokens_of_tokenHere
    {text run rest : List α}
    (hToken :
      scanner.tokenHere text = some (run, rest)) :
    scanner.tokens text = run :: scanner.tokens rest := by
  cases text with
  | nil => simp [tokenHere, literal] at hToken
  | cons c cs =>
      rw [tokens]
      split
      · next hOther =>
          rw [hToken] at hOther
          simp only [Option.some.injEq,
            Prod.mk.injEq] at hOther
          rw [hOther.1, hOther.2]
      · next hOther =>
          rw [hToken] at hOther
          cases hOther

theorem tokens_of_tokenHere_none
    {c : α}
    {cs : List α}
    (hToken : scanner.tokenHere (c :: cs) = none) :
    scanner.tokens (c :: cs) = scanner.tokens cs := by
  rw [tokens]
  split
  · next hOther =>
      rw [hToken] at hOther
      cases hOther
  · rfl

/- A token after its literal takes the longest run. -/
theorem tokens_literal
    (body : List α) :
    scanner.tokens (scanner.literal ++ body) =
      body.takeWhile scanner.cls ::
        scanner.tokens (body.dropWhile scanner.cls) := by
  apply scanner.tokens_of_tokenHere
  simp [tokenHere]

/- No token starts with another symbol than `first`. -/
theorem tokens_cons_of_ne
    {c : α}
    (cs : List α)
    (hFirst : c ≠ scanner.first) :
    scanner.tokens (c :: cs) = scanner.tokens cs := by
  apply scanner.tokens_of_tokenHere_none
  unfold tokenHere
  rw [if_neg]
  intro hPrefix
  rcases hPrefix with ⟨body, hBody⟩
  simp only [literal, List.cons_append,
    List.cons.injEq] at hBody
  exact hFirst hBody.1.symm

/-
  When tokens start with a class symbol, the symbol that
  ended a run may be skipped: it starts no token.
-/
theorem tokens_drop_one
    (body : List α)
    (hFirst : scanner.cls scanner.first = true) :
    scanner.tokens
        ((body.dropWhile scanner.cls).drop 1) =
      scanner.tokens (body.dropWhile scanner.cls) := by
  cases hRest : body.dropWhile scanner.cls with
  | nil => simp
  | cons c cs =>
      have hStop : scanner.cls c = false := by
        have hHead := List.head?_dropWhile_not
          scanner.cls body
        rw [hRest] at hHead
        simpa using hHead
      have hNe : c ≠ scanner.first := by
        intro h
        rw [h, hFirst] at hStop
        cases hStop
      simp [scanner.tokens_cons_of_ne cs hNe]

------------------------------------------------------------
-- Separated Texts
------------------------------------------------------------

variable {scanner}

omit [DecidableEq α] in
/- A run ends at the latest at a symbol outside the class. -/
theorem takeWhile_append_stop
    {cls : α → Bool}
    {sep : α}
    (hClass : cls sep = false)
    (left right : List α) :
    (left ++ sep :: right).takeWhile cls =
      left.takeWhile cls := by
  rw [List.takeWhile_append]
  split
  · next hAll =>
      have hSelf :=
        (List.takeWhile_prefix cls).eq_of_length hAll
      simp [hClass, hSelf]
  · rfl

omit [DecidableEq α] in
/- What follows a run keeps a symbol outside the class. -/
theorem dropWhile_append_stop
    {cls : α → Bool}
    {sep : α}
    (hClass : cls sep = false)
    (left right : List α) :
    (left ++ sep :: right).dropWhile cls =
      left.dropWhile cls ++ sep :: right := by
  rw [List.dropWhile_append]
  split
  · next hEmpty =>
      have hNil : left.dropWhile cls = [] := by
        simpa using hEmpty
      simp [hNil, hClass]
  · rfl

omit [DecidableEq α] in
/-
  A token that a separator keeps from starting in the left
  piece does not start in the whole text either.
-/
theorem tokenHere_append_separator
    {sep c : α}
    {cs : List α}
    (hLiteral : sep ∉ scanner.literal)
    (hHere : ¬ scanner.literal <+: c :: cs)
    (right : List α) :
    ¬ scanner.literal <+: c :: (cs ++ sep :: right) := by
  intro hLong
  rcases hLong with ⟨body, hBody⟩
  have hWhole :
      scanner.literal ++ body =
        (c :: cs) ++ sep :: right := by
    simpa using hBody
  rcases List.append_eq_append_iff.mp hWhole with
    ⟨more, hLeft, _⟩ | ⟨more, hLit, hSep⟩
  · exact hHere ⟨more, hLeft.symm⟩
  · cases more with
    | nil => exact hHere ⟨[], by simpa using hLit⟩
    | cons d more =>
        simp only [List.cons_append, List.cons.injEq]
          at hSep
        exact hLiteral (by rw [hLit, hSep.1]; simp)

/-
  A separator that no token can hold cuts the text into
  pieces that are scanned on their own.
-/
theorem tokens_append_separator
    {sep : α}
    (hLiteral : sep ∉ scanner.literal)
    (hClass : scanner.cls sep = false)
    (left right : List α) :
    scanner.tokens (left ++ sep :: right) =
      scanner.tokens left ++ scanner.tokens right := by
  have hSepFirst : sep ≠ scanner.first := by
    intro h
    exact hLiteral (by simp [literal, h])
  induction hLength : left.length
      using Nat.strong_induction_on generalizing left with
  | _ n ih =>
      cases left with
      | nil =>
          simp [scanner.tokens_cons_of_ne right hSepFirst]
      | cons c cs =>
          by_cases hPrefix : scanner.literal <+: c :: cs
          · rcases hPrefix with ⟨body, hBody⟩
            rw [← hBody, List.append_assoc,
              tokens_literal, tokens_literal]
            have hShort :
                (body.dropWhile scanner.cls).length < n := by
              have hLe :=
                (List.dropWhile_sublist
                  (l := body) scanner.cls).length_le
              have hAll := congrArg List.length hBody
              simp only [literal, List.length_append,
                List.length_cons] at hAll hLength
              omega
            rw [takeWhile_append_stop hClass,
              dropWhile_append_stop hClass,
              ih _ hShort _ rfl, List.cons_append]
          · have hHere :
                scanner.tokenHere (c :: cs) = none := by
              simp [tokenHere, hPrefix]
            have hLonger :
                scanner.tokenHere
                  (c :: (cs ++ sep :: right)) = none := by
              simp [tokenHere, tokenHere_append_separator
                hLiteral hPrefix right]
            have hShort : cs.length < n := by
              simp only [List.length_cons] at hLength
              omega
            rw [List.cons_append,
              scanner.tokens_of_tokenHere_none hLonger,
              scanner.tokens_of_tokenHere_none hHere,
              ih _ hShort _ rfl]

end Scanner

end Mkrootfs
