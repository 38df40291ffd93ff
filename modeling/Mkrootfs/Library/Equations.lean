import Mkrootfs.Library.Schedule

/-
  Systems of equations in which each key gets its value from
  the values of the keys that it reads.

  Where a rank falls along every reading, the system has
  exactly one solution, and two systems have the same values
  at all keys below which they agree.

  Main declarations:
    * `Equations`, `Equations.Solves`
    * `Equations.agree`, `Equations.solves_unique`
    * `Equations.solution`, `Equations.solves_solution`
    * `rank_lt_of_respects`
-/

------------------------------------------------------------
-- Equations
------------------------------------------------------------

namespace Mkrootfs

/-
  The value of a key under an assignment depends only on what
  the assignment gives the keys it reads.
-/
structure Equations (K V : Type) where
  reads : K → List K
  value : (K → V) → K → V
  value_congr : ∀ v w key,
    (∀ other ∈ reads key, v other = w other) →
    value v key = value w key

namespace Equations

variable {K V : Type}
variable (eqs : Equations K V)

/- An assignment that gives each key its own value. -/
def Solves (v : K → V) : Prop :=
  ∀ key, v key = eqs.value v key

/- A rank that falls along every reading. -/
def Ranked (rank : K → Nat) : Prop :=
  ∀ key, ∀ other ∈ eqs.reads key, rank other < rank key

variable {eqs}
variable {rank : K → Nat}

/-
  Two systems have the same values at the keys of a set that
  is closed under reading and on which they agree.
-/
theorem agree
    {other : Equations K V}
    {v w : K → V}
    (keys : K → Prop)
    (hRank : eqs.Ranked rank)
    (hSolves : eqs.Solves v)
    (hOther : other.Solves w)
    (hClosed : ∀ key, keys key →
      ∀ read ∈ eqs.reads key, keys read)
    (hSame : ∀ key, keys key →
      eqs.value w key = other.value w key)
    (key : K)
    (hKey : keys key) :
    v key = w key := by
  have hBelow : ∀ n key, rank key < n → keys key →
      v key = w key := by
    intro n
    induction n with
    | zero =>
        intro key hLt
        omega
    | succ n ih =>
        intro key hLt hKey
        rw [hSolves key, hOther key, ← hSame key hKey]
        refine eqs.value_congr v w key ?_
        intro read hRead
        have hLower := hRank key read hRead
        exact ih read (by omega) (hClosed key hKey read hRead)
  exact hBelow (rank key + 1) key (Nat.lt_succ_self _) hKey

/- A ranked system has at most one solution. -/
theorem solves_unique
    {v w : K → V}
    (hRank : eqs.Ranked rank)
    (hSolves : eqs.Solves v)
    (hOther : eqs.Solves w) :
    v = w :=
  funext (fun key =>
    agree (fun _ => True) hRank hSolves hOther
      (fun _ _ _ _ => trivial) (fun _ _ => rfl) key trivial)

------------------------------------------------------------
-- The Solution
------------------------------------------------------------

variable (eqs)

/- The values after some rounds from an assignment. -/
def rounds (start : K → V) : Nat → K → V
| 0 => start
| n + 1 => eqs.value (rounds start n)

/- As many rounds as the rank asks for. -/
def solution (start : K → V) (rank : K → Nat) : K → V :=
  fun key => eqs.rounds start (rank key + 1) key

variable {eqs}

/- Further rounds do not change what is reached. -/
theorem rounds_eq
    (start : K → V)
    (hRank : eqs.Ranked rank)
    (key : K)
    {m n : Nat}
    (hm : rank key < m)
    (hn : rank key < n) :
    eqs.rounds start m key = eqs.rounds start n key := by
  induction m generalizing n key with
  | zero => omega
  | succ m ih =>
      cases n with
      | zero => omega
      | succ n =>
          refine eqs.value_congr _ _ key ?_
          intro other hOther
          have hLower := hRank key other hOther
          exact ih other (by omega) (by omega)

theorem solves_solution
    (start : K → V)
    (hRank : eqs.Ranked rank) :
    eqs.Solves (eqs.solution start rank) := by
  intro key
  refine eqs.value_congr _ _ key ?_
  intro other hOther
  exact rounds_eq start hRank other
    (hRank key other hOther) (Nat.lt_succ_self _)

end Equations

------------------------------------------------------------
-- Ranks From Orders
------------------------------------------------------------

/-
  The place of a key in an order that puts each key behind
  those it reads.
-/
theorem rank_lt_of_respects
    {K : Type}
    [DecidableEq K]
    {reads : K → List K}
    {order : List K}
    (hOrder : respects reads [] order = true)
    {key : K}
    (hKey : key ∈ order)
    {other : K}
    (hOther : other ∈ reads key) :
    order.idxOf other < order.idxOf key := by
  rcases List.eq_append_cons_of_mem hKey with
    ⟨before, after, hPlace, hFirst⟩
  have hBefore : other ∈ before := by
    rcases respects_iff.mp hOrder before key after hPlace
        other hOther with h | h
    · exact h
    · cases h
  rw [hPlace, List.idxOf_append_of_mem hBefore,
    List.idxOf_append_of_notMem hFirst]
  have hLt := List.idxOf_lt_length_of_mem hBefore
  omega

end Mkrootfs
