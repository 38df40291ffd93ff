import Mathlib.Data.List.Basic

/-
  A flag under a list of operations, each of which raises
  it, lowers it or leaves it alone.

  Main declarations:
    * `Raised`
    * `raised_iff_no_lower`
    * `raised_iff_raised_again`
-/

------------------------------------------------------------
-- Flags
------------------------------------------------------------

namespace Mkrootfs

variable {T : Type} {raises lowers : T → Prop}

/- The flag after some operations. -/
def Raised
    (raises lowers : T → Prop) :
    List T →
    Prop →
    Prop
| [], flag => flag
| op :: ops, flag =>
    Raised raises lowers ops
      (raises op ∨ (flag ∧ ¬ lowers op))

/-
  Whenever the flag is lowered after it was raised, it is
  raised again.
-/
def RaisedAgain
    (raises lowers : T → Prop)
    (ops : List T) : Prop :=
  ∀ before op after,
    ops = before ++ op :: after →
    lowers op →
    (∃ earlier ∈ before, raises earlier) →
    ∃ later ∈ after, raises later

/- Operations that do not raise the flag can only lower it. -/
theorem raised_iff_no_lower
    {ops : List T}
    (hNone : ∀ op ∈ ops, ¬ raises op)
    (flag : Prop) :
    Raised raises lowers ops flag ↔
      flag ∧ ∀ op ∈ ops, ¬ lowers op := by
  induction ops generalizing flag with
  | nil => simp [Raised]
  | cons op ops ih =>
      have hRest : ∀ other ∈ ops, ¬ raises other :=
        fun other hMem =>
          hNone other (List.mem_cons_of_mem op hMem)
      have hOp := hNone op List.mem_cons_self
      unfold Raised
      rw [ih hRest]
      simp only [hOp, false_or, List.forall_mem_cons,
        and_assoc]

/- Putting an operation in front of one that raises. -/
theorem raisedAgain_cons_iff
    (hExclusive : ∀ op, raises op → ¬ lowers op)
    {op : T}
    {ops : List T}
    (hSome : ∃ later ∈ ops, raises later) :
    RaisedAgain raises lowers (op :: ops) ↔
      RaisedAgain raises lowers ops := by
  constructor
  · intro hAgain before low after hOps hLow hEarlier
    rcases hEarlier with ⟨earlier, hMem, hRaises⟩
    exact hAgain (op :: before) low after (by rw [hOps]; rfl)
      hLow
      ⟨earlier, List.mem_cons_of_mem op hMem, hRaises⟩
  · intro hAgain before low after hOps hLow hEarlier
    cases before with
    | nil =>
        rcases hEarlier with ⟨_, hMem, _⟩
        cases hMem
    | cons first before =>
        rw [List.cons_append] at hOps
        rcases List.cons.inj hOps with ⟨_, hOps⟩
        rcases hSome with ⟨later, hLater, hRaises⟩
        rw [hOps, List.mem_append, List.mem_cons] at hLater
        rcases hLater with hBefore | rfl | hAfter
        · exact hAgain before low after hOps hLow
            ⟨later, hBefore, hRaises⟩
        · exact absurd hLow (hExclusive _ hRaises)
        · exact ⟨later, hAfter, hRaises⟩

/-
  A flag that is raised at some time is up at the end
  exactly when it is always raised again.
-/
theorem raised_iff_raised_again
    (hExclusive : ∀ op, raises op → ¬ lowers op)
    {ops : List T}
    (hSome : ∃ op ∈ ops, raises op)
    (flag : Prop) :
    Raised raises lowers ops flag ↔
      RaisedAgain raises lowers ops := by
  induction ops generalizing flag with
  | nil =>
      rcases hSome with ⟨_, hMem, _⟩
      cases hMem
  | cons op ops ih =>
      by_cases hLater : ∃ later ∈ ops, raises later
      · rw [raisedAgain_cons_iff hExclusive hLater]
        exact ih hLater _
      · have hNone : ∀ later ∈ ops, ¬ raises later := by
          intro later hMem hRaises
          exact hLater ⟨later, hMem, hRaises⟩
        have hOp : raises op := by
          rcases hSome with ⟨first, hMem, hRaises⟩
          rcases List.mem_cons.mp hMem with rfl | hMem
          · exact hRaises
          · exact absurd hRaises (hNone first hMem)
        unfold Raised
        rw [raised_iff_no_lower hNone]
        constructor
        · rintro ⟨_, hKeeps⟩ before low after hOps hLow
            hEarlier
          cases before with
          | nil =>
              rcases hEarlier with ⟨_, hMem, _⟩
              cases hMem
          | cons first before =>
              rcases List.cons.inj hOps with ⟨_, rfl⟩
              exact absurd hLow (hKeeps low (by simp))
        · intro hAgain
          refine ⟨Or.inl hOp, ?_⟩
          intro low hMem hLow
          rcases List.append_of_mem hMem with
            ⟨before, after, rfl⟩
          rcases hAgain (op :: before) low after rfl hLow
              ⟨op, List.mem_cons_self, hOp⟩ with
            ⟨later, hAfter, hRaises⟩
          exact hNone later (by simp [hAfter]) hRaises

end Mkrootfs
