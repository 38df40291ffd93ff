import Mathlib.Data.List.Infix

/-
  Outlines: trees of labels, whose entries are settled one
  after the other.  An entry hands its label on to those in
  its list, an entry without a list takes the ones behind it
  that belong to it, and hidden entries give up their lists.

  Main declarations:
    * `Outline.preorder`
    * `OutlineRules`, `settle`, `finalize`, `taken`
    * `finalize_eq_still`, `preorder_finalize`
    * `finalize_shy`, `Fit.settled_finalize`
-/

------------------------------------------------------------
-- Outlines
------------------------------------------------------------

namespace Mkrootfs

inductive Outline (A : Type) where
| node : A → List (Outline A) → Outline A

namespace Outline

variable {A B : Type}

def label : Outline A → A
| node a _ => a

def list : Outline A → List (Outline A)
| node _ list => list

/- The entry with another label. -/
def relabel (f : A → A) : Outline A → Outline A
| node a list => node (f a) list

mutual

/- The labels, those above before those below. -/
def preorder : Outline A → List A
| node a list => a :: preorderAll list

def preorderAll : List (Outline A) → List A
| [] => []
| m :: list => m.preorder ++ preorderAll list

end

mutual

/- An outline with all that are in it. -/
def subtrees : Outline A → List (Outline A)
| node a list => node a list :: subtreesAll list

def subtreesAll : List (Outline A) → List (Outline A)
| [] => []
| m :: list => m.subtrees ++ subtreesAll list

end

mutual

/- An entry, and what is left of its list if it is hidden. -/
def hoist (hides : A → Bool) : Outline A → List (Outline A)
| node a list =>
    if hides a then
      node a [] :: hoistAll hides list
    else
      [node a list]

def hoistAll (hides : A → Bool) :
    List (Outline A) → List (Outline A)
| [] => []
| m :: list => m.hoist hides ++ hoistAll hides list

end

theorem preorder_eq_cons (m : Outline A) :
    m.preorder = m.label :: preorderAll m.list := by
  cases m
  rw [preorder]
  rfl

theorem preorderAll_append (first second : List (Outline A)) :
    preorderAll (first ++ second) =
      preorderAll first ++ preorderAll second := by
  induction first with
  | nil => simp [preorderAll]
  | cons m first ih => simp [preorderAll, ih]

theorem length_preorderAll_le_of_suffix
    {rest list : List (Outline A)}
    (hSuffix : rest <:+ list) :
    (preorderAll rest).length ≤ (preorderAll list).length := by
  rcases hSuffix with ⟨taken, rfl⟩
  simp [preorderAll_append]

@[simp]
theorem label_relabel (f : A → A) (m : Outline A) :
    (m.relabel f).label = f m.label := by
  cases m
  rfl

@[simp]
theorem list_relabel (f : A → A) (m : Outline A) :
    (m.relabel f).list = m.list := by
  cases m
  rfl

theorem length_preorderAll_relabel
    (f : A → A)
    (list : List (Outline A)) :
    (preorderAll (list.map (relabel f))).length =
      (preorderAll list).length := by
  induction list with
  | nil => rfl
  | cons m list ih =>
      simp [preorderAll, preorder_eq_cons, ih]

mutual

/- Lists that are given up stay where they are. -/
theorem preorder_hoist
    (hides : A → Bool)
    (m : Outline A) :
    preorderAll (m.hoist hides) = m.preorder := by
  match m with
  | node a list =>
      rw [hoist]
      split
      · simp [preorderAll, preorder,
          preorderAll_hoistAll hides list]
      · simp [preorderAll]

theorem preorderAll_hoistAll
    (hides : A → Bool)
    (list : List (Outline A)) :
    preorderAll (hoistAll hides list) = preorderAll list := by
  match list with
  | [] => rw [hoistAll]
  | m :: list =>
      rw [hoistAll, preorderAll_append, preorder_hoist hides m,
        preorderAll_hoistAll hides list, preorderAll]

end

end Outline

------------------------------------------------------------
-- Settling
------------------------------------------------------------

/-
  The label an entry gets from the one above it, whether it
  belongs to an earlier one, and which entries are hidden.
-/
structure OutlineRules (A : Type) where
  enter : A → A → A
  takes : A → A → Bool
  hides : A → Bool

namespace OutlineRules

open Outline

variable {A : Type} (rules : OutlineRules A)

mutual

/-
  An entry and the entries behind it: the entry when it is
  settled, and what it left of the others.
-/
def settle :
    Nat → Outline A → List (Outline A) →
      Outline A × List (Outline A)
| 0, m, rest => (m, rest)
| n + 1, m, rest =>
    if m.list.isEmpty then
      let r := take n m.label rest
      (.node m.label (hoistAll rules.hides r.1), r.2)
    else
      (.node m.label (hoistAll rules.hides
        (settleAll n
          (m.list.map (relabel (rules.enter m.label))))), rest)

/- What an entry takes of those behind it. -/
def take :
    Nat → A → List (Outline A) →
      List (Outline A) × List (Outline A)
| 0, _, rest => ([], rest)
| _ + 1, _, [] => ([], [])
| n + 1, a, m :: rest =>
    if rules.takes a m.label then
      let r := settle n m rest
      let s := take n a r.2
      (r.1 :: s.1, s.2)
    else
      ([], m :: rest)

/- The entries of a list, one after the other. -/
def settleAll : Nat → List (Outline A) → List (Outline A)
| 0, list => list
| _ + 1, [] => []
| n + 1, m :: rest =>
    let r := settle n m rest
    r.1 :: settleAll n r.2

end

/- Enough for an entry and those behind it. -/
def cost (m : Outline A) (rest : List (Outline A)) : Nat :=
  2 * (preorderAll (m :: rest)).length

def costAll (list : List (Outline A)) : Nat :=
  2 * (preorderAll list).length + 1

/- An outline, settled from its first entry on. -/
def finalize (m : Outline A) : Outline A :=
  (rules.settle (cost m []) m []).1

mutual

/- The entries that take others meanwhile, with these. -/
def settleTaken :
    Nat → Outline A → List (Outline A) → List (A × A)
| 0, _, _ => []
| n + 1, m, rest =>
    if m.list.isEmpty then
      takeTaken n m.label rest
    else
      settleAllTaken n
        (m.list.map (relabel (rules.enter m.label)))

def takeTaken : Nat → A → List (Outline A) → List (A × A)
| 0, _, _ => []
| _ + 1, _, [] => []
| n + 1, a, m :: rest =>
    if rules.takes a m.label then
      (a, m.label) :: settleTaken n m rest ++
        takeTaken n a (rules.settle n m rest).2
    else
      []

def settleAllTaken : Nat → List (Outline A) → List (A × A)
| 0, _ => []
| _ + 1, [] => []
| n + 1, m :: rest =>
    settleTaken n m rest ++
      settleAllTaken n (rules.settle n m rest).2

end

/- Who takes whom when an outline is settled. -/
def taken (m : Outline A) : List (A × A) :=
  rules.settleTaken (cost m []) m []

------------------------------------------------------------
-- What Is Left Behind
------------------------------------------------------------

theorem label_settle
    (n : Nat)
    (m : Outline A)
    (rest : List (Outline A)) :
    (rules.settle n m rest).1.label = m.label := by
  cases n with
  | zero => rw [settle]
  | succ n =>
      rw [settle]
      split <;> rfl

theorem suffix_settle_take (n : Nat) :
    (∀ (m : Outline A) rest,
        (rules.settle n m rest).2 <:+ rest) ∧
      ∀ a (rest : List (Outline A)),
        (rules.take n a rest).2 <:+ rest := by
  induction n with
  | zero =>
      refine ⟨fun m rest => ?_, fun a rest => ?_⟩
      · rw [settle]
      · rw [take]
  | succ n ih =>
      refine ⟨fun m rest => ?_, fun a rest => ?_⟩
      · rw [settle]
        split
        · exact ih.2 m.label rest
        · exact List.suffix_rfl
      · cases rest with
        | nil =>
            rw [take]
        | cons m rest =>
            rw [take]
            split
            · exact ((ih.2 _ _).trans (ih.1 m rest)).trans
                (List.suffix_cons m rest)
            · exact List.suffix_rfl

/- What is left costs less than what was there. -/
theorem costAll_settle_lt
    (n : Nat)
    (m : Outline A)
    (rest : List (Outline A)) :
    costAll (rules.settle n m rest).2 < cost m rest := by
  have hLess := length_preorderAll_le_of_suffix
    ((suffix_settle_take rules n).1 m rest)
  simp only [cost, costAll, preorderAll, preorder_eq_cons,
    List.length_append, List.length_cons]
  omega

theorem costAll_cons (m : Outline A) (rest : List (Outline A)) :
    costAll (m :: rest) = cost m rest + 1 :=
  rfl

theorem costAll_lt_cost
    (m : Outline A)
    (rest : List (Outline A)) :
    costAll rest < cost m rest := by
  simp only [cost, costAll, preorderAll, preorder_eq_cons,
    List.length_append, List.length_cons]
  omega

theorem costAll_list_lt_cost
    (f : A → A)
    (m : Outline A)
    (rest : List (Outline A)) :
    costAll (m.list.map (relabel f)) < cost m rest := by
  simp only [cost, costAll, length_preorderAll_relabel,
    preorderAll, preorder_eq_cons, List.length_append,
    List.length_cons]
  omega

------------------------------------------------------------
-- Hidden Entries
------------------------------------------------------------

/- The rules under which hidden entries take nothing. -/
def shy (rules : OutlineRules A) : OutlineRules A :=
  { rules with
    takes := fun a b => !rules.hides a && rules.takes a b }

/- They are those of a run in which hidden ones do not. -/
theorem settle_shy (n : Nat) :
    (∀ (m : Outline A) rest,
        (∀ ab ∈ rules.settleTaken n m rest,
          rules.hides ab.1 = false) →
        rules.shy.settle n m rest = rules.settle n m rest) ∧
      (∀ a (rest : List (Outline A)),
        (∀ ab ∈ rules.takeTaken n a rest,
          rules.hides ab.1 = false) →
        rules.shy.take n a rest = rules.take n a rest) ∧
      ∀ list : List (Outline A),
        (∀ ab ∈ rules.settleAllTaken n list,
          rules.hides ab.1 = false) →
        rules.shy.settleAll n list =
          rules.settleAll n list := by
  induction n with
  | zero =>
      refine ⟨fun m rest _ => ?_, fun a rest _ => ?_,
        fun list _ => ?_⟩
      · rw [settle, settle]
      · rw [take, take]
      · rw [settleAll, settleAll]
  | succ n ih =>
      refine ⟨fun m rest h => ?_, fun a rest h => ?_,
        fun list h => ?_⟩
      · rw [settleTaken] at h
        rw [settle, settle]
        by_cases hEmpty : m.list.isEmpty = true
        · rw [if_pos hEmpty] at h ⊢
          rw [if_pos hEmpty, ih.2.1 m.label rest h]
          rfl
        · rw [if_neg hEmpty] at h ⊢
          have hEnter : rules.shy.enter = rules.enter := rfl
          rw [if_neg hEmpty, hEnter, ih.2.2 _ h]
          rfl
      · cases rest with
        | nil => rw [take, take]
        | cons m rest =>
            rw [takeTaken] at h
            rw [take, take]
            cases hTakes : rules.takes a m.label with
            | false =>
                have hShy : rules.shy.takes a m.label =
                    false := by
                  change (!rules.hides a &&
                    rules.takes a m.label) = false
                  rw [hTakes, Bool.and_false]
                rw [hShy]
                rfl
            | true =>
                rw [if_pos hTakes, List.cons_append,
                  List.forall_mem_cons,
                  List.forall_mem_append] at h
                have hShy : rules.shy.takes a m.label =
                    true := by
                  change (!rules.hides a &&
                    rules.takes a m.label) = true
                  rw [h.1, hTakes]
                  rfl
                rw [hShy, if_pos rfl, if_pos rfl,
                  ih.1 m rest h.2.1]
                simp only
                rw [ih.2.1 a _ h.2.2]
      · cases list with
        | nil => rw [settleAll, settleAll]
        | cons m rest =>
            rw [settleAllTaken, List.forall_mem_append] at h
            rw [settleAll, settleAll]
            rw [ih.1 m rest h.1, ih.2.2 _ h.2]

theorem finalize_shy
    {m : Outline A}
    (hTaken : ∀ ab ∈ rules.taken m,
      rules.hides ab.1 = false) :
    rules.shy.finalize m = rules.finalize m := by
  unfold finalize
  rw [(rules.settle_shy _).1 m [] hTaken]

------------------------------------------------------------
-- Labels First
------------------------------------------------------------

mutual

/- An entry below a label, with those below it. -/
def handDown (rules : OutlineRules A) (a : A) :
    Outline A → Outline A
| .node b list =>
    .node (rules.enter a b)
      (handDownAll rules (rules.enter a b) list)

def handDownAll (rules : OutlineRules A) (a : A) :
    List (Outline A) → List (Outline A)
| [] => []
| m :: list => handDown rules a m :: handDownAll rules a list

end

/- All labels of an outline handed down. -/
def spread (rules : OutlineRules A) (m : Outline A) :
    Outline A :=
  .node m.label (handDownAll rules m.label m.list)

/- Rules that hand no labels down. -/
def still (rules : OutlineRules A) : OutlineRules A :=
  { rules with enter := fun _ b => b }

@[simp]
theorem label_spread (m : Outline A) :
    (rules.spread m).label = m.label :=
  rfl

@[simp]
theorem list_spread (m : Outline A) :
    (rules.spread m).list =
      rules.handDownAll m.label m.list :=
  rfl

theorem handDownAll_eq (a : A) (list : List (Outline A)) :
    rules.handDownAll a list =
      (list.map (relabel (rules.enter a))).map rules.spread := by
  induction list with
  | nil => rw [handDownAll]; rfl
  | cons m list ih =>
      cases m
      rw [handDownAll, handDown, ih]
      rfl

theorem map_relabel_still (a : A) (list : List (Outline A)) :
    list.map (relabel (rules.still.enter a)) = list := by
  have hSame : relabel (rules.still.enter a) =
      (id : Outline A → Outline A) := by
    funext m
    cases m
    rfl
  rw [hSame, List.map_id]

/- Labels may be handed down before anything is settled. -/
theorem settle_still (n : Nat) :
    (∀ (m : Outline A) rest, cost m rest ≤ n →
        rules.still.settle n (rules.spread m)
            (rest.map rules.spread) =
          ((rules.settle n m rest).1,
            (rules.settle n m rest).2.map rules.spread)) ∧
      (∀ a (rest : List (Outline A)), costAll rest ≤ n →
        rules.still.take n a (rest.map rules.spread) =
          ((rules.take n a rest).1,
            (rules.take n a rest).2.map rules.spread)) ∧
      ∀ list : List (Outline A), costAll list ≤ n →
        rules.still.settleAll n (list.map rules.spread) =
          rules.settleAll n list := by
  induction n with
  | zero =>
      refine ⟨fun m rest h => ?_, fun a rest h => ?_,
        fun list h => ?_⟩
      · have hLess := costAll_lt_cost m rest
        omega
      · simp [costAll] at h
      · simp [costAll] at h
  | succ n ih =>
      refine ⟨fun m rest hn => ?_, fun a rest hn => ?_,
        fun list hn => ?_⟩
      · have hRest := costAll_lt_cost m rest
        have hList := costAll_list_lt_cost
          (rules.enter m.label) m rest
        have hEmpty : (rules.spread m).list.isEmpty =
            m.list.isEmpty := by
          rw [list_spread, handDownAll_eq]
          cases m.list <;> rfl
        simp only [settle, hEmpty, label_spread]
        split
        · rw [ih.2.1 m.label rest (by omega)]
          rfl
        · rw [map_relabel_still, list_spread, handDownAll_eq,
            ih.2.2 _ (by omega)]
          rfl
      · cases rest with
        | nil => simp [take]
        | cons m rest =>
            rw [costAll_cons] at hn
            have hLess := costAll_settle_lt rules
              n m rest
            simp only [List.map_cons, take, label_spread]
            rw [ih.1 m rest (by omega)]
            simp only
            rw [ih.2.1 a _ (by omega)]
            change (if rules.takes a m.label then _ else _) = _
            split <;> rfl
      · cases list with
        | nil => simp [settleAll]
        | cons m rest =>
            rw [costAll_cons] at hn
            have hLess := costAll_settle_lt rules
              n m rest
            simp only [List.map_cons, settleAll]
            rw [ih.1 m rest (by omega)]
            simp only
            rw [ih.2.2 _ (by omega)]

/- Finalizing is settling what has all its labels. -/
theorem finalize_eq_still (m : Outline A) :
    rules.finalize m =
      (rules.still.settle (cost m []) (rules.spread m) []).1 := by
  have hStill := (settle_still rules
    (cost m [])).1 m [] (Nat.le_refl _)
  rw [List.map_nil] at hStill
  rw [hStill]
  rfl

/- Settling keeps the order of the entries. -/
theorem preorder_settle_still (n : Nat) :
    (∀ (m : Outline A) rest,
        (rules.still.settle n m rest).1.preorder ++
            preorderAll (rules.still.settle n m rest).2 =
          m.preorder ++ preorderAll rest) ∧
      (∀ a (rest : List (Outline A)),
        preorderAll (rules.still.take n a rest).1 ++
            preorderAll (rules.still.take n a rest).2 =
          preorderAll rest) ∧
      ∀ list : List (Outline A),
        preorderAll (rules.still.settleAll n list) =
          preorderAll list := by
  induction n with
  | zero =>
      refine ⟨fun m rest => ?_, fun a rest => ?_, fun list => ?_⟩
      · rw [settle]
      · rw [take, preorderAll, List.nil_append]
      · rw [settleAll]
  | succ n ih =>
      refine ⟨fun m rest => ?_, fun a rest => ?_, fun list => ?_⟩
      · rw [settle, preorder_eq_cons m]
        split
        · rename_i hEmpty
          rw [List.isEmpty_iff.mp hEmpty]
          simp only [preorder, preorderAll_hoistAll,
            List.cons_append, ih.2.1 m.label rest, preorderAll,
            List.nil_append]
        · simp only [preorder, preorderAll_hoistAll,
            map_relabel_still, ih.2.2]
      · cases rest with
        | nil => rw [take]; rfl
        | cons m rest =>
            rw [take]
            split
            · simp only [preorderAll, List.append_assoc, ih.2.1,
                ih.1]
            · rfl
      · cases list with
        | nil => rw [settleAll]
        | cons m rest =>
            rw [settleAll]
            simp only [preorderAll, ih.2.2, ih.1]

/- Every entry stays, and where it was in the outline. -/
theorem preorder_finalize (m : Outline A) :
    (rules.finalize m).preorder = (rules.spread m).preorder := by
  have hKeep := (preorder_settle_still rules
    (cost m [])).1 (rules.spread m) []
  have hNone := List.eq_nil_of_suffix_nil
    ((suffix_settle_take rules.still
      (cost m [])).1 (rules.spread m) [])
  rw [hNone, preorderAll, List.append_nil,
    List.append_nil] at hKeep
  rw [finalize_eq_still, hKeep]

mutual

/- A part of a label that is handed down as it is. -/
theorem map_preorder_handDown
    {B : Type}
    (key : A → B)
    (hKey : ∀ a b, key (rules.enter a b) = key b)
    (a : A)
    (m : Outline A) :
    (rules.handDown a m).preorder.map key =
      m.preorder.map key := by
  match m with
  | .node b list =>
      rw [handDown, preorder, preorder, List.map_cons,
        List.map_cons, hKey, map_preorderAll_handDownAll key hKey]

theorem map_preorderAll_handDownAll
    {B : Type}
    (key : A → B)
    (hKey : ∀ a b, key (rules.enter a b) = key b)
    (a : A)
    (list : List (Outline A)) :
    (preorderAll (rules.handDownAll a list)).map key =
      (preorderAll list).map key := by
  match list with
  | [] => rw [handDownAll]
  | m :: list =>
      rw [handDownAll, preorderAll, preorderAll, List.map_append,
        List.map_append, map_preorder_handDown key hKey,
        map_preorderAll_handDownAll key hKey]

end

theorem map_preorder_finalize
    {B : Type}
    (key : A → B)
    (hKey : ∀ a b, key (rules.enter a b) = key b)
    (m : Outline A) :
    (rules.finalize m).preorder.map key =
      m.preorder.map key := by
  rw [preorder_finalize, spread, preorder, List.map_cons,
    rules.map_preorderAll_handDownAll key hKey, preorder_eq_cons m,
    List.map_cons]

end OutlineRules

------------------------------------------------------------
-- Entries And The Lists They Are In
------------------------------------------------------------

/- A relation of every entry to those in its list. -/
inductive Outline.Each {A : Type} (P : A → A → Prop) :
    Outline A → Prop where
| node {a : A} {list : List (Outline A)}
    (labels : ∀ m ∈ list, P a m.label)
    (below : ∀ m ∈ list, m.Each P) :
    Each P (.node a list)

/-
  An outline in which hidden entries below the first one have
  no lists, and the others have entries that fit.
-/
inductive Outline.Settled
    {A : Type}
    (hides : A → Bool)
    (Bound Fits : A → A → Prop) :
    Outline A → Prop where
| node {a : A} {list : List (Outline A)}
    (below : ∀ m ∈ list, m.Settled hides Bound Fits)
    (flat : ∀ m ∈ list, hides m.label = true → m.list = [])
    (bound : hides a = true → ∀ m ∈ list, Bound a m.label)
    (fits : hides a = false → ∀ m ∈ list, Fits a m.label) :
    Settled hides Bound Fits (.node a list)

namespace Outline

variable {A : Type} {hides : A → Bool} {Bound Fits : A → A → Prop}

theorem hoistAll_of_flat
    {list : List (Outline A)}
    (hFlat : ∀ m ∈ list, hides m.label = true → m.list = []) :
    hoistAll hides list = list := by
  induction list with
  | nil => rw [hoistAll]
  | cons m list ih =>
      rw [List.forall_mem_cons] at hFlat
      rw [hoistAll, ih hFlat.2]
      cases m with
      | node a inner =>
          rw [hoist]
          split
          · rename_i hHidden
            have hNone : inner = [] := hFlat.1 hHidden
            subst hNone
            rw [hoistAll]
            rfl
          · rfl

/- What the list of an entry is when the hidden are hoisted. -/
theorem hoistAll_settled
    {Q : A → Prop}
    {list : List (Outline A)}
    (hSettled : ∀ m ∈ list, m.Settled hides Bound Fits)
    (hLabels : ∀ m ∈ list, Q m.label)
    (hHidden : ∀ m ∈ list, hides m.label = true →
      ∀ c ∈ m.list, Q c.label) :
    ∀ m ∈ hoistAll hides list, m.Settled hides Bound Fits ∧
      Q m.label ∧ (hides m.label = true → m.list = []) := by
  induction list with
  | nil =>
      rw [hoistAll]
      rintro m ⟨⟩
  | cons x list ih =>
      rw [List.forall_mem_cons] at hSettled hLabels hHidden
      rw [hoistAll]
      intro m hm
      rcases List.mem_append.mp hm with hHead | hTail
      · cases x with
        | node a inner =>
            rw [hoist] at hHead
            cases hSettled.1 with
            | node below flat bound fits =>
                split at hHead
                · rename_i hHides
                  rcases List.mem_cons.mp hHead with rfl | hIn
                  · refine ⟨.node ?_ ?_ ?_ ?_, hLabels.1,
                      fun _ => rfl⟩
                    · rintro m ⟨⟩
                    · rintro m ⟨⟩
                    · rintro _ m ⟨⟩
                    · rintro _ m ⟨⟩
                  · rw [hoistAll_of_flat flat] at hIn
                    exact ⟨below m hIn,
                      hHidden.1 hHides m hIn, flat m hIn⟩
                · rename_i hShown
                  rw [List.mem_singleton.mp hHead]
                  exact ⟨.node below flat bound fits,
                    hLabels.1, fun h => absurd h hShown⟩
      · exact ih hSettled.2 hLabels.2 hHidden.2 m hTail

end Outline

namespace OutlineRules

open Outline

variable {A : Type} {rules : OutlineRules A}

/-
  What the rules must do for entries to fit those above: all
  that stands in a list is bound by its label, and all that
  is taken fits.  Hidden entries take nothing.
-/
structure Fit
    (rules : OutlineRules A)
    (Bound Fits : A → A → Prop) : Prop where
  hidden : ∀ a b c, rules.hides b = true → Bound a b →
    Bound b c → Bound a c
  listed : ∀ a b, rules.hides a = false → Bound a b → Fits a b
  taken : ∀ p a b, Bound p a → Bound p b →
    rules.takes a b = true → rules.hides a = false → Fits a b
  takenBelow : ∀ p a b c, Bound p a → Bound p b →
    rules.takes a b = true → rules.hides a = false →
    rules.hides b = true → Bound b c → Fits a c
  quiet : ∀ p a b, Bound p a → Bound p b →
    rules.hides a = true → rules.takes a b = false

variable {Bound Fits : A → A → Prop}

/- Entries of one list, with their labels. -/
def BoundBy
    (Bound : A → A → Prop)
    (p : A)
    (list : List (Outline A)) : Prop :=
  ∀ m ∈ list, Bound p m.label ∧ m.Each Bound

theorem Fit.settled_list
    (hFit : Fit rules Bound Fits)
    {a : A}
    {list : List (Outline A)}
    (hList : ∀ m ∈ list,
      m.Settled rules.hides Bound Fits ∧ Bound a m.label) :
    (Outline.node a (hoistAll rules.hides list)).Settled
      rules.hides Bound Fits := by
  have hBelow : ∀ m ∈ list, rules.hides m.label = true →
      ∀ c ∈ m.list, Bound a c.label := by
    intro m hm hHides c hc
    rcases hList m hm with ⟨hSettled, hBound⟩
    cases hSettled with
    | node below flat bound fits =>
        exact hFit.hidden a _ _ hHides hBound
          (bound hHides c hc)
  have hAll := hoistAll_settled (Q := Bound a)
    (fun m hm => (hList m hm).1)
    (fun m hm => (hList m hm).2) hBelow
  exact .node (fun m hm => (hAll m hm).1)
    (fun m hm => (hAll m hm).2.2)
    (fun _ m hm => (hAll m hm).2.1)
    (fun hShown m hm =>
      hFit.listed a m.label hShown (hAll m hm).2.1)

theorem Fit.settled_taken
    (hFit : Fit rules Bound Fits)
    {p a : A}
    {list : List (Outline A)}
    (hEmpty : rules.hides a = true → list = [])
    (hList : rules.hides a = false → ∀ m ∈ list,
      m.Settled rules.hides Bound Fits ∧ Bound p a ∧
        Bound p m.label ∧ rules.takes a m.label = true) :
    (Outline.node a (hoistAll rules.hides list)).Settled
      rules.hides Bound Fits := by
  cases hHides : rules.hides a with
  | true =>
      rw [hEmpty hHides, hoistAll]
      refine .node ?_ ?_ ?_ ?_
      · rintro m ⟨⟩
      · rintro m ⟨⟩
      · rintro _ m ⟨⟩
      · rintro _ m ⟨⟩
  | false =>
      have hTaken := hList hHides
      have hBelow : ∀ m ∈ list, rules.hides m.label = true →
          ∀ c ∈ m.list, Fits a c.label := by
        intro m hm hHidden c hc
        rcases hTaken m hm with ⟨hSettled, ha, hm, hTakes⟩
        cases hSettled with
        | node below flat bound fits =>
            exact hFit.takenBelow p a _ _ ha hm hTakes hHides
              hHidden (bound hHidden c hc)
      have hAll := hoistAll_settled (Q := Fits a)
        (fun m hm => (hTaken m hm).1)
        (fun m hm => by
          rcases hTaken m hm with ⟨_, ha, hm, hTakes⟩
          exact hFit.taken p a _ ha hm hTakes hHides) hBelow
      refine .node (fun m hm => (hAll m hm).1)
        (fun m hm => (hAll m hm).2.2) ?_
        (fun _ m hm => (hAll m hm).2.1)
      intro hTrue
      rw [hHides] at hTrue
      cases hTrue

/- A step of the settling, for entries of one list. -/
theorem Fit.settle_still
    (hFit : Fit rules Bound Fits)
    (n : Nat) :
    (∀ p (m : Outline A) rest, cost m rest ≤ n →
        BoundBy Bound p (m :: rest) →
        (rules.still.settle n m rest).1.Settled
          rules.hides Bound Fits) ∧
      (∀ p a (rest : List (Outline A)), costAll rest ≤ n →
        Bound p a → BoundBy Bound p rest →
        (rules.hides a = true →
            (rules.still.take n a rest).1 = []) ∧
          ∀ m ∈ (rules.still.take n a rest).1,
            m.Settled rules.hides Bound Fits ∧ Bound p a ∧
              Bound p m.label ∧ rules.takes a m.label = true) ∧
      ∀ p (list : List (Outline A)), costAll list ≤ n →
        BoundBy Bound p list →
        ∀ m ∈ rules.still.settleAll n list,
          m.Settled rules.hides Bound Fits ∧ Bound p m.label := by
  induction n with
  | zero =>
      refine ⟨fun p m rest h _ => ?_, fun p a rest h _ _ => ?_,
        fun p list h _ => ?_⟩
      · have hLess := costAll_lt_cost m rest
        omega
      · simp [costAll] at h
      · simp [costAll] at h
  | succ n ih =>
      have hLeft : ∀ {p m rest},
          BoundBy Bound p (m :: rest) →
          BoundBy Bound p (rules.still.settle n m rest).2 :=
        fun h x hx => h x (List.mem_cons_of_mem _
          (((suffix_settle_take rules.still n).1 _ _).subset hx))
      refine ⟨fun p m rest hn hBound => ?_,
        fun p a rest hn ha hBound => ?_,
        fun p list hn hBound => ?_⟩
      · have hRest := costAll_lt_cost m rest
        have hList := costAll_list_lt_cost id m rest
        have hSelf := hBound m List.mem_cons_self
        have hOthers : BoundBy Bound p rest :=
          fun x hx => hBound x (List.mem_cons_of_mem m hx)
        rw [settle]
        split
        · have hTake := ih.2.1 p m.label rest (by omega)
            hSelf.1 hOthers
          exact hFit.settled_taken hTake.1 (fun _ => hTake.2)
        · rw [map_relabel_still]
          refine hFit.settled_list (ih.2.2 m.label m.list ?_ ?_)
          · have hSame : m.list.map (relabel id) = m.list :=
              map_relabel_still rules m.label m.list
            rw [hSame] at hList
            omega
          · cases hSelf.2 with
            | node labels below =>
                exact fun x hx => ⟨labels x hx, below x hx⟩
      · cases rest with
        | nil =>
            rw [take]
            exact ⟨fun _ => rfl, by rintro m ⟨⟩⟩
        | cons m rest =>
            rw [costAll_cons] at hn
            have hLess := costAll_settle_lt
              rules.still n m rest
            have hSelf := hBound m List.mem_cons_self
            rw [take]
            change (_ → (if rules.takes a m.label then _
              else _ : _ × _).1 = []) ∧
              ∀ x ∈ (if rules.takes a m.label then _
                else _ : _ × _).1, _
            split
            · rename_i hTakes
              have hNext := ih.2.1 p a
                (rules.still.settle n m rest).2 (by omega) ha
                (hLeft hBound)
              refine ⟨fun hHides => ?_, ?_⟩
              · rw [hFit.quiet p a m.label ha hSelf.1 hHides]
                  at hTakes
                cases hTakes
              · refine List.forall_mem_cons.mpr ⟨?_, hNext.2⟩
                rw [label_settle]
                exact ⟨ih.1 p m rest (by omega) hBound, ha,
                  hSelf.1, hTakes⟩
            · exact ⟨fun _ => rfl, by rintro m ⟨⟩⟩
      · cases list with
        | nil =>
            rw [settleAll]
            rintro m ⟨⟩
        | cons m rest =>
            rw [costAll_cons] at hn
            have hLess := costAll_settle_lt
              rules.still n m rest
            rw [settleAll]
            refine List.forall_mem_cons.mpr ⟨⟨?_, ?_⟩, ?_⟩
            · exact ih.1 p m rest (by omega) hBound
            · rw [label_settle]
              exact (hBound m List.mem_cons_self).1
            · exact ih.2.2 p _ (by omega) (hLeft hBound)

theorem Fit.settled_finalize
    (hFit : Fit rules Bound Fits)
    {m : Outline A}
    (hEach : (rules.spread m).Each Bound) :
    (rules.finalize m).Settled rules.hides Bound Fits := by
  rw [finalize_eq_still]
  have hLess := costAll_list_lt_cost (rules.enter m.label) m []
  obtain ⟨n, hn⟩ : ∃ n, cost m [] = n + 1 :=
    ⟨cost m [] - 1, by omega⟩
  rw [hn, settle]
  split
  · have hNone : (rules.still.take n m.label []).1 = [] := by
      cases n <;> rw [take]
    simp only [label_spread, hNone]
    exact hFit.settled_list (by rintro x ⟨⟩)
  · rw [map_relabel_still]
    refine hFit.settled_list
      ((hFit.settle_still n).2.2 m.label _ ?_ ?_)
    · have hSize := length_preorderAll_relabel
        (rules.enter m.label) m.list
      have hKeep := congrArg List.length
        (map_preorderAll_handDownAll rules (fun _ => ())
          (fun _ _ => rfl) m.label m.list)
      simp only [List.length_map] at hKeep
      simp only [costAll, list_spread] at hLess ⊢
      omega
    · cases hEach with
      | node labels below =>
          exact fun x hx => ⟨labels x hx, below x hx⟩

mutual

/- What holds of labels that are handed down. -/
theorem each_handDown
    {Raw Ok : A → Prop}
    {P : A → A → Prop}
    (hEnter : ∀ a b, Ok a → Raw b →
      Ok (rules.enter a b) ∧ P a (rules.enter a b))
    {a : A}
    (ha : Ok a)
    (m : Outline A)
    (hRaw : ∀ b ∈ m.preorder, Raw b) :
    P a (rules.handDown a m).label ∧
      (rules.handDown a m).Each P ∧
      ∀ b ∈ (rules.handDown a m).preorder, Ok b := by
  match m with
  | .node b list =>
      rw [preorder, List.forall_mem_cons] at hRaw
      have hSelf := hEnter a b ha hRaw.1
      have hBelow := each_handDownAll hEnter hSelf.1 list hRaw.2
      rw [handDown, preorder, List.forall_mem_cons]
      exact ⟨hSelf.2,
        .node (fun m hm => (hBelow.1 m hm).1)
          (fun m hm => (hBelow.1 m hm).2),
        hSelf.1, hBelow.2⟩

theorem each_handDownAll
    {Raw Ok : A → Prop}
    {P : A → A → Prop}
    (hEnter : ∀ a b, Ok a → Raw b →
      Ok (rules.enter a b) ∧ P a (rules.enter a b))
    {a : A}
    (ha : Ok a)
    (list : List (Outline A))
    (hRaw : ∀ b ∈ preorderAll list, Raw b) :
    (∀ m ∈ rules.handDownAll a list,
        P a m.label ∧ m.Each P) ∧
      ∀ b ∈ preorderAll (rules.handDownAll a list), Ok b := by
  match list with
  | [] =>
      rw [handDownAll]
      exact ⟨by rintro m ⟨⟩, by rintro b ⟨⟩⟩
  | m :: list =>
      rw [preorderAll, List.forall_mem_append] at hRaw
      have hHead := each_handDown hEnter ha m hRaw.1
      have hTail := each_handDownAll hEnter ha list hRaw.2
      rw [handDownAll, preorderAll, List.forall_mem_append]
      exact ⟨List.forall_mem_cons.mpr
          ⟨⟨hHead.1, hHead.2.1⟩, hTail.1⟩,
        hHead.2.2, hTail.2⟩

end

theorem each_spread
    {Raw Ok : A → Prop}
    {P : A → A → Prop}
    (hEnter : ∀ a b, Ok a → Raw b →
      Ok (rules.enter a b) ∧ P a (rules.enter a b))
    {m : Outline A}
    (hSelf : Ok m.label)
    (hRaw : ∀ b ∈ preorderAll m.list, Raw b) :
    (rules.spread m).Each P ∧
      ∀ b ∈ (rules.spread m).preorder, Ok b := by
  have hBelow := each_handDownAll hEnter hSelf m.list hRaw
  rw [spread, preorder, List.forall_mem_cons]
  exact ⟨.node (fun m hm => (hBelow.1 m hm).1)
      (fun m hm => (hBelow.1 m hm).2),
    hSelf, hBelow.2⟩

end OutlineRules

namespace Outline

variable {A : Type}

theorem mem_subtreesAll
    {m : Outline A}
    {list : List (Outline A)}
    (hMem : m ∈ subtreesAll list) :
    ∃ x ∈ list, m ∈ x.subtrees := by
  induction list with
  | nil =>
      rw [subtreesAll] at hMem
      cases hMem
  | cons x list ih =>
      rw [subtreesAll] at hMem
      rcases List.mem_append.mp hMem with hHead | hTail
      · exact ⟨x, List.mem_cons_self, hHead⟩
      · rcases ih hTail with ⟨y, hy, hm⟩
        exact ⟨y, List.mem_cons_of_mem x hy, hm⟩

/- All that is in a settled outline is settled. -/
theorem Settled.of_mem_subtrees
    {hides : A → Bool}
    {Bound Fits : A → A → Prop}
    {m x : Outline A}
    (hSettled : m.Settled hides Bound Fits)
    (hMem : x ∈ m.subtrees) :
    x.Settled hides Bound Fits := by
  induction hSettled with
  | node below flat bound fits ih =>
      rw [subtrees] at hMem
      rcases List.mem_cons.mp hMem with rfl | hBelow
      · exact .node below flat bound fits
      · rcases mem_subtreesAll hBelow with ⟨y, hy, hx⟩
        exact ih y hy hx

/- Below the first entry, hidden ones have no lists. -/
theorem Settled.flat_of_mem_subtrees
    {hides : A → Bool}
    {Bound Fits : A → A → Prop}
    {m x : Outline A}
    (hSettled : m.Settled hides Bound Fits)
    (hMem : x ∈ m.subtrees) :
    x = m ∨ (hides x.label = true → x.list = []) := by
  induction hSettled with
  | node below flat bound fits ih =>
      rw [subtrees] at hMem
      rcases List.mem_cons.mp hMem with rfl | hBelow
      · exact Or.inl rfl
      · rcases mem_subtreesAll hBelow with ⟨y, hy, hx⟩
        rcases ih y hy hx with rfl | hFlat
        · exact Or.inr (flat x hy)
        · exact Or.inr hFlat

end Outline

end Mkrootfs
