import Mathlib.Data.List.Nodup
import Mathlib.Logic.Relation

/-
  The orders in which `make` may run the recipes of a goal.

  Main declarations:
    * `respects`, `respects_iff`, `acyclic_of_respects`
    * `Schedule`, `Schedule.mem_before_of_reaches`
    * `Schedule.exists_first`
-/

------------------------------------------------------------
-- Schedules
------------------------------------------------------------

namespace Mkrootfs

variable {T : Type}

/- A target needs another one, directly or not. -/
def Reaches
    (prereqs : T → List T) : T → T → Prop :=
  Relation.ReflTransGen (fun target p => p ∈ prereqs target)

variable [DecidableEq T]

/- Each target comes after its prerequisites. -/
def respects
    (prereqs : T → List T) :
    List T →
    List T →
    Bool
| _, [] => true
| done, target :: order =>
    (prereqs target).all (fun p => p ∈ done) &&
      respects prereqs (target :: done) order

/-
  An order of the recipes that a goal needs, as they may
  start with any number of jobs.
-/
structure Schedule
    (prereqs : T → List T)
    (goal : T) where
  order : List T
  nodup : order.Nodup
  goal_mem : goal ∈ order
  ordered : respects prereqs [] order = true
  needed : ∀ target ∈ order,
    target = goal ∨ ∃ other ∈ order, target ∈ prereqs other

/- What `respects` says of every place of an order. -/
theorem respects_iff
    {prereqs : T → List T}
    {done order : List T} :
    respects prereqs done order = true ↔
      ∀ before target after,
        order = before ++ target :: after →
        ∀ p ∈ prereqs target, p ∈ before ∨ p ∈ done := by
  induction order generalizing done with
  | nil =>
      constructor
      · intro _ before target after hOrder
        exact absurd hOrder (by simp)
      · intro _
        rfl
  | cons first order ih =>
      unfold respects
      rw [Bool.and_eq_true, ih, List.all_eq_true]
      simp only [decide_eq_true_eq, List.mem_cons]
      constructor
      · rintro ⟨hFirst, hRest⟩ before target after hOrder p hp
        rcases List.cons_eq_append_iff.mp hOrder with
          ⟨rfl, hSame⟩ | ⟨before, rfl, hSame⟩
        · cases hSame
          exact Or.inr (hFirst p hp)
        · rcases hRest before target after hSame p hp with
            hMem | rfl | hMem
          · exact Or.inl (List.mem_cons_of_mem first hMem)
          · exact Or.inl List.mem_cons_self
          · exact Or.inr hMem
      · intro hPlaces
        constructor
        · intro p hp
          rcases hPlaces [] first order rfl p hp with h | h
          · cases h
          · exact h
        · intro before target after hOrder p hp
          have hPlace := hPlaces (first :: before) target after
            (by rw [hOrder]; rfl) p hp
          rcases hPlace with hMem | hMem
          · rcases List.mem_cons.mp hMem with rfl | hMem
            · exact Or.inr (Or.inl rfl)
            · exact Or.inl hMem
          · exact Or.inr (Or.inr hMem)

/- Two parts of an order. -/
theorem respects_append
    (prereqs : T → List T)
    (done first second : List T) :
    respects prereqs done (first ++ second) =
      (respects prereqs done first &&
        respects prereqs (first.reverse ++ done) second) := by
  induction first generalizing done with
  | nil => rfl
  | cons target first ih =>
      simp [respects, ih, Bool.and_assoc]

/- A part of an order that is closed under prerequisites. -/
theorem respects_filter
    {prereqs : T → List T}
    {isNeeded : T → Bool}
    {done order : List T}
    (hClosed : ∀ target, isNeeded target = true →
      ∀ p ∈ prereqs target, isNeeded p = true)
    (hOrder : respects prereqs done order = true) :
    respects prereqs (done.filter isNeeded)
      (order.filter isNeeded) = true := by
  induction order generalizing done with
  | nil => rfl
  | cons target order ih =>
      unfold respects at hOrder
      rw [Bool.and_eq_true, List.all_eq_true] at hOrder
      simp only [decide_eq_true_eq] at hOrder
      have hRest := ih hOrder.2
      cases hTarget : isNeeded target with
      | false =>
          rw [List.filter_cons_of_neg (by simp [hTarget])]
            at hRest ⊢
          exact hRest
      | true =>
          rw [List.filter_cons_of_pos hTarget] at hRest ⊢
          unfold respects
          rw [Bool.and_eq_true, List.all_eq_true]
          refine ⟨?_, hRest⟩
          intro p hp
          rw [decide_eq_true_eq, List.mem_filter]
          exact ⟨hOrder.1 p hp, hClosed target hTarget p hp⟩

/- The other part, after that one. -/
theorem respects_filter_rest
    {prereqs : T → List T}
    {isNeeded : T → Bool}
    {done before order : List T}
    (hDone : done ⊆ before)
    (hNeeded : order.filter isNeeded ⊆ before)
    (hOrder : respects prereqs done order = true) :
    respects prereqs before
      (order.filter (fun target => !isNeeded target)) =
        true := by
  induction order generalizing done before with
  | nil => rfl
  | cons target order ih =>
      unfold respects at hOrder
      rw [Bool.and_eq_true, List.all_eq_true] at hOrder
      simp only [decide_eq_true_eq] at hOrder
      cases hTarget : isNeeded target with
      | true =>
          rw [List.filter_cons_of_pos hTarget] at hNeeded
          rw [List.filter_cons_of_neg (by simp [hTarget])]
          refine ih ?_ ?_ hOrder.2
          · exact List.cons_subset.mpr
              ⟨hNeeded List.mem_cons_self, hDone⟩
          · exact fun p hp =>
              hNeeded (List.mem_cons_of_mem target hp)
      | false =>
          rw [List.filter_cons_of_neg (by simp [hTarget])]
            at hNeeded
          rw [List.filter_cons_of_pos (by simp [hTarget])]
          unfold respects
          rw [Bool.and_eq_true, List.all_eq_true]
          refine ⟨?_, ih ?_ ?_ hOrder.2⟩
          · intro p hp
            rw [decide_eq_true_eq]
            exact hDone (hOrder.1 p hp)
          · exact List.cons_subset_cons target hDone
          · exact fun p hp =>
              List.mem_cons_of_mem target (hNeeded hp)

/- What a target of an order needs is before it. -/
theorem mem_before_of_respects
    {prereqs : T → List T}
    {order before after : List T}
    {target p : T}
    (hOrder : respects prereqs [] order = true)
    (hPlace : order = before ++ target :: after)
    (hNeeds : Relation.TransGen
      (fun target p => p ∈ prereqs target) target p) :
    p ∈ before := by
  have hStep : ∀ {first second : List T} {other q : T},
      order = first ++ other :: second →
      q ∈ prereqs other → q ∈ first := by
    intro first second other q hOther hq
    rcases respects_iff.mp hOrder first other second hOther
        q hq with hMem | hMem
    · exact hMem
    · cases hMem
  induction hNeeds with
  | single hLast => exact hStep hPlace hLast
  | @tail between last _ hLast ih =>
      rcases List.append_of_mem ih with ⟨first, second, rfl⟩
      have hBetween : order = first ++
          between :: (second ++ target :: after) := by
        rw [hPlace]
        exact List.append_assoc _ _ _
      exact List.mem_append_left _ (hStep hBetween hLast)

/- No target of an order needs itself. -/
theorem acyclic_of_respects
    {prereqs : T → List T}
    {order : List T}
    {target : T}
    (hOrder : respects prereqs [] order = true)
    (hMem : target ∈ order) :
    ¬ Relation.TransGen
      (fun target p => p ∈ prereqs target) target target := by
  intro hCycle
  -- The first place of the target has it in front.
  rcases List.eq_append_cons_of_mem hMem with
    ⟨before, after, hPlace, hFirst⟩
  exact hFirst (mem_before_of_respects hOrder hPlace hCycle)

namespace Schedule

variable {prereqs : T → List T} {goal : T}

/- The prerequisites of a target come before it. -/
theorem mem_before_of_prereq
    (schedule : Schedule prereqs goal)
    {before after : List T}
    {target p : T}
    (hOrder : schedule.order = before ++ target :: after)
    (hPrereq : p ∈ prereqs target) :
    p ∈ before := by
  rcases respects_iff.mp schedule.ordered before target after
      hOrder p hPrereq with hMem | hMem
  · exact hMem
  · cases hMem

/- So does all that the target needs. -/
theorem mem_before_of_reaches
    (schedule : Schedule prereqs goal)
    {before after : List T}
    {target p : T}
    (hOrder : schedule.order = before ++ target :: after)
    (hReaches : Reaches prereqs target p)
    (hNe : p ≠ target) :
    p ∈ before := by
  -- Along the path, what is not the target is before it.
  have hPath : p = target ∨ p ∈ before := by
    induction hReaches with
    | refl => exact Or.inl rfl
    | tail hPath hLast ih =>
        next between last =>
          by_cases hSame : between = target
          · subst hSame
            exact Or.inr
              (schedule.mem_before_of_prereq hOrder hLast)
          · have hBetween := (ih hSame).resolve_left hSame
            rcases List.append_of_mem hBetween with
              ⟨first, second, rfl⟩
            have hPlace : schedule.order = first ++
                between :: (second ++ target :: after) := by
              rw [hOrder]
              simp
            exact Or.inr (List.mem_append_left _
              (schedule.mem_before_of_prereq hPlace hLast))
  exact hPath.resolve_left hNe

/-
  The targets that one target needs may come first: the
  others keep their order after them.
-/
theorem exists_first
    (schedule : Schedule prereqs goal)
    (first : T) :
    ∃ (other : Schedule prereqs goal) (needed rest : List T),
      other.order = needed ++ rest ∧
      (∀ target, target ∈ other.order ↔
        target ∈ schedule.order) ∧
      (∀ target, target ∈ needed ↔
        target ∈ schedule.order ∧
          Reaches prereqs first target) := by
  classical
  let isNeeded : T → Bool :=
    fun target => Reaches prereqs first target
  let needed := schedule.order.filter isNeeded
  let rest := schedule.order.filter (fun t => !isNeeded t)
  have hMemNeeded : ∀ target, target ∈ needed ↔
      target ∈ schedule.order ∧
        Reaches prereqs first target := by
    intro target
    simp [needed, isNeeded]
  have hMemRest : ∀ target, target ∈ rest ↔
      target ∈ schedule.order ∧
        ¬ Reaches prereqs first target := by
    intro target
    simp [rest, isNeeded]
  have hMem : ∀ target, target ∈ needed ++ rest ↔
      target ∈ schedule.order := by
    intro target
    rw [List.mem_append, hMemNeeded, hMemRest]
    tauto
  have hClosed : ∀ target, isNeeded target = true →
      ∀ p ∈ prereqs target, isNeeded p = true := by
    intro target hTarget p hp
    simp only [isNeeded, decide_eq_true_eq] at hTarget ⊢
    exact hTarget.tail hp
  have hOrdered :
      respects prereqs [] (needed ++ rest) = true := by
    rw [respects_append, Bool.and_eq_true]
    constructor
    · exact respects_filter hClosed schedule.ordered
    · have hNeeded : schedule.order.filter isNeeded ⊆
          needed.reverse ++ [] := by
        intro target hTarget
        simpa [needed] using hTarget
      exact respects_filter_rest (List.nil_subset _) hNeeded
        schedule.ordered
  have hNodup : (needed ++ rest).Nodup := by
    rw [List.nodup_append]
    refine ⟨schedule.nodup.filter _,
      schedule.nodup.filter _, ?_⟩
    rintro target hIn _ hOut rfl
    exact ((hMemRest target).mp hOut).2
      ((hMemNeeded target).mp hIn).2
  exact
    ⟨{ order := needed ++ rest
       nodup := hNodup
       goal_mem := (hMem goal).mpr schedule.goal_mem
       ordered := hOrdered
       needed := by
        intro target hTarget
        rcases schedule.needed target
            ((hMem target).mp hTarget) with hGoal | hOther
        · exact Or.inl hGoal
        · rcases hOther with ⟨other, hIn, hPrereq⟩
          exact Or.inr ⟨other, (hMem other).mpr hIn, hPrereq⟩ },
      needed, rest, rfl, hMem, hMemNeeded⟩

end Schedule

end Mkrootfs
