import Mathlib.Data.Fintype.Pigeonhole
import Mathlib.Data.Set.Finite.Basic
import Mathlib.Logic.Relation
import Mathlib.Order.Interval.Finset.Nat
import Schemata.Order

/-!
# What the order of definitions guarantees

`rounds_ordered` says what rounds achieve when names are distinct: nothing is lost, what is taken
uses only names that were taken before it, and what is left waits for something that is left. A
position `ReachesCycle` when a cycle of uses can be reached from it. `final_block_iff` says that the
positions from which a cycle can be reached are those after a certain one, if before it all uses
lead back and after it every position has a use that stays there.
-/

namespace Schemata.Order

open List

section Rounds

variable {α κ : Type} [DecidableEq κ] (name : α → κ) (uses : α → List κ)

/-- What rounds that have taken some names make of the definitions that are pending. -/
structure Ordered (defined taken : List κ) (pending ordered left : List α) : Prop where
  perm : (ordered ++ left).Perm pending
  /-- What is taken uses what was taken before it, what is not defined, or itself. -/
  ready : ∀ place item, ordered[place]? = some item → ∀ used ∈ uses item,
    used ∈ taken ∨ used ∈ (ordered.take place).map name ∨ used ∉ defined ∨ used = name item
  /-- What is left uses something else that is defined and not taken. -/
  waits : ∀ item ∈ left, ∃ used ∈ uses item,
    used ∈ defined ∧ used ∉ taken ∧ used ∉ ordered.map name ∧ used ≠ name item

variable {name uses} {defined taken : List κ} {pending : List α}

/-- A definition is ready when all that it uses was taken, is not defined or is itself. -/
theorem is_ready_iff {x : α} :
    isReady name uses defined taken x = true ↔
      ∀ used ∈ uses x, used ∈ taken ∨ used ∉ defined ∨ used = name x := by
  simp [isReady, or_assoc]

/-- A definition that is not ready uses something else that is defined and not taken. -/
theorem exists_of_not_ready {x : α} (h : isReady name uses defined taken x ≠ true) :
    ∃ used ∈ uses x, used ∈ defined ∧ used ∉ taken ∧ used ≠ name x := by
  rw [Ne, is_ready_iff] at h
  push Not at h
  obtain ⟨used, hused, htaken, hdefined, hself⟩ := h
  exact ⟨used, hused, hdefined, htaken, hself⟩

/-- When names are distinct, what has no taken name after a round is what was not ready. -/
theorem others_eq (hnodup : (pending.map name).Nodup) (hnew : ∀ x ∈ pending, name x ∉ taken) :
    let ready := pending.filter (isReady name uses defined taken)
    pending.filter (fun x => name x ∉ taken ++ ready.map name) =
      pending.filter (fun x => !isReady name uses defined taken x) := by
  intro ready
  refine filter_congr fun x hx => ?_
  have hready : name x ∈ ready.map name ↔ isReady name uses defined taken x = true := by
    constructor
    · intro h
      obtain ⟨other, hother, hsame⟩ := mem_map.1 h
      obtain ⟨hpending, htrue⟩ := mem_filter.1 hother
      exact inj_on_of_nodup_map hnodup hpending hx hsame ▸ htrue
    · intro h
      exact mem_map_of_mem (mem_filter.2 ⟨hx, h⟩)
  simp [hnew x hx, hready]

/-- One round: what comes of the definitions that are not ready comes of all. -/
theorem Ordered.round {ordered left : List α}
    (h : Ordered name uses defined
      (taken ++ (pending.filter (isReady name uses defined taken)).map name)
      (pending.filter (fun x => !isReady name uses defined taken x)) ordered left) :
    Ordered name uses defined taken pending
      (pending.filter (isReady name uses defined taken) ++ ordered) left := by
  refine ⟨?_, ?_, ?_⟩
  · rw [append_assoc]
    exact (h.perm.append_left _).trans (filter_append_perm _ _)
  · intro place x hplace used hused
    rcases Nat.lt_or_ge place (pending.filter (isReady name uses defined taken)).length with
      hlt | hge
    · rw [getElem?_append_left hlt] at hplace
      have hready := (mem_filter.1 (mem_of_getElem? hplace)).2
      rcases is_ready_iff.1 hready used hused with htaken | hother
      · exact .inl htaken
      · exact .inr (.inr hother)
    · rw [getElem?_append_right hge] at hplace
      rw [take_append, take_of_length_le hge, map_append, mem_append]
      rcases h.ready _ x hplace used hused with htaken | hother
      · rcases mem_append.1 htaken with htaken | hready
        · exact .inl htaken
        · exact .inr (.inl (.inl hready))
      · rcases hother with hbefore | hother
        · exact .inr (.inl (.inr hbefore))
        · exact .inr (.inr hother)
  · intro x hx
    obtain ⟨used, hused, hdefined, htaken, hordered, hself⟩ := h.waits x hx
    rw [mem_append, not_or] at htaken
    refine ⟨used, hused, hdefined, htaken.1, ?_, hself⟩
    rw [map_append, mem_append, not_or]
    exact ⟨htaken.2, hordered⟩

/-- Rounds order definitions, when names are distinct and there are enough rounds. -/
theorem rounds_ordered {more : Nat} (hmore : pending.length ≤ more)
    (hnodup : (pending.map name).Nodup) (hnew : ∀ x ∈ pending, name x ∉ taken) :
    Ordered name uses defined taken pending (rounds name uses defined more taken pending).1
      (rounds name uses defined more taken pending).2 := by
  induction more generalizing taken pending with
  | zero =>
    cases length_eq_zero_iff.1 (Nat.le_zero.1 hmore)
    exact ⟨.refl _, by simp [rounds], by simp [rounds]⟩
  | succ more ih =>
    rw [rounds]
    dsimp only
    split
    · rename_i hready
      refine ⟨.refl _, by simp, fun x hx => ?_⟩
      have hnone : isReady name uses defined taken x ≠ true := by
        intro htrue
        have hmem := mem_filter.2 ⟨hx, htrue⟩
        rw [List.isEmpty_iff.1 hready] at hmem
        cases hmem
      obtain ⟨used, hused, hdefined, htaken, hself⟩ := exists_of_not_ready hnone
      exact ⟨used, hused, hdefined, htaken, by simp, hself⟩
    · rename_i hready
      -- A round takes at least one definition, so the other rounds are enough for the others.
      have hlen : (pending.filter fun x => !isReady name uses defined taken x).length ≤ more := by
        have hsplit := (filter_append_perm (isReady name uses defined taken) pending).length_eq
        have hsome := length_pos_of_ne_nil fun h => hready (List.isEmpty_iff.2 h)
        rw [length_append] at hsplit
        omega
      have hothers := @others_eq _ _ _ name uses defined taken pending hnodup hnew
      rw [hothers]
      refine Ordered.round (ih hlen ?_ ?_)
      · exact hnodup.sublist (filter_sublist.map name)
      · intro x hx
        rw [← hothers] at hx
        exact of_decide_eq_true (mem_filter.1 hx).2

end Rounds

section Cycles

variable {ι : Type}

/-- A cycle can be reached from a position, by steps that lead from one position to another. -/
def ReachesCycle (step : Nat → Nat → Prop) (position : Nat) : Prop :=
  ∃ turn, Relation.ReflTransGen step position turn ∧ Relation.TransGen step turn turn

variable {step : Nat → Nat → Prop} {start count : Nat}

/-- Steps that lead back stay in front, and lead back on the whole way. -/
theorem lt_of_steps_back (hback : ∀ position < start, ∀ next, step position next → next < position)
    {a last : Nat} (ha : a < start) (h : Relation.TransGen step a last) : last < a := by
  induction h with
  | single hstep => exact hback a ha _ hstep
  | tail hsteps hstep ih =>
    have hlast := hback _ (Nat.lt_trans ih ha) _ hstep
    omega

/-- No cycle can be reached where steps lead back. -/
theorem not_reaches_cycle_of_back
    (hback : ∀ position < start, ∀ next, step position next → next < position)
    {position : Nat} (hposition : position < start) : ¬ReachesCycle step position := by
  rintro ⟨turn, hreach, hcycle⟩
  have hturn : turn < start := by
    rcases Relation.reflTransGen_iff_eq_or_transGen.1 hreach with rfl | hsteps
    · exact hposition
    · exact Nat.lt_trans (lt_of_steps_back hback hposition hsteps) hposition
  exact Nat.lt_irrefl turn (lt_of_steps_back hback hturn hcycle)

/-- An endless walk on finitely many places comes back to one of them. -/
theorem exists_return [Finite ι] (walk : ι → ι) (a : ι) :
    ∃ early more, walk^[more + 1] (walk^[early] a) = walk^[early] a := by
  obtain ⟨early, late, hne, hsame⟩ := Finite.exists_ne_map_eq_of_infinite fun more : Nat =>
    walk^[more] a
  wlog hlt : early < late generalizing early late
  · exact this late early hne.symm hsame.symm (by omega)
  refine ⟨early, late - early - 1, ?_⟩
  rw [← Function.iterate_add_apply, show late - early - 1 + 1 + early = late by omega]
  exact hsame.symm

/-- Where steps need not leave finitely many places, a cycle can be reached. -/
theorem exists_cycle_of_stay {step : ι → ι → Prop} {inside : Set ι} (hfinite : inside.Finite)
    (hstay : ∀ place ∈ inside, ∃ next ∈ inside, step place next) {a : ι} (ha : a ∈ inside) :
    ∃ turn, Relation.ReflTransGen step a turn ∧ Relation.TransGen step turn turn := by
  have := hfinite.to_subtype
  -- The walk takes one of the steps that stay at each of its places.
  have hnext (place : inside) : ∃ next : inside, step place.1 next.1 := by
    obtain ⟨next, hinside, hstep⟩ := hstay place.1 place.2
    exact ⟨⟨next, hinside⟩, hstep⟩
  choose walk hwalk using hnext
  have hsteps (place : inside) (more : Nat) :
      Relation.ReflTransGen step place.1 (walk^[more] place).1 := by
    induction more with
    | zero => exact .refl
    | succ more ih =>
      rw [Function.iterate_succ_apply']
      exact ih.tail (hwalk _)
  obtain ⟨early, more, hreturn⟩ := exists_return walk ⟨a, ha⟩
  refine ⟨_, hsteps ⟨a, ha⟩ early, ?_⟩
  have hcycle := Relation.TransGen.tail' (hsteps (walk^[early] ⟨a, ha⟩) more) (hwalk _)
  rwa [← Function.iterate_succ_apply' walk, hreturn] at hcycle

/-- Where every position has a step that stays, a cycle can be reached. -/
theorem reaches_cycle_of_stay
    (hstay : ∀ position, start ≤ position → position < count →
      ∃ next, step position next ∧ start ≤ next ∧ next < count)
    {position : Nat} (hstart : start ≤ position) (hcount : position < count) :
    ReachesCycle step position := by
  refine exists_cycle_of_stay (Set.finite_Ico start count) ?_ ⟨hstart, hcount⟩
  rintro place ⟨hge, hlt⟩
  obtain ⟨next, hstep, hinside⟩ := hstay place hge hlt
  exact ⟨next, hinside, hstep⟩

/-- The positions from which a cycle can be reached are a block at the end. -/
theorem final_block_iff (hback : ∀ position < start, ∀ next, step position next → next < position)
    (hstay : ∀ position, start ≤ position → position < count →
      ∃ next, step position next ∧ start ≤ next ∧ next < count)
    {position : Nat} (hposition : position < count) :
    start ≤ position ↔ ReachesCycle step position := by
  constructor
  · exact fun hstart => reaches_cycle_of_stay hstay hstart hposition
  · intro hcycle
    by_contra hlt
    exact not_reaches_cycle_of_back hback (Nat.lt_of_not_le hlt) hcycle

end Cycles

end Schemata.Order
