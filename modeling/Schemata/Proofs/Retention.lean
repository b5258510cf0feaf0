import Schemata.Proofs.DefinitionOrder

/-!
# Which definitions the order keeps

Several definitions may have one name. A round of the ordering takes all definitions that are ready,
and afterwards no definition of a taken name is pending. So a definition is lost when another one of
its name is ready before it is: it is `Overtaken`. `rounds_split` says that the rounds keep exactly
the definitions that are not overtaken, and `order_keeps_all_iff` that the order of compiled
declarations is a permutation of them exactly when none is.
-/

namespace Schemata.Order

open List

variable {α κ : Type} [DecidableEq κ] (name : α → κ) (uses : α → List κ) (items : List α)

/-- Whether a definition is taken in the round after some names were taken. -/
def isNext (taken : List κ) (item : α) : Bool :=
  name item ∉ taken && isReady name uses (items.map name) taken item

/-- The names that are taken after so many rounds. -/
def takenAfter : Nat → List κ
  | 0 => []
  | more + 1 =>
    takenAfter more ++ (items.filter (isNext name uses items (takenAfter more))).map name

/-- The definitions that are pending after so many rounds. -/
def pendingAfter (round : Nat) : List α :=
  items.filter fun item => name item ∉ takenAfter name uses items round

/-- After so many rounds, another definition of the same name is taken before this one is ready. -/
def OvertakenAt (round : Nat) (item : α) : Prop :=
  name item ∉ takenAfter name uses items round ∧
    isNext name uses items (takenAfter name uses items round) item = false ∧
    ∃ other ∈ items, name other = name item ∧
      isNext name uses items (takenAfter name uses items round) other = true

/-- Another definition of the same name is ready before this one. -/
def Overtaken (item : α) : Prop :=
  ∃ round, OvertakenAt name uses items round item

variable {name uses items} {round later : Nat} {x : α}

/-- What was taken stays taken. -/
theorem taken_after_mono (h : round ≤ later) :
    takenAfter name uses items round ⊆ takenAfter name uses items later := by
  induction h with
  | refl => exact List.Subset.refl _
  | step _ ih => exact subset_append_of_subset_left _ ih

/-- A definition that is taken in a round has a taken name after it. -/
theorem mem_taken_succ (hx : x ∈ items)
    (h : isNext name uses items (takenAfter name uses items round) x = true) :
    name x ∈ takenAfter name uses items (round + 1) :=
  mem_append_right _ (mem_map_of_mem (mem_filter.2 ⟨hx, h⟩))

/-- After a round that takes nothing, nothing more is taken. -/
theorem taken_after_stays
    (h : items.filter (isNext name uses items (takenAfter name uses items round)) = [])
    (hlater : round ≤ later) :
    takenAfter name uses items later = takenAfter name uses items round := by
  induction hlater with
  | refl => rfl
  | step _ ih => rw [takenAfter, ih, h, map_nil, append_nil]

/-- The definitions that are ready among the pending ones are taken next. -/
theorem filter_ready_pending (round : Nat) :
    (pendingAfter name uses items round).filter
        (isReady name uses (items.map name) (takenAfter name uses items round)) =
      items.filter (isNext name uses items (takenAfter name uses items round)) := by
  rw [pendingAfter, filter_filter]
  exact filter_congr fun x _ => Bool.and_comm _ _

/-- The definitions that are pending after a round were pending before it. -/
theorem filter_pending_succ (round : Nat) :
    (pendingAfter name uses items round).filter
        (fun x => name x ∉ takenAfter name uses items (round + 1)) =
      pendingAfter name uses items (round + 1) := by
  rw [pendingAfter, filter_filter]
  refine filter_congr fun x _ => ?_
  have hmono : name x ∈ takenAfter name uses items round →
      name x ∈ takenAfter name uses items (round + 1) := fun h =>
    taken_after_mono (Nat.le_succ round) h
  by_cases h : name x ∈ takenAfter name uses items (round + 1)
  · simp [h]
  · simp [h, mt hmono h]

/-- An overtaken definition has a taken name after the round. -/
theorem OvertakenAt.mem_taken (h : OvertakenAt name uses items round x) :
    name x ∈ takenAfter name uses items (round + 1) := by
  obtain ⟨-, -, other, hother, hsame, hnext⟩ := h
  exact hsame ▸ mem_taken_succ hother hnext

/-- A definition that is taken in a round is overtaken in none. -/
theorem not_overtaken_of_next (hx : x ∈ items)
    (h : isNext name uses items (takenAfter name uses items round) x = true) :
    ¬Overtaken name uses items x := by
  rintro ⟨other, hover⟩
  rcases Nat.lt_trichotomy other round with hlt | rfl | hlt
  · have hnew : name x ∉ takenAfter name uses items round :=
      of_decide_eq_true (Bool.and_eq_true_iff.1 h).1
    exact hnew (taken_after_mono hlt hover.mem_taken)
  · rw [hover.2.1] at h
    cases h
  · exact hover.1 (taken_after_mono hlt (mem_taken_succ hx h))

/-- What a round makes of the pending definitions: some are taken, some are lost because another one
of their name is taken, and the others stay pending. -/
theorem round_split (round : Nat) :
    ∃ lost,
      (items.filter (isNext name uses items (takenAfter name uses items round)) ++ lost ++
        pendingAfter name uses items (round + 1)).Perm (pendingAfter name uses items round) ∧
      ∀ x ∈ lost, OvertakenAt name uses items round x := by
  let taken := takenAfter name uses items round
  let waiting := (pendingAfter name uses items round).filter
    fun x => !isReady name uses (items.map name) taken x
  refine ⟨waiting.filter fun x => name x ∈ takenAfter name uses items (round + 1), ?_, ?_⟩
  · -- Those that are still pending after the round were not ready in it.
    have hpending : waiting.filter (fun x => !decide
        (name x ∈ takenAfter name uses items (round + 1))) =
        pendingAfter name uses items (round + 1) := by
      rw [← filter_pending_succ, filter_filter]
      refine filter_congr fun x hx => ?_
      obtain ⟨hmem, hnew⟩ := mem_filter.1 hx
      by_cases hready : isReady name uses (items.map name) taken x = true
      · have hnext : isNext name uses items taken x = true := by
          rw [isNext, hready, Bool.and_true]
          exact hnew
        simp [mem_taken_succ hmem hnext]
      · simp [hready]
    rw [← filter_ready_pending, append_assoc, ← hpending]
    exact ((filter_append_perm _ waiting).append_left _).trans (filter_append_perm _ _)
  · intro x hx
    obtain ⟨hwaiting, htaken⟩ := mem_filter.1 hx
    obtain ⟨hpending, hready⟩ := mem_filter.1 hwaiting
    have hnew := of_decide_eq_true (mem_filter.1 hpending).2
    have hwaits : isReady name uses (items.map name) taken x = false := by simpa using hready
    refine ⟨hnew, by rw [isNext, hwaits, Bool.and_false], ?_⟩
    rcases mem_append.1 (of_decide_eq_true htaken) with hold | hnext
    · exact (hnew hold).elim
    · obtain ⟨other, hother, hsame⟩ := mem_map.1 hnext
      obtain ⟨hmem, hnext⟩ := mem_filter.1 hother
      exact ⟨other, hmem, hsame, hnext⟩

/-- What one round loses can be told apart from what later ones lose. -/
theorem perm_of_split {taken rest left lost later : List α} :
    (taken ++ rest ++ left ++ (lost ++ later)).Perm (taken ++ lost ++ (rest ++ left ++ later)) := by
  simp only [append_assoc]
  rw [← append_assoc rest, ← append_assoc rest]
  exact (perm_append_comm_assoc (rest ++ left) lost later).append_left _

/-- A round is followed by the others, unless it takes nothing. -/
theorem rounds_succ (name : α → κ) (uses : α → List κ) (xs : List α) (more round : Nat) :
    rounds name uses (xs.map name) (more + 1) (takenAfter name uses xs round)
        (pendingAfter name uses xs round) =
      if (xs.filter (isNext name uses xs (takenAfter name uses xs round))).isEmpty then
        ([], pendingAfter name uses xs round)
      else
        let rest := rounds name uses (xs.map name) more (takenAfter name uses xs (round + 1))
          (pendingAfter name uses xs (round + 1))
        (xs.filter (isNext name uses xs (takenAfter name uses xs round)) ++ rest.1, rest.2) := by
  have hothers := @filter_pending_succ _ _ _ name uses xs round
  rw [takenAfter] at hothers
  rw [rounds, filter_ready_pending]
  dsimp only
  rw [hothers]
  rfl

/-- A round that takes something leaves fewer definitions pending. -/
theorem pending_succ_lt
    (hsome : (items.filter (isNext name uses items (takenAfter name uses items round))).isEmpty ≠
      true) :
    (pendingAfter name uses items (round + 1)).length <
      (pendingAfter name uses items round).length := by
  obtain ⟨lost, hround, -⟩ := @round_split _ _ _ name uses items round
  have hsum := hround.length_eq
  have hpos := length_pos_of_ne_nil fun h => hsome (List.isEmpty_iff.2 h)
  simp only [length_append] at hsum
  omega

/-- From a round on, the definitions that are pending are kept or lost, and those that are lost are
the overtaken ones. -/
theorem rounds_split {more : Nat} (hmore : (pendingAfter name uses items round).length ≤ more)
    {ordered left : List α}
    (h : rounds name uses (items.map name) more (takenAfter name uses items round)
      (pendingAfter name uses items round) = (ordered, left)) :
    ∃ lost, (ordered ++ left ++ lost).Perm (pendingAfter name uses items round) ∧
      (∀ x ∈ lost, Overtaken name uses items x) ∧
      ∀ x ∈ ordered ++ left, ∀ later, round ≤ later → ¬OvertakenAt name uses items later x := by
  induction more generalizing round ordered left with
  | zero =>
    cases h
    rw [length_eq_zero_iff.1 (Nat.le_zero.1 hmore)]
    exact ⟨[], .refl _, by simp, by simp⟩
  | succ more ih =>
    rw [rounds_succ] at h
    split at h
    · rename_i hnone
      cases h
      refine ⟨[], by simp, by simp, ?_⟩
      rintro x - later hlater ⟨-, -, other, hother, -, hnext⟩
      rw [taken_after_stays (List.isEmpty_iff.1 hnone) hlater] at hnext
      have hmem := mem_filter.2 ⟨hother, hnext⟩
      rw [List.isEmpty_iff.1 hnone] at hmem
      cases hmem
    · rename_i hsome
      cases h
      obtain ⟨lost, hround, hlost⟩ := @round_split _ _ _ name uses items round
      have hfewer := pending_succ_lt hsome
      have hlen : (pendingAfter name uses items (round + 1)).length ≤ more := by omega
      obtain ⟨lost', hperm, hlost', hkept⟩ := ih hlen rfl
      refine ⟨lost ++ lost', ?_, ?_, ?_⟩
      · exact perm_of_split.trans ((hperm.append_left _).trans hround)
      · intro x hx
        rcases mem_append.1 hx with hx | hx
        · exact ⟨round, hlost x hx⟩
        · exact hlost' x hx
      · intro x hx later hlater
        rw [append_assoc] at hx
        rcases mem_append.1 hx with hx | hx
        · obtain ⟨hmem, hnext⟩ := mem_filter.1 hx
          exact fun hover => not_overtaken_of_next hmem hnext ⟨later, hover⟩
        · rcases Nat.eq_or_lt_of_le hlater with rfl | hlt
          · have hpending := hperm.subset (mem_append_left _ hx)
            have hnew := of_decide_eq_true (mem_filter.1 hpending).2
            exact fun hover => hnew hover.mem_taken
          · exact hkept x hx later hlt

/-- Before the first round, all definitions are pending. -/
theorem pending_zero (name : α → κ) (uses : α → List κ) (xs : List α) :
    pendingAfter name uses xs 0 = xs := by
  simp [pendingAfter, takenAfter]

/-- The order of definitions keeps exactly those that are not overtaken. -/
theorem order_split (name : α → κ) (uses : α → List κ) (xs : List α) :
    ∃ lost, ((order name uses xs).1 ++ lost).Perm xs ∧ (∀ x ∈ lost, Overtaken name uses xs x) ∧
      ∀ x ∈ (order name uses xs).1, ¬Overtaken name uses xs x := by
  have hstart := pending_zero name uses xs
  cases hrounds : rounds name uses (xs.map name) xs.length [] xs with
  | mk ordered left =>
    have hres : (order name uses xs).1 = ordered ++ left := by rw [order, hrounds]
    obtain ⟨lost, hperm, hlost, hkept⟩ := @rounds_split _ _ _ name uses xs 0 xs.length
      (by rw [hstart]) ordered left (by rw [hstart]; exact hrounds)
    rw [hstart] at hperm
    rw [hres]
    exact ⟨lost, hperm, hlost, fun x hx ⟨round, h⟩ =>
      hkept x hx round (Nat.zero_le _) h⟩

/-- A definition that uses the same names as all others of its name is not overtaken. -/
theorem not_overtaken_of_same_uses
    (h : ∀ other ∈ items, name other = name x → uses other = uses x) :
    ¬Overtaken name uses items x := by
  rintro ⟨round, -, hwaits, other, hother, hsame, hnext⟩
  simp only [isNext, isReady, hsame, h other hother hsame] at hnext hwaits
  rw [hnext] at hwaits
  cases hwaits

/-- Of the name of every definition, one is kept. -/
theorem exists_kept (hx : x ∈ items) :
    ∃ kept ∈ items, name kept = name x ∧ ¬Overtaken name uses items kept := by
  by_cases h : Overtaken name uses items x
  · obtain ⟨round, -, -, other, hother, hsame, hnext⟩ := h
    exact ⟨other, hother, hsame, not_overtaken_of_next hother hnext⟩
  · exact ⟨x, hx, rfl, h⟩

end Schemata.Order

namespace Schemata

variable {compiled : List Compiled} {keyed : List Keyed}

/-- The order of compiled declarations, of which several may have one schema name, holds no
declaration more often than it was given, and every schema name. It is a permutation of them exactly
when no declaration is overtaken by another one of its name, as is the case when declarations of one
name use the same names. -/
theorem order_keeps_all_iff (hkeyed : compiled.mapM Keyed.of = .ok keyed) :
    ∃ ordered cycles, orderCompiled compiled = .ok (ordered, cycles) ∧
      ordered.Subperm compiled ∧
      (∀ declared ∈ compiled, ∃ kept ∈ ordered,
        kept.schemaName.key? = declared.schemaName.key?) ∧
      (ordered.Perm compiled ↔ ∀ item ∈ keyed, ¬Order.Overtaken Keyed.key Keyed.uses keyed item) ∧
      ((∀ first ∈ keyed, ∀ second ∈ keyed, first.key = second.key → first.uses = second.uses) →
        ordered.Perm compiled) := by
  obtain ⟨hcompiled, hright⟩ := keyed_of_mapM hkeyed
  obtain ⟨lost, hperm, hlost, hkept⟩ := Order.order_split Keyed.key Keyed.uses keyed
  cases hresult : Order.order Keyed.key Keyed.uses keyed with
  | mk ordered cycles =>
    rw [hresult] at hperm hkept
    have hmapped : (ordered.map Keyed.compiled ++ lost.map Keyed.compiled).Perm compiled := by
      rw [← List.map_append, ← hcompiled]
      exact hperm.map _
    have hall : (ordered.map Keyed.compiled).Perm compiled ↔
        ∀ item ∈ keyed, ¬Order.Overtaken Keyed.key Keyed.uses keyed item := by
      constructor
      · intro hsame item hitem hover
        -- Nothing is lost where nothing is missing.
        have hlength := hmapped.length_eq
        rw [List.length_append, hsame.length_eq, List.length_map, Nat.add_eq_left] at hlength
        rw [List.length_eq_zero_iff.1 hlength, List.append_nil] at hperm
        exact hkept item (hperm.mem_iff.2 hitem) hover
      · intro hnone
        have hempty : lost = [] := List.eq_nil_iff_forall_not_mem.2 fun item hitem =>
          hnone item (hperm.subset (List.mem_append_right _ hitem)) (hlost item hitem)
        simpa [hempty] using hmapped
    refine ⟨ordered.map Keyed.compiled, cycles, ?_, ?_, ?_, hall, fun hsame => ?_⟩
    · rw [orderCompiled, hkeyed]
      simp only [bind, Except.bind, hresult]
      rfl
    · exact (List.sublist_append_left _ _).subperm.trans hmapped.subperm
    · intro declared hdeclared
      rw [← hcompiled] at hdeclared
      obtain ⟨item, hitem, rfl⟩ := List.mem_map.1 hdeclared
      obtain ⟨kept, hmem, hname, hover⟩ :=
        @Order.exists_kept _ _ _ Keyed.key Keyed.uses keyed item hitem
      refine ⟨kept.compiled, List.mem_map_of_mem ?_, ?_⟩
      · rcases List.mem_append.1 (hperm.mem_iff.2 hmem) with hmem | hmem
        · exact hmem
        · exact (hover (hlost kept hmem)).elim
      · rw [(hright kept hmem).key, (hright item hitem).key, hname]
    · exact hall.2 fun item hitem => Order.not_overtaken_of_same_uses fun other hother =>
        hsame other hother item hitem

/-- The interfaces `interface Pet { name: string }`, `interface Owner { name: string }` and between
them a second `interface Pet`, of one member. Schemas have the names of their types. -/
def mergedPets (second : TypeExpr) : Program where
  unit := ⟨.null, [
      .interface ⟨.str "Pet", [], true, [], [],
        [⟨"name", some (.keyword .string), false, false, []⟩], none⟩,
      .interface ⟨.str "Pet", [], true, [], [], [⟨"more", some second, false, false, []⟩], none⟩,
      .interface ⟨.str "Owner", [], true, [], [], [⟨"name", some (.keyword .string), false, false,
        []⟩], none⟩], []⟩
  settings := { Settings.default with schemaName := some id }

/-- Both interfaces of one name are kept when they use the same names. -/
theorem merged_pets_kept :
    ∃ compiled ordered cycles,
      (mergedPets (.keyword .number)).compileAll.result = .ok (compiled, []) ∧
      compiled.length = 3 ∧ orderCompiled compiled = .ok (ordered, cycles) ∧
      ordered.Perm compiled := by
  have hkeyed : ∃ compiled keyed,
      (mergedPets (.keyword .number)).compileAll.result = .ok (compiled, []) ∧
      compiled.length = 3 ∧ compiled.mapM Keyed.of = .ok keyed ∧
      ∀ item ∈ keyed, item.uses = [] :=
    ⟨_, _, rfl, rfl, rfl, by decide⟩
  obtain ⟨compiled, keyed, hcompiled, hlength, hkeyed, huses⟩ := hkeyed
  obtain ⟨ordered, cycles, hordered, -, -, -, hperm⟩ := order_keeps_all_iff hkeyed
  refine ⟨compiled, ordered, cycles, hcompiled, hlength, hordered, hperm ?_⟩
  exact fun first hfirst second hsecond _ => (huses first hfirst).trans (huses second hsecond).symm

/-- An interface that uses another one is lost when an interface of its name does not. -/
theorem merged_pet_lost :
    ∃ compiled ordered,
      (mergedPets (.reference (.str "Owner") [])).compileAll.result = .ok (compiled, []) ∧
      orderCompiled compiled = .ok (ordered, []) ∧
      compiled.map Compiled.schemaName = [.str "Pet", .str "Pet", .str "Owner"] ∧
      ordered.map Compiled.schemaName = [.str "Pet", .str "Owner"] ∧
      ¬ordered.Perm compiled := by
  refine ⟨_, _, rfl, rfl, rfl, rfl, fun h => ?_⟩
  exact absurd h.length_eq (by decide)

end Schemata
