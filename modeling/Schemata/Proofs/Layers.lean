import Schemata.Proofs.Retention

/-!
# The round in which a definition is taken

When names are distinct, a definition is taken in the round that is the length of its longest path
of uses, `next_iff_longest_path`, and a definition is never taken exactly when it is `Caught`: when
a cycle of uses can be reached from it. So the order is known exactly, `order_layers`: first the
definitions that are not caught, by the lengths of their longest paths, and then the others, each
time in the order in which they were given.
-/

namespace Schemata.Order

variable {steps : Nat}

section Paths

variable {α κ : Type} (name : α → κ) (uses : α → List κ) (items : List α)

/-- One definition uses another one. -/
structure Depends (user used : α) : Prop where
  user_mem : user ∈ items
  used_mem : used ∈ items
  uses : name used ∈ uses user
  other : name used ≠ name user

/-- A path of so many uses starts at a definition. -/
def HasPath : Nat → α → Prop
  | 0, _ => True
  | more + 1, item => ∃ used, Depends name uses items item used ∧ HasPath more used

/-- The longest path of uses that starts at a definition has so many steps. -/
structure LongestPath (item : α) (steps : Nat) : Prop where
  path : HasPath name uses items steps item
  longest : ∀ other, HasPath name uses items other item → other ≤ steps

/-- A cycle of uses can be reached from a definition. -/
def Caught (item : α) : Prop :=
  ∃ turn, Relation.ReflTransGen (Depends name uses items) item turn ∧
    Relation.TransGen (Depends name uses items) turn turn

/-- One definition has a shorter longest path than another one, or one of the same length and stands
before it. -/
def Before (first second : α) : Prop :=
  ∃ steps more, LongestPath name uses items first steps ∧ LongestPath name uses items second more ∧
    (steps < more ∨ steps = more ∧ [first, second].Sublist items)

variable {name uses items} {x : α}

/-- A path can be cut short. -/
theorem HasPath.of_le {fewer : Nat} (h : HasPath name uses items steps x) (hle : fewer ≤ steps) :
    HasPath name uses items fewer x := by
  induction fewer generalizing steps x with
  | zero => trivial
  | succ fewer ih =>
    cases steps with
    | zero => omega
    | succ =>
      obtain ⟨used, hused, hpath⟩ := h
      exact ⟨used, hused, ih hpath (by omega)⟩

/-- A path is longest when it is one step too long for another. -/
theorem longest_path_iff :
    LongestPath name uses items x steps ↔
      HasPath name uses items steps x ∧ ¬HasPath name uses items (steps + 1) x := by
  constructor
  · rintro ⟨hpath, hlongest⟩
    exact ⟨hpath, fun hmore => absurd (hlongest _ hmore) (by omega)⟩
  · rintro ⟨hpath, hmore⟩
    refine ⟨hpath, fun other hother => ?_⟩
    by_contra hlt
    exact hmore (hother.of_le (by omega))

/-- A path can be made longer at its start. -/
theorem HasPath.of_steps {last : α} (h : Relation.ReflTransGen (Depends name uses items) x last)
    (hpath : HasPath name uses items steps last) : HasPath name uses items steps x := by
  induction h using Relation.ReflTransGen.head_induction_on with
  | refl => exact hpath
  | head hstep _ ih =>
    have hlonger : HasPath name uses items (steps + 1) _ := ⟨_, hstep, ih⟩
    exact hlonger.of_le (Nat.le_succ steps)

/-- From a cycle there are paths of all lengths. -/
theorem HasPath.of_cycle (h : Relation.TransGen (Depends name uses items) x x)
    (steps : Nat) : HasPath name uses items steps x := by
  induction steps with
  | zero => trivial
  | succ steps ih =>
    obtain ⟨used, hused, hback⟩ := Relation.TransGen.head'_iff.1 h
    exact ⟨used, hused, ih.of_steps hback⟩

/-- There is a length that no definition without a path of some length has a path of. -/
theorem exists_path_bound (name : α → κ) (uses : α → List κ) (xs candidates : List α) :
    ∃ bound, ∀ x ∈ candidates, HasPath name uses xs bound x →
      ∀ steps, HasPath name uses xs steps x := by
  induction candidates with
  | nil => exact ⟨0, fun _ h => by cases h⟩
  | cons a rest ih =>
    obtain ⟨bound, hbound⟩ := ih
    by_cases ha : ∀ steps, HasPath name uses xs steps a
    · refine ⟨bound, fun x hx hpath => ?_⟩
      rcases List.mem_cons.1 hx with rfl | hx
      · exact ha
      · exact hbound x hx hpath
    · push Not at ha
      obtain ⟨short, hshort⟩ := ha
      refine ⟨max bound short, fun x hx hpath => ?_⟩
      rcases List.mem_cons.1 hx with rfl | hx
      · exact (hshort (hpath.of_le (Nat.le_max_right _ _))).elim
      · exact hbound x hx (hpath.of_le (Nat.le_max_left _ _))

/-- A definition with paths of all lengths uses another one of that kind. -/
theorem exists_endless_use (h : ∀ steps, HasPath name uses items steps x) :
    ∃ used, Depends name uses items x used ∧ ∀ steps, HasPath name uses items steps used := by
  obtain ⟨bound, hbound⟩ := exists_path_bound name uses items items
  obtain ⟨used, hused, hpath⟩ := h (bound + 1)
  exact ⟨used, hused, hbound used hused.used_mem hpath⟩

/-- Among finitely many definitions, a cycle can be reached where paths of all lengths start. -/
theorem caught_iff_endless :
    Caught name uses items x ↔ ∀ steps, HasPath name uses items steps x := by
  constructor
  · rintro ⟨turn, hreach, hcycle⟩ steps
    exact (HasPath.of_cycle hcycle steps).of_steps hreach
  · intro h
    obtain ⟨a, ha, hpaths⟩ := exists_endless_use h
    have hfinite :
        { item ∈ { item | item ∈ items } | ∀ steps, HasPath name uses items steps item }.Finite :=
      (List.finite_toSet items).subset fun other hother => hother.1
    obtain ⟨turn, hreach, hcycle⟩ := exists_cycle_of_stay hfinite (fun other hother => by
      obtain ⟨used, hused, hpaths⟩ := exists_endless_use hother.2
      exact ⟨used, ⟨hused.used_mem, hpaths⟩, hused⟩) ⟨ha.used_mem, hpaths⟩
    exact ⟨turn, .head ha hreach, hcycle⟩

end Paths

section Rounds

variable {α κ : Type} [DecidableEq κ] {name : α → κ} {uses : α → List κ} {xs : List α}
  {round : Nat} {x : α}

/-- A definition that is not taken yet is ready when no path of its uses is one step longer than the
rounds so far, if this is so for all taken names. -/
theorem ready_iff_short
    (htaken : ∀ used ∈ xs,
      name used ∈ takenAfter name uses xs round ↔ ¬HasPath name uses xs round used)
    (hx : x ∈ xs) :
    isReady name uses (xs.map name) (takenAfter name uses xs round) x = true ↔
      ¬HasPath name uses xs (round + 1) x := by
  rw [is_ready_iff]
  constructor
  · rintro hready ⟨used, hused, hpath⟩
    rcases hready (name used) hused.uses with hold | hundefined | hself
    · exact (htaken used hused.used_mem).1 hold hpath
    · exact hundefined (List.mem_map_of_mem hused.used_mem)
    · exact hused.other hself
  · intro hshort key hk
    by_cases hdefined : key ∈ xs.map name
    · obtain ⟨used, hused, rfl⟩ := List.mem_map.1 hdefined
      by_cases hself : name used = name x
      · exact .inr (.inr hself)
      · refine .inl ((htaken used hused).2 fun hpath => hshort ?_)
        exact ⟨used, ⟨hx, hused, hk, hself⟩, hpath⟩
    · exact .inr (.inl hdefined)

variable (hnodup : (xs.map name).Nodup)

include hnodup

/-- When names are distinct, the name of a definition is newly taken in the round in which the
definition is. -/
theorem mem_taken_succ_iff (hx : x ∈ xs) :
    name x ∈ takenAfter name uses xs (round + 1) ↔
      name x ∈ takenAfter name uses xs round ∨
        isNext name uses xs (takenAfter name uses xs round) x = true := by
  rw [takenAfter, List.mem_append]
  refine or_congr_right ⟨fun h => ?_, fun h => List.mem_map_of_mem (List.mem_filter.2 ⟨hx, h⟩)⟩
  obtain ⟨other, hother, hsame⟩ := List.mem_map.1 h
  obtain ⟨hmem, hnext⟩ := List.mem_filter.1 hother
  exact List.inj_on_of_nodup_map hnodup hmem hx hsame ▸ hnext

/-- After so many rounds, the definitions are taken from which no path of so many uses starts. -/
theorem mem_taken_iff_short (round : Nat) (hx : x ∈ xs) :
    name x ∈ takenAfter name uses xs round ↔ ¬HasPath name uses xs round x := by
  induction round generalizing x with
  | zero => exact iff_of_false List.not_mem_nil (fun h => h trivial)
  | succ round ih =>
    rw [mem_taken_succ_iff hnodup hx]
    have hready := ready_iff_short (fun used hused => ih hused) hx
    constructor
    · rintro (hold | hnext) hpath
      · exact (ih hx).1 hold (hpath.of_le (Nat.le_succ round))
      · exact hready.1 (Bool.and_eq_true_iff.1 hnext).2 hpath
    · intro hshort
      by_cases hold : name x ∈ takenAfter name uses xs round
      · exact .inl hold
      · exact .inr (Bool.and_eq_true_iff.2 ⟨decide_eq_true hold, hready.2 hshort⟩)

/-- A definition is taken in the round that is the length of its longest path of uses. -/
theorem next_iff_longest_path (hx : x ∈ xs) :
    isNext name uses xs (takenAfter name uses xs round) x = true ↔
      LongestPath name uses xs x round := by
  have hready := @ready_iff_short _ _ _ name uses xs round x
    (fun used hused => mem_taken_iff_short hnodup round hused) hx
  rw [longest_path_iff, isNext, Bool.and_eq_true_iff, decide_eq_true_iff, hready,
    mem_taken_iff_short hnodup round hx, not_not]

/-- The definitions that are left when no other one is taken are those that are caught. -/
theorem pending_eq_caught [DecidablePred (Caught name uses xs)]
    (hnone : xs.filter (isNext name uses xs (takenAfter name uses xs round)) = []) :
    pendingAfter name uses xs round = xs.filter fun x => decide (Caught name uses xs x) := by
  refine List.filter_congr fun x hx => decide_eq_decide.2 ?_
  rw [mem_taken_iff_short hnodup round hx, not_not, caught_iff_endless]
  refine ⟨fun hpath steps => ?_, fun h => h round⟩
  rcases Nat.le_total steps round with hle | hle
  · exact hpath.of_le hle
  · -- What was not taken before the round is not taken in any later one.
    have hlater : name x ∉ takenAfter name uses xs steps := by
      rw [taken_after_stays hnone hle, mem_taken_iff_short hnodup round hx, not_not]
      exact hpath
    rwa [mem_taken_iff_short hnodup steps hx, not_not] at hlater

/-- The definitions that are taken in one round stand in the order in which they were given. -/
theorem pairwise_layer :
    (xs.filter (isNext name uses xs (takenAfter name uses xs round))).Pairwise
      (Before name uses xs) := by
  rw [List.pairwise_iff_forall_sublist]
  intro a b hpair
  have hlongest {x : α} (hx : x ∈ [a, b]) : LongestPath name uses xs x round := by
    obtain ⟨hmem, hnext⟩ := List.mem_filter.1 (hpair.subset hx)
    exact (next_iff_longest_path hnodup hmem).1 hnext
  exact ⟨round, round, hlongest List.mem_cons_self, hlongest (by simp),
    .inr ⟨rfl, hpair.trans List.filter_sublist⟩⟩

/-- From a round on, the definitions are taken by the lengths of their longest paths, which are at
least the number of the round, and those that are caught are left. -/
theorem rounds_layers [DecidablePred (Caught name uses xs)] {more : Nat}
    (hmore : (pendingAfter name uses xs round).length ≤ more) {ordered left : List α}
    (h : rounds name uses (xs.map name) more (takenAfter name uses xs round)
      (pendingAfter name uses xs round) = (ordered, left)) :
    ordered.Pairwise (Before name uses xs) ∧
      (∀ x ∈ ordered, ∃ steps, round ≤ steps ∧ LongestPath name uses xs x steps) ∧
      left = xs.filter fun x => decide (Caught name uses xs x) := by
  induction more generalizing round ordered left with
  | zero =>
    cases h
    have hempty := List.length_eq_zero_iff.1 (Nat.le_zero.1 hmore)
    refine ⟨.nil, List.forall_mem_nil _, pending_eq_caught hnodup ?_⟩
    rw [← filter_ready_pending, hempty, List.filter_nil]
  | succ more ih =>
    rw [rounds_succ] at h
    split at h
    · rename_i hnone
      cases h
      exact ⟨.nil, List.forall_mem_nil _, pending_eq_caught hnodup (List.isEmpty_iff.1 hnone)⟩
    · rename_i hsome
      cases h
      have hfewer := pending_succ_lt hsome
      have hlen : (pendingAfter name uses xs (round + 1)).length ≤ more := by omega
      obtain ⟨hpairwise, hlater, hleft⟩ := ih hlen rfl
      have hlayer (x : α) (hx : x ∈ xs.filter
          (isNext name uses xs (takenAfter name uses xs round))) :
          LongestPath name uses xs x round := by
        obtain ⟨hmem, hnext⟩ := List.mem_filter.1 hx
        exact (next_iff_longest_path hnodup hmem).1 hnext
      refine ⟨List.pairwise_append.2 ⟨pairwise_layer hnodup, hpairwise, ?_⟩, ?_, hleft⟩
      · intro a ha b hsecond
        obtain ⟨steps, hle, hlongest⟩ := hlater b hsecond
        exact ⟨round, steps, hlayer a ha, hlongest, .inl (by omega)⟩
      · intro x hx
        rcases List.mem_append.1 hx with hx | hx
        · exact ⟨round, Nat.le_refl round, hlayer x hx⟩
        · obtain ⟨steps, hle, hlongest⟩ := hlater x hx
          exact ⟨steps, by omega, hlongest⟩

/-- The order of definitions with distinct names: first those that are not caught, by the lengths of
their longest paths of uses and where these are the same as they were given, and then those that are
caught, as they were given. The cycles are looked for among these. -/
theorem order_layers [DecidablePred (Caught name uses xs)] :
    ∃ free caught, order name uses xs = (free ++ caught, cycles name uses caught) ∧
      free.Perm (xs.filter fun x => !decide (Caught name uses xs x)) ∧
      free.Pairwise (Before name uses xs) ∧
      caught = xs.filter fun x => decide (Caught name uses xs x) := by
  have hstart := pending_zero name uses xs
  cases hrounds : rounds name uses (xs.map name) xs.length [] xs with
  | mk free left =>
    obtain ⟨hpairwise, -, rfl⟩ := @rounds_layers _ _ _ name uses xs 0 hnodup _ xs.length
      (by rw [hstart]) free left (by rw [hstart]; exact hrounds)
    have hordered := @rounds_ordered _ _ _ name uses (xs.map name) [] xs xs.length
      (Nat.le_refl _) hnodup fun _ _ => List.not_mem_nil
    rw [hrounds] at hordered
    refine ⟨free, _, by rw [order, hrounds], ?_, hpairwise, rfl⟩
    -- Nothing is lost, so what is not left is what is not caught.
    have hsplit := List.filter_append_perm (fun x => decide (Caught name uses xs x)) xs
    exact (List.perm_append_left_iff _).1
      (List.perm_append_comm.trans (hordered.perm.trans hsplit.symm))

end Rounds

section Renamed

variable {α β κ ι : Type} [DecidableEq κ] [DecidableEq ι] {f : α → β} {g : κ → ι}
  (hinjective : g.Injective) {name : α → κ} {uses : α → List κ} {name' : β → ι}
  {uses' : β → List ι} (hname : ∀ item, name' (f item) = g (name item))
  (huses : ∀ item, uses' (f item) = (uses item).map g)

include hinjective

/-- Repetitions are the same when names are replaced by others. -/
theorem erase_dups_map (names : List κ) : (names.map g).eraseDups = names.eraseDups.map g := by
  induction hlen : names.length using Nat.strongRecOn generalizing names with
  | ind length ih =>
    cases names with
    | nil => rfl
    | cons a rest =>
      have hsame : ((fun other => !other == g a) ∘ g) = fun other : κ => !other == a := by
        funext other
        simp [hinjective.eq_iff, beq_eq_decide]
      rw [List.map_cons, List.eraseDups_cons, List.eraseDups_cons, List.filter_map, hsame,
        List.map_cons]
      refine congrArg _ (ih _ ?_ _ rfl)
      have hle := List.length_filter_le (fun other => !other == a) rest
      rw [List.length_cons] at hlen
      omega

include hname huses

theorem is_ready_map (defined taken : List κ) (x : α) :
    isReady name' uses' (defined.map g) (taken.map g) (f x) =
      isReady name uses defined taken x := by
  simp only [isReady, huses, hname, List.all_map]
  congr 1
  funext used
  simp only [Function.comp_apply, List.mem_map_of_injective hinjective, hinjective.eq_iff]

/-- Rounds take the same definitions when definitions and names are replaced by others. -/
theorem rounds_map (defined : List κ) (more : Nat) (taken : List κ) (pending : List α) :
    rounds name' uses' (defined.map g) more (taken.map g) (pending.map f) =
      (rounds name uses defined more taken pending).map (List.map f) (List.map f) := by
  induction more generalizing taken pending with
  | zero => rfl
  | succ more ih =>
    have hready : (pending.map f).filter (isReady name' uses' (defined.map g) (taken.map g)) =
        (pending.filter (isReady name uses defined taken)).map f := by
      rw [List.filter_map]
      congr 2
      funext x
      exact is_ready_map hinjective hname huses defined taken x
    have htaken : taken.map g ++ ((pending.filter (isReady name uses defined taken)).map f).map
          name' =
        (taken ++ (pending.filter (isReady name uses defined taken)).map name).map g := by
      rw [List.map_append, List.map_map, List.map_map]
      congr 2
      funext x
      exact hname x
    have hothers (taken : List κ) :
        (pending.map f).filter (fun x => decide (name' x ∉ taken.map g)) =
          (pending.filter fun x => decide (name x ∉ taken)).map f := by
      rw [List.filter_map]
      congr 2
      funext x
      simp only [Function.comp_apply, hname, List.mem_map_of_injective hinjective]
    rw [rounds, rounds]
    dsimp only
    rw [hready, htaken, hothers, ih, List.isEmpty_map]
    split
    · rfl
    · simp only [Prod.map, List.map_append]

theorem waits_for_map (left : List α) (key : κ) :
    waitsFor name' uses' (left.map f) (g key) = (waitsFor name uses left key).map g := by
  have hnames : (left.map f).map name' = (left.map name).map g := by
    rw [List.map_map, List.map_map]
    exact List.map_congr_left fun x _ => hname x
  have hf : (left.map f).reverse.find? (fun x => decide (name' x = g key)) =
      (left.reverse.find? fun x => decide (name x = key)).map f := by
    rw [← List.map_reverse, List.find?_map]
    congr 2
    funext x
    simp only [Function.comp_apply, hname, hinjective.eq_iff]
  rw [waitsFor, waitsFor, hf]
  cases left.reverse.find? fun x => decide (name x = key) with
  | none => rfl
  | some x =>
    simp only [Option.map_some, huses, List.filter_map]
    congr 2
    funext used
    rw [hnames]
    simp only [Function.comp_apply, List.mem_map_of_injective hinjective, ne_eq, hinjective.eq_iff]

theorem walk_map (left : List α) (walked : List κ) (more : Nat) (chain : List κ) (key : κ) :
    walk name' uses' (left.map f) (walked.map g) more (chain.map g) (g key) =
      (walk name uses left walked more chain key).map (List.map g) g := by
  induction more generalizing chain key with
  | zero => rfl
  | succ more ih =>
    have happend : chain.map g ++ [g key] = (chain ++ [key]).map g := by simp
    rw [walk, walk, waits_for_map hinjective hname huses]
    simp only [List.mem_map_of_injective hinjective]
    split
    · rfl
    · cases waitsFor name uses left key with
      | nil => simp only [List.map_nil, Prod.map, happend]
      | cons => simp only [List.map_cons, happend, ih]

theorem cycles_from_map (left : List α) (walked starts : List κ) :
    cyclesFrom name' uses' (left.map f) (walked.map g) (starts.map g) =
      (cyclesFrom name uses left walked starts).map (List.map g) := by
  induction starts generalizing walked with
  | nil => rfl
  | cons start rest ih =>
    have hwalk := walk_map hinjective hname huses left walked (left.length + 1) [] start
    rw [List.map_nil] at hwalk
    rw [List.map_cons, cyclesFrom, cyclesFrom, List.length_map, hwalk]
    cases walk name uses left walked (left.length + 1) [] start with
    | mk chain last =>
      have hdrop : (chain.map g).dropWhile (fun other => decide (other ≠ g last)) =
          (chain.dropWhile fun other => decide (other ≠ last)).map g := by
        rw [List.dropWhile_map]
        congr 2
        funext other
        simp only [Function.comp_apply, ne_eq, hinjective.eq_iff]
      simp only [Prod.map, ← List.map_append, ih, List.mem_map_of_injective hinjective, hdrop]
      split <;> simp

/-- The order of definitions is the same when definitions and names are replaced by others. -/
theorem order_map (xs : List α) :
    order name' uses' (xs.map f) =
      (order name uses xs).map (List.map f) (List.map (List.map g)) := by
  have hnames (xs : List α) : (xs.map f).map name' = (xs.map name).map g := by
    rw [List.map_map, List.map_map]
    exact List.map_congr_left fun x _ => hname x
  have hrounds := rounds_map hinjective hname huses (xs.map name) xs.length [] xs
  rw [List.map_nil] at hrounds
  rw [order, order, hnames, List.length_map, hrounds]
  cases rounds name uses (xs.map name) xs.length [] xs with
  | mk ordered left =>
    have hcycles := cycles_from_map hinjective hname huses left [] (left.map name).eraseDups
    rw [List.map_nil] at hcycles
    simp only [Prod.map, cycles, hnames, erase_dups_map hinjective, hcycles, List.map_append]

end Renamed

end Schemata.Order

namespace Schemata

namespace Compiled

/-- The key of the name of the schema. -/
def key (compiled : Compiled) : Option Key :=
  compiled.schemaName.key?

/-- The keys of the names of the schemas that the schema uses. -/
def uses (compiled : Compiled) : List (Option Key) :=
  compiled.dependencies.map Json.key?

/-- All names have keys. Names that are texts do. -/
def HasKeys (compiled : Compiled) : Prop :=
  compiled.key.isSome ∧ ∀ used ∈ compiled.uses, used.isSome

instance (compiled : Compiled) : Decidable compiled.HasKeys :=
  inferInstanceAs (Decidable (_ ∧ _))

end Compiled

section Orders

variable {compiled : List Compiled}

/-- Names that have keys are looked up by them. -/
theorem exists_keys {names : List Name} (h : ∀ used ∈ names.map Json.key?, used.isSome) :
    ∃ keys, names.mapM Json.key = .ok keys := by
  induction names with
  | nil => exact ⟨[], rfl⟩
  | cons name rest ih =>
    rw [List.map_cons, List.forall_mem_cons] at h
    obtain ⟨key, hk⟩ := Option.isSome_iff_exists.1 h.1
    obtain ⟨keys, hkeys⟩ := ih h.2
    have hn : name.key = .ok key := by rw [Json.key, hk]
    exact ⟨key :: keys, mapM_eq_ok_iff.2 (.cons hn (mapM_eq_ok_iff.1 hkeys))⟩

/-- Compiled declarations whose names have keys are given them. -/
theorem exists_keyed (h : ∀ d ∈ compiled, d.HasKeys) :
    ∃ keyed, compiled.mapM Keyed.of = .ok keyed := by
  induction compiled with
  | nil => exact ⟨[], rfl⟩
  | cons d rest ih =>
    rw [List.forall_mem_cons] at h
    obtain ⟨⟨hn, huses⟩, hr⟩ := h
    obtain ⟨key, hk⟩ := Option.isSome_iff_exists.1 hn
    obtain ⟨keys, hkeys⟩ := exists_keys huses
    obtain ⟨keyed, hkeyed⟩ := ih hr
    have hs : d.schemaName.key = .ok key := by
      rw [Json.key, show d.schemaName.key? = some key from hk]
    have ha : Keyed.of d = .ok ⟨d, key, keys⟩ := by
      rw [Keyed.of, hs, hkeys]
      rfl
    exact ⟨_, mapM_eq_ok_iff.2 (.cons ha (mapM_eq_ok_iff.1 hkeyed))⟩

/-- The order of compiled declarations is their order by the keys of their names. -/
theorem order_compiled_eq (h : ∀ d ∈ compiled, d.HasKeys) :
    ∃ ordered cycles, orderCompiled compiled = .ok (ordered, cycles) ∧
      Order.order Compiled.key Compiled.uses compiled = (ordered, cycles.map (List.map some)) := by
  obtain ⟨keyed, hkeyed⟩ := exists_keyed h
  obtain ⟨hcomp, hright⟩ := keyed_of_mapM hkeyed
  let rights : List { x : Keyed // x.Right } := keyed.attachWith _ hright
  have hkeys := @Order.order_map { x : Keyed // x.Right } _ _ _ _ _ Subtype.val id
    Function.injective_id (fun x => x.1.key) (fun x => x.1.uses) Keyed.key Keyed.uses
    (fun _ => rfl) (fun x => (List.map_id _).symm) rights
  have hsome := @Order.order_map { x : Keyed // x.Right } _ _ _ _ _
    (fun x => x.1.compiled) some (Option.some_injective Key) (fun x => x.1.key)
    (fun x => x.1.uses) Compiled.key Compiled.uses (fun x => x.2.key)
    (fun x => x.2.uses) rights
  have hvalues : rights.map Subtype.val = keyed := List.attachWith_map_subtype_val hright
  have hall : rights.map (fun x => x.1.compiled) = compiled := by
    rw [← hcomp, ← hvalues, List.map_map]
    rfl
  rw [hvalues, List.map_id_fun, List.map_id_fun] at hkeys
  rw [hall] at hsome
  cases hrights : Order.order (fun x : { x : Keyed // x.Right } => x.1.key)
      (fun x => x.1.uses) rights with
  | mk ordered cycles =>
    rw [hrights] at hkeys hsome
    refine ⟨(ordered.map Subtype.val).map Keyed.compiled, cycles, ?_, ?_⟩
    · rw [orderCompiled, hkeyed]
      simp only [bind, Except.bind, hkeys]
      rfl
    · rw [hsome, List.map_map]
      rfl

open scoped Classical in
/-- The exact order of compiled declarations with distinct schema names, where one declaration uses
another one when the schema name of that one is among its dependencies: first those from which no
cycle of uses can be reached, sorted by the length of their longest path of uses and where these are
the same in the order given, and then those from which one can be reached, in the order given. -/
theorem order_by_longest_path (hkeys : ∀ declared ∈ compiled, declared.HasKeys)
    (hnodup : (compiled.map Compiled.key).Nodup) :
    ∃ free caught cycles, orderCompiled compiled = .ok (free ++ caught, cycles) ∧
      free.Perm (compiled.filter fun declared =>
        ¬Order.Caught Compiled.key Compiled.uses compiled declared) ∧
      free.Pairwise (Order.Before Compiled.key Compiled.uses compiled) ∧
      caught = compiled.filter (Order.Caught Compiled.key Compiled.uses compiled) := by
  obtain ⟨ordered, cycles, hordered, horder⟩ := order_compiled_eq hkeys
  obtain ⟨free, caught, hfree, hperm, hpairwise, hcaught⟩ :=
    @Order.order_layers _ _ _ Compiled.key Compiled.uses compiled hnodup _
  obtain ⟨rfl, -⟩ := Prod.mk.inj (horder.symm.trans hfree)
  exact ⟨free, caught, cycles, hordered, by simpa using hperm, hpairwise, hcaught⟩

/-- The aliases `type Pack = Dog[]`, `type Owner = Cat[]`, `type Cat = Mouse[]`,
`type Mouse = Cat[]` and `type Dog = string`. Schemas have the names of their types. -/
def kennel : Program where
  unit := ⟨.null, [
      .typeAlias ⟨.str "Pack", [], true, [], .array (.reference (.str "Dog") [])⟩,
      .typeAlias ⟨.str "Owner", [], true, [], .array (.reference (.str "Cat") [])⟩,
      .typeAlias ⟨.str "Cat", [], true, [], .array (.reference (.str "Mouse") [])⟩,
      .typeAlias ⟨.str "Mouse", [], true, [], .array (.reference (.str "Cat") [])⟩,
      .typeAlias ⟨.str "Dog", [], true, [], .keyword .string⟩], []⟩
  settings := { Settings.default with schemaName := some id }

/-- The schemas of the kennel have different names, which have keys, and are put in order. -/
theorem kennel_compiled :
    ∃ compiled ordered, kennel.compileAll.result = .ok (compiled, []) ∧
      (∀ d ∈ compiled, d.HasKeys) ∧ (compiled.map Compiled.key).Nodup ∧
      orderCompiled compiled = .ok (ordered, [[.text "Cat", .text "Mouse", .text "Cat"]]) ∧
      ordered.map Compiled.schemaName =
        [.str "Dog", .str "Pack", .str "Owner", .str "Cat", .str "Mouse"] :=
  ⟨_, _, rfl, by decide, by decide, rfl, rfl⟩

open scoped Classical in
/-- One dog comes before many, and the cat and the mouse that stand for each other come last, with
the owner of the cat before them. -/
theorem kennel_by_longest_path :
    ∃ compiled free caught cycles, kennel.compileAll.result = .ok (compiled, []) ∧
      (∀ declared ∈ compiled, declared.HasKeys) ∧ (compiled.map Compiled.key).Nodup ∧
      orderCompiled compiled = .ok (free ++ caught, cycles) ∧
      (free ++ caught).map Compiled.schemaName =
        [.str "Dog", .str "Pack", .str "Owner", .str "Cat", .str "Mouse"] ∧
      free.Pairwise (Order.Before Compiled.key Compiled.uses compiled) ∧
      caught = compiled.filter (Order.Caught Compiled.key Compiled.uses compiled) := by
  obtain ⟨compiled, ordered, hcompiled, hkeys, hnodup, hordered, hnames⟩ := kennel_compiled
  obtain ⟨free, caught, cycles, horder, -, hpairwise, hcaught⟩ :=
    order_by_longest_path hkeys hnodup
  cases hordered.symm.trans horder
  exact ⟨compiled, free, caught, _, hcompiled, hkeys, hnodup, horder, hnames, hpairwise, hcaught⟩

end Orders

end Schemata
