import Schemata.Proofs.Layers

/-!
# The cycles that are reported

`Walks` and `Reports` are the two loops that look for cycles, without a bound on the number of steps
and with no case for a name that waits for nothing. `cycles_from_reports` says that they end, with
the cycles that are computed, since every definition that is left waits for another one. What is
reported is read off the loops: `Reports.rings`, `Reports.disjoint` and `Reports.covers`.
-/

namespace Schemata.Order

open List

variable {α κ : Type} [DecidableEq κ] (name : α → κ) (uses : α → List κ)

/-- A walk goes on from a name to the first one that its definition waits for. -/
def GoesOn (left : List α) (key next : κ) : Prop :=
  (waitsFor name uses left key).head? = some next

/-- A walk with the names on its way and the name that it has come to. It stops at a name that was
walked before or comes again, and otherwise goes on. -/
inductive Walks (left : List α) (walked : List κ) : List κ → κ → List κ → κ → Prop where
  | stop {chain key} (h : key ∈ walked ∨ key ∈ chain) : Walks left walked chain key chain key
  | go {chain found key next last} (hwalked : key ∉ walked) (hchain : key ∉ chain)
      (hnext : GoesOn name uses left key next)
      (h : Walks left walked (chain ++ [key]) next found last) :
      Walks left walked chain key found last

/-- Walks from one name after the other, and the cycles that they close. -/
inductive Reports (left : List α) : List κ → List κ → List (List κ) → Prop where
  | done {walked} : Reports left walked [] []
  | closed {walked} {chain : List κ} {rest start last others}
      (hwalk : Walks name uses left walked [] start chain last) (hlast : last ∈ chain)
      (h : Reports left (walked ++ chain) rest others) :
      Reports left walked (start :: rest) ((chain.dropWhile (· ≠ last) ++ [last]) :: others)
  /-- The walk ends where another one has been. -/
  | joined {walked chain rest start last others}
      (hwalk : Walks name uses left walked [] start chain last) (hlast : last ∉ chain)
      (h : Reports left (walked ++ chain) rest others) : Reports left walked (start :: rest) others

/-- The walks from the names of all definitions that are left, one after the other, end with some
cycles. -/
def FindsCycles (left : List α) (cycles : List (List κ)) : Prop :=
  Reports name uses left [] (left.map name).eraseDups cycles

/-- Names in a ring: at least two, all different, and each of a definition that uses the next one.
The first name stands at both ends. -/
structure IsRing (items : List α) (ring : List κ) : Prop where
  closed : ∃ first rest, ring = first :: rest ++ [first] ∧ rest ≠ [] ∧ (first :: rest).Nodup
  uses : ring.IsChain fun key next => ∃ item ∈ items, name item = key ∧ next ∈ uses item

variable {name uses} {left : List α} {walked : List κ}

section Loops

/-- A walk goes on to a name that is left, is another one, and is used. -/
theorem GoesOn.spec {key next : κ} (h : GoesOn name uses left key next) :
    next ∈ left.map name ∧ next ≠ key ∧ ∃ x ∈ left, name x = key ∧ next ∈ uses x := by
  unfold GoesOn waitsFor at h
  split at h
  · rename_i x hf
    obtain ⟨hused, hwaits⟩ := mem_filter.1 (mem_of_head? h)
    obtain ⟨hleft, hother⟩ := Bool.and_eq_true_iff.1 hwaits
    have hk : name x = key := by simpa using find?_some hf
    exact ⟨of_decide_eq_true hleft, of_decide_eq_true hother, x,
      mem_reverse.1 (mem_of_find?_eq_some hf), hk, hused⟩
  · cases h

variable (hwaits : ∀ item ∈ left, ∃ used ∈ uses item, used ∈ left.map name ∧ used ≠ name item)

include hwaits

/-- A walk goes on from every name that is left. -/
theorem exists_goes_on {key : κ} (hk : key ∈ left.map name) :
    ∃ next, GoesOn name uses left key next := by
  unfold GoesOn waitsFor
  split
  · rename_i x hf
    have hsame : name x = key := by simpa using find?_some hf
    obtain ⟨used, hused, hleft, hother⟩ := hwaits x (mem_reverse.1 (mem_of_find?_eq_some hf))
    have hmem : used ∈ (uses x).filter fun used => used ∈ left.map name && used ≠ key :=
      mem_filter.2 ⟨hused, by simp [hleft, hsame ▸ hother]⟩
    exact ⟨_, head?_eq_some_head (ne_nil_of_mem hmem)⟩
  · rename_i hnone
    obtain ⟨x, hx, hsame⟩ := mem_map.1 hk
    exact absurd (decide_eq_true hsame) (find?_eq_none.1 hnone x (mem_reverse.2 hx))

/-- A walk ends before it has been at more names than are left. -/
theorem walk_walks {more : Nat} {chain : List κ} {key : κ} (hchain : chain.Nodup)
    (hmem : ∀ other ∈ chain, other ∈ left.map name) (hk : key ∈ left.map name)
    (hmore : left.length < more + chain.length) :
    Walks name uses left walked chain key (walk name uses left walked more chain key).1
      (walk name uses left walked more chain key).2 := by
  induction more generalizing chain key with
  | zero =>
    have hle : chain.length ≤ (left.map name).length := (hchain.subperm hmem).length_le
    rw [length_map] at hle
    omega
  | succ more ih =>
    rw [walk]
    split
    · rename_i hstop
      exact .stop (by simpa using hstop)
    · rename_i hgo
      have hnew : key ∉ walked ∧ key ∉ chain := by simpa using hgo
      obtain ⟨next, hnext⟩ := exists_goes_on hwaits hk
      obtain ⟨rest, hr⟩ := head?_eq_some_iff.1 hnext
      rw [hr]
      refine .go hnew.1 hnew.2 hnext (ih ?_ ?_ hnext.spec.1 ?_)
      · exact nodup_append_comm.2 (nodup_cons.2 ⟨hnew.2, hchain⟩)
      · intro other hother
        rcases mem_append.1 hother with hother | hother
        · exact hmem other hother
        · exact mem_singleton.1 hother ▸ hk
      · rw [length_append, length_singleton]
        omega

/-- The search for cycles ends, from any names that are left. -/
theorem cycles_from_reports {starts : List κ} (hstarts : ∀ start ∈ starts, start ∈ left.map name) :
    Reports name uses left walked starts (cyclesFrom name uses left walked starts) := by
  induction starts generalizing walked with
  | nil => exact .done
  | cons start rest ih =>
    rw [forall_mem_cons] at hstarts
    have hwalk := @walk_walks _ _ _ name uses left walked hwaits (left.length + 1) [] start
      nodup_nil (forall_mem_nil _) hstarts.1 (Nat.lt_succ_self left.length)
    rw [cyclesFrom]
    dsimp only
    split
    · rename_i hlast
      exact .closed hwalk hlast (ih hstarts.2)
    · rename_i hlast
      exact .joined hwalk hlast (ih hstarts.2)

end Loops

section Walks

variable {chain found : List κ} {key last : κ}
  (h : Walks name uses left walked chain key found last)

include h

/-- No name is twice on the way. -/
theorem Walks.nodup (hchain : chain.Nodup) : found.Nodup := by
  induction h with
  | stop => exact hchain
  | go _ hnew _ _ ih =>
    exact ih (nodup_append_comm.2 (nodup_cons.2 ⟨hnew, hchain⟩))

/-- No name on the way was walked before. -/
theorem Walks.new (hchain : ∀ other ∈ chain, other ∉ walked) : ∀ other ∈ found, other ∉ walked := by
  induction h with
  | stop => exact hchain
  | go hwalked _ _ _ ih =>
    refine ih fun other hother => ?_
    rcases mem_append.1 hother with hother | hother
    · exact hchain other hother
    · exact mem_singleton.1 hother ▸ hwalked

/-- A walk goes on from each name on its way to the next one, and from the last one to its end. -/
theorem Walks.goes_on (hchain : (chain ++ [key]).IsChain (GoesOn name uses left)) :
    (found ++ [last]).IsChain (GoesOn name uses left) := by
  induction h with
  | stop => exact hchain
  | go _ _ hnext _ ih =>
    refine ih (isChain_append.2 ⟨hchain, .singleton _, ?_⟩)
    intro a ha b hsecond
    rw [getLast?_append, getLast?_singleton] at ha
    cases ha
    cases hsecond
    exact hnext

/-- A walk ends at a name that was walked before or is on its way. -/
theorem Walks.stopped : last ∈ walked ∨ last ∈ found := by
  induction h with
  | stop h => exact h
  | go _ _ _ _ ih => exact ih

/-- What a name has when the next one on a walk has it, all names on the way have when the last one
has. -/
theorem Walks.back {holds : κ → Prop}
    (hback : ∀ key next, GoesOn name uses left key next → holds next → holds key)
    (hlast : holds last) : holds key ∧ ∀ other ∈ found, other ∈ chain ∨ holds other := by
  induction h with
  | stop => exact ⟨hlast, fun other hother => .inl hother⟩
  | go _ _ hnext _ ih =>
    obtain ⟨hholds, hf⟩ := ih hlast
    have hk := hback _ _ hnext hholds
    refine ⟨hk, fun other hother => ?_⟩
    rcases hf other hother with hmem | hother
    · rcases mem_append.1 hmem with hmem | hmem
      · exact .inl hmem
      · exact .inr (mem_singleton.1 hmem ▸ hk)
    · exact .inr hother

end Walks

section Reports

variable {chain starts : List κ} {start last : κ} {cycles : List (List κ)}

/-- From a name in a list on, the list is that name and what comes after it. -/
theorem drop_while_ne (hlast : last ∈ chain) :
    ∃ before rest, chain = before ++ last :: rest ∧ chain.dropWhile (· ≠ last) = last :: rest := by
  induction chain with
  | nil => cases hlast
  | cons a rest ih =>
    by_cases ha : a = last
    · subst ha
      exact ⟨[], rest, rfl, dropWhile_cons_of_neg (by simp)⟩
    · obtain ⟨before, after, hsplit, hdrop⟩ := ih ((mem_cons.1 hlast).resolve_left (Ne.symm ha))
      exact ⟨a :: before, after, by rw [hsplit]; rfl,
        (dropWhile_cons_of_pos (by simpa using ha)).trans hdrop⟩

/-- A walk that comes to a name on its way has gone round in a ring. -/
theorem Walks.ring (h : Walks name uses left walked [] start chain last) (hlast : last ∈ chain) :
    IsRing name uses left (chain.dropWhile (· ≠ last) ++ [last]) := by
  have hchain := h.goes_on (.singleton start)
  have hnodup := h.nodup nodup_nil
  obtain ⟨before, rest, rfl, hdrop⟩ := drop_while_ne hlast
  rw [hdrop]
  rw [append_assoc] at hchain
  have hround : (last :: rest ++ [last]).IsChain (GoesOn name uses left) := hchain.right_of_append
  refine ⟨⟨last, rest, rfl, ?_, (nodup_append.1 hnodup).2.1⟩, ?_⟩
  · -- A walk does not go on from a name to itself.
    rintro rfl
    have hself : GoesOn name uses left last last := (isChain_pair).1 hround
    exact hself.spec.2.1 rfl
  · refine hround.imp fun key next hnext => ?_
    exact hnext.spec.2.2

/-- A walk closes its cycle with names that are on its way. -/
theorem mem_chain_of_closed {key : κ} (hlast : last ∈ chain)
    (h : key ∈ chain.dropWhile (· ≠ last) ++ [last]) : key ∈ chain := by
  rcases mem_append.1 h with hk | hk
  · exact (dropWhile_sublist _).subset hk
  · exact mem_singleton.1 hk ▸ hlast

variable (h : Reports name uses left walked starts cycles)

include h

/-- What is reported are rings. -/
theorem Reports.rings : ∀ cycle ∈ cycles, IsRing name uses left cycle := by
  induction h with
  | done => exact forall_mem_nil _
  | closed hwalk hlast _ ih => exact forall_mem_cons.2 ⟨hwalk.ring hlast, ih⟩
  | joined _ _ _ ih => exact ih

/-- No name that was walked before is in what is reported. -/
theorem Reports.new : ∀ cycle ∈ cycles, ∀ key ∈ cycle, key ∉ walked := by
  induction h with
  | done => exact forall_mem_nil _
  | closed hwalk hlast _ ih =>
    refine forall_mem_cons.2 ⟨fun key hk => ?_, fun cycle hcycle key hk hwalked => ?_⟩
    · exact hwalk.new (forall_mem_nil _) key (mem_chain_of_closed hlast hk)
    · exact ih cycle hcycle key hk (mem_append_left _ hwalked)
  | joined _ _ _ ih =>
    exact fun cycle hcycle key hk hwalked =>
      ih cycle hcycle key hk (mem_append_left _ hwalked)

/-- No name is in two of the cycles that are reported. -/
theorem Reports.disjoint : cycles.Pairwise List.Disjoint := by
  induction h with
  | done => exact .nil
  | closed hwalk hlast hr ih =>
    refine .cons (fun cycle hcycle key hk hother => ?_) ih
    exact hr.new cycle hcycle key hother (mem_append_right _ (mem_chain_of_closed hlast hk))
  | joined _ _ _ ih => exact ih

/-- What a name has when the next one on a walk has it, all names that walks start from have when
the names that were walked before have it and those in what is reported. -/
theorem Reports.covers {holds : κ → Prop}
    (hback : ∀ key next, GoesOn name uses left key next → holds next → holds key)
    (hwalked : ∀ key ∈ walked, holds key)
    (hcycles : ∀ cycle ∈ cycles, ∀ key ∈ cycle, holds key) : ∀ start ∈ starts, holds start := by
  induction h with
  | done => exact forall_mem_nil _
  | closed hwalk hlast _ ih =>
    rw [forall_mem_cons] at hcycles
    have hend := hcycles.1 _ (mem_append_right _ (mem_singleton_self _))
    obtain ⟨hstart, hchain⟩ := hwalk.back hback hend
    refine forall_mem_cons.2 ⟨hstart, ih (forall_mem_append.2 ⟨hwalked, ?_⟩) hcycles.2⟩
    exact fun key hk => (hchain key hk).resolve_left not_mem_nil
  | joined hwalk hlast _ ih =>
    -- The walk has joined an earlier one, since it has not come to a name on its way.
    have hend := hwalked _ (hwalk.stopped.resolve_right hlast)
    obtain ⟨hstart, hchain⟩ := hwalk.back hback hend
    refine forall_mem_cons.2 ⟨hstart, ih (forall_mem_append.2 ⟨hwalked, ?_⟩) hcycles⟩
    exact fun key hk => (hchain key hk).resolve_left not_mem_nil

end Reports

section Order

variable {xs : List α} {x : α} {cycles : List (List κ)}

omit [DecidableEq κ] in
/-- A cycle can be reached from some definition when one uses itself through others. -/
theorem exists_caught_iff :
    (∃ x ∈ xs, Caught name uses xs x) ↔ ∃ x ∈ xs, Relation.TransGen (Depends name uses xs) x x := by
  constructor
  · rintro ⟨-, -, turn, -, hcycle⟩
    obtain ⟨next, hstep, -⟩ := Relation.TransGen.head'_iff.1 hcycle
    exact ⟨turn, hstep.user_mem, hcycle⟩
  · rintro ⟨x, hx, hcycle⟩
    exact ⟨x, hx, x, .refl, hcycle⟩

/-- A definition reaches one of the names in what is reported, by uses of others. -/
def ReachesReported (name : α → κ) (uses : α → List κ) (items : List α) (cycles : List (List κ))
    (item : α) : Prop :=
  ∃ cycle ∈ cycles, ∃ met ∈ items, name met ∈ cycle ∧
    Relation.ReflTransGen (Depends name uses items) item met

/-- Every definition that is left reaches one of the cycles that are reported. -/
theorem FindsCycles.reached (hnodup : (xs.map name).Nodup)
    (hleft : ∀ x ∈ left, x ∈ xs) (h : FindsCycles name uses left cycles)
    (hx : x ∈ left) : ReachesReported name uses xs cycles x := by
  -- The name of a definition that is left is the name of no other one.
  have hsame {a b : α} (ha : a ∈ left) (hsecond : b ∈ left) (h : name a = name b) : a = b :=
    inj_on_of_nodup_map hnodup (hleft a ha) (hleft b hsecond) h
  have hback (key next : κ) (hnext : GoesOn name uses left key next)
      (hreached : ∀ x ∈ left, name x = next → ReachesReported name uses xs cycles x) :
      ∀ x ∈ left, name x = key → ReachesReported name uses xs cycles x := by
    rintro x hx rfl
    obtain ⟨hmem, hother, user, huser, hn, hused⟩ := hnext.spec
    obtain rfl := hsame huser hx hn
    obtain ⟨used, husedMem, rfl⟩ := mem_map.1 hmem
    obtain ⟨cycle, hcycle, met, hmet, hk, hreach⟩ := hreached used husedMem rfl
    have hstep : Depends name uses xs user used :=
      ⟨hleft user huser, hleft used husedMem, hused, hother⟩
    exact ⟨cycle, hcycle, met, hmet, hk, .head hstep hreach⟩
  refine h.covers hback (forall_mem_nil _) ?_ (name x)
    (mem_eraseDups.2 (mem_map_of_mem hx)) x hx rfl
  rintro cycle hcycle key hk x hx rfl
  exact ⟨cycle, hcycle, x, hleft x hx, hk, .refl⟩

omit [DecidableEq κ] in
/-- A definition that is caught uses another one that is. -/
theorem caught_waits (h : Caught name uses xs x) :
    ∃ used, Depends name uses xs x used ∧ Caught name uses xs used := by
  obtain ⟨used, hused, hpaths⟩ := exists_endless_use (caught_iff_endless.1 h)
  exact ⟨used, hused, caught_iff_endless.2 hpaths⟩

omit [DecidableEq κ] in
/-- A ring among some definitions is one among more of them. -/
theorem IsRing.of_subset {ring : List κ} (h : IsRing name uses left ring)
    (hleft : ∀ x ∈ left, x ∈ xs) : IsRing name uses xs ring := by
  refine ⟨h.closed, h.uses.imp fun key next hnext => ?_⟩
  obtain ⟨x, hx, hused⟩ := hnext
  exact ⟨x, hleft x hx, hused⟩

/-- The search for cycles among the definitions that are caught ends with rings that have no name in
common, one of which is reached from every definition that is caught. -/
theorem cycles_of_caught [DecidablePred (Caught name uses xs)] (hnodup : (xs.map name).Nodup)
    (hleft : left = xs.filter fun x => decide (Caught name uses xs x)) :
    FindsCycles name uses left (Order.cycles name uses left) ∧
      (∀ cycle ∈ Order.cycles name uses left, IsRing name uses xs cycle) ∧
      (Order.cycles name uses left).Pairwise List.Disjoint ∧
      (∀ x ∈ left, ReachesReported name uses xs (Order.cycles name uses left) x) ∧
      (Order.cycles name uses left = [] ↔
        ∀ x ∈ xs, ¬Relation.TransGen (Depends name uses xs) x x) := by
  have hmem {x : α} : x ∈ left ↔ x ∈ xs ∧ Caught name uses xs x := by
    rw [hleft, mem_filter, decide_eq_true_iff]
  have hxs (x : α) (hx : x ∈ left) : x ∈ xs := (hmem.1 hx).1
  have hwaits (x : α) (hx : x ∈ left) : ∃ used ∈ uses x, used ∈ left.map name ∧ used ≠ name x := by
    obtain ⟨used, hused, hcaught⟩ := caught_waits (hmem.1 hx).2
    exact ⟨name used, hused.uses, mem_map_of_mem (hmem.2 ⟨hused.used_mem, hcaught⟩), hused.other⟩
  have hfinds : FindsCycles name uses left (Order.cycles name uses left) :=
    cycles_from_reports hwaits fun start hstart => mem_eraseDups.1 hstart
  have hreached (x : α) (hx : x ∈ left) := hfinds.reached hnodup hxs hx
  refine ⟨hfinds, fun cycle hcycle => (Reports.rings hfinds cycle hcycle).of_subset hxs,
    Reports.disjoint hfinds, hreached, ?_⟩
  -- Something is reported when something is left.
  have hnone : Order.cycles name uses left = [] ↔ left = [] := by
    constructor
    · intro hempty
      refine eq_nil_iff_forall_not_mem.2 fun x hx => ?_
      obtain ⟨cycle, hcycle, -⟩ := hreached x hx
      rw [hempty] at hcycle
      cases hcycle
    · rintro rfl
      rfl
  have hacyclic := not_congr (@exists_caught_iff _ _ name uses xs)
  push Not at hacyclic
  rw [hnone, ← hacyclic, eq_nil_iff_forall_not_mem]
  exact forall_congr' fun x => by rw [hmem, not_and]

end Order

end Schemata.Order

namespace Schemata

variable {compiled : List Compiled}

open scoped Classical in
/-- The cycles that are reported for compiled declarations with distinct schema names: the search
for them ends, and at no name without a dependency to go on to. Each cycle is a ring of at least two
different names in which every declaration depends on the next one. No name is in two of them. The
declarations that are put in order are those from which no cycle can be reached, and from every
other one a cycle that is reported can be reached. No cycle is reported exactly when no declaration
depends on itself through others. -/
theorem reported_cycles_genuine (hkeys : ∀ declared ∈ compiled, declared.HasKeys)
    (hnodup : (compiled.map Compiled.key).Nodup) :
    ∃ free left cycles, orderCompiled compiled = .ok (free ++ left, cycles) ∧
      Order.FindsCycles Compiled.key Compiled.uses left (cycles.map (List.map some)) ∧
      (∀ cycle ∈ cycles, Order.IsRing Compiled.key Compiled.uses compiled (cycle.map some)) ∧
      cycles.Pairwise List.Disjoint ∧
      (∀ declared ∈ free, ¬Order.Caught Compiled.key Compiled.uses compiled declared) ∧
      (∀ declared ∈ left, Order.ReachesReported Compiled.key Compiled.uses compiled
        (cycles.map (List.map some)) declared) ∧
      (cycles = [] ↔ ∀ declared ∈ compiled,
        ¬Relation.TransGen (Order.Depends Compiled.key Compiled.uses compiled) declared
          declared) := by
  obtain ⟨ordered, cycles, hordered, horder⟩ := order_compiled_eq hkeys
  obtain ⟨free, left, hfree, hperm, -, hleft⟩ :=
    @Order.order_layers _ _ _ Compiled.key Compiled.uses compiled hnodup _
  obtain ⟨rfl, hcycles⟩ := Prod.mk.inj (horder.symm.trans hfree)
  obtain ⟨hfinds, hrings, hdisjoint, hreached, hnone⟩ := Order.cycles_of_caught hnodup hleft
  rw [← hcycles] at hfinds hrings hdisjoint hreached hnone
  refine ⟨free, left, cycles, hordered, hfinds, fun cycle hcycle => ?_, ?_,
    fun declared hdeclared => ?_, hreached, ?_⟩
  · exact hrings _ (List.mem_map_of_mem hcycle)
  · refine (List.pairwise_map.1 hdisjoint).imp fun {first second} hpair key hfirst hsecond => ?_
    exact hpair (List.mem_map_of_mem hfirst) (List.mem_map_of_mem hsecond)
  · simpa using (List.mem_filter.1 (hperm.subset hdeclared)).2
  · rw [← hnone, List.map_eq_nil_iff]

/-- The cat and the mouse are the only cycle of the kennel. -/
theorem kennel_cycle_genuine :
    ∃ compiled free left cycles, kennel.compileAll.result = .ok (compiled, []) ∧
      (∀ declared ∈ compiled, declared.HasKeys) ∧ (compiled.map Compiled.key).Nodup ∧
      orderCompiled compiled = .ok (free ++ left, cycles) ∧
      cycles = [[.text "Cat", .text "Mouse", .text "Cat"]] ∧
      (∀ cycle ∈ cycles, Order.IsRing Compiled.key Compiled.uses compiled (cycle.map some)) ∧
      ∀ declared ∈ left, Order.ReachesReported Compiled.key Compiled.uses compiled
        (cycles.map (List.map some)) declared := by
  obtain ⟨compiled, ordered, hcompiled, hkeys, hnodup, hordered, -⟩ := kennel_compiled
  obtain ⟨free, left, cycles, horder, -, hrings, -, -, hreached, -⟩ :=
    reported_cycles_genuine hkeys hnodup
  cases hordered.symm.trans horder
  exact ⟨compiled, free, left, _, hcompiled, hkeys, hnodup, horder, rfl, hrings, hreached⟩

end Schemata
