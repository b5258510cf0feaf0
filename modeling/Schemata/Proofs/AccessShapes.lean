import Schemata.Proofs.Meaning

/-!
# The shape of indexed accesses

`Unfolds` takes an indexed access apart as it is written: what an index is taken of may stand in
parentheses or be a parameter that is bound elsewhere, and the indices are listed from the innermost
one outward. `HasSegment` says which indices have a segment of a path. `indexed_access_shape`: an
access is compiled to the path of these segments exactly when all indices have one and the access
starts from a named type, and else there is one warning or a failure.
-/

namespace Schemata

open List
open Traced (bind_ok_iff lift_ok_iff)

/-- An index with the environment that it is written in and what it is taken of. -/
structure IndexUse where
  environment : Environment
  base : TypeExpr
  index : TypeExpr

/-- The type of an index, inside of parentheses and behind parameters. -/
def IndexUse.Is (use : IndexUse) (type : TypeExpr) : Prop :=
  ∃ inner, use.environment.resolve use.index.unwrap = .ok (type, inner)

/-- The indices of an access in an environment, from the innermost one outward, and the type that
the innermost one is taken of. -/
inductive Unfolds : Environment → TypeExpr → List IndexUse → TypeExpr → Prop where
  | innermost {environment inner : Environment} {base index root : TypeExpr}
      (h : environment.resolve base.unwrap = .ok (root, inner))
      (hroot : ∀ object key, root ≠ .indexed object key) :
      Unfolds environment (.indexed base index) [⟨environment, base, index⟩] root
  | outer {environment : Environment} {inner} {base : TypeExpr} {index object key root uses}
      (h : environment.resolve base.unwrap = .ok (.indexed object key, inner))
      (hobject : Unfolds inner (.indexed object key) uses root) :
      Unfolds environment (.indexed base index) (uses ++ [⟨environment, base, index⟩]) root

namespace Program

/-- The indices that have a segment of a path: the name of a property, a position, and any element,
if the type that it is taken of has elements. The position `-1` stands for any element. -/
inductive HasSegment (program : Program) (use : IndexUse) : String → Prop where
  | property {name} (h : use.Is (.literal (.str name))) : HasSegment program use (shapeSegment name)
  | position {place} (h : use.Is (.literal (.int place))) (hplace : place ≠ -1) :
      HasSegment program use ("items[" ++ toString place ++ "]")
  | element {index type segment} (h : use.Is index)
      (helement : index = .keyword .number ∨ index = .literal (.int (-1)))
      (htype : (program.chainType (use.environment.chain use.base)).result = .ok type)
      (hsegment : program.elementSegment type = .ok (some segment)) : HasSegment program use segment

variable {p : Program} {env : Environment} {base index : TypeExpr}

/-- An index has a segment exactly when it takes something that has one. -/
theorem has_segment_iff {use : IndexUse} {access : TypeExpr} {segment : String} :
    p.HasSegment use segment ↔
      ∃ key, IndexKey.ofType (some use.environment) use.index = .ok key ∧
        (p.segment access key (use.environment.chain use.base)).result = .ok (some segment) := by
  have htaken {type : TypeExpr} {inner : Environment}
      (h : use.environment.resolve use.index.unwrap = .ok (type, inner)) :
      Environment.resolve? (some use.environment) use.index.unwrap = .ok (type, some inner) := by
    rw [Environment.resolve?, h]
    rfl
  constructor
  · intro h
    unfold IndexKey.ofType
    cases h with
    | property h =>
      obtain ⟨inner, h⟩ := h
      exact ⟨_, by rw [htaken h]; rfl, rfl⟩
    | position h hplace =>
      obtain ⟨inner, h⟩ := h
      exact ⟨_, by rw [htaken h]; exact congrArg Except.ok (if_neg hplace), rfl⟩
    | element h helement htype hsegment =>
      obtain ⟨inner, h⟩ := h
      refine ⟨.element, ?_,
        bind_ok_iff.2 ⟨_, htype, bind_ok_iff.2 ⟨_, lift_ok_iff.2 hsegment, rfl⟩⟩⟩
      rw [htaken h]
      rcases helement with rfl | rfl <;> rfl
  · rintro ⟨key, hkey, h⟩
    obtain ⟨⟨type, inner⟩, hresolve, hkey⟩ := bind_eq_ok_iff.1 hkey
    obtain ⟨⟨type, inner⟩, hresolved, heq⟩ := bind_eq_ok_iff.1 hresolve
    cases heq
    have hindex : use.Is type := ⟨inner, hresolved⟩
    have helement (h : (p.segment access .element (use.environment.chain use.base)).result =
        .ok (some segment)) (hnumber : type = .keyword .number ∨ type = .literal (.int (-1))) :
        p.HasSegment use segment := by
      obtain ⟨found, hfound, h⟩ := bind_ok_iff.1 h
      obtain ⟨taken, htaken, h⟩ := bind_ok_iff.1 h
      cases taken with
      | none =>
        obtain ⟨_, -, h⟩ := bind_ok_iff.1 h
        cases h
      | some =>
        cases h
        exact .element hindex hnumber hfound (lift_ok_iff.1 htaken)
    dsimp only at hkey
    split at hkey
    · cases hkey
      exact helement h (.inl rfl)
    · cases hkey
      cases h
      exact .property hindex
    · rename_i place
      by_cases hplace : place = -1
      · rw [if_pos hplace] at hkey
        cases hkey
        exact helement h (.inr (by rw [hplace]))
      · rw [if_neg hplace] at hkey
        cases hkey
        cases h
        exact .position hindex hplace
    · obtain ⟨_, -, hkey⟩ := bind_eq_ok_iff.1 hkey
      cases hkey
      obtain ⟨_, -, h⟩ := bind_ok_iff.1 h
      cases h

/-- The outermost index of a chain is the one of the access that it is made of. -/
theorem segment_of_chain {access : TypeExpr} {key : IndexKey} {object : Chain} {segment : String}
    (hchain : env.chain (.indexed base index) = .index access (.ok key) object)
    (h : (p.segment access key object).result = .ok (some segment)) :
    p.HasSegment ⟨env, base, index⟩ segment ∧ env.chain base = object := by
  rw [Environment.chain_indexed] at hchain
  obtain ⟨rfl, hkey, rfl⟩ := Chain.index.inj hchain
  exact ⟨has_segment_iff.2 ⟨key, hkey, h⟩, rfl⟩

/-- A chain spells the segments of the indices that an access unfolds to. -/
theorem spells_iff {name : Name} {segments : List String} :
    p.Spells (env.chain (.indexed base index)) name segments ↔
      ∃ uses arguments, Unfolds env (.indexed base index) uses (.reference name arguments) ∧
        Forall₂ p.HasSegment uses segments := by
  constructor
  · intro h
    generalize hchain : env.chain (.indexed base index) = chain at h
    induction h generalizing env base index with
    | @first access key name arguments segment h =>
      obtain ⟨hsegment, hbase⟩ := segment_of_chain hchain h
      rw [env.chain_eq] at hbase
      cases hresolve : env.resolve base.unwrap with
      | error => simp [hresolve] at hbase
      | ok found =>
        obtain ⟨found, inner⟩ := found
        rw [hresolve] at hbase
        cases found with
        | reference =>
          cases hbase
          exact ⟨_, _, .innermost hresolve (by simp), .cons hsegment .nil⟩
        | _ => cases hbase
    | @next access key object name segments segment hobject h ih =>
      obtain ⟨hsegment, hbase⟩ := segment_of_chain hchain h
      rw [env.chain_eq] at hbase
      cases hresolve : env.resolve base.unwrap with
      | error =>
        rw [hresolve] at hbase
        cases hbase
        cases hobject
      | ok found =>
        obtain ⟨found, inner⟩ := found
        rw [hresolve] at hbase
        cases found with
        | indexed =>
          obtain ⟨uses, arguments, hunfolds, hsegments⟩ :=
            ih ((Environment.chain_of_resolve hresolve).trans hbase)
          exact ⟨_, arguments, .outer hresolve hunfolds, rel_append hsegments (.cons hsegment .nil)⟩
        | _ =>
          cases hbase
          cases hobject
  · rintro ⟨uses, arguments, hunfolds, hsegments⟩
    generalize hroot : TypeExpr.reference name arguments = root at hunfolds
    generalize TypeExpr.indexed base index = access at hunfolds ⊢
    induction hunfolds generalizing segments with
    | @innermost env inner base index root h hno =>
      cases hroot
      obtain ⟨segment, rest, hsegment, hrest, rfl⟩ := forall₂_cons_left_iff.1 hsegments
      cases hrest
      obtain ⟨key, hkey, hsegment⟩ := has_segment_iff.1 hsegment
      have hbase : env.chain base = .root (.reference name arguments) := by
        rw [env.chain_eq, h]
        rfl
      rw [Environment.chain_indexed, hkey, hbase]
      exact .first (hbase ▸ hsegment)
    | @outer env inner base index object key root uses h hobject ih =>
      have hbase : env.chain base = inner.chain (.indexed object key) := by
        rw [env.chain_eq, h]
        exact (Environment.chain_of_resolve h).symm
      obtain ⟨front, back, rfl, hfront, hback⟩ := forall₂_split hsegments
      obtain ⟨segment, rest, hsegment, hrest, rfl⟩ := forall₂_cons_left_iff.1 hback
      cases hrest
      obtain ⟨taken, htaken, hsegment⟩ := has_segment_iff.1 hsegment
      have hspells := ih hfront hroot
      rw [← hbase] at hspells
      rw [Environment.chain_indexed, htaken]
      exact hspells.next hsegment

/-- An indexed access is compiled to a path into the schema of the name that it starts from, with
the segments of its indices from the innermost one outward, and this schema is all that it uses; or
it is given up with one warning; or it fails. It is compiled to a path exactly when it starts from a
named type and each index is a name, a position or an element that is found. -/
theorem indexed_access_shape (program : Program) (environment : Environment)
    (base index : TypeExpr) :
    let access := TypeExpr.indexed base index
    let computation := program.indexedAccess (some environment) access
    ((∃ uses name arguments segments constant,
        Unfolds environment access uses (.reference name arguments) ∧
        Forall₂ program.HasSegment uses segments ∧
        program.settings.nameOf name = .ok constant ∧
        computation.result =
          .ok (some (.field (some (.reference constant)) (".".intercalate segments))) ∧
        usedNames computation.trace = [constant] ∧ warnings computation.trace = []) ∨
      (computation.result = .ok none ∧ usedNames computation.trace = [] ∧
        ∃ warning, warnings computation.trace = [warning]) ∨
      (∃ failure, computation.result = .error failure) ∧ usedNames computation.trace = [] ∧
        warnings computation.trace = []) ∧
    ((∃ schema, computation.result = .ok (some schema)) ↔
      ∃ uses name arguments constant, Unfolds environment access uses (.reference name arguments) ∧
        (∀ use ∈ uses, ∃ segment, program.HasSegment use segment) ∧
        program.settings.nameOf name = .ok constant) := by
  intro access computation
  have hcomes : Comes (program.IsAccessPath (environment.chain access) []) computation :=
    access_chain_comes _ []
  constructor
  · rw [← used_names_findings, ← warnings_findings]
    generalize computation = found at hcomes
    cases hcomes with
    | found h =>
      obtain ⟨name, segments, constant, hspells, hname, rfl, hevents⟩ := h
      obtain ⟨uses, arguments, hunfolds, hsegments⟩ := spells_iff.1 hspells
      rw [append_nil, hevents]
      exact .inl
        ⟨uses, name, arguments, segments, constant, hunfolds, hsegments, hname, rfl, rfl, rfl⟩
    | missed h =>
      rw [h]
      exact .inr (.inl ⟨rfl, rfl, _, rfl⟩)
    | failed h =>
      rw [h]
      exact .inr (.inr ⟨⟨_, rfl⟩, rfl, rfl⟩)
  · constructor
    · rintro ⟨schema, hschema⟩
      obtain ⟨name, segments, constant, hspells, hname, -⟩ := hcomes.of_some hschema
      obtain ⟨uses, arguments, hunfolds, hsegments⟩ := spells_iff.1 hspells
      refine ⟨uses, name, arguments, constant, hunfolds, fun use huse => ?_, hname⟩
      obtain ⟨segment, -, hsegment⟩ := exists_of_forall₂ hsegments.flip use huse
      exact ⟨segment, hsegment⟩
    · rintro ⟨uses, name, arguments, constant, hunfolds, hsegments, hname⟩
      choose! segment hsegment using hsegments
      have hspells := spells_iff.2 ⟨uses, arguments, hunfolds,
        forall₂_map_right_iff.2 (forall₂_same.2 hsegment)⟩
      exact ⟨_, access_chain_of_spells hspells hname []⟩

/-- The index `-1` is a number, but it stands for any element: without a declaration of `Person`
there is no path for `Person[-1]`. -/
theorem minus_one_no_position :
    let program : Program := ⟨⟨.null, [], []⟩, Settings.default⟩
    let access := TypeExpr.indexed (.reference (.str "Person") []) (.literal (.int (-1)))
    (∃ uses, Unfolds .empty access uses (.reference (.str "Person") []) ∧
      ∀ use ∈ uses, ∃ place, use.Is (.literal (.int place))) ∧
    (program.indexedAccess (some .empty) access).result = .ok none := by
  intro program access
  have hunfolds : Unfolds .empty access _ (.reference (.str "Person") []) :=
    .innermost rfl (by simp)
  exact ⟨⟨_, hunfolds, forall_mem_singleton.2 ⟨-1, .empty, rfl⟩⟩, rfl⟩

end Program

end Schemata
