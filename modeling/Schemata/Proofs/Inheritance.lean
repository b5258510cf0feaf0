import Schemata.Proofs.AccessPaths

/-!
# Inherited members

An interface that extends others is compiled to a chain of calls: the schema of the first base, with
`omit` or `pick` if only a part of it is taken over, and then `extend` for every other base and for
its own members. `Schema.shape?` evaluates such a chain, given the shapes of the schemas that have a
name by a table that agrees with the definitions of the bases, `Program.IsDefined`. In a shape the
last entry of a key counts, while a lookup of a member asks the bases in turn and takes the first
answer. `lookup_agrees_with_chain`: where the bases that have a key have it with one type, the entry
of the key in the shape is compiled from a member of the type that is looked up, which the interface
or one of its bases declares.
-/

namespace Schemata

open List
open Traced (bind_ok_iff lift_ok_iff)

variable {schema : Schema}

/-- The entries of an object. Of two entries of one key the last one counts. -/
abbrev Shape := List (String × Schema)

namespace Schema

/-- The entry that counts for a key. -/
def lastEntry? (shape : Shape) (key : String) : Option Schema :=
  (shape.reverse.find? (·.1 = key)).map (·.2)

/-- The shape of an object schema, given the shapes of the schemas that have names. -/
def shape? (defined : Name → Option Shape) : Schema → Option Shape
  | .reference name => defined name
  | .call "object" [.object entries] => some entries
  | .modified receiver "strict" [] false => receiver.shape? defined
  | .modified receiver "describe" _ false => receiver.shape? defined
  | .modified receiver "omit" [.object mask] false =>
    (receiver.shape? defined).map (List.filter (·.1 ∉ keys mask))
  | .modified receiver "pick" [.object mask] false =>
    (receiver.shape? defined).map (List.filter (·.1 ∈ keys mask))
  | .modified receiver "extend" [.object own] false => (receiver.shape? defined).map (· ++ own)
  | .modified receiver "extend" [.field (some other) "shape"] false => do
    return (← receiver.shape? defined) ++ (← other.shape? defined)
  | _ => none

end Schema

namespace Program

variable {cs : List Heritage} {parts : Heritage → List (Member TypeExpr)}

section Definitions

variable (program : Program)

/-- A name is declared without parameters, its declaration is compiled, and the schema has the shape
that a table gives to the constant of the name. -/
def IsDefined (defined : Name → Option Shape) (name : String) : Prop :=
  ∃ declaration constant schema, program.declaration? (.text name) = some declaration ∧
    declaration.parameters = [] ∧ program.settings.nameOf (.str name) = .ok constant ∧
    (program.declarationSchema declaration).result = .ok schema ∧
    defined constant = schema.shape? defined

/-- Whether a heritage clause takes over the member of a name. -/
def shows (clause : Heritage) (key : String) : Bool :=
  hides clause (.str key) matches .ok false

/-- The members that heritage clauses take over, given the members of their bases. -/
def shown (clauses : List Heritage) (parts : Heritage → List (Member TypeExpr)) :
    List (Member TypeExpr) :=
  clauses.flatMap fun clause => (parts clause).filter (shows clause ·.name)

/-- The members of the schema of a name, in the order in which the chain takes them over: those of
each base that its clause shows, and then its own. A member without a type has no entry. -/
inductive HasMembers : String → List (Member TypeExpr) → Prop where
  | interface {name} {declared : Interface} {bases : Heritage → String}
      {parts : Heritage → List (Member TypeExpr)}
      (hfind : program.declaration? (.text name) = some (.interface declared))
      (hbases : ∀ clause ∈ declared.heritage, clause.name = .str (bases clause))
      (hparts : ∀ clause ∈ declared.heritage, HasMembers (bases clause) (parts clause)) :
      HasMembers name (shown declared.heritage parts ++ declared.members.filter (·.type.isSome))
  | object {name} {declared : Alias} {members : List (Member TypeExpr)}
      (hfind : program.declaration? (.text name) = some (.typeAlias declared))
      (htype : declared.type.unwrap = .object members none) :
      HasMembers name (members.filter (·.type.isSome))
  | chain {name base} {declared : Alias} {members}
      (hfind : program.declaration? (.text name) = some (.typeAlias declared))
      (htype : declared.type.unwrap = .reference (.str base) []) (hbase : HasMembers base members) :
      HasMembers name members

/-- The member that counts for a name. -/
def lastMember? (members : List (Member TypeExpr)) (key : String) : Option (Member TypeExpr) :=
  members.reverse.find? (·.name = key)

/-- A member counts for a key among those that a heritage clause takes over. -/
def TakesOver (clause : Heritage) (key : String) (member : Member TypeExpr) : Prop :=
  ∃ base members, clause.name = .str base ∧ program.HasMembers base members ∧
    shows clause key = true ∧ lastMember? members key = some member

/-- A declared name is built on another: as an interface that extends it or as an alias of it. -/
inductive BuiltOn (name : String) : String → Prop where
  | clause {declared : Interface} {clause : Heritage} {base}
      (hfind : program.declaration? (.text name) = some (.interface declared))
      (hclause : clause ∈ declared.heritage) (hbase : clause.name = .str base) : BuiltOn name base
  | chain {declared : Alias} {base}
      (hfind : program.declaration? (.text name) = some (.typeAlias declared))
      (htype : declared.type.unwrap = .reference (.str base) []) : BuiltOn name base

/-- Tags that leave the shape of a schema as it is: they give no source text and no modifier but a
description. -/
def OnlyDescribes (tags : Tags) : Prop :=
  (program.tags tags).override? = none ∧
    ∀ modifiers, (program.modifiers { tags := program.tags tags }).result = .ok modifiers →
      ∀ modifier ∈ modifiers, modifier.name = "describe"

/-- The schema of a name can be evaluated and its members can be told: the name is that of an
interface without an index signature, of which the own members have distinct names and the bases
that take over one key take it over with one type, of an object type with distinct members, or of
such a name again. An alias has a description at most. -/
inductive IsTidy (name : String) : Prop where
  | interface {declared : Interface}
      (hfind : program.declaration? (.text name) = some (.interface declared))
      (hclosed : declared.index = none) (hdistinct : (declared.members.map Member.name).Nodup)
      (hbases : ∀ clause ∈ declared.heritage, ∃ base, clause.name = .str base)
      (hagree : ∀ first ∈ declared.heritage, ∀ second ∈ declared.heritage, ∀ key member other,
        program.TakesOver first key member → program.TakesOver second key other →
        member.type = other.type) : IsTidy name
  | object {declared : Alias} {members : List (Member TypeExpr)}
      (hfind : program.declaration? (.text name) = some (.typeAlias declared))
      (htags : program.OnlyDescribes declared.tags)
      (htype : declared.type.unwrap = .object members none)
      (hdistinct : (members.map Member.name).Nodup) : IsTidy name
  | chain {declared : Alias} {base}
      (hfind : program.declaration? (.text name) = some (.typeAlias declared))
      (htags : program.OnlyDescribes declared.tags)
      (htype : declared.type.unwrap = .reference (.str base) []) (hbase : base ≠ "Date") :
      IsTidy name

/-- A name and all that it is built on are tidy. -/
def IsTidyBelow (name : String) : Prop :=
  ∀ base, Relation.ReflTransGen program.BuiltOn name base → program.IsTidy base

/-- A member is written in the declaration of a name. -/
inductive Declares (name : String) (member : Member TypeExpr) : Prop where
  | interface {declared : Interface}
      (hfind : program.declaration? (.text name) = some (.interface declared))
      (hmember : member ∈ declared.members) : Declares name member
  | object {declared : Alias} {members}
      (hfind : program.declaration? (.text name) = some (.typeAlias declared))
      (htype : declared.type.unwrap = .object members none) (hmember : member ∈ members) :
      Declares name member

/-- An entry is compiled from a member. -/
def Compiled (environment : Environment) (off : Option Context) (entry : String × Schema)
    (member : Member TypeExpr) : Prop :=
  entry.1 = member.name ∧ ∃ type, member.type = some type ∧
    (program.compile ⟨type, environment, program.memberContext off member⟩).result = .ok entry.2

/-- An entry is compiled from a member that is declared by a name, in an environment, or by one that
the name is built on. -/
def StemsFrom (name : String) (environment : Environment) (off : Option Context)
    (entry : String × Schema) (member : Member TypeExpr) : Prop :=
  program.Declares name member ∧ program.Compiled environment off entry member ∨
    ∃ base, Relation.TransGen program.BuiltOn name base ∧ program.Declares base member ∧
      program.Compiled .empty none entry member

/-- An interface is compiled to a schema: as a declaration without parameters, or in an environment
and with its members switched off or not. -/
inductive HasSchema (declared : Interface) : Environment → Option Context → Schema → Prop where
  | declaration {schema : Schema} (hplain : declared.parameters = [])
      (h : (program.declarationSchema (.interface declared)).result = .ok schema) :
      HasSchema declared .empty none schema
  | body {environment : Environment} {off : Option Context} {schema : Schema}
      (h : (interfaceSchema program (program.bodyFrom environment) declared environment
        (program.meaningsOf environment) off {}).result = .ok schema) :
      HasSchema declared environment off schema

end Definitions

variable {p program : Program} {name base key : String} {members : List (Member TypeExpr)}
  {member : Member TypeExpr} {type : TypeExpr}

/-- The members of a name are determined. -/
theorem HasMembers.unique {others : List (Member TypeExpr)} (h : p.HasMembers name members)
    (hothers : p.HasMembers name others) : members = others := by
  induction h generalizing others with
  | @interface name d bases parts hfind hbases hps ih =>
    cases hothers with
    | object hother | chain hother => cases hfind.symm.trans hother
    | @interface _ _ bases' parts' hother hbases' hparts' =>
      cases hfind.symm.trans hother
      have heq (c) (hc : c ∈ d.heritage) : parts c = parts' c := by
        have hbase := Json.str.inj ((hbases c hc).symm.trans (hbases' c hc))
        exact ih c hc (hbase ▸ hparts' c hc)
      rw [shown, shown, flatMap_congr fun c hc => by rw [heq c hc]]
  | object hfind ht =>
    cases hothers with
    | interface hother => cases hfind.symm.trans hother
    | object hother hobj =>
      cases hfind.symm.trans hother
      cases ht.symm.trans hobj
      rfl
    | chain hother href =>
      cases hfind.symm.trans hother
      cases ht.symm.trans href
  | chain hfind ht _ ih =>
    cases hothers with
    | interface hother => cases hfind.symm.trans hother
    | object hother hobj =>
      cases hfind.symm.trans hother
      cases ht.symm.trans hobj
    | chain hother href hbase =>
      cases hfind.symm.trans hother
      cases ht.symm.trans href
      exact ih hbase

section Lists

theorem last_member_append (a b : List (Member TypeExpr)) (key : String) :
    lastMember? (a ++ b) key = (lastMember? b key).or (lastMember? a key) := by
  simp [lastMember?]

theorem last_member_shown (c : Heritage) (ms : List (Member TypeExpr)) (key : String) :
    lastMember? (ms.filter (shows c ·.name)) key =
      if shows c key then lastMember? ms key else none := by
  unfold lastMember?
  rw [← filter_reverse, find?_filter]
  split
  · rename_i hshown
    congr 1
    funext member
    by_cases hn : member.name = key <;> simp [hn, hshown]
  · rename_i hhidden
    rw [find?_eq_none]
    rintro member - hm
    simp only [decide_eq_true_eq] at hm
    exact hhidden (hm.2 ▸ hm.1)

theorem mem_of_last_member (h : lastMember? members key = some member) :
    member ∈ members ∧ member.name = key :=
  ⟨mem_reverse.1 (mem_of_find?_eq_some h), by simpa using find?_some h⟩

theorem last_member_of_mem (hm : member ∈ members) (hn : member.name = key) :
    ∃ found, lastMember? members key = some found := by
  rw [← Option.isSome_iff_exists, lastMember?, find?_isSome]
  exact ⟨member, mem_reverse.2 hm, by simpa using hn⟩

/-- Where the names are distinct, the member of a name is the one that counts for it. -/
theorem last_member_of_distinct (hdistinct : (members.map Member.name).Nodup)
    (hm : member ∈ members) : lastMember? members member.name = some member := by
  obtain ⟨found, hf⟩ := last_member_of_mem hm rfl
  obtain ⟨hmem, hn⟩ := mem_of_last_member hf
  rw [hf, inj_on_of_nodup_map hdistinct hmem hm hn]

/-- What counts for a key among the members of some clauses is taken over by one of them. -/
theorem clause_of_last_member (h : lastMember? (shown cs parts) key = some member) :
    ∃ c ∈ cs, shows c key = true ∧ lastMember? (parts c) key = some member := by
  induction cs with
  | nil => cases h
  | cons a rest ih =>
    rw [shown, flatMap_cons, last_member_append, last_member_shown, Option.or_eq_some_iff] at h
    rcases h with h | ⟨-, h⟩
    · obtain ⟨c, hc, hm⟩ := ih h
      exact ⟨c, mem_cons_of_mem _ hc, hm⟩
    · split at h
      · rename_i hshown
        exact ⟨a, mem_cons_self, hshown, h⟩
      · cases h

end Lists

section Lookup

variable {seen : List Key}

/-- A search finds its answer at a clause that shows the key. -/
theorem clause_of_search {search : Name → Compilation (Option TypeExpr)}
    (h : (searchHeritage (.str key) search cs).result = .ok (some type)) :
    ∃ c ∈ cs, shows c key = true ∧ (search c.name).result = .ok (some type) := by
  induction cs with
  | nil => cases h
  | cons a rest ih =>
    obtain ⟨hidden, hhidden, h⟩ := bind_ok_iff.1 h
    have hr (h : (searchHeritage (.str key) search rest).result = .ok (some type)) :
        ∃ c ∈ a :: rest, shows c key = true ∧ (search c.name).result = .ok (some type) := by
      obtain ⟨c, hc, hf⟩ := ih h
      exact ⟨c, mem_cons_of_mem _ hc, hf⟩
    cases hidden with
    | true => exact hr h
    | false =>
      obtain ⟨found, hf, h⟩ := bind_ok_iff.1 h
      cases found with
      | none => exact hr h
      | some =>
        cases h
        have hshown : hides a (.str key) = .ok false := hhidden
        exact ⟨a, mem_cons_self, by rw [shows, hshown], hf⟩

theorem IsTidyBelow.below (h : p.IsTidyBelow name) (hbase : p.BuiltOn name base) :
    p.IsTidyBelow base := fun other hother => h other (.head hbase hother)

theorem lookup_alias {steps : Nat} {d : Alias}
    (hfind : p.declaration? (.text name) = some (.typeAlias d))
    (h : (p.memberTypeWithin (.str key) steps seen (.reference (.str name) [])).result =
      .ok (some type)) :
    ∃ more others, (p.memberTypeWithin (.str key) more others d.type).result = .ok (some type) := by
  cases steps with
  | zero => cases h
  | succ more =>
    rw [memberTypeWithin] at h
    change (if Key.text name ∈ seen then _ else _ : Compilation _).result = _ at h
    split at h
    · cases h
    · rw [hfind] at h
      exact ⟨more, .text name :: seen, h⟩

theorem lookup_interface {steps : Nat} {d : Interface}
    (hfind : p.declaration? (.text name) = some (.interface d))
    (h : (p.memberTypeWithin (.str key) steps seen (.reference (.str name) [])).result =
      .ok (some type)) :
    (∃ member, findMember? d.members (.str key) = some member ∧ member.type = some type) ∨
      findMember? d.members (.str key) = none ∧ ∃ c ∈ d.heritage,
        shows c key = true ∧ ∃ more others, (p.memberTypeWithin (.str key) more others
          (.reference c.name [])).result = .ok (some type) := by
  cases steps with
  | zero => cases h
  | succ more =>
    rw [memberTypeWithin] at h
    change (if Key.text name ∈ seen then _ else _ : Compilation _).result = _ at h
    split at h
    · cases h
    · rw [hfind] at h
      dsimp only at h
      cases hm : findMember? d.members (.str key) with
      | some member =>
        rw [hm] at h
        exact .inl ⟨member, rfl, Except.ok.inj h⟩
      | none =>
        rw [hm] at h
        obtain ⟨found, hf, h⟩ := bind_ok_iff.1 h
        cases found with
        | none => cases h
        | some =>
          cases h
          obtain ⟨c, hc, hshown, hf⟩ := clause_of_search hf
          exact .inr ⟨rfl, c, hc, hshown, more, .text name :: seen, hf⟩

theorem find_member_text (ms : List (Member TypeExpr)) (key : String) :
    findMember? ms (.str key) = ms.find? (·.name = key) := by
  unfold findMember?
  congr 1
  funext member
  rw [Bool.eq_iff_iff, same_iff_key rfl]
  simp [Json.key?]

theorem lookup_unwrap (steps : Nat) (seen : List Key) (container : TypeExpr) :
    p.memberTypeWithin (.str key) steps seen container =
      p.memberTypeWithin (.str key) steps seen container.unwrap := by
  cases steps with
  | zero => rfl
  | succ => rw [memberTypeWithin, memberTypeWithin, TypeExpr.unwrap_unwrap]

/-- Where the names are distinct, the first member of a name is the one that counts among those with
a type. -/
theorem last_member_of_find (hdistinct : (members.map Member.name).Nodup)
    (hfind : findMember? members (.str key) = some member) (ht : member.type = some type) :
    lastMember? (members.filter (·.type.isSome)) key = some member := by
  rw [find_member_text] at hfind
  obtain rfl : member.name = key := by simpa using find?_some hfind
  refine last_member_of_distinct (hdistinct.sublist (filter_sublist.map _)) ?_
  exact mem_filter.2 ⟨mem_of_find?_eq_some hfind, by rw [ht]; rfl⟩

/-- The type that is looked up is that of the member that counts. -/
theorem HasMembers.type_of_lookup (hms : p.HasMembers name members)
    (htidy : p.IsTidyBelow name) {steps : Nat}
    (h : (p.memberTypeWithin (.str key) steps seen (.reference (.str name) [])).result =
      .ok (some type)) :
    ∃ member, lastMember? members key = some member ∧ member.type = some type := by
  induction hms generalizing steps seen with
  | @interface name d bases parts hfind hbases hps ih =>
    cases htidy name .refl with
    | object hother | chain hother => cases hfind.symm.trans hother
    | interface hother _ hdistinct _ hagree =>
      cases hfind.symm.trans hother
      rw [last_member_append]
      rcases lookup_interface hfind h with
        ⟨member, hm, ht⟩ | ⟨hnone, c, hc, hshown, more, others, hf⟩
      · exact ⟨member, by rw [last_member_of_find hdistinct hm ht]; rfl, ht⟩
      · have hbase := hbases c hc
        rw [hbase] at hf
        obtain ⟨member, hlast, ht⟩ := ih c hc (htidy.below (.clause hfind hc hbase)) hf
        obtain ⟨hm, hn⟩ := mem_of_last_member hlast
        have howned : lastMember? (d.members.filter (·.type.isSome)) key = none := by
          rw [find_member_text, find?_eq_none] at hnone
          rw [lastMember?, find?_eq_none]
          exact fun other hother => hnone other (mem_of_mem_filter (mem_reverse.1 hother))
        have hmem : member ∈ shown d.heritage parts := mem_flatMap.2
          ⟨c, hc, mem_filter.2 ⟨hm, by rw [hn, hshown]⟩⟩
        obtain ⟨found, hf⟩ := last_member_of_mem hmem hn
        obtain ⟨last, hlastclause, hlastshown, hlastfound⟩ := clause_of_last_member hf
        refine ⟨found, by rw [howned, hf]; rfl, ?_⟩
        rw [← ht]
        exact hagree last hlastclause c hc key found member
          ⟨_, _, hbases last hlastclause, hps last hlastclause, hlastshown, hlastfound⟩
          ⟨_, _, hbase, hps c hc, hshown, hlast⟩
  | @object name d members hfind ht =>
    cases htidy name .refl with
    | interface hother => cases hfind.symm.trans hother
    | chain hother _ href =>
      cases hfind.symm.trans hother
      cases ht.symm.trans href
    | object hother _ hobj hdistinct =>
      cases hfind.symm.trans hother
      cases ht.symm.trans hobj
      obtain ⟨more, others, hf⟩ := lookup_alias hfind h
      cases more with
      | zero => cases hf
      | succ =>
        rw [memberTypeWithin, ht] at hf
        obtain ⟨member, hm, hf⟩ := Option.bind_eq_some_iff.1 (Except.ok.inj hf)
        exact ⟨member, last_member_of_find hdistinct hm hf, hf⟩
  | @chain name base d members hfind ht hbase ih =>
    obtain ⟨more, others, hf⟩ := lookup_alias hfind h
    rw [lookup_unwrap, ht] at hf
    exact ih (htidy.below (.chain hfind ht)) hf

end Lookup

section Origins

variable {entry : String × Schema} {env : Environment} {off : Option Context}

theorem StemsFrom.name_eq (h : p.StemsFrom name env off entry member) : entry.1 = member.name := by
  rcases h with ⟨-, h⟩ | ⟨base, -, -, h⟩ <;> exact h.1

theorem StemsFrom.of_base (hbase : p.BuiltOn name base)
    (h : p.StemsFrom base .empty none entry member) : p.StemsFrom name env off entry member := by
  rcases h with ⟨hdeclares, h⟩ | ⟨last, hbelow, hdeclares, h⟩
  · exact .inr ⟨base, .single hbase, hdeclares, h⟩
  · exact .inr ⟨last, .head hbase hbelow, hdeclares, h⟩

end Origins

section Shapes

variable {c : Heritage} {entries : Shape} {defined : Name → Option Shape} {env : Environment}
  {off : Option Context} {R : String × Schema → Member TypeExpr → Prop}

theorem compiled_of_jobs {ss : List Schema}
    (hown : ∀ member ∈ members, ∀ entry, p.Compiled env off entry member → R entry member)
    (h : Forall₂ (fun job schema => (p.compile job).result = .ok schema)
      ((p.memberJobs off env members).map (·.2)) ss) :
    Forall₂ R (((p.memberJobs off env members).map (·.1)).zip ss)
      (members.filter (·.type.isSome)) := by
  induction members generalizing ss with
  | nil => exact .nil
  | cons member rest ih =>
    obtain ⟨hmember, hrest⟩ := forall_mem_cons.1 hown
    cases ht : member.type with
    | none =>
      rw [member_jobs_untyped ht] at h ⊢
      rw [filter_cons_of_neg (by simp [ht])]
      exact ih hrest h
    | some type =>
      rw [member_jobs_typed ht] at h ⊢
      rw [filter_cons_of_pos (by simp [ht])]
      cases h with
      | cons hs hschemas => exact .cons (hmember _ ⟨rfl, type, ht, hs⟩) (ih hrest hschemas)

/-- The constant of a name has a shape whose entries are related to some members. -/
def IsShaped (program : Program) (defined : Name → Option Shape)
    (R : String × Schema → Member TypeExpr → Prop) (name : String)
    (members : List (Member TypeExpr)) : Prop :=
  ∃ constant entries, program.settings.nameOf (.str name) = .ok constant ∧
    defined constant = some entries ∧ List.Forall₂ R entries members

/-- A schema that is referred to has the shape of its constant. -/
theorem reference_shape (h : (p.reference (.str name)).result = .ok schema)
    (hshaped : p.IsShaped defined R name members) :
    ∃ entries, schema.shape? defined = some entries ∧ Forall₂ R entries members := by
  obtain ⟨constant, entries, hn, hshape, hes⟩ := hshaped
  obtain ⟨found, hf, h⟩ := bind_ok_iff.1 h
  obtain ⟨done, -, h⟩ := bind_ok_iff.1 h
  cases h
  cases hn.symm.trans (lift_eq_ok_iff.1 hf)
  exact ⟨entries, hshape, hes⟩

/-- What is shaped by the members of a base is shaped by members that stem from it. -/
theorem IsShaped.of_base (hbase : p.BuiltOn name base)
    (h : p.IsShaped defined (p.StemsFrom base .empty none) base members) :
    p.IsShaped defined (p.StemsFrom name env off) base members := by
  obtain ⟨constant, entries, hn, hshape, hes⟩ := h
  exact ⟨constant, entries, hn, hshape, hes.imp fun _ _ => StemsFrom.of_base hbase⟩

/-- What a clause shows when its keys are known. -/
theorem shows_eq {proj : Projection} {names : List String} (hproj : c.projection = some proj)
    (hnames : projectionKeys proj.typeName c.keys none = .ok names) (key : String) :
    shows c key = match proj with
      | .omit => decide (key ∉ names)
      | .pick => decide (key ∈ names) := by
  have hany : (names.any fun name => (Json.str name).same (.str key)) = decide (key ∈ names) := by
    rw [Bool.eq_iff_iff, any_eq_true, decide_eq_true_eq]
    constructor
    · rintro ⟨name, hn, hsame⟩
      rw [same_iff_key rfl] at hsame
      cases hsame
      exact hn
    · exact fun hk => ⟨key, hk, (same_iff_key rfl).2 rfl⟩
  have hhides : hides c (.str key) = .ok ((proj = .omit) == decide (key ∈ names)) := by
    rw [hides, hproj]
    dsimp only
    rw [hnames, ← hany]
    rfl
  rw [shows, hhides]
  cases proj <;> by_cases hk : key ∈ names <;> simp [hk]

/-- An interface that can be compiled on its own without parameters is not a reserved one. -/
theorem interface_plan_of_schema {d : Interface} (hplain : d.parameters = [])
    (h : (p.declarationSchema (.interface d)).result = .ok schema) :
    p.reserved? (some (.interface d)) = .ok none ∧
      (do (← p.interfacePlan none .empty d {}).run p.compile :
        Compilation Schema).result = .ok schema := by
  rw [declaration_schema_eq, declarationPlan, interfaceUse, bind_assoc, bind_assoc] at h
  obtain ⟨reserved, hreserved, h⟩ := bind_ok_iff.1 h
  cases reserved with
  | some =>
    cases eq_of_reserved (lift_ok_iff.1 hreserved)
    dsimp only at h
    rw [reservedUse, hplain] at h
    cases h
  | none => exact ⟨lift_ok_iff.1 hreserved, by simpa [hplain, usePlan] using h⟩

variable (hkeyed : ∀ {entry member}, R entry member → entry.1 = member.name)

include hkeyed

theorem related_filter (h : Forall₂ R entries members) (shown : String → Bool) :
    Forall₂ R (entries.filter (shown ·.1)) (members.filter (shown ·.name)) := by
  induction h with
  | nil => exact .nil
  | @cons e member entries members he hr ih =>
    by_cases hshown : shown member.name = true
    · rw [filter_cons_of_pos (by rwa [hkeyed he]), filter_cons_of_pos (by exact hshown)]
      exact .cons he ih
    · rw [filter_cons_of_neg (by rwa [hkeyed he]), filter_cons_of_neg (by exact hshown)]
      exact ih

/-- The entry that counts for a key is related to the member that counts for it. -/
theorem entry_of_last_member (h : Forall₂ R entries members)
    (hlast : lastMember? members key = some member) :
    ∃ e, Schema.lastEntry? entries key = some e ∧ R (key, e) member := by
  have hrel : Option.Rel R (entries.reverse.find? (·.1 = key)) (lastMember? members key) :=
    find_related (rel_reverse h) fun he => by rw [hkeyed he]
  rw [hlast] at hrel
  unfold Schema.lastEntry?
  generalize hf : entries.reverse.find? (·.1 = key) = found at hrel
  cases hrel with
  | @some e _ he =>
    obtain rfl : e.1 = key := by simpa using find?_some hf
    exact ⟨e.2, rfl, he⟩

/-- The shape of a base is that part of the shape of its declaration that the clause shows. -/
theorem inherited_shape (h : (p.inherited c).result = .ok schema) (hbase : c.name = .str base)
    (hshaped : p.IsShaped defined R base members) :
    ∃ entries, schema.shape? defined = some entries ∧
      Forall₂ R entries (members.filter (shows c ·.name)) := by
  obtain ⟨target, htarget, h⟩ := bind_ok_iff.1 h
  rw [hbase] at htarget
  obtain ⟨entries, hshape, hes⟩ := reference_shape htarget hshaped
  cases hproj : c.projection with
  | none =>
    rw [hproj] at h
    cases h
    have hall (key : String) : shows c key = true := by
      rw [shows, hides, hproj]
    exact ⟨entries, hshape, by rwa [filter_eq_self.2 fun member _ => hall member.name]⟩
  | some proj =>
    rw [hproj] at h
    obtain ⟨names, hnames, h⟩ := bind_eq_ok_iff.1
      (show project target proj.typeName c.keys none = .ok schema from h)
    cases h
    have hkeys : Schema.keys (names.map fun name => (name, Schema.value (.bool true))) = names := by
      simp [Schema.keys, Function.comp_def]
    refine ⟨entries.filter (shows c ·.1), ?_, related_filter hkeyed hes _⟩
    obtain rfl | rfl : proj = .omit ∨ proj = .pick := by cases proj <;> simp
    · have hlower : String.ofList (Projection.omit.typeName.toList.map Char.toLower) = "omit" := rfl
      rw [hlower, Schema.modify, Schema.shape?, hshape, hkeys]
      simp only [shows_eq hproj hnames]
      rfl
    · have hlower : String.ofList (Projection.pick.typeName.toList.map Char.toLower) = "pick" := rfl
      rw [hlower, Schema.modify, Schema.shape?, hshape, hkeys]
      simp only [shows_eq hproj hnames]
      rfl

/-- Extending a chain by further bases adds what is taken over from them. -/
theorem extend_shape
    (hps : ∀ c ∈ cs, ∃ base, c.name = .str base ∧ p.IsShaped defined R base (parts c))
    {chain s : Schema} (h : (p.extend chain cs).result = .ok s)
    (hshape : chain.shape? defined = some entries) (hes : Forall₂ R entries members) :
    ∃ all, s.shape? defined = some all ∧ Forall₂ R all (members ++ shown cs parts) := by
  induction cs generalizing chain entries members with
  | nil =>
    cases h
    exact ⟨entries, hshape, by rwa [shown, flatMap_nil, append_nil]⟩
  | cons c rest ih =>
    obtain ⟨⟨base, hbase, hshaped⟩, hr⟩ := forall_mem_cons.1 hps
    obtain ⟨inherited, hinherited, h⟩ := bind_ok_iff.1 h
    obtain ⟨more, hmore, hms⟩ := inherited_shape hkeyed hinherited hbase hshaped
    rw [shown, flatMap_cons, ← append_assoc]
    refine ih hr h ?_ (rel_append hes hms)
    rw [Schema.modify, Schema.shape?, hshape, hmore]
    rfl

/-- The chain of all bases has the members that are taken over from them. -/
theorem chain_shape
    (hps : ∀ c ∈ cs, ∃ base, c.name = .str base ∧ p.IsShaped defined R base (parts c))
    {s : Schema} (h : (p.inheritedChain cs).result = .ok (some s)) :
    ∃ all, s.shape? defined = some all ∧ Forall₂ R all (shown cs parts) := by
  cases cs with
  | nil => cases h
  | cons =>
    obtain ⟨⟨base, hbase, hshaped⟩, hr⟩ := forall_mem_cons.1 hps
    obtain ⟨inherited, hinherited, h⟩ := bind_ok_iff.1 h
    obtain ⟨extended, hextended, h⟩ := bind_ok_iff.1 h
    cases h
    obtain ⟨entries, hshape, hes⟩ := inherited_shape hkeyed hinherited hbase hshaped
    exact extend_shape hkeyed hr hextended hshape hes

/-- The shape of an interface without an index signature: what it takes over from its bases, and
then its own members. -/
theorem interface_shape {d : Interface}
    (hps : ∀ c ∈ d.heritage, ∃ base, c.name = .str base ∧ p.IsShaped defined R base (parts c))
    (hown : ∀ member ∈ d.members, ∀ entry, p.Compiled env off entry member → R entry member)
    (hclosed : d.index = none) {s : Schema}
    (h : (do (← p.interfacePlan off env d {}).run p.compile : Compilation Schema).result = .ok s) :
    ∃ entries, s.shape? defined = some entries ∧ Forall₂ R entries
      (shown d.heritage parts ++ d.members.filter (·.type.isSome)) := by
  have hstrict (s : Schema) (strict : Bool) :
      (s.withModifiers (if strict then [⟨"strict", [], false⟩] else [])).shape? defined =
        s.shape? defined := by
    cases strict with
    | false => rfl
    | true => rw [if_pos rfl, Schema.withModifiers_cons, Schema.withModifiers_nil, Schema.modify,
        Schema.shape?]
  obtain ⟨plan, ss, hplan, hjobs, h⟩ := run_inversion h
  rw [interfacePlan, hclosed] at hplan
  cases hher : d.heritage with
  | nil =>
    rw [hher] at hplan
    cases hplan
    obtain ⟨hjobs, hassemble⟩ := object_plan_closed hjobs
    rw [hassemble] at h
    rw [eq_of_finish h, hstrict, objectSchema, Schema.shape?]
    exact ⟨_, rfl, compiled_of_jobs hown hjobs⟩
  | cons =>
    rw [hher] at hplan
    cases hplan
    obtain ⟨found, hf, h⟩ := bind_ok_iff.1 h
    cases found with
    | none => cases h
    | some =>
      rw [eq_of_finish h, hstrict]
      rw [hher] at hps
      obtain ⟨inherited, hinherited, hchain⟩ := extension_inversion hf
      obtain ⟨entries, hshape, hes⟩ := chain_shape hkeyed hps hinherited
      have hown := compiled_of_jobs hown hjobs
      rcases hchain with ⟨hnone, rfl⟩ | rfl
      · rw [hnone] at hown
        rw [forall₂_nil_left_iff.1 hown, append_nil]
        exact ⟨entries, hshape, hes⟩
      · rw [Schema.modify, Schema.shape?, hshape]
        exact ⟨_, rfl, rel_append hes hown⟩

omit hkeyed

/-- An interface that is compiled has a plan that is followed. -/
theorem HasSchema.plan_run {d : Interface} (h : p.HasSchema d env off schema) :
    (do (← p.interfacePlan off env d {}).run p.compile : Compilation Schema).result =
      .ok schema := by
  cases h with
  | declaration hplain h => exact (interface_plan_of_schema hplain h).2
  | body h => rwa [← interface_schema_eq]

/-- A description does not change a shape. -/
theorem finish_shape {tags : Tags} {s : Schema} (htags : p.OnlyDescribes tags)
    (h : (p.finish { tags := p.tags tags } s).result = .ok schema) :
    schema.shape? defined = s.shape? defined := by
  obtain ⟨mods, hmods, hdone⟩ := bind_ok_iff.1 h
  cases hdone
  have hnames := htags.2 mods hmods
  have hcalls (mod) (hmod : mod ∈ mods) : mod.raw = false := by
    obtain ⟨formats, -, hmods⟩ := bind_ok_iff.1 hmods
    exact (Refinement.modifiers_plain hmods mod hmod).raw
  clear hmods h
  induction mods generalizing s with
  | nil => rfl
  | cons mod rest ih =>
    obtain ⟨hname, hnames⟩ := forall_mem_cons.1 hnames
    obtain ⟨hcall, hcalls⟩ := forall_mem_cons.1 hcalls
    rw [Schema.withModifiers_cons, ih hnames hcalls, Schema.modify, hname, hcall, Schema.shape?]

/-- An alias without parameters is compiled as the type inside of all parentheses. -/
theorem compile_alias {d : Alias} (hplain : d.parameters = []) (htags : p.OnlyDescribes d.tags)
    (h : (p.declarationSchema (.typeAlias d)).result = .ok schema) :
    (do (← p.typePlan .empty { tags := p.tags d.tags } d.type.unwrap).run p.compile :
      Compilation Schema).result = .ok schema := by
  have hplan :=
    @plan_without_text p (Job.unwrap ⟨d.type, .empty, { tags := p.tags d.tags }⟩) htags.1
  rw [declarationSchema, hplain, if_pos isEmpty_nil, schema_of_some, ← compile_unwrap,
    compile_eq_run, hplan] at h
  exact h

theorem object_shape {tags : Tags} (htags : p.OnlyDescribes tags)
    (hown : ∀ member ∈ members, ∀ entry, p.Compiled .empty none entry member → R entry member)
    (h : (do (← p.typePlan .empty { tags := p.tags tags } (.object members none)).run p.compile :
      Compilation Schema).result = .ok schema) :
    ∃ entries, schema.shape? defined = some entries ∧
      Forall₂ R entries (members.filter (·.type.isSome)) := by
  obtain ⟨plan, ss, hplan, hjobs, h⟩ := run_inversion h
  cases hplan
  obtain ⟨hjobs, hassemble⟩ := object_plan_closed hjobs
  rw [hassemble] at h
  rw [finish_shape htags h, objectSchema, Schema.shape?]
  exact ⟨_, rfl, compiled_of_jobs hown hjobs⟩

theorem name_of_date (h : Builtin.ofName? (.str name) = some .date) : name = "Date" := by
  have hnames : ∀ e ∈ Builtin.names, e.2 = .date → e.1 = "Date" := by decide
  obtain ⟨e, he, hdate⟩ := Option.map_eq_some_iff.1 h
  obtain rfl : e.1 = name := by simpa using find?_some he
  exact hnames e (mem_of_find?_eq_some he) hdate

/-- A name that is compiled in an alias is a reference to its schema. -/
theorem reference_of_alias {ctx : Context} (hdefined : p.IsDefined defined name)
    (hdate : name ≠ "Date")
    (h : (do (← p.typePlan .empty ctx (.reference (.str name) [])).run p.compile :
      Compilation Schema).result = .ok schema) :
    ∃ target, (p.reference (.str name)).result = .ok target ∧
      (p.finish ctx target).result = .ok schema := by
  obtain ⟨decl, constant, target, hfind, hplain, -, htarget, -⟩ := hdefined
  obtain ⟨plan, ss, hplan, hjobs, h⟩ := run_inversion h
  obtain ⟨use, huse, hplan⟩ := bind_ok_iff.1 hplan
  have hn : p.find (.str name) = .ok (some decl) := by
    rw [find, ← hfind]
    rfl
  have hentered : ¬p.IsEntered decl := by
    rintro (hgeneric | ⟨d, hd⟩)
    · exact hgeneric hplain
    · cases decl with
      | interface => cases (interface_plan_of_schema hplain htarget).1.symm.trans hd
      | _ => cases hd
  cases use_of_result huse with
  | bound hb => cases hb
  | aliasBody hother he | interfaceBody hother he =>
    cases hn.symm.trans hother
    exact (hentered he).elim
  | name hnamed =>
    cases hplan
    cases named_use_of_result hnamed with
    | date hbuiltin => exact (hdate (name_of_date hbuiltin)).elim
    | bare => exact bind_ok_iff.1 h

/-- A tidy interface has a shape wherever it is compiled, if the constants of its bases have the
shapes of their members. -/
theorem tidy_interface_shape {d : Interface} {bases : Heritage → String}
    (hfind : p.declaration? (.text name) = some (.interface d)) (htidy : p.IsTidy name)
    (hbases : ∀ c ∈ d.heritage, c.name = .str (bases c))
    (hshaped : ∀ c ∈ d.heritage, p.BuiltOn name (bases c) →
      p.IsShaped defined (p.StemsFrom (bases c) .empty none) (bases c) (parts c))
    (h : (do (← p.interfacePlan off env d {}).run p.compile : Compilation Schema).result =
      .ok schema) :
    ∃ entries, schema.shape? defined = some entries ∧ Forall₂ (p.StemsFrom name env off) entries
      (shown d.heritage parts ++ d.members.filter (·.type.isSome)) := by
  cases htidy with
  | object hother | chain hother => cases hfind.symm.trans hother
  | interface hother hclosed =>
    cases hfind.symm.trans hother
    refine interface_shape StemsFrom.name_eq (fun c hc => ?_)
      (fun member hm _ h => .inl ⟨.interface hfind hm, h⟩) hclosed h
    have hbuilt : p.BuiltOn name (bases c) := .clause hfind hc (hbases c hc)
    exact ⟨bases c, hbases c hc, (hshaped c hc hbuilt).of_base hbuilt⟩

/-- The constant of a name has the shape of its members. -/
theorem HasMembers.shaped (hms : p.HasMembers name members) (htidy : p.IsTidyBelow name)
    (hdefined : ∀ base, Relation.ReflTransGen p.BuiltOn name base → p.IsDefined defined base) :
    p.IsShaped defined (p.StemsFrom name .empty none) name members := by
  induction hms with
  | @interface name d bases parts hfind hbases hps ih =>
    obtain ⟨decl, constant, schema, hdecl, hplain, hn, hschema, hshape⟩ := hdefined name .refl
    cases hfind.symm.trans hdecl
    obtain ⟨entries, hentries, hes⟩ := tidy_interface_shape hfind (htidy name .refl) hbases
      (fun c hc hbuilt => ih c hc (htidy.below hbuilt) fun base hbase =>
        hdefined base (.head hbuilt hbase)) (interface_plan_of_schema hplain hschema).2
    exact ⟨constant, entries, hn, hshape.trans hentries, hes⟩
  | @object name d members hfind ht =>
    cases htidy name .refl with
    | interface hother => cases hfind.symm.trans hother
    | chain hother _ href =>
      cases hfind.symm.trans hother
      cases ht.symm.trans href
    | object hother htags =>
      cases hfind.symm.trans hother
      obtain ⟨decl, constant, schema, hdecl, hplain, hn, hschema, hshape⟩ := hdefined name .refl
      cases hfind.symm.trans hdecl
      have hcomp := compile_alias hplain htags hschema
      rw [ht] at hcomp
      have hown (member) (hm : member ∈ members) (entry) (h : p.Compiled .empty none entry member) :
          p.StemsFrom name .empty none entry member := .inl ⟨.object hfind ht hm, h⟩
      obtain ⟨entries, hentries, hes⟩ := object_shape htags hown hcomp
      exact ⟨constant, entries, hn, hshape.trans hentries, hes⟩
  | @chain name base d members hfind ht hbase ih =>
    cases htidy name .refl with
    | interface hother => cases hfind.symm.trans hother
    | object hother _ hobj =>
      cases hfind.symm.trans hother
      cases ht.symm.trans hobj
    | chain hother htags href hdate =>
      cases hfind.symm.trans hother
      cases ht.symm.trans href
      obtain ⟨decl, constant, schema, hdecl, hplain, hn, hschema, hshape⟩ := hdefined name .refl
      cases hfind.symm.trans hdecl
      have hbuilt : p.BuiltOn name base := .chain hfind ht
      have hbelow := fun other hother => hdefined other (.head hbuilt hother)
      have hcomp := compile_alias hplain htags hschema
      rw [ht] at hcomp
      obtain ⟨target, htarget, hfinish⟩ := reference_of_alias (hbelow base .refl) hdate hcomp
      obtain ⟨entries, hentries, hes⟩ := reference_shape htarget
        ((ih (htidy.below hbuilt) hbelow).of_base hbuilt)
      exact ⟨constant, entries, hn,
        (hshape.trans (finish_shape htags hfinish)).trans hentries, hes⟩

/-- A name that is tidy all the way down has members. -/
theorem has_members (hacyclic : Acc (fun base name => p.BuiltOn name base) name)
    (htidy : p.IsTidyBelow name) : ∃ members, p.HasMembers name members := by
  induction hacyclic with
  | intro name _ ih =>
    cases htidy name .refl with
    | @interface d hfind _ _ hbases =>
      have hps (c) : ∃ base members, c ∈ d.heritage →
          c.name = .str base ∧ p.HasMembers base members := by
        by_cases hc : c ∈ d.heritage
        · obtain ⟨base, hbase⟩ := hbases c hc
          have hbuilt : p.BuiltOn name base := .clause hfind hc hbase
          obtain ⟨members, hms⟩ := ih base hbuilt (htidy.below hbuilt)
          exact ⟨base, members, fun _ => ⟨hbase, hms⟩⟩
        · exact ⟨"", [], fun hother => (hc hother).elim⟩
      choose bases parts hps using hps
      exact ⟨_, .interface hfind (fun c h => (hps c h).1) (fun c h => (hps c h).2)⟩
    | object hfind _ ht => exact ⟨_, .object hfind ht⟩
    | @chain d base hfind _ ht =>
      obtain ⟨members, hms⟩ := ih base (.chain hfind ht) (htidy.below (.chain hfind ht))
      exact ⟨members, .chain hfind ht hms⟩

end Shapes

/-- Let an interface and all that it is built on be tidy, without a cycle, and let a table of shapes
agree with what the interface is built on. If a lookup of a member of the interface returns a type,
then every schema that the interface is compiled to, as a declaration or where its parameters are
bound, has a shape, and the entry of the member in it is compiled from a member of that type, which
is declared by the interface or by one of the names that it is built on. -/
theorem lookup_agrees_with_chain {defined : Name → Option Shape} {declared : Interface}
    {environment : Environment} {off : Option Context} {schema : Schema}
    (hacyclic : Acc (fun base name => program.BuiltOn name base) name)
    (htidy : program.IsTidyBelow name)
    (hdefined : ∀ base, Relation.TransGen program.BuiltOn name base →
      program.IsDefined defined base)
    (hfind : program.find (.str name) = .ok (some (.interface declared)))
    (hschema : program.HasSchema declared environment off schema)
    (h : (program.memberType (some (.reference (.str name) [])) (.str key)).result =
      .ok (some type)) :
    ∃ shape entry member, schema.shape? defined = some shape ∧
      Schema.lastEntry? shape key = some entry ∧ member.type = some type ∧
      program.StemsFrom name environment off (key, entry) member := by
  have hdeclared : program.declaration? (.text name) = some (.interface declared) :=
    Except.ok.inj hfind
  obtain ⟨members, hmembers⟩ := has_members hacyclic htidy
  obtain ⟨member, hlast, htype⟩ := hmembers.type_of_lookup htidy h
  cases hmembers with
  | object hother | chain hother => cases hdeclared.symm.trans hother
  | @interface _ _ bases parts hother hbases hparts =>
    cases hdeclared.symm.trans hother
    obtain ⟨shape, hshape, hentries⟩ := tidy_interface_shape hdeclared (htidy name .refl) hbases
      (fun clause hclause hbuilt => (hparts clause hclause).shaped (htidy.below hbuilt)
        fun base hbase => hdefined base (.head' hbuilt hbase)) hschema.plan_run
    obtain ⟨entry, hentry, hstems⟩ := entry_of_last_member StemsFrom.name_eq hentries hlast
    exact ⟨shape, entry, member, hshape, hentry, htype, hstems⟩

/-- An alias of an object type with members of one name, and with a description. -/
def contact (types : List TypeExpr) : Alias where
  name := .str "Contact"
  tags := [("description", "An address.")]
  exported := true
  parameters := []
  type := .object (types.map fun type => ⟨"mail", some type, false, false, []⟩) none

/-- The interface that extends `Pick<Contact, "mail">` by a member of the type of its parameter. -/
def person : Interface where
  name := .str "Person"
  tags := []
  exported := true
  parameters := [⟨.str "T", none, none⟩]
  heritage := [⟨.str "Contact", some .pick, some (.literal (.str "mail"))⟩]
  members := [⟨"age", some (.reference (.str "T") []), false, false, []⟩]
  index := none

/-- The program of these declarations. -/
def people (types : List TypeExpr) : Program where
  unit := ⟨.null, [.typeAlias (contact types), .interface person], []⟩
  settings := Settings.default

/-- The environment in which the parameter is a number. -/
def aged : Environment := .mk 1 [⟨.str "T", .keyword .number, .empty⟩]

/-- The schema of the interface there. -/
def personSchema : Schema :=
  .modified (.modified (.reference (.str "contactSchema")) "pick"
    [.object [("mail", .value (.bool true))]] false) "extend"
    [.object [("age", .call "number" [])]] false

/-- The shape of the alias, given its entries. -/
def contactShape (mails : List Schema) : Name → Option Shape :=
  fun _ => some (mails.map ("mail", ·))

theorem person_shape (mails : List Schema) : personSchema.shape? (contactShape mails) =
    some (mails.map ("mail", ·) ++ [("age", .call "number" [])]) := by
  have hall : ∀ e ∈ mails.map (("mail", ·) : Schema → String × Schema),
      decide (e.1 ∈ Schema.keys [("mail", .value (.bool true))]) = true := by
    simp [Schema.keys]
  rw [personSchema, Schema.shape?, Schema.shape?, Schema.shape?]
  exact congrArg (fun es => some (es ++ _)) (filter_eq_self.2 hall)

/-- The lookup of an inherited member of a generic interface, of which the base has a description,
agrees with the chain of the interface. -/
theorem mail_lookup_agrees :
    let program := people [.keyword .string]
    (program.memberType (some (.reference (.str "Person") [])) (.str "mail")).result =
        .ok (some (.keyword .string)) ∧
      program.HasSchema person aged none personSchema ∧
      ∃ shape entry member, personSchema.shape? (contactShape [.call "string" []]) = some shape ∧
        Schema.lastEntry? shape "mail" = some entry ∧ member.type = some (.keyword .string) ∧
        program.StemsFrom "Person" aged none ("mail", entry) member := by
  intro program
  have hcontact : program.declaration? (.text "Contact") =
    some (.typeAlias (contact [.keyword .string])) := rfl
  have hperson : program.declaration? (.text "Person") = some (.interface person) := rfl
  have hcontactBases (base : String) : ¬program.BuiltOn "Contact" base := by
    rintro (⟨hfind, -⟩ | ⟨hfind, htype⟩)
    · cases hcontact.symm.trans hfind
    · cases hcontact.symm.trans hfind
      cases htype
  have hpersonBases (base : String) (h : program.BuiltOn "Person" base) : base = "Contact" := by
    obtain ⟨hfind, hclause, hbase⟩ | ⟨hfind, -⟩ := h
    · cases hperson.symm.trans hfind
      cases List.mem_singleton.1 hclause
      exact (Json.str.inj hbase).symm
    · cases hperson.symm.trans hfind
  have hbelow (base : String) (h : Relation.TransGen program.BuiltOn "Person" base) :
      base = "Contact" := by
    obtain ⟨next, hnext, hbase⟩ := Relation.TransGen.head'_iff.1 h
    cases hpersonBases next hnext
    rcases hbase.cases_head with rfl | ⟨last, hlast, -⟩
    · rfl
    · exact (hcontactBases last hlast).elim
  have hcontactTidy : program.IsTidy "Contact" := by
    refine .object hcontact ⟨rfl, fun modifiers h => ?_⟩ rfl (by decide)
    cases h
    exact List.forall_mem_singleton.2 rfl
  have hpersonTidy : program.IsTidy "Person" := by
    refine .interface hperson rfl (by decide) ?_ ?_
    · exact List.forall_mem_singleton.2 ⟨"Contact", rfl⟩
    · rintro first hfirst second hsecond key member other ⟨_, _, hbase, hmembers, -, hlast⟩
        ⟨_, _, hsame, hothers, -, hfound⟩
      cases List.mem_singleton.1 hfirst
      cases List.mem_singleton.1 hsecond
      cases hbase
      cases hsame
      rw [hmembers.unique hothers, hfound] at hlast
      cases hlast
      rfl
  have hacyclic : Acc (fun base name => program.BuiltOn name base) "Person" :=
    ⟨_, fun base h => hpersonBases base h ▸ ⟨_, fun base h => (hcontactBases base h).elim⟩⟩
  have htidy : program.IsTidyBelow "Person" := by
    intro base hbase
    rcases Relation.reflTransGen_iff_eq_or_transGen.1 hbase with rfl | hbase
    · exact hpersonTidy
    · exact hbelow base hbase ▸ hcontactTidy
  have hdefined (base : String) (hbase : Relation.TransGen program.BuiltOn "Person" base) :
      program.IsDefined (contactShape [.call "string" []]) base :=
    hbelow base hbase ▸ ⟨_, _, _, hcontact, rfl, rfl, rfl, rfl⟩
  have hschema : program.HasSchema person aged none personSchema := .body rfl
  exact ⟨rfl, hschema, lookup_agrees_with_chain hacyclic htidy hdefined rfl hschema rfl⟩

/-- Of two members of one name in an alias the lookup takes the first one, and the chain the last
one. -/
theorem repeated_member_disagrees :
    let program := people [.keyword .string, .keyword .number]
    let defined := contactShape [.call "string" [], .call "number" []]
    program.IsDefined defined "Contact" ∧
      (program.memberType (some (.reference (.str "Person") [])) (.str "mail")).result =
        .ok (some (.keyword .string)) ∧
      program.HasSchema person aged none personSchema ∧
      ∃ shape, personSchema.shape? defined = some shape ∧
        Schema.lastEntry? shape "mail" = some (.call "number" []) ∧
        ∀ (member : Member TypeExpr) (environment : Environment),
          member.type = some (.keyword .string) →
          ¬program.Compiled environment none ("mail", .call "number" []) member := by
  refine ⟨⟨_, _, _, rfl, rfl, rfl, rfl, rfl⟩, rfl, .body rfl, _, person_shape _, rfl, ?_⟩
  rintro member environment hmember ⟨-, type, htype, hcompiled⟩
  cases hmember.symm.trans htype
  obtain ⟨made, schemas, hplan, -, hassembled⟩ := compile_inversion hcompiled
  unfold plan at hplan
  split at hplan
  · cases hplan
    have hbase := (finishes_of_finish hassembled).base
    simp [Schema.base, Keyword.word] at hbase
  · split at hplan
    · cases hplan
      obtain ⟨schema, -, hassembled⟩ := Traced.bind_ok_iff.1 hassembled
      cases hassembled
    · cases hplan
      cases hassembled

end Program

end Schemata
