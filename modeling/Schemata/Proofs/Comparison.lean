import Mathlib.Data.List.Forall2
import Schemata.Proofs.Lookup

/-!
# Comparing two compilations

Two computations are compared step by step in more than one way: one of them may have to give what
the other one gives, or both fail together. A `Comparison` is such a way, built on a way to compare
plain results. `SameKind` says that two types are of the same kind and that their parts are related.
A `Wording` relates types as they are written, so that they are of the same kind inside of
parentheses; interfaces whose heritage is related by a wording extend the same schemas, and a search
for a member finds related types.
-/

namespace Schemata

open List

namespace Traced

variable {ω α β : Type}

theorem lift_bind (a : Except Failure α) (next : α → Except Failure β) :
    (liftM (a >>= next) : Traced ω β) = liftM a >>= fun v => liftM (next v) := by
  cases a <;> rfl

theorem lift_lift (result : Except Fault α) :
    (liftM (liftM result : Except Failure α) : Traced ω α) = liftM result := by
  cases result <;> rfl

end Traced

/-- Two results: values that are related, or the same error. Where failures are forgiven, an error
may stand beside anything. -/
inductive Follows {α β : Type} (forgiven : Prop) (related : α → β → Prop) :
    Except Fault α → Except Fault β → Prop where
  | ok {value other} (h : related value other) : Follows forgiven related (.ok value) (.ok other)
  | error (reason : Fault) : Follows forgiven related (.error reason) (.error reason)
  | any (h : forgiven) (reason : Fault) (second : Except Fault β) :
      Follows forgiven related (.error reason) second

/-- A way to compare two results. -/
structure ResultComparison where
  /-- Results that are compared by a relation of their values. -/
  agrees : {α β : Type} → (α → β → Prop) → Except Fault α → Except Fault β → Prop
  /-- Whether anything may stand beside a failure. -/
  forgives : Prop
  agrees_ok : ∀ {α β : Type} {related : α → β → Prop} {value : α} {other : β},
    related value other → agrees related (.ok value) (.ok other)
  agrees_error : ∀ {α β : Type} {related : α → β → Prop} (reason : Fault),
    agrees related (.error reason) (.error reason)
  agrees_any : ∀ {α β : Type} {related : α → β → Prop} (reason : Fault) (second : Except Fault β),
    forgives → agrees related (.error reason) second
  agrees_bind : ∀ {α β γ δ : Type} {related : α → β → Prop} {result : γ → δ → Prop}
    {first : Except Fault α} {second : Except Fault β} {next : α → Except Fault γ}
    {otherNext : β → Except Fault δ}, agrees related first second →
    (∀ value other, related value other → agrees result (next value) (otherNext other)) →
    agrees result (first >>= next) (second >>= otherNext)

/-- A way to compare two computations step by step. -/
structure Comparison extends ResultComparison where
  /-- Computations that are compared by a relation of their values. -/
  compares : {α β : Type} → (α → β → Prop) → Compilation α → Compilation β → Prop
  /-- Texts that a message may show in the place of each other. -/
  shows : Json → Json → Prop
  compares_pure : ∀ {α β : Type} {related : α → β → Prop} {value : α} {other : β},
    related value other → compares related (pure value) (pure other)
  compares_refl : ∀ {α : Type} (computation : Compilation α), compares Eq computation computation
  compares_fail : ∀ {α β : Type} {related : α → β → Prop} (failure : Failure),
    compares related (Traced.fail failure) (Traced.fail failure)
  compares_any : ∀ {α β : Type} {related : α → β → Prop} (failure : Failure)
    (second : Compilation β), forgives → compares related (Traced.fail failure) second
  compares_access : ∀ {α β : Type} {related : α → β → Prop} {text other : Json}, shows text other →
    compares related (Compilation.reject (.indexedAccess text))
      (Compilation.reject (.indexedAccess other))
  compares_note : ∀ {text other : Json} (notice : Json → Notice), shows text other →
    compares Eq (Compilation.note (notice text)) (Compilation.note (notice other))
  compares_warn : ∀ {text other : Json} (warning : Json → Warning), shows text other →
    compares Eq (Compilation.warn (warning text)) (Compilation.warn (warning other))
  compares_lift : ∀ {α β : Type} {related : α → β → Prop} {first : Except Fault α}
    {second : Except Fault β}, agrees related first second →
    compares related (liftM first) (liftM second)
  compares_bind : ∀ {α β γ δ : Type} {related : α → β → Prop} {result : γ → δ → Prop}
    {first : Compilation α} {second : Compilation β} {next : α → Compilation γ}
    {otherNext : β → Compilation δ}, compares related first second →
    (∀ value other, first.result = .ok value → second.result = .ok other → related value other →
      compares result (next value) (otherNext other)) →
    compares result (first >>= next) (second >>= otherNext)

namespace Comparison

variable (way : Comparison) {α β : Type} {t other : TypeExpr}

/-- After computations that give the same value, what comes next is compared. -/
theorem compares_then {α γ δ : Type} {result : γ → δ → Prop} {comp other : Compilation α}
    {next : α → Compilation γ} {otherNext : α → Compilation δ}
    (h : way.compares Eq comp other)
    (hnext : ∀ v, comp.result = .ok v → way.compares result (next v) (otherNext v)) :
    way.compares result (comp >>= next) (other >>= otherNext) := by
  refine way.compares_bind h fun v found hv _ heq => ?_
  exact heq ▸ hnext v hv

theorem compares_mono {α β : Type} {related weaker : α → β → Prop} {a : Compilation α}
    {b : Compilation β} (h : way.compares related a b)
    (himp : ∀ v other, a.result = .ok v → b.result = .ok other →
      related v other → weaker v other) : way.compares weaker a b := by
  have hbind := way.compares_bind h fun v other hv hother hrel =>
    way.compares_pure (himp v other hv hother hrel)
  rwa [bind_pure, bind_pure] at hbind

theorem agrees_refl (result : Except Fault α) : way.agrees Eq result result := by
  cases result with
  | ok => exact way.agrees_ok rfl
  | error reason => exact way.agrees_error reason

theorem agrees_mono {related weaker : α → β → Prop} {a : Except Fault α}
    {b : Except Fault β} (h : way.agrees related a b)
    (himp : ∀ v other, related v other → weaker v other) : way.agrees weaker a b := by
  have hbind := way.agrees_bind h fun v other hrel =>
    way.agrees_ok (himp v other hrel)
  have hpure {α : Type} (result : Except Fault α) : (result >>= fun v => .ok v) = result := by
    cases result <;> rfl
  rwa [hpure, hpure] at hbind

theorem agrees_of_follows {related : α → β → Prop} {a : Except Fault α} {b : Except Fault β}
    (h : Follows way.forgives related a b) : way.agrees related a b := by
  cases h with
  | ok h => exact way.agrees_ok h
  | error reason => exact way.agrees_error reason
  | any h reason b => exact way.agrees_any reason b h

/-- Warnings show types in the place of each other. -/
theorem compares_warned (h : way.agrees way.shows t.text other.text) (warning : Json → Warning)
    (next : Compilation α) :
    way.compares Eq (do Compilation.warn (warning (← t.text)); next)
      (do Compilation.warn (warning (← other.text)); next) := by
  refine way.compares_bind (way.compares_lift h) fun _ _ _ _ hshows => ?_
  exact way.compares_then (way.compares_warn warning hshows) fun _ _ => way.compares_refl _

theorem compares_rejected {related : α → β → Prop} (h : way.agrees way.shows t.text other.text) :
    way.compares related (do Compilation.reject (.indexedAccess (← t.text)))
      (do Compilation.reject (.indexedAccess (← other.text))) :=
  way.compares_bind (way.compares_lift h) fun _ _ _ _ hshows => way.compares_access hshows

/-- Computations of lists are compared one by one. -/
theorem compares_mapM {ι κ : Type} {jobs : List ι} {others : List κ}
    {compile : ι → Compilation Schema} {otherCompile : κ → Compilation Schema}
    (h : Forall₂ (fun job other => way.compares Eq (compile job) (otherCompile other))
      jobs others) :
    way.compares Eq (jobs.mapM compile) (others.mapM otherCompile) := by
  induction h with
  | nil => exact way.compares_refl _
  | cons ha hr ih =>
    rw [mapM_cons, mapM_cons]
    refine way.compares_then ha fun s _ => ?_
    exact way.compares_then ih fun ss _ => way.compares_refl _

end Comparison

/-- Whether the type is an element of a tuple that is spread or labelled. -/
def TypeExpr.isElement : TypeExpr → Bool
  | .spread _ => true
  | .named _ _ _ => true
  | _ => false

section Kinds

variable (types : TypeExpr → TypeExpr → Prop) (tags : Tags → Tags → Prop)

/-- Members of the same name whose types are related. -/
structure Member.Alike (member other : Member TypeExpr) : Prop where
  name : other.name = member.name
  optional : other.optional = member.optional
  tags : tags member.tags other.tags
  type : Option.Rel types member.type other.type

/-- Elements of tuples in the same place. -/
inductive TypeExpr.SameSlot : TypeExpr → TypeExpr → Prop where
  | spread {type other} (h : types (.spread type) (.spread other)) (hinner : types type other) :
      SameSlot (.spread type) (.spread other)
  | named (name : Name) (optional : Bool) {type other} (h : types type other) :
      SameSlot (.named name type optional) (.named name other optional)
  | plain {type other : TypeExpr} (h : types type other) (htype : type.isElement = false)
      (hother : other.isElement = false) : SameSlot type other

/-- Types of the same kind whose parts are related. A name with arguments is the same name. -/
inductive TypeExpr.SameKind : TypeExpr → TypeExpr → Prop where
  | keyword (word : Keyword) : SameKind (.keyword word) (.keyword word)
  | reference {name other arguments others} (hname : arguments ≠ [] → other = name)
      (h : List.Forall₂ types arguments others) :
      SameKind (.reference name arguments) (.reference other others)
  | literal (value : Json) : SameKind (.literal value) (.literal value)
  | enumMember (enumName memberName : Name) :
      SameKind (.enumMember enumName memberName) (.enumMember enumName memberName)
  | object {members others index otherIndex}
      (h : List.Forall₂ (Member.Alike types tags) members others)
      (hindex : Option.Rel (fun signature other => Option.Rel types signature.type other.type) index
        otherIndex) : SameKind (.object members index) (.object others otherIndex)
  | array {element other} (h : types element other) : SameKind (.array element) (.array other)
  | spread (type other : TypeExpr) : SameKind (.spread type) (.spread other)
  | named (name other : Name) (type otherType : TypeExpr) (optional otherOptional : Bool) :
      SameKind (.named name type optional) (.named other otherType otherOptional)
  | tuple {elements others} (h : List.Forall₂ (SameSlot types) elements others) :
      SameKind (.tuple elements) (.tuple others)
  | union {arms others} (h : List.Forall₂ types arms others) :
      SameKind (.union arms) (.union others)
  | intersection {arms others} (h : List.Forall₂ types arms others) :
      SameKind (.intersection arms) (.intersection others)
  | function {parameters others result} {other : TypeExpr}
      (h : List.Forall₂ (fun parameter other => other.optional =
        parameter.optional ∧ Option.Rel types parameter.type other.type) parameters others)
      (hresult : types result other) :
      SameKind (.function parameters result) (.function others other)
  | template (head : Json) {spans others} (h : List.Forall₂ (fun span other => other.literal =
        span.literal ∧ types span.type other.type) spans others) :
      SameKind (.template head spans) (.template head others)
  | indexed {base index otherBase otherIndex} (h : types base otherBase)
      (hindex : types index otherIndex) :
      SameKind (.indexed base index) (.indexed otherBase otherIndex)
  | paren {type other} (h : types type other) : SameKind (.paren type) (.paren other)
  | unsupported (kind text : Json) : SameKind (.unsupported kind text) (.unsupported kind text)

/-- If both types are names, they are the same name. -/
def TypeExpr.SameName (type other : TypeExpr) : Prop :=
  ∀ name arguments otherName others, type = .reference name arguments →
    other = .reference otherName others → otherName = name

/-- Clauses that extend the same interface, with the same keys. -/
structure Heritage.Alike (clause other : Heritage) : Prop where
  name : other.name = clause.name
  projection : other.projection = clause.projection
  keys : ∀ projection, Program.projectionKeys projection other.keys none =
    Program.projectionKeys projection clause.keys none
  named : types (.reference clause.name []) (.reference clause.name [])

/-- Declarations of the same kind whose types are related. -/
inductive Declaration.Alike : Declaration → Declaration → Prop where
  | typeAlias {declared other : Alias} (h : types declared.type other.type)
      (hparameters : other.parameters.isEmpty = declared.parameters.isEmpty) :
      Declaration.Alike (.typeAlias declared) (.typeAlias other)
  | interface {declared other : Interface}
      (h : List.Forall₂ (Member.Alike types tags) declared.members other.members)
      (hheritage : List.Forall₂ (Heritage.Alike types) declared.heritage other.heritage) :
      Declaration.Alike (.interface declared) (.interface other)
  | enumeration {declared other : Enumeration} (hname : other.name = declared.name)
      (h : other.members = declared.members) :
      Declaration.Alike (.enumeration declared) (.enumeration other)

variable {types tags}

/-- In lists that are related one by one, the first values that are looked for are related. -/
theorem find_related {α β : Type} {related : α → β → Prop} {xs : List α} {others : List β}
    {p : α → Bool} {q : β → Bool} (h : Forall₂ related xs others)
    (hsame : ∀ {v other}, related v other → q other = p v) :
    Option.Rel related (xs.find? p) (others.find? q) := by
  induction h with
  | nil => exact .none
  | cons hv _ ih =>
    rw [find?_cons, find?_cons, hsame hv]
    split
    · exact .some hv
    · exact ih

/-- The first members of a name are alike. -/
theorem find_member_alike {ms others : List (Member TypeExpr)}
    (h : Forall₂ (Member.Alike types tags) ms others) (name : Name) :
    Option.Rel (Member.Alike types tags) (findMember? ms name) (findMember? others name) :=
  find_related h fun hm => by rw [hm.name]

section Heritage

variable {p other : Program} {heritage others : List Heritage}

theorem Heritage.Alike.hides {c other : Heritage} (h : c.Alike types other) (key : Json) :
    Program.hides other key = Program.hides c key := by
  rw [Program.hides, Program.hides, h.projection]
  cases c.projection with
  | none => rfl
  | some =>
    dsimp only
    rw [h.keys]

/-- Interfaces are extended by the same schemas. -/
theorem extension_chain_alike (href : other.reference = p.reference)
    (h : Forall₂ (Heritage.Alike types) heritage others) (own : Option Schema) :
    other.extensionChain others own = p.extensionChain heritage own := by
  have hinherited {c otherClause : Heritage} (h : c.Alike types otherClause) :
      other.inherited otherClause = p.inherited c := by
    rw [Program.inherited, Program.inherited, href, h.name, h.projection]
    cases c.projection with
    | none => rfl
    | some =>
      simp only [Program.project, h.keys]
  have hextend {heritage others : List Heritage}
      (h : Forall₂ (Heritage.Alike types) heritage others) (chain : Schema) :
      other.extend chain others = p.extend chain heritage := by
    induction h generalizing chain with
    | nil => rfl
    | cons hc hr ih =>
      rw [Program.extend, Program.extend, hinherited hc]
      exact Traced.bind_congr fun s _ => ih _
  have hchain : other.inheritedChain others = p.inheritedChain heritage := by
    cases h with
    | nil => rfl
    | cons hc hr =>
      rw [Program.inheritedChain, Program.inheritedChain, hinherited hc]
      refine Traced.bind_congr fun s _ => ?_
      rw [hextend hr s]
  rw [Program.extensionChain, Program.extensionChain, hchain]

end Heritage

end Kinds

/-- A relation of types as they are written. Inside of parentheses they are of the same kind, with
related parts. -/
structure Wording where
  types : TypeExpr → TypeExpr → Prop
  tags : Tags → Tags → Prop
  unwrap : ∀ {type other : TypeExpr}, types type other → types type.unwrap other.unwrap
  kind : ∀ {type other : TypeExpr}, types type other →
    type.unwrap.SameKind types tags other.unwrap

namespace Wording

variable (wording : Wording)

section Keys

variable {proj : String}

theorem literal_keys {arms others : List TypeExpr} (h : Forall₂ wording.types arms others) :
    Program.literalKeys proj none others = Program.literalKeys proj none arms := by
  induction h with
  | nil => rfl
  | @cons arm other rest others harm hr ih =>
    have hkind := wording.kind harm
    rw [Program.literalKeys, Program.literalKeys, ih, Environment.resolve?, Environment.resolve?]
    generalize arm.unwrap = arm at hkind
    generalize other.unwrap = other at hkind
    cases hkind with
    | literal v => cases v <;> rfl
    | _ => rfl

theorem projection_keys {keys others : Option TypeExpr} (h : Option.Rel wording.types keys others) :
    Program.projectionKeys proj others none = Program.projectionKeys proj keys none := by
  cases h with
  | none => rfl
  | @some key other hk =>
    have hkind := wording.kind hk
    have hone := @literal_keys wording proj _ _ (.cons (wording.unwrap hk) .nil)
    rw [Program.projectionKeys, Program.projectionKeys, Environment.resolve?, Environment.resolve?]
    generalize key.unwrap = key at hkind hone
    generalize other.unwrap = other at hkind hone
    cases hkind with
    | union harms => exact wording.literal_keys harms
    | _ => exact hone

end Keys

section Members

variable (way : Comparison) {p other : Program} {key : Json}

/-- A search among extended interfaces finds related types when it does so in each of them. -/
theorem search_heritage {search otherSearch : Name → Compilation (Option TypeExpr)}
    {heritage others : List Heritage}
    (hher : Forall₂ (Heritage.Alike wording.types) heritage others)
    (h : ∀ name, wording.types (.reference name []) (.reference name []) →
      way.compares (Option.Rel wording.types) (search name) (otherSearch name)) :
    way.compares (Option.Rel wording.types) (Program.searchHeritage key search heritage)
      (Program.searchHeritage key otherSearch others) := by
  induction hher with
  | nil => exact way.compares_pure .none
  | @cons c other rest others hc hr ih =>
    rw [Program.searchHeritage, Program.searchHeritage, hc.hides, hc.name]
    refine way.compares_then (way.compares_refl _) fun hidden _ => ?_
    cases hidden with
    | true => exact ih
    | false =>
      refine way.compares_bind (h c.name hc.named) fun found other _ _ hrel => ?_
      cases hrel with
      | none => exact ih
      | some hrelated => exact way.compares_pure (.some hrelated)

/-- A name under which declarations are looked up that are alike. -/
def Declared (program other : Program) (name otherName : Name) : Prop :=
  otherName = name ∧ ∀ nameKey, name.key = .ok nameKey →
    Option.Rel (Declaration.Alike wording.types wording.tags) (program.declaration? nameKey)
      (other.declaration? nameKey)

/-- A member of types that are related has related types, if names are declared alike or lead to no
member at all. -/
theorem member_type_within
    (hn : ∀ {name args otherName others}, wording.types (.reference name args)
        (.reference otherName others) → wording.Declared p other name otherName ∨
      ∀ steps seen, way.compares (Option.Rel wording.types)
        (p.memberTypeWithin key (steps + 1) seen (.reference name args))
        (other.memberTypeWithin key (steps + 1) seen (.reference otherName others)))
    (steps : Nat) (seen : List Key) {container otherContainer : TypeExpr}
    (h : wording.types container otherContainer) :
    way.compares (Option.Rel wording.types) (p.memberTypeWithin key steps seen container)
      (other.memberTypeWithin key steps seen otherContainer) := by
  have hun (p : Program) (steps : Nat) (seen : List Key) (container : TypeExpr) :
      p.memberTypeWithin key steps seen container.unwrap =
        p.memberTypeWithin key steps seen container := by
    cases steps with
    | zero => rfl
    | succ => rw [Program.memberTypeWithin, Program.memberTypeWithin, TypeExpr.unwrap_unwrap]
  induction steps generalizing seen container otherContainer with
  | zero => exact way.compares_pure .none
  | succ steps ih =>
    have hts := wording.unwrap h
    have hkind := wording.kind h
    rw [← hun p, ← hun other]
    have hnotParen := container.unwrap_ne_paren
    generalize container.unwrap = container at hts hkind hnotParen
    generalize otherContainer.unwrap = otherContainer at hts hkind
    cases hkind with
    | @object ms others index otherIndex hms =>
      have hm := find_member_alike hms key
      simp only [Program.memberTypeWithin, TypeExpr.unwrap]
      generalize findMember? ms key = m at hm
      generalize findMember? others key = otherMember at hm
      cases hm with
      | none => exact way.compares_pure .none
      | some halike => exact way.compares_pure halike.type
    | @reference name otherName =>
      rcases hn hts with ⟨rfl, hd⟩ | hmissing
      · rw [Program.memberTypeWithin, Program.memberTypeWithin]
        refine way.compares_then (way.compares_refl _) fun nameKey hk => ?_
        have hnotFound : way.compares (Option.Rel wording.types)
            (do Compilation.note (.memberNotFound key otherName); return none)
            (do Compilation.note (.memberNotFound key otherName); return none) :=
          way.compares_then (way.compares_refl _) fun _ _ => way.compares_pure .none
        have hrel := hd nameKey (Traced.lift_ok_iff.1 hk)
        dsimp only
        split
        · exact way.compares_pure .none
        · generalize p.declaration? nameKey = found at hrel
          generalize other.declaration? nameKey = otherFound at hrel
          cases hrel with
          | none => exact hnotFound
          | some halike =>
            cases halike with
            | enumeration => exact hnotFound
            | typeAlias ht _ => exact ih _ ht
            | @interface d other hms hher =>
              have hm := find_member_alike hms key
              dsimp only
              generalize findMember? d.members key = m at hm
              generalize findMember? other.members key = otherMember at hm
              cases hm with
              | some halike => exact way.compares_pure halike.type
              | none =>
                refine way.compares_bind (wording.search_heritage way hher fun name ht =>
                  ih _ ht) fun found other _ _ hrel => ?_
                cases hrel with
                | none => exact hnotFound
                | some ht => exact way.compares_pure (.some ht)
      · exact hmissing steps seen
    | @paren t => exact absurd rfl (hnotParen t)
    | _ => exact way.compares_pure .none

end Members

end Wording

end Schemata
