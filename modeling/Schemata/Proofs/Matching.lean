import Schemata.Proofs.Lockstep

/-!
# Computations that match

`Matches` says that one computation gives what another one gives, as far as that one succeeds. What
is done with types that are alike matches, `matching`. An indexed access to an object type is
excused: its members are looked at as they are written, without the environment, so that the second
computation may fail where the first one gives up. So jobs that are alike give the same schema,
`compile_matches`, unless an index of an object type is met on the way.
-/

namespace Schemata

open List
open Traced (bind_ok_iff lift_ok lift_ok_iff bind_trace_of_ok)

/-- Whenever the first computation gives a value, the second one gives a related value and tells the
same of the schema, or it fails for an excuse. -/
def Matches {α β : Type} (excused : Prop) (related : α → β → Prop) (first : Compilation α)
    (second : Compilation β) : Prop :=
  ∀ value, first.result = .ok value →
    (∃ other, second.result = .ok other ∧ related value other ∧
      marks second.trace = marks first.trace) ∨
    excused ∧ ∃ failure, second.result = .error failure

section Matches

variable {α β γ δ : Type} {excused : Prop} {related : α → β → Prop} {result : γ → δ → Prop}
  {b : Compilation β}

theorem matches_pure {v : α} {other : β} (h : related v other) :
    Matches excused related (pure v) (pure other) := by
  intro found hf
  cases hf
  exact .inl ⟨other, rfl, h, rfl⟩

theorem matches_refl (comp : Compilation α) : Matches excused Eq comp comp :=
  fun v hv => .inl ⟨v, hv, rfl, rfl⟩

/-- A failure is matched by anything. -/
theorem matches_fail {failure : Failure} :
    Matches excused related (Traced.fail failure) b := fun _ h => nomatch h

theorem Matches.mono {other : Prop} {a : Compilation α}
    (h : Matches excused related a b) (himp : excused → other) : Matches other related a b := by
  intro v hv
  rcases h v hv with hmatch | ⟨hexc, hfailure⟩
  · exact .inl hmatch
  · exact .inr ⟨himp hexc, hfailure⟩

/-- Two computations match two others when each one matches. -/
theorem matches_bind {a : Compilation α} {next : α → Compilation γ}
    {otherNext : β → Compilation δ} (ha : Matches excused related a b)
    (hnext : ∀ v other, a.result = .ok v → b.result = .ok other →
      related v other → Matches excused result (next v) (otherNext other)) :
    Matches excused result (a >>= next) (b >>= otherNext) := by
  intro v hv
  obtain ⟨middle, hmiddle, hv⟩ := bind_ok_iff.1 hv
  -- The second computation can fail in its first step or in what comes next, for the same excuse.
  rcases ha middle hmiddle with
    ⟨other, hother, hrel, htrace⟩ | ⟨hexc, failure, hfailure⟩
  · obtain ⟨trace, found⟩ := b
    cases hother
    rcases hnext middle other hmiddle rfl hrel v hv with
      ⟨last, hlast, hres, hlastTrace⟩ | ⟨hexc, failure, hfailure⟩
    · refine .inl ⟨last, hlast, hres, ?_⟩
      rw [bind_trace_of_ok hmiddle, Traced.bind_ok, marks_append, marks_append, htrace, hlastTrace]
    · exact .inr ⟨hexc, failure, hfailure⟩
  · obtain ⟨trace, found⟩ := b
    cases hfailure
    exact .inr ⟨hexc, failure, rfl⟩

/-- A quiet computation may come before the first of two that match. -/
theorem matches_quiet_bind {a : Compilation γ} {next : γ → Compilation α}
    (hquiet : Quiet a) (hnext : ∀ v, a.result = .ok v → Matches excused related (next v) b) :
    Matches excused related (a >>= next) b := by
  intro v hv
  obtain ⟨middle, hmiddle, hv⟩ := bind_ok_iff.1 hv
  rw [bind_trace_of_ok hmiddle, marks_append, hquiet, nil_append]
  exact hnext middle hmiddle v hv

theorem matches_lift {a : Except Fault α} {b : Except Fault β}
    (h : ∀ v, a = .ok v → ∃ other, b = .ok other ∧ related v other) :
    Matches excused related (liftM a) (liftM b) := by
  intro v hv
  obtain ⟨other, hother, hrel⟩ := h v (lift_ok_iff.1 hv)
  refine .inl ⟨other, lift_ok_iff.2 hother, hrel, ?_⟩
  exact (quiet_lift b).trans (quiet_lift a).symm

theorem matches_note (notice other : Notice) :
    Matches excused Eq (Compilation.note notice) (Compilation.note other) :=
  fun v hv => .inl ⟨v, hv, rfl, rfl⟩

end Matches

section Likeness

variable {substitution : Substitution} {first second : Environment} {type other : TypeExpr}

/-- A type that can be shown can be shown with parameters replaced. -/
theorem AlikeBy.text_shown (h : AlikeBy substitution (type, first) (other, second)) (v : Json)
    (hv : type.text = .ok v) : ∃ shown, other.text = .ok shown := by
  obtain rfl : other = type.instantiate substitution := h.type
  exact (TypeExpr.keeps_text h.proper type).1 ⟨v, hv⟩

/-- Types that are alike are of the same kind, unless a parameter is replaced. -/
theorem AlikeBy.leads (h : AlikeBy substitution (type, first) (other, second))
    (hsettled : type.Settled substitution.scope) :
    LeadTogether Alike Eq (type, first) (other, second) := by
  obtain rfl : other = type.instantiate substitution := h.type
  refine ⟨⟨substitution, h⟩, ?_, fun name args otherName others ht hother => ?_⟩
  · refine TypeExpr.same_kind_instantiate h.proper (fun _ => rfl) (fun name args ht => ?_)
      (fun part hpart => ⟨substitution, h.part hpart⟩)
      fun part hpart inner hi => ⟨substitution, (h.part hpart).part hi⟩
    dsimp only at ht
    subst ht
    exact ⟨name, TypeExpr.instantiate_reference (hsettled name args rfl) args, fun _ => rfl⟩
  · dsimp only at ht hother
    subst ht
    rw [TypeExpr.instantiate_reference (hsettled name args rfl)] at hother
    cases hother
    rfl

/-- What is done with types that are alike matches. -/
def matching (program : Program) (excused : Prop) :
    Likeness program (program.version program.unit) where
  compares := Matches excused
  agrees related first second :=
    ∀ value, first = .ok value → ∃ other, second = .ok other ∧ related value other
  shows _ _ := True
  forgives := True
  compares_pure := matches_pure
  compares_refl := matches_refl
  compares_fail _ := matches_fail
  compares_any _ _ _ := matches_fail
  compares_access _ := matches_fail
  compares_note _ _ := matches_note _ _
  compares_warn _ _ := fun value hvalue => .inl ⟨value, hvalue, rfl, rfl⟩
  compares_lift := matches_lift
  compares_bind := matches_bind
  agrees_ok h := by
    rintro _ ⟨⟩
    exact ⟨_, rfl, h⟩
  agrees_error _ := fun _ h => by cases h
  agrees_any _ _ _ := fun _ h => by cases h
  agrees_bind hfirst hnext := by
    intro value hvalue
    obtain ⟨middle, hmiddle, hvalue⟩ := bind_eq_ok_iff.1 hvalue
    obtain ⟨other, hother, hrelated⟩ := hfirst middle hmiddle
    obtain ⟨last, hlast, hresult⟩ := hnext middle other hrelated value hvalue
    exact ⟨last, bind_eq_ok_iff.2 ⟨other, hother, hlast⟩, hresult⟩
  relates := Alike
  tags := Eq
  tags_eq := @Program.version_unit_tags program
  any := by
    rintro _ _ _ _ ⟨substitution, h⟩
    exact ⟨substitution, h.proper, .of_no_parts rfl (by simp), rfl, h.linked⟩
  text := by
    rintro _ _ _ _ ⟨substitution, h⟩ v hv
    exact (h.text_shown v hv).imp fun _ hshown => ⟨hshown, trivial⟩
  null := by
    rintro type other _ _ ⟨substitution, h⟩
    obtain rfl : other = type.instantiate substitution := h.type
    exact TypeExpr.is_null_instantiate h.proper
  resolves := by
    rintro type other first second ⟨substitution, h⟩
    cases hfound : first.resolve type.unwrap with
    | error reason => exact .any trivial reason _
    | ok found =>
      obtain ⟨reached, otherInner, via, hreached, halike, hsettled⟩ :=
        resolve_alike h.unwrap hfound
      rw [hreached]
      exact .ok (halike.leads hsettled)

/-- Types that are alike are seen alike. -/
theorem matching_clear (p : Program) (excused : Prop) : (matching p excused).Clear where
  leads := by
    rintro first second type other ⟨substitution, h⟩ ⟨found, inner⟩ hf
    obtain ⟨reached, otherInner, via, hreached, halike, hsettled⟩ := resolve_alike h hf
    have hun := halike.unwrap.leads (halike.plain.settled_unwrap hsettled)
    refine ⟨_, hreached, ⟨hun.related, hun.kind⟩, fun name otherName hn hother => ?_,
      (halike.leads hsettled).kind⟩
    rw [hun.name name [] otherName [] hn hother]
    exact matches_refl _

end Likeness

/-- The indices of the chain are taken of an object type. -/
def Chain.OfObject (chain : Chain) : Prop :=
  ∃ members index, chain.root? = some (.object members index)

/-- A job takes an index of an object type. -/
structure Job.IndexesObject (job : Job) : Prop where
  type : ∃ base index, job.type = .indexed base index
  root : (job.environment.chain job.type).OfObject

/-- An index of an object type is taken on the way to the schema of a job. -/
def Program.MeetsObjectIndex (program : Program) (job : Job) : Prop :=
  ∃ met, program.Reaches met job ∧ met.IndexesObject

section Access

variable {p : Program} {excused : Prop} {chain other : Chain} {t : TypeExpr}

/-- A name has the same members with all arguments, and so has every type that is no object. -/
def matchingSearch (program : Program) (excused : Prop) : (matching program excused).Search where
  written type other :=
    (∀ key, program.memberType (some other) key = program.memberType (some type) key) ∧
      program.elementSegment (some other) = program.elementSegment (some type)
  members key h := by
    change Matches _ _ _ (program.memberType _ key)
    rw [h.1 key]
    exact (matching program excused).compares_mono (matches_refl _) fun found _ _ _ heq =>
      heq ▸ rel_refl fun _ _ => ⟨fun _ => rfl, rfl⟩
  elements h := h.2
  roots _ :=
    (matching program excused).compares_mono (matches_refl _) fun found _ _ _ heq =>
      heq ▸ rel_refl fun _ _ => ⟨fun _ => rfl, rfl⟩

theorem written_of_leads {other : TypeExpr} {inner otherInner : Environment}
    (h : LeadTogether Alike Eq (t, inner) (other, otherInner)) (hobj : ¬(Chain.root t).OfObject)
    (hun : t.unwrap = t) : (matchingSearch p excused).written t other := by
  have hkind := h.kind
  have hn := h.name
  dsimp only at hkind hn
  cases hkind with
  | reference _ _ =>
    cases hn _ _ _ _ rfl rfl
    exact ⟨fun _ => rfl, rfl⟩
  | object _ _ => exact (hobj ⟨_, _, rfl⟩).elim
  | @paren t other _ => exact absurd hun (TypeExpr.unwrap_ne_paren _ t)
  | _ => exact ⟨fun _ => rfl, rfl⟩

theorem Chain.OfObject.of_chains {written : TypeExpr → TypeExpr → Prop} (hobj : chain.OfObject)
    (h : (matching p excused).Chains written chain other) : other.OfObject := by
  induction h with
  | broken | forgiven =>
    obtain ⟨ms, sig, hroot⟩ := hobj
    cases hroot
  | root hleads _ =>
    obtain ⟨ms, sig, hroot⟩ := hobj
    cases hroot
    have hkind := hleads.kind
    dsimp only at hkind
    cases hkind with
    | object _ _ => exact ⟨_, _, rfl⟩
  | index _ _ _ ih => exact ih hobj

namespace Program

variable {later : List String}

/-- An access to an object type has no path. -/
theorem access_chain_of_object (h : chain.OfObject) {found : Option Schema}
    (hf : (p.accessChain chain later).result = .ok found) : found = none := by
  obtain ⟨ms, sig, hroot⟩ := h
  cases found with
  | none => rfl
  | some =>
    obtain ⟨name, _, _, hspells, -⟩ := (access_chain_comes chain later).of_some hf
    obtain ⟨args, hn⟩ := hspells.root
    cases hn.symm.trans hroot

/-- A path that is not there tells nothing of the schema. -/
theorem marks_of_no_path (h : (p.accessChain chain later).result = .ok none) :
    marks (p.accessChain chain later).trace = [] := by
  obtain ⟨warning, hw⟩ := (access_chain_comes chain later).of_none h
  rw [← marks_findings, hw]
  rfl

/-- Accesses that are alike match, where an access to an object type may fail with an excuse. -/
theorem indexed_access_matches {a b : Environment} {other : TypeExpr} (h : Alike (t, a) (other, b))
    (hexc : (a.chain t).OfObject → excused) :
    Matches excused Eq (p.accessChain (a.chain t) []) (p.accessChain (b.chain other) []) := by
  by_cases hobj : (a.chain t).OfObject
  -- Neither access to an object type has a path, so that only a failure tells them apart.
  · have hchains : (matching p excused).Chains (fun _ _ => True) (a.chain t)
        (b.chain other) := Likeness.chains h fun _ _ _ => trivial
    intro found hf
    cases access_chain_of_object hobj hf
    cases hother : (p.accessChain (b.chain other) []).result with
    | error failure => exact .inr ⟨hexc hobj, failure, rfl⟩
    | ok =>
      cases access_chain_of_object (hobj.of_chains hchains) hother
      refine .inl ⟨none, rfl, rfl, ?_⟩
      exact (marks_of_no_path hother).trans (marks_of_no_path hf).symm
  · refine (matchingSearch p excused).access h fun hroot hun hleads =>
      written_of_leads hleads ?_ hun
    rintro ⟨ms, sig, hf⟩
    cases hf
    exact hobj ⟨ms, sig, hroot⟩

end Program

end Access

namespace Program

section Uses

variable {p : Program} {excused : Prop} {sub : Substitution}
  {first second : Environment} {name : Name} {args others : List TypeExpr}

/-- An interface is the same in environments that are linked. -/
theorem interfaces_of_linked (h : Linked .none first second) (d : Interface) :
    (matching p excused).Interfaces first second d d := by
  have hobj := (alike_of_linked h (.object d.members d.index)).leads fun _ _ ht => by cases ht
  have hkind := hobj.kind
  dsimp only at hkind
  cases hkind with
  | object hms hidx =>
    exact ⟨rfl, hms, hidx, rfl, fun _ => rfl, (matching p excused).any hobj.related⟩

theorem reserved_of_linked (h : Linked .none first second) (d : Interface) :
    (matching p excused).Reserved first second d d := by
  have hclear := matching_clear p excused
  exact Likeness.reserved_same _ (fun key => rel_imp (h.kept rfl) fun _ _ _ _ => hclear.sees)
    (fun t _ => hclear.sees ⟨.none, alike_of_linked h t⟩)
    fun hk => interfaces_of_linked (linked_without h hk) d

/-- Where a nesting is left, one is left at a smaller depth. -/
theorem check_depth_matches (name : Name) (h : second.depth ≤ first.depth) :
    Matches excused Eq (p.checkDepth name first) (p.checkDepth name second) := by
  intro done hdone
  have hleft := left_of_check hdone
  have hother : p.nestingsLeft second.depth ≠ 0 := by
    unfold nestingsLeft at hleft ⊢
    split at hleft <;> omega
  unfold checkDepth
  rw [if_neg hleft, if_neg hother]
  exact .inl ⟨(), rfl, rfl, rfl⟩

/-- A declaration is entered in environments that are linked. -/
theorem instantiation_matches (p : Program) {params : List GenericParameter}
    (h : AlikeBy sub (.reference name args, first) (.reference name
      (args.map (TypeExpr.instantiate sub)), second)) :
    Matches excused (Linked .none) (instantiation params name args first)
      (instantiation params name (args.map (TypeExpr.instantiate sub)) second) := by
  refine (matching p excused).instantiates ⟨sub, h⟩ (fun bound hbound => ?_)
    fun _ _ => matches_note _ _
  exact linked_bind_types h.proper h.linked (fun arg harg => h.plain.part harg)
    (linked_enter h.linked.depth_le) hbound

/-- A name that is not replaced is used in the same way with arguments that are alike. -/
theorem referring_of_alike
    (h : AlikeBy sub (.reference name args, first) (.reference name
      (args.map (TypeExpr.instantiate sub)), second))
    (hn : Unbound sub.scope name) :
    (matching p excused).Referring name name args
      (args.map (TypeExpr.instantiate sub)) first second where
  related := ⟨sub, h⟩
  types := TypeExpr.related_map fun arg harg => ⟨sub, h.part harg⟩
  bound := by
    intro key hk
    have hfree : sub key = none := by
      have hscope : (sub key).isSome = false := hn key (key?_of_key hk)
      exact Option.not_isSome_iff_eq_none.1 (by simp [hscope])
    exact ⟨key, hk, h.linked.kept hfree, fun _ => rfl⟩
  found _ := by
    intro found hf
    refine ⟨found, hf, ?_⟩
    have hi (params : List GenericParameter) :=
      @instantiation_matches excused sub first second name args p params h
    have henter := linked_enter h.linked.depth_le
    cases found with
    | none => exact .none
    | some decl =>
      cases decl with
      | enumeration d => exact .some (.enumeration d d)
      | typeAlias d =>
        exact .some (.typeAlias rfl rfl fun _ =>
          (matching p excused).compares_mono (hi _) fun _ _ _ _ hlinked =>
            ⟨.none, alike_of_linked hlinked d.type⟩)
      | interface d =>
        refine .some (.interface rfl rfl (fun _ => ?_) fun _ => reserved_of_linked henter d)
        refine (matching p excused).compares_mono (hi _) fun _ _ _ _ hlinked => ?_
        split
        · exact reserved_of_linked hlinked d
        · exact interfaces_of_linked hlinked d
  depth d := check_depth_matches d h.linked.depth_le
  anyKey _ _ key hk other hother := by
    rw [head?_map, hk] at hother
    cases hother
    exact (matching_clear p excused).any_key ⟨sub, h.part (mem_of_mem_head? hk)⟩

end Uses

section Compile

variable {p : Program} {excused : Prop} {job : Job}

/-- A bound parameter has the schema of what it is bound to. -/
theorem compile_bound {env : Environment} {name : Name} {key : Key} {b : Binding Environment}
    (hk : name.key = .ok key) (hb : env.binding? key = some b) (args : List TypeExpr)
    (ctx : Context) :
    p.compile ⟨.reference name args, env, ctx⟩ = p.compile ⟨b.type, b.environment, ctx⟩ := by
  have hs : typeSchema p (p.bodyFrom env) (.reference name args)
      env (p.meaningsOf env) = inContext (typeSchema p
        (p.bodyFrom b.environment) b.type b.environment
        (p.meaningsOf b.environment)) := by
    funext ctx
    rw [typeSchema, referenceSchema, hk, lift_ok, pure_bind, meanings_of_eq, hb]
    rfl
  rw [compile, hs, in_context_twice]
  rfl

/-- Types that are alike have plans that match, unless a parameter is replaced. -/
theorem plan_matches {sub : Substitution} {a b : Environment} {t other : TypeExpr} {ctx : Context}
    (h : AlikeBy sub (t, a) (other, b)) (hsettled : t.Settled sub.scope)
    (hexc : Job.IndexesObject ⟨t, a, ctx⟩ → excused) :
    Matches excused (matching p excused).Plans (p.plan ⟨t, a, ctx⟩) (p.plan ⟨other, b, ctx⟩) := by
  have hleads := h.leads hsettled
  refine (matching p excused).plan_of_types fun inner _ => ?_
  refine (matching p excused).type_plan hleads.related hleads.kind
    ((matching_clear p excused).looks hleads.related hleads.kind
      (fun _ _ _ => (matching p excused).agrees_refl _) (fun ht hother => ?_)
      fun {name args otherName others} ht hother => ?_)
  · subst ht hother
    exact indexed_access_matches hleads.related fun hobj => hexc ⟨⟨_, _, rfl⟩, hobj⟩
  · subst ht
    have hn := hsettled name args rfl
    have heq := h.type
    dsimp only at heq
    rw [TypeExpr.instantiate_reference hn] at heq
    subst heq
    cases hother
    exact (matching p excused).use (referring_of_alike h hn)

theorem MeetsObjectIndex.of_calls {next : Job} (h : p.MeetsObjectIndex next)
    (hcalls : p.Calls next job) : p.MeetsObjectIndex job := by
  obtain ⟨met, hmet, hobj⟩ := h
  exact ⟨met, hmet.tail hcalls, hobj⟩

/-- Jobs that are alike give the same schema, unless an index of an object type is met. -/
theorem compile_matches {other : Job} (h : (matching p excused).Jobs job other)
    (hexc : p.MeetsObjectIndex job → excused) :
    Matches excused Eq (p.compile job) (p.compile other) := by
  refine (matching p excused).compile_of_plans (fun job _ => p.MeetsObjectIndex job → excused)
    (fun hknown hplan _ hnext hmeets => ?_) (fun {job other} h hknown => ?_) h hexc
  · exact hknown (hmeets.of_calls ⟨_, hplan, (of_mem_zip hnext).1⟩)
  obtain ⟨t, env, ctx⟩ := job
  obtain ⟨otherType, otherEnvironment, otherContext⟩ := other
  obtain ⟨⟨sub, halike⟩, hctx⟩ := h
  dsimp only at halike hctx
  subst hctx
  by_cases hparam : ∃ name key arg, t = .reference name [] ∧
      name.key? = some key ∧ sub key = some arg
  · -- A parameter that is replaced is bound to what replaces it: both jobs give its schema.
    obtain ⟨name, key, arg, rfl, hk, harg⟩ := hparam
    obtain rfl : otherType = arg := halike.type.trans (TypeExpr.instantiate_replaced hk harg [])
    obtain ⟨spelled, hb⟩ := halike.linked.replaced harg
    rw [compile_bound (key_of_key? hk) hb]
    exact .inl (matches_refl _)
  · have hsettled : t.Settled sub.scope := by
      refine halike.plain.settled fun name hn => ?_
      rcases TypeExpr.replaced_or_unbound sub name with
        ⟨key, arg, hk, harg⟩ | hunbound
      · exact (hparam ⟨name, key, arg, hn, hk, harg⟩).elim
      · exact hunbound
    exact .inr (plan_matches halike hsettled fun hobj => hknown ⟨_, .refl, hobj⟩)

end Compile

end Program

end Schemata
