import Schemata.Proofs.Availability
import Schemata.Proofs.Degradation
import Schemata.Proofs.Parentheses

/-!
# The texts of a template

`Program.Harvests` says which texts the type of a span stands for, by the kinds of types that have
texts, and `Program.SpanUnion` finds the union that such a type leads to. A template stands for one
text for each choice of a text in every span. `ListsPlaces` says what a list of all choices is: it
is complete, in lexicographic order and without repetition. `expansion_is_ordered_product` puts both
together. The arms of a union that are no literals play no part in it, `other_arms_passed_over`.
-/

namespace Schemata

open List
open Traced (bind_ok_iff lift_ok lift_ok_iff bind_trace_of_ok)

variable {values : Values} {arms : List TypeExpr}

/-- The text of a literal, if it is not null. -/
def literalText? : Json → Option String
  | .null => none
  | value => some (literalText value)

/-- The texts of some literals, with null apart from them. -/
def Values.ofLiterals (literals : List Json) : Values where
  texts := literals.filterMap literalText?
  hasNull := literals.any (· matches .null)

/-- Null is among some literals. -/
theorem Values.has_null_of_literals {literals : List Json} :
    (Values.ofLiterals literals).hasNull = true ↔ .null ∈ literals := by
  refine any_eq_true.trans ⟨fun ⟨v, hv, hnull⟩ => ?_, fun h => ⟨_, h, rfl⟩⟩
  cases v with
  | null => exact hv
  | _ => cases hnull

/-- The value of a literal. -/
def TypeExpr.literal? : TypeExpr → Option Json
  | .literal value => some value
  | _ => none

/-- The first of some members of an enumeration that has a given name and a value. -/
def Enumerator.IsFirstValued (member : Enumerator) (name : Name) (members : List Enumerator) :
    Prop :=
  member.name.same name = true ∧ member.initializer ≠ .null ∧
    ∃ before after, members = before ++ member :: after ∧
      ∀ other ∈ before, other.name.same name = true → other.initializer = .null

namespace Environment

/-- The literal that an arm of a union leads to, if it leads to one. -/
def armLiteral? (environment : Environment) (arm : TypeExpr) : Option Json :=
  (environment.substitute arm).toOption.bind (·.unwrap.literal?)

/-- The literals that the arms of a union lead to, in order. -/
def armLiterals (environment : Environment) (arms : List TypeExpr) : List Json :=
  arms.filterMap environment.armLiteral?

theorem arm_literals_cons {env : Environment} {arm found : TypeExpr}
    (h : env.substitute arm = .ok found) (rest : List TypeExpr) :
    env.armLiterals (arm :: rest) = found.unwrap.literal?.toList ++ env.armLiterals rest := by
  have harm : env.armLiteral? arm = found.unwrap.literal? := by
    rw [armLiteral?, h]
    rfl
  rw [armLiterals, filterMap_cons, harm]
  cases found.unwrap.literal? with
  | none | some => rfl

end Environment

namespace Program

section Spans

variable (program : Program) (environment : Environment) (type : TypeExpr)

/-- The union that the type of a span leads to, through bound parameters, parentheses and an alias,
and the environment in which its arms are read. -/
inductive SpanUnion : List TypeExpr → Environment → Prop where
  | inline {found : TypeExpr} {inner arms} (hfound : environment.resolve type = .ok (found, inner))
      (hunion : found.unwrap = .union arms) : SpanUnion arms inner
  | named {found : TypeExpr} {inner name} {declared : Alias} {arms}
      (hfound : environment.resolve type = .ok (found, inner))
      (hname : found.unwrap = .reference name [])
      (hdeclared : program.find name = .ok (some (.typeAlias declared)))
      (hparameters : declared.parameters = []) (hunion : declared.type.unwrap = .union arms) :
      SpanUnion arms .empty

/-- The texts that the type of a span stands for: a literal, the literals of a union, the value of a
member of an enumeration, or those of all its members. A literal and a union may have a name. -/
inductive Harvests : Values → Prop where
  | literal {found : TypeExpr} {inner value}
      (hfound : environment.resolve type = .ok (found, inner))
      (hliteral : found.unwrap = .literal value) : Harvests ⟨[literalText value], false⟩
  | union {arms : List TypeExpr} {inner : Environment}
      (hunion : program.SpanUnion environment type arms inner) :
      Harvests (.ofLiterals (inner.armLiterals arms))
  | enumMember {found : TypeExpr} {inner enumName memberName} {declared : Enumeration}
      {member : Enumerator} (hfound : environment.resolve type = .ok (found, inner))
      (hmember : found.unwrap = .enumMember enumName memberName)
      (hdeclared : program.find enumName = .ok (some (.enumeration declared)))
      (hfirst : member.IsFirstValued memberName declared.members) :
      Harvests ⟨[literalText member.initializer], false⟩
  | namedLiteral {found : TypeExpr} {inner name} {declared : Alias} {value}
      (hfound : environment.resolve type = .ok (found, inner))
      (hname : found.unwrap = .reference name [])
      (hdeclared : program.find name = .ok (some (.typeAlias declared)))
      (hparameters : declared.parameters = []) (hliteral : declared.type.unwrap = .literal value)
      (hnull : value ≠ .null) : Harvests ⟨[literalText value], false⟩
  | enumeration {found : TypeExpr} {inner name} {declared : Enumeration}
      (hfound : environment.resolve type = .ok (found, inner))
      (hname : found.unwrap = .reference name [])
      (hdeclared : program.find name = .ok (some (.enumeration declared)))
      (hvalues : ∀ member ∈ declared.members, member.initializer ≠ .null) :
      Harvests ⟨declared.members.map (literalText ·.initializer), false⟩

/-- The texts that the types of some spans stand for, one by one. -/
def HarvestsEach (spans : List (TemplateSpan TypeExpr)) : List Values → Prop :=
  List.Forall₂ (fun span => program.Harvests environment span.type) spans

end Spans

variable {p : Program} {env inner : Environment} {t : TypeExpr}

section Harvest

/-- What is harvested from a union are the literals that its arms lead to. -/
theorem harvest_union_values
    (h : harvestUnion env arms = .ok values) : values = .ofLiterals (env.armLiterals arms) := by
  induction arms generalizing values with
  | nil =>
    cases h
    rfl
  | cons arm rest ih =>
    obtain ⟨found, hf, h⟩ := bind_eq_ok_iff.1 h
    obtain ⟨⟨texts, hasNull⟩, hothers, h⟩ := bind_eq_ok_iff.1 h
    have hr := ih hothers
    dsimp only at h
    rw [Environment.arm_literals_cons hf]
    cases hkind : found.unwrap with
    | literal v =>
      rw [hkind] at h
      cases v with
      | null =>
        cases h
        exact congrArg (fun values : Values => Values.mk values.texts true) hr
      | _ =>
        cases h
        exact congrArg (fun values : Values => Values.mk (_ :: values.texts) values.hasNull) hr
    | _ =>
      rw [hkind] at h
      cases h
      exact hr

theorem harvest_members_of_values (enumName : Name) {ms : List Enumerator}
    (h : ∀ m ∈ ms, m.initializer ≠ .null) :
    harvestMembers enumName ms = pure (some (ms.map (literalText ·.initializer))) := by
  induction ms with
  | nil => rfl
  | cons m rest ih =>
    have hr := ih (forall_mem_cons.1 h).2
    have ha := h m mem_cons_self
    unfold harvestMembers
    split
    · rename_i hnull
      exact (ha hnull).elim
    · rw [hr, pure_bind]
      rfl

/-- The members of an enumeration are harvested only if all of them have a value. -/
theorem values_of_harvest_members {enumName : Name} {ms : List Enumerator}
    {texts : List String} (h : (harvestMembers enumName ms).result = .ok (some texts)) :
    ∀ m ∈ ms, m.initializer ≠ .null := by
  induction ms generalizing texts with
  | nil => exact fun _ h => by cases h
  | cons m rest ih =>
    unfold harvestMembers at h
    split at h
    · obtain ⟨_, -, h⟩ := bind_ok_iff.1 h
      obtain ⟨_, -, h⟩ := bind_ok_iff.1 h
      cases h
    · rename_i hv
      obtain ⟨found, hf, h⟩ := bind_ok_iff.1 h
      cases found with
      | none => cases h
      | some => exact forall_mem_cons.2 ⟨hv, ih hf⟩

/-- The texts of a name are those of its alias or of its enumeration. -/
theorem harvests_of_named {found : TypeExpr} {name : Name}
    (hf : env.resolve t = .ok (found, inner)) (hn : found.unwrap = .reference name [])
    (h : (p.harvestNamed name).result = .ok (some values)) : p.Harvests env t values := by
  obtain ⟨decl, hd, h⟩ := bind_ok_iff.1 h
  have hd := lift_ok_iff.1 hd
  split at h
  · split at h
    · rename_i arms hunion
      obtain ⟨others, hothers, h⟩ := bind_ok_iff.1 h
      cases h
      rw [harvest_union_values (lift_ok_iff.1 hothers)]
      exact .union (.named hf hn hd rfl hunion)
    · obtain ⟨_, -, h⟩ := bind_ok_iff.1 h
      cases h
    · rename_i v hnull hliteral
      cases h
      exact .namedLiteral hf hn hd rfl hliteral hnull
    · obtain ⟨_, -, h⟩ := bind_ok_iff.1 h
      cases h
  · rename_i d
    obtain ⟨texts, htexts, h⟩ := bind_ok_iff.1 h
    cases texts with
    | none => cases h
    | some =>
      have hvalues := values_of_harvest_members htexts
      rw [harvest_members_of_values _ hvalues] at htexts
      cases htexts
      cases h
      exact .enumeration hf hn hd hvalues
  · obtain ⟨_, -, h⟩ := bind_ok_iff.1 h
    cases h

/-- The text of a member of an enumeration is the value of the first member of its name that has
one. -/
theorem enumerator_text_eq_some_iff {enumName memberName : Name} {text : String} :
    p.enumeratorText? enumName memberName = .ok (some text) ↔
      ∃ (d : Enumeration) (m : Enumerator), p.find enumName = .ok (some (.enumeration d)) ∧
        m.IsFirstValued memberName d.members ∧
        text = literalText m.initializer := by
  have hvalued (v : Json) : (!v matches .null) = true ↔ v ≠ .null := by
    cases v <;> simp
  refine bind_eq_ok_iff.trans ⟨fun ⟨decl, hd, h⟩ => ?_, ?_⟩
  · split at h
    · rename_i d
      obtain ⟨m, hm, rfl⟩ := Option.map_eq_some_iff.1 (Except.ok.inj h)
      obtain ⟨hholds, before, after, hms, hbefore⟩ := find?_eq_some_iff_append.1 hm
      obtain ⟨hn, hv⟩ := Bool.and_eq_true_iff.1 hholds
      refine ⟨d, m, hd, ⟨hn, (hvalued _).1 hv, before, after, hms, ?_⟩, rfl⟩
      intro other hother hsame
      have hfails := Bool.not_inj (y := false) (hbefore other hother)
      by_contra hv
      cases hfails.symm.trans (Bool.and_eq_true_iff.2 ⟨hsame, (hvalued _).2 hv⟩)
    · cases h
  · rintro ⟨d, m, hd, ⟨hn, hv, before, after, hms, hbefore⟩, rfl⟩
    refine ⟨_, hd, ?_⟩
    refine congrArg Except.ok (Option.map_eq_some_iff.2 ⟨m, ?_, rfl⟩)
    refine find?_eq_some_iff_append.2 ⟨?_, before, after, hms, fun other hother => ?_⟩
    · exact Bool.and_eq_true_iff.2 ⟨hn, (hvalued _).2 hv⟩
    · refine congrArg not (Bool.eq_false_iff.2 fun h => ?_)
      obtain ⟨hsame, hv⟩ := Bool.and_eq_true_iff.1 h
      exact (hvalued _).1 hv (hbefore other hother hsame)

/-- What is harvested from a span is what its type stands for. -/
theorem harvests_of_result (h : (p.harvest env t).result = .ok (some values)) :
    p.Harvests env t values := by
  obtain ⟨⟨found, inner⟩, hf, h⟩ := bind_ok_iff.1 h
  have hf := lift_ok_iff.1 hf
  dsimp only at h
  split at h
  · rename_i hliteral
    cases h
    exact .literal hf hliteral
  · rename_i arms hunion
    obtain ⟨others, hothers, h⟩ := bind_ok_iff.1 h
    cases h
    rw [harvest_union_values (lift_ok_iff.1 hothers)]
    exact .union (.inline hf hunion)
  · rename_i hm
    obtain ⟨text, htext, h⟩ := bind_ok_iff.1 h
    cases text with
    | none =>
      obtain ⟨_, -, h⟩ := bind_ok_iff.1 h
      cases h
    | some =>
      cases h
      obtain ⟨d, m, hd, ha, rfl⟩ := enumerator_text_eq_some_iff.1 (lift_ok_iff.1 htext)
      exact .enumMember hf hm hd ha
  · rename_i hn
    exact harvests_of_named hf hn h
  · obtain ⟨_, -, h⟩ := bind_ok_iff.1 h
    obtain ⟨_, -, h⟩ := bind_ok_iff.1 h
    cases h

section WellTyped

variable (hunit : p.unit.WellTyped) (henvironment : env.WellTyped)

include hunit henvironment

/-- The arms of the union of a well-typed span can be harvested. -/
theorem harvest_span_union (ht : t.WellTyped) (h : p.SpanUnion env t arms inner) :
    harvestUnion inner arms = .ok (.ofLiterals (inner.armLiterals arms)) := by
  have hvalues : ∃ values, harvestUnion inner arms = .ok values := by
    obtain ⟨reached, place, hreached, htyped, hplace⟩ := henvironment.resolve_ok ht
    cases h with
    | inline hf hunion =>
      cases hreached.symm.trans hf
      have harms := htyped.unwrap
      rw [hunion] at harms
      exact harvest_union_ok hplace fun arm harm => harms.part harm
    | named hf hn hd hparams hunion =>
      have hbody := (hunit _ (mem_of_find hd)).body _ (mem_singleton.2 rfl)
      have harms := hbody.unwrap
      rw [hunion] at harms
      exact harvest_union_ok (Environment.no_bindings_well_typed 0) fun arm harm =>
        harms.part harm
  obtain ⟨values, hvalues⟩ := hvalues
  rw [hvalues, harvest_union_values hvalues]

omit hunit henvironment in
/-- A span that leads to a name is harvested from its declaration. -/
theorem harvest_reference {found : TypeExpr} {name : Name} (hf : env.resolve t = .ok (found, inner))
    (hn : found.unwrap = .reference name []) : p.harvest env t = p.harvestNamed name := by
  rw [harvest, hf, lift_ok, pure_bind]
  dsimp only
  rw [hn]

/-- What the type of a span stands for is harvested, and nothing is reported. -/
theorem harvest_of_harvests (ht : t.WellTyped)
    (h : p.Harvests env t values) : p.harvest env t = pure (some values) := by
  cases h with
  | literal hf hliteral =>
    rw [harvest, hf, lift_ok, pure_bind]
    dsimp only
    rw [hliteral]
  | union hunion =>
    have hvalues := harvest_span_union hunit henvironment ht hunion
    cases hunion with
    | inline hf hunion =>
      rw [harvest, hf, lift_ok, pure_bind]
      dsimp only
      rw [hunion]
      dsimp only
      rw [hvalues, lift_ok, pure_bind]
    | @named found inner name d arms hf hn hd hparams hunion =>
      obtain ⟨_, _, _, params, aliased⟩ := d
      cases hparams
      rw [harvest_reference hf hn, harvestNamed, hd, lift_ok, pure_bind]
      dsimp only at hunion ⊢
      rw [hunion]
      dsimp only
      rw [hvalues, lift_ok, pure_bind]
  | enumMember hf hm hd ha =>
    have htext := enumerator_text_eq_some_iff.2 ⟨_, _, hd, ha, rfl⟩
    rw [harvest, hf, lift_ok, pure_bind]
    dsimp only
    rw [hm]
    dsimp only
    rw [htext, lift_ok, pure_bind]
  | @namedLiteral found inner name d v hf hn hd hparams hliteral hnull =>
    obtain ⟨_, _, _, params, aliased⟩ := d
    cases hparams
    rw [harvest_reference hf hn, harvestNamed, hd, lift_ok, pure_bind]
    dsimp only at hliteral ⊢
    rw [hliteral]
    cases v with
    | null => exact (hnull rfl).elim
    | _ => rfl
  | enumeration hf hn hd hvalues =>
    rw [harvest_reference hf hn, harvestNamed, hd, lift_ok, pure_bind]
    dsimp only
    rw [harvest_members_of_values _ hvalues, pure_bind]
    rfl

/-- The type of a well-typed span is followed to its end. -/
theorem harvest_result_ok (ht : t.WellTyped) : ∃ found, (p.harvest env t).result = .ok found := by
  -- No setting is looked at, so the usual ones stand for those of the program.
  have hp : Program.WellTyped ⟨p.unit, .default⟩ := ⟨hunit, Settings.default_well_typed⟩
  exact value_of_settles (harvest_settles hp henvironment ht)

/-- A span that stands for no texts is reported. -/
theorem warned_of_unharvested (ht : t.WellTyped) (h : ∀ values, ¬p.Harvests env t values) :
    0 < (warnings (p.harvest env t).trace).length := by
  obtain ⟨found, hf⟩ := harvest_result_ok hunit henvironment ht
  cases found with
  | none => exact harvest_warns env t hf
  | some values => exact (h values (harvests_of_result hf)).elim

variable {spans : List (TemplateSpan TypeExpr)}

/-- Spans that stand for texts are harvested one by one. -/
theorem harvest_spans_of_harvests (hts : ∀ span ∈ spans, span.type.WellTyped)
    {lists : List Values} (h : p.HarvestsEach env spans lists) :
    p.harvestSpans env spans = pure (some (lists.zip (spans.map TemplateSpan.literal))) := by
  induction h with
  | nil => rfl
  | cons ha hr ih =>
    rw [forall_mem_cons] at hts
    rw [harvestSpans, harvest_of_harvests hunit henvironment hts.1 ha, pure_bind,
      ih hts.2, pure_bind]
    rfl

/-- What is reported of spans is reported of one after the other. -/
theorem warnings_of_spans {span : TemplateSpan TypeExpr} (ht : span.type.WellTyped) :
    warnings (p.harvestSpans env (span :: spans)).trace =
      warnings (p.harvest env span.type).trace ++ warnings (p.harvestSpans env spans).trace := by
  obtain ⟨found, hf⟩ := harvest_result_ok hunit henvironment ht
  rw [harvestSpans, bind_trace_of_ok hf, warnings_append]
  obtain ⟨trace, result⟩ := p.harvestSpans env spans
  cases result with
  | ok => rw [Traced.bind_ok, Traced.pure_eq, append_nil]
  | error => rfl

/-- Spans that stand for no texts are reported one by one. -/
theorem warned_of_unharvested_spans (hts : ∀ span ∈ spans, span.type.WellTyped)
    {failing : List (TemplateSpan TypeExpr)} (hfailing : failing.Sublist spans)
    (h : ∀ span ∈ failing, ∀ values, ¬p.Harvests env span.type values) :
    failing.length ≤ (warnings (p.harvestSpans env spans).trace).length := by
  induction hfailing with
  | slnil => exact Nat.zero_le _
  | cons span hr ih =>
    rw [forall_mem_cons] at hts
    rw [warnings_of_spans hunit henvironment hts.1, length_append]
    exact Nat.le_add_left_of_le (ih hts.2 h)
  | cons_cons span hr ih =>
    rw [forall_mem_cons] at hts h
    have ha := warned_of_unharvested hunit henvironment hts.1 h.1
    have hothers := ih hts.2 h.2
    rw [warnings_of_spans hunit henvironment hts.1, length_append, length_cons]
    omega

end WellTyped

/-- Spans are harvested only if all of them stand for texts. -/
theorem harvests_of_spans {spans : List (TemplateSpan TypeExpr)} {harvested : List (Values × Json)}
    (h : (p.harvestSpans env spans).result = .ok (some harvested)) :
    ∃ lists, p.HarvestsEach env spans lists ∧
      harvested = lists.zip (spans.map TemplateSpan.literal) := by
  induction spans generalizing harvested with
  | nil =>
    cases h
    exact ⟨[], .nil, rfl⟩
  | cons span rest ih =>
    obtain ⟨values, hvalues, h⟩ := bind_ok_iff.1 h
    obtain ⟨others, hothers, h⟩ := bind_ok_iff.1 h
    cases values with
    | none => cases h
    | some values =>
      cases others with
      | none => cases h
      | some =>
        cases h
        obtain ⟨lists, hlists, rfl⟩ := ih hothers
        exact ⟨values :: lists, .cons (harvests_of_result hvalues) hlists, rfl⟩

end Harvest

end Program

section Product

/-- All choices of a place in each of some lists of given lengths. -/
def placesIn : List Nat → List (List Nat)
  | [] => [[]]
  | length :: rest => (List.range length).flatMap fun place => (placesIn rest).map (place :: ·)

/-- The list holds each choice of a place in every one of some lists, in lexicographic order and
without repetition. -/
structure ListsPlaces (lists : List (List String)) (places : List (List Nat)) : Prop where
  complete : ∀ choice, choice ∈ places ↔
    List.Forall₂ (fun place list => place < list.length) choice lists
  ordered : places.Pairwise (List.Lex (· < ·))
  count : places.length = (lists.map List.length).prod

/-- The texts at some places. -/
def chosen (lists : List (List String)) (choice : List Nat) : List String :=
  List.zipWith (fun list place => list.getD place "") lists choice

/-- Texts, each with the text after it, as one text. -/
def spelled : List (String × String) → String
  | [] => ""
  | (text, after) :: rest => text ++ after ++ spelled rest

theorem mem_places_in {lengths : List Nat} {choice : List Nat} :
    choice ∈ placesIn lengths ↔ Forall₂ (· < ·) choice lengths := by
  induction lengths generalizing choice with
  | nil => simp [placesIn, forall₂_nil_right_iff]
  | cons length rest ih =>
    simp only [placesIn, mem_flatMap, mem_range, mem_map, ih, forall₂_cons_right_iff]
    constructor
    · rintro ⟨place, hplace, others, hothers, rfl⟩
      exact ⟨place, others, hplace, hothers, rfl⟩
    · rintro ⟨place, others, hplace, hothers, rfl⟩
      exact ⟨place, hplace, others, hothers, rfl⟩

theorem places_in_ordered (lengths : List Nat) :
    (placesIn lengths).Pairwise (List.Lex (· < ·)) := by
  induction lengths with
  | nil => exact pairwise_singleton _ _
  | cons length rest ih =>
    refine pairwise_flatMap.2 ⟨fun place _ => ?_, ?_⟩
    · exact pairwise_map.2 (ih.imp fun h => .cons h)
    · refine pairwise_lt_range.imp fun {place other} hlt choice hchoice later hlater => ?_
      obtain ⟨_, -, rfl⟩ := mem_map.1 hchoice
      obtain ⟨_, -, rfl⟩ := mem_map.1 hlater
      exact .rel hlt

theorem length_places_in (lengths : List Nat) : (placesIn lengths).length = lengths.prod := by
  induction lengths with
  | nil => rfl
  | cons length rest ih => simp [placesIn, length_flatMap, ih]

theorem lists_places_in (lists : List (List String)) :
    ListsPlaces lists (placesIn (lists.map List.length)) where
  complete _ := mem_places_in.trans forall₂_map_right_iff
  ordered := places_in_ordered _
  count := length_places_in _

/-- A list is what stands at its places. -/
theorem map_get_range (list : List String) :
    (List.range list.length).map (list.getD · "") = list := by
  refine ext_getElem (by simp) fun place _ hplace => ?_
  simp [getD_eq_getElem?_getD, hplace]

/-- The products of texts are the texts of all choices, in order. -/
theorem products_eq {lists : List Values} {afters : List String}
    (h : lists.length = afters.length) :
    Program.products (lists.zip (afters.map Json.str)) =
      .ok ((placesIn ((lists.map Values.texts).map List.length)).map fun choice =>
        spelled ((chosen (lists.map Values.texts) choice).zip afters)) := by
  induction lists generalizing afters with
  | nil => rfl
  | cons values rest ih =>
    cases afters with
    | nil => cases h
    | cons =>
      have hr := ih (Nat.succ.inj h)
      simp only [map_cons, zip_cons_cons, Program.products, hr]
      show Except.ok _ = Except.ok _
      refine congrArg Except.ok ?_
      conv_lhs => rw [← map_get_range values.texts]
      simp only [placesIn, flatMap_map, map_flatMap, map_map]
      rfl

end Product

namespace Program

variable {program : Program} {environment : Environment} {head : String}
  {spans : List (TemplateSpan TypeExpr)} {afters : List String}

section Expansion

/-- A template is expanded only if all its spans stand for texts, each for at least one. -/
theorem harvests_of_expand {start : Json}
    (h : (program.expand environment start spans).result = .ok (some values)) :
    ∃ lists, program.HarvestsEach environment spans lists ∧
      ∀ values ∈ lists, values.texts ≠ [] := by
  obtain ⟨harvested, hharvested, h⟩ := bind_ok_iff.1 h
  cases harvested with
  | none => cases h
  | some =>
    obtain ⟨lists, hlists, rfl⟩ := harvests_of_spans hharvested
    refine ⟨lists, hlists, fun found hf hnil => ?_⟩
    have hzip : (lists.zip (spans.map TemplateSpan.literal)).map Prod.fst = lists :=
      map_fst_zip (by rw [length_map, hlists.length_eq])
    rw [← hzip] at hf
    obtain ⟨x, hx, rfl⟩ := mem_map.1 hf
    dsimp only at h
    rw [if_pos (any_eq_true.2 ⟨x, hx, List.isEmpty_iff.2 hnil⟩)] at h
    obtain ⟨_, -, h⟩ := bind_ok_iff.1 h
    obtain ⟨_, -, h⟩ := bind_ok_iff.1 h
    cases h

/-- What is reported in a first step stays reported. -/
theorem warnings_le_bind {α β : Type} (a : Compilation α) (next : α → Compilation β) :
    (warnings a.trace).length ≤ (warnings (a >>= next).trace).length := by
  obtain ⟨trace, result⟩ := a
  cases result with
  | error => exact Nat.le_refl _
  | ok =>
    rw [Traced.bind_ok, warnings_append, length_append]
    exact Nat.le_add_right _ _

/-- No setting is looked at when spans are harvested. -/
theorem harvest_spans_settings (settings : Settings) :
    program.harvestSpans environment spans =
      Program.harvestSpans ⟨program.unit, settings⟩ environment spans := by
  induction spans with
  | nil => rfl
  | cons span rest ih =>
    rw [harvestSpans, harvestSpans, ih]
    rfl

variable (hunit : program.unit.WellTyped) (henvironment : environment.WellTyped)

include hunit henvironment

/-- A type stands for the same texts, however they are found. -/
theorem harvests_unique {t : TypeExpr} {values others : Values} (ht : t.WellTyped)
    (h : program.Harvests environment t values)
    (hothers : program.Harvests environment t others) : values = others := by
  have hsame := (harvest_of_harvests hunit henvironment ht h).symm.trans
    (harvest_of_harvests hunit henvironment ht hothers)
  exact Option.some.inj (Except.ok.inj (congrArg Traced.result hsame))

section Spans

variable (hts : ∀ span ∈ spans, span.type.WellTyped)

include hts

/-- Spans stand for the same texts, however they are found. -/
theorem spans_harvests_unique {lists others : List Values}
    (h : program.HarvestsEach environment spans lists)
    (hothers : program.HarvestsEach environment spans others) : lists = others := by
  induction h generalizing others with
  | nil => cases hothers; rfl
  | cons ha hr ih =>
    rw [forall_mem_cons] at hts
    cases hothers with
    | cons hother hothers =>
      rw [harvests_unique hunit henvironment hts.1 ha hother, ih hts.2 hothers]

/-- Null is one of the texts of some span exactly if it is an arm of the union of a span. -/
theorem any_null_iff {lists : List Values}
    (h : program.HarvestsEach environment spans lists) :
    lists.any Values.hasNull = true ↔
      ∃ span ∈ spans, ∃ arms inner, program.SpanUnion environment span.type arms inner ∧
        ∃ arm ∈ arms, inner.armLiteral? arm = some .null := by
  induction h with
  | nil => simp
  | @cons span values spans lists ha hr ih =>
    rw [forall_mem_cons] at hts
    rw [any_cons, Bool.or_eq_true, ih hts.2, exists_mem_cons_iff]
    refine or_congr_left ⟨fun hnull => ?_, ?_⟩
    · cases ha with
      | union hunion =>
        obtain ⟨arm, harm, hliteral⟩ := mem_filterMap.1 (Values.has_null_of_literals.1 hnull)
        exact ⟨_, _, hunion, arm, harm, hliteral⟩
      | _ => cases hnull
    · rintro ⟨arms, inner, hunion, arm, harm, hliteral⟩
      rw [harvests_unique hunit henvironment hts.1 ha (.union hunion)]
      exact Values.has_null_of_literals.2 (mem_filterMap.2 ⟨arm, harm, hliteral⟩)

/-- A template whose spans all stand for texts is expanded to the texts of all choices. -/
theorem expand_of_harvests
    (hafters : spans.map TemplateSpan.literal = afters.map Json.str) {lists : List Values}
    (h : program.HarvestsEach environment spans lists)
    (hsome : ∀ values ∈ lists, values.texts ≠ []) :
    program.expand environment (.str head) spans =
      pure (some ⟨(placesIn ((lists.map Values.texts).map List.length)).map fun choice =>
        head ++ spelled ((chosen (lists.map Values.texts) choice).zip afters),
        lists.any Values.hasNull⟩) := by
  have hlen : lists.length = afters.length := by
    rw [← h.length_eq, ← length_map TemplateSpan.literal, hafters, length_map]
  have hzip : (lists.zip (afters.map Json.str)).map Prod.fst = lists :=
    map_fst_zip (by rw [length_map, hlen])
  have hempty : (lists.zip (afters.map Json.str)).any (·.1.texts.isEmpty) = false := by
    refine Bool.eq_false_iff.2 fun hany => ?_
    obtain ⟨x, hx, hnil⟩ := any_eq_true.1 hany
    exact hsome x.1 (of_mem_zip hx).1 (List.isEmpty_iff.1 hnil)
  have hnull : (lists.zip (afters.map Json.str)).any (·.1.hasNull) = lists.any Values.hasNull := by
    conv_rhs => rw [← hzip]
    rw [any_map]
    rfl
  rw [expand, harvest_spans_of_harvests hunit henvironment hts h, hafters, pure_bind]
  dsimp only
  rw [if_neg (by rw [hempty]; decide), products_eq hlen, hnull, Json.text, lift_ok,
    pure_bind, lift_ok, pure_bind, map_map]
  rfl

/-- A template is expanded or given up, and fails in no other way. -/
theorem expand_result_ok
    (hafters : spans.map TemplateSpan.literal = afters.map Json.str) :
    ∃ found, (program.expand environment (.str head) spans).result = .ok found := by
  have hp : Program.WellTyped ⟨program.unit, .default⟩ := ⟨hunit, Settings.default_well_typed⟩
  have ht : (TypeExpr.template (.str head) spans).WellTyped := by
    refine .intro ⟨⟨head, rfl⟩, fun span hspan => ?_⟩ fun part hpart => ?_
    · have hmem := mem_map_of_mem (f := TemplateSpan.literal) hspan
      rw [hafters] at hmem
      obtain ⟨after, -, hafter⟩ := mem_map.1 hmem
      exact ⟨after, hafter.symm⟩
    · obtain ⟨span, hspan, rfl⟩ := mem_map.1 hpart
      exact hts span hspan
  rw [expand, harvest_spans_settings .default]
  exact value_of_settles (expand_settles hp henvironment ht)

end Spans

/-- A template is the ordered product of its spans. It is expanded exactly if every span stands for
texts, for at least one each. Then its texts are those of all choices of a text in every span, in
lexicographic order and each choice once; null is told exactly if it is an arm of the union of a
span; and nothing is reported. Otherwise nothing is expanded, and there is a warning, with at least
one for every span that stands for no texts. -/
theorem expansion_is_ordered_product (htypes : ∀ span ∈ spans, span.type.WellTyped)
    (hafters : spans.map TemplateSpan.literal = afters.map Json.str) :
    ((∃ values, (program.expand environment (.str head) spans).result = .ok (some values)) ↔
      ∃ lists, program.HarvestsEach environment spans lists ∧
        ∀ values ∈ lists, values.texts ≠ []) ∧
    (∀ values, (program.expand environment (.str head) spans).result = .ok (some values) →
      (∀ lists, program.HarvestsEach environment spans lists →
        ∃ places, ListsPlaces (lists.map Values.texts) places ∧
          values.texts = places.map fun choice =>
            head ++ spelled ((chosen (lists.map Values.texts) choice).zip afters)) ∧
      (values.hasNull = true ↔
        ∃ span ∈ spans, ∃ arms inner, program.SpanUnion environment span.type arms inner ∧
          ∃ arm ∈ arms, inner.armLiteral? arm = some .null) ∧
      warnings (program.expand environment (.str head) spans).trace = []) ∧
    ((∀ values, (program.expand environment (.str head) spans).result ≠ .ok (some values)) →
      (program.expand environment (.str head) spans).result = .ok none ∧
      0 < (warnings (program.expand environment (.str head) spans).trace).length ∧
      ∀ failing : List (TemplateSpan TypeExpr), failing.Sublist spans →
        (∀ span ∈ failing, ∀ values, ¬program.Harvests environment span.type values) →
        failing.length ≤
          (warnings (program.expand environment (.str head) spans).trace).length) := by
  have hexpand {lists : List Values}
      (hlists : program.HarvestsEach environment spans lists)
      (hsome : ∀ values ∈ lists, values.texts ≠ []) :=
    @expand_of_harvests _ _ head _ _ hunit henvironment htypes hafters _ hlists hsome
  refine ⟨⟨fun ⟨values, h⟩ => harvests_of_expand h, ?_⟩, fun values h => ?_, fun h => ?_⟩
  · rintro ⟨lists, hlists, hsome⟩
    exact ⟨_, congrArg Traced.result (hexpand hlists hsome)⟩
  · obtain ⟨lists, hlists, hsome⟩ := harvests_of_expand h
    have heq := hexpand hlists hsome
    rw [heq] at h ⊢
    cases h
    refine ⟨fun others hothers => ?_, any_null_iff hunit henvironment htypes hlists, rfl⟩
    cases spans_harvests_unique hunit henvironment htypes hothers hlists
    exact ⟨_, lists_places_in _, rfl⟩
  · obtain ⟨found, hfound⟩ := @expand_result_ok _ _ head _ _ hunit henvironment htypes hafters
    cases found with
    | some values => exact (h values hfound).elim
    | none =>
      refine ⟨hfound, expand_warns environment _ spans hfound, fun failing hsub hfailing => ?_⟩
      refine (warned_of_unharvested_spans hunit henvironment htypes hsub hfailing).trans ?_
      exact warnings_le_bind _ _

end Expansion

/-- The declaration `type Size = "s" | ("l") | null`. -/
def sizes : Alias where
  name := .str "Size"
  tags := []
  exported := true
  parameters := []
  type := .union [.literal (.str "s"), .paren (.literal (.str "l")), .literal .null]

/-- The declaration `enum Color { Red = "red", Blue = "blue" }`. -/
def colors : Enumeration where
  name := .str "Color"
  tags := []
  exported := true
  members := [⟨.str "Red", .str "red"⟩, ⟨.str "Blue", .str "blue"⟩]

/-- The program of sizes and colors under the usual settings. -/
def labels : Program where
  unit := ⟨.null, [.typeAlias sizes, .enumeration colors], []⟩
  settings := .default

theorem labels_well_typed : labels.unit.WellTyped := by
  refine forall_mem_cons.2 ⟨?_, forall_mem_singleton.2 ?_⟩
  · refine ⟨⟨_, rfl⟩, forall_mem_nil _, forall_mem_nil _,
      forall_mem_singleton.2 ?_, fun _ h => by cases h⟩
    refine TypeExpr.well_typed_of_everywhere (TypeExpr.everywhere_of_holds_within 3 ?_)
    simp [TypeExpr.HoldsWithin, TypeExpr.OwnTexts, TypeExpr.parts, sizes]
  · exact ⟨⟨_, rfl⟩, forall_mem_nil _, forall_mem_nil _, forall_mem_nil _, fun _ h => by cases h⟩

/-- The template with a span for a size, a color and a bound parameter stands for four texts. -/
theorem label_texts_are_product :
    let scope : Environment := .mk 1 [⟨.str "T", .literal (.str "x"), .empty⟩]
    let spans : List (TemplateSpan TypeExpr) := [⟨.reference (.str "Size") [], .str "-"⟩,
      ⟨.reference (.str "Color") [], .str "/"⟩, ⟨.reference (.str "T") [], .str ""⟩]
    ∃ values, (labels.expand scope (.str "item-") spans).result = .ok (some values) ∧
      values.texts.length = 4 ∧ values.hasNull = true ∧
      warnings (labels.expand scope (.str "item-") spans).trace = [] := by
  intro scope spans
  have hscope : scope.WellTyped :=
    .intro (List.forall_mem_singleton.2 (.leaf rfl trivial))
      (List.forall_mem_singleton.2 (Environment.no_bindings_well_typed 0))
  have htypes : ∀ span ∈ spans, span.type.WellTyped :=
    List.forall_mem_cons.2 ⟨.leaf rfl ⟨_, rfl⟩, List.forall_mem_cons.2 ⟨.leaf rfl ⟨_, rfl⟩,
      List.forall_mem_singleton.2 (.leaf rfl ⟨_, rfl⟩)⟩⟩
  have hsizes : labels.SpanUnion scope (.reference (.str "Size") [])
      [.literal (.str "s"), .paren (.literal (.str "l")), .literal .null] .empty :=
    @SpanUnion.named _ _ _ _ scope (.str "Size") sizes _ rfl rfl rfl rfl rfl
  have hcolors : labels.Harvests scope (.reference (.str "Color") []) ⟨["red", "blue"], false⟩ := by
    refine @Harvests.enumeration _ _ _ _ scope (.str "Color") colors rfl rfl rfl ?_
    simp [colors]
  have hbound : labels.Harvests scope (.reference (.str "T") []) ⟨["x"], false⟩ :=
    @Harvests.literal _ _ _ _ .empty (.str "x") rfl rfl
  have hlists : labels.HarvestsEach scope spans
      [⟨["s", "l"], true⟩, ⟨["red", "blue"], false⟩, ⟨["x"], false⟩] :=
    .cons (.union hsizes) (.cons hcolors (.cons hbound .nil))
  have hproduct := @expansion_is_ordered_product labels scope "item-" spans ["-", "/", ""]
    labels_well_typed hscope htypes rfl
  obtain ⟨values, hvalues⟩ := hproduct.1.2 ⟨_, hlists, by decide⟩
  obtain ⟨htexts, hnull, hsilent⟩ := hproduct.2.1 values hvalues
  obtain ⟨places, hplaces, htexts⟩ := htexts _ hlists
  refine ⟨values, hvalues, ?_, hnull.2 ⟨_, List.mem_cons_self, _, _, hsizes, .literal .null,
    by simp, rfl⟩, hsilent⟩
  rw [htexts, List.length_map, hplaces.count]
  rfl

section Arms

variable (program environment) {span other : TemplateSpan TypeExpr}

/-- All arms of all unions in the spans of a template lead to literals. -/
def LiteralArms (spans : List (TemplateSpan TypeExpr)) : Prop :=
  ∀ span ∈ spans, ∀ arms inner, program.SpanUnion environment span.type arms inner →
    ∀ arm ∈ arms, ∃ value, inner.LeadsToLiteral value arm

/-- A span with only the literals among the arms of its union, if it has one. -/
structure CutDown (span other : TemplateSpan TypeExpr) : Prop where
  literal : other.literal = span.literal
  union : ∀ arms inner, program.SpanUnion environment span.type arms inner →
    other.type = .union ((inner.armLiterals arms).map .literal)
  rest : (∀ arms inner, ¬program.SpanUnion environment span.type arms inner) →
    other.type = span.type

variable {program environment}

/-- A type leads to one union at most. -/
theorem span_union_unique {t : TypeExpr} {arms others : List TypeExpr}
    {inner place : Environment} (h : program.SpanUnion environment t arms inner)
    (hother : program.SpanUnion environment t others place) : others = arms ∧ place = inner := by
  cases h with
  | inline hf hunion =>
    cases hother with
    | inline hreached hothers =>
      cases hf.symm.trans hreached
      cases hunion.symm.trans hothers
      exact ⟨rfl, rfl⟩
    | named hreached hn =>
      cases hf.symm.trans hreached
      cases hunion.symm.trans hn
  | named hf hn hd _ hunion =>
    cases hother with
    | inline hreached hothers =>
      cases hf.symm.trans hreached
      cases hn.symm.trans hothers
    | named hreached href hdecl _ hothers =>
      cases hf.symm.trans hreached
      cases hn.symm.trans href
      cases hd.symm.trans hdecl
      cases hunion.symm.trans hothers
      exact ⟨rfl, rfl⟩

/-- Every span can be cut down. -/
theorem exists_cut_down (span : TemplateSpan TypeExpr) :
    ∃ other, program.CutDown environment span other := by
  by_cases h : ∃ arms inner, program.SpanUnion environment span.type arms inner
  · obtain ⟨arms, inner, hunion⟩ := h
    refine ⟨⟨.union ((inner.armLiterals arms).map .literal), span.literal⟩, rfl,
      fun others place hother => ?_, fun hnone => (hnone arms inner hunion).elim⟩
    obtain ⟨rfl, rfl⟩ := span_union_unique hunion hother
    rfl
  · exact ⟨span, rfl, fun arms inner hunion => (h ⟨arms, inner, hunion⟩).elim, fun _ => rfl⟩

/-- A union of literals is the union that it leads to. -/
theorem span_union_inline (arms : List TypeExpr) :
    program.SpanUnion environment (.union arms) arms environment :=
  .inline (Environment.resolve_of_ne fun _ h => nomatch h) rfl

theorem arm_literals_of_literals (literals : List Json) :
    environment.armLiterals (literals.map .literal) = literals := by
  have hliteral (v : Json) : environment.armLiteral? (.literal v) = some v := by
    have hres : environment.resolve (.literal v) = .ok (.literal v, environment) :=
      Environment.resolve_of_ne fun _ h => nomatch h
    rw [Environment.armLiteral?, Environment.substitute, hres]
    rfl
  rw [Environment.armLiterals, filterMap_map]
  exact (filterMap_congr fun v _ => hliteral v).trans filterMap_some

/-- All arms that are left in a span lead to literals. -/
theorem leads_to_literal_of_cut_down (h : program.CutDown environment span other)
    {inner : Environment}
    (hunion : program.SpanUnion environment other.type arms inner) :
    ∀ arm ∈ arms, ∃ v, inner.LeadsToLiteral v arm := by
  by_cases hspan : ∃ arms inner, program.SpanUnion environment span.type arms inner
  · obtain ⟨others, place, hothers⟩ := hspan
    rw [h.union others place hothers] at hunion
    obtain ⟨rfl, rfl⟩ := span_union_unique (span_union_inline _) hunion
    intro arm harm
    obtain ⟨v, -, rfl⟩ := mem_map.1 harm
    exact ⟨v, .literal _⟩
  · refine (hspan ?_).elim
    rw [← h.rest fun arms inner hunion => hspan ⟨arms, inner, hunion⟩]
    exact ⟨arms, inner, hunion⟩

/-- The type of a span that is cut down is well-typed. -/
theorem CutDown.well_typed (h : program.CutDown environment span other)
    (ht : span.type.WellTyped) : other.type.WellTyped := by
  by_cases hspan : ∃ arms inner, program.SpanUnion environment span.type arms inner
  · obtain ⟨arms, inner, hunion⟩ := hspan
    rw [h.union arms inner hunion]
    refine .intro trivial fun part hpart => ?_
    obtain ⟨v, -, rfl⟩ := mem_map.1 hpart
    exact .leaf rfl trivial
  · rwa [h.rest fun arms inner hunion => hspan ⟨arms, inner, hunion⟩]

/-- A well-typed template stays well-typed when its spans are cut down. -/
theorem cut_down_well_typed {start : Json} {others : List (TemplateSpan TypeExpr)}
    (ht : (TypeExpr.template start spans).WellTyped)
    (h : Forall₂ (program.CutDown environment) spans others) :
    (TypeExpr.template start others).WellTyped := by
  cases ht with
  | intro own parts =>
    refine .intro ⟨own.1, fun other hother => ?_⟩ fun part hpart => ?_
    · obtain ⟨span, hspan, hcut⟩ := exists_of_forall₂ h other hother
      rw [hcut.literal]
      exact own.2 span hspan
    · obtain ⟨other, hother, rfl⟩ := mem_map.1 hpart
      obtain ⟨span, hspan, hcut⟩ := exists_of_forall₂ h other hother
      exact hcut.well_typed (parts _ (mem_map_of_mem hspan))

variable (hunit : program.unit.WellTyped) (henvironment : environment.WellTyped)

include hunit henvironment

/-- From a span that is cut down the same is harvested. -/
theorem harvest_of_cut_down (ht : span.type.WellTyped)
    (h : program.CutDown environment span other) :
    program.harvest environment other.type = program.harvest environment span.type := by
  by_cases hspan : ∃ arms inner, program.SpanUnion environment span.type arms inner
  · obtain ⟨arms, inner, hunion⟩ := hspan
    have hliterals := h.well_typed ht
    rw [h.union arms inner hunion] at hliterals
    rw [h.union arms inner hunion,
      harvest_of_harvests hunit henvironment hliterals (.union (span_union_inline _)),
      harvest_of_harvests hunit henvironment ht (.union hunion), arm_literals_of_literals]
  · rw [h.rest fun arms inner hunion => hspan ⟨arms, inner, hunion⟩]

/-- From spans that are cut down the same is harvested. -/
theorem harvest_spans_of_cut_down {others : List (TemplateSpan TypeExpr)}
    (hts : ∀ span ∈ spans, span.type.WellTyped)
    (h : Forall₂ (program.CutDown environment) spans others) :
    program.harvestSpans environment others = program.harvestSpans environment spans := by
  induction h with
  | nil => rfl
  | cons ha hr ih =>
    rw [forall_mem_cons] at hts
    rw [harvestSpans, harvestSpans, harvest_of_cut_down hunit henvironment hts.1 ha,
      ih hts.2, ha.literal]

/-- The arms of a union in a template that lead to no literal are passed over. Without them, when
all that is left are literals, the same texts are found, or none are, and as much is reported. -/
theorem other_arms_passed_over (htype : (TypeExpr.template (.str head) spans).WellTyped) :
    ∃ others, List.Forall₂ (program.CutDown environment) spans others ∧
      program.LiteralArms environment others ∧
      (program.expand environment (.str head) others).result =
        (program.expand environment (.str head) spans).result ∧
      (warnings (program.expand environment (.str head) others).trace).length =
        (warnings (program.expand environment (.str head) spans).trace).length := by
  have hexists (span : TemplateSpan TypeExpr) : ∃ other, program.CutDown environment span other :=
    exists_cut_down span
  choose cut hcut using hexists
  have hall : List.Forall₂ (program.CutDown environment) spans (spans.map cut) :=
    List.forall₂_map_right_iff.2 (List.forall₂_same.2 fun span _ => hcut span)
  have htypes (span : TemplateSpan TypeExpr) (hspan : span ∈ spans) : span.type.WellTyped :=
    htype.part (List.mem_map_of_mem hspan)
  refine ⟨spans.map cut, hall, fun other hother arms inner hunion => ?_, ?_⟩
  · obtain ⟨span, -, rfl⟩ := List.mem_map.1 hother
    exact leads_to_literal_of_cut_down (hcut span) hunion
  · obtain ⟨text, htext⟩ := htype.text_ok
    obtain ⟨other, hother⟩ := (cut_down_well_typed htype hall).text_ok
    rw [expand, expand, harvest_spans_of_cut_down hunit henvironment htypes hall, htext, hother]
    obtain ⟨trace, result⟩ := program.harvestSpans environment spans
    cases result with
    | error failure => exact ⟨rfl, rfl⟩
    | ok found =>
      cases found with
      | none => exact ⟨rfl, rfl⟩
      | some harvested =>
        rw [Traced.bind_ok, Traced.bind_ok]
        dsimp only
        split
        · rw [warnings_append, warnings_append, List.length_append, List.length_append]
          exact ⟨rfl, rfl⟩
        · exact ⟨rfl, rfl⟩

end Arms

/-- The program that declares nothing under the usual settings. -/
def undeclared : Program where
  unit := ⟨.null, [], []⟩
  settings := .default

/-- The span of `"a" | string`. -/
def textOrKeyword : TemplateSpan TypeExpr :=
  ⟨.union [.literal (.str "a"), .keyword .string], .str ""⟩

/-- In `x-` followed by `"a" | string` the keyword is passed over. -/
theorem keyword_arm_passed_over :
    ∃ others, List.Forall₂ (undeclared.CutDown .empty) [textOrKeyword] others ∧
      undeclared.LiteralArms .empty others ∧
      (undeclared.expand .empty (.str "x-") others).result =
        (undeclared.expand .empty (.str "x-") [textOrKeyword]).result := by
  have hunit : undeclared.unit.WellTyped := fun _ h => nomatch h
  have htype : (TypeExpr.template (.str "x-") [textOrKeyword]).WellTyped := by
    refine TypeExpr.well_typed_of_everywhere (TypeExpr.everywhere_of_holds_within 3 ?_)
    simp [TypeExpr.HoldsWithin, TypeExpr.OwnTexts, TypeExpr.parts, textOrKeyword, Json.IsText]
  obtain ⟨others, hcut, hliterals, hresult, -⟩ :=
    other_arms_passed_over hunit (Environment.no_bindings_well_typed 0) htype
  exact ⟨others, hcut, hliterals, hresult⟩

/-- The texts of `x-` followed by `"a" | string` are given as `x-a` alone, without a warning, though
not all arms of the union are literals. -/
theorem keyword_arm_left_out :
    undeclared.expand .empty (.str "x-") [textOrKeyword] = pure (some ⟨["x-a"], false⟩) ∧
      ¬undeclared.LiteralArms .empty [textOrKeyword] := by
  refine ⟨rfl, fun h => ?_⟩
  obtain ⟨value, hkeyword⟩ := h _ List.mem_cons_self _ _ (span_union_inline _) (.keyword .string)
    (List.mem_cons_of_mem _ List.mem_cons_self)
  cases hkeyword

end Program

end Schemata
