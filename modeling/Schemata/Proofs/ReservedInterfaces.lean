import Schemata.Proofs.DepthShift
import Schemata.Proofs.Locality
import Schemata.Proofs.Nullability
import Schemata.Proofs.Outcome
import Schemata.Proofs.Parentheses

/-!
# Reserved interfaces

An interface with a name that the settings reserve has one parameter, which switches it on or off.
A reference to it enters its body, one instantiation further from the top, without the parameter.
`reserved_interface_desugars` says what the body is compiled as. An interface that is switched on is
compiled as one without parameters that is not reserved. One that is switched off is compiled as the
interface whose members may all be absent as the settings say.

An argument switches the interface on if it leads to the literal true through bound parameters. A
parameter in parentheses is not followed, so that it switches the interface off,
`wrapped_parameter_switches_off`.
-/

namespace Schemata

open List
open Traced (lift_ok)

/-- The interface under another name and without parameters. -/
def Interface.plain (declared : Interface) (name : Name) : Interface :=
  { declared with name := name, parameters := [] }

/-- The member as it is written when it may be absent as the settings say. -/
def Member.switchedOff (maybe : MaybeSettings) (member : Member TypeExpr) : Member TypeExpr :=
  { member with
    type := member.type.map fun type =>
      if maybe.nullable.truthy then .union [type, .literal .null] else type
    optional := maybe.optional.truthy }

/-- The interface with all members written so that they may be absent. -/
def Interface.switchedOff (declared : Interface) (maybe : MaybeSettings) : Interface :=
  { declared with members := declared.members.map (Member.switchedOff maybe) }

/-- What switches a reserved interface on or off: the first argument, or without arguments the
default of the parameter, or the literal true. -/
def GenericParameter.switch (parameter : GenericParameter) (environment : Environment) :
    List TypeExpr → TypeExpr × Environment
  | [] => (parameter.default.getD (.literal (.bool true)), .empty)
  | first :: _ => (first, environment)

/-- What the switch leads to. -/
def GenericParameter.switched (parameter : GenericParameter) (environment : Environment)
    (arguments : List TypeExpr) : Except Fault TypeExpr :=
  (parameter.switch environment arguments).2.substitute (parameter.switch environment arguments).1

/-- A reserved interface is switched on by what leads to the literal true, unless parentheses
conceal a parameter. -/
def GenericParameter.SwitchesOn (parameter : GenericParameter) (environment : Environment)
    (arguments : List TypeExpr) : Prop :=
  let switch := parameter.switch environment arguments
  Environment.LeadsToLiteral (.bool true) switch.2 switch.1 ∧ switch.2.conceals switch.1 = false

namespace Program

/-- The program with one more declaration. -/
def adding (program : Program) (declaration : Declaration) : Program :=
  program.withUnit
    { program.unit with declarations := program.unit.declarations ++ [declaration] }

/-- Follow a plan as soon as it is made. -/
def carryOut (program : Program) (planned : Compilation Plan) : Compilation Schema := do
  (← planned).run program.compile

/-- The schema of a declaration, finished as a context asks for. -/
def declaredIn (program : Program) (declaration : Declaration) : Context → Compilation Schema :=
  inContext fun context => do program.finish context (← program.declarationSchema declaration)

variable {p : Program}

section Contexts

/-- What is finished in the bare context can be finished in another one. -/
theorem finish_after_bare (s : Schema) (ctx : Context) :
    (do p.finish ctx (← p.finish {} s)) = p.finish ctx s := by
  have hnone (formats : Json) : ({} : Context).modifiers formats = pure [] :=
    Context.modifiers_without_tags rfl formats
  unfold finish modifiers
  cases Settings.given p.settings.customFormats with
  | error => rfl
  | ok => simp only [lift_ok, pure_bind, hnone, Schema.withModifiers_nil]

/-- The context of an interface only tells how its schema is finished. -/
theorem carry_out_interface (off : Option Context) (env : Environment)
    (d : Interface) (ctx : Context) :
    p.carryOut (p.interfacePlan off env d ctx) =
      p.carryOut (p.interfacePlan off env d {}) >>= p.finish ctx := by
  unfold carryOut interfacePlan
  cases d.heritage with
  | nil => simp only [pure_bind, Plan.run, objectPlan, bind_assoc, finish_after_bare]
  | cons =>
    dsimp only
    split
    · rfl
    · simp only [pure_bind, Plan.run, bind_assoc]
      refine Traced.bind_congr fun parts _ => Traced.bind_congr fun chain _ => ?_
      cases chain with
      | none => rfl
      | some => exact (finish_after_bare _ ctx).symm

/-- An interface that is neither reserved nor generic is compiled by its plan. -/
theorem declaration_schema_plain {d : Interface} (hparams : d.parameters = [])
    (hn : p.settings.isMaybeName d.name = .ok false) :
    p.declarationSchema (.interface d) = p.carryOut (p.interfacePlan none .empty d {}) := by
  have hreserved : p.reserved? (some (.interface d)) = .ok none := by
    rw [reserved?, hn]
    rfl
  rw [declaration_schema_eq, declarationPlan, interfaceUse, hreserved, hparams]
  rfl

end Contexts

section SwitchedOff

variable {maybe : MaybeSettings}

/-- The context of the members of an interface that is switched off. -/
def offOf (maybe : MaybeSettings) : Context :=
  { optional := maybe.optional.truthy, nullable := maybe.nullable.truthy }

/-- A member that is switched off is compiled as it is written for that. -/
theorem compile_switched_off {t : TypeExpr} {m : Member TypeExpr}
    (hnull : maybe.nullable.truthy → t.isNull = false) (env : Environment) :
    p.compile ⟨if maybe.nullable.truthy then .union [t, .literal .null] else t,
        env, p.memberContext none (m.switchedOff maybe)⟩ =
      p.compile ⟨t, env, p.memberContext (some (offOf maybe)) m⟩ := by
  cases hnullable : maybe.nullable.truthy with
  | true =>
    refine (compile_beside_null (hnull hnullable)).trans ?_
    simp only [memberContext, Member.switchedOff, Context.orNull, offOf, hnullable]
  | false => simp [memberContext, Member.switchedOff, offOf, hnullable]

theorem member_names_switched_off (env : Environment) (ms : List (Member TypeExpr)) :
    (p.memberJobs none env (ms.map (Member.switchedOff maybe))).map (·.1) =
      (p.memberJobs (some (offOf maybe)) env ms).map (·.1) := by
  unfold memberJobs
  rw [filterMap_map, map_filterMap, map_filterMap]
  refine filterMap_congr fun m _ => ?_
  rw [Function.comp, Member.switchedOff, Option.map_map, Option.map_map, Option.map_map]
  rfl

theorem member_jobs_switched_off (env : Environment) {ms : List (Member TypeExpr)}
    (hnull : maybe.nullable.truthy → ∀ m ∈ ms, ∀ t ∈ m.type, t.isNull = false) :
    ((p.memberJobs none env (ms.map (Member.switchedOff maybe))).map (·.2)).mapM p.compile =
      ((p.memberJobs (some (offOf maybe)) env ms).map (·.2)).mapM p.compile := by
  have hmap (named : List (String × Job)) : (named.map (·.2)).mapM p.compile =
      (named.map fun e => p.compile e.2).mapM id := by
    rw [mapM_map, mapM_map]
    rfl
  rw [hmap, hmap]
  refine congrArg (List.mapM id) ?_
  unfold memberJobs
  rw [filterMap_map, map_filterMap, map_filterMap]
  refine filterMap_congr fun m hm => ?_
  cases ht : m.type with
  | none => simp [Member.switchedOff, ht]
  | some t =>
    have hsame := @compile_switched_off p maybe t m (fun hnullable => hnull hnullable m hm t ht) env
    simpa [Member.switchedOff, ht] using hsame

/-- An interface that is switched off is compiled as the one whose members are written for that. -/
theorem carry_out_switched_off (d : Interface)
    (hnull : maybe.nullable.truthy → ∀ m ∈ d.members, ∀ t ∈ m.type, t.isNull = false) :
    p.carryOut (p.interfacePlan none .empty (d.switchedOff maybe) {}) =
      p.carryOut (p.interfacePlan (some (offOf maybe)) .empty d {}) := by
  have hnames := @member_names_switched_off p maybe .empty d.members
  have hjobs := @member_jobs_switched_off p maybe .empty d.members hnull
  have hlen := congrArg List.length hnames
  rw [length_map, length_map] at hlen
  unfold carryOut interfacePlan
  cases hher : d.heritage with
  | nil =>
    simp only [Interface.switchedOff, hher, pure_bind, Plan.run, objectPlan,
      mapM_append, hnames, hjobs, hlen]
  | cons =>
    simp only [Interface.switchedOff, hher]
    split
    · rfl
    · simp only [pure_bind, Plan.run, hnames, hjobs]

end SwitchedOff

section Uses

variable {env : Environment} {name : Name} {args : List TypeExpr} {d : Interface}
  {param : GenericParameter} {off : Option Context} {key : Key} {inner : Environment}
  {found : TypeExpr}

/-- Unless the limit stops it, one more body may be inside of an environment. -/
theorem check_depth_passes (hlimit : p.settings.limit ≠ .incomparable) (name : Name)
    (env : Environment) : KeptAbove id (p.checkDepth name env) (pure ()) := by
  intro h
  rcases left_of_unstopped h with hincomparable | hleft
  · exact (hlimit hincomparable).elim
  · rw [checkDepth, if_neg hleft]
    exact ⟨rfl, rfl⟩

/-- Without arguments the default of the parameter is the switch. -/
theorem switch_type_without (hk : param.name.key = .ok key) (env : Environment) :
    switchType param env.enter = param.switched env [] := by
  have hlookup : env.enter.lookup param.name = .ok none := by
    rw [Environment.lookup, hk]
    rfl
  rw [switchType, hlookup]
  cases hdefault : param.default with
  | none => simp [GenericParameter.switched, GenericParameter.switch, hdefault,
      Environment.substitute, Environment.empty, Environment.resolve, bind, Except.bind]
  | some t =>
    simp only [GenericParameter.switched, GenericParameter.switch, hdefault]
    exact Environment.substitute_unbound _ t

/-- What switches an interface can be followed. -/
theorem switch_ok (henv : env.WellTyped) (ht : (TypeExpr.reference name args).WellTyped)
    (hdefault : ∀ t ∈ param.default, t.WellTyped) :
    ∃ found, param.switched env args = .ok found := by
  have hswitch : (param.switch env args).2.WellTyped ∧ (param.switch env args).1.WellTyped := by
    cases args with
    | cons => exact ⟨henv, ht.part mem_cons_self⟩
    | nil =>
      refine ⟨.intro (fun _ h => by cases h) (fun _ h => by cases h), ?_⟩
      cases hf : param.default with
      | none => simpa [GenericParameter.switch, hf] using .leaf rfl trivial
      | some t => simpa [GenericParameter.switch, hf] using hdefault t hf
  obtain ⟨found, hf, -⟩ := substitute_ok hswitch.1 hswitch.2
  exact ⟨found, hf⟩

/-- The first argument is the switch. -/
theorem switch_type_bound (hk : param.name.key = .ok key) {depth : Nat} {a : TypeExpr} :
    switchType param (.mk depth [⟨param.name, a, env⟩]) = env.substitute a := by
  have hlookup : (Environment.mk depth [⟨param.name, a, env⟩]).lookup
      param.name = .ok (some ⟨param.name, a, env⟩) := by
    simp [Environment.lookup, hk, Environment.binding?, Environment.bindings, key?_of_key hk,
      bind, Except.bind, pure, Except.pure]
  rw [switchType, hlookup]
  rfl

/-- A reserved interface is switched on by the literal true. -/
theorem off_context_on (hswitch : switchType param inner = .ok found)
    (hf : found.unwrap = .literal (.bool true)) : offContext p param inner = .ok none := by
  rw [offContext, hswitch]
  simp only [bind, Except.bind, hf]
  rfl

/-- A reserved interface is switched off by anything else. -/
theorem off_context_off {maybe : MaybeSettings} (hmaybe : p.settings.maybe = some maybe)
    (hswitch : switchType param inner = .ok found) (hf : found.unwrap ≠ .literal (.bool true)) :
    offContext p param inner = .ok (some (offOf maybe)) := by
  rw [offContext, hswitch]
  dsimp only [bind, Except.bind]
  split
  · contradiction
  · rw [hmaybe]
    rfl

/-- A name that is not bound has a key without a binding. -/
theorem binding_of_lookup (h : env.lookup name = .ok none) :
    ∃ key, name.key = .ok key ∧ env.binding? key = none := by
  obtain ⟨key, hk, h⟩ := bind_eq_ok_iff.1 h
  exact ⟨key, hk, Except.ok.inj h⟩

/-- A reserved interface is entered without its parameter, and switched on or off. -/
theorem use_reserved (hlimit : p.settings.limit ≠ .incomparable)
    (hunbound : env.lookup name = .ok none)
    (hfind : p.find name = .ok (some (.interface d)))
    (hreserved : p.reserved? (some (.interface d)) = .ok (some d))
    (hparams : d.parameters = [param]) (hk : param.name.key = .ok key)
    {text : Json} (htext : (TypeExpr.reference name args).text = .ok text)
    (hoff : ∀ inner, switchType param inner = param.switched env args →
      offContext p param inner = .ok off) :
    KeptAbove (fun _ => Use.interface d env.enter off) (p.use env name args) (pure ()) := by
  have huse {inner : Environment} (hwithout : inner.without param.name = env.enter)
      (hswitch : switchType param inner = param.switched env args) :
      p.reservedUse d inner = pure (.interface d env.enter off) := by
    rw [reservedUse, hparams]
    dsimp only
    rw [hoff inner hswitch, hk, hwithout]
    rfl
  obtain ⟨nameKey, hnameKey, hb⟩ := binding_of_lookup hunbound
  unfold Program.use
  rw [hnameKey, lift_ok, pure_bind, hb, hfind, lift_ok, pure_bind]
  rw [← pure_bind () fun _ => (pure () : Compilation Unit)]
  cases args with
  | nil =>
    rw [Option.filter_some, if_neg (by simp), hreserved, lift_ok, pure_bind]
    refine kept_above_bind (check_depth_passes hlimit _ _) fun _ _ => ?_
    exact kept_above_of_eq (huse rfl (switch_type_without hk env))
  | cons a rest =>
    have hsome : d.parameters.isEmpty = false := by rw [hparams]; rfl
    rw [Option.filter_some, if_pos (by simp [Declaration.parameters, hsome])]
    refine kept_above_bind (check_depth_passes hlimit _ _) fun _ _ => ?_
    let bound : Environment := .mk (env.depth + 1) [⟨param.name, a, env⟩]
    have hbind : bindTypes env [param] (a :: rest) env.enter = .ok bound := by
      rw [bindTypes, Environment.bind, hk]
      rfl
    have hentered : KeptAbove (fun _ => bound)
        (instantiation d.parameters name (a :: rest) env) (pure ()) := by
      unfold instantiation
      rw [hparams, hbind, lift_ok, pure_bind, htext, lift_ok, pure_bind]
      exact fun _ => ⟨rfl, rfl⟩
    have hwithout : bound.without param.name = env.enter := by
      have hsame := (same_iff_key (key?_of_key hk)).2 (key?_of_key hk)
      simp only [bound, Environment.without, Environment.bindings, List.filter, hsame]
      rfl
    rw [← pure_bind () fun _ => (pure () : Compilation Unit)]
    refine kept_above_bind hentered fun _ _ => ?_
    rw [genericUse, hreserved, lift_ok, pure_bind]
    exact kept_above_of_eq (huse hwithout (switch_type_bound hk))

end Uses

section Freshness

variable {key : Key} {names : Name → Prop} {d : Interface}

/-- A declaration that is added under a name that nothing mentions changes no other. -/
theorem agrees_on_adding {decl : Declaration} (hk : decl.name.key? = some key)
    (hfresh : ∀ found ∈ p.unit.declarations, found.StaysIn fun other => other.key? ≠ some key) :
    p.AgreesOn (fun other => other.key? ≠ some key)
      { p.unit with declarations := p.unit.declarations ++ [decl] } := by
  refine ⟨fun name _ found hf => hfresh found (mem_of_find hf), fun name hn => ?_⟩
  cases hother : name.key with
  | error => rw [find, find, hother]; rfl
  | ok other =>
    have hne : key ≠ other := fun heq => hn (heq ▸ key?_of_key hother)
    rw [find_of_key _ hother, find_of_key _ hother]
    refine congrArg Except.ok ?_
    rw [declaration?, declaration?, withUnit, find?_append, find?_cons_of_neg]
    · simp
    · simp [hk, hne]

theorem stays_in_plain (h : (Declaration.interface d).StaysIn names) (name : Name) :
    (Declaration.interface (d.plain name)).StaysIn names := by
  refine ⟨fun t ht => h.types t ?_, fun found hf => ?_⟩
  · rcases mem_append.1 ht with hbody | hdefault
    · exact mem_append_left _ hbody
    · cases hdefault
  · cases hf
    exact h.heritage d rfl

theorem stays_in_switched_off (h : (Declaration.interface d).StaysIn names)
    (maybe : MaybeSettings) :
    (Declaration.interface (d.switchedOff maybe)).StaysIn names := by
  have hbody {t : TypeExpr} (ht : t ∈ objectTypes d.members d.index) : t.StaysIn names :=
    h.types t (mem_append_left _ ht)
  refine ⟨fun t ht => ?_, fun found hf => ?_⟩
  · rcases mem_append.1 ht with ht | hdefault
    · rcases mem_append.1 ht with ht | hidx
      · obtain ⟨off, hoff, ht⟩ := mem_filterMap.1 ht
        obtain ⟨m, hm, rfl⟩ := mem_map.1 hoff
        obtain ⟨written, hwritten, rfl⟩ := Option.map_eq_some_iff.1 ht
        have hstays := hbody (mem_append_left _ (mem_filterMap.2 ⟨m, hm, hwritten⟩))
        split
        · refine TypeExpr.everywhere_iff.2 ⟨trivial, fun part hpart => ?_⟩
          rcases mem_cons.1 hpart with rfl | hnull
          · exact hstays
          · cases mem_singleton.1 hnull
            exact TypeExpr.everywhere_of_leaf rfl trivial
        · exact hstays
      · exact hbody (mem_append_right _ hidx)
    · exact h.types t (mem_append_right _ hdefault)
  · cases hf
    exact h.heritage d rfl

end Freshness

/-- The reference names an interface that the settings reserve. -/
structure NamesReserved (program : Program) (environment : Environment) (name : Name)
    (declared : Interface) : Prop where
  unbound : environment.lookup name = .ok none
  found : program.find name = .ok (some (.interface declared))
  reserved : program.settings.isMaybeName declared.name = .ok true

/-- The name is not reserved, and no declaration mentions it. -/
structure IsFresh (program : Program) (name : Name) : Prop where
  general : program.settings.isMaybeName name = .ok false
  unmentioned : ∃ key, name.key? = some key ∧
    ∀ declaration ∈ program.unit.declarations,
      declaration.StaysIn fun other => other.key? ≠ some key

/-- Unless the limit stops it, a type is compiled as an interface that is declared beside the
others: to the same schema or failure, with the same dependencies, warnings and uses of the helper.
In a context, the schema of the interface is finished as the context asks for. -/
structure ReadsAs (program : Program) (type : TypeExpr) (environment : Environment)
    (written : Interface) : Prop where
  bare : KeptAbove id (program.compile ⟨type, environment, {}⟩)
    ((program.adding (.interface written)).declarationSchema (.interface written))
  context : ∀ context, KeptAbove id (program.compile ⟨type, environment, context⟩)
    ((program.adding (.interface written)).declaredIn (.interface written) context)

section Desugaring

variable {env : Environment} {name : Name} {args : List TypeExpr}
  {d written : Interface} {off : Option Context}

theorem in_context_kept {a b : Context → Compilation Schema}
    (h : ∀ ctx, KeptAbove id (a ctx) (b ctx)) (ctx : Context) :
    KeptAbove id (inContext a ctx) (inContext b ctx) := by
  unfold inContext
  cases ctx.tags.override? with
  | none => exact h ctx
  | some =>
    dsimp only
    split
    · exact kept_above_bind (h _) fun _ _ => kept_above_refl _
    · exact kept_above_refl _

/-- A reference is compiled as the interface that it enters. -/
theorem reads_as_of_use
    (huse : KeptAbove (fun _ => Use.interface d env.enter off) (p.use env name args) (pure ()))
    (hparams : written.parameters = []) (hfresh : p.IsFresh written.name)
    (hstays : ∀ names, (Declaration.interface d).StaysIn names →
      (Declaration.interface written).StaysIn names)
    (hf : .interface d ∈ p.unit.declarations)
    (hwritten : p.carryOut (p.interfacePlan none .empty written {}) =
      p.carryOut (p.interfacePlan off .empty d {})) :
    p.ReadsAs (.reference name args) env written := by
  obtain ⟨key, hk, hunmentioned⟩ := hfresh.unmentioned
  have hs : (p.adding (.interface written)).declarationSchema (.interface written) =
      p.carryOut (p.interfacePlan off .empty d {}) := by
    have hagrees := @agrees_on_adding p key (.interface written) hk hunmentioned
    rw [adding, hagrees.declaration_local (hstays _ (hunmentioned _ hf)),
      declaration_schema_plain hparams hfresh.general, hwritten]
  have ht (ctx : Context) : KeptAbove id
      (typeSchema p (p.bodyFrom env) (.reference name args) env (p.meaningsOf env) ctx)
      (p.carryOut (p.interfacePlan off .empty d ctx)) := by
    rw [type_schema_eq, typePlan, bind_assoc, carryOut,
      ← pure_bind () fun _ => p.interfacePlan off .empty d ctx, bind_assoc]
    refine kept_above_bind huse fun _ _ => ?_
    exact interface_kept_above off (env.depth + 1) d ctx
  have hctx (ctx : Context) : KeptAbove id (p.compile ⟨.reference name args, env, ctx⟩)
      ((p.adding (.interface written)).declaredIn (.interface written) ctx) := by
    refine in_context_kept (fun ctx => ?_) ctx
    rw [hs]
    exact carry_out_interface off .empty d ctx ▸ ht ctx
  refine ⟨?_, hctx⟩
  rw [hs]
  exact ht {}

/-- A reference to a reserved interface is sugar. If its argument, or without one the default of
the parameter, leads to the literal true, the reference is compiled as the interface without its
parameter, under a name that is not reserved. Otherwise it is compiled as that interface with every
member optional and nullable as the settings say; a member whose type is null itself is excluded
where members become nullable. -/
theorem reserved_interface_desugars (program : Program) {environment : Environment} {name : Name}
    {arguments : List TypeExpr} {declared : Interface} {parameter : GenericParameter}
    {maybe : MaybeSettings} {fresh : Name} (hunit : program.unit.WellTyped)
    (henvironment : environment.WellTyped) (htype : (TypeExpr.reference name arguments).WellTyped)
    (hlimit : program.settings.limit ≠ .incomparable) (hmaybe : program.settings.maybe = some maybe)
    (hname : program.NamesReserved environment name declared)
    (hparameters : declared.parameters = [parameter]) (hfresh : program.IsFresh fresh) :
    (parameter.SwitchesOn environment arguments →
      program.ReadsAs (.reference name arguments) environment (declared.plain fresh)) ∧
    (¬parameter.SwitchesOn environment arguments →
      (maybe.nullable.truthy →
        ∀ member ∈ declared.members, ∀ type ∈ member.type, type.isNull = false) →
      program.ReadsAs (.reference name arguments) environment
        ((declared.switchedOff maybe).plain fresh)) := by
  have hdeclared := hunit _ (mem_of_find hname.found)
  have hparameter : parameter ∈ declared.parameters := by
    rw [hparameters]
    exact List.mem_cons_self
  obtain ⟨key, hkey⟩ := (hdeclared.parameters parameter hparameter).key_ok
  obtain ⟨text, htext⟩ := htype.text_ok
  have hreserved : program.reserved? (some (.interface declared)) = .ok (some declared) := by
    rw [reserved?, hname.reserved]
    rfl
  obtain ⟨found, hfound⟩ := switch_ok henvironment htype fun type hdefault =>
    hdeclared.defaults type (List.mem_filterMap.2 ⟨parameter, hparameter, hdefault⟩)
  have huse {off : Option Context} := @use_reserved program environment name arguments declared
    parameter off key hlimit hname.unbound hname.found hreserved hparameters hkey _ htext
  constructor
  · intro hon
    obtain ⟨literal, hliteral, hunwrap⟩ := Environment.substitute_literal_iff.2 hon
    refine reads_as_of_use (huse fun inner hswitch => ?_) rfl hfresh
      (fun names h => stays_in_plain h fresh) (mem_of_find hname.found) rfl
    exact off_context_on (hswitch.trans hliteral) hunwrap
  · intro hoff hnull
    refine reads_as_of_use (huse fun inner hswitch => ?_) rfl hfresh
      (fun names h => stays_in_plain (stays_in_switched_off h maybe) fresh)
      (mem_of_find hname.found) (carry_out_switched_off declared hnull)
    refine off_context_off hmaybe (hswitch.trans hfound) fun hunwrap => hoff ?_
    exact Environment.substitute_literal_iff.1 ⟨found, hfound, hunwrap⟩

end Desugaring

section Toggles

/-- The interface `interface Toggle<B = true> { label: string }`. -/
def toggle : Interface :=
  ⟨.str "Toggle", [], true, [⟨.str "B", none, some (.literal (.bool true))⟩], [],
    [⟨"label", some (.keyword .string), false, false, []⟩], none⟩

/-- The program of the interface, which is reserved, with the names of types for schemas. -/
def toggles : Program where
  unit := ⟨.null, [.interface toggle], []⟩
  settings := { Settings.default with
    schemaName := some id
    maybe := some ⟨[.str "Toggle"], .bool true, .bool true⟩ }

/-- `T` stands for `U`, and `U` stands for true. -/
def passedOn : Environment :=
  .mk 2 [⟨.str "T", .reference (.str "U") [], .mk 1 [⟨.str "U", .literal (.bool true), .empty⟩]⟩]

theorem leads_to_true :
    Environment.LeadsToLiteral (.bool true) passedOn (.reference (.str "T") []) :=
  .parameter rfl rfl (.parameter rfl rfl (.literal .empty))

/-- A toggle of what stands for true is an interface without a parameter, and a toggle of false is
the interface whose member may be absent. -/
theorem toggles_desugar :
    let on : TypeExpr := .reference (.str "Toggle") [.reference (.str "T") []]
    let off : TypeExpr := .reference (.str "Toggle") [.literal (.bool false)]
    (∃ schema, (toggles.compile ⟨on, passedOn, {}⟩).result = .ok schema) ∧
      toggles.ReadsAs on passedOn (toggle.plain (.str "Plain")) ∧
      toggles.ReadsAs off passedOn
        ((toggle.switchedOff ⟨[.str "Toggle"], .bool true, .bool true⟩).plain (.str "Plain")) := by
  intro on off
  have hunit : toggles.unit.WellTyped := by
    intro declaration hdeclaration
    cases List.mem_singleton.1 hdeclaration
    refine ⟨⟨_, rfl⟩, List.forall_mem_singleton.2 ⟨_, rfl⟩, List.forall_mem_singleton.2 ?_,
      List.forall_mem_singleton.2 ?_, fun found hfound => ?_⟩
    · exact .leaf rfl trivial
    · exact .leaf rfl trivial
    · cases hfound
      exact List.forall_mem_nil _
  have hscope : passedOn.WellTyped := by
    refine .intro (List.forall_mem_singleton.2 (.leaf rfl ⟨_, rfl⟩))
      (List.forall_mem_singleton.2 ?_)
    exact .intro (List.forall_mem_singleton.2 (.leaf rfl trivial))
      (List.forall_mem_singleton.2 (Environment.no_bindings_well_typed 0))
  have hfresh : toggles.IsFresh (.str "Plain") := by
    refine ⟨rfl, .text "Plain", rfl, List.forall_mem_singleton.2 ⟨?_, fun found hfound => ?_⟩⟩
    · exact List.forall_mem_cons.2 ⟨TypeExpr.everywhere_of_leaf rfl trivial,
        List.forall_mem_singleton.2 (TypeExpr.everywhere_of_leaf rfl trivial)⟩
    · cases hfound
      exact List.forall_mem_nil _
  have hlimit : toggles.settings.limit ≠ .incomparable := by
    intro h
    cases h
  have hdesugars (argument : TypeExpr) (h : argument.WellTyped) :=
    @reserved_interface_desugars toggles passedOn (.str "Toggle") [argument] toggle _ _
      (.str "Plain") hunit hscope (.intro ⟨_, rfl⟩ (List.forall_mem_singleton.2 h)) hlimit rfl
      ⟨rfl, rfl, rfl⟩ rfl hfresh
  refine ⟨⟨_, rfl⟩, ?_, ?_⟩
  · exact (hdesugars (.reference (.str "T") []) (.leaf rfl ⟨_, rfl⟩)).1 ⟨leads_to_true, rfl⟩
  · refine (hdesugars (.literal (.bool false)) (.leaf rfl trivial)).2 (fun hon => ?_) fun _ => ?_
    · cases hon.1
    · refine List.forall_mem_singleton.2 fun type htype => ?_
      cases htype
      rfl

/-- A toggle of a parameter in parentheses is switched off, though the parameter stands for true. -/
theorem wrapped_parameter_switches_off :
    let text : Schema := .call "string" []
    let wrapped : TypeExpr := .paren (.reference (.str "T") [])
    Environment.LeadsToLiteral (.bool true) passedOn wrapped ∧
      (toggles.compile ⟨.reference (.str "Toggle") [wrapped], passedOn, {}⟩).result =
        .ok (.call "object" [.object [("label", text.withModifiers
          [⟨"optional", [], false⟩, ⟨"nullable", [], false⟩])]]) ∧
      (toggles.declarationSchema (.interface (toggle.plain (.str "Plain")))).result =
        .ok (.call "object" [.object [("label", text)]]) := by
  intro text wrapped
  exact ⟨.paren leads_to_true, rfl, rfl⟩

end Toggles

end Program

end Schemata
