import Elaboration.Proofs.Equation.Step
import Elaboration.Proofs.Pattern.Flattening
import Elaboration.Proofs.Session.Locals

/-!
# What evaluation keeps up

A property of evaluation is proved along the program, each part from its own parts. This is done
once, for any regime that the few actions which evaluation is made of keep up.
-/

namespace Elaboration

open List Pattern

/-! ### Scopes of programs -/

/-- The locals that an expression refers to are among `n`. -/
def Expr.Scoped (n : Nat) : Expr → Prop
  | .app _ f x => f.Scoped n ∧ x.Scoped n
  | .var _ index => index < n
  | .typeFamily _ base => base.Scoped n
  | _ => True

/-- The locals that a pattern refers to are among `n`. -/
def Pat.Scoped (n : Nat) : Pat → Prop
  | .app _ f x => f.Scoped n ∧ x.Scoped n
  | .var _ index => index < n
  | _ => True

/-- What a subclause matches sees the captures that it requests after the `n` locals. -/
def Subclause.Scoped (n : Nat) (c : Subclause) : Prop :=
  c.matched.Scoped (n + c.used.length) ∧ c.pattern.Scoped n

mutual

/-- The locals that a command refers to are in its scope, which starts with `n` locals. -/
def Command.Scoped (n : Nat) : Command → Prop
  | .hole _ type | .declare _ type | .postulate _ type => type.Scoped n
  | .define _ value type => value.Scoped n ∧ ∀ e ∈ type, e.Scoped n
  | .check _ value type equals _ =>
    value.Scoped n ∧ (∀ e ∈ type, e.Scoped n) ∧ ∀ e ∈ equals, e.Scoped n
  | .forAll _ type commands => type.Scoped n ∧ AllScoped (n + 1) commands
  | .rule _ pattern subclauses captures commands replacement =>
    (pattern.Scoped n ∧ ∀ c ∈ subclauses, c.Scoped n) ∧ AllScoped (n + captures) commands ∧
      replacement.Scoped (n + captures + (commands.map added).sum)

/-- The same of commands in order. -/
def Command.AllScoped (n : Nat) : List Command → Prop
  | [] => True
  | c :: commands => c.Scoped n ∧ AllScoped (n + c.added) commands

end

/-- The locals that a program refers to are in scope. -/
def Program.Scoped (p : Program) : Prop :=
  Command.AllScoped 0 p.commands ∧ p.value.Scoped (p.commands.map Command.added).sum

mutual

/-- Whether a command gives no rules. -/
def Command.ruleFree : Command → Bool
  | .rule _ _ _ _ _ _ => false
  | .forAll _ _ commands => allRuleFree commands
  | _ => true

def Command.allRuleFree : List Command → Bool
  | [] => true
  | c :: commands => c.ruleFree && allRuleFree commands

end

namespace Evaluator

variable {H : Type}

/-- The regime allows for locals that are not there. -/
def Lenient (L : Regime Stop Kernel H) : Prop :=
  ∀ index count s k, L.Holds s k → L.Stops s k (.violation (.localOutOfScope index count)) k

/-- What a regime says of what evaluation comes by, and that the actions of evaluation keep it up.
Rules may be left out. -/
structure Upkeep [Host H] (L : Regime Stop Kernel H) where
  /-- Telescopes that programs run below. -/
  Tele : Telescope → H → Kernel → Prop
  /-- Values below a telescope. -/
  Value : Telescope → TypedTerm → H → Kernel → Prop
  /-- Terms that are equated below a telescope. -/
  Side : Telescope → Term → H → Kernel → Prop
  /-- Patterns that were compiled below a telescope. -/
  Compiled : Telescope → Pattern.Execution → H → Kernel → Prop
  /-- Patterns for a declaration below a telescope, of which some shards were run. -/
  Part : Telescope → Nat → Pattern.Partial → H → Kernel → Prop
  rules : Prop
  tele_later {tele s k s' k'} : L.Holds s k → L.Holds s' k' → L.Leads s k s' k' → Tele tele s k →
    Tele tele s' k'
  value_later {tele v s k s' k'} : L.Holds s k → L.Leads s k s' k' → Tele tele s k →
    Value tele v s k → Value tele v s' k'
  side_later {tele t s k s' k'} : L.Leads s k s' k' → Side tele t s k → Side tele t s' k'
  compiled_later {tele x s k s' k'} : L.Holds s k → L.Holds s' k' → L.Leads s k s' k' →
    Compiled tele x s k → Compiled tele x s' k'
  part_later {tele id p s k s' k'} : L.Holds s k → L.Holds s' k' → L.Leads s k s' k' →
    Part tele id p s k → Part tele id p s' k'
  side_value {tele v s k} : Value tele v s k → Side tele v.value s k
  side_type {tele v s k} : Value tele v s k → Side tele v.type s k
  note {e s k} : e.ofObligation = false → L.Keeps (liftM (KernelM.note e)) s k fun _ _ _ => True
  embedded {tele s k} (index : Nat) : Tele tele s k →
    L.Keeps (Host.embedded index) s k fun v s' k' => Value tele v s' k'
  value_kind {tele s k} : L.Holds s k → Value tele ⟨Primitive.type, Primitive.type⟩ s k
  value_arrow {tele s k} : L.Holds s k → Value tele ⟨Primitive.arrow, Primitive.arrowType⟩ s k
  value_family {tele t s k} : L.Holds s k → Value tele ⟨t, Primitive.type⟩ s k →
    Value tele ⟨Primitive.typeFamilyOf t, Primitive.type⟩ s k
  cast {tele v t s k} (purpose : Failure.Purpose) (node : NodeId) : Tele tele s k →
    Value tele v s k → Value tele ⟨t, Primitive.type⟩ s k →
    L.Keeps (cast tele purpose node v t) s k fun u s' k' => Value tele ⟨u, t⟩ s' k'
  apply {tele f x s k} (node : NodeId) : Tele tele s k → Value tele f s k → Value tele x s k →
    L.Keeps (apply tele node f x) s k fun v s' k' => Value tele v s' k'
  require {tele lhs rhs s k} (deduce : Bool) (purpose : Failure.Purpose) (node : NodeId) :
    Tele tele s k → Side tele lhs s k → Side tele rhs s k →
    L.Keeps (require tele deduce purpose node lhs rhs) s k fun _ _ _ => True
  makeUnknown {tele t s k} (definable : Bool) (role : Role) (node : NodeId) : Tele tele s k →
    Value tele ⟨t, Primitive.type⟩ s k →
    L.Keeps (makeUnknown tele t definable role node) s k fun p s' k' => Value tele ⟨p.2, t⟩ s' k'
  makePostulate {tele t s k} (id : NodeId) : Tele tele s k → Value tele ⟨t, Primitive.type⟩ s k →
    L.Keeps (makePostulate tele id t) s k fun v s' k' => Value tele v s' k'
  extend {tele t s k} : Tele tele s k → Value tele ⟨t, Primitive.type⟩ s k →
    L.Keeps (liftM (tele.extend t)) s k fun inner s' k' => Tele inner s' k' ∧
      Value inner ⟨.arg tele.depth, t⟩ s' k' ∧ ∀ v, Value tele v s' k' → Value inner v s' k'
  side_app {tele f x s k} : rules → (Side tele (.app f x) s k ↔ Side tele f s k ∧ Side tele x s k)
  value_arg {tele i t s k} : rules → Tele tele s k → tele.typeOfArg? i = some t →
    Value tele ⟨.arg i, t⟩ s k
  tele_compiled {tele x s k} : rules → Compiled tele x s k → Tele x.telescope s k
  value_compiled {tele x v s k} : rules → Compiled tele x s k → Value tele v s k →
    Value x.telescope v s k
  poseRule {tele x v s k} (node : NodeId) : rules → Compiled tele x s k →
    Value x.telescope v s k → L.Keeps (poseRule node x v) s k fun _ _ _ => True
  tele_part {tele id p s k} : rules → Part tele id p s k → Tele p.telescope s k
  value_part {tele id p v s k} : rules → Part tele id p s k → Value tele v s k →
    Value p.telescope v s k
  side_part {tele id p t s k} : rules → Part tele id p s k → Side tele t s k →
    Side p.telescope t s k
  start {tele id t u s k} : rules → Tele tele s k → Value tele ⟨t, u⟩ s k → t.head = .decl id →
    L.Keeps (Host.isDefinable (.decl id)) s k fun definable s' k' => definable = false →
      Part tele id ⟨tele, (Term.decl id).applyArgs tele.depth, replicate tele.depth .pull⟩ s' k'
  pull {tele id p s k} : rules → Part tele id p s k →
    L.Keeps (liftM (Pattern.pullArgument p.telescope p.applied)) s k fun out s' k' =>
      ∀ inner applied, out = some (inner, applied) →
        Part tele id ⟨inner, applied, p.steps ++ [.pull]⟩ s' k'
  matchHead {tele id p t u head s k} (count : Nat) : rules → Part tele id p s k →
    Value p.telescope ⟨t, u⟩ s k → Pattern.Position.canDestructure head →
    L.Keeps (liftM (Pattern.matchHead p.telescope t head count)) s k fun out s' k' =>
      ∀ inner, out = some inner →
        Part tele id ⟨inner, p.applied, p.steps ++ [.destructure t head count]⟩ s' k'
  finish {tele id p s k} : rules → Part tele id p s k →
    L.Keeps (liftM (p.telescope.typeOf p.applied)) s k fun out s' k' =>
      ∀ type arity captures checks, out = some type →
        (∀ c ∈ checks, Side p.telescope c.2.1 s' k' ∧ Side p.telescope c.2.2 s' k') →
        Compiled tele ⟨.decl id, arity, p.steps, type, captures, checks, p.telescope⟩ s' k'

namespace Upkeep

variable [Host H] {L : Regime Stop Kernel H} {U : Upkeep L} {tele : Telescope}
  {locals : List TypedTerm} {s s' : H} {k k' : Kernel} {subclauses : List Subclause}

/-- What evaluation below a telescope relies on. -/
structure Scope (U : Upkeep L) (tele : Telescope) (locals : List TypedTerm) (s : H)
    (k : Kernel) : Prop where
  telescope : U.Tele tele s k
  values : ∀ v ∈ locals, U.Value tele v s k

namespace Scope

theorem later (h : U.Scope tele locals s k) (hs : L.Holds s k) (hs' : L.Holds s' k')
    (hle : L.Leads s k s' k') : U.Scope tele locals s' k' :=
  ⟨U.tele_later hs hs' hle h.telescope, fun v hv =>
    U.value_later hs hle h.telescope (h.values v hv)⟩

private theorem bind {α β : Type} {x : StateT H KernelM α} {f : α → StateT H KernelM β}
    {P : α → H → Kernel → Prop}
    {Q : β → H → Kernel → Prop} (h : U.Scope tele locals s k) (hx : L.Keeps x s k P)
    (hf : ∀ a s' k', L.Holds s' k' → L.Leads s k s' k' → U.Scope tele locals s' k' → P a s' k' →
      L.Keeps (f a) s' k' Q) : L.Keeps (x >>= f) s k Q :=
  .bind hx fun a s' k' hs hs' hle ha => hf a s' k' hs' hle (h.later hs hs' hle) ha

private theorem append {more : List TypedTerm} (h : U.Scope tele locals s k)
    (hmore : ∀ v ∈ more, U.Value tele v s k) : U.Scope tele (locals ++ more) s k :=
  ⟨h.telescope, forall_mem_append.2 ⟨h.values, hmore⟩⟩

end Scope

/-! ### Expressions -/

private theorem keeps_lookup (h : U.Scope tele locals s k) {index : Nat}
    (hindex : Lenient L ∨ index < locals.length) :
    L.Keeps (lookup locals index) s k fun v s' k' => U.Value tele v s' k' := by
  unfold lookup
  split
  · next v hv => exact .pure fun _ => h.values v (mem_of_getElem? hv)
  · next hnone =>
    exact hindex.resolve_right (not_lt.2 (getElem?_eq_none_iff.1 hnone)) _ _ s k

private theorem keeps_castToType {v : TypedTerm} (h : U.Tele tele s k) (hv : U.Value tele v s k)
    (purpose : Failure.Purpose) (node : NodeId) :
    L.Keeps (castToType tele purpose node v) s k
      fun t s' k' => U.Value tele ⟨t, Primitive.type⟩ s' k' :=
  fun hs => U.cast purpose node h hv (U.value_kind hs) hs

section

variable (h : U.Scope tele locals s k)
include h

/-- Evaluating an expression keeps the regime. -/
theorem keeps_eval (e : Expr) (he : Lenient L ∨ e.Scoped locals.length) :
    L.Keeps (eval tele locals e) s k fun v s' k' => U.Value tele v s' k' := by
  induction e generalizing s k with
  | app id f x ihf ihx =>
    refine h.bind (ihf h (he.imp_right And.left)) fun f s1 k1 hs1 _ h1 hf => ?_
    refine h1.bind (ihx h1 (he.imp_right And.right)) fun x s2 k2 _ hle h2 hx => ?_
    exact U.apply id h2.telescope (U.value_later hs1 hle h1.telescope hf) hx
  | var id index => exact keeps_lookup h he
  | embed id index => exact U.embedded index h.telescope
  | type id => exact .pure fun hs => U.value_kind hs
  | arrow id => exact .pure fun hs => U.value_arrow hs
  | typeFamily id base ih =>
    refine h.bind (ih h he) fun v s1 k1 _ _ h1 hv => ?_
    refine .bind (keeps_castToType h1.telescope hv .typeFamilyType id) ?_
    exact fun t s2 k2 _ _ _ ht => .pure fun hs2 => U.value_family hs2 ht

theorem keeps_evalType (purpose : Failure.Purpose) (node : NodeId)
    (e : Expr) (he : Lenient L ∨ e.Scoped locals.length) :
    L.Keeps (evalType tele locals purpose node e) s k
      fun t s' k' => U.Value tele ⟨t, Primitive.type⟩ s' k' :=
  h.bind (keeps_eval h e he) fun _ _ _ _ _ h1 hv => keeps_castToType h1.telescope hv purpose node

private theorem keeps_requireValue {v : TypedTerm} {required : Term} (hv : U.Side tele v.value s k)
    (hrequired : U.Side tele required s k) (node : NodeId) (equals : Option Expr)
    (hequals : Lenient L ∨ ∀ e ∈ equals, e.Scoped locals.length) (deduce : Bool) :
    L.Keeps (match equals with
      | none => pure ()
      | some equals => do
        let expected ← eval tele locals equals
        Evaluator.require tele deduce .requirementValueType node expected.type required
        Evaluator.require tele deduce .valueRequirement node v.value expected.value) s k
          fun _ _ _ => True := by
  cases equals with
  | none => exact .pure fun _ => trivial
  | some equals =>
    have hequals := hequals.imp_right fun he => he equals rfl
    refine h.bind (keeps_eval h equals hequals) fun expected s1 k1 _ hle1 h1 hexpected => ?_
    refine h1.bind (U.require deduce .requirementValueType node h1.telescope
      (U.side_type hexpected) (U.side_later hle1 hrequired)) fun _ s2 k2 _ hle2 h2 _ => ?_
    exact U.require deduce .valueRequirement node h2.telescope
      (U.side_later (L.trans hle1 hle2) hv) (U.side_later hle2 (U.side_value hexpected))

theorem keeps_runCheck (node : NodeId) (value : Expr) (type equals : Option Expr) (deduce : Bool)
    (hscoped : Lenient L ∨ (Command.check node value type equals deduce).Scoped locals.length) :
    L.Keeps (runCheck tele locals node value type equals deduce) s k fun _ _ _ => True := by
  refine h.bind (keeps_eval h value (hscoped.imp_right (·.1))) fun v s1 k1 _ _ h1 hv => ?_
  have hequals := hscoped.imp_right (·.2.2)
  cases type with
  | none => exact
      keeps_requireValue h1 (U.side_value hv) (U.side_type hv) node equals hequals deduce
  | some type =>
    refine h1.bind (keeps_evalType h1 .requirementType node type
      (hscoped.imp_right (·.2.1 type rfl))) fun t s2 k2 _ hle2 h2 ht => ?_
    refine h2.bind (U.require deduce .typeRequirement node h2.telescope
      (U.side_later hle2 (U.side_type hv)) (U.side_value ht)) fun _ s3 k3 _ hle3 h3 _ => ?_
    exact keeps_requireValue h3 (U.side_later (L.trans hle2 hle3) (U.side_value hv))
      (U.side_later hle3 (U.side_value ht)) node equals hequals deduce

end

/-! ### Rules -/

private theorem exists_value_arg (hrules : U.rules) (h : U.Tele tele s k) {i : Nat}
    (hi : i < tele.depth) : ∃ u, tele.typeOfArg? i = some u ∧ U.Value tele ⟨.arg i, u⟩ s k := by
  have htype : (tele.typeOfArg? i).isSome := by
    rw [Telescope.typeOfArg?, isSome_getElem?, length_reverse]
    exact hi
  obtain ⟨u, hu⟩ := Option.isSome_iff_exists.1 htype
  exact ⟨u, hu, U.value_arg hrules h hu⟩

private theorem keeps_typedCaptures (hrules : U.rules) (h : U.Tele tele s k) {ts : List Term}
    (hts : ∀ t ∈ ts, ∃ i < tele.depth, t = .arg i) :
    L.Keeps (ts.mapM fun t => (liftM (typedCapture tele t) : StateT H KernelM TypedTerm)) s k
      fun vs s' k' => vs.length = ts.length ∧ ∀ v ∈ vs, U.Value tele v s' k' := by
  induction ts generalizing s k with
  | nil => exact .pure fun _ => ⟨rfl, forall_mem_nil _⟩
  | cons t ts ih =>
    rw [forall_mem_cons] at hts
    obtain ⟨⟨i, hi, rfl⟩, hts⟩ := hts
    obtain ⟨u, hu, hv⟩ := exists_value_arg hrules h hi
    have hone : L.Keeps (liftM (typedCapture tele (.arg i))) s k
        fun v s' k' => U.Value tele v s' k' := by
      have hcapture : typedCapture tele (.arg i) = pure ⟨.arg i, u⟩ := by
        simp [typedCapture, Term.argIndex?, hu]
      rw [hcapture]
      exact fun hs => ⟨hs, L.refl hs, hv⟩
    rw [mapM_cons]
    refine .bind hone fun v s1 k1 hs hs1 hle1 hv => ?_
    have h1 := U.tele_later hs hs1 hle1 h
    refine .bind (ih h1 hts) ?_
    rintro vs s2 k2 _ _ hle2 ⟨hlength, hvs⟩
    refine .pure fun _ => ⟨congrArg (· + 1) hlength, ?_⟩
    exact forall_mem_cons.2 ⟨U.value_later hs1 hle2 h1 hv, hvs⟩

private theorem keeps_subclauseValue {index : Nat} {requested : List Term} (hrules : U.rules)
    (h : U.Scope tele locals s k) (hrequested : ∀ t ∈ requested, ∃ i < tele.depth, t = .arg i)
    (hindex : (subclauses.map (·.used.length))[index]? = some requested.length)
    (hscoped : Lenient L ∨ ∀ c ∈ subclauses, c.Scoped locals.length) :
    L.Keeps (subclauseValue locals subclauses index tele requested) s k
      fun t s' k' => ∃ u, U.Value tele ⟨t, u⟩ s' k' := by
  rw [getElem?_map] at hindex
  obtain ⟨c, hc, hused⟩ := Option.map_eq_some_iff.1 hindex
  unfold subclauseValue
  rw [hc]
  refine h.bind (keeps_typedCaptures hrules h.telescope hrequested) ?_
  rintro captures s1 k1 _ _ h1 ⟨hlength, hcaptures⟩
  refine .bind (keeps_eval (h1.append hcaptures) c.matched (hscoped.imp_right fun hs => ?_)) ?_
  · rw [length_append, hlength, ← hused]
    exact (hs c (mem_of_getElem? hc)).1
  · exact fun v _ _ _ _ _ hv => .pure fun _ => ⟨v.type, hv⟩

private theorem keeps_runShards {id : Nat} {requests : List Nat} {flat : Flat} {shards : List Shard}
    {p : Partial} (hrules : U.rules) (node : NodeId)
    (h : U.Scope tele locals s k) (hp : U.Part tele id p s k)
    (hflat : flat.Running (fun t => U.Side tele t s k) requests shards p.telescope)
    (hrequests : requests = subclauses.map (·.used.length))
    (hscoped : Lenient L ∨ ∀ c ∈ subclauses, c.Scoped locals.length) :
    L.Keeps (runShards node (subclauseValue locals subclauses) p shards) s k
      fun out s' k' => ∀ p', out = .ok p' → U.Part tele id p' s' k' ∧
        flat.Running (fun t => U.Side tele t s' k') requests [] p'.telescope := by
  induction shards generalizing p s k with
  | nil =>
    refine .pure fun _ => ?_
    rintro _ ⟨⟩
    exact ⟨hp, hflat⟩
  | cons shard shards ih =>
    cases shard with
    | pull =>
      refine h.bind ((U.pull hrules hp).and_lift (ends_pullArgument_depth _ _ _)) ?_
      rintro out s1 k1 _ hle h1 ⟨hout, hdepth⟩
      split
      · exact .pure nofun
      · refine ih h1 (hout _ _ rfl) ?_
        exact (hflat.mono fun _ => U.side_later hle).next (hdepth _ rfl)
    | destructure shardId subject head count =>
      rw [runShards_destructure]
      have hsubject : L.Keeps (subjectTerm (subclauseValue locals subclauses) p.telescope
          subject) s k fun t s' k' => ∃ u, U.Value p.telescope ⟨t, u⟩ s' k' := by
        cases subject with
        | value position =>
          obtain ⟨u, _, hu⟩ := exists_value_arg hrules (U.tele_part hrules hp) hflat.shards.1.1
          exact .pure fun _ => ⟨u, hu⟩
        | subclause index requested =>
          obtain ⟨⟨hindex, hrequested⟩, _⟩ := hflat.shards.1
          exact keeps_subclauseValue hrules ⟨U.tele_part hrules hp, fun v hv =>
            U.value_part hrules hp (h.values v hv)⟩ hrequested (hrequests ▸ hindex) hscoped
      have hhead : Position.canDestructure head := by
        cases subject <;> exact hflat.shards.1.2
      refine .bind hsubject ?_
      rintro t s1 k1 hs hs1 hle1 ⟨u, hu⟩
      refine .bind ((U.matchHead count hrules (U.part_later hs hs1 hle1 hp) hu hhead).and_lift
        (ends_matchHead_depth _ _ _ _ _)) ?_
      rintro out s2 k2 _ hs2 hle2 ⟨hout, hdepth⟩
      cases out with
      | none => exact .pure nofun
      | some inner =>
        refine ih ((h.later hs hs1 hle1).later hs1 hs2 hle2) (hout inner rfl) ?_
        exact (hflat.mono fun _ => U.side_later (L.trans hle1 hle2)).next (hdepth inner rfl)

private theorem over_later {r : Resolved} (hs : L.Holds s k) (hle : L.Leads s k s' k')
    (htele : U.Tele tele s k) (hr : r.Over fun t => ∃ u, U.Value tele ⟨t, u⟩ s k) :
    r.Over fun t => ∃ u, U.Value tele ⟨t, u⟩ s' k' := by
  induction r with
  | app id f x ihf ihx => exact ⟨ihf hr.1, ihx hr.2⟩
  | term id value => exact hr.imp fun _ hv => U.value_later hs hle htele hv
  | _ => trivial

private theorem keeps_resolve (h : U.Scope tele locals s k) (p : Pat)
    (hp : Lenient L ∨ p.Scoped locals.length) :
    L.Keeps (resolve locals p) s k fun r s' k' => r.Over fun t =>
      ∃ u, U.Value tele ⟨t, u⟩ s' k' := by
  have hterm : ∀ {id : NodeId} {x : StateT H KernelM TypedTerm} {s k},
      L.Keeps x s k (fun v s' k' => U.Value tele v s' k') →
      L.Keeps (do let t ← TypedTerm.value <$> x; pure (Resolved.term id t)) s k
        fun r s' k' => r.Over fun t => ∃ u, U.Value tele ⟨t, u⟩ s' k' := by
    intro id x s k hx
    have hvalue : L.Keeps (TypedTerm.value <$> x) s k
        fun t s' k' => ∃ u, U.Value tele ⟨t, u⟩ s' k' :=
      .map (hx.mono fun v _ _ _ hv => ⟨v.type, hv⟩)
    exact .bind hvalue fun t _ _ _ _ _ ht => .pure fun _ => ht
  induction p generalizing s k with
  | app id f x ihf ihx =>
    refine h.bind (ihf h (hp.imp_right And.left)) fun f s1 k1 hs1 _ h1 hf => ?_
    refine .bind (ihx h1 (hp.imp_right And.right)) fun x s2 k2 _ _ hle hx => .pure fun _ => ?_
    exact ⟨over_later hs1 hle h1.telescope hf, hx⟩
  | var id index => exact hterm (keeps_lookup h hp)
  | embed id index => exact hterm (U.embedded index h.telescope)
  | capture id index => exact .pure fun _ => trivial
  | hole id => exact .pure fun _ => trivial

private theorem keeps_resolveAll (cs : List Subclause) (h : U.Scope tele locals s k)
    (hcs : Lenient L ∨ ∀ c ∈ cs, c.Scoped locals.length) :
    L.Keeps (cs.mapM fun c => do
      let p ← resolve locals c.pattern
      pure (⟨c.id, c.used, p⟩ : ResolvedSubclause)) s k fun rs s' k' =>
        rs.map (·.used.length) = cs.map (·.used.length) ∧
          ∀ r ∈ rs, r.pattern.Over fun t => ∃ u, U.Value tele ⟨t, u⟩ s' k' := by
  induction cs generalizing s k with
  | nil => exact .pure fun _ => ⟨rfl, forall_mem_nil _⟩
  | cons c cs ih =>
    rw [forall_mem_cons] at hcs
    rw [mapM_cons, bind_assoc]
    refine h.bind (keeps_resolve h c.pattern (hcs.imp_right (·.1.2))) fun p s1 k1 hs1 _ h1 hp => ?_
    rw [pure_bind]
    refine .bind (ih h1 (hcs.imp_right (·.2))) ?_
    rintro rs s2 k2 _ _ hle2 ⟨hused, hrs⟩
    refine .pure fun _ => ⟨congrArg (c.used.length :: ·) hused, ?_⟩
    exact forall_mem_cons.2 ⟨over_later hs1 hle2 h1.telescope hp, hrs⟩

/-- A flat pattern below a telescope, of which no shard was run. -/
private structure Flattened (U : Upkeep L) (tele : Telescope) (requests : List Nat) (captures : Nat)
    (flat : Flat) (s : H) (k : Kernel) : Prop where
  levelled : flat.Levelled (fun t => U.Side tele t s k) requests
  captures : flat.captures.length = captures
  start : ∃ id, flat.head = .decl id ∧
    U.Part tele id ⟨tele, (Term.decl id).applyArgs tele.depth, replicate tele.depth .pull⟩ s k

private theorem keeps_flatten (hrules : U.rules) (h : U.Scope tele locals s k) (node : NodeId)
    (pattern : Pat) (subclauses : List Subclause) (captures : Nat)
    (hscoped : Lenient L ∨
      pattern.Scoped locals.length ∧ ∀ c ∈ subclauses, c.Scoped locals.length) :
    L.Keeps (flatten locals node pattern subclauses captures) s k fun out s' k' =>
      ∀ flat, out = .ok flat →
        U.Flattened tele (subclauses.map (·.used.length)) captures flat s' k' := by
  refine h.bind (keeps_resolve h pattern (hscoped.imp_right And.left))
    fun primary s1 k1 hs1 _ h1 hprimary => ?_
  refine h1.bind (keeps_resolveAll subclauses h1 (hscoped.imp_right And.right)) ?_
  rintro others s2 k2 hs2 hle2 h2 ⟨hused, hrs⟩
  split
  · exact .pure fun _ _ h => by cases h
  next folded hfolded =>
  obtain ⟨⟨_, value, id, hprimaryHead, hvalueHead, hhead⟩, hcaptures, _⟩ :=
    Pattern.parts_of_ofResolved hfolded
  have hprimary2 := over_later hs1 hle2 h1.telescope hprimary
  obtain ⟨u, hvalue⟩ : ∃ u, U.Value tele ⟨value, u⟩ s2 k2 := by
    have hover := hprimary2.head
    rwa [hprimaryHead] at hover
  rw [hhead]
  refine .bind (U.start hrules h2.telescope hvalue hvalueHead)
    fun definable s3 k3 _ _ hle3 hstart => .getThe_bind ?_
  split
  · exact .pure fun _ _ h => by cases h
  next hfree =>
  refine .pure fun _ flat hflat => ?_
  have hside : ∀ t, (∃ u, U.Value tele ⟨t, u⟩ s2 k2) → U.Side tele t s3 k3 :=
    fun _ hv => U.side_later hle3 (U.side_value hv.choose_spec)
  have hdefinable : definable = false := by
    cases definable with
    | false => rfl
    | true => exact (hfree rfl).elim
  exact {
    levelled := hused ▸ Pattern.Flat.levelled_of_ofResolved (fun _ _ => U.side_app hrules)
      (hprimary2.mono hside) (fun r hr => (hrs r hr).mono hside) hfolded hflat
    captures := (Pattern.flattened_of_ofFolded hflat).captures.trans hcaptures
    start := ⟨id, (Pattern.head_of_flat hflat).trans hhead, hstart hdefinable⟩ }

private theorem keeps_execute (hrules : U.rules) (h : U.Scope tele locals s k) {flat : Flat}
    {captures : Nat} (hflat : U.Flattened tele (subclauses.map (·.used.length)) captures flat s k)
    (hscoped : Lenient L ∨ ∀ c ∈ subclauses, c.Scoped locals.length) :
    L.Keeps (execute tele flat (subclauseValue locals subclauses)) s k fun out s' k' =>
      ∀ x, out = .ok x → U.Compiled tele x s' k' ∧ x.captures.length = captures ∧
        ∀ t ∈ x.captures, ∃ i < x.telescope.depth, t = .arg i := by
  obtain ⟨id, hhead, hstart⟩ := hflat.start
  unfold Pattern.execute
  split
  · exact .pure fun _ _ h => by cases h
  next hdepth =>
  have hscope : flat.inScope = tele.depth := (Decidable.not_not.1 hdepth).symm
  rw [hscope, hhead]
  refine .bind (keeps_runShards hrules flat.id h hstart (hflat.levelled.running hscope) rfl
    hscoped) ?_
  intro out s1 k1 _ _ _ hout
  split
  · exact .pure fun _ _ h => by cases h
  next p =>
  obtain ⟨hp, hrunning⟩ := hout p rfl
  refine .bind (U.finish hrules hp) fun type s2 k2 hs1 hs2 hle2 hfinish => ?_
  split
  · exact .pure fun _ _ h => by cases h
  next type =>
  split
  · exact .pure fun _ _ h => by cases h
  next checks hchecks =>
  refine .pure fun _ => ?_
  rintro _ ⟨⟩
  have hp2 := U.part_later hs1 hs2 hle2 hp
  refine ⟨hfinish type _ _ checks rfl ?_, hflat.captures, hrunning.captures⟩
  refine (hrunning.mono fun _ => U.side_later hle2).checks (fun _ _ => U.side_app hrules)
    (fun _ => U.side_part hrules hp2) (fun i hi => ?_) hchecks
  obtain ⟨_, _, hv⟩ := exists_value_arg hrules (U.tele_part hrules hp2) hi
  exact U.side_value hv

private theorem keeps_compile (hrules : U.rules) (h : U.Scope tele locals s k) (node : NodeId)
    (pattern : Pat) (subclauses : List Subclause) (captures : Nat)
    (hscoped : Lenient L ∨
      pattern.Scoped locals.length ∧ ∀ c ∈ subclauses, c.Scoped locals.length) :
    L.Keeps (compile tele locals node pattern subclauses captures) s k fun out s' k' =>
      ∀ x, out = .ok x → U.Compiled tele x s' k' ∧ x.captures.length = captures ∧
        ∀ t ∈ x.captures, ∃ i < x.telescope.depth, t = .arg i := by
  rw [compile_eq]
  refine h.bind (keeps_flatten hrules h node pattern subclauses captures hscoped) ?_
  intro out s1 k1 _ _ h1 hout
  split
  · exact .pure nofun
  next flat => exact keeps_execute hrules h1 (hout flat rfl) (hscoped.imp_right And.right)

/-! ### Commands -/

/-- Binding an argument keeps the regime. -/
theorem keeps_openForAll (h : U.Scope tele locals s k) (id : NodeId) (type : Expr)
    (htype : Lenient L ∨ type.Scoped locals.length) :
    L.Keeps (openForAll tele locals id type) s k fun opened s' k' =>
      U.Scope opened.1 opened.2 s' k' ∧ opened.2.length = locals.length + 1 := by
  refine h.bind (U.note rfl) fun _ s1 k1 _ _ h1 _ => ?_
  refine h1.bind (keeps_evalType h1 .forAllType id type htype) fun t s2 k2 _ _ h2 ht => ?_
  refine h2.bind (U.extend h2.telescope ht) ?_
  rintro inner s3 k3 _ _ h3 ⟨hinner, hnew, hold⟩
  refine .pure fun _ =>
    ⟨⟨hinner, forall_mem_append.2 ⟨fun v hv => hold v (h3.values v hv), ?_⟩⟩, ?_⟩
  · exact forall_mem_singleton.2 hnew
  · exact length_append

/-- Opening a rule keeps the regime. -/
theorem keeps_openRule (hrules : U.rules) (h : U.Scope tele locals s k) (id : NodeId)
    (pattern : Pat) (subclauses : List Subclause) (captures : Nat)
    (hscoped : Lenient L ∨
      pattern.Scoped locals.length ∧ ∀ c ∈ subclauses, c.Scoped locals.length) :
    L.Keeps (openRule tele locals id pattern subclauses captures) s k fun out s' k' =>
      ∀ x bound, out = .ok (x, bound) → U.Compiled tele x s' k' ∧
        U.Scope x.telescope bound s' k' ∧ bound.length = locals.length + captures := by
  refine h.bind (U.note rfl) fun _ s1 k1 _ _ h1 _ => ?_
  refine h1.bind (keeps_compile hrules h1 id pattern subclauses captures hscoped) ?_
  intro out s2 k2 hs2 _ h2 hout
  cases out with
  | error f => exact .pure nofun
  | ok x =>
    obtain ⟨hx, hcount, hcaptures⟩ := hout x rfl
    have hscope : U.Scope x.telescope locals s2 k2 :=
      ⟨U.tele_compiled hrules hx, fun v hv => U.value_compiled hrules hx (h2.values v hv)⟩
    refine hscope.bind (keeps_typedCaptures hrules hscope.telescope hcaptures) ?_
    rintro bound s3 k3 hs3 hle3 h3 ⟨hlength, hbound⟩
    refine .pure fun _ => ?_
    rintro _ _ ⟨⟩
    refine ⟨U.compiled_later hs2 hs3 hle3 hx, h3.append hbound, ?_⟩
    rw [length_append, hlength, hcount]

/-- Failures may be reported, as they are where rules are rejected. -/
def Reporting (U : Upkeep L) : Prop :=
  U.rules ∧ ∀ f s k, L.Keeps (Host.report f) s k fun _ _ _ => True

/-- A command adds the locals that it says it adds, and the scope is kept. -/
def After (U : Upkeep L) (tele : Telescope) (locals : List TypedTerm) (added : Nat)
    (locals' : List TypedTerm) (s : H) (k : Kernel) : Prop :=
  U.Scope tele locals' s k ∧ ∃ new, locals' = locals ++ new ∧ new.length = added

private theorem Scope.after_push {v : TypedTerm} (h : U.Scope tele locals s k)
    (hv : U.Value tele v s k) :
    U.After tele locals 1 (locals ++ [v]) s k :=
  ⟨h.append (forall_mem_singleton.2 hv), [v], rfl, rfl⟩

private theorem Scope.after_same (h : U.Scope tele locals s k) : U.After tele locals 0 locals s k :=
  ⟨h, [], (append_nil _).symm, rfl⟩

mutual

/-- A command keeps the regime. -/
theorem keeps_runCommand {tele : Telescope} {locals : List TypedTerm} {s : H} {k : Kernel}
    (h : U.Scope tele locals s k) (c : Command) (hc : U.Reporting ∨ c.ruleFree = true)
    (hscoped : Lenient L ∨ c.Scoped locals.length) :
    L.Keeps (runCommand tele locals c) s k
      fun locals' s' k' => U.After tele locals c.added locals' s' k' := by
  cases c with
  | hole id type =>
    rw [runCommand_hole]
    refine h.bind (U.note rfl) fun _ s1 k1 _ _ h1 _ => ?_
    refine h1.bind (keeps_evalType h1 .holeType id type hscoped) fun t s2 k2 _ _ h2 ht => ?_
    refine h2.bind (U.makeUnknown true .hole id h2.telescope ht) fun p s3 k3 _ _ h3 hp => ?_
    exact .pure fun _ => h3.after_push hp
  | declare id type =>
    rw [runCommand_declare]
    refine h.bind (U.note rfl) fun _ s1 k1 _ _ h1 _ => ?_
    refine h1.bind (keeps_evalType h1 .declarationType id type hscoped) fun t s2 k2 _ _ h2 ht => ?_
    refine h2.bind (U.makeUnknown false .declaration id h2.telescope ht) ?_
    exact fun p s3 k3 _ _ h3 hp => .pure fun _ => h3.after_push hp
  | postulate id type =>
    rw [runCommand_postulate]
    refine h.bind (U.note rfl) fun _ s1 k1 _ _ h1 _ => ?_
    refine h1.bind (keeps_evalType h1 .postulateType id type hscoped) fun t s2 k2 _ _ h2 ht => ?_
    refine h2.bind (U.makePostulate id h2.telescope ht) fun v s3 k3 _ _ h3 hv => ?_
    exact .pure fun _ => h3.after_push hv
  | define id value type =>
    rw [runCommand_define]
    refine h.bind (U.note rfl) fun _ s1 k1 _ _ h1 _ => ?_
    refine h1.bind (keeps_eval h1 value (hscoped.imp_right (·.1))) fun v s2 k2 hs2 _ h2 hv => ?_
    cases type with
    | none => exact .pure fun _ => h2.after_push hv
    | some type =>
      refine h2.bind (keeps_evalType h2 .letType id type (hscoped.imp_right (·.2 type rfl)))
        fun t s3 k3 _ hle h3 ht => ?_
      have hv3 := U.value_later hs2 hle h2.telescope hv
      refine h3.bind (U.cast .letValue id h3.telescope hv3 ht) fun u s4 k4 _ _ h4 hu => ?_
      exact .pure fun _ => h4.after_push hu
  | check id value type equals deduce =>
    rw [runCommand_check]
    refine h.bind (U.note rfl) fun _ s1 k1 _ _ h1 _ => ?_
    refine h1.bind (keeps_runCheck h1 id value type equals deduce hscoped) ?_
    exact fun _ s2 k2 _ _ h2 _ => .pure fun _ => h2.after_same
  | forAll id type commands =>
    rw [runCommand_forAll]
    refine h.bind (keeps_openForAll h id type (hscoped.imp_right (·.1))) ?_
    rintro ⟨inner, bound⟩ s1 k1 _ _ h1 ⟨hopened, hlength⟩
    refine h1.bind (keeps_runCommands hopened commands (hc.imp_right fun h => h)
      (hscoped.imp_right fun h => hlength ▸ h.2)) ?_
    exact fun _ s2 k2 _ _ h2 _ => .pure fun _ => h2.after_same
  | rule id pattern subclauses captures commands replacement =>
    obtain ⟨hrules, hreport⟩ := hc.resolve_right nofun
    rw [runCommand_rule]
    refine h.bind (keeps_openRule hrules h id pattern subclauses captures
      (hscoped.imp_right (·.1))) ?_
    intro out s1 k1 hs1 _ h1 hout
    match out with
    | .error f =>
      refine h1.bind (hreport f s1 k1) ?_
      exact fun _ s2 k2 _ _ h2 _ => .pure fun _ => h2.after_same
    | .ok (x, bound) =>
      obtain ⟨hx, hbound, hlength⟩ := hout x bound rfl
      refine h1.bind (keeps_runCommands hbound commands (.inl ⟨hrules, hreport⟩)
        (hscoped.imp_right fun h => hlength ▸ h.2.1)) ?_
      rintro _ s2 k2 hs2 hle2 h2 ⟨hinner, new, rfl, hnew⟩
      refine h2.bind (keeps_eval hinner replacement (hscoped.imp_right fun h => ?_))
        fun v s3 k3 hs3 hle3 h3 hv => ?_
      · rw [length_append, hlength, hnew]
        exact h.2.2
      have hx3 := U.compiled_later hs2 hs3 hle3 (U.compiled_later hs1 hs2 hle2 hx)
      refine h3.bind (U.poseRule id hrules hx3 hv) ?_
      exact fun _ s4 k4 _ _ h4 _ => .pure fun _ => h4.after_same

/-- Commands keep the regime. -/
theorem keeps_runCommands {tele : Telescope} {locals : List TypedTerm} {s : H} {k : Kernel}
    (h : U.Scope tele locals s k) (commands : List Command)
    (hc : U.Reporting ∨ Command.allRuleFree commands = true)
    (hscoped : Lenient L ∨ Command.AllScoped locals.length commands) :
    L.Keeps (runCommands tele locals commands) s k fun locals' s' k' =>
      U.After tele locals (commands.map Command.added).sum locals' s' k' := by
  cases commands with
  | nil =>
    rw [runCommands_nil]
    exact .pure fun _ => h.after_same
  | cons c commands =>
    rw [runCommands_cons]
    refine .bind (keeps_runCommand h c (hc.imp_right fun h => (Bool.and_eq_true_iff.1 h).1)
      (hscoped.imp_right (·.1))) ?_
    rintro _ s1 k1 _ _ _ ⟨h1, new, rfl, hnew⟩
    refine (keeps_runCommands h1 commands (hc.imp_right fun h => (Bool.and_eq_true_iff.1 h).2)
      (hscoped.imp_right fun h => ?_)).mono ?_
    · rw [length_append, hnew]
      exact h.2
    · rintro _ s2 k2 _ ⟨h2, new', rfl, hnew'⟩
      refine ⟨h2, new ++ new', append_assoc .., ?_⟩
      rw [length_append, hnew, hnew', map_cons, sum_cons]

end

/-- A program keeps the regime. -/
theorem keeps_evalProgram (p : Program) (hroot : L.Keeps (liftM Telescope.root) s k
      fun tele s' k' => tele.depth = 0 ∧ U.Tele tele s' k')
    (hc : U.Reporting ∨ Command.allRuleFree p.commands = true) (hscoped : Lenient L ∨ p.Scoped) :
    L.Keeps (evalProgram p) s k
      fun v s' k' => ∃ tele : Telescope, tele.depth = 0 ∧ U.Value tele v s' k' := by
  rw [evalProgram_eq]
  refine .bind hroot ?_
  rintro tele s1 k1 _ hs1 _ ⟨hdepth, htele⟩
  refine .bind (keeps_runCommands ⟨htele, forall_mem_nil _⟩ p.commands hc
    (hscoped.imp_right And.left)) ?_
  rintro locals s2 k2 _ hs2 _ ⟨h, new, rfl, hnew⟩
  refine .bind (keeps_eval h p.value (hscoped.imp_right fun h => ?_))
    fun v s3 k3 _ hs3 hle3 hv => ?_
  · rw [hnew]
    exact h.2
  have htele3 := U.tele_later hs2 hs3 hle3 h.telescope
  refine .bind (U.note rfl) fun _ s4 k4 _ _ hle4 _ => .pure fun _ => ?_
  exact ⟨tele, hdepth, U.value_later hs3 hle4 htele3 hv⟩

end Upkeep

variable {L : Regime Stop Kernel Session} {s : Session} {k : Kernel}

/-- What is known of the values that a session made available. -/
theorem keeps_embedded {Q : TypedTerm → Session → Kernel → Prop} (index : Nat)
    (hstops : L.Holds s k → L.Stops s k (.violation (.nothingEmbedded index)) k)
    (hembeds : L.Holds s k → ∀ v ∈ s.embeds, Q v s k) :
    L.Keeps (Host.embedded index) s k Q := by
  change L.Keeps (SessionM.embedded index) s k Q
  refine .get_bind ?_
  split
  · next v hv => exact .pure fun hs => hembeds hs v (mem_of_getElem? hv)
  · exact hstops

/-- A session that may report failures. -/
theorem Upkeep.Reporting.of_session {U : Upkeep L} (hrules : U.rules)
    (h : ∀ f s k, L.Keeps (SessionM.report f) s k fun _ _ _ => True) : U.Reporting :=
  ⟨hrules, h⟩

end Evaluator
end Elaboration
