import Elaboration.Proofs.Session.Typing

/-!
# The values that a program produces

If the values of a session have the types that they come with, so has every value that a program
without rules produces, below telescopes of any depth, as long as the types of the arguments in
scope have normal forms without placeholders.
-/

namespace Elaboration

variable {k k' : Kernel} {S : Telescope}

open Ends Evaluator List Primitive Telescope Term

open Reduction
open Term (Plain)

/-- The type that a command demands, and what for. -/
def Command.annotation? : Command → Option (Failure.Purpose × Expr)
  | .hole _ type => some (.holeType, type)
  | .declare _ type => some (.declarationType, type)
  | .postulate _ type => some (.postulateType, type)
  | .forAll _ type _ => some (.forAllType, type)
  | _ => none

namespace Evaluator

/-- What the evaluator works on. -/
inductive Work where
  | value (e : Expr)
  | type (purpose : Failure.Purpose) (node : NodeId) (e : Expr)
  | commands (commands : List Command)

/-- The work is without rule commands. -/
def Work.ruleFree : Work → Bool
  | commands cs => Command.allRuleFree cs
  | _ => true

/-- The kernel after the start of a command below a telescope. -/
def starting (k : Kernel) (tele : Telescope) (c : Command) : Kernel :=
  { k with journal := .commandStarted c.id tele.depth :: k.journal }

/-- Below a telescope with some locals, from a session and a kernel, the evaluator produces a value
below a telescope, in the kernel as it is then. Rules are left out. -/
inductive Produces : Telescope → List TypedTerm → Work → Session → Kernel →
    Telescope → TypedTerm → Kernel → Prop where
  | value {tele locals e s k v s' k'} : eval tele locals e s k = .ok (v, s') k' →
      Produces tele locals (.value e) s k tele v k'
  | function {tele locals id f x s k S v k'} : Produces tele locals (.value f) s k S v k' →
      Produces tele locals (.value (.app id f x)) s k S v k'
  | argument {tele locals id f x s k u s1 k1 S v k'} :
      eval tele locals f s k = .ok (u, s1) k1 → Produces tele locals (.value x) s1 k1 S v k' →
      Produces tele locals (.value (.app id f x)) s k S v k'
  | argumentCast {tele locals id f x s k u s1 k1 w s2 k2 t k3 domain codomain c s3 k'} :
      eval tele locals f s k = .ok (u, s1) k1 → eval tele locals x s1 k1 = .ok (w, s2) k2 →
      tele.reduceClean u.type k2 = .ok t k3 → Primitive.asArrow? t = some (domain, codomain) →
      cast tele .argumentType id w domain s2 k3 = .ok (c, s3) k' →
      Produces tele locals (.value (.app id f x)) s k tele ⟨c, domain⟩ k'
  | base {tele locals id e s k S v k'} :
      Produces tele locals (.type .typeFamilyType id e) s k S v k' →
      Produces tele locals (.value (.typeFamily id e)) s k S v k'
  | typeValue {tele locals purpose node e s k S v k'} :
      Produces tele locals (.value e) s k S v k' →
      Produces tele locals (.type purpose node e) s k S v k'
  | typeCast {tele locals purpose node e s k t s' k'} :
      evalType tele locals purpose node e s k = .ok (t, s') k' →
      Produces tele locals (.type purpose node e) s k tele ⟨t, Primitive.type⟩ k'
  | scope {tele locals cs s k v} : v ∈ locals → Produces tele locals (.commands cs) s k tele v k
  | annotation {tele locals c cs purpose e s k S v k'} : c.annotation? = some (purpose, e) →
      Produces tele locals (.type purpose c.id e) s (starting k tele c) S v k' →
      Produces tele locals (.commands (c :: cs)) s k S v k'
  | letValue {tele locals id e type cs s k S v k'} :
      Produces tele locals (.value e) s (starting k tele (.define id e type)) S v k' →
      Produces tele locals (.commands (.define id e type :: cs)) s k S v k'
  | letType {tele locals id e type cs s k u s1 k1 S v k'} :
      eval tele locals e s (starting k tele (.define id e (some type))) = .ok (u, s1) k1 →
      Produces tele locals (.type .letType id type) s1 k1 S v k' →
      Produces tele locals (.commands (.define id e (some type) :: cs)) s k S v k'
  | checkValue {tele locals id e type equals deduce cs s k S v k'} :
      Produces tele locals (.value e) s (starting k tele (.check id e type equals deduce)) S v k' →
      Produces tele locals (.commands (.check id e type equals deduce :: cs)) s k S v k'
  | checkType {tele locals id e type equals deduce cs s k u s1 k1 S v k'} :
      eval tele locals e s (starting k tele (.check id e (some type) equals deduce)) =
        .ok (u, s1) k1 →
      Produces tele locals (.type .requirementType id type) s1 k1 S v k' →
      Produces tele locals (.commands (.check id e (some type) equals deduce :: cs)) s k S v k'
  | checkEquals {tele locals id e type equals deduce cs s k s1 k1 S v k'} :
      runCheck tele locals id e type none deduce s
        (starting k tele (.check id e type (some equals) deduce)) = .ok ((), s1) k1 →
      Produces tele locals (.value equals) s1 k1 S v k' →
      Produces tele locals (.commands (.check id e type (some equals) deduce :: cs)) s k S v k'
  | forAll {tele locals id type inner cs cs' bound s k s1 k1 S v k'} :
      openForAll tele locals id type s k = .ok ((inner, bound), s1) k1 →
      Produces inner bound (.commands cs) s1 k1 S v k' →
      Produces tele locals (.commands (.forAll id type cs :: cs')) s k S v k'
  | later {tele locals c cs locals1 s k s1 k1 S v k'} :
      runCommand tele locals c s k = .ok (locals1, s1) k1 →
      Produces tele locals1 (.commands cs) s1 k1 S v k' →
      Produces tele locals (.commands (c :: cs)) s k S v k'

end Evaluator

/-- Evaluating the program in the session produces a value below a telescope, in the kernel as it is
then. -/
def Program.Produces (p : Program) (s : Session) (k : Kernel) (S : Telescope) (v : TypedTerm)
    (k' : Kernel) : Prop :=
  ∃ tele k0, Telescope.root k = .ok tele k0 ∧
    (Evaluator.Produces tele [] (.commands p.commands) s k0 S v k' ∨
      ∃ locals s1 k1, Evaluator.runCommands tele [] p.commands s k0 = .ok (locals, s1) k1 ∧
        Evaluator.Produces tele locals (.value p.value) s1 k1 S v k')

namespace Evaluator

variable {tele : Telescope} {locals : List TypedTerm} {work : Work} {s : Session} {v : TypedTerm}

private theorem start (hs : typing.Holds s k) (h : typeUpkeep.Scope tele locals s k) (c : Command) :
    typing.Holds s (starting k tele c) ∧ typeUpkeep.Scope tele locals s (starting k tele c) := by
  have hle : k.Freshens (starting k tele c) := hs.1.freshens_noted
  have hs' := typing_later hs hle rfl
  exact ⟨hs', h.later hs hs' ⟨hle, rfl⟩⟩

private theorem Produces.sits (h : Produces tele locals work s k S v k') (hs : typing.Holds s k)
    (hscope : typeUpkeep.Scope tele locals s k) (hfree : work.ruleFree = true) :
    v.Sits S k' ∧ S.AssumesNothing k' := by
  induction h with
  | value hok =>
    obtain ⟨hs', hle, hv⟩ := (Upkeep.keeps_eval hscope _ (.inl lenient_typing) hs).of_ok hok
    exact ⟨hv, (hscope.later hs hs' hle).telescope.context⟩
  | function _ ih => exact ih hs hscope rfl
  | argument hok _ ih =>
    obtain ⟨hs', hle, _⟩ := (Upkeep.keeps_eval hscope _ (.inl lenient_typing) hs).of_ok hok
    exact ih hs' (hscope.later hs hs' hle) rfl
  | @argumentCast tele locals id f x s k u s1 k1 w s2 k2 t k3 domain codomain c s3 k' hf hx hreduce
      harrow hcast =>
    obtain ⟨hs1, hle1, hu⟩ := (Upkeep.keeps_eval hscope _ (.inl lenient_typing) hs).of_ok hf
    have hscope1 := hscope.later hs hs1 hle1
    obtain ⟨hs2, hle2, hw⟩ := (Upkeep.keeps_eval hscope1 _ (.inl lenient_typing) hs1).of_ok hx
    have hb := (hscope1.later hs1 hs2 hle2).telescope
    obtain ⟨rfl, hn, _⟩ := (hb.context.ends_reduceClean _).of_ok hreduce
    obtain rfl := eq_arrowOf harrow
    have hu2 := hu.type.mono hle2.1.symbols
    have hdomain := (known_arrowOf.1 (hb.grounded.known_of_normalizes hu2 hn)).1
    obtain ⟨_, ⟨hle3, _⟩, hc⟩ := (derives_cast hb hw hdomain .argumentType id hs2).of_ok hcast
    exact ⟨hc, (hb.later hle3).context⟩
  | base _ ih => exact ih hs hscope rfl
  | typeValue _ ih => exact ih hs hscope rfl
  | typeCast hok =>
    obtain ⟨hs', hle, ht⟩ := (Upkeep.keeps_evalType hscope _ _ _ (.inl lenient_typing) hs).of_ok hok
    exact ⟨ht, (hscope.later hs hs' hle).telescope.context⟩
  | scope hv => exact ⟨hscope.values _ hv, hscope.telescope.context⟩
  | annotation _ _ ih | letValue _ ih | checkValue _ ih =>
    obtain ⟨hs, hscope⟩ := start hs hscope _
    exact ih hs hscope rfl
  | letType hok _ ih | checkType hok _ ih =>
    obtain ⟨hs, hscope⟩ := start hs hscope _
    obtain ⟨hs', hle, _⟩ := (Upkeep.keeps_eval hscope _ (.inl lenient_typing) hs).of_ok hok
    exact ih hs' (hscope.later hs hs' hle) rfl
  | checkEquals hok _ ih =>
    obtain ⟨hs, hscope⟩ := start hs hscope _
    obtain ⟨hs', hle, _⟩ := (Upkeep.keeps_runCheck hscope _ _ _ _ _
      (.inl lenient_typing) hs).of_ok hok
    exact ih hs' (hscope.later hs hs' hle) rfl
  | forAll hok _ ih =>
    rw [Work.ruleFree, Command.allRuleFree, Bool.and_eq_true] at hfree
    obtain ⟨hs', _, hinner, _⟩ :=
      (Upkeep.keeps_openForAll hscope _ _ (.inl lenient_typing) hs).of_ok hok
    exact ih hs' hinner hfree.1
  | later hok _ ih =>
    rw [Work.ruleFree, Command.allRuleFree, Bool.and_eq_true] at hfree
    obtain ⟨hs', _, hlater, _⟩ :=
      (Upkeep.keeps_runCommand hscope _ (.inr hfree.1) (.inl lenient_typing) hs).of_ok hok
    exact ih hs' hlater hfree.2

end Evaluator

/-! ### Values of the session -/

/-- The type that the empty telescope reads off the value has the same normal form as the type that
the value comes with. -/
structure TypedTerm.Founded (k : Kernel) (v : TypedTerm) : Prop where
  value : v.value.Known k.nextSymbol
  type : v.type.Known k.nextSymbol
  read : ∃ tele k0 type n, Telescope.root k = .ok tele k0 ∧
    tele.typeOf v.value k0 = .ok (some type) k0 ∧
    tele.reduce type k0 = .ok n k0 ∧ tele.reduce v.type k0 = .ok n k0

private theorem TypedTerm.Founded.sits {k : Kernel} {v : TypedTerm} (h : v.Founded k) :
    v.Sits .empty k := by
  obtain ⟨tele, k0, type, n, hroot, htype, hn, hn'⟩ := h.read
  have hcontext := assumesNothing_root hroot
  have hreads := reads_of_typeOf hcontext htype
  obtain ⟨hrun, _⟩ := (hcontext.ends_reduce type).of_ok hn
  obtain ⟨hrun', _⟩ := (hcontext.ends_reduce v.type).of_ok hn'
  cases hroot
  refine ⟨h.value, h.type, fun _ => ⟨type, ?_, fun m hm => ?_⟩⟩
  · obtain ⟨head, hhead, happlies⟩ := hreads
    exact ⟨head, hhead, happlies⟩
  · rw [hm.unique ⟨_, hrun'⟩]
    exact ⟨_, hrun⟩

private theorem Program.Produces.sits {p : Program} {s : Session}
    {v : TypedTerm} (h : p.Produces s k S v k') (hfree : Command.allRuleFree p.commands = true)
    (hk : k.Grounded) (hembeds : ∀ u ∈ s.embeds, u.Founded k) :
    v.Sits S k' ∧ S.AssumesNothing k' := by
  obtain ⟨tele, k0, hroot, h⟩ := h
  obtain ⟨hle, hknown⟩ := freshens_root hk hroot
  have hb : Basis tele k0 :=
    ⟨hle.grounded, ⟨[], .root hk.primitiveRules hk.ruled hroot⟩, hknown⟩
  have hs : typing.Holds s k0 :=
    typing_later ⟨hk, fun u hu => (hembeds u hu).sits⟩ hle rfl
  have hscope : typeUpkeep.Scope tele [] s k0 := ⟨hb, forall_mem_nil _⟩
  obtain h | ⟨locals, s1, k1, hrun, h⟩ := h
  · exact h.sits hs hscope hfree
  · obtain ⟨hs1, _, hscope1, _⟩ :=
      (Upkeep.keeps_runCommands hscope _ (.inr hfree) (.inl lenient_typing) hs).of_ok hrun
    exact h.sits hs1 hscope1 rfl

/-- A type is read off every value that a program without rules produces, and it has the normal form
of the type that the value comes with, if the values of the session have the types that they come
with and the types of the arguments in scope have normal forms without placeholders. -/
theorem Program.Produces.typeOf_value {p : Program} {s : Session} {k k' : Kernel} {S : Telescope}
    {v : TypedTerm} (h : p.Produces s k S v k') (hfree : Command.allRuleFree p.commands = true)
    (hk : k.Grounded) (hembeds : ∀ u ∈ s.embeds, u.Founded k) (hclear : S.Clear k') :
    ∃ type,
      (∃ bound, ∀ limit ≥ bound,
        S.typeOf v.value { k' with limit } = .ok (some type) { k' with limit }) ∧
      ∀ n, Normalizes k'.rules v.type n → ∃ bound, ∀ limit ≥ bound,
        S.reduce type { k' with limit } = .ok n { k' with limit } ∧
          S.reduce v.type { k' with limit } = .ok n { k' with limit } := by
  obtain ⟨hsits, hcontext⟩ := h.sits hfree hk hembeds
  obtain ⟨type, hreads, hsame⟩ := hsits.wellTyped hclear
  refine ⟨type, hreads.typeOf hcontext, fun n hn => ?_⟩
  obtain ⟨bound, hbound⟩ := (hsame n hn).eventually
  obtain ⟨bound', hbound'⟩ := hn.eventually
  have hreduce : ∀ {t limit}, run? k'.rules .none limit .full t = some n →
      S.reduce t { k' with limit } = .ok n { k' with limit } := fun hrun =>
    eq_ok (ends_reduce_of_run? (k := { k' with limit := _ }) hcontext hrun)
  refine ⟨max bound bound', fun limit hlimit =>
    ⟨hreduce (hbound limit ?_), hreduce (hbound' limit ?_)⟩⟩
  · exact (le_max_left ..).trans hlimit
  · exact (le_max_right ..).trans hlimit

/-! ### Commands below several arguments -/

/-- The commands below bound arguments, outermost first. -/
def Command.nest (cs : List Command) : List (NodeId × Expr) → List Command
  | [] => cs
  | (id, type) :: args => [.forAll id type (nest cs args)]

namespace Evaluator

/-- Binds arguments, outermost first, and runs commands below them. -/
def descend (cs : List Command) (tele : Telescope) (locals : List TypedTerm) :
    List (NodeId × Expr) → SessionM (Telescope × List TypedTerm)
  | [] => do
    let locals ← runCommands tele locals cs
    pure (tele, locals)
  | (id, type) :: args => do
    let (inner, bound) ← openForAll tele locals id type
    descend cs inner bound args

private theorem produces_of_runCommands {tele : Telescope} {locals locals' : List TypedTerm}
    {cs : List Command} {s s' : Session} {k k' : Kernel} {v : TypedTerm}
    (h : runCommands tele locals cs s k = .ok (locals', s') k') (hv : v ∈ locals') :
    Produces tele locals (.commands cs) s k tele v k' := by
  have hruns : EndsWith (runCommands tele locals cs) s k
      (fun locals' _ k' => ∀ v ∈ locals', Produces tele locals (.commands cs) s k tele v k')
      fun _ _ => True := by
    clear h hv
    induction cs generalizing locals s k with
    | nil =>
      rw [runCommands_nil]
      exact fun _ => .scope
    | cons c cs ih =>
      rw [runCommands_cons, EndsWith.bind_iff]
      refine of_answer fun p k1 hok => ?_
      exact ih.imp (fun _ _ _ h v hv => .later hok (h v hv))
  exact hruns.of_ok h v hv

private theorem endsWith_descend (cs : List Command) (tele : Telescope) (locals : List TypedTerm)
    (args : List (NodeId × Expr)) (s : Session) (k : Kernel) :
    EndsWith (descend cs tele locals args) s k
      (fun p _ k' => ∀ v ∈ p.2,
        Produces tele locals (.commands (Command.nest cs args)) s k p.1 v k') fun _ _ => True := by
  induction args generalizing tele locals s k with
  | nil =>
    rw [descend, EndsWith.bind_iff]
    refine of_answer fun p k1 hok => ?_
    exact fun v hv => produces_of_runCommands hok hv
  | cons arg args ih =>
    rw [descend, EndsWith.bind_iff]
    refine of_answer fun p k1 hok => ?_
    exact (ih ..).imp (fun _ _ _ h v hv => .forAll hok (h v hv))

end Evaluator

private theorem Program.produces_of_descend {cs : List Command} {args : List (NodeId × Expr)}
    {value : Expr} {s s' : Session} {locals : List TypedTerm}
    (h : (do
      let tele ← root
      descend cs tele [] args : SessionM (Telescope × List TypedTerm)) s k =
        .ok ((S, locals), s') k') :
    ∀ v ∈ locals, Program.Produces ⟨Command.nest cs args, value⟩ s k S v k' := by
  have hends : EndsWith (do
      let tele ← root
      descend cs tele [] args : SessionM (Telescope × List TypedTerm)) s k
      (fun p _ k' => ∀ v ∈ p.2, Program.Produces ⟨Command.nest cs args, value⟩ s k p.1 v k')
      fun _ _ => True := by
    rw [EndsWith.bind_iff, EndsWith.lift_iff]
    refine of_answer fun tele k0 hroot => ?_
    exact (endsWith_descend ..).imp (fun _ _ _ h v hv => ⟨tele, k0, hroot, .inl (h v hv)⟩)
  exact hends.of_ok h

/-! ### Both ways to apply a value -/

/-- The kernel with a postulate `p10` and a postulate `p11` of given types. -/
def postulating (type1 type2 : Term) : Kernel :=
  { Kernel.initial with
    limit := 100
    nextSymbol := 12
    types := (Kernel.initial.types.set 10 type1).set 11 type2 }

private theorem grounded_postulating {type1 type2 : Term} (h1 : type1.Known 12)
    (h2 : type2.Known 12) :
    (postulating type1 type2).Grounded := by
  have hmade : Kernel.Grounded { Kernel.initial with limit := 100, nextSymbol := 12 } :=
    Kernel.Grounded.initial.later (by decide) (fun _ => rfl) rfl rfl rfl
  exact (hmade.withType (by decide) (by decide) h1).withType (Nat.lt_succ_self 11) (by decide) h2

/-- `p10 : Type` and `p11 : p10 → p10`. -/
def endomorphism : Kernel :=
  postulating Primitive.type (Primitive.functionType (.postulate 10) (.postulate 10))

/-- The session that provides `p10` and `p11`. -/
def endomorphismSession : Session :=
  { Session.initial endomorphism with
    embeds := [⟨.postulate 10, Primitive.type⟩,
      ⟨.postulate 11, Primitive.functionType (.postulate 10) (.postulate 10)⟩] }

/-- Below two arguments of type `p10`, the first one, which is no function, is applied to the second
one, and `p11` to the result. -/
def twoRoutes : Program where
  commands := Command.nest
    [.define 4 (.app 5 (.var 6 0) (.var 7 1)) none,
      .define 8 (.app 9 (.embed 10 1) (.var 11 2)) none]
    [(0, .embed 1 0), (2, .embed 3 0)]
  value := .type 12

/-- The results of both applications: unknowns stand for the function and the argument of the first
one and for the argument of the second one. -/
def twoRoutesValues : List TypedTerm :=
  let applied (id : Nat) : Term := (Term.decl id).applyArgs 2
  [⟨.app (applied 26) (applied 28), .app (applied 24) (applied 28)⟩,
    ⟨.app (.postulate 11) (applied 30),
      .app (Primitive.constantFamily (.postulate 10) (.postulate 10)) (applied 30)⟩]

private theorem founded_endomorphism :
    ∀ v ∈ endomorphismSession.embeds, v.Founded endomorphism := by
  have hknown : Known 12 (functionType (.postulate 10) (.postulate 10)) :=
    all_declIn.2 (by decide)
  refine forall_mem_cons.2 ⟨⟨known_postulate _, known_postulate _, ?_⟩,
    forall_mem_singleton.2 ⟨known_postulate _, hknown, ?_⟩⟩
  · exact ⟨_, _, _, Primitive.type, rfl, rfl, rfl, rfl⟩
  · exact ⟨_, _, _, functionType (.postulate 10) (.postulate 10), rfl, rfl, rfl, rfl⟩

/-- The theorem at values typed along two routes. -/
theorem typeOf_value_twoRoutes : ∃ S k', S.depth = 2 ∧ S.Clear k' ∧ ∀ v ∈ twoRoutesValues,
    twoRoutes.Produces endomorphismSession endomorphism S v k' ∧ ∃ type,
      (∃ bound, ∀ limit ≥ bound,
        S.typeOf v.value { k' with limit } = .ok (some type) { k' with limit }) ∧
      ∀ n, Normalizes k'.rules v.type n → ∃ bound, ∀ limit ≥ bound,
        S.reduce type { k' with limit } = .ok n { k' with limit } ∧
          S.reduce v.type { k' with limit } = .ok n { k' with limit } := by
  obtain ⟨⟨⟨S, locals⟩, s⟩, k', hdescend, hbound, hlocals⟩ : ∃ x k', (do
      let tele ← root
      descend
        [.define 4 (.app 5 (.var 6 0) (.var 7 1)) none,
          .define 8 (.app 9 (.embed 10 1) (.var 11 2)) none] tele []
        [(0, .embed 1 0), (2, .embed 3 0)] : SessionM (Telescope × List TypedTerm))
      endomorphismSession endomorphism = .ok x k' ∧
      x.1.1.boundTypes = [.postulate 10, .postulate 10] ∧ ∀ v ∈ twoRoutesValues, v ∈ x.1.2 := by
    decide +kernel
  have hclear : S.Clear k' := by
    intro type htype
    rw [hbound] at htype
    have hpostulate : type = .postulate 10 := by simpa using htype
    exact hpostulate ▸ ⟨_, normalizes_postulate .nil, nofun⟩
  refine ⟨S, k', congrArg length hbound, hclear, fun v hv => ?_⟩
  have hproduces : twoRoutes.Produces endomorphismSession endomorphism S v k' :=
    Program.produces_of_descend hdescend v (hlocals v hv)
  have hknown : Known 12 (functionType (.postulate 10) (.postulate 10)) :=
    all_declIn.2 (by decide)
  exact ⟨hproduces, hproduces.typeOf_value rfl
    (grounded_postulating (known_postulate _) hknown) founded_endomorphism hclear⟩

/-! ### An argument whose type mentions a placeholder -/

/-- `p10 : Type → Type`. -/
def predicate : Kernel :=
  postulating (Primitive.functionType Primitive.type Primitive.type) Primitive.type

/-- The session that provides the type `p10 #0`. -/
def predicateSession : Session :=
  { Session.initial predicate with
    embeds := [⟨.app (.postulate 10) (.placeholder 0), Primitive.type⟩] }

/-- A declaration below an argument of type `p10 #0`. -/
def declaringBelow : Program where
  commands := Command.nest [.declare 2 (.type 3)] [(0, .embed 1 0)]
  value := .type 4

private theorem Telescope.typeOf_ne_of_leak {t head n type : Term}
    (hcontext : S.AssumesNothing k) (hhead : S.headType? k t.head = some head)
    (hn : Normalizes k.rules head n) (hleak : n.hasPlaceholder = true) (hargs : t.args ≠ []) :
    S.typeOf t k ≠ .ok (some type) k' := by
  intro htype
  obtain ⟨head', hhead', happlies⟩ := reads_of_typeOf hcontext htype
  cases hhead.symm.trans hhead'
  cases hspine : t.args with
  | nil => exact hargs hspine
  | cons x xs =>
    rw [hspine] at happlies
    cases happlies with
    | step hn' hplain _ =>
      rw [hn.unique hn', all_hasPlaceholder.2 hplain] at hleak
      cases hleak

/-- A program without rules produces a value off which no type is read, although the value of the
session has the type that it comes with. -/
theorem exists_typeOf_value_ne_ok : ∃ S v k',
    declaringBelow.Produces predicateSession predicate S v k' ∧
      Command.allRuleFree declaringBelow.commands = true ∧ predicate.Grounded ∧
      (∀ u ∈ predicateSession.embeds, u.value.Below 0 ∧ u.type.Below 0 ∧ u.Founded predicate) ∧
      ∀ limit type k'', S.typeOf v.value { k' with limit } ≠ .ok (some type) k'' := by
  obtain ⟨⟨⟨S, locals⟩, s⟩, k', hdescend, hlocal, head, hhead, n, hn, hleak⟩ : ∃ x k', (do
      let tele ← root
      descend [.declare 2 (.type 3)] tele [] [(0, .embed 1 0)] :
        SessionM (Telescope × List TypedTerm)) predicateSession predicate = .ok x k' ∧
      ⟨.app (.decl 17) (.arg 0), Primitive.type⟩ ∈ x.1.2 ∧ ∃ type, k'.types.get? 17 = some type ∧
      ∃ n, run? k'.rules .none 100 .full type = some n ∧ n.hasPlaceholder := by decide +kernel
  have hfounded : ∀ u ∈ predicateSession.embeds,
      u.value.Below 0 ∧ u.type.Below 0 ∧ u.Founded predicate := by
    refine forall_mem_singleton.2 ⟨⟨trivial, trivial⟩, trivial, ⟨⟨nofun, nofun⟩, nofun, ?_⟩⟩
    exact ⟨_, _, _, Primitive.type, rfl, rfl, rfl, rfl⟩
  have hgrounded : predicate.Grounded :=
    grounded_postulating (all_declIn.2 (by decide)) (known_postulate _)
  have hproduces : declaringBelow.Produces predicateSession predicate S _ k' :=
    Program.produces_of_descend hdescend _ hlocal
  obtain ⟨_, hcontext⟩ := hproduces.sits rfl hgrounded fun u hu => (hfounded u hu).2.2
  refine ⟨S, _, k', hproduces, rfl, hgrounded, hfounded, fun limit type k'' => ?_⟩
  exact typeOf_ne_of_leak (k := { k' with limit }) hcontext hhead ⟨100, hn⟩ hleak nofun

end Elaboration
