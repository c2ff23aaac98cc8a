import Elaboration.Proofs.Obligation.Unknowns
import Elaboration.Proofs.Rule.Reachability
import Elaboration.Proofs.Session.Evaluation

/-!
# Refused rules and circular definitions

A session poses casts and applications about declarations that it has just made, and the solver
defines indeterminates. So what the table refuses is a rule for a declaration that a rule of a
program is about as well. Neither the solver nor a telescope closes a cycle, but a cast, a function
or an argument that completes may: every cycle goes through such an unknown.
-/

namespace Elaboration

open List Option RuleTable Stage StoreM

namespace Stage

/-- The store is used well, and the unused declarations are free. -/
structure Clear (strict : Prop) (st : Stage) : Prop where
  config : StoreM.Config.Clear strict [] ⟨.idle, st.store, st.kernel⟩
  nodup : st.fresh.Nodup
  free : ∀ d ∈ st.fresh, StoreM.Config.Free ⟨.idle, st.store, st.kernel⟩ d

variable {strict : Prop} {st st' : Stage} {s : Store} {k k' : Kernel} {fresh : List Nat} {d : Nat}

private theorem awaits_kernel (owner : Owner) :
    Config.Awaits ⟨.idle, s, k'⟩ owner → Config.Awaits ⟨.idle, s, k⟩ owner :=
  fun h => h

private theorem targets_kernel (h : Config.Targets ⟨.idle, s, k'⟩ d) :
    Config.Targets ⟨.idle, s, k⟩ d := by
  refine .of_sub ?_ awaits_kernel h
  exact fun ho => ho

private theorem Clear.kernel (h : Clear strict ⟨s, k, fresh⟩) (hexpands : k.Expands k')
    (hadds : k.Adds (fun _ => False) k') (hquiet : Quiet k.journal k'.journal) :
    Clear strict ⟨s, k', fresh⟩ where
  config := by
    refine h.config.later (fun ho => ho) awaits_kernel hexpands (hadds.mono fun _ h => h.elim)
      (fun _ hd => .inl hd) fun d => ?_
    simp only [Config.Committed, append_nil]
    exact hquiet.mem_iff rfl
  nodup := h.nodup
  free d hd := by
    obtain ⟨hregistered, hruleless, hdeterminate, huntargeted⟩ := h.free d hd
    refine ⟨hexpands.registered d hregistered, ?_, hdeterminate,
      fun ht => huntargeted (targets_kernel ht)⟩
    refine eq_none_iff_forall_ne_some.2 fun r hr => ?_
    obtain hr | hno | hnew := hadds.ruled d r hr
    · cases hruleless.symm.trans hr
    · exact hno
    · exact absurd hnew.1 (Nat.not_le_of_lt (h.config.made.registered d hregistered))

private theorem Clear.declare (h : Clear strict ⟨s, k, fresh⟩) :
    Clear strict ⟨s, { k with
      nextSymbol := k.nextSymbol + 1, rules := k.rules.register k.nextSymbol },
      k.nextSymbol :: fresh⟩ := by
  have hmade := h.config.made
  have hk : Clear strict ⟨s, { k with
      nextSymbol := k.nextSymbol + 1, rules := k.rules.register k.nextSymbol }, fresh⟩ := by
    refine h.kernel ⟨Nat.le_succ _, fun id r hr => by simpa using hr, fun id hid =>
      mem_registered_register.2 (.inr hid)⟩ ⟨fun id hid => ?_, fun id r hr => ?_⟩
      (.refl _)
    · refine (mem_registered_register.1 hid).symm.imp_right ?_
      rintro rfl
      exact ⟨le_rfl, Nat.lt_succ_self _⟩
    · exact .inl (by simpa using hr)
  refine ⟨hk.config, nodup_cons.2 ⟨fun hmem => ?_, h.nodup⟩, forall_mem_cons.2 ⟨?_, hk.free⟩⟩
  · exact lt_irrefl _ (hmade.registered _ (h.free _ hmem).registered)
  refine ⟨mem_registered_register.2 (.inl rfl), ?_, fun hmem => ?_, fun ht => ?_⟩
  · refine eq_none_iff_forall_ne_some.2 fun r hr => ?_
    exact lt_irrefl _ (hmade.ruled _ r (by simpa using hr))
  · exact lt_irrefl _ (hmade.registered _ (h.config.definable hmem).1)
  · exact lt_irrefl _ (h.config.targets_lt (targets_kernel ht))

private theorem Clear.indeterminate (h : Clear strict ⟨s, k, d :: fresh⟩) :
    Clear strict ⟨{ s with indeterminates := if d ∈ s.indeterminates then s.indeterminates
      else d :: s.indeterminates }, k, fresh⟩ := by
  obtain ⟨hnot, hnodup⟩ := nodup_cons.1 h.nodup
  obtain ⟨hd, hfree⟩ := forall_mem_cons.1 h.free
  rw [if_neg hd.determinate]
  have hget : ∀ {id o}, s.obligations.get? id = some o → s.obligations.get? id = some o :=
    fun ho => ho
  refine ⟨?_, hnodup, fun d' hd' => ?_⟩
  · refine h.config.later hget (fun _ h => h) (.refl k) (.of_same rfl) (fun d' hd' => ?_)
      fun _ => .rfl
    rcases mem_cons.1 hd' with rfl | hd'
    · exact .inr ⟨hd.registered, hd.ruleless, hd.untargeted⟩
    · exact .inl hd'
  · obtain ⟨hregistered, hruleless, hdeterminate, huntargeted⟩ := hfree d' hd'
    refine ⟨hregistered, hruleless, fun hmem => ?_, fun ht => huntargeted (ht.of_sub hget ?_)⟩
    · rcases mem_cons.1 hmem with rfl | hmem
      · exact hnot hd'
      · exact hdeterminate hmem
    · exact fun _ h => h

private theorem Clear.pose {ids : List Nat} {r : Request} {o : Obligation}
    {es : List (Equation × Slot)} (h : Clear strict ⟨s, k, ids ++ fresh⟩)
    (hr : r.obligation? = some (o, es)) (hunknowns : o.unknowns = ids.map .decl)
    (hrule : ∀ q, r = .rule q → fresh = [] ∧ ∀ id, q.rule.head = .decl id →
      id < k.nextSymbol ∧ id ∉ s.indeterminates)
    (hstrict : strict → ∀ q, r ≠ .rule q) : Clear strict ⟨s.posing o es, k, fresh⟩ := by
  obtain ⟨hids, hfresh, hdisjoint⟩ := nodup_append.1 h.nodup
  obtain ⟨hfree, hfree'⟩ := forall_mem_append.1 h.free
  refine ⟨h.config.posing hr hunknowns hids hfree (fun q hq => (hrule q hq).2) hstrict, hfresh,
    fun d hd => ?_⟩
  obtain ⟨hregistered, hruleless, hdeterminate, huntargeted⟩ := hfree' d hd
  refine ⟨hregistered, hruleless, ?_, fun ht => ?_⟩
  · rwa [Store.indeterminates_posing]
  · obtain hmem | ⟨q, hq, _⟩ | ht := ht.of_posing hr hunknowns
    · exact hdisjoint d hmem d hd rfl
    · rw [(hrule q hq).1] at hd
      cases hd
    · exact huntargeted ht

private theorem Clear.begin (h : Clear strict ⟨s, k, fresh⟩) :
    Config.Clear strict k.journal ⟨.idle, s, { k with journal := [] }⟩ := by
  refine h.config.later (fun ho => ho) awaits_kernel ⟨le_rfl, .refl _, fun _ h => h⟩
    (.of_same rfl) (fun _ hd => .inl hd) fun d => ?_
  simp [Config.Committed]

private theorem Act.clear (hact : Act strict st st') (hst : st.Good strict) (h : st.Clear strict) :
    st'.Clear strict := by
  cases hact with
  | calm hcalm _ =>
    exact h.kernel hcalm.extends.expands (.of_same hcalm.rules) hcalm.quiet
  | symbol =>
    exact h.kernel ⟨Nat.le_succ _, .refl _, fun _ h => h⟩ (.of_same rfl) (.refl _)
  | declare => exact h.declare
  | release => exact ⟨h.config, (nodup_cons.1 h.nodup).2, (forall_mem_cons.1 h.free).2⟩
  | extend _ hbound => exact h.kernel hbound.extends.expands hbound.adds hbound.extends.quiet
  | instantiate _ hinst => exact h.kernel hinst.extends.expands hinst.adds hinst.extends.quiet
  | indeterminate => exact h.indeterminate
  | pose hr hunknowns hrule hstrict =>
    exact h.pose hr hunknowns hrule fun hs => (hstrict hs).1
  | @run s s' k k' journal hrests hrecords =>
    have hend := Moves.clear hrests hst.ordered h.begin
    refine ⟨?_, nodup_nil, fun _ h => by cases h⟩
    refine hend.later (fun ho => ho) awaits_kernel ⟨le_rfl, .refl _, fun _ h => h⟩
      (.of_same rfl) (fun _ hd => .inl hd) fun d => ?_
    simp [Config.Committed, hrecords.mem_iff (e := .ruleCommitted d) rfl]
  | @close s s' k k' journal hrests hrecords =>
    have hend := Moves.clear hrests hst.ordered h.begin
    refine ⟨?_, nodup_nil, fun _ h => by cases h⟩
    refine hend.later (fun ho => by cases ho) ?_ ⟨le_rfl, .refl _, fun _ h => h⟩
      (.of_same rfl) (fun _ hd => by cases hd) fun d => ?_
    · rintro owner (⟨_, hphase⟩ | ⟨i, n, hn, _⟩)
      · cases hphase
      · cases hn
    · simp [Config.Committed, hrecords.mem_iff (e := .ruleCommitted d) rfl]

private theorem Acts.clear (hacts : Acts strict st st') (hst : st.Good strict)
    (h : st.Clear strict) :
    st'.Clear strict := by
  induction hacts with
  | refl => exact h
  | tail hacts hact ih => exact hact.clear (Acts.good hacts hst) ih

private theorem Halt.refused {e : Stop} (hhalt : Halt st e k') (hst : st.Good strict)
    (h : st.Clear strict) (he : e.ofTable) : ¬ strict ∧ Refused e k'.journal := by
  cases hhalt with
  | other hother => exact nomatch he.symm.trans hother
  | taken hid hrule =>
    obtain ⟨r, hr⟩ := isSome_iff_exists.1 hrule
    exact absurd hid (Nat.not_le_of_lt (h.config.made.ruled _ r hr))
  | store hstuck hrecords =>
    obtain ⟨hstrict, d, heq, hmem⟩ := hstuck.refused hst.ordered h.begin he
    refine ⟨hstrict, d, heq, (hrecords.mem_iff rfl).2 ?_⟩
    exact mem_append.1 hmem

end Stage

/-! ### Sessions -/

variable {strict : Prop} {start k : Kernel} {s : Session}

private theorem Kernel.Unused.clear (h : start.Unused strict) :
    Clear strict ⟨(Session.initial start).store, start, []⟩ where
  config := by
    have howes : ∀ {id d},
        ¬ Config.Owes ⟨.idle, (Session.initial start).store, start⟩ id d := by
      rintro id d (ho | ho | ho) <;> cases ho
    refine ⟨h.made, nofun, fun ho => absurd ho howes, fun ho => absurd ho howes,
      nofun, nofun, nofun,
      fun _ d hd => ?_⟩
    rw [Config.Committed, append_nil] at hd
    cases h.journal _ hd
  nodup := nodup_nil
  free _ hd := by cases hd

/-- Whatever clients asked of a session before, the table refuses a rule only for a declaration for
which a rule of a program was committed, as the journal tells; and nothing to programs without
rules. -/
theorem Session.Reached.refused_of_perform_eq_error (h : Reached strict start s k)
    (hstart : start.Unused strict) {e : Errand} (he : e.Fits strict k) {stop : Stop} {k' : Kernel}
    (hstop : e.perform s k = .error stop k') (htable : stop.ofTable) :
    ¬ strict ∧ StoreM.Refused stop k'.journal := by
  obtain ⟨hacts, hfits⟩ := h.acts hstart
  have hgood := Acts.good hacts hstart.good
  obtain ⟨st, hacts', hhalt⟩ := (e.ends_perform he hfits hgood).of_error hstop
  exact hhalt.refused (Acts.good hacts' hgood)
    (Acts.clear hacts' hgood (Acts.clear hacts hstart.good hstart.clear)) htable

/-- A local that stands for a pending cast is given a rule: `x : C z` for `z : N`, then `x := y`.
When `C` is constantly `N`, the cast is to define `x` as well. -/
def castGivenRule : Program where
  commands :=
    [.postulate 0 (.type 1), .postulate 2 (.var 3 0), .hole 4 (.typeFamily 5 (.var 6 0)),
      .define 7 (.var 8 1) (some (.app 9 (.var 10 2) (.var 11 1))),
      .declare 12 (.app 13 (.var 14 2) (.var 15 1)), .rule 16 (.var 17 3) [] 0 [] (.var 18 4),
      .forAll 19 (.var 20 0)
        [.check 21 (.app 22 (.var 23 2) (.var 24 5)) none (some (.var 25 0)) true]]
  value := .type 26

/-- The table refuses the definition, since the rule was committed for the same declaration. -/
theorem Session.refused_castGivenRule : ∃ k' d,
    (Errand.elaborate castGivenRule).perform (.initial Kernel.initial) Kernel.initial =
      .error (.violation (.headOwnsRule d)) k' ∧ .ruleCommitted d ∈ k'.journal := by
  have hrun : (match (Errand.elaborate castGivenRule).perform (.initial Kernel.initial)
      Kernel.initial with
    | .ok _ _ => false
    | .error e _ => decide (e = .violation (.headOwnsRule 16))) = true := by decide +kernel
  split at hrun
  · cases hrun
  · next e k' hperform =>
    obtain rfl := of_decide_eq_true hrun
    have hreached : Reached False Kernel.initial (.initial Kernel.initial) Kernel.initial :=
      .initial
    have hfits : (Errand.elaborate castGivenRule).Fits False Kernel.initial := False.elim
    obtain ⟨_, d, heq | heq, hmem⟩ :=
      hreached.refused_of_perform_eq_error Kernel.unused_initial hfits hperform rfl
    · cases heq
      exact ⟨k', 16, hperform, hmem⟩
    · cases heq

open Flexible Kernel Term

private theorem Kernel.of_ruleFor?_withRules {k : Kernel} {rules : List (Nat × Rule)} {id : Nat}
    {r : Rule} (h : (k.withRules rules).rules.ruleFor? id = some r) :
    (id, r) ∈ rules ∨ k.rules.ruleFor? id = some r := by
  induction rules generalizing k with
  | nil => exact .inr h
  | cons x rules ih =>
    rw [withRules_cons] at h
    obtain hmem | hr := ih h
    · exact .inl (mem_cons_of_mem _ hmem)
    · rw [withRule, ruleFor?_install] at hr
      split at hr
      · next heq =>
        cases hr
        exact .inl (heq ▸ mem_cons_self)
      · exact .inr hr

namespace Telescope

variable {tele tele' : Telescope} {type t : Term} {k' : Kernel} {p : Nat → Prop}

private theorem lt_of_mem_boundRules {n : Nat} (hpi : tele.pi.All (InScope (· < n) 0))
    (htype : type.All (InScope (· < n) tele.depth)) {x : Nat × Rule}
    (hx : x ∈ tele.boundRules type n) : ∀ id ∈ x.2.decls, id < x.1 := by
  have hpi : ∀ id ∈ tele.pi.decls, id < n := fun id hid => hpi.of_mem_decls hid
  have htype : ∀ id ∈ type.decls, id < n := fun id hid => htype.of_mem_decls hid
  have harrow : ∀ {domain codomain : Term} {id : Nat},
      id ∈ (Primitive.arrowOf domain codomain).decls → id ∈ domain.decls ∨ id ∈ codomain.decls :=
    fun hid => mem_append.1 hid
  simp only [boundRules, mem_cons, not_mem_nil, or_false] at hx
  obtain rfl | rfl | rfl | rfl | rfl := hx <;> intro id hid <;> rw [Rule.decls_lambda] at hid
  · exact htype id hid
  · cases hid
  · obtain hid | hid := harrow hid
    · exact (htype id hid).trans_le (Nat.le_add_right _ _)
    · cases mem_singleton.1 (mem_decls_apply_args.1 hid)
      exact Nat.lt_succ_self _
  · obtain hid | hid := harrow hid
    · cases mem_singleton.1 (mem_decls_apply_args.1 hid)
      exact Nat.lt_add_of_pos_right (Nat.zero_lt_succ _)
    · cases mem_decls_apply_args.1 hid
  · obtain hid | hid := mem_append.1 hid
    · exact (hpi id hid).trans_le (Nat.le_add_right _ _)
    · have hid : id ∈ [n + 3] := hid
      cases mem_singleton.1 hid
      exact Nat.lt_succ_self _

private theorem Bound.cyclesThrough (h : Bound tele type k tele' k')
    (hR : k.rules.Over (InScope (· < k.nextSymbol) 0))
    (hpi : tele.pi.All (InScope (· < k.nextSymbol) 0))
    (htype : type.All (InScope (· < k.nextSymbol) tele.depth))
    (hcycles : k.rules.CyclesThrough p) : k'.rules.CyclesThrough p := by
  have hextends := h.extends
  obtain ⟨names, rfl⟩ := h.kernel
  refine hcycles.of_made (n := k.nextSymbol) hextends.rules fun id r hr => ?_
  obtain hmem | hr := of_ruleFor?_withRules hr
  · exact .inr ⟨(fst_mem_of_mem_boundRules hmem).1, lt_of_mem_boundRules hpi htype hmem⟩
  · have hr : k.rules.ruleFor? id = some r := by simpa using hr
    exact .inl ⟨hr, fun b hb => (hR id r hr).of_mem_decls hb⟩

private theorem Instantiated.cyclesThrough (h : Instantiated tele type k t k')
    (hR : k.rules.Over (InScope (· < k.nextSymbol) 0))
    (htype : type.All (InScope (· < k.nextSymbol) tele.depth))
    (hcycles : k.rules.CyclesThrough p) : k'.rules.CyclesThrough p := by
  have hextends := h.extends
  obtain ⟨types, rfl⟩ := h.kernel
  refine hcycles.of_made (n := k.nextSymbol) hextends.rules fun id r hr => ?_
  rw [withRule, ruleFor?_install] at hr
  split at hr
  · next heq =>
    cases hr
    refine .inr ⟨heq.le, fun b hb => heq ▸ ?_⟩
    rw [Rule.decls_lambda] at hb
    exact htype.of_mem_decls hb
  · have hr : k.rules.ruleFor? id = some r := by simpa using hr
    exact .inl ⟨hr, fun b hb => (hR id r hr).of_mem_decls hb⟩

end Telescope

/-! ### Steps on equations -/

namespace Solver

variable {e : Equation} {lhs rhs : Term} {free left : Indeterminates} {k' : Kernel}
  {v : Verdict} {p : Nat → Prop}

private theorem cyclesThrough_defined {f : Flexible} {replacement : Term}
    (hfree : k.rules.ruleFor? f.id = none)
    (hindependent : ∀ id ∈ replacement.decls, k.rules.dependsOn (.decl id) f.id = false)
    (hcycles : k.rules.CyclesThrough p) : (defined k f replacement).rules.CyclesThrough p := by
  refine hcycles.install hfree fun id hid => hindependent id ?_
  rwa [Rule.decls_lambda] at hid

private theorem independent_imitated {f : Flexible} {rigid head : Term} (hmade : k.RulesMade)
    (hf : f.id < k.nextSymbol) (hhead : Imitates f rigid head)
    (hindependent : k.rules.dependsOn rigid f.id = false) {id : Nat}
    (hid : id ∈ (imitation k f rigid head).decls) :
    k.rules.dependsOn (.decl id) f.id = false := by
  obtain hid | ⟨x, hx, hid⟩ := mem_decls_apply.1 hid
  · obtain ⟨level, _, hslot⟩ | ⟨_, rfl⟩ := hhead
    · obtain ⟨j, _, rfl, _⟩ := slot?_eq_some hslot
      cases hid
    · exact dependsOn_decl_of_mem hindependent (mem_decls_of_head hid)
  · obtain ⟨u, hu, rfl⟩ := mem_map.1 hx
    obtain ⟨new, hnew, rfl⟩ := mem_map.1 hu
    cases mem_singleton.1 (mem_decls_apply_args.1 hid)
    have hle := (mem_range'_1.1 hnew).1
    refine dependsOn_decl_of_ruleless ?_ (hf.trans_le hle).ne'
    exact Option.eq_none_iff_forall_ne_some.2 fun r hr => Nat.not_le_of_lt (hmade id r hr) hle

section

variable (hR : k.rules.Over (InScope (· < k.nextSymbol) 0))
  (hpi : e.telescope.pi.All (InScope (· < k.nextSymbol) 0)) (hmade : k.RulesMade)
  (hindeterminates : ∀ id ∈ free, id < k.nextSymbol) (hcycles : k.rules.CyclesThrough p)
include hR hpi hmade hindeterminates hcycles

private theorem Decided.cyclesThrough (h : Decided e lhs rhs free k v left k') :
    k'.rules.CyclesThrough p := by
  cases h with
  | extracted _ _ _ _ hindependent hreplacement _ hfree =>
    refine cyclesThrough_defined hfree (fun id hid => ?_) hcycles
    refine dependsOn_decl_of_mem hindependent ?_
    rw [← subst_of_mapArgs? hreplacement]
    exact mem_decls_subst _ hid
  | deepened _ hbound =>
    have hle : ∀ {d a}, InScope (· < k.nextSymbol) d a → InScope (· < k.nextSymbol + 1) d a :=
      fun ha => ha.mono le_rfl fun _ => Nat.lt_succ_of_lt
    exact hbound.cyclesThrough (hR.mono fun _ => hle) (hpi.mono fun _ => hle)
      (Nat.lt_succ_self _) hcycles
  | symmetric | unmentionable | compared => exact hcycles
  | @imitated _ _ rigid' head _ f k1 _ fresh _ _ hf _ hfresh hk1 _ _ hhead hindependent _ hfree
      hreduced _ =>
    subst hfresh hk1
    have hrules : (withFresh k rigid'.args.length).rules.rules = k.rules.rules :=
      rules_registerAll _ _
    rw [hreduced.rules]
    refine cyclesThrough_defined ?_ (fun id hid => ?_) (hcycles.congr hrules)
    · rwa [ruleFor?, hrules]
    · rw [dependsOn, hrules]
      exact independent_imitated hmade (hindeterminates _ (of?_eq_some hf).2) hhead hindependent hid

private theorem Stepped.cyclesThrough (h : Stepped e free k v left k') :
    k'.rules.CyclesThrough p := by
  cases h with
  | vacuous => exact hcycles
  | decided hlhs hrhs hdecided =>
    obtain ⟨hsymbols, hrules, _⟩ := hlhs.toCalm.trans hrhs.toCalm
    refine hdecided.cyclesThrough ?_ ?_ ?_ ?_ (hrules ▸ hcycles)
    · rwa [hrules, hsymbols]
    · rwa [hsymbols]
    · rwa [RulesMade, hrules, hsymbols]
    · rwa [hsymbols]

end

end Solver

/-! ### Moves -/

namespace StoreM

/-- A cast, a function or an argument completed and defined the declaration. -/
def Completed (journal : List Event) (d : Nat) : Prop :=
  ∃ definiens, .castInstalled (.decl d) definiens ∈ journal

variable {c c' : Config} {earlier : List Event}

private theorem Completed.mono {journal journal' : List Event} {d : Nat} (h : Completed journal d)
    (hmem : ∀ definiens, .castInstalled (.decl d) definiens ∈ journal →
      .castInstalled (.decl d) definiens ∈ journal') : Completed journal' d := by
  obtain ⟨definiens, hdefiniens⟩ := h
  exact ⟨definiens, hmem definiens hdefiniens⟩

private theorem Resolved.mem_journal {owner : Owner} {out : Outcome} {s s' : Store}
    {k k' : Kernel}
    (h : Resolved owner out s k s' k') {e : Event} (he : e ∈ k.journal) : e ∈ k'.journal := by
  obtain ⟨new, hnew, _⟩ := h.concludes
  rw [hnew]
  exact mem_append_right _ he

private theorem Move.cyclesThrough (hmove : Move c c') (hc : c.Ordered)
    (hclear : c.Clear True earlier) (hscope : c.Scoped (· < c.kernel.nextSymbol))
    (h : c.kernel.rules.CyclesThrough (Completed (c.kernel.journal ++ earlier))) :
    c'.kernel.rules.CyclesThrough (Completed (c'.kernel.journal ++ earlier)) := by
  have hkept : (∀ e ∈ c.kernel.journal, e ∈ c'.kernel.journal) →
      c.kernel.rules.CyclesThrough (Completed (c'.kernel.journal ++ earlier)) := by
    intro hmem
    refine h.mono fun d hd => hd.mono fun _ hevent => ?_
    exact mem_append.2 ((mem_append.1 hevent).imp_left (hmem _))
  cases hmove.effect hc with
  | silent hs =>
    obtain hk | ⟨count, hk⟩ := hs.kernel
    · rwa [hk]
    · refine (hkept fun e he => ?_).congr (by rw [hk]; rfl)
      rw [hk]
      exact mem_cons_of_mem _ he
  | @step i n v k' hi hstep hk =>
    have hcycles := hkept fun e he => by
      obtain ⟨new, hjournal, _⟩ := hstep.extends.quiet
      rw [hk, noted, hjournal]
      exact mem_cons_of_mem _ (mem_append_right _ he)
    have hstepped := hstep.cyclesThrough hscope.store.kernel
      (hscope.store.equations hi).telescope.pi hclear.made.ruled
      (fun d hd => hclear.made.registered d (hclear.definable hd).1) hcycles
    exact hstepped.congr (by rw [hk]; rfl)
  | settle _ _ hr =>
    have hcycles := hkept fun e he => hr.mem_journal he
    cases hr.gives with
    | nothing hrules => exact hcycles.congr (by rw [hrules])
    | @definition _ _ _ _ definiens _ _ _ _ hfree hrules hinstalled =>
      rw [hrules]
      exact hcycles.install_through hfree ⟨definiens, mem_append_left _ hinstalled⟩
    | rule hp => exact absurd hp (hclear.ruleless trivial _ _)

private theorem Moves.cyclesThrough (hmoves : Moves c c') (hc : c.Ordered)
    (hclear : c.Clear True earlier) (hscope : c.Scoped (· < c.kernel.nextSymbol))
    (hprimitive : Primitive.count ≤ c.kernel.nextSymbol)
    (h : c.kernel.rules.CyclesThrough (Completed (c.kernel.journal ++ earlier))) :
    c'.kernel.rules.CyclesThrough (Completed (c'.kernel.journal ++ earlier)) := by
  induction hmoves with
  | refl => exact h
  | tail hmoves hmove ih =>
    exact hmove.cyclesThrough (Moves.ordered hmoves hc) (Moves.clear hmoves hc hclear)
      (Moves.scoped_made hmoves hscope hprimitive) ih

end StoreM

/-! ### Sessions -/

namespace Stage

variable {st st' : Stage}

private theorem Act.cyclesThrough (hact : Act True st st') (hst : st.Good True)
    (hclear : st.Clear True) (h : st.kernel.rules.CyclesThrough (Completed st.kernel.journal)) :
    st'.kernel.rules.CyclesThrough (Completed st'.kernel.journal) := by
  have hquiet : Quiet st.kernel.journal st'.kernel.journal →
      st.kernel.rules.CyclesThrough (Completed st'.kernel.journal) :=
    fun hquiet => h.mono fun d hd => hd.mono fun _ => (hquiet.mem_iff rfl).2
  have hrun : ∀ {s s' k k'}, st = ⟨s, k, []⟩ → Rests ⟨.idle, s, { k with journal := [] }⟩ s' k' →
      k'.rules.CyclesThrough (Completed (k'.journal ++ k.journal)) := by
    rintro s s' k k' rfl hrests
    exact Moves.cyclesThrough hrests hst.ordered hclear.begin (hst.inScope trivial).begin
      hst.primitives h
  have hscope := hst.inScope trivial
  cases hact with
  | calm hcalm _ => exact (hquiet hcalm.quiet).congr (congrArg RuleTable.rules hcalm.rules)
  | symbol | release | indeterminate | pose => exact h
  | declare => exact h.congr (rules_register _ _)
  | extend hterms hbound =>
    obtain ⟨hvalid, htype⟩ := hterms trivial
    exact hbound.cyclesThrough hscope.kernel hvalid.pi htype (hquiet hbound.extends.quiet)
  | instantiate hterms hinst =>
    exact hinst.cyclesThrough hscope.kernel (hterms trivial).2 (hquiet hinst.extends.quiet)
  | run hrests hrecords =>
    refine (hrun rfl hrests).mono fun d hd => hd.mono fun _ hevent => ?_
    exact (hrecords.mem_iff rfl).2 (mem_append.1 hevent)
  | close hrests hrecords =>
    refine (hrun rfl hrests).mono fun d hd => hd.mono fun _ hevent => ?_
    refine (hrecords.mem_iff rfl).2 ((mem_append.1 hevent).imp_left ?_)
    exact mem_cons_of_mem _

private theorem Acts.cyclesThrough (hacts : Acts True st st') (hst : st.Good True)
    (hclear : st.Clear True) (h : st.kernel.rules.CyclesThrough (Completed st.kernel.journal)) :
    st'.kernel.rules.CyclesThrough (Completed st'.kernel.journal) := by
  induction hacts with
  | refl => exact h
  | tail hacts hact ih =>
    exact hact.cyclesThrough (Acts.good hacts hst) (Acts.clear hacts hst hclear) ih

end Stage

private theorem Kernel.acyclic_initial : initial.rules.Acyclic := by
  have hrules := Table.forall_get? (t := initial.rules.rules)
    (P := fun id r => ∀ t ∈ r.terms, ¬ initial.rules.dependsOn t id) (by decide +kernel)
  rintro id ⟨r, hr, t, ht, hdepends⟩
  exact hrules id r hr t ht hdepends

/-- Whatever clients ask of a session with programs in scope and without rules, a definition is
circular only through an unknown that a completed cast, function or argument defined. -/
theorem Session.Reached.cyclesThrough_completed {start k : Kernel} {s : Session}
    (h : Reached True start s k) (hstart : start.Unused True) (hacyclic : start.rules.Acyclic) :
    k.rules.CyclesThrough (StoreM.Completed k.journal) :=
  Stage.Acts.cyclesThrough (h.acts hstart).1 hstart.good hstart.clear hacyclic.cyclesThrough

/-- The hole `h : N` is cast to `x : C z`, and `x` to `y : N`, both pending when `h` is defined as
`y`. When `C` is constantly `N`, they complete. -/
def circularCasts : Program where
  commands :=
    [.postulate 0 (.type 1), .postulate 2 (.var 3 0),
      .hole 4 (.typeFamily 5 (.var 6 0)), .hole 7 (.var 8 0),
      .define 9 (.var 10 3) (some (.app 11 (.var 12 2) (.var 13 1))),
      .define 14 (.var 15 4) (some (.var 16 0)),
      .check 17 (.var 18 3) none (some (.var 19 5)) true,
      .forAll 20 (.var 21 0)
        [.check 22 (.app 23 (.var 24 2) (.var 25 6)) none (some (.var 26 0)) true]]
  value := .type 27

/-- A declaration depends on itself afterwards, through one that a cast defined. -/
theorem Session.cyclesThrough_circularCasts : ∃ s k d,
    (Errand.elaborate circularCasts).perform (.initial Kernel.initial) Kernel.initial =
      .ok ((), s) k ∧ k.rules.SelfDependent 16 ∧ StoreM.Completed k.journal d ∧
      k.rules.dependsOn (.decl 16) d = true ∧ k.rules.dependsOn (.decl d) 16 = true := by
  obtain ⟨⟨⟨⟩, s⟩, k, hperform, hself⟩ :
      ∃ x k, (Errand.elaborate circularCasts).perform (.initial Kernel.initial) Kernel.initial =
        .ok x k ∧ ∃ r, k.rules.ruleFor? 16 = some r ∧ ∃ t ∈ r.terms, k.rules.dependsOn t 16 := by
    decide +kernel
  have hfits : (Errand.elaborate circularCasts).Fits True Kernel.initial := fun _ => by decide
  have hreached : Reached True Kernel.initial s k := .perform _ .initial hfits hperform
  obtain ⟨d, hcompleted, hto, hfrom⟩ :=
    hreached.cyclesThrough_completed unused_initial acyclic_initial 16 hself
  exact ⟨s, k, d, hperform, hself, hcompleted, hto, hfrom⟩

end Elaboration
