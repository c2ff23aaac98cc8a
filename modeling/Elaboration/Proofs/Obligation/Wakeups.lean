import Elaboration.Proofs.Equation.Stall
import Elaboration.Proofs.Obligation.Scoped

/-!
# No wake-up is missed

A stalled equation waits until rules are installed, which the store finds out from their count.
Whenever the store has looked at all equations that were ready, the ones that stalled would stall
again.
-/

namespace Elaboration

open EndsWith Kernel List Solver StoreM

/-! ### Equations without assumptions -/

namespace Store

variable {s : Store} {k k' : Kernel} {i : Nat} {n : Node}

/-- All equations of the store are below telescopes without assumptions, those that it will pose
included. -/
structure AssumesNothing (s : Store) (k : Kernel) : Prop where
  nodes : ∀ i n, s.nodes.get? i = some n → n.equation.telescope.AssumesNothing k
  arguments : ∀ id a, s.obligations.get? id = some (.application a) → a.telescope.AssumesNothing k

/-- The store knows all rules that may matter to stalled equations: unless rules were installed
since it woke them, they would stall again. -/
structure Attends (s : Store) (k : Kernel) : Prop where
  unassuming : s.AssumesNothing k
  generation : s.generation ≤ k.rules.generation
  stalls : s.generation = k.rules.generation → ∀ i n, s.nodes.get? i = some n →
    n.progress = .stalled → Solver.Stalls n.equation s.indeterminates k

private theorem AssumesNothing.advances (h : s.AssumesNothing k) (hk : k.Advances k') :
    s.AssumesNothing k' :=
  ⟨fun i n hn => (h.nodes i n hn).advances hk, fun id a ha => (h.arguments id a ha).advances hk⟩

section

variable (h : s.Attends k)
include h

private theorem Attends.advances (hk : k.Advances k') : s.Attends k' where
  unassuming := h.unassuming.advances hk
  generation := h.generation.trans hk.generation
  stalls hgeneration i n hn hstalled := by
    have hle := h.generation
    have hle' := hk.generation
    exact (h.stalls (by omega) i n hn hstalled).advances (h.unassuming.nodes i n hn) hk (by omega)

private theorem Attends.changes {s' : Store} (hgeneration : s'.generation = s.generation)
    (hindeterminates : s'.indeterminates = s.indeterminates)
    (hnodes : ∀ i n', s'.nodes.get? i = some n' → (∃ n, s.nodes.get? i = some n ∧ n.Left n' ∧
      (n'.progress = .stalled → n.progress = .stalled)) ∨ n'.progress ≠ .stalled ∧
        n'.equation.telescope.AssumesNothing k)
    (hobligations : ∀ id a, s'.obligations.get? id = some (.application a) →
      s.obligations.get? id = some (.application a) ∨ a.telescope.AssumesNothing k) :
    s'.Attends k where
  unassuming := by
    refine ⟨fun i n' hn' => ?_, fun id a ha => ?_⟩
    · obtain ⟨n, hn, ⟨_, _, may, _, hequation⟩, _⟩ | ⟨_, hnothing⟩ := hnodes i n' hn'
      · rw [hequation]
        exact h.unassuming.nodes i n hn
      · exact hnothing
    · exact (hobligations id a ha).elim (h.unassuming.arguments id a) fun hnothing => hnothing
  generation := hgeneration ▸ h.generation
  stalls heq i n' hn' hstalled := by
    obtain ⟨n, hn, ⟨_, _, may, hmay, hequation⟩, hprogress⟩ | ⟨hne, _⟩ := hnodes i n' hn'
    · have hstalls := h.stalls (hgeneration ▸ heq) i n hn (hprogress hstalled)
      rw [hequation, hindeterminates]
      exact hstalls.muted (h.unassuming.nodes i n hn) hmay
    · exact absurd hstalled hne

private theorem Attends.settles {s' : Store} (hgeneration : s'.generation = s.generation)
    (hindeterminates : s'.indeterminates = s.indeterminates) (hnodes : Settles s.nodes s'.nodes)
    (hobligations : s'.obligations = s.obligations) : s'.Attends k :=
  h.changes hgeneration hindeterminates (fun i n' hn' => .inl (hnodes i n' hn'))
    fun _ _ ha => .inl (hobligations ▸ ha)

private theorem Attends.woken (hqueued : Queued none (s.woken k.rules.generation)) :
    (s.woken k.rules.generation).Attends k := by
  obtain ⟨nodes, ready, heq⟩ := s.exists_woken_eq k.rules.generation
  refine ⟨⟨fun i n' hn' => ?_, fun id a ha => ?_⟩, ?_, fun _ i n hn hstalled => ?_⟩
  · obtain ⟨n, hn, ⟨_, _, _, _, hequation⟩, _⟩ := s.settles_woken _ i n' hn'
    rw [hequation]
    exact h.unassuming.nodes i n hn
  · rw [obligations_woken] at ha
    exact h.unassuming.arguments id a ha
  · have hgeneration : (s.woken k.rules.generation).generation = k.rules.generation := by rw [heq]
    exact hgeneration.le
  · have hcount := hqueued.stalled hn
    rw [if_pos hstalled, heq] at hcount
    cases hcount

private theorem Attends.stall (hi : s.nodes.get? i = some n)
    (hstalls : s.generation = k.rules.generation → ∀ m, s.nodes.get? i = some m →
      Stalls m.equation s.indeterminates k) :
    Attends { s with nodes := marked s.nodes i n .stalled, stalled := s.stalled ++ [i] } k where
  unassuming := by
    refine ⟨fun j m hm => ?_, h.unassuming.arguments⟩
    obtain ⟨m', hm', _, _, hequation, _⟩ := of_get?_marked hi hm
    rw [hequation]
    exact h.unassuming.nodes j m' hm'
  generation := h.generation
  stalls hgeneration j m hm hstalled := by
    obtain ⟨rfl, rfl⟩ | ⟨_, hm⟩ := eq_or_of_get?_marked hm
    · exact hstalls hgeneration n hi
    · exact h.stalls hgeneration j _ hm hstalled

private theorem Attends.decompose (hi : s.nodes.get? i = some n) {es : List Equation}
    (hes : ∀ e ∈ es, e.telescope.AssumesNothing k) : (s.decomposed i n es).Attends k := by
  rw [decomposed_update]
  refine h.changes rfl rfl (fun j m hm => ?_) fun id a ha => .inl ha
  · obtain ⟨rfl, rfl⟩ | ⟨_, _, _, e, he, rfl⟩ | ⟨_, hm⟩ := of_get?_decomposed hm
    · exact .inr ⟨nofun, h.unassuming.nodes _ n hi⟩
    · exact .inr ⟨nofun, hes e (mem_of_getElem? he)⟩
    · exact .inl ⟨m, hm, .refl m, id⟩

end

end Store

/-! ### Moves -/

namespace StoreM

variable {c c' : Config} {s s' : Store} {k k' : Kernel} {owner : Owner} {out : Outcome}

section Lasting

/-- The relation holds across every rule that is installed for an obligation. -/
def Admits (R : Kernel → Kernel → Prop) (s : Store) : Prop :=
  ∀ id p request, s.obligations.get? id = some (.rule p) → p.request = some request →
    ∀ k k0 head, R k (k.withRule head (requestedRule request k0))

variable {R : Kernel → Kernel → Prop} (hR : Lasting R)

include hR

theorem lasting_noted (k : Kernel) (e : Event) : R k (k.noted e) := hR.same rfl rfl rfl rfl

private theorem Installed.lasting {tele : Telescope} {unknown value : Term} {id : Nat}
    (h : Installed tele unknown value k k' id) : R k k' := by
  rw [h.kernel]
  exact hR.trans (lasting_noted hR k _) (hR.define _ _ _ _ _)

private theorem Committed.lasting {request : RuleRequest} {installed : Bool}
    (h : Committed request k installed k')
    (hrule : ∀ k k0 head, R k (k.withRule head (requestedRule request k0))) : R k k' := by
  cases h with
  | overtaken => exact lasting_noted hR k _
  | installed => exact hR.trans (lasting_noted hR k _) (hrule _ _ _)

private theorem Resolved.lasting (h : Resolved owner out s k s' k') (hs : Admits R s) :
    R k k' := by
  obtain ⟨_, rfl⟩ | ⟨_, _, _, _, _, _, _, _, _, hi, rfl⟩ | ⟨_, _, _, _, journal, _, hp, hrequest,
    hcommit, rfl⟩ :=
    h.develops
  · exact hR.same rfl rfl rfl rfl
  · exact hR.trans (lasting_noted hR k _) (hR.trans (hi.lasting hR) (hR.same rfl rfl rfl rfl))
  · have hbegin : R k { k with journal } := hR.same rfl rfl rfl rfl
    have hkept := hcommit.lasting hR (hs _ _ _ hp hrequest)
    exact hR.trans hbegin (hR.trans hkept (hR.same rfl rfl rfl rfl))

private theorem Move.lasting (h : Move c c') (hs : Admits R c.store) : R c.kernel c'.kernel := by
  cases h with
  | step _ _ _ _ hstep =>
    exact hR.trans ((abides_step hR _ _ _).of_ok hstep) (lasting_noted hR _ _)
  | wake =>
    dsimp only
    split
    · exact lasting_noted hR _ _
    · exact hR.refl _
  | settle hr => exact hr.lasting hR hs
  | _ => exact hR.refl _

theorem Moves.lasting (h : Moves c c') (hs : ∀ m, Moves c m → Admits R m.store) :
    R c.kernel c'.kernel := by
  induction h with
  | refl => exact hR.refl _
  | tail hmoves hmove ih => exact hR.trans ih (hmove.lasting hR (hs _ hmoves))

end Lasting

private theorem admits_advances (s : Store) : Admits Advances s :=
  fun _ _ _ _ _ k _ head => k.advances_withRule head _

private theorem advances_noted (k : Kernel) (e : Event) : k.Advances (k.noted e) :=
  lasting_noted lasting_advances k e

private theorem Resolved.attends (h : Resolved owner out s k s' k') (hs : s.Attends k) :
    s'.Attends k' := by
  have hold := hs.advances (h.lasting lasting_advances (admits_advances s))
  refine hold.changes h.generation h.indeterminates (fun i n' hn' => ?_) fun id a ha => ?_
  · obtain hmutes | ⟨a, ha, _, _, hnodes⟩ := h.nodes
    · exact .inl (hmutes.settles i n' hn')
    · rw [hnodes, Store.withNode, Table.get?_set] at hn'
      split at hn'
      · cases hn'
        exact .inr ⟨fun h => (by cases h), hold.unassuming.arguments _ a ha⟩
      · exact .inl ⟨n', hn', .refl n', id⟩
  · obtain ⟨_, ha⟩ | ⟨_, ⟨_, _, ha, _⟩ | ⟨_, _, ⟨⟩, _⟩⟩ := h.of_get? ha <;> exact .inl ha

/-- The store attends to the rules, and so does what it is about to do with a verdict. -/
structure Config.Attends (c : Config) : Prop where
  store : c.store.Attends c.kernel
  stalls : ∀ i, c.phase = .acting i .stalled → c.store.generation = c.kernel.rules.generation →
    ∀ n, c.store.nodes.get? i = some n → Solver.Stalls n.equation c.store.indeterminates c.kernel
  derives : ∀ i es, c.phase = .acting i (.derived es) →
    ∀ e ∈ es, e.telescope.AssumesNothing c.kernel

private theorem attends_of_ne {phase : Phase} (h : s.Attends k)
    (hphase : ∀ i v, phase ≠ .acting i v) :
    Config.Attends ⟨phase, s, k⟩ :=
  ⟨h, fun i hi => absurd hi (hphase i _), fun i _ hi => absurd hi (hphase i _)⟩

private theorem attends_step {i : Nat} {rest : List Nat} {n : Node} {v : Verdict}
    {left : Indeterminates} (hs : s.Attends k) (hn : s.nodes.get? i = some n)
    (hstep : step n.equation s.indeterminates k = .ok (v, left) k') :
    Config.Attends
      ⟨.acting i v, { s with ready := rest, indeterminates := left }, k'.noted (.stepped i v)⟩ := by
  have hnothing := hs.unassuming.nodes i n hn
  have hadvances : k.Advances (k'.noted (.stepped i v)) :=
    lasting_advances.trans
      ((abides_step lasting_advances n.equation s.indeterminates k).of_ok hstep)
      (advances_noted _ _)
  have hle : k.rules.generation ≤ k'.rules.generation := hadvances.generation
  have hold := hs.advances hadvances
  -- while no rule is installed, the same declarations may be defined
  have hleft : s.generation = k'.rules.generation → left = s.indeterminates := by
    intro hgeneration
    have hle' := hs.generation
    refine (generation_lt_or_eq hnothing hstep).resolve_left fun hlt => ?_
    omega
  refine ⟨⟨⟨hold.unassuming.nodes, hold.unassuming.arguments⟩, hold.generation, ?_⟩, ?_, ?_⟩
  · intro hgeneration j m hm hstalled
    rw [show left = s.indeterminates from hleft hgeneration]
    exact hold.stalls hgeneration j m hm hstalled
  · rintro j hj - m hm
    cases hj
    cases hn.symm.trans hm
    obtain ⟨hstalls, rfl, rfl⟩ := stalls_of_step hnothing hstep
    exact hstalls.advances hnothing (advances_noted _ _) rfl
  · rintro j es hj
    cases hj
    exact fun e he =>
      (assumesNothing_of_derived hnothing hstep e he).advances (advances_noted _ _)

private theorem Move.attends (h : Move c c') (hc : c.Ordered) (ha : c.Attends) : c'.Attends := by
  have hordered := h.ordered hc
  have hs := ha.store
  obtain hmarks | hturn := h.marks_or_turn
  · obtain ⟨phase, s', k⟩ := c'
    cases hmarks.kernel
    exact attends_of_ne (hs.settles hmarks.generation hmarks.indeterminates hmarks.nodes
      hmarks.obligations) hmarks.acting
  cases hturn with
  | step hn _ hstep => exact attends_step hs hn hstep
  | wake =>
    refine attends_of_ne ?_ fun _ _ => nofun
    have hwoken := hs.woken hordered.queued
    split
    · exact hwoken.advances (advances_noted _ _)
    · exact hwoken
  | stall hi => exact attends_of_ne (hs.stall hi (ha.stalls _ rfl)) fun _ _ => nofun
  | derive hi hs' hn' =>
    rw [decomposed_eq (hc.1.queued.fresh _ _ hi) hs' hn']
    exact attends_of_ne (hs.decompose hi (ha.derives _ _ rfl)) fun _ _ => nofun
  | settle hr => exact attends_of_ne (hr.attends hs) fun _ _ => nofun

private theorem Moves.attends (h : Moves c c') (hc : c.Ordered) (ha : c.Attends) : c'.Attends := by
  induction h with
  | refl => exact ha
  | tail hmoves hmove ih => exact hmove.attends (Moves.ordered hmoves hc) ih

end StoreM

/-! ### Requests -/

namespace Store

/-- A declaration may be registered before any equation or rule mentions it, or again: while it is
registered, or once it is defined. -/
inductive Registrable (s : Store) (k : Kernel) (id : Nat) : Prop where
  | unmentioned :
    (∀ i n, s.nodes.get? i = some n → id ∉ n.equation.lhs.decls ∧ id ∉ n.equation.rhs.decls) →
    (∀ j r, k.rules.ruleFor? j = some r → id ∉ r.decls) → Registrable s k id
  | registered : id ∈ s.indeterminates → Registrable s k id
  | defined {arity : Nat} {t : Term} : k.rules.ruleFor? id = some (.lambda (.decl id) arity t) →
    Registrable s k id

end Store

namespace Request

/-- The telescope of what a request poses. -/
def telescope? : Request → Option Telescope
  | equation e => some e.telescope
  | cast c => some c.telescope
  | application a => some a.telescope
  | rule r => some r.telescope
  | _ => none

/-- Nothing is assumed, and declarations are registered in time. -/
structure Timely (r : Request) (s : Store) (k : Kernel) : Prop where
  unassuming : ∀ tele, r.telescope? = some tele → tele.AssumesNothing k
  registrable : ∀ id, r = .indeterminate (.decl id) → s.Registrable k id

end Request

namespace Store

/-- The stores and kernels that are reached by timely requests, while others use the kernel in
between and may install rules. -/
inductive Frequented : Store → Kernel → Prop where
  | initial (k : Kernel) : Frequented (initial k) k
  | advance {s : Store} {k k' : Kernel} : Frequented s k → k.Advances k' → Frequented s k'
  | perform {s s' : Store} {k k' : Kernel} (r : Request) : Frequented s k → r.Timely s k →
    r.perform s k = .ok ((), s') k' → Frequented s' k'

variable {s s' : Store} {k k' : Kernel}

private theorem Frequented.reachable (h : Frequented s k) : Reachable s := by
  induction h with
  | initial k => exact .initial k
  | advance _ _ ih => exact ih
  | perform r _ _ hr ih => exact .perform r ih hr

private theorem Attends.posing (h : s.Attends k) {o : Obligation} {es : List (Equation × Slot)}
    (hes : ∀ x ∈ es, x.1.telescope.AssumesNothing k)
    (ho : ∀ a, o = .application a → a.telescope.AssumesNothing k) : (s.posing o es).Attends k := by
  rw [Store.posing, withAll_eq]
  refine h.changes rfl rfl (fun i n hn => ?_) fun id a ha => ?_
  · obtain hn | ⟨_, _, x, hx, rfl⟩ := of_get?_withAll (s := s.withPosed o) hn
    · exact .inl ⟨n, hn, .refl n, id⟩
    · obtain ⟨y, hy, rfl⟩ := mem_map.1 (mem_of_getElem? hx)
      exact .inr ⟨by simp, hes y hy⟩
  · rw [withPosed, Table.get?_set] at ha
    split at ha
    · cases ha
      exact .inr (ho a rfl)
    · exact .inl ha

private theorem Attends.register (h : s.Attends k) {id : Nat} (hid : s.Registrable k id) :
    Attends { s with indeterminates :=
      if id ∈ s.indeterminates then s.indeterminates else id :: s.indeterminates } k := by
  split
  · exact ⟨⟨h.unassuming.nodes, h.unassuming.arguments⟩, h.generation, h.stalls⟩
  · next hnew =>
    refine ⟨⟨h.unassuming.nodes, h.unassuming.arguments⟩, h.generation, ?_⟩
    intro hgeneration i n hn hstalled
    have hstalls := h.stalls hgeneration i n hn hstalled
    have hnothing := h.unassuming.nodes i n hn
    cases hid with
    | unmentioned hnodes hrules =>
      exact hstalls.allowing_unmentioned hnothing (hnodes i n hn).1 (hnodes i n hn).2 hrules
    | registered hold => exact absurd hold hnew
    | defined hr => exact hstalls.allowing_defined hnothing hr

private theorem Attends.perform (h : s.Attends k) (hs : s.WellFormed none none none) {r : Request}
    (hr : r.Timely s k) (hperform : r.perform s k = .ok ((), s') k') : s'.Attends k' := by
  have hidle : Config.Ordered ⟨.idle, s, k⟩ := hs
  have hattends : Config.Attends ⟨.idle, s, k⟩ := ⟨h, fun _ => nofun, fun _ _ => nofun⟩
  have hpose : ∀ {o es}, r.obligation? = some (o, es) →
      (∀ x ∈ es, x.1.telescope.AssumesNothing k) →
      (∀ a, o = .application a → a.telescope.AssumesNothing k) → s'.Attends k' := by
    intro o es ho hes happlication
    have hends : EndsWith r.perform s k (fun _ s' k' => s' = s.posing o es ∧ k' = k)
        fun _ _ => False := (ends_pose ho).2 ⟨rfl, rfl⟩
    obtain ⟨rfl, rfl⟩ := hends.of_ok hperform
    exact h.posing hes happlication
  cases r with
  | equation e =>
    exact hpose rfl (forall_mem_singleton.2 (hr.unassuming _ rfl)) nofun
  | cast c =>
    exact hpose rfl (forall_mem_singleton.2 (hr.unassuming _ rfl)) nofun
  | application a =>
    have ha := hr.unassuming _ rfl
    refine hpose rfl (forall_mem_singleton.2 ha) fun a' heq => ?_
    cases heq
    exact ha
  | rule q =>
    refine hpose rfl (fun x hx => ?_) nofun
    obtain ⟨c, _, heq⟩ := exists_of_mem_conditions hx
    rw [heq]
    exact hr.unassuming _ rfl
  | indeterminate t =>
    obtain ⟨rfl, id, rfl, rfl⟩ := (ends_registerIndeterminate t s k).of_ok hperform
    exact h.register (hr.registrable id rfl)
  | run =>
    have hrests := (ends_run s k).of_ok hperform
    exact (Moves.attends hrests hidle hattends).store
  | close =>
    obtain ⟨s1, k1, hrests, rfl, rfl⟩ := (ends_close hs.keys hs.queued.fresh).of_ok hperform
    have hclosing := (Moves.attends hrests hidle hattends).store
    exact ⟨⟨nofun, nofun⟩, hclosing.generation, nofun⟩

private theorem Frequented.attends (h : Frequented s k) : s.Attends k := by
  induction h with
  | initial k =>
    exact ⟨⟨nofun, nofun⟩, le_rfl, nofun⟩
  | advance _ hk ih => exact ih.advances hk
  | perform r h hr hperform ih => exact ih.perform h.reachable.wellFormed hr hperform

end Store

/-! ### Runs -/

namespace StoreM

variable {s s' : Store} {k k' : Kernel}

private theorem ends_wakeIfRulesChanged_generation (s : Store) (k : Kernel) :
    EndsWith wakeIfRulesChanged s k
      (fun _ s' k' => s'.generation = k'.rules.generation) fun _ _ => False := by
  obtain ⟨nodes, ready, heq⟩ := s.exists_woken_eq k.rules.generation
  have hgeneration : (s.woken k.rules.generation).generation = k.rules.generation := by rw [heq]
  unfold wakeIfRulesChanged
  rw [bind_iff, getThe_iff, bind_iff, get_iff]
  split
  · next hsame => exact hsame.symm
  · split <;> exact hgeneration

private theorem ends_runTo_ready (bound : Nat) (s : Store) (k : Kernel) : EndsWith (runTo bound) s k
      (fun _ s' k' => s'.ready = [] ∧ s'.generation = k'.rules.generation) fun _ _ => True := by
  induction bound generalizing s k with
  | zero => trivial
  | succ bound ih =>
    unfold runTo
    rw [bind_iff, get_iff]
    split
    · next i rest hready =>
      rw [bind_iff, modify_iff]
      refine bind (ends_process hready) (fun _ s1 k1 _ => ?_) fun _ _ _ => trivial
      rw [bind_iff]
      exact (ends_wakeIfRulesChanged_generation s1 k1).answer (fun _ s2 k2 _ => ih s2 k2)
    · rw [bind_iff]
      refine (ends_wakeIfRulesChanged_generation s k).answer (fun _ s1 k1 h1 => ?_)
      rw [bind_iff, get_iff]
      split
      · next hready => exact ⟨isEmpty_iff.1 hready, h1⟩
      · exact ih s1 k1

private theorem ready_of_run (hrun : run s k = .ok ((), s') k') :
    s'.ready = [] ∧ s'.generation = k'.rules.generation ∧ k'.limit ≠ 0 := by
  have hto : runTo k.limit s k = .ok ((), s') k' := hrun
  obtain ⟨hready, hgeneration⟩ := (ends_runTo_ready k.limit s k).of_ok hto
  have hlimit : k'.limit = k.limit :=
    (Moves.lasting lasting_advances ((ends_run s k).of_ok hrun) fun m _ =>
      admits_advances m.store).limit
  refine ⟨hready, hgeneration, fun hzero => ?_⟩
  rw [← hlimit, hzero] at hto
  cases hto

private theorem run_eq_of_ready (hlimit : k.limit ≠ 0) (hready : s.ready = [])
    (hgeneration : s.generation = k.rules.generation) : run s k = .ok ((), s) k := by
  obtain ⟨bound, hbound⟩ := Nat.exists_eq_succ_of_ne_zero hlimit
  have hends : EndsWith run s k (fun _ s' k' => () = () ∧ s' = s ∧ k' = k) fun _ _ => False := by
    unfold run
    rw [bind_iff, getThe_iff, hbound]
    unfold runTo
    rw [bind_iff, get_iff, hready]
    dsimp only
    unfold wakeIfRulesChanged
    rw [bind_iff, bind_iff, getThe_iff, bind_iff,
      get_iff, if_pos hgeneration.symm, pure_iff, bind_iff,
      get_iff, hready]
    exact ⟨rfl, rfl, rfl⟩
  exact hends.eq_ok

end StoreM

/-- Whenever a run ends, nothing is ready, the equations that stalled would stall again, and another
run changes nothing. -/
theorem Store.Frequented.stalls_of_run {s s' : Store} {k k' : Kernel} (h : Frequented s k)
    (hrun : StoreM.run s k = .ok ((), s') k') :
    s'.ready = [] ∧
      (∀ i n, s'.nodes.get? i = some n → n.progress = .stalled →
        Solver.step n.equation s'.indeterminates k' = .ok (.stalled, s'.indeterminates) k') ∧
      StoreM.run s' k' = .ok ((), s') k' := by
  have hs := h.reachable.wellFormed
  have hattends : s'.Attends k' := by
    refine h.attends.perform hs (r := .run) ⟨fun _ ht => ?_, fun _ hr => ?_⟩ hrun
    · cases ht
    · cases hr
  obtain ⟨hready, hgeneration, hlimit⟩ := ready_of_run hrun
  exact ⟨hready, hattends.stalls hgeneration, run_eq_of_ready hlimit hready hgeneration⟩

/-! ### An equation that is woken and stalls again -/

namespace Store

/-- The equation of two unknowns that may not be defined. -/
def waitingEquation : Equation where
  lhs := .decl 10
  rhs := .decl 11
  telescope := ⟨[], Primitive.type, Primitive.identity, 0⟩
  deduce := true

/-- The store in which that equation is posed. -/
def waitingStore : Store := (initial twoUnknowns).posing .equation [(waitingEquation, .main)]

/-- The equation stalls, others define the first unknown, and the equation stalls again. -/
theorem stalls_of_run_waitingEquation :
    ∃ s k s' k' n, Frequented s k ∧ StoreM.run s k = .ok ((), s') k' ∧
      s'.nodes.get? 1 = some n ∧ n.progress = .stalled ∧ s'.ready = [] ∧
      Solver.step n.equation s'.indeterminates k' = .ok (.stalled, s'.indeterminates) k' ∧
      StoreM.run s' k' = .ok ((), s') k' := by
  have hposed : Frequented waitingStore twoUnknowns := by
    refine .perform (.equation waitingEquation) (.initial twoUnknowns) ⟨?_, nofun⟩ rfl
    rintro tele ⟨⟩
    rfl
  obtain ⟨⟨⟨⟩, s⟩, k, hrun, ⟨⟩, k1, hrule, ⟨⟨⟩, s'⟩, k', hrun', n, hn, hprogress⟩ :
      ∃ x k, StoreM.run waitingStore twoUnknowns = .ok x k ∧
      ∃ u k1, KernelM.addRule (.lambda (.decl 10) 0 Primitive.type) k = .ok u k1 ∧
      ∃ y k', StoreM.run x.2 k1 = .ok y k' ∧
      ∃ n, y.2.nodes.get? 1 = some n ∧ n.progress = .stalled := by decide +kernel
  have hs : Frequented s k := .perform .run hposed ⟨nofun, nofun⟩ hrun
  have hs1 : Frequented s k1 :=
    hs.advance ((KernelM.abides_define lasting_advances _ _ _ k).of_ok hrule)
  obtain ⟨hready, hstalls, hagain⟩ := hs1.stalls_of_run hrun'
  exact ⟨s, k1, s', k', n, hs1, hrun', hn, hprogress, hready, hstalls 1 n hn hprogress, hagain⟩

end Store
end Elaboration
