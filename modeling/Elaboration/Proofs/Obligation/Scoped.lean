import Elaboration.Proofs.Equation.Sound
import Elaboration.Proofs.Obligation.Contents

/-!
# Everything in the store is in scope

The equations of the store are valid and what obligations define is in scope, over symbols in a set
`known`; so the rules that are installed are closed.
-/

namespace Elaboration

open Equation Kernel RuleTable StoreM Term

variable {known known' : Nat → Prop} {k k' : Kernel}

private theorem Equation.Valid.mono {e : Equation} (h : e.Valid known k)
    (hknown : ∀ id, known id → known' id) : e.Valid known' k :=
  ⟨h.telescope.mono hknown,
    h.lhs.mono fun _ ha => ha.imp_left fun ha => ha.mono le_rfl hknown,
    h.rhs.mono fun _ ha => ha.imp_left fun ha => ha.mono le_rfl hknown⟩

/-! ### Obligations -/

/-- A term that is defined below a telescope. -/
structure Telescope.Defines (known : Nat → Prop) (k : Kernel) (tele : Telescope) (t : Term) :
    Prop where
  telescope : tele.Valid known k
  covers : tele.Covers known k t

/-- What an obligation defines, poses later and installs is in scope. -/
def Obligation.Scoped (known : Nat → Prop) (k : Kernel) : Obligation → Prop
  | .equation => True
  | .cast c => c.telescope.Defines known k c.source
  | .application a => a.telescope.Defines known k a.function ∧
    a.telescope.Defines known k a.argument ∧ (StoreM.argumentEquation a).Valid known k
  | .rule p => ∀ r, p.request = some r → r.rule.Over (Term.InScope known 0)

variable {tele : Telescope} {o : Obligation} {unknown value : Term} {request : RuleRequest}
  {installed : Bool}

private theorem Telescope.Defines.grows {t : Term} (h : tele.Defines known k t) (hg : k.Grows k')
    (hR : k'.rules.Over (InScope known 0)) : tele.Defines known k' t :=
  ⟨h.telescope.grows hg hR, h.telescope.covers hg hR h.covers⟩

private theorem Telescope.Defines.mono {t : Term} (h : tele.Defines known k t)
    (hknown : ∀ id, known id → known' id) : tele.Defines known' k t :=
  ⟨h.telescope.mono hknown, h.covers.mono fun _ ha => ha.imp_left fun ha => ha.mono le_rfl hknown⟩

private theorem Obligation.Scoped.grows (h : o.Scoped known k) (hg : k.Grows k')
    (hR : k'.rules.Over (InScope known 0)) : o.Scoped known k' := by
  cases o with
  | equation => trivial
  | cast c => exact Telescope.Defines.grows h hg hR
  | application a => exact ⟨h.1.grows hg hR, h.2.1.grows hg hR, h.2.2.grows hg hR⟩
  | rule p => exact h

private theorem Obligation.Scoped.mono (h : o.Scoped known k)
    (hknown : ∀ id, known id → known' id) :
    o.Scoped known' k := by
  cases o with
  | equation => trivial
  | cast c => exact Telescope.Defines.mono h hknown
  | application a => exact ⟨h.1.mono hknown, h.2.1.mono hknown, h.2.2.mono hknown⟩
  | rule p => exact fun r hr => (h r hr).mono fun _ ha => ha.mono le_rfl hknown

private theorem StoreM.Defines.scoped {slot : Slot} (h : Defines o slot tele unknown value)
    (ho : o.Scoped known k) : tele.Defines known k value := by
  cases h with
  | cast => exact ho
  | function => exact ho.1
  | argument => exact ho.2.1

/-! ### Installed rules -/

private theorem StoreM.Installed.over {id : Nat} (h : Installed tele unknown value k k' id)
    (ht : tele.Defines known k value) (hR : k.rules.Over (InScope known 0)) :
    k'.rules.Over (InScope known 0) := by
  have hall := ht.telescope.eliminated ht.covers
  rw [h.kernel]
  exact Over.install hR (Rule.over_lambda.2 (all_captureOr_iff.2 hall))

private theorem StoreM.Installed.grows {id : Nat} (h : Installed tele unknown value k k' id) :
    k.Grows k' := by
  rw [h.kernel]
  refine (k.grows_noted _).trans (Extends.grows (extends_withRule ?_) rfl)
  exact h.free

private theorem eliminatedStep_of_over {q : Equalities} {n : Nat} {steps : List Rule.Step}
    (h : Rule.StepsOver (InScope known 0) n steps) :
    steps.map (eliminatedStep q) = steps := by
  induction steps generalizing n with
  | nil => rfl
  | cons x steps ih =>
    cases x with
    | pull => rw [List.map_cons, ih h, eliminatedStep]
    | destructure subject head count =>
      have hsubject := Equalities.eliminate_of_all q (all_captureOr_iff.1 h.1.1)
        not_inScope_placeholder
      rw [List.map_cons, ih h.2, eliminatedStep, hsubject]

/-- A closed rule is installed as it is. -/
theorem StoreM.requestedRule_of_over (h : request.rule.Over (InScope known 0)) (k : Kernel) :
    requestedRule request k = request.rule := by
  have hreplacement := Equalities.eliminate_of_all (k.equalities request.telescope.context)
    (all_captureOr_iff.1 h.2) not_inScope_placeholder
  rw [requestedRule, eliminatedStep_of_over h.1, hreplacement]

private theorem StoreM.Committed.over (h : Committed request k installed k')
    (hr : request.rule.Over (InScope known 0)) (hR : k.rules.Over (InScope known 0)) :
    k'.rules.Over (InScope known 0) := by
  cases h with
  | overtaken => exact hR
  | installed =>
    rw [requestedRule_of_over hr]
    exact Over.install hR hr

private theorem StoreM.Committed.grows (h : Committed request k installed k') :
    k.Grows k' := by
  cases h with
  | overtaken => exact k.grows_noted _
  | installed _ _ hfree =>
    refine (k.grows_noted _).trans (Extends.grows (extends_withRule ?_) rfl)
    exact hfree

/-- Settling makes the kernel grow. -/
theorem StoreM.Resolved.grows {owner : Owner} {out : Outcome} {s s' : Store}
    (h : Resolved owner out s k s' k') : k.Grows k' := by
  obtain ⟨_, rfl⟩ | ⟨_, _, _, _, _, _, _, _, _, hi, rfl⟩ | ⟨_, _, _, _, journal, _, _, _,
    hcommit, rfl⟩ :=
    h.develops
  · exact k.grows_journal _
  · exact (k.grows_noted _).trans (hi.grows.trans (grows_journal _ _))
  · exact (k.grows_journal journal).trans (hcommit.grows.trans (grows_journal _ _))

/-- Every move makes the kernel grow. -/
theorem StoreM.Move.grows {c c' : Config} (h : Move c c') :
    c.kernel.Grows c'.kernel := by
  cases h with
  | step _ _ _ hs => exact hs.grows.trans (grows_noted _ _)
  | wake =>
    dsimp only
    split
    · exact grows_noted _ _
    · exact .refl _
  | settle hr => exact hr.grows
  | _ => exact .refl _

/-! ### The store -/

private theorem Equation.Valid.muted {e : Equation} (h : e.Valid known k) (deduce : Bool) :
    Valid known k { e with deduce } :=
  ⟨h.telescope, h.lhs, h.rhs⟩

/-- Equations are valid and obligations in scope, over symbols in `known`. -/
def scope (known : Nat → Prop) : Contents where
  Holds k := k.rules.Over (Term.InScope known 0)
  Leads := Kernel.Grows
  Equates e k := e.Valid known k
  Owes o k := o.Scoped known k
  Stops _ := True
  Allows n := (∀ id < Primitive.count, known id) ∧ ∀ id < n, known id
  refl := .refl
  trans := .trans
  recorded _ hR := ⟨hR, Kernel.grows_journal _ _⟩
  equates_later hR hg h := h.grows hg hR
  owes_later hR hg h := h.grows hg hR
  muted deduce h := h.muted deduce
  argument h := h.2.2
  condition h hq r hr := h r (hq r hr)
  defines hR ho hd hi := ⟨hi.over (hd.scoped ho) hR, hi.grows⟩
  commits hR ho hp hcommit := ⟨hcommit.over (ho _ hp) hR, hcommit.grows⟩
  step hR he hallows hstep _ := by
    obtain ⟨hR', _, hvalid⟩ := hstep.sound hallows.1 hR he fun id _ hid => hallows.2 id hid
    exact ⟨hR', hstep.grows, fun es hes => (hvalid es hes).1⟩
  stops _ := trivial
  step_stops _ _ _ := trivial

/-- Everything in the store is in scope. -/
abbrev Store.Scoped (known : Nat → Prop) (s : Store) (k : Kernel) : Prop := (scope known).Within s k

theorem Store.Scoped.mono {s : Store} (h : s.Scoped known k) (hknown : ∀ id, known id → known' id) :
    s.Scoped known' k :=
  ⟨Over.mono h.kernel fun _ ha => ha.mono le_rfl hknown,
    fun hi => Valid.mono (h.equations hi) hknown,
    fun ho => Obligation.Scoped.mono (h.obligations ho) hknown⟩

namespace StoreM

variable {c c' : Config}

/-- Everything in the store is in scope, and so are equations that were just derived. -/
abbrev Config.Scoped (known : Nat → Prop) (c : Config) : Prop := (scope known).Covers c

/-- Moves make the kernel grow. -/
theorem Moves.grows (h : Moves c c') : c.kernel.Grows c'.kernel := by
  induction h with
  | refl => exact .refl _
  | tail _ hmove ih => exact ih.trans hmove.grows

private theorem Moves.scoped (h : Moves c c') (hc : c.Scoped known)
    (hprimitive : ∀ id < Primitive.count, known id)
    (hmade : ∀ id < c'.kernel.nextSymbol, known id) : c'.Scoped known := by
  induction h with
  | refl => exact hc
  | tail _ hmove ih =>
    have hsymbols := hmove.grows.symbols
    have hc' := ih fun id hid => hmade id (hid.trans_le hsymbols)
    exact (hc'.move hmove ⟨hprimitive, hmade⟩).1

/-- What is in scope over the symbols made so far stays so. -/
theorem Moves.scoped_made (h : Moves c c')
    (hc : c.Scoped (· < c.kernel.nextSymbol)) (hprimitive : Primitive.count ≤ c.kernel.nextSymbol) :
    c'.Scoped (· < c'.kernel.nextSymbol) := by
  have hle : ∀ id < c.kernel.nextSymbol, id < c'.kernel.nextSymbol :=
    fun id hid => hid.trans_le (Moves.grows h).symbols
  refine Moves.scoped h ⟨Store.Scoped.mono hc.store hle, fun i es hes e he => ?_⟩
    (fun id hid => hle id (hid.trans_le hprimitive)) fun _ hid => hid
  exact Valid.mono (hc.derived i es hes e he) hle

end StoreM

open Store

namespace Store

variable {nodes nodes' : Table Node} {i : Nat} {owner : Owner}

/-- Posing leaves the indeterminates. -/
theorem indeterminates_posing (s : Store) (o : Obligation) (es : List (Equation × Slot)) :
    (s.posing o es).indeterminates = s.indeterminates := by
  rw [posing, withAll_eq]
  rfl

private theorem Inherits.rooted (h : Inherits nodes nodes') (hi : Rooted nodes' i owner) :
    Rooted nodes i owner := by
  obtain ⟨n', hn', hroot⟩ := hi
  obtain ⟨n, hn, hparent, _⟩ := h i n' hn'
  exact ⟨n, hn, hparent ▸ hroot⟩

end Store

namespace StoreM

/-- The part of an obligation waits for its root to end, or is being settled. -/
def Config.Awaits (c : Config) (owner : Owner) : Prop :=
  (∃ out, c.phase = .settling owner out) ∨ ∃ i, Store.Rooted c.store.nodes i owner

/-- The move changes neither what the store promises nor the rules. -/
structure Silent (c c' : Config) : Prop where
  obligations : c'.store.obligations = c.store.obligations
  indeterminates : c'.store.indeterminates = c.store.indeterminates
  kernel : c'.kernel = c.kernel ∨ ∃ count, c'.kernel = c.kernel.noted (.waking count)
  awaits : ∀ owner, c'.Awaits owner → c.Awaits owner

/-- What a move does. -/
inductive Effect (c c' : Config) : Prop where
  | silent : Silent c c' → Effect c c'
  | step {i : Nat} {n : Node} {v : Verdict} {k' : Kernel} : c.store.nodes.get? i = some n →
    Solver.Stepped n.equation c.store.indeterminates c.kernel v c'.store.indeterminates k' →
    c'.kernel = k'.noted (.stepped i v) → c'.store.obligations = c.store.obligations →
    (∀ owner, c'.Awaits owner → c.Awaits owner) → Effect c c'
  | settle {owner : Owner} {out : Outcome} : c.phase = .settling owner out →
    c'.phase = .idle → Resolved owner out c.store c.kernel c'.store c'.kernel → Effect c c'

variable {c c' : Config}

/-- Every move has one of the effects. -/
theorem Move.effect (h : Move c c') (hc : c.Ordered) : Effect c c' := by
  have hawaits : ∀ {phase phase' : Phase} {s s' : Store} {k k' : Kernel},
      Inherits s.nodes s'.nodes →
      (∀ owner out, phase' = .settling owner out → ∃ i, Rooted s.nodes i owner) →
      ∀ owner, Config.Awaits ⟨phase', s', k'⟩ owner → Config.Awaits ⟨phase, s, k⟩ owner := by
    rintro phase phase' s s' k k' hnodes hsettling owner (⟨out, ho⟩ | ⟨i, hi⟩)
    · exact .inr (hsettling owner out ho)
    · exact .inr ⟨i, hnodes.rooted hi⟩
  obtain hmarks | hturn := h.marks_or_turn
  · exact .silent ⟨hmarks.obligations, hmarks.indeterminates, .inl hmarks.kernel,
      hawaits hmarks.nodes.inherits hmarks.settling⟩
  cases hturn with
  | step hi hs => exact .step hi hs rfl rfl (hawaits (.refl _) fun _ _ => nofun)
  | wake s k =>
    obtain ⟨nodes, ready, hwoken⟩ := s.exists_woken_eq k.rules.generation
    refine .silent ⟨s.obligations_woken _, by rw [hwoken], ?_,
      hawaits (s.settles_woken _).inherits fun _ _ => nofun⟩
    dsimp only
    split
    · exact .inr ⟨_, rfl⟩
    · exact .inl rfl
  | stall hi =>
    exact .silent ⟨rfl, rfl, .inl rfl, hawaits (inherits_marked hi _) fun _ _ => nofun⟩
  | @derive s _ _ i n _ es hi hs' hn' =>
    obtain ⟨hwf, _⟩ := hc
    have hsame := decomposed_eq (hwf.queued.fresh _ _ hi) hs' hn'
    refine .silent ⟨?_, ?_, .inl rfl, ?_⟩
    · rw [hsame, decomposed_update]
    · rw [hsame, decomposed_update]
    · rintro owner (⟨_, ho⟩ | ⟨j, hj⟩)
      · cases ho
      · rw [hsame] at hj
        exact .inr ⟨j, (rooted_decomposed hi hwf.queued.fresh j owner).1 hj⟩
  | settle hr => exact .settle rfl rfl hr

/-- Numbers are not used again. -/
theorem Move.nextId_le (h : Move c c') : c.store.nextId ≤ c'.store.nextId := by
  cases h with
  | wake => exact (nextId_woken _ _).symm.le
  | actDerived _ _ hs' =>
    rw [hs', withChildren, withAll_eq]
    exact Nat.le_add_right _ _
  | settle hr => exact hr.ages.next
  | _ => exact le_rfl

variable {owner : Owner} {out : Outcome} {s s' : Store}

/-- Settling leaves the indeterminates. -/
theorem Resolved.indeterminates (h : Resolved owner out s k s' k') :
    s'.indeterminates = s.indeterminates := by
  cases h <;> simp [without, withObligation, withNode]

theorem Resolved.generation (h : Resolved owner out s k s' k') :
    s'.generation = s.generation := by
  cases h <;> simp [without, withObligation, withNode]

/-- Settling a part of an obligation poses no root but that of the argument of an application. -/
theorem Resolved.of_rooted {other : Owner} {i : Nat} (hr : Resolved owner out s k s' k')
    (hs : s.WellFormed none none (some owner)) (hi : Rooted s'.nodes i other) :
    Rooted s.nodes i other ∨ other = ⟨owner.obligation, .argument⟩ ∧ owner.slot = .main := by
  obtain hmutes | ⟨a, _, hslot, _, hnodes⟩ := hr.nodes
  · exact .inl ((rooted_mutes hmutes i other).1 hi)
  · rw [hnodes] at hi
    obtain hi | ⟨_, rfl⟩ := (rooted_withNode hs.queued.fresh _ _ i other).1 hi
    · exact .inl hi
    · exact .inr ⟨rfl, hslot⟩

private theorem Move.of_mem_indeterminates (h : Move c c') (hc : c.Ordered) {id : Nat}
    (hid : id ∈ c'.store.indeterminates) :
    id ∈ c.store.indeterminates ∨ c.kernel.nextSymbol ≤ id := by
  cases h.effect hc with
  | silent hs => exact .inl (hs.indeterminates ▸ hid)
  | step _ hstep => exact (hstep.of_mem_left hid).imp_right fun hnew => hnew.1.1
  | settle _ _ hr => exact .inl (hr.indeterminates ▸ hid)

theorem Moves.of_mem_indeterminates (h : Moves c c') (hc : c.Ordered) {id : Nat}
    (hid : id ∈ c'.store.indeterminates) :
    id ∈ c.store.indeterminates ∨ c.kernel.nextSymbol ≤ id := by
  induction h with
  | refl => exact .inl hid
  | tail hmoves hmove ih =>
    obtain hid | hle := hmove.of_mem_indeterminates (Moves.ordered hmoves hc) hid
    · exact ih hid
    · exact .inr ((Moves.grows hmoves).symbols.trans hle)

end StoreM
end Elaboration
