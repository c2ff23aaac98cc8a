import Elaboration.Proofs.Obligation.Tracking

/-!
# Effects of obligations are all or nothing

A client reserves declarations for its casts and applications. Then an unknown has a rule exactly if
its part was solved, and a rule is installed exactly if all its side conditions were solved and its
head was free by then.
-/

namespace Elaboration

open List Settlement Store StoreM

namespace Request

/-- The unknowns that a request has defined. -/
def owns : Request → List Term
  | cast x => [x.unknown]
  | application a => [a.functionUnknown, a.argumentUnknown]
  | _ => []

/-- The terms that a request may give a rule. -/
def heads : Request → List Term
  | rule q => [q.rule.head]
  | r => r.owns

end Request

private theorem StoreM.Installs.mem_heads {events : List Event} {id d : Nat} {r : Request}
    (h : Installs events id d r) : .decl d ∈ r.heads := by
  cases r with
  | cast x => exact mem_singleton.2 h.1.symm
  | application a =>
    obtain ⟨h, _⟩ | ⟨h, _⟩ := h
    · exact h ▸ mem_cons_self
    · exact mem_cons_of_mem _ (mem_singleton.2 h.symm)
  | rule q => exact mem_singleton.2 h.1.symm
  | _ => exact h.elim

/-- A client with the kernel and a store: what it asked, what was recorded, what it reserved for
obligations, and what the store went through. -/
structure Usage where
  log : List (Nat × Request)
  events : List Event
  reserved : List Nat
  passed : StoreM.Config → Prop
  store : Store
  kernel : Kernel

namespace Usage

variable {r : Request} {a : Application}

/-- A client that has done nothing yet. -/
def start (k : Kernel) : Usage := ⟨[], [], [], fun _ => False, .initial k, k⟩

/-- The unknowns of a request are reserved, distinct and used for nothing else. -/
structure Permits (u : Usage) (r : Request) : Prop where
  reserved : ∀ t ∈ r.owns, ∃ d ∈ u.reserved, t = .decl d
  distinct : r.owns.Nodup
  unused : ∀ x ∈ u.log, ∀ t ∈ r.owns, t ∉ x.2.heads
  others : ∀ x ∈ u.log, ∀ t ∈ x.2.owns, t ∉ r.heads
  apart : ∀ d ∈ u.reserved, r ≠ .indeterminate (.decl d)

/-- What a client does next. -/
inductive Step : Usage → Usage → Prop where
  /-- Anything that keeps rules and gives none to a reserved declaration. -/
  | prepare (u : Usage) {k' : Kernel} : u.kernel.Expands k' →
    (∀ d ∈ u.reserved, k'.rules.ruleFor? d = u.kernel.rules.ruleFor? d) →
    Step u { u with kernel := k' }
  /-- A declaration without a rule is reserved. -/
  | reserve (u : Usage) {d : Nat} : d < u.kernel.nextSymbol → u.kernel.rules.ruleFor? d = none →
    d ∉ u.store.indeterminates → Step u { u with reserved := d :: u.reserved }
  | request (u : Usage) (r : Request) {s' : Store} {k' : Kernel} {new : List Event} : u.Permits r →
    r.perform u.store u.kernel = .ok ((), s') k' → k'.journal = new ++ u.kernel.journal →
    Step u { u with
      log := (u.store.nextId, r) :: u.log, events := new ++ u.events, store := s', kernel := k'
      passed := fun c => u.passed c ∨ r.Passes u.store u.kernel s' k' c }

/-- What a client may have done. -/
abbrev Steps : Usage → Usage → Prop := Relation.ReflTransGen Step

/-- Everything that a client relies on. -/
structure Sound (u : Usage) : Prop where
  history : u.store.History u.log u.events
  tracks : StoreM.Tracks u.log u.reserved u.passed u.events ⟨.idle, u.store, u.kernel⟩
  reserved : ∀ x ∈ u.log, ∀ t ∈ x.2.owns, ∃ d ∈ u.reserved, t = .decl d
  distinct : ∀ x ∈ u.log, x.2.owns.Nodup
  separate : ∀ x ∈ u.log, ∀ y ∈ u.log, ∀ t ∈ x.2.owns, t ∈ y.2.heads → y = x
  numbered : ∀ m, u.passed m → m.Ordered ∧ m.store.nextId ≤ u.store.nextId
  /-- Whatever the store went through. -/
  arguments : ∀ m, u.passed m → ∀ id a, (id, .application a) ∈ u.log →
    m.Awaits ⟨id, .argument⟩ → ∃ f, a.functionUnknown = .decl f ∧ m.kernel.rules.hasRule f

private theorem sound_start (k : Kernel) : (start k).Sound where
  history := .initial k
  tracks := ⟨nofun, by simp [start], by simp [start], by simp [start],
    by simp [start]⟩
  reserved := by simp [start]
  distinct := by simp [start]
  separate := by simp [start]
  numbered _ hm := hm.elim
  arguments _ hm := hm.elim

private theorem Sound.prepare {u : Usage} (h : u.Sound) {k' : Kernel} (hk : u.kernel.Expands k')
    (hrules : ∀ d ∈ u.reserved, k'.rules.ruleFor? d = u.kernel.rules.ruleFor? d) :
    Sound { u with kernel := k' } where
  __ := h
  tracks := by
    refine h.tracks.unsettled [] (fun _ h => h) (fun _ => rfl) ?_ le_rfl hk.rules
      (fun d hd => ?_) (by simp)
    · rintro owner (⟨_, hphase⟩ | hroot)
      · cases hphase
      · exact .inr hroot
    · obtain ⟨hlt, hnot⟩ := h.tracks.apart d hd
      refine ⟨hlt.trans_le hk.symbols, hnot, fun hrule => ?_⟩
      rwa [RuleTable.hasRule, hrules d hd] at hrule

private theorem Sound.reserve {u : Usage} (h : u.Sound) {d : Nat} (hd : d < u.kernel.nextSymbol)
    (hrule : u.kernel.rules.ruleFor? d = none) (hnot : d ∉ u.store.indeterminates) :
    Sound { u with reserved := d :: u.reserved } where
  __ := h
  tracks := by
    refine ⟨h.tracks.recorded, forall_mem_cons.2 ⟨⟨hd, hnot⟩, h.tracks.apart⟩,
      h.tracks.numbered, forall_mem_cons.2 ⟨fun hrule' => ?_, h.tracks.traced⟩,
      h.tracks.stands⟩
    rw [RuleTable.hasRule, hrule] at hrule'
    cases hrule'
  reserved x hx t ht := by
    obtain ⟨d', hd', heq⟩ := h.reserved x hx t ht
    exact ⟨d', mem_cons_of_mem _ hd', heq⟩

private theorem Sound.request {u : Usage} (h : u.Sound) {s' : Store} {k' : Kernel}
    {new : List Event} (hpermits : u.Permits r) (hr : r.perform u.store u.kernel = .ok ((), s') k')
      (hnew : k'.journal = new ++ u.kernel.journal) :
    Sound { u with
      log := (u.store.nextId, r) :: u.log, events := new ++ u.events, store := s', kernel := k'
      passed := fun c => u.passed c ∨ r.Passes u.store u.kernel s' k' c } := by
  have hbalanced := h.history.balanced
  have hperformed :=
    performed_of_perform hbalanced.ordered hbalanced.recorded hr
  have hpassed : ∀ m, u.passed m → u.passed m ∨ r.Passes u.store u.kernel s' k' m :=
    fun _ => .inl
  have hpasses : ∀ m, r.Passes u.store u.kernel s' k' m →
      u.passed m ∨ r.Passes u.store u.kernel s' k' m := fun _ => .inr
  refine ⟨h.history.perform r hr hnew, ?_, ?_, ?_, ?_, ?_, ?_⟩
  · exact h.tracks.perform hbalanced hpermits.apart hr hnew hpassed hpasses
  · exact forall_mem_cons.2 ⟨hpermits.reserved, h.reserved⟩
  · exact forall_mem_cons.2 ⟨hpermits.distinct, h.distinct⟩
  · rintro x hx y hy t ht ht'
    rcases mem_cons.1 hx with rfl | hx <;> rcases mem_cons.1 hy with rfl | hy
    · rfl
    · exact absurd ht' (hpermits.unused y hy t ht)
    · exact absurd ht' (hpermits.others x hx t ht)
    · exact h.separate x hx y hy t ht ht'
  · rintro m (hm | hm)
    · exact ⟨(h.numbered m hm).1, (h.numbered m hm).2.trans hperformed.next⟩
    · obtain ⟨hordered, hnext, _⟩ := h.tracks.passes hbalanced.ordered hm hpassed hpasses
      exact ⟨hordered, hnext⟩
  · rintro m (hm | hm) id a hx hawaits
    · rcases mem_cons.1 hx with heq | hx
      · -- the new application is awaited nowhere yet
        obtain ⟨hordered, hnext⟩ := h.numbered m hm
        obtain ⟨_, _, hlt⟩ := hordered.exists_obligation hawaits
        exact absurd (hlt.trans_le hnext) (Nat.ne_of_lt · (congrArg Prod.fst heq))
      · exact h.arguments m hm id a hx hawaits
    · obtain ⟨hordered, _, _, htracks⟩ := h.tracks.passes hbalanced.ordered hm hpassed hpasses
      rcases mem_cons.1 hx with heq | hx
      · cases heq
        exact hm.elim
      · exact htracks.hasRule_of_awaits hordered hx hawaits

private theorem Steps.sound {k : Kernel} {u : Usage} (h : Steps (start k) u) : u.Sound := by
  induction h with
  | refl => exact sound_start k
  | tail _ hstep ih =>
    cases hstep with
    | prepare hk hrules => exact ih.prepare hk hrules
    | reserve hd hrule hnot => exact ih.reserve hd hrule hnot
    | request r hpermits hr hnew => exact ih.request hpermits hr hnew

/-! ### Effects -/

variable {u : Usage} {id d : Nat}

/-- What a request has done so far. -/
def Effects (u : Usage) (id : Nat) : Request → Prop
  | .cast x => ∃ d, x.unknown = .decl d ∧
      (u.kernel.rules.hasRule d ↔ .settled (.equation id .solved) ∈ u.events) ∧
      (u.kernel.rules.hasRule d →
        StoreM.Defined u.passed ⟨id, .main⟩ x.telescope x.unknown x.source u.kernel)
  | .application a => ∃ f x, a.functionUnknown = .decl f ∧ a.argumentUnknown = .decl x ∧
      (u.kernel.rules.hasRule f ↔ .settling id .main true ∈ u.events) ∧
      (u.kernel.rules.hasRule f →
        StoreM.Defined u.passed ⟨id, .main⟩ a.telescope a.functionUnknown a.function u.kernel) ∧
      (∀ m, u.passed m → m.Awaits ⟨id, .argument⟩ → m.kernel.rules.hasRule f) ∧
      (u.kernel.rules.hasRule x ↔
        .settling id .main true ∈ u.events ∧ .settling id .argument true ∈ u.events) ∧
      (u.kernel.rules.hasRule x →
        StoreM.Defined u.passed ⟨id, .argument⟩ a.telescope a.argumentUnknown a.argument u.kernel) ∧
      ∀ out wasFunction, .settled (.application id out wasFunction) ∈ u.events →
        (wasFunction = true ↔ .settling id .main true ∈ u.events) ∧
        (out = .solved ↔
          .settling id .main true ∈ u.events ∧ .settling id .argument true ∈ u.events)
  | .rule q =>
      (.settled (.commitment id true) ∈ u.events ∧
          (∀ slot ∈ q.slots, .settled (.condition id slot .solved) ∈ u.events) ∧
          (∃ m head, u.passed m ∧ StoreM.SettlesLast id m ∧ q.rule.head = .decl head ∧
            m.kernel.rules.hasRule head = false ∧
            u.kernel.rules.ruleFor? head = some (StoreM.requestedRule q m.kernel)) ∨
        .settled (.commitment id true) ∉ u.events ∧
          ((∃ slot ∈ q.slots, .settled (.condition id slot .solved) ∉ u.events) ∨
            ∃ m head, u.passed m ∧ StoreM.SettlesLast id m ∧ q.rule.head = .decl head ∧
              m.kernel.rules.hasRule head = true)) ∧
      ∀ slot ∈ q.slots, ∀ report, .settled (.condition id slot (.failed report)) ∈ u.events →
        .settled (.commitment id true) ∉ u.events
  | _ => True

private theorem Sound.installs_of_hasRule (h : u.Sound) (hx : (id, r) ∈ u.log)
    (hd : .decl d ∈ r.owns) (hrule : u.kernel.rules.hasRule d) :
    Installs u.events id d r := by
  obtain ⟨_, hreserved, ⟨⟩⟩ := h.reserved _ hx _ hd
  obtain ⟨y, hy, hinstalls⟩ := h.tracks.traced d hreserved hrule
  cases h.separate _ hx y hy _ hd hinstalls.mem_heads
  exact hinstalls

private theorem hasRule_of_defined {owner : Owner} {tele : Telescope} {unknown value : Term}
    (h : Defined u.passed owner tele unknown value u.kernel) (hd : unknown = .decl d) :
    u.kernel.rules.hasRule d := by
  obtain ⟨_, d', _, _, hd', _, hrule⟩ := h
  cases hd.symm.trans hd'
  exact Option.isSome_iff_exists.2 ⟨_, hrule⟩

private theorem Sound.cast (h : u.Sound) {x : Cast} (hx : (id, .cast x) ∈ u.log) :
    u.Effects id (.cast x) := by
  have hbalanced := h.history.balanced
  obtain ⟨d, _, hd⟩ := h.reserved _ hx x.unknown mem_cons_self
  have hinstalls : u.kernel.rules.hasRule d → .settled (.equation id .solved) ∈ u.events :=
    fun hrule => (h.installs_of_hasRule hx (hd ▸ mem_cons_self) hrule).2
  have hdefined : .settled (.equation id .solved) ∈ u.events →
      Defined u.passed ⟨id, .main⟩ x.telescope x.unknown x.source u.kernel := by
    intro hsolved
    cases h.tracks.stands _ hx with
    | pending ho =>
      refine absurd hsolved (hbalanced.not_answered ?_)
      exact promises_of_get? ho ▸ mem_singleton.2 rfl
    | solved _ _ hdefined => exact hdefined
    | failed _ hfailed => cases hbalanced.answer_unique hsolved hfailed rfl
  refine ⟨d, hd, ⟨hinstalls, fun hsolved => ?_⟩, fun hrule => hdefined (hinstalls hrule)⟩
  exact hasRule_of_defined (hdefined hsolved) hd

private theorem Sound.defined_of_argument (h : u.Sound)
    (hx : (id, .application a) ∈ u.log) (hmem : .settling id .argument true ∈ u.events) :
    .settling id .main true ∈ u.events ∧
      Defined u.passed ⟨id, .argument⟩ a.telescope a.argumentUnknown a.argument u.kernel := by
  cases h.tracks.stands _ hx with
  | function _ _ hnot | refused _ _ hnot => exact absurd hmem (hnot _)
  | argument _ _ _ _ hnot | halfway _ _ _ _ hnot => exact absurd hmem hnot
  | solved _ _ _ hd hmain => exact ⟨hmain, hd⟩

private theorem Sound.application (h : u.Sound)
    (hx : (id, .application a) ∈ u.log) : u.Effects id (.application a) := by
  have hbalanced := h.history.balanced
  obtain ⟨f, _, hf⟩ := h.reserved _ hx a.functionUnknown mem_cons_self
  obtain ⟨x, _, hargument⟩ := h.reserved _ hx a.argumentUnknown (mem_cons_of_mem _ mem_cons_self)
  have hne : f ≠ x := by
    rintro rfl
    have hnodup := h.distinct _ hx
    simp [Request.owns, hf, hargument] at hnodup
  have hfunction : u.kernel.rules.hasRule f → .settling id .main true ∈ u.events := by
    intro hrule
    obtain ⟨_, hmem⟩ | ⟨heq, _⟩ := h.installs_of_hasRule hx (hf ▸ mem_cons_self) hrule
    · exact hmem
    · exact absurd (Term.decl.inj (heq.symm.trans hargument)) hne
  have hboth : u.kernel.rules.hasRule x → .settling id .argument true ∈ u.events := by
    intro hrule
    have hmem : .decl x ∈ Request.owns (.application a) :=
      hargument ▸ mem_cons_of_mem _ mem_cons_self
    obtain ⟨heq, _⟩ | ⟨_, hmem⟩ := h.installs_of_hasRule hx hmem hrule
    · exact absurd (Term.decl.inj (hf.symm.trans heq)) hne
    · exact hmem
  have hposed : ∀ m, u.passed m → m.Awaits ⟨id, .argument⟩ → m.kernel.rules.hasRule f := by
    intro m hm hawaits
    obtain ⟨f', hf', hrule⟩ := h.arguments m hm id a hx hawaits
    cases hf.symm.trans hf'
    exact hrule
  -- nothing is answered while the application is live
  have hlive : u.store.obligations.get? id = some (.application a) →
      ∀ out wasFunction, .settled (.application id out wasFunction) ∉ u.events := by
    intro ho out wasFunction
    refine hbalanced.not_answered ?_
    exact promises_of_get? ho ▸ mem_singleton.2 rfl
  have hdefined : .settling id .main true ∈ u.events →
      Defined u.passed ⟨id, .main⟩ a.telescope a.functionUnknown a.function u.kernel := by
    intro hmem
    cases h.tracks.stands _ hx with
    | function _ _ hnot | refused _ _ hnot => exact absurd hmem (hnot _)
    | argument _ _ hd | halfway _ _ hd | solved _ _ hd => exact hd
  have hdefined' := h.defined_of_argument hx
  refine ⟨f, x, hf, hargument, ⟨hfunction, fun hmem => hasRule_of_defined (hdefined hmem) hf⟩,
    fun hrule => hdefined (hfunction hrule), hposed, ⟨fun hrule => ?_, fun hmem => ?_⟩,
    fun hrule => (hdefined' (hboth hrule)).2, fun out wasFunction hanswer => ?_⟩
  · exact ⟨(hdefined' (hboth hrule)).1, hboth hrule⟩
  · exact hasRule_of_defined (hdefined' hmem.2).2 hargument
  · cases h.tracks.stands _ hx with
    | function ho | argument ho => exact absurd hanswer (hlive ho _ _)
    | refused _ hanswer' hnot =>
      cases hbalanced.answer_unique hanswer hanswer' rfl
      simp [hnot]
    | halfway _ hanswer' _ hmain hnot =>
      cases hbalanced.answer_unique hanswer hanswer' rfl
      simp [hmain, hnot]
    | solved _ hanswer' _ _ hmain hmem =>
      cases hbalanced.answer_unique hanswer hanswer' rfl
      simp [hmain, hmem]

private theorem Sound.rule (h : u.Sound) {q : RuleRequest} (hx : (id, .rule q) ∈ u.log) :
    u.Effects id (.rule q) := by
  have hbalanced := h.history.balanced
  have hstands := h.tracks.stands _ hx
  constructor
  · cases hstands with
    | @undecided p ho hundecided _ hsub _ =>
      have hcommitment : .settled (.commitment id true) ∉ u.events := by
        refine hbalanced.not_answered (promises_of_get? ho ▸ ?_)
        simp [Obligation.promises, promise, hundecided]
      obtain ⟨slots, hw, _⟩ := hbalanced.ordered.posed.waits ho
      cases hw with
      | rule _ hlength hpos =>
        rw [hlength] at hpos
        obtain ⟨slot, hslot⟩ := exists_mem_of_length_pos hpos
        refine .inr ⟨hcommitment, .inl ⟨slot, hsub slot hslot, ?_⟩⟩
        refine hbalanced.not_answered (promises_of_get? ho ▸ ?_)
        simp [Obligation.promises, promise, hslot]
    | refused _ hslot hfailed hcommitment =>
      refine .inr ⟨fun hcommitted => ?_, .inl ⟨_, hslot, fun hsolved => ?_⟩⟩
      · cases hbalanced.answer_unique hcommitted hcommitment rfl
      · cases hbalanced.answer_unique hsolved hfailed rfl
    | @decided m head _ hall hm hlast hhead hcommitment hrule =>
      cases hfree : m.kernel.rules.hasRule head with
      | false =>
        rw [hfree] at hcommitment
        exact .inl ⟨hcommitment, hall, m, head, hm, hlast, hhead, hfree, hrule hfree⟩
      | true =>
        rw [hfree] at hcommitment
        refine .inr ⟨fun hcommitted => ?_, .inr ⟨m, head, hm, hlast, hhead, hfree⟩⟩
        cases hbalanced.answer_unique hcommitted hcommitment rfl
  · intro slot hslot report hfailed hcommitted
    cases hstands with
    | undecided ho hundecided =>
      refine absurd hcommitted (hbalanced.not_answered (promises_of_get? ho ▸ ?_))
      simp [Obligation.promises, promise, hundecided]
    | refused _ _ _ hcommitment => cases hbalanced.answer_unique hcommitted hcommitment rfl
    | decided _ hall => cases hbalanced.answer_unique hfailed (hall slot hslot) rfl

/-- Whatever a client does, the effects of each request are all or nothing, and reserved
declarations have rules exactly from the requests that gave them one. -/
theorem effects_of_steps {k : Kernel} (h : Steps (start k) u) :
    (∀ x ∈ u.log, u.Effects x.1 x.2) ∧ ∀ d ∈ u.reserved, u.kernel.rules.hasRule d ↔
        ∃ x ∈ u.log, StoreM.Installs u.events x.1 d x.2 := by
  have hsound := h.sound
  have heffects : ∀ x ∈ u.log, u.Effects x.1 x.2 := by
    rintro ⟨id, r⟩ hx
    cases r with
    | cast x => exact hsound.cast hx
    | application a => exact hsound.application hx
    | rule q => exact hsound.rule hx
    | _ => trivial
  refine ⟨heffects, fun d hd => ⟨hsound.tracks.traced d hd, ?_⟩⟩
  rintro ⟨⟨id, r⟩, hx, hinstalls⟩
  have heffect := heffects _ hx
  cases r with
  | cast x =>
    obtain ⟨hd, hsolved⟩ := hinstalls
    obtain ⟨_, hd', hiff, _⟩ := heffect
    cases hd.symm.trans hd'
    exact hiff.2 hsolved
  | application a =>
    obtain ⟨f, x, hf, hargument, hfunction, _, _, hboth, _⟩ := heffect
    obtain ⟨hd, hmain⟩ | ⟨hd, hmem⟩ := hinstalls
    · cases hd.symm.trans hf
      exact hfunction.2 hmain
    · cases hd.symm.trans hargument
      exact hboth.2 ⟨(hsound.defined_of_argument hx hmem).1, hmem⟩
  | rule q =>
    obtain ⟨hd, hcommitted⟩ := hinstalls
    obtain ⟨⟨_, _, _, head, _, _, hhead, _, hrule⟩ | ⟨hnot, _⟩, _⟩ := heffect
    · cases hd.symm.trans hhead
      exact Option.isSome_iff_exists.2 ⟨_, hrule⟩
    · exact absurd hcommitted hnot
  | _ => exact hinstalls.elim

/-! ### A solved cast, half an application and a rule -/

/-- A kernel with four unknowns. -/
def fourUnknowns : Kernel :=
  { Kernel.initial with
    nextSymbol := Primitive.count + 4
    rules := (((Kernel.initial.rules.register 10).register 11).register 12).register 13
    contexts := #[.empty]
    journal := [] }

/-- A cast between equal types. -/
def solvedCast : Cast where
  telescope := ⟨[], Primitive.type, Primitive.identity, 0⟩
  unknown := .decl 10
  sourceType := Primitive.type
  source := Primitive.arrow
  targetType := Primitive.type

/-- An application whose argument has another type. -/
def halfApplication : Application where
  telescope := ⟨[], Primitive.type, Primitive.identity, 0⟩
  functionUnknown := .decl 11
  functionType := Primitive.type
  function := Primitive.arrow
  expectedFunctionType := Primitive.type
  argumentUnknown := .decl 12
  argumentType := Primitive.type
  argument := Primitive.type
  expectedArgumentType := Primitive.arrow

/-- A rule whose side conditions hold. -/
def solvedRule : RuleRequest where
  telescope := ⟨[], Primitive.type, Primitive.identity, 0⟩
  rule := .lambda (.decl 13) 0 Primitive.type
  checks := [(Primitive.arrow, Primitive.arrow)]
  patternType := Primitive.type
  replacementType := Primitive.type

/-- The client poses an obligation. -/
def pose (u : Usage) (r : Request) : Usage :=
  match r.obligation? with
  | none => u
  | some (o, es) =>
    { u with
      log := (u.store.nextId, r) :: u.log
      store := u.store.posing o es
      passed := fun c => u.passed c ∨ r.Passes u.store u.kernel (u.store.posing o es) u.kernel c }

private theorem Steps.pose {u0 : Usage} (h : Steps u0 u) (hpermits : u.Permits r) :
    Steps u0 (u.pose r) := by
  unfold Usage.pose
  split
  · exact h
  · next o es hr =>
    refine h.tail (.request u r hpermits ?_ (nil_append _).symm)
    have hend : EndsWith r.perform u.store u.kernel
        (fun _ s' k' => s' = u.store.posing o es ∧ k' = u.kernel) fun _ _ => False :=
      (ends_pose hr).2 ⟨rfl, rfl⟩
    cases hx : r.perform u.store u.kernel with
    | ok x k' =>
      obtain ⟨⟨⟩, s'⟩ := x
      obtain ⟨rfl, rfl⟩ := hend.of_ok hx
      rfl
    | error e k' => exact (Ends.of_error hend hx).elim

/-- A cast, an application and a rule are posed, the unknowns being reserved. -/
def mixed : Usage :=
  ((Usage.pose { start fourUnknowns with reserved := [12, 11, 10] } (.cast solvedCast)).pose
    (.application halfApplication)).pose (.rule solvedRule)

private theorem steps_mixed : Steps (start fourUnknowns) mixed := by
  have hreserved : Steps (start fourUnknowns)
      { start fourUnknowns with reserved := [12, 11, 10] } := by
    refine .tail
      (.tail (.tail .refl (.reserve _ (d := 10) ?_ ?_ ?_)) (.reserve _ (d := 11) ?_ ?_ ?_))
      (.reserve _ (d := 12) ?_ ?_ ?_) <;> decide +kernel
  refine Steps.pose (Steps.pose (Steps.pose hreserved ?_) ?_) ?_
  · exact ⟨by decide, by decide, by decide, by decide, fun _ _ => nofun⟩
  · exact ⟨by decide, by decide, by decide, by decide, fun _ _ => nofun⟩
  · exact ⟨by decide, by decide, by decide, by decide, fun _ _ => nofun⟩

/-- Running the store defines the unknowns of the cast and of the function, installs the rule, and
leaves the unknown of the argument without one. -/
theorem effects_of_mixed : ∃ u, Steps (start fourUnknowns) u ∧
    (u.kernel.rules.hasRule 10 ∧ u.kernel.rules.hasRule 11 ∧ ¬ u.kernel.rules.hasRule 12 ∧
      u.kernel.rules.hasRule 13) ∧
    (∀ x ∈ u.log, u.Effects x.1 x.2) ∧ ∀ d ∈ u.reserved, u.kernel.rules.hasRule d ↔
        ∃ x ∈ u.log, StoreM.Installs u.events x.1 d x.2 := by
  obtain ⟨⟨⟨⟩, s'⟩, k', hperformed, hruled⟩ :
      ∃ x k', Request.run.perform mixed.store mixed.kernel = .ok x k' ∧ k'.rules.hasRule 10 ∧
        k'.rules.hasRule 11 ∧ ¬ k'.rules.hasRule 12 ∧ k'.rules.hasRule 13 := by decide +kernel
  have hpermits : mixed.Permits .run :=
    ⟨nofun, nodup_nil, fun _ _ => nofun, fun _ _ _ _ => nofun, fun _ _ => nofun⟩
  have hsteps := steps_mixed.tail (.request mixed .run hpermits hperformed (append_nil _).symm)
  exact ⟨_, hsteps, hruled, effects_of_steps hsteps⟩

end Usage
end Elaboration
