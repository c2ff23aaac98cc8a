import Elaboration.Proofs.Obligation.Requests

/-!
# What the store contains

What is said of the kernel, of each equation and of each obligation is kept by every move if it
lasts as the kernel develops, holds of the equations that steps derive, and is kept by what
obligations install.
-/

namespace Elaboration

open List Store StoreM Table

/-- The node is as it was, marks and permissions apart. -/
def Node.Left (n n' : Node) : Prop :=
  n'.parent = n.parent ∧ n'.children = n.children ∧
    ∃ may : Bool, (may → n.equation.deduce) ∧ n'.equation = { n.equation with deduce := may }

/-- A node is left as it is. -/
theorem Node.Left.refl (n : Node) : n.Left n := ⟨rfl, rfl, _, id, rfl⟩

private theorem Node.Left.trans {n n' n'' : Node} (h : n.Left n') (h' : n'.Left n'') :
    n.Left n'' := by
  obtain ⟨hparent, hchildren, may, hmay, hequation⟩ := h
  obtain ⟨hparent', hchildren', may', hmay', hequation'⟩ := h'
  refine ⟨hparent'.trans hparent, hchildren'.trans hchildren, may', fun h => ?_, ?_⟩
  · have hdeduce := hmay' h
    rw [hequation] at hdeduce
    exact hmay hdeduce
  · rw [hequation', hequation]

namespace Store

/-- What is left of the equations is as it was, marks and permissions apart. -/
def Inherits (nodes nodes' : Table Node) : Prop :=
  ∀ i n', nodes'.get? i = some n' → ∃ n, nodes.get? i = some n ∧ n.Left n'

/-- None of the equations that are left stalled. -/
def Settles (nodes nodes' : Table Node) : Prop :=
  ∀ i n', nodes'.get? i = some n' → ∃ n, nodes.get? i = some n ∧ n.Left n' ∧
    (n'.progress = .stalled → n.progress = .stalled)

variable {nodes nodes' nodes'' : Table Node} {s : Store} {i : Nat} {n : Node}

/-- Nothing changes. -/
theorem Inherits.refl (nodes : Table Node) : Inherits nodes nodes := fun _ n hn => ⟨n, hn, .refl n⟩

/-- Marking a node changes neither equations nor parents. -/
theorem inherits_marked (hi : nodes.get? i = some n) (p : Progress) :
    Inherits nodes (marked nodes i n p) := by
  intro j m' hj
  obtain ⟨m, hm, hparent, hchildren, hequation, _⟩ := of_get?_marked hi hj
  exact ⟨m, hm, hparent, hchildren, _, id, hequation⟩

/-- Where none stalls, equations are inherited. -/
theorem Settles.inherits (h : Settles nodes nodes') : Inherits nodes nodes' := by
  intro i n' hn'
  obtain ⟨n, hn, hleft, _⟩ := h i n' hn'
  exact ⟨n, hn, hleft⟩

private theorem Settles.trans (h : Settles nodes nodes') (h' : Settles nodes' nodes'') :
    Settles nodes nodes'' := by
  intro i n'' hn''
  obtain ⟨n', hn', hleft', hstalled'⟩ := h' i n'' hn''
  obtain ⟨n, hn, hleft, hstalled⟩ := h i n' hn'
  exact ⟨n, hn, hleft.trans hleft', fun h => hstalled (hstalled' h)⟩

private theorem settles_marked (hi : nodes.get? i = some n) (p : Progress) (hp : p ≠ .stalled) :
    Settles nodes (marked nodes i n p) := by
  intro j m' hj
  obtain ⟨m, hm, hparent, hchildren, hequation, hprogress⟩ := of_get?_marked hi hj
  refine ⟨m, hm, ⟨hparent, hchildren, _, id, hequation⟩, fun hstalled => ?_⟩
  obtain ⟨_, heq⟩ | ⟨_, rfl⟩ := hprogress
  · exact absurd (heq.symm.trans hstalled) hp
  · exact hstalled

private theorem Prunes.settles (h : Prunes nodes nodes') : Settles nodes nodes' :=
  fun j m hj => ⟨m, h.sub j m hj, .refl m, id⟩

private theorem Settles.refl (nodes : Table Node) : Settles nodes nodes :=
  (Prunes.refl nodes).settles

/-- Muting stalls nothing. -/
theorem Mutes.settles (h : Mutes nodes nodes') : Settles nodes nodes' := by
  intro j m' hj
  obtain ⟨_, may, hmay⟩ := h
  obtain ⟨m, hm, rfl⟩ := Option.map_eq_some_iff.1 ((hmay j).symm.trans hj)
  exact ⟨m, hm, ⟨rfl, rfl, _, fun h => (Bool.and_eq_true_iff.1 h).1, rfl⟩, id⟩

/-- Waking marks equations as ready and none as anything else. -/
theorem of_get?_woken {generation : Nat} (h : (s.woken generation).nodes.get? i = some n) :
    ∃ m, s.nodes.get? i = some m ∧ (n = m ∨ n = { m with progress := .ready }) := by
  refine foldlRecOn (motive := fun s' : Store => ∀ n, s'.nodes.get? i = some n →
    ∃ m, s.nodes.get? i = some m ∧ (n = m ∨ n = { m with progress := .ready })) s.stalled wake
    (b := { s with generation, stalled := [] }) (fun n hn => ⟨n, hn, .inl rfl⟩)
    (fun s' ih j _ n hn => ?_) n h
  unfold wake at hn
  split at hn
  · next hj =>
    split at hn
    · rw [get?_set] at hn
      split at hn
      · next hji =>
        cases hn
        obtain ⟨_, hm, rfl | rfl⟩ := ih _ (hji ▸ hj) <;> exact ⟨_, hm, .inr rfl⟩
      · exact ih n hn
    · exact ih n hn
  · exact ih n hn

/-- Waking stalls nothing. -/
theorem settles_woken (s : Store) (generation : Nat) :
    Settles s.nodes (s.woken generation).nodes := by
  intro i n hn
  obtain ⟨m, hm, rfl | rfl⟩ := of_get?_woken hn
  · exact ⟨_, hm, .refl _, id⟩
  · exact ⟨m, hm, ⟨rfl, rfl, _, id, rfl⟩, nofun⟩

/-- Waking changes the equations and the queues only. -/
theorem exists_woken_eq (s : Store) (generation : Nat) :
    ∃ nodes ready, s.woken generation = { s with generation, stalled := [], nodes, ready } := by
  refine foldlRecOn (motive := fun s' => ∃ nodes ready,
    s' = { s with generation, stalled := [], nodes, ready }) s.stalled wake
    (b := { s with generation, stalled := [] }) ⟨_, _, rfl⟩ ?_
  rintro _ ⟨nodes, ready, rfl⟩ i _
  unfold wake
  split
  · split <;> exact ⟨_, _, rfl⟩
  · exact ⟨_, _, rfl⟩

/-- Waking leaves the obligations. -/
theorem obligations_woken (s : Store) (generation : Nat) :
    (s.woken generation).obligations = s.obligations := by
  obtain ⟨nodes, ready, heq⟩ := s.exists_woken_eq generation
  rw [heq]

/-- Waking makes no number. -/
theorem nextId_woken (s : Store) (generation : Nat) : (s.woken generation).nextId = s.nextId := by
  obtain ⟨nodes, ready, heq⟩ := s.exists_woken_eq generation
  rw [heq]

end Store

namespace StoreM

/-- The move marks or removes equations, and what it is about to settle has lost its root. -/
structure Marks (c c' : Config) : Prop where
  nodes : Store.Settles c.store.nodes c'.store.nodes
  obligations : c'.store.obligations = c.store.obligations
  indeterminates : c'.store.indeterminates = c.store.indeterminates
  generation : c'.store.generation = c.store.generation
  kernel : c'.kernel = c.kernel
  acting : ∀ i v, c'.phase ≠ .acting i v
  settling : ∀ owner out, c'.phase = .settling owner out →
    ∃ i, Store.Rooted c.store.nodes i owner

/-- The moves that do more than marking equations. -/
inductive Turn : Config → Config → Prop where
  | step {s : Store} {k k' : Kernel} {i : Nat} {rest : List Nat} {n : Node} {v : Verdict}
    {left : Indeterminates} : s.nodes.get? i = some n →
    Solver.Stepped n.equation s.indeterminates k v left k' →
    Solver.step n.equation s.indeterminates k = .ok (v, left) k' →
    Turn ⟨.idle, s, k⟩
      ⟨.acting i v, { s with ready := rest, indeterminates := left }, k'.noted (.stepped i v)⟩
  | wake (s : Store) (k : Kernel) : Turn ⟨.idle, s, k⟩ ⟨.idle, s.woken k.rules.generation,
      if s.stalled.length ≠ 0 then k.noted (.waking s.stalled.length) else k⟩
  | stall {s : Store} {k : Kernel} {i : Nat} {n : Node} : s.nodes.get? i = some n →
    Turn ⟨.acting i .stalled, s, k⟩
      ⟨.idle, { s with nodes := Store.marked s.nodes i n .stalled, stalled := s.stalled ++ [i] }, k⟩
  | derive {s s' : Store} {k : Kernel} {i : Nat} {n n' : Node} {es : List Equation} :
    s.nodes.get? i = some n →
    s' = (s.withNodes (Store.marked s.nodes i n (.decomposed es.length))).withChildren i es →
    s'.nodes.get? i = some n' →
    Turn ⟨.acting i (.derived es), s, k⟩ ⟨.idle, s'.withNodes
        (s'.nodes.set i { n' with children := range' s.nextId es.length }), k⟩
  | settle {s s' : Store} {k k' : Kernel} {owner : Owner} {out : Outcome} :
    Resolved owner out s k s' k' → Turn ⟨.settling owner out, s, k⟩ ⟨.idle, s', k'⟩

/-- A move marks nodes or is a turn. -/
theorem Move.marks_or_turn {c c' : Config} (h : Move c c') : Marks c c' ∨ Turn c c' := by
  have hmarks : ∀ {phase phase' : Phase} {s s' : Store} {k : Kernel}, Settles s.nodes s'.nodes →
      s' = { s with nodes := s'.nodes, ready := s'.ready } → (∀ i v, phase' ≠ .acting i v) →
      (∀ owner out, phase' = .settling owner out → ∃ i, Rooted s.nodes i owner) →
      Marks ⟨phase, s, k⟩ ⟨phase', s', k⟩ ∨ Turn ⟨phase, s, k⟩ ⟨phase', s', k⟩ := by
    intro phase phase' s s' k hnodes hsame hacting hsettling
    exact .inl ⟨hnodes, by rw [hsame], by rw [hsame], by rw [hsame], rfl, hacting, hsettling⟩
  have hroot : ∀ {s : Store} {i n owner owner' out outcome'}, s.nodes.get? i = some n →
      n.parent = .root owner → Phase.settling owner out = .settling owner' outcome' →
      ∃ i, Rooted s.nodes i owner' := by
    rintro s i n owner _ out _ hi hparent ⟨⟩
    exact ⟨i, n, hi, hparent⟩
  cases h with
  | step _ hi _ hstepped hstep => exact .inr (.step hi hstepped hstep)
  | wake => exact .inr (.wake _ _)
  | actStalled hi => exact .inr (.stall hi)
  | actDerived _ hi hs' hn' => exact .inr (.derive hi hs' hn')
  | settle hr => exact .inr (.settle hr)
  | skip | actSolved | actFailed =>
    exact hmarks (.refl _) rfl (fun _ _ => nofun) fun _ _ => nofun
  | solveRoot hi hparent hnodes | failRoot hi hparent hnodes =>
    subst hnodes
    exact hmarks ((settles_marked hi _ (by nofun)).trans (prunes_removeTree ..).settles) rfl
      (fun _ _ => nofun) fun _ _ => hroot hi hparent
  | solveChild hi _ hnodes hm =>
    subst hnodes
    refine hmarks ((settles_marked hi _ (by nofun)).trans (settles_marked hm _ (by nofun))) rfl
      (fun _ _ => ?_) fun _ _ => ?_ <;> split <;> exact nofun
  | solveIdle hi _ hnodes =>
    subst hnodes
    exact hmarks (settles_marked hi _ (by nofun)) rfl (fun _ _ => nofun) fun _ _ => nofun
  | failChild hi =>
    exact hmarks (settles_marked hi _ (by nofun)) rfl (fun _ _ => nofun) fun _ _ => nofun
  | giveUp hi hparent =>
    exact hmarks (prunes_removeTree ..).settles rfl (fun _ _ => nofun) fun _ _ =>
      hroot hi hparent

variable {owner : Owner} {out : Outcome} {s s' : Store} {k k' : Kernel}

/-! ### What settling leaves -/

section

variable (h : Resolved owner out s k s' k')
include h

/-- Other obligations are left alone. -/
theorem Resolved.get?_of_ne {id : Nat}
    (hid : owner.obligation ≠ id) : s'.obligations.get? id = s.obligations.get? id := by
  cases h with
  | condition | lastCondition =>
    rw [conditionStore_eq]
    dsimp only
    split <;> simp [without, get?_set, get?_erase, hid]
  | _ => simp [without, withObligation, withNode, get?_set, get?_erase, hid]

/-- What is live after a part of an obligation was settled. -/
theorem Resolved.of_get? {id : Nat} {o : Obligation} (ho : s'.obligations.get? id = some o) :
    owner.obligation ≠ id ∧ s.obligations.get? id = some o ∨
      owner.obligation = id ∧
        ((∃ a, o = .application a ∧ s.obligations.get? id = some o ∧ owner.slot = .main) ∨
          ∃ p outstanding, o = .rule (afterCondition p owner.slot out outstanding) ∧
            s.obligations.get? id = some (.rule p)) := by
  by_cases hid : owner.obligation = id
  · subst hid
    refine .inr ⟨rfl, ?_⟩
    cases h with
    | functionSolved ha hslot =>
      rw [withNode, withObligation, get?_set, if_pos rfl] at ho
      cases ho
      exact .inl ⟨_, rfl, ha, hslot⟩
    | condition hp | lastCondition hp =>
      simp only [conditionStore_eq] at ho
      split at ho
      · rw [get?_set, if_pos rfl] at ho
        cases ho
        exact .inr ⟨_, _, rfl, hp⟩
      · simp at ho
    | _ => simp at ho
  · exact .inl ⟨hid, (h.get?_of_ne hid).symm.trans ho⟩

/-- Settling a part of an obligation poses at most the equation of an argument. -/
theorem Resolved.nodes :
    Mutes s.nodes s'.nodes ∨
      ∃ a, s.obligations.get? owner.obligation = some (.application a) ∧ owner.slot = .main ∧
        out.isSolved ∧ s'.nodes =
          (s.withNode (argumentEquation a) (.root ⟨owner.obligation, .argument⟩)).nodes := by
  cases h with
  | equation | castFailed | applicationFailed =>
    rw [failedIf_eq]
    exact .inl (.refl _)
  | castSolved | argumentSolved => exact .inl (.refl _)
  | functionSolved ho hslot hsolved => exact .inr ⟨_, ho, hslot, hsolved, rfl⟩
  | condition | lastCondition =>
    exact .inl (mutes_conditionStore owner _ out _ (s.without owner.obligation))

/-- Settling records events, and may define an unknown or install a rule in between. -/
theorem Resolved.develops :
    (∃ journal, k' = { k with journal }) ∨
    (∃ o tele unknown value k1 id journal, s.obligations.get? owner.obligation = some o ∧
      Defines o owner.slot tele unknown value ∧
      Installed tele unknown value (beginning owner out k) k1 id ∧
      k' = { k1 with journal }) ∨
    ∃ p request installed k1 journal journal', s.obligations.get? owner.obligation =
      some (.rule p) ∧
      p.request = some request ∧ Committed request { k with journal } installed k1 ∧
      k' = { k1 with journal := journal' } := by
  cases h with
  | equation | castFailed | applicationFailed | condition => exact .inl ⟨_, rfl⟩
  | @castSolved c _ _ ho _ hi =>
    exact .inr (.inl ⟨_, _, _, _, _, _, _, ho, .cast c _, hi, rfl⟩)
  | @functionSolved a _ _ ho hslot _ hi =>
    exact .inr (.inl ⟨_, _, _, _, _, _, _, ho, hslot ▸ .function a, hi, rfl⟩)
  | @argumentSolved a _ _ ho hslot _ hi =>
    exact .inr (.inl ⟨_, _, _, _, _, _, _, ho, .argument a hslot, hi, rfl⟩)
  | lastCondition ho _ hdecides hcommit =>
    exact .inr (.inr ⟨_, _, _, _, _, _, ho, request_of_afterCondition hdecides.1, hcommit, rfl⟩)

end

private theorem ResolveStops.exists_journal {e : Stop} (h : ResolveStops owner out s k e k') :
    ∃ journal, k' = { k with journal } := by
  cases h with
  | missing => exact ⟨_, rfl⟩
  | overdrawn | drop => exact ⟨_, rfl⟩
  | install _ _ _ hstops =>
    obtain ⟨_, _, rfl | ⟨_, rfl⟩⟩ | ⟨_, _, rfl, _⟩ := hstops <;> exact ⟨_, rfl⟩
  | commit _ _ _ hstops =>
    obtain ⟨_, _, rfl⟩ | ⟨_, _, _, _, rfl, _⟩ := hstops <;> exact ⟨_, rfl⟩

end StoreM

/-! ### Contents -/

/-- What is said of the kernel, of the equations in the store and of its obligations, with what it
takes for moves to keep it. -/
structure Contents where
  Holds : Kernel → Prop
  /-- How the kernel develops. -/
  Leads : Kernel → Kernel → Prop
  Equates : Equation → Kernel → Prop
  Owes : Obligation → Kernel → Prop
  /-- What is said where the store stops. -/
  Stops : Kernel → Prop
  /-- Up to which number symbols may be made. -/
  Allows : Nat → Prop
  refl (k) : Leads k k
  trans {k1 k2 k3} : Leads k1 k2 → Leads k2 k3 → Leads k1 k3
  recorded {k} (journal : List Event) :
    Holds k → Holds { k with journal } ∧ Leads k { k with journal }
  equates_later {e k k'} : Holds k' → Leads k k' → Equates e k → Equates e k'
  owes_later {o k k'} : Holds k' → Leads k k' → Owes o k → Owes o k'
  muted {e k} (deduce : Bool) : Equates e k → Equates { e with deduce } k
  argument {a k} : Owes (.application a) k → Equates (StoreM.argumentEquation a) k
  condition {p q k} : Owes (.rule p) k → (∀ r, q.request = some r → p.request = some r) →
    Owes (.rule q) k
  defines {o slot tele unknown value k k' id} : Holds k → Owes o k →
    StoreM.Defines o slot tele unknown value → StoreM.Installed tele unknown value k k' id →
    Holds k' ∧ Leads k k'
  commits {p request k installed k'} : Holds k → Owes (.rule p) k → p.request = some request →
    StoreM.Committed request k installed k' → Holds k' ∧ Leads k k'
  step {e free k v left k'} : Holds k → Equates e k → Allows k'.nextSymbol →
    Solver.Stepped e free k v left k' →
    Solver.step e free k = .ok (v, left) k' →
    Holds k' ∧ Leads k k' ∧ ∀ es, v = .derived es → ∀ c ∈ es, Equates c k'
  stops {k} : Holds k → Stops k
  step_stops {e free k stop k'} : Holds k → Equates e k →
    Solver.step e free k = .error stop k' → Stops k'

namespace Contents

variable {C : Contents} {s s' : Store} {k k' : Kernel} {c c' : Config}

/-- It holds of the kernel and of everything in the store. -/
structure Within (C : Contents) (s : Store) (k : Kernel) : Prop where
  kernel : C.Holds k
  equations : ∀ {i n}, s.nodes.get? i = some n → C.Equates n.equation k
  obligations : ∀ {id o}, s.obligations.get? id = some o → C.Owes o k

namespace Within

section

variable (h : C.Within s k)
include h

/-- What the store holds stays in order. -/
theorem later (hk : C.Holds k') (hle : C.Leads k k') : C.Within s k' :=
  ⟨hk, fun hi => C.equates_later hk hle (h.equations hi),
    fun ho => C.owes_later hk hle (h.obligations ho)⟩

/-- The journal does not matter. -/
theorem recorded (journal : List Event) : C.Within s { k with journal } :=
  h.later (C.recorded journal h.kernel).1 (C.recorded journal h.kernel).2

/-- What is left of the store stays in order. -/
theorem inherits (hn : Inherits s.nodes s'.nodes)
    (ho : s'.obligations = s.obligations) : C.Within s' k where
  kernel := h.kernel
  equations {i n'} hi := by
    obtain ⟨n, hn, _, _, may, _, hequation⟩ := hn i n' hi
    rw [hequation]
    exact C.muted may (h.equations hn)
  obligations hid := h.obligations (ho ▸ hid)

private theorem withAll {es : List (Equation × Parent)}
    (hes : ∀ x ∈ es, C.Equates x.1 k) : C.Within (s.withAll es) k where
  kernel := h.kernel
  equations hi := by
    obtain hi | ⟨_, _, x, hx, rfl⟩ := of_get?_withAll hi
    · exact h.equations hi
    · exact hes x (mem_of_getElem? hx)
  obligations hid := h.obligations (by rwa [obligations_withAll] at hid)

/-- An obligation is posed. -/
theorem posing {o : Obligation} {es : List (Equation × Slot)} (ho : C.Owes o k)
    (hes : ∀ x ∈ es, C.Equates x.1 k) : C.Within (s.posing o es) k := by
  refine withAll (s := s.withPosed o) ⟨h.kernel, h.equations, fun {id o'} ho' => ?_⟩ fun x hx => ?_
  · rw [withPosed, get?_set] at ho'
    split at ho'
    · cases ho'
      exact ho
    · exact h.obligations ho'
  · obtain ⟨y, hy, rfl⟩ := mem_map.1 hx
    exact hes y hy

/-- Settling a part of an obligation keeps it. -/
theorem resolved {owner : Owner} {out : Outcome}
    (hr : Resolved owner out s k s' k') : C.Within s' k' ∧ C.Leads k k' := by
  have hkernel : C.Holds k' ∧ C.Leads k k' := by
    obtain ⟨_, rfl⟩ | ⟨o, _, _, _, k1, _, _, ho, hd, hi, rfl⟩ |
      ⟨p, _, _, k1, journal, _, ho, hp, hcommit, rfl⟩ := hr.develops
    · exact C.recorded _ h.kernel
    · have hbegin :=
        h.recorded (Event.settling owner.obligation owner.slot out.isSolved :: k.journal)
      obtain ⟨hk1, hle1⟩ := C.defines hbegin.kernel (hbegin.obligations ho) hd hi
      obtain ⟨hk', hle'⟩ := C.recorded _ hk1
      exact ⟨hk', C.trans (C.trans (C.recorded _ h.kernel).2 hle1) hle'⟩
    · have hbegin := h.recorded journal
      obtain ⟨hk1, hle1⟩ := C.commits hbegin.kernel (hbegin.obligations ho) hp hcommit
      obtain ⟨hk', hle'⟩ := C.recorded _ hk1
      exact ⟨hk', C.trans (C.trans (C.recorded _ h.kernel).2 hle1) hle'⟩
  obtain ⟨hk', hle⟩ := hkernel
  have h' := h.later hk' hle
  refine ⟨⟨hk', fun {i n} hi => ?_, fun ho => ?_⟩, hle⟩
  · obtain hmutes | ⟨a, ha, _, _, hnodes⟩ := hr.nodes
    · obtain ⟨m, hm, ⟨_, _, may, _, heq⟩, _⟩ := hmutes.settles i n hi
      rw [heq]
      exact C.muted may (h'.equations hm)
    · rw [hnodes, withNode, get?_set] at hi
      split at hi
      · cases hi
        exact C.argument (h'.obligations ha)
      · exact h'.equations hi
  · obtain ⟨_, ho⟩ | ⟨_, ⟨_, _, ho, _⟩ | ⟨p, _, rfl, hp⟩⟩ := hr.of_get? ho
    · exact h'.obligations ho
    · exact h'.obligations ho
    · exact C.condition (h'.obligations hp) fun _ => request_of_afterCondition

end

end Within

/-- It holds of everything in the store and of equations that were just derived. -/
structure Covers (C : Contents) (c : Config) : Prop where
  store : C.Within c.store c.kernel
  derived : ∀ i es, c.phase = .acting i (.derived es) → ∀ e ∈ es, C.Equates e c.kernel

private theorem Within.covers {phase : Phase} (h : C.Within s k)
    (hphase : ∀ i v, phase ≠ .acting i v) :
    C.Covers ⟨phase, s, k⟩ :=
  ⟨h, fun i _ hacting => absurd hacting (hphase i _)⟩

/-- Every move keeps it. -/
theorem Covers.move (hc : C.Covers c) (h : Move c c') (hallows : C.Allows c'.kernel.nextSymbol) :
    C.Covers c' ∧ C.Leads c.kernel c'.kernel := by
  obtain ⟨hs, hderived⟩ := hc
  obtain hmarks | hturn := h.marks_or_turn
  · obtain ⟨phase, s', k⟩ := c'
    cases hmarks.kernel
    exact ⟨(hs.inherits hmarks.nodes.inherits hmarks.obligations).covers hmarks.acting, C.refl _⟩
  cases hturn with
  | @step _ _ k1 i _ _ v _ hi hstepped hstep =>
    have hreached : C.Allows k1.nextSymbol := hallows
    obtain ⟨hk1, hle, hes⟩ := C.step hs.kernel (hs.equations hi) hreached hstepped hstep
    obtain ⟨hk', hle'⟩ := C.recorded (.stepped i v :: k1.journal) hk1
    have hle2 := C.trans hle hle'
    have hs' := hs.later hk' hle2
    refine ⟨⟨⟨hk', hs'.equations, hs'.obligations⟩, ?_⟩, hle2⟩
    rintro _ es ⟨⟩ e he
    exact C.equates_later hk' hle' (hes es rfl e he)
  | wake s k =>
    have hwoken :
      ∀ {k' : Kernel}, C.Within s k' → C.Covers ⟨.idle, s.woken k.rules.generation, k'⟩ :=
      fun h => (h.inherits (s.settles_woken _).inherits (s.obligations_woken _)).covers
        fun _ _ => nofun
    dsimp only
    split
    · exact ⟨hwoken (hs.recorded _), (C.recorded _ hs.kernel).2⟩
    · exact ⟨hwoken hs, C.refl _⟩
  | stall hi =>
    exact ⟨Within.covers (hs.inherits (inherits_marked hi _) rfl) fun _ _ => nofun, C.refl _⟩
  | @derive s s' k i n n' es hi hs' hn' =>
    have hmark : C.Within (s.withNodes (marked s.nodes i n (.decomposed es.length))) k :=
      hs.inherits (inherits_marked hi _) rfl
    have hall : C.Within s' k := by
      rw [hs']
      refine hmark.withAll fun x hx => ?_
      obtain ⟨e, he, rfl⟩ := mem_map.1 hx
      exact hderived i es rfl e he
    refine ⟨Within.covers ⟨hall.kernel, fun {j m} hj => ?_, hall.obligations⟩ fun _ _ => nofun,
      C.refl _⟩
    rw [withNodes, get?_set] at hj
    split at hj
    · cases hj
      exact hall.equations (n := n') hn'
    · exact hall.equations hj
  | settle hr =>
    obtain ⟨hs', hle⟩ := hs.resolved hr
    exact ⟨hs'.covers fun _ _ => nofun, hle⟩

private theorem Covers.moves (hall : ∀ n, C.Allows n) (hc : C.Covers c) (h : Moves c c') :
    C.Covers c' ∧ C.Leads c.kernel c'.kernel := by
  induction h with
  | refl => exact ⟨hc, C.refl _⟩
  | tail _ hmove ih =>
    obtain ⟨hc', hle⟩ := ih.1.move hmove (hall _)
    exact ⟨hc', C.trans ih.2 hle⟩

private theorem Covers.halt (hc : C.Covers c) {e : Stop} (h : Halt c e k') : C.Stops k' := by
  have hs := hc.store
  cases h with
  | step hi _ hstep => exact C.step_stops hs.kernel (hs.equations hi) hstep
  | settle hstops =>
    obtain ⟨_, rfl⟩ := hstops.exists_journal
    exact C.stops (C.recorded _ hs.kernel).1
  | _ => exact C.stops hs.kernel

/-! ### Actions -/

/-- Everything in the store is followed. -/
def regime (C : Contents) : Regime Stop Kernel Store where
  Holds s k := C.Within s k
  Leads _ k _ k' := C.Leads k k'
  Stops _ _ _ k' := C.Stops k'
  refl _ := C.refl _
  trans h h' := C.trans h h'
  stops _ h := h

section

variable (hall : ∀ n, C.Allows n)
include hall

private theorem keeps_of_rests {x : StoreM Unit}
    (hn : Inherits s.nodes s'.nodes) (ho : s'.obligations = s.obligations)
    (hx : EndsWith x s k (fun _ => Rests ⟨.idle, s', k⟩) (Stuck ⟨.idle, s', k⟩)) :
    C.regime.Keeps x s k fun _ _ _ => True := by
  intro hs
  have hc : C.Covers ⟨.idle, s', k⟩ := (hs.inherits hn ho).covers fun _ _ => nofun
  refine hx.mono (fun _ s1 k1 hrests => ?_) fun e k1 ⟨c', hmoves, hhalt⟩ => ?_
  · obtain ⟨hc', hle⟩ := hc.moves hall hrests
    exact ⟨hc'.store, hle, trivial⟩
  · exact (hc.moves hall hmoves).1.halt hhalt

theorem keeps_run : C.regime.Keeps run s k fun _ _ _ => True :=
  keeps_of_rests hall (.refl _) rfl (ends_run s k)

theorem keeps_wakeIfRulesChanged : C.regime.Keeps wakeIfRulesChanged s k fun _ _ _ => True :=
  keeps_of_rests hall (.refl _) rfl (ends_wakeIfRulesChanged s k)

/-- An equation is looked at, whichever it is. -/
theorem keeps_process (i : Nat) : C.regime.Keeps (process i) s k fun _ _ _ => True := by
  have hends := ends_process (s := { s with ready := i :: s.ready }) (k := k) rfl
  have hnodes : Inherits s.nodes { s with ready := i :: s.ready }.nodes := .refl _
  exact keeps_of_rests hall hnodes rfl hends

end

private theorem keeps_resolve (owner : Owner) (out : Outcome) :
    C.regime.Keeps (resolve owner out) s k fun _ _ _ => True := by
  intro hs
  refine (ends_resolve owner out s k).mono (fun _ s' k' hr => ?_) fun e k' hstops => ?_
  · obtain ⟨hs', hle⟩ := Within.resolved hs hr
    exact ⟨hs', hle, trivial⟩
  · obtain ⟨_, rfl⟩ := hstops.exists_journal
    exact C.stops (C.recorded _ hs.kernel).1

private theorem keeps_closeRoots (roots : List (Nat × Owner)) :
    C.regime.Keeps (closeRoots roots) s k fun _ _ _ => True := by
  induction roots generalizing s k with
  | nil => exact .pure fun _ => trivial
  | cons r roots ih =>
    have hremove : C.regime.Keeps (removeTree r.1) s k fun _ _ _ => True := fun hs =>
      ⟨Within.inherits hs (prunes_removeTree ..).settles.inherits rfl, C.refl _, trivial⟩
    refine .get_bind ?_
    dsimp only
    split
    · exact .bind hremove fun _ _ _ _ _ _ _ => .bind (keeps_resolve _ _) fun _ _ _ _ _ _ _ => ih
    · exact ih

theorem keeps_close : C.regime.Keeps close s k fun _ _ _ => True := by
  refine .get_bind (.bind (keeps_closeRoots _) fun _ s1 k1 _ _ _ _ hs => ?_)
  obtain ⟨hk', hle⟩ := C.recorded (.closed (closed s1).failed :: k1.journal) hs.kernel
  exact ⟨⟨hk', nofun, nofun⟩, hle, trivial⟩

theorem keeps_registerIndeterminate (t : Term) :
    C.regime.Keeps (registerIndeterminate t) s k fun _ _ _ => True := by
  intro hs
  unfold registerIndeterminate
  split
  · exact ⟨hs.inherits (.refl _) rfl, C.refl _, trivial⟩
  · exact C.stops hs.kernel

theorem keeps_pose {x : StoreM Nat} {o : Obligation} {es : List (Equation × Slot)}
    (hx : ∀ {Q X}, EndsWith x s k Q X ↔ Q s.nextId (s.posing o es) k) (ho : C.Owes o k)
    (hes : ∀ y ∈ es, C.Equates y.1 k) : C.regime.Keeps x s k fun _ _ _ => True :=
  fun hs => hx.2 ⟨hs.posing ho hes, C.refl _, trivial⟩

end Contents
end Elaboration
