import Elaboration.Proofs.Obligation.WellFormed

/-!
# Requests to the store

Clients pose obligations, allow declarations to be defined, let the store run and close it. A store
that is reached by requests is in order, whatever the kernel is in between.
-/

namespace Elaboration

open EndsWith List

/-- What a client asks of the store. -/
inductive Request where
  | equation (e : Equation)
  | cast (c : Cast)
  | application (a : Application)
  | rule (r : RuleRequest)
  | indeterminate (t : Term)
  | run
  | close

/-- What the store does about it. -/
def Request.perform : Request → StoreM Unit
  | equation e => do let _ ← StoreM.poseEquation e
  | cast c => do let _ ← StoreM.poseCast c
  | application a => do let _ ← StoreM.poseApplication a
  | rule r => do let _ ← StoreM.poseRule r
  | indeterminate t => StoreM.registerIndeterminate t
  | run => StoreM.run
  | close => StoreM.close

namespace Store

variable {s : Store} {i : Nat} {owner : Owner} {o : Obligation} {es : List (Equation × Slot)}

/-! ### Posing -/

/-- The store with one more obligation. -/
def withPosed (s : Store) (o : Obligation) : Store :=
  { s with obligations := s.obligations.set s.nextId o, nextId := s.nextId + 1 }

/-- The store with one more obligation and its roots (as `register_…` leaves it). -/
def posing (s : Store) (o : Obligation) (es : List (Equation × Slot)) : Store :=
  (s.withPosed o).withAll (es.map fun x => (x.1, .root ⟨s.nextId, x.2⟩))

/-- The obligation that was posed has the next number. -/
theorem get?_posing (s : Store) (o : Obligation) (es : List (Equation × Slot)) (id : Nat) :
    (s.posing o es).obligations.get? id =
      if s.nextId = id then some o else s.obligations.get? id := by
  rw [posing, obligations_withAll]
  exact Table.get?_set ..

/-- Which declarations may be defined does not matter for the order. -/
theorem WellFormed.withIndeterminates (h : WellFormed none none none s)
    (free : Indeterminates) : WellFormed none none none { s with indeterminates := free } :=
  ⟨h.keys, h.trees, h.queued.congr rfl rfl rfl fun _ n hi => ⟨n, hi, .rfl, .rfl⟩,
    h.posed.congr (fun _ _ => .rfl) rfl le_rfl⟩

theorem rooted_posing (es : List (Equation × Slot)) :
    Rooted (s.posing o es).nodes i owner →
      Rooted s.nodes i owner ∨ s.nextId + 1 ≤ i ∧
        ∃ x, es[i - (s.nextId + 1)]? = some x ∧ owner = ⟨s.nextId, x.2⟩ := by
  rintro ⟨n, hn, hroot⟩
  obtain hn | ⟨hle, _, x, hx, rfl⟩ := of_get?_withAll hn
  · exact .inl ⟨n, hn, hroot⟩
  · rw [getElem?_map] at hx
    obtain ⟨y, hy, rfl⟩ := Option.map_eq_some_iff.1 hx
    cases hroot
    exact .inr ⟨hle, y, hy, rfl⟩

private theorem rooted_posing_new {t : Nat} {x : Equation × Slot}
    (hx : es[t]? = some x) : Rooted (s.posing o es).nodes (s.nextId + 1 + t) ⟨s.nextId, x.2⟩ := by
  have hlt : t < es.length := (List.getElem?_eq_some_iff.1 hx).1
  refine ⟨⟨x.1, .ready, .root ⟨s.nextId, x.2⟩, []⟩, ?_, rfl⟩
  have hnext : (s.withPosed o).nextId = s.nextId + 1 := rfl
  rw [posing, get?_withAll, hnext, if_pos (by simpa using hlt), Nat.add_sub_cancel_left,
    getElem?_map, hx]
  rfl

/-- Posing an obligation with a root for each part that it waits for keeps the store in order. -/
theorem WellFormed.posing (h : WellFormed none none none s)
    (hw : Waits o (es.map Prod.snd)) (hnodup : (es.map Prod.snd).Nodup) :
    WellFormed none none none (s.posing o es) := by
  have hfresh : ∀ j m, s.nodes.get? j = some m → j < s.nextId + 1 :=
    fun j m hj => Nat.lt_succ_of_lt (h.queued.fresh j m hj)
  have hnext : s.nextId + 1 ≤ (s.posing o es).nextId := by
    rw [Store.posing, nextId_withAll]
    exact Nat.le_add_right _ _
  -- no root was there for the new obligation
  have hnew : ∀ {i slot}, Rooted (s.posing o es).nodes i ⟨s.nextId, slot⟩ →
      s.nextId + 1 ≤ i ∧ ∃ x, es[i - (s.nextId + 1)]? = some x ∧ slot = x.2 := by
    intro i slot hi
    obtain hi | ⟨hle, x, hx, heq⟩ := rooted_posing es hi
    · obtain ⟨o', ho'⟩ := h.posed.owned hi
      exact absurd (h.posed.made ho') (lt_irrefl _)
    · exact ⟨hle, x, hx, congrArg Owner.slot heq⟩
  refine ⟨nodup_keys_withAll (s := s.withPosed o) h.keys _, ?_, ?_, ?_⟩
  · refine Trees.withRoots (s := s.withPosed o) h.trees hfresh _ fun x hx => ?_
    obtain ⟨y, _, rfl⟩ := mem_map.1 hx
    exact ⟨_, rfl⟩
  · refine Queued.withAll ?_ _
    exact ⟨hfresh, fun j hj => Nat.lt_succ_of_lt (h.queued.ready_lt j hj),
      fun j hj => Nat.lt_succ_of_lt (h.queued.stalled_lt j hj), h.queued.ready, h.queued.stalled⟩
  · refine h.posed.update s.nextId (fun _ h' => nomatch h') (Nat.le_of_succ_le hnext) hnext
      ?_ ?_ ?_ ?_ ?_
    · intro id' hne
      rw [get?_posing, if_neg (Ne.symm hne)]
    · intro i owner hne
      constructor
      · intro hi
        obtain hi | ⟨_, x, _, rfl⟩ := rooted_posing es hi
        · exact hi
        · exact absurd rfl hne
      · rintro ⟨n, hn, hroot⟩
        have hlt : i < (s.withPosed o).nextId := hfresh i n hn
        exact ⟨n, (get?_withAll_of_lt hlt _).trans hn, hroot⟩
    · intro i slot _
      exact ⟨o, by rw [get?_posing, if_pos rfl]⟩
    · intro i j slot hi hj
      obtain ⟨hle, x, hx, hslot⟩ := hnew hi
      obtain ⟨hle', y, hy, hslot'⟩ := hnew hj
      have hindex : i - (s.nextId + 1) < (es.map Prod.snd).length := by
        rw [length_map]
        exact (List.getElem?_eq_some_iff.1 hx).1
      have hsame :
        (es.map Prod.snd)[i - (s.nextId + 1)]? = (es.map Prod.snd)[j - (s.nextId + 1)]? := by
        simp only [getElem?_map, hx, hy, Option.map_some, ← hslot, ← hslot']
      have hoffset := (getElem?_inj hindex hnodup).1 hsame
      omega
    · intro o' ho'
      rw [get?_posing, if_pos rfl] at ho'
      cases ho'
      refine ⟨_, hw, fun slot => ?_⟩
      constructor
      · intro hslot
        obtain ⟨x, hx, rfl⟩ := mem_map.1 hslot
        obtain ⟨t, ht⟩ := mem_iff_getElem?.1 hx
        exact ⟨_, rooted_posing_new ht⟩
      · rintro ⟨i, hi⟩
        obtain ⟨_, x, hx, rfl⟩ := hnew hi
        exact mem_map_of_mem (mem_of_getElem? hx)

end Store

namespace StoreM

open Store

variable {s : Store} {k : Kernel}

variable {Q : Nat → Store → Kernel → Prop} {X : Stop → Kernel → Prop} {r : RuleRequest}

/-- How posing an equation ends. -/
theorem ends_poseEquation {e : Equation} :
    EndsWith (poseEquation e) s k Q X ↔ Q s.nextId (s.posing .equation [(e, .main)]) k := .rfl

/-- How posing a cast ends. -/
theorem ends_poseCast {c : Cast} : EndsWith (poseCast c) s k Q X ↔ Q s.nextId (s.posing (.cast c)
      [(⟨c.sourceType, c.targetType, c.telescope, true⟩, .main)]) k := .rfl

/-- How posing an application ends. -/
theorem ends_poseApplication {a : Application} :
    EndsWith (poseApplication a) s k Q X ↔ Q s.nextId (s.posing (.application a)
      [(⟨a.functionType, a.expectedFunctionType, a.telescope, true⟩, .main)]) k := .rfl

/-- The equations of a rule's checks, numbered from `index` on. -/
def checkEquations (tele : Telescope) : Nat → List (Term × Term) → List (Equation × Slot)
  | _, [] => []
  | index, (lhs, rhs) :: rest =>
    (⟨lhs, rhs, tele, true⟩, .check index) :: checkEquations tele (index + 1) rest

/-- The equations of a rule's side conditions. -/
def conditions (r : RuleRequest) : List (Equation × Slot) :=
  checkEquations r.telescope 0 r.checks ++
    [(⟨r.patternType, r.replacementType, r.telescope, true⟩, .replacementType)]

/-- What a rule's derivation starts with. -/
def ruleProgress (r : RuleRequest) : RuleProgress :=
  ⟨some r, r.checks.map fun _ => true, true, true, r.checks.length + 1⟩

private theorem ends_addChecks (tele : Telescope) (id index : Nat) (checks : List (Term × Term))
    (s : Store) (k : Kernel) {Q : Unit → Store → Kernel → Prop} :
    EndsWith (addChecks tele id index checks) s k Q X ↔ Q () (s.withAll
      ((checkEquations tele index checks).map fun x => (x.1, .root ⟨id, x.2⟩))) k := by
  induction checks generalizing s index with
  | nil => exact .rfl
  | cons x rest ih =>
    unfold addChecks
    rw [bind_iff, ends_addRoot]
    exact ih (index + 1) _

/-- How posing a rule ends. -/
theorem ends_poseRule : EndsWith (poseRule r) s k Q X ↔
      Q s.nextId (s.posing (.rule (ruleProgress r)) (conditions r)) k := by
  have hsplit : s.posing (.rule (ruleProgress r)) (conditions r) =
      ((s.withPosed (.rule (ruleProgress r))).withAll ((checkEquations r.telescope 0 r.checks).map
        fun x => (x.1, .root ⟨s.nextId, x.2⟩))).withNode
          ⟨r.patternType, r.replacementType, r.telescope, true⟩
          (.root ⟨s.nextId, .replacementType⟩) := by
    rw [posing, conditions, map_append, Store.withAll, foldl_append]
    rfl
  unfold poseRule
  rw [bind_iff]
  change EndsWith _ (s.withPosed (.rule (ruleProgress r))) k Q X ↔ _
  rw [bind_iff, ends_addChecks, hsplit]
  exact .rfl

/-- A rule's side conditions are its checks and the equation of its types. -/
theorem exists_of_mem_conditions {x : Equation × Slot} (hx : x ∈ conditions r) :
    ∃ c ∈ (r.patternType, r.replacementType) :: r.checks, x.1 = ⟨c.1, c.2, r.telescope, true⟩ := by
  have hchecks : ∀ (index : Nat) (checks : List (Term × Term)),
      ∀ x ∈ checkEquations r.telescope index checks,
        ∃ c ∈ checks, x.1 = ⟨c.1, c.2, r.telescope, true⟩ := by
    intro index checks
    induction checks generalizing index with
    | nil => exact nofun
    | cons c rest ih =>
      refine forall_mem_cons.2 ⟨⟨c, mem_cons_self, rfl⟩, fun x hx => ?_⟩
      obtain ⟨c', hc', heq⟩ := ih _ x hx
      exact ⟨c', mem_cons_of_mem _ hc', heq⟩
  rcases mem_append.1 hx with hx | hx
  · obtain ⟨c, hc, heq⟩ := hchecks _ _ x hx
    exact ⟨c, mem_cons_of_mem _ hc, heq⟩
  · cases mem_singleton.1 hx
    exact ⟨_, mem_cons_self, rfl⟩

/-- The checks of a rule are numbered in order. -/
theorem map_snd_checkEquations (tele : Telescope) (index : Nat) (checks : List (Term × Term)) :
    (checkEquations tele index checks).map Prod.snd =
      (range' index checks.length).map Slot.check := by
  induction checks generalizing index with
  | nil => rfl
  | cons x rest ih => simp [checkEquations, range'_succ, ih]

/-- A rule waits for its checks and for the equation of the types. -/
theorem openSlots_ruleProgress (r : RuleRequest) :
    (conditions r).map Prod.snd = openSlots (ruleProgress r) := by
  have hall : ((range (r.checks.map fun _ => true).length).filter fun i =>
      (r.checks.map fun _ => true)[i]?.getD false) = range r.checks.length := by
    rw [length_map, filter_eq_self]
    intro i hi
    simp [mem_range.1 hi]
  rw [conditions, map_append, map_snd_checkEquations, openSlots, ruleProgress]
  dsimp only
  rw [hall, range_eq_range']
  rfl

private theorem waits_ruleProgress (r : RuleRequest) :
    Waits (.rule (ruleProgress r)) ((conditions r).map Prod.snd) := by
  rw [openSlots_ruleProgress]
  refine .rule _ ?_ (Nat.succ_pos _)
  rw [← openSlots_ruleProgress, conditions, map_append, map_snd_checkEquations]
  simp [ruleProgress]

end StoreM

/-- The obligation that a request poses, with the equations of the parts that it waits for first. -/
def Request.obligation? : Request → Option (Obligation × List (Equation × Slot))
  | equation e => some (.equation, [(e, .main)])
  | cast c => some (.cast c, [(⟨c.sourceType, c.targetType, c.telescope, true⟩, .main)])
  | application a =>
    some (.application a, [(⟨a.functionType, a.expectedFunctionType, a.telescope, true⟩, .main)])
  | rule r => some (.rule (StoreM.ruleProgress r), StoreM.conditions r)
  | _ => none

theorem Request.waits {r : Request} {o : Obligation} {es : List (Equation × Slot)}
    (h : r.obligation? = some (o, es)) :
    Store.Waits o (es.map Prod.snd) ∧ (es.map Prod.snd).Nodup := by
  cases r with
  | equation e =>
    cases h
    exact ⟨.equation, nodup_singleton _⟩
  | cast c =>
    cases h
    exact ⟨.cast c, nodup_singleton _⟩
  | application a =>
    cases h
    exact ⟨.function a, nodup_singleton _⟩
  | rule r =>
    cases h
    refine ⟨StoreM.waits_ruleProgress r, ?_⟩
    rw [StoreM.openSlots_ruleProgress]
    exact Store.nodup_openSlots _
  | _ => cases h

namespace StoreM

variable {s : Store} {k : Kernel}

/-- Posing an obligation changes the store only, and never stops. -/
theorem ends_pose {r : Request} {o : Obligation} {es : List (Equation × Slot)}
    (h : r.obligation? = some (o, es)) {Q : Unit → Store → Kernel → Prop}
      {X : Stop → Kernel → Prop} :
    EndsWith r.perform s k Q X ↔ Q () (s.posing o es) k := by
  cases r with
  | equation e =>
    cases h
    rw [Request.perform, bind_iff, ends_poseEquation]
    exact .rfl
  | cast c =>
    cases h
    rw [Request.perform, bind_iff, ends_poseCast]
    exact .rfl
  | application a =>
    cases h
    rw [Request.perform, bind_iff, ends_poseApplication]
    exact .rfl
  | rule r =>
    cases h
    rw [Request.perform, bind_iff, ends_poseRule]
    exact .rfl
  | _ => cases h

/-! ### Performing requests -/

/-- How registering an indeterminate ends. -/
theorem ends_registerIndeterminate (t : Term) (s : Store) (k : Kernel) :
    EndsWith (registerIndeterminate t) s k
      (fun _ s' k' => k' = k ∧ ∃ id, t = .decl id ∧ s' = { s with
        indeterminates := if id ∈ s.indeterminates then s.indeterminates
          else id :: s.indeterminates })
      fun e k' => k' = k ∧ e = .violation (.notIndeterminate t) := by
  unfold registerIndeterminate
  split
  · exact ⟨rfl, _, rfl, rfl⟩
  · exact ⟨rfl, rfl⟩

/-- Moves keep the store in order. -/
theorem Moves.ordered {c c' : Config} (h : Moves c c') (hc : c.Ordered) : c'.Ordered := by
  induction h with
  | refl => exact hc
  | tail _ hmove ih => exact hmove.ordered ih

private theorem Stuck.not_ofStore {c : Config} {e : Stop} {k' : Kernel} (h : Stuck c e k')
    (hc : c.Ordered) : e.ofStore = false := by
  obtain ⟨c', hmoves, hhalt⟩ := h
  exact hhalt.not_ofStore (hmoves.ordered hc)

/-- A request leaves the store in order, or stops for another reason. -/
theorem ends_perform (r : Request) (h : s.WellFormed none none none) :
    EndsWith r.perform s k (fun _ s' _ => s'.WellFormed none none none)
      fun e _ => e.ofStore = false := by
  have hidle : Config.Ordered ⟨.idle, s, k⟩ := h
  have hpose : ∀ {o es}, r.obligation? = some (o, es) →
      EndsWith r.perform s k (fun _ s' _ => s'.WellFormed none none none)
        fun e _ => e.ofStore = false := by
    intro o es hr
    rw [ends_pose hr]
    exact h.posing (Request.waits hr).1 (Request.waits hr).2
  cases r with
  | equation | cast | application | rule => exact hpose rfl
  | indeterminate t =>
    refine (ends_registerIndeterminate t s k).mono ?_ ?_
    · rintro _ s' k' ⟨_, id, _, rfl⟩
      exact h.withIndeterminates _
    · rintro e k' ⟨_, rfl⟩
      rfl
  | run =>
    refine (ends_run s k).mono (fun _ s' k' hrest => ?_) fun e k' hstuck => hstuck.not_ofStore hidle
    exact Moves.ordered hrest hidle
  | close =>
    refine (ends_close h.keys h.queued.fresh).mono ?_ fun e k' hstuck => hstuck.not_ofStore hidle
    rintro _ s' k' ⟨s1, k1, _, rfl, _⟩
    exact Store.wellFormed_empty rfl rfl rfl rfl

/-- What a request has done. -/
inductive Done (s : Store) (k : Kernel) (s' : Store) (k' : Kernel) : Request → Prop where
  | pose {r : Request} {o : Obligation} {es : List (Equation × Slot)} :
    r.obligation? = some (o, es) → s' = s.posing o es → k' = k → Done s k s' k' r
  | register {id : Nat} : s' = { s with
      indeterminates :=
        if id ∈ s.indeterminates then s.indeterminates else id :: s.indeterminates } →
    k' = k → Done s k s' k' (.indeterminate (.decl id))
  | run : Rests ⟨.idle, s, k⟩ s' k' → Done s k s' k' .run
  | close {s1 : Store} {k1 : Kernel} : Rests ⟨.idle, s, k⟩ s1 k1 → s' = closed s1 →
    k' = k1.noted (.closed s'.failed) → Done s k s' k' .close

/-- What is performed on a store in order. -/
theorem done_of_perform {s s' : Store} {k k' : Kernel} {r : Request}
    (hs : s.WellFormed none none none) (h : r.perform s k = .ok ((), s') k') :
      Done s k s' k' r := by
  have hpose : ∀ {o es}, r.obligation? = some (o, es) → Done s k s' k' r := by
    intro o es hr
    have hends :
      EndsWith r.perform s k (fun _ s' k' => s' = s.posing o es ∧ k' = k) fun _ _ => True :=
      (ends_pose hr).2 ⟨rfl, rfl⟩
    exact .pose hr (hends.of_ok h).1 (hends.of_ok h).2
  cases r with
  | equation | cast | application | rule => exact hpose rfl
  | indeterminate t =>
    obtain ⟨hk, _, rfl, hs'⟩ := (ends_registerIndeterminate t s k).of_ok h
    exact .register hs' hk
  | run => exact .run ((ends_run s k).of_ok h)
  | close =>
    obtain ⟨_, _, hrests, hs', hk⟩ := (ends_close hs.keys hs.queued.fresh).of_ok h
    exact .close hrests hs' hk

end StoreM

namespace Store

/-- The stores that clients reach by requests, the kernel being another one at each. -/
inductive Reachable : Store → Prop where
  | initial (k : Kernel) : Reachable (initial k)
  | perform {s s' : Store} {k k' : Kernel} (r : Request) : Reachable s →
    r.perform s k = .ok ((), s') k' → Reachable s'

theorem Reachable.wellFormed {s : Store} (h : Reachable s) : s.WellFormed none none none := by
  induction h with
  | initial k => exact wellFormed_empty rfl rfl rfl rfl
  | perform r _ hr ih => exact (StoreM.ends_perform r ih).of_ok hr

end Store

/-- Number of the parts that an obligation waits for. -/
def Obligation.waitsFor : Obligation → Nat
  | .rule p => p.outstanding
  | _ => 1

namespace Store

variable {s : Store} {nodes : Table Node} {id : Nat} {o : Obligation} {slots : List Slot}

/-! ### Counting roots -/

private theorem Waits.length (h : Waits o slots) :
    slots.length = o.waitsFor ∧ 0 < o.waitsFor := by
  cases h with
  | rule p hlength hpos => exact ⟨hlength.symm, hpos⟩
  | _ => exact ⟨rfl, Nat.one_pos⟩

private theorem Waits.nodup (h : Waits o slots) : slots.Nodup := by
  cases h with
  | rule p => exact nodup_openSlots p
  | _ => exact nodup_singleton _

/-- A kernel with two unknowns. -/
def twoUnknowns : Kernel :=
  { Kernel.initial with
    nextSymbol := Primitive.count + 2
    rules := (Kernel.initial.rules.register 10).register 11
    contexts := #[.empty] }

/-- The equation `arrow (arrow Type) x = arrow (arrow Type) y` between unknowns: the first arguments
are the same, the others stall. -/
def partlySolved : Equation where
  lhs := .app (.app Primitive.arrow (.app Primitive.arrow Primitive.type)) (.decl 10)
  rhs := .app (.app Primitive.arrow (.app Primitive.arrow Primitive.type)) (.decl 11)
  telescope := ⟨[], Primitive.type, Primitive.identity, 0⟩
  deduce := true

end Store
end Elaboration
