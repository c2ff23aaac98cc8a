import Elaboration.Proofs.Equalities.Sound
import Elaboration.Telescope.Scope

/-!
# What actions of the kernel do

The kernel's state only grows: symbols are made, rules are added and none is changed, and local
equality contexts evolve. What the kernel does is described action by action, below a telescope too;
the order `Grows` is what all of it has in common.
-/

namespace Elaboration

variable {j j' : List Event}

open Ends Equalities Kernel List RuleTable

/-- The events that settling obligations records. -/
def Event.ofObligation : Event → Bool
  | .waking _ => true
  | .stepped _ _ => true
  | .settling _ _ _ => true
  | .ruleDropped _ => true
  | .ruleOvertaken _ => true
  | .ruleCommitted _ => true
  | .castInstalled _ _ => true
  | .closed _ => true
  | .settled _ => true
  | _ => false

/-- A journal grew, by events that are not of obligations. -/
def Quiet (journal journal' : List Event) : Prop :=
  ∃ new : List Event, journal' = new ++ journal ∧ ∀ e ∈ new, e.ofObligation = false

/-- Nothing is recorded. -/
theorem Quiet.refl (journal : List Event) : Quiet journal journal := ⟨[], rfl, by simp⟩

/-- Quiet journals add up. -/
theorem Quiet.trans {j1 j2 j3 : List Event} (h : Quiet j1 j2) (h' : Quiet j2 j3) : Quiet j1 j3 :=
  exists_append_trans h h'

/-- An event that is not of obligations is quiet. -/
theorem quiet_cons {e : Event} (he : e.ofObligation = false) (journal : List Event) :
    Quiet journal (e :: journal) :=
  ⟨[e], rfl, by simpa using he⟩

private theorem Equalities.Noted.quiet (h : Noted j j') : Quiet j j' := by
  obtain ⟨new, rfl, hnew⟩ := h
  refine ⟨new, rfl, fun e he => ?_⟩
  have := hnew e he
  cases e <;> simp_all [Event.ofContext, Event.ofObligation]

/-- Events of obligations are those that were there before. -/
theorem Quiet.mem_iff (h : Quiet j j') {e : Event} (he : e.ofObligation) :
    e ∈ j' ↔ e ∈ j := by
  obtain ⟨new, rfl, hnew⟩ := h
  rw [mem_append, or_iff_right]
  intro hmem
  rw [hnew e hmem] at he
  cases he

namespace Kernel

/-- A local equality context; one that does not exist is empty. -/
def equalities (k : Kernel) (c : Nat) : Equalities := k.contexts[c]?.getD .empty

/-- The later state has all symbols and rules of the earlier one. -/
structure Expands (k k' : Kernel) : Prop where
  symbols : k.nextSymbol ≤ k'.nextSymbol
  rules : k.rules.Sub k'.rules
  registered : ∀ id ∈ k.rules.registered, id ∈ k'.rules.registered

/-- The later state has all symbols and rules of the earlier one, and no other answers. -/
structure Extends (k k' : Kernel) : Prop where
  symbols : k.nextSymbol ≤ k'.nextSymbol
  rules : k.rules.Sub k'.rules
  registered : ∀ id ∈ k.rules.registered, id ∈ k'.rules.registered
  quiet : Quiet k.journal k'.journal

/-- The later state expands the earlier one, and every local equality context that is sound under
the later rules has evolved. -/
structure Grows (k k' : Kernel) : Prop extends Expands k k' where
  contexts : k.contexts.size ≤ k'.contexts.size
  evolves : ∀ c < k.contexts.size, ∀ p E, (∀ i, ¬ p (.placeholder i)) → k'.rules.Over p →
    LocalTheory k'.rules E → Equalities.Sound p E (k.equalities c) →
    Equalities.Sound p E (k'.equalities c) ∧ Equalities.Evolves E (k.equalities c) (k'.equalities c)

/-- The later state has the same symbols and rules as the earlier one, and no other answers. -/
structure Calm (k k' : Kernel) : Prop where
  symbols : k'.nextSymbol = k.nextSymbol
  rules : k'.rules = k.rules
  quiet : Quiet k.journal k'.journal

variable {k k' k'' : Kernel}

/-- Nothing happens. -/
theorem Calm.refl (k : Kernel) : Calm k k := ⟨rfl, rfl, .refl _⟩

/-- Calm adds up. -/
theorem Calm.trans (h : Calm k k') (h' : Calm k' k'') : Calm k k'' :=
  ⟨h'.symbols.trans h.symbols, h'.rules.trans h.rules, h.quiet.trans h'.quiet⟩

/-- Calm states extend. -/
theorem Calm.extends (h : Calm k k') : Extends k k' :=
  ⟨h.symbols.symm.le, h.rules ▸ .refl _, fun _ hid => h.rules ▸ hid, h.quiet⟩

/-- Nothing is added. -/
theorem Extends.refl (k : Kernel) : Extends k k :=
  ⟨le_rfl, .refl _, fun _ h => h, .refl _⟩

/-- Extensions add up. -/
theorem Extends.trans (h : Extends k k') (h' : Extends k' k'') : Extends k k'' :=
  ⟨h.symbols.trans h'.symbols, h.rules.trans h'.rules,
    fun id hid => h'.registered id (h.registered id hid), h.quiet.trans h'.quiet⟩

theorem Extends.expands (h : Extends k k') : Expands k k' := ⟨h.symbols, h.rules, h.registered⟩

/-- Nothing is added. -/
theorem Expands.refl (k : Kernel) : Expands k k := (Extends.refl k).expands

private theorem Expands.trans (h : Expands k k') (h' : Expands k' k'') : Expands k k'' :=
  ⟨h.symbols.trans h'.symbols, h.rules.trans h'.rules,
    fun id hid => h'.registered id (h.registered id hid)⟩

/-- Expansion is growth where contexts are left. -/
theorem Expands.grows (h : Expands k k') (hc : k'.contexts = k.contexts) : Grows k k' where
  toExpands := h
  contexts := Nat.le_of_eq (by rw [hc])
  evolves c _ p E _ _ hE hs := by
    have : k'.equalities c = k.equalities c := by rw [equalities, hc, equalities]
    rw [this]
    exact ⟨hs, .refl hE.toCongruence _⟩

/-- Extension is growth where contexts are left. -/
theorem Extends.grows (h : Extends k k') (hc : k'.contexts = k.contexts) : Grows k k' :=
  h.expands.grows hc

/-- Nothing happens. -/
theorem Grows.refl (k : Kernel) : Grows k k := (Expands.refl k).grows rfl

/-- Growth adds up. -/
theorem Grows.trans (h : Grows k k') (h' : Grows k' k'') : Grows k k'' where
  toExpands := h.toExpands.trans h'.toExpands
  contexts := h.contexts.trans h'.contexts
  evolves c hc p E hp hR hE hs := by
    have hR' : k'.rules.Over p := fun id r hr => hR id r (h'.rules id r hr)
    obtain ⟨hs', hev⟩ := h.evolves c hc p E hp hR' (hE.of_sub h'.rules) hs
    obtain ⟨hs'', hev'⟩ := h'.evolves c (hc.trans_le h.contexts) p E hp hR hE hs'
    exact ⟨hs'', hev.trans hE.toCongruence hev'⟩

/-- Rules are known by their heads: none has a head that is not made yet. -/
def RulesMade (k : Kernel) : Prop := ∀ id r, k.rules.ruleFor? id = some r → id < k.nextSymbol

/-- Registered declarations and those with rules are made. -/
structure Made (k : Kernel) : Prop where
  registered : ∀ id ∈ k.rules.registered, id < k.nextSymbol
  ruled : k.RulesMade

/-- A symbol was made between the two states. -/
def New (k k' : Kernel) (id : Nat) : Prop := k.nextSymbol ≤ id ∧ id < k'.nextSymbol

/-- Besides what was there, only new declarations are registered and only these and declarations in
`old` have rules. -/
structure Adds (old : Nat → Prop) (k k' : Kernel) : Prop where
  registered : ∀ id ∈ k'.rules.registered, id ∈ k.rules.registered ∨ New k k' id
  ruled : ∀ id r, k'.rules.ruleFor? id = some r →
    k.rules.ruleFor? id = some r ∨ old id ∨ New k k' id

variable {old old' : Nat → Prop}

/-- The same rules add none. -/
theorem Adds.of_same (h : k'.rules = k.rules) : Adds old k k' :=
  ⟨fun _ hid => .inl (h ▸ hid), fun _ _ hr => .inl (h ▸ hr)⟩

theorem Adds.mono (h : Adds old k k') (hold : ∀ id, old id → old' id) : Adds old' k k' :=
  ⟨h.registered, fun id r hr => (h.ruled id r hr).imp_right (.imp_left (hold id))⟩

/-- Additions add up. -/
theorem Adds.trans (h : Adds old k k') (h' : Adds old k' k'') (hle : k.nextSymbol ≤ k'.nextSymbol)
    (hle' : k'.nextSymbol ≤ k''.nextSymbol) : Adds old k k'' where
  registered id hid := by
    obtain hid | hnew := h'.registered id hid
    · exact (h.registered id hid).imp_right fun hnew => ⟨hnew.1, hnew.2.trans_le hle'⟩
    · exact .inr ⟨hle.trans hnew.1, hnew.2⟩
  ruled id r hr := by
    obtain hr | hold | hnew := h'.ruled id r hr
    · exact (h.ruled id r hr).imp_right (.imp_right fun hnew => ⟨hnew.1, hnew.2.trans_le hle'⟩)
    · exact .inr (.inl hold)
    · exact .inr (.inr ⟨hle.trans hnew.1, hnew.2⟩)

theorem Adds.made (h : Adds old k k') (hk : k.Made) (hle : k.nextSymbol ≤ k'.nextSymbol)
    (hold : ∀ id, old id → id < k'.nextSymbol) : k'.Made where
  registered id hid := by
    obtain hid | hnew := h.registered id hid
    · exact (hk.registered id hid).trans_le hle
    · exact hnew.2
  ruled id r hr := by
    obtain hr | hid | hnew := h.ruled id r hr
    · exact (hk.ruled id r hr).trans_le hle
    · exact hold id hid
    · exact hnew.2

/-! ### Changed contexts -/

/-- The kernel after a change of a context. -/
def withContext (k : Kernel) (c : Nat) (s : Equalities.State) : Kernel :=
  { k with contexts := k.contexts.setIfInBounds c s.equalities, journal := s.journal }

/-- The context that was replaced. -/
theorem equalities_withContext {k : Kernel} {c : Nat} (hc : c < k.contexts.size)
    (s : State) : (k.withContext c s).equalities c = s.equalities := by
  simp [equalities, withContext, hc]

/-- The other contexts. -/
theorem equalities_withContext_of_ne {k : Kernel} {c d : Nat} (hcd : c ≠ d)
    (s : State) : (k.withContext c s).equalities d = k.equalities d := by
  simp [equalities, withContext, hcd]

private theorem grows_withContext {k : Kernel} {c : Nat} {s : State}
    (h : ∀ p E, (∀ i, ¬ p (.placeholder i)) → k.rules.Over p → LocalTheory k.rules E →
      Sound p E (k.equalities c) →
      Sound p E s.equalities ∧ Evolves E (k.equalities c) s.equalities) :
    k.Grows (k.withContext c s) where
  symbols := le_rfl
  rules := .refl _
  registered _ hid := hid
  contexts := Nat.le_of_eq (by simp [withContext])
  evolves d hd p E hp hR hE hs := by
    by_cases hcd : c = d
    · subst hcd
      rw [equalities_withContext hd]
      exact h p E hp hR hE hs
    · rw [equalities_withContext_of_ne hcd]
      exact ⟨hs, .refl hE.toCongruence _⟩

/-! ### Added rules -/

/-- The kernel with one more rule. -/
def withRule (k : Kernel) (id : Nat) (r : Rule) : Kernel :=
  { k with
    rules := k.rules.install id r
    journal := .ruleInstalled id r.captureCount :: k.journal }

/-- The kernel with more rules, added one after another. -/
def withRules (k : Kernel) (rules : List (Nat × Rule)) : Kernel :=
  rules.foldl (fun k x => k.withRule x.1 x.2) k

/-- Rules are installed one after another. -/
@[simp] theorem withRules_cons (id : Nat) (r : Rule) (rules : List (Nat × Rule)) :
    k.withRules ((id, r) :: rules) = (k.withRule id r).withRules rules := rfl

@[simp] theorem nextSymbol_withRules (rules : List (Nat × Rule)) :
    (k.withRules rules).nextSymbol = k.nextSymbol := by
  induction rules generalizing k with
  | nil => rfl
  | cons x rules ih => exact ih

@[simp] private theorem contexts_withRules (rules : List (Nat × Rule)) :
    (k.withRules rules).contexts = k.contexts := by
  induction rules generalizing k with
  | nil => rfl
  | cons x rules ih => exact ih

@[simp] private theorem registered_withRules (rules : List (Nat × Rule)) :
    (k.withRules rules).rules.registered = k.rules.registered := by
  induction rules generalizing k with
  | nil => rfl
  | cons x rules ih => exact ih

variable {rules : List (Nat × Rule)}

private theorem ruleFor?_withRules {id : Nat} (h : ∀ x ∈ rules, x.1 ≠ id) :
    (k.withRules rules).rules.ruleFor? id = k.rules.ruleFor? id := by
  induction rules generalizing k with
  | nil => rfl
  | cons x rules ih =>
    rw [forall_mem_cons] at h
    rw [withRules_cons, ih h.2, withRule, ruleFor?_install, if_neg h.1]

private theorem ruleFor?_withRules_of_mem (hdistinct : (rules.map Prod.fst).Nodup) {x : Nat × Rule}
    (hx : x ∈ rules) : (k.withRules rules).rules.ruleFor? x.1 = some x.2 := by
  induction rules generalizing k with
  | nil => cases hx
  | cons y rules ih =>
    rw [map_cons, nodup_cons] at hdistinct
    rw [withRules_cons]
    obtain rfl | hx := mem_cons.1 hx
    · have hother : ∀ z ∈ rules, z.1 ≠ x.1 :=
        fun z hz h => hdistinct.1 (h ▸ mem_map_of_mem hz)
      rw [ruleFor?_withRules hother, withRule, ruleFor?_install, if_pos rfl]
    · exact ih hdistinct.2 hx

theorem over_withRules {p : Term → Prop} (hk : k.rules.Over p) (h : ∀ x ∈ rules, x.2.Over p) :
    (k.withRules rules).rules.Over p := by
  induction rules generalizing k with
  | nil => exact hk
  | cons x rules ih =>
    rw [forall_mem_cons] at h
    exact ih (hk.install h.1) h.2

/-- A rule for a declaration without one extends the kernel. -/
theorem extends_withRule {id : Nat} {r : Rule} (h : k.rules.ruleFor? id = none) :
    k.Extends (k.withRule id r) :=
  ⟨le_rfl, sub_install r h, fun _ hid => hid, quiet_cons rfl _⟩

private theorem extends_withRules (hdistinct : (rules.map Prod.fst).Nodup)
    (hfree : ∀ x ∈ rules, k.rules.ruleFor? x.1 = none) : k.Extends (k.withRules rules) := by
  induction rules generalizing k with
  | nil => exact .refl k
  | cons x rules ih =>
    rw [map_cons, nodup_cons] at hdistinct
    rw [forall_mem_cons] at hfree
    refine (extends_withRule hfree.1).trans (ih hdistinct.2 fun y hy => ?_)
    have hne : x.1 ≠ y.1 := fun h => hdistinct.1 (h ▸ mem_map_of_mem hy)
    rw [withRule, ruleFor?_install, if_neg hne]
    exact hfree.2 y hy

end Kernel

namespace KernelM

variable {k : Kernel}

variable {X : Stop → Kernel → Prop} {id : Nat} {α : Type} {Q : α → Kernel → Prop}
  {x : Unit → KernelM α}

/-- How making a symbol ends. -/
theorem ends_freshSymbol {Q : Nat → Kernel → Prop} :
    Ends freshSymbol k Q X ↔ Q k.nextSymbol { k with nextSymbol := k.nextSymbol + 1 } := .rfl

theorem ends_register {Q : Unit → Kernel → Prop} :
    Ends (register (.decl id)) k Q X ↔ Q () { k with rules := k.rules.register id } := .rfl

/-- How declaring ends. -/
theorem ends_declare {Q : Term → Kernel → Prop} : Ends declare k Q X ↔ Q (.decl k.nextSymbol)
      { k with nextSymbol := k.nextSymbol + 1, rules := k.rules.register k.nextSymbol } := .rfl

/-- A rule is added for a registered declaration without one; else it is refused. -/
theorem ends_addRule (r : Rule) (k : Kernel) : Ends (addRule r) k
      (fun _ k' => ∃ id, r.head = .decl id ∧ id ∈ k.rules.registered ∧
        k.rules.ruleFor? id = none ∧ k' = k.withRule id r)
      fun e k' => k' = k ∧
        ((∀ id, r.head ≠ .decl id) ∧ e = .violation (.ruleHeadNotDeclaration r.head) ∨
          ∃ id, r.head = .decl id ∧
            (id ∉ k.rules.registered ∧ e = .violation (.headUnregistered id) ∨
              k.rules.hasRule id ∧ e = .violation (.headOwnsRule id))) := by
  unfold addRule ruleHead
  split
  · next id hid =>
    simp only [bind_iff, pure_iff, get_iff]
    split
    · next hreg => exact ⟨rfl, .inr ⟨id, hid, .inl ⟨hreg, rfl⟩⟩⟩
    · next hreg =>
      split
      · next hrule => exact ⟨rfl, .inr ⟨id, hid, .inr ⟨hrule, rfl⟩⟩⟩
      · next hrule =>
        refine ⟨id, hid, Decidable.not_not.1 hreg, ?_, rfl⟩
        simpa [hasRule] using hrule
  · next hhead => exact ⟨rfl, .inl ⟨hhead, rfl⟩⟩

/-- A rule for a registered declaration is refused only if that has one already. -/
theorem ends_addRule_registered {r : Rule} (hhead : r.head = .decl id)
    (hid : id ∈ k.rules.registered) :
    Ends (addRule r) k (fun _ k' => k.rules.ruleFor? id = none ∧ k' = k.withRule id r)
      fun e k' => k' = k ∧ k.rules.hasRule id ∧ e = .violation (.headOwnsRule id) := by
  refine (ends_addRule r k).mono ?_ ?_
  · rintro _ k' ⟨id', hhead', _, hfree, rfl⟩
    cases hhead.symm.trans hhead'
    exact ⟨hfree, rfl⟩
  · rintro e k' ⟨rfl, ⟨hno, _⟩ | ⟨id', hhead', ⟨hreg, _⟩ | h⟩⟩
    · exact absurd hhead (hno id)
    · cases hhead.symm.trans hhead'
      exact absurd hid hreg
    · cases hhead.symm.trans hhead'
      exact ⟨rfl, h⟩

/-- Adding a rule for a registered declaration, then going on. -/
theorem ends_addRule_bind {r : Rule} (hhead : r.head = .decl id) (hid : id ∈ k.rules.registered)
    (hok : k.rules.ruleFor? id = none → Ends (x ()) (k.withRule id r) Q X)
    (herror : k.rules.hasRule id → X (.violation (.headOwnsRule id)) k) :
    Ends (addRule r >>= x) k Q X := by
  refine bind (ends_addRule_registered hhead hid) ?_ ?_
  · rintro _ k' ⟨hfree, rfl⟩
    exact hok hfree
  · rintro e k' ⟨rfl, hrule, rfl⟩
    exact herror hrule

/-- Adds rules one after another, then goes on. -/
def addAll {α : Type} (rules : List (Nat × Rule)) (x : KernelM α) : KernelM α :=
  rules.foldr (fun y rest => addRule y.2 >>= fun _ => rest) x

private theorem ends_addAll {rules : List (Nat × Rule)} {x : KernelM α}
    (hheads : ∀ y ∈ rules, y.2.head = .decl y.1) (hids : ∀ y ∈ rules, y.1 ∈ k.rules.registered)
    (hdistinct : (rules.map Prod.fst).Nodup)
    (hok : (∀ y ∈ rules, k.rules.ruleFor? y.1 = none) → Ends x (k.withRules rules) Q X)
    (herror : ∀ y ∈ rules, k.rules.hasRule y.1 → ∀ k', k.Extends k' →
      X (.violation (.headOwnsRule y.1)) k') :
    Ends (addAll rules x) k Q X := by
  induction rules generalizing k with
  | nil => exact hok (by simp)
  | cons y rules ih =>
    rw [forall_mem_cons] at hheads hids
    rw [map_cons, nodup_cons] at hdistinct
    have hother : ∀ z ∈ rules, (k.withRule y.1 y.2).rules.ruleFor? z.1 = k.rules.ruleFor? z.1 := by
      intro z hz
      have hne : y.1 ≠ z.1 := fun h => hdistinct.1 (h ▸ mem_map_of_mem hz)
      rw [withRule, ruleFor?_install, if_neg hne]
    refine ends_addRule_bind hheads.1 hids.1 (fun hfree => ?_) fun hrule =>
      herror y mem_cons_self hrule k (.refl k)
    refine ih hheads.2 hids.2 hdistinct.2 (fun hrest => hok ?_) fun z hz hrule k' hk' => ?_
    · refine forall_mem_cons.2 ⟨hfree, fun z hz => ?_⟩
      rw [← hother z hz]
      exact hrest z hz
    · rw [hasRule, hother z hz] at hrule
      exact herror z (mem_cons_of_mem _ hz) hrule k' ((extends_withRule hfree).trans hk')

/-- How naming ends. -/
theorem ends_setName {t : Term} {name : String} {Q : Unit → Kernel → Prop}
    (h : ∀ names, Q () { k with names }) : Ends (setName t name) k Q X := by
  unfold setName Ends
  cases t.symbol? with
  | none => exact h k.names
  | some id =>
    dsimp only
    split
    · exact h k.names
    · exact h _

private theorem ends_setName_bind {t : Term} {name : String}
    (h : ∀ names, Ends (x ()) { k with names } Q X) : Ends (setName t name >>= x) k Q X :=
  bind_iff.2 (ends_setName h)

/-- How noting an event ends. -/
theorem ends_note {e : Event} {Q : Unit → Kernel → Prop} :
    Ends (note e) k Q X ↔ Q () { k with journal := e :: k.journal } := .rfl

/-- How reading a context ends. -/
theorem ends_context {c : Nat} {Q : Equalities → Kernel → Prop} :
    Ends (context c) k Q X ↔ Q (k.equalities c) k := .rfl

/-- Changing a context is the change, on that context and the journal. -/
theorem ends_changeContext {c : Nat} {x : Setting → Change α} : Ends (changeContext c x) k Q X ↔
      Ends (x k.setting) ⟨k.equalities c, k.journal⟩ (fun a s => Q a (k.withContext c s))
        fun e s => X e (k.withContext c s) := by
  unfold Ends changeContext
  dsimp only [equalities]
  cases x k.setting ⟨k.contexts[c]?.getD .empty, k.journal⟩ <;> exact .rfl

/-- How giving a type ends. -/
theorem ends_setType {t type : Term} {Q : Unit → Kernel → Prop}
    (hok : ∀ types, Q () { k with types }) (herror : X (.violation (.notTypable t)) k) :
    Ends (setType t type) k Q X := by
  unfold setType
  split
  · exact hok _
  · exact herror

end KernelM

variable {t domain codomain : Term}

open KernelM

/-- What is read as an arrow is one. -/
theorem Primitive.eq_arrowOf (h : asArrow? t = some (domain, codomain)) :
    t = arrowOf domain codomain := by
  unfold asArrow? at h
  split at h
  · next hargs =>
    split at h
    · next hhead =>
      cases h
      rw [← Term.apply_head_args t, hhead, hargs]
      rfl
    · cases h
  · cases h

/-- What holds of the atoms of an arrow holds of those of its domain and of its codomain. -/
theorem Primitive.all_of_asArrow? {p : Term → Prop}
    (h : asArrow? t = some (domain, codomain)) (ht : t.All p) : domain.All p ∧ codomain.All p := by
  rw [eq_arrowOf h] at ht
  exact ⟨ht.1.2, ht.2⟩

namespace Telescope

variable {tele : Telescope} {k : Kernel}

variable {type : Term} {tele' : Telescope} {k' : Kernel} {x : Nat × Rule}

theorem lt_depth_of_typeOfArg? {i : Nat} (hi : tele.typeOfArg? i = some type) : i < tele.depth := by
  have hlt := (List.getElem?_eq_some_iff.1 hi).1
  rwa [List.length_reverse] at hlt

/-- The term was reduced to another in the telescope's context as it is afterwards. -/
structure Reduced (tele : Telescope) (t u : Term) (k k' : Kernel) : Prop extends k.Calm k' where
  grows : k.Grows k'
  run : ∃ depth, Reduction.run? k.rules (k'.equalities tele.context).replacer depth .full t = some u

private theorem ends_canonicalize (c : Nat) (k : Kernel) : Ends (changeContext c canonicalize) k
      (fun _ k' => k.Calm k' ∧ k.Grows k') fun e k' => e.ofContext ∧ k.Calm k' := by
  rw [ends_changeContext]
  refine of_cases (fun _ s hs => ?_) fun e s hs => ?_
  · have hquiet := (traces_canonicalize.ends.of_ok hs).noted.quiet
    refine ⟨⟨rfl, rfl, hquiet⟩, grows_withContext fun p E hp hR hE hsound => ?_⟩
    have hkept := (keeps_canonicalize hE hp hR hsound).of_ok hs
    exact ⟨hkept.sound, hkept.evolves⟩
  · obtain ⟨he, htraced⟩ := traces_canonicalize.ends.of_error hs
    exact ⟨he, rfl, rfl, htraced.noted.quiet⟩

/-- How reduction ends. -/
theorem ends_reduce (tele : Telescope) (t : Term) (k : Kernel) :
    Ends (tele.reduce t) k (fun u k' => Reduced tele t u k k')
      fun e k' => e.ofContext ∧ k.Calm k' := by
  have hnormalize : ∀ k1, k.Calm k1 → k.Grows k1 →
      Ends (changeContext tele.context fun env => normalize env t) k1
        (fun u k' => Reduced tele t u k k') fun e k' => e.ofContext ∧ k.Calm k' := by
    intro k1 hcalm hgrows
    -- normalising changes nothing: the context is written back as it was
    have hsame : ∀ c d, (k1.withContext c ⟨k1.equalities c, k1.journal⟩).equalities d =
        k1.equalities d := by
      intro c d
      by_cases hcd : c = d
      · subst hcd
        by_cases hc : c < k1.contexts.size
        · exact equalities_withContext hc _
        · simp [equalities, withContext, hc]
      · exact equalities_withContext_of_ne hcd _
    rw [ends_changeContext]
    refine of_cases (fun u s hs => ?_) fun e s hs => ?_
    · unfold Equalities.normalize reduceIn at hs
      split at hs
      · next hrun =>
        cases hs
        refine ⟨{ hcalm with }, hgrows.trans ?_, k1.limit, ?_⟩
        · exact grows_withContext fun p E _ _ hE hsound =>
            ⟨hsound, .refl hE.toCongruence _⟩
        · rw [hsame, ← hcalm.rules]
          exact hrun
      · cases hs
    · obtain ⟨he, htraced⟩ := (traces_reduceIn k1.setting .full t).ends.of_error hs
      exact ⟨he, { hcalm with quiet := hcalm.quiet.trans htraced.noted.quiet }⟩
  unfold reduce
  simp only [bind_iff, ends_context, get_iff]
  split
  · simp only [bind_iff]
    exact (ends_canonicalize tele.context k).imp (fun _ k1 h => hnormalize k1 h.1 h.2)
  · exact hnormalize k (.refl k) (.refl k)

/-- Elimination answers a term without placeholders and changes nothing. -/
theorem ends_eliminate (tele : Telescope) (t : Term) (k : Kernel) : Ends (tele.eliminate t) k
      (fun u k' => k' = k ∧ u = (k.equalities tele.context).eliminate t ∧ u.hasPlaceholder = false)
      fun e k' => k' = k ∧ e = .violation (.placeholderLeaked t) ∧
        ((k.equalities tele.context).eliminate t).hasPlaceholder := by
  unfold eliminate
  simp only [bind_iff, ends_context]
  split
  · next h => exact ⟨rfl, rfl, h⟩
  · next h => exact ⟨rfl, rfl, Bool.eq_false_iff.2 h⟩

/-! ### Binding an argument -/

/-- The rules of the declarations that binding an argument makes, the first of them numbered `n`. -/
def boundRules (tele : Telescope) (type : Term) (n : Nat) : List (Nat × Rule) :=
  let depth := tele.depth
  let shifted := (range depth).map fun i => Term.arg (i + 1)
  [(n, .lambda (.decl n) depth type),
    (n + 1, .lambda (.decl (n + 1)) (depth + 1) Primitive.type),
    (n + 2, .lambda (.decl (n + 2)) depth
      (Primitive.arrowOf type ((Term.decl (n + 1)).applyArgs depth))),
    (n + 3, .lambda (.decl (n + 3)) (depth + 1)
      (Primitive.arrowOf ((Term.decl n).apply shifted) ((Term.arg 0).apply shifted))),
    (n + 4, .lambda (.decl (n + 4)) 1 (.app tele.pi (.app (.decl (n + 3)) (.arg 0))))]

/-- The telescope with one more bound argument, by declarations numbered from `n` on. -/
def bound (tele : Telescope) (type : Term) (n : Nat) : Telescope :=
  ⟨.bound type :: tele.entries, .app tele.pi (.decl (n + 2)), .decl (n + 4), tele.context⟩

/-- An argument was bound, by five declarations that had no rules. -/
structure Bound (tele : Telescope) (type : Term) (k : Kernel) (tele' : Telescope) (k' : Kernel) :
    Prop where
  telescope : tele' = tele.bound type k.nextSymbol
  free : ∀ x ∈ tele.boundRules type k.nextSymbol, k.rules.ruleFor? x.1 = none
  kernel : ∃ names, k' = { k with
    nextSymbol := k.nextSymbol + 5
    rules := k.rules.registerAll (range' k.nextSymbol 5)
    names }.withRules (tele.boundRules type k.nextSymbol)

/-- How binding an argument ends. -/
theorem ends_extend (tele : Telescope) (type : Term) (k : Kernel) :
    Ends (tele.extend type) k (Bound tele type k)
      fun e k' => k.Extends k' ∧
        ∃ id ≥ k.nextSymbol, k.rules.hasRule id ∧ e = .violation (.headOwnsRule id) := by
  unfold extend declareNamed
  iterate 5 rw [bind_iff, ends_declare]
  iterate 5 refine ends_setName_bind fun _ => ?_
  rename_i names
  let k1 : Kernel := { k with
    nextSymbol := k.nextSymbol + 5
    rules := k.rules.registerAll (range' k.nextSymbol 5)
    names }
  have hk1 : k.Extends k1 :=
    ⟨Nat.le_add_right _ _, fun id r hr => by simpa [k1] using hr,
      fun id hid => mem_registered_registerAll.2 (.inr hid), .refl _⟩
  have hids : ∀ y ∈ tele.boundRules type k.nextSymbol,
      y.1 ∈ range' k.nextSymbol 5 ∧ y.2.head = .decl y.1 := by
    simp [boundRules, Rule.lambda]
  change Ends (addAll (tele.boundRules type k.nextSymbol)
    (pure (tele.bound type k.nextSymbol))) k1 _ _
  refine ends_addAll (fun y hy => (hids y hy).2)
    (fun y hy => mem_registered_registerAll.2 (.inl (hids y hy).1)) ?_ ?_ ?_
  · simp [boundRules]
  · intro hfree
    exact ⟨rfl, fun x hx => by simpa [k1] using hfree x hx, names, rfl⟩
  · intro y hy hrule k' hk'
    refine ⟨hk1.trans hk', y.1, ?_, by simpa [k1, hasRule] using hrule, rfl⟩
    exact (mem_range'_1.1 (hids y hy).1).1

section

variable (h : Bound tele type k tele' k')
include h

/-- Binding extends the kernel. -/
theorem Bound.extends : k.Extends k' := by
  obtain ⟨names, rfl⟩ := h.kernel
  have hregistered : k.Extends { k with
      nextSymbol := k.nextSymbol + 5
      rules := k.rules.registerAll (range' k.nextSymbol 5)
      names } :=
    ⟨Nat.le_add_right _ _, fun id r hr => by simpa using hr,
      fun id hid => mem_registered_registerAll.2 (.inr hid), .refl _⟩
  refine hregistered.trans (extends_withRules ?_ fun x hx => ?_)
  · simp [boundRules]
  · simpa using h.free x hx

theorem Bound.installed
    (hx : x ∈ tele.boundRules type k.nextSymbol) : k'.rules.ruleFor? x.1 = some x.2 := by
  obtain ⟨names, rfl⟩ := h.kernel
  exact ruleFor?_withRules_of_mem (by simp [boundRules]) hx

/-- Binding leaves the contexts. -/
theorem Bound.contexts : k'.contexts = k.contexts := by
  obtain ⟨names, rfl⟩ := h.kernel
  simp

/-- Binding makes five symbols. -/
theorem Bound.symbols : k'.nextSymbol = k.nextSymbol + 5 := by
  obtain ⟨names, rfl⟩ := h.kernel
  simp

end

theorem fst_mem_of_mem_boundRules {n : Nat} (h : x ∈ tele.boundRules type n) :
    n ≤ x.1 ∧ x.1 < n + 5 := by
  simp only [boundRules, mem_cons, not_mem_nil, or_false] at h
  obtain rfl | rfl | rfl | rfl | rfl := h <;> dsimp only <;> omega

/-- Only the new declarations get rules. -/
theorem Bound.adds (h : Bound tele type k tele' k') {old : Nat → Prop} : k.Adds old k' := by
  have hsymbols := h.symbols
  obtain ⟨names, rfl⟩ := h.kernel
  refine ⟨fun id hid => ?_, fun id r hr => ?_⟩
  · rw [registered_withRules, mem_registered_registerAll] at hid
    refine hid.symm.imp_right fun hid => ?_
    have := mem_range'_1.1 hid
    exact ⟨this.1, by rw [hsymbols]; exact this.2⟩
  · by_cases hid : ∃ x ∈ tele.boundRules type k.nextSymbol, x.1 = id
    · obtain ⟨x, hx, rfl⟩ := hid
      have := fst_mem_of_mem_boundRules hx
      exact .inr (.inr ⟨this.1, by rw [hsymbols]; exact this.2⟩)
    · rw [ruleFor?_withRules fun x hx heq => hid ⟨x, hx, heq⟩] at hr
      exact .inl (by simpa using hr)

/-- The closed type of functions over the telescope was made, by a declaration that had no rule. -/
structure Instantiated (tele : Telescope) (e : Term) (k : Kernel) (t : Term) (k' : Kernel) :
    Prop where
  term : t = .app tele.pi (.decl k.nextSymbol)
  free : k.rules.ruleFor? k.nextSymbol = none
  kernel : ∃ types, k' = { { k with
    nextSymbol := k.nextSymbol + 1
    rules := k.rules.register k.nextSymbol }.withRule k.nextSymbol
      (.lambda (.decl k.nextSymbol) tele.depth e) with types }

/-- How closing a type ends. -/
theorem ends_instanceOf (tele : Telescope) (e : Term) (k : Kernel) :
    Ends (tele.instanceOf e) k (Instantiated tele e k)
      fun e k' => k.Extends k' ∧
        ∃ id ≥ k.nextSymbol, k.rules.hasRule id ∧ e = .violation (.headOwnsRule id) := by
  unfold instanceOf
  refine ends_addRule_bind rfl (mem_registered_register.2 (.inl rfl))
    (fun hfree => ?_) fun hrule => ?_
  · exact ⟨rfl, by simpa using hfree, _, rfl⟩
  · refine ⟨⟨Nat.le_succ _, fun id r hr => by simpa using hr, fun id hid => ?_, .refl _⟩,
      k.nextSymbol, le_rfl, by simpa [hasRule] using hrule, rfl⟩
    exact mem_registered_register.2 (.inr hid)

/-- An equation was assumed, in a copy of the telescope's context. -/
structure Assumed (tele : Telescope) (t u : Term) (k : Kernel) (tele' : Telescope) (k' : Kernel) :
    Prop extends k.Calm k' where
  telescope : tele' = { tele with
    entries := .assumed t u :: tele.entries
    context := k.contexts.size }
  size : k'.contexts.size = k.contexts.size + 1
  kept : ∀ c < k.contexts.size, k'.equalities c = k.equalities c
  sound : ∀ p E, (∀ i, ¬ p (.placeholder i)) → k.rules.Over p → LocalTheory k.rules E →
    Equalities.Sound p E (k.equalities tele.context) →
    Equalities.Related p E (k.equalities tele.context) t u →
    Equalities.Sound p E (k'.equalities k.contexts.size)

/-- How assuming ends. -/
theorem ends_assume (tele : Telescope) (t u : Term) (k : Kernel) :
    Ends (tele.assume t u) k (Assumed tele t u k) fun e k' => e.ofContext ∧ k.Calm k' := by
  let k1 : Kernel := { k with contexts := k.contexts.push (k.equalities tele.context) }
  have hcopy : k1.equalities k.contexts.size = k.equalities tele.context := by
    simp [k1, equalities]
  have hold : ∀ c < k.contexts.size, k1.equalities c = k.equalities c := by
    intro c hc
    simp [k1, equalities, Array.getElem?_push, hc.ne]
  unfold assume
  rw [bind_iff, ends_context, bind_iff]
  change Ends _ k1 _ _
  rw [bind_iff, ends_changeContext]
  refine of_cases (fun out s hs => ?_) fun e s hs => ?_
  · have hquiet := ((traces_assume t u).ends.of_ok hs).noted.quiet
    have hassumed : ∀ journal, Quiet s.journal journal →
        Assumed tele t u k { tele with
          entries := .assumed t u :: tele.entries
          context := k.contexts.size } { k1.withContext k.contexts.size s with journal } := by
      intro journal hjournal
      refine ⟨⟨rfl, rfl, hquiet.trans hjournal⟩, rfl, ?_, fun c hc => ?_, ?_⟩
      · simp [k1, withContext]
      · exact (equalities_withContext_of_ne hc.ne' s).trans (hold c hc)
      · intro p E hp hR hE hsound hrelated
        rw [← hcopy] at hsound hrelated
        have hnew : (k1.withContext k.contexts.size s).equalities k.contexts.size = s.equalities :=
          equalities_withContext (by simp [k1]) s
        exact hnew ▸ ((keeps_assume hE hp hR hsound hrelated).of_ok hs).sound
    cases out with
    | error e => exact hassumed _ (quiet_cons rfl _)
    | ok _ => exact hassumed _ (.refl _)
  · obtain ⟨he, htraced⟩ := (traces_assume t u).ends.of_error hs
    exact ⟨he, rfl, rfl, htraced.noted.quiet⟩

/-- Assuming makes the kernel grow. -/
theorem Assumed.grows {t u : Term} (h : Assumed tele t u k tele' k') : k.Grows k' where
  toExpands := h.toCalm.extends.expands
  contexts := Nat.le_of_lt (h.size ▸ Nat.lt_succ_self _)
  evolves c hc p E _ _ hE hs := by
    rw [h.kept c hc]
    exact ⟨hs, .refl hE.toCongruence _⟩

end Telescope
end Elaboration
