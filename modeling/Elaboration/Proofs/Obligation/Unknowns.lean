import Elaboration.Proofs.Obligation.Promises

/-!
# Which declarations obligations are to give rules

In a store that is used well, no two obligations are to define the same unknown, none of these is an
indeterminate, and an unknown that has a rule has it from a rule that was installed for it. So the
table refuses a definition only then.
-/

namespace Elaboration
namespace StoreM

open Kernel List Store

/-- A live obligation is to define the declaration. -/
inductive Config.Owes (c : Config) (id d : Nat) : Prop where
  | cast {x : Cast} : c.store.obligations.get? id = some (.cast x) → x.unknown = .decl d →
    Owes c id d
  | function {a : Application} : c.store.obligations.get? id = some (.application a) →
    a.functionUnknown = .decl d → c.Awaits ⟨id, .main⟩ → Owes c id d
  | argument {a : Application} : c.store.obligations.get? id = some (.application a) →
    a.argumentUnknown = .decl d → Owes c id d

/-- A live obligation is to give the declaration a rule. -/
inductive Config.Targets (c : Config) (d : Nat) : Prop where
  | unknown {id : Nat} : c.Owes id d → Targets c d
  | head {id : Nat} {p : RuleProgress} {q : RuleRequest} :
    c.store.obligations.get? id = some (.rule p) → p.request = some q → q.rule.head = .decl d →
    Targets c d

/-- Whether a rule was installed for the declaration, by what is recorded now and was earlier. -/
def Config.Committed (c : Config) (earlier : List Event) (d : Nat) : Prop :=
  .ruleCommitted d ∈ c.kernel.journal ++ earlier

/-- The store is used well. If `strict`, it is asked for no rules. -/
structure Config.Clear (strict : Prop) (earlier : List Event) (c : Config) : Prop where
  made : c.kernel.Made
  definable : ∀ {d}, d ∈ c.store.indeterminates →
    d ∈ c.kernel.rules.registered ∧ c.kernel.rules.ruleFor? d = none ∧ ¬ c.Targets d
  owed : ∀ {id d}, c.Owes id d →
    d ∈ c.kernel.rules.registered ∧ (c.kernel.rules.hasRule d → c.Committed earlier d)
  once : ∀ {id id' d}, c.Owes id d → c.Owes id' d → id = id'
  apart : ∀ {id a d}, c.store.obligations.get? id = some (.application a) →
    a.functionUnknown = .decl d → a.argumentUnknown ≠ .decl d
  heads : ∀ {id p q d}, c.store.obligations.get? id = some (.rule p) → p.request = some q →
    q.rule.head = .decl d → d < c.kernel.nextSymbol
  ruleless : strict → ∀ id p, c.store.obligations.get? id ≠ some (.rule p)
  uncommitted : strict → ∀ d, ¬ c.Committed earlier d

variable {strict : Prop} {earlier earlier' : List Event} {c c' : Config} {id d : Nat}

theorem Config.Clear.targets_lt (h : c.Clear strict earlier) (hd : c.Targets d) :
    d < c.kernel.nextSymbol := by
  cases hd with
  | unknown howes => exact h.made.registered d (h.owed howes).1
  | head hp hq hhead => exact h.heads hp hq hhead

section Fewer

variable (h : c.Clear strict earlier)
    (hget : ∀ {id o}, c'.store.obligations.get? id = some o → c.store.obligations.get? id = some o)
    (hawaits : ∀ owner, c'.Awaits owner → c.Awaits owner)

include hget hawaits

private theorem Config.Owes.of_sub (h : c'.Owes id d) : c.Owes id d := by
  cases h with
  | cast ho hd => exact .cast (hget ho) hd
  | function ho hd hmain => exact .function (hget ho) hd (hawaits _ hmain)
  | argument ho hd => exact .argument (hget ho) hd

theorem Config.Targets.of_sub (h : c'.Targets d) : c.Targets d := by
  cases h with
  | unknown howes => exact .unknown (howes.of_sub hget hawaits)
  | head hp hq hhead => exact .head (hget hp) hq hhead

include h in
/-- Indeterminates were defined or made, and declarations that are new were given rules. -/
theorem Config.Clear.later (hexpands : c.kernel.Expands c'.kernel) (hadds : c.kernel.Adds
      (fun d => d ∈ c.store.indeterminates ∧ d ∉ c'.store.indeterminates) c'.kernel)
    (hindeterminates : ∀ d ∈ c'.store.indeterminates, d ∈ c.store.indeterminates ∨
      d ∈ c'.kernel.rules.registered ∧ c'.kernel.rules.ruleFor? d = none ∧ ¬ c.Targets d)
    (hcommitted : ∀ d, c'.Committed earlier' d ↔ c.Committed earlier d) :
    c'.Clear strict earlier' where
  made := by
    refine hadds.made h.made hexpands.symbols fun d hd => ?_
    exact (h.made.registered d (h.definable hd.1).1).trans_le hexpands.symbols
  definable {d} hd := by
    obtain hold | ⟨hregistered, hfree, hnot⟩ := hindeterminates d hd
    · obtain ⟨hregistered, hfree, hnot⟩ := h.definable hold
      refine ⟨hexpands.registered d hregistered, ?_, fun ht => hnot (ht.of_sub hget hawaits)⟩
      refine Option.eq_none_iff_forall_ne_some.2 fun r hr => ?_
      obtain hr | hgone | hnew := hadds.ruled d r hr
      · exact nomatch hfree.symm.trans hr
      · exact hgone.2 hd
      · exact absurd hnew.1 (Nat.not_le_of_lt (h.made.registered d hregistered))
    · exact ⟨hregistered, hfree, fun ht => hnot (ht.of_sub hget hawaits)⟩
  owed {id d} howes := by
    have howes := howes.of_sub hget hawaits
    obtain ⟨hregistered, hrule⟩ := h.owed howes
    refine ⟨hexpands.registered d hregistered, fun hruled => (hcommitted d).2 (hrule ?_)⟩
    obtain ⟨r, hr⟩ := Option.isSome_iff_exists.1 hruled
    obtain hr | hgone | hnew := hadds.ruled d r hr
    · exact Option.isSome_iff_exists.2 ⟨r, hr⟩
    · exact absurd (.unknown howes) (h.definable hgone.1).2.2
    · exact absurd hnew.1 (Nat.not_le_of_lt (h.made.registered d hregistered))
  once ho ho' := h.once (ho.of_sub hget hawaits) (ho'.of_sub hget hawaits)
  apart ha := h.apart (hget ha)
  heads hp hq hhead := (h.heads (hget hp) hq hhead).trans_le hexpands.symbols
  ruleless hstrict id p hp := h.ruleless hstrict id p (hget hp)
  uncommitted hstrict d hd := h.uncommitted hstrict d ((hcommitted d).1 hd)

end Fewer

/-! ### Settling -/

section

variable {owner : Owner} {out : Outcome} {s s' : Store} {k k' : Kernel} {tele : Telescope}
  {o : Obligation}

/-- What settling a part of an obligation does to the rules. -/
inductive Gives (owner : Owner) (s : Store) (k k' : Kernel) : Prop where
  | nothing : k'.rules = k.rules →
    (∀ d, .ruleCommitted d ∈ k'.journal ↔ .ruleCommitted d ∈ k.journal) → Gives owner s k k'
  | definition {o : Obligation} {tele : Telescope} {d : Nat} {value definiens : Term} {r : Rule} :
    s.obligations.get? owner.obligation = some o → Defines o owner.slot tele (.decl d) value →
    d ∈ k.rules.registered → k.rules.ruleFor? d = none → k'.rules = k.rules.install d r →
    .castInstalled (.decl d) definiens ∈ k'.journal →
    (∀ d, .ruleCommitted d ∈ k'.journal ↔ .ruleCommitted d ∈ k.journal) → Gives owner s k k'
  | rule {p : RuleProgress} {q : RuleRequest} {d : Nat} {r : Rule} :
    s.obligations.get? owner.obligation = some (.rule p) → p.request = some q →
    q.rule.head = .decl d → d ∈ k.rules.registered → k'.rules = k.rules.install d r →
    (∀ d', .ruleCommitted d' ∈ k'.journal ↔ d' = d ∨ .ruleCommitted d' ∈ k.journal) →
    Gives owner s k k'

private theorem ruleCommitted_notMem_conditionEvents (p : RuleProgress) :
    .ruleCommitted d ∉ conditionEvents owner p out := by
  have hdropped : ∀ q, .ruleCommitted d ∉ droppedEvents q := by
    intro q
    unfold droppedEvents
    split <;> simp
  unfold conditionEvents
  simp only [mem_append, not_or]
  refine ⟨⟨?_, ?_⟩, ?_⟩
  · split <;> simp
  · split <;> simp
  · cases p.request <;> split <;> simp [hdropped]

private theorem Installed.gives {unknown value : Term}
    (h : Installed tele unknown value (beginning owner out k) k' d)
    (ho : s.obligations.get? owner.obligation = some o)
    (hdefines : Defines o owner.slot tele unknown value) : Gives owner s k k' := by
  obtain ⟨rfl, hregistered, hfree, _, rfl⟩ := h
  refine .definition ho hdefines hregistered hfree rfl (mem_cons_of_mem _ mem_cons_self) ?_
  simp [withRule, noted, beginning]

private theorem Gives.answered (h : Gives owner s k k') (a : Settlement) :
    Gives owner s k (answered k' a) := by
  have hmem : ∀ d, .ruleCommitted d ∈ (StoreM.answered k' a).journal ↔
      .ruleCommitted d ∈ k'.journal := by
    simp [StoreM.answered, noted]
  cases h with
  | nothing hrules hcommitted => exact .nothing hrules fun d => (hmem d).trans (hcommitted d)
  | definition ho hd hregistered hfree hrules hinstalled hcommitted =>
    exact .definition ho hd hregistered hfree hrules (mem_cons_of_mem _ hinstalled)
      fun d => (hmem d).trans (hcommitted d)
  | rule hp hq hhead hregistered hrules hcommitted =>
    exact .rule hp hq hhead hregistered hrules fun d => (hmem d).trans (hcommitted d)

theorem Resolved.gives (h : Resolved owner out s k s' k') : Gives owner s k k' := by
  have hbegin : Gives owner s k (beginning owner out k) :=
    .nothing rfl (by simp [beginning, noted])
  have hcondition : ∀ p d, .ruleCommitted d ∈
      (conditionKernel owner p out (beginning owner out k)).journal ↔
        .ruleCommitted d ∈ k.journal := by
    intro p d
    simp [conditionKernel, beginning, noted, ruleCommitted_notMem_conditionEvents]
  cases h with
  | equation | castFailed | applicationFailed => exact hbegin.answered _
  | castSolved ho _ hinstalled => exact (hinstalled.gives ho (.cast _ _)).answered _
  | functionSolved ho hslot _ hinstalled =>
    exact hinstalled.gives ho (hslot ▸ .function _)
  | argumentSolved ho hslot _ hinstalled =>
    exact (hinstalled.gives ho (.argument _ hslot)).answered _
  | @condition p => exact .nothing rfl (hcondition p)
  | @lastCondition p _ _ _ _ hp _ hdecides hcommitted =>
    refine Gives.answered ?_ _
    cases hcommitted with
    | overtaken =>
      refine .nothing rfl fun d => Iff.trans ?_ (hcondition p d)
      simp [noted]
    | installed hhead hregistered =>
      refine .rule hp (request_of_afterCondition hdecides.1) hhead hregistered rfl fun d => ?_
      rw [← hcondition p d]
      simp [withRule, noted]

private theorem Resolved.owes (h : Resolved owner out s k s' k')
    (hs : s.WellFormed none none (some owner)) (howes : Config.Owes ⟨.idle, s', k'⟩ id d) :
    Config.Owes ⟨.settling owner out, s, k⟩ id d ∧ (owner.obligation = id →
      ∃ a, s.obligations.get? id = some (.application a) ∧ a.argumentUnknown = .decl d ∧
        owner.slot = .main) := by
  cases howes with
  | cast ho hd =>
    obtain ⟨hne, ho⟩ | ⟨_, ⟨_, ⟨⟩, _⟩ | ⟨_, _, ⟨⟩, _⟩⟩ := h.of_get? ho
    exact ⟨.cast ho hd, fun heq => absurd heq hne⟩
  | function ho hd hmain =>
    obtain ⟨_, hphase⟩ | ⟨i, hi⟩ := hmain
    · cases hphase
    have hold := h.of_rooted hs hi
    obtain ⟨hne, ho⟩ | ⟨heq, ⟨_, ⟨⟩, ho, hslot⟩ | ⟨_, _, ⟨⟩, _⟩⟩ := h.of_get? ho
    · refine ⟨.function ho hd (.inr ⟨i, hold.resolve_right ?_⟩), fun heq => absurd heq hne⟩
      exact fun h => hne (congrArg Owner.obligation h.1).symm
    · -- the root of the function is the one that ended
      obtain hi | hslot' := hold
      · have howner : owner = ⟨id, .main⟩ := by
          obtain ⟨obligation, slot⟩ := owner
          cases heq
          cases hslot
          rfl
        exact absurd (howner ▸ hi) ((hs.posed.settling rfl).2 i)
      · cases hslot'.1
  | argument ho hd =>
    obtain ⟨hne, ho⟩ | ⟨heq, ⟨_, ⟨⟩, ho, hslot⟩ | ⟨_, _, ⟨⟩, _⟩⟩ := h.of_get? ho
    · exact ⟨.argument ho hd, fun heq => absurd heq hne⟩
    · exact ⟨.argument ho hd, fun _ => ⟨_, ho, hd, hslot⟩⟩

private theorem owes_of_defines {value : Term} (ho : s.obligations.get? owner.obligation = some o)
    (hdefines : Defines o owner.slot tele (.decl d) value) :
    Config.Owes ⟨.settling owner out, s, k⟩ owner.obligation d := by
  generalize hunknown : Term.decl d = unknown at hdefines
  generalize hslot : owner.slot = slot at hdefines
  cases hdefines with
  | cast x => exact .cast ho hunknown.symm
  | function a =>
    refine .function ho hunknown.symm (.inl ⟨out, ?_⟩)
    rw [← hslot]
  | argument a => exact .argument ho hunknown.symm

private theorem Resolved.of_get?_rule (h : Resolved owner out s k s' k') {p : RuleProgress}
    (hp : s'.obligations.get? id = some (.rule p)) :
    ∃ p', s.obligations.get? id = some (.rule p') ∧
      ∀ q, p.request = some q → p'.request = some q := by
  obtain ⟨_, hold⟩ | ⟨_, ⟨_, ⟨⟩, _⟩ | ⟨p', _, ⟨⟩, hold⟩⟩ := h.of_get? hp
  · exact ⟨p, hold, fun _ h => h⟩
  · exact ⟨p', hold, fun _ => request_of_afterCondition⟩

private theorem Resolved.targets (h : Resolved owner out s k s' k')
    (hs : s.WellFormed none none (some owner)) (ht : Config.Targets ⟨.idle, s', k'⟩ d) :
    Config.Targets ⟨.settling owner out, s, k⟩ d := by
  cases ht with
  | unknown howes => exact .unknown (h.owes hs howes).1
  | head hp hq hhead =>
    obtain ⟨_, hp', hsame⟩ := h.of_get?_rule hp
    exact .head hp' (hsame _ hq) hhead

/-- Rules were given to what some obligation is to give one, and not to what is still owed unless
that is recorded. -/
structure Config.Given (strict : Prop) (earlier : List Event) (c c' : Config) : Prop where
  registered : c'.kernel.rules.registered = c.kernel.rules.registered
  ruled : ∀ {d}, c'.kernel.rules.hasRule d →
    c.kernel.rules.hasRule d ∨ d ∈ c.kernel.rules.registered ∧ c.Targets d
  owed : ∀ {id d}, c'.Owes id d → c'.kernel.rules.hasRule d →
    c.kernel.rules.hasRule d ∨ c'.Committed earlier d
  committed : ∀ {d}, c.Committed earlier d → c'.Committed earlier d
  uncommitted : strict → ∀ d, ¬ c'.Committed earlier d

private theorem Resolved.given (hr : Resolved owner out s k s' k')
    (hs : s.WellFormed none none (some owner))
    (h : Config.Clear strict earlier ⟨.settling owner out, s, k⟩) :
    Config.Given strict earlier ⟨.settling owner out, s, k⟩ ⟨.idle, s', k'⟩ := by
  have hjournal : (∀ d, .ruleCommitted d ∈ k'.journal ↔ .ruleCommitted d ∈ k.journal) →
      ∀ d, Config.Committed ⟨.idle, s', k'⟩ earlier d ↔
        Config.Committed ⟨.settling owner out, s, k⟩ earlier d := by
    intro hsame d
    simp only [Config.Committed, mem_append, hsame]
  cases hr.gives with
  | nothing hrules hsame =>
    refine ⟨by rw [hrules], fun hd => .inl (hrules ▸ hd), fun _ hd => .inl (hrules ▸ hd),
      fun {d} => (hjournal hsame d).2, fun hstrict d hd => ?_⟩
    exact h.uncommitted hstrict d ((hjournal hsame d).1 hd)
  | @definition _ _ v _ _ _ ho hdefines hv _ hrules _ hsame =>
    have howed : Config.Owes ⟨.settling owner out, s, k⟩ owner.obligation v :=
      owes_of_defines ho hdefines
    refine ⟨by rw [hrules]; rfl, fun hd => ?_, fun {id d} howes hd => ?_,
      fun {d} => (hjournal hsame d).2, fun hstrict d hd => ?_⟩
    · obtain hd | rfl := hasRule_install (hrules ▸ hd)
      · exact .inl hd
      · exact .inr ⟨hv, .unknown howed⟩
    · obtain hd | rfl := hasRule_install (hrules ▸ hd)
      · exact .inl hd
      · -- no other obligation owes what was defined, and the settled one owes it no more
        obtain ⟨howes, hsettled⟩ := hr.owes hs howes
        cases h.once howed howes
        obtain ⟨a, ha, hargument, hmain⟩ := hsettled rfl
        cases ho.symm.trans ha
        rw [hmain] at hdefines
        generalize hunknown : Term.decl d = unknown at hdefines
        cases hdefines with
        | function => exact absurd hargument (h.apart ha hunknown.symm)
        | argument _ hslot => exact absurd rfl hslot
    · exact h.uncommitted hstrict d ((hjournal hsame d).1 hd)
  | @rule p q v _ hp hq hhead hv hrules hcommitted =>
    have hnew : ∀ d, Config.Committed ⟨.idle, s', k'⟩ earlier d ↔
        d = v ∨ Config.Committed ⟨.settling owner out, s, k⟩ earlier d := by
      intro d
      simp only [Config.Committed, mem_append, hcommitted, or_assoc]
    refine ⟨by rw [hrules]; rfl, fun hd => ?_, fun {id d} _ hd => ?_,
      fun {d} hd => (hnew d).2 (.inr hd), fun hstrict => absurd hp (h.ruleless hstrict _ _)⟩
    · obtain hd | rfl := hasRule_install (hrules ▸ hd)
      · exact .inl hd
      · exact .inr ⟨hv, .head hp hq hhead⟩
    · obtain hd | rfl := hasRule_install (hrules ▸ hd)
      · exact .inl hd
      · exact .inr ((hnew d).2 (.inl rfl))

private theorem Config.Clear.settle
    (h : Config.Clear strict earlier ⟨.settling owner out, s, k⟩)
    (hs : s.WellFormed none none (some owner)) (hr : Resolved owner out s k s' k') :
    Config.Clear strict earlier ⟨.idle, s', k'⟩ := by
  have hgiven := hr.given hs h
  have hsymbols : k.nextSymbol ≤ k'.nextSymbol := hr.grows.symbols
  have hregistered : ∀ {d}, d ∈ k'.rules.registered → d < k'.nextSymbol := fun {d} hd =>
    (h.made.registered d (hgiven.registered ▸ hd)).trans_le hsymbols
  refine ⟨⟨fun _ hd => hregistered hd, fun d r hd => ?_⟩, fun {d} hd => ?_, fun {id d} howes => ?_,
    fun ho ho' => h.once (hr.owes hs ho).1 (hr.owes hs ho').1, fun {id a d} ha => ?_,
    fun {id p q d} hp hq hhead => ?_, fun hstrict id p hp => ?_, hgiven.uncommitted⟩
  · obtain hd | ⟨hd, _⟩ := hgiven.ruled (Option.isSome_iff_exists.2 ⟨r, hd⟩)
    · obtain ⟨r, hd⟩ := Option.isSome_iff_exists.1 hd
      exact (h.made.ruled d r hd).trans_le hsymbols
    · exact hregistered (hgiven.registered ▸ hd)
  · rw [hr.indeterminates] at hd
    obtain ⟨hd, hfree, hnot⟩ := h.definable hd
    refine ⟨hgiven.registered ▸ hd, ?_, fun ht => hnot (hr.targets hs ht)⟩
    refine Option.eq_none_iff_forall_ne_some.2 fun r hr' => ?_
    obtain hd | ⟨_, ht⟩ := hgiven.ruled (Option.isSome_iff_exists.2 ⟨r, hr'⟩)
    · rw [RuleTable.hasRule, hfree] at hd
      cases hd
    · exact hnot ht
  · obtain ⟨hd, hcommitted⟩ := h.owed (hr.owes hs howes).1
    refine ⟨hgiven.registered ▸ hd, fun hrule => ?_⟩
    exact (hgiven.owed howes hrule).elim (fun hold => hgiven.committed (hcommitted hold))
      fun hnew => hnew
  · obtain ⟨_, ha⟩ | ⟨_, ⟨_, ⟨⟩, ha, _⟩ | ⟨_, _, ⟨⟩, _⟩⟩ := hr.of_get? ha
    · exact h.apart ha
    · exact h.apart ha
  · obtain ⟨p', hp', hsame⟩ := hr.of_get?_rule hp
    exact (h.heads hp' (hsame q hq) hhead).trans_le hsymbols
  · obtain ⟨p', hp', _⟩ := hr.of_get?_rule hp
    exact h.ruleless hstrict id p' hp'

end

/-! ### Posing -/

section

variable {s : Store} {k : Kernel} {r : Request} {o : Obligation} {es : List (Equation × Slot)}
  {ids : List Nat}

private theorem Config.Owes.of_posing (h : Config.Owes ⟨.idle, s.posing o es, k⟩ id d) :
    s.nextId = id ∧ .decl d ∈ o.unknowns ∨
      s.nextId ≠ id ∧ Config.Owes ⟨.idle, s, k⟩ id d := by
  cases h with
  | cast ho hd =>
    rw [get?_posing] at ho
    split at ho
    · next hid =>
      cases ho
      exact .inl ⟨hid, mem_singleton.2 hd.symm⟩
    · next hid => exact .inr ⟨hid, .cast ho hd⟩
  | function ho hd hmain =>
    rw [get?_posing] at ho
    split at ho
    · next hid =>
      cases ho
      exact .inl ⟨hid, mem_cons_of_mem _ (mem_singleton.2 hd.symm)⟩
    · next hid =>
      refine .inr ⟨hid, .function ho hd ?_⟩
      obtain ⟨_, hphase⟩ | ⟨i, hi⟩ := hmain
      · cases hphase
      · obtain hi | ⟨_, _, _, heq⟩ := rooted_posing _ hi
        · exact .inr ⟨i, hi⟩
        · exact absurd (congrArg Owner.obligation heq).symm hid
  | argument ho hd =>
    rw [get?_posing] at ho
    split at ho
    · next hid =>
      cases ho
      exact .inl ⟨hid, hd ▸ mem_cons_self⟩
    · next hid => exact .inr ⟨hid, .argument ho hd⟩

private theorem of_get?_posing {p : RuleProgress} (hr : r.obligation? = some (o, es))
    (hp : (s.posing o es).obligations.get? id = some (.rule p)) :
    (∃ q, r = .rule q ∧ ∀ q', p.request = some q' → q' = q) ∨
      s.obligations.get? id = some (.rule p) := by
  rw [get?_posing] at hp
  split at hp
  · cases hp
    cases r with
    | rule q =>
      cases hr
      refine .inl ⟨q, rfl, ?_⟩
      rintro _ ⟨⟩
      rfl
    | _ => cases hr
  · exact .inr hp

/-- A declaration that can be given a rule and that nothing else is to give one. -/
structure Config.Free (c : Config) (d : Nat) : Prop where
  registered : d ∈ c.kernel.rules.registered
  ruleless : c.kernel.rules.ruleFor? d = none
  determinate : d ∉ c.store.indeterminates
  untargeted : ¬ c.Targets d

/-- What is to be given a rule once an obligation is posed. -/
theorem Config.Targets.of_posing (hr : r.obligation? = some (o, es))
    (hunknowns : o.unknowns = ids.map .decl) (h : Config.Targets ⟨.idle, s.posing o es, k⟩ d) :
    d ∈ ids ∨ (∃ q, r = .rule q ∧ q.rule.head = .decl d) ∨ Config.Targets ⟨.idle, s, k⟩ d := by
  cases h with
  | unknown howes =>
    obtain ⟨_, hmem⟩ | ⟨_, howes⟩ := howes.of_posing
    · rw [hunknowns] at hmem
      obtain ⟨_, hmem, ⟨⟩⟩ := mem_map.1 hmem
      exact .inl hmem
    · exact .inr (.inr (.unknown howes))
  | head hp hq hhead =>
    obtain ⟨q, rfl, hsame⟩ | hp := of_get?_posing hr hp
    · cases hsame _ hq
      exact .inr (.inl ⟨_, rfl, hhead⟩)
    · exact .inr (.inr (.head hp hq hhead))

/-- An obligation about free unknowns was posed. -/
theorem Config.Clear.posing (h : Config.Clear strict earlier ⟨.idle, s, k⟩)
    (hr : r.obligation? = some (o, es)) (hunknowns : o.unknowns = ids.map .decl)
    (hnodup : ids.Nodup) (hfree : ∀ d ∈ ids, Config.Free ⟨.idle, s, k⟩ d)
    (hhead : ∀ q, r = .rule q → ∀ d, q.rule.head = .decl d →
      d < k.nextSymbol ∧ d ∉ s.indeterminates)
    (hrule : strict → ∀ q, r ≠ .rule q) :
    Config.Clear strict earlier ⟨.idle, s.posing o es, k⟩ := by
  have hids : ∀ {d}, .decl d ∈ o.unknowns → d ∈ ids := by
    intro d hmem
    rw [hunknowns] at hmem
    obtain ⟨_, hmem, ⟨⟩⟩ := mem_map.1 hmem
    exact hmem
  refine ⟨h.made, fun {d} hd => ?_, fun {id d} howes => ?_, fun {id id' d} howes howes' => ?_,
    fun {id a d} ha hfunction hargument => ?_, fun {id p q d} hp hq hd => ?_,
    fun hstrict id p hp => ?_, h.uncommitted⟩
  · rw [indeterminates_posing] at hd
    obtain ⟨hregistered, hruleless, hnot⟩ := h.definable hd
    refine ⟨hregistered, hruleless, fun ht => ?_⟩
    obtain hmem | ⟨q, hq, hhead'⟩ | ht := ht.of_posing hr hunknowns
    · exact (hfree d hmem).determinate hd
    · exact (hhead q hq d hhead').2 hd
    · exact hnot ht
  · obtain ⟨_, hmem⟩ | ⟨_, howes⟩ := howes.of_posing
    · obtain ⟨hregistered, hruleless, _⟩ := hfree d (hids hmem)
      refine ⟨hregistered, fun hruled => ?_⟩
      rw [RuleTable.hasRule, hruleless] at hruled
      cases hruled
    · exact h.owed howes
  · obtain ⟨hid, hmem⟩ | ⟨_, howes⟩ := howes.of_posing <;>
      obtain ⟨hid', hmem'⟩ | ⟨_, howes'⟩ := howes'.of_posing
    · exact hid.symm.trans hid'
    · exact absurd (.unknown howes') (hfree d (hids hmem)).untargeted
    · exact absurd (.unknown howes) (hfree d (hids hmem')).untargeted
    · exact h.once howes howes'
  · rw [get?_posing] at ha
    split at ha
    · cases ha
      have hnodup' : (Obligation.unknowns (.application a)).Nodup :=
        hunknowns ▸ hnodup.map fun _ _ => Term.decl.inj
      simp [Obligation.unknowns, hfunction, hargument] at hnodup'
    · exact h.apart ha hfunction hargument
  · obtain ⟨q', rfl, hsame⟩ | hp := of_get?_posing hr hp
    · cases hsame _ hq
      exact (hhead _ rfl d hd).1
    · exact h.heads hp hq hd
  · obtain ⟨q, hq, _⟩ | hp := of_get?_posing hr hp
    · exact hrule hstrict q hq
    · exact h.ruleless hstrict id p hp

end

/-! ### Moves -/

private theorem Move.clear (hmove : Move c c') (hc : c.Ordered) (h : c.Clear strict earlier) :
    c'.Clear strict earlier := by
  have hgrows := hmove.grows
  cases hmove.effect hc with
  | silent hs =>
    have hkernel : c'.kernel.rules = c.kernel.rules ∧
        ∀ d, c'.Committed earlier d ↔ c.Committed earlier d := by
      obtain hk | ⟨count, hk⟩ := hs.kernel
      · exact ⟨by rw [hk], fun d => by rw [Config.Committed, hk, Config.Committed]⟩
      · refine ⟨by rw [hk]; rfl, fun d => ?_⟩
        rw [Config.Committed, hk]
        simp [Config.Committed, noted]
    exact h.later (fun ho => hs.obligations ▸ ho) hs.awaits hgrows.toExpands
      (.of_same hkernel.1) (fun d hd => .inl (hs.indeterminates ▸ hd)) hkernel.2
  | @step i _ v k' _ hstep hk hobligations hawaits =>
    have hquiet := hstep.extends.quiet
    refine h.later (fun ho => hobligations ▸ ho) hawaits hgrows.toExpands ?_ (fun d hd => ?_) ?_
    · rw [hk]
      exact ⟨hstep.adds.registered, hstep.adds.ruled⟩
    · refine (hstep.of_mem_left hd).imp_right fun hnew => ?_
      rw [hk]
      refine ⟨hnew.2.1, hnew.2.2.trans ?_, fun ht => ?_⟩
      · refine Option.eq_none_iff_forall_ne_some.2 fun r hr => ?_
        exact absurd hnew.1.1 (Nat.not_le_of_lt (h.made.ruled d r hr))
      · exact absurd hnew.1.1 (Nat.not_le_of_lt (h.targets_lt ht))
    · intro d
      rw [Config.Committed, hk]
      simp [Config.Committed, noted, hquiet.mem_iff (e := .ruleCommitted d) rfl]
  | settle hphase hidle hr =>
    obtain ⟨phase, s, k⟩ := c
    obtain ⟨phase', s', k'⟩ := c'
    cases hphase
    cases hidle
    exact h.settle hc hr

theorem Moves.clear (hmoves : Moves c c') (hc : c.Ordered) (h : c.Clear strict earlier) :
    c'.Clear strict earlier := by
  induction hmoves with
  | refl => exact h
  | tail hmoves hmove ih => exact hmove.clear (Moves.ordered hmoves hc) ih

/-- The table refuses a rule only for a declaration for which one was installed before, or is being
installed though it cannot have any. -/
def Refused (e : Stop) (journal : List Event) : Prop :=
  ∃ d, (e = .violation (.headOwnsRule d) ∨ e = .violation (.headUnregistered d)) ∧
    .ruleCommitted d ∈ journal

private theorem Halt.refused {e : Stop} {k' : Kernel} (hhalt : Halt c e k')
    (h : c.Clear strict earlier)
    (he : e.ofTable) : ¬ strict ∧ Refused e (k'.journal ++ earlier) := by
  cases hhalt with
  | exhausted | released | replaced | orphaned | overdrawn => cases he
  | step _ hstops =>
    exact absurd ⟨fun d hd => ⟨(h.definable hd).1, (h.definable hd).2.1⟩, h.made.ruled⟩
      (hstops.2.2 he)
  | @settle s k _ owner out _ hstops =>
    cases hstops with
    | missing | overdrawn | drop => cases he
    | install ho hdefines _ hinstall =>
      obtain ⟨_, hother, _⟩ | ⟨d, rfl, rfl, hrefused⟩ := hinstall
      · exact nomatch he.symm.trans hother
      · obtain ⟨hregistered, hcommitted⟩ := h.owed (owes_of_defines ho hdefines)
        obtain ⟨hnot, _⟩ | ⟨hrule, rfl⟩ := hrefused
        · exact absurd hregistered hnot
        · have hbefore := hcommitted hrule
          refine ⟨fun hstrict => h.uncommitted hstrict d hbefore, d, .inl rfl, ?_⟩
          exact mem_cons_of_mem _ (mem_cons_of_mem _ hbefore)
    | commit hp _ _ hcommit =>
      obtain ⟨_, hother, _⟩ | ⟨d, _, _, _, rfl, rfl⟩ := hcommit
      · exact nomatch he.symm.trans hother
      · exact ⟨fun hstrict => h.ruleless hstrict _ _ hp, d, .inr rfl, mem_cons_self⟩

theorem Stuck.refused {e : Stop} {k' : Kernel} (hstuck : Stuck c e k') (hc : c.Ordered)
    (h : c.Clear strict earlier) (he : e.ofTable) :
    ¬ strict ∧ Refused e (k'.journal ++ earlier) := by
  obtain ⟨m, hmoves, hhalt⟩ := hstuck
  exact hhalt.refused (Moves.clear hmoves hc h) he

end StoreM
end Elaboration
