import Elaboration.Proofs.Obligation.Client
import Elaboration.Session.Evaluator

/-!
# Actions of sessions as acts

Whatever a session does comes down to a few acts: it reduces and notes, makes symbols, binds
arguments, poses obligations about unknowns that it has just made, and lets the store run. What
every act keeps is kept by a session.
-/

namespace Elaboration

open Kernel List Request StoreM

/-- The journal was continued by events with the same answers of obligations as `new`. -/
def Records (journal new journal' : List Event) : Prop :=
  ∃ recorded, journal' = recorded ++ journal ∧ ∀ e, e.ofObligation → (e ∈ recorded ↔ e ∈ new)

theorem Records.mem_iff {journal new journal' : List Event} (h : Records journal new journal')
    {e : Event} (he : e.ofObligation) : e ∈ journal' ↔ e ∈ new ∨ e ∈ journal := by
  obtain ⟨recorded, rfl, hsame⟩ := h
  rw [mem_append, hsame e he]

namespace Store

variable {s s' : Store} {k k' : Kernel}

section

variable (h : s.Scoped (· < k.nextSymbol) k)
include h

private theorem Scoped.later (hg : k.Grows k')
    (hR : k'.rules.Over (Term.InScope (· < k'.nextSymbol) 0)) : s.Scoped (· < k'.nextSymbol) k' :=
  Contents.Within.later (h.mono fun _ hid => hid.trans_le hg.symbols) hR hg

/-- Where a run starts, everything is in scope. -/
theorem Scoped.begin : Config.Scoped (· < k.nextSymbol) ⟨.idle, s, { k with journal := [] }⟩ :=
  ⟨Contents.Within.recorded h [], nofun⟩

private theorem Scoped.rests (hprimitive : Primitive.count ≤ k.nextSymbol)
    (hrests : Rests ⟨.idle, s, { k with journal := [] }⟩ s' k') (journal : List Event) :
    s'.Scoped (· < k'.nextSymbol) { k' with journal } := by
  exact (Moves.scoped_made hrests h.begin hprimitive).store.recorded journal

end

end Store

/-- A store with the kernel, and the declarations that were made and not used yet, latest first. -/
structure Stage where
  store : Store
  kernel : Kernel
  fresh : List Nat

namespace Stage

/-- An act of a session. If `strict`, it is about terms in scope and poses no rules. -/
inductive Act (strict : Prop) : Stage → Stage → Prop where
  /-- Reducing, assuming, naming and noting. -/
  | calm {s : Store} {k k' : Kernel} {fresh : List Nat} : k.Calm k' → k.Grows k' →
    Act strict ⟨s, k, fresh⟩ ⟨s, k', fresh⟩
  | symbol {s : Store} {k : Kernel} {fresh : List Nat} :
    Act strict ⟨s, k, fresh⟩ ⟨s, { k with nextSymbol := k.nextSymbol + 1 }, fresh⟩
  | declare {s : Store} {k : Kernel} {fresh : List Nat} :
    Act strict ⟨s, k, fresh⟩
      ⟨s, { k with nextSymbol := k.nextSymbol + 1, rules := k.rules.register k.nextSymbol },
        k.nextSymbol :: fresh⟩
  /-- A declaration is left to the program. -/
  | release {s : Store} {k : Kernel} {id : Nat} {fresh : List Nat} :
    Act strict ⟨s, k, id :: fresh⟩ ⟨s, k, fresh⟩
  | extend {s : Store} {k k' : Kernel} {fresh : List Nat} {tele tele' : Telescope} {type : Term} :
    (strict → tele.Valid (· < k.nextSymbol) k ∧ tele.Scopes (· < k.nextSymbol) type) →
    Telescope.Bound tele type k tele' k' → Act strict ⟨s, k, fresh⟩ ⟨s, k', fresh⟩
  | instantiate {s : Store} {k k' : Kernel} {fresh : List Nat} {tele : Telescope} {e t : Term} :
    (strict → tele.Valid (· < k.nextSymbol) k ∧ tele.Scopes (· < k.nextSymbol) e) →
    Telescope.Instantiated tele e k t k' → Act strict ⟨s, k, fresh⟩ ⟨s, k', fresh⟩
  | indeterminate {s : Store} {k : Kernel} {id : Nat} {fresh : List Nat} :
    Act strict ⟨s, k, id :: fresh⟩
      ⟨{ s with indeterminates := if id ∈ s.indeterminates then s.indeterminates
        else id :: s.indeterminates }, k, fresh⟩
  /-- The unknowns of an obligation are the declarations made last. -/
  | pose {s : Store} {k : Kernel} {ids fresh : List Nat} {r : Request} {o : Obligation}
    {es : List (Equation × Slot)} : r.obligation? = some (o, es) → o.unknowns = ids.map .decl →
    (∀ q, r = .rule q → fresh = [] ∧ ∀ id, q.rule.head = .decl id →
      id < k.nextSymbol ∧ id ∉ s.indeterminates) →
    (strict → (∀ q, r ≠ .rule q) ∧ ∃ teles, (∀ tele ∈ teles, tele.Valid (· < k.nextSymbol) k) ∧
      r.Scoped (· < k.nextSymbol) teles) →
    Act strict ⟨s, k, ids ++ fresh⟩ ⟨s.posing o es, k, fresh⟩
  | run {s s' : Store} {k k' : Kernel} {journal : List Event} :
    StoreM.Rests ⟨.idle, s, { k with journal := [] }⟩ s' k' →
    Records k.journal k'.journal journal → Act strict ⟨s, k, []⟩ ⟨s', { k' with journal }, []⟩
  | close {s s' : Store} {k k' : Kernel} {journal : List Event} :
    StoreM.Rests ⟨.idle, s, { k with journal := [] }⟩ s' k' →
    Records k.journal (.closed (StoreM.closed s').failed :: k'.journal) journal →
    Act strict ⟨s, k, []⟩ ⟨StoreM.closed s', { k' with journal }, []⟩

/-- A sequence of acts. -/
abbrev Acts (strict : Prop) : Stage → Stage → Prop := Relation.ReflTransGen (Act strict)

/-- The ways in which a session stops at a stage. -/
inductive Halt : Stage → Stop → Kernel → Prop where
  /-- The table refused nothing. -/
  | other {st : Stage} {e : Stop} {k' : Kernel} : e.ofTable = false → st.kernel.Extends k' →
    Halt st e k'
  /-- A rule was there for a declaration that was not made. -/
  | taken {st : Stage} {id : Nat} {k' : Kernel} : st.kernel.nextSymbol ≤ id →
    st.kernel.rules.hasRule id → Halt st (.violation (.headOwnsRule id)) k'
  | store {s : Store} {k k' : Kernel} {e : Stop} {journal : List Event} :
    StoreM.Stuck ⟨.idle, s, { k with journal := [] }⟩ e k' →
    Records k.journal k'.journal journal → Halt ⟨s, k, []⟩ e { k' with journal }

/-- A session stops after some acts. -/
def Stops (strict : Prop) (st : Stage) (e : Stop) (k' : Kernel) : Prop :=
  ∃ st', Acts strict st st' ∧ Halt st' e k'

variable {strict : Prop} {st st' : Stage}

private theorem Act.grows (h : Act strict st st') : st.kernel.Grows st'.kernel := by
  cases h with
  | calm _ hg => exact hg
  | symbol => exact Expands.grows ⟨Nat.le_succ _, .refl _, fun _ h => h⟩ rfl
  | declare =>
    refine Expands.grows ⟨Nat.le_succ _, fun id r hr => by simpa using hr, ?_⟩ rfl
    exact fun id hid => RuleTable.mem_registered_register.2 (.inr hid)
  | release => exact .refl _
  | extend _ hb => exact hb.extends.grows hb.contexts
  | instantiate _ hi => exact hi.extends.grows hi.contexts
  | indeterminate => exact .refl _
  | pose => exact .refl _
  | run hrests _ | close hrests _ =>
    refine (grows_journal _ _).trans ((Moves.grows hrests).trans ?_)
    exact grows_journal _ _

theorem Acts.grows (h : Acts strict st st') : st.kernel.Grows st'.kernel := by
  induction h with
  | refl => exact .refl _
  | tail _ hact ih => exact ih.trans hact.grows

/-- The built-in symbols are made and the store is in order; if `strict`, everything in it is in
scope. -/
structure Good (strict : Prop) (st : Stage) : Prop where
  primitives : Primitive.count ≤ st.kernel.nextSymbol
  ordered : st.store.WellFormed none none none
  inScope : strict → st.store.Scoped (· < st.kernel.nextSymbol) st.kernel

private theorem Act.good (h : Act strict st st') (hst : st.Good strict) : st'.Good strict := by
  have hgrows := h.grows
  have hle : ∀ id, id < st.kernel.nextSymbol → id < st'.kernel.nextSymbol :=
    fun id hid => hid.trans_le hgrows.symbols
  obtain ⟨hprimitives, hordered, hscope⟩ := hst
  have hR := fun hstrict => (hscope hstrict).kernel.mono fun _ h => h.mono le_rfl hle
  suffices hkept : st'.store.WellFormed none none none ∧
      (strict → st'.store.Scoped (· < st'.kernel.nextSymbol) st'.kernel) from
    ⟨hprimitives.trans hgrows.symbols, hkept.1, hkept.2⟩
  cases h with
  | calm hcalm =>
    refine ⟨hordered, fun hstrict => (hscope hstrict).later hgrows ?_⟩
    dsimp only
    rw [hcalm.rules, hcalm.symbols]
    exact (hscope hstrict).kernel
  | symbol =>
    refine ⟨hordered, fun hstrict => (hscope hstrict).later hgrows ?_⟩
    exact hR hstrict
  | declare =>
    refine ⟨hordered, fun hstrict => (hscope hstrict).later hgrows fun id r hr => ?_⟩
    exact hR hstrict id r (by simpa using hr)
  | release => exact ⟨hordered, hscope⟩
  | extend hterms hbound =>
    refine ⟨hordered, fun hstrict => (hscope hstrict).later hgrows ?_⟩
    obtain ⟨hvalid, htype⟩ := hterms hstrict
    exact ((hvalid.mono hle).bound (hR hstrict) (htype.mono fun _ h => h.mono le_rfl hle) hbound
      (fun id hid => hle id (hid.trans_le hprimitives)) fun _ _ hid => hid).1
  | instantiate hterms hinst =>
    refine ⟨hordered, fun hstrict => (hscope hstrict).later hgrows ?_⟩
    exact hinst.over (hR hstrict) ((hterms hstrict).2.mono fun _ h => h.mono le_rfl hle)
  | indeterminate =>
    refine ⟨hordered.withIndeterminates _, fun hstrict => ?_⟩
    exact Contents.Within.inherits (hscope hstrict) (.refl _) rfl
  | pose hr _ _ hterms =>
    refine ⟨hordered.posing (waits hr).1 (waits hr).2, fun hstrict => ?_⟩
    obtain ⟨_, teles, hteles, hscoped⟩ := hterms hstrict
    refine Contents.Within.posing (hscope hstrict) (hscoped.obligation hteles hr) fun x hx => ?_
    exact hscoped.valid hteles (mem_posts_of_mem 0 hr hx)
  | run hrests _ =>
    exact ⟨Moves.ordered hrests hordered,
      fun hstrict => (hscope hstrict).rests hprimitives hrests _⟩
  | close hrests _ =>
    refine ⟨Store.wellFormed_empty rfl rfl rfl rfl, fun hstrict => ?_⟩
    exact ⟨((hscope hstrict).rests hprimitives hrests _).kernel, by simp [closed],
      by simp [closed]⟩

/-- Acts keep the stage good. -/
theorem Acts.good (h : Acts strict st st') (hst : st.Good strict) : st'.Good strict := by
  induction h with
  | refl => exact hst
  | tail _ hact ih => exact hact.good ih

/-! ### Indeterminates -/

/-- Unused declarations and indeterminates are old ones or numbered from `n` on. -/
def Since (n : Nat) (st st' : Stage) : Prop :=
  (∀ id ∈ st'.fresh, id ∈ st.fresh ∨ n ≤ id) ∧
    ∀ id ∈ st'.store.indeterminates, id ∈ st.store.indeterminates ∨ id ∈ st.fresh ∨ n ≤ id

private theorem Act.since (h : Act strict st st') (hst : st.Good strict) :
    Since st.kernel.nextSymbol st st' := by
  cases h with
  | calm | symbol | extend | instantiate => exact ⟨fun _ h => .inl h, fun _ h => .inl h⟩
  | declare =>
    refine ⟨fun id hid => ?_, fun _ h => .inl h⟩
    rcases mem_cons.1 hid with rfl | hid
    · exact .inr le_rfl
    · exact .inl hid
  | release => exact ⟨fun _ h => .inl (mem_cons_of_mem _ h), fun _ h => .inl h⟩
  | indeterminate =>
    refine ⟨fun _ h => .inl (mem_cons_of_mem _ h), fun id' hid => ?_⟩
    dsimp only at hid
    split at hid
    · exact .inl hid
    · rcases mem_cons.1 hid with rfl | hid
      · exact .inr (.inl mem_cons_self)
      · exact .inl hid
  | @pose s _ _ _ _ o es =>
    refine ⟨fun _ h => .inl (mem_append_right _ h), fun id hid => .inl ?_⟩
    rwa [Store.indeterminates_posing] at hid
  | run hrests _ =>
    refine ⟨fun _ h => .inl h, fun id hid => ?_⟩
    exact (Moves.of_mem_indeterminates hrests hst.ordered hid).imp_right .inr
  | close => exact ⟨fun _ h => .inl h, nofun⟩

theorem Acts.since (h : Acts strict st st') (hst : st.Good strict) :
    Since st.kernel.nextSymbol st st' := by
  induction h with
  | refl => exact ⟨fun _ h => .inl h, fun _ h => .inl h⟩
  | tail hacts hact ih =>
    have hle := (Acts.grows hacts).symbols
    obtain ⟨hfresh, hindet⟩ := hact.since (Acts.good hacts hst)
    refine ⟨fun id hid => ?_, fun id hid => ?_⟩
    · obtain hid | hid := hfresh id hid
      · exact ih.1 id hid
      · exact .inr (hle.trans hid)
    · obtain hid | hid | hid := hindet id hid
      · exact ih.2 id hid
      · exact .inr (ih.1 id hid)
      · exact .inr (.inr (hle.trans hid))

end Stage

open Session SessionM Stage

variable {strict : Prop} {α β : Type} {fresh fresh1 fresh' : List Nat} {s : Session} {k : Kernel}

/-- The action performs acts, which leave `fresh'` unused and an answer in `Q`, or stops after some
acts. -/
def Performs (strict : Prop) (fresh fresh' : List Nat) (x : SessionM α) (s : Session) (k : Kernel)
    (Q : α → Session → Kernel → Prop) : Prop :=
  Stage.Good strict ⟨s.store, k, fresh⟩ → EndsWith x s k
      (fun a s' k' => s'.embeds = s.embeds ∧
        Stage.Acts strict ⟨s.store, k, fresh⟩ ⟨s'.store, k', fresh'⟩ ∧ Q a s' k')
      (Stage.Stops strict ⟨s.store, k, fresh⟩)

namespace Performs

variable {x : SessionM α} {f : α → SessionM β} {Q Q' : α → Session → Kernel → Prop} {y : KernelM α}

theorem mono (h : Performs strict fresh fresh' x s k Q)
    (hQ : ∀ a s' k', Stage.Good strict ⟨s'.store, k', fresh'⟩ → Q a s' k' → Q' a s' k') :
    Performs strict fresh fresh' x s k Q' := by
  intro hgood
  refine (h hgood).imp ?_
  rintro a s' k' ⟨hembeds, hacts, hq⟩
  exact ⟨hembeds, hacts, hQ a s' k' (Acts.good hacts hgood) hq⟩

theorem pure {a : α} (h : Q a s k) : Performs strict fresh fresh (pure a) s k Q :=
  fun _ => ⟨rfl, .refl, h⟩

theorem bind {Q' : β → Session → Kernel → Prop} (h : Performs strict fresh fresh1 x s k Q)
    (hf : ∀ a s' k', s'.embeds = s.embeds → k.Grows k' →
      Stage.Good strict ⟨s'.store, k', fresh1⟩ → Q a s' k' →
      Performs strict fresh1 fresh' (f a) s' k' Q') :
    Performs strict fresh fresh' (x >>= f) s k Q' := by
  intro hgood
  refine (h hgood).seq ?_
  rintro a s' k' ⟨hembeds, hacts, hq⟩
  have hgood' := Acts.good hacts hgood
  refine (hf a s' k' hembeds (Acts.grows hacts) hgood' hq hgood').mono ?_ ?_
  · rintro b s'' k'' ⟨hembeds', hacts', hq'⟩
    exact ⟨hembeds'.trans hembeds, hacts.trans hacts', hq'⟩
  · rintro e k'' ⟨st, hacts', hhalt⟩
    exact ⟨st, hacts.trans hacts', hhalt⟩

/-- An action of the kernel performs acts of the session. -/
theorem lift_acts (h : Stage.Good strict ⟨s.store, k, fresh⟩ → Ends y k
      (fun a k' => Acts strict ⟨s.store, k, fresh⟩ ⟨s.store, k', fresh'⟩ ∧ Q a s k')
      (Stage.Stops strict ⟨s.store, k, fresh⟩)) :
    Performs strict fresh fresh' (liftM y) s k Q := by
  intro hgood
  rw [EndsWith.lift_iff]
  refine (h hgood).imp ?_
  rintro a k' ⟨hacts, hq⟩
  exact ⟨rfl, hacts, hq⟩

/-- An action of the kernel that is one act. -/
theorem lift (h : Stage.Good strict ⟨s.store, k, fresh⟩ → Ends y k
      (fun a k' => Act strict ⟨s.store, k, fresh⟩ ⟨s.store, k', fresh'⟩ ∧ Q a s k')
      (Halt ⟨s.store, k, fresh⟩)) :
    Performs strict fresh fresh' (liftM y) s k Q := by
  refine lift_acts fun hgood => (h hgood).mono ?_ fun e k' hhalt => ⟨_, .refl, hhalt⟩
  rintro a k' ⟨hact, hq⟩
  exact ⟨.single hact, hq⟩

/-- A declaration that was made is left to the program. -/
theorem release {id : Nat} (h : Performs strict fresh (id :: fresh') x s k Q) :
    Performs strict fresh fresh' x s k Q := by
  intro hgood
  refine (h hgood).imp ?_
  rintro a s' k' ⟨hembeds, hacts, hq⟩
  exact ⟨hembeds, hacts.tail .release, hq⟩

/-- An action of the kernel that leaves symbols and rules as they are. -/
theorem lift_calm (h : Stage.Good strict ⟨s.store, k, fresh⟩ → Ends y k
      (fun a k' => k.Calm k' ∧ k.Grows k' ∧ Q a s k')
      fun e k' => e.ofTable = false ∧ k.Extends k') :
    Performs strict fresh fresh (liftM y) s k Q := by
  refine lift fun hgood => (h hgood).mono ?_ ?_
  · rintro a k' ⟨hcalm, hgrows, hq⟩
    exact ⟨.calm hcalm hgrows, hq⟩
  · rintro e k' ⟨htable, hextends⟩
    exact .other htable hextends

theorem note {e : Event} (he : e.ofObligation = false) :
    Performs strict fresh fresh (liftM (KernelM.note e)) s k fun _ _ _ => True :=
  lift_calm fun _ => ⟨⟨rfl, rfl, quiet_cons he _⟩, k.grows_journal _, trivial⟩

theorem get : Performs strict fresh fresh get s k fun a s' k' => a = s ∧ s' = s ∧ k' = k :=
  fun _ => ⟨rfl, .refl, rfl, rfl, rfl⟩

end Performs

/-! ### Actions on the store -/

namespace SessionM

private theorem absorb_spec (names : Names) (s : Session) (journal events : List Event) :
    (absorb names s journal events).1.store = s.store ∧
      (absorb names s journal events).1.embeds = s.embeds ∧
      Records journal events (absorb names s journal events).2 := by
  induction events generalizing s journal with
  | nil => exact ⟨rfl, rfl, [], rfl, fun _ _ => .rfl⟩
  | cons e events ih =>
    -- what is put before the journal for one event
    have hone : ∀ (s' : Session) (new : List Event), s'.store = s.store → s'.embeds = s.embeds →
        (∀ e', e'.ofObligation → (e' ∈ new ↔ e' = e)) →
        (absorb names s' (new ++ journal) events).1.store = s.store ∧
          (absorb names s' (new ++ journal) events).1.embeds = s.embeds ∧
          Records journal (e :: events) (absorb names s' (new ++ journal) events).2 := by
      intro s' new hstore hembeds hnew
      obtain ⟨hstore', hembeds', recorded, hrecorded, hsame⟩ := ih s' (new ++ journal)
      refine ⟨hstore'.trans hstore, hembeds'.trans hembeds, recorded ++ new, ?_, fun e' he' => ?_⟩
      · rw [hrecorded, append_assoc]
      · rw [mem_append, hsame e' he', hnew e' he', mem_cons, or_comm]
    cases e with
    | settled a =>
      rw [absorb]
      dsimp only
      split
      · exact hone { s with purposes := rememberFailed s.purposes a } [.settled a] rfl rfl
          fun _ _ => mem_singleton
      · next f hf =>
        refine hone { s with
          purposes := rememberFailed s.purposes a
          failures := s.failures ++ [f] } [.reported f, .settled a] rfl rfl fun e' he' => ?_
        rw [mem_cons, mem_singleton, or_iff_right]
        rintro rfl
        cases he'
    | _ => exact hone s [_] rfl rfl fun _ _ => mem_singleton

/-- Acting on the store: the journal starts anew, and is put before the old one afterwards. -/
theorem ends_onStore {x : StoreM α} {Q : α → Session → Kernel → Prop} {X : Stop → Kernel → Prop}
    (h : EndsWith x s.store { k with journal := [] }
      (fun a store k' => ∀ s' journal, s'.store = store → s'.embeds = s.embeds →
        Records k.journal k'.journal journal → Q a s' { k' with journal })
      fun e k' => ∀ journal, Records k.journal k'.journal journal → X e { k' with journal }) :
    EndsWith (onStore x) s k Q X := by
  have hreverse : ∀ {new journal : List Event}, Records k.journal new.reverse journal →
      Records k.journal new journal := by
    rintro new journal ⟨recorded, hrecorded, hsame⟩
    exact ⟨recorded, hrecorded, fun e he => (hsame e he).trans mem_reverse⟩
  unfold EndsWith Ends onStore at *
  cases hx : x s.store { k with journal := [] } with
  | ok a k' =>
    rw [hx] at h
    obtain ⟨hstore, hembeds, hrecords⟩ :=
      absorb_spec k'.names { s with store := a.2 } k.journal k'.journal.reverse
    exact h _ _ hstore hembeds (hreverse hrecords)
  | error e k' =>
    rw [hx] at h
    obtain ⟨_, _, hrecords⟩ := absorb_spec k'.names s k.journal k'.journal.reverse
    exact h _ (hreverse hrecords)

end SessionM

private theorem Records.quiet {journal journal' : List Event} (h : Records journal [] journal') :
    Quiet journal journal' := by
  obtain ⟨recorded, rfl, hsame⟩ := h
  exact ⟨recorded, rfl, fun e he => Bool.eq_false_iff.2 fun ho => nomatch (hsame e ho).1 he⟩

namespace Performs

private theorem onStore_silent {x : StoreM α} {store : Store}
    (hx : EndsWith x s.store { k with journal := [] }
      (fun _ store' k' => store' = store ∧ k' = { k with journal := [] })
      fun e k' => e.ofTable = false ∧ k' = { k with journal := [] })
    (hact : Act strict ⟨s.store, k, fresh⟩ ⟨store, k, fresh'⟩) :
    Performs strict fresh fresh' (onStore x) s k fun _ _ k' => k.Calm k' := by
  intro _
  refine ends_onStore (hx.mono ?_ ?_)
  · rintro a store' k' ⟨rfl, rfl⟩ s' journal rfl hembeds hrecords
    have hcalm : k.Calm { k with journal } := ⟨rfl, rfl, Records.quiet hrecords⟩
    exact ⟨hembeds, .tail (.single hact) (.calm hcalm (k.grows_journal _)), hcalm⟩
  · rintro e k' ⟨htable, rfl⟩ journal hrecords
    exact ⟨_, .refl, .other htable ⟨le_rfl, .refl _, fun _ h => h, Records.quiet hrecords⟩⟩

theorem pose {x : StoreM Nat} {ids : List Nat} {r : Request} {o : Obligation}
    {es : List (Equation × Slot)} (hr : r.obligation? = some (o, es))
    (hx : ∀ {Q : Nat → Store → Kernel → Prop} {X : Stop → Kernel → Prop},
      EndsWith x s.store { k with journal := [] } Q X ↔
        Q s.store.nextId (s.store.posing o es) { k with journal := [] })
    (hunknowns : o.unknowns = ids.map .decl)
    (hrule : ∀ q, r = .rule q → fresh = [] ∧ ∀ id, q.rule.head = .decl id →
      id < k.nextSymbol ∧ id ∉ s.store.indeterminates)
    (hscope : strict → (∀ q, r ≠ .rule q) ∧ ∃ teles,
      (∀ tele ∈ teles, tele.Valid (· < k.nextSymbol) k) ∧ r.Scoped (· < k.nextSymbol) teles) :
    Performs strict (ids ++ fresh) fresh (onStore x) s k fun _ _ k' => k.Calm k' :=
  onStore_silent (hx.2 ⟨rfl, rfl⟩) (.pose hr hunknowns hrule hscope)

theorem registerIndeterminate {id : Nat} : Performs strict (id :: fresh) fresh
      (onStore (registerIndeterminate (.decl id))) s k fun _ _ k' => k.Calm k' := by
  refine onStore_silent ?_ .indeterminate
  refine (ends_registerIndeterminate _ _ _).mono ?_ ?_
  · rintro _ store' k' ⟨rfl, id', hid, rfl⟩
    cases hid
    exact ⟨rfl, rfl⟩
  · rintro e k' ⟨rfl, rfl⟩
    exact ⟨rfl, rfl⟩

theorem run : Performs strict [] [] (onStore run) s k fun _ _ _ => True := by
  intro _
  refine ends_onStore ((ends_run _ _).mono ?_ ?_)
  · rintro _ store' k' hrests s' journal rfl hembeds hrecords
    exact ⟨hembeds, .single (.run hrests hrecords), trivial⟩
  · rintro e k' hstuck journal hrecords
    exact ⟨_, .refl, .store hstuck hrecords⟩

theorem close : Performs strict [] [] (onStore close) s k fun _ _ _ => True := by
  intro hgood
  refine ends_onStore ((ends_close hgood.ordered.keys hgood.ordered.queued.fresh).mono ?_ ?_)
  · rintro _ store' k' ⟨s1, k1, hrests, rfl, rfl⟩ s' journal hstore hembeds hrecords
    have hact : Act strict ⟨s.store, k, []⟩ ⟨closed s1, { k1 with journal }, []⟩ :=
      .close hrests hrecords
    exact ⟨hembeds, .single (hstore ▸ hact), trivial⟩
  · rintro e k' hstuck journal hrecords
    exact ⟨_, .refl, .store hstuck hrecords⟩

/-- What a session remembers besides its store does not matter. -/
theorem modify {g : Session → Session} (hstore : (g s).store = s.store)
    (hembeds : (g s).embeds = s.embeds) {Q : Unit → Session → Kernel → Prop} (h : Q () (g s) k) :
    Performs strict fresh fresh (modify g) s k Q :=
  fun _ => ⟨hembeds, hstore ▸ .refl, h⟩

end Performs
end Elaboration
