import Elaboration.Proofs.Obligation.Closing
import Elaboration.Proofs.Obligation.Standing

/-!
# Where requests stand along a run

Whatever a request does, it takes the requests before it to their next stages, and declarations that
are reserved for obligations get rules only from these.
-/

namespace Elaboration

open Event List Option
namespace StoreM

open Store

/-- The requests of a log stand at their stages, and reserved declarations have rules only from
them. -/
structure Tracks (log : List (Nat × Request)) (reserved : List Nat) (passed : Config → Prop)
    (events : List Event) (c : Config) : Prop where
  recorded : c.store.Recorded log
  apart : ∀ d ∈ reserved, d < c.kernel.nextSymbol ∧ d ∉ c.store.indeterminates
  numbered : ∀ e ∈ events, ∀ id, e.obligation? = some id → id < c.store.nextId
  traced : ∀ d ∈ reserved, c.kernel.rules.hasRule d → ∃ x ∈ log, Installs events x.1 d x.2
  stands : ∀ x ∈ log, Stands passed events c x.1 x.2

variable {log : List (Nat × Request)} {reserved : List Nat} {passed passed' : Config → Prop}
  {events new : List Event} {c c' : Config} {es : List (Equation × Slot)} {r : Request}
  {o : Obligation}

/-- Nothing was settled. -/
theorem Tracks.unsettled (h : Tracks log reserved passed events c) (new : List Event)
    (hpassed : ∀ m, passed m → passed' m)
    (hget : ∀ id, c'.store.obligations.get? id = c.store.obligations.get? id)
    (hawaits : ∀ owner, c'.Awaits owner → c.Awaits owner)
    (hnext : c.store.nextId ≤ c'.store.nextId) (hrules : c.kernel.rules.Sub c'.kernel.rules)
    (hreserved : ∀ d ∈ reserved, d < c'.kernel.nextSymbol ∧ d ∉ c'.store.indeterminates ∧
      (c'.kernel.rules.hasRule d → c.kernel.rules.hasRule d))
    (hnew : ∀ e ∈ new, e.obligation? = none) : Tracks log reserved passed' (new ++ events) c' where
  recorded ho := h.recorded ((hget _).symm.trans ho)
  apart d hd := ⟨(hreserved d hd).1, (hreserved d hd).2.1⟩
  numbered e he id hid := by
    rcases mem_append.1 he with he | he
    · exact nomatch (hnew e he).symm.trans hid
    · exact (h.numbered e he id hid).trans_le hnext
  traced d hd hrule := by
    obtain ⟨x, hx, hinstalls⟩ := h.traced d hd ((hreserved d hd).2.2 hrule)
    exact ⟨x, hx, hinstalls.mono new⟩
  stands x hx := by
    refine (h.stands x hx).mono new hpassed (hget _) (fun slot => hawaits _) hrules ?_
    intro e he heq
    exact nomatch (hnew e he).symm.trans heq

private theorem Tracks.settle {owner : Owner} {out : Outcome} {s s' : Store} {k k' : Kernel}
    (h : Tracks log reserved passed events ⟨.settling owner out, s, k⟩)
    (hs : s.WellFormed none none (some owner)) (hr : Resolved owner out s k s' k')
    (hpassed : passed ⟨.settling owner out, s, k⟩) (hnew : k'.journal = new ++ k.journal) :
    Tracks log reserved passed (new ++ events) ⟨.idle, s', k'⟩ where
  recorded := hr.recorded h.recorded
  apart d hd := by
    obtain ⟨hlt, hnot⟩ := h.apart d hd
    exact ⟨hlt.trans_le hr.grows.symbols, by rwa [hr.indeterminates]⟩
  numbered e he id hid := by
    rcases mem_append.1 he with he | he
    · obtain hnone | hsome := hr.obligation?_of_mem hnew e he
      · exact nomatch hnone.symm.trans hid
      · cases hsome.symm.trans hid
        obtain ⟨o, ho⟩ := hr.exists_obligation
        exact (hs.posed.made ho).trans_le hr.ages.next
    · exact (h.numbered e he id hid).trans_le hr.ages.next
  traced d hd hrule := by
    obtain hold | ⟨r, hr, hinstalls⟩ := hr.installs hs h.recorded hnew hrule
    · obtain ⟨x, hx, hinstalls⟩ := h.traced d hd hold
      exact ⟨x, hx, hinstalls.mono new⟩
    · exact ⟨_, hr, hinstalls⟩
  stands x hx := by
    obtain ⟨id, r⟩ := x
    by_cases hid : owner.obligation = id
    · subst hid
      exact Stands.settle hs hr hpassed hnew (h.stands _ hx)
    · refine (h.stands _ hx).mono new (fun _ h => h) (hr.get?_of_ne hid) ?_ hr.grows.rules ?_
      · rintro slot (⟨_, hphase⟩ | ⟨i, hi⟩)
        · cases hphase
        · refine .inr ⟨i, (hr.of_rooted hs hi).resolve_right fun h => ?_⟩
          exact hid (congrArg Owner.obligation h.1).symm
      · intro e he heq
        obtain hnone | hsome := hr.obligation?_of_mem hnew e he
        · exact nomatch hnone.symm.trans heq
        · exact hid (some.inj (hsome.symm.trans heq))

private theorem Move.tracks (hmove : Move c c') (hc : c.Ordered)
    (h : Tracks log reserved passed events c) (hpassed : passed c)
    (hnew : c'.kernel.journal = new ++ c.kernel.journal) :
    Tracks log reserved passed (new ++ events) c' := by
  have hgrows := hmove.grows
  have hnext := hmove.nextId_le
  cases hmove.effect hc with
  | silent hs =>
    have hrules : c'.kernel.rules = c.kernel.rules := by
      obtain hk | ⟨count, hk⟩ := hs.kernel
      · rw [hk]
      · rw [hk]
        rfl
    refine h.unsettled new (fun _ h => h) (fun _ => by rw [hs.obligations]) hs.awaits hnext
      hgrows.rules (fun d hd => ?_) ?_
    · obtain ⟨hlt, hnot⟩ := h.apart d hd
      exact ⟨hlt.trans_le hgrows.symbols, by rwa [hs.indeterminates], hrules ▸ id⟩
    · obtain hk | ⟨count, hk⟩ := hs.kernel
      · rw [hk, self_eq_append_left] at hnew
        simp [hnew]
      · rw [hk] at hnew
        rw [recorded_eq (l := [.waking count]) hnew rfl]
        simp [obligation?]
  | @step i _ v k' _ hstep hk hobligations hawaits =>
    obtain ⟨quiet, hquiet, hsilent⟩ := hstep.extends.quiet
    refine h.unsettled new (fun _ h => h) (fun _ => by rw [hobligations]) hawaits hnext hgrows.rules
      (fun d hd => ?_) ?_
    · obtain ⟨hlt, hnot⟩ := h.apart d hd
      refine ⟨hlt.trans_le hgrows.symbols, fun hmem => ?_, fun hrule => ?_⟩
      · obtain hmem | ⟨hfresh, _⟩ := hstep.of_mem_left hmem
        · exact hnot hmem
        · exact absurd hfresh.1 (Nat.not_le_of_lt hlt)
      · rw [hk] at hrule
        obtain ⟨r, hr⟩ := isSome_iff_exists.1 hrule
        obtain hold | ⟨hmem, _⟩ | hfresh := hstep.adds.ruled d r hr
        · exact isSome_iff_exists.2 ⟨r, hold⟩
        · exact absurd hmem hnot
        · exact absurd hfresh.1 (Nat.not_le_of_lt hlt)
    · rw [hk] at hnew
      rw [recorded_eq (l := .stepped i v :: quiet) hnew (congrArg (_ :: ·) hquiet)]
      exact forall_mem_cons.2 ⟨rfl, fun e he => obligation?_eq_none (hsilent e he)⟩
  | settle hphase hidle hr =>
    obtain ⟨phase, s, k⟩ := c
    obtain ⟨phase', s', k'⟩ := c'
    cases hphase
    cases hidle
    exact h.settle hc hr hpassed hnew

private theorem Moves.tracks (hmoves : Moves c c') (hc : c.Ordered)
    (h : Tracks log reserved passed events c) (hpassed : ∀ m, Moves c m → Moves m c' → passed m) :
    ∃ new, c'.kernel.journal = new ++ c.kernel.journal ∧
      Tracks log reserved passed (new ++ events) c' := by
  induction hmoves with
  | refl => exact ⟨[], rfl, h⟩
  | @tail b c' hmoves hmove ih =>
    obtain ⟨new, hnew, hb⟩ := ih fun m hm hmb => hpassed m hm (hmb.tail hmove)
    have hordered := Moves.ordered hmoves hc
    obtain ⟨⟨new', hnew', _⟩, _⟩ := hmove.conserves hordered hb.recorded
    refine ⟨new' ++ new, by rw [hnew', hnew, append_assoc], ?_⟩
    rw [append_assoc]
    exact hmove.tracks hordered hb (hpassed b hmoves (.single hmove)) hnew'

private theorem Stands.of_promises {id : Nat} (h : r.promises id = []) :
    Stands passed events c id r := by
  cases r with
  | cast | application => cases h
  | rule q => simp [Request.promises] at h
  | _ => trivial

private theorem stands_posing {s : Store} {k : Kernel} (hr : r.obligation? = some (o, es))
    (hs : s.WellFormed none none none)
    (hnumbered : ∀ e ∈ events, ∀ id, e.obligation? = some id → id < s.nextId) :
    Stands passed events ⟨.idle, s.posing o es, k⟩ s.nextId r := by
  have hget : (s.posing o es).obligations.get? s.nextId = some o := by
    rw [get?_posing, if_pos rfl]
  cases r with
  | cast x =>
    cases hr
    exact CastStands.pending hget
  | application a =>
    cases hr
    refine .function hget ?_ fun slot hmem => lt_irrefl _ (hnumbered _ hmem _ rfl)
    rintro slot (⟨_, hphase⟩ | ⟨i, hi⟩)
    · cases hphase
    · obtain hi | ⟨_, x, hx, heq⟩ := rooted_posing _ hi
      · obtain ⟨o', ho'⟩ := hs.posed.owned hi
        exact absurd (hs.posed.made ho') (lt_irrefl _)
      · cases mem_singleton.1 (mem_of_getElem? hx)
        exact congrArg Owner.slot heq
  | rule q =>
    cases hr
    have hslots : openSlots (ruleProgress q) = q.slots := by
      rw [← openSlots_ruleProgress, conditions, map_append, map_snd_checkEquations,
        RuleRequest.slots, range_eq_range']
      rfl
    refine .undecided hget rfl rfl (fun slot hslot => hslots ▸ hslot) fun slot hslot => ?_
    exact .inl (hslots ▸ hslot)
  | _ => trivial

private theorem Tracks.posing {s : Store} {k : Kernel}
    (h : Tracks log reserved passed events ⟨.idle, s, k⟩) (hr : r.obligation? = some (o, es))
    (hs : s.WellFormed none none none) (hlog : ∀ p ∈ handed log, p.obligation < s.nextId) :
    Tracks ((s.nextId, r) :: log) reserved passed events ⟨.idle, s.posing o es, k⟩ where
  recorded := (Performed.of_posing (k := k) hr hs h.recorded).recorded
  apart d hd := by
    obtain ⟨hlt, hnot⟩ := h.apart d hd
    refine ⟨hlt, ?_⟩
    rwa [indeterminates_posing]
  numbered e he id hid :=
    (h.numbered e he id hid).trans_le (Performed.of_posing (k := k) hr hs h.recorded).next
  traced d hd hrule := by
    obtain ⟨x, hx, hinstalls⟩ := h.traced d hd hrule
    exact ⟨x, mem_cons_of_mem _ hx, hinstalls⟩
  stands x hx := by
    rcases mem_cons.1 hx with rfl | hx
    · exact stands_posing hr hs h.numbered
    obtain ⟨id, r'⟩ := x
    by_cases hid : s.nextId = id
    · -- only a request that is promised nothing has this number
      refine .of_promises (eq_nil_iff_forall_not_mem.2 fun p hp => ?_)
      have hlt := hlog p (mem_flatMap.2 ⟨_, hx, hp⟩)
      rw [Request.obligation_of_mem_promises hp] at hlt
      exact hlt.ne' hid
    · refine (h.stands _ hx).mono [] (fun _ h => h) ?_ ?_ (.refl _) (by simp)
      · rw [get?_posing, if_neg hid]
      · rintro slot (⟨_, hphase⟩ | ⟨i, hi⟩)
        · cases hphase
        · obtain hi | ⟨_, _, _, heq⟩ := rooted_posing _ hi
          · exact .inr ⟨i, hi⟩
          · exact absurd (congrArg Owner.obligation heq).symm hid

end StoreM

/-! ### Requests -/

namespace Request

/-- The store goes through a configuration while it performs a request. -/
def Passes (s : Store) (k : Kernel) (s' : Store) (k' : Kernel) (c : StoreM.Config) : Request → Prop
  | run => StoreM.Moves ⟨.idle, s, k⟩ c ∧ StoreM.Rests c s' k'
  | close => StoreM.Moves ⟨.idle, s, k⟩ c ∧ ∃ s1 k1, StoreM.Rests c s1 k1 ∧
      s' = StoreM.closed s1 ∧ k' = k1.noted (.closed s'.failed)
  | _ => False

end Request

namespace StoreM

open Store

variable {log : List (Nat × Request)} {reserved : List Nat} {passed passed' : Config → Prop}
  {events new : List Event} {s s' : Store} {k k' : Kernel} {r : Request} {m : Config}

private theorem Tracks.cons {c : Config} {id : Nat} (h : Tracks log reserved passed events c)
    (hr : r.promises id = []) : Tracks ((id, r) :: log) reserved passed events c where
  __ := h
  recorded ho := by
    obtain ⟨r', hr', hposes⟩ := h.recorded ho
    exact ⟨r', mem_cons_of_mem _ hr', hposes⟩
  traced d hd hrule := by
    obtain ⟨x, hx, hinstalls⟩ := h.traced d hd hrule
    exact ⟨x, mem_cons_of_mem _ hx, hinstalls⟩
  stands x hx := by
    rcases mem_cons.1 hx with rfl | hx
    · exact .of_promises hr
    · exact h.stands x hx

private theorem Tracks.mono {c : Config} (h : Tracks log reserved passed events c)
    (hpassed : ∀ m, passed m → passed' m) : Tracks log reserved passed' events c :=
  { h with stands := fun x hx =>
    (h.stands x hx).mono [] hpassed rfl (fun _ h => h) (.refl _) (by simp) }

/-- What a request does to the requests before it, and where they stand on the way. -/
theorem Tracks.perform (h : Tracks log reserved passed events ⟨.idle, s, k⟩)
    (hbalanced : s.Balanced log events) (hapart : ∀ d ∈ reserved, r ≠ .indeterminate (.decl d))
    (hr : r.perform s k = .ok ((), s') k') (hnew : k'.journal = new ++ k.journal)
    (hpassed : ∀ m, passed m → passed' m) (hpasses : ∀ m, r.Passes s k s' k' m → passed' m) :
    Tracks ((s.nextId, r) :: log) reserved passed' (new ++ events) ⟨.idle, s', k'⟩ := by
  have hs := hbalanced.ordered
  cases done_of_perform hs hr with
  | pose hobligation hs' hk =>
    subst hs' hk
    rw [self_eq_append_left] at hnew
    subst hnew
    exact (h.posing hobligation hs hbalanced.made).mono hpassed
  | @register id hs' hk =>
    subst hs' hk
    rw [self_eq_append_left] at hnew
    subst hnew
    refine .cons ?_ rfl
    refine h.unsettled [] hpassed (fun _ => rfl) ?_ le_rfl (.refl _) ?_ (by simp)
    · rintro owner (⟨_, hphase⟩ | hroot)
      · cases hphase
      · exact .inr hroot
    · intro d hd
      obtain ⟨hlt, hnot⟩ := h.apart d hd
      refine ⟨hlt, fun hmem => ?_, fun h => h⟩
      have hne : d ≠ id := by
        rintro rfl
        exact hapart d hd rfl
      dsimp only at hmem
      split at hmem
      · exact hnot hmem
      · exact (mem_cons.1 hmem).elim hne hnot
  | run hmoves =>
    obtain ⟨new', hnew', htracks⟩ := Moves.tracks hmoves hs (h.mono hpassed) fun m hm hm' =>
      hpasses m ⟨hm, hm'⟩
    cases append_cancel_right (hnew.symm.trans hnew')
    exact htracks.cons rfl
  | close =>
    obtain ⟨s1, k1, hempty, rfl, rfl⟩ := (ends_close_emptied hs h.recorded).of_ok hr
    obtain ⟨new', hnew', htracks⟩ := Moves.tracks hempty.moves hs (h.mono hpassed) fun m hm hm' =>
      hpasses m ⟨hm, s1, k1, hm', rfl, rfl⟩
    rw [recorded_eq (l := .closed (closed s1).failed :: new') hnew (congrArg (_ :: ·) hnew')]
    refine .cons ?_ rfl
    refine htracks.unsettled [.closed (closed s1).failed] (fun _ h => h) (fun id => ?_) ?_
      le_rfl (.refl _) (fun d hd => ⟨(htracks.apart d hd).1, ?_, fun h => h⟩) ?_
    · exact (hempty.get?_obligations hs id).symm
    · rintro owner (⟨_, hphase⟩ | ⟨i, n, hn, _⟩)
      · cases hphase
      · cases hn
    · exact not_mem_nil
    · simp [obligation?]

/-- Where the requests before stand while a request is performed. -/
theorem Tracks.passes (h : Tracks log reserved passed events ⟨.idle, s, k⟩)
    (hs : s.WellFormed none none none) (hm : r.Passes s k s' k' m)
    (hpassed : ∀ m, passed m → passed' m) (hpasses : ∀ m, r.Passes s k s' k' m → passed' m) :
    m.Ordered ∧ m.store.nextId ≤ s'.nextId ∧
      ∃ new, Tracks log reserved passed' (new ++ events) m := by
  have hmoves : Moves ⟨.idle, s, k⟩ m ∧ m.store.nextId ≤ s'.nextId ∧
      ∀ m', Moves ⟨.idle, s, k⟩ m' → Moves m' m → passed' m' := by
    cases r with
    | run =>
      obtain ⟨hm, hrest⟩ := hm
      exact ⟨hm, Moves.nextId_le hrest, fun m' hm' hm'' => hpasses m' ⟨hm', hm''.trans hrest⟩⟩
    | close =>
      obtain ⟨hm, s1, k1, hrest, rfl, rfl⟩ := hm
      exact ⟨hm, Moves.nextId_le hrest, fun m' hm' hm'' =>
        hpasses m' ⟨hm', s1, k1, hm''.trans hrest, rfl, rfl⟩⟩
    | _ => exact hm.elim
  obtain ⟨hmoves, hnext, hbetween⟩ := hmoves
  obtain ⟨new, _, htracks⟩ := Moves.tracks hmoves hs (h.mono hpassed) hbetween
  exact ⟨Moves.ordered hmoves hs, hnext, new, htracks⟩

/-- What is awaited belongs to a live obligation. -/
theorem Config.Ordered.exists_obligation (hm : m.Ordered) {owner : Owner} (h : m.Awaits owner) :
    ∃ o, m.store.obligations.get? owner.obligation = some o ∧
      owner.obligation < m.store.nextId := by
  obtain ⟨phase, s, k⟩ := m
  have hposed : ∃ settling, Posed settling s ∧
      ∀ owner out, phase = .settling owner out → settling = some owner := by
    cases phase with
    | idle => exact ⟨none, WellFormed.posed hm, nofun⟩
    | acting | solving | failing => exact ⟨none, hm.1.posed, nofun⟩
    | settling owner out =>
      refine ⟨some owner, WellFormed.posed hm, ?_⟩
      rintro _ _ ⟨⟩
      rfl
  obtain ⟨settling, hposed, hsettling⟩ := hposed
  have hlive : ∃ o, s.obligations.get? owner.obligation = some o := by
    obtain ⟨out, hphase⟩ | ⟨i, hi⟩ := h
    · exact (hposed.settling (hsettling _ _ hphase)).1
    · exact hposed.owned hi
  obtain ⟨o, ho⟩ := hlive
  exact ⟨o, ho, hposed.made ho⟩

/-- The argument of an application is posed only once its function is defined. -/
theorem Tracks.hasRule_of_awaits {a : Application} {id : Nat}
    (h : Tracks log reserved passed events m) (hm : m.Ordered) (hx : (id, .application a) ∈ log)
    (hawaits : m.Awaits ⟨id, .argument⟩) :
    ∃ f, a.functionUnknown = .decl f ∧ m.kernel.rules.hasRule f := by
  obtain ⟨o, ho, _⟩ := hm.exists_obligation hawaits
  have hdefined : Defined passed ⟨id, .main⟩ a.telescope a.functionUnknown a.function m.kernel := by
    cases h.stands _ hx with
    | function _ hmain => exact nomatch hmain _ hawaits
    | argument _ _ hd => exact hd
    | refused hnone | halfway hnone | solved hnone => exact nomatch ho.symm.trans hnone
  obtain ⟨_, f, _, _, hf, _, hrule⟩ := hdefined
  exact ⟨f, hf, isSome_iff_exists.2 ⟨_, hrule⟩⟩

end StoreM

end Elaboration
