import Elaboration.Proofs.Obligation.Sound
import Elaboration.Proofs.Telescope.Client

/-!
# Whatever is reported as solved holds

A client makes symbols, closed rules and telescopes, and sends requests about terms in scope of
these telescopes. In every state that it reaches, the equations that were reported as solved hold.
-/

namespace Elaboration

open List Request Store StoreM Telescope Term

/-- An equation holds if its sides are equal under the rules and what its telescope assumes. -/
def equality : (scope anySymbol).Truth where
  Holds e k := e.Holds k
  muted _ := .rfl
  later hR hg he h := h.grows he hg hR
  step hR he _ hstep _ := by
    obtain ⟨_, hsolved, hderived⟩ := hstep.sound (fun _ _ => trivial) hR he fun _ _ _ => trivial
    exact ⟨hsolved, fun es hes => (hderived es hes).2⟩

variable {C : Contents} {T : C.Truth} {posed news : Postings} {base : List Event} {k : Kernel}
  {owner : Owner}

/-! ### Requests -/

/-- The term is in scope of the telescope. -/
def Telescope.Scopes (known : Nat → Prop) (tele : Telescope) (t : Term) : Prop :=
  t.All (Term.InScope known tele.depth)

namespace Request

/-- The equations that a request poses for an obligation numbered `id`, at once or later. -/
def posts (id : Nat) : Request → Postings
  | equation e => [(⟨id, .main⟩, e)]
  | cast c => [(⟨id, .main⟩, ⟨c.sourceType, c.targetType, c.telescope, true⟩)]
  | application a =>
    [(⟨id, .main⟩, ⟨a.functionType, a.expectedFunctionType, a.telescope, true⟩),
      (⟨id, .argument⟩, StoreM.argumentEquation a)]
  | rule r => (StoreM.conditions r).map fun x => (⟨id, x.2⟩, x.1)
  | _ => []

/-- The request is about terms in scope of a telescope of the client; a rule is closed. -/
def Scoped (known : Nat → Prop) (teles : List Telescope) : Request → Prop
  | equation e =>
    e.telescope ∈ teles ∧ e.telescope.Scopes known e.lhs ∧ e.telescope.Scopes known e.rhs
  | cast c =>
    c.telescope ∈ teles ∧ ∀ t ∈ [c.sourceType, c.source, c.targetType], c.telescope.Scopes known t
  | application a =>
    a.telescope ∈ teles ∧ ∀ t ∈ [a.functionType, a.function, a.expectedFunctionType, a.argumentType,
      a.argument, a.expectedArgumentType], a.telescope.Scopes known t
  | rule r =>
    r.telescope ∈ teles ∧ r.rule.Over (Term.InScope known 0) ∧
      (∀ x ∈ (r.patternType, r.replacementType) :: r.checks,
        r.telescope.Scopes known x.1 ∧ r.telescope.Scopes known x.2)
  | _ => True

variable {known : Nat → Prop} {teles : List Telescope} {r : Request} {id : Nat} {o : Obligation}
  {es : List (Equation × Slot)} {x : Owner × Equation}

theorem obligation_of_mem_posts (h : x ∈ r.posts id) :
    x.1.obligation = id := by
  cases r with
  | rule r =>
    obtain ⟨y, _, rfl⟩ := mem_map.1 h
    rfl
  | application a =>
    rcases mem_cons.1 h with rfl | h
    · rfl
    · cases mem_singleton.1 h
      rfl
  | equation e | cast c =>
    cases mem_singleton.1 h
    rfl
  | _ => cases h

private theorem pose_of_mem (h : r.obligation? = some (o, es)) {x : Equation × Slot} (hx : x ∈ es) :
    (r.posts id).Pose ⟨id, x.2⟩ x.1 ∧ x.2 ≠ .argument := by
  cases r with
  | equation e =>
    cases h
    cases mem_singleton.1 hx
    refine ⟨⟨⟨e, mem_singleton.2 rfl⟩, fun e' he' => ?_⟩, by simp⟩
    cases mem_singleton.1 he'
    exact ⟨_, rfl⟩
  | cast c =>
    cases h
    cases mem_singleton.1 hx
    exact ⟨⟨⟨_, mem_singleton.2 rfl⟩, by simp [posts]⟩, by simp⟩
  | application a =>
    cases h
    cases mem_singleton.1 hx
    exact ⟨⟨⟨_, mem_cons_self⟩, by simp [posts]⟩, by simp⟩
  | rule r =>
    have hnodup := (waits h).2
    cases h
    refine ⟨⟨⟨x.1, mem_map.2 ⟨x, hx, rfl⟩⟩, fun e he => ?_⟩, ?_⟩
    · obtain ⟨y, hy, heq⟩ := mem_map.1 he
      have hslot : y.2 = x.2 := congrArg (fun z => z.1.slot) heq
      cases inj_on_of_nodup_map hnodup hy hx hslot
      cases heq
      exact ⟨_, rfl⟩
    · intro hslot
      have hmem := mem_map_of_mem (f := Prod.snd) hx
      rw [openSlots_ruleProgress, hslot] at hmem
      exact argument_notMem_openSlots hmem
  | _ => cases h

private theorem pose_argument {a : Application} (h : r.obligation? = some (.application a, es)) :
    (r.posts id).Pose ⟨id, .argument⟩ (argumentEquation a) := by
  cases r with
  | application a =>
    cases h
    refine ⟨⟨_, mem_cons_of_mem _ mem_cons_self⟩, fun e he => ?_⟩
    rcases mem_cons.1 he with he | he
    · cases he
    · cases mem_singleton.1 he
      exact ⟨_, rfl⟩
  | _ => cases h

private theorem Scoped.inScope (h : r.Scoped known teles) (hx : x ∈ r.posts id) :
    x.2.telescope ∈ teles ∧ x.2.telescope.Scopes known x.2.lhs ∧
      x.2.telescope.Scopes known x.2.rhs := by
  cases r with
  | equation e =>
    cases mem_singleton.1 hx
    exact h
  | cast c =>
    cases mem_singleton.1 hx
    exact ⟨h.1, h.2 _ (by simp), h.2 _ (by simp)⟩
  | application a =>
    rcases mem_cons.1 hx with rfl | hx
    · exact ⟨h.1, h.2 _ (by simp), h.2 _ (by simp)⟩
    · cases mem_singleton.1 hx
      exact ⟨h.1, h.2 _ (by simp [argumentEquation]), h.2 _ (by simp [argumentEquation])⟩
  | rule r =>
    obtain ⟨htele, _, hterms⟩ := h
    obtain ⟨y, hy, rfl⟩ := mem_map.1 hx
    obtain ⟨c, hc, heq⟩ := exists_of_mem_conditions hy
    rw [heq]
    exact ⟨htele, hterms c hc⟩
  | _ => cases hx

theorem Scoped.valid (h : r.Scoped known teles) (hteles : ∀ tele ∈ teles, tele.Valid known k)
    (hx : x ∈ r.posts id) : x.2.Valid known k := by
  obtain ⟨htele, hl, hr⟩ := h.inScope hx
  exact ⟨hteles _ htele, covers_of_all hl, covers_of_all hr⟩

theorem mem_posts_of_mem (n : Nat) (h : r.obligation? = some (o, es)) {x : Equation × Slot}
    (hx : x ∈ es) : (⟨n, x.2⟩, x.1) ∈ r.posts n := by
  cases r with
  | equation e | cast c | application a =>
    cases h
    cases mem_singleton.1 hx
    exact mem_cons_self
  | rule r =>
    cases h
    exact mem_map.2 ⟨x, hx, rfl⟩
  | _ => cases h

/-- What a request has installed later is in scope. -/
theorem Scoped.obligation (h : r.Scoped known teles) (hteles : ∀ tele ∈ teles, tele.Valid known k)
    (hr : r.obligation? = some (o, es)) : o.Scoped known k := by
  have hdefines : ∀ {tele t}, tele ∈ teles → Scopes known tele t → tele.Defines known k t :=
    fun htele ht => ⟨hteles _ htele, covers_of_all ht⟩
  cases r with
  | equation e =>
    cases hr
    trivial
  | cast c =>
    cases hr
    exact hdefines h.1 (h.2 _ (by simp))
  | application a =>
    cases hr
    refine ⟨hdefines h.1 (h.2 _ (by simp)), hdefines h.1 (h.2 _ (by simp)), ?_⟩
    have hargument : (⟨0, .argument⟩, argumentEquation a) ∈ (application a).posts 0 :=
      mem_cons_of_mem _ mem_cons_self
    exact Scoped.valid h hteles hargument
  | rule r =>
    cases hr
    rintro _ ⟨⟩
    exact h.2.1
  | _ => cases hr

end Request

/-! ### Posing -/

namespace Postings

private theorem Pose.of_new {e : Equation} (h : news.Pose owner e)
    (hold : ∀ x ∈ posed, x.1 ≠ owner) :
    Pose (news ++ posed) owner e := by
  have hsame e' : (owner, e') ∈ news ++ posed ↔ (owner, e') ∈ news :=
    mem_append.trans (or_iff_left fun hmem => hold _ hmem rfl)
  simpa only [Pose, hsame] using h

private theorem mem_append_iff (hnew : ∀ x ∈ news, x.1 ≠ owner) (e : Equation) :
    (owner, e) ∈ news ++ posed ↔ (owner, e) ∈ posed :=
  mem_append.trans (or_iff_right fun hmem => hnew _ hmem rfl)

private theorem Pose.of_old {e : Equation} (h : posed.Pose owner e)
    (hnew : ∀ x ∈ news, x.1 ≠ owner) :
    Pose (news ++ posed) owner e := by
  simpa only [Pose, mem_append_iff hnew] using h

theorem Hold.of_old (h : posed.Hold T owner k) (hnew : ∀ x ∈ news, x.1 ≠ owner) :
    Hold T (news ++ posed) owner k := by
  simpa only [Hold, mem_append_iff hnew] using h

end Postings

namespace Store

variable {s : Store} {o : Obligation} {es : List (Equation × Slot)}

private theorem Justified.posing (h : Justified T posed s k) (hwf : WellFormed none none none s)
    (hold : ∀ x ∈ posed, x.1.obligation < s.nextId)
    (hnew : ∀ x ∈ news, x.1.obligation = s.nextId ∧ C.Equates x.2 k)
    (hes : ∀ x ∈ es, news.Pose ⟨s.nextId, x.2⟩ x.1 ∧ x.2 ≠ .argument)
    (ho : ∀ a, o = .application a → news.Pose ⟨s.nextId, .argument⟩ (argumentEquation a)) :
    Justified T (news ++ posed) (s.posing o es) k := by
  have hfresh : ∀ slot, ∀ x ∈ posed, x.1 ≠ ⟨s.nextId, slot⟩ := by
    rintro slot x hx heq
    have hlt := hold x hx
    rw [heq] at hlt
    exact lt_irrefl _ hlt
  have hother : ∀ owner : Owner, owner.obligation < s.nextId → ∀ x ∈ news, x.1 ≠ owner := by
    rintro owner hlt x hx rfl
    exact absurd (hnew x hx).1 hlt.ne
  have hlive : ∀ {i owner}, Rooted s.nodes i owner → owner.obligation < s.nextId := by
    intro i owner hi
    obtain ⟨o, ho⟩ := hwf.posed.owned hi
    exact hwf.posed.made ho
  have hposed : Justified T (news ++ posed) (s.withPosed o) k := by
    refine ⟨?_, h.solved, h.derived, ?_, ?_, ?_⟩
    · exact forall_mem_append.2 ⟨fun x hx => (hnew x hx).2, h.valid⟩
    · intro i n owner hi hroot
      exact (h.roots hi hroot).of_old (hother owner (hlive ⟨n, hi, hroot⟩))
    · intro i id hi
      have hlt : id < s.nextId := hlive hi
      exact (h.arguments hi).of_old (hother _ hlt)
    · intro id a ha
      rw [withPosed, Table.get?_set] at ha
      split at ha
      · next heq =>
        cases ha
        exact heq ▸ (ho a rfl).of_new (hfresh _)
      · exact (h.applications ha).of_old (hother _ (hwf.posed.made ha))
  refine hposed.withRoots hwf.trees.toShape ?_ _ fun x hx => ?_
  · exact fun j m hj => Nat.lt_succ_of_lt (hwf.queued.fresh j m hj)
  · obtain ⟨y, hy, rfl⟩ := mem_map.1 hx
    obtain ⟨hpose, hslot⟩ := hes y hy
    exact ⟨_, rfl, hpose.of_new (hfresh _), fun h => absurd h hslot⟩

end Store

private theorem Told.posing {bound bound' : Nat} (h : Told T base posed bound k)
    (hnew : ∀ x ∈ news, x.1.obligation = bound) (hbound : bound ≤ bound') :
    Told T base (news ++ posed) bound' k := by
  obtain ⟨new, hjournal, htold⟩ := h
  refine ⟨new, hjournal, fun event hevent owner hs => ?_⟩
  obtain ⟨hlt, hhold⟩ := htold event hevent owner hs
  refine ⟨hlt.trans_le hbound, hhold.of_old ?_⟩
  rintro x hx rfl
  exact absurd (hnew x hx) hlt.ne

/-! ### Clients -/

/-- A client with the kernel, a store of its own, the telescopes that it made and the equations that
it posed. -/
structure Client where
  kernel : Kernel
  store : Store
  telescopes : List Telescope
  posed : Postings

namespace Client

variable {teles : List Telescope}

/-- A client that has done nothing yet. -/
def start (k : Kernel) : Client := ⟨k, .initial k, [], []⟩

/-- What a client does next. -/
inductive Step : Client → Client → Prop where
  | prepare {k k' : Kernel} {teles teles' : List Telescope} (s : Store) (posed : Postings) :
    k.Prepares anySymbol teles teles' k' → Step ⟨k, s, teles, posed⟩ ⟨k', s, teles', posed⟩
  | request {k k' : Kernel} {s s' : Store} {teles : List Telescope} (posed : Postings)
      (r : Request) :
    r.Scoped anySymbol teles → r.perform s k = .ok ((), s') k' →
    Step ⟨k, s, teles, posed⟩ ⟨k', s', teles, r.posts s.nextId ++ posed⟩

/-- What a client may have done. -/
abbrev Steps : Client → Client → Prop := Relation.ReflTransGen Step

/-- Everything a client has is valid, and what its store marked or answered is justified. -/
structure Sound (base : List Event) (c : Client) : Prop where
  telescopes : ∀ tele ∈ c.telescopes, tele.Valid anySymbol c.kernel
  ordered : c.store.WellFormed none none none
  inScope : c.store.Scoped anySymbol c.kernel
  justified : c.store.Justified equality c.posed c.kernel
  told : Told equality base c.posed c.store.nextId c.kernel
  numbered : ∀ x ∈ c.posed, x.1.obligation < c.store.nextId
  plain : ∀ x ∈ c.posed, x.2.lhs.hasPlaceholder = false ∧ x.2.rhs.hasPlaceholder = false

theorem sound_start {k : Kernel} (hk : k.rules.Over (InScope anySymbol 0)) :
    (start k).Sound k.journal where
  telescopes _ h := nomatch h
  ordered := wellFormed_empty rfl rfl rfl rfl
  inScope := ⟨hk, by simp [start, initial], by simp [start, initial]⟩
  justified := by
    constructor <;> simp [start, initial, Rooted]
  told := ⟨[], rfl, by simp⟩
  numbered _ h := nomatch h
  plain _ h := nomatch h

private theorem Sound.moves {s : Store} {c' : Config}
    (h : Sound base ⟨k, s, teles, posed⟩) (hm : Moves ⟨.idle, s, k⟩ c') :
    c'.Ordered ∧ c'.Scoped anySymbol ∧ c'.Justified equality base posed ∧ k.Grows c'.kernel ∧
      s.nextId ≤ c'.store.nextId := by
  induction hm with
  | refl =>
    exact ⟨h.ordered, ⟨h.inScope, nofun⟩, ⟨h.justified, trivial, h.told⟩, .refl k, le_rfl⟩
  | tail _ hmove ih =>
    obtain ⟨ho, hs, hj, hg, hle⟩ := ih
    have hallows : ∀ n, (scope anySymbol).Allows n :=
      fun _ => ⟨fun _ _ => trivial, fun _ _ => trivial⟩
    exact ⟨hmove.ordered ho, (hs.move hmove (hallows _)).1,
      hmove.justified hj ho hs (hallows _), hg.trans hmove.grows, hle.trans hmove.nextId_le⟩

private theorem Sound.pose {s : Store} {r : Request} {o : Obligation}
    {es : List (Equation × Slot)} (h : Sound base ⟨k, s, teles, posed⟩)
    (hr : r.Scoped anySymbol teles) (ho : r.obligation? = some (o, es)) :
    Sound base ⟨k, s.posing o es, teles, r.posts s.nextId ++ posed⟩ := by
  have hnext : s.nextId + 1 ≤ (s.posing o es).nextId := by
    rw [posing, nextId_withAll]
    exact Nat.le_add_right _ _
  have hnew : ∀ x ∈ r.posts s.nextId, x.1.obligation = s.nextId ∧ x.2.Valid anySymbol k :=
    fun x hx => ⟨obligation_of_mem_posts hx, hr.valid h.telescopes hx⟩
  refine ⟨h.telescopes, ?_, ?_, ?_, ?_, ?_, ?_⟩
  · exact h.ordered.posing (waits ho).1 (waits ho).2
  · exact Contents.Within.posing h.inScope (hr.obligation h.telescopes ho)
      fun x hx => hr.valid h.telescopes (mem_posts_of_mem 0 ho hx)
  · refine h.justified.posing h.ordered h.numbered hnew (fun x hx => pose_of_mem ho hx) ?_
    rintro a rfl
    exact pose_argument ho
  · exact h.told.posing (fun x hx => (hnew x hx).1) (Nat.le_of_succ_le hnext)
  · refine forall_mem_append.2 ⟨fun x hx => ?_, fun x hx => ?_⟩
    · rw [(hnew x hx).1]
      exact hnext
    · exact (h.numbered x hx).trans_le (Nat.le_of_succ_le hnext)
  · refine forall_mem_append.2 ⟨fun x hx => ?_, h.plain⟩
    obtain ⟨_, hl, hr⟩ := hr.inScope hx
    exact ⟨hasPlaceholder_of_inScope hl, hasPlaceholder_of_inScope hr⟩

/-- What a client does keeps everything sound. -/
theorem Step.sound {c c' : Client} (h : Step c c') (hc : c.Sound base) : c'.Sound base := by
  cases h with
  | prepare s posed h =>
    obtain ⟨hg, hquiet, hR, hteles⟩ := h.sound hc.inScope.kernel hc.telescopes (fun _ _ => trivial)
      fun _ _ => trivial
    exact ⟨hteles, hc.ordered, Contents.Within.later hc.inScope hR hg,
      hc.justified.later hc.inScope hR hg, hc.told.quiet hc.justified.valid hR hg le_rfl hquiet,
        hc.numbered,
      hc.plain⟩
  | @request k k' s s' teles posed r hr hperform =>
    cases done_of_perform hc.ordered hperform with
    | pose ho hs hk =>
      subst hs hk
      exact hc.pose hr ho
    | register hs hk =>
      subst hs hk
      exact { hc with
        ordered := (ends_perform _ hc.ordered).of_ok hperform
        inScope := Contents.Within.inherits hc.inScope (.refl _) rfl
        justified := hc.justified.sub (fun _ _ h => h) fun _ _ h => h }
    | run hrests =>
      obtain ⟨ho, hs, hj, hg, hle⟩ := hc.moves hrests
      exact ⟨fun tele ht => (hc.telescopes tele ht).grows hg hs.store.kernel, ho, hs.store,
        hj.store,
        hj.told, fun x hx => (hc.numbered x hx).trans_le hle, hc.plain⟩
    | @close s1 k1 hrest hs' hk =>
      subst hs' hk
      obtain ⟨ho, hs, hj, hg, hle⟩ := hc.moves hrest
      have hnoted := k1.grows_noted (.closed (closed s1).failed)
      refine ⟨fun tele ht => ?_, wellFormed_empty rfl rfl rfl rfl, ?_, ?_, ?_, ?_, hc.plain⟩
      · exact (hc.telescopes tele ht).grows (hg.trans hnoted) hs.store.kernel
      · exact ⟨hs.store.kernel, by simp [closed], by simp [closed]⟩
      · have hnotes := hs.store.recorded (.closed (closed s1).failed :: k1.journal)
        refine (hj.store.later hs.store hnotes.kernel hnoted).sub ?_ ?_ <;> simp [closed]
      · exact hj.told.noted hj.store.valid hs.store.kernel nofun
      · exact fun x hx => (hc.numbered x hx).trans_le hle

private theorem Steps.sound {c c' : Client} (h : Steps c c') (hc : c.Sound base) :
    c'.Sound base := by
  induction h with
  | refl => exact hc
  | tail _ hstep ih => exact hstep.sound ih

end Client
end Elaboration
