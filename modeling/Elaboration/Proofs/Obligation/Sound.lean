import Elaboration.Proofs.Obligation.Promises

/-!
# Every mark and every answer is justified

An equation marked as solved holds, one that was derived into others follows from these, and
whatever the journal reports as solved holds, all of it under the rules that are installed by then.
Every move keeps that.
-/

namespace Elaboration

open Event List

/-- Symbols are not restricted. -/
abbrev anySymbol : Nat → Prop := fun _ => True

/-- The event reports that the equation of a part of an obligation is solved. -/
inductive Event.Solves : Event → Owner → Prop where
  | settling (id : Nat) (slot : Slot) : Solves (.settling id slot true) ⟨id, slot⟩
  | equation (id : Nat) : Solves (.settled (.equation id .solved)) ⟨id, .main⟩
  | function (id : Nat) (wasFunction : Bool) :
    Solves (.settled (.application id .solved wasFunction)) ⟨id, .main⟩
  | argument (id : Nat) (wasFunction : Bool) :
    Solves (.settled (.application id .solved wasFunction)) ⟨id, .argument⟩
  | condition (id : Nat) (slot : Slot) : Solves (.settled (.condition id slot .solved)) ⟨id, slot⟩

private theorem Event.Solves.ofObligation {e : Event} {owner : Owner} (h : e.Solves owner) :
    e.ofObligation = true := by
  cases h <;> rfl

/-- Equations with the parts of obligations that they were posed for. -/
abbrev Postings := List (Owner × Equation)

/-- An equation was posed for a part of an obligation, its permission to define apart. -/
def Postings.Pose (posed : Postings) (owner : Owner) (e : Equation) : Prop :=
  (∃ e', (owner, e') ∈ posed) ∧ ∀ e', (owner, e') ∈ posed → ∃ deduce, e = { e' with deduce }

/-- What it means for an equation to hold, where the store contains what `C` says: it lasts, needs
no permissions, and steps find it or reduce it to that of others. -/
structure Contents.Truth (C : Contents) where
  Holds : Equation → Kernel → Prop
  muted {e k} (deduce : Bool) : Holds { e with deduce } k ↔ Holds e k
  later {e k k'} : C.Holds k' → C.Leads k k' → C.Equates e k → Holds e k → Holds e k'
  step {e free k v left k'} : C.Holds k → C.Equates e k → C.Allows k'.nextSymbol →
    Solver.Stepped e free k v left k' →
    Solver.step e free k = .ok (v, left) k' → (v = .solved → Holds e k') ∧
      ∀ es, v = .derived es → ∀ k'', C.Leads k' k'' → C.Holds k'' → (∀ c ∈ es, Holds c k'') →
        Holds e k''

/-- An equation follows from others, from now on. -/
def Contents.Truth.Follows {C : Contents} (T : C.Truth) (e : Equation) (k : Kernel)
    (es : List Equation) : Prop :=
  ∀ k', C.Leads k k' → C.Holds k' → (∀ c ∈ es, T.Holds c k') → T.Holds e k'

/-- An equation was posed for a part of an obligation, and what was posed for it holds. -/
def Postings.Hold {C : Contents} (T : C.Truth) (posed : Postings) (owner : Owner) (k : Kernel) :
    Prop :=
  (∃ e, (owner, e) ∈ posed) ∧ ∀ e, (owner, e) ∈ posed → T.Holds e k

variable {C : Contents} {T : C.Truth} {posed : Postings} {k k' : Kernel} {owner : Owner}
  {out : Outcome}

/-- Postings that hold go on holding. -/
theorem Postings.Hold.later (h : posed.Hold T owner k) (hposed : ∀ x ∈ posed, C.Equates x.2 k)
    (hk : C.Holds k') (hle : C.Leads k k') : posed.Hold T owner k' :=
  ⟨h.1, fun e he => T.later hk hle (hposed _ he) (h.2 e he)⟩

private theorem Postings.Pose.hold {e : Equation} (h : posed.Pose owner e) (he : T.Holds e k) :
    posed.Hold T owner k := by
  refine ⟨h.1, fun e' he' => ?_⟩
  obtain ⟨deduce, rfl⟩ := h.2 e' he'
  exact (T.muted deduce).1 he

private theorem Postings.Pose.deduce {e : Equation} (h : posed.Pose owner e) (deduce : Bool) :
    posed.Pose owner { e with deduce } := by
  refine ⟨h.1, fun e' he' => ?_⟩
  obtain ⟨_, rfl⟩ := h.2 e' he'
  exact ⟨deduce, rfl⟩

/-! ### Marks -/

namespace Store

/-- The marks of equations are justified. -/
structure Justified (T : C.Truth) (posed : Postings) (s : Store) (k : Kernel) : Prop where
  valid : ∀ x ∈ posed, C.Equates x.2 k
  solved : ∀ {i n}, s.nodes.get? i = some n → n.progress = .solved → T.Holds n.equation k
  derived : ∀ {i n r}, s.nodes.get? i = some n → n.progress = .decomposed r → ∀ k', C.Leads k k' →
    C.Holds k' → (∀ c ∈ n.children, ∃ m, s.nodes.get? c = some m ∧ T.Holds m.equation k') →
    T.Holds n.equation k'
  roots : ∀ {i n owner}, s.nodes.get? i = some n → n.parent = .root owner →
    posed.Pose owner n.equation
  /-- The argument of an application waits for its function. -/
  arguments : ∀ {i id}, Rooted s.nodes i ⟨id, .argument⟩ → posed.Hold T ⟨id, .main⟩ k
  applications : ∀ {id a}, s.obligations.get? id = some (.application a) →
    posed.Pose ⟨id, .argument⟩ (StoreM.argumentEquation a)

variable {s s' : Store} {i : Nat} {n : Node}

section

variable (h : Justified T posed s k)
include h

/-- Marks that are justified stay so. -/
theorem Justified.later (hs : C.Within s k) (hk : C.Holds k')
    (hle : C.Leads k k') : Justified T posed s k' where
  __ := h
  valid x hx := C.equates_later hk hle (h.valid x hx)
  solved hi hp := T.later hk hle (hs.equations hi) (h.solved hi hp)
  derived hi hp k'' hle' := h.derived hi hp k'' (C.trans hle hle')
  arguments hi := (h.arguments hi).later h.valid hk hle

private theorem Justified.inherits (hn : Inherits s.nodes s'.nodes)
    (hsolved : ∀ i n', s'.nodes.get? i = some n' → n'.progress = .solved → T.Holds n'.equation k)
    (hderived : ∀ i n' r, s'.nodes.get? i = some n' → n'.progress = .decomposed r →
      ∃ n r', s.nodes.get? i = some n ∧ n.progress = .decomposed r')
    (ho : ∀ id a, s'.obligations.get? id = some (.application a) →
      s.obligations.get? id = some (.application a)) : Justified T posed s' k where
  valid := h.valid
  solved hi hp := hsolved _ _ hi hp
  derived {i n' r} hi hp k' hle hk hchildren := by
    obtain ⟨n, r', hn1, hp1⟩ := hderived i n' r hi hp
    obtain ⟨n2, hn2, _, hsame, may, _, heq⟩ := hn i n' hi
    cases hn1.symm.trans hn2
    rw [heq]
    refine (T.muted may).2 (h.derived hn1 hp1 k' hle hk fun c hc => ?_)
    obtain ⟨m', hm', hholds⟩ := hchildren c (hsame ▸ hc)
    obtain ⟨m, hm, _, _, may', _, heq'⟩ := hn c m' hm'
    rw [heq'] at hholds
    exact ⟨m, hm, (T.muted may').1 hholds⟩
  roots {i n' owner} hi hroot := by
    obtain ⟨n, hn, hparent, _, may, _, heq⟩ := hn i n' hi
    rw [heq]
    exact (h.roots hn (hparent ▸ hroot)).deduce may
  arguments := by
    rintro i id ⟨n', hn', hroot⟩
    obtain ⟨n, hn, hparent, _⟩ := hn i n' hn'
    exact h.arguments ⟨n, hn, hparent ▸ hroot⟩
  applications ha := h.applications (ho _ _ ha)

private theorem Justified.marked (hi : s.nodes.get? i = some n) (p : Progress)
    (hsolved : p = .solved → T.Holds n.equation k)
    (hderived : ∀ r, p = .decomposed r → ∃ r', n.progress = .decomposed r')
    (hnodes : s'.nodes = Store.marked s.nodes i n p) (ho : s'.obligations = s.obligations) :
    Justified T posed s' k := by
  refine h.inherits (hnodes ▸ inherits_marked hi p) ?_ ?_ (by simp [ho])
  · intro j m' hj hp
    rw [hnodes] at hj
    obtain ⟨rfl, rfl⟩ | ⟨_, hj⟩ := eq_or_of_get?_marked hj
    · exact hsolved hp
    · exact h.solved hj hp
  · intro j m' r hj hp
    rw [hnodes] at hj
    obtain ⟨rfl, rfl⟩ | ⟨_, hj⟩ := eq_or_of_get?_marked hj
    · obtain ⟨r', hr'⟩ := hderived r hp
      exact ⟨n, r', hi, hr'⟩
    · exact ⟨m', r, hj, hp⟩

/-- Equations are removed. -/
theorem Justified.sub (hnodes : ∀ j m, s'.nodes.get? j = some m → s.nodes.get? j = some m)
    (ho : ∀ id a, s'.obligations.get? id = some (.application a) →
      s.obligations.get? id = some (.application a)) : Justified T posed s' k :=
  h.inherits (fun j m hj => ⟨m, hnodes j m hj, .refl m⟩)
    (fun _ _ hj hp => h.solved (hnodes _ _ hj) hp)
    (fun _ m r hj hp => ⟨m, r, hnodes _ _ hj, hp⟩) ho

private theorem Justified.mutes (hm : Mutes s.nodes s'.nodes)
    (ho : ∀ id a, s'.obligations.get? id = some (.application a) →
      s.obligations.get? id = some (.application a)) : Justified T posed s' k := by
  refine h.inherits hm.settles.inherits ?_ ?_ ho
  · intro i n' hi hp
    obtain ⟨_, may, hmay⟩ := hm
    obtain ⟨n, hn, rfl⟩ := Option.map_eq_some_iff.1 ((hmay i).symm.trans hi)
    exact (T.muted _).2 (h.solved hn hp)
  · intro i n' r hi hp
    obtain ⟨n, hn, hprogress, _⟩ := hm.of_get? hi
    exact ⟨n, r, hn, hprogress ▸ hp⟩

private theorem Justified.woken (generation : Nat) : Justified T posed (s.woken generation) k := by
  refine h.inherits (s.settles_woken generation).inherits ?_ ?_ (by simp [obligations_woken])
  · intro i n hi hp
    obtain ⟨m, hm, rfl | rfl⟩ := of_get?_woken hi
    · exact h.solved hm hp
    · cases hp
  · intro i n r hi hp
    obtain ⟨m, hm, rfl | rfl⟩ := of_get?_woken hi
    · exact ⟨n, r, hm, hp⟩
    · cases hp

private theorem Justified.decompose {es : List Equation}
    (hshape : Shape s.nodes) (hlt : ∀ j m, s.nodes.get? j = some m → j < s.nextId)
    (hi : s.nodes.get? i = some n) (hfollows : T.Follows n.equation k es) :
    Justified T posed (s.decomposed i n es) k where
  valid := h.valid
  solved hj hp := by
    obtain ⟨rfl, rfl⟩ | ⟨_, _, _, e, _, rfl⟩ | ⟨_, hj⟩ := of_get?_decomposed hj
    · cases hp
    · cases hp
    · exact h.solved hj hp
  derived {j m r} hj hp k' hle hk hchildren := by
    obtain ⟨rfl, rfl⟩ | ⟨_, _, _, e, _, rfl⟩ | ⟨_, hj⟩ := of_get?_decomposed hj
    · -- the new equations are listed in order
      refine hfollows k' hle hk fun e he => ?_
      obtain ⟨t, ht⟩ := mem_iff_getElem?.1 he
      have hlen : t < es.length := (List.getElem?_eq_some_iff.1 ht).1
      obtain ⟨m, hm, hholds⟩ := hchildren (s.nextId + t) (mem_range'_1.2 (by omega))
      have hfresh := hlt _ _ hi
      obtain ⟨hc, _⟩ | ⟨_, _, _, e', he', rfl⟩ | ⟨_, hold⟩ := of_get?_decomposed hm
      · omega
      · rw [Nat.add_sub_cancel_left, ht] at he'
        cases he'
        exact hholds
      · have hold := hlt _ _ hold
        omega
    · cases hp
    · refine h.derived hj hp k' hle hk fun c hc => ?_
      obtain ⟨m', hm', hholds⟩ := hchildren c hc
      obtain ⟨rfl, rfl⟩ | ⟨_, hnew, _, e, _, rfl⟩ | ⟨_, hm'⟩ := of_get?_decomposed hm'
      · exact ⟨n, hi, hholds⟩
      · obtain ⟨z, hz, _⟩ := hshape.down hj hc
        exact absurd (hlt _ _ hz) (Nat.not_lt_of_le hnew)
      · exact ⟨m', hm', hholds⟩
  roots {j m owner} hj hroot := by
    obtain ⟨rfl, rfl⟩ | ⟨_, _, _, e, _, rfl⟩ | ⟨_, hj⟩ := of_get?_decomposed hj
    · have hposed := h.roots hi (n := n) hroot
      exact hposed
    · cases hroot
    · exact h.roots hj hroot
  arguments hj := h.arguments ((rooted_decomposed hi hlt _ _).1 hj)
  applications ha := h.applications (by rwa [decomposed_update] at ha)

end

/-- Roots are added for parts of obligations. -/
theorem Justified.withRoots (h : Justified T posed s k) (hshape : Shape s.nodes)
    (hlt : ∀ j m, s.nodes.get? j = some m → j < s.nextId) (es : List (Equation × Parent))
    (hroots : ∀ x ∈ es, ∃ owner, x.2 = .root owner ∧ posed.Pose owner x.1 ∧
      (owner.slot = .argument → posed.Hold T ⟨owner.obligation, .main⟩ k)) :
    Justified T posed (s.withAll es) k where
  valid := h.valid
  solved hj hp := by
    obtain hj | ⟨_, _, x, _, rfl⟩ := of_get?_withAll hj
    · exact h.solved hj hp
    · cases hp
  derived hj hp k' hle hk hchildren := by
    obtain hj | ⟨_, _, x, _, rfl⟩ := of_get?_withAll hj
    · refine h.derived hj hp k' hle hk fun c hc => ?_
      obtain ⟨z, hz, hholds⟩ := hchildren c hc
      obtain ⟨y, hy, _⟩ := hshape.down hj hc
      rw [get?_withAll_of_lt (hlt _ _ hy)] at hz
      exact ⟨z, hz, hholds⟩
    · cases hp
  roots hj hroot := by
    obtain hj | ⟨_, _, x, hx, rfl⟩ := of_get?_withAll hj
    · exact h.roots hj hroot
    · obtain ⟨owner, howner, hpose, _⟩ := hroots x (mem_of_getElem? hx)
      cases howner.symm.trans hroot
      exact hpose
  arguments := by
    rintro j id ⟨m, hj, hroot⟩
    obtain hj | ⟨_, _, x, hx, rfl⟩ := of_get?_withAll hj
    · exact h.arguments ⟨m, hj, hroot⟩
    · obtain ⟨owner, howner, _, hfunction⟩ := hroots x (mem_of_getElem? hx)
      cases howner.symm.trans hroot
      exact hfunction rfl
  applications ha := h.applications (by rwa [obligations_withAll] at ha)

end Store

/-! ### Answers -/

namespace StoreM

open Store

variable {s s' : Store}

private theorem Resolved.slot_ne_main (h : Resolved owner out s k s' k') {a : Application}
    (ha : s.obligations.get? owner.obligation = some (.application a))
    (hnone : s'.obligations.get? owner.obligation = none) (hsolved : out.isSolved) :
    owner.slot ≠ .main := by
  cases h with
  | argumentSolved _ hne => exact hne
  | functionSolved => simp [withNode, withObligation, Table.get?_set] at hnone
  | applicationFailed _ hfailed => cases hsolved.symm.trans hfailed
  | equation ho | castSolved ho | castFailed ho | condition ho | lastCondition ho =>
    cases ha.symm.trans ho

private theorem Resolved.solves (h : Resolved owner out s k s' k')
    (hs : s.WellFormed none none (some owner)) :
    ∃ new, k'.journal = new ++ k.journal ∧ ∀ e ∈ new, ∀ owner', e.Solves owner' →
      out.isSolved ∧
        (owner' = owner ∨ owner.slot = .argument ∧ owner' = ⟨owner.obligation, .main⟩) := by
  obtain ⟨new, hnew, hconcludes, habout⟩ := h.concludes
  have hcondition : ∀ {p a owner'}, a ∈ conditionAnswers owner p out →
    (settled a).Solves owner' →
      out.isSolved ∧
        (owner' = owner ∨ owner.slot = .argument ∧ owner' = ⟨owner.obligation, .main⟩) := by
    intro p a owner' ha hsolves
    obtain rfl | rfl := of_mem_conditionAnswers ha <;> cases hsolves
    exact ⟨rfl, .inl rfl⟩
  have hrule : ∀ {p a}, owner.slot ∈ openSlots p →
      Obligation.promises owner.obligation (.rule p) = [Settlement.promise a] →
      a.promise = .condition owner.obligation owner.slot := by
    intro p a hslot hopen
    have hmem : .condition owner.obligation owner.slot ∈
        Obligation.promises owner.obligation (.rule p) := mem_append_left _ (mem_map_of_mem hslot)
    rw [hopen] at hmem
    exact (mem_singleton.1 hmem).symm
  refine ⟨new, hnew, fun e he owner' hsolves => ?_⟩
  obtain hnone | rfl | ⟨a, rfl, _⟩ := habout e he
  · cases hsolves <;> cases hnone
  · generalize out.isSolved = solved at hsolves ⊢
    cases hsolves
    exact ⟨rfl, .inl rfl⟩
  · have ha := mem_answersIn.2 he
    cases hconcludes with
    | onward _ _ _ hanswers =>
      rw [hanswers] at ha
      cases ha
    | answer ho hnone _ hopen hwhich hanswers =>
      rw [hanswers] at ha
      cases mem_singleton.1 ha
      obtain ⟨slots, hw, hslot⟩ := waits_of_settling hs ho
      obtain rfl | ⟨_, rfl⟩ := hwhich
      · cases hsolves
        cases hw with
        | equation | cast => exact ⟨rfl, .inl (by rw [← mem_singleton.1 hslot])⟩
        | function | argument => cases hopen
        | rule => cases hrule hslot hopen
      · cases hw with
        | equation | cast => cases hopen
        | rule => cases hrule hslot hopen
        | function =>
          refine absurd (mem_singleton.1 hslot) (h.slot_ne_main ho hnone ?_)
          cases hsolves <;> rfl
        | argument =>
          have hslot := mem_singleton.1 hslot
          cases hsolves with
          | function => exact ⟨rfl, .inr ⟨hslot, rfl⟩⟩
          | argument => exact ⟨rfl, .inl (by rw [← hslot])⟩
    | condition _ _ _ _ hanswers => exact hcondition (hanswers ▸ ha) hsolves
    | decided _ _ _ _ _ hanswers =>
      rw [hanswers] at ha
      obtain rfl | ha := mem_cons.1 ha
      · cases hsolves
      · exact hcondition ha hsolves

end StoreM

namespace Store

private theorem Justified.resolved {s s' : Store} (h : Justified T posed s k) (hs : C.Within s k)
    (hwf : WellFormed none none (some owner) s) (hr : StoreM.Resolved owner out s k s' k')
    (hhold : out.isSolved → posed.Hold T owner k) : Justified T posed s' k' := by
  obtain ⟨hs', hle⟩ := hs.resolved hr
  have h' : Justified T posed s k' := h.later hs hs'.kernel hle
  have hold : ∀ id a, s'.obligations.get? id = some (.application a) →
      s.obligations.get? id = some (.application a) := by
    intro id a ha
    obtain ⟨_, ha⟩ | ⟨_, ⟨_, _, ha, _⟩ | ⟨_, _, ⟨⟩, _⟩⟩ := hr.of_get? ha <;> exact ha
  obtain hmutes | ⟨a, ha, hslot, hsolved, hnodes⟩ := hr.nodes
  · exact h'.mutes hmutes hold
  · have howner : owner = ⟨owner.obligation, .main⟩ := by rw [← hslot]
    have hfunction := howner ▸ (hhold hsolved).later h.valid hs'.kernel hle
    have hposed : Justified T posed
        (s.withAll [(StoreM.argumentEquation a, .root ⟨owner.obligation, .argument⟩)]) k' := by
      refine h'.withRoots hwf.trees.toShape hwf.queued.fresh _ fun x hx => ?_
      cases mem_singleton.1 hx
      exact ⟨_, rfl, h.applications ha, fun _ => hfunction⟩
    exact hposed.sub (fun j m hj => hnodes ▸ hj) hold

end Store

open Store

variable {base : List Event} {bound bound' : Nat}

/-- The answers since `base` are justified, and were given on obligations numbered below `bound`. -/
def Told (T : C.Truth) (base : List Event) (posed : Postings) (bound : Nat) (k : Kernel) : Prop :=
  ∃ new, k.journal = new ++ base ∧ ∀ event ∈ new, ∀ owner, event.Solves owner →
    owner.obligation < bound ∧ posed.Hold T owner k

section Told

variable (h : Told T base posed bound k) (hposed : ∀ x ∈ posed, C.Equates x.2 k)

include h hposed

private theorem Told.later (hk : C.Holds k') (hle : C.Leads k k') (hbound : bound ≤ bound')
    (hnew : ∃ new, k'.journal = new ++ k.journal ∧ ∀ event ∈ new, ∀ owner, event.Solves owner →
      owner.obligation < bound' ∧ posed.Hold T owner k') : Told T base posed bound' k' := by
  obtain ⟨old, hold, htold⟩ := h
  obtain ⟨new, hjournal, hnew⟩ := hnew
  refine ⟨new ++ old, by rw [hjournal, hold, append_assoc], fun event hevent owner hs => ?_⟩
  rcases mem_append.1 hevent with hevent | hevent
  · exact hnew event hevent owner hs
  · obtain ⟨hlt, hhold⟩ := htold event hevent owner hs
    exact ⟨hlt.trans_le hbound, hhold.later hposed hk hle⟩

/-- No answer was given. -/
theorem Told.quiet (hk : C.Holds k') (hle : C.Leads k k') (hbound : bound ≤ bound')
    (hquiet : Quiet k.journal k'.journal) : Told T base posed bound' k' := by
  obtain ⟨new, hjournal, hnew⟩ := hquiet
  refine h.later hposed hk hle hbound ⟨new, hjournal, fun event hevent owner hs => ?_⟩
  exact nomatch (hnew event hevent).symm.trans hs.ofObligation

/-- An event that reports nothing was noted. -/
theorem Told.noted (hk : C.Holds k) {e : Event} (he : ∀ owner, ¬ e.Solves owner) :
    Told T base posed bound (k.noted e) := by
  obtain ⟨hk', hle⟩ := C.recorded (e :: k.journal) hk
  refine h.later hposed hk' hle le_rfl ⟨[e], rfl, fun event hevent owner hs => ?_⟩
  cases mem_singleton.1 hevent
  exact absurd hs (he owner)

end Told

namespace StoreM

variable {s : Store}

/-- What the store is about to mark or to answer is justified. -/
def Phase.Justified (T : C.Truth) (posed : Postings) (s : Store) (k : Kernel) : Phase → Prop
  | .acting i v => ∀ n, s.nodes.get? i = some n → (v = .solved → T.Holds n.equation k) ∧
    ∀ es, v = .derived es → T.Follows n.equation k es
  | .solving i => ∀ n, s.nodes.get? i = some n → T.Holds n.equation k
  | .settling owner out => out.isSolved → posed.Hold T owner k ∧
    (owner.slot = .argument → posed.Hold T ⟨owner.obligation, .main⟩ k)
  | .idle => True
  | .failing _ => True

/-- Marks and answers are justified. -/
structure Config.Justified (T : C.Truth) (base : List Event) (posed : Postings) (c : Config) :
    Prop where
  store : c.store.Justified T posed c.kernel
  phase : c.phase.Justified T posed c.store c.kernel
  told : Told T base posed c.store.nextId c.kernel

private theorem holds_of_remaining_zero {i : Nat} {n : Node} (h : s.Justified T posed k)
    {busy failing : Option Nat} (ht : Trees busy failing s.nodes) (hk : C.Holds k)
    (hi : s.nodes.get? i = some n)
    (hn : n.progress = .decomposed 0) : T.Holds n.equation k := by
  refine h.derived hi hn k (C.refl k) hk fun c hc => ?_
  obtain ⟨m, hm, _⟩ := ht.down hi hc
  have hsolved := countP_eq_zero.1 (ht.remaining hi hn).1 c hc
  rw [unsolved, hm] at hsolved
  exact ⟨m, hm, h.solved hm (by simpa using hsolved)⟩

private theorem hold_of_root {i : Nat} {n : Node} {owner : Owner}
    (h : s.Justified T posed k) (hi : s.nodes.get? i = some n) (hroot : n.parent = .root owner)
    (hholds : T.Holds n.equation k) :
    posed.Hold T owner k ∧ (owner.slot = .argument → posed.Hold T ⟨owner.obligation, .main⟩ k) := by
  refine ⟨(h.roots hi hroot).hold hholds, fun hslot => ?_⟩
  have howner : owner = ⟨owner.obligation, .argument⟩ := by rw [← hslot]
  exact h.arguments ⟨n, hi, howner ▸ hroot⟩

section Cases

variable {i : Nat} {n : Node} (hj : s.Justified T posed k) (hs : C.Within s k)

include hj hs

private theorem justified_stepped {v : Verdict} {left : Indeterminates} {rest : List Nat}
    (htold : Told T base posed s.nextId k) (hi : s.nodes.get? i = some n)
    (hstepped : Solver.Stepped n.equation s.indeterminates k v left k')
    (hstep : Solver.step n.equation s.indeterminates k = .ok (v, left) k')
    (hreached : C.Allows k'.nextSymbol) : Config.Justified T base posed
      ⟨.acting i v, { s with ready := rest, indeterminates := left }, k'.noted (.stepped i v)⟩ := by
  have he := hs.equations hi
  obtain ⟨hk1, hle1, _⟩ := C.step hs.kernel he hreached hstepped hstep
  obtain ⟨hk2, hle2⟩ := C.recorded (.stepped i v :: k'.journal) hk1
  obtain ⟨hsolved, hderived⟩ := T.step hs.kernel he hreached hstepped hstep
  refine ⟨?_, ?_, ?_⟩
  · exact (hj.later hs hk2 (C.trans hle1 hle2)).sub (fun _ _ hj => hj) fun _ _ h => h
  · intro n' hn'
    cases hi.symm.trans hn'
    exact ⟨fun hv => T.later hk2 hle2 (C.equates_later hk1 hle1 he) (hsolved hv),
      fun es hes k' hle' => hderived es hes k' (C.trans hle2 hle')⟩
  · have htold1 := htold.quiet hj.valid hk1 hle1 le_rfl hstepped.extends.quiet
    exact htold1.noted (fun x hx => C.equates_later hk1 hle1 (hj.valid x hx)) hk1 nofun

private theorem justified_solvedChild {above remaining : Nat} {m : Node} {store : Store}
    (htold : Told T base posed s.nextId k) (hi : s.nodes.get? i = some n)
    (hholds : T.Holds n.equation k) (hm : (marked s.nodes i n .solved).get? above = some m)
    (hr : m.progress = .decomposed (remaining + 1))
    (hstore : store =
      s.withNodes (marked (marked s.nodes i n .solved) above m (.decomposed remaining)))
    (ho : Config.Ordered ⟨if remaining = 0 then .solving above else .idle, store, k⟩) :
    Config.Justified T base posed
      ⟨if remaining = 0 then .solving above else .idle, store, k⟩ := by
  subst hstore
  have hmarked : (s.withNodes (marked s.nodes i n .solved)).Justified T posed k :=
    hj.marked hi .solved (fun _ => hholds) nofun rfl rfl
  have hj' : (s.withNodes (marked (marked s.nodes i n .solved) above m
      (.decomposed remaining))).Justified T posed k :=
    hmarked.marked hm (.decomposed remaining) nofun (fun _ _ => ⟨_, hr⟩) rfl rfl
  refine ⟨hj', ?_, htold⟩
  dsimp only
  by_cases hzero : remaining = 0
  · rw [if_pos hzero] at ho ⊢
    obtain ⟨hwf, _⟩ := ho
    subst hzero
    intro m' hm'
    cases (get?_marked_self _ _ _ _).symm.trans hm'
    exact holds_of_remaining_zero hj' hwf.trees hs.kernel (get?_marked_self _ _ _ _) rfl
  · rw [if_neg hzero]
    trivial

omit hs in
private theorem told_settled {s' : Store} {owner : Owner} {out : Outcome}
    (htold : Told T base posed s.nextId k) (hwf : WellFormed none none (some owner) s)
    (hphase : (Phase.settling owner out).Justified T posed s k)
    (hr : Resolved owner out s k s' k') (hk' : C.Holds k') (hle : C.Leads k k')
    (hnext : s.nextId ≤ s'.nextId) : Told T base posed s'.nextId k' := by
  obtain ⟨new, hjournal, hnew⟩ := hr.solves hwf
  refine htold.later hj.valid hk' hle hnext ⟨new, hjournal, fun event hevent owner' hsolves => ?_⟩
  obtain ⟨hsolved, hwhich⟩ := hnew event hevent owner' hsolves
  obtain ⟨o, hobligation⟩ := (hwf.posed.settling rfl).1
  have hlt := (hwf.posed.made hobligation).trans_le hnext
  obtain ⟨hown, hfunction⟩ := hphase hsolved
  obtain rfl | ⟨hslot, rfl⟩ := hwhich
  · exact ⟨hlt, hown.later hj.valid hk' hle⟩
  · exact ⟨hlt, (hfunction hslot).later hj.valid hk' hle⟩

omit hs in
private theorem justified_removeTree {p : Progress} (hi : s.nodes.get? i = some n)
    {nodes : Table Node} (hnodes : nodes = marked s.nodes i n p) :
    (s.withNodes (Store.removeTree nodes.size nodes i)).Justified T posed k := by
  subst hnodes
  exact hj.sub (fun j m hm => ((get?_removeTree_marked hi).1 hm).1) fun _ _ h => h

end Cases

/-- Every move keeps marks and answers justified. -/
theorem Move.justified {c c' : Config} (h : Move c c') (hc : c.Justified T base posed)
    (ho : c.Ordered) (hs : C.Covers c) (hallows : C.Allows c'.kernel.nextSymbol) :
    c'.Justified T base posed := by
  have ho' := h.ordered ho
  obtain ⟨hs', hle⟩ := hs.move h hallows
  have hnext := h.nextId_le
  have hkept : c'.kernel = c.kernel → Told T base posed c'.store.nextId c'.kernel := by
    intro hsame
    rw [hsame]
    exact hc.told.quiet hc.store.valid hs.store.kernel (C.refl _) hnext (.refl _)
  obtain ⟨hj, hphase, htold⟩ := hc
  have hk := hs.store.kernel
  cases h with
  | skip => exact ⟨hj.sub (fun _ _ hj => hj) fun _ _ h => h, trivial, hkept rfl⟩
  | step _ hi _ hstepped hstep =>
    exact justified_stepped hj hs.store htold hi hstepped hstep hallows
  | @wake s k _ =>
    refine ⟨(hj.later hs.store hs'.store.kernel hle).woken _, trivial, ?_⟩
    dsimp only
    rw [nextId_woken]
    split
    · exact htold.noted hj.valid hk nofun
    · exact htold
  | @actSolved s k i v hv =>
    refine ⟨hj, fun n hn => ?_, hkept rfl⟩
    obtain ⟨hsolved, hderived⟩ := hphase n hn
    obtain rfl | rfl := hv
    · exact hsolved rfl
    · exact hderived [] rfl k (C.refl k) hk (by simp)
  | actFailed => exact ⟨hj, trivial, hkept rfl⟩
  | actStalled hi =>
    exact ⟨hj.marked hi .stalled nofun nofun rfl rfl, trivial, hkept rfl⟩
  | @actDerived s s1 k i n n' es hes hi hs1 hn' =>
    refine ⟨?_, trivial, hkept rfl⟩
    obtain ⟨hwf, _⟩ := ho
    dsimp only
    rw [decomposed_eq (hwf.queued.fresh _ _ hi) hs1 hn']
    exact hj.decompose hwf.trees.toShape hwf.queued.fresh hi ((hphase n hi).2 es rfl)
  | solveRoot hi hroot hnodes =>
    exact ⟨justified_removeTree hj hi hnodes,
      fun _ => hold_of_root hj hi hroot (hphase _ hi), hkept rfl⟩
  | solveChild hi _ hnodes hm hr =>
    subst hnodes
    exact justified_solvedChild hj hs.store htold hi (hphase _ hi) hm hr rfl ho'
  | solveIdle hi _ hnodes =>
    exact ⟨hj.marked hi .solved (fun _ => hphase _ hi) nofun hnodes rfl, trivial, hkept rfl⟩
  | failRoot hi _ hnodes => exact ⟨justified_removeTree hj hi hnodes, nofun, hkept rfl⟩
  | failChild hi =>
    exact ⟨hj.marked hi .failed nofun nofun rfl rfl, trivial, hkept rfl⟩
  | settle hr =>
    exact ⟨hj.resolved hs.store ho hr fun hsolved => (hphase hsolved).1, trivial,
      told_settled hj htold ho hphase hr hs'.store.kernel hle hnext⟩
  | giveUp =>
    exact ⟨hj.sub (prunes_removeTree ..).sub fun _ _ h => h, nofun, hkept rfl⟩

end StoreM

end Elaboration
