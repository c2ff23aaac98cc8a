import Elaboration.Proofs.Obligation.Answers

/-!
# Equations that are only checked

An equation that is only checked defines nothing, and what is derived from it is only checked as
well. So are the equations of a rule once one of its side conditions has failed. Muting them follows
the lists of derived equations, whose numbers grow, so the number of equations bounds the depth.
-/

namespace Elaboration

variable {k k' : Kernel}

open EndsWith List StoreM Table
namespace Store

variable {nodes nodes' : Table Node} {i j : Nat} {n : Node} {owner : Owner}

/-- The equation was posed for a part of an obligation, or was derived, directly or not, from one
that was. -/
inductive Stems (nodes : Table Node) (owner : Owner) : Nat → Prop where
  | root {i : Nat} : Rooted nodes i owner → Stems nodes owner i
  | child {i above : Nat} {n : Node} : nodes.get? i = some n → n.parent = .child above →
    Stems nodes owner above → Stems nodes owner i

private theorem Stems.exists_rooted (h : Stems nodes owner i) : ∃ r, Rooted nodes r owner := by
  induction h with
  | root hroot => exact ⟨_, hroot⟩
  | child _ _ _ ih => exact ih

/-- The equation, if it is live, may define nothing. -/
def Muted (nodes : Table Node) (i : Nat) : Prop :=
  ∀ n, nodes.get? i = some n → n.equation.deduce = false

/-- What is left of the equations was posed for what it was, and may define no more than it could.
-/
def Confines (nodes nodes' : Table Node) : Prop :=
  ∀ i n', nodes'.get? i = some n' → ∃ n, nodes.get? i = some n ∧ n'.parent = n.parent ∧
    (n.equation.deduce = false → n'.equation.deduce = false)

private theorem Inherits.confines (h : Inherits nodes nodes') : Confines nodes nodes' := by
  intro i n' hn'
  obtain ⟨n, hn, hparent, _, may, hmay, hequation⟩ := h i n' hn'
  refine ⟨n, hn, hparent, fun hfalse => ?_⟩
  rw [hequation]
  exact Bool.eq_false_iff.2 fun htrue => nomatch hfalse.symm.trans (hmay htrue)

private theorem Confines.muted (h : Confines nodes nodes') (hi : Muted nodes i) :
    Muted nodes' i := by
  intro n' hn'
  obtain ⟨n, hn, _, hdeduce⟩ := h i n' hn'
  exact hdeduce (hi n hn)

private theorem Confines.stems (h : Confines nodes nodes') (hi : Stems nodes' owner i) :
    Stems nodes owner i := by
  induction hi with
  | root hroot =>
    obtain ⟨n', hn', howner⟩ := hroot
    obtain ⟨n, hn, hparent, _⟩ := h _ n' hn'
    exact .root ⟨n, hn, hparent.symm.trans howner⟩
  | child hn' habove _ ih =>
    obtain ⟨n, hn, hparent, _⟩ := h _ _ hn'
    exact .child hn (hparent.symm.trans habove) ih

private theorem confines_set (hi : nodes.get? i = some n) {n' : Node}
    (hparent : n'.parent = n.parent)
    (hequation : n'.equation = n.equation) : Confines nodes (nodes.set i n') := by
  intro j m hj
  rw [get?_set] at hj
  split at hj
  · next hij =>
    cases hj
    exact ⟨n, hij ▸ hi, hparent, fun hfalse => hequation ▸ hfalse⟩
  · exact ⟨m, hj, rfl, id⟩

/-! ### Muting a tree -/

/-- Number of live equations from one on. -/
def countFrom (nodes : Table Node) (i : Nat) : Nat := nodes.keys.countP (i ≤ ·)

private theorem countFrom_mono (hij : i ≤ j) : countFrom nodes j ≤ countFrom nodes i :=
  countP_mono_left fun x _ hx => by
    rw [decide_eq_true_iff] at hx ⊢
    exact hij.trans hx

private theorem countFrom_lt (hi : nodes.get? i = some n) (hij : i < j) :
    countFrom nodes j < countFrom nodes i := by
  have hmem : i ∈ nodes.keys := mem_map_of_mem (f := Prod.fst) (mem_of_get? hi)
  have hsplit : nodes.keys.countP (i ≤ ·) =
      nodes.keys.countP (j ≤ ·) + nodes.keys.countP (fun x => i ≤ x ∧ x < j) := by
    induction nodes.keys with
    | nil => rfl
    | cons x keys ih =>
      simp only [countP_cons, ih, decide_eq_true_iff]
      split <;> split <;> split <;> omega
  have hpos : 0 < nodes.keys.countP (fun x => i ≤ x ∧ x < j) :=
    countP_pos_iff.2 ⟨i, hmem, by simpa using hij⟩
  unfold countFrom
  omega

private theorem countFrom_le_size (nodes : Table Node) (i : Nat) : countFrom nodes i ≤ nodes.size :=
  countP_le_length.trans (length_map _).le

private theorem Mutes.lists {a b : Nat} (h : Mutes nodes nodes') :
    Lists nodes' a b ↔ Lists nodes a b := by
  constructor
  · rintro ⟨n', hn', hb⟩
    obtain ⟨n, hn, _, _, hchildren⟩ := h.of_get? hn'
    exact ⟨n, hn, hchildren ▸ hb⟩
  · rintro ⟨n, hn, hb⟩
    obtain ⟨n', hn', _, _, hchildren⟩ := h.exists_get? hn
    exact ⟨n', hn', hchildren ▸ hb⟩

private theorem muted_foldl {depth c : Nat} {cs : List Nat} (hc : c ∈ cs)
    (hmute : ∀ nodes', Mutes nodes nodes' → Muted (forbidDeducing depth nodes' c) j) :
    Muted (cs.foldl (forbidDeducing depth) nodes) j := by
  induction cs generalizing nodes with
  | nil => cases hc
  | cons x cs ih =>
    have hfirst := mutes_forbidDeducing depth nodes x
    obtain rfl | hc := mem_cons.1 hc
    · exact (mutes_foldl depth cs _).settles.inherits.confines.muted (hmute nodes (.refl nodes))
    · exact ih hc fun nodes' hnodes' => hmute nodes' (hfirst.trans hnodes')

private theorem muted_forbidDeducing (hup : ∀ a b, Lists nodes a b → a < b) {depth : Nat}
    (hdepth : countFrom nodes i ≤ depth) (hj : Below nodes i j) :
    Muted (forbidDeducing depth nodes i) j := by
  induction depth generalizing nodes i with
  | zero =>
    -- nothing is live from the root on
    have hle : i ≤ j := by
      induction hj with
      | refl => exact le_rfl
      | tail _ hlists ih => exact ih.trans (hup _ _ hlists).le
    intro m hm
    change nodes.get? j = some m at hm
    have hlt := countFrom_lt hm (Nat.lt_succ_self j)
    have hmono : countFrom nodes j ≤ countFrom nodes i := countFrom_mono hle
    omega
  | succ depth ih =>
    unfold forbidDeducing
    split
    · next hi =>
      obtain rfl | ⟨c, ⟨n, hn, _⟩, _⟩ := hj.cases_head
      · exact fun m hm => nomatch hi.symm.trans hm
      · exact nomatch hi.symm.trans hn
    · next n hi =>
      obtain rfl | ⟨c, ⟨n', hn', hc⟩, hbelow⟩ := hj.cases_head
      · refine (mutes_foldl depth n.children _).settles.inherits.confines.muted fun m hm => ?_
        rw [get?_set, if_pos rfl] at hm
        cases hm
        rfl
      · cases hi.symm.trans hn'
        refine muted_foldl hc fun nodes' hnodes' => ?_
        have hmutes := (mutes_set hi).trans hnodes'
        refine ih (fun a b hab => hup a b (hmutes.lists.1 hab)) ?_ ?_
        · have hlt := countFrom_lt hi (hup i c ⟨n, hi, hc⟩)
          have hsame : countFrom nodes' c = countFrom nodes c := by
            rw [countFrom, countFrom, hmutes.1]
          omega
        · exact Relation.ReflTransGen.mono (fun a b hab => hmutes.lists.2 hab) _ _ hbelow

private theorem muted_forbidding {s : Store} (hkeys : s.nodes.keys.Nodup) (hshape : Shape s.nodes)
    (hj : Stems s.nodes owner j) : Muted (s.forbidding owner.obligation).nodes j := by
  obtain ⟨r, hr, hbelow⟩ : ∃ r, Rooted s.nodes r owner ∧ Below s.nodes r j := by
    induction hj with
    | root hroot => exact ⟨_, hroot, .refl⟩
    | child hn habove _ ih =>
      obtain ⟨r, hr, hbelow⟩ := ih
      exact ⟨r, hr, hbelow.tail (hshape.up hn habove).2⟩
  have hup : ∀ {nodes}, Mutes s.nodes nodes → ∀ a b, Lists nodes a b → a < b := by
    intro nodes hmutes a b hab
    obtain ⟨n, hn, hb⟩ := hmutes.lists.1 hab
    obtain ⟨m, hm, hparent⟩ := hshape.down hn hb
    exact (hshape.up hm hparent).1
  refine muted_foldl (c := r) ?_ fun nodes hmutes => ?_
  · refine mem_map.2 ⟨(r, owner), mem_filter.2 ⟨(mem_roots hkeys).2 hr, ?_⟩, rfl⟩
    simp
  · refine muted_forbidDeducing (hup hmutes) ?_
      (Relation.ReflTransGen.mono (fun a b hab => hmutes.lists.2 hab) _ _ hbelow)
    have hsize : nodes.size = s.nodes.size := by
      simpa [Table.keys, size] using congrArg length hmutes.1
    exact hsize ▸ countFrom_le_size nodes r

/-- No equation that stems from a part of an obligation may define anything. -/
def Silenced (nodes : Table Node) (owner : Owner) : Prop := ∀ i, Stems nodes owner i → Muted nodes i

private theorem Confines.silenced (h : Confines nodes nodes') (hs : Silenced nodes owner) :
    Silenced nodes' owner :=
  fun _ hi => h.muted (hs _ (h.stems hi))

private theorem silenced_withAll {s : Store}
    (hup : ∀ i n above, s.nodes.get? i = some n → n.parent = .child above → above < i)
    (hfresh : ∀ i n, s.nodes.get? i = some n → i < s.nextId) {es : List (Equation × Parent)}
    (hbelow : ∀ x ∈ es, ∀ above, x.2 = .child above → above < s.nextId)
    (hs : Silenced s.nodes owner)
    (hes : ∀ x ∈ es, x.2 = .root owner ∨
      (∃ above, x.2 = .child above ∧ Stems s.nodes owner above) → x.1.deduce = false) :
    Silenced (s.withAll es).nodes owner := by
  have hnew : ∀ {i x}, (s.withAll es).nodes.get? i = some ⟨x.1, .ready, x.2, []⟩ → x ∈ es →
      x.2 = .root owner ∨ (∃ above, x.2 = .child above ∧ Stems s.nodes owner above) →
      Muted (s.withAll es).nodes i := by
    intro i x hi hx hparent m hm
    cases hi.symm.trans hm
    exact hes x hx hparent
  -- new equations are not below other new ones
  have hsplit : ∀ i, Stems (s.withAll es).nodes owner i →
      i < s.nextId ∧ Stems s.nodes owner i ∨
        s.nextId ≤ i ∧ Muted (s.withAll es).nodes i := by
    intro i hi
    induction hi with
    | root hroot =>
      obtain ⟨n, hn, hroot⟩ := hroot
      obtain hold | ⟨hle, _, x, hx, rfl⟩ := of_get?_withAll hn
      · exact .inl ⟨hfresh _ _ hold, .root ⟨n, hold, hroot⟩⟩
      · exact .inr ⟨hle, hnew hn (mem_of_getElem? hx) (.inl hroot)⟩
    | child hn habove _ ih =>
      obtain hold | ⟨hle, _, x, hx, rfl⟩ := of_get?_withAll hn
      · have hlt := hup _ _ _ hold habove
        have hi := hfresh _ _ hold
        obtain ⟨_, hstems⟩ | ⟨hle, _⟩ := ih
        · exact .inl ⟨hi, .child hold habove hstems⟩
        · omega
      · have hmem := mem_of_getElem? hx
        have hlt := hbelow x hmem _ habove
        obtain ⟨_, hstems⟩ | ⟨hle', _⟩ := ih
        · exact .inr ⟨hle, hnew hn hmem (.inr ⟨_, habove, hstems⟩)⟩
        · omega
  intro i hi
  obtain ⟨hlt, hstems⟩ | ⟨_, hmuted⟩ := hsplit i hi
  · intro n hn
    rw [get?_withAll_of_lt hlt] at hn
    exact hs i hstems n hn
  · exact hmuted

end Store

/-! ### What is only checked -/

private theorem Solver.Stepped.checked {e : Equation} {free left : Indeterminates}
    {v : Verdict} (h : Stepped e free k v left k') (hdeduce : e.deduce = false) :
    left = free ∧ ∀ es, v = .derived es → ∀ x ∈ es, x.deduce = false := by
  cases h with
  | vacuous => exact ⟨rfl, nofun⟩
  | @decided lhs rhs _ _ _ _ _ _ _ hd =>
    cases hd with
    | extracted htrue | imitated htrue => exact nomatch hdeduce.symm.trans htrue
    | deepened =>
      refine ⟨rfl, ?_⟩
      rintro _ ⟨⟩ x hx
      cases mem_singleton.1 hx
      exact hdeduce
    | symmetric hv =>
      refine ⟨rfl, ?_⟩
      rintro es rfl x hx
      unfold explodeSymmetric at hv
      split at hv <;> try split at hv <;> try split at hv
      all_goals cases hv
      obtain ⟨y, _, rfl⟩ := mem_map.1 hx
      exact hdeduce
    | unmentionable => exact ⟨rfl, nofun⟩
    | compared =>
      refine ⟨rfl, fun es hes => ?_⟩
      split at hes <;> cases hes

private theorem Kernel.Adds.ruleFor?_eq {old : Nat → Prop} (h : k.Adds old k')
    (hextends : k.Extends k') {id : Nat} (hid : id < k.nextSymbol) (hold : ¬ old id) :
    k'.rules.ruleFor? id = k.rules.ruleFor? id := by
  refine Option.ext fun r => ⟨fun hr => ?_, hextends.rules id r⟩
  obtain hr | hnew | ⟨hle, _⟩ := h.ruled id r hr
  · exact hr
  · exact absurd hnew hold
  · omega

private theorem StoreM.Resolved.nodes_of_refuses {owner : Owner} {out : Outcome} {s s' : Store}
    {p : RuleProgress} (h : Resolved owner out s k s' k')
    (hp : s.obligations.get? owner.obligation = some (.rule p)) (hrefuses : refuses p out) :
    s'.nodes = (s.forbidding owner.obligation).nodes := by
  cases h with
  | condition ho | lastCondition ho =>
    cases hp.symm.trans ho
    unfold conditionStore
    dsimp only
    rw [if_pos hrefuses, Store.failedIf_eq]
    split <;> rfl
  | equation ho | castSolved ho | castFailed ho | functionSolved ho | argumentSolved ho
  | applicationFailed ho => exact nomatch hp.symm.trans ho

/-- The rule of which a failed side condition is recorded. -/
def Event.failedCondition? : Event → Option Nat
  | .settled (.condition n _ (.failed _)) => some n
  | _ => none

namespace Store

variable {checked : Nat → Prop} {s s' : Store} {log : List (Nat × Request)} {events : List Event}
  {owner : Owner} {out : Outcome}

/-- The obligation is an equation that was posed to be checked. -/
def PosedChecked (log : List (Nat × Request)) (id : Nat) : Prop :=
  ∃ e, (id, .equation e) ∈ log ∧ e.deduce = false

/-- A side condition of the rule failed. -/
def ConditionFailed (events : List Event) (id : Nat) : Prop :=
  ∃ slot report, .settled (.condition id slot (.failed report)) ∈ events

private theorem ConditionFailed.of_mem {events : List Event} {e : Event} {id : Nat}
    (he : e ∈ events)
    (h : e.failedCondition? = some id) : ConditionFailed events id := by
  unfold Event.failedCondition? at h
  split at h
  · cases h
    exact ⟨_, _, he⟩
  · cases h

/-- The obligation may define nothing: it is an equation that is to be checked, or a rule that was
refused. -/
def Bars (checked : Nat → Prop) (s : Store) (id : Nat) : Prop :=
  checked id ∨ ∃ p, s.obligations.get? id = some (.rule p) ∧ p.undecided = false

/-- The equations of obligations that may define nothing may define nothing. -/
structure Restrained (checked : Nat → Prop) (s : Store) : Prop where
  plain : ∀ {id o}, checked id → s.obligations.get? id = some o → o = .equation
  silenced : ∀ {owner : Owner}, s.Bars checked owner.obligation → Silenced s.nodes owner

private theorem Restrained.confines (h : s.Restrained checked) (hn : Confines s.nodes s'.nodes)
    (ho : s'.obligations = s.obligations) : s'.Restrained checked where
  plain hid hget := h.plain hid (ho ▸ hget)
  silenced hbars := hn.silenced (h.silenced (hbars.imp_right fun ⟨p, hp, hfalse⟩ =>
    ⟨p, ho ▸ hp, hfalse⟩))

private theorem Restrained.resolved (h : s.Restrained checked)
    (hs : s.WellFormed none none (some owner))
    (hr : Resolved owner out s k s' k') : s'.Restrained checked where
  plain {id o} hid ho := by
    obtain ⟨_, hbefore⟩ | ⟨_, ⟨a, rfl, hbefore, _⟩ | ⟨p, _, rfl, hbefore⟩⟩ := hr.of_get? ho
    · exact h.plain hid hbefore
    · exact nomatch h.plain hid hbefore
    · exact nomatch h.plain hid hbefore
  silenced {owner'} hbars := by
    have hbefore : s.Bars checked owner'.obligation → Silenced s'.nodes owner' := by
      intro hbars
      obtain hmutes | ⟨a, ha, _, _, hnodes⟩ := hr.nodes
      · exact hmutes.settles.inherits.confines.silenced (h.silenced hbars)
      · rw [hnodes]
        change Silenced (s.withAll [(_, _)]).nodes owner'
        refine silenced_withAll (s := s) (fun _ _ _ hn hparent => (hs.trees.up hn hparent).1)
          hs.queued.fresh ?_ (h.silenced hbars) ?_
        · simp
        · -- an application is not barred
          intro x hx hparent
          cases mem_singleton.1 hx
          obtain hroot | ⟨_, hchild, _⟩ := hparent
          · cases hroot
            obtain hchecked | ⟨p, hp, _⟩ := hbars
            · exact nomatch h.plain hchecked ha
            · exact nomatch ha.symm.trans hp
          · cases hchild
    obtain hchecked | ⟨p', hp', hfalse⟩ := hbars
    · exact hbefore (.inl hchecked)
    · obtain ⟨_, hp'⟩ | ⟨hid, ⟨_, ho, _⟩ | ⟨p, outstanding, ho, hp⟩⟩ := hr.of_get? hp'
      · exact hbefore (.inr ⟨p', hp', hfalse⟩)
      · cases ho
      · cases ho
        cases hundecided : p.undecided with
        | false => exact hbefore (.inr ⟨p, hp, hundecided⟩)
        | true =>
          rw [(undecided_afterCondition ..).1, hundecided, Bool.true_and, Bool.not_eq_false']
            at hfalse
          intro i hi
          have hstems : Stems s.nodes owner' i := by
            obtain hmutes | ⟨a, ha, _⟩ := hr.nodes
            · exact hmutes.settles.inherits.confines.stems hi
            · rw [hid] at ha
              exact nomatch ha.symm.trans hp
          rw [hr.nodes_of_refuses (hid ▸ hp) hfalse, hid]
          exact muted_forbidding hs.keys hs.trees.toShape hstems

private theorem Restrained.posing {r : Request} {o : Obligation} {es : List (Equation × Slot)}
    (h : s.Restrained (PosedChecked log)) (hs : s.Balanced log events)
    (hr : r.obligation? = some (o, es)) :
    (s.posing o es).Restrained (PosedChecked ((s.nextId, r) :: log)) := by
  have hold : ∀ {id}, PosedChecked log id → id < s.nextId := by
    rintro id ⟨e, he, _⟩
    exact hs.made (.equation id) (mem_flatMap.2 ⟨_, he, mem_singleton_self _⟩)
  have hsplit : ∀ {id}, PosedChecked ((s.nextId, r) :: log) id →
      PosedChecked log id ∨ id = s.nextId ∧ ∃ e, r = .equation e ∧ e.deduce = false := by
    rintro id ⟨e, he, hfalse⟩
    obtain heq | he := mem_cons.1 he
    · cases heq
      exact .inr ⟨rfl, e, rfl, hfalse⟩
    · exact .inl ⟨e, he, hfalse⟩
  refine ⟨fun {id o'} hid ho => ?_, fun {owner} hbars => ?_⟩
  · rw [get?_posing] at ho
    obtain hid | ⟨rfl, e, rfl, _⟩ := hsplit hid
    · rw [if_neg (hold hid).ne'] at ho
      exact h.plain hid ho
    · rw [if_pos rfl] at ho
      cases ho
      cases hr
      rfl
  · have hparents : ∀ x ∈ es.map (fun x => (x.1, Parent.root ⟨s.nextId, x.2⟩)),
        ∀ above, x.2 ≠ .child above := by
      intro x hx above hchild
      obtain ⟨y, _, rfl⟩ := mem_map.1 hx
      cases hchild
    refine silenced_withAll (s := s.withPosed o)
      (fun _ _ _ hn hparent => (hs.ordered.trees.up hn hparent).1)
      (fun i n hn => Nat.lt_succ_of_lt (hs.ordered.queued.fresh i n hn))
      (fun x hx above hchild => absurd hchild (hparents x hx above)) ?_ ?_
    · by_cases howner : owner.obligation = s.nextId
      · -- nothing stems from an obligation that was not posed
        intro i hi
        obtain ⟨r, hroot⟩ := hi.exists_rooted
        obtain ⟨o', ho'⟩ := hs.ordered.posed.owned hroot
        exact absurd howner (hs.ordered.posed.made ho').ne
      · refine h.silenced (hbars.imp (fun hid => ?_) fun ⟨p, hp, hfalse⟩ => ⟨p, ?_, hfalse⟩)
        · exact (hsplit hid).resolve_right fun hnew => howner hnew.1
        · rwa [get?_posing, if_neg (Ne.symm howner)] at hp
    · rintro x hx (hroot | ⟨above, hchild, _⟩)
      · obtain ⟨y, hy, rfl⟩ := mem_map.1 hx
        cases hroot
        obtain hid | ⟨p, hp, hfalse⟩ := hbars
        · obtain hid | ⟨_, e, rfl, hfalse⟩ := hsplit hid
          · exact absurd (hold hid) (lt_irrefl _)
          · cases hr
            cases mem_singleton.1 hy
            exact hfalse
        · rw [get?_posing, if_pos rfl] at hp
          cases hp
          cases r <;> cases hr
          cases hfalse
      · exact absurd hchild (hparents x hx above)

/-! ### Rules that were refused -/

/-- A rule of which a side condition failed was refused. -/
def Refused (_ : List (Nat × Request)) (events : List Event) (s : Store) : Prop :=
  ∀ id slot out, .condition id slot out ∈ answersIn events → out.isSolved = false →
    ∀ o, s.obligations.get? id = some o → ∃ p, o = .rule p ∧ p.undecided = false

private theorem of_condition_mem {new : List Event} {id : Nat} {slot : Slot} {answer : Outcome}
    (hr : Resolved owner out s k s' k')
    (hnew : k'.journal = new ++ k.journal) (ha : .condition id slot answer ∈ answersIn new) :
    id = owner.obligation ∧ answer = out ∧
      ∃ p, s.obligations.get? owner.obligation = some (.rule p) := by
  obtain ⟨l, hl, hconcludes, _⟩ := hr.concludes
  cases recorded_eq hnew hl
  have hcondition : ∀ {p}, s.obligations.get? owner.obligation = some (.rule p) →
      .condition id slot answer ∈ conditionAnswers owner p out →
      id = owner.obligation ∧ answer = out ∧
        ∃ p, s.obligations.get? owner.obligation = some (.rule p) := by
    intro p hp hmem
    obtain heq | heq := of_mem_conditionAnswers hmem <;> cases heq
    exact ⟨rfl, rfl, p, hp⟩
  cases hconcludes with
  | onward _ _ _ has => simp [has] at ha
  | answer _ _ _ _ h has => obtain rfl | ⟨_, rfl⟩ := h <;> simp [has] at ha
  | condition hp _ _ _ has => exact hcondition hp (has ▸ ha)
  | decided _ hp _ _ _ has =>
    rw [has] at ha
    obtain heq | ha := mem_cons.1 ha
    · cases heq
    · exact hcondition hp ha

private theorem lasts_refused : Lasts Refused where
  initial _ _ _ _ ha := by cases ha
  logged _ h := h
  pose {log events s r o es} _ hbalanced h id slot answer ha hfalse o' ho' := by
    have hlt : id < s.nextId := hbalanced.lt_of_answered ha
    rw [get?_posing, if_neg hlt.ne'] at ho'
    exact h id slot answer ha hfalse o' ho'
  settle {log events new s s' k k' owner out} hs _ hr hnew h id slot answer ha hfalse o ho := by
    rw [answersIn_append] at ha
    obtain ha | ha := mem_append.1 ha
    · obtain ⟨rfl, rfl, p, hp⟩ := of_condition_mem hr hnew ha
      obtain ⟨hne, _⟩ | ⟨_, ⟨_, _, happlication, _⟩ | ⟨p', outstanding, rfl, _⟩⟩ := hr.of_get? ho
      · exact absurd rfl hne
      · subst_vars
        cases hp.symm.trans happlication
      · refine ⟨_, rfl, ?_⟩
        rw [(undecided_afterCondition ..).1, refuses, hfalse]
        cases p'.undecided <;> rfl
    · obtain ⟨_, hbefore⟩ | ⟨_, ⟨_, _, hbefore, _⟩ | ⟨p, outstanding, rfl, hbefore⟩⟩ :=
        hr.of_get? ho
      · exact h id slot answer ha hfalse o hbefore
      · exact h id slot answer ha hfalse o hbefore
      · obtain ⟨_, heq, hundecided⟩ := h id slot answer ha hfalse _ hbefore
        cases heq
        refine ⟨_, rfl, ?_⟩
        rw [(undecided_afterCondition ..).1, hundecided, Bool.false_and]
  quiet {log events new s s'} hquiet _ hsame h id slot answer ha hfalse o ho := by
    rw [answersIn_append] at ha
    obtain ha | ha := mem_append.1 ha
    · cases hquiet _ (mem_answersIn.1 ha)
    · exact h id slot answer ha hfalse o (hsame id ▸ ho)

end Store

/-! ### Along a history -/

namespace StoreM

open Store

variable {checked : Nat → Prop} {c c' : Config}

/-- The store is restrained, and what was derived from an equation that may define nothing may
define nothing. -/
structure Restrains (checked : Nat → Prop) (c : Config) : Prop where
  store : c.store.Restrained checked
  derived : ∀ {i es n}, c.phase = .acting i (.derived es) → c.store.nodes.get? i = some n →
    n.equation.deduce = false → ∀ e ∈ es, e.deduce = false

private theorem Restrains.move (h : Restrains checked c) (hm : Move c c') (hc : c.Ordered) :
    Restrains checked c' := by
  obtain ⟨hs, hderived⟩ := h
  have hidle : ∀ {phase : Phase} {s' : Store} {k' : Kernel}, (∀ i v, phase ≠ .acting i v) →
      s'.Restrained checked → Restrains checked ⟨phase, s', k'⟩ :=
    fun hphase hs' => ⟨hs', fun hacting => absurd hacting (hphase _ _)⟩
  obtain hmarks | hturn := hm.marks_or_turn
  · exact hidle hmarks.acting (hs.confines hmarks.nodes.inherits.confines hmarks.obligations)
  cases hturn with
  | @step s _ _ i _ n v _ hi hstepped =>
    refine ⟨hs.confines (Inherits.refl _).confines rfl, ?_⟩
    rintro _ es n' ⟨⟩ hn' hfalse
    cases hi.symm.trans hn'
    exact (hstepped.checked hfalse).2 es rfl
  | wake s k =>
    exact hidle (fun _ _ => nofun)
      (hs.confines (s.settles_woken _).inherits.confines (s.obligations_woken _))
  | stall hi =>
    exact hidle (fun _ _ => nofun) (hs.confines (inherits_marked hi .stalled).confines rfl)
  | @derive s s' k i n n' es hi hs' hn' =>
    have hwf := hc.1
    have hmark := (inherits_marked hi (.decomposed es.length)).confines
    have hlt : i < s.nextId := hwf.queued.fresh _ _ hi
    have hall : s'.Restrained checked := by
      have hobligations : s'.obligations = s.obligations := by
        rw [hs']
        exact obligations_withAll ..
      refine ⟨fun hid ho => hs.plain hid (hobligations ▸ ho), fun {owner} hbars => ?_⟩
      have hsilenced : Silenced s.nodes owner := hs.silenced (hbars.imp_right fun ⟨p, hp, hfalse⟩ =>
        ⟨p, hobligations ▸ hp, hfalse⟩)
      rw [hs']
      refine silenced_withAll (s := s.withNodes _) ?_ ?_ ?_ (hmark.silenced hsilenced) ?_
      · intro j m above hj habove
        obtain ⟨m', hm', hparent, _⟩ := hmark j m hj
        exact (hwf.trees.up hm' (hparent.symm.trans habove)).1
      · intro j m hj
        obtain ⟨m', hm', _⟩ := hmark j m hj
        exact hwf.queued.fresh j m' hm'
      · intro x hx above habove
        obtain ⟨e, _, rfl⟩ := mem_map.1 hx
        cases habove
        exact hlt
      · intro x hx hparent
        obtain ⟨e, he, rfl⟩ := mem_map.1 hx
        obtain hroot | ⟨_, hchild, hstems⟩ := hparent
        · cases hroot
        · cases hchild
          exact hderived rfl hi (hsilenced i (hmark.stems hstems) n hi) e he
    exact hidle (fun _ _ => nofun) (hall.confines (confines_set hn' rfl rfl) rfl)
  | settle hr => exact hidle (fun _ _ => nofun) (hs.resolved hc hr)

private theorem Restrains.moves (h : Restrains checked c) (hm : Moves c c') (hc : c.Ordered) :
    Restrains checked c' := by
  induction hm with
  | refl => exact h
  | tail hmoves hmove ih => exact ih.move hmove (Moves.ordered hmoves hc)

private theorem restrains_idle {s : Store} (h : s.Restrained checked) (k : Kernel) :
    Restrains checked ⟨.idle, s, k⟩ :=
  ⟨h, nofun⟩

end StoreM

namespace Store

variable {log : List (Nat × Request)} {events : List Event} {s s1 s2 : Store} {k1 k2 : Kernel}

private theorem History.restrained (h : History log events s) :
    s.Restrained (PosedChecked log) := by
  induction h with
  | initial k => exact ⟨nofun, fun _ i hi => (nomatch hi.exists_rooted)⟩
  | @perform log events new s s' k k' r hbefore hr _ ih =>
    have hs := hbefore.balanced
    have hother : ∀ {s'' : Store}, (∀ e, r ≠ .equation e) → s''.Restrained (PosedChecked log) →
        s''.Restrained (PosedChecked ((s.nextId, r) :: log)) := by
      intro s'' hne h''
      have hback : ∀ {id}, PosedChecked ((s.nextId, r) :: log) id → PosedChecked log id := by
        rintro id ⟨e, he, hfalse⟩
        obtain heq | he := mem_cons.1 he
        · cases heq
          exact absurd rfl (hne e)
        · exact ⟨e, he, hfalse⟩
      exact ⟨fun hid => h''.plain (hback hid), fun hbars => h''.silenced (hbars.imp_left hback)⟩
    cases done_of_perform hs.ordered hr with
    | pose hobligation hs' _ =>
      subst hs'
      exact ih.posing hs hobligation
    | register hs' _ =>
      subst hs'
      exact hother (fun _ => nofun) (ih.confines (Inherits.refl _).confines rfl)
    | run hmoves =>
      exact hother (fun _ => nofun) ((restrains_idle ih k).moves hmoves hs.ordered).store
    | close _ hs' _ =>
      subst hs'
      exact hother (fun _ => nofun) ⟨nofun, fun _ i hi => (nomatch hi.exists_rooted)⟩

/-- Steps on equations that were posed to be checked, or that belong to a rule of which a side
condition has failed, define nothing. -/
theorem History.step_defines_nothing {new : List Event} {owner : Owner} {i : Nat} {n : Node}
    {v : Verdict} (h : History log events s) (hmoves : StoreM.Moves ⟨.idle, s, k⟩ ⟨.idle, s1, k1⟩)
    (hnew : k1.journal = new ++ k.journal) (hn : s1.nodes.get? i = some n)
    (hstems : Stems s1.nodes owner i)
    (hchecked : PosedChecked log owner.obligation ∨
      ConditionFailed (new ++ events) owner.obligation)
    (hstep : StoreM.stepEquation n.equation s1 k1 = .ok (v, s2) k2) :
    s2.indeterminates = s1.indeterminates ∧
      ∀ id < k1.nextSymbol, k2.rules.ruleFor? id = k1.rules.ruleFor? id := by
  have hs := h.balanced
  have hordered := Moves.ordered hmoves hs.ordered
  have hrestrained := ((restrains_idle h.restrained k).moves hmoves hs.ordered).store
  have hbars : s1.Bars (PosedChecked log) owner.obligation := by
    refine hchecked.imp_right fun ⟨slot, report, hfailed⟩ => ?_
    obtain ⟨new', hnew', hrefused⟩ :=
      Moves.lasts lasts_refused hmoves hs.ordered hs.recorded (h.lasts lasts_refused)
    cases append_cancel_right (hnew.symm.trans hnew')
    obtain ⟨r, hroot⟩ := hstems.exists_rooted
    obtain ⟨o, ho⟩ := hordered.posed.owned hroot
    obtain ⟨p, rfl, hundecided⟩ := hrefused _ slot _ (mem_answersIn.2 hfailed) rfl o ho
    exact ⟨p, ho, hundecided⟩
  have hmuted := hrestrained.silenced hbars i hstems n hn
  have hends : EndsWith (stepEquation n.equation) s1 k1
      (fun v s2 k2 => Solver.Stepped n.equation s1.indeterminates k1 v s2.indeterminates k2)
      fun _ _ => True := by
    unfold stepEquation
    rw [bind_iff, get_iff, bind_iff, lift_iff]
    exact (Solver.ends_step n.equation s1.indeterminates k1).answer (fun _ _ _ h => h)
  have hstepped := hends.of_ok hstep
  have hsame := (hstepped.checked hmuted).1
  refine ⟨hsame, fun id hid => hstepped.adds.ruleFor?_eq hstepped.extends hid ?_⟩
  rintro ⟨hmem, hnot⟩
  exact hnot (hsame ▸ hmem)

/-- A side condition of a rule fails: the step on the other one, which relates two indeterminates,
defines neither. -/
theorem step_defines_nothing_of_refused : ∃ log events s k i n v s2 k2, History log events s ∧
    ConditionFailed events 0 ∧ s.nodes.get? i = some n ∧
    n.equation.lhs = .decl 10 ∧ n.equation.rhs = .decl 11 ∧ s.indeterminates = [11, 10] ∧
    StoreM.stepEquation n.equation s k = .ok (v, s2) k2 ∧
    s2.indeterminates = s.indeterminates ∧
    ∀ id < k.nextSymbol, k2.rules.ruleFor? id = k.rules.ruleFor? id := by
  let start : Kernel := { twoUnknowns with journal := [] }
  obtain ⟨⟨log, s⟩, k, hperformed, ⟨e, he, hfailed⟩, hindeterminates, n, hn, ⟨hlhs, hrhs, hparent⟩,
      ⟨v, s2⟩, k2, hstepped, -⟩ :
      ∃ x k, performAll [.rule refusedRule, .indeterminate (.decl 10),
        .indeterminate (.decl 11), .run] [] (initial start) start = .ok x k ∧
      (∃ e ∈ k.journal, e.failedCondition? = some 0) ∧
      x.2.indeterminates = [11, 10] ∧ ∃ n, x.2.nodes.get? 2 = some n ∧
      (n.equation.lhs = .decl 10 ∧ n.equation.rhs = .decl 11 ∧
        n.parent = .root ⟨0, .replacementType⟩) ∧
      ∃ y k2, stepEquation n.equation x.2 k = .ok y k2 ∧ True := by decide +kernel
  obtain ⟨new, hnew, hhistory⟩ := ((History.initial start).of_performAll _ start).of_ok hperformed
  rw [append_nil] at hnew hhistory
  have hcondition : ConditionFailed new 0 := hnew ▸ ConditionFailed.of_mem he hfailed
  exact ⟨log, new, s, k, 2, n, v, s2, k2, hhistory, hcondition, hn, hlhs, hrhs, hindeterminates,
    hstepped, hhistory.step_defines_nothing .refl (nil_append _).symm hn
      (.root ⟨n, hn, hparent⟩) (.inr hcondition) hstepped⟩

end Store
end Elaboration
