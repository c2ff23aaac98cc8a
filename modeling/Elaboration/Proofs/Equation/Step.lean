import Elaboration.Equation.Solver
import Elaboration.Proofs.Telescope.Unassuming
import Elaboration.Proofs.Telescope.Valid

/-!
# What one step on an equation does

A step ends in one of a few ways, which are listed with what they did to the rules and to the
indeterminates. Attempts that come to nothing leave no trace.
-/

namespace Elaboration

open List Option Term

namespace Term

/-- Replacing arguments in an application. -/
theorem mapArgs?_app {f : Nat → Option Term} {g x r : Term} : (app g x).mapArgs? f = some r ↔
      ∃ g' x', g.mapArgs? f = some g' ∧ x.mapArgs? f = some x' ∧ r = app g' x' := by
  constructor
  · intro h
    obtain ⟨g', hg, h⟩ := bind_eq_some_iff.1 h
    obtain ⟨x', hx, h⟩ := bind_eq_some_iff.1 h
    exact ⟨g', x', hg, hx, (some.inj h).symm⟩
  · rintro ⟨g', x', hg, hx, rfl⟩
    exact bind_eq_some_iff.2 ⟨g', hg, bind_eq_some_iff.2 ⟨x', hx, rfl⟩⟩

end Term

namespace Flexible

variable {free : Indeterminates} {t r : Term} {f : Flexible}

/-- A term read as an indeterminate applied to arguments is that. -/
theorem of?_eq_some (h : of? free t = some f) :
    t = (decl f.id).apply f.args ∧ f.id ∈ free := by
  unfold of? at h
  split at h
  · next id levels hhead hlevels =>
    split at h
    · next hid =>
      cases h
      refine ⟨?_, hid.1⟩
      rw [← apply_head_args t, hhead]
      congr 1
      have hargs : ∀ (xs : List Term) (ls : List Nat),
          xs.mapM argIndex? = some ls → xs = ls.map arg := by
        intro xs
        induction xs with
        | nil =>
          intro ls hls
          cases hls
          rfl
        | cons x xs ih =>
          intro ls hls
          rw [mapM_cons] at hls
          obtain ⟨l, hl, hls⟩ := bind_eq_some_iff.1 hls
          obtain ⟨ls', hls', hls⟩ := bind_eq_some_iff.1 hls
          cases hls
          rw [map_cons, ← ih ls' hls']
          cases x <;> simp_all [argIndex?]
      exact hargs _ _ hlevels
    · cases h
  · cases h

/-- The slot of a level is the position at which the indeterminate is applied to it. -/
theorem slot?_eq_some {level : Nat} {u : Term} (h : f.slot? level = some u) :
    ∃ j, ∃ hj : j < f.levels.length, u = .arg j ∧ f.levels[j] = level := by
  obtain ⟨j, hj, rfl⟩ := map_eq_some_iff.1 h
  rw [idxOf?, findIdx?_eq_some_iff_getElem] at hj
  obtain ⟨hlt, heq, _⟩ := hj
  exact ⟨j, hlt, rfl, by simpa using heq⟩

/-- An indeterminate has as many arguments as levels. -/
@[simp] theorem length_args (f : Flexible) : f.args.length = f.levels.length := length_map _

private theorem subst_slot {level : Nat} {u : Term} (h : f.slot? level = some u) :
    u.subst f.args = .arg level := by
  obtain ⟨j, hj, rfl, rfl⟩ := slot?_eq_some h
  simp [subst, args, hj]

/-- Substituting the arguments undoes the abstraction. -/
theorem subst_of_mapArgs? (h : t.mapArgs? f.slot? = some r) : r.subst f.args = t := by
  induction t generalizing r with
  | app g x ihg ihx =>
    obtain ⟨g', x', hg, hx, rfl⟩ := mapArgs?_app.1 h
    rw [subst_app, ihg hg, ihx hx]
  | arg i => exact subst_slot h
  | _ =>
    cases h
    rfl

/-- The abstraction mentions the symbols of the term, and arguments of the indeterminate. -/
theorem all_of_mapArgs? {known : Nat → Prop} {d : Nat} (ht : t.All (InScope known d))
    (h : t.mapArgs? f.slot? = some r) : r.All (InScope known f.levels.length) := by
  induction t generalizing r with
  | app g x ihg ihx =>
    obtain ⟨g', x', hg, hx, rfl⟩ := mapArgs?_app.1 h
    exact ⟨ihg ht.1 hg, ihx ht.2 hx⟩
  | arg i =>
    obtain ⟨j, hj, rfl, _⟩ := slot?_eq_some h
    exact hj
  | _ =>
    cases h
    exact ht

end Flexible

/-- Rules that capture all their arguments, read as equations. -/
theorem RuleCongruence.lambda {R : RuleTable} {E : Term → Term → Prop} (hE : RuleCongruence R E)
    {id n : Nat} {replacement : Term} {xs : List Term}
    (hr : R.ruleFor? id = some (.lambda (.decl id) n replacement)) (hxs : xs.length = n) :
    E ((decl id).apply xs) (replacement.subst xs) := by
  have hmatched : ∀ caps ys : List Term,
      Rule.MatchedBy E (replicate ys.length .pull) caps ys (caps ++ ys) [] := by
    intro caps ys
    induction ys generalizing caps with
    | nil => exact ⟨by simp, rfl⟩
    | cons y ys ih =>
      have h := ih (caps ++ [y])
      rw [append_assoc] at h
      exact h
  have h := hE.rule id _ xs xs [] hr hxs.symm.le (by
    have := hmatched [] xs
    rw [hxs] at this
    exact this)
  exact h

end Elaboration

namespace Elaboration

open EndsWith Kernel KernelM List RuleTable Term

/-- The kernel refused a rule. -/
def Stop.ofTable : Stop → Bool
  | .violation (.headUnregistered _) => true
  | .violation (.headOwnsRule _) => true
  | _ => false

/-- The store of equations is not in order. -/
def Stop.ofStore : Stop → Bool
  | .violation (.equationReleased _) => true
  | .violation (.obligationSettledTwice _) => true
  | .violation .countBelowZero => true
  | _ => false

private theorem Stop.not_ofStore {e : Stop} (h : e.ofContext) : e.ofStore = false := by
  cases e with
  | exhausted => rfl
  | violation v => cases v <;> simp_all [Stop.ofContext, Stop.ofStore]

/-- Stops of contexts are none of tables. -/
theorem Stop.not_ofTable {e : Stop} (h : e.ofContext) : ¬ e.ofTable := by
  cases e with
  | exhausted => simp [Stop.ofTable]
  | violation v => cases v <;> simp_all [Stop.ofContext, Stop.ofTable]

namespace Solver

/-- Every indeterminate can be given a rule, and no rule is there before its head is made. -/
def Definable (free : Indeterminates) (k : Kernel) : Prop :=
  (∀ id ∈ free, id ∈ k.rules.registered ∧ k.rules.ruleFor? id = none) ∧ k.RulesMade

/-- One side of an equation is `t` and the other one `u`. -/
def Sides (lhs rhs t u : Term) : Prop := t = lhs ∧ u = rhs ∨ t = rhs ∧ u = lhs

/-- The kernel in which an indeterminate is defined. -/
def defined (k : Kernel) (f : Flexible) (replacement : Term) : Kernel :=
  { k with journal := .defining f.id replacement :: k.journal }.withRule f.id
    (.lambda (.decl f.id) f.levels.length replacement)

/-- The kernel with `count` new declarations. -/
def withFresh (k : Kernel) (count : Nat) : Kernel :=
  { k with
    nextSymbol := k.nextSymbol + count
    rules := k.rules.registerAll (range' k.nextSymbol count) }

/-- The declarations that are new in it. -/
def freshTerms (k : Kernel) (count : Nat) : List Term :=
  (range' k.nextSymbol count).map Term.decl

/-- The head that an indeterminate is given to imitate a term: an argument that it is applied to is
one of its own. -/
def Imitates (f : Flexible) (rigid head : Term) : Prop :=
  (∃ level, rigid.head = .arg level ∧ f.slot? level = some head) ∨
    (∀ level, rigid.head ≠ .arg level) ∧ head = rigid.head

/-- An application of a head to new declarations, over the arguments of an indeterminate. -/
def imitation (k : Kernel) (f : Flexible) (rigid head : Term) : Term :=
  head.apply ((freshTerms k rigid.args.length).map fun v => v.applyArgs f.levels.length)

/-- The ways to a verdict on an equation whose sides are reduced. -/
inductive Decided (e : Equation) (lhs rhs : Term) (free : Indeterminates) (k : Kernel) :
    Verdict → Indeterminates → Kernel → Prop where
  /-- A side is an indeterminate applied to distinct arguments, and is defined as the other one. -/
  | extracted {pattern value replacement : Term} {f : Flexible} :
    e.deduce → Sides lhs rhs pattern value → Flexible.of? free pattern = some f →
    ((k.equalities e.telescope.context).eliminate value).hasPlaceholder = false →
    k.rules.dependsOn ((k.equalities e.telescope.context).eliminate value) f.id = false →
    ((k.equalities e.telescope.context).eliminate value).mapArgs? f.slot? = some replacement →
    f.id ∈ k.rules.registered → k.rules.ruleFor? f.id = none →
    Decided e lhs rhs free k .solved (free.filter (· ≠ f.id))
      (defined k f replacement)
  /-- Both sides are applied to a new argument. -/
  | deepened {deeper : Telescope} {k' : Kernel} :
    k.rules.isLambdaLike lhs || k.rules.isLambdaLike rhs →
    Telescope.Bound e.telescope (.postulate k.nextSymbol)
      { k with nextSymbol := k.nextSymbol + 1 } deeper k' →
    Decided e lhs rhs free k
      (.derived [⟨.app lhs (.arg e.telescope.depth), .app rhs (.arg e.telescope.depth), deeper,
        e.deduce⟩]) free
      { k' with journal := .deepening deeper.depth :: k'.journal }
  /-- Two sides with closed heads are compared argument by argument. -/
  | symmetric {v : Verdict} : explodeSymmetric e lhs rhs = some v →
    Decided e lhs rhs free k v free k
  /-- A side is headed by an argument that the other one cannot mention. -/
  | unmentionable {pattern rigid : Term} {f : Flexible} {level : Nat} (journal : List Event) :
    Sides lhs rhs pattern rigid → Flexible.of? free pattern = some f →
    rigid.isHeadClosed →
    ((k.equalities e.telescope.context).eliminate rigid).head = .arg level →
    f.slot? level = none → Quiet k.journal journal →
    Decided e lhs rhs free k .failed free { k with journal }
  /-- A side is an indeterminate and is given the closed head of the other one. -/
  | imitated {pattern rigid rigid' head exposed : Term} {f : Flexible} {k1 k' : Kernel}
    {fresh : List Term} :
    e.deduce → Sides lhs rhs pattern rigid → Flexible.of? free pattern = some f →
    rigid' = (k.equalities e.telescope.context).eliminate rigid →
    fresh = freshTerms k rigid'.args.length → k1 = withFresh k rigid'.args.length →
    rigid'.hasPlaceholder = false → rigid.isHeadClosed → Imitates f rigid' head →
    k.rules.dependsOn rigid' f.id = false →
    f.id ∈ k1.rules.registered → k.rules.ruleFor? f.id = none →
    Telescope.Reduced e.telescope pattern exposed
      (defined k1 f (imitation k f rigid' head)) k' →
    exposed.head = rigid'.head →
    Decided e lhs rhs free k
      (.derived ((fresh.zip rigid'.args).map fun (v, x) => e.derive (v.apply f.args) x))
      (((range' k.nextSymbol rigid'.args.length).reverse ++ free).filter (· ≠ f.id)) k'
  /-- Nothing applies, and the sides are compared. -/
  | compared :
    Decided e lhs rhs free k (if lhs = rhs then .solved else .stalled) free k

/-- The ways to a verdict on an equation. -/
inductive Stepped (e : Equation) (free : Indeterminates) (k : Kernel) :
    Verdict → Indeterminates → Kernel → Prop where
  /-- Below contradictory assumptions every equation is solved. -/
  | vacuous : (k.equalities e.telescope.context).inconsistent →
    Stepped e free k .solved free { k with journal := .vacuous :: k.journal }
  | decided {lhs rhs : Term} {k1 k2 k' : Kernel} {v : Verdict} {left : Indeterminates} :
    Telescope.Reduced e.telescope e.lhs lhs k k1 → Telescope.Reduced e.telescope e.rhs rhs k1 k2 →
    Decided e lhs rhs free k2 v left k' → Stepped e free k v left k'

/-- The ways to stop at an equation whose sides are reduced. -/
inductive Halted (e : Equation) (lhs rhs : Term) (free : Indeterminates) (k : Kernel) :
    Stop → Kernel → Prop where
  /-- A side cannot be read without placeholders. -/
  | leaked {pattern t : Term} {f : Flexible} :
    Sides lhs rhs pattern t → Flexible.of? free pattern = some f →
    ((k.equalities e.telescope.context).eliminate t).hasPlaceholder →
    Halted e lhs rhs free k (.violation (.placeholderLeaked t)) k
  /-- A new declaration has a rule already. -/
  | unbound {id : Nat} {k' : Kernel} : k.Extends k' → ¬ k.RulesMade →
    Halted e lhs rhs free k (.violation (.headOwnsRule id)) k'
  /-- An indeterminate that should be defined cannot be given a rule. -/
  | undefinable {pattern t : Term} {f : Flexible} {stop : Stop} {k' : Kernel} :
    Sides lhs rhs pattern t → Flexible.of? free pattern = some f →
    k.rules.dependsOn ((k.equalities e.telescope.context).eliminate t) f.id = false →
    k.Extends k' → stop.ofStore = false → stop.ofTable →
    ¬ (f.id ∈ k.rules.registered ∧ k.rules.ruleFor? f.id = none) →
    Halted e lhs rhs free k stop k'
  /-- An indeterminate was given a head that reduction does not find. -/
  | unexposed {pattern rigid rigid' head : Term} {f : Flexible} {k1 k' : Kernel} {stop : Stop} :
    Sides lhs rhs pattern rigid → Flexible.of? free pattern = some f →
    rigid' = (k.equalities e.telescope.context).eliminate rigid → rigid.isHeadClosed →
    Imitates f rigid' head → k.rules.dependsOn rigid' f.id = false →
    k1 = defined (withFresh k rigid'.args.length) f (imitation k f rigid' head) → k.Extends k1 →
    e.telescope.reduce pattern k1 = .error stop k' ∨
      (∃ exposed, e.telescope.reduce pattern k1 = .ok exposed k' ∧ exposed.head ≠ rigid'.head ∧
        stop = .violation (.headNotExposed pattern rigid' exposed.head rigid'.head)) →
    Halted e lhs rhs free k stop k'

/-- A step that stops: rules are refused only if an indeterminate cannot be given one. -/
def Stops (free : Indeterminates) (k : Kernel) (e : Stop) (k' : Kernel) : Prop :=
  k.Extends k' ∧ e.ofStore = false ∧ (e.ofTable → ¬ Definable free k)

variable {e : Equation} {lhs rhs : Term} {free : Indeterminates} {k : Kernel}
  {old : Nat → Prop} {rigid head : Term}

private theorem Imitates.subst {f : Flexible} (h : Imitates f rigid head)
    (hclosed : rigid.isHeadClosed) : head.subst f.args = rigid.head := by
  obtain ⟨level, hlevel, hslot⟩ | ⟨hno, rfl⟩ := h
  · rw [Flexible.subst_slot hslot, hlevel]
  · unfold Term.isHeadClosed at hclosed
    cases hh : rigid.head <;> simp_all [Term.subst]

/-- What an indeterminate that imitates a term stands for. -/
theorem Imitates.subst_imitation {f : Flexible} (h : Imitates f rigid head)
    (hclosed : rigid.isHeadClosed) (k : Kernel) :
    (imitation k f rigid head).subst f.args =
      rigid.head.apply ((freshTerms k rigid.args.length).map fun v => v.apply f.args) := by
  rw [imitation, subst_apply, h.subst hclosed, map_map]
  refine congrArg _ (map_congr_left fun v hv => ?_)
  obtain ⟨id, _, rfl⟩ := mem_map.1 hv
  rw [Function.comp_apply, applyArgs, subst_apply, ← f.length_args, map_subst_firstArgs]
  rfl

private theorem ends_define (f : Flexible) (replacement : Term) (free : Indeterminates)
    (k : Kernel) :
    EndsWith (define f replacement) free k
      (fun _ left k' => left = free.filter (· ≠ f.id) ∧ f.id ∈ k.rules.registered ∧
        k.rules.ruleFor? f.id = none ∧ k' = defined k f replacement)
      fun e k' => k.Extends k' ∧ e.ofStore = false ∧ e.ofTable ∧
        ¬ (f.id ∈ k.rules.registered ∧ k.rules.ruleFor? f.id = none) := by
  unfold define
  simp only [bind_iff, lift_iff, modify_iff, ends_note]
  refine (ends_addRule _ _).mono ?_ ?_
  · rintro _ k' ⟨id, hid, hreg, hfree, rfl⟩
    cases hid
    exact ⟨trivial, hreg, hfree, rfl⟩
  · rintro e k' ⟨rfl, h⟩
    refine ⟨⟨le_rfl, .refl _, fun _ h => h, quiet_cons rfl _⟩, ?_⟩
    obtain ⟨hno, _⟩ | ⟨id, hid, ⟨hreg, rfl⟩ | ⟨hrule, rfl⟩⟩ := h
    · exact absurd rfl (hno f.id)
    · cases hid
      exact ⟨rfl, rfl, fun hdef => hreg hdef.1⟩
    · cases hid
      refine ⟨rfl, rfl, fun hdef => ?_⟩
      rw [hasRule] at hrule
      simp [hdef.2] at hrule

private theorem ends_freshIndeterminates (xs : List Term) (free : Indeterminates)
    (k : Kernel) :
    EndsWith (freshIndeterminates xs) free k
      (fun fresh left k' => fresh = freshTerms k xs.length ∧
        left = (range' k.nextSymbol xs.length).reverse ++ free ∧
        k' = withFresh k xs.length) fun _ _ => False := by
  induction xs generalizing free k with
  | nil => exact ⟨rfl, rfl, rfl⟩
  | cons x xs ih =>
    unfold freshIndeterminates
    rw [bind_iff, lift_iff, ends_freshSymbol, bind_iff,
      lift_iff, ends_register, bind_iff, modify_iff]
    refine (ih _ _).seq ?_
    rintro fresh left k' ⟨rfl, rfl, rfl⟩
    refine ⟨?_, ?_, ?_⟩
    · simp [freshTerms, range'_succ]
    · simp [range'_succ]
    · simp [withFresh, range'_succ, registerAll, Nat.add_comm, Nat.add_left_comm]

private theorem extends_withFresh (k : Kernel) (count : Nat) : k.Extends (withFresh k count) :=
  ⟨Nat.le_add_right _ _, fun id r hr => by simpa [withFresh] using hr,
    fun _ hid => mem_registered_registerAll.2 (.inr hid), .refl _⟩

variable {f : Flexible} {v : Verdict} {left : Indeterminates} {k' : Kernel} {pattern : Term}

private theorem extends_defined (replacement : Term) (h : k.rules.ruleFor? f.id = none) :
    k.Extends (defined k f replacement) := by
  have hnote : k.Extends { k with journal := .defining f.id replacement :: k.journal } :=
    ⟨le_rfl, .refl _, fun _ h => h, quiet_cons rfl _⟩
  exact hnote.trans (extends_withRule h)

private theorem extends_defined_withFresh (count : Nat) (replacement : Term)
    (h : k.rules.ruleFor? f.id = none) : k.Extends (defined (withFresh k count) f replacement) :=
  (extends_withFresh k count).trans (extends_defined _ (by simpa [withFresh] using h))

private theorem Decided.extends (h : Decided e lhs rhs free k v left k') :
    k.Extends k' := by
  cases h with
  | extracted _ _ _ _ _ _ _ hfree => exact extends_defined _ hfree
  | deepened _ hbound =>
    have hk := hbound.extends
    exact { hk with
      symbols := Nat.le_of_succ_le hk.symbols
      quiet := hk.quiet.trans (quiet_cons rfl _) }
  | symmetric _ => exact .refl k
  | unmentionable _ _ _ _ _ _ hquiet => exact ⟨le_rfl, .refl _, fun _ h => h, hquiet⟩
  | imitated _ _ _ _ _ hk1 _ _ _ _ _ hfree hreduced _ =>
    subst hk1
    exact (extends_defined_withFresh _ _ hfree).trans hreduced.toCalm.extends
  | compared => exact .refl k

/-- A step makes the kernel grow. -/
theorem Decided.grows (h : Decided e lhs rhs free k v left k') : k.Grows k' := by
  have hextends := h.extends
  cases h with
  | deepened _ hbound => exact hextends.grows hbound.contexts
  | imitated _ _ _ _ _ hk1 _ _ _ _ _ hfree hreduced _ =>
    subst hk1
    exact ((extends_defined_withFresh _ _ hfree).grows rfl).trans hreduced.grows
  | _ => exact hextends.grows rfl

/-- A step extends the kernel. -/
theorem Stepped.extends (h : Stepped e free k v left k') : k.Extends k' := by
  cases h with
  | vacuous _ => exact ⟨le_rfl, .refl _, fun _ h => h, quiet_cons rfl _⟩
  | decided hl hr hd => exact (hl.toCalm.trans hr.toCalm).extends.trans hd.extends

theorem Stepped.grows (h : Stepped e free k v left k') : k.Grows k' := by
  have hextends := h.extends
  cases h with
  | vacuous _ => exact hextends.grows rfl
  | decided hl hr hd => exact hl.grows.trans (hr.grows.trans hd.grows)

private theorem adds_defined (replacement : Term) (hf : old f.id) :
    k.Adds old (defined k f replacement) where
  registered id hid := .inl hid
  ruled id r hr := by
    rw [defined, withRule, ruleFor?_install] at hr
    split at hr
    · next heq => exact .inr (.inl (heq ▸ hf))
    · exact .inl hr

private theorem adds_withFresh (k : Kernel) (count : Nat) : k.Adds old (withFresh k count) where
  registered id hid := by
    refine (mem_registered_registerAll.1 hid).symm.imp_right fun hid => ?_
    exact mem_range'_1.1 hid
  ruled id r hr := .inl (by simpa [withFresh] using hr)

private theorem Decided.adds (h : Decided e lhs rhs free k v left k') :
    k.Adds (fun id => id ∈ free ∧ id ∉ left) k' := by
  cases h with
  | extracted _ _ hf => exact adds_defined _ ⟨(Flexible.of?_eq_some hf).2, by simp⟩
  | deepened _ hbound =>
    have hpostulate : k.Adds (fun id => id ∈ free ∧ id ∉ free)
      { k with nextSymbol := k.nextSymbol + 1 } := .of_same rfl
    have hadds := hpostulate.trans hbound.adds (Nat.le_succ _) hbound.extends.symbols
    exact ⟨hadds.registered, hadds.ruled⟩
  | symmetric _ => exact .of_same rfl
  | unmentionable => exact .of_same rfl
  | @imitated _ _ rigid' head _ f k1 _ fresh _ _ hf _ _ hk1 _ _ _ _ _ hfree hreduced _ =>
    subst hk1
    have hdefined : (withFresh k rigid'.args.length).Adds (fun id => id ∈ free ∧
        id ∉ ((range' k.nextSymbol rigid'.args.length).reverse ++ free).filter (· ≠ f.id))
        (defined _ f (imitation k f rigid' head)) :=
      adds_defined _ ⟨(Flexible.of?_eq_some hf).2, by simp⟩
    have hle : k.nextSymbol ≤ (withFresh k rigid'.args.length).nextSymbol := Nat.le_add_right _ _
    refine ((adds_withFresh k _).trans hdefined hle le_rfl).trans
      (.of_same hreduced.rules) hle hreduced.symbols.symm.le
  | compared => exact .of_same rfl

private theorem Decided.of_mem_left {id : Nat} (h : Decided e lhs rhs free k v left k')
    (hid : id ∈ left) :
    id ∈ free ∨ k.New k' id ∧ id ∈ k'.rules.registered ∧
      k'.rules.ruleFor? id = k.rules.ruleFor? id := by
  cases h with
  | extracted => exact .inl (mem_of_mem_filter hid)
  | @imitated _ _ rigid' head _ f k1 _ fresh _ _ hf _ _ hk1 _ _ _ _ _ hfree hreduced _ =>
    subst hk1
    obtain ⟨hid, hne⟩ := mem_filter.1 hid
    rcases mem_append.1 hid with hid | hid
    · have hrange := mem_reverse.1 hid
      have hne : f.id ≠ id := fun h => (of_decide_eq_true hne) h.symm
      refine .inr ⟨?_, ?_, ?_⟩
      · rw [New, hreduced.symbols]
        exact mem_range'_1.1 hrange
      · rw [hreduced.rules]
        exact mem_registered_registerAll.2 (.inl hrange)
      · rw [hreduced.rules, defined, withRule, ruleFor?_install, if_neg hne]
        simp [withFresh]
    · exact .inl hid
  | _ => exact .inl hid

/-- A step gives rules to new declarations and to indeterminates that it uses up. -/
theorem Stepped.adds (h : Stepped e free k v left k') :
    k.Adds (fun id => id ∈ free ∧ id ∉ left) k' := by
  cases h with
  | vacuous _ => exact .of_same rfl
  | decided hl hr hd =>
    have hcalm := hl.toCalm.trans hr.toCalm
    exact (Adds.of_same hcalm.rules).trans hd.adds hcalm.symbols.symm.le hd.extends.symbols

/-- Indeterminates that are left are old or new and undefined. -/
theorem Stepped.of_mem_left {id : Nat} (h : Stepped e free k v left k')
    (hid : id ∈ left) :
    id ∈ free ∨ k.New k' id ∧ id ∈ k'.rules.registered ∧
      k'.rules.ruleFor? id = k.rules.ruleFor? id := by
  cases h with
  | vacuous _ => exact .inl hid
  | decided hl hr hd =>
    have hcalm := hl.toCalm.trans hr.toCalm
    have hnew := hd.of_mem_left hid
    rwa [New, hcalm.symbols, hcalm.rules] at hnew

private theorem Halted.stops {stop : Stop} (h : Halted e lhs rhs free k stop k') :
    Stops free k stop k' := by
  cases h with
  | leaked => exact ⟨.refl _, rfl, nofun⟩
  | unbound hk hmade => exact ⟨hk, rfl, fun _ hdef => hmade hdef.2⟩
  | undefinable _ hf _ hk hstore _ hfree =>
    exact ⟨hk, hstore, fun _ hdef => hfree (hdef.1 _ (Flexible.of?_eq_some hf).2)⟩
  | unexposed _ _ _ _ _ _ _ hk hreduce =>
    obtain hreduce | ⟨exposed, hreduce, _, rfl⟩ := hreduce
    · obtain ⟨hstop, hcalm⟩ := (e.telescope.ends_reduce _ _).of_error hreduce
      exact ⟨hk.trans hcalm.extends, Stop.not_ofStore hstop, fun h =>
        absurd h (Stop.not_ofTable hstop)⟩
    · have hreduced := (e.telescope.ends_reduce _ _).of_ok hreduce
      exact ⟨hk.trans hreduced.toCalm.extends, rfl, nofun⟩

/-- An attempt decides the equation or leaves no trace. -/
def Attempts (e : Equation) (lhs rhs : Term) (free : Indeterminates) (k : Kernel)
    (x : SolverM (Option Verdict)) : Prop :=
  EndsWith x free k (fun out left k' =>
      (∃ v, out = some v ∧ v ≠ .stalled ∧ Decided e lhs rhs free k v left k') ∨
        out = none ∧ left = free ∧ k' = k)
    (Halted e lhs rhs free k)

private theorem attempts_none : Attempts e lhs rhs free k (pure none) :=
  .inr ⟨rfl, rfl, rfl⟩

private theorem attempts_eliminate {t : Term} {x : Term → SolverM (Option Verdict)}
    (hs : Sides lhs rhs pattern t) (hf : Flexible.of? free pattern = some f)
    (h : ((k.equalities e.telescope.context).eliminate t).hasPlaceholder = false →
      Attempts e lhs rhs free k (x ((k.equalities e.telescope.context).eliminate t))) :
    Attempts e lhs rhs free k (liftM (e.telescope.eliminate t) >>= x) := by
  unfold Attempts
  rw [bind_iff, lift_iff]
  refine (e.telescope.ends_eliminate t k).mono ?_ ?_
  · rintro u k' ⟨rfl, rfl, hu⟩
    exact h hu
  · rintro stop k' ⟨rfl, rfl, hleaked⟩
    exact .leaked hs hf hleaked

private theorem attempts_extract {value : Term} (hd : e.deduce) (hs : Sides lhs rhs pattern value) :
    Attempts e lhs rhs free k (extract e.telescope pattern value) := by
  unfold extract Attempts
  rw [bind_iff, get_iff]
  split
  · exact attempts_none
  · next f hf =>
    refine attempts_eliminate hs hf fun hplain => ?_
    unfold Attempts
    rw [bind_iff, getThe_iff]
    split
    · exact attempts_none
    · next hoccurs =>
      have hoccurs := Bool.eq_false_iff.2 hoccurs
      split
      · exact attempts_none
      · next replacement hreplacement =>
        refine (ends_define f replacement free k).bind ?_ ?_
        · rintro _ left k' ⟨rfl, hreg, hfree, rfl⟩
          exact .inl ⟨.solved, rfl, nofun,
            .extracted hd hs hf hplain hoccurs hreplacement hreg hfree⟩
        · rintro stop k' ⟨hk, hstore, htable, hstop⟩
          exact .undefinable hs hf hoccurs hk hstore htable hstop

private theorem attempts_deepen : Attempts e lhs rhs free k (deepen e lhs rhs) := by
  unfold deepen Attempts
  rw [bind_iff, getThe_iff]
  split
  · next hlambda =>
    dsimp only
    have hpostulate : k.Extends { k with nextSymbol := k.nextSymbol + 1 } :=
      ⟨Nat.le_succ _, .refl _, fun _ h => h, .refl _⟩
    unfold freshPostulate
    rw [bind_iff, lift_iff, Ends.bind_iff, ends_freshSymbol, Ends.pure_iff, bind_iff, lift_iff]
    refine (e.telescope.ends_extend _ _).mono ?_ ?_
    · intro deeper k' hbound
      exact .inl ⟨_, rfl, nofun, .deepened hlambda hbound⟩
    · rintro stop k' ⟨hk, id, hid, hrule, rfl⟩
      refine .unbound (hpostulate.trans hk) fun hmade => ?_
      obtain ⟨r, hr⟩ := Option.isSome_iff_exists.1 hrule
      exact absurd (hmade id r hr) (not_lt.2 (Nat.le_of_succ_le hid))
  · exact attempts_none

private theorem attempts_imitate {rigid rigid' head : Term} (hd : e.deduce)
    (hs : Sides lhs rhs pattern rigid) (hf : Flexible.of? free pattern = some f)
    (hrigid : rigid' = (k.equalities e.telescope.context).eliminate rigid)
    (hplain : rigid'.hasPlaceholder = false) (hclosed : rigid.isHeadClosed)
    (hhead : Imitates f rigid' head) :
    Attempts e lhs rhs free k (imitate e pattern rigid' head f) := by
  unfold imitate Attempts
  rw [bind_iff, getThe_iff]
  split
  · exact attempts_none
  · next hoccurs =>
    have hoccurs := Bool.eq_false_iff.2 hoccurs
    refine (ends_freshIndeterminates rigid'.args free k).bind ?_ fun _ _ h => h.elim
    rintro fresh left k1 ⟨rfl, rfl, rfl⟩
    have hfresh := extends_withFresh k rigid'.args.length
    have hrules : (withFresh k rigid'.args.length).rules.ruleFor? f.id = k.rules.ruleFor? f.id := by
      simp [withFresh]
    refine (ends_define f _ _ _).bind ?_ ?_
    · rintro _ left k2 ⟨rfl, hreg, hfree, rfl⟩
      have hdefined := hfresh.trans (extends_defined (imitation k f rigid' head) hfree)
      rw [bind_iff, lift_iff]
      refine Ends.of_cases (fun exposed k' hreduce => ?_) fun stop k' hreduce => ?_
      · split
        · next hexposed =>
          exact .inl ⟨_, rfl, nofun, .imitated hd hs hf hrigid rfl rfl hplain hclosed hhead hoccurs
            hreg (hrules ▸ hfree) ((e.telescope.ends_reduce _ _).of_ok hreduce) hexposed⟩
        · next hexposed =>
          exact .unexposed hs hf hrigid hclosed hhead hoccurs rfl hdefined
            (.inr ⟨exposed, hreduce, hexposed, rfl⟩)
      · exact .unexposed hs hf hrigid hclosed hhead hoccurs rfl hdefined (.inl hreduce)
    · rintro stop k' ⟨hk, hstore, htable, hstop⟩
      refine .undefinable hs hf (hrigid ▸ hoccurs) (hfresh.trans hk) hstore htable fun hdef => ?_
      exact hstop ⟨hfresh.registered _ hdef.1, hrules.trans hdef.2⟩

private theorem attempts_explodeAsymmetric {rigid : Term} (hd : e.deduce)
    (hs : Sides lhs rhs pattern rigid) :
    Attempts e lhs rhs free k (explodeAsymmetric e pattern rigid) := by
  unfold explodeAsymmetric Attempts
  split
  · next hclosed =>
    rw [bind_iff, get_iff]
    split
    · exact attempts_none
    · next f hf =>
      refine attempts_eliminate hs hf fun hplain => ?_
      split
      · next level hlevel =>
        split
        · next head hslot =>
          exact attempts_imitate hd hs hf rfl hplain hclosed (.inl ⟨level, hlevel, hslot⟩)
        · next hslot =>
          rw [Attempts, bind_iff, lift_iff, ends_note]
          exact .inl ⟨.failed, rfl, nofun,
            .unmentionable _ hs hf hclosed hlevel hslot (quiet_cons rfl _)⟩
      · next head hno =>
        exact attempts_imitate hd hs hf rfl hplain hclosed (.inr ⟨hno, rfl⟩)
  · exact attempts_none

private theorem ends_firstVerdict {otherwise : Verdict} {attempts : List (SolverM (Option Verdict))}
    (hotherwise : Decided e lhs rhs free k otherwise free k)
    (h : ∀ x ∈ attempts, Attempts e lhs rhs free k x) :
    EndsWith (firstVerdict otherwise attempts) free k
      (Decided e lhs rhs free k) (Halted e lhs rhs free k) := by
  induction attempts with
  | nil => exact hotherwise
  | cons x rest ih =>
    rw [forall_mem_cons] at h
    unfold firstVerdict
    refine seq h.1 ?_
    rintro out left k' (⟨v, rfl, -, hv⟩ | ⟨rfl, rfl, rfl⟩)
    · exact hv
    · exact ih h.2

private theorem attempts_explodeSymmetric :
    Attempts e lhs rhs free k (pure (explodeSymmetric e lhs rhs)) := by
  cases hv : explodeSymmetric e lhs rhs with
  | none => exact attempts_none
  | some v =>
    refine .inl ⟨v, rfl, ?_, .symmetric hv⟩
    rintro rfl
    unfold explodeSymmetric at hv
    split at hv
    · split at hv
      · split at hv <;> cases hv
      · cases hv
    · cases hv

/-- What is tried on an equation whose sides are reduced, in this order. -/
def attemptsOn (e : Equation) (lhs rhs : Term) : List (SolverM (Option Verdict)) :=
  let whenDeducing := fun attempts : List (SolverM (Option Verdict)) =>
    if e.deduce then attempts else []
  whenDeducing [extract e.telescope lhs rhs, extract e.telescope rhs lhs] ++
    [deepen e lhs rhs, pure (explodeSymmetric e lhs rhs)] ++
    whenDeducing [explodeAsymmetric e lhs rhs, explodeAsymmetric e rhs lhs]

/-- The verdict on an equation whose sides are reduced. -/
def verdictOn (e : Equation) (lhs rhs : Term) : SolverM Verdict :=
  firstVerdict (if lhs = rhs then .solved else .stalled) (attemptsOn e lhs rhs)

theorem attempts_of_mem (free : Indeterminates) (k : Kernel) :
    ∀ x ∈ attemptsOn e lhs rhs, Attempts e lhs rhs free k x := by
  have hwhen : ∀ attempts : List (SolverM (Option Verdict)),
      (e.deduce → ∀ x ∈ attempts, Attempts e lhs rhs free k x) →
      ∀ x ∈ (if e.deduce then attempts else []), Attempts e lhs rhs free k x := by
    intro attempts h
    split
    · next hd => exact h hd
    · simp
  refine forall_mem_append.2 ⟨forall_mem_append.2 ⟨hwhen _ fun hd => ?_, ?_⟩, hwhen _ fun hd => ?_⟩
  · simp [attempts_extract hd (.inl ⟨rfl, rfl⟩), attempts_extract hd (.inr ⟨rfl, rfl⟩)]
  · simp [attempts_deepen, attempts_explodeSymmetric]
  · simp [attempts_explodeAsymmetric hd (.inl ⟨rfl, rfl⟩),
      attempts_explodeAsymmetric hd (.inr ⟨rfl, rfl⟩)]

/-- Reduced sides are decided in one of the listed ways. -/
theorem ends_verdictOn (e : Equation) (lhs rhs : Term) (free : Indeterminates)
    (k : Kernel) :
    EndsWith (verdictOn e lhs rhs) free k (Decided e lhs rhs free k)
      (Halted e lhs rhs free k) :=
  ends_firstVerdict .compared (attempts_of_mem free k)

/-- A step ends in one of the listed ways. -/
theorem ends_step (e : Equation) (free : Indeterminates) (k : Kernel) :
    EndsWith (step e) free k (Stepped e free k) (Stops free k) := by
  unfold step Telescope.isInconsistent
  simp only [bind_iff, lift_iff, Ends.bind_iff, ends_context, Ends.pure_iff]
  split
  · next h => exact .vacuous h
  · have hstop : ∀ k1, k.Calm k1 → ∀ stop k', stop.ofContext ∧ k1.Calm k' →
        Stops free k stop k' := by
      rintro k1 hk1 stop k' ⟨hstop, hk'⟩
      exact ⟨(hk1.trans hk').extends, Stop.not_ofStore hstop,
        fun h => absurd h (Stop.not_ofTable hstop)⟩
    simp only [bind_iff, lift_iff]
    refine (e.telescope.ends_reduce e.lhs k).mono (fun lhs k1 hlhs => ?_) (hstop k (.refl k))
    refine (e.telescope.ends_reduce e.rhs k1).mono (fun rhs k2 hrhs => ?_) (hstop k1 hlhs.toCalm)
    have hcalm := hlhs.toCalm.trans hrhs.toCalm
    refine (ends_verdictOn e lhs rhs free k2).mono
      (fun v left k' h => .decided hlhs hrhs h) ?_
    intro stop k' hhalted
    obtain ⟨hk, hstore, htable⟩ := hhalted.stops
    refine ⟨hcalm.extends.trans hk, hstore, fun h hdef => htable h ⟨?_, ?_⟩⟩
    · rw [hcalm.rules]
      exact hdef.1
    · unfold Kernel.RulesMade
      rw [hcalm.rules, hcalm.symbols]
      exact hdef.2

end Solver

open Reduction
namespace Solver

variable {e : Equation} {free : Indeterminates} {k : Kernel}
  {Q : Verdict → Indeterminates → Kernel → Prop} {X : Stop → Kernel → Prop}

theorem ends_step_iff (h : e.telescope.AssumesNothing k) : EndsWith (step e) free k Q X ↔
      match run? k.rules .none k.limit .full e.lhs,
        run? k.rules .none k.limit .full e.rhs with
      | some lhs, some rhs => EndsWith (verdictOn e lhs rhs) free k Q X
      | _, _ => X .exhausted k := by
  unfold step
  simp only [bind_iff, lift_iff, h.ends_isInconsistent_iff]
  rw [if_neg (by simp)]
  simp only [bind_iff, lift_iff, h.ends_reduce_iff]
  cases run? k.rules .none k.limit .full e.lhs with
  | none => rfl
  | some lhs =>
    cases run? k.rules .none k.limit .full e.rhs with
    | none => rfl
    | some rhs => rfl

/-- A step that ends decided the normal forms of the sides. -/
theorem exists_decided (h : e.telescope.AssumesNothing k) {v : Verdict} {left : Indeterminates}
    {k' : Kernel} (hstep : step e free k = .ok (v, left) k') :
    ∃ lhs rhs, run? k.rules .none k.limit .full e.lhs = some lhs ∧
      run? k.rules .none k.limit .full e.rhs = some rhs ∧
      Decided e lhs rhs free k v left k' := by
  have hends : EndsWith (step e) free k
      (fun v left k' => ∃ lhs rhs, run? k.rules .none k.limit .full e.lhs = some lhs ∧
        run? k.rules .none k.limit .full e.rhs = some rhs ∧
        Decided e lhs rhs free k v left k') fun _ _ => True := by
    rw [ends_step_iff h]
    split
    · next lhs rhs hl hr =>
      exact (ends_verdictOn e lhs rhs free k).answer
        (fun _ _ _ hd => ⟨lhs, rhs, hl, hr, hd⟩)
    · trivial
  exact hends.of_ok hstep

end Solver
end Elaboration
