import Elaboration.Proofs.Equalities.Coded
import Elaboration.Proofs.Equalities.Settled

/-!
# Tidy contexts

As long as the members of a context are arguments and declarations without rules, a rigid class
stays a root, the canonical term of any other is its first member, and no term has two classes. So
every update adds to the rules that the context stands for.
-/

namespace Elaboration

open Array Ends List Option
namespace Equalities

open Reduction

variable {R : RuleTable} {q : Equalities} {t u : Term} {c d top below : Nat} {s : State}
  {env : Setting}

/-! ### Updates by name -/

/-- The context in which a term has got a class of its own. -/
def enter (q : Equalities) (t : Term) : Equalities :=
  { q with
    classes := q.classes.push ⟨q.classes.size, q.eliminate t, false⟩
    members := q.members ++ [(t, q.classes.size)] }

/-- The context in which a class has got a rigid canonical term. -/
def settle (q : Equalities) (c : Nat) (canonical : Term) : Equalities :=
  { q with classes := q.classes.modify c fun cls => { cls with canonical, rigid := true } }

/-- The context in which a class was put below another. -/
def join (q : Equalities) (top below : Nat) : Equalities :=
  { q with classes := q.classes.modify below fun cls => { cls with parent := top } }

@[simp] private theorem members_enter (q : Equalities) (t : Term) :
    (q.enter t).members = q.members ++ [(t, q.classes.size)] := rfl
theorem size_enter (q : Equalities) (t : Term) : (q.enter t).classes.size = q.classes.size + 1 :=
  size_push ..
@[simp] theorem size_settle (q : Equalities) (c : Nat) (t : Term) :
    (q.settle c t).classes.size = q.classes.size :=
  size_modify ..
@[simp] theorem size_join (q : Equalities) (top below : Nat) :
    (q.join top below).classes.size = q.classes.size :=
  size_modify ..

/-- The classes after a term is entered. -/
theorem getElem?_enter (q : Equalities) (t : Term) (d : Nat) : (q.enter t).classes[d]? =
    if d = q.classes.size then some ⟨q.classes.size, q.eliminate t, false⟩ else q.classes[d]? :=
  getElem?_push

/-- The classes after one is settled. -/
theorem getElem?_settle (q : Equalities) (c : Nat) (t : Term) (d : Nat) :
    (q.settle c t).classes[d]? =
      if c = d then q.classes[d]?.map fun cls => { cls with canonical := t, rigid := true }
      else q.classes[d]? :=
  getElem?_modify

/-- The classes after two are joined. -/
theorem getElem?_join (q : Equalities) (top below d : Nat) : (q.join top below).classes[d]? =
    if below = d then q.classes[d]?.map fun cls => { cls with parent := top } else q.classes[d]? :=
  getElem?_modify

private theorem getElem?_enter_of_some {cls : Class} (t : Term) (h : q.classes[d]? = some cls) :
    (q.enter t).classes[d]? = some cls := by
  have hlt := (Array.getElem?_eq_some_iff.1 h).1
  rw [getElem?_enter, if_neg hlt.ne, h]

private theorem memberIn?_append (t : Term) (ms ns : List (Term × Nat)) :
    memberIn? t (ms ++ ns) = (memberIn? t ms).or (memberIn? t ns) := by
  induction ms with
  | nil => rfl
  | cons m ms ih =>
    obtain ⟨u, c⟩ := m
    simp only [cons_append, memberIn?, ih]
    split <;> rfl

/-- The members after a term is entered. -/
theorem member?_enter (q : Equalities) (t u : Term) :
    (q.enter t).member? u = (q.member? u).or (if t = u then some q.classes.size else none) := by
  rw [member?, members_enter, memberIn?_append]
  rfl

/-! ### Open classes -/

theorem IsOpen.lt (h : q.IsOpen c) : c < q.classes.size := by
  obtain ⟨cls, hcls, _⟩ := h
  exact (Array.getElem?_eq_some_iff.1 hcls).1

theorem root_eq_self {cls : Class} (hcls : q.classes[c]? = some cls) (hparent : cls.parent = c) :
    q.root c = c := by
  unfold root
  cases q.classes.size with
  | zero => rfl
  | succ n => simp [rootFrom, hcls, hparent]

/-- Open classes are roots. -/
theorem IsOpen.root (h : q.IsOpen c) : q.root c = c := by
  obtain ⟨cls, hcls, hparent, _⟩ := h
  exact root_eq_self hcls hparent

theorem IsOpen.output (h : q.IsOpen c) : q.output c = .placeholder c := by
  unfold Equalities.output
  rw [h.root]
  obtain ⟨cls, hcls, _, hrigid⟩ := h
  simp [hcls, hrigid]

/-- Entering a term leaves open classes open. -/
theorem IsOpen.enter (h : q.IsOpen c) (t : Term) : (q.enter t).IsOpen c := by
  obtain ⟨cls, hcls, hopen⟩ := h
  exact ⟨cls, getElem?_enter_of_some t hcls, hopen⟩

/-- The class of an entered term is open. -/
theorem isOpen_enter (q : Equalities) (t : Term) : (q.enter t).IsOpen q.classes.size :=
  ⟨_, by rw [getElem?_enter, if_pos rfl], rfl, rfl⟩

/-! ### Tidy contexts -/

/-- A rigid class is a root, any other has its first member for canonical term, and every member is
found in its class. -/
structure Tidy (R : RuleTable) (q : Equalities) : Prop extends Bare R q where
  rigidRoot : ∀ (c : Nat) (cls : Class), q.classes[c]? = some cls → cls.rigid → cls.parent = c
  first : ∀ (c : Nat) (cls : Class), q.classes[c]? = some cls → cls.rigid = false →
    (cls.canonical, c) ∈ q.members
  found : ∀ m ∈ q.members, q.member? m.1 = some m.2

/-- The context is tidy and has the rules of an earlier one. -/
structure Grown (R : RuleTable) (q q' : Equalities) : Prop where
  tidy : Tidy R q'
  sub : (table R q).Sub (table R q')

theorem Grown.trans {q1 q2 q3 : Equalities} (h : Grown R q1 q2) (h' : Grown R q2 q3) :
    Grown R q1 q3 :=
  ⟨h'.tidy, h.sub.trans h'.sub⟩

/-- No classes are tidy. -/
theorem tidy_empty (R : RuleTable) : Tidy R empty where
  shaped := wellShaped_empty
  member _ h := nomatch h
  placed _ h := nomatch h
  rigidRoot _ _ h := by simp [empty] at h
  first _ _ h := by simp [empty] at h
  found _ h := nomatch h

theorem eliminate_of_isBare (q : Equalities) (h : IsBare R t) : q.eliminate t = t := by
  cases t with
  | arg | decl => rfl
  | _ => cases h

variable {q' : Equalities} {X : Stop → State → Prop}
  {merge' : Term → Term → Change (Except Contradiction Unit)} {Q : Unit → State → Prop}

/-- Nothing but the classes and the members matters. -/
theorem Tidy.of_eq (hq : Tidy R q) (hclasses : q'.classes = q.classes)
    (hmembers : q'.members = q.members) : Grown R q q' := by
  obtain ⟨classes, members, inconsistent, generation⟩ := q
  obtain ⟨classes', members', inconsistent', generation'⟩ := q'
  subst hclasses hmembers
  exact ⟨{ hq with shaped := { hq.shaped with } }, fun _ _ h => h⟩

private theorem sub_table (h : ∀ a r, unfolding? R q a = some r → unfolding? R q' a = some r) :
    (table R q).Sub (table R q') := by
  intro id r hr
  rw [ruleFor?_table] at hr ⊢
  exact h _ r hr

private theorem unfolding?_mono (hmember : ∀ u c, q.member? u = some c → q'.member? u = some c)
    (hclass : ∀ c r, unfolding? R q (.placeholder c) = some r →
      unfolding? R q' (.placeholder c) = some r) :
    ∀ a r, unfolding? R q a = some r → unfolding? R q' a = some r := by
  intro a r hr
  cases a with
  | arg i =>
    obtain ⟨c, hc, rfl⟩ := map_eq_some_iff.1 hr
    simp [unfolding?, hmember _ c hc]
  | decl id =>
    simp only [unfolding?] at hr ⊢
    split at hr
    · next hrule => simpa [hrule] using hr
    · next hrule =>
      obtain ⟨c, hc, rfl⟩ := map_eq_some_iff.1 hr
      simp [hmember _ c hc]
  | placeholder c => exact hclass c r hr
  | _ => cases hr

/-- A class that is open unfolds to nothing. -/
theorem IsOpen.unfolding? (h : q.IsOpen c) : unfolding? R q (.placeholder c) = none := by
  obtain ⟨cls, hcls, hparent, hrigid⟩ := h
  simp [Equalities.unfolding?, hcls, hparent, hrigid]

/-- Entering a bare term keeps contexts tidy. -/
theorem Tidy.enter (hq : Tidy R q) (hbare : IsBare R t) (hnew : q.member? t = none) :
    Grown R q (q.enter t) := by
  have hrigid : t.isRigid = false := by
    cases t with
    | arg | decl => rfl
    | _ => cases hbare
  have hcases : ∀ (c : Nat) (cls : Class), (q.enter t).classes[c]? = some cls →
      q.classes[c]? = some cls ∨ c = q.classes.size ∧ cls = ⟨q.classes.size, t, false⟩ := by
    intro c cls hcls
    rw [getElem?_enter] at hcls
    split at hcls
    · next hc => exact .inr ⟨hc, by rw [← some.inj hcls, eliminate_of_isBare q hbare]⟩
    · exact .inl hcls
  have hkept : ∀ u c, q.member? u = some c → (q.enter t).member? u = some c := by
    intro u c hc
    rw [member?_enter, hc]
    rfl
  refine ⟨⟨⟨(Update.enter (E := fun _ _ => True) hrigid trivial).wellShaped hq.shaped, ?_, ?_⟩, ?_,
    ?_, ?_⟩, ?_⟩
  · exact forall_mem_append.2 ⟨hq.member, forall_mem_singleton.2 hbare⟩
  · refine forall_mem_append.2 ⟨fun m hm => ?_, forall_mem_singleton.2 ?_⟩
    · rw [size_enter]
      exact Nat.lt_succ_of_lt (hq.placed m hm)
    · rw [size_enter]
      exact Nat.lt_succ_self _
  · intro c cls hcls hcrigid
    obtain hcls | ⟨rfl, rfl⟩ := hcases c cls hcls
    · exact hq.rigidRoot c cls hcls hcrigid
    · rfl
  · intro c cls hcls hcopen
    obtain hcls | ⟨rfl, rfl⟩ := hcases c cls hcls
    · exact mem_append_left _ (hq.first c cls hcls hcopen)
    · exact mem_append_right _ (mem_singleton.2 rfl)
  · refine forall_mem_append.2 ⟨fun m hm => hkept _ _ (hq.found m hm), ?_⟩
    refine forall_mem_singleton.2 ?_
    rw [member?_enter, hnew]
    simp
  · refine sub_table (unfolding?_mono hkept fun c r hr => ?_)
    obtain ⟨cls, hcls, hr⟩ := bind_eq_some_iff.1 hr
    exact bind_eq_some_iff.2 ⟨cls, getElem?_enter_of_some t hcls, hr⟩

/-- Settling an open class keeps contexts tidy. -/
theorem Tidy.settle (hq : Tidy R q) (hc : q.IsOpen c) (ht : t.isRigid) :
    Grown R q (q.settle c t) := by
  have hcases : ∀ (d : Nat) (cls : Class), (q.settle c t).classes[d]? = some cls →
      q.classes[d]? = some cls ∧ c ≠ d ∨ c = d ∧ cls.parent = c ∧ cls.rigid = true := by
    intro d cls hcls
    rw [getElem?_settle] at hcls
    split at hcls
    · next hcd =>
      subst hcd
      obtain ⟨old, hold, hparent, _⟩ := hc
      rw [hold] at hcls
      cases hcls
      exact .inr ⟨rfl, hparent, rfl⟩
    · next hcd => exact .inl ⟨hcls, hcd⟩
  have hshaped : (q.settle c t).WellShaped :=
    hq.shaped.modify c (fun cls hcls => hq.shaped.parent c cls hcls) fun _ _ _ => ht
  refine ⟨⟨⟨hshaped, hq.member, ?_⟩, ?_, ?_, hq.found⟩, ?_⟩
  · rw [size_settle]
    exact hq.placed
  · intro d cls hcls hrigid
    obtain ⟨hcls, _⟩ | ⟨rfl, hparent, _⟩ := hcases d cls hcls
    · exact hq.rigidRoot d cls hcls hrigid
    · exact hparent
  · intro d cls hcls hopen
    obtain ⟨hcls, _⟩ | ⟨rfl, _, hrigid⟩ := hcases d cls hcls
    · exact hq.first d cls hcls hopen
    · rw [hrigid] at hopen
      cases hopen
  · refine sub_table (unfolding?_mono (fun _ _ h => h) fun d r hr => ?_)
    have hcd : c ≠ d := by
      rintro rfl
      rw [hc.unfolding?] at hr
      cases hr
    simpa only [unfolding?, getElem?_settle, if_neg hcd] using hr

/-- Joining open classes keeps contexts tidy. -/
theorem Tidy.join (hq : Tidy R q) (hlt : top < below) (hbelow : q.IsOpen below) :
    Grown R q (q.join top below) := by
  have hcases : ∀ (d : Nat) (cls : Class), (q.join top below).classes[d]? = some cls →
      ∃ old, q.classes[d]? = some old ∧ cls.canonical = old.canonical ∧ cls.rigid = old.rigid ∧
        (below = d ∧ old.rigid = false ∨ cls.parent = old.parent) := by
    intro d cls hcls
    rw [getElem?_join] at hcls
    split at hcls
    · next hd =>
      subst hd
      obtain ⟨old, hold, _, hopen⟩ := hbelow
      rw [hold] at hcls
      cases hcls
      exact ⟨old, hold, rfl, rfl, .inl ⟨rfl, hopen⟩⟩
    · exact ⟨cls, hcls, rfl, rfl, .inr rfl⟩
  refine ⟨⟨⟨(Update.join (E := fun _ _ => True) hlt trivial).wellShaped hq.shaped, hq.member, ?_⟩,
    ?_, ?_, hq.found⟩, ?_⟩
  · rw [size_join]
    exact hq.placed
  · intro d cls hcls hrigid
    obtain ⟨old, hold, _, hsame, ⟨_, hopen⟩ | hparent⟩ := hcases d cls hcls
    · rw [hsame, hopen] at hrigid
      cases hrigid
    · rw [hparent]
      exact hq.rigidRoot d old hold (hsame ▸ hrigid)
  · intro d cls hcls hopen
    obtain ⟨old, hold, hcanonical, hsame, _⟩ := hcases d cls hcls
    rw [hcanonical]
    exact hq.first d old hold (hsame ▸ hopen)
  · refine sub_table (unfolding?_mono (fun _ _ h => h) fun d r hr => ?_)
    have hd : below ≠ d := by
      rintro rfl
      rw [hbelow.unfolding?] at hr
      cases hr
    simpa only [unfolding?, getElem?_join, if_neg hd] using hr

/-! ### Loose terms -/

/-- The term is the placeholder of an open class, or has no class. -/
def Loose (q : Equalities) (t : Term) : Prop :=
  (∃ c, t = .placeholder c ∧ q.IsOpen c) ∨
    (∀ c < q.classes.size, t ≠ .placeholder c) ∧ q.member? t = none

/-- Nothing in the term is replaced. -/
def Unchanged (q : Equalities) (t : Term) : Prop := t.All fun a => q.replacer.change? a = none

private theorem all_head {p : Term → Prop} (h : p t.head) : t.head.All p := by
  cases hhead : t.head with
  | app f x => exact absurd hhead (Term.head_ne_app _ _ _)
  | _ =>
    rw [hhead] at h
    exact h

/-- In a normal form nothing is replaced. -/
theorem unchanged_of_reaches (h : Reaches R q.replacer .full t u) : q.Unchanged u := by
  obtain ⟨d, hd⟩ := h
  induction d generalizing t u with
  | zero => cases hd
  | succ d ih =>
    obtain ⟨w, _, ⟨g, _, hd⟩ | ⟨hhead, args, hargs, ⟨v, _, _, hd⟩ | ⟨_, rfl⟩⟩⟩ :=
      reduce_full_cases hd
    · exact ih hd
    · exact ih hd
    · refine Term.all_apply.2 ⟨all_head hhead, fun y hy => ?_⟩
      obtain ⟨i, hi, rfl⟩ := getElem_of_mem hy
      have hi' : i < w.args.length := hargs.length_eq ▸ hi
      exact ih (hargs.get hi' hi)

/-- Unchanged terms are loose in bare contexts. -/
theorem Bare.loose (hq : Bare R q) (h : q.Unchanged t) : q.Loose t := by
  have hnone : ∀ {t}, ¬ IsBare R t → q.member? t = none := by
    intro t ht
    cases hc : q.member? t with
    | none => rfl
    | some c => exact absurd (hq.isBare_of_member? hc) ht
  have hmember : ∀ {t c}, q.replacer.change? t = none → q.member? t = some c →
      q.replacer t = some (q.output c) → False := by
    intro t c ht hc hreplaced
    have hne := Bare.output_ne (c := c) hq.shaped (hq.isBare_of_member? hc)
    simp [Replacer.change?, hreplaced, hne] at ht
  cases t with
  | placeholder c =>
    by_cases hc : c < q.classes.size
    · exact .inl ⟨c, rfl, Bare.isOpen_of_change? hq.shaped hc h⟩
    · refine .inr ⟨?_, hnone id⟩
      rintro d hd ⟨⟩
      exact hc hd
  | arg i =>
    refine .inr ⟨fun _ _ h => (by cases h), ?_⟩
    cases hc : q.member? (.arg i) with
    | none => rfl
    | some c => exact (hmember h hc (by simp [replacer, hc])).elim
  | decl id =>
    refine .inr ⟨fun _ _ h => (by cases h), ?_⟩
    cases hc : q.member? (.decl id) with
    | none => rfl
    | some c => exact (hmember h hc (by simp [replacer, hc])).elim
  | _ => exact .inr ⟨fun _ _ h => (by cases h), hnone id⟩

/-- A loose term stays loose when another gets a class. -/
theorem Loose.enter (h : q.Loose u) (htu : t ≠ u) : (q.enter t).Loose u := by
  by_cases hsize : u = .placeholder q.classes.size
  · exact .inl ⟨_, hsize, isOpen_enter q t⟩
  obtain ⟨c, rfl, hc⟩ | ⟨hplaceholder, hnone⟩ := h
  · exact .inl ⟨c, rfl, hc.enter t⟩
  · refine .inr ⟨fun c hc => ?_, ?_⟩
    · rw [size_enter] at hc
      rcases Nat.lt_succ_iff_lt_or_eq.1 hc with hc | rfl
      · exact hplaceholder c hc
      · exact hsize
    · rw [member?_enter, hnone, if_neg htu]
      rfl

/-- The placeholders of classes that occur in the term are those of open classes. -/
def Shows (q : Equalities) (t : Term) : Prop :=
  t.All fun a => ∀ c < q.classes.size, a = .placeholder c → q.IsOpen c

/-- Unchanged terms show open classes only. -/
theorem Unchanged.shows (hq : q.WellShaped) (h : q.Unchanged t) : q.Shows t := by
  refine h.mono ?_
  rintro _ ha c hc rfl
  exact Bare.isOpen_of_change? hq hc ha

/-- Terms go on showing open classes. -/
theorem Shows.enter (h : q.Shows u) (t : Term) : (q.enter t).Shows u := by
  refine h.mono fun a ha c hc hac => ?_
  rw [size_enter] at hc
  rcases Nat.lt_succ_iff_lt_or_eq.1 hc with hc | rfl
  · exact (ha c hc hac).enter t
  · exact isOpen_enter q t

/-! ### Changes of tidy contexts -/

private theorem ends_current {Q : Equalities → State → Prop} :
    Ends current s Q X ↔ Q s.equalities s := .rfl

private theorem ends_replace :
    Ends (replace q) s Q X ↔ Q () { s with equalities := q } := .rfl

theorem ends_note {e : Event} :
    Ends (note e) s Q X ↔ Q () { s with journal := e :: s.journal } := .rfl

/-- A loose term is given its class as it is, or a new one. -/
theorem classOf_of_loose (h : s.equalities.Loose t) :
    (∃ c, t = .placeholder c ∧ s.equalities.IsOpen c ∧ classOf t s = .ok c s) ∨
      (∀ c < s.equalities.classes.size, t ≠ .placeholder c) ∧ s.equalities.member? t = none ∧
        classOf t s =
          .ok s.equalities.classes.size { s with equalities := s.equalities.enter t } := by
  obtain ⟨c, rfl, hc⟩ | ⟨hplaceholder, hnone⟩ := h
  · refine .inl ⟨c, rfl, hc, ?_⟩
    refine eq_ok ?_
    unfold classOf
    rw [bind_iff, ends_current]
    dsimp only
    rw [if_pos hc.lt]
    exact ⟨hc.root, rfl⟩
  · refine .inr ⟨hplaceholder, hnone, eq_ok ?_⟩
    unfold classOf
    rw [bind_iff, ends_current]
    cases t with
    | placeholder i =>
      dsimp only
      rw [if_neg fun hi => hplaceholder i hi rfl, hnone]
      exact ⟨rfl, rfl⟩
    | _ =>
      dsimp only
      rw [hnone]
      exact ⟨rfl, rfl⟩

/-- A rigid term becomes the canonical term of an open class, unless it mentions the class. -/
theorem attach_of_isOpen (h : s.equalities.IsOpen c) (t : Term) :
    attach env merge' c t s = .ok (.ok ())
      (if s.equalities.mentions c (s.equalities.eliminate t) then
        { s with journal := .cyclicAssumptionDropped (s.equalities.eliminate t) :: s.journal }
      else { s with equalities := s.equalities.settle c (s.equalities.eliminate t) }) := by
  have hroot := h.root
  obtain ⟨⟨parent, canonical, rigid⟩, hcls, _, rfl⟩ := h
  refine eq_ok ?_
  unfold attach
  rw [bind_iff, ends_current]
  dsimp only
  rw [hroot, hcls]
  unfold settleRigid
  rw [bind_iff, ends_current]
  split
  · rw [bind_iff, ends_note]
    exact ⟨rfl, rfl⟩
  · rw [bind_iff, ends_replace]
    exact ⟨rfl, rfl⟩

/-- Of two open classes the later one is put below the earlier one. -/
theorem unite_of_isOpen (hc : s.equalities.IsOpen c) (hd : s.equalities.IsOpen d) :
    unite env merge' c d s = .ok (.ok ())
      (if c = d then s else { s with equalities := s.equalities.join (min c d) (max c d) }) := by
  have hmax : s.equalities.IsOpen (max c d) := by
    rcases le_total c d with h | h
    · rwa [max_eq_right h]
    · rwa [max_eq_left h]
  refine eq_ok ?_
  unfold unite existingRoot
  simp only [bind_iff, ends_current, if_pos hc.lt, if_pos hd.lt, pure_iff, hc.root, hd.root]
  split
  · exact ⟨rfl, rfl⟩
  · obtain ⟨⟨parent, canonical, rigid⟩, hcls, _, rfl⟩ := hmax
    simp only [bind_iff, ends_current, ends_replace, hcls]
    exact ⟨rfl, rfl⟩

private theorem reduce_spine_of_isBare {h : Replacer} (hbare : IsBare R t) (d : Nat) :
    reduce R h (d + 2) .spine t = some t := by
  cases t with
  | arg i => rfl
  | decl id =>
    have hnone : R.ruleFor? id = none := hbare
    have hweak : reduce R h (d + 1) .weak (.decl id) = some (.decl id) :=
      reduce_weak_succ.2 (.inl ⟨by simp [headStep, Term.head, Term.declId?, hnone], rfl⟩)
    rw [reduce, Reduction.pass, hweak]
    · rfl
    · intro h
      cases h
  | _ => cases hbare

private theorem Bare.round_eq_ok (hq : Bare env.rules s.equalities) (hlimit : 2 ≤ env.limit) :
    round env s = .ok false s := by
  let members := env.order.visit s.equalities.members
  have hbare : ∀ m ∈ members, IsBare env.rules m.1 := fun m hm =>
    hq.member m ((env.order.perm _).mem_iff.1 hm)
  have hread : members.map (fun m => s.equalities.eliminate m.1) = members.map Prod.fst :=
    map_congr_left fun m hm => eliminate_of_isBare s.equalities (hbare m hm)
  have hforms : reduceAllIn env .spine (members.map fun m => s.equalities.eliminate m.1) s =
      .ok (members.map Prod.fst) s := by
    obtain ⟨d, hd⟩ := Nat.exists_eq_add_of_le' hlimit
    have hrun : runAll? env.rules s.equalities.replacer env.limit .spine (members.map Prod.fst) =
        some (members.map Prod.fst) := by
      refine runAll?_of_forall₂ (forall₂_same.2 fun t ht => ?_)
      obtain ⟨m, hm, rfl⟩ := mem_map.1 ht
      rw [hd]
      exact reduce_spine_of_isBare (hbare m hm) d
    rw [hread]
    simp only [reduceAllIn, hrun]
  have hnone : (members.zip (members.map Prod.fst)).filterMap
      (fun a => if a.2 = a.1.1 then none else some (a.2, a.1.2)) = [] := by
    rw [List.zip_map_right, List.zip_eq_zipWith, List.zipWith_self, List.map_map,
      List.filterMap_map]
    simp
  have hmoved : moved env s = .ok [] s :=
    bind_eq_ok_iff.2
      ⟨_, s, rfl, bind_eq_ok_iff.2 ⟨_, s, hforms, congrArg (EStateM.Result.ok · s) hnone⟩⟩
  exact bind_eq_ok_iff.2 ⟨[], s, hmoved, rfl⟩

/-- Normalising the members again changes nothing. -/
theorem Bare.canonicalize_eq_ok (hq : Bare env.rules s.equalities) (hlimit : 2 ≤ env.limit) :
    canonicalize env s = .ok ()
      { s with equalities := { s.equalities with generation := env.rules.generation } } := by
  let s1 : State :=
    { s with equalities := { s.equalities with generation := env.rules.generation } }
  have hround : round env s1 = .ok false s1 :=
    Bare.round_eq_ok { hq with shaped := { hq.shaped with } } hlimit
  change (if s.equalities.hasClasses then rounds env maxRounds else pure ()) s1 = .ok () s1
  split
  · exact bind_eq_ok_iff.2 ⟨false, s1, hround, rfl⟩
  · rfl

/-- A term is not normalised without some depth. -/
theorem two_le_of_run? {h : Replacer} {depth : Nat} (hu : run? R h depth .full t = some u) :
    2 ≤ depth := by
  match depth with
  | 0 => cases hu
  | 1 => cases hu
  | n + 2 => omega

end Equalities
end Elaboration
