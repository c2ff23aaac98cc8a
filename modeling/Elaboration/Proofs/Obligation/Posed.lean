import Mathlib.Data.List.Nodup
import Elaboration.Proofs.Obligation.Trees

/-!
# Obligations and their roots

Each live obligation waits for some of its parts, and for each of these there is one root. While a
part is being settled its root is gone already.
-/

namespace Elaboration

open StoreM Table
namespace Store

/-! ### What an obligation waits for -/

/-- The side conditions of a rule that are not settled. -/
def openSlots (p : RuleProgress) : List Slot :=
  ((List.range p.openChecks.length).filter fun i => p.openChecks[i]?.getD false).map Slot.check ++
    if p.openTypes then [.replacementType] else []

/-- The parts that an obligation waits for. An application waits for its function, then for its
argument. -/
inductive Waits : Obligation → List Slot → Prop where
  | equation : Waits .equation [.main]
  | cast (c : Cast) : Waits (.cast c) [.main]
  | function (a : Application) : Waits (.application a) [.main]
  | argument (a : Application) : Waits (.application a) [.argument]
  | rule (p : RuleProgress) : p.outstanding = (openSlots p).length → 0 < p.outstanding →
    Waits (.rule p) (openSlots p)

variable {p : RuleProgress} {slot : Slot} {outstanding : Nat} {out : Outcome}

theorem mem_openSlots {index : Nat} :
    Slot.check index ∈ openSlots p ↔ p.openChecks[index]?.getD false = true := by
  simp only [openSlots, List.mem_append, List.mem_map, List.mem_filter, List.mem_range]
  constructor
  · rintro (⟨i, ⟨_, hopen⟩, hi⟩ | h)
    · cases hi
      exact hopen
    · split at h <;> simp at h
  · intro h
    have hlt : index < p.openChecks.length := by
      by_contra hge
      rw [List.getElem?_eq_none (not_lt.1 hge)] at h
      cases h
    exact .inl ⟨index, ⟨hlt, h⟩, rfl⟩

theorem replacementType_mem_openSlots : Slot.replacementType ∈ openSlots p ↔
    p.openTypes = true := by
  simp [openSlots]

theorem main_notMem_openSlots : Slot.main ∉ openSlots p := by
  simp [openSlots]

theorem argument_notMem_openSlots : Slot.argument ∉ openSlots p := by
  simp [openSlots]

/-- Open conditions are distinct. -/
theorem nodup_openSlots (p : RuleProgress) : (openSlots p).Nodup := by
  unfold openSlots
  rw [List.nodup_append]
  refine ⟨List.Nodup.map (fun _ _ h => Slot.check.inj h) (List.nodup_range.filter _), ?_, ?_⟩
  · split <;> simp
  · intro x hx y hy hxy
    obtain ⟨i, _, rfl⟩ := List.mem_map.1 hx
    split at hy <;> simp_all

private theorem openSlots_closeCondition (h : slot ∈ openSlots p) :
    openSlots (closeCondition p slot) = (openSlots p).filter (· ≠ slot) := by
  cases slot with
  | main => exact absurd h main_notMem_openSlots
  | argument => exact absurd h argument_notMem_openSlots
  | check index =>
    simp only [openSlots, closeCondition, List.filter_append, List.filter_map,
      List.filter_filter, List.length_set]
    congr 1
    · congr 1
      refine List.filter_congr fun i hi => ?_
      by_cases hii : index = i
      · subst hii
        have hlt := List.mem_range.1 hi
        simp [hlt]
      · have hne : i ≠ index := Ne.symm hii
        simp [List.getElem?_set_ne hii, hne]
    · by_cases htypes : p.openTypes = true <;> simp [htypes]
  | replacementType =>
    simp only [openSlots, closeCondition, List.filter_append, List.filter_map]
    rw [replacementType_mem_openSlots] at h
    simp [h]

/-- A condition that is settled is open no more. -/
theorem openSlots_afterCondition (h : slot ∈ openSlots p) (out : Outcome) (outstanding : Nat) :
    openSlots (afterCondition p slot out outstanding) =
      (openSlots p).filter (· ≠ slot) := by
  have hclose : openSlots (closeCondition { p with outstanding } slot) =
      (openSlots p).filter (· ≠ slot) := openSlots_closeCondition h
  rw [← hclose]
  unfold afterCondition
  dsimp only
  split <;> rfl

private theorem outstanding_afterCondition (p : RuleProgress) (slot : Slot) (out : Outcome)
    (outstanding : Nat) :
    (afterCondition p slot out outstanding).outstanding = outstanding := by
  unfold afterCondition closeCondition
  cases slot <;> dsimp only <;> split <;> rfl

/-- A condition that fails refuses the rule if that was undecided. -/
theorem undecided_afterCondition (p : RuleProgress) (slot : Slot) (out : Outcome)
    (outstanding : Nat) :
    (afterCondition p slot out outstanding).undecided =
        (p.undecided && !refuses p out) ∧
      (afterCondition p slot out outstanding).request =
        if refuses p out then none else p.request := by
  unfold afterCondition closeCondition
  cases slot <;> dsimp only <;> split <;> simp_all

/-- What is left of a rule is the same request, if any. -/
theorem request_of_afterCondition {q : RuleRequest}
    (h : (afterCondition p slot out outstanding).request = some q) :
    p.request = some q := by
  rw [(undecided_afterCondition p slot out outstanding).2] at h
  split at h
  · cases h
  · exact h

private theorem waits_afterCondition (hslot : slot ∈ openSlots p)
    (hcount : p.outstanding = (openSlots p).length)
    (ho : p.outstanding = outstanding + 1) (hleft : outstanding ≠ 0) (out : Outcome) :
    Waits (.rule (StoreM.afterCondition p slot out outstanding))
      ((openSlots p).filter (· ≠ slot)) := by
  rw [← openSlots_afterCondition hslot out outstanding]
  refine .rule _ ?_ ?_
  · have hlen := List.length_erase_of_mem hslot
    rw [(nodup_openSlots p).erase_eq_filter, ← hcount, ho, Nat.add_sub_cancel] at hlen
    rw [outstanding_afterCondition, openSlots_afterCondition hslot, ← hlen]
    exact congrArg List.length (List.filter_congr fun x _ => by simp [bne, beq_eq_decide])
  · rw [outstanding_afterCondition]
    exact Nat.pos_of_ne_zero hleft

/-! ### Roots -/

/-- An equation is a root, posed for a part of an obligation. -/
def Rooted (nodes : Table Node) (i : Nat) (owner : Owner) : Prop :=
  ∃ n, nodes.get? i = some n ∧ n.parent = .root owner

/-- Every live obligation has one root for each part that it waits for, but not for the part that is
being settled. -/
structure Posed (settling : Option Owner) (s : Store) : Prop where
  made : ∀ {id o}, s.obligations.get? id = some o → id < s.nextId
  owned : ∀ {i owner}, Rooted s.nodes i owner → ∃ o, s.obligations.get? owner.obligation = some o
  unique : ∀ {i j owner}, Rooted s.nodes i owner → Rooted s.nodes j owner → i = j
  waits : ∀ {id o}, s.obligations.get? id = some o → ∃ slots, Waits o slots ∧
    ∀ slot, slot ∈ slots ↔ settling = some ⟨id, slot⟩ ∨ ∃ i, Rooted s.nodes i ⟨id, slot⟩
  settling : ∀ {owner}, settling = some owner →
    (∃ o, s.obligations.get? owner.obligation = some o) ∧ ∀ i, ¬ Rooted s.nodes i owner

variable {s s' : Store} {settling : Option Owner} {owner : Owner} {nodes nodes' : Table Node}
  {i : Nat} {n : Node} {o : Obligation}

/-- Only the roots and the obligations matter. -/
theorem Posed.congr (h : Posed settling s) (hroots : ∀ i owner, Rooted s'.nodes i owner ↔
    Rooted s.nodes i owner) (hobligations : s'.obligations = s.obligations)
    (hnext : s.nextId ≤ s'.nextId) : Posed settling s' where
  made hid := (h.made (hobligations ▸ hid)).trans_le hnext
  owned hi := hobligations ▸ h.owned ((hroots _ _).1 hi)
  unique hi hj := h.unique ((hroots _ _).1 hi) ((hroots _ _).1 hj)
  waits hid := by
    simp only [hroots]
    exact h.waits (hobligations ▸ hid)
  settling howner := by
    simp only [hroots, hobligations]
    exact h.settling howner

theorem rooted_marked (hi : nodes.get? i = some n) (p : Progress) (j : Nat) (owner : Owner) :
    Rooted (marked nodes i n p) j owner ↔ Rooted nodes j owner := by
  constructor
  · rintro ⟨m', hm', hroot⟩
    obtain ⟨m, hm, hparent, _⟩ := of_get?_marked hi hm'
    exact ⟨m, hm, hparent ▸ hroot⟩
  · rintro ⟨m, hm, hroot⟩
    obtain ⟨m', hm', hparent, _⟩ := exists_get?_marked (p := p) hi hm
    exact ⟨m', hm', hparent.trans hroot⟩

/-- Muting leaves the roots. -/
theorem rooted_mutes (h : Mutes nodes nodes') (j : Nat) (owner : Owner) :
    Rooted nodes' j owner ↔ Rooted nodes j owner := by
  constructor
  · rintro ⟨m', hm', hroot⟩
    obtain ⟨m, hm, _, hparent, _⟩ := h.of_get? hm'
    exact ⟨m, hm, hparent ▸ hroot⟩
  · rintro ⟨m, hm, hroot⟩
    obtain ⟨m', hm', _, hparent, _⟩ := h.exists_get? hm
    exact ⟨m', hm', hparent.trans hroot⟩

/-- Derived equations are no roots. -/
theorem rooted_decomposed {es : List Equation} (hi : s.nodes.get? i = some n)
    (hlt : ∀ j m, s.nodes.get? j = some m → j < s.nextId) (j : Nat) (owner : Owner) :
    Rooted (s.decomposed i n es).nodes j owner ↔ Rooted s.nodes j owner := by
  constructor
  · rintro ⟨m, hm, hroot⟩
    obtain ⟨rfl, rfl⟩ | ⟨_, _, _, e, _, rfl⟩ | ⟨_, hj⟩ := of_get?_decomposed hm
    · exact ⟨n, hi, hroot⟩
    · cases hroot
    · exact ⟨m, hj, hroot⟩
  · rintro ⟨m, hm, hroot⟩
    by_cases hji : j = i
    · subst hji
      cases hi.symm.trans hm
      exact ⟨_, get?_decomposed_self .., hroot⟩
    · exact ⟨m, (get?_decomposed_of_lt hji (hlt j m hm)).trans hm, hroot⟩

/-- Only one root goes with a tree. -/
theorem rooted_remove (h : Shape nodes) (hi : Rooted nodes i owner)
    (hget : ∀ j m, nodes'.get? j = some m ↔ nodes.get? j = some m ∧ ¬ Below nodes i j) (j : Nat)
    (owner' : Owner) : Rooted nodes' j owner' ↔ Rooted nodes j owner' ∧ j ≠ i := by
  constructor
  · rintro ⟨m, hm, hroot⟩
    obtain ⟨hj, hnot⟩ := (hget j m).1 hm
    refine ⟨⟨m, hj, hroot⟩, ?_⟩
    rintro rfl
    exact hnot .refl
  · rintro ⟨⟨m, hm, hroot⟩, hji⟩
    refine ⟨m, (hget j m).2 ⟨hm, fun hbelow => ?_⟩, hroot⟩
    rcases Relation.ReflTransGen.cases_tail hbelow with rfl | ⟨x, _, y, hy, hmem⟩
    · exact hji rfl
    · exact nomatch hroot.symm.trans (h.parent hy hmem hm)

/-- The root of a part is gone, and the part is being settled. -/
theorem Posed.remove (h : Posed none s) (hi : Rooted s.nodes i owner)
    (hroots : ∀ j owner', Rooted nodes' j owner' ↔ Rooted s.nodes j owner' ∧ j ≠ i) :
    Posed (some owner) (s.withNodes nodes') where
  made hid := h.made hid
  owned hj := h.owned ((hroots _ _).1 hj).1
  unique hj hj' := h.unique ((hroots _ _).1 hj).1 ((hroots _ _).1 hj').1
  waits {id o} hid := by
    obtain ⟨slots, hwaits, hslots⟩ := h.waits hid
    refine ⟨slots, hwaits, fun slot => (hslots slot).trans ?_⟩
    constructor
    · rintro (h' | ⟨j, hj⟩)
      · cases h'
      · by_cases hji : j = i
        · subst hji
          obtain ⟨n, hn, hparent⟩ := hi
          obtain ⟨n', hn', hparent'⟩ := hj
          cases hn.symm.trans hn'
          exact .inl (congrArg some (Parent.root.inj (hparent.symm.trans hparent')))
        · exact .inr ⟨j, (hroots _ _).2 ⟨hj, hji⟩⟩
    · rintro (h' | ⟨j, hj⟩)
      · cases h'
        exact .inr ⟨i, hi⟩
      · exact .inr ⟨j, ((hroots _ _).1 hj).1⟩
  settling := by
    rintro owner' ⟨⟩
    refine ⟨h.owned hi, fun j hj => ?_⟩
    obtain ⟨hj, hji⟩ := (hroots _ _).1 hj
    exact hji (h.unique hj hi)

/-- One obligation changed, its roots with it, and no part is being settled any more. -/
theorem Posed.update (h : Posed settling s) (id : Nat)
    (hsettling : ∀ owner, settling = some owner → owner.obligation = id)
    (hnext : s.nextId ≤ s'.nextId) (hid : id < s'.nextId)
    (hobligations : ∀ id' ≠ id, s'.obligations.get? id' = s.obligations.get? id')
    (hroots : ∀ i owner, owner.obligation ≠ id → (Rooted s'.nodes i owner ↔ Rooted s.nodes i owner))
    (howned : ∀ i slot, Rooted s'.nodes i ⟨id, slot⟩ → ∃ o, s'.obligations.get? id = some o)
    (hunique : ∀ i j slot, Rooted s'.nodes i ⟨id, slot⟩ → Rooted s'.nodes j ⟨id, slot⟩ → i = j)
    (hwaits : ∀ o, s'.obligations.get? id = some o → ∃ slots, Waits o slots ∧
      ∀ slot, slot ∈ slots ↔ ∃ i, Rooted s'.nodes i ⟨id, slot⟩) : Posed none s' where
  made {id' o} ho := by
    by_cases heq : id' = id
    · exact heq ▸ hid
    · exact (h.made ((hobligations id' heq).symm.trans ho)).trans_le hnext
  owned {i owner} hi := by
    by_cases heq : owner.obligation = id
    · subst heq
      exact howned i owner.slot hi
    · rw [hobligations _ heq]
      exact h.owned ((hroots i owner heq).1 hi)
  unique {i j owner} hi hj := by
    by_cases heq : owner.obligation = id
    · subst heq
      exact hunique i j owner.slot hi hj
    · exact h.unique ((hroots i owner heq).1 hi) ((hroots j owner heq).1 hj)
  waits {id' o} ho := by
    by_cases heq : id' = id
    · subst heq
      obtain ⟨slots, hw, hslots⟩ := hwaits o ho
      exact ⟨slots, hw, fun slot => by simp [hslots slot]⟩
    · obtain ⟨slots, hw, hslots⟩ := h.waits ((hobligations id' heq).symm.trans ho)
      refine ⟨slots, hw, fun slot => (hslots slot).trans ?_⟩
      simp only [hroots _ ⟨id', slot⟩ heq]
      refine or_congr_left ⟨fun h' => absurd (hsettling _ h') heq, fun h' => nomatch h'⟩
  settling h' := nomatch h'

section

variable (h : Posed (some owner) s) (ho : s.obligations.get? owner.obligation = some o)
  (hone : ∀ slots, Waits o slots → slots.length = 1)
include h ho hone

/-- The part that is being settled was the only one its obligation waited for. -/
theorem Posed.last (i : Nat) (slot : Slot) :
    ¬ Rooted s.nodes i ⟨owner.obligation, slot⟩ := by
  intro hi
  obtain ⟨slots, hw, hslots⟩ := h.waits ho
  obtain ⟨x, rfl⟩ := List.length_eq_one_iff.1 (hone slots hw)
  have hslot : slot = x := List.mem_singleton.1 ((hslots slot).2 (.inr ⟨i, hi⟩))
  have howner : owner.slot = x := List.mem_singleton.1 ((hslots owner.slot).2 (.inl rfl))
  rw [hslot, ← howner] at hi
  exact (h.settling rfl).2 i hi

private theorem Posed.finish (hroots : ∀ i owner, Rooted s'.nodes i owner ↔ Rooted s.nodes i owner)
    (hnext : s'.nextId = s.nextId)
    (hobligations : s'.obligations = s.obligations.erase owner.obligation) : Posed none s' := by
  have hgone : s'.obligations.get? owner.obligation = none := by
    rw [hobligations, get?_erase, if_pos rfl]
  refine h.update owner.obligation ?_ hnext.symm.le ?_ ?_ (fun i o _ => hroots i o) ?_ ?_ ?_
  · rintro owner' ⟨⟩
    rfl
  · rw [hnext]
    exact h.made ho
  · intro id' hne
    rw [hobligations, get?_erase, if_neg (Ne.symm hne)]
  · intro i slot hi
    exact absurd ((hroots _ _).1 hi) (h.last ho hone i slot)
  · intro i j slot hi
    exact absurd ((hroots _ _).1 hi) (h.last ho hone i slot)
  · intro o' ho'
    exact nomatch hgone.symm.trans ho'

end

/-- A new root, besides those that were there. -/
theorem rooted_withNode (hlt : ∀ j m, s.nodes.get? j = some m → j < s.nextId) (e : Equation)
    (new : Owner) (i : Nat) (owner : Owner) :
    Rooted (s.withNode e (.root new)).nodes i owner ↔
      Rooted s.nodes i owner ∨ i = s.nextId ∧ owner = new := by
  simp only [Rooted, withNode, get?_set]
  by_cases hi : i = s.nextId
  · subst hi
    have hnone : s.nodes.get? s.nextId = none :=
      Option.eq_none_iff_forall_ne_some.2 fun m hm => lt_irrefl _ (hlt _ m hm)
    simp [hnone, eq_comm]
  · have hne : ¬ s.nextId = i := Ne.symm hi
    simp [hne, hi]

private theorem Waits.single (ho : ∀ p, o ≠ .rule p) (slots : List Slot) (hw : Waits o slots) :
    slots.length = 1 := by
  cases hw with
  | rule p => exact absurd rfl (ho p)
  | _ => rfl

private theorem Posed.function {a : Application} (h : Posed (some owner) s)
    (hlt : ∀ j m, s.nodes.get? j = some m → j < s.nextId)
    (ho : s.obligations.get? owner.obligation = some (.application a)) (e : Equation) :
    Posed none (((s.without owner.obligation).withObligation owner.obligation
      (.application a)).withNode e (.root ⟨owner.obligation, .argument⟩)) := by
  have hget : ((s.obligations.erase owner.obligation).set owner.obligation
      (.application a)).get? owner.obligation = some (.application a) := by
    rw [get?_set, if_pos rfl]
  have hroots := rooted_withNode
    (s := (s.without owner.obligation).withObligation owner.obligation (.application a)) hlt e
    ⟨owner.obligation, .argument⟩
  have hlast := h.last ho (Waits.single (by simp))
  refine h.update owner.obligation ?_ (Nat.le_succ _) (Nat.lt_succ_of_lt (h.made ho)) ?_ ?_ ?_ ?_ ?_
  · rintro owner' ⟨⟩
    rfl
  · intro id' hne
    have hne' : ¬ owner.obligation = id' := fun heq => hne heq.symm
    simp only [withNode, withObligation, without, get?_set, get?_erase, if_neg hne']
  · intro i owner' hne
    rw [hroots]
    refine or_iff_left ?_
    rintro ⟨_, rfl⟩
    exact hne rfl
  · intro i slot _
    exact ⟨_, hget⟩
  · intro i j slot hi hj
    rw [hroots] at hi hj
    exact (hi.resolve_left (hlast i slot)).1.trans (hj.resolve_left (hlast j slot)).1.symm
  · intro o ho'
    cases hget.symm.trans ho'
    refine ⟨_, .argument a, fun slot => ?_⟩
    rw [List.mem_singleton]
    constructor
    · rintro rfl
      exact ⟨s.nextId, (hroots _ _).2 (.inr ⟨rfl, rfl⟩)⟩
    · rintro ⟨i, hi⟩
      rw [hroots] at hi
      have := (hi.resolve_left (hlast i slot)).2
      exact congrArg Owner.slot this

private theorem Posed.condition {p : RuleProgress} (h : Posed (some owner) s)
    (ho : s.obligations.get? owner.obligation = some (.rule p))
    (hcount : p.outstanding = outstanding + 1) (out : Outcome) :
    Posed none (conditionStore owner p out outstanding (s.without owner.obligation)) := by
  have hroots : ∀ i o, Rooted _ i o ↔ Rooted s.nodes i o := rooted_mutes
    (mutes_conditionStore owner p out outstanding (s.without owner.obligation))
  have hnext : (conditionStore owner p out outstanding
      (s.without owner.obligation)).nextId = s.nextId := by
    rw [conditionStore_eq]
    rfl
  obtain ⟨slots, hw, hslots⟩ := h.waits ho
  cases hw with
  | rule _ hlength hpos =>
  by_cases hleft : outstanding = 0
  · refine h.finish ho ?_ hroots hnext ?_
    · intro slots hw
      cases hw with
      | rule _ hlength => rw [← hlength, hcount, hleft]
    · simp [hleft, without]
  · have hslot : owner.slot ∈ openSlots p := (hslots owner.slot).2 (.inl rfl)
    have hset : (conditionStore owner p out outstanding
        (s.without owner.obligation)).obligations =
        (s.without owner.obligation).obligations.set owner.obligation
          (.rule (afterCondition p owner.slot out outstanding)) := by
      simp [hleft]
    refine h.update owner.obligation ?_ hnext.symm.le ?_ ?_ (fun i o _ => hroots i o) ?_ ?_ ?_
    · rintro owner' ⟨⟩
      rfl
    · rw [hnext]
      exact h.made ho
    · intro id' hne
      rw [hset, get?_set, if_neg (Ne.symm hne), without, get?_erase, if_neg (Ne.symm hne)]
    · intro i slot _
      exact ⟨_, by rw [hset, get?_set, if_pos rfl]⟩
    · intro i j slot hi hj
      exact h.unique ((hroots _ _).1 hi) ((hroots _ _).1 hj)
    · intro o' ho'
      rw [hset, get?_set, if_pos rfl] at ho'
      cases ho'
      refine ⟨_, waits_afterCondition hslot hlength hcount hleft out, fun slot => ?_⟩
      rw [List.mem_filter, hslots slot, decide_eq_true_iff]
      simp only [hroots]
      constructor
      · rintro ⟨heq | hi, hne⟩
        · exact absurd (congrArg Owner.slot (Option.some.inj heq)).symm hne
        · exact hi
      · rintro ⟨i, hi⟩
        refine ⟨.inr ⟨i, hi⟩, ?_⟩
        rintro rfl
        exact (h.settling rfl).2 i hi

/-- Settling a part of an obligation leaves each obligation with the roots that it waits for. -/
theorem Posed.resolved {k k' : Kernel} (h : Posed (some owner) s)
    (hlt : ∀ j m, s.nodes.get? j = some m → j < s.nextId)
    (hr : Resolved owner out s k s' k') : Posed none s' := by
  cases hr with
  | equation ho | castFailed ho | applicationFailed ho =>
    exact h.finish ho (Waits.single (by simp)) (by simp [without]) (by simp [without])
      (by simp [without])
  | castSolved ho | argumentSolved ho =>
    exact h.finish ho (Waits.single (by simp)) (by simp [without]) rfl rfl
  | functionSolved ho => exact h.function hlt ho _
  | condition ho hcount | lastCondition ho hcount => exact h.condition ho hcount out

end Store
end Elaboration
