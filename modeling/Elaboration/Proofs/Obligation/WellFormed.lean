import Elaboration.Proofs.Obligation.Posed

/-!
# The store is kept in order

After every request the equations form trees with right counts, every equation that waits is in its
queue once, and every obligation has the roots that it waits for.
-/

namespace Elaboration

open List
namespace Store

/-- Every equation that is ready or stalled is in its queue once, and no other one is in a queue.
The busy equation was taken from the queue. -/
structure Queued (busy : Option Nat) (s : Store) : Prop where
  fresh : ∀ i n, s.nodes.get? i = some n → i < s.nextId
  ready_lt : ∀ i ∈ s.ready, i < s.nextId
  stalled_lt : ∀ i ∈ s.stalled, i < s.nextId
  ready : ∀ {i n}, s.nodes.get? i = some n →
    s.ready.count i = if n.progress = .ready ∧ busy ≠ some i then 1 else 0
  stalled : ∀ {i n}, s.nodes.get? i = some n →
    s.stalled.count i = if n.progress = .stalled then 1 else 0

variable {busy busy' : Option Nat} {s s' : Store} {i : Nat} {n : Node} {rest : List Nat}
  {j start len : Nat}

/-- Only who waits, and in which queue, matters. -/
theorem Queued.congr (h : Queued busy s) (hready : s'.ready = s.ready)
    (hstalled : s'.stalled = s.stalled) (hnext : s'.nextId = s.nextId)
    (hnodes : ∀ i n', s'.nodes.get? i = some n' → ∃ n, s.nodes.get? i = some n ∧
      (n'.progress = .ready ∧ busy' ≠ some i ↔ n.progress = .ready ∧ busy ≠ some i) ∧
      (n'.progress = .stalled ↔ n.progress = .stalled)) : Queued busy' s' where
  fresh i n' hi := by
    obtain ⟨n, hn, _⟩ := hnodes i n' hi
    exact hnext ▸ h.fresh i n hn
  ready_lt := by
    rw [hready, hnext]
    exact h.ready_lt
  stalled_lt := by
    rw [hstalled, hnext]
    exact h.stalled_lt
  ready {i n'} hi := by
    obtain ⟨n, hn, hprogress, _⟩ := hnodes i n' hi
    rw [hready, h.ready hn]
    exact if_congr hprogress.symm rfl rfl
  stalled {i n'} hi := by
    obtain ⟨n, hn, _, hprogress⟩ := hnodes i n' hi
    rw [hstalled, h.stalled hn]
    exact if_congr hprogress.symm rfl rfl

private theorem Queued.skip (h : Queued none s) (hready : s.ready = i :: rest)
    (hi : ∀ n, s.nodes.get? i = some n → n.progress ≠ .ready) :
    Queued none { s with ready := rest } where
  __ := h
  ready_lt j hj := h.ready_lt j (hready ▸ mem_cons_of_mem _ hj)
  ready {j n} hj := by
    have hcount := h.ready hj
    rw [hready, count_cons] at hcount
    split at hcount
    · next hji =>
      rw [beq_iff_eq] at hji
      subst hji
      simp [hi n hj] at hcount
    · exact hcount

private theorem Queued.pop (h : Queued none s) (hready : s.ready = i :: rest)
    (hi : s.nodes.get? i = some n) (hn : n.progress = .ready) (left : Indeterminates) :
    Queued (some i) { s with ready := rest, indeterminates := left } where
  __ := h
  ready_lt j hj := h.ready_lt j (hready ▸ mem_cons_of_mem _ hj)
  ready {j m} hj := by
    have hcount := h.ready hj
    rw [hready, count_cons] at hcount
    by_cases hji : i = j
    · subst hji
      cases hi.symm.trans hj
      simpa [hn] using hcount
    · simpa [hji] using hcount

private theorem Queued.stall (h : Queued (some i) s) (hi : s.nodes.get? i = some n)
    (hn : n.progress = .ready) :
    Queued none { s with nodes := marked s.nodes i n .stalled, stalled := s.stalled ++ [i] } where
  fresh j m hj := by
    obtain ⟨m, hm, _⟩ := of_get?_marked hi hj
    exact h.fresh j m hm
  ready_lt := h.ready_lt
  stalled_lt j hj := by
    rcases mem_append.1 hj with hj | hj
    · exact h.stalled_lt j hj
    · exact mem_singleton.1 hj ▸ h.fresh i n hi
  ready {j m} hj := by
    obtain ⟨rfl, rfl⟩ | ⟨hij, hj⟩ := eq_or_of_get?_marked hj
    · simpa using h.ready hi
    · simpa [hij] using h.ready hj
  stalled {j m} hj := by
    rw [count_append]
    obtain ⟨rfl, rfl⟩ | ⟨hij, hj⟩ := eq_or_of_get?_marked hj
    · have hcount := h.stalled hi
      rw [hn] at hcount
      simpa using hcount
    · simpa [hij] using h.stalled hj

private theorem Queued.wake (h : Queued none { s with stalled := i :: rest }) :
    Queued none { StoreM.wake s i with stalled := rest } := by
  have hold : ∀ j m, s.nodes.get? j = some m → (i = j → m.progress ≠ .stalled) →
      rest.count j = if m.progress = .stalled then 1 else 0 := by
    intro j m hj hij
    have hcount : (i :: rest).count j = _ := h.stalled hj
    rw [count_cons] at hcount
    split at hcount
    · next hji =>
      rw [beq_iff_eq] at hji
      simp [hij hji] at hcount
    · exact hcount
  have hlt : ∀ j ∈ rest, j < s.nextId := fun j hj => h.stalled_lt j (mem_cons_of_mem _ hj)
  unfold StoreM.wake
  split
  · next n hi =>
    split
    · next hn =>
      have hfresh : i < s.nextId := h.fresh i n hi
      refine ⟨?_, ?_, hlt, ?_, ?_⟩
      · intro j m hj
        obtain ⟨m, hm, _⟩ := of_get?_marked hi hj
        exact h.fresh j m hm
      · intro j hj
        rcases mem_append.1 hj with hj | hj
        · exact h.ready_lt j hj
        · exact mem_singleton.1 hj ▸ hfresh
      · intro j m hj
        obtain ⟨rfl, rfl⟩ | ⟨hij, hj⟩ := eq_or_of_get?_marked hj
        · have hcount : s.ready.count i = _ := h.ready hi
          rw [hn] at hcount
          simpa using hcount
        · have hcount : s.ready.count j = _ := h.ready hj
          simpa [hij] using hcount
      · intro j m hj
        obtain ⟨rfl, rfl⟩ | ⟨hij, hj⟩ := eq_or_of_get?_marked hj
        · have hcount : (i :: rest).count i = _ := h.stalled hi
          rw [count_cons_self, if_pos hn] at hcount
          simpa using hcount
        · exact hold j m hj fun heq => absurd heq hij
    · next hn =>
      refine ⟨h.fresh, h.ready_lt, hlt, h.ready, fun {j m} hj => hold j m hj ?_⟩
      rintro rfl
      cases hi.symm.trans hj
      exact hn
  · next hi =>
    refine ⟨h.fresh, h.ready_lt, hlt, h.ready, fun {j m} hj => hold j m hj ?_⟩
    rintro rfl
    exact nomatch hi.symm.trans hj

private theorem count_range'_of_lt (h : j < start) : (range' start len).count j = 0 :=
  count_eq_zero_of_not_mem fun hmem => Nat.not_le_of_lt h (mem_range'_1.1 hmem).1

private theorem count_range'_of_mem (h : start ≤ j) (h' : j < start + len) :
    (range' start len).count j = 1 :=
  count_eq_one_of_mem nodup_range' (mem_range'_1.2 ⟨h, h'⟩)

private theorem Queued.count_fresh (h : Queued busy s) {j : Nat} (hj : s.nextId ≤ j) :
    s.ready.count j = 0 ∧ s.stalled.count j = 0 :=
  ⟨count_eq_zero_of_not_mem fun hmem => Nat.not_le_of_lt (h.ready_lt j hmem) hj,
    count_eq_zero_of_not_mem fun hmem => Nat.not_le_of_lt (h.stalled_lt j hmem) hj⟩

private theorem Queued.extend (h : Queued busy s)
    (hs' : s' = { s with
      nodes := s'.nodes
      ready := s.ready ++ range' s.nextId len
      nextId := s.nextId + len })
    (hnodes : ∀ i n', s'.nodes.get? i = some n' →
      (s.nextId ≤ i ∧ i < s.nextId + len ∧ n'.progress = .ready) ∨ ∃ n, s.nodes.get? i = some n ∧
        (n'.progress = .ready ↔ n.progress = .ready ∧ busy ≠ some i) ∧
        (n'.progress = .stalled ↔ n.progress = .stalled)) : Queued none s' := by
  rw [hs']
  refine ⟨fun j m hj => ?_, fun j hj => ?_, fun j hj => ?_, fun {j m} hj => ?_, fun {j m} hj => ?_⟩
  · obtain ⟨_, hlt, _⟩ | ⟨n, hn, _⟩ := hnodes j m hj
    · exact hlt
    · exact Nat.lt_add_right _ (h.fresh j n hn)
  · rcases mem_append.1 hj with hj | hj
    · exact Nat.lt_add_right _ (h.ready_lt j hj)
    · exact (mem_range'_1.1 hj).2
  · exact Nat.lt_add_right _ (h.stalled_lt j hj)
  · rw [count_append]
    obtain ⟨hle, hlt, hp⟩ | ⟨n, hn, hready, _⟩ := hnodes j m hj
    · rw [count_range'_of_mem hle hlt, (h.count_fresh hle).1]
      simp [hp]
    · rw [count_range'_of_lt (h.fresh j n hn), h.ready hn]
      simp [hready]
  · obtain ⟨hle, _, hp⟩ | ⟨n, hn, _, hstalled⟩ := hnodes j m hj
    · rw [(h.count_fresh hle).2]
      simp [hp]
    · rw [h.stalled hn]
      simp [hstalled]

/-- New equations are in the queue. -/
theorem Queued.withAll (h : Queued none s) (es : List (Equation × Parent)) :
    Queued none (s.withAll es) := by
  refine h.extend (withAll_eq s es) fun j m hj => ?_
  obtain hj | ⟨hle, hlt, x, _, rfl⟩ := of_get?_withAll hj
  · exact .inr ⟨m, hj, by simp, .rfl⟩
  · exact .inl ⟨hle, hlt, rfl⟩

private theorem Queued.decompose {es : List Equation} (h : Queued (some i) s)
    (hi : s.nodes.get? i = some n) (hn : n.progress = .ready) :
    Queued none (s.decomposed i n es) := by
  refine h.extend (decomposed_update s i n es) fun j m hj => ?_
  obtain ⟨rfl, rfl⟩ | ⟨_, hle, hlt, e, _, rfl⟩ | ⟨hji, hj⟩ := of_get?_decomposed hj
  · exact .inr ⟨n, hi, by simp, by simp [hn]⟩
  · exact .inl ⟨hle, hlt, rfl⟩
  · exact .inr ⟨m, hj, by simp [hji.symm], .rfl⟩

end Store

open Option Store StoreM Table
namespace Store

/-- The store is in order, but for the equation that is busy, the failure that is climbing and the
part of an obligation that is being settled. -/
structure WellFormed (busy failing : Option Nat) (settling : Option Owner) (s : Store) : Prop where
  keys : s.nodes.keys.Nodup
  trees : Trees busy failing s.nodes
  queued : Queued busy s
  posed : Posed settling s

variable {busy failing : Option Nat} {s s' : Store} {i : Nat} {n : Node} {rest : List Nat}
  {owner : Owner}

theorem nodup_keys_withAll (h : s.nodes.keys.Nodup) (es : List (Equation × Parent)) :
    (s.withAll es).nodes.keys.Nodup := by
  induction es generalizing s with
  | nil => exact h
  | cons x es ih => exact ih (s := s.withNode x.1 x.2) (nodup_keys_set h _ _)

/-- A store without equations and obligations is in order. -/
theorem wellFormed_empty (hnodes : s.nodes = .empty) (hready : s.ready = [])
    (hstalled : s.stalled = []) (hobligations : s.obligations = .empty) :
    WellFormed none none none s where
  keys := hnodes ▸ List.nodup_nil
  trees := hnodes ▸ trees_empty
  queued := by constructor <;> simp [hnodes, hready, hstalled]
  posed := by constructor <;> simp [Rooted, hnodes, hobligations]

private theorem WellFormed.wake (h : WellFormed none none none { s with stalled := i :: rest }) :
    WellFormed none none none { wake s i with stalled := rest } := by
  have hqueued := h.queued.wake
  unfold StoreM.wake at hqueued ⊢
  split
  · next n hi =>
    split
    · next hn =>
      simp only [hi, hn] at hqueued
      refine ⟨nodup_keys_set h.keys _ _, ?_, hqueued, ?_⟩
      · exact h.trees.relabel hi (.inr hn) (.inl rfl) (.inr rfl)
      · exact h.posed.congr (rooted_marked hi .ready) rfl le_rfl
    · next hn =>
      simp only [hi, hn] at hqueued
      exact ⟨h.keys, h.trees, hqueued, h.posed.congr (fun _ _ => Iff.rfl) rfl le_rfl⟩
  · next hi =>
    simp only [hi] at hqueued
    exact ⟨h.keys, h.trees, hqueued, h.posed.congr (fun _ _ => Iff.rfl) rfl le_rfl⟩

private theorem stalled_wake (s : Store) (i : Nat) : (wake s i).stalled = s.stalled := by
  unfold wake
  split
  · split <;> rfl
  · rfl

private theorem WellFormed.woken (h : WellFormed none none none s) (generation : Nat) :
    WellFormed none none none (s.woken generation) := by
  have hfold : ∀ (indices : List Nat) (s : Store), s.stalled = [] →
      WellFormed none none none { s with stalled := indices } →
      WellFormed none none none (indices.foldl StoreM.wake s) := by
    intro indices
    induction indices with
    | nil =>
      intro s hs h
      have hsame : { s with stalled := [] } = s := by rw [← hs]
      exact hsame ▸ h
    | cons i rest ih => exact fun s hs h => ih _ ((stalled_wake s i).trans hs) h.wake
  refine hfold s.stalled _ rfl ⟨h.keys, h.trees, ?_, ?_⟩
  · exact h.queued.congr rfl rfl rfl fun i n hi => ⟨n, hi, Iff.rfl, Iff.rfl⟩
  · exact h.posed.congr (fun _ _ => Iff.rfl) rfl le_rfl

private theorem WellFormed.remove (h : WellFormed busy failing none s) {owner : Owner}
    {nodes' : Table Node} (hi : s.nodes.get? i = some n) (hroot : n.parent = .root owner)
    (hbusy : busy = none ∨ busy = some i) (hfailing : failing = none ∨ failing = some i)
    (hkeys : nodes'.keys.Nodup)
    (hget : ∀ j m, nodes'.get? j = some m ↔ s.nodes.get? j = some m ∧ ¬ Below s.nodes i j) :
    WellFormed none none (some owner) (s.withNodes nodes') where
  keys := hkeys
  trees := h.trees.remove hi hroot hbusy hfailing hget
  queued := by
    refine h.queued.congr rfl rfl rfl fun j m hj => ?_
    obtain ⟨hj, hnot⟩ := (hget j m).1 hj
    refine ⟨m, hj, and_congr_right fun _ => ?_, Iff.rfl⟩
    rcases hbusy with rfl | rfl
    · exact Iff.rfl
    · refine ⟨fun _ heq => hnot ?_, fun _ => by simp⟩
      rw [some.inj heq]
  posed := h.posed.remove ⟨n, hi, hroot⟩ (rooted_remove h.trees.toShape ⟨n, hi, hroot⟩ hget)

/-- Settling a part of an obligation leaves the store in order. -/
theorem WellFormed.resolved {k k' : Kernel} {out : Outcome}
    (h : WellFormed none none (some owner) s) (hr : Resolved owner out s k s' k') :
    WellFormed none none none s' := by
  have hposed := h.posed.resolved h.queued.fresh hr
  have hmutes : Mutes s.nodes s'.nodes → s'.ready = s.ready → s'.stalled = s.stalled →
      s'.nextId = s.nextId → WellFormed none none none s' := by
    intro hnodes hready hstalled hnext
    refine ⟨hnodes.1 ▸ h.keys, h.trees.mutes hnodes, ?_, hposed⟩
    refine h.queued.congr hready hstalled hnext fun i n hi => ?_
    obtain ⟨m, hm, hprogress, _⟩ := hnodes.of_get? hi
    exact ⟨m, hm, by rw [hprogress], by rw [hprogress]⟩
  cases hr with
  | @functionSolved a =>
    refine ⟨nodup_keys_set h.keys _ _, ?_, ?_, hposed⟩
    · refine Trees.withRoots (s := (s.without _).withObligation _ _) h.trees h.queued.fresh
        [(argumentEquation a, .root ⟨owner.obligation, .argument⟩)] ?_
      simp
    · refine Queued.withAll (s := (s.without _).withObligation _ _) ?_
        [(argumentEquation a, .root ⟨owner.obligation, .argument⟩)]
      exact h.queued.congr rfl rfl rfl fun i n hi => ⟨n, hi, Iff.rfl, Iff.rfl⟩
  | condition | lastCondition =>
    refine hmutes (mutes_conditionStore ..) ?_ ?_ ?_ <;> rw [conditionStore_eq] <;> rfl
  | castSolved | argumentSolved => exact hmutes (.refl _) rfl rfl rfl
  | equation | castFailed | applicationFailed =>
    rw [failedIf_eq] at hmutes ⊢
    exact hmutes (.refl _) rfl rfl rfl

private theorem Trees.take {nodes : Table Node} (h : Trees none none nodes) (i : Nat) :
    Trees (some i) none nodes where
  __ := h
  remaining hj hr := ⟨(h.remaining hj hr).1, fun _ => (h.remaining hj hr).2 (by simp)⟩
  failed hj hf := absurd hf (h.not_failed hj)

private theorem WellFormed.pop (h : WellFormed none none none s) (hready : s.ready = i :: rest)
    (hi : s.nodes.get? i = some n) (hn : n.progress = .ready) (left : Indeterminates) :
    WellFormed (some i) none none { s with ready := rest, indeterminates := left } where
  keys := h.keys
  trees := h.trees.take i
  queued := h.queued.pop hready hi hn left
  posed := h.posed.congr (fun _ _ => Iff.rfl) rfl le_rfl

private theorem WellFormed.solve {a r : Nat} {m : Node} (h : WellFormed (some i) none none s)
    (hi : s.nodes.get? i = some n) (hn : n.progress = .ready ∨ n.progress = .decomposed 0)
    (hparent : n.parent = .child a) (ha : s.nodes.get? a = some m)
    (hm : m.progress = .decomposed (r + 1)) :
    WellFormed (if r = 0 then some a else none) none none
      (s.withNodes (solvedBelow s.nodes i n a m r)) := by
  have hia : i ≠ a := (h.trees.up hi hparent).1.ne'
  have hmarked : (marked s.nodes i n .solved).get? a = some m := by
    rw [get?_marked, if_neg hia, ha]
  refine ⟨nodup_keys_set (nodup_keys_set h.keys _ _) _ _, h.trees.solve hi hn hparent ha hm, ?_, ?_⟩
  · refine h.queued.congr rfl rfl rfl fun j x hj => ?_
    obtain ⟨rfl, rfl⟩ | ⟨rfl, rfl⟩ | ⟨hji, hja, hj⟩ := of_get?_solvedBelow hj
    · exact ⟨n, hi, by simp, by rcases hn with hn | hn <;> simp [hn]⟩
    · exact ⟨m, ha, by simp [hm], by simp [hm]⟩
    · refine ⟨x, hj, and_congr_right fun _ => iff_of_true ?_ ?_, Iff.rfl⟩
      · split
        · exact fun heq => hja (some.inj heq).symm
        · simp
      · exact fun heq => hji (some.inj heq).symm
  · refine h.posed.congr (fun j owner => ?_) rfl le_rfl
    exact (rooted_marked hmarked _ j owner).trans (rooted_marked hi _ j owner)

private theorem WellFormed.above {a : Nat} (h : WellFormed (some i) none none s)
    (hi : s.nodes.get? i = some n) (hn : n.progress = .ready ∨ n.progress = .decomposed 0)
    (hparent : n.parent = .child a) (p : Progress) :
    ∃ m r, (marked s.nodes i n p).get? a = some m ∧ s.nodes.get? a = some m ∧
      m.progress = .decomposed (r + 1) := by
  have hia : i ≠ a := (h.trees.up hi hparent).1.ne'
  have hunsolved : n.progress ≠ .solved := by rcases hn with hn | hn <;> simp [hn]
  obtain ⟨m, hm, _, hfailed | ⟨r, hr⟩⟩ := h.trees.waits hi hunsolved hparent
  · exact absurd hfailed (h.trees.not_failed hm)
  · exact ⟨m, r, by rw [get?_marked, if_neg hia, hm], hm, hr⟩

private theorem WellFormed.fail {a : Nat} (h : WellFormed (some i) (some i) none s)
    (hi : s.nodes.get? i = some n) (hn : n.progress = .ready ∨ ∃ r, n.progress = .decomposed r)
    (hparent : n.parent = .child a) :
    WellFormed (some a) (some a) none (s.withNodes (marked s.nodes i n .failed)) ∧
      ∃ m r, (marked s.nodes i n .failed).get? a = some m ∧ m.progress = .decomposed r := by
  have hia : i ≠ a := (h.trees.up hi hparent).1.ne'
  have hunsolved : n.progress ≠ .solved := by rcases hn with hn | ⟨r, hn⟩ <;> simp [hn]
  obtain ⟨m, hm, _, hfailed | ⟨r, hr⟩⟩ := h.trees.waits hi hunsolved hparent
  · exact absurd (h.trees.lt_of_failed hm hfailed) (Nat.not_lt_of_gt (h.trees.up hi hparent).1)
  · refine ⟨⟨nodup_keys_set h.keys _ _, h.trees.fail hi hn hparent, ?_, ?_⟩, m, r + 1, ?_, hr⟩
    · refine h.queued.congr rfl rfl rfl fun j x hj => ?_
      obtain ⟨rfl, rfl⟩ | ⟨hij, hj⟩ := eq_or_of_get?_marked hj
      · exact ⟨n, hi, by simp, by rcases hn with hn | ⟨r, hn⟩ <;> simp [hn]⟩
      · refine ⟨x, hj, and_congr_right fun hready => iff_of_true ?_ ?_, Iff.rfl⟩
        · rintro ⟨⟩
          cases hm.symm.trans hj
          exact nomatch hr.symm.trans hready
        · exact fun heq => hij (some.inj heq)
    · exact h.posed.congr (rooted_marked hi .failed) rfl le_rfl
    · rw [get?_marked, if_neg hia, hm]

private theorem WellFormed.toFailing (h : WellFormed (some i) none none s) :
    WellFormed (some i) (some i) none s :=
  { h with trees := { h.trees with failed := fun hj hf => absurd hf (h.trees.not_failed hj) } }

private theorem WellFormed.stall (h : WellFormed (some i) none none s)
    (hi : s.nodes.get? i = some n) (hn : n.progress = .ready) :
    WellFormed none none none
      { s with nodes := marked s.nodes i n .stalled, stalled := s.stalled ++ [i] } where
  keys := nodup_keys_set h.keys _ _
  trees := h.trees.relabel hi (.inl hn) (.inr rfl) (.inl rfl)
  queued := h.queued.stall hi hn
  posed := h.posed.congr (rooted_marked hi .stalled) rfl le_rfl

private theorem WellFormed.decompose {es : List Equation} (h : WellFormed (some i) none none s)
    (hi : s.nodes.get? i = some n) (hn : n.progress = .ready) (hes : es ≠ []) :
    WellFormed none none none (s.decomposed i n es) where
  keys := nodup_keys_set
    (nodup_keys_withAll (s := s.withNodes _) (nodup_keys_set h.keys _ _) _) _ _
  trees := h.trees.decompose h.queued.fresh hi hn hes
  queued := h.queued.decompose hi hn
  posed := by
    refine h.posed.congr (rooted_decomposed hi h.queued.fresh) ?_ ?_
    · rw [decomposed_update]
    · rw [decomposed_update]
      exact Nat.le_add_right _ _

private theorem WellFormed.removeRoot {p : Progress} (h : WellFormed (some i) failing none s)
    (hi : s.nodes.get? i = some n) (hroot : n.parent = .root owner)
    (hfailing : failing = none ∨ failing = some i) {nodes : Table Node}
    (hnodes : nodes = marked s.nodes i n p) :
    WellFormed none none (some owner) (s.withNodes (removeTree nodes.size nodes i)) := by
  subst hnodes
  exact h.remove hi hroot (.inr rfl) hfailing
    ((prunes_removeTree _ _ _).nodup (nodup_keys_set h.keys _ _))
    fun _ _ => get?_removeTree_marked hi

end Store

namespace StoreM

variable {es : List Equation}

/-- The store is in order, as far as it can be in the middle of a move. -/
def Config.Ordered : Config → Prop
  | ⟨.idle, s, _⟩ => s.WellFormed none none none
  | ⟨.acting i _, s, _⟩ =>
    s.WellFormed (some i) none none ∧ ∃ n, s.nodes.get? i = some n ∧ n.progress = .ready
  | ⟨.solving i, s, _⟩ =>
    s.WellFormed (some i) none none ∧
      ∃ n, s.nodes.get? i = some n ∧ (n.progress = .ready ∨ n.progress = .decomposed 0)
  | ⟨.failing i, s, _⟩ =>
    s.WellFormed (some i) (some i) none ∧
      ∃ n, s.nodes.get? i = some n ∧ (n.progress = .ready ∨ ∃ r, n.progress = .decomposed r)
  | ⟨.settling owner _, s, _⟩ => s.WellFormed none none (some owner)

private theorem get?_withChildren {s : Store} {i : Nat} {n : Node} (hlt : i < s.nextId) :
    ((s.withNodes (marked s.nodes i n (.decomposed es.length))).withChildren i es).nodes.get? i =
      some { n with progress := .decomposed es.length } := by
  have hlt' : i < (s.withNodes (marked s.nodes i n (.decomposed es.length))).nextId := hlt
  rw [withChildren, get?_withAll_of_lt hlt', withNodes, get?_marked_self]

/-- What acting on derived equations leaves. -/
theorem decomposed_eq {s s' : Store} {i : Nat} {n n' : Node} (hlt : i < s.nextId)
    (hs' : s' = (s.withNodes (marked s.nodes i n (.decomposed es.length))).withChildren i es)
    (hn' : s'.nodes.get? i = some n') :
    s'.withNodes (s'.nodes.set i { n' with children := List.range' s.nextId es.length }) =
      s.decomposed i n es := by
  cases (get?_withChildren hlt).symm.trans (hs' ▸ hn')
  rw [hs']
  rfl

/-- Every move keeps the store in order. -/
theorem Move.ordered {c c' : Config} (h : Move c c') (hc : c.Ordered) : c'.Ordered := by
  cases h with
  | skip hready hi =>
    exact { hc with
      queued := hc.queued.skip hready hi
      posed := hc.posed.congr (fun _ _ => Iff.rfl) rfl le_rfl }
  | step hready hi hn _ => exact ⟨hc.pop hready hi hn _, _, hi, hn⟩
  | wake => exact hc.woken _
  | actSolved =>
    obtain ⟨hwf, n, hi, hn⟩ := hc
    exact ⟨hwf, n, hi, .inl hn⟩
  | actFailed =>
    obtain ⟨hwf, n, hi, hn⟩ := hc
    exact ⟨hwf.toFailing, n, hi, .inl hn⟩
  | actStalled hi =>
    obtain ⟨hwf, n, hi', hn⟩ := hc
    cases hi.symm.trans hi'
    exact hwf.stall hi hn
  | actDerived hes hi hs' hn' =>
    obtain ⟨hwf, _, hi', hn⟩ := hc
    cases hi.symm.trans hi'
    rw [decomposed_eq (hwf.queued.fresh _ _ hi) hs' hn']
    exact hwf.decompose hi hn hes
  | solveRoot hi hroot hnodes => exact hc.1.removeRoot hi hroot (.inl rfl) hnodes
  | @solveChild _ _ _ _ remaining _ _ _ hi hparent hnodes hm hr =>
    obtain ⟨hwf, n, hi', hn⟩ := hc
    cases hi.symm.trans hi'
    subst hnodes
    obtain ⟨m, r, hm', hm'', hr'⟩ := hwf.above hi hn hparent .solved
    cases hm.symm.trans hm'
    have hsolve := hwf.solve hi hn hparent hm'' hr
    by_cases hzero : remaining = 0
    · rw [if_pos hzero] at hsolve ⊢
      subst hzero
      exact ⟨hsolve, _, get?_marked_self _ _ _ _, .inr rfl⟩
    · rw [if_neg hzero] at hsolve ⊢
      exact hsolve
  | solveIdle hi hparent hnodes hm hother =>
    obtain ⟨hwf, n, hi', hn⟩ := hc
    cases hi.symm.trans hi'
    subst hnodes
    obtain ⟨m, r, hm', _, hr⟩ := hwf.above hi hn hparent .solved
    cases hm.symm.trans hm'
    exact absurd hr (hother _)
  | failRoot hi hroot hnodes => exact hc.1.removeRoot hi hroot (.inr rfl) hnodes
  | failChild hi hparent =>
    obtain ⟨hwf, n', hi', hn⟩ := hc
    cases hi.symm.trans hi'
    obtain ⟨hwf', m, r, hm, hr⟩ := hwf.fail hi hn hparent
    exact ⟨hwf', m, hm, .inr ⟨r, hr⟩⟩
  | settle hr => exact hc.resolved hr
  | giveUp hi hroot =>
    exact hc.remove hi hroot (.inl rfl) (.inl rfl)
      ((prunes_removeTree _ _ _).nodup hc.keys) (get?_removeTree _ _)

/-- A store that is in order never stops because it is not. -/
theorem ResolveStops.not_ofStore {owner : Owner} {out : Outcome} {s : Store} {k k' : Kernel}
    {e : Stop} (h : ResolveStops owner out s k e k')
    (hs : s.WellFormed none none (some owner)) : e.ofStore = false := by
  cases h with
  | missing hnone =>
    obtain ⟨o, ho⟩ := (hs.posed.settling rfl).1
    exact nomatch hnone.symm.trans ho
  | overdrawn ho hzero =>
    obtain ⟨slots, hw, _⟩ := hs.posed.waits ho
    cases hw with
    | rule _ _ hpos => exact absurd hzero hpos.ne'
  | install _ _ _ hinstall =>
    obtain ⟨hstore, _⟩ | ⟨id, _, _, ⟨_, rfl⟩ | ⟨_, rfl⟩⟩ := hinstall
    · exact hstore
    · rfl
    · rfl
  | drop => rfl
  | commit _ _ _ hcommit =>
    obtain ⟨hstore, _⟩ | ⟨id, _, _, _, _, rfl⟩ := hcommit
    · exact hstore
    · rfl

theorem Halt.not_ofStore {c : Config} {e : Stop} {k' : Kernel} (h : Halt c e k')
    (hc : c.Ordered) : e.ofStore = false := by
  cases h with
  | exhausted => rfl
  | step _ hstops => exact hstops.2.1
  | released hphase hi =>
    obtain rfl | ⟨es, rfl⟩ | rfl | rfl := hphase
    all_goals
      obtain ⟨_, n, hn, _⟩ := hc
      exact nomatch hi.symm.trans hn
  | replaced hi hs' hn' =>
    obtain ⟨hwf, _⟩ := hc
    subst hs'
    exact nomatch (get?_withChildren (hwf.queued.fresh _ _ hi)).symm.trans hn'
  | orphaned hi hparent hm =>
    obtain ⟨hwf, n, hi', hn⟩ := hc
    cases hi.symm.trans hi'
    obtain ⟨m, r, hm', _⟩ := hwf.above hi hn hparent .solved
    exact nomatch hm.symm.trans hm'
  | overdrawn hi hparent hm hzero =>
    obtain ⟨hwf, n, hi', hn⟩ := hc
    cases hi.symm.trans hi'
    obtain ⟨m, r, hm', _, hr⟩ := hwf.above hi hn hparent .solved
    cases hm.symm.trans hm'
    exact nomatch hzero.symm.trans hr
  | settle hstop => exact hstop.not_ofStore hc

end StoreM
end Elaboration
