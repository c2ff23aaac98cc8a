import Elaboration.Proofs.Obligation.Moves

/-!
# The trees of equations are kept in order

Each equation lists those that were derived from it and counts the ones that are not solved. While
marks climb a tree, one equation is busy: its count may be zero.
-/

namespace Elaboration

open List Option Table
namespace Store

/-- A listed equation is not solved. -/
def unsolved (nodes : Table Node) (c : Nat) : Bool :=
  match nodes.get? c with
  | some m => m.progress ≠ .solved
  | none => false

/-- The equations form trees. -/
structure Shape (nodes : Table Node) : Prop where
  up : ∀ {i n a}, nodes.get? i = some n → n.parent = .child a → a < i ∧ Lists nodes a i
  down : ∀ {i n c}, nodes.get? i = some n → c ∈ n.children →
    ∃ m, nodes.get? c = some m ∧ m.parent = .child i
  nodup : ∀ {i n}, nodes.get? i = some n → n.children.Nodup

/-- The equations form trees and are marked in order. A failure climbs from one equation to the next
above; `failing` is the one it has reached. -/
structure Trees (busy failing : Option Nat) (nodes : Table Node) : Prop extends Shape nodes where
  leaf : ∀ {i n}, nodes.get? i = some n → n.progress = .ready ∨ n.progress = .stalled →
    n.children = []
  remaining : ∀ {i n r}, nodes.get? i = some n → n.progress = .decomposed r →
    n.children.countP (unsolved nodes) = r ∧ (busy ≠ some i → 0 < r)
  solved : ∀ {i n}, nodes.get? i = some n → n.progress = .solved →
    (∃ a, n.parent = .child a) ∧ n.children.countP (unsolved nodes) = 0
  failed : ∀ {i n}, nodes.get? i = some n → n.progress = .failed →
    ∃ a, n.parent = .child a ∧
      (failing = some a ∨ ∃ m, nodes.get? a = some m ∧ m.progress = .failed)

variable {busy failing : Option Nat} {nodes nodes' : Table Node} {i a j : Nat} {n m : Node}
  {p : Progress} {busy' failing' : Option Nat}

theorem trees_empty : Trees none none .empty := by
  refine ⟨⟨?_, ?_, ?_⟩, ?_, ?_, ?_, ?_⟩ <;> intros <;> simp_all

/-! ### One equation at a time -/

/-- One equation has its place in the trees, and is marked in order. -/
structure Placed (busy failing : Option Nat) (nodes : Table Node) (i : Nat) (n : Node) : Prop where
  up : ∀ a, n.parent = .child a → a < i ∧ Lists nodes a i
  down : ∀ c ∈ n.children, ∃ m, nodes.get? c = some m ∧ m.parent = .child i
  nodup : n.children.Nodup
  leaf : n.progress = .ready ∨ n.progress = .stalled → n.children = []
  remaining : ∀ r, n.progress = .decomposed r →
    n.children.countP (unsolved nodes) = r ∧ (busy ≠ some i → 0 < r)
  solved : n.progress = .solved →
    (∃ a, n.parent = .child a) ∧ n.children.countP (unsolved nodes) = 0
  failed : n.progress = .failed → ∃ a, n.parent = .child a ∧
    (failing = some a ∨ ∃ m, nodes.get? a = some m ∧ m.progress = .failed)

private theorem Trees.placed (h : Trees busy failing nodes) (hi : nodes.get? i = some n) :
    Placed busy failing nodes i n :=
  ⟨fun _ => h.up hi, fun _ => h.down hi, h.nodup hi, h.leaf hi, fun _ =>
    h.remaining hi, h.solved hi,
    h.failed hi⟩

private theorem trees_of_placed (h : ∀ i n, nodes.get? i = some n → Placed busy failing nodes i n) :
    Trees busy failing nodes where
  up hi := (h _ _ hi).up _
  down hi := (h _ _ hi).down _
  nodup hi := (h _ _ hi).nodup
  leaf hi := (h _ _ hi).leaf
  remaining hi := (h _ _ hi).remaining _
  solved hi := (h _ _ hi).solved
  failed hi := (h _ _ hi).failed

private theorem Placed.kept (h : Placed busy failing nodes i n)
    (hup : ∀ a, n.parent = .child a → Lists nodes a i → Lists nodes' a i)
    (hdown : ∀ c ∈ n.children, ∀ m, nodes.get? c = some m → ∃ m', nodes'.get? c = some m' ∧
      m'.parent = m.parent ∧ unsolved nodes' c = unsolved nodes c)
    (hbusy : busy = some i → busy' = some i)
    (hfailed : n.progress = .failed → ∀ a, n.parent = .child a →
      (failing = some a ∨ ∃ m, nodes.get? a = some m ∧ m.progress = .failed) →
      failing' = some a ∨ ∃ m, nodes'.get? a = some m ∧ m.progress = .failed) :
    Placed busy' failing' nodes' i n := by
  have hcount : n.children.countP (unsolved nodes') = n.children.countP (unsolved nodes) := by
    refine countP_congr fun c hc => ?_
    obtain ⟨m, hm, _⟩ := h.down c hc
    obtain ⟨_, _, _, hsame⟩ := hdown c hc m hm
    rw [hsame]
  refine ⟨fun a ha => (h.up a ha).imp_right (hup a ha), fun c hc => ?_, h.nodup, h.leaf,
    fun r hr => ?_, fun hs => hcount ▸ h.solved hs, fun hf => ?_⟩
  · obtain ⟨m, hm, hparent⟩ := h.down c hc
    obtain ⟨m', hm', hsame, _⟩ := hdown c hc m hm
    exact ⟨m', hm', hsame.trans hparent⟩
  · obtain ⟨hr, hpos⟩ := h.remaining r hr
    exact ⟨hcount.trans hr, fun hfree => hpos fun hi => hfree (hbusy hi)⟩
  · obtain ⟨a, ha, habove⟩ := h.failed hf
    exact ⟨a, ha, hfailed hf a ha habove⟩

private theorem placed_ready {e : Equation} {parent : Parent}
    (hup : ∀ a, parent = .child a → a < i ∧ Lists nodes a i) :
    Placed busy failing nodes i ⟨e, .ready, parent, []⟩ :=
  ⟨hup, nofun, .nil, fun _ => rfl, nofun, nofun, nofun⟩

/-- A failure reached the equations above the one it is at only through that one. -/
theorem Trees.lt_of_failed (h : Trees busy (some i) nodes) (hj : nodes.get? j = some n)
    (hn : n.progress = .failed) : i < j := by
  induction j using Nat.strongRecOn generalizing n with
  | ind j ih =>
    obtain ⟨a, ha, hfailing | ⟨m, hm, hfailed⟩⟩ := h.failed hj hn
    · cases hfailing
      exact (h.up hj ha).1
    · have haj := (h.up hj ha).1
      exact (ih a haj hm hfailed).trans haj

/-- Unless a failure is climbing, nothing is marked as failed. -/
theorem Trees.not_failed (h : Trees busy none nodes) (hj : nodes.get? j = some n) :
    n.progress ≠ .failed := by
  induction j using Nat.strongRecOn generalizing n with
  | ind j ih =>
    intro hn
    obtain ⟨a, ha, hfailing | ⟨m, hm, hfailed⟩⟩ := h.failed hj hn
    · cases hfailing
    · exact ih a (h.up hj ha).1 hm hfailed

/-- The equation above one that is not solved waits, unless it failed. -/
theorem Trees.waits (h : Trees busy failing nodes) (hi : nodes.get? i = some n)
    (hn : n.progress ≠ .solved) (ha : n.parent = .child a) :
    ∃ m, nodes.get? a = some m ∧ i ∈ m.children ∧
      (m.progress = .failed ∨ ∃ r, m.progress = .decomposed (r + 1)) := by
  obtain ⟨_, m, hm, hmem⟩ := h.up hi ha
  have hunsolved : unsolved nodes i = true := by
    rw [unsolved, hi]
    exact decide_eq_true hn
  have hpos : 0 < m.children.countP (unsolved nodes) := countP_pos_iff.2 ⟨i, hmem, hunsolved⟩
  have hchildren : m.children ≠ [] := ne_nil_of_mem hmem
  refine ⟨m, hm, hmem, ?_⟩
  cases hp : m.progress with
  | ready => exact absurd (h.leaf hm (.inl hp)) hchildren
  | stalled => exact absurd (h.leaf hm (.inr hp)) hchildren
  | failed => exact .inl rfl
  | solved => exact absurd (h.solved hm hp).2 hpos.ne'
  | decomposed r =>
    rw [(h.remaining hm hp).1] at hpos
    exact .inr ⟨r - 1, by rw [Nat.sub_add_cancel hpos]⟩

/-! ### Marks -/

theorem get?_marked (nodes : Table Node) (i : Nat) (n : Node) (p : Progress) (j : Nat) :
    (marked nodes i n p).get? j = if i = j then some { n with progress := p } else nodes.get? j :=
  get?_set ..

/-- An equation after a mark is the marked one, or was there before. -/
theorem eq_or_of_get?_marked {m' : Node} (hj : (marked nodes i n p).get? j = some m') :
    i = j ∧ m' = { n with progress := p } ∨ i ≠ j ∧ nodes.get? j = some m' := by
  rw [get?_marked] at hj
  split at hj
  · next hij => exact .inl ⟨hij, (Option.some.inj hj).symm⟩
  · next hij => exact .inr ⟨hij, hj⟩

/-- An equation after a mark was there before, with the same place in its tree. -/
theorem of_get?_marked (hi : nodes.get? i = some n) {m' : Node}
    (hj : (marked nodes i n p).get? j = some m') :
    ∃ m, nodes.get? j = some m ∧ m'.parent = m.parent ∧ m'.children = m.children ∧
      m'.equation = m.equation ∧ (i = j ∧ m'.progress = p ∨ i ≠ j ∧ m' = m) := by
  obtain ⟨rfl, rfl⟩ | ⟨hij, hj⟩ := eq_or_of_get?_marked hj
  · exact ⟨n, hi, rfl, rfl, rfl, .inl ⟨rfl, rfl⟩⟩
  · exact ⟨m', hj, rfl, rfl, rfl, .inr ⟨hij, rfl⟩⟩

theorem exists_get?_marked (hi : nodes.get? i = some n) (hj : nodes.get? j = some m) :
    ∃ m', (marked nodes i n p).get? j = some m' ∧ m'.parent = m.parent ∧
      m'.children = m.children := by
  rw [get?_marked]
  split
  · next hij =>
    cases hij
    cases hi.symm.trans hj
    exact ⟨_, rfl, rfl, rfl⟩
  · exact ⟨m, hj, rfl, rfl⟩

private theorem lists_marked (hi : nodes.get? i = some n) {b : Nat} :
    Lists (marked nodes i n p) a b ↔ Lists nodes a b := by
  constructor
  · rintro ⟨m', hm', hb⟩
    obtain ⟨m, hm, _, hchildren, _⟩ := of_get?_marked hi hm'
    exact ⟨m, hm, hchildren ▸ hb⟩
  · rintro ⟨m, hm, hb⟩
    obtain ⟨m', hm', _, hchildren⟩ := exists_get?_marked (p := p) hi hm
    exact ⟨m', hm', hchildren ▸ hb⟩

private theorem unsolved_marked_of_ne (hij : i ≠ j) :
    unsolved (marked nodes i n p) j = unsolved nodes j := by
  rw [unsolved, get?_marked, if_neg hij, unsolved]

private theorem unsolved_marked (hi : nodes.get? i = some n) (hn : n.progress ≠ .solved)
    (hp : p ≠ .solved) :
    unsolved (marked nodes i n p) = unsolved nodes := by
  funext j
  by_cases hij : i = j
  · subst hij
    rw [unsolved, get?_marked, if_pos rfl, unsolved, hi]
    simp [hn, hp]
  · exact unsolved_marked_of_ne hij

private theorem Shape.marked (h : Shape nodes) (hi : nodes.get? i = some n) (p : Progress) :
    Shape (marked nodes i n p) where
  up hj hparent := by
    obtain ⟨m, hm, hsame, _⟩ := of_get?_marked hi hj
    obtain ⟨hlt, hlists⟩ := h.up hm (hsame ▸ hparent)
    exact ⟨hlt, (lists_marked hi).2 hlists⟩
  down hj hc := by
    obtain ⟨m, hm, _, hsame, _⟩ := of_get?_marked hi hj
    obtain ⟨m', hm', hparent⟩ := h.down hm (hsame ▸ hc)
    obtain ⟨m'', hm'', hparent', _⟩ := exists_get?_marked (p := p) hi hm'
    exact ⟨m'', hm'', hparent'.trans hparent⟩
  nodup hj := by
    obtain ⟨m, hm, _, hsame, _⟩ := of_get?_marked hi hj
    exact hsame ▸ h.nodup hm

private theorem Trees.mark (h : Trees busy failing nodes) (hi : nodes.get? i = some n)
    (hn : n.progress ≠ .solved) (hp : p ≠ .solved) (hwaits : ∀ r, p ≠ .decomposed r)
    (hleaf : p = .ready ∨ p = .stalled → n.children = []) (hbusy : ∀ j, busy = some j → i = j)
    (hfailed : ∀ {j m}, (marked nodes i n p).get? j = some m → m.progress = .failed →
      ∃ a, m.parent = .child a ∧ (failing' = some a ∨
        ∃ m, (marked nodes i n p).get? a = some m ∧ m.progress = .failed)) :
    Trees busy' failing' (marked nodes i n p) where
  toShape := h.toShape.marked hi p
  leaf hj hm := by
    obtain ⟨rfl, rfl⟩ | ⟨_, hj⟩ := eq_or_of_get?_marked hj
    · exact hleaf hm
    · exact h.leaf hj hm
  remaining hj hr := by
    rw [unsolved_marked hi hn hp]
    obtain ⟨rfl, rfl⟩ | ⟨hij, hj⟩ := eq_or_of_get?_marked hj
    · exact absurd hr (hwaits _)
    · obtain ⟨hcount, hpos⟩ := h.remaining hj hr
      exact ⟨hcount, fun _ => hpos fun heq => hij (hbusy _ heq)⟩
  solved hj hs := by
    rw [unsolved_marked hi hn hp]
    obtain ⟨rfl, rfl⟩ | ⟨_, hj⟩ := eq_or_of_get?_marked hj
    · exact absurd hs hp
    · exact h.solved hj hs
  failed := hfailed

/-- An equation without derived ones is marked as ready or stalled. -/
theorem Trees.relabel (h : Trees busy none nodes) (hi : nodes.get? i = some n)
    (hn : n.progress = .ready ∨ n.progress = .stalled) (hp : p = .ready ∨ p = .stalled)
    (hbusy : busy = some i ∨ busy = none) : Trees none none (marked nodes i n p) := by
  refine h.mark hi (by rcases hn with hn | hn <;> simp [hn]) (by rcases hp with rfl | rfl <;> simp)
    (by rcases hp with rfl | rfl <;> simp) (fun _ => h.leaf hi hn)
    (by rcases hbusy with rfl | rfl <;> simp) fun hj hf => ?_
  obtain ⟨rfl, rfl⟩ | ⟨_, hj⟩ := eq_or_of_get?_marked hj
  · rcases hp with rfl | rfl <;> cases hf
  · exact absurd hf (h.not_failed hj)

/-- A failure climbs. -/
theorem Trees.fail (h : Trees (some i) (some i) nodes) (hi : nodes.get? i = some n)
    (hn : n.progress = .ready ∨ ∃ r, n.progress = .decomposed r) (ha : n.parent = .child a) :
    Trees (some a) (some a) (marked nodes i n .failed) := by
  have hstanding : n.progress ≠ .failed := by rcases hn with hn | ⟨r, hn⟩ <;> simp [hn]
  refine h.mark hi (by rcases hn with hn | ⟨r, hn⟩ <;> simp [hn]) (by simp) (by simp) (by simp)
    (by simp) fun hj hf => ?_
  obtain ⟨rfl, rfl⟩ | ⟨_, hj⟩ := eq_or_of_get?_marked hj
  · exact ⟨a, ha, .inl rfl⟩
  · obtain ⟨b, hb, hfailing | ⟨m, hm, hfailed⟩⟩ := h.failed hj hf
    · cases hfailing
      exact ⟨i, hb, .inr ⟨_, StoreM.get?_marked_self nodes i n .failed, rfl⟩⟩
    · have hib : i ≠ b := by
        rintro rfl
        cases hi.symm.trans hm
        exact hstanding hfailed
      exact ⟨b, hb, .inr ⟨m, by rw [get?_marked, if_neg hib, hm], hfailed⟩⟩

/-- Only one equation lists another one. -/
theorem Shape.parent (h : Shape nodes) (hj : nodes.get? j = some m) (hmem : i ∈ m.children)
    (hi : nodes.get? i = some n) : n.parent = .child j := by
  obtain ⟨n', hn', hparent⟩ := h.down hj hmem
  cases hi.symm.trans hn'
  exact hparent

private theorem countP_of_except {l : List Nat} {q q' : Nat → Bool} (hd : l.Nodup) (hi : i ∈ l)
    (hq : q i = true) (hq' : q' i = false) (hother : ∀ j, i ≠ j → q' j = q j) :
    l.countP q = l.countP q' + 1 := by
  induction l with
  | nil => cases hi
  | cons x l ih =>
    rw [nodup_cons] at hd
    by_cases hx : i = x
    · subst hx
      have hrest : l.countP q' = l.countP q :=
        countP_congr fun j hj => by rw [hother j fun h => hd.1 (h ▸ hj)]
      simp [hq, hq', hrest]
    · have hil : i ∈ l := (mem_cons.1 hi).resolve_left hx
      rw [countP_cons, countP_cons, hother x hx, ih hd.2 hil, Nat.add_right_comm]

/-- The equations after one is solved, and the one above it waits for one less. -/
def solvedBelow (nodes : Table Node) (i : Nat) (n : Node) (a : Nat) (m : Node) (r : Nat) :
    Table Node :=
  marked (marked nodes i n .solved) a m (.decomposed r)

theorem of_get?_solvedBelow {r : Nat} {x' : Node}
    (hj : (solvedBelow nodes i n a m r).get? j = some x') :
    j = i ∧ x' = { n with progress := .solved } ∨
      j = a ∧ x' = { m with progress := .decomposed r } ∨
      j ≠ i ∧ j ≠ a ∧ nodes.get? j = some x' := by
  rw [solvedBelow, get?_marked] at hj
  split at hj
  · next haj =>
    cases hj
    exact .inr (.inl ⟨haj.symm, rfl⟩)
  · next haj =>
    rw [get?_marked] at hj
    split at hj
    · next hij =>
      cases hj
      exact .inl ⟨hij.symm, rfl⟩
    · next hij => exact .inr (.inr ⟨Ne.symm hij, Ne.symm haj, hj⟩)

/-- An equation all of whose derived equations are solved is solved, and the one above it waits for
one less. -/
theorem Trees.solve {r : Nat} (h : Trees (some i) none nodes) (hi : nodes.get? i = some n)
    (hn : n.progress = .ready ∨ n.progress = .decomposed 0) (hparent : n.parent = .child a)
    (ha : nodes.get? a = some m) (hm : m.progress = .decomposed (r + 1)) :
    Trees (if r = 0 then some a else none) none (solvedBelow nodes i n a m r) := by
  have hlt : a < i := (h.up hi hparent).1
  have hia : i ≠ a := hlt.ne'
  have hunsolved : n.progress ≠ .solved := by rcases hn with hn | hn <;> simp [hn]
  have hmarked : (marked nodes i n .solved).get? a = some m := by
    rw [get?_marked, if_neg hia, ha]
  -- the state of `i` is the only one that counts differently
  have hoff : unsolved (solvedBelow nodes i n a m r) i = false := by
    rw [solvedBelow, unsolved_marked_of_ne hia.symm, unsolved, StoreM.get?_marked_self]
    simp
  have hother : ∀ j, i ≠ j → unsolved (solvedBelow nodes i n a m r) j = unsolved nodes j := by
    intro j hij
    rw [solvedBelow, unsolved_marked hmarked (by simp [hm]) (by simp), unsolved_marked_of_ne hij]
  have hcount : ∀ {j x}, nodes.get? j = some x → j ≠ a →
      x.children.countP (unsolved (solvedBelow nodes i n a m r)) =
        x.children.countP (unsolved nodes) := by
    intro j x hj hja
    refine countP_congr fun c hc => ?_
    rw [hother c]
    rintro rfl
    have := (h.parent hj hc hi).symm.trans hparent
    exact hja (Parent.child.inj this)
  refine ⟨(h.toShape.marked hi .solved).marked hmarked _, ?_, ?_, ?_, ?_⟩
  · intro j x' hj hleaf
    obtain ⟨_, rfl⟩ | ⟨_, rfl⟩ | ⟨_, _, hj⟩ := of_get?_solvedBelow hj
    · simp at hleaf
    · simp at hleaf
    · exact h.leaf hj hleaf
  · intro j x' r' hj hr'
    obtain ⟨_, rfl⟩ | ⟨rfl, rfl⟩ | ⟨hji, hja, hj⟩ := of_get?_solvedBelow hj
    · cases hr'
    · cases hr'
      obtain ⟨_, m', hm', hmem⟩ := h.up hi hparent
      cases ha.symm.trans hm'
      have honce :=
        countP_of_except (h.nodup ha) hmem (by simp [unsolved, hi, hunsolved]) hoff hother
      rw [(h.remaining ha hm).1] at honce
      refine ⟨(Nat.succ.inj honce).symm, fun hbusy => Nat.pos_of_ne_zero fun hr => hbusy ?_⟩
      rw [if_pos hr]
    · obtain ⟨hc, hpos⟩ := h.remaining hj hr'
      exact ⟨(hcount hj hja).trans hc, fun _ => hpos fun heq => hji (some.inj heq).symm⟩
  · intro j x' hj hs
    obtain ⟨rfl, rfl⟩ | ⟨_, rfl⟩ | ⟨_, hja, hj⟩ := of_get?_solvedBelow hj
    · refine ⟨⟨a, hparent⟩, ?_⟩
      rw [hcount hi hia]
      rcases hn with hn | hn
      · rw [h.leaf hi (.inl hn), countP_nil]
      · exact (h.remaining hi hn).1
    · cases hs
    · rw [hcount hj hja]
      exact h.solved hj hs
  · intro j x' hj hf
    obtain ⟨_, rfl⟩ | ⟨_, rfl⟩ | ⟨_, _, hj⟩ := of_get?_solvedBelow hj
    · cases hf
    · cases hf
    · exact absurd hf (h.not_failed hj)

/-- Removing a tree whose root was just marked removes what was below the root. -/
theorem get?_removeTree_marked (hi : nodes.get? i = some n) :
    (removeTree (marked nodes i n p).size (marked nodes i n p) i).get? j = some m ↔
      nodes.get? j = some m ∧ ¬ Below nodes i j := by
  have hsame : Lists (marked nodes i n p) = Lists nodes :=
    funext fun _ => funext fun _ => propext (lists_marked hi)
  rw [get?_removeTree, Below, hsame, get?_marked]
  refine and_congr_left fun hnot => ?_
  rw [if_neg]
  rintro rfl
  exact hnot .refl

/-- Trees are in order after one of them was removed. -/
theorem Trees.remove (h : Trees busy failing nodes) {owner : Owner} (hi : nodes.get? i = some n)
    (hroot : n.parent = .root owner) (hbusy : busy = none ∨ busy = some i)
    (hfailing : failing = none ∨ failing = some i)
    (hget : ∀ j m, nodes'.get? j = some m ↔ nodes.get? j = some m ∧ ¬ Below nodes i j) :
    Trees none none nodes' := by
  have hkept : ∀ {j m a}, nodes.get? j = some m → ¬ Below nodes i j → m.parent = .child a →
      ¬ Below nodes i a := by
    intro j m a hj hnot ha hbelow
    exact hnot (hbelow.tail (h.up hj ha).2)
  have hchild : ∀ {j m c}, nodes.get? j = some m → ¬ Below nodes i j → c ∈ m.children →
      ¬ Below nodes i c := by
    intro j m c hj hnot hc hbelow
    rcases Relation.ReflTransGen.cases_tail hbelow with rfl | ⟨x, hx, y, hy, hcy⟩
    · exact nomatch hroot.symm.trans (h.parent hj hc hi)
    · obtain ⟨z, hz, hparent⟩ := h.down hj hc
      cases hparent.symm.trans (h.parent hy hcy hz)
      exact hnot hx
  refine trees_of_placed fun j m hj => ?_
  obtain ⟨hj, hnot⟩ := (hget j m).1 hj
  refine (h.placed hj).kept (fun a ha ⟨x, hx, hmem⟩ => ?_) (fun c hc z hz => ?_) (fun hj => ?_)
    fun _ b hb hfail => ?_
  · exact ⟨x, (hget a x).2 ⟨hx, hkept hj hnot ha⟩, hmem⟩
  · have hz' := (hget c z).2 ⟨hz, hchild hj hnot hc⟩
    exact ⟨z, hz', rfl, by rw [unsolved, unsolved, hz, hz']⟩
  · rcases hbusy with rfl | rfl
    · cases hj
    · cases hj
      exact absurd .refl hnot
  · obtain hfail | ⟨x, hx, hxf⟩ := hfail
    · rcases hfailing with rfl | rfl
      · cases hfail
      · cases hfail
        exact absurd .refl (hkept hj hnot hb)
    · exact .inr ⟨x, (hget b x).2 ⟨hx, hkept hj hnot hb⟩, hxf⟩

/-! ### New equations -/

theorem get?_withAll (s : Store) (es : List (Equation × Parent)) (j : Nat) :
    (s.withAll es).nodes.get? j =
      if s.nextId ≤ j ∧ j < s.nextId + es.length then
        es[j - s.nextId]?.map fun x => ⟨x.1, .ready, x.2, []⟩
      else s.nodes.get? j := by
  induction es generalizing s with
  | nil =>
    rw [if_neg (by rw [length_nil]; omega)]
    rfl
  | cons x es ih =>
    have hnext : (s.withNode x.1 x.2).nextId = s.nextId + 1 := rfl
    have hrest : s.withAll (x :: es) = (s.withNode x.1 x.2).withAll es := rfl
    rw [hrest, ih, hnext, length_cons]
    by_cases hj : j = s.nextId
    · subst hj
      rw [if_neg (by omega), if_pos (by omega), withNode, get?_set, if_pos rfl]
      simp
    · by_cases hlt : s.nextId ≤ j ∧ j < s.nextId + (es.length + 1)
      · rw [if_pos (by omega), if_pos hlt]
        obtain ⟨t, rfl⟩ : ∃ t, j = s.nextId + 1 + t := ⟨j - (s.nextId + 1), by omega⟩
        rw [Nat.add_sub_cancel_left, Nat.add_assoc, Nat.add_sub_cancel_left, Nat.add_comm 1 t,
          getElem?_cons_succ]
      · rw [if_neg (by omega), if_neg hlt, withNode, get?_set, if_neg (Ne.symm hj)]

/-- New equations are numbered and queued in order. -/
theorem withAll_eq (s : Store) (es : List (Equation × Parent)) :
    s.withAll es = { s with
      nodes := (s.withAll es).nodes
      ready := s.ready ++ range' s.nextId es.length
      nextId := s.nextId + es.length } := by
  induction es generalizing s with
  | nil => simp [withAll]
  | cons x es ih =>
    have hrest : s.withAll (x :: es) = (s.withNode x.1 x.2).withAll es := rfl
    rw [hrest, ih]
    simp [withNode, range'_succ, Nat.add_assoc, Nat.add_comm 1]

/-- Adding equations uses as many numbers. -/
theorem nextId_withAll (s : Store) (es : List (Equation × Parent)) :
    (s.withAll es).nextId = s.nextId + es.length := by
  rw [withAll_eq]

/-- Adding equations leaves the obligations. -/
theorem obligations_withAll (s : Store) (es : List (Equation × Parent)) :
    (s.withAll es).obligations = s.obligations := by
  rw [withAll_eq]

variable {s : Store} {es : List Equation}

/-- Adding equations leaves the nodes that are there. -/
theorem get?_withAll_of_lt (hj : j < s.nextId) (es : List (Equation × Parent)) :
    (s.withAll es).nodes.get? j = s.nodes.get? j := by
  rw [get?_withAll, if_neg fun h => Nat.not_le_of_lt hj h.1]

/-- An equation was there before or is one of the new ones. -/
theorem of_get?_withAll {es : List (Equation × Parent)} (h : (s.withAll es).nodes.get? j = some n) :
    s.nodes.get? j = some n ∨ s.nextId ≤ j ∧ j < s.nextId + es.length ∧
      ∃ x, es[j - s.nextId]? = some x ∧ n = ⟨x.1, .ready, x.2, []⟩ := by
  rw [get?_withAll] at h
  split at h
  · next hj =>
    obtain ⟨x, hx, rfl⟩ := map_eq_some_iff.1 h
    exact .inr ⟨hj.1, hj.2, x, hx, rfl⟩
  · exact .inl h

/-- New roots stand by themselves. -/
theorem Trees.withRoots (h : Trees none none s.nodes)
    (hlt : ∀ j m, s.nodes.get? j = some m → j < s.nextId) (es : List (Equation × Parent))
    (hroots : ∀ x ∈ es, ∃ owner, x.2 = .root owner) : Trees none none (s.withAll es).nodes := by
  have hold : ∀ {j m}, s.nodes.get? j = some m → (s.withAll es).nodes.get? j = some m :=
    fun hj => (get?_withAll_of_lt (hlt _ _ hj) es).trans hj
  refine trees_of_placed fun j m hj => ?_
  obtain hj | ⟨_, _, x, hx, rfl⟩ := of_get?_withAll hj
  · refine (h.placed hj).kept (fun a _ ⟨y, hy, hmem⟩ => ⟨y, hold hy, hmem⟩) (fun c _ x hx => ?_) id
      fun hf => absurd hf (h.not_failed hj)
    exact ⟨x, hold hx, rfl, by rw [unsolved, unsolved, hx, hold hx]⟩
  · obtain ⟨owner, howner⟩ := hroots x (mem_of_getElem? hx)
    exact placed_ready fun a ha => nomatch howner.symm.trans ha

/-- The equations in which one was derived into others. -/
def decomposed (s : Store) (i : Nat) (n : Node) (es : List Equation) : Store :=
  let s' := (s.withNodes (marked s.nodes i n (.decomposed es.length))).withChildren i es
  s'.withNodes (s'.nodes.set i { n with
    progress := .decomposed es.length
    children := range' s.nextId es.length })

/-- What changes when an equation is decomposed. -/
theorem decomposed_update (s : Store) (i : Nat) (n : Node) (es : List Equation) :
    s.decomposed i n es = { s with
      nodes := (s.decomposed i n es).nodes
      ready := s.ready ++ range' s.nextId es.length
      nextId := s.nextId + es.length } := by
  unfold decomposed withChildren
  rw [withAll_eq, length_map]
  rfl

/-- An equation is the one that was derived into others, one of those, or was there before. -/
theorem of_get?_decomposed (hj : (s.decomposed i n es).nodes.get? j = some m) :
    j = i ∧ m = { n with
        progress := .decomposed es.length
        children := range' s.nextId es.length } ∨
      j ≠ i ∧ s.nextId ≤ j ∧ j < s.nextId + es.length ∧
        (∃ e, es[j - s.nextId]? = some e ∧ m = ⟨e, .ready, .child i, []⟩) ∨
      j ≠ i ∧ s.nodes.get? j = some m := by
  unfold decomposed at hj
  rw [withNodes, get?_set] at hj
  split at hj
  · next hij =>
    cases hj
    exact .inl ⟨hij.symm, rfl⟩
  · next hij =>
    have hji : j ≠ i := Ne.symm hij
    obtain hj | ⟨hle, hlt, x, hx, rfl⟩ := of_get?_withAll hj
    · rw [withNodes, get?_marked, if_neg hij] at hj
      exact .inr (.inr ⟨hji, hj⟩)
    · rw [length_map] at hlt
      rw [getElem?_map] at hx
      obtain ⟨e, he, rfl⟩ := map_eq_some_iff.1 hx
      exact .inr (.inl ⟨hji, hle, hlt, e, he, rfl⟩)

theorem get?_decomposed_self (s : Store) (i : Nat) (n : Node) (es : List Equation) :
    (s.decomposed i n es).nodes.get? i = some { n with
      progress := .decomposed es.length
      children := range' s.nextId es.length } := by
  rw [decomposed, withNodes, get?_set, if_pos rfl]

theorem get?_decomposed_of_lt (hji : j ≠ i) (hj : j < s.nextId) :
    (s.decomposed i n es).nodes.get? j = s.nodes.get? j := by
  rw [decomposed, withNodes, get?_set, if_neg (Ne.symm hji), withChildren,
    get?_withAll, if_neg fun h =>
      Nat.not_le_of_lt hj h.1, withNodes, get?_marked, if_neg (Ne.symm hji)]

private theorem get?_decomposed_new (hi : i < s.nextId) (hj : j ∈ range' s.nextId es.length) :
    ∃ e, (s.decomposed i n es).nodes.get? j = some ⟨e, .ready, .child i, []⟩ := by
  obtain ⟨hle, hlt⟩ := mem_range'_1.1 hj
  have hlen : j - s.nextId < es.length := by omega
  refine ⟨es[j - s.nextId], ?_⟩
  rw [decomposed, withNodes, get?_set, if_neg (by omega), withChildren, get?_withAll]
  rw [if_pos (by rw [length_map]; exact ⟨hle, hlt⟩)]
  simp [withNodes, hlen]

/-- An equation is derived into others. -/
theorem Trees.decompose (h : Trees (some i) none s.nodes)
    (hlt : ∀ j m, s.nodes.get? j = some m → j < s.nextId) (hi : s.nodes.get? i = some n)
    (hn : n.progress = .ready) (hes : es ≠ []) : Trees none none (s.decomposed i n es).nodes := by
  have hfresh := hlt i n hi
  have hold : ∀ {j m}, j ≠ i → s.nodes.get? j = some m →
      (s.decomposed i n es).nodes.get? j = some m :=
    fun hji hj => (get?_decomposed_of_lt hji (hlt _ _ hj)).trans hj
  have hlists : ∀ {j a}, Lists s.nodes a j → Lists (s.decomposed i n es).nodes a j := by
    rintro j a ⟨x, hx, hmem⟩
    refine ⟨x, hold ?_ hx, hmem⟩
    rintro rfl
    cases hi.symm.trans hx
    rw [h.leaf hi (.inl hn)] at hmem
    cases hmem
  refine trees_of_placed fun j m hj => ?_
  obtain ⟨rfl, rfl⟩ | ⟨_, hle, hlt', e, _, rfl⟩ | ⟨hji, hj⟩ := of_get?_decomposed hj
  · refine ⟨fun a ha => (h.up hi ha).imp_right hlists, fun c hc => ?_, nodup_range', by simp,
      fun r hr => ?_, nofun, nofun⟩
    · obtain ⟨e, he⟩ := get?_decomposed_new (n := n) hfresh hc
      exact ⟨_, he, rfl⟩
    · cases hr
      refine ⟨?_, fun _ => length_pos_iff.2 hes⟩
      have hall : ∀ c ∈ range' s.nextId es.length,
          unsolved (s.decomposed j n es).nodes c = true := by
        intro c hc
        obtain ⟨e, he⟩ := get?_decomposed_new (n := n) hfresh hc
        rw [unsolved, he]
        rfl
      rw [countP_eq_length.2 hall, length_range']
  · refine placed_ready ?_
    rintro _ ⟨⟩
    exact ⟨hfresh.trans_le hle, _, get?_decomposed_self .., mem_range'_1.2 ⟨hle, hlt'⟩⟩
  · refine (h.placed hj).kept (fun _ _ => hlists) (fun c _ x hx => ?_)
      (fun heq => absurd (some.inj heq).symm hji) fun hf => absurd hf (h.not_failed hj)
    by_cases hci : c = i
    · -- the equation was not solved before and is not solved now
      subst hci
      cases hi.symm.trans hx
      refine ⟨_, get?_decomposed_self .., rfl, ?_⟩
      rw [unsolved, unsolved, hi, get?_decomposed_self]
      simp [hn]
    · exact ⟨x, hold hci hx, rfl, by rw [unsolved, unsolved, hx, hold hci hx]⟩

/-! ### Equations that may define nothing -/

/-- Muted nodes stay where they were. -/
theorem Mutes.of_get? (h : Mutes nodes nodes') (hj : nodes'.get? j = some m) :
    ∃ x, nodes.get? j = some x ∧ m.progress = x.progress ∧ m.parent = x.parent ∧
      m.children = x.children := by
  obtain ⟨_, may, hmay⟩ := h
  obtain ⟨x, hx, rfl⟩ := map_eq_some_iff.1 ((hmay j).symm.trans hj)
  exact ⟨x, hx, rfl, rfl, rfl⟩

/-- Nodes are still there when they are muted. -/
theorem Mutes.exists_get? (h : Mutes nodes nodes') (hj : nodes.get? j = some m) :
    ∃ x, nodes'.get? j = some x ∧ x.progress = m.progress ∧ x.parent = m.parent ∧
      x.children = m.children := by
  obtain ⟨_, may, hmay⟩ := h
  exact ⟨muted (may j) m, by rw [hmay, hj, map_some], rfl, rfl, rfl⟩

private theorem Mutes.unsolved (h : Mutes nodes nodes') : unsolved nodes' = unsolved nodes := by
  obtain ⟨_, may, hmay⟩ := h
  funext c
  rw [Store.unsolved, Store.unsolved, hmay]
  cases nodes.get? c <;> rfl

theorem Trees.mutes (h : Trees busy failing nodes) (hm : Mutes nodes nodes') :
    Trees busy failing nodes' := by
  refine trees_of_placed fun j m hj => ?_
  obtain ⟨x, hx, hprogress, hparent, hchildren⟩ := hm.of_get? hj
  have hkept : Placed busy failing nodes' j x := by
    refine (h.placed hx).kept (fun a _ ⟨y, hy, hmem⟩ => ?_) (fun c _ y hy =>
      ?_) id fun _ b _ hfail => ?_
    · obtain ⟨z, hz, _, _, hchildren⟩ := hm.exists_get? hy
      exact ⟨z, hz, hchildren ▸ hmem⟩
    · obtain ⟨z, hz, _, hparent, _⟩ := hm.exists_get? hy
      exact ⟨z, hz, hparent, by rw [hm.unsolved]⟩
    · refine hfail.imp_right fun ⟨y, hy, hyf⟩ => ?_
      obtain ⟨z, hz, hprogress, _⟩ := hm.exists_get? hy
      exact ⟨z, hz, hprogress.trans hyf⟩
  obtain ⟨_, _, _, _⟩ := m
  cases hprogress
  cases hparent
  cases hchildren
  exact { hkept with }

end Store
end Elaboration
