import Mathlib.Logic.Relation
import Mathlib.Tactic.Common
import Elaboration.Obligation.Basic

/-!
# The trees of equations

Removing an equation removes exactly what was derived from it, directly or not. Forbidding a tree to
define indeterminates changes nothing else about its equations.
-/

namespace Elaboration

open List Table
namespace Store

variable {nodes nodes' : Table Node} {i j : Nat} {n : Node}

/-- An equation lists another one as derived from it. -/
def Lists (nodes : Table Node) (i j : Nat) : Prop :=
  ∃ n, nodes.get? i = some n ∧ j ∈ n.children

/-- An equation is, or was derived from, another one. -/
abbrev Below (nodes : Table Node) : Nat → Nat → Prop := Relation.ReflTransGen (Lists nodes)

/-- Some equations are gone, and the others are as they were. -/
structure Prunes (nodes nodes' : Table Node) : Prop where
  sub : ∀ j n, nodes'.get? j = some n → nodes.get? j = some n
  size : nodes'.size ≤ nodes.size
  nodup : nodes.keys.Nodup → nodes'.keys.Nodup

/-- Nothing is removed. -/
theorem Prunes.refl (nodes : Table Node) : Prunes nodes nodes :=
  ⟨fun _ _ h => h, Nat.le_refl _, fun h => h⟩

variable {nodes'' : Table Node} {depth : Nat}

private theorem Prunes.trans (h : Prunes nodes nodes') (h' : Prunes nodes' nodes'') :
    Prunes nodes nodes'' :=
  ⟨fun j n hn => h.sub j n (h'.sub j n hn), Nat.le_trans h'.size h.size,
    fun hd => h'.nodup (h.nodup hd)⟩

private theorem Prunes.none (h : Prunes nodes nodes') (hj : nodes.get? j = none) :
    nodes'.get? j = none := by
  cases hn : nodes'.get? j with
  | none => rfl
  | some n => exact nomatch hj.symm.trans (h.sub j n hn)

private theorem Prunes.lists {a b : Nat} (h : Prunes nodes nodes') (hab : Lists nodes' a b) :
    Lists nodes a b := by
  obtain ⟨n, hn, hb⟩ := hab
  exact ⟨n, h.sub a n hn, hb⟩

private theorem prunes_erase (hi : nodes.get? i = some n) : Prunes nodes (nodes.erase i) where
  sub j n hn := by
    rw [get?_erase] at hn
    split at hn
    · cases hn
    · exact hn
  size := Nat.le_of_lt (size_erase_lt hi)
  nodup hd := nodup_keys_erase hd i

/-- Removing a tree leaves the other equations. -/
theorem prunes_removeTree (depth : Nat) (nodes : Table Node) (i : Nat) :
    Prunes nodes (removeTree depth nodes i) := by
  induction depth generalizing nodes i with
  | zero => exact .refl nodes
  | succ depth ih =>
    unfold removeTree
    split
    · exact .refl nodes
    · next n hn =>
      refine (prunes_erase hn).trans ?_
      generalize nodes.erase i = rest
      induction n.children generalizing rest with
      | nil => exact .refl rest
      | cons c cs ih' => exact (ih rest c).trans (ih' _)

private theorem prunes_foldl (depth : Nat) (cs : List Nat) (nodes : Table Node) :
    Prunes nodes (cs.foldl (removeTree depth) nodes) := by
  induction cs generalizing nodes with
  | nil => exact .refl nodes
  | cons c cs ih => exact (prunes_removeTree depth nodes c).trans (ih _)

private theorem removed_of_foldl {cs : List Nat} (hj : nodes.get? j = some n)
    (hgone : (cs.foldl (removeTree depth) nodes).get? j = none) :
    ∃ c ∈ cs, ∃ rest, Prunes nodes rest ∧ rest.get? j = some n ∧
      (removeTree depth rest c).get? j = none := by
  induction cs generalizing nodes with
  | nil => exact nomatch hj.symm.trans hgone
  | cons c cs ih =>
    cases hc : (removeTree depth nodes c).get? j with
    | none => exact ⟨c, mem_cons_self, nodes, .refl nodes, hj, hc⟩
    | some n' =>
      have hpruned := prunes_removeTree depth nodes c
      cases hj.symm.trans (hpruned.sub j n' hc)
      obtain ⟨c', hc', rest, hrest, h⟩ := ih hc hgone
      exact ⟨c', mem_cons_of_mem _ hc', rest, hpruned.trans hrest, h⟩

private theorem below_of_removed (hj : nodes.get? j = some n)
    (hgone : (removeTree depth nodes i).get? j = none) : Below nodes i j := by
  induction depth generalizing nodes i with
  | zero => exact nomatch hj.symm.trans hgone
  | succ depth ih =>
    unfold removeTree at hgone
    split at hgone
    · exact nomatch hj.symm.trans hgone
    · next m hm =>
      by_cases hij : i = j
      · rw [hij]
      · have hj' : (nodes.erase i).get? j = some n := by
          rw [get?_erase, if_neg hij]
          exact hj
        obtain ⟨c, hc, rest, hrest, hj'', hgone'⟩ := removed_of_foldl hj' hgone
        have hpruned := (prunes_erase hm).trans hrest
        have hbelow := Relation.ReflTransGen.mono (fun a b => hpruned.lists) _ _ (ih hj'' hgone')
        exact .head ⟨m, hm, hc⟩ hbelow

/-- With every equation that is gone, all that it listed is. -/
private def Closes (nodes nodes' : Table Node) : Prop :=
  ∀ j n, nodes.get? j = some n → nodes'.get? j = none → ∀ c ∈ n.children, nodes'.get? c = none

private theorem Closes.trans (h : Closes nodes nodes') (h' : Closes nodes' nodes'')
    (hs : Prunes nodes nodes') (hs' : Prunes nodes' nodes'') : Closes nodes nodes'' := by
  intro j n hn hgone c hc
  cases hj : nodes'.get? j with
  | none => exact hs'.none (h j n hn hj c hc)
  | some n' =>
    cases hn.symm.trans (hs.sub j n' hj)
    exact h' j n hj hgone c hc

private theorem closes_foldl (cs : List Nat)
    (h : ∀ nodes c, nodes.size ≤ depth →
      (removeTree depth nodes c).get? c = none ∧ Closes nodes (removeTree depth nodes c))
    (hsize : nodes.size ≤ depth) :
    (∀ c ∈ cs, (cs.foldl (removeTree depth) nodes).get? c = none) ∧
      Closes nodes (cs.foldl (removeTree depth) nodes) := by
  induction cs generalizing nodes with
  | nil => exact ⟨by simp, fun j n hn hgone => nomatch hn.symm.trans hgone⟩
  | cons c cs ih =>
    obtain ⟨hc, hcloses⟩ := h nodes c hsize
    have hpruned := prunes_removeTree depth nodes c
    obtain ⟨hcs, hcloses'⟩ := ih (Nat.le_trans hpruned.size hsize)
    have hpruned' := prunes_foldl depth cs (removeTree depth nodes c)
    exact ⟨forall_mem_cons.2 ⟨hpruned'.none hc, hcs⟩, hcloses.trans hcloses' hpruned hpruned'⟩

private theorem closes_removeTree (hdepth : nodes.size ≤ depth) :
    (removeTree depth nodes i).get? i = none ∧ Closes nodes (removeTree depth nodes i) := by
  induction depth generalizing nodes i with
  | zero =>
    have hempty : ∀ j n, nodes.get? j ≠ some n := by
      intro j n hn
      have := length_pos_of_mem (mem_of_get? hn)
      exact absurd hdepth (Nat.not_le_of_lt this)
    exact ⟨Option.eq_none_iff_forall_ne_some.2 (hempty i), fun j n hn => absurd hn (hempty j n)⟩
  | succ depth ih =>
    unfold removeTree
    split
    · next hnone => exact ⟨hnone, fun j n hn hgone => nomatch hn.symm.trans hgone⟩
    · next m hm =>
      have hsize : (nodes.erase i).size ≤ depth :=
        Nat.le_of_lt_succ (Nat.lt_of_lt_of_le (size_erase_lt hm) hdepth)
      obtain ⟨hchildren, hcloses⟩ := closes_foldl m.children (fun _ _ => ih) hsize
      have hpruned := prunes_foldl depth m.children (nodes.erase i)
      have hi : (nodes.erase i).get? i = none := by rw [get?_erase, if_pos rfl]
      refine ⟨hpruned.none hi, fun j n hn hgone => ?_⟩
      by_cases hij : i = j
      · cases hij
        cases hm.symm.trans hn
        exact hchildren
      · refine hcloses j n ?_ hgone
        rw [get?_erase, if_neg hij]
        exact hn

/-- Removing an equation removes exactly what is below it. -/
theorem get?_removeTree (nodes : Table Node) (i j : Nat) (n : Node) :
    (removeTree nodes.size nodes i).get? j = some n ↔
      nodes.get? j = some n ∧ ¬ Below nodes i j := by
  obtain ⟨hi, hcloses⟩ := closes_removeTree (i := i) (Nat.le_refl nodes.size)
  have hpruned := prunes_removeTree nodes.size nodes i
  constructor
  · intro hn
    refine ⟨hpruned.sub j n hn, fun hbelow => ?_⟩
    have hgone : (removeTree nodes.size nodes i).get? j = none := by
      clear hn
      induction hbelow with
      | refl => exact hi
      | tail _ hlists ih =>
        obtain ⟨m, hm, hchild⟩ := hlists
        exact hcloses _ m hm ih _ hchild
    exact nomatch hn.symm.trans hgone
  · rintro ⟨hn, hnot⟩
    cases hj : (removeTree nodes.size nodes i).get? j with
    | none => exact absurd (below_of_removed hn hj) hnot
    | some n' =>
      rw [hpruned.sub j n' hj] at hn
      exact hn

/-! ### Forbidding to define -/

/-- The equation may define indeterminates only if `b` holds. -/
def muted (b : Bool) (n : Node) : Node :=
  { n with equation := { n.equation with deduce := n.equation.deduce && b } }

@[simp] private theorem muted_true : muted true = id := by
  funext n
  simp [muted]

/-- Some equations may define nothing any more; all else is as it was. -/
def Mutes (nodes nodes' : Table Node) : Prop :=
  nodes'.keys = nodes.keys ∧
    ∃ may : Nat → Bool, ∀ j, nodes'.get? j = (nodes.get? j).map (muted (may j))

/-- Nothing is muted. -/
theorem Mutes.refl (nodes : Table Node) : Mutes nodes nodes := by
  refine ⟨rfl, fun _ => true, fun j => ?_⟩
  rw [muted_true, Option.map_id, id]

theorem Mutes.trans (h : Mutes nodes nodes') (h' : Mutes nodes' nodes'') : Mutes nodes nodes'' := by
  obtain ⟨hkeys, may, hmay⟩ := h
  obtain ⟨hkeys', may', hmay'⟩ := h'
  refine ⟨hkeys'.trans hkeys, fun j => may j && may' j, fun j => ?_⟩
  rw [hmay', hmay, Option.map_map]
  congr 1
  funext n
  simp [muted, Bool.and_assoc]

theorem mutes_set (hi : nodes.get? i = some n) :
    Mutes nodes (nodes.set i { n with equation := { n.equation with deduce := false } }) := by
  refine ⟨?_, fun j => j ≠ i, fun j => ?_⟩
  · have hmem : i ∈ nodes.keys := mem_map_of_mem (f := Prod.fst) (mem_of_get? hi)
    rw [keys_set, if_pos hmem]
  · rw [get?_set]
    split
    · next hij =>
      subst hij
      simp [hi, muted]
    · next hij =>
      have hji : j ≠ i := fun h => hij h.symm
      simp [hji]

theorem mutes_forbidDeducing (depth : Nat) (nodes : Table Node) (i : Nat) :
    Mutes nodes (forbidDeducing depth nodes i) := by
  induction depth generalizing nodes i with
  | zero => exact .refl nodes
  | succ depth ih =>
    unfold forbidDeducing
    split
    · exact .refl nodes
    · next n hn =>
      refine (mutes_set hn).trans ?_
      generalize nodes.set i _ = rest
      induction n.children generalizing rest with
      | nil => exact .refl rest
      | cons c cs ih' => exact (ih rest c).trans (ih' _)

/-- Muting the nodes of several trees. -/
theorem mutes_foldl (depth : Nat) (is : List Nat) (nodes : Table Node) :
    Mutes nodes (is.foldl (forbidDeducing depth) nodes) := by
  induction is generalizing nodes with
  | nil => exact .refl nodes
  | cons i is ih => exact (mutes_forbidDeducing depth nodes i).trans (ih _)

/-- The roots are the equations that were posed for an obligation. -/
theorem mem_roots (hd : nodes.keys.Nodup) {owner : Owner} :
    (i, owner) ∈ roots nodes ↔ ∃ n, nodes.get? i = some n ∧ n.parent = .root owner := by
  unfold roots
  rw [mem_filterMap]
  constructor
  · rintro ⟨⟨j, n⟩, hmem, h⟩
    dsimp only at h
    split at h
    · next howner =>
      cases h
      exact ⟨n, get?_of_mem hd hmem, howner⟩
    · cases h
  · rintro ⟨n, hn, howner⟩
    refine ⟨(i, n), mem_of_get? hn, ?_⟩
    dsimp only
    rw [howner]

end Store
end Elaboration
