import Elaboration.Term.Basic

/-!
# Spines and atoms of terms

Every term is its head applied to its arguments, and the head is no application. Which arguments,
symbols and placeholders a term may mention is a condition on its atoms.
-/

namespace Elaboration

open List
namespace Term

@[simp] private theorem apply_nil (t : Term) : t.apply [] = t := rfl

/-- Applying to one argument first. -/
@[simp] theorem apply_cons (t x : Term) (xs : List Term) :
    t.apply (x :: xs) = (app t x).apply xs := rfl

/-- Applying to one list after another. -/
theorem apply_append (t : Term) (xs ys : List Term) :
    t.apply (xs ++ ys) = (t.apply xs).apply ys := by
  simp [apply]

@[simp] private theorem head_app (f x : Term) : (app f x).head = f.head := rfl

private theorem argsBefore_eq_append (t : Term) (acc : List Term) :
    t.argsBefore acc = t.args ++ acc := by
  induction t generalizing acc with
  | app f x ihf _ =>
    rw [args, argsBefore, argsBefore, ihf (x :: acc), ihf [x]]
    simp
  | _ => rfl

/-- Arguments of an application. -/
@[simp] theorem args_app (f x : Term) : (app f x).args = f.args ++ [x] := by
  simp [args, argsBefore, argsBefore_eq_append f [x]]

@[simp] private theorem args_arg (i : Nat) : (arg i).args = [] := rfl
@[simp] private theorem args_postulate (id : Nat) : (postulate id).args = [] := rfl
@[simp] private theorem args_decl (id : Nat) : (decl id).args = [] := rfl
@[simp] private theorem args_leaf (l : Leaf) : (leaf l).args = [] := rfl
@[simp] private theorem args_placeholder (i : Nat) : (placeholder i).args = [] := rfl

/-- A spine has the head of its function. -/
@[simp] theorem head_apply (t : Term) (xs : List Term) : (t.apply xs).head = t.head := by
  induction xs generalizing t with
  | nil => rfl
  | cons x xs ih => rw [apply_cons, ih, head_app]

/-- Arguments of a spine. -/
@[simp] theorem args_apply (t : Term) (xs : List Term) : (t.apply xs).args = t.args ++ xs := by
  induction xs generalizing t with
  | nil => simp
  | cons x xs ih => rw [apply_cons, ih, args_app, append_assoc, singleton_append]

/-- A term is its head applied to its arguments. -/
@[simp] theorem apply_head_args (t : Term) : t.head.apply t.args = t := by
  induction t with
  | app f x ihf _ => rw [head_app, args_app, apply_append, ihf]; rfl
  | _ => rfl

/-- The head of a spine is no application. -/
@[simp] theorem args_head (t : Term) : t.head.args = [] := by
  induction t with
  | app f x ihf _ => simpa using ihf
  | _ => rfl

/-- Heads are their own heads. -/
@[simp] theorem head_head (t : Term) : t.head.head = t.head := by
  induction t with
  | app f x ihf _ => simpa using ihf
  | _ => rfl

/-- Heads are no applications. -/
theorem head_ne_app (t f x : Term) : t.head ≠ app f x := by
  intro h
  have hargs := args_head t
  simp [h] at hargs

/-- Heads and arguments determine a term. -/
theorem eq_of_head_args {t u : Term} (hh : t.head = u.head) (ha : t.args = u.args) : t = u := by
  rw [← apply_head_args t, ← apply_head_args u, hh, ha]

/-- Substitution in an application. -/
@[simp] theorem subst_app (xs : List Term) (f x : Term) :
    (app f x).subst xs = app (f.subst xs) (x.subst xs) := rfl

/-- Substitution in a spine. -/
theorem subst_apply (xs : List Term) (t : Term) (us : List Term) :
    (t.apply us).subst xs = (t.subst xs).apply (us.map (subst xs)) := by
  induction us generalizing t with
  | nil => rfl
  | cons u us ih => rw [apply_cons, ih, map_cons, apply_cons, subst_app]

theorem subst_arg_of_lt {xs : List Term} {i : Nat} (h : i < xs.length) :
    (arg i).subst xs = xs[i] := by
  simp [subst, h]

/-- The first arguments are replaced by the terms of the list, one by one. -/
theorem map_subst_firstArgs (xs : List Term) : (firstArgs xs.length).map (subst xs) = xs := by
  apply ext_getElem
  · simp [firstArgs]
  · intro i hi hi'
    simp [firstArgs, subst, hi']

/-- There are `n` first arguments. -/
@[simp] theorem length_firstArgs (n : Nat) : (firstArgs n).length = n := by simp [firstArgs]

/-- Rigid terms have closed heads. -/
theorem isHeadClosed_of_isRigid {t : Term} (ht : t.isRigid) : t.isHeadClosed := by
  unfold isRigid at ht
  unfold isHeadClosed
  split at ht <;> simp_all

end Term

namespace Term

/-- Every atom of the term satisfies `p`. -/
def All (p : Term → Prop) : Term → Prop
  | app f x => f.All p ∧ x.All p
  | t => p t

variable {p q : Term → Prop}

/-- Atoms of an application. -/
@[simp] theorem all_app (f x : Term) : (app f x).All p ↔ f.All p ∧ x.All p := .rfl
@[simp] theorem all_arg (i : Nat) : (arg i).All p ↔ p (arg i) := .rfl
@[simp] theorem all_postulate (id : Nat) : (postulate id).All p ↔ p (postulate id) := .rfl
@[simp] theorem all_decl (id : Nat) : (decl id).All p ↔ p (decl id) := .rfl
@[simp] private theorem all_leaf (l : Leaf) : (leaf l).All p ↔ p (leaf l) := .rfl
@[simp] private theorem all_placeholder (i : Nat) :
    (placeholder i).All p ↔ p (placeholder i) := .rfl

variable {t : Term} {xs : List Term} {id : Nat}

/-- Weaker properties hold of all atoms. -/
theorem All.mono (ht : t.All p) (hpq : ∀ a, p a → q a) : t.All q := by
  induction t with
  | app f x ihf ihx => exact ⟨ihf ht.1, ihx ht.2⟩
  | _ => exact hpq _ ht

/-- Two properties hold of all atoms at once. -/
theorem All.and (ht : t.All p) (ht' : t.All q) : t.All fun a => p a ∧ q a := by
  induction t with
  | app f x ihf ihx => exact ⟨ihf ht.1 ht'.1, ihx ht.2 ht'.2⟩
  | _ => exact ⟨ht, ht'⟩

/-- The atoms of the term, from left to right. -/
def atoms : Term → List Term
  | app f x => f.atoms ++ x.atoms
  | t => [t]

theorem all_iff_forall_mem_atoms : t.All p ↔ ∀ a ∈ t.atoms, p a := by
  induction t with
  | app f x ihf ihx =>
    rw [all_app, ihf, ihx, atoms]
    exact forall_mem_append.symm
  | _ => simp [atoms]

/-- Nothing is asked of the atoms. -/
theorem all_trivial (t : Term) : t.All fun _ => True :=
  all_iff_forall_mem_atoms.2 fun _ _ => trivial

/-- A spine satisfies `p` if its head and all its arguments do. -/
theorem all_apply : (t.apply xs).All p ↔ t.All p ∧ ∀ x ∈ xs, x.All p := by
  induction xs generalizing t with
  | nil => simp
  | cons x xs ih => rw [apply_cons, ih, all_app, forall_mem_cons, and_assoc]

/-- Atoms of the head. -/
theorem All.head (ht : t.All p) : t.head.All p := by
  rw [← apply_head_args t] at ht
  exact (all_apply.1 ht).1

/-- Atoms of the arguments. -/
theorem All.args (ht : t.All p) : ∀ x ∈ t.args, x.All p := by
  rw [← apply_head_args t] at ht
  exact (all_apply.1 ht).2

/-- An atom that is one of `n` captures or satisfies `p`. -/
def CaptureOr (n : Nat) (p : Term → Prop) (a : Term) : Prop := (∃ i < n, a = arg i) ∨ p a

/-- Substituting captures that satisfy `p` gives a term that does. -/
theorem All.subst (ht : t.All (CaptureOr xs.length p)) (hxs : ∀ x ∈ xs, x.All p) :
    (t.subst xs).All p := by
  induction t with
  | app f x ihf ihx => exact ⟨ihf ht.1, ihx ht.2⟩
  | arg i =>
    by_cases hi : i < xs.length
    · rw [subst_arg_of_lt hi]
      exact hxs _ (getElem_mem hi)
    · obtain ⟨j, hj, he⟩ | hpi := ht
      · cases he
        exact absurd hj hi
      · simpa [Term.subst, hi] using hpi
  | _ => exact ht.resolve_left (by rintro ⟨_, _, he⟩; cases he)

/-! ### Declarations -/

theorem mem_decls_iff : id ∈ t.decls ↔ decl id ∈ t.atoms := by
  induction t with
  | app f x ihf ihx => simp [decls, atoms, ihf, ihx]
  | _ => simp [decls, atoms]

/-- The declarations of a term are among its atoms. -/
theorem All.of_mem_decls (ht : t.All p) (hid : id ∈ t.decls) : p (decl id) := by
  induction t with
  | app f x ihf ihx => exact (mem_append.1 hid).elim (ihf ht.1) (ihx ht.2)
  | decl id' => exact mem_singleton.1 hid ▸ ht
  | _ => cases hid

/-- Declarations of a spine. -/
theorem mem_decls_apply : id ∈ (t.apply xs).decls ↔ id ∈ t.decls ∨ ∃ x ∈ xs, id ∈ x.decls := by
  induction xs generalizing t with
  | nil => simp
  | cons x xs ih => simp [ih, decls, or_assoc]

theorem mem_decls_of_head (h : id ∈ t.head.decls) : id ∈ t.decls := by
  rw [← apply_head_args t]
  exact mem_decls_apply.2 (.inl h)

/-- Applying to arguments mentions no more declarations. -/
theorem mem_decls_apply_args {levels : List Nat} {f : Nat → Nat} :
    id ∈ (t.apply (levels.map fun i => arg (f i))).decls ↔ id ∈ t.decls := by
  refine mem_decls_apply.trans (or_iff_left ?_)
  rintro ⟨x, hx, hid⟩
  obtain ⟨i, _, rfl⟩ := mem_map.1 hx
  cases hid

/-- Substitution replaces no declaration. -/
theorem mem_decls_subst (xs : List Term) (h : id ∈ t.decls) : id ∈ (t.subst xs).decls := by
  induction t with
  | app f x ihf ihx =>
    exact mem_append.2 ((mem_append.1 h).imp ihf ihx)
  | decl id' => exact h
  | _ => cases h

end Term
end Elaboration
