import Elaboration.Proofs.Reduction.Pass

/-!
# The memory is invisible

A reducer answers one call after another with one memory, and substitution remembers the parts that
it has dealt with. Either way a memory holds right results only.
-/

namespace Elaboration

open List

namespace Term

variable {xs : List Term} {memo : TermMap Term}

/-- Every result in the memory is that of substitution. -/
def Substituted (xs : List Term) (memo : TermMap Term) : Prop :=
  ∀ t u, memo.find? t = some u → u = t.subst xs

private theorem substituted_empty : Substituted xs .empty := nofun

private theorem Substituted.insert (hmemo : Substituted xs memo) (t : Term) :
    Substituted xs (memo.insert t (t.subst xs)) := by
  intro s u hu
  rw [TermMap.find?_insert] at hu
  by_cases hts : t = s
  · rw [if_pos hts] at hu
    cases hu
    rw [hts]
  · rw [if_neg hts] at hu
    exact hmemo s u hu

private theorem substMemo_of_substituted (hmemo : Substituted xs memo) (t : Term) :
    (t.substMemo xs memo).1 = t.subst xs ∧ Substituted xs (t.substMemo xs memo).2 := by
  fun_induction substMemo xs t memo with
  | case1 t memo u hu => exact ⟨hmemo t u hu, hmemo⟩
  | case2 memo f x f' memo1 hf x' memo2 hx hu ihf ihx =>
    obtain ⟨hf', hmemo1⟩ := ihf hmemo
    rw [hf] at hf' hmemo1
    obtain ⟨hx', hmemo2⟩ := ihx hmemo1
    rw [hx] at hx' hmemo2
    have happ : app f' x' = (app f x).subst xs := congrArg₂ app hf' hx'
    rw [happ]
    exact ⟨rfl, hmemo2.insert (app f x)⟩
  | case3 memo i hu => exact ⟨rfl, hmemo.insert (arg i)⟩
  | case4 memo u happ harg hu =>
    have hself : u.subst xs = u := by cases u <;> simp_all [subst]
    have hinsert := hmemo.insert u
    rw [hself] at hinsert
    exact ⟨hself.symm, hinsert⟩

private theorem substShared_eq_subst (xs : List Term) (t : Term) : t.substShared xs = t.subst xs :=
  (substMemo_of_substituted substituted_empty t).1

end Term

namespace Reduction

variable {R : RuleTable} {h : Replacer} {memo memo' : Memo} {calls : List (Mode × Term)}
  {answers : List Term}

/-- A reducer answers calls one after another, each with the memory that those before it have left.
-/
inductive Answers (R : RuleTable) (h : Replacer) :
    Memo → List (Mode × Term) → List Term → Memo → Prop where
  | nil {memo : Memo} : Answers R h memo [] [] memo
  | cons {memo memo1 memo2 : Memo} {depth : Nat} {mode : Mode} {t u : Term}
      {calls : List (Mode × Term)} {answers : List Term} :
    reduceMemo R h depth mode t memo = some (u, memo1) → Answers R h memo1 calls answers memo2 →
    Answers R h memo ((mode, t) :: calls) (u :: answers) memo2

private theorem Answers.reaches (hanswers : Answers R h memo calls answers memo')
    (hmemo : Valid (Reaches R h) memo) :
    Forall₂ (fun call u => Reaches R h call.1 call.2 u) calls answers := by
  induction hanswers with
  | nil => exact .nil
  | cons hu _ ih =>
    obtain ⟨hreaches, hmemo1⟩ := (yields_reaches _ _ _ _ hmemo).2 _ _ hu
    exact .cons hreaches (ih hmemo1)

private theorem exists_answers (hmemo : Valid (Reaches R h) memo)
    (hreaches : Forall₂ (fun call u => Reaches R h call.1 call.2 u) calls answers) :
    ∃ memo', Answers R h memo calls answers memo' := by
  induction hreaches generalizing memo with
  | nil => exact ⟨memo, .nil⟩
  | cons hu _ ih =>
    obtain ⟨depth, hu⟩ := hu
    obtain ⟨memo1, hrun, hmemo1⟩ := (recalls_reduce depth _ _ _ hu).2 memo hmemo
    obtain ⟨memo2, hanswers⟩ := ih hmemo1
    exact ⟨memo2, .cons hrun hanswers⟩

/-- Calls on one reducer are answered as each would be by a reducer of its own, and as without a
memory; and substitution with a memory is substitution. -/
theorem memory_invisible (R : RuleTable) (h : Replacer) (calls : List (Mode × Term))
    (answers : List Term) :
    ((∃ memo, Answers R h .empty calls answers memo) ↔
      Forall₂ (fun call u => ∃ depth, run? R h depth call.1 call.2 = some u) calls answers) ∧
    ((∃ memo, Answers R h .empty calls answers memo) ↔
      Forall₂ (fun call u => ∃ depth, reduce R h depth call.1 call.2 = some u) calls answers) ∧
    ∀ (xs : List Term) (t : Term), t.substShared xs = t.subst xs := by
  have hplain : (∃ memo, Answers R h .empty calls answers memo) ↔
      Forall₂ (fun call u => Reaches R h call.1 call.2 u) calls answers :=
    ⟨fun ⟨_, hanswers⟩ => hanswers.reaches valid_empty, exists_answers valid_empty⟩
  refine ⟨?_, hplain, Term.substShared_eq_subst⟩
  simp only [hplain, reaches_iff_run?]

end Reduction
end Elaboration
