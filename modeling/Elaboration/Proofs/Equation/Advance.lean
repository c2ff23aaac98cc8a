import Elaboration.Proofs.Equation.Footing
import Elaboration.Proofs.Rule.Reachability

/-!
# What every action of the kernel keeps

A relation of kernels that holds across new symbols, types, names, contexts and rules, and across
updates of contexts, holds across every action: the kernel counts the rules that it installs, and
contradictions that were found remain.
-/

namespace Elaboration

open Term

variable {α β : Type}

namespace Kernel

variable {k : Kernel}

/-- A relation that holds across everything that an action may do to the kernel. -/
structure Lasting (R : Kernel → Kernel → Prop) : Prop where
  trans : ∀ {k k' k''}, R k k' → R k' k'' → R k k''
  /-- Symbols, names and the journal do not matter. -/
  same : ∀ {k k' : Kernel}, k'.limit = k.limit → k'.rules = k.rules → k'.contexts = k.contexts →
    k'.typeOfSymbol? = k.typeOfSymbol? → R k k'
  register : ∀ (k : Kernel) (id : Nat), R k { k with rules := k.rules.register id }
  /-- Rules without match steps are installed. -/
  define : ∀ (k : Kernel) (id : Nat) (head : Term) (arity : Nat) (replacement : Term),
    R k (k.withRule id (.lambda head arity replacement))
  /-- Only contexts with assumptions are updated. -/
  update : ∀ {k : Kernel} {c : Nat} {s : Equalities.State}, (k.equalities c).hasClasses →
    Equalities.Updates (k.equalities c) s.equalities → R k (k.withContext c s)
  /-- A new context may be updated at once. -/
  assume : ∀ {k : Kernel} {q : Equalities} (s : Equalities.State),
    R k ({ k with contexts := k.contexts.push q }.withContext k.contexts.size s)

namespace Lasting

variable {R : Kernel → Kernel → Prop}

/-- Lasting relations are reflexive. -/
theorem refl (h : Lasting R) (k : Kernel) : R k k := h.same rfl rfl rfl rfl

end Lasting

/-- The rules are the same as long as their count is, and contexts in which nothing is assumed stay
so. -/
structure Advances (k k' : Kernel) : Prop where
  limit : k'.limit = k.limit
  generation : k.rules.generation ≤ k'.rules.generation
  rules : k'.rules.generation = k.rules.generation → k'.rules.rules = k.rules.rules
  contexts : ∀ c : Nat, k.contexts[c]? = some .empty → k'.contexts[c]? = some .empty

/-- Contradictions that were found are remembered. -/
def Remembers (k k' : Kernel) : Prop :=
  ∀ c, (k.equalities c).inconsistent → (k'.equalities c).inconsistent

private theorem getElem?_contexts_withContext {c d : Nat} (h : d ≠ c)
    (s : Equalities.State) : (k.withContext c s).contexts[d]? = k.contexts[d]? := by
  simp [withContext, h.symm]

private theorem getElem?_contexts_push {d : Nat} (h : d < k.contexts.size)
    (q : Equalities) : (k.contexts.push q)[d]? = k.contexts[d]? := by
  rw [Array.getElem?_push, if_neg h.ne]

private theorem lt_size_of_getElem? {d : Nat} {q : Equalities}
    (h : k.contexts[d]? = some q) : d < k.contexts.size :=
  (Array.getElem?_eq_some_iff.1 h).1

theorem advances_withRule (k : Kernel) (id : Nat) (r : Rule) : k.Advances (k.withRule id r) :=
  ⟨rfl, Nat.le_succ _, fun h => absurd h (Nat.succ_ne_self _), fun _ hc => hc⟩

/-- Advances last. -/
theorem lasting_advances : Lasting Advances where
  trans h h' := by
    have hle := h.generation
    have hle' := h'.generation
    refine ⟨h'.limit.trans h.limit, hle.trans hle', fun heq => ?_,
      fun c hc => h'.contexts c (h.contexts c hc)⟩
    rw [h'.rules (by omega), h.rules (by omega)]
  same hlimit hrules hcontexts _ :=
    ⟨hlimit, hrules ▸ le_rfl, fun _ => hrules ▸ rfl, fun _ hc => hcontexts ▸ hc⟩
  register k id :=
    ⟨rfl, (RuleTable.generation_register ..).symm.le,
      fun _ => RuleTable.rules_register _ _, fun _ hc => hc⟩
  define k id head arity replacement := k.advances_withRule id _
  update {k c s} hclasses _ := by
    refine ⟨rfl, le_rfl, fun _ => rfl, fun d hd => ?_⟩
    have hne : d ≠ c := by
      rintro rfl
      rw [equalities, hd] at hclasses
      cases hclasses
    exact (getElem?_contexts_withContext hne s).trans hd
  assume {k q} s := by
    refine ⟨rfl, le_rfl, fun _ => rfl, fun d hd => ?_⟩
    have hlt := lt_size_of_getElem? hd
    rw [getElem?_contexts_withContext hlt.ne]
    exact (getElem?_contexts_push hlt q).trans hd

private theorem lt_size_of_inconsistent {c : Nat}
    (h : (k.equalities c).inconsistent) : c < k.contexts.size := by
  by_contra hlt
  rw [equalities, Array.getElem?_eq_none (not_lt.1 hlt)] at h
  cases h

theorem lasting_remembers : Lasting Remembers where
  trans h h' c hc := h' c (h c hc)
  same _ _ hcontexts _ c hc := by rwa [equalities, hcontexts]
  register _ _ _ hc := hc
  define _ _ _ _ _ _ hc := hc
  update {k c s} _ hupdates d hd := by
    by_cases hcd : c = d
    · subst hcd
      rw [equalities_withContext (lt_size_of_inconsistent hd)]
      exact hupdates.inconsistent hd
    · rwa [equalities_withContext_of_ne hcd]
  assume {k q} s c hc := by
    have hlt := lt_size_of_inconsistent hc
    rwa [equalities_withContext_of_ne hlt.ne', equalities, getElem?_contexts_push hlt]

end Kernel

namespace KernelM

open Kernel (Lasting)

variable {R : Kernel → Kernel → Prop}

/-- Whatever the action does, the relation holds across it. -/
def Abides (R : Kernel → Kernel → Prop) (x : KernelM α) : Prop :=
  ∀ k, Ends x k (fun _ k' => R k k') fun _ _ => True

section Abides

variable (hR : Lasting R)

include hR

private theorem abides_pure (a : α) : Abides R (pure a) := hR.refl

theorem Abides.bind {x : KernelM α} {f : α → KernelM β} (hx : Abides R x)
    (hf : ∀ a, Abides R (f a)) : Abides R (x >>= f) := by
  intro k
  refine Ends.seq (hx k) fun a k1 h1 => ?_
  exact (hf a k1).imp (fun _ _ h => hR.trans h1 h)

private theorem abides_context (c : Nat) : Abides R (context c) := hR.refl

omit hR in
private theorem abides_violate (v : Violation) : Abides R (violate v : KernelM α) :=
  fun _ => trivial

theorem abides_note (e : Event) : Abides R (note e) := fun _ => hR.same rfl rfl rfl rfl

theorem abides_freshSymbol : Abides R freshSymbol := fun _ => hR.same rfl rfl rfl rfl

theorem abides_register (t : Term) : Abides R (register t) := by
  intro k
  cases t with
  | decl id => exact hR.register k id
  | _ => trivial

private theorem abides_declare : Abides R declare :=
  ((abides_freshSymbol hR).bind hR fun _ => abides_pure hR _).bind hR fun _ =>
    (abides_register hR _).bind hR fun _ => abides_pure hR _

/-- Defining abides by what lasts. -/
theorem abides_define (head : Term) (arity : Nat) (replacement : Term) :
    Abides R (addRule (.lambda head arity replacement)) := by
  intro k
  refine (ends_addRule _ k).answer ?_
  rintro _ k' ⟨id, _, _, _, rfl⟩
  exact hR.define k id head arity replacement

theorem abides_setName (t : Term) (name : String) : Abides R (setName t name) := by
  intro k
  exact ends_setName fun _ => hR.same rfl rfl rfl rfl

end Abides

end KernelM

open Kernel (Lasting)
open KernelM

variable {R : Kernel → Kernel → Prop}

namespace Telescope

/-- A telescope without assumptions stays so. -/
theorem AssumesNothing.advances {tele : Telescope} {k k' : Kernel} (h : tele.AssumesNothing k)
    (hk : k.Advances k') : tele.AssumesNothing k' :=
  hk.contexts _ h

variable (hR : Lasting R) (tele : Telescope)

include hR

theorem abides_extend (type : Term) : Abides R (tele.extend type) := by
  unfold extend declareNamed
  iterate 5 refine (abides_declare hR).bind hR fun _ => ?_
  iterate 5 refine (abides_setName hR _ _).bind hR fun _ => ?_
  iterate 5 refine (abides_define hR _ _ _).bind hR fun _ => ?_
  exact abides_pure hR _

theorem abides_eliminate (t : Term) : Abides R (tele.eliminate t) := by
  refine (abides_context hR _).bind hR fun q => ?_
  dsimp only
  split
  · exact abides_violate _
  · exact abides_pure hR _

/-- A context without assumptions is left alone, and any other may be updated. -/
theorem abides_reduce (t : Term) : Abides R (tele.reduce t) := by
  intro k
  have hrefresh : Ends tele.refresh k (fun _ k' => R k k') fun _ _ => True := by
    rw [ends_refresh_iff]
    split
    · next hstale =>
      rw [ends_changeContext]
      refine Equalities.traces_canonicalize.ends.answer (fun _ s hs => ?_)
      exact hR.update (Bool.and_eq_true_iff.1 hstale).1 hs.updates
    · exact hR.refl k
  rw [ends_reduce_iff]
  refine hrefresh.imp (fun _ k1 h1 => ?_)
  split
  · exact h1
  · trivial

theorem abides_assume (lhs rhs : Term) : Abides R (tele.assume lhs rhs) := by
  refine (abides_context hR _).bind hR fun q k => ?_
  rw [Ends.bind_iff]
  change Ends _ { k with contexts := k.contexts.push q } _ _
  rw [Ends.bind_iff, ends_changeContext]
  refine Ends.of_answer fun out s _ => ?_
  have hassumed := hR.assume (k := k) (q := q) s
  cases out with
  | ok => exact hassumed
  | error e => exact hR.trans hassumed (hR.same rfl rfl rfl rfl)

end Telescope

/-! ### Steps on equations -/

namespace Kernel.Lasting

/-- Nothing is followed but that the relation holds. -/
def course (hR : Lasting R) : Course Stop Kernel where
  Holds _ := True
  Leads := R
  Stops _ _ _ := True
  refl _ := hR.refl _
  trans := hR.trans
  stops _ _ := trivial

private theorem keeps_of_abides (hR : Lasting R) {x : KernelM α} (hx : Abides R x) {k : Kernel}
    {Q : α → Kernel → Prop} (hQ : ∀ a k, Q a k) : hR.course.Keeps x k Q :=
  fun _ => (hx k).imp (fun a k' h => ⟨trivial, h, hQ a k'⟩)

/-- Nothing is said of telescopes and terms. -/
def footing (hR : Lasting R) : Footing hR.course where
  Tele _ _ := True
  value _ _ := True
  side _ _ := True
  tele_later _ h := h
  value_mono _ h := h
  side_mono _ h := h
  side_value h := h
  value_arg _ := trivial
  value_postulate := trivial
  value_decl := trivial
  value_leaf := trivial
  note _ := hR.keeps_of_abides (abides_note hR _) fun _ _ => trivial
  freshSymbol := hR.keeps_of_abides (abides_freshSymbol hR) fun _ _ => trivial
  register _ := hR.keeps_of_abides (abides_register hR _) fun _ _ => trivial
  addLambda head _ := hR.keeps_of_abides (abides_define hR head _ _) fun _ _ => trivial
  extend _ _ := hR.keeps_of_abides (Telescope.abides_extend hR _ _) fun _ _ => trivial

theorem solves (hR : Lasting R) : hR.footing.Solves where
  reduce _ _ := hR.keeps_of_abides (Telescope.abides_reduce hR _ _) fun _ _ => all_trivial _
  eliminate _ _ := hR.keeps_of_abides (Telescope.abides_eliminate hR _ _) fun _ _ => all_trivial _
  violated _ := trivial

end Kernel.Lasting

namespace Solver

variable (hR : Lasting R) (e : Equation) (free : Indeterminates) (k : Kernel)

include hR

/-- Steps on equations are no exception. -/
theorem abides_step : EndsWith (step e) free k (fun _ _ k' => R k k') fun _ _ => True :=
  (keeps_step hR.solves ⟨trivial, all_trivial _, all_trivial _⟩ ⟨trivial, trivial⟩).imp
    (fun _ _ _ h => h.2.1)

end Solver
end Elaboration
