import Elaboration.Proofs.Telescope.Footing

/-!
# Rules without placeholders

A placeholder stands for a class of one local equality context, so a rule must not mention any. What
is written into a rule was free of them from the start or passed through elimination, which stops if
one is left.
-/

namespace Elaboration

open Ends Term

open Term (Plain)

namespace Term

variable {t : Term} {n : Nat}

theorem plain_iff : t.hasPlaceholder = false ↔ t.All Plain := all_hasPlaceholder

theorem All.captureOr {p : Term → Prop} (h : t.All p) : t.All (CaptureOr n p) :=
  h.mono fun _ => .inr

private theorem plain_applyArgs (h : t.All Plain) : (t.applyArgs n).All Plain := by
  refine all_apply.2 ⟨h, fun x hx => ?_⟩
  obtain ⟨i, _, rfl⟩ := List.mem_map.1 hx
  exact plain_arg i

end Term

namespace KernelM

/-- No rule mentions a placeholder, wherever an action ends. -/
def clearing : Course Stop Kernel where
  Holds k := k.rules.Over Plain
  Leads _ _ := True
  Stops _ _ k' := k'.rules.Over Plain
  refl _ := trivial
  trans _ _ := trivial
  stops _ h := h

variable {α : Type} {x : KernelM α} {k : Kernel} {Q : α → Kernel → Prop}

private theorem clears_of_rules (h : Ends x k (fun a k' => k'.rules = k.rules ∧ Q a k')
    fun _ k' => k'.rules = k.rules) : clearing.Keeps x k Q := by
  intro hk
  have hkept : ∀ {k' : Kernel}, k'.rules = k.rules → k'.rules.Over Plain := fun h => h ▸ hk
  exact h.mono (fun _ _ h => ⟨hkept h.1, trivial, h.2⟩) fun _ _ h => hkept h

private theorem clears_note (e : Event) : clearing.Keeps (note e) k fun _ _ => True :=
  clears_of_rules ⟨rfl, trivial⟩

private theorem clears_freshSymbol : clearing.Keeps freshSymbol k fun _ _ => True :=
  clears_of_rules ⟨rfl, trivial⟩

private theorem clears_register (id : Nat) :
    clearing.Keeps (register (.decl id)) k fun _ _ => True :=
  fun hk => ⟨fun j r hr => hk j r (by simpa using hr), trivial, trivial⟩

private theorem clears_setName (t : Term) (name : String) :
    clearing.Keeps (setName t name) k fun _ _ => True :=
  clears_of_rules (ends_setName fun _ => ⟨rfl, trivial⟩)

private theorem clears_setType (t type : Term) :
    clearing.Keeps (setType t type) k fun _ _ => True :=
  clears_of_rules (ends_setType (fun _ => ⟨rfl, trivial⟩) rfl)

private theorem clears_addLambda (head : Term) {arity : Nat} {replacement : Term}
    (h : replacement.All Plain) :
    clearing.Keeps (addRule (.lambda head arity replacement)) k fun _ _ => True := by
  intro hk
  refine (ends_addRule _ k).mono ?_ ?_
  · rintro _ _ ⟨id, _, _, _, rfl⟩
    exact ⟨hk.install (Rule.over_lambda.2 h.captureOr), trivial, trivial⟩
  · rintro _ _ ⟨rfl, _⟩
    exact hk

end KernelM

/-! ### Telescopes -/

namespace Telescope

open KernelM

variable {tele : Telescope} {type : Term} {k : Kernel}

/-- What maps families over the telescope to types contains no placeholder. It is written into the
rules of longer telescopes. -/
protected def Plain (tele : Telescope) : Prop := tele.pi.All Term.Plain

theorem clears_root : clearing.Keeps root k fun tele _ => tele.Plain :=
  clears_of_rules ⟨rfl, plain_decl _, plain_postulate _⟩

theorem clears_extend (h : tele.Plain) (htype : type.All Plain) :
    clearing.Keeps (tele.extend type) k fun inner _ => inner.Plain := by
  have hshifted : ∀ x ∈ (List.range tele.depth).map fun i => arg (i + 1), x.All Plain := by
    intro x hx
    obtain ⟨i, _, rfl⟩ := List.mem_map.1 hx
    exact plain_arg _
  have hdeclare : ∀ {k}, clearing.Keeps declare k fun t _ => t.All Plain :=
    fun hk => ⟨fun j r hr => hk j r (by simpa using hr), trivial, plain_decl _⟩
  unfold extend declareNamed
  dsimp only
  refine hdeclare.bind fun ext _ _ hext => hdeclare.bind fun inner _ _ hinner => ?_
  refine hdeclare.bind fun family _ _ _ => hdeclare.bind fun fibration _ _ hfibration => ?_
  refine hdeclare.bind fun pi _ _ hpi => ?_
  iterate 5 refine (clears_setName _ _).bind fun _ _ _ _ => ?_
  refine (clears_addLambda _ htype).bind fun _ _ _ _ => ?_
  refine (clears_addLambda _ (plain_postulate _)).bind fun _ _ _ _ => ?_
  refine (clears_addLambda _ ?_).bind fun _ _ _ _ => (clears_addLambda _ ?_).bind fun _ _ _ _ =>
    (clears_addLambda _ ?_).bind fun _ _ _ _ => ?_
  · exact ⟨⟨plain_postulate _, htype⟩, plain_applyArgs hinner⟩
  · refine ⟨⟨plain_postulate _, all_apply.2 ⟨hext, hshifted⟩⟩, ?_⟩
    exact all_apply.2 ⟨plain_arg 0, hshifted⟩
  · exact ⟨h, hfibration, plain_arg 0⟩
  · exact .pure hpi

private theorem clears_assume (h : tele.Plain) (lhs rhs : Term) :
    clearing.Keeps (tele.assume lhs rhs) k fun inner _ => inner.Plain := by
  refine clears_of_rules ?_
  unfold assume
  rw [bind_iff, ends_context, bind_iff]
  change Ends _ { k with contexts := k.contexts.push (k.equalities tele.context) } _ _
  rw [bind_iff, ends_changeContext]
  refine of_cases (fun out s _ => ?_) fun _ _ _ => rfl
  cases out with
  | error e => exact ⟨rfl, h⟩
  | ok _ => exact ⟨rfl, h⟩

theorem clears_reduce (tele : Telescope) (t : Term) :
    clearing.Keeps (tele.reduce t) k fun _ _ => True :=
  clears_of_rules ((tele.ends_reduce t k).mono (fun _ _ h => ⟨h.toCalm.rules, trivial⟩)
    fun _ _ h => h.2.rules)

/-- Elimination answers nothing else. -/
theorem clears_eliminate (tele : Telescope) (t : Term) :
    clearing.Keeps (tele.eliminate t) k fun u _ => u.All Plain := by
  refine clears_of_rules ((tele.ends_eliminate t k).mono ?_ ?_)
  · rintro u _ ⟨rfl, _, hu⟩
    exact ⟨rfl, plain_iff.1 hu⟩
  · rintro _ _ ⟨rfl, _⟩
    rfl

/-- Values are without placeholders; of sides nothing is said. -/
def plainFooting : Footing clearing where
  Tele tele _ := tele.Plain
  value _ := Term.Plain
  side _ _ := True
  tele_later _ h := h
  value_mono _ h := h
  side_mono _ h := h
  side_value _ := trivial
  value_arg _ := Term.plain_arg _
  value_postulate := Term.plain_postulate _
  value_decl := Term.plain_decl _
  value_leaf _ := nofun
  note _ := clears_note _
  freshSymbol := clears_freshSymbol
  register := clears_register
  addLambda head h := clears_addLambda head h
  extend h ht := clears_extend h ht

/-- Types can be read on the plain footing. -/
theorem plainFooting_reads : plainFooting.Reads where
  family _ := all_trivial _
  pi _ := all_trivial _
  typeOfArg _ _ := all_trivial _
  typeOfSymbol _ _ := all_trivial _
  setName := clears_setName
  setType t _ := clears_setType t _
  reduceClean {tele t _} _ _ := (tele.clears_reduce t).bind fun u _ _ _ => tele.clears_eliminate u
  assume h _ _ := clears_assume h _ _

end Telescope
end Elaboration
