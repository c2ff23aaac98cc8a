import Elaboration.Proofs.Reduction.Relevance
import Elaboration.Proofs.Telescope.Unfolding

/-!
# Reading types

A symbol that is made now is mentioned by nothing that is there, so terms keep their normal forms
and symbols their types. The type of a term is read off the type of its head, through the function
types that the head is applied through. A symbol whose type was made for a type over a telescope has
that type at its arguments, if the types of these have normal forms without placeholders.
-/

namespace Elaboration

open Kernel List RuleTable Table Term

open Reduction (Normalizes)

variable {k k' k'' : Kernel} {tele tele' : Telescope} {t u type : Term} {n m id : Nat}

/-! ### Terms over the symbols made so far -/

namespace Term

/-- The declarations that the term mentions are numbered below `n`. -/
def Known (n : Nat) (t : Term) : Prop := t.All (DeclIn (· < n))

/-- More symbols may be known. -/
theorem Known.mono (h : t.Known n) (hle : n ≤ m) : t.Known m :=
  All.mono h fun _ ha id hid => (ha id hid).trans_le hle

theorem known_app {x : Term} : (app t x).Known n ↔ t.Known n ∧ x.Known n := .rfl

theorem known_apply {xs : List Term} : (t.apply xs).Known n ↔ t.Known n ∧ ∀ x ∈ xs, x.Known n :=
  all_apply

theorem known_arg (i : Nat) : (arg i).Known n := nofun

/-- Postulates are known. -/
theorem known_postulate (id : Nat) : (postulate id).Known n := nofun

theorem known_decl : (decl id).Known n ↔ id < n := by simp [Known, DeclIn]

theorem known_applyArgs {d : Nat} (h : t.Known n) : (t.applyArgs d).Known n := by
  refine known_apply.2 ⟨h, fun x hx => ?_⟩
  obtain ⟨i, _, rfl⟩ := mem_map.1 hx
  exact known_arg i

end Term

/-- An arrow is known if its sides are. -/
theorem Primitive.known_arrowOf {domain codomain : Term} :
    (arrowOf domain codomain).Known n ↔ domain.Known n ∧ codomain.Known n := by
  refine ⟨fun h => ⟨h.1.2, h.2⟩, fun h => ⟨⟨known_postulate _, h.1⟩, h.2⟩⟩

private theorem Rule.terms_lambda (head : Term) (arity : Nat) (replacement : Term) :
    (lambda head arity replacement).terms = [replacement] := by
  simp [terms, lambda, Step.subject?]

/-- What the telescope is encoded by and what it binds mentions declarations below `n` only. -/
structure Telescope.Known (n : Nat) (tele : Telescope) : Prop where
  family : tele.family.Known n
  pi : tele.pi.Known n
  bound : ∀ type ∈ tele.boundTypes, type.Known n

/-- More symbols may be known. -/
theorem Telescope.Known.mono (h : tele.Known n) (hle : n ≤ m) : tele.Known m :=
  ⟨h.family.mono hle, h.pi.mono hle, fun type htype => (h.bound type htype).mono hle⟩

/-! ### Kernels over the symbols made so far -/

namespace Kernel

/-- The built-in symbols are as they were made, and only symbols that are made have rules and types,
which mention such symbols only. -/
structure Grounded (k : Kernel) : Prop where
  primitives : Primitive.count ≤ k.nextSymbol
  primitiveRules : Kernel.initial.rules.Sub k.rules
  primitiveTypes : ∀ x ∈ Primitive.types, k.types.get? x.1 = some x.2
  ruled : k.RulesMade
  rules : ∀ id r, k.rules.ruleFor? id = some r → ∀ t ∈ r.terms, t.Known k.nextSymbol
  typed : ∀ id type, k.types.get? id = some type → id < k.nextSymbol
  types : ∀ a type, k.typeOfSymbol? a = some type → type.Known k.nextSymbol

/-- The states give the same rules and types to the symbols numbered below `n`, and the later one
has the equality contexts of the earlier one. -/
structure AgreesBelow (n : Nat) (k k' : Kernel) : Prop where
  rules : ∀ id < n, k'.rules.ruleFor? id = k.rules.ruleFor? id
  types : ∀ id < n, k'.types.get? id = k.types.get? id
  integerType : k'.integerType = k.integerType
  textType : k'.textType = k.textType
  contexts : ∀ (c : Nat) q, k.contexts[c]? = some q → k'.contexts[c]? = some q

/-- Only new symbols were made or changed. -/
structure Freshens (k k' : Kernel) : Prop extends AgreesBelow k.nextSymbol k k' where
  symbols : k.nextSymbol ≤ k'.nextSymbol
  grounded : k'.Grounded

namespace AgreesBelow

private theorem trans (h : AgreesBelow n k k') (h' : AgreesBelow m k' k'') (hle : n ≤ m) :
    AgreesBelow n k k'' where
  rules id hid := (h'.rules id (hid.trans_le hle)).trans (h.rules id hid)
  types id hid := (h'.types id (hid.trans_le hle)).trans (h.types id hid)
  integerType := h'.integerType.trans h.integerType
  textType := h'.textType.trans h.textType
  contexts c q hq := h'.contexts c q (h.contexts c q hq)

private theorem withRules {rules : List (Nat × Rule)} (h : ∀ x ∈ rules, n ≤ x.1) :
    AgreesBelow n k (k.withRules rules) := by
  induction rules generalizing k with
  | nil => exact ⟨fun _ _ => rfl, fun _ _ => rfl, rfl, rfl, fun _ _ h => h⟩
  | cons x rules ih =>
    rw [forall_mem_cons] at h
    have hfirst : AgreesBelow n k (k.withRule x.1 x.2) := by
      refine ⟨fun id hid => ?_, fun _ _ => rfl, rfl, rfl, fun _ _ h => h⟩
      rw [withRule, ruleFor?_install, if_neg (hid.trans_le h.1).ne']
    exact hfirst.trans (ih h.2) (Nat.le_refl n)

end AgreesBelow

theorem Freshens.trans (h : k.Freshens k') (h' : k'.Freshens k'') : k.Freshens k'' :=
  ⟨h.toAgreesBelow.trans h'.toAgreesBelow h.symbols, h.symbols.trans h'.symbols, h'.grounded⟩

namespace Grounded

section

variable (h : k.Grounded)
include h

section Later

variable (hsymbols : k.nextSymbol ≤ k'.nextSymbol)
    (hrules : ∀ id, k'.rules.ruleFor? id = k.rules.ruleFor? id) (htypes : k'.types = k.types)
    (hinteger : k'.integerType = k.integerType) (htext : k'.textType = k.textType)

include hsymbols hrules htypes hinteger htext

/-- More symbols may be made at any time. -/
theorem later : k'.Grounded where
  primitives := h.primitives.trans hsymbols
  primitiveRules id r hr := (hrules id).trans (h.primitiveRules id r hr)
  primitiveTypes := htypes ▸ h.primitiveTypes
  ruled id r hr := (h.ruled id r (hrules id ▸ hr)).trans_le hsymbols
  rules id r hr t ht := (h.rules id r (hrules id ▸ hr) t ht).mono hsymbols
  typed id type ht := (h.typed id type (htypes ▸ ht)).trans_le hsymbols
  types a type ha := by
    refine (h.types a type ?_).mono hsymbols
    rw [← ha]
    unfold typeOfSymbol?
    rw [htypes, hinteger, htext]

theorem freshens_later
    (hcontexts : ∀ (c : Nat) q, k.contexts[c]? = some q → k'.contexts[c]? = some q) :
    k.Freshens k' :=
  ⟨⟨fun id _ => hrules id, fun _ _ => by rw [htypes], hinteger, htext, hcontexts⟩, hsymbols,
    h.later hsymbols hrules htypes hinteger htext⟩

end Later

/-- Journals and names do not count. -/
theorem freshens_noted {journal : List Event} {names : Names} :
    k.Freshens { k with journal, names } :=
  h.freshens_later le_rfl (fun _ => rfl) rfl rfl rfl fun _ _ h => h

theorem refl : k.Freshens k := h.freshens_noted

private theorem withRule {r : Rule} (hid : id < k.nextSymbol)
    (hfree : k.rules.ruleFor? id = none) (hr : ∀ t ∈ r.terms, t.Known k.nextSymbol) :
    (k.withRule id r).Grounded where
  __ := h
  primitiveRules := h.primitiveRules.trans (sub_install r hfree)
  ruled id' r' hr' := by
    rw [Kernel.withRule, ruleFor?_install] at hr'
    split at hr'
    · next heq => exact heq ▸ hid
    · exact h.ruled id' r' hr'
  rules id' r' hr' := by
    rw [Kernel.withRule, ruleFor?_install] at hr'
    split at hr'
    · cases hr'
      exact hr
    · exact h.rules id' r' hr'

private theorem withRules {rules : List (Nat × Rule)} (hdistinct : (rules.map Prod.fst).Nodup)
    (hids : ∀ x ∈ rules, x.1 < k.nextSymbol) (hfree : ∀ x ∈ rules, k.rules.ruleFor? x.1 = none)
    (hrules : ∀ x ∈ rules, ∀ t ∈ x.2.terms, t.Known k.nextSymbol) :
    (k.withRules rules).Grounded := by
  induction rules generalizing k with
  | nil => exact h
  | cons x rules ih =>
    rw [map_cons, nodup_cons] at hdistinct
    rw [forall_mem_cons] at hids hfree hrules
    rw [withRules_cons]
    refine ih (h.withRule hids.1 hfree.1 hrules.1) hdistinct.2 hids.2 (fun y hy => ?_) hrules.2
    have hne : x.1 ≠ y.1 := fun heq => hdistinct.1 (heq ▸ mem_map_of_mem hy)
    rw [Kernel.withRule, ruleFor?_install, if_neg hne]
    exact hfree.2 y hy

theorem withType (hid : id < k.nextSymbol) (hprimitive : Primitive.count ≤ id)
    (htype : type.Known k.nextSymbol) : Grounded { k with types := k.types.set id type } where
  __ := h
  primitiveTypes x hx := by
    have hlt : x.1 < Primitive.count := by
      revert x
      decide
    rw [get?_set, if_neg (hlt.trans_le hprimitive).ne']
    exact h.primitiveTypes x hx
  typed id' type' ht := by
    rw [get?_set] at ht
    split at ht
    · next heq => exact heq ▸ hid
    · exact h.typed id' type' ht
  types a type' ha := by
    have hsymbol : ∀ id', (k.types.set id type).get? id' = some type' →
        (∀ type', k.types.get? id' = some type' → type'.Known k.nextSymbol) →
        type'.Known k.nextSymbol := by
      intro id' hget hold
      rw [get?_set] at hget
      split at hget
      · cases hget
        exact htype
      · exact hold type' hget
    cases a with
    | postulate id' => exact hsymbol id' ha fun type' => h.types (.postulate id') type'
    | decl id' => exact hsymbol id' ha fun type' => h.types (.decl id') type'
    | leaf l => exact h.types (.leaf l) type' ha
    | _ => cases ha

end

/-- Nothing but the built-in symbols is there in the beginning. -/
theorem initial : Kernel.initial.Grounded where
  primitives := le_rfl
  primitiveRules := .refl _
  primitiveTypes := by decide
  ruled := forall_get? (t := Kernel.initial.rules.rules) (by decide)
  rules id r hr t ht := by
    have hdecls : ∀ x ∈ Primitive.rules, ∀ t ∈ x.2.terms, ∀ id ∈ t.decls, id < Primitive.count := by
      decide
    exact all_declIn.2 (hdecls _ (mem_of_get? hr) t ht)
  typed := forall_get? (by decide)
  types a type ha := by
    have hdecls : ∀ x ∈ Primitive.types, ∀ id ∈ x.2.decls, id < Primitive.count := by decide
    have hsymbol : ∀ id, Kernel.initial.types.get? id = some type →
        type.Known Kernel.initial.nextSymbol :=
      fun id ht => all_declIn.2 (hdecls (id, type) (mem_of_get? ht))
    cases a with
    | postulate id | decl id => exact hsymbol id ha
    | leaf l => cases l <;> cases ha
    | _ => cases ha

theorem not_ruled (h : k.Grounded) (hid : k.nextSymbol ≤ id) : k.rules.ruleFor? id = none := by
  by_contra hne
  obtain ⟨r, hr⟩ := Option.ne_none_iff_exists'.1 hne
  exact absurd (h.ruled id r hr) (not_lt.2 hid)

end Grounded

/-- A new symbol may be given a type. -/
theorem Freshens.withType (hk : k.Freshens k') (hid : k.nextSymbol ≤ id) (hid' : id < k'.nextSymbol)
    (hprimitive : Primitive.count ≤ id) (htype : type.Known k'.nextSymbol) :
    k.Freshens { k' with types := k'.types.set id type } where
  __ := hk
  types id' hlt := by
    rw [get?_set, if_neg (hlt.trans_le hid).ne']
    exact hk.types id' hlt
  grounded := hk.grounded.withType hid' hprimitive htype

/-! ### What stays as it is -/

private theorem Grounded.agreeOn (h : k.Grounded) (hk : AgreesBelow k.nextSymbol k k') :
    AgreeOn (· < k.nextSymbol) k.rules k'.rules :=
  ⟨hk.rules, fun id r _ hr => h.rules id r hr⟩

/-- A normal form mentions what is made already. -/
theorem Grounded.known_of_normalizes (h : k.Grounded) (ht : t.Known k.nextSymbol)
    (hn : Normalizes k.rules t u) : u.Known k.nextSymbol := by
  obtain ⟨depth, hrun⟩ := hn
  have hsame : AgreeOn (· < k.nextSymbol) k.rules k.rules :=
    h.agreeOn (h.refl).toAgreesBelow
  exact Reduction.all_declIn_of_run? hsame (fun _ _ hu => by cases hu) depth .full ht hrun

/-- New symbols change no normal form. -/
theorem Grounded.normalizes_iff (h : k.Grounded) (hk : k.Freshens k') (ht : t.Known k.nextSymbol) :
    Normalizes k'.rules t u ↔ Normalizes k.rules t u := by
  have hagree := h.agreeOn hk.toAgreesBelow
  refine exists_congr fun depth => ?_
  rw [Reduction.run?_of_agreeOn hagree (fun _ _ hu => by cases hu) depth .full ht]

theorem Freshens.sub (hk : k.Freshens k') (h : k.Grounded) : k.rules.Sub k'.rules :=
  fun id r hr => (hk.rules id (h.ruled id r hr)).trans hr

private theorem Freshens.typeOfSymbol? (hk : k.Freshens k') (h : k.Grounded)
    (ht : k.typeOfSymbol? t = some type) : k'.typeOfSymbol? t = some type := by
  cases t with
  | postulate id => exact (hk.types id (h.typed id type ht)).trans ht
  | decl id => exact (hk.types id (h.typed id type ht)).trans ht
  | leaf l =>
    rw [← ht]
    unfold typeOfSymbol?
    rw [hk.integerType, hk.textType]
  | _ => cases ht

end Kernel

/-! ### Telescopes -/

namespace Telescope

open Kernel (Grounded Freshens AgreesBelow)

theorem freshens_root (h : k.Grounded) (hroot : root k = .ok tele k') :
    k.Freshens k' ∧ tele.Known k'.nextSymbol := by
  cases hroot
  have hprimitive : ∀ id < Primitive.count, id < k.nextSymbol :=
    fun id hid => hid.trans_le h.primitives
  refine ⟨h.freshens_later le_rfl (fun _ => rfl) rfl rfl rfl fun c q hq => ?_, ?_⟩
  · have hc : c < k.contexts.size := (Array.getElem?_eq_some_iff.1 hq).1
    rw [Array.getElem?_push, if_neg hc.ne, hq]
  · exact ⟨known_postulate _, ⟨known_decl.2 (hprimitive 4 (by decide)), known_postulate _⟩, nofun⟩

/-- Binding an argument makes new symbols only. -/
theorem Bound.freshens (hbound : Bound tele type k tele' k') (h : k.Grounded)
    (htele : tele.Known k.nextSymbol) (htype : type.Known k.nextSymbol) :
    k.Freshens k' ∧ tele'.Known k'.nextSymbol := by
  have hsymbols := hbound.symbols
  have hle : k.nextSymbol ≤ k'.nextSymbol := hsymbols ▸ Nat.le_add_right _ 5
  have htype' := htype.mono hle
  have hpi := htele.pi.mono hle
  have hnew : ∀ i < 5, (decl (k.nextSymbol + i)).Known k'.nextSymbol :=
    fun i hi => known_decl.2 (hsymbols ▸ Nat.add_lt_add_left hi _)
  have hknown : ∀ x ∈ tele.boundRules type k.nextSymbol, ∀ t ∈ x.2.terms,
      t.Known k'.nextSymbol := by
    have hshifted : ∀ x ∈ (range tele.depth).map fun i => arg (i + 1),
        x.Known k'.nextSymbol := by
      intro x hx
      obtain ⟨i, _, rfl⟩ := mem_map.1 hx
      exact known_arg _
    simp only [boundRules, forall_mem_cons, Rule.terms_lambda]
    refine ⟨⟨htype', forall_mem_nil _⟩, ⟨known_postulate _, forall_mem_nil _⟩,
      ⟨?_, forall_mem_nil _⟩, ⟨?_, forall_mem_nil _⟩, ⟨?_, forall_mem_nil _⟩, forall_mem_nil _⟩
    · exact Primitive.known_arrowOf.2 ⟨htype', known_applyArgs (hnew 1 (by decide))⟩
    · refine Primitive.known_arrowOf.2 ⟨?_, ?_⟩
      · exact known_apply.2 ⟨hnew 0 (by decide), hshifted⟩
      · exact known_apply.2 ⟨known_arg 0, hshifted⟩
    · exact ⟨hpi, hnew 3 (by decide), known_arg 0⟩
  have hids : ∀ x ∈ tele.boundRules type k.nextSymbol, k.nextSymbol ≤ x.1 ∧ x.1 < k'.nextSymbol :=
    fun x hx => hsymbols ▸ fst_mem_of_mem_boundRules hx
  have htele' := hbound.telescope
  obtain ⟨names, rfl⟩ := hbound.kernel
  rw [nextSymbol_withRules] at hids hknown
  have hmade : k.Freshens { k with
      nextSymbol := k.nextSymbol + 5
      rules := k.rules.registerAll (range' k.nextSymbol 5)
      names } :=
    h.freshens_later hle (fun id => by simp) rfl rfl rfl fun _ _ hq => hq
  have hagrees := AgreesBelow.withRules (k := { k with
      nextSymbol := k.nextSymbol + 5
      rules := k.rules.registerAll (range' k.nextSymbol 5)
      names }) (fun x hx => (hids x hx).1)
  refine ⟨⟨hmade.toAgreesBelow.trans hagrees le_rfl, hle, ?_⟩, ?_⟩
  · refine hmade.grounded.withRules (by simp [boundRules]) (fun x hx => (hids x hx).2) ?_ hknown
    exact fun x hx => by simpa using hbound.free x hx
  · rw [htele']
    refine ⟨⟨hpi, hnew 2 (by decide)⟩, hnew 4 (by decide), ?_⟩
    exact forall_mem_cons.2 ⟨htype', fun t ht => (htele.bound t ht).mono hle⟩

private theorem instanceOf_eq (h : k.Grounded) (e : Term) :
    tele.instanceOf e k = .ok (.app tele.pi (.decl k.nextSymbol))
      { { k with
          nextSymbol := k.nextSymbol + 1
          rules := k.rules.register k.nextSymbol }.withRule k.nextSymbol
            (.lambda (.decl k.nextSymbol) tele.depth e) with
        types := k.types.set k.nextSymbol tele.family } := by
  refine Ends.eq_ok ?_
  have hfree := h.not_ruled (Nat.le_refl k.nextSymbol)
  unfold instanceOf
  rw [Ends.bind_iff, KernelM.ends_declare]
  refine KernelM.ends_addRule_bind rfl (mem_registered_register.2 (.inl rfl))
    (fun _ => ⟨rfl, rfl⟩) fun hrule => ?_
  simp [hasRule, hfree] at hrule

theorem freshens_instanceOf (h : k.Grounded) (htele : tele.Known k.nextSymbol)
    (ht : t.Known k.nextSymbol) (hok : tele.instanceOf t k = .ok u k') :
    k.Freshens k' ∧ u.Known k'.nextSymbol := by
  rw [instanceOf_eq h] at hok
  cases hok
  have hle := Nat.le_succ k.nextSymbol
  have hmade : k.Freshens { k with
      nextSymbol := k.nextSymbol + 1
      rules := k.rules.register k.nextSymbol } :=
    h.freshens_later hle (fun id => by simp) rfl rfl rfl fun _ _ hq => hq
  have hruled := hmade.grounded.withRule
    (r := .lambda (.decl k.nextSymbol) tele.depth t) (Nat.lt_succ_self k.nextSymbol)
    (by simpa using h.not_ruled (Nat.le_refl k.nextSymbol))
    (by simpa [Rule.terms_lambda] using ht.mono hle)
  refine ⟨⟨⟨fun id hid => ?_, fun id hid => ?_, rfl, rfl, fun _ _ hq => hq⟩, hle, ?_⟩, ?_⟩
  · simp [withRule, ruleFor?_install, hid.ne']
  · exact (get?_set ..).trans (if_neg hid.ne')
  · exact hruled.withType (Nat.lt_succ_self k.nextSymbol) h.primitives (htele.family.mono hle)
  · exact ⟨htele.pi.mono hle, known_decl.2 (Nat.lt_succ_self _)⟩

end Telescope
end Elaboration

namespace Elaboration

open List Primitive

namespace Telescope

open Reduction
open Term (Plain firstArgs)

/-- The term is normalised to a function type without placeholders, whose codomain at the first
argument is one, and so on; `type` is the last codomain. -/
inductive Applies (R : RuleTable) : Term → List Term → Term → Prop where
  | done {t : Term} : Applies R t [] t
  | step {domain codomain a t type : Term} {args : List Term} :
      Normalizes R t (Primitive.arrowOf domain codomain) →
      (Primitive.arrowOf domain codomain).All Plain → Applies R (.app codomain a) args type →
      Applies R t (a :: args) type

/-- The type of a head. -/
def headType? (tele : Telescope) (k : Kernel) : Term → Option Term
  | .arg i => tele.typeOfArg? i
  | head => k.typeOfSymbol? head

/-- The type of the term is read to be `type`. -/
def Reads (tele : Telescope) (k : Kernel) (t type : Term) : Prop :=
  ∃ head, tele.headType? k t.head = some head ∧ Applies k.rules head t.args type

/-- The types of the bound arguments have normal forms, and these mention no placeholder. -/
def Clear (tele : Telescope) (k : Kernel) : Prop :=
  ∀ type ∈ tele.boundTypes, ∃ n, Normalizes k.rules type n ∧ n.All Plain

variable {R : RuleTable} {tele : Telescope} {k k' k1 : Kernel} {types args : List Term}
  {t u e f x a type domain codomain : Term}

theorem headType?_eq_some_iff : tele.headType? k a = some type ↔
    (∃ i, a = .arg i ∧ tele.typeOfArg? i = some type) ∨ k.typeOfSymbol? a = some type := by
  cases a with
  | arg i => simp [headType?, Kernel.typeOfSymbol?]
  | _ => simp [headType?]

/-! ### Function types on the way -/

namespace Applies

private theorem snoc (h : Applies R t args type) (hn : Normalizes R type (arrowOf domain codomain))
    (hplain : (arrowOf domain codomain).All Plain) :
    Applies R t (args ++ [x]) (.app codomain x) := by
  induction h with
  | done => exact .step hn hplain .done
  | step ht hplain' _ ih => exact .step ht hplain' (ih hn)

private theorem of_normalizes (h : Applies R t args type) (hargs : args ≠ [])
    (htu : ∀ m, Normalizes R t m → Normalizes R u m) : Applies R u args type := by
  cases h with
  | done => exact absurd rfl hargs
  | step ht hplain h => exact .step (htu _ ht) hplain h

private theorem later (h : Applies k.rules t args type) (hk : k.Grounded) (hle : k.Freshens k')
    (ht : t.Known k.nextSymbol) (hargs : ∀ a ∈ args, a.Known k.nextSymbol) :
    Applies k'.rules t args type ∧ type.Known k.nextSymbol := by
  induction h with
  | done => exact ⟨.done, ht⟩
  | step hn hplain _ ih =>
    rw [forall_mem_cons] at hargs
    have harrow := hk.known_of_normalizes ht hn
    obtain ⟨h, htype⟩ := ih ⟨harrow.2, hargs.1⟩ hargs.2
    exact ⟨.step ((hk.normalizes_iff hle ht).2 hn) hplain h, htype⟩

end Applies

private theorem Built.reverse_boundTypes (h : Built types tele k) :
    tele.boundTypes.reverse = types := by
  induction h with
  | root _ _ hroot =>
    cases hroot
    rfl
  | extend _ hextend ih =>
    obtain rfl := ((ends_extend ..).of_ok hextend).telescope
    rw [← ih, ← reverse_cons]
    rfl
  | later _ _ _ _ ih => exact ih

private theorem firstArgs_succ (d : Nat) : firstArgs (d + 1) = firstArgs d ++ [.arg d] := by
  rw [firstArgs, range_succ, map_append, firstArgs, map_singleton]

theorem all_plain_firstArgs {d : Nat} : ∀ x ∈ firstArgs d, x.All Plain := by
  intro x hx
  obtain ⟨i, -, rfl⟩ := mem_map.1 hx
  exact nofun

theorem normalizes_firstArgs (R : RuleTable) (d : Nat) :
    Forall₂ (Normalizes R) (firstArgs d) (firstArgs d) := by
  rw [forall₂_same]
  intro x hx
  obtain ⟨i, -, rfl⟩ := mem_map.1 hx
  exact normalizes_arg R i

private theorem Built.applies_pi {g : Term} (h : Built types tele k) (hR : k.rules.Sub R)
    (htypes : ∀ type ∈ types, ∃ n, Normalizes R type n ∧ n.All Plain)
    (hg : ∀ i < types.length, ∃ n, Normalizes R (g.apply (firstArgs i)) n ∧ n.All Plain) :
    ∃ type, Applies R (.app tele.pi g) (firstArgs types.length) type ∧
      ∀ n, Normalizes R (g.apply (firstArgs types.length)) n → Normalizes R type n := by
  induction h generalizing g with
  | @root tele k k' hsub _ hroot =>
    cases hroot
    refine ⟨_, .done, fun n hn => ?_⟩
    have hidentity : R.ruleFor? 4 = some (.lambda Primitive.identity 2 (.arg 1)) :=
      hR _ _ (hsub _ _ rfl)
    change Normalizes R ((Term.decl 4).apply [Primitive.type, g]) n
    exact normalizes_lambda hidentity hn
  | @extend types tele tele' k k' type hbuilt hextend ih =>
    have hbound := (ends_extend tele type k).of_ok hextend
    have hrules := hbound.hasRules hR
    have hstanding := hbuilt.standing
    obtain rfl := hbound.telescope
    rw [forall_mem_append, forall_mem_singleton] at htypes
    rw [length_append, length_singleton] at hg ⊢
    have hlen : (firstArgs types.length).length = tele.depth := by
      rw [Term.length_firstArgs, hstanding.depth]
    -- the functions from the last argument into the family are a family over the others
    have hfibration : ∀ i < types.length, ∃ n,
        Normalizes R ((Term.app (.decl (k.nextSymbol + 3)) g).apply (firstArgs i)) n ∧
          n.All Plain := by
      intro i hi
      obtain ⟨m, hm, hplain⟩ := hg 0 (Nat.succ_pos _)
      simp only [boundRules, forall_mem_cons] at hrules
      obtain ⟨-, -, -, hrule, -⟩ := hrules
      refine ⟨_, normalizes_partial hrule ?_ (.cons hm (normalizes_firstArgs R i)), ?_⟩
      · change (firstArgs i).length + 1 < tele.depth + 1
        rw [Term.length_firstArgs, hstanding.depth]
        exact Nat.succ_lt_succ hi
      · exact Term.all_apply.2 ⟨Term.plain_decl _, forall_mem_cons.2 ⟨hplain, all_plain_firstArgs⟩⟩
    obtain ⟨type', happlies, htype'⟩ := ih (hbound.extends.rules.trans hR) htypes.1 hfibration
    obtain ⟨domain, hdomain, hdomainPlain⟩ := htypes.2
    obtain ⟨codomain, hcodomain, hcodomainPlain⟩ := hg types.length (Nat.lt_succ_self _)
    have harrow : Normalizes R type' (arrowOf domain codomain) := by
      refine htype' _ (normalizes_fibration hrules hlen ?_ hcodomain)
      rwa [subst_firstArgs]
    have hplain : (arrowOf domain codomain).All Plain :=
      ⟨⟨Term.plain_postulate _, hdomainPlain⟩, hcodomainPlain⟩
    have hall := happlies.snoc (x := .arg types.length) harrow hplain
    rw [firstArgs_succ, Term.apply_append]
    refine ⟨_, hall.of_normalizes (by simp) fun m hm => ?_, fun n hn => hn.app_left hcodomain⟩
    exact normalizes_pi hrules hstanding.pi hm
  | later _ hsub _ _ ih => exact ih (hsub.trans hR) htypes hg

/-- A symbol whose type was made for a type over the telescope, applied to the arguments of the
telescope, is read to have that type. -/
theorem Instantiated.reads (h : Instantiated tele e k t k') (hbuilt : Built types tele k)
    (hsub : k'.rules.Sub k1.rules) (hclear : tele.Clear k1) (ha : k1.typeOfSymbol? a = some t) :
    ∃ type, tele.Reads k1 (tele.applyArgs a) type ∧
      ∀ n, Normalizes k1.rules e n → Normalizes k1.rules type n := by
  have hdepth := hbuilt.standing.depth
  have hrule : k1.rules.ruleFor? k.nextSymbol =
      some (.lambda (.decl k.nextSymbol) types.length e) := by
    refine hsub _ _ ?_
    obtain ⟨_, rfl⟩ := h.kernel
    rw [← hdepth]
    simp [Kernel.withRule, RuleTable.ruleFor?_install]
  have hfamily : ∀ i < types.length, ∃ n,
      Normalizes k1.rules ((Term.decl k.nextSymbol).apply (firstArgs i)) n ∧ n.All Plain := by
    intro i hi
    refine ⟨_, normalizes_partial hrule ?_ (normalizes_firstArgs _ i), ?_⟩
    · exact (Term.length_firstArgs i).symm ▸ hi
    · exact Term.all_apply.2 ⟨Term.plain_decl _, all_plain_firstArgs⟩
  have htypes : ∀ type ∈ types, ∃ n, Normalizes k1.rules type n ∧ n.All Plain := by
    intro type htype
    rw [← hbuilt.reverse_boundTypes] at htype
    exact hclear type (mem_reverse.1 htype)
  obtain ⟨type, happlies, htype⟩ :=
    hbuilt.applies_pi (h.extends.rules.trans hsub) htypes hfamily
  have hatom : a.head = a ∧ a.args = [] := by
    cases a with
    | app | arg => cases ha
    | _ => exact ⟨rfl, rfl⟩
  refine ⟨type, ⟨t, ?_, ?_⟩, fun n hn => htype n ?_⟩
  · rw [Telescope.applyArgs, Term.applyArgs, Term.head_apply, hatom.1]
    exact headType?_eq_some_iff.2 (.inr ha)
  · rw [Telescope.applyArgs, Term.applyArgs, Term.args_apply, hatom.2, hdepth, h.term]
    exact happlies
  · rw [← Term.length_firstArgs types.length] at hrule
    exact normalizes_lambda hrule (by rwa [subst_firstArgs])

namespace Reads

theorem app (h : tele.Reads k f type) (hn : Normalizes k.rules type (arrowOf domain codomain))
    (hplain : (arrowOf domain codomain).All Plain) :
    tele.Reads k (.app f x) (.app codomain x) := by
  obtain ⟨head, hhead, happlies⟩ := h
  refine ⟨head, hhead, ?_⟩
  rw [Term.args_app]
  exact happlies.snoc hn hplain

/-- New symbols change no type. -/
theorem later (h : tele.Reads k t type) (hk : k.Grounded) (hle : k.Freshens k')
    (htele : tele.Known k.nextSymbol) (ht : t.Known k.nextSymbol) :
    tele.Reads k' t type ∧ type.Known k.nextSymbol := by
  obtain ⟨head, hhead, happlies⟩ := h
  have hknown : head.Known k.nextSymbol ∧ tele.headType? k' t.head = some head := by
    obtain ⟨i, ha, hi⟩ | ha := headType?_eq_some_iff.1 hhead
    · refine ⟨htele.bound head ?_, headType?_eq_some_iff.2 (.inl ⟨i, ha, hi⟩)⟩
      exact mem_reverse.1 (mem_of_getElem? hi)
    · exact ⟨hk.types _ head ha, headType?_eq_some_iff.2 (.inr (hle.typeOfSymbol? hk ha))⟩
  obtain ⟨happlies', htype⟩ := happlies.later hk hle hknown.1 (Term.All.args ht)
  exact ⟨⟨head, hknown.2, happlies'⟩, htype⟩

/-- Under one more argument the types stay as they are. -/
theorem bound (h : tele.Reads k t type) {first : Nat} {u : Term} :
    (tele.bound u first).Reads k t type := by
  obtain ⟨head, hhead, happlies⟩ := h
  refine ⟨head, headType?_eq_some_iff.2 ?_, happlies⟩
  obtain ⟨i, ha, hi⟩ | ha := headType?_eq_some_iff.1 hhead
  · refine .inl ⟨i, ha, ?_⟩
    change (u :: tele.boundTypes).reverse[i]? = some head
    have hlt : i < tele.boundTypes.reverse.length := (List.getElem?_eq_some_iff.1 hi).1
    rw [reverse_cons, getElem?_append_left hlt]
    exact hi
  · exact .inr ha

end Reads

/-! ### Reading by actions -/

private theorem typeOf_eq (tele : Telescope) (t : Term) (k : Kernel) :
    tele.typeOf t k = (match tele.headType? k t.head with
      | some type => tele.typeOfApplied type t.args
      | none => pure none : KernelM (Option Term)) k := rfl

/-- Where nothing is assumed, a term is reduced by the rules alone, to a term without placeholders.
-/
theorem AssumesNothing.ends_reduceClean (h : tele.AssumesNothing k) (t : Term) :
    Ends (tele.reduceClean t) k
      (fun u k' => k' = k ∧ Normalizes k.rules t u ∧ u.All Plain) fun _ _ => True := by
  unfold reduceClean
  refine (h.ends_reduce t).bind ?_ fun _ _ _ => trivial
  rintro u k' ⟨hrun, rfl⟩
  rw [h.ends_eliminate_iff]
  split
  · trivial
  · next hplain =>
    exact ⟨rfl, ⟨_, hrun⟩, Term.all_hasPlaceholder.1 (Bool.eq_false_iff.2 hplain)⟩

private theorem exists_typeOfApplied (h : Applies k.rules t args type)
    (hcontext : tele.AssumesNothing k) :
    ∃ bound, ∀ limit ≥ bound, tele.typeOfApplied t args { k with limit } =
      .ok (some type) { k with limit } := by
  induction h with
  | done => exact ⟨0, fun limit _ => rfl⟩
  | @step domain codomain a t type args hn hplain _ ih =>
    obtain ⟨bound, hbound⟩ := ih
    obtain ⟨bound', hbound'⟩ := hn.eventually
    refine ⟨max bound bound', fun limit hlimit => Ends.eq_ok ?_⟩
    have hclean := ends_reduceClean_of_run? (k := { k with limit }) hcontext
      (hbound' limit ((le_max_right ..).trans hlimit)) hplain
    unfold typeOfApplied
    refine hclean.seq ?_
    rintro u k' ⟨rfl, rfl⟩
    exact (Ends.iff_of_ok (hbound limit ((le_max_left ..).trans hlimit))).2 ⟨rfl, rfl⟩

/-- What the relation says is read, where reduction may go deep enough. -/
theorem Reads.typeOf (h : tele.Reads k t type) (hcontext : tele.AssumesNothing k) :
    ∃ bound, ∀ limit ≥ bound,
      tele.typeOf t { k with limit } = .ok (some type) { k with limit } := by
  obtain ⟨head, hhead, happlies⟩ := h
  obtain ⟨bound, hbound⟩ := exists_typeOfApplied happlies hcontext
  refine ⟨bound, fun limit hlimit => ?_⟩
  have hhead' : tele.headType? { k with limit } t.head = some head := hhead
  rw [typeOf_eq, hhead']
  exact hbound limit hlimit

private theorem ends_typeOfApplied_assumesNothing (hcontext : tele.AssumesNothing k) (t : Term)
    (args : List Term) :
    Ends (tele.typeOfApplied t args) k
      (fun out _ => ∀ type, out = some type → Applies k.rules t args type) fun _ _ => True := by
  induction args generalizing t with
  | nil =>
    rintro type ⟨⟩
    exact .done
  | cons x args ih =>
    unfold typeOfApplied
    refine (hcontext.ends_reduceClean t).bind ?_ fun _ _ _ => trivial
    rintro u k' ⟨rfl, hn, hplain⟩
    split
    · next domain codomain harrow =>
      obtain rfl := eq_arrowOf harrow
      exact (ih (.app codomain x)).imp (fun out _ h type htype => .step hn hplain (h type htype))
    · exact nofun

/-- Only what the relation says is read. -/
theorem reads_of_typeOf (hcontext : tele.AssumesNothing k)
    (h : tele.typeOf t k = .ok (some type) k') : tele.Reads k t type := by
  rw [typeOf_eq] at h
  cases hhead : tele.headType? k t.head with
  | none =>
    rw [hhead] at h
    cases h
  | some head =>
    rw [hhead] at h
    exact ⟨head, hhead, (ends_typeOfApplied_assumesNothing hcontext head t.args).of_ok h type rfl⟩

end Telescope
end Elaboration
