import Elaboration.Proofs.Telescope.Actions

/-!
# What actions below a telescope keep

A footing says of a course which telescopes and terms actions may be about, and that they keep it.
Terms are judged by their atoms, below a number of arguments. Values may become parts of rules;
sides, which are reduced and equated, may not.
-/

namespace Elaboration

open Primitive Term

open KernelM

/-- What a course has to say of telescopes and of the terms below them, and that it is kept by the
actions of the kernel. -/
structure Footing (C : Course Stop Kernel) where
  Tele : Telescope → Kernel → Prop
  /-- The atoms of values. -/
  value : Nat → Term → Prop
  /-- The atoms of sides. -/
  side : Nat → Term → Prop
  tele_later {tele k k'} : C.Leads k k' → Tele tele k → Tele tele k'
  value_mono {d d' a} : d ≤ d' → value d a → value d' a
  side_mono {d d' a} : d ≤ d' → side d a → side d' a
  side_value {d a} : value d a → side d a
  value_arg {d i} : i < d → value d (.arg i)
  value_postulate {d id} : value d (.postulate id)
  value_decl {d id} : value d (.decl id)
  value_leaf {d l} : value d (.leaf l)
  note {e k} : e.ofObligation = false → C.Keeps (note e) k fun _ _ => True
  freshSymbol {k} : C.Keeps freshSymbol k fun _ _ => True
  register {k} (id : Nat) : C.Keeps (register (.decl id)) k fun _ _ => True
  addLambda {arity replacement k} (head : Term) : replacement.All (value arity) →
    C.Keeps (addRule (.lambda head arity replacement)) k fun _ _ => True
  extend {tele type k} : Tele tele k → type.All (value tele.depth) →
    C.Keeps (tele.extend type) k fun inner k' => Tele inner k'

namespace Footing

variable {C : Course Stop Kernel}

/-- A term that may become part of a rule with `d` captures. -/
abbrev Value (F : Footing C) (d : Nat) (t : Term) : Prop := t.All (F.value d)

/-- A term below `d` arguments. -/
abbrev Side (F : Footing C) (d : Nat) (t : Term) : Prop := t.All (F.side d)

/-- What reading and registering types relies on besides: types are sides, and values once they are
reduced and freed of placeholders. -/
structure Reads (F : Footing C) : Prop where
  family {tele k} : F.Tele tele k → F.Side 0 tele.family
  pi {tele k} : F.Tele tele k → F.Side 0 tele.pi
  typeOfArg {tele i type k} : F.Tele tele k → tele.typeOfArg? i = some type → F.Side tele.depth type
  typeOfSymbol {t type k} : C.Holds k → k.typeOfSymbol? t = some type → F.Side 0 type
  setName {k} (t : Term) (name : String) : C.Keeps (setName t name) k fun _ _ => True
  setType {type k} (t : Term) : F.Side 0 type → C.Keeps (setType t type) k fun _ _ => True
  reduceClean {tele t k} : F.Tele tele k → F.Side tele.depth t →
    C.Keeps (tele.reduceClean t) k fun u _ => F.Value tele.depth u
  assume {tele t u k} : F.Tele tele k → F.Side tele.depth t → F.Side tele.depth u →
    C.Keeps (tele.assume t u) k fun inner k' => F.Tele inner k'

variable {F : Footing C} {tele : Telescope} {type t : Term} {k : Kernel} {d d' : Nat}

/-- Values are values at higher levels. -/
theorem Value.mono (h : F.Value d t) (hd : d ≤ d') : F.Value d' t :=
  All.mono h fun _ => F.value_mono hd

/-- Sides are sides at higher levels. -/
theorem Side.mono (h : F.Side d t) (hd : d ≤ d') : F.Side d' t :=
  All.mono h fun _ => F.side_mono hd

/-- Values are sides. -/
theorem Value.side (h : F.Value d t) : F.Side d t :=
  All.mono h fun _ => F.side_value

theorem value_applyArgs (h : F.Value d t) : F.Value d (t.applyArgs d) := by
  refine all_apply.2 ⟨h, fun x hx => ?_⟩
  obtain ⟨i, hi, rfl⟩ := List.mem_map.1 hx
  exact F.value_arg (List.mem_range.1 hi)

theorem value_arrowOf {domain codomain : Term} (hdomain : F.Value d domain)
    (hcodomain : F.Value d codomain) : F.Value d (arrowOf domain codomain) :=
  ⟨⟨F.value_postulate, hdomain⟩, hcodomain⟩

/-! ### New symbols -/

/-- Making a postulate keeps the course. -/
theorem keeps_freshPostulate (F : Footing C) :
    C.Keeps freshPostulate k fun t _ => ∃ id, t = .postulate id :=
  F.freshSymbol.bind fun id _ _ _ => .pure ⟨id, rfl⟩

theorem keeps_freshDeclaration (F : Footing C) :
    C.Keeps freshDeclaration k fun t _ => ∃ id, t = .decl id :=
  F.freshSymbol.bind fun id _ _ _ => .pure ⟨id, rfl⟩

private theorem keeps_declare (F : Footing C) :
    C.Keeps declare k fun t _ => ∃ id, t = .decl id := by
  refine F.keeps_freshDeclaration.bind ?_
  rintro _ k1 _ ⟨id, rfl⟩
  exact (F.register id).bind fun _ _ _ _ => .pure ⟨id, rfl⟩

/-- Closing a type keeps the course. -/
theorem keeps_instanceOf (hF : F.Reads) (h : F.Tele tele k) (htype : F.Value tele.depth type) :
    C.Keeps (tele.instanceOf type) k fun t _ => F.Side 0 t := by
  refine F.keeps_declare.bind ?_
  rintro _ k1 _ ⟨id, rfl⟩
  refine (F.addLambda _ htype).bind fun _ k2 _ _ => ?_
  refine (hF.setType _ (hF.family h)).bind fun _ k3 _ _ => ?_
  exact .pure ⟨hF.pi h, F.side_value F.value_decl⟩

private theorem keeps_typeOfApplied (hF : F.Reads) {args : List Term} (h : F.Tele tele k)
    (htype : F.Side tele.depth type) (hargs : ∀ x ∈ args, F.Side tele.depth x) :
    C.Keeps (tele.typeOfApplied type args) k fun out _ => ∀ u, out = some u →
      F.Side tele.depth u := by
  induction args generalizing type k with
  | nil =>
    refine .pure ?_
    rintro u ⟨⟩
    exact htype
  | cons x args ih =>
    rw [List.forall_mem_cons] at hargs
    refine (hF.reduceClean h htype).bind fun reduced k1 hle hreduced => ?_
    split
    · next hparts =>
      have hcodomain := (all_of_asArrow? hparts hreduced).2
      exact ih (F.tele_later hle h) ⟨Value.side hcodomain, hargs.1⟩ hargs.2
    · exact .pure nofun

theorem keeps_typeOf (hF : F.Reads) (h : F.Tele tele k) (ht : F.Side tele.depth t) :
    C.Keeps (tele.typeOf t) k fun out _ => ∀ u, out = some u → F.Side tele.depth u := by
  refine .of_holds fun hk => .get_bind ?_
  dsimp only
  split
  · next type htype =>
    refine keeps_typeOfApplied hF h ?_ (All.args ht)
    split at htype
    · exact hF.typeOfArg h htype
    · exact Side.mono (hF.typeOfSymbol hk htype) (Nat.zero_le _)
  · exact .pure nofun

theorem keeps_functionParts (hF : F.Reads) (h : F.Tele tele k) (ht : F.Side tele.depth t) :
    C.Keeps (tele.functionParts t) k fun out _ =>
      ∀ domain codomain, out = some (domain, codomain) → F.Value tele.depth domain := by
  refine (keeps_typeOf hF h ht).bind fun out k1 hle hout => ?_
  cases out with
  | none => exact .pure nofun
  | some type =>
    refine (hF.reduceClean (F.tele_later hle h) (hout type rfl)).bind
      fun reduced k2 _ hreduced => ?_
    exact .pure fun _ _ hparts => (all_of_asArrow? hparts hreduced).1

end Footing
end Elaboration
