import Elaboration.Proofs.Equalities.Level
import Elaboration.Proofs.Telescope.Footing

/-!
# Levels of telescopes

A kernel is closed if its rules are and its types mention no argument. In a levelled telescope bound
types and assumptions mention only arguments bound outside them, and the context is below the depth.
Actions keep the kernel closed and lead from levelled telescopes to levelled ones.
-/

namespace Elaboration

open Equalities Table
namespace Kernel

/-- Every rule is closed, and no registered type mentions an argument. -/
structure Closed (k : Kernel) : Prop where
  rules : k.rules.Closed
  types : ∀ id t, k.types.get? id = some t → t.Below 0
  integerType : ∀ t, k.integerType = some t → t.Below 0
  textType : ∀ t, k.textType = some t → t.Below 0

variable {k k' k'' : Kernel}

private theorem Closed.typeOfSymbol? (hk : k.Closed) {t type : Term}
    (h : k.typeOfSymbol? t = some type) : type.Below 0 := by
  unfold Kernel.typeOfSymbol? at h
  split at h
  · exact hk.types _ _ h
  · exact hk.types _ _ h
  · split at h
    · exact hk.integerType _ h
    · exact hk.textType _ h
  · cases h

theorem closed_initial : Kernel.initial.Closed where
  rules := forall_get? (t := Kernel.initial.rules.rules) (by decide)
  types := forall_get? (by decide)
  integerType _ h := nomatch h
  textType _ h := nomatch h

private theorem Closed.withRules {rules : List (Nat × Rule)} (hk : k.Closed)
    (h : ∀ x ∈ rules, x.2.Closed) : (k.withRules rules).Closed := by
  induction rules generalizing k with
  | nil => exact hk
  | cons x rules ih =>
    rw [List.forall_mem_cons] at h
    exact ih { hk with rules := hk.rules.install h.1 } h.2

/-- Every context is still there, and below the levels that it was below. -/
structure Upholds (k k' : Kernel) : Prop where
  contexts : k.contexts.size ≤ k'.contexts.size
  below : ∀ c < k.contexts.size, ∀ d, (k.equalities c).Below d → (k'.equalities c).Below d

theorem Upholds.of_contexts (h : k'.contexts = k.contexts) : k.Upholds k' where
  contexts := Nat.le_of_eq (by rw [h])
  below c _ d hc := by
    unfold equalities at hc ⊢
    rwa [h]

theorem Upholds.refl (k : Kernel) : k.Upholds k := .of_contexts rfl

private theorem Upholds.trans (h : k.Upholds k') (h' : k'.Upholds k'') : k.Upholds k'' where
  contexts := h.contexts.trans h'.contexts
  below c hc d hd := h'.below c (hc.trans_le h.contexts) d (h.below c hc d hd)

private theorem upholds_withContext {c : Nat} {s : State}
    (h : ∀ d, (k.equalities c).Below d → s.equalities.Below d) : k.Upholds (k.withContext c s) where
  contexts := by simp [withContext]
  below c' hc' d hd := by
    by_cases hcc : c = c'
    · subst hcc
      rw [equalities_withContext hc']
      exact h d hd
    · rwa [equalities_withContext_of_ne hcc]

private theorem equalities_push_of_lt {q : Equalities} {c : Nat} (hc : c < k.contexts.size) :
    equalities { k with contexts := k.contexts.push q } c = k.equalities c := by
  simp [equalities, Array.getElem?_push, hc.ne]

private theorem equalities_push_size (k : Kernel) (q : Equalities) :
    equalities { k with contexts := k.contexts.push q } k.contexts.size = q := by
  simp [equalities]

private theorem upholds_push (k : Kernel) (q : Equalities) :
    k.Upholds { k with contexts := k.contexts.push q } where
  contexts := by simp
  below c hc d hd := by rwa [equalities_push_of_lt hc]

end Kernel

/-! ### Actions -/

namespace KernelM

/-- The kernel stays closed, and contexts keep to their levels. -/
def closing : Course Stop Kernel where
  Holds := Kernel.Closed
  Leads := Kernel.Upholds
  Stops _ _ _ := True
  refl _ := .refl _
  trans := .trans
  stops _ h := h

variable {α : Type} {x : KernelM α} {k : Kernel} {Q : α → Kernel → Prop}

private theorem levels_of_ends (h : Ends x k
    (fun a k' => (k'.rules = k.rules ∧ k'.types = k.types ∧ k'.integerType = k.integerType ∧
      k'.textType = k.textType ∧ k'.contexts = k.contexts) ∧ Q a k') fun _ _ => True) :
    closing.Keeps x k Q := by
  intro hk
  refine h.imp ?_
  rintro a k' ⟨⟨hrules, htypes, hinteger, htext, hcontexts⟩, ha⟩
  refine ⟨⟨hrules ▸ hk.rules, ?_, ?_, ?_⟩, .of_contexts hcontexts, ha⟩
  · rw [htypes]
    exact hk.types
  · rw [hinteger]
    exact hk.integerType
  · rw [htext]
    exact hk.textType

private theorem levels_note (e : Event) : closing.Keeps (note e) k fun _ _ => True :=
  levels_of_ends ⟨⟨rfl, rfl, rfl, rfl, rfl⟩, trivial⟩

private theorem levels_setName (t : Term) (name : String) :
    closing.Keeps (setName t name) k fun _ _ => True :=
  levels_of_ends (ends_setName fun _ => ⟨⟨rfl, rfl, rfl, rfl, rfl⟩, trivial⟩)

private theorem levels_freshSymbol : closing.Keeps freshSymbol k fun _ _ => True :=
  levels_of_ends ⟨⟨rfl, rfl, rfl, rfl, rfl⟩, trivial⟩

private theorem levels_register (id : Nat) :
    closing.Keeps (register (.decl id)) k fun _ _ => True :=
  fun hk => ⟨{ hk with rules := hk.rules.register id }, .of_contexts rfl, trivial⟩

private theorem levels_addRule {r : Rule} (hr : r.Closed) : closing.Keeps (addRule r) k fun _ _ =>
    True := by
  intro hk
  refine (ends_addRule r k).answer ?_
  rintro _ k' ⟨id, _, _, _, rfl⟩
  exact ⟨{ hk with rules := hk.rules.install hr }, .of_contexts rfl, trivial⟩

private theorem levels_setType (t : Term) {type : Term} (h : type.Below 0) :
    closing.Keeps (setType t type) k fun _ _ => True := by
  intro hk
  unfold setType
  split
  · next id _ =>
    refine ⟨{ hk with types := fun j u hu => ?_ }, .of_contexts rfl, trivial⟩
    rw [get?_set] at hu
    split at hu
    · cases hu
      exact h
    · exact hk.types j u hu
  · trivial

private theorem levels_freshContext (q : Equalities) : closing.Keeps (freshContext q) k fun c k' =>
    c = k.contexts.size ∧ c < k'.contexts.size ∧ k'.equalities c = q :=
  fun hk => ⟨{ hk with }, k.upholds_push q, rfl, by simp, k.equalities_push_size q⟩

private theorem levels_changeContext {c : Nat} {x : Setting → Change α}
    (hx : ∀ env : Setting, env.rules.Closed → ∀ d s, s.equalities.Below d →
      Ends (x env) s (fun _ s' => s'.equalities.Below d) fun _ _ => True) :
    closing.Keeps (changeContext c x) k fun _ _ => True := by
  intro hk
  rw [ends_changeContext]
  refine Ends.of_answer fun a s hs => ?_
  refine ⟨{ hk with }, ?_, trivial⟩
  refine Kernel.upholds_withContext fun d hd => ?_
  exact (hx k.setting hk.rules d _ hd).of_ok hs

end KernelM

open Ends Kernel List Primitive Rule Term
namespace Telescope

/-- Number of arguments that entries bind. -/
def boundCount : List Entry → Nat
  | [] => 0
  | .bound _ :: es => boundCount es + 1
  | .assumed _ _ :: es => boundCount es

/-- Every entry mentions only arguments that are bound outside it. -/
def EntriesLevelled : List Entry → Prop
  | [] => True
  | .bound type :: es => type.Below (boundCount es) ∧ EntriesLevelled es
  | .assumed lhs rhs :: es =>
    (lhs.Below (boundCount es) ∧ rhs.Below (boundCount es)) ∧ EntriesLevelled es

/-- What the telescope carries, and its context in the kernel, keep to its levels. -/
structure Levelled (k : Kernel) (tele : Telescope) : Prop where
  entries : EntriesLevelled tele.entries
  family : tele.family.Below 0
  pi : tele.pi.Below 0
  context : tele.context < k.contexts.size
  equalities : (k.equalities tele.context).Below tele.depth

variable {k k' : Kernel} {tele : Telescope} {t u type : Term}

private theorem depth_eq_boundCount (tele : Telescope) : tele.depth = boundCount tele.entries := by
  obtain ⟨entries, family, pi, context⟩ := tele
  unfold depth boundTypes
  induction entries with
  | nil => rfl
  | cons e entries ih =>
    cases e with
    | bound type => exact congrArg (· + 1) ih
    | assumed lhs rhs => exact ih

private theorem Levelled.later (h : tele.Levelled k) (hup : k.Upholds k') : tele.Levelled k' :=
  { h with
    context := h.context.trans_le hup.contexts
    equalities := hup.below _ h.context _ h.equalities }

private theorem below_of_mem_boundTypes {entries : List Entry} {family pi : Term} {context : Nat}
    (h : EntriesLevelled entries) :
    ∀ type ∈ boundTypes ⟨entries, family, pi, context⟩, type.Below (boundCount entries) := by
  induction entries with
  | nil => exact nofun
  | cons e entries ih =>
    cases e with
    | bound type =>
      refine forall_mem_cons.2 ⟨h.1.mono (Nat.le_succ _), fun u hu => ?_⟩
      exact (ih h.2 u hu).mono (Nat.le_succ _)
    | assumed lhs rhs => exact ih h.2

private theorem Levelled.typeOfArg? (h : tele.Levelled k) {i : Nat}
    (hi : tele.typeOfArg? i = some type) :
    type.Below tele.depth := by
  rw [depth_eq_boundCount]
  exact below_of_mem_boundTypes h.entries type (mem_reverse.1 (mem_of_getElem? hi))

/-! ### Making telescopes -/

open KernelM

theorem levels_root : closing.Keeps root k fun tele k' => tele.Levelled k' := by
  refine (levels_freshContext .empty).bind ?_
  rintro c k1 _ ⟨_, hc, hempty⟩
  refine Course.Keeps.pure ⟨trivial, trivial, ⟨trivial, trivial⟩, hc, ?_⟩
  rw [hempty]
  exact below_empty

private theorem closed_boundRules (n : Nat) (hpi : tele.pi.Below 0)
    (htype : type.Below tele.depth) :
    ∀ x ∈ tele.boundRules type n, x.2.Closed := by
  have hshifted : ∀ x ∈ (range tele.depth).map fun i => arg (i + 1),
      x.Below (tele.depth + 1) := by
    intro x hx
    obtain ⟨i, hi, rfl⟩ := mem_map.1 hx
    exact Nat.succ_lt_succ (mem_range.1 hi)
  have hconstant : ((decl (n + 1)).applyArgs tele.depth).Below tele.depth :=
    below_applyArgs trivial
  simp only [boundRules, forall_mem_cons]
  refine ⟨closed_lambda htype, closed_lambda trivial, closed_lambda ?_,
    closed_lambda ?_, closed_lambda ?_, by simp⟩
  · simp [arrowOf, arrow, htype, hconstant]
  · simp only [arrowOf, arrow, below_apply, below_postulate, forall_mem_cons, true_and]
    exact ⟨⟨trivial, hshifted⟩, ⟨Nat.zero_lt_succ _, hshifted⟩, by simp⟩
  · exact ⟨hpi.mono (Nat.zero_le _), trivial, Nat.zero_lt_one⟩

private theorem levels_extend (h : tele.Levelled k) (htype : type.Below tele.depth) :
    closing.Keeps (tele.extend type) k fun tele' k' => tele'.Levelled k' := by
  intro hk
  refine (tele.ends_extend type k).answer ?_
  intro tele' k' hbound
  have hup := Upholds.of_contexts hbound.contexts
  have hlater := h.later hup
  refine ⟨?_, hup, ?_⟩
  · obtain ⟨names, rfl⟩ := hbound.kernel
    refine Closed.withRules { hk with rules := fun id r hr => ?_ } (closed_boundRules _ h.pi htype)
    exact hk.rules id r (by simpa using hr)
  · rw [hbound.telescope]
    refine ⟨⟨?_, h.entries⟩, ⟨h.pi, trivial⟩, trivial, hlater.context, ?_⟩
    · rwa [← depth_eq_boundCount]
    · exact hlater.equalities.mono (Nat.le_succ _)

private theorem levels_assume (h : tele.Levelled k) (ht : t.Below tele.depth)
    (hu : u.Below tele.depth) :
    closing.Keeps (tele.assume t u) k fun tele' k' => tele'.Levelled k' := by
  intro hk
  let k1 : Kernel := { k with contexts := k.contexts.push (k.equalities tele.context) }
  have hcopy : k1.equalities k.contexts.size = k.equalities tele.context := k.equalities_push_size _
  unfold assume
  rw [bind_iff, ends_context, bind_iff]
  change Ends _ k1 _ _
  rw [bind_iff, ends_changeContext]
  have hcontext : (k1.equalities k.contexts.size).Below tele.depth := by
    rw [hcopy]
    exact h.equalities
  have hrules : k1.setting.rules.Closed := hk.rules
  refine (below_assume hrules ht hu hcontext).answer ?_
  intro out s hs
  have hsize : k.contexts.size < k1.contexts.size := by simp [k1]
  have hup : k.Upholds (k1.withContext k.contexts.size s) := by
    refine ⟨by simp [k1, withContext], fun c hc d hd => ?_⟩
    rw [equalities_withContext_of_ne hc.ne', equalities_push_of_lt hc]
    exact hd
  have hnew : ((k1.withContext k.contexts.size s).equalities k.contexts.size).Below tele.depth := by
    rw [equalities_withContext hsize]
    exact hs
  have hlevelled : Levelled (k1.withContext k.contexts.size s) { tele with
      entries := .assumed t u :: tele.entries
      context := k.contexts.size } := by
    refine ⟨⟨?_, h.entries⟩, h.family, h.pi, by simpa [withContext] using hsize, hnew⟩
    rw [← depth_eq_boundCount]
    exact ⟨ht, hu⟩
  cases out with
  | error e =>
    exact ⟨{ hk with }, hup.trans (.of_contexts rfl), hlevelled.later (.of_contexts rfl)⟩
  | ok _ => exact ⟨{ hk with }, hup, hlevelled⟩

private theorem levels_normalize {c d : Nat} (hc : (k.equalities c).Below d) (ht : t.Below d) :
    closing.Keeps (changeContext c fun env => Equalities.normalize env t) k fun u _ =>
      u.Below d := by
  intro hk
  rw [ends_changeContext]
  unfold Equalities.normalize reduceIn Ends
  dsimp only
  cases hrun : Reduction.run? k.setting.rules (k.equalities c).replacer k.setting.limit .full t with
  | none => trivial
  | some u =>
    refine ⟨{ hk with }, ?_, Reduction.below_run? hk.rules (hc.replacer hereditary_below) hrun ht⟩
    exact upholds_withContext fun _ hd => hd

theorem levels_reduce (h : tele.Levelled k) (ht : t.Below tele.depth) :
    closing.Keeps (tele.reduce t) k fun u _ => u.Below tele.depth := by
  have hcanonicalize : closing.Keeps (changeContext tele.context canonicalize) k
      fun _ _ => True :=
    levels_changeContext fun _ hR _ _ => below_canonicalize hR
  intro hk
  unfold reduce
  simp only [bind_iff, ends_context, get_iff]
  split
  · refine hcanonicalize.bind (fun _ k1 hup _ => ?_) hk
    exact levels_normalize (h.later hup).equalities ht
  · exact levels_normalize h.equalities ht hk

/-! ### The footing -/

/-- Sides are below the depth of a levelled telescope; values are without placeholders, too. -/
def levelFooting : Footing closing where
  Tele tele k := tele.Levelled k
  value d a := a.Below d ∧ Term.Plain a
  side d a := a.Below d
  tele_later hup h := h.later hup
  value_mono hd h := ⟨h.1.mono hd, h.2⟩
  side_mono hd h := h.mono hd
  side_value h := h.1
  value_arg hi := ⟨hi, fun _ => nofun⟩
  value_postulate := ⟨trivial, fun _ => nofun⟩
  value_decl := ⟨trivial, fun _ => nofun⟩
  value_leaf := ⟨trivial, fun _ => nofun⟩
  note _ := levels_note _
  freshSymbol := levels_freshSymbol
  register := levels_register
  addLambda _ h :=
    levels_addRule (Rule.closed_lambda (Term.below_iff_all.2 (h.mono fun _ => And.left)))
  extend h ht := levels_extend h (Term.below_iff_all.2 (ht.mono fun _ => And.left))

theorem below_of_side {d : Nat} (h : levelFooting.Side d t) : t.Below d := below_iff_all.2 h

theorem below_of_value {d : Nat} (h : levelFooting.Value d t) : t.Below d := below_of_side h.side

theorem levels_eliminate (h : tele.Levelled k) (ht : t.Below tele.depth) :
    closing.Keeps (tele.eliminate t) k fun u _ => levelFooting.Value tele.depth u := by
  intro hk
  refine (tele.ends_eliminate t k).answer ?_
  rintro u k' ⟨rfl, rfl, hplain⟩
  have hbelow := below_iff_all.1 (h.equalities.eliminate hereditary_below ht)
  exact ⟨hk, .refl _, hbelow.and (all_hasPlaceholder.1 hplain)⟩

theorem levelFooting_reads : levelFooting.Reads where
  family h := below_iff_all.1 h.family
  pi h := below_iff_all.1 h.pi
  typeOfArg h hi := below_iff_all.1 (h.typeOfArg? hi)
  typeOfSymbol hk h := below_iff_all.1 (hk.typeOfSymbol? h)
  setName := levels_setName
  setType t h := levels_setType t (below_of_side h)
  reduceClean h ht := (levels_reduce h (below_of_side ht)).bind fun _ _ hup hu =>
    levels_eliminate (h.later hup) hu
  assume h ht hu := levels_assume h (below_of_side ht) (below_of_side hu)

end Telescope
end Elaboration
