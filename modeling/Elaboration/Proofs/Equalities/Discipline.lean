import Mathlib.Logic.Relation
import Elaboration.Equalities.Assume
import Elaboration.Proofs.Action
import Elaboration.Proofs.Term.Spine

/-!
# What changes of local equalities keep

Every change comes down to a few updates: a term gets a class of its own, a class a rigid canonical
term, a parent with a smaller number or another member. What every update keeps, for terms that may
be merged, is kept by every change: no member is lost, and the forest stays one.
-/

namespace Elaboration

open Term

namespace Term

/-- An atom in `p` or the placeholder of one of the first `n` classes. -/
def ClassOr (n : Nat) (p : Term → Prop) (a : Term) : Prop := p a ∨ ∃ i < n, a = placeholder i

variable {p : Term → Prop} {n m : Nat} {t : Term}

/-- More atoms are allowed with placeholders of classes. -/
theorem All.classOr (h : t.All p) : t.All (ClassOr n p) := h.mono fun _ => Or.inl

/-- More classes allow more placeholders. -/
theorem ClassOr.mono {a : Term} (hnm : n ≤ m) (h : ClassOr n p a) : ClassOr m p a :=
  h.imp_right fun ⟨i, hi, he⟩ => ⟨i, Nat.lt_of_lt_of_le hi hnm, he⟩

/-- The atom is no placeholder. -/
def Plain (a : Term) : Prop := ∀ i, a ≠ placeholder i

/-- Arguments are plain. -/
theorem plain_arg (i : Nat) : (arg i).All Plain := nofun

/-- Declarations are plain. -/
theorem plain_decl (id : Nat) : (decl id).All Plain := nofun

/-- Postulates are plain. -/
theorem plain_postulate (id : Nat) : (postulate id).All Plain := nofun

/-- Placeholders are not plain. -/
theorem not_plain_placeholder (i : Nat) : ¬ Plain (placeholder i) := fun h => h i rfl

/-- Terms without placeholders, atom by atom. -/
theorem all_hasPlaceholder : t.hasPlaceholder = false ↔ t.All fun a => ∀ i, a ≠ placeholder i := by
  induction t with
  | app f x ihf ihx => simp [hasPlaceholder, ihf, ihx]
  | _ => simp [hasPlaceholder]

end Term

namespace Equalities

variable {p : Term → Prop} (q : Equalities) {t : Term}

/-- What the placeholder of a class stands for. -/
def value (c : Nat) : Term := (q.canonical? c).getD (.placeholder c)

/-- Elimination of an application. -/
@[simp] theorem eliminate_app (f x : Term) :
    q.eliminate (.app f x) = .app (q.eliminate f) (q.eliminate x) := rfl
/-- Declarations stand for themselves. -/
@[simp] theorem eliminate_placeholder (c : Nat) : q.eliminate (.placeholder c) = q.value c := rfl
@[simp] private theorem eliminate_arg (i : Nat) : q.eliminate (.arg i) = .arg i := rfl
@[simp] theorem eliminate_decl (id : Nat) : q.eliminate (.decl id) = .decl id := rfl
@[simp] private theorem eliminate_postulate (id : Nat) :
    q.eliminate (.postulate id) = .postulate id := rfl
@[simp] private theorem eliminate_leaf (l : Leaf) : q.eliminate (.leaf l) = .leaf l := rfl

/-- Elimination goes into spines. -/
theorem eliminate_apply (t : Term) (xs : List Term) :
    q.eliminate (t.apply xs) = (q.eliminate t).apply (xs.map q.eliminate) := by
  induction xs generalizing t with
  | nil => rfl
  | cons x xs ih => rw [apply_cons, ih, eliminate_app, List.map_cons, apply_cons]

/-- A term is eliminated part by part. -/
theorem eliminate_eq_apply (t : Term) :
    q.eliminate t = (q.eliminate t.head).apply (t.args.map q.eliminate) := by
  have h := q.eliminate_apply t.head t.args
  rwa [apply_head_args] at h

/-- Elimination looks at the classes only. -/
theorem eliminate_of_classes {q q' : Equalities} (h : q'.classes = q.classes) (t : Term) :
    q'.eliminate t = q.eliminate t := by
  induction t with
  | app f x ihf ihx => rw [eliminate_app, eliminate_app, ihf, ihx]
  | placeholder i => simp [value, canonical?, root, h]
  | _ => rfl

/-- Terms without placeholders are left alone. -/
theorem eliminate_eq_self (ht : t.All fun a => ∀ i, a ≠ .placeholder i) :
    q.eliminate t = t := by
  induction t with
  | app f x ihf ihx => rw [eliminate_app, ihf ht.1, ihx ht.2]
  | placeholder i => exact absurd rfl (ht i)
  | _ => rfl

/-- Terms without placeholders stand for themselves. -/
theorem eliminate_of_all (ht : t.All p) (hp : ∀ i, ¬ p (.placeholder i)) : q.eliminate t = t :=
  q.eliminate_eq_self (ht.mono fun _ ha i hi => hp i (hi ▸ ha))

/-- Captures are eliminated before or after they are substituted. -/
theorem eliminate_subst {xs : List Term} (hp : ∀ i, ¬ p (.placeholder i))
    (ht : t.All (CaptureOr xs.length p)) :
    q.eliminate (t.subst xs) = t.subst (xs.map q.eliminate) := by
  induction t with
  | app f x ihf ihx => rw [subst_app, eliminate_app, ihf ht.1, ihx ht.2, subst_app]
  | arg i =>
    by_cases hi : i < xs.length
    · simp [subst, hi]
    · simp [subst, hi]
  | placeholder i =>
    obtain ⟨j, _, he⟩ | hi := ht
    · cases he
    · exact absurd hi (hp i)
  | _ => rfl

section Closed

variable (ht : t.isHeadClosed)

include ht

private theorem eliminate_head : q.eliminate t.head = t.head := by
  unfold isHeadClosed at ht
  split at ht <;> simp_all

/-- Elimination keeps heads that are not placeholders. -/
theorem head_eliminate : (q.eliminate t).head = t.head := by
  rw [eliminate_eq_apply, eliminate_head q ht, head_apply, head_head]

theorem args_eliminate : (q.eliminate t).args = t.args.map q.eliminate := by
  rw [eliminate_eq_apply, eliminate_head q ht, args_apply, args_head, List.nil_append]

end Closed

/-- Rigid terms stay rigid. -/
theorem isRigid_eliminate (ht : t.isRigid) : (q.eliminate t).isRigid := by
  rw [isRigid, head_eliminate q (isHeadClosed_of_isRigid ht)]
  exact ht

end Equalities

open Ends List

/-- The events that changes of local equality contexts record. -/
def Event.ofContext : Event → Bool
  | .assuming _ _ => true
  | .cyclicAssumptionDropped _ => true
  | .contextUnsettled _ => true
  | _ => false

namespace Equalities

/-- What is found among the members is one of them. -/
theorem mem_of_memberIn? {t : Term} {members : List (Term × Nat)} {c : Nat}
    (h : memberIn? t members = some c) : (t, c) ∈ members := by
  induction members with
  | nil => cases h
  | cons m rest ih =>
    obtain ⟨u, d⟩ := m
    unfold memberIn? at h
    split at h
    · next hu =>
      cases h
      subst hu
      exact mem_cons_self
    · exact mem_cons_of_mem _ (ih h)

/-- One update of a context, about terms that `E` relates. -/
inductive Update (E : Term → Term → Prop) : Equalities → Equalities → Prop where
  /-- A term gets a class of its own. -/
  | enter {q : Equalities} {t : Term} : t.isRigid = false → E t t →
    Update E q { q with
      classes := q.classes.push ⟨q.classes.size, q.eliminate t, false⟩
      members := q.members ++ [(t, q.classes.size)] }
  /-- A class gets the canonical term of a rigid term, or that of a rigid class. -/
  | settle {q : Equalities} {c : Nat} {canonical : Term} :
    (∃ t : Term, t.isRigid ∧ E (.placeholder c) t ∧ q.eliminate t = canonical) ∨
      (∃ (d : Nat) (cls : Class), q.classes[d]? = some cls ∧ cls.rigid ∧
        cls.canonical = canonical ∧ E (.placeholder c) canonical) →
    Update E q { q with
      classes := q.classes.modify c fun cls => { cls with canonical, rigid := true } }
  /-- A class is put below an earlier one. -/
  | join {q : Equalities} {top below : Nat} : top < below →
    E (.placeholder top) (.placeholder below) →
    Update E q { q with classes := q.classes.modify below fun cls => { cls with parent := top } }
  /-- A class gets another member. -/
  | record {q : Equalities} {t : Term} {c : Nat} : t.isRigid = false → E (.placeholder c) t →
    Update E q { q with members := q.members ++ [(t, c)] }
  /-- Two rigid terms contradict each other. -/
  | contradict {q : Equalities} {t u : Term} : t.isRigid → u.isRigid →
    ¬ (t.head = u.head ∧ t.args.length = u.args.length) → E t u →
    Update E q { q with inconsistent := true }
  | date {q : Equalities} {generation : Nat} : Update E q { q with generation }

/-- What changes keep, and which terms may be merged, with what it takes for updates to keep it. -/
structure Discipline (env : Setting) extends Course Stop State where
  Equates : Equalities → Term → Term → Prop
  symm {q t u} : Equates q t u → Equates q u t
  chain {q t u v} : Equates q t u → Equates q u v → Equates q t v
  later {s s' t u} : Holds s → Holds s' → Leads s s' → Equates s.equalities t u →
    Equates s'.equalities t u
  reduces {s t u t'} : Holds s → Equates s.equalities t u →
    Reduction.run? env.rules s.equalities.replacer env.limit .full t = some t' →
    Equates s.equalities t t'
  reducesAll {s ts us} : Holds s → (∀ t ∈ ts, Equates s.equalities t t) →
    Reduction.runAll? env.rules s.equalities.replacer env.limit .spine ts = some us →
    ∀ a ∈ ts.zip us, Equates s.equalities a.1 a.2
  args {q t u} : Equates q t u → t.isRigid → u.isRigid → t.head = u.head →
    t.args.length = u.args.length → ∀ a ∈ t.args.zip u.args, Equates q a.1 a.2
  member {s m} : Holds s → m ∈ s.equalities.members → Equates s.equalities (.placeholder m.2) m.1
  root {s c t} : Holds s → Equates s.equalities (.placeholder c) t →
    Equates s.equalities (.placeholder c) (.placeholder (s.equalities.root c))
  canonical {s c t cls} : Holds s → Equates s.equalities (.placeholder c) t →
    s.equalities.classes[c]? = some cls → Equates s.equalities (.placeholder c) cls.canonical
  eliminate {s t u} : Holds s → Equates s.equalities t u →
    Equates s.equalities t (s.equalities.eliminate t)
  update {s q} : Holds s → Update (Equates s.equalities) s.equalities q →
    q.generation = s.equalities.generation ∨ q.generation = env.rules.generation →
    Holds { s with equalities := q } ∧ Leads s { s with equalities := q }
  noted {s e} : Holds s → e.ofContext → Holds { s with journal := e :: s.journal } ∧
    Leads s { s with journal := e :: s.journal }
  exhausted {s} : Holds s → Stops s .exhausted s
  outOfRange {s c t} : Holds s → Equates s.equalities (.placeholder c) t →
    s.equalities.classes.size ≤ c →
    Stops s (.violation (.classOutOfRange s.equalities.classes.size c)) s

namespace Discipline

variable {env : Setting} {D : Discipline env} {α : Type} {s : State} {q : Equalities} {t u : Term}
  {c d : Nat} {Q : α → State → Prop}

abbrev Keeps {α : Type} (D : Discipline env) (x : Change α) (s : State) (Q : α → State → Prop) :
    Prop :=
  D.toCourse.Keeps x s Q

private theorem self (h : D.Equates q t u) : D.Equates q t t := D.chain h (D.symm h)

private theorem current_bind {f : Equalities → Change α}
    (h : D.Holds s → D.Keeps (f s.equalities) s Q) :
    D.Keeps (current >>= f) s Q :=
  fun hs => h hs hs

private theorem keeps_replace (h : Update (D.Equates s.equalities) s.equalities q)
    (hdate : q.generation = s.equalities.generation ∨ q.generation = env.rules.generation) :
    D.Keeps (replace q) s fun _ s' => s'.equalities = q :=
  fun hs => ⟨(D.update hs h hdate).1, (D.update hs h hdate).2, rfl⟩

/-- Noting an event changes no class. -/
theorem keeps_note {e : Event} (he : e.ofContext) :
    D.Keeps (note e) s fun _ s' => s'.equalities = s.equalities :=
  fun hs => ⟨(D.noted hs he).1, (D.noted hs he).2, rfl⟩

private theorem normalize_bind {f : Term → Change α} (h : D.Equates s.equalities t u)
    (hf : ∀ t', D.Equates s.equalities t t' → D.Keeps (f t') s Q) :
    D.Keeps (normalize env t >>= f) s Q := by
  intro hs
  rw [bind_iff]
  unfold normalize reduceIn Ends
  dsimp only
  cases hrun : Reduction.run? env.rules s.equalities.replacer env.limit .full t with
  | none => exact D.exhausted hs
  | some t' => exact hf t' (D.reduces hs h hrun) hs

private theorem existingRoot_bind {f : Nat → Change α}
    (h : D.Equates s.equalities (.placeholder c) t)
    (hf : D.Keeps (f (s.equalities.root c)) s Q) : D.Keeps (existingRoot c >>= f) s Q := by
  intro hs
  unfold existingRoot
  rw [bind_iff, bind_iff]
  change Ends (if c < s.equalities.classes.size then _ else _) s _ _
  split
  · exact hf hs
  · next hle => exact D.outOfRange hs h (not_lt.1 hle)

theorem keeps_classOf (h : D.Equates s.equalities t t) (ht : t.isRigid = false) :
    D.Keeps (classOf t) s fun c s' => D.Equates s'.equalities (.placeholder c) t := by
  refine current_bind fun hs => ?_
  dsimp only
  split
  · next c hc =>
    have hknown : D.Equates s.equalities (.placeholder c) t := by
      split at hc
      · split at hc
        · cases hc
          exact h
        · exact D.member hs (mem_of_memberIn? hc)
      · exact D.member hs (mem_of_memberIn? hc)
    exact .pure (D.chain (D.symm (D.root hs hknown)) hknown)
  · refine (keeps_replace (.enter ht h) (.inl rfl)).bind fun _ s' _ hq =>
      .of_holds fun hs' => .pure ?_
    have hmem : (t, s.equalities.classes.size) ∈ s'.equalities.members := by
      rw [hq]
      exact mem_append_right _ (mem_singleton_self _)
    exact D.member hs' hmem

private theorem keeps_settleRigid
    (h : (∃ t : Term, t.isRigid ∧ D.Equates s.equalities (.placeholder c) t ∧
        s.equalities.eliminate t = u) ∨
      ∃ (d : Nat) (cls : Class), s.equalities.classes[d]? = some cls ∧ cls.rigid ∧
        cls.canonical = u ∧ D.Equates s.equalities (.placeholder c) u) :
    D.Keeps (settleRigid c u) s fun _ _ => True := by
  refine current_bind fun _ => ?_
  split
  · exact (keeps_note rfl).bind fun _ _ _ _ => .pure trivial
  · exact (keeps_replace (.settle h) (.inl rfl)).bind fun _ _ _ _ => .pure trivial

/-- Terms that may be merged are merged. -/
def Merges (D : Discipline env) (m : Term → Term → Change (Except Contradiction Unit)) : Prop :=
  ∀ s t u, D.Equates s.equalities t u → D.Keeps (m t u) s fun _ _ => True

variable {merge' : Term → Term → Change (Except Contradiction Unit)} (hm : D.Merges merge')

include hm

theorem keeps_attach (h : D.Equates s.equalities (.placeholder c) t) (ht : t.isRigid) :
    D.Keeps (attach env merge' c t) s fun _ _ => True := by
  refine current_bind fun hs => ?_
  have hroot := D.chain (D.symm (D.root hs h)) h
  dsimp only
  split
  · next canonical hc =>
    have hcanonical := D.chain (D.symm (D.canonical hs hroot hc)) hroot
    refine normalize_bind hcanonical fun known hknown => ?_
    exact hm s known t (D.chain (D.symm hknown) hcanonical)
  · exact keeps_settleRigid (.inl ⟨t, ht, hroot, rfl⟩)

theorem keeps_unite (h : D.Equates s.equalities (.placeholder c) (.placeholder d)) :
    D.Keeps (unite env merge' c d) s fun _ _ => True := by
  refine existingRoot_bind h (existingRoot_bind (D.symm h) (.of_holds fun hs => ?_))
  have hroots := D.chain (D.symm (D.root hs h)) (D.chain h (D.root hs (D.symm h)))
  generalize s.equalities.root c = c at *
  generalize s.equalities.root d = d at *
  split
  · exact .pure trivial
  · next hne =>
    -- the earlier class is on top, whichever side of the equation it is on
    have hminmax : D.Equates s.equalities (.placeholder (min c d)) (.placeholder (max c d)) := by
      rcases le_total c d with hle | hle
      · rwa [min_eq_left hle, max_eq_right hle]
      · rw [min_eq_right hle, max_eq_left hle]
        exact D.symm hroots
    have hlt : min c d < max c d := by omega
    dsimp only
    generalize min c d = top at *
    generalize max c d = below at *
    refine current_bind fun _ => ?_
    refine (keeps_replace (.join hlt hminmax) (.inl rfl)).bind fun _ s' hle hq =>
      .of_holds fun hs' => ?_
    split
    · next canonical hbelow =>
      have hcanonical := D.chain hminmax (D.canonical hs (D.symm hminmax) hbelow)
      split
      · next known htop =>
        have hknown := D.chain (D.symm (D.canonical hs hminmax htop)) hcanonical
        have hmerge := D.later hs hs' hle hknown
        refine normalize_bind hmerge fun known' hknown' => ?_
        refine normalize_bind (D.symm hmerge) fun canonical' hcanonical' => ?_
        exact hm s' known' canonical' (D.chain (D.symm hknown') (D.chain hmerge hcanonical'))
      · -- only the parent of the later class was changed, so its canonical term is still there
        refine keeps_settleRigid (.inr ⟨below, ⟨top, canonical, true⟩, ?_, rfl, rfl, ?_⟩)
        · simp [hq, Array.getElem?_modify, hbelow]
        · exact D.later hs hs' hle hcanonical
    · exact .pure trivial

private theorem keeps_mergeArgs {pairs : List (Term × Term)}
    (h : ∀ a ∈ pairs, D.Equates s.equalities a.1 a.2) :
    D.Keeps (mergeArgs env merge' pairs) s fun _ _ => True := by
  induction pairs generalizing s with
  | nil => exact .pure trivial
  | cons a rest ih =>
    rw [forall_mem_cons] at h
    refine .of_holds fun hs => ?_
    refine normalize_bind h.1 fun x hx => normalize_bind (D.symm h.1) fun y hy => ?_
    refine (hm s x y (D.chain (D.symm hx) (D.chain h.1 hy))).bind fun out s' hle _ => ?_
    cases out with
    | error e => exact .pure trivial
    | ok _ => exact .of_holds fun hs' => ih fun a ha => D.later hs hs' hle (h.2 a ha)

omit hm

theorem merges_merge (D : Discipline env) (depth : Nat) : D.Merges (merge env depth) := by
  induction depth with
  | zero => exact fun s t u _ hs => D.exhausted hs
  | succ depth ih =>
    intro s t u h
    refine .of_holds fun hs => ?_
    unfold merge
    split
    · exact .pure trivial
    · split
      · next ht hu =>
        split
        · next hshape => exact keeps_mergeArgs ih (D.args h ht hu hshape.1 hshape.2)
        · next hshape =>
          refine current_bind fun _ =>
            (keeps_replace (.contradict ht hu hshape h) (.inl rfl)).bind ?_
          exact fun _ _ _ _ => .pure trivial
      · next ht hu =>
        refine (keeps_classOf (self (D.symm h)) hu).bind fun c s' hle hc => .of_holds fun hs' => ?_
        exact keeps_attach ih (D.chain hc (D.symm (D.later hs hs' hle h))) ht
      · next ht hu =>
        refine (keeps_classOf (self h) ht).bind fun c s' hle hc => .of_holds fun hs' => ?_
        exact keeps_attach ih (D.chain hc (D.later hs hs' hle h)) hu
      · next ht hu =>
        refine (keeps_classOf (self h) ht).bind fun c s' hle hc => .of_holds fun hs' => ?_
        have h' := D.later hs hs' hle h
        refine (keeps_classOf (self (D.symm h')) hu).bind fun d s'' hle' hd =>
          .of_holds fun hs'' => ?_
        exact keeps_unite ih (D.chain (D.later hs' hs'' hle' (D.chain hc h')) (D.symm hd))

private theorem keeps_moved : D.Keeps (moved env) s fun pending s' =>
    s'.equalities = s.equalities ∧
      ∀ m ∈ pending, D.Equates s.equalities (.placeholder m.2) m.1 := by
  refine current_bind fun _ hs => ?_
  rw [bind_iff]
  unfold reduceAllIn Ends
  dsimp only
  cases hrun : Reduction.runAll? env.rules s.equalities.replacer env.limit .spine
      ((env.order.visit s.equalities.members).map fun m => s.equalities.eliminate m.1) with
  | none => exact D.exhausted hs
  | some forms =>
    have hread : ∀ m ∈ env.order.visit s.equalities.members,
        D.Equates s.equalities (.placeholder m.2) (s.equalities.eliminate m.1) := by
      intro m hm
      have hmember := D.member hs ((env.order.perm _).mem_iff.1 hm)
      exact D.chain hmember (D.eliminate hs (D.symm hmember))
    refine ⟨hs, D.refl hs, rfl, fun m hm => ?_⟩
    obtain ⟨⟨old, fresh⟩, hpair, hm⟩ := mem_filterMap.1 hm
    have hfresh : D.Equates s.equalities (s.equalities.eliminate old.1) fresh := by
      refine D.reducesAll hs (fun t ht => ?_) hrun (_, fresh) ?_
      · obtain ⟨m, hm, rfl⟩ := mem_map.1 ht
        exact self (D.symm (hread m hm))
      · rw [zip_map_left]
        exact mem_map.2 ⟨(old, fresh), hpair, rfl⟩
    dsimp only at hm
    split at hm
    · cases hm
    · cases hm
      exact D.chain (hread old (of_mem_zip hpair).1) hfresh

private theorem keeps_recordMoved (h : D.Equates s.equalities (.placeholder c) t) :
    D.Keeps (recordMoved env t c) s fun _ _ => True := by
  have hm := D.merges_merge env.limit
  refine current_bind fun hs => ?_
  have hroot := D.chain (D.symm (D.root hs h)) h
  dsimp only
  split
  · exact .pure trivial
  · split
    · next ht => exact (keeps_attach hm hroot ht).bind fun _ _ _ _ => .pure trivial
    · next ht =>
      split
      · next d hd =>
        have hmember := D.member hs (mem_of_memberIn? hd)
        exact (keeps_unite hm (D.chain hroot (D.symm hmember))).bind fun _ _ _ _ => .pure trivial
      · split
        · exact (keeps_unite hm hroot).bind fun _ _ _ _ => .pure trivial
        · refine (keeps_replace (.record (Bool.eq_false_iff.2 ht) hroot) (.inl rfl)).bind ?_
          exact fun _ _ _ _ => .pure trivial

private theorem keeps_recordAllMoved {pending : List (Term × Nat)}
    (h : ∀ m ∈ pending, D.Equates s.equalities (.placeholder m.2) m.1) :
    D.Keeps (recordAllMoved env pending) s fun _ _ => True := by
  induction pending generalizing s with
  | nil => exact .pure trivial
  | cons m rest ih =>
    rw [forall_mem_cons] at h
    refine .of_holds fun hs => (keeps_recordMoved h.1).bind fun _ s' hle _ =>
      .of_holds fun hs' => ?_
    exact (ih fun m hm => D.later hs hs' hle (h.2 m hm)).bind fun _ _ _ _ => .pure trivial

/-- A round keeps the context in order. -/
theorem keeps_round : D.Keeps (round env) s fun _ _ => True := by
  refine keeps_moved.bind fun pending s' _ hpending => ?_
  rw [← hpending.1] at hpending
  exact keeps_recordAllMoved hpending.2

theorem keeps_rounds (n : Nat) : D.Keeps (rounds env n) s fun _ _ => True := by
  induction n generalizing s with
  | zero => exact (keeps_note rfl).mono fun _ _ _ _ => trivial
  | succ n ih =>
    refine keeps_round.bind fun changed _ _ _ => ?_
    cases changed with
    | true => exact ih
    | false => exact .pure trivial

/-- Bringing a context up to date with the rules keeps it in order. -/
theorem keeps_canonicalize (D : Discipline env) : D.Keeps (canonicalize env) s fun _ _ => True := by
  refine current_bind fun _ => (keeps_replace .date (.inr rfl)).bind fun _ _ _ _ => ?_
  split
  · exact keeps_rounds maxRounds
  · exact .pure trivial

/-- Assuming what is equal is in order. -/
theorem keeps_assume (h : D.Equates s.equalities t u) :
    D.Keeps (assume env t u) s fun _ _ => True := by
  refine normalize_bind h fun t' ht => normalize_bind (D.symm h) fun u' hu => ?_
  have hmerge := D.chain (D.symm ht) (D.chain h hu)
  refine (keeps_note rfl).bind fun _ s' _ hsame => ?_
  refine (D.merges_merge env.limit s' t' u' (hsame ▸ hmerge)).bind fun out _ _ _ => ?_
  cases out with
  | error e => exact .pure trivial
  | ok _ => exact D.keeps_canonicalize.bind fun _ _ _ _ => .pure trivial

end Discipline
end Equalities

/-- The reasons for which changes of local equality contexts stop. -/
def Stop.ofContext : Stop → Bool
  | .exhausted => true
  | .violation (.classOutOfRange _ _) => true
  | _ => false

namespace Equalities

variable {j1 j2 j3 : List Event}

/-- Updates one after another. -/
abbrev Updates : Equalities → Equalities → Prop := Relation.ReflTransGen (Update fun _ _ => True)

/-- A journal grew by events of contexts. -/
def Noted (journal journal' : List Event) : Prop :=
  ∃ new : List Event, journal' = new ++ journal ∧ ∀ e ∈ new, e.ofContext

theorem Noted.refl (journal : List Event) : Noted journal journal := ⟨[], rfl, by simp⟩

/-- What a journal grew by in two steps. -/
theorem exists_append_trans {P : Event → Prop}
    (h : ∃ new, j2 = new ++ j1 ∧ ∀ e ∈ new, P e) (h' : ∃ new, j3 = new ++ j2 ∧ ∀ e ∈ new, P e) :
    ∃ new, j3 = new ++ j1 ∧ ∀ e ∈ new, P e := by
  obtain ⟨new, rfl, hnew⟩ := h
  obtain ⟨new', rfl, hnew'⟩ := h'
  exact ⟨new' ++ new, (append_assoc ..).symm, forall_mem_append.2 ⟨hnew', hnew⟩⟩

theorem Noted.trans (h : Noted j1 j2) (h' : Noted j2 j3) : Noted j1 j3 :=
  exists_append_trans h h'

/-- The context was updated and events of contexts were recorded. -/
structure Traced (s s' : State) : Prop where
  updates : Updates s.equalities s'.equalities
  noted : Noted s.journal s'.journal

variable {q q' : Equalities} {α : Type} {s s' s'' : State} {env : Setting}

private theorem Traced.refl (s : State) : Traced s s := ⟨.refl, .refl _⟩

private theorem Traced.trans (h : Traced s s') (h' : Traced s' s'') : Traced s s'' :=
  ⟨h.updates.trans h'.updates, h.noted.trans h'.noted⟩

/-! ### Changes -/

/-- Updates are made and events of contexts recorded, wherever a change ends. -/
def trace : Course Stop State where
  Holds _ := True
  Leads := Traced
  Stops s e s' := e.ofContext ∧ Traced s s'
  refl _ := .refl _
  trans := .trans
  stops h h' := ⟨h'.1, h.trans h'.2⟩

/-- Every change keeps to that. -/
def tracing (env : Setting) : Discipline env where
  toCourse := trace
  Equates _ _ _ := True
  symm _ := trivial
  chain _ _ := trivial
  later _ _ _ _ := trivial
  reduces _ _ _ := trivial
  reducesAll _ _ _ _ _ := trivial
  args _ _ _ _ _ _ _ := trivial
  member _ _ := trivial
  root _ _ := trivial
  canonical _ _ _ := trivial
  eliminate _ _ := trivial
  update _ h _ := ⟨trivial, .single h, .refl _⟩
  noted _ he := ⟨trivial, .refl, [_], rfl, forall_mem_singleton.2 he⟩
  exhausted _ := ⟨rfl, .refl _⟩
  outOfRange _ _ _ := ⟨rfl, .refl _⟩

/-- Wherever it ends, the change has made updates and recorded events of contexts. -/
abbrev Traces {α : Type} (x : Change α) (s : State) : Prop := trace.Keeps x s fun _ _ => True

/-- How a change by updates ends. -/
theorem Traces.ends {x : Change α} (h : Traces x s) :
    Ends x s (fun _ s' => Traced s s') fun e s' => e.ofContext ∧ Traced s s' :=
  (h trivial).imp (fun _ _ h => h.2.1)

/-- Reduction makes updates only. -/
theorem traces_reduceIn (env : Setting) (mode : Reduction.Mode) (t : Term) :
    Traces (reduceIn env mode t) s := by
  intro _
  unfold reduceIn Ends
  dsimp only
  cases Reduction.run? env.rules s.equalities.replacer env.limit mode t with
  | some u => exact ⟨trivial, .refl _, trivial⟩
  | none => exact ⟨rfl, .refl _⟩

/-- Merging makes updates only. -/
theorem traces_merge (depth : Nat) (s : State) (t u : Term) : Traces (merge env depth t u) s :=
  (tracing env).merges_merge depth s t u trivial

/-- Merging arguments makes updates only. -/
theorem traces_mergeArgs (depth : Nat) (pairs : List (Term × Term)) :
    Traces (mergeArgs env (merge env depth) pairs) s :=
  Discipline.keeps_mergeArgs ((tracing env).merges_merge depth) fun _ _ => trivial

/-- Canonicalization makes updates only. -/
theorem traces_canonicalize : Traces (canonicalize env) s := (tracing env).keeps_canonicalize

/-- Assuming makes updates only. -/
theorem traces_assume (t u : Term) : Traces (assume env t u) s :=
  Discipline.keeps_assume (D := tracing env) trivial

/-! ### What updates keep -/

/-- No member is lost. -/
theorem Updates.mem_members (h : Updates q q') {m : Term × Nat} (hm : m ∈ q.members) :
    m ∈ q'.members := by
  induction h with
  | refl => exact hm
  | tail _ hstep ih =>
    cases hstep with
    | enter | record => exact mem_append_left _ ih
    | _ => exact ih

/-- A contradiction is never forgotten. -/
theorem Updates.inconsistent (h : Updates q q') (hq : q.inconsistent) : q'.inconsistent := by
  induction h with
  | refl => exact hq
  | tail _ hstep ih =>
    cases hstep with
    | contradict => rfl
    | _ => exact ih

/-- No class has a parent that was made after it, the canonical term of a rigid class is rigid, and
no member is. -/
structure WellShaped (q : Equalities) : Prop where
  parent : ∀ (c : Nat) (cls : Class), q.classes[c]? = some cls → cls.parent ≤ c
  rigid : ∀ (c : Nat) (cls : Class), q.classes[c]? = some cls → cls.rigid → cls.canonical.isRigid
  member : ∀ m ∈ q.members, m.1.isRigid = false

/-- No classes are well shaped. -/
theorem wellShaped_empty : empty.WellShaped where
  parent _ _ h := by simp [empty] at h
  rigid _ _ h := by simp [empty] at h
  member _ h := nomatch h

/-- One class is changed. -/
theorem WellShaped.modify {f : Class → Class} (hq : q.WellShaped) (c : Nat)
    (hparent : ∀ cls, q.classes[c]? = some cls → (f cls).parent ≤ c)
    (hrigid : ∀ cls, q.classes[c]? = some cls → (f cls).rigid → (f cls).canonical.isRigid) :
    { q with classes := q.classes.modify c f }.WellShaped := by
  have hcases : ∀ (j : Nat) (cls : Class), (q.classes.modify c f)[j]? = some cls →
      q.classes[j]? = some cls ∨ j = c ∧ ∃ old, q.classes[c]? = some old ∧ f old = cls := by
    intro j cls hj
    rw [Array.getElem?_modify] at hj
    split at hj
    · next hcj =>
      subst hcj
      exact .inr ⟨rfl, Option.map_eq_some_iff.1 hj⟩
    · exact .inl hj
  refine ⟨fun j cls hj => ?_, fun j cls hj => ?_, hq.member⟩
  · obtain hj | ⟨rfl, old, hold, rfl⟩ := hcases j cls hj
    · exact hq.parent j cls hj
    · exact hparent old hold
  · obtain hj | ⟨rfl, old, hold, rfl⟩ := hcases j cls hj
    · exact hq.rigid j cls hj
    · exact hrigid old hold

private theorem WellShaped.push (hq : q.WellShaped) (t : Term) (members : List (Term × Nat))
    (hmembers : ∀ m ∈ members, m.1.isRigid = false) :
    { q with classes := q.classes.push ⟨q.classes.size, t, false⟩, members }.WellShaped := by
  have hcases : ∀ (j : Nat) (cls : Class),
      (q.classes.push ⟨q.classes.size, t, false⟩)[j]? = some cls →
      q.classes[j]? = some cls ∨ j = q.classes.size ∧ cls = ⟨q.classes.size, t, false⟩ := by
    intro j cls hj
    rw [Array.getElem?_push] at hj
    split at hj
    · next h => exact .inr ⟨h, (Option.some.inj hj).symm⟩
    · exact .inl hj
  refine ⟨fun j cls hj => ?_, fun j cls hj => ?_, hmembers⟩
  · obtain hj | ⟨rfl, rfl⟩ := hcases j cls hj
    · exact hq.parent j cls hj
    · exact le_rfl
  · obtain hj | ⟨rfl, rfl⟩ := hcases j cls hj
    · exact hq.rigid j cls hj
    · exact nofun

/-- An update keeps contexts well shaped. -/
theorem Update.wellShaped {E : Term → Term → Prop} (h : Update E q q') (hq : q.WellShaped) :
    q'.WellShaped := by
  cases h with
  | enter ht =>
    refine hq.push _ _ (forall_mem_append.2 ⟨hq.member, ?_⟩)
    exact forall_mem_singleton.2 ht
  | settle hcanonical =>
    refine hq.modify _ (fun cls hcls => hq.parent _ cls hcls) fun cls hcls _ => ?_
    obtain ⟨t, ht, _, rfl⟩ | ⟨d, other, hother, hrigid, rfl, _⟩ := hcanonical
    · exact isRigid_eliminate _ ht
    · exact hq.rigid d other hother hrigid
  | join hlt =>
    exact hq.modify _ (fun _ _ => hlt.le) fun cls hcls => hq.rigid _ cls hcls
  | record ht =>
    exact { hq with
      member := forall_mem_append.2 ⟨hq.member, forall_mem_singleton.2 ht⟩ }
  | contradict | date => exact { hq with }

/-- Updates keep contexts well shaped. -/
theorem Updates.wellShaped (h : Updates q q') (hq : q.WellShaped) : q'.WellShaped := by
  induction h with
  | refl => exact hq
  | tail _ hstep ih => exact hstep.wellShaped ih

private theorem exists_rootFrom (hq : q.WellShaped) {steps c : Nat} (hsteps : c < steps)
    (hc : c < q.classes.size) : ∃ cls, q.classes[rootFrom q.classes steps c]? = some cls ∧
      cls.parent = rootFrom q.classes steps c := by
  induction steps generalizing c with
  | zero => cases hsteps
  | succ steps ih =>
    obtain ⟨cls, hcls⟩ : ∃ cls, q.classes[c]? = some cls := ⟨_, Array.getElem?_eq_getElem hc⟩
    have hle := hq.parent c cls hcls
    unfold rootFrom
    simp only [hcls]
    split
    · next hparent => exact ⟨cls, hcls, hparent⟩
    · next hparent => exact ih (by omega) (by omega)

/-- Parents lead to a class that is its own parent. -/
theorem WellShaped.exists_root (hq : q.WellShaped) {c : Nat} (hc : c < q.classes.size) :
    ∃ cls, q.classes[q.root c]? = some cls ∧ cls.parent = q.root c :=
  exists_rootFrom hq hc hc

end Equalities
end Elaboration
