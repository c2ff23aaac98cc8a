import Elaboration.Proofs.Equalities.Expansion

/-!
# Assumptions come to an end

Without rules, as long as no application becomes a member of a class, making assumptions is
unification. Each change of the context takes an atom or a class from those that stand for
themselves, or it changes no size, while the terms to be merged become smaller.
-/

namespace Elaboration

open Bool List Term
namespace Equalities

open Reduction

variable {R : RuleTable} {V : Finset Term} {σ : Prop} {q q' : Equalities} {t u n : Term}
  {c d k k' : Nat} {s s' : State} {o : Order}

/-! ### Founded contexts -/

/-- The atoms of the term are in `V` or placeholders of the first `k` classes, and if `σ` holds,
only postulates and leaves are applied in it. -/
structure Fits (V : Finset Term) (σ : Prop) (k : Nat) (t : Term) : Prop where
  atoms : t.All (Term.ClassOr k (· ∈ V))
  simple : σ → t.appliesRigid

/-- Every term can be written out, and canonical terms fit. -/
structure Founded (R : RuleTable) (V : Finset Term) (σ : Prop) (q : Equalities) : Prop
    extends Tidy R q where
  total : ∀ t, ∃ n, Expands R q t n
  canonical : ∀ (c : Nat) (cls : Class), q.classes[c]? = some cls → Fits V σ 0 cls.canonical

private theorem Fits.mono (h : Fits V σ k t) (hle : k ≤ k') : Fits V σ k' t :=
  ⟨h.atoms.mono fun _ => .mono hle, h.simple⟩

private theorem fits_app {f x : Term} :
    Fits V σ k (.app f x) ↔ Fits V σ k f ∧ Fits V σ k x ∧ (σ → f.isRigid) := by
  constructor
  · rintro ⟨⟨hf, hx⟩, h⟩
    simp only [appliesRigid, and_eq_true] at h
    exact ⟨⟨hf, fun hσ => (h hσ).1.2⟩, ⟨hx, fun hσ => (h hσ).2⟩, fun hσ => (h hσ).1.1⟩
  · rintro ⟨hf, hx, h⟩
    refine ⟨⟨hf.atoms, hx.atoms⟩, fun hσ => ?_⟩
    simp only [appliesRigid, and_eq_true]
    exact ⟨⟨h hσ, hf.simple hσ⟩, hx.simple hσ⟩

private theorem Fits.of_mem_args (h : Fits V σ k t) (hu : u ∈ t.args) : Fits V σ k u :=
  ⟨h.atoms.args u hu, fun hσ => appliesRigid_of_mem_args (h.simple hσ) hu⟩

private theorem Fits.args_eq_nil (h : Fits V σ k t) (hσ : σ) (ht : t.isRigid = false) :
    t.args = [] := by
  cases t with
  | app f x => exact absurd ((fits_app.1 h).2.2 hσ : (app f x).isRigid = true) (eq_false_iff.1 ht)
  | _ => rfl

private theorem founded_empty (hR : ∀ id, R.ruleFor? id = none) : Founded R V σ empty where
  toTidy := tidy_empty R
  total t := by
    refine ⟨t, ?_⟩
    induction t with
    | app f x ihf ihx => exact ihf.app ihx
    | decl id => exact .stop rfl (by simp [unfolding?, hR id, empty, member?, memberIn?])
    | _ => exact .stop rfl rfl
  canonical _ _ h := by simp [empty] at h

namespace Founded

private theorem fits (hq : Founded R V σ q) (hR : ∀ id, R.ruleFor? id = none)
    (ht : Fits V σ q.classes.size t) (h : Expands R q t n) : Fits V σ q.classes.size n := by
  have hrigid : ∀ {t n}, Expands R q t n → t.isRigid → n.isRigid := by
    intro t n h
    induction h with
    | app _ _ ihf _ => exact ihf
    | stop => exact id
    | @unfold a _ _ ha _ _ =>
      intro harigid
      cases a with
      | app f x => cases ha
      | postulate | leaf => cases ha
      | _ => cases harigid
  induction h with
  | app hf _ ihf ihx =>
    obtain ⟨hffits, hxfits, hsimple⟩ := fits_app.1 ht
    exact fits_app.2 ⟨ihf hffits, ihx hxfits, fun hσ => hrigid hf (hsimple hσ)⟩
  | stop => exact ht
  | @unfold a t n ha _ ih =>
    refine ih ?_
    obtain ⟨c, hc, _, heq⟩ | ⟨c, cls, hcls, rfl, ⟨_, heq⟩ | ⟨_, _, heq⟩⟩ := unfolding?_cases hR ha
    · obtain rfl := equation_inj heq
      exact ⟨.inr ⟨c, hq.lt_of_member? hc, rfl⟩, fun _ => rfl⟩
    · obtain rfl := equation_inj heq
      have hlt := (Array.getElem?_eq_some_iff.1 hcls).1
      have hle := hq.shaped.parent c cls hcls
      exact ⟨.inr ⟨_, hle.trans_lt hlt, rfl⟩, fun _ => rfl⟩
    · obtain rfl := equation_inj heq
      exact (hq.canonical c cls hcls).mono (Nat.zero_le _)

private theorem fits_eliminate (hq : Founded R V σ q) (hV : ∀ c, .placeholder c ∉ V)
    (ht : Fits V σ q.classes.size t) :
    Fits V σ 0 (q.eliminate t) := by
  induction t with
  | app f x ihf ihx =>
    obtain ⟨hf, hx, hsimple⟩ := fits_app.1 ht
    rw [eliminate_app]
    exact fits_app.2 ⟨ihf hf, ihx hx, fun hσ => isRigid_eliminate q (hsimple hσ)⟩
  | placeholder c =>
    obtain hmem | ⟨_, hc, ⟨⟩⟩ := ht.atoms
    · exact absurd hmem (hV c)
    · obtain ⟨cls, hcls, _⟩ := hq.shaped.exists_root hc
      rw [eliminate_placeholder, value, canonical?, hcls]
      exact hq.canonical _ cls hcls
  | _ =>
    obtain hmem | ⟨_, _, h⟩ := ht.atoms
    · exact ⟨.inl hmem, ht.simple⟩
    · cases h

end Founded

/-! ### Progress -/

/-- No class is lost, and less is left to be equated, or as much and every term is written out to
one of the same size. -/
structure Progress (R : RuleTable) (V : Finset Term) (q q' : Equalities) : Prop where
  size_le : q.classes.size ≤ q'.classes.size
  unbound_lt : unbound R V q' < unbound R V q ∨ unbound R V q' = unbound R V q ∧
    ∀ {t n}, Expands R q t n → ∃ n', Expands R q' t n' ∧ n'.size = n.size

namespace Progress

private theorem refl (R : RuleTable) (V : Finset Term) (q : Equalities) : Progress R V q q :=
  ⟨le_rfl, .inr ⟨rfl, fun h => ⟨_, h, rfl⟩⟩⟩

private theorem unbound_le (h : Progress R V q q') : unbound R V q' ≤ unbound R V q := by
  obtain h | ⟨h, _⟩ := h.unbound_lt
  · exact h.le
  · exact h.le

private theorem trans {q1 q2 q3 : Equalities} (h : Progress R V q1 q2) (h' : Progress R V q2 q3) :
    Progress R V q1 q3 := by
  refine ⟨h.size_le.trans h'.size_le, ?_⟩
  have hle := h.unbound_le
  have hle' := h'.unbound_le
  obtain hlt | ⟨heq, hsizes⟩ := h.unbound_lt
  · exact .inl (by omega)
  · obtain hlt | ⟨heq', hsizes'⟩ := h'.unbound_lt
    · exact .inl (by omega)
    · refine .inr ⟨heq'.trans heq, fun hn => ?_⟩
      obtain ⟨n2, hn2, hsize⟩ := hsizes hn
      obtain ⟨n3, hn3, hsize'⟩ := hsizes' hn2
      exact ⟨n3, hn3, hsize'.trans hsize⟩

end Progress

/-- The context is founded after some progress. -/
structure Advances (R : RuleTable) (V : Finset Term) (σ : Prop) (q q' : Equalities) : Prop where
  founded : Founded R V σ q'
  progress : Progress R V q q'

private theorem Advances.trans {q1 q2 q3 : Equalities} (h : Advances R V σ q1 q2)
    (h' : Advances R V σ q2 q3) : Advances R V σ q1 q3 :=
  ⟨h'.founded, h.progress.trans h'.progress⟩

namespace Founded

section

variable (hq : Founded R V σ q)
include hq

private theorem of_eq (hclasses : q'.classes = q.classes)
    (hmembers : q'.members = q.members) : Advances R V σ q q' := by
  have hunfold : ∀ a, unfolding? R q' a = unfolding? R q a := by
    intro a
    cases a <;> simp [unfolding?, member?, hclasses, hmembers]
  have hexpands : ∀ {t n}, Expands R q t n → Expands R q' t n := by
    intro t n h
    induction h with
    | app _ _ ihf ihx => exact ihf.app ihx
    | stop ha hnone => exact .stop ha ((hunfold _).trans hnone)
    | unfold ha _ ih => exact .unfold ((hunfold _).trans ha) ih
  refine ⟨⟨(hq.toTidy.of_eq hclasses hmembers).tidy, fun t => ?_, ?_⟩, ⟨?_, .inr ⟨?_, ?_⟩⟩⟩
  · obtain ⟨n, hn⟩ := hq.total t
    exact ⟨n, hexpands hn⟩
  · rw [hclasses]
    exact hq.canonical
  · rw [hclasses]
  · simp only [unbound, hunfold, hclasses]
  · exact fun h => ⟨_, hexpands h, rfl⟩

private theorem total_of_binds {b v : Term} (h : Binds R q b v q') (t : Term) :
    ∃ n, Expands R q' t n := by
  obtain ⟨n, hn⟩ := hq.total t
  exact ⟨_, h.expands hn⟩

private theorem enter (ht : t ∈ V) (hbare : IsBare R t) (hnew : q.member? t = none) :
    Advances R V σ q (q.enter t) := by
  have hbinds := hq.toTidy.binds_enter hbare hnew
  refine ⟨⟨(hq.toTidy.enter hbare hnew).tidy, hq.total_of_binds hbinds, fun c cls hcls =>
    ?_⟩, ?_, ?_⟩
  · rw [getElem?_enter] at hcls
    split at hcls
    · cases hcls
      rw [eliminate_of_isBare q hbare]
      cases t with
      | arg | decl => exact ⟨.inl ht, fun _ => rfl⟩
      | _ => cases hbare
    · exact hq.canonical c cls hcls
  · rw [size_enter]
    exact Nat.le_succ _
  · refine .inr ⟨hbinds.unbound_of_mem ht ?_ (size_enter q t) (isOpen_enter q t).unfolding?, ?_⟩
    · rintro c rfl
      cases hbare
    · exact fun hn => ⟨_, hbinds.expands hn, size_exchange rfl _⟩

private theorem settle (hV : ∀ c, .placeholder c ∉ V) (hc : q.IsOpen c)
    (hrigid : u.isRigid) (hfits : Fits V σ q.classes.size u)
    (hu : u.All fun a => (unfolding? R q a = none ∨ q.member? a = some c) ∧
      ∀ d, a = .placeholder d → q.IsOpen d) (h : q.mentions c (q.eliminate u) = false) :
    Advances R V σ q (q.settle c (q.eliminate u)) := by
  have hbinds := hq.toTidy.binds_settle hc hrigid hu h
  have hgrown := hq.toTidy.settle hc (isRigid_eliminate q hrigid)
  refine ⟨⟨hgrown.tidy, hq.total_of_binds hbinds, fun d cls hcls => ?_⟩, ?_, .inl ?_⟩
  · rw [getElem?_settle] at hcls
    split at hcls
    · obtain ⟨old, _, rfl⟩ := Option.map_eq_some_iff.1 hcls
      exact hq.fits_eliminate hV hfits
    · exact hq.canonical d cls hcls
  · rw [size_settle]
  · have := hbinds.unbound_of_placeholder (hV c) hc.lt (size_settle ..)
    omega

private theorem join (hV : ∀ c, .placeholder c ∉ V) (hlt : c < d) (hc : q.IsOpen c)
    (hd : q.IsOpen d) : Advances R V σ q (q.join c d) := by
  have hbinds := hq.toTidy.binds_join hlt hc hd
  refine ⟨⟨(hq.toTidy.join hlt hd).tidy, hq.total_of_binds hbinds, fun e cls hcls => ?_⟩,
    ?_, .inl ?_⟩
  · rw [getElem?_join] at hcls
    split at hcls
    · obtain ⟨old, hold, rfl⟩ := Option.map_eq_some_iff.1 hcls
      exact hq.canonical e old hold
    · exact hq.canonical e cls hcls
  · rw [size_join]
  · have := hbinds.unbound_of_placeholder (hV d) hd.lt (size_join ..)
    omega

end

end Founded

/-- Less than `k` is left to be equated, or `k` and the two terms are written out to terms that
together are smaller than `m`. -/
def Smaller (R : RuleTable) (V : Finset Term) (q : Equalities) (k m : Nat) (t u : Term) : Prop :=
  unbound R V q < k ∨ unbound R V q = k ∧
    ∀ {x y}, Expands R q t x → Expands R q u y → x.size + y.size < m

private theorem Smaller.advance {m : Nat} (hR : ∀ id, R.ruleFor? id = none) (hq : Founded R V σ q)
    (h : Advances R V σ q q') (hsmaller : Smaller R V q k m t u) : Smaller R V q' k m t u := by
  have hle := h.progress.unbound_le
  obtain hlt | ⟨hk, hsize⟩ := hsmaller
  · exact .inl (by omega)
  obtain hlt | ⟨heq, hsizes⟩ := h.progress.unbound_lt
  · exact .inl (by omega)
  -- the terms are written out to terms of the sizes they had before
  have hsame : ∀ {t n}, Expands R q' t n → ∃ n', Expands R q t n' ∧ n.size = n'.size := by
    intro t n hn
    obtain ⟨n', hn'⟩ := hq.total t
    obtain ⟨n'', hn'', hsize⟩ := hsizes hn'
    exact ⟨n', hn', hn''.unique hR h.founded.toBare hn ▸ hsize⟩
  refine .inr ⟨heq.trans hk, fun hx hy => ?_⟩
  obtain ⟨x, hx, hxsize⟩ := hsame hx
  obtain ⟨y, hy, hysize⟩ := hsame hy
  rw [hxsize, hysize]
  exact hsize hx hy

/-! ### Changes that settle -/

/-- An application is a member of a class. -/
def Applied (q : Equalities) : Prop := ∃ m ∈ q.members, m.1.args ≠ []

private theorem Applied.of_updates (h : q.Applied) (hupdates : Updates q q') : q'.Applied := by
  obtain ⟨m, hm, hargs⟩ := h
  exact ⟨m, hupdates.mem_members hm, hargs⟩

/-- It holds of every sufficient limit and depth. -/
def Finally (p : Nat → Nat → Prop) : Prop :=
  ∃ bound, ∀ limit depth, bound ≤ limit → bound ≤ depth → p limit depth

namespace Finally

variable {p p' : Nat → Nat → Prop}

private theorem of_forall (h : ∀ limit depth, p limit depth) : Finally p :=
  ⟨0, fun l d _ _ => h l d⟩

private theorem mono (h : Finally p) (hp : ∀ limit depth, p limit depth → p' limit depth) :
    Finally p' := by
  obtain ⟨bound, h⟩ := h
  exact ⟨bound, fun limit depth hlimit hdepth => hp limit depth (h limit depth hlimit hdepth)⟩

private theorem and (h : Finally p) (h' : Finally p') : Finally fun l d => p l d ∧ p' l d := by
  obtain ⟨bound, h⟩ := h
  obtain ⟨bound', h'⟩ := h'
  refine ⟨max bound bound', fun limit depth hlimit hdepth => ⟨h limit depth ?_ ?_, ?_⟩⟩
  · omega
  · omega
  · exact h' limit depth (by omega) (by omega)

private theorem of_succ (h : Finally fun limit depth => p limit (depth + 1)) : Finally p := by
  obtain ⟨bound, h⟩ := h
  refine ⟨bound + 1, fun limit depth hlimit hdepth => ?_⟩
  obtain ⟨depth, rfl⟩ : ∃ depth', depth = depth' + 1 := ⟨depth - 1, by omega⟩
  exact h limit depth (by omega) (by omega)

private theorem diagonal (h : Finally p) : Finally fun limit _ => p limit limit := by
  obtain ⟨bound, h⟩ := h
  exact ⟨bound, fun limit _ hlimit _ => h limit limit hlimit hlimit⟩

end Finally

section Settles

variable {α β : Type} {x : Nat → Nat → Change α} {f : α → Nat → Nat → Change β}
  {Q : α → State → Prop} {Q' : β → State → Prop}

/-- Wherever the change ends, an application is a member of a class. -/
def Spoils (x : Change α) (s : State) : Prop :=
  Ends x s (fun _ s' => s'.equalities.Applied) fun _ s' => s'.equalities.Applied

/-- If limit and depth suffice, the change ends with one answer in one context, both in `Q`; or else
`σ` does not hold, and an application is a member in the end. -/
def Settles (σ : Prop) (x : Nat → Nat → Change α) (s : State) (Q : α → State → Prop) : Prop :=
  (∃ a s', Q a s' ∧ Finally fun limit depth => x limit depth s = .ok a s') ∨
    ¬ σ ∧ Finally fun limit depth => Spoils (x limit depth) s

private theorem Spoils.of_applied {x : Change α} (h : s.equalities.Applied) (hx : Traces x s) :
    Spoils x s :=
  hx.ends.mono (fun _ _ h' => h.of_updates h'.updates) fun _ _ h' => h.of_updates h'.2.updates

private theorem Spoils.bind {x : Change α} {f : α → Change β} (h : Spoils x s)
    (hf : ∀ a s, Traces (f a) s) : Spoils (x >>= f) s :=
  Ends.bind h (fun a s' h' => Spoils.of_applied h' (hf a s')) fun _ _ h' => h'

private theorem settles_of_eq_ok {a : α} (h : ∀ limit depth, x limit depth s = .ok a s')
    (hQ : Q a s') :
    Settles σ x s Q :=
  .inl ⟨a, s', hQ, .of_forall h⟩

private theorem Settles.mono {P : α → State → Prop} (h : Settles σ x s Q)
    (hQ : ∀ a s', Q a s' → P a s') :
    Settles σ x s P :=
  h.imp_left fun ⟨a, s', ha, hx⟩ => ⟨a, s', hQ a s' ha, hx⟩

private theorem Settles.bind (h : Settles σ x s Q) (hf : ∀ a s', Q a s' → Settles σ (f a) s' Q')
    (htraces : ∀ a limit depth s, Traces (f a limit depth) s) :
    Settles σ (fun limit depth => x limit depth >>= fun a => f a limit depth) s Q' := by
  obtain ⟨a, s', ha, hx⟩ | ⟨hσ, hx⟩ := h
  · obtain ⟨b, s'', hb, hfa⟩ | ⟨hσ, hfa⟩ := hf a s' ha
    · refine .inl ⟨b, s'', hb, (hx.and hfa).mono fun limit depth ⟨hx, hfa⟩ => ?_⟩
      change EStateM.bind (x limit depth) _ s = _
      simp only [EStateM.bind, hx]
      exact hfa
    · refine .inr ⟨hσ, (hx.and hfa).mono fun limit depth ⟨hx, hfa⟩ => ?_⟩
      exact Ends.bind_iff.2 ((Ends.iff_of_ok hx).2 hfa)
  · exact .inr ⟨hσ, hx.mono fun limit depth hx => hx.bind fun a => htraces a limit depth⟩

private theorem Settles.of_succ (h : Settles σ (fun limit depth => x limit (depth + 1)) s Q) :
    Settles σ x s Q :=
  h.imp (fun ⟨a, s', ha, hx⟩ => ⟨a, s', ha, hx.of_succ⟩) fun ⟨hσ, hx⟩ => ⟨hσ, hx.of_succ⟩

private theorem Settles.diagonal (h : Settles σ x s Q) :
    Settles σ (fun limit _ => x limit limit) s Q :=
  h.imp (fun ⟨a, s', ha, hx⟩ => ⟨a, s', ha, hx.diagonal⟩) fun ⟨hσ, hx⟩ => ⟨hσ, hx.diagonal⟩

end Settles

/-! ### Merging settles -/

/-- Nothing in the term is replaced, and it fits. -/
structure Reduced (V : Finset Term) (σ : Prop) (q : Equalities) (t : Term) : Prop where
  unchanged : q.Unchanged t
  fits : Fits V σ q.classes.size t

/-- `c` is the class that `t` has in `q'`, which is `q` or has this class besides. -/
structure Entered (R : RuleTable) (V : Finset Term) (σ : Prop) (q : Equalities) (t : Term) (c : Nat)
    (q' : Equalities) : Prop extends Advances R V σ q q' where
  isOpen : q'.IsOpen c
  opens : ∀ d, q.IsOpen d → q'.IsOpen d
  loose : ∀ u, t ≠ u → q.Loose u → q'.Loose u
  shows : ∀ u, q.Shows u → q'.Shows u
  atoms : ∀ a, unfolding? R q a = none → unfolding? R q' a = none ∨ q'.member? a = some c

section Merge

variable (hR : ∀ id, R.ruleFor? id = none) (hV : ∀ c, .placeholder c ∉ V)

include hR

private theorem Bare.all_unfolding? (hq : Bare R q) (ht : q.Unchanged t) :
    t.All fun a => unfolding? R q a = none := by
  refine ht.mono fun a ha => ?_
  rw [hq.unfolding?_of_change? ha]
  cases a.declId? with
  | none => rfl
  | some id => simp [hR id]

private theorem Founded.reduced (hq : Founded R V σ q) (ht : Fits V σ q.classes.size t)
    (h : Expands R q t n) : Reduced V σ q n :=
  ⟨unchanged_of_reaches (h.reaches hR hq.toBare), hq.fits hR ht h⟩

private theorem Bare.expands_self (hq : Bare R q) (ht : q.Unchanged t) : Expands R q t t := by
  have hfree := hq.all_unfolding? hR ht
  clear ht
  induction t with
  | app f x ihf ihx => exact (ihf hfree.1).app (ihx hfree.2)
  | _ => exact .stop rfl hfree

private theorem Smaller.of_expands {m : Nat} {x y : Term} (hq : Bare R q) (hx : Expands R q t x)
    (hy : Expands R q u y) (h : Smaller R V q k m t u) : Smaller R V q k m x y := by
  have hxself := hq.expands_self hR (unchanged_of_reaches (hx.reaches hR hq))
  have hyself := hq.expands_self hR (unchanged_of_reaches (hy.reaches hR hq))
  refine h.imp_right fun ⟨hk, hsize⟩ => ⟨hk, fun hx' hy' => ?_⟩
  rw [hx'.unique hR hq hxself, hy'.unique hR hq hyself]
  exact hsize hx hy

private theorem Reduced.smaller_of_mem_zip {p : Term × Term} (hq : Bare R q) (ht : Reduced V σ q t)
    (hu : Reduced V σ q u) (hp : p ∈ t.args.zip u.args) :
    Smaller R V q (unbound R V q) (t.size + u.size) p.1 p.2 := by
  obtain ⟨hx, hy⟩ := of_mem_zip hp
  have hxself := hq.expands_self hR (ht.unchanged.args _ hx)
  have hyself := hq.expands_self hR (hu.unchanged.args _ hy)
  refine .inr ⟨rfl, fun hx' hy' => ?_⟩
  rw [hx'.unique hR hq hxself, hy'.unique hR hq hyself]
  exact Nat.add_lt_add (size_lt_of_mem_args hx) (size_lt_of_mem_args hy)

private theorem Founded.settles_normalize (hs : Founded R V σ s.equalities) (t : Term) :
    Settles σ (fun limit _ => normalize ⟨R, limit, o⟩ t) s
      fun n s' => s' = s ∧ Expands R s.equalities t n := by
  obtain ⟨n, hn⟩ := hs.total t
  obtain ⟨bound, hrun⟩ := (hn.reaches hR hs.toBare).exists_run?
  refine .inl ⟨n, s, ⟨rfl, hn⟩, bound, fun limit _ hlimit _ => ?_⟩
  exact normalize_eq_ok_iff.2 ⟨rfl, hrun limit hlimit⟩

include hV

private theorem Founded.settles_classOf (hs : Founded R V σ s.equalities)
    (ht : s.equalities.Loose t)
    (hrigid : t.isRigid = false) (hfits : Fits V σ s.equalities.classes.size t) :
    Settles σ (fun _ _ => classOf t) s
      fun c s' => Entered R V σ s.equalities t c s'.equalities := by
  obtain ⟨c, rfl, hc, hclass⟩ | ⟨hclassless, hnew, hclass⟩ := classOf_of_loose ht
  · refine settles_of_eq_ok (fun _ _ => hclass) ?_
    exact ⟨⟨hs, .refl R V _⟩, hc, fun _ h => h, fun _ _ h => h, fun _ h => h, fun _ h => .inl h⟩
  · by_cases hargs : t.args = []
    · -- an atom that is neither rigid nor the placeholder of a class
      obtain ⟨hmem, hbare⟩ : t ∈ V ∧ IsBare R t := by
        have hatom := hfits.atoms
        cases t with
        | app f x => simp at hargs
        | arg i => exact ⟨hatom.resolve_right fun ⟨_, _, h⟩ => (nomatch h), trivial⟩
        | decl id => exact ⟨hatom.resolve_right fun ⟨_, _, h⟩ => (nomatch h), hR id⟩
        | placeholder c =>
          obtain hmem | ⟨d, hd, h⟩ := hatom
          · exact absurd hmem (hV c)
          · exact absurd h (hclassless d hd)
        | _ => cases hrigid
      have hbinds := hs.toTidy.binds_enter hbare hnew
      refine settles_of_eq_ok (fun _ _ => hclass) ⟨hs.enter hmem hbare hnew, isOpen_enter _ t,
        fun _ h => h.enter t, fun _ htu h => h.enter htu, fun _ h => h.enter t, fun a ha => ?_⟩
      by_cases hat : a = t
      · subst hat
        refine .inr ?_
        rw [member?_enter, hnew]
        simp
      · exact .inl (hbinds.others hat ha)
    · refine .inr ⟨fun hσ => hargs (hfits.args_eq_nil hσ hrigid), .of_forall fun _ _ => ?_⟩
      refine (Ends.iff_of_ok hclass).2 ⟨(t, s.equalities.classes.size), ?_, hargs⟩
      exact mem_append_right _ (mem_singleton.2 rfl)

private theorem Founded.settles_attach (hs : Founded R V σ s.equalities)
    (ht : Reduced V σ s.equalities t)
    (htrigid : t.isRigid = false) (hu : Reduced V σ s.equalities u) (hurigid : u.isRigid) :
    Settles σ (fun limit depth => do
        let c ← classOf t
        attach ⟨R, limit, o⟩ (merge ⟨R, limit, o⟩ depth) c u) s
      fun _ s' => Advances R V σ s.equalities s'.equalities := by
  refine (hs.settles_classOf hR hV (hs.toBare.loose ht.unchanged) htrigid ht.fits).bind
    (f := fun c limit depth => attach ⟨R, limit, o⟩ (merge ⟨R, limit, o⟩ depth) c u)
      (fun c s1 h => ?_)
    fun c limit depth s => Discipline.keeps_attach ((tracing _).merges_merge depth) trivial hurigid
  refine settles_of_eq_ok (fun limit depth => attach_of_isOpen h.isOpen u) ?_
  split
  · exact h.toAdvances
  · next hmentions =>
    have hfits := hu.fits.mono h.progress.size_le
    have hatoms : u.All fun a => (unfolding? R s1.equalities a = none ∨
        s1.equalities.member? a = some c) ∧ ∀ d, a = .placeholder d → s1.equalities.IsOpen d := by
      have hfree := hs.toBare.all_unfolding? hR hu.unchanged
      have hshows := h.shows u (hu.unchanged.shows hs.shaped)
      refine (hfree.and (hshows.and hfits.atoms)).mono ?_
      rintro a ⟨ha, hopen, hclass⟩
      refine ⟨h.atoms a ha, ?_⟩
      rintro d rfl
      obtain hmem | ⟨_, hd, ⟨⟩⟩ := hclass
      · exact absurd hmem (hV d)
      · exact hopen d hd rfl
    refine h.toAdvances.trans (h.founded.settle hV h.isOpen hurigid hfits hatoms ?_)
    exact eq_false_iff.2 hmentions

private theorem Founded.settles_unite (hs : Founded R V σ s.equalities)
    (ht : Reduced V σ s.equalities t) (htrigid : t.isRigid = false)
    (hu : Reduced V σ s.equalities u) (hurigid : u.isRigid = false) (hne : t ≠ u) :
    Settles σ (fun limit depth => do
        let c ← classOf t
        let d ← classOf u
        unite ⟨R, limit, o⟩ (merge ⟨R, limit, o⟩ depth) c d) s
      fun _ s' => Advances R V σ s.equalities s'.equalities := by
  refine (hs.settles_classOf hR hV (hs.toBare.loose ht.unchanged) htrigid ht.fits).bind
    (f := fun c limit depth => do
      let d ← classOf u
      unite ⟨R, limit, o⟩ (merge ⟨R, limit, o⟩ depth) c d) (fun c s1 h1 => ?_)
    fun c limit depth s =>
      (Discipline.keeps_classOf (D := tracing ⟨R, limit, o⟩) trivial hurigid).bind fun _ _ _ _ =>
      Discipline.keeps_unite ((tracing _).merges_merge depth) trivial
  have hloose := h1.loose u hne (hs.toBare.loose hu.unchanged)
  have hfits := hu.fits.mono h1.progress.size_le
  refine (h1.founded.settles_classOf hR hV hloose hurigid hfits).bind
    (f := fun d limit depth => unite ⟨R, limit, o⟩ (merge ⟨R, limit, o⟩ depth) c d)
      (fun d s2 h2 => ?_)
    fun d limit depth s => Discipline.keeps_unite ((tracing _).merges_merge depth) trivial
  have hopen := h2.opens c h1.isOpen
  have hadvances := h1.toAdvances.trans h2.toAdvances
  refine settles_of_eq_ok (fun limit depth => unite_of_isOpen hopen h2.isOpen) ?_
  split
  · exact hadvances
  · next hcd =>
    rcases lt_or_gt_of_ne hcd with hlt | hlt
    · rw [min_eq_left hlt.le, max_eq_right hlt.le]
      exact hadvances.trans (h2.founded.join hV hlt hopen h2.isOpen)
    · rw [min_eq_right hlt.le, max_eq_left hlt.le]
      exact hadvances.trans (h2.founded.join hV hlt h2.isOpen hopen)

/-- Goes on unless there was a contradiction. -/
def unlessRefuted (next : Change (Except Contradiction Unit)) :
    Except Contradiction Unit → Change (Except Contradiction Unit)
  | .error e => pure (.error e)
  | .ok () => next

omit hR hV in
private theorem traces_unlessRefuted {next : Change (Except Contradiction Unit)} (h : Traces next s)
    (out : Except Contradiction Unit) : Traces (unlessRefuted next out) s := by
  cases out with
  | error e => exact .pure trivial
  | ok _ => exact h

omit hV in
private theorem Founded.settles_mergeArgs {k m : Nat}
    (hmerge : ∀ (s : State) (t u : Term), Founded R V σ s.equalities → Reduced V σ s.equalities t →
      Reduced V σ s.equalities u → Smaller R V s.equalities k m t u →
      Settles σ (fun limit depth => merge ⟨R, limit, o⟩ depth t u) s
        fun _ s' => Advances R V σ s.equalities s'.equalities)
    (pairs : List (Term × Term)) (hs : Founded R V σ s.equalities)
    (hfits : ∀ p ∈ pairs, Fits V σ s.equalities.classes.size p.1 ∧
      Fits V σ s.equalities.classes.size p.2)
    (hsmaller : ∀ p ∈ pairs, Smaller R V s.equalities k m p.1 p.2) :
    Settles σ (fun limit depth => mergeArgs ⟨R, limit, o⟩ (merge ⟨R, limit, o⟩ depth) pairs) s
      fun _ s' => Advances R V σ s.equalities s'.equalities := by
  induction pairs generalizing s with
  | nil => exact settles_of_eq_ok (fun _ _ => rfl) ⟨hs, .refl R V _⟩
  | cons p rest ih =>
    obtain ⟨x, y⟩ := p
    obtain ⟨⟨hxfits, hyfits⟩, hrest⟩ := forall_mem_cons.1 hfits
    obtain ⟨hfirst, hsmaller⟩ := forall_mem_cons.1 hsmaller
    let next : Except Contradiction Unit → Nat → Nat → Change (Except Contradiction Unit) :=
      fun out limit depth =>
        unlessRefuted (mergeArgs ⟨R, limit, o⟩ (merge ⟨R, limit, o⟩ depth) rest) out
    have hnext : ∀ out limit depth s, Traces (next out limit depth) s :=
      fun out _ depth _ => traces_unlessRefuted (traces_mergeArgs depth rest) out
    refine (hs.settles_normalize hR x).bind (f := fun x' limit depth => do
        let y' ← normalize ⟨R, limit, o⟩ y
        let out ← merge ⟨R, limit, o⟩ depth x' y'
        next out limit depth) ?_ fun x' limit depth s => ?_
    · rintro x' s1 ⟨rfl, hx'⟩
      refine (hs.settles_normalize hR y).bind (f := fun y' limit depth => do
          let out ← merge ⟨R, limit, o⟩ depth x' y'
          next out limit depth) ?_ fun y' limit depth s => ?_
      · rintro y' s2 ⟨rfl, hy'⟩
        have hx := hs.reduced hR hxfits hx'
        have hy := hs.reduced hR hyfits hy'
        have hforms := Smaller.of_expands hR hs.toBare hx' hy' hfirst
        refine (hmerge s2 x' y' hs hx hy hforms).bind (f := next) (fun out s3 h => ?_) hnext
        cases out with
        | error e => exact settles_of_eq_ok (fun _ _ => rfl) h
        | ok _ =>
          refine (ih h.founded (fun p hp => ?_) fun p hp => ?_).mono fun _ _ => h.trans
          · have hle := h.progress.size_le
            exact ⟨(hrest p hp).1.mono hle, (hrest p hp).2.mono hle⟩
          · exact (hsmaller p hp).advance hR hs h
      · exact (traces_merge depth _ _ _).bind fun out s _ _ => hnext out limit depth s
    · refine (traces_reduceIn _ _ _).bind fun y' s _ _ => ?_
      exact (traces_merge depth _ _ _).bind fun out s _ _ => hnext out limit depth s

private theorem Founded.settles_merge (s : State) (t u : Term) (hs : Founded R V σ s.equalities)
    (ht : Reduced V σ s.equalities t) (hu : Reduced V σ s.equalities u) :
    Settles σ (fun limit depth => merge ⟨R, limit, o⟩ depth t u) s
      fun _ s' => Advances R V σ s.equalities s'.equalities := by
  -- by what is left to be equated, then by the sizes of the terms
  induction hk : unbound R V s.equalities using Nat.strong_induction_on generalizing s t u with
  | _ k ihk =>
    induction hm : t.size + u.size using Nat.strong_induction_on generalizing s t u with
    | _ m ihm =>
      refine Settles.of_succ ?_
      by_cases heq : t = u
      · have hok : ∀ limit depth, merge ⟨R, limit, o⟩ (depth + 1) t u s = .ok (.ok ()) s := by
          intro limit depth
          simp only [merge, if_pos heq]
          rfl
        exact settles_of_eq_ok hok ⟨hs, .refl R V _⟩
      cases htrigid : t.isRigid with
      | true =>
        cases hurigid : u.isRigid with
        | true =>
          by_cases hspine : t.head = u.head ∧ t.args.length = u.args.length
          · simp only [merge, if_neg heq, htrigid, hurigid, if_pos hspine]
            refine hs.settles_mergeArgs hR (k := k) (m := m) ?_ _ (fun p hp => ?_) fun p hp => ?_
            · rintro s' t' u' hs' ht' hu' (hlt | ⟨heq, hsize⟩)
              · exact ihk _ hlt s' t' u' hs' ht' hu' rfl
              · have ht'self := hs'.toBare.expands_self hR ht'.unchanged
                have hu'self := hs'.toBare.expands_self hR hu'.unchanged
                exact ihm _ (hsize ht'self hu'self) s' t' u' hs' ht' hu' heq rfl
            · obtain ⟨hx, hy⟩ := of_mem_zip hp
              exact ⟨ht.fits.of_mem_args hx, hu.fits.of_mem_args hy⟩
            · rw [← hk, ← hm]
              exact ht.smaller_of_mem_zip hR hs.toBare hu hp
          · simp only [merge, if_neg heq, htrigid, hurigid, if_neg hspine]
            exact settles_of_eq_ok (fun _ _ => rfl) (hs.of_eq rfl rfl)
        | false =>
          simp only [merge, if_neg heq, htrigid, hurigid]
          exact hs.settles_attach hR hV hu hurigid ht htrigid
      | false =>
        cases hurigid : u.isRigid with
        | true =>
          simp only [merge, if_neg heq, htrigid, hurigid]
          exact hs.settles_attach hR hV ht htrigid hu hurigid
        | false =>
          simp only [merge, if_neg heq, htrigid, hurigid]
          exact hs.settles_unite hR hV ht htrigid hu hurigid heq

omit hR hV in
private theorem Founded.settles_canonicalize (hs : Founded R V σ s.equalities) :
    Settles σ (fun limit _ => canonicalize ⟨R, limit, o⟩) s
      fun _ s' => Advances R V σ s.equalities s'.equalities := by
  let s' : State := { s with equalities := { s.equalities with generation := R.generation } }
  refine .inl ⟨(), s', hs.of_eq rfl rfl, 2, fun limit _ hlimit _ => ?_⟩
  have hbare : Bare (Setting.rules ⟨R, limit, o⟩) s.equalities := hs.toBare
  exact hbare.canonicalize_eq_ok hlimit

private theorem Founded.settles_assume (hs : Founded R V σ s.equalities)
    (ht : Fits V σ s.equalities.classes.size t) (hu : Fits V σ s.equalities.classes.size u) :
    Settles σ (fun limit _ => assume ⟨R, limit, o⟩ t u) s
      fun _ s' => Advances R V σ s.equalities s'.equalities := by
  let finish : Except Contradiction Unit → Nat → Nat → Change (Except Contradiction Unit) :=
    fun out limit _ => unlessRefuted (do
      canonicalize ⟨R, limit, o⟩
      pure (.ok ())) out
  have hfinish : ∀ out limit depth s, Traces (finish out limit depth) s := fun out _ _ _ =>
    traces_unlessRefuted (traces_canonicalize.bind fun _ _ _ _ => .pure trivial) out
  let record : Term → Term → Nat → Nat → Change (Except Contradiction Unit) :=
    fun t u limit depth => do
      note (.assuming t u)
      let out ← merge ⟨R, limit, o⟩ limit t u
      finish out limit depth
  have hrecord : ∀ t u limit depth s, Traces (record t u limit depth) s :=
    fun t u limit depth s =>
      (Discipline.keeps_note (D := tracing ⟨R, limit, o⟩) rfl).bind fun _ _ _ _ =>
      (traces_merge _ _ _ _).bind fun out s _ _ => hfinish out limit depth s
  refine (hs.settles_normalize hR t).bind (f := fun t' limit depth => do
      let u' ← normalize ⟨R, limit, o⟩ u
      record t' u' limit depth) ?_ fun t' limit depth s =>
        (traces_reduceIn _ _ _).bind fun u' s _ _ => hrecord t' u' limit depth s
  rintro t' s1 ⟨rfl, ht'⟩
  refine (hs.settles_normalize hR u).bind (f := record t') ?_ (hrecord t')
  rintro u' s2 ⟨rfl, hu'⟩
  let s3 : State := { s2 with journal := .assuming t' u' :: s2.journal }
  have hmerge := (Founded.settles_merge (o := o) hR hV s3 t' u' hs (hs.reduced hR ht ht')
    (hs.reduced hR hu hu')).diagonal
  refine hmerge.bind (f := finish) (fun out s4 h => ?_) hfinish
  cases out with
  | error e => exact settles_of_eq_ok (fun _ _ => rfl) h
  | ok _ =>
    exact h.founded.settles_canonicalize.bind
      (f := fun _ _ _ => (pure (.ok ()) : Change (Except Contradiction Unit)))
      (fun _ _ h' => settles_of_eq_ok (fun _ _ => rfl) (h.trans h')) fun _ _ _ _ => .pure trivial

private theorem Founded.settles_mapM_assume (A : List (Term × Term))
    (hs : Founded R V σ s.equalities) (hA : ∀ a ∈ A, Fits V σ 0 a.1 ∧ Fits V σ 0 a.2) :
    Settles σ (fun limit _ => A.mapM fun a => assume ⟨R, limit, o⟩ a.1 a.2) s
      fun _ s' => Founded R V σ s'.equalities := by
  have htraces : ∀ (A : List (Term × Term)) limit s,
      Traces (A.mapM fun a => assume ⟨R, limit, o⟩ a.1 a.2) s := by
    intro A limit
    induction A with
    | nil => exact fun _ => .pure trivial
    | cons a A ih =>
      intro s
      rw [mapM_cons]
      exact (traces_assume _ _).bind fun _ s _ _ => (ih s).bind fun _ _ _ _ => .pure trivial
  induction A generalizing s with
  | nil => exact settles_of_eq_ok (fun _ _ => rfl) hs
  | cons a A ih =>
    obtain ⟨⟨ha, ha'⟩, hA⟩ := forall_mem_cons.1 hA
    simp only [mapM_cons]
    have hassume := hs.settles_assume (o := o) hR hV (ha.mono (Nat.zero_le _))
      (ha'.mono (Nat.zero_le _))
    refine hassume.bind (f := fun answer limit _ => do
        let answers ← A.mapM fun a => assume ⟨R, limit, o⟩ a.1 a.2
        pure (answer :: answers)) (fun answer s1 h => ?_) fun _ limit _ s =>
          (htraces A limit s).bind fun _ _ _ _ => .pure trivial
    exact (ih h.founded hA).bind (f := fun answers _ _ => pure (answer :: answers))
      (fun _ _ h' => settles_of_eq_ok (fun _ _ => rfl) h') fun _ _ _ _ => .pure trivial

end Merge

private theorem exists_fits (A : List (Term × Term))
    (hA : ∀ a ∈ A, a.1.hasPlaceholder = false ∧ a.2.hasPlaceholder = false)
    (hσ : σ → ∀ a ∈ A, (a.1.appliesRigid && a.2.appliesRigid) = true) :
    ∃ V : Finset Term, (∀ c, .placeholder c ∉ V) ∧ ∀ a ∈ A, Fits V σ 0 a.1 ∧ Fits V σ 0 a.2 := by
  refine ⟨(A.flatMap fun a => a.1.atoms ++ a.2.atoms).toFinset, fun c hc => ?_, fun a ha => ?_⟩
  · obtain ⟨a, ha, hc⟩ := mem_flatMap.1 (mem_toFinset.1 hc)
    obtain ⟨hleft, hright⟩ := hA a ha
    rw [all_hasPlaceholder, all_iff_forall_mem_atoms] at hleft hright
    obtain hc | hc := mem_append.1 hc
    · exact hleft _ hc c rfl
    · exact hright _ hc c rfl
  · have hmem : ∀ x ∈ a.1.atoms ++ a.2.atoms, ClassOr 0
        (· ∈ (A.flatMap fun a => a.1.atoms ++ a.2.atoms).toFinset) x := fun x hx =>
      .inl (mem_toFinset.2 (mem_flatMap.2 ⟨a, ha, hx⟩))
    obtain ⟨hleft, hright⟩ := forall_mem_append.1 hmem
    refine ⟨⟨all_iff_forall_mem_atoms.2 hleft, fun h => ?_⟩,
      all_iff_forall_mem_atoms.2 hright, fun h => ?_⟩
    · exact (and_eq_true_iff.1 (hσ h a ha)).1
    · exact (and_eq_true_iff.1 (hσ h a ha)).2

/-- Without rules, equations of terms without placeholders can be assumed one after the other. After
that, no chain of classes leads from a canonical term to a member of its own class, and every term
has a normal form. The exception are equations in which something else than a postulate or a leaf is
applied and which make an application a member of a class. -/
theorem acyclic_or_applied (hR : ∀ id, R.ruleFor? id = none) (o : Order) (A : List (Term × Term))
    (hA : ∀ a ∈ A, a.1.hasPlaceholder = false ∧ a.2.hasPlaceholder = false) :
    (∃ answers s bound,
      (∀ limit ≥ bound,
        A.mapM (fun a => assume ⟨R, limit, o⟩ a.1 a.2) ⟨empty, []⟩ = .ok answers s) ∧
      (∀ c, ¬ Relation.TransGen s.equalities.Contains c c) ∧
      ∀ t, ∃ n depth, ∀ d ≥ depth, run? R s.equalities.replacer d .full t = some n) ∨
    (∃ a ∈ A, (a.1.appliesRigid && a.2.appliesRigid) = false) ∧
      ∃ bound, ∀ limit ≥ bound, Ends (A.mapM fun a => assume ⟨R, limit, o⟩ a.1 a.2) ⟨empty, []⟩
        (fun _ s => s.equalities.Applied) fun _ s => s.equalities.Applied := by
  let σ : Prop := ∀ a ∈ A, (a.1.appliesRigid && a.2.appliesRigid) = true
  obtain ⟨V, hV, hfits⟩ := exists_fits (σ := σ) A hA id
  have hsettles :=
    Founded.settles_mapM_assume (s := ⟨empty, []⟩) (o := o) hR hV A (founded_empty hR) hfits
  obtain ⟨answers, s, hs, bound, hrun⟩ | ⟨hσ, bound, hrun⟩ := hsettles
  · refine .inl ⟨answers, s, bound, fun limit hlimit => hrun limit bound hlimit le_rfl, ?_, ?_⟩
    · exact hs.toTidy.not_transGen_contains hR hs.total
    · intro t
      obtain ⟨n, hn⟩ := hs.total t
      exact ⟨n, (hn.reaches hR hs.toBare).exists_run?⟩
  · refine .inr ⟨?_, bound, fun limit hlimit => hrun limit bound hlimit le_rfl⟩
    simpa [σ] using hσ

/-- Three arguments, each assumed to be an application of a postulate to the next and the last one
to the first again. -/
def cyclicAssumptions : List (Term × Term) :=
  [(.arg 0, .app (.app (.postulate 1) (.arg 1)) (.arg 1)), (.arg 1, .app (.postulate 0) (.arg 2)),
    (.arg 2, .app (.postulate 0) (.arg 0))]

/-- The theorem at assumptions that lead in a circle. -/
theorem acyclic_of_cyclicAssumptions :
    ∃ answers s bound,
      (∀ limit ≥ bound, cyclicAssumptions.mapM (fun a => assume ⟨{}, limit, .recorded⟩ a.1 a.2)
        ⟨empty, []⟩ = .ok answers s) ∧
      (∀ c, ¬ Relation.TransGen s.equalities.Contains c c) ∧
      ∀ t, ∃ n depth, ∀ d ≥ depth, run? {} s.equalities.replacer d .full t = some n := by
  refine (acyclic_or_applied (fun _ => rfl) .recorded cyclicAssumptions
    (by decide)).resolve_right ?_
  exact fun ⟨h, _⟩ => absurd h (by decide)

end Equalities
end Elaboration
