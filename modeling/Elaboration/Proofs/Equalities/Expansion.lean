import Mathlib.Data.Finset.Card
import Elaboration.Proofs.Equalities.Tidy

/-!
# Terms written out in a context

Without rules, a context whose members are atoms is a substitution in triangular form. Writing a
term out follows its equations until none applies. If this ends, it ends with the normal form, and
if it does for every term, no class leads back to itself.
-/

namespace Elaboration

open Bool List Option Term

namespace Term

variable {t x b v : Term}

/-- The number of atoms and applications in a term. -/
def size : Term → Nat
  | app f x => f.size + x.size + 1
  | _ => 1

/-- Whether only postulates and leaves are applied in the term. -/
def appliesRigid : Term → Bool
  | app f x => f.isRigid && f.appliesRigid && x.appliesRigid
  | _ => true

/-- The term with an atom exchanged for a term. -/
def exchange (b v : Term) : Term → Term
  | app f x => app (exchange b v f) (exchange b v x)
  | a => if a = b then v else a

theorem size_lt_of_mem_args (h : x ∈ t.args) : x.size < t.size := by
  induction t with
  | app f y ihf _ =>
    rw [args_app, mem_append, mem_singleton] at h
    simp only [size]
    obtain h | rfl := h
    · have := ihf h
      omega
    · omega
  | _ => cases h

theorem size_exchange (hv : v.size = 1) (t : Term) : (exchange b v t).size = t.size := by
  induction t with
  | app f x ihf ihx => simp only [exchange, size, ihf, ihx]
  | _ =>
    unfold exchange
    split
    · exact hv
    · rfl

theorem appliesRigid_of_mem_args (ht : t.appliesRigid) (h : x ∈ t.args) : x.appliesRigid := by
  induction t with
  | app f y ihf _ =>
    simp only [appliesRigid, and_eq_true] at ht
    rw [args_app, mem_append, mem_singleton] at h
    obtain h | rfl := h
    · exact ihf ht.1.2 h
    · exact ht.2
  | _ => cases h

end Term

namespace Equalities

open Reduction

variable {R : RuleTable} {q q' : Equalities} {t u n m a b v f f' x x' : Term} {c d : Nat}

/-- Writing the term out ends with the second one. -/
inductive Expands (R : RuleTable) (q : Equalities) : Term → Term → Prop where
  | app {f f' x x' : Term} : Expands R q f f' → Expands R q x x' →
    Expands R q (.app f x) (.app f' x')
  | stop {a : Term} : a.head = a → unfolding? R q a = none → Expands R q a a
  | unfold {a t n : Term} : unfolding? R q a = some (.equation a t) → Expands R q t n →
    Expands R q a n

/-! ### Writing out and reduction -/

private theorem WellShaped.root_parent (hq : q.WellShaped) {cls : Class}
    (hcls : q.classes[c]? = some cls) :
    q.root cls.parent = q.root c := by
  have hmore : ∀ steps c, c < steps →
      rootFrom q.classes (steps + 1) c = rootFrom q.classes steps c := by
    intro steps
    induction steps with
    | zero => exact nofun
    | succ steps ih =>
      intro c hc
      rw [rootFrom, rootFrom]
      cases hcls : q.classes[c]? with
      | none => rfl
      | some cls =>
        have hle := hq.parent c cls hcls
        dsimp only
        split
        · rfl
        · exact ih cls.parent (by omega)
  have hlt := (Array.getElem?_eq_some_iff.1 hcls).1
  have hle := hq.parent c cls hcls
  unfold root
  obtain ⟨n, hn⟩ : ∃ n, q.classes.size = n + 1 := ⟨_, (Nat.succ_pred_eq_of_pos (by omega)).symm⟩
  by_cases hparent : cls.parent = c
  · rw [hparent]
  · rw [hn, hmore n cls.parent (by omega)]
    simp [rootFrom, hcls, hparent]

theorem equation_inj (h : Rule.equation a t = Rule.equation a u) : t = u :=
  code_injective (congrArg Rule.replacement h)

private theorem Bare.change?_of_unfolding? (hq : Bare R q) (h : unfolding? R q a = none) :
    q.replacer.change? a = none := by
  cases hg : q.replacer.change? a with
  | none => rfl
  | some g =>
    obtain ⟨c, hc, hbare, _⟩ | ⟨c, hc, rfl, rfl⟩ := hq.exists_of_change? hg
    · cases (Bare.unfolding?_of_member? hbare hc).symm.trans h
    · obtain ⟨cls, hcls⟩ : ∃ cls, q.classes[c]? = some cls := ⟨_, Array.getElem?_eq_getElem hc⟩
      simp only [unfolding?, hcls, bind_some] at h
      split_ifs at h with hparent hrigid
      have hopen : q.IsOpen c := ⟨cls, hcls, not_not.1 hparent, eq_false_iff.2 hrigid⟩
      simp [Replacer.change?, replacer, hc, hopen.output] at hg

private theorem Bare.change?_of_member? (hq : Bare R q) (h : q.member? a = some c) :
    q.replacer.change? a = some (q.output c) := by
  have hbare := hq.isBare_of_member? h
  have hne := Bare.output_ne (c := c) hq.shaped hbare
  cases a with
  | arg | decl => simp [Replacer.change?, replacer, h, hne]
  | _ => cases hbare

section Unruled

variable (hR : ∀ id, R.ruleFor? id = none) {h : Replacer}

include hR

private theorem reduce_weak_of_unruled (t : Term) (d : Nat) :
    reduce R h (d + 1) .weak t = some t := by
  refine reduce_weak_succ.2 (.inl ⟨?_, rfl⟩)
  unfold headStep
  cases t.head.declId? with
  | none => rfl
  | some id => simp [hR id]

private theorem eq_of_reduce_weak {w : Term} (hw : reduce R h d .weak t = some w) : w = t := by
  cases d with
  | zero => cases hw
  | succ d => exact some.inj (hw.symm.trans (reduce_weak_of_unruled hR t d))

private theorem reaches_of_head {g : Term} (hg : h.change? t.head = some g)
    (hn : Reaches R h .full (g.apply t.args) n) : Reaches R h .full t n := by
  obtain ⟨d, hd⟩ := hn
  exact ⟨d + 2, reduce_full_of_head (reduce_weak_of_unruled hR t d) hg
    (reduce_mono (Nat.le_succ d) hd)⟩

private theorem reaches_of_args {args : List Term} (hhead : h.change? t.head = none)
    (hargs : Forall₂ (Reaches R h .full) t.args args)
    (hn : h.change? (t.head.apply args) = none) : Reaches R h .full t (t.head.apply args) := by
  obtain ⟨d, hd⟩ := Reaches.forall₂ hargs
  refine ⟨d + 2, reduce_full_of_args (reduce_weak_of_unruled hR t d) hhead ?_ hn⟩
  exact hd.imp fun _ _ hx => reduce_mono (Nat.le_succ d) hx

private theorem Bare.reaches_app (hq : Bare R q) (hf : Reaches R q.replacer .full f f')
    (hx : Reaches R q.replacer .full x x') :
      Reaches R q.replacer .full (.app f x) (.app f' x') := by
  obtain ⟨d, hd⟩ := hf
  induction d generalizing f with
  | zero => cases hd
  | succ d ih =>
    obtain ⟨w, hw, hcases⟩ := reduce_full_cases hd
    obtain rfl := eq_of_reduce_weak hR hw
    obtain ⟨g, hg, hd⟩ | ⟨hhead, args, hargs, ⟨u, hne, hu, _⟩ | ⟨_, rfl⟩⟩ := hcases
    · refine reaches_of_head hR (g := g) hg ?_
      rw [args_app, apply_append]
      exact ih hd
    · have happlied : (w.head.apply args).args ≠ [] := by simpa using hne
      cases (hq.change?_of_args happlied).symm.trans hu
    · have hargs' : Forall₂ (Reaches R q.replacer .full) (app w x).args (args ++ [x']) := by
        rw [args_app]
        exact rel_append (hargs.imp fun _ _ h => ⟨d, h⟩) (.cons hx .nil)
      have happlied : ((app w x).head.apply (args ++ [x'])).args ≠ [] := by simp
      have := reaches_of_args hR (t := .app w x) hhead hargs' (hq.change?_of_args happlied)
      rwa [apply_append] at this

private theorem Bare.reaches_placeholder_iff (hc : c < q.classes.size) :
    Reaches R q.replacer .full (.placeholder c) n ↔ Reaches R q.replacer .full (q.output c) n := by
  by_cases hsame : q.output c = .placeholder c
  · rw [hsame]
  · have hchange : q.replacer.change? (.placeholder c) = some (q.output c) := by
      simp [Replacer.change?, replacer, hc, hsame]
    constructor
    · rintro ⟨d, hd⟩
      cases d with
      | zero => cases hd
      | succ d =>
        obtain ⟨w, hw, hcases⟩ := reduce_full_cases hd
        obtain rfl := eq_of_reduce_weak hR hw
        obtain ⟨g, hg, hd⟩ | ⟨hhead, _⟩ := hcases
        · cases hchange.symm.trans hg
          exact ⟨d, hd⟩
        · cases hchange.symm.trans hhead
    · exact fun h => reaches_of_head hR hchange h

/-- What an atom unfolds to. -/
theorem unfolding?_cases {r : Rule} (h : unfolding? R q a = some r) :
    (∃ c, q.member? a = some c ∧ IsBare R a ∧ r = .equation a (.placeholder c)) ∨
      ∃ c cls, q.classes[c]? = some cls ∧ a = .placeholder c ∧
        (cls.parent ≠ c ∧ r = .equation a (.placeholder cls.parent) ∨
          cls.parent = c ∧ cls.rigid ∧ r = .equation a cls.canonical) := by
  cases a with
  | arg i =>
    obtain ⟨c, hc, rfl⟩ := map_eq_some_iff.1 h
    exact .inl ⟨c, hc, trivial, rfl⟩
  | decl id =>
    simp only [unfolding?, hR id] at h
    obtain ⟨c, hc, rfl⟩ := map_eq_some_iff.1 h
    exact .inl ⟨c, hc, hR id, rfl⟩
  | placeholder c =>
    obtain ⟨cls, hcls, h⟩ := bind_eq_some_iff.1 h
    refine .inr ⟨c, cls, hcls, rfl, ?_⟩
    split_ifs at h with hparent hrigid
    · exact .inl ⟨hparent, (some.inj h).symm⟩
    · exact .inr ⟨not_not.1 hparent, hrigid, (some.inj h).symm⟩
  | _ => cases h

/-- What a term is written out to is its normal form. -/
theorem Expands.reaches (hq : Bare R q) (h : Expands R q t n) : Reaches R q.replacer .full t n := by
  induction h with
  | app _ _ ihf ihx => exact hq.reaches_app hR ihf ihx
  | @stop a ha hnone =>
    have hargs : a.args = [] := by rw [← ha, args_head]
    have hchange : q.replacer.change? a.head = none := by
      rw [ha]
      exact hq.change?_of_unfolding? hnone
    have hnil : Forall₂ (Reaches R q.replacer .full) a.args [] := by
      rw [hargs]
      exact .nil
    have hself : Reaches R q.replacer .full a a.head := reaches_of_args hR hchange hnil hchange
    rwa [ha] at hself
  | @unfold a t n ha _ ih =>
    obtain ⟨c, hc, hbare, heq⟩ | ⟨c, cls, hcls, rfl, ⟨hparent, heq⟩ | ⟨hparent, hrigid, heq⟩⟩ :=
      unfolding?_cases hR ha
    · obtain rfl := equation_inj heq
      have hhead := Bare.head_of_isBare hbare
      have hargs : a.args = [] := by rw [← hhead, args_head]
      refine reaches_of_head hR (t := a) (g := q.output c) ?_ ?_
      · rw [hhead]
        exact hq.change?_of_member? hc
      · rw [hargs]
        exact (Bare.reaches_placeholder_iff hR (hq.lt_of_member? hc)).1 ih
    · obtain rfl := equation_inj heq
      have hlt := (Array.getElem?_eq_some_iff.1 hcls).1
      have hlt' : cls.parent < q.classes.size := (hq.shaped.parent c cls hcls).trans_lt hlt
      have hsame : q.output cls.parent = q.output c := by
        unfold output
        rw [hq.shaped.root_parent hcls]
      rw [Bare.reaches_placeholder_iff hR hlt, ← hsame]
      exact (Bare.reaches_placeholder_iff hR hlt').1 ih
    · obtain rfl := equation_inj heq
      have hlt := (Array.getElem?_eq_some_iff.1 hcls).1
      have hwritten : q.output c = cls.canonical := by
        unfold output
        rw [root_eq_self hcls hparent]
        simp [hcls, hrigid]
      rw [Bare.reaches_placeholder_iff hR hlt, hwritten]
      exact ih

end Unruled

/-! ### Classes in canonical terms -/

/-- The canonical term of the rigid class `c` contains a member of the class `d`. -/
def Contains (q : Equalities) (c d : Nat) : Prop :=
  ∃ cls, q.classes[c]? = some cls ∧ cls.rigid ∧ q.mentions d cls.canonical

private theorem expands_of_root (h : Expands R q (.placeholder (q.root c)) n) :
    Expands R q (.placeholder c) n := by
  have hfrom : ∀ steps c, Expands R q (.placeholder (rootFrom q.classes steps c)) n →
      Expands R q (.placeholder c) n := by
    intro steps
    induction steps with
    | zero => exact fun c h => h
    | succ steps ih =>
      intro c h
      unfold rootFrom at h
      split at h
      · next cls hcls =>
        split at h
        · exact h
        · next hparent =>
          refine .unfold ?_ (ih cls.parent h)
          simp [unfolding?, hcls, hparent]
      · exact h
  exact hfrom _ c h

section Unruled

variable (hR : ∀ id, R.ruleFor? id = none)

include hR

theorem Expands.unique (hq : Bare R q) (h : Expands R q t n) (h' : Expands R q t m) : n = m :=
  (h.reaches hR hq).unique (h'.reaches hR hq)

private theorem Bare.size_le_of_mentions (hq : Bare R q) (h : q.mentions d t) (ht : Expands R q t n)
    (hd : Expands R q (.placeholder d) m) : m.size ≤ n.size ∧ (t.args ≠ [] → m.size < n.size) := by
  have hmember : ∀ {a n}, q.memberRoot? a = some d → Expands R q a n → m = n := by
    intro a n ha hn
    obtain ⟨c, hc, rfl⟩ := map_eq_some_iff.1 ha
    have hunfold := Bare.unfolding?_of_member? (hq.isBare_of_member? hc) hc
    exact (Expands.unfold hunfold (expands_of_root hd)).unique hR hq hn
  have hatom : ∀ {a n}, q.memberRoot? a = some d → a.args = [] → Expands R q a n →
      m.size ≤ n.size ∧ (a.args ≠ [] → m.size < n.size) := by
    intro a n ha hargs hn
    rw [hmember ha hn]
    exact ⟨le_rfl, fun hne => absurd hargs hne⟩
  induction t generalizing n with
  | app f x ihf ihx =>
    cases ht with
    | stop ha _ => exact absurd ha (head_ne_app _ _ _)
    | unfold hunfold _ => cases hunfold
    | @app _ f' _ x' hf hx =>
      have hsize : m.size ≤ f'.size ∨ m.size ≤ x'.size := by
        simp only [mentions, or_eq_true, decide_eq_true_eq] at h
        obtain (hroot | h) | h := h
        · obtain ⟨c, hc, _⟩ := map_eq_some_iff.1 hroot
          exact (hq.isBare_of_member? hc).elim
        · exact .inl (ihf h hf).1
        · exact .inr (ihx h hx).1
      simp only [Term.size]
      omega
  | placeholder c =>
    simp only [mentions, or_eq_true, and_eq_true, decide_eq_true_eq] at h
    obtain hroot | ⟨_, rfl⟩ := h
    · exact hatom hroot rfl ht
    · rw [(expands_of_root hd).unique hR hq ht]
      exact ⟨le_rfl, fun hne => absurd rfl hne⟩
  | _ => exact hatom (of_decide_eq_true h) rfl ht

/-- If every term can be written out, no class leads back to itself. -/
theorem Tidy.not_transGen_contains (hq : Tidy R q) (htotal : ∀ t, ∃ n, Expands R q t n) (c : Nat) :
    ¬ Relation.TransGen q.Contains c c := by
  choose written hwritten using fun c => htotal (.placeholder c)
  have hlt : ∀ {c d}, q.Contains c d → (written d).size < (written c).size := by
    rintro c d ⟨cls, hcls, hrigid, hd⟩
    obtain ⟨n, hn⟩ := htotal cls.canonical
    have hunfold : unfolding? R q (.placeholder c) =
        some (.equation (.placeholder c) cls.canonical) := by
      simp [unfolding?, hcls, hq.rigidRoot c cls hcls hrigid, hrigid]
    rw [(hwritten c).unique hR hq.toBare (.unfold hunfold hn)]
    refine (hq.toBare.size_le_of_mentions hR hd hn (hwritten d)).2 fun hargs => ?_
    -- a postulate or a leaf that stands alone is no member
    have hrigid' := hq.shaped.rigid c cls hcls hrigid
    cases hcanonical : cls.canonical with
    | app f x => simp [hcanonical] at hargs
    | postulate | leaf =>
      rw [hcanonical] at hd
      obtain ⟨e, he, _⟩ := map_eq_some_iff.1 (of_decide_eq_true hd)
      exact hq.isBare_of_member? he
    | _ =>
      rw [hcanonical] at hrigid'
      cases hrigid'
  intro h
  have : ∀ {d}, Relation.TransGen q.Contains c d → (written d).size < (written c).size := by
    intro d h
    induction h with
    | single h => exact hlt h
    | tail _ h ih => exact (hlt h).trans ih
  exact lt_irrefl _ (this h)

end Unruled

/-! ### Equations that are added -/

/-- The contexts differ in one equation: the atom `b` unfolded to nothing in the first one and is
written out to `v` in the second. -/
structure Binds (R : RuleTable) (q : Equalities) (b v : Term) (q' : Equalities) : Prop where
  kept : ∀ {a r}, unfolding? R q a = some r → unfolding? R q' a = some r
  others : ∀ {a}, a ≠ b → unfolding? R q a = none → unfolding? R q' a = none
  free : unfolding? R q b = none
  bound : unfolding? R q' b ≠ none
  value : Expands R q' b v

private theorem exchange_of_head (ha : a.head = a) : exchange b v a = if a = b then v else a := by
  cases a with
  | app f x => exact absurd ha (head_ne_app _ _ _)
  | _ => rfl

theorem Binds.expands (h : Binds R q b v q') (ht : Expands R q t n) :
    Expands R q' t (.exchange b v n) := by
  induction ht with
  | app _ _ ihf ihx => exact ihf.app ihx
  | @stop a ha hnone =>
    rw [exchange_of_head ha]
    split
    · next hab => exact hab ▸ h.value
    · next hab => exact .stop ha (h.others hab hnone)
  | unfold ha _ ih => exact .unfold (h.kept ha) ih

private theorem Expands.of_kept
    (hkept : ∀ {a r}, unfolding? R q a = some r → unfolding? R q' a = some r)
    (hothers : ∀ {a}, a ≠ b → unfolding? R q a = none → unfolding? R q' a = none)
    (ht : Expands R q t n) (hn : n.All (· ≠ b)) : Expands R q' t n := by
  induction ht with
  | app _ _ ihf ihx => exact (ihf hn.1).app (ihx hn.2)
  | @stop a ha hnone =>
    refine .stop ha (hothers ?_ hnone)
    cases a with
    | app f x => exact absurd ha (head_ne_app _ _ _)
    | _ => exact hn
  | unfold ha _ ih => exact .unfold (hkept ha) (ih hn)

private theorem Grown.unfolding? (h : Grown R q q') {r : Rule} (hr : unfolding? R q a = some r) :
    Equalities.unfolding? R q' a = some r := by
  have hkey := h.sub (keyOf a) r
  simp only [ruleFor?_table] at hkey
  cases a with
  | arg | decl | placeholder => simpa [keyOf] using hkey (by simpa [keyOf] using hr)
  | _ => cases hr

theorem Tidy.binds_enter (hq : Tidy R q) (hbare : IsBare R t) (hnew : q.member? t = none) :
    Binds R q t (.placeholder q.classes.size) (q.enter t) := by
  have hmember : (q.enter t).member? t = some q.classes.size := by
    rw [member?_enter, hnew]
    simp
  have hunfold := Bare.unfolding?_of_member? hbare hmember
  refine ⟨(hq.enter hbare hnew).unfolding?, fun {a} hat hnone => ?_, ?_, ?_, ?_⟩
  · have hsame : (q.enter t).member? a = q.member? a := by
      rw [member?_enter, if_neg (Ne.symm hat), or_none]
    cases a with
    | arg i => simpa [unfolding?, hsame] using hnone
    | decl id => simpa [unfolding?, hsame] using hnone
    | placeholder c =>
      by_cases hc : c = q.classes.size
      · subst hc
        exact (isOpen_enter q t).unfolding?
      · simpa [unfolding?, getElem?_enter, hc] using hnone
    | _ => rfl
  · cases t with
    | arg i => simp [unfolding?, hnew]
    | decl id =>
      have hrule : R.ruleFor? id = none := hbare
      simp [unfolding?, hrule, hnew]
    | _ => cases hbare
  · simp [hunfold]
  · exact .unfold hunfold (.stop rfl (isOpen_enter q t).unfolding?)

theorem Tidy.binds_join (hq : Tidy R q) {top below : Nat} (hlt : top < below) (htop : q.IsOpen top)
    (hbelow : q.IsOpen below) :
    Binds R q (.placeholder below) (.placeholder top) (q.join top below) := by
  have hothers : ∀ {a}, a ≠ .placeholder below → unfolding? R q a = none →
      unfolding? R (q.join top below) a = none := by
    intro a hne hnone
    cases a with
    | placeholder c =>
      have hc : below ≠ c := fun h => hne (h ▸ rfl)
      simpa [unfolding?, getElem?_join, hc] using hnone
    | _ => exact hnone
  have hunfold : unfolding? R (q.join top below) (.placeholder below) =
      some (.equation (.placeholder below) (.placeholder top)) := by
    obtain ⟨cls, hcls, _⟩ := hbelow
    simp [unfolding?, getElem?_join, hcls, hlt.ne]
  refine ⟨(hq.join hlt hbelow).unfolding?, hothers, hbelow.unfolding?, by simp [hunfold], ?_⟩
  refine .unfold hunfold (.stop rfl (hothers ?_ htop.unfolding?))
  simpa using hlt.ne

private theorem Tidy.expands_eliminate (hq : Tidy R q)
    (ht : t.All fun a => unfolding? R q a = none ∧ ∀ c, a = .placeholder c → q.IsOpen c) :
    Expands R q (q.eliminate t) t := by
  induction t with
  | app f x ihf ihx => exact (ihf ht.1).app (ihx ht.2)
  | placeholder c =>
    have hopen := ht.2 c rfl
    rw [eliminate_placeholder]
    unfold value canonical?
    rw [hopen.root]
    obtain ⟨cls, hcls, _, hrigid⟩ := hopen
    have hmember := hq.first c cls hcls hrigid
    rw [hcls]
    exact .unfold (Bare.unfolding?_of_member? (hq.member _ hmember) (hq.found _ hmember))
      (.stop rfl ht.1)
  | _ => exact .stop rfl ht.1

private theorem Tidy.all_of_mentions (hq : Tidy R q) (hc : q.IsOpen c)
    (h : q.mentions c (q.eliminate t) = false) :
    t.All fun a => a ≠ .placeholder c ∧ q.member? a ≠ some c := by
  have hmember : ∀ {a}, q.member? a = some c → q.mentions c a = true := by
    intro a ha
    have hbare := hq.isBare_of_member? ha
    cases a with
    | arg | decl => simp [mentions, memberRoot?, ha, hc.root]
    | _ => cases hbare
  induction t with
  | app f x ihf ihx =>
    simp only [eliminate_app, mentions, or_eq_false_iff] at h
    exact ⟨ihf h.1.2, ihx h.2⟩
  | placeholder d =>
    refine ⟨?_, fun hd => ?_⟩
    · rintro ⟨⟩
      rw [eliminate_placeholder, value, canonical?, hc.root] at h
      obtain ⟨cls, hcls, _, hrigid⟩ := hc
      rw [hcls] at h
      have hfound := hq.found _ (hq.first c cls hcls hrigid)
      cases (hmember hfound).symm.trans h
    · exact (hq.isBare_of_member? hd).elim
  | _ => exact ⟨fun h => (by cases h), fun ha => eq_false_iff.1 h (hmember ha)⟩

theorem Tidy.binds_settle (hq : Tidy R q) (hc : q.IsOpen c) (hrigid : u.isRigid)
    (hu : u.All fun a => (unfolding? R q a = none ∨ q.member? a = some c) ∧
      ∀ d, a = .placeholder d → q.IsOpen d)
    (h : q.mentions c (q.eliminate u) = false) :
    Binds R q (.placeholder c) u (q.settle c (q.eliminate u)) := by
  have hothers : ∀ {a}, a ≠ .placeholder c → unfolding? R q a = none →
      unfolding? R (q.settle c (q.eliminate u)) a = none := by
    intro a hne hnone
    cases a with
    | placeholder d =>
      have hd : c ≠ d := fun h => hne (h ▸ rfl)
      simpa [unfolding?, getElem?_settle, hd] using hnone
    | _ => exact hnone
  have hunfold : unfolding? R (q.settle c (q.eliminate u)) (.placeholder c) =
      some (.equation (.placeholder c) (q.eliminate u)) := by
    obtain ⟨cls, hcls, hparent, _⟩ := hc
    simp [unfolding?, getElem?_settle, hcls, hparent]
  have hkept : ∀ {a r}, unfolding? R q a = some r →
      unfolding? R (q.settle c (q.eliminate u)) a = some r :=
    (hq.settle hc (isRigid_eliminate q hrigid)).unfolding?
  have hunmentioned := hq.all_of_mentions hc h
  have hback : Expands R q (q.eliminate u) u := by
    refine hq.expands_eliminate ((hu.and hunmentioned).mono fun a ha => ⟨?_, ha.1.2⟩)
    exact ha.1.1.resolve_right ha.2.2
  refine ⟨hkept, hothers, hc.unfolding?, by simp [hunfold], .unfold hunfold ?_⟩
  exact hback.of_kept hkept hothers (hunmentioned.mono fun a ha => ha.1)

/-! ### How much is left to be equated -/

/-- The number of atoms in `V` and of placeholders that unfold to nothing. -/
def unbound (R : RuleTable) (V : Finset Term) (q : Equalities) : Nat :=
  (V.filter fun a => (unfolding? R q a).isNone).card +
    ((Finset.range q.classes.size).filter fun c => (unfolding? R q (.placeholder c)).isNone).card

namespace Binds

variable {V : Finset Term}

private theorem isNone_eq (h : Binds R q b v q') (hab : a ≠ b) :
    (unfolding? R q' a).isNone = (unfolding? R q a).isNone := by
  cases ha : unfolding? R q a with
  | none => rw [h.others hab ha]
  | some r => rw [h.kept ha]

/-- One placeholder less is left. -/
theorem unbound_of_placeholder (h : Binds R q (.placeholder c) v q') (hV : .placeholder c ∉ V)
    (hc : c < q.classes.size) (hsize : q'.classes.size = q.classes.size) :
    unbound R V q' + 1 = unbound R V q := by
  have hatoms : (V.filter fun a => (unfolding? R q' a).isNone) =
      V.filter fun a => (unfolding? R q a).isNone := by
    refine Finset.filter_congr fun a ha => ?_
    rw [h.isNone_eq (ne_of_mem_of_not_mem ha hV)]
  have hclasses : ((Finset.range q'.classes.size).filter fun d =>
      (unfolding? R q' (.placeholder d)).isNone) =
      ((Finset.range q.classes.size).filter fun d =>
        (unfolding? R q (.placeholder d)).isNone).erase c := by
    ext d
    rw [Finset.mem_erase, Finset.mem_filter, Finset.mem_filter, hsize]
    by_cases hd : d = c
    · subst hd
      simp [h.bound]
    · have hne : placeholder d ≠ .placeholder c := fun he => hd (placeholder.inj he)
      simp [hd, h.isNone_eq hne]
  have hmem : c ∈ (Finset.range q.classes.size).filter fun d =>
      (unfolding? R q (.placeholder d)).isNone := by
    simp [hc, h.free]
  have hpos := Finset.card_pos.2 ⟨c, hmem⟩
  unfold unbound
  rw [hatoms, hclasses, Finset.card_erase_of_mem hmem]
  omega

/-- An atom less is left, but a placeholder more. -/
theorem unbound_of_mem (h : Binds R q b v q') (hb : b ∈ V) (hplain : ∀ c, b ≠ .placeholder c)
    (hsize : q'.classes.size = q.classes.size + 1)
    (hfresh : unfolding? R q' (.placeholder q.classes.size) = none) :
    unbound R V q' = unbound R V q := by
  have hatoms : (V.filter fun a => (unfolding? R q' a).isNone) =
      (V.filter fun a => (unfolding? R q a).isNone).erase b := by
    ext a
    rw [Finset.mem_erase, Finset.mem_filter, Finset.mem_filter]
    by_cases ha : a = b
    · subst ha
      simp [h.bound]
    · simp [ha, h.isNone_eq ha]
  have hclasses : ((Finset.range q'.classes.size).filter fun d =>
      (unfolding? R q' (.placeholder d)).isNone) =
      insert q.classes.size ((Finset.range q.classes.size).filter fun d =>
        (unfolding? R q (.placeholder d)).isNone) := by
    rw [hsize, Finset.range_add_one, Finset.filter_insert, if_pos (by simp [hfresh])]
    congr 1
    exact Finset.filter_congr fun d _ => by rw [h.isNone_eq (hplain d).symm]
  have hmem : b ∈ V.filter fun a => (unfolding? R q a).isNone := by simp [hb, h.free]
  have hpos := Finset.card_pos.2 ⟨b, hmem⟩
  unfold unbound
  rw [hatoms, hclasses, Finset.card_erase_of_mem hmem, Finset.card_insert_of_notMem (by simp)]
  omega

end Binds

end Equalities
end Elaboration
