import Elaboration.Proofs.Equalities.Alike

/-!
# Settled contexts

After an assumption the members are normalised in a bounded number of rounds. Once a round leaves
the equalities as they are, every later one does, and then it matters neither whether members are
normalised again before a term is, nor how many unrelated rules were installed in between.
-/

namespace Elaboration

open Ends Equalities Kernel KernelM List Reduction RuleTable Telescope Term
namespace Equalities

variable {env : Setting} {q : Equalities} {s s' : State} {pending : List (Term × Nat)} {n g : Nat}
  {p : Nat → Prop} {S : RuleTable} {lhs rhs : Term}

/-- A round leaves the equalities as they are. -/
def Rests (env : Setting) (s : State) : Prop :=
  ∃ changed s', round env s = .ok changed s' ∧ s'.equalities = s.equalities

/-- One of the next rounds leaves the equalities as they are. -/
inductive ComesToRest (env : Setting) : Nat → State → Prop where
  | now {n : Nat} {s : State} : Rests env s → ComesToRest env (n + 1) s
  | later {n : Nat} {s s' : State} : round env s = .ok true s' → ComesToRest env n s' →
    ComesToRest env (n + 1) s

/-- Merges the classes of two terms, as an assumption does before members are normalised again. -/
def record (env : Setting) (lhs rhs : Term) : Change (Except Contradiction Unit) := do
  let lhs ← normalize env lhs
  let rhs ← normalize env rhs
  note (.assuming lhs rhs)
  merge env env.limit lhs rhs

/-- One of the rounds after the assumption leaves the equalities as they are, if there are any. -/
def RestsAfter (env : Setting) (lhs rhs : Term) (s : State) : Prop :=
  ∀ s0, record env lhs rhs s = .ok (.ok ()) s0 → s0.equalities.hasClasses →
    ComesToRest env maxRounds ⟨s0.equalities.dated env.rules.generation, s0.journal⟩

/-! ### Rounds that find nothing new -/

private theorem eq_of_recordMoved {fresh : Term} {c : Nat}
    (h : recordMoved env fresh c s = .ok false s') : s' = s := by
  have hafter : ∀ {α : Type} {x : Change α}, Ends (x >>= fun _ => pure true) s
      (fun changed s' => changed = false → s' = s) fun _ _ => True :=
    fun {_ _} => bind_iff.2 (.of_answer fun _ _ _ => by simp)
  have hends : Ends (recordMoved env fresh c) s (fun changed s' => changed = false → s' = s)
      fun _ _ => True := by
    change Ends (if s.equalities.memberRoot? fresh = some (s.equalities.root c) then
      (pure false : Change Bool) else _) s _ _
    split
    · exact fun _ => rfl
    · split
      · exact hafter
      · split
        · exact hafter
        · split
          · exact hafter
          · exact hafter
  exact hends.of_ok h rfl

private theorem eq_of_recordAllMoved (h : recordAllMoved env pending s = .ok false s') :
    s' = s := by
  induction pending generalizing s with
  | nil =>
    cases h
    rfl
  | cons m rest ih =>
    obtain ⟨first, s1, hfirst, h⟩ := bind_eq_ok_iff.1 h
    obtain ⟨others, s2, hothers, h⟩ := bind_eq_ok_iff.1 h
    obtain ⟨hout, rfl⟩ : (first || others) = false ∧ s2 = s' := EStateM.Result.ok.inj h
    obtain ⟨rfl, rfl⟩ := Bool.or_eq_false_iff.1 hout
    rw [ih hothers, eq_of_recordMoved hfirst]

private theorem eq_of_moved (h : moved env s = .ok pending s') : s' = s := by
  obtain ⟨q, _, ⟨⟩, h⟩ := bind_eq_ok_iff.1 h
  obtain ⟨forms, s1, hforms, h⟩ := bind_eq_ok_iff.1 h
  cases h
  unfold reduceAllIn at hforms
  split at hforms
  · cases hforms
    rfl
  · cases hforms

private theorem eq_of_round (h : round env s = .ok false s') : s' = s := by
  obtain ⟨pending, s1, hmoved, h⟩ := bind_eq_ok_iff.1 h
  rw [eq_of_recordAllMoved h, eq_of_moved hmoved]

private theorem comesToRest_of_rounds (h : rounds env n s = .ok () s') :
    ComesToRest env n s ∨ ∃ journal, Noted s.journal journal ∧
      s'.journal = .contextUnsettled maxRounds :: journal := by
  induction n generalizing s with
  | zero =>
    cases h
    exact .inr ⟨s.journal, .refl _, rfl⟩
  | succ n ih =>
    obtain ⟨changed, s1, hround, h⟩ := bind_eq_ok_iff.1 h
    cases changed with
    | false => exact .inl (.now ⟨false, s1, hround, congrArg _ (eq_of_round hround)⟩)
    | true =>
      obtain hrests | ⟨journal, hnoted, hjournal⟩ := ih h
      · exact .inl (.later hround hrests)
      · have htraces : Traces (round env) s := Discipline.keeps_round (D := tracing env)
        exact .inr ⟨journal, (htraces.ends.of_ok hround).noted.trans hnoted, hjournal⟩

/-! ### Rounds that leave the equalities as they are -/

private theorem Rests.twin (h : Rests env s) (hRS : env.rules.AgreeOn p S) (s1 : State)
    (htwin : Twin p g s s1) : Rests ⟨S, env.limit, env.order⟩ s1 := by
  obtain ⟨changed, s', hround, hsame⟩ := h
  obtain ⟨s1', hround1, _, htwin'⟩ := Alike.round hRS htwin changed s' hround
  exact ⟨changed, s1', hround1, by rw [htwin'.same, htwin.same, hsame]⟩

private theorem Rests.of_dated (h : Rests env s) (s1 : State)
    (hsame : s1.equalities = s.equalities.dated g) : Rests env s1 :=
  h.twin (.refl _) s1 ⟨hsame, fun _ _ _ => all_declIn_true _, fun _ _ => all_declIn_true _⟩

private theorem Rests.exists_rounds (h : Rests env s) (n : Nat) :
    ∃ s', rounds env n s = .ok () s' ∧ s'.equalities = s.equalities := by
  induction n generalizing s with
  | zero => exact ⟨_, rfl, rfl⟩
  | succ n ih =>
    obtain ⟨changed, s1, hround, hsame⟩ := h
    cases changed with
    | false => exact ⟨s1, bind_eq_ok_iff.2 ⟨false, s1, hround, rfl⟩, hsame⟩
    | true =>
      obtain ⟨s', hrounds, hsame'⟩ := ih (Rests.of_dated (s := s) ⟨_, _, hround, hsame⟩ s1 hsame)
      exact ⟨s', bind_eq_ok_iff.2 ⟨true, s1, hround, hrounds⟩, hsame'.trans hsame⟩

private theorem ComesToRest.rests (h : ComesToRest env n s) (hrounds : rounds env n s = .ok () s') :
    Rests env s' := by
  induction h with
  | @now n s h =>
    obtain ⟨s1, hrounds', hsame⟩ := h.exists_rounds (n + 1)
    cases hrounds.symm.trans hrounds'
    exact h.of_dated _ hsame
  | later hround _ ih =>
    obtain ⟨changed, s1, hround', h⟩ := bind_eq_ok_iff.1 hrounds
    cases hround.symm.trans hround'
    exact ih h

/-- Nothing is normalised again, for want of classes, or a round leaves the equalities as they are.
-/
def Settled (env : Setting) (s : State) : Prop := s.equalities.hasClasses → Rests env s

private theorem Settled.exists_canonicalize (h : Settled env s) :
    ∃ s', canonicalize env s = .ok () s' ∧
    s'.equalities = s.equalities.dated env.rules.generation := by
  let s1 : State := { s with equalities := s.equalities.dated env.rules.generation }
  change ∃ s', (if s.equalities.hasClasses then rounds env maxRounds else pure ()) s1 = _ ∧ _
  split
  · next hclasses => exact ((h hclasses).of_dated s1 rfl).exists_rounds maxRounds
  · exact ⟨s1, rfl, rfl⟩

private theorem exists_record (h : assume env lhs rhs s = .ok (.ok ()) s') :
    ∃ s0, record env lhs rhs s = .ok (.ok ()) s0 ∧ canonicalize env s0 = .ok () s' := by
  obtain ⟨t, s1, ht, h⟩ := bind_eq_ok_iff.1 h
  obtain ⟨u, s2, hu, h⟩ := bind_eq_ok_iff.1 h
  obtain ⟨_, s3, hnote, h⟩ := bind_eq_ok_iff.1 h
  obtain ⟨out, s4, hmerge, h⟩ := bind_eq_ok_iff.1 h
  cases out with
  | error e => cases h
  | ok _ =>
    obtain ⟨_, s5, hcanonicalize, h⟩ := bind_eq_ok_iff.1 h
    cases h
    refine ⟨s4, bind_eq_ok_iff.2 ⟨t, s1, ht, bind_eq_ok_iff.2 ⟨u, s2, hu, ?_⟩⟩, hcanonicalize⟩
    exact bind_eq_ok_iff.2 ⟨_, s3, hnote, hmerge⟩

private theorem settled_of_restsAfter (h : assume env lhs rhs s = .ok (.ok ()) s')
    (hrests : RestsAfter env lhs rhs s) : Settled env s' := by
  obtain ⟨s0, hrecord, h⟩ := exists_record h
  change (if s0.equalities.hasClasses then rounds env maxRounds else pure ()) _ = _ at h
  intro hclasses
  split at h
  · next hclasses0 => exact (hrests s0 hrecord hclasses0).rests h
  · next hclasses0 =>
    cases h
    exact absurd hclasses hclasses0

private theorem restsAfter_of_quiet (h : assume env lhs rhs s = .ok (.ok ()) s') {new : List Event}
    (hjournal : s'.journal = new ++ s.journal) (hnew : .contextUnsettled maxRounds ∉ new) :
    RestsAfter env lhs rhs s := by
  obtain ⟨s0, hrecord, h⟩ := exists_record h
  intro s1 hrecord' hclasses
  cases hrecord.symm.trans hrecord'
  change (if s0.equalities.hasClasses then rounds env maxRounds else pure ()) _ = _ at h
  rw [if_pos hclasses] at h
  refine (comesToRest_of_rounds h).resolve_right ?_
  rintro ⟨journal, hnoted, hwarned⟩
  have hrecorded : Traces (record env lhs rhs) s := by
    refine Course.Keeps.bind (traces_reduceIn env .full lhs) fun t _ _ _ => ?_
    refine Course.Keeps.bind (traces_reduceIn env .full rhs) fun u _ _ _ => ?_
    exact (Discipline.keeps_note (D := tracing env) rfl).bind fun _ _ _ _ => traces_merge _ _ t u
  obtain ⟨old, rfl, _⟩ := (hrecorded.ends.of_ok hrecord).noted.trans hnoted
  rw [hjournal, ← cons_append] at hwarned
  rw [append_cancel_right hwarned] at hnew
  exact absurd mem_cons_self hnew

/-- The terms that the context holds. -/
def terms (q : Equalities) : List Term :=
  q.members.map Prod.fst ++ q.classes.toList.map Class.canonical

private theorem allTerms_of_forall (hq : ∀ t ∈ q.terms, Within p t) : q.AllTerms (Within p) where
  canonical c cls hc := by
    refine hq _ (mem_append_right _ (mem_map_of_mem ?_))
    rw [Array.getElem?_eq_some_iff] at hc
    obtain ⟨hlt, rfl⟩ := hc
    exact Array.getElem_mem_toList hlt
  member m hm := hq _ (mem_append_left _ (mem_map_of_mem hm))

end Equalities

private theorem KernelM.changeContext_eq_ok_iff {α : Type} {c : Nat}
    {x : Setting → Change α} {k k' : Kernel} {a : α} :
    changeContext c x k = .ok a k' ↔
      ∃ s, x k.setting ⟨k.equalities c, k.journal⟩ = .ok a s ∧ k' = k.withContext c s := by
  unfold changeContext equalities
  cases x k.setting ⟨k.contexts[c]?.getD .empty, k.journal⟩ with
  | ok b s =>
    constructor
    · intro h
      cases h
      exact ⟨s, rfl, rfl⟩
    · rintro ⟨s', h, rfl⟩
      cases h
      rfl
  | error e s => exact ⟨nofun, fun ⟨_, h, _⟩ => nomatch h⟩

namespace Telescope

private theorem reduce_eq_ok_iff {tele : Telescope} {k : Kernel} {t u : Term}
    (h : Settled k.setting ⟨k.equalities tele.context, k.journal⟩) :
    (∃ k', tele.reduce t k = .ok u k') ↔
      run? k.rules (k.equalities tele.context).replacer k.limit .full t = some u := by
  let q := k.equalities tele.context
  -- the term is normalised in a context that differs in its generation at most
  have hnormalize : ∀ k1 : Kernel, k1.rules = k.rules → k1.limit = k.limit →
      (k1.equalities tele.context).replacer = q.replacer →
      ((∃ k', changeContext tele.context (fun env => normalize env t) k1 =
        .ok u k') ↔ run? k.rules q.replacer k.limit .full t = some u) := by
    intro k1 hrules hlimit hreplacer
    simp only [changeContext_eq_ok_iff, normalize_eq_ok_iff, setting]
    rw [hrules, hlimit, hreplacer]
    exact ⟨fun ⟨_, _, h, _⟩ => h.2, fun h => ⟨_, _, ⟨rfl, h⟩, rfl⟩⟩
  change (∃ k', (if q.hasClasses && q.generation != k.rules.generation then
    changeContext tele.context canonicalize >>= fun _ =>
      changeContext tele.context fun env => normalize env t
    else changeContext tele.context fun env => normalize env t) k = .ok u k') ↔ _
  split
  · obtain ⟨s', hs', hsame⟩ := h.exists_canonicalize
    have hcanonicalize : changeContext tele.context canonicalize k =
        .ok () (k.withContext tele.context s') :=
      changeContext_eq_ok_iff.2 ⟨s', hs', rfl⟩
    simp only [bind_eq_ok_iff, hcanonicalize]
    refine Iff.trans ⟨?_, ?_⟩ (hnormalize (k.withContext tele.context s') rfl rfl ?_)
    · rintro ⟨k', _, _, h, h'⟩
      cases h
      exact ⟨k', h'⟩
    · rintro ⟨k', h⟩
      exact ⟨k', _, _, rfl, h⟩
    · by_cases hc : tele.context < k.contexts.size
      · rw [equalities_withContext hc, hsame]
        rfl
      · -- a context that does not exist is empty and stays so
        simp [q, equalities, withContext, hc]
  · exact hnormalize k rfl rfl rfl

end Telescope

namespace Equalities

/-- Let an assumption be recorded without contradiction. If no warning was given, one of the rounds
after it left the equalities as they are. If one did, warning or not, normalising the members again
changes nothing, and below a telescope with this context every term is normalised alike under any
two tables of which the rules that differ belong to declarations on which neither the term nor the
context depends, however many rules were installed in between. -/
theorem canonicalize_of_assume_eq_ok {env : Setting} {lhs rhs : Term} {s s' : State}
    (h : assume env lhs rhs s = .ok (.ok ()) s') :
    (∀ new, s'.journal = new ++ s.journal → .contextUnsettled maxRounds ∉ new →
      RestsAfter env lhs rhs s) ∧
    (RestsAfter env lhs rhs s →
      (∃ s'', canonicalize env s' = .ok () s'' ∧
        s''.equalities = { s'.equalities with generation := env.rules.generation } ∧
        ∀ depth mode t, run? env.rules s''.equalities.replacer depth mode t =
          run? env.rules s'.equalities.replacer depth mode t) ∧
      ∀ (tele : Telescope) (k k' : Kernel) (t : Term), k.setting = env → k'.limit = k.limit →
        k'.order = k.order → k.equalities tele.context = s'.equalities →
        k'.equalities tele.context = s'.equalities →
        (∀ id, k'.rules.ruleFor? id ≠ k.rules.ruleFor? id →
          ∀ u ∈ t :: s'.equalities.terms, k.rules.dependsOn u id = false) →
        ∀ u, (∃ k1, tele.reduce t k = .ok u k1) ↔ ∃ k1, tele.reduce t k' = .ok u k1) := by
  refine ⟨fun new => restsAfter_of_quiet h, fun hrests => ?_⟩
  have hsettled := settled_of_restsAfter h hrests
  obtain ⟨s'', hs'', hsame⟩ := hsettled.exists_canonicalize
  refine ⟨⟨s'', hs'', hsame, fun _ _ _ => hsame ▸ rfl⟩, ?_⟩
  rintro tele k k' t rfl hlimit horder hk hk' hunrelated u
  have hagree := agreeOn_of_dependsOn k.rules k'.rules
  have hterms : ∀ u ∈ t :: s'.equalities.terms, u.All (DeclIn fun id =>
      ∀ j, k'.rules.ruleFor? j ≠ k.rules.ruleFor? j → k.rules.dependsOn (.decl id) j = false) :=
    fun u hu => all_declIn.2 fun id hid j hj =>
      dependsOn_decl_of_mem (hunrelated j hj u hu) hid
  obtain ⟨ht, hq⟩ := forall_mem_cons.1 hterms
  have hover := allTerms_of_forall hq
  -- the journals of the two kernels do not matter
  have hsettles : Settled k.setting ⟨k.equalities tele.context, k.journal⟩ := fun hclasses =>
    (hsettled (hk ▸ hclasses)).of_dated ⟨_, _⟩ hk
  have hsettles' : Settled k'.setting ⟨k'.equalities tele.context, k'.journal⟩ := by
    intro hclasses
    rw [setting, hlimit, horder]
    exact (hsettled (hk' ▸ hclasses)).twin hagree ⟨_, _⟩ ⟨hk', hover⟩
  rw [reduce_eq_ok_iff hsettles, reduce_eq_ok_iff hsettles', hk, hk', hlimit,
    run?_of_agreeOn hagree (hover.replacer hereditary_within) _ _ ht]

/-- The rule `f (succ n) := succ n`. -/
def overSuccessors : Setting where
  rules := install {} 0 ⟨.decl 0, 1, [.pull, .destructure (.arg 0) (.postulate 0) 1],
    .app (.postulate 0) (.arg 1)⟩
  limit := 20
  order := .recorded

set_option synthInstance.maxSize 1000 in
/-- With `f $0 = $2` and then `$0 = succ $1` assumed, `succ $1` is recorded for `f $0` in every
round, with a warning, but only the first round changes anything: `$2` is normalised to `succ $1`,
also after a rule for another declaration. -/
theorem canonicalize_of_assume_successor :
    ∃ s s', assume overSuccessors (.app (.decl 0) (.arg 0)) (.arg 2) ⟨.empty, []⟩ =
        .ok (.ok ()) s ∧
      assume overSuccessors (.arg 0) (.app (.postulate 0) (.arg 1)) s = .ok (.ok ()) s' ∧
      (∃ e ∈ s'.journal, e matches .contextUnsettled _) ∧
      (∃ s'', canonicalize overSuccessors s' = .ok () s'' ∧ s''.equalities = s'.equalities) ∧
      ∃ k1, Telescope.reduce ⟨[], Primitive.type, Primitive.type, 0⟩ (.arg 2)
        { Kernel.initial with
          limit := 20
          rules := install overSuccessors.rules 1 (.lambda (.decl 1) 0 Primitive.type)
          contexts := #[s'.equalities] } = .ok (.app (.postulate 0) (.arg 1)) k1 := by
  obtain ⟨_, s, hs, rfl, ⟨_, s0, hs0, rfl, _, s1, hs1, rfl, _, s2, hs2, hsame⟩, _, s', hs', rfl,
      hwarned, hunrelated, hgeneration, hvalue⟩ :
      ∃ x s, assume overSuccessors (.app (.decl 0) (.arg 0)) (.arg 2) ⟨.empty, []⟩ = .ok x s ∧
      x = .ok () ∧
      (∃ x s0, record overSuccessors (.arg 0) (.app (.postulate 0) (.arg 1)) s = .ok x s0 ∧
        x = .ok () ∧
        ∃ b s1, round overSuccessors ⟨s0.equalities.dated 1, s0.journal⟩ = .ok b s1 ∧ b = true ∧
        ∃ b s2, round overSuccessors s1 = .ok b s2 ∧ s2.equalities = s1.equalities) ∧
      ∃ x s', assume overSuccessors (.arg 0) (.app (.postulate 0) (.arg 1)) s = .ok x s' ∧
      x = .ok () ∧ (∃ e ∈ s'.journal, e matches .contextUnsettled _) ∧
      (∀ u ∈ .arg 2 :: s'.equalities.terms, overSuccessors.rules.dependsOn u 1 = false) ∧
      s'.equalities.generation = 1 ∧
      run? overSuccessors.rules s'.equalities.replacer 20 .full (.arg 2) =
        some (.app (.postulate 0) (.arg 1)) := by
    decide +kernel
  have hrests : RestsAfter overSuccessors (.arg 0) (.app (.postulate 0) (.arg 1)) s := by
    intro s3 hs3 _
    cases hs0.symm.trans hs3
    exact .later hs1 (.now ⟨_, s2, hs2, hsame⟩)
  obtain ⟨⟨s'', hs'', hsame', -⟩, hreduce⟩ := (canonicalize_of_assume_eq_ok hs').2 hrests
  refine ⟨s, s', hs, hs', hwarned, ⟨s'', hs'', ?_⟩, ?_⟩
  · rw [hsame']
    exact congrArg (fun generation => { s'.equalities with generation }) hgeneration.symm
  · let k : Kernel := { Kernel.initial with
      limit := 20
      rules := overSuccessors.rules
      contexts := #[s'.equalities] }
    let k' : Kernel :=
      { k with rules := install overSuccessors.rules 1 (.lambda (.decl 1) 0 Primitive.type) }
    refine (hreduce ⟨[], Primitive.type, Primitive.type, 0⟩ k k' (.arg 2) rfl rfl rfl rfl rfl ?_
      _).1 ?_
    · intro id hid
      have hone : id = 1 := by
        by_contra hne
        exact hid (ruleFor?_install _ 1 id _ ▸ if_neg (Ne.symm hne))
      exact hone ▸ hunrelated
    · refine (reduce_eq_ok_iff fun hclasses => ?_).2 hvalue
      exact (settled_of_restsAfter hs' hrests hclasses).of_dated ⟨_, _⟩ rfl

set_option synthInstance.maxSize 1000 in
/-- After a contradiction the members are not normalised again: with `f $0 = $2` and `f $1 = $3`,
`pair $0 a = pair $1 b` equates `$0` and `$1` before it contradicts, and `$2` and `$3` are found
equal only the next time. -/
theorem exists_ne_after_canonicalize :
    ∃ s1 s2 s3 s4 e,
      assume ⟨{}, 20, .recorded⟩ (.app (.decl 3) (.arg 0)) (.arg 2) ⟨.empty, []⟩ = .ok (.ok ()) s1 ∧
      assume ⟨{}, 20, .recorded⟩ (.app (.decl 3) (.arg 1)) (.arg 3) s1 = .ok (.ok ()) s2 ∧
      assume ⟨{}, 20, .recorded⟩ (.app (.app (.postulate 0) (.arg 0)) (.postulate 1))
        (.app (.app (.postulate 0) (.arg 1)) (.postulate 2)) s2 = .ok (.error e) s3 ∧
      canonicalize ⟨{}, 20, .recorded⟩ s3 = .ok () s4 ∧
      Reduction.run? {} s3.equalities.replacer 20 .full (.arg 3) = some (.placeholder 2) ∧
      Reduction.run? {} s4.equalities.replacer 20 .full (.arg 3) = some (.placeholder 0) := by
  obtain ⟨_, s1, hs1, rfl, _, s2, hs2, rfl, _, s3, hs3, ⟨e, rfl, -⟩, ⟨⟩, s4, hs4, hreduced⟩ :
      ∃ x s1, assume ⟨{}, 20, .recorded⟩ (.app (.decl 3) (.arg 0)) (.arg 2) ⟨.empty, []⟩ =
        .ok x s1 ∧
      x = .ok () ∧
      ∃ y s2, assume ⟨{}, 20, .recorded⟩ (.app (.decl 3) (.arg 1)) (.arg 3) s1 = .ok y s2 ∧
        y = .ok () ∧
      ∃ z s3, assume ⟨{}, 20, .recorded⟩ (.app (.app (.postulate 0) (.arg 0)) (.postulate 1))
        (.app (.app (.postulate 0) (.arg 1)) (.postulate 2)) s2 = .ok z s3 ∧
      (∃ e, z = .error e ∧ True) ∧ ∃ u s4, canonicalize ⟨{}, 20, .recorded⟩ s3 = .ok u s4 ∧
      run? {} s3.equalities.replacer 20 .full (.arg 3) = some (.placeholder 2) ∧
      run? {} s4.equalities.replacer 20 .full (.arg 3) = some (.placeholder 0) := by
    decide +kernel
  exact ⟨s1, s2, s3, s4, e, hs1, hs2, hs3, hs4, hreduced⟩

end Equalities
end Elaboration
