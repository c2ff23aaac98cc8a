import Mathlib.Data.List.Chain
import Elaboration.Proofs.Rule.Matching
import Elaboration.Rule.Dependency

/-!
# Dependency as reachability

In the graph of a table a declaration leads to those that its rule mentions. A term depends on what
the declarations in it reach, and the search finds out. A rule closes no cycle if its terms do not
depend on its head, or mention only what was made before it.
-/

namespace Elaboration

open Bool List Rule Table

/-- A rule mentions the declarations of its terms. -/
theorem Rule.mem_decls {r : Rule} {id : Nat} : id ∈ r.decls ↔ ∃ t ∈ r.terms, id ∈ t.decls :=
  mem_flatMap

@[simp] theorem Rule.decls_lambda (head : Term) (arity : Nat) (replacement : Term) :
    (lambda head arity replacement).decls = replacement.decls := by
  simp [decls, terms, lambda, Step.subject?]

/-- The declarations of a rule are among the atoms that it mentions. -/
theorem Rule.Over.of_mem_decls {p : Term → Prop} {r : Rule} (h : r.Over p) {id : Nat}
    (hid : id ∈ r.decls) : p (.decl id) := by
  have hcapture : ∀ {n} {t : Term}, t.All (Term.CaptureOr n p) → id ∈ t.decls → p (.decl id) := by
    intro n t ht hmem
    obtain ⟨_, _, ⟨⟩⟩ | hp := ht.of_mem_decls hmem
    exact hp
  have hsteps : ∀ {steps n}, StepsOver p n steps → ∀ t ∈ steps.filterMap Step.subject?,
      id ∈ t.decls → p (.decl id) := by
    intro steps
    induction steps with
    | nil => exact nofun
    | cons s steps ih =>
      intro n hover t ht hmem
      cases s with
      | pull => exact ih hover t ht hmem
      | destructure subject head count =>
        rcases mem_cons.1 ht with rfl | ht
        · exact hcapture hover.1.1 hmem
        · exact ih hover.2 t ht hmem
  obtain ⟨t, ht, hmem⟩ := mem_decls.1 hid
  rcases mem_append.1 ht with ht | ht
  · exact hsteps h.1 t ht hmem
  · exact hcapture h.2 (mem_singleton.1 ht ▸ hmem)

namespace RuleTable

/-- Registering leaves the rules. -/
@[simp] theorem rules_register (R : RuleTable) (id : Nat) : (R.register id).rules = R.rules := by
  unfold register
  split <;> rfl

@[simp] theorem generation_register (R : RuleTable) (id : Nat) :
    (R.register id).generation = R.generation := by
  unfold register
  split <;> rfl

@[simp] theorem generation_registerAll (R : RuleTable) (ids : List Nat) :
    (R.registerAll ids).generation = R.generation := by
  induction ids generalizing R with
  | nil => rfl
  | cons id ids ih => exact (ih (R.register id)).trans (R.generation_register id)

@[simp] theorem rules_registerAll (R : RuleTable) (ids : List Nat) :
    (R.registerAll ids).rules = R.rules := by
  induction ids generalizing R with
  | nil => rfl
  | cons id ids ih => exact (ih _).trans (rules_register R id)

open Relation

/-- The rule of `a` mentions `b`. -/
def Leads (rules : Table Rule) (a b : Nat) : Prop := ∃ r, rules.get? a = some r ∧ b ∈ r.decls

/-- The rule of `a` mentions `b`, and was not followed. -/
def LeadsOn (rules : Table Rule) (visited : List Nat) (a b : Nat) : Prop :=
  a ∉ visited ∧ Leads rules a b

/-- Some declaration in the work list reaches the target through rules not followed yet. -/
def Finds (rules : Table Rule) (visited work : List Nat) (target : Nat) : Prop :=
  ∃ id ∈ work, ReflTransGen (LeadsOn rules visited) id target

variable {rules : Table Rule} {visited work : List Nat} {target id : Nat} {r : Rule} {a b : Nat}

/-! ### The search -/

private theorem leadsOn_nil (rules : Table Rule) : LeadsOn rules [] = Leads rules := by
  ext a b
  simp [LeadsOn]

private theorem mem_successors : b ∈ successors rules a ↔ Leads rules a b := by
  unfold successors Leads
  cases rules.get? a <;> simp

/-- Number of declarations that the rules not followed yet mention. -/
def unexplored (visited : List Nat) : List (Nat × Rule) → Nat
  | [] => 0
  | e :: entries => (if e.1 ∈ visited then 0 else e.2.decls.length) + unexplored visited entries

private theorem searchBound_eq (rules : Table Rule) (work : List Nat) :
    searchBound rules work = work.length + unexplored [] rules.entries := by
  unfold searchBound
  induction rules.entries with
  | nil => rfl
  | cons e entries ih =>
    rw [foldr_cons, ih, unexplored, if_neg not_mem_nil]
    omega

private theorem unexplored_cons_le (visited : List Nat) (id : Nat) (entries : List (Nat × Rule)) :
    unexplored (id :: visited) entries ≤ unexplored visited entries := by
  induction entries with
  | nil => simp [unexplored]
  | cons e entries ih =>
    simp only [unexplored, mem_cons]
    split <;> split <;> grind

private theorem unexplored_of_mem {entries : List (Nat × Rule)} (hid : id ∉ visited)
    (hr : (id, r) ∈ entries) :
    r.decls.length + unexplored (id :: visited) entries ≤ unexplored visited entries := by
  induction entries with
  | nil => cases hr
  | cons e entries ih =>
    simp only [unexplored, mem_cons]
    rcases mem_cons.1 hr with rfl | hr
    · have := unexplored_cons_le visited id entries
      rw [if_pos (.inl rfl), if_neg hid]
      dsimp only
      omega
    · have := ih hr
      split <;> split <;> grind

private theorem unexplored_follow (rules : Table Rule) (hid : id ∉ visited) :
    (successors rules id).length + unexplored (id :: visited) rules.entries ≤
      unexplored visited rules.entries := by
  unfold successors
  cases hr : rules.get? id with
  | none => simpa using unexplored_cons_le visited id rules.entries
  | some r => simpa using unexplored_of_mem hid (mem_of_get? hr)

private theorem eq_of_visited (hid : id ∈ visited)
    (h : ReflTransGen (LeadsOn rules visited) id target) : id = target := by
  obtain heq | ⟨b, hb, _⟩ := h.cases_head
  · exact heq
  · exact absurd hid hb.1

private theorem reaches_follow (id : Nat) {a : Nat}
    (h : ReflTransGen (LeadsOn rules visited) a target) :
    ReflTransGen (LeadsOn rules (id :: visited)) a target ∨
      Finds rules (id :: visited) (successors rules id) target := by
  induction h using ReflTransGen.head_induction_on with
  | refl => exact .inl .refl
  | @head a b hab _ ih =>
    obtain hb | hfinds := ih
    · by_cases ha : a = id
      · exact .inr ⟨b, mem_successors.2 (ha ▸ hab.2), hb⟩
      · exact .inl (hb.head ⟨by simp [ha, hab.1], hab.2⟩)
    · exact .inr hfinds

private theorem finds_of_visited (htarget : id ≠ target) (hid : id ∈ visited) :
    Finds rules visited (id :: work) target ↔ Finds rules visited work target := by
  simp only [Finds, mem_cons, exists_eq_or_imp]
  exact or_iff_right fun hpath => htarget (eq_of_visited hid hpath)

private theorem finds_follow (htarget : id ≠ target) (hid : id ∉ visited) :
    Finds rules visited (id :: work) target ↔
      Finds rules (id :: visited) (successors rules id ++ work) target := by
  constructor
  · rintro ⟨a, ha, hpath⟩
    obtain hpath | ⟨c, hc, hpath⟩ := reaches_follow id hpath
    · rcases mem_cons.1 ha with rfl | ha
      · exact absurd (eq_of_visited mem_cons_self hpath) htarget
      · exact ⟨a, mem_append_right _ ha, hpath⟩
    · exact ⟨c, mem_append_left _ hc, hpath⟩
  · rintro ⟨a, ha, hpath⟩
    have hpath : ReflTransGen (LeadsOn rules visited) a target :=
      ReflTransGen.mono (fun b c hbc => ⟨fun hb => hbc.1 (mem_cons_of_mem id hb), hbc.2⟩) _ _ hpath
    rcases mem_append.1 ha with ha | ha
    · exact ⟨id, mem_cons_self, hpath.head ⟨hid, mem_successors.1 ha⟩⟩
    · exact ⟨a, mem_cons_of_mem _ ha, hpath⟩

private theorem exists_search_eq_some {bound : Nat}
    (hbound : work.length + unexplored visited rules.entries ≤ bound) :
    ∃ b, search rules target bound visited work = some b ∧
      (b = true ↔ Finds rules visited work target) := by
  induction bound generalizing visited work with
  | zero =>
    have hwork : work = [] := length_eq_zero_iff.1 (by omega)
    subst hwork
    exact ⟨false, rfl, by simp [Finds]⟩
  | succ bound ih =>
    cases work with
    | nil => exact ⟨false, by simp [search], by simp [Finds]⟩
    | cons id work =>
      rw [length_cons] at hbound
      unfold search
      by_cases htarget : id = target
      · exact ⟨true, if_pos htarget, iff_of_true rfl ⟨id, mem_cons_self, htarget ▸ .refl⟩⟩
      · rw [if_neg htarget]
        by_cases hid : id ∈ visited
        · rw [if_pos hid, finds_of_visited htarget hid]
          exact ih (by omega)
        · have hless := unexplored_follow rules hid
          rw [if_neg hid, finds_follow htarget hid]
          exact ih (by rw [length_append]; omega)

variable {R S : RuleTable} {t : Term} {v : Nat}

private theorem search_eq_dependsOn (R : RuleTable) (t : Term) (target extra : Nat) :
    search R.rules target (searchBound R.rules t.decls + extra) [] t.decls.reverse =
        some (R.dependsOn t target) ∧
      (R.dependsOn t target = true ↔ ∃ id ∈ t.decls, ReflTransGen (Leads R.rules) id target) := by
  have hfinds : Finds R.rules [] t.decls.reverse target ↔
      ∃ id ∈ t.decls, ReflTransGen (Leads R.rules) id target := by
    simp [Finds, leadsOn_nil]
  have hends : ∀ extra, ∃ b, search R.rules target (searchBound R.rules t.decls + extra) []
      t.decls.reverse = some b ∧ (b = true ↔ Finds R.rules [] t.decls.reverse target) := by
    intro extra
    refine exists_search_eq_some ?_
    rw [searchBound_eq, length_reverse]
    omega
  obtain ⟨b, hb, hiff⟩ := hends extra
  obtain ⟨b', hb', hiff'⟩ := hends 0
  have hdep : R.dependsOn t target = b' := by
    rw [dependsOn, ← Nat.add_zero (searchBound _ _), hb']
    rfl
  rw [hdep, hb, hiff', hfinds]
  exact ⟨congrArg some (eq_iff_iff.2 (hiff.trans hiff'.symm)), .rfl⟩

/-- A term depends on what the declarations that it mentions reach. -/
theorem dependsOn_iff :
    R.dependsOn t target = true ↔ ∃ id ∈ t.decls, ReflTransGen (Leads R.rules) id target :=
  (search_eq_dependsOn R t target 0).2

/-- The rule of `a` mentions `b` in its replacement or in the subject of a match. -/
def RuleMentions (R : RuleTable) (a b : Nat) : Prop :=
  ∃ r, R.ruleFor? a = some r ∧ (.decl b ∈ r.replacement.atoms ∨
    ∃ subject head count, .destructure subject head count ∈ r.steps ∧ .decl b ∈ subject.atoms)

private theorem ruleMentions_eq_leads (R : RuleTable) : R.RuleMentions = Leads R.rules := by
  have hsubject : ∀ (s : Step) t,
      s.subject? = some t ↔ ∃ head count, s = .destructure t head count := by
    intro s t
    cases s <;> simp [Step.subject?]
  ext a b
  refine exists_congr fun r => and_congr_right fun _ => ?_
  simp only [mem_decls, terms, mem_append, mem_filterMap, mem_singleton, hsubject,
    ← Term.mem_decls_iff]
  constructor
  · rintro (hb | ⟨t, head, count, hs, hb⟩)
    · exact ⟨_, .inr rfl, hb⟩
    · exact ⟨t, .inl ⟨_, hs, head, count, rfl⟩, hb⟩
  · rintro ⟨t, ⟨_, hs, head, count, rfl⟩ | rfl, hb⟩
    · exact .inr ⟨t, head, count, hs, hb⟩
    · exact .inl hb

/-- The search ends on every table and finds the target exactly if a chain of declarations, each
mentioned by the rule of the one before, leads there from the term. -/
theorem search_decides_chains (R : RuleTable) (t : Term) (target : Nat) :
    (∀ extra, search R.rules target (searchBound R.rules t.decls + extra) [] t.decls.reverse =
      some (R.dependsOn t target)) ∧
    (R.dependsOn t target = true ↔ ∃ d ds, .decl d ∈ t.atoms ∧ (d :: ds).IsChain R.RuleMentions ∧
      (d :: ds).getLast (cons_ne_nil d ds) = target) := by
  refine ⟨fun extra => (search_eq_dependsOn R t target extra).1, ?_⟩
  rw [dependsOn_iff, ruleMentions_eq_leads]
  constructor
  · rintro ⟨d, hd, hpath⟩
    obtain ⟨ds, hchain, hlast⟩ := exists_isChain_cons_of_relationReflTransGen hpath
    exact ⟨d, ds, Term.mem_decls_iff.1 hd, hchain, hlast⟩
  · rintro ⟨d, ds, hd, hchain, hlast⟩
    exact ⟨d, Term.mem_decls_iff.2 hd, relationReflTransGen_of_exists_isChain_cons ds hchain hlast⟩

/-! ### Cycles -/

/-- The rule of a declaration has a term that depends on the declaration. -/
def SelfDependent (R : RuleTable) (id : Nat) : Prop :=
  ∃ r, R.ruleFor? id = some r ∧ ∃ t ∈ r.terms, R.dependsOn t id = true

/-- No declaration depends on itself. -/
def Acyclic (R : RuleTable) : Prop := ∀ id, ¬ R.SelfDependent id

private theorem selfDependent_iff : R.SelfDependent id ↔ TransGen (Leads R.rules) id id := by
  rw [TransGen.head'_iff]
  constructor
  · rintro ⟨r, hr, t, ht, hdep⟩
    obtain ⟨b, hb, hpath⟩ := dependsOn_iff.1 hdep
    exact ⟨b, ⟨r, hr, mem_decls.2 ⟨t, ht, hb⟩⟩, hpath⟩
  · rintro ⟨b, ⟨r, hr, hb⟩, hpath⟩
    obtain ⟨t, ht, hb⟩ := mem_decls.1 hb
    exact ⟨r, hr, t, ht, dependsOn_iff.2 ⟨b, hb, hpath⟩⟩

private theorem Leads.mono (hsub : R.Sub S) (h : Leads R.rules a b) : Leads S.rules a b := by
  obtain ⟨r, hr, hb⟩ := h
  exact ⟨r, hsub a r hr, hb⟩

theorem dependsOn_decl_iff :
    R.dependsOn (.decl a) b = true ↔ ReflTransGen (Leads R.rules) a b := by
  rw [dependsOn_iff]
  constructor
  · rintro ⟨c, hc, hpath⟩
    exact mem_singleton.1 hc ▸ hpath
  · exact fun hpath => ⟨a, mem_singleton_self a, hpath⟩

/-- No declaration that a term mentions depends on what the term does not depend on. -/
theorem dependsOn_decl_of_mem (h : R.dependsOn t target = false) (hid : id ∈ t.decls) :
    R.dependsOn (.decl id) target = false := by
  refine eq_false_iff.2 fun hdep => eq_false_iff.1 h ?_
  exact dependsOn_iff.2 ⟨id, hid, dependsOn_decl_iff.1 hdep⟩

/-- A declaration without a rule depends on itself only. -/
theorem dependsOn_decl_of_ruleless (hr : R.ruleFor? id = none) (hid : id ≠ target) :
    R.dependsOn (.decl id) target = false := by
  refine eq_false_iff.2 fun hdep => ?_
  obtain heq | ⟨_, ⟨r, hr', _⟩, _⟩ := (dependsOn_decl_iff.1 hdep).cases_head
  · exact hid heq
  · exact nomatch hr.symm.trans hr'

/-- Every cycle goes through a declaration in `p`. -/
def CyclesThrough (R : RuleTable) (p : Nat → Prop) : Prop :=
  ∀ id, R.SelfDependent id →
    ∃ v, p v ∧ R.dependsOn (.decl id) v = true ∧ R.dependsOn (.decl v) id = true

variable {p q : Nat → Prop}

theorem Acyclic.cyclesThrough (h : R.Acyclic) : R.CyclesThrough p := fun id hid => absurd hid (h id)

theorem CyclesThrough.mono (h : R.CyclesThrough p) (hpq : ∀ v, p v → q v) : R.CyclesThrough q := by
  intro id hid
  obtain ⟨v, hv, hpaths⟩ := h id hid
  exact ⟨v, hpq v hv, hpaths⟩

theorem CyclesThrough.congr (h : R.CyclesThrough p) (hrules : S.rules = R.rules) :
    S.CyclesThrough p := by
  unfold CyclesThrough SelfDependent ruleFor? dependsOn at *
  rwa [hrules]

private theorem CyclesThrough.of_leads (h : R.CyclesThrough p) (hsub : R.Sub S)
    (hleads : ∀ a b, Leads S.rules a b → ReflTransGen (Leads S.rules) b a →
      Leads R.rules a b ∨ p a) : S.CyclesThrough p := by
  -- a path that can be closed is one of the old table or goes through `p`
  have hpath : ∀ {a b}, TransGen (Leads S.rules) a b → ReflTransGen (Leads S.rules) b a →
      TransGen (Leads R.rules) a b ∨ ∃ v, p v ∧ ReflTransGen (Leads S.rules) a v ∧
        ReflTransGen (Leads S.rules) v b := by
    intro a b hab
    induction hab with
    | single hab =>
      intro hba
      obtain hold | ha := hleads _ _ hab hba
      · exact .inl (.single hold)
      · exact .inr ⟨a, ha, .refl, .single hab⟩
    | @tail c b hac hcb ih =>
      intro hba
      obtain hold | hc := hleads c b hcb (hba.trans hac.to_reflTransGen)
      · obtain hac | ⟨v, hv, hav, hvc⟩ := ih (hba.head hcb)
        · exact .inl (hac.tail hold)
        · exact .inr ⟨v, hv, hav, hvc.tail hcb⟩
      · exact .inr ⟨c, hc, hac.to_reflTransGen, .single hcb⟩
  have hmono : ∀ {a b}, ReflTransGen (Leads R.rules) a b → ReflTransGen (Leads S.rules) a b :=
    fun hab => ReflTransGen.mono (fun _ _ => Leads.mono hsub) _ _ hab
  intro id hid
  obtain hold | ⟨v, hv, hto, hfrom⟩ := hpath (selfDependent_iff.1 hid) .refl
  · obtain ⟨v, hv, hto, hfrom⟩ := h id (selfDependent_iff.2 hold)
    exact ⟨v, hv, dependsOn_decl_iff.2 (hmono (dependsOn_decl_iff.1 hto)),
      dependsOn_decl_iff.2 (hmono (dependsOn_decl_iff.1 hfrom))⟩
  · exact ⟨v, hv, dependsOn_decl_iff.2 hto, dependsOn_decl_iff.2 hfrom⟩

private theorem Leads.of_install (h : Leads (R.install v r).rules a b) :
    Leads R.rules a b ∨ a = v ∧ b ∈ r.decls := by
  obtain ⟨s, hs, hb⟩ := h
  rw [install, get?_set] at hs
  split at hs
  · next ha =>
    cases hs
    exact .inr ⟨ha.symm, hb⟩
  · exact .inl ⟨s, hs, hb⟩

private theorem reaches_of_install {a : Nat}
    (h : ReflTransGen (Leads (R.install v r).rules) a v) : ReflTransGen (Leads R.rules) a v := by
  induction h using ReflTransGen.head_induction_on with
  | refl => exact .refl
  | head hab _ ih =>
    obtain hold | ⟨rfl, _⟩ := hab.of_install
    · exact ih.head hold
    · exact .refl

/-- A rule that does not depend on its head closes no cycle. -/
theorem CyclesThrough.install (h : R.CyclesThrough p) (hfree : R.ruleFor? v = none)
    (hr : ∀ id ∈ r.decls, R.dependsOn (.decl id) v = false) : (R.install v r).CyclesThrough p := by
  refine h.of_leads (sub_install r hfree) fun a b hab hba => .inl ?_
  obtain hold | ⟨rfl, hb⟩ := hab.of_install
  · exact hold
  · have hdep := dependsOn_decl_iff.2 (reaches_of_install hba)
    exact nomatch (hr b hb).symm.trans hdep

/-- A rule closes cycles through its head only. -/
theorem CyclesThrough.install_through (h : R.CyclesThrough p) (hfree : R.ruleFor? v = none)
    (hv : p v) : (R.install v r).CyclesThrough p := by
  refine h.of_leads (sub_install r hfree) fun a b hab _ => ?_
  obtain hold | ⟨rfl, _⟩ := hab.of_install
  · exact .inl hold
  · exact .inr hv

/-- Rules that mention only what was made before their heads close no cycle. -/
theorem CyclesThrough.of_made {n : Nat} (h : R.CyclesThrough p) (hsub : R.Sub S)
    (hrules : ∀ id r, S.ruleFor? id = some r →
      R.ruleFor? id = some r ∧ (∀ b ∈ r.decls, b < n) ∨ n ≤ id ∧ ∀ b ∈ r.decls, b < id) :
    S.CyclesThrough p := by
  -- below a new head, one stays below it
  have hbelow : ∀ {a b v}, ReflTransGen (Leads S.rules) a b → n ≤ v → a < v → b < v := by
    intro a b v hab hv ha
    induction hab with
    | refl => exact ha
    | tail _ hbc ih =>
      obtain ⟨r, hr, hc⟩ := hbc
      obtain ⟨_, hlt⟩ | ⟨_, hlt⟩ := hrules _ r hr
      · exact Nat.lt_of_lt_of_le (hlt _ hc) hv
      · exact Nat.lt_trans (hlt _ hc) ih
  refine h.of_leads hsub fun a b hab hba => .inl ?_
  obtain ⟨r, hr, hb⟩ := hab
  obtain ⟨hold, _⟩ | ⟨hle, hlt⟩ := hrules a r hr
  · exact ⟨r, hold, hb⟩
  · exact absurd (hbelow hba hle (hlt b hb)) (Nat.lt_irrefl a)

end RuleTable
end Elaboration
