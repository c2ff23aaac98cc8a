import Elaboration.Proofs.Session.Closed
import Elaboration.Proofs.Telescope.Plain

/-!
# Rules without placeholders: programs

The values that a program computes contain no placeholder. Their types may, but a type is cleaned
before it is written into a rule. The forests of contexts stay well formed, so cleaning never stops
at a placeholder that is left.
-/

namespace Elaboration

open Term

private theorem Telescope.plainFooting_supports : plainFooting.Supports where
  toReads := plainFooting_reads
  reduce {tele t _} _ _ := (tele.clears_reduce t).mono fun _ _ _ _ => all_trivial _
  eliminate {tele t _} _ _ := tele.clears_eliminate t
  violated hk := hk
  plain h := h
  refl _ := trivial
  recorded _ hk := ⟨hk, trivial⟩
  stopped _ h := h
  install _ hk hsteps hreplacement :=
    ⟨hk.install ⟨hsteps.over fun _ _ => All.captureOr, hreplacement.captureOr⟩, trivial⟩

open Ends Equalities Kernel KernelM

open Term (Plain ClassOr)

namespace Equalities

variable {env : Setting} {s : State} {q : Equalities} {t u : Term}

/-- No class has a parent that was made after it. Canonical terms contain no placeholder. Every
member has a class, is not headed by a postulate or a leaf, and mentions placeholders of classes
only. -/
structure WellFormed (q : Equalities) : Prop where
  parent : ∀ (c : Nat) (cls : Class), q.classes[c]? = some cls → cls.parent ≤ c
  root : ∀ c < q.classes.size, ∃ cls, q.classes[q.root c]? = some cls ∧ cls.parent = q.root c
  canonical : ∀ (c : Nat) (cls : Class), q.classes[c]? = some cls → cls.canonical.All Plain
  member : ∀ m ∈ q.members,
    m.2 < q.classes.size ∧ m.1.isRigid = false ∧ m.1.All (ClassOr q.classes.size Plain)

/-- The same with what changes of the context need to keep it. -/
structure Clean (q : Equalities) : Prop where
  sound : Sound Plain (fun _ _ => True) q
  shaped : q.WellShaped

private theorem clean_empty : empty.Clean := ⟨sound_empty, wellShaped_empty⟩

private theorem Clean.wellFormed (hq : q.Clean) : q.WellFormed where
  parent := hq.shaped.parent
  root _ hc := hq.shaped.exists_root hc
  canonical := hq.sound.canonical
  member m hm := by
    obtain ⟨hall, cls, hcls, _⟩ := hq.sound.member m hm
    exact ⟨(Array.getElem?_eq_some_iff.1 hcls).1, hq.shaped.member m hm, hall⟩

private theorem ends_clean {α : Type} {x : Change α} (hs : s.equalities.Clean)
    (hkeeps : Ends x s (fun _ s' => Kept Plain (fun _ _ => True) s s') fun e _ => e = .exhausted)
    (htraces : Traces x s) :
    Ends x s (fun _ s' => s'.equalities.Clean ∧
      s.equalities.classes.size ≤ s'.equalities.classes.size) fun e _ => e = .exhausted := by
  refine of_cases (fun a s' hx => ?_) fun e s' hx => hkeeps.of_error hx
  have hkept := hkeeps.of_ok hx
  exact ⟨⟨hkept.sound, (htraces.ends.of_ok hx).updates.wellShaped hs.shaped⟩, hkept.evolves.size⟩

private theorem ends_assume_clean (hR : env.rules.Over Plain) (hs : s.equalities.Clean)
    (ht : t.All Plain) (hu : u.All Plain) :
    Ends (assume env t u) s (fun _ s' => s'.equalities.Clean ∧
      s.equalities.classes.size ≤ s'.equalities.classes.size) fun e _ => e = .exhausted :=
  ends_clean hs (keeps_assume (localTheory_true _) not_plain_placeholder hR hs.sound
    ⟨ht.classOr, hu.classOr, trivial⟩) (traces_assume t u)

private theorem ends_canonicalize_clean (hR : env.rules.Over Plain) (hs : s.equalities.Clean) :
    Ends (canonicalize env) s (fun _ s' => s'.equalities.Clean ∧
      s.equalities.classes.size ≤ s'.equalities.classes.size) fun e _ => e = .exhausted :=
  ends_clean hs (keeps_canonicalize (localTheory_true _) not_plain_placeholder hR hs.sound)
    traces_canonicalize

private theorem ends_normalize_clean (hR : env.rules.Over Plain) (hs : s.equalities.Clean) :
    Ends (normalize env t) s (fun v s' => s' = s ∧
      (t.All (ClassOr s.equalities.classes.size Plain) →
      v.All (ClassOr s.equalities.classes.size Plain))) fun e _ => e = .exhausted := by
  unfold Ends normalize reduceIn
  dsimp only
  cases hrun : Reduction.run? env.rules s.equalities.replacer env.limit .full t with
  | none => rfl
  | some v =>
    exact ⟨rfl, fun ht =>
      (related_run? (localTheory_true _).toRuleCongruence not_plain_placeholder hR hs.sound ht
      hrun).right⟩

end Equalities

/-- The rules contain no placeholder, and every context is clean. -/
structure Kernel.Clean (k : Kernel) : Prop where
  rules : k.rules.Over Plain
  equalities : ∀ c, (k.equalities c).Clean

namespace Kernel.Clean

variable {k k' : Kernel} {c : Nat} {q : Equalities}

private theorem of_contexts (hk : k.Clean) (hrules : k'.rules.Over Plain)
    (h : k'.contexts = k.contexts) :
    k'.Clean := by
  refine ⟨hrules, fun c => ?_⟩
  have := hk.equalities c
  rwa [Kernel.equalities, ← h] at this

private theorem push (hk : k.Clean) (hq : q.Clean) :
    Clean { k with contexts := k.contexts.push q } := by
  refine ⟨hk.rules, fun c => ?_⟩
  by_cases hc : c = k.contexts.size
  · subst hc
    simpa [Kernel.equalities] using hq
  · have := hk.equalities c
    simpa [Kernel.equalities, Array.getElem?_push, hc] using this

private theorem withContext (hk : k.Clean) {s : State} (hs : s.equalities.Clean) :
    (k.withContext c s).Clean := by
  refine ⟨hk.rules, fun d => ?_⟩
  by_cases hcd : c = d
  · subst hcd
    by_cases hc : c < k.contexts.size
    · rwa [equalities_withContext hc]
    · have := hk.equalities c
      simpa [Kernel.equalities, Kernel.withContext, hc] using this
  · rw [equalities_withContext_of_ne hcd]
    exact hk.equalities d

end Kernel.Clean

namespace Telescope

/-- Telescopes of a kernel and how they came about: empty, or by binding a type or assuming an
equation without placeholders. In between, terms are reduced, and the kernel changes other than in
its contexts, as by rules without placeholders. -/
inductive Formed : List Telescope → Kernel → Prop where
  | start {k : Kernel} : k.contexts = #[] → k.rules.Over Term.Plain → Formed [] k
  | later {teles : List Telescope} {k k' : Kernel} : Formed teles k → k'.contexts = k.contexts →
      k'.rules.Over Term.Plain → Formed teles k'
  | root {teles : List Telescope} {tele : Telescope} {k k' : Kernel} : Formed teles k →
      Telescope.root k = .ok tele k' → Formed (tele :: teles) k'
  | extend {teles : List Telescope} {tele tele' : Telescope} {k k' : Kernel} {type : Term} :
      Formed teles k → tele ∈ teles → type.All Term.Plain → tele.extend type k = .ok tele' k' →
      Formed (tele' :: teles) k'
  | assume {teles : List Telescope} {tele tele' : Telescope} {k k' : Kernel} {t u : Term} :
      Formed teles k → tele ∈ teles → t.All Term.Plain → u.All Term.Plain →
      tele.assume t u k = .ok tele' k' → Formed (tele' :: teles) k'
  | reduce {teles : List Telescope} {tele : Telescope} {k k' : Kernel} {t u : Term} :
      Formed teles k → tele ∈ teles → tele.reduce t k = .ok u k' → Formed teles k'

variable {teles : List Telescope} {tele tele' : Telescope} {k k' : Kernel} {t u : Term}

/-- What is kept of a telescope. -/
structure Contained (k : Kernel) (tele : Telescope) : Prop where
  plain : tele.Plain
  context : tele.context < k.contexts.size

private theorem Contained.later (h : tele.Contained k)
    (hsize : k.contexts.size ≤ k'.contexts.size) :
    tele.Contained k' :=
  ⟨h.plain, h.context.trans_le hsize⟩

/-- A term was reduced: the contexts stay clean and the answer mentions placeholders of classes
only. -/
structure CleanlyReduced (tele : Telescope) (t u : Term) (k k' : Kernel) : Prop where
  kernel : k'.Clean
  size : k'.contexts.size = k.contexts.size
  placeholders : t.All (ClassOr (k.equalities tele.context).classes.size Term.Plain) →
    u.All (ClassOr (k'.equalities tele.context).classes.size Term.Plain)

private theorem ends_reduce_clean (hk : k.Clean) (h : tele.Contained k) (t : Term) :
    Ends (tele.reduce t) k (fun u k' => CleanlyReduced tele t u k k') fun e _ =>
      e = .exhausted := by
  have hnormalize : ∀ k1 : Kernel, k1.Clean → k1.contexts.size = k.contexts.size →
      (k.equalities tele.context).classes.size ≤ (k1.equalities tele.context).classes.size →
      Ends (changeContext tele.context fun env => normalize env t) k1
        (fun u k' => CleanlyReduced tele t u k k') fun e _ => e = .exhausted := by
    intro k1 hk1 hsize hle
    rw [ends_changeContext]
    refine (ends_normalize_clean hk1.rules (hk1.equalities _)).imp ?_
    rintro u s ⟨rfl, hu⟩
    refine ⟨hk1.withContext (hk1.equalities _), by simpa [withContext] using hsize, fun ht => ?_⟩
    rw [equalities_withContext (hsize ▸ h.context)]
    exact hu (ht.mono fun _ => .mono hle)
  unfold reduce
  simp only [bind_iff, ends_context, get_iff]
  split
  · rw [bind_iff, ends_changeContext]
    refine (ends_canonicalize_clean hk.rules (hk.equalities _)).imp ?_
    rintro _ s ⟨hs, hle⟩
    refine hnormalize _ (hk.withContext hs) (by simp [withContext]) ?_
    rwa [equalities_withContext h.context]
  · exact hnormalize k hk rfl le_rfl

private theorem clean_of_root (hk : k.Clean) (h : root k = .ok tele k') :
    k'.Clean ∧ k.contexts.size ≤ k'.contexts.size ∧ tele.Contained k' := by
  cases h
  refine ⟨hk.push clean_empty, by simp, ⟨plain_decl _, plain_postulate _⟩, ?_⟩
  simp

private theorem clean_of_extend (hk : k.Clean) (h : tele.Contained k) {type : Term}
    (htype : type.All Plain) (hextend : tele.extend type k = .ok tele' k') :
    k'.Clean ∧ k.contexts.size ≤ k'.contexts.size ∧ tele'.Contained k' := by
  obtain ⟨hrules, _, hplain⟩ := (clears_extend h.plain htype hk.rules).of_ok hextend
  have hbound := (tele.ends_extend type k).of_ok hextend
  have hsize := (congrArg Array.size hbound.contexts.symm).le
  refine ⟨hk.of_contexts hrules hbound.contexts, hsize, hplain, ?_⟩
  rw [hbound.telescope]
  exact h.context.trans_le hsize

private theorem ends_assume_clean (hk : k.Clean) (h : tele.Contained k) (ht : t.All Plain)
    (hu : u.All Plain) :
    Ends (tele.assume t u) k (fun tele' k' => k'.Clean ∧ k.contexts.size ≤ k'.contexts.size ∧
      tele'.Contained k') fun e _ => e = .exhausted := by
  let k1 : Kernel := { k with contexts := k.contexts.push (k.equalities tele.context) }
  have hk1 : k1.Clean := hk.push (hk.equalities _)
  unfold assume
  rw [bind_iff, ends_context, bind_iff]
  change Ends _ k1 _ _
  rw [bind_iff, ends_changeContext]
  refine (Equalities.ends_assume_clean hk1.rules (hk1.equalities _) ht hu).imp ?_
  rintro out s ⟨hs, _⟩
  have hk2 : (k1.withContext k.contexts.size s).Clean := hk1.withContext hs
  have hsize : (k1.withContext k.contexts.size s).contexts.size = k.contexts.size + 1 := by
    simp [k1, withContext]
  have hle : k.contexts.size ≤ (k1.withContext k.contexts.size s).contexts.size := by
    rw [hsize]
    exact Nat.le_succ _
  have hcontained : Contained (k1.withContext k.contexts.size s)
      { tele with entries := .assumed t u :: tele.entries, context := k.contexts.size } :=
    ⟨h.plain, by rw [hsize]; exact Nat.lt_succ_self _⟩
  cases out with
  | error e =>
    exact ⟨hk2.of_contexts hk2.rules rfl, hle, hcontained.later le_rfl⟩
  | ok _ => exact ⟨hk2, hle, hcontained⟩

private theorem Formed.clean (h : Formed teles k) : k.Clean ∧ ∀ tele ∈ teles, tele.Contained k := by
  -- each step makes at most one telescope, and no context is lost
  have hstep : ∀ {teles : List Telescope} {tele : Telescope} {k k' : Kernel},
      (∀ tele ∈ teles, tele.Contained k) →
      k'.Clean ∧ k.contexts.size ≤ k'.contexts.size ∧ tele.Contained k' →
      k'.Clean ∧ ∀ tele' ∈ tele :: teles, tele'.Contained k' := by
    rintro teles tele k k' hteles ⟨hk', hsize, htele⟩
    exact ⟨hk', List.forall_mem_cons.2 ⟨htele, fun tele' h => (hteles tele' h).later hsize⟩⟩
  induction h with
  | @start k hcontexts hrules =>
    refine ⟨⟨hrules, fun c => ?_⟩, List.forall_mem_nil _⟩
    have hempty : k.equalities c = .empty := by simp [equalities, hcontexts]
    rw [hempty]
    exact clean_empty
  | later _ hcontexts hrules ih =>
    have hsize := (congrArg Array.size hcontexts.symm).le
    exact ⟨ih.1.of_contexts hrules hcontexts, fun tele htele => (ih.2 tele htele).later hsize⟩
  | root _ hroot ih => exact hstep ih.2 (clean_of_root ih.1 hroot)
  | extend _ htele htype hextend ih =>
    exact hstep ih.2 (clean_of_extend ih.1 (ih.2 _ htele) htype hextend)
  | assume _ htele ht hu hassume ih =>
    exact hstep ih.2 ((ends_assume_clean ih.1 (ih.2 _ htele) ht hu).of_ok hassume)
  | reduce _ htele hreduce ih =>
    have hreduced := (ends_reduce_clean ih.1 (ih.2 _ htele) _).of_ok hreduce
    exact ⟨hreduced.kernel, fun tele' h => (ih.2 tele' h).later hreduced.size.symm.le⟩

private theorem reduceClean_of_reduce (hk : k.Clean) (h : tele.Contained k) (ht : t.All Plain)
    (hreduce : tele.reduce t k = .ok u k') :
    ∃ v, tele.reduceClean t k = .ok v k' ∧ v = (k'.equalities tele.context).eliminate u ∧
      v.All Plain := by
  have hreduced := (ends_reduce_clean hk h t).of_ok hreduce
  have hq := hreduced.kernel.equalities tele.context
  have hv : ((k'.equalities tele.context).eliminate u).All Plain :=
    all_eliminate (localTheory_true k'.rules).toCongruence not_plain_placeholder hq.sound
      (hreduced.placeholders ht.classOr)
  have heliminate : tele.eliminate u k' = .ok ((k'.equalities tele.context).eliminate u) k' := by
    refine eq_ok ?_
    unfold eliminate
    rw [bind_iff, ends_context]
    simp [plain_iff.2 hv]
  refine ⟨_, ?_, rfl, hv⟩
  change EStateM.bind _ _ _ = _
  simp only [EStateM.bind, hreduce, heliminate]

private theorem reduceClean_of_error {e : Stop} (hreduce : tele.reduce t k = .error e k') :
    tele.reduceClean t k = .error e k' := by
  change EStateM.bind _ _ _ = _
  simp only [EStateM.bind, hreduce]

end Telescope

open List Primitive Session Telescope

private theorem Turn.fits_of_plain {t : Turn} (ht : t.Plain) : t.Fits plainFooting := by
  match t with
  | .errand (.embed v) => exact ⟨ht, all_trivial _⟩
  | .errand (.postulate _ _) => exact all_trivial _
  | .errand (.elaborate _) | .errand .finish | .evaluate _ | .look _ | .wake => trivial

variable {start k : Kernel} {s : Session}

private theorem Session.Attained.plain (h : Attained Turn.Plain start s k)
    (hstart : start.rules.Over Plain) :
    k.rules.Over Plain ∧ plainFooting_supports.sessions.Holds s k := by
  have hs := h.supported plainFooting_supports (fun _ => clears_root)
    (fun _ => Turn.fits_of_plain) hstart
  exact ⟨hs.1.kernel, hs⟩

private theorem Session.Attained.plain_of_error (h : Attained Turn.Plain start s k)
    (hstart : start.rules.Over Plain) {t : Turn} (ht : t.Plain) {e : Stop} {k' : Kernel}
    (hperform : t.perform s k = .error e k') : k'.rules.Over Plain := by
  obtain ⟨_, _, hstop⟩ := (plainFooting_supports.keeps_perform
    (fun _ => clears_root) (Turn.fits_of_plain ht) (h.plain hstart).2).of_error hperform
  exact hstop

/-! ### Placeholders keep to their contexts -/

/-- Below a telescope that came about without placeholders the context is well formed. Reducing a
term without placeholders there mentions placeholders of classes only, and cleaning the normal form
answers a term without any; nothing but want of depth stops either. And whatever sessions do that
were given no placeholder, no installed rule contains one, not even where a turn stops. -/
theorem placeholders_contained {teles : List Telescope} {tele : Telescope} {k : Kernel}
    (hformed : Telescope.Formed teles k) (htele : tele ∈ teles) {start k1 : Kernel} {s : Session}
    (hattained : Session.Attained Turn.Plain start s k1) (hstart : start.rules.Over Term.Plain) :
    ((k.equalities tele.context).WellFormed ∧ ∀ t : Term, t.All Term.Plain →
      (∃ u v k', tele.reduce t k = .ok u k' ∧
        u.All (Term.ClassOr (k'.equalities tele.context).classes.size Term.Plain) ∧
        tele.reduceClean t k = .ok v k' ∧ v.All Term.Plain) ∨
      ∃ k', tele.reduce t k = .error .exhausted k' ∧ tele.reduceClean t k = .error .exhausted k') ∧
    k1.rules.Over Term.Plain ∧
      ∀ t : Turn, t.Plain → ∀ e k', t.perform s k1 = .error e k' → k'.rules.Over Term.Plain := by
  obtain ⟨hk, hteles⟩ := hformed.clean
  have hcontained := hteles tele htele
  refine ⟨⟨(hk.equalities _).wellFormed, fun t ht => ?_⟩, (hattained.plain hstart).1,
    fun t ht e k' => hattained.plain_of_error hstart ht⟩
  have hreduce := ends_reduce_clean hk hcontained t
  cases hrun : tele.reduce t k with
  | ok u k' =>
    obtain ⟨v, hv, _, hplain⟩ := reduceClean_of_reduce hk hcontained ht hrun
    have hu := (hreduce.of_ok hrun).placeholders ht.classOr
    exact .inl ⟨u, v, k', rfl, hu, hv, hplain⟩
  | error e k' =>
    obtain rfl := hreduce.of_error hrun
    exact .inr ⟨k', rfl, reduceClean_of_error hrun⟩

/-- Two arguments are bound and assumed equal; a term is reduced in between. -/
def equatedArguments : KernelM Telescope := do
  let tele ← Telescope.root
  let tele ← tele.extend Primitive.type
  let tele ← tele.extend Primitive.type
  let _ ← tele.reduce (.arg 1)
  tele.assume (.arg 0) (.arg 1)

private theorem formed_equatedArguments {tele : Telescope} {k k' : Kernel}
    (hcontexts : k.contexts = #[])
    (hk : k.rules.Over Plain) (h : equatedArguments k = .ok tele k') :
    ∃ teles, Formed (tele :: teles) k' := by
  have htype : Primitive.type.All Plain := plain_postulate _
  have hends : Ends equatedArguments k (fun tele k' => ∃ teles, Formed (tele :: teles) k')
      fun _ _ => True := by
    unfold equatedArguments
    simp only [bind_iff]
    refine of_answer fun tele1 k1 hroot => ?_
    have h1 := Formed.root (.start hcontexts hk) hroot
    refine of_answer fun tele2 k2 hextend => ?_
    have h2 := h1.extend mem_cons_self htype hextend
    refine of_answer fun tele3 k3 hextend => ?_
    have h3 := h2.extend mem_cons_self htype hextend
    refine of_answer fun u k4 hreduce => ?_
    have h4 := h3.reduce mem_cons_self hreduce
    refine of_answer fun tele5 k5 hassume => ?_
    exact ⟨_, h4.assume mem_cons_self (plain_arg 0) (plain_arg 1) hassume⟩
  exact hends.of_ok h

private theorem Kernel.plain_initial : initial.rules.Over Plain := by
  have hscope : initial.rules.Over (InScope (fun _ => True) 0) :=
    over_initial fun _ _ => trivial
  exact hscope.mono fun a ha i hi => by simp [hi, InScope] at ha

/-- The later argument is reduced to the placeholder of their class and cleaned to the earlier one,
and the predecessor on `N` gets a rule. -/
theorem placeholders_contained_equatedArguments : ∃ tele k v k' s k1 r,
    equatedArguments Kernel.initial = .ok tele k ∧ (k.equalities tele.context).WellFormed ∧
    tele.reduce (.arg 1) k = .ok (.placeholder 0) k' ∧
    tele.reduceClean (.arg 1) k = .ok v k' ∧ v.All Term.Plain ∧
    Session.predecessorTurns.forM Turn.perform (.initial Kernel.initial) Kernel.initial =
      .ok ((), s) k1 ∧ k1.rules.ruleFor? 12 = some r ∧ r.Over Term.Plain := by
  obtain ⟨tele, k, hrun, _, k', hreduce, rfl⟩ :
    ∃ tele k, equatedArguments Kernel.initial = .ok tele k ∧
      ∃ u k', tele.reduce (.arg 1) k = .ok u k' ∧ u = .placeholder 0 := by decide +kernel
  obtain ⟨⟨⟨⟩, s⟩, k1, hperform, hruled⟩ : ∃ x k1, predecessorTurns.forM Turn.perform
      (.initial Kernel.initial) Kernel.initial = .ok x k1 ∧ (k1.rules.ruleFor? 12).isSome := by
    decide +kernel
  obtain ⟨r, hr⟩ := Option.isSome_iff_exists.1 hruled
  obtain ⟨teles, hformed⟩ := formed_equatedArguments rfl plain_initial hrun
  have hadmitted : ∀ t ∈ predecessorTurns, t.Plain := by
    simp [predecessorTurns, Turn.Plain, functionType, arrowOf,
      arrow, constantFamily, constant, Primitive.type, Plain]
  have hattained := Attained.initial.of_forM hadmitted hperform
  obtain ⟨⟨hwell, hreduced⟩, hrules, _⟩ := placeholders_contained hformed mem_cons_self
    hattained plain_initial
  obtain ⟨u, v, k'', hu, _, hv, hplain⟩ | ⟨k'', hu, _⟩ := hreduced (.arg 1) (plain_arg 1)
  · cases hreduce.symm.trans hu
    exact ⟨tele, k, v, k', s, k1, r, hrun, hwell, hreduce, hv, hplain, hperform, hr, hrules 12 r hr⟩
  · cases hreduce.symm.trans hu

end Elaboration
