import Elaboration.Proofs.Pattern.Direct
import Elaboration.Proofs.Telescope.Actions
import Elaboration.Session.Basic

/-!
# The match program of a rule

Typing a flat pattern turns each of its shards into a step. Together with the flattening this gives
a match program that does what matching the folded pattern directly does.
-/

namespace Elaboration

open EndsWith Function List Reduction Rule Term
namespace Pattern

variable {ε α β : Type}

/-! ### The parts of a folded pattern -/

private theorem forall₂_of_mapM_eq_ok {f : α → Except ε β} {xs : List α} {ys : List β}
    (h : xs.mapM f = .ok ys) : Forall₂ (fun x y => f x = .ok y) xs ys := by
  induction xs generalizing ys with
  | nil =>
    cases h
    exact .nil
  | cons x xs ih =>
    rw [mapM_cons] at h
    obtain ⟨y, hy, h⟩ := exists_of_bind_eq_ok h
    obtain ⟨ys', hys, h⟩ := exists_of_bind_eq_ok h
    cases h
    exact .cons hy (ih hys)

theorem forall_of_mapM_eq_ok {f : α → Except ε β} {xs : List α} {ys : List β}
    {p : β → Prop} (hf : ∀ x ∈ xs, ∀ y, f x = .ok y → p y) (h : xs.mapM f = .ok ys) :
    ∀ y ∈ ys, p y := by
  have hall := forall₂_of_mapM_eq_ok h
  clear h
  induction hall with
  | nil => exact forall_mem_nil _
  | cons hok _ ih =>
    rw [forall_mem_cons] at hf ⊢
    exact ⟨hf.1 _ hok, ih hf.2⟩

/-- Folding a subclause keeps what it requests. -/
theorem FoldedSubclause.used_of_ofResolved {captures : Nat} {r : ResolvedSubclause}
    {c : FoldedSubclause} (h : FoldedSubclause.ofResolved captures r = .ok c) :
      c.used = r.used := by
  unfold FoldedSubclause.ofResolved at h
  obtain ⟨_, _, h⟩ := exists_of_bind_eq_ok h
  obtain ⟨p, _, h⟩ := exists_of_bind_eq_ok h
  split at h
  · cases h
    rfl
  · cases h

/-- A pattern that is folded is headed by a declaration, and keeps the captures and the subclauses.
-/
theorem parts_of_ofResolved {id : NodeId} {pattern : Resolved} {subclauses : List ResolvedSubclause}
    {captures : Nat} {p : Folded} (h : Folded.ofResolved id pattern subclauses captures = .ok p) :
    (∃ headId value d, pattern.head = .term headId value ∧ value.head = .decl d ∧
        p.head = .decl d) ∧ p.captures = captures ∧
      Forall₂ (fun r c => FoldedSubclause.ofResolved captures r = .ok c) subclauses
        p.subclauses := by
  unfold Folded.ofResolved at h
  split at h
  · next headId value hhead =>
    split at h
    · next d hd =>
      split at h
      · obtain ⟨matched, _, h⟩ := exists_of_bind_eq_ok h
        obtain ⟨others, hothers, h⟩ := exists_of_bind_eq_ok h
        cases h
        exact ⟨⟨headId, value, d, hhead, hd, rfl⟩, rfl, forall₂_of_mapM_eq_ok hothers⟩
      · cases h
    · cases h
  · cases h

theorem head_of_flat {folded : Folded} {flat : Flat} (h : Flat.ofFolded folded = .ok flat) :
    flat.head = folded.head := by
  unfold Flat.ofFolded at h
  obtain ⟨_, _, h⟩ := exists_of_bind_eq_ok h
  obtain ⟨_, _, h⟩ := exists_of_bind_eq_ok h
  obtain ⟨_, _, h⟩ := exists_of_bind_eq_ok h
  cases h
  rfl

/-! ### The parts of a flat pattern -/

namespace Flattening

variable {bound : List (Option Nat)} {caps : List Term}

/-- The flattening of a pattern before anything is matched. -/
def start (p : Folded) : Flattening := ⟨replicate p.captures none, p.inScope, [], []⟩

private theorem agrees_start (p : Folded) {args : List Term} (h : p.inScope ≤ args.length) :
    (start p).Agrees ⟨args.take p.inScope, .empty⟩ where
  next := by simp [start, h]
  bound c q hq := by simp [start, getElem?_replicate] at hq
  unbound c _ := rfl

/-- Every capture is bound, and the values that stand for the captures are as they were bound. -/
theorem map_captures {id : NodeId} {index : Nat} (h : captures id index bound = .ok caps) :
    caps.map some = bound.map (Option.map arg) := by
  induction bound generalizing index caps with
  | nil =>
    cases h
    rfl
  | cons o bound ih =>
    cases o with
    | none => cases h
    | some position =>
      cases hothers : captures id (index + 1) bound with
      | error e =>
        rw [captures, hothers] at h
        cases h
      | ok others =>
        rw [captures, hothers] at h
        cases h
        rw [map_cons, ih hothers]
        rfl

private theorem getElem?_captures (h : caps.map some = bound.map (Option.map arg)) (c : Nat) :
    caps[c]? = (bound[c]?.getD none).map arg := by
  have hc : (caps.map some)[c]? = (bound.map (Option.map arg))[c]? := by rw [h]
  rw [getElem?_map, getElem?_map] at hc
  cases hb : bound[c]? with
  | none => simpa [hb] using hc
  | some o =>
    rw [hb] at hc
    obtain ⟨t, ht, hsome⟩ := Option.map_eq_some_iff.1 hc
    rw [ht, Option.getD_some, ← hsome]

/-- A subclause whose captures are bound requests them all. -/
theorem map_requested {f : Flattening} {used : List Nat} (h : f.unbound? used = none) :
    used.map (fun c => (f.bound[c]?.getD none).map arg) = (f.requested used).map some := by
  rw [unbound?_eq_none_iff] at h
  induction used with
  | nil => rfl
  | cons c used ih =>
    rw [forall_mem_cons] at h
    obtain ⟨⟨p, hp⟩, hused⟩ := h
    simp only [map_cons, requested, filterMap_cons, hp, Option.getD_some, Option.map_some]
    rw [ih hused]
    rfl

end Flattening

/-- A flat pattern asks for every subclause once, with what it requests, and its shards match what
the folded pattern does, whatever the subclauses match. -/
structure Flattened (p : Folded) (flat : Flat) : Prop where
  inScope : flat.inScope = p.inScope
  arity : flat.arity = p.inScope + p.matched.length
  captures : flat.captures.length = p.captures
  requests : ∃ requested : FoldedSubclause → List Term,
    flat.shards.filterMap Shard.request? = p.subclauses.zipIdx.map (fun s => (s.2, requested s.1)) ∧
    ∀ s ∈ p.subclauses, s.used.map (flat.captures[·]?) = (requested s).map some
  runSteps : ∀ (subject : Nat → Term) (normalize : Term → Option Term) (args : List Term),
    flat.arity ≤ args.length →
    Reduction.runSteps normalize (flat.shards.map (Shard.step subject)) (args.take p.inScope)
        (args.drop p.inScope) =
      (p.tryMatch normalize subject args).run.map
        (Option.map fun d => (d.values, args.drop flat.arity))
  captured : ∀ (subject : Nat → Term) (normalize : Term → Option Term) (args : List Term),
    flat.arity ≤ args.length →
    ∀ d, (p.tryMatch normalize subject args).run = some (some d) →
      d.values.length = p.inScope + (flat.shards.map Shard.count).sum ∧
      ∀ (c : Nat) (t : Term), flat.captures[c]? = some t →
        ∃ i v, t = .arg i ∧ d.values[i]? = some v ∧ d.captured.get? c = some v

theorem flattened_of_ofFolded {p : Folded} {flat : Flat} (h : Flat.ofFolded p = .ok flat) :
    Flattened p flat := by
  unfold Flat.ofFolded at h
  obtain ⟨⟨left, f1⟩, hsubclauses, h⟩ := exists_of_bind_eq_ok h
  obtain ⟨f, hpulled, h⟩ := exists_of_bind_eq_ok h
  obtain ⟨caps, hcaps, h⟩ := exists_of_bind_eq_ok h
  cases h
  obtain ⟨hgrows1, hbound⟩ := Flattening.grows_subclauses hsubclauses
  have hpulls := Flattening.grows_pullAll hpulled
  have hgrows := hgrows1.trans hpulls
  have hcaptures := Flattening.map_captures hcaps
  obtain ⟨added, hadded, hrequests, hnext⟩ := hgrows.shards
  rw [append_nil] at hrequests
  obtain rfl : f.shards = added := hadded
  have hruns : ∀ (subject : Nat → Term) (normalize : Term → Option Term) (args : List Term),
      p.inScope + p.matched.length ≤ args.length →
      Flattening.Runs subject normalize (Flattening.start p) ⟨args.take p.inScope, .empty⟩
        (args.drop p.inScope) (p.tryMatch normalize subject args) f
        ((args.drop p.inScope).drop p.matched.length) := by
    intro subject normalize args hargs
    have hstart := Flattening.agrees_start p (Nat.le_of_add_right_le hargs)
    refine Flattening.runs_subclauses hsubclauses hpulled hstart ?_
    rw [length_drop]
    omega
  refine ⟨rfl, rfl, ?_, ⟨fun s => f1.requested s.used, hrequests, fun s hs => ?_⟩, ?_, ?_⟩
  · have hlength := congrArg length hcaptures
    rw [length_map, length_map, hgrows.captures, length_replicate] at hlength
    exact hlength
  · have hused := hbound s hs
    calc s.used.map (caps[·]?)
      _ = s.used.map fun c => (f.bound[c]?.getD none).map arg :=
        map_congr_left fun c _ => Flattening.getElem?_captures hcaptures c
      _ = (f.requested s.used).map some := Flattening.map_requested (hpulls.unbound? hused)
      _ = (f1.requested s.used).map some := by rw [hpulls.requested hused]
  · intro subject normalize args hargs
    obtain ⟨added, hadded, hrun⟩ := (hruns subject normalize args hargs).run
    obtain rfl : f.shards = added := hadded
    rw [hrun, drop_drop]
  · intro subject normalize args hargs d hd
    have hagrees := (hruns subject normalize args hargs).agrees d hd
    refine ⟨by rw [← hagrees.next, hnext], fun c t ht => ?_⟩
    rw [Flattening.getElem?_captures hcaptures] at ht
    obtain ⟨i, hi, rfl⟩ := Option.map_eq_some_iff.1 ht
    obtain ⟨o, ho, rfl⟩ : ∃ o, f.bound[c]? = some o ∧ o = some i := by
      cases hb : f.bound[c]? with
      | none => simp [hb] at hi
      | some o => exact ⟨o, rfl, by simpa [hb] using hi⟩
    obtain ⟨v, hv, hc⟩ := hagrees.bound c i ho
    exact ⟨i, v, rfl, hv, hc⟩

/-! ### The steps for the shards -/

variable {H : Type} {value : Nat → Telescope → List Term → StateT H KernelM Term}
  {shards : List Shard}

/-- What a shard matches. -/
def subjectTerm (value : Nat → Telescope → List Term → StateT H KernelM Term) (tele : Telescope) :
    Subject → StateT H KernelM Term
  | .value position => pure (.arg position)
  | .subclause index requested => value index tele requested

/-- Binds arguments of a head and assumes that it, applied to them, is what is matched. -/
def matchHead (tele : Telescope) (t head : Term) (count : Nat) : KernelM (Option Telescope) := do
  match ← pullArguments count tele head with
  | none => pure none
  | some (tele, destructured) =>
    KernelM.note (.patternMatched t destructured)
    some <$> tele.assume t destructured

/-- Running a shard that matches. -/
theorem runShards_destructure (id shardId : NodeId) (p : Partial) (subject : Subject) (head : Term)
    (count : Nat) (rest : List Shard) :
    runShards id value p (.destructure shardId subject head count :: rest) = (do
      let t ← subjectTerm value p.telescope subject
      match ← (liftM (matchHead p.telescope t head count) : StateT H KernelM _) with
      | none => pure (.error (.rejected .badApplicationInSubclause shardId))
      | some tele =>
        runShards id value ⟨tele, p.applied, p.steps ++ [.destructure t head count]⟩ rest) := by
  have hmatched : ∀ t : Term, (do
      match ← (liftM (pullArguments count p.telescope head) : StateT H KernelM _) with
      | none => pure (Except.error (Failure.rejected .badApplicationInSubclause shardId))
      | some (tele, destructured) =>
        liftM (KernelM.note (.patternMatched t destructured))
        let tele ← (liftM (tele.assume t destructured) : StateT H KernelM Telescope)
        runShards id value ⟨tele, p.applied, p.steps ++ [Step.destructure t head count]⟩ rest) =
      (do
      match ← (liftM (matchHead p.telescope t head count) : StateT H KernelM _) with
      | none => pure (.error (.rejected .badApplicationInSubclause shardId))
      | some tele =>
        runShards id value ⟨tele, p.applied, p.steps ++ [.destructure t head count]⟩ rest) := by
    intro t
    unfold matchHead
    rw [liftM_bind, bind_assoc]
    refine congrArg _ (funext fun out => ?_)
    cases out with
    | none => simp only [liftM_pure, pure_bind]
    | some out => simp only [liftM_bind, liftM_pure, bind_assoc, map_eq_pure_bind, pure_bind]
  cases subject with
  | value position => exact hmatched (.arg position)
  | subclause index requested =>
    exact congrArg (value index p.telescope requested >>= ·) (funext hmatched)

/-- The value of a subclause's expression, asked for with the requested captures, was `t`. -/
def Answers (value : Nat → Telescope → List Term → StateT H KernelM Term) (index : Nat)
    (requested : List Term) (t : Term) : Prop :=
  ∃ tele s k s' k', value index tele requested s k = .ok (t, s') k'

/-- The step that typing a shard gives. -/
inductive Typed (value : Nat → Telescope → List Term → StateT H KernelM Term) :
    Shard → Rule.Step → Prop where
  | pull : Typed value .pull .pull
  | value (id : NodeId) (position : Nat) (head : Term) (count : Nat) :
      Typed value (.destructure id (.value position) head count)
        (.destructure (.arg position) head count)
  | subclause (id : NodeId) {index : Nat} {requested : List Term} {t : Term} (head : Term)
      (count : Nat) (h : Answers value index requested t) :
      Typed value (.destructure id (.subclause index requested) head count)
        (.destructure t head count)

theorem ends_pullArgument_depth (tele : Telescope) (function : Term) (k : Kernel) :
    Ends (pullArgument tele function) k
      (fun out _ => ∀ r, out = some r → r.1.depth = tele.depth + 1) fun _ _ => True := by
  unfold pullArgument
  refine Ends.bind (Q := fun _ _ => True) (X := fun _ _ => True)
    (.of_cases (fun _ _ _ => trivial) fun _ _ _ => trivial) ?_ fun _ _ h => h
  rintro parts k1 -
  split
  · exact nofun
  · refine Ends.bind (tele.ends_extend _ k1) (fun tele' k' hbound => ?_) fun _ _ _ => trivial
    rintro r ⟨⟩
    rw [hbound.telescope]
    rfl

private theorem ends_pullArguments_depth (count : Nat) (tele : Telescope) (function : Term)
    (k : Kernel) :
    Ends (pullArguments count tele function) k
      (fun out _ => ∀ r, out = some r → r.1.depth = tele.depth + count) fun _ _ => True := by
  induction count generalizing tele function k with
  | zero =>
    rintro r ⟨⟩
    rfl
  | succ count ih =>
    unfold pullArguments
    refine Ends.seq (ends_pullArgument_depth tele function k) fun out k1 hout => ?_
    split
    · exact nofun
    · next tele1 function1 =>
      refine (ih tele1 function1 k1).imp (fun out k' h r hr => ?_)
      rw [h r hr, hout _ rfl]
      omega

theorem ends_matchHead_depth (tele : Telescope) (t head : Term) (count : Nat) (k : Kernel) :
    Ends (matchHead tele t head count) k
      (fun out _ => ∀ inner, out = some inner → inner.depth = tele.depth + count)
      fun _ _ => True := by
  refine Ends.seq (ends_pullArguments_depth count tele head k) fun out k1 hout => ?_
  split
  · exact nofun
  · next bound destructured =>
    rw [Ends.bind_iff, KernelM.ends_note, Ends.map_iff]
    refine (bound.ends_assume _ _ _).answer (fun assumed k2 hassumed => ?_)
    rintro _ ⟨⟩
    rw [hassumed.telescope, ← hout _ rfl]
    rfl

/-- The shards were run: one step was made a shard, and one argument bound a value. -/
structure Ran (value : Nat → Telescope → List Term → StateT H KernelM Term) (p : Partial)
    (shards : List Shard) (p' : Partial) : Prop where
  steps : ∃ steps, p'.steps = p.steps ++ steps ∧ List.Forall₂ (Typed value) shards steps
  depth : p'.telescope.depth = p.telescope.depth + (shards.map Shard.count).sum

private theorem Ran.cons {p p' : Partial} {shard : Shard} {step : Step}
    {tele : Telescope} {applied : Term}
    (h : Ran value ⟨tele, applied, p.steps ++ [step]⟩ shards p') (hstep : Typed value shard step)
    (hdepth : tele.depth = p.telescope.depth + shard.count) : Ran value p (shard :: shards) p' where
  steps := by
    obtain ⟨steps, hsteps, htyped⟩ := h.steps
    exact ⟨step :: steps, by rw [hsteps, append_assoc]; rfl, .cons hstep htyped⟩
  depth := by rw [h.depth, hdepth, map_cons, sum_cons, Nat.add_assoc]

private theorem ends_runShards (id : NodeId) (p : Partial) (shards : List Shard) (s : H)
    (k : Kernel) :
    EndsWith (runShards id value p shards) s k
      (fun out _ _ => ∀ p', out = .ok p' → Ran value p shards p') fun _ _ => True := by
  induction shards generalizing p s k with
  | nil =>
    rintro p' ⟨⟩
    exact ⟨⟨[], by simp⟩, rfl⟩
  | cons shard shards ih =>
    cases shard with
    | pull =>
      unfold runShards
      rw [bind_iff, lift_iff]
      refine (ends_pullArgument_depth p.telescope p.applied k).imp (fun out k1 hout => ?_)
      split
      · exact fun p' hp' => nomatch hp'
      · next tele applied =>
        refine (ih _ s k1).imp (fun _ _ _ h p' hp' => ?_)
        exact (h p' hp').cons .pull (hout _ rfl)
    | destructure shardId subject head count =>
      rw [runShards_destructure, bind_iff]
      have hsubject : EndsWith (subjectTerm value p.telescope subject) s k
          (fun t _ _ => Typed value (.destructure shardId subject head count)
            (.destructure t head count)) fun _ _ => True := by
        cases subject with
        | value position => exact .value shardId position head count
        | subclause index requested =>
          exact Ends.of_cases (fun _ _ hr => .subclause shardId head count ⟨_, _, _, _, _, hr⟩)
            fun _ _ _ => trivial
      refine hsubject.imp (fun t s1 k1 hstep => ?_)
      rw [bind_iff, lift_iff]
      refine (ends_matchHead_depth p.telescope t head count k1).imp (fun out k2 hout => ?_)
      cases out with
      | none => exact fun p' hp' => nomatch hp'
      | some inner =>
        refine (ih _ s1 k2).imp (fun _ _ _ h p' hp' => ?_)
        exact (h p' hp').cons hstep (hout inner rfl)

/-- The pattern was typed: the arguments in scope are pulled, then the shards are run. -/
structure Executed (value : Nat → Telescope → List Term → StateT H KernelM Term) (flat : Flat)
    (x : Execution) : Prop where
  arity : x.arity = flat.arity
  steps : ∃ steps, x.steps = replicate flat.inScope .pull ++ steps ∧
    List.Forall₂ (Typed value) flat.shards steps
  depth : x.telescope.depth = flat.inScope + (flat.shards.map Shard.count).sum

private theorem ends_execute (tele : Telescope) (flat : Flat) (s : H) (k : Kernel) :
    EndsWith (execute tele flat value) s k
      (fun out _ _ => ∀ x, out = .ok x → Executed value flat x) fun _ _ => True := by
  unfold execute
  split
  · exact nofun
  · next hdepth =>
    rw [bind_iff]
    refine (ends_runShards _ _ _ s k).imp (fun out s1 k1 hout => ?_)
    split
    · exact nofun
    · next p =>
      have hran := hout p rfl
      rw [bind_iff, lift_iff]
      refine Ends.of_answer fun type k2 _ => ?_
      split
      · exact nofun
      · split
        · exact nofun
        · rintro x ⟨⟩
          exact ⟨rfl, hran.steps, by rw [hran.depth, not_not.1 hdepth]⟩

private theorem Shard.step_congr {subject subject' : Nat → Term} {shard : Shard}
    (h : ∀ r, shard.request? = some r → subject r.1 = subject' r.1) :
    shard.step subject = shard.step subject' := by
  match shard with
  | .pull => rfl
  | .destructure _ (.value _) _ _ => rfl
  | .destructure _ (.subclause _ _) _ _ => exact congrArg (Step.destructure · _ _) (h _ rfl)

private theorem exists_subjects {steps : List Step} (h : Forall₂ (Typed value) shards steps)
    (hnodup : ((shards.filterMap Shard.request?).map Prod.fst).Nodup) :
    ∃ subject : Nat → Term, steps = shards.map (Shard.step subject) ∧
      ∀ r ∈ shards.filterMap Shard.request?, Answers value r.1 r.2 (subject r.1) := by
  induction h with
  | nil => exact ⟨fun _ => default, rfl, nofun⟩
  | @cons shard step shards steps hstep _ ih =>
    cases hstep with
    | pull =>
      obtain ⟨subject, hsteps, hanswers⟩ := ih hnodup
      exact ⟨subject, by rw [hsteps]; rfl, hanswers⟩
    | value =>
      obtain ⟨subject, hsteps, hanswers⟩ := ih hnodup
      exact ⟨subject, by rw [hsteps]; rfl, hanswers⟩
    | @subclause id index requested t head count hanswer =>
      have hrequest : (Shard.destructure id (.subclause index requested) head count).request? =
          some (index, requested) := rfl
      rw [filterMap_cons_some hrequest, map_cons, nodup_cons] at hnodup
      obtain ⟨subject, hsteps, hanswers⟩ := ih hnodup.2
      have hother : ∀ r ∈ shards.filterMap Shard.request?,
          update subject index t r.1 = subject r.1 := by
        intro r hr
        refine update_of_ne (fun heq => hnodup.1 ?_) _ _
        exact mem_map.2 ⟨r, hr, heq⟩
      refine ⟨update subject index t, ?_, ?_⟩
      · rw [hsteps, map_cons]
        congr 1
        · have hself := update_self index t subject
          exact congrArg (Step.destructure · head count) hself.symm
        · refine map_congr_left fun shard hshard => Shard.step_congr fun r hr => ?_
          exact (hother r (mem_filterMap.2 ⟨shard, hshard, hr⟩)).symm
      · rw [filterMap_cons_some hrequest, forall_mem_cons]
        refine ⟨?_, fun r hr => ?_⟩
        · rw [update_self]
          exact hanswer
        · rw [hother r hr]
          exact hanswers r hr

/-! ### Compiling preserves matching -/

private theorem runSteps_pulls (normalize : Term → Option Term) (steps : List Step) (count : Nat)
    (captures args : List Term) (h : count ≤ args.length) :
    runSteps normalize (replicate count .pull ++ steps) captures args =
      runSteps normalize steps (captures ++ args.take count) (args.drop count) := by
  induction count generalizing captures args with
  | zero => simp
  | succ count ih =>
    cases args with
    | nil => cases h
    | cons x args =>
      rw [replicate_succ, cons_append, runSteps,
        ih _ _ (Nat.le_of_succ_le_succ h), take_succ_cons, drop_succ_cons]
      simp

/-- Running the match program of a rule does what matching the folded pattern does, the subclauses
matched against the values of their expressions: it does not end, does not match or matches in the
same cases, and captures the values that are met, which are those that the telescope binds. A
capture of the pattern stands at the place of the value at its first occurrence. -/
theorem runSteps_eq_tryMatch {id : NodeId} {pattern : Resolved}
    {subclauses : List ResolvedSubclause} {captures : Nat} {p : Folded} {flat : Flat}
    {tele : Telescope} {s s' : H} {k k' : Kernel} {x : Execution}
    (hfolded : Folded.ofResolved id pattern subclauses captures = .ok p)
    (hflat : Flat.ofFolded p = .ok flat) (hx : execute tele flat value s k = .ok (.ok x, s') k') :
    flat.captures.length = captures ∧ ∃ subject : Nat → Term,
      (∀ (i : Nat) (c : ResolvedSubclause), subclauses[i]? = some c → ∃ requested : List Term,
        c.used.map (flat.captures[·]?) = requested.map some ∧
          Answers value i requested (subject i)) ∧
      ∀ (normalize : Term → Option Term) (args : List Term), x.arity ≤ args.length →
        Reduction.runSteps normalize x.steps [] args = (p.tryMatch normalize subject args).run.map
            (Option.map fun d => (d.values, args.drop x.arity)) ∧
        ∀ d, (p.tryMatch normalize subject args).run = some (some d) →
          d.values.length = x.telescope.depth ∧
          ∀ (c : Nat) (t : Term), flat.captures[c]? = some t →
            ∃ i v, t = .arg i ∧ d.values[i]? = some v ∧ d.captured.get? c = some v := by
  obtain ⟨_, hcaptures, hsubclauses⟩ := parts_of_ofResolved hfolded
  have hflattened := flattened_of_ofFolded hflat
  have hexecuted := (ends_execute tele flat s k).of_ok hx x rfl
  obtain ⟨requested, hrequests, hrequested⟩ := hflattened.requests
  obtain ⟨steps, hsteps, htyped⟩ := hexecuted.steps
  have hnodup : ((flat.shards.filterMap Shard.request?).map Prod.fst).Nodup := by
    rw [hrequests, map_map]
    exact zipIdx_map_snd 0 p.subclauses ▸ nodup_range'
  obtain ⟨subject, rfl, hanswers⟩ := exists_subjects htyped hnodup
  refine ⟨hflattened.captures.trans hcaptures, subject, fun i r hr => ?_,
    fun normalize args hargs => ?_⟩
  · obtain ⟨hi, rfl⟩ := List.getElem?_eq_some_iff.1 hr
    have hi' : i < p.subclauses.length := hsubclauses.length_eq ▸ hi
    let c := p.subclauses[i]
    have hc : p.subclauses[i]? = some c := List.getElem?_eq_getElem hi'
    have hused : c.used = subclauses[i].used :=
      FoldedSubclause.used_of_ofResolved (hsubclauses.get hi hi')
    rw [← hused]
    refine ⟨requested c, hrequested c (mem_of_getElem? hc), hanswers (i, requested c) ?_⟩
    rw [hrequests]
    exact mem_map.2 ⟨(c, i), mem_zipIdx_iff_getElem?.2 hc, rfl⟩
  · rw [hexecuted.arity] at hargs ⊢
    have hinScope : flat.inScope ≤ args.length := by
      rw [hflattened.arity, ← hflattened.inScope] at hargs
      exact Nat.le_of_add_right_le hargs
    refine ⟨?_, fun d hd => ?_⟩
    · rw [hsteps, runSteps_pulls _ _ _ _ _ hinScope, hflattened.inScope]
      exact hflattened.runSteps subject normalize args hargs
    · obtain ⟨hlength, hcaptured⟩ := hflattened.captured subject normalize args hargs d hd
      rw [hexecuted.depth, hflattened.inScope]
      exact ⟨hlength, hcaptured⟩

/-- The left side `f (succ a) b`. -/
def nested : Resolved :=
  .app 3 (.app 2 (.term 0 (.decl 12)) (.app 1 (.term 1 (.postulate 11)) (.capture 2 0)))
    (.capture 3 1)

/-- It is matched where a term over `a` is `succ c`. -/
def nestedWhere : List ResolvedSubclause :=
  [⟨4, [0], .app 4 (.term 4 (.postulate 11)) (.capture 5 2)⟩]

/-- The subclause comes before the second argument, so `b` is the last value and `c` the one
before. -/
def nestedFlat : Flat where
  id := 0
  head := .decl 12
  inScope := 0
  arity := 2
  shards := [.pull, .destructure 1 (.value 0) (.postulate 11) 1,
    .destructure 4 (.subclause 0 [.arg 1]) (.postulate 11) 1, .pull]
  captures := [.arg 1, .arg 3, .arg 2]
  checks := []

/-- Numbers with a successor, and a function of two numbers. -/
def numbers : Kernel :=
  let number : Term := .postulate 10
  let successor := Primitive.functionType number number
  { Kernel.initial with
    nextSymbol := 13
    contexts := #[.empty]
    types := ⟨Primitive.types ++ [(10, Primitive.type), (11, successor),
      (12, Primitive.functionType number successor)]⟩ }

/-- The value of `f a a`. -/
def twice (_ : Nat) (_ : Telescope) (requested : List Term) : SessionM Term :=
  pure ((Term.decl 12).apply (requested ++ requested))

/-- The theorem at nested patterns. -/
theorem runSteps_nested : ∃ p x s' k',
    Folded.ofResolved 0 nested nestedWhere 3 = .ok p ∧ Flat.ofFolded p = .ok nestedFlat ∧
    execute ⟨[], Primitive.type, .app Primitive.identity Primitive.type, 0⟩ nestedFlat twice
      (.initial numbers) numbers = .ok (.ok x, s') k' ∧
    ∃ subject, ∀ (normalize : Term → Option Term) (y z : Term),
      Reduction.runSteps normalize x.steps [] [y, z] =
        (p.tryMatch normalize subject [y, z]).run.map (Option.map fun d => (d.values, [])) := by
  obtain ⟨p, hfolded, hflat⟩ : ∃ p, Folded.ofResolved 0 nested nestedWhere 3 = .ok p ∧
      Flat.ofFolded p = .ok nestedFlat := ⟨_, rfl, rfl⟩
  obtain ⟨⟨_, s'⟩, k', hx, x, rfl, harity⟩ :
      ∃ y k', execute ⟨[], Primitive.type, .app Primitive.identity Primitive.type, 0⟩
        nestedFlat twice
        (.initial numbers) numbers = .ok y k' ∧ ∃ x, y.1 = .ok x ∧ x.arity = 2 := by decide +kernel
  obtain ⟨_, subject, _, hmatch⟩ := runSteps_eq_tryMatch hfolded hflat hx
  refine ⟨p, x, s', k', hfolded, hflat, hx, subject, fun normalize y z => ?_⟩
  have hmatched := (hmatch normalize [y, z] (by rw [harity]; exact Nat.le_refl 2)).1
  rw [harity] at hmatched
  exact hmatched

end Pattern
end Elaboration
