import Mathlib.Algebra.GroupWithZero.Nat
import Mathlib.Data.List.Basic
import Elaboration.Pattern.Flat
import Elaboration.Proofs.Action
import Elaboration.Proofs.Term.Spine
import Elaboration.Reduction.Basic

/-!
# Matching a folded pattern directly

A folded pattern is matched by recursion over its positions; captures are bound to the values
themselves. Flattening the pattern gives a match program that does the same: the number of a capture
is the place of its value among the values met so far.
-/

namespace Elaboration

open List Reduction
namespace Pattern

/-- What matching has come to. -/
structure Matching where
  /-- The values met so far. Those to which a head is applied are met together, before any of them
  is looked into. -/
  values : List Term
  /-- For every capture met so far, the value at its first occurrence. -/
  captured : Table Term

namespace Matching

/-- More values are met. -/
def meet (d : Matching) (xs : List Term) : Matching := { d with values := d.values ++ xs }

/-- A capture occurs at a value. Only its first occurrence binds it. -/
def capture (d : Matching) (c : Nat) (x : Term) : Matching :=
  if d.captured.contains c then d else { d with captured := d.captured.set c x }

@[simp] private theorem values_capture (d : Matching) (c : Nat) (x : Term) :
    (d.capture c x).values = d.values := by
  unfold capture
  split <;> rfl

end Matching

section Direct

variable {m : Type → Type} [Monad m] (normalize : Term → m Term)

mutual

/-- Matches a value at a position. -/
def Position.tryMatch (d : Matching) (x : Term) : Position → OptionT m Matching
  | .destructure _ head args => do
    let value ← normalize x
    if value.head = head ∧ value.args.length = args.length then
      Position.tryMatchAll (d.meet value.args) value.args args
    else
      failure
  | .capture _ c => pure (d.capture c x)
  | .check _ _ => pure d
  | .ignore => pure d

/-- Matches values at as many positions. -/
def Position.tryMatchAll (d : Matching) (xs : List Term) : List Position → OptionT m Matching
  | [] => pure d
  | p :: ps =>
    match xs with
    | [] => failure
    | x :: xs => do
      let d ← Position.tryMatch d x p
      Position.tryMatchAll d xs ps

end

/-- Matches subclauses in order, each against a term over the values met, up to the first with a
capture that is not bound; answers those left over. -/
def tryReady (d : Matching) :
    List (FoldedSubclause × Term) → OptionT m (Matching × List (FoldedSubclause × Term))
  | [] => pure (d, [])
  | (s, t) :: rest =>
    if ∀ c ∈ s.used, d.captured.contains c then do
      let d ← (Position.destructure s.id s.head s.args).tryMatch normalize d (t.subst d.values)
      tryReady d rest
    else
      pure (d, (s, t) :: rest)

/-- Matches arguments at positions, and subclauses as soon as the captures that they request are
bound. -/
def tryArgs (d : Matching) (pending : List (FoldedSubclause × Term)) (args : List Term)
    (positions : List Position) : OptionT m Matching := do
  let (d, pending) ← tryReady normalize d pending
  match positions with
  | [] => if pending.isEmpty then pure d else failure
  | p :: ps =>
    match args with
    | [] => failure
    | x :: args =>
      let d ← p.tryMatch normalize (d.meet [x]) x
      tryArgs d pending args ps

/-- Matches the arguments of the head of a rule, the subclause numbered `i` against the term
`subject i`. -/
def Folded.tryMatch (p : Folded) (subject : Nat → Term) (args : List Term) : OptionT m Matching :=
  tryArgs normalize ⟨args.take p.inScope, .empty⟩
    (p.subclauses.zipIdx.map fun s => (s.1, subject s.2)) (args.drop p.inScope) p.matched

end Direct

/-! ### What flattening adds -/

/-- The request that a shard makes of a subclause: its number and the captures. -/
def Shard.request? : Shard → Option (Nat × List Term)
  | .destructure _ (.subclause index requested) _ _ => some (index, requested)
  | _ => none

/-- The step for a shard, `subject i` being the term that subclause `i` matches. -/
def Shard.step (subject : Nat → Term) : Shard → Rule.Step
  | .pull => .pull
  | .destructure _ (.value position) head count => .destructure (.arg position) head count
  | .destructure _ (.subclause index _) head count => .destructure (subject index) head count

/-- Number of values that a shard produces. -/
def Shard.count : Shard → Nat
  | .pull => 1
  | .destructure _ _ _ count => count

namespace Flattening

/-- Shards were added that make the given requests, the values that they produce are numbered, and
captures that were bound stay bound. -/
structure Grows (f f' : Flattening) (requests : List (Nat × List Term)) : Prop where
  shards : ∃ added, f'.shards = f.shards ++ added ∧ added.filterMap Shard.request? = requests ∧
    f'.next = f.next + (added.map Shard.count).sum
  captures : f'.bound.length = f.bound.length
  bound : ∀ c p : Nat, f.bound[c]? = some (some p) → f'.bound[c]? = some (some p)

variable {f f1 f' : Flattening} {requests requests' : List (Nat × List Term)}

private theorem Grows.refl (f : Flattening) : f.Grows f [] := ⟨⟨[], by simp⟩, rfl, fun _ _ h => h⟩

theorem Grows.trans (h : f.Grows f1 requests) (h' : f1.Grows f' requests') :
    f.Grows f' (requests ++ requests') := by
  obtain ⟨added, hadded, hrequests, hnext⟩ := h.shards
  obtain ⟨added', hadded', hrequests', hnext'⟩ := h'.shards
  refine ⟨⟨added ++ added', ?_, ?_, ?_⟩, h'.captures.trans h.captures,
    fun c p hc => h'.bound c p (h.bound c p hc)⟩
  · rw [hadded', hadded, append_assoc]
  · rw [filterMap_append, hrequests, hrequests']
  · rw [hnext', hnext, map_append, sum_append, Nat.add_assoc]

private theorem grows_addShard (f : Flattening) (s : Shard) :
    f.Grows (f.addShard s s.count) s.request?.toList :=
  ⟨⟨[s], rfl, by cases h : s.request? <;> simp [h], by simp [addShard]⟩, rfl, fun _ _ h => h⟩

private theorem grows_addCheck (f : Flattening) (c : FlatCheck) : f.Grows (f.addCheck c) [] :=
  ⟨⟨[], by simp [addCheck]⟩, rfl, fun _ _ h => h⟩

variable {id : NodeId} {index : Nat} {used : List Nat} {position : Nat}

private theorem grows_bindCapture (h : f.bindCapture id index position = .ok f') :
    f.Grows f' [] := by
  unfold bindCapture at h
  split at h
  · cases h
  · cases h
    exact f.grows_addCheck _
  · next hindex =>
    cases h
    refine ⟨⟨[], by simp⟩, length_set, fun c p hc => ?_⟩
    have hne : index ≠ c := by
      rintro rfl
      rw [hindex] at hc
      cases hc
    rw [getElem?_set_ne hne, hc]

private theorem shards_bindCapture (h : f.bindCapture id index position = .ok f') :
    f'.shards = f.shards := by
  unfold bindCapture at h
  split at h <;> cases h <;> rfl

mutual

theorem grows_bind {position : Nat} (p : Position) {f f' : Flattening}
    (h : f.bind position p = .ok f') : f.Grows f' [] := by
  cases p with
  | destructure id head args =>
    rw [bind] at h
    exact (f.grows_addShard (.destructure id (.value position) head args.length)).trans
      (grows_bindAll args h)
  | capture id index =>
    rw [bind] at h
    exact grows_bindCapture h
  | check id expected =>
    rw [bind] at h
    cases h
    exact f.grows_addCheck _
  | ignore =>
    rw [bind] at h
    cases h
    exact .refl _

private theorem grows_bindAll {position : Nat} (ps : List Position) {f f' : Flattening}
    (h : f.bindAll position ps = .ok f') : f.Grows f' [] := by
  cases ps with
  | nil =>
    rw [bindAll] at h
    cases h
    exact .refl _
  | cons p ps =>
    rw [bindAll] at h
    obtain ⟨f1, hp, hps⟩ := exists_of_bind_eq_ok h
    exact (grows_bind p hp).trans (grows_bindAll ps hps)

end

private theorem grows_pull {p : Position} (h : f.pull p = .ok f') : f.Grows f' [] :=
  (f.grows_addShard .pull).trans (grows_bind p h)

theorem grows_pullAll {ps : List Position} (h : f.pullAll ps = .ok f') : f.Grows f' [] := by
  induction ps generalizing f with
  | nil =>
    cases h
    exact .refl _
  | cons p ps ih =>
    obtain ⟨f1, hp, hps⟩ := exists_of_bind_eq_ok h
    exact (grows_pull hp).trans (ih hps)

theorem grows_pullFor {left left' : List Position} (h : pullFor id used f left = .ok (left', f')) :
    f.Grows f' [] ∧ f'.unbound? used = none := by
  induction left generalizing f with
  | nil =>
    unfold pullFor at h
    split at h
    · next hbound =>
      cases h
      exact ⟨.refl _, hbound⟩
    · cases h
  | cons p left ih =>
    unfold pullFor at h
    split at h
    · next hbound =>
      cases h
      exact ⟨.refl _, hbound⟩
    · obtain ⟨f1, hp, hleft⟩ := exists_of_bind_eq_ok h
      obtain ⟨hgrows, hbound⟩ := ih hleft
      exact ⟨(grows_pull hp).trans hgrows, hbound⟩

/-- All requested captures are bound. -/
theorem unbound?_eq_none_iff :
    f.unbound? used = none ↔ ∀ c ∈ used, ∃ p, f.bound[c]? = some (some p) := by
  unfold unbound?
  rw [find?_eq_none]
  refine forall₂_congr fun c _ => ?_
  cases f.bound[c]? with
  | none => simp
  | some o => cases o <;> simp

theorem Grows.unbound? (h : f.Grows f' requests) (hused : f.unbound? used = none) :
    f'.unbound? used = none := by
  rw [unbound?_eq_none_iff] at hused ⊢
  intro c hc
  obtain ⟨p, hp⟩ := hused c hc
  exact ⟨p, h.bound c p hp⟩

/-- What a subclause requests is settled once its captures are bound. -/
theorem Grows.requested (h : f.Grows f' requests) (hused : f.unbound? used = none) :
    f'.requested used = f.requested used := by
  unfold Flattening.requested
  refine filterMap_congr fun c hc => ?_
  obtain ⟨p, hp⟩ := unbound?_eq_none_iff.1 hused c hc
  rw [hp, h.bound c p hp]

theorem grows_subclauses {left left' : List Position} {subs : List FoldedSubclause}
    (h : f.subclauses left index subs = .ok (left', f')) :
    f.Grows f' ((subs.zipIdx index).map fun s => (s.2, f'.requested s.1.used)) ∧
      ∀ s ∈ subs, f'.unbound? s.used = none := by
  induction subs generalizing f left index with
  | nil =>
    cases h
    exact ⟨.refl _, nofun⟩
  | cons s subs ih =>
    rw [subclauses] at h
    obtain ⟨⟨left1, f1⟩, hpulled, h⟩ := exists_of_bind_eq_ok h
    obtain ⟨f2, hargs, hsubs⟩ := exists_of_bind_eq_ok h
    obtain ⟨hgrows, hbound⟩ := grows_pullFor hpulled
    have hshard := (f1.grows_addShard (.destructure s.id (.subclause index (f1.requested s.used))
      s.head s.args.length)).trans (grows_bindAll s.args hargs)
    obtain ⟨hrest, hothers⟩ := ih hsubs
    have hlater := hshard.trans hrest
    have hall := hgrows.trans hlater
    rw [← hlater.requested hbound] at hall
    exact ⟨hall, forall_mem_cons.2 ⟨hlater.unbound? hbound, hothers⟩⟩

/-! ### Flattening and matching keep in step -/

/-- The values met are numbered as the flattening numbers them. -/
structure Agrees (f : Flattening) (d : Matching) : Prop where
  next : f.next = d.values.length
  bound : ∀ c p : Nat, f.bound[c]? = some (some p) →
    ∃ v, d.values[p]? = some v ∧ d.captured.get? c = some v
  unbound : ∀ c : Nat, (∀ p, f.bound[c]? ≠ some (some p)) → d.captured.get? c = none

variable {d : Matching} {x : Term} {args rest rest' : List Term}

private theorem Agrees.ready_iff (h : f.Agrees d) (used : List Nat) :
    (∀ c ∈ used, d.captured.contains c) ↔ f.unbound? used = none := by
  rw [unbound?_eq_none_iff]
  refine forall₂_congr fun c _ => ?_
  constructor
  · intro hc
    by_contra hnot
    rw [Table.contains, h.unbound c (not_exists.1 hnot)] at hc
    cases hc
  · rintro ⟨p, hp⟩
    obtain ⟨v, _, hv⟩ := h.bound c p hp
    rw [Table.contains, hv]
    rfl

private theorem Agrees.addShard (h : f.Agrees d) (s : Shard) (xs : List Term) :
    (f.addShard s xs.length).Agrees (d.meet xs) where
  next := by simp [Flattening.addShard, Matching.meet, h.next]
  bound c p hp := by
    obtain ⟨v, hv, hc⟩ := h.bound c p hp
    exact ⟨v, List.getElem?_append_left (List.getElem?_eq_some_iff.1 hv).1 ▸ hv, hc⟩
  unbound := h.unbound

private theorem Agrees.getElem?_meet (h : f.Agrees d) (xs : List Term) (i : Nat) (y : Term)
    (hy : xs[i]? = some y) : (d.meet xs).values[f.next + i]? = some y := by
  rw [Matching.meet, h.next, getElem?_append_right (Nat.le_add_right _ _), Nat.add_sub_cancel_left]
  exact hy

private theorem Agrees.addCheck (h : f.Agrees d) (c : FlatCheck) : (f.addCheck c).Agrees d :=
  { h with }

private theorem Agrees.bindCapture (h : f.Agrees d) {id : NodeId} {c position : Nat}
    (hf : f.bindCapture id c position = .ok f') (hx : d.values[position]? = some x) :
    f'.Agrees (d.capture c x) := by
  unfold Flattening.bindCapture at hf
  split at hf
  · cases hf
  · next p hp =>
    cases hf
    obtain ⟨v, _, hv⟩ := h.bound c p hp
    have hcaptured : d.capture c x = d := by simp [Matching.capture, Table.contains, hv]
    rw [hcaptured]
    exact h.addCheck _
  · next hc =>
    cases hf
    have hnone : d.captured.get? c = none := h.unbound c fun p hp => by simp [hc] at hp
    have hcaptured : d.capture c x = { d with captured := d.captured.set c x } := by
      simp [Matching.capture, Table.contains, hnone]
    rw [hcaptured]
    have hlt : c < f.bound.length := (List.getElem?_eq_some_iff.1 hc).1
    refine ⟨h.next, fun j p hp => ?_, fun j hj => ?_⟩
    · dsimp only at hp ⊢
      rw [Table.get?_set]
      by_cases hjc : c = j
      · subst hjc
        rw [getElem?_set_self hlt] at hp
        cases hp
        exact ⟨x, hx, if_pos rfl⟩
      · rw [getElem?_set_ne hjc] at hp
        rw [if_neg hjc]
        exact h.bound j p hp
    · dsimp only at hj ⊢
      rw [Table.get?_set]
      by_cases hjc : c = j
      · subst hjc
        exact absurd (getElem?_set_self hlt) (hj position)
      · rw [if_neg hjc]
        refine h.unbound j fun p => ?_
        have hp := hj p
        rwa [getElem?_set_ne hjc] at hp

section Runs

variable (subject : Nat → Term) (normalize : Term → Option Term)

/-- The steps for the shards that were added do what `out` says: they end where it does, with the
values that it has met and `rest` of the arguments. -/
structure Runs (f : Flattening) (d : Matching) (args : List Term) (out : OptionT Option Matching)
    (f' : Flattening) (rest : List Term) : Prop where
  agrees : ∀ d', out.run = some (some d') → f'.Agrees d'
  kept : ∀ d', out.run = some (some d') → d.values <+: d'.values
  run : ∃ added, f'.shards = f.shards ++ added ∧
    Reduction.runSteps normalize (added.map (Shard.step subject)) d.values args =
      out.run.map (Option.map fun d' => (d'.values, rest))

end Runs

variable {subject : Nat → Term} {normalize : Term → Option Term} {out : OptionT Option Matching}

private theorem runSteps_append (steps steps' : List Rule.Step) (captures args : List Term) :
    runSteps normalize (steps ++ steps') captures args =
      (runSteps normalize steps captures args).bind fun
        | none => some none
        | some r => runSteps normalize steps' r.1 r.2 := by
  induction steps generalizing captures args with
  | nil => rfl
  | cons s steps ih =>
    cases s with
    | pull =>
      cases args with
      | nil => rfl
      | cons x args => exact ih _ _
    | destructure t head count =>
      rw [cons_append, runSteps, runSteps]
      cases normalize (t.subst captures) with
      | none => rfl
      | some value =>
        by_cases hvalue : value.head = head ∧ value.args.length = count
        · simpa [hvalue] using ih _ _
        · simp [hvalue]

private theorem Runs.unmatched {added : List Shard} (hno : ∀ d', out.run ≠ some (some d'))
    (hshards : f'.shards = f.shards ++ added)
    (hrun : runSteps normalize (added.map (Shard.step subject)) d.values args =
      out.run.map (Option.map fun d' => (d'.values, rest))) :
    Runs subject normalize f d args out f' rest :=
  ⟨fun d' hd' => absurd hd' (hno d'), fun d' hd' => absurd hd' (hno d'), added, hshards, hrun⟩

private theorem Runs.pure {d1 : Matching} (hf : f'.Agrees d1) (hvalues : d1.values = d.values)
    (hshards : f'.shards = f.shards) :
    Runs subject normalize f d args (pure d1) f' args where
  agrees d' hd' := by
    cases hd'
    exact hf
  kept d' hd' := by
    cases hd'
    exact hvalues ▸ prefix_rfl
  run := ⟨[], by simpa using hshards, by rw [← hvalues]; rfl⟩

private theorem Runs.bind {g : Matching → OptionT Option Matching}
    (h : Runs subject normalize f d args out f1 rest) (hgrows : f1.Grows f' requests)
    (hg : ∀ d1, f1.Agrees d1 → d.values <+: d1.values →
      Runs subject normalize f1 d1 rest (g d1) f' rest') :
    Runs subject normalize f d args (out >>= g) f' rest' := by
  obtain ⟨added, hadded, hrun⟩ := h.run
  obtain ⟨added', hadded', _⟩ := hgrows.shards
  have happend : f'.shards = f.shards ++ (added ++ added') := by
    rw [hadded', hadded, append_assoc]
  match hout : out.run with
  | none =>
    have hbind : (out >>= g).run = none := by simp [hout, Option.elimM]
    refine .unmatched (by simp [hbind]) happend ?_
    rw [map_append, runSteps_append, hrun, hout, hbind]
    rfl
  | some none =>
    have hbind : (out >>= g).run = some none := by simp [hout, Option.elimM]
    refine .unmatched (by simp [hbind]) happend ?_
    rw [map_append, runSteps_append, hrun, hout, hbind]
    rfl
  | some (some d1) =>
    have hbind : (out >>= g).run = (g d1).run := by simp [hout, Option.elimM]
    have hg1 := hg d1 (h.agrees d1 hout) (h.kept d1 hout)
    obtain ⟨added1, hadded1, hrun1⟩ := hg1.run
    obtain rfl : added1 = added' := append_cancel_left (hadded1.symm.trans hadded')
    refine ⟨?_, ?_, _, happend, ?_⟩
    · rw [hbind]
      exact hg1.agrees
    · intro d' hd'
      rw [hbind] at hd'
      exact (h.kept d1 hout).trans (hg1.kept d' hd')
    · rw [map_append, runSteps_append, hrun, hout, hbind]
      exact hrun1

private theorem run_tryMatch_destructure (normalize : Term → Option Term) (d : Matching) (x : Term)
    (id : NodeId) (head : Term) (ps : List Position) :
    ((Position.destructure id head ps).tryMatch normalize d x).run = (normalize x).bind fun value =>
        if value.head = head ∧ value.args.length = ps.length then
          (Position.tryMatchAll normalize (d.meet value.args) value.args ps).run
        else some none := by
  rw [Position.tryMatch]
  cases normalize x with
  | none => simp [Option.elimM]
  | some value =>
    by_cases hvalue : value.head = head ∧ value.args.length = ps.length
    · simp [Option.elimM, hvalue]
    · simp [Option.elimM, hvalue]

private theorem Runs.destructure {id : NodeId} {head t : Term} {shard : Shard} {ps : List Position}
    (hshard : shard.step subject = .destructure t head ps.length)
    (ht : t.subst d.values = x) (hgrows : (f.addShard shard ps.length).Grows f' requests)
    (hall : ∀ xs : List Term, xs.length = ps.length →
      Runs subject normalize (f.addShard shard ps.length) (d.meet xs) args
        (Position.tryMatchAll normalize (d.meet xs) xs ps) f' args) :
    Runs subject normalize f d args
      ((Position.destructure id head ps).tryMatch normalize d x) f' args := by
  obtain ⟨added, hadded, _⟩ := hgrows.shards
  have happend : f'.shards = f.shards ++ (shard :: added) := by simp [hadded, addShard]
  have hrun := run_tryMatch_destructure normalize d x id head ps
  have hsteps : runSteps normalize ((shard :: added).map (Shard.step subject)) d.values
      args = (normalize x).bind fun value =>
        if value.head = head ∧ value.args.length = ps.length then
          runSteps normalize (added.map (Shard.step subject)) (d.values ++ value.args) args
        else some none := by
    rw [map_cons, hshard, runSteps, ht]
    rfl
  cases hx : normalize x with
  | none =>
    rw [hx] at hrun hsteps
    exact .unmatched (by simp [hrun]) happend (by rw [hsteps, hrun]; rfl)
  | some value =>
    rw [hx, Option.bind_some] at hrun hsteps
    by_cases hvalue : value.head = head ∧ value.args.length = ps.length
    · rw [if_pos hvalue] at hrun hsteps
      have hvalues := hall value.args hvalue.2
      obtain ⟨added', hadded', hrun'⟩ := hvalues.run
      obtain rfl : added' = added := append_cancel_left (hadded'.symm.trans hadded)
      refine ⟨?_, ?_, _, happend, ?_⟩
      · rw [hrun]
        exact hvalues.agrees
      · intro d' hd'
        rw [hrun] at hd'
        exact (prefix_append _ _).trans (hvalues.kept d' hd')
      · rw [hsteps, hrun]
        exact hrun'
    · rw [if_neg hvalue] at hrun hsteps
      exact .unmatched (by simp [hrun]) happend (by rw [hsteps, hrun]; rfl)

mutual

private theorem runs_bind {position : Nat} (p : Position) {f f' : Flattening} {d : Matching}
    {x : Term}
    (h : f.bind position p = .ok f') (hd : f.Agrees d) (hx : d.values[position]? = some x) :
    Runs subject normalize f d args (p.tryMatch normalize d x) f' args := by
  cases p with
  | destructure id head ps =>
    rw [Flattening.bind] at h
    have ht : (Term.arg position).subst d.values = x := by simp [Term.subst, hx]
    refine .destructure rfl ht (grows_bindAll ps h) fun xs hxs => ?_
    exact runs_bindAll ps h (hxs ▸ hd.addShard _ xs) hxs (hd.getElem?_meet xs)
  | capture id index =>
    rw [Flattening.bind] at h
    rw [Position.tryMatch]
    exact .pure (hd.bindCapture h hx) (d.values_capture index x) (shards_bindCapture h)
  | check id expected =>
    rw [Flattening.bind] at h
    cases h
    rw [Position.tryMatch]
    exact .pure (hd.addCheck _) rfl rfl
  | ignore =>
    rw [Flattening.bind] at h
    cases h
    rw [Position.tryMatch]
    exact .pure hd rfl rfl

private theorem runs_bindAll {position : Nat} (ps : List Position) {f f' : Flattening}
    {d : Matching} {xs : List Term} (h : f.bindAll position ps = .ok f') (hd : f.Agrees d)
    (hlength : xs.length = ps.length)
    (hxs : ∀ (i : Nat) (x : Term), xs[i]? = some x → d.values[position + i]? = some x) :
    Runs subject normalize f d args (Position.tryMatchAll normalize d xs ps) f' args := by
  cases ps with
  | nil =>
    rw [Flattening.bindAll] at h
    cases h
    rw [Position.tryMatchAll]
    exact .pure hd rfl rfl
  | cons p ps =>
    rw [Flattening.bindAll] at h
    obtain ⟨f1, hp, hps⟩ := exists_of_bind_eq_ok h
    cases xs with
    | nil => cases hlength
    | cons x xs =>
      rw [Position.tryMatchAll]
      refine (runs_bind p hp hd (hxs 0 x rfl)).bind (grows_bindAll ps hps) fun d1 hd1 hkept => ?_
      refine runs_bindAll ps hps hd1 (Nat.succ.inj hlength) fun i y hy => ?_
      have hold := hxs (i + 1) y hy
      rw [Nat.add_right_comm, Nat.add_assoc]
      obtain ⟨more, hmore⟩ := hkept
      rw [← hmore, getElem?_append_left (List.getElem?_eq_some_iff.1 hold).1]
      exact hold

end

private theorem runs_pull {p : Position} (h : f.pull p = .ok f') (hd : f.Agrees d) :
    Runs subject normalize f d (x :: args) (p.tryMatch normalize (d.meet [x]) x) f' args := by
  have hx : (d.meet [x]).values[f.next]? = some x := by simp [Matching.meet, hd.next]
  have hp : Runs subject normalize (f.addShard .pull 1) (d.meet [x]) args
      (p.tryMatch normalize (d.meet [x]) x) f' args :=
    runs_bind p h (hd.addShard .pull [x]) hx
  obtain ⟨added, hadded, hrun⟩ := hp.run
  refine ⟨hp.agrees, fun d' hd' => ?_, .pull :: added, ?_, hrun⟩
  · exact (prefix_append _ _).trans (hp.kept d' hd')
  · simp [hadded, addShard]

private theorem runs_pullAll {ps : List Position} (h : f.pullAll ps = .ok f') (hd : f.Agrees d)
    (hlength : ps.length ≤ args.length) :
    Runs subject normalize f d args (tryArgs normalize d [] args ps) f' (args.drop ps.length) := by
  induction ps generalizing f d args with
  | nil =>
    cases h
    rw [tryArgs, tryReady, pure_bind]
    exact .pure hd rfl rfl
  | cons p ps ih =>
    obtain ⟨f1, hp, hps⟩ := exists_of_bind_eq_ok h
    cases args with
    | nil => cases hlength
    | cons x args =>
      rw [tryArgs, tryReady, pure_bind]
      exact (runs_pull hp hd).bind (grows_pullAll hps) fun d1 hd1 _ =>
        ih hps hd1 (Nat.le_of_succ_le_succ hlength)

/-! ### Subclauses -/

variable {s : FoldedSubclause} {t : Term} {pending : List (FoldedSubclause × Term)} {p : Position}
  {ps left left' : List Position} {subs : List FoldedSubclause}

private theorem tryArgs_ready (h : ∀ c ∈ s.used, d.captured.contains c) :
    tryArgs normalize d ((s, t) :: pending) args ps =
      (Position.destructure s.id s.head s.args).tryMatch normalize d (t.subst d.values) >>=
        fun d1 =>
        tryArgs normalize d1 pending args ps := by
  rw [tryArgs, tryReady, if_pos h, bind_assoc]
  congr 1
  funext d1
  rw [tryArgs]

private theorem tryArgs_waiting (h : ¬ ∀ c ∈ s.used, d.captured.contains c) :
    tryArgs normalize d ((s, t) :: pending) (x :: args) (p :: ps) =
      p.tryMatch normalize (d.meet [x]) x >>= fun d1 =>
        tryArgs normalize d1 ((s, t) :: pending) args ps := by
  rw [tryArgs, tryReady, if_neg h, pure_bind]

private theorem subclauses_ready (h : f.unbound? s.used = none) :
    f.subclauses left index (s :: subs) =
      ((f.addShard (.destructure s.id (.subclause index (f.requested s.used)) s.head s.args.length)
        s.args.length).bindAll f.next s.args >>= fun f1 =>
          f1.subclauses left (index + 1) subs) := by
  have hpulled : pullFor s.id s.used f left = .ok (left, f) := by
    cases left <;> (unfold pullFor; rw [h]; rfl)
  rw [subclauses, hpulled]
  rfl

private theorem subclauses_waiting (h : f.unbound? s.used ≠ none) :
    f.subclauses (p :: left) index (s :: subs) =
      (f.pull p >>= fun f1 => f1.subclauses left index (s :: subs)) := by
  obtain ⟨c, hc⟩ := Option.ne_none_iff_exists'.1 h
  rw [subclauses, pullFor, hc]
  cases f.pull p with
  | error e => rfl
  | ok f1 => rfl

private theorem runs_ready {f1 : Flattening} {rest : List Term} (hready : f.unbound? s.used = none)
    (h : f.subclauses left index (s :: subs) = .ok (left', f1)) (h' : f1.pullAll left' = .ok f')
    (hd : f.Agrees d)
    (hsubs : ∀ {f2 d2}, f2.subclauses left (index + 1) subs = .ok (left', f1) → f2.Agrees d2 →
      Runs subject normalize f2 d2 args (tryArgs normalize d2 pending args left) f' rest) :
    Runs subject normalize f d args
      (tryArgs normalize d ((s, subject index) :: pending) args left) f' rest := by
  rw [subclauses_ready hready] at h
  obtain ⟨f2, hargs, hrest⟩ := exists_of_bind_eq_ok h
  rw [tryArgs_ready ((hd.ready_iff _).2 hready)]
  refine Runs.bind (.destructure rfl rfl (grows_bindAll s.args hargs) fun xs hxs => ?_)
    ((grows_subclauses hrest).1.trans (grows_pullAll h')) fun d2 hd2 _ => hsubs hrest hd2
  exact runs_bindAll s.args hargs (hxs ▸ hd.addShard _ xs) hxs (hd.getElem?_meet xs)

theorem runs_subclauses {f1 : Flattening} (h : f.subclauses left index subs = .ok (left', f1))
    (h' : f1.pullAll left' = .ok f') (hd : f.Agrees d) (hlength : left.length ≤ args.length) :
    Runs subject normalize f d args
      (tryArgs normalize d ((subs.zipIdx index).map fun s => (s.1, subject s.2)) args left) f'
      (args.drop left.length) := by
  induction subs generalizing f d args left index with
  | nil =>
    cases h
    exact runs_pullAll h' hd hlength
  | cons s subs ihsubs =>
    rw [zipIdx_cons, map_cons]
    induction left generalizing f d args with
    | nil =>
      have hready : f.unbound? s.used = none := by
        obtain ⟨⟨left1, f2⟩, hpulled, _⟩ := exists_of_bind_eq_ok h
        unfold pullFor at hpulled
        split at hpulled
        · assumption
        · cases hpulled
      exact runs_ready hready h h' hd fun hrest hd2 => ihsubs hrest hd2 hlength
    | cons p left ihleft =>
      by_cases hready : f.unbound? s.used = none
      · exact runs_ready hready h h' hd fun hrest hd2 => ihsubs hrest hd2 hlength
      · rw [subclauses_waiting hready] at h
        obtain ⟨f2, hp, hrest⟩ := exists_of_bind_eq_ok h
        cases args with
        | nil => cases hlength
        | cons x args =>
          rw [tryArgs_waiting (fun hused => hready ((hd.ready_iff _).1 hused))]
          refine (runs_pull hp hd).bind ((grows_subclauses hrest).1.trans (grows_pullAll h'))
            fun d1 hd1 _ => ?_
          exact ihleft hrest hd1 (Nat.le_of_succ_le_succ hlength)

end Flattening
end Pattern
end Elaboration
