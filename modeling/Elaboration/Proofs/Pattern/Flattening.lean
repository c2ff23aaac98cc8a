import Elaboration.Proofs.Pattern.Compiled

/-!
# What the shards of a pattern look at

Each shard of a flat pattern looks only at values that were produced before it. Patterns are
destructured at postulates and leaves only: a part with another head is checked against a term of
the pattern.
-/

namespace Elaboration

open List
namespace Pattern

variable {P : Term → Prop} {P' : Term → Prop} {p : Resolved} {t : Term}

theorem Position.below_of_canDestructure {d : Nat} (h : canDestructure t) : t.Below d := by
  unfold canDestructure at h
  split at h
  · trivial
  · trivial
  · cases h

/-! ### Folding -/

/-- The terms that the pattern refers to are in `P`. -/
def Resolved.Over (P : Term → Prop) : Resolved → Prop
  | .app _ f x => f.Over P ∧ x.Over P
  | .term _ value => P value
  | _ => True

theorem Resolved.Over.head (hp : p.Over P) : p.head.Over P := by
  induction p with
  | app id f x ihf => exact ihf hp.1
  | _ => exact hp

theorem Resolved.Over.mono (hp : p.Over P) (h : ∀ t, P t → P' t) : p.Over P' := by
  induction p with
  | app id f x ihf ihx => exact ⟨ihf hp.1, ihx hp.2⟩
  | term id value => exact h value hp
  | _ => trivial

private theorem Resolved.Over.expression {captures : List Term}
    (happ : ∀ f x, P (.app f x) ↔ P f ∧ P x) (hp : p.Over P) (hcaptures : ∀ x ∈ captures, P x)
    (h : p.expression captures = .ok t) : P t := by
  induction p generalizing t with
  | app id f x ihf ihx =>
    obtain ⟨f', hf, h⟩ := exists_of_bind_eq_ok h
    obtain ⟨x', hx, h⟩ := exists_of_bind_eq_ok h
    cases h
    exact (happ f' x').2 ⟨ihf hp.1 hf, ihx hp.2 hx⟩
  | term id value =>
    cases h
    exact hp
  | capture id index =>
    unfold Resolved.expression at h
    split at h
    · next x hx =>
      cases h
      exact hcaptures _ (mem_of_getElem? hx)
    · cases h
  | hole id => cases h

mutual

/-- The terms that positions are checked against are in `P`. -/
def Position.Over (P : Term → Prop) : Position → Prop
  | .destructure _ head args => canDestructure head ∧ Position.AllOver P args
  | .check _ expected => expected.Over P
  | _ => True

/-- The same of all positions of a list. -/
def Position.AllOver (P : Term → Prop) : List Position → Prop
  | [] => True
  | p :: ps => p.Over P ∧ Position.AllOver P ps

end

private theorem Position.allOver_iff {ps : List Position} : AllOver P ps ↔ ∀ p ∈ ps, p.Over P := by
  induction ps with
  | nil => simp [AllOver]
  | cons p ps ih => rw [AllOver, ih, forall_mem_cons]

section Folding

variable (happ : ∀ f x, P (.app f x) ↔ P f ∧ P x) {position : Position} {captures : Nat}

include happ

private theorem over_args {t : Term} (ht : P t) : ∀ x ∈ t.args, P x := by
  induction t with
  | app f x ihf _ =>
    have hparts := (happ f x).1 ht
    rw [Term.args_app]
    exact forall_mem_append.2 ⟨ihf hparts.1, forall_mem_singleton.2 hparts.2⟩
  | _ => exact forall_mem_nil _

private theorem Position.over_of_ofSpine {whole p : Resolved} {last : Option NodeId}
    {args : List (Except Failure Position)} (hwhole : whole.Over P)
    (hp : p.Over P) (hargs : ∀ a ∈ args, ∀ q, a = .ok q → q.Over P)
    (h : ofSpine whole last p args = .ok position) : position.Over P := by
  induction p generalizing whole last args position with
  | app id f x ihf ihx =>
    refine ihf hwhole hp.1 (forall_mem_cons.2 ⟨fun q hq => ?_, hargs⟩) h
    exact ihx hp.2 hp.2 (forall_mem_nil _) hq
  | term id value =>
    unfold ofSpine at h
    split at h
    · next hhead =>
      obtain ⟨ps, hps, h⟩ := exists_of_bind_eq_ok h
      cases h
      refine ⟨hhead, allOver_iff.2 (forall_mem_append.2 ⟨?_, forall_of_mapM_eq_ok hargs hps⟩)⟩
      intro q hq
      obtain ⟨x, hx, rfl⟩ := mem_map.1 hq
      exact over_args happ hp x hx
    · cases h
      exact hwhole
  | capture id index | hole id =>
    unfold ofSpine at h
    split at h
    · cases h
      trivial
    · cases h

private theorem Position.over_of_ofResolved {p : Resolved} (hp : p.Over P)
    (h : ofResolved p = .ok position) : position.Over P :=
  over_of_ofSpine happ hp hp (forall_mem_nil _) h

/-- The positions of the pattern are checked against terms in `P`. -/
structure Folded.Over (P : Term → Prop) (p : Folded) : Prop where
  matched : Position.AllOver P p.matched
  subclauses : ∀ s ∈ p.subclauses, Position.canDestructure s.head ∧ Position.AllOver P s.args

private theorem FoldedSubclause.over_of_ofResolved {r : ResolvedSubclause}
    {s : FoldedSubclause} (hr : r.pattern.Over P) (h : ofResolved captures r = .ok s) :
    Position.canDestructure s.head ∧ Position.AllOver P s.args := by
  unfold FoldedSubclause.ofResolved at h
  obtain ⟨_, _, h⟩ := exists_of_bind_eq_ok h
  obtain ⟨p, hp, h⟩ := exists_of_bind_eq_ok h
  have hover := Position.over_of_ofResolved happ hr hp
  split at h
  · cases h
    exact hover
  · cases h

omit happ in
private theorem over_argsBefore {p : Resolved} {acc : List (NodeId × Resolved)} (hp : p.Over P)
    (hacc : ∀ x ∈ acc, x.2.Over P) : ∀ x ∈ p.argsBefore acc, x.2.Over P := by
  induction p generalizing acc with
  | app id f x ihf _ => exact ihf hp.1 (forall_mem_cons.2 ⟨hp.2, hacc⟩)
  | _ => exact hacc

private theorem Folded.over_of_ofResolved {id : NodeId} {pattern : Resolved}
    {subclauses : List ResolvedSubclause} {p : Folded} (hpattern : pattern.Over P)
    (hsubclauses : ∀ s ∈ subclauses, s.pattern.Over P)
    (h : ofResolved id pattern subclauses captures = .ok p) : p.Over P := by
  unfold Folded.ofResolved at h
  split at h
  · split at h
    · split at h
      · obtain ⟨matched, hmatched, h⟩ := exists_of_bind_eq_ok h
        obtain ⟨folded, hfolded, h⟩ := exists_of_bind_eq_ok h
        cases h
        refine ⟨Position.allOver_iff.2 (forall_of_mapM_eq_ok ?_ hmatched),
          forall_of_mapM_eq_ok ?_ hfolded⟩
        · exact fun x hx position hposition => Position.over_of_ofResolved happ
            (over_argsBefore hpattern (forall_mem_nil _) x hx) hposition
        · exact fun s hs c hc => FoldedSubclause.over_of_ofResolved happ (hsubclauses s hs) hc
      · cases h
    · cases h
  · cases h

end Folding

/-! ### Flattening -/

/-- The shard, run after `n` values, looks at one of them or asks for a subclause with as many of
them as it requests. -/
def Shard.LevelledAt (requests : List Nat) (n : Nat) : Shard → Prop
  | .pull => True
  | .destructure _ (.value position) head _ => position < n ∧ Position.canDestructure head
  | .destructure _ (.subclause index requested) head _ =>
    (requests[index]? = some requested.length ∧ ∀ t ∈ requested, ∃ i < n, t = .arg i) ∧
      Position.canDestructure head

/-- Every shard, run after `n` values and those of the shards before it, looks at these only. -/
def ShardsLevelled (requests : List Nat) : Nat → List Shard → Prop
  | _, [] => True
  | n, s :: shards => s.LevelledAt requests n ∧ ShardsLevelled requests (n + s.count) shards

private theorem shardsLevelled_append {requests : List Nat} {n : Nat}
    {shards shards' : List Shard} :
    ShardsLevelled requests n (shards ++ shards') ↔ ShardsLevelled requests n shards ∧
      ShardsLevelled requests (n + (shards.map Shard.count).sum) shards' := by
  induction shards generalizing n with
  | nil => simp [ShardsLevelled]
  | cons s shards ih => simp [ShardsLevelled, ih, and_assoc, Nat.add_assoc]

namespace Flattening

variable {start position : Nat} {requests : List Nat} {f f' : Flattening}
    {left left' : List Position}

/-- Shards and checks look at values produced before, numbered from `start` on, and so do captures.
-/
structure Levelled (P : Term → Prop) (start : Nat) (requests : List Nat) (f : Flattening) :
    Prop where
  shards : ShardsLevelled requests start f.shards
  next : f.next = start + (f.shards.map Shard.count).sum
  bound : ∀ c p : Nat, f.bound[c]? = some (some p) → p < f.next
  checks : ∀ c ∈ f.checks, c.position < f.next ∧ c.expected.Over P

private theorem Grows.next_le {asked : List (Nat × List Term)} (h : f.Grows f' asked) :
    f.next ≤ f'.next := by
  obtain ⟨added, _, _, hnext⟩ := h.shards
  omega

private theorem Levelled.addShard (hf : f.Levelled P start requests) {s : Shard}
    (hs : s.LevelledAt requests f.next) : (f.addShard s s.count).Levelled P start requests where
  shards := shardsLevelled_append.2 ⟨hf.shards, hf.next ▸ hs, trivial⟩
  next := by simp [Flattening.addShard, hf.next, Nat.add_assoc]
  bound c p hp := Nat.lt_add_right _ (hf.bound c p hp)
  checks c hc := (hf.checks c hc).imp_left (Nat.lt_add_right _)

private theorem Levelled.addCheck (hf : f.Levelled P start requests) {c : FlatCheck}
    (hposition : c.position < f.next) (hexpected : c.expected.Over P) :
    (f.addCheck c).Levelled P start requests :=
  { hf with
    checks := forall_mem_append.2 ⟨hf.checks, forall_mem_singleton.2 ⟨hposition, hexpected⟩⟩ }

private theorem Levelled.bindCapture (hf : f.Levelled P start requests) {id : NodeId} {index : Nat}
    (hposition : position < f.next) (h : f.bindCapture id index position = .ok f') :
    f'.Levelled P start requests := by
  unfold Flattening.bindCapture at h
  split at h
  · cases h
  · cases h
    exact hf.addCheck hposition trivial
  · cases h
    refine { hf with bound := fun c p hp => ?_ }
    rw [getElem?_set] at hp
    split at hp
    · split at hp
      · cases hp
        exact hposition
      · cases hp
    · exact hf.bound c p hp

mutual

private theorem Levelled.bind {position : Nat} (p : Position) {f f' : Flattening}
    (hf : f.Levelled P start requests) (hp : p.Over P) (hposition : position < f.next)
    (h : f.bind position p = .ok f') : f'.Levelled P start requests := by
  cases p with
  | destructure id head args =>
    rw [Flattening.bind] at h
    rw [Position.Over] at hp
    have hshard : (Shard.destructure id (.value position) head args.length).LevelledAt requests
        f.next := ⟨hposition, hp.1⟩
    exact Levelled.bindAll args (hf.addShard hshard) hp.2 le_rfl h
  | capture id index =>
    rw [Flattening.bind] at h
    exact hf.bindCapture hposition h
  | check id expected =>
    rw [Flattening.bind] at h
    cases h
    exact hf.addCheck hposition (by rwa [Position.Over] at hp)
  | ignore =>
    rw [Flattening.bind] at h
    cases h
    exact hf

private theorem Levelled.bindAll {position : Nat} (ps : List Position) {f f' : Flattening}
    (hf : f.Levelled P start requests) (hps : Position.AllOver P ps)
    (hposition : position + ps.length ≤ f.next) (h : f.bindAll position ps = .ok f') :
    f'.Levelled P start requests := by
  cases ps with
  | nil =>
    rw [Flattening.bindAll] at h
    cases h
    exact hf
  | cons p ps =>
    rw [Flattening.bindAll] at h
    rw [Position.AllOver] at hps
    rw [length_cons] at hposition
    obtain ⟨f1, hp, h⟩ := exists_of_bind_eq_ok h
    have hnext := (grows_bind p hp).next_le
    exact Levelled.bindAll ps (Levelled.bind p hf hps.1 (by omega) hp) hps.2 (by omega) h

end

section

variable (hf : f.Levelled P start requests)
include hf

private theorem Levelled.pull {p : Position} (hp : p.Over P)
    (h : f.pull p = .ok f') : f'.Levelled P start requests := by
  have hshard : Shard.pull.LevelledAt requests f.next := trivial
  exact Levelled.bind p (hf.addShard hshard) hp (Nat.lt_succ_self _) h

private theorem Levelled.pullAll {ps : List Position}
    (hps : Position.AllOver P ps) (h : f.pullAll ps = .ok f') : f'.Levelled P start requests := by
  induction ps generalizing f with
  | nil =>
    cases h
    exact hf
  | cons p ps ih =>
    rw [Position.AllOver] at hps
    obtain ⟨f1, hp, h⟩ := exists_of_bind_eq_ok h
    exact ih (hf.pull hps.1 hp) hps.2 h

private theorem Levelled.pullFor {id : NodeId} {used : List Nat} (hleft : Position.AllOver P left)
    (h : pullFor id used f left = .ok (left', f')) :
    f'.Levelled P start requests ∧ Position.AllOver P left' := by
  induction left generalizing f with
  | nil =>
    unfold Flattening.pullFor at h
    split at h
    · cases h
      exact ⟨hf, hleft⟩
    · cases h
  | cons p left ih =>
    unfold Flattening.pullFor at h
    split at h
    · cases h
      exact ⟨hf, hleft⟩
    · rw [Position.AllOver] at hleft
      obtain ⟨f1, hp, h⟩ := exists_of_bind_eq_ok h
      exact ih (hf.pull hleft.1 hp) hleft.2 h

private theorem Levelled.subclauses {index : Nat} {subs : List FoldedSubclause}
    (hleft : Position.AllOver P left)
    (hsubs : ∀ s ∈ subs, Position.canDestructure s.head ∧ Position.AllOver P s.args)
    (hrequests : requests.drop index = subs.map (·.used.length))
    (h : f.subclauses left index subs = .ok (left', f')) :
    f'.Levelled P start requests ∧ Position.AllOver P left' := by
  induction subs generalizing f left index with
  | nil =>
    cases h
    exact ⟨hf, hleft⟩
  | cons s subs ih =>
    rw [forall_mem_cons] at hsubs
    obtain ⟨⟨left1, f1⟩, hpulled, h⟩ := exists_of_bind_eq_ok h
    obtain ⟨hf1, hleft1⟩ := hf.pullFor hleft hpulled
    obtain ⟨f2, hbound, h⟩ := exists_of_bind_eq_ok h
    have hshard : (Shard.destructure s.id (.subclause index (f1.requested s.used)) s.head
        s.args.length).LevelledAt requests f1.next := by
      refine ⟨⟨?_, fun t ht => ?_⟩, hsubs.1.1⟩
      · have hlength := congrArg length (map_requested (grows_pullFor hpulled).2)
        rw [length_map, length_map] at hlength
        rw [← hlength, ← Nat.add_zero index, ← getElem?_drop, hrequests]
        rfl
      · obtain ⟨c, _, hc⟩ := mem_filterMap.1 ht
        obtain ⟨p, hp, rfl⟩ := Option.map_eq_some_iff.1 hc
        exact ⟨p, hf1.bound c p (Option.getD_eq_iff.1 hp |>.resolve_right nofun), rfl⟩
    have hf2 := Levelled.bindAll s.args (hf1.addShard hshard) hsubs.1.2 le_rfl hbound
    refine ih hf2 hleft1 hsubs.2 ?_ h
    rw [← drop_drop, hrequests]
    rfl

end

end Flattening

/-- Shards, captures and checks of the pattern look at values that were produced before, those in
scope being the first. -/
structure Flat.Levelled (P : Term → Prop) (requests : List Nat) (flat : Flat) : Prop where
  head : ∃ id, flat.head = .decl id
  shards : ShardsLevelled requests flat.inScope flat.shards
  captures : ∀ t ∈ flat.captures, ∃ i < flat.inScope + (flat.shards.map Shard.count).sum, t = .arg i
  checks : ∀ c ∈ flat.checks, c.position < flat.inScope + (flat.shards.map Shard.count).sum ∧
    c.expected.Over P

theorem Flat.levelled_of_ofResolved (happ : ∀ f x, P (.app f x) ↔ P f ∧ P x) {id : NodeId}
    {pattern : Resolved} {subclauses : List ResolvedSubclause} {captures : Nat} {p : Folded}
    {flat : Flat} (hpattern : pattern.Over P) (hsubclauses : ∀ s ∈ subclauses, s.pattern.Over P)
    (hfolded : Folded.ofResolved id pattern subclauses captures = .ok p)
    (h : ofFolded p = .ok flat) : flat.Levelled P (subclauses.map (·.used.length)) := by
  obtain ⟨⟨_, _, head, _, _, hhead⟩, _, hparts⟩ := parts_of_ofResolved hfolded
  have hp := Folded.over_of_ofResolved happ hpattern hsubclauses hfolded
  have hused : subclauses.map (·.used.length) = p.subclauses.map (·.used.length) := by
    rw [← forall₂_eq_eq_eq, forall₂_map_left_iff, forall₂_map_right_iff]
    exact hparts.imp fun _ _ hc => by rw [FoldedSubclause.used_of_ofResolved hc]
  rw [hused]
  unfold ofFolded at h
  obtain ⟨⟨left, f1⟩, hmatched, h⟩ := exists_of_bind_eq_ok h
  obtain ⟨f, hpulled, h⟩ := exists_of_bind_eq_ok h
  obtain ⟨caps, hcaps, h⟩ := exists_of_bind_eq_ok h
  cases h
  have hstart : (Flattening.start p).Levelled P p.inScope (p.subclauses.map (·.used.length)) := by
    refine ⟨trivial, rfl, fun c q hq => ?_, nofun⟩
    simp [Flattening.start, getElem?_replicate] at hq
  obtain ⟨hf1, hleft⟩ := hstart.subclauses hp.matched hp.subclauses rfl hmatched
  have hf := hf1.pullAll hleft hpulled
  refine ⟨⟨head, hhead⟩, hf.shards, fun t ht => ?_, hf.next ▸ hf.checks⟩
  -- a capture stands for the position at which it is bound
  have hmem : some t ∈ f.bound.map (Option.map Term.arg) := by
    rw [← Flattening.map_captures hcaps]
    exact mem_map_of_mem ht
  obtain ⟨o, ho, hto⟩ := mem_map.1 hmem
  obtain ⟨q, rfl, hq⟩ := Option.map_eq_some_iff.1 hto
  obtain ⟨c, hc⟩ := mem_iff_getElem?.1 ho
  exact ⟨q, hf.next ▸ hf.bound c q hc, hq.symm⟩

/-! ### Running shards -/

/-- Shards of a levelled pattern that are left to run below a telescope, and how many values there
are once they were. -/
structure Flat.Running (P : Term → Prop) (requests : List Nat) (flat : Flat) (shards : List Shard)
    (tele : Telescope) : Prop where
  levelled : flat.Levelled P requests
  depth : tele.depth + (shards.map Shard.count).sum =
    flat.inScope + (flat.shards.map Shard.count).sum
  shards : ShardsLevelled requests tele.depth shards

variable {requests : List Nat} {flat : Flat} {shard : Shard} {shards : List Shard}
    {tele tele' : Telescope}

theorem Flat.Levelled.running (h : flat.Levelled P requests) (hscope : flat.inScope = tele.depth) :
    flat.Running P requests flat.shards tele :=
  ⟨h, by rw [hscope], hscope ▸ h.shards⟩

theorem Flat.Running.mono (h : flat.Running P requests shards tele)
    (hP : ∀ t, P t → P' t) : flat.Running P' requests shards tele :=
  { h with
    levelled := { h.levelled with
      checks := fun c hc => (h.levelled.checks c hc).imp_right (·.mono hP) } }

theorem Flat.Running.next (h : flat.Running P requests (shard :: shards) tele)
    (hdepth : tele'.depth = tele.depth + shard.count) : flat.Running P requests shards tele' where
  levelled := h.levelled
  shards := hdepth ▸ h.shards.2
  depth := by rw [hdepth, Nat.add_assoc, ← h.depth, map_cons, sum_cons]

/-- Once all shards were run, the captures are arguments that the telescope binds. -/
theorem Flat.Running.captures (h : flat.Running P requests [] tele) :
    ∀ t ∈ flat.captures, ∃ i < tele.depth, t = .arg i := by
  have hdepth := h.depth
  rw [map_nil, sum_nil, Nat.add_zero] at hdepth
  rw [hdepth]
  exact h.levelled.captures

/-- The equations that the checks demand are between terms of a kind that includes the captures and
the terms of the pattern. -/
theorem Flat.Running.checks {checks : List (NodeId × Term × Term)}
    (h : flat.Running P requests [] tele) (happ : ∀ f x, P' (.app f x) ↔ P' f ∧ P' x)
    (hP : ∀ t, P t → P' t) (harg : ∀ i < tele.depth, P' (.arg i))
    (hchecks : flat.checks.mapM (FlatCheck.equation flat.captures) = .ok checks) :
    ∀ c ∈ checks, P' c.2.1 ∧ P' c.2.2 := by
  have hdepth := h.depth
  rw [map_nil, sum_nil, Nat.add_zero] at hdepth
  have hcaptures : ∀ t ∈ flat.captures, P' t := by
    intro t ht
    obtain ⟨i, hi, rfl⟩ := h.captures t ht
    exact harg i hi
  refine forall_of_mapM_eq_ok (fun c hc y hy => ?_) hchecks
  obtain ⟨hposition, hexpected⟩ := h.levelled.checks c hc
  obtain ⟨expected, he, hy⟩ := exists_of_bind_eq_ok hy
  cases hy
  exact ⟨harg _ (hdepth ▸ hposition), (hexpected.mono hP).expression happ hcaptures he⟩

end Pattern
end Elaboration
