import Elaboration.Proofs.Obligation.Settling

/-!
# The moves of the store

Looking at equations is a sequence of moves: an equation is taken from the queue, its verdict is
acted on, marks climb, and a root that ended settles a part of its obligation. What a run, or
closing the store, keeps is what every move keeps.
-/

namespace Elaboration

open EndsWith Store

namespace Store

/-- The store with other equations. -/
def withNodes (s : Store) (nodes : Table Node) : Store := { s with nodes }

/-- The store with more equations, which are ready. -/
def withAll (s : Store) (es : List (Equation × Parent)) : Store :=
  es.foldl (fun s x => s.withNode x.1 x.2) s

/-- The store with equations derived from another one. -/
def withChildren (s : Store) (above : Nat) (es : List Equation) : Store :=
  s.withAll (es.map fun e => (e, .child above))

/-- The store in which the stalled equations are ready again. -/
def woken (s : Store) (generation : Nat) : Store :=
  s.stalled.foldl StoreM.wake { s with generation, stalled := [] }

/-- The equations with another state of one of them. -/
def marked (nodes : Table Node) (index : Nat) (n : Node) (progress : Progress) : Table Node :=
  nodes.set index { n with progress }

end Store

namespace StoreM

/-- What the store is in the middle of. -/
inductive Phase where
  | idle
  /-- A verdict about an equation is to be acted on. -/
  | acting (index : Nat) (v : Verdict)
  /-- An equation is to be marked as solved. -/
  | solving (index : Nat)
  /-- An equation is to be marked as failed. -/
  | failing (index : Nat)
  /-- A root is gone and its part of an obligation is to be settled. -/
  | settling (owner : Owner) (out : Outcome)

/-- The store and the kernel in a phase. -/
structure Config where
  phase : Phase
  store : Store
  kernel : Kernel

/-- The report on a root that failed or was given up. -/
def reportOn (nodes : Table Node) (n : Node) (status : Report.Status) : Outcome :=
  .failed (Store.reportTree nodes nodes.size n status)

/-- A move of the store. -/
inductive Move : Config → Config → Prop where
  /-- An equation in the queue is gone or not ready any more. -/
  | skip {s : Store} {k : Kernel} {i : Nat} {rest : List Nat} :
    s.ready = i :: rest → (∀ n, s.nodes.get? i = some n → n.progress ≠ .ready) →
    Move ⟨.idle, s, k⟩ ⟨.idle, { s with ready := rest }, k⟩
  | step {s : Store} {k k' : Kernel} {i : Nat} {rest : List Nat} {n : Node} {v : Verdict}
    {left : Indeterminates} :
    s.ready = i :: rest → s.nodes.get? i = some n → n.progress = .ready →
    Solver.Stepped n.equation s.indeterminates k v left k' →
    Solver.step n.equation s.indeterminates k = .ok (v, left) k' →
    Move ⟨.idle, s, k⟩
      ⟨.acting i v, { s with ready := rest, indeterminates := left }, k'.noted (.stepped i v)⟩
  | wake {s : Store} {k : Kernel} : k.rules.generation ≠ s.generation →
    Move ⟨.idle, s, k⟩ ⟨.idle, s.woken k.rules.generation,
      if s.stalled.length ≠ 0 then k.noted (.waking s.stalled.length) else k⟩
  | actSolved {s : Store} {k : Kernel} {i : Nat} {v : Verdict} : v = .solved ∨ v = .derived [] →
    Move ⟨.acting i v, s, k⟩ ⟨.solving i, s, k⟩
  | actFailed {s : Store} {k : Kernel} {i : Nat} : Move ⟨.acting i .failed, s, k⟩ ⟨.failing i, s, k⟩
  | actStalled {s : Store} {k : Kernel} {i : Nat} {n : Node} : s.nodes.get? i = some n →
    Move ⟨.acting i .stalled, s, k⟩
      ⟨.idle, { s with nodes := Store.marked s.nodes i n .stalled, stalled := s.stalled ++ [i] }, k⟩
  | actDerived {s s' : Store} {k : Kernel} {i : Nat} {n n' : Node} {es : List Equation} :
    es ≠ [] → s.nodes.get? i = some n →
    s' = (s.withNodes (Store.marked s.nodes i n (.decomposed es.length))).withChildren i es →
    s'.nodes.get? i = some n' →
    Move ⟨.acting i (.derived es), s, k⟩ ⟨.idle, s'.withNodes
        (s'.nodes.set i { n' with children := List.range' s.nextId es.length }), k⟩
  | solveRoot {s : Store} {k : Kernel} {i : Nat} {n : Node} {owner : Owner} {nodes : Table Node} :
    s.nodes.get? i = some n → n.parent = .root owner → nodes = Store.marked s.nodes i n .solved →
    Move ⟨.solving i, s, k⟩
      ⟨.settling owner .solved, s.withNodes (Store.removeTree nodes.size nodes i), k⟩
  | solveChild {s : Store} {k : Kernel} {i above remaining : Nat} {n m : Node}
    {nodes : Table Node} :
    s.nodes.get? i = some n → n.parent = .child above → nodes = Store.marked s.nodes i n .solved →
    nodes.get? above = some m → m.progress = .decomposed (remaining + 1) →
    Move ⟨.solving i, s, k⟩ ⟨if remaining = 0 then .solving above else .idle,
      s.withNodes (Store.marked nodes above m (.decomposed remaining)), k⟩
  /-- The equation above is not waiting any more. -/
  | solveIdle {s : Store} {k : Kernel} {i above : Nat} {n m : Node} {nodes : Table Node} :
    s.nodes.get? i = some n → n.parent = .child above → nodes = Store.marked s.nodes i n .solved →
    nodes.get? above = some m → (∀ remaining, m.progress ≠ .decomposed remaining) →
    Move ⟨.solving i, s, k⟩ ⟨.idle, s.withNodes nodes, k⟩
  | failRoot {s : Store} {k : Kernel} {i : Nat} {n : Node} {owner : Owner} {nodes : Table Node} :
    s.nodes.get? i = some n → n.parent = .root owner → nodes = Store.marked s.nodes i n .failed →
    Move ⟨.failing i, s, k⟩
      ⟨.settling owner (reportOn nodes { n with progress := .failed } .failed),
        s.withNodes (Store.removeTree nodes.size nodes i), k⟩
  | failChild {s : Store} {k : Kernel} {i above : Nat} {n : Node} :
    s.nodes.get? i = some n → n.parent = .child above →
    Move ⟨.failing i, s, k⟩ ⟨.failing above, s.withNodes (Store.marked s.nodes i n .failed), k⟩
  | settle {s s' : Store} {k k' : Kernel} {owner : Owner} {out : Outcome} :
    Resolved owner out s k s' k' → Move ⟨.settling owner out, s, k⟩ ⟨.idle, s', k'⟩
  /-- The store is being closed. -/
  | giveUp {s : Store} {k : Kernel} {i : Nat} {n : Node} {owner : Owner} :
    s.nodes.get? i = some n → n.parent = .root owner →
    Move ⟨.idle, s, k⟩ ⟨.settling owner (reportOn s.nodes n .stalled),
      s.withNodes (Store.removeTree s.nodes.size s.nodes i), k⟩

/-- The ways in which the store stops. -/
inductive Halt : Config → Stop → Kernel → Prop where
  | exhausted (c : Config) : Halt c .exhausted c.kernel
  | step {s : Store} {k k' : Kernel} {i : Nat} {n : Node} {e : Stop} :
    s.nodes.get? i = some n → Solver.Stops s.indeterminates k e k' →
    Solver.step n.equation s.indeterminates k = .error e k' → Halt ⟨.idle, s, k⟩ e k'
  /-- An equation that is to be marked is gone. -/
  | released {phase : Phase} {s : Store} {k : Kernel} {i : Nat} :
    phase = .acting i .stalled ∨ (∃ es, phase = .acting i (.derived es)) ∨
      phase = .solving i ∨ phase = .failing i →
    s.nodes.get? i = none → Halt ⟨phase, s, k⟩ (.violation (.equationReleased i)) k
  /-- An equation is gone once others are derived from it. -/
  | replaced {s s' : Store} {k : Kernel} {i : Nat} {n : Node} {es : List Equation} :
    s.nodes.get? i = some n →
    s' = (s.withNodes (Store.marked s.nodes i n (.decomposed es.length))).withChildren i es →
    s'.nodes.get? i = none →
    Halt ⟨.acting i (.derived es), s, k⟩ (.violation (.equationReleased i)) k
  /-- The equation above one that is solved is gone. -/
  | orphaned {s : Store} {k : Kernel} {i above : Nat} {n : Node} :
    s.nodes.get? i = some n → n.parent = .child above →
    (Store.marked s.nodes i n .solved).get? above = none →
    Halt ⟨.solving i, s, k⟩ (.violation (.equationReleased above)) k
  /-- The equation above one that is solved waits for none. -/
  | overdrawn {s : Store} {k : Kernel} {i above : Nat} {n m : Node} :
    s.nodes.get? i = some n → n.parent = .child above →
    (Store.marked s.nodes i n .solved).get? above = some m → m.progress = .decomposed 0 →
    Halt ⟨.solving i, s, k⟩ (.violation .countBelowZero) k
  | settle {s : Store} {k k' : Kernel} {owner : Owner} {out : Outcome} {e : Stop} :
    ResolveStops owner out s k e k' → Halt ⟨.settling owner out, s, k⟩ e k'

/-- A sequence of moves. -/
abbrev Moves : Config → Config → Prop := Relation.ReflTransGen Move

/-- The store comes to rest. -/
def Rests (c : Config) (s' : Store) (k' : Kernel) : Prop := Moves c ⟨.idle, s', k'⟩

/-- The store stops on the way. -/
def Stuck (c : Config) (e : Stop) (k' : Kernel) : Prop := ∃ c', Moves c c' ∧ Halt c' e k'

variable {c c' : Config} {s s' : Store} {k k' : Kernel} {x : StoreM Unit} {X : Stop → Kernel → Prop}
  {i : Nat}

private theorem Halt.stuck {e : Stop} (h : Halt c e k') : Stuck c e k' := ⟨c, .refl, h⟩

private theorem endsWith_of_moves (h : Moves c c')
    (hx : EndsWith x s k (fun _ => Rests c') (Stuck c')) :
    EndsWith x s k (fun _ => Rests c) (Stuck c) := by
  refine hx.mono (fun _ s' k' h' => h.trans h') ?_
  rintro e k' ⟨d, hd, hhalt⟩
  exact ⟨d, h.trans hd, hhalt⟩

private theorem endsWith_of_move (h : Move c c')
    (hx : EndsWith x s k (fun _ => Rests c') (Stuck c')) :
    EndsWith x s k (fun _ => Rests c) (Stuck c) :=
  endsWith_of_moves (.single h) hx

/-! ### Marks -/

theorem ends_node {Q : Node → Store → Kernel → Prop} (hok : ∀ n, s.nodes.get? i = some n → Q n s k)
    (herror : s.nodes.get? i = none → X (.violation (.equationReleased i)) k) :
    EndsWith (node i) s k Q X := by
  unfold node
  rw [bind_iff, get_iff]
  split
  · next n hn => exact hok n hn
  · next hn => exact herror hn

theorem ends_setProgress {progress : Progress} {Q : Unit → Store → Kernel → Prop}
    (hok : ∀ n, s.nodes.get? i = some n → Q () (s.withNodes (marked s.nodes i n progress)) k)
    (herror : s.nodes.get? i = none → X (.violation (.equationReleased i)) k) :
    EndsWith (setProgress i progress) s k Q X := by
  unfold setProgress
  rw [bind_iff]
  exact ends_node (fun n hn => hok n hn) herror

/-- The node that was marked. -/
theorem get?_marked_self (nodes : Table Node) (i : Nat) (n : Node) (progress : Progress) :
    (marked nodes i n progress).get? i = some { n with progress } := by
  rw [marked, Table.get?_set, if_pos rfl]

private theorem ends_markSolved (height i : Nat) (s : Store) (k : Kernel) :
    EndsWith (markSolved height i) s k (fun _ => Rests ⟨.solving i, s, k⟩)
      (Stuck ⟨.solving i, s, k⟩) := by
  induction height generalizing i s with
  | zero => exact (Halt.exhausted ⟨.solving i, s, k⟩).stuck
  | succ height ih =>
    unfold markSolved
    rw [bind_iff]
    refine ends_setProgress (fun n hn => ?_) fun hn =>
      (Halt.released (.inr (.inr (.inl rfl))) hn).stuck
    rw [bind_iff]
    refine ends_node (fun n' hn' => ?_) fun hn' => ?_
    · cases (get?_marked_self _ _ _ _).symm.trans hn'
      dsimp only
      split
      · next owner howner =>
        rw [bind_iff]
        refine endsWith_of_move (.solveRoot hn howner rfl) ?_
        refine (ends_resolve owner .solved _ k).mono ?_ ?_
        · intro _ s' k' h
          exact .single (.settle h)
        · intro e k' h
          exact (Halt.settle h).stuck
      · next above habove =>
        rw [bind_iff]
        refine ends_node (fun m hm => ?_) fun hm => (Halt.orphaned hn habove hm).stuck
        split
        · next hzero => exact (Halt.overdrawn hn habove hm hzero).stuck
        · next remaining hremaining =>
          have hmove := Move.solveChild (k := k) hn habove rfl hm hremaining
          rw [bind_iff]
          refine ends_setProgress (fun m' hm' => ?_) fun hm' => nomatch hm.symm.trans hm'
          cases hm.symm.trans hm'
          by_cases hleft : remaining = 0
          · rw [if_pos hleft] at hmove ⊢
            exact endsWith_of_move hmove (ih above _)
          · rw [if_neg hleft] at hmove ⊢
            exact .single hmove
        · next hzero hsucc =>
          refine .single (.solveIdle hn habove rfl hm fun remaining => ?_)
          cases remaining with
          | zero => exact hzero
          | succ remaining => exact hsucc remaining
    · rw [withNodes, get?_marked_self] at hn'
      cases hn'

private theorem ends_markFailed (height i : Nat) (s : Store) (k : Kernel) :
    EndsWith (markFailed height i) s k (fun _ => Rests ⟨.failing i, s, k⟩)
      (Stuck ⟨.failing i, s, k⟩) := by
  induction height generalizing i s with
  | zero => exact (Halt.exhausted ⟨.failing i, s, k⟩).stuck
  | succ height ih =>
    unfold markFailed
    rw [bind_iff]
    refine ends_setProgress (fun n hn => ?_) fun hn =>
      (Halt.released (.inr (.inr (.inr rfl))) hn).stuck
    rw [bind_iff]
    refine ends_node (fun n' hn' => ?_) fun hn' => ?_
    · cases (get?_marked_self _ _ _ _).symm.trans hn'
      dsimp only
      split
      · next owner howner =>
        rw [bind_iff, get_iff, bind_iff]
        refine endsWith_of_move (.failRoot hn howner rfl) ?_
        refine (ends_resolve owner _ _ k).mono ?_ ?_
        · intro _ s' k' h
          exact .single (.settle h)
        · intro e k' h
          exact (Halt.settle h).stuck
      · next above habove => exact endsWith_of_move (.failChild hn habove) (ih above _)
    · rw [withNodes, get?_marked_self] at hn'
      cases hn'

/-! ### Verdicts -/

theorem ends_addChildren (above : Nat) (es : List Equation) (s : Store) (k : Kernel) :
    EndsWith (addChildren above es) s k
      (fun indices s' k' => indices = List.range' s.nextId es.length ∧
        s' = s.withChildren above es ∧ k' = k) fun _ _ => False := by
  induction es generalizing s with
  | nil => exact ⟨rfl, rfl, rfl⟩
  | cons e es ih =>
    unfold addChildren
    rw [bind_iff, ends_addNode, bind_iff]
    refine (ih _).imp ?_
    rintro indices s' k' ⟨rfl, rfl, rfl⟩
    exact ⟨rfl, rfl, rfl⟩

private theorem ends_actOn (i : Nat) (v : Verdict) (s : Store) (k : Kernel) :
    EndsWith (actOn i v) s k (fun _ => Rests ⟨.acting i v, s, k⟩) (Stuck ⟨.acting i v, s, k⟩) := by
  unfold actOn
  split
  · rw [bind_iff, get_iff]
    exact endsWith_of_move (.actSolved (.inl rfl)) (ends_markSolved _ i s k)
  · rw [bind_iff, get_iff]
    exact endsWith_of_move .actFailed (ends_markFailed _ i s k)
  · rw [bind_iff]
    refine ends_setProgress (fun n hn => ?_) fun hn => (Halt.released (.inl rfl) hn).stuck
    exact .single (.actStalled hn)
  · rw [bind_iff, get_iff]
    exact endsWith_of_move (.actSolved (.inr rfl)) (ends_markSolved _ i s k)
  · next e rest =>
    rw [bind_iff]
    refine ends_setProgress (fun n hn => ?_) fun hn =>
      (Halt.released (.inr (.inl ⟨_, rfl⟩)) hn).stuck
    refine bind (ends_addChildren i (e :: rest) _ k) ?_ fun _ _ h => h.elim
    rintro indices s' k' ⟨rfl, hs', rfl⟩
    rw [bind_iff]
    refine ends_node (fun n' hn' => ?_) fun hn' => (Halt.replaced hn hs' hn').stuck
    exact .single (.actDerived (by simp) hn hs' hn')

/-- How looking at an equation ends. -/
theorem ends_process {rest : List Nat} (hready : s.ready = i :: rest) :
    EndsWith (process i) { s with ready := rest } k (fun _ => Rests ⟨.idle, s, k⟩)
      (Stuck ⟨.idle, s, k⟩) := by
  unfold process
  rw [bind_iff, get_iff]
  split
  · next e parent children hn =>
    have hstep := Solver.ends_step e s.indeterminates k
    unfold stepEquation
    rw [bind_iff, bind_iff, get_iff, bind_iff, lift_iff]
    refine Ends.of_cases ?_ fun e' k' h => (Halt.step (s := s) hn (hstep.of_error h) h).stuck
    rintro ⟨v, left⟩ k' h
    rw [bind_iff, set_iff, pure_iff, bind_iff, lift_iff, KernelM.ends_note]
    exact endsWith_of_move (.step hready hn rfl (hstep.of_ok h) h) (ends_actOn i v _ _)
  · next hother =>
    refine .single (.skip hready fun n hn hprogress => ?_)
    obtain ⟨e, progress, parent, children⟩ := n
    cases hprogress
    exact hother _ _ _ hn

theorem ends_wakeIfRulesChanged (s : Store) (k : Kernel) :
    EndsWith wakeIfRulesChanged s k (fun _ => Rests ⟨.idle, s, k⟩) (Stuck ⟨.idle, s, k⟩) := by
  unfold wakeIfRulesChanged
  rw [bind_iff, getThe_iff, bind_iff, get_iff]
  split
  · exact Relation.ReflTransGen.refl
  · next hgeneration =>
    have hmove := Move.wake hgeneration
    by_cases hstalled : s.stalled.length ≠ 0
    · rw [if_pos hstalled] at hmove ⊢
      exact .single hmove
    · rw [if_neg hstalled] at hmove ⊢
      exact .single hmove

private theorem ends_runTo (bound : Nat) (s : Store) (k : Kernel) :
    EndsWith (runTo bound) s k (fun _ => Rests ⟨.idle, s, k⟩) (Stuck ⟨.idle, s, k⟩) := by
  induction bound generalizing s k with
  | zero => exact (Halt.exhausted ⟨.idle, s, k⟩).stuck
  | succ bound ih =>
    unfold runTo
    rw [bind_iff, get_iff]
    split
    · next i rest hready =>
      rw [bind_iff, modify_iff]
      refine seq (ends_process hready) fun _ s1 k1 h1 => ?_
      refine endsWith_of_moves h1 ?_
      refine seq (ends_wakeIfRulesChanged s1 k1) fun _ s2 k2 h2 => ?_
      exact endsWith_of_moves h2 (ih s2 k2)
    · refine seq (ends_wakeIfRulesChanged s k) fun _ s1 k1 h1 => ?_
      refine endsWith_of_moves h1 ?_
      rw [bind_iff, get_iff]
      split
      · exact Relation.ReflTransGen.refl
      · exact ih s1 k1

/-- A run is a sequence of moves. -/
theorem ends_run (s : Store) (k : Kernel) :
    EndsWith run s k (fun _ => Rests ⟨.idle, s, k⟩) (Stuck ⟨.idle, s, k⟩) := by
  unfold run
  rw [bind_iff, getThe_iff]
  exact ends_runTo _ s k

/-! ### Closing -/

/-- Equations that were there before were posed for what they were. -/
structure Ages (s s' : Store) : Prop where
  next : s.nextId ≤ s'.nextId
  parents : ∀ i < s.nextId, ∀ n', s'.nodes.get? i = some n' →
    ∃ n, s.nodes.get? i = some n ∧ n.parent = n'.parent

private theorem Ages.trans {s'' : Store} (h : Ages s s') (h' : Ages s' s'') : Ages s s'' where
  next := h.next.trans h'.next
  parents i hi n'' hn'' := by
    obtain ⟨n', hn', hparent'⟩ := h'.parents i (hi.trans_le h.next) n'' hn''
    obtain ⟨n, hn, hparent⟩ := h.parents i hi n' hn'
    exact ⟨n, hn, hparent.trans hparent'⟩

private theorem ages_of_sub (hnext : s'.nextId = s.nextId)
    (h : ∀ i n, s'.nodes.get? i = some n → s.nodes.get? i = some n) : Ages s s' :=
  ⟨hnext.symm.le, fun i _ n hn => ⟨n, h i n hn, rfl⟩⟩

private theorem ages_withNode (s : Store) (e : Equation) (parent : Parent) :
    Ages s (s.withNode e parent) where
  next := Nat.le_succ _
  parents i hi n hn := by
    have hne : s.nextId ≠ i := fun h => lt_irrefl _ (h ▸ hi)
    rw [withNode, Table.get?_set, if_neg hne] at hn
    exact ⟨n, hn, rfl⟩

private theorem ages_of_mutes (hnext : s'.nextId = s.nextId) (h : Mutes s.nodes s'.nodes) :
    Ages s s' where
  next := hnext.symm.le
  parents i _ n' hn' := by
    obtain ⟨_, may, hmay⟩ := h
    obtain ⟨n, hn, rfl⟩ := Option.map_eq_some_iff.1 ((hmay i).symm.trans hn')
    exact ⟨n, hn, rfl⟩

/-- Settling leaves what equations were posed for. -/
theorem Resolved.ages {owner : Owner} {out : Outcome}
    (h : Resolved owner out s k s' k') : Ages s s' := by
  cases h with
  | functionSolved =>
    refine Ages.trans ?_ (ages_withNode _ _ _)
    exact ages_of_sub rfl fun _ _ h => h
  | condition | lastCondition =>
    exact ages_of_mutes (by rw [conditionStore_eq]; rfl) (mutes_conditionStore ..)
  | castSolved | argumentSolved => exact ages_of_sub rfl fun _ _ h => h
  | equation | castFailed | applicationFailed =>
    rw [failedIf_eq]
    exact ages_of_sub rfl fun _ _ h => h

private theorem ends_closeRoots {roots : List (Nat × Owner)} {s : Store} {k : Kernel}
    (h : ∀ r ∈ roots, r.1 < s.nextId ∧ ∀ n, s.nodes.get? r.1 = some n → n.parent = .root r.2) :
    EndsWith (closeRoots roots) s k (fun _ => Rests ⟨.idle, s, k⟩) (Stuck ⟨.idle, s, k⟩) := by
  induction roots generalizing s k with
  | nil => exact Relation.ReflTransGen.refl
  | cons r roots ih =>
    obtain ⟨i, owner⟩ := r
    rw [List.forall_mem_cons] at h
    unfold closeRoots
    rw [bind_iff, get_iff]
    dsimp only
    split
    · next n hn =>
      have hmove : Move ⟨.idle, s, k⟩ _ := .giveUp hn (h.1.2 n hn)
      rw [bind_iff]
      refine endsWith_of_move hmove ?_
      refine bind (ends_resolve owner _ _ k) ?_ fun e k' h => (Halt.settle h).stuck
      intro _ s' k' hresolved
      refine endsWith_of_move (.settle hresolved) (ih fun r hr => ?_)
      obtain ⟨hlt, hroot⟩ := h.2 r hr
      have hages : Ages s s' := by
        refine Ages.trans ?_ hresolved.ages
        exact ages_of_sub rfl (prunes_removeTree ..).sub
      refine ⟨hlt.trans_le hages.next, fun n' hn' => ?_⟩
      obtain ⟨n, hn, hparent⟩ := hages.parents r.1 hlt n' hn'
      rw [← hparent]
      exact hroot n hn
    · exact ih h.2

/-- The store after it was closed. -/
def closed (s : Store) : Store :=
  { s with
    failed := s.failed + s.obligations.size
    nodes := .empty, ready := [], stalled := [], obligations := .empty, indeterminates := [] }

/-- Closing is a sequence of moves, after which the store is emptied. -/
theorem ends_close (hnodup : s.nodes.keys.Nodup)
    (hids : ∀ i n, s.nodes.get? i = some n → i < s.nextId) :
    EndsWith close s k
      (fun _ s' k' => ∃ s1 k1, Rests ⟨.idle, s, k⟩ s1 k1 ∧ s' = closed s1 ∧
        k' = k1.noted (.closed s'.failed))
      (Stuck ⟨.idle, s, k⟩) := by
  unfold close
  rw [bind_iff, get_iff]
  refine seq (ends_closeRoots fun r hr => ?_) fun _ s1 k1 h => ?_
  · obtain ⟨n, hn, hparent⟩ := (mem_roots hnodup).1 hr
    refine ⟨hids r.1 n hn, fun n' hn' => ?_⟩
    cases hn.symm.trans hn'
    exact hparent
  · exact ⟨s1, k1, h, rfl, rfl⟩

end StoreM
end Elaboration
