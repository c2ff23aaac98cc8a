import Elaboration.Proofs.Pattern.Compiled
import Elaboration.Proofs.Session.Locals
import Elaboration.Proofs.Session.Performs

/-!
# Rules that are rejected

A rule is rejected for its shape while its pattern is folded and flattened, before anything is
posed, or while the pattern is typed. By then the expressions of subclauses may have posed casts and
applications. Nothing else is posed for a rule that is rejected.
-/

namespace Elaboration

open EndsWith KernelM Pattern SessionM StoreM

/-- The failure is found, if at all, while a flat pattern is typed or its checks are written out. -/
def Failure.isLate : Failure → Bool
  | .rejected .badApplicationInPattern _ => true
  | .rejected .badApplicationInSubclause _ => true
  | .rejected (.captureUnboundInRule _) _ => true
  | .rejected .undestructurable _ => true
  | _ => false

namespace Store

variable {idle : Prop} {s s' s'' : Store}

/-- Casts and applications were posed and nothing else, and not even these where `idle` holds. -/
structure Casts (idle : Prop) (s s' : Store) : Prop where
  next : s.nextId ≤ s'.nextId
  old : ∀ id < s.nextId, s'.obligations.get? id = s.obligations.get? id
  new : ∀ id o, s'.obligations.get? id = some o →
    s.obligations.get? id = some o ∨ (∃ c, o = .cast c) ∨ ∃ a, o = .application a
  same : idle → s' = s

private theorem Casts.refl (s : Store) : s.Casts idle s :=
  ⟨le_rfl, fun _ _ => rfl, fun _ _ => .inl, fun _ => rfl⟩

private theorem Casts.trans (h : s.Casts idle s') (h' : s'.Casts idle s'') : s.Casts idle s'' where
  next := h.next.trans h'.next
  old id hid := (h'.old id (hid.trans_le h.next)).trans (h.old id hid)
  new id o ho := (h'.new id o ho).elim (h.new id o) .inr
  same hidle := (h'.same hidle).trans (h.same hidle)

private theorem casts_posing (hidle : ¬ idle) {o : Obligation} {es : List (Equation × Slot)}
    (ho : (∃ c, o = .cast c) ∨ ∃ a, o = .application a) : s.Casts idle (s.posing o es) where
  next := by
    rw [posing, nextId_withAll]
    exact (Nat.le_succ _).trans (Nat.le_add_right _ _)
  old id hid := by rw [get?_posing, if_neg hid.ne']
  new id o' ho' := by
    rw [get?_posing] at ho'
    split at ho'
    · cases ho'
      exact .inr ho
    · exact .inl ho'
  same h := absurd h hidle

end Store

/-- Casts and applications are posed and nothing else. -/
def SessionM.casting (idle : Prop) : Regime Stop Kernel Session where
  Holds _ _ := True
  Leads s _ s' _ := s.store.Casts idle s'.store
  Stops _ _ _ _ := True
  refl _ := .refl _
  trans h h' := h.trans h'
  stops _ h := h

namespace Evaluator

open SessionM (casting)

variable {α : Type} {idle : Prop} {tele : Telescope} {locals : List TypedTerm} {node : NodeId}
  {s s' : Session} {k k' : Kernel}

private theorem casts_lift {y : KernelM α} : (casting idle).Keeps (liftM y) s k fun _ _ _ => True :=
  fun _ => lift_iff.2
    (Ends.of_cases (fun _ _ _ => ⟨trivial, .refl _, trivial⟩) fun _ _ _ => trivial)

private theorem casts_onStore {x : StoreM α}
    (h : EndsWith x s.store { k with journal := [] } (fun _ store _ => s.store.Casts idle store)
      fun _ _ => True) :
    (casting idle).Keeps (onStore x) s k fun _ _ _ => True := by
  refine fun _ => ends_onStore (h.mono ?_ fun _ _ _ _ _ => trivial)
  rintro _ _ _ hstore s' journal rfl _ _
  exact ⟨trivial, hstore, trivial⟩

private theorem casts_pose {x : StoreM Nat} {purpose : Purpose}
    (h : EndsWith x s.store { k with journal := [] } (fun _ store _ => s.store.Casts idle store)
      fun _ _ => True) :
    (casting idle).Keeps (onStore x >>= fun id => rememberPurpose id purpose) s k
      fun _ _ _ => True :=
  .seq (casts_onStore h) fun _ _ _ _ => ⟨trivial, .refl _, trivial⟩

/-! ### Evaluation -/

section Evaluation

variable (hidle : ¬ idle)

include hidle

private theorem casts_makeUnknown {type : Term} {definable : Bool} {role : Role} :
    (casting idle).Keeps (makeUnknown tele type definable role node) s k fun _ _ _ => True := by
  rw [makeUnknown_eq]
  refine .seq casts_lift fun v s1 k1 => ?_
  have hrest : ∀ {s k}, (casting idle).Keeps (do
      let closed ← (liftM (tele.instanceOf type) : SessionM Term)
      liftM (setType v closed)
      liftM (setName v (role.name node))
      pure (v, tele.applyArgs v)) s k fun _ _ _ => True :=
    .seq casts_lift fun _ _ _ => .seq casts_lift fun _ _ _ =>
      .seq casts_lift fun _ _ _ => .pure fun _ => trivial
  cases definable with
  | false => exact hrest
  | true =>
    refine .seq (casts_onStore ((ends_registerIndeterminate v _ _).answer ?_)) fun _ _ _ => hrest
    rintro _ _ _ ⟨_, id, _, rfl⟩
    exact ⟨le_rfl, fun _ _ => rfl, fun _ _ => .inl, fun h => absurd h hidle⟩

private theorem casts_cast {purpose : Failure.Purpose} {v : TypedTerm} {type : Term} :
    (casting idle).Keeps (cast tele purpose node v type) s k fun _ _ _ => True := by
  refine .seq casts_lift fun _ _ _ => .seq casts_lift fun _ _ _ => ?_
  split
  · exact .pure fun _ => trivial
  · refine .seq (casts_makeUnknown hidle) fun _ _ _ => ?_
    refine .seq (casts_pose ?_) fun _ _ _ => .pure fun _ => trivial
    exact ends_poseCast.2 (Store.casts_posing hidle (.inl ⟨_, rfl⟩))

private theorem casts_apply {f x : TypedTerm} :
    (casting idle).Keeps (apply tele node f x) s k fun _ _ _ => True := by
  refine .seq casts_lift fun _ _ _ => ?_
  split
  · exact .seq (casts_cast hidle) fun _ _ _ => .pure fun _ => trivial
  · refine .seq casts_lift fun _ _ _ => ?_
    iterate 4 refine .seq (casts_makeUnknown hidle) fun _ _ _ => ?_
    refine .seq (casts_pose ?_) fun _ _ _ => .pure fun _ => trivial
    exact ends_poseApplication.2 (Store.casts_posing hidle (.inr ⟨_, rfl⟩))

private theorem casts_eval (e : Expr) : (casting idle).Keeps (eval tele locals e) s k fun _ _ _ =>
    True := by
  induction e generalizing s k with
  | app id f x ihf ihx =>
    exact .seq ihf fun _ _ _ => .seq ihx fun _ _ _ => casts_apply hidle
  | var id index =>
    unfold eval lookup
    split
    · exact .pure fun _ => trivial
    · exact fun _ => trivial
  | embed id index =>
    refine .get_bind ?_
    split
    · exact .pure fun _ => trivial
    · exact fun _ => trivial
  | type | arrow => exact .pure fun _ => trivial
  | typeFamily id base ih =>
    exact .seq ih fun _ _ _ => .seq (casts_cast hidle) fun _ _ _ => .pure fun _ => trivial

end Evaluation

variable {subclauses : List Subclause} {captures : List Term}

private theorem casts_subclauseValue {index : Nat} {requested : List Term} :
    (casting (subclauses = [])).Keeps (subclauseValue locals subclauses index tele requested) s k
      fun _ _ _ => True := by
  unfold subclauseValue
  split
  · exact .pure fun _ => trivial
  · next c hc =>
    have hne : subclauses ≠ [] := List.ne_nil_of_mem (List.mem_of_getElem? hc)
    exact .seq (.mapM (fun _ _ _ => casts_lift) _) fun _ _ _ =>
      .seq (casts_eval hne _) fun _ _ _ => .pure fun _ => trivial

/-! ### Patterns -/

private theorem casts_runShards {p : Partial} {shards : List Shard} :
    (casting (subclauses = [])).Keeps
      (runShards node (subclauseValue locals subclauses) p shards) s k
      fun out _ _ => ∀ f, out = .error f → f.isLate := by
  induction shards generalizing p s k with
  | nil => exact .pure nofun
  | cons shard shards ih =>
    cases shard with
    | pull =>
      refine .seq casts_lift fun out _ _ => ?_
      split
      · exact .pure fun _ _ h => Except.error.inj h ▸ rfl
      · exact ih
    | destructure shardId subject head count =>
      rw [runShards_destructure]
      have hsubject : (casting (subclauses = [])).Keeps (subjectTerm
          (subclauseValue locals subclauses) p.telescope subject) s k fun _ _ _ => True := by
        cases subject with
        | value position => exact .pure fun _ => trivial
        | subclause index requested => exact casts_subclauseValue
      refine .seq hsubject fun t _ _ => .seq casts_lift fun out _ _ => ?_
      cases out with
      | none => exact .pure fun _ _ h => Except.error.inj h ▸ rfl
      | some inner => exact ih

private theorem isLate_of_expression {r : Resolved} {f : Failure}
    (h : r.expression captures = .error f) : f.isLate := by
  induction r with
  | app id g x ihg ihx =>
    obtain h | ⟨_, _, h⟩ := of_bind_eq_error h
    · exact ihg h
    · obtain h | ⟨_, _, h⟩ := of_bind_eq_error h
      · exact ihx h
      · cases h
  | term => cases h
  | capture =>
    unfold Resolved.expression at h
    split at h <;> cases h
    rfl
  | hole =>
    cases h
    rfl

private theorem isLate_of_checks {checks : List FlatCheck} {f : Failure}
    (h : checks.mapM (FlatCheck.equation captures) = .error f) : f.isLate := by
  induction checks with
  | nil => cases h
  | cons c checks ih =>
    rw [List.mapM_cons] at h
    obtain h | ⟨_, _, h⟩ := of_bind_eq_error h
    · obtain h | ⟨_, _, h⟩ := of_bind_eq_error h
      · exact isLate_of_expression h
      · cases h
    · obtain h | ⟨_, _, h⟩ := of_bind_eq_error h
      · exact ih h
      · cases h

private theorem casts_execute {flat : Flat} : (casting (subclauses = [])).Keeps
      (execute tele flat (subclauseValue locals subclauses)) s k
      fun out _ _ => ∀ f, out = .error f → f.isLate := by
  unfold execute
  split
  · exact .pure fun _ _ h => Except.error.inj h ▸ rfl
  · refine .bind casts_runShards fun out _ _ _ _ _ hout => ?_
    split
    · exact .pure fun _ f h => hout f (congrArg _ (Except.error.inj h))
    · refine .seq casts_lift fun out _ _ => ?_
      split
      · exact .pure fun _ _ h => Except.error.inj h ▸ rfl
      · split
        · next hchecks => exact .pure fun _ _ h => Except.error.inj h ▸ isLate_of_checks hchecks
        · exact .pure nofun

private theorem casts_resolve (p : Pat) :
    (casting True).Keeps (resolve locals p) s k fun _ _ _ => True := by
  induction p generalizing s k with
  | app id f x ihf ihx =>
    exact .seq ihf fun _ _ _ => .seq ihx fun _ _ _ => .pure fun _ => trivial
  | var id index =>
    refine .seq (.map ?_) fun _ _ _ => .pure fun _ => trivial
    unfold lookup
    split
    · exact .pure fun _ => trivial
    · exact fun _ => trivial
  | embed id index =>
    refine .seq (.map (.get_bind ?_)) fun _ _ _ => .pure fun _ => trivial
    split
    · exact .pure fun _ => trivial
    · exact fun _ => trivial
  | capture | hole => exact .pure fun _ => trivial

private theorem casts_flatten {pattern : Pat} {captures : Nat} :
    (casting True).Keeps (flatten locals node pattern subclauses captures) s k
      fun _ _ _ => True := by
  refine .seq (casts_resolve pattern) fun _ _ _ => .seq (.mapM (fun c _ _ => ?_) _) fun _ _ _ => ?_
  · exact .seq (casts_resolve c.pattern) fun _ _ _ => .pure fun _ => trivial
  split
  · exact .pure fun _ => trivial
  · refine .get_bind (.getThe_bind ?_)
    split <;> exact .pure fun _ => trivial

private theorem ends_compile_rejected {pattern : Pat} {captures : Nat} :
    EndsWith (compile tele locals node pattern subclauses captures) s k
      (fun out s' _ => ∀ f, out = .error f →
        s.store.Casts (subclauses = [] ∨ f.isLate = false) s'.store) fun _ _ => True := by
  rw [compile_eq]
  refine seq (casts_flatten trivial) ?_
  rintro out s1 k1 ⟨_, hflat, _⟩
  have hsame : s1.store = s.store := hflat.same trivial
  split
  · exact fun _ _ => hsame ▸ .refl _
  · refine (casts_execute trivial).imp ?_
    rintro out s2 _ ⟨_, hcasts, hlate⟩ f hf
    rw [← hsame]
    exact { hcasts with same := fun h => hcasts.same (h.resolve_right (by simp [hlate f hf])) }

/-- A rule that is rejected for its shape leaves the locals and poses nothing but casts and
applications, and nothing at all where the shape is found wrong before the pattern is typed, or
without subclauses. -/
theorem runCommand_of_rejected {pattern : Pat} {subclauses : List Subclause} {captures : Nat}
    {f : Failure} (commands : List Command) (replacement : Expr)
    (h : compile tele locals node pattern subclauses captures s
      (k.noted (.commandStarted node tele.depth)) = .ok (.error f, s') k') :
    runCommand tele locals (.rule node pattern subclauses captures commands replacement) s k =
      .ok (locals, { s' with failures := s'.failures ++ [f] }) (k'.noted (.reported f)) ∧
    s.store.Casts (subclauses = [] ∨ f.isLate = false) s'.store := by
  refine ⟨eq_ok ?_, ends_compile_rejected.of_ok h f rfl⟩
  rw [runCommand_rule, openRule, bind_assoc, bind_iff, lift_iff, ends_note, bind_assoc, bind_iff]
  exact (Ends.iff_of_ok h).2 ⟨rfl, rfl, rfl⟩

/-! ### A cast that is posed for a rejected rule -/

/-- The postulate `a10` is a type, and `a11`, `d12` and `d13` are functions on it. -/
def threeFunctions : Kernel :=
  let type := Primitive.arrowOf (.postulate 10) (.postulate 10)
  { Kernel.initial with
    nextSymbol := 14
    rules := (Kernel.initial.rules.register 12).register 13
    types := ⟨Primitive.types ++ [(10, Primitive.type), (11, type), (12, type), (13, type)]⟩
    contexts := #[.empty] }

/-- A session that provides the functions. -/
def functionSession : Session :=
  let type := Primitive.arrowOf (.postulate 10) (.postulate 10)
  { Session.initial threeFunctions with
    embeds := [⟨.postulate 11, type⟩, ⟨.decl 12, type⟩, ⟨.decl 13, type⟩] }

/-- The pattern `d12 (d13 _)`, whose argument can be neither matched nor checked. -/
def uncheckable : Pat := .app 0 (.embed 1 1) (.app 2 (.embed 3 2) (.hole 4))

/-- The condition that `a11 Type` matches `a11 _`. -/
def mistyped : Subclause := ⟨5, [], .app 6 (.embed 7 0) (.type 8), .app 9 (.embed 10 0) (.hole 11)⟩

/-- The theorem at a rule that is rejected late. -/
theorem runCommand_of_rejected_uncheckable : ∃ tele s' k' f o,
    runCommand tele [] (.rule 12 uncheckable [mistyped] 0 [] (.type 13)) functionSession
      threeFunctions = .ok ([], s') k' ∧ s'.failures = [f] ∧ f = .rejected .undestructurable 4 ∧
    functionSession.store.obligations.get? 0 = none ∧ s'.store.obligations.get? 0 = some o ∧
    ((∃ c, o = .cast c) ∨ ∃ a, o = .application a) := by
  let tele : Telescope := ⟨[], Primitive.type, .app Primitive.identity Primitive.type, 0⟩
  obtain ⟨⟨_, s'⟩, k', hcompile, ⟨f, rfl, hf⟩, hfailures, hposed⟩ :
      ∃ x k', compile tele [] 12 uncheckable [mistyped] 0 functionSession
        (threeFunctions.noted (.commandStarted 12 tele.depth)) = .ok x k' ∧
      (∃ f, x.1 = .error f ∧ f = .rejected .undestructurable 4) ∧ x.2.failures = [] ∧
      (x.2.store.obligations.get? 0).isSome := by decide +kernel
  obtain ⟨o, ho⟩ := Option.isSome_iff_exists.1 hposed
  obtain ⟨hcommand, hcasts⟩ := runCommand_of_rejected [] (.type 13) hcompile
  refine ⟨tele, _, _, f, o, hcommand, congrArg (· ++ [f]) hfailures, hf, rfl, ho, ?_⟩
  exact (hcasts.new 0 o ho).resolve_left nofun

end Evaluator
end Elaboration
