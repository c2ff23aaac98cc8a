import Mathlib.Order.Nat
import Mathlib.Tactic.Common

/-!
# How actions end

An action ends with an answer or stops. One predicate speaks of both ends and follows the structure
of the action.
-/

namespace Elaboration

variable {ε σ τ α β : Type} {f : α → Except ε β} {I : τ → σ → Prop} {x : Except ε α}

/-- From a state, the action ends in an answer and a state in `Q`, or stops in `X`. -/
def Ends (x : EStateM ε σ α) (s : σ) (Q : α → σ → Prop) (X : ε → σ → Prop) : Prop :=
  match x s with
  | .ok a s' => Q a s'
  | .error e s' => X e s'

namespace Ends

variable {x : EStateM ε σ α} {f : α → EStateM ε σ β} {s : σ} {Q Q' : α → σ → Prop}
  {X X' : ε → σ → Prop} {s' : σ} {a : α}

/-- Answering at once ends as the answer does. -/
@[simp] theorem pure_iff : Ends (pure a : EStateM ε σ α) s Q X ↔ Q a s := Iff.rfl

/-- Reading the state ends with that state. -/
@[simp] theorem get_iff {Q : σ → σ → Prop} : Ends (get : EStateM ε σ σ) s Q X ↔ Q s s := Iff.rfl

/-- A sequence ends as its second part does after the first. -/
@[simp] theorem bind_iff {Q : β → σ → Prop} :
    Ends (x >>= f) s Q X ↔ Ends x s (fun a s' => Ends (f a) s' Q X) X := by
  unfold Ends
  change (match EStateM.bind x f s with | .ok a s' => _ | .error e s' => _) ↔ _
  unfold EStateM.bind
  cases x s <;> rfl

/-- Mapping the answer maps what is asked of it. -/
@[simp] theorem map_iff {g : α → β} {Q : β → σ → Prop} :
    Ends (g <$> x) s Q X ↔ Ends x s (fun a s' => Q (g a) s') X := by
  unfold Ends
  change (match EStateM.map g x s with | .ok a s' => _ | .error e s' => _) ↔ _
  unfold EStateM.map
  cases x s <;> rfl

/-- A sequence that ends with an answer does so part by part. -/
theorem bind_eq_ok_iff {b : β} {s'' : σ} :
    (x >>= f) s = .ok b s'' ↔ ∃ a s', x s = .ok a s' ∧ f a s' = .ok b s'' := by
  change EStateM.bind x f s = _ ↔ _
  unfold EStateM.bind
  cases x s with
  | ok a s' => simp
  | error e s' => simp

section

variable (h : Ends x s Q X)
include h

/-- What is asked of an ending may be weakened. -/
theorem mono (hQ : ∀ a s', Q a s' → Q' a s') (hX : ∀ e s', X e s' → X' e s') : Ends x s Q' X' := by
  unfold Ends at *
  cases hx : x s with
  | ok a s' =>
    rw [hx] at h
    exact hQ a s' h
  | error e s' =>
    rw [hx] at h
    exact hX e s' h

/-- Parts that end well do so in sequence. -/
theorem bind {Q' : β → σ → Prop}
    (hf : ∀ a s', Q a s' → Ends (f a) s' Q' X') (hX : ∀ e s', X e s' → X' e s') :
    Ends (x >>= f) s Q' X' :=
  bind_iff.2 (h.mono hf hX)

/-- What is asked of an answer may be weakened. -/
theorem imp (hQ : ∀ a s', Q a s' → Q' a s') : Ends x s Q' X :=
  h.mono hQ fun _ _ h => h

/-- A sequence ends well if its second part does after the first. -/
theorem seq {Q' : β → σ → Prop} (hf : ∀ a s', Q a s' → Ends (f a) s' Q' X) :
    Ends (x >>= f) s Q' X :=
  h.bind hf fun _ _ h => h

/-- Nothing more is said where the action stops. -/
theorem answer (hQ : ∀ a s', Q a s' → Q' a s') : Ends x s Q' fun _ _ => True :=
  h.mono hQ fun _ _ _ => trivial

end

/-- An ending is one of the two. -/
theorem of_cases (hok : ∀ a s', x s = .ok a s' → Q a s')
    (herror : ∀ e s', x s = .error e s' → X e s') :
    Ends x s Q X := by
  unfold Ends
  cases hx : x s with
  | ok a s' => exact hok a s' hx
  | error e s' => exact herror e s' hx

/-- Only answers are asked about. -/
theorem of_answer (hok : ∀ a s', x s = .ok a s' → Q a s') : Ends x s Q fun _ _ => True :=
  of_cases hok fun _ _ _ => trivial

/-- What holds of the answer. -/
theorem of_ok (h : Ends x s Q X) (hx : x s = .ok a s') : Q a s' := by
  unfold Ends at h
  rwa [hx] at h

/-- What holds where the action stops. -/
theorem of_error {e : ε} (h : Ends x s Q X) (hx : x s = .error e s') : X e s' := by
  unfold Ends at h
  rwa [hx] at h

/-- How an action ends that is known to answer. -/
theorem iff_of_ok (hx : x s = .ok a s') : Ends x s Q X ↔ Q a s' := by
  unfold Ends
  rw [hx]

/-- An action that cannot stop and has one answer. -/
theorem eq_ok (h : Ends x s (fun b t => b = a ∧ t = s') fun _ _ => False) :
    x s = .ok a s' := by
  unfold Ends at h
  cases hx : x s with
  | ok b t =>
    rw [hx] at h
    obtain ⟨rfl, rfl⟩ := h
    rfl
  | error e t =>
    rw [hx] at h
    exact h.elim

end Ends

/-- The same of an action with a state of its own on top; where it stops, that state is lost. -/
def EndsWith (x : StateT τ (EStateM ε σ) α) (t : τ) (s : σ) (Q : α → τ → σ → Prop)
    (X : ε → σ → Prop) : Prop :=
  Ends (x t) s (fun p s' => Q p.1 p.2 s') X

namespace EndsWith

variable {x : StateT τ (EStateM ε σ) α} {f : α → StateT τ (EStateM ε σ) β} {t : τ} {s : σ}
  {Q Q' : α → τ → σ → Prop} {X X' : ε → σ → Prop} {t' : τ} {s' : σ} {a : α}

/-- Answering at once ends as the answer does. -/
@[simp] theorem pure_iff :
    EndsWith (pure a : StateT τ (EStateM ε σ) α) t s Q X ↔ Q a t s := Iff.rfl

/-- Reading the outer state ends with that state. -/
@[simp] theorem get_iff {Q : τ → τ → σ → Prop} :
    EndsWith (get : StateT τ (EStateM ε σ) τ) t s Q X ↔ Q t t s := Iff.rfl

/-- Reading the inner state ends with that state. -/
@[simp] theorem getThe_iff {Q : σ → τ → σ → Prop} :
    EndsWith (getThe σ : StateT τ (EStateM ε σ) σ) t s Q X ↔ Q s t s := Iff.rfl

@[simp] theorem set_iff {Q : PUnit → τ → σ → Prop} :
    EndsWith (set t' : StateT τ (EStateM ε σ) PUnit) t s Q X ↔ Q ⟨⟩ t' s := Iff.rfl

/-- Changing the outer state ends with the change. -/
@[simp] theorem modify_iff {g : τ → τ} {Q : PUnit → τ → σ → Prop} :
    EndsWith (modify g : StateT τ (EStateM ε σ) PUnit) t s Q X ↔ Q ⟨⟩ (g t) s := Iff.rfl

/-- A sequence ends as its second part does after the first. -/
@[simp] theorem bind_iff {Q : β → τ → σ → Prop} :
    EndsWith (x >>= f) t s Q X ↔ EndsWith x t s (fun a t' s' => EndsWith (f a) t' s' Q X) X :=
  Ends.bind_iff

@[simp] private theorem map_iff {g : α → β} {Q : β → τ → σ → Prop} :
    EndsWith (g <$> x) t s Q X ↔ EndsWith x t s (fun a t' s' => Q (g a) t' s') X := by
  change Ends (x t >>= fun p => pure (g p.1, p.2)) s _ X ↔ _
  rw [Ends.bind_iff]
  rfl

/-- An action on the inner state leaves the outer one alone. -/
@[simp] theorem lift_iff {y : EStateM ε σ α} :
    EndsWith (liftM y : StateT τ (EStateM ε σ) α) t s Q X ↔
      Ends y s (fun a s' => Q a t s') X := by
  change Ends (y >>= fun a => pure (a, t)) s _ X ↔ _
  rw [Ends.bind_iff]
  rfl

section

variable (h : EndsWith x t s Q X)
include h

/-- What is asked of an ending may be weakened. -/
theorem mono (hQ : ∀ a t' s', Q a t' s' → Q' a t' s') (hX : ∀ e s', X e s' → X' e s') :
    EndsWith x t s Q' X' :=
  Ends.mono h (fun p s' => hQ p.1 p.2 s') hX

/-- Parts that end well do so in sequence. -/
theorem bind {Q' : β → τ → σ → Prop}
    (hf : ∀ a t' s', Q a t' s' → EndsWith (f a) t' s' Q' X') (hX : ∀ e s', X e s' → X' e s') :
    EndsWith (x >>= f) t s Q' X' :=
  bind_iff.2 (h.mono hf hX)

/-- What is asked of an answer may be weakened. -/
theorem imp (hQ : ∀ a t' s', Q a t' s' → Q' a t' s') : EndsWith x t s Q' X :=
  h.mono hQ fun _ _ h => h

/-- A sequence ends well if its second part does after the first. -/
theorem seq {Q' : β → τ → σ → Prop}
    (hf : ∀ a t' s', Q a t' s' → EndsWith (f a) t' s' Q' X) : EndsWith (x >>= f) t s Q' X :=
  h.bind hf fun _ _ h => h

/-- Only answers are asked about. -/
theorem answer (hQ : ∀ a t' s', Q a t' s' → Q' a t' s') : EndsWith x t s Q' fun _ _ => True :=
  h.mono hQ fun _ _ _ => trivial

/-- What holds of the answer. -/
theorem of_ok (hx : x t s = .ok (a, t') s') : Q a t' s' := by
  unfold EndsWith Ends at h
  rwa [hx] at h

/-- What holds where the action stops. -/
theorem of_error {e : ε} (hx : x t s = .error e s') : X e s' :=
  Ends.of_error h hx

end

/-- An action ends in some way. -/
theorem elim (h : EndsWith x t s Q fun _ _ => False) (hQ : ∀ a t' s', ¬ Q a t' s') : False := by
  unfold EndsWith Ends at h
  cases hx : x t s with
  | ok p s' => exact hQ _ _ _ (hx ▸ h)
  | error e s' =>
    rw [hx] at h
    exact h

/-- An action that cannot stop and has one answer. -/
theorem eq_ok (h : EndsWith x t s (fun b u r => b = a ∧ u = t' ∧ r = s') fun _ _ => False) :
    x t s = .ok (a, t') s' := by
  refine Ends.eq_ok (Ends.imp h ?_)
  rintro ⟨b, u⟩ r ⟨rfl, rfl, rfl⟩
  exact ⟨rfl, rfl⟩

end EndsWith

/-- What is followed through actions: what holds of the state, how it develops, and what is known
where an action stops. -/
structure Course (ε σ : Type) where
  Holds : σ → Prop
  Leads : σ → σ → Prop
  Stops : σ → ε → σ → Prop
  refl {s} : Holds s → Leads s s
  trans {s1 s2 s3} : Leads s1 s2 → Leads s2 s3 → Leads s1 s3
  stops {s1 s2 e s3} : Leads s1 s2 → Stops s2 e s3 → Stops s1 e s3

namespace Course

variable {L : Course ε σ} {s : σ} {x : EStateM ε σ α} {f : α → EStateM ε σ β} {Q Q' : α → σ → Prop}
  {P : β → σ → Prop}

/-- The action keeps the course and answers in `Q`. -/
def Keeps {α : Type} (L : Course ε σ) (x : EStateM ε σ α) (s : σ) (Q : α → σ → Prop) : Prop :=
  L.Holds s → Ends x s (fun a s' => L.Holds s' ∧ L.Leads s s' ∧ Q a s') (L.Stops s)

namespace Keeps

/-- Answering at once keeps every course. -/
theorem pure {a : α} (h : Q a s) : L.Keeps (pure a) s Q := fun hs => ⟨hs, L.refl hs, h⟩

/-- Courses are kept in sequence. -/
theorem bind (hx : L.Keeps x s Q) (hf : ∀ a s', L.Leads s s' → Q a s' → L.Keeps (f a) s' P) :
    L.Keeps (x >>= f) s P := by
  intro hs
  refine (hx hs).seq ?_
  rintro a s1 ⟨hs1, hle, ha⟩
  refine (hf a s1 hle ha hs1).mono ?_ fun _ _ h => L.stops hle h
  rintro b s2 ⟨hs2, hle', hb⟩
  exact ⟨hs2, L.trans hle hle', hb⟩

/-- What is said of the answer may be weakened. -/
theorem mono (hx : L.Keeps x s Q) (h : ∀ a s', L.Leads s s' → Q a s' → Q' a s') : L.Keeps x s Q' :=
  fun hs => (hx hs).imp fun a s' ha => ⟨ha.1, ha.2.1, h a s' ha.2.1 ha.2.2⟩

/-- What holds may be used. -/
theorem of_holds (h : L.Holds s → L.Keeps x s Q) : L.Keeps x s Q := fun hs => h hs hs

/-- Reading the state keeps every course. -/
theorem get_bind {f : σ → EStateM ε σ β} (hf : L.Keeps (f s) s P) :
    L.Keeps (MonadState.get >>= f) s P :=
  hf

/-- What else is known of the action. -/
theorem and_ends {R : α → σ → Prop} (hx : L.Keeps x s Q) (h : Ends x s R fun _ _ => True) :
    L.Keeps x s fun a s' => Q a s' ∧ R a s' := by
  intro hs
  refine Ends.of_cases (fun a s' hok => ?_) fun e s' herror => (hx hs).of_error herror
  obtain ⟨hs', hle, hQ⟩ := (hx hs).of_ok hok
  exact ⟨hs', hle, hQ, h.of_ok hok⟩

end Keeps
end Course

/-- What is followed through actions with a state of their own: what holds, how it develops, and
what is known where they stop. -/
structure Regime (ε σ τ : Type) where
  Holds : τ → σ → Prop
  Leads : τ → σ → τ → σ → Prop
  Stops : τ → σ → ε → σ → Prop
  refl {t s} : Holds t s → Leads t s t s
  trans {t1 s1 t2 s2 t3 s3} : Leads t1 s1 t2 s2 → Leads t2 s2 t3 s3 → Leads t1 s1 t3 s3
  stops {t1 s1 t2 s2 e s3} : Leads t1 s1 t2 s2 → Stops t2 s2 e s3 → Stops t1 s1 e s3

namespace Regime

variable {L : Regime ε σ τ} {t : τ} {s : σ} {x : StateT τ (EStateM ε σ) α}
  {f : α → StateT τ (EStateM ε σ) β} {Q Q' : α → τ → σ → Prop} {P : β → τ → σ → Prop}

/-- The action keeps the regime up and answers in `Q`. -/
def Keeps {α : Type} (L : Regime ε σ τ) (x : StateT τ (EStateM ε σ) α) (t : τ) (s : σ)
    (Q : α → τ → σ → Prop) : Prop :=
  L.Holds t s →
    EndsWith x t s (fun a t' s' => L.Holds t' s' ∧ L.Leads t s t' s' ∧ Q a t' s') (L.Stops t s)

namespace Keeps

/-- Answering at once keeps every regime. -/
theorem pure {a : α} (h : L.Holds t s → Q a t s) : L.Keeps (pure a) t s Q :=
  fun ht => ⟨ht, L.refl ht, h ht⟩

/-- Regimes are kept in sequence. -/
theorem bind (hx : L.Keeps x t s Q)
    (hf : ∀ a t' s', L.Holds t s → L.Holds t' s' → L.Leads t s t' s' → Q a t' s' →
      L.Keeps (f a) t' s' P) : L.Keeps (x >>= f) t s P := by
  intro ht
  refine (hx ht).seq ?_
  rintro a t1 s1 ⟨ht1, hle, ha⟩
  refine (hf a t1 s1 ht ht1 hle ha ht1).mono ?_ fun _ _ h => L.stops hle h
  rintro b t2 s2 ⟨ht2, hle', hb⟩
  exact ⟨ht2, L.trans hle hle', hb⟩

/-- Actions of which nothing but the regime matters. -/
theorem seq (hx : L.Keeps x t s fun _ _ _ => True) (hf : ∀ a t' s', L.Keeps (f a) t' s' P) :
    L.Keeps (x >>= f) t s P :=
  bind hx fun a t' s' _ _ _ _ => hf a t' s'

theorem mapM {g : α → StateT τ (EStateM ε σ) β} (h : ∀ a t s, L.Keeps (g a) t s fun _ _ _ => True)
    (xs : List α) : L.Keeps (xs.mapM g) t s fun _ _ _ => True := by
  induction xs generalizing t s with
  | nil => exact pure fun _ => trivial
  | cons a xs ih =>
    rw [List.mapM_cons]
    exact seq (h a t s) fun _ _ _ => seq ih fun _ _ _ => pure fun _ => trivial

private theorem imp (hx : L.Keeps x t s Q)
    (h : ∀ a t' s', L.Holds t s → L.Holds t' s' → L.Leads t s t' s' → Q a t' s' → Q' a t' s') :
    L.Keeps x t s Q' :=
  fun ht => (hx ht).imp fun a t' s' ha => ⟨ha.1, ha.2.1, h a t' s' ht ha.1 ha.2.1 ha.2.2⟩

/-- What is said of the answer may be weakened. -/
theorem mono (hx : L.Keeps x t s Q) (h : ∀ a t' s', L.Leads t s t' s' → Q a t' s' → Q' a t' s') :
    L.Keeps x t s Q' :=
  hx.imp fun a t' s' _ _ => h a t' s'

/-- Mapping the answer keeps every regime. -/
theorem map {g : α → β} (hx : L.Keeps x t s fun a => P (g a)) : L.Keeps (g <$> x) t s P :=
  fun ht => EndsWith.map_iff.2 (hx ht)

/-- Reading the outer state keeps every regime. -/
theorem get_bind {f : τ → StateT τ (EStateM ε σ) β} (hf : L.Keeps (f t) t s P) :
    L.Keeps (get >>= f) t s P :=
  hf

/-- What else is known of an action of the kernel. -/
theorem and_lift {y : EStateM ε σ α} {R : α → σ → Prop} (hx : L.Keeps (liftM y) t s Q)
    (hy : Ends y s R fun _ _ => True) :
    L.Keeps (liftM y) t s fun a t' s' => Q a t' s' ∧ R a s' := by
  intro ht
  have hends := EndsWith.lift_iff.1 (hx ht)
  refine EndsWith.lift_iff.2 (Ends.of_cases (fun a s' h => ?_) fun e s' h => hends.of_error h)
  obtain ⟨ht', hle, hq⟩ := hends.of_ok h
  exact ⟨ht', hle, hq, hy.of_ok h⟩

/-- Reading the inner state keeps every regime. -/
theorem getThe_bind {f : σ → StateT τ (EStateM ε σ) β} (hf : L.Keeps (f s) t s P) :
    L.Keeps ((MonadStateOf.get : StateT τ (EStateM ε σ) σ) >>= f) t s P :=
  hf

end Keeps
end Regime

/-- A course with a state on top, of which `I` holds. -/
def Course.beneath (L : Course ε σ) (I : τ → σ → Prop) : Regime ε σ τ where
  Holds t s := L.Holds s ∧ I t s
  Leads _ s _ s' := L.Leads s s'
  Stops _ := L.Stops
  refl h := L.refl h.1
  trans h h' := L.trans h h'
  stops h h' := L.stops h h'

/-- An action that does not touch the state on top keeps `I`, if it lasts. -/
theorem Course.Keeps.lift {L : Course ε σ} {t : τ} {s : σ} {y : EStateM ε σ α}
    {Q : α → σ → Prop} (hI : ∀ s', L.Leads s s' → I t s → I t s') (hy : L.Keeps y s Q) :
    (L.beneath I).Keeps (liftM y) t s fun a _ s' => Q a s' :=
  fun ht => EndsWith.lift_iff.2 ((hy ht.1).imp
    fun _ s' h => ⟨⟨h.1, hI s' h.2.1 ht.2⟩, h.2.1, h.2.2⟩)

/-- A change of the state on top. -/
theorem Course.keeps_modify {L : Course ε σ} {t : τ} {s : σ} {g : τ → τ}
    (hI : I t s → I (g t) s) : (L.beneath I).Keeps (modify g) t s fun _ _ _ => True :=
  fun ht => ⟨⟨ht.1, hI ht.2⟩, L.refl ht.1, trivial⟩

/-! How a run on a fixed input ends is decided by running it. -/

section Decidable

variable (P : α → Prop) [DecidablePred P] (X : ε → Prop) [DecidablePred X] (Q : α → σ → Prop)
  [∀ a s, Decidable (Q a s)]

instance decidableRunsOk (x : EStateM ε σ α) (s : σ) :
    Decidable (∃ a s', x s = .ok a s' ∧ Q a s') :=
  match x s with
  | .ok a s' => decidable_of_iff (Q a s') (by simp)
  | .error _ _ => isFalse (by simp)

instance decidableExceptOk : (r : Except ε α) → Decidable (∃ a, r = .ok a ∧ P a)
  | .ok a => decidable_of_iff (P a) (by simp)
  | .error _ => isFalse (by simp)

instance decidableExceptError : (r : Except ε α) → Decidable (∃ e, r = .error e ∧ X e)
  | .ok _ => isFalse (by simp)
  | .error e => decidable_of_iff (X e) (by simp)

end Decidable

/-- An action without a state that ends does so part by part. -/
theorem exists_of_bind_eq_ok {b : β} (h : x >>= f = .ok b) :
    ∃ a, x = .ok a ∧ f a = .ok b := by
  cases x with
  | error e => cases h
  | ok a => exact ⟨a, rfl, h⟩

theorem of_bind_eq_error {e : ε} (h : x >>= f = .error e) :
    x = .error e ∨ ∃ a, x = .ok a ∧ f a = .error e := by
  cases x with
  | error e => exact .inl (congrArg _ (Except.error.inj h))
  | ok a => exact .inr ⟨a, rfl, h⟩

end Elaboration
