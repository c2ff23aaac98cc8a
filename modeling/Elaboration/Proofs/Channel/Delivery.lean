import Mathlib.Data.List.Basic
import Elaboration.Channel

/-!
# Every value is delivered once

A client settles channels, takes from them and listens to them in any order, each end as long as it
holds it. What was done with the ends says which values were sent and where each of them is. The
arrival of a value keeps that up, and so does the cascade that it sets off.
-/

namespace Elaboration

open Function List

variable {α : Type}

namespace Channel

/-- Who has the end of a channel that is settled. -/
inductive Sender (α : Type) where
  | client
  | nobody
  | settled (value : α)
  /-- The listener of another channel. -/
  | listener (c : Nat)

/-- What was done with the end of a channel that is read. -/
structure Use (α : Type) where
  listener : Option (Listener α) := none
  /-- What takes answered. -/
  taken : List α := []

namespace Use

/-- The state of a channel to which a value was sent, or none. -/
def state (u : Use α) : Option α → State α
  | none => .pending u.listener
  | some v => if u.listener.isNone ∧ u.taken = [] then .ready v else .consumed

/-- What the listener got. -/
def heard? (u : Use α) (sent : Option α) : Option (String × α) := do
  let l ← u.listener
  let v ← sent
  if u.taken = [] then some (l.tag, v) else none

/-- What the listener passed on, and where to. -/
def passed? (u : Use α) (sent : Option α) : Option (Nat × α) := do
  let (_, v) ← u.heard? sent
  let l ← u.listener
  let (f, target) ← l.relay
  some (target, f v)

end Use
end Channel

namespace Channels

open Channel

/-- An action of a client. -/
inductive Op (α : Type) where
  | create
  | settle (c : Nat) (value : α)
  | drop (c : Nat)
  | take (c : Nat)
  | listen (c : Nat) (tag : String)
  | andThen (c : Nat) (tag : String) (f : α → α)

/-- Channels, and what was done with their ends. -/
structure Traffic (α : Type) where
  channels : Channels α := {}
  senders : Nat → Sender α := fun _ => .client
  uses : Nat → Use α := fun _ => {}

namespace Traffic

/-- The client holds the end that it acts on. -/
def holds (d : Traffic α) : Op α → Bool
  | .create => true
  | .settle c _ | .drop c => c < d.channels.states.size && (d.senders c matches .client)
  | .take c | .listen c _ | .andThen c _ _ =>
    c < d.channels.states.size && (d.uses c).listener.isNone

/-- What was done, with a listener on a channel. -/
def heeding (uses : Nat → Use α) (c : Nat) (l : Listener α) : Nat → Use α :=
  update uses c { uses c with listener := some l }

/-- One action on ends that the client holds. -/
def act (d : Traffic α) : Op α → Option (Traffic α)
  | .create => some { d with channels := d.channels.create.2 }
  | .settle c v => do
    let channels ← d.channels.settle c v
    some { d with channels, senders := update d.senders c (.settled v) }
  | .drop c => some { d with senders := update d.senders c .nobody }
  | .take c =>
    let (out, channels) := d.channels.take c
    let uses := update d.uses c { d.uses c with taken := (d.uses c).taken ++ out.toList }
    some { d with channels, uses }
  | .listen c tag => do
    let channels ← d.channels.listen c ⟨tag, none⟩
    some { d with channels, uses := heeding d.uses c ⟨tag, none⟩ }
  | .andThen c tag f => do
    let (t, channels) ← d.channels.andThen c tag f
    some ⟨channels, update d.senders t (.listener c), heeding d.uses c ⟨tag, some (f, t)⟩⟩

/-- Actions in order, each on an end that the client holds. -/
inductive Runs : Traffic α → List (Op α) → Traffic α → Prop where
  | nil {d : Traffic α} : Runs d [] d
  | cons {d d1 d' : Traffic α} {op : Op α} {ops : List (Op α)} :
    d.holds op → d.act op = some d1 → Runs d1 ops d' → Runs d (op :: ops) d'

end Traffic

/-- What was sent to a channel, by the client or by the listener that has its end. -/
def given (senders : Nat → Sender α) (uses : Nat → Use α) (sent : Nat → Option α) (c : Nat) :
    Option α :=
  match senders c with
  | .settled v => some v
  | .listener c' => do
    let (target, v) ← (uses c').passed? (sent c')
    if target = c then some v else none
  | _ => none

/-- What is sent once a value that is on its way has arrived. -/
def onward (sent : Nat → Option α) : Option (Nat × α) → Nat → Option α
  | none => sent
  | some (c, v) => update sent c (some v)

/-- Every value that was sent is in its place, but for one that may be on its way. A listener passes
on to a later channel. -/
structure Delivered (cs : Channels α) (senders : Nat → Sender α) (uses : Nat → Use α)
    (sent : Nat → Option α) (way : Option (Nat × α)) : Prop where
  states : ∀ c < cs.states.size, cs.states[c]? = some ((uses c).state (sent c))
  taken : ∀ c, (uses c).taken = [] ∨ ∃ v, (uses c).taken = [v] ∧ sent c = some v
  observed : cs.observed ~ (range cs.states.size).filterMap fun c => (uses c).heard? (sent c)
  arriving : ∀ c v, way = some (c, v) → sent c = none
  given : ∀ c, given senders uses sent c = onward sent way c
  relays : ∀ c tag f t, (uses c).listener = some ⟨tag, some (f, t)⟩ →
    c < t ∧ senders t = .listener c
  fresh : ∀ c ≥ cs.states.size, senders c = .client ∧ uses c = {}

variable {cs : Channels α} {senders : Nat → Sender α} {uses : Nat → Use α} {sent : Nat → Option α}
  {way : Option (Nat × α)} {c t bound : Nat} {v : α} {u : Use α} {o : Option α}

/-! ### One channel -/

private theorem exists_of_passed? (h : u.passed? o = some (t, v)) :
    ∃ tag f, u.listener = some ⟨tag, some (f, t)⟩ := by
  simp only [Use.passed?, Option.bind_eq_bind, Option.bind_eq_some_iff] at h
  obtain ⟨_, _, ⟨tag, _⟩, hl, ⟨f, _⟩, ⟨⟩, ⟨⟩⟩ := h
  exact ⟨tag, f, hl⟩

private theorem passed?_of_heard? (h : u.heard? o = none) : u.passed? o = none := by
  simp [Use.passed?, h]

/-- The channels, with one that was used and sent to otherwise. -/
def renew (cs : Channels α) (c : Nat) (u : Use α) (o : Option α) : Channels α where
  states := cs.states.setIfInBounds c (u.state o)
  observed := (u.heard? o).toList ++ cs.observed

@[simp] private theorem size_renew : (cs.renew c u o).states.size = cs.states.size := by
  simp [renew]

/-- A value that is on its way arrives. -/
def resume (bound : Nat) (cs : Channels α) : Option (Nat × α) → Option (Channels α)
  | none => some cs
  | some (c, v) => settleTo bound cs c v

private theorem settleTo_succ (hstate : cs.states[c]? = some (u.state none))
    (htaken : u.taken = []) :
    settleTo (bound + 1) cs c v = (cs.renew c u (some v)).resume bound (u.passed? (some v)) := by
  rw [settleTo, hstate, Use.state]
  match hl : u.listener with
  | none => simp [renew, resume, put, Use.state, Use.heard?, Use.passed?, hl, htaken]
  | some ⟨tag, relay⟩ =>
    cases relay <;>
      simp [renew, resume, put, observe, Use.state, Use.heard?, Use.passed?, hl, htaken]

private theorem renew_eq_self (hstate : cs.states[c]? = some (u.state o))
    (hheard : u.heard? o = none) :
    cs.renew c u o = cs := by
  obtain ⟨hlt, hget⟩ := Array.getElem?_eq_some_iff.1 hstate
  simp [renew, hheard, ← hget, Array.setIfInBounds, hlt]

private theorem listen_eq (hstate : cs.states[c]? = some (u.state o)) (hl : u.listener = none)
    (l : Listener α) :
    cs.listen c l = (cs.renew c { u with listener := some l } o).resume cs.states.size
      (Use.passed? { u with listener := some l } o) := by
  unfold Channels.listen
  cases o with
  | none => simp [hstate, renew, resume, put, Use.state, Use.heard?, Use.passed?]
  | some v =>
    by_cases htaken : u.taken = []
    · cases hrelay : l.relay <;>
        simp [hstate, hl, htaken, hrelay, renew, resume, settle, put, observe, Use.state,
          Use.heard?,
          Use.passed?]
    · rw [renew_eq_self (by simp [hstate, Use.state, hl, htaken]) (by simp [Use.heard?, htaken])]
      simp [hstate, htaken, resume, Use.state, Use.heard?, Use.passed?]

private theorem exists_take_eq (hstate : cs.states[c]? = some (u.state o)) (hl : u.listener = none)
    (htaken : u.taken = [] ∨ ∃ v, u.taken = [v] ∧ o = some v) :
    ∃ out, cs.take c = (out, cs.renew c { u with taken := u.taken ++ out.toList } o) ∧
      (u.taken ++ out.toList = [] ∨ ∃ v, u.taken ++ out.toList = [v] ∧ o = some v) := by
  unfold Channels.take
  by_cases hready : u.taken = [] ∧ o.isSome
  · obtain ⟨hnone, hsome⟩ := hready
    obtain ⟨v, rfl⟩ := Option.isSome_iff_exists.1 hsome
    refine ⟨some v, ?_, .inr ⟨v, by simp [hnone]⟩⟩
    simp [hstate, hl, hnone, renew, put, Use.state, Use.heard?]
  · have hsame : cs.renew c { u with taken := u.taken ++ [] } o = cs := by
      rw [append_nil]
      exact renew_eq_self hstate (by simp [Use.heard?, hl])
    refine ⟨none, ?_, by simpa using htaken⟩
    rw [hstate, Option.toList_none, hsame]
    cases o with
    | none => rfl
    | some v => simp [Use.state, show u.taken ≠ [] by simpa using hready]

namespace Delivered

private theorem renew (h : Delivered cs senders uses sent way) (hlt : c < cs.states.size)
    (hsent : onward sent way = update sent c o) (hheard : (uses c).heard? (sent c) = none)
    (htaken : u.taken = [] ∨ ∃ v, u.taken = [v] ∧ o = some v)
    (hrelays : ∀ tag f t, u.listener = some ⟨tag, some (f, t)⟩ → c < t ∧ senders t = .listener c) :
    Delivered (cs.renew c u o) senders (update uses c u) (update sent c o) (u.passed? o) := by
  have hgiven : ∀ x, Channels.given senders uses sent x = update sent c o x := by
    rw [← hsent]
    exact h.given
  -- nothing was sent so far where the listener passes on to
  have hnone : ∀ x, senders x = .listener c → update sent c o x = none := by
    intro x hx
    simp [← hgiven, Channels.given, hx, passed?_of_heard? hheard]
  refine ⟨fun x hx => ?_, fun x => ?_, ?_, fun t v hp => ?_, fun x => ?_, fun x => ?_,
    fun x hx => ?_⟩
  · rw [size_renew] at hx
    by_cases hxc : x = c
    · simp [hxc, Channels.renew, hlt]
    · simpa [hxc, Channels.renew, Ne.symm hxc] using h.states x hx
  · by_cases hxc : x = c
    · simpa [hxc] using htaken
    · simpa [hxc] using h.taken x
  · have hrange := perm_cons_erase (mem_range.2 hlt)
    have hrest : ((range cs.states.size).erase c).filterMap
          (fun x => (update uses c u x).heard? (update sent c o x)) =
        ((range cs.states.size).erase c).filterMap fun x => (uses x).heard? (sent x) := by
      refine filterMap_congr fun x hx => ?_
      have hxc : x ≠ c := fun heq => nodup_range.not_mem_erase (heq ▸ hx)
      rw [update_of_ne hxc, update_of_ne hxc]
    have hold := h.observed.trans (hrange.filterMap _)
    rw [filterMap_cons, hheard, ← hrest] at hold
    rw [size_renew]
    refine ((hold.append_left (u.heard? o).toList).trans ?_).trans (hrange.filterMap _).symm
    cases hu : u.heard? o <;> simp [hu]
  · obtain ⟨tag, f, hl⟩ := exists_of_passed? hp
    exact hnone t (hrelays tag f t hl).2
  · by_cases hx : senders x = .listener c
    · have hx' := hnone x hx
      cases hp : u.passed? o with
      | none => simp [Channels.given, hx, onward, hx', hp]
      | some p =>
        by_cases hpx : p.1 = x
        · simp [Channels.given, hx, onward, hp, hpx]
        · simp [Channels.given, hx, onward, hp, hpx, Ne.symm hpx, hx']
    · have hother : onward (update sent c o) (u.passed? o) x = update sent c o x := by
        cases hp : u.passed? o with
        | none => rfl
        | some p =>
          refine update_of_ne ?_ _ _
          rintro rfl
          obtain ⟨tag, f, hl⟩ := exists_of_passed? hp
          exact hx (hrelays tag f p.1 hl).2
      rw [hother, ← hgiven, Channels.given, Channels.given]
      cases hs : senders x with
      | listener c' =>
        have hc' : c' ≠ c := fun h => hx (h ▸ hs)
        simp [hc']
      | _ => rfl
  · by_cases hxc : x = c
    · simpa [hxc] using hrelays
    · simpa [hxc] using h.relays x
  · rw [size_renew] at hx
    rw [update_of_ne (by omega)]
    exact h.fresh x hx

private theorem lt_of_given (h : Delivered cs senders uses sent way)
    (hc : onward sent way c = some v) :
    c < cs.states.size := by
  by_contra hge
  have hgiven := h.given c
  simp [Channels.given, (h.fresh c (Nat.le_of_not_lt hge)).1, hc] at hgiven

private theorem exists_resume (bound : Nat) (h : Delivered cs senders uses sent way)
    (hbound : ∀ c v, way = some (c, v) → cs.states.size ≤ c + bound) :
    ∃ cs' sent', resume bound cs way = some cs' ∧ Delivered cs' senders uses sent' none := by
  induction bound generalizing cs sent way with
  | zero =>
    cases way with
    | none => exact ⟨cs, sent, rfl, h⟩
    | some p => exact absurd (h.lt_of_given (update_self ..)) (Nat.not_lt.2 (hbound _ _ rfl))
  | succ bound ih =>
    match way with
    | none => exact ⟨cs, sent, rfl, h⟩
    | some (c, v) =>
      have hlt := h.lt_of_given (update_self ..)
      have hc := h.arriving c v rfl
      have hstate := h.states c hlt
      rw [hc] at hstate
      have htaken : (uses c).taken = [] := (h.taken c).resolve_right (by simp [hc])
      have hnext := h.renew hlt rfl (by simp [hc, Use.heard?]) (.inl htaken) (h.relays c)
      rw [update_eq_self] at hnext
      rw [resume, settleTo_succ hstate htaken]
      refine ih hnext fun t w hp => ?_
      obtain ⟨tag, f, hl⟩ := exists_of_passed? hp
      have hct := (h.relays c tag f t hl).1
      have hsize := hbound c v rfl
      rw [size_renew]
      omega

/-! ### The actions of a client -/

section Actions

variable (h : Delivered cs senders uses sent none) (hlt : c < cs.states.size)
  (hl : (uses c).listener = none)

include h

private theorem create : Delivered cs.create.2 senders uses sent none := by
  have hsize : cs.create.2.states.size = cs.states.size + 1 := by simp [Channels.create]
  obtain ⟨hsender, huse⟩ := h.fresh _ (Nat.le_refl _)
  have hnew : sent cs.states.size = none := by
    simpa [Channels.given, hsender, onward] using (h.given cs.states.size).symm
  refine { h with states := fun c hc => ?_, observed := ?_, fresh := fun c hc => h.fresh c ?_ }
  · rw [Channels.create, Array.getElem?_push]
    split
    · next heq => rw [heq, huse, hnew, Use.state]
    · exact h.states c (by omega)
  · simpa [Channels.create, range_succ, huse, Use.heard?] using h.observed
  · omega

include hlt

private theorem send {s : Sender α} (hc : senders c = .client)
    (hs : Channels.given (update senders c s) uses sent c = o) :
    Delivered cs (update senders c s) uses sent (o.map fun v => (c, v)) := by
  have hnone : sent c = none := by
    simpa [Channels.given, hc, onward] using (h.given c).symm
  refine { h with arriving := fun x v hx => ?_, given := fun x => ?_, relays := ?_, fresh := ?_ }
  · cases o <;> simp_all
  · by_cases hx : x = c
    · rw [hx, hs]
      cases o <;> simp [onward, hnone]
    · have hon : onward sent (o.map fun v => (c, v)) x = sent x := by
        cases o <;> simp [onward, hx]
      have hgiven : Channels.given senders uses sent x = sent x := h.given x
      rw [hon, ← hgiven, Channels.given, Channels.given, update_of_ne hx]
  · intro c' tag f t hl
    obtain ⟨hct, ht⟩ := h.relays c' tag f t hl
    have htc : t ≠ c := by
      rintro rfl
      cases hc.symm.trans ht
    exact ⟨hct, by rwa [update_of_ne htc]⟩
  · intro x hx
    rw [update_of_ne (by omega)]
    exact h.fresh x hx

include hl

private theorem read (u : Use α) (htaken : u.taken = [] ∨ ∃ v, u.taken = [v] ∧ sent c = some v)
    (hrelays : ∀ tag f t, u.listener = some ⟨tag, some (f, t)⟩ → c < t ∧ senders t = .listener c) :
    Delivered (cs.renew c u (sent c)) senders (update uses c u) sent (u.passed? (sent c)) := by
  have hread := h.renew hlt (update_eq_self c sent).symm (by simp [Use.heard?, hl]) htaken hrelays
  rwa [update_eq_self] at hread

private theorem take : Delivered (cs.take c).2 senders
    (update uses c { uses c with taken := (uses c).taken ++ (cs.take c).1.toList }) sent none := by
  obtain ⟨out, htake, htaken⟩ := exists_take_eq (h.states c hlt) hl (h.taken c)
  have hread := h.read hlt hl { uses c with taken := (uses c).taken ++ out.toList } htaken
    (h.relays c)
  rw [htake]
  simpa [Use.passed?, Use.heard?, hl] using hread

private theorem exists_listen {l : Listener α}
    (hrelays : ∀ f t, l.relay = some (f, t) → c < t ∧ senders t = .listener c) :
    ∃ cs' sent', cs.listen c l = some cs' ∧
      Delivered cs' senders (Traffic.heeding uses c l) sent' none := by
  rw [listen_eq (h.states c hlt) hl]
  refine (h.read hlt hl { uses c with listener := some l } (h.taken c) ?_).exists_resume _
    fun t v _ => ?_
  · rintro tag f t ⟨⟩
    exact hrelays f t rfl
  · rw [size_renew]
    exact Nat.le_add_left _ _

end Actions

end Delivered

/-! ### All actions -/

namespace Traffic

/-- Every value that was sent is in its place. -/
def Sound (d : Traffic α) : Prop := ∃ sent, Delivered d.channels d.senders d.uses sent none

variable {d : Traffic α}

private theorem Sound.exists_act (hsound : d.Sound) {op : Op α} (hop : d.holds op) :
    ∃ d', d.act op = some d' ∧ d'.Sound := by
  obtain ⟨sent, h⟩ := hsound
  have hclient : ∀ c, (d.senders c matches .client) → d.senders c = .client := by
    intro c
    cases d.senders c <;> simp
  cases op with
  | create => exact ⟨_, rfl, sent, h.create⟩
  | settle c v =>
    obtain ⟨hlt, hc⟩ : c < _ ∧ _ := by simpa [holds] using hop
    have hsent := h.send (s := .settled v) (o := some v) hlt (hclient c hc) (by simp [given])
    obtain ⟨cs, sent', hcs, hdone⟩ := hsent.exists_resume _ fun _ _ _ => Nat.le_add_left _ _
    exact ⟨_, congrArg (· >>= _) hcs, sent', hdone⟩
  | drop c =>
    obtain ⟨hlt, hc⟩ : c < _ ∧ _ := by simpa [holds] using hop
    exact ⟨_, rfl, sent, h.send (o := none) hlt (hclient c hc) (by simp [given])⟩
  | take c =>
    obtain ⟨hlt, hl⟩ : c < _ ∧ _ := by simpa [holds] using hop
    exact ⟨_, rfl, sent, h.take hlt hl⟩
  | listen c tag =>
    obtain ⟨hlt, hl⟩ : c < _ ∧ _ := by simpa [holds] using hop
    obtain ⟨cs, sent', hcs, hdone⟩ := h.exists_listen (l := ⟨tag, none⟩) hlt hl nofun
    exact ⟨_, congrArg (· >>= _) hcs, sent', hdone⟩
  | andThen c tag f =>
    obtain ⟨hlt, hl⟩ : c < d.channels.states.size ∧ (d.uses c).listener = none := by
      simpa [holds] using hop
    have hsize : d.channels.create.2.states.size = d.channels.states.size + 1 := by
      simp [Channels.create]
    have hcreated := h.create.send (c := d.channels.states.size) (s := .listener c) (o := none)
      (by omega) (h.fresh _ (Nat.le_refl _)).1 (by simp [given, Use.passed?, hl])
    obtain ⟨cs, sent', hcs, hdone⟩ := hcreated.exists_listen
      (l := ⟨tag, some (f, d.channels.states.size)⟩) (by omega) hl (by
        rintro _ _ ⟨⟩
        exact ⟨hlt, update_self ..⟩)
    have hnew : d.channels.create.1 = d.channels.states.size := rfl
    simp only [act, Channels.andThen, hnew, hcs]
    exact ⟨_, rfl, sent', hdone⟩

private theorem sound_empty : Sound (α := α) {} :=
  ⟨fun _ => none, nofun, fun _ => .inl rfl, .nil, nofun, fun _ => rfl, nofun, fun _ _ => ⟨rfl, rfl⟩⟩

private theorem Runs.sound {d' : Traffic α} {ops : List (Op α)} (h : d.Runs ops d') (hd : d.Sound) :
    d'.Sound := by
  induction h with
  | nil => exact hd
  | cons hop hact _ ih =>
    obtain ⟨d1, hd1, hsound⟩ := hd.exists_act hop
    cases hact.symm.trans hd1
    exact ih hsound

end Traffic

/-- Channels that pass on from one to the next, each by a function, up to a last one. Nothing was
taken from them on the way. -/
inductive Chain (uses : Nat → Use α) : Nat → List (Nat × (α → α)) → Nat → Prop where
  | nil {c : Nat} : Chain uses c [] c
  | cons {c t c' : Nat} {tag : String} {f : α → α} {links : List (Nat × (α → α))} :
    (uses c).listener = some ⟨tag, some (f, t)⟩ → (uses c).taken = [] → Chain uses t links c' →
    Chain uses c ((c, f) :: links) c'

private theorem Chain.last_sent {links : List (Nat × (α → α))} {c' : Nat}
    (hchain : Chain uses c links c')
    (h : Delivered cs senders uses sent none) (hv : sent c = some v) :
    sent c' = some (links.foldl (fun v p => p.2 v) v) ∧
      ∀ p ∈ links, ((uses p.1).heard? (sent p.1)).isSome := by
  induction hchain generalizing v with
  | nil => exact ⟨hv, nofun⟩
  | @cons c t _ tag f links hl htaken _ ih =>
    have hheard : (uses c).heard? (sent c) = some (tag, v) := by
      simp [Use.heard?, hv, htaken, hl]
    have ht : Channels.given senders uses sent t = sent t := h.given t
    rw [Channels.given, (h.relays c tag f t hl).2] at ht
    obtain ⟨hlast, hlinks⟩ := ih (v := f v) (by simp [← ht, Use.passed?, hheard, hl])
    exact ⟨hlast, forall_mem_cons.2 ⟨by rw [hheard]; rfl, hlinks⟩⟩

/-- Whatever a client does with the ends that it holds, no action comes upon a channel that was
settled before, and a new channel is pending. Each value that the client or a listener sends waits
for the next take, or was taken, or went to the listener, and to one of them only. A listener ran,
and ran once, if a value was sent and not taken before, whichever came first, and what it passed on
was sent to the next channel, so that the last of a chain yields what all functions make of the
value. -/
theorem delivered_once {ops : List (Op α)} {d : Traffic α} (hruns : Traffic.Runs {} ops d) :
    (∀ op, d.holds op → ∃ d', d.act op = some d') ∧
    (d.channels.states[d.channels.create.1]? = none ∧
      d.channels.create.2.states[d.channels.create.1]? = some (.pending none) ∧
      ∀ c ≠ d.channels.create.1, d.channels.create.2.states[c]? = d.channels.states[c]?) ∧
    ∃ sent : Nat → Option α,
      (∀ c, given d.senders d.uses sent c = sent c) ∧
      (∀ c v, sent c = some v →
        (d.channels.states[c]? = some (.ready v) ∧ d.channels.isReady c ∧
          (d.channels.take c).1 = some v ∧ (d.channels.take c).2.states[c]? = some .consumed ∧
          (d.uses c).taken = [] ∧ (d.uses c).heard? (sent c) = none) ∨
        (d.channels.states[c]? = some .consumed ∧ d.channels.isReady c = false ∧
          (d.channels.take c).1 = none ∧
          ((d.uses c).taken = [v] ∧ (d.uses c).heard? (sent c) = none ∨
            (d.uses c).taken = [] ∧ ∃ tag, (d.uses c).heard? (sent c) = some (tag, v)))) ∧
      (∀ c, sent c = none → (d.uses c).taken = [] ∧ d.channels.isReady c = false ∧
        (d.channels.take c).1 = none) ∧
      (∀ c, ((d.uses c).heard? (sent c)).isSome ↔
        (sent c).isSome ∧ (d.uses c).listener.isSome ∧ (d.uses c).taken = []) ∧
      d.channels.observed ~
        (range d.channels.states.size).filterMap (fun c => (d.uses c).heard? (sent c)) ∧
      ∀ c links c' v, Chain d.uses c links c' → sent c = some v →
        sent c' = some (links.foldl (fun v p => p.2 v) v) ∧
          (∀ p ∈ links, ((d.uses p.1).heard? (sent p.1)).isSome) ∧
          ((d.uses c').listener = none → (d.uses c').taken = [] →
            (d.channels.take c').1 = some (links.foldl (fun v p => p.2 v) v)) := by
  have hsound := hruns.sound Traffic.sound_empty
  refine ⟨fun op hop => (hsound.exists_act hop).imp fun _ h => h.1, ?_, ?_⟩
  · simp +contextual [create, Array.getElem?_push]
  obtain ⟨sent, h⟩ := hsound
  refine ⟨sent, h.given, fun c v hv => ?_, fun c hc => ?_, fun c => ?_, h.observed,
    fun c links c' v hchain hv => ?_⟩
  · have hstate := h.states c (h.lt_of_given hv)
    have hput : (d.channels.put c .consumed).states[c]? = some .consumed := by
      simp [put, h.lt_of_given hv]
    rw [hv] at hstate ⊢
    obtain htaken | ⟨w, htaken, hw⟩ := h.taken c
    · cases hl : (d.uses c).listener <;>
        simp [isReady, Channels.take, hstate, Use.state, Use.heard?, htaken, hl, hput]
    · cases hv.symm.trans hw
      simp [isReady, Channels.take, hstate, Use.state, Use.heard?, htaken]
  · refine ⟨(h.taken c).resolve_right (by simp [hc]), ?_⟩
    by_cases hlt : c < d.channels.states.size
    · simp [isReady, Channels.take, h.states c hlt, hc, Use.state]
    · simp [isReady, Channels.take, Array.getElem?_eq_none (Nat.le_of_not_lt hlt)]
  · cases hc : sent c <;> cases hl : (d.uses c).listener <;> simp [Use.heard?, hl]
  · obtain ⟨hlast, hlinks⟩ := hchain.last_sent h hv
    refine ⟨hlast, hlinks, fun hl htaken => ?_⟩
    simp [Channels.take, h.states c' (h.lt_of_given hlast), hlast, Use.state, hl, htaken]

/-- A value is settled between two functions that are applied to it. -/
def betweenFunctions : List (Op Nat) :=
  [.create, .andThen 0 "first" (· + 1), .settle 0 3, .andThen 1 "second" (· * 2)]

/-- A value passes both functions though the second comes late. -/
theorem delivered_once_betweenFunctions :
    ∃ d, Traffic.Runs {} betweenFunctions d ∧ (d.channels.take 2).1 = some 8 := by
  have hruns : Traffic.Runs {} betweenFunctions _ :=
    .cons rfl rfl (.cons rfl rfl (.cons rfl rfl (.cons rfl rfl .nil)))
  obtain ⟨_, _, sent, hgiven, _, _, _, _, hchain⟩ := delivered_once hruns
  have hsent : sent 0 = some 3 := (hgiven 0).symm
  exact ⟨_, hruns, (hchain 0 [(0, (· + 1)), (1, (· * 2))] 2 3
    (.cons rfl rfl (.cons rfl rfl .nil)) hsent).2.2 rfl rfl⟩

end Channels
end Elaboration
