/-!
# One-shot channels

A channel carries one value from the end that is settled to the end that is read, where it waits to
be taken or listened for; a listener that came first gets it at once. It observes the value under a
tag, and may pass a function of it on to another channel.
-/

namespace Elaboration

/-- What happens to a value that arrives. -/
structure Channel.Listener (α : Type) where
  /-- The tag under which the value is observed. -/
  tag : String
  /-- A function of the value and the channel that is settled with its result. -/
  relay : Option ((α → α) × Nat)

/-- The state of a channel. -/
inductive Channel.State (α : Type) where
  /-- No value yet. -/
  | pending (listener : Option (Channel.Listener α))
  /-- A value waits. -/
  | ready (value : α)
  /-- The value was delivered. -/
  | consumed

/-- Channels by number, and the observations made so far, latest first. -/
structure Channels (α : Type) where
  states : Array (Channel.State α) := #[]
  observed : List (String × α) := []

namespace Channels

variable {α : Type}

/-- A new channel (`channel`). -/
def create (cs : Channels α) : Nat × Channels α :=
  (cs.states.size, { cs with states := cs.states.push (.pending none) })

/-- Replaces the state of a channel. -/
def put (cs : Channels α) (c : Nat) (s : Channel.State α) : Channels α :=
  { cs with states := cs.states.setIfInBounds c s }

/-- Records an observation. -/
def observe (cs : Channels α) (tag : String) (value : α) : Channels α :=
  { cs with observed := (tag, value) :: cs.observed }

/-- Settles a channel and what its listener passes the value on to, over at most `bound` channels;
nothing is answered for one that was settled before. -/
def settleTo : Nat → Channels α → Nat → α → Option (Channels α)
  | 0, _, _, _ => none
  | bound + 1, cs, c, value =>
    match cs.states[c]? with
    | some (.pending none) => some (cs.put c (.ready value))
    | some (.pending (some ⟨tag, relay⟩)) =>
      let cs := (cs.put c .consumed).observe tag value
      match relay with
      | none => some cs
      | some (f, target) => settleTo bound cs target (f value)
    | _ => none

/-- Settles a channel (`set_value`). -/
def settle (cs : Channels α) (c : Nat) (value : α) : Option (Channels α) :=
  settleTo cs.states.size cs c value

/-- Whether a value waits. -/
def isReady (cs : Channels α) (c : Nat) : Bool :=
  match cs.states[c]? with
  | some (.ready _) => true
  | _ => false

/-- Takes the value that waits. -/
def take (cs : Channels α) (c : Nat) : Option α × Channels α :=
  match cs.states[c]? with
  | some (.ready value) => (some value, cs.put c .consumed)
  | _ => (none, cs)

/-- Attaches a listener; a value that waits is delivered at once. -/
def listen (cs : Channels α) (c : Nat) (l : Channel.Listener α) : Option (Channels α) :=
  match cs.states[c]? with
  | some (.pending _) => some (cs.put c (.pending (some l)))
  | some (.ready value) =>
    let cs := (cs.put c .consumed).observe l.tag value
    match l.relay with
    | none => some cs
    | some (f, target) => cs.settle target (f value)
  | _ => some cs

/-- A new channel for a function of the value of an old one (`then`). -/
def andThen (cs : Channels α) (c : Nat) (tag : String) (f : α → α) :
    Option (Nat × Channels α) :=
  let (target, cs) := cs.create
  match cs.listen c ⟨tag, some (f, target)⟩ with
  | some cs => some (target, cs)
  | none => none

end Channels
end Elaboration
