/-!
# Journaled processes

A process that can fail and leaves a record of what it did. The record holds the events up to a
failure, so it tells what had happened by then.
-/

namespace EndlessRemix

/-- The outcome of a process and the events on the way to it. -/
structure Journaled (ω ε α : Type) where
  events : List ω
  outcome : Except ε α

namespace Journaled

variable {ω ε α β : Type}

/-- Nothing happens. -/
def pure (a : α) : Journaled ω ε α := ⟨[], .ok a⟩

/-- One process after another; a failure ends both. -/
def bind (p : Journaled ω ε α) (next : α → Journaled ω ε β) : Journaled ω ε β :=
  match p.outcome with
  | .ok a => ⟨p.events ++ (next a).events, (next a).outcome⟩
  | .error e => ⟨p.events, .error e⟩

instance : Monad (Journaled ω ε) where
  pure := pure
  bind := bind

/-- An event, and nothing else. -/
def record (event : ω) : Journaled ω ε Unit := ⟨[event], .ok ()⟩

/-- A result that was found without an event. -/
def ofExcept (outcome : Except ε α) : Journaled ω ε α := ⟨[], outcome⟩

end Journaled

end EndlessRemix
