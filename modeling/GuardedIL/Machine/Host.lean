import GuardedIL.Machine.Trap
import GuardedIL.Machine.Value

/-!
# Hosts

Functions that a program does not define are served by the handlers of a host. Handlers share a
state `σ`, which survives a fault.
-/

namespace GuardedIL

abbrev Handler (σ : Type) := List Value → σ → Except Fault Value × σ

structure Host (σ : Type) where
  handler? : String → Option (Handler σ)

namespace Host

variable {σ : Type}

def empty : Host σ :=
  ⟨fun _ => none⟩

/-- Adds a handler, in place of any other of that name. -/
def register (h : Host σ) (name : String) (handler : Handler σ) : Host σ :=
  ⟨fun n => if n = name then some handler else h.handler? n⟩

/-- The function that reports an overflow. -/
def panicName : String := "rt_panic"

/-- Raises an overflow with the text of its first argument. -/
def panic : Handler σ := fun args s =>
  let message := (args.head?.bind Value.text?).getD "panic"
  (.error { kind := .overflow, message := message }, s)

def standard : Host σ :=
  empty.register panicName panic

end Host

end GuardedIL
