/-!
# Positions and spans

A position is a byte offset into a named source. Offsets are kept in 32 bits, so
the offset of a character beyond four gigabytes is recorded modulo `2 ^ 32`;
`Position.mark` is the one place where this happens, and for any shorter source
it records the offset itself (`Position.mark_offset`).
-/

namespace Frontend

/-- A byte offset into a named source. Two positions agree when both the offset
and the name do. -/
structure Position where
  offset : Nat
  file : String
deriving DecidableEq

/-- The number of offsets that a position can tell apart: `2 ^ 32`. -/
def Position.limit : Nat := 4294967296

/-- The position of the character that has `offset` bytes in front of it. -/
def Position.mark (offset : Nat) (file : String) : Position :=
  ⟨offset % Position.limit, file⟩

theorem Position.mark_offset {offset : Nat} (h : offset < Position.limit) (file : String) :
    (Position.mark offset file).offset = offset :=
  Nat.mod_eq_of_lt h

/-- A stretch of one source, from its first byte to the byte after its last. -/
structure Span where
  start : Position
  stop : Position
deriving DecidableEq

/-- The span between two offsets of one source. -/
def Span.mark (start stop : Nat) (file : String) : Span :=
  ⟨Position.mark start file, Position.mark stop file⟩

end Frontend
