/-!
# Binding powers

A binding power says how tightly an operator holds its operands. Powers are
ordered; while an expression is read at some power, it takes in the operators
that bind tighter than that.
-/

namespace Frontend

/-- How tightly an operator binds, loosest first. -/
inductive Power where
  /-- No operator binds as loosely as this. -/
  | lowest
  | assignment
  | logicalOr
  | logicalAnd
  | bitwiseOr
  | bitwiseXor
  | bitwiseAnd
  | equality
  | relational
  | shift
  | additive
  | multiplicative
  | unary
  | call
deriving DecidableEq

namespace Power

/-- Every power, loosest first. -/
def all : List Power :=
  [lowest, assignment, logicalOr, logicalAnd, bitwiseOr, bitwiseXor, bitwiseAnd, equality,
    relational, shift, additive, multiplicative, unary, call]

/-- The place of the power in the order. -/
def rank : Power → Nat
  | lowest => 0
  | assignment => 1
  | logicalOr => 2
  | logicalAnd => 3
  | bitwiseOr => 4
  | bitwiseXor => 5
  | bitwiseAnd => 6
  | equality => 7
  | relational => 8
  | shift => 9
  | additive => 10
  | multiplicative => 11
  | unary => 12
  | call => 13

instance : LT Power := ⟨fun a b => a.rank < b.rank⟩

instance : LE Power := ⟨fun a b => a.rank ≤ b.rank⟩

instance (a b : Power) : Decidable (a < b) := inferInstanceAs (Decidable (a.rank < b.rank))

instance (a b : Power) : Decidable (a ≤ b) := inferInstanceAs (Decidable (a.rank ≤ b.rank))

theorem lt_iff_rank_lt {a b : Power} : a < b ↔ a.rank < b.rank := Iff.rfl

theorem le_iff_rank_le {a b : Power} : a ≤ b ↔ a.rank ≤ b.rank := Iff.rfl

def name : Power → String
  | lowest => "Default"
  | assignment => "Assignment"
  | logicalOr => "LogicalOr"
  | logicalAnd => "LogicalAnd"
  | bitwiseOr => "BitwiseOr"
  | bitwiseXor => "BitwiseXor"
  | bitwiseAnd => "BitwiseAnd"
  | equality => "Equality"
  | relational => "Relational"
  | shift => "Shift"
  | additive => "Additive"
  | multiplicative => "Multiplicative"
  | unary => "Unary"
  | call => "Call"

/-- The power with the given name. -/
def ofName? (text : String) : Option Power :=
  all.find? (·.name = text)

end Power

end Frontend
