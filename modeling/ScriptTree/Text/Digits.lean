/-! Reading numbers written in digits of base ten, sixteen, eight and two. -/
namespace ScriptTree.Text

/-- The value of a digit, letters of either case counting from ten. -/
def digitValue? (c : Char) : Option Nat :=
  if '0' ≤ c ∧ c ≤ '9' then some (c.toNat - '0'.toNat)
  else if 'a' ≤ c ∧ c ≤ 'f' then some (c.toNat - 'a'.toNat + 10)
  else if 'A' ≤ c ∧ c ≤ 'F' then some (c.toNat - 'A'.toNat + 10)
  else none

/-- Whether a character is a digit of the given base. -/
def isDigitOf (base : Nat) (c : Char) : Bool :=
  match digitValue? c with
  | some d => d < base
  | none => false

/-- The value of a row of digits, most significant first. -/
def ofDigits (base : Nat) (s : List Char) : Nat :=
  s.foldl (fun n c => n * base + (digitValue? c).getD 0) 0

/-- The number that a text spells in the given base: one or more digits and nothing else. -/
def number? (base : Nat) (s : List Char) : Option Nat :=
  if s ≠ [] ∧ s.all (isDigitOf base) then some (ofDigits base s) else none

end ScriptTree.Text
