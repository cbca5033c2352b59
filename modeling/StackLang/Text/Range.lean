namespace StackLang.Text

/-- Inclusive ranges of code points, in ascending order. -/
abbrev Ranges := Array (Nat × Nat)

def Ranges.contains (t : Ranges) (n : Nat) : Bool :=
  t.any fun r => r.1 ≤ n && n ≤ r.2

end StackLang.Text
