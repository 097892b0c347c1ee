namespace TaggedHeap.Text

/-- Lower-case digits after `0x`. The number zero keeps its one digit. -/
def hexadecimal (n : Nat) : String :=
  "0x" ++ String.ofList (Nat.toDigits 16 n)

end TaggedHeap.Text
