import TaggedHeap.Handle

namespace TaggedHeap.Missing

/-- Vectors mark a missing element by one reserved value of its kind. -/
def logical : Int32 := Int32.minValue

def integer : Int32 := Int32.minValue

/-- The low word of a missing real. -/
def realPayload : UInt32 := 1954

def real : UInt64 := 0x7FF0000000000000 ||| realPayload.toUInt64

/-- All exponent bits are set and the fraction is not zero; the sign does not matter. -/
def isNaN (bits : UInt64) : Bool :=
  0x7FF0000000000000 < (bits &&& 0x7FFFFFFFFFFFFFFF)

/-- A not-a-number that some computation produced is present; only the payload tells. -/
def isMissingReal (bits : UInt64) : Bool :=
  isNaN bits && bits.toUInt32 == realPayload

def decodeLogical (cell : Int32) : Option Bool :=
  if cell = logical then none else some (cell != 0)

def decodeInteger (cell : Int32) : Option Int32 :=
  if cell = integer then none else some cell

def decodeReal (bits : UInt64) : Option UInt64 :=
  if isMissingReal bits then none else some bits

/-- Identity decides, never content: another record may hold the very same text. -/
def decodeString (element missing : Handle) : Option Handle :=
  if element = missing then none else some element

def encodeLogical : Option Bool → Int32
  | none => logical
  | some false => 0
  | some true => 1

theorem decodeLogical_encodeLogical (b : Option Bool) : decodeLogical (encodeLogical b) = b := by
  cases b with
  | none => rfl
  | some b => cases b <;> rfl

theorem isMissingReal_real : isMissingReal real = true := by decide

end TaggedHeap.Missing
