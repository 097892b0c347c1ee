namespace TaggedHeap.Text

/-- What arrives in the top four bits is folded back into the second lowest byte. -/
def hashStep (h : UInt32) (byte : UInt8) : UInt32 :=
  let h := (h <<< 4) + byte.toUInt32
  let top := h &&& 0xF0000000
  (h ^^^ (top >>> 24)) ^^^ top

def hash (bytes : List UInt8) : UInt32 :=
  bytes.foldl hashStep 0

-- The name `ab`, and `syscall`, of which the first letter is folded back.
example : hash [0x61, 0x62] = 97 * 16 + 98 ∧
    hash [0x73, 0x79, 0x73, 0x63, 0x61, 0x6C, 0x6C] = 0x0B09985C := by
  decide

end TaggedHeap.Text
