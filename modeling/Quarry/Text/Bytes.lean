namespace Quarry.Text

abbrev Bytes := List UInt8

/-- The UTF-8 bytes of a text. -/
def bytes (s : String) : Bytes := s.toByteArray.data.toList

def ofBytes? (bs : Bytes) : Option String := String.fromUTF8? ⟨bs.toArray⟩

theorem ofBytes?_bytes (s : String) : ofBytes? (bytes s) = some s := by
  have h : (⟨(bytes s).toArray⟩ : ByteArray) = s.toByteArray := by simp [bytes]
  rw [ofBytes?, h, String.fromUTF8?, dif_pos s.isValidUTF8]
  rfl

theorem bytes_of_ofBytes? {bs : Bytes} {s : String} (h : ofBytes? bs = some s) : bytes s = bs := by
  simp only [ofBytes?, String.fromUTF8?] at h
  split at h
  · simp only [Option.some.injEq] at h
    subst h
    simp [bytes, String.fromUTF8]
  · cases h

theorem ofBytes?_eq_some_iff {bs : Bytes} {s : String} : ofBytes? bs = some s ↔ bs = bytes s :=
  ⟨fun h => (bytes_of_ofBytes? h).symm, fun h => h ▸ ofBytes?_bytes s⟩

/-- The byte an ASCII character stands for. -/
def byte (c : Char) : UInt8 := c.toUInt8

/-- The character with the code of a byte. -/
def charOfByte (b : UInt8) : Char := Char.ofNat b.toNat

def isDigitByte (b : UInt8) : Bool := byte '0' ≤ b && b ≤ byte '9'

/-! ### Damaged text -/

/-- The bounds of the second byte and the number of further bytes of a sequence led by `b`. -/
def sequenceAfter (b : UInt8) : Option (UInt8 × UInt8 × Nat) :=
  if b < 0xC2 then none
  else if b < 0xE0 then some (0x80, 0xBF, 1)
  else if b = 0xE0 then some (0xA0, 0xBF, 2)
  else if b = 0xED then some (0x80, 0x9F, 2)
  else if b < 0xF0 then some (0x80, 0xBF, 2)
  else if b = 0xF0 then some (0x90, 0xBF, 3)
  else if b < 0xF4 then some (0x80, 0xBF, 3)
  else if b = 0xF4 then some (0x80, 0x8F, 3)
  else none

/-- How many bytes of a damaged sequence one replacement character stands for. -/
def damagedLength : Bytes → Nat
  | [] => 0
  | b :: bs =>
    match sequenceAfter b, bs with
    | some (low, high, n), c :: bs =>
      if low ≤ c && c ≤ high then
        2 + min (n - 2) (bs.takeWhile fun d => 0x80 ≤ d && d ≤ 0xBF).length
      else 1
    | _, _ => 1

/-- The character at the head of a text and the number of its bytes. -/
def head? (bs : Bytes) : Option (Char × Nat) :=
  (List.range 4).findSome? fun n =>
    match ofBytes? (bs.take (n + 1)) with
    | some s => s.toList.head?.map fun c => (c, n + 1)
    | none => none

def replaced : Nat → Bytes → List Char
  | 0, _ => []
  | _, [] => []
  | fuel + 1, bs =>
    match head? bs with
    | some (c, n) => c :: replaced fuel (bs.drop n)
    | none => '\uFFFD' :: replaced fuel (bs.drop (max 1 (damagedLength bs)))

/-- The text of the bytes, with every damaged sequence replaced. -/
def ofBytes (bs : Bytes) : String :=
  match ofBytes? bs with
  | some s => s
  | none => String.ofList (replaced bs.length bs)

theorem ofBytes_bytes (s : String) : ofBytes (bytes s) = s := by
  rw [ofBytes, ofBytes?_bytes]

end Quarry.Text
