import Quarry.Text.Bytes

namespace Quarry.Json

open Text

/-- Why a text is not JSON. -/
inductive Fault where
  | trailingCharacters
  | endOfInput
  | missingComma (close : Char)
  | missingName
  | missingColon
  | tooDeep (limit : Nat)
  | unexpectedByte (b : UInt8)
  | invalidLiteral
  | invalidNumber
  | missingFraction
  | missingExponent
  | unterminatedString
  | controlCharacter
  | unknownEscape (b : UInt8)
  | unterminatedEscape
  | invalidEscape
  | unpairedSurrogate
  | invalidLowSurrogate
  | invalidUtf8
  | emptyDocument
deriving Repr, DecidableEq

def Fault.message : Fault → String
  | .trailingCharacters => "unexpected trailing characters"
  | .endOfInput => "unexpected end of input"
  | .missingComma close => "expected ',' or '" ++ close.toString ++ "'"
  | .missingName => "expected member name"
  | .missingColon => "expected ':' after member name"
  | .tooDeep limit => s!"nesting exceeds maximum depth {limit}"
  | .unexpectedByte b => "unexpected character '" ++ (charOfByte b).toString ++ "'"
  | .invalidLiteral => "invalid literal"
  | .invalidNumber => "invalid number"
  | .missingFraction => "expected digit after '.'"
  | .missingExponent => "expected digit in exponent"
  | .unterminatedString => "unterminated string"
  | .controlCharacter => "control character in string"
  | .unknownEscape b => "invalid escape sequence '\\" ++ (charOfByte b).toString ++ "'"
  | .unterminatedEscape => "unterminated unicode escape"
  | .invalidEscape => "invalid unicode escape"
  | .unpairedSurrogate => "unpaired surrogate in unicode escape"
  | .invalidLowSurrogate => "invalid low surrogate in unicode escape"
  | .invalidUtf8 => "invalid UTF-8 in string"
  | .emptyDocument => "empty document"

/-- A fault and the offset at which it was noticed. -/
structure ReadError where
  fault : Fault
  position : Nat
deriving Repr, DecidableEq

def ReadError.message (e : ReadError) : String := s!"{e.fault.message} at position {e.position}"

/-- The bytes still to be read, and the offset of the first of them. -/
structure Cursor where
  rest : Bytes
  position : Nat
deriving Repr, DecidableEq

/-- What a scanner answers: a value or a fault, and where it stopped. -/
abbrev Scan (α : Type) := Except Fault α × Cursor

namespace Cursor

def start (input : Bytes) : Cursor := ⟨input, 0⟩

def drop (n : Nat) (c : Cursor) : Cursor := ⟨c.rest.drop n, c.position + min n c.rest.length⟩

def next (c : Cursor) : Cursor := c.drop 1

/-- Past the longest run of bytes that satisfy `p`. -/
def dropWhile (p : UInt8 → Bool) (c : Cursor) : Cursor :=
  ⟨c.rest.dropWhile p, c.position + (c.rest.takeWhile p).length⟩

/-- The bytes between an earlier cursor and this one. -/
def since (c earlier : Cursor) : Bytes := earlier.rest.take (c.position - earlier.position)

def startsWith (b : UInt8) (c : Cursor) : Bool := c.rest.head? == some b

def isSpace (b : UInt8) : Bool :=
  b == byte ' ' || b == byte '\t' || b == byte '\n' || b == byte '\r'

def skipSpace (c : Cursor) : Cursor := c.dropWhile isSpace

theorem next_cons (b : UInt8) (bs : Bytes) (p : Nat) : next ⟨b :: bs, p⟩ = ⟨bs, p + 1⟩ := by
  simp [next, drop]

end Cursor

/-! ### Numbers -/

def onDigit (c : Cursor) : Bool := c.rest.head?.any isDigitByte

def skipDigits (c : Cursor) : Cursor := c.dropWhile isDigitByte

/-- Digits that have to be there. -/
def scanDigits (fault : Fault) (c : Cursor) : Scan Unit :=
  if onDigit c then (.ok (), skipDigits c) else (.error fault, c)

/-- No leading zero before further digits. -/
def scanWhole (c : Cursor) : Scan Unit :=
  if c.startsWith (byte '0') then (.ok (), c.next) else scanDigits .invalidNumber c

def scanFraction (c : Cursor) : Scan Bool :=
  if c.startsWith (byte '.') then
    match scanDigits .missingFraction c.next with
    | (.ok _, c) => (.ok true, c)
    | (.error e, c) => (.error e, c)
  else (.ok false, c)

def scanExponent (c : Cursor) : Scan Bool :=
  if c.startsWith (byte 'e') || c.startsWith (byte 'E') then
    let c := c.next
    let c := if c.startsWith (byte '+') || c.startsWith (byte '-') then c.next else c
    match scanDigits .missingExponent c with
    | (.ok _, c) => (.ok true, c)
    | (.error e, c) => (.error e, c)
  else (.ok false, c)

/-- The text of a number, and whether it is an integer. -/
def scanNumber (c : Cursor) : Scan (String × Bool) :=
  let signed := if c.startsWith (byte '-') then c.next else c
  match scanWhole signed with
  | (.error e, stop) => (.error e, stop)
  | (.ok _, stop) =>
    match scanFraction stop with
    | (.error e, stop) => (.error e, stop)
    | (.ok fraction, stop) =>
      match scanExponent stop with
      | (.error e, stop) => (.error e, stop)
      | (.ok exponent, stop) =>
        (.ok (String.ofList ((stop.since c).map charOfByte), !fraction && !exponent), stop)

/-! ### Strings -/

def hexValue? (b : UInt8) : Option Nat :=
  if isDigitByte b then some (b.toNat - 48)
  else if byte 'a' ≤ b && b ≤ byte 'f' then some (b.toNat - 87)
  else if byte 'A' ≤ b && b ≤ byte 'F' then some (b.toNat - 55)
  else none

def hexNumber? (bs : Bytes) : Option Nat :=
  bs.foldlM (fun n b => (hexValue? b).map (16 * n + ·)) 0

/-- Four hexadecimal digits; the first may be a plus sign instead. -/
def hex4? (a b c d : UInt8) : Option Nat :=
  if a = byte '+' then hexNumber? [b, c, d] else hexNumber? [a, b, c, d]

def simpleEscape? (b : UInt8) : Option Char :=
  if b = byte '"' then some '"'
  else if b = byte '\\' then some '\\'
  else if b = byte '/' then some '/'
  else if b = byte 'b' then some '\x08'
  else if b = byte 'f' then some '\x0c'
  else if b = byte 'n' then some '\n'
  else if b = byte 'r' then some '\r'
  else if b = byte 't' then some '\t'
  else none

def isHighSurrogate (n : Nat) : Bool := 0xD800 ≤ n && n < 0xDC00

def isLowSurrogate (n : Nat) : Bool := 0xDC00 ≤ n && n < 0xE000

def ofSurrogates (high low : Nat) : Char :=
  Char.ofNat (0x10000 + (high - 0xD800) * 1024 + (low - 0xDC00))

/-- The bytes of a string's contents up to its closing quote; `read` holds those before, reversed. -/
def scanChars : Bytes → Nat → Bytes → Scan Bytes
  | [], p, _ => (.error .unterminatedString, ⟨[], p⟩)
  | b :: bs, p, read =>
    if b = byte '"' then (.ok read.reverse, ⟨bs, p + 1⟩)
    else if b = byte '\\' then
      match bs with
      | [] => (.error .unterminatedString, ⟨[], p + 1⟩)
      | e :: bs =>
        if e = byte 'u' then
          match bs with
          | h1 :: h2 :: h3 :: h4 :: bs =>
            match hex4? h1 h2 h3 h4 with
            | none => (.error .invalidEscape, ⟨h1 :: h2 :: h3 :: h4 :: bs, p + 2⟩)
            | some high =>
              if isHighSurrogate high then
                match bs with
                | s :: u :: bs =>
                  if s = byte '\\' ∧ u = byte 'u' then
                    match bs with
                    | l1 :: l2 :: l3 :: l4 :: bs =>
                      match hex4? l1 l2 l3 l4 with
                      | none => (.error .invalidEscape, ⟨l1 :: l2 :: l3 :: l4 :: bs, p + 8⟩)
                      | some low =>
                        if isLowSurrogate low then
                          scanChars bs (p + 12)
                            ((bytes (ofSurrogates high low).toString).reverse ++ read)
                        else (.error .invalidLowSurrogate, ⟨bs, p + 12⟩)
                    | bs => (.error .unterminatedEscape, ⟨bs, p + 8⟩)
                  else (.error .unpairedSurrogate, ⟨s :: u :: bs, p + 6⟩)
                | bs => (.error .unpairedSurrogate, ⟨bs, p + 6⟩)
              else if isLowSurrogate high then (.error .invalidEscape, ⟨bs, p + 6⟩)
              else scanChars bs (p + 6) ((bytes (Char.ofNat high).toString).reverse ++ read)
          | bs => (.error .unterminatedEscape, ⟨bs, p + 2⟩)
        else
          match simpleEscape? e with
          | some c => scanChars bs (p + 2) ((bytes c.toString).reverse ++ read)
          | none => (.error (.unknownEscape e), ⟨bs, p + 2⟩)
    else if b < 0x20 then (.error .controlCharacter, ⟨bs, p + 1⟩)
    else scanChars bs (p + 1) (b :: read)

/-- A string from its opening quote on. -/
def scanString (c : Cursor) : Scan String :=
  match scanChars c.next.rest c.next.position [] with
  | (.error e, stop) => (.error e, stop)
  | (.ok bs, stop) =>
    match ofBytes? bs with
    | some s => (.ok s, stop)
    | none => (.error .invalidUtf8, stop)

end Quarry.Json
