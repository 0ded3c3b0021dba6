import Quarry.Json.Value
import Quarry.Numeral.Reading

namespace Quarry.Json

/-- Why a text gave no value: it ended too early, is malformed, or has the wrong shape. -/
inductive DecodeError where
  | ended
  | malformed
  | misshapen
deriving Repr, DecidableEq

def DecodeError.message : DecodeError → String
  | .ended => "JSON ends too early"
  | .malformed => "malformed JSON"
  | .misshapen => "JSON of an unexpected shape"

namespace Parser

/-- What a parser answers: a value and the text after it. -/
abbrev Parse (α : Type) := Except DecodeError (α × List Char)

/-- How strictly values are read. -/
structure Rules where
  /-- How many containers may be open at once. -/
  depth : Nat
  /-- Whether the value of a number counts: then it has to be in range, and the text may end too
  early for it. A number that does not count is malformed wherever it breaks off. -/
  numbers : Bool
  /-- Whether surrogates have to come in pairs. -/
  pairs : Bool

def strict : Rules := ⟨127, true, true⟩

/-- For values that are passed over. -/
def lenient (cs : List Char) : Rules := ⟨cs.length, false, false⟩

def Rules.inside (r : Rules) : Rules := { r with depth := r.depth - 1 }

/-! ### Characters -/

def isSpace (c : Char) : Bool := c == ' ' || c == '\n' || c == '\t' || c == '\r'

def skipSpace (cs : List Char) : List Char := cs.dropWhile isSpace

/-- The text after a word. -/
def word : List Char → List Char → Except DecodeError (List Char)
  | [], cs => .ok cs
  | _ :: _, [] => .error .ended
  | w :: ws, c :: cs => if w = c then word ws cs else .error .malformed

/-- The text after a mark, which spaces may precede. -/
def mark (m : Char) (cs : List Char) : Except DecodeError (List Char) :=
  match skipSpace cs with
  | [] => .error .ended
  | c :: cs => if c = m then .ok cs else .error .malformed

/-! ### Numbers -/

/-- Digits that have to be there. -/
def digits (cs : List Char) : Parse (List Char) :=
  match cs.span Char.isDigit with
  | ([], []) => .error .ended
  | ([], _ :: _) => .error .malformed
  | (ds, rest) => .ok (ds, rest)

/-- The digits before the point, without a leading zero. -/
def whole : List Char → Parse (List Char)
  | '0' :: c :: cs => if c.isDigit then .error .malformed else .ok (['0'], c :: cs)
  | cs => digits cs

/-- The digits after the point, if there is one. -/
def fraction : List Char → Parse (Option (List Char))
  | '.' :: cs => (digits cs).map fun (ds, rest) => (some ds, rest)
  | cs => .ok (none, cs)

/-- The exponent, if there is one. -/
def exponent : List Char → Parse (Option Int)
  | [] => .ok (none, [])
  | c :: cs =>
    if c = 'e' ∨ c = 'E' then
      let (negative, cs) := Numeral.signOf cs
      (digits cs).map fun (ds, rest) =>
        let n : Int := Numeral.natOfDigits ds
        (some (if negative then -n else n), rest)
    else .ok (none, c :: cs)

/-- The number of the given parts; an integer beyond 64 bits and minus zero are floating point. -/
def makeNumber (negative : Bool) (whole : List Char) (frac : Option (List Char))
    (exp : Option Int) : Number :=
  let float := Number.float (Numeral.withSign negative
    (Numeral.ofParts whole (frac.getD []) (exp.getD 0)))
  let n := Numeral.natOfDigits whole
  match frac, exp with
  | none, none =>
    if negative then (if n = 0 ∨ 9223372036854775808 < n then float else .int (-n))
    else if n < UInt64.size then .int n
    else float
  | _, _ => float

def Number.inRange : Number → Bool
  | .int _ => true
  | .float x => !x.isInf

/-- The longest number that the text starts with. -/
def anyNumber (cs : List Char) : Except DecodeError (Number × List Char) := do
  let (negative, cs) := match cs with
    | '-' :: cs => (true, cs)
    | cs => (false, cs)
  let (ds, cs) ← whole cs
  let (frac, cs) ← fraction cs
  let (exp, cs) ← exponent cs
  return (makeNumber negative ds frac exp, cs)

def number (r : Rules) (cs : List Char) : Parse Number :=
  match anyNumber cs with
  | .ok (n, rest) => if r.numbers && !Number.inRange n then .error .malformed else .ok (n, rest)
  | .error e => .error (if r.numbers then e else .malformed)

/-! ### Strings -/

def hexValue? (c : Char) : Option Nat :=
  if c.isDigit then some (c.toNat - 48)
  else if 'a' ≤ c && c ≤ 'f' then some (c.toNat - 87)
  else if 'A' ≤ c && c ≤ 'F' then some (c.toNat - 55)
  else none

def hex4? (a b c d : Char) : Option Nat := do
  return ((((← hexValue? a) * 16 + (← hexValue? b)) * 16 + (← hexValue? c)) * 16 + (← hexValue? d))

/-- Fewer than four characters are damaged digits if they still take four bytes. -/
def shortHex (cs : List Char) : DecodeError :=
  if 4 ≤ (String.ofList cs).utf8ByteSize then .malformed else .ended

def simpleEscape? (c : Char) : Option Char :=
  if c = '"' ∨ c = '\\' ∨ c = '/' then some c
  else if c = 'b' then some '\x08'
  else if c = 'f' then some '\x0c'
  else if c = 'n' then some '\n'
  else if c = 'r' then some '\r'
  else if c = 't' then some '\t'
  else none

/-- A string's contents up to its closing quote; `read` holds those before, reversed. -/
def stringChars (r : Rules) : List Char → List Char → Parse String
  | [], _ => .error .ended
  | c :: cs, read =>
    if c = '"' then .ok (String.ofList read.reverse, cs)
    else if c = '\\' then
      match cs with
      | [] => .error .ended
      | e :: cs =>
        if e = 'u' then
          match cs with
          | h1 :: h2 :: h3 :: h4 :: cs =>
            match hex4? h1 h2 h3 h4 with
            | none => .error .malformed
            | some high =>
              if !r.pairs || high < 0xD800 || 0xE000 ≤ high then
                stringChars r cs (Char.ofNat high :: read)
              else if 0xDC00 ≤ high then .error .malformed
              else
                match cs with
                | [] => .error .ended
                | ['\\'] => .error .ended
                | '\\' :: 'u' :: l1 :: l2 :: l3 :: l4 :: cs =>
                  match hex4? l1 l2 l3 l4 with
                  | none => .error .malformed
                  | some low =>
                    if 0xDC00 ≤ low && low < 0xE000 then
                      let c := Char.ofNat (0x10000 + (high - 0xD800) * 1024 + (low - 0xDC00))
                      stringChars r cs (c :: read)
                    else .error .malformed
                | '\\' :: 'u' :: cs => .error (shortHex cs)
                | _ => .error .malformed
          | cs => .error (shortHex cs)
        else
          match simpleEscape? e with
          | some c => stringChars r cs (c :: read)
          | none => .error .malformed
    else if c.toNat < 0x20 then .error .malformed
    else stringChars r cs (c :: read)

/-- The name of a member. -/
def key (r : Rules) (cs : List Char) : Except DecodeError (String × List Char) := do
  let cs ← mark '"' cs
  stringChars r cs []

/-- The name of a member and its colon. -/
def name (r : Rules) (cs : List Char) : Except DecodeError (String × List Char) := do
  let (k, cs) ← key r cs
  let cs ← mark ':' cs
  return (k, cs)

/-! ### Values -/

/-- Reads a value and nothing else of what follows it. -/
def scalar (r : Rules) (c : Char) (cs : List Char) : Parse Value :=
  if c = 'n' then (word "ull".toList cs).map fun cs => (.null, cs)
  else if c = 't' then (word "rue".toList cs).map fun cs => (.bool true, cs)
  else if c = 'f' then (word "alse".toList cs).map fun cs => (.bool false, cs)
  else if c = '"' then (stringChars r cs []).map fun (s, cs) => (.string s, cs)
  else if c = '-' || c.isDigit then (number r (c :: cs)).map fun (n, cs) => (.number n, cs)
  else .error .malformed

/-- A value in a place where containers have the wrong shape. -/
def leaf (r : Rules) (cs : List Char) : Parse Value :=
  match skipSpace cs with
  | [] => .error .ended
  | c :: cs => if c = '[' ∨ c = '\x7b' then .error .misshapen else scalar r c cs

mutual

def value (r : Rules) : Nat → List Char → Parse Value
  | 0, _ => .error .ended
  | fuel + 1, cs =>
    match skipSpace cs with
    | [] => .error .ended
    | c :: cs =>
      if c = '[' then
        if r.depth = 0 then .error .malformed
        else (items r.inside fuel false cs).map fun (vs, cs) => (.array vs, cs)
      else if c = '\x7b' then
        if r.depth = 0 then .error .malformed
        else (members r.inside fuel false cs).map fun (ms, cs) => (.object ms, cs)
      else scalar r c cs

/-- The elements of an array up to its end; all but the first are led by a comma. -/
def items (r : Rules) : Nat → Bool → List Char → Except DecodeError (List Value × List Char)
  | 0, _, _ => .error .ended
  | fuel + 1, started, cs =>
    match skipSpace cs with
    | [] => .error .ended
    | c :: cs =>
      if c = ']' then .ok ([], cs)
      else if started && c != ',' then .error .malformed
      else do
        let (v, cs) ← value r fuel (if started then cs else c :: cs)
        let (vs, cs) ← items r fuel true cs
        return (v :: vs, cs)

/-- The members of an object up to its end; all but the first are led by a comma. -/
def members (r : Rules) :
    Nat → Bool → List Char → Except DecodeError (List (String × Value) × List Char)
  | 0, _, _ => .error .ended
  | fuel + 1, started, cs =>
    match skipSpace cs with
    | [] => .error .ended
    | c :: cs =>
      if c = '\x7d' then .ok ([], cs)
      else if started && c != ',' then .error .malformed
      else do
        let (k, cs) ← name r (if started then cs else c :: cs)
        let (v, cs) ← value r fuel cs
        let (ms, cs) ← members r fuel true cs
        return ((k, v) :: ms, cs)

end

def fuelFor (cs : List Char) : Nat := 2 * cs.length + 2

def readValue (cs : List Char) : Parse Value := value strict (fuelFor cs) cs

def skipValue (cs : List Char) : Parse Value := value (lenient cs) (fuelFor cs) cs

/-- Only spaces may follow what was read. -/
def complete {α : Type} (p : Parse α) : Except DecodeError α := do
  let (a, cs) ← p
  if (skipSpace cs).isEmpty then return a else .error .malformed

end Parser

/-- Reads the one value that a text holds. -/
def Value.parse (text : String) : Except DecodeError Value :=
  Parser.complete (Parser.readValue text.toList)

/-- Reads a value and sorts its objects. -/
def Value.read (text : String) : Except DecodeError Value := (Value.parse text).map Value.canonical

end Quarry.Json
