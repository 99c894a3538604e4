import CodingGateway.Model.ConfigLoad
import CodingGateway.Model.Crypto
set_option autoImplicit false

/-!
# Reading the key (`crypto_parse_key`)

The key is written as 64 hexadecimal digits; each pair of characters goes through
`sscanf` with the format `"%02x"`.
-/

namespace CodingGateway.Model

/-- The value of a hexadecimal digit. -/
def hexVal (c : UInt8) : Option ℕ :=
  if 48 ≤ c ∧ c ≤ 57 then some (c.toNat - 48)
  else if 97 ≤ c ∧ c ≤ 102 then some (c.toNat - 87)
  else if 65 ≤ c ∧ c ≤ 70 then some (c.toNat - 55)
  else none

def isHexDigit (c : UInt8) : Bool := (hexVal c).isSome

/-- The number that hexadecimal digits denote. -/
def hexNumber (digits : List UInt8) : ℕ :=
  digits.foldl (fun n c => 16 * n + (hexVal c).getD 0) 0

/-- `sscanf` with the format `%x` and a field width: white space, then at most `width` characters,
which are an optional sign, an optional `0x` and digits; `none` is a matching failure. -/
def sscanfHex (width : ℕ) (s : List UInt8) : Option UInt32 :=
  let item := (s.dropWhile isSpace).take width
  let (negative, item) :=
    match item with
    | [] => (false, [])
    | c :: rest => if c = 43 then (false, rest) else if c = 45 then (true, rest) else (false, item)
  let item :=
    match item with
    | 48 :: x :: rest => if x = 120 ∨ x = 88 then rest else item
    | _ => item
  let digits := item.takeWhile isHexDigit
  if digits.isEmpty then none
  else
    let n := UInt32.ofNat (hexNumber digits)
    some (if negative then -n else n)

/-- The loop of `crypto_parse_key` over the byte indices. -/
def parseKeyLoop (hex : List UInt8) : List ℕ → Bytes → Bool × Bytes
  | [], out => (true, out)
  | i :: is, out =>
      match sscanfHex 2 [hex.getD (2 * i) 0, hex.getD (2 * i + 1) 0] with
      | none => (false, out)
      | some byte => parseKeyLoop hex is (Function.update out i byte.toUInt8)

/-- `crypto_parse_key`; `true` is the return value 0. -/
def cryptoParseKey (hex : List UInt8) (out : Bytes) : Bool × Bytes :=
  if hex.length ≠ cryptoKeyLen * 2 then (false, out)
  else parseKeyLoop hex (List.range cryptoKeyLen) out

end CodingGateway.Model
