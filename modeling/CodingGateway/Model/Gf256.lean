import CodingGateway.Model.Common
set_option autoImplicit false

/-!
# The field tables (`gf256.c`)

`gf256_init` fills a multiplication table by repeated doubling and an inverse
table by search.  A table is the function from its indices to its entries.
-/

namespace CodingGateway.Model

/-- The inner loop of `gf256_init`: `rounds` turns over the bits of `bb`. -/
def peasantRounds : ℕ → UInt8 → UInt8 → UInt8 → UInt8
  | 0, p, _, _ => p
  | rounds + 1, p, aa, bb =>
      let p := if bb &&& 1 ≠ 0 then p ^^^ aa else p
      let hi := aa &&& 0x80
      let aa := aa <<< 1
      let aa := if hi ≠ 0 then aa ^^^ 0x1d else aa
      peasantRounds rounds p aa (bb >>> 1)

/-- `mul_table[a][b]`. -/
def mulTable (a b : UInt8) : UInt8 := peasantRounds 8 0 a b

/-- `inv_table[a]`: the first `b` in `1 .. 255` with product one, zero for `a = 0`. -/
def invTable (a : UInt8) : UInt8 :=
  if a = 0 then 0
  else match (List.range' 1 255).find? (fun b => mulTable a (UInt8.ofNat b) = 1) with
    | some b => UInt8.ofNat b
    | none => 0

def gf256Add (a b : UInt8) : UInt8 := a ^^^ b
def gf256Mul (a b : UInt8) : UInt8 := mulTable a b
def gf256Inv (a : UInt8) : UInt8 := invTable a
def gf256Div (a b : UInt8) : UInt8 := mulTable a (invTable b)

end CodingGateway.Model
