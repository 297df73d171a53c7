import Mathlib.Data.Int.Notation
import RtThreadOta.Aes.Tables
import RtThreadOta.Library.Cbc

/-!
# The AES of TinyCrypt (`tiny_aes.c`)

Key schedules, the block cipher in table form, and its CBC and CFB modes. `RK` is a position in the list
of round keys.
-/

namespace RtThreadOta

namespace TinyAes

/-- `( w >> s ) & 0xFF` -/
def byteOf (w s : UInt32) : UInt8 := (w >>> s).toUInt8

/-- `GET_ULONG_LE` -/
def getUlongLe (b : List UInt8) (i : ℕ) : UInt32 :=
  (b.getD i 0).toUInt32 ||| (b.getD (i + 1) 0).toUInt32 <<< 8 |||
    (b.getD (i + 2) 0).toUInt32 <<< 16 ||| (b.getD (i + 3) 0).toUInt32 <<< 24

/-- `PUT_ULONG_LE` -/
def putUlongLe (n : UInt32) : List UInt8 := [byteOf n 0, byteOf n 8, byteOf n 16, byteOf n 24]

/-! ## Key schedules -/

/-- `tiny_aes_context` -/
structure TinyAesContext where
  nr : ℕ
  rk : List UInt32

/-- The words of the key: `keysize >> 5` of them. -/
def keyWords (key : List UInt8) (n : ℕ) : List UInt32 :=
  (List.range n).map fun i => getUlongLe key (i <<< 2)

/-- The substituted bytes of `w`, rotated. -/
def subRot (w : UInt32) : UInt32 :=
  (fsb (byteOf w 8)).toUInt32 ^^^ (fsb (byteOf w 16)).toUInt32 <<< 8 ^^^
    (fsb (byteOf w 24)).toUInt32 <<< 16 ^^^ (fsb (byteOf w 0)).toUInt32 <<< 24

/-- The substituted bytes of `w`. -/
def subWord (w : UInt32) : UInt32 :=
  (fsb (byteOf w 0)).toUInt32 ^^^ (fsb (byteOf w 8)).toUInt32 <<< 8 ^^^
    (fsb (byteOf w 16)).toUInt32 <<< 16 ^^^ (fsb (byteOf w 24)).toUInt32 <<< 24

/-- The loop body of `case 10`. -/
def expand10 (buf : List UInt32) (i : ℕ) : List UInt32 :=
  let rk := fun j => buf.getD (4 * i + j) 0
  let rk4 := rk 0 ^^^ rcon i ^^^ subRot (rk 3)
  let rk5 := rk 1 ^^^ rk4
  let rk6 := rk 2 ^^^ rk5
  let rk7 := rk 3 ^^^ rk6
  buf ++ [rk4, rk5, rk6, rk7]

/-- The loop body of `case 12`. -/
def expand12 (buf : List UInt32) (i : ℕ) : List UInt32 :=
  let rk := fun j => buf.getD (6 * i + j) 0
  let rk6 := rk 0 ^^^ rcon i ^^^ subRot (rk 5)
  let rk7 := rk 1 ^^^ rk6
  let rk8 := rk 2 ^^^ rk7
  let rk9 := rk 3 ^^^ rk8
  let rk10 := rk 4 ^^^ rk9
  let rk11 := rk 5 ^^^ rk10
  buf ++ [rk6, rk7, rk8, rk9, rk10, rk11]

/-- The loop body of `case 14`. -/
def expand14 (buf : List UInt32) (i : ℕ) : List UInt32 :=
  let rk := fun j => buf.getD (8 * i + j) 0
  let rk8 := rk 0 ^^^ rcon i ^^^ subRot (rk 7)
  let rk9 := rk 1 ^^^ rk8
  let rk10 := rk 2 ^^^ rk9
  let rk11 := rk 3 ^^^ rk10
  let rk12 := rk 4 ^^^ subWord rk11
  let rk13 := rk 5 ^^^ rk12
  let rk14 := rk 6 ^^^ rk13
  let rk15 := rk 7 ^^^ rk14
  buf ++ [rk8, rk9, rk10, rk11, rk12, rk13, rk14, rk15]

/-- `tiny_aes_setkey_enc`, which leaves the context alone for any other key size. -/
def tinyAesSetkeyEnc (ctx : TinyAesContext) (key : List UInt8) (keysize : ℕ) : TinyAesContext :=
  let words := keyWords key (keysize >>> 5)
  if keysize = 128 then ⟨10, (List.range 10).foldl expand10 words⟩
  else if keysize = 192 then ⟨12, (List.range 8).foldl expand12 words⟩
  else if keysize = 256 then ⟨14, (List.range 7).foldl expand14 words⟩
  else ctx

/-- `RT0[FSb[…]] ^ …`, what decryption makes of a word of the encryption key. -/
def unmixWord (w : UInt32) : UInt32 :=
  rt0 (fsb (byteOf w 0)) ^^^ rt1 (fsb (byteOf w 8)) ^^^ rt2 (fsb (byteOf w 16)) ^^^
    rt3 (fsb (byteOf w 24))

/-- The four words at a position. -/
def fourWords (sk : List UInt32) (p : ℕ) : List UInt32 :=
  [sk.getD p 0, sk.getD (p + 1) 0, sk.getD (p + 2) 0, sk.getD (p + 3) 0]

/-- `for (i = ctx->nr - 1, …; i > 0; i--, …)`, downwards through the encryption key. -/
def unmixLoop (sk : List UInt32) : (i : ℕ) → List UInt32
  | 0 => []
  | i + 1 => (fourWords sk (4 * (i + 1))).map unmixWord ++ unmixLoop sk i

/-- `tiny_aes_setkey_dec` -/
def tinyAesSetkeyDec (ctx : TinyAesContext) (key : List UInt8) (keysize : ℕ) : TinyAesContext :=
  if keysize = 128 ∨ keysize = 192 ∨ keysize = 256 then
    let cty := tinyAesSetkeyEnc ⟨0, []⟩ key keysize
    ⟨cty.nr, fourWords cty.rk (cty.nr * 4) ++ unmixLoop cty.rk (cty.nr - 1) ++ fourWords cty.rk 0⟩
  else ctx

/-! ## The block cipher -/

/-- `X0`, `X1`, `X2`, `X3` -/
@[ext]
structure Block where
  x0 : UInt32
  x1 : UInt32
  x2 : UInt32
  x3 : UInt32
deriving DecidableEq, Repr

section Rounds

variable (rk : List UInt32)

/-- `AES_FROUND` -/
def aesFround (p : ℕ) (y : Block) : Block where
  x0 := rk.getD p 0 ^^^ ft0 (byteOf y.x0 0) ^^^ ft1 (byteOf y.x1 8) ^^^ ft2 (byteOf y.x2 16) ^^^
    ft3 (byteOf y.x3 24)
  x1 := rk.getD (p + 1) 0 ^^^ ft0 (byteOf y.x1 0) ^^^ ft1 (byteOf y.x2 8) ^^^
    ft2 (byteOf y.x3 16) ^^^ ft3 (byteOf y.x0 24)
  x2 := rk.getD (p + 2) 0 ^^^ ft0 (byteOf y.x2 0) ^^^ ft1 (byteOf y.x3 8) ^^^
    ft2 (byteOf y.x0 16) ^^^ ft3 (byteOf y.x1 24)
  x3 := rk.getD (p + 3) 0 ^^^ ft0 (byteOf y.x3 0) ^^^ ft1 (byteOf y.x0 8) ^^^
    ft2 (byteOf y.x1 16) ^^^ ft3 (byteOf y.x2 24)

/-- `AES_RROUND` -/
def aesRround (p : ℕ) (y : Block) : Block where
  x0 := rk.getD p 0 ^^^ rt0 (byteOf y.x0 0) ^^^ rt1 (byteOf y.x3 8) ^^^ rt2 (byteOf y.x2 16) ^^^
    rt3 (byteOf y.x1 24)
  x1 := rk.getD (p + 1) 0 ^^^ rt0 (byteOf y.x1 0) ^^^ rt1 (byteOf y.x0 8) ^^^
    rt2 (byteOf y.x3 16) ^^^ rt3 (byteOf y.x2 24)
  x2 := rk.getD (p + 2) 0 ^^^ rt0 (byteOf y.x2 0) ^^^ rt1 (byteOf y.x1 8) ^^^
    rt2 (byteOf y.x0 16) ^^^ rt3 (byteOf y.x3 24)
  x3 := rk.getD (p + 3) 0 ^^^ rt0 (byteOf y.x3 0) ^^^ rt1 (byteOf y.x2 8) ^^^
    rt2 (byteOf y.x1 16) ^^^ rt3 (byteOf y.x0 24)

/-- The last round of encryption. -/
def aesFlast (p : ℕ) (y : Block) : Block where
  x0 := rk.getD p 0 ^^^ (fsb (byteOf y.x0 0)).toUInt32 ^^^ (fsb (byteOf y.x1 8)).toUInt32 <<< 8 ^^^
    (fsb (byteOf y.x2 16)).toUInt32 <<< 16 ^^^ (fsb (byteOf y.x3 24)).toUInt32 <<< 24
  x1 := rk.getD (p + 1) 0 ^^^ (fsb (byteOf y.x1 0)).toUInt32 ^^^
    (fsb (byteOf y.x2 8)).toUInt32 <<< 8 ^^^ (fsb (byteOf y.x3 16)).toUInt32 <<< 16 ^^^
    (fsb (byteOf y.x0 24)).toUInt32 <<< 24
  x2 := rk.getD (p + 2) 0 ^^^ (fsb (byteOf y.x2 0)).toUInt32 ^^^
    (fsb (byteOf y.x3 8)).toUInt32 <<< 8 ^^^ (fsb (byteOf y.x0 16)).toUInt32 <<< 16 ^^^
    (fsb (byteOf y.x1 24)).toUInt32 <<< 24
  x3 := rk.getD (p + 3) 0 ^^^ (fsb (byteOf y.x3 0)).toUInt32 ^^^
    (fsb (byteOf y.x0 8)).toUInt32 <<< 8 ^^^ (fsb (byteOf y.x1 16)).toUInt32 <<< 16 ^^^
    (fsb (byteOf y.x2 24)).toUInt32 <<< 24

/-- The last round of decryption. -/
def aesRlast (p : ℕ) (y : Block) : Block where
  x0 := rk.getD p 0 ^^^ (rsb (byteOf y.x0 0)).toUInt32 ^^^ (rsb (byteOf y.x3 8)).toUInt32 <<< 8 ^^^
    (rsb (byteOf y.x2 16)).toUInt32 <<< 16 ^^^ (rsb (byteOf y.x1 24)).toUInt32 <<< 24
  x1 := rk.getD (p + 1) 0 ^^^ (rsb (byteOf y.x1 0)).toUInt32 ^^^
    (rsb (byteOf y.x0 8)).toUInt32 <<< 8 ^^^ (rsb (byteOf y.x3 16)).toUInt32 <<< 16 ^^^
    (rsb (byteOf y.x2 24)).toUInt32 <<< 24
  x2 := rk.getD (p + 2) 0 ^^^ (rsb (byteOf y.x2 0)).toUInt32 ^^^
    (rsb (byteOf y.x1 8)).toUInt32 <<< 8 ^^^ (rsb (byteOf y.x0 16)).toUInt32 <<< 16 ^^^
    (rsb (byteOf y.x3 24)).toUInt32 <<< 24
  x3 := rk.getD (p + 3) 0 ^^^ (rsb (byteOf y.x3 0)).toUInt32 ^^^
    (rsb (byteOf y.x2 8)).toUInt32 <<< 8 ^^^ (rsb (byteOf y.x1 16)).toUInt32 <<< 16 ^^^
    (rsb (byteOf y.x0 24)).toUInt32 <<< 24

end Rounds

/-- `for (i = (ctx->nr >> 1) - 1; i > 0; i--)`, two rounds each time. -/
def aesLoop (round : ℕ → Block → Block) : (i p : ℕ) → Block → Block
  | 0, _, x => x
  | i + 1, p, x => aesLoop round i (p + 8) (round (p + 4) (round p x))

/-- The loop, one round more and the last one. -/
def aesRounds (round last : ℕ → Block → Block) (nr : ℕ) (x : Block) : Block :=
  let i := (nr >>> 1) - 1
  last (8 + 8 * i) (round (4 + 8 * i) (aesLoop round i 4 x))

/-- `AES_ENCRYPT` and `AES_DECRYPT` -/
inductive Mode where
  | encrypt
  | decrypt
deriving DecidableEq, Repr

/-- `tiny_aes_crypt_ecb` -/
def tinyAesCryptEcb (ctx : TinyAesContext) (mode : Mode) (input : List UInt8) : List UInt8 :=
  let x : Block := ⟨getUlongLe input 0 ^^^ ctx.rk.getD 0 0, getUlongLe input 4 ^^^ ctx.rk.getD 1 0,
    getUlongLe input 8 ^^^ ctx.rk.getD 2 0, getUlongLe input 12 ^^^ ctx.rk.getD 3 0⟩
  let x :=
    match mode with
    | .decrypt => aesRounds (aesRround ctx.rk) (aesRlast ctx.rk) ctx.nr x
    | .encrypt => aesRounds (aesFround ctx.rk) (aesFlast ctx.rk) ctx.nr x
  putUlongLe x.x0 ++ putUlongLe x.x1 ++ putUlongLe x.x2 ++ putUlongLe x.x3

/-! ## Modes of operation -/

/-- `tiny_aes_crypt_cbc`: the output and the new `iv`. Each round takes 16 off the length, so the length
is fuel enough. -/
def cbcLoop (ctx : TinyAesContext) (mode : Mode) :
    (fuel : ℕ) → (length : ℤ) → (iv input : List UInt8) → List UInt8 × List UInt8
  | 0, _, iv, _ => ([], iv)
  | fuel + 1, length, iv, input =>
    if 0 < length then
      match mode with
      | .decrypt =>
        let temp := input.take 16
        let output := Cbc.xorBytes (tinyAesCryptEcb ctx .decrypt temp) iv
        let rest := cbcLoop ctx mode fuel (length - 16) temp (input.drop 16)
        (output ++ rest.1, rest.2)
      | .encrypt =>
        let output := tinyAesCryptEcb ctx .encrypt (Cbc.xorBytes (input.take 16) iv)
        let rest := cbcLoop ctx mode fuel (length - 16) output (input.drop 16)
        (output ++ rest.1, rest.2)
    else ([], iv)

def tinyAesCryptCbc (ctx : TinyAesContext) (mode : Mode) (length : ℤ) (iv input : List UInt8) :
    List UInt8 × List UInt8 :=
  cbcLoop ctx mode length.toNat length iv input

/-- `tiny_aes_crypt_cfb128`: the output, the new `n` and the new `iv`. -/
def tinyAesCryptCfb128 (ctx : TinyAesContext) (mode : Mode) :
    (input : List UInt8) → (n : ℕ) → (iv : List UInt8) → List UInt8 × ℕ × List UInt8
  | [], n, iv => ([], n, iv)
  | c :: input, n, iv =>
    let iv := if n = 0 then tinyAesCryptEcb ctx .encrypt iv else iv
    let out := iv.getD n 0 ^^^ c
    -- the byte of the ciphertext is kept
    let iv := iv.set n (if mode = .decrypt then c else out)
    let rest := tinyAesCryptCfb128 ctx mode input ((n + 1) &&& 0x0F) iv
    (out :: rest.1, rest.2)

end TinyAes

end RtThreadOta
