import RtThreadOta.Aes.Mixing
import RtThreadOta.Library.RoundCipher

/-!
# TinyCrypt decrypts what it encrypted

The macros of `tiny_aes.c` are the rounds of a `RoundCipher` on four words, `tiny_aes_setkey_dec` makes
its decryption keys, so `tiny_aes_crypt_ecb` undoes itself for every key of the three sizes. The CBC and
CFB modes follow.
-/

namespace RtThreadOta

namespace TinyAes

/-! ## The cipher -/

/-- Substitute the bytes and shift the rows. -/
def subShift (f : UInt8 → UInt8) (y : Block) : Block where
  x0 := word (f (byteOf y.x0 0)) (f (byteOf y.x1 8)) (f (byteOf y.x2 16)) (f (byteOf y.x3 24))
  x1 := word (f (byteOf y.x1 0)) (f (byteOf y.x2 8)) (f (byteOf y.x3 16)) (f (byteOf y.x0 24))
  x2 := word (f (byteOf y.x2 0)) (f (byteOf y.x3 8)) (f (byteOf y.x0 16)) (f (byteOf y.x1 24))
  x3 := word (f (byteOf y.x3 0)) (f (byteOf y.x0 8)) (f (byteOf y.x1 16)) (f (byteOf y.x2 24))

/-- Substitute the bytes and shift the rows back. -/
def subUnshift (f : UInt8 → UInt8) (y : Block) : Block where
  x0 := word (f (byteOf y.x0 0)) (f (byteOf y.x3 8)) (f (byteOf y.x2 16)) (f (byteOf y.x1 24))
  x1 := word (f (byteOf y.x1 0)) (f (byteOf y.x0 8)) (f (byteOf y.x3 16)) (f (byteOf y.x2 24))
  x2 := word (f (byteOf y.x2 0)) (f (byteOf y.x1 8)) (f (byteOf y.x0 16)) (f (byteOf y.x3 24))
  x3 := word (f (byteOf y.x3 0)) (f (byteOf y.x2 8)) (f (byteOf y.x1 16)) (f (byteOf y.x0 24))

/-- A function of words on each word. -/
def Block.map (f : UInt32 → UInt32) (y : Block) : Block := ⟨f y.x0, f y.x1, f y.x2, f y.x3⟩

def Block.xor (y z : Block) : Block := ⟨y.x0 ^^^ z.x0, y.x1 ^^^ z.x1, y.x2 ^^^ z.x2, y.x3 ^^^ z.x3⟩

/-- Shifting back undoes shifting. -/
theorem subUnshift_subShift {f g : UInt8 → UInt8} (h : ∀ x, g (f x) = x) (y : Block) :
    subUnshift g (subShift f y) = y := by
  refine Block.ext ?_ ?_ ?_ ?_ <;> simp only [subUnshift, subShift, byteOf_word_0, byteOf_word_8, byteOf_word_16,
    byteOf_word_24, h, word_byteOf]

/-- The cipher of the tables. -/
def tinyCipher : RoundCipher Block where
  add := Block.xor
  sub := subShift fsb
  isub := subUnshift rsb
  mix := Block.map mixWord
  imix := Block.map unmixWord
  add_cancel x k := by
    simp only [Block.xor, UInt32.xor_assoc, UInt32.xor_self, UInt32.xor_zero]
  isub_sub := subUnshift_subShift rsb_fsb
  imix_mix x := by
    simp only [Block.map, unmixWord_mixWord]
  imix_add x k := by
    simp only [Block.map, Block.xor, unmixWord_xor]

/-- The round key at a position of the list. -/
def keyAt (rk : List UInt32) (p : ℕ) : Block :=
  ⟨rk.getD p 0, rk.getD (p + 1) 0, rk.getD (p + 2) 0, rk.getD (p + 3) 0⟩

/-- Round key number `r`. -/
def roundKey (rk : List UInt32) (r : ℕ) : Block := keyAt rk (4 * r)

theorem mixWord_word (a b c d : UInt8) : mixWord (word (fsb a) (fsb b) (fsb c) (fsb d)) =
    ft0 a ^^^ ft1 b ^^^ ft2 c ^^^ ft3 d := by
  simp only [mixWord, spread, byteOf_word_0, byteOf_word_8, byteOf_word_16, byteOf_word_24, mixByte,
    rsb_fsb, ft1, ft2, ft3]

theorem unmixWord_word (a b c d : UInt8) : unmixWord (word (rsb a) (rsb b) (rsb c) (rsb d)) =
    rt0 a ^^^ rt1 b ^^^ rt2 c ^^^ rt3 d := by
  simp only [unmixWord, byteOf_word_0, byteOf_word_8, byteOf_word_16, byteOf_word_24, fsb_rsb]

section Rounds

variable (rk : List UInt32) (p r : ℕ) (y : Block)

/-- A key that is added in front. -/
private theorem key_xor (k a b c d : UInt32) :
    k ^^^ a ^^^ b ^^^ c ^^^ d = a ^^^ b ^^^ c ^^^ d ^^^ k := by
  ac_rfl

theorem aesFround_eq : aesFround rk (4 * r) y = tinyCipher.encRound (roundKey rk) r y := by
  refine Block.ext ?_ ?_ ?_ ?_ <;> simp only [aesFround, RoundCipher.encRound, tinyCipher, Block.xor,
    Block.map, subShift, mixWord_word, roundKey, keyAt] <;> exact key_xor ..

theorem aesRround_eq : aesRround rk (4 * r) y = tinyCipher.decRound (roundKey rk) r y := by
  refine Block.ext ?_ ?_ ?_ ?_ <;> simp only [aesRround, RoundCipher.decRound, tinyCipher, Block.xor,
    Block.map, subUnshift, unmixWord_word, roundKey, keyAt] <;> exact key_xor ..

theorem aesFlast_eq : aesFlast rk p y = (subShift fsb y).xor (keyAt rk p) := by
  refine Block.ext ?_ ?_ ?_ ?_ <;> exact key_xor ..

theorem aesRlast_eq : aesRlast rk p y = (subUnshift rsb y).xor (keyAt rk p) := by
  refine Block.ext ?_ ?_ ?_ ?_ <;> exact key_xor ..

end Rounds

/-- The loop goes through two rounds each time. -/
theorem aesLoop_eq (round : ℕ → Block → Block) (i r : ℕ) (x : Block) :
    aesLoop round i (4 * r) x = RoundCipher.rounds (fun r => round (4 * r)) (2 * i) r x := by
  induction i generalizing r x with
  | zero => rfl
  | succ i ih =>
    have hnext : 4 * r + 8 = 4 * (r + 1 + 1) := by omega
    rw [aesLoop, hnext, ih]
    rfl

/-- The loop and the round behind it are all full rounds, when `nr` is even. -/
theorem aesRounds_eq (round last : ℕ → Block → Block) {n : ℕ} (hn : n % 2 = 1) (x : Block) :
    aesRounds round last (n + 1) x =
      last (4 * (n + 1)) (RoundCipher.rounds (fun r => round (4 * r)) n 1 x) := by
  obtain ⟨i, rfl⟩ : ∃ i, n = 2 * i + 1 := ⟨n / 2, by omega⟩
  have hhalf : ((2 * i + 1 + 1) >>> 1) - 1 = i := by
    rw [Nat.shiftRight_eq_div_pow]
    omega
  have hloop := aesLoop_eq round i 1 x
  rw [Nat.mul_one] at hloop
  have hlast : 8 + 8 * i = 4 * (2 * i + 1 + 1) := by omega
  have hround : 4 + 8 * i = 4 * (1 + 2 * i) := by omega
  rw [aesRounds, hhalf, hloop, RoundCipher.rounds_succ, hlast, hround]

/-! ## Blocks as bytes -/

/-- The block in the bytes. -/
def load (input : List UInt8) : Block :=
  ⟨getUlongLe input 0, getUlongLe input 4, getUlongLe input 8, getUlongLe input 12⟩

/-- The bytes of the block. -/
def store (x : Block) : List UInt8 :=
  putUlongLe x.x0 ++ putUlongLe x.x1 ++ putUlongLe x.x2 ++ putUlongLe x.x3

@[simp] theorem store_length (x : Block) : (store x).length = 16 := rfl

theorem getUlongLe_eq (b : List UInt8) (i : ℕ) : getUlongLe b i =
    word (b.getD i 0) (b.getD (i + 1) 0) (b.getD (i + 2) 0) (b.getD (i + 3) 0) := or_word ..

theorem load_store (x : Block) : load (store x) = x := by
  simp only [load, getUlongLe_eq]
  exact Block.ext (word_byteOf _) (word_byteOf _) (word_byteOf _) (word_byteOf _)

theorem store_load {block : List UInt8} (h : block.length = 16) : store (load block) = block := by
  have hbytes : (List.range 16).map (fun i => block.getD i 0) = block := by
    refine List.ext_getElem (by rw [List.length_map, List.length_range, h]) fun i _ hi => ?_
    rw [List.getElem_map, List.getElem_range, List.getD_eq_getElem _ _ hi]
  simp only [store, load, getUlongLe_eq, putUlongLe, byteOf_word_0, byteOf_word_8, byteOf_word_16,
    byteOf_word_24]
  exact hbytes

theorem tinyAesCryptEcb_encrypt (ctx : TinyAesContext) {n : ℕ} (hnr : ctx.nr = n + 1)
    (hn : n % 2 = 1) (input : List UInt8) : tinyAesCryptEcb ctx .encrypt input =
      store (tinyCipher.encrypt (roundKey ctx.rk) n (load input)) := by
  have hrounds := aesRounds_eq (aesFround ctx.rk) (aesFlast ctx.rk) hn
    ((load input).xor (roundKey ctx.rk 0))
  rw [aesFlast_eq] at hrounds
  have hstep : (fun r => aesFround ctx.rk (4 * r)) = tinyCipher.encRound (roundKey ctx.rk) := by
    funext r y
    exact aesFround_eq ctx.rk r y
  rw [hstep] at hrounds
  show store (aesRounds _ _ ctx.nr _) = _
  rw [hnr]
  exact congrArg store hrounds

theorem tinyAesCryptEcb_decrypt (ctx : TinyAesContext) {n : ℕ} (hnr : ctx.nr = n + 1)
    (hn : n % 2 = 1) (input : List UInt8) : tinyAesCryptEcb ctx .decrypt input =
      store (tinyCipher.decrypt (roundKey ctx.rk) n (load input)) := by
  have hrounds := aesRounds_eq (aesRround ctx.rk) (aesRlast ctx.rk) hn
    ((load input).xor (roundKey ctx.rk 0))
  rw [aesRlast_eq] at hrounds
  have hstep : (fun r => aesRround ctx.rk (4 * r)) = tinyCipher.decRound (roundKey ctx.rk) := by
    funext r y
    exact aesRround_eq ctx.rk r y
  rw [hstep] at hrounds
  show store (aesRounds _ _ ctx.nr _) = _
  rw [hnr]
  exact congrArg store hrounds

/-- The words of a round key. -/
def Block.words (y : Block) : List UInt32 := [y.x0, y.x1, y.x2, y.x3]

/-- A list of round keys is read back key by key. -/
theorem roundKey_flatMap {ks : List Block} {r : ℕ} (hr : r < ks.length) :
    roundKey (ks.flatMap Block.words) r = ks[r] := by
  induction ks generalizing r with
  | nil => exact absurd hr (Nat.not_lt_zero r)
  | cons k ks ih =>
    cases r with
    | zero => rfl
    | succ r =>
      rw [List.getElem_cons_succ, ← ih (Nat.lt_of_succ_lt_succ hr)]
      -- four words further on
      have hnext : ∀ j, (List.flatMap Block.words (k :: ks)).getD (4 * (r + 1) + j) 0 =
          (ks.flatMap Block.words).getD (4 * r + j) 0 := by
        intro j
        rw [show 4 * (r + 1) + j = 4 * r + j + 1 + 1 + 1 + 1 by omega]
        rfl
      exact Block.ext (hnext 0) (hnext 1) (hnext 2) (hnext 3)

/-- The loop of `tiny_aes_setkey_dec` unmixes the round keys from the last but one downwards. -/
theorem unmixLoop_eq (sk : List UInt32) (n : ℕ) : unmixLoop sk n =
    ((List.range n).map fun i => (roundKey sk (n - i)).map unmixWord).flatMap Block.words := by
  induction n with
  | zero => rfl
  | succ n ih =>
    have hshift : ∀ i ∈ List.range n, (roundKey sk (n - i)).map unmixWord =
        (roundKey sk (n + 1 - (i + 1))).map unmixWord := by
      intro i _
      rw [Nat.add_sub_add_right]
    rw [unmixLoop, ih, List.range_succ_eq_map, List.map_cons, List.flatMap_cons, List.map_map,
      List.map_congr_left hshift]
    rfl

/-- The round keys of decryption. -/
def decRoundKeys (sk : List UInt32) (n : ℕ) : List Block :=
  roundKey sk (n + 1) :: (((List.range n).map fun i => (roundKey sk (n - i)).map unmixWord) ++
    [roundKey sk 0])

theorem decRoundKeys_flatMap (sk : List UInt32) (n : ℕ) :
    fourWords sk ((n + 1) * 4) ++ unmixLoop sk n ++ fourWords sk 0 =
      (decRoundKeys sk n).flatMap Block.words := by
  rw [decRoundKeys, List.flatMap_cons, List.flatMap_append, ← unmixLoop_eq, List.append_assoc,
    Nat.mul_comm]
  rfl

/-- They are what decryption needs. -/
theorem decKeys (sk : List UInt32) (n : ℕ) : tinyCipher.DecKeys (roundKey sk)
    (roundKey ((decRoundKeys sk n).flatMap Block.words)) n := by
  have hlen : (decRoundKeys sk n).length = n + 2 := by
    rw [decRoundKeys, List.length_cons, List.length_append, List.length_map, List.length_range]
    rfl
  constructor
  · rw [roundKey_flatMap (by omega)]
    rfl
  · intro r hpos hr
    obtain ⟨r, rfl⟩ : ∃ k, r = k + 1 := ⟨r - 1, by omega⟩
    have hlt : r < ((List.range n).map fun i => (roundKey sk (n - i)).map unmixWord).length := by
      rw [List.length_map, List.length_range]
      omega
    rw [roundKey_flatMap (by omega)]
    simp only [decRoundKeys, List.getElem_cons_succ]
    rw [List.getElem_append_left hlt, List.getElem_map, List.getElem_range, Nat.add_sub_add_right]
    rfl
  · rw [roundKey_flatMap (by omega)]
    simp only [decRoundKeys, List.getElem_cons_succ]
    have hlen : ((List.range n).map fun i => (roundKey sk (n - i)).map unmixWord).length = n := by
      rw [List.length_map, List.length_range]
    rw [List.getElem_append_right (Nat.le_of_eq hlen)]
    simp only [List.length_map, List.length_range, Nat.sub_self, List.getElem_cons_zero]

/-- The key sizes that are not refused. -/
def KeySize (keysize : ℕ) : Prop := keysize = 128 ∨ keysize = 192 ∨ keysize = 256

/-- A key size sets the number of rounds, an even one. -/
theorem setkeyEnc_nr {keysize : ℕ} (h : KeySize keysize) (ctx : TinyAesContext) (key : List UInt8) :
    ∃ n, n % 2 = 1 ∧ (tinyAesSetkeyEnc ctx key keysize).nr = n + 1 := by
  obtain rfl | rfl | rfl := h
  · exact ⟨9, rfl, rfl⟩
  · exact ⟨11, rfl, rfl⟩
  · exact ⟨13, rfl, rfl⟩

/-- The context that was passed in is overwritten. -/
theorem setkeyEnc_ctx {keysize : ℕ} (h : KeySize keysize) (ctx ctx' : TinyAesContext)
    (key : List UInt8) : tinyAesSetkeyEnc ctx key keysize = tinyAesSetkeyEnc ctx' key keysize := by
  obtain rfl | rfl | rfl := h <;> rfl

/-- **`tiny_aes_crypt_ecb` undoes itself**, under any key of the three sizes. -/
theorem decrypt_encrypt {keysize : ℕ} (h : KeySize keysize) (ctx ctx' : TinyAesContext)
    (key : List UInt8) {block : List UInt8} (hblock : block.length = 16) :
    tinyAesCryptEcb (tinyAesSetkeyDec ctx key keysize) .decrypt
      (tinyAesCryptEcb (tinyAesSetkeyEnc ctx' key keysize) .encrypt block) = block := by
  obtain ⟨n, hn, hnr⟩ := setkeyEnc_nr h ⟨0, []⟩ key
  have hdec : tinyAesSetkeyDec ctx key keysize = ⟨n + 1, (decRoundKeys
      (tinyAesSetkeyEnc ⟨0, []⟩ key keysize).rk n).flatMap Block.words⟩ := by
    have hsize : keysize = 128 ∨ keysize = 192 ∨ keysize = 256 := h
    rw [tinyAesSetkeyDec, if_pos hsize]
    dsimp only
    rw [hnr, Nat.add_sub_cancel, decRoundKeys_flatMap]
  rw [setkeyEnc_ctx h ctx' ⟨0, []⟩, tinyAesCryptEcb_encrypt _ hnr hn, hdec,
    tinyAesCryptEcb_decrypt _ rfl hn, load_store, RoundCipher.decrypt_encrypt (decKeys _ n),
    store_load hblock]

/-! ## Modes of operation -/

/-- The number of blocks that `tiny_aes_crypt_cbc` goes through. -/
def cbcBlocks (length : ℤ) : ℕ := ((length + 15) / 16).toNat

theorem cbcBlocks_of_pos {length : ℤ} (h : 0 < length) :
    cbcBlocks length = cbcBlocks (length - 16) + 1 := by
  unfold cbcBlocks
  omega

theorem cbcBlocks_of_nonpos {length : ℤ} (h : ¬ 0 < length) : cbcBlocks length = 0 := by
  unfold cbcBlocks
  omega

@[simp] theorem cbcBlocks_mul (n : ℕ) : cbcBlocks (16 * n) = n := by
  unfold cbcBlocks
  omega

/-- The chaining of the library with this block cipher. -/
def chained (ctx : TinyAesContext) :
    Mode → ℕ → List UInt8 → List UInt8 → List UInt8 × List UInt8
  | .decrypt => Cbc.decrypt (tinyAesCryptEcb ctx .decrypt) 16
  | .encrypt => Cbc.encrypt (tinyAesCryptEcb ctx .encrypt) 16

/-- **CBC is that of the library**, a block that is begun being taken whole. -/
theorem tinyAesCryptCbc_eq (ctx : TinyAesContext) (mode : Mode) (length : ℤ)
    (iv input : List UInt8) : tinyAesCryptCbc ctx mode length iv input =
      chained ctx mode (cbcBlocks length) iv input := by
  have hloop : ∀ (fuel : ℕ) (length : ℤ) (iv input : List UInt8), length ≤ fuel →
      cbcLoop ctx mode fuel length iv input = chained ctx mode (cbcBlocks length) iv input := by
    intro fuel
    induction fuel with
    | zero =>
      intro length iv input hle
      rw [cbcBlocks_of_nonpos (by omega)]
      cases mode <;> rfl
    | succ fuel ih =>
      intro length iv input hle
      unfold cbcLoop
      by_cases hpos : 0 < length
      · rw [if_pos hpos, cbcBlocks_of_pos hpos]
        cases mode with
        | decrypt =>
          dsimp only
          rw [ih _ _ _ (by omega)]
          rfl
        | encrypt =>
          dsimp only
          rw [ih _ _ _ (by omega)]
          rfl
      · rw [if_neg hpos, cbcBlocks_of_nonpos hpos]
        cases mode <;> rfl
  exact hloop _ _ _ _ (Int.self_le_toNat length)

/-- Calls on pieces of so many blocks, each with the `iv` that the one before it leaves. -/
def cbcPieces (ctx : TinyAesContext) (mode : Mode) : List ℕ → (iv input : List UInt8) → List UInt8
  | [], _, _ => []
  | n :: ns, iv, input =>
    let r := tinyAesCryptCbc ctx mode (16 * n) iv input
    r.1 ++ cbcPieces ctx mode ns r.2 (input.drop (16 * n))

/-- Pieces are decrypted as the whole. -/
theorem cbcPieces_decrypt (ctx : TinyAesContext) (ns : List ℕ) (iv input : List UInt8) :
    cbcPieces ctx .decrypt ns iv input =
      (Cbc.decrypt (tinyAesCryptEcb ctx .decrypt) 16 ns.sum iv input).1 := by
  induction ns generalizing iv input with
  | nil => rfl
  | cons n ns ih =>
    rw [cbcPieces, tinyAesCryptCbc_eq, cbcBlocks_mul, ih, List.sum_cons, Cbc.decrypt_add, Nat.mul_comm n]
    rfl

/-- **CBC round trip**: what was encrypted in one call is decrypted in any pieces of whole blocks. -/
theorem tinyAesCryptCbc_roundTrip {keysize : ℕ} (h : KeySize keysize) (ctx ctx' : TinyAesContext)
    (key : List UInt8) {iv input : List UInt8} (hiv : iv.length = 16) (ns : List ℕ)
    (hinput : input.length = 16 * ns.sum) :
    cbcPieces (tinyAesSetkeyDec ctx key keysize) .decrypt ns iv
      (tinyAesCryptCbc (tinyAesSetkeyEnc ctx' key keysize) .encrypt input.length iv input).1 =
        input := by
  have hcipher : (tinyAesCryptCbc (tinyAesSetkeyEnc ctx' key keysize) .encrypt input.length iv
      input).1 = (Cbc.encrypt (tinyAesCryptEcb (tinyAesSetkeyEnc ctx' key keysize) .encrypt) 16 ns.sum
        iv input).1 := by
    have hcast : ((16 * ns.sum : ℕ) : ℤ) = 16 * (ns.sum : ℕ) := by omega
    rw [tinyAesCryptCbc_eq, hinput, hcast, cbcBlocks_mul]
    rfl
  rw [cbcPieces_decrypt, hcipher]
  exact Cbc.decrypt_encrypt (k := 16) (fun _ => rfl) (fun b hb => decrypt_encrypt h ctx ctx' key hb)
    ns.sum hiv (by omega)

/-- Three blocks under a key of 256 bits, decrypted as one and two. -/
theorem tinyAesCryptCbc_roundTrip_three :
    cbcPieces (tinyAesSetkeyDec ⟨0, []⟩ (List.replicate 32 1) 256) .decrypt [1, 2]
        (List.replicate 16 2)
        (tinyAesCryptCbc (tinyAesSetkeyEnc ⟨0, []⟩ (List.replicate 32 1) 256) .encrypt
          (List.replicate 48 (3 : UInt8)).length (List.replicate 16 2) (List.replicate 48 3)).1 =
      List.replicate 48 3 :=
  tinyAesCryptCbc_roundTrip (Or.inr (Or.inr rfl)) _ _ _ List.length_replicate [1, 2]
    List.length_replicate

/-- CFB goes on where it stopped. -/
theorem tinyAesCryptCfb128_append (ctx : TinyAesContext) (mode : Mode) (us vs : List UInt8) (n : ℕ)
    (iv : List UInt8) : tinyAesCryptCfb128 ctx mode (us ++ vs) n iv =
      ((tinyAesCryptCfb128 ctx mode us n iv).1 ++
          (tinyAesCryptCfb128 ctx mode vs (tinyAesCryptCfb128 ctx mode us n iv).2.1
            (tinyAesCryptCfb128 ctx mode us n iv).2.2).1,
        (tinyAesCryptCfb128 ctx mode vs (tinyAesCryptCfb128 ctx mode us n iv).2.1
          (tinyAesCryptCfb128 ctx mode us n iv).2.2).2) := by
  induction us generalizing n iv with
  | nil => rfl
  | cons u us ih =>
    rw [List.cons_append, tinyAesCryptCfb128, ih]
    rfl

/-- Decryption goes through the states of encryption. -/
theorem tinyAesCryptCfb128_decrypt_encrypt (ctx : TinyAesContext) (input : List UInt8) (n : ℕ)
    (iv : List UInt8) :
    tinyAesCryptCfb128 ctx .decrypt (tinyAesCryptCfb128 ctx .encrypt input n iv).1 n iv =
      (input, (tinyAesCryptCfb128 ctx .encrypt input n iv).2) := by
  induction input generalizing n iv with
  | nil => rfl
  | cons c input ih =>
    rw [tinyAesCryptCfb128]
    dsimp only
    rw [tinyAesCryptCfb128]
    simp only [if_true, reduceCtorEq, if_false, ih, ← UInt8.xor_assoc, UInt8.xor_self, UInt8.zero_xor]

/-- Calls on pieces, each with the offset and the `iv` that the one before it leaves. -/
def cfbPieces (ctx : TinyAesContext) (mode : Mode) :
    List (List UInt8) → (n : ℕ) → (iv : List UInt8) → List (List UInt8)
  | [], _, _ => []
  | piece :: pieces, n, iv =>
    let r := tinyAesCryptCfb128 ctx mode piece n iv
    r.1 :: cfbPieces ctx mode pieces r.2.1 r.2.2

/-- Pieces are taken as the whole. -/
theorem cfbPieces_flatten (ctx : TinyAesContext) (mode : Mode) (pieces : List (List UInt8)) (n : ℕ)
    (iv : List UInt8) : (cfbPieces ctx mode pieces n iv).flatten =
      (tinyAesCryptCfb128 ctx mode pieces.flatten n iv).1 := by
  induction pieces generalizing n iv with
  | nil => rfl
  | cons piece pieces ih =>
    rw [cfbPieces, List.flatten_cons, List.flatten_cons, tinyAesCryptCfb128_append, ih]

/-- **CFB round trip**: what was encrypted in any pieces is decrypted in any others. -/
theorem tinyAesCryptCfb128_roundTrip (ctx : TinyAesContext) (n : ℕ) (iv : List UInt8)
    {pieces cut : List (List UInt8)}
    (hcut : cut.flatten = (cfbPieces ctx .encrypt pieces n iv).flatten) :
    (cfbPieces ctx .decrypt cut n iv).flatten = pieces.flatten := by
  rw [cfbPieces_flatten, hcut, cfbPieces_flatten, tinyAesCryptCfb128_decrypt_encrypt]

/-- Bytes encrypted one by one, decrypted together. -/
theorem tinyAesCryptCfb128_roundTrip_bytes :
    (cfbPieces ⟨10, []⟩ .decrypt [(cfbPieces ⟨10, []⟩ .encrypt [[1], [2], [3]] 15
      (List.replicate 16 7)).flatten] 15 (List.replicate 16 7)).flatten =
        [[1], [2], [3]].flatten :=
  tinyAesCryptCfb128_roundTrip _ 15 _ (List.append_nil _)

end TinyAes

end RtThreadOta
