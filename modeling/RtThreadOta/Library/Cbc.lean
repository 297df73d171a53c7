import Mathlib.Data.List.GetD
import Mathlib.Tactic.Basic

/-!
# Cipher block chaining

`decrypt dec k n iv cs` undoes CBC on the first `n` blocks of `k` bytes of `cs` and returns the
plaintext with the chaining value for the next block, so a long ciphertext may be decrypted in
pieces: `decrypt_add` says that the pieces give what one call on the whole gives.
-/

namespace Cbc

/-- Bytewise exclusive or. -/
def xorBytes (xs ys : List UInt8) : List UInt8 := List.zipWith (· ^^^ ·) xs ys

/-- CBC decryption of `n` blocks of `k` bytes; also the chaining value after them. -/
def decrypt (dec : List UInt8 → List UInt8) (k : ℕ) :
    ℕ → List UInt8 → List UInt8 → List UInt8 × List UInt8
  | 0, iv, _ => ([], iv)
  | n + 1, iv, cs =>
    (xorBytes (dec (cs.take k)) iv ++ (decrypt dec k n (cs.take k) (cs.drop k)).1,
      (decrypt dec k n (cs.take k) (cs.drop k)).2)

/-- CBC encryption of `n` blocks of `k` bytes; also the chaining value after them. -/
def encrypt (enc : List UInt8 → List UInt8) (k : ℕ) :
    ℕ → List UInt8 → List UInt8 → List UInt8 × List UInt8
  | 0, iv, _ => ([], iv)
  | n + 1, iv, ps =>
    let c := enc (xorBytes (ps.take k) iv)
    (c ++ (encrypt enc k n c (ps.drop k)).1, (encrypt enc k n c (ps.drop k)).2)

variable {dec enc : List UInt8 → List UInt8} {k : ℕ}

@[simp] theorem xorBytes_length (xs ys : List UInt8) :
    (xorBytes xs ys).length = min xs.length ys.length := List.length_zipWith

/-- The key stream cancels. -/
theorem xorBytes_cancel {xs ys : List UInt8} (h : xs.length = ys.length) :
    xorBytes (xorBytes xs ys) ys = xs := by
  refine List.ext_getElem (by simp [h]) fun i _ _ => ?_
  simp only [xorBytes, List.getElem_zipWith, UInt8.xor_assoc, UInt8.xor_self, UInt8.xor_zero]

/-- Chaining values are blocks. -/
theorem decrypt_snd_length (n : ℕ) {iv cs : List UInt8} (hiv : iv.length = k)
    (hcs : n * k ≤ cs.length) : (decrypt dec k n iv cs).2.length = k := by
  induction n generalizing iv cs with
  | zero => exact hiv
  | succ n ih =>
    rw [Nat.succ_mul] at hcs
    exact ih (by rw [List.length_take]; omega) (by rw [List.length_drop]; omega)

/-- `n` blocks in, `n` blocks out. -/
theorem decrypt_fst_length (hdec : ∀ b, (dec b).length = k) (n : ℕ) {iv cs : List UInt8}
    (hiv : iv.length = k) (hcs : n * k ≤ cs.length) :
    (decrypt dec k n iv cs).1.length = n * k := by
  induction n generalizing iv cs with
  | zero => simp [decrypt]
  | succ n ih =>
    rw [Nat.succ_mul] at hcs ⊢
    rw [decrypt, List.length_append, xorBytes_length, hdec, hiv,
      ih (by rw [List.length_take]; omega) (by rw [List.length_drop]; omega)]
    omega

/-- Decrypting in two calls, the chaining value carried over, is decrypting in one. -/
theorem decrypt_add (m n : ℕ) (iv cs : List UInt8) :
    decrypt dec k (m + n) iv cs =
      ((decrypt dec k m iv cs).1 ++
          (decrypt dec k n (decrypt dec k m iv cs).2 (cs.drop (m * k))).1,
        (decrypt dec k n (decrypt dec k m iv cs).2 (cs.drop (m * k))).2) := by
  induction m generalizing iv cs with
  | zero => simp [decrypt]
  | succ m ih =>
    have hd : (cs.drop k).drop (m * k) = cs.drop ((m + 1) * k) := by
      rw [List.drop_drop, Nat.succ_mul, Nat.add_comm]
    rw [Nat.add_right_comm, decrypt, ih, decrypt, hd]
    simp only [List.append_assoc]

/-- Only the blocks asked for matter. -/
theorem decrypt_take (n : ℕ) (iv cs : List UInt8) {j : ℕ} (h : n * k ≤ j) :
    decrypt dec k n iv (cs.take j) = decrypt dec k n iv cs := by
  induction n generalizing iv cs j with
  | zero => rfl
  | succ n ih =>
    rw [Nat.succ_mul] at h
    have ht : (cs.take j).take k = cs.take k := by rw [List.take_take, Nat.min_eq_left (by omega)]
    have hd : (cs.take j).drop k = (cs.drop k).take (j - k) := by rw [List.drop_take]
    rw [decrypt, decrypt, ht, hd, ih _ _ (by omega)]

theorem encrypt_fst_length (henc : ∀ b, (enc b).length = k) (n : ℕ) (iv ps : List UInt8) :
    (encrypt enc k n iv ps).1.length = n * k := by
  induction n generalizing iv ps with
  | zero => simp [encrypt]
  | succ n ih => rw [encrypt, List.length_append, henc, ih, Nat.succ_mul, Nat.add_comm]

/-- Decryption undoes encryption when the block functions are inverse on blocks. -/
theorem decrypt_encrypt (henc : ∀ b, (enc b).length = k)
    (hinv : ∀ b, b.length = k → dec (enc b) = b) (n : ℕ) {iv ps : List UInt8}
    (hiv : iv.length = k) (hps : ps.length = n * k) :
    (decrypt dec k n iv (encrypt enc k n iv ps).1).1 = ps := by
  induction n generalizing iv ps with
  | zero => simp [decrypt, List.eq_nil_of_length_eq_zero (hps.trans (Nat.zero_mul k))]
  | succ n ih =>
    rw [Nat.succ_mul] at hps
    have hx : (xorBytes (ps.take k) iv).length = k := by
      rw [xorBytes_length, List.length_take, hiv]
      omega
    have hd : (ps.drop k).length = n * k := by rw [List.length_drop]; omega
    simp only [encrypt, decrypt]
    rw [List.take_left' (henc _), List.drop_left' (henc _), hinv _ hx, ih (henc _) hd,
      xorBytes_cancel (by rw [List.length_take, hiv]; omega), List.take_append_drop]

end Cbc
