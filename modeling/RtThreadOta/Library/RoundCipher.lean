import Mathlib.Tactic.Common

/-!
# Ciphers of keyed rounds

A block is mixed with a key, then each round substitutes, mixes the places of the block and adds the
next key; the last round leaves the mixing out. The mixing is additive, so it may be moved past the
addition of a key, and decryption can go through the same steps in the same order with inverse tables,
on keys that were unmixed beforehand (`decrypt_encrypt`).
-/

/-- A substitution and an additive mixing, with inverses, over an addition that undoes itself. -/
structure RoundCipher (α : Type*) where
  add : α → α → α
  sub : α → α
  isub : α → α
  mix : α → α
  imix : α → α
  add_cancel : ∀ x k, add (add x k) k = x
  isub_sub : ∀ x, isub (sub x) = x
  imix_mix : ∀ x, imix (mix x) = x
  imix_add : ∀ x k, imix (add x k) = add (imix x) (imix k)

namespace RoundCipher

variable {α : Type*}

/-- `n` steps from step `r` on. -/
def rounds (step : ℕ → α → α) : (n r : ℕ) → α → α
  | 0, _, x => x
  | n + 1, r, x => rounds step n (r + 1) (step r x)

/-- The last step may be taken apart. -/
theorem rounds_succ (step : ℕ → α → α) (n r : ℕ) (x : α) :
    rounds step (n + 1) r x = step (r + n) (rounds step n r x) := by
  induction n generalizing r x with
  | zero => rfl
  | succ n ih =>
    have hr : r + 1 + n = r + (n + 1) := by omega
    rw [rounds, ih, rounds, hr]

theorem rounds_congr {step step' : ℕ → α → α} {n r : ℕ} (h : ∀ i < n, step (r + i) = step' (r + i))
    (x : α) : rounds step n r x = rounds step' n r x := by
  induction n generalizing r x with
  | zero => rfl
  | succ n ih =>
    have hfirst : step r = step' r := h 0 (Nat.succ_pos n)
    rw [rounds, rounds, hfirst]
    refine ih (fun i hi => ?_) _
    have hnext := h (i + 1) (by omega)
    rwa [show r + (i + 1) = r + 1 + i by omega] at hnext

variable (C : RoundCipher α)

/-- An encryption round. -/
def encRound (key : ℕ → α) (r : ℕ) (x : α) : α := C.add (C.mix (C.sub x)) (key r)

/-- A decryption round. -/
def decRound (key : ℕ → α) (r : ℕ) (x : α) : α := C.add (C.imix (C.isub x)) (key r)

/-- Encryption with `n` full rounds and a last one. -/
def encrypt (key : ℕ → α) (n : ℕ) (x : α) : α :=
  C.add (C.sub (rounds (C.encRound key) n 1 (C.add x (key 0)))) (key (n + 1))

/-- Decryption with `n` full rounds and a last one. -/
def decrypt (key : ℕ → α) (n : ℕ) (x : α) : α :=
  C.add (C.isub (rounds (C.decRound key) n 1 (C.add x (key 0)))) (key (n + 1))

/-- The keys of decryption are those of encryption the other way round, unmixed but for the first and
the last. -/
structure DecKeys (key dkey : ℕ → α) (n : ℕ) : Prop where
  first : dkey 0 = key (n + 1)
  middle : ∀ r, 0 < r → r ≤ n → dkey r = C.imix (key (n + 1 - r))
  last : dkey (n + 1) = key 0

variable {C} {key dkey : ℕ → α} {n : ℕ}

/-- A decryption round undoes what an encryption round did between two substitutions. -/
theorem decRound_encRound {r s : ℕ} (hkey : dkey s = C.imix (key r)) (x : α) :
    C.decRound dkey s (C.sub (C.encRound key r x)) = C.sub x := by
  rw [decRound, C.isub_sub, encRound, C.imix_add, C.imix_mix, hkey, C.add_cancel]

/-- After `m` rounds decryption stands where encryption stood `m` rounds before its end. -/
theorem decrypt_rounds (hkeys : C.DecKeys key dkey n) (x : α) {m : ℕ} (hm : m ≤ n) :
    rounds (C.decRound dkey) m 1 (C.sub (rounds (C.encRound key) n 1 x)) =
      C.sub (rounds (C.encRound key) (n - m) 1 x) := by
  induction m with
  | zero => rfl
  | succ m ih =>
    obtain ⟨k, hk⟩ : ∃ k, n - m = k + 1 := ⟨n - m - 1, by omega⟩
    have hkey : dkey (1 + m) = C.imix (key (1 + k)) := by
      rw [hkeys.middle (1 + m) (by omega) (by omega)]
      congr 2
      omega
    rw [rounds_succ, ih (by omega), hk, rounds_succ, decRound_encRound hkey,
      show n - (m + 1) = k by omega]

/-- **Decryption undoes encryption.** -/
theorem decrypt_encrypt (hkeys : C.DecKeys key dkey n) (x : α) :
    C.decrypt dkey n (C.encrypt key n x) = x := by
  rw [decrypt, encrypt, hkeys.first, C.add_cancel, decrypt_rounds hkeys _ (Nat.le_refl n),
    Nat.sub_self, rounds, C.isub_sub, hkeys.last, C.add_cancel]

end RoundCipher
