import Mathlib.Data.Nat.Bitwise
import RtThreadOta.Quicklz.Compress

/-!
# QuickLZ blocks as LZ77 tokens

`encodeFrom n ts` are the bytes of the tokens `ts` when `n` of them lie in front of the next control word.
With the bits of these `n` in its control word (`cwordOf`) the decompressor takes one match in a round, or
as many literals as it can tell from the word, and so the whole list (`loop_tokens`).
-/

namespace RtThreadOta

namespace Quicklz

open Words

open Lz77 (Token Leads segment)

variable {mem : ℕ → UInt8} {size p q n pad : ℕ} {t : Token UInt8} {ts : List (Token UInt8)}
  {behind : List UInt8}

/-! ## Tokens as bytes -/

/-- A token as the compressor writes it. -/
def encodeToken : Token UInt8 → List UInt8
  | .lit symbols => symbols
  | .copy len dist => encodeMatch dist len

/-- The bit of a token in its control word. -/
def flag : Token UInt8 → ℕ
  | .lit _ => 0
  | .copy _ _ => 1

/-- The bits of tokens, that of the first one lowest. -/
def flagBits : List (Token UInt8) → ℕ
  | [] => 0
  | t :: ts => flag t + 2 * flagBits ts

/-- Tokens and their control words, when `n` tokens lie in front of the next one. -/
def encodeFrom : (n : ℕ) → List (Token UInt8) → List UInt8
  | _, [] => []
  | 0, t :: ts =>
    encodeLe32 (flagBits ((t :: ts).take 31) + 2 ^ 31) ++ (encodeToken t ++ encodeFrom 30 ts)
  | n + 1, t :: ts => encodeToken t ++ encodeFrom n ts

/-- A match that the compressor may write at `p`. -/
structure Matches (mem : ℕ → UInt8) (size len dist p : ℕ) : Prop where
  len_ge : 3 ≤ len
  len_le : len ≤ 255
  dist_gt : minOffset < dist
  dist_lt : dist < 131071
  dist_le : dist ≤ p
  start : p + unconditionalMatchlen + uncompressedEnd + 1 ≤ size
  stop : p + len + uncompressedEnd ≤ size
  same : ∀ k < len, mem (p + k) = mem (p + k - dist)

/-- The token codes the text from `p` to `q`. -/
def Codes (mem : ℕ → UInt8) (size : ℕ) (t : Token UInt8) (p q : ℕ) : Prop :=
  match t with
  | .lit symbols => symbols = [mem p] ∧ q = p + 1
  | .copy len dist => Matches mem size len dist p ∧ q = p + len

/-! ## Matches are read back -/

private theorem and_mask (n k : ℕ) {mask : ℕ} (h : mask = 2 ^ k - 1) : n &&& mask = n % 2 ^ k := by
  rw [h, Nat.and_two_pow_sub_one_eq_mod]

private theorem and_two_eq_zero (n : ℕ) : n &&& 2 = 0 ↔ n / 2 % 2 = 0 := by
  have hbit := Nat.and_two_pow n 1
  rw [Nat.testBit_eq_decide_div_mod_eq, Nat.pow_one] at hbit
  rw [hbit]
  rcases Nat.mod_two_eq_zero_or_one (n / 2) with h | h
  · simp [h]
  · simp [h]

/-- The formats, in numbers. -/
theorem matchToken_eq (fetch : ℕ) : matchToken fetch =
    if fetch % 4 = 0 then (fetch % 256 / 4, 3, 1)
    else if fetch / 2 % 2 = 0 then (fetch % 65536 / 4, 3, 2)
    else if fetch % 2 = 0 then (fetch % 65536 / 64, fetch / 4 % 16 + 3, 2)
    else if fetch % 128 ≠ 3 then (fetch / 128 % 131072, fetch / 4 % 32 + 2, 3)
    else (fetch / 32768, fetch / 128 % 256 + 3, 4) := by
  unfold matchToken
  simp only [and_two_eq_zero, and_mask _ 2 (rfl : 3 = 2 ^ 2 - 1), and_mask _ 8 (rfl : 0xff = 2 ^ 8 - 1),
    and_mask _ 16 (rfl : 0xffff = 2 ^ 16 - 1), and_mask _ 1 (rfl : 1 = 2 ^ 1 - 1),
    and_mask _ 4 (rfl : 15 = 2 ^ 4 - 1), and_mask _ 7 (rfl : 127 = 2 ^ 7 - 1),
    and_mask _ 17 (rfl : 0x1ffff = 2 ^ 17 - 1), and_mask _ 5 (rfl : 0x1f = 2 ^ 5 - 1),
    Nat.shiftRight_eq_div_pow]
  rfl

/-- Bits below and bits above. -/
private theorem or_shiftLeft {a i : ℕ} (h : a < 2 ^ i) (b : ℕ) : a ||| b <<< i = a + b * 2 ^ i := by
  rw [Nat.or_comm, Nat.shiftLeft_eq, Nat.mul_comm, ← Nat.two_pow_add_eq_or_of_lt h, Nat.add_comm]

/-- What is written, in numbers. -/
theorem encodeMatch_eq {len dist : ℕ} (hmin : 3 ≤ len) (hmax : len ≤ 255) :
    encodeMatch dist len =
      if len = 3 ∧ dist ≤ 63 then fastWrite (dist * 4) 1
      else if len = 3 ∧ dist ≤ 16383 then fastWrite (1 + dist * 4) 2
      else if len ≤ 18 ∧ dist ≤ 1023 then fastWrite (2 + (len - 3) * 4 + dist * 64) 2
      else if len ≤ 33 then fastWrite (3 + (len - 2) * 4 + dist * 128) 3
      else fastWrite (3 + (len - 3) * 128 + dist * 32768) 4 := by
  have hor : ∀ {c a i j : ℕ}, c < 2 ^ i → c + a * 2 ^ i < 2 ^ j →
      a <<< i ||| dist <<< j ||| c = c + a * 2 ^ i + dist * 2 ^ j := by
    intro c a i j hc ha
    rw [Nat.or_comm, ← Nat.or_assoc, or_shiftLeft hc, or_shiftLeft ha]
  unfold encodeMatch
  split
  · rw [Nat.shiftLeft_eq]
  split
  · rw [Nat.or_comm, or_shiftLeft (show 1 < 2 ^ 2 by omega)]
    rfl
  split
  · rename_i hformat
    rw [hor (show 2 < 2 ^ 2 by omega) (show 2 + (len - 3) * 2 ^ 2 < 2 ^ 6 by omega)]
    rfl
  split
  · rename_i hformat
    rw [hor (show 3 < 2 ^ 2 by omega) (show 3 + (len - 2) * 2 ^ 2 < 2 ^ 7 by omega)]
    rfl
  · rw [hor (show 3 < 2 ^ 7 by omega) (show 3 + (len - 3) * 2 ^ 7 < 2 ^ 15 by omega)]
    rfl

/-- What was written is the low part of what is read. -/
theorem le32_fastWrite {f bytes : ℕ} (hf : f < 256 ^ bytes) (hpos : 0 < bytes) (hle : bytes ≤ 4)
    (more : List UInt8) : le32 (fastWrite f bytes ++ more) 0 % 256 ^ bytes = f := by
  have h0 := byteAt_lt more 0
  have h1 := byteAt_lt more 1
  have h2 := byteAt_lt more 2
  obtain rfl | rfl | rfl | rfl : bytes = 1 ∨ bytes = 2 ∨ bytes = 3 ∨ bytes = 4 := by omega
  all_goals
    simp only [fastWrite, encodeLe32, List.take_succ_cons, List.take_zero, le32, byteAt,
      List.cons_append, List.nil_append, List.getD_cons_zero, List.getD_cons_succ, Nat.zero_add,
      UInt8.toNat_ofNat'] at h0 h1 h2 hf ⊢
    omega

theorem fastWrite_length {f bytes : ℕ} (hle : bytes ≤ 4) : (fastWrite f bytes).length = bytes := by
  rw [fastWrite, List.length_take, encodeLe32_length, Nat.min_eq_left hle]

/-- A match is read back, whatever lies behind it. -/
theorem matchToken_encodeMatch {len dist : ℕ} (hmin : 3 ≤ len) (hmax : len ≤ 255)
    (hdist : dist < 131071) (more : List UInt8) :
    matchToken (le32 (encodeMatch dist len ++ more) 0) =
      (dist, len, (encodeMatch dist len).length) := by
  rw [encodeMatch_eq hmin hmax, matchToken_eq]
  split
  · rename_i hformat
    have hlow := le32_fastWrite (show dist * 4 < 256 ^ 1 by omega) Nat.one_pos (by omega) more
    rw [fastWrite_length (by omega), if_pos (by omega), Prod.mk.injEq, Prod.mk.injEq]
    omega
  split
  · rename_i hformat
    have hlow := le32_fastWrite (show 1 + dist * 4 < 256 ^ 2 by omega) Nat.two_pos (by omega) more
    rw [fastWrite_length (by omega), if_neg (by omega), if_pos (by omega), Prod.mk.injEq,
      Prod.mk.injEq]
    omega
  split
  · rename_i hformat
    have hlow := le32_fastWrite (show 2 + (len - 3) * 4 + dist * 64 < 256 ^ 2 by omega) Nat.two_pos
      (by omega) more
    rw [fastWrite_length (by omega), if_neg (by omega), if_neg (by omega), if_pos (by omega),
      Prod.mk.injEq, Prod.mk.injEq]
    omega
  split
  · rename_i hformat
    have hlow := le32_fastWrite (show 3 + (len - 2) * 4 + dist * 128 < 256 ^ 3 by omega)
      (Nat.succ_pos 2) (by omega) more
    rw [fastWrite_length (by omega), if_neg (by omega), if_neg (by omega), if_neg (by omega),
      if_pos (by omega), Prod.mk.injEq, Prod.mk.injEq]
    omega
  · have hlow := le32_fastWrite (show 3 + (len - 3) * 128 + dist * 32768 < 256 ^ 4 by omega)
      (Nat.succ_pos 3) (Nat.le_refl 4) more
    have hlt := le32_lt (fastWrite (3 + (len - 3) * 128 + dist * 32768) 4 ++ more) 0
    rw [fastWrite_length (Nat.le_refl 4), if_neg (by omega), if_neg (by omega), if_neg (by omega),
      if_neg (by omega), Prod.mk.injEq, Prod.mk.injEq]
    omega

theorem encodeMatch_length {len : ℕ} (dist : ℕ) (hmin : 3 ≤ len) (hmax : len ≤ 255) :
    0 < (encodeMatch dist len).length ∧ (encodeMatch dist len).length ≤ len ∧
      (encodeMatch dist len).length ≤ 4 := by
  rw [encodeMatch_eq hmin hmax]
  repeat' split
  all_goals
    rw [fastWrite_length (by omega)]
    omega

/-! ## Control words -/

/-- The control word when `n` of its bits are left, for the tokens in front. -/
def cwordOf (n : ℕ) (ts : List (Token UInt8)) : ℕ := flagBits (ts.take n) + 2 ^ n

@[simp] theorem cwordOf_zero (ts : List (Token UInt8)) : cwordOf 0 ts = 1 := by
  rw [cwordOf, List.take_zero]
  rfl

@[simp] theorem cwordOf_succ (n : ℕ) (t : Token UInt8) (ts : List (Token UInt8)) :
    cwordOf (n + 1) (t :: ts) = flag t + 2 * cwordOf n ts := by
  rw [cwordOf, cwordOf, List.take_succ_cons, flagBits, Nat.pow_succ]
  omega

theorem cwordOf_pos (n : ℕ) (ts : List (Token UInt8)) : 0 < cwordOf n ts :=
  Nat.lt_of_lt_of_le (Nat.two_pow_pos n) (Nat.le_add_left _ _)

theorem flag_le_one (t : Token UInt8) : flag t ≤ 1 := by
  cases t with
  | lit symbols => exact Nat.zero_le 1
  | copy len dist => exact Nat.le_refl 1

/-- A word with bits left is not used up. -/
theorem cwordOf_succ_ne_one (n : ℕ) (t : Token UInt8) (ts : List (Token UInt8)) :
    cwordOf (n + 1) (t :: ts) ≠ 1 := by
  have hpos := cwordOf_pos n ts
  rw [cwordOf_succ]
  omega

/-- The lowest bit is that of the token in front. -/
theorem cwordOf_succ_and_one (n : ℕ) (t : Token UInt8) (ts : List (Token UInt8)) :
    cwordOf (n + 1) (t :: ts) &&& 1 = flag t := by
  have hle := flag_le_one t
  rw [cwordOf_succ, Nat.and_one_is_mod]
  omega

theorem cwordOf_succ_shiftRight (n : ℕ) (t : Token UInt8) (ts : List (Token UInt8)) :
    cwordOf (n + 1) (t :: ts) >>> 1 = cwordOf n ts := by
  have hle := flag_le_one t
  rw [cwordOf_succ, Nat.shiftRight_one]
  omega

theorem flagBits_lt (ts : List (Token UInt8)) : flagBits ts < 2 ^ ts.length := by
  induction ts with
  | nil => exact Nat.one_pos
  | cons t ts ih =>
    have hle := flag_le_one t
    rw [flagBits, List.length_cons, Nat.pow_succ]
    omega

theorem cwordOf_lt (n : ℕ) (ts : List (Token UInt8)) : cwordOf n ts < 2 ^ (n + 1) := by
  have hlt := flagBits_lt (ts.take n)
  have hpow : 2 ^ (ts.take n).length ≤ 2 ^ n :=
    Nat.pow_le_pow_right Nat.two_pos (List.length_take_le n ts)
  rw [cwordOf, Nat.pow_succ]
  omega

/-- No matches, no bits. -/
theorem cwordOf_literals {ts : List (Token UInt8)} (h : ∀ t ∈ ts, flag t = 0) (n : ℕ) :
    cwordOf n ts = 2 ^ n := by
  induction ts generalizing n with
  | nil =>
    rw [cwordOf, List.take_nil]
    exact Nat.zero_add _
  | cons t ts ih =>
    cases n with
    | zero => exact cwordOf_zero _
    | succ n =>
      rw [cwordOf_succ, h t (List.mem_cons_self ..), Nat.zero_add,
        ih (fun u hu => h u (List.mem_cons_of_mem _ hu)), Nat.pow_succ, Nat.mul_comm]

theorem encodeFrom_cons_zero (t : Token UInt8) (ts : List (Token UInt8)) :
    encodeFrom 0 (t :: ts) = encodeLe32 (cwordOf 31 (t :: ts)) ++ encodeFrom 31 (t :: ts) := rfl

/-! ## The tokens of a text -/

theorem Codes.lt (h : Codes mem size t p q) : p < q := by
  cases t with
  | lit symbols =>
    obtain ⟨-, rfl⟩ := h
    exact Nat.lt_succ_self p
  | copy len dist =>
    obtain ⟨hmatch, rfl⟩ := h
    have hlen := hmatch.len_ge
    omega

theorem Codes.le_of_leads (h : Leads (Codes mem size) ts p q) : p ≤ q :=
  Leads.le (fun _ _ _ ht => Nat.le_of_lt ht.lt) h

/-- A token puts out the text that it codes. -/
theorem Codes.apply (h : Codes mem size t p q) : t.apply (segment mem 0 p) = segment mem 0 q := by
  cases t with
  | lit symbols =>
    obtain ⟨rfl, rfl⟩ := h
    rw [Token.apply, Lz77.segment_succ, Nat.zero_add]
  | copy len dist =>
    obtain ⟨hmatch, rfl⟩ := h
    exact Lz77.copyBack_segment (Nat.zero_lt_of_lt hmatch.dist_gt) hmatch.dist_le len hmatch.same

/-- A token is not empty, and not longer than its text. -/
theorem Codes.encode_length (h : Codes mem size t p q) :
    0 < (encodeToken t).length ∧ p + (encodeToken t).length ≤ q ∧ (encodeToken t).length ≤ 4 := by
  cases t with
  | lit symbols =>
    obtain ⟨rfl, rfl⟩ := h
    exact ⟨Nat.one_pos, Nat.le_refl _, Nat.le_add_left 1 3⟩
  | copy len dist =>
    obtain ⟨hmatch, rfl⟩ := h
    obtain ⟨hpos, hle, hfour⟩ := encodeMatch_length dist hmatch.len_ge hmatch.len_le
    exact ⟨hpos, Nat.add_le_add_left hle p, hfour⟩

/-- Behind a token there are its bytes at least. -/
theorem length_le_encodeFrom (h : Leads (Codes mem size) ts p q) (n : ℕ) :
    ts.length ≤ (encodeFrom n ts).length := by
  induction ts generalizing p n with
  | nil => exact Nat.zero_le _
  | cons t ts ih =>
    obtain ⟨m, ht, hts⟩ := h
    obtain ⟨hpos, -⟩ := ht.encode_length
    cases n with
    | zero =>
      have hrest := ih hts 30
      rw [encodeFrom, List.length_append, List.length_append, List.length_cons]
      omega
    | succ n =>
      have hrest := ih hts n
      rw [encodeFrom, List.length_append, List.length_cons]
      omega

/-- A text has at least as many bytes as tokens. -/
theorem Codes.length_le (h : Leads (Codes mem size) ts p q) : p + ts.length ≤ q := by
  induction ts generalizing p with
  | nil => exact Nat.le_of_eq h
  | cons t ts ih =>
    obtain ⟨m, ht, hts⟩ := h
    have hlt := ht.lt
    have hrest := ih hts
    rw [List.length_cons]
    omega

/-- Tokens take no more than their text and a control word for every 31 of them. -/
theorem encodeFrom_length_le (h : Leads (Codes mem size) ts p q) {n : ℕ} (hn : n ≤ 31) :
    p + (encodeFrom n ts).length ≤ q + 4 * ((ts.length + 61 - n) / 31 - 1) := by
  induction ts generalizing p n with
  | nil =>
    rw [show p = q from h]
    exact Nat.le_add_right _ _
  | cons t ts ih =>
    obtain ⟨m, ht, hts⟩ := h
    obtain ⟨-, hle, -⟩ := ht.encode_length
    cases n with
    | zero =>
      have hrest := ih hts (show 30 ≤ 31 by omega)
      rw [encodeFrom, List.length_append, List.length_append, encodeLe32_length, List.length_cons]
      omega
    | succ n =>
      have hrest := ih hts (show n ≤ 31 by omega)
      rw [encodeFrom, List.length_append, List.length_cons]
      omega

theorem flatMap_length_le (h : Leads (Codes mem size) ts p q) :
    (ts.flatMap encodeToken).length ≤ 4 * ts.length := by
  induction ts generalizing p with
  | nil => exact Nat.zero_le _
  | cons t ts ih =>
    obtain ⟨m, ht, hts⟩ := h
    obtain ⟨-, -, hfour⟩ := ht.encode_length
    have hrest := ih hts
    rw [List.flatMap_cons, List.length_append, List.length_cons]
    omega

/-- The last four bytes are literals. -/
theorem min_four_le_length (h : Leads (Codes mem size) ts p size) : min 4 (size - p) ≤ ts.length := by
  induction ts generalizing p with
  | nil =>
    rw [show p = size from h, Nat.sub_self]
    exact Nat.min_le_right _ _
  | cons t ts ih =>
    obtain ⟨m, ht, hts⟩ := h
    have hrest := ih hts
    rw [List.length_cons]
    cases t with
    | lit symbols =>
      obtain ⟨-, rfl⟩ := ht
      omega
    | copy len dist =>
      obtain ⟨hmatch, rfl⟩ := ht
      have hstop : p + len + 4 ≤ size := hmatch.stop
      omega

theorem four_le_length (h : Leads (Codes mem size) ts p size) (hp : p + 4 ≤ size) : 4 ≤ ts.length := by
  have hmin := min_four_le_length h
  omega

/-- From ten bytes before the end on there are only literals. -/
theorem flag_eq_zero (h : Leads (Codes mem size) ts p size) (hp : size < p + 11) :
    ∀ t ∈ ts, flag t = 0 := by
  induction ts generalizing p with
  | nil =>
    intro t ht
    cases ht
  | cons t ts ih =>
    obtain ⟨m, ht, hts⟩ := h
    have hlt := ht.lt
    intro u hu
    rcases List.mem_cons.1 hu with rfl | hu
    · cases u with
      | lit symbols => rfl
      | copy len dist =>
        have hstart : p + 6 + 4 + 1 ≤ size := ht.1.start
        omega
    · exact ih hts (by omega) u hu

/-- Clear bits at the end of a control word are literals in front, where there is text enough. -/
theorem literals_of_dvd {m : ℕ} (hdvd : 2 ^ m ∣ cwordOf n ts)
    (h : Leads (Codes mem size) ts p size) (hp : p + m ≤ size) :
    m ≤ n ∧ ∃ us, Leads (Codes mem size) us (p + m) size ∧ us.length + m = ts.length ∧
      cwordOf n ts >>> m = cwordOf (n - m) us ∧
      encodeFrom n ts = segment mem p m ++ encodeFrom (n - m) us := by
  induction m generalizing n ts p with
  | zero => exact ⟨Nat.zero_le n, ts, h, rfl, rfl, rfl⟩
  | succ m ih =>
    rw [Nat.pow_succ] at hdvd
    cases n with
    | zero =>
      rw [cwordOf_zero] at hdvd
      have hone := Nat.le_of_dvd Nat.one_pos hdvd
      have hpow := Nat.two_pow_pos m
      omega
    | succ n =>
      cases ts with
      | nil =>
        have hend : p = size := h
        omega
      | cons t ts =>
        obtain ⟨q, ht, hts⟩ := h
        have hflag : flag t = 0 := by
          have htwo := Nat.dvd_trans (Nat.dvd_mul_left 2 (2 ^ m)) hdvd
          have hle := flag_le_one t
          rw [cwordOf_succ] at htwo
          omega
        rw [cwordOf_succ, hflag, Nat.zero_add, Nat.mul_comm 2] at hdvd
        have hdvd' := Nat.dvd_of_mul_dvd_mul_right Nat.two_pos hdvd
        cases t with
        | copy len dist => cases hflag
        | lit symbols =>
          obtain ⟨rfl, rfl⟩ := ht
          obtain ⟨hle, us, hus, hlen, hcword, henc⟩ := ih hdvd' hts (by omega)
          refine ⟨Nat.succ_le_succ hle, us, ?_, ?_, ?_, ?_⟩
          · rwa [Nat.add_assoc, Nat.add_comm 1 m] at hus
          · rw [List.length_cons, ← hlen, Nat.add_assoc]
          · rw [Nat.add_comm m 1, Nat.shiftRight_add, cwordOf_succ_shiftRight, hcword]
            congr 1
            omega
          · have hsub : n + 1 - (m + 1) = n - m := by omega
            rw [encodeFrom, henc, encodeToken, hsub, Nat.add_comm m 1, Lz77.segment_add,
              List.append_assoc]
            rfl

/-! ## The decompressor on tokens -/

/-- The loop when it has put out the text up to `p`, with the tokens `ts` in front of it and `pad` bytes
more that the header counts. -/
def Decompressor.at (mem : ℕ → UInt8) (behind : List UInt8) (pad n : ℕ) (ts : List (Token UInt8))
    (p : ℕ) : Decompressor where
  cword := cwordOf n ts
  rest := encodeFrom n ts ++ behind
  left := (encodeFrom n ts).length + pad
  out := segment mem 0 p

/-- The last loop copies the literals that are left, and passes over their control words. -/
theorem lastLiterals_tokens (h : Leads (Codes mem size) ts p size) (hlits : ∀ t ∈ ts, flag t = 0) :
    lastLiterals (size - p) (cwordOf n ts) (encodeFrom n ts ++ behind)
      ((encodeFrom n ts).length + pad) (segment mem 0 p) = .returned (segment mem 0 size) := by
  induction ts generalizing p n with
  | nil =>
    rw [show p = size from h, Nat.sub_self, lastLiterals]
  | cons t ts ih =>
    obtain ⟨m, ht, hts⟩ := h
    have hle := Codes.le_of_leads hts
    have hrest : ∀ u ∈ ts, flag u = 0 := fun u hu => hlits u (List.mem_cons_of_mem _ hu)
    cases t with
    | copy len dist => exact absurd (hlits _ (List.mem_cons_self ..)) Nat.one_ne_zero
    | lit symbols =>
      obtain ⟨rfl, rfl⟩ := ht
      have hmissing : size - p = size - (p + 1) + 1 := by omega
      have hout : segment mem 0 p ++ [mem p] = segment mem 0 (p + 1) := by
        rw [Lz77.segment_succ, Nat.zero_add]
      rw [hmissing, lastLiterals]
      cases n with
      | zero =>
        -- the control word is used up, and the next one has no bits
        have hword : (1 <<< 31) >>> 1 = cwordOf 30 ts := (cwordOf_literals hrest 30).symm
        have hcword : 4 = cwordLen := rfl
        have hdrop : (encodeFrom 0 (.lit [mem p] :: ts) ++ behind).drop cwordLen =
            mem p :: (encodeFrom 30 ts ++ behind) := by
          rw [encodeFrom_cons_zero, List.append_assoc, ← hcword,
            List.drop_left' (encodeLe32_length _)]
          rfl
        have hleft : (encodeFrom 0 (.lit [mem p] :: ts)).length + pad - cwordLen =
            (encodeFrom 30 ts).length + pad + 1 := by
          rw [encodeFrom_cons_zero, List.length_append, encodeLe32_length, ← hcword]
          show 4 + ((encodeFrom 30 ts).length + 1) + pad - 4 = _
          omega
        simp only [cwordOf_zero, if_true, hdrop, hleft, hword]
        rw [if_neg (Nat.succ_ne_zero _), Nat.add_sub_cancel, hout]
        exact ih hts hrest
      | succ n =>
        have hne := cwordOf_succ_ne_one n (.lit [mem p]) ts
        have hleft : (encodeFrom (n + 1) (.lit [mem p] :: ts)).length + pad =
            (encodeFrom n ts).length + pad + 1 := by
          show (encodeFrom n ts).length + 1 + pad = _
          omega
        simp only [if_neg hne, cwordOf_succ_shiftRight, hleft]
        rw [if_neg (Nat.succ_ne_zero _), Nat.add_sub_cancel]
        show lastLiterals _ _ (encodeFrom n ts ++ behind) _ (segment mem 0 p ++ [mem p]) = _
        rw [hout]
        exact ih hts hrest

/-- A control word that is used up is replaced. -/
theorem reload_at (mem : ℕ → UInt8) (behind : List UInt8) (pad n : ℕ) (t : Token UInt8)
    (ts : List (Token UInt8)) (p : ℕ) : (Decompressor.at mem behind pad n (t :: ts) p).reload =
      .inr (.at mem behind pad (if n = 0 then 31 else n) (t :: ts) p) := by
  unfold Decompressor.reload
  cases n with
  | zero =>
    have hlen : (encodeFrom 0 (t :: ts)).length = 4 + (encodeFrom 31 (t :: ts)).length := by
      rw [encodeFrom_cons_zero, List.length_append, encodeLe32_length]
    have hlt : cwordOf 31 (t :: ts) < 4294967296 := cwordOf_lt 31 (t :: ts)
    have hcword : cwordLen = 4 := rfl
    simp only [Decompressor.at, cwordOf_zero, if_true, List.length_append, hlen, hcword]
    rw [if_neg (by omega), if_neg (by omega), encodeFrom_cons_zero, List.append_assoc,
      le32_encodeLe32 hlt, List.drop_left' (encodeLe32_length _)]
    congr 2
    omega
  | succ n =>
    have hne : (Decompressor.at mem behind pad (n + 1) (t :: ts) p).cword ≠ 1 :=
      cwordOf_succ_ne_one n t ts
    rw [if_neg hne, if_neg (Nat.succ_ne_zero n)]

/-- A match in front. -/
theorem takeMatch_at {len dist : ℕ} (h : Matches mem size len dist p) (hsize : size < 4294967296)
    (n : ℕ) (ts : List (Token UInt8)) :
    (Decompressor.at mem behind pad (n + 1) (.copy len dist :: ts) p).takeMatch size =
      .inr (.at mem behind pad n ts (p + len)) := by
  have hstop : p + len + 4 ≤ size := h.stop
  have hfour : uncompressedEnd = 4 := rfl
  have htoken := matchToken_encodeMatch h.len_ge h.len_le h.dist_lt (encodeFrom n ts ++ behind)
  have hrest : encodeFrom (n + 1) (.copy len dist :: ts) ++ behind =
      encodeMatch dist len ++ (encodeFrom n ts ++ behind) := List.append_assoc ..
  have hleft : (encodeFrom (n + 1) (.copy len dist :: ts)).length + pad - (encodeMatch dist len).length =
      (encodeFrom n ts).length + pad := by
    show (encodeMatch dist len ++ encodeFrom n ts).length + pad - _ = _
    rw [List.length_append]
    omega
  have hroom : ofInt32 ((size : ℤ) - p - uncompressedEnd) = size - p - 4 := by
    have hcast : (size : ℤ) - p - (4 : ℕ) = (size - p - 4 : ℕ) := by omega
    rw [hfour, hcast, ofInt32_natCast (by omega)]
  have hcopy := Lz77.copyBack_segment (Nat.zero_lt_of_lt h.dist_gt) h.dist_le len h.same
  have hgt := h.dist_gt
  unfold Decompressor.takeMatch Decompressor.at
  simp only [hrest, htoken, hroom, hleft, hcopy, cwordOf_succ_shiftRight, List.drop_left,
    Lz77.segment_length]
  rw [if_neg (by have hle := h.dist_le; omega), if_neg (by omega)]

/-- `bitlut` counts clear bits. -/
theorem bitlut_spec {c : ℕ} (heven : c &&& 1 = 0) :
    0 < bitlut.getD (c &&& 0xf) 0 ∧ bitlut.getD (c &&& 0xf) 0 ≤ 4 ∧
      2 ^ bitlut.getD (c &&& 0xf) 0 ∣ c := by
  have htable : ∀ r < 16, r % 2 = 0 → 0 < bitlut.getD r 0 ∧ bitlut.getD r 0 ≤ 4 ∧
      2 ^ bitlut.getD r 0 ∣ r := by decide
  have hmask : c &&& 0xf = c % 16 := Nat.and_two_pow_sub_one_eq_mod c 4
  rw [Nat.and_one_is_mod] at heven
  obtain ⟨hpos, hle, hdvd⟩ := htable (c % 16) (Nat.mod_lt _ (by omega)) (by omega)
  rw [hmask]
  refine ⟨hpos, hle, ?_⟩
  have hsixteen : 2 ^ bitlut.getD (c % 16) 0 ∣ 16 := Nat.pow_dvd_pow 2 hle
  have hsum := Nat.dvd_add (Nat.dvd_trans hsixteen (Nat.dvd_mul_right 16 (c / 16))) hdvd
  rwa [Nat.div_add_mod] at hsum

/-- Literals in front, away from the end. -/
theorem takeLiterals_at (behind : List UInt8) (pad : ℕ) (h : Leads (Codes mem size) ts p size)
    (hp : p + 11 < size) (heven : cwordOf n ts &&& 1 = 0) : ∃ m us, 0 < m ∧ m ≤ 4 ∧ us.length + m = ts.length ∧
      Leads (Codes mem size) us (p + m) size ∧
      (Decompressor.at mem behind pad n ts p).takeLiterals =
        .at mem behind pad (n - m) us (p + m) := by
  obtain ⟨hpos, hle, hdvd⟩ := bitlut_spec heven
  unfold Decompressor.takeLiterals Decompressor.at
  dsimp only
  generalize bitlut.getD (cwordOf n ts &&& 0xf) 0 = m at hpos hle hdvd
  obtain ⟨-, us, hus, hlen, hcword, henc⟩ := literals_of_dvd hdvd h (by omega)
  have hseg := Lz77.segment_length mem p m
  refine ⟨m, us, hpos, hle, hlen, hus, ?_⟩
  rw [hcword, henc, List.append_assoc, List.drop_left' hseg, List.take_left' hseg,
    Lz77.segment_add mem 0 p m, Nat.zero_add, List.length_append, hseg]
  congr 1
  omega

/-- A round goes on behind tokens that it took, or ends with the whole text. -/
theorem step_at (h : Leads (Codes mem size) (t :: ts) p size) (hsize : size < 4294967296)
    (hhead : 4 ≤ (t :: ts).length + pad) (hpad : pad ≤ behind.length) (n : ℕ) :
    (Decompressor.at mem behind pad n (t :: ts) p).step size = .inl (.returned (segment mem 0 size)) ∨
      ∃ n' us q, us.length ≤ ts.length ∧ q + 4 ≤ size ∧ Leads (Codes mem size) us q size ∧
        (Decompressor.at mem behind pad n (t :: ts) p).step size = .inr (.at mem behind pad n' us q) := by
  obtain ⟨k, hk⟩ : ∃ k, (if n = 0 then 31 else n) = k + 1 := by
    split
    · exact ⟨30, rfl⟩
    · exact ⟨n - 1, by omega⟩
  have hbytes := length_le_encodeFrom h (k + 1)
  have hleft : ¬ (Decompressor.at mem behind pad (k + 1) (t :: ts) p).left < 4 := by
    show ¬ (encodeFrom (k + 1) (t :: ts)).length + pad < 4
    omega
  have hrest : ¬ (Decompressor.at mem behind pad (k + 1) (t :: ts) p).rest.length < 4 := by
    show ¬ (encodeFrom (k + 1) (t :: ts) ++ behind).length < 4
    rw [List.length_append]
    omega
  have hbit : (Decompressor.at mem behind pad (k + 1) (t :: ts) p).cword &&& 1 = flag t :=
    cwordOf_succ_and_one k t ts
  have hout : (Decompressor.at mem behind pad (k + 1) (t :: ts) p).out.length = p :=
    Lz77.segment_length ..
  have hend : p + unconditionalMatchlen + uncompressedEnd + 1 = p + 11 := rfl
  unfold Decompressor.step
  rw [reload_at, hk]
  dsimp only
  rw [if_neg hleft, if_neg hrest, hbit, hout, hend]
  cases t with
  | copy len dist =>
    obtain ⟨m, ⟨hmatch, rfl⟩, hts⟩ := h
    rw [if_pos (show flag (.copy len dist) = 1 from rfl), takeMatch_at hmatch hsize]
    exact Or.inr ⟨k, ts, p + len, Nat.le_refl _, hmatch.stop, hts, rfl⟩
  | lit symbols =>
    rw [if_neg (show ¬ flag (.lit symbols) = 1 from Nat.zero_ne_one)]
    split
    · rename_i hp
      obtain ⟨m, us, hpos, hle, hlen, hus, htake⟩ :=
        takeLiterals_at behind pad h hp hbit
      rw [List.length_cons] at hlen
      exact Or.inr ⟨k + 1 - m, us, p + m, by omega, by omega, hus, congrArg Sum.inr htake⟩
    · rename_i hp
      obtain ⟨m, ht, hts⟩ := h
      have hlits : ∀ u ∈ Token.lit symbols :: ts, flag u = 0 := by
        obtain ⟨-, rfl⟩ := ht
        intro u hu
        rcases List.mem_cons.1 hu with rfl | hu
        · rfl
        · exact flag_eq_zero hts (by omega) u hu
      exact Or.inl (congrArg Sum.inl (lastLiterals_tokens ⟨m, ht, hts⟩ hlits))

/-- The loop puts out the text of the tokens that lie in front of it, whatever lies behind them. -/
theorem loop_tokens (h : Leads (Codes mem size) ts p size) (hp : p < size)
    (hsize : size < 4294967296) (hhead : 4 ≤ ts.length + pad) (hpad : pad ≤ behind.length) (n : ℕ)
    {fuel : ℕ} (hfuel : ts.length ≤ fuel) :
    (Decompressor.at mem behind pad n ts p).loop size fuel = .returned (segment mem 0 size) := by
  induction fuel generalizing ts p n with
  | zero =>
    obtain rfl := List.eq_nil_of_length_eq_zero (Nat.le_zero.1 hfuel)
    exact absurd (show p = size from h) (Nat.ne_of_lt hp)
  | succ fuel ih =>
    cases ts with
    | nil => exact absurd (show p = size from h) (Nat.ne_of_lt hp)
    | cons t ts =>
      rw [List.length_cons] at hfuel
      unfold Decompressor.loop
      rcases step_at h hsize hhead hpad n with hstep | ⟨n', us, q, hlen, hq, hus, hstep⟩
      · rw [hstep]
      · rw [hstep]
        exact ih hus (by omega) (Nat.le_trans (four_le_length hus hq) (Nat.le_add_right _ _)) n'
          (by omega)

end Quicklz

end RtThreadOta
