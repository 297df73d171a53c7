import Mathlib.Tactic.Ring
import RtThreadOta.Quicklz.Tokens

/-!
# The QuickLZ round trip

The compressor keeps the tokens that are under full control words and those under the one it is making.
A match is whatever the search returns, since the search compares the bytes (`findMatch_found`): the
hash table may hold anything. What it makes of a text is the tokens of the text under a header
(`qlzCompress_form`), so the decompressor makes the text of it again.
-/

namespace RtThreadOta

namespace Quicklz

open Words

open Lz77 (Token Leads segment)

variable {mem : ℕ → UInt8} {size p q n : ℕ} {full cur : List (Token UInt8)}

/-! ## The search -/

/-- A match, when it is one, of bytes in front of the position, and not up to the end. -/
def Found (mem : ℕ → UInt8) (size src : ℕ) (best : ℕ × ℕ) : Prop :=
  2 < best.2 → best.2 ≤ remaining size src ∧ best.1 + minOffset < src ∧
    ∀ k < best.2, mem (best.1 + k) = mem (src + k)

theorem fastRead3_lt (mem : ℕ → UInt8) (p : ℕ) : fastRead3 mem p < 2 ^ 24 := by
  have h0 := UInt8.toNat_lt (mem p)
  have h1 := UInt8.toNat_lt (mem (p + 1))
  have h2 := UInt8.toNat_lt (mem (p + 2))
  rw [fastRead3]
  omega

/-- The comparison of three bytes. -/
theorem SameThree.bytes {o src : ℕ} (h : SameThree mem o src) :
    ∀ k < 3, mem (o + k) = mem (src + k) := by
  have hxor : fastRead3 mem o ^^^ fastRead3 mem src = 0 := by
    have hlt := Nat.xor_lt_two_pow (fastRead3_lt mem o) (fastRead3_lt mem src)
    have hmask : (fastRead3 mem o ^^^ fastRead3 mem src) &&& (2 ^ 24 - 1) = 0 := h
    rwa [Nat.and_two_pow_sub_one_of_lt_two_pow hlt] at hmask
  have hsame := Nat.xor_eq_zero_iff.1 hxor
  rw [fastRead3, fastRead3] at hsame
  have h0 := UInt8.toNat_lt (mem o)
  have h1 := UInt8.toNat_lt (mem (o + 1))
  have h0' := UInt8.toNat_lt (mem src)
  have h1' := UInt8.toNat_lt (mem (src + 1))
  intro k hk
  obtain rfl | rfl | rfl : k = 0 ∨ k = 1 ∨ k = 2 := by omega
  · exact UInt8.toNat_inj.1 (show (mem o).toNat = (mem src).toNat by omega)
  · exact UInt8.toNat_inj.1 (by omega)
  · exact UInt8.toNat_inj.1 (by omega)

/-- A match is followed as far as the bytes are the same. -/
theorem extend_spec {remaining o src m : ℕ} (hle : m ≤ remaining)
    (hsame : ∀ k < m, mem (o + k) = mem (src + k)) (fuel : ℕ) :
    extend mem remaining o src fuel m ≤ remaining ∧
      ∀ k < extend mem remaining o src fuel m, mem (o + k) = mem (src + k) := by
  induction fuel generalizing m with
  | zero => exact ⟨hle, hsame⟩
  | succ fuel ih =>
    rw [extend]
    split
    · rename_i hnext
      refine ih (by omega) fun k hk => ?_
      rcases Nat.lt_or_eq_of_le (Nat.le_of_lt_succ hk) with hlt | rfl
      · exact hsame k hlt
      · exact hnext.1
    · exact ⟨hle, hsame⟩

theorem seven_le_remaining {src : ℕ} (hstart : src + 11 ≤ size) : 7 ≤ remaining size src := by
  have hend : uncompressedEnd = 4 := rfl
  rw [remaining]
  omega

theorem firstMatch_found {src : ℕ} (hstart : src + 11 ≤ size) (c : UInt8) (offset2 : ℕ) :
    Found mem size src (offset2, firstMatch mem size src c offset2) := by
  have hseven := seven_le_remaining hstart
  unfold Found firstMatch
  split
  · rename_i hfirst
    obtain ⟨hlt, -, hthree⟩ := hfirst
    split
    · rename_i hfour
      have hsame : ∀ k < 4, mem (offset2 + k) = mem (src + k) := by
        intro k hk
        rcases Nat.lt_or_eq_of_le (Nat.le_of_lt_succ hk) with hk | rfl
        · exact hthree.bytes k hk
        · exact hfour
      obtain ⟨hle, hbytes⟩ := extend_spec (Nat.le_trans (by omega) hseven) hsame
        (remaining size src)
      exact fun _ => ⟨hle, hlt, hbytes⟩
    · exact fun _ => ⟨Nat.le_trans (by omega) hseven, hlt, hthree.bytes⟩
  · exact fun hfalse => absurd hfalse (Nat.not_lt_zero 2)

theorem better_found {src : ℕ} (hstart : src + 11 ≤ size) (o : ℕ) {best : ℕ × ℕ}
    (h : Found mem size src best) : Found mem size src (better mem size src o best) := by
  have hseven := seven_le_remaining hstart
  unfold better
  split
  · rename_i hpointer
    obtain ⟨hle, hbytes⟩ := extend_spec (Nat.le_trans (by omega) hseven) hpointer.1.bytes
      (remaining size src)
    dsimp only
    split
    · exact fun _ => ⟨hle, hpointer.2, hbytes⟩
    · exact h
  · exact h

theorem search_found {src : ℕ} (hstart : src + 11 ≤ size) (c : UInt8)
    (offset : Fin qlzPointers → ℕ) (left k : ℕ) {best : ℕ × ℕ} (h : Found mem size src best) :
    Found mem size src (search mem size src c offset left k best) := by
  induction left generalizing k best with
  | zero => exact h
  | succ left ih =>
    rw [search]
    split
    · exact ih (k + 1) (better_found hstart _ h)
    · exact h

/-- What the search returns is a match. -/
theorem findMatch_found {src : ℕ} (hstart : src + 11 ≤ size) (state : QlzStateCompress) :
    Found mem size src (findMatch mem size src state) :=
  search_found hstart _ _ _ _ (firstMatch_found hstart _ _)

/-- A match that was found is one that is written. -/
theorem Found.matches {src o len : ℕ} (hstart : src + 11 ≤ size) (h : Found mem size src (o, len))
    (hlen : 2 < len) (hdist : src - o < 131071) : Matches mem size len (src - o) src := by
  have hend : uncompressedEnd = 4 := rfl
  obtain ⟨hle, hlt, hbytes⟩ := h hlen
  have hle' : len ≤ remaining size src := hle
  have hlt' : o + 2 < src := hlt
  rw [remaining] at hle'
  refine ⟨hlen, by omega, ?_, hdist, Nat.sub_le _ _, hstart, by omega, fun k hk => ?_⟩
  · show 2 < src - o
    omega
  · have hback : src + k - (src - o) = o + k := by omega
    rw [hback]
    exact (hbytes k hk).symm

/-! ## Tokens under control words -/

/-- Tokens under full control words, and the tokens behind them. -/
theorem encodeFrom_append (cur : List (Token UInt8)) {g : ℕ} (h : full.length = n + 31 * g) :
    encodeFrom n (full ++ cur) = encodeFrom n full ++ encodeFrom 0 cur := by
  induction full generalizing n g with
  | nil =>
    rw [List.length_nil] at h
    obtain rfl : n = 0 := by omega
    rfl
  | cons t full ih =>
    rw [List.length_cons] at h
    cases n with
    | zero =>
      have hlong : 31 ≤ (t :: full).length := by
        rw [List.length_cons]
        omega
      have htake : (t :: (full ++ cur)).take 31 = (t :: full).take 31 :=
        List.take_append_of_le_length hlong
      rw [List.cons_append, encodeFrom, encodeFrom, htake,
        ih (show full.length = 30 + 31 * (g - 1) by omega), List.append_assoc, List.append_assoc]
    | succ n =>
      rw [List.cons_append, encodeFrom, encodeFrom, ih (show full.length = n + 31 * g by omega),
        List.append_assoc]

/-- Tokens that one control word has room for. -/
theorem encodeFrom_of_le {ts : List (Token UInt8)} (h : ts.length ≤ n) :
    encodeFrom n ts = ts.flatMap encodeToken := by
  induction ts generalizing n with
  | nil =>
    cases n <;> rfl
  | cons t ts ih =>
    rw [List.length_cons] at h
    obtain ⟨n, rfl⟩ : ∃ k, n = k + 1 := ⟨n - 1, by omega⟩
    rw [encodeFrom, List.flatMap_cons, ih (by omega)]

/-- Tokens under their control word. -/
theorem encodeFrom_zero_of_le (hne : cur ≠ []) (h : cur.length ≤ 31) :
    encodeFrom 0 cur = encodeLe32 (flagBits cur + 2 ^ 31) ++ cur.flatMap encodeToken := by
  obtain ⟨t, ts, rfl⟩ := List.exists_cons_of_ne_nil hne
  rw [encodeFrom_cons_zero, cwordOf, List.take_of_length_le h, encodeFrom_of_le h]

theorem flagBits_snoc (ts : List (Token UInt8)) (t : Token UInt8) :
    flagBits (ts ++ [t]) = flagBits ts + flag t * 2 ^ ts.length := by
  induction ts with
  | nil =>
    rw [List.nil_append, List.length_nil, Nat.pow_zero, Nat.mul_one, flagBits, flagBits, Nat.zero_add]
    rfl
  | cons u ts ih =>
    rw [List.cons_append, flagBits, flagBits, ih, List.length_cons, Nat.pow_succ, ← Nat.mul_assoc]
    omega

/-! ## The loops of the compressor -/

namespace Compressor

/-- The tokens `full` of the text up to `g` are under full control words, and `cur` under the one that is
being made. Its bits come in from above, so that a one runs in front of them. -/
structure Inv (mem : ℕ → UInt8) (size : ℕ) (full cur : List (Token UInt8)) (g : ℕ) (s : Compressor) :
    Prop where
  full_dvd : 31 ∣ full.length
  cur_le : cur.length ≤ 31
  out : s.out = encodeFrom 0 full
  behind : s.behind = cur.flatMap encodeToken
  cword : s.cword = 2 ^ (31 - cur.length) * (2 * flagBits cur + 1)
  fullCodes : Leads (Codes mem size) full 0 g
  curCodes : Leads (Codes mem size) cur g s.src
  src_le : s.src ≤ size

variable {s : Compressor} {t : Token UInt8} {g : ℕ}

/-- The lowest bit says whether the control word is full. -/
theorem Inv.cword_and_one (h : s.Inv mem size full cur g) : s.cword &&& 1 = 1 ↔ cur.length = 31 := by
  have hle := h.cur_le
  rw [h.cword, Nat.and_one_is_mod]
  constructor
  · intro hodd
    by_contra hne
    obtain ⟨j, hj⟩ : ∃ j, 31 - cur.length = j + 1 := ⟨30 - cur.length, by omega⟩
    rw [hj, Nat.pow_succ, Nat.mul_comm _ 2, Nat.mul_assoc, Nat.mul_mod_right] at hodd
    exact absurd hodd Nat.zero_ne_one
  · intro hfull
    rw [hfull, Nat.sub_self, Nat.pow_zero, Nat.one_mul]
    omega

/-- Storing the control word closes the tokens under it. -/
theorem Inv.closed (h : s.Inv mem size full cur g) (hne : cur ≠ []) :
    s.closed (2 * flagBits cur + 1) = encodeFrom 0 (full ++ cur) := by
  obtain ⟨words, hwords⟩ := h.full_dvd
  have hlt : flagBits cur < 2 ^ 31 :=
    Nat.lt_of_lt_of_le (flagBits_lt cur) (Nat.pow_le_pow_right Nat.two_pos h.cur_le)
  have hhalf : (2 * flagBits cur + 1) >>> 1 = flagBits cur := by
    rw [Nat.shiftRight_one]
    omega
  have hword : flagBits cur ||| 1 <<< 31 = flagBits cur + 2 ^ 31 := by
    rw [Nat.or_comm, Nat.one_shiftLeft]
    have hor := Nat.two_pow_add_eq_or_of_lt hlt 1
    rw [Nat.mul_one] at hor
    rw [← hor, Nat.add_comm]
  rw [encodeFrom_append cur (show full.length = 0 + 31 * words by omega),
    encodeFrom_zero_of_le hne h.cur_le, Compressor.closed, hhalf, hword, h.out, h.behind,
    List.append_assoc]
  rfl

/-- A full control word is stored. -/
theorem Inv.nextCword (h : s.Inv mem size full cur g) (hfull : cur.length = 31) :
    s.nextCword.Inv mem size (full ++ cur) [] s.src := by
  have hdvd := h.full_dvd
  have hne : cur ≠ [] := by
    rintro rfl
    exact absurd hfull (Nat.ne_of_lt (Nat.succ_pos 30))
  have hcword : s.cword = 2 * flagBits cur + 1 := by
    rw [h.cword, hfull, Nat.sub_self, Nat.pow_zero, Nat.one_mul]
  refine ⟨?_, Nat.zero_le _, ?_, rfl, rfl, h.fullCodes.append h.curCodes, rfl, h.src_le⟩
  · rw [List.length_append, hfull]
    exact Nat.dvd_add hdvd (Nat.dvd_refl 31)
  · show s.closed s.cword = _
    rw [hcword]
    exact h.closed hne

/-- A token is put under the control word. -/
theorem Inv.push (h : s.Inv mem size full cur g) (hroom : cur.length < 31) {q : ℕ}
    (ht : Codes mem size t s.src q) (hq : q ≤ size) {s' : Compressor} (hsrc : s'.src = q)
    (hout : s'.out = s.out) (hbehind : s'.behind = s.behind ++ encodeToken t)
    (hcword : s'.cword = s.cword >>> 1 ||| flag t <<< 31) :
    s'.Inv mem size full (cur ++ [t]) g := by
  have hlen : (cur ++ [t]).length = cur.length + 1 := by
    rw [List.length_append, List.length_singleton]
  refine ⟨h.full_dvd, by omega, hout.trans h.out, ?_, ?_, h.fullCodes, ?_, hsrc ▸ hq⟩
  · rw [hbehind, h.behind, List.flatMap_append, List.flatMap_singleton]
  · obtain ⟨j, hj⟩ : ∃ j, 31 - cur.length = j + 1 := ⟨30 - cur.length, by omega⟩
    have hsub : 31 - (cur.length + 1) = j := by omega
    have hpow : 2 ^ 31 = 2 ^ cur.length * (2 * 2 ^ j) := by
      rw [← Nat.pow_succ', ← Nat.pow_add]
      congr 1
      omega
    have hhalf : s.cword >>> 1 = 2 ^ j * (2 * flagBits cur + 1) := by
      rw [h.cword, hj, Nat.shiftRight_one, Nat.pow_succ, Nat.mul_comm _ 2, Nat.mul_assoc,
        Nat.mul_div_cancel_left _ Nat.two_pos]
    have hlt : 2 ^ j * (2 * flagBits cur + 1) < 2 ^ 31 := by
      have hbits := flagBits_lt cur
      calc 2 ^ j * (2 * flagBits cur + 1) < 2 ^ j * (2 * 2 ^ cur.length) :=
            Nat.mul_lt_mul_of_pos_left (by omega) (Nat.two_pow_pos j)
        _ = 2 ^ 31 := by rw [hpow, Nat.mul_left_comm, Nat.mul_comm (2 ^ j), Nat.mul_left_comm]
    rw [hcword, hhalf, hlen, hsub, flagBits_snoc, Nat.or_comm, Nat.shiftLeft_eq,
      Nat.mul_comm (flag t), ← Nat.two_pow_add_eq_or_of_lt hlt, hpow]
    ring
  · rw [hsrc]
    exact h.curCodes.snoc ht

theorem Inv.literal (h : s.Inv mem size full cur g) (hroom : cur.length < 31) (hlt : s.src < size) :
    (s.literal mem).Inv mem size full (cur ++ [.lit [mem s.src]]) g := by
  have htoken : Codes mem size (.lit [mem s.src]) s.src (s.src + 1) := ⟨rfl, rfl⟩
  refine h.push hroom htoken hlt rfl rfl rfl ?_
  show s.cword >>> 1 = s.cword >>> 1 ||| 0 <<< 31
  rw [Nat.zero_shiftLeft, Nat.or_zero]

/-- A round of the main loop puts a token under the control word. -/
theorem Inv.step (h : s.Inv mem size full cur g) (hroom : cur.length < 31)
    (hstart : s.src + 11 ≤ size) :
    ∃ t, (s.step mem size).Inv mem size full (cur ++ [t]) g ∧ s.src < (s.step mem size).src ∧
      (s.step mem size).out = s.out := by
  have hfound : Found mem size s.src (findMatch mem size s.src s.state) :=
    findMatch_found hstart s.state
  unfold Compressor.step
  generalize findMatch mem size s.src s.state = best at hfound
  obtain ⟨o, len⟩ := best
  dsimp only
  split
  · rename_i hlen
    have hmatch := hfound.matches hstart hlen.1 hlen.2
    have hstop : s.src + len + 4 ≤ size := hmatch.stop
    have htoken : Codes mem size (.copy len (s.src - o)) s.src (s.src + len) := ⟨hmatch, rfl⟩
    refine ⟨.copy len (s.src - o), h.push hroom htoken (by omega) rfl rfl rfl rfl, ?_, rfl⟩
    show s.src < s.src + len
    omega
  · refine ⟨.lit [mem s.src], ?_, Nat.lt_succ_self _, rfl⟩
    have h' : Inv mem size full cur g { s with state := s.state.remember (hashat mem s.src) s.src } :=
      ⟨h.full_dvd, h.cur_le, h.out, h.behind, h.cword, h.fullCodes, h.curCodes, h.src_le⟩
    exact h'.literal hroom (show s.src < size by omega)

/-- The size of what is written, when a control word is stored. -/
theorem closed_length (cword : ℕ) (s : Compressor) : (s.closed cword).length = s.written := by
  rw [Compressor.closed, List.length_append, List.length_append,
    fastWrite_length (show cwordLen ≤ 4 from Nat.le_refl 4)]
  rfl

theorem nextCword_out_length (s : Compressor) : s.nextCword.out.length = s.written :=
  closed_length s.cword s

/-- The main loop keeps the invariant, and where it began the control word it is at, not too much had been
written. -/
theorem Inv.mainLoop (h : s.Inv mem size full cur g) (hne : 0 < s.src → cur ≠ [])
    (hratio : g ≤ size / 2 ∨ s.out.length ≤ g) (fuel : ℕ) {s' : Compressor}
    (hrun : s.mainLoop mem size fuel = some s') : ∃ full' cur' g',
      s'.Inv mem size full' cur' g' ∧ (0 < s'.src → cur' ≠ []) ∧
        (g' ≤ size / 2 ∨ s'.out.length ≤ g') ∧ (size ≤ s.src + fuel → size < s'.src + 11) := by
  induction fuel generalizing s full cur g with
  | zero =>
    obtain rfl := Option.some.inj hrun
    have hle := h.src_le
    exact ⟨full, cur, g, h, hne, hratio, fun _ => by omega⟩
  | succ fuel ih =>
    rw [Compressor.mainLoop] at hrun
    split at hrun
    · rename_i hstart
      have hstart : s.src + 11 ≤ size := hstart
      split at hrun
      · rename_i hword
        split at hrun
        · cases hrun
        · rename_i hkept
          obtain ⟨t, hstep, hlt, hout⟩ := (h.nextCword (h.cword_and_one.1 hword)).step
            (Nat.succ_pos 30) hstart
          have hratio' : s.src ≤ size / 2 ∨ (s.nextCword.step mem size).out.length ≤ s.src := by
            unfold RatioTooLow at hkept
            rw [Nat.shiftRight_one] at hkept
            rw [hout, nextCword_out_length]
            omega
          have hsrc : s.src < (s.nextCword.step mem size).src := hlt
          obtain ⟨full', cur', g', hinv, hne', hr, hend⟩ :=
            ih hstep (fun _ => List.cons_ne_nil t []) hratio' hrun
          exact ⟨full', cur', g', hinv, hne', hr, fun hfuel => hend (by omega)⟩
      · rename_i hword
        have hcur := h.cur_le
        have hroom : cur.length ≠ 31 := fun hfull => hword (h.cword_and_one.2 hfull)
        obtain ⟨t, hstep, hlt, hout⟩ := h.step (by omega) hstart
        obtain ⟨full', cur', g', hinv, hne', hr, hend⟩ :=
          ih hstep (fun _ => List.concat_ne_nil t cur) (by rwa [hout]) hrun
        exact ⟨full', cur', g', hinv, hne', hr, fun hfuel => hend (by omega)⟩
    · rename_i hstart
      obtain rfl := Option.some.inj hrun
      exact ⟨full, cur, g, h, hne, hratio, fun _ => Nat.lt_of_not_le hstart⟩

theorem literal_written (s : Compressor) : (s.literal mem).written = s.written + 1 := by
  show s.out.length + cwordLen + (s.behind ++ [mem s.src]).length = _
  rw [List.length_append, List.length_singleton]
  rfl

/-- The last loop keeps the invariant, and writes the bytes and a control word for every 31 of them. -/
theorem Inv.lastLoop (h : s.Inv mem size full cur g) (hne : 0 < s.src → cur ≠ []) (left : ℕ)
    (hleft : s.src + left ≤ size) : ∃ full' cur' g', (s.lastLoop mem left).Inv mem size full' cur' g' ∧
      (s.lastLoop mem left).src = s.src + left ∧ (0 < s.src + left → cur' ≠ []) ∧
      (s.lastLoop mem left).written ≤ s.written + left + 4 * ((cur.length + left) / 31) := by
  induction left generalizing s full cur g with
  | zero => exact ⟨full, cur, g, h, rfl, hne, Nat.le_add_right _ _⟩
  | succ left ih =>
    rw [Compressor.lastLoop]
    split
    · rename_i hword
      have hfull := h.cword_and_one.1 hword
      have hnext := (h.nextCword hfull).literal (Nat.succ_pos 30) (show s.src < size by omega)
      have hsrc : (s.nextCword.literal mem).src = s.src + 1 := rfl
      obtain ⟨full', cur', g', hinv, hend, hne', hle⟩ := ih hnext (fun _ => List.cons_ne_nil _ [])
        (by omega)
      have hwritten : (s.nextCword.literal mem).written = s.written + 4 + 1 := by
        rw [literal_written]
        show s.nextCword.out.length + 4 + 0 + 1 = _
        rw [nextCword_out_length]
      rw [hsrc] at hend hne'
      rw [hwritten] at hle
      have hone : ([] ++ [Token.lit [mem s.nextCword.src]]).length = 1 := rfl
      rw [hone] at hle
      exact ⟨full', cur', g', hinv, by omega, fun _ => hne' (by omega), by omega⟩
    · rename_i hword
      have hcur := h.cur_le
      have hroom : cur.length ≠ 31 := fun hfull => hword (h.cword_and_one.2 hfull)
      have hnext := h.literal (by omega) (show s.src < size by omega)
      have hsrc : (s.literal mem).src = s.src + 1 := rfl
      obtain ⟨full', cur', g', hinv, hend, hne', hle⟩ := ih hnext (fun _ => List.concat_ne_nil _ cur)
        (by omega)
      rw [hsrc] at hend hne'
      rw [literal_written, List.length_append, List.length_singleton] at hle
      exact ⟨full', cur', g', hinv, by omega, fun _ => hne' (by omega), by omega⟩

/-- Aligned, the bits of the tokens lie behind the one. -/
theorem alignCword_eq {j : ℕ} (bits : ℕ) {fuel : ℕ} (hj : j ≤ fuel) :
    alignCword fuel (2 ^ j * (2 * bits + 1)) = 2 * bits + 1 := by
  induction j generalizing fuel with
  | zero =>
    rw [Nat.pow_zero, Nat.one_mul]
    cases fuel with
    | zero => rfl
    | succ fuel =>
      rw [alignCword, if_neg]
      rw [Nat.and_one_is_mod]
      omega
  | succ j ih =>
    obtain ⟨fuel, rfl⟩ : ∃ k, fuel = k + 1 := ⟨fuel - 1, by omega⟩
    have heven : 2 ^ (j + 1) * (2 * bits + 1) = 2 * (2 ^ j * (2 * bits + 1)) := by
      rw [Nat.pow_succ, Nat.mul_comm _ 2, Nat.mul_assoc]
    rw [alignCword, heven, if_pos, Nat.shiftRight_one, Nat.mul_div_cancel_left _ Nat.two_pos,
      ih (by omega)]
    rw [Nat.and_one_is_mod, Nat.mul_mod_right]
    exact Nat.zero_ne_one

/-- How much is written: little more than was read, in the second half of the input because of the test of
the ratio. -/
theorem Inv.written_le (h : s.Inv mem size full cur g) (hratio : g ≤ size / 2 ∨ s.out.length ≤ g) :
    s.written ≤ s.src + 4 ∨
      g ≤ size / 2 ∧ s.written ≤ s.src + 4 + 4 * (g / 31) ∧ s.written ≤ g + 4 * (g / 31) + 128 := by
  have hcur := h.cur_le
  have hg := Codes.le_of_leads h.curCodes
  have hfull := Codes.length_le h.fullCodes
  have hout := encodeFrom_length_le h.fullCodes (Nat.zero_le 31)
  have hbehind := encodeFrom_length_le h.curCodes (Nat.le_refl 31)
  have hfour := flatMap_length_le h.curCodes
  obtain ⟨words, hwords⟩ := h.full_dvd
  rw [← h.out] at hout
  rw [encodeFrom_of_le hcur, ← h.behind] at hbehind
  rw [← h.behind] at hfour
  have hwritten : s.written = s.out.length + 4 + s.behind.length := rfl
  omega

theorem inv_start (mem : ℕ → UInt8) (size : ℕ) (state : QlzStateCompress) :
    (start state).Inv mem size [] [] 0 :=
  ⟨Nat.dvd_zero 31, Nat.zero_le 31, rfl, rfl, rfl, rfl, rfl, Nat.zero_le size⟩

end Compressor

/-! ## The output -/

/-- What the compressor makes of a text is the tokens of it, and what may lie behind them up to nine
bytes. -/
theorem qlzCompressCore_form {destination : ℕ → UInt8} {state : QlzStateCompress} {bytes : List UInt8}
    (hpos : 0 < size) (hrun : qlzCompressCore mem destination size state = some bytes) :
    ∃ ts fill, bytes = encodeFrom 0 ts ++ fill ∧ Leads (Codes mem size) ts 0 size ∧
      9 ≤ bytes.length ∧ bytes.length ≤ size + 391 ∧ (size < 216 → bytes.length ≤ 252) := by
  unfold qlzCompressCore at hrun
  split at hrun
  · cases hrun
  rename_i s hmain
  obtain rfl := Option.some.inj hrun
  obtain ⟨full, cur, g, hinv, hne, hratio, hend⟩ := (Compressor.inv_start mem size state).mainLoop
    (fun hlt => absurd hlt (Nat.lt_irrefl 0)) (Or.inl (Nat.zero_le _)) size hmain
  have hlate : size < s.src + 11 := hend (Nat.le_add_left size 0)
  have hsrc := hinv.src_le
  have hcur := hinv.cur_le
  have hmainLe := hinv.written_le hratio
  obtain ⟨full', cur', g', hlast, hall, hne', hlastLe⟩ := hinv.lastLoop hne (size - s.src) (by omega)
  have halign := Compressor.alignCword_eq (flagBits cur') (show 31 - cur'.length ≤ 32 by omega)
  rw [← hlast.cword] at halign
  have hclosed := hlast.closed (hne' (by omega))
  have hlen := Compressor.closed_length (2 * flagBits cur' + 1) (s.lastLoop mem (size - s.src))
  have hcodes := hlast.fullCodes.append hlast.curCodes
  rw [hall, Nat.add_sub_cancel' hsrc] at hcodes
  rw [hclosed] at hlen
  rw [halign, hclosed]
  refine ⟨full' ++ cur', _, rfl, hcodes, ?_⟩
  rw [List.length_append, Lz77.segment_length]
  omega

/-- The first byte of a header tells the width of the sizes and whether the body is compressed. -/
private theorem first_byte : ∀ compressed < 2,
    ((UInt8.ofNat (compressed ||| 3 <<< 2 ||| 1 <<< 6)).toNat &&& 2 ≠ 2 ∧
      (UInt8.ofNat (compressed ||| 3 <<< 2 ||| 1 <<< 6)).toNat &&& 1 = compressed) ∧
    (UInt8.ofNat (2 ||| compressed ||| 3 <<< 2 ||| 1 <<< 6)).toNat &&& 2 = 2 ∧
      (UInt8.ofNat (2 ||| compressed ||| 3 <<< 2 ||| 1 <<< 6)).toNat &&& 1 = compressed := by
  decide

/-- The header is read back. -/
theorem qlzHeader_read {base compressed r : ℕ} (hcompressed : compressed < 2)
    (hbase : base = 3 ∧ r < 256 ∧ size < 256 ∨ base = 9 ∧ r < 4294967296 ∧ size < 4294967296)
    (rest : List UInt8) :
    (qlzHeader base compressed r size).length = base ∧
      byteAt (qlzHeader base compressed r size ++ rest) 0 &&& 1 = compressed ∧
      qlzSizeHeader (qlzHeader base compressed r size ++ rest) = base ∧
      qlzSizeCompressed (qlzHeader base compressed r size ++ rest) = r ∧
      qlzSizeDecompressed (qlzHeader base compressed r size ++ rest) = size := by
  obtain ⟨hnarrow, hwide⟩ := first_byte compressed hcompressed
  rcases hbase with ⟨rfl, hr, hsize⟩ | ⟨rfl, hr, hsize⟩
  · -- sizes of one byte
    have hbytes : sizeBytes (qlzHeader 3 compressed r size ++ rest) = 1 := if_neg hnarrow.1
    have hone : ∀ (bs : List UInt8) (i : ℕ), fastRead bs i 1 = byteAt bs i := fun _ _ => rfl
    refine ⟨rfl, hnarrow.2, ?_, ?_, ?_⟩
    · rw [qlzSizeHeader, hbytes]
    · rw [qlzSizeCompressed, hbytes, hone]
      show (UInt8.ofNat r).toNat = r
      rw [UInt8.toNat_ofNat', Nat.mod_eq_of_lt hr]
    · rw [qlzSizeDecompressed, hbytes, hone]
      show (UInt8.ofNat size).toNat = size
      rw [UInt8.toNat_ofNat', Nat.mod_eq_of_lt hsize]
  · -- sizes of four bytes
    have hbytes : sizeBytes (qlzHeader 9 compressed r size ++ rest) = 4 := if_pos hwide.1
    have hfour : ∀ (bs : List UInt8) (i : ℕ), fastRead bs i 4 = le32 bs i := fun _ _ => rfl
    refine ⟨rfl, hwide.2, ?_, ?_, ?_⟩
    · rw [qlzSizeHeader, hbytes]
    · rw [qlzSizeCompressed, hbytes, hfour]
      exact le32_encodeLe32 hr (fastWrite size 4 ++ rest)
    · rw [qlzSizeDecompressed, hbytes, hfour]
      exact le32_encodeLe32 hsize rest

/-- What `qlz_compress` makes of a text is a header, and behind it the tokens of the text or the text. -/
theorem qlzCompress_form (mem destination : ℕ → UInt8) (state : QlzStateCompress) (hpos : 0 < size)
    (hmax : size ≤ 0xffffffff - 400) : ∃ base compressed body,
      qlzCompress mem destination size state =
        qlzHeader base compressed (base + body.length) size ++ body ∧
      (base = 3 ∧ base + body.length < 256 ∧ size < 256 ∨
        base = 9 ∧ base + body.length < 4294967296 ∧ size < 4294967296) ∧
      base + body.length ≤ size + 400 ∧
      (compressed = 0 ∧ body = segment mem 0 size ∨
        compressed = 1 ∧ 9 ≤ body.length ∧ ∃ ts fill, body = encodeFrom 0 ts ++ fill ∧
          Leads (Codes mem size) ts 0 size) := by
  have hbase : (if size < 216 then 3 else 9) = 3 ∧ size < 216 ∨
      (if size < 216 then 3 else 9) = 9 ∧ 216 ≤ size := by
    split
    · exact Or.inl ⟨rfl, ‹_›⟩
    · exact Or.inr ⟨rfl, Nat.le_of_not_lt ‹_›⟩
  unfold qlzCompress
  rw [if_neg (by omega)]
  dsimp only
  generalize (if size < 216 then 3 else 9) = base at hbase
  split
  · rename_i bytes hcore
    obtain ⟨ts, fill, hbytes, hcodes, hnine, hle, hshort⟩ := qlzCompressCore_form hpos hcore
    exact ⟨base, 1, bytes, rfl, by omega, by omega, Or.inr ⟨rfl, hnine, ts, fill, hbytes, hcodes⟩⟩
  · have hlen : (segment mem 0 size).length = size := Lz77.segment_length ..
    refine ⟨base, 0, segment mem 0 size, ?_, by omega, by omega, Or.inl ⟨rfl, rfl⟩⟩
    rw [hlen, Nat.add_comm size base]

/-- **A block is decompressed to the text it was made of**, whatever lies behind it, whatever the state held
and whatever was at the destination. -/
theorem qlzDecompress_qlzCompress (mem destination : ℕ → UInt8) (state : QlzStateCompress)
    (hpos : 0 < size) (hmax : size ≤ 0xffffffff - 400) (behind : List UInt8) :
    qlzDecompress (qlzCompress mem destination size state ++ behind) =
      .returned (segment mem 0 size) := by
  obtain ⟨base, compressed, body, hform, hbase, -, hbody⟩ :=
    qlzCompress_form mem destination state hpos hmax
  have hcompressed : compressed < 2 := by
    rcases hbody with ⟨rfl, -⟩ | ⟨rfl, -⟩ <;> omega
  obtain ⟨hlen, hbit, hheader, hr, hsize⟩ := qlzHeader_read hcompressed hbase (body ++ behind)
  have hlength : (qlzHeader base compressed (base + body.length) size ++ (body ++ behind)).length =
      base + (body.length + behind.length) := by
    rw [List.length_append, hlen, List.length_append]
  rw [hform, List.append_assoc]
  unfold qlzDecompress
  rw [hheader, hbit, hsize, hlength]
  dsimp only
  rw [if_neg (by omega)]
  rcases hbody with ⟨rfl, rfl⟩ | ⟨rfl, hnine, ts, fill, rfl, hcodes⟩
  · have hseg : (segment mem 0 size).length = size := Lz77.segment_length ..
    rw [if_neg Nat.zero_ne_one, if_neg (by omega), List.drop_left' hlen, List.take_left' hseg]
  · have hstart : Decompressor.start (qlzHeader base 1 (base + (encodeFrom 0 ts ++ fill).length) size ++
        (encodeFrom 0 ts ++ fill ++ behind)) = .at mem (fill ++ behind) fill.length 0 ts 0 := by
      unfold Decompressor.start Decompressor.at
      rw [hheader, hr, List.drop_left' hlen, Nat.add_sub_cancel_left, List.append_assoc,
        List.length_append, cwordOf_zero]
      rfl
    have hcount := length_le_encodeFrom hcodes 0
    have hmin := min_four_le_length hcodes
    have hwords := encodeFrom_length_le hcodes (Nat.zero_le 31)
    have hts := Codes.length_le hcodes
    rw [List.length_append] at hnine
    rw [if_pos rfl, qlzDecompressCore, hstart, hr]
    refine loop_tokens hcodes hpos (by omega) (by omega) ?_ 0 ?_
    · rw [List.length_append]
      exact Nat.le_add_right _ _
    · rw [List.length_append]
      omega

/-- The header file asks for 400 bytes more than the input. -/
theorem qlzCompress_length_le (mem destination : ℕ → UInt8) (state : QlzStateCompress)
    (hpos : 0 < size) (hmax : size ≤ 0xffffffff - 400) :
    (qlzCompress mem destination size state).length ≤ size + 400 ∧
      0 < (qlzCompress mem destination size state).length := by
  obtain ⟨base, compressed, body, hform, hbase, hle, hbody⟩ :=
    qlzCompress_form mem destination state hpos hmax
  have hcompressed : compressed < 2 := by
    rcases hbody with ⟨rfl, -⟩ | ⟨rfl, -⟩ <;> omega
  obtain ⟨hlen, -⟩ := qlzHeader_read hcompressed hbase []
  rw [hform, List.length_append, hlen]
  omega

/-- **QuickLZ round trip**: the block tells its own size and that of the text, and `qlz_decompress` makes the
text of it again. Neither the bytes behind the block nor what the state and the destination held before
matter. -/
theorem quicklz_roundTrip (mem destination : ℕ → UInt8) (state : QlzStateCompress) (hpos : 0 < size)
    (hmax : size ≤ 0xffffffff - 400) (behind : List UInt8) :
    qlzDecompress (qlzCompress mem destination size state ++ behind) =
        .returned (segment mem 0 size) ∧
      qlzSizeCompressed (qlzCompress mem destination size state ++ behind) =
        (qlzCompress mem destination size state).length ∧
      qlzSizeDecompressed (qlzCompress mem destination size state ++ behind) = size := by
  refine ⟨qlzDecompress_qlzCompress mem destination state hpos hmax behind, ?_⟩
  obtain ⟨base, compressed, body, hform, hbase, -, hbody⟩ :=
    qlzCompress_form mem destination state hpos hmax
  have hcompressed : compressed < 2 := by
    rcases hbody with ⟨rfl, -⟩ | ⟨rfl, -⟩ <;> omega
  obtain ⟨hlen, -, -, hr, hsize⟩ := qlzHeader_read hcompressed hbase (body ++ behind)
  rw [hform, List.append_assoc, List.length_append, hlen]
  exact ⟨hr, hsize⟩

/-- Forty bytes that repeat every five, with pointers and counters left from before. -/
theorem quicklz_roundTrip_repeating :
    qlzDecompress (qlzCompress (fun i => UInt8.ofNat (i % 5)) (fun _ => 170) 40
          ⟨fun _ _ => 77, fun _ => 5⟩ ++ [1, 2, 3]) =
        .returned (segment (fun i => UInt8.ofNat (i % 5)) 0 40) ∧
      qlzSizeCompressed (qlzCompress (fun i => UInt8.ofNat (i % 5)) (fun _ => 170) 40
          ⟨fun _ _ => 77, fun _ => 5⟩ ++ [1, 2, 3]) =
        (qlzCompress (fun i => UInt8.ofNat (i % 5)) (fun _ => 170) 40
          ⟨fun _ _ => 77, fun _ => 5⟩).length ∧
      qlzSizeDecompressed (qlzCompress (fun i => UInt8.ofNat (i % 5)) (fun _ => 170) 40
          ⟨fun _ _ => 77, fun _ => 5⟩ ++ [1, 2, 3]) = 40 :=
  quicklz_roundTrip _ _ _ (Nat.succ_pos 39) (by omega) [1, 2, 3]

/-- **The output buffer that the header file asks for is large enough**: with the header in front, `dst` stays
within it after any number of rounds of either loop, and so does what is returned. -/
theorem qlzCompress_inBuffer (mem destination : ℕ → UInt8) (size : ℕ) (state : QlzStateCompress) :
    (∀ rounds s, (Compressor.start state).mainLoop mem size rounds = some s →
      9 + s.written ≤ size + 400) ∧
    (∀ s, (Compressor.start state).mainLoop mem size size = some s → ∀ rounds ≤ size - s.src,
      9 + (s.lastLoop mem rounds).written ≤ size + 400) ∧
    (qlzCompress mem destination size state).length ≤ size + 400 := by
  have hmain : ∀ rounds s, (Compressor.start state).mainLoop mem size rounds = some s →
      s.written ≤ size + 377 ∧ (size ≤ rounds → ∀ more ≤ size - s.src,
        (s.lastLoop mem more).written ≤ size + 391) := by
    intro rounds s hrun
    obtain ⟨full, cur, g, hinv, hne, hratio, hend⟩ := (Compressor.inv_start mem size state).mainLoop
      (fun hlt => absurd hlt (Nat.lt_irrefl 0)) (Or.inl (Nat.zero_le _)) rounds hrun
    have hle := hinv.written_le hratio
    have hsrc := hinv.src_le
    have hcur := hinv.cur_le
    have hwritten : s.written ≤ size + 377 := by omega
    refine ⟨hwritten, fun hrounds more hmore => ?_⟩
    have hlate := hend (Nat.le_trans hrounds (Nat.le_add_left _ _))
    obtain ⟨-, -, -, -, -, -, hlast⟩ := hinv.lastLoop hne more (by omega)
    omega
  refine ⟨fun rounds s hrun => ?_, fun s hrun rounds hrounds => ?_, ?_⟩
  · have hle := (hmain rounds s hrun).1
    omega
  · have hle := (hmain size s hrun).2 (Nat.le_refl _) rounds hrounds
    omega
  · by_cases hsize : size = 0 ∨ 0xffffffff - 400 < size
    · rw [qlzCompress, if_pos hsize]
      exact Nat.zero_le _
    · exact (qlzCompress_length_le mem destination state (by omega) (by omega)).1

end Quicklz

end RtThreadOta
