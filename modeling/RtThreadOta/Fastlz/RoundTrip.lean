import RtThreadOta.Fastlz.Tokens

/-!
# FastLZ restores what it compressed

What the compressor has written at the head of its loop is a list of whole tokens that spell the input
up to the pending literals, then the control byte of those literals and the literals themselves
(`Compressor.Inv`). Only full literal runs cost a byte more than they code, so the output never grows by
more than one byte in 32 and one (`Compressor.Inv.size`).
-/

namespace RtThreadOta

namespace Fastlz

open Lz77 (Token Spells segment segment_length)

variable {level : Level} {mem : ℕ → UInt8} {length maxout : ℕ}

/-! ## The comparison loops -/

/-- The run goes on while the bytes are `x`. -/
theorem runLoop_spec (mem : ℕ → UInt8) (x : UInt8) (left ref ip : ℕ) :
    ip ≤ runLoop mem x left ref ip ∧ runLoop mem x left ref ip ≤ ip + left ∧
      (∀ j, ip + j < runLoop mem x left ref ip → mem (ref + j) = x) ∧
      (0 < left → mem ref = x → ip < runLoop mem x left ref ip) := by
  induction left generalizing ref ip with
  | zero =>
    rw [runLoop]
    refine ⟨Nat.le_refl _, Nat.le_refl _, fun j hj => ?_, fun h => ?_⟩ <;> omega
  | succ left ih =>
    rw [runLoop]
    by_cases hx : mem ref = x
    · obtain ⟨hle, hbound, hsame, -⟩ := ih (ref + 1) (ip + 1)
      rw [if_neg (not_not_intro hx)]
      refine ⟨by omega, by omega, fun j hj => ?_, fun _ _ => by omega⟩
      cases j with
      | zero => exact hx
      | succ j =>
        have hj' := hsame j (by omega)
        rwa [show ref + 1 + j = ref + (j + 1) by omega] at hj'
    · rw [if_pos hx]
      exact ⟨Nat.le_refl _, by omega, fun j hj => by omega, fun _ h => absurd h hx⟩

/-- The comparison stops one behind the first difference, or after all bytes. -/
theorem compareLoop_spec (mem : ℕ → UInt8) (left ref ip : ℕ) :
    ip ≤ (compareLoop mem left ref ip).1 ∧ (compareLoop mem left ref ip).1 ≤ ip + left ∧
      (∀ j, ip + j + 1 < (compareLoop mem left ref ip).1 → mem (ref + j) = mem (ip + j)) ∧
      (0 < left → ip < (compareLoop mem left ref ip).1) ∧
      ((compareLoop mem left ref ip).2 = true → (compareLoop mem left ref ip).1 = ip + left ∧
        ∀ j < left, mem (ref + j) = mem (ip + j)) := by
  induction left generalizing ref ip with
  | zero =>
    rw [compareLoop]
    refine ⟨Nat.le_refl _, Nat.le_refl _, fun j hj => ?_, fun h => absurd h (Nat.lt_irrefl 0),
      fun _ => ⟨rfl, fun j hj => ?_⟩⟩ <;> omega
  | succ left ih =>
    rw [compareLoop]
    by_cases hsame₀ : mem ref = mem ip
    · obtain ⟨hle, hbound, hsame, -, hall⟩ := ih (ref + 1) (ip + 1)
      rw [if_neg (not_not_intro hsame₀)]
      refine ⟨by omega, by omega, fun j hj => ?_, fun _ => by omega, fun htrue => ?_⟩
      · cases j with
        | zero => exact hsame₀
        | succ j =>
          have hj' := hsame j (by omega)
          rwa [show ref + 1 + j = ref + (j + 1) by omega,
            show ip + 1 + j = ip + (j + 1) by omega] at hj'
      · obtain ⟨hend, hall⟩ := hall htrue
        refine ⟨by omega, fun j hj => ?_⟩
        cases j with
        | zero => exact hsame₀
        | succ j =>
          have hj' := hall j (by omega)
          rwa [show ref + 1 + j = ref + (j + 1) by omega,
            show ip + 1 + j = ip + (j + 1) by omega] at hj'
    · rw [if_pos hsame₀]
      refine ⟨by omega, by omega, fun j hj => ?_, fun _ => by omega, fun h => nomatch h⟩
      simp only at hj
      omega

/-- `n` bytes from `anchor` on repeat those `distance` before. -/
def Repeats (mem : ℕ → UInt8) (anchor distance n : ℕ) : Prop :=
  ∀ k < n, mem (anchor + k) = mem (anchor + k - distance)

/-- The end of a match lies one behind what repeats, and within the input. -/
theorem matchEnd_spec {anchor len distance : ℕ} (hlimit : anchor + 12 < length) (hlen : 3 ≤ len)
    (hmax : len ≤ 5) (hpos : 0 < distance) (hle : distance ≤ anchor)
    (hrep : Repeats mem anchor distance len) :
    anchor + len + 1 ≤ matchEnd mem (length - 2) anchor len distance ∧
      matchEnd mem (length - 2) anchor len distance ≤ length ∧
      Repeats mem anchor distance (matchEnd mem (length - 2) anchor len distance - 1 - anchor) := by
  -- what the loops compare, seen from the anchor
  have hextend : ∀ e, (∀ j, anchor + len + j + 1 < e →
      mem (anchor + len - distance + j) = mem (anchor + len + j)) →
      Repeats mem anchor distance (e - 1 - anchor) := by
    intro e hcmp k hk
    rcases Nat.lt_or_ge k len with hk' | hk'
    · exact hrep k hk'
    · have hj := hcmp (k - len) (by omega)
      rw [show anchor + len + (k - len) = anchor + k by omega,
        show anchor + len - distance + (k - len) = anchor + k - distance by omega] at hj
      exact hj.symm
  unfold matchEnd
  dsimp only
  split
  · rename_i hrun
    have hone : distance = 1 := by omega
    subst hone
    obtain ⟨-, hbound, hsame, hstep⟩ := runLoop_spec mem (mem (anchor + len - 1))
      (length - 2 - (anchor + len)) (anchor + len - 1) (anchor + len)
    have hfirst := hstep (by omega) rfl
    refine ⟨by omega, by omega, hextend _ fun j hj => ?_⟩
    have hnext := hsame (j + 1) (by omega)
    rw [hsame j (by omega), ← hnext]
    congr 1
    omega
  · obtain ⟨hle₁, hbound₁, hsame₁, hstep₁, hall₁⟩ :=
      compareLoop_spec mem 8 (anchor + len - distance) (anchor + len)
    have hfirst := hstep₁ (by omega)
    split
    · rename_i ip heq
      rw [heq] at hbound₁ hsame₁ hfirst
      exact ⟨hfirst, by omega, hextend _ hsame₁⟩
    · rename_i ip heq
      rw [heq] at hbound₁ hfirst hall₁
      obtain ⟨hip, hall₁⟩ := hall₁ rfl
      simp only at hip hfirst
      obtain ⟨hle₂, hbound₂, hsame₂, -⟩ :=
        compareLoop_spec mem (length - 2 - ip) (ip - distance) ip
      refine ⟨by omega, by omega, hextend _ fun j hj => ?_⟩
      rcases Nat.lt_or_ge j 8 with hj' | hj'
      · exact hall₁ j hj'
      · have hj₂ := hsame₂ (j - 8) (by omega)
        rwa [show ip - distance + (j - 8) = anchor + len - distance + j by omega,
          show ip + (j - 8) = anchor + len + j by omega] at hj₂

/-! ## The search -/

private theorem readU16_eq (mem : ℕ → UInt8) (p : ℕ) :
    readU16 mem p = (mem (p + 1)).toNat * 256 + (mem p).toNat := by
  have hlt : (mem p).toNat < 2 ^ 8 := UInt8.toNat_lt _
  rw [readU16, Nat.or_comm, ← Nat.shiftLeft_add_eq_or_of_lt hlt, Nat.shiftLeft_eq]

private theorem readU16_inj {mem : ℕ → UInt8} {p r : ℕ} (h : readU16 mem p = readU16 mem r) :
    mem p = mem r ∧ mem (p + 1) = mem (r + 1) := by
  have hp := UInt8.toNat_lt (mem p)
  have hr := UInt8.toNat_lt (mem r)
  rw [readU16_eq, readU16_eq] at h
  exact ⟨UInt8.toNat_inj.1 (by omega), UInt8.toNat_inj.1 (by omega)⟩

/-- The check for a run compares four equal bytes. -/
theorem isRun_repeats {ip : ℕ} (hpos : 0 < ip) (h : isRun mem ip) : Repeats mem ip 1 3 := by
  obtain ⟨hfirst, hwords⟩ := h
  obtain ⟨hsecond, hthird⟩ := readU16_inj hwords
  rw [Nat.sub_add_cancel hpos] at hthird
  intro k hk
  obtain rfl | rfl | rfl : k = 0 ∨ k = 1 ∨ k = 2 := by omega
  · exact hfirst
  · exact hsecond.symm.trans hfirst.symm
  · exact hthird.symm.trans (hfirst.trans hsecond)

/-- The check for a match compares what it says it does. -/
theorem isMatch_spec {anchor ref len : ℕ} (hle : ref ≤ anchor)
    (h : isMatch level mem anchor ref = some len) :
    0 < anchor - ref ∧ anchor - ref < level.reach ∧ 3 ≤ len ∧ len ≤ 5 ∧
      (level = .two → level.maxDistance ≤ anchor - ref → len = 5) ∧
      Repeats mem anchor (anchor - ref) len := by
  unfold isMatch at h
  dsimp only at h
  split at h
  · cases h
  rename_i hnear
  simp only [not_or, not_not, Nat.not_le] at hnear
  obtain ⟨hpos, hreach, h₀, h₁, h₂⟩ := hnear
  have hback : ∀ k, anchor + k - (anchor - ref) = ref + k := by omega
  have hthree : Repeats mem anchor (anchor - ref) 3 := by
    intro k hk
    rw [hback]
    obtain rfl | rfl | rfl : k = 0 ∨ k = 1 ∨ k = 2 := by omega
    · exact h₀.symm
    · exact h₁.symm
    · exact h₂.symm
  split at h
  · split at h
    · cases h
    rename_i hfar
    simp only [not_or, not_not] at hfar
    obtain ⟨h₃, h₄⟩ := hfar
    obtain rfl := Option.some.inj h
    refine ⟨Nat.pos_of_ne_zero hpos, hreach, by omega, by omega, fun _ _ => rfl, fun k hk => ?_⟩
    rcases Nat.lt_or_ge k 3 with hk' | hk'
    · exact hthree k hk'
    · rw [hback]
      obtain rfl | rfl : k = 3 ∨ k = 4 := by omega
      · exact h₃
      · exact h₄
  · rename_i hfar
    obtain rfl := Option.some.inj h
    exact ⟨Nat.pos_of_ne_zero hpos, hreach, by omega, by omega,
      fun htwo hdist => absurd ⟨htwo, hdist⟩ hfar, hthree⟩

/-! ## What has been written -/

/-- Whole tokens that spell the first `p` bytes of the input. -/
def Written (level : Level) (mem : ℕ → UInt8) (p : ℕ) (done : List UInt8) : Prop :=
  ∃ ts, done = ts.flatMap (encodeToken level) ∧ Spells mem ts 0 p ∧ ∀ t ∈ ts, Fits level t

theorem Written.token {p q : ℕ} {done : List UInt8} {t : Token UInt8} (h : Written level mem p done)
    (ht : t.Spells mem p q) (hfits : Fits level t) :
    Written level mem q (done ++ encodeToken level t) := by
  obtain ⟨ts, rfl, hspells, hall⟩ := h
  refine ⟨ts ++ [t], ?_, hspells.snoc ht, fun u hu => ?_⟩
  · rw [List.flatMap_append, List.flatMap_singleton]
  · rcases List.mem_append.1 hu with hu | hu
    · exact hall u hu
    · rwa [List.mem_singleton.1 hu]

/-- Literals that are counted. -/
theorem Written.literals {p n : ℕ} {done : List UInt8} (h : Written level mem p done) (hpos : 0 < n)
    (hmax : n ≤ maxCopy) :
    Written level mem (p + n) (done ++ UInt8.ofNat (n - 1) :: segment mem p n) := by
  have hlen := segment_length mem p n
  have ht : (Token.lit (segment mem p n)).Spells mem p (p + n) := by
    refine ⟨?_, ?_⟩ <;> rw [hlen]
  have hw := h.token ht ⟨by rwa [hlen], by rwa [hlen]⟩
  rwa [encodeToken, hlen] at hw

/-- At level one a long match is written in pieces of 262 bytes. -/
theorem Written.encodeMatch1 {p n distance fuel : ℕ} {done : List UInt8}
    (h : Written .one mem p done) (hn : 3 ≤ n) (hpos : 0 < distance) (hle : distance ≤ p)
    (hreach : distance < Level.one.reach) (hrep : Repeats mem p distance n) (hfuel : n ≤ fuel + 2) :
    Written .one mem (p + n) (done ++ Fastlz.encodeMatch1 (distance - 1) fuel (n - 2)) := by
  have hwhole : ∀ {p n done}, Written .one mem p done → 3 ≤ n → n ≤ maxLen → distance ≤ p →
      Repeats mem p distance n →
      Written .one mem (p + n) (done ++ encodeShort (n - 2) (distance - 1)) :=
    fun h hn hmax hle hrep => h.token (t := .copy _ _) ⟨rfl, hpos, hle, hrep⟩
      ⟨hn, hpos, hreach, fun _ => hmax⟩
  induction fuel generalizing p n done with
  | zero => omega
  | succ fuel ih =>
    have hmaxLen : maxLen = 264 := rfl
    rw [Fastlz.encodeMatch1]
    split
    · rename_i hlong
      -- the piece is a token of its own, then the rest
      have hpiece := hwhole (n := 262) h (by omega) (by omega) hle fun k hk => hrep k (by omega)
      have hrest := ih (n := n - 262) hpiece (by omega) (by omega) (fun k hk => ?_) (by omega)
      · rw [show p + 262 + (n - 262) = p + n by omega, List.append_assoc] at hrest
        rw [show n - 2 - (maxLen - 2) = n - 262 - 2 by omega]
        exact hrest
      · have hk' := hrep (262 + k) (by omega)
        rwa [← Nat.add_assoc] at hk'
    · exact hwhole h hn (by omega) hle hrep

/-- A match is written as tokens, at both levels. -/
theorem Written.encodeMatch {p n distance : ℕ} {done : List UInt8} (h : Written level mem p done)
    (hn : 3 ≤ n) (hpos : 0 < distance) (hle : distance ≤ p) (hreach : distance < level.reach)
    (hrep : Repeats mem p distance n) :
    Written level mem (p + n) (done ++ Fastlz.encodeMatch level (distance - 1) (n - 2)) := by
  cases level with
  | one => exact h.encodeMatch1 hn hpos hle hreach hrep (by omega)
  | two => exact h.token (t := .copy _ _) ⟨rfl, hpos, hle, hrep⟩ ⟨hn, hpos, hreach, fun h => nomatch h⟩

/-! ## Sizes -/

theorem lengthCodes_length_le (fuel len : ℕ) : (lengthCodes fuel len).length ≤ len / 255 + 1 := by
  induction fuel generalizing len with
  | zero => exact Nat.succ_le_succ (Nat.zero_le _)
  | succ fuel ih =>
    rw [lengthCodes]
    split
    · have hrest := ih (len - 255)
      rw [List.length_cons]
      omega
    · exact Nat.succ_le_succ (Nat.zero_le _)

theorem encodeShort_length_le {len : ℕ} (hlen : 0 < len) (distance : ℕ) :
    (encodeShort len distance).length ≤ len + 1 := by
  unfold encodeShort
  split
  · show 2 ≤ len + 1
    omega
  · show 3 ≤ len + 1
    omega

theorem encodeMatch1_length_le {len : ℕ} (hlen : 0 < len) (distance fuel : ℕ) :
    (encodeMatch1 distance fuel len).length ≤ len + 1 := by
  induction fuel generalizing len with
  | zero => exact encodeShort_length_le hlen distance
  | succ fuel ih =>
    have hmaxLen : maxLen = 264 := rfl
    rw [encodeMatch1]
    split
    · have hrest := @ih (len - (maxLen - 2)) (by omega)
      rw [List.length_append]
      show 3 + _ ≤ _
      omega
    · exact encodeShort_length_le hlen distance

/-- A match takes less room than what it stands for, a far one from five bytes on. -/
theorem encodeMatch_length_le {len distance : ℕ} (hlen : 0 < len)
    (hfar : level = .two → level.maxDistance ≤ distance → 3 ≤ len) :
    (encodeMatch level distance len).length ≤ len + 1 := by
  cases level with
  | one => exact encodeMatch1_length_le hlen distance len
  | two =>
    have hcodes := lengthCodes_length_le len (len - 7)
    show (encodeMatch2 distance len).length ≤ len + 1
    unfold encodeMatch2
    by_cases hnear : distance < Level.two.maxDistance
    · rw [if_pos hnear]
      split
      · show 2 ≤ len + 1
        omega
      · rw [List.length_append, List.length_cons]
        show _ + 1 + 1 ≤ len + 1
        omega
    · have hthree := hfar rfl (Nat.le_of_not_lt hnear)
      rw [if_neg hnear]
      dsimp only
      split
      · show 4 ≤ len + 1
        omega
      · rw [List.length_append, List.length_cons]
        show _ + 1 + 3 ≤ len + 1
        omega

/-! ## The invariant of the loop -/

/-- Whole tokens, then the control byte of the `copy` pending literals and these. -/
structure Compressor.Inv (level : Level) (mem : ℕ → UInt8) (s : Compressor) : Prop where
  copy_lt : s.copy < maxCopy
  copy_le : s.copy ≤ s.ip
  out : ∃ done, Written level mem (s.ip - s.copy) done ∧
    s.out = done ++ UInt8.ofNat (maxCopy - 1) :: segment mem (s.ip - s.copy) s.copy
  size : s.out.length ≤ s.ip + (s.ip - s.copy) / 32 + 1

namespace Compressor

variable {s : Compressor}

/-- The table has no part in it. -/
theorem Inv.withHtab (h : s.Inv level mem) (htab : Fin hashSize → ℕ) :
    ({ s with htab := htab } : Compressor).Inv level mem := ⟨h.copy_lt, h.copy_le, h.out, h.size⟩

/-- One literal more. -/
theorem Inv.literal (h : s.Inv level mem) : (s.literal mem).Inv level mem := by
  obtain ⟨done, hdone, hout⟩ := h.out
  have hlt := h.copy_lt
  have hle := h.copy_le
  have hsize := h.size
  have hmaxCopy : maxCopy = 32 := rfl
  have hpos : s.ip + 1 - (s.copy + 1) = s.ip - s.copy := by omega
  have hsucc : segment mem (s.ip - s.copy) s.copy ++ [mem s.ip] =
      segment mem (s.ip - s.copy) (s.copy + 1) := by
    rw [Lz77.segment_succ, Nat.sub_add_cancel hle]
  unfold Compressor.literal
  split
  · rename_i hfull
    -- the run is full: it becomes a token, and the next one is opened
    have htoken := hdone.literals (n := s.copy + 1) (Nat.succ_pos _) (by omega)
    rw [show s.ip - s.copy + (s.copy + 1) = s.ip + 1 by omega] at htoken
    have hcount : maxCopy - 1 = s.copy := by omega
    refine ⟨Nat.succ_pos 31, Nat.zero_le _, ⟨_, htoken, ?_⟩, ?_⟩
    · rw [hout, Lz77.segment_zero, ← hsucc, Nat.add_sub_cancel, hcount]
      simp only [List.append_assoc, List.cons_append]
    · show (s.out ++ [mem s.ip] ++ [_]).length ≤ s.ip + 1 + (s.ip + 1 - 0) / 32 + 1
      rw [List.length_append, List.length_append, List.length_singleton, List.length_singleton]
      omega
  · rename_i hroom
    refine ⟨?_, ?_, ⟨done, ?_, ?_⟩, ?_⟩
    · show s.copy + 1 < maxCopy
      omega
    · show s.copy + 1 ≤ s.ip + 1
      omega
    · show Written level mem (s.ip + 1 - (s.copy + 1)) done
      rwa [hpos]
    · show s.out ++ [mem s.ip] = done ++ _ :: segment mem (s.ip + 1 - (s.copy + 1)) (s.copy + 1)
      rw [hpos, hout, ← hsucc, List.append_assoc, List.cons_append]
    · show (s.out ++ [mem s.ip]).length ≤ s.ip + 1 + (s.ip + 1 - (s.copy + 1)) / 32 + 1
      rw [hpos, List.length_append, List.length_singleton]
      omega

theorem literal_ip (s : Compressor) : (s.literal mem).ip = s.ip + 1 := by
  unfold literal
  split <;> rfl

theorem literal_htab (s : Compressor) : (s.literal mem).htab = s.htab := by
  unfold literal
  split <;> rfl

/-- Closing the pending literals leaves whole tokens. -/
theorem Inv.adjustCopy (h : s.Inv level mem) :
    Written level mem s.ip (adjustCopy s.out s.copy) ∧
      (Fastlz.adjustCopy s.out s.copy).length ≤ s.ip + s.ip / 32 + 1 := by
  obtain ⟨done, hdone, hout⟩ := h.out
  have hlt := h.copy_lt
  have hle := h.copy_le
  have hsize := h.size
  unfold Fastlz.adjustCopy
  split
  · rename_i hcopy
    have hindex : s.out.length - s.copy - 1 = done.length := by
      rw [hout, List.length_append, List.length_cons, segment_length]
      omega
    have hset : s.out.set (s.out.length - s.copy - 1) (UInt8.ofNat (s.copy - 1)) =
        done ++ UInt8.ofNat (s.copy - 1) :: segment mem (s.ip - s.copy) s.copy := by
      rw [hindex, hout, List.set_append_right _ _ (Nat.le_refl _), Nat.sub_self, List.set_cons_zero]
    have htoken := hdone.literals (n := s.copy) (Nat.pos_of_ne_zero hcopy) (Nat.le_of_lt hlt)
    rw [Nat.sub_add_cancel hle] at htoken
    refine ⟨?_, ?_⟩
    · rwa [hset]
    · rw [List.length_set]
      omega
  · rename_i hcopy
    have hzero : s.copy = 0 := Decidable.not_not.1 hcopy
    rw [hzero, Nat.sub_zero] at hdone hout
    rw [Lz77.segment_zero] at hout
    refine ⟨?_, ?_⟩
    · rwa [hout, List.dropLast_concat]
    · rw [List.length_dropLast]
      omega

/-- A slot that is overwritten stays below a bound. -/
private theorem update_le {htab : Fin hashSize → ℕ} {slot : Fin hashSize} {n x : ℕ}
    (h : ∀ i, htab i ≤ n) (hx : x ≤ n) (i : Fin hashSize) : Function.update htab slot x i ≤ n := by
  rcases eq_or_ne i slot with rfl | hne
  · rwa [Function.update_self]
  · rw [Function.update_of_ne hne]
    exact h i

/-- A match that was found is written, and the table still holds positions in front of `ip`. -/
theorem Inv.takeMatch {len distance : ℕ} (h : s.Inv level mem) (hhtab : ∀ i, s.htab i ≤ s.ip)
    (hlimit : s.ip + 12 < length) (hlen : 3 ≤ len) (hmax : len ≤ 5) (hpos : 0 < distance)
    (hle : distance ≤ s.ip) (hreach : distance < level.reach)
    (hfar : level = .two → level.maxDistance ≤ distance → len = 5)
    (hrep : Repeats mem s.ip distance len) :
    (s.takeMatch level mem (length - 2) len distance).Inv level mem ∧
      (∀ i, (s.takeMatch level mem (length - 2) len distance).htab i <
        (s.takeMatch level mem (length - 2) len distance).ip) ∧
      s.ip < (s.takeMatch level mem (length - 2) len distance).ip ∧
      (s.takeMatch level mem (length - 2) len distance).ip ≤ length := by
  obtain ⟨hend, hbound, hrest⟩ := matchEnd_spec hlimit hlen hmax hpos hle hrep
  unfold Compressor.takeMatch
  dsimp only
  generalize matchEnd mem (length - 2) s.ip len distance = e at hend hbound hrest
  -- the match is of `e - 1 - s.ip` bytes
  have hip : e - 3 + 2 = s.ip + (e - 1 - s.ip) := by omega
  have hbiased : e - 3 - s.ip = e - 1 - s.ip - 2 := by omega
  obtain ⟨hdone, hsize⟩ := h.adjustCopy
  have hwritten := hdone.encodeMatch (by omega) hpos hle hreach hrest
  have hshort : (encodeMatch level (distance - 1) (e - 3 - s.ip)).length ≤ e - 3 - s.ip + 1 := by
    refine encodeMatch_length_le (by omega) fun htwo hdist => ?_
    have hfive := hfar htwo (by omega)
    omega
  rw [← hip, ← hbiased] at hwritten
  refine ⟨⟨Nat.succ_pos 31, Nat.zero_le _, ⟨_, hwritten, rfl⟩, ?_⟩, fun i => ?_, by omega, by omega⟩
  · show (_ ++ _ ++ [_]).length ≤ e - 3 + 2 + (e - 3 + 2 - 0) / 32 + 1
    rw [List.length_append, List.length_append, List.length_singleton]
    omega
  · have hold : ∀ i, s.htab i ≤ e - 3 + 1 := fun i => Nat.le_trans (hhtab i) (by omega)
    exact Nat.lt_succ_of_le
      (update_le (update_le hold (Nat.le_succ _)) (Nat.le_refl _) i)

/-- One iteration. -/
theorem Inv.step (h : s.Inv level mem) (hhtab : ∀ i, s.htab i < s.ip)
    (hlimit : s.ip + 12 < length) :
    (s.step level mem length).Inv level mem ∧
      (∀ i, (s.step level mem length).htab i < (s.step level mem length).ip) ∧
      s.ip < (s.step level mem length).ip ∧ (s.step level mem length).ip ≤ length := by
  have hpos : 0 < s.ip := Nat.lt_of_le_of_lt (Nat.zero_le _) (hhtab ⟨0, by decide⟩)
  unfold Compressor.step
  split
  · rename_i hrun
    exact h.takeMatch (fun i => Nat.le_of_lt (hhtab i)) hlimit (by omega) (by omega) (by omega) hpos
      (by cases level <;> decide)
      (fun htwo hdist => by subst htwo; exact absurd hdist (by decide)) (isRun_repeats hpos hrun.2)
  · dsimp only
    have hslot := hhtab (hashFunction mem s.ip)
    generalize s.htab (hashFunction mem s.ip) = ref at hslot
    have hupdate : ∀ i, Function.update s.htab (hashFunction mem s.ip) s.ip i ≤ s.ip :=
      update_le (fun i => Nat.le_of_lt (hhtab i)) (Nat.le_refl _)
    have h' := h.withHtab (Function.update s.htab (hashFunction mem s.ip) s.ip)
    split
    · refine ⟨h'.literal, fun i => ?_, ?_, ?_⟩
      · rw [literal_ip, literal_htab]
        exact Nat.lt_succ_of_le (hupdate i)
      · rw [literal_ip]
        exact Nat.lt_succ_self _
      · rw [literal_ip]
        show s.ip + 1 ≤ length
        omega
    · rename_i len hmatch
      obtain ⟨hdist, hreach, hlen, hmax, hfar, hrep⟩ := isMatch_spec (Nat.le_of_lt hslot) hmatch
      exact h'.takeMatch hupdate hlimit hlen hmax hdist (Nat.sub_le _ _) hreach hfar hrep

theorem Inv.mainLoop (h : s.Inv level mem) (hhtab : ∀ i, s.htab i < s.ip) (hle : s.ip ≤ length)
    (fuel : ℕ) : (s.mainLoop level mem length fuel).Inv level mem ∧
      (s.mainLoop level mem length fuel).ip ≤ length ∧
      (length ≤ s.ip + fuel → ¬ (s.mainLoop level mem length fuel).ip + 12 < length) := by
  induction fuel generalizing s with
  | zero =>
    rw [Compressor.mainLoop]
    exact ⟨h, hle, fun hfuel => by omega⟩
  | succ fuel ih =>
    rw [Compressor.mainLoop]
    split
    · rename_i hlimit
      obtain ⟨hstep, hhtab', hlt, hle'⟩ := h.step hhtab hlimit
      obtain ⟨hinv, hend, hdone⟩ := ih hstep hhtab' hle'
      exact ⟨hinv, hend, fun hfuel => hdone (by omega)⟩
    · rename_i hlimit
      exact ⟨h, hle, fun _ => hlimit⟩

theorem Inv.leftOver (h : s.Inv level mem) (left : ℕ) :
    (s.leftOver mem left).Inv level mem ∧ (s.leftOver mem left).ip = s.ip + left := by
  induction left generalizing s with
  | zero => exact ⟨h, rfl⟩
  | succ left ih =>
    obtain ⟨hinv, hip⟩ := ih h.literal
    refine ⟨hinv, hip.trans ?_⟩
    rw [literal_ip]
    omega

theorem inv_start (level : Level) (mem : ℕ → UInt8) : (Compressor.start mem).Inv level mem := by
  refine ⟨?_, ?_, ⟨[], ⟨[], rfl, rfl, fun t ht => ?_⟩, rfl⟩, ?_⟩
  · show 2 < 32
    omega
  · exact Nat.le_refl 2
  · cases ht
  · exact Nat.succ_le_succ (Nat.le_add_right 2 _)

/-- **The main loop** keeps the invariant, and it ends because its condition fails. -/
theorem inv_mainLoop (level : Level) (mem : ℕ → UInt8) (hlength : 2 ≤ length) (fuel : ℕ) :
    ((start mem).mainLoop level mem length fuel).Inv level mem ∧
      ((start mem).mainLoop level mem length fuel).ip ≤ length ∧
      (length ≤ 2 + fuel → ¬ ((start mem).mainLoop level mem length fuel).ip + 12 < length) :=
  (inv_start level mem).mainLoop (fun _ => Nat.succ_pos 1) hlength fuel

end Compressor

/-! ## The output -/

/-- From four bytes on the output is whole tokens that spell the input, the first one marked. -/
theorem fastlzCompressor_written (level : Level) (mem : ℕ → UInt8) (hlength : 4 ≤ length) :
    ∃ done, Written level mem length done ∧ done.length ≤ length + length / 32 + 1 ∧
      fastlzCompressor level mem length = marker level done := by
  obtain ⟨hloop, hle, -⟩ := Compressor.inv_mainLoop level mem (show 2 ≤ length by omega) length
  obtain ⟨hover, hip⟩ := hloop.leftOver
    (length - ((Compressor.start mem).mainLoop level mem length length).ip)
  rw [Nat.add_sub_cancel' hle] at hip
  obtain ⟨hwritten, hsize⟩ := hover.adjustCopy
  rw [hip] at hwritten hsize
  refine ⟨_, hwritten, hsize, ?_⟩
  rw [fastlzCompressor, if_neg (by omega)]

/-- Written tokens are decompressed, whatever level bits their first byte carries. -/
theorem fastlzDecompressor_written {p : ℕ} {done : List UInt8} (h : Written level mem p done)
    (hpos : 0 < p) (hp : p ≤ maxout) :
    ∃ c bytes, done = c :: bytes ∧ c.toNat < 32 ∧ ∀ c' behind, c'.toNat &&& 31 = c.toNat →
      fastlzDecompressor level (c' :: (bytes ++ behind)) done.length maxout =
        .returned (segment mem 0 p) := by
  obtain ⟨ts, rfl, hspells, hfits⟩ := h
  obtain ⟨symbols, us, rfl⟩ := hspells.head hpos
  obtain ⟨-, hmax⟩ := hfits _ (List.mem_cons_self ..)
  have hmaxCopy : maxCopy = 32 := rfl
  refine ⟨_, _, rfl, ?_, fun c' behind hc => ?_⟩
  · rw [UInt8.toNat_ofNat']
    omega
  -- the decompressor begins as if it had just taken a control byte
  have hloop := loop_tokens hfits hspells hp behind
    (Nat.le_succ (List.flatMap (encodeToken level) (Token.lit symbols :: us)).length)
  rw [List.flatMap_cons] at hloop ⊢
  simp only [encodeToken, List.cons_append] at hloop hc ⊢
  rw [next, List.length_cons, if_pos (Nat.succ_pos _)] at hloop
  rw [fastlzDecompressor, hc, List.length_cons]
  exact hloop

/-- The level bits of a control byte below 32. -/
private theorem or_marker {c : UInt8} (hc : c.toNat < 32) :
    (c ||| UInt8.ofNat (1 <<< 5)).toNat = c.toNat + 32 := by
  have hsum := Nat.two_pow_add_eq_or_of_lt (i := 5) hc 1
  rw [Nat.mul_one] at hsum
  rw [UInt8.toNat_or, Nat.or_comm, Nat.add_comm]
  exact hsum.symm

/-- **A compressed block is decompressed to the input**, whatever lies behind it. -/
theorem fastlzDecompress_fastlzCompressor (level : Level) (mem : ℕ → UInt8) (hpos : 0 < length)
    (hroom : length ≤ maxout) (behind : List UInt8) :
    fastlzDecompress (fastlzCompressor level mem length ++ behind)
      (fastlzCompressor level mem length).length maxout = .returned (segment mem 0 length) := by
  by_cases hlength : length < 4
  · -- literals without a marker, which are a block of level one
    have hw : Written .one mem (0 + length)
        ([] ++ UInt8.ofNat (length - 1) :: segment mem 0 length) :=
      Written.literals ⟨[], rfl, rfl, fun t ht => nomatch ht⟩ hpos
        (Nat.le_trans (Nat.le_of_lt hlength) (by decide))
    rw [Nat.zero_add, List.nil_append] at hw
    obtain ⟨c, bytes, hdone, hc, hrun⟩ := fastlzDecompressor_written hw hpos hroom
    rw [fastlzCompressor, if_pos hlength, if_pos (Nat.ne_of_gt hpos), hdone, List.cons_append,
      fastlzDecompress, if_pos, ← hdone, hrun c behind]
    · rw [and_31, Nat.mod_eq_of_lt hc]
    · rw [shiftRight_5, Nat.div_eq_of_lt hc]
  · obtain ⟨done, hw, -, heq⟩ := fastlzCompressor_written level mem (Nat.le_of_not_lt hlength)
    obtain ⟨c, bytes, hdone, hc, hrun⟩ := fastlzDecompressor_written hw hpos hroom
    rw [heq]
    cases level with
    | one =>
      rw [marker, hdone, List.cons_append, fastlzDecompress, if_pos, ← hdone, hrun c behind]
      · rw [and_31, Nat.mod_eq_of_lt hc]
      · rw [shiftRight_5, Nat.div_eq_of_lt hc]
    | two =>
      have hmarked : marker .two done = (c ||| UInt8.ofNat (1 <<< 5)) :: bytes := by
        rw [hdone]
        rfl
      have hlen : (marker .two done).length = done.length := List.length_modify ..
      have hor := or_marker hc
      rw [hlen, hmarked, List.cons_append, fastlzDecompress, hor, if_neg, if_pos,
        hrun _ behind]
      · rw [hor, and_31]
        omega
      · rw [shiftRight_5]
        omega
      · rw [shiftRight_5]
        omega

/-- **FastLZ round trip**: what `fastlz_compress` and `fastlz_compress_level` make of an input,
`fastlz_decompress` makes the input of again. The block may be followed by any bytes. -/
theorem fastlz_roundTrip (mem : ℕ → UInt8) (hpos : 0 < length) (hroom : length ≤ maxout)
    (behind : List UInt8) :
    fastlzDecompress (fastlzCompress mem length ++ behind) (fastlzCompress mem length).length maxout =
        .returned (segment mem 0 length) ∧
      ∀ level, level = 1 ∨ level = 2 →
        fastlzDecompress (fastlzCompressLevel level mem length ++ behind)
          (fastlzCompressLevel level mem length).length maxout = .returned (segment mem 0 length) := by
  have hlevel := fun level => fastlzDecompress_fastlzCompressor level mem hpos hroom behind
  constructor
  · unfold fastlzCompress
    split
    · exact hlevel .one
    · exact hlevel .two
  · rintro level (rfl | rfl)
    · exact hlevel .one
    · exact hlevel .two

/-- Forty bytes that repeat every five. -/
theorem fastlz_roundTrip_repeating :
    fastlzDecompress (fastlzCompress (fun i => UInt8.ofNat (i % 5)) 40 ++ [255])
          (fastlzCompress (fun i => UInt8.ofNat (i % 5)) 40).length 40 =
        .returned (segment (fun i => UInt8.ofNat (i % 5)) 0 40) ∧
      ∀ level, level = 1 ∨ level = 2 →
        fastlzDecompress (fastlzCompressLevel level (fun i => UInt8.ofNat (i % 5)) 40 ++ [255])
            (fastlzCompressLevel level (fun i => UInt8.ofNat (i % 5)) 40).length 40 =
          .returned (segment (fun i => UInt8.ofNat (i % 5)) 0 40) :=
  fastlz_roundTrip _ (Nat.succ_pos 39) (Nat.le_refl 40) [255]

/-! ## The output buffer -/

@[simp] theorem marker_length (level : Level) (out : List UInt8) :
    (marker level out).length = out.length := by
  cases level with
  | one => rfl
  | two => exact List.length_modify ..

/-- The output grows by at most one byte in 32, and one. -/
theorem fastlzCompressor_length_le (level : Level) (mem : ℕ → UInt8) (length : ℕ) :
    (fastlzCompressor level mem length).length ≤ length + length / 32 + 1 := by
  by_cases hlength : length < 4
  · rw [fastlzCompressor, if_pos hlength]
    split
    · rw [List.length_cons, segment_length]
      omega
    · exact Nat.zero_le _
  · obtain ⟨done, -, hsize, heq⟩ := fastlzCompressor_written level mem (Nat.le_of_not_lt hlength)
    rwa [heq, marker_length]

/-- "The output buffer must be at least 5% larger than the input buffer and can not be smaller than 66
bytes." -/
def outputBufferSize (length : ℕ) : ℕ := max 66 (length + length / 20)

theorem le_outputBufferSize (length : ℕ) : length + length / 32 + 1 ≤ outputBufferSize length := by
  rw [outputBufferSize]
  omega

theorem Compressor.Inv.out_le {s : Compressor} (h : s.Inv level mem) (hle : s.ip ≤ length) :
    s.out.length ≤ outputBufferSize length := by
  have hsize := h.size
  have hbuf := le_outputBufferSize length
  omega

/-- **The output buffer that the header file asks for is large enough**: `op` stays within it after any
number of rounds of either loop, and so does what is returned. -/
theorem fastlzCompressor_inBuffer (level : Level) (mem : ℕ → UInt8) (hlength : 4 ≤ length) :
    (∀ rounds, ((Compressor.start mem).mainLoop level mem length rounds).out.length ≤
      outputBufferSize length) ∧
    (∀ rounds, rounds ≤ length - ((Compressor.start mem).mainLoop level mem length length).ip →
      (((Compressor.start mem).mainLoop level mem length length).leftOver mem rounds).out.length ≤
        outputBufferSize length) ∧
    (fastlzCompressor level mem length).length ≤ outputBufferSize length := by
  refine ⟨fun rounds => ?_, fun rounds hrounds => ?_, ?_⟩
  · obtain ⟨hinv, hle, -⟩ := Compressor.inv_mainLoop level mem (show 2 ≤ length by omega) rounds
    exact hinv.out_le hle
  · obtain ⟨hinv, hle, -⟩ := Compressor.inv_mainLoop level mem (show 2 ≤ length by omega) length
    obtain ⟨hover, hip⟩ := hinv.leftOver rounds
    exact hover.out_le (by omega)
  · exact Nat.le_trans (fastlzCompressor_length_le level mem length) (le_outputBufferSize length)

/-- Sixteen equal bytes. -/
theorem fastlzCompressor_inBuffer_run :
    (∀ rounds, ((Compressor.start fun _ => 7).mainLoop .two (fun _ => 7) 16 rounds).out.length ≤ 66) ∧
    (∀ rounds,
      rounds ≤ 16 - ((Compressor.start fun _ => 7).mainLoop .two (fun _ => 7) 16 16).ip →
      (((Compressor.start fun _ => 7).mainLoop .two (fun _ => 7) 16 16).leftOver (fun _ => 7)
        rounds).out.length ≤ 66) ∧
    (fastlzCompressor .two (fun _ => 7) 16).length ≤ 66 :=
  fastlzCompressor_inBuffer .two (fun _ => 7) (show 4 ≤ 16 by omega)

end Fastlz

end RtThreadOta
