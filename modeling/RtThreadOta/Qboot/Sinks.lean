import RtThreadOta.Qboot.PkgLoop

/-!
# The two sinks

`destSink` writes decoded bytes to the target and keeps `Written`: the erased part of the target
holds the bytes so far and is blank behind them. `crcSink` keeps the register over the bytes so far.
-/

namespace RtThreadOta

open Interaction Nor Words

variable {L : Layout} {env : Env} {dst src : FalPartition} {rawSize unit : ℕ} {m m' m₀ : Flash}
  {X bs : List UInt8}

/-- The bytes of the target that `qbt_fw_release` erases: the blocks of the image and of the
header. -/
def Erased (L : Layout) (dst : FalPartition) (rawSize i : ℕ) : Prop :=
  i < eraseStop L dst rawSize ∨ eraseStart L dst (dst.len - fwInfoSize) ≤ i

/-- Bytes of one group of 32 are erased together. -/
theorem erased_congr {i j : ℕ} (h : i / 32 = j / 32) :
    Erased L dst rawSize i ↔ Erased L dst rawSize j := by
  obtain ⟨a, ha⟩ := dvd_eraseStop L dst rawSize
  obtain ⟨b, hb⟩ : 4096 ∣ eraseStart L dst (dst.len - fwInfoSize) :=
    Nat.dvd_trans (L.chip.blkSize_dvd dst.dev) (Nat.dvd_mul_left _ _)
  rw [Erased, Erased, ha, hb]
  omega

/-- The bytes `X` were written to the erased target. -/
structure Written (L : Layout) (dst : FalPartition) (rawSize : ℕ) (m₀ : Flash) (X : List UInt8)
    (m : Flash) : Prop where
  elsewhere : dst.SameElsewhere m₀ m
  byte : ∀ i < dst.len, Erased L dst rawSize i → dst.byte m i = X.getD i 0xFF

/-- Behind the bytes so far the target is blank. -/
theorem Written.blank (h : Written L dst rawSize m₀ X m) {i : ℕ} (hi : i < dst.len)
    (herased : Erased L dst rawSize i) (hX : X.length ≤ i) : dst.byte m i = 0xFF := by
  rw [h.byte i hi herased, List.getD_eq_default _ _ hX]

/-- The next bytes are programmed. -/
theorem Written.programmed (h : Written L dst rawSize m₀ X m)
    (hfit : X.length + bs.length ≤ dst.len) :
    Written L dst rawSize m₀ (X ++ bs) (dst.programmed m X.length bs) where
  elsewhere := h.elsewhere.trans (FalPartition.sameElsewhere_programmed hfit)
  byte i hi herased := by
    by_cases hin : X.length ≤ i ∧ i < X.length + bs.length
    · rw [FalPartition.byte_programmed hin.1 hin.2, h.blank hi herased hin.1, ff_and,
        List.getD_append_right _ _ _ _ hin.1, List.getD_eq_getElem _ _ (by omega),
        List.getD_eq_getElem _ _ (by omega)]
    · rw [FalPartition.byte_programmed_of_not hin, h.byte i hi herased]
      by_cases hlt : i < X.length
      · rw [List.getD_append _ _ _ _ hlt]
      · rw [List.getD_eq_default _ _ (by omega), List.getD_eq_default _ _ (by
          rw [List.length_append]
          omega)]

/-- Bytes that went past the end of the target, or to where it is not erased, are not missed. -/
theorem Written.append_of_not_erased (h : Written L dst rawSize m₀ X m)
    (hsame : dst.SameOutside X.length bs.length m m')
    (helsewhere : dst.SameElsewhere m m')
    (hnot : ∀ i, X.length ≤ i → i < X.length + bs.length → i < dst.len →
      ¬ Erased L dst rawSize i) : Written L dst rawSize m₀ (X ++ bs) m' where
  elsewhere := h.elsewhere.trans helsewhere
  byte i hi herased := by
    have hout : ¬ (X.length ≤ i ∧ i < X.length + bs.length) :=
      fun hin => hnot i hin.1 hin.2 hi herased
    rw [hsame.byte_eq hout, h.byte i hi herased]
    by_cases hlt : i < X.length
    · rw [List.getD_append _ _ _ _ hlt]
    · rw [List.getD_eq_default _ _ (by omega), List.getD_eq_default _ _ (by
        rw [List.length_append]
        omega)]

/-- The target within a call of `qbt_dest_part_write`. -/
def destMid (L : Layout) (dst : FalPartition) (rawSize unit : ℕ) (m₀ : Flash) : SinkInv Unit :=
  fun _ pos X s => Written L dst rawSize m₀ X s.flash ∧ pos = X.length ∧ unit ∣ X.length ∧
    X.length ≤ dst.len

/-- The target between two calls: a flush that went past its end counts as well. -/
def destInv (L : Layout) (dst : FalPartition) (rawSize unit : ℕ) (m₀ : Flash) : SinkInv Unit :=
  fun _ pos X s => Written L dst rawSize m₀ X s.flash ∧ pos = X.length ∧ unit ∣ X.length ∧
    X.length ≤ dst.len + gzipRemainBufSize

/-- Why `qbt_dest_part_write` did not write a chunk. -/
def DestRefused (L : Layout) (env : Env) (dst : FalPartition) (rawSize : ℕ) (m₀ : Flash)
    (X bs : List UInt8) (s : Board) : Prop :=
  ¬ Calm env ∨ bs = [] ∨ dst.len < X.length + bs.length ∧ Written L dst rawSize m₀ X s.flash ∨
    ∃ i, X.length ≤ i ∧ i < X.length + bs.length ∧ ¬ Erased L dst rawSize i

/-- A bit to raise lies where the target was not erased. -/
theorem Written.not_erased_of_not_below (h : Written L dst rawSize m₀ X m)
    (hfit : X.length + bs.length ≤ dst.len)
    (hbelow : ¬ ∀ (i : ℕ) (hi : i < bs.length), Below bs[i] (dst.byte m (X.length + i))) :
    ∃ i, X.length ≤ i ∧ i < X.length + bs.length ∧ ¬ Erased L dst rawSize i := by
  by_contra hcon
  push Not at hcon
  refine hbelow fun i hi => ?_
  rw [h.blank (by omega) (hcon (X.length + i) (by omega) (by omega)) (by omega)]
  exact below_ff _

theorem destSink_spec (hdst : dst ∈ L.parts) (hraw : rawSize ≤ dst.len)
    {E : Option Halt → Board → Prop} (hcut : ¬ Calm env → ∀ s', E none s') {FlushAt : ℕ → Prop}
    (hflush : ∀ a, FlushAt a → ∀ t bs, (env t (.write dst.dev (dst.offset + a) bs)).Quiet) :
    SinkSpec L env (fun _ => destSink (some dst)) id destPolicy rawSize unit
      (destInv L dst rawSize unit m₀) (destMid L dst rawSize unit m₀)
      (DestRefused L env dst rawSize m₀) FlushAt E where
  putLen_zero _ := rfl
  putLen _ _ := rfl
  flushLen _ bs hlt := by
    simp only [destSink, destPolicy, List.length_append, List.length_replicate]
    omega
  keepLen _ _ := Or.inl rfl
  enter {st pos X s} h hpos := by
    obtain ⟨hw, rfl, hunit, -⟩ := h
    exact ⟨hw, rfl, hunit, by omega⟩
  leave {st pos X s} h := by
    obtain ⟨hw, rfl, hunit, hle⟩ := h
    exact ⟨hw, rfl, hunit, by omega⟩
  wrap {st pos X s} h := by
    obtain ⟨hw, rfl, hunit, hle⟩ := h
    have := L.len_lt hdst
    have h32 : gzipRemainBufSize = 32 := rfl
    exact ⟨hw, u32_of_lt (by omega), hunit, hle⟩
  put {st X s pos writeLen bs} h _ hunit hbs := by
    obtain ⟨hw, hpos, hX, hle⟩ := h
    have hlen := L.len_lt hdst
    have hbuf : qbootBufSize = 4096 := rfl
    have hput : destPolicy.put (rawSize - pos) bs = bs := rfl
    rw [id, hpos, hput]
    show (falPartitionWrite (some dst) X.length bs >>= _).wp _ _ _ _
    rw [Prog.wp_bind]
    by_cases hout : dst.len < X.length + bs.length
    · rw [falPartitionWrite_out hout (by omega)]
      exact Or.inr (Or.inr (Or.inl ⟨hout, hw⟩))
    · refine wp_falPartitionWrite hdst (by omega) hcut (fun _ s' hs' _ => ?_)
        fun hbad r hr s' hs' _ => ?_
      · rw [if_neg (by omega)]
        refine ⟨hs' ▸ hw.programmed (by omega), List.length_append.symm, ?_, ?_⟩
        · rw [List.length_append]
          exact Nat.dvd_add hX hunit
        · rw [List.length_append]
          show X.length + bs.length ≤ dst.len
          omega
      · rw [if_pos hr]
        by_cases hcalm : Calm env
        · obtain ⟨-, hnil | hbelow⟩ := hbad fun t => by rw [hcalm]; exact Fault.none_quiet
          · exact Or.inr (Or.inl hnil)
          · exact Or.inr (Or.inr (Or.inr (hw.not_erased_of_not_below (by omega) hbelow)))
        · exact Or.inl hcalm
  flush {st X s pos writeLen bs} h hpos hunit hbs hat := by
    obtain ⟨hw, hpos, hX, hle⟩ := h
    subst hunit
    have hlen := L.len_lt hdst
    have h32 : gzipRemainBufSize = 32 := rfl
    obtain ⟨j, hj⟩ : 32 ∣ dst.len :=
      Nat.dvd_trans (Nat.dvd_trans ⟨128, rfl⟩ (L.chip.blkSize_dvd dst.dev))
        (L.sound dst hdst).len_aligned
    obtain ⟨k, hk⟩ := hX
    rw [h32] at hk
    have hpad : (bs ++ List.replicate (gzipRemainBufSize - bs.length) (0xFF : UInt8)).length = 32 := by
      rw [List.length_append, List.length_replicate]
      omega
    rw [id, hpos]
    show (falPartitionWrite (some dst) X.length (destPolicy.flush (rawSize - pos) bs) >>= _).wp _ _ _ _
    have hdef : destPolicy.flush (rawSize - pos) bs =
        bs ++ List.replicate (gzipRemainBufSize - bs.length) 0xFF := rfl
    rw [← hdef] at hpad
    generalize destPolicy.flush (rawSize - pos) bs = pad at hpad ⊢
    have hXpad : (X ++ pad).length = X.length + 32 := by rw [List.length_append, hpad]
    -- what is left to show once the bytes are where they belong
    have hdone : ∀ s' : Board, Written L dst rawSize m₀ (X ++ pad) s'.flash →
        destInv L dst rawSize gzipRemainBufSize m₀ () (X.length + pad.length) (X ++ pad) s' :=
      fun s' hs' => ⟨hs', List.length_append.symm, ⟨k + 1, by rw [h32]; omega⟩, by omega⟩
    rw [Prog.wp_bind]
    by_cases hend : X.length = dst.len
    · rw [falPartitionWrite_out (by omega) (by omega)]
      refine hdone s (hw.append_of_not_erased (fun _ _ _ => rfl) (fun _ _ _ => rfl) fun i h₁ _ h₃ => ?_)
      omega
    · refine wp_falPartitionWrite hdst (by omega) hcut (fun _ s' hs' _ => ?_)
        fun hbad r hr s' hs' _ => ?_
      · exact hdone s' (hs' ▸ hw.programmed (by omega))
      · obtain ⟨-, hnil | hbelow⟩ := hbad fun t => hflush _ (hpos ▸ hat) t _
        · rw [hnil] at hpad
          cases hpad
        · obtain ⟨i, h₁, h₂, h₃⟩ := hw.not_erased_of_not_below (by omega) hbelow
          -- the 32 bytes are erased together or not at all
          refine hdone s' (hw.append_of_not_erased hs' (hs'.elsewhere (by omega))
            fun i' h₁' h₂' _ => ?_)
          rwa [erased_congr (i := i') (j := i) (by omega)]

theorem destInv_keepsSource {m₁ : Flash} (hdst : dst ∈ L.parts) (hsrc : src ∈ L.parts)
    (hne : dst ≠ src) (h₁ : dst.SameElsewhere m₁ m₀) :
    KeepsSource src m₁ (destInv L dst rawSize unit m₀) where
  bytes h hn := (h₁.trans h.1.elsewhere).bytes_eq hdst hsrc hne hn
  read h hflash _ := by
    rw [destInv, hflash]
    exact h

/-- `qbt_app_crc_cal` keeps the register over the bytes so far and touches no flash. -/
def crcInv (m₀ : Flash) : SinkInv UInt32 :=
  fun crc32 _ X s => crc32 = crc32CycCal crc32InitVal X ∧ s.flash = m₀

theorem crcSink_spec {E : Option Halt → Board → Prop} :
    SinkSpec L env (fun pos => crcSink (rawSize - pos)) (fun _ => 0) crcPolicy rawSize unit
      (crcInv m₀) (crcInv m₀) (fun _ _ _ => False) (fun _ => True) E where
  putLen_zero _ := Nat.zero_min _
  putLen pos bs := by
    simp only [crcSink, crcPolicy, List.length_take]
    omega
  flushLen pos bs _ := by
    simp only [crcSink, crcPolicy, List.length_take]
    omega
  keepLen pos n := by
    simp only [crcSink]
    omega
  enter h _ := h
  leave h := h
  wrap h := h
  put h _ _ _ := ⟨by rw [crc32CycCal_append, ← h.1]; rfl, h.2⟩
  flush h _ _ _ _ := ⟨by rw [crc32CycCal_append, ← h.1]; rfl, h.2⟩

theorem crcInv_keepsSource (src : FalPartition) (m₀ : Flash) : KeepsSource src m₀ (crcInv m₀) where
  bytes h _ := by rw [h.2]
  read h hflash _ := ⟨h.1, hflash.trans h.2⟩

end RtThreadOta
