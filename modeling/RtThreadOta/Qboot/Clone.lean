import RtThreadOta.Qboot.BootFlow
import RtThreadOta.Qboot.CheckSpec

/-!
# Copies of a package

A check reads no further than the package goes, so it ends alike on two partitions that hold the same
package. `qbt_fw_clone` makes such a partition: it erases the blocks the package covers and programs
them chunk by chunk.
-/

namespace RtThreadOta

open Interaction Nor Words

variable {L : Layout} {P : Codecs} {env : Env} {src dst : FalPartition} {srcName dstName : List UInt8}
  {fuel : ℕ} {ram : Ram P} {s s' : Board} {m m' : Flash} {n : ℕ}

/-- The run of `qbt_fw_check` on a partition accepts what it holds. -/
def Accepts (L : Layout) (env : Env) (fuel : ℕ) (name : List UInt8) (ram : Ram P) (s : Board) : Prop :=
  ∃ ram' s', (qbtFwCheck L fuel name ram).run (world L env) s = .done (ram', true) s'

/-- Whether a run gave the answer true. -/
def answeredTrue {α : Type} (o : Outcome Halt Board (α × Bool)) : Bool :=
  match o with
  | .done (_, ok) _ => ok
  | _ => false

theorem accepts_of_answeredTrue
    (h : answeredTrue ((qbtFwCheck L fuel srcName ram).run (world L env) s) = true) :
    Accepts L env fuel srcName ram s := by
  unfold answeredTrue at h
  split at h
  · rename_i ram' ok s' heq
    exact ⟨ram', s', by rw [heq, h]⟩
  · cases h

/-! ## What an accepted package is -/

/-- The header of a partition is in order, and the body fits in and has the CRC of the header. -/
structure WellStored (part : FalPartition) (m : Flash) : Prop where
  header : qbtFwInfoCheck (part.info m 0) = true
  fits : fwInfoSize + (part.info m 0).pkgSize ≤ part.len
  body : (crc32Cal (part.body m (part.info m 0))).toNat = (part.info m 0).pkgCrc

/-- A length from `2 ^ 31` on is read as a whole: out of the partition, or over the buffer. -/
theorem wp_qbtFwCrcCheck_huge (hname : falPartitionFind L srcName = some src) {addr size crc : ℕ}
    (hsize : 2147483648 ≤ size) (hlt : size < 4294967296) :
    (qbtFwCrcCheck L fuel srcName addr size crc ram).wp (world L env) (fun r _ => r.2 = false)
      (fun _ _ => True) s := by
  rw [qbtFwCrcCheck, hname]
  dsimp only
  rw [Prog.wp_bind]
  cases fuel with
  | zero => exact trivial
  | succ fuel =>
    have hn : readLen qbootBufSize (subU32 size 0) = size := by
      have hbuf : qbootBufSize = 4096 := rfl
      rw [subU32_of_le (Nat.zero_le _) hlt, Nat.sub_zero, readLen, toInt32_of_le hsize hlt,
        if_pos (by omega), ← toInt32_of_le hsize hlt, ofInt32_toInt32 hlt]
    rw [qbtFwCrcCheckLoop, if_pos (by omega), hn]
    dsimp only
    rw [falPartitionRead]
    split
    · exact rfl
    · rw [if_pos (Nat.lt_of_lt_of_le (by decide) hsize)]
      exact trivial

theorem Accepts.wellStored (hcalm : Calm env) (hname : falPartitionFind L srcName = some src)
    (h : Accepts L env fuel srcName ram s) : WellStored src s.flash := by
  have hsrc := mem_of_find hname
  have hlen := L.len_lt hsrc
  have hfit := (L.sound src hsrc).header_fits
  have hexist : qbtPartIsExist L srcName = true := by rw [qbtPartIsExist, hname]; rfl
  have hwp : (qbtFwCheck L fuel srcName ram).wp (world L env)
      (fun r _ => r.2 = true → WellStored src s.flash) (fun _ _ => True) s := by
    have hno : ∀ (ram' : Ram P), ((ram', false) : Ram P × Bool).2 = true → WellStored src s.flash :=
      fun _ hfalse => Bool.noConfusion hfalse
    rw [qbtFwCheck, hexist]
    show (qbtFwInfoRead L srcName ram false >>= _).wp _ _ _ _
    rw [Prog.wp_bind]
    refine wp_qbtFwInfoRead hname (hcalm.readsQuiet _) (fun hcut => absurd hcalm hcut) false
      fun s₁ hs₁ => ?_
    have haddr : infoAddr src false = 0 := rfl
    rw [haddr]
    dsimp only
    by_cases hheader : qbtFwInfoCheck (src.info s.flash 0) = true
    swap
    · rw [Bool.not_eq_true] at hheader
      rw [hheader]
      exact hno _
    rw [hheader]
    show (qbtFwCrcCheck L fuel srcName fwInfoSize (src.info s.flash 0).pkgSize _ _ >>= _).wp _ _ _ _
    rw [Prog.wp_bind]
    -- a failed CRC check ends it, whatever follows a passed one
    have hrest : ∀ (r : Ram P × Bool) (s₂ : Board), (r.2 = true → WellStored src s.flash) →
        (if !r.2 then (Prog.ret (r.1, false) : Code (Ram P × Bool))
          else if r.1.fwInfo.verifyType = qbootAlgo2VerifyCrc then qbtAppCrcCheck L fuel srcName r.1
          else Prog.ret (r.1, true)).wp (world L env)
            (fun r _ => r.2 = true → WellStored src s.flash) (fun _ _ => True) s₂ := by
      rintro ⟨ram', ok⟩ s₂ hok
      cases ok with
      | false => exact hno ram'
      | true =>
        have hall : ∀ p : Code (Ram P × Bool), p.wp (world L env)
            (fun r _ => r.2 = true → WellStored src s.flash) (fun _ _ => True) s₂ := by
          intro p
          rw [Prog.wp_iff_run]
          split
          · exact fun _ => hok rfl
          · trivial
          · trivial
        exact hall _
    rcases Nat.lt_or_ge (src.info s.flash 0).pkgSize 2147483648 with hsize | hsize
    · refine wp_qbtFwCrcCheck hname (hcalm.readsQuiet _) (fun hcut => absurd hcalm hcut) hsize
        (by rw [fwInfoSize]; omega) hfit (fun hin ram' s₂ _ _ => ?_) (fun _ ram' s₂ _ _ => ?_)
        fun _ _ => trivial
      · refine hrest _ s₂ fun hcrc => ⟨hheader, hin, ?_⟩
        rw [FalPartition.body, ← hs₁]
        rw [← hs₁] at hcrc
        exact of_decide_eq_true hcrc
      · exact hrest _ s₂ fun hfalse => Bool.noConfusion hfalse
    · refine Prog.wp_imp (wp_qbtFwCrcCheck_huge hname hsize (le32_lt _ _)) fun r s₂ hr => ?_
      refine hrest r s₂ fun htrue => ?_
      rw [hr] at htrue
      cases htrue
  obtain ⟨ram', s', hrun⟩ := h
  rw [Prog.wp_iff_run, hrun] at hwp
  exact hwp rfl

/-! ## Two partitions that begin alike -/

/-- The first `n` bytes of `src` are those of `dst` on another flash. -/
structure Mirror (L : Layout) (src dst : FalPartition) (n : ℕ) (m m' : Flash) : Prop where
  src_mem : src ∈ L.parts
  dst_mem : dst ∈ L.parts
  src_len : n ≤ src.len
  dst_len : n ≤ dst.len
  bytes : dst.bytes m' 0 n = src.bytes m 0 n

theorem Mirror.bytes_eq (h : Mirror L src dst n m m') {a k : ℕ} (hk : a + k ≤ n) :
    dst.bytes m' a k = src.bytes m a k := by
  have hcut := congrArg (fun bs => (bs.drop a).take k) h.bytes
  simp only [FalPartition.bytes, Nor.read_drop _ _ _ (Nat.le_of_add_right_le hk),
    Nor.read_take _ _ _ (Nat.le_sub_of_add_le' hk), Nat.add_zero] at hcut
  exact hcut

/-- Reads that go alike: both hand over the same bytes, or both overrun the buffer. -/
theorem Mirror.alike_read (h : Mirror L src dst n s.flash s'.flash) (hcalm : Calm env) {a k : ℕ}
    (hk : a + k ≤ n) (room : ℕ) :
    Prog.Alike (world L env) (world L env) (falPartitionRead (some src) a k room)
      (falPartitionRead (some dst) a k room)
      (fun r r' t t' => r = ((k : ℤ), some (src.bytes s.flash a k)) ∧ r' = r ∧ t.flash = s.flash ∧
        t'.flash = s'.flash) s s' := by
  have hsrc := L.len_lt h.src_mem
  have h₁ := h.src_len
  have h₂ := h.dst_len
  by_cases hroom : k ≤ room
  swap
  · have hover : ∀ p : FalPartition, a + k ≤ p.len →
        falPartitionRead (some p) a k room = Prog.halt .undefined := by
      intro p hp
      rw [falPartitionRead, u32_of_lt (by omega), if_neg (by omega), if_pos (by omega)]
    rw [hover src (by omega), hover dst (by omega)]
    exact Prog.alike_halt _
  refine Prog.alike_of_wp
    (F := fun r t => r = ((k : ℤ), some (src.bytes s.flash a k)) ∧ t.flash = s.flash)
    (G := fun r t => r = ((k : ℤ), some (dst.bytes s'.flash a k)) ∧ t.flash = s'.flash) ?_ ?_ ?_
  · exact wp_falPartitionRead h.src_mem (by omega) hroom (fun hcut => absurd hcalm hcut)
      (fun t ht _ => ⟨rfl, ht⟩) fun hbad => absurd (hcalm.readsQuiet _) hbad
  · exact wp_falPartitionRead h.dst_mem (by omega) hroom (fun hcut => absurd hcalm hcut)
      (fun t ht _ => ⟨rfl, ht⟩) fun hbad => absurd (hcalm.readsQuiet _) hbad
  · rintro _ _ t t' ⟨rfl, ht⟩ ⟨rfl, ht'⟩
    exact ⟨rfl, by rw [h.bytes_eq hk], ht, ht'⟩

/-- What two checks that go alike end with. -/
def Matched {α : Type} (m m' : Flash) : α → α → Board → Board → Prop :=
  fun r r' t t' => r' = r ∧ t.flash = m ∧ t'.flash = m'

theorem Mirror.alike_crcCheckLoop (h : Mirror L src dst n m m') (hcalm : Calm env)
    {addr size pos : ℕ} (hfit : addr + size ≤ n) (hpos : pos ≤ size) (crc32 : UInt32) {info : FwInfo}
    (hinfo : ram.fwInfo = info) (hs : s.flash = m) (hs' : s'.flash = m') :
    Prog.Alike (world L env) (world L env)
      (qbtFwCrcCheckLoop (some src) addr size fuel ram pos crc32)
      (qbtFwCrcCheckLoop (some dst) addr size fuel ram pos crc32)
      (fun r r' t t' => Matched m m' r r' t t' ∧ r.1.fwInfo = info) s s' := by
  have hlen := L.len_lt h.src_mem
  have hle := h.src_len
  induction fuel generalizing ram pos crc32 s s' with
  | zero => exact Prog.alike_halt _
  | succ fuel ih =>
    rw [qbtFwCrcCheckLoop, qbtFwCrcCheckLoop]
    by_cases hlt : pos < size
    swap
    · rw [if_neg hlt, if_neg hlt]
      exact ⟨⟨rfl, hs, hs'⟩, hinfo⟩
    have hn : readLen qbootBufSize (subU32 (u32 size) pos) = min qbootBufSize (size - pos) :=
      readLen_eq (by omega) hpos
    rw [u32_of_lt (by omega)] at hn
    rw [if_pos hlt, if_pos hlt, hn]
    generalize hmin : min qbootBufSize (size - pos) = k
    dsimp only
    rw [u32_of_lt (n := addr + pos) (by omega)]
    subst hs hs'
    refine Prog.Alike.bind ((h.alike_read hcalm (by omega) _).mono ?_)
    rintro _ _ t t' ⟨rfl, rfl, ht, ht'⟩
    dsimp only
    rw [if_neg (by omega), u32_of_lt (by omega)]
    exact ih (by omega) _ hinfo ht ht'

theorem Mirror.alike_crcCheck (h : Mirror L src dst n m m') (hcalm : Calm env)
    (hsrc : falPartitionFind L srcName = some src) (hdst : falPartitionFind L dstName = some dst)
    {addr size : ℕ} (hfit : addr + size ≤ n) (crc : ℕ) (hs : s.flash = m) (hs' : s'.flash = m') :
    Prog.Alike (world L env) (world L env) (qbtFwCrcCheck L fuel srcName addr size crc ram)
      (qbtFwCrcCheck L fuel dstName addr size crc ram)
      (fun r r' t t' => Matched m m' r r' t t' ∧ r.1.fwInfo = ram.fwInfo) s s' := by
  rw [qbtFwCrcCheck, qbtFwCrcCheck, hsrc, hdst]
  refine Prog.Alike.bind ((h.alike_crcCheckLoop hcalm hfit (Nat.zero_le _) _ rfl hs hs').mono ?_)
  rintro ⟨ram', res⟩ _ t t' ⟨⟨rfl, ht, ht'⟩, hfw⟩
  cases res with
  | none => exact ⟨⟨rfl, ht, ht'⟩, hfw⟩
  | some crc32 => exact ⟨⟨rfl, ht, ht'⟩, hfw⟩

/-- The reads of a package in step. -/
theorem Mirror.alike_pkgRead (h : Mirror L src dst n m m') (hcalm : Calm env) {pos len : ℕ}
    (hfit : pos + len ≤ n) (off cryptType : ℕ) (hs : s.flash = m) (hs' : s'.flash = m') :
    Prog.Alike (world L env) (world L env)
      (qbtFwPkgRead (some src) pos off len ram cryptType)
      (qbtFwPkgRead (some dst) pos off len ram cryptType) (Matched m m') s s' := by
  subst hs hs'
  rw [qbtFwPkgRead, qbtFwPkgRead]
  by_cases hnone : cryptType = qbootAlgoCryptNone
  · rw [if_pos hnone, if_pos hnone]
    refine Prog.Alike.bind ((h.alike_read hcalm hfit _).mono ?_)
    rintro _ _ t t' ⟨rfl, rfl, ht, ht'⟩
    dsimp only
    rw [if_neg (by omega)]
    exact ⟨rfl, ht, ht'⟩
  rw [if_neg hnone, if_neg hnone]
  by_cases haes : cryptType = qbootAlgoCryptAes
  swap
  · rw [if_neg haes, if_neg haes]
    exact ⟨rfl, rfl, rfl⟩
  rw [if_pos haes, if_pos haes]
  refine Prog.Alike.bind ((h.alike_read hcalm hfit _).mono ?_)
  rintro _ _ t t' ⟨rfl, rfl, ht, ht'⟩
  dsimp only
  rw [if_neg (by omega)]
  refine Prog.Alike.bind (Prog.Only.alike (only_qbtAesDecrypt ..) fun ram' => ?_)
  exact ⟨rfl, ht, ht'⟩

/-- Loops over a package in step, when what decodes it asks for nothing. -/
theorem Mirror.alike_pkgLoop {τ : Type} {call : τ → ℕ → Ram P → ℕ → Code (ArmEnd P τ)}
    (hcall : ∀ st pos ram len, (call st pos ram len).Only fun _ => False) {info : FwInfo}
    (h : Mirror L src dst (fwInfoSize + info.pkgSize) m m') (hcalm : Calm env) (st : τ)
    (pos cmprsLen : ℕ) {rp : ℕ} (hrp : rp ≤ fwInfoSize + info.pkgSize) (hs : s.flash = m)
    (hs' : s'.flash = m') :
    Prog.Alike (world L env) (world L env)
      (pkgLoop call (some src) info fuel ram st pos rp cmprsLen)
      (pkgLoop call (some dst) info fuel ram st pos rp cmprsLen) (Matched m m') s s' := by
  have hlen := L.len_lt h.src_mem
  have hle := h.src_len
  induction fuel generalizing ram st pos rp cmprsLen s s' with
  | zero => exact Prog.alike_halt _
  | succ fuel ih =>
    rw [pkgLoop, pkgLoop]
    by_cases hlt : pos < info.rawSize
    swap
    · rw [if_neg hlt, if_neg hlt]
      exact ⟨rfl, hs, hs'⟩
    have hn : readLen qbootCmprsReadSize (subU32 (u32 (info.pkgSize + fwInfoSize)) rp) =
        min qbootCmprsReadSize (info.pkgSize + fwInfoSize - rp) :=
      readLen_eq (by omega) (by omega)
    rw [if_pos hlt, if_pos hlt, hn]
    generalize hmin : min qbootCmprsReadSize (info.pkgSize + fwInfoSize - rp) = k
    dsimp only
    refine Prog.Alike.bind ((h.alike_pkgRead hcalm (by omega) _ _ hs hs').mono ?_)
    rintro ⟨ram', ok⟩ _ t t' ⟨rfl, ht, ht'⟩
    cases ok with
    | false => exact ⟨rfl, ht, ht'⟩
    | true =>
      refine Prog.Alike.bind (Prog.Only.alike (hcall ..) fun r => ?_)
      obtain ⟨ram'', cmprsLen', res⟩ := r
      cases res with
      | none => exact ⟨rfl, ht, ht'⟩
      | some r =>
        dsimp only
        rw [u32_of_lt (n := rp + k) (by omega)]
        exact ih _ _ _ (by omega) ht ht'

theorem Mirror.alike_appCrcCheck (h : Mirror L src dst (fwInfoSize + ram.fwInfo.pkgSize) m m')
    (hcalm : Calm env) (hsrc : falPartitionFind L srcName = some src)
    (hdst : falPartitionFind L dstName = some dst) (hs : s.flash = m) (hs' : s'.flash = m') :
    Prog.Alike (world L env) (world L env) (qbtAppCrcCheck L fuel srcName ram)
      (qbtAppCrcCheck L fuel dstName ram) (Matched m m') s s' := by
  rw [qbtAppCrcCheck, qbtAppCrcCheck, hsrc, hdst]
  dsimp only
  split
  · exact ⟨rfl, hs, hs'⟩
  split
  · exact ⟨rfl, hs, hs'⟩
  refine Prog.Alike.bind ((h.alike_pkgLoop (fun _ _ _ _ => only_decompressArm (crcSink_only _) _ _ _ _)
    hcalm _ _ _ (Nat.le_add_right _ _) hs hs').mono ?_)
  rintro ⟨ram', res⟩ _ t t' ⟨rfl, ht, ht'⟩
  cases res with
  | none => exact ⟨rfl, ht, ht'⟩
  | some crc32 => exact ⟨rfl, ht, ht'⟩

/-- `qbt_fw_check` ends alike on both. -/
theorem Mirror.alike_fwCheck (h : Mirror L src dst (fwInfoSize + (src.info m 0).pkgSize) m m')
    (hcalm : Calm env) (hsrc : falPartitionFind L srcName = some src)
    (hdst : falPartitionFind L dstName = some dst) (hs : s.flash = m) (hs' : s'.flash = m') :
    Prog.Alike (world L env) (world L env) (qbtFwCheck L fuel srcName ram)
      (qbtFwCheck L fuel dstName ram) (Matched m m') s s' := by
  have hexist : ∀ {name part}, falPartitionFind L name = some part → qbtPartIsExist L name = true := by
    intro name part hname
    rw [qbtPartIsExist, hname]
    rfl
  have hheader : dst.info m' 0 = src.info m 0 := by
    rw [FalPartition.info, FalPartition.info, h.bytes_eq (Nat.le_add_right _ _)]
  subst hs hs'
  rw [qbtFwCheck, qbtFwCheck, hexist hsrc, hexist hdst]
  show Prog.Alike _ _ (qbtFwInfoRead L srcName ram false >>= _)
    (qbtFwInfoRead L dstName ram false >>= _) _ _ _
  refine Prog.Alike.bind (Prog.alike_of_wp
    (wp_qbtFwInfoRead (Q := fun r t => r = ({ ram with fwInfo := src.info s.flash 0 }, true) ∧
      t.flash = s.flash) hsrc (hcalm.readsQuiet _) (fun hcut => absurd hcalm hcut) false
      fun t ht => ⟨rfl, ht⟩)
    (wp_qbtFwInfoRead (Q := fun r t => r = ({ ram with fwInfo := dst.info s'.flash 0 }, true) ∧
      t.flash = s'.flash) hdst (hcalm.readsQuiet _) (fun hcut => absurd hcalm hcut) false
      fun t ht => ⟨rfl, ht⟩) ?_)
  rintro _ _ t t' ⟨rfl, ht⟩ ⟨rfl, ht'⟩
  rw [hheader]
  dsimp only
  generalize hinfo : src.info s.flash 0 = info at h
  cases qbtFwInfoCheck info with
  | false => exact ⟨rfl, ht, ht'⟩
  | true =>
    show Prog.Alike _ _ (qbtFwCrcCheck L fuel srcName _ _ _ _ >>= _)
      (qbtFwCrcCheck L fuel dstName _ _ _ _ >>= _) _ _ _
    refine Prog.Alike.bind ((h.alike_crcCheck hcalm hsrc hdst (Nat.le_refl _) _ ht ht').mono ?_)
    rintro ⟨ram', ok⟩ _ u u' ⟨⟨rfl, hu, hu'⟩, hfw⟩
    cases ok with
    | false => exact ⟨rfl, hu, hu'⟩
    | true =>
      simp only [Bool.not_true, Bool.false_eq_true, if_false]
      split
      swap
      · exact ⟨rfl, hu, hu'⟩
      have hfw : ram'.fwInfo = info := hfw
      exact Mirror.alike_appCrcCheck (by rw [hfw]; exact h) hcalm hsrc hdst hu hu'

/-- So what is accepted in one partition is accepted in the other, from whatever the memory holds. -/
theorem Mirror.accepts_iff (h : Mirror L src dst (fwInfoSize + (src.info m 0).pkgSize) m m')
    (hcalm : Calm env) (hsrc : falPartitionFind L srcName = some src)
    (hdst : falPartitionFind L dstName = some dst) (hs : s.flash = m) (hs' : s'.flash = m') :
    Accepts L env fuel dstName ram s' ↔ Accepts L env fuel srcName ram s := by
  have halike : Prog.Alike (world L env) (world L env) (qbtFwCheck L fuel srcName ram)
      (qbtFwCheck L fuel dstName ram) (Matched m m') s s' :=
    h.alike_fwCheck hcalm hsrc hdst hs hs'
  constructor
  · rintro ⟨ram', t', hrun⟩
    obtain ⟨_, t, hrun', heq, -⟩ := halike.symm.done hrun
    exact ⟨ram', t, by rw [hrun', ← heq]⟩
  · rintro ⟨ram', t, hrun⟩
    obtain ⟨_, t', hrun', heq, -⟩ := halike.done hrun
    exact ⟨ram', t', by rw [hrun', heq]⟩

/-! ## Cloning -/

/-- The flash after the first `pos` bytes of the source went to the erased blocks of the destination. -/
def cloneFlash (L : Layout) (src dst : FalPartition) (m : Flash) (size pos : ℕ) : Flash :=
  dst.programmed (dst.erased m 0 (eraseStop L dst size)) 0 (src.bytes m 0 pos)

/-- The next chunk goes behind those before it. -/
theorem cloneFlash_add (size pos k : ℕ) : cloneFlash L src dst m size (pos + k) =
    dst.programmed (cloneFlash L src dst m size pos) pos (src.bytes m pos k) := by
  have hbytes : src.bytes m 0 (pos + k) = src.bytes m 0 pos ++ src.bytes m pos k := by
    rw [FalPartition.bytes, Nor.read_add, Nat.add_zero]
    rfl
  rw [cloneFlash, hbytes, FalPartition.programmed, program_append, FalPartition.bytes_length,
    Nat.add_zero]
  rfl

/-- Behind the chunks so far the destination is blank. -/
theorem byte_cloneFlash {size pos i : ℕ} (hi : pos ≤ i) (hstop : i < size) :
    dst.byte (cloneFlash L src dst m size pos) i = 0xFF := by
  rw [cloneFlash, FalPartition.byte_programmed_of_not (by rw [FalPartition.bytes_length]; omega)]
  exact FalPartition.byte_erased (Nat.zero_le _)
    (Nat.lt_of_lt_of_le hstop (le_eraseStop L dst size))

/-- Only the erased blocks differ. -/
theorem sameOutside_cloneFlash {size pos : ℕ} (hpos : pos ≤ size) :
    dst.SameOutside 0 (eraseStop L dst size) m (cloneFlash L src dst m size pos) := by
  have hstop := le_eraseStop L dst size
  intro e i hi
  rw [cloneFlash, FalPartition.programmed, program_of_not_inRange, FalPartition.erased,
    erase_of_not_inRange]
  · rintro ⟨hd, hlo, hhi⟩
    exact hi ⟨hd, hlo, by omega⟩
  · rw [FalPartition.bytes_length]
    rintro ⟨hd, hlo, hhi⟩
    exact hi ⟨hd, hlo, by omega⟩

/-- The loop of `qbt_fw_clone` between two rounds. -/
theorem wp_qbtFwCloneLoop (hcalm : Calm env) (hsrc : src ∈ L.parts) (hdst : dst ∈ L.parts)
    (hne : src ≠ dst) {size pos : ℕ} (hsrcLen : size ≤ src.len) (hdstLen : size ≤ dst.len)
    (hpos : pos ≤ size) (hfuel : size - pos + 4095 < fuel * qbootBufSize)
    (hs : s.flash = cloneFlash L src dst m size pos) :
    (qbtFwCloneLoop (some src) (some dst) size fuel ram pos).wp (world L env)
      (fun r s' => r.2 = true ∧ s'.flash = cloneFlash L src dst m size size) (fun _ _ => False) s := by
  have hlen := L.len_lt hsrc
  have hbuf : qbootBufSize = 4096 := rfl
  have hcmprs : qbootCmprsBufSize = 5120 := rfl
  have hcut : ¬ Calm env → ∀ _ : Board, False := fun h => absurd hcalm h
  induction fuel generalizing ram pos s with
  | zero => omega
  | succ fuel ih =>
    rw [qbtFwCloneLoop]
    by_cases hlt : pos < size
    swap
    · obtain rfl : pos = size := by omega
      rw [if_neg hlt]
      exact ⟨rfl, hs⟩
    have hn : readLen qbootBufSize (subU32 (u32 size) pos) = min qbootBufSize (size - pos) :=
      readLen_eq (by omega) hpos
    rw [u32_of_lt (by omega)] at hn
    rw [if_pos hlt, hn]
    generalize hmin : min qbootBufSize (size - pos) = k
    dsimp only
    rw [Prog.wp_bind]
    refine wp_falPartitionRead hsrc (by omega) (by omega) hcut (fun s₁ hs₁ _ => ?_)
      fun hbad => absurd (hcalm.readsQuiet _) hbad
    -- the source is not what is written to
    have hread : src.bytes s.flash pos k = src.bytes m pos k := by
      have hout : dst.SameOutside 0 (eraseStop L dst size) m (cloneFlash L src dst m size pos) :=
        sameOutside_cloneFlash hpos
      have hsame := hout.elsewhere (by rw [Nat.zero_add]; exact eraseStop_le hdst hdstLen)
      rw [hs]
      exact hsame.bytes_eq hdst hsrc hne.symm (by omega)
    have hslice : (storeRead ram.cmprsBuf 0 (some (src.bytes s.flash pos k))).slice 0 k =
        src.bytes m pos k := by
      have hdata : ∀ data : List UInt8, data.length ≤ qbootCmprsBufSize →
          (ram.cmprsBuf.store 0 data).slice 0 data.length = data :=
        fun data hd => Buffer.slice_store_self (by omega)
      have hstored := hdata (src.bytes m pos k) (by rw [FalPartition.bytes_length]; omega)
      rw [FalPartition.bytes_length] at hstored
      rw [storeRead, hread, hstored]
    dsimp only
    rw [if_neg (by omega), hslice, Prog.wp_bind]
    refine wp_falPartitionWrite hdst (by rw [FalPartition.bytes_length]; omega) hcut
      (fun _ s₂ hs₂ _ => ?_) fun hbad => ?_
    · rw [if_neg (by omega), u32_of_lt (by omega)]
      refine ih (by omega) (by rw [hbuf] at hfuel ⊢; omega) ?_
      rw [hs₂, hs₁, hs, cloneFlash_add]
    · -- blank flash takes every byte
      obtain ⟨-, hnil | hbelow⟩ := hbad fun t => by rw [hcalm]; exact Fault.none_quiet
      · have hzero := congrArg List.length hnil
        rw [FalPartition.bytes_length, List.length_nil] at hzero
        omega
      · refine absurd (fun i hi => ?_) hbelow
        rw [FalPartition.bytes_length] at hi
        rw [hs₁, hs, byte_cloneFlash (by omega) (by omega)]
        exact below_ff _

/-- What a clone leaves: the bytes of the source, with the same verdict of `qbt_fw_check` from
whatever the memory holds, and the rest of the flash as it was. -/
structure Cloned (L : Layout) (P : Codecs) (env : Env) (srcName dstName : List UInt8)
    (src dst : FalPartition) (size : ℕ) (s s' : Board) : Prop where
  bytes : dst.bytes s'.flash 0 size = src.bytes s.flash 0 size
  accepted : ∀ (fuel : ℕ) (ram : Ram P),
    Accepts L env fuel dstName ram s' ↔ Accepts L env fuel srcName ram s
  outside : dst.SameOutside 0 (eraseStop L dst size) s.flash s'.flash

theorem qbtFwClone_eq (hsrc : falPartitionFind L srcName = some src)
    (hdst : falPartitionFind L dstName = some dst) (size : ℕ) :
    qbtFwClone L fuel dstName srcName size ram = (do
      let ret ← falPartitionErase (some dst) 0 size
      if ret < 0 then Prog.ret (ram, false)
      else qbtFwCloneLoop (some src) (some dst) size fuel ram 0) := by
  rw [qbtFwClone, hsrc, hdst]

/-- A destination that is too small is left alone. -/
theorem qbtFwClone_small (hsrc : falPartitionFind L srcName = some src)
    (hdst : falPartitionFind L dstName = some dst) {size : ℕ} (hsmall : dst.len < size)
    (hlt : size < 4294967296) : qbtFwClone L fuel dstName srcName size ram = Prog.ret (ram, false) := by
  rw [qbtFwClone_eq hsrc hdst, falPartitionErase_out (by omega) (by omega)]
  rfl

/-- The clone of an accepted package to a destination with room. -/
theorem wp_qbtFwClone (hcalm : Calm env) (hsrc : falPartitionFind L srcName = some src)
    (hdst : falPartitionFind L dstName = some dst) (hne : src ≠ dst) {size : ℕ} (hsize : 0 < size)
    (hsrcLen : size ≤ src.len) (hdstLen : size ≤ dst.len)
    (hfuel : size + 4095 < fuel * qbootBufSize) :
    (qbtFwClone L fuel dstName srcName size ram).wp (world L env)
      (fun r s' => r.2 = true ∧ s'.flash = cloneFlash L src dst s.flash size size)
      (fun _ _ => False) s := by
  have hp := mem_of_find hdst
  have hcut : ¬ Calm env → ∀ _ : Board, False := fun h => absurd hcalm h
  rw [qbtFwClone_eq hsrc hdst, Prog.wp_bind]
  refine wp_falPartitionErase hp hsize (by omega) hcut (fun s₁ hs₁ _ => ?_)
    fun hbad => absurd hcalm hbad
  rw [if_neg (by omega)]
  refine wp_qbtFwCloneLoop hcalm (mem_of_find hsrc) hp hne hsrcLen hdstLen (Nat.zero_le _)
    (by omega) ?_
  have hstart : eraseStart L dst 0 = 0 := Nat.le_zero.1 (eraseStart_le L dst 0)
  rw [hs₁, hstart, Nat.zero_add, cloneFlash]
  exact (program_nil _ _ _).symm

/-- What the clone of a package leaves. -/
theorem cloned_cloneFlash (hcalm : Calm env) (hsrc : falPartitionFind L srcName = some src)
    (hdst : falPartitionFind L dstName = some dst) {size : ℕ}
    (hsize : size = fwInfoSize + (src.info s.flash 0).pkgSize) (hsrcLen : size ≤ src.len)
    (hdstLen : size ≤ dst.len) (hs' : s'.flash = cloneFlash L src dst s.flash size size) :
    Cloned L P env srcName dstName src dst size s s' := by
  have hlen : (src.bytes s.flash 0 size).length = size := FalPartition.bytes_length ..
  have hbytes : dst.bytes s'.flash 0 size = src.bytes s.flash 0 size := by
    have hread := @Nor.read_program_of_erased Dev _ (dst.erased s.flash 0 (eraseStop L dst size))
      dst.dev (dst.base + 0) (src.bytes s.flash 0 size) fun i hi => ?_
    · rw [hlen] at hread
      rw [hs']
      exact hread
    · have := le_eraseStop L dst size
      rw [Nat.add_zero]
      exact FalPartition.byte_erased (Nat.zero_le i) (by omega)
  refine ⟨hbytes, fun fuel ram => ?_, hs' ▸ sameOutside_cloneFlash (Nat.le_refl _)⟩
  subst hsize
  exact Mirror.accepts_iff ⟨mem_of_find hsrc, mem_of_find hdst, hsrcLen, hdstLen, hbytes⟩ hcalm hsrc
    hdst rfl rfl

/-- **A clone is a faithful copy**: `qbt_fw_clone` of an accepted package to another partition
returns true exactly when it fits there. Then the copy has its bytes and the verdict of
`qbt_fw_check`, and only the erase blocks it covers changed. Without room nothing changed. -/
theorem clone_faithful (hcalm : Calm env) (hsrc : falPartitionFind L srcName = some src)
    (hdst : falPartitionFind L dstName = some dst) (hne : src ≠ dst) {fuel₀ : ℕ} {ram₀ : Ram P}
    {s : Board} (haccepted : Accepts L env fuel₀ srcName ram₀ s) {size : ℕ}
    (hsize : size = fwInfoSize + (src.info s.flash 0).pkgSize)
    (hfuel : size + 4095 < fuel * qbootBufSize) (ram : Ram P) :
    ∃ ram' ok s', (qbtFwClone L fuel dstName srcName size ram).run (world L env) s =
        .done (ram', ok) s' ∧
      (ok = true ↔ size ≤ dst.len) ∧
      (ok = true → Cloned L P env srcName dstName src dst size s s' ∧
        Accepts L env fuel₀ dstName ram₀ s') ∧
      (ok = false → s'.flash = s.flash) := by
  have hlen := L.len_lt (mem_of_find hsrc)
  have hsrcLen : size ≤ src.len := by
    rw [hsize]
    exact (haccepted.wellStored hcalm hsrc).fits
  by_cases hdstLen : size ≤ dst.len
  · have hpos : 0 < size := by
      rw [hsize]
      exact Nat.lt_of_lt_of_le (by decide : 0 < fwInfoSize) (Nat.le_add_right _ _)
    have hwp : (qbtFwClone L fuel dstName srcName size ram).wp (world L env)
        (fun r s' => r.2 = true ∧ s'.flash = cloneFlash L src dst s.flash size size)
        (fun _ _ => False) s := wp_qbtFwClone hcalm hsrc hdst hne hpos hsrcLen hdstLen hfuel
    obtain ⟨⟨ram', ok⟩, s', hrun, rfl, hs'⟩ := Prog.run_done_of_wp hwp
    have hcloned := cloned_cloneFlash (P := P) hcalm hsrc hdst hsize hsrcLen hdstLen hs'
    exact ⟨ram', true, s', hrun, by simp [hdstLen],
      fun _ => ⟨hcloned, (hcloned.accepted fuel₀ ram₀).2 haccepted⟩, fun hfalse => by cases hfalse⟩
  · refine ⟨ram, false, s, ?_, by simp [hdstLen], fun hfalse => (by cases hfalse), fun _ => rfl⟩
    rw [qbtFwClone_small hsrc hdst (by omega) (by omega)]
    rfl

/-- A package of the vector words. -/
def wordsPackage : List UInt8 := (appHdr vectorWords 8).bytes ++ vectorWords

/-- The flash with that package in the download partition. -/
def wordsDownloaded : Board := Board.powerUp (downloadPart.holding wordsPackage)

theorem wordsDownloaded_accepted :
    Accepts falPartTable calmEnv 2 qbootDownloadPartName (Ram.boot Codecs.stored) wordsDownloaded :=
  accepts_of_answeredTrue (by decide +kernel)

/-- The download partition cloned to the factory partition. -/
theorem clone_faithful_factory : ∃ ram' ok s',
    (qbtFwClone falPartTable 2 qbootFactoryPartName qbootDownloadPartName 104
      (Ram.boot Codecs.stored)).run (world falPartTable calmEnv) wordsDownloaded =
        .done (ram', ok) s' ∧
      (ok = true ↔ 104 ≤ factoryPart.len) ∧
      (ok = true → Cloned falPartTable Codecs.stored calmEnv qbootDownloadPartName
          qbootFactoryPartName downloadPart factoryPart 104 wordsDownloaded s' ∧
        Accepts falPartTable calmEnv 2 qbootFactoryPartName (Ram.boot Codecs.stored) s') ∧
      (ok = false → s'.flash = wordsDownloaded.flash) :=
  clone_faithful calmEnv_calm (by decide) (by decide) (by decide) wordsDownloaded_accepted
    (by decide +kernel) (by decide) (Ram.boot Codecs.stored)

end RtThreadOta
