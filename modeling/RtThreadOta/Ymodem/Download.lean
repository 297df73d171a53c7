import RtThreadOta.Ymodem.FirstPacket

/-!
# Where a download is written (`ymodem_on_data`)

`ymodem_on_begin` erases the blocks that the announced size needs, and `ymodem_on_data` writes behind
what it has written, up to the end of the partition. Neither compares the two, so that a sender of more
bytes than it announced gets them programmed over whatever lies behind the erased blocks.
-/

namespace RtThreadOta

open Interaction Nor Words

/-! ## Data calls -/

/-- A call of `ymodem_on_data`: where it wrote, what, and its answer. -/
structure DataCall where
  pos : ℕ
  buf : List UInt8
  code : UInt8
deriving DecidableEq, Repr

/-- Calls of `ymodem_on_data`, one behind the other; `RYM_CODE_CAN` ends the session. -/
def ymodemDataCalls : List (List UInt8) → RymCtx → Code (RymCtx × List DataCall)
  | [], ctx => Prog.ret (ctx, [])
  | buf :: bufs, ctx => do
    let (ctx', code) ← ymodemOnData ctx buf
    if code = rymCodeCan then Prog.ret (ctx', [⟨ctx.updateFileCurSize, buf, code⟩])
    else do
      let (ctx', calls) ← ymodemDataCalls bufs ctx'
      Prog.ret (ctx', ⟨ctx.updateFileCurSize, buf, code⟩ :: calls)

/-- Byte `i` of a partition lies in a block that an erase of its first `size` bytes sets; an erase of
no byte sets none. -/
def ErasedFor (L : Layout) (part : FalPartition) (size i : ℕ) : Prop :=
  0 < size ∧ InRange part.dev (eraseRange L part.dev part.offset size).1
    (eraseRange L part.dev part.offset size).2 part.dev (part.base + i)

/-- Whatever goes wrong in it, a session that this first packet begins programs only what it erased, and
stores what it programs. -/
def ProgramsOnlyErased (L : Layout) (name : List UInt8) (ctx : RymCtx) (bufs : List (List UInt8)) :
    Prop :=
  ∀ env s ctx₁ s₁ ctx₂ calls s₂ part,
    (ymodemOnBegin L name ctx).run (world L env) s = .done (ctx₁, rymCodeAck) s₁ →
    (ymodemDataCalls bufs ctx₁).run (world L env) s₁ = .done (ctx₂, calls) s₂ →
    falPartitionFind L name = some part → ∀ c ∈ calls, c.code ≠ rymCodeCan →
      (∀ i < c.buf.length, ErasedFor L part ctx₁.updateFileTotalSize (c.pos + i)) ∧
        part.bytes s₂.flash c.pos c.buf.length = c.buf

variable {L : Layout} {env : Env} {s : Board} {part : FalPartition} {name : List UInt8} {ctx : RymCtx}
  {bufs : List (List UInt8)} {pos stop n : ℕ}

theorem erasedFor_iff (hp : part ∈ L.parts) (hn : n ≤ part.len) {i : ℕ} :
    ErasedFor L part n i ↔ i < eraseStop L part n := by
  rcases Nat.eq_zero_or_pos n with rfl | hpos
  · rw [eraseStop_zero]
    constructor
    · rintro ⟨hzero, -⟩
      exact absurd hzero (Nat.lt_irrefl 0)
    · intro h
      exact absurd h (Nat.not_lt_zero i)
  · have hrange := @eraseRange_eq _ _ hp 0 n hpos (by omega)
    have hstart : eraseStart L part 0 = 0 := Nat.le_zero.1 (eraseStart_le L part 0)
    rw [hstart, Nat.zero_add, Nat.add_zero, Nat.add_zero, Nat.sub_zero] at hrange
    rw [ErasedFor, hrange]
    constructor
    · rintro ⟨-, -, -, hhi⟩
      omega
    · intro h
      exact ⟨hpos, rfl, by omega, by omega⟩

/-! ## A run of data calls -/

/-- The next data call writes at `pos`, and from there to `stop` the partition is erased. -/
structure Storing (part : FalPartition) (stop pos : ℕ) (ctx : RymCtx) (s : Board) : Prop where
  dlPart : ctx.dlPart = some part
  cur : ctx.updateFileCurSize = pos
  fits : pos ≤ part.len
  blank : ∀ i, pos ≤ i → i < stop → part.byte s.flash i = 0xFF

theorem Storing.programmed {buf : List UInt8} {s' : Board} (h : Storing part stop pos ctx s)
    (hfit : pos + buf.length ≤ part.len) (hs' : s'.flash = part.programmed s.flash pos buf) :
    Storing part stop (pos + buf.length)
      { ctx with updateFileCurSize := pos + buf.length } s' := by
  refine ⟨h.dlPart, rfl, hfit, ?_⟩
  intro i hi hstop
  rw [hs', FalPartition.byte_programmed_of_not (by omega)]
  exact h.blank i (by omega) hstop

/-- What is programmed where it was erased is stored. -/
theorem Storing.bytes_programmed {buf : List UInt8} {m : Flash} (h : Storing part stop pos ctx s)
    (hstop : pos + buf.length ≤ stop)
    (hm : ∀ i < pos + buf.length, part.byte m i = part.byte (part.programmed s.flash pos buf) i) :
    part.bytes m pos buf.length = buf := by
  apply List.ext_getElem (FalPartition.bytes_length ..)
  intro i hi hi'
  have hbyte := hm (pos + i) (by omega)
  rw [FalPartition.byte_programmed (Nat.le_add_right _ _) (by omega),
    h.blank _ (Nat.le_add_right _ _) (by omega), ff_and, Nat.add_sub_cancel_left,
    List.getD_eq_getElem _ _ hi', FalPartition.byte, ← Nat.add_assoc] at hbyte
  rw [← hbyte]
  simp only [FalPartition.bytes, Nor.read, List.getElem_map, List.getElem_range]

/-- Data calls leave alone what lies below the write position. -/
theorem wp_ymodemDataCalls_below {E : Option Halt → Board → Prop} (hp : part ∈ L.parts)
    (h : Storing part stop pos ctx s) (hbufs : ∀ buf ∈ bufs, buf.length = 128 ∨ buf.length = 1024)
    (hcut : ¬ Calm env → ∀ s', E none s') :
    (ymodemDataCalls bufs ctx).wp (world L env)
      (fun _ s' => ∀ i < pos, part.byte s'.flash i = part.byte s.flash i) E s := by
  induction bufs generalizing pos ctx s with
  | nil =>
    intro i _
    rfl
  | cons buf bufs ih =>
    have hbuf := hbufs buf List.mem_cons_self
    rw [ymodemDataCalls, Prog.wp_bind]
    apply wp_ymodemOnData_at hp h.dlPart h.cur h.fits (by omega) hcut
    · intro hfit s' hs'
      simp only
      rw [if_neg (by decide), Prog.wp_bind]
      apply Prog.wp_imp (ih (h.programmed hfit hs') fun b hb => hbufs b (List.mem_cons_of_mem _ hb))
      rintro ⟨ctx', calls⟩ s'' hsame i hi
      rw [hsame i (by omega), hs', FalPartition.byte_programmed_of_not (by omega)]
    · intro _ s' hs' i hi
      exact hs'.byte_eq (by omega)

/-- As long as the data stays below `stop`, or the partition ends there, it is stored there. -/
theorem wp_ymodemDataCalls {E : Option Halt → Board → Prop} (hp : part ∈ L.parts)
    (h : Storing part stop pos ctx s) (hbufs : ∀ buf ∈ bufs, buf.length = 128 ∨ buf.length = 1024)
    (hstop : pos + bufs.flatten.length ≤ stop ∨ part.len ≤ stop)
    (hcut : ¬ Calm env → ∀ s', E none s') :
    (ymodemDataCalls bufs ctx).wp (world L env)
      (fun r s' => ∀ c ∈ r.2, c.code ≠ rymCodeCan →
        c.pos + c.buf.length ≤ stop ∧ part.bytes s'.flash c.pos c.buf.length = c.buf) E s := by
  induction bufs generalizing pos ctx s with
  | nil =>
    intro c hc
    cases hc
  | cons buf bufs ih =>
    have hbuf := hbufs buf List.mem_cons_self
    have hrest : ∀ b ∈ bufs, b.length = 128 ∨ b.length = 1024 :=
      fun b hb => hbufs b (List.mem_cons_of_mem _ hb)
    rw [List.flatten_cons, List.length_append] at hstop
    rw [ymodemDataCalls, Prog.wp_bind]
    apply wp_ymodemOnData_at hp h.dlPart h.cur h.fits (by omega) hcut
    · intro hfit s' hs'
      have hnext := h.programmed hfit hs'
      simp only
      rw [if_neg (by decide), Prog.wp_bind]
      apply Prog.wp_mono (Prog.wp_and (ih hnext hrest (by omega))
        (wp_ymodemDataCalls_below hp hnext hrest hcut)) ?_ fun _ _ he => he.1
      rintro ⟨ctx', calls⟩ s'' ⟨hcalls, hbelow⟩ c hc hcode
      rcases List.mem_cons.1 hc with rfl | hc
      · -- this call, whose bytes the later ones keep
        show ctx.updateFileCurSize + buf.length ≤ stop ∧
          part.bytes s''.flash ctx.updateFileCurSize buf.length = buf
        rw [h.cur]
        refine ⟨by omega, h.bytes_programmed (by omega) fun i hi => ?_⟩
        rw [hbelow i hi, hs']
      · exact hcalls c hc hcode
    · intro _ s' _ c hc hcode
      rw [List.mem_singleton.1 hc] at hcode
      exact absurd rfl hcode

/-- On a blank partition the data is taken as far as the partition goes: more data than `stop` bytes
has a call that goes beyond `stop`. -/
theorem wp_ymodemDataCalls_beyond (hp : part ∈ L.parts) (hcalm : Calm env)
    (h : Storing part part.len pos ctx s) (hbufs : ∀ buf ∈ bufs, buf.length = 128 ∨ buf.length = 1024)
    (hpos : pos ≤ stop) (hroom : stop + 1024 ≤ part.len) (hmore : stop < pos + bufs.flatten.length) :
    (ymodemDataCalls bufs ctx).wp (world L env)
      (fun r _ => ∃ c ∈ r.2, c.code ≠ rymCodeCan ∧ 0 < c.buf.length ∧ stop < c.pos + c.buf.length)
      (fun _ _ => False) s := by
  induction bufs generalizing pos ctx s with
  | nil => exact absurd hmore (Nat.not_lt.2 hpos)
  | cons buf bufs ih =>
    have hbuf := hbufs buf List.mem_cons_self
    have hrest : ∀ b ∈ bufs, b.length = 128 ∨ b.length = 1024 :=
      fun b hb => hbufs b (List.mem_cons_of_mem _ hb)
    have hcut : ¬ Calm env → Board → False := fun hno => absurd hcalm hno
    rw [List.flatten_cons, List.length_append] at hmore
    rw [ymodemDataCalls, Prog.wp_bind]
    apply wp_ymodemOnData_at hp h.dlPart h.cur h.fits (by omega) hcut
    · intro hfit s' hs'
      have hnext := h.programmed hfit hs'
      simp only
      rw [if_neg (by decide), Prog.wp_bind]
      by_cases hbeyond : stop < pos + buf.length
      · apply Prog.wp_imp (wp_ymodemDataCalls_below hp hnext hrest hcut)
        rintro ⟨ctx', calls⟩ s'' -
        refine ⟨_, List.mem_cons_self, ?_, ?_, ?_⟩
        · show rymCodeAck ≠ rymCodeCan
          decide
        · show 0 < buf.length
          omega
        · show stop < ctx.updateFileCurSize + buf.length
          rw [h.cur]
          exact hbeyond
      · apply Prog.wp_imp (ih hnext hrest (Nat.not_lt.1 hbeyond) (by omega))
        rintro ⟨ctx', calls⟩ s'' ⟨c, hc, hcode⟩
        exact ⟨c, List.mem_cons_of_mem _ hc, hcode⟩
    · -- nothing keeps the board from programming these bytes
      intro hwhy s' _
      rcases hwhy hcalm with hlong | ⟨-, rfl | hblank⟩
      · omega
      · rcases hbuf with hbuf | hbuf <;> exact absurd hbuf (by decide)
      · refine absurd (fun i hi => ?_) hblank
        rw [h.blank _ (Nat.le_add_right _ _) (by omega)]
        exact below_ff _

/-! ## A session -/

/-- An accepted first packet leaves the blocks of its file erased. -/
theorem storing_of_begin {s₁ : Board} {ctx₁ : RymCtx} (hn : fileSize (ctx.buf.bytes.drop 3) = some n)
    (hfind : falPartitionFind L name = some part)
    (hbegin : (ymodemOnBegin L name ctx).run (world L env) s = .done (ctx₁, rymCodeAck) s₁) :
    n ≤ part.len ∧ (n = 0 → part.dev = .nor) ∧ ctx₁.updateFileTotalSize = n ∧
      Storing part (eraseStop L part n) 0 ctx₁ s₁ := by
  have hcan : rymCodeCan ≠ rymCodeAck := by decide
  by_cases hfit : n ≤ part.len
  · have hwp := @wp_ymodemOnBegin_fits L env s part name ctx n
      (fun r s' => r.2 = rymCodeAck → (n = 0 → part.dev = .nor) ∧ r.1 = ctx.begun L name n ∧
        s'.flash = part.erased s.flash 0 (eraseStop L part n)) (fun _ _ => True) hn hfind hfit
      (fun _ _ => trivial) (fun hnor s' hs' _ => ⟨hnor, rfl, hs'⟩) fun _ _ _ hack => absurd hack hcan
    rw [Prog.wp_iff_run, hbegin] at hwp
    obtain ⟨hnor, hctx, hflash⟩ := hwp rfl
    simp only at hctx
    rw [hctx]
    refine ⟨hfit, hnor, rfl, hfind, rfl, Nat.zero_le _, ?_⟩
    intro i _ hi
    rw [hflash, FalPartition.byte_erased (Nat.zero_le i) hi]
  · have hless : ∀ q, falPartitionFind L name = some q → q.len < n := by
      intro q hq
      rw [hfind] at hq
      obtain rfl := Option.some.inj hq
      exact Nat.not_le.1 hfit
    rw [ymodemOnBegin_refused hn hless] at hbegin
    obtain ⟨hr, -⟩ := Outcome.done.inj hbegin
    exact absurd (congrArg Prod.snd hr) hcan

/-- On a blank board an accepted first packet is accepted, and leaves it blank. -/
theorem begin_blank (hn : fileSize (ctx.buf.bytes.drop 3) = some n)
    (hfind : falPartitionFind L name = some part) (hfit : n ≤ part.len) (hnor : n = 0 → part.dev = .nor) :
    ∃ ctx₁ s₁, (ymodemOnBegin L name ctx).run (world L calmEnv) ⟨fun _ _ => 0xFF, 0, []⟩ =
      .done (ctx₁, rymCodeAck) s₁ ∧ ctx₁.updateFileTotalSize = n ∧ Storing part part.len 0 ctx₁ s₁ := by
  have hwp := @wp_ymodemOnBegin_fits L calmEnv ⟨fun _ _ => 0xFF, 0, []⟩ part name ctx n
    (fun r s' => r = (ctx.begun L name n, rymCodeAck) ∧ ∀ i, part.byte s'.flash i = 0xFF)
    (fun _ _ => False) hn hfind hfit (fun hno => absurd calmEnv_calm hno) ?_ ?_
  · obtain ⟨r, s₁, hrun, rfl, hblank⟩ := Prog.run_done_of_wp hwp
    exact ⟨_, s₁, hrun, rfl, hfind, rfl, Nat.zero_le _, fun i _ _ => hblank i⟩
  · intro _ s' hs'
    refine ⟨rfl, fun i => ?_⟩
    rw [hs']
    by_cases hi : i < eraseStop L part n
    · exact FalPartition.byte_erased (Nat.zero_le i) hi
    · exact FalPartition.byte_erased_of_not fun h => hi h.2
  · intro hwhy
    obtain ⟨hzero, honchip⟩ := hwhy calmEnv_calm
    rw [hnor hzero] at honchip
    cases honchip

/-- A session programs only what it erased, and stores what it programs, exactly when the data fits in
the blocks that the announced size needs, or these are the whole partition. -/
theorem ymodem_programsOnlyErased_iff (hbufs : ∀ buf ∈ bufs, buf.length = 128 ∨ buf.length = 1024)
    (hfind : falPartitionFind L name = some part) (hn : fileSize (ctx.buf.bytes.drop 3) = some n)
    (haccepted : ∃ env s ctx₁ s₁,
      (ymodemOnBegin L name ctx).run (world L env) s = .done (ctx₁, rymCodeAck) s₁) :
    ProgramsOnlyErased L name ctx bufs ↔
      bufs.flatten.length ≤ eraseStop L part n ∨ part.len ≤ eraseStop L part n := by
  have hp := mem_of_find hfind
  constructor
  · intro h
    by_contra hmore
    obtain ⟨hlong, hshort⟩ := not_or.1 hmore
    obtain ⟨_, _, _, _, hbegin⟩ := haccepted
    obtain ⟨hfit, hnor, -, -⟩ := storing_of_begin hn hfind hbegin
    -- the first block behind the erased ones still lies in the partition
    have hroom : eraseStop L part n + 1024 ≤ part.len := by
      obtain ⟨j, hj⟩ := dvd_eraseStop L part n
      obtain ⟨k, hk⟩ := Nat.dvd_trans (L.chip.blkSize_dvd part.dev) (L.sound part hp).len_aligned
      omega
    obtain ⟨ctx₁, s₁, hbegin₁, htotal, hstoring⟩ := begin_blank hn hfind hfit hnor
    obtain ⟨⟨ctx₂, calls⟩, s₂, hcalls, c, hc, hcode, hpos, hbeyond⟩ := Prog.run_done_of_wp
      (@wp_ymodemDataCalls_beyond L calmEnv s₁ part ctx₁ bufs 0 _ hp calmEnv_calm hstoring hbufs
        (Nat.zero_le _) hroom (by omega))
    have hlast := (h _ _ _ _ _ _ _ _ hbegin₁ hcalls hfind c hc hcode).1 (c.buf.length - 1) (by omega)
    rw [htotal, erasedFor_iff hp hfit] at hlast
    omega
  · intro hstop env s ctx₁ s₁ ctx₂ calls s₂ q hbegin hcalls hq c hc hcode
    rw [hfind] at hq
    obtain rfl := Option.some.inj hq
    obtain ⟨hfit, -, htotal, hstoring⟩ := storing_of_begin hn hfind hbegin
    rw [← Nat.zero_add bufs.flatten.length] at hstop
    have hwp := @wp_ymodemDataCalls L env s₁ part ctx₁ bufs 0 _ (fun _ _ => True) hp hstoring hbufs hstop
      fun _ _ => trivial
    rw [Prog.wp_iff_run, hcalls] at hwp
    obtain ⟨hbelow, hbytes⟩ := hwp c hc hcode
    refine ⟨fun i hi => ?_, hbytes⟩
    rw [htotal, erasedFor_iff hp hfit]
    omega

set_option maxRecDepth 20000 in
theorem ymodem_programsOnlyErased_twoBlocks :
    ProgramsOnlyErased falPartTable qbootDownloadPartName (receiverWith namedFile)
      [List.replicate 128 65, List.replicate 128 66] := by
  have hfind : falPartitionFind falPartTable qbootDownloadPartName = some downloadPart := by decide
  have hsize : fileSize ((receiverWith namedFile).buf.bytes.drop 3) = some 256 := by
    decide +kernel
  obtain ⟨ctx₁, s₁, hbegin, -⟩ := begin_blank hsize hfind (by decide) (by decide)
  exact (ymodem_programsOnlyErased_iff (by decide) hfind hsize ⟨_, _, _, _, hbegin⟩).2
    (Or.inl (by decide))

set_option maxRecDepth 20000 in
/-- A file whose size is missing: nothing is erased, and a block of `A`s over zeros leaves zeros. -/
theorem unsizedFile_storedOver : ∃ ctx₁ s₁ ctx₂ s₂,
    (ymodemOnBegin falPartTable qbootDownloadPartName (receiverWith unsizedFile)).run
      (world falPartTable calmEnv) ⟨fun _ _ => 0, 0, []⟩ = .done (ctx₁, rymCodeAck) s₁ ∧
    (ymodemDataCalls [List.replicate 128 65] ctx₁).run (world falPartTable calmEnv) s₁ =
      .done (ctx₂, [⟨0, List.replicate 128 65, rymCodeAck⟩]) s₂ ∧
    downloadPart.byte s₂.flash 0 = 0 ∧
    ¬ ProgramsOnlyErased falPartTable qbootDownloadPartName (receiverWith unsizedFile)
      [List.replicate 128 65] := by
  have hfind : falPartitionFind falPartTable qbootDownloadPartName = some downloadPart := by decide
  have hsize : fileSize ((receiverWith unsizedFile).buf.bytes.drop 3) = some 0 := by
    decide +kernel
  have hbegin := @wp_ymodemOnBegin_fits falPartTable calmEnv ⟨fun _ _ => 0, 0, []⟩ _ _ _ _
    (fun r s' => r = ((receiverWith unsizedFile).begun falPartTable qbootDownloadPartName 0, rymCodeAck) ∧
      downloadPart.byte s'.flash 0 = 0) (fun _ _ => False) hsize hfind (Nat.zero_le _)
    (fun hno => absurd calmEnv_calm hno) ?_ fun hwhy => absurd (hwhy calmEnv_calm).2 (by decide)
  · obtain ⟨_, s₁, hrun₁, rfl, hzero⟩ := Prog.run_done_of_wp hbegin
    have hdata : (ymodemDataCalls [List.replicate 128 65]
        ((receiverWith unsizedFile).begun falPartTable qbootDownloadPartName 0)).wp
          (world falPartTable calmEnv)
          (fun r s' => r.2 = [⟨0, List.replicate 128 65, rymCodeAck⟩] ∧
            downloadPart.byte s'.flash 0 = 0) (fun _ _ => False) s₁ := by
      rw [ymodemDataCalls, Prog.wp_bind]
      have hcur : ((receiverWith unsizedFile).begun falPartTable qbootDownloadPartName 0).updateFileCurSize =
          0 := rfl
      apply wp_ymodemOnData_at (mem_of_find hfind) hfind hcur (Nat.zero_le _) (by decide)
        fun hno => absurd calmEnv_calm hno
      · intro _ s' hs'
        refine ⟨rfl, ?_⟩
        rw [hs', FalPartition.byte_programmed (Nat.le_refl 0) (by decide), hzero]
        decide
      · intro hwhy
        rcases hwhy calmEnv_calm with hlong | ⟨honchip, -⟩
        · exact absurd hlong (by decide)
        · exact absurd honchip (by decide)
    obtain ⟨⟨ctx₂, _⟩, s₂, hrun₂, rfl, hlost⟩ := Prog.run_done_of_wp hdata
    refine ⟨_, s₁, ctx₂, s₂, hrun₁, hrun₂, hlost, fun h => ?_⟩
    have hcall := h _ _ _ _ _ _ _ _ hrun₁ hrun₂ hfind _ List.mem_cons_self (by decide)
    exact absurd (hcall.1 0 (by decide)).1 (Nat.lt_irrefl 0)
  · intro _ s' hs'
    refine ⟨rfl, ?_⟩
    rw [hs', eraseStop_zero, FalPartition.erased_self]
    rfl

end RtThreadOta
