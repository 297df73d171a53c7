import RtThreadOta.Flash.Stm32
import RtThreadOta.Library.Interaction

/-!
# The on-chip write driver and the HAL (`drv_flash_f4.c`)

`stm32_flash_write` call by call: it unlocks the flash, programs words, half words and bytes by
`HAL_FLASH_Program`, reads every one of them back and locks the flash again. `stm32FlashWrite` is what
is left of it where only the content of the flash counts.
-/

namespace RtThreadOta

open Interaction Nor Words

/-! ## The HAL -/

/-- `FLASH_TYPEPROGRAM_BYTE` and so on -/
inductive FlashTypeProgram where
  | byte
  | halfword
  | word
deriving DecidableEq, Repr

/-- The bytes of a unit. -/
def FlashTypeProgram.size : FlashTypeProgram → ℕ
  | byte => 1
  | halfword => 2
  | word => 4

/-- What the driver asks of the HAL, and its loads from the memory-mapped flash. A number in memory is
its bytes. -/
inductive HalOp where
  | unlock
  | clearFlag
  | program (type : FlashTypeProgram) (addr : ℕ) (data : List UInt8)
  | load (type : FlashTypeProgram) (addr : ℕ)
  | lock

/-- The answers; that to a program is whether it is `HAL_OK`. -/
def HalOp.Ans : HalOp → Type
  | .program .. => Bool
  | .load .. => List UInt8
  | _ => Unit

/-- Programs over the HAL; they halt where a loop outlives its fuel. -/
abbrev HalCode (α : Type) := Prog HalOp.Ans Unit α

/-- `HAL_FLASH_Program` was called for a unit, and said whether it is programmed. -/
structure Programmed where
  type : FlashTypeProgram
  addr : ℕ
  ok : Bool
deriving DecidableEq, Repr

/-- The flash with its controller, and the programs so far. -/
structure OnchipFlash where
  mem : Flash
  locked : Bool
  programs : List Programmed

/-- The HAL and the flash. A program stores the AND of the old unit and the new one or reports failure:
always when the flash is locked or the unit is not aligned, and where `fail` says so. -/
def halWorld (fail : ℕ → Option (ℕ → UInt8)) : Handler HalOp.Ans OnchipFlash := fun o s =>
  match o with
  | .unlock => (some (), { s with locked := false })
  | .clearFlag => (some (), s)
  | .load type addr => (some (read s.mem .onchip addr type.size), s)
  | .lock => (some (), { s with locked := true })
  | .program type addr data =>
    if s.locked = true ∨ ¬ type.size ∣ addr then
      (some false, { s with programs := s.programs ++ [⟨type, addr, false⟩] })
    else
      match fail s.programs.length with
      | some g =>
        (some false, ⟨programTorn s.mem .onchip addr data g, s.locked,
          s.programs ++ [⟨type, addr, false⟩]⟩)
      | none =>
        (some true, ⟨program s.mem .onchip addr data, s.locked, s.programs ++ [⟨type, addr, true⟩]⟩)

/-! ## The driver -/

namespace Hal

/-- `HAL_FLASH_Unlock` -/
def halFlashUnlock : HalCode Unit := Prog.ask HalOp.unlock

/-- `__HAL_FLASH_CLEAR_FLAG` -/
def halFlashClearFlag : HalCode Unit := Prog.ask HalOp.clearFlag

/-- `HAL_FLASH_Program`; whether it is `HAL_OK`. -/
def halFlashProgram (type : FlashTypeProgram) (addr : ℕ) (data : List UInt8) : HalCode Bool :=
  Prog.ask (HalOp.program type addr data)

/-- `*(rt_uint32_t *)addr` and so on -/
def loadUnit (type : FlashTypeProgram) (addr : ℕ) : HalCode (List UInt8) :=
  Prog.ask (HalOp.load type addr)

/-- `HAL_FLASH_Lock` -/
def halFlashLock : HalCode Unit := Prog.ask HalOp.lock

/-- A unit is programmed and compared with what the flash then holds. -/
def programUnit (type : FlashTypeProgram) (addr : ℕ) (data : List UInt8) : HalCode Bool := do
  let ok ← halFlashProgram type addr data
  if ok then do
    let got ← loadUnit type addr
    Prog.ret (decide (got = data))
  else Prog.ret false

/-- The unit that the loop of `stm32_flash_write` programs at an address with `left` bytes to go. -/
def typeProgram (addr left : ℕ) : FlashTypeProgram :=
  if addr % 4 = 0 ∧ 4 ≤ left then .word else if addr % 2 = 0 ∧ 2 ≤ left then .halfword else .byte

/-- The loop of `stm32_flash_write`; whether `result` is `RT_EOK` behind it. -/
def writeLoop (addr : ℕ) (buf : List UInt8) : (fuel : ℕ) → (writtenSize : ℕ) → HalCode Bool
  | 0, _ => Prog.halt ()
  | fuel + 1, writtenSize =>
    if writtenSize < buf.length then do
      let type := typeProgram (u32 (addr + writtenSize)) (buf.length - writtenSize)
      let ok ← programUnit type (u32 (addr + writtenSize)) ((buf.drop writtenSize).take type.size)
      if ok then writeLoop addr buf fuel (writtenSize + type.size) else Prog.ret false
    else Prog.ret true

/-- `stm32_flash_write` -/
def stm32FlashWrite (fuel addr : ℕ) (buf : List UInt8) : HalCode ℤ :=
  if u32 (addr + buf.length) > stm32FlashEndAddress then Prog.ret (-rtEinval)
  else if buf.length < 1 then Prog.ret (-rtEinval)
  else do
    halFlashUnlock
    halFlashClearFlag
    let ok ← writeLoop addr buf fuel 0
    halFlashLock
    Prog.ret (if ok then toInt32 buf.length else -1)

theorem typeProgram_size (addr left : ℕ) :
    (typeProgram addr left).size = stm32WriteSize addr left := by
  unfold typeProgram stm32WriteSize
  split
  · rfl
  · split <;> rfl

theorem typeProgram_dvd (addr left : ℕ) : (typeProgram addr left).size ∣ addr := by
  unfold typeProgram
  split
  · rename_i h
    exact Nat.dvd_of_mod_eq_zero h.1
  split
  · rename_i h
    exact Nat.dvd_of_mod_eq_zero h.1
  · exact Nat.one_dvd addr

section Calls

variable {fail : ℕ → Option (ℕ → UInt8)} {s : OnchipFlash} {E : Option Unit → OnchipFlash → Prop}
  {type : FlashTypeProgram} {addr : ℕ}

@[simp] theorem wp_halFlashUnlock {Q : Unit → OnchipFlash → Prop} :
    halFlashUnlock.wp (halWorld fail) Q E s ↔ Q () { s with locked := false } := Iff.rfl

@[simp] theorem wp_halFlashClearFlag {Q : Unit → OnchipFlash → Prop} :
    halFlashClearFlag.wp (halWorld fail) Q E s ↔ Q () s := Iff.rfl

@[simp] theorem wp_halFlashLock {Q : Unit → OnchipFlash → Prop} :
    halFlashLock.wp (halWorld fail) Q E s ↔ Q () { s with locked := true } := Iff.rfl

@[simp] theorem wp_loadUnit {Q : List UInt8 → OnchipFlash → Prop} :
    (loadUnit type addr).wp (halWorld fail) Q E s ↔ Q (read s.mem .onchip addr type.size) s :=
  Iff.rfl

/-- An aligned unit of the unlocked flash is programmed unless the flash reports failure. -/
theorem wp_halFlashProgram {Q : Bool → OnchipFlash → Prop} {data : List UInt8}
    (hunlocked : s.locked = false) (hdvd : type.size ∣ addr)
    (hok : fail s.programs.length = none →
      Q true ⟨program s.mem .onchip addr data, false, s.programs ++ [⟨type, addr, true⟩]⟩)
    (hbad : ∀ g, fail s.programs.length = some g →
      Q false ⟨programTorn s.mem .onchip addr data g, false, s.programs ++ [⟨type, addr, false⟩]⟩) :
    (halFlashProgram type addr data).wp (halWorld fail) Q E s := by
  have hcond : ¬ (false = true ∨ ¬ type.size ∣ addr) := by
    rintro (hlocked | hnot)
    · exact Bool.noConfusion hlocked
    · exact hnot hdvd
  refine Prog.wp_ask.2 ?_
  unfold halWorld
  simp only [hunlocked]
  rw [if_neg hcond]
  cases hfail : fail s.programs.length with
  | some g => exact hbad g hfail
  | none => exact hok hfail

end Calls

end Hal

/-! ## Units -/

/-- Units between two addresses, in their order: each is aligned, and none overlaps another one. -/
structure Units (start stop : ℕ) (us : List Programmed) : Prop where
  aligned : ∀ u ∈ us, u.type.size ∣ u.addr
  inside : ∀ u ∈ us, start ≤ u.addr ∧ u.addr + u.type.size ≤ stop
  apart : us.Pairwise fun u v => u.addr + u.type.size ≤ v.addr

section Units

variable {start stop : ℕ} {us : List Programmed}

theorem Units.nil (start : ℕ) : Units start start [] where
  aligned u h := by cases h
  inside u h := by cases h
  apart := .nil

/-- A unit behind the others. -/
theorem Units.concat (h : Units start stop us) (hle : start ≤ stop) {type : FlashTypeProgram}
    (hdvd : type.size ∣ stop) (ok : Bool) :
    Units start (stop + type.size) (us ++ [⟨type, stop, ok⟩]) where
  aligned := by
    intro u hu
    rcases List.mem_append.1 hu with hu | hu
    · exact h.aligned u hu
    · rw [List.mem_singleton.1 hu]
      exact hdvd
  inside := by
    intro u hu
    rcases List.mem_append.1 hu with hu | hu
    · obtain ⟨hlo, hhi⟩ := h.inside u hu
      exact ⟨hlo, by omega⟩
    · rw [List.mem_singleton.1 hu]
      exact ⟨hle, Nat.le_refl _⟩
  apart := by
    rw [List.pairwise_append]
    refine ⟨h.apart, List.pairwise_singleton _ _, fun u hu v hv => ?_⟩
    rw [List.mem_singleton.1 hv]
    exact (h.inside u hu).2

theorem Units.mono (h : Units start stop us) {stop' : ℕ} (hle : stop ≤ stop') :
    Units start stop' us :=
  ⟨h.aligned, fun u hu => ⟨(h.inside u hu).1, Nat.le_trans (h.inside u hu).2 hle⟩, h.apart⟩

end Units

/-! ## The write loop -/

section Write

variable {fail : ℕ → Option (ℕ → UInt8)} {m : Flash} {addr fuel w : ℕ} {buf : List UInt8}
  {s s' : OnchipFlash}

/-- The first `w` bytes are written. -/
structure WritesTo (m : Flash) (addr : ℕ) (buf : List UInt8) (w : ℕ) (s : OnchipFlash) : Prop where
  unlocked : s.locked = false
  mem : s.mem = program m .onchip addr (buf.take w)
  back : ∀ (i : ℕ) (hi : i < buf.length), i < w → s.mem .onchip (addr + i) = buf[i]
  ok : ∀ u ∈ s.programs, u.ok = true
  units : Units addr (addr + w) s.programs

/-- The unit behind the first `w` bytes ends the loop: it was not programmed, or does not read back. -/
structure BreaksAt (fail : ℕ → Option (ℕ → UInt8)) (m : Flash) (addr : ℕ) (buf : List UInt8) (w : ℕ)
    (type : FlashTypeProgram) (ok : Bool) (s s' : OnchipFlash) : Prop where
  writes : WritesTo m addr buf w s
  fits : w + type.size ≤ buf.length
  dvd : type.size ∣ addr + w
  unlocked : s'.locked = false
  programs : s'.programs = s.programs ++ [⟨type, addr + w, ok⟩]
  rest : ∀ e j, ¬ InRange .onchip (addr + w) type.size e j → s'.mem e j = s.mem e j
  why : ok = false ∧ (∃ k, fail k ≠ none) ∨ ok = true ∧ ∃ (i : ℕ) (hi : i < buf.length),
    s'.mem .onchip (addr + i) ≠ buf[i] ∧ ¬ Below buf[i] (m .onchip (addr + i))

theorem wp_programUnit (h : WritesTo m addr buf w s) {type : FlashTypeProgram}
    (hdvd : type.size ∣ addr + w) (hfit : w + type.size ≤ buf.length) {Q : Bool → OnchipFlash → Prop}
    {E : Option Unit → OnchipFlash → Prop}
    (hok : ∀ s', WritesTo m addr buf (w + type.size) s' → Q true s')
    (hbad : ∀ ok s', BreaksAt fail m addr buf w type ok s s' → Q false s') :
    (Hal.programUnit type (addr + w) ((buf.drop w).take type.size)).wp (halWorld fail) Q E s := by
  have hdata : ((buf.drop w).take type.size).length = type.size := by
    rw [List.length_take, List.length_drop]
    omega
  have hmem : ∀ e j, ¬ InRange .onchip (addr + w) type.size e j →
      program s.mem .onchip (addr + w) ((buf.drop w).take type.size) e j = s.mem e j := by
    intro e j hj
    exact program_of_not_inRange (by rwa [hdata])
  rw [Hal.programUnit, Prog.wp_bind]
  refine Hal.wp_halFlashProgram h.unlocked hdvd (fun _ => ?_) fun g hfail => ?_
  · simp only [if_true]
    rw [Prog.wp_bind, Hal.wp_loadUnit]
    simp only [Prog.wp_ret]
    by_cases hread : read (program s.mem .onchip (addr + w) ((buf.drop w).take type.size)) .onchip
        (addr + w) type.size = (buf.drop w).take type.size
    · -- the unit reads back: the next bytes are written
      rw [decide_eq_true hread]
      have hunits := h.units.concat (Nat.le_add_right _ _) hdvd true
      rw [Nat.add_assoc] at hunits
      refine hok _ ⟨rfl, ?_, fun i hi hlt => ?_, ?_, hunits⟩
      · show program s.mem _ _ _ = _
        have hlen : (buf.take w).length = w := by rw [List.length_take]; omega
        rw [h.mem, List.take_add, program_append, hlen]
      · show program s.mem _ _ _ _ _ = _
        rcases Nat.lt_or_ge i w with hiw | hge
        · rw [hmem _ _ (by rintro ⟨_, hlo, _⟩; omega)]
          exact h.back i hi hiw
        · have hget := congrArg (fun bs : List UInt8 => bs.getD (i - w) 0) hread
          beta_reduce at hget
          rw [read_getD _ _ _ (by omega), List.getD_eq_getElem _ _ (by omega), List.getElem_take,
            List.getElem_drop] at hget
          have hadd : addr + w + (i - w) = addr + i := by omega
          have hidx : w + (i - w) = i := by omega
          simpa only [hadd, hidx] using hget
      · intro u hu
        rcases List.mem_append.1 hu with hu | hu
        · exact h.ok u hu
        · rw [List.mem_singleton.1 hu]
    · rw [decide_eq_false hread]
      refine hbad true _ ⟨h, hfit, hdvd, rfl, rfl, hmem, Or.inr ⟨rfl, ?_⟩⟩
      -- a byte of it does not, since a bit of it had to be raised
      have hall : ¬ ∀ (j : ℕ) (hj : j < ((buf.drop w).take type.size).length),
          Below ((buf.drop w).take type.size)[j] (s.mem .onchip (addr + w + j)) := by
        intro hall
        have hback := read_program_eq_iff.2 hall
        rw [hdata] at hback
        exact hread hback
      push Not at hall
      obtain ⟨j, hj, hnot⟩ := hall
      have hj' : j < type.size := by omega
      refine ⟨w + j, by omega, ?_⟩
      have hsame : s.mem .onchip (addr + (w + j)) = m .onchip (addr + (w + j)) := by
        rw [h.mem]
        refine program_of_not_inRange ?_
        rintro ⟨_, _, hhi⟩
        rw [List.length_take] at hhi
        omega
      rw [List.getElem_take, List.getElem_drop, Nat.add_assoc, hsame] at hnot
      refine ⟨fun heq => hnot ?_, hnot⟩
      have happly := program_apply s.mem .onchip (addr + w) ((buf.drop w).take type.size) hj
      rw [List.getElem_take, List.getElem_drop, Nat.add_assoc, hsame] at happly
      rw [below_iff, UInt8.and_comm]
      exact happly.symm.trans heq
  · refine hbad false _ ⟨h, hfit, hdvd, rfl, rfl, fun e j hj => ?_,
      Or.inl ⟨rfl, s.programs.length, ?_⟩⟩
    · exact programTorn_of_not_inRange (by rwa [hdata])
    · rw [hfail]
      exact Option.some_ne_none g

theorem wp_writeLoop (hlt : addr + buf.length < 4294967296) (h : WritesTo m addr buf w s)
    (hw : w ≤ buf.length) (hfuel : buf.length - w < fuel) {Q : Bool → OnchipFlash → Prop}
    {E : Option Unit → OnchipFlash → Prop}
    (hok : ∀ s', WritesTo m addr buf buf.length s' → Q true s')
    (hbad : ∀ w type ok s s', BreaksAt fail m addr buf w type ok s s' → Q false s') :
    (Hal.writeLoop addr buf fuel w).wp (halWorld fail) Q E s := by
  induction fuel generalizing w s with
  | zero => exact absurd hfuel (Nat.not_lt_zero _)
  | succ fuel ih =>
    rw [Hal.writeLoop]
    by_cases hlast : w < buf.length
    swap
    · rw [if_neg hlast]
      obtain rfl : w = buf.length := by omega
      exact hok s h
    have hle := @stm32WriteSize_le (addr + w) (buf.length - w) (by omega)
    have hpos := stm32WriteSize_pos (addr + w) (buf.length - w)
    rw [← Hal.typeProgram_size] at hle hpos
    rw [if_pos hlast, u32_of_lt (by omega)]
    dsimp only
    rw [Prog.wp_bind]
    refine wp_programUnit h (Hal.typeProgram_dvd _ _) (by omega) (fun s' h' => ?_)
      fun ok s' h' => hbad _ _ _ _ _ h'
    exact ih h' (by omega) (by omega)

/-! ## `stm32_flash_write` -/

/-- What the driver promises of a write: how it left the flash, and what it returned. -/
structure ByteExact (fail : ℕ → Option (ℕ → UInt8)) (m : Flash) (addr : ℕ) (buf : List UInt8)
    (ret : ℤ) (s : OnchipFlash) : Prop where
  /-- no byte is programmed twice or outside the range, and all units are aligned -/
  units : Units addr (addr + buf.length) s.programs
  size_iff : ret = buf.length ↔
    (∀ u ∈ s.programs, u.ok = true) ∧ read s.mem .onchip addr buf.length = buf
  erased : (∀ k, fail k = none) → (∀ i < buf.length, m .onchip (addr + i) = 0xFF) → ret = buf.length
  /-- the last unit failed -/
  failed : ret ≠ buf.length → ret < 0 ∧ ∃ us u, s.programs = us ++ [u] ∧
    (∀ v ∈ us, v.ok = true) ∧
    (∀ (i : ℕ) (hi : i < buf.length), addr + i < u.addr → s.mem .onchip (addr + i) = buf[i]) ∧
    ∀ j, u.addr + u.type.size ≤ j → s.mem .onchip j = m .onchip j
  outside : ∀ e j, ¬ InRange .onchip addr buf.length e j → s.mem e j = m e j
  locked : s.locked = true

theorem WritesTo.byteExact (h : WritesTo m addr buf buf.length s) (hlen : buf.length < 2147483648) :
    ByteExact fail m addr buf (toInt32 buf.length) { s with locked := true } where
  units := h.units
  size_iff := by
    rw [toInt32_of_lt hlen]
    exact ⟨fun _ => ⟨h.ok, read_eq_iff_getElem.2 fun i hi => h.back i hi hi⟩, fun _ => rfl⟩
  erased _ _ := toInt32_of_lt hlen
  failed hne := absurd (toInt32_of_lt hlen) hne
  outside e j hj := by
    show s.mem e j = m e j
    rw [h.mem, List.take_length]
    exact program_of_not_inRange hj
  locked := rfl

theorem BreaksAt.byteExact {type : FlashTypeProgram} {ok : Bool}
    (h : BreaksAt fail m addr buf w type ok s s') :
    ByteExact fail m addr buf (-1) { s' with locked := true } := by
  have hw : w ≤ buf.length := Nat.le_trans (Nat.le_add_right _ _) h.fits
  have hbefore : ∀ e j, ¬ InRange .onchip addr w e j → s.mem e j = m e j := by
    intro e j hj
    rw [h.writes.mem]
    refine program_of_not_inRange ?_
    rwa [List.length_take, Nat.min_eq_left hw]
  have hfits := h.fits
  refine ⟨?_, ⟨fun h => by omega, fun hall => ?_⟩, fun hquiet herased => ?_, fun _ => ⟨by omega, ?_⟩,
    fun e j hj => ?_, rfl⟩
  · show Units addr (addr + buf.length) s'.programs
    rw [h.programs]
    exact (h.writes.units.concat (Nat.le_add_right _ _) h.dvd ok).mono (by omega)
  · -- the unit was not programmed, or a byte of it differs
    obtain ⟨hok, hread⟩ := hall
    rcases h.why with ⟨hfalse, -⟩ | ⟨-, i, hi, hne, -⟩
    · have hlast := hok ⟨type, addr + w, ok⟩ (by
        show _ ∈ s'.programs
        rw [h.programs]
        exact List.mem_append_right _ (List.mem_singleton_self _))
      rw [hfalse] at hlast
      exact Bool.noConfusion hlast
    · exact absurd (read_eq_iff_getElem.1 hread i hi) hne
  · rcases h.why with ⟨-, k, hk⟩ | ⟨-, i, hi, -, hnot⟩
    · exact absurd (hquiet k) hk
    · rw [herased i hi] at hnot
      exact absurd (below_ff _) hnot
  · refine ⟨s.programs, _, h.programs, h.writes.ok, fun i hi hlt => ?_, fun j hj => ?_⟩
    · have hiw : i < w := by
        have : addr + i < addr + w := hlt
        omega
      show s'.mem .onchip (addr + i) = _
      rw [h.rest _ _ (by rintro ⟨_, hlo, _⟩; omega)]
      exact h.writes.back i hi hiw
    · have hj' : addr + w + type.size ≤ j := hj
      show s'.mem .onchip j = _
      rw [h.rest _ _ (by rintro ⟨_, _, hhi⟩; omega)]
      exact hbefore _ _ (by rintro ⟨_, _, hhi⟩; omega)
  · show s'.mem e j = _
    rw [h.rest _ _ (by rintro ⟨he, hlo, hhi⟩; exact hj ⟨he, by omega, by omega⟩)]
    exact hbefore _ _ (by rintro ⟨he, hlo, hhi⟩; exact hj ⟨he, hlo, by omega⟩)

/-- Within the address space the write driver is a byte-exact program, whatever the flash held and
whichever programs fail. -/
theorem stm32FlashWrite_byteExact (fail : ℕ → Option (ℕ → UInt8)) (m : Flash) (locked : Bool)
    {addr fuel : ℕ} {buf : List UInt8} (hpos : 1 ≤ buf.length)
    (haddr : addr + buf.length ≤ stm32FlashEndAddress) (hfuel : buf.length < fuel) :
    ∃ ret s, (Hal.stm32FlashWrite fuel addr buf).run (halWorld fail) ⟨m, locked, []⟩ = .done ret s ∧
      ByteExact fail m addr buf ret s := by
  have hend : stm32FlashEndAddress = 0x08080000 := rfl
  refine Prog.run_done_of_wp ?_
  rw [Hal.stm32FlashWrite, u32_of_lt (by omega), if_neg (by omega), if_neg (by omega), Prog.wp_bind,
    Hal.wp_halFlashUnlock, Prog.wp_bind, Hal.wp_halFlashClearFlag, Prog.wp_bind]
  have hstart : WritesTo m addr buf 0 ⟨m, false, []⟩ :=
    ⟨rfl, (program_nil _ _ _).symm, fun i _ hi => absurd hi (Nat.not_lt_zero i),
      fun u hu => by (cases hu), Units.nil addr⟩
  refine wp_writeLoop (by omega) hstart (Nat.zero_le _) (by omega) (fun s' h => ?_)
    fun w type ok s s' h => ?_
  · rw [Prog.wp_bind, Hal.wp_halFlashLock]
    exact h.byteExact (by omega)
  · rw [Prog.wp_bind, Hal.wp_halFlashLock]
    exact h.byteExact

/-- A write that begins with a byte, goes on with a half word and ends with a word. -/
theorem stm32FlashWrite_byteExact_sevenBytes :
    ∃ ret s, (Hal.stm32FlashWrite 8 0x08020001 [1, 2, 3, 4, 5, 6, 7]).run (halWorld fun _ => none)
        ⟨fun _ _ => 0xFF, true, []⟩ = .done ret s ∧
      ByteExact (fun _ => none) (fun _ _ => 0xFF) 0x08020001 [1, 2, 3, 4, 5, 6, 7] ret s :=
  stm32FlashWrite_byteExact (fun _ => none) (fun _ _ => 0xFF) true (by decide) (by decide) (by decide)

/-! ## The content of the flash -/

/-- The loop, call by call, does to the flash what `stm32FlashWriteLoop` does. -/
theorem wp_writeLoop_content (hlt : addr + buf.length < 4294967296) {left : ℕ}
    (hunlocked : s.locked = false) (hleft : buf.length - w ≤ left) (hfuel : buf.length - w < fuel) :
    (Hal.writeLoop addr buf fuel w).wp (halWorld fail)
      (fun ok s' => (ok, s'.mem) =
        stm32FlashWriteLoop fail left s.programs.length s.mem (addr + w) (buf.drop w))
      (fun _ _ => False) s := by
  induction fuel generalizing w s left with
  | zero => exact absurd hfuel (Nat.not_lt_zero _)
  | succ fuel ih =>
    rw [Hal.writeLoop]
    by_cases hlast : w < buf.length
    swap
    · rw [if_neg hlast, List.drop_eq_nil_of_le (by omega)]
      cases left <;> rfl
    obtain ⟨left, rfl⟩ : ∃ k, left = k + 1 := ⟨left - 1, by omega⟩
    have hle := @stm32WriteSize_le (addr + w) (buf.length - w) (by omega)
    have hpos := stm32WriteSize_pos (addr + w) (buf.length - w)
    have hlen : (buf.drop w).length = buf.length - w := List.length_drop
    rw [if_pos hlast, u32_of_lt (by omega)]
    obtain ⟨b, bs, hcons⟩ := List.exists_cons_of_length_pos (l := buf.drop w) (by omega)
    have hstep : stm32FlashWriteLoop fail (left + 1) s.programs.length s.mem (addr + w) (buf.drop w) =
        let data := (buf.drop w).take (stm32WriteSize (addr + w) (buf.drop w).length)
        match fail s.programs.length with
        | some g => (false, programTorn s.mem .onchip (addr + w) data g)
        | none =>
          if read (program s.mem .onchip (addr + w) data) .onchip (addr + w) data.length = data then
            stm32FlashWriteLoop fail left (s.programs.length + 1)
              (program s.mem .onchip (addr + w) data)
              (u32 (addr + w + stm32WriteSize (addr + w) (buf.drop w).length))
              ((buf.drop w).drop (stm32WriteSize (addr + w) (buf.drop w).length))
          else (false, program s.mem .onchip (addr + w) data) := by
      rw [hcons]
      rfl
    rw [hlen] at hstep
    have hdata : ((buf.drop w).take (stm32WriteSize (addr + w) (buf.length - w))).length =
        stm32WriteSize (addr + w) (buf.length - w) := by
      rw [List.length_take]
      omega
    have hsize := Hal.typeProgram_size (addr + w) (buf.length - w)
    have hdvd := Hal.typeProgram_dvd (addr + w) (buf.length - w)
    rw [hstep]
    dsimp only
    generalize Hal.typeProgram (addr + w) (buf.length - w) = type at hsize hdvd ⊢
    rw [← hsize] at hle hpos hdata ⊢
    rw [Prog.wp_bind, Hal.programUnit, Prog.wp_bind, hdata]
    refine Hal.wp_halFlashProgram hunlocked hdvd (fun hfail => ?_) fun g hfail => ?_
    · rw [hfail]
      simp only [if_true]
      rw [Prog.wp_bind, Hal.wp_loadUnit]
      simp only [Prog.wp_ret]
      by_cases hread : read (program s.mem .onchip (addr + w) ((buf.drop w).take type.size)) .onchip
          (addr + w) type.size = (buf.drop w).take type.size
      · rw [decide_eq_true hread, if_pos rfl, if_pos hread, u32_of_lt (by omega), List.drop_drop]
        refine Prog.wp_imp (@ih (w + type.size) _ left rfl (by omega) (by omega)) fun ok s' h => ?_
        rw [h, List.length_append, List.length_singleton, Nat.add_assoc]
      · rw [decide_eq_false hread, if_neg hread]
        rfl
    · rw [hfail]
      rfl

/-- The driver, call by call, returns and leaves in the flash what `stm32FlashWrite` says. -/
theorem stm32FlashWrite_content (fail : ℕ → Option (ℕ → UInt8)) (m : Flash) (locked : Bool)
    {addr fuel : ℕ} {buf : List UInt8} (hlt : addr + buf.length < 4294967296)
    (hfuel : buf.length < fuel) :
    ∃ s, (Hal.stm32FlashWrite fuel addr buf).run (halWorld fail) ⟨m, locked, []⟩ =
        .done (stm32FlashWrite fail m addr buf).1 s ∧
      s.mem = (stm32FlashWrite fail m addr buf).2 := by
  have hwp : (Hal.stm32FlashWrite fuel addr buf).wp (halWorld fail)
      (fun ret s => (ret, s.mem) = stm32FlashWrite fail m addr buf) (fun _ _ => False)
      ⟨m, locked, []⟩ := by
    rw [Hal.stm32FlashWrite, stm32FlashWrite]
    split_ifs
    · rfl
    · rfl
    rw [Prog.wp_bind, Hal.wp_halFlashUnlock, Prog.wp_bind, Hal.wp_halFlashClearFlag, Prog.wp_bind]
    refine Prog.wp_imp (wp_writeLoop_content hlt rfl (Nat.le_refl _) (by omega)) fun ok s h => ?_
    rw [Prog.wp_bind, Hal.wp_halFlashLock]
    have h : (ok, s.mem) = stm32FlashWriteLoop fail buf.length 0 m addr buf := h
    rw [← h]
    cases ok <;> rfl
  obtain ⟨ret, s, hrun, h⟩ := Prog.run_done_of_wp hwp
  rw [← h]
  exact ⟨s, hrun, rfl⟩

end Write

end RtThreadOta
