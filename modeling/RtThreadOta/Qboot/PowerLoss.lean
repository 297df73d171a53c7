import RtThreadOta.Qboot.Success

/-!
# Where a power loss may strike

An operation inside a partition that loses its power has changed nothing outside it. A program that only
reads either goes as on a calm board or is cut.
-/

namespace RtThreadOta

open Interaction Nor Words

variable {L : Layout} {P : Codecs} {env : Env} {part : FalPartition} {s : Board}

/-! ## Operations that are cut -/

/-- The sectors of the on-chip flash named by an empty erase: none, or the one that the address is in the
middle of. -/
theorem stm32EraseRange_empty {off : ℕ} (h : off ≤ 0x60000) :
    stm32EraseRange (0x08020000 + off) 0 =
      (0x08020000 + off / 0x20000 * 0x20000, if off % 0x20000 = 0 then 0 else 0x20000) := by
  have hsector : ∀ {a : ℕ}, a < 0x80000 → getSector (0x08020000 + a) = 5 + a / 0x20000 := by
    intro a ha
    have hlo : addrFlashSector (5 + a / 0x20000) = 0x08020000 + a / 0x20000 * 0x20000 := by
      rw [addrFlashSector, if_neg (by omega), Nat.add_sub_cancel_left]
    have hhi : addrFlashSector (5 + a / 0x20000 + 1) =
        0x08020000 + (a / 0x20000 + 1) * 0x20000 := by
      rw [addrFlashSector, if_neg (by omega)]
      omega
    exact getSector_of_inRange (by omega) (by omega) (by omega) (by omega)
  have hfirst := hsector (a := off) (by omega)
  have haddr : subU32 (u32 (0x08020000 + off + 0)) 1 = 0x08020000 + off - 1 := by
    rw [u32_of_lt (by omega), subU32_of_le (by omega) (by omega)]
    rfl
  -- the last sector is the one in front when the address starts one
  have hlast : getSector (0x08020000 + off - 1) = if off % 0x20000 = 0 then 4 + off / 0x20000
      else 5 + off / 0x20000 := by
    rcases Nat.eq_zero_or_pos off with rfl | hpos
    · decide
    · have hsub : 0x08020000 + off - 1 = 0x08020000 + (off - 1) := by omega
      rw [hsub, hsector (by omega)]
      split <;> omega
  rw [stm32EraseRange, haddr, hfirst, hlast]
  have hq : off / 0x20000 ≤ 3 := by omega
  generalize off / 0x20000 = q at *
  have hstart : addrFlashSector (5 + q) = 0x08020000 + q * 0x20000 := by
    rw [addrFlashSector, if_neg (by omega), Nat.add_sub_cancel_left]
  split
  · have hnone : u32 (subU32 (4 + q) (5 + q) + 1) = 0 := by
      rw [subU32, u32, u32]
      omega
    rw [hnone, Nat.zero_add, u32_of_lt (by omega), Nat.sub_self, hstart]
  · have hone : u32 (subU32 (5 + q) (5 + q) + 1) = 1 := by
      rw [subU32_of_le (Nat.le_refl _) (by omega), Nat.sub_self]
      exact u32_of_lt (by omega)
    have hend : addrFlashSector (1 + (5 + q)) = 0x08020000 + (q + 1) * 0x20000 := by
      rw [addrFlashSector, if_neg (by omega)]
      omega
    rw [hone, u32_of_lt (by omega), hstart, hend, Prod.mk.injEq]
    omega

/-- The bytes that an erase call inside a partition may set lie in it. -/
theorem eraseRange_inside (hp : part ∈ L.parts) {addr size : ℕ} (h : addr + size ≤ part.len) :
    part.base ≤ (eraseRange L part.dev (part.offset + addr) size).1 ∧
      (eraseRange L part.dev (part.offset + addr) size).1 +
        (eraseRange L part.dev (part.offset + addr) size).2 ≤ part.base + part.len := by
  rcases Nat.eq_zero_or_pos size with rfl | hsize
  · obtain ⟨hw, ⟨c, hc⟩, ⟨n, hn⟩, -⟩ := L.sound part hp
    obtain ⟨name, dev, offset, len⟩ := part
    simp only at hw hc hn h ⊢
    cases dev with
    | onchip =>
      simp only [NorChip.devLen, NorChip.blkSize] at hw hc hn
      simp only [eraseRange, FalPartition.base, devAddr]
      rw [u32_of_lt (by omega), stm32EraseRange_empty (by omega)]
      dsimp only
      split <;> omega
    | nor =>
      have hcap := L.chip.capacity_lt
      simp only [NorChip.devLen] at hw
      simp only [eraseRange, FalPartition.base, devAddr, sfudEraseRange, if_true, Nat.zero_add]
      rw [u32_of_lt (by omega)]
      omega
  · have hstop := eraseStop_le hp h
    have hlo := eraseStart_le L part addr
    have hhi := le_eraseStop L part (addr + size)
    rw [eraseRange_eq hp hsize h]
    dsimp only
    omega

/-- An operation inside a partition that loses its power is not seen outside it. -/
theorem Op.Inside.cutFlash (hp : part ∈ L.parts) {o : Op} (h : o.Inside part) (g : ℕ → UInt8)
    (m : Flash) : part.SameElsewhere m (cutFlash L g m o) := by
  cases o with
  | write dev offset buf =>
    obtain ⟨addr, rfl, rfl, hfit⟩ := h
    have hlt := L.base_add_len_lt hp
    have hbase : u32 (devAddr part.dev + (part.offset + addr)) = part.base + addr := by
      rw [FalPartition.base] at hlt ⊢
      rw [u32_of_lt (by omega), Nat.add_assoc]
    intro e i hi
    rw [RtThreadOta.cutFlash, hbase]
    apply programTorn_of_not_inRange
    rintro ⟨rfl, hlo, hhi⟩
    exact hi ⟨rfl, by omega, by omega⟩
  | erase dev offset size =>
    obtain ⟨addr, rfl, rfl, hfit⟩ := h
    obtain ⟨hlo, hhi⟩ := eraseRange_inside hp hfit
    intro e i hi
    apply eraseCut_of_not_inRange
    rintro ⟨rfl, hlo', hhi'⟩
    exact hi ⟨rfl, by omega, by omega⟩
  | read dev offset size => exact .refl _ _
  | load addr size => exact .refl _ _
  | print msg => exact .refl _ _

/-- Whatever goes wrong, a program that stays inside a partition leaves the rest as it was, however it
ends. -/
theorem wp_inside_any {α : Type} {p : Code α} {T : α → Prop} (hpart : part ∈ L.parts)
    (h : p.OnlyPost (Op.Inside part) T) (env : Env) (s : Board) :
    p.wp (world L env) (fun a s' => T a ∧ part.SameElsewhere s.flash s'.flash)
      (fun _ s' => part.SameElsewhere s.flash s'.flash) s := by
  refine h.inv (fun s' : Board => part.SameElsewhere s.flash s'.flash) (fun o s' ho hs' => ?_)
    (.refl _ _)
  apply hs'.trans
  rw [world]
  cases (env s'.tick o).cut with
  | none => exact ho.sameElsewhere hpart _ _
  | some g => exact ho.cutFlash hpart g _

/-! ## Operations on a range -/

/-- A write of bytes of a range of the partition, or an operation that changes no flash. -/
def Op.Writes (p : FalPartition) (a n : ℕ) : Op → Prop
  | .write dev offset buf => ∃ addr, dev = p.dev ∧ offset = p.offset + addr ∧ a ≤ addr ∧
      addr + buf.length ≤ a + n
  | .erase .. => False
  | _ => True

/-- It is not seen outside the range, whether it succeeds, fails or is cut. -/
theorem Op.Writes.world (hp : part ∈ L.parts) {a n : ℕ} (hfit : a + n ≤ part.len) {o : Op}
    (h : o.Writes part a n) (env : Env) (s : Board) :
    part.SameOutside a n s.flash (world L env o s).2.flash := by
  rw [RtThreadOta.world]
  cases o with
  | write dev offset buf =>
    obtain ⟨addr, rfl, rfl, hlo, hhi⟩ := h
    have hlt := L.base_add_len_lt hp
    have hout : ∀ {e i}, ¬ InRange part.dev (part.base + a) n e i →
        ¬ InRange part.dev (part.base + addr) buf.length e i := by
      rintro e i hi ⟨rfl, h₁, h₂⟩
      exact hi ⟨rfl, by omega, by omega⟩
    cases (env s.tick (.write part.dev (part.offset + addr) buf)).cut with
    | some g =>
      have hbase : u32 (devAddr part.dev + (part.offset + addr)) = part.base + addr := by
        rw [FalPartition.base] at hlt ⊢
        rw [u32_of_lt (by omega), Nat.add_assoc]
      intro e i hi
      dsimp only
      rw [RtThreadOta.cutFlash, hbase]
      exact programTorn_of_not_inRange (hout hi)
    | none =>
      intro e i hi
      simp only [drive]
      rcases devWrite_eq s.flash (env s.tick (.write part.dev (part.offset + addr) buf)).fail hp
        (by omega : addr + buf.length ≤ part.len) with ⟨heq, -⟩ | ⟨-, hsame, -⟩
      · rw [heq]
        exact program_of_not_inRange (hout hi)
      · exact hsame e i (hout hi)
  | erase dev offset size => exact h.elim
  | _ => split <;> exact fun _ _ _ => rfl

/-- A program of such operations leaves the rest as it was, however it ends. -/
theorem wp_writes {α : Type} {p : Code α} {T : α → Prop} (hpart : part ∈ L.parts) {a n : ℕ}
    (hfit : a + n ≤ part.len) (h : p.OnlyPost (Op.Writes part a n) T) (env : Env) (s : Board) :
    p.wp (world L env) (fun r s' => T r ∧ part.SameOutside a n s.flash s'.flash)
      (fun _ s' => part.SameOutside a n s.flash s'.flash) s := by
  refine h.inv (fun s' : Board => part.SameOutside a n s.flash s'.flash) (fun o s' ho hs' => ?_)
    fun _ _ _ => rfl
  intro e i hi
  exact (ho.world hpart hfit env s' e i hi).trans (hs' e i hi)

/-! ## Programs that only read -/

/-- No read is reported to fail; whether anything else is, and whether the power goes, is open. -/
def ReadsWell (env : Env) : Prop := ∀ t dev offset size, (env t (.read dev offset size)).Quiet

theorem ReadsWell.readsQuiet (h : ReadsWell env) (p : FalPartition) : ReadsQuiet env p :=
  fun t _ _ _ => h t _ _ _

/-- What a program that only reads comes to on a calm board, it comes to wherever reads go well, unless
it is cut. -/
theorem wp_of_calm {α : Type} {p : Code α} (h : p.Only Op.IsRead) (hreads : ReadsWell env)
    {Q : α → Board → Prop} (hcalm : p.wp (world L calmEnv) Q (fun _ _ => True) s) :
    p.wp (world L env) Q (fun _ _ => True) s := by
  induction p generalizing s with
  | ret a => exact hcalm
  | halt x => trivial
  | call o k ih =>
    obtain ⟨hread, hk⟩ := h
    rw [Prog.wp, world] at hcalm ⊢
    cases hcut : (env s.tick o).cut with
    | some g => trivial
    | none =>
      cases o with
      | read dev offset size =>
        have hquiet : (env s.tick (.read dev offset size)).fail = Fault.none.fail := by
          funext k
          exact hreads _ _ _ _ k
        rw [hquiet]
        exact ih _ (hk _) hcalm
      | _ => exact hread.elim

/-- And it has changed nothing, however it ends. -/
theorem wp_reads_well {α : Type} {p : Code α} (h : p.Only Op.IsRead) (hreads : ReadsWell env)
    {Q : α → Board → Prop} (hcalm : p.wp (world L calmEnv) Q (fun _ _ => True) s) :
    p.wp (world L env) (fun r s' => Q r s' ∧ s'.flash = s.flash) (fun _ s' => s'.flash = s.flash) s :=
  Prog.wp_mono (Prog.wp_and (wp_of_calm h hreads hcalm) (wp_flash_eq h env s)) (fun _ _ h => h)
    fun _ _ h => h.2

/-- On a board where nothing is reported to fail, a program goes as on a calm one or is cut. -/
theorem run_calm_or_cut {α : Type} (p : Code α) (hquiet : ∀ t o, (env t o).Quiet) (s : Board) :
    p.run (world L env) s = p.run (world L calmEnv) s ∨ ∃ s', p.run (world L env) s = .cut s' := by
  induction p generalizing s with
  | ret a => exact Or.inl rfl
  | halt x => exact Or.inl rfl
  | call o k ih =>
    have hfail : (env s.tick o).fail = Fault.none.fail := by
      funext j
      exact hquiet _ _ j
    simp only [Prog.run, world]
    cases (env s.tick o).cut with
    | some g => exact Or.inr ⟨_, rfl⟩
    | none =>
      rw [hfail]
      exact ih _ _

end RtThreadOta
