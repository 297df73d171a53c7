import RtThreadOta.Qboot.Clone
import RtThreadOta.Qboot.Decoding
import RtThreadOta.Qboot.Survival
import RtThreadOta.RoundTrip.Packed

/-!
# Which packages come to an end

The loops of `qbt_app_crc_check` and `qbt_fw_release` count the bytes they have decoded and never look
at how much of the package is left. So a package whose body decodes to less than `raw_size` says is not
refused: the loops spin on it, or make up the rest.
-/

namespace RtThreadOta

open Interaction Words

variable {L : Layout} {P : Codecs} {env : Env} {dst src : FalPartition} {s : Board}

/-! ## The two functions -/

section Package

variable {info : FwInfo} {ram : Ram P} {fuel : ℕ} {d : Decoder} {Good : d.State → Prop}
  {Dry : List UInt8 → d.State → Prop}

/-- Fuel enough for a package that comes to an end. -/
def endFuel (info : FwInfo) : ℕ := inflateFuel + info.pkgSize + info.rawSize + 64

theorem plain_length (haes : info.cryptType = qbootAlgoCryptAes → 16 ∣ info.pkgSize)
    {ram₁ : Ram P} (h : qbtFwDecryptInit info.cryptType ram = some ram₁) :
    (src.plain P s.flash info).length = info.pkgSize := by
  have hdec : Decrypts info.cryptType ram₁ _ (src.plain P s.flash info) :=
    decrypts_start h (Kept.refl ram₁) haes
  have hlen := hdec.length
  rw [FalPartition.bytes_length, Nat.add_sub_cancel] at hlen
  exact hlen

end Package

/-! ## A truncated package -/

/-- Stored data streams: what is left is the input. -/
def streams_stored : Codecs.stored.inflater.Streams where
  waits _ := True
  left _ nextIn := nextIn.length
  init := trivial
  left_le s nextIn _ := by omega
  step s nextIn n s' used out h := by
    cases h
    rw [List.length_take, List.length_drop]
    omega
  short _ _ _ _ _ _ _ _ := trivial
  dry s n _ := by
    refine ⟨(), min 0 n, ?_, trivial⟩
    show ((), min 0 n, some (([] : List UInt8).take n)) = _
    rw [List.take_nil]
    rfl

end RtThreadOta
