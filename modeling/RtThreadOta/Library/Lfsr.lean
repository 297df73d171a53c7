import Mathlib.Data.List.GetD
import Mathlib.Tactic.Common

/-!
# Reflected shift registers

A register of `w` bits shifts to the right, and the polynomial `poly` is folded in when a one falls
out. `feed` mixes a bit of the message into the one that falls out, so that `feedBits` is the
division of a message by the polynomial, low bit first.

Shifting is linear: `steps_xor` says that bits mixed in beforehand are bits fed on the way. When the
top bit of the polynomial is set, the top bit of a register tells what fell out last. So registers
that agree on their top `n` bits come from equal last `n` bits (`feedBits_inj`), and no later bits
hide a difference (`feedBits_left_inj`).
-/

namespace Lfsr

variable {w : ℕ} (poly : BitVec w)

/-- One shift. -/
def step (c : BitVec w) : BitVec w := if c.getLsbD 0 then (c >>> 1) ^^^ poly else c >>> 1

/-- So many shifts. -/
def steps : ℕ → BitVec w → BitVec w
  | 0, c => c
  | n + 1, c => steps n (step poly c)

/-- Shift a bit of the message in. -/
def feed (c : BitVec w) (b : Bool) : BitVec w :=
  if c.getLsbD 0 ^^ b then (c >>> 1) ^^^ poly else c >>> 1

/-- Shift a message in. -/
def feedBits (c : BitVec w) (bs : List Bool) : BitVec w := bs.foldl (feed poly) c

/-- The low `n` bits of a word, the lowest first. -/
def lowBits (n : ℕ) (x : BitVec w) : List Bool := (List.range n).map x.getLsbD

variable {poly} {c c' x : BitVec w} {b b' : Bool} {bs bs' : List Bool} {k n : ℕ}

@[simp] theorem feedBits_nil : feedBits poly c [] = c := rfl

@[simp] theorem feedBits_cons : feedBits poly c (b :: bs) = feedBits poly (feed poly c b) bs := rfl

theorem feedBits_append : feedBits poly c (bs ++ bs') = feedBits poly (feedBits poly c bs) bs' :=
  List.foldl_append

@[simp] theorem lowBits_length : (lowBits n x).length = n := by
  rw [lowBits, List.length_map, List.length_range]

theorem lowBits_succ : lowBits (n + 1) x = x.getLsbD 0 :: lowBits n (x >>> 1) := by
  rw [lowBits, List.range_succ_eq_map, List.map_cons, List.map_map, lowBits]
  refine congrArg (x.getLsbD 0 :: ·) (List.map_congr_left fun i _ => ?_)
  rw [Function.comp_apply, BitVec.getLsbD_ushiftRight, Nat.succ_eq_add_one, Nat.add_comm]

theorem lowBits_inj (h : lowBits w x = lowBits w c) : x = c := by
  apply BitVec.eq_of_getLsbD_eq
  intro i hi
  have := congrArg (fun l => l.getD i false) h
  simpa [lowBits, List.getD_eq_getElem, hi] using this

/-- The bits of two words next to each other, the low word first. -/
theorem lowBits_concat {v : ℕ} (hi : BitVec w) (lo : BitVec v) :
    lowBits (v + w) (hi ++ lo) = lowBits v lo ++ lowBits w hi := by
  rw [lowBits, List.range_add, List.map_append, List.map_map]
  refine congrArg₂ _ (List.map_congr_left fun i hi => ?_) (List.map_congr_left fun i _ => ?_)
  · rw [BitVec.getLsbD_append, if_pos (List.mem_range.1 hi)]
  · rw [Function.comp_apply, BitVec.getLsbD_append, if_neg (by omega), Nat.add_sub_cancel_left]

/-! ## Shifting is linear -/

theorem step_xor : step poly (c ^^^ x) = feed poly c (x.getLsbD 0) ^^^ x >>> 1 := by
  unfold step feed
  rw [BitVec.getLsbD_xor, BitVec.ushiftRight_xor_distrib]
  split
  · rw [BitVec.xor_assoc, BitVec.xor_comm (x >>> 1), ← BitVec.xor_assoc]
  · rfl

/-- Bits mixed in beforehand are fed on the way. -/
theorem steps_xor : steps poly n (c ^^^ x) = feedBits poly c (lowBits n x) ^^^ x >>> n := by
  induction n generalizing c x with
  | zero =>
    rw [steps, lowBits, List.range_zero, List.map_nil, feedBits_nil, BitVec.ushiftRight_zero]
  | succ n ih =>
    rw [steps, step_xor, ih, lowBits_succ, feedBits_cons, Nat.add_comm n 1, BitVec.shiftRight_add]

theorem feed_false : feed poly c false = step poly c := by
  unfold feed step
  rw [Bool.xor_false]

/-- Zero bits only shift. -/
theorem feedBits_zeros (h : ∀ b ∈ bs, b = false) : feedBits poly c bs = steps poly bs.length c := by
  induction bs generalizing c with
  | nil => rfl
  | cons b bs ih =>
    have hb : b = false := h b List.mem_cons_self
    rw [feedBits_cons, hb, feed_false, List.length_cons, steps,
      ih fun b' hb' => h b' (List.mem_cons_of_mem _ hb')]

/-- The shifts of a word are those of its low part, and the rest moved down. -/
theorem steps_split {lo hi : BitVec w} (h : ∀ i < n, hi.getLsbD i = false) :
    steps poly n (lo ^^^ hi) = steps poly n lo ^^^ hi >>> n := by
  have hz : ∀ b ∈ lowBits n hi, b = false := by
    intro b hb
    obtain ⟨i, hi', rfl⟩ := List.mem_map.1 hb
    exact h i (List.mem_range.1 hi')
  rw [steps_xor, feedBits_zeros hz, lowBits_length]

/-! ## What a register tells about the message -/

/-- The registers agree on their top `k` bits. -/
def AgreeTop (k : ℕ) (c c' : BitVec w) : Prop :=
  ∀ i < w, w ≤ i + k → c.getLsbD i = c'.getLsbD i

theorem AgreeTop.mono (h : AgreeTop n c c') (hk : k ≤ n) : AgreeTop k c c' := by
  intro i hi hik
  exact h i hi (by omega)

theorem agreeTop_all : AgreeTop w c c' ↔ c = c' := by
  refine ⟨fun h => BitVec.eq_of_getLsbD_eq fun i hi => h i hi (by omega), ?_⟩
  rintro rfl i _ _
  rfl

/-- The bits of a register after a bit was fed. -/
theorem getLsbD_feed (i : ℕ) : (feed poly c b).getLsbD i =
    (c.getLsbD (i + 1) ^^ ((c.getLsbD 0 ^^ b) && poly.getLsbD i)) := by
  unfold feed
  cases c.getLsbD 0 ^^ b with
  | false => simp [Nat.add_comm]
  | true => simp [Nat.add_comm]

section TopBit

variable (htop : poly.msb = true)

include htop

/-- The top bit is the one that fell out. -/
theorem msb_feed : (feed poly c b).msb = (c.getLsbD 0 ^^ b) := by
  have hlast : c.getLsbD (w - 1 + 1) = false := BitVec.getLsbD_of_ge _ _ (by omega)
  rw [BitVec.msb_eq_getLsbD_last] at htop ⊢
  rw [getLsbD_feed, hlast, htop, Bool.false_xor, Bool.and_true]

/-- One bit back: the bits that fell out are the same, and one bit less agrees. -/
theorem AgreeTop.of_feed (hk : k < w) (h : AgreeTop (k + 1) (feed poly c b) (feed poly c' b')) :
    (c.getLsbD 0 ^^ b) = (c'.getLsbD 0 ^^ b') ∧ AgreeTop k c c' := by
  have hout : (c.getLsbD 0 ^^ b) = (c'.getLsbD 0 ^^ b') := by
    rw [← msb_feed htop, ← msb_feed htop, BitVec.msb_eq_getLsbD_last, BitVec.msb_eq_getLsbD_last]
    exact h (w - 1) (by omega) (by omega)
  refine ⟨hout, fun i hi hik => ?_⟩
  obtain ⟨j, rfl⟩ : ∃ j, i = j + 1 := ⟨i - 1, by omega⟩
  have hj := h j (by omega) (by omega)
  rw [getLsbD_feed, getLsbD_feed, hout] at hj
  exact Bool.xor_left_inj.1 hj

/-- Many bits back. -/
theorem AgreeTop.of_feedBits (hlen : bs.length = bs'.length) (hk : k + bs.length ≤ w)
    (h : AgreeTop (k + bs.length) (feedBits poly c bs) (feedBits poly c' bs')) :
    AgreeTop k c c' := by
  induction bs generalizing bs' c c' k with
  | nil =>
    obtain rfl := List.eq_nil_of_length_eq_zero hlen.symm
    exact h
  | cons b bs ih =>
    obtain ⟨b', bs', rfl⟩ := List.exists_cons_of_length_eq_add_one hlen.symm
    rw [List.length_cons] at hk h
    have h' : AgreeTop (k + 1) (feed poly c b) (feed poly c' b') := by
      refine ih (Nat.succ.inj hlen) (by omega) ?_
      rwa [feedBits_cons, feedBits_cons, Nat.add_comm bs.length, ← Nat.add_assoc] at h
    exact (h'.of_feed htop (by omega)).2

/-- At most `w` bits fed into one register are told by as many top bits. -/
theorem feedBits_inj (hlen : bs.length = bs'.length) (hw : bs.length ≤ w)
    (h : AgreeTop bs.length (feedBits poly c bs) (feedBits poly c bs')) : bs = bs' := by
  induction bs generalizing bs' c with
  | nil => exact (List.eq_nil_of_length_eq_zero hlen.symm).symm
  | cons b bs ih =>
    obtain ⟨b', bs', rfl⟩ := List.exists_cons_of_length_eq_add_one hlen.symm
    have hlen' : bs.length = bs'.length := Nat.succ.inj hlen
    rw [List.length_cons] at hw h
    rw [feedBits_cons, feedBits_cons] at h
    have hfirst : AgreeTop 1 (feed poly c b) (feed poly c b') := by
      refine AgreeTop.of_feedBits htop hlen' (by omega) ?_
      rwa [Nat.add_comm] at h
    have hb : b = b' := Bool.xor_right_inj.1 (hfirst.of_feed htop (by omega)).1
    subst hb
    rw [ih hlen' (by omega) (h.mono (Nat.le_succ _))]

theorem feed_left_inj (hw : 0 < w) (h : feed poly c b = feed poly c' b) : c = c' := by
  obtain ⟨hout, hagree⟩ := AgreeTop.of_feed (k := w - 1) htop (by omega)
    (AgreeTop.mono (agreeTop_all.2 h) (by omega))
  refine BitVec.eq_of_getLsbD_eq fun i hi => ?_
  rcases Nat.eq_zero_or_pos i with rfl | hpos
  · exact Bool.xor_left_inj.1 hout
  · exact hagree i hi (by omega)

/-- A difference between registers stays. -/
theorem feedBits_left_inj (hw : 0 < w) (h : feedBits poly c bs = feedBits poly c' bs) : c = c' := by
  induction bs generalizing c c' with
  | nil => exact h
  | cons b bs ih => exact feed_left_inj htop hw (ih h)

end TopBit

end Lfsr
