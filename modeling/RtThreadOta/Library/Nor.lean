import Mathlib.Data.List.GetD
import Mathlib.Tactic.Basic

/-!
# Banks of NOR memory

A bank is a map from addresses to bytes, and `Mem ι` is one bank for each `d : ι`. Erasing a range
sets its bytes to `0xFF`; programming can only clear bits, so it stores the bitwise AND of the old
byte and the new one. The torn variants say what an interrupted or failed operation leaves: a program
of weaker data, a range whose bits rose only partly, or a range of arbitrary bytes.

`Below a b` is the bitwise order: programming moves a byte down in it and never below the AND.
-/

namespace Nor

variable {ι : Type}

/-- The contents of every bank. -/
abbrev Mem (ι : Type) := ι → ℕ → UInt8

/-- The `n` bytes at address `a` of bank `d`. -/
def read (m : Mem ι) (d : ι) (a n : ℕ) : List UInt8 := (List.range n).map fun i => m d (a + i)

/-! ## Reading -/

@[simp] theorem read_length (m : Mem ι) (d : ι) (a n : ℕ) : (read m d a n).length = n := by
  simp [read]

@[simp] theorem read_getElem (m : Mem ι) (d : ι) (a n i : ℕ) (h : i < (read m d a n).length) :
    (read m d a n)[i] = m d (a + i) := by
  simp [read]

@[simp] theorem read_zero (m : Mem ι) (d : ι) (a : ℕ) : read m d a 0 = [] := rfl

theorem read_getD (m : Mem ι) (d : ι) (a : ℕ) {n i : ℕ} (h : i < n) (x : UInt8) :
    (read m d a n).getD i x = m d (a + i) := by
  rw [List.getD_eq_getElem _ _ (by simpa using h), read_getElem]

/-- A read depends only on the bytes it covers. -/
theorem read_congr {m m' : Mem ι} {d : ι} {a n : ℕ} (h : ∀ i < n, m d (a + i) = m' d (a + i)) :
    read m d a n = read m' d a n :=
  List.map_congr_left fun i hi => h i (List.mem_range.1 hi)

theorem read_eq_iff {m m' : Mem ι} {d : ι} {a n : ℕ} :
    read m d a n = read m' d a n ↔ ∀ i < n, m d (a + i) = m' d (a + i) := by
  refine ⟨fun h i hi => ?_, read_congr⟩
  have := congrArg (fun l => l.getD i 0) h
  simpa only [read_getD _ _ _ hi] using this

/-- The bytes read are `bs` exactly when each of them is. -/
theorem read_eq_iff_getElem {m : Mem ι} {d : ι} {a : ℕ} {bs : List UInt8} :
    read m d a bs.length = bs ↔ ∀ (i : ℕ) (h : i < bs.length), m d (a + i) = bs[i] := by
  refine ⟨fun h i hi => ?_, fun h => List.ext_getElem (read_length ..) fun i _ hi => ?_⟩
  · rw [← read_getElem m d a bs.length i (by simpa using hi)]
    exact List.getElem_of_eq h _
  · rw [read_getElem]
    exact h i hi

/-- Two adjacent reads make one. -/
theorem read_add (m : Mem ι) (d : ι) (a n k : ℕ) :
    read m d a (n + k) = read m d a n ++ read m d (a + n) k := by
  simp only [read, List.range_add, List.map_append, List.map_map, Function.comp_def, Nat.add_assoc]

theorem read_take (m : Mem ι) (d : ι) (a : ℕ) {n k : ℕ} (h : k ≤ n) :
    (read m d a n).take k = read m d a k := by
  obtain ⟨j, rfl⟩ := Nat.exists_eq_add_of_le h
  rw [read_add, List.take_left' (read_length ..)]

theorem read_drop (m : Mem ι) (d : ι) (a : ℕ) {n k : ℕ} (h : k ≤ n) :
    (read m d a n).drop k = read m d (a + k) (n - k) := by
  obtain ⟨j, rfl⟩ := Nat.exists_eq_add_of_le h
  rw [read_add, List.drop_left' (read_length ..), Nat.add_sub_cancel_left]

/-! ## Programming and erasing -/

variable [DecidableEq ι]

/-- Address `i` of bank `e` lies in the `n` bytes at address `a` of bank `d`. -/
abbrev InRange (d : ι) (a n : ℕ) (e : ι) (i : ℕ) : Prop := e = d ∧ a ≤ i ∧ i < a + n

/-- Program the bytes `bs` at address `a`: bits can only be cleared. -/
def program (m : Mem ι) (d : ι) (a : ℕ) (bs : List UInt8) : Mem ι := fun e i =>
  if InRange d a bs.length e i then m e i &&& bs.getD (i - a) 0 else m e i

/-- Erase `n` bytes at address `a`. -/
def erase (m : Mem ι) (d : ι) (a n : ℕ) : Mem ι := fun e i =>
  if InRange d a n e i then 0xFF else m e i

/-- A program that stopped early: each byte is between its old value and the AND with the new one,
as `g` chooses. -/
def programTorn (m : Mem ι) (d : ι) (a : ℕ) (bs : List UInt8) (g : ℕ → UInt8) : Mem ι :=
  program m d a (bs.mapIdx fun i b => b ||| g i)

/-- An erase that gave up: each byte is between its old value and `0xFF`, as `g` chooses. -/
def eraseTorn (m : Mem ι) (d : ι) (a n : ℕ) (g : ℕ → UInt8) : Mem ι := fun e i =>
  if InRange d a n e i then m e i ||| g i else m e i

/-- An erase cut short: the range holds the arbitrary bytes `g`. -/
def eraseCut (m : Mem ι) (d : ι) (a n : ℕ) (g : ℕ → UInt8) : Mem ι := fun e i =>
  if InRange d a n e i then g i else m e i

theorem program_apply (m : Mem ι) (d : ι) (a : ℕ) (bs : List UInt8) {i : ℕ} (h : i < bs.length) :
    program m d a bs d (a + i) = m d (a + i) &&& bs[i] := by
  rw [program, if_pos ⟨rfl, by omega, by omega⟩, Nat.add_sub_cancel_left,
    List.getD_eq_getElem _ _ h]

theorem program_of_not_inRange {m : Mem ι} {d e : ι} {a i : ℕ} {bs : List UInt8}
    (h : ¬ InRange d a bs.length e i) : program m d a bs e i = m e i := if_neg h

@[simp] theorem program_nil (m : Mem ι) (d : ι) (a : ℕ) : program m d a [] = m := by
  funext e i
  exact program_of_not_inRange (by simp [InRange])

/-- Programming two adjacent ranges is programming their concatenation. -/
theorem program_append (m : Mem ι) (d : ι) (a : ℕ) (bs cs : List UInt8) :
    program m d a (bs ++ cs) = program (program m d a bs) d (a + bs.length) cs := by
  funext e i
  by_cases hc : InRange d (a + bs.length) cs.length e i
  · obtain ⟨rfl, hi, hi'⟩ := hc
    have hb : ¬ InRange e a bs.length e i := by rintro ⟨_, _, h⟩; omega
    rw [program, if_pos ⟨rfl, by omega, by rw [List.length_append]; omega⟩, program,
      if_pos ⟨rfl, hi, hi'⟩, program_of_not_inRange hb, List.getD_append_right _ _ _ _ (by omega)]
    congr 2
    omega
  · rw [program_of_not_inRange hc]
    by_cases hb : InRange d a bs.length e i
    · obtain ⟨rfl, hi, hi'⟩ := hb
      rw [program, if_pos ⟨rfl, hi, by rw [List.length_append]; omega⟩, program,
        if_pos ⟨rfl, hi, hi'⟩, List.getD_append _ _ _ _ (by omega)]
    · rw [program_of_not_inRange hb, program_of_not_inRange]
      rintro ⟨rfl, hi, hi'⟩
      rw [List.length_append] at hi'
      exact (Nat.lt_or_ge i (a + bs.length)).elim (fun h => hb ⟨rfl, hi, h⟩)
        fun h => hc ⟨rfl, h, by omega⟩

theorem erase_of_inRange {m : Mem ι} {d e : ι} {a n i : ℕ} (h : InRange d a n e i) :
    erase m d a n e i = 0xFF := if_pos h

theorem erase_of_not_inRange {m : Mem ι} {d e : ι} {a n i : ℕ} (h : ¬ InRange d a n e i) :
    erase m d a n e i = m e i := if_neg h

theorem eraseTorn_of_not_inRange {m : Mem ι} {d e : ι} {a n i : ℕ} {g : ℕ → UInt8}
    (h : ¬ InRange d a n e i) : eraseTorn m d a n g e i = m e i := if_neg h

theorem eraseCut_of_not_inRange {m : Mem ι} {d e : ι} {a n i : ℕ} {g : ℕ → UInt8}
    (h : ¬ InRange d a n e i) : eraseCut m d a n g e i = m e i := if_neg h

@[simp] theorem erase_zero (m : Mem ι) (d : ι) (a : ℕ) : erase m d a 0 = m := by
  funext e i
  exact erase_of_not_inRange (by rintro ⟨_, _, h⟩; omega)

@[simp] theorem eraseTorn_zero (m : Mem ι) (d : ι) (a : ℕ) (g : ℕ → UInt8) :
    eraseTorn m d a 0 g = m := by
  funext e i
  exact eraseTorn_of_not_inRange (by rintro ⟨_, _, h⟩; omega)

theorem programTorn_of_not_inRange {m : Mem ι} {d e : ι} {a i : ℕ} {bs : List UInt8}
    {g : ℕ → UInt8} (h : ¬ InRange d a bs.length e i) : programTorn m d a bs g e i = m e i :=
  program_of_not_inRange (by rwa [List.length_mapIdx])

theorem programTorn_apply (m : Mem ι) (d : ι) (a : ℕ) (bs : List UInt8) (g : ℕ → UInt8) {i : ℕ}
    (h : i < bs.length) :
    programTorn m d a bs g d (a + i) = m d (a + i) &&& (bs[i] ||| g i) := by
  rw [programTorn, program_apply _ _ _ _ (by simpa using h), List.getElem_mapIdx]

/-! ## The bitwise order -/

/-- Every bit set in `a` is set in `b`. -/
def Below (a b : UInt8) : Prop := a &&& b = a

theorem below_iff {a b : UInt8} : Below a b ↔ a &&& b = a := Iff.rfl

@[simp] theorem and_ff (a : UInt8) : a &&& 0xFF = a := by
  rw [← UInt8.toBitVec_inj]
  ext i hi
  simp only [UInt8.toBitVec_and, BitVec.getElem_and]
  have : (UInt8.toBitVec 0xFF)[i] = true := by
    have : UInt8.toBitVec 0xFF = BitVec.allOnes 8 := rfl
    rw [this, BitVec.getElem_allOnes]
  rw [this, Bool.and_true]

@[simp] theorem ff_and (a : UInt8) : 0xFF &&& a = a := by rw [UInt8.and_comm, and_ff]

theorem and_or_self (a g : UInt8) : a &&& (a ||| g) = a := by
  rw [← UInt8.toBitVec_inj]
  ext i hi
  simp only [UInt8.toBitVec_and, UInt8.toBitVec_or, BitVec.getElem_and, BitVec.getElem_or]
  cases a.toBitVec[i] <;> rfl

theorem Below.refl (a : UInt8) : Below a a := UInt8.and_self

theorem below_ff (a : UInt8) : Below a 0xFF := and_ff a

theorem Below.trans {a b c : UInt8} (hab : Below a b) (hbc : Below b c) : Below a c := by
  rw [below_iff] at *
  rw [← hab, UInt8.and_assoc, hbc]

theorem Below.antisymm {a b : UInt8} (hab : Below a b) (hba : Below b a) : a = b := by
  rw [below_iff] at *
  rw [← hab, UInt8.and_comm, hba]

theorem and_below_left (a b : UInt8) : Below (a &&& b) a := by
  rw [below_iff, UInt8.and_comm, ← UInt8.and_assoc, UInt8.and_self]

theorem and_below_right (a b : UInt8) : Below (a &&& b) b := by
  rw [below_iff, UInt8.and_assoc, UInt8.and_self]

theorem below_or (a g : UInt8) : Below a (a ||| g) := and_or_self a g

theorem Below.and {a b c : UInt8} (hb : Below a b) (hc : Below a c) : Below a (b &&& c) := by
  rw [below_iff] at *
  rw [← UInt8.and_assoc, hb, hc]

theorem Below.and_mono {a b c d : UInt8} (hab : Below a b) (hcd : Below c d) :
    Below (a &&& c) (b &&& d) :=
  ((and_below_left a c).trans hab).and ((and_below_right a c).trans hcd)

theorem zero_below (a : UInt8) : Below 0 a := by rw [below_iff, UInt8.zero_and]

theorem Below.eq_zero {a : UInt8} (h : Below a 0) : a = 0 := h.antisymm (zero_below a)

/-- Programming raises no bit. -/
theorem program_below (m : Mem ι) (d : ι) (a : ℕ) (bs : List UInt8) (e : ι) (i : ℕ) :
    Below (program m d a bs e i) (m e i) := by
  rw [program]
  split
  · exact and_below_left _ _
  · exact Below.refl _

/-! ## Programming over erased bytes -/

/-- Reading back a program gives the data exactly when no bit of it had to be raised. -/
theorem read_program_eq_iff {m : Mem ι} {d : ι} {a : ℕ} {bs : List UInt8} :
    read (program m d a bs) d a bs.length = bs ↔
      ∀ (i : ℕ) (h : i < bs.length), Below bs[i] (m d (a + i)) := by
  rw [read_eq_iff_getElem]
  refine forall_congr' fun i => forall_congr' fun h => ?_
  rw [program_apply m d a bs h, below_iff, UInt8.and_comm]

/-- Data programmed over erased bytes reads back. -/
theorem read_program_of_erased {m : Mem ι} {d : ι} {a : ℕ} {bs : List UInt8}
    (h : ∀ i < bs.length, m d (a + i) = 0xFF) :
    read (program m d a bs) d a bs.length = bs :=
  read_program_eq_iff.2 fun i hi => by rw [h i hi]; exact below_ff _

end Nor
