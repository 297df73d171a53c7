import Mathlib.Data.List.GetD
import Mathlib.Tactic.Basic

/-!
# LZ77 tokens

A token appends symbols to what was decoded so far: literal ones, or a copy of earlier ones. The copy
is made symbol by symbol, so it may run into the symbols it has just made.

The text that is coded is a stream `f : ℕ → α`, of which `segment f p n` are the `n` symbols from
position `p` on. `Spells f ts p q` says that the tokens `ts` code the text from `p` to `q`, the copies
being of text that was really there. The coder keeps it token by token (`Leads.snoc`), and the decoder
of such tokens makes the text (`Token.Spells.apply`).
-/

namespace Lz77

variable {α : Type*} {f : ℕ → α}

/-! ## Segments of a stream -/

/-- The `n` symbols from position `p` on. -/
def segment (f : ℕ → α) (p n : ℕ) : List α := (List.range n).map fun k => f (p + k)

@[simp] theorem segment_length (f : ℕ → α) (p n : ℕ) : (segment f p n).length = n := by
  rw [segment, List.length_map, List.length_range]

@[simp] theorem segment_zero (f : ℕ → α) (p : ℕ) : segment f p 0 = [] := rfl

theorem segment_add (f : ℕ → α) (p m n : ℕ) :
    segment f p (m + n) = segment f p m ++ segment f (p + m) n := by
  simp only [segment, List.range_add, List.map_append, List.map_map, Function.comp_def,
    Nat.add_assoc]

theorem segment_succ (f : ℕ → α) (p n : ℕ) : segment f p (n + 1) = segment f p n ++ [f (p + n)] :=
  segment_add f p n 1

theorem segment_getElem? {p n k : ℕ} (h : k < n) : (segment f p n)[k]? = some (f (p + k)) := by
  rw [segment, List.getElem?_map, List.getElem?_range h]
  rfl

/-- Nothing but the symbols of the segment matters. -/
theorem segment_congr {g : ℕ → α} {p n : ℕ} (h : ∀ k < n, f (p + k) = g (p + k)) :
    segment f p n = segment g p n :=
  List.map_congr_left fun k hk => h k (List.mem_range.1 hk)

/-- Append `n` symbols, each the one `d` places before the end as it then is. -/
def copyBack (d : ℕ) : ℕ → List α → List α
  | 0, out => out
  | n + 1, out => copyBack d n (out ++ (out[out.length - d]?).toList)

/-- Copying text that repeats at a distance `d` goes on with the text. -/
theorem copyBack_segment {p d : ℕ} (hd : 0 < d) (hp : d ≤ p) (n : ℕ)
    (h : ∀ k < n, f (p + k) = f (p + k - d)) :
    copyBack d n (segment f 0 p) = segment f 0 (p + n) := by
  induction n generalizing p with
  | zero => rfl
  | succ n ih =>
    have hlast : (segment f 0 p)[(segment f 0 p).length - d]? = some (f p) := by
      rw [segment_length, segment_getElem? (by omega), Nat.zero_add]
      exact congrArg some (h 0 (Nat.succ_pos n)).symm
    have hsucc : segment f 0 p ++ [f p] = segment f 0 (p + 1) := by
      rw [segment_succ, Nat.zero_add]
    rw [copyBack, hlast, Option.toList_some, hsucc, ih (by omega)]
    · congr 1
      omega
    · intro k hk
      have hk' := h (k + 1) (by omega)
      rwa [show p + (k + 1) = p + 1 + k by omega] at hk'

/-- A copy at distance one repeats the last symbol. -/
theorem copyBack_one (x : α) (n : ℕ) (out : List α) :
    copyBack 1 n (out ++ [x]) = out ++ [x] ++ List.replicate n x := by
  induction n generalizing out with
  | zero => rw [copyBack, List.replicate_zero, List.append_nil]
  | succ n ih =>
    have hlast : (out ++ [x])[(out ++ [x]).length - 1]? = some x := by
      rw [List.length_append, List.length_singleton, Nat.add_sub_cancel,
        List.getElem?_append_right (Nat.le_refl _), Nat.sub_self]
      rfl
    rw [copyBack, hlast, Option.toList_some, ih, List.replicate_succ, List.append_assoc,
      List.append_assoc, List.append_assoc]
    rfl

/-- A copy from within the output has the length that was asked for. -/
theorem copyBack_length {d : ℕ} (hd : 0 < d) (n : ℕ) {out : List α} (h : d ≤ out.length) :
    (copyBack d n out).length = out.length + n := by
  induction n generalizing out with
  | zero => rfl
  | succ n ih =>
    have hlt : out.length - d < out.length := by omega
    have hlen : (out ++ (out[out.length - d]?).toList).length = out.length + 1 := by
      rw [List.getElem?_eq_getElem hlt, Option.toList_some, List.length_append,
        List.length_singleton]
    rw [copyBack, ih (by omega), hlen]
    omega

/-! ## Tokens -/

/-- Literal symbols, or a copy of `len` symbols at distance `dist`. -/
inductive Token (α : Type*) where
  | lit (symbols : List α)
  | copy (len dist : ℕ)

/-- What the decoder does with a token. -/
def Token.apply : Token α → List α → List α
  | lit symbols, out => out ++ symbols
  | copy len dist, out => copyBack dist len out

/-- The token codes the text from `p` to `q`. -/
def Token.Spells (f : ℕ → α) (p q : ℕ) : Token α → Prop
  | lit symbols => q = p + symbols.length ∧ symbols = segment f p symbols.length
  | copy len dist =>
    q = p + len ∧ 0 < dist ∧ dist ≤ p ∧ ∀ k < len, f (p + k) = f (p + k - dist)

/-- The tokens lead from `p` to `q`, each by a step of `R`. -/
def Leads (R : Token α → ℕ → ℕ → Prop) : List (Token α) → ℕ → ℕ → Prop
  | [], p, q => p = q
  | t :: ts, p, q => ∃ m, R t p m ∧ Leads R ts m q

/-- The tokens code the text from `p` to `q`. -/
def Spells (f : ℕ → α) : List (Token α) → ℕ → ℕ → Prop := Leads fun t p q => t.Spells f p q

section Leads

variable {R : Token α → ℕ → ℕ → Prop} {ts us : List (Token α)} {t : Token α} {p q r : ℕ}

/-- The way goes on where it stopped. -/
theorem Leads.append (hts : Leads R ts p q) (hus : Leads R us q r) : Leads R (ts ++ us) p r := by
  induction ts generalizing p with
  | nil =>
    rw [show p = q from hts]
    exact hus
  | cons t ts ih =>
    obtain ⟨m, ht, hts⟩ := hts
    exact ⟨m, ht, ih hts⟩

/-- A way whose steps go forward does. -/
theorem Leads.le (hR : ∀ t p q, R t p q → p ≤ q) (hts : Leads R ts p q) : p ≤ q := by
  induction ts generalizing p with
  | nil => exact Nat.le_of_eq hts
  | cons t ts ih =>
    obtain ⟨m, ht, hts⟩ := hts
    exact Nat.le_trans (hR t p m ht) (ih hts)

/-- One token more. -/
theorem Leads.snoc (hts : Leads R ts p q) (ht : R t q r) : Leads R (ts ++ [t]) p r :=
  hts.append ⟨r, ht, rfl⟩

end Leads

theorem Token.Spells.apply {t : Token α} {p q : ℕ} (h : t.Spells f p q) :
    t.apply (segment f 0 p) = segment f 0 q := by
  cases t with
  | lit symbols =>
    obtain ⟨rfl, hsym⟩ := h
    rw [Token.apply, segment_add, Nat.zero_add, ← hsym]
  | copy len dist =>
    obtain ⟨rfl, hd, hp, hsame⟩ := h
    exact copyBack_segment hd hp len hsame

theorem Token.Spells.le {t : Token α} {p q : ℕ} (h : t.Spells f p q) : p ≤ q := by
  cases t with
  | lit symbols =>
    obtain ⟨rfl, -⟩ := h
    exact Nat.le_add_right _ _
  | copy len dist =>
    obtain ⟨rfl, -⟩ := h
    exact Nat.le_add_right _ _

theorem Spells.le {ts : List (Token α)} {p q : ℕ} (h : Spells f ts p q) : p ≤ q :=
  Leads.le (fun _ _ _ ht => ht.le) h

/-- Text that is coded from its beginning begins with literal symbols. -/
theorem Spells.head {ts : List (Token α)} {q : ℕ} (h : Spells f ts 0 q) (hq : 0 < q) :
    ∃ symbols us, ts = .lit symbols :: us := by
  cases ts with
  | nil => exact absurd (show 0 = q from h) (Nat.ne_of_lt hq)
  | cons t us =>
    obtain ⟨m, ht, -⟩ := h
    cases t with
    | lit symbols => exact ⟨symbols, us, rfl⟩
    | copy len dist =>
      obtain ⟨-, hd, hp, -⟩ := ht
      omega

end Lz77
