import ZeOS.Kernel.State
import ZeOS.Lib.CString
import Mathlib.Data.Nat.Digits.Lemmas
import Mathlib.Order.Interval.Finset.Nat

/-!
# Numbers as text

`itoa` of `libc.c` writes the digits of a number from the least significant one, turns them round
and puts a NUL behind them. It is not told the size of the buffer, so the buffer here has no end
and keeps account of the bytes that have been written.

`numeralText` is the numeral of a number as a list of bytes; `numeral_spec` says that the buffer
then spells it.
-/
namespace ZeOS
open Lib

/-- A `char *` that is written to. -/
structure Buffer where
  byte : Nat → Byte
  written : Finset Nat

namespace Buffer

/-- `b[i] = c` -/
def store (i : Nat) (c : Byte) (b : Buffer) : Buffer where
  byte := Function.update b.byte i c
  written := insert i b.written

@[simp] theorem store_written (i : Nat) (c : Byte) (b : Buffer) :
    (b.store i c).written = insert i b.written := rfl
@[simp] theorem store_byte (i : Nat) (c : Byte) (b : Buffer) : (b.store i c).byte i = c :=
  Function.update_self ..
theorem store_byte_of_ne {i j : Nat} (h : j ≠ i) (c : Byte) (b : Buffer) :
    (b.store i c).byte j = b.byte j := Function.update_of_ne h _ _

/-- The first loop: the digits of `a` from position `i` on, and the position after them. -/
def digits (base : Nat) (hb : 1 < base) (digit : Int → Byte) (a : Int) (i : Nat) (b : Buffer) :
    Nat × Buffer :=
  if 0 < a then digits base hb digit (a / base) (i + 1) (b.store i (digit (a % base)))
  else (i, b)
termination_by a.toNat
decreasing_by
  have hlt : a / base < a := Int.ediv_lt_self_of_pos_of_ne_one (by assumption) (by omega)
  omega

/-- The second loop: the first `i` bytes in reverse order. -/
def reverse (i : Nat) (b : Buffer) : Buffer :=
  forRange (fun i1 b =>
    let c := b.byte i1
    (b.store i1 (b.byte (i - i1 - 1))).store (i - i1 - 1) c) (i / 2) b

/-- The digits of a positive number, nothing of a negative one, and the NUL. -/
def numeral (base : Nat) (hb : 1 < base) (digit : Int → Byte) (a : Int) (b : Buffer) : Buffer :=
  if a = 0 then (b.store 0 48).store 1 0
  else
    let (i, b) := b.digits base hb digit a 0
    (b.reverse i).store i 0

end Buffer

def itoa (a : Int) (b : Buffer) : Buffer :=
  b.numeral 10 (by decide) (fun d => BitVec.ofInt 8 (d + 48)) a

def strlen (fuel : Nat) (a : Nat → Byte) : Option Nat := scan a fuel 0

namespace Buffer

variable {base : Nat} {hb : 1 < base} {digit : Int → Byte}

/-- One turn of the first loop takes the last digit off. -/
theorem digits_toNat (hb : 1 < base) {a : Int} (ha : 0 < a) :
    Nat.digits base a.toNat = (a % base).toNat :: Nat.digits base (a / base).toNat := by
  lift a to Nat using ha.le
  norm_cast at ha ⊢
  exact Nat.digits_def' hb ha

theorem digits_spec (a : Int) (i : Nat) (b : Buffer) :
    (b.digits base hb digit a i).1 = i + (Nat.digits base a.toNat).length ∧
      (b.digits base hb digit a i).2.written =
        b.written ∪ Finset.Ico i (i + (Nat.digits base a.toNat).length) := by
  fun_induction digits base hb digit a i b with
  | case1 a i b ha ih =>
    obtain ⟨hpos, hwritten⟩ := ih
    rw [hpos, hwritten, digits_toNat hb ha, List.length_cons]
    refine ⟨by omega, ?_⟩
    ext j
    simp only [store_written, Finset.mem_union, Finset.mem_insert, Finset.mem_Ico]
    grind
  | case2 a i b ha =>
    have hzero : a.toNat = 0 := by omega
    simp [hzero]

theorem digits_byte (a : Int) (i : Nat) (b : Buffer) :
    (∀ j (hj : j < (Nat.digits base a.toNat).length),
      (b.digits base hb digit a i).2.byte (i + j) = digit (Nat.digits base a.toNat)[j]) ∧
    ∀ j, j < i ∨ i + (Nat.digits base a.toNat).length ≤ j →
      (b.digits base hb digit a i).2.byte j = b.byte j := by
  fun_induction digits base hb digit a i b with
  | case1 a i b ha ih =>
    obtain ⟨hdigit, hframe⟩ := ih
    have hmod : ((a % base).toNat : Int) = a % base :=
      Int.toNat_of_nonneg (Int.emod_nonneg _ (by omega))
    refine ⟨?_, ?_⟩
    · intro j hj
      simp only [digits_toNat hb ha] at hj ⊢
      cases j with
      | zero =>
        rw [show i + 0 = i from rfl, hframe i (by omega), List.getElem_cons_zero, hmod, store_byte]
      | succ j =>
        rw [show i + (j + 1) = i + 1 + j by omega, List.getElem_cons_succ]
        exact hdigit j (by simpa using hj)
    · intro j hj
      rw [digits_toNat hb ha, List.length_cons] at hj
      rw [hframe j (by omega), store_byte_of_ne (by omega)]
  | case2 a i b ha =>
    have hzero : a.toNat = 0 := by omega
    simp [hzero]

/-- Turning the bytes round writes no other byte. -/
theorem reverse_written {i : Nat} {b : Buffer} (h : Finset.range i ⊆ b.written) :
    (b.reverse i).written = b.written := by
  refine forRange_inv (fun _ (c : Buffer) => c.written = b.written) rfl ?_
  intro j c hj hc
  have hin : ∀ l < i, l ∈ c.written := fun l hl => hc ▸ h (Finset.mem_range.mpr hl)
  simp only [store_written]
  rw [Finset.insert_eq_self.mpr (hin j (by omega)), Finset.insert_eq_self.mpr (hin _ (by omega)),
    hc]

/-- After `k` turns the outer `k` bytes on either side have changed places. -/
theorem reverse_byte (i : Nat) (b : Buffer) (j : Nat) :
    (b.reverse i).byte j = if j < i then b.byte (i - j - 1) else b.byte j := by
  have hinv : ∀ j, (b.reverse i).byte j =
      if j < i / 2 ∨ i - i / 2 ≤ j ∧ j < i then b.byte (i - j - 1) else b.byte j := by
    refine forRange_inv (fun k (c : Buffer) => ∀ j, c.byte j =
      if j < k ∨ i - k ≤ j ∧ j < i then b.byte (i - j - 1) else b.byte j) ?_ ?_
    · intro j
      rw [if_neg (by omega)]
    · intro k c hk hc j
      simp only [store, Function.update_apply, hc]
      grind
  rw [hinv j]
  by_cases hmid : j < i / 2 ∨ i - i / 2 ≤ j ∧ j < i
  · rw [if_pos hmid, if_pos (by omega)]
  · rw [if_neg hmid]
    split_ifs with hj
    · rw [show i - j - 1 = j by omega]
    · rfl

/-- The numeral of `n`, its first digit first. -/
def numeralText (base : Nat) (digit : Int → Byte) (n : Nat) : List Byte :=
  if n = 0 then [digit 0] else ((Nat.digits base n).map fun d : Nat => digit d).reverse

theorem numeralText_length (hb : 1 < base) (n : Nat) :
    (numeralText base digit n).length = Nat.log base n + 1 := by
  by_cases hn : n = 0
  · simp [numeralText, hn]
  · rw [numeralText, if_neg hn, List.length_reverse, List.length_map,
      Nat.length_digits base n hb hn]

theorem mem_numeralText (hb : 1 < base) {n : Nat} {c : Byte} (h : c ∈ numeralText base digit n) :
    ∃ d : Nat, d < base ∧ c = digit d := by
  by_cases hn : n = 0
  · exact ⟨0, by omega, by simpa [numeralText, hn] using h⟩
  · rw [numeralText, if_neg hn, List.mem_reverse, List.mem_map] at h
    obtain ⟨d, hd, rfl⟩ := h
    exact ⟨d, Nat.digits_lt_base hb hd, rfl⟩

/-- A numeral has no leading zero. -/
theorem numeralText_head (hb : 1 < base) {n : Nat} (hn : n ≠ 0) :
    ∃ d : Nat, 0 < d ∧ d < base ∧ (numeralText base digit n).head? = some (digit d) := by
  have hne : Nat.digits base n ≠ [] := Nat.digits_ne_nil_iff_ne_zero.mpr hn
  refine ⟨(Nat.digits base n).getLast hne, Nat.pos_of_ne_zero (Nat.getLast_digit_ne_zero base hn),
    Nat.digits_lt_base hb (List.getLast_mem hne), ?_⟩
  rw [numeralText, if_neg hn, List.head?_reverse, List.getLast?_map,
    List.getLast?_eq_getLast_of_ne_nil hne]
  rfl

/-- What a string of digits is worth, `val` being the worth of a digit. -/
def valueOf (base : Nat) (val : Byte → Nat) (s : List Byte) : Nat :=
  s.foldl (fun v c => base * v + val c) 0

theorem valueOf_numeralText {val : Byte → Nat} (hb : 1 < base)
    (hval : ∀ d : Nat, d < base → val (digit d) = d) (n : Nat) :
    valueOf base val (numeralText base digit n) = n := by
  -- Read from its end, the string is folded as `Nat.ofDigits` folds the digits.
  have hfold : ∀ ds : List Nat, (∀ d ∈ ds, d < base) →
      (ds.map fun d : Nat => digit d).foldr (fun c v => base * v + val c) 0 =
        Nat.ofDigits base ds := by
    intro ds hds
    induction ds with
    | nil => rfl
    | cons d ds ih =>
      rw [List.map_cons, List.foldr_cons, ih fun e he => hds e (List.mem_cons_of_mem _ he),
        hval d (hds d List.mem_cons_self), Nat.ofDigits_cons, Nat.add_comm]
  by_cases hn : n = 0
  · subst hn
    have hzero := hval 0 (by omega)
    simpa [numeralText, valueOf] using hzero
  · rw [numeralText, if_neg hn, valueOf, List.foldl_reverse,
      hfold _ fun d hd => Nat.digits_lt_base hb hd, Nat.ofDigits_digits]

/-- A byte of the buffer of a positive number, before the terminator is set. -/
theorem reverse_digits_byte {a : Int} (ha : 0 < a) (b : Buffer) {j : Nat}
    (hj : j < (numeralText base digit a.toNat).length) :
    ((b.digits base hb digit a 0).2.reverse (Nat.digits base a.toNat).length).byte j =
      (numeralText base digit a.toNat)[j] := by
  have hne : a.toNat ≠ 0 := by omega
  simp only [numeralText, if_neg hne, List.length_reverse, List.length_map] at hj ⊢
  have hdigit := (@digits_byte base hb digit a 0 b).1 ((Nat.digits base a.toNat).length - 1 - j)
    (by omega)
  rw [Nat.zero_add] at hdigit
  rw [reverse_byte, if_pos hj, Nat.sub_right_comm, hdigit]
  simp

theorem numeral_spec (h0 : digit 0 = 48#8) (hd : ∀ d : Nat, d < base → digit d ≠ 0#8) {a : Int}
    (ha : 0 ≤ a) (b : Buffer) :
    CString (b.numeral base hb digit a).byte (numeralText base digit a.toNat) ∧
      ∀ j, (numeralText base digit a.toNat).length < j →
        (b.numeral base hb digit a).byte j = b.byte j := by
  have hnul : 0#8 ∉ numeralText base digit a.toNat := by
    intro hmem
    obtain ⟨d, hlt, heq⟩ := mem_numeralText hb hmem
    exact hd d hlt heq.symm
  rcases ha.eq_or_lt with rfl | hpos
  · have htext : numeralText base digit (0 : Int).toNat = [48#8] := by simp [numeralText, h0]
    rw [htext] at hnul ⊢
    refine ⟨⟨?_, rfl, hnul⟩, ?_⟩
    · intro j hj
      obtain rfl : j = 0 := by simpa using hj
      rfl
    · intro j hj
      rw [List.length_singleton] at hj
      exact (store_byte_of_ne (by omega) _ _).trans (store_byte_of_ne (by omega) _ _)
  · have hlen : (numeralText base digit a.toNat).length = (Nat.digits base a.toNat).length := by
      rw [numeralText, if_neg (by omega), List.length_reverse, List.length_map]
    have hnum : b.numeral base hb digit a =
        ((b.digits base hb digit a 0).2.reverse (Nat.digits base a.toNat).length).store
          (Nat.digits base a.toNat).length 0#8 := by
      rw [numeral, if_neg hpos.ne']
      simp only [(@digits_spec base hb digit a 0 b).1, Nat.zero_add]
      rfl
    rw [hnum]
    refine ⟨⟨?_, ?_, hnul⟩, ?_⟩
    · intro j hj
      rw [store_byte_of_ne (by omega), reverse_digits_byte hpos b hj]
    · rw [hlen, store_byte]
    · intro j hj
      rw [store_byte_of_ne (by omega), reverse_byte, if_neg (by omega)]
      exact (@digits_byte base hb digit a 0 b).2 j (by omega)

/-- Of a negative number only the terminator is left. -/
theorem numeral_of_neg {a : Int} (ha : a < 0) (b : Buffer) :
    CString (b.numeral base hb digit a).byte [] := by
  refine ⟨fun j hj => absurd hj (Nat.not_lt_zero j), ?_, List.not_mem_nil⟩
  rw [numeral, if_neg ha.ne, digits, if_neg (not_lt.mpr ha.le)]
  exact store_byte ..

theorem numeral_written {a : Int} (ha : a ≠ 0) (c : Nat → Byte) :
    (numeral base hb digit a ⟨c, ∅⟩).written =
      Finset.range ((Nat.digits base a.toNat).length + 1) := by
  obtain ⟨hpos, hwritten⟩ := @digits_spec base hb digit a 0 ⟨c, ∅⟩
  rw [Nat.zero_add] at hpos hwritten
  rw [Finset.empty_union, ← Finset.range_eq_Ico] at hwritten
  rw [numeral, if_neg ha]
  simp only [store_written, hpos]
  rw [reverse_written hwritten.ge, hwritten, Finset.range_add_one]

/-- The bytes written are the numeral and its terminator. -/
theorem numeral_written_text {a : Int} (ha : 0 ≤ a) (c : Nat → Byte) :
    (numeral base hb digit a ⟨c, ∅⟩).written =
      Finset.range ((numeralText base digit a.toNat).length + 1) := by
  rcases ha.eq_or_lt with rfl | hpos
  · have hlen : (numeralText base digit (0 : Int).toNat).length = 1 := by simp [numeralText]
    have hset : insert 1 (insert 0 ∅) = Finset.range 2 := by decide
    rw [hlen, numeral, if_pos rfl]
    exact hset
  · rw [numeral_written hpos.ne', numeralText, if_neg (by omega), List.length_reverse,
      List.length_map]

end Buffer

/-- What a digit `'0'`, …, `'9'` is worth. -/
def decimalDigit (c : Byte) : Nat := c.toNat - 48

/-- The decimal numeral of `n`. -/
def decimalText (n : Nat) : List Byte := Buffer.numeralText 10 (fun d => BitVec.ofInt 8 (d + 48)) n

theorem itoa_digit {d : Nat} (hd : d < 10) : (BitVec.ofInt 8 ((d : Int) + 48)).toNat = d + 48 := by
  interval_cases d <;> rfl

theorem itoa_spec {a : Int} (ha : 0 ≤ a) (b : Buffer) :
    CString (itoa a b).byte (decimalText a.toNat) ∧
      ∀ j, (decimalText a.toNat).length < j → (itoa a b).byte j = b.byte j := by
  refine Buffer.numeral_spec rfl ?_ ha b
  intro d hd hz
  have hdigit := itoa_digit hd
  rw [hz] at hdigit
  simp at hdigit

/-- For every `int` that is not negative, `itoa` leaves its decimal numeral in the buffer: digits
worth the number, without a leading zero, and the terminator. No byte behind it is written. -/
theorem itoa_numeral (a : Int) (ha : 0 ≤ a) (hlt : a < 2 ^ 31) (c : Nat → Byte) :
    ∃ s : List Byte, CString (itoa a ⟨c, ∅⟩).byte s ∧
      (∀ d ∈ s, 48#8 ≤ d ∧ d ≤ 57#8) ∧ (Buffer.valueOf 10 decimalDigit s : Int) = a ∧
      (s.head? = some 48#8 → a = 0) ∧
      s.length = Nat.log 10 a.toNat + 1 ∧ s.length ≤ 10 ∧
      (∀ fuel, s.length < fuel → strlen fuel (itoa a ⟨c, ∅⟩).byte = some s.length) ∧
      (itoa a ⟨c, ∅⟩).written = Finset.range (s.length + 1) ∧
      ∀ j, s.length < j → (itoa a ⟨c, ∅⟩).byte j = c j := by
  obtain ⟨hstring, hframe⟩ := itoa_spec ha ⟨c, ∅⟩
  have hlen : (decimalText a.toNat).length = Nat.log 10 a.toNat + 1 :=
    Buffer.numeralText_length (by decide) _
  refine ⟨_, hstring, ?_, ?_, ?_, hlen, ?_, ?_, Buffer.numeral_written_text ha c, hframe⟩
  · intro d hd
    obtain ⟨e, he, rfl⟩ := Buffer.mem_numeralText (by decide) hd
    rw [BitVec.le_def, BitVec.le_def, itoa_digit he]
    exact ⟨Nat.le_add_left 48 e, Nat.add_le_add_right (Nat.le_of_lt_succ he) 48⟩
  · have hval : ∀ d : Nat, d < 10 → decimalDigit (BitVec.ofInt 8 ((d : Int) + 48)) = d := by
      intro d hd
      rw [decimalDigit, itoa_digit hd, Nat.add_sub_cancel]
    rw [decimalText, Buffer.valueOf_numeralText (by decide) hval, Int.toNat_of_nonneg ha]
  · intro hhead
    by_contra hne
    obtain ⟨d, hpos, hd, heq⟩ : ∃ d : Nat, 0 < d ∧ d < 10 ∧
        (decimalText a.toNat).head? = some (BitVec.ofInt 8 ((d : Int) + 48)) :=
      Buffer.numeralText_head (by decide) (by omega)
    rw [heq, Option.some.injEq] at hhead
    have hdigit := itoa_digit hd
    rw [hhead] at hdigit
    have : d + 48 = 48 := hdigit.symm
    omega
  · rw [hlen]
    have hlog : Nat.log 10 a.toNat ≤ Nat.log 10 (2 ^ 31) := Nat.log_mono_right (by omega)
    exact Nat.succ_le_succ (hlog.trans (by decide))
  · intro fuel hf
    exact hstring.scan_eq (Nat.zero_le _) (by omega)

theorem itoa_numeral_of_1024 : ∃ s : List Byte, CString (itoa 1024 ⟨fun _ => 7#8, ∅⟩).byte s ∧
    (Buffer.valueOf 10 decimalDigit s : Int) = 1024 ∧ s.length = 4 := by
  obtain ⟨s, hs, -, hval, -, hlen, -⟩ :=
    itoa_numeral 1024 (by decide) (by decide) fun _ => 7#8
  exact ⟨s, hs, hval, hlen.trans (by decide)⟩

/-- The buffer that `itoa` needs: two bytes for zero, one for a negative number. -/
theorem itoa_card_le_iff (a : Int) (c : Nat → Byte) (n : Nat) :
    (itoa a ⟨c, ∅⟩).written.card ≤ n + 2 ↔ a < 10 ^ (n + 1) := by
  by_cases ha : a = 0
  · subst ha
    have hcard : (itoa 0 ⟨c, ∅⟩).written.card = 2 := rfl
    rw [hcard]
    exact iff_of_true (by omega) (by positivity)
  · rw [itoa, Buffer.numeral_written ha, Finset.card_range]
    have hlen := Nat.digits_length_le_iff (k := n + 1) (by decide : 1 < 10) a.toNat
    have hpow : (0 : Int) < 10 ^ (n + 1) := by positivity
    have hcast : a.toNat < 10 ^ (n + 1) ↔ a < 10 ^ (n + 1) := by
      rw [← Int.ofNat_lt]
      push_cast
      omega
    rw [← hcast, ← hlen]
    omega

end ZeOS
