import ZeOS.Lib.X86

/-!
# The tick counter

`get_ticks` divides the 64-bit time stamp by the cycles of a tick. The processor divides 64 bits by
32 only where the quotient fits 32 bits, so `do_div` divides the high half first and passes its
remainder on, as in long division.
-/
namespace ZeOS
open Lib

/-- `rdtsc`: the low half of the time stamp goes to `eax`, the high half to `edx`. -/
def rdtsc (tsc : BitVec 64) : Word × Word := (tsc.extractLsb' 0 32, tsc.extractLsb' 32 32)

/-- The high half that `do_div` hands to `divl`. -/
def doDivUpper (high base : Word) : Word := if high ≠ 0#32 then high % base else high

/-- The macro `do_div`: the remainder, and what it leaves in `n`. -/
def doDiv (n : BitVec 64) (base : Word) : Option (Word × BitVec 64) :=
  let low : Word := n.extractLsb' 0 32
  let high : Word := n.extractLsb' 32 32
  let upper := doDivUpper high base
  let high := if high ≠ 0#32 then high / base else high
  do
    let (low, mod) ← X86.divl upper low base
    some (mod, high ++ low)

def CYCLESPERTICK : Word := 109000#32

/-- `get_ticks` at time stamp `tsc`, if no division faults. -/
def getTicks (tsc : BitVec 64) : Option Word :=
  let (eax, edx) := rdtsc tsc
  let ticks := (edx.setWidth 64 <<< 32) + eax.setWidth 64
  do
    let (_, ticks) ← doDiv ticks CYCLESPERTICK
    some (ticks.setWidth 32)

/-- The test of the high half only saves a division: it changes no value. -/
theorem doDivUpper_eq (high base : Word) : doDivUpper high base = high % base := by
  by_cases h : high = 0#32
  · simp [doDivUpper, h]
  · simp [doDivUpper, h]

theorem doDivHigh_eq (high base : Word) :
    (if high ≠ 0#32 then high / base else high) = high / base := by
  by_cases h : high = 0#32
  · simp [h]
  · simp [h]

theorem doDivUpper_lt {base : Word} (h : 0#32 < base) (high : Word) :
    doDivUpper high base < base := by
  rw [doDivUpper_eq]
  exact BitVec.umod_lt high h

/-- The two halves of a double word, as `do_div` and `rdtsc` take them. -/
theorem append_extract (n : BitVec 64) :
    (n.extractLsb' 32 32 : Word) ++ (n.extractLsb' 0 32 : Word) = n :=
  @BitVec.extractLsb'_append_extractLsb' 32 32 n

theorem doDiv_spec (n : BitVec 64) {base : Word} (h : 0#32 < base) :
    ∃ r n', doDiv n base = some (r, n') ∧ n'.toNat = n.toNat / base.toNat ∧
      r.toNat = n.toNat % base.toNat := by
  have hd : 0 < base.toNat := by simpa [BitVec.lt_def] using h
  obtain ⟨q, r, hdivl, hq, hr⟩ :=
    X86.divl_of_lt (n.extractLsb' 0 32) (doDivUpper_lt h (n.extractLsb' 32 32))
  have hn : n.toNat = (n.extractLsb' 32 32 : Word).toNat * 2 ^ 32 +
      (n.extractLsb' 0 32 : Word).toNat := by
    rw [← X86.toNat_pair, append_extract]
  have hlong := X86.long_division (h := (n.extractLsb' 32 32 : Word).toNat)
    (l := (n.extractLsb' 0 32 : Word).toNat) (B := 2 ^ 32) hd
  rw [X86.toNat_pair, doDivUpper_eq, BitVec.toNat_umod] at hq hr
  refine ⟨r, (n.extractLsb' 32 32 / base : Word) ++ q, ?_, ?_, ?_⟩
  · simp only [doDiv, hdivl, doDivHigh_eq]
    rfl
  · rw [X86.toNat_pair, BitVec.toNat_udiv, hq, hn, hlong.1]
  · rw [hr, hn, hlong.2]

/-- The sum in `get_ticks` puts the time stamp together again. -/
theorem shiftLeft_add_eq (edx eax : Word) :
    (edx.setWidth 64 <<< 32) + eax.setWidth 64 = edx ++ eax := by
  apply BitVec.eq_of_toNat_eq
  have hhigh := edx.isLt
  have hlow := eax.isLt
  rw [X86.toNat_pair, BitVec.toNat_add, BitVec.toNat_shiftLeft, BitVec.toNat_setWidth,
    BitVec.toNat_setWidth, Nat.shiftLeft_eq]
  omega

/-- `do_div` is exact division: the high half it hands to `divl` is below the divisor, so the
division does not fault, and the tick counter is the number of whole ticks, in 32 bits. -/
theorem doDiv_exact :
    (∀ (n : BitVec 64) (base : Word), 0#32 < base →
      doDivUpper (n.extractLsb' 32 32) base < base ∧
        ∃ r n', doDiv n base = some (r, n') ∧ n'.toNat = n.toNat / base.toNat ∧
          r.toNat = n.toNat % base.toNat) ∧
    ∀ tsc : BitVec 64, ∃ t, getTicks tsc = some t ∧ t.toNat = tsc.toNat / 109000 % 2 ^ 32 := by
  refine ⟨?_, ?_⟩
  · intro n base h
    exact ⟨doDivUpper_lt h _, doDiv_spec n h⟩
  · intro tsc
    obtain ⟨r, n', hdiv, hquot, -⟩ := @doDiv_spec tsc CYCLESPERTICK (by decide)
    refine ⟨n'.setWidth 32, ?_, ?_⟩
    · simp only [getTicks, rdtsc, shiftLeft_add_eq, append_extract, hdiv]
      rfl
    · rw [BitVec.toNat_setWidth, hquot]
      rfl

/-- A dividend with both halves in use: `2 ^ 32 + 5` by three. -/
theorem doDiv_exact_three :
    ∃ r n', doDiv 0x100000005#64 3#32 = some (r, n') ∧ n'.toNat = 1431655767 ∧ r.toNat = 0 :=
  (doDiv_exact.1 0x100000005#64 3#32 (by decide)).2

end ZeOS
