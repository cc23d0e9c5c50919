import ZeOS.Lib.Words

/-!
# Strings that end with a NUL

`CString f s` says that the bytes of `f` from the first one on spell `s`: the bytes of `s`, none of
them zero, and a zero behind them. A loop that looks for the terminator has the rule `scan_eq`.
-/
namespace ZeOS.Lib

structure CString (f : Nat → Byte) (s : List Byte) : Prop where
  text : ∀ j (h : j < s.length), f j = s[j]
  terminated : f s.length = 0#8
  noNul : 0#8 ∉ s

/-- The position of the first zero at or after `i`, for loops that give up after `fuel` tests. -/
def scan (f : Nat → Byte) : Nat → Nat → Option Nat
  | 0, _ => none
  | fuel + 1, i => if f i ≠ 0#8 then scan f fuel (i + 1) else some i

namespace CString

variable {f : Nat → Byte} {s t : List Byte}

theorem ne_zero (h : CString f s) {j : Nat} (hj : j < s.length) : f j ≠ 0#8 := by
  rw [h.text j hj]
  intro hz
  exact h.noNul (hz ▸ List.getElem_mem hj)

theorem length_le (h : CString f s) (h' : CString f t) : s.length ≤ t.length := by
  by_contra hlt
  exact h.ne_zero (Nat.lt_of_not_le hlt) h'.terminated

/-- A buffer spells one string. -/
theorem unique (h : CString f s) (h' : CString f t) : s = t := by
  have hlen : s.length = t.length := Nat.le_antisymm (h.length_le h') (h'.length_le h)
  refine List.ext_getElem hlen ?_
  intro j hj hj'
  rw [← h.text j hj, h'.text j hj']

theorem map_range (h : CString f s) : (List.range s.length).map f = s := by
  refine List.ext_getElem (by simp) ?_
  intro j hj hj'
  rw [List.getElem_map, List.getElem_range, h.text j hj']

theorem scan_eq (h : CString f s) {fuel i : Nat} (hi : i ≤ s.length) (hf : s.length - i < fuel) :
    scan f fuel i = some s.length := by
  induction fuel generalizing i with
  | zero => omega
  | succ fuel ih =>
    rw [scan]
    rcases Nat.lt_or_eq_of_le hi with hlt | rfl
    · rw [if_pos (h.ne_zero hlt)]
      exact ih (by omega) (by omega)
    · simp [h.terminated]

end CString

end ZeOS.Lib
