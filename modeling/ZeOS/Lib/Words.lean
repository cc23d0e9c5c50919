import Mathlib.Data.BitVec
import Mathlib.Logic.Function.Basic
import Mathlib.Tactic.Ring

/-!
# Words in byte memory

A memory maps every 32-bit address to a byte; words are stored little-endian and may lie anywhere.
`Holds m a vs` says that the words `vs` are found from address `a` upwards. Pushing a word, popping
one and overwriting one in place are the three ways a stack changes, each with its rule for
`Holds`; `Within` names the bytes that a change may touch.
-/
namespace ZeOS

abbrev Byte := BitVec 8
abbrev Word := BitVec 32

namespace Lib

/-- `a` is one of the `n` bytes from `lo` upwards, counted round the address space. -/
def Within (lo : Word) (n : Nat) (a : Word) : Prop := (a - lo).toNat < n

def read32 (m : Word → Byte) (a : Word) : Word :=
  m (a + 3#32) ++ m (a + 2#32) ++ m (a + 1#32) ++ m a

def write32 (m : Word → Byte) (a v : Word) : Word → Byte :=
  fun b => if (b - a).toNat < 4 then v.extractLsb' (8 * (b - a).toNat) 8 else m b

section Words

variable {m m' : Word → Byte} {a b v : Word} {n : Nat}

/-- A word is made of its four bytes. -/
theorem append_bytes (v : Word) :
    v.extractLsb' 24 8 ++ v.extractLsb' 16 8 ++ v.extractLsb' 8 8 ++ v.extractLsb' 0 8 = v := by
  ext i hi
  simp only [BitVec.getElem_append, BitVec.getElem_extractLsb']
  rw [← BitVec.getLsbD_eq_getElem hi]
  split_ifs
  all_goals
    congr 1
    omega

theorem read32_write32 (m : Word → Byte) (a v : Word) : read32 (write32 m a v) a = v := by
  have h : ∀ c : Word, c.toNat < 4 →
      write32 m a v (a + c) = v.extractLsb' (8 * c.toNat) 8 := by
    intro c hc
    simp only [write32, add_sub_cancel_left, hc, if_true]
  have h0 := h 0#32 (by decide)
  rw [BitVec.add_zero] at h0
  rw [read32, h 3#32 (by decide), h 2#32 (by decide), h 1#32 (by decide), h0]
  exact append_bytes v

theorem read32_congr (h : ∀ b, Within a 4 b → m' b = m b) : read32 m' a = read32 m a := by
  have hc : ∀ c : Word, c.toNat < 4 → m' (a + c) = m (a + c) := by
    intro c hc
    apply h
    rwa [Within, add_sub_cancel_left]
  have h0 := hc 0#32 (by decide)
  rw [BitVec.add_zero] at h0
  simp only [read32, hc 3#32 (by decide), hc 2#32 (by decide), hc 1#32 (by decide), h0]

theorem read32_move (h : ∀ x < 4, m' (b + BitVec.ofNat 32 x) = m (a + BitVec.ofNat 32 x)) :
    read32 m' b = read32 m a := by
  have h0 := h 0 (by decide)
  simp only [BitVec.add_zero] at h0
  simp only [read32, h 3 (by decide), h 2 (by decide), h 1 (by decide), h0]

theorem extractLsb'_read32 (m : Word → Byte) (a : Word) {x : Nat} (hx : x < 4) :
    (read32 m a).extractLsb' (8 * x) 8 = m (a + BitVec.ofNat 32 x) := by
  have h0 : m (a + BitVec.ofNat 32 0) = m a := by rw [BitVec.add_zero]
  unfold read32
  obtain rfl | rfl | rfl | rfl : x = 0 ∨ x = 1 ∨ x = 2 ∨ x = 3 := by omega
  · rw [h0]
    exact BitVec.extractLsb'_append_eq_right
  · rw [BitVec.extractLsb'_append_eq_of_le (by decide)]
    exact BitVec.extractLsb'_append_eq_right
  · rw [BitVec.extractLsb'_append_eq_of_le (by decide),
      BitVec.extractLsb'_append_eq_of_le (by decide)]
    exact BitVec.extractLsb'_append_eq_right
  · rw [BitVec.extractLsb'_append_eq_of_le (by decide),
      BitVec.extractLsb'_append_eq_of_le (by decide)]
    exact BitVec.extractLsb'_append_eq_left

theorem write32_of_not_within (h : ¬ Within a 4 b) : write32 m a v b = m b := if_neg h

theorem read32_write32_add {d : Word} (h : 4 ≤ d.toNat) (h' : d.toNat + 4 ≤ 2 ^ 32) :
    read32 (write32 m a v) (a + d) = read32 m (a + d) := by
  refine read32_congr fun b hb => write32_of_not_within ?_
  unfold Within at *
  have heq : b - a = b - (a + d) + d := by ring
  rw [heq, BitVec.toNat_add]
  omega

theorem within_add (hn : n + 4 ≤ 2 ^ 32) (h : Within (a + 4#32) n b) : Within a (n + 4) b := by
  unfold Within at *
  have heq : b - a = b - (a + 4#32) + 4#32 := by ring
  rw [heq, BitVec.toNat_add]
  simp only [BitVec.toNat_ofNat]
  omega

theorem not_within_of_add (hn : n + 4 ≤ 2 ^ 32) (h : Within (a + 4#32) n b) : ¬ Within a 4 b := by
  unfold Within at *
  have heq : b - a = b - (a + 4#32) + 4#32 := by ring
  rw [heq, BitVec.toNat_add]
  simp only [BitVec.toNat_ofNat]
  omega

theorem not_within_add (hn : n + 4 ≤ 2 ^ 32) (h : Within a 4 b) : ¬ Within (a + 4#32) n b :=
  fun h' => not_within_of_add hn h' h

end Words

theorem add_four_mul_succ (a : Word) (i : Nat) :
    a + BitVec.ofNat 32 (4 * (i + 1)) = a + 4#32 + BitVec.ofNat 32 (4 * i) := by
  rw [Nat.mul_add, BitVec.ofNat_add]
  ring

/-- Memory with the first `n` words of `f` from address `a` upwards. -/
def wordsAt (a : Word) (n : Nat) (f : Nat → Word) (m : Word → Byte) : Word → Byte :=
  fun b => if (b - a).toNat < 4 * n then
    (f ((b - a).toNat / 4)).extractLsb' (8 * ((b - a).toNat % 4)) 8 else m b

theorem wordsAt_of_not_within {m : Word → Byte} {a b : Word} {n : Nat} {f : Nat → Word}
    (h : ¬ Within a (4 * n) b) : wordsAt a n f m b = m b := if_neg h

theorem read32_wordsAt (a : Word) {n : Nat} (f : Nat → Word) (m : Word → Byte) {i : Nat}
    (hi : i < n) (hn : 4 * n ≤ 2 ^ 32) :
    read32 (wordsAt a n f m) (a + BitVec.ofNat 32 (4 * i)) = f i := by
  have hbyte : ∀ x < 4, wordsAt a n f m (a + BitVec.ofNat 32 (4 * i) + BitVec.ofNat 32 x) =
      (f i).extractLsb' (8 * x) 8 := by
    intro x hx
    have hsub : a + BitVec.ofNat 32 (4 * i) + BitVec.ofNat 32 x - a =
        BitVec.ofNat 32 (4 * i + x) := by
      rw [BitVec.ofNat_add]
      ring
    have hnat : (BitVec.ofNat 32 (4 * i + x)).toNat = 4 * i + x := by
      rw [BitVec.toNat_ofNat]
      exact Nat.mod_eq_of_lt (by omega)
    have hdiv : (4 * i + x) / 4 = i := by omega
    have hmod : (4 * i + x) % 4 = x := by omega
    rw [wordsAt, hsub, hnat, if_pos (by omega), hdiv, hmod]
  have h0 := hbyte 0 (by decide)
  rw [BitVec.add_zero] at h0
  rw [read32, hbyte 3 (by decide), hbyte 2 (by decide), hbyte 1 (by decide), h0]
  exact append_bytes (f i)

/-- The words `vs` lie in memory from address `a` upwards. -/
def Holds (m : Word → Byte) : Word → List Word → Prop
  | _, [] => True
  | a, v :: vs => read32 m a = v ∧ Holds m (a + 4#32) vs

namespace Holds

variable {m m' : Word → Byte} {a v : Word} {vs : List Word}

theorem congr (h : Holds m a vs) (hn : 4 * vs.length ≤ 2 ^ 32)
    (hm : ∀ b, Within a (4 * vs.length) b → m' b = m b) : Holds m' a vs := by
  induction vs generalizing a with
  | nil => trivial
  | cons w ws ih =>
    rw [List.length_cons] at hn hm
    obtain ⟨hw, hws⟩ := h
    refine ⟨?_, ih hws (by omega) fun b hb => hm b ?_⟩
    · rw [← hw]
      refine read32_congr fun b hb => hm b ?_
      exact Nat.lt_of_lt_of_le hb (by omega)
    · have := within_add (by omega) hb
      exact this

/-- Words found again elsewhere, byte by byte. -/
theorem move {a' : Word} (h : Holds m a vs) (hm : ∀ x < 4 * vs.length,
    m' (a' + BitVec.ofNat 32 x) = m (a + BitVec.ofNat 32 x)) : Holds m' a' vs := by
  induction vs generalizing a a' with
  | nil => trivial
  | cons w ws ih =>
    rw [List.length_cons] at hm
    obtain ⟨hw, hws⟩ := h
    refine ⟨hw ▸ read32_move fun x hx => hm x (by omega), ih hws fun x hx => ?_⟩
    have hx' := hm (4 + x) (by omega)
    rwa [BitVec.ofNat_add, ← BitVec.add_assoc, ← BitVec.add_assoc] at hx'

/-- A word pushed below a stack. -/
theorem push (h : Holds m a vs) (hn : 4 * (vs.length + 1) ≤ 2 ^ 32) (v : Word) :
    Holds (write32 m (a - 4#32) v) (a - 4#32) (v :: vs) := by
  have hback : a - 4#32 + 4#32 = a := sub_add_cancel a 4#32
  refine ⟨read32_write32 _ _ _, ?_⟩
  rw [hback]
  refine h.congr (by omega) fun b hb => write32_of_not_within ?_
  refine not_within_of_add (n := 4 * vs.length) (by omega) ?_
  rwa [hback]

/-- A word of a stack overwritten in place. -/
theorem set (h : Holds m a vs) (hn : 4 * vs.length ≤ 2 ^ 32) {i : Nat} (hi : i < vs.length)
    (v : Word) : Holds (write32 m (a + BitVec.ofNat 32 (4 * i)) v) a (vs.set i v) := by
  induction vs generalizing a i with
  | nil => simp at hi
  | cons w ws ih =>
    rw [List.length_cons] at hn hi
    obtain ⟨hw, hws⟩ := h
    cases i with
    | zero =>
      refine ⟨by simpa using read32_write32 _ _ _, ?_⟩
      refine hws.congr (by omega) fun b hb => write32_of_not_within ?_
      simpa using not_within_of_add (by omega) hb
    | succ i =>
      rw [add_four_mul_succ]
      refine ⟨?_, ih hws (by omega) (by omega)⟩
      rw [← hw]
      refine read32_congr fun b hb => write32_of_not_within ?_
      -- the word at `a` lies below the one written
      intro hb'
      refine not_within_add (n := 4 * ws.length) (by omega) hb ?_
      unfold Within at *
      have heq : b - (a + 4#32) = b - (a + 4#32 + BitVec.ofNat 32 (4 * i)) +
          BitVec.ofNat 32 (4 * i) := by ring
      rw [heq, BitVec.toNat_add, BitVec.toNat_ofNat]
      omega

theorem get (h : Holds m a vs) {i : Nat} (hi : i < vs.length) :
    read32 m (a + BitVec.ofNat 32 (4 * i)) = vs[i] := by
  induction vs generalizing a i with
  | nil => simp at hi
  | cons w ws ih =>
    cases i with
    | zero => simpa using h.1
    | succ i =>
      rw [add_four_mul_succ]
      exact ih h.2 (by simpa using hi)

theorem of_get (h : ∀ i, ∀ hi : i < vs.length, read32 m (a + BitVec.ofNat 32 (4 * i)) = vs[i]) :
    Holds m a vs := by
  induction vs generalizing a with
  | nil => trivial
  | cons w ws ih =>
    have h0 := h 0 (Nat.zero_lt_succ _)
    rw [Nat.mul_zero, BitVec.add_zero] at h0
    refine ⟨h0, ih fun i hi => ?_⟩
    have hs := h (i + 1) (Nat.succ_lt_succ hi)
    rwa [add_four_mul_succ] at hs

theorem byte (h : Holds m a vs) {i : Nat} (hi : i / 4 < vs.length) :
    m (a + BitVec.ofNat 32 i) = vs[i / 4].extractLsb' (8 * (i % 4)) 8 := by
  have hsum : a + BitVec.ofNat 32 i =
      a + BitVec.ofNat 32 (4 * (i / 4)) + BitVec.ofNat 32 (i % 4) := by
    rw [BitVec.add_assoc, ← BitVec.ofNat_add, Nat.div_add_mod]
  rw [hsum, ← extractLsb'_read32 m _ (Nat.mod_lt i (by decide)), h.get hi]

theorem append {us : List Word} :
    Holds m a (us ++ vs) ↔ Holds m a us ∧ Holds m (a + BitVec.ofNat 32 (4 * us.length)) vs := by
  induction us generalizing a with
  | nil => simp [Holds]
  | cons u us ih =>
    simp only [List.cons_append, Holds, ih, List.length_cons, add_four_mul_succ, and_assoc]

end Holds

end Lib

end ZeOS
