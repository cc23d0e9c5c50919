import Mathlib.Data.List.GetD
import ZeOS.Lib.Words

/-!
# Files

Reading a file is taking bytes from a list. A file that is written has a position as well: a write
goes there and moves it, over what is already there and past the end, and a gap left by a seek reads
as zeros. Two writes in a row are one; a write inside the file replaces as many bytes as it has.
-/
namespace ZeOS.Lib

/-- The byte at an offset of a file, zero past its end. -/
def byteAt (bs : List Byte) (i : Nat) : Byte := bs.getD i 0

section ByteAt

variable {as bs : List Byte} {i n : Nat}

theorem byteAt_append_left (h : i < as.length) : byteAt (as ++ bs) i = byteAt as i :=
  List.getD_append _ _ _ _ h

theorem byteAt_append_right (h : as.length ≤ i) :
    byteAt (as ++ bs) i = byteAt bs (i - as.length) := List.getD_append_right _ _ _ _ h

theorem byteAt_of_length_le (h : as.length ≤ i) : byteAt as i = 0 := List.getD_eq_default _ _ h

theorem byteAt_drop (bs : List Byte) (n i : Nat) : byteAt (bs.drop n) i = byteAt bs (n + i) := by
  simp [byteAt, List.getElem?_drop]

theorem byteAt_take (h : i < n) (bs : List Byte) : byteAt (bs.take n) i = byteAt bs i := by
  simp [byteAt, h]

theorem byteAt_zeros (n i : Nat) : byteAt (List.replicate n 0) i = 0 := by
  by_cases h : i < n
  · exact List.getD_replicate 0 h
  · exact byteAt_of_length_le (by simpa using h)

end ByteAt

structure OutFile where
  content : List Byte
  pos : Nat

namespace OutFile

/-- A file that has been written from its start. -/
def written (bs : List Byte) : OutFile := ⟨bs, bs.length⟩

def seek (f : OutFile) (pos : Nat) : OutFile := { f with pos }

/-- What lies before the position. -/
def before (f : OutFile) : List Byte :=
  f.content.take f.pos ++ List.replicate (f.pos - f.content.length) 0

def write (f : OutFile) (bs : List Byte) : OutFile where
  content := f.before ++ bs ++ f.content.drop (f.pos + bs.length)
  pos := f.pos + bs.length

variable {f : OutFile} {bs : List Byte}

@[simp] theorem length_before (f : OutFile) : f.before.length = f.pos := by
  simp only [before, List.length_append, List.length_take, List.length_replicate]
  omega

theorem before_of_le (h : f.pos ≤ f.content.length) : f.before = f.content.take f.pos := by
  simp [before, Nat.sub_eq_zero_of_le h]

theorem before_write (f : OutFile) (bs : List Byte) : (f.write bs).before = f.before ++ bs := by
  have hle : (f.write bs).pos ≤ (f.write bs).content.length := by
    simp only [write, List.length_append, length_before]
    omega
  rw [before_of_le hle]
  exact List.take_left' (by simp [write])

theorem write_write (f : OutFile) (as bs : List Byte) :
    (f.write as).write bs = f.write (as ++ bs) := by
  have hdrop : (f.write as).content.drop ((f.write as).pos + bs.length) =
      f.content.drop (f.pos + (as ++ bs).length) := by
    simp only [write]
    rw [← List.drop_drop, List.drop_left' (by simp), List.drop_drop, List.length_append,
      Nat.add_assoc]
  rw [write, hdrop, before_write, write]
  simp only [write, List.length_append, List.append_assoc, Nat.add_assoc]

theorem write_nil (h : f.pos ≤ f.content.length) : f.write [] = f := by
  simp [write, before_of_le h]

/-- Writing at the end appends. -/
theorem write_written (as bs : List Byte) : (written as).write bs = written (as ++ bs) := by
  simp [write, before, written]

/-- Writing inside the file replaces bytes. -/
theorem write_inside (pre mid post : List Byte) (hc : f.content = pre ++ mid ++ post)
    (hp : f.pos = pre.length) (hm : mid.length = bs.length) :
    f.write bs = ⟨pre ++ bs ++ post, pre.length + bs.length⟩ := by
  have hbefore : f.before = pre := by
    rw [before_of_le (by simp [hc, hp]), hc, hp, List.append_assoc, List.take_left]
  have hdrop : f.content.drop (f.pos + bs.length) = post := by
    rw [hc, hp]
    exact List.drop_left' (by simp [hm])
  rw [write, hbefore, hdrop, hp]

/-- A write changes the bytes under it and no others. -/
theorem byteAt_write (f : OutFile) (bs : List Byte) (i : Nat) :
    byteAt (f.write bs).content i =
      if f.pos ≤ i ∧ i < f.pos + bs.length then byteAt bs (i - f.pos)
      else byteAt f.content i := by
  rw [write]
  split
  · rename_i h
    rw [byteAt_append_left (by simp [h.2]), byteAt_append_right (by simp [h.1]), length_before]
  · rename_i h
    by_cases hi : i < f.pos
    · rw [byteAt_append_left (by simp; omega), byteAt_append_left (by simpa using hi), before]
      by_cases hl : i < f.content.length
      · rw [byteAt_append_left (by simp; omega), byteAt_take hi]
      · rw [byteAt_append_right (by simp; omega), byteAt_zeros, byteAt_of_length_le (by omega)]
    · rw [byteAt_append_right (by simp; omega), byteAt_drop]
      congr 1
      simp
      omega

end OutFile

end ZeOS.Lib
