import ZeOS.Kernel.Console
import ZeOS.Machine.TaskUnion
import ZeOS.Memory.Access

/-!
# `sys_write`

The call copies the caller's block to an array on the kernel stack and prints the array. The array
has the length that the caller asks for and is there before anything has been checked; its address
is a parameter here, and `System.WriteStack` says where it is.
-/
namespace ZeOS
open Lib

abbrev ESCRIPTURA : Int := 1

def checkFd (fd permissions : Int) : Int :=
  if fd ≠ 1 then -9 -- EBADF
  else if permissions ≠ ESCRIPTURA then -13 -- EACCES
  else 0

section Code

variable {S : Type} (M : ByteMemory S)

/-- `sys_write(fd, buffer, size)` with its array at `buff`. -/
def sysWrite (buff fd buffer size : Word) (s : Console S) : Option (Int × Console S) := do
  let valor := checkFd fd.toInt ESCRIPTURA
  if valor ≠ 0 then return (valor, s)
  if size.toInt ≤ 0 ∨ buffer = 0 then return (-22, s) -- EINVAL
  if accessOk VERIFY_READ buffer size = 0 then return (-13, s) -- EFAULT
  let (_, mem) ← copyFromUser M buffer buff size.toInt s.mem
  sysWriteConsole M buff size.toInt { s with mem }

end Code

/-- The call gets to the copy. -/
def WriteAccepted (fd buffer size : Word) : Prop :=
  fd.toInt = 1 ∧ 0 < size.toInt ∧ buffer ≠ 0 ∧ accessOk VERIFY_READ buffer size ≠ 0

instance (fd buffer size : Word) : Decidable (WriteAccepted fd buffer size) :=
  inferInstanceAs (Decidable (_ ∧ _))

/-- A positive `int` as the number of bytes that it is. -/
theorem toNat_of_toInt_pos {size : Word} (h : 0 < size.toInt) :
    size.toInt.toNat = size.toNat ∧ size.toNat < 2 ^ 31 := by
  have hcond := BitVec.toInt_eq_toNat_cond size
  have hlt := size.isLt
  split at hcond <;> omega

section Spec

variable {S : Type} {M : ByteMemory S} {R : S → (Word → Byte) → Prop} {A B : Word → Prop}
  {s : Console S} {m : Word → Byte} {d : Display} {buff fd buffer size : Word}

/-- A call that is not accepted returns a negative number and does nothing. -/
theorem sysWrite_rejected (h : ¬ WriteAccepted fd buffer size) :
    ∃ r, sysWrite M buff fd buffer size s = some (r, s) ∧ r < 0 := by
  by_cases hfd : fd.toInt = 1
  · have hcheck : checkFd fd.toInt ESCRIPTURA = 0 := by simp [checkFd, hfd]
    by_cases harg : size.toInt ≤ 0 ∨ buffer = 0
    · refine ⟨-22, ?_, by decide⟩
      simp only [sysWrite, hcheck, if_pos harg]
      rfl
    · have hblock : accessOk VERIFY_READ buffer size = 0 := by
        by_contra hok
        push Not at harg
        exact h ⟨hfd, harg.1, harg.2, hok⟩
      refine ⟨-13, ?_, by decide⟩
      simp only [sysWrite, hcheck, if_neg harg, hblock]
      rfl
  · have hcheck : checkFd fd.toInt ESCRIPTURA = -9 := by simp [checkFd, hfd]
    exact ⟨-9, by simp [sysWrite, hcheck], by decide⟩

/-- After the copy the array holds the bytes of the block. -/
theorem blockBytes_copied (m : Word → Byte) (buffer buff : Word) {n : Nat} (hn : n ≤ 2 ^ 32) :
    blockBytes (copied buffer buff n m) buff n = blockBytes m buffer n := by
  unfold blockBytes
  refine List.map_congr_left fun i hi => ?_
  have hi := List.mem_range.mp hi
  have hlt : (BitVec.ofNat 32 i).toNat < n := by
    rw [BitVec.toNat_ofNat]
    omega
  rw [copied, add_sub_cancel_left, if_pos hlt]

/-- An array off the screen leaves the display alone. -/
theorem Shows.copied (h : Shows s m d) (buffer : Word) {n : Nat}
    (hout : ∀ a, OnScreen a → ¬ Within buff n a) :
    Shows s (copied buffer buff n m) d := by
  refine ⟨h.x, h.y, ?_⟩
  intro i
  have hlow : OnScreen (screen + BitVec.ofNat 32 (2 * i)) :=
    onScreen_cell (b := 0) i.isLt (by omega)
  have hhigh : OnScreen (screen + BitVec.ofNat 32 (2 * i + 1)) := onScreen_cell i.isLt (by omega)
  rw [← h.cell i, cellAt, cellAt, copied_outside m (hout _ hlow), copied_outside m (hout _ hhigh)]

/-- An accepted call prints the block, and changes the array and the screen only. -/
theorem sysWrite_accepted (hV : View M R A B) (hB : ∀ a, OnScreen a → B a) (hR : R s.mem m)
    (h : Shows s m d) (hok : WriteAccepted fd buffer size)
    (hblock : ∀ i, i < size.toNat → A (buffer + BitVec.ofNat 32 i))
    (hread : ∀ i, i < size.toNat → A (buff + BitVec.ofNat 32 i))
    (hwrite : ∀ i, i < size.toNat → B (buff + BitVec.ofNat 32 i))
    (hout : ∀ a, OnScreen a → ¬ Within buff size.toNat a)
    (hc : NoClobber buffer buff size.toNat) :
    ∃ s' m', sysWrite M buff fd buffer size s = some (size.toInt, s') ∧ R s'.mem m' ∧
      Shows s' m' ((blockBytes m buffer size.toNat).foldl Display.put d) ∧
      s'.port = s.port ++ blockBytes m buffer size.toNat ∧
      ∀ a, ¬ OnScreen a → ¬ Within buff size.toNat a → m' a = m a := by
  obtain ⟨hfd, hpos, hnull, hblk⟩ := hok
  have hn := (toNat_of_toInt_pos hpos).1
  have hlt : size.toNat ≤ 2 ^ 32 := size.isLt.le
  obtain ⟨mem, hcopy, hR₁⟩ : ∃ mem, copyData M buffer buff size.toInt s.mem = some mem ∧
      R mem (copied buffer buff size.toInt.toNat m) :=
    copyData_spec hV hR (by rwa [hn]) (by rwa [hn]) (by rwa [hn]) (by rwa [hn])
  rw [hn] at hR₁
  have hshows : Shows { s with mem } (copied buffer buff size.toNat m) d :=
    (⟨h.x, h.y, h.cell⟩ : Shows { s with mem } m d).copied buffer hout
  have hoff : ∀ i, i < size.toNat → ¬ OnScreen (buff + BitVec.ofNat 32 i) := by
    intro i hi hon
    refine hout _ hon ?_
    rw [Within, add_sub_cancel_left, BitVec.toNat_ofNat]
    omega
  have hread' : ∀ i, i < size.toInt.toNat → A (buff + BitVec.ofNat 32 i) := by rwa [hn]
  obtain ⟨s', m', hcons, hR', hshows', hport, hframe⟩ :=
    sysWriteConsole_spec hV hB hR₁ hshows hread'
    (by rwa [hn])
  rw [hn, blockBytes_copied m buffer buff hlt] at hshows' hport
  refine ⟨s', m', ?_, hR', hshows', hport, ?_⟩
  · have hcheck : checkFd fd.toInt ESCRIPTURA = 0 := by simp [checkFd, hfd]
    have harg : ¬ (size.toInt ≤ 0 ∨ buffer = 0) := by
      push Not
      exact ⟨hpos, hnull⟩
    simp only [sysWrite, hcheck, if_neg harg, if_neg hblk, copyFromUser, hcopy]
    exact hcons
  · intro a hon hin
    rw [hframe a hon, copied_outside m hin]

/-- It stores to the array and to the screen only, whatever it returns. -/
theorem Keeps.sysWrite {P : S → Prop} (hM : Keeps M P B) (hB : ∀ a, OnScreen a → B a)
    (hbuff : ∀ j, j < size.toNat → B (buff + BitVec.ofNat 32 j)) (h0 : P s.mem) (hs : s.OnGrid)
    {r : Int} {s' : Console S} (h : sysWrite M buff fd buffer size s = some (r, s')) :
    P s'.mem := by
  by_cases hok : WriteAccepted fd buffer size
  · obtain ⟨hfd, hpos, hnull, hblk⟩ := hok
    have hn := (toNat_of_toInt_pos hpos).1
    have hcheck : checkFd fd.toInt ESCRIPTURA = 0 := by simp [checkFd, hfd]
    have harg : ¬ (size.toInt ≤ 0 ∨ buffer = 0) := by
      push Not
      exact ⟨hpos, hnull⟩
    simp only [ZeOS.sysWrite, hcheck, if_neg harg, if_neg hblk, copyFromUser] at h
    obtain ⟨⟨z, mem⟩, hcopy, h⟩ := Option.bind_eq_some_iff.mp h
    obtain ⟨mem', hcopy, heq⟩ := Option.map_eq_some_iff.mp hcopy
    cases heq
    have hgrid : Console.OnGrid { s with mem } := hs
    exact hM.sysWriteConsole hB (hM.copyData h0 (by rwa [hn]) hcopy) hgrid h
  · obtain ⟨r', hrej, -⟩ : ∃ r, ZeOS.sysWrite M buff fd buffer size s = some (r, s) ∧ r < 0 :=
      sysWrite_rejected hok
    rw [hrej] at h
    cases h
    exact h0

end Spec

end ZeOS
