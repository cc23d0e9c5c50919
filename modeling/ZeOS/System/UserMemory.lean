import ZeOS.System.Write

/-!
# The memory of a process

`userByte m t x` is the byte that the page table of slot `t` gives at the address `x`, whether `t`
is running or not. An access by the running process reads or writes this byte, or faults, by the
address alone. No other event changes what a live process has at an address; a fork gives its child
what the parent has.
-/
namespace ZeOS
open Lib

/-- An address in the data pages of a process. -/
def InData (x : Word) : Prop :=
  PAG_LOG_INIT_DATA ≤ x.toNat / PAGE_SIZE ∧ x.toNat / PAGE_SIZE < PAG_LOG_INIT_CODE

/-- An address in the code pages. -/
def InCode (x : Word) : Prop :=
  PAG_LOG_INIT_CODE ≤ x.toNat / PAGE_SIZE ∧
    x.toNat / PAGE_SIZE < PAG_LOG_INIT_CODE + NUM_PAG_CODE

instance (x : Word) : Decidable (InData x) := inferInstanceAs (Decidable (_ ∧ _))

instance (x : Word) : Decidable (InCode x) := inferInstanceAs (Decidable (_ ∧ _))

theorem not_inData_of_inCode {x : Word} (h : InCode x) : ¬ InData x := fun h' =>
  absurd h.1 (Nat.not_le.mpr h'.2)

namespace Memory

def userByte (m : Memory) (t : Slot) (x : Word) : Byte :=
  m.ram (m.pagusrTable t (x.toNat / PAGE_SIZE)).pbaseAddr (x.toNat % PAGE_SIZE)

@[simp] theorem userByte_remember (m : Memory) (page : Nat) :
    (m.remember page).userByte = m.userByte := rfl

@[simp] theorem userByte_setCr3 (dir : Option Slot) (m : Memory) :
    (setCr3 dir m).userByte = m.userByte := rfl

end Memory

section Accesses

variable {k : Kernel} {a : Processes} {t : Slot} {x y : Word} {b : Byte}

theorem System.entry_inData (h : System k a) (ht : a.Live t) (hx : InData x) :
    k.mem.pagusrTable t (x.toNat / PAGE_SIZE) =
      ⟨true, true, true, (k.mem.pagusrTable t (x.toNat / PAGE_SIZE)).pbaseAddr⟩ := by
  obtain ⟨hlo, hhi⟩ := hx
  rcases h.entry_cases ht (x.toNat / PAGE_SIZE) with ⟨hp, -⟩ | ⟨-, hp, -⟩ | ⟨d, -, -, he⟩ |
      ⟨c, -, hp, -⟩
  · simp only [PAG_LOG_INIT_CODE, PAG_LOG_INIT_DATA, NUM_PAG_CODE, NUM_PAG_DATA] at *
    omega
  · simp only [PAG_LOG_INIT_DATA, NUM_PAG_KERNEL] at *
    omega
  · rw [he]
  · omega

theorem System.entry_inCode (h : System k a) (ht : a.Live t) (hx : InCode x) :
    k.mem.pagusrTable t (x.toNat / PAGE_SIZE) =
      ⟨true, false, true, codeFrame (x.toNat / PAGE_SIZE - PAG_LOG_INIT_CODE)⟩ := by
  obtain ⟨hlo, hhi⟩ := hx
  have hcode := h.spaces.code t (Processes.mem_liveSet.mpr ht)
    (x.toNat / PAGE_SIZE - PAG_LOG_INIT_CODE) (by omega)
  rwa [Nat.add_sub_cancel' hlo] at hcode

/-- Any other address is the kernel's or nobody's. -/
theorem System.entry_outside (h : System k a) (ht : a.Live t) (hd : ¬ InData x)
    (hc : ¬ InCode x) :
    k.mem.pagusrTable t (x.toNat / PAGE_SIZE) = .zero ∨
      (k.mem.pagusrTable t (x.toNat / PAGE_SIZE)).user = false := by
  rcases h.entry_cases ht (x.toNat / PAGE_SIZE) with ⟨-, he⟩ | ⟨-, -, he⟩ | ⟨d, hd', hp, -⟩ |
      ⟨c, hc', hp, -⟩
  · exact .inl he
  · exact .inr (by rw [he])
  · refine absurd ⟨?_, ?_⟩ hd <;> rw [hp]
    · exact Nat.le_add_right _ _
    · exact Nat.add_lt_add_left hd' _
  · refine absurd ⟨?_, ?_⟩ hc <;> rw [hp]
    · exact Nat.le_add_right _ _
    · exact Nat.add_lt_add_left hc' _

/-- Whatever the cache remembers, a load of the running process depends on the address alone. -/
theorem System.userLoad (h : System k a) (hrun : a.running ≠ idleTask) (x : Word) :
    k.mem.userLoad x =
      if InData x ∨ InCode x then
        some (k.mem.userByte a.running x, k.mem.remember (x.toNat / PAGE_SIZE))
      else none := by
  have hlive : a.Live a.running := ⟨hrun, .inl rfl⟩
  have hentry := h.spaces.tables.entryAt h.cr3 (x.toNat / PAGE_SIZE)
  rw [Memory.userLoad, h.coherent.translate, hentry]
  by_cases hd : InData x
  · have he := h.entry_inData hlive hd
    rw [if_pos (by rw [he]), if_pos (.inl hd)]
    simp only [Option.bind_eq_bind, Option.bind_some]
    rw [if_pos (by rw [he])]
    rfl
  · by_cases hc : InCode x
    · have he := h.entry_inCode hlive hc
      rw [if_pos (by rw [he]), if_pos (.inr hc)]
      simp only [Option.bind_eq_bind, Option.bind_some]
      rw [if_pos (by rw [he])]
      rfl
    · rw [if_neg (not_or.mpr ⟨hd, hc⟩)]
      rcases h.entry_outside hlive hd hc with he | he
      · rw [he, if_neg (by simp [PageTableEntry.zero])]
        rfl
      · split <;> simp [he]

theorem System.userStore (h : System k a) (hrun : a.running ≠ idleTask) (x : Word) (b : Byte) :
    k.mem.userStore x b =
      if InData x then
        some ((k.mem.remember (x.toNat / PAGE_SIZE)).poke
          (k.mem.pagusrTable a.running (x.toNat / PAGE_SIZE)).pbaseAddr (x.toNat % PAGE_SIZE) b)
      else none := by
  have hlive : a.Live a.running := ⟨hrun, .inl rfl⟩
  have hentry := h.spaces.tables.entryAt h.cr3 (x.toNat / PAGE_SIZE)
  rw [Memory.userStore, h.coherent.translate, hentry]
  by_cases hd : InData x
  · have he := h.entry_inData hlive hd
    rw [if_pos (by rw [he]), if_pos hd]
    simp only [Option.bind_eq_bind, Option.bind_some]
    rw [if_pos (by rw [he]; rfl)]
  · rw [if_neg hd]
    by_cases hc : InCode x
    · have he := h.entry_inCode hlive hc
      split <;> simp [he]
    · rcases h.entry_outside hlive hd hc with he | he
      · rw [he, if_neg (by simp [PageTableEntry.zero])]
        rfl
      · split <;> simp [he]

theorem word_ext {x y : Word} (hp : x.toNat / PAGE_SIZE = y.toNat / PAGE_SIZE)
    (ho : x.toNat % PAGE_SIZE = y.toNat % PAGE_SIZE) : x = y := by
  apply BitVec.eq_of_toNat_eq
  rw [← Nat.div_add_mod x.toNat PAGE_SIZE, ← Nat.div_add_mod y.toNat PAGE_SIZE, hp, ho]

/-- A byte that the running process stores is its own alone. -/
theorem System.userByte_poke (h : System k a) (hrun : a.running ≠ idleTask) (hx : InData x)
    (ht : a.Live t) (hy : InData y ∨ InCode y) :
    ((k.mem.remember (x.toNat / PAGE_SIZE)).poke
        (k.mem.pagusrTable a.running (x.toNat / PAGE_SIZE)).pbaseAddr
        (x.toNat % PAGE_SIZE) b).userByte t y =
      if t = a.running ∧ y = x then b else k.mem.userByte t y := by
  have hlive : a.Live a.running := ⟨hrun, .inl rfl⟩
  have hpres : (k.mem.pagusrTable t (y.toNat / PAGE_SIZE)).present := by
    rcases hy with hy | hy
    · rw [h.entry_inData ht hy]
    · rw [h.entry_inCode ht hy]
  have hexcl := (h.isolated hlive).exclusive (x.toNat / PAGE_SIZE) hx.1 hx.2 t
    (y.toNat / PAGE_SIZE) ((h.liveTask_iff t).mpr ht) hpres
  simp only [Memory.userByte, Memory.poke, Memory.remember]
  by_cases hf : (k.mem.pagusrTable t (y.toNat / PAGE_SIZE)).pbaseAddr =
      (k.mem.pagusrTable a.running (x.toNat / PAGE_SIZE)).pbaseAddr
  · obtain ⟨rfl, hp⟩ := hexcl hf
    rw [hf, Function.update_self, Function.update_apply]
    refine if_congr ?_ rfl ?_
    · exact ⟨fun ho => ⟨rfl, word_ext hp ho⟩, fun he => by rw [he.2]⟩
    · rfl
  · rw [Function.update_of_ne hf, if_neg]
    rintro ⟨rfl, rfl⟩
    exact hf rfl

end Accesses

/-! ## Events -/

section Events

variable {k k' : Kernel} {a : Processes} {e : Event} {r : Int} {t : Slot} {x : Word}

/-- What every process other than the exiting one has is left alone. -/
theorem userByte_freeUserPages {m : Memory} {own : Finset (Slot × Nat)} {u : Slot} (h : Owns m own)
    (hu : ∀ d, d < NUM_PAG_DATA → (u, d) ∈ own) (ht : t ≠ u) (x : Word) :
    (freeUserPages u m).userByte t x = m.userByte t x := by
  have hp := freeUserPages_progress h hu
  rw [Memory.userByte, Memory.userByte, hp.ram, hp.table, if_neg fun hc => ht hc.1]

/-- A step that enters the kernel leaves a process that lives on with the memory it had. -/
theorem System.userByte_step (h : System k a) (he : e.isAccess = false)
    (hs : step k e = some (r, k')) (ht : a.Live t) (ht' : (a.respond e).2.Live t)
    (hx : InData x ∨ InCode x) : k'.mem.userByte t x = k.mem.userByte t x := by
  have hrun := h.enabled hs
  have hcur : e = .tick ∨ k.current ≠ idleTask := by rwa [h.rep.current]
  -- ticks, blocks and unblocks load a directory at most
  have switched : ∀ {b : Processes}, (k'.mem = k.mem ∧ b.running = a.running ∨
      k'.mem = setCr3 (some b.running) k.mem) → k'.mem.userByte t x = k.mem.userByte t x := by
    rintro b (⟨hm, -⟩ | hm) <;> rw [hm]
    rfl
  cases e with
  | tick =>
    obtain ⟨k₁, hk₁, -, hm⟩ := h.rep.scheduler h.inv
    simp only [step, if_true, hk₁, Option.map_some, Option.some.injEq, Prod.mk.injEq] at hs
    obtain ⟨-, rfl⟩ := hs
    exact switched hm
  | fork =>
    simp only [reduceCtorEq, false_or] at hrun hcur
    simp only [step, reduceCtorEq, if_false, hcur, userStep] at hs
    obtain ⟨k₁, hk₁, hs₁, hfork⟩ := h.sysFork hrun
    rw [hk₁] at hs
    cases hs
    cases hf : a.free with
    | nil =>
      rw [h.rep.sysFork_full hf] at hk₁
      obtain ⟨-, rfl⟩ := Prod.mk.inj (Option.some.inj hk₁)
      rfl
    | cons n free =>
      obtain ⟨m, hp, hm⟩ := hfork n free hf
      have heq : a.fork.2 = a.forkInto n free := by simp [Processes.fork, hf]
      have hcopy := h.copiedSpace hrun hf (heq ▸ hs₁) hp hm
      have hl := (h.liveTask_iff t).mpr ht
      rw [Memory.userByte, hcopy.tables t hl, hcopy.memory t hl, Memory.userByte]
      rcases hx with hx | hx
      · rw [h.entry_inData ht hx]
      · rw [h.entry_inCode ht hx]
  | exit =>
    simp only [reduceCtorEq, false_or] at hrun hcur
    obtain ⟨k₁, hk₁, -, hm⟩ := h.rep.sysExit h.inv hrun h.pbaseAddr
    simp only [step, reduceCtorEq, if_false, hcur, userStep, hk₁, Option.map_some,
      Option.some.injEq, Prod.mk.injEq] at hs
    obtain ⟨-, rfl⟩ := hs
    have hne : t ≠ a.running := ((Processes.live_exit h.inv t).mp ht').2
    rw [hm]
    exact userByte_freeUserPages h.spaces.owns
      (fun d hd => Processes.mem_own ⟨hrun, .inl rfl⟩ hd) hne x
  | block =>
    simp only [reduceCtorEq, false_or] at hrun hcur
    obtain ⟨k₁, hk₁, -, hm⟩ := h.rep.sysBlock h.inv hrun
    simp only [step, reduceCtorEq, if_false, hcur, userStep, hk₁, Option.map_some,
      Option.some.injEq, Prod.mk.injEq] at hs
    obtain ⟨-, rfl⟩ := hs
    exact switched hm
  | unblock pid =>
    simp only [reduceCtorEq, false_or] at hrun hcur
    obtain ⟨k₁, hk₁, -, hm⟩ := h.rep.sysUnblock h.inv hrun pid
    simp only [step, reduceCtorEq, if_false, hcur, userStep, hk₁, Option.some.injEq,
      Prod.mk.injEq] at hs
    obtain ⟨-, rfl⟩ := hs
    rw [hm]
  | load | store => simp [Event.isAccess] at he

/-- A new process has what its parent has. -/
theorem System.userByte_fork {n : Slot} {free : List Slot} (h : System k a)
    (hs : step k .fork = some (r, k')) (hf : a.free = n :: free) (hx : InData x ∨ InCode x) :
    k'.mem.userByte n x = k.mem.userByte a.running x := by
  have hrun : a.running ≠ idleTask := (h.enabled hs).resolve_left (by simp)
  have hcur : k.current ≠ idleTask := by rwa [h.rep.current]
  simp only [step, reduceCtorEq, if_false, hcur, userStep] at hs
  obtain ⟨k₁, hk₁, hs₁, hfork⟩ := h.sysFork hrun
  rw [hk₁] at hs
  cases hs
  obtain ⟨m, hp, hm⟩ := hfork n free hf
  have heq : a.fork.2 = a.forkInto n free := by simp [Processes.fork, hf]
  have hcopy := h.copiedSpace hrun hf (heq ▸ hs₁) hp hm
  have hoff : x.toNat % PAGE_SIZE < PAGE_SIZE := Nat.mod_lt _ (by decide)
  have hlive : a.Live a.running := ⟨hrun, .inl rfl⟩
  rw [Memory.userByte, Memory.userByte]
  rcases hx with hx | hx
  · obtain ⟨d, hd⟩ := Nat.exists_eq_add_of_le hx.1
    have hlt : d < NUM_PAG_DATA := by
      have := hx.2
      rw [hd] at this
      exact Nat.lt_of_add_lt_add_left this
    rw [hd]
    have := (hcopy.data d hlt).2 _ hoff
    rwa [h.rep.current] at this
  · obtain ⟨c, hc⟩ := Nat.exists_eq_add_of_le hx.1
    have hlt : c < NUM_PAG_CODE := by
      have := hx.2
      rw [hc] at this
      exact Nat.lt_of_add_lt_add_left this
    have hsame := hcopy.code c hlt
    rw [h.rep.current] at hsame
    rw [hc, hsame, hcopy.memory a.running ((h.liveTask_iff _).mpr hlive)]
    rw [← hc, h.entry_inCode hlive hx]

end Events

/-! ## Start-up -/

/-- The frame that `set_user_pages` takes for a page: every second one from the kernel's on, those
of the code first. -/
def startFrame (page : Nat) : Nat :=
  if page < PAG_LOG_INIT_CODE then codeFrame (NUM_PAG_CODE + (page - PAG_LOG_INIT_DATA))
  else codeFrame (page - PAG_LOG_INIT_CODE)

/-- The code pages and `i` data pages of `t` have been mapped, over the contents `ram`. -/
structure StartFrames (t : Slot) (ram : Nat → Nat → Byte) (i : Nat) (m : Memory) : Prop where
  ram : m.ram = ram
  code : CodeMapped m t
  data : ∀ d, d < i → m.dataFrame (t, d) = codeFrame (NUM_PAG_CODE + d)
  marks : startMarks (NUM_PAG_CODE + i) m.physMem

theorem startMarks_alloc {i : Nat} {physMem : Nat → Byte} (h : startMarks i physMem)
    (hi : i < 384) :
    allocFrame physMem = ((codeFrame i : Int), Function.update physMem (codeFrame i) USED_FRAME) ∧
      startMarks (i + 1) (Function.update physMem (codeFrame i) USED_FRAME) := by
  have hlt : ∀ c, c ≤ i → codeFrame c < TOTAL_PAGES := by
    intro c hc
    simp only [codeFrame, NUM_PAG_KERNEL, TOTAL_PAGES]
    omega
  refine ⟨allocFrame_eq hi ?_ ?_, ?_⟩
  · rw [h _ (hlt i le_rfl), if_neg]
    simp only [codeFrame, NUM_PAG_KERNEL]
    omega
  · intro j hj
    rw [h _ (hlt j hj.le), if_pos (.inr ⟨j, hj, rfl⟩)]
    decide
  · intro f hf
    have hinj : ∀ c, codeFrame c = codeFrame i → c = i := by
      intro c hc
      unfold codeFrame at hc
      omega
    rw [Function.update_apply, h f hf]
    by_cases hfi : f = codeFrame i
    · rw [if_pos hfi, if_pos (.inr ⟨i, by omega, hfi.symm⟩)]
    · rw [if_neg hfi]
      refine if_congr (or_congr_right ?_) rfl rfl
      constructor
      · rintro ⟨c, hc, rfl⟩
        exact ⟨c, by omega, rfl⟩
      · rintro ⟨c, hc, rfl⟩
        have : c ≠ i := by rintro rfl; exact hfi rfl
        exact ⟨c, by omega, rfl⟩

theorem StartFrames.step {t : Slot} {ram : Nat → Nat → Byte} {i : Nat} {m : Memory}
    (h : StartFrames t ram i m) (hi : i < NUM_PAG_DATA) :
    StartFrames t ram (i + 1) (setUserDataPage t i m) := by
  obtain ⟨halloc, hmarks⟩ := startMarks_alloc h.marks
    (by unfold NUM_PAG_CODE NUM_PAG_DATA at *; omega)
  have hlt : codeFrame (NUM_PAG_CODE + i) < TOTAL_PAGES := by
    simp only [codeFrame, NUM_PAG_KERNEL, TOTAL_PAGES, NUM_PAG_CODE, NUM_PAG_DATA] at hi ⊢
    omega
  have hstep : setUserDataPage t i m =
      { m with physMem := Function.update m.physMem (codeFrame (NUM_PAG_CODE + i)) USED_FRAME
        }.setEntry t (PAG_LOG_INIT_DATA + i) ⟨true, true, true, codeFrame (NUM_PAG_CODE + i)⟩ := by
    simp only [setUserDataPage, halloc, setBase_ofNat _ hlt]
  rw [hstep]
  refine ⟨h.ram, h.code.congr ?_, ?_, hmarks⟩
  · intro p hp
    rw [Memory.setEntry_apply, if_neg]
    simp only [PAG_LOG_INIT_CODE, PAG_LOG_INIT_DATA, NUM_PAG_DATA] at hp hi ⊢
    omega
  · intro d hd
    rw [Memory.dataFrame_setEntry _ (t, i), Function.update_apply]
    by_cases hdi : d = i
    · rw [if_pos (by rw [hdi]), hdi]
    · rw [if_neg (by simpa using hdi)]
      exact h.data d (by omega)

theorem setUserPages_frames {m : Memory} {t : Slot} (h : StartProgress t 0 m) :
    StartFrames t m.ram NUM_PAG_DATA (setUserPages t m) := by
  have hcode := forRange_inv (f := setUserCodePage t) (n := NUM_PAG_CODE) (a := m)
    (fun i s => StartProgress t i s ∧ s.ram = m.ram) ⟨h, rfl⟩
    fun i s hi hs => ⟨hs.1.step hi, hs.2⟩
  refine forRange_inv (StartFrames t m.ram) ⟨hcode.2, hcode.1.code, by simp, ?_⟩ ?_
  · exact hcode.1.marks
  · intro i s hi hs
    exact hs.step hi

theorem boot_frames {ram : Nat → Nat → Byte} {choice : Nat → Nat} {k : Kernel}
    (hk : boot ram choice = some k) :
    ∃ m, k.mem = setCr3 (some 1) m ∧ StartFrames 1 ram NUM_PAG_DATA m := by
  have hstart := startProgress_initMm ram choice
  obtain ⟨σ, hσ, -⟩ := initSched_spec (initMm (static ram choice)) rfl
  have hram : (initMm (static ram choice)).mem.ram = ram := rfl
  have hf := setUserPages_frames hstart
  rw [hram] at hf
  refine ⟨_, ?_, hf⟩
  rw [boot, hσ, Option.bind_eq_bind, Option.bind_some, initIdle_eq, initTask1_eq _ rfl] at hk
  obtain rfl := Option.some.inj hk
  rfl

/-- Start-up leaves the contents of the frames alone. -/
theorem boot_ram {ram : Nat → Nat → Byte} {choice : Nat → Nat} {k : Kernel}
    (hk : boot ram choice = some k) : k.mem.ram = ram := by
  obtain ⟨m, hm, hf⟩ := boot_frames hk
  rw [hm, ← hf.ram]
  rfl

/-- What the first process finds in its memory is what the frames held. -/
theorem boot_userByte {ram : Nat → Nat → Byte} {choice : Nat → Nat} {k : Kernel}
    (hk : boot ram choice = some k) {x : Word} (hx : InData x ∨ InCode x) :
    k.mem.userByte 1 x = ram (startFrame (x.toNat / PAGE_SIZE)) (x.toNat % PAGE_SIZE) := by
  obtain ⟨m, hm, hf⟩ := boot_frames hk
  rw [hm, Memory.userByte_setCr3, Memory.userByte, hf.ram]
  refine congrArg (fun f => ram f (x.toNat % PAGE_SIZE)) ?_
  rw [startFrame]
  rcases hx with hx | hx
  · obtain ⟨d, hd⟩ := Nat.exists_eq_add_of_le hx.1
    have hlt := hx.2
    rw [hd] at hlt ⊢
    rw [if_pos hlt, Nat.add_sub_cancel_left]
    exact hf.data d (Nat.lt_of_add_lt_add_left hlt)
  · obtain ⟨c, hc⟩ := Nat.exists_eq_add_of_le hx.1
    have hlt := hx.2
    rw [hc] at hlt ⊢
    rw [if_neg (by omega), Nat.add_sub_cancel_left, hf.code c (Nat.lt_of_add_lt_add_left hlt)]

end ZeOS
