import ZeOS.Memory.Frames
import ZeOS.System.Tlb

/-!
# A fork that fails

`sys_fork` takes a slot from the free queue before it allocates the frames of the child. When these
run out it gives back the frames, apart from frame 256 which `free_frame` never takes, but not the
slot. The states here are those of the system except that the frame map may be anything: with the
constants of the kernel there are always enough frames.
-/
namespace ZeOS
open Lib

/-- A state in which a user process calls `sys_fork`: the queues and the process tree are well
formed, every table maps what it should and the running process has its pages. Of the frame map
nothing is assumed. -/
structure WellFormed (k : Kernel) (a : Processes) : Prop where
  rep : Represents k a
  inv : a.Inv
  user : a.running ≠ idleTask
  tables : Tables k.mem
  data : ∀ d, d < NUM_PAG_DATA →
    (k.mem.pagusrTable a.running (PAG_LOG_INIT_DATA + d)).present
  cr3 : k.mem.cr3 = some a.running
  coherent : k.mem.Coherent

/-- What a failed fork should leave as it was. The slots on the free queue have no page table and
no place in the tree. -/
structure Untouched (k k' : Kernel) : Prop where
  free : ∀ t, k'.InQueue .freeq t ↔ k.InQueue .freeq t
  ready : ∀ xs, Ring k'.links .readyq xs ↔ Ring k.links .readyq xs
  blocked : ∀ xs, Ring k'.links .blocked xs ↔ Ring k.links .blocked xs
  physMem : k'.mem.physMem = k.mem.physMem
  lastPid : k'.lastPid = k.lastPid
  parent : ∀ t, ¬ k.InQueue .freeq t → (k'.task t).parent = (k.task t).parent
  childs : ∀ t, ¬ k.InQueue .freeq t →
    ∀ xs, Ring k'.links (.childs t) xs ↔ Ring k.links (.childs t) xs
  tables : ∀ t, ¬ k.InQueue .freeq t →
    k'.mem.dirPages t = k.mem.dirPages t ∧ k'.mem.pagusrTable t = k.mem.pagusrTable t

theorem Untouched.refl (k : Kernel) : Untouched k k where
  free _ := Iff.rfl
  ready _ := Iff.rfl
  blocked _ := Iff.rfl
  physMem := rfl
  lastPid := rfl
  parent _ _ := rfl
  childs _ _ _ := Iff.rfl
  tables _ _ := ⟨rfl, rfl⟩

/-- Every state of the system in which a process runs, with any frame map. -/
theorem System.wellFormed {k : Kernel} {a : Processes} (h : System k a)
    (hrun : a.running ≠ idleTask) (physMem : Nat → Byte) :
    WellFormed { k with mem := { k.mem with physMem } } a where
  rep := h.rep.withMem _
  inv := h.inv
  user := hrun
  tables := h.spaces.tables.congr rfl fun _ _ _ => rfl
  data := by
    intro d hd
    have hlive : a.Live a.running := ⟨hrun, .inl rfl⟩
    have hentry := h.spaces.owns.entry (a.running, d) (Processes.mem_own hlive hd)
    change (k.mem.pagusrTable a.running (PAG_LOG_INIT_DATA + d)).present
    rw [hentry]
  cr3 := h.cr3
  coherent := h.coherent

/-! ## The loop over the data pages -/

/-- Supervisor accesses to present pages do not fault. -/
theorem Memory.serves_present (m : Memory) :
    Serves kernelMemory (fun s => SameTables m s ∧ s.Coherent)
      (fun a => (m.entryAt (a.toNat / PAGE_SIZE)).present)
      (fun a => (m.entryAt (a.toNat / PAGE_SIZE)).present) := by
  have hkeeps := keeps_coherent m
  have htranslate : ∀ {a s}, SameTables m s ∧ s.Coherent →
      (m.entryAt (a / PAGE_SIZE)).present →
      ∃ p, s.translate (a / PAGE_SIZE) = some p := by
    rintro a s ⟨hsame, hcoh⟩ ha
    rw [hcoh.translate, hsame.entryAt, if_pos ha]
    exact ⟨_, rfl⟩
  constructor
  · intro a s hs ha
    obtain ⟨⟨e, s'⟩, he⟩ := htranslate hs ha
    have hload : kernelMemory.load a s =
        some (s'.ram e.pbaseAddr (a.toNat % PAGE_SIZE), s') := by
      simp [kernelMemory, load, he]
    exact ⟨_, _, hload, hkeeps.load hs hload⟩
  · intro a s b hs ha
    obtain ⟨⟨e, s'⟩, he⟩ := htranslate hs ha
    have hstore : kernelMemory.store a b s =
        some (s'.poke e.pbaseAddr (a.toNat % PAGE_SIZE) b) := by
      simp [kernelMemory, store, he]
    exact ⟨_, hstore, hkeeps.store hs trivial hstore⟩

/-- The state of the loop after `i` pages: as many frames have been taken, or there were not enough
of them. -/
structure Allocating (m : Memory) (cur : Slot) (i : Nat) (s : Bool × Memory) : Prop where
  flushed : Flushed m cur s.2
  more : s.1 = true → (freeFrames s.2.physMem).card + i = (freeFrames m.physMem).card
  stopped : s.1 = false → (freeFrames m.physMem).card < i

section Loop

variable {m : Memory} {cur new : Slot} {i : Nat}

theorem forkDataPage_isSome (ht : Tables m) (hcr3 : m.cr3 = some cur) (hne : new ≠ cur)
    (hdata : ∀ d, d < NUM_PAG_DATA → (m.pagusrTable cur (PAG_LOG_INIT_DATA + d)).present)
    (hi : i < NUM_PAG_DATA) {s : Memory} (h : Flushed m cur s)
    (halloc : (allocFrame s.physMem).1 ≠ -1) :
    ∃ s', forkDataPage (some cur) new cur i (true, s) = some (true, s') ∧
      s'.physMem = (allocFrame s.physMem).2 := by
  set f := (allocFrame s.physMem).1 with hf
  set s₁ : Memory := { s with physMem := (allocFrame s.physMem).2 }
  set s₂ := s₁.setEntry new (PAG_LOG_INIT_DATA + i)
    { PageTableEntry.zero.setBase f with user := true, rw := true, present := true }
  set s₃ := setSsPag cur tempPag f s₂
  have h₂ : Flushed m cur s₂ :=
    (h.congr ht hcr3 rfl rfl rfl rfl : Flushed m cur s₁).setEntry ht hcr3 hne _ _
  have hcoh := h₂.mapped_coherent ht hcr3 f
  have hentry : ∀ p, s₃.entryAt p = if p = tempPag then
      { PageTableEntry.zero.setBase f with user := true, rw := true, present := true }
      else m.pagusrTable cur p := by
    intro p
    rw [entryAt_setSsPag (h₂.dir ht) (h₂.cr3.trans hcr3), h₂.table]
  have hpage : PAG_LOG_INIT_DATA + i < 1024 ∧ PAG_LOG_INIT_DATA + i ≠ tempPag := by
    simp only [PAG_LOG_INIT_DATA, tempPag]
    unfold NUM_PAG_DATA at hi
    omega
  have hsrc : ∀ j, j < (4096 : Int).toNat → (s₃.entryAt
      ((pageAddr (PAG_LOG_INIT_DATA + i) + BitVec.ofNat 32 j).toNat / PAGE_SIZE)).present := by
    intro j hj
    rw [pageAddr_div hpage.1 hj, hentry, if_neg hpage.2]
    exact hdata i hi
  have hdst : ∀ j, j < (4096 : Int).toNat → (s₃.entryAt
      ((pageAddr tempPag + BitVec.ofNat 32 j).toNat / PAGE_SIZE)).present := by
    intro j hj
    rw [pageAddr_div (by decide) hj, hentry, if_pos rfl]
  obtain ⟨u, hu, hsame, -⟩ := (Memory.serves_present s₃).copyData ⟨.refl s₃, hcoh⟩ hsrc hdst
  refine ⟨setCr3 (some cur) (delSsPag cur tempPag u), ?_, hsame.physMem⟩
  simp [forkDataPage, ← hf, halloc, s₁, s₂, s₃, hu]

theorem Allocating.step (ht : Tables m) (hcr3 : m.cr3 = some cur) (hne : new ≠ cur)
    (hdata : ∀ d, d < NUM_PAG_DATA → (m.pagusrTable cur (PAG_LOG_INIT_DATA + d)).present)
    (hi : i < NUM_PAG_DATA) {s : Bool × Memory} (h : Allocating m cur i s) :
    ∃ s', forkDataPage (some cur) new cur i s = some s' ∧ Allocating m cur (i + 1) s' := by
  obtain ⟨more, s⟩ := s
  have hflushed : Flushed m cur s := h.flushed
  cases more with
  | false =>
    have hlt := h.stopped rfl
    exact ⟨(false, s), rfl, hflushed, by simp, fun _ => by omega⟩
  | true =>
    have hcount : (freeFrames s.physMem).card + i = (freeFrames m.physMem).card := h.more rfl
    by_cases halloc : (allocFrame s.physMem).1 = -1
    · -- no frame is left
      have hzero := allocFrame_eq_neg_one_iff.mp halloc
      obtain ⟨s', hs'⟩ : ∃ s', forkDataPage (some cur) new cur i (true, s) = some (false, s') :=
        ⟨_, by simp [forkDataPage, halloc]; rfl⟩
      have hnext : Flushed m cur s' := hflushed.forkDataPage ht hcr3 hne hs'
      exact ⟨(false, s'), hs', hnext, by simp, fun _ => by omega⟩
    · obtain ⟨s', hs', hmap⟩ := forkDataPage_isSome ht hcr3 hne hdata hi hflushed halloc
      have hnext : Flushed m cur s' := hflushed.forkDataPage ht hcr3 hne hs'
      have hless := card_freeFrames_alloc halloc
      refine ⟨(true, s'), hs', hnext, fun _ => ?_, by simp⟩
      rw [hmap]
      omega

/-- The memory of a child can be built exactly when there are frames for its data pages. -/
theorem forkMemory_isSome (ht : Tables m) (hcr3 : m.cr3 = some cur) (hcoh : m.Coherent)
    (hne : new ≠ cur)
    (hdata : ∀ d, d < NUM_PAG_DATA → (m.pagusrTable cur (PAG_LOG_INIT_DATA + d)).present) :
    ∃ ok mem, forkMemory (some cur) new cur m = some (ok, mem) ∧
      (ok = true ↔ NUM_PAG_DATA ≤ (freeFrames m.physMem).card) := by
  obtain ⟨T, hT, -⟩ := forkCodePages_eq new cur hne m NUM_PAG_CODE
  have hcode : Flushed m cur (forRange (forkCodePage new cur) NUM_PAG_CODE m) :=
    Flushed.forkCodePages ht hcr3 hcoh hne
  have hstart : Allocating m cur 0 (true, forRange (forkCodePage new cur) NUM_PAG_CODE m) := by
    refine ⟨hcode, fun _ => ?_, by simp⟩
    rw [hT, Nat.add_zero]
  obtain ⟨⟨ok, mem⟩, hmem, hend⟩ := forRangeM_inv (Allocating m cur) hstart
    fun i s hi hs => hs.step ht hcr3 hne hdata hi
  refine ⟨ok, mem, hmem, ?_⟩
  cases ok with
  | false =>
    have hlt := hend.stopped rfl
    exact iff_of_false (by simp) (by omega)
  | true =>
    have hcount := hend.more rfl
    exact iff_of_true rfl (by omega)

end Loop

/-! ## What is left behind -/

namespace WellFormed

variable {k k' : Kernel} {a : Processes} {n : Slot} {free : List Slot}

theorem inFreeq (h : WellFormed k a) (hf : a.free = n :: free) : k.InQueue .freeq n :=
  ⟨_, h.rep.rings.ring _ a.freeq_mem_heads, by simp [Processes.lists, hf]⟩

theorem notMem_rest (h : WellFormed k a) (hf : a.free = n :: free) : n ∉ free := by
  have hnodup := h.inv.nodup.2.2
  rw [hf, List.nodup_cons] at hnodup
  exact hnodup.1

/-- A fork that is not refused at once takes the slot off the free queue, whatever it returns. -/
theorem slot_lost (h : WellFormed k a) (hf : a.free = n :: free)
    (hr : Ring k'.links .freeq (free.map .anchor)) : ¬ Untouched k k' := by
  intro hun
  obtain ⟨xs, hxs, hmem⟩ := (hun.free n).mpr (h.inFreeq hf)
  rw [hxs.eq hr] at hmem
  exact h.notMem_rest hf (by simpa using hmem)

theorem freshPid_eq_neg_one (a : Processes) (n : Slot) :
    a.freshPid n = -1 ↔ int32 (a.lastPid + 1) = -1 := by
  unfold Processes.freshPid
  split
  · rename_i hpos
    have hn : n.val < 10 := n.isLt
    have hnext : int32 (n.val + 1 : Int) = n.val + 1 := int32_eq (by omega) (by omega)
    rw [hpos, hnext]
    omega
  · rfl

/-- What `sys_fork` returns when a slot is free, and the free queue afterwards. -/
theorem sysFork_slot (h : WellFormed k a) (hf : a.free = n :: free) :
    ∃ r k', sysFork k = some (r, k') ∧ Ring k'.links .freeq (free.map .anchor) ∧
      (r = -1 ↔ (freeFrames k.mem.physMem).card < NUM_PAG_DATA ∨ int32 (k.lastPid + 1) = -1) := by
  have hpt : ∀ t, (k.mem.dirPages t).pbaseAddr = t := fun t => by rw [h.tables.dir]
  have hne : n ≠ a.running := (h.inv.head_free hf).2.1
  obtain ⟨ok, mem, hmem, hok⟩ := forkMemory_isSome h.tables h.cr3 h.coherent hne h.data
  cases ok with
  | false =>
    obtain ⟨k', hk', -, -, -, hrings⟩ := (h.rep.sysFork_noFrames h.inv hpt hf).1 mem hmem
    have hring := hrings.ring _ a.freeq_mem_heads
    rw [Function.update_self] at hring
    refine ⟨-1, k', hk', hring, iff_of_true rfl (.inl ?_)⟩
    simpa using hok
  | true =>
    obtain ⟨k', hk', hrep, -⟩ := h.rep.sysFork h.inv h.user hpt hf hmem
    refine ⟨_, k', hk', hrep.rings.ring _ (Processes.freeq_mem_heads _), ?_⟩
    have hframes := hok.mp rfl
    rw [freshPid_eq_neg_one, h.rep.lastPid, or_iff_right (by omega)]

end WellFormed

/-- A failed fork leaves everything as it was exactly when the free queue is empty, where it fails
at once; with a slot to take it must not fail, which it does when frames run out. (It also returns
-1, as the new PID, when the counter has come round to it.) -/
theorem failed_fork_untouched {k : Kernel} {a : Processes} (h : WellFormed k a) :
    (∀ k', sysFork k = some (-1, k') → Untouched k k') ↔
      listEmpty .freeq k.links = true ∨
        NUM_PAG_DATA ≤ (freeFrames k.mem.physMem).card ∧ int32 (k.lastPid + 1) ≠ -1 := by
  rw [h.rep.listEmpty_freeq]
  cases hf : a.free with
  | nil =>
    refine iff_of_true ?_ (.inl rfl)
    intro k' hk'
    rw [h.rep.sysFork_full hf] at hk'
    cases hk'
    exact .refl k
  | cons n free =>
    obtain ⟨r, k', hk', hring, hr⟩ := h.sysFork_slot hf
    have hlost := h.slot_lost hf hring
    simp only [reduceCtorEq, false_or]
    constructor
    · intro hall
      by_contra hcond
      obtain rfl : r = -1 := by
        rw [hr]
        by_contra hno
        rw [not_or, not_lt] at hno
        exact hcond hno
      exact hlost (hall k' hk')
    · rintro ⟨hframes, hpid⟩ k'' hk''
      rw [hk'] at hk''
      simp only [Option.some.injEq, Prod.mk.injEq] at hk''
      rcases hr.mp hk''.1 with hlt | hwrap
      · omega
      · exact absurd hwrap hpid

/-- With nine processes alive a fork fails and changes nothing. -/
theorem failed_fork_untouched_full :
    ∃ k a k', runFromBoot (fun _ _ => 0) (fun _ => 0) (List.replicate 8 .fork) = some k ∧
      WellFormed k a ∧ sysFork k = some (-1, k') ∧ Untouched k k' := by
  obtain ⟨b, hb, hfacts⟩ := Option.map_eq_some_iff.mp
    (by decide : (runs Processes.next bootProcesses (List.replicate 8 .fork)).map
      (fun b => (b.free, decide (b.running = idleTask))) = some ([], false))
  simp only [Prod.mk.injEq, decide_eq_false_iff_not] at hfacts
  obtain ⟨k, hk, hs⟩ := runFromBoot_spec (fun _ _ => 0) (fun _ => 0) hb
  have hwell : WellFormed k b := hs.wellFormed hfacts.2 k.mem.physMem
  have hfork := hwell.rep.sysFork_full hfacts.1
  have hempty := hwell.rep.listEmpty_freeq.mpr hfacts.1
  exact ⟨k, b, k, hk, hwell, hfork, (failed_fork_untouched hwell).mpr (.inl hempty) k hfork⟩

/-- The state after `boot`, had all frames been taken: `sys_fork` returns -1 and slot 2, the first
on the free queue, is on no queue any more. -/
theorem failed_fork_loses_slot :
    ∃ k k', boot (fun _ _ => 0) (fun _ => 0) = some k ∧
      sysFork { k with mem := { k.mem with physMem := fun _ => USED_FRAME } } = some (-1, k') ∧
      k.InQueue .freeq 2 ∧ ¬ k'.InQueue .freeq 2 ∧
      ¬ Untouched { k with mem := { k.mem with physMem := fun _ => USED_FRAME } } k' := by
  obtain ⟨k, hk, hs⟩ := boot_spec (fun _ _ => 0) (fun _ => 0)
  have hwell := hs.wellFormed (by decide) fun _ => USED_FRAME
  have hf : bootProcesses.free = 2 :: [3, 4, 5, 6, 7, 8, 9] := rfl
  obtain ⟨r, k', hk', hring, hr⟩ := hwell.sysFork_slot hf
  have hnone : freeFrames (fun _ => USED_FRAME) = ∅ := by simp [freeFrames]
  obtain rfl : r = -1 := hr.mpr (.inl (by simp [hnone]))
  have hlost := hwell.slot_lost hf hring
  refine ⟨k, k', hk, hk', hwell.inFreeq hf, ?_, hlost⟩
  rintro ⟨xs, hxs, hmem⟩
  rw [hxs.eq hring] at hmem
  simp at hmem

end ZeOS
