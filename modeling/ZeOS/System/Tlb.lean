import ZeOS.System.Safety

/-!
# The translation cache

The kernel changes the active page table in two places, the loop of `sys_fork` that fills the
child's pages through a temporary one, and `sys_exit`. Each is followed by a load of `CR3` before
the next return to user mode, on every path.

A translation may be used, and remembered, by more than the accesses that the model makes: by
instruction fetches, and by the kernel's own loads and stores. Runs are therefore interspersed with
uses of any page.
-/
namespace ZeOS
open Lib

/-! ## The loop of `sys_fork` -/

/-- After a number of iterations from `m`, the parent `cur` has its own table again and the cache
is coherent with it. -/
structure Flushed (m : Memory) (cur : Slot) (s : Memory) : Prop where
  dirPages : s.dirPages = m.dirPages
  table : s.pagusrTable cur = m.pagusrTable cur
  cr3 : s.cr3 = m.cr3
  coherent : s.Coherent

namespace Flushed

variable {m s s' : Memory} {cur new : Slot}

/-- Changes to other tables and to the frame map do not matter. -/
theorem congr (h : Flushed m cur s) (ht : Tables m) (hcr3 : m.cr3 = some cur)
    (hd : s'.dirPages = s.dirPages) (hp : s'.pagusrTable cur = s.pagusrTable cur)
    (hc : s'.cr3 = s.cr3) (htlb : s'.tlb = s.tlb) : Flushed m cur s' := by
  refine ⟨hd.trans h.dirPages, hp.trans h.table, hc.trans h.cr3, h.coherent.congr htlb ?_⟩
  intro page _
  simp only [Memory.entryAt, hd, hc, h.dirPages, h.cr3, hcr3, ht.dir, if_true, hp]

theorem setEntry (h : Flushed m cur s) (ht : Tables m) (hcr3 : m.cr3 = some cur) (hne : new ≠ cur)
    (page : Nat) (e : PageTableEntry) : Flushed m cur (s.setEntry new page e) :=
  h.congr ht hcr3 rfl (Function.update_of_ne hne.symm _ _) rfl rfl

theorem tempPag_zero (h : Flushed m cur s) (ht : Tables m) :
    s.pagusrTable cur tempPag = .zero := by
  rw [h.table]
  exact ht.absent cur tempPag (.inr (by decide))

theorem dir (h : Flushed m cur s) (ht : Tables m) : s.dirPages cur = ⟨true, true, true, cur⟩ := by
  rw [h.dirPages, ht.dir]

theorem mapped_coherent (h : Flushed m cur s) (ht : Tables m) (hcr3 : m.cr3 = some cur)
    (frame : Int) : (setSsPag cur tempPag frame s).Coherent :=
  coherent_setSsPag (h.dir ht) (h.cr3.trans hcr3) (h.tempPag_zero ht) h.coherent frame

/-- Copying through the temporary page: whatever the cache learns of that page, the flush at the end
of the iteration makes it forget. -/
theorem copyThrough (h : Flushed m cur s) (ht : Tables m) (hcr3 : m.cr3 = some cur) (frame : Int)
    {p q : Word} {size : Int} {u : Memory}
    (hcopy : copyData kernelMemory p q size (setSsPag cur tempPag frame s) = some u) :
    Flushed m cur (setCr3 (some cur) (delSsPag cur tempPag u)) := by
  have htemp := h.tempPag_zero ht
  have hmapped := h.mapped_coherent ht hcr3 frame
  obtain ⟨hsame, -⟩ := (Memory.keeps_coherent _).copyData ⟨Memory.SameTables.refl _, hmapped⟩
    (fun _ _ => trivial) hcopy
  refine ⟨hsame.dirPages.trans h.dirPages, ?_, hcr3.symm, Memory.coherent_setCr3 _ _⟩
  -- the temporary page is absent again
  have htable : (delSsPag cur tempPag u).pagusrTable cur = s.pagusrTable cur := by
    simp [delSsPag, setSsPag, Memory.setEntry, hsame.pagusrTable, ← htemp]
  exact htable.trans h.table

theorem forkDataPage (ht : Tables m) (hcr3 : m.cr3 = some cur) (hne : new ≠ cur) {pag : Nat}
    {s s' : Bool × Memory} (h : Flushed m cur s.2)
    (hs : forkDataPage (some cur) new cur pag s = some s') : Flushed m cur s'.2 := by
  obtain ⟨more, s⟩ := s
  unfold ZeOS.forkDataPage at hs
  dsimp only at hs h
  cases more with
  | false =>
    cases hs
    exact h
  | true =>
    simp only [not_true_eq_false, if_false] at hs
    set s₁ := { s with physMem := (allocFrame s.physMem).2 } with hs₁
    have h₁ : Flushed m cur s₁ := h.congr ht hcr3 rfl rfl rfl rfl
    split at hs
    · -- no frame is left: the child's pages are freed again
      cases hs
      refine forRange_inv (P := fun _ => Flushed m cur) h₁ fun i u _ hu => ?_
      have hfree : Flushed m cur { u with
          physMem := freeFrame (u.pagusrTable new (PAG_LOG_INIT_DATA + i)).pbaseAddr u.physMem } :=
        hu.congr ht hcr3 rfl rfl rfl rfl
      exact hfree.setEntry ht hcr3 hne _ _
    · obtain ⟨u, hu, heq⟩ := Option.bind_eq_some_iff.mp hs
      cases heq
      exact (h₁.setEntry ht hcr3 hne _ _).copyThrough ht hcr3 _ hu

theorem forkCodePages (ht : Tables m) (hcr3 : m.cr3 = some cur) (hcoh : m.Coherent)
    (hne : new ≠ cur) : Flushed m cur (forRange (forkCodePage new cur) NUM_PAG_CODE m) :=
  forRange_inv (P := fun _ => Flushed m cur) ⟨rfl, rfl, rfl, hcoh⟩
    fun _ _ _ hu => hu.setEntry ht hcr3 hne _ _

theorem forkMemory (ht : Tables m) (hcr3 : m.cr3 = some cur) (hcoh : m.Coherent)
    (hne : new ≠ cur) {ok : Bool} (hs : forkMemory (some cur) new cur m = some (ok, s)) :
    Flushed m cur s :=
  forRangeM_keeps (P := fun s => Flushed m cur s.2)
    (fun _ _ _ hb hf => hb.forkDataPage ht hcr3 hne hf) (forkCodePages ht hcr3 hcoh hne) hs

end Flushed

/-- Every translation that the cache may hold agrees with the page table of the running task. -/
structure TlbAgrees (k : Kernel) : Prop where
  table : getPT (getDIR k.current k) k.mem = some k.current
  agrees : ∀ page e, e ∈ k.mem.tlb page → e = k.mem.pagusrTable k.current page ∧ e.present
  temporary : k.mem.tlb tempPag = []

theorem Flushed.tlbAgrees {k : Kernel} {m : Memory} {t : Slot} (h : Flushed m t k.mem)
    (ht : Tables m) (hcr3 : m.cr3 = some t) (hcur : k.current = t)
    (hdir : (k.task t).dirPagesBaseAddr = some t) : TlbAgrees k := by
  subst hcur
  have hentry : ∀ page, k.mem.entryAt page = k.mem.pagusrTable k.current page := by
    intro page
    simp [Memory.entryAt, h.cr3, hcr3, h.dirPages, ht.dir]
  have hagrees : ∀ page e, e ∈ k.mem.tlb page →
      e = k.mem.pagusrTable k.current page ∧ e.present := by
    intro page e he
    rw [← hentry]
    exact h.coherent page e he
  refine ⟨?_, hagrees, ?_⟩
  · simp [getPT, getDIR, hdir, h.dirPages, ht.dir]
  · rw [List.eq_nil_iff_forall_not_mem]
    intro e he
    obtain ⟨rfl, hp⟩ := hagrees tempPag e he
    rw [h.table, ht.absent _ tempPag (.inr (by decide))] at hp
    simp [PageTableEntry.zero] at hp

theorem Flushed.refl {m : Memory} (h : m.Coherent) (cur : Slot) : Flushed m cur m :=
  ⟨rfl, rfl, rfl, h⟩

theorem System.tlbAgrees {k : Kernel} {a : Processes} (h : System k a) : TlbAgrees k := by
  refine (Flushed.refl h.coherent a.running).tlbAgrees h.spaces.tables h.cr3 h.rep.current ?_
  rw [h.rep.task]
  exact h.inv.dir_running

/-- Whatever frames are left for it, `sys_fork` returns with a coherent cache, from its error path
too. -/
theorem System.sysFork_tlbAgrees {k k' : Kernel} {a : Processes} {r : Int} (h : System k a)
    (hrun : a.running ≠ idleTask) (physMem : Nat → Byte)
    (hs : ZeOS.sysFork { k with mem := { k.mem with physMem } } = some (r, k')) : TlbAgrees k' := by
  set m : Memory := { k.mem with physMem } with hm
  have hrep := h.rep.withMem m
  have htables : Tables m := h.spaces.tables.congr rfl fun _ _ _ => rfl
  have hcoh : m.Coherent := h.coherent
  have hpt : ∀ t, (m.dirPages t).pbaseAddr = t := h.pbaseAddr
  have hdir := h.inv.dir_running
  cases hf : a.free with
  | nil =>
    rw [hrep.sysFork_full hf] at hs
    cases hs
    exact (Flushed.refl hcoh a.running).tlbAgrees htables h.cr3 h.rep.current
      (h.rep.task ▸ hdir)
  | cons n free =>
    have hne : n ≠ a.running := h.inv.free_ne_running (by simp [hf])
    obtain ⟨hshort, hfault⟩ := hrep.sysFork_noFrames h.inv hpt hf
    cases hfork : forkMemory (some a.running) n a.running m with
    | none =>
      rw [hfault hfork] at hs
      cases hs
    | some s =>
      obtain ⟨ok, s⟩ := s
      have hflushed := Flushed.forkMemory htables h.cr3 hcoh hne hfork
      cases ok with
      | false =>
        obtain ⟨k₁, hk₁, rfl, hcur, htask, -⟩ := hshort s hfork
        rw [hk₁] at hs
        cases hs
        refine hflushed.tlbAgrees htables h.cr3 hcur ?_
        rw [htask _ hne.symm]
        exact hdir
      | true =>
        obtain ⟨k₁, hk₁, hR, hmem⟩ := hrep.sysFork h.inv hrun hpt hf hfork
        rw [hk₁] at hs
        cases hs
        have hlast : Flushed m a.running k'.mem := by
          rw [hmem]
          exact ⟨hflushed.dirPages, hflushed.table, h.cr3.symm, Memory.coherent_setCr3 _ _⟩
        refine hlast.tlbAgrees htables h.cr3 hR.current ?_
        rw [hR.task, Processes.forkInto_task_of_ne hne.symm]
        exact hdir

/-! ## Runs -/

/-- An access of any kind to a page uses a translation, which the cache remembers. -/
def touch (page : Nat) (k : Kernel) : Option Kernel :=
  (k.mem.translate page).map fun p => { k with mem := p.2 }

/-- An event, or the use of a page in between. -/
inductive CacheEvent where
  | event (e : Event)
  | touch (page : Nat)

def cacheNext (k : Kernel) : CacheEvent → Option Kernel
  | .event e => next k e
  | .touch page => touch page k

def cacheRun (ram : Nat → Nat → Byte) (choice : Nat → Nat) (es : List CacheEvent) :
    Option Kernel := do
  let k ← boot ram choice
  runs cacheNext k es

theorem cacheRun_system {ram : Nat → Nat → Byte} {choice : Nat → Nat} {es : List CacheEvent}
    {k : Kernel} (h : cacheRun ram choice es = some k) : ∃ a, System k a := by
  obtain ⟨k₀, hk₀, hs₀⟩ := boot_spec ram choice
  rw [cacheRun, hk₀] at h
  refine runs_inv (P := fun k => ∃ a, System k a) ?_ ⟨_, hs₀⟩ h
  rintro k e k' ⟨a, hs⟩ hnext
  cases e with
  | event e =>
    obtain ⟨⟨r, k''⟩, hstep, rfl⟩ := Option.map_eq_some_iff.mp hnext
    exact ⟨_, (hs.step_inv hstep).2⟩
  | touch page =>
    obtain ⟨⟨e, m⟩, ht, rfl⟩ := Option.map_eq_some_iff.mp hnext
    obtain ⟨hsame, hcoh⟩ := hs.coherent.translated ht
    exact ⟨a, hs.accessed hsame hcoh⟩

/-- Whatever pages are used between the events of a run, the cache agrees with the page table of the
running task after each of them. So a process reaches, through the cache, its own frames only, all
of them in use. After a fork that ran out of frames, at whatever page, the cache agrees as well. -/
theorem tlb_coherence {ram : Nat → Nat → Byte} {choice : Nat → Nat} {es : List CacheEvent}
    {k : Kernel} (h : cacheRun ram choice es = some k) :
    TlbAgrees k ∧
    (k.current ≠ idleTask → ∀ page e, e ∈ k.mem.tlb page → e.user →
      k.mem.physMem e.pbaseAddr = USED_FRAME ∧
      (e.rw → ∀ q page', k.LiveTask q → (k.mem.pagusrTable q page').present →
        (k.mem.pagusrTable q page').pbaseAddr = e.pbaseAddr → q = k.current ∧ page' = page)) ∧
    (k.current ≠ idleTask → ∀ physMem r k',
      sysFork { k with mem := { k.mem with physMem } } = some (r, k') → TlbAgrees k') := by
  obtain ⟨a, hs⟩ := cacheRun_system h
  have hagrees := hs.tlbAgrees
  refine ⟨hagrees, ?_, ?_⟩
  · intro hrun page e he huser
    obtain ⟨rfl, hp⟩ := hagrees.agrees page e he
    have hlive : a.Live k.current := ⟨hrun, .inl hs.rep.current⟩
    have hiso := hs.isolated hlive
    obtain ⟨hlo, hhi⟩ := (hiso.user page).mp ⟨hp, huser⟩
    by_cases hpage : page < PAG_LOG_INIT_CODE
    · obtain ⟨-, -, -, hused⟩ := hiso.data page hlo hpage
      exact ⟨hused, fun _ => hiso.exclusive page hlo hpage⟩
    · obtain ⟨c, rfl⟩ := Nat.exists_eq_add_of_le (Nat.le_of_not_lt hpage)
      have hc : c < NUM_PAG_CODE := by omega
      obtain ⟨hrw, hframe⟩ := hiso.code c hc
      rw [hframe]
      exact ⟨codeFrame_used hs.spaces.owns hc, fun hw => absurd hw hrw⟩
  · intro hrun physMem r k' hfork
    exact hs.sysFork_tlbAgrees (hs.rep.current ▸ hrun) physMem hfork

/-- The first process forks and uses its first data page. -/
theorem tlb_coherence_fork :
    ∃ k, cacheRun (fun _ _ => 0) (fun _ => 0) [.event .fork, .touch PAG_LOG_INIT_DATA] = some k ∧
      k.mem.tlb PAG_LOG_INIT_DATA ≠ [] ∧ TlbAgrees k := by
  obtain ⟨k₀, hk₀, hs₀⟩ := boot_spec (fun _ _ => 0) (fun _ => 0)
  obtain ⟨k₁, hk₁, hs₁⟩ := hs₀.step_kernel (e := .fork) rfl (.inr (by decide))
  have hlive : (bootProcesses.respond .fork).2.Live 1 := by decide
  have hrun : (bootProcesses.respond .fork).2.running = 1 := by decide
  have hentry : (k₁.mem.entryAt PAG_LOG_INIT_DATA).present := by
    rw [hs₁.spaces.tables.entryAt hs₁.cr3, hrun]
    exact ((hs₁.isolated hlive).user PAG_LOG_INIT_DATA |>.mpr (by decide)).1
  have htouch : k₁.mem.translate PAG_LOG_INIT_DATA =
      some (k₁.mem.entryAt PAG_LOG_INIT_DATA, k₁.mem.remember PAG_LOG_INIT_DATA) := by
    rw [hs₁.coherent.translate, if_pos hentry]
  have hcache : cacheRun (fun _ _ => 0) (fun _ => 0) [.event .fork, .touch PAG_LOG_INIT_DATA] =
      some { k₁ with mem := k₁.mem.remember PAG_LOG_INIT_DATA } := by
    rw [cacheRun, hk₀]
    simp [runs, cacheNext, next, hk₁, touch, htouch]
  refine ⟨_, hcache, ?_, (tlb_coherence hcache).1⟩
  simp [Memory.remember]

end ZeOS
