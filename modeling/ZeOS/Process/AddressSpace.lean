import ZeOS.Kernel.Sys
import ZeOS.Memory.Ownership
import ZeOS.Memory.Translation

/-!
# Address spaces of the live processes

Between steps every page table maps the kernel, the shared code and the data pages of its own
process and nothing else. `set_user_pages` establishes this at start-up, the memory part of
`sys_fork` extends it to the child and copies the parent's pages, and `free_user_pages` takes an
exiting process out.
-/
namespace ZeOS
open Lib

/-- What every page table keeps: the kernel is mapped to itself for the supervisor, and page 0 and
the pages above the user's are absent. -/
structure Tables (m : Memory) : Prop where
  dir : ∀ t, m.dirPages t = ⟨true, true, true, t⟩
  kernel : ∀ t p, 0 < p → p < NUM_PAG_KERNEL → m.pagusrTable t p = ⟨true, true, false, p⟩
  absent : ∀ t p, p = 0 ∨ PAG_LOG_INIT_CODE + NUM_PAG_CODE ≤ p → m.pagusrTable t p = .zero

/-- Slot `t` maps the shared code read-only. -/
def CodeMapped (m : Memory) (t : Slot) : Prop :=
  ∀ c, c < NUM_PAG_CODE →
    m.pagusrTable t (PAG_LOG_INIT_CODE + c) = ⟨true, false, true, codeFrame c⟩

structure AddressSpaces (m : Memory) (live : Finset Slot) : Prop where
  tables : Tables m
  code : ∀ t ∈ live, CodeMapped m t
  owns : Owns m (live ×ˢ Finset.range NUM_PAG_DATA)

/-- Pages between the code and the data, and the rest, by their place in the layout. -/
theorem page_cases (p : Nat) :
    (p = 0 ∨ PAG_LOG_INIT_CODE + NUM_PAG_CODE ≤ p) ∨ (0 < p ∧ p < NUM_PAG_KERNEL) ∨
      (∃ d, d < NUM_PAG_DATA ∧ p = PAG_LOG_INIT_DATA + d) ∨
      ∃ c, c < NUM_PAG_CODE ∧ p = PAG_LOG_INIT_CODE + c := by
  simp only [PAG_LOG_INIT_CODE, PAG_LOG_INIT_DATA, NUM_PAG_CODE, NUM_PAG_DATA, NUM_PAG_KERNEL]
  rcases Nat.lt_or_ge p 256 with h | h
  · omega
  · rcases Nat.lt_or_ge p 276 with h' | h'
    · exact .inr (.inr (.inl ⟨p - 256, by omega, by omega⟩))
    · rcases Nat.lt_or_ge p 284 with h'' | h''
      · exact .inr (.inr (.inr ⟨p - 276, by omega, by omega⟩))
      · omega

section Layout

variable {m m' : Memory} {t : Slot} {own : Finset (Slot × Nat)}

/-- Every entry of a complete table leads to a frame in use. -/
theorem pbaseAddr_mem_usedFrames (ht : Tables m) (hc : CodeMapped m t)
    (hown : ∀ d, d < NUM_PAG_DATA → (t, d) ∈ own) (p : Nat) :
    (m.pagusrTable t p).pbaseAddr ∈ m.usedFrames own := by
  unfold Memory.usedFrames
  rw [Finset.mem_union, mem_fixedFrames]
  rcases page_cases p with hp | ⟨hp, hp'⟩ | ⟨d, hd, rfl⟩ | ⟨c, hc', rfl⟩
  · rw [ht.absent t p hp]
    exact .inl (.inl (by decide))
  · rw [ht.kernel t p hp hp']
    exact .inl (.inl hp')
  · exact .inr (Finset.mem_image_of_mem m.dataFrame (hown d hd))
  · rw [hc c hc']
    exact .inl (.inr ⟨c, hc', rfl⟩)

theorem Tables.congr (h : Tables m) (hd : m'.dirPages = m.dirPages)
    (ht : ∀ t p, p < PAG_LOG_INIT_DATA ∨ PAG_LOG_INIT_CODE + NUM_PAG_CODE ≤ p →
      m'.pagusrTable t p = m.pagusrTable t p) : Tables m' := by
  refine ⟨fun t => hd ▸ h.dir t, ?_, ?_⟩
  · intro t p hp hp'
    rw [ht t p (.inl hp'), h.kernel t p hp hp']
  · intro t p hp
    rw [ht t p, h.absent t p hp]
    rcases hp with rfl | hp
    · exact .inl (by decide)
    · exact .inr hp

theorem CodeMapped.congr (h : CodeMapped m t)
    (ht : ∀ p, PAG_LOG_INIT_CODE ≤ p → m'.pagusrTable t p = m.pagusrTable t p) :
    CodeMapped m' t := by
  intro c hc
  rw [ht _ (Nat.le_add_right _ _), h c hc]

theorem AddressSpaces.congr {live : Finset Slot} (h : AddressSpaces m live)
    (hs : Memory.SameTables m m') : AddressSpaces m' live :=
  ⟨h.tables.congr hs.dirPages fun t p _ => by rw [hs.pagusrTable],
    fun t ht => (h.code t ht).congr fun p _ => by rw [hs.pagusrTable],
    h.owns.congr hs.physMem fun x _ => by rw [hs.pagusrTable]⟩

theorem AddressSpaces.congr_setCr3 {live : Finset Slot} (h : AddressSpaces m live)
    (dir : Option Slot) : AddressSpaces (setCr3 dir m) live :=
  ⟨h.tables.congr rfl fun _ _ _ => rfl, fun t ht => (h.code t ht).congr fun _ _ => rfl,
    h.owns.congr rfl fun _ _ => rfl⟩

/-- While the directory of `t` is loaded, a walk reads the table of `t`. -/
theorem Tables.entryAt (h : Tables m) (hcr3 : m.cr3 = some t) (page : Nat) :
    m.entryAt page = m.pagusrTable t page := by
  simp [Memory.entryAt, hcr3, h.dir]

end Layout

/-! ## `sys_fork` -/

theorem pageAddr_toNat {page i : Nat} (hp : page < 1024) (hi : i < PAGE_SIZE) :
    (pageAddr page + BitVec.ofNat 32 i).toNat = page * PAGE_SIZE + i := by
  unfold PAGE_SIZE at hi
  rw [pageAddr, ← BitVec.ofNat_add, BitVec.toNat_ofNat, Nat.mod_eq_of_lt]
  unfold PAGE_SIZE
  omega

theorem pageAddr_div {page i : Nat} (hp : page < 1024) (hi : i < PAGE_SIZE) :
    (pageAddr page + BitVec.ofNat 32 i).toNat / PAGE_SIZE = page := by
  rw [pageAddr_toNat hp hi]
  unfold PAGE_SIZE at hi ⊢
  omega

theorem pageAddr_mod {page i : Nat} (hp : page < 1024) (hi : i < PAGE_SIZE) :
    (pageAddr page + BitVec.ofNat 32 i).toNat % PAGE_SIZE = i := by
  rw [pageAddr_toNat hp hi]
  unfold PAGE_SIZE at hi ⊢
  omega

/-- Distinct pages do not overlap. -/
theorem noClobber_pageAddr {p q : Nat} (hp : p < 1024) (hq : q < 1024) (hne : p ≠ q) :
    NoClobber (pageAddr p) (pageAddr q) PAGE_SIZE := by
  intro i j hij hj heq
  have h := congrArg (fun a : Word => a.toNat / PAGE_SIZE) heq
  simp only [pageAddr_div hp hj, pageAddr_div hq (hij.trans hj)] at h
  exact hne h

/-- A bytewise copy of a whole page through the active table. -/
theorem bytes_pageAddr (m : Memory) {page i : Nat} (hp : page < 1024) (hi : i < PAGE_SIZE) :
    m.bytes (pageAddr page + BitVec.ofNat 32 i) = m.ram (m.entryAt page).pbaseAddr i := by
  rw [Memory.bytes, pageAddr_div hp hi, pageAddr_mod hp hi]

/-- The cache stays coherent when what it refers to does not change. -/
theorem Memory.Coherent.congr {m m' : Memory} (h : m.Coherent) (ht : m'.tlb = m.tlb)
    (he : ∀ page, (m.entryAt page).present → m'.entryAt page = m.entryAt page) :
    m'.Coherent := by
  intro page e hm
  rw [ht] at hm
  obtain ⟨rfl, hp⟩ := h page e hm
  exact ⟨(he page hp).symm, hp⟩

/-- `copy_data` of the page `q` to the page `p` moves a frame to the frame `f`, provided that no
other page leads to `f`. -/
theorem copyPage_spec {m : Memory} {p q f : Nat} (hcoh : m.Coherent) (hp : p < 1024)
    (hq : q < 1024) (hne : q ≠ p) (hdst : m.entryAt p = ⟨true, true, true, f⟩)
    (hsrc : (m.entryAt q).present) (honly : ∀ r, r ≠ p → (m.entryAt r).pbaseAddr ≠ f) :
    ∃ s, copyData kernelMemory (pageAddr q) (pageAddr p) 4096 m = some s ∧
      Memory.SameTables m s ∧ (∀ g, g ≠ f → s.ram g = m.ram g) ∧
      ∀ off, off < PAGE_SIZE → s.ram f off = m.ram (m.entryAt q).pbaseAddr off := by
  have hview := Memory.kernelMemory_view (m := m) (f := f) (p := p) (by rw [hdst]) (by rw [hdst])
    honly
  obtain ⟨s, hcopy, hs⟩ := copyData_spec (p := pageAddr q) (q := pageAddr p) hview
    (Memory.accessed_self hcoh f) (by decide : (4096 : Int).toNat ≤ 2 ^ 32)
    (noClobber_pageAddr hq hp hne) (fun i hi => by rw [pageAddr_div hq hi, hsrc])
    (fun i hi => pageAddr_div hp hi)
  refine ⟨s, hcopy, hs.same, hs.ram, ?_⟩
  intro off hoff
  have hread : s.bytes (pageAddr p + BitVec.ofNat 32 off) = s.ram f off := by
    rw [bytes_pageAddr s hp hoff, hs.same.entryAt, hdst]
  have hsub : pageAddr p + BitVec.ofNat 32 off - pageAddr p = BitVec.ofNat 32 off :=
    add_sub_cancel_left _ _
  have hoff' : (BitVec.ofNat 32 off).toNat < (4096 : Int).toNat := by
    rw [BitVec.toNat_ofNat]
    unfold PAGE_SIZE at hoff
    omega
  rw [← hread, hs.bytes, copied, hsub, if_pos hoff', bytes_pageAddr m hq hoff]

/-- What the active table gives while a frame is mapped at the temporary page. -/
theorem entryAt_setSsPag {s : Memory} {cur : Slot} (hdir : s.dirPages cur = ⟨true, true, true, cur⟩)
    (hcr3 : s.cr3 = some cur) (frame : Int) (p : Nat) :
    (setSsPag cur tempPag frame s).entryAt p =
      if p = tempPag then
        { PageTableEntry.zero.setBase frame with user := true, rw := true, present := true }
      else s.pagusrTable cur p := by
  have hdir' : (setSsPag cur tempPag frame s).entryAt p =
      (setSsPag cur tempPag frame s).pagusrTable cur p := by
    simp [Memory.entryAt, setSsPag, Memory.setEntry, hcr3, hdir]
  rw [hdir', setSsPag, Memory.setEntry_apply]
  simp

/-- The cache may know old entries, but none for the temporary page. -/
theorem coherent_setSsPag {s : Memory} {cur : Slot}
    (hdir : s.dirPages cur = ⟨true, true, true, cur⟩) (hcr3 : s.cr3 = some cur)
    (htemp : s.pagusrTable cur tempPag = .zero) (hcoh : s.Coherent) (frame : Int) :
    (setSsPag cur tempPag frame s).Coherent := by
  have hentry : ∀ p, s.entryAt p = s.pagusrTable cur p := by
    intro p
    simp [Memory.entryAt, hcr3, hdir]
  refine hcoh.congr rfl ?_
  intro p hp
  have hne : p ≠ tempPag := by
    rintro rfl
    rw [hentry, htemp] at hp
    simp [PageTableEntry.zero] at hp
  rw [entryAt_setSsPag hdir hcr3, if_neg hne, hentry]

/-- Mapping a page of another process leaves the parent's table alone. -/
theorem mapData_other (m : Memory) {cur new : Slot} (hne : new ≠ cur) (d f p : Nat) :
    (m.mapData new d f).pagusrTable cur p = m.pagusrTable cur p := by
  rw [Memory.mapData, Memory.setEntry_apply, if_neg fun h => hne h.1.symm]

/-- Filling one data page of the child: a fresh frame is mapped in the child and holds a copy of
the parent's page, and nothing else changes. -/
theorem forkDataPage_spec {m : Memory} {own : Finset (Slot × Nat)} {cur new : Slot} {d : Nat}
    (ht : Tables m) (hc : CodeMapped m cur) (ho : Owns m own)
    (hcur : ∀ e, e < NUM_PAG_DATA → (cur, e) ∈ own) (hne : new ≠ cur) (hd : d < NUM_PAG_DATA)
    (hcard : own.card < 376) (hcr3 : m.cr3 = some cur) (hcoh : m.Coherent) :
    ∃ f m', forkDataPage (some cur) new cur d (true, m) = some (true, m') ∧
      f ∉ m.usedFrames own ∧ f < TOTAL_PAGES ∧ Memory.SameTables (m.mapData new d f) m' ∧
      m'.Coherent ∧ (∀ g, g ≠ f → m'.ram g = m.ram g) ∧
      ∀ off, off < PAGE_SIZE → m'.ram f off = m.ram (m.dataFrame (cur, d)) off := by
  obtain ⟨f, halloc, hfresh, hlt⟩ := ho.allocFrame hcard
  set m₁ := m.mapData new d f with hm₁
  set m₂ := setSsPag cur tempPag f m₁ with hm₂
  have hdir : m₁.dirPages cur = ⟨true, true, true, cur⟩ := ht.dir cur
  have hentry : ∀ p, m₂.entryAt p =
      if p = tempPag then ⟨true, true, true, f⟩ else m.pagusrTable cur p := by
    intro p
    rw [hm₂, entryAt_setSsPag hdir hcr3, setBase_ofNat _ hlt, hm₁, mapData_other m hne]
  have hpage : PAG_LOG_INIT_DATA + d < 1024 ∧ PAG_LOG_INIT_DATA + d ≠ tempPag := by
    simp only [PAG_LOG_INIT_DATA, tempPag]
    unfold NUM_PAG_DATA at hd
    omega
  have hsource : m₂.entryAt (PAG_LOG_INIT_DATA + d) = ⟨true, true, true, m.dataFrame (cur, d)⟩ := by
    rw [hentry, if_neg hpage.2]
    exact ho.entry (cur, d) (hcur d hd)
  have htemp : m₁.pagusrTable cur tempPag = .zero := by
    rw [hm₁, mapData_other m hne]
    exact ht.absent cur tempPag (.inr (by decide))
  have hcoh₁ : m₁.Coherent := by
    refine hcoh.congr rfl ?_
    intro p _
    rw [ht.entryAt hcr3, ← mapData_other m hne d f p]
    simp [Memory.entryAt, hm₁, Memory.mapData, Memory.setEntry, hcr3, ht.dir]
  have hcoh₂ : m₂.Coherent := coherent_setSsPag hdir hcr3 htemp hcoh₁ f
  have honly : ∀ q, q ≠ tempPag → (m₂.entryAt q).pbaseAddr ≠ f := by
    intro q hq hqf
    rw [hentry, if_neg hq] at hqf
    exact hfresh (hqf ▸ pbaseAddr_mem_usedFrames ht hc hcur q)
  obtain ⟨s, hcopy, hsame, hram, hbytes⟩ := copyPage_spec hcoh₂ (by decide) hpage.1 hpage.2
    (by rw [hentry, if_pos rfl]) (by rw [hsource]) honly
  set m₃ := setCr3 (some cur) (delSsPag cur tempPag s) with hm₃
  refine ⟨f, m₃, ?_, hfresh, hlt, ⟨hsame.dirPages, ?_, hsame.physMem, ?_⟩,
    Memory.coherent_setCr3 _ _, hram, ?_⟩
  · have hmap : { m with physMem := Function.update m.physMem f USED_FRAME }.setEntry new
        (PAG_LOG_INIT_DATA + d) { PageTableEntry.zero.setBase (f : Int) with
          user := true, rw := true, present := true } = m₁ := by
      rw [setBase_ofNat _ hlt]
      rfl
    simp only [forkDataPage, halloc, hmap, ← hm₂, hcopy]
    simp [hm₃]
  · -- the temporary page is absent again
    have htables : (delSsPag cur tempPag s).pagusrTable =
        ((m₁.setEntry cur tempPag ⟨true, true, true, f⟩).setEntry cur tempPag
          .zero).pagusrTable := by
      have htab := hsame.pagusrTable
      rw [hm₂, setSsPag, setBase_ofNat _ hlt] at htab
      simp only [delSsPag, Memory.setEntry, htab]
    rw [hm₃, setCr3, htables]
    exact Memory.setEntry_restore _ _ _ _ _ htemp
  · rw [hm₃, setCr3]
    exact hcr3.symm
  · intro off hoff
    rw [hm₃]
    change s.ram f off = _
    rw [hbytes off hoff, hsource]
    rfl

/-- The loop that shares the code pages copies the parent's entries. -/
theorem forkCodePages_eq (new cur : Slot) (hne : new ≠ cur) (m : Memory) (n : Nat) :
    ∃ T, forRange (forkCodePage new cur) n m = { m with pagusrTable := T } ∧
      ∀ t p, T t p =
        if t = new ∧ PAG_LOG_INIT_CODE ≤ p ∧ p < PAG_LOG_INIT_CODE + n then m.pagusrTable cur p
        else m.pagusrTable t p := by
  refine forRange_inv (P := fun i s => ∃ T, s = { m with pagusrTable := T } ∧ ∀ t p, T t p =
    if t = new ∧ PAG_LOG_INIT_CODE ≤ p ∧ p < PAG_LOG_INIT_CODE + i then m.pagusrTable cur p
    else m.pagusrTable t p) ⟨m.pagusrTable, rfl, ?_⟩ ?_
  · intro t p
    rw [if_neg (by omega)]
  · rintro i - - ⟨T, rfl, hT⟩
    refine ⟨_, rfl, ?_⟩
    intro t p
    have hcur : T cur (PAG_LOG_INIT_CODE + i) = m.pagusrTable cur (PAG_LOG_INIT_CODE + i) := by
      rw [hT, if_neg fun h => hne h.1.symm]
    have hset := Memory.setEntry_apply new (PAG_LOG_INIT_CODE + i) (T cur (PAG_LOG_INIT_CODE + i))
      { m with pagusrTable := T } t p
    refine Eq.trans hset ?_
    change (if t = new ∧ p = PAG_LOG_INIT_CODE + i then T cur (PAG_LOG_INIT_CODE + i)
      else T t p) = _
    rw [hcur, hT]
    by_cases htn : t = new
    · by_cases hp : p = PAG_LOG_INIT_CODE + i
      · simp [htn, hp]
      · have hiff : (PAG_LOG_INIT_CODE ≤ p ∧ p < PAG_LOG_INIT_CODE + (i + 1)) ↔
            (PAG_LOG_INIT_CODE ≤ p ∧ p < PAG_LOG_INIT_CODE + i) := by omega
        simp [htn, hp, hiff]
    · simp [htn]

/-- The state after `i` data pages of `new` have been filled from `cur`, starting from `m`. -/
structure ForkProgress (m : Memory) (live : Finset Slot) (cur new : Slot) (i : Nat)
    (m' : Memory) : Prop where
  tables : Tables m'
  code : ∀ t ∈ insert new live, CodeMapped m' t
  owns : Owns m' (live ×ˢ Finset.range NUM_PAG_DATA ∪ {new} ×ˢ Finset.range i)
  cr3 : m'.cr3 = some cur
  coherent : m'.Coherent
  others : ∀ t, t ≠ new → m'.pagusrTable t = m.pagusrTable t
  ram : ∀ g ∈ m.usedFrames (live ×ˢ Finset.range NUM_PAG_DATA), m'.ram g = m.ram g
  copies : ∀ d, d < i → ∀ off, off < PAGE_SIZE →
    m'.ram (m'.dataFrame (new, d)) off = m.ram (m.dataFrame (cur, d)) off

theorem insert_product_range (own : Finset (Slot × Nat)) (new : Slot) (i : Nat) :
    insert (new, i) (own ∪ {new} ×ˢ Finset.range i) = own ∪ {new} ×ˢ Finset.range (i + 1) := by
  rw [Finset.range_add_one, Finset.singleton_product, Finset.singleton_product, Finset.map_insert,
    Finset.union_insert]
  rfl

/-- Nine processes and a part of a tenth own fewer pages than there are frames to give. -/
theorem card_own_lt {live : Finset Slot} {new : Slot} {i : Nat} (hnew : new ∉ live)
    (hi : i < NUM_PAG_DATA) :
    (live ×ˢ Finset.range NUM_PAG_DATA ∪ {new} ×ˢ Finset.range i).card < 376 := by
  have hlive : live.card < 10 := by
    simpa using Finset.card_lt_univ_of_notMem hnew
  have hle := Finset.card_union_le (live ×ˢ Finset.range NUM_PAG_DATA) ({new} ×ˢ Finset.range i)
  simp only [Finset.card_product, Finset.card_range, Finset.card_singleton] at hle
  unfold NUM_PAG_DATA at hle hi ⊢
  omega

/-- The allocation of the next page does not fail. -/
theorem ForkProgress.alloc {m m' : Memory} {live : Finset Slot} {cur new : Slot} {i : Nat}
    (h : ForkProgress m live cur new i m') (hnew : new ∉ live) (hi : i < NUM_PAG_DATA) :
    (allocFrame m'.physMem).1 ≠ -1 := by
  obtain ⟨f, hf, -, -⟩ := h.owns.allocFrame (card_own_lt hnew hi)
  rw [hf]
  simp

/-- The frames that were in use before the fork still are. -/
theorem ForkProgress.usedFrames_subset {m m' : Memory} {live : Finset Slot} {cur new : Slot}
    {i : Nat} (h : ForkProgress m live cur new i m') (hnew : new ∉ live) :
    m.usedFrames (live ×ˢ Finset.range NUM_PAG_DATA) ⊆
      m'.usedFrames (live ×ˢ Finset.range NUM_PAG_DATA ∪ {new} ×ˢ Finset.range i) := by
  unfold Memory.usedFrames
  refine Finset.union_subset_union_right ?_
  intro g hg
  obtain ⟨x, hx, rfl⟩ := Finset.mem_image.mp hg
  refine Finset.mem_image.mpr ⟨x, Finset.mem_union_left _ hx, ?_⟩
  rw [Memory.dataFrame, h.others x.1, Memory.dataFrame]
  rintro he
  exact hnew (he ▸ (Finset.mem_product.mp hx).1)

theorem ForkProgress.step {m m' : Memory} {live : Finset Slot} {cur new : Slot} {i : Nat}
    (h : ForkProgress m live cur new i m') (hcur : cur ∈ live) (hnew : new ∉ live)
    (hi : i < NUM_PAG_DATA) :
    ∃ c, forkDataPage (some cur) new cur i (true, m') = some (true, c) ∧
      ForkProgress m live cur new (i + 1) c := by
  have hne : new ≠ cur := by rintro rfl; exact hnew hcur
  set own := live ×ˢ Finset.range NUM_PAG_DATA ∪ {new} ×ˢ Finset.range i with hown
  have hcard : own.card < 376 := card_own_lt hnew hi
  have hmem : ∀ d, d < NUM_PAG_DATA → (cur, d) ∈ own := by
    intro d hd
    simp [hown, hcur, Finset.mem_range.mpr hd]
  have hout : (new, i) ∉ own := by simp [hown, hnew]
  obtain ⟨f, c, hstep, hfresh, hlt, hsame, hcoh, hram, hcopy⟩ := forkDataPage_spec h.tables
    (h.code cur (Finset.mem_insert_of_mem hcur)) h.owns hmem hne hi hcard h.cr3 h.coherent
  have htable : ∀ t p, c.pagusrTable t p =
      if t = new ∧ p = PAG_LOG_INIT_DATA + i then ⟨true, true, true, f⟩
      else m'.pagusrTable t p := by
    intro t p
    rw [hsame.pagusrTable]
    exact Memory.setEntry_apply ..
  have hframe : ∀ x, x ≠ (new, i) → c.dataFrame x = m'.dataFrame x := by
    intro x hx
    have : c.dataFrame = Function.update m'.dataFrame (new, i) f := by
      rw [← Memory.dataFrame_setEntry m' (new, i) ⟨true, true, true, f⟩]
      funext y
      rw [Memory.dataFrame, hsame.pagusrTable]
      rfl
    rw [this, Function.update_of_ne hx]
  have hbase : ∀ g ∈ m'.usedFrames own, c.ram g = m'.ram g := by
    intro g hg
    refine hram g ?_
    rintro rfl
    exact hfresh hg
  refine ⟨c, hstep, ?_, ?_, ?_, ?_, hcoh, ?_, ?_, ?_⟩
  · refine h.tables.congr hsame.dirPages ?_
    intro t p hp
    rw [htable, if_neg]
    rintro ⟨-, rfl⟩
    simp only [PAG_LOG_INIT_CODE, PAG_LOG_INIT_DATA, NUM_PAG_CODE, NUM_PAG_DATA] at hp hi
    omega
  · intro t ht
    refine (h.code t ht).congr ?_
    intro p hp
    rw [htable, if_neg]
    rintro ⟨-, rfl⟩
    simp only [PAG_LOG_INIT_CODE, PAG_LOG_INIT_DATA, NUM_PAG_DATA] at hp hi
    omega
  · rw [← insert_product_range, ← hown]
    exact (h.owns.mapData hout hi hfresh hlt).congr hsame.physMem
      fun x _ => by rw [hsame.pagusrTable]
  · rw [hsame.cr3]
    exact h.cr3
  · intro t ht
    funext p
    rw [htable, if_neg fun hp => ht hp.1, h.others t ht]
  · intro g hg
    rw [← h.ram g hg]
    refine hbase g ?_
    exact h.usedFrames_subset hnew hg
  · intro d hd off hoff
    rcases Nat.lt_succ_iff_lt_or_eq.mp hd with hd | rfl
    · rw [hframe _ (by simpa using Nat.ne_of_lt hd), ← h.copies d hd off hoff, hbase]
      refine Finset.mem_union_right _ (Finset.mem_image_of_mem _ ?_)
      simp [hown, hd]
    · have hnewf : c.dataFrame (new, d) = f := by
        rw [Memory.dataFrame, htable, if_pos ⟨rfl, rfl⟩]
      rw [hnewf, hcopy off hoff]
      have hsrc : m'.dataFrame (cur, d) = m.dataFrame (cur, d) := by
        rw [Memory.dataFrame, h.others cur (Ne.symm hne), Memory.dataFrame]
      rw [hsrc, h.ram]
      refine Finset.mem_union_right _ (Finset.mem_image_of_mem _ ?_)
      simp [hcur, Finset.mem_range.mpr hi]

/-- The state before the first data page. -/
theorem forkProgress_zero {m : Memory} {live : Finset Slot} {cur new : Slot}
    (h : AddressSpaces m live) (hcur : cur ∈ live) (hnew : new ∉ live) (hcr3 : m.cr3 = some cur)
    (hcoh : m.Coherent) :
    ForkProgress m live cur new 0 (forRange (forkCodePage new cur) NUM_PAG_CODE m) := by
  have hne : new ≠ cur := by rintro rfl; exact hnew hcur
  obtain ⟨T, hT, htable⟩ := forkCodePages_eq new cur hne m NUM_PAG_CODE
  have hdata : ∀ t p, ¬ (PAG_LOG_INIT_CODE ≤ p ∧ p < PAG_LOG_INIT_CODE + NUM_PAG_CODE) →
      T t p = m.pagusrTable t p := by
    intro t p hp
    rw [htable, if_neg fun hp' => hp hp'.2]
  have hother : ∀ t, t ≠ new → T t = m.pagusrTable t := by
    intro t ht
    funext p
    rw [htable, if_neg fun hp => ht hp.1]
  rw [hT]
  refine ⟨?_, ?_, ?_, hcr3, ?_, hother, fun _ _ => rfl, fun d hd => absurd hd (by omega)⟩
  · refine h.tables.congr rfl ?_
    intro t p hp
    refine hdata t p ?_
    simp only [PAG_LOG_INIT_CODE, PAG_LOG_INIT_DATA, NUM_PAG_CODE, NUM_PAG_DATA] at hp ⊢
    omega
  · intro t ht
    rcases Finset.mem_insert.mp ht with rfl | hlive
    · intro c hc
      change T t (PAG_LOG_INIT_CODE + c) = _
      rw [htable, if_pos ⟨rfl, by omega, by omega⟩, h.code cur hcur c hc]
    · refine (h.code t hlive).congr fun p _ => ?_
      have htn : t ≠ new := by rintro rfl; exact hnew hlive
      change T t p = _
      rw [hother t htn]
  · have hempty : live ×ˢ Finset.range NUM_PAG_DATA ∪ {new} ×ˢ Finset.range 0 =
        live ×ˢ Finset.range NUM_PAG_DATA := by simp
    rw [hempty]
    refine h.owns.congr rfl fun x hx => hdata _ _ ?_
    have := h.owns.bound x hx
    simp only [PAG_LOG_INIT_CODE, PAG_LOG_INIT_DATA, NUM_PAG_CODE, NUM_PAG_DATA] at this ⊢
    omega
  · refine hcoh.congr rfl fun page _ => ?_
    simp [Memory.entryAt, hcr3, h.tables.dir, hother cur (Ne.symm hne)]

/-- No prefix of the loop over the data pages runs out of frames. -/
theorem forkDataPages_spec {m : Memory} {live : Finset Slot} {cur new : Slot}
    (h : AddressSpaces m live) (hcur : cur ∈ live) (hnew : new ∉ live) (hcr3 : m.cr3 = some cur)
    (hcoh : m.Coherent) {n : Nat} (hn : n ≤ NUM_PAG_DATA) :
    ∃ m', forRangeM (forkDataPage (some cur) new cur) n
        (true, forRange (forkCodePage new cur) NUM_PAG_CODE m) = some (true, m') ∧
      ForkProgress m live cur new n m' := by
  obtain ⟨⟨more, m'⟩, hloop, hmore, hP⟩ := forRangeM_inv
    (f := forkDataPage (some cur) new cur) (n := n)
    (a := (true, forRange (forkCodePage new cur) NUM_PAG_CODE m))
    (P := fun i s => s.1 = true ∧ ForkProgress m live cur new i s.2)
    ⟨rfl, forkProgress_zero h hcur hnew hcr3 hcoh⟩ (by
      rintro i ⟨more, s⟩ hi ⟨rfl, hs⟩
      obtain ⟨c, hc, hP⟩ := hs.step hcur hnew (by omega)
      exact ⟨(true, c), hc, rfl, hP⟩)
  obtain rfl : more = true := hmore
  exact ⟨m', hloop, hP⟩

theorem ForkProgress.addressSpaces {m m' : Memory} {live : Finset Slot} {cur new : Slot}
    (h : ForkProgress m live cur new NUM_PAG_DATA m') : AddressSpaces m' (insert new live) := by
  refine ⟨h.tables, h.code, ?_⟩
  rw [Finset.insert_eq, Finset.union_comm, Finset.union_product]
  exact h.owns

/-! ## `sys_exit` -/

/-- The state after `i` data pages of `t` have been given back, starting from `m`. -/
structure FreeProgress (m : Memory) (own : Finset (Slot × Nat)) (t : Slot) (i : Nat)
    (m' : Memory) : Prop where
  dirPages : m'.dirPages = m.dirPages
  ram : m'.ram = m.ram
  table : ∀ u p, m'.pagusrTable u p =
    if u = t ∧ PAG_LOG_INIT_DATA ≤ p ∧ p < PAG_LOG_INIT_DATA + i then .zero
    else m.pagusrTable u p
  owns : Owns m' (own \ {t} ×ˢ Finset.range i)

theorem freeUserPages_progress {m : Memory} {own : Finset (Slot × Nat)} {t : Slot}
    (h : Owns m own) (ht : ∀ d, d < NUM_PAG_DATA → (t, d) ∈ own) :
    FreeProgress m own t NUM_PAG_DATA (freeUserPages t m) := by
  refine forRange_inv (FreeProgress m own t) ⟨rfl, rfl, ?_, by simpa using h⟩ ?_
  · intro u p
    rw [if_neg (by omega)]
  · intro i s hi hs
    refine ⟨hs.dirPages, hs.ram, ?_, ?_⟩
    · intro u p
      rw [freeUserPage, Memory.setEntry_apply]
      change (if u = t ∧ p = PAG_LOG_INIT_DATA + i then _ else s.pagusrTable u p) = _
      rw [hs.table]
      by_cases hu : u = t
      · by_cases hp : p = PAG_LOG_INIT_DATA + i
        · simp [hu, hp]
        · have hiff : (PAG_LOG_INIT_DATA ≤ p ∧ p < PAG_LOG_INIT_DATA + (i + 1)) ↔
              (PAG_LOG_INIT_DATA ≤ p ∧ p < PAG_LOG_INIT_DATA + i) := by omega
          simp [hu, hp, hiff]
      · simp [hu]
    · have herase : own \ {t} ×ˢ Finset.range (i + 1) =
          (own \ {t} ×ˢ Finset.range i).erase (t, i) := by
        rw [← Finset.sdiff_insert, Finset.range_add_one, Finset.singleton_product,
          Finset.singleton_product, Finset.map_insert]
        rfl
      rw [herase]
      exact hs.owns.freeUserPage (by simp [ht i hi])

/-- Freeing the pages of a live slot leaves the other address spaces as they were. -/
theorem freeUserPages_spec {m : Memory} {live : Finset Slot} {t : Slot}
    (h : AddressSpaces m live) (ht : t ∈ live) :
    AddressSpaces (freeUserPages t m) (live.erase t) := by
  have hp := freeUserPages_progress h.owns (t := t) (by
    intro d hd
    simp [ht, Finset.mem_range.mpr hd])
  refine ⟨?_, ?_, ?_⟩
  · refine h.tables.congr hp.dirPages ?_
    intro u p hp'
    rw [hp.table, if_neg]
    simp only [PAG_LOG_INIT_CODE, PAG_LOG_INIT_DATA, NUM_PAG_CODE, NUM_PAG_DATA] at hp' ⊢
    omega
  · intro u hu
    refine (h.code u (Finset.mem_of_mem_erase hu)).congr ?_
    intro p _
    rw [hp.table, if_neg fun hp' => Finset.ne_of_mem_erase hu hp'.1]
  · have hset : live.erase t ×ˢ Finset.range NUM_PAG_DATA =
        live ×ˢ Finset.range NUM_PAG_DATA \ {t} ×ˢ Finset.range NUM_PAG_DATA := by
      ext ⟨u, d⟩
      simp only [Finset.mem_product, Finset.mem_erase, Finset.mem_sdiff, Finset.mem_singleton]
      tauto
    rw [hset]
    exact hp.owns

/-! ## Start-up -/

/-- The allocator takes the candidates in order. -/
theorem allocFrame_eq {physMem : Nat → Byte} {i : Nat} (hi : i < 384)
    (hfree : physMem (codeFrame i) = FREE_FRAME)
    (hused : ∀ j, j < i → physMem (codeFrame j) ≠ FREE_FRAME) :
    allocFrame physMem =
      ((codeFrame i : Int), Function.update physMem (codeFrame i) USED_FRAME) := by
  have hcand : Candidate (codeFrame i) := by
    simp only [Candidate, codeFrame, NUM_PAG_KERNEL, TOTAL_PAGES]
    omega
  have hfound : (allocFrame physMem).1 ≠ -1 := fun hnone =>
    allocFrame_none.1.mp hnone _ hcand hfree
  obtain ⟨f, hf⟩ := (allocFrame_cases physMem).resolve_left hfound
  obtain ⟨⟨hlo, -, heven⟩, hfree', hsmall, hmap⟩ := allocFrame_some hf
  have hle := hsmall _ hcand hfree
  -- the frame is one of the candidates up to `codeFrame i`, of which the others are in use
  obtain ⟨j, rfl⟩ : ∃ j, f = codeFrame j := ⟨(f - 256) / 2, by
    simp only [codeFrame, NUM_PAG_KERNEL] at hlo ⊢
    omega⟩
  obtain rfl : j = i := by
    by_contra hne
    refine hused j ?_ hfree'
    simp only [codeFrame] at hle
    omega
  exact Prod.ext hf hmap

/-- The marks after `i` code pages have been allocated. -/
def startMarks (i : Nat) (physMem : Nat → Byte) : Prop :=
  ∀ f, f < TOTAL_PAGES →
    physMem f = if f < NUM_PAG_KERNEL ∨ ∃ c, c < i ∧ codeFrame c = f then USED_FRAME
      else FREE_FRAME

/-- The tables after `i` code pages of `t` have been mapped and nothing else. -/
structure StartProgress (t : Slot) (i : Nat) (m : Memory) : Prop where
  tables : Tables m
  code : ∀ c, c < i → m.pagusrTable t (PAG_LOG_INIT_CODE + c) = ⟨true, false, true, codeFrame c⟩
  marks : startMarks i m.physMem

theorem StartProgress.step {t : Slot} {i : Nat} {m : Memory} (h : StartProgress t i m)
    (hi : i < NUM_PAG_CODE) : StartProgress t (i + 1) (setUserCodePage t i m) := by
  unfold NUM_PAG_CODE at hi
  have hlt : ∀ c, c ≤ i → codeFrame c < TOTAL_PAGES := by
    intro c hc
    simp only [codeFrame, NUM_PAG_KERNEL, TOTAL_PAGES]
    omega
  have halloc : allocFrame m.physMem =
      ((codeFrame i : Int), Function.update m.physMem (codeFrame i) USED_FRAME) := by
    apply allocFrame_eq (by omega)
    · rw [h.marks _ (hlt i le_rfl), if_neg]
      simp only [codeFrame, NUM_PAG_KERNEL]
      omega
    · intro j hj
      rw [h.marks _ (hlt j hj.le), if_pos (.inr ⟨j, hj, rfl⟩)]
      decide
  have hstep : setUserCodePage t i m =
      { m with physMem := Function.update m.physMem (codeFrame i) USED_FRAME }.setEntry t
        (PAG_LOG_INIT_CODE + i) ⟨true, false, true, codeFrame i⟩ := by
    simp only [setUserCodePage, halloc, setBase_ofNat _ (hlt i le_rfl)]
    rfl
  rw [hstep]
  refine ⟨h.tables.congr rfl ?_, ?_, ?_⟩
  · intro u p hp
    rw [Memory.setEntry_apply, if_neg]
    simp only [PAG_LOG_INIT_CODE, PAG_LOG_INIT_DATA, NUM_PAG_CODE, NUM_PAG_DATA] at hp ⊢
    omega
  · intro c hc
    rw [Memory.setEntry_apply]
    by_cases hci : c = i
    · simp [hci]
    · rw [if_neg (by omega)]
      exact h.code c (by omega)
  · intro f hf
    change Function.update m.physMem (codeFrame i) USED_FRAME f = _
    rw [Function.update_apply, h.marks f hf]
    by_cases hfi : f = codeFrame i
    · rw [if_pos hfi, if_pos (.inr ⟨i, by omega, hfi.symm⟩)]
    · have hiff : (∃ c, c < i + 1 ∧ codeFrame c = f) ↔ ∃ c, c < i ∧ codeFrame c = f := by
        constructor
        · rintro ⟨c, hc, rfl⟩
          refine ⟨c, ?_, rfl⟩
          have : c ≠ i := by rintro rfl; exact hfi rfl
          omega
        · rintro ⟨c, hc, rfl⟩
          exact ⟨c, by omega, rfl⟩
      simp only [hfi, if_false, hiff]

theorem setUserDataPage_eq {m : Memory} {own : Finset (Slot × Nat)} (t : Slot) (d : Nat)
    (h : Owns m own) (hcard : own.card < 376) :
    ∃ f, setUserDataPage t d m = m.mapData t d f ∧ f ∉ m.usedFrames own ∧ f < TOTAL_PAGES := by
  obtain ⟨f, halloc, hfresh, hlt⟩ := h.allocFrame hcard
  refine ⟨f, ?_, hfresh, hlt⟩
  simp only [setUserDataPage, halloc, setBase_ofNat _ hlt]
  rfl

/-- `set_user_pages` gives the first process its address space. -/
theorem setUserPages_spec {m : Memory} {t : Slot} (h : StartProgress t 0 m) :
    AddressSpaces (setUserPages t m) {t} := by
  set m₁ := forRange (setUserCodePage t) NUM_PAG_CODE m with hm₁
  have h₁ : StartProgress t NUM_PAG_CODE m₁ :=
    forRange_inv (StartProgress t) h fun i s hi hs => hs.step hi
  have howns : Owns m₁ ∅ := by
    refine ⟨by simp, by simp, by simp, by simp, ?_⟩
    intro f hf
    have hiff : f ∈ m₁.usedFrames ∅ ↔
        f < NUM_PAG_KERNEL ∨ ∃ c, c < NUM_PAG_CODE ∧ codeFrame c = f := by
      simp [Memory.usedFrames, fixedFrames]
    simp only [hiff, h₁.marks f hf]
  obtain ⟨ht, hc, ho⟩ : Tables (setUserPages t m) ∧ CodeMapped (setUserPages t m) t ∧
      Owns (setUserPages t m) (∅ ∪ {t} ×ˢ Finset.range NUM_PAG_DATA) := by
    refine forRange_inv (fun i s => Tables s ∧ CodeMapped s t ∧ Owns s (∅ ∪ {t} ×ˢ Finset.range i))
      ⟨h₁.tables, h₁.code, by simpa using howns⟩ ?_
    rintro d s hd ⟨ht, hc, ho⟩
    have hcard : (∅ ∪ {t} ×ˢ Finset.range d : Finset (Slot × Nat)).card < 376 := by
      simp only [Finset.empty_union, Finset.card_product, Finset.card_singleton, Finset.card_range]
      unfold NUM_PAG_DATA at hd
      omega
    obtain ⟨f, hstep, hfresh, hlt⟩ := setUserDataPage_eq t d ho hcard
    rw [hstep, ← insert_product_range]
    refine ⟨?_, ?_, ho.mapData (by simp) hd hfresh hlt⟩
    · refine ht.congr rfl ?_
      intro u p hp
      rw [Memory.mapData, Memory.setEntry_apply, if_neg]
      simp only [PAG_LOG_INIT_CODE, PAG_LOG_INIT_DATA, NUM_PAG_CODE, NUM_PAG_DATA] at hp hd ⊢
      omega
    · refine hc.congr ?_
      intro p hp
      rw [Memory.mapData, Memory.setEntry_apply, if_neg]
      simp only [PAG_LOG_INIT_CODE, PAG_LOG_INIT_DATA, NUM_PAG_DATA] at hp hd ⊢
      omega
  exact ⟨ht, by simpa using hc, by simpa using ho⟩

end ZeOS
