import Mathlib.Data.Finset.Prod
import ZeOS.Memory.Frames

/-!
# Ownership of frames

Between steps the frame map marks exactly the kernel's frames, the eight frames of the shared code
and one frame for each data page that a live slot owns, and no two owned pages share a frame. The
set of owned pages grows by one page at a time in `sys_fork` and shrinks by one at a time in
`sys_exit`; the rules here say what one page does to the map.
-/
namespace ZeOS
open Lib

/-- The frame of a page of the shared code, as allocated at start-up. -/
def codeFrame (pag : Nat) : Nat := NUM_PAG_KERNEL + 2 * pag

/-- The frames that stay in use for ever. -/
def fixedFrames : Finset Nat :=
  Finset.range NUM_PAG_KERNEL ∪ (Finset.range NUM_PAG_CODE).image codeFrame

theorem mem_fixedFrames {f : Nat} :
    f ∈ fixedFrames ↔ f < 256 ∨ ∃ c < 8, 256 + 2 * c = f := by
  simp [fixedFrames, codeFrame]

theorem card_fixedFrames : fixedFrames.card = 264 := by
  have hdisj : Disjoint (Finset.range NUM_PAG_KERNEL)
      ((Finset.range NUM_PAG_CODE).image codeFrame) := by
    rw [Finset.disjoint_left]
    intro f hf hcode
    obtain ⟨c, -, rfl⟩ := Finset.mem_image.mp hcode
    exact absurd (Finset.mem_range.mp hf) (Nat.not_lt.mpr (Nat.le_add_right _ _))
  have hinj : Function.Injective codeFrame := by
    intro c d h
    unfold codeFrame at h
    omega
  have hcard : fixedFrames.card = NUM_PAG_KERNEL + NUM_PAG_CODE := by
    rw [fixedFrames, Finset.card_union_of_disjoint hdisj, Finset.card_image_of_injective _ hinj,
      Finset.card_range, Finset.card_range]
  exact hcard

namespace Memory

theorem setEntry_apply (pt : Slot) (page : Nat) (e : PageTableEntry) (m : Memory) (t : Slot)
    (p : Nat) :
    (m.setEntry pt page e).pagusrTable t p =
      if t = pt ∧ p = page then e else m.pagusrTable t p := by
  by_cases ht : t = pt
  · subst ht
    simp [setEntry, Function.update_apply]
  · simp [setEntry, ht]

/-- Setting an entry and then putting back what was there leaves the table as it was. -/
theorem setEntry_restore (pt : Slot) (page : Nat) (e e' : PageTableEntry) (m : Memory)
    (h : m.pagusrTable pt page = e') :
    ((m.setEntry pt page e).setEntry pt page e').pagusrTable = m.pagusrTable := by
  funext t p
  rw [setEntry_apply, setEntry_apply]
  by_cases hp : t = pt ∧ p = page
  · rw [if_pos hp, hp.1, hp.2, h]
  · rw [if_neg hp, if_neg hp]

/-- The frame behind data page `x.2` of slot `x.1`. -/
def dataFrame (m : Memory) (x : Slot × Nat) : Nat :=
  (m.pagusrTable x.1 (PAG_LOG_INIT_DATA + x.2)).pbaseAddr

theorem dataFrame_setEntry (m : Memory) (x : Slot × Nat) (e : PageTableEntry) :
    (m.setEntry x.1 (PAG_LOG_INIT_DATA + x.2) e).dataFrame =
      Function.update m.dataFrame x e.pbaseAddr := by
  funext y
  by_cases h : y = x
  · subst h
    simp [dataFrame, setEntry_apply]
  · have hne : ¬ (y.1 = x.1 ∧ PAG_LOG_INIT_DATA + y.2 = PAG_LOG_INIT_DATA + x.2) := by
      rintro ⟨h₁, h₂⟩
      exact h (Prod.ext h₁ (Nat.add_left_cancel h₂))
    rw [Function.update_of_ne h, dataFrame, setEntry_apply, if_neg hne]
    rfl

/-- The frames in use when the pages in `own` are mapped. -/
def usedFrames (m : Memory) (own : Finset (Slot × Nat)) : Finset Nat :=
  fixedFrames ∪ own.image m.dataFrame

end Memory

/-- The pages in `own` are mapped writable to frames of their own, and the frame map says so. -/
structure Owns (m : Memory) (own : Finset (Slot × Nat)) : Prop where
  bound : ∀ x ∈ own, x.2 < NUM_PAG_DATA
  entry : ∀ x ∈ own,
    m.pagusrTable x.1 (PAG_LOG_INIT_DATA + x.2) = ⟨true, true, true, m.dataFrame x⟩
  inj : Set.InjOn m.dataFrame own
  range : ∀ x ∈ own, m.dataFrame x ∉ fixedFrames ∧ m.dataFrame x < TOTAL_PAGES
  marks : ∀ f, f < TOTAL_PAGES →
    m.physMem f = if f ∈ m.usedFrames own then USED_FRAME else FREE_FRAME

namespace Owns

variable {m : Memory} {own : Finset (Slot × Nat)}

/-- Only the frame map and the entries of the owned pages matter. -/
theorem congr (h : Owns m own) {m' : Memory} (hp : m'.physMem = m.physMem)
    (ht : ∀ x ∈ own, m'.pagusrTable x.1 (PAG_LOG_INIT_DATA + x.2) =
      m.pagusrTable x.1 (PAG_LOG_INIT_DATA + x.2)) : Owns m' own := by
  have frame : ∀ x ∈ own, m'.dataFrame x = m.dataFrame x := by
    intro x hx
    rw [Memory.dataFrame, ht x hx, Memory.dataFrame]
  have used : m'.usedFrames own = m.usedFrames own := by
    rw [Memory.usedFrames, Memory.usedFrames, Finset.image_congr frame]
  refine ⟨h.bound, ?_, ?_, ?_, ?_⟩
  · intro x hx
    rw [ht x hx, frame x hx, h.entry x hx]
  · intro x hx y hy hxy
    rw [frame x hx, frame y hy] at hxy
    exact h.inj hx hy hxy
  · intro x hx
    rw [frame x hx]
    exact h.range x hx
  · intro f hf
    rw [hp, used, h.marks f hf]

theorem mem_usedFrames_iff (h : Owns m own) {f : Nat} (hf : f < TOTAL_PAGES) :
    f ∈ m.usedFrames own ↔ m.physMem f = USED_FRAME := by
  rw [h.marks f hf]
  split <;> simp [*]

/-- The number of marked frames. -/
theorem card_used (h : Owns m own) :
    ((Finset.range TOTAL_PAGES).filter fun f => m.physMem f = USED_FRAME).card =
      264 + own.card := by
  have hset : (Finset.range TOTAL_PAGES).filter (fun f => m.physMem f = USED_FRAME) =
      m.usedFrames own := by
    ext f
    simp only [Finset.mem_filter, Finset.mem_range]
    refine ⟨fun hf => (h.mem_usedFrames_iff hf.1).mpr hf.2, fun hf => ?_⟩
    have hlt : f < TOTAL_PAGES := by
      rcases Finset.mem_union.mp hf with hf | hf
      · rw [mem_fixedFrames] at hf
        unfold TOTAL_PAGES
        omega
      · obtain ⟨x, hx, rfl⟩ := Finset.mem_image.mp hf
        exact (h.range x hx).2
    exact ⟨hlt, (h.mem_usedFrames_iff hlt).mp hf⟩
  have hdisj : Disjoint fixedFrames (own.image m.dataFrame) := by
    rw [Finset.disjoint_right]
    intro f hf
    obtain ⟨x, hx, rfl⟩ := Finset.mem_image.mp hf
    exact (h.range x hx).1
  rw [hset, Memory.usedFrames, Finset.card_union_of_disjoint hdisj, card_fixedFrames,
    Finset.card_image_of_injOn h.inj]

/-- While fewer than 376 pages are owned the allocator finds a frame, and a fresh one: 384 frames
are inspected and 8 of them hold code. -/
theorem allocFrame (h : Owns m own) (hc : own.card < 376) :
    ∃ f : Nat, ZeOS.allocFrame m.physMem = ((f : Int), Function.update m.physMem f USED_FRAME) ∧
      f ∉ m.usedFrames own ∧ f < TOTAL_PAGES := by
  have hfound : (ZeOS.allocFrame m.physMem).1 ≠ -1 := by
    rw [Ne, allocFrame_none.1]
    intro hnone
    have hsub : candidateFrames.toFinset ⊆
        (Finset.range NUM_PAG_CODE).image codeFrame ∪ own.image m.dataFrame := by
      intro f hf
      have hcand := mem_candidateFrames.mp (List.mem_toFinset.mp hf)
      have hused : f ∈ m.usedFrames own := by
        by_contra hout
        exact hnone f hcand (by rw [h.marks f hcand.lt, if_neg hout])
      have hlo := hcand.1
      simp only [Memory.usedFrames, fixedFrames, Finset.mem_union, Finset.mem_range] at hused ⊢
      rcases hused with (hused | hused) | hused
      · omega
      · exact .inl hused
      · exact .inr hused
    have hcard := (Finset.card_le_card hsub).trans (Finset.card_union_le _ _)
    have hall : candidateFrames.toFinset.card = 384 := by
      have hnodup : candidateFrames.Nodup := List.nodup_range' 2 (by decide)
      rw [List.toFinset_card_of_nodup hnodup]
      exact List.length_range'
    have hcode : ((Finset.range NUM_PAG_CODE).image codeFrame).card ≤ 8 :=
      Finset.card_image_le
    have hown : (own.image m.dataFrame).card ≤ own.card := Finset.card_image_le
    omega
  obtain ⟨f, hf⟩ := (allocFrame_cases m.physMem).resolve_left hfound
  obtain ⟨hcand, hfree, -, hmap⟩ := allocFrame_some hf
  refine ⟨f, Prod.ext hf hmap, ?_, hcand.lt⟩
  rw [h.mem_usedFrames_iff hcand.lt, hfree]
  decide

end Owns

/-! ## Mapping and unmapping a data page -/

/-- Page `d` of slot `t` is mapped to the frame `f`, which is marked. -/
def Memory.mapData (t : Slot) (d f : Nat) (m : Memory) : Memory :=
  { m with physMem := Function.update m.physMem f USED_FRAME }.setEntry t (PAG_LOG_INIT_DATA + d)
    ⟨true, true, true, f⟩

theorem setBase_ofNat (e : PageTableEntry) {f : Nat} (h : f < TOTAL_PAGES) :
    e.setBase f = { e with pbaseAddr := f } := by
  unfold PageTableEntry.setBase
  congr
  unfold TOTAL_PAGES at h
  omega

namespace Owns

variable {m : Memory} {own : Finset (Slot × Nat)} {t : Slot} {d f : Nat}

theorem mapData (h : Owns m own) (hx : (t, d) ∉ own) (hd : d < NUM_PAG_DATA)
    (hf : f ∉ m.usedFrames own) (hlt : f < TOTAL_PAGES) :
    Owns (m.mapData t d f) (insert (t, d) own) := by
  have hframe : (m.mapData t d f).dataFrame = Function.update m.dataFrame (t, d) f :=
    Memory.dataFrame_setEntry _ (t, d) _
  have hold : ∀ x ∈ own, Function.update m.dataFrame (t, d) f x = m.dataFrame x := by
    intro x hx'
    refine Function.update_of_ne ?_ _ _
    rintro rfl
    exact hx hx'
  have hfix : f ∉ fixedFrames := fun hf' => hf (Finset.mem_union_left _ hf')
  have hother : ∀ x ∈ own, m.dataFrame x ≠ f := by
    rintro x hx' rfl
    exact hf (Finset.mem_union_right _ (Finset.mem_image_of_mem _ hx'))
  have himage : (insert (t, d) own).image (Function.update m.dataFrame (t, d) f) =
      insert f (own.image m.dataFrame) := by
    rw [Finset.image_insert, Function.update_self, Finset.image_congr hold]
  constructor
  case bound =>
    intro x hx'
    rcases Finset.mem_insert.mp hx' with rfl | hx'
    · exact hd
    · exact h.bound x hx'
  case entry =>
    intro x hx'
    rw [hframe]
    rcases Finset.mem_insert.mp hx' with rfl | hx'
    · simp [Memory.mapData, Memory.setEntry_apply]
    · have hne : ¬ (x.1 = t ∧ PAG_LOG_INIT_DATA + x.2 = PAG_LOG_INIT_DATA + d) := by
        rintro ⟨h₁, h₂⟩
        exact hx ((Prod.ext h₁ (Nat.add_left_cancel h₂) : x = (t, d)) ▸ hx')
      rw [Memory.mapData, Memory.setEntry_apply, if_neg hne, hold x hx']
      exact h.entry x hx'
  case inj =>
    rw [hframe, Finset.coe_insert, Set.injOn_insert (by simpa using hx)]
    refine ⟨fun x hx' y hy hxy => ?_, ?_⟩
    · rw [hold x hx', hold y hy] at hxy
      exact h.inj hx' hy hxy
    · rintro ⟨x, hx', he⟩
      rw [hold x hx', Function.update_self] at he
      exact hother x hx' he
  case range =>
    intro x hx'
    rw [hframe]
    rcases Finset.mem_insert.mp hx' with rfl | hx'
    · rw [Function.update_self]
      exact ⟨hfix, hlt⟩
    · rw [hold x hx']
      exact h.range x hx'
  case marks =>
    intro g hg
    have hphys : (m.mapData t d f).physMem g = if g = f then USED_FRAME else m.physMem g :=
      Function.update_apply ..
    rw [hphys, Memory.usedFrames, hframe, himage, h.marks g hg]
    by_cases hgf : g = f
    · simp [hgf]
    · have hmem : g ∈ fixedFrames ∪ insert f (own.image m.dataFrame) ↔ g ∈ m.usedFrames own := by
        simp [Memory.usedFrames, hgf]
      simp only [hgf, hmem, if_false]

/-- Freeing an owned page gives back its frame. The frame is above 256, which the bound in
`free_frame` would refuse, because 256 holds code. -/
theorem freeUserPage (h : Owns m own) (hx : (t, d) ∈ own) :
    Owns (ZeOS.freeUserPage t d m) (own.erase (t, d)) := by
  set x := (t, d) with hxd
  obtain ⟨hfix, hlt⟩ := h.range x hx
  have hphys : ∀ g, (ZeOS.freeUserPage t d m).physMem g =
      if g = m.dataFrame x then FREE_FRAME else m.physMem g := by
    intro g
    have hbound : NUM_PAG_KERNEL < m.dataFrame x ∧ m.dataFrame x < TOTAL_PAGES := by
      refine ⟨?_, hlt⟩
      rw [mem_fixedFrames] at hfix
      by_contra hle
      refine hfix ?_
      rcases Nat.lt_or_ge (m.dataFrame x) 256 with hk | hk
      · exact .inl hk
      · exact .inr ⟨0, by omega, by unfold NUM_PAG_KERNEL at hle; omega⟩
    have hfree : (ZeOS.freeUserPage t d m).physMem = freeFrame (m.dataFrame x) m.physMem := rfl
    rw [hfree, freeFrame, if_pos hbound, Function.update_apply]
  have hframe : (ZeOS.freeUserPage t d m).dataFrame = Function.update m.dataFrame x 0 :=
    Memory.dataFrame_setEntry _ x _
  have hold : ∀ y ∈ own.erase x, Function.update m.dataFrame x 0 y = m.dataFrame y := by
    intro y hy
    exact Function.update_of_ne (Finset.ne_of_mem_erase hy) _ _
  have himage : (own.erase x).image (Function.update m.dataFrame x 0) =
      (own.image m.dataFrame).erase (m.dataFrame x) := by
    rw [Finset.image_congr hold]
    ext g
    simp only [Finset.mem_image, Finset.mem_erase]
    constructor
    · rintro ⟨y, ⟨hne, hy⟩, rfl⟩
      exact ⟨fun he => hne (h.inj hy hx he), y, hy, rfl⟩
    · rintro ⟨hne, y, hy, rfl⟩
      exact ⟨y, ⟨fun he => hne (he ▸ rfl), hy⟩, rfl⟩
  refine ⟨fun y hy => h.bound y (Finset.mem_of_mem_erase hy), ?_, ?_, ?_, ?_⟩
  · intro y hy
    have hne : ¬ (y.1 = t ∧ PAG_LOG_INIT_DATA + y.2 = PAG_LOG_INIT_DATA + d) := by
      rintro ⟨h₁, h₂⟩
      exact Finset.ne_of_mem_erase hy (Prod.ext h₁ (Nat.add_left_cancel h₂))
    rw [hframe, hold y hy, ZeOS.freeUserPage, Memory.setEntry_apply, if_neg hne]
    exact h.entry y (Finset.mem_of_mem_erase hy)
  · intro y hy z hz hyz
    rw [hframe, hold y hy, hold z hz] at hyz
    exact h.inj (Finset.mem_of_mem_erase hy) (Finset.mem_of_mem_erase hz) hyz
  · intro y hy
    rw [hframe, hold y hy]
    exact h.range y (Finset.mem_of_mem_erase hy)
  · intro g hg
    rw [hphys, Memory.usedFrames, hframe, himage, h.marks g hg]
    by_cases hgf : g = m.dataFrame x
    · simp [hgf, hfix]
    · have hmem : g ∈ fixedFrames ∪ (own.image m.dataFrame).erase (m.dataFrame x) ↔
          g ∈ m.usedFrames own := by
        simp [Memory.usedFrames, hgf]
      simp only [hgf, hmem, if_false]

end Owns

end ZeOS
