import ZeOS.Memory.Paging

/-!
# Coherent translation caches

A cache is coherent when every translation it remembers is the one the table gives now. Accesses
keep a cache coherent, and through a coherent cache memory reads as a map from addresses to bytes,
whatever choices the processor makes.
-/
namespace ZeOS
open Lib

namespace Memory

variable {m : Memory}

/-- Every remembered translation is present and agrees with the table. -/
def Coherent (m : Memory) : Prop := ∀ page, ∀ e ∈ m.tlb page, e = m.entryAt page ∧ e.present

theorem coherent_setCr3 (dir : Option Slot) (m : Memory) : (setCr3 dir m).Coherent := by
  intro page e he
  simp [setCr3] at he

/-- The state after an access to `page` through the table's own entry. -/
def remember (page : Nat) (m : Memory) : Memory :=
  { m with
    tlb := Function.update m.tlb page (m.entryAt page :: m.tlb page)
    choice := fun n => m.choice (n + 1) }

theorem Coherent.remember (h : m.Coherent) {page : Nat} (hp : (m.entryAt page).present) :
    (m.remember page).Coherent := by
  intro q e he
  by_cases hq : q = page
  · subst hq
    rcases List.mem_cons.mp (by simpa [Memory.remember] using he) with rfl | he
    · exact ⟨rfl, hp⟩
    · exact h q e he
  · exact h q e (by simpa [Memory.remember, hq] using he)

/-- Where the cache knows the translation of the table only, the choice makes no difference. -/
theorem translate_of_cached {page : Nat} (h : ∀ e ∈ m.tlb page, e = m.entryAt page)
    (hp : (m.entryAt page).present) :
    m.translate page = some (m.entryAt page, m.remember page) := by
  have hall : ∀ e ∈ m.translations page, e = m.entryAt page := by
    intro e he
    rcases List.mem_append.mp he with he | he
    · exact h e he
    · split at he <;> simp_all
  have hlen : m.choice 0 % (m.translations page).length < (m.translations page).length := by
    apply Nat.mod_lt
    simp [translations, hp]
  have he := hall _ (List.getElem_mem hlen)
  rw [Memory.translate, List.getElem?_eq_getElem hlen, he]
  rfl

/-- With a coherent cache the choice of translation makes no difference. -/
theorem Coherent.translate (h : m.Coherent) (page : Nat) :
    m.translate page =
      if (m.entryAt page).present then some (m.entryAt page, m.remember page) else none := by
  by_cases hp : (m.entryAt page).present
  · rw [if_pos hp, translate_of_cached (fun e he => (h page e he).1) hp]
  · have hnil : m.tlb page = [] := by
      rw [List.eq_nil_iff_forall_not_mem]
      intro e he
      obtain ⟨rfl, hpe⟩ := h page e he
      exact hp hpe
    simp [Memory.translate, translations, hp, hnil]

/-- Everything but the contents of the frames and the cache is the same. -/
structure SameTables (m m' : Memory) : Prop where
  dirPages : m'.dirPages = m.dirPages
  pagusrTable : m'.pagusrTable = m.pagusrTable
  physMem : m'.physMem = m.physMem
  cr3 : m'.cr3 = m.cr3

theorem SameTables.refl (m : Memory) : SameTables m m := ⟨rfl, rfl, rfl, rfl⟩

theorem SameTables.trans {m₁ m₂ m₃ : Memory} (h : SameTables m₁ m₂) (h' : SameTables m₂ m₃) :
    SameTables m₁ m₃ :=
  ⟨h'.dirPages.trans h.dirPages, h'.pagusrTable.trans h.pagusrTable, h'.physMem.trans h.physMem,
    h'.cr3.trans h.cr3⟩

theorem SameTables.entryAt {m m' : Memory} (h : SameTables m m') (page : Nat) :
    m'.entryAt page = m.entryAt page := by
  unfold Memory.entryAt
  rw [h.cr3, h.dirPages, h.pagusrTable]

theorem sameTables_remember (page : Nat) (m : Memory) : SameTables m (m.remember page) :=
  ⟨rfl, rfl, rfl, rfl⟩

theorem sameTables_poke (frame offset : Nat) (b : Byte) (m : Memory) :
    SameTables m (m.poke frame offset b) :=
  ⟨rfl, rfl, rfl, rfl⟩

theorem Coherent.poke (h : m.Coherent) (frame offset : Nat) (b : Byte) :
    (m.poke frame offset b).Coherent := h

/-- A translated access leaves the tables as they are and the cache coherent. -/
theorem Coherent.translated (h : m.Coherent) {page : Nat} {e : PageTableEntry} {m' : Memory}
    (ht : m.translate page = some (e, m')) : SameTables m m' ∧ m'.Coherent := by
  rw [h.translate] at ht
  split at ht
  · rename_i hp
    cases ht
    exact ⟨sameTables_remember _ _, h.remember hp⟩
  · cases ht

/-- Supervisor accesses that do not fault keep the tables, and the cache coherent. -/
theorem keeps_coherent (m : Memory) :
    Keeps kernelMemory (fun s => SameTables m s ∧ s.Coherent) fun _ => True := by
  constructor
  · rintro a s b s' ⟨hsame, hcoh⟩ h
    obtain ⟨⟨e, m'⟩, ht, heq⟩ := Option.bind_eq_some_iff.mp h
    cases heq
    obtain ⟨hsame', hcoh'⟩ := hcoh.translated ht
    exact ⟨hsame.trans hsame', hcoh'⟩
  · rintro a b s s' ⟨hsame, hcoh⟩ - h
    obtain ⟨⟨e, m'⟩, ht, heq⟩ := Option.bind_eq_some_iff.mp h
    cases heq
    obtain ⟨hsame', hcoh'⟩ := hcoh.translated ht
    exact ⟨(hsame.trans hsame').trans (sameTables_poke ..), hcoh'.poke _ _ _⟩

/-! ## Memory as a map of bytes -/

/-- The byte that the active table gives at an address. -/
def bytes (m : Memory) (a : Word) : Byte :=
  m.ram (m.entryAt (a.toNat / PAGE_SIZE)).pbaseAddr (a.toNat % PAGE_SIZE)

/-- `s` comes from `m` by accesses that write through the pages in `W` at most, and now reads as
`v`. -/
structure AccessedIn (m : Memory) (W : Set Nat) (s : Memory) (v : Word → Byte) : Prop where
  same : SameTables m s
  coherent : s.Coherent
  ram : ∀ g, (∀ p ∈ W, (m.entryAt p).pbaseAddr ≠ g) → s.ram g = m.ram g
  bytes : s.bytes = v

theorem accessedIn_self (h : m.Coherent) (W : Set Nat) : m.AccessedIn W m m.bytes :=
  ⟨.refl m, h, fun _ _ => rfl, rfl⟩

/-- When no other page leads to the frame of a page in `W`, supervisor accesses read and write bytes
at their addresses, as long as they write through pages in `W` only. -/
theorem kernelMemory_viewIn {W : Set Nat} (hpr : ∀ p ∈ W, (m.entryAt p).present)
    (honly : ∀ p ∈ W, ∀ q, q ≠ p → (m.entryAt q).pbaseAddr ≠ (m.entryAt p).pbaseAddr) :
    View kernelMemory (m.AccessedIn W)
      (fun a => (m.entryAt (a.toNat / PAGE_SIZE)).present)
      (fun a => a.toNat / PAGE_SIZE ∈ W) := by
  refine ⟨?_, ?_⟩
  · intro s v a hs ha
    have hpres : (s.entryAt (a.toNat / PAGE_SIZE)).present := by rwa [hs.same.entryAt]
    refine ⟨s.remember (a.toNat / PAGE_SIZE), ?_,
      hs.same.trans (sameTables_remember _ _), hs.coherent.remember hpres, hs.ram, hs.bytes⟩
    simp only [kernelMemory, load, hs.coherent.translate, hpres, if_true, Option.bind_eq_bind,
      Option.bind_some]
    rw [← hs.bytes]
    rfl
  · intro s v a b hs ha
    set p := a.toNat / PAGE_SIZE with hp
    set f := (m.entryAt p).pbaseAddr with hf
    have hentry : s.entryAt p = m.entryAt p := hs.same.entryAt p
    have hpres : (s.entryAt p).present := by
      rw [hentry]
      exact hpr p ha
    set s₁ := s.remember p with hs₁
    have hsame : SameTables m (s₁.poke f (a.toNat % PAGE_SIZE) b) :=
      (hs.same.trans (sameTables_remember _ _)).trans (sameTables_poke ..)
    refine ⟨s₁.poke f (a.toNat % PAGE_SIZE) b, ?_, hsame, hs.coherent.remember hpres, ?_, ?_⟩
    · simp only [kernelMemory, store, ← hp, hs.coherent.translate, hentry, hpr p ha, if_true,
        Option.bind_eq_bind, Option.bind_some, ← hf, ← hs₁]
    · intro g hg
      rw [← hs.ram g hg]
      exact Function.update_of_ne (hg p ha).symm _ _
    · funext a'
      have hold : v a' = s.ram (m.entryAt (a'.toNat / PAGE_SIZE)).pbaseAddr
          (a'.toNat % PAGE_SIZE) := by
        rw [← hs.bytes, Memory.bytes, hs.same.entryAt]
      have hnew : (s₁.poke f (a.toNat % PAGE_SIZE) b).bytes a' =
          Function.update s.ram f (Function.update (s.ram f) (a.toNat % PAGE_SIZE) b)
            (m.entryAt (a'.toNat / PAGE_SIZE)).pbaseAddr (a'.toNat % PAGE_SIZE) := by
        rw [Memory.bytes, hsame.entryAt]
        rfl
      rw [hnew]
      by_cases haa : a' = a
      · subst haa
        simp [← hp, ← hf]
      · rw [Function.update_of_ne haa, hold]
        by_cases hpa : a'.toNat / PAGE_SIZE = p
        · -- the same page, so the offsets differ
          have hoff : a'.toNat % PAGE_SIZE ≠ a.toNat % PAGE_SIZE := by
            intro hoff
            apply haa
            apply BitVec.eq_of_toNat_eq
            rw [← Nat.div_add_mod a'.toNat PAGE_SIZE, ← Nat.div_add_mod a.toNat PAGE_SIZE, hpa, hp,
              hoff]
          simp [hpa, ← hf, hoff]
        · rw [Function.update_of_ne (honly p ha _ hpa)]

/-- `s` comes from `m` by accesses that write to the frame `f` at most, and now reads as `v`. -/
structure Accessed (m : Memory) (f : Nat) (s : Memory) (v : Word → Byte) : Prop where
  same : SameTables m s
  coherent : s.Coherent
  ram : ∀ g, g ≠ f → s.ram g = m.ram g
  bytes : s.bytes = v

theorem accessed_self (h : m.Coherent) (f : Nat) : m.Accessed f m m.bytes :=
  ⟨.refl m, h, fun _ _ => rfl, rfl⟩

theorem accessed_iff {f p : Nat} (hf : (m.entryAt p).pbaseAddr = f) {s : Memory}
    {v : Word → Byte} : m.Accessed f s v ↔ m.AccessedIn {p} s v := by
  constructor
  · intro h
    exact ⟨h.same, h.coherent, fun g hg => h.ram g fun he => hg p rfl (hf.trans he.symm), h.bytes⟩
  · intro h
    refine ⟨h.same, h.coherent, fun g hg => h.ram g ?_, h.bytes⟩
    rintro q rfl
    rw [hf]
    exact hg.symm

/-- When one page alone leads to the frame `f`, supervisor accesses read and write bytes at their
addresses, as long as they write through that page only. -/
theorem kernelMemory_view {f p : Nat} (hpr : (m.entryAt p).present)
    (hf : (m.entryAt p).pbaseAddr = f)
    (honly : ∀ q, q ≠ p → (m.entryAt q).pbaseAddr ≠ f) :
    View kernelMemory (m.Accessed f)
      (fun a => (m.entryAt (a.toNat / PAGE_SIZE)).present)
      (fun a => a.toNat / PAGE_SIZE = p) := by
  have hrel : m.Accessed f = m.AccessedIn {p} := by
    funext s v
    exact propext (accessed_iff hf)
  rw [hrel]
  apply kernelMemory_viewIn
  · rintro q rfl
    exact hpr
  · rintro q rfl r hr
    rw [hf]
    exact honly r hr

end Memory

end ZeOS
