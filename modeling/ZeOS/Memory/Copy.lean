import ZeOS.Lib.Words

/-!
# The copy loops of `utils.c`

`copyData` is one loop over words followed by one over bytes, as in the source. It is generic in
the memory it runs on: a load or a store may fault and may change hidden state, such as the
translation cache of paged memory. `copyData_spec` is the only fact used about it. It transports
the loop along any view of the memory as a map from addresses to bytes and gives the final view
in closed form.
-/
namespace ZeOS

/-- Byte access to a memory of type `S`; `none` is a fault. -/
structure ByteMemory (S : Type) where
  load : Word → S → Option (Byte × S)
  store : Word → Byte → S → Option S

section Copy

variable {S : Type} (M : ByteMemory S)

/-- `*q = *p` on words: four bytes are read before any is written. -/
def copyWord (p q : Word) (s : S) : Option S := do
  let (b0, s) ← M.load p s
  let (b1, s) ← M.load (p + 1#32) s
  let (b2, s) ← M.load (p + 2#32) s
  let (b3, s) ← M.load (p + 3#32) s
  let s ← M.store q b0 s
  let s ← M.store (q + 1#32) b1 s
  let s ← M.store (q + 2#32) b2 s
  M.store (q + 3#32) b3 s

/-- `*q1 = *p1` on bytes. -/
def copyByte (p q : Word) (s : S) : Option S := do
  let (b, s) ← M.load p s
  M.store q b s

/-- `while (size > 4) { *q++ = *p++; size -= 4; }` -/
def copyWords (p q : Word) (size : Int) (s : S) : Option (Word × Word × Int × S) :=
  if 4 < size then do
    let s ← copyWord M p q s
    copyWords (p + 4#32) (q + 4#32) (size - 4) s
  else some (p, q, size, s)
termination_by size.toNat

/-- `while (size > 0) { *q1++ = *p1++; size--; }` -/
def copyBytes (p q : Word) (size : Int) (s : S) : Option S :=
  if 0 < size then do
    let s ← copyByte M p q s
    copyBytes (p + 1#32) (q + 1#32) (size - 1) s
  else some s
termination_by size.toNat

def copyData (start dest : Word) (size : Int) (s : S) : Option S := do
  let (p, q, size, s) ← copyWords M start dest size s
  copyBytes M p q size s

/-- `copy_from_user` has the body of `copy_data`, and returns 0. -/
def copyFromUser (start dest : Word) (size : Int) (s : S) : Option (Int × S) :=
  (copyData M start dest size s).map fun s => (0, s)

/-- So has `copy_to_user`. -/
def copyToUser (start dest : Word) (size : Int) (s : S) : Option (Int × S) :=
  (copyData M start dest size s).map fun s => (0, s)

end Copy

/-- The memory `m` after `n` bytes at `p` have been copied to `q`. -/
def copied (p q : Word) (n : Nat) (m : Word → Byte) : Word → Byte :=
  fun a => if (a - q).toNat < n then m (p + (a - q)) else m a

theorem copied_zero (p q : Word) (m : Word → Byte) : copied p q 0 m = m := by
  funext a
  simp [copied]

theorem copied_inside {n i : Nat} (p q : Word) (m : Word → Byte) (hi : i < n) (hn : n ≤ 2 ^ 32) :
    copied p q n m (q + BitVec.ofNat 32 i) = m (p + BitVec.ofNat 32 i) := by
  have hoff : q + BitVec.ofNat 32 i - q = BitVec.ofNat 32 i := add_sub_cancel_left q _
  have hto : (BitVec.ofNat 32 i).toNat < n := by
    rw [BitVec.toNat_ofNat]
    omega
  rw [copied, hoff, if_pos hto]

theorem copied_outside {p q a : Word} {n : Nat} (m : Word → Byte) (h : ¬ Lib.Within q n a) :
    copied p q n m a = m a := if_neg h

/-- No byte is read after the copy has overwritten it. -/
def NoClobber (p q : Word) (n : Nat) : Prop :=
  ∀ i j : Nat, i < j → j < n → p + BitVec.ofNat 32 j ≠ q + BitVec.ofNat 32 i

theorem add_ofNat_add (x : Word) (d i : Nat) :
    x + BitVec.ofNat 32 d + BitVec.ofNat 32 i = x + BitVec.ofNat 32 (d + i) := by
  rw [BitVec.add_assoc, ← BitVec.ofNat_add]

theorem NoClobber.advance {p q : Word} {n : Nat} (h : NoClobber p q n) (d : Nat) :
    NoClobber (p + BitVec.ofNat 32 d) (q + BitVec.ofNat 32 d) (n - d) := by
  intro i j hij hj
  have := h (d + i) (d + j) (by omega) (by omega)
  simpa [BitVec.add_assoc, ← BitVec.ofNat_add] using this

/-- Copying `d` bytes and then the rest is copying them all. -/
theorem copied_add {p q : Word} {d n : Nat} (h : NoClobber p q n) (hd : d ≤ n)
    (hn : n ≤ 2 ^ 32) (m : Word → Byte) :
    copied (p + BitVec.ofNat 32 d) (q + BitVec.ofNat 32 d) (n - d) (copied p q d m) =
      copied p q n m := by
  funext a
  obtain ⟨x, rfl⟩ : ∃ x, a = q + x := ⟨a - q, (add_sub_cancel q a).symm⟩
  have hx : q + x - q = x := add_sub_cancel_left q x
  have hshift : q + x - (q + BitVec.ofNat 32 d) = x - BitVec.ofNat 32 d := by
    rw [← sub_sub, hx]
  simp only [copied, hx, hshift]
  by_cases hlow : x.toNat < d
  · -- a byte of the first part: the second part neither covers it nor moves it
    have hout : ¬ (x - BitVec.ofNat 32 d).toNat < n - d := by
      rw [BitVec.toNat_sub, BitVec.toNat_ofNat]
      have := x.isLt
      rcases Nat.lt_or_ge d (2 ^ 32) with hd' | hd' <;> omega
    rw [if_neg hout, if_pos hlow, if_pos (by omega)]
  · have hd' : d < 2 ^ 32 := by have := x.isLt; omega
    have hsub : (x - BitVec.ofNat 32 d).toNat = x.toNat - d := by
      rw [BitVec.toNat_sub, BitVec.toNat_ofNat]
      have := x.isLt
      omega
    have hback : p + BitVec.ofNat 32 d + (x - BitVec.ofNat 32 d) = p + x := by
      ring
    rw [hsub, hback]
    by_cases hin : x.toNat < n
    · -- the source byte `p + x` is read after the first part was written, so it is not in it
      have hfresh : ¬ (p + x - q).toNat < d := by
        intro hlt
        refine h (p + x - q).toNat x.toNat (by omega) hin ?_
        rw [BitVec.ofNat_toNat, BitVec.setWidth_eq, BitVec.ofNat_toNat, BitVec.setWidth_eq]
        ring
      rw [if_pos (by omega), if_neg hfresh, if_pos hin]
    · rw [if_neg (by omega), if_neg hlow, if_neg hin]

/-- A view of the states of `M` as memory maps: loads in `A` read the view and stores in `B`
update it. -/
structure View {S : Type} (M : ByteMemory S) (R : S → (Word → Byte) → Prop)
    (A B : Word → Prop) : Prop where
  load : ∀ s m a, R s m → A a → ∃ s', M.load a s = some (m a, s') ∧ R s' m
  store : ∀ s m a b, R s m → B a → ∃ s', M.store a b s = some s' ∧ R s' (Function.update m a b)

section Spec

variable {S : Type} {M : ByteMemory S} {R : S → (Word → Byte) → Prop} {A B : Word → Prop}

theorem copyByte_spec (hV : View M R A B) {p q : Word} {s : S} {m : Word → Byte} (hR : R s m)
    (hp : A p) (hq : B q) : ∃ s', copyByte M p q s = some s' ∧ R s' (copied p q 1 m) := by
  obtain ⟨s₁, h₁, hR₁⟩ := hV.load s m p hR hp
  obtain ⟨s₂, h₂, hR₂⟩ := hV.store s₁ m q (m p) hR₁ hq
  refine ⟨s₂, by simp [copyByte, h₁, h₂], ?_⟩
  suffices heq : copied p q 1 m = Function.update m q (m p) from heq ▸ hR₂
  funext a
  obtain ⟨x, rfl⟩ : ∃ x, a = q + x := ⟨a - q, (add_sub_cancel q a).symm⟩
  have hx : q + x - q = x := add_sub_cancel_left q x
  have hzero : x.toNat < 1 ↔ x = 0 := by
    rw [Nat.lt_one_iff, ← BitVec.toNat_inj]; rfl
  simp only [copied, hx, hzero, Function.update_apply, add_eq_left]
  split_ifs with h
  · simp [h]
  · rfl

/-- The bytes of a word are moved as one block. -/
theorem update_word (q : Word) (m : Word → Byte) (f : Word → Byte) :
    Function.update (Function.update (Function.update (Function.update m q (f 0#32))
      (q + 1#32) (f 1#32))
      (q + 2#32) (f 2#32)) (q + 3#32) (f 3#32) =
      fun a => if (a - q).toNat < 4 then f (a - q) else m a := by
  funext a
  obtain ⟨x, rfl⟩ : ∃ x, a = q + x := ⟨a - q, (add_sub_cancel q a).symm⟩
  have hx : q + x - q = x := add_sub_cancel_left q x
  have hc : ∀ c : Word, q + x = q + c ↔ x = c := fun c => add_right_inj q
  have hz : q + x = q ↔ x = 0#32 := add_eq_left
  simp only [Function.update_apply, hx, hc, hz]
  by_cases h : x.toNat < 4
  · have : x = 0#32 ∨ x = 1#32 ∨ x = 2#32 ∨ x = 3#32 := by
      simp only [← BitVec.toNat_inj, BitVec.toNat_ofNat]
      omega
    rcases this with rfl | rfl | rfl | rfl <;> simp
  · have hne : ∀ c : Word, c.toNat < 4 → x ≠ c := by rintro c hc rfl; exact h hc
    simp [h, hne 0#32 (by decide), hne 1#32 (by decide), hne 2#32 (by decide),
      hne 3#32 (by decide)]

theorem copyWord_spec (hV : View M R A B) {p q : Word} {s : S} {m : Word → Byte} (hR : R s m)
    (hp : ∀ i : Nat, i < 4 → A (p + BitVec.ofNat 32 i))
    (hq : ∀ i : Nat, i < 4 → B (q + BitVec.ofNat 32 i)) :
    ∃ s', copyWord M p q s = some s' ∧ R s' (copied p q 4 m) := by
  have hp0 : A p := by simpa using hp 0 (by omega)
  have hq0 : B q := by simpa using hq 0 (by omega)
  obtain ⟨s₀, h₀, hR₀⟩ := hV.load s m p hR hp0
  obtain ⟨s₁, h₁, hR₁⟩ := hV.load s₀ m (p + 1#32) hR₀ (hp 1 (by omega))
  obtain ⟨s₂, h₂, hR₂⟩ := hV.load s₁ m (p + 2#32) hR₁ (hp 2 (by omega))
  obtain ⟨s₃, h₃, hR₃⟩ := hV.load s₂ m (p + 3#32) hR₂ (hp 3 (by omega))
  obtain ⟨t₀, g₀, hT₀⟩ := hV.store s₃ m q (m p) hR₃ hq0
  obtain ⟨t₁, g₁, hT₁⟩ := hV.store t₀ _ (q + 1#32) (m (p + 1#32)) hT₀ (hq 1 (by omega))
  obtain ⟨t₂, g₂, hT₂⟩ := hV.store t₁ _ (q + 2#32) (m (p + 2#32)) hT₁ (hq 2 (by omega))
  obtain ⟨t₃, g₃, hT₃⟩ := hV.store t₂ _ (q + 3#32) (m (p + 3#32)) hT₂ (hq 3 (by omega))
  refine ⟨t₃, by simp [copyWord, h₀, h₁, h₂, h₃, g₀, g₁, g₂, g₃], ?_⟩
  have := update_word q m (fun x => m (p + x))
  rw [BitVec.add_zero] at this
  rwa [this] at hT₃

theorem copyBytes_spec (hV : View M R A B) {p q : Word} {size : Int} {s : S} {m : Word → Byte}
    (hR : R s m) (hn : size.toNat ≤ 2 ^ 32) (hc : NoClobber p q size.toNat)
    (hp : ∀ i, i < size.toNat → A (p + BitVec.ofNat 32 i))
    (hq : ∀ i, i < size.toNat → B (q + BitVec.ofNat 32 i)) :
    ∃ s', copyBytes M p q size s = some s' ∧ R s' (copied p q size.toNat m) := by
  induction hk : size.toNat generalizing p q size s m with
  | zero =>
    refine ⟨s, ?_, by rwa [copied_zero]⟩
    rw [copyBytes, if_neg (by omega)]
  | succ k ih =>
    have hp0 : A p := by simpa using hp 0 (by omega)
    have hq0 : B q := by simpa using hq 0 (by omega)
    obtain ⟨s₁, h₁, hR₁⟩ := copyByte_spec hV hR hp0 hq0
    have hk' : (size - 1).toNat = size.toNat - 1 := by omega
    have hc₁ := hc.advance 1
    have shift : ∀ (x : Word) (i : Nat),
        x + 1#32 + BitVec.ofNat 32 i = x + BitVec.ofNat 32 (1 + i) := fun x => add_ofNat_add x 1
    obtain ⟨s₂, h₂, hR₂⟩ := ih (p := p + 1#32) (q := q + 1#32) hR₁
      (by omega : (size - 1).toNat ≤ 2 ^ 32)
      (hk' ▸ hc₁) (fun i hi => shift p i ▸ hp (1 + i) (by omega))
      (fun i hi => shift q i ▸ hq (1 + i) (by omega)) (by omega)
    refine ⟨s₂, ?_, ?_⟩
    · rw [copyBytes, if_pos (by omega)]
      simp [h₁, h₂]
    · have := copied_add (d := 1) hc (by omega) hn m
      rw [hk] at this
      exact this ▸ hR₂

/-- The word loop stops with between one and four bytes left to copy, or with nothing done. -/
theorem copyWords_spec (hV : View M R A B) {p q : Word} {size : Int} {s : S} {m : Word → Byte}
    (hR : R s m) (hn : size.toNat ≤ 2 ^ 32) (hc : NoClobber p q size.toNat)
    (hp : ∀ i, i < size.toNat → A (p + BitVec.ofNat 32 i))
    (hq : ∀ i, i < size.toNat → B (q + BitVec.ofNat 32 i)) :
    ∃ d s', d ≤ size.toNat ∧
      copyWords M p q size s =
        some (p + BitVec.ofNat 32 d, q + BitVec.ofNat 32 d, size - d, s') ∧
      R s' (copied p q d m) := by
  induction hk : size.toNat using Nat.strongRecOn generalizing p q size s m with
  | _ k ih =>
    by_cases hbig : 4 < size
    · obtain ⟨s₁, h₁, hR₁⟩ := copyWord_spec hV hR (fun i hi => hp i (by omega))
        (fun i hi => hq i (by omega))
      have hk' : (size - 4).toNat = size.toNat - 4 := by omega
      have shift : ∀ (x : Word) (i : Nat),
          x + 4#32 + BitVec.ofNat 32 i = x + BitVec.ofNat 32 (4 + i) := fun x => add_ofNat_add x 4
      obtain ⟨d, s₂, hd, h₂, hR₂⟩ := ih (size - 4).toNat (by omega) (p := p + 4#32) (q := q + 4#32)
        hR₁ (by omega) (hk' ▸ hc.advance 4) (fun i hi => shift p i ▸ hp (4 + i) (by omega))
        (fun i hi => shift q i ▸ hq (4 + i) (by omega)) rfl
      have hpart : NoClobber p q (4 + d) := fun i j hij hj => hc i j hij (by omega)
      have hsum := copied_add (d := 4) hpart (by omega) (by omega) m
      rw [Nat.add_sub_cancel_left] at hsum
      refine ⟨4 + d, s₂, by omega, ?_, hsum ▸ hR₂⟩
      rw [copyWords, if_pos hbig]
      simp only [h₁, Option.bind_eq_bind, Option.bind_some, h₂, shift]
      congr 4
      omega
    · refine ⟨0, s, by omega, ?_, by rwa [copied_zero]⟩
      rw [copyWords, if_neg hbig]
      simp

/-- The two loops together are one block copy of `size` bytes; a negative size copies nothing. -/
theorem copyData_spec (hV : View M R A B) {p q : Word} {size : Int} {s : S} {m : Word → Byte}
    (hR : R s m) (hn : size.toNat ≤ 2 ^ 32) (hc : NoClobber p q size.toNat)
    (hp : ∀ i, i < size.toNat → A (p + BitVec.ofNat 32 i))
    (hq : ∀ i, i < size.toNat → B (q + BitVec.ofNat 32 i)) :
    ∃ s', copyData M p q size s = some s' ∧ R s' (copied p q size.toNat m) := by
  obtain ⟨d, s₁, hd, h₁, hR₁⟩ := copyWords_spec hV hR hn hc hp hq
  have hrest : (size - d).toNat = size.toNat - d := by omega
  obtain ⟨s₂, h₂, hR₂⟩ := copyBytes_spec hV hR₁ (by omega : (size - d).toNat ≤ 2 ^ 32)
    (hrest ▸ hc.advance d) (fun i hi => add_ofNat_add p d i ▸ hp (d + i) (by omega))
    (fun i hi => add_ofNat_add q d i ▸ hq (d + i) (by omega))
  refine ⟨s₂, by simp [copyData, h₁, h₂], ?_⟩
  rw [hrest, copied_add hc hd hn] at hR₂
  exact hR₂

end Spec

/-! ## What a copy keeps -/

/-- Loads, and stores in `B`, keep `P` when they do not fault. -/
structure Keeps {S : Type} (M : ByteMemory S) (P : S → Prop) (B : Word → Prop) : Prop where
  load : ∀ {a s b s'}, P s → M.load a s = some (b, s') → P s'
  store : ∀ {a b s s'}, P s → B a → M.store a b s = some s' → P s'

namespace Keeps

variable {S : Type} {M : ByteMemory S} {P : S → Prop} {B : Word → Prop} {p q : Word} {size : Int}
  {s s' : S}

theorem copyWord (hM : Keeps M P B) (h0 : P s) (hq : ∀ i : Nat, i < 4 → B (q + BitVec.ofNat 32 i))
    (h : copyWord M p q s = some s') : P s' := by
  have hq0 : B q := by simpa using hq 0 (by omega)
  simp only [ZeOS.copyWord, Option.bind_eq_bind, Option.bind_eq_some_iff, Prod.exists] at h
  obtain ⟨b₀, s₀, h₀, b₁, s₁, h₁, b₂, s₂, h₂, b₃, s₃, h₃, t₀, g₀, t₁, g₁, t₂, g₂, g₃⟩ := h
  have hread := hM.load (hM.load (hM.load (hM.load h0 h₀) h₁) h₂) h₃
  exact hM.store (hM.store (hM.store (hM.store hread hq0 g₀) (hq 1 (by omega)) g₁)
    (hq 2 (by omega)) g₂) (hq 3 (by omega)) g₃

theorem copyByte (hM : Keeps M P B) (h0 : P s) (hq : B q) (h : copyByte M p q s = some s') :
    P s' := by
  simp only [ZeOS.copyByte, Option.bind_eq_bind, Option.bind_eq_some_iff, Prod.exists] at h
  obtain ⟨b, s₁, h₁, h₂⟩ := h
  exact hM.store (hM.load h0 h₁) hq h₂

/-- The word loop leaves a rest of the destination. -/
theorem copyWords (hM : Keeps M P B) {p' q' : Word} {size' : Int} (h0 : P s)
    (hq : ∀ i, i < size.toNat → B (q + BitVec.ofNat 32 i))
    (h : copyWords M p q size s = some (p', q', size', s')) :
    P s' ∧ ∀ i, i < size'.toNat → B (q' + BitVec.ofNat 32 i) := by
  fun_induction ZeOS.copyWords M p q size s with
  | case1 p q size s hs ih =>
    obtain ⟨u, hu, hrest⟩ := Option.bind_eq_some_iff.mp h
    exact ih u (hM.copyWord h0 (fun i hi => hq i (by omega)) hu)
      (fun i hi => add_ofNat_add q 4 i ▸ hq (4 + i) (by omega)) hrest
  | case2 p q size s hs =>
    cases h
    exact ⟨h0, hq⟩

theorem copyBytes (hM : Keeps M P B) (h0 : P s)
    (hq : ∀ i, i < size.toNat → B (q + BitVec.ofNat 32 i))
    (h : copyBytes M p q size s = some s') : P s' := by
  fun_induction ZeOS.copyBytes M p q size s with
  | case1 p q size s hs ih =>
    obtain ⟨u, hu, hrest⟩ := Option.bind_eq_some_iff.mp h
    exact ih u (hM.copyByte h0 (by simpa using hq 0 (by omega)) hu)
      (fun i hi => add_ofNat_add q 1 i ▸ hq (1 + i) (by omega)) hrest
  | case2 p q size s hs =>
    cases h
    exact h0

theorem copyData (hM : Keeps M P B) (h0 : P s)
    (hq : ∀ i, i < size.toNat → B (q + BitVec.ofNat 32 i))
    (h : copyData M p q size s = some s') : P s' := by
  simp only [ZeOS.copyData, Option.bind_eq_bind, Option.bind_eq_some_iff, Prod.exists] at h
  obtain ⟨p₁, q₁, size₁, s₁, hwords, hbytes⟩ := h
  obtain ⟨hP, hrest⟩ := hM.copyWords h0 hq hwords
  exact hM.copyBytes hP hrest hbytes

/-- The byte at `a` has been read in some state that keeps `P`. -/
def Loads (M : ByteMemory S) (P : S → Prop) (a : Word) : Prop := ∃ u, P u ∧ (M.load a u).isSome

theorem loads_word (hM : Keeps M P B) (h0 : P s) (h : ZeOS.copyWord M p q s = some s') {i : Nat}
    (hi : i < 4) : Loads M P (p + BitVec.ofNat 32 i) := by
  simp only [ZeOS.copyWord, Option.bind_eq_bind, Option.bind_eq_some_iff, Prod.exists] at h
  obtain ⟨b₀, s₀, h₀, b₁, s₁, h₁, b₂, s₂, h₂, b₃, s₃, h₃, -⟩ := h
  have hP₀ := hM.load h0 h₀
  have hP₁ := hM.load hP₀ h₁
  match i, hi with
  | 0, _ => exact ⟨s, h0, by simp [h₀]⟩
  | 1, _ => exact ⟨s₀, hP₀, by simp [h₁]⟩
  | 2, _ => exact ⟨s₁, hP₁, by simp [h₂]⟩
  | 3, _ => exact ⟨s₂, hM.load hP₁ h₂, by simp [h₃]⟩

theorem loads_bytes (hM : Keeps M P B) (h0 : P s)
    (hq : ∀ i, i < size.toNat → B (q + BitVec.ofNat 32 i))
    (h : ZeOS.copyBytes M p q size s = some s') {i : Nat} (hi : i < size.toNat) :
    Loads M P (p + BitVec.ofNat 32 i) := by
  fun_induction ZeOS.copyBytes M p q size s generalizing i with
  | case1 p q size s hs ih =>
    obtain ⟨u, hu, hrest⟩ := Option.bind_eq_some_iff.mp h
    cases i with
    | zero =>
      simp only [ZeOS.copyByte, Option.bind_eq_bind, Option.bind_eq_some_iff, Prod.exists] at hu
      obtain ⟨b, s₁, h₁, -⟩ := hu
      exact ⟨s, h0, by simp [h₁]⟩
    | succ i =>
      have hnext := ih u (hM.copyByte h0 (by simpa using hq 0 (by omega)) hu)
        (fun i hi => add_ofNat_add q 1 i ▸ hq (1 + i) (by omega)) hrest (i := i) (by omega)
      rwa [show p + 1#32 + BitVec.ofNat 32 i = p + BitVec.ofNat 32 (i + 1) by
        rw [Nat.add_comm i 1]; exact add_ofNat_add p 1 i] at hnext
  | case2 p q size s hs => omega

/-- The word loop has read every byte up to where it stops. -/
theorem loads_words (hM : Keeps M P B) {p' q' : Word} {size' : Int} (h0 : P s)
    (hq : ∀ i, i < size.toNat → B (q + BitVec.ofNat 32 i))
    (h : ZeOS.copyWords M p q size s = some (p', q', size', s')) :
    ∃ d, p' = p + BitVec.ofNat 32 d ∧ size' = size - d ∧
      ∀ i < d, Loads M P (p + BitVec.ofNat 32 i) := by
  fun_induction ZeOS.copyWords M p q size s with
  | case1 p q size s hs ih =>
    obtain ⟨u, hu, hrest⟩ := Option.bind_eq_some_iff.mp h
    obtain ⟨d, hp, hsize, hd⟩ := ih u (hM.copyWord h0 (fun i hi => hq i (by omega)) hu)
      (fun i hi => add_ofNat_add q 4 i ▸ hq (4 + i) (by omega)) hrest
    refine ⟨4 + d, ?_, by omega, ?_⟩
    · rw [hp]
      exact add_ofNat_add p 4 d
    · intro i hi
      by_cases h4 : i < 4
      · exact hM.loads_word h0 hu h4
      · obtain ⟨j, rfl⟩ := Nat.exists_eq_add_of_le (Nat.le_of_not_lt h4)
        rw [← add_ofNat_add]
        exact hd j (by omega)
  | case2 p q size s hs =>
    cases h
    exact ⟨0, by simp, by simp, by simp⟩

/-- A copy that returns has read every byte of its source. -/
theorem loads_copyData (hM : Keeps M P B) (h0 : P s)
    (hq : ∀ i, i < size.toNat → B (q + BitVec.ofNat 32 i))
    (h : ZeOS.copyData M p q size s = some s') {i : Nat} (hi : i < size.toNat) :
    Loads M P (p + BitVec.ofNat 32 i) := by
  simp only [ZeOS.copyData, Option.bind_eq_bind, Option.bind_eq_some_iff, Prod.exists] at h
  obtain ⟨p₁, q₁, size₁, s₁, hwords, hbytes⟩ := h
  obtain ⟨hP, hrest⟩ := hM.copyWords h0 hq hwords
  obtain ⟨d, rfl, rfl, hd⟩ := hM.loads_words h0 hq hwords
  by_cases hlow : i < d
  · exact hd i hlow
  · obtain ⟨j, rfl⟩ := Nat.exists_eq_add_of_le (Nat.le_of_not_lt hlow)
    rw [← add_ofNat_add]
    exact hM.loads_bytes hP hrest hbytes (by omega)

end Keeps

/-! ## When a copy does not fault -/

/-- Loads in `A` and stores in `B` do not fault, and keep `P`. -/
structure Serves {S : Type} (M : ByteMemory S) (P : S → Prop) (A B : Word → Prop) : Prop where
  load : ∀ {a s}, P s → A a → ∃ b s', M.load a s = some (b, s') ∧ P s'
  store : ∀ {a s} b, P s → B a → ∃ s', M.store a b s = some s' ∧ P s'

namespace Serves

variable {S : Type} {M : ByteMemory S} {P : S → Prop} {A B : Word → Prop} {p q : Word} {size : Int}
  {s : S}

theorem copyByte (hM : Serves M P A B) (h0 : P s) (hp : A p) (hq : B q) :
    ∃ s', copyByte M p q s = some s' ∧ P s' := by
  obtain ⟨b, s₁, h₁, hP₁⟩ := hM.load h0 hp
  obtain ⟨s₂, h₂, hP₂⟩ := hM.store b hP₁ hq
  exact ⟨s₂, by simp [ZeOS.copyByte, h₁, h₂], hP₂⟩

theorem copyWord (hM : Serves M P A B) (h0 : P s)
    (hp : ∀ i : Nat, i < 4 → A (p + BitVec.ofNat 32 i))
    (hq : ∀ i : Nat, i < 4 → B (q + BitVec.ofNat 32 i)) :
    ∃ s', copyWord M p q s = some s' ∧ P s' := by
  have hp0 : A p := by simpa using hp 0 (by omega)
  have hq0 : B q := by simpa using hq 0 (by omega)
  obtain ⟨b₀, s₀, h₀, hP₀⟩ := hM.load h0 hp0
  obtain ⟨b₁, s₁, h₁, hP₁⟩ := hM.load hP₀ (hp 1 (by omega))
  obtain ⟨b₂, s₂, h₂, hP₂⟩ := hM.load hP₁ (hp 2 (by omega))
  obtain ⟨b₃, s₃, h₃, hP₃⟩ := hM.load hP₂ (hp 3 (by omega))
  obtain ⟨t₀, g₀, hT₀⟩ := hM.store b₀ hP₃ hq0
  obtain ⟨t₁, g₁, hT₁⟩ := hM.store b₁ hT₀ (hq 1 (by omega))
  obtain ⟨t₂, g₂, hT₂⟩ := hM.store b₂ hT₁ (hq 2 (by omega))
  obtain ⟨t₃, g₃, hT₃⟩ := hM.store b₃ hT₂ (hq 3 (by omega))
  exact ⟨t₃, by simp [ZeOS.copyWord, h₀, h₁, h₂, h₃, g₀, g₁, g₂, g₃], hT₃⟩

theorem copyBytes (hM : Serves M P A B) (h0 : P s)
    (hp : ∀ i, i < size.toNat → A (p + BitVec.ofNat 32 i))
    (hq : ∀ i, i < size.toNat → B (q + BitVec.ofNat 32 i)) :
    ∃ s', copyBytes M p q size s = some s' ∧ P s' := by
  fun_induction ZeOS.copyBytes M p q size s with
  | case1 p q size s hs ih =>
    obtain ⟨s₁, h₁, hP₁⟩ := hM.copyByte h0 (by simpa using hp 0 (by omega))
      (by simpa using hq 0 (by omega))
    obtain ⟨s₂, h₂, hP₂⟩ := ih s₁ hP₁
      (fun i hi => add_ofNat_add p 1 i ▸ hp (1 + i) (by omega))
      (fun i hi => add_ofNat_add q 1 i ▸ hq (1 + i) (by omega))
    exact ⟨s₂, by simp [h₁, h₂], hP₂⟩
  | case2 p q size s hs => exact ⟨s, rfl, h0⟩

/-- The word loop leaves a rest of the two blocks. -/
theorem copyWords (hM : Serves M P A B) (h0 : P s)
    (hp : ∀ i, i < size.toNat → A (p + BitVec.ofNat 32 i))
    (hq : ∀ i, i < size.toNat → B (q + BitVec.ofNat 32 i)) :
    ∃ d s', d ≤ size.toNat ∧ copyWords M p q size s =
        some (p + BitVec.ofNat 32 d, q + BitVec.ofNat 32 d, size - d, s') ∧ P s' := by
  fun_induction ZeOS.copyWords M p q size s with
  | case1 p q size s hs ih =>
    obtain ⟨s₁, h₁, hP₁⟩ := hM.copyWord h0 (fun i hi => hp i (by omega))
      (fun i hi => hq i (by omega))
    obtain ⟨d, s₂, hd, h₂, hP₂⟩ := ih s₁ hP₁
      (fun i hi => add_ofNat_add p 4 i ▸ hp (4 + i) (by omega))
      (fun i hi => add_ofNat_add q 4 i ▸ hq (4 + i) (by omega))
    refine ⟨4 + d, s₂, by omega, ?_, hP₂⟩
    rw [h₁, Option.bind_eq_bind, Option.bind_some, h₂, ← add_ofNat_add, ← add_ofNat_add]
    congr 4
    omega
  | case2 p q size s hs => exact ⟨0, s, by omega, by simp, h0⟩

theorem copyData (hM : Serves M P A B) (h0 : P s)
    (hp : ∀ i, i < size.toNat → A (p + BitVec.ofNat 32 i))
    (hq : ∀ i, i < size.toNat → B (q + BitVec.ofNat 32 i)) :
    ∃ s', copyData M p q size s = some s' ∧ P s' := by
  obtain ⟨d, s₁, hd, h₁, hP₁⟩ := hM.copyWords h0 hp hq
  obtain ⟨s₂, h₂, hP₂⟩ : ∃ s₂, ZeOS.copyBytes M (p + BitVec.ofNat 32 d) (q + BitVec.ofNat 32 d)
      (size - d) s₁ = some s₂ ∧ P s₂ := hM.copyBytes hP₁
    (fun i hi => add_ofNat_add p d i ▸ hp (d + i) (by omega))
    (fun i hi => add_ofNat_add q d i ▸ hq (d + i) (by omega))
  exact ⟨s₂, by simp [ZeOS.copyData, h₁, h₂], hP₂⟩

end Serves

/-- Memory in which every access succeeds, as the kernel's own pages are. -/
def flat : ByteMemory (Word → Byte) where
  load a m := some (m a, m)
  store a b m := some (Function.update m a b)

/-- A copy downwards reads every byte before it is overwritten; so does one between disjoint
blocks. -/
theorem noClobber_of_le {p q : Word} {n : Nat} (hp : p.toNat + n ≤ 2 ^ 32)
    (h : p.toNat + n ≤ q.toNat ∨ q.toNat ≤ p.toNat) : NoClobber p q n := by
  intro i j hij hj heq
  have hto := congrArg BitVec.toNat heq
  rw [BitVec.toNat_add, BitVec.toNat_add, BitVec.toNat_ofNat, BitVec.toNat_ofNat] at hto
  omega

theorem copyData_flat {p q : Word} {size : Int} (hn : size.toNat ≤ 2 ^ 32)
    (hc : NoClobber p q size.toNat) (m : Word → Byte) :
    copyData flat p q size m = some (copied p q size.toNat m) := by
  have hV : View flat (fun s m => s = m) (fun _ => True) (fun _ => True) := by
    constructor
    · rintro s m a rfl -
      exact ⟨s, rfl, rfl⟩
    · rintro s m a b rfl -
      exact ⟨_, rfl, rfl⟩
  obtain ⟨s', hs, rfl⟩ := copyData_spec hV (rfl : m = m) hn hc (fun _ _ => trivial)
    (fun _ _ => trivial)
  exact hs

/-- The three copy functions are one byte copy, between disjoint blocks and downwards. -/
theorem copyData_eq_byte_copy (start dest : Word) (size : Int) (m : Word → Byte)
    (hstart : start.toNat + size.toNat ≤ 2 ^ 32) (hdest : dest.toNat + size.toNat ≤ 2 ^ 32)
    (h : start.toNat + size.toNat ≤ dest.toNat ∨ dest.toNat + size.toNat ≤ start.toNat ∨
      dest.toNat ≤ start.toNat) :
    ∃ m', copyData flat start dest size m = some m' ∧
      copyFromUser flat start dest size m = some (0, m') ∧
      copyToUser flat start dest size m = some (0, m') ∧
      (∀ i < size.toNat, m' (dest + BitVec.ofNat 32 i) = m (start + BitVec.ofNat 32 i)) ∧
      (∀ a, ¬ (dest.toNat ≤ a.toNat ∧ a.toNat < dest.toNat + size.toNat) → m' a = m a) ∧
      (size ≤ 0 → m' = m) := by
  have hn : size.toNat ≤ 2 ^ 32 := by omega
  have hc : NoClobber start dest size.toNat := noClobber_of_le hstart (by omega)
  have hcopy := copyData_flat hn hc m
  refine ⟨copied start dest size.toNat m, hcopy, ?_, ?_, ?_, ?_, ?_⟩
  · rw [copyFromUser, hcopy]
    rfl
  · rw [copyToUser, hcopy]
    rfl
  · intro i hi
    exact copied_inside start dest m hi hn
  · intro a ha
    refine copied_outside m ?_
    rw [Lib.Within, BitVec.toNat_sub]
    have := a.isLt
    omega
  · intro hle
    rw [Int.toNat_of_nonpos hle, copied_zero]

/-- Six bytes moved down by one, over themselves. -/
theorem copyData_eq_byte_copy_overlap :
    ∃ m', copyData flat 0x1001#32 0x1000#32 6 (fun a => a.setWidth 8) = some m' ∧
      m' 0x1000#32 = 1#8 ∧ m' 0x1005#32 = 6#8 ∧ m' 0x1006#32 = 6#8 := by
  obtain ⟨m', hcopy, -, -, hin, hout, -⟩ := copyData_eq_byte_copy 0x1001#32 0x1000#32 6
    (fun a => a.setWidth 8) (by decide) (by decide) (by decide)
  exact ⟨m', hcopy, hin 0 (by decide), hin 5 (by decide), hout 0x1006#32 (by decide)⟩

end ZeOS
