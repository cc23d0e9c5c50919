import Mathlib.Data.List.Chain
import Mathlib.Data.List.Nodup
import Mathlib.Logic.Function.Basic

/-!
# Circular doubly linked lists over an arbitrary node type

A `Links` value holds the two pointers of every node; `none` is the null pointer. `Ring σ h xs`
says that the head `h` represents the finite sequence `xs`: the nodes are distinct and following
`next` from the head visits `xs` and returns, with every `prev` pointing back. Insertion and
removal are stated once, between two neighbours; both ends of the list are special cases.

`Rings` is a family of such lists on disjoint nodes. Its rules update one list and leave every
other list of the family alone, so a client never argues about aliasing.
-/
namespace ZeOS.Lib

/-- The pointers of every node. -/
structure Links (ν : Type*) where
  next : ν → Option ν
  prev : ν → Option ν

namespace Links

variable {ν : Type*} [DecidableEq ν]

def setNext (σ : Links ν) (a : ν) (p : Option ν) : Links ν :=
  { σ with next := Function.update σ.next a p }

def setPrev (σ : Links ν) (a : ν) (p : Option ν) : Links ν :=
  { σ with prev := Function.update σ.prev a p }

@[simp] theorem next_setNext (σ : Links ν) (a b : ν) (p : Option ν) :
    (σ.setNext a p).next b = if b = a then p else σ.next b := Function.update_apply ..
@[simp] theorem prev_setNext (σ : Links ν) (a : ν) (p : Option ν) :
    (σ.setNext a p).prev = σ.prev := rfl
@[simp] theorem next_setPrev (σ : Links ν) (a : ν) (p : Option ν) :
    (σ.setPrev a p).next = σ.next := rfl
@[simp] theorem prev_setPrev (σ : Links ν) (a b : ν) (p : Option ν) :
    (σ.setPrev a p).prev b = if b = a then p else σ.prev b := Function.update_apply ..

/-- Insert `n` between `p` and `q`, with the stores in the usual order. -/
def insert (σ : Links ν) (n p q : ν) : Links ν :=
  (((σ.setPrev q (some n)).setNext n (some q)).setPrev n (some p)).setNext p (some n)

/-- Make `p` and `q` neighbours and clear the node `e` that stood between them. -/
def remove (σ : Links ν) (e p q : ν) : Links ν :=
  (((σ.setPrev q (some p)).setNext p (some q)).setNext e none).setPrev e none

/-- Two pointer maps agree on the pointers of `a`. -/
def AgreeAt (σ τ : Links ν) (a : ν) : Prop := τ.next a = σ.next a ∧ τ.prev a = σ.prev a

omit [DecidableEq ν] in
theorem AgreeAt.trans {σ τ υ : Links ν} {a : ν} (h : σ.AgreeAt τ a) (g : τ.AgreeAt υ a) :
    σ.AgreeAt υ a := ⟨g.1.trans h.1, g.2.trans h.2⟩

theorem insert_agreeAt (σ : Links ν) {n p q a : ν} (hn : a ≠ n) (hp : a ≠ p) (hq : a ≠ q) :
    σ.AgreeAt (σ.insert n p q) a := by
  simp [AgreeAt, insert, hn, hp, hq]

theorem remove_agreeAt (σ : Links ν) {e p q a : ν} (he : a ≠ e) (hp : a ≠ p) (hq : a ≠ q) :
    σ.AgreeAt (σ.remove e p q) a := by
  simp [AgreeAt, remove, he, hp, hq]

/-- A node in no list, as insertion expects it and removal leaves it. -/
def Detached (σ : Links ν) (a : ν) : Prop := σ.next a = none ∧ σ.prev a = none

omit [DecidableEq ν] in
theorem AgreeAt.detached {σ τ : Links ν} {a : ν} (h : σ.AgreeAt τ a) (hd : σ.Detached a) :
    τ.Detached a := ⟨h.1.trans hd.1, h.2.trans hd.2⟩

end Links

section Ring

variable {ν : Type*}

/-- `a` and `b` are neighbours, seen from both sides. -/
def Linked (σ : Links ν) (a b : ν) : Prop := σ.next a = some b ∧ σ.prev b = some a

/-- The head `h` represents the sequence `xs`. -/
structure Ring (σ : Links ν) (h : ν) (xs : List ν) : Prop where
  nodup : (h :: xs).Nodup
  chain : (h :: (xs ++ [h])).IsChain (Linked σ)

/-- A chain reads `next` everywhere but at its last node and `prev` everywhere but at its first. -/
theorem chain_congr {σ τ : Links ν} {l : List ν} (hl : l.IsChain (Linked σ))
    (hn : ∀ a ∈ l.dropLast, τ.next a = σ.next a) (hp : ∀ a ∈ l.tail, τ.prev a = σ.prev a) :
    l.IsChain (Linked τ) := by
  induction l with
  | nil => exact .nil
  | cons a l ih =>
    cases l with
    | nil => exact .singleton a
    | cons b l =>
      obtain ⟨hab, hl⟩ := List.isChain_cons_cons.mp hl
      refine List.isChain_cons_cons.mpr ⟨⟨?_, ?_⟩, ih hl ?_ ?_⟩
      · exact (hn a (by simp)).trans hab.1
      · exact (hp b (by simp)).trans hab.2
      · exact fun c hc => hn c (by simp [hc])
      · exact fun c hc => hp c (by simpa using Or.inr hc)

/-- A ring cut between two neighbours: the predecessor is the last node of the first half and
the successor the first node of the second, the head standing in for an empty half. -/
theorem ring_split {σ : Links ν} {h : ν} {as bs : List ν} :
    Ring σ h (as ++ bs) ↔ (h :: (as ++ bs)).Nodup ∧ (h :: as).IsChain (Linked σ) ∧
      (bs ++ [h]).IsChain (Linked σ) ∧ Linked σ (as.getLast?.getD h) (bs.head?.getD h) := by
  have glue : h :: (as ++ bs ++ [h]) = (h :: as) ++ (bs ++ [h]) := by simp
  have last : (h :: as).getLast? = some (as.getLast?.getD h) := by
    cases as with
    | nil => rfl
    | cons a as => simp [List.getLast?_eq_getLast_of_ne_nil]
  have first : (bs ++ [h]).head? = some (bs.head?.getD h) := by cases bs <;> rfl
  constructor
  · rintro ⟨hd, hc⟩
    rw [glue, List.isChain_append] at hc
    exact ⟨hd, hc.1, hc.2.1, hc.2.2 _ last _ first⟩
  · rintro ⟨hd, ha, hb, hab⟩
    refine ⟨hd, ?_⟩
    rw [glue, List.isChain_append]
    refine ⟨ha, hb, ?_⟩
    intro x hx y hy
    rw [last] at hx
    rw [first] at hy
    cases hx
    cases hy
    exact hab

theorem mem_getLast?_getD (h : ν) (as : List ν) : as.getLast?.getD h ∈ h :: as := by
  cases as with
  | nil => simp
  | cons a as => simp [List.getLast?_eq_getLast_of_ne_nil]

theorem mem_head?_getD (h : ν) (bs : List ν) : bs.head?.getD h ∈ h :: bs := by
  cases bs <;> simp

/-- Changes outside a list leave what it represents unchanged. -/
theorem Ring.congr {σ τ : Links ν} {h : ν} {xs : List ν} (hr : Ring σ h xs)
    (agree : ∀ a ∈ h :: xs, σ.AgreeAt τ a) : Ring τ h xs := by
  refine ⟨hr.nodup, chain_congr hr.chain ?_ ?_⟩
  · intro a ha
    have : a ∈ h :: xs := by simpa [List.dropLast_cons_of_ne_nil] using ha
    exact (agree a this).1
  · intro a ha
    have : a ∈ h :: xs := by simp at ha; grind
    exact (agree a this).2

theorem getLast?_notMem_dropLast {h : ν} {as : List ν} (hd : (h :: as).Nodup) :
    as.getLast?.getD h ∉ (h :: as).dropLast := by
  have glue := List.dropLast_append_getLast (l := h :: as) (by simp)
  have last : (h :: as).getLast (by simp) = as.getLast?.getD h := by
    cases as with
    | nil => rfl
    | cons a as => simp [List.getLast?_eq_getLast_of_ne_nil]
  rw [last] at glue
  rw [← glue, List.nodup_append] at hd
  intro hm
  exact hd.2.2 _ hm _ (by simp) rfl

/-- Removing from, or inserting between, the halves of a ring changes only the `next` of the
predecessor and the `prev` of the successor, which neither half reads. -/
theorem halves_congr {σ τ : Links ν} {h : ν} {as bs : List ν} {S : ν → Prop}
    (hd : (h :: (as ++ bs)).Nodup) (hS : ∀ a ∈ h :: (as ++ bs), ¬ S a)
    (hn : ∀ a, ¬ S a → a ≠ as.getLast?.getD h → τ.next a = σ.next a)
    (hp : ∀ a, ¬ S a → a ≠ bs.head?.getD h → τ.prev a = σ.prev a)
    (ha : (h :: as).IsChain (Linked σ)) (hb : (bs ++ [h]).IsChain (Linked σ)) :
    (h :: as).IsChain (Linked τ) ∧ (bs ++ [h]).IsChain (Linked τ) := by
  have hda : (h :: as).Nodup := by simp [List.nodup_append] at hd ⊢; tauto
  have hdb : (h :: bs).Nodup := by simp [List.nodup_append] at hd ⊢; tauto
  refine ⟨chain_congr ha ?_ ?_, chain_congr hb ?_ ?_⟩
  · intro a hm
    refine hn a (hS a ?_) ?_
    · have := List.dropLast_subset _ hm
      grind
    · rintro rfl
      exact getLast?_notMem_dropLast hda hm
  · intro a hm
    simp only [List.tail_cons] at hm
    refine hp a (hS a (by simp [hm])) ?_
    rintro rfl
    have := mem_head?_getD h bs
    grind
  · intro a hm
    simp only [List.dropLast_concat] at hm
    refine hn a (hS a (by simp [hm])) ?_
    rintro rfl
    have := mem_getLast?_getD h as
    grind
  · intro a hm
    cases bs with
    | nil => simp at hm
    | cons b bs =>
      simp only [List.cons_append, List.tail_cons, List.mem_append, List.mem_singleton] at hm
      refine hp a (hS a (by grind)) ?_
      simp only [List.head?_cons, Option.getD_some]
      rintro rfl
      grind

variable [DecidableEq ν]

theorem Ring.insert {σ : Links ν} {h n : ν} {as bs : List ν} (hr : Ring σ h (as ++ bs))
    (hn : n ∉ h :: (as ++ bs)) :
    Ring (σ.insert n (as.getLast?.getD h) (bs.head?.getD h)) h (as ++ n :: bs) := by
  obtain ⟨hd, ha, hb, -⟩ := ring_split.mp hr
  have hp : as.getLast?.getD h ≠ n := by have := mem_getLast?_getD h as; grind
  have hq : bs.head?.getD h ≠ n := by have := mem_head?_getD h bs; grind
  obtain ⟨ha', hb'⟩ := halves_congr (τ := σ.insert n (as.getLast?.getD h) (bs.head?.getD h))
    (S := (· = n)) hd (by grind) (by simp [Links.insert]; grind)
    (by simp [Links.insert]; grind) ha hb
  have hd' : (h :: (as ++ n :: bs)).Nodup := by
    simp [List.nodup_append] at hd hn ⊢
    grind
  refine ring_split.mpr ⟨hd', ha', ?_, ?_, ?_⟩
  · cases bs with
    | nil =>
      have : h ≠ n := by simpa using hq
      simp [Linked, Links.insert, hp.symm, this]
    | cons b bs =>
      refine List.isChain_cons_cons.mpr ⟨⟨?_, ?_⟩, hb'⟩
      · simp [Links.insert, hp.symm]
      · have : b ≠ n := by simpa using hq
        simp [Links.insert, this]
  · simp [Links.insert]
  · simp [Links.insert]

theorem Ring.remove {σ : Links ν} {h e : ν} {as bs : List ν} (hr : Ring σ h (as ++ e :: bs)) :
    Ring (σ.remove e (as.getLast?.getD h) (bs.head?.getD h)) h (as ++ bs) := by
  obtain ⟨hd, ha, hb, -⟩ := ring_split.mp hr
  have he : e ∉ h :: (as ++ bs) := by simp [List.nodup_append] at hd ⊢; grind
  have hd' : (h :: (as ++ bs)).Nodup := by simp [List.nodup_append] at hd ⊢; grind
  have hp : as.getLast?.getD h ≠ e := by have := mem_getLast?_getD h as; grind
  have hq : bs.head?.getD h ≠ e := by have := mem_head?_getD h bs; grind
  have hb : (bs ++ [h]).IsChain (Linked σ) := by simpa using hb.tail
  obtain ⟨ha', hb'⟩ := halves_congr (τ := σ.remove e (as.getLast?.getD h) (bs.head?.getD h))
    (S := (· = e)) hd' (by grind) (by simp [Links.remove]; grind)
    (by simp [Links.remove]; grind) ha hb
  exact ring_split.mpr ⟨hd', ha', hb', by simp [Links.remove, hp], by simp [Links.remove, hq]⟩

omit [DecidableEq ν] in
theorem Ring.next_head {σ : Links ν} {h : ν} {xs : List ν} (hr : Ring σ h xs) :
    σ.next h = some (xs.head?.getD h) := by
  have hr : Ring σ h ([] ++ xs) := hr
  exact (ring_split.mp hr).2.2.2.1

omit [DecidableEq ν] in
theorem Ring.prev_head {σ : Links ν} {h : ν} {xs : List ν} (hr : Ring σ h xs) :
    σ.prev h = some (xs.getLast?.getD h) := by
  have hr : Ring σ h (xs ++ []) := by simpa using hr
  exact (ring_split.mp hr).2.2.2.2

omit [DecidableEq ν] in
/-- A head points at itself exactly when it represents the empty sequence. -/
theorem Ring.next_head_eq_self {σ : Links ν} {h : ν} {xs : List ν} (hr : Ring σ h xs) :
    σ.next h = some h ↔ xs = [] := by
  rw [hr.next_head]
  cases xs with
  | nil => simp
  | cons x xs =>
    have := hr.nodup
    simp only [List.nodup_cons, List.mem_cons, not_or] at this
    simp [Ne.symm this.1.1]

omit [DecidableEq ν] in
theorem Ring.next_mem {σ : Links ν} {h e : ν} {as bs : List ν} (hr : Ring σ h (as ++ e :: bs)) :
    σ.next e = some (bs.head?.getD h) := by
  have hr : Ring σ h ((as ++ [e]) ++ bs) := by simpa using hr
  simpa using (ring_split.mp hr).2.2.2.1

omit [DecidableEq ν] in
theorem Ring.prev_mem {σ : Links ν} {h e : ν} {as bs : List ν} (hr : Ring σ h (as ++ e :: bs)) :
    σ.prev e = some (as.getLast?.getD h) := by
  simpa using (ring_split.mp hr).2.2.2.2

omit [DecidableEq ν] in
theorem Ring.not_detached {σ : Links ν} {h a : ν} {xs : List ν} (hr : Ring σ h xs)
    (ha : a ∈ xs) : ¬ σ.Detached a := by
  obtain ⟨as, bs, rfl⟩ := List.append_of_mem ha
  intro hd
  simp [Links.Detached, hr.next_mem] at hd

omit [DecidableEq ν] in
/-- A chain is determined by its first node and the first return to `h`. -/
theorem chain_unique {σ : Links ν} {a h : ν} {xs ys : List ν}
    (hx : (a :: (xs ++ [h])).IsChain (Linked σ)) (hy : (a :: (ys ++ [h])).IsChain (Linked σ))
    (hnx : h ∉ xs) (hny : h ∉ ys) : xs = ys := by
  induction xs generalizing a ys with
  | nil =>
    cases ys with
    | nil => rfl
    | cons y ys =>
      have h₁ : σ.next a = some h := (List.isChain_cons_cons.mp hx).1.1
      have h₂ : σ.next a = some y := (List.isChain_cons_cons.mp hy).1.1
      obtain rfl : h = y := Option.some.inj (h₁.symm.trans h₂)
      exact absurd List.mem_cons_self hny
  | cons x xs ih =>
    obtain ⟨h₁, hx⟩ := List.isChain_cons_cons.mp hx
    cases ys with
    | nil =>
      have h₂ : σ.next a = some h := (List.isChain_cons_cons.mp hy).1.1
      obtain rfl : x = h := Option.some.inj (h₁.1.symm.trans h₂)
      exact absurd List.mem_cons_self hnx
    | cons y ys =>
      obtain ⟨h₂, hy⟩ := List.isChain_cons_cons.mp hy
      obtain rfl : x = y := Option.some.inj (h₁.1.symm.trans h₂.1)
      rw [ih hx hy (fun hm => hnx (List.mem_cons_of_mem _ hm))
        (fun hm => hny (List.mem_cons_of_mem _ hm))]

omit [DecidableEq ν] in
/-- A head represents one sequence at most. -/
theorem Ring.eq {σ : Links ν} {h : ν} {xs ys : List ν} (hx : Ring σ h xs) (hy : Ring σ h ys) :
    xs = ys :=
  chain_unique hx.chain hy.chain (List.nodup_cons.mp hx.nodup).1 (List.nodup_cons.mp hy.nodup).1

/-- A head made to point at itself represents the empty sequence. -/
theorem Ring.init (σ : Links ν) (h : ν) :
    Ring ((σ.setNext h (some h)).setPrev h (some h)) h [] := by
  refine ⟨by simp, ?_⟩
  simp [Linked]

end Ring

section Rings

variable {ν : Type*} [DecidableEq ν]

/-- Every head of `D` represents its sequence of `L`, and no node is in two of these lists. -/
structure Rings (σ : Links ν) (D : Set ν) (L : ν → List ν) : Prop where
  ring : ∀ h ∈ D, Ring σ h (L h)
  disjoint : ∀ h ∈ D, ∀ g ∈ D, h ≠ g → (h :: L h).Disjoint (g :: L g)

/-- `a` is neither a head nor a member of a list of the family. -/
def Apart (D : Set ν) (L : ν → List ν) (a : ν) : Prop := ∀ h ∈ D, a ∉ h :: L h

omit [DecidableEq ν] in
/-- One list is a family. -/
theorem Ring.single {σ : Links ν} {h : ν} {xs : List ν} (hr : Ring σ h xs) :
    Rings σ {h} fun _ => xs := by
  refine ⟨?_, ?_⟩
  · rintro g rfl
    exact hr
  · rintro g rfl f rfl hne
    exact absurd rfl hne

/-- Two lists on disjoint nodes are a family. -/
theorem Ring.pair {σ : Links ν} {h g : ν} {xs ys : List ν} (hr : Ring σ h xs) (hg : Ring σ g ys)
    (hd : (g :: ys).Disjoint (h :: xs)) : Rings σ {h, g} fun f => if f = h then xs else ys := by
  have hne : g ≠ h := by
    rintro rfl
    exact hd List.mem_cons_self List.mem_cons_self
  refine ⟨?_, ?_⟩
  · rintro f (rfl | rfl)
    · simpa using hr
    · simpa [hne] using hg
  · rintro f (rfl | rfl) f' (rfl | rfl) hff
    · exact absurd rfl hff
    · simpa [hne] using List.disjoint_comm.mp hd
    · simpa [hne] using hd
    · exact absurd rfl hff

/-- Lists on other nodes than `as` are as before. -/
def Unaffected (as : List ν) (σ τ : Links ν) : Prop :=
  ∀ g ys, Ring σ g ys → (g :: ys).Disjoint as → Ring τ g ys

omit [DecidableEq ν] in
theorem unaffected_of_agreeAt {σ τ : Links ν} {as : List ν} (h : ∀ a, a ∉ as → σ.AgreeAt τ a) :
    Unaffected as σ τ := by
  intro g ys hg hd
  exact hg.congr fun a ha => h a fun hm => hd ha hm

theorem Apart.erase {D : Set ν} {L : ν → List ν} {a : ν} (ha : Apart D L a) (h e : ν) :
    Apart D (Function.update L h ((L h).erase e)) a := by
  intro g hg hm
  refine ha g hg ?_
  by_cases hgh : g = h
  · subst g
    rw [Function.update_self, List.mem_cons] at hm
    exact List.mem_cons.mpr (hm.imp_right List.mem_of_mem_erase)
  · rwa [Function.update_of_ne hgh] at hm

theorem Apart.append {D : Set ν} {L : ν → List ν} {a n : ν} (ha : Apart D L a) (han : a ≠ n)
    (h : ν) : Apart D (Function.update L h (L h ++ [n])) a := by
  intro g hg hm
  refine ha g hg ?_
  by_cases hgh : g = h
  · subst g
    simpa [han] using hm
  · rwa [Function.update_of_ne hgh] at hm

namespace Rings

variable {σ τ : Links ν} {D : Set ν} {L : ν → List ν} {h n e : ν}

omit [DecidableEq ν] in
theorem congr (hr : Rings σ D L) (agree : ∀ a, ¬ Apart D L a → σ.AgreeAt τ a) :
    Rings τ D L := by
  refine ⟨fun h hh => (hr.ring h hh).congr ?_, hr.disjoint⟩
  intro a ha
  exact agree a fun hap => hap h hh ha

omit [DecidableEq ν] in
theorem lists_congr {M : ν → List ν} (hr : Rings σ D L) (hM : ∀ h ∈ D, M h = L h) :
    Rings σ D M := by
  refine ⟨fun h hh => hM h hh ▸ hr.ring h hh, fun h hh g hg hne => ?_⟩
  rw [hM h hh, hM g hg]
  exact hr.disjoint h hh g hg hne

omit [DecidableEq ν] in
theorem mono {E : Set ν} (hr : Rings σ D L) (hE : E ⊆ D) : Rings σ E L :=
  ⟨fun h hh => hr.ring h (hE hh), fun h hh g hg => hr.disjoint h (hE hh) g (hE hg)⟩

omit [DecidableEq ν] in
/-- A node of one list is neither the head nor a member of another. -/
theorem unique (hr : Rings σ D L) {g a : ν} (hh : h ∈ D) (hg : g ∈ D) (ha : a ∈ h :: L h)
    (ha' : a ∈ g :: L g) : h = g := by
  by_contra hne
  exact hr.disjoint h hh g hg hne ha ha'

/-- Insert a fresh node anywhere in a list. -/
theorem add (hr : Rings σ D L) (hh : h ∈ D) (hn : Apart D L n) {as bs : List ν}
    (hL : L h = as ++ bs) :
    Rings (σ.insert n (as.getLast?.getD h) (bs.head?.getD h)) D
        (Function.update L h (as ++ n :: bs)) ∧
      ∀ a, Apart D L a → a ≠ n →
        σ.AgreeAt (σ.insert n (as.getLast?.getD h) (bs.head?.getD h)) a := by
  have hring := hr.ring h hh
  rw [hL] at hring
  set p := as.getLast?.getD h with hp
  set q := bs.head?.getD h with hq
  have hpm : p ∈ h :: L h := by have := mem_getLast?_getD h as; grind
  have hqm : q ∈ h :: L h := by have := mem_head?_getD h bs; grind
  refine ⟨⟨?_, ?_⟩, ?_⟩
  · intro g hg
    by_cases hgh : g = h
    · subst g
      rw [Function.update_self]
      exact hring.insert (hL ▸ hn h hh)
    · rw [Function.update_of_ne hgh]
      refine (hr.ring g hg).congr fun a ha => σ.insert_agreeAt ?_ ?_ ?_
      · rintro rfl; exact hn g hg ha
      · rintro rfl; exact hgh (hr.unique hg hh ha hpm)
      · rintro rfl; exact hgh (hr.unique hg hh ha hqm)
  · intro g hg g' hg' hne a ha ha'
    have key : ∀ f ∈ D, a ∈ f :: Function.update L h (as ++ n :: bs) f →
        a ∈ f :: L f ∨ (f = h ∧ a = n) := by
      intro f _ hf
      by_cases hfh : f = h
      · subst f
        rw [Function.update_self] at hf
        rw [hL]
        simp only [List.mem_cons, List.mem_append] at hf ⊢
        tauto
      · rw [Function.update_of_ne hfh] at hf
        exact .inl hf
    rcases key g hg ha with hag | ⟨hgh, han⟩ <;>
      rcases key g' hg' ha' with hag' | ⟨hgh', han'⟩
    · exact hr.disjoint g hg g' hg' hne hag hag'
    · exact hn g hg (han' ▸ hag)
    · exact hn g' hg' (han ▸ hag')
    · exact hne (hgh.trans hgh'.symm)
  · intro a hap han
    refine σ.insert_agreeAt han ?_ ?_
    · rintro rfl; exact hap h hh hpm
    · rintro rfl; exact hap h hh hqm

/-- Insert a fresh node before the head, that is, at the tail. -/
theorem addTail (hr : Rings σ D L) (hh : h ∈ D) (hn : Apart D L n) :
    ∃ p, σ.prev h = some p ∧
      Rings (σ.insert n p h) D (Function.update L h (L h ++ [n])) ∧
      ∀ a, Apart D L a → a ≠ n → σ.AgreeAt (σ.insert n p h) a :=
  ⟨_, (hr.ring h hh).prev_head, hr.add hh hn (List.append_nil _).symm⟩

/-- Insert a fresh node after the head. -/
theorem addHead (hr : Rings σ D L) (hh : h ∈ D) (hn : Apart D L n) :
    ∃ q, σ.next h = some q ∧
      Rings (σ.insert n h q) D (Function.update L h (n :: L h)) ∧
      ∀ a, Apart D L a → a ≠ n → σ.AgreeAt (σ.insert n h q) a :=
  ⟨_, (hr.ring h hh).next_head, hr.add hh hn (List.nil_append _).symm⟩

/-- Remove a member from its list; its pointers end up null. -/
theorem del (hr : Rings σ D L) (hh : h ∈ D) (he : e ∈ L h) :
    ∃ p q, σ.prev e = some p ∧ σ.next e = some q ∧
      Rings (σ.remove e p q) D (Function.update L h ((L h).erase e)) ∧
      Apart D (Function.update L h ((L h).erase e)) e ∧
      (σ.remove e p q).Detached e ∧
      ∀ a, Apart D L a → σ.AgreeAt (σ.remove e p q) a := by
  have hring := hr.ring h hh
  obtain ⟨as, bs, hL, hea⟩ := List.eq_append_cons_of_mem he
  rw [hL] at hring
  set p := as.getLast?.getD h with hp
  set q := bs.head?.getD h with hq
  have hpm : p ∈ h :: L h := by have := mem_getLast?_getD h as; grind
  have hqm : q ∈ h :: L h := by have := mem_head?_getD h bs; grind
  have hem : e ∈ h :: L h := by simp [he]
  have erase : (L h).erase e = as ++ bs := by
    rw [hL, List.erase_append_right _ hea, List.erase_cons_head]
  refine ⟨p, q, hring.prev_mem, hring.next_mem, ⟨?_, ?_⟩, ?_, ?_, ?_⟩
  · intro g hg
    by_cases hgh : g = h
    · subst g
      simpa [erase, hp, hq] using hring.remove
    · rw [Function.update_of_ne hgh]
      refine (hr.ring g hg).congr fun a ha => σ.remove_agreeAt ?_ ?_ ?_
      · rintro rfl; exact hgh (hr.unique hg hh ha hem)
      · rintro rfl; exact hgh (hr.unique hg hh ha hpm)
      · rintro rfl; exact hgh (hr.unique hg hh ha hqm)
  · intro g hg g' hg' hne a ha ha'
    have key : ∀ f, a ∈ f :: Function.update L h ((L h).erase e) f → a ∈ f :: L f := by
      intro f hf
      by_cases hfh : f = h
      · subst f
        simp only [Function.update_self, List.mem_cons] at hf ⊢
        exact hf.imp_right List.mem_of_mem_erase
      · rwa [Function.update_of_ne hfh] at hf
    exact hr.disjoint g hg g' hg' hne (key g ha) (key g' ha')
  · intro g hg hm
    by_cases hgh : g = h
    · subst g
      rw [Function.update_self, erase] at hm
      have := hring.nodup
      grind
    · rw [Function.update_of_ne hgh] at hm
      exact hgh (hr.unique hg hh hm hem)
  · simp [Links.Detached, Links.remove]
  · intro a hap
    refine σ.remove_agreeAt ?_ ?_ ?_
    · rintro rfl; exact hap h hh hem
    · rintro rfl; exact hap h hh hpm
    · rintro rfl; exact hap h hh hqm

/-- Initialise a fresh head. -/
theorem init (hr : Rings σ D L) (hh : Apart D L h) :
    Rings ((σ.setNext h (some h)).setPrev h (some h)) (insert h D) (Function.update L h []) ∧
      ∀ a, a ≠ h → σ.AgreeAt ((σ.setNext h (some h)).setPrev h (some h)) a := by
  have frame : ∀ a, a ≠ h → σ.AgreeAt ((σ.setNext h (some h)).setPrev h (some h)) a := by
    intro a hah
    simp [Links.AgreeAt, hah]
  have out : ∀ g ∈ D, g ≠ h := by
    rintro g hg rfl
    exact hh g hg (by simp)
  refine ⟨⟨?_, ?_⟩, frame⟩
  · rintro g (rfl | hg)
    · simpa using Ring.init σ g
    · rw [Function.update_of_ne (out g hg)]
      exact (hr.ring g hg).congr fun a ha => frame a (by rintro rfl; exact hh g hg ha)
  · rintro g (rfl | hg) g' (rfl | hg') hne a ha ha'
    · exact hne rfl
    · rw [Function.update_of_ne (out g' hg')] at ha'
      simp only [Function.update_self, List.mem_singleton] at ha
      subst ha
      exact hh g' hg' ha'
    · rw [Function.update_of_ne (out g hg)] at ha
      simp only [Function.update_self, List.mem_singleton] at ha'
      subst ha'
      exact hh g hg ha
    · rw [Function.update_of_ne (out g hg)] at ha
      rw [Function.update_of_ne (out g' hg')] at ha'
      exact hr.disjoint g hg g' hg' hne ha ha'

end Rings

end Rings

end ZeOS.Lib
