import Mathlib.Data.Finset.Card
import ZeOS.Memory.Paging

/-!
# The frame allocator

`alloc_frame` and `free_frame` under any sequence of calls. The allocator inspects the even frames
from 256 on and gives the smallest free one. `free_frame` takes any number; it leaves the kernel's
frames alone, and frame 256 with them, although the allocator gives that one.
-/
namespace ZeOS
open Lib

/-- A call of the allocator; `free_frame` takes any `unsigned`. -/
inductive FrameCall where
  | alloc
  | free (frame : Word)
  deriving DecidableEq

/-- The frame map after a call. -/
def FrameCall.run (physMem : Nat → Byte) : FrameCall → Nat → Byte
  | .alloc => (allocFrame physMem).2
  | .free frame => freeFrame frame.toNat physMem

/-- The frame map after a sequence of calls. -/
def framesAfter (physMem : Nat → Byte) (cs : List FrameCall) : Nat → Byte :=
  cs.foldl FrameCall.run physMem

/-- A frame the allocator can give. -/
def Candidate (f : Nat) : Prop := NUM_PAG_KERNEL ≤ f ∧ f ≤ TOTAL_PAGES - 2 ∧ f % 2 = 0

instance : DecidablePred Candidate := fun _ => inferInstanceAs (Decidable (_ ∧ _))

theorem mem_candidateFrames {f : Nat} : f ∈ candidateFrames ↔ Candidate f := by
  simp only [candidateFrames, List.mem_range', Candidate, NUM_PAG_KERNEL, TOTAL_PAGES]
  constructor
  · rintro ⟨i, hi, rfl⟩
    omega
  · rintro ⟨hlo, hhi, heven⟩
    exact ⟨(f - 256) / 2, by omega, by omega⟩

theorem Candidate.lt {f : Nat} (h : Candidate f) : f < TOTAL_PAGES := by
  have hle := h.2.1
  unfold TOTAL_PAGES at hle ⊢
  omega

/-! ## One call -/

section Call

variable {physMem : Nat → Byte} {f : Nat}

/-- A frame that is given is the smallest free candidate, and is marked. -/
theorem allocFrame_some (h : (allocFrame physMem).1 = f) :
    Candidate f ∧ physMem f = FREE_FRAME ∧
      (∀ g, Candidate g → physMem g = FREE_FRAME → f ≤ g) ∧
      (allocFrame physMem).2 = Function.update physMem f USED_FRAME := by
  unfold allocFrame at h ⊢
  split at h
  · rename_i i hi
    obtain rfl : i = f := Int.ofNat.inj h
    obtain ⟨hfree, before, after, hlist, hbefore⟩ := List.find?_eq_some_iff_append.mp hi
    refine ⟨mem_candidateFrames.mp (List.mem_of_find?_eq_some hi), by simpa using hfree, ?_, rfl⟩
    intro g hg hgf
    -- a free candidate is not among those passed over, and the others come in order
    have hsorted : candidateFrames.Pairwise (· < ·) := List.pairwise_lt_range' 2 (by decide)
    rw [← mem_candidateFrames, hlist, List.mem_append, List.mem_cons] at hg
    rw [hlist, List.pairwise_append, List.pairwise_cons] at hsorted
    rcases hg with hg | rfl | hg
    · have := hbefore g hg
      simp [hgf] at this
    · exact le_rfl
    · exact (hsorted.2.1.1 g hg).le
  · simp at h

/-- The allocator gives up only when no candidate is free, and then changes nothing. -/
theorem allocFrame_none :
    ((allocFrame physMem).1 = -1 ↔ ∀ g, Candidate g → physMem g ≠ FREE_FRAME) ∧
      ((allocFrame physMem).1 = -1 → (allocFrame physMem).2 = physMem) := by
  unfold allocFrame
  split
  · rename_i i hi
    have hmem := mem_candidateFrames.mp (List.mem_of_find?_eq_some hi)
    have hfree := List.find?_some hi
    refine ⟨⟨fun h => by simp at h, fun h => ?_⟩, fun h => by simp at h⟩
    exact absurd (by simpa using hfree) (h i hmem)
  · rename_i hnone
    refine ⟨⟨fun _ g hg => ?_, fun _ => rfl⟩, fun _ => rfl⟩
    have := List.find?_eq_none.mp hnone g (mem_candidateFrames.mpr hg)
    simpa using this

theorem allocFrame_cases (physMem : Nat → Byte) :
    (allocFrame physMem).1 = -1 ∨ ∃ f : Nat, (allocFrame physMem).1 = f := by
  unfold allocFrame
  split
  · exact .inr ⟨_, rfl⟩
  · exact .inl rfl

theorem freeFrame_apply (f g : Nat) (physMem : Nat → Byte) :
    freeFrame f physMem g =
      if g = f ∧ NUM_PAG_KERNEL < f ∧ f < TOTAL_PAGES then FREE_FRAME else physMem g := by
  unfold freeFrame
  by_cases hf : NUM_PAG_KERNEL < f ∧ f < TOTAL_PAGES
  · rw [if_pos hf, Function.update_apply]
    simp [hf]
  · rw [if_neg hf, if_neg fun h => hf h.2]

/-- A frame that is in use stays so unless it is freed. -/
theorem FrameCall.run_used {c : FrameCall} (h : physMem f ≠ FREE_FRAME)
    (hc : ∀ frame, c = .free frame → frame.toNat ≠ f) : c.run physMem f ≠ FREE_FRAME := by
  cases c with
  | alloc =>
    rcases allocFrame_cases physMem with hr | ⟨g, hg⟩
    · rwa [run, allocFrame_none.2 hr]
    · obtain ⟨-, hfree, -, hmap⟩ := allocFrame_some hg
      have hne : f ≠ g := by
        rintro rfl
        exact h hfree
      rwa [run, hmap, Function.update_of_ne hne]
  | free frame =>
    rw [run, freeFrame_apply, if_neg]
    · exact h
    · rintro ⟨rfl, -⟩
      exact hc frame rfl rfl

/-- The frames that the allocator can still give. -/
def freeFrames (physMem : Nat → Byte) : Finset Nat :=
  (candidateFrames.filter fun f => physMem f = FREE_FRAME).toFinset

theorem mem_freeFrames : f ∈ freeFrames physMem ↔ Candidate f ∧ physMem f = FREE_FRAME := by
  simp [freeFrames, mem_candidateFrames]

theorem allocFrame_eq_neg_one_iff :
    (allocFrame physMem).1 = -1 ↔ (freeFrames physMem).card = 0 := by
  rw [allocFrame_none.1, Finset.card_eq_zero, Finset.eq_empty_iff_forall_notMem]
  simp only [mem_freeFrames, not_and]

/-- There is one frame less to give afterwards. -/
theorem card_freeFrames_alloc (h : (allocFrame physMem).1 ≠ -1) :
    (freeFrames (allocFrame physMem).2).card + 1 = (freeFrames physMem).card := by
  obtain ⟨f, hf⟩ := (allocFrame_cases physMem).resolve_left h
  obtain ⟨hcand, hfree, -, hmap⟩ := allocFrame_some hf
  have herase : freeFrames (allocFrame physMem).2 = (freeFrames physMem).erase f := by
    ext g
    rw [Finset.mem_erase, mem_freeFrames, mem_freeFrames, hmap, Function.update_apply]
    by_cases hg : g = f <;> simp [hg]
  rw [herase]
  exact Finset.card_erase_add_one (mem_freeFrames.mpr ⟨hcand, hfree⟩)

end Call

/-! ## Sequences of calls -/

theorem framesAfter_append (physMem : Nat → Byte) (cs ds : List FrameCall) :
    framesAfter physMem (cs ++ ds) = framesAfter (framesAfter physMem cs) ds :=
  List.foldl_append

/-- What the calls keep: the kernel's frames are in use, and a frame is free or in use. -/
structure Marked (physMem : Nat → Byte) : Prop where
  kernel : ∀ f, f < NUM_PAG_KERNEL → physMem f = USED_FRAME
  marks : ∀ f, f < TOTAL_PAGES → physMem f = FREE_FRAME ∨ physMem f = USED_FRAME

theorem marked_initFrames (physMem : Nat → Byte) : Marked (initFrames physMem) := by
  constructor
  · intro f hf
    simp [initFrames, fillRange, hf]
  · intro f hf
    simp only [initFrames, fillRange, hf, Nat.zero_le, true_and, if_true]
    split <;> simp

theorem Marked.run {physMem : Nat → Byte} (h : Marked physMem) (c : FrameCall) :
    Marked (c.run physMem) := by
  cases c with
  | alloc =>
    rcases allocFrame_cases physMem with hr | ⟨g, hg⟩
    · rwa [FrameCall.run, allocFrame_none.2 hr]
    · obtain ⟨hcand, -, -, hmap⟩ := allocFrame_some hg
      rw [FrameCall.run, hmap]
      constructor
      · intro f hf
        rw [Function.update_apply, h.kernel f hf, ite_self]
      · intro f hf
        rw [Function.update_apply]
        split
        · exact .inr rfl
        · exact h.marks f hf
  | free frame =>
    constructor
    · intro f hf
      rw [FrameCall.run, freeFrame_apply, if_neg (by omega), h.kernel f hf]
    · intro f hf
      rw [FrameCall.run, freeFrame_apply]
      split
      · exact .inl rfl
      · exact h.marks f hf

theorem Marked.framesAfter {physMem : Nat → Byte} (h : Marked physMem) (cs : List FrameCall) :
    Marked (framesAfter physMem cs) := by
  induction cs generalizing physMem with
  | nil => exact h
  | cons c cs ih => exact ih (h.run c)

/-- A frame in use is in use until it is freed. -/
theorem framesAfter_used {physMem : Nat → Byte} {f : Nat} (cs : List FrameCall)
    (h : physMem f ≠ FREE_FRAME) (hc : ∀ frame, .free frame ∈ cs → frame.toNat ≠ f) :
    framesAfter physMem cs f ≠ FREE_FRAME := by
  induction cs generalizing physMem with
  | nil => exact h
  | cons c cs ih =>
    have hrun : c.run physMem f ≠ FREE_FRAME :=
      FrameCall.run_used h fun frame hframe => hc frame (by simp [hframe])
    exact ih hrun fun frame hframe => hc frame (List.mem_cons_of_mem _ hframe)

/-- What a call of `alloc_frame` returns and does. -/
structure Gives (physMem : Nat → Byte) (r : Int) (physMem' : Nat → Byte) : Prop where
  result : r = -1 ∨ 0 ≤ r
  candidate : ∀ f : Nat, r = f → Candidate f
  free : ∀ f : Nat, r = f → physMem f = FREE_FRAME ∧ physMem' f = USED_FRAME
  smallest : ∀ f : Nat, r = f → ∀ g, Candidate g → physMem g = FREE_FRAME → f ≤ g
  others : ∀ f : Nat, r = f → ∀ g, g ≠ f → physMem' g = physMem g
  none : r = -1 ↔ ∀ g, Candidate g → physMem g = USED_FRAME
  unchanged : r = -1 → physMem' = physMem

theorem Marked.gives {physMem : Nat → Byte} (h : Marked physMem) :
    Gives physMem (allocFrame physMem).1 (allocFrame physMem).2 := by
  constructor
  case result =>
    rcases allocFrame_cases physMem with hr | ⟨f, hf⟩
    · exact .inl hr
    · exact .inr (by omega)
  case candidate => exact fun f hf => (allocFrame_some hf).1
  case free =>
    intro f hf
    obtain ⟨-, hfree, -, hmap⟩ := allocFrame_some hf
    exact ⟨hfree, by rw [hmap, Function.update_self]⟩
  case smallest => exact fun f hf => (allocFrame_some hf).2.2.1
  case others =>
    intro f hf g hg
    rw [(allocFrame_some hf).2.2.2, Function.update_of_ne hg]
  case none =>
    rw [allocFrame_none.1]
    refine forall₂_congr fun g hg => ?_
    rcases h.marks g hg.lt with hm | hm <;> simp [hm]
  case unchanged => exact allocFrame_none.2

/-- After any sequence of calls the kernel's frames are in use, the allocator gives the smallest
free frame and nothing else changes, and a frame that was given is given again only after a call
that frees it. -/
theorem frames_given_once (physMem : Nat → Byte) (cs : List FrameCall) :
    (∀ f, f < NUM_PAG_KERNEL → framesAfter (initFrames physMem) cs f = USED_FRAME) ∧
    Gives (framesAfter (initFrames physMem) cs)
      (allocFrame (framesAfter (initFrames physMem) cs)).1
      (allocFrame (framesAfter (initFrames physMem) cs)).2 ∧
    ∀ (ds : List FrameCall) (f : Nat), (allocFrame (framesAfter (initFrames physMem) cs)).1 = f →
      (allocFrame (framesAfter (initFrames physMem) (cs ++ .alloc :: ds))).1 = f →
      ∃ frame, .free frame ∈ ds ∧ frame.toNat = f := by
  have hmarked := (marked_initFrames physMem).framesAfter cs
  refine ⟨hmarked.kernel, hmarked.gives, ?_⟩
  intro ds f hf hagain
  by_contra hnone
  push Not at hnone
  have hused : FrameCall.run (framesAfter (initFrames physMem) cs) .alloc f ≠ FREE_FRAME := by
    rw [FrameCall.run, (hmarked.gives.free f hf).2]
    decide
  rw [framesAfter_append] at hagain
  exact framesAfter_used ds hused hnone (allocFrame_some hagain).2.1

/-! ## Giving frames back -/

/-- One call with the set of frames that the caller owns. It frees only frames of that set. -/
def ownedNext (s : (Nat → Byte) × Finset Nat) : FrameCall → Option ((Nat → Byte) × Finset Nat)
  | .alloc =>
    let (r, physMem) := allocFrame s.1
    some (physMem, if r = -1 then s.2 else insert r.toNat s.2)
  | .free frame =>
    if frame.toNat ∈ s.2 then some (freeFrame frame.toNat s.1, s.2.erase frame.toNat) else none

/-- The calls start from `physMem`, free only owned frames, and end with `physMem'` when all owned
frames have been freed. -/
def Settles (physMem : Nat → Byte) (cs : List FrameCall) (physMem' : Nat → Byte) : Prop :=
  runs ownedNext (physMem, ∅) cs = some (physMem', ∅)

/-- What a call can do: give nothing, give a frame, or free an owned one. -/
theorem ownedNext_cases {s t : (Nat → Byte) × Finset Nat} {c : FrameCall}
    (h : ownedNext s c = some t) :
    (c = .alloc ∧ (allocFrame s.1).1 = -1 ∧ t = s) ∨
    (∃ f : Nat, c = .alloc ∧ (allocFrame s.1).1 = f ∧
      t = (Function.update s.1 f USED_FRAME, insert f s.2)) ∨
    ∃ frame, c = .free frame ∧ frame.toNat ∈ s.2 ∧
      t = (freeFrame frame.toNat s.1, s.2.erase frame.toNat) := by
  cases c with
  | alloc =>
    have ht : t = ((allocFrame s.1).2,
        if (allocFrame s.1).1 = -1 then s.2 else insert (allocFrame s.1).1.toNat s.2) :=
      (Option.some.inj h).symm
    rcases allocFrame_cases s.1 with hr | ⟨f, hf⟩
    · rw [if_pos hr, allocFrame_none.2 hr] at ht
      exact .inl ⟨rfl, hr, ht⟩
    · rw [if_neg (by omega), (allocFrame_some hf).2.2.2, hf, Int.toNat_natCast] at ht
      exact .inr (.inl ⟨f, rfl, hf, ht⟩)
  | free frame =>
    simp only [ownedNext, Option.ite_none_right_eq_some, Option.some.injEq] at h
    exact .inr (.inr ⟨frame, rfl, h.1, h.2.symm⟩)

/-- While 256 is not free to be given, the map differs from the first one in the owned frames. -/
structure Owed (physMem : Nat → Byte) (s : (Nat → Byte) × Finset Nat) : Prop where
  map : ∀ g, s.1 g = if g ∈ s.2 then USED_FRAME else physMem g
  owned : ∀ g ∈ s.2, physMem g = FREE_FRAME ∧ Candidate g

theorem Owed.next {physMem : Nat → Byte} {s t : (Nat → Byte) × Finset Nat} {c : FrameCall}
    (hfirst : physMem NUM_PAG_KERNEL ≠ FREE_FRAME) (h : Owed physMem s)
    (hs : ownedNext s c = some t) : Owed physMem t := by
  obtain ⟨-, -, rfl⟩ | ⟨f, -, hf, rfl⟩ | ⟨frame, -, hin, rfl⟩ := ownedNext_cases hs
  · exact h
  · obtain ⟨hcand, hfree, -⟩ := allocFrame_some hf
    have hout : f ∉ s.2 := by
      intro hin
      rw [h.map, if_pos hin] at hfree
      exact absurd hfree (by decide)
    have hold : physMem f = FREE_FRAME := by rwa [h.map, if_neg hout] at hfree
    constructor
    · intro g
      by_cases hg : g = f
      · simp [hg]
      · simp [hg, h.map g]
    · intro g hg
      rcases Finset.mem_insert.mp hg with rfl | hg
      · exact ⟨hold, hcand⟩
      · exact h.owned g hg
  · obtain ⟨hfree, hcand⟩ := h.owned _ hin
    have hne : frame.toNat ≠ NUM_PAG_KERNEL := by
      intro he
      exact hfirst (he ▸ hfree)
    have hrange : NUM_PAG_KERNEL < frame.toNat ∧ frame.toNat < TOTAL_PAGES :=
      ⟨lt_of_le_of_ne hcand.1 hne.symm, hcand.lt⟩
    constructor
    · intro g
      by_cases hg : g = frame.toNat
      · simp [hg, freeFrame_apply, hrange, hfree]
      · simp [hg, freeFrame_apply, h.map g]
    · intro g hg
      exact h.owned g (Finset.mem_of_mem_erase hg)

/-- Frame 256 is the first to be given, and `free_frame` does not take it back. -/
theorem ownedNext_first {s t : (Nat → Byte) × Finset Nat} {c : FrameCall}
    (hs : ownedNext s c = some t) (h : c = .alloc ∨ s.1 NUM_PAG_KERNEL ≠ FREE_FRAME) :
    t.1 NUM_PAG_KERNEL ≠ FREE_FRAME := by
  obtain ⟨-, hr, rfl⟩ | ⟨f, -, hf, rfl⟩ | ⟨frame, rfl, -, rfl⟩ := ownedNext_cases hs
  · exact allocFrame_none.1.mp hr _ (by decide)
  · obtain ⟨hcand, -, hsmall, -⟩ := allocFrame_some hf
    dsimp only
    rw [Function.update_apply]
    split
    · decide
    · rename_i hne
      intro hfree
      have := hsmall _ (by decide) hfree
      have := hcand.1
      omega
  · dsimp only
    rw [freeFrame_apply, if_neg (by omega)]
    exact h.resolve_left (by simp)

theorem runs_first {s t : (Nat → Byte) × Finset Nat} {cs : List FrameCall}
    (hs : runs ownedNext s cs = some t) (h : .alloc ∈ cs ∨ s.1 NUM_PAG_KERNEL ≠ FREE_FRAME) :
    t.1 NUM_PAG_KERNEL ≠ FREE_FRAME := by
  induction cs generalizing s with
  | nil =>
    cases hs
    simpa using h
  | cons c cs ih =>
    obtain ⟨u, hu, ht⟩ := Option.bind_eq_some_iff.mp hs
    refine ih ht ?_
    rcases h with h | h
    · rcases List.mem_cons.mp h with h | h
      · exact .inr (ownedNext_first hu (.inl h.symm))
      · exact .inl h
    · exact .inr (ownedNext_first hu (.inr h))

/-- Calls that settle put the map back exactly when 256 was not there to be given, or nothing was
asked for. -/
theorem Settles.eq_iff {physMem physMem' : Nat → Byte} {cs : List FrameCall}
    (h : Settles physMem cs physMem') :
    physMem' = physMem ↔ physMem NUM_PAG_KERNEL ≠ FREE_FRAME ∨ .alloc ∉ cs := by
  constructor
  · rintro rfl
    by_contra hboth
    push Not at hboth
    exact runs_first h (.inl hboth.2) hboth.1
  · rintro (hfirst | hnone)
    · have howed : Owed physMem (physMem', ∅) :=
        runs_inv (P := Owed physMem) (fun s c t hs ht => hs.next hfirst ht) ⟨by simp, by simp⟩ h
      funext g
      simpa using howed.map g
    · -- with nothing owned, no call is possible but `alloc_frame`
      cases cs with
      | nil =>
        cases h
        rfl
      | cons c cs =>
        obtain ⟨u, hu, -⟩ := Option.bind_eq_some_iff.mp h
        cases c with
        | alloc => simp at hnone
        | free frame => simp [ownedNext] at hu

/-- `free_frame` undoes `alloc_frame` exactly in the maps in which frame 256 is not free. In a map
that has it free, as the one of `init_frames`, no sequence of calls that gets a frame settles. -/
theorem free_undoes_alloc (physMem : Nat → Byte) :
    ((∀ f : Nat, (allocFrame physMem).1 = f → freeFrame f (allocFrame physMem).2 = physMem) ↔
      physMem NUM_PAG_KERNEL ≠ FREE_FRAME) ∧
    (∀ cs physMem', Settles physMem cs physMem' →
      (physMem' = physMem ↔ physMem NUM_PAG_KERNEL ≠ FREE_FRAME ∨ .alloc ∉ cs)) ∧
    ∀ cs physMem', Settles (initFrames physMem) cs physMem' →
      (physMem' = initFrames physMem ↔ .alloc ∉ cs) := by
  refine ⟨⟨?_, ?_⟩, fun _ _ => Settles.eq_iff, ?_⟩
  · intro h hfree
    have hne : (allocFrame physMem).1 ≠ -1 := fun hr =>
      allocFrame_none.1.mp hr NUM_PAG_KERNEL (by decide) hfree
    obtain ⟨f, hf⟩ := (allocFrame_cases physMem).resolve_left hne
    obtain ⟨hcand, -, hsmall, hmap⟩ := allocFrame_some hf
    obtain rfl : f = NUM_PAG_KERNEL := le_antisymm (hsmall _ (by decide) hfree) hcand.1
    have hback := congrFun (h _ hf) NUM_PAG_KERNEL
    rw [freeFrame_apply, if_neg (by omega), hmap, Function.update_self, hfree] at hback
    exact absurd hback (by decide)
  · intro hfirst f hf
    obtain ⟨hcand, hfree, -, hmap⟩ := allocFrame_some hf
    have hne : f ≠ NUM_PAG_KERNEL := by
      rintro rfl
      exact hfirst hfree
    have hrange : NUM_PAG_KERNEL < f ∧ f < TOTAL_PAGES :=
      ⟨lt_of_le_of_ne hcand.1 hne.symm, hcand.lt⟩
    rw [hmap, freeFrame, if_pos hrange, Function.update_idem, ← hfree, Function.update_eq_self]
  · intro cs physMem' h
    have hfree : initFrames physMem NUM_PAG_KERNEL = FREE_FRAME := rfl
    rw [h.eq_iff, hfree]
    simp

/-- The first frame that is given after `init_frames` is 256, and it stays in use when it is
freed. -/
theorem first_frame_lost :
    (allocFrame (initFrames fun _ => 0)).1 = 256 ∧
      freeFrame 256 (allocFrame (initFrames fun _ => 0)).2 ≠ initFrames (fun _ => 0) ∧
      ∃ physMem, Settles (initFrames fun _ => 0) [.alloc, .free 256] physMem ∧
        physMem ≠ initFrames fun _ => 0 := by
  have halloc : (allocFrame (initFrames fun _ => 0)).1 = 256 := by decide
  have hlost : freeFrame 256 (allocFrame (initFrames fun _ => 0)).2 ≠ initFrames (fun _ => 0) := by
    intro h
    exact absurd (congrFun h 256) (by decide)
  have hgiven : ownedNext (initFrames fun _ => 0, ∅) .alloc =
      some ((allocFrame (initFrames fun _ => 0)).2, {256}) := by
    simp only [ownedNext, halloc]
    rfl
  refine ⟨halloc, hlost, freeFrame 256 (allocFrame (initFrames fun _ => 0)).2, ?_, hlost⟩
  rw [Settles, runs, hgiven]
  rfl

end ZeOS
