import ZeOS.Lib.Ring

/-!
# The intrusive lists of `list.c`

Every function takes node pointers, `none` being `NULL`, and performs the stores of the source in
their order. A store through `NULL` faults, which ends the computation. The rules below say what
the operations do to a family of well-formed lists; the kernel uses nothing else about them.
`list_for_each_safe` is a loop over any state that has lists in it, and has a rule of its own.
-/
namespace ZeOS
open Lib

variable {ν : Type*} [DecidableEq ν]

/-- `p->next = v`. -/
def storeNext (p v : Option ν) (σ : Links ν) : Option (Links ν) := p.map fun a => σ.setNext a v

/-- `p->prev = v`. -/
def storePrev (p v : Option ν) (σ : Links ν) : Option (Links ν) := p.map fun a => σ.setPrev a v

def initListHead (list : ν) (σ : Links ν) : Links ν :=
  (σ.setNext list (some list)).setPrev list (some list)

/-- `__list_add`. -/
def listAddRaw (new prev next : Option ν) (σ : Links ν) : Option (Links ν) := do
  let σ ← storePrev next new σ
  let σ ← storeNext new next σ
  let σ ← storePrev new prev σ
  storeNext prev new σ

def listAdd (new head : ν) (σ : Links ν) : Option (Links ν) :=
  listAddRaw (some new) (some head) (σ.next head) σ

def listAddTail (new head : ν) (σ : Links ν) : Option (Links ν) :=
  listAddRaw (some new) (σ.prev head) (some head) σ

/-- `__list_del`. -/
def listDelRaw (prev next : Option ν) (σ : Links ν) : Option (Links ν) := do
  let σ ← storePrev next prev σ
  storeNext prev next σ

def listDel (entry : ν) (σ : Links ν) : Option (Links ν) := do
  let σ ← listDelRaw (σ.prev entry) (σ.next entry) σ
  some ((σ.setNext entry none).setPrev entry none)

def listIsLast (list head : ν) (σ : Links ν) : Bool := σ.next list == some head

def listEmpty (head : ν) (σ : Links ν) : Bool := σ.next head == some head

def listFirst (head : ν) (σ : Links ν) : Option ν := σ.next head

/-- `list_for_each` with a body that leaves the loop at the first node satisfying `p`. The result
is that node, or `none` inside when the cursor is back at the head. The fuel bounds the number of
cursor positions; the loop over a well-formed list needs one more than its length. -/
def listForEachFind (head : ν) (p : ν → Bool) (σ : Links ν) : Nat → Option ν → Option (Option ν)
  | 0, _ => none
  | fuel + 1, pos => do
    let pos ← pos
    if pos = head then some none
    else if p pos then some (some pos)
    else listForEachFind head p σ fuel (σ.next pos)

/-- `list_for_each_safe` over a list in some state, with a body that may fault. The successor `n` of
the cursor is read before the body, and its own successor after it. The fuel bounds the number of
cursor positions. -/
def listForEachSafe {S : Type*} (links : S → Links ν) (head : ν) (body : ν → S → Option S) :
    Nat → Option ν → Option ν → S → Option S
  | 0, _, _, _ => none
  | fuel + 1, pos, n, s => pos.bind fun pos =>
    if pos = head then some s
    else (body pos s).bind fun s => n.bind fun n =>
      listForEachSafe links head body fuel (some n) ((links s).next n) s

/-- The body `list_del(pos); list_add_tail(pos, dest)`, with the nodes that were visited. -/
def moveTo (dest pos : ν) (s : Links ν × List ν) : Option (Links ν × List ν) := do
  let σ ← listDel pos s.1
  let σ ← listAddTail pos dest σ
  some (σ, s.2 ++ [pos])

/-- `list_for_each_safe(pos, n, head)` with that body. -/
def moveAll (fuel : Nat) (head dest : ν) (σ : Links ν) : Option (Links ν × List ν) :=
  let pos := σ.next head
  listForEachSafe Prod.fst head (moveTo dest) fuel pos (pos.bind σ.next) (σ, [])

theorem listAdd_eq {σ : Links ν} {new head q : ν} (hq : σ.next head = some q) :
    listAdd new head σ = some (σ.insert new head q) := by
  simp [listAdd, listAddRaw, storeNext, storePrev, hq, Links.insert]

theorem listAddTail_eq {σ : Links ν} {new head p : ν} (hp : σ.prev head = some p) :
    listAddTail new head σ = some (σ.insert new p head) := by
  simp [listAddTail, listAddRaw, storeNext, storePrev, hp, Links.insert]

theorem listDel_eq {σ : Links ν} {entry p q : ν} (hp : σ.prev entry = some p)
    (hq : σ.next entry = some q) : listDel entry σ = some (σ.remove entry p q) := by
  simp [listDel, listDelRaw, storeNext, storePrev, hp, hq, Links.remove]

section Rules

variable {σ : Links ν} {D : Set ν} {L : ν → List ν} {h n e : ν}

theorem listAddTail_rings (hr : Rings σ D L) (hh : h ∈ D) (hn : Apart D L n) :
    ∃ τ, listAddTail n h σ = some τ ∧ Rings τ D (Function.update L h (L h ++ [n])) ∧
      ∀ a, Apart D L a → a ≠ n → σ.AgreeAt τ a := by
  obtain ⟨p, hp, hrings, frame⟩ := hr.addTail hh hn
  exact ⟨_, listAddTail_eq hp, hrings, frame⟩

theorem listAdd_rings (hr : Rings σ D L) (hh : h ∈ D) (hn : Apart D L n) :
    ∃ τ, listAdd n h σ = some τ ∧ Rings τ D (Function.update L h (n :: L h)) ∧
      ∀ a, Apart D L a → a ≠ n → σ.AgreeAt τ a := by
  obtain ⟨q, hq, hrings, frame⟩ := hr.addHead hh hn
  exact ⟨_, listAdd_eq hq, hrings, frame⟩

theorem listDel_rings (hr : Rings σ D L) (hh : h ∈ D) (he : e ∈ L h) :
    ∃ τ, listDel e σ = some τ ∧ Rings τ D (Function.update L h ((L h).erase e)) ∧
      Apart D (Function.update L h ((L h).erase e)) e ∧
      τ.Detached e ∧ ∀ a, Apart D L a → σ.AgreeAt τ a := by
  obtain ⟨p, q, hp, hq, hrings, hap, hdet, frame⟩ := hr.del hh he
  exact ⟨_, listDel_eq hp hq, hrings, hap, hdet, frame⟩

theorem initListHead_rings (hr : Rings σ D L) (hh : Apart D L h) :
    Rings (initListHead h σ) (insert h D) (Function.update L h []) ∧
      ∀ a, a ≠ h → σ.AgreeAt (initListHead h σ) a := hr.init hh

theorem listEmpty_iff (hr : Rings σ D L) (hh : h ∈ D) : listEmpty h σ = true ↔ L h = [] := by
  simpa [listEmpty] using (hr.ring h hh).next_head_eq_self

omit [DecidableEq ν] in
theorem listFirst_eq (hr : Rings σ D L) (hh : h ∈ D) :
    listFirst h σ = some ((L h).head?.getD h) := (hr.ring h hh).next_head

theorem listIsLast_iff {xs : List ν} (hr : Ring σ h xs) (he : e ∈ xs) :
    listIsLast e h σ = true ↔ xs.getLast? = some e := by
  obtain ⟨as, bs, rfl⟩ := List.append_of_mem he
  have hnodup := hr.nodup
  rw [listIsLast, hr.next_mem]
  cases bs with
  | nil => simp
  | cons b bs =>
    have hb : b ≠ h := by
      rintro rfl
      simp at hnodup
    have hlast : (b :: bs).getLast? ≠ some e := by
      intro heq
      have hmem : e ∈ b :: bs := List.mem_of_getLast? heq
      simp [List.nodup_append] at hnodup
      grind
    simp [hb, hlast]

/-- The lists of a family when the nodes `vs` have been moved from the list at `h` to the end of the
one at `g`, and `xs` are left. -/
def moved (L : ν → List ν) (h g : ν) (xs vs : List ν) : ν → List ν :=
  Function.update (Function.update L h xs) g (L g ++ vs)

theorem moved_head {g : ν} (hne : g ≠ h) (xs vs : List ν) : moved L h g xs vs h = xs := by
  rw [moved, Function.update_of_ne hne.symm, Function.update_self]

theorem moved_nil (L : ν → List ν) (h g : ν) : moved L h g (L h) [] = L := by
  simp [moved]

theorem apart_moved {g a : ν} {xs vs : List ν} (hh : h ∈ D) (hL : L h = vs ++ xs)
    (ha : Apart D L a) : Apart D (moved L h g xs vs) a := by
  have hah := ha h hh
  intro f hf hm
  have haf := ha f hf
  by_cases hfg : f = g
  · subst f
    simp only [moved, Function.update_self] at hm
    grind
  · by_cases hfh : f = h
    · subst f
      simp only [moved, Function.update_of_ne hfg, Function.update_self] at hm
      grind
    · rw [moved, Function.update_of_ne hfg, Function.update_of_ne hfh] at hm
      exact haf hm

/-- The first node that is left moves to the end of the other list. -/
theorem listMove_rings {g x : ν} {xs vs : List ν} (hh : h ∈ D) (hg : g ∈ D) (hne : g ≠ h)
    (hr : Rings σ D (moved L h g (x :: xs) vs)) (hL : L h = vs ++ x :: xs) :
    ∃ τ υ, listDel x σ = some τ ∧ listAddTail x g τ = some υ ∧
      Rings υ D (moved L h g xs (vs ++ [x])) ∧ ∀ a, Apart D L a → σ.AgreeAt υ a := by
  have hleft := moved_head (L := L) hne (x :: xs) vs
  have hx : x ∈ moved L h g (x :: xs) vs h := by
    rw [hleft]
    exact List.mem_cons_self
  have hdel : Function.update (moved L h g (x :: xs) vs) h
      ((moved L h g (x :: xs) vs h).erase x) = moved L h g xs vs := by
    rw [hleft, List.erase_cons_head, moved, Function.update_comm hne, Function.update_idem]
    rfl
  have hadd : Function.update (moved L h g xs vs) g (moved L h g xs vs g ++ [x]) =
      moved L h g xs (vs ++ [x]) := by
    simp [moved]
  obtain ⟨τ, hτ, hr₁, hap, -, frame₁⟩ := listDel_rings hr hh hx
  rw [hdel] at hr₁ hap
  obtain ⟨υ, hυ, hr₂, frame₂⟩ := listAddTail_rings hr₁ hg hap
  rw [hadd] at hr₂
  refine ⟨τ, υ, hτ, hυ, hr₂, ?_⟩
  intro a ha
  have hax : a ≠ x := by
    rintro rfl
    exact ha h hh (by simp [hL])
  have hout := apart_moved (g := g) hh hL ha
  exact (frame₁ a hout).trans (frame₂ a (hdel ▸ hout.erase h x) hax)

/-- The rule of `list_for_each_safe`: `P` is indexed by the nodes still to be visited, which are the
list at the time, and the body takes the first of them off the list. -/
theorem listForEachSafe_inv {S : Type*} {links : S → Links ν} {body : ν → S → Option S}
    {P : List ν → S → Prop} (hring : ∀ xs s, P xs s → Ring (links s) h xs)
    (hbody : ∀ x xs s, P (x :: xs) s → ∃ t, body x s = some t ∧ P xs t) {xs : List ν} {s : S}
    (hP : P xs s) {fuel : Nat} (hf : xs.length < fuel) :
    ∃ t, listForEachSafe links h body fuel ((links s).next h)
        (((links s).next h).bind (links s).next) s = some t ∧ P [] t := by
  induction xs generalizing s fuel with
  | nil =>
    obtain ⟨fuel, rfl⟩ := Nat.exists_eq_succ_of_ne_zero (by omega : fuel ≠ 0)
    refine ⟨s, ?_, hP⟩
    simp [listForEachSafe, (hring _ _ hP).next_head]
  | cons x xs ih =>
    obtain ⟨fuel, rfl⟩ := Nat.exists_eq_succ_of_ne_zero (by omega : fuel ≠ 0)
    have hr := hring _ _ hP
    have hxh : x ≠ h := by
      rintro rfl
      exact (List.nodup_cons.mp hr.nodup).1 List.mem_cons_self
    have hnext : (links s).next x = some (xs.head?.getD h) :=
      Ring.next_mem (show Ring (links s) h ([] ++ x :: xs) from hr)
    obtain ⟨t, ht, hPt⟩ := hbody x xs s hP
    obtain ⟨u, hu, hPu⟩ := ih hPt (by simpa using hf)
    -- the successor read before the body is the first node of the list after it
    rw [(hring _ _ hPt).next_head, Option.bind_some] at hu
    refine ⟨u, ?_, hPu⟩
    simp [listForEachSafe, hr.next_head, hxh, ht, hnext, hu]

/-- Moving every node of one list to the end of another visits them in order, each once. -/
theorem moveAll_rings {g : ν} (hr : Rings σ D L) (hh : h ∈ D) (hg : g ∈ D) (hne : g ≠ h)
    {fuel : Nat} (hf : (L h).length < fuel) :
    ∃ τ, moveAll fuel h g σ = some (τ, L h) ∧ Rings τ D (moved L h g [] (L h)) ∧
      ∀ a, Apart D L a → σ.AgreeAt τ a := by
  let P (xs : List ν) (s : Links ν × List ν) : Prop := L h = s.2 ++ xs ∧
    Rings s.1 D (moved L h g xs s.2) ∧ ∀ a, Apart D L a → σ.AgreeAt s.1 a
  have hring : ∀ xs s, P xs s → Ring s.1 h xs := by
    intro xs s hP
    exact moved_head (L := L) hne xs s.2 ▸ hP.2.1.ring h hh
  have hbody : ∀ x xs s, P (x :: xs) s → ∃ t, moveTo g x s = some t ∧ P xs t := by
    rintro x xs ⟨τ, vs⟩ ⟨hvs, hrings, frame⟩
    obtain ⟨υ, ω, hυ, hω, hrings', frame'⟩ := listMove_rings hh hg hne hrings hvs
    refine ⟨(ω, vs ++ [x]), by simp [moveTo, hυ, hω], by simp [hvs], hrings', ?_⟩
    intro a ha
    exact (frame a ha).trans (frame' a ha)
  have hstart : P (L h) (σ, []) :=
    ⟨rfl, by simpa only [moved_nil] using hr, fun a _ => ⟨rfl, rfl⟩⟩
  obtain ⟨⟨τ, vs⟩, hτ, hvs, hrings, frame⟩ := listForEachSafe_inv hring hbody hstart hf
  obtain rfl : L h = vs := by simpa using hvs
  exact ⟨τ, hτ, hrings, frame⟩

/-- The cursor of `list_for_each` walks the represented sequence. -/
theorem listForEachFind_suffix (xs ys : List ν) (hr : Ring σ h (xs ++ ys)) (p : ν → Bool)
    (fuel : Nat) (hf : ys.length < fuel) :
    listForEachFind h p σ fuel (some (ys.head?.getD h)) = some (ys.find? p) := by
  induction ys generalizing xs fuel with
  | nil =>
    obtain ⟨fuel, rfl⟩ := Nat.exists_eq_succ_of_ne_zero (by omega : fuel ≠ 0)
    simp [listForEachFind]
  | cons y ys ih =>
    obtain ⟨fuel, rfl⟩ := Nat.exists_eq_succ_of_ne_zero (by omega : fuel ≠ 0)
    have hy : y ≠ h := by
      rintro rfl
      have := hr.nodup
      simp at this
    have rest := ih (xs ++ [y]) (by simpa using hr) fuel (by simp at hf; omega)
    cases hp : p y with
    | true => simp [listForEachFind, hy, hp]
    | false =>
      simp only [List.head?_cons, Option.getD_some, listForEachFind, Option.bind_eq_bind,
        Option.bind_some, if_neg hy, hp, Bool.false_eq_true, if_false, hr.next_mem, rest]
      simp [hp]

theorem listForEachFind_eq (hr : Rings σ D L) (hh : h ∈ D) (p : ν → Bool) (fuel : Nat)
    (hf : (L h).length < fuel) :
    listForEachFind h p σ fuel (σ.next h) = some ((L h).find? p) := by
  have hring : Ring σ h ([] ++ L h) := by simpa using hr.ring h hh
  rw [(hr.ring h hh).next_head]
  exact listForEachFind_suffix [] (L h) hring p fuel hf

end Rules

section Sequence

variable {σ : Links ν} {h : ν} {xs : List ν}

omit [DecidableEq ν] in
theorem apart_single {a : ν} (ha : a ∉ h :: xs) : Apart {h} (fun _ => xs) a := by
  rintro g rfl
  exact ha

/-- What a rule for families says about one list into which `n` was inserted. -/
theorem inserted_ring {τ : Links ν} {n : ν} {ys : List ν}
    (hr : Rings τ {h} (Function.update (fun _ => xs) h ys))
    (frame : ∀ a, Apart {h} (fun _ => xs) a → a ≠ n → σ.AgreeAt τ a) :
    Ring τ h ys ∧ Unaffected (n :: h :: xs) σ τ := by
  have hring := hr.ring h rfl
  rw [Function.update_self] at hring
  refine ⟨hring, unaffected_of_agreeAt fun a ha => ?_⟩
  rw [List.mem_cons, not_or] at ha
  exact frame a (apart_single ha.2) ha.1

theorem listAdd_ring (hr : Ring σ h xs) {n : ν} (hn : n ∉ h :: xs) :
    ∃ τ, listAdd n h σ = some τ ∧ Ring τ h (n :: xs) ∧ Unaffected (n :: h :: xs) σ τ := by
  obtain ⟨τ, hτ, hrings, frame⟩ := listAdd_rings hr.single rfl (apart_single hn)
  exact ⟨τ, hτ, inserted_ring hrings frame⟩

theorem listAddTail_ring (hr : Ring σ h xs) {n : ν} (hn : n ∉ h :: xs) :
    ∃ τ, listAddTail n h σ = some τ ∧ Ring τ h (xs ++ [n]) ∧ Unaffected (n :: h :: xs) σ τ := by
  obtain ⟨τ, hτ, hrings, frame⟩ := listAddTail_rings hr.single rfl (apart_single hn)
  exact ⟨τ, hτ, inserted_ring hrings frame⟩

theorem listDel_ring (hr : Ring σ h xs) {e : ν} (he : e ∈ xs) :
    ∃ τ, listDel e σ = some τ ∧ Ring τ h (xs.erase e) ∧ τ.Detached e ∧
      Unaffected (h :: xs) σ τ := by
  obtain ⟨τ, hτ, hrings, -, hdet, frame⟩ := listDel_rings hr.single rfl he
  have hring := hrings.ring h rfl
  rw [Function.update_self] at hring
  exact ⟨τ, hτ, hring, hdet, unaffected_of_agreeAt fun a ha => frame a (apart_single ha)⟩

theorem moveAll_ring {g : ν} {ys : List ν} (hr : Ring σ h xs) (hg : Ring σ g ys)
    (hd : (g :: ys).Disjoint (h :: xs)) {fuel : Nat} (hf : xs.length < fuel) :
    ∃ τ, moveAll fuel h g σ = some (τ, xs) ∧ Ring τ h [] ∧ Ring τ g (ys ++ xs) ∧
      Unaffected (h :: xs ++ g :: ys) σ τ := by
  have hne : g ≠ h := by
    rintro rfl
    exact hd List.mem_cons_self List.mem_cons_self
  have hlen : ((fun f => if f = h then xs else ys) h).length < fuel := by simpa using hf
  obtain ⟨τ, hτ, hrings, frame⟩ := moveAll_rings (hr.pair hg hd) (.inl rfl) (.inr rfl) hne hlen
  rw [if_pos rfl] at hτ
  have hh := hrings.ring h (.inl rfl)
  have hg' := hrings.ring g (.inr rfl)
  rw [moved_head hne] at hh
  simp only [moved, Function.update_self, if_pos, if_neg hne] at hg'
  refine ⟨τ, hτ, hh, hg', unaffected_of_agreeAt fun a ha => frame a ?_⟩
  rw [List.mem_append, not_or] at ha
  rintro f (rfl | rfl)
  · simpa using ha.1
  · simpa [hne] using ha.2

/-- The intrusive lists implement sequences. A node that is inserted need only be none of the nodes
of this list; the lists on other nodes are kept. -/
theorem listHead_implements_sequence (hr : Ring σ h xs) :
    (Ring (initListHead h σ) h [] ∧ Unaffected [h] σ (initListHead h σ)) ∧
    (∀ n, n ∉ h :: xs → ∃ τ, listAdd n h σ = some τ ∧ Ring τ h (n :: xs) ∧
      Unaffected (n :: h :: xs) σ τ) ∧
    (∀ n, n ∉ h :: xs → ∃ τ, listAddTail n h σ = some τ ∧ Ring τ h (xs ++ [n]) ∧
      Unaffected (n :: h :: xs) σ τ) ∧
    (∀ e ∈ xs, ∃ τ, listDel e σ = some τ ∧ Ring τ h (xs.erase e) ∧ τ.Detached e ∧
      Unaffected (h :: xs) σ τ) ∧
    (listEmpty h σ = true ↔ xs = []) ∧
    (∀ x, xs.head? = some x → listFirst h σ = some x) ∧
    (∀ e ∈ xs, listIsLast e h σ = true ↔ xs.getLast? = some e) ∧
    ∀ g ys, Ring σ g ys → (g :: ys).Disjoint (h :: xs) → ∀ fuel, xs.length < fuel →
      ∃ τ, moveAll fuel h g σ = some (τ, xs) ∧ Ring τ h [] ∧ Ring τ g (ys ++ xs) ∧
        Unaffected (h :: xs ++ g :: ys) σ τ := by
  refine ⟨⟨Ring.init σ h, ?_⟩, fun n => listAdd_ring hr, fun n => listAddTail_ring hr,
    fun e => listDel_ring hr, listEmpty_iff hr.single rfl, ?_, fun e => listIsLast_iff hr,
    fun g ys hg hd fuel => moveAll_ring hr hg hd⟩
  · refine unaffected_of_agreeAt fun a ha => ?_
    rw [List.mem_singleton] at ha
    simp [Links.AgreeAt, initListHead, ha]
  · intro x hx
    rw [listFirst_eq hr.single rfl, hx, Option.getD_some]

/-- Two lists: the nodes 1 and 2 at head 0, and nothing at head 3. -/
def twoLists : Links (Fin 4) where
  next := [some 1, some 2, some 0, some 3].get
  prev := [some 2, some 0, some 1, some 3].get

theorem twoLists_ring : Ring twoLists 0 [1, 2] ∧ Ring twoLists 3 [] := by
  refine ⟨⟨by decide, ?_⟩, by decide, ?_⟩
  · simp [Linked, twoLists]
  · exact List.isChain_pair.mpr ⟨rfl, rfl⟩

/-- The nodes 1 and 2 move to head 3. -/
theorem listHead_implements_sequence_twoLists :
    ∃ τ, moveAll 3 0 3 twoLists = some (τ, [1, 2]) ∧ Ring τ 0 [] ∧ Ring τ 3 [1, 2] := by
  obtain ⟨-, -, -, -, -, -, -, hmove⟩ := listHead_implements_sequence twoLists_ring.1
  obtain ⟨τ, hτ, h0, h3, -⟩ := hmove 3 [] twoLists_ring.2 (by simp) 3 (by decide)
  exact ⟨τ, hτ, h0, h3⟩

end Sequence

end ZeOS
