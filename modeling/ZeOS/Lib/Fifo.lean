import Mathlib.Data.List.Infix

/-!
# First come, first served

A queue is served from its head while others join at its tail. `Served q out r` says what this
leaves of a queue `q`: the elements `out` have been served, `r` is waiting, and whoever joined in
the meantime stands behind all of `q`. Once `q` is used up, anything may be served.
-/
namespace ZeOS.Lib

variable {α : Type*} {q out r : List α}

def Served (q out r : List α) : Prop := (∃ new, q ++ new = out ++ r) ∨ q <+: out

theorem Served.refl (q : List α) : Served q [] q := .inl ⟨[], by simp⟩

theorem Served.join (h : Served q out r) (xs : List α) : Served q out (r ++ xs) := by
  rcases h with ⟨new, h⟩ | h
  · refine .inl ⟨new ++ xs, ?_⟩
    rw [← List.append_assoc, h, List.append_assoc]
  · exact .inr h

theorem Served.serve {x : α} (h : Served q out (x :: r)) : Served q (out ++ [x]) r := by
  rcases h with ⟨new, h⟩ | h
  · exact .inl ⟨new, by simp [h]⟩
  · exact .inr (h.trans (List.prefix_append ..))

/-- With nobody waiting, something else is served. -/
theorem Served.spare (h : Served q out []) (x : α) : Served q (out ++ [x]) [] := by
  right
  rcases h with ⟨new, h⟩ | h
  · rw [List.append_nil] at h
    exact (h ▸ List.prefix_append q new).trans (List.prefix_append ..)
  · exact h.trans (List.prefix_append ..)

/-- The elements of `q` are served in their order, before all others. -/
theorem Served.getElem (h : Served q out r) {i : Nat} (hq : i < q.length) (ho : i < out.length) :
    out[i] = q[i] := by
  rcases h with ⟨new, h⟩ | h
  · have hout : (q ++ new)[i]? = (out ++ r)[i]? := by rw [h]
    rw [List.getElem?_append_left hq, List.getElem?_append_left ho] at hout
    simpa [hq, ho] using hout.symm
  · exact (List.IsPrefix.getElem h hq).symm

/-- While not all of `q` has been served, somebody is waiting. -/
theorem Served.ne_nil (h : Served q out r) (ho : out.length < q.length) : r ≠ [] := by
  rintro rfl
  rcases h with ⟨new, h⟩ | h
  · have hlen := congrArg List.length h
    simp only [List.length_append, List.length_nil] at hlen
    omega
  · have := h.length_le
    omega

end ZeOS.Lib
