import Mathlib.Data.List.Nodup
import Mathlib.Data.BitVec
/-!
# Tickets that wrap

A queue of agents with tickets of `w` bits: the first agent has the ticket that is
served, each next one the ticket after, and the ticket that is handed out next
follows the last. The tickets say where an agent stands as long as fewer than
`2 ^ w` agents stand in the queue, however often they wrap.
-/

namespace Patchwork.Lib

open BitVec List

variable {C : Type} {w : Nat} {serve next : BitVec w} {q : List C} {Has Has' : C → BitVec w → Prop} {c : C}

/-- Agents that have a ticket stand in the queue, at the place that it says. An
agent may stand in the queue that has put its ticket away. -/
structure Tickets (serve next : BitVec w) (q : List C) (Has : C → BitVec w → Prop) : Prop where
  nodup : q.Nodup
  next_eq : next = serve + BitVec.ofNat w q.length
  index : ∀ c t, Has c t → ∃ i, q[i]? = some c ∧ t = serve + BitVec.ofNat w i

theorem add_ofNat_eq_iff (serve : BitVec w) {i : Nat} (hi : i < 2 ^ w) : serve + BitVec.ofNat w i = serve ↔ i = 0 := by
  rw [add_eq_left, ← toNat_inj, toNat_ofNat, Nat.mod_eq_of_lt hi]
  simp

theorem add_ofNat_succ (serve : BitVec w) (i : Nat) :
    serve + BitVec.ofNat w (i + 1) = serve + 1 + BitVec.ofNat w i := by
  rw [ofNat_add, add_assoc, add_comm (BitVec.ofNat w i)]
  rfl

namespace Tickets

theorem empty (serve : BitVec w) (hHas : ∀ c t, ¬ Has c t) : Tickets serve serve [] Has where
  nodup := nodup_nil
  next_eq := by simp
  index c t h := absurd h (hHas c t)

theorem mono (h : Tickets serve next q Has) (hHas : ∀ c t, Has' c t → Has c t) : Tickets serve next q Has' where
  nodup := h.nodup
  next_eq := h.next_eq
  index c t hc := h.index c t (hHas c t hc)

theorem push (h : Tickets serve next q Has) (hc : c ∉ q)
    (hHas : ∀ d t, Has' d t → Has d t ∨ d = c ∧ t = next) : Tickets serve (next + 1) (q ++ [c]) Has' where
  nodup := nodup_append.2 ⟨h.nodup, nodup_singleton c, fun a ha b hb => by
    rw [mem_singleton.1 hb]
    rintro rfl
    exact hc ha⟩
  next_eq := by
    rw [h.next_eq, length_append, length_singleton, ofNat_add, ← add_assoc]
    rfl
  index d t hd := by
    rcases hHas d t hd with hd | ⟨rfl, rfl⟩
    · obtain ⟨i, hi, ht⟩ := h.index d t hd
      have hlt : i < q.length := (List.getElem?_eq_some_iff.1 hi).1
      exact ⟨i, by rw [getElem?_append_left hlt]; exact hi, ht⟩
    · exact ⟨q.length, by simp, h.next_eq⟩

/-- The first agent, which has put its ticket away, leaves. -/
theorem pop (h : Tickets serve next (c :: q) Has) (hc : ∀ t, ¬ Has c t) : Tickets (serve + 1) next q Has where
  nodup := (nodup_cons.1 h.nodup).2
  next_eq := by rw [h.next_eq, length_cons, add_ofNat_succ]
  index d t hd := by
    obtain ⟨i, hi, ht⟩ := h.index d t hd
    cases i with
    | zero =>
      obtain rfl : c = d := by simpa using hi
      exact absurd hd (hc t)
    | succ i => exact ⟨i, by simpa using hi, by rw [ht, add_ofNat_succ]⟩

theorem head (h : Tickets serve next q Has) (hlen : q.length ≤ 2 ^ w) (hc : Has c serve) : q.head? = some c := by
  obtain ⟨i, hi, ht⟩ := h.index c serve hc
  have hlt : i < q.length := (List.getElem?_eq_some_iff.1 hi).1
  obtain rfl := (add_ofNat_eq_iff serve (hlt.trans_le hlen)).1 ht.symm
  rw [head?_eq_getElem?]
  exact hi

theorem eq_nil (h : Tickets serve next q Has) (hlen : q.length < 2 ^ w) (heq : next = serve) : q = [] := by
  rw [h.next_eq] at heq
  exact eq_nil_of_length_eq_zero ((add_ofNat_eq_iff serve hlen).1 heq)

end Tickets

end Patchwork.Lib
