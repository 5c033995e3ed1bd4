import Patchwork.Lib.Ring
/-!
# Intrusive lists

The functions of `sys/list.h` that the modelled code uses, on the links of all
`list_entry_t` of a list type: the heads of the lists and the entries. They do
the writes of the source in its order. `list_add` asserts that the entry is in no
list and that the two nodes are neighbours; the assertions are not modelled.
-/

namespace Patchwork.Utils

open Function Lib

variable {N : Type} [DecidableEq N]

def list_entry_init (k : Links N) (entry : N) : Links N := (k.setNext entry entry).setPrev entry entry

def list_add (k : Links N) (prev next entry : N) : Links N :=
  let k := k.setPrev next entry
  let k := k.setNext entry next
  let k := k.setPrev entry prev
  k.setNext prev entry

def list_remove (k : Links N) (entry : N) : Links N :=
  let k := k.setNext (k.prev entry) (k.next entry)
  let k := k.setPrev (k.next entry) (k.prev entry)
  list_entry_init k entry

def list_push_back (k : Links N) (list entry : N) : Links N := list_add k (k.prev list) list entry

theorem list_add_eq (k : Links N) {prev next entry : N} (hp : prev ≠ entry) (hn : next ≠ entry) :
    list_add k prev next entry = (k.link prev entry).link entry next := by
  simp only [list_add, Links.link, Links.setNext, Links.setPrev]
  rw [update_comm hn, update_comm hp.symm]

/-- Only the links of the entry and of its neighbours change. -/
theorem list_remove_eq (k : Links N) {entry : N} (h : k.prev entry ≠ entry) :
    list_remove k entry = (k.link (k.prev entry) (k.next entry)).link entry entry := by
  simp only [list_remove, list_entry_init, Links.link, Links.setNext, Links.setPrev, update_of_ne h.symm]

variable {ι : Type} [DecidableEq ι] {k : Links N} {head : ι → N} {l : ι → List N}

omit [DecidableEq ι] in
theorem rings_entry_init (h : Rings k head l) {entry : N} (he : ∀ i, entry ∉ head i :: l i) :
    Rings (list_entry_init k entry) head l := by
  refine ⟨fun i => (h.ring i).frame fun x hx => ?_, h.apart⟩
  have hne : x ≠ entry := fun hne => he i (hne ▸ hx)
  exact ⟨update_of_ne hne _ _, update_of_ne hne _ _⟩

theorem rings_push_back (h : Rings k head l) (i : ι) {entry : N} (he : ∀ j, entry ∉ head j :: l j) :
    Rings (list_push_back k (head i) entry) head (update l i (l i ++ [entry])) := by
  have hp : k.prev (head i) ≠ entry := fun hp => he i (hp ▸ (h.ring i).prev_head_mem)
  have hi : head i ≠ entry := fun hi => he i (hi ▸ List.mem_cons_self)
  rw [list_push_back, list_add_eq k hp hi]
  exact h.insert_last i he

theorem rings_remove (h : Rings k head l) {i : ι} {entry : N} {l₁ l₂ : List N} (hl : l i = l₁ ++ entry :: l₂) :
    Rings (list_remove k entry) head (update l i (l₁ ++ l₂)) := by
  rw [list_remove_eq k ((h.ring i).prev_ne (by simp [hl]))]
  exact h.erase hl

end Patchwork.Utils
