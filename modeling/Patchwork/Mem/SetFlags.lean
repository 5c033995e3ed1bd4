import Patchwork.Mem.Tags
/-!
# Who owns a page after its flags were changed

`page_table_set_flags` keeps the ownership of a page by adding `PML_OWNED` to the flags of
the call. They keep it for the pages that follow: a borrowed page behind an owned one
becomes owned as well, and its frame is freed when it is unmapped.
-/

namespace Patchwork.Paging

open List Entry

/-- The bits that a call is meant to set: the flags without `PML_OWNED`. -/
def changeable : pml_flags_t := PML_FLAGS_MASK &&& ~~~PML_OWNED

/-- The entry with the bits of a call, and every other bit as it was: the owner, the frame,
the callback ID and the pin. -/
def requested (e flags : pml_entry_t) : pml_entry_t := (e &&& ~~~changeable) ||| (flags &&& changeable)

/-- The pages of the range that are present get the bits of the call, all others stay. -/
def KeepsOwnership (t t' : pml_t) (addr amount : Nat) (flags : pml_flags_t) : Prop :=
  ∀ v < 2 ^ 36, page t' v =
    if v ∈ vpns addr amount ∧ present (page t v) = true then requested (page t v) flags else page t v

/-- No borrowed page comes after an owned one. -/
def OwnedLast (t : pml_t) (addr amount : Nat) : Prop :=
  (vpns addr amount).Pairwise fun v w =>
    owned (page t v) = true → present (page t w) = true → owned (page t w) = true

/-! ## Entries -/

/-- What is written to an entry. -/
def withFlags (e flags : pml_entry_t) : pml_entry_t := (e &&& ~~~PML_FLAGS_MASK) ||| (flags &&& PML_FLAGS_MASK)

variable {e f flags : pml_entry_t} {t : pml_t} {l : List Nat} {addr v : Nat} {traverse : page_table_traverse_t}

theorem getLsbD_requested {i : Nat} (hi : i < 64) :
    (requested e f).getLsbD i = if changeable.getLsbD i then f.getLsbD i else e.getLsbD i := by
  simp only [requested, BitVec.getLsbD_or, BitVec.getLsbD_and, BitVec.getLsbD_not, decide_eq_true hi]
  cases changeable.getLsbD i <;> simp

theorem getLsbD_withFlags {i : Nat} (hi : i < 64) :
    (withFlags e f).getLsbD i = if i = 9 ∨ changeable.getLsbD i then f.getLsbD i else e.getLsbD i := by
  have hmask : ∀ i < 64, PML_FLAGS_MASK.getLsbD i = (decide (i = 9) || changeable.getLsbD i) := by decide
  simp only [withFlags, BitVec.getLsbD_or, BitVec.getLsbD_and, BitVec.getLsbD_not, decide_eq_true hi, hmask i hi]
  cases changeable.getLsbD i <;> by_cases h9 : i = 9 <;> simp [h9]

theorem requested_keeps (e f : pml_entry_t) :
    owned (requested e f) = owned e ∧ pinned (requested e f) = pinned e ∧
      pfn (requested e f) = pfn e ∧ callbackId (requested e f) = callbackId e := by
  have hbit : ∀ i, 9 ≤ i → i < 63 → (requested e f).getLsbD i = e.getLsbD i := by
    have hno : ∀ i, 9 ≤ i → i < 63 → changeable.getLsbD i = false := by decide
    intro i h1 h2
    rw [getLsbD_requested (by omega), hno i h1 h2]
    rfl
  have hfield (lo len : Nat) (h1 : 9 ≤ lo) (h2 : lo + len ≤ 63) : Lib.field (requested e f) lo len = Lib.field e lo len :=
    Lib.field_congr fun i h3 h4 => hbit i (by omega) (by omega)
  refine ⟨hbit 9 (by decide) (by decide), hbit 10 (by decide) (by decide), hfield 12 40 (by decide) (by decide), ?_⟩
  rw [callbackId, callbackId, hfield 11 1 (by decide) (by decide), hfield 52 7 (by decide) (by decide)]

theorem owned_withFlags (e f : pml_entry_t) : owned (withFlags e f) = owned f := by
  rw [owned, getLsbD_withFlags (by decide), if_pos (.inl rfl)]
  rfl

theorem withFlags_eq (h : owned f = owned e) : withFlags e f = requested e f := by
  refine BitVec.eq_of_getLsbD_eq fun i hi => ?_
  rw [getLsbD_withFlags hi, getLsbD_requested hi]
  by_cases h9 : i = 9
  · subst h9
    exact h
  · simp [h9]

theorem requested_requested : requested (requested e f) f = requested e f := by
  refine BitVec.eq_of_getLsbD_eq fun i hi => ?_
  simp only [getLsbD_requested hi]
  split <;> rfl

theorem requested_owned : requested e (f ||| PML_OWNED) = requested e f := by
  have hno : ∀ i < 64, changeable.getLsbD i = true → PML_OWNED.getLsbD i = false := by decide
  refine BitVec.eq_of_getLsbD_eq fun i hi => ?_
  simp only [getLsbD_requested hi, BitVec.getLsbD_or]
  split
  · next hc => rw [hno i hi hc, Bool.or_false]
  · rfl

/-- The flags after a page, and what they say about it. -/
theorem owned_next (e f : pml_entry_t) : owned (if owned e then f ||| PML_OWNED else f) = (owned e || owned f) := by
  cases he : owned e with
  | false => rfl
  | true => simp [owned, PML_OWNED]

theorem linked_of_present (h : present (page t (vpn addr)) = true) : Linked addr 3 t := by
  by_contra hno
  rw [← leaf_eq_page, leaf_of_not_linked hno] at h
  cases h

/-! ## The loop -/

variable {σ : Type} (env : Env σ) {mem : σ}

/-- A page of a successful call: its level is absent, or it is written. -/
theorem set_flags_cons (h : traverse.Invalid)
    (hok : (page_table_set_flags_loop env mem t traverse f (addr :: l)).1 = true) :
    ∃ traverse' : page_table_traverse_t, traverse'.Invalid ∧
      (¬Linked addr 3 t ∧ page t (vpn addr) = 0#64 ∧
          page_table_set_flags_loop env mem t traverse f (addr :: l) = page_table_set_flags_loop env mem t traverse' f l ∨
        Linked addr 3 t ∧ present (page t (vpn addr)) = true ∧
          ∃ f', f' = (if owned (page t (vpn addr)) then f ||| PML_OWNED else f) ∧
            page_table_set_flags_loop env mem t traverse f (addr :: l) =
              page_table_set_flags_loop env mem (setEntryAt addr (withFlags (page t (vpn addr)) f') 3 t)
                traverse' f' l) := by
  obtain ⟨ok, traverse', heq, hinv, hcase⟩ := traverse_none env h t mem addr
  rw [page_table_set_flags_loop, heq] at hok ⊢
  refine ⟨traverse', hinv, ?_⟩
  rcases hcase with ⟨rfl, hl⟩ | ⟨rfl, hno, hz⟩
  · simp only [entryAt_eq_page hl] at hok ⊢
    split at hok
    · cases hok
    · next hpres => exact .inr ⟨hl, by simpa using hpres, _, rfl, if_neg hpres⟩
  · exact .inl ⟨hno, hz, rfl⟩

section Owners
variable (h : traverse.Invalid) (hok : (page_table_set_flags_loop env mem t traverse f l).1 = true)
include h hok

/-- Once the flags have `PML_OWNED`, or a page is owned, it stays so. -/
theorem set_flags_owned (hv : v < 2 ^ 36)
    (hown : owned (page t v) = true ∨ owned f = true ∧ ∃ a ∈ l, vpn a = v ∧ Linked a 3 t) :
    owned (page (page_table_set_flags_loop env mem t traverse f l).2 v) = true := by
  induction l generalizing traverse f t with
  | nil => exact hown.resolve_right fun h => by simp at h
  | cons addr l ih =>
    obtain ⟨traverse', hinv, ⟨hno, -, heq⟩ | ⟨hl, -, f', hf', heq⟩⟩ := set_flags_cons env h hok
    · rw [heq] at hok ⊢
      refine ih hinv hok (hown.imp_right fun ⟨ho, a, ha, hav, hal⟩ => ⟨ho, a, ?_, hav, hal⟩)
      exact (mem_cons.1 ha).resolve_left fun h => hno (h ▸ hal)
    · rw [heq] at hok ⊢
      refine ih hinv hok ?_
      simp only [page_setEntryAt hl _ hv, linked_setEntryAt, hf']
      by_cases hva : v = vpn addr
      · left
        rw [if_pos hva, owned_withFlags, owned_next]
        rcases hown with ho | ⟨ho, -⟩
        · rw [← hva, ho, Bool.true_or]
        · rw [ho, Bool.or_true]
      · rw [if_neg hva, owned_next]
        refine hown.imp_right fun ⟨ho, a, ha, hav, hal⟩ => ⟨by rw [ho, Bool.or_true], a, ?_, hav, hal⟩
        exact (mem_cons.1 ha).resolve_left fun h => hva (h ▸ hav.symm)

/-- Every page behind an owned one becomes owned. -/
theorem set_flags_spreads :
    l.Pairwise fun a c => owned (page t (vpn a)) = true → Linked c 3 t →
      owned (page (page_table_set_flags_loop env mem t traverse f l).2 (vpn c)) = true := by
  induction l generalizing traverse f t with
  | nil => exact .nil
  | cons addr l ih =>
    obtain ⟨traverse', hinv, ⟨-, hz, heq⟩ | ⟨hl, -, f', hf', heq⟩⟩ := set_flags_cons env h hok
    · rw [heq] at hok ⊢
      refine pairwise_cons.2 ⟨fun c _ ho => ?_, ih hinv hok⟩
      rw [hz] at ho
      cases ho
    · rw [heq] at hok ⊢
      refine pairwise_cons.2 ⟨fun c hc ho hlc => ?_, (ih hinv hok).imp fun {a c} hac ho hlc => ?_⟩
      · refine set_flags_owned env hinv hok (vpn_lt c) (.inr ⟨?_, c, hc, rfl, (linked_setEntryAt _).2 hlc⟩)
        rw [hf', owned_next, ho, Bool.true_or]
      · refine hac ?_ ((linked_setEntryAt _).2 hlc)
        rw [page_setEntryAt hl _ (vpn_lt a)]
        split
        · next haa => rw [owned_withFlags, hf', owned_next, ← haa, ho, Bool.true_or]
        · exact ho

/-- While the flags say of each page that follows what it says itself, each page keeps its owner. -/
theorem set_flags_keeps (hlast : (l.map vpn).Pairwise fun v w =>
      owned (page t v) = true → present (page t w) = true → owned (page t w) = true)
    (hf : owned f = true → ∀ w ∈ l.map vpn, present (page t w) = true → owned (page t w) = true)
    (hv : v < 2 ^ 36) :
    page (page_table_set_flags_loop env mem t traverse f l).2 v =
      if v ∈ l.map vpn ∧ present (page t v) = true then requested (page t v) f else page t v := by
  induction l generalizing traverse f t with
  | nil => simp [page_table_set_flags_loop]
  | cons addr l ih =>
    obtain ⟨hhead, htail⟩ := pairwise_cons.1 hlast
    obtain ⟨traverse', hinv, ⟨-, hz, heq⟩ | ⟨hl, hpres, f', hf', heq⟩⟩ := set_flags_cons env h hok
    · rw [heq] at hok ⊢
      rw [ih hinv hok htail fun ho w hw => hf ho w (mem_cons_of_mem _ hw)]
      by_cases hva : v = vpn addr
      · simp [hva, hz]
      · simp [hva]
    · rw [heq] at hok ⊢
      have hown : owned f' = owned (page t (vpn addr)) := by
        rw [hf', owned_next]
        cases ho : owned f with
        | false => rw [Bool.or_false]
        | true => rw [hf ho _ mem_cons_self hpres, Bool.true_or]
      have hreq (e : pml_entry_t) : requested e f' = requested e f := by
        rw [hf']
        split
        · exact requested_owned
        · rfl
      have hset : ∀ w < 2 ^ 36, page (setEntryAt addr (withFlags (page t (vpn addr)) f') 3 t) w =
          if w = vpn addr then requested (page t w) f else page t w := by
        intro w hw
        rw [page_setEntryAt hl _ hw, withFlags_eq hown, hreq]
        split
        · next hwa => rw [hwa]
        · rfl
      have hlt : ∀ w ∈ l.map vpn, w < 2 ^ 36 := fun w hw => by
        obtain ⟨a, -, rfl⟩ := mem_map.1 hw
        exact vpn_lt a
      -- what a later page says about its owner and its presence has not grown
      have hstay : ∀ w ∈ l.map vpn, ∀ b : Bool, (b = true → present (page t w) = true →
          owned (page t w) = true) → b = true →
          present (page (setEntryAt addr (withFlags (page t (vpn addr)) f') 3 t) w) = true →
          owned (page (setEntryAt addr (withFlags (page t (vpn addr)) f') 3 t) w) = true := by
        intro w hw b hb hbt hp
        rw [hset w (hlt w hw)] at hp ⊢
        split at hp
        · next hwa =>
          rw [if_pos hwa, (requested_keeps _ _).1]
          exact hb hbt (hwa ▸ hpres)
        · next hwa =>
          rw [if_neg hwa]
          exact hb hbt hp
      rw [ih hinv hok]
      · rw [hset v hv, hreq]
        by_cases hva : v = vpn addr
        · simp only [hva, if_true, map_cons, mem_cons, true_or, hpres, and_self, requested_requested, ite_self]
        · simp [hva]
      · refine List.Pairwise.imp_of_mem (fun {a c} ha hc hac ho => ?_) htail
        refine hstay c hc _ hac ?_
        rw [hset a (hlt a ha)] at ho
        split at ho
        · rwa [(requested_keeps _ _).1] at ho
        · exact ho
      · intro ho w hw
        refine hstay w hw true (fun _ => hhead w hw (hown ▸ ho)) rfl

end Owners

/-- Whoever owned the pages of a range owns them after its flags were changed exactly if no
borrowed page comes after an owned one. -/
theorem set_flags_ownership (amount : Nat) (hflags : owned flags = false)
    (hok : (page_table_set_flags env t mem addr amount flags).1 = true) :
    KeepsOwnership t (page_table_set_flags env t mem addr amount flags).2 addr amount flags ↔ OwnedLast t addr amount := by
  constructor
  · intro hkeep
    refine pairwise_map.2 ((set_flags_spreads env traverse_create_invalid hok).imp fun {a c} hac ho hp => ?_)
    have hown := hac ho (linked_of_present hp)
    rw [page_table_set_flags] at hkeep
    rw [hkeep _ (vpn_lt c)] at hown
    split at hown
    · rwa [(requested_keeps _ _).1] at hown
    · exact hown
  · intro hlast v hv
    exact set_flags_keeps env traverse_create_invalid hok hlast (fun ho => absurd (hflags.symm.trans ho) (by decide)) hv

/-- A table with two pages, the first ones of the address space. -/
def twoPages (e e' : pml_entry_t) : pml_t :=
  .mk (fun _ => PML_PRESENT) fun _ => .mk (fun _ => PML_PRESENT) fun _ => .mk (fun _ => PML_PRESENT) fun _ =>
    .mk (fun i => if i = 0 then e else if i = 1 then e' else 0#64) fun _ => .null

theorem borrowed_first :
    OwnedLast (twoPages 0x1001#64 0x2201#64) 0 2 ∧
      KeepsOwnership (twoPages 0x1001#64 0x2201#64)
        (page_table_set_flags noFrames (twoPages 0x1001#64 0x2201#64) () 0 2 3#64).2 0 2 3#64 := by
  have hlast : OwnedLast (twoPages 0x1001#64 0x2201#64) 0 2 := by
    unfold OwnedLast
    decide +kernel
  exact ⟨hlast, (set_flags_ownership noFrames 2 (by decide) (by decide +kernel)).2 hlast⟩

/-- The borrowed page 1 becomes owned. -/
theorem owned_first :
    owned (page (twoPages 0x1201#64 0x2001#64) 1) = false ∧
      (page_table_set_flags noFrames (twoPages 0x1201#64 0x2001#64) () 0 2 3#64).1 = true ∧
      owned (page (page_table_set_flags noFrames (twoPages 0x1201#64 0x2001#64) () 0 2 3#64).2 1) = true := by
  decide +kernel

end Patchwork.Paging
