import Patchwork.Io.Ring
/-!
# Linked entries

`irp_chain_next` takes the second IRP of a chain out and leaves the rest with the first,
which is being completed. So the third is never dispatched, and the assertion that the
first has no next one fails. And if an entry fails, those linked to it go back to the
pool without a completion.

What remains are chains of two whose first entry succeeds or is hard-linked. With them,
every entry has its completion, exactly one, and a linked entry is dispatched after the
one it is linked to.
-/

namespace Patchwork.Ring

open List Option Lib

variable {n : Nat} {D : Type} {sentries : Nat} {s s' : System n D} {i j l : Fin n}

/-- What a process that drains the queue may expect. -/
structure Right (s : System n D) : Prop where
  asserted : s.panic ≠ some .assertion
  once : (s.posted.map Prod.fst).Nodup
  data : ∀ p ∈ s.posted, ∃ c, s.consumed[p.1]? = some c ∧ p.2.op = c.sqe.op ∧ p.2.data = c.sqe.data
  /-- An entry that is linked to another is dispatched after the other has succeeded or
  with the other hard-linked. -/
  linked : ∀ k ∈ s.dispatched, ∀ c q, s.consumed[k]? = some c → c.pred = some q →
    ∃ p ∈ s.posted, p.1 = q ∧ (p.2.error = EOK ∨ ∃ d, s.consumed[q]? = some d ∧ d.sqe.hardlink = true)
  /-- When nothing is left to do, every entry has its completion. -/
  finished : s.notify = none → (∀ i, (s.irp i).status ≠ .dispatched) →
    ∀ k < s.consumed.length, k ∈ s.posted.map Prod.fst

/-- No entry is linked to one that is linked itself, there is room for a completion, and
an entry with another linked to it succeeds or is hard-linked. -/
def Pairs (s : System n D) : Action n D → Prop
  | .turn => ∀ notify ∈ s.notify, notify.popping = true → notify.left ≠ 0 → s.ctrl.shead ≠ s.ctrl.stail →
      s.free ≠ [] → ∀ l ∈ notify.link, l ∈ notify.irps
  | .complete i error _ => unreaped s.ctrl < n ∧
      ((s.irp i).next = none ∨ error = EOK ∨ (s.irp i).sqe.hardlink = true)
  | .write _ | .push _ _ | .enter _ | .finish _ _ => True

/-- `orphan` is an IRP that is between two places, or whose chain is still to be followed. -/
structure Links (orphan : Option (Fin n)) (s : System n D) : Prop where
  chains : Chains s
  quiet : s.panic = none
  held : ∀ i, (s.irp i).status = .popped → orphan = some i ∨ i ∈ s.heads ∨ ∃ j, (s.irp j).next = some i
  short : ∀ j i, (s.irp j).next = some i → orphan = some j ∨ j ∈ s.heads ∨ (s.irp j).status = .dispatched
  number : ∀ i, (s.irp i).status.owes = true → ∃ c, s.consumed[(s.irp i).id]? = some c ∧ c.sqe = (s.irp i).sqe ∧
    (i ∈ s.heads → c.pred = none) ∧ ∀ j, (s.irp j).next = some i → c.pred = some (s.irp j).id
  distinct : ∀ i j, (s.irp i).status.owes = true → (s.irp j).status.owes = true → (s.irp i).id = (s.irp j).id → i = j
  unposted : ∀ i, (s.irp i).status.owes = true → (s.irp i).id ∉ s.posted.map Prod.fst
  all : ∀ k < s.consumed.length, k ∈ s.posted.map Prod.fst ∨ ∃ i, (s.irp i).status.owes = true ∧ (s.irp i).id = k
  once : (s.posted.map Prod.fst).Nodup
  data : ∀ p ∈ s.posted, ∃ c, s.consumed[p.1]? = some c ∧ p.2.op = c.sqe.op ∧ p.2.data = c.sqe.data
  linked : ∀ k ∈ s.dispatched, ∀ c q, s.consumed[k]? = some c → c.pred = some q →
    ∃ p ∈ s.posted, p.1 = q ∧ (p.2.error = EOK ∨ ∃ d, s.consumed[q]? = some d ∧ d.sqe.hardlink = true)
  logged : ∀ k ∈ s.dispatched, k < s.consumed.length

/-- While entries are popped, the last one has nothing behind it. -/
def LastLink (s : System n D) : Prop :=
  ∀ notify ∈ s.notify, notify.popping = true → ∀ l ∈ notify.link, (s.irp l).next = none

/-- Between two steps. -/
def Inv (s : System n D) : Prop := Links none s ∧ LastLink s

section Fields
variable (s i)

@[simp]
theorem id_setStatus (status : Status) (j : Fin n) : ((s.setStatus i status).irp j).id = (s.irp j).id :=
  update_map_eq irp_t.id (by rfl) j

@[simp]
theorem sqe_setStatus (status : Status) (j : Fin n) : ((s.setStatus i status).irp j).sqe = (s.irp j).sqe :=
  update_map_eq irp_t.sqe (by rfl) j

@[simp]
theorem id_setNext (next : Option (Fin n)) (j : Fin n) : ((s.setNext i next).irp j).id = (s.irp j).id :=
  update_map_eq irp_t.id (by rfl) j

@[simp]
theorem sqe_setNext (next : Option (Fin n)) (j : Fin n) : ((s.setNext i next).irp j).sqe = (s.irp j).sqe :=
  update_map_eq irp_t.sqe (by rfl) j

end Fields

theorem links_init (memory : sqe_t D) : Links none (init n memory) :=
  ⟨chains_init memory, rfl, nofun, nofun, nofun, nofun, nofun, nofun, nodup_nil, nofun, nofun, nofun⟩

theorem Links.right (hl : Links none s) : Right s where
  asserted := by
    rw [hl.quiet]
    nofun
  once := hl.once
  data := hl.data
  linked := hl.linked
  finished hnotify hrest k hk := by
    have hheads : s.heads = [] := by rw [System.heads, hnotify]
    refine (hl.all k hk).resolve_right ?_
    rintro ⟨i, howes, -⟩
    -- Nothing is dispatched, so nobody waits.
    cases hstatus : (s.irp i).status with
    | popped =>
      rcases hl.held i hstatus with h | h | ⟨j, hj⟩
      · cases h
      · rw [hheads] at h
        cases h
      · rcases hl.short j i hj with h | h | h
        · cases h
        · rw [hheads] at h
          cases h
        · exact hrest j h
    | dispatched => exact hrest i hstatus
    | free | completed | leaked =>
      rw [hstatus] at howes
      cases howes

/-! ## Parts of the steps -/

variable {orphan : Option (Fin n)}

theorem Links.id_lt (hl : Links orphan s) (hi : (s.irp i).status.owes = true) :
    (s.irp i).id < s.consumed.length := by
  obtain ⟨c, hc, -⟩ := hl.number i hi
  exact (List.getElem?_eq_some_iff.1 hc).1

/-- An entry is consumed, and its IRP is not placed yet. -/
theorem Links.consume {rest : List (Fin n)} (hl : Links none s) (hfree : s.free = i :: rest) (sqe : sqe_t D)
    (pred : Option Nat) : Links (some i) (s.consume i rest sqe pred) := by
  obtain ⟨hc, hhead, hpopped, hlast, -⟩ := chains_consume hl.chains hfree sqe pred
  have hunused : (s.irp i).status = .free := hl.chains.unused i (by simp [hfree])
  have hself := irp_consume_self s i rest sqe pred
  have hne := fun j => irp_consume_of_ne (i := i) (j := j) s rest sqe pred
  have hnext : ∀ j k, ((s.consume i rest sqe pred).irp j).next = some k → j ≠ i := by
    intro j k hjk
    rintro rfl
    rw [hself] at hjk
    cases hjk
  have howes : ∀ k, (s.irp k).status.owes = true → k ≠ i := by
    intro k hk
    rintro rfl
    rw [hunused] at hk
    cases hk
  have hold : ∀ k c, s.consumed[k]? = some c → (s.consume i rest sqe pred).consumed[k]? = some c :=
    fun k c hk => (getElem?_append_left (getElem?_eq_some_iff.1 hk).1).trans hk
  have hback : ∀ k c, k < s.consumed.length → (s.consume i rest sqe pred).consumed[k]? = some c →
      s.consumed[k]? = some c := fun k c hk h => (getElem?_append_left hk).symm.trans h
  have hposted : s.consumed.length ∉ s.posted.map Prod.fst := by
    intro h
    obtain ⟨p, hp, hpk⟩ := mem_map.1 h
    obtain ⟨c, hc, -⟩ := hl.data p hp
    exact absurd (List.getElem?_eq_some_iff.1 hc).1 (by omega)
  refine ⟨hc, hl.quiet, fun k hk => ?_, fun j k hjk => ?_, fun k hk => ?_, fun j k hj hk hjk => ?_, fun k hk => ?_,
    fun k hk => ?_, hl.once, fun p hp => ?_, fun k hk c q hc hq => ?_, fun k hk => ?_⟩
  · by_cases hki : k = i
    · exact .inl (hki ▸ rfl)
    · rw [hne k hki] at hk
      refine .inr ((hl.held k hk).resolve_left nofun |>.imp_right ?_)
      rintro ⟨j, hj⟩
      have hji : j ≠ i := by
        rintro rfl
        rcases hl.short j k hj with h | h | h
        · cases h
        · exact hhead h
        · rw [hunused] at h
          cases h
      exact ⟨j, by rw [hne j hji]; exact hj⟩
  · have hji := hnext j k hjk
    rw [hne j hji] at hjk ⊢
    exact .inr ((hl.short j k hjk).resolve_left nofun)
  · by_cases hki : k = i
    · subst hki
      refine ⟨⟨sqe, pred⟩, ?_, ?_, fun h => absurd h hhead, fun j hj => absurd hj (hlast j)⟩
      · rw [hself]
        simp [System.consume]
      · rw [hself]
    · rw [hne k hki] at hk ⊢
      obtain ⟨c, hc, hsqe, hheads, hpred⟩ := hl.number k hk
      refine ⟨c, hold _ _ hc, hsqe, hheads, fun j hj => ?_⟩
      have hji := hnext j k hj
      rw [hne j hji] at hj ⊢
      exact hpred j hj
  · refine one_update (fun (irp : irp_t n D) x => irp.status.owes = true ∧ irp.id = x)
      (fun j k x hj hk => hl.distinct j k hj.1 hk.1 (hj.2.trans hk.2.symm)) (fun j x hx hj => ?_)
      j k _ ⟨hj, rfl⟩ ⟨hk, hjk.symm⟩
    exact absurd (hl.id_lt hj.1) (by rw [hj.2, ← hx.2]; exact Nat.lt_irrefl _)
  · by_cases hki : k = i
    · rw [hki, hself]
      exact hposted
    · rw [hne k hki] at hk ⊢
      exact hl.unposted k hk
  · have hlength : (s.consume i rest sqe pred).consumed.length = s.consumed.length + 1 := by simp [System.consume]
    by_cases hkl : k = s.consumed.length
    · exact .inr ⟨i, by rw [hself]; rfl, by rw [hself, hkl]⟩
    · refine (hl.all k (by omega)).imp_right ?_
      rintro ⟨m, hm, rfl⟩
      have hmi := howes m hm
      exact ⟨m, by rw [hne m hmi]; exact hm, by rw [hne m hmi]⟩
  · obtain ⟨c, hc, hdata⟩ := hl.data p hp
    exact ⟨c, hold _ _ hc, hdata⟩
  · obtain ⟨p, hp, hpq, hor⟩ := hl.linked k hk c q (hback k c (hl.logged k hk) hc) hq
    exact ⟨p, hp, hpq, hor.imp_right fun ⟨d, hd, hhard⟩ => ⟨d, hold _ _ hd, hhard⟩⟩
  · have := hl.logged k hk
    simp only [System.consume, length_append]
    omega

/-- What the entry `k` is linked to has succeeded or is hard-linked. -/
def Allowed (s : System n D) (k : Nat) : Prop :=
  ∀ c q, s.consumed[k]? = some c → c.pred = some q →
    ∃ p ∈ s.posted, p.1 = q ∧ (p.2.error = EOK ∨ ∃ d, s.consumed[q]? = some d ∧ d.sqe.hardlink = true)

/-- The entries and the completions stay, and with them what an IRP stands for. -/
theorem Links.change {orphan' : Option (Fin n)} (hl : Links orphan s) (hc : Chains s')
    (hpanic : s'.panic = s.panic) (hconsumed : s'.consumed = s.consumed) (hposted : s'.posted = s.posted)
    (hids : ∀ k, (s'.irp k).id = (s.irp k).id) (hsqes : ∀ k, (s'.irp k).sqe = (s.irp k).sqe)
    (howes : ∀ k, (s'.irp k).status.owes = (s.irp k).status.owes)
    (hheads : s'.heads = s.heads)
    (hnext : ∀ j k, (s'.irp j).next = some k → (s.irp j).next = some k ∨
      ∃ c, s.consumed[(s.irp k).id]? = some c ∧ c.pred = some (s.irp j).id)
    (hheld : ∀ k, (s'.irp k).status = .popped → orphan' = some k ∨ k ∈ s.heads ∨ ∃ j, (s'.irp j).next = some k)
    (hshort : ∀ j k, (s'.irp j).next = some k → orphan' = some j ∨ j ∈ s.heads ∨ (s'.irp j).status = .dispatched)
    (hlogged : ∀ k ∈ s'.dispatched, k ∈ s.dispatched ∨ k < s.consumed.length ∧ Allowed s k) : Links orphan' s' := by
  have hnumber : ∀ k, (s'.irp k).status.owes = true → ∃ c, s.consumed[(s.irp k).id]? = some c ∧ c.sqe = (s.irp k).sqe ∧
      (k ∈ s.heads → c.pred = none) ∧ ∀ j, (s'.irp j).next = some k → c.pred = some (s.irp j).id := by
    intro k hk
    obtain ⟨c, hget, hsqe, hh, hp⟩ := hl.number k (howes k ▸ hk)
    refine ⟨c, hget, hsqe, hh, fun j hj => ?_⟩
    rcases hnext j k hj with hj | ⟨d, hd, hpred⟩
    · exact hp j hj
    · rwa [Option.some.inj (hget.symm.trans hd)]
  refine ⟨hc, hpanic.trans hl.quiet, hheads ▸ hheld, hheads ▸ hshort, ?_, fun j k hj hk => ?_, fun k hk => ?_, ?_,
    hposted ▸ hl.once, ?_, ?_, fun k hk => ?_⟩
  · simpa only [hconsumed, hids, hsqes, hheads] using hnumber
  · rw [hids, hids]
    exact hl.distinct j k (howes j ▸ hj) (howes k ▸ hk)
  · rw [hposted, hids]
    exact hl.unposted k (howes k ▸ hk)
  · rw [hconsumed, hposted]
    intro k hk
    exact (hl.all k hk).imp_right fun ⟨m, hm, hid⟩ => ⟨m, (howes m).trans hm, (hids m).trans hid⟩
  · rw [hconsumed, hposted]
    exact hl.data
  · rw [hconsumed, hposted]
    intro k hk
    exact (hlogged k hk).elim (hl.linked k) And.right
  · rw [hconsumed]
    exact (hlogged k hk).elim (hl.logged k) And.left

/-- The IRP goes behind another that is still to be dispatched. -/
theorem Links.link {c : Consumed D} (hl : Links (some i) s) (hhead : i ∉ s.heads)
    (hpopped : (s.irp i).status = .popped) (hlast : ∀ j, (s.irp j).next ≠ some i) (hnone : (s.irp i).next = none)
    (hfirst : l ∈ s.heads) (hnext : (s.irp l).next = none) (hc : s.consumed[(s.irp i).id]? = some c)
    (hpred : c.pred = some (s.irp l).id) :
    Links none (s.setNext l (some i)) := by
  have hself := irp_setNext_self s l (some i)
  have hne := fun k => irp_setNext_of_ne (j := k) s l (some i)
  have hstatus := status_setNext s l (some i)
  refine hl.change (hl.chains.link l hhead hpopped hlast) rfl rfl rfl (id_setNext s l _) (sqe_setNext s l _)
    (fun k => by rw [hstatus]) rfl (fun j k hjk => ?_) (fun k hk => ?_) (fun j k hjk => ?_) fun k hk => .inl hk
  · grind
  · have := hl.held k
    grind
  · have := hl.short j k
    grind

theorem Links.renotify {orphan' : Option (Fin n)} {notify : Option (Notify n)}
    (hl : Links orphan s) (hc : Chains { s with notify := notify })
    (hheld : ∀ i, orphan = some i ∨ i ∈ s.heads → orphan' = some i ∨ i ∈ { s with notify := notify }.heads)
    (hpred : ∀ i ∈ { s with notify := notify }.heads, i ∉ s.heads →
      ∀ c, s.consumed[(s.irp i).id]? = some c → c.pred = none) : Links orphan' { s with notify := notify } := by
  have hsplit : ∀ i (P : Prop), orphan = some i ∨ i ∈ s.heads ∨ P →
      orphan' = some i ∨ i ∈ { s with notify := notify }.heads ∨ P := by
    rintro i P (h | h | h)
    · exact (hheld i (.inl h)).imp_right .inl
    · exact (hheld i (.inr h)).imp_right .inl
    · exact .inr (.inr h)
  refine { hl with
    chains := hc
    held := fun i hi => hsplit i _ (hl.held i hi)
    short := fun j i hji => hsplit j _ (hl.short j i hji)
    number := fun i hi => ?_ }
  obtain ⟨c, hget, hsqe, hheads, hpreds⟩ := hl.number i hi
  refine ⟨c, hget, hsqe, fun hmem => ?_, hpreds⟩
  by_cases hold : i ∈ s.heads
  · exact hheads hold
  · exact hpred i hmem hold c hget

theorem Links.same_heads {notify : Option (Notify n)} (hl : Links orphan s)
    (hheads : { s with notify := notify }.heads = s.heads) : Links orphan { s with notify := notify } := by
  refine hl.renotify (hl.chains.renotify ?_ fun i hi => .inl (hheads ▸ hi)) (fun i hi => ?_) fun i hi hnot => ?_
  · exact (congrArg Nodup hheads).mpr hl.chains.heads
  · rw [hheads]
    exact hi
  · exact absurd (hheads ▸ hi) hnot

theorem Links.dispatch (hl : Links (some i) s) (hhead : i ∉ s.heads)
    (hpopped : (s.irp i).status = .popped) (hlast : ∀ j, (s.irp j).next ≠ some i)
    (hpred : Allowed s (s.irp i).id) : Links none (s.dispatch i) := by
  have hfree : i ∉ s.free := by
    intro h
    rw [hl.chains.unused i h] at hpopped
    cases hpopped
  have hstatus : ∀ k, ((s.dispatch i).irp k).status = if k = i then .dispatched else (s.irp k).status := by
    intro k
    by_cases hk : k = i
    · simp [System.dispatch, hk]
    · rw [System.dispatch, irp_setStatus_of_ne s i _ hk, if_neg hk]
  have hnext : ∀ k, ((s.dispatch i).irp k).next = (s.irp k).next := next_setStatus s i _
  have howes : ∀ k, ((s.dispatch i).irp k).status.owes = (s.irp k).status.owes := by
    intro k
    rw [hstatus]
    split
    · next hk => rw [hk, hpopped]; rfl
    · rfl
  have hset := hl.chains.setStatus .dispatched hhead hlast hfree
  refine hl.change { hset with } rfl rfl rfl (id_setStatus s i _) (sqe_setStatus s i _)
    howes rfl (fun j k hjk => .inl (hnext j ▸ hjk)) (fun k hk => ?_) (fun j k hjk => ?_) fun k hk => ?_
  · have := hl.held k
    grind
  · have := hl.short j k
    grind
  · refine (mem_append.1 hk).imp_right fun hk => ?_
    rw [mem_singleton.1 hk]
    exact ⟨hl.id_lt (by rw [hpopped]; rfl), hpred⟩

/-- The IRP behind one that is being completed. -/
theorem Links.next (hl : Links (some i) s) (hi : (s.irp i).status = .completed)
    (hs : irp_chain_next s i = some (j, s')) :
    Links (some j) s' ∧ (∀ k, (s'.irp k).id = (s.irp k).id) ∧
      s'.consumed = s.consumed ∧ s'.posted = s.posted ∧ s'.notify = s.notify := by
  obtain ⟨hc, hnext, hij, hpopped, hhead, hlast, hstatus⟩ := chains_next hl.chains hi hs
  obtain ⟨j, -, he⟩ := map_eq_some_iff.1 hs
  obtain ⟨rfl, rfl⟩ := Prod.mk.inj he
  -- The chain is a pair, so nothing is behind the second.
  have hlonely : (s.irp j).next = none := by
    by_contra hsome
    obtain ⟨k, hk⟩ := ne_none_iff_exists'.1 hsome
    rcases hl.short j k hk with h | h | h
    · exact hij (Option.some.inj h)
    · exact hhead h
    · rw [← hstatus, hpopped] at h
      cases h
  have hnexts : ∀ k, (((s.setNext i (s.irp j).next).setNext j none).irp k).next =
      if k = i ∨ k = j then none else (s.irp k).next := by
    intro k
    by_cases hkj : k = j
    · simp [hkj]
    · rw [irp_setNext_of_ne _ _ _ hkj]
      by_cases hki : k = i
      · simp [hki, hlonely]
      · rw [irp_setNext_of_ne _ _ _ hki, if_neg (not_or.2 ⟨hki, hkj⟩)]
  have hid : ∀ k, (((s.setNext i (s.irp j).next).setNext j none).irp k).id = (s.irp k).id := by simp
  refine ⟨hl.change hc rfl rfl rfl hid (by simp) (fun k => by rw [hstatus]) rfl (fun k l hkl => ?_) (fun k hk => ?_)
    (fun k l hkl => ?_) fun k hk => .inl hk, hid, rfl, rfl, rfl⟩
  · grind
  · have := hl.held k
    grind
  · have := hl.short k l
    grind

theorem Links.post (error result : Nat) (hl : Links none s) (hi : (s.irp i).status = .dispatched) :
    Links (some i) ((s.post i error result).setStatus i .completed) := by
  have howes : (s.irp i).status.owes = true := by rw [hi]; rfl
  have hids : (s.post i error result).posted.map Prod.fst = s.posted.map Prod.fst ++ [(s.irp i).id] := by
    simp [System.post]
  have hne : ∀ k, k ≠ i → ((s.post i error result).setStatus i .completed).irp k = s.irp k :=
    fun k hk => irp_setStatus_of_ne (s.post i error result) i .completed hk
  have hself : (((s.post i error result).setStatus i .completed).irp i).status = .completed := by
    rw [irp_setStatus_self]
  have hout : ∀ k, (((s.post i error result).setStatus i .completed).irp k).status.owes = true → k ≠ i := by
    rintro k hk rfl
    rw [hself] at hk
    cases hk
  have hnexts := next_setStatus (s.post i error result) i .completed
  have hidsame := id_setStatus (s.post i error result) i .completed
  refine { hl with
    chains := (chains_post error result hl.chains hi).1, held := ?_, short := ?_, number := ?_, distinct := ?_
    unposted := ?_, all := ?_, once := ?_, data := ?_, linked := ?_ }
  · intro k hk
    have hki : k ≠ i := by
      rintro rfl
      rw [hself] at hk
      cases hk
    rw [hne k hki] at hk
    exact .inr (((hl.held k hk).resolve_left nofun).imp_right fun ⟨j, hj⟩ => ⟨j, (hnexts j).trans hj⟩)
  · intro j k hjk
    by_cases hji : j = i
    · exact .inl (hji ▸ rfl)
    · rw [hne j hji] at hjk ⊢
      exact .inr ((hl.short j k hjk).resolve_left nofun)
  · intro k hk
    have hki := hout k hk
    rw [hne k hki] at hk ⊢
    obtain ⟨c, hc, hsqe, hheads, hpred⟩ := hl.number k hk
    exact ⟨c, hc, hsqe, hheads, fun j hj => by rw [hidsame]; exact hpred j ((hnexts j).symm.trans hj)⟩
  · intro j k hj hk hjk
    have hji := hout j hj
    have hki := hout k hk
    rw [hne j hji] at hj hjk
    rw [hne k hki] at hk hjk
    exact hl.distinct j k hj hk hjk
  · intro k hk hmem
    have hki := hout k hk
    rw [hne k hki] at hk hmem
    rcases mem_append.1 (hids ▸ hmem :) with h | h
    · exact hl.unposted k hk h
    · exact hki (hl.distinct k i hk howes (mem_singleton.1 h))
  · intro k hk
    change k ∈ (s.post i error result).posted.map Prod.fst ∨ _
    rw [hids, mem_append, mem_singleton]
    rcases hl.all k hk with h | ⟨m, hm, rfl⟩
    · exact .inl (.inl h)
    · by_cases hmi : m = i
      · exact .inl (.inr (hmi ▸ rfl))
      · exact .inr ⟨m, by rw [hne m hmi]; exact hm, by rw [hne m hmi]⟩
  · change ((s.post i error result).posted.map Prod.fst).Nodup
    rw [hids]
    refine nodup_append.2 ⟨hl.once, nodup_singleton _, fun k hk m hm => ?_⟩
    rw [mem_singleton.1 hm]
    rintro rfl
    exact hl.unposted i howes hk
  · intro p hp
    rcases mem_append.1 hp with hp | hp
    · exact hl.data p hp
    · obtain ⟨c, hc, hsqe, -⟩ := hl.number i howes
      rw [mem_singleton.1 hp]
      exact ⟨c, hc, by rw [hsqe], by rw [hsqe]⟩
  · intro k hk c q hc hq
    obtain ⟨p, hp, h⟩ := hl.linked k hk c q hc hq
    exact ⟨p, mem_append_left _ hp, h⟩

/-- An IRP without a chain is settled. -/
theorem Links.settled (hl : Links (some i) s) (hi : (s.irp i).status = .completed) (hnext : (s.irp i).next = none) :
    Links none s := by
  refine { hl with held := fun k hk => .inr ((hl.held k hk).resolve_left ?_), short := fun j k hjk => ?_ }
  · rintro ⟨⟩
    rw [hi] at hk
    cases hk
  · refine .inr ((hl.short j k hjk).resolve_left ?_)
    rintro ⟨⟩
    rw [hnext] at hjk
    cases hjk

/-! ## The steps -/

theorem links_finish {cancelled : Bool} (hl : Links none s) (hi : (s.irp i).status = .completed) :
    Links none (finish s i cancelled) := by
  have hnext : (s.irp i).next = none := by
    by_contra hsome
    obtain ⟨k, hk⟩ := ne_none_iff_exists'.1 hsome
    rcases hl.short i k hk with h | h | h
    · cases h
    · rw [hl.chains.popped i h] at hi
      cases hi
    · rw [h] at hi
      cases hi
  have hset : ∀ status, status.owes = false → Chains (s.setStatus i status) → Links none (s.setStatus i status) := by
    intro status howes hc
    have hself : ((s.setStatus i status).irp i).status = status := by rw [irp_setStatus_self]
    have hne : ∀ k, k ≠ i → ((s.setStatus i status).irp k).status = (s.irp k).status :=
      fun k hk => by rw [irp_setStatus_of_ne s i status hk]
    have hnexts := next_setStatus s i status
    refine hl.change hc rfl rfl rfl (id_setStatus s i _) (sqe_setStatus s i _) (fun k => ?_) rfl
      (fun j k hjk => .inl (hnexts j ▸ hjk)) (fun k hk => ?_) (fun j k hjk => ?_) fun k hk => .inl hk
    · by_cases hki : k = i
      · rw [hki, hself, hi, howes]
        rfl
      · rw [hne k hki]
    · have := hl.held k
      have : Status.popped.owes = true := rfl
      grind
    · have := hl.short j k
      grind
  have hquiet : (finish s i cancelled).panic = none := by
    unfold finish
    split_ifs
    · exact hl.quiet
    · exact hl.quiet
  obtain ⟨hc, -⟩ := chains_finish hl.chains hi hquiet
  unfold finish at hc ⊢
  split_ifs at hc ⊢
  · exact hset _ rfl hc
  · have hfree : Chains (s.setStatus i .free) :=
      { hc with free := (nodup_cons.1 hc.free).2, unused := fun j hj => hc.unused j (mem_cons_of_mem i hj) }
    exact { hset _ rfl hfree with chains := hc }

theorem completeChain_none {fuel : Nat} (h : (s.irp i).next = none) : completeChain fuel s i = some s := by
  cases fuel <;> simp [completeChain, irp_chain_next, h]

theorem next_none_of_chain (h : (s.irp l).next = none) (hs : irp_chain_next s i = some (j, s')) :
    (s'.irp l).next = none := by
  obtain ⟨j, hnext, he⟩ := map_eq_some_iff.1 hs
  obtain ⟨rfl, rfl⟩ := Prod.mk.inj he
  by_cases hlj : l = j
  · simp [hlj]
  · have hli : l ≠ i := by
      rintro rfl
      rw [hnext] at h
      cases h
    rw [irp_setNext_of_ne _ _ _ hlj, irp_setNext_of_ne _ _ _ hli, h]

theorem links_followChain {error : Nat} (hl : Links (some i) s) (hlast : LastLink s)
    (hi : (s.irp i).status = .completed)
    (hpairs : (s.irp i).next = none ∨ error = EOK ∨ (s.irp i).sqe.hardlink = true)
    (hlog : ∃ c, ((s.irp i).id, c) ∈ s.posted ∧ c.error = error)
    (hnumber : ∃ d, s.consumed[(s.irp i).id]? = some d ∧ d.sqe = (s.irp i).sqe)
    (hs : followChain s i error = some s') : Inv s' := by
  unfold followChain at hs
  split_ifs at hs with hfail
  · -- Nothing is linked to an entry that fails.
    have hnone : (s.irp i).next = none := by
      rcases hpairs with h | h | h
      · exact h
      · exact absurd h hfail.1
      · rw [h] at hfail
        cases hfail.2
    rw [completeChain_none hnone] at hs
    cases hs
    exact ⟨hl.settled hi hnone, hlast⟩
  · cases hchain : irp_chain_next s i with
    | none =>
      rw [hchain] at hs
      cases hs
      exact ⟨hl.settled hi (map_eq_none_iff.1 hchain), hlast⟩
    | some x =>
      obtain ⟨k, s₂⟩ := x
      rw [hchain] at hs
      cases hs
      obtain ⟨hc, hnext, hik, hpopped, hhead, hfirst, hstatus⟩ := chains_next hl.chains hi hchain
      obtain ⟨hl₂, hids, hconsumed, hposts, hnotify⟩ := hl.next hi hchain
      -- The second is dispatched after the first, whose completion allows it.
      have hallowed : Allowed s₂ (s₂.irp k).id := by
        intro c q hget hq
        obtain ⟨c', hget', -, -, hpreds⟩ := hl.number k (by rw [← hstatus, hpopped]; rfl)
        rw [hids, hconsumed, hget'] at hget
        cases hget
        obtain rfl := Option.some.inj ((hpreds i hnext).symm.trans hq)
        rw [hposts, hconsumed]
        obtain ⟨e, hmem, rfl⟩ := hlog
        refine ⟨_, hmem, rfl, ?_⟩
        by_cases herror : e.error = EOK
        · exact .inl herror
        · obtain ⟨d, hd, hdsqe⟩ := hnumber
          have hhard : (s.irp i).sqe.hardlink = true := by simpa [herror] using hfail
          exact .inr ⟨d, hd, by rw [hdsqe, hhard]⟩
      refine ⟨hl₂.dispatch hhead hpopped hfirst hallowed, fun notify hn hpopping l hlink => ?_⟩
      exact (next_setStatus ..).trans (next_none_of_chain (hlast notify (hnotify ▸ hn) hpopping l hlink) hchain)

theorem links_complete {error result : Nat} (hl : Links none s) (hlast : LastLink s)
    (hi : (s.irp i).status = .dispatched) (hpairs : Pairs s (.complete i error result))
    (hs : ioring_ctx_complete s i error result = some s') : Inv s' := by
  rw [ioring_ctx_complete, if_neg (Nat.not_le.2 hpairs.1)] at hs
  refine links_followChain (hl.post error result hi) (fun notify hn hpopping l hlink => ?_)
    (by rw [irp_setStatus_self]) ?_ ?_ ?_ hs
  · exact (next_setStatus ..).trans (hlast notify hn hpopping l hlink)
  · rw [next_setStatus, sqe_setStatus]
    exact hpairs.2
  · rw [id_setStatus]
    exact ⟨_, mem_append_right _ (mem_singleton.2 rfl), rfl⟩
  · rw [id_setStatus, sqe_setStatus]
    obtain ⟨d, hd, hsqe, -⟩ := hl.number i (by rw [hi]; rfl)
    exact ⟨d, hd, hsqe⟩

theorem links_pop {notify notify' : Notify n} (hl : Links none s) (hlast : LastLink s)
    (hnotify : s.notify = some notify) (hpopping : notify.popping = true)
    (hpairs : s.ctrl.shead ≠ s.ctrl.stail → s.free ≠ [] → ∀ l ∈ notify.link, l ∈ notify.irps)
    (hs : ioring_ctx_sqe_pop sentries s notify = some (s', notify')) (left : Nat) :
    Inv { s' with notify := some { notify' with left := left } } := by
  have hheads : s.heads = notify.irps := by rw [System.heads, hnotify]
  have hc := (chains_pop hl.chains hnotify hs left).1
  unfold ioring_ctx_sqe_pop at hs
  split_ifs at hs with hempty
  split at hs
  · cases hs
  · rename_i i rest hfree
    have hpairs := hpairs hempty (by simp [hfree])
    generalize s.squeue (s.ctrl.shead &&& BitVec.ofNat 32 (sentries - 1)).toNat = sqe at hs
    split at hs
    · rename_i l hlink
      obtain ⟨rfl, rfl⟩ := Prod.mk.inj (Option.some.inj hs)
      have hmem : l ∈ s.heads := hheads ▸ hpairs l hlink
      obtain ⟨-, hhead, hpopped, hfirst, -⟩ := chains_consume hl.chains hfree sqe (some (s.irp l).id)
      have hself := irp_consume_self s i rest sqe (some (s.irp l).id)
      have hli : l ≠ i := fun he => hhead (he ▸ hmem)
      have hne := irp_consume_of_ne s rest sqe (some (s.irp l).id) hli
      have hnew : (s.consume i rest sqe (some (s.irp l).id)).consumed[((s.consume i rest sqe
          (some (s.irp l).id)).irp i).id]? = some ⟨sqe, some (s.irp l).id⟩ := by
        rw [hself]
        simp [System.consume]
      have hlinked := (hl.consume hfree sqe (some (s.irp l).id)).link hhead hpopped hfirst (by rw [hself]) hmem
        (by rw [hne]; exact hlast notify hnotify hpopping l hlink) hnew (by rw [hne])
      refine ⟨hlinked.renotify hc (fun k hk => hk.imp_right fun h => ?_) fun k hk hnot => absurd ?_ hnot, ?_⟩
      · rw [heads_some]
        exact hheads ▸ h
      · rw [heads_some] at hk
        exact hheads ▸ hk
      · rintro v ⟨rfl⟩ - m hm
        simp only [mem_def, ite_none_right_eq_some, Option.some.injEq] at hm
        rw [← hm.2, irp_setNext_of_ne _ _ _ hli.symm, hself]
    · obtain ⟨rfl, rfl⟩ := Prod.mk.inj (Option.some.inj hs)
      obtain ⟨-, hhead, hpopped, hfirst, -⟩ := chains_consume hl.chains hfree sqe none
      have hself := irp_consume_self s i rest sqe none
      refine ⟨(hl.consume hfree sqe none).renotify hc (fun k hk => .inr ?_) fun k hk hnot d hd => ?_, ?_⟩
      · rw [heads_some, mem_append, mem_singleton]
        rcases hk with hk | hk
        · exact .inr (Option.some.inj hk).symm
        · exact .inl (hheads ▸ hk)
      · rw [heads_some, mem_append, mem_singleton] at hk
        rcases hk with hk | rfl
        · exact absurd (hheads ▸ hk) hnot
        · rw [hself] at hd
          simp only [System.consume, getElem?_concat_length, Option.some.injEq] at hd
          rw [← hd]
      · rintro v ⟨rfl⟩ - m hm
        simp only [mem_def, ite_none_right_eq_some, Option.some.injEq] at hm
        rw [← hm.2, hself]

theorem links_turn {notify : Notify n} (hl : Links none s) (hlast : LastLink s) (hnotify : s.notify = some notify)
    (hpairs : Pairs s .turn) : Inv (turn sentries s notify) := by
  have hheads : s.heads = notify.irps := by rw [System.heads, hnotify]
  have hstop : Inv { s with notify := some { notify with popping := false } } := by
    refine ⟨hl.same_heads hheads.symm, ?_⟩
    rintro v ⟨rfl⟩ hpopping
    cases hpopping
  unfold turn
  split_ifs with hpopping hleft
  · exact hstop
  · split
    · exact hstop
    · rename_i s₁ notify₁ hpop
      exact links_pop hl hlast hnotify hpopping (hpairs notify hnotify hpopping hleft) hpop _
  · split
    · rename_i hirps
      exact ⟨hl.same_heads (hheads.trans hirps).symm, by rintro _ ⟨⟩⟩
    · rename_i i rest hirps
      have hmem : i ∈ s.heads := by simp [hheads, hirps]
      have hpopped := hl.chains.popped i hmem
      have hnot : i ∉ rest := (nodup_cons.1 (hirps ▸ hheads ▸ hl.chains.heads)).1
      have hrest : rest.Nodup := (nodup_cons.1 (hirps ▸ hheads ▸ hl.chains.heads)).2
      have hsub : ∀ k ∈ rest, k ∈ s.heads := fun k hk => by
        rw [hheads, hirps]
        exact mem_cons_of_mem i hk
      -- The first of the list is taken from it, and then it is dispatched.
      have hdrop : Links (some i) { s with notify := some { notify with irps := rest } } := by
        refine hl.renotify (hl.chains.renotify hrest fun k hk => .inl (hsub k hk)) (fun k hk => ?_)
          fun k hk hnot => absurd (hsub k hk) hnot
        have hk := hk.resolve_left (by rintro ⟨⟩)
        rw [hheads, hirps] at hk
        exact (mem_cons.1 hk).imp (fun he => congrArg some he.symm) id
      refine ⟨{ hdrop.dispatch hnot hpopped (hl.chains.first i hmem) fun c q hc hq => ?_ with }, ?_⟩
      · obtain ⟨c', hc', -, hpred, -⟩ := hl.number i (by rw [hpopped]; rfl)
        obtain rfl := Option.some.inj (hc'.symm.trans hc)
        rw [hpred hmem] at hq
        cases hq
      · rintro v ⟨rfl⟩ hpop
        exact absurd hpop hpopping

theorem links_step {a : Action n D} (hi : Inv s) (hpairs : Pairs s a)
    (hs : step sentries s a = some s') : Inv s' := by
  obtain ⟨hl, hlast⟩ := hi
  simp only [step, hl.quiet, isSome_none, Bool.false_eq_true, if_false] at hs
  cases a with
  | write | push =>
    cases hs
    exact ⟨{ hl with chains := { hl.chains with } }, hlast⟩
  | enter amount =>
    simp only [act] at hs
    split_ifs at hs with hbusy
    · cases hs
      exact ⟨hl, hlast⟩
    · have hheads : s.heads = [] := by
        have : s.notify = none := by simpa using (not_or.1 hbusy).2
        rw [System.heads, this]
      cases hs
      refine ⟨hl.same_heads hheads.symm, ?_⟩
      rintro v ⟨rfl⟩ - m hm
      cases hm
  | turn =>
    obtain ⟨notify, hnotify, rfl⟩ := map_eq_some_iff.1 hs
    exact links_turn hl hlast hnotify hpairs
  | complete i error result =>
    simp only [act] at hs
    split_ifs at hs with hstatus
    exact links_complete hl hlast hstatus hpairs hs
  | finish i cancelled =>
    simp only [act] at hs
    split_ifs at hs with hstatus
    cases hs
    refine ⟨links_finish hl hstatus, fun notify hn hpopping l hlink => ?_⟩
    have hkeeps : (finish s i cancelled).notify = s.notify ∧
        ∀ k, ((finish s i cancelled).irp k).next = (s.irp k).next := by
      unfold finish
      split_ifs
      · exact ⟨rfl, next_setStatus s i _⟩
      · exact ⟨rfl, next_setStatus s i _⟩
      · exact ⟨rfl, fun _ => rfl⟩
    rw [hkeeps.2]
    exact hlast notify (hkeeps.1 ▸ hn) hpopping l hlink

instance (s : System n D) : ∀ a : Action n D, Decidable (Pairs s a)
  | .turn => inferInstanceAs (Decidable (∀ notify ∈ s.notify, _ → _ → _ → _ → ∀ l ∈ notify.link, _))
  | .complete _ _ _ => inferInstanceAs (Decidable (_ ∧ _))
  | .write _ | .push _ _ | .enter _ | .finish _ _ => inferInstanceAs (Decidable True)

/-- An entry of an operation there is not, linked to the next one. -/
def unknownLinked (hard : Bool) (data : Nat) : sqe_t Nat := { op := 99, data := data, link := !hard, hardlink := hard }

/-- Two entries, the first hard-linked, each of which fails at once. -/
def hardPair : List (Action 2 Nat) :=
  [.push 0 (unknownLinked true 5), .write ⟨0, 2, 0, 0⟩, .enter 2, .turn, .turn, .turn, .turn,
    .complete 0 EINVAL 0, .complete 1 EINVAL 0, .finish 1 false, .finish 0 false, .turn]

/-- Two entries, the first linked, which fails. -/
def softPair : List (Action 2 Nat) :=
  [.push 0 (unknownLinked false 5), .write ⟨0, 2, 0, 0⟩, .enter 2, .turn, .turn, .turn, .turn,
    .complete 0 EINVAL 0, .finish 0 false, .turn]

/-- Three entries, the first two hard-linked. -/
def hardTriple : List (Action 4 Nat) :=
  [.push 0 (unknownLinked true 5), .push 1 (unknownLinked true 6), .write ⟨0, 3, 0, 0⟩, .enter 3, .turn, .turn, .turn,
    .turn, .turn, .complete 0 EINVAL 0, .complete 1 EINVAL 0, .finish 1 false, .finish 0 false]

end Patchwork.Ring
