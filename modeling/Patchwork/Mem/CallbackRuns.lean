import Patchwork.Mem.Release
import Patchwork.Lib.Runs
/-!
# Callbacks over the life of an address space

A system is an address space together with the list of the functions that were
registered with a mapping. Its actions are the calls of `vmm_map`,
`vmm_map_pages`, `vmm_alloc`, `vmm_protect` and `vmm_unmap`, and `space_deinit`
at the end.

The counts of `Counted` survive every call but one kind: `vmm_map`,
`vmm_map_pages` and `vmm_alloc` unmap the pages that are in their way without
taking them from their callbacks. Where no such page belongs to a callback, each
function is called once, when the last page of its mapping goes.
-/

namespace Patchwork.Space

open List Option Paging Lib

variable {σ τ : Type} (env : Env σ)

inductive Action (τ : Type) where
  | map (virtAddr physAddr length : Nat) (flags : pml_flags_t) (func : Option τ)
  | mapPages (virtAddr : Nat) (pfns : Nat → Nat) (amount : Nat) (flags : pml_flags_t) (func : Option τ)
  | alloc (virtAddr length alignment : Nat) (flags : pml_flags_t) (failIfMapped : Bool)
  | protect (virtAddr length : Nat) (flags : pml_flags_t)
  | unmap (virtAddr length : Nat)
  | deinit

/-- The function that comes with the mapping. -/
def Action.func : Action τ → Option τ
  | .map _ _ _ _ func => func
  | .mapPages _ _ _ _ func => func
  | _ => none

def Action.isDeinit : Action τ → Bool
  | .deinit => true
  | _ => false

def exec (space : space_t σ τ) : Action τ → Call σ τ Nat
  | .map virtAddr physAddr length flags func => vmm_map env space virtAddr physAddr length flags func
  | .mapPages virtAddr pfns amount flags func => vmm_map_pages env space virtAddr pfns amount flags func
  | .alloc virtAddr length alignment flags failIfMapped => vmm_alloc env space virtAddr length alignment flags failIfMapped
  | .protect virtAddr length flags => vmm_protect env space virtAddr length flags
  | .unmap virtAddr length => vmm_unmap env space virtAddr length
  | .deinit => some (.ok 0, space_deinit space)

structure System (σ τ : Type) where
  space : space_t σ τ
  registered : List τ
  live : Bool

/-- A call that succeeds registers the function that came with it. -/
def step (s : System σ τ) (a : Action τ) : Option (System σ τ) :=
  if s.live then
    match exec env s.space a with
    | none => none
    | some (.ok _, space) =>
      some { space := space, registered := s.registered ++ a.func.toList, live := !a.isDeinit }
    | some (.error _, space) => some { space := space, registered := s.registered, live := !a.isDeinit }
  else none

/-- The counts agree, and each registered function has been called or is still to
be called, once. -/
structure Consistent (s : System σ τ) : Prop where
  counted : s.live = true → Counted s.space
  once : s.registered.Perm (s.space.ran ++ if s.live then pending s.space else [])

/-- The call calls the functions whose last page it takes, and no other; at the
end those that are left. -/
def Moment (s : System σ τ) (a : Action τ) : Prop :=
  ∀ s', step env s a = some s' →
    s'.space.ran = s.space.ran ++
      if s'.live then
        ((allocatedIds s.space).filter fun id => tagged s'.space.pageTable id = 0).filterMap fun id =>
          (s.space.callbacks id).func
      else pending s.space

/-- The region `space_mapping_start` finds. -/
def regionOf (space : space_t σ τ) (virtAddr physAddr length alignment : Nat) (flags : pml_flags_t) :
    Option space_mapping_t :=
  match space_mapping_start env space virtAddr physAddr length alignment flags with
  | some (.ok mapping, _) => some mapping
  | _ => none

/-- No page of the region belongs to a callback. -/
def Unclaimed (space : space_t σ τ) (mapping : space_mapping_t) : Prop :=
  Untagged space.pageTable (vpns mapping.virtAddr mapping.pageAmount)

/-- Pages of callbacks are unmapped by `vmm_unmap` only, a callback is for the
pages of its region, and no page is unmapped twice in one call. -/
def Careful (s : System σ τ) : Action τ → Prop
  | .map virtAddr physAddr length flags func =>
    ∀ mapping ∈ regionOf env s.space virtAddr physAddr length 1 flags,
      Unclaimed s.space mapping ∧ (func.isSome → 0 < mapping.pageAmount)
  | .mapPages virtAddr _ amount flags func =>
    ∀ mapping ∈ regionOf env s.space virtAddr PHYS_ADDR_INVALID (amount * PAGE_SIZE % 2 ^ 64) 1 flags,
      Unclaimed s.space mapping ∧ (func.isSome → mapping.pageAmount = amount)
  | .alloc virtAddr length alignment flags failIfMapped =>
    ∀ mapping ∈ regionOf env s.space virtAddr PHYS_ADDR_INVALID length alignment (flags ||| PML_OWNED),
      failIfMapped = false → Unclaimed s.space mapping
  | .protect virtAddr length flags =>
    Entry.present flags = false →
      ∀ mapping ∈ regionOf env s.space virtAddr PHYS_ADDR_INVALID length 1 PML_NONE, mapping.pageAmount ≤ 2 ^ 36
  | .unmap virtAddr length =>
    ∀ mapping ∈ regionOf env s.space virtAddr PHYS_ADDR_INVALID length 1 PML_NONE, mapping.pageAmount ≤ 2 ^ 36
  | .deinit => True

/-! ## One call -/

/-- What a call can do to the callbacks. -/
inductive Effect (space space' : space_t σ τ) (r : Except errno_t Nat) (func : Option τ) : Prop
  | untouched : Untouched space space' → (∀ addr, r = .ok addr → func = none) → Effect space space' r func
  | added (id n : Nat) (f : τ) (addr : Nat) : func = some f → r = .ok addr → 0 < n → NewCallback space space' id n f →
      (∀ j < PML_MAX_CALLBACK, tagged space'.pageTable j = tagged space.pageTable j + if j = id then n else 0) →
      Effect space space' r func
  | unmapped : Unmapped space space' → func = none → Effect space space' r func

variable {virtAddr physAddr length alignment : Nat} {flags : pml_flags_t} {mapping : space_mapping_t}
    {func : Option τ} {s : System σ τ} {a : Action τ} {space space' : space_t σ τ}

theorem regionOf_eq
    (h : space_mapping_start env space virtAddr physAddr length alignment flags = some (.ok mapping, space')) :
    mapping ∈ regionOf env space virtAddr physAddr length alignment flags := by
  rw [regionOf, h]
  rfl

theorem Started.counted (h : Started space space') (hc : Counted space) : Counted space' :=
  h.untouched.1.counted h.untouched.2 hc

theorem Started.allocated (h : Started space space') : Allocated space' = Allocated space := by
  funext id
  rw [Allocated, Allocated, h.bitmap]

theorem Started.allocatedIds (h : Started space space') : allocatedIds space' = allocatedIds space := by
  rw [Space.allocatedIds, Space.allocatedIds, h.bitmap]

variable {r : Except errno_t Nat}

theorem Effect.of_started {space1 : space_t σ τ}
    (hs : Started space space1) (h : Effect space1 space' r func) : Effect space space' r func := by
  cases h with
  | untouched h hr => exact .untouched (hs.untouched.trans h) hr
  | added id n f addr hfunc hr hn h ht =>
    rw [hs.pageTable] at ht
    refine .added id n f addr hfunc hr hn ?_ ht
    exact
      { lt := h.lt
        wasFree := hs.allocated ▸ h.wasFree
        length := by rw [h.length, hs.bitmap]
        first := by rw [h.first, hs.bitmap]
        bits := fun j => by rw [h.bits, hs.bitmap]
        callback := h.callback
        callbacks := fun j hj => by rw [h.callbacks j (hs.allocated ▸ hj), hs.callbacks]
        callbacksLength := by rw [← hs.callbacksLength]; exact h.callbacksLength
        array := h.array
        ran := h.ran.trans hs.ran }
  | unmapped h hfunc =>
    refine .unmapped ?_ hfunc
    exact
      { wellFormed := h.wellFormed
        allocated := fun j => by rw [h.allocated j, hs.allocated]
        amount := h.amount
        func := fun j => by rw [h.func j, hs.callbacks]
        free := fun j hj hn => h.free j hj (hs.allocated ▸ hn)
        ran := by rw [h.ran, hs.ran, hs.allocatedIds, hs.callbacks] }

theorem Mapped.effect {n pages : Nat}
    (h : Mapped space space' r func n pages) (hn : func.isSome → n = pages ∧ 0 < n) : Effect space space' r func := by
  cases h with
  | untouched h hr => exact .untouched h hr
  | added id f addr hfunc hr h ht =>
    obtain ⟨rfl, hpos⟩ := hn (by rw [hfunc]; rfl)
    exact .added id n f addr hfunc hr hpos h ht

theorem Unmapped.trans {space1 : space_t σ τ} (h : Unmapped space space1) (hs : Started space1 space') :
    Unmapped space space' where
  wellFormed := (hs.counted h.counted).toWellFormed
  allocated j := by rw [hs.allocated, hs.pageTable, h.allocated j]
  amount j hj := by
    rw [hs.callbacks, hs.pageTable]
    exact h.amount j (hs.allocated ▸ hj)
  func j := by rw [hs.callbacks, h.func j]
  free j hj hn := by
    rw [hs.pageTable]
    exact h.free j hj hn
  ran := by rw [hs.ran, h.ran, hs.pageTable]

theorem Unclaimed.of_started (hs : Started space space') (h : Unclaimed space mapping) : Unclaimed space' mapping := by
  rw [Unclaimed, hs.pageTable]
  exact h

/-- A call that begins with `space_mapping_start` has an effect only if a region
is found. -/
theorem effect_of_start {k : space_mapping_t → space_t σ τ → Call σ τ Nat}
    (h : (match space_mapping_start env space virtAddr physAddr length alignment flags with
      | none => none
      | some (.error err, space) => some (.error err, space)
      | some (.ok mapping, space) => k mapping space) = some (r, space'))
    (hk : ∀ mapping ∈ regionOf env space virtAddr physAddr length alignment flags, mapping.flags = flags →
      ∀ space1, Started space space1 → k mapping space1 = some (r, space') → Effect space1 space' r func) :
    Effect space space' r func := by
  split at h
  · cases h
  · rename_i err space1 hstart
    obtain ⟨rfl, rfl⟩ := Prod.mk.inj (some.inj h)
    exact .untouched (started_mapping_start env hstart).1.untouched nofun
  · rename_i mapping space1 hstart
    obtain ⟨hs, hflags⟩ := started_mapping_start env hstart
    exact .of_started hs (hk mapping (regionOf_eq env hstart) (hflags mapping rfl) space1 hs h)

theorem Effect.of_error {err : errno_t}
    (h : some (Except.error err, space) = some (r, space')) : Effect space space' r func := by
  obtain ⟨rfl, rfl⟩ := Prod.mk.inj (some.inj h)
  exact .untouched (.refl space) nofun

section Calls
variable {space space' : space_t σ τ} {r : Except errno_t Nat} (hc : Counted space)
include hc

theorem map_effect (h : vmm_map env space virtAddr physAddr length flags func = some (r, space'))
    (hok : ∀ mapping ∈ regionOf env space virtAddr physAddr length 1 flags,
      Unclaimed space mapping ∧ (func.isSome → 0 < mapping.pageAmount)) : Effect space space' r func := by
  unfold vmm_map at h
  split at h
  · exact .of_error h
  rename_i hargs
  simp only [not_or, Bool.not_eq_false] at hargs
  refine effect_of_start env h fun mapping hm _ space1 hs hk => ?_
  obtain ⟨hu, hpos⟩ := hok mapping hm
  have hspec := mapRegion_spec env (maps_map env mapping.virtAddr mapping.physAddr mapping.pageAmount hargs.2.2)
    (hs.counted hc).toWellFormed mapping.pageAmount func (hu.of_started hs)
  rw [some.inj hk] at hspec
  exact hspec.effect fun hf => ⟨rfl, hpos hf⟩

theorem map_pages_effect {pfns : Nat → Nat} {amount : Nat}
    (h : vmm_map_pages env space virtAddr pfns amount flags func = some (r, space'))
    (hok : ∀ mapping ∈ regionOf env space virtAddr PHYS_ADDR_INVALID (amount * PAGE_SIZE % 2 ^ 64) 1 flags,
      Unclaimed space mapping ∧ (func.isSome → mapping.pageAmount = amount)) : Effect space space' r func := by
  unfold vmm_map_pages at h
  split at h
  · exact .of_error h
  rename_i hargs
  simp only [not_or, Bool.not_eq_false] at hargs
  refine effect_of_start env h fun mapping hm hflags space1 hs hk => ?_
  obtain ⟨hu, hn⟩ := hok mapping hm
  have hpres : Entry.present mapping.flags = true := by rw [hflags]; exact hargs.2
  have hspec := mapRegion_spec env (maps_map_pages env mapping.virtAddr pfns mapping.pageAmount hpres)
    (hs.counted hc).toWellFormed amount func (hu.of_started hs)
  rw [some.inj hk] at hspec
  exact hspec.effect fun hf => ⟨(hn hf).symm, Nat.pos_of_ne_zero hargs.1⟩

theorem unmap_effect (h : vmm_unmap env space virtAddr length = some (r, space'))
    (hok : ∀ mapping ∈ regionOf env space virtAddr PHYS_ADDR_INVALID length 1 PML_NONE, mapping.pageAmount ≤ 2 ^ 36) :
    Effect space space' r none := by
  unfold vmm_unmap at h
  split at h
  · exact .of_error h
  refine effect_of_start env h fun mapping hm _ space1 hs hk => ?_
  split at hk
  · exact .of_error hk
  · have hloop := unmapped_loop env (hs.counted hc) mapping.virtAddr (hok mapping hm)
    have hend := hloop.trans (started_mapping_end _ mapping none)
    rw [some.inj hk] at hend
    exact .unmapped hend rfl

omit hc in
theorem alloc_effect {failIfMapped : Bool}
    (h : vmm_alloc env space virtAddr length alignment flags failIfMapped = some (r, space'))
    (hok : ∀ mapping ∈ regionOf env space virtAddr PHYS_ADDR_INVALID length alignment (flags ||| PML_OWNED),
      failIfMapped = false → Unclaimed space mapping) : Effect space space' r none := by
  unfold vmm_alloc at h
  split at h
  · exact .of_error h
  rename_i hargs
  simp only [not_or, Bool.not_eq_false] at hargs
  refine effect_of_start env h fun mapping hm hflags space1 hs hk => ?_
  have hpres : Entry.present mapping.flags = true := by rw [hflags]; exact present_owned hargs.2
  split at hk
  · exact .of_error hk
  simp only at hk
  split at hk
  · exact .of_error hk
  rename_i hfail
  -- Either the flag is not given, or there is no page in the way.
  have hu : Unclaimed space1 mapping := by
    cases hmapped : page_table_is_unmapped env space1.pageTable space1.mem mapping.virtAddr mapping.pageAmount with
    | true => exact untagged_of_unmapped env hmapped
    | false =>
      rw [hmapped] at hfail
      exact (hok mapping hm (by simpa using hfail)).of_started hs
  obtain ⟨t, mem, heq, htags⟩ := overwrite_spec env space1 hu
  rw [heq] at hk
  have hlt : ∀ v ∈ vpns mapping.virtAddr mapping.pageAmount, v < 2 ^ 36 := fun v => lt_of_mem_vpns
  have hloop : Untouched { space1 with pageTable := t, mem := mem }
      (vmm_alloc_loop env mapping mapping.pageAmount mapping.pageAmount { space1 with pageTable := t, mem := mem }).2 :=
    untouched_alloc_loop env mapping hpres _ (Nat.le_refl _) (htags.untagged hlt hu (List.Subset.refl _))
  rcases hl : vmm_alloc_loop env mapping mapping.pageAmount mapping.pageAmount
    { space1 with pageTable := t, mem := mem } with ⟨err, space2⟩
  rw [hl] at hloop hk
  have hend := (started_mapping_end space2 mapping err).untouched
  rw [some.inj hk] at hend
  exact .untouched ((untouched_table space1 mem htags).trans (hloop.trans hend)) fun _ _ => rfl

theorem protect_effect (h : vmm_protect env space virtAddr length flags = some (r, space'))
    (hok : Entry.present flags = false →
      ∀ mapping ∈ regionOf env space virtAddr PHYS_ADDR_INVALID length 1 PML_NONE, mapping.pageAmount ≤ 2 ^ 36) :
    Effect space space' r none := by
  unfold vmm_protect at h
  split at h
  · exact .of_error h
  split at h
  · rename_i habs
    exact unmap_effect env hc h (hok habs)
  rename_i hpres
  refine effect_of_start env h fun mapping hm hflags space1 hs hk => ?_
  split at hk
  · exact .of_error hk
  split at hk
  · exact .of_error hk
  have hpres' : Entry.present mapping.flags = true := by rw [hflags]; simpa using hpres
  have htags := sameTags_set_flags env space1.pageTable space1.mem mapping.virtAddr mapping.pageAmount hpres'
  have hkeep : ∀ t err, SameTags space1.pageTable t →
      some (space_mapping_end { space1 with pageTable := t } mapping err) = some (r, space') →
      Effect space1 space' r none := by
    intro t err ht heq
    have hend := (started_mapping_end { space1 with pageTable := t } mapping err).untouched
    rw [some.inj heq] at hend
    exact .untouched ((untouched_table space1 space1.mem ht).trans hend) fun _ _ => rfl
  split at hk
  · rename_i t hset
    rw [hset] at htags
    exact hkeep t _ htags hk
  · rename_i t hset
    rw [hset] at htags
    exact hkeep t _ htags hk

end Calls

theorem exec_effect (hc : Counted s.space) (ha : Careful env s a)
    (hd : a.isDeinit = false) (h : exec env s.space a = some (r, space')) : Effect s.space space' r a.func := by
  cases a with
  | map => exact map_effect env hc h ha
  | mapPages => exact map_pages_effect env hc h ha
  | alloc => exact alloc_effect env h ha
  | protect => exact protect_effect env hc h ha
  | unmap => exact unmap_effect env hc h ha
  | deinit => cases hd

/-! ## What an effect keeps -/

theorem Effect.counted (h : Effect space space' r func) (hc : Counted space) : Counted space' := by
  cases h with
  | untouched h => exact h.1.counted h.2 hc
  | added id n f addr _ _ hn h ht => exact h.counted hn ht hc
  | unmapped h => exact h.counted

/-- The functions that came with a mapping. -/
def newlyRegistered (r : Except errno_t Nat) (func : Option τ) : List τ :=
  match r with
  | .ok _ => func.toList
  | .error _ => []

theorem SameCallbacks.allocatedIds_eq (h : SameCallbacks space space') : allocatedIds space' = allocatedIds space :=
  filter_congr fun id hid => h.bits id (mem_range.1 hid)

theorem SameCallbacks.pending_eq (h : SameCallbacks space space') : pending space' = pending space := by
  rw [pending, pending, h.allocatedIds_eq]
  exact filterMap_congr fun id hid => by rw [h.callbacks id (mem_allocatedIds.1 hid)]

theorem NewCallback.pending_perm {id n : Nat} {func : τ}
    (h : NewCallback space space' id n func) : (pending space').Perm (func :: pending space) := by
  have hids : (allocatedIds space').Perm (id :: allocatedIds space) := by
    have hnew : id ∉ allocatedIds space := fun hm => h.wasFree (mem_allocatedIds.1 hm)
    refine (perm_ext_iff_of_nodup (allocatedIds_nodup space')
      (nodup_cons.2 ⟨hnew, allocatedIds_nodup space⟩)).2 fun j => ?_
    rw [mem_allocatedIds, h.allocated_iff, mem_cons, mem_allocatedIds]
  have hold : (allocatedIds space).filterMap (fun j => (space'.callbacks j).func) = pending space :=
    filterMap_congr fun j hj => by rw [h.callbacks j (mem_allocatedIds.1 hj)]
  refine (hids.filterMap fun j => (space'.callbacks j).func).trans ?_
  rw [filterMap_cons, h.callback, hold]

theorem Unmapped.pending_perm (h : Unmapped space space') :
    (((allocatedIds space).filter fun id => tagged space'.pageTable id = 0).filterMap (fun id =>
      (space.callbacks id).func) ++ pending space').Perm (pending space) := by
  have hids : allocatedIds space' = (allocatedIds space).filter fun id => !decide (tagged space'.pageTable id = 0) := by
    rw [allocatedIds, allocatedIds, List.filter_filter]
    refine filter_congr fun id hid => ?_
    have ha := h.allocated id
    have hlt := mem_range.1 hid
    simp only [Allocated, hlt, true_and] at ha
    rw [Bool.eq_iff_iff, ha, Bool.and_eq_true, Bool.not_eq_true', decide_eq_false_iff_not, and_comm]
  have hfunc : pending space' = ((allocatedIds space).filter fun id =>
      !decide (tagged space'.pageTable id = 0)).filterMap fun id => (space.callbacks id).func := by
    rw [pending, hids]
    exact filterMap_congr fun id _ => h.func id
  rw [hfunc, ← filterMap_append]
  exact (filter_append_perm _ _).filterMap _

/-- What was to be called before has been called or is still to be called, and so
is what the call registered. -/
theorem Effect.once (h : Effect space space' r func) :
    (space'.ran ++ pending space').Perm (space.ran ++ pending space ++ newlyRegistered r func) := by
  cases h with
  | untouched h hr =>
    have hnone : newlyRegistered r func = [] := by
      cases r with
      | error => rfl
      | ok addr => rw [hr addr rfl]; rfl
    rw [hnone, h.1.pending_eq, h.1.ran, append_nil]
  | added id n f addr hfunc hr _ h =>
    rw [hfunc, hr, h.ran, append_assoc]
    refine List.Perm.append_left _ (h.pending_perm.trans ?_)
    exact (perm_append_singleton f (pending space)).symm
  | unmapped h hfunc =>
    have hnone : newlyRegistered r func = [] := by
      rw [hfunc]
      cases r <;> rfl
    rw [hnone, h.ran, append_nil, append_assoc]
    exact List.Perm.append_left _ h.pending_perm

/-- The functions called are those that lost their last page. -/
theorem Effect.moment (h : Effect space space' r func) (hc : Counted space) :
    space'.ran = space.ran ++ ((allocatedIds space).filter fun id => tagged space'.pageTable id = 0).filterMap fun id =>
      (space.callbacks id).func := by
  -- Without an unmapping, every callback keeps its pages.
  have hquiet : space'.ran = space.ran →
      (∀ id, Allocated space id → tagged space.pageTable id ≤ tagged space'.pageTable id) →
      space'.ran = space.ran ++ ((allocatedIds space).filter fun id => tagged space'.pageTable id = 0).filterMap fun id =>
        (space.callbacks id).func := by
    intro hran hle
    have hnil : (allocatedIds space).filter (fun id => tagged space'.pageTable id = 0) = [] := by
      rw [filter_eq_nil_iff]
      intro id hid hzero
      have ha := mem_allocatedIds.1 hid
      have := hc.positive id ha
      have := hle id ha
      rw [decide_eq_true_eq] at hzero
      omega
    rw [hnil, hran, filterMap_nil, append_nil]
  cases h with
  | untouched h => exact hquiet h.1.ran fun id ha => (h.2.tagged_eq ha.1).ge
  | added id n f addr _ _ _ h ht =>
    refine hquiet h.ran fun j ha => ?_
    rw [ht j ha.1]
    exact Nat.le_add_right _ _
  | unmapped h => exact h.ran

/-! ## Every run -/

/-- What one action does: an effect on a live space, or the end of it. -/
theorem step_cases {s' : System σ τ} (h : step env s a = some s') :
    s.live = true ∧ s'.live = !a.isDeinit ∧ ∃ r, exec env s.space a = some (r, s'.space) ∧
      s'.registered = s.registered ++ newlyRegistered r a.func := by
  unfold step at h
  split at h
  · rename_i hlive
    refine ⟨hlive, ?_⟩
    split at h
    · cases h
    · rename_i addr space hexec
      cases h
      exact ⟨rfl, .ok addr, hexec, rfl⟩
    · rename_i err space hexec
      cases h
      exact ⟨rfl, .error err, hexec, (append_nil _).symm⟩
  · cases h

theorem Consistent.step (hc : Consistent s) (ha : Careful env s a) :
    (∀ s', Space.step env s a = some s' → Consistent s') ∧ Moment env s a := by
  refine forall₂_and.1 fun s' h => ?_
  obtain ⟨hlive, hlive', r, hexec, hreg⟩ := step_cases env h
  have hcount := hc.counted hlive
  have honce := hc.once
  rw [hlive, if_pos rfl] at honce
  cases hd : a.isDeinit with
  | true =>
    cases a with
    | deinit =>
      have hspace : s'.space = space_deinit s.space := (Prod.mk.inj (some.inj hexec)).2.symm
      have hr : newlyRegistered r (Action.func (.deinit : Action τ)) = [] := by cases r <;> rfl
      refine ⟨⟨fun hl => ?_, ?_⟩, ?_⟩
      · rw [hlive', hd] at hl
        cases hl
      · rw [hreg, hr, hspace, ran_deinit hcount.toWellFormed, hlive', hd]
        simpa using honce
      · rw [hlive', hd, hspace, ran_deinit hcount.toWellFormed]
        rfl
    | _ => cases hd
  | false =>
    have heff := exec_effect env hcount ha hd hexec
    refine ⟨⟨fun _ => heff.counted hcount, ?_⟩, ?_⟩
    · rw [hlive', hd, hreg]
      exact (honce.append_right _).trans heff.once.symm
    · rw [hlive', hd]
      exact heff.moment hcount

/-- In every state of a run whose calls are careful the counts agree and each
registered function has been called once or is still to be called, and each call
calls the functions whose last page it takes. -/
theorem callbacks_accounted {s : System σ τ} {as : List (Action τ)} (hc : Consistent s)
    (h : Along (step env) (Careful env) s as) : Always (step env) Consistent s as ∧ Along (step env) (Moment env) s as :=
  ⟨h.always (fun _ _ s' hi hok => (hi.step env hok).1 s') hc,
    h.along (fun _ _ s' hi hok => (hi.step env hok).1 s') (fun _ _ hi hok => (hi.step env hok).2) hc⟩

/-! ## A new address space -/

theorem tagged_empty (id : Nat) : tagged (.mk (fun _ => 0#64) fun _ => .null) id = 0 := by
  rw [tagged, Finset.card_eq_zero, Finset.filter_eq_empty_iff]
  intro v _
  rw [show page (.mk (fun _ => 0#64) fun _ => .null) v = 0#64 from leaf_zero _ 3]
  exact not_tagged_zero id

theorem consistent_init {mem : σ} {startAddress endAddress : Nat}
    (h : space_init env mem startAddress endAddress = some space) :
    Consistent { space := space, registered := [], live := true } := by
  unfold space_init pml_new at h
  rcases halloc : env.allocPages mem 1 with ⟨_ | pfns, mem1⟩ <;> rw [halloc] at h <;> cases h
  have hids : (List.range PML_MAX_CALLBACK).filter (BITMAP_CREATE_ZERO PML_MAX_CALLBACK).bit = [] := by decide +kernel
  have hnone : ∀ {id}, ¬ (id < PML_MAX_CALLBACK ∧ (BITMAP_CREATE_ZERO PML_MAX_CALLBACK).bit id = true) :=
    fun ha => not_mem_nil (hids ▸ mem_filter.2 ⟨mem_range.2 ha.1, ha.2⟩)
  refine ⟨fun _ => ?_, ?_⟩
  · exact
      { length := rfl
        first := rfl
        array := fun id ha => absurd ha hnone
        func := fun id ha => absurd ha hnone
        amount := fun id ha => absurd ha hnone
        positive := fun id ha => absurd ha hnone
        free := fun id _ _ => tagged_empty id }
  · rw [pending, allocatedIds, hids]
    exact List.Perm.refl _

def userFlags : pml_flags_t := PML_PRESENT ||| PML_WRITE ||| PML_USER

def emptySystem : System Nat Nat := { space := emptySpace, registered := [], live := true }

instance (s : System σ τ) (a : Action τ) : Decidable (Careful env s a) := by
  cases a <;> simp only [Careful, Unclaimed] <;> infer_instance

/-- Two pages mapped with a function, the one unmapped and then the other: the
function is called at the end. -/
theorem mapUnmap_accounted :
    (run (step bump) emptySystem
        [.map 0x400000 0x1000 0x2000 userFlags (some 7), .unmap 0x400000 0x1000, .unmap 0x401000 0x1000]).map
      (fun s => s.space.ran) = some [7] ∧
    Always (step bump) Consistent emptySystem
        [.map 0x400000 0x1000 0x2000 userFlags (some 7), .unmap 0x400000 0x1000, .unmap 0x401000 0x1000] ∧
      Along (step bump) (Moment bump) emptySystem
        [.map 0x400000 0x1000 0x2000 userFlags (some 7), .unmap 0x400000 0x1000, .unmap 0x401000 0x1000] :=
  ⟨by decide +kernel, callbacks_accounted bump (consistent_init bump rfl) (by decide +kernel)⟩

/-- The page table with the page of a function. -/
def firstTable : pml_t := (page_table_map bump emptySpace.pageTable 1 0x400000 0x1000 1 userFlags 0).2.1

/-- The page table once that page has been unmapped. -/
def clearedTable : pml_t := (page_table_clear bump (page_table_unmap bump firstTable 4 0x400000 1) 4 0x400000 1).1

/-- The page of a function is mapped again without one: it has no page left, is
not called, and is still counted with one page. -/
theorem overwritten_not_called :
    ∃ s, run (step bump) emptySystem
        [.map 0x400000 0x1000 0x1000 userFlags (some 7), .map 0x400000 0x2000 0x1000 userFlags none] = some s ∧
      Allocated s.space 0 ∧ (s.space.callbacks 0).pageAmount = 1 ∧ tagged s.space.pageTable 0 = 0 ∧ s.space.ran = [] := by
  have hfirst : tagged firstTable 0 = 1 := by
    rw [firstTable, tagged_map bump _ _ rfl (by decide) (by decide +kernel), if_pos rfl]
    exact congrArg (· + 1) (tagged_empty 0)
  have hcount : (vpns 0x400000 1).countP (fun v => Tagged (page firstTable v) 0) = 1 := by decide +kernel
  have hcleared : tagged clearedTable 0 + 1 = tagged firstTable 0 := by
    rw [← hcount, clearedTable]
    exact tagged_unmap bump firstTable 4 (by decide) 0
  have hsecond : tagged (page_table_map bump clearedTable 4 0x400000 0x2000 1 userFlags PML_CALLBACK_NONE).2.1 0 =
      tagged clearedTable 0 := by
    rw [tagged_map bump _ _ rfl (by decide) (by decide +kernel), if_neg (by decide), Nat.add_zero]
  exact ⟨_, rfl, ⟨by decide, by decide⟩, rfl, hsecond.trans (by omega), rfl⟩

end Patchwork.Space
