import Patchwork.Net.Local
/-!
# Connections over whole runs

The count of a connection is the number of sockets and calls that hold a reference to it.
The invariant adds to that what a pending connection needs: its client, and its reference
to the listener, which keeps the listener from being freed.
-/

namespace Patchwork.Local

open List Option Function Lib

variable {S C L K : Type} [DecidableEq C] [DecidableEq L]

/-! ## Weights -/

section
variable [DecidableEq S] [Fintype S] [Fintype C] [Fintype K]

def sockRefs : Obj C L → Sock C L → Nat
  | .conn c, sock => if sock.conn = some c then 1 else 0
  | .listen l, sock => if sock.listen = some l then 1 else 0

def innerRefs : Obj C L → Option L → Nat
  | .conn _, _ => 0
  | .listen l, inner => if inner = some l then 1 else 0

/-- The references to an object. -/
def refs (s : System S C L K) (o : Obj C L) : Nat :=
  weigh (sockRefs o) s.sock + weigh (load (Task.refs o)) s.tasks + weigh (innerRefs o) s.inner

/-- Tasks that free the connection. -/
def Task.frees (c : C) : Task S C L → Nat
  | .free (.conn c') | .release (.conn c') => if c = c' then 1 else 0
  | _ => 0

/-- How often a connection is freed or about to be. -/
def unreferenced (ref : Obj C L → Ref) (c : C) : Nat :=
  if (ref (.conn c)).used = true ∧ (ref (.conn c)).count = 0 then 1 else 0

/-- What tasks are going to do. -/
inductive Duty (S C L : Type) where
  /-- Enter the connection into a backlog, of this listener. -/
  | push (c : C)
  | link (c : C) (l : L)
  /-- Give the socket a connection. -/
  | take (sock : S)
  /-- Free the listener, and that after it has been removed from the map. -/
  | finish (l : L)
  | retire (l : L)

def Task.owes : Duty S C L → Task S C L → Nat
  | .push c, .connPush _ _ c' => if c = c' then 1 else 0
  | .push _, _ => 0
  | .link c l, .connPush _ l' c' => if c = c' ∧ l = l' then 1 else 0
  | .link _ _, _ => 0
  | .take i, .connNew i' _ | .take i, .connPush i' _ _ | .take i, .acceptPop _ i' | .take i, .acceptStore i' _ _ =>
    if i = i' then 1 else 0
  | .take _, _ => 0
  | .finish l, .free (.listen l') | .finish l, .listenSweep l' | .finish l, .release (.listen l') =>
    if l = l' then 1 else 0
  | .finish _, _ => 0
  | .retire l, .listenSweep l' | .retire l, .release (.listen l') => if l = l' then 1 else 0
  | .retire _, _ => 0

def due (s : System S C L K) (d : Duty S C L) : Nat := weigh (load (Task.owes d)) s.tasks

/-- It is done once. -/
def Duty.single : Duty S C L → Bool
  | .push _ | .take _ => true
  | .link _ _ | .finish _ | .retire _ => false

/-- What holds as long as it has to be done: a new connection is in no backlog and refers to
the listener, a socket that gets a connection has none, and a listener that is freed has
nothing in its backlog and gets nothing any more. -/
def Allowed (s : System S C L K) : Duty S C L → Prop
  | .push c => ∀ l, c ∉ s.backlog l
  | .link c l => s.inner c = some l
  | .take sock => (s.sock sock).conn = none
  | .finish l => (s.ref (.listen l)).used = true ∧ s.backlog l = [] ∧ ∀ sock, (s.sock sock).listen ≠ some l
  | .retire l => (s.ref (.listen l)).used = true ∧ s.registered l = false

structure Inv (s : System S C L K) : Prop where
  counts : ∀ o, (s.ref o).count = refs s o
  frees : ∀ c, weigh (load (Task.frees c)) s.tasks + (s.ref (.conn c)).freed = unreferenced s.ref c
  unused : ∀ o, (s.ref o).used = false → (s.ref o).count = 0
  unlinked : ∀ c, (s.ref (.conn c)).used = false → s.inner c = none
  registered : ∀ l, s.registered l = true → (s.ref (.listen l)).used = true ∧ (s.ref (.listen l)).freed = 0
  duty : ∀ d, 0 < due s d → Allowed s d
  once : ∀ d, d.single = true → due s d ≤ 1
  /-- The client of a pending connection is open. -/
  client : ∀ l, ∀ c ∈ s.backlog l, ∃ sock, (s.sock sock).conn = some c
  inner : ∀ l, ∀ c ∈ s.backlog l, s.inner c = some l
  nodup : ∀ l, (s.backlog l).Nodup
  pending : ∀ l, s.pendingAmount l = (s.backlog l).length
  listening : ∀ l, (s.ref (.listen l)).used = true → s.isClosed l = false → ∃ sock, (s.sock sock).listen = some l

end

open Local.Task (owes)

attribute [simp] Task.refs Task.frees owes Task.about sockRefs unreferenced

/-- The CPU owes no more after the step, or something that is allowed then. -/
def Dutiful [DecidableEq S] [Fintype K] (s s' : System S C L K) (k : K) (next : List (Task S C L)) : Prop :=
  ∀ d, load (owes d) next ≤ load (owes d) (s.tasks k) ∨
    (Allowed s' d ∧ (d.single = true → due s d = 0 ∧ load (owes d) next ≤ 1))

variable {s s' : System S C L K} {k : K} {task : Task S C L} {rest : List (Task S C L)} {o : Obj C L} {c : C} {l : L}
  {sock : S} {d : Duty S C L} {a : Action S C L K}

@[simp] theorem inc_count (o o' : Obj C L) : ((s.inc o).ref o').count = (s.ref o').count + if o' = o then 1 else 0 := by
  by_cases ho : o' = o <;> simp [System.inc, ho]

@[simp] theorem inc_used (o o' : Obj C L) : ((s.inc o).ref o').used = (s.ref o').used :=
  update_map_eq Ref.used (by rfl) o'

@[simp] theorem inc_freed (o o' : Obj C L) : ((s.inc o).ref o').freed = (s.ref o').freed :=
  update_map_eq Ref.freed (by rfl) o'

/-- One more reference to an object that has some changes nothing about freeing. -/
theorem unreferenced_inc (hr : ∀ c', o = .conn c' → 0 < (s.ref o).count) (c : C) :
    unreferenced (s.inc o).ref c = unreferenced s.ref c := by
  rw [unreferenced, unreferenced, inc_used, inc_count]
  by_cases ho : Obj.conn c = o
  · have hpos := hr c ho.symm
    simp [ho, Nat.ne_of_gt hpos]
  · rw [if_neg ho, Nat.add_zero]

/-! ## What is referred to is alive -/

theorem due_of_task [DecidableEq S] [Fintype K] (h : task ∈ s.tasks k) (hd : task.owes d = 1) : 0 < due s d :=
  Nat.lt_of_lt_of_le (Nat.lt_of_lt_of_eq Nat.zero_lt_one hd.symm) (le_weigh_load h)

/-- No call is going to give a connection to a socket that is idle. -/
theorem Idle.due [DecidableEq S] [Fintype K] (h : Idle s sock) : due s (.take sock) = 0 := by
  refine weigh_eq_zero fun k => load_eq_zero fun task ht => ?_
  have hne := h.2 k task ht
  cases task <;> simp_all [Task.sock, eq_comm]

theorem empty_step [DecidableEq S] [DecidableEq K] [Fintype K] (hempty : ∀ l, s.backlog l = [])
    (hun : Unpushed s a) (hs : step s a = some s') :
    ∀ l, s'.backlog l = [] := by
  cases a with
  | bind sock l =>
    simp only [step, ite_none_right_eq_some] at hs
    rw [← Option.some.inj hs.2]
    exact (forall_update_iff s.backlog fun _ backlog => backlog = []).2 ⟨rfl, fun l' _ => hempty l'⟩
  | go k =>
    cases hk : s.tasks k with
    | nil => simp [step, hk] at hs
    | cons task rest =>
      simp only [step, hk, Option.some.injEq] at hs
      subst hs
      cases task with
      | connPush sock l c =>
        rw [perform, connPush, if_pos (hun sock l c rest hk)]
        exact hempty
      | acceptPop l newSock =>
        rw [perform, acceptPop, hempty]
        split_ifs <;> exact hempty
      | listenSweep l =>
        rw [perform, hempty]
        exact hempty
      | free o => cases o <;> rw [perform] <;> (try split) <;> exact hempty
      | _ =>
        rw [perform]
        (try split) <;> exact hempty
  | _ =>
    simp only [step] at hs
    (repeat' split at hs) <;> cases hs <;> exact hempty

variable [Fintype S] [Fintype C] [Fintype K]

theorem refs_of_sockRefs (h : sockRefs o (s.sock sock) = 1) : 0 < refs s o := by
  have hle := le_weigh (sockRefs o) s.sock sock
  rw [refs]
  omega

theorem refs_of_sock (h : (s.sock sock).conn = some c) : 0 < refs s (.conn c) := refs_of_sockRefs (if_pos h)

theorem refs_of_task (h : task ∈ s.tasks k) (ho : task.refs o = 1) : 0 < refs s o := by
  have hle := le_weigh_load (w := Task.refs o) h
  rw [refs]
  omega

variable [DecidableEq S]

theorem refs_of_due (hd : d = .push c ∨ ∃ l, d = .link c l) (h : 0 < due s d) : 0 < refs s (.conn c) := by
  have hle : weigh (load (owes d)) s.tasks ≤ weigh (load (Task.refs (.conn c))) s.tasks := by
    refine weigh_load_mono (fun task => ?_) s.tasks
    rcases hd with rfl | ⟨l, rfl⟩
    all_goals
      cases task with
      | connPush i l' c' => by_cases heq : c = c' <;> simp [heq] <;> split <;> omega
      | _ => exact Nat.zero_le _
  rw [due] at h
  rw [refs]
  omega

theorem Inv.used_of_refs (h : Inv s) (hr : 0 < refs s o) : (s.ref o).used = true := by
  by_contra hu
  have hzero := h.unused o (Bool.eq_false_iff.2 hu)
  rw [h.counts o] at hzero
  omega

theorem Inv.not_freed (h : Inv s) (hr : 0 < refs s (.conn c)) :
    weigh (load (Task.frees c)) s.tasks = 0 ∧ (s.ref (.conn c)).freed = 0 := by
  have hfrees := h.frees c
  have hne : (s.ref (.conn c)).count ≠ 0 := by
    rw [h.counts]
    omega
  rw [unreferenced, if_neg fun hu => hne hu.2] at hfrees
  omega

theorem Inv.sound (h : Inv s) : Sound s := by
  constructor
  · intro l c hc
    obtain ⟨sock, hsock⟩ := h.client l c hc
    have hr := refs_of_sock hsock
    rw [h.counts]
    exact ⟨(h.not_freed hr).2, hr⟩
  · exact h.pending
  · intro c
    have hfrees := h.frees c
    have hle : unreferenced s.ref c ≤ 1 := by
      rw [unreferenced]
      split <;> omega
    omega
  · intro c hfreed
    constructor
    · intro sock hsock
      exact absurd (h.not_freed (refs_of_sock hsock)).2 (Nat.ne_of_gt hfreed)
    · intro l hc
      obtain ⟨sock, hsock⟩ := h.client l c hc
      exact absurd (h.not_freed (refs_of_sock hsock)).2 (Nat.ne_of_gt hfreed)
  · intro c hused hsocks _ htasks
    have hrefs : refs s (.conn c) = 0 := by
      have h1 : weigh (sockRefs (.conn c)) s.sock = 0 := weigh_eq_zero fun sock => if_neg (hsocks sock)
      have h2 : weigh (load (Task.refs (.conn c))) s.tasks = 0 := by
        refine weigh_eq_zero fun k => load_eq_zero fun task ht => ?_
        have habout := htasks k task ht
        cases task with
        | unref o => cases o <;> simp_all
        | _ => simp_all
      have h3 : weigh (innerRefs (.conn c)) s.inner = 0 := weigh_eq_zero fun _ => rfl
      rw [refs, h1, h2, h3]
    have htokens : weigh (load (Task.frees c)) s.tasks = 0 := by
      refine weigh_eq_zero fun k => load_eq_zero fun task ht => ?_
      have habout := htasks k task ht
      cases task with
      | free o => cases o <;> simp_all
      | release o => cases o <;> simp_all
      | _ => rfl
    have hfrees := h.frees c
    rw [unreferenced, if_pos ⟨hused, (h.counts _).trans hrefs⟩] at hfrees
    omega

/-- The count of a connection without the backlogs. -/
theorem Inv.count_conn (h : Inv s) (c : C) :
    (s.ref (.conn c)).count = weigh (fun sock : Sock C L => if sock.conn = some c then 1 else 0) s.sock +
      weigh (load (Task.refs (.conn c))) s.tasks := by
  have hinner : weigh (innerRefs (.conn c)) s.inner = 0 := weigh_eq_zero fun _ => rfl
  have hcounts := h.counts (.conn c)
  rw [refs, hinner] at hcounts
  exact hcounts

/-- A count has 32 bits in the source: it does not wrap while there are fewer sockets, connections and tasks. -/
theorem Inv.count_le (h : Inv s) (o : Obj C L) :
    (s.ref o).count ≤ Fintype.card S + weigh (load fun _ => 1) s.tasks + Fintype.card C := by
  have hsock : weigh (sockRefs o) s.sock ≤ Fintype.card S := by
    refine weigh_le_card (fun sock => ?_) s.sock
    cases o <;> simp only [sockRefs] <;> split_ifs <;> simp
  have hinner : weigh (innerRefs o) s.inner ≤ Fintype.card C := by
    refine weigh_le_card (fun inner => ?_) s.inner
    cases o <;> simp only [innerRefs] <;> (try split_ifs) <;> simp
  have htasks : weigh (load (Task.refs o)) s.tasks ≤ weigh (load fun _ => 1) s.tasks := by
    refine weigh_load_mono (fun task => ?_) s.tasks
    cases task <;> simp only [Task.refs] <;> grind
  rw [h.counts, refs]
  omega

theorem Inv.right [Fintype L] (h : Inv s) (hempty : ∀ l, s.backlog l = []) : Right s := by
  refine ⟨h.sound, fun c => ?_⟩
  have hzero : weigh (fun backlog : List C => backlog.count c) s.backlog = 0 :=
    weigh_eq_zero fun l => by rw [hempty, count_nil]
  rw [hzero, Nat.add_zero]
  exact h.count_conn c

theorem inv_init : Inv (init : System S C L K) := by
  have hzero : ∀ w : Task S C L → Nat, weigh (load w) (fun _ : K => []) = 0 := fun w => weigh_eq_zero fun _ => rfl
  refine ⟨fun o => ?_, fun c => hzero (Task.frees c), fun _ _ => rfl, fun _ _ => rfl, nofun, fun d hd => ?_, fun d _ => ?_,
    nofun, nofun, fun _ => nodup_nil, fun _ => rfl, nofun⟩
  · have h1 : weigh (sockRefs o) (init : System S C L K).sock = 0 := weigh_eq_zero fun _ => by cases o <;> rfl
    have h2 : weigh (innerRefs o) (init : System S C L K).inner = 0 := weigh_eq_zero fun _ => by cases o <;> rfl
    have h3 : weigh (load (Task.refs o)) (init : System S C L K).tasks = 0 := hzero (Task.refs o)
    rw [refs, h1, h2, h3]
    rfl
  · exact absurd (hzero (owes d)) (Nat.ne_of_gt hd)
  · exact Nat.le_trans (Nat.le_of_eq (hzero (owes d))) (Nat.zero_le 1)

section
variable (h : Inv s)
include h

theorem unused_inc (hused : (s.ref o).used = true) (o' : Obj C L) (hu : ((s.inc o).ref o').used = false) :
    ((s.inc o).ref o').count = 0 := by
  rw [inc_used] at hu
  have hne : o' ≠ o := by
    rintro rfl
    exact Bool.false_ne_true (hu.symm.trans hused)
  rw [inc_count, if_neg hne, h.unused o' hu]

/-- If the count is one, the task has the only reference. -/
theorem Inv.only_ref (hk : s.tasks k = .unref (.listen l) :: rest) (hone : (s.ref (.listen l)).count ≤ 1) :
    s.backlog l = [] ∧ ∀ sock, (s.sock sock).listen ≠ some l := by
  have hcount := h.counts (.listen l)
  have htask := le_weigh_load (w := Task.refs (.listen l)) (hk ▸ mem_cons_self : .unref (.listen l) ∈ s.tasks k)
  rw [Task.refs, if_pos rfl] at htask
  rw [refs] at hcount
  constructor
  · refine eq_nil_iff_forall_not_mem.2 fun c hc => ?_
    have hinner := le_weigh (innerRefs (Obj.listen (C := C) l)) s.inner c
    rw [innerRefs, if_pos (h.inner l c hc)] at hinner
    omega
  · intro sock hsock
    have hle := le_weigh (sockRefs (.listen l)) s.sock sock
    rw [sockRefs, if_pos hsock] at hle
    omega

/-! ## Backlogs -/

theorem Inv.pop {backlog : List C} (hl : s.backlog l = c :: backlog) :
    Inv { s with
      backlog := update s.backlog l backlog
      pendingAmount := update s.pendingAmount l (s.pendingAmount l - 1) } := by
  have hsub : ∀ l' c', c' ∈ update s.backlog l backlog l' → c' ∈ s.backlog l' := by
    intro l' c' hc
    by_cases heq : l' = l <;> simp_all
  refine { h with
    duty := fun d hd => ?_
    client := fun l' c' hc => h.client l' c' (hsub l' c' hc)
    inner := fun l' c' hc => h.inner l' c' (hsub l' c' hc)
    nodup := fun l' => ?_
    pending := fun l' => ?_ }
  · have hall := h.duty d hd
    cases d with
    | push c' => exact fun l' hc => hall l' (hsub l' c' hc)
    | finish l' => exact ⟨hall.1, eq_nil_iff_forall_not_mem.2 fun c' hc => by simpa [hall.2.1] using hsub l' c' hc, hall.2.2⟩
    | _ => exact hall
  · have hnodup := h.nodup l'
    by_cases heq : l' = l <;> simp_all
  · have hpending := h.pending l'
    by_cases heq : l' = l <;> simp_all

/-- A connection of an open socket enters the backlog of an open listener. -/
theorem Inv.push (sock : S) (hpush : due s (.push c) = 0) (hfresh : ∀ l, c ∉ s.backlog l)
    (hinner : s.inner c = some l) (hsock : (s.sock sock).conn = some c) (hopen : s.isClosed l = false) :
    Inv { s with
      pendingAmount := update s.pendingAmount l (s.pendingAmount l + 1)
      backlog := update s.backlog l (s.backlog l ++ [c]) } := by
  have hmem : ∀ l' c', c' ∈ update s.backlog l (s.backlog l ++ [c]) l' → c' ∈ s.backlog l' ∨ (c' = c ∧ l' = l) := by
    intro l' c' hc
    by_cases heq : l' = l <;> simp_all
  refine { h with
    duty := fun d hd => ?_
    client := fun l' c' hc => ?_
    inner := fun l' c' hc => ?_
    nodup := fun l' => ?_
    pending := fun l' => ?_ }
  · have hall := h.duty d hd
    cases d with
    | push c' =>
      intro l' hc
      rcases hmem l' c' hc with hc | ⟨rfl, -⟩
      · exact hall l' hc
      · exact Nat.ne_of_gt hd hpush
    | finish l' =>
      -- The listener is not being freed: it is open, so there is a socket that listens
      have hne : l' ≠ l := by
        rintro rfl
        obtain ⟨i, hi⟩ := h.listening l' hall.1 hopen
        exact hall.2.2 i hi
      exact ⟨hall.1, (update_of_ne hne ..).trans hall.2.1, hall.2.2⟩
    | _ => exact hall
  · rcases hmem l' c' hc with hc | ⟨rfl, -⟩
    · exact h.client l' c' hc
    · exact ⟨sock, hsock⟩
  · rcases hmem l' c' hc with hc | ⟨rfl, rfl⟩
    · exact h.inner l' c' hc
    · exact hinner
  · have hnodup := h.nodup l'
    by_cases heq : l' = l
    · subst heq
      simp only [update_self]
      refine nodup_append.2 ⟨hnodup, nodup_singleton c, fun c' hc => ?_⟩
      rintro _ hc' rfl
      exact hfresh l' (mem_singleton.1 hc' ▸ hc)
    · simp_all
  · have hpending := h.pending l'
    by_cases heq : l' = l <;> simp_all

/-- `local_listen_new` for a socket that does not listen. -/
theorem inv_bind (hnone : (s.sock sock).listen = none) (hl : (s.ref (.listen l)).used = false) {max : L → Nat} :
    Inv { s with
      sock := update s.sock sock { s.sock sock with listen := some l }
      ref := update s.ref (.listen l) { used := true, count := 1, freed := 0 }
      backlog := update s.backlog l []
      pendingAmount := update s.pendingAmount l 0
      maxBacklog := max
      isClosed := update s.isClosed l false
      registered := update s.registered l true } := by
  have hzero : refs s (.listen l) = 0 := (h.counts (.listen l)).symm.trans (h.unused (.listen l) hl)
  have hsub : ∀ l' c', c' ∈ update s.backlog l [] l' → c' ∈ s.backlog l' := by
    intro l' c' hc
    by_cases heq : l' = l <;> simp_all
  have hconn : ∀ i, (update s.sock sock { s.sock sock with listen := some l } i).conn = (s.sock i).conn :=
    update_map_eq Sock.conn rfl
  have hlisten : ∀ l', l' ≠ l → ∀ i, (update s.sock sock { s.sock sock with listen := some l } i).listen = some l' ↔
      (s.sock i).listen = some l' := by
    intro l' hne i
    by_cases hi : i = sock <;> simp [hi, hnone, hne.symm]
  have hof : ∀ l', l' ≠ l → Obj.listen (C := C) l' ≠ .listen l := fun l' hne heq => hne (Obj.listen.inj heq)
  refine ⟨fun o => ?_, fun c => ?_, fun o hu => ?_, fun c hu => h.unlinked c ?_, fun l' hreg => ?_, fun d hd => ?_, h.once,
    fun l' c hc => ?_, fun l' c hc => h.inner l' c (hsub l' c hc), fun l' => ?_, fun l' => ?_, fun l' hu hopen => ?_⟩
  · have hweigh := weigh_update (sockRefs o) s.sock sock { s.sock sock with listen := some l }
    have hcounts := h.counts o
    simp only [refs] at hcounts hzero ⊢
    by_cases ho : o = .listen l
    · subst ho
      simp [hnone] at hweigh ⊢
      omega
    · have hsame : sockRefs o { s.sock sock with listen := some l } = sockRefs o (s.sock sock) := by
        cases o with
        | conn c => rfl
        | listen l' =>
          have hne : l ≠ l' := fun heq => ho (congrArg Obj.listen heq.symm)
          simp [hnone, hne]
      dsimp only at hweigh hsame
      rw [update_of_ne ho]
      omega
  · simpa using h.frees c
  · by_cases ho : o = .listen l <;> simp_all [h.unused o]
  · simpa using hu
  · have := h.registered l'
    by_cases heq : l' = l <;> simp_all
  · have hall := h.duty d hd
    cases d with
    | push c => exact fun l' hin => hall l' (hsub l' c hin)
    | take i => exact (hconn i).trans hall
    | finish l' =>
      have hne : l' ≠ l := by
        rintro rfl
        exact Bool.false_ne_true (hl.symm.trans hall.1)
      exact ⟨(congrArg Ref.used (update_of_ne (hof l' hne) ..)).trans hall.1, (update_of_ne hne ..).trans hall.2.1,
        fun i hi => hall.2.2 i ((hlisten l' hne i).1 hi)⟩
    | retire l' =>
      have hne : l' ≠ l := by
        rintro rfl
        exact Bool.false_ne_true (hl.symm.trans hall.1)
      exact ⟨(congrArg Ref.used (update_of_ne (hof l' hne) ..)).trans hall.1, (update_of_ne hne ..).trans hall.2⟩
    | _ => exact hall
  · obtain ⟨i, hi⟩ := h.client l' c (hsub l' c hc)
    exact ⟨i, (hconn i).trans hi⟩
  · have := h.nodup l'
    by_cases heq : l' = l <;> simp_all
  · have := h.pending l'
    by_cases heq : l' = l <;> simp_all
  · by_cases heq : l' = l
    · exact ⟨sock, by simp [heq]⟩
    · simp only [update_of_ne heq, update_of_ne (hof l' heq)] at hu hopen
      obtain ⟨i, hi⟩ := h.listening l' hu hopen
      exact ⟨i, (hlisten l' heq i).2 hi⟩

/-- A listener may be closed at any time, and opened while a socket listens. -/
theorem Inv.setClosed {max : L → Nat} {closed : Bool}
    (hsock : closed = true ∨ ∃ sock, (s.sock sock).listen = some l) :
    Inv { s with maxBacklog := max, isClosed := update s.isClosed l closed } := by
  refine { h with duty := fun d hd => ?_, listening := fun l' hu hopen => ?_ }
  · have hall := h.duty d hd
    cases d <;> exact hall
  · have hold := h.listening l' hu
    by_cases heq : l' = l <;> simp_all

theorem Inv.unregister (l : L) : Inv { s with registered := update s.registered l false } := by
  refine { h with registered := fun l' hreg => h.registered l' ?_, duty := fun d hd => ?_ }
  · by_cases heq : l' = l <;> simp_all
  · have hall := h.duty d hd
    cases d with
    | retire l' => exact ⟨hall.1, by by_cases heq : l' = l <;> simp [heq, hall.2]⟩
    | _ => exact hall

end

variable [DecidableEq K]

/-! ## Who has references -/

/-- The tasks of a CPU change, and with them who has references. -/
theorem Inv.change {next : List (Task S C L)} (h : Inv s) (ref' : Obj C L → Ref) (sock' : S → Sock C L)
    (inner' : C → Option L) (hs : s' = { s with ref := ref', sock := sock', inner := inner' }.setTasks k next)
    (hcount : ∀ o, (ref' o).count + (weigh (sockRefs o) s.sock + load (Task.refs o) (s.tasks k) +
      weigh (innerRefs o) s.inner) = (s.ref o).count + (weigh (sockRefs o) sock' + load (Task.refs o) next +
      weigh (innerRefs o) inner'))
    (hused : ∀ o, (s.ref o).used = true → (ref' o).used = true)
    (hlisteners : ∀ l, (ref' (.listen l)).used = true → (s.ref (.listen l)).used = true)
    (hfreed : ∀ l, s.registered l = true → (ref' (.listen l)).freed = (s.ref (.listen l)).freed)
    (hunused : ∀ o, (ref' o).used = false → (ref' o).count = 0)
    (hunlinked : ∀ c, (ref' (.conn c)).used = false → inner' c = none)
    (hfrees : ∀ c, unreferenced ref' c + load (Task.frees c) (s.tasks k) + (s.ref (.conn c)).freed =
      unreferenced s.ref c + load (Task.frees c) next + (ref' (.conn c)).freed)
    (hduty : Dutiful s s' k next)
    (hallowed : ∀ d, 0 < due s d → 0 < due s' d → Allowed s d → Allowed s' d)
    (hclient : ∀ l, ∀ c ∈ s.backlog l, ∀ sock, (s.sock sock).conn = some c → (sock' sock).conn = some c)
    (hinner : ∀ l, ∀ c ∈ s.backlog l, inner' c = s.inner c)
    (hlisten : ∀ l sock, (s.sock sock).listen = some l → s.isClosed l = false → (sock' sock).listen = some l) :
    Inv s' := by
  subst hs
  have hw := fun w => weigh_update (load w) s.tasks k next
  refine ⟨fun o => ?_, fun c => ?_, hunused, hunlinked, fun l hl => ?_, fun d hpos => ?_,
    fun d hd => ?_, fun l c hc => ?_, fun l c hc => (hinner l c hc).trans (h.inner l c hc), h.nodup, h.pending,
    fun l hu hopen => ?_⟩
  · have hcounts := h.counts o
    have hstep := hcount o
    have hweigh := hw (Task.refs o)
    simp only [refs, System.setTasks] at hcounts ⊢
    omega
  · have hfree := h.frees c
    have hstep := hfrees c
    have hweigh := hw (Task.frees c)
    simp only [System.setTasks] at hfree ⊢
    omega
  · exact (h.registered l hl).imp (hused _) (hfreed l hl).trans
  · rcases hduty d with hle | ⟨hd, -⟩
    · have hweigh := hw (owes d)
      have hdue : 0 < due s d := by
        simp only [due, System.setTasks] at hpos ⊢
        omega
      exact hallowed d hdue hpos (h.duty d hdue)
    · exact hd
  · have hone := h.once d hd
    have hweigh := hw (owes d)
    simp only [Dutiful, due, System.setTasks] at hone hduty ⊢
    rcases hduty d with hle | ⟨-, hzero⟩
    · omega
    · have := hzero hd
      omega
  · obtain ⟨sock, hsock⟩ := h.client l c hc
    exact ⟨sock, hclient l c hc sock hsock⟩
  · obtain ⟨sock, hsock⟩ := h.listening l (hlisteners l hu) hopen
    exact ⟨sock, hlisten l sock hsock hopen⟩

theorem Inv.tasks {next : List (Task S C L)} (h : Inv s) (ref' : Obj C L → Ref)
    (hs : s' = { s with ref := ref' }.setTasks k next)
    (hcount : ∀ o, (ref' o).count + load (Task.refs o) (s.tasks k) = (s.ref o).count + load (Task.refs o) next)
    (hused : ∀ o, (ref' o).used = (s.ref o).used)
    (hfreed : ∀ l, s.registered l = true → (ref' (.listen l)).freed = (s.ref (.listen l)).freed)
    (hunused : ∀ o, (ref' o).used = false → (ref' o).count = 0)
    (hfrees : ∀ c, unreferenced ref' c + load (Task.frees c) (s.tasks k) + (s.ref (.conn c)).freed =
      unreferenced s.ref c + load (Task.frees c) next + (ref' (.conn c)).freed)
    (hduty : Dutiful s s k next) : Inv s' := by
  have hsame : ∀ d, Allowed s d → Allowed s' d := by
    subst hs
    intro d hd
    cases d with
    | finish l | retire l => exact ⟨(hused _).trans hd.1, hd.2⟩
    | _ => exact hd
  refine h.change ref' s.sock s.inner hs (fun o => ?_) (fun o hu => (hused o).trans hu)
    (fun l hu => (hused _).symm.trans hu) hfreed hunused (fun c hu => h.unlinked c ((hused _).symm.trans hu)) hfrees
    (fun d => (hduty d).imp_right fun hd => ⟨hsame d hd.1, hd.2⟩) (fun d _ _ => hsame d) (fun _ _ _ _ => id)
    (fun _ _ _ => rfl) fun _ _ hl _ => hl
  have hstep := hcount o
  omega

/-- The first task is replaced by others that hold the same references. -/
theorem Inv.next (h : Inv s) (new : List (Task S C L)) (hk : s.tasks k = task :: rest)
    (hrefs : ∀ o, load (Task.refs o) new = task.refs o) (hfrees : ∀ c, load (Task.frees c) new = task.frees c)
    (hduty : ∀ d, load (owes d) new ≤ task.owes d) : Inv (s.setTasks k (new ++ rest)) := by
  refine h.tasks s.ref rfl (fun o => ?_) (fun _ => rfl) (fun _ _ => rfl) h.unused (fun c => ?_) fun d => .inl ?_
  · simp [hk, hrefs]
  · simp [hk, hfrees]
  · simpa [hk] using hduty d

section
variable (h : Inv s)
include h

/-- A CPU gets a reference to an object that is used, and with it new tasks. -/
theorem Inv.inc {next : List (Task S C L)} (hused : (s.ref o).used = true)
    (hr : ∀ c', o = .conn c' → 0 < (s.ref o).count)
    (hrefs : ∀ o', load (Task.refs o') next = load (Task.refs o') (s.tasks k) + if o' = o then 1 else 0)
    (hfrees : ∀ c, load (Task.frees c) next = load (Task.frees c) (s.tasks k))
    (hduty : Dutiful s s k next) :
    Inv ((s.inc o).setTasks k next) := by
  refine h.tasks (s.inc o).ref rfl (fun o' => ?_) (inc_used o) (fun _ _ => inc_freed ..)
    (unused_inc h hused) (fun c => ?_) hduty
  · rw [inc_count, hrefs o']
    omega
  · rw [inc_freed, hfrees c, unreferenced_inc hr]

/-! ## Dropping references -/

theorem inv_unref (hk : s.tasks k = .unref o :: rest) :
    Inv ((s.dec o).setTasks k (if 1 < (s.ref o).count then rest else .free o :: rest)) := by
  have hr : 0 < refs s o := refs_of_task (hk ▸ mem_cons_self : .unref o ∈ s.tasks k) (if_pos rfl)
  have hpos : 0 < (s.ref o).count := h.counts o ▸ hr
  have hused := h.used_of_refs hr
  refine h.tasks (s.dec o).ref rfl (fun o' => ?_) (fun o' => ?_) (fun l _ => update_map_eq Ref.freed (by rfl) _)
    (fun o' hu => ?_) (fun c => ?_) fun d => ?_
  · by_cases ho : o' = o <;> split <;> simp [System.dec, hk, ho]
    all_goals omega
  · by_cases ho : o' = o <;> simp [System.dec, ho]
  · by_cases ho : o' = o
    · simp [System.dec, ho, hused] at hu
    · simp only [System.dec, update_of_ne ho] at hu ⊢
      exact h.unused o' hu
  · -- The last reference to a connection leaves the duty to free it
    by_cases ho : Obj.conn c = o
    · subst ho
      by_cases hmore : 1 < (s.ref (.conn c)).count
      · have hzero : (s.ref (.conn c)).count - 1 ≠ 0 := by omega
        simp [System.dec, hk, hused, hmore, hzero, Nat.ne_of_gt hpos]
      · have hone : (s.ref (.conn c)).count = 1 := by omega
        simp [System.dec, hk, hused, hone]
    · split <;> cases o <;> simp_all [System.dec]
  · by_cases hmore : 1 < (s.ref o).count
    · simp [hk, hmore]
    · simp only [hk, if_neg hmore, load_cons]
      cases o with
      | conn c =>
        left
        cases d <;> simp
      | listen l =>
        cases d with
        | finish l' =>
          by_cases hl : l' = l
          · subst hl
            exact .inr ⟨⟨hused, h.only_ref hk (Nat.le_of_not_lt hmore)⟩, nofun⟩
          · simp [hl]
        | _ => simp

/-- The last step of `local_conn_free` or `local_listen_free`. -/
theorem inv_release (hk : s.tasks k = .release o :: rest) :
    Inv ({ s with ref := update s.ref o { s.ref o with freed := (s.ref o).freed + 1 } }.setTasks k rest) := by
  refine h.tasks (update s.ref o { s.ref o with freed := (s.ref o).freed + 1 }) rfl (fun o' => ?_) (fun o' => ?_)
    (fun l hreg => ?_) (fun o' hu => ?_) (fun c => ?_) fun d => ?_
  · by_cases ho : o' = o <;> simp [hk, ho]
  · by_cases ho : o' = o <;> simp [ho]
  · -- The listener was removed from the map before
    have hne : Obj.listen l ≠ o := by
      rintro rfl
      have hgone := h.duty (.retire l) (due_of_task (hk ▸ mem_cons_self : .release (.listen l) ∈ s.tasks k) (if_pos rfl))
      exact Bool.false_ne_true (hgone.2.symm.trans hreg)
    rw [update_of_ne hne]
  · by_cases ho : o' = o <;> simp_all [h.unused]
  · by_cases ho : Obj.conn c = o
    · subst ho
      simp [hk]
      omega
    · cases o <;> simp_all
  · simp [hk]

/-! ## Sockets -/

/-- A socket gets the connection of the task, and the task drops what it holds. -/
theorem Inv.take (hk : s.tasks k = task :: rest)
    (htask : task = .connPush sock l c ∨ task = .acceptStore sock l c) :
    Inv (((s.inc (.conn c)).setConn sock (some c)).setTasks k (.unref (.conn c) :: .unref (.listen l) :: rest)) := by
  have hmem : task ∈ s.tasks k := hk ▸ mem_cons_self
  have htakes : task.owes (.take sock) = 1 := by rcases htask with rfl | rfl <;> exact if_pos rfl
  have hr : 0 < refs s (.conn c) := refs_of_task hmem (by rcases htask with rfl | rfl <;> simp)
  have hnone : (s.sock sock).conn = none := h.duty (.take sock) (due_of_task hmem htakes)
  have hpos : 0 < (s.ref (.conn c)).count := h.counts (.conn c) ▸ hr
  have hlisten : ∀ i, (update s.sock sock { s.sock sock with conn := some c } i).listen = (s.sock i).listen :=
    update_map_eq Sock.listen rfl
  refine h.change (s.inc (.conn c)).ref (update s.sock sock { s.sock sock with conn := some c }) s.inner rfl (fun o => ?_)
    (fun o hu => (inc_used _ o).trans hu) (fun l hu => (inc_used _ _).symm.trans hu) (fun _ _ => inc_freed ..)
    (unused_inc h (h.used_of_refs hr)) (fun c' hu => h.unlinked c' ((inc_used _ _).symm.trans hu)) (fun c' => ?_)
    (fun d => .inl ?_) (fun d _ hd hall => ?_) (fun l c' _ i hi => ?_) (fun _ _ _ => rfl)
    fun l i hi _ => (hlisten i).trans hi
  · have hweigh := weigh_update (sockRefs o) s.sock sock { s.sock sock with conn := some c }
    have hmore : sockRefs o { s.sock sock with conn := some c } = sockRefs o (s.sock sock) +
        if o = .conn c then 1 else 0 := by cases o <;> simp [hnone, eq_comm]
    dsimp only at hweigh hmore ⊢
    rw [inc_count]
    rcases htask with rfl | rfl <;> simp only [hk, load_cons, Task.refs] <;> omega
  · rw [inc_freed, unreferenced_inc fun _ _ => hpos]
    rcases htask with rfl | rfl <;> simp [hk]
  · cases d <;> simp [hk]
  · cases d with
    | take i =>
      have hne : i ≠ sock := by
        rintro rfl
        have hweigh := weigh_update (load (owes (.take i))) s.tasks k (.unref (.conn c) :: .unref (.listen l) :: rest)
        have hone := h.once (.take i) rfl
        have hrest : load (owes (.take i)) (.unref (.conn c) :: .unref (.listen l) :: rest) =
            load (owes (.take i)) rest := by simp
        rw [hrest, hk, load_cons, htakes] at hweigh
        change 0 < weigh (load (owes (.take i))) (update s.tasks k _) at hd
        rw [due] at hone
        omega
      exact (congrArg Sock.conn (update_of_ne hne ..)).trans hall
    | finish l' => exact ⟨(inc_used _ _).trans hall.1, hall.2.1, fun i hi => hall.2.2 i ((hlisten i).symm.trans hi)⟩
    | retire l' => exact ⟨(inc_used _ _).trans hall.1, hall.2⟩
    | _ => exact hall
  · have hne : i ≠ sock := by
      rintro rfl
      simp [hnone] at hi
    rw [update_of_ne hne]
    exact hi

/-- A socket gives references to its CPU, or stays as it is. -/
theorem Inv.leave {next : List (Task S C L)} (sock : S) (new : Sock C L)
    (hcount : ∀ o, sockRefs o (s.sock sock) + load (Task.refs o) (s.tasks k) = sockRefs o new + load (Task.refs o) next)
    (hfrees : ∀ c, load (Task.frees c) next = load (Task.frees c) (s.tasks k))
    (hduty : ∀ d, load (owes d) next ≤ load (owes d) (s.tasks k))
    (hconn : (s.sock sock).conn = none → new.conn = none)
    (hclient : ∀ l, ∀ c ∈ s.backlog l, (s.sock sock).conn = some c → new.conn = some c)
    (hlisten : ∀ l, (s.sock sock).listen = some l → s.isClosed l = false → new.listen = some l)
    (hold : ∀ l, new.listen = some l → (s.sock sock).listen = some l) :
    Inv ({ s with sock := update s.sock sock new }.setTasks k next) := by
  -- What holds of the socket that changes and of the others, holds of all
  have hall : ∀ {P : S → Sock C L → Prop}, P sock new → (∀ i, P i (s.sock i)) → ∀ i, P i (update s.sock sock new i) :=
    fun hnew hothers => (forall_update_iff s.sock _).2 ⟨hnew, fun i _ => hothers i⟩
  refine h.change s.ref (update s.sock sock new) s.inner rfl (fun o => ?_) (fun _ => id) (fun _ => id)
    (fun _ _ => rfl) h.unused h.unlinked (fun c => by rw [hfrees c]) (fun d => .inl (hduty d)) (fun d _ _ hd => ?_)
    (fun l c hc => ?_) (fun _ _ _ => rfl) fun l => ?_
  · have hstep := hcount o
    have hweigh := weigh_update (sockRefs o) s.sock sock new
    omega
  · cases d with
    | take i => exact hall (P := fun i q => (s.sock i).conn = none → q.conn = none) hconn (fun _ => id) i hd
    | finish l =>
      exact ⟨hd.1, hd.2.1, hall (P := fun _ q => q.listen ≠ some l) (fun hl => hd.2.2 sock (hold l hl)) hd.2.2⟩
    | _ => exact hd
  · exact hall (P := fun i q => (s.sock i).conn = some c → q.conn = some c) (hclient l c hc) fun _ => id
  · exact hall (P := fun i q => (s.sock i).listen = some l → s.isClosed l = false → q.listen = some l) (hlisten l)
      fun _ hi _ => hi

/-! ## Connections and listeners begin and end -/

/-- The reference to the listener goes to the CPU that frees the connection. -/
theorem inv_free_conn (hk : s.tasks k = .free (.conn c) :: rest) (hinner : s.inner c = some l) :
    Inv ({ s with inner := update s.inner c none }.setTasks k
      (.unref (.listen l) :: .release (.conn c) :: rest)) := by
  have hzero : refs s (.conn c) = 0 := by
    have hfree := le_weigh_load (w := Task.frees c) (hk ▸ mem_cons_self : .free (.conn c) ∈ s.tasks k)
    rw [Task.frees, if_pos rfl] at hfree
    by_contra hne
    have hnot := (h.not_freed (Nat.pos_of_ne_zero hne)).1
    omega
  refine h.change s.ref s.sock (update s.inner c none) rfl (fun o => ?_) (fun _ => id) (fun _ => id)
    (fun _ _ => rfl) h.unused (fun c' hu => ?_) (fun c' => ?_) (fun d => .inl ?_) (fun d hd _ hall => ?_)
    (fun _ _ _ _ => id) (fun l' c' hc => ?_) fun _ _ hl _ => hl
  · have hweigh := weigh_update (innerRefs o) s.inner c none
    rw [hinner] at hweigh
    cases o <;> simp [hk, innerRefs, eq_comm] at hweigh ⊢
    all_goals omega
  · have := h.unlinked c' hu
    by_cases hc : c' = c <;> simp_all
  · simp [hk]
  · cases d <;> simp [hk]
  · cases d with
    | link c' l' =>
      have hne : c' ≠ c := by
        rintro rfl
        exact Nat.ne_of_gt (refs_of_due (.inr ⟨l', rfl⟩) hd) hzero
      exact (update_of_ne hne ..).trans hall
    | _ => exact hall
  · obtain ⟨sock, hsock⟩ := h.client l' c' hc
    have hne : c' ≠ c := by
      rintro rfl
      exact Nat.ne_of_gt (refs_of_sock hsock) hzero
    exact update_of_ne hne ..

/-- `local_conn_new`: the connection refers to the listener, and the call to the connection. -/
theorem inv_alloc (hk : s.tasks k = .connNew sock l :: rest) (hc : (s.ref (.conn c)).used = false) :
    Inv ({ s.inc (.listen l) with
      ref := update (s.inc (.listen l)).ref (.conn c) { used := true, count := 1, freed := 0 }
      inner := update s.inner c (some l) }.setTasks k (.connPush sock l c :: rest)) := by
  have hzero : refs s (.conn c) = 0 := (h.counts (.conn c)).symm.trans (h.unused (.conn c) hc)
  have hnone : s.inner c = none := h.unlinked c hc
  have hlisten : (s.ref (.listen l)).used = true :=
    h.used_of_refs (refs_of_task (hk ▸ mem_cons_self : .connNew sock l ∈ s.tasks k) (if_pos rfl))
  have hpending : ∀ l', c ∉ s.backlog l' := by
    intro l' hin
    obtain ⟨i, hi⟩ := h.client l' c hin
    exact Nat.ne_of_gt (refs_of_sock hi) hzero
  have hinner : ∀ c' l', s.inner c' = some l' → update s.inner c (some l) c' = some l' := by
    intro c' l' hin
    by_cases heq : c' = c <;> simp_all
  refine h.change (update (s.inc (.listen l)).ref (.conn c) { used := true, count := 1, freed := 0 }) s.sock
    (update s.inner c (some l)) rfl (fun o => ?_) (fun o hu => ?_) (fun l' hu => ?_) (fun l' _ => ?_)
    (fun o hu => ?_) (fun c' hu => ?_) (fun c' => ?_) (fun d => ?_) (fun d _ _ hall => ?_)
    (fun _ _ _ _ => id) (fun l' c' hin => ?_) fun _ _ hl _ => hl
  · have hlinks := weigh_update (innerRefs o) s.inner c (some l)
    have hcounts := h.unused (.conn c) hc
    rw [hnone] at hlinks
    cases o with
    | conn c' =>
      by_cases heq : c' = c <;> simp [heq, hk, innerRefs, hcounts] at hlinks ⊢
      all_goals omega
    | listen l' =>
      simp [hk, innerRefs, eq_comm] at hlinks ⊢
      omega
  · by_cases ho : o = .conn c <;> simp [ho, hu]
  · simpa using hu
  · simp
  · by_cases ho : o = .conn c
    · simp [ho] at hu
    · rw [update_of_ne ho] at hu ⊢
      exact unused_inc h hlisten o hu
  · by_cases heq : c' = c
    · simp [heq] at hu
    · simpa [heq] using h.unlinked c' (by simpa [heq] using hu)
  · have hfrees := h.frees c'
    by_cases heq : c' = c
    · subst heq
      simp [hc] at hfrees
      simp [hk, hc, hfrees.2]
    · simp [heq, hk]
  · cases d with
    | push c' =>
      by_cases heq : c' = c
      · subst heq
        have hdue : due s (.push c') = 0 :=
          Nat.eq_zero_of_not_pos fun hpos => Nat.ne_of_gt (refs_of_due (.inl rfl) hpos) hzero
        have hle := le_weigh (load (owes (.push c'))) s.tasks k
        rw [due] at hdue
        simp [hdue, hk] at hle
        exact .inr ⟨hpending, fun _ => ⟨hdue, by simp [hle]⟩⟩
      · simp [hk, heq]
    | link c' l' =>
      by_cases heq : c' = c ∧ l' = l
      · obtain ⟨rfl, rfl⟩ := heq
        exact .inr ⟨update_self .., nofun⟩
      · simp [hk, heq]
    | _ => simp [hk]
  · cases d with
    | link c' l' => exact hinner c' l' hall
    | finish l' | retire l' =>
      refine ⟨?_, hall.2⟩
      simpa [System.setTasks] using hall.1
    | _ => exact hall
  · rw [hinner c' l' (h.inner l' c' hin), h.inner l' c' hin]

end

/-! ## Runs -/

section
variable (h : Inv s)
include h

/-- The locked section of `local_socket_connect`, and the references the call drops after it. -/
theorem inv_connPush (hk : s.tasks k = .connPush sock l c :: rest) :
    Inv ((connPush s sock l c).setTasks k (.unref (.conn c) :: .unref (.listen l) :: rest)) := by
  unfold connPush
  by_cases hfull : s.isClosed l = true ∨ s.maxBacklog l ≤ s.pendingAmount l
  · rw [if_pos hfull]
    exact h.next [.unref (.conn c), .unref (.listen l)] hk (fun _ => rfl) (fun _ => rfl) fun d => by cases d <;> simp
  · rw [if_neg hfull]
    have hmem : .connPush sock l c ∈ s.tasks k := hk ▸ mem_cons_self
    have hpush : 0 < due s (.push c) := due_of_task hmem (if_pos rfl)
    refine (h.take hk (.inl rfl)).push sock ?_ (h.duty (.push c) hpush)
      (h.duty (.link c l) (due_of_task hmem (if_pos ⟨rfl, rfl⟩)))
      ?_ (Bool.eq_false_iff.2 fun hclosed => hfull (.inl hclosed))
    · have hone := h.once (.push c) rfl
      have hweigh := weigh_update (load (owes (.push c))) s.tasks k (.unref (.conn c) :: .unref (.listen l) :: rest)
      simp [hk] at hweigh
      change weigh (load (owes (.push c))) (update s.tasks k _) = 0
      rw [due] at hone
      omega
    · exact congrArg Sock.conn (update_self sock { s.sock sock with conn := some c } s.sock)

/-- The locked section of `local_socket_accept`. -/
theorem inv_acceptPop {backlog : List C} {newSock : S} (hk : s.tasks k = .acceptPop l newSock :: rest)
    (hl : s.backlog l = c :: backlog) :
    Inv ({ s.inc (.conn c) with
      backlog := update s.backlog l backlog
      pendingAmount := update s.pendingAmount l (s.pendingAmount l - 1) }.setTasks k
        (.acceptStore newSock l c :: rest)) := by
  obtain ⟨sock, hsock⟩ := h.client l c (hl ▸ mem_cons_self)
  have hr := refs_of_sock hsock
  refine (h.pop hl).inc (o := .conn c) (k := k) (h.used_of_refs hr) (fun _ _ => h.counts (.conn c) ▸ hr) (fun o => ?_)
    (fun c' => ?_) fun d => .inl ?_
  · simp [hk]
    omega
  · simp [hk]
  · cases d <;> simp [hk]

theorem inv_start (hk : s.tasks k = []) (hidle : Idle s sock) (hnone : (s.sock sock).conn = none)
    (hused : (s.ref (.listen l)).used = true) (htask : task = .connNew sock l ∨ task = .acceptPop l sock) :
    Inv ((s.inc (.listen l)).setTasks k [task]) := by
  refine h.inc hused nofun (fun o => ?_) (fun c => ?_) fun d => ?_
  · rcases htask with rfl | rfl <;> simp [hk]
  · rcases htask with rfl | rfl <;> simp [hk]
  · cases d with
    | take i =>
      by_cases hi : i = sock
      · subst hi
        refine .inr ⟨hnone, fun _ => ⟨hidle.due, ?_⟩⟩
        rcases htask with rfl | rfl <;> simp
      · rcases htask with rfl | rfl <;> simp [hk, hi]
    | _ => rcases htask with rfl | rfl <;> simp [hk]

theorem inv_close (hk : s.tasks k = []) :
    Inv ({ s with sock := update s.sock sock { s.sock sock with closed := true } }.setTasks k
      [.closeListen sock, .closeConn sock]) := by
  refine h.leave sock _ (fun o => ?_) (fun c => ?_) (fun d => ?_) id (fun _ _ _ => id) (fun _ hi _ => hi) fun _ => id
  · cases o <;> simp [hk]
  · simp [hk]
  · cases d <;> simp [hk]

theorem inv_closeListen (hk : s.tasks k = .closeListen sock :: rest) (hsock : (s.sock sock).listen = some l) :
    Inv ({ s with
      isClosed := update s.isClosed l true
      sock := update s.sock sock { s.sock sock with listen := none } }.setTasks k (.unref (.listen l) :: rest)) := by
  have hclosed : Inv { s with maxBacklog := s.maxBacklog, isClosed := update s.isClosed l true } := h.setClosed (.inl rfl)
  refine hclosed.leave (k := k) sock { s.sock sock with listen := none } (fun o => ?_) (fun c => ?_) (fun d => ?_) id
    (fun _ _ _ => id) (fun l' hi hopen => ?_) nofun
  · cases o <;> simp [hk, hsock, eq_comm]
  · simp [hk]
  · cases d <;> simp [hk]
  · simp_all

/-- A socket whose connection is in no backlog gives it up. -/
theorem inv_closeConn (hk : s.tasks k = .closeConn sock :: rest) (hsock : (s.sock sock).conn = some c)
    (hpending : ∀ l, c ∉ s.backlog l) : Inv ((s.setConn sock none).setTasks k (.unref (.conn c) :: rest)) := by
  refine h.leave sock { s.sock sock with conn := none } (fun o => ?_) (fun c' => ?_) (fun d => ?_) (fun _ => rfl)
    (fun l c' hin hc => ?_) (fun _ hi _ => hi) fun _ => id
  · cases o <;> simp [hk, hsock, eq_comm]
  · simp [hk]
  · cases d <;> simp [hk]
  · rw [hsock] at hc
    exact absurd (Option.some.inj hc ▸ hin) (hpending l)

theorem inv_perform (hk : s.tasks k = task :: rest)
    (hpatient : ∀ sock c, task = .closeConn sock → (s.sock sock).conn = some c → ∀ l, c ∉ s.backlog l) :
    Inv (perform s k rest task) := by
  cases task with
  | connNew sock l =>
    exact h.next [.unref (.listen l)] hk (fun _ => rfl) (fun _ => rfl) fun d => by cases d <;> simp
  | connPush sock l c => exact inv_connPush h hk
  | acceptPop l newSock =>
    have hnone : Inv (s.setTasks k (.unref (.listen l) :: rest)) :=
      h.next [.unref (.listen l)] hk (fun _ => rfl) (fun _ => rfl) fun d => by cases d <;> simp
    rw [perform, acceptPop]
    by_cases hclosed : s.isClosed l = true
    · rw [if_pos hclosed]
      exact hnone
    · rw [if_neg hclosed]
      cases hl : s.backlog l with
      | nil => exact hnone
      | cons c backlog => exact inv_acceptPop h hk hl
  | acceptStore newSock l c => exact h.take hk (.inr rfl)
  | unref o => exact inv_unref h hk
  | free o =>
    cases o with
    | conn c =>
      rw [perform]
      cases hinner : s.inner c with
      | none =>
        exact h.next [.release (.conn c)] hk (fun _ => rfl) (fun _ => rfl) fun d => by cases d <;> simp
      | some l => exact inv_free_conn h hk hinner
    | listen l =>
      have hused := (h.duty (.finish l) (due_of_task (hk ▸ mem_cons_self : .free (.listen l) ∈ s.tasks k) (if_pos rfl))).1
      refine (h.unregister l).tasks s.ref rfl (fun o => ?_) (fun _ => rfl) (fun _ _ => rfl) h.unused
        (fun c => ?_) fun d => ?_
      · simp [hk]
      · simp [hk]
      · cases d with
        | retire l' =>
          by_cases heq : l' = l
          · subst heq
            exact .inr ⟨⟨hused, update_self ..⟩, nofun⟩
          · simp [hk, heq]
        | _ => simp [hk]
  | listenSweep l =>
    have hend := h.duty (.finish l) (due_of_task (hk ▸ mem_cons_self : .listenSweep l ∈ s.tasks k) (if_pos rfl))
    rw [perform, hend.2.1]
    exact h.next [.release (.listen l)] hk (fun _ => rfl) (fun _ => rfl) fun d => by cases d <;> simp
  | release o => exact inv_release h hk
  | closeListen sock =>
    rw [perform]
    cases hsock : (s.sock sock).listen with
    | none => exact h.next [] hk (fun _ => rfl) (fun _ => rfl) fun _ => Nat.zero_le _
    | some l => exact inv_closeListen h hk hsock
  | closeConn sock =>
    rw [perform]
    cases hsock : (s.sock sock).conn with
    | none => exact h.next [] hk (fun _ => rfl) (fun _ => rfl) fun _ => Nat.zero_le _
    | some c => exact inv_closeConn h hk hsock (hpatient sock c rfl hsock)

end

theorem inv_step (h : Inv s) (hpatient : Patient s a) (hs : step s a = some s') : Inv s' := by
  cases a <;> simp only [step, ite_none_right_eq_some, Option.some.injEq] at hs
  case bind sock l =>
    obtain ⟨⟨-, hnone, hl⟩, rfl⟩ := hs
    exact inv_bind h hnone hl
  case listen sock backlog =>
    cases hl : (s.sock sock).listen <;> simp only [hl, ite_none_right_eq_some, Option.some.injEq, reduceCtorEq] at hs
    case some l =>
      rw [← hs.2]
      exact h.setClosed (.inr ⟨sock, hl⟩)
  case connect k sock l =>
    obtain ⟨⟨hk, hidle, hnone, hreg⟩, rfl⟩ := hs
    exact inv_start h hk hidle hnone (h.registered l hreg).1 (.inl rfl)
  case accept k sock newSock =>
    cases hl : (s.sock sock).listen <;> simp only [hl, ite_none_right_eq_some, Option.some.injEq, reduceCtorEq] at hs
    case some l =>
      obtain ⟨⟨hk, hidle, hnone⟩, rfl⟩ := hs
      exact inv_start h hk hidle hnone (h.used_of_refs (refs_of_sockRefs (if_pos hl))) (.inr rfl)
  case close k sock =>
    obtain ⟨⟨hk, -⟩, rfl⟩ := hs
    exact inv_close h hk
  case go k =>
    cases hk : s.tasks k <;> simp only [hk, reduceCtorEq] at hs
    case cons task rest =>
      cases hs
      exact inv_perform h hk fun sock c htask hsock => hpatient sock c rest (hk.trans (htask ▸ rfl)) hsock
  case alloc k c =>
    cases hk : s.tasks k <;> simp only [hk, reduceCtorEq] at hs
    case cons task rest =>
      cases task <;> simp only [ite_none_right_eq_some, Option.some.injEq, reduceCtorEq] at hs
      case connNew sock l =>
        rw [← hs.2]
        exact inv_alloc h hk hs.1

/-! ## What holds of every run -/

/-- Nothing is in a backlog, and everything is counted. -/
theorem unpushed_step (h : Inv s ∧ ∀ l, s.backlog l = []) (hun : Unpushed s a)
    (hs : step s a = some s') : Inv s' ∧ ∀ l, s'.backlog l = [] := by
  have hpatient : Patient s a := by
    cases a with
    | go k =>
      intro sock c rest _ _ l hc
      rw [h.2] at hc
      cases hc
    | _ => trivial
  exact ⟨inv_step h.1 hpatient hs, empty_step h.2 hun hs⟩

section
variable [Fintype L]

/-- A push enters a connection for which the backlog has no reference. -/
theorem push_not_right (h : Inv s) (hpush : ¬ Unpushed s a) : ∃ s', step s a = some s' ∧ ¬ Right s' := by
  cases a with
  | go k =>
    simp only [Unpushed, not_forall] at hpush
    obtain ⟨sock, l, c, rest, hk, hroom⟩ := hpush
    refine ⟨_, by rw [step, hk], fun hright => ?_⟩
    have hinv : Inv (perform s k rest (.connPush sock l c)) := inv_perform h hk nofun
    have howned := hright.owned c
    rw [hinv.count_conn c] at howned
    have hle := le_weigh (fun backlog : List C => backlog.count c) (perform s k rest (.connPush sock l c)).backlog l
    have hin : c ∈ (perform s k rest (.connPush sock l c)).backlog l := by
      rw [perform, connPush, if_neg hroom]
      change c ∈ update s.backlog l (s.backlog l ++ [c]) l
      rw [update_self]
      exact mem_append_right _ mem_cons_self
    have hpos := count_pos_iff.2 hin
    omega
  | _ => exact absurd trivial hpush

end

instance [Fintype L] (s : System S C L K) (a : Action S C L K) : Decidable (Patient s a) :=
  match a with
  | .go k =>
    decidable_of_iff (∀ task ∈ (s.tasks k).head?, ∀ sock, task = .closeConn sock → ∀ c, (s.sock sock).conn = some c →
      ∀ l, c ∉ s.backlog l) ⟨fun h sock c rest hk hsock => h _ (by rw [hk]; rfl) sock rfl c hsock, by
        rintro h task htask sock rfl c hsock
        obtain ⟨rest, hk⟩ := head?_eq_some_iff.1 htask
        exact h sock c rest hk hsock⟩
  | .bind .. | .listen .. | .connect .. | .accept .. | .close .. | .alloc .. => .isTrue trivial

/-- A listener, and a client that connects to it. -/
def pendingClient : List (Action (Fin 3) (Fin 1) (Fin 1) (Fin 1)) :=
  [.bind 0 0, .listen 0 4, .connect 0 1 0, .alloc 0 0, .go 0, .go 0, .go 0]

/-- An object counts the sockets, calls and connections that refer to it, a registered listener
is in use and not freed, and one that is in use and open has a socket. -/
def Counted (s : System S C L K) : Prop :=
  (∀ o, (s.ref o).count = refs s o) ∧
    (∀ l, s.registered l = true → (s.ref (.listen l)).used = true ∧ (s.ref (.listen l)).freed = 0) ∧
    ∀ l, (s.ref (.listen l)).used = true → s.isClosed l = false → ∃ sock, (s.sock sock).listen = some l

end Patchwork.Local
