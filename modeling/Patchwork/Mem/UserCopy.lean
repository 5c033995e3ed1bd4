import Patchwork.Mem.Terminator
import Patchwork.Fs.Pathname
import Patchwork.Lib.Fallible
/-!
# Strings from user memory (`kernel/sched/thread.c`)

The functions find the end of a string or an array with `space_pin_terminated` and copy it
in a second pass. Other threads of the process can write to the memory at any time. A pass
reads an address at most once, so what it sees is a function of the address, and the two
passes see two functions that have nothing to do with each other.

`thread_copy_from_user_string` puts the `NUL` into the buffer itself and
`thread_copy_from_user_pathname` looks for one in its own copy, so both are right whatever
happens. `thread_copy_from_user_terminated` relies on the terminator that the first pass
has seen, and with it `thread_copy_from_user_string_array`.
-/

namespace Patchwork.Space

open List Option Paging Lib
open Patchwork.Vfs (MAX_PATH pathname_t pathname_init)

/-- The bytes that a call sees when it looks for the terminator, and when it copies. -/
structure Reads where
  scan : Nat → Nat
  copy : Nat → Nat

/-- `memcpy` from the user: the bytes that are copied. -/
def memcpy (bytes : Nat → Nat) (src length : Nat) : List Nat := (List.range length).map fun i => bytes (src + i)

/-- A buffer of the kernel after its first bytes are overwritten. -/
def overwrite (buffer bytes : List Nat) : List Nat := bytes ++ buffer.drop bytes.length

section Calls
variable {σ τ : Type} (env : Env σ)

/-- The copy, and the number of its elements without the terminator. -/
def thread_copy_from_user_terminated (space : space_t σ τ) (userArray : Nat) (terminator : Nat → Nat)
    (objectSize maxCount : Nat) (userStack : Option stack_pointer_t) (reads : Reads) : Call σ τ (List Nat × Nat) :=
  if userArray = 0 ∨ objectSize = 0 ∨ maxCount = 0 then some (.error .EINVAL, space)
  else
    match space_pin_terminated env space userArray reads.scan terminator objectSize maxCount userStack with
    | none => none
    | some (.error err, space) => some (.error err, space)
    | some (.ok arraySize, space) =>
      match env.malloc space.mem arraySize with
      | (false, mem) => some (.error .ENOMEM, space_unpin env { space with mem := mem } userArray arraySize)
      | (true, mem) =>
        some (.ok (memcpy reads.copy userArray arraySize, arraySize / objectSize - 1),
          space_unpin env { space with mem := mem } userArray arraySize)

/-- The buffer `dest` after the call. -/
def thread_copy_from_user_string (space : space_t σ τ) (dest : List Nat) (userSrc size : Nat)
    (userStack : Option stack_pointer_t) (reads : Reads) : Call σ τ (List Nat) :=
  if userSrc = 0 ∨ size ≤ 1 then some (.error .EINVAL, space)
  else
    match space_pin_terminated env space userSrc reads.scan (fun _ => 0) 1 (size - 1) userStack with
    | none => none
    | some (.error err, space) => some (.error err, space)
    | some (.ok strLength, space) =>
      some (.ok (overwrite (dest.set (size - 1) 0) (memcpy reads.copy userSrc strLength)),
        space_unpin env space userSrc strLength)

/-- What goes wrong with a pathname: the copy, or `pathname_init`. -/
inductive PathFailure where
  | copy (err : errno_t)
  | init (err : Vfs.errno_t)

/-- `stack` is what is in the array `copy` before. -/
def thread_copy_from_user_pathname (space : space_t σ τ) (stack : List Nat) (userPath : Nat)
    (userStack : Option stack_pointer_t) (reads : Reads) : Option (Except PathFailure pathname_t × space_t σ τ) :=
  if userPath = 0 then some (.error (.copy .EINVAL), space)
  else
    match space_pin_terminated env space userPath reads.scan (fun _ => 0) 1 MAX_PATH userStack with
    | none => none
    | some (.error err, space) => some (.error (.copy err), space)
    | some (.ok pathLength, space) =>
      let copy := overwrite stack (memcpy reads.copy userPath pathLength)
      -- `strnlen_s` looks no further than the array
      let string := (copy.take MAX_PATH).takeWhile (· ≠ 0)
      some ((pathname_init (string.map Char.ofNat)).mapError .init, space_unpin env space userPath pathLength)

def CONFIG_MAX_ARGC : Nat := 512

/-- The pointer in eight bytes. -/
def pointerAt (bytes : List Nat) (i : Nat) : Nat :=
  ((List.range 8).map fun k => (bytes.getD (8 * i + k) 0) * 256 ^ k).sum

/-- The array of `thread_copy_from_user_string_array`: the copied strings, and the pointer
that follows them. -/
structure StringArray where
  strings : List (List Nat)
  last : Nat
  amount : Nat

/-- The strings from the `i`-th on. -/
def copy_strings (userStack : Option stack_pointer_t) (reads : Nat → Reads) :
    Nat → List Nat → space_t σ τ → Call σ τ (List (List Nat))
  | _, [], space => some (.ok [], space)
  | i, userString :: rest, space =>
    match thread_copy_from_user_terminated env space userString (fun _ => 0) 1 MAX_PATH userStack (reads i) with
    | none => none
    -- the strings so far and the array are freed
    | some (.error err, space) => some (.error err, space)
    | some (.ok (string, _), space) =>
      match copy_strings userStack reads (i + 1) rest space with
      | none => none
      | some (.error err, space) => some (.error err, space)
      | some (.ok strings, space) => some (.ok (string :: strings), space)

/-- `reads` is for the pointers and `strings i` for the `i`-th string. -/
def thread_copy_from_user_string_array (space : space_t σ τ) (user : Nat) (userStack : Option stack_pointer_t)
    (reads : Reads) (strings : Nat → Reads) : Call σ τ StringArray :=
  if user = 0 then some (.error .EINVAL, space)
  else
    match thread_copy_from_user_terminated env space user (fun _ => 0) 8 CONFIG_MAX_ARGC userStack reads with
    | none => none
    | some (.error err, space) => some (.error err, space)
    | some (.ok (copy, amount), space) =>
      match copy_strings env userStack strings 0 ((List.range amount).map (pointerAt copy)) space with
      | none => none
      | some (.error err, space) => some (.error err, space)
      | some (.ok strings, space) =>
        some (.ok { strings := strings, last := pointerAt copy amount, amount := amount }, space)

end Calls

/-! ## What the first pass finds -/

/-- The pages from `current` on, as the first pass goes through them if all can be pinned. -/
def scanned_loop (bytes terminator : Nat → Nat) (objectSize address stop : Nat) : Nat → Nat → Nat → Option Nat
  | 0, _, _ => none
  | fuel + 1, current, matched =>
    if current < stop then
      let scanEnd := min (ROUND_UP ((current + 1) % 2 ^ 64) PAGE_SIZE) stop
      match scanPage bytes terminator objectSize address scanEnd current matched with
      | none => none
      | some (.found result) => some result
      | some (.more current matched) => scanned_loop bytes terminator objectSize address stop fuel current matched
    else none

/-- The bytes up to the terminator that the first pass sees, the terminator included. -/
def scanned (bytes terminator : Nat → Nat) (objectSize address maxCount : Nat) : Option Nat :=
  scanned_loop bytes terminator objectSize address ((address + maxCount * objectSize) % 2 ^ 64) scanFuel address 0

variable {bytes terminator : Nat → Nat} {objectSize address : Nat}

section Calls
variable {σ τ : Type} {env : Env σ} {space space' : space_t σ τ} {userStack : Option stack_pointer_t}

theorem pin_terminated_loop_scanned {stop fuel current matched pinned result : Nat}
    (hs : space_pin_terminated_loop env bytes terminator objectSize address stop userStack fuel current matched pinned
      space = some (.ok result, space')) :
    scanned_loop bytes terminator objectSize address stop fuel current matched = some result := by
  induction fuel generalizing current matched pinned space with
  | zero => cases hs
  | succ fuel ih =>
    rw [space_pin_terminated_loop] at hs
    rw [scanned_loop]
    split at hs
    · next hlt =>
      rw [if_pos hlt]
      split at hs
      · cases hs
      · dsimp only at hs ⊢
        generalize scanPage bytes terminator objectSize address _ current matched = scan at hs ⊢
        cases scan with
        | none => cases hs
        | some scan =>
          cases scan with
          | found length => rw [Except.ok.inj (Prod.mk.inj (some.inj hs)).1]
          | more current matched => exact ih hs
    · cases hs

/-- What a first pass that succeeds has found. It is the first terminator if the range does
not reach into the last page of the address space. -/
theorem pin_terminated_found {maxCount result : Nat}
    (hs : space_pin_terminated env space address bytes terminator objectSize maxCount userStack =
      some (.ok result, space')) :
    scanned bytes terminator objectSize address maxCount = some result ∧
      (address + maxCount * objectSize + PAGE_SIZE ≤ 2 ^ 64 →
        FirstEnds bytes terminator objectSize address maxCount result) := by
  by_cases hargs : address = 0 ∨ objectSize = 0 ∨ maxCount = 0
  · rw [space_pin_terminated, if_pos hargs] at hs
    cases hs
  · refine ⟨?_, fun hstop => ?_⟩
    · rw [space_pin_terminated, if_neg hargs] at hs
      dsimp only at hs
      split at hs
      · cases hs
      · exact pin_terminated_loop_scanned hs
    · obtain ⟨r, space1, hcall, hended⟩ := pin_terminated_spec hstop (P := fun _ => True) (fun _ _ _ _ _ => trivial)
        bytes terminator (by omega) (by omega) (by omega) space trivial
      obtain ⟨rfl, -⟩ := Prod.mk.inj (some.inj (hcall.symm.trans hs))
      exact hended

/-! ## The results -/

/-- What holds of the result of a call that succeeds. -/
def Succeeds {ε α : Type} (call : Option (Except ε α × space_t σ τ)) (P : α → Prop) : Prop :=
  ∀ r space', call = some (.ok r, space') → P r

theorem length_memcpy (src length : Nat) : (memcpy bytes src length).length = length := by
  rw [memcpy, length_map, length_range]

theorem zero_mem_memcpy {src length : Nat} : 0 ∈ memcpy bytes src length ↔ ∃ i < length, bytes (src + i) = 0 := by
  simp only [memcpy, List.mem_map, mem_range]

theorem getD_memcpy {src length i : Nat} (hi : i < length) : (memcpy bytes src length).getD i 0 = bytes (src + i) := by
  rw [memcpy, getD_eq_getElem?_getD, getElem?_map, getElem?_range hi, map_some, getD_some]

variable {reads : Reads}

/-- The copy ends before the `NUL` at the end of the buffer. -/
theorem string_right {dest : List Nat} {userSrc size : Nat} (hdest : dest.length = size)
    (hrange : userSrc + size + PAGE_SIZE ≤ 2 ^ 64) :
    Succeeds (thread_copy_from_user_string env space dest userSrc size userStack reads)
      fun buffer => buffer.length = size ∧ 0 ∈ buffer := by
  intro buffer space' hs
  unfold thread_copy_from_user_string at hs
  split at hs
  · cases hs
  · rename_i hargs
    split at hs
    · cases hs
    · cases hs
    · rename_i strLength space1 hpin
      obtain ⟨rfl⟩ := Except.ok.inj (Prod.mk.inj (some.inj hs)).1
      obtain ⟨k, hk, hresult, -⟩ := (pin_terminated_found hpin).2 (by omega)
      have hle : strLength ≤ size - 1 := by omega
      have hlen : (memcpy reads.copy userSrc strLength).length = strLength := length_memcpy ..
      refine ⟨?_, ?_⟩
      · rw [overwrite, List.length_append, List.length_drop, List.length_set, hlen, hdest]
        omega
      · rw [overwrite, List.mem_append, hlen]
        refine .inr (mem_iff_getElem?.2 ⟨size - 1 - strLength, ?_⟩)
        rw [getElem?_drop, Nat.add_sub_cancel' hle, getElem?_set_self]
        omega

theorem pathname_scan_append {length : Nat} {string : List Char} {r : List Char × List Char}
    (h : Vfs.pathname_scan length string = .ok r) : r.1 ++ r.2 = string := by
  induction string generalizing length r with
  | nil => rw [← Except.ok.inj h, append_nil]
  | cons c cs ih =>
    rw [Vfs.pathname_scan] at h
    split at h
    · rw [← Except.ok.inj h, nil_append]
    · split at h
      · obtain ⟨q, hq, rfl⟩ := map_eq_ok.1 h
        rw [cons_append, ih hq]
      · split at h
        · cases h
        · split at h
          · cases h
          · obtain ⟨q, hq, rfl⟩ := map_eq_ok.1 h
            rw [cons_append, ih hq]

/-- `pathname_init` takes only strings that end in the buffer. -/
theorem pathname_length {string : List Char} {pathname : pathname_t} (h : pathname_init string = .ok pathname) :
    pathname.string.length < MAX_PATH := by
  rw [pathname_init] at h
  by_cases hlong : MAX_PATH ≤ string.length
  · rw [if_pos hlong] at h
    cases h
  · rw [if_neg hlong] at h
    obtain ⟨r, hscan, h⟩ := bind_eq_ok.1 h
    obtain ⟨mode, -, h⟩ := bind_eq_ok.1 h
    rw [← Except.ok.inj h]
    have hlen := congrArg List.length (pathname_scan_append hscan)
    rw [length_append] at hlen
    change r.1.length < MAX_PATH
    omega

theorem pathname_right {stack : List Nat} {userPath : Nat} :
    Succeeds (thread_copy_from_user_pathname env space stack userPath userStack reads)
      fun pathname => pathname.string.length < MAX_PATH := by
  intro pathname space' hs
  unfold thread_copy_from_user_pathname at hs
  split at hs
  · cases hs
  · split at hs
    · cases hs
    · cases hs
    · obtain ⟨hinit, -⟩ := Prod.mk.inj (some.inj hs)
      cases hpath : pathname_init ((((overwrite stack (memcpy reads.copy userPath _)).take MAX_PATH).takeWhile
          (· ≠ 0)).map Char.ofNat) with
      | error err =>
        rw [hpath] at hinit
        cases hinit
      | ok path =>
        rw [hpath] at hinit
        rw [← Except.ok.inj hinit]
        exact pathname_length hpath

/-- A copy of the bytes up to the terminator that the first pass has found. -/
theorem terminated_spec {userArray maxCount : Nat} {copy : List Nat} {count : Nat}
    (hs : thread_copy_from_user_terminated env space userArray terminator objectSize maxCount userStack reads =
      some (.ok (copy, count), space')) :
    ∃ size, copy = memcpy reads.copy userArray size ∧ count = size / objectSize - 1 ∧
      scanned reads.scan terminator objectSize userArray maxCount = some size ∧
      (userArray + maxCount * objectSize + PAGE_SIZE ≤ 2 ^ 64 →
        FirstEnds reads.scan terminator objectSize userArray maxCount size) := by
  unfold thread_copy_from_user_terminated at hs
  split at hs
  · cases hs
  · split at hs
    · cases hs
    · cases hs
    · rename_i arraySize space1 hpin
      split at hs
      · cases hs
      · obtain ⟨hcopy, hcount⟩ := Prod.mk.inj (Except.ok.inj (Prod.mk.inj (some.inj hs)).1)
        exact ⟨arraySize, hcopy.symm, hcount.symm, pin_terminated_found hpin⟩

/-- The string is a copy of what the pointer points to, as long as the first pass has said. -/
def CopyOf (reads : Reads) (userString : Nat) (string : List Nat) : Prop :=
  ∃ size, string = memcpy reads.copy userString size ∧ scanned reads.scan (fun _ => 0) 1 userString MAX_PATH = some size ∧
    (userString + MAX_PATH * 1 + PAGE_SIZE ≤ 2 ^ 64 → FirstEnds reads.scan (fun _ => 0) 1 userString MAX_PATH size)

theorem copy_strings_spec {reads : Nat → Reads} {i : Nat} {pointers : List Nat} {strings : List (List Nat)}
    (hs : copy_strings env userStack reads i pointers space = some (.ok strings, space')) :
    Forall₂ (fun x string => CopyOf (reads x.2) x.1 string) (pointers.zipIdx i) strings := by
  induction pointers generalizing i space space' strings with
  | nil =>
    obtain ⟨rfl⟩ := Except.ok.inj (Prod.mk.inj (some.inj hs)).1
    exact .nil
  | cons userString rest ih =>
    rw [copy_strings] at hs
    split at hs
    · cases hs
    · cases hs
    · rename_i hcopy
      split at hs
      · cases hs
      · cases hs
      · rename_i hrest
        obtain ⟨rfl⟩ := Except.ok.inj (Prod.mk.inj (some.inj hs)).1
        obtain ⟨size, hstring, -, hfound⟩ := terminated_spec hcopy
        exact .cons ⟨size, hstring, hfound⟩ (ih hrest)

/-- The second pass still sees a `NUL` where the first one has found the string to be. -/
def StringEnds (reads : Reads) (userString : Nat) : Prop :=
  ∀ size ∈ scanned reads.scan (fun _ => 0) 1 userString MAX_PATH, ∃ j < size, reads.copy (userString + j) = 0

theorem CopyOf.ends_iff {userString : Nat} {string : List Nat} (h : CopyOf reads userString string) :
    StringEnds reads userString ↔ 0 ∈ string := by
  obtain ⟨size, rfl, hscan, -⟩ := h
  rw [StringEnds, hscan, zero_mem_memcpy]
  exact ⟨fun hall => hall size rfl, fun hread _ hsize => some.inj hsize ▸ hread⟩

/-- The user's memory does not change between the two passes. -/
def Reads.Unchanged (reads : Reads) : Prop := reads.copy = reads.scan

/-- Then a string ends with the `NUL` that the first pass has found. -/
theorem CopyOf.ends {userString : Nat} {string : List Nat} (h : CopyOf reads userString string)
    (hsame : reads.Unchanged) (hrange : userString + MAX_PATH * 1 + PAGE_SIZE ≤ 2 ^ 64) : 0 ∈ string := by
  obtain ⟨size, rfl, -, hfirst⟩ := h
  obtain ⟨k, -, rfl, hterm, -⟩ := hfirst hrange
  rw [zero_mem_memcpy, hsame]
  exact ⟨k * 1, by omega, hterm 0 Nat.one_pos⟩

theorem forall_mem_iff {α β : Type} {R : α → β → Prop} {P : α → Prop} {Q : β → Prop} {l : List α} {l' : List β}
    (h : Forall₂ R l l') (hiff : ∀ a ∈ l, ∀ b, R a b → (P a ↔ Q b)) : (∀ a ∈ l, P a) ↔ ∀ b ∈ l', Q b := by
  induction h with
  | nil => simp
  | cons hab _ ih =>
    rw [forall_mem_cons, forall_mem_cons, hiff _ mem_cons_self _ hab, ih fun a ha => hiff a (mem_cons_of_mem _ ha)]

/-! ## Arrays of strings -/

/-- Every string has a `NUL`, and the array ends with `NULL` after the reported amount. -/
def ArrayRight (r : StringArray) : Prop :=
  r.strings.length = r.amount ∧ r.last = 0 ∧ ∀ string ∈ r.strings, 0 ∈ string

instance (r : StringArray) : Decidable (ArrayRight r) := inferInstanceAs (Decidable (_ ∧ _ ∧ _))

/-- Pointer `k` of the copy, of `size` bytes. -/
def pointerRead (reads : Reads) (user size k : Nat) : Nat := pointerAt (memcpy reads.copy user size) k

/-- Where the first pass has seen the end of the array and of each string, the second one
still sees the `NULL` and in each string a `NUL`. -/
def StillEnds (reads : Reads) (strings : Nat → Reads) (user : Nat) : Prop :=
  ∀ size ∈ scanned reads.scan (fun _ => 0) 8 user CONFIG_MAX_ARGC,
    pointerRead reads user size (size / 8 - 1) = 0 ∧
      ∀ k < size / 8 - 1, StringEnds (strings k) (pointerRead reads user size k)

theorem forall_pointers {n : Nat} {f : Nat → Nat} {P : Nat × Nat → Prop} :
    (∀ x ∈ ((List.range n).map f).zipIdx, P x) ↔ ∀ k < n, P (f k, k) := by
  constructor
  · intro h k hk
    refine h _ (mem_zipIdx_iff_getElem?.2 ?_)
    rw [getElem?_map, getElem?_range hk, map_some]
  · rintro h ⟨p, k⟩ hx
    rw [mem_zipIdx_iff_getElem?, getElem?_map, map_eq_some_iff] at hx
    obtain ⟨k', hk', rfl⟩ := hx
    obtain ⟨hlt, hget⟩ := List.getElem?_eq_some_iff.1 hk'
    rw [List.getElem_range] at hget
    rw [← hget]
    rw [length_range] at hlt
    exact h k hlt

variable {user : Nat} {strings : Nat → Reads}

theorem array_spec {r : StringArray}
    (hs : thread_copy_from_user_string_array env space user userStack reads strings = some (.ok r, space')) :
    ∃ size, scanned reads.scan (fun _ => 0) 8 user CONFIG_MAX_ARGC = some size ∧
      (user + CONFIG_MAX_ARGC * 8 + PAGE_SIZE ≤ 2 ^ 64 →
        FirstEnds reads.scan (fun _ => 0) 8 user CONFIG_MAX_ARGC size) ∧
      r.amount = size / 8 - 1 ∧ r.last = pointerRead reads user size r.amount ∧
      Forall₂ (fun x string => CopyOf (strings x.2) x.1 string)
        ((List.range r.amount).map (pointerRead reads user size)).zipIdx r.strings := by
  unfold thread_copy_from_user_string_array at hs
  split at hs
  · cases hs
  · split at hs
    · cases hs
    · cases hs
    · rename_i copy amount space1 hcopy
      split at hs
      · cases hs
      · cases hs
      · rename_i hstrings
        obtain ⟨rfl⟩ := Except.ok.inj (Prod.mk.inj (some.inj hs)).1
        obtain ⟨size, rfl, hamount, hscan, hfirst⟩ := terminated_spec hcopy
        exact ⟨size, hscan, hfirst, hamount, rfl, copy_strings_spec hstrings⟩

theorem pointers_below {n bound : Nat} {f : Nat → Nat} (h : ∀ k < n, f k < bound) {x : Nat × Nat}
    (hx : x ∈ ((List.range n).map f).zipIdx) : x.1 < bound :=
  (forall_pointers (P := fun x => x.1 < bound)).2 h x hx

theorem array_length {r : StringArray} {f : Nat → Nat} {R : Nat × Nat → List Nat → Prop}
    (h : Forall₂ R ((List.range r.amount).map f).zipIdx r.strings) : r.strings.length = r.amount := by
  rw [← h.length_eq, length_zipIdx, length_map, length_range]

theorem array_right_iff :
    Succeeds (thread_copy_from_user_string_array env space user userStack reads strings)
      fun r => ArrayRight r ↔ StillEnds reads strings user := by
  intro r space' hs
  obtain ⟨size, hscan, -, hamount, hlast, hcopied⟩ := array_spec hs
  have hends := (forall_mem_iff hcopied fun x _ string hx => hx.ends_iff).symm
  rw [forall_pointers] at hends
  rw [ArrayRight, hlast, hends, and_iff_right (array_length hcopied), StillEnds, hscan, hamount]
  exact ⟨fun hright _ hsize => some.inj hsize ▸ hright, fun hall => hall size rfl⟩

theorem array_right_of_unchanged (hrange : user + CONFIG_MAX_ARGC * 8 + PAGE_SIZE ≤ 2 ^ 64) (hsame : reads.Unchanged)
    (hsames : ∀ k, (strings k).Unchanged) :
    Succeeds (thread_copy_from_user_string_array env space user userStack reads strings) fun r =>
      (∀ k < r.amount, pointerRead reads user (8 * (r.amount + 1)) k < VMM_USER_SPACE_MAX) → ArrayRight r := by
  intro r space' hs huser
  obtain ⟨size, -, hfirst, hamount, hlast, hcopied⟩ := array_spec hs
  obtain ⟨n, -, hsize, hterm, -⟩ := hfirst hrange
  have hn : n = r.amount := by omega
  subst hn
  refine ⟨array_length hcopied, ?_, ?_⟩
  · have hzero : ∀ k ∈ List.range 8, (memcpy reads.copy user size).getD (8 * r.amount + k) 0 * 256 ^ k = 0 := by
      intro k hk
      have hlt : k < 8 := mem_range.1 hk
      have hbyte := hterm k hlt
      rw [Nat.mul_comm, Nat.add_assoc] at hbyte
      rw [getD_memcpy (by omega), hsame, hbyte, Nat.zero_mul]
    rw [hlast, pointerRead, pointerAt, map_congr_left hzero]
    rfl
  · rw [Nat.mul_comm] at hsize
    refine (forall_mem_iff (P := fun _ => True) hcopied fun x hx string hcopy => ?_).1 fun _ _ => trivial
    refine (iff_true_left trivial).2 (hcopy.ends (hsames _) ?_)
    rw [← hsize] at huser
    have hlt := pointers_below huser hx
    have hmax : VMM_USER_SPACE_MAX = 2 ^ 47 - 4096 := rfl
    have hp : PAGE_SIZE = 4096 := rfl
    have hpath : MAX_PATH = 256 := rfl
    omega

end Calls

/-- Strings and pathnames end in their buffers whatever other threads write. An array of
strings is right exactly if the terminators are still there when they are copied, and so
if nothing is written between the two passes and the pointers are user addresses. -/
theorem user_strings_right {σ τ : Type} (env : Env σ) (space : space_t σ τ) (userStack : Option stack_pointer_t)
    (reads : Reads) (strings : Nat → Reads) (user : Nat) (huser : user < VMM_USER_SPACE_MAX) :
    (∀ dest : List Nat, dest.length ≤ 2 ^ 63 →
      Succeeds (thread_copy_from_user_string env space dest user dest.length userStack reads)
        fun buffer => buffer.length = dest.length ∧ 0 ∈ buffer) ∧
    (∀ stack, Succeeds (thread_copy_from_user_pathname env space stack user userStack reads)
        fun pathname => pathname.string.length < MAX_PATH) ∧
    Succeeds (thread_copy_from_user_string_array env space user userStack reads strings) (fun r =>
      (ArrayRight r ↔ StillEnds reads strings user) ∧
      (reads.Unchanged → (∀ k, (strings k).Unchanged) →
        (∀ k < r.amount, pointerRead reads user (8 * (r.amount + 1)) k < VMM_USER_SPACE_MAX) → ArrayRight r)) := by
  have hmax : VMM_USER_SPACE_MAX = 2 ^ 47 - 4096 := rfl
  have hp : PAGE_SIZE = 4096 := rfl
  have hargc : CONFIG_MAX_ARGC = 512 := rfl
  have hrange : user + CONFIG_MAX_ARGC * 8 + PAGE_SIZE ≤ 2 ^ 64 := by omega
  refine ⟨fun dest hdest => string_right rfl (by omega), fun stack => pathname_right, fun r space' hs => ⟨?_, ?_⟩⟩
  · exact array_right_iff r space' hs
  · exact fun hsame hsames => array_right_of_unchanged hrange hsame hsames r space' hs

/-- An array with one pointer, to a string that loses its `NUL` before the copy. -/
def oneString (addr : Nat) : Nat := if addr = 0x400002 then 0x41 else 0

def shrinking : Nat → Reads := fun _ => { scan := fun _ => 0, copy := fun _ => 0x61 }

def copyOne : Call Nat Nat StringArray :=
  thread_copy_from_user_string_array bump emptySpace 0x400000 (some { top := 0x500000, bottom := 0x300000 })
    { scan := oneString, copy := oneString } shrinking

theorem copyOne_spec : (Succeeds copyOne fun r =>
      (ArrayRight r ↔ StillEnds { scan := oneString, copy := oneString } shrinking 0x400000)) ∧
    (copyOne.map fun r => r.1.toOption.map StringArray.amount) = some (some 1) :=
  ⟨fun r space' hs => ((user_strings_right bump emptySpace _ _ _ 0x400000 (by decide)).2.2 r space' hs).1, by decide +kernel⟩

theorem copyOne_not_right : ¬ Succeeds copyOne ArrayRight := by
  have hrun : ∃ r ∈ copyOne, ∃ a ∈ r.1.toOption, ¬ ArrayRight a := by decide +kernel
  intro h
  obtain ⟨⟨_, space'⟩, hcall, a, ha, hwrong⟩ := hrun
  obtain rfl := toOption_eq_some.1 ha
  exact hwrong (h a space' hcall)

end Patchwork.Space
