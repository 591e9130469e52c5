import LhsServer.Correctness.Process

/-!
# The calls of a thread

What a system call does when its descriptor stands for a connection, and which calls a thread makes
there.

- `Kernel.log_of_read`, `Kernel.log_of_write`, `Kernel.close_of_open`: one call;
- `Kernel.opendirs_eq_some_iff`, `Kernel.getElem?_withDirectories`: the directories of an index;
- `Client.Follows.calls_next`: what a step of a thread does to the descriptors, and the calls that
  it adds to those the thread has made.
-/

namespace Lhs.Server

open Bytes Http

variable {App : Type}

/-! ## System calls on a descriptor -/

/-- The number of the connection that a call reached. -/
def Event.number : Event → ℕ
  | .read number _ => number
  | .write number _ _ => number
  | .close number => number

namespace Kernel

variable {kernel kernel' : Kernel} {sockfd : ℤ} {number : ℕ}

/-- The calls that reached the connection with this number, in order. -/
def callsOn (kernel : Kernel) (number : ℕ) : List Event :=
  kernel.log.filter (·.number = number)

/-- What a descriptor stands for when one was added. -/
theorem getElem?_insert (files : Std.ExtTreeMap ℤ File) (fd fd' : ℤ) (file : File) :
    (files.insert fd file)[fd']? = if fd = fd' then some file else files[fd']? := by
  rw [Std.ExtTreeMap.getElem?_insert]
  simp only [Std.LawfulEqCmp.compare_eq_iff_eq]

/-- What a descriptor stands for when one was closed. -/
theorem getElem?_erase (files : Std.ExtTreeMap ℤ File) (fd fd' : ℤ) :
    (files.erase fd)[fd']? = if fd = fd' then none else files[fd']? := by
  rw [Std.ExtTreeMap.getElem?_erase]
  simp only [Std.LawfulEqCmp.compare_eq_iff_eq]

theorem accept_eq_some_iff :
    kernel.accept sockfd number = some kernel' ↔ kernel.files[sockfd]? = none ∧
      kernel' = { kernel with files := kernel.files.insert sockfd (.socket number) } := by
  rw [accept, Option.ite_none_right_eq_some, Option.some.injEq, eq_comm (a := kernel')]

/-- A `read` on a connection is logged there. -/
theorem log_of_read (hopen : kernel.files[sockfd]? = some (.socket number)) {result : ReadResult}
    (h : kernel.read sockfd result = some kernel') :
    kernel' = { kernel with log := kernel.log ++ [.read number result] } := by
  simp only [read, hopen] at h
  exact (Option.some.inj h).symm

/-- So is a `write`. -/
theorem log_of_write (hopen : kernel.files[sockfd]? = some (.socket number)) {data : Bytes}
    {result : ℤ} (h : kernel.write sockfd data result = some kernel') :
    kernel' = { kernel with log := kernel.log ++ [.write number data result] } := by
  simp only [write, hopen] at h
  split at h
  · exact (Option.some.inj h).symm
  · cases h

/-- `close` frees the descriptor. -/
theorem close_of_open (hopen : kernel.files[sockfd]? = some (.socket number)) :
    kernel.close sockfd =
      { files := kernel.files.erase sockfd, log := kernel.log ++ [.close number] } := by
  rw [close, hopen]

/-- The kernel with these descriptors open on directories. -/
def withDirectories (kernel : Kernel) (fds : List ℤ) : Kernel :=
  { kernel with files := fds.foldl (fun files fd => files.insert fd .directory) kernel.files }

/-- Directories are opened under descriptors that are not open. -/
theorem opendirs_eq_some_iff {fds : List ℤ} :
    fds.foldlM opendir kernel = some kernel' ↔ fds.Nodup ∧
      (∀ fd ∈ fds, kernel.files[fd]? = none) ∧ kernel' = kernel.withDirectories fds := by
  induction fds generalizing kernel with
  | nil => simp [withDirectories, eq_comm]
  | cons fd fds ih =>
    rw [List.foldlM_cons, Option.bind_eq_bind, Option.bind_eq_some_iff]
    simp only [opendir, Option.ite_none_right_eq_some, Option.some.injEq, ih, List.nodup_cons,
      List.forall_mem_cons]
    constructor
    · rintro ⟨_, ⟨hfd, rfl⟩, hnodup, hfds, rfl⟩
      have hne : ∀ fd' ∈ fds, fd ≠ fd' ∧ kernel.files[fd']? = none := by
        intro fd' hfd'
        have hfree := hfds fd' hfd'
        rw [getElem?_insert] at hfree
        split at hfree
        · cases hfree
        · next hne => exact ⟨hne, hfree⟩
      exact ⟨⟨fun hmem => (hne fd hmem).1 rfl, hnodup⟩, ⟨hfd, fun fd' h => (hne fd' h).2⟩, rfl⟩
    · rintro ⟨⟨hmem, hnodup⟩, ⟨hfd, hfds⟩, rfl⟩
      refine ⟨_, ⟨hfd, rfl⟩, hnodup, fun fd' hfd' => ?_, rfl⟩
      rw [getElem?_insert, if_neg, hfds fd' hfd']
      rintro rfl
      exact hmem hfd'

/-- What a descriptor stands for behind the opening of directories. -/
theorem getElem?_withDirectories (kernel : Kernel) (fds : List ℤ) (fd : ℤ) :
    (kernel.withDirectories fds).files[fd]? =
      if fd ∈ fds then some .directory else kernel.files[fd]? := by
  induction fds generalizing kernel with
  | nil => simp [withDirectories]
  | cons fd' fds ih =>
    refine (ih { kernel with files := kernel.files.insert fd' .directory }).trans ?_
    rw [getElem?_insert]
    by_cases hmem : fd ∈ fds
    · simp [hmem]
    · simp [hmem, eq_comm]

/-- Each directory takes one more descriptor. -/
theorem size_opendirs {fds : List ℤ} (h : fds.foldlM opendir kernel = some kernel') :
    kernel'.files.size = kernel.files.size + fds.length := by
  induction fds generalizing kernel with
  | nil => simp [← Option.some.inj h]
  | cons fd fds ih =>
    rw [List.foldlM_cons, Option.bind_eq_bind, Option.bind_eq_some_iff] at h
    obtain ⟨k, hk, hrest⟩ := h
    rw [opendir, Option.ite_none_right_eq_some] at hk
    obtain ⟨hfree, hk⟩ := hk
    obtain rfl := Option.some.inj hk
    have hcontains : kernel.files.contains fd = false := by
      rw [Std.ExtTreeMap.contains_eq_isSome_getElem?, hfree]
      rfl
    rw [ih hrest, Std.ExtTreeMap.size_insert]
    simp only [hcontains, List.length_cons, Bool.false_eq_true, if_false]
    omega

end Kernel

/-! ## The calls of a thread -/

/-- The calls a thread has made on the connection it was started for. -/
def Client.calls (t : Client App) : List Event :=
  t.reads.map (.read t.startedFor.number) ++
    (t.written.toList.map fun w => .write t.startedFor.number w.1 w.2) ++
      List.replicate t.closes (.close t.startedFor.number)

/-- What a step of a thread does to the kernel, while its descriptor stands for its own
connection. -/
theorem Client.Follows.calls_next {mgz : Mgz}
    {allowed : Memory → FileSystem → Option Middleware → Prop} {call : Memory → Option Middleware}
    {t t' : Client App} {kernel kernel' : Kernel} {action : Action} (ht : t.Follows mgz allowed)
    (hopen : t.phase ≠ .ended .exited →
      kernel.files[t.startedFor.sockfd]? = some (.socket t.startedFor.number))
    (h : t.next mgz call t.startedFor.sockfd kernel action = some (t', kernel')) :
    t.phase ≠ .ended .exited ∧
    (∃ events, kernel'.log = kernel.log ++ events ∧ t'.calls = t.calls ++ events ∧
      ∀ e ∈ events, e.number = t.startedFor.number) ∧
    (t'.phase ≠ .ended .exited ∧ (∃ fds, t'.opened = t.opened ++ fds ∧
        (∀ fd ∈ fds, kernel.files[fd]? = none) ∧
        kernel'.files = (kernel.withDirectories fds).files ∧
        kernel'.files.size = kernel.files.size + fds.length) ∨
      t'.phase = .ended .exited ∧ t'.opened = t.opened ∧
        kernel'.files = kernel.files.erase t.startedFor.sockfd) := by
  rcases next_cases h with ⟨buffer, result, -, hphase, hread, rfl⟩ |
    ⟨mem, fs, fds, buffer, -, hphase, -, hfds, rfl⟩ | ⟨data, result, -, hphase, hwrite, rfl⟩ |
    ⟨data, -, hphase, -, rfl, rfl⟩ | ⟨-, hphase, rfl, rfl⟩
  all_goals
    rw [hphase] at hopen
    simp only [Follows, hphase] at ht
    have hopen := hopen (by simp)
    refine ⟨by simp [hphase], ?_⟩
  -- read: nothing was written or closed before
  · obtain ⟨-, hwritten, hcloses⟩ := ht
    obtain rfl := Kernel.log_of_read hopen hread
    refine ⟨⟨[.read t.startedFor.number result], rfl, ?_, by simp [Event.number]⟩,
      .inl ⟨?_, [], by simp [Kernel.withDirectories]⟩⟩
    · simp [calls, hwritten, hcloses]
    · intro hended
      cases ending_of_afterRead hended
  -- answering opens directories
  · have hsize := Kernel.size_opendirs hfds
    obtain ⟨-, hfree, rfl⟩ := Kernel.opendirs_eq_some_iff.mp hfds
    refine ⟨⟨[], by simp [Kernel.withDirectories], by simp [calls], by simp⟩,
      .inl ⟨?_, fds, rfl, hfree, rfl, hsize⟩⟩
    rcases (answer mgz mem (call mem) buffer).value fs with f | data <;> simp [Phase.afterAnswer]
  · obtain ⟨-, hwritten, hcloses⟩ := ht
    obtain rfl := Kernel.log_of_write hopen hwrite
    refine ⟨⟨[.write t.startedFor.number data result], rfl, ?_, by simp [Event.number]⟩,
      .inl ⟨?_, [], by simp [Kernel.withDirectories]⟩⟩
    · simp [calls, hwritten, hcloses]
    · dsimp only
      split <;> simp
  -- a signal calls nothing
  · exact ⟨⟨[], by simp, by simp [calls], by simp⟩,
      .inl ⟨by simp, [], by simp [Kernel.withDirectories]⟩⟩
  · obtain ⟨-, hcloses⟩ := ht
    rw [Kernel.close_of_open hopen]
    refine ⟨⟨[.close t.startedFor.number], rfl, ?_, by simp [Event.number]⟩, .inr ⟨rfl, rfl, rfl⟩⟩
    simp [calls, hcloses]

end Lhs.Server
