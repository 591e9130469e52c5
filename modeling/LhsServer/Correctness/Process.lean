import LhsServer.Correctness.Isolation
import LhsServer.Server.Process

/-!
# Threads in the process

What the client threads do while they run side by side. A thread keeps everything but its descriptor
to itself, so that each of them, however its steps are interleaved with those of the others, does
what `clientThread` does with the results of its own reads.

- `Process.next_cases`, `Client.next_cases`: everything a step can do;
- `Client.Follows`, `Process.Follows.next`: what a thread has done so far agrees with
  `clientThread`;
- `stops_iff`: the steps of the threads that end the process, and those of the accept loop that do
  not.
-/

namespace Lhs.Server

open Bytes Http Request

variable {App : Type}

/-! ## One step -/

/-- The kernel returns nothing below `-1`. -/
theorem Kernel.le_of_write {kernel kernel' : Kernel} {sockfd : ℤ} {data : Bytes} {result : ℤ}
    (h : kernel.write sockfd data result = some kernel') : -1 ≤ result := by
  simp only [write] at h
  split at h
  · split at h
    · next hresult => exact hresult.1
    · cases h
  · split at h
    · next hresult => omega
    · cases h

section Step

variable {mgz : Mgz} {call : Memory → Option Middleware} {sockfd : ℤ} {t t' : Client App}
  {kernel kernel' : Kernel} {action : Action}

/-- Everything a step of a thread can do. -/
theorem Client.next_cases (h : t.next mgz call sockfd kernel action = some (t', kernel')) :
    (∃ buffer result, action = .read result ∧ t.phase = .reading buffer ∧
      kernel.read sockfd result = some kernel' ∧
      t' = { t with phase := .afterRead buffer result, reads := t.reads ++ [result] }) ∨
    (∃ mem fs fds buffer, action = .answer mem fs fds ∧ t.phase = .serving buffer ∧
      fds.length = ((answer mgz mem (call mem) buffer).trace fs).countP (opensDirectory fs) ∧
      fds.foldlM Kernel.opendir kernel = some kernel' ∧
      t' = { t with
        phase := .afterAnswer ((answer mgz mem (call mem) buffer).value fs)
        opened := t.opened ++ fds }) ∨
    (∃ data result, action = .write result ∧ t.phase = .writing data ∧
      kernel.write sockfd data result = some kernel' ∧
      t' = { t with
        phase := if -1 > result then .ended (.fault (.throw .serverError)) else .closing
        written := some (data, result) }) ∨
    (∃ data, action = .sigpipe ∧ t.phase = .writing data ∧ kernel.pipes sockfd = true ∧
      kernel' = kernel ∧ t' = { t with phase := .killed data }) ∨
    (action = .close ∧ t.phase = .closing ∧ kernel' = kernel.close sockfd ∧
      t' = { t with phase := .ended .exited, closes := t.closes + 1 }) := by
  cases action with
  | read result =>
    left
    simp only [next] at h
    split at h
    · rename_i buffer hphase
      obtain ⟨k, hk, heq⟩ := Option.map_eq_some_iff.mp h
      obtain ⟨rfl, rfl⟩ := Prod.mk.inj heq
      exact ⟨buffer, result, rfl, hphase, hk, rfl⟩
    · cases h
  | answer mem fs fds =>
    right; left
    simp only [next] at h
    split at h
    · rename_i buffer hphase
      split at h
      · rename_i hcount
        obtain ⟨k, hk, heq⟩ := Option.map_eq_some_iff.mp h
        obtain ⟨rfl, rfl⟩ := Prod.mk.inj heq
        exact ⟨mem, fs, fds, buffer, rfl, hphase, hcount, hk, rfl⟩
      · cases h
    · cases h
  | write result =>
    right; right; left
    simp only [next] at h
    split at h
    · rename_i data hphase
      obtain ⟨k, hk, heq⟩ := Option.map_eq_some_iff.mp h
      obtain ⟨rfl, rfl⟩ := Prod.mk.inj heq
      exact ⟨data, result, rfl, hphase, hk, rfl⟩
    · cases h
  | sigpipe =>
    right; right; right; left
    simp only [next] at h
    split at h
    · rename_i data hphase
      split at h
      · rename_i hpipes
        obtain ⟨rfl, rfl⟩ := Prod.mk.inj (Option.some.inj h)
        exact ⟨data, rfl, hphase, hpipes, rfl, rfl⟩
      · cases h
    · cases h
  | close =>
    right; right; right; right
    simp only [next] at h
    split at h
    · rename_i hphase
      obtain ⟨rfl, rfl⟩ := Prod.mk.inj (Option.some.inj h)
      exact ⟨rfl, hphase, rfl, rfl⟩
    · cases h

/-- A step of a thread leaves what it has copied, and the connection it was started for. -/
theorem Client.toThread_next (h : t.next mgz call sockfd kernel action = some (t', kernel')) :
    t'.toThread = t.toThread := by
  rcases next_cases h with ⟨_, _, -, -, -, rfl⟩ | ⟨_, _, _, _, -, -, -, -, rfl⟩ |
    ⟨_, _, -, -, -, rfl⟩ | ⟨_, -, -, -, -, rfl⟩ | ⟨-, -, -, rfl⟩ <;> rfl

end Step

namespace Process

variable {mgz : Mgz} {called : Memory → App → Option Middleware} {app : App} {p p' : Process App}
  {l : ProcessLabel App}

/-- A first step is one of a thread that has not made it. -/
theorem begin_eq_some_iff {i : ℕ} {data : Option (ServerData App)} :
    p.begin i data = some p' ↔ ∃ t, p.clients[i]? = some t ∧ t.copied = none ∧
      p' = { p with clients := p.clients.set i { t with copied := data } } := by
  rw [begin]
  split
  · next t ht =>
    simp only [ht, Option.some.injEq, exists_eq_left']
    split
    · next hcopied => simp [hcopied, eq_comm]
    · next d hcopied => simp [hcopied]
  · next hnone => simp [hnone]

/-- Everything a step of the process can do. -/
theorem next_cases (h : p.next mgz called app l = some p') :
    p.running = true ∧
    ((∃ sockfd client, l = .accept sockfd client ∧ p.inRun = true ∧ p.main = .accept ∧
      0 > sockfd ∧ p' = { p with inRun := false }) ∨
    (∃ sockfd client kernel, l = .accept sockfd client ∧ p.inRun = true ∧ p.main = .accept ∧
      ¬0 > sockfd ∧ p.kernel.accept sockfd p.accepted.length = some kernel ∧
      p' = { p with
        main := .write { number := p.accepted.length, sockfd, client }
        accepted := p.accepted ++ [{ number := p.accepted.length, sockfd, client }]
        kernel }) ∨
    (∃ c, l = .write ∧ p.inRun = true ∧ p.main = .write c ∧
      p' = { p with main := .create c, data := some { connection := c, app } }) ∨
    (∃ c, l = .create ∧ p.inRun = true ∧ p.main = .create c ∧
      p' = { p with main := .accept, clients := p.clients ++ [.start c] }) ∨
    (∃ i t, l = .first i ∧ p.inRun = true ∧ p.clients[i]? = some t ∧ t.copied = none ∧
      p' = { p with clients := p.clients.set i { t with copied := p.data } }) ∨
    (∃ i t d, l = .stray i d ∧ p.inRun = false ∧ p.clients[i]? = some t ∧ t.copied = none ∧
      p' = { p with clients := p.clients.set i { t with copied := some d } }) ∨
    (∃ i action t d t' kernel, l = .thread i action ∧ p.clients[i]? = some t ∧
      t.copied = some d ∧
      t.next mgz (called · d.app) d.connection.sockfd p.kernel action = some (t', kernel) ∧
      p' = { p with clients := p.clients.set i t', kernel, running := !t'.stopped })) := by
  cases l with
  | accept sockfd client =>
    simp only [next] at h
    split at h
    · rename_i hrun hmain
      obtain ⟨hrunning, hinRun⟩ := Bool.and_eq_true_iff.mp hrun
      refine ⟨hrunning, ?_⟩
      split at h
      · rename_i hfailed
        exact .inl ⟨sockfd, client, rfl, hinRun, hmain, hfailed, (Option.some.inj h).symm⟩
      · rename_i hsockfd
        right; left
        obtain ⟨kernel, hkernel, rfl⟩ := Option.map_eq_some_iff.mp h
        exact ⟨sockfd, client, kernel, rfl, hinRun, hmain, hsockfd, hkernel, rfl⟩
    · cases h
  | write =>
    simp only [next] at h
    split at h
    · rename_i c hrun hmain
      obtain ⟨hrunning, hinRun⟩ := Bool.and_eq_true_iff.mp hrun
      refine ⟨hrunning, ?_⟩
      right; right; left
      exact ⟨c, rfl, hinRun, hmain, (Option.some.inj h).symm⟩
    · cases h
  | create =>
    simp only [next] at h
    split at h
    · rename_i c hrun hmain
      obtain ⟨hrunning, hinRun⟩ := Bool.and_eq_true_iff.mp hrun
      refine ⟨hrunning, ?_⟩
      right; right; right; left
      exact ⟨c, rfl, hinRun, hmain, (Option.some.inj h).symm⟩
    · cases h
  | first i =>
    simp only [next] at h
    split at h
    · rename_i hrun
      obtain ⟨hrunning, hinRun⟩ := Bool.and_eq_true_iff.mp hrun
      obtain ⟨t, ht, hcopied, rfl⟩ := begin_eq_some_iff.mp h
      refine ⟨hrunning, ?_⟩
      right; right; right; right; left
      exact ⟨i, t, rfl, hinRun, ht, hcopied, rfl⟩
    · cases h
  | stray i d =>
    simp only [next] at h
    split at h
    · rename_i hrun
      obtain ⟨hrunning, hinRun⟩ := Bool.and_eq_true_iff.mp hrun
      obtain ⟨t, ht, hcopied, rfl⟩ := begin_eq_some_iff.mp h
      refine ⟨hrunning, ?_⟩
      right; right; right; right; right; left
      exact ⟨i, t, d, rfl, by simpa using hinRun, ht, hcopied, rfl⟩
    · cases h
  | thread i action =>
    simp only [next] at h
    split at h
    · rename_i t hrunning ht
      split at h
      · rename_i d hcopied
        refine ⟨hrunning, ?_⟩
        right; right; right; right; right; right
        obtain ⟨⟨t', kernel⟩, hnext, rfl⟩ := Option.map_eq_some_iff.mp h
        exact ⟨i, action, t, d, t', kernel, rfl, ht, hcopied, hnext, rfl⟩
      · cases h
    · cases h

end Process

/-! ## A thread on its own -/

section Loop

variable {reads : List ReadResult} {buffer : Bytes}

/-- Behind these reads the read loop has the bytes `buffer`, and goes on. -/
def Loops (reads : List ReadResult) (buffer : Bytes) : Prop :=
  ∀ rest, readLoop (reads ++ rest) [] = readLoop rest buffer

/-- One more read. -/
theorem Loops.readLoop_append (h : Loops reads buffer) (result : ReadResult) :
    readLoop (reads ++ [result]) [] = readLoop [result] buffer := h [result]

/-- What the loop has come to behind one more read. -/
theorem Loops.afterRead (h : Loops reads buffer) (result : ReadResult) :
    match Phase.afterRead buffer result with
    | .reading data => Loops (reads ++ [result]) data
    | .serving data => readLoop (reads ++ [result]) [] = .done data
    | .ended ending => readLoop (reads ++ [result]) [] = .reset ∧ ending = .returned
    | _ => False := by
  have hread := h.readLoop_append result
  cases result with
  | failed => exact ⟨hread, rfl⟩
  | received bytes hlength =>
    simp only [Phase.afterRead]
    by_cases hempty : bytes.length = 0
    · simpa [readLoop, hempty] using hread
    · by_cases hshort : bytes.length < bufferSize
      · simpa [readLoop, hempty, hshort] using hread
      · simp only [hempty, hshort, if_false]
        intro rest
        rw [List.append_assoc, h, List.singleton_append, readLoop]
        simp [hempty, hshort]

end Loop

/-- Behind the read loop the thread does in two steps what `serve` does. -/
theorem value_serve (mgz : Mgz) (mem : Memory) (app : Option Middleware) (fs : FileSystem)
    (socketWrite : Bytes → ℤ) (buffer : Bytes) :
    (serve mgz mem app socketWrite buffer).value fs =
      (answer mgz mem app buffer).value fs >>= fun data => .ok (data, socketWrite data) := by
  simp only [serve, answer, Response.write, Traced.value_bind, Traced.value_lift, bind_assoc]
  rfl

section Follows

variable {mgz : Mgz} {allowed : Memory → FileSystem → Option Middleware → Prop} {t t' : Client App}

/-- The thread has read a message and has computed these bytes as its answer, with memory, a file
system and a call that are `allowed`. -/
def Client.Answered (mgz : Mgz) (allowed : Memory → FileSystem → Option Middleware → Prop)
    (t : Client App) (data : Bytes) : Prop :=
  ∃ buffer mem fs call, allowed mem fs call ∧ readLoop t.reads [] = .done buffer ∧
    (answer mgz mem call buffer).value fs = .ok data

/-- The thread has this outcome of `clientThread`: it was reset and never answered, or it has
answered with memory, a file system and a call that are `allowed`. -/
def Client.HasOutcome (mgz : Mgz) (allowed : Memory → FileSystem → Option Middleware → Prop)
    (t : Client App) (ending : Ending) : Prop :=
  (ending = .returned ∧ ∀ mem fs call socketWrite,
    clientThread mgz mem call fs t.reads socketWrite =
      { ending, closes := t.closes, written := t.written }) ∨
  ∃ mem fs call socketWrite, allowed mem fs call ∧
    clientThread mgz mem call fs t.reads socketWrite =
      { ending, closes := t.closes, written := t.written }

/-- What a thread has done so far agrees with `clientThread`, for its own reads, and for memory, a
file system and a call that are `allowed`. -/
def Client.Follows (mgz : Mgz) (allowed : Memory → FileSystem → Option Middleware → Prop)
    (t : Client App) : Prop :=
  match t.phase with
  | .reading buffer => Loops t.reads buffer ∧ t.written = none ∧ t.closes = 0
  | .serving buffer => readLoop t.reads [] = .done buffer ∧ t.written = none ∧ t.closes = 0
  | .writing data => t.Answered mgz allowed data ∧ t.written = none ∧ t.closes = 0
  | .closing => (∃ data result, t.Answered mgz allowed data ∧ ¬-1 > result ∧
      t.written = some (data, result)) ∧ t.closes = 0
  | .ended ending => t.HasOutcome mgz allowed ending
  | .killed data => t.Answered mgz allowed data ∧ t.written = none ∧ t.closes = 0

theorem Client.Answered.mono {allowed' : Memory → FileSystem → Option Middleware → Prop}
    {data : Bytes} (h : t.Answered mgz allowed data)
    (hallowed : ∀ mem fs call, allowed mem fs call → allowed' mem fs call) :
    t.Answered mgz allowed' data := by
  obtain ⟨buffer, mem, fs, call, hcall, hrest⟩ := h
  exact ⟨buffer, mem, fs, call, hallowed mem fs call hcall, hrest⟩

/-- What agrees under one condition agrees under a weaker one. -/
theorem Client.Follows.mono {allowed' : Memory → FileSystem → Option Middleware → Prop}
    (h : t.Follows mgz allowed)
    (hallowed : ∀ mem fs call, allowed mem fs call → allowed' mem fs call) :
    t.Follows mgz allowed' := by
  cases hphase : t.phase <;> simp only [Follows, hphase] at h ⊢
  case writing data => exact ⟨h.1.mono hallowed, h.2⟩
  case killed data => exact ⟨h.1.mono hallowed, h.2⟩
  case closing =>
    obtain ⟨⟨data, result, hanswered, hrest⟩, hcloses⟩ := h
    exact ⟨⟨data, result, hanswered.mono hallowed, hrest⟩, hcloses⟩
  case ended ending =>
    rcases h with hreset | ⟨mem, fs, call, socketWrite, hcall, houtcome⟩
    · exact .inl hreset
    · exact .inr ⟨mem, fs, call, socketWrite, hallowed mem fs call hcall, houtcome⟩
  all_goals exact h

/-- A new thread has done nothing. -/
theorem Client.follows_start (mgz : Mgz)
    (allowed : Memory → FileSystem → Option Middleware → Prop) (c : Connection) :
    (Client.start c : Client App).Follows mgz allowed := ⟨fun _ => rfl, rfl, rfl⟩

variable {call : Memory → Option Middleware} {sockfd : ℤ} {kernel kernel' : Kernel}
  {action : Action}

/-- A step of a thread goes on as `clientThread` does. -/
theorem Client.Follows.next (ht : t.Follows mgz allowed)
    (h : t.next mgz call sockfd kernel action = some (t', kernel'))
    (hallowed : ∀ mem fs fds, action = .answer mem fs fds → allowed mem fs (call mem)) :
    t'.Follows mgz allowed := by
  rcases next_cases h with ⟨buffer, result, -, hphase, -, rfl⟩ |
    ⟨mem, fs, fds, buffer, rfl, hphase, -, -, rfl⟩ | ⟨data, result, -, hphase, hwrite, rfl⟩ |
    ⟨data, -, hphase, -, -, rfl⟩ | ⟨-, hphase, -, rfl⟩
  all_goals simp only [Follows, hphase] at ht
  -- read
  · obtain ⟨hloops, hwritten, hcloses⟩ := ht
    have hafter := hloops.afterRead result
    simp only [Follows]
    cases hnext : Phase.afterRead buffer result with
    | reading data =>
      rw [hnext] at hafter
      exact ⟨hafter, hwritten, hcloses⟩
    | serving data =>
      rw [hnext] at hafter
      exact ⟨hafter, hwritten, hcloses⟩
    | ended ending =>
      rw [hnext] at hafter
      obtain ⟨hreset, rfl⟩ := hafter
      refine .inl ⟨rfl, fun _ _ _ _ => ?_⟩
      simp only [clientThread, hreset, hwritten, hcloses, Outcome.early]
    | writing data =>
      rw [hnext] at hafter
      exact hafter.elim
    | closing =>
      rw [hnext] at hafter
      exact hafter.elim
    | killed data =>
      rw [hnext] at hafter
      exact hafter.elim
  -- the answer is ready to be written, or there was an exception on the way
  · obtain ⟨hdone, hwritten, hcloses⟩ := ht
    have hcall := hallowed mem fs fds rfl
    rcases hanswer : (answer mgz mem (call mem) buffer).value fs with f | data
    · refine .inr ⟨mem, fs, call mem, fun _ => 0, hcall, ?_⟩
      have hserve := value_serve mgz mem (call mem) fs (fun _ => 0) buffer
      rw [hanswer] at hserve
      simp only [clientThread, hdone, hserve, Traced.error_bind, hwritten, hcloses, Outcome.early]
    · exact ⟨⟨buffer, mem, fs, call mem, hcall, hdone, hanswer⟩, hwritten, hcloses⟩
  -- write: the kernel returns nothing below -1
  · obtain ⟨hanswered, hwritten, hcloses⟩ := ht
    have hresult : ¬-1 > result := Int.not_lt.mpr (Kernel.le_of_write hwrite)
    simp only [if_neg hresult, Follows]
    exact ⟨⟨data, result, hanswered, hresult, rfl⟩, hcloses⟩
  -- sigpipe
  · exact ht
  -- close
  · obtain ⟨⟨data, result, ⟨buffer, mem, fs, call, hcall, hdone, hdata⟩, hresult, hwritten⟩,
      hcloses⟩ := ht
    have hserve := value_serve mgz mem call fs (fun _ => result) buffer
    rw [hdata] at hserve
    refine .inr ⟨mem, fs, call, fun _ => result, hcall, ?_⟩
    simp only [clientThread, hdone, hserve, Traced.ok_bind, if_neg hresult, hcloses, hwritten]

/-- The outcome of a thread that has ended. -/
theorem Client.Follows.outcome (ht : t.Follows mgz allowed) {ending : Ending}
    (hphase : t.phase = .ended ending) : t.HasOutcome mgz allowed ending := by
  rwa [Follows, hphase] at ht

end Follows

/-! ## The threads of a run -/

section Run

variable {mgz : Mgz} {called : Memory → App → Option Middleware} {app : App} {p p' : Process App}
  {l : ProcessLabel App} {allowed : ℕ → Memory → FileSystem → Option Middleware → Prop}

/-- Every thread does what `clientThread` does, under its own condition. -/
def Process.Follows (mgz : Mgz) (allowed : ℕ → Memory → FileSystem → Option Middleware → Prop)
    (p : Process App) : Prop :=
  ∀ i (t : Client App), p.clients[i]? = some t → t.Follows mgz (allowed i)

/-- The condition on a step: an answer is computed with memory, a file system and a call that are
`allowed` for the thread. -/
def Process.AnswersWith (called : Memory → App → Option Middleware)
    (allowed : ℕ → Memory → FileSystem → Option Middleware → Prop) (p : Process App)
    (l : ProcessLabel App) : Prop :=
  ∀ i mem fs fds t d, l = .thread i (.answer mem fs fds) → p.clients[i]? = some t →
    t.copied = some d → allowed i mem fs (called mem d.app)

theorem Process.follows_start (mgz : Mgz)
    (allowed : ℕ → Memory → FileSystem → Option Middleware → Prop) (socket_ : ℤ) :
    (Process.start socket_ : Process App).Follows mgz allowed := by
  simp [Follows, start]

/-- A thread in the place of another one that does what `clientThread` does. -/
theorem Process.Follows.set (hp : p.Follows mgz allowed) {i : ℕ} {t t' : Client App}
    (ht : p.clients[i]? = some t) (ht' : t'.Follows mgz (allowed i)) (j : ℕ) (u : Client App)
    (hu : (p.clients.set i t')[j]? = some u) : u.Follows mgz (allowed j) := by
  by_cases hij : i = j
  · subst hij
    rw [List.getElem?_set_self (List.getElem?_eq_some_iff.mp ht).1, Option.some.injEq] at hu
    exact hu ▸ ht'
  · rw [List.getElem?_set_ne hij] at hu
    exact hp j u hu

/-- Every step of the process leaves the threads doing what `clientThread` does. -/
theorem Process.Follows.next (hp : p.Follows mgz allowed) (h : p.next mgz called app l = some p')
    (hallowed : p.AnswersWith called allowed l) : p'.Follows mgz allowed := by
  obtain ⟨-, ⟨_, _, -, -, -, -, rfl⟩ | ⟨_, _, _, -, -, -, -, -, rfl⟩ | ⟨c, -, -, -, rfl⟩ |
    ⟨c, -, -, -, rfl⟩ | ⟨i, t, -, -, ht, -, rfl⟩ | ⟨i, t, d, -, -, ht, -, rfl⟩ |
    ⟨i, action, t, d, t', kernel, rfl, ht, hcopied, hnext, rfl⟩⟩ := Process.next_cases h
  -- accept
  · exact hp
  · exact hp
  -- write
  · exact hp
  -- create
  · intro i t ht
    have ht : (p.clients ++ [Client.start c])[i]? = some t := ht
    rw [List.getElem?_append] at ht
    split at ht
    · exact hp i t ht
    · rw [List.getElem?_singleton, Option.ite_none_right_eq_some] at ht
      rw [← Option.some.inj ht.2]
      exact Client.follows_start mgz (allowed i) c
  -- the first step of a thread
  · exact hp.set ht (hp i t ht)
  · exact hp.set ht (hp i t ht)
  -- a later step
  · refine hp.set ht ((hp i t ht).next hnext fun mem fs fds haction => ?_)
    exact hallowed i mem fs fds t d (by rw [haction]) ht hcopied

end Run

/-! ## The end of the process -/

/-- A read ends the thread only by failing. -/
theorem ending_of_afterRead {buffer : Bytes} {result : ReadResult} {ending : Ending}
    (h : Phase.afterRead buffer result = .ended ending) : ending = .returned := by
  cases result with
  | failed => exact (Phase.ended.inj h).symm
  | received bytes hlength =>
    simp only [Phase.afterRead] at h
    split at h
    · cases h
    · split at h <;> cases h

/-- No read ends the process. -/
theorem afterRead_ne_killed {buffer data : Bytes} {result : ReadResult} :
    Phase.afterRead buffer result ≠ .killed data := by
  intro h
  cases result with
  | failed => cases h
  | received bytes hlength =>
    simp only [Phase.afterRead] at h
    split at h
    · cases h
    · split at h <;> cases h

theorem Client.stopped_iff (t : Client App) :
    t.stopped = true ↔ (∃ f, t.phase = .ended (.fault f)) ∨ ∃ data, t.phase = .killed data := by
  rw [stopped]
  split
  · next f hphase => exact iff_of_true rfl (.inl ⟨f, hphase⟩)
  · next data hphase => exact iff_of_true rfl (.inr ⟨data, hphase⟩)
  · next hended hkilled =>
    refine iff_of_false (by simp) ?_
    rintro (⟨f, hphase⟩ | ⟨data, hphase⟩)
    · exact hended f hphase
    · exact hkilled data hphase

end Lhs.Server
