import LhsServer.Correctness.Calls
import LhsServer.Correctness.HandOff

/-!
# Connections in the process

What happens on the connections while the threads run side by side, as long as the record of the
accept loop is written only when every started thread has read it, and is not read any more when
`run` was left (`Process.RecordRead`).

- `simulates_run`, `handsOver_of_process`: the process, without what the threads do after their
  first steps, is the system of `Server.run`, so that each thread has its own connection;
- `calls_of_guarded`: the calls that reach a connection are those that `clientThread` makes for the
  reads of that connection, in order, and no others;
- `descriptors_of_guarded`: the descriptors that are open, and what they stand for.
-/

namespace Lhs.Server

open Bytes Http

variable {App : Type}

/-! ## The accept loop inside of the process -/

/-- The condition on a step: the record is written only when every started thread has read it, and
no thread reads it when `run` was left. -/
def Process.RecordRead (p : Process App) : ProcessLabel App → Prop
  | .write => ∀ t ∈ p.clients, t.copied ≠ none
  | .stray _ _ => False
  | _ => True

instance Process.decidableRecordRead (p : Process App) :
    ∀ l : ProcessLabel App, Decidable (p.RecordRead l)
  | .write => inferInstanceAs (Decidable (∀ t ∈ p.clients, ¬t.copied = none))
  | .stray _ _ => inferInstanceAs (Decidable False)
  | .accept _ _ => inferInstanceAs (Decidable True)
  | .create => inferInstanceAs (Decidable True)
  | .first _ => inferInstanceAs (Decidable True)
  | .thread _ _ => inferInstanceAs (Decidable True)

section Simulation

variable {mgz : Mgz} {called : Memory → App → Option Middleware} {app : App} {socket_ : ℤ}
  {p p' : Process App} {l : ProcessLabel App}

/-- A step of the process is a step of the accept loop and the first steps, or changes nothing that
these look at. -/
theorem Process.toState_next (h : p.next mgz called app l = some p') (hguard : p.RecordRead l) :
    p'.toState = p.toState ∨
      ∃ l', p.toState.next app l' = some p'.toState ∧ p.toState.RecordRead l' := by
  obtain ⟨-, ⟨_, _, rfl, -, -, -, rfl⟩ | ⟨sockfd, client, kernel, rfl, -, hmain, -, -, rfl⟩ |
    ⟨c, rfl, -, hmain, rfl⟩ | ⟨c, rfl, -, hmain, rfl⟩ | ⟨i, t, rfl, -, ht, hcopied, rfl⟩ |
    ⟨_, _, _, rfl, -⟩ | ⟨i, action, t, d, t', kernel, rfl, ht, hcopied, hnext, rfl⟩⟩ :=
    next_cases h
  · exact .inl rfl
  · refine .inr ⟨.accept sockfd client, ?_, fun hwrite => by cases hwrite⟩
    simp [State.next, toState, hmain]
  · refine .inr ⟨.write, ?_, fun _ thread hthread => ?_⟩
    · simp [State.next, toState, hmain]
    · obtain ⟨t, ht, rfl⟩ := List.mem_map.mp hthread
      exact hguard t ht
  · refine .inr ⟨.create, ?_, fun hwrite => by cases hwrite⟩
    simp [State.next, toState, hmain, Client.start]
  · refine .inr ⟨.first i, ?_, fun hwrite => by cases hwrite⟩
    have hthread : (p.clients.map Client.toThread)[i]? =
        some { startedFor := t.startedFor, copied := none } := by
      rw [List.getElem?_map, ht, Option.map_some, ← hcopied]
    simp [State.next, toState, hthread, List.map_set]
  -- nobody reads the record behind `run`
  · exact hguard.elim
  · left
    obtain ⟨hi, rfl⟩ := List.getElem?_eq_some_iff.mp ht
    have hlt : i < (p.clients.map Client.toThread).length := by simpa using hi
    have hsame : t'.toThread = (p.clients.map Client.toThread)[i] := by
      rw [Client.toThread_next hnext, List.getElem_map]
    have hset : (p.clients.set i t').map Client.toThread = p.clients.map Client.toThread := by
      rw [List.map_set, hsame, List.set_getElem_self]
    simp [toState, hset]

/-- The process refines the system in which the threads do nothing after their first steps. -/
theorem simulates_run (mgz : Mgz) (called : Memory → App → Option Middleware) (app : App)
    (socket_ : ℤ) :
    TransitionSystem.Simulation ((process mgz called app socket_).guard Process.RecordRead)
      ((run app).guard State.RecordRead) fun p s => s = p.toState where
  init := by
    rintro p rfl
    exact ⟨.start, rfl, rfl⟩
  step := by
    rintro p l p' s rfl ⟨hstep, hguard⟩
    rcases Process.toState_next hstep hguard with hsame | ⟨l', hstep', hguard'⟩
    · exact .inl hsame.symm
    · exact .inr ⟨l', p'.toState, ⟨hstep', hguard'⟩, rfl⟩

/-- A step of the process keeps the connections on their way to their threads. -/
theorem handOffInv_next (hp : State.HandOffInv app p.toState)
    (h : p.next mgz called app l = some p') (hguard : p.RecordRead l) :
    State.HandOffInv app p'.toState := by
  rcases Process.toState_next h hguard with hsame | ⟨l', hstep, hguard'⟩
  · rwa [hsame]
  · exact State.handOffInv_step hp hstep hguard'

/-- In every such run each connection is on its way to its own thread. -/
theorem handOffInv_of_reachable
    (hp : ((process mgz called app socket_).guard Process.RecordRead).Reachable p) :
    State.HandOffInv app p.toState := by
  obtain ⟨s, rfl, hs⟩ :=
    (simulates_run mgz called app socket_).invariant (State.handOffInv_invariant app) hp
  exact hs

/-- Whatever the threads do after their first steps, each of them has its own connection. -/
theorem handsOver_of_process
    (hp : ((process mgz called app socket_).guard Process.RecordRead).Reachable p) :
    p.toState.HandsOver :=
  (handOffInv_of_reachable hp).handsOver

end Simulation

/-! ## The numbers of the threads -/

section Numbers

variable {app : App} {p : Process App} (hp : State.HandOffInv app p.toState)

include hp

/-- Accepted connections are numbered by their places. -/
theorem number_of_accepted {i : ℕ} {c : Connection} (hc : p.accepted[i]? = some c) :
    c.number = i := by
  have hnumbers := congrArg (fun numbers => numbers[i]?) hp.numbers
  simp only [Process.toState, List.getElem?_map, hc, Option.map_some] at hnumbers
  obtain ⟨hi, hrange⟩ := List.getElem?_eq_some_iff.mp hnumbers.symm
  simpa using hrange.symm

/-- The accepted connections have their threads, the last one perhaps not yet. -/
theorem accepted_eq : p.accepted = p.clients.map (·.startedFor) ++ State.inFlight p.main := by
  have hstarted := hp.started
  simp only [Process.toState, List.map_map] at hstarted
  exact hstarted

/-- Thread `i` was started for connection `i`. -/
theorem startedFor_of_client {i : ℕ} {t : Client App} (ht : p.clients[i]? = some t) :
    t.startedFor.number = i ∧ t.startedFor ∈ p.accepted := by
  have hi := (List.getElem?_eq_some_iff.mp ht).1
  have haccepted : p.accepted[i]? = some t.startedFor := by
    rw [accepted_eq hp, List.getElem?_append_left (by simpa using hi), List.getElem?_map, ht]
    rfl
  exact ⟨number_of_accepted hp haccepted, List.mem_of_getElem? haccepted⟩

/-- There are no more threads than connections. -/
theorem length_clients_le : p.clients.length ≤ p.accepted.length := by
  have hlength := congrArg List.length (accepted_eq hp)
  simp only [List.length_append, List.length_map] at hlength
  omega

/-- Two accepted connections with one number are the same. -/
theorem accepted_ext {c c' : Connection} (hc : c ∈ p.accepted) (hc' : c' ∈ p.accepted)
    (h : c.number = c'.number) : c = c' := by
  obtain ⟨i, hi⟩ := List.mem_iff_getElem?.mp hc
  obtain ⟨j, hj⟩ := List.mem_iff_getElem?.mp hc'
  have hij : i = j := by rw [← number_of_accepted hp hi, ← number_of_accepted hp hj, h]
  subst hij
  exact Option.some.inj (hi.symm.trans hj)

end Numbers

/-! ## Descriptors and calls in a run -/

/-- The thread has closed its descriptor and ended. -/
def Client.exited (t : Client App) : Bool :=
  match t.phase with
  | .ended .exited => true
  | _ => false

theorem Client.exited_iff (t : Client App) : t.exited = true ↔ t.phase = .ended .exited := by
  rw [exited]
  split
  · next hphase => exact iff_of_true rfl hphase
  · next hnot => exact iff_of_false (by simp) hnot

namespace Process

/-- The thread of the connection with this number, if there is one, has not exited. -/
def Holds (p : Process App) (number : ℕ) : Prop :=
  ∀ t, p.clients[number]? = some t → t.exited = false

/-- What the server keeps open under a descriptor: the listening socket, the connection of a thread
that has not exited, or a directory of which a thread has made an index. -/
def Keeps (p : Process App) (listener : Option ℤ) (fd : ℤ) : File → Prop
  | .listener => listener = some fd
  | .socket number => ∃ c ∈ p.accepted, c.sockfd = fd ∧ c.number = number ∧ p.Holds number
  | .directory => ∃ t ∈ p.clients, fd ∈ t.opened

/-- How many directories were opened. -/
def directories (p : Process App) : ℕ := (p.clients.map (·.opened.length)).sum

end Process

/-- The invariant of the guarded runs: the open descriptors are those that the process `Keeps`, and
the calls that reached a connection are those of its own thread. -/
structure ServeInv (listener : Option ℤ) (p : Process App) : Prop where
  files : ∀ fd file, p.kernel.files[fd]? = some file ↔ p.Keeps listener fd file
  size : p.kernel.files.size + p.clients.countP (·.exited) =
    listener.toList.length + p.accepted.length + p.directories
  calls : ∀ i t, p.clients[i]? = some t → p.kernel.callsOn i = t.calls
  log : ∀ e ∈ p.kernel.log, e.number < p.clients.length

/-- At the start only the listening socket is open. -/
theorem serveInv_start (socket_ : ℤ) :
    ServeInv (some socket_) (Process.start socket_ : Process App) where
  files fd file := by
    simp only [Process.start, Kernel.getElem?_insert]
    cases file <;> simp [Process.Keeps, eq_comm]
  size := by simp [Process.start, Process.directories, Std.ExtTreeMap.size_insert]
  calls := by simp [Process.start]
  log := by simp [Process.start]

/-- Nothing has been called on a connection without a thread. -/
theorem ServeInv.callsOn_eq_nil {listener : Option ℤ} {p : Process App}
    (hp : ServeInv listener p) {number : ℕ} (h : p.clients.length ≤ number) :
    p.kernel.callsOn number = [] := by
  rw [Kernel.callsOn, List.filter_eq_nil_iff]
  intro e he
  have := hp.log e he
  simp only [decide_eq_true_eq]
  omega

/-- The count after an entry of a list was replaced. -/
theorem countP_set_add {α : Type} (q : α → Bool) {l : List α} {i : ℕ} {a b : α}
    (ha : l[i]? = some a) :
    (l.set i b).countP q + (if q a then 1 else 0) = l.countP q + if q b then 1 else 0 := by
  obtain ⟨hi, rfl⟩ := List.getElem?_eq_some_iff.mp ha
  rw [List.countP_set hi]
  have hpos : q l[i] = true → 0 < l.countP q := fun hq =>
    List.countP_pos_iff.mpr ⟨_, List.getElem_mem hi, hq⟩
  split <;> grind

/-- The sum after an entry of a list was replaced. -/
theorem sum_map_set_add {α : Type} (f : α → ℕ) {l : List α} {i : ℕ} {a b : α}
    (ha : l[i]? = some a) : ((l.set i b).map f).sum + f a = (l.map f).sum + f b := by
  induction l generalizing i with
  | nil => cases ha
  | cons c l ih =>
    cases i with
    | zero =>
      obtain rfl := Option.some.inj ha
      simp only [List.set_cons_zero, List.map_cons, List.sum_cons]
      omega
    | succ i =>
      have := ih (i := i) ha
      simp only [List.set_cons_succ, List.map_cons, List.sum_cons]
      omega

/-! ### A step of one thread -/

section Set

variable {app : App} {listener : Option ℤ} {p : Process App} {i : ℕ} {t t' : Client App}

/-- Whether another connection is held does not depend on thread `i`. -/
theorem Process.holds_set_of_ne {number : ℕ} (hne : i ≠ number) (kernel' : Kernel)
    (running : Bool) :
    Process.Holds { p with clients := p.clients.set i t', kernel := kernel', running } number ↔
      p.Holds number := by
  simp only [Process.Holds, List.getElem?_set_ne hne]

/-- Thread `i` holds its connection until it has exited. -/
theorem Process.holds_set_self (hi : i < p.clients.length) (kernel' : Kernel) (running : Bool) :
    Process.Holds { p with clients := p.clients.set i t', kernel := kernel', running } i ↔
      t'.exited = false := by
  simp only [Process.Holds, List.getElem?_set_self hi, Option.some.injEq, forall_eq']

theorem Process.holds_iff_of_client (ht : p.clients[i]? = some t) :
    p.Holds i ↔ t.exited = false := by
  simp only [Process.Holds, ht, Option.some.injEq, forall_eq']

/-- The directories that were opened, when thread `i` has opened some more. -/
theorem exists_opened_set {fds : List ℤ} {clients : List (Client App)} (ht : clients[i]? = some t)
    (hopened : t'.opened = t.opened ++ fds) (fd : ℤ) :
    (∃ u ∈ clients.set i t', fd ∈ u.opened) ↔ (∃ u ∈ clients, fd ∈ u.opened) ∨ fd ∈ fds := by
  obtain ⟨hi, rfl⟩ := List.getElem?_eq_some_iff.mp ht
  constructor
  · rintro ⟨u, hu, hfd⟩
    rcases List.mem_or_eq_of_mem_set hu with hu | rfl
    · exact .inl ⟨u, hu, hfd⟩
    · rw [hopened] at hfd
      rcases List.mem_append.mp hfd with hfd | hfd
      · exact .inl ⟨_, List.getElem_mem hi, hfd⟩
      · exact .inr hfd
  · rintro (⟨u, hu, hfd⟩ | hfd)
    · obtain ⟨j, hj, rfl⟩ := List.mem_iff_getElem.mp hu
      by_cases hij : i = j
      · subst hij
        exact ⟨t', List.mem_set hj t', hopened ▸ List.mem_append_left _ hfd⟩
      · refine ⟨clients[j], List.mem_iff_getElem?.mpr ⟨j, ?_⟩, hfd⟩
        rw [List.getElem?_set_ne hij, List.getElem?_eq_getElem hj]
    · exact ⟨t', List.mem_set hi t', hopened ▸ List.mem_append_right _ hfd⟩

/-- What the process keeps when a thread goes on and has opened some directories. -/
theorem Process.keeps_set_iff (ht : p.clients[i]? = some t) (hexited : t'.exited = t.exited)
    {fds : List ℤ} (hopened : t'.opened = t.opened ++ fds) (kernel' : Kernel) (running : Bool)
    (fd : ℤ) (file : File) :
    Process.Keeps { p with clients := p.clients.set i t', kernel := kernel', running }
      listener fd file ↔ p.Keeps listener fd file ∨ file = .directory ∧ fd ∈ fds := by
  cases file with
  | listener => simp [Keeps]
  | socket number =>
    have hholds : Process.Holds
        { p with clients := p.clients.set i t', kernel := kernel', running } number ↔
          p.Holds number := by
      by_cases hne : i = number
      · subst hne
        rw [holds_set_self (List.getElem?_eq_some_iff.mp ht).1, hexited, holds_iff_of_client ht]
      · rw [holds_set_of_ne hne]
    simp [Keeps, hholds]
  | directory => simpa [Keeps] using exists_opened_set ht hopened fd

/-- What the process keeps when a thread has exited. -/
theorem Process.keeps_set_exited_iff (ht : p.clients[i]? = some t) (hexited : t'.exited = true)
    (hopened : t'.opened = t.opened) (kernel' : Kernel) (running : Bool) (fd : ℤ) (file : File) :
    Process.Keeps { p with clients := p.clients.set i t', kernel := kernel', running }
      listener fd file ↔ p.Keeps listener fd file ∧ file ≠ .socket i := by
  cases file with
  | listener => simp [Keeps]
  | socket number =>
    by_cases hne : i = number
    · subst hne
      have hholds : Process.Holds
          { p with clients := p.clients.set i t', kernel := kernel', running } i ↔
            t'.exited = false := holds_set_self (List.getElem?_eq_some_iff.mp ht).1 kernel' running
      simp [Keeps, hholds, hexited]
    · have hne' : number ≠ i := fun h => hne h.symm
      simp [Keeps, holds_set_of_ne hne, hne']
  | directory =>
    have hnil : t'.opened = t.opened ++ [] := by rw [hopened, List.append_nil]
    simpa [Keeps] using exists_opened_set ht hnil fd

/-- What the process keeps when it has accepted a connection, which no thread holds yet. -/
theorem Process.keeps_accept_iff (hnew : p.Holds p.accepted.length) (sockfd : ℤ) (client : Peer)
    (main : MainLoop) (kernel : Kernel) (fd : ℤ) (file : File) :
    Process.Keeps { p with
      main
      accepted := p.accepted ++ [{ number := p.accepted.length, sockfd, client }]
      kernel } listener fd file ↔
      (sockfd = fd ∧ file = .socket p.accepted.length) ∨ p.Keeps listener fd file := by
  cases file with
  | socket number =>
    constructor
    · rintro ⟨c, hc, hsockfd, hnumber, hholds⟩
      rcases List.mem_append.mp hc with hc | hc
      · exact .inr ⟨c, hc, hsockfd, hnumber, hholds⟩
      · obtain rfl := List.mem_singleton.mp hc
        exact .inl ⟨hsockfd, congrArg File.socket hnumber.symm⟩
    · rintro (⟨hsockfd, hsocket⟩ | ⟨c, hc, hrest⟩)
      · obtain rfl := File.socket.inj hsocket
        exact ⟨_, List.mem_append_right _ (List.mem_singleton_self _), hsockfd, rfl, hnew⟩
      · exact ⟨c, List.mem_append_left _ hc, hrest⟩
  | listener => simp [Keeps]
  | directory => simp [Keeps]

section

variable (hhand : State.HandOffInv app p.toState) (hp : ServeInv listener p)
  (ht : p.clients[i]? = some t) (hexited : t.exited = false)

include hhand hp ht hexited

/-- A thread that has not exited has its descriptor. -/
theorem ServeInv.getElem?_startedFor :
    p.kernel.files[t.startedFor.sockfd]? = some (.socket i) := by
  obtain ⟨hnumber, hmem⟩ := startedFor_of_client hhand ht
  exact (hp.files _ _).mpr
    ⟨t.startedFor, hmem, rfl, hnumber, (Process.holds_iff_of_client ht).mpr hexited⟩

/-- When the descriptor of thread `i` is closed, nothing else is. -/
theorem ServeInv.getElem?_erase_iff (fd : ℤ) (file : File) :
    (p.kernel.files.erase t.startedFor.sockfd)[fd]? = some file ↔
      p.Keeps listener fd file ∧ file ≠ .socket i := by
  obtain ⟨hnumber, hmem⟩ := startedFor_of_client hhand ht
  have hopen := hp.getElem?_startedFor hhand ht hexited
  rw [Kernel.getElem?_erase, Option.ite_none_left_eq_some, hp.files]
  refine and_comm.trans (and_congr_right fun hkeeps => not_congr ⟨?_, ?_⟩)
  -- the descriptor of the thread stands for its connection, and for nothing else
  · rintro rfl
    exact Option.some.inj (((hp.files _ _).mpr hkeeps).symm.trans hopen)
  · rintro rfl
    obtain ⟨c, hc, rfl, hcnumber, -⟩ := hkeeps
    rw [accepted_ext hhand hc hmem (hcnumber.trans hnumber.symm)]

/-- One descriptor less, and one exited thread more. -/
theorem ServeInv.size_erase (hexited' : t'.exited = true) (hopened : t'.opened = t.opened) :
    (p.kernel.files.erase t.startedFor.sockfd).size +
      (p.clients.set i t').countP (·.exited) =
        listener.toList.length + p.accepted.length +
          ((p.clients.set i t').map (·.opened.length)).sum := by
  have hcount := countP_set_add (·.exited) (b := t') ht
  have hsum := sum_map_set_add (·.opened.length) (b := t') ht
  have hsize := hp.size
  rw [Process.directories] at hsize
  have hcontains : p.kernel.files.contains t.startedFor.sockfd = true := by
    rw [Std.ExtTreeMap.contains_eq_isSome_getElem?, hp.getElem?_startedFor hhand ht hexited]
    rfl
  have hpos : p.kernel.files.size ≠ 0 := fun hzero => by
    simp [Std.ExtTreeMap.eq_empty_iff_size_eq_zero.mpr hzero] at hcontains
  simp only [hexited, hexited', Bool.false_eq_true, if_false, if_true] at hcount
  simp only [hopened] at hsum
  simp only [Std.ExtTreeMap.size_erase, if_pos hcontains]
  omega

end

/-- Calls on connection `i` are added to those of thread `i`. -/
theorem ServeInv.callsOn_set (hp : ServeInv listener p) (ht : p.clients[i]? = some t)
    {kernel' : Kernel} {events : List Event} (hlog : kernel'.log = p.kernel.log ++ events)
    (hcalls : t'.calls = t.calls ++ events) (hevents : ∀ e ∈ events, e.number = i) {j : ℕ}
    {u : Client App} (hu : (p.clients.set i t')[j]? = some u) : kernel'.callsOn j = u.calls := by
  rw [Kernel.callsOn, hlog, List.filter_append]
  by_cases hij : i = j
  · subst hij
    rw [List.getElem?_set_self (List.getElem?_eq_some_iff.mp ht).1, Option.some.injEq] at hu
    have hfilter : events.filter (·.number = i) = events :=
      List.filter_eq_self.mpr fun e he => decide_eq_true (hevents e he)
    rw [← hu, hcalls, ← hp.calls i t ht, hfilter, Kernel.callsOn]
  · rw [List.getElem?_set_ne hij] at hu
    have hfilter : events.filter (·.number = j) = [] :=
      List.filter_eq_nil_iff.mpr fun e he => by simpa [hevents e he] using hij
    rw [← hp.calls j u hu, hfilter, List.append_nil, Kernel.callsOn]

/-- A step of thread `i`: the calls it makes reach its own connection, its directories take
descriptors that were not open, and when it exits its descriptor is closed. -/
theorem ServeInv.set (hhand : State.HandOffInv app p.toState) (hp : ServeInv listener p)
    (ht : p.clients[i]? = some t) {kernel' : Kernel} {events : List Event}
    (hlog : kernel'.log = p.kernel.log ++ events) (hcalls : t'.calls = t.calls ++ events)
    (hevents : ∀ e ∈ events, e.number = i)
    (hfiles : t'.exited = t.exited ∧ (∃ fds, t'.opened = t.opened ++ fds ∧
        (∀ fd ∈ fds, p.kernel.files[fd]? = none) ∧
        kernel'.files = (p.kernel.withDirectories fds).files ∧
        kernel'.files.size = p.kernel.files.size + fds.length) ∨
      t.exited = false ∧ t'.exited = true ∧ t'.opened = t.opened ∧
        kernel'.files = p.kernel.files.erase t.startedFor.sockfd) (running : Bool) :
    ServeInv listener { p with clients := p.clients.set i t', kernel := kernel', running } where
  files fd file := by
    rcases hfiles with ⟨hexited, fds, hopened, hfree, hopen, -⟩ |
      ⟨hexited, hexited', hopened, herase⟩
    · rw [Process.keeps_set_iff ht hexited hopened, ← hp.files]
      simp only [hopen, Kernel.getElem?_withDirectories]
      by_cases hfd : fd ∈ fds
      · simp [hfd, hfree fd hfd, eq_comm]
      · simp [hfd]
    · rw [Process.keeps_set_exited_iff ht hexited' hopened]
      simp only [herase]
      exact hp.getElem?_erase_iff hhand ht hexited fd file
  size := by
    rcases hfiles with ⟨hexited, fds, hopened, -, -, hsize⟩ |
      ⟨hexited, hexited', hopened, herase⟩
    · have hcount := countP_set_add (·.exited) (b := t') ht
      have hsum := sum_map_set_add (·.opened.length) (b := t') ht
      have hbefore := hp.size
      simp only [hexited, Nat.add_right_cancel_iff] at hcount
      simp only [hopened, List.length_append] at hsum
      simp only [Process.directories, hsize, hcount] at hbefore ⊢
      omega
    · simp only [herase]
      exact hp.size_erase hhand ht hexited hexited' hopened
  calls j u hu := hp.callsOn_set ht hlog hcalls hevents hu
  log e he := by
    rw [hlog] at he
    rw [List.length_set]
    rcases List.mem_append.mp he with he | he
    · exact hp.log e he
    · rw [hevents e he]
      exact (List.getElem?_eq_some_iff.mp ht).1

end Set

section Loop

variable {mgz : Mgz} {called : Memory → App → Option Middleware} {app : App} {socket_ : ℤ}
  {listener : Option ℤ} {allowed : ℕ → Memory → FileSystem → Option Middleware → Prop}
  {p p' : Process App} {l : ProcessLabel App}

/-- An accepted connection has a new descriptor and a new number. -/
theorem ServeInv.accept (hhand : State.HandOffInv app p.toState) (hp : ServeInv listener p)
    {sockfd : ℤ} {client : Peer} {kernel : Kernel}
    (haccept : p.kernel.accept sockfd p.accepted.length = some kernel) :
    ServeInv listener { p with
      main := .write { number := p.accepted.length, sockfd, client }
      accepted := p.accepted ++ [{ number := p.accepted.length, sockfd, client }]
      kernel } := by
  obtain ⟨hfree, rfl⟩ := Kernel.accept_eq_some_iff.mp haccept
  have hnew : p.Holds p.accepted.length := by
    intro t ht
    have hlt := (List.getElem?_eq_some_iff.mp ht).1
    have := length_clients_le hhand
    omega
  have hcontains : p.kernel.files.contains sockfd = false := by
    rw [Std.ExtTreeMap.contains_eq_isSome_getElem?, hfree]
    rfl
  refine ⟨fun fd file => ?_, ?_, hp.calls, hp.log⟩
  · rw [Process.keeps_accept_iff hnew, ← hp.files]
    simp only [Kernel.getElem?_insert]
    by_cases heq : sockfd = fd
    · subst heq
      simp [hfree, eq_comm]
    · simp [heq]
  · have hsize := hp.size
    simp only [Process.directories] at hsize
    simp only [Process.directories, Std.ExtTreeMap.size_insert, hcontains, List.length_append,
      List.length_singleton, Bool.false_eq_true, if_false]
    omega

/-- A new thread has made no call. -/
theorem ServeInv.create (hp : ServeInv listener p) (c : Connection) :
    ServeInv listener { p with main := .accept, clients := p.clients ++ [.start c] } := by
  have hget {i : ℕ} {t : Client App} (ht : (p.clients ++ [Client.start c])[i]? = some t) :
      p.clients[i]? = some t ∨ p.clients.length = i ∧ t = .start c := by
    rw [List.getElem?_append] at ht
    split at ht
    · exact .inl ht
    · rw [List.getElem?_singleton, Option.ite_none_right_eq_some] at ht
      exact .inr ⟨by omega, (Option.some.inj ht.2).symm⟩
  have hholds (number : ℕ) :
      Process.Holds { p with main := .accept, clients := p.clients ++ [.start c] } number ↔
        p.Holds number := by
    constructor
    · intro h t ht
      exact h t ((List.getElem?_append_left (List.getElem?_eq_some_iff.mp ht).1).trans ht)
    · intro h t ht
      rcases hget ht with ht | ⟨-, rfl⟩
      · exact h t ht
      · rfl
  refine ⟨fun fd file => ?_, ?_, fun i t ht => ?_, fun e he => ?_⟩
  · refine (hp.files fd file).trans ?_
    cases file with
    | listener => rfl
    | socket number => simp only [Process.Keeps, hholds]
    | directory => simp [Process.Keeps, Client.start, or_and_right, exists_or]
  · have hsize := hp.size
    simp only [Process.directories] at hsize
    simp only [Process.directories, List.countP_append, List.map_append, List.sum_append]
    exact hsize
  · rcases hget ht with ht | ⟨rfl, rfl⟩
    · exact hp.calls i t ht
    · exact hp.callsOn_eq_nil le_rfl
  · have := hp.log e he
    simp only [List.length_append, List.length_singleton]
    omega

/-- The descriptor of a thread is its own, and every step of it reaches its own connection. -/
theorem ServeInv.thread (hhand : State.HandOffInv app p.toState) (hp : ServeInv listener p) {i : ℕ}
    {t t' : Client App} {d : ServerData App} {action : Action} {kernel : Kernel}
    (ht : p.clients[i]? = some t) (hcopied : t.copied = some d)
    (hfollows : t.Follows mgz (allowed i))
    (hnext : t.next mgz (called · d.app) d.connection.sockfd p.kernel action =
      some (t', kernel)) (running : Bool) :
    ServeInv listener { p with clients := p.clients.set i t', kernel, running } := by
  have hmem := List.mem_of_getElem? ht
  obtain ⟨hnumber, -⟩ := startedFor_of_client hhand ht
  have hd : d = { connection := t.startedFor, app } :=
    hhand.own t.toThread (List.mem_map_of_mem hmem) d hcopied
  have hopen (hphase : t.phase ≠ .ended .exited) :
      p.kernel.files[t.startedFor.sockfd]? = some (.socket t.startedFor.number) := by
    rw [ne_eq, ← Client.exited_iff, Bool.not_eq_true] at hphase
    rw [hnumber]
    exact hp.getElem?_startedFor hhand ht hphase
  rw [hd] at hnext
  obtain ⟨hphase, ⟨events, hlog, hcalls, hevents⟩, hfiles⟩ := hfollows.calls_next hopen hnext
  rw [hnumber] at hevents
  rw [ne_eq, ← Client.exited_iff, Bool.not_eq_true] at hphase
  refine hp.set hhand ht hlog hcalls hevents ?_ running
  rcases hfiles with ⟨hphase', hopened⟩ | ⟨hphase', hopened, herase⟩
  · rw [ne_eq, ← Client.exited_iff, Bool.not_eq_true] at hphase'
    exact .inl ⟨hphase'.trans hphase.symm, hopened⟩
  · exact .inr ⟨hphase, (Client.exited_iff t').mpr hphase', hopened, herase⟩

/-- Every step of a guarded run keeps the descriptors with their threads. -/
theorem ServeInv.next (hhand : State.HandOffInv app p.toState) (hfollow : p.Follows mgz allowed)
    (hp : ServeInv listener p) (h : p.next mgz called app l = some p') (hguard : p.RecordRead l) :
    ServeInv listener p' := by
  obtain ⟨-, ⟨_, _, -, -, -, -, rfl⟩ | ⟨sockfd, client, kernel, -, -, -, -, haccept, rfl⟩ |
    ⟨c, -, -, -, rfl⟩ | ⟨c, -, -, -, rfl⟩ | ⟨i, t, -, -, ht, -, rfl⟩ | ⟨_, _, _, rfl, -⟩ |
    ⟨i, action, t, d, t', kernel, -, ht, hcopied, hnext, rfl⟩⟩ := Process.next_cases h
  · exact ⟨hp.files, hp.size, hp.calls, hp.log⟩
  · exact hp.accept hhand haccept
  -- write
  · exact ⟨hp.files, hp.size, hp.calls, hp.log⟩
  · exact hp.create c
  -- the first step of a thread calls nothing
  · have hcalls : Client.calls { t with copied := p.data } = t.calls ++ [] := by
      rw [List.append_nil, Client.calls, Client.calls]
    exact hp.set hhand ht (List.append_nil _).symm hcalls (List.forall_mem_nil _)
      (.inl ⟨rfl, [], by simp [Kernel.withDirectories]⟩) p.running
  · exact hguard.elim
  · exact hp.thread hhand ht hcopied (hfollow i t ht) hnext _

/-- Closing the listening socket, or a descriptor that is not open, closes no connection. -/
theorem ServeInv.close (hp : ServeInv listener p) {fd : ℤ}
    (hfd : p.kernel.files[fd]? = some .listener ∨ p.kernel.files[fd]? = none) :
    ∃ listener', ServeInv listener' { p with kernel := p.kernel.close fd } := by
  rcases hfd with hopen | hfree
  · obtain rfl : listener = some fd := (hp.files fd .listener).mp hopen
    refine ⟨none, ?_⟩
    rw [Kernel.close, hopen]
    refine ⟨fun fd' file => ?_, ?_, hp.calls, hp.log⟩
    · simp only [Kernel.getElem?_erase, Option.ite_none_left_eq_some, hp.files]
      cases file with
      | listener => simp [Process.Keeps]
      | socket number =>
        refine and_iff_right_of_imp fun hkeeps => ?_
        rintro rfl
        have hsocket := (hp.files fd (.socket number)).mpr hkeeps
        rw [hopen] at hsocket
        cases hsocket
      | directory =>
        refine and_iff_right_of_imp fun hkeeps => ?_
        rintro rfl
        have hdirectory := (hp.files fd .directory).mpr hkeeps
        rw [hopen] at hdirectory
        cases hdirectory
    · have hsize := hp.size
      have hcontains : p.kernel.files.contains fd = true := by
        rw [Std.ExtTreeMap.contains_eq_isSome_getElem?, hopen]
        rfl
      have hpos : p.kernel.files.size ≠ 0 := fun hzero => by
        simp [Std.ExtTreeMap.eq_empty_iff_size_eq_zero.mpr hzero] at hcontains
      simp only [Process.directories, Option.toList_some, List.length_singleton] at hsize
      simp only [Process.directories, Std.ExtTreeMap.size_erase, if_pos hcontains,
        Option.toList_none, List.length_nil]
      omega
  · refine ⟨listener, ?_⟩
    rw [Kernel.close, hfree]
    exact hp

/-! ## What every step of a guarded run keeps -/

/-- The connections reach their threads, each thread does what `clientThread` does under its own
condition, and has its descriptor and its connection to itself. -/
structure RunInv (mgz : Mgz) (allowed : ℕ → Memory → FileSystem → Option Middleware → Prop)
    (app : App) (listener : Option ℤ) (p : Process App) : Prop where
  hand : State.HandOffInv app p.toState
  follows : p.Follows mgz allowed
  serves : ServeInv listener p

/-- Before the first connection everything is in place. -/
theorem runInv_start (mgz : Mgz) (allowed : ℕ → Memory → FileSystem → Option Middleware → Prop)
    (app : App) (socket_ : ℤ) : RunInv mgz allowed app (some socket_) (.start socket_) :=
  ⟨State.handOffInv_start app, Process.follows_start mgz allowed socket_, serveInv_start socket_⟩

/-- Every step whose answer is allowed keeps all three. -/
theorem RunInv.next (hp : RunInv mgz allowed app listener p)
    (h : p.next mgz called app l = some p') (hguard : p.RecordRead l)
    (hallowed : p.AnswersWith called allowed l) : RunInv mgz allowed app listener p' :=
  ⟨handOffInv_next hp.hand h hguard, hp.follows.next h hallowed,
    hp.serves.next hp.hand hp.follows h hguard⟩

/-- A thread that has begun works for the app of the server. -/
theorem RunInv.app_of_copied (hp : RunInv mgz allowed app listener p) {i : ℕ} {t : Client App}
    (ht : p.clients[i]? = some t) {d : ServerData App} (hcopied : t.copied = some d) :
    d.app = app := by
  rw [hp.hand.own t.toThread (List.mem_map_of_mem (List.mem_of_getElem? ht)) d hcopied]

/-- The calls on connection `i` are those of thread `i`. -/
theorem RunInv.callsOn_eq (hp : RunInv mgz allowed app listener p) {i : ℕ} {t : Client App}
    (ht : p.clients[i]? = some t) :
    p.kernel.callsOn i = t.reads.map (.read i) ++
      (t.written.toList.map fun w => .write i w.1 w.2) ++ List.replicate t.closes (.close i) := by
  rw [hp.serves.calls i t ht, Client.calls, (startedFor_of_client hp.hand ht).1]

/-- In a guarded run all calls are calls of the app. -/
theorem runInv_of_reachable
    (hp : ((process mgz called app socket_).guard Process.RecordRead).Reachable p) :
    RunInv mgz (fun _ mem _ call => call = called mem app) app (some socket_) p := by
  have hinv : ((process mgz called app socket_).guard Process.RecordRead).Invariant
      (RunInv mgz (fun _ mem _ call => call = called mem app) app (some socket_)) := by
    refine ⟨?_, fun p l p' hp h => hp.next h.1 h.2 fun i mem fs fds t d _ ht hcopied => ?_⟩
    · rintro p rfl
      exact runInv_start mgz _ app socket_
    · rw [hp.app_of_copied ht hcopied]
  exact hinv.reachable hp

/-- When thread `i` has ended, the calls that have reached the `i`-th connection are those that
`clientThread` makes for the reads of that connection, in this order, and no others. -/
theorem calls_of_guarded
    (hp : ((process mgz called app socket_).guard Process.RecordRead).Reachable p) {i : ℕ}
    {t : Client App} (ht : p.clients[i]? = some t) {ending : Ending}
    (hphase : t.phase = .ended ending) :
    ∃ mem fs socketWrite,
      let outcome := clientThread mgz mem (called mem app) fs t.reads socketWrite
      outcome.ending = ending ∧
      p.kernel.callsOn i = t.reads.map (.read i) ++
        (outcome.written.toList.map fun w => .write i w.1 w.2) ++
          List.replicate outcome.closes (.close i) := by
  have hrun := runInv_of_reachable hp
  have hcalls := hrun.callsOn_eq ht
  rcases (hrun.follows i t ht).outcome hphase with ⟨-, houtcome⟩ |
    ⟨mem, fs, call, socketWrite, rfl, houtcome⟩
  · refine ⟨.zero, .ofFiles [], fun _ => 0, ?_⟩
    simp only [houtcome, hcalls, and_self]
  · refine ⟨mem, fs, socketWrite, ?_⟩
    simp only [houtcome, hcalls, and_self]

/-- A connection that is reset before a byte was read. -/
theorem calls_of_guarded_reset :
    ∃ (p : Process Unit) (t : Client Unit), p.clients[0]? = some t ∧ t.phase = .ended .returned ∧
      ∃ mem fs socketWrite, let outcome := clientThread .plain mem none fs t.reads socketWrite
        outcome.ending = .returned ∧
        p.kernel.callsOn 0 = t.reads.map (.read 0) ++
          (outcome.written.toList.map fun w => .write 0 w.1 w.2) ++
            List.replicate outcome.closes (.close 0) := by
  have hp : ((process .plain (fun _ _ => none) () 3).guard Process.RecordRead).Reachable _ :=
    .of_guarded_run [.accept 4 ⟨80, []⟩, .write, .create, .first 0, .thread 0 (.read .failed)] rfl
  exact ⟨_, _, rfl, rfl, calls_of_guarded hp rfl rfl⟩

end Loop

end Lhs.Server
