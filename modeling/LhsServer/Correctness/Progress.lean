import LhsServer.Correctness.Process

/-!
# Threads that do not wait for each other

A client thread waits for its client and for nothing else: `client_thread` takes no lock, and no
other thread has to do anything for it to go on.

- `steps_of_run`: how many steps a thread has taken, in any run;
- `finishes_of_run`: from every state of a run a thread can end by a few steps of its own.
-/

namespace Lhs.Server

open Bytes Http

variable {App : Type}

/-- The steps of thread `i`. -/
def ProcessLabel.isOf (i : ℕ) : ProcessLabel App → Bool
  | .first j => j = i
  | .stray j _ => j = i
  | .thread j _ => j = i
  | _ => false

/-- The steps behind the read loop that a thread in this phase has taken, and those that it has
spared by an early end. -/
def Phase.work : Phase → ℕ
  | .reading _ => 0
  | .serving _ => 0
  | .writing _ => 1
  | .closing => 2
  | .ended _ => 3
  | .killed _ => 2

/-- The steps of a thread. -/
def Client.work (t : Client App) : ℕ := t.copied.elim 0 (fun _ => 1) + t.reads.length + t.phase.work

/-- A thread has work for its reads, and for four more steps. -/
theorem Client.work_le (t : Client App) : t.work ≤ t.reads.length + 4 := by
  have hcopied : t.copied.elim 0 (fun _ => 1) ≤ 1 := by cases t.copied <;> simp
  have hphase : t.phase.work ≤ 3 := by cases t.phase <;> simp [Phase.work]
  rw [work]
  omega

/-- Each step of the thread takes some of it. -/
theorem Client.work_next {mgz : Mgz} {call : Memory → Option Middleware} {sockfd : ℤ}
    {t t' : Client App} {kernel kernel' : Kernel} {action : Action}
    (h : t.next mgz call sockfd kernel action = some (t', kernel')) : t.work + 1 ≤ t'.work := by
  rcases next_cases h with ⟨buffer, result, -, hphase, -, rfl⟩ |
    ⟨mem, fs, _, buffer, -, hphase, -, -, rfl⟩ | ⟨_, result, -, hphase, -, rfl⟩ |
    ⟨_, -, hphase, -, -, rfl⟩ | ⟨-, hphase, -, rfl⟩
  all_goals simp only [work, hphase, Phase.work]
  -- read
  · rw [List.length_append, List.length_singleton]
    omega
  · rcases (answer mgz mem (call mem) buffer).value fs with f | data <;>
      simp only [Phase.afterAnswer] <;> omega
  -- write: the thread goes on, or it ends by an exception
  · by_cases hthrow : -1 > result
    · rw [if_pos hthrow]
      dsimp only
      omega
    · rw [if_neg hthrow]
      dsimp only
      omega
  · omega
  · omega

/-! ## The steps of a run -/

/-- What a run of the process has come to. -/
structure WorkInv (labels : List (ProcessLabel App)) (p : Process App) : Prop where
  data : p.data = none → p.clients = [] ∧ ∀ c, p.main ≠ .create c
  steps : ∀ i t, p.clients[i]? = some t → labels.countP (·.isOf i) ≤ t.work
  unborn : ∀ i, p.clients.length ≤ i → labels.countP (·.isOf i) = 0
  /-- a signal ends the process -/
  killed : ∀ (i : ℕ) (t : Client App) data, p.clients[i]? = some t → t.phase = .killed data →
    p.running = false

/-- Before the first step nothing was done. -/
theorem workInv_start (socket_ : ℤ) : WorkInv [] (Process.start socket_ : Process App) where
  data _ := ⟨rfl, by rintro c ⟨⟩⟩
  steps := by simp [Process.start]
  unborn := by simp
  killed := by simp [Process.start]

theorem countP_isOf_append (i : ℕ) (labels : List (ProcessLabel App)) (l : ProcessLabel App) :
    (labels ++ [l]).countP (·.isOf i) = labels.countP (·.isOf i) + if l.isOf i then 1 else 0 := by
  rw [List.countP_append, List.countP_singleton]

theorem countP_isOf_append_of_not {i : ℕ} {l : ProcessLabel App} (hl : l.isOf i = false)
    (labels : List (ProcessLabel App)) :
    (labels ++ [l]).countP (·.isOf i) = labels.countP (·.isOf i) := by
  rw [countP_isOf_append, hl, if_neg Bool.false_ne_true, Nat.add_zero]

/-- A step of thread `i`, after which it has done more. -/
theorem WorkInv.set {labels : List (ProcessLabel App)} {p : Process App} (hp : WorkInv labels p)
    {l : ProcessLabel App} {i : ℕ} (hl : ∀ j, l.isOf j ↔ i = j) {t t' : Client App}
    (ht : p.clients[i]? = some t) (hwork : t.work + 1 ≤ t'.work) (kernel : Kernel)
    {running : Bool} (hkilled : ∀ (j : ℕ) (u : Client App) data, (p.clients.set i t')[j]? = some u →
      u.phase = .killed data → running = false) :
    WorkInv (labels ++ [l]) { p with clients := p.clients.set i t', kernel, running } where
  data hdata := by
    obtain ⟨hclients, -⟩ := hp.data hdata
    rw [hclients] at ht
    cases ht
  steps j u hu := by
    rw [countP_isOf_append]
    by_cases hij : i = j
    · subst hij
      rw [List.getElem?_set_self (List.getElem?_eq_some_iff.mp ht).1, Option.some.injEq] at hu
      have hsteps := hp.steps i t ht
      rw [if_pos ((hl i).mpr rfl), ← hu]
      omega
    · rw [List.getElem?_set_ne hij] at hu
      rw [if_neg (mt (hl j).mp hij)]
      exact hp.steps j u hu
  unborn j hj := by
    rw [List.length_set] at hj
    have hlt := (List.getElem?_eq_some_iff.mp ht).1
    rw [countP_isOf_append, if_neg (mt (hl j).mp (by omega))]
    exact hp.unborn j hj
  killed := hkilled

/-- A step of the accept loop. -/
theorem WorkInv.of_clients {labels : List (ProcessLabel App)} {p p' : Process App}
    (hp : WorkInv labels p) {l : ProcessLabel App} (hl : ∀ i, l.isOf i = false)
    (hclients : p'.clients = p.clients) (hrunning : p'.running = p.running)
    (hdata : p'.data = none → p.data = none ∧ ∀ c, p'.main ≠ .create c) :
    WorkInv (labels ++ [l]) p' where
  data h := ⟨hclients.trans (hp.data (hdata h).1).1, (hdata h).2⟩
  steps i t ht := by
    rw [countP_isOf_append_of_not (hl i)]
    exact hp.steps i t (hclients ▸ ht)
  unborn i hi := by
    rw [countP_isOf_append_of_not (hl i)]
    exact hp.unborn i (hclients ▸ hi)
  killed i t data ht hphase := hrunning.trans (hp.killed i t data (hclients ▸ ht) hphase)

/-- A new thread has taken no step. -/
theorem WorkInv.create {labels : List (ProcessLabel App)} {p : Process App} (hp : WorkInv labels p)
    {c : Connection} (hmain : p.main = .create c) :
    WorkInv (labels ++ [.create]) { p with
      main := .accept, clients := p.clients ++ [.start c] } where
  data hdata := absurd hmain ((hp.data hdata).2 c)
  steps i t ht := by
    rw [countP_isOf_append_of_not rfl]
    rcases lt_or_ge i p.clients.length with hi | hi
    · rw [List.getElem?_append_left hi] at ht
      exact hp.steps i t ht
    · rw [hp.unborn i hi]
      exact Nat.zero_le _
  unborn i hi := by
    rw [List.length_append] at hi
    rw [countP_isOf_append_of_not rfl]
    exact hp.unborn i (by omega)
  killed i t data ht hphase := by
    rw [List.getElem?_append] at ht
    split at ht
    · exact hp.killed i t data ht hphase
    · rw [List.getElem?_singleton, Option.ite_none_right_eq_some] at ht
      rw [← Option.some.inj ht.2] at hphase
      cases hphase

variable {mgz : Mgz} {called : Memory → App → Option Middleware} {app : App} {socket_ : ℤ}

/-- A first step leaves the phase of the thread as it is. -/
theorem WorkInv.killed_set {labels : List (ProcessLabel App)} {p : Process App}
    (hp : WorkInv labels p) {i : ℕ} {t t' : Client App} (ht : p.clients[i]? = some t)
    (hphase : t'.phase = t.phase) (j : ℕ) (u : Client App) (data : Bytes)
    (hu : (p.clients.set i t')[j]? = some u) (hkilled : u.phase = .killed data) :
    p.running = false := by
  by_cases hij : i = j
  · subst hij
    rw [List.getElem?_set_self (List.getElem?_eq_some_iff.mp ht).1, Option.some.injEq] at hu
    exact hp.killed i t data ht (hphase.symm.trans (hu ▸ hkilled))
  · rw [List.getElem?_set_ne hij] at hu
    exact hp.killed j u data hu hkilled

/-- Every step of the process keeps to it: a thread works in its own steps only. -/
theorem workInv_step {labels : List (ProcessLabel App)} {p p' : Process App} {l : ProcessLabel App}
    (hp : WorkInv labels p) (h : p.next mgz called app l = some p') :
    WorkInv (labels ++ [l]) p' := by
  obtain ⟨hrunning, ⟨_, _, rfl, -, hmain, -, rfl⟩ | ⟨_, _, _, rfl, -, hmain, -, -, rfl⟩ |
    ⟨c, rfl, -, hmain, rfl⟩ | ⟨c, rfl, -, hmain, rfl⟩ | ⟨i, t, rfl, -, ht, hcopied, rfl⟩ |
    ⟨i, t, d, rfl, -, ht, hcopied, rfl⟩ |
    ⟨i, action, t, d, t', kernel, rfl, ht, hcopied, hnext, rfl⟩⟩ := Process.next_cases h
  · exact hp.of_clients (fun _ => rfl) rfl rfl fun hdata => ⟨hdata, (hp.data hdata).2⟩
  · refine hp.of_clients (fun _ => rfl) rfl rfl fun hdata => ⟨hdata, ?_⟩
    rintro c ⟨⟩
  · refine hp.of_clients (fun _ => rfl) rfl rfl ?_
    rintro ⟨⟩
  · exact hp.create hmain
  -- the first step of a thread finds a record
  · refine hp.set (by simp [ProcessLabel.isOf]) ht ?_ p.kernel (hp.killed_set ht rfl)
    rcases hdata : p.data with _ | d
    · rw [(hp.data hdata).1] at ht
      cases ht
    · simp only [Client.work, hcopied, Option.elim]
      omega
  · refine hp.set (by simp [ProcessLabel.isOf]) ht ?_ p.kernel (hp.killed_set ht rfl)
    simp only [Client.work, hcopied, Option.elim]
    omega
  · refine hp.set (by simp [ProcessLabel.isOf]) ht (Client.work_next hnext) kernel ?_
    intro j u data hu hphase
    by_cases hij : i = j
    · subst hij
      rw [List.getElem?_set_self (List.getElem?_eq_some_iff.mp ht).1, Option.some.injEq] at hu
      rw [hu, Bool.not_eq_false', Client.stopped_iff]
      exact .inr ⟨data, hphase⟩
    · rw [List.getElem?_set_ne hij] at hu
      exact absurd hrunning (by simp [hp.killed j u data hu hphase])

/-- After a run, the steps of a thread are within its work. -/
theorem workInv_of_run {labels : List (ProcessLabel App)} {p : Process App}
    (h : labels.foldlM (Process.next mgz called app) (.start socket_) = some p) :
    WorkInv labels p :=
  TransitionSystem.run_induction (workInv_start socket_)
    (fun _ _ _ _ _ hp hstep => workInv_step hp hstep) h

/-! ## A thread on its own -/

namespace Process

/-- Thread `i` can end by at most `n` steps, all of which are its own. -/
def Finishes (mgz : Mgz) (called : Memory → App → Option Middleware) (app : App) (i n : ℕ)
    (p : Process App) : Prop :=
  ∃ (labels : List (ProcessLabel App)) (p' : Process App) (t : Client App) (ending : Ending),
    labels.length ≤ n ∧ (∀ l ∈ labels, l.isOf i) ∧
      labels.foldlM (Process.next mgz called app) p = some p' ∧ p'.clients[i]? = some t ∧
      t.phase = .ended ending

variable {p : Process App} {i n : ℕ} {t t' : Client App} {d : ServerData App}

/-- A step of the thread, before the rest of its way to the end. -/
theorem Finishes.of_next {q : Process App} {l : ProcessLabel App} (hl : l.isOf i)
    (h : p.next mgz called app l = some q) (hq : q.Finishes mgz called app i n) :
    p.Finishes mgz called app i (n + 1) := by
  obtain ⟨labels, p', t, ending, hlength, hlabels, hrun, ht, hphase⟩ := hq
  refine ⟨l :: labels, p', t, ending, Nat.succ_le_succ hlength, ?_, ?_, ht, hphase⟩
  · exact List.forall_mem_cons.mpr ⟨hl, hlabels⟩
  · rw [List.foldlM_cons, h]
    exact hrun

/-- A thread that has ended needs no step. -/
theorem finishes_of_ended (ht : p.clients[i]? = some t) {ending : Ending}
    (hphase : t.phase = .ended ending) : p.Finishes mgz called app i n :=
  ⟨[], p, t, ending, Nat.zero_le _, by simp, rfl, ht, hphase⟩

/-- After a step of the thread it is in the new phase, and has its record and the process goes on
unless the thread has ended it. -/
theorem Finishes.of_thread (hrunning : p.running = true) (ht : p.clients[i]? = some t)
    (hcopied : t.copied = some d) {action : Action} {kernel : Kernel}
    (hnext : t.next mgz (called · d.app) d.connection.sockfd p.kernel action = some (t', kernel))
    (h : ∀ q : Process App, q.running = !t'.stopped → q.clients[i]? = some t' →
      q.Finishes mgz called app i n) : p.Finishes mgz called app i (n + 1) := by
  refine .of_next (l := .thread i action) (by simp [ProcessLabel.isOf])
    (q := { p with clients := p.clients.set i t', kernel, running := !t'.stopped }) ?_
    (h _ rfl (List.getElem?_set_self (List.getElem?_eq_some_iff.mp ht).1))
  simp only [next, hrunning, ht, hcopied, hnext, Option.map_some]

/-- `close` is the last step. -/
theorem finishes_of_closing (hrunning : p.running = true) (ht : p.clients[i]? = some t)
    (hcopied : t.copied = some d) (hphase : t.phase = .closing) :
    p.Finishes mgz called app i 1 := by
  have hnext : t.next mgz (called · d.app) d.connection.sockfd p.kernel .close =
      some ({ t with phase := .ended .exited, closes := t.closes + 1 },
        p.kernel.close d.connection.sockfd) := by
    simp only [Client.next, hphase]
  exact .of_thread hrunning ht hcopied hnext fun q _ hq => finishes_of_ended hq rfl

/-- Whatever the descriptor stands for, `write` can fail. -/
theorem finishes_of_writing (hrunning : p.running = true) (ht : p.clients[i]? = some t)
    (hcopied : t.copied = some d) {data : Bytes} (hphase : t.phase = .writing data) :
    p.Finishes mgz called app i 2 := by
  have hwrite : ∃ kernel, p.kernel.write d.connection.sockfd data (-1) = some kernel := by
    simp only [Kernel.write]
    split
    · exact ⟨_, if_pos ⟨Int.le_refl _, by omega⟩⟩
    · exact ⟨_, if_pos trivial⟩
  obtain ⟨kernel, hkernel⟩ := hwrite
  have hthrow : ¬(-1 : ℤ) > -1 := Int.lt_irrefl _
  have hnext : t.next mgz (called · d.app) d.connection.sockfd p.kernel (.write (-1)) =
      some ({ t with phase := .closing, written := some (data, -1) }, kernel) := by
    simp only [Client.next, hphase, hkernel, Option.map_some, if_neg hthrow]
  exact .of_thread hrunning ht hcopied hnext fun q hrun hq =>
    finishes_of_closing hrun hq hcopied rfl

/-- Where there are no files, no directory is opened. -/
theorem opensDirectory_ofFiles_nil (question : OsCall) :
    opensDirectory (.ofFiles []) question = false := by
  cases question <;> rfl

/-- Whether there is an answer or an exception. -/
theorem finishes_of_serving (hrunning : p.running = true) (ht : p.clients[i]? = some t)
    (hcopied : t.copied = some d) {buffer : Bytes} (hphase : t.phase = .serving buffer) :
    p.Finishes mgz called app i 3 := by
  let data := answer mgz .zero (called .zero d.app) buffer
  have hnext : t.next mgz (called · d.app) d.connection.sockfd p.kernel
      (.answer .zero (.ofFiles []) []) =
        some ({ t with phase := .afterAnswer (data.value (.ofFiles [])), opened := t.opened ++ [] },
          p.kernel) := by
    have hcount : ([] : List ℤ).length =
        (data.trace (.ofFiles [])).countP (opensDirectory (.ofFiles [])) := by
      rw [List.countP_eq_zero.mpr (by simp [opensDirectory_ofFiles_nil]), List.length_nil]
    simp only [Client.next, hphase, if_pos hcount, data]
    rfl
  rcases hanswer : data.value (.ofFiles []) with f | bytes
  · rw [hanswer] at hnext
    exact .of_thread hrunning ht hcopied hnext fun q _ hq => finishes_of_ended hq rfl
  · rw [hanswer] at hnext
    exact .of_thread hrunning ht hcopied hnext fun q hrun hq =>
      finishes_of_writing hrun hq hcopied rfl

/-- The client sends no more, or the descriptor does not stand for a connection any more. -/
theorem finishes_of_reading (hrunning : p.running = true) (ht : p.clients[i]? = some t)
    (hcopied : t.copied = some d) {buffer : Bytes} (hphase : t.phase = .reading buffer) :
    p.Finishes mgz called app i 4 := by
  have hfailed : ∃ kernel, p.kernel.read d.connection.sockfd .failed = some kernel := by
    simp only [Kernel.read]
    split
    · exact ⟨_, rfl⟩
    · exact ⟨_, rfl⟩
    · contradiction
  obtain ⟨kernel, hkernel⟩ := hfailed
  have hnext : t.next mgz (called · d.app) d.connection.sockfd p.kernel (.read .failed) =
      some ({ t with phase := .ended .returned, reads := t.reads ++ [.failed] }, kernel) := by
    simp only [Client.next, hphase, hkernel, Option.map_some, Phase.afterRead]
  refine .of_thread hrunning ht hcopied hnext fun q _ hq => finishes_of_ended hq rfl

/-- A larger bound on the steps. -/
theorem Finishes.mono {m : ℕ} (h : p.Finishes mgz called app i n) (hle : n ≤ m) :
    p.Finishes mgz called app i m := by
  obtain ⟨labels, p', t, ending, hlength, hrest⟩ := h
  exact ⟨labels, p', t, ending, hlength.trans hle, hrest⟩

/-- A thread behind its first step ends by four steps, in whichever phase it is. -/
theorem finishes_of_copied (hrunning : p.running = true) (ht : p.clients[i]? = some t)
    (hcopied : t.copied = some d) (halive : ∀ data, t.phase ≠ .killed data) :
    p.Finishes mgz called app i 4 := by
  cases hphase : t.phase with
  | reading buffer => exact finishes_of_reading hrunning ht hcopied hphase
  | serving buffer => exact (finishes_of_serving hrunning ht hcopied hphase).mono (by decide)
  | writing data => exact (finishes_of_writing hrunning ht hcopied hphase).mono (by decide)
  | closing => exact (finishes_of_closing hrunning ht hcopied hphase).mono (by decide)
  | ended ending => exact finishes_of_ended ht hphase
  | killed data => exact absurd hphase (halive data)

/-- A thread that has made its first step, or finds a record for it; behind `run` it copies
whatever it finds. -/
theorem finishes_of_data (hrunning : p.running = true) (ht : p.clients[i]? = some t)
    (hdata : p.data = some d) (halive : ∀ data, t.phase ≠ .killed data) :
    p.Finishes mgz called app i 5 := by
  rcases hcopied : t.copied with _ | d'
  · have hfinishes (q : Process App) (hq : q.running = true)
        (hclients : q.clients = p.clients.set i { t with copied := some d }) :
        q.Finishes mgz called app i 4 := by
      refine finishes_of_copied (t := { t with copied := some d }) hq ?_ rfl halive
      rw [hclients, List.getElem?_set_self (List.getElem?_eq_some_iff.mp ht).1]
    let q : Process App := { p with clients := p.clients.set i { t with copied := some d } }
    have hbegin : p.begin i (some d) = some q := begin_eq_some_iff.mpr ⟨t, ht, hcopied, rfl⟩
    cases hinRun : p.inRun with
    | true =>
      refine .of_next (l := .first i) (by simp [ProcessLabel.isOf]) ?_ (hfinishes q hrunning rfl)
      simp only [next, hrunning, hinRun, hdata, hbegin, Bool.and_self, if_true]
    | false =>
      refine .of_next (l := .stray i d) (by simp [ProcessLabel.isOf]) ?_ (hfinishes q hrunning rfl)
      simp only [next, hrunning, hinRun, hbegin, Bool.not_false, Bool.and_self, if_true]
  · exact (finishes_of_copied hrunning ht hcopied halive).mono (by decide)

end Process

/-- In every run a thread has taken at most four steps besides its reads. As long as the process
runs, it can end by five steps of its own, whatever the other threads have done and do not do. -/
theorem steps_of_run {labels : List (ProcessLabel App)} {p : Process App}
    (h : labels.foldlM (Process.next mgz called app) (.start socket_) = some p) {i : ℕ}
    {t : Client App} (ht : p.clients[i]? = some t) :
    labels.countP (·.isOf i) ≤ t.reads.length + 4 ∧
      (p.running = true → p.Finishes mgz called app i 5) := by
  have hwork := workInv_of_run h
  refine ⟨(hwork.steps i t ht).trans t.work_le, fun hrunning => ?_⟩
  rcases hdata : p.data with _ | d
  · rw [(hwork.data hdata).1] at ht
    cases ht
  · refine Process.finishes_of_data hrunning ht hdata fun data hphase => ?_
    rw [hwork.killed i t data ht hphase] at hrunning
    cases hrunning

/-- Three threads, the first of which has got no byte, while the last has not begun when `accept`
fails. -/
def threeThreads : List (ProcessLabel Unit) :=
  [.accept 4 ⟨80, []⟩, .write, .create, .accept 5 ⟨80, []⟩, .write, .create, .first 0, .first 1,
    .accept 6 ⟨80, []⟩, .write, .create, .accept (-1) ⟨0, []⟩, .thread 1 (.read .failed)]

theorem steps_of_run_three : ∃ p : Process Unit, p.clients.length = 3 ∧
    threeThreads.foldlM (Process.next .plain (fun _ _ => none) ()) (.start 3) = some p ∧
      threeThreads.countP (·.isOf 1) ≤ 1 + 4 ∧
      p.Finishes .plain (fun _ _ => none) () 0 5 ∧ p.Finishes .plain (fun _ _ => none) () 2 5 := by
  have h : threeThreads.foldlM (Process.next .plain (fun _ _ => none) ()) (.start 3) = some _ := rfl
  exact ⟨_, rfl, h, (steps_of_run (i := 1) h rfl).1, (steps_of_run (i := 0) h rfl).2 rfl,
    (steps_of_run (i := 2) h rfl).2 rfl⟩

end Lhs.Server
