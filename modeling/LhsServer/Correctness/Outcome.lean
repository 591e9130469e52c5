import LhsServer.Correctness.Shutdown

/-!
# The outcome of a thread in a run of the program

Whatever the accept loop, the other threads, `main` and the signal handler do in the meantime, a
thread does what `clientThread` does: with the results of its own reads, and with the memory, the
file system and the objects as they were when it computed its answer.

- `Process.ReadsAre.next`: the reads of a thread are those that the labels of the run tell;
- `AnsweredIn`: the step of a run in which a thread has computed its answer;
- `outcome_of_run`: the outcome of a thread that has ended.
-/

namespace Lhs.Server

open Bytes Http

/-! ## The reads -/

/-- The result of this step, if it is a read of thread `i`. -/
def ProcessLabel.readOf {App : Type} (i : ℕ) : ProcessLabel App → Option ReadResult
  | .thread j (.read result) => if j = i then some result else none
  | _ => none

/-- The same for a step of the program. -/
def ProgramLabel.readOf (i : ℕ) : ProgramLabel → Option ReadResult
  | .process l => l.readOf i
  | _ => none

section Reads

variable {App : Type} {mgz : Mgz} {called : Memory → App → Option Middleware} {app : App}
  {p p' : Process App} {l : ProcessLabel App} {reads : ℕ → List ReadResult}

/-- The threads have these reads. -/
structure Process.ReadsAre (reads : ℕ → List ReadResult) (p : Process App) : Prop where
  clients : ∀ (i : ℕ) (t : Client App), p.clients[i]? = some t → t.reads = reads i
  unborn : ∀ i, p.clients.length ≤ i → reads i = []

/-- A step of a thread adds at most one read to its own. -/
theorem Client.reads_next {call : Memory → Option Middleware} {sockfd : ℤ} {t t' : Client App}
    {kernel kernel' : Kernel} {action : Action}
    (h : t.next mgz call sockfd kernel action = some (t', kernel')) (i : ℕ) :
    t'.reads = t.reads ++ ((ProcessLabel.thread i action : ProcessLabel App).readOf i).toList := by
  rcases next_cases h with ⟨_, result, rfl, -, -, rfl⟩ | ⟨_, _, _, _, rfl, -, -, -, rfl⟩ |
    ⟨_, _, rfl, -, -, rfl⟩ | ⟨_, rfl, -, -, -, rfl⟩ | ⟨rfl, -, -, rfl⟩ <;>
  simp [ProcessLabel.readOf]

/-- A thread in the place of another one, with one more read or none. -/
theorem Process.ReadsAre.set (hp : p.ReadsAre reads) {i : ℕ} {t t' : Client App}
    (ht : p.clients[i]? = some t) (ht' : t'.reads = t.reads ++ (l.readOf i).toList)
    (hother : ∀ j, i ≠ j → l.readOf j = none) (kernel : Kernel) (running : Bool) :
    Process.ReadsAre (fun j => reads j ++ (l.readOf j).toList)
      { p with clients := p.clients.set i t', kernel, running } where
  clients j u hu := by
    by_cases hij : i = j
    · subst hij
      rw [List.getElem?_set_self (List.getElem?_eq_some_iff.mp ht).1, Option.some.injEq] at hu
      rw [← hu, ht', hp.clients i t ht]
    · rw [List.getElem?_set_ne hij] at hu
      rw [hother j hij, Option.toList_none, List.append_nil, hp.clients j u hu]
  unborn j hj := by
    rw [List.length_set] at hj
    have hlt := (List.getElem?_eq_some_iff.mp ht).1
    rw [hp.unborn j hj, hother j (by omega)]
    rfl

/-- A step adds its read to those of its own thread. -/
theorem Process.ReadsAre.next (hp : p.ReadsAre reads) (h : p.next mgz called app l = some p') :
    p'.ReadsAre fun i => reads i ++ (l.readOf i).toList := by
  obtain ⟨-, ⟨_, _, rfl, -, -, -, rfl⟩ | ⟨_, _, _, rfl, -, -, -, -, rfl⟩ | ⟨c, rfl, -, -, rfl⟩ |
    ⟨c, rfl, -, -, rfl⟩ | ⟨i, t, rfl, -, ht, -, rfl⟩ | ⟨i, t, d, rfl, -, ht, -, rfl⟩ |
    ⟨i, action, t, d, t', kernel, rfl, ht, -, hnext, rfl⟩⟩ := next_cases h
  rotate_left 4
  -- the steps of a thread
  · exact hp.set ht (List.append_nil _).symm (fun _ _ => rfl) _ _
  · exact hp.set ht (List.append_nil _).symm (fun _ _ => rfl) _ _
  · refine hp.set ht (Client.reads_next hnext i) (fun j hij => ?_) kernel _
    cases action <;> simp [ProcessLabel.readOf, hij]
  all_goals simp only [ProcessLabel.readOf, Option.toList_none, List.append_nil]
  · exact ⟨hp.clients, hp.unborn⟩
  · exact ⟨hp.clients, hp.unborn⟩
  · exact ⟨hp.clients, hp.unborn⟩
  -- a new thread has read nothing
  · refine ⟨fun i t ht => ?_, fun i hi => hp.unborn i ?_⟩
    · have ht : (p.clients ++ [Client.start c])[i]? = some t := ht
      rw [List.getElem?_append] at ht
      split at ht
      · exact hp.clients i t ht
      · next hi =>
        rw [List.getElem?_singleton, Option.ite_none_right_eq_some] at ht
        rw [← Option.some.inj ht.2, hp.unborn i (Nat.not_lt.mp hi)]
        rfl
    · simp only [List.length_append] at hi
      omega

end Reads

/-! ## Runs -/

section Run

variable {mgz : Mgz} {dead : ℕ → Middleware} {room : ℕ} {socket_ : ℤ} {app : Option ℕ}
  {objects : Heap Object} {labels : List ProgramLabel} {g g' : Program}

/-- In this run thread `i` has computed an answer with this memory, this file system and this call:
what its pointer stands for at that step. -/
def AnsweredIn (mgz : Mgz) (dead : ℕ → Middleware) (room : ℕ) (socket_ : ℤ) (app : Option ℕ)
    (objects : Heap Object) (labels : List ProgramLabel) (i : ℕ) (own : Memory) (fs : FileSystem)
    (call : Option Middleware) : Prop :=
  ∃ before fds after g t d,
    labels = before ++ .process (.thread i (.answer own fs fds)) :: after ∧
    before.foldlM (Program.next mgz dead room socket_ app) (.start socket_ objects) = some g ∧
    g.process.clients[i]? = some t ∧ t.copied = some d ∧ call = g.called mgz dead room own d.app

/-- An answer of a run is one of every longer run. -/
theorem AnsweredIn.append {i : ℕ} {own : Memory} {fs : FileSystem} {call : Option Middleware}
    (h : AnsweredIn mgz dead room socket_ app objects labels i own fs call) (l : ProgramLabel) :
    AnsweredIn mgz dead room socket_ app objects (labels ++ [l]) i own fs call := by
  obtain ⟨before, fds, after, g, t, d, rfl, hrest⟩ := h
  exact ⟨before, fds, after ++ [l], g, t, d, by simp, hrest⟩

/-- A pointer that a thread can hold: that of the server, unless it has begun behind `run`. -/
def PointsIn (app : Option ℕ) (labels : List ProgramLabel) (i : ℕ) (pointer : Option ℕ) : Prop :=
  pointer = app ∨ ∃ d, .process (.stray i d) ∈ labels ∧ d.app = pointer

/-- What a run has come to. -/
structure RunOf (mgz : Mgz) (dead : ℕ → Middleware) (room : ℕ) (socket_ : ℤ) (app : Option ℕ)
    (objects : Heap Object) (labels : List ProgramLabel) (g : Program) : Prop where
  reads : g.process.ReadsAre fun i => labels.filterMap (ProgramLabel.readOf i)
  points : g.process.Points app (PointsIn app labels)
  follows : g.process.Follows mgz (AnsweredIn mgz dead room socket_ app objects labels)

theorem runOf_start : RunOf mgz dead room socket_ app objects [] (.start socket_ objects) where
  reads := ⟨by simp [Program.start, Process.start], fun _ _ => rfl⟩
  points := Process.points_start app _ socket_
  follows := Process.follows_start mgz _ socket_

/-- A step that leaves the process but for its descriptors. -/
theorem RunOf.of_process (h : RunOf mgz dead room socket_ app objects labels g) {l : ProgramLabel}
    (hl : ∀ i, l.readOf i = none) {kernel : Kernel}
    (hprocess : g'.process = { g.process with kernel }) :
    RunOf mgz dead room socket_ app objects (labels ++ [l]) g' where
  reads := by
    rw [hprocess]
    simp only [List.filterMap_append, List.filterMap_cons, hl, List.filterMap_nil, List.append_nil]
    exact ⟨h.reads.clients, h.reads.unborn⟩
  points := by
    rw [hprocess]
    refine ⟨h.points.data, fun i t d ht hd => ?_⟩
    refine (h.points.copied i t d ht hd).imp_right ?_
    rintro ⟨d', hd', heq⟩
    exact ⟨d', List.mem_append_left _ hd', heq⟩
  follows := by
    rw [hprocess]
    exact fun i t ht => (h.follows i t ht).mono fun _ _ _ hanswered => hanswered.append l

/-- One more step of the program. -/
theorem RunOf.next (hrun : labels.foldlM (Program.next mgz dead room socket_ app)
      (.start socket_ objects) = some g)
    (h : RunOf mgz dead room socket_ app objects labels g) {l : ProgramLabel}
    (hnext : g.next mgz dead room socket_ app l = some g') :
    RunOf mgz dead room socket_ app objects (labels ++ [l]) g' := by
  obtain ⟨-, ⟨pl, q, rfl, hprocess, rfl⟩ | ⟨rfl, rfl⟩ | ⟨j, rfl, -, rfl⟩ | ⟨j, _, rfl, -, -, rfl⟩ |
    ⟨j, rfl, -, -, rfl⟩ | ⟨j, rfl, -, rfl⟩⟩ := Program.next_cases hnext
  · refine ⟨?_, ?_, ?_⟩
    · have hreads := h.reads.next hprocess
      simp only [List.filterMap_append]
      exact hreads
    · refine h.points.next hprocess ?_ (fun _ => .inl rfl) ?_
      · intro i a ha
        refine ha.imp_right ?_
        rintro ⟨d, hd, heq⟩
        exact ⟨d, List.mem_append_left _ hd, heq⟩
      · rintro i d rfl
        exact .inr ⟨d, by simp, rfl⟩
    · have hbefore : g.process.Follows mgz
          (AnsweredIn mgz dead room socket_ app objects (labels ++ [.process pl])) :=
        fun i t ht => (h.follows i t ht).mono fun _ _ _ hanswered => hanswered.append _
      refine hbefore.next hprocess ?_
      rintro i own fs fds t d rfl ht hd
      exact ⟨labels, fds, [], g, t, d, rfl, hrun, ht, hd, rfl⟩
  · exact h.of_process (fun _ => rfl) rfl
  -- `quit` closes at most a descriptor
  · rcases g.process_quit socket_ with heq | ⟨-, heq⟩
    · exact h.of_process (fun _ => rfl) heq
    · exact h.of_process (fun _ => rfl) heq
  · exact h.of_process (fun _ => rfl) rfl
  · exact h.of_process (fun _ => rfl) rfl
  · exact h.of_process (fun _ => rfl) rfl

/-- In every run of the program, a thread that has ended has the outcome that `clientThread` tells
for its own reads: those of its labels. If it was not reset, memory and file system are those of the
step in which it has computed its answer, and the call is what its pointer stood for at that step,
which is the pointer `app` of the server unless the thread has begun behind `run`. -/
theorem outcome_of_run
    (h : labels.foldlM (Program.next mgz dead room socket_ app) (.start socket_ objects) = some g)
    {i : ℕ} {t : Client (Option ℕ)} (ht : g.process.clients[i]? = some t) {ending : Ending}
    (hphase : t.phase = .ended ending) :
    t.reads = labels.filterMap (ProgramLabel.readOf i) ∧
    (∀ d, t.copied = some d → PointsIn app labels i d.app) ∧
    t.HasOutcome mgz (AnsweredIn mgz dead room socket_ app objects labels i) ending := by
  have hrun : RunOf mgz dead room socket_ app objects labels g :=
    TransitionSystem.run_induction runOf_start
      (fun _ _ _ _ hbefore hrun hnext => hrun.next hbefore hnext) h
  exact ⟨hrun.reads.clients i t ht, fun d hd => hrun.points.copied i t d ht hd,
    (hrun.follows i t ht).outcome hphase⟩

end Run

/-- `accept` fails, and the thread of the first client, which begins behind `run`, finds no pointer
in the record. -/
def strayLabels : List ProgramLabel :=
  [.process (.accept 4 ⟨80, []⟩), .process .write, .process .create,
    .process (.accept (-1) ⟨0, []⟩),
    .process (.stray 0 { connection := ⟨0, 4, ⟨80, []⟩⟩, app := none }),
    .process (.thread 0 (.read .failed))]

theorem outcome_of_run_stray :
    let objects : Heap Object := Std.ExtTreeMap.insert ∅ 1 (.layer .error404 none)
    let dead : ℕ → Middleware := fun _ env => pure env.response
    ∃ g t, strayLabels.foldlM (Program.next .plain dead 2 3 (some 1)) (.start 3 objects) = some g ∧
      g.process.clients[0]? = some t ∧
      t.reads = strayLabels.filterMap (ProgramLabel.readOf 0) ∧
      (∀ d, t.copied = some d → PointsIn (some 1) strayLabels 0 d.app) ∧
      t.HasOutcome .plain (AnsweredIn .plain dead 2 3 (some 1) objects strayLabels 0)
        .returned := by
  intro objects dead
  have h : strayLabels.foldlM (Program.next .plain dead 2 3 (some 1)) (.start 3 objects) =
      some _ := rfl
  exact ⟨_, _, h, rfl, outcome_of_run h rfl rfl⟩

end Lhs.Server
