import LhsServer.Server.Run

/-!
# The hand-off of connections to threads

Every iteration of the accept loop writes its connection into the same record, and a started
thread reads that record only in its first step. The hand-off is right as long as the record is
never overwritten while a started thread has yet to read it (`RecordRead`):

- `handsOver_of_guarded`: in every run whose steps meet that condition, each thread obtains the
  connection it was started for, and no connection is lost or picked up twice;
- `handOff_fails`: without the condition two threads can pick up one connection, while another
  connection is picked up by none;
- `overwrite_of_pending`: whenever the condition is not met, the next steps go wrong.
-/

namespace Lhs.Server

variable {App : Type}

namespace State

/-! ## What the hand-off is to achieve -/

/-- Thread `i` has picked up the connection `c`. -/
def PickedUp (s : State App) (i : ℕ) (c : Connection) : Prop :=
  ∃ t d, s.threads[i]? = some t ∧ t.copied = some d ∧ d.connection = c

/-- The main loop is between two iterations, and every thread has made its first step. -/
def Settled (s : State App) : Prop := s.main = .accept ∧ ∀ t ∈ s.threads, t.copied ≠ none

/-- Every connection reaches the thread that was started for it. -/
structure HandsOver (s : State App) : Prop where
  /-- each thread obtains the connection for which it was started -/
  own : ∀ t ∈ s.threads, ∀ d, t.copied = some d → d.connection = t.startedFor
  /-- no connection is picked up by two threads -/
  once : ∀ i j c, s.PickedUp i c → s.PickedUp j c → i = j
  /-- no accepted connection is left over once every thread has made its first step -/
  all : s.Settled → ∀ c ∈ s.accepted, ∃! i, s.PickedUp i c

/-- The condition on a step: the record is written only when every started thread has read it. -/
def RecordRead (s : State App) (l : Label) : Prop :=
  l = .write → ∀ t ∈ s.threads, t.copied ≠ none

instance (s : State App) (l : Label) : Decidable (s.RecordRead l) :=
  inferInstanceAs (Decidable (_ → _))

/-! ## One step -/

/-- Everything a step can do. -/
theorem next_cases {app : App} {s s' : State App} {l : Label} (h : s.next app l = some s') :
    (∃ sockfd client, l = .accept sockfd client ∧ s.main = .accept ∧
      s' = { s with
        main := .write { number := s.accepted.length, sockfd, client }
        accepted := s.accepted ++ [{ number := s.accepted.length, sockfd, client }] }) ∨
    (∃ c, l = .write ∧ s.main = .write c ∧
      s' = { s with main := .create c, data := some { connection := c, app } }) ∨
    (∃ c, l = .create ∧ s.main = .create c ∧
      s' = { s with
        main := .accept, threads := s.threads ++ [{ startedFor := c, copied := none }] }) ∨
    (∃ i c, l = .first i ∧ s.threads[i]? = some { startedFor := c, copied := none } ∧
      s' = { s with threads := s.threads.set i { startedFor := c, copied := s.data } }) := by
  cases l with
  | accept sockfd client =>
    left
    simp only [next] at h
    split at h
    · rename_i hmain
      exact ⟨sockfd, client, rfl, hmain, (Option.some.inj h).symm⟩
    · cases h
  | write =>
    right; left
    simp only [next] at h
    split at h
    · rename_i c hmain
      exact ⟨c, rfl, hmain, (Option.some.inj h).symm⟩
    · cases h
  | create =>
    right; right; left
    simp only [next] at h
    split at h
    · rename_i c hmain
      exact ⟨c, rfl, hmain, (Option.some.inj h).symm⟩
    · cases h
  | first i =>
    right; right; right
    simp only [next] at h
    split at h
    · rename_i c hthread
      exact ⟨i, c, rfl, hthread, (Option.some.inj h).symm⟩
    · cases h

/-! ## The invariant -/

/-- The connection the main loop is about to hand over. -/
def inFlight : MainLoop → List Connection
  | .accept => []
  | .write c => [c]
  | .create c => [c]

/-- The invariant of the guarded runs. -/
structure HandOffInv (app : App) (s : State App) : Prop where
  /-- connections are numbered in the order in which they are accepted -/
  numbers : s.accepted.map (·.number) = List.range s.accepted.length
  /-- a thread is started for every connection but the one in flight -/
  started : s.accepted = s.threads.map (·.startedFor) ++ inFlight s.main
  /-- the record holds the connection the next thread is started for -/
  created : ∀ c, s.main = .create c → s.data = some { connection := c, app }
  /-- the record holds the connection of every thread that has yet to read it -/
  pending : ∀ t ∈ s.threads, t.copied = none → s.data = some { connection := t.startedFor, app }
  /-- every thread that has read the record has its own connection -/
  own : ∀ t ∈ s.threads, ∀ d, t.copied = some d → d = { connection := t.startedFor, app }

/-- At the start no connection is on its way. -/
theorem handOffInv_start (app : App) : HandOffInv app start where
  numbers := rfl
  started := rfl
  created := by simp [start]
  pending := by simp [start]
  own := by simp [start]

/-- A thread of a list in which thread `i` was replaced is the new one or an old one. -/
private theorem mem_set_threads {threads : List (Thread App)} {i : ℕ} {t t' : Thread App}
    (h : t ∈ threads.set i t') : t = t' ∨ t ∈ threads :=
  (List.mem_or_eq_of_mem_set h).symm

/-- The first step of a thread leaves the connection it was started for as it is. -/
private theorem map_startedFor_set {threads : List (Thread App)} {i : ℕ} {t : Thread App}
    (ht : threads[i]? = some t) (copied : Option (ServerData App)) :
    (threads.set i { t with copied }).map (·.startedFor) = threads.map (·.startedFor) := by
  obtain ⟨hi, rfl⟩ := List.getElem?_eq_some_iff.mp ht
  have hlt : i < (threads.map (·.startedFor)).length := by simpa using hi
  have hget : threads[i].startedFor = (threads.map (·.startedFor))[i] := by
    rw [List.getElem_map]
  rw [List.map_set, hget, List.set_getElem_self]

/-- Every step keeps each connection on its way to its thread. -/
theorem handOffInv_step {app : App} {s s' : State App} {l : Label} (hs : HandOffInv app s)
    (h : s.next app l = some s') (hguard : s.RecordRead l) : HandOffInv app s' := by
  rcases next_cases h with ⟨sockfd, client, rfl, hmain, rfl⟩ | ⟨c, rfl, hmain, rfl⟩ |
    ⟨c, rfl, hmain, rfl⟩ | ⟨i, c, rfl, hthread, rfl⟩
  -- accept: the new connection is in flight
  · have hstarted := hs.started
    rw [hmain] at hstarted
    refine ⟨?_, ?_, ?_, hs.pending, hs.own⟩
    · simp [hs.numbers, List.range_succ]
    · simpa [inFlight] using hstarted
    · simp
  -- write: no thread is left that has yet to read the record
  · have hstarted := hs.started
    rw [hmain] at hstarted
    refine ⟨hs.numbers, hstarted, ?_, ?_, hs.own⟩
    · rintro c' hc'
      cases hc'
      rfl
    · intro t ht hnone
      exact absurd hnone (hguard rfl t ht)
  -- create: the record still holds the connection of the new thread
  · have hstarted := hs.started
    rw [hmain] at hstarted
    have hdata := hs.created c hmain
    refine ⟨hs.numbers, ?_, ?_, ?_, ?_⟩
    · simpa [inFlight] using hstarted
    · simp
    · intro t ht hnone
      rcases List.mem_append.mp ht with ht | ht
      · exact hs.pending t ht hnone
      · rw [List.mem_singleton.mp ht]
        exact hdata
    · intro t ht d hd
      rcases List.mem_append.mp ht with ht | ht
      · exact hs.own t ht d hd
      · rw [List.mem_singleton.mp ht] at hd
        cases hd
  -- first: the thread copies its own connection
  · have hmem := List.mem_of_getElem? hthread
    have hdata := hs.pending _ hmem rfl
    refine ⟨hs.numbers, ?_, hs.created, ?_, ?_⟩
    · rw [map_startedFor_set hthread s.data]
      exact hs.started
    · intro t ht hnone
      rcases mem_set_threads ht with rfl | ht
      · rw [hdata] at hnone
        cases hnone
      · exact hs.pending t ht hnone
    · intro t ht d hd
      rcases mem_set_threads ht with rfl | ht
      · rw [hdata] at hd
        exact (Option.some.inj hd).symm
      · exact hs.own t ht d hd

/-- So do the guarded runs. -/
theorem handOffInv_invariant (app : App) :
    ((run app).guard RecordRead).Invariant (HandOffInv app) where
  init := by
    rintro s rfl
    exact handOffInv_start app
  step _ _ _ hs hstep := handOffInv_step hs hstep.1 hstep.2

/-! ## What the invariant gives -/

section HandOffInv

variable {app : App} {s : State App} (hs : HandOffInv app s)

include hs

/-- No connection gets two threads. -/
theorem nodup_startedFor : (s.threads.map (·.startedFor)).Nodup := by
  -- the numbers are distinct, and with them the connections
  have haccepted : s.accepted.Nodup :=
    List.Nodup.of_map (·.number) (hs.numbers ▸ List.nodup_range)
  rw [hs.started] at haccepted
  exact haccepted.of_append_left

/-- A thread picks up the connection it was started for. -/
theorem startedFor_of_pickedUp {i : ℕ} {c : Connection} (h : s.PickedUp i c) :
    (s.threads.map (·.startedFor))[i]? = some c := by
  obtain ⟨t, d, ht, hd, hc⟩ := h
  have hown := hs.own t (List.mem_of_getElem? ht) d hd
  rw [List.getElem?_map, ht, ← hc, hown]
  rfl

/-- No connection is picked up twice. -/
theorem pickedUp_unique (i j : ℕ) (c : Connection) (hi : s.PickedUp i c)
    (hj : s.PickedUp j c) : i = j := by
  have hic := startedFor_of_pickedUp hs hi
  have hjc := startedFor_of_pickedUp hs hj
  obtain ⟨hlt, -⟩ := List.getElem?_eq_some_iff.mp hic
  exact (List.getElem?_inj hlt (nodup_startedFor hs)).mp (hic.trans hjc.symm)

/-- When all threads have begun, each connection was picked up. -/
theorem exists_pickedUp (hsettled : s.Settled) {c : Connection} (hc : c ∈ s.accepted) :
    ∃ i, s.PickedUp i c := by
  obtain ⟨hmain, hcopied⟩ := hsettled
  -- between two iterations no connection is in flight: a thread was started for each
  rw [hs.started, hmain, inFlight, List.append_nil] at hc
  obtain ⟨t, ht, rfl⟩ := List.mem_map.mp hc
  obtain ⟨i, hi⟩ := List.mem_iff_getElem?.mp ht
  obtain ⟨d, hd⟩ := Option.ne_none_iff_exists'.mp (hcopied t ht)
  exact ⟨i, t, d, hi, hd, by rw [hs.own t ht d hd]⟩

/-- The invariant says that connections reach their threads. -/
theorem HandOffInv.handsOver : s.HandsOver where
  own t ht d hd := by rw [hs.own t ht d hd]
  once := pickedUp_unique hs
  all hsettled c hc := by
    obtain ⟨i, hi⟩ := exists_pickedUp hs hsettled hc
    exact ⟨i, hi, fun j hj => pickedUp_unique hs j i c hj hi⟩

end HandOffInv

/-- In every run in which the record is written only when every started thread has read it, each
connection reaches the thread that was started for it. -/
theorem handsOver_of_guarded (app : App) {s : State App}
    (h : ((run app).guard RecordRead).Reachable s) : s.HandsOver :=
  ((handOffInv_invariant app).reachable h).handsOver

/-- Two connections, the second accepted after the first thread has read the record. -/
theorem handsOver_twoConnections :
    ∃ s, [Label.accept 4 ⟨80, []⟩, .write, .create, .first 0, .accept 5 ⟨80, []⟩, .write,
        .create].foldlM (State.next ()) start = some s ∧ s.HandsOver := by
  refine ⟨_, rfl, handsOver_of_guarded () (.of_guarded_run [.accept 4 ⟨80, []⟩, .write, .create,
    .first 0, .accept 5 ⟨80, []⟩, .write, .create] rfl)⟩

/-! ## Overwriting the record -/

/-- From a state in which the record is about to be overwritten while thread `i` has yet to read
it, the write and the first step of the thread lead to a state in which that thread has the
connection of another one. -/
theorem overwrite_of_pending (app : App) {s : State App} {c c' : Connection} {i : ℕ}
    (hmain : s.main = .write c) (hthread : s.threads[i]? = some ⟨c', none⟩) (hne : c ≠ c') :
    ∃ s', [Label.write, .first i].foldlM (State.next app) s = some s' ∧ ¬s'.HandsOver := by
  have hi := (List.getElem?_eq_some_iff.mp hthread).1
  refine ⟨{ s with
    main := .create c
    data := some { connection := c, app }
    threads := s.threads.set i { startedFor := c', copied := some { connection := c, app } } },
    ?_, ?_⟩
  · simp [next, hmain, hthread]
  · intro hover
    exact hne (hover.own ⟨c', some ⟨c, app⟩⟩ (List.mem_set hi _) _ rfl)

/-- Two connections are accepted before the first thread reads the record: both threads pick up the
second connection, and none the first. -/
theorem handOff_fails :
    ∃ s, (run ()).Reachable s ∧ s.Settled ∧ ¬s.HandsOver ∧
      (∃ c, s.PickedUp 0 c ∧ s.PickedUp 1 c) ∧ ∃ c ∈ s.accepted, ∀ i, ¬s.PickedUp i c := by
  let c₀ : Connection := ⟨0, 4, ⟨80, []⟩⟩
  let c₁ : Connection := ⟨1, 5, ⟨80, []⟩⟩
  let s : State Unit :=
    { main := .accept
      accepted := [c₀, c₁]
      data := some ⟨c₁, ()⟩
      threads := [⟨c₀, some ⟨c₁, ()⟩⟩, ⟨c₁, some ⟨c₁, ()⟩⟩] }
  have hreach : (run ()).Reachable s :=
    .of_run [.accept 4 ⟨80, []⟩, .write, .create, .accept 5 ⟨80, []⟩, .write, .create,
      .first 0, .first 1] rfl
  have h0 : s.PickedUp 0 c₁ := ⟨⟨c₀, some ⟨c₁, ()⟩⟩, ⟨c₁, ()⟩, rfl, rfl, rfl⟩
  have h1 : s.PickedUp 1 c₁ := ⟨⟨c₁, some ⟨c₁, ()⟩⟩, ⟨c₁, ()⟩, rfl, rfl, rfl⟩
  have hcopied : ∀ t ∈ s.threads, t.copied = some ⟨c₁, ()⟩ := by simp [s]
  refine ⟨s, hreach, ⟨rfl, by simp [s]⟩, fun hover => ?_, ⟨c₁, h0, h1⟩, c₀, by simp [s], ?_⟩
  -- two threads have the second connection
  · exact absurd (hover.once 0 1 c₁ h0 h1) (by decide)
  -- whatever a thread has copied is the second connection
  · rintro i ⟨t, d, ht, hd, hc⟩
    rw [hcopied t (List.mem_of_getElem? ht)] at hd
    cases hd
    exact absurd hc (by decide)

end State

end Lhs.Server
