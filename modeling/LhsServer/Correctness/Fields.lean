import LhsServer.Correctness.HandOff
import LhsServer.Server.Fields

/-!
# The hand-off field by field

That the record is written and read in one step each, as `Server.Run` has it, is no restriction as
long as no field is written while a started thread has yet to read one of them.

- `FieldInv`: the invariant of these runs, on the values of the single fields;
- `simulates_fields`: they are runs of the system in which the record is copied as a whole;
- `copied_of_guarded`: each thread gets the fields of its own connection, and no mixture;
- `torn_of_pending`: a thread that is overtaken by the next iteration can get the descriptor of one
  client and the address of another.
-/

namespace Lhs.Server

open Bytes

variable {This App : Type} {this : This} {app : App}

/-! ## What a record holds -/

/-- The record of a connection. -/
def Fields.ofConnection (this : This) (app : App) (c : Connection) : Fields This App :=
  { server := some this, connection := some (c.number, c.sockfd), app := some app
    client := some c.client }

/-- The record as a whole, once its fields are there. -/
def Fields.record (data : Fields This App) : Option (ServerData App) :=
  match data with
  | { server := _, connection := some (number, sockfd), app := some app, client := some client } =>
    some { connection := { number, sockfd, client }, app }
  | _ => none

@[simp] theorem Fields.record_ofConnection (c : Connection) :
    (Fields.ofConnection this app c).record = some { connection := c, app } := rfl

/-- The fields assigned before this one have the values of the connection. -/
def NextWrite.Assigned (this : This) (app : App) (c : Connection) (data : Fields This App) :
    NextWrite → Prop
  | .server => True
  | .connection => data.server = some this
  | .app => data.server = some this ∧ data.connection = some (c.number, c.sockfd)
  | .client =>
    data.server = some this ∧ data.connection = some (c.number, c.sockfd) ∧ data.app = some app

/-- What a thread has copied before this read, when the record does not change. -/
def NextRead.copied (data : Fields This App) : NextRead → Fields This App
  | .server => .blank
  | .connection => { server := data.server, connection := none, app := none, client := none }
  | .client =>
    { server := data.server, connection := data.connection, app := none, client := none }
  | .app => { data with app := none }
  | .done => data

/-! ## One step -/

/-- Where the main loop is after an assignment. -/
def NextWrite.after (c : Connection) : NextWrite → FieldLoop
  | .server => .write c .connection
  | .connection => .write c .app
  | .app => .write c .client
  | .client => .create c

/-- The assignment to one field. -/
def NextWrite.assign (this : This) (app : App) (c : Connection) (data : Fields This App) :
    NextWrite → Fields This App
  | .server => { data with server := some this }
  | .connection => { data with connection := some (c.number, c.sockfd) }
  | .app => { data with app := some app }
  | .client => { data with client := some c.client }

/-- Everything a step can do. -/
theorem FieldState.next_cases {s s' : FieldState This App} {l : FieldLabel}
    (h : s.next this app l = some s') :
    (∃ sockfd client, l = .accept sockfd client ∧ s.main = .accept ∧
      s' = { s with
        main := .write { number := s.accepted.length, sockfd, client } .server
        accepted := s.accepted ++ [{ number := s.accepted.length, sockfd, client }] }) ∨
    (∃ c field, l = .write ∧ s.main = .write c field ∧
      s' = { s with main := field.after c, data := field.assign this app c s.data }) ∨
    (∃ c, l = .create ∧ s.main = .create c ∧
      s' = { s with
        main := .accept
        threads := s.threads ++ [{ startedFor := c, field := .server, copied := .blank }] }) ∨
    (∃ i t t', l = .read i ∧ s.threads[i]? = some t ∧ t.read s.data = some t' ∧
      s' = { s with threads := s.threads.set i t' }) := by
  cases l with
  | accept sockfd client =>
    left
    simp only [next] at h
    split at h
    · rename_i hmain
      exact ⟨sockfd, client, rfl, hmain, (Option.some.inj h).symm⟩
    · cases h
  | write =>
    right; left
    simp only [next] at h
    -- one case for each field
    split at h
    all_goals first | cases h; done | skip
    all_goals
      rename_i c hmain
      exact ⟨c, _, rfl, hmain, (Option.some.inj h).symm⟩
  | create =>
    right; right; left
    simp only [next] at h
    split at h
    · rename_i c hmain
      exact ⟨c, rfl, hmain, (Option.some.inj h).symm⟩
    · cases h
  | read i =>
    right; right; right
    simp only [next] at h
    split at h
    · rename_i t ht
      obtain ⟨t', hread, rfl⟩ := Option.map_eq_some_iff.mp h
      exact ⟨i, t, t', rfl, ht, hread, rfl⟩
    · cases h

/-- A thread that has read all fields reads no more. -/
theorem FieldThread.field_ne_done_of_read {data : Fields This App} {t t' : FieldThread This App}
    (h : t.read data = some t') : t.field ≠ .done := by
  intro hdone
  rw [read, hdone] at h
  cases h

/-- A read of a thread that has copied what the record holds leads to such a thread again. -/
theorem FieldThread.copied_read {data : Fields This App} {t t' : FieldThread This App}
    (h : t.read data = some t') (ht : t.copied = t.field.copied data) :
    t'.startedFor = t.startedFor ∧ t'.copied = t'.field.copied data := by
  obtain ⟨startedFor, field, copied⟩ := t
  dsimp only at ht
  subst ht
  cases field with
  | done => cases h
  | server => cases h; exact ⟨rfl, rfl⟩
  | connection => cases h; exact ⟨rfl, rfl⟩
  | client => cases h; exact ⟨rfl, rfl⟩
  | app => cases h; exact ⟨rfl, rfl⟩

/-! ## The invariant -/

/-- The condition on a step: no field is assigned while a started thread has yet to read one. -/
def FieldState.RecordRead (s : FieldState This App) (l : FieldLabel) : Prop :=
  l = .write → ∀ t ∈ s.threads, t.field = .done

instance FieldState.decidableRecordRead (s : FieldState This App) (l : FieldLabel) :
    Decidable (s.RecordRead l) :=
  inferInstanceAs (Decidable (_ → _))

/-- The invariant of the guarded runs. -/
structure FieldInv (this : This) (app : App) (s : FieldState This App) : Prop where
  /-- the record holds the fields of the new connection that were assigned so far -/
  assigned : ∀ c field, s.main = .write c field → field.Assigned this app c s.data
  /-- from the second assignment on every thread has read the record -/
  quiet : ∀ c field, s.main = .write c field → field ≠ .server → ∀ t ∈ s.threads, t.field = .done
  created : ∀ c, s.main = .create c → s.data = .ofConnection this app c
  /-- the record holds the connection of every thread that has yet to read one of its fields -/
  pending : ∀ t ∈ s.threads, t.field ≠ .done →
    s.data = .ofConnection this app t.startedFor ∧ t.copied = t.field.copied s.data
  own : ∀ t ∈ s.threads, t.field = .done → t.copied = .ofConnection this app t.startedFor

/-- Before the first connection there is nothing to keep. -/
theorem fieldInv_start : FieldInv this app .start where
  assigned := by simp [FieldState.start]
  quiet := by simp [FieldState.start]
  created := by simp [FieldState.start]
  pending := by simp [FieldState.start]
  own := by simp [FieldState.start]

/-- An assignment leads on to the next one, or to the record of the connection. -/
theorem NextWrite.assigned_assign {c : Connection} {data : Fields This App} {field : NextWrite}
    (h : field.Assigned this app c data) :
    match field.after c with
    | .write c' field' => c' = c ∧ field'.Assigned this app c (field.assign this app c data)
    | .create c' => c' = c ∧ field.assign this app c data = .ofConnection this app c
    | .accept => False := by
  obtain ⟨server, connection, app', client⟩ := data
  cases field with
  | server => exact ⟨rfl, rfl⟩
  | connection => exact ⟨rfl, h, rfl⟩
  | app => exact ⟨rfl, h.1, h.2, rfl⟩
  | client =>
    obtain ⟨hserver, hconnection, happ⟩ := h
    dsimp only at hserver hconnection happ
    subst hserver hconnection happ
    exact ⟨rfl, rfl⟩

/-- A step keeps the record with the threads that are still to read it. -/
theorem fieldInv_step {s s' : FieldState This App} {l : FieldLabel} (hs : FieldInv this app s)
    (h : s.next this app l = some s') (hguard : s.RecordRead l) : FieldInv this app s' := by
  rcases FieldState.next_cases h with ⟨sockfd, client, rfl, hmain, rfl⟩ |
    ⟨c, field, rfl, hmain, rfl⟩ | ⟨c, rfl, hmain, rfl⟩ | ⟨i, t, t', rfl, ht, hread, rfl⟩
  -- accept: nothing is assigned yet
  · refine ⟨?_, ?_, by simp, hs.pending, hs.own⟩
    · rintro c field ⟨⟩
      trivial
    · rintro c field ⟨⟩ hne
      exact absurd rfl hne
  -- write: no thread is left that reads the record
  · have hdone := hguard rfl
    have hnext := NextWrite.assigned_assign (hs.assigned c field hmain)
    refine ⟨?_, fun _ _ _ _ => hdone, ?_, ?_, hs.own⟩
    · intro c' field' hmain'
      rw [show field.after c = .write c' field' from hmain'] at hnext
      obtain ⟨rfl, hassigned⟩ := hnext
      exact hassigned
    · intro c' hmain'
      rw [show field.after c = .create c' from hmain'] at hnext
      obtain ⟨rfl, hfull⟩ := hnext
      exact hfull
    · intro t ht hne
      exact absurd (hdone t ht) hne
  -- create: the new thread finds its connection in the record
  · refine ⟨by simp, by simp, by simp, ?_, ?_⟩
    · intro t ht hne
      rcases List.mem_append.mp ht with ht | ht
      · exact hs.pending t ht hne
      · rw [List.mem_singleton.mp ht]
        exact ⟨hs.created c hmain, rfl⟩
    · intro t ht hdone
      rcases List.mem_append.mp ht with ht | ht
      · exact hs.own t ht hdone
      · rw [List.mem_singleton.mp ht] at hdone
        cases hdone
  -- read: the thread copies a field of its own connection
  · have hmem := List.mem_of_getElem? ht
    have hundone := FieldThread.field_ne_done_of_read hread
    obtain ⟨hdata, hcopied⟩ := hs.pending t hmem hundone
    obtain ⟨hstarted, hcopied'⟩ := FieldThread.copied_read hread hcopied
    refine ⟨hs.assigned, ?_, hs.created, ?_, ?_⟩
    · intro c field hmain hne
      exact absurd (hs.quiet c field hmain hne t hmem) hundone
    · intro u hu hne
      rcases List.mem_or_eq_of_mem_set hu with hu | rfl
      · exact hs.pending u hu hne
      · rw [hstarted]
        exact ⟨hdata, hcopied'⟩
    · intro u hu hdone
      rcases List.mem_or_eq_of_mem_set hu with hu | rfl
      · exact hs.own u hu hdone
      · rw [hcopied', hdone, hstarted]
        exact hdata

theorem fieldInv_invariant (this : This) (app : App) :
    ((runFields this app).guard FieldState.RecordRead).Invariant (FieldInv this app) where
  init := by
    rintro s rfl
    exact fieldInv_start
  step _ _ _ hs hstep := fieldInv_step hs hstep.1 hstep.2

/-- In every run in which no field is assigned while a started thread has yet to read one, a thread
that has read the record has all fields of the connection it was started for. -/
theorem copied_of_guarded {s : FieldState This App}
    (h : ((runFields this app).guard FieldState.RecordRead).Reachable s) :
    ∀ t ∈ s.threads, t.field = .done → t.copied = .ofConnection this app t.startedFor :=
  ((fieldInv_invariant this app).reachable h).own

/-- A thread that has read the record while the next connection is accepted. -/
theorem copied_of_guarded_two :
    ∃ (s : FieldState Unit Unit) (t : FieldThread Unit Unit), s.threads[0]? = some t ∧
      t.field = .done ∧ s.main = .write ⟨1, 5, ⟨81, []⟩⟩ .app ∧
      ∀ t ∈ s.threads, t.field = .done → t.copied = .ofConnection () () t.startedFor := by
  have h : ((runFields () ()).guard FieldState.RecordRead).Reachable _ :=
    .of_guarded_run [.accept 4 ⟨80, []⟩, .write, .write, .write, .write, .create, .read 0, .read 0,
      .accept 5 ⟨81, []⟩, .read 0, .read 0, .write, .write] rfl
  exact ⟨_, _, rfl, rfl, rfl, copied_of_guarded h⟩

/-! ## The record as a whole -/

/-- A thread, without what it has read of the record as long as it has not read all of it. -/
def FieldThread.toThread (t : FieldThread This App) : Thread App :=
  { startedFor := t.startedFor, copied := if t.field = .done then t.copied.record else none }

/-- A thread that has yet to read a field has made no step of the coarse model. -/
theorem FieldThread.toThread_of_ne {t : FieldThread This App} (h : t.field ≠ .done) :
    t.toThread = { startedFor := t.startedFor, copied := none } := by
  rw [toThread, if_neg h]

/-- One that has read them all has copied the whole record. -/
theorem FieldThread.toThread_of_own {t : FieldThread This App} (h : t.field = .done)
    (hown : t.copied = .ofConnection this app t.startedFor) :
    t.toThread =
      { startedFor := t.startedFor, copied := some { connection := t.startedFor, app } } := by
  rw [toThread, if_pos h, hown, Fields.record_ofConnection]

/-- The main loop, when the last assignment is the one that counts. -/
def FieldLoop.toMainLoop : FieldLoop → MainLoop
  | .accept => .accept
  | .write c _ => .write c
  | .create c => .create c

theorem State.recordRead_of_ne {a : State App} {l : Label} (h : l ≠ .write) : a.RecordRead l :=
  fun hwrite => absurd hwrite h

/-- The state that matches a state between the assignments. -/
structure FieldState.Refines (this : This) (app : App) (s : FieldState This App) (a : State App) :
    Prop where
  main : a.main = s.main.toMainLoop
  accepted : a.accepted = s.accepted
  threads : a.threads = s.threads.map FieldThread.toThread
  fields : FieldInv this app s
  handOff : State.HandOffInv app a

/-- Copying the record field by field refines copying it as a whole: the last assignment and the
last read are the steps of the simpler system. -/
theorem simulates_fields (this : This) (app : App) :
    TransitionSystem.Simulation ((runFields this app).guard FieldState.RecordRead)
      ((run app).guard State.RecordRead) (FieldState.Refines this app) where
  init := by
    rintro s rfl
    exact ⟨.start, rfl, rfl, rfl, rfl, fieldInv_start, State.handOffInv_start app⟩
  step := by
    rintro s l s' a ⟨hmain, haccepted, hthreads, hfields, hhand⟩ ⟨hstep, hguard⟩
    have hfields' := fieldInv_step hfields hstep hguard
    rcases FieldState.next_cases hstep with ⟨sockfd, client, rfl, hloop, rfl⟩ |
      ⟨c, field, rfl, hloop, rfl⟩ | ⟨c, rfl, hloop, rfl⟩ | ⟨i, t, t', rfl, ht, hread, rfl⟩
    all_goals try rw [hloop] at hmain
    · have hnext : a.next app (.accept sockfd client) = some { a with
          main := .write { number := a.accepted.length, sockfd, client }
          accepted := a.accepted ++ [{ number := a.accepted.length, sockfd, client }] } := by
        simp [State.next, hmain, FieldLoop.toMainLoop]
      refine .inr ⟨_, _, ⟨hnext, State.recordRead_of_ne (by simp)⟩, ?_, ?_, hthreads, hfields',
        State.handOffInv_step hhand hnext (State.recordRead_of_ne (by simp))⟩
      · rw [haccepted]
        rfl
      · rw [haccepted]
    · by_cases hlast : field = .client
      -- the last assignment writes the record
      · subst hlast
        have hnext : a.next app .write =
            some { a with main := .create c, data := some { connection := c, app } } := by
          simp [State.next, hmain, FieldLoop.toMainLoop]
        have hcopied : ∀ thread ∈ a.threads, thread.copied ≠ none := by
          intro thread hthread
          rw [hthreads] at hthread
          obtain ⟨t, ht, rfl⟩ := List.mem_map.mp hthread
          have hdone := hguard rfl t ht
          rw [FieldThread.toThread_of_own hdone (hfields.own t ht hdone)]
          exact Option.some_ne_none _
        exact .inr ⟨_, _, ⟨hnext, fun _ => hcopied⟩, rfl, haccepted, hthreads, hfields',
          State.handOffInv_step hhand hnext fun _ => hcopied⟩
      -- the other ones are not seen
      · refine .inl ⟨?_, haccepted, hthreads, hfields', hhand⟩
        rw [hmain]
        cases field with
        | client => exact absurd rfl hlast
        | server => rfl
        | connection => rfl
        | app => rfl
    · have hnext : a.next app .create = some { a with
          main := .accept, threads := a.threads ++ [{ startedFor := c, copied := none }] } := by
        simp [State.next, hmain, FieldLoop.toMainLoop]
      refine .inr ⟨_, _, ⟨hnext, State.recordRead_of_ne (by simp)⟩, rfl, haccepted, ?_, hfields',
        State.handOffInv_step hhand hnext (State.recordRead_of_ne (by simp))⟩
      rw [hthreads, List.map_append]
      rfl
    · have hundone := FieldThread.field_ne_done_of_read hread
      obtain ⟨hi, hget⟩ := List.getElem?_eq_some_iff.mp ht
      obtain ⟨hdata, hcopied⟩ := hfields.pending t (List.mem_of_getElem? ht) hundone
      obtain ⟨hstarted, hcopied'⟩ := FieldThread.copied_read hread hcopied
      have hthread : a.threads[i]? = some { startedFor := t.startedFor, copied := none } := by
        rw [hthreads, List.getElem?_map, ht, Option.map_some, FieldThread.toThread_of_ne hundone]
      by_cases hdone : t'.field = .done
      -- the last read copies the record
      · have hrecord : a.data = some { connection := t.startedFor, app } :=
          hhand.pending _ (List.mem_of_getElem? hthread) rfl
        have hnext : a.next app (.first i) = some { a with
            threads := a.threads.set i { startedFor := t.startedFor, copied := a.data } } := by
          simp [State.next, hthread]
        refine .inr ⟨_, _, ⟨hnext, State.recordRead_of_ne (by simp)⟩, hmain, haccepted, ?_,
          hfields', State.handOffInv_step hhand hnext (State.recordRead_of_ne (by simp))⟩
        have hown : t'.copied = .ofConnection this app t'.startedFor := by
          rw [hcopied', hdone, hstarted]
          exact hdata
        rw [hthreads, hrecord, List.map_set, FieldThread.toThread_of_own hdone hown, hstarted]
      · refine .inl ⟨hmain, haccepted, ?_, hfields', hhand⟩
        have hlt : i < (s.threads.map FieldThread.toThread).length := by simpa using hi
        have hsame : t'.toThread = (s.threads.map FieldThread.toThread)[i] := by
          rw [List.getElem_map, hget, FieldThread.toThread_of_ne hdone,
            FieldThread.toThread_of_ne hundone, hstarted]
        rw [hthreads, List.map_set, hsame, List.set_getElem_self]

/-! ## A mixed record -/

/-- A read of one thread, while the record does not change. -/
theorem FieldState.leads_read (this : This) (app : App) {s : FieldState This App} {i : ℕ}
    (hi : i < s.threads.length) {t t' : FieldThread This App} (h : t.read s.data = some t') :
    (runFields this app).Leads { s with threads := s.threads.set i t }
      { s with threads := s.threads.set i t' } := by
  refine TransitionSystem.Leads.single (l := .read i) ?_
  have hget : (s.threads.set i t)[i]? = some t := List.getElem?_set_self hi
  show next this app _ (.read i) = _
  simp only [next, hget, h, Option.map_some, List.set_set]

/-- The thread behind the reads that are left to it, when the record does not change any more. -/
def FieldThread.finished (data : Fields This App) (t : FieldThread This App) :
    FieldThread This App :=
  match t.field with
  | .server => { t with field := .done, copied := data }
  | .connection => { t with field := .done, copied := { data with server := t.copied.server } }
  | .client =>
    { t with
      field := .done
      copied := { t.copied with client := data.client, app := data.app } }
  | .app => { t with field := .done, copied := { t.copied with app := data.app } }
  | .done => t

/-- The thread makes the reads that are left to it. -/
theorem FieldState.leads_finished (this : This) (app : App) {s : FieldState This App} {i : ℕ}
    {t : FieldThread This App} (ht : s.threads[i]? = some t) :
    (runFields this app).Leads s { s with threads := s.threads.set i (t.finished s.data) } := by
  obtain ⟨hi, hget⟩ := List.getElem?_eq_some_iff.mp ht
  have hread {t t' : FieldThread This App} (h : t.read s.data = some t') :=
    FieldState.leads_read this app hi h
  have hself : s.threads.set i t = s.threads := by
    rw [← hget]
    exact List.set_getElem_self _
  suffices h : (runFields this app).Leads { s with threads := s.threads.set i t }
      { s with threads := s.threads.set i (t.finished s.data) } by rwa [hself] at h
  obtain ⟨startedFor, field, copied⟩ := t
  cases field with
  | server => exact (((hread rfl).trans (hread rfl)).trans (hread rfl)).trans (hread rfl)
  | connection => exact ((hread rfl).trans (hread rfl)).trans (hread rfl)
  | client => exact (hread rfl).trans (hread rfl)
  | app => exact hread rfl
  | done => exact .refl

/-- In a run up to a state in which the next connection is about to be written while a thread has
yet to read the address of its client, the thread can get the descriptor of one of the two
connections and the address of the other: those of the new connection come last, or the descriptor
had been read before. -/
theorem torn_of_pending {s : FieldState This App}
    (hs : ((runFields this app).guard FieldState.RecordRead).Reachable s) {c : Connection} {i : ℕ}
    {t : FieldThread This App} (hmain : s.main = .write c .server) (ht : s.threads[i]? = some t)
    (hfield : t.field = .server ∨ t.field = .connection ∨ t.field = .client) :
    ∃ s' t', (runFields this app).Leads s s' ∧ s'.threads[i]? = some t' ∧ t'.field = .done ∧
      if t.field = .client then
        t'.copied.connection = some (t.startedFor.number, t.startedFor.sockfd) ∧
          t'.copied.client = some c.client
      else
        t'.copied.connection = some (c.number, c.sockfd) ∧
          t'.copied.client = some t.startedFor.client := by
  have hi := (List.getElem?_eq_some_iff.mp ht).1
  -- the record holds the connection of the thread, which has copied a part of it
  obtain ⟨hdata, hcopied⟩ := ((fieldInv_invariant this app).reachable hs).pending t
    (List.mem_of_getElem? ht) (by rintro hdone; simp [hdone] at hfield)
  split
  -- the descriptor has been read, and all four assignments come before the address is
  · next hclient =>
    let s₄ : FieldState This App := { s with main := .create c, data := .ofConnection this app c }
    have hwrites : (runFields this app).Leads s s₄ := by
      refine .of_run [.write, .write, .write, .write] ?_
      simp [FieldState.next, hmain, s₄, Fields.ofConnection]
    refine ⟨_, t.finished s₄.data, hwrites.trans (FieldState.leads_finished this app ht),
      List.getElem?_set_self hi, ?_⟩
    simp [FieldThread.finished, hclient, hcopied, hdata, NextRead.copied, s₄, Fields.ofConnection]
  -- the descriptor is assigned, and the address is not
  · next hclient =>
    let s₂ : FieldState This App :=
      { s with
        main := .write c .app
        data := { s.data with server := some this, connection := some (c.number, c.sockfd) } }
    have hwrites : (runFields this app).Leads s s₂ := by
      refine .of_run [.write, .write] ?_
      simp [FieldState.next, hmain, s₂]
    refine ⟨_, t.finished s₂.data, hwrites.trans (FieldState.leads_finished this app ht),
      List.getElem?_set_self hi, ?_⟩
    rcases hfield with hserver | hconnection | hread
    · simp [FieldThread.finished, hserver, hdata, s₂, Fields.ofConnection]
    · simp [FieldThread.finished, hconnection, hdata, s₂, Fields.ofConnection]
    · exact absurd hread hclient

/-- Two clients at different addresses: the thread of the first one serves the second one under the
address of the first, or the first one under the address of the second. -/
theorem torn_of_pending_two :
    ∃ s₁ s₂ : FieldState Unit Unit,
      (∃ s' t', (runFields () ()).Leads s₁ s' ∧ s'.threads[0]? = some t' ∧ t'.field = .done ∧
        t'.copied.connection = some (1, 5) ∧ t'.copied.client = some ⟨80, str "10.0.0.1"⟩) ∧
      ∃ s' t', (runFields () ()).Leads s₂ s' ∧ s'.threads[0]? = some t' ∧ t'.field = .done ∧
        t'.copied.connection = some (0, 4) ∧ t'.copied.client = some ⟨80, str "10.0.0.2"⟩ := by
  let c₀ : Connection := ⟨0, 4, ⟨80, str "10.0.0.1"⟩⟩
  let c₁ : Connection := ⟨1, 5, ⟨80, str "10.0.0.2"⟩⟩
  let thread (field : NextRead) : FieldThread Unit Unit :=
    { startedFor := c₀, field, copied := field.copied (.ofConnection () () c₀) }
  let overtaken (field : NextRead) : FieldState Unit Unit :=
    { main := .write c₁ .server
      accepted := [c₀, c₁]
      data := .ofConnection () () c₀
      threads := [thread field] }
  have h₁ : ((runFields () ()).guard FieldState.RecordRead).Reachable (overtaken .connection) :=
    .of_guarded_run [.accept 4 ⟨80, str "10.0.0.1"⟩, .write, .write, .write, .write, .create,
      .read 0, .accept 5 ⟨80, str "10.0.0.2"⟩] rfl
  have h₂ : ((runFields () ()).guard FieldState.RecordRead).Reachable (overtaken .client) :=
    .of_guarded_run [.accept 4 ⟨80, str "10.0.0.1"⟩, .write, .write, .write, .write, .create,
      .read 0, .read 0, .accept 5 ⟨80, str "10.0.0.2"⟩] rfl
  have htorn₁ := torn_of_pending h₁ (i := 0) (t := thread .connection) rfl rfl (.inr (.inl rfl))
  have htorn₂ := torn_of_pending h₂ (i := 0) (t := thread .client) rfl rfl (.inr (.inr rfl))
  exact ⟨overtaken .connection, overtaken .client, htorn₁, htorn₂⟩

end Lhs.Server
