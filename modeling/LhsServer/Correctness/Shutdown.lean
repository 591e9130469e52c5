import LhsServer.Correctness.Objects
import LhsServer.Correctness.Resets
import LhsServer.Correctness.Routing
import LhsServer.Server.Shutdown

/-!
# What the end of the program does to the threads

- `represents_main`, `delete_main`: the objects of `main` stand for the tree of `mainStack`;
  deleting the outermost leaves `about` behind;
- `outcome_of_orderly`: when `app` is deleted only once, behind `run`, and behind the calls of all
  threads, which have all begun in time, each thread does what `clientThread` does with the tree;
- `call_of_deleted`: otherwise a thread can call an object that is not alive, and write what comes
  of it;
- `two_signals`: when a second signal comes, `app` can be deleted twice.
-/

namespace Lhs

open Bytes Http Middleware

/-! ## The objects of the program -/

section Objects

variable {mgz : Mgz} {sort : List (Mapping ℕ) → List (Mapping ℕ)} {a u e s : ℕ}
  {objects : Heap Object}

/-- The objects that `main` has built, and nothing else, are alive. -/
theorem getElem?_mainObjects (h : mainObjects mgz sort a u e s = some objects) (b : ℕ) :
    objects[b]? =
      if b = s then some (.layer (.staticFile (.new true StaticFile.currentDirectory)) (some e))
      else if b = e then some (.layer .error404 (some u))
      else if b = u then some (.urlmap (Urlmap.remap mgz sort [(str "/about", some a)]))
      else if b = a then some (.app about none) else none := by
  simp only [mainObjects, Option.bind_eq_bind, Option.bind_eq_some_iff, Heap.new_eq_some_iff] at h
  obtain ⟨_, ⟨-, rfl⟩, _, ⟨-, rfl⟩, _, ⟨-, rfl⟩, -, rfl⟩ := h
  simp only [Heap.getElem?_insert, Std.ExtTreeMap.getElem?_empty]

/-- The addresses are different. -/
theorem nodup_of_mainObjects (h : mainObjects mgz sort a u e s = some objects) :
    [s, e, u, a].Nodup := by
  simp only [mainObjects, Option.bind_eq_bind, Option.bind_eq_some_iff, Heap.new_eq_some_iff] at h
  obtain ⟨_, ⟨-, rfl⟩, _, ⟨hu, rfl⟩, _, ⟨he, rfl⟩, hs, -⟩ := h
  simp only [Heap.getElem?_insert_eq_none_iff] at hu he hs
  simp [hu.1, he.1, he.2.1, hs.1, hs.2.1, hs.2.2.1]

/-- Each object of `main` is alive at its address. -/
theorem alive_of_mainObjects (h : mainObjects mgz sort a u e s = some objects) :
    objects[s]? =
        some (.layer (.staticFile (.new true StaticFile.currentDirectory)) (some e)) ∧
      objects[e]? = some (.layer .error404 (some u)) ∧
      objects[u]? = some (.urlmap (Urlmap.remap mgz sort [(str "/about", some a)])) ∧
      objects[a]? = some (.app about none) := by
  have hnodup := nodup_of_mainObjects h
  simp only [List.nodup_cons, List.mem_cons, List.not_mem_nil, or_false, not_or] at hnodup
  obtain ⟨⟨hse, hsu, hsa⟩, ⟨heu, hea⟩, hua, -⟩ := hnodup
  simp only [getElem?_mainObjects h, Ne.symm hse, Ne.symm hsu, Ne.symm hsa, Ne.symm heu,
    Ne.symm hea, Ne.symm hua, if_true, if_false, and_self]

/-- The table of the program has one entry, whatever `std::sort` does. -/
theorem remap_singleton (mgz : Mgz) (hsort : Urlmap.SortsMappings sort) (key : Bytes)
    (app : Option ℕ) : Urlmap.remap mgz sort [(key, app)] = [Urlmap.mappingOf mgz key app] := by
  simp only [Urlmap.remap, List.foldl_cons, List.foldl_nil, List.nil_append]
  exact List.perm_singleton.mp (hsort _).1

/-- The objects of `main` stand for the tree of `mainStack`. -/
theorem represents_main (mem : Memory) (hsort : Urlmap.SortsMappings sort)
    (h : mainObjects mgz sort a u e s = some objects) :
    ∃ stack, Represents mgz mem objects (some s) stack ∧
      stack.middleware mgz mem = (mainStack mgz sort).middleware mgz mem := by
  obtain ⟨hstatic, herror, hurlmap, habout⟩ := alive_of_mainObjects h
  have happ : Represents mgz mem objects (some a)
      (.app (about (Stack.null.middleware mgz mem))) := .app habout .null
  have htable : Represents mgz mem objects (some u)
      (.urlmap (Urlmap.remap mgz sort [(str "/about", some a)]) fun _ =>
        .app (about (Stack.null.middleware mgz mem))) := by
    refine .urlmap hurlmap fun m hm b hb => ?_
    rw [remap_singleton mgz hsort, List.mem_singleton] at hm
    rw [hm] at hb
    obtain rfl := Option.some.inj hb
    exact happ
  refine ⟨_, .layer hstatic (.layer herror htable), ?_⟩
  simp only [Stack.middleware, mainStack, mainLayers, List.foldr_cons, List.foldr_nil,
    remap_singleton mgz hsort]
  rfl

/-- Deleting `app` ends the life of the layers and of the `urlmap`, and leaves `about`. -/
theorem delete_main (h : mainObjects mgz sort a u e s = some objects) :
    ∃ objects', deleteAt objects (some s) = some objects' ∧
      ∀ b, objects'[b]? = if b = a then some (.app about none) else none := by
  obtain ⟨hstatic, herror, hurlmap, habout⟩ := alive_of_mainObjects h
  have hchain : Heap.Chain Object.app_ objects (some s) [s, e, u] :=
    .cons hstatic (.cons herror (.cons hurlmap .nil))
  have hnodup := nodup_of_mainObjects h
  simp only [List.nodup_cons, List.mem_cons, List.not_mem_nil, or_false, not_or] at hnodup
  refine ⟨_, hchain.delete, fun b => ?_⟩
  rw [Heap.getElem?_without, getElem?_mainObjects h]
  simp only [List.mem_cons, List.not_mem_nil, or_false]
  by_cases hb : b = s ∨ b = e ∨ b = u
  · rw [if_pos hb, if_neg]
    rintro rfl
    rcases hb with rfl | rfl | rfl
    · exact hnodup.1.2.2 rfl
    · exact hnodup.2.1.2 rfl
    · exact hnodup.2.2.1 rfl
  · rw [if_neg hb]
    simp only [not_or] at hb
    simp only [hb.1, hb.2.1, hb.2.2, if_false]

end Objects

/-- The objects of `main` at the addresses 1 to 4. -/
theorem delete_main_addresses :
    ∃ objects objects', mainObjects .regex Urlmap.stableSort 1 2 3 4 = some objects ∧
      deleteAt objects (some 4) = some objects' ∧
        ∀ b, objects'[b]? = if b = 1 then some (.app about none) else none := by
  have hnew : ∃ objects, mainObjects .regex Urlmap.stableSort 1 2 3 4 = some objects := ⟨_, rfl⟩
  obtain ⟨objects, h⟩ := hnew
  obtain ⟨objects', hdelete, hleft⟩ := delete_main h
  exact ⟨objects, objects', h, hdelete, hleft⟩

namespace Server

/-! ## One step -/

namespace Program

variable {mgz : Mgz} {dead : ℕ → Http.Middleware} {room : ℕ} {socket_ : ℤ} {app : Option ℕ}
  {g g' : Program}

theorem live_iff : g.live = true ↔ g.process.running = true ∧ g.ended = none := by
  rw [live, Bool.and_eq_true, Option.isNone_iff_eq_none]

/-- Everything a step of the program can do. -/
theorem next_cases {l : ProgramLabel} (h : g.next mgz dead room socket_ app l = some g') :
    g.live = true ∧
    ((∃ pl q, l = .process pl ∧
      g.process.next mgz (g.called mgz dead room) app pl = some q ∧
      g' = { g with process := q, leaving := g.leaving ++ pl.leaving }) ∨
    (l = .signal ∧ g' = { g with leaving := g.leaving ++ [.quit] }) ∨
    (∃ j, l = .leave j ∧ g.leaving[j]? = some .quit ∧
      g' = { g.quit socket_ with leaving := g.leaving.set j .delete }) ∨
    (∃ j objects, l = .leave j ∧ g.leaving[j]? = some .delete ∧
      deleteAt g.objects app = some objects ∧
      g' = { g with objects, leaving := g.leaving.set j .exit }) ∨
    (∃ j, l = .leave j ∧ g.leaving[j]? = some .delete ∧ deleteAt g.objects app = none ∧
      g' = { g with ended := some .undefined }) ∨
    (∃ j, l = .leave j ∧ g.leaving[j]? = some .exit ∧ g' = { g with ended := some .exited })) := by
  cases l with
  | process pl =>
    simp only [next] at h
    split at h
    · next hlive =>
      obtain ⟨q, hq, rfl⟩ := Option.map_eq_some_iff.mp h
      exact ⟨hlive, .inl ⟨pl, q, rfl, hq, rfl⟩⟩
    · cases h
  | signal =>
    simp only [next] at h
    split at h
    · next hlive => exact ⟨hlive, .inr (.inl ⟨rfl, (Option.some.inj h).symm⟩)⟩
    · cases h
  | leave j =>
    simp only [next] at h
    split at h
    · next hlive hquit =>
      refine ⟨hlive, ?_⟩
      right; right; left
      exact ⟨j, rfl, hquit, (Option.some.inj h).symm⟩
    · next hlive hdelete =>
      refine ⟨hlive, ?_⟩
      right; right; right
      split at h
      · next objects hobjects =>
        exact .inl ⟨j, objects, rfl, hdelete, hobjects, (Option.some.inj h).symm⟩
      · next hundefined =>
        exact .inr (.inl ⟨j, rfl, hdelete, hundefined, (Option.some.inj h).symm⟩)
    · next hlive hexit =>
      refine ⟨hlive, ?_⟩
      right; right; right; right; right
      exact ⟨j, rfl, hexit, (Option.some.inj h).symm⟩
    · cases h

/-- `quit` leaves the objects alone. -/
theorem objects_quit (g : Program) : (g.quit socket_).objects = g.objects := by
  rw [quit]
  split <;> rfl

/-- `quit` does not end the program. -/
theorem ended_quit (g : Program) : (g.quit socket_).ended = g.ended := by
  rw [quit]
  split <;> rfl

/-- `quit` changes nothing in the process but its descriptors. -/
theorem process_quit (socket_ : ℤ) (g : Program) :
    (g.quit socket_).process = g.process ∨
      0 < socket_ ∧
        (g.quit socket_).process = { g.process with kernel := g.process.kernel.close socket_ } := by
  rw [quit]
  split
  · next hpos => exact .inr ⟨hpos, rfl⟩
  · exact .inl rfl

/-- `quit` leaves the threads alone. -/
theorem clients_quit (socket_ : ℤ) (g : Program) :
    (g.quit socket_).process.clients = g.process.clients := by
  rcases process_quit socket_ g with h | ⟨-, h⟩ <;> rw [h]

end Program

/-! ## The pointers in the threads -/

section Points

variable {App : Type} {mgz : Mgz} {called : Memory → App → Option Http.Middleware} {app : App}
  {p p' : Process App} {l : ProcessLabel App} {ok ok' : ℕ → App → Prop}

/-- The record holds the app of the server, and the copies in the threads hold pointers that are
`ok`. -/
structure Process.Points (app : App) (ok : ℕ → App → Prop) (p : Process App) : Prop where
  data : ∀ d, p.data = some d → d.app = app
  copied : ∀ i t d, p.clients[i]? = some t → t.copied = some d → ok i d.app

/-- Before the first connection there are no pointers. -/
theorem Process.points_start (app : App) (ok : ℕ → App → Prop) (socket_ : ℤ) :
    (Process.start socket_).Points app ok where
  data := by simp [start]
  copied := by simp [start]

/-- A thread in the place of another one. -/
theorem Process.Points.set (hp : p.Points app ok) {i : ℕ} {t t' : Client App}
    (ht : p.clients[i]? = some t) (ht' : ∀ d, t'.copied = some d → ok i d.app) {j : ℕ}
    {u : Client App} {d : ServerData App} (hu : (p.clients.set i t')[j]? = some u)
    (hd : u.copied = some d) : ok j d.app := by
  by_cases hij : i = j
  · subst hij
    rw [List.getElem?_set_self (List.getElem?_eq_some_iff.mp ht).1, Option.some.injEq] at hu
    exact ht' d (hu ▸ hd)
  · rw [List.getElem?_set_ne hij] at hu
    exact hp.copied j u d hu hd

/-- A thread gets its pointer in its first step: that of the server, or behind `run` any pointer. -/
theorem Process.Points.next (hp : p.Points app ok) (h : p.next mgz called app l = some p')
    (hok : ∀ i a, ok i a → ok' i a) (happ : ∀ i, ok' i app)
    (hstray : ∀ i d, l = .stray i d → ok' i d.app) : p'.Points app ok' := by
  have hp' : p.Points app ok' := ⟨hp.data, fun i t d ht hd => hok i _ (hp.copied i t d ht hd)⟩
  obtain ⟨-, ⟨_, _, -, -, -, -, rfl⟩ | ⟨_, _, _, -, -, -, -, -, rfl⟩ | ⟨c, -, -, -, rfl⟩ |
    ⟨c, -, -, -, rfl⟩ | ⟨i, t, -, -, ht, -, rfl⟩ | ⟨i, t, d, rfl, -, ht, -, rfl⟩ |
    ⟨i, action, t, d, t', kernel, -, ht, hcopied, hnext, rfl⟩⟩ := next_cases h
  · exact ⟨hp'.data, hp'.copied⟩
  · exact ⟨hp'.data, hp'.copied⟩
  -- write
  · refine ⟨?_, hp'.copied⟩
    rintro d ⟨⟩
    rfl
  -- create
  · refine ⟨hp'.data, fun i t d ht hd => ?_⟩
    have ht : (p.clients ++ [Client.start c])[i]? = some t := ht
    rw [List.getElem?_append] at ht
    split at ht
    · exact hp'.copied i t d ht hd
    · rw [List.getElem?_singleton, Option.ite_none_right_eq_some] at ht
      rw [← Option.some.inj ht.2] at hd
      cases hd
  -- the first step of a thread
  · refine ⟨hp'.data, fun j u d hu hd => hp'.set ht (fun d hd => ?_) hu hd⟩
    rw [hp.data d hd]
    exact happ i
  · refine ⟨hp'.data, fun j u e hu he => hp'.set ht (fun e he => ?_) hu he⟩
    obtain rfl := Option.some.inj he
    exact hstray i d rfl
  -- a later step
  · refine ⟨hp'.data, fun j u e hu he => hp'.set ht (fun e he => ?_) hu he⟩
    rw [Client.toThread_next hnext, hcopied] at he
    obtain rfl := Option.some.inj he
    exact hp'.copied i t d ht hcopied

end Points

/-! ## An orderly end -/

/-- The thread has made its first step, and is behind its call. -/
def Client.Served {App : Type} (t : Client App) : Prop :=
  t.copied ≠ none ∧ ∀ buffer, t.phase ≠ .reading buffer ∧ t.phase ≠ .serving buffer

/-- A thread behind its call stays there, and makes no other one. -/
theorem Client.Served.next {App : Type} {mgz : Mgz} {call : Memory → Option Http.Middleware}
    {sockfd : ℤ} {t t' : Client App} {kernel kernel' : Kernel} {action : Action} (ht : t.Served)
    (h : t.next mgz call sockfd kernel action = some (t', kernel')) :
    t'.Served ∧ ∀ own fs fds, action ≠ .answer own fs fds := by
  obtain ⟨hcopied, hphase⟩ := ht
  rcases next_cases h with ⟨buffer, _, -, hreading, -, -⟩ |
    ⟨_, _, _, buffer, -, hserving, -, -, -⟩ | ⟨data, result, rfl, -, -, rfl⟩ |
    ⟨data, rfl, -, -, -, rfl⟩ | ⟨rfl, -, -, rfl⟩
  · exact absurd hreading (hphase buffer).1
  · exact absurd hserving (hphase buffer).2
  · refine ⟨⟨hcopied, fun buffer => ?_⟩, by simp⟩
    dsimp only
    split <;> simp
  · exact ⟨⟨hcopied, by simp⟩, by simp⟩
  · exact ⟨⟨hcopied, by simp⟩, by simp⟩

/-- When `run` has been left, and all threads are behind their calls, they stay there. -/
theorem Process.served_next {App : Type} {mgz : Mgz}
    {called : Memory → App → Option Http.Middleware} {app : App} {p q : Process App}
    {l : ProcessLabel App} (hinRun : p.inRun = false) (hserved : ∀ t ∈ p.clients, t.Served)
    (h : p.next mgz called app l = some q) :
    q.inRun = false ∧ (∀ t ∈ q.clients, t.Served) ∧
      ∀ i own fs fds, l ≠ .thread i (.answer own fs fds) := by
  obtain ⟨-, ⟨_, _, -, hin, -⟩ | ⟨_, _, _, -, hin, -⟩ | ⟨_, -, hin, -⟩ | ⟨_, -, hin, -⟩ |
    ⟨_, _, -, hin, -⟩ | ⟨i, t, d, -, -, ht, hcopied, -⟩ |
    ⟨i, action, t, d, t', kernel, rfl, ht, -, hnext, rfl⟩⟩ := next_cases h
  · cases hinRun.symm.trans hin
  · cases hinRun.symm.trans hin
  · cases hinRun.symm.trans hin
  · cases hinRun.symm.trans hin
  · cases hinRun.symm.trans hin
  · exact absurd hcopied (hserved t (List.mem_of_getElem? ht)).1
  · obtain ⟨ht', haction⟩ := (hserved t (List.mem_of_getElem? ht)).next hnext
    refine ⟨hinRun, fun u hu => ?_, ?_⟩
    · rcases List.mem_or_eq_of_mem_set hu with hu | rfl
      · exact hserved u hu
      · exact ht'
    · rintro _ own fs fds ⟨⟩
      exact haction own fs fds rfl

/-- The condition on a step: no thread makes its first step behind `run`, and `app` is deleted
behind `run` and behind the calls of all threads, and only while it is alive. -/
def Program.Orderly (app : Option ℕ) (g : Program) : ProgramLabel → Prop
  | .process (.stray _ _) => False
  | .process _ => True
  | .signal => True
  | .leave j => g.leaving[j]? = some .delete →
    g.process.inRun = false ∧ (∀ t ∈ g.process.clients, t.Served) ∧
      ∀ a, app = some a → g.objects[a]? ≠ none

/-- The invariant of the orderly runs: the objects are as `main` has built them as long as a thread
can call them. -/
structure ShutdownInv (app : Option ℕ) (objects : Heap Object) (g : Program) : Prop where
  points : g.process.Points app fun _ a => a = app
  objects : g.objects = objects ∨ g.process.inRun = false ∧
    (∀ t ∈ g.process.clients, t.Served) ∧ ∀ a, app = some a → g.objects[a]? = none
  defined : ∀ e, g.ended = some e → e = .exited

section Orderly

variable {mgz : Mgz} {dead : ℕ → Http.Middleware} {room : ℕ} {socket_ : ℤ} {app : Option ℕ}
  {objects : Heap Object} {tree : Memory → Option Http.Middleware} {g g' : Program}

/-- `main` calls `run` with its objects as it has built them. -/
theorem shutdownInv_start (app : Option ℕ) (objects : Heap Object) (socket_ : ℤ) :
    ShutdownInv app objects (.start socket_ objects) where
  points := Process.points_start app _ socket_
  objects := .inl rfl
  defined := by simp [Program.start]

/-- A call is one of the tree, since the objects are as they were. -/
theorem ShutdownInv.answersWith (hg : ShutdownInv app objects g)
    (hroom : ∀ own, app.map (callAt mgz own dead objects room) = tree own)
    {pl : ProcessLabel (Option ℕ)} {q : Process (Option ℕ)}
    (h : g.process.next mgz (g.called mgz dead room) app pl = some q) :
    g.process.AnswersWith (g.called mgz dead room) (fun _ own _ call => call = tree own) pl := by
  rintro i own fs fds t d rfl ht hcopied
  rcases hg.objects with hobjects | ⟨hinRun, hserved, -⟩
  · rw [Program.called, hg.points.copied i t d ht hcopied, hobjects, hroom]
  -- behind the end of the objects there are no calls
  · exact absurd rfl ((Process.served_next hinRun hserved h).2.2 i own fs fds)

/-- Every orderly step keeps the objects for the calls that are still to come. -/
theorem ShutdownInv.next (hg : ShutdownInv app objects g)
    (hchain : ∃ as, Heap.Chain Object.app_ objects app as) {l : ProgramLabel}
    (h : g.next mgz dead room socket_ app l = some g') (horderly : g.Orderly app l) :
    ShutdownInv app objects g' := by
  obtain ⟨-, ⟨pl, q, rfl, hnext, rfl⟩ | ⟨-, rfl⟩ | ⟨j, -, -, rfl⟩ |
    ⟨j, objects', rfl, hdelete, hobjects', rfl⟩ | ⟨j, rfl, hdelete, hnone, rfl⟩ |
    ⟨j, -, -, rfl⟩⟩ := Program.next_cases h
  -- a step of the process
  · refine ⟨?_, ?_, hg.defined⟩
    · refine hg.points.next hnext (fun _ _ h => h) (fun _ => rfl) ?_
      rintro i d rfl
      exact horderly.elim
    · rcases hg.objects with hobjects | ⟨hinRun, hserved, hdead⟩
      · exact .inl hobjects
      · obtain ⟨hinRun', hserved', -⟩ := Process.served_next hinRun hserved hnext
        exact .inr ⟨hinRun', hserved', hdead⟩
  · exact ⟨hg.points, hg.objects, hg.defined⟩
  -- `quit`
  · refine ⟨?_, ?_, ?_⟩
    · rcases g.process_quit socket_ with heq | ⟨-, heq⟩
      · exact heq ▸ hg.points
      · rw [heq]
        exact ⟨hg.points.data, hg.points.copied⟩
    · rw [Program.objects_quit]
      rcases g.process_quit socket_ with heq | ⟨-, heq⟩
      · rw [heq]
        exact hg.objects
      · rw [heq]
        exact hg.objects
    · rw [Program.ended_quit]
      exact hg.defined
  -- `delete`
  · obtain ⟨hinRun, hserved, halive⟩ := horderly hdelete
    refine ⟨hg.points, .inr ⟨hinRun, hserved, fun a ha => ?_⟩, hg.defined⟩
    subst ha
    obtain ⟨as, has, rfl⟩ := Heap.delete_eq_some_iff.mp hobjects'
    cases has with
    | cons _ _ => rw [Heap.getElem?_without, if_pos List.mem_cons_self]
  -- an undefined `delete`
  · obtain ⟨-, -, halive⟩ := horderly hdelete
    exfalso
    rcases hg.objects with hobjects | ⟨-, -, hdead⟩
    · obtain ⟨as, has⟩ := hchain
      rw [hobjects, deleteAt, has.delete] at hnone
      cases hnone
    · cases happ : app with
      | none =>
        rw [happ, deleteAt, Heap.delete_none] at hnone
        cases hnone
      | some a => exact halive a happ (hdead a happ)
  · refine ⟨hg.points, hg.objects, ?_⟩
    rintro e ⟨⟩
    rfl

/-- So does every orderly run. -/
theorem shutdownInv_of_reachable (hchain : ∃ as, Heap.Chain Object.app_ objects app as)
    (hg : ((program mgz dead room socket_ app objects).guard (Program.Orderly app)).Reachable g) :
    ShutdownInv app objects g := by
  have hinv : ((program mgz dead room socket_ app objects).guard
      (Program.Orderly app)).Invariant (ShutdownInv app objects) := by
    refine ⟨?_, fun g l g' hg h => hg.next hchain h.1 h.2⟩
    rintro g rfl
    exact shutdownInv_start app objects socket_
  exact hinv.reachable hg

/-- The threads do what they do with the tree. -/
theorem follows_of_orderly (hchain : ∃ as, Heap.Chain Object.app_ objects app as)
    (hroom : ∀ own, app.map (callAt mgz own dead objects room) = tree own)
    (hg : ((program mgz dead room socket_ app objects).guard (Program.Orderly app)).Reachable g) :
    g.process.Follows mgz fun _ own _ call => call = tree own := by
  refine TransitionSystem.Reachable.of_relative (J := ShutdownInv app objects)
    (I := fun g => g.process.Follows mgz fun _ own _ call => call = tree own) ?_ ?_ ?_ hg
  · intro g hg
    exact shutdownInv_of_reachable hchain hg
  · rintro g rfl
    exact Process.follows_start mgz _ socket_
  · rintro g l g' hshutdown hfollows ⟨hnext, -⟩
    obtain ⟨-, ⟨pl, q, rfl, hprocess, rfl⟩ | ⟨-, rfl⟩ | ⟨j, -, -, rfl⟩ | ⟨j, _, -, -, -, rfl⟩ |
      ⟨j, -, -, -, rfl⟩ | ⟨j, -, -, rfl⟩⟩ := Program.next_cases hnext
    · exact hfollows.next hprocess (hshutdown.answersWith hroom hprocess)
    · exact hfollows
    · intro i t ht
      rw [Program.clients_quit] at ht
      exact hfollows i t ht
    · exact hfollows
    · exact hfollows
    · exact hfollows

/-- When `app` is deleted only behind `run`, behind the calls of all threads and while it is alive,
and no thread begins behind `run`, then nothing is deleted that is not alive, and each thread that
has ended has an outcome that `clientThread` tells for the tree of objects as `main` has built
it. -/
theorem outcome_of_orderly {stack : Memory → Stack}
    (hstack : ∀ own, Represents mgz own objects app (stack own)) (dead : ℕ → Http.Middleware)
    (socket_ : ℤ) :
    ∃ least, ∀ room, least ≤ room → ∀ g,
      ((program mgz dead room socket_ app objects).guard (Program.Orderly app)).Reachable g →
      (∀ e, g.ended = some e → e = .exited) ∧
      ∀ t ∈ g.process.clients, ∀ ending, t.phase = .ended ending →
        ∃ own fs socketWrite,
          clientThread mgz own ((stack own).middleware mgz own) fs t.reads socketWrite =
            { ending, closes := t.closes, written := t.written } := by
  obtain ⟨least, hleast⟩ := Filter.eventually_atTop.mp (Represents.eventually_call_all hstack dead)
  refine ⟨least, fun room hroom g hg => ?_⟩
  have hchain := (hstack .zero).exists_chain
  refine ⟨(shutdownInv_of_reachable hchain hg).defined, fun t ht ending hphase => ?_⟩
  obtain ⟨i, hi⟩ := List.mem_iff_getElem?.mp ht
  have hfollows := follows_of_orderly hchain (hleast room hroom) hg
  rcases (hfollows i t hi).outcome hphase with ⟨-, houtcome⟩ |
    ⟨own, fs, call, socketWrite, rfl, houtcome⟩
  · exact ⟨.zero, .ofFiles [], fun _ => 0, houtcome _ _ _ _⟩
  · exact ⟨own, fs, socketWrite, houtcome⟩

end Orderly

/-- The objects of `main`. -/
theorem outcome_of_orderly_main :
    ∃ objects, mainObjects .regex Urlmap.stableSort 1 2 3 4 = some objects ∧
      ∃ least, ∀ room, least ≤ room → ∀ g,
        ((program .regex (fun _ env => pure env.response) room 3 (some 4) objects).guard
          (Program.Orderly (some 4))).Reachable g →
        (∀ e, g.ended = some e → e = .exited) ∧
        ∀ t ∈ g.process.clients, ∀ ending, t.phase = .ended ending →
          ∃ own fs socketWrite,
            clientThread .regex own
                ((mainStack .regex Urlmap.stableSort).middleware .regex own) fs t.reads
                socketWrite =
              { ending, closes := t.closes, written := t.written } := by
  have hobjects : mainObjects .regex Urlmap.stableSort 1 2 3 4 = some _ := rfl
  choose stack hstack htree using fun own => represents_main own Urlmap.stableSort_sorts hobjects
  simp only [← htree]
  exact ⟨_, hobjects, outcome_of_orderly hstack _ 3⟩

/-! ## Other ends -/

section Leaving

variable {mgz : Mgz} {dead : ℕ → Http.Middleware} {room : ℕ} {socket_ : ℤ}
  {objects objects' : Heap Object} {g : Program} {a : ℕ}

/-- A signal comes, and `terminate` gets as far as `delete`. -/
theorem Program.leads_delete (hlive : g.live = true) (mgz : Mgz) (dead : ℕ → Http.Middleware)
    (room : ℕ) (socket_ : ℤ) (app : Option ℕ) (objects : Heap Object) :
    ∃ (g' : Program) (j : ℕ), (program mgz dead room socket_ app objects).Leads g g' ∧
      g'.live = true ∧ g'.objects = g.objects ∧ g'.process.clients = g.process.clients ∧
      g'.leaving[j]? = some Leaving.delete := by
  let j := g.leaving.length
  let g₁ : Program := { g with leaving := g.leaving ++ [.quit] }
  let g₂ : Program := { g₁.quit socket_ with leaving := g₁.leaving.set j .delete }
  have hsignal : g.next mgz dead room socket_ app .signal = some g₁ := if_pos hlive
  have hlive₁ : g₁.live = true := hlive
  have hquit : g₁.leaving[j]? = some .quit := by simp [g₁, j]
  have hleave : g₁.next mgz dead room socket_ app (.leave j) = some g₂ := by
    simp only [next, hlive₁, hquit, g₂]
  refine ⟨g₂, j, (TransitionSystem.Leads.single hsignal).tail ⟨_, hleave⟩, ?_,
    objects_quit g₁, clients_quit socket_ g₁, ?_⟩
  · rw [live_iff] at hlive ⊢
    refine ⟨?_, (ended_quit g₁).trans hlive.2⟩
    rcases g₁.process_quit socket_ with heq | ⟨-, heq⟩ <;>
    · simp only [g₂, heq]
      exact hlive.1
  · simp [g₂, g₁, j]

/-- From every state in which `app` is alive, a signal leads to its end, whatever the threads are
doing. -/
theorem Program.leads_deleted (hlive : g.live = true)
    (hdelete : deleteAt g.objects (some a) = some objects') (mgz : Mgz)
    (dead : ℕ → Http.Middleware) (room : ℕ) (socket_ : ℤ) (objects : Heap Object) :
    ∃ g', (program mgz dead room socket_ (some a) objects).Leads g g' ∧ g'.live = true ∧
      g'.objects[a]? = none ∧ g'.process.clients = g.process.clients := by
  obtain ⟨g₁, j, hleads, hlive₁, hobjects, hclients, hleaving⟩ :=
    Program.leads_delete hlive mgz dead room socket_ (some a) objects
  rw [← hobjects] at hdelete
  let g₂ : Program := { g₁ with objects := objects', leaving := g₁.leaving.set j .exit }
  have hleave : g₁.next mgz dead room socket_ (some a) (.leave j) = some g₂ := by
    simp only [next, hlive₁, hleaving, hdelete, g₂]
  refine ⟨g₂, hleads.tail ⟨_, hleave⟩, hlive₁, ?_, hclients⟩
  obtain ⟨as, has, rfl⟩ := Heap.delete_eq_some_iff.mp hdelete
  cases has with
  | cons _ _ => exact (Heap.getElem?_without _ a).trans (if_pos List.mem_cons_self)

/-- From every state in which a thread with the pointer `app` has read its message, a signal leads
to one in which the thread is about to write what comes of a call of an object that is not
alive. -/
theorem call_of_deleted (hlive : g.live = true)
    (hdelete : deleteAt g.objects (some a) = some objects') {i : ℕ} {t : Client (Option ℕ)}
    (ht : g.process.clients[i]? = some t) {d : ServerData (Option ℕ)} (hcopied : t.copied = some d)
    (hpointer : d.app = some a) {buffer : Bytes} (hphase : t.phase = .serving buffer)
    {own : Memory} {fs : FileSystem} {data : Bytes}
    (hdata : (answer mgz own (some (dead a)) buffer).value fs = .ok data) :
    ∃ g' t', (program mgz dead room socket_ (some a) objects).Leads g g' ∧
      g'.process.clients[i]? = some t' ∧ t'.phase = .writing data := by
  obtain ⟨g₁, hleads, hlive₁, hdead, hclients⟩ :=
    Program.leads_deleted hlive hdelete mgz dead room socket_ objects
  have hcalled : g₁.called mgz dead room own d.app = some (dead a) := by
    rw [Program.called, hpointer, Option.map_some, callAt_of_dead dead hdead]
  obtain ⟨fds, kernel, hlength, hfds⟩ := g₁.process.kernel.exists_opendirs
    (((answer mgz own (some (dead a)) buffer).trace fs).countP (opensDirectory fs))
  let t' : Client (Option ℕ) := { t with phase := .writing data, opened := t.opened ++ fds }
  have hnext : t.next mgz (g₁.called mgz dead room · d.app) d.connection.sockfd g₁.process.kernel
      (.answer own fs fds) = some (t', kernel) := by
    simp only [Client.next, hphase, hcalled, if_pos hlength, hfds, hdata, Option.map_some,
      Phase.afterAnswer, t']
  have ht₁ : g₁.process.clients[i]? = some t := by rw [hclients, ht]
  let q : Process (Option ℕ) :=
    { g₁.process with clients := g₁.process.clients.set i t', kernel, running := !t'.stopped }
  have hthread : g₁.process.next mgz (g₁.called mgz dead room) (some a)
      (.thread i (.answer own fs fds)) = some q :=
    Process.next_thread (Program.live_iff.mp hlive₁).1 ht₁ hcopied hnext
  have hstep : g₁.next mgz dead room socket_ (some a) (.process (.thread i (.answer own fs fds))) =
      some { g₁ with process := q, leaving := g₁.leaving ++ [] } := by
    rw [Program.next, if_pos hlive₁, hthread]
    rfl
  refine ⟨_, t', hleads.tail ⟨_, hstep⟩, List.getElem?_set_self ?_, rfl⟩
  exact (List.getElem?_eq_some_iff.mp ht₁).1

/-- From every state in which `app` is alive, two signals lead to undefined behaviour. -/
theorem two_signals (hlive : g.live = true)
    (hdelete : deleteAt g.objects (some a) = some objects') :
    ∃ g', (program mgz dead room socket_ (some a) objects).Leads g g' ∧
      g'.ended = some .undefined := by
  obtain ⟨g₁, hleads₁, hlive₁, hdead, -⟩ :=
    Program.leads_deleted hlive hdelete mgz dead room socket_ objects
  obtain ⟨g₂, j, hleads₂, hlive₂, hobjects, -, hleaving⟩ :=
    Program.leads_delete hlive₁ mgz dead room socket_ (some a) objects
  have hundefined : deleteAt g₂.objects (some a) = none := by
    rw [hobjects]
    exact Heap.delete_of_dead hdead
  have hleave : g₂.next mgz dead room socket_ (some a) (.leave j) =
      some { g₂ with ended := some .undefined } := by
    simp only [Program.next, hlive₂, hleaving, hundefined]
  exact ⟨_, (hleads₁.trans hleads₂).tail ⟨_, hleave⟩, rfl⟩

end Leaving

/-- The signal comes when the thread has read its message. -/
theorem call_of_deleted_error404 :
    let objects : Heap Object := Std.ExtTreeMap.insert ∅ 1 (.layer .error404 none)
    let dead : ℕ → Http.Middleware := fun _ env => pure { env.response with code := 200 }
    let server := program .plain dead 2 3 (some 1) objects
    ∃ g data, server.Reachable g ∧
      (answer .plain .zero (some (dead 1)) (str "GET / HTTP/1.0\n\n")).value (.ofFiles []) =
        .ok data ∧
      ∃ g' t', server.Leads g g' ∧ g'.process.clients[0]? = some t' ∧
        t'.phase = .writing data := by
  intro objects dead server
  have hg : server.Reachable _ := .of_run [.process (.accept 4 ⟨80, []⟩), .process .write,
    .process .create, .process (.first 0),
    .process (.thread 0 (.read (.received (str "GET / HTTP/1.0\n\n") (by decide))))] rfl
  obtain ⟨data, hdata⟩ : ∃ data, (answer .plain .zero (some (dead 1))
      (str "GET / HTTP/1.0\n\n")).value (.ofFiles []) = .ok data := ⟨_, rfl⟩
  have hdelete : deleteAt objects (some 1) = some _ :=
    Heap.Chain.delete (.cons (o := .layer .error404 none) rfl .nil)
  exact ⟨_, data, hg, hdata, call_of_deleted rfl hdelete rfl rfl rfl rfl hdata⟩

/-- Two signals before the first client. -/
theorem two_signals_start :
    let objects : Heap Object := Std.ExtTreeMap.insert ∅ 1 (.layer .error404 none)
    ∃ g', (program .plain (fun _ env => pure env.response) 2 3 (some 1) objects).Leads
      (.start 3 objects) g' ∧ g'.ended = some .undefined := by
  intro objects
  have hdelete : deleteAt objects (some 1) = some _ :=
    Heap.Chain.delete (.cons (o := .layer .error404 none) rfl .nil)
  exact two_signals rfl hdelete

end Server

end Lhs
