import LhsServer.Correctness.Markup
import LhsServer.Server.Dates

/-!
# The dates of an index

Each row of an index is dated through the buffer that all calls of `gmtime` share.

- `IndexInv`: what the threads still have to do gives the index of `get_directory_content`, as long
  as no thread calls `gmtime` while another one has yet to read the buffer;
- `index_of_guarded`: under that condition the threads return what `get_directory_content` returns;
- `index_of_reachable`: without it they return what `get_directory_content` returns for some content
  of the buffer, so that the threads of `Server.Process` can answer in one step;
- `misdated_of_pending`: a thread can give an entry the date of an entry that another client has
  asked for.
-/

namespace Lhs.Middleware.StaticFile

open Bytes Http Html

variable (self : StaticFile) (mgz : Mgz) (mem : Memory) (fs : FileSystem)

/-- The row of an entry with this status, and with any date. -/
def datedRow (file : Bytes) (entry : EntryName) (status : Stat) (modifDate : Bytes) : IndexRow :=
  let isDir := isDirectoryAt fs (sysFile file entry)
  { image := cstr (if isDir then folderImage else fileImage)
    target := self.hrefOf file entry
    name := cstr entry.1
    date := modifDate
    size :=
      cstr (if isDir then str "-" else mgz.format (str "%.1fk") [.kilobytes status.stSize]) }

/-- The date of the modification that a status tells. -/
def dateOf (status : Stat) : Bytes := Calendar.strftime (Calendar.gmtime status.stMtime)

/-- The loop body, with its two calls apart. -/
theorem addEntry_eq (file result : Bytes) (entry : EntryName) :
    self.addEntry mgz mem file result entry =
      if entry.1 = str "." ∨ entry.1 = str ".." then pure result
      else OS.stat (sysFile file entry) >>= fun found =>
        let status := found.getD (mem.status (sysFile file entry))
        self.addRow mgz file result entry status (Calendar.strftime
          ((mem.tm (sysFile file entry)).getD (Calendar.gmtime status.stMtime))) := rfl

/-- The loop body behind `strftime` adds the row with that date. -/
theorem value_addRow (file result : Bytes) (entry : EntryName) (status : Stat)
    (modifDate : Bytes) :
    (self.addRow mgz file result entry status modifDate).value fs =
      .ok (result ++ (self.datedRow mgz fs file entry status modifDate).text mgz) := by
  simp only [addRow, Traced.value_bind, value_isDirectory, Traced.ok_bind, datedRow,
    IndexRow.text, hrefOf, sysFile]
  rcases Bool.eq_false_or_eq_true (isDirectoryAt fs (file ++ fileSeparator :: entry.1)) with
    hdir | hdir
  · simp only [hdir, if_true]
    rfl
  · simp only [hdir, Bool.false_eq_true, if_false]
    rfl

/-- What the loop returns from here on. -/
def indexFrom (file result : Bytes) (entries : List EntryName) : OS Bytes := do
  let result ← entries.foldlM (self.addEntry mgz mem file) result
  return result ++ indexFooter

/-- The rest of the loop adds the rows of the rest of the entries. -/
theorem value_indexFrom (file result : Bytes) (entries : List EntryName) :
    (self.indexFrom mgz mem file result entries).value fs =
      .ok (result ++ entries.flatMap (self.entryRow mgz mem fs file) ++ indexFooter) := by
  simp only [indexFrom, Traced.value_bind, value_foldlM_addEntry, Traced.ok_bind,
    Traced.value_pure]

/-- One pass, and the rest of the loop. -/
theorem value_indexFrom_cons (file result : Bytes) (entry : EntryName)
    (entries : List EntryName) :
    (self.indexFrom mgz mem file result (entry :: entries)).value fs =
      (do let result ← self.addEntry mgz mem file result entry
          self.indexFrom mgz mem file result entries).value fs := by
  simp only [indexFrom, List.foldlM_cons, Traced.value_bind, value_addEntry, Traced.ok_bind]

/-- The index is what the loop makes of its head. -/
theorem value_getDirectoryContent_indexFrom {file result : Bytes} {entries : List EntryName}
    (hhead : self.indexHead mgz file = .ok result) (h : fs.opendir (cstr file) = some entries) :
    (self.getDirectoryContent mgz mem file).value fs =
      (self.indexFrom mgz mem file result entries).value fs := by
  rw [value_getDirectoryContent _ _ _ _ hhead, h, value_indexFrom]

/-- Rows with different dates are different. -/
theorem date_of_text_eq {mgz : Mgz} (hformat : mgz.FormatsAsPrintf) (row : IndexRow)
    {date date' : Bytes}
    (h : ({ row with date } : IndexRow).text mgz =
      ({ row with date := date' } : IndexRow).text mgz) : date = date' := by
  rw [IndexRow.text_eq hformat, IndexRow.text_eq hformat] at h
  simpa [IndexRow.pieces, document, Piece.bytes] using h

end Lhs.Middleware.StaticFile

namespace Lhs.Server

open Bytes Middleware Middleware.StaticFile

variable {mgz : Mgz} {mem : Memory} {fs : FileSystem}

/-! ## One step -/

/-- The status that `get_directory_content` has of an entry. -/
def statusOf (mem : Memory) (fs : FileSystem) (file : Bytes) (entry : EntryName) : Stat :=
  (fs.stat (cstr (sysFile file entry))).getD (mem.status (sysFile file entry))

/-- Everything a step can do. -/
theorem IndexState.next_cases {s s' : IndexState} {l : IndexLabel}
    (h : s.next mgz mem fs l = some s') :
    (∃ layer file result entries, l = .opendir layer file ∧
      layer.indexHead mgz file = .ok result ∧ fs.opendir (cstr file) = some entries ∧
      s' = { s with threads := s.threads ++ [{ layer, file, phase := .readdir result entries }] }) ∨
    (∃ i t result, l = .readdir i ∧ s.threads[i]? = some t ∧ t.phase = .readdir result [] ∧
      s' = s.setPhase i t (.returned (result ++ indexFooter))) ∨
    (∃ i t result entry entries, l = .readdir i ∧ s.threads[i]? = some t ∧
      t.phase = .readdir result (entry :: entries) ∧ ¬isListed entry ∧
      s' = s.setPhase i t (.readdir result entries)) ∨
    (∃ i t result entry entries, l = .gmtime i ∧ s.threads[i]? = some t ∧
      t.phase = .readdir result (entry :: entries) ∧ isListed entry ∧
      s' = { s.setPhase i t (.strftime result entry (statusOf mem fs t.file entry) entries) with
        tm := Calendar.gmtime (statusOf mem fs t.file entry).stMtime }) ∨
    (∃ i t result entry status entries, l = .strftime i ∧ s.threads[i]? = some t ∧
      t.phase = .strftime result entry status entries ∧
      s' = s.setPhase i t (.readdir (result ++ (t.layer.datedRow mgz fs t.file entry status
        (Calendar.strftime s.tm)).text mgz) entries)) := by
  have hlisted : ∀ entry : EntryName,
      entry.1 = str "." ∨ entry.1 = str ".." ↔ ¬isListed entry := by
    simp [isListed, or_iff_not_imp_left]
  cases l with
  | opendir layer file =>
    left
    simp only [next] at h
    split at h
    · next result entries hhead hopen =>
      exact ⟨layer, file, result, entries, rfl, hhead, hopen, (Option.some.inj h).symm⟩
    · cases h
  | readdir i =>
    simp only [next, Option.bind_eq_bind, Option.bind_eq_some_iff] at h
    obtain ⟨t, ht, h⟩ := h
    split at h
    · next result hphase =>
      right; left
      exact ⟨i, t, result, rfl, ht, hphase, (Option.some.inj h).symm⟩
    · next result entry entries hphase =>
      right; right; left
      split at h
      · next hskip =>
        exact ⟨i, t, result, entry, entries, rfl, ht, hphase, (hlisted entry).mp hskip,
          (Option.some.inj h).symm⟩
      · cases h
    · cases h
  | gmtime i =>
    right; right; right; left
    simp only [next, Option.bind_eq_bind, Option.bind_eq_some_iff] at h
    obtain ⟨t, ht, h⟩ := h
    split at h
    · next result entry entries hphase =>
      split at h
      · cases h
      · next hlist =>
        exact ⟨i, t, result, entry, entries, rfl, ht, hphase,
          not_not.mp (mt (hlisted entry).mpr hlist), (Option.some.inj h).symm⟩
    · cases h
  | strftime i =>
    right; right; right; right
    simp only [next, Option.bind_eq_bind, Option.bind_eq_some_iff] at h
    obtain ⟨t, ht, h⟩ := h
    split at h
    · next result entry status entries hphase =>
      rw [value_addRow] at h
      exact ⟨i, t, result, entry, status, entries, rfl, ht, hphase, (Option.some.inj h).symm⟩
    · cases h

/-! ## What is left to do -/

/-- What the thread returns when each of its calls of `strftime` reads what its own call of
`gmtime` has written. -/
def IndexThread.index (mgz : Mgz) (mem : Memory) (fs : FileSystem) (t : IndexThread) : Run Bytes :=
  match t.phase with
  | .readdir result entries => (t.layer.indexFrom mgz mem t.file result entries).value fs
  | .strftime result entry status entries =>
    (t.layer.addRow mgz t.file result entry status (dateOf status) >>= fun result =>
      t.layer.indexFrom mgz mem t.file result entries).value fs
  | .returned index => .ok index

/-- The thread has called `gmtime`, and has yet to read the buffer. -/
def IndexThread.pending (t : IndexThread) : Bool :=
  match t.phase with
  | .strftime _ _ _ _ => true
  | _ => false

/-- The step writes the buffer. -/
def IndexLabel.writes : IndexLabel → Bool
  | .gmtime _ => true
  | _ => false

/-- The condition on a step: no thread calls `gmtime` while another one has yet to read the
buffer. -/
def IndexState.DateRead (s : IndexState) (l : IndexLabel) : Prop :=
  l.writes → ∀ t ∈ s.threads, t.pending = false

instance IndexState.decidableDateRead (s : IndexState) (l : IndexLabel) :
    Decidable (s.DateRead l) :=
  inferInstanceAs (Decidable (_ → _))

/-- The invariant of the guarded runs. -/
structure IndexInv (mgz : Mgz) (mem : Memory) (fs : FileSystem) (s : IndexState) : Prop where
  /-- what is left to do gives the index of the whole directory -/
  index : ∀ t ∈ s.threads,
    t.index mgz mem.alone fs = (t.layer.getDirectoryContent mgz mem.alone t.file).value fs
  /-- the buffer holds the date of the thread that has yet to read it -/
  date : ∀ t ∈ s.threads, ∀ result entry status entries,
    t.phase = .strftime result entry status entries → s.tm = Calendar.gmtime status.stMtime

/-- Passing over an entry, and dating one by its own status, leave what is left to do. -/
theorem IndexThread.index_readdir {t : IndexThread} {result : Bytes} {entry : EntryName}
    {entries : List EntryName} (hphase : t.phase = .readdir result (entry :: entries)) :
    t.index mgz mem.alone fs =
      ({ t with
        phase :=
          if isListed entry then .strftime result entry (statusOf mem fs t.file entry) entries
          else .readdir result entries } : IndexThread).index mgz mem.alone fs := by
  have hlisted : isListed entry ↔ ¬(entry.1 = str "." ∨ entry.1 = str "..") := by
    simp [isListed]
  simp only [index, hphase, value_indexFrom_cons, addEntry_eq, Traced.value_bind]
  by_cases h : entry.1 = str "." ∨ entry.1 = str ".."
  · rw [if_pos h, if_neg (mt hlisted.mp (not_not.mpr h)), Traced.value_pure, Traced.ok_bind]
  · rw [if_neg h, if_pos (hlisted.mpr h), Traced.value_bind, OS.value_stat, Traced.ok_bind]
    rfl

/-- Where a thread reads the date of its own entry, it is on the way to the index that it would
return alone. -/
theorem IndexThread.index_strftime {t : IndexThread} {result : Bytes} {entry : EntryName}
    {status : Stat} {entries : List EntryName}
    (hphase : t.phase = .strftime result entry status entries) :
    t.index mgz mem fs =
      ({ t with
        phase := .readdir (result ++ (t.layer.datedRow mgz fs t.file entry status
          (dateOf status)).text mgz) entries } : IndexThread).index mgz mem fs := by
  simp only [index, hphase, Traced.value_bind, value_addRow, Traced.ok_bind]

/-! ## The invariant -/

/-- Another phase of one thread, which leaves it as much to do, and perhaps another date in the
buffer. -/
theorem IndexInv.setPhase {s : IndexState} (hs : IndexInv mgz mem fs s) {i : ℕ} {t : IndexThread}
    {phase : IndexPhase} {tm : Calendar.DateTime} (ht : s.threads[i]? = some t)
    (hindex : t.index mgz mem.alone fs = ({ t with phase } : IndexThread).index mgz mem.alone fs)
    (hdate : ∀ result entry status entries, phase = .strftime result entry status entries →
      tm = Calendar.gmtime status.stMtime)
    (hothers : tm = s.tm ∨ ∀ u ∈ s.threads, u.pending = false) :
    IndexInv mgz mem fs { s.setPhase i t phase with tm } where
  index u hu := by
    rcases List.mem_or_eq_of_mem_set hu with hu | rfl
    · exact hs.index u hu
    · exact hindex.symm.trans (hs.index t (List.mem_of_getElem? ht))
  date u hu result entry status entries hphase := by
    rcases List.mem_or_eq_of_mem_set hu with hu | rfl
    · rcases hothers with htm | hothers
      · exact htm.trans (hs.date u hu result entry status entries hphase)
      -- no other thread has yet to read the buffer
      · have hpending := hothers u hu
        rw [IndexThread.pending, hphase] at hpending
        cases hpending
    · exact hdate result entry status entries hphase

/-- No step changes what a thread is to return, as long as the buffer is read before it is written
again. -/
theorem indexInv_step {s s' : IndexState} {l : IndexLabel} (hs : IndexInv mgz mem fs s)
    (h : s.next mgz mem fs l = some s') (hguard : s.DateRead l) : IndexInv mgz mem fs s' := by
  rcases IndexState.next_cases h with ⟨layer, file, result, entries, rfl, hhead, hopen, rfl⟩ |
    ⟨i, t, result, rfl, ht, hphase, rfl⟩ |
    ⟨i, t, result, entry, entries, rfl, ht, hphase, hlisted, rfl⟩ |
    ⟨i, t, result, entry, entries, rfl, ht, hphase, hlisted, rfl⟩ |
    ⟨i, t, result, entry, status, entries, rfl, ht, hphase, rfl⟩
  -- opendir: a new thread has all of its index to make
  · constructor
    · intro u hu
      rcases List.mem_append.mp hu with hu | hu
      · exact hs.index u hu
      · obtain rfl := List.mem_singleton.mp hu
        exact (layer.value_getDirectoryContent_indexFrom mgz mem.alone fs hhead hopen).symm
    · intro u hu result entry status entries hphase
      rcases List.mem_append.mp hu with hu | hu
      · exact hs.date u hu result entry status entries hphase
      · obtain rfl := List.mem_singleton.mp hu
        cases hphase
  -- the end of the entries
  · refine hs.setPhase ht ?_ (by simp) (Or.inl rfl)
    simp only [IndexThread.index, hphase, value_indexFrom, List.flatMap_nil, List.append_nil]
  · refine hs.setPhase ht ?_ (by simp) (Or.inl rfl)
    rw [IndexThread.index_readdir hphase, if_neg hlisted]
  -- gmtime: the buffer is written for this entry, and the guard holds for the other threads
  · refine hs.setPhase ht ?_ ?_ (Or.inr (hguard rfl))
    · rw [IndexThread.index_readdir hphase, if_pos hlisted]
    · rintro _ _ _ _ ⟨⟩
      rfl
  -- strftime: the buffer still holds the date of the entry
  · refine hs.setPhase ht ?_ (by simp) (Or.inl rfl)
    rw [hs.date t (List.mem_of_getElem? ht) result entry status entries hphase]
    exact IndexThread.index_strftime hphase

theorem indexInv_invariant (mgz : Mgz) (mem : Memory) (fs : FileSystem) (tm : Calendar.DateTime) :
    ((indexes mgz mem fs tm).guard IndexState.DateRead).Invariant (IndexInv mgz mem fs) where
  init := by
    rintro s rfl
    exact ⟨by simp, by simp⟩
  step _ _ _ hs h := indexInv_step hs h.1 h.2

/-- A thread that has returned has returned what `get_directory_content` does, however the threads
were interleaved. -/
theorem index_of_guarded {tm : Calendar.DateTime} {s : IndexState}
    (hs : ((indexes mgz mem fs tm).guard IndexState.DateRead).Reachable s) {i : ℕ} {t : IndexThread}
    {index : Bytes} (ht : s.threads[i]? = some t) (hphase : t.phase = .returned index) :
    (t.layer.getDirectoryContent mgz mem.alone t.file).value fs = .ok index := by
  have hinv := (indexInv_invariant mgz mem fs tm).reachable hs
  rw [← hinv.index t (List.mem_of_getElem? ht), IndexThread.index, hphase]

/-- A directory with two files, the second of which is a day younger. -/
def twoFiles : FileSystem where
  access _ := true
  stat path := some ⟨0o100644, 0, if path = str "./a" then 0 else 86400⟩
  ifstream _ := some []
  opendir _ := some [⟨str "a", by decide⟩, ⟨str "b", by decide⟩]

/-- The layer of the program, which lists the current directory. -/
def exploring : StaticFile := .new true currentDirectory

/-- Two threads that list the directory in turn. -/
theorem index_of_guarded_two : ∃ (s : IndexState) (t : IndexThread) (index : Bytes),
    ((indexes .plain .zero twoFiles (Calendar.gmtime 0)).guard IndexState.DateRead).Reachable s ∧
      s.threads[0]? = some t ∧ t.phase = .returned index ∧
      (t.layer.getDirectoryContent .plain .zero t.file).value twoFiles = .ok index := by
  have hrun : ((indexes .plain .zero twoFiles (Calendar.gmtime 0)).guard
      IndexState.DateRead).Reachable _ :=
    .of_guarded_run [.opendir exploring (str "."), .gmtime 0, .opendir exploring (str "."),
      .strftime 0, .gmtime 1, .strftime 1, .gmtime 0, .strftime 0, .readdir 0] rfl
  exact ⟨_, _, _, hrun, rfl, rfl, index_of_guarded (i := 0) hrun rfl rfl⟩

/-! ## Whatever the buffer holds -/

/-- The memory with these dates in the buffer. -/
def withDates (mem : Memory) (dates : Bytes → Option Calendar.DateTime) : Memory :=
  { mem with tm := dates }

/-- With these dates of the entries that were passed, the index of the directory is what the loop
returns from here on. -/
def IndexThread.FromHere (mgz : Mgz) (mem : Memory) (fs : FileSystem) (t : IndexThread)
    (result : Bytes) (entries : List EntryName) : Prop :=
  ∃ (passed : List EntryName) (dates : Bytes → Option Calendar.DateTime),
    fs.opendir (cstr t.file) = some (passed ++ entries) ∧
    ∀ dates' : Bytes → Option Calendar.DateTime,
      (∀ entry ∈ passed, dates' (sysFile t.file entry) = dates (sysFile t.file entry)) →
      (t.layer.getDirectoryContent mgz (withDates mem dates') t.file).value fs =
        (t.layer.indexFrom mgz (withDates mem dates') t.file result entries).value fs

/-- What a thread has of its index so far, whatever the buffer held. -/
def IndexThread.Dated (mgz : Mgz) (mem : Memory) (fs : FileSystem) (t : IndexThread) : Prop :=
  match t.phase with
  | .readdir result entries => t.FromHere mgz mem fs result entries
  | .strftime result entry status entries =>
    isListed entry ∧ status = statusOf mem fs t.file entry ∧
      t.FromHere mgz mem fs result (entry :: entries)
  | .returned index =>
    ∃ dates, (t.layer.getDirectoryContent mgz (withDates mem dates) t.file).value fs = .ok index

/-- The names of two entries of one directory differ. -/
theorem sysFile_inj {file : Bytes} {entry entry' : EntryName}
    (h : sysFile file entry = sysFile file entry') : entry = entry' :=
  Subtype.ext (List.cons.inj (List.append_cancel_left h)).2

/-- The loop body adds the row with the date that the buffer has. -/
theorem value_indexFrom_dated (layer : StaticFile) (file result : Bytes) {entry : EntryName}
    (hlisted : isListed entry) (entries : List EntryName)
    (dates : Bytes → Option Calendar.DateTime) :
    (layer.indexFrom mgz (withDates mem dates) file result (entry :: entries)).value fs =
      (layer.indexFrom mgz (withDates mem dates) file
        (result ++ (layer.datedRow mgz fs file entry (statusOf mem fs file entry)
          (Calendar.strftime ((dates (sysFile file entry)).getD
            (Calendar.gmtime (statusOf mem fs file entry).stMtime)))).text mgz)
        entries).value fs := by
  have hskip : ¬(entry.1 = str "." ∨ entry.1 = str "..") := by simpa [isListed] using hlisted
  rw [value_indexFrom_cons, addEntry_eq, if_neg hskip]
  simp only [Traced.value_bind, OS.value_stat, Traced.ok_bind, value_addRow]
  rfl

/-- Every step keeps to it, with whatever date the buffer holds. -/
theorem dated_step (hnodup : ∀ path entries, fs.opendir path = some entries → entries.Nodup)
    {s s' : IndexState} {l : IndexLabel} (hs : ∀ t ∈ s.threads, t.Dated mgz mem fs)
    (h : s.next mgz mem fs l = some s') : ∀ t ∈ s'.threads, t.Dated mgz mem fs := by
  intro u hu
  rcases IndexState.next_cases h with ⟨layer, file, result, entries, rfl, hhead, hopen, rfl⟩ |
    ⟨i, t, result, rfl, ht, hphase, rfl⟩ |
    ⟨i, t, result, entry, entries, rfl, ht, hphase, hlisted, rfl⟩ |
    ⟨i, t, result, entry, entries, rfl, ht, hphase, hlisted, rfl⟩ |
    ⟨i, t, result, entry, status, entries, rfl, ht, hphase, rfl⟩
  -- opendir: no entry was passed
  · rcases List.mem_append.mp hu with hu | hu
    · exact hs u hu
    · obtain rfl := List.mem_singleton.mp hu
      exact ⟨[], fun _ => none, hopen, fun dates' _ =>
        layer.value_getDirectoryContent_indexFrom mgz _ fs hhead hopen⟩
  all_goals
    rcases List.mem_or_eq_of_mem_set hu with hu | rfl
    · exact hs u hu
    have htold := hs t (List.mem_of_getElem? ht)
    simp only [IndexThread.Dated, hphase] at htold
  -- the end of the entries
  · obtain ⟨passed, dates, -, hfrom⟩ := htold
    refine ⟨dates, ?_⟩
    rw [hfrom dates fun _ _ => rfl, value_indexFrom, List.flatMap_nil, List.append_nil]
  -- `.` and `..` have no row
  · obtain ⟨passed, dates, hopen, hfrom⟩ := htold
    have hskip : entry.1 = str "." ∨ entry.1 = str ".." := by
      simpa [isListed, or_iff_not_imp_left] using hlisted
    refine ⟨passed ++ [entry], dates, by simpa using hopen, fun dates' hdates => ?_⟩
    rw [hfrom dates' fun e he => hdates e (List.mem_append_left _ he), value_indexFrom_cons,
      addEntry_eq, if_pos hskip]
    rfl
  · exact ⟨hlisted, rfl, htold⟩
  -- strftime: the date of this entry is the one in the buffer
  · obtain ⟨hlisted, rfl, passed, dates, hopen, hfrom⟩ := htold
    have hfresh : entry ∉ passed := fun hmem =>
      (List.nodup_append.mp (hnodup _ _ hopen)).2.2 entry hmem entry List.mem_cons_self rfl
    refine ⟨passed ++ [entry],
      fun file => if file = sysFile t.file entry then some s.tm else dates file,
      by simpa using hopen, fun dates' hdates => ?_⟩
    have hdate : dates' (sysFile t.file entry) = some s.tm :=
      (hdates entry (by simp)).trans (if_pos rfl)
    have hpassed : ∀ e ∈ passed, dates' (sysFile t.file e) = dates (sysFile t.file e) := by
      intro e he
      have hne : sysFile t.file e ≠ sysFile t.file entry := fun heq =>
        hfresh ((sysFile_inj heq) ▸ he)
      exact (hdates e (List.mem_append_left _ he)).trans (if_neg hne)
    rw [hfrom dates' hpassed, value_indexFrom_dated _ _ _ hlisted, hdate, Option.getD_some]

/-- However the threads are interleaved, each index that is returned is the one that
`get_directory_content` returns for some dates in the buffer: what the memory of a thread holds for
its calls of `strftime`. -/
theorem index_of_reachable
    (hnodup : ∀ path entries, fs.opendir path = some entries → entries.Nodup)
    {tm : Calendar.DateTime} {s : IndexState} (hs : (indexes mgz mem fs tm).Reachable s)
    {t : IndexThread} (ht : t ∈ s.threads) {index : Bytes} (hphase : t.phase = .returned index) :
    ∃ dates, (t.layer.getDirectoryContent mgz (withDates mem dates) t.file).value fs =
      .ok index := by
  have hinv : (indexes mgz mem fs tm).Invariant fun s => ∀ t ∈ s.threads, t.Dated mgz mem fs := by
    refine ⟨?_, fun s l s' hs h => dated_step hnodup hs h⟩
    rintro s rfl
    simp
  have hdated := hinv.reachable hs t ht
  rwa [IndexThread.Dated, hphase] at hdated

/-! ## A date that was overwritten -/

section Step

variable {s : IndexState} {i : ℕ} {t : IndexThread} (ht : s.threads[i]? = some t)

include ht

theorem getElem?_setPhase (phase : IndexPhase) :
    (s.setPhase i t phase).threads[i]? = some { t with phase } :=
  List.getElem?_set_self (List.getElem?_eq_some_iff.mp ht).1

variable (mgz mem fs) {result : Bytes} {entry : EntryName} {entries : List EntryName}

/-- A step of a thread that has an entry to list. -/
theorem next_gmtime (hphase : t.phase = .readdir result (entry :: entries))
    (hlisted : isListed entry) :
    s.next mgz mem fs (.gmtime i) =
      some { s.setPhase i t (.strftime result entry (statusOf mem fs t.file entry) entries) with
        tm := Calendar.gmtime (statusOf mem fs t.file entry).stMtime } := by
  have hskip : ¬(entry.1 = str "." ∨ entry.1 = str "..") := by simpa [isListed] using hlisted
  simp only [IndexState.next, ht, Option.bind_eq_bind, Option.bind_some, hphase, if_neg hskip]
  rfl

/-- The date of the row is what the buffer holds. -/
theorem next_strftime {status : Stat} (hphase : t.phase = .strftime result entry status entries) :
    s.next mgz mem fs (.strftime i) =
      some (s.setPhase i t (.readdir (result ++ (t.layer.datedRow mgz fs t.file entry status
        (Calendar.strftime s.tm)).text mgz) entries)) := by
  simp only [IndexState.next, ht, Option.bind_eq_bind, Option.bind_some, hphase, value_addRow]

/-- A thread that runs alone adds the rows of its entries with their own dates. -/
theorem leads_returned (tm : Calendar.DateTime) (hphase : t.phase = .readdir result entries) :
    ∃ s', (indexes mgz mem fs tm).Leads s s' ∧
      s'.threads[i]? = some { t with
        phase := .returned
          (result ++ entries.flatMap (t.layer.entryRow mgz mem.alone fs t.file) ++
            indexFooter) } := by
  induction entries generalizing s t result with
  | nil =>
    have hnext : s.next mgz mem fs (.readdir i) =
        some (s.setPhase i t (.returned (result ++ indexFooter))) := by
      simp only [IndexState.next, ht, Option.bind_eq_bind, Option.bind_some, hphase]
    refine ⟨_, .single (l := .readdir i) hnext, ?_⟩
    rw [getElem?_setPhase ht, List.flatMap_nil, List.append_nil]
  | cons entry entries ih =>
    rw [List.flatMap_cons, ← List.append_assoc, t.layer.entryRow_eq mgz mem.alone fs t.file entry]
    by_cases hlisted : isListed entry
    -- the two calls for the entry, one behind the other
    · let status := statusOf mem fs t.file entry
      let t₁ : IndexThread := { t with phase := .strftime result entry status entries }
      let s₁ : IndexState :=
        { s.setPhase i t t₁.phase with tm := Calendar.gmtime status.stMtime }
      have hgmtime : s.next mgz mem fs (.gmtime i) = some s₁ :=
        next_gmtime mgz mem fs ht hphase hlisted
      have ht₁ : s₁.threads[i]? = some t₁ := getElem?_setPhase ht _
      have hstrftime := next_strftime mgz mem fs ht₁ rfl
      obtain ⟨s', hleads, ht'⟩ := ih (getElem?_setPhase ht₁ _) rfl
      refine ⟨s', ((TransitionSystem.Leads.single (l := .gmtime i) hgmtime).trans
        (TransitionSystem.Leads.single (l := .strftime i) hstrftime)).trans hleads, ?_⟩
      rw [if_pos hlisted]
      exact ht'
    · have hnext : s.next mgz mem fs (.readdir i) =
          some (s.setPhase i t (.readdir result entries)) := by
        have hskip : entry.1 = str "." ∨ entry.1 = str ".." := by
          simpa [isListed, or_iff_not_imp_left] using hlisted
        simp only [IndexState.next, ht, Option.bind_eq_bind, Option.bind_some, hphase, if_pos hskip]
      obtain ⟨s', hleads, ht'⟩ := ih (getElem?_setPhase ht (.readdir result entries)) rfl
      refine ⟨s', (TransitionSystem.Leads.single (l := .readdir i) hnext).trans hleads, ?_⟩
      rw [if_neg hlisted, List.append_nil]
      exact ht'

end Step

/-- When a thread has called `gmtime` for an entry and has yet to read the buffer, and another one
is about to call it for an entry with another date, the first one can return an index in which its
entry has the date of the other one. -/
theorem misdated_of_pending (hformat : mgz.FormatsAsPrintf) {tm : Calendar.DateTime}
    {s : IndexState} (hs : ((indexes mgz mem fs tm).guard IndexState.DateRead).Reachable s)
    {i j : ℕ} {t u : IndexThread} {result result' : Bytes} {entry entry' : EntryName}
    {status : Stat} {entries entries' : List EntryName} (ht : s.threads[i]? = some t)
    (hpending : t.phase = .strftime result entry status entries) (hu : s.threads[j]? = some u)
    (hnext : u.phase = .readdir result' (entry' :: entries')) (hlisted : isListed entry')
    (hdate : dateOf (statusOf mem fs u.file entry') ≠ dateOf status) :
    ∃ s' index, (indexes mgz mem fs tm).Leads s s' ∧
      s'.threads[i]? = some { t with phase := .returned index } ∧
      index = result ++ (t.layer.datedRow mgz fs t.file entry status
        (dateOf (statusOf mem fs u.file entry'))).text mgz ++
          entries.flatMap (t.layer.entryRow mgz mem.alone fs t.file) ++ indexFooter ∧
      (t.layer.getDirectoryContent mgz mem.alone t.file).value fs ≠ .ok index := by
  have hinv := (indexInv_invariant mgz mem fs tm).reachable hs
  have hij : j ≠ i := by
    rintro rfl
    rw [ht, Option.some.injEq] at hu
    rw [← hu, hpending] at hnext
    cases hnext
  -- the other thread writes the buffer, and the first one then reads it
  let s₁ : IndexState :=
    { s.setPhase j u (.strftime result' entry' (statusOf mem fs u.file entry') entries') with
      tm := Calendar.gmtime (statusOf mem fs u.file entry').stMtime }
  have hgmtime : s.next mgz mem fs (.gmtime j) = some s₁ := next_gmtime mgz mem fs hu hnext hlisted
  have ht₁ : s₁.threads[i]? = some t := (List.getElem?_set_ne hij).trans ht
  have hstrftime := next_strftime mgz mem fs ht₁ hpending
  obtain ⟨s', hleads, ht'⟩ := leads_returned mgz mem fs (getElem?_setPhase ht₁ _) tm rfl
  refine ⟨s', _, ((TransitionSystem.Leads.single (l := .gmtime j) hgmtime).trans
    (TransitionSystem.Leads.single (l := .strftime i) hstrftime)).trans hleads, ht', rfl, ?_⟩
  rw [← hinv.index t (List.mem_of_getElem? ht), IndexThread.index_strftime hpending]
  simp only [IndexThread.index, value_indexFrom]
  intro heq
  have hrows := List.append_cancel_left (List.append_cancel_right
    (List.append_cancel_right (Except.ok.inj heq)))
  exact hdate (date_of_text_eq hformat (t.layer.datedRow mgz fs t.file entry status []) hrows).symm

/-- Two threads that list the directory, the second of which is one entry ahead. -/
theorem misdated_of_pending_two : ∃ (s s' : IndexState) (t : IndexThread) (index : Bytes),
    (indexes .plain .zero twoFiles (Calendar.gmtime 0)).Leads s s' ∧
      s'.threads[0]? = some { t with phase := .returned index } ∧
      (t.layer.getDirectoryContent .plain .zero t.file).value twoFiles ≠ .ok index := by
  have hrun : ((indexes .plain .zero twoFiles (Calendar.gmtime 0)).guard
      IndexState.DateRead).Reachable _ :=
    .of_guarded_run [.opendir exploring (str "."), .opendir exploring (str "."), .gmtime 1,
      .strftime 1, .gmtime 0] rfl
  obtain ⟨s', index, hleads, ht, -, hne⟩ := misdated_of_pending Mgz.plain_formatsAsPrintf hrun
    (i := 0) (j := 1) rfl rfl rfl rfl (by decide) (by decide)
  exact ⟨_, s', _, index, hleads, ht, hne⟩

end Lhs.Server
