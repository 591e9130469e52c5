import LhsServer.Library.TransitionSystem
import LhsServer.Middleware.StaticFile

/-!
# Threads that list directories at once

`get_directory_content` once more, as the steps that threads take in turn: `gmtime` returns the
address of a buffer that all its calls share, and `strftime` reads what the buffer then holds.
-/

namespace Lhs

open Bytes Http

/-- The loop body of `get_directory_content` behind `strftime`. -/
def Middleware.StaticFile.addRow (self : StaticFile) (mgz : Mgz) (file result : Bytes)
    (entry : EntryName) (status : Stat) (modifDate : Bytes) : OS Bytes := do
  let localPath := entry.1
  let path := file.drop self.root.length
  let url := path ++ str "/" ++ localPath
  let sysFile := file ++ fileSeparator :: localPath
  let (type, size) ←
    if ← isDirectory sysFile then pure (folderImage, str "-")
    else pure (fileImage, mgz.format (str "%.1fk") [.kilobytes status.stSize])
  return result ++ mgz.format indexFile
    [.s (cstr type), .s (cstr url), .s (cstr localPath), .s modifDate, .s (cstr size)]

namespace Server

open Middleware

/-- Where a thread is in the loop over the entries. -/
inductive IndexPhase where
  /-- before the next `readdir`, which returns the first of these entries -/
  | readdir (result : Bytes) (entries : List EntryName)
  /-- between `gmtime` and `strftime` for an entry with this status -/
  | strftime (result : Bytes) (entry : EntryName) (status : Stat) (entries : List EntryName)
  /-- the index is returned -/
  | returned (index : Bytes)

/-- A thread in `get_directory_content`. -/
structure IndexThread where
  layer : StaticFile
  file : Bytes
  phase : IndexPhase

/-- The threads, and the buffer of `gmtime`. -/
structure IndexState where
  tm : Calendar.DateTime
  threads : List IndexThread

/-- The steps of the threads. -/
inductive IndexLabel where
  /-- a thread has opened a directory -/
  | opendir (layer : StaticFile) (file : Bytes)
  /-- thread `i` passes over `.` or `..`, or comes to the end of the entries -/
  | readdir (i : ℕ)
  /-- thread `i` calls `gmtime` for the next entry -/
  | gmtime (i : ℕ)
  /-- thread `i` calls `strftime` and adds the row -/
  | strftime (i : ℕ)

namespace IndexState

variable (mgz : Mgz) (mem : Memory) (fs : FileSystem)

/-- The state with another phase of thread `i`. -/
def setPhase (s : IndexState) (i : ℕ) (t : IndexThread) (phase : IndexPhase) : IndexState :=
  { s with threads := s.threads.set i { t with phase } }

/-- The state after a step, if the step can be taken. -/
def next (s : IndexState) : IndexLabel → Option IndexState
  | .opendir layer file =>
    match layer.indexHead mgz file, fs.opendir (cstr file) with
    | .ok result, some entries =>
      some { s with threads := s.threads ++ [{ layer, file, phase := .readdir result entries }] }
    | _, _ => none
  | .readdir i => do
    let t ← s.threads[i]?
    match t.phase with
    | .readdir result [] => some (s.setPhase i t (.returned (result ++ indexFooter)))
    | .readdir result (entry :: entries) =>
      if entry.1 = str "." ∨ entry.1 = str ".." then
        some (s.setPhase i t (.readdir result entries))
      else none
    | _ => none
  | .gmtime i => do
    let t ← s.threads[i]?
    match t.phase with
    | .readdir result (entry :: entries) =>
      if entry.1 = str "." ∨ entry.1 = str ".." then none
      else
        let sysFile := t.file ++ fileSeparator :: entry.1
        let status := (fs.stat (cstr sysFile)).getD (mem.status sysFile)
        let s := s.setPhase i t (.strftime result entry status entries)
        some { s with tm := Calendar.gmtime status.stMtime }
    | _ => none
  | .strftime i => do
    let t ← s.threads[i]?
    match t.phase with
    | .strftime result entry status entries =>
      let modifDate := Calendar.strftime s.tm
      match (t.layer.addRow mgz t.file result entry status modifDate).value fs with
      | .ok result => some (s.setPhase i t (.readdir result entries))
      | .error _ => none
    | _ => none

end IndexState

/-- The threads that list directories of a file system. -/
def indexes (mgz : Mgz) (mem : Memory) (fs : FileSystem) (tm : Calendar.DateTime) :
    TransitionSystem IndexState IndexLabel :=
  .ofNext { tm, threads := [] } (IndexState.next mgz mem fs)

end Server

end Lhs
