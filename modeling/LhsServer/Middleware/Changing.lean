import LhsServer.Library.Dialogue
import LhsServer.Middleware.StaticFile

/-!
# Static files while the file system changes

Another process can change the file system between two questions that `static_file` asks for one
request: a file is removed after `access` has found it, or a directory has become a file when its
status is asked for once more. Here the functions that ask are dialogues, so that each of their
questions can meet another `FileSystem`. What a directory or a file that has been opened then gives
comes in parts, which can change under way as well: the answer to `opendir` is the entries that all
the calls of `readdir` return, and the answer to `ifstream` the bytes that all the reads deliver,
whenever these were there.

- `FileSystem.answer`: the answer to a question;
- `Session.access`, `Session.stat`, `Session.ifstream`, `Session.opendir`: the four questions;
- `StaticFile.Changing.serve`: the method `call` behind the call of the inner middleware.
-/

namespace Lhs

open Bytes Http

/-- What the answer to a question is. -/
def OsCall.Answer : OsCall → Type
  | .access _ => Bool
  | .stat _ => Option Stat
  | .ifstream _ => Option Bytes
  | .opendir _ => Option (List EntryName)

/-- The answer to a question. -/
def FileSystem.answer (fs : FileSystem) : (call : OsCall) → call.Answer
  | .access path => fs.access path
  | .stat path => fs.stat path
  | .ifstream path => fs.ifstream path
  | .opendir path => fs.opendir path

/-- Computations that question a file system that may change. -/
abbrev Session := Dialogue OsCall OsCall.Answer Fault

namespace Session

/-- `-1 != access(filename.c_str(), 0)` -/
def access (filename : Bytes) : Session Bool := Dialogue.question (OsCall.access (cstr filename))

/-- `stat(filename.c_str(), &status)` -/
def stat (filename : Bytes) : Session (Option Stat) :=
  Dialogue.question (OsCall.stat (cstr filename))

/-- `std::ifstream io(file.c_str(), std::ios::in | std::ios::binary)` with the bytes it will give -/
def ifstream (file : Bytes) : Session (Option Bytes) :=
  Dialogue.question (OsCall.ifstream (cstr file))

/-- `opendir(file.c_str())` with the entries `readdir` will return -/
def opendir (file : Bytes) : Session (Option (List EntryName)) :=
  Dialogue.question (OsCall.opendir (cstr file))

end Session

namespace Middleware.StaticFile.Changing

/-- `exist`. -/
def exist (filename : Bytes) : Session Bool :=
  if str ".." <:+: filename then return false
  else if filename = [] then return false
  else Session.access filename

/-- `is_directory`. -/
def isDirectory (filename : Bytes) : Session Bool := do
  match ← Session.stat filename with
  | none => return false
  | some status => do
    let found ← exist filename
    return found && isDirMode status

/-- `get_file_content`. -/
def getFileContent (file : Bytes) : Session Bytes := do
  let io ← Session.ifstream file
  Dialogue.lift (readBlocks (io.getD []) [])

variable (self : StaticFile) (mgz : Mgz) (mem : Memory)

/-- The body of the loop over the entries. What `status` holds where the first `stat` fails does not
come from any answer about this entry. -/
def addEntry (file result : Bytes) (entry : EntryName) : Session Bytes := do
  let localPath := entry.1
  if localPath = str "." ∨ localPath = str ".." then return result
  else
    let path := file.drop self.root.length
    let url := path ++ str "/" ++ localPath
    let sysFile := file ++ fileSeparator :: localPath
    let status := (← Session.stat sysFile).getD (mem.status sysFile)
    let modifDate := Calendar.strftime ((mem.tm sysFile).getD (Calendar.gmtime status.stMtime))
    -- the second question about the status need not have the answer of the first
    let (type, size) ←
      if ← isDirectory sysFile then pure (folderImage, str "-")
      else pure (fileImage, mgz.format (str "%.1fk") [.kilobytes status.stSize])
    return result ++ mgz.format indexFile
      [.s (cstr type), .s (cstr url), .s (cstr localPath), .s modifDate, .s (cstr size)]

/-- `get_directory_content`. -/
def getDirectoryContent (file : Bytes) : Session Bytes := do
  let result ← Dialogue.lift (self.indexHead mgz file)
  match ← Session.opendir file with
  | none => return []
  | some entries => do
    let result ← entries.foldlM (addEntry self mgz mem file) result
    return result ++ indexFooter

/-- `static_file::call` behind `get_response`. -/
def serve (request : Request) (response : Response) : Session Response := do
  if response.code = 0 ∨ response.code = 404 then
    let filename := self.getFilename (request.path.drop 1)
    if ← exist filename then
      if ← isDirectory filename then
        if self.allowExplore then
          let response := response.assign (str "Content-Type") (.string (str "text/html"))
          let response := { response with code := Error.ok.value }
          let content ← getDirectoryContent self mgz mem filename
          return { response with body := content }
        else return response
      else
        let response :=
          response.assign (str "Content-Type") (.string (StaticFile.getMime mgz filename))
        let response := { response with code := Error.ok.value }
        let content ← getFileContent filename
        return { response with body := content }
    else return response
  else return response

end Middleware.StaticFile.Changing

end Lhs
