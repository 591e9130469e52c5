import LhsServer.Library.Calendar
import LhsServer.Library.Loop
import LhsServer.Protocol.Http.Middleware

/-!
# Static files

`lhs::middleware::static_file` on a POSIX system: the request path is mapped to a file name below
the root, and a response without a code, or with code 404, is replaced by the content of the file
or by an index of the directory. Everything the layer asks the file system goes through `OS`.

- `StaticFile.getFilename`, `StaticFile.exist`: the name of the file, and the test for `..` in it;
- `StaticFile.readBlock`: one pass of the loop that reads a file, with the stream and the block;
- `StaticFile.readBlocks`: the loop, on what is left of the stream;
- `StaticFile.getDirectoryContent`: the index of a directory;
- `staticFile`: the method `call`.
-/

namespace Lhs.Middleware

open Bytes Http

/-- `FILE_SEPARATOR_C`. -/
def fileSeparator : UInt8 := slash

/-- `(status.st_mode & S_IFMT) == S_IFDIR`. -/
def isDirMode (status : Stat) : Bool := status.stMode &&& 0o170000 == 0o040000

/-! ## The templates of the index -/

def indexHeader : Bytes :=
  str "<!DOCTYPE HTML PUBLIC \"-//W3C//DTD HTML 3.2 Final//EN\">" ++
  str "<html>" ++
  str "  <head>" ++
  str "    <title>Index of %s</title>" ++
  str "  </head>" ++
  str "  <body>" ++
  str "    <h1>Index of %s</h1>" ++
  str "    <table border=\"0\" cellspacing=\"10px\">" ++
  str "      <tr><th>&nbsp;</th><th>Name</th><th>Last modified</th><th>Size</th></tr><tr><th colspan=\"4\"><hr></th></tr>"

def indexFile : Bytes :=
  str "      <tr><td><img src=\"%s\" /></td><td><a href=\"%s\">%s</a></td><td>%s</td><td>%s</td></tr>"

def indexFooter : Bytes :=
  str "      <tr><th colspan=\"4\"><hr></th></tr>" ++
  str "      <tr><td colspan=\"4\"><small>Powered by " ++
  lhsHost ++
  str " Server</small></td></tr>" ++
  str "    </table>" ++
  str "  </body>" ++
  str "</html>"

def folderImage : Bytes :=
  str "data:image/png;base64," ++
  str "iVBORw0KGgoAAAANSUhEUgAAABAAAAAQCAYAAAAf8/9hAAAABGdBTUEAAK/INwWK" ++
  str "6QAAABl0RVh0U29mdHdhcmUAQWRvYmUgSW1hZ2VSZWFkeXHJZTwAAAGrSURBVDjL" ++
  str "xZO7ihRBFIa/6u0ZW7GHBUV0UQQTZzd3QdhMQxOfwMRXEANBMNQX0MzAzFAwEzHw" ++
  str "ARbNFDdwEd31Mj3X7a6uOr9BtzNjYjKBJ6nicP7v3KqcJFaxhBVtZUAK8OHlld2s" ++
  str "t7Xl3DJPVONP+zEUV4HqL5UDYHr5xvuQAjgl/Qs7TzvOOVAjxjlC+ePSwe6DfbVe" ++
  str "gLVuT4r14eTr6zvA8xSAoBLzx6pvj4l+DZIezuVkG9fY2H7YRQIMZIBwycmzH1/s" ++
  str "3F8AapfIPNF3kQk7+kw9PWBy+IZOdg5Ug3mkAATy/t0usovzGeCUWTjCz0B+Sj0e" ++
  str "kfdvkZ3abBv+U4GaCtJ1iEm6ANQJ6fEzrG/engcKw/wXQvEKxSEKQxRGKE7Izt+D" ++
  str "SiwBJMUSm71rguMYhQKrBygOIRStf4TiFFRBvbRGKiQLWP29yRSHKBTtfdBmHs0B" ++
  str "UpgvtgF4yRFR+NUKi0XZcYjCeCG2smkzLAHkbRBmP0/Uk26O5YnUActBp1GsAI+S" ++
  str "5nRJJJal5K1aAMrq0d6Tm9uI6zjyf75dAe6tx/SsWeD//o2/Ab6IH3/h25pOAAAA" ++
  str "AElFTkSuQmCC"

def fileImage : Bytes :=
  str "data:image/png;base64," ++
  str "iVBORw0KGgoAAAANSUhEUgAAABAAAAAQCAQAAAC1+jfqAAAABGdBTUEAAK/INwWK" ++
  str "6QAAABl0RVh0U29mdHdhcmUAQWRvYmUgSW1hZ2VSZWFkeXHJZTwAAADoSURBVBgZ" ++
  str "BcExblNBGAbA2ceegTRBuIKOgiihSZNTcC5LUHAihNJR0kGKCDcYJY6D3/77MdOi" ++
  str "nTvzAgCw8ysThIvn/VojIyMjIyPP+bS1sUQIV2s95pBDDvmbP/mdkft83tpYguZq" ++
  str "5Jh/OeaYh+yzy8hTHvNlaxNNczm+la9OTlar1UdA/+C2A4trRCnD3jS8BB1obq2G" ++
  str "k6GU6QbQAS4BUaYSQAf4bhhKKTFdAzrAOwAxEUAH+KEM01SY3gM6wBsEAQB0gJ+m" ++
  str "aZoC3gI6iPYaAIBJsiRmHU0AALOeFC3aK2cWAACUXe7+AwO0lc9eTHYTAAAAAElF" ++
  str "TkSuQmCC"

/-! ## File names -/

/-- The fields of `lhs::middleware::static_file`. -/
structure StaticFile where
  allowExplore : Bool
  root : Bytes
  deriving DecidableEq

namespace StaticFile

/-- `set_root`: remove one separator from the end of the root, unless the root is that separator. -/
def setRoot (root : Bytes) : Bytes :=
  if 1 < root.length ∧ root.getLast? = some fileSeparator then root.dropLast else root

/-- The root of the constructors that are not given one. -/
def currentDirectory : Bytes := str "."

/-- The constructors: an argument that is left out is `false` or `currentDirectory`. -/
def new (allow : Bool) (root : Bytes) : StaticFile :=
  { allowExplore := allow, root := setRoot root }

/-- `std::replace(s.begin(), s.end(), old, new)`. -/
def replace (s : Bytes) (old new : UInt8) : Bytes := s.map fun c => if c = old then new else c

variable (self : StaticFile)

/-- `get_filename`. -/
def getFilename (file : Bytes) : Bytes :=
  let out := self.root ++ fileSeparator :: file
  -- one trailing separator is removed, however many there are
  let out := replace out slash fileSeparator
  if out.getLast? = some fileSeparator then out.dropLast else out

/-- `exist`: a name with `..` in it is refused before the system is asked. -/
def exist (filename : Bytes) : OS Bool :=
  -- the test is on the whole name, in front of the cut that `c_str()` makes
  if str ".." <:+: filename then return false
  else if filename = [] then return false
  else OS.access filename

/-- `is_directory`. -/
def isDirectory (filename : Bytes) : OS Bool := do
  match ← OS.stat filename with
  -- `stat` fails: what it left in `status` is not looked at
  | none => return false
  | some status => do
    let found ← exist filename
    return found && isDirMode status

/-- `get_mime`. -/
def getMime (mgz : Mgz) (file : Bytes) : Bytes :=
  mgz.mimeType (after file (findLast file dot))

/-! ## The content of a file -/

/-- `HANDLER_STATIC_FILE_BUFFER_SIZE`. -/
def blockSize : ℕ := 1024 * 8

/-- The value an `int` of 32 bits gets from a `std::streamsize`. -/
def toInt (n : ℕ) : ℤ := (Int32.ofNat n).toInt

/-- `v.resize(n)`: the elements that are added are zeros. -/
def resize (v : Bytes) (n : ℕ) : Bytes := v.take n ++ List.replicate (n - v.length) NUL

/-- The variables of the loop of `get_file_content`. -/
structure ReadState where
  io : Ifstream
  buffer : Bytes
  deriving DecidableEq, Repr

/-- The variables in front of the loop. -/
def ReadState.new (content : Option Bytes) : ReadState := { io := .new content, buffer := [] }

/-- One pass of the loop of `get_file_content`. -/
def readBlock (s : ReadState) : Pass ReadState (Run Bytes) :=
  let block := List.replicate blockSize NUL
  let (io, block) := s.io.read block blockSize
  let readSize := toInt io.gcount
  if 0 > readSize then .stop (.error (.throw .staticFileError))
  else if readSize = 0 then .stop (.ok s.buffer)
  else
    let block := resize block readSize.toNat
    let buffer := s.buffer ++ block
    if readSize < blockSize then .stop (.ok buffer) else .next { io, buffer }

/-- The loop of `get_file_content` on what is left of the stream. `read` stores at most a block,
`gcount` is the number of bytes it stored. -/
def readBlocks (stream buffer : Bytes) : Run Bytes :=
  let block := stream.take blockSize
  let readSize : ℤ := block.length
  if 0 > readSize then .error (.throw .staticFileError)
  -- the end of the stream right at the end of a block
  else if readSize = 0 then .ok buffer
  else if readSize < blockSize then .ok (buffer ++ block)
  else readBlocks (stream.drop blockSize) (buffer ++ block)
termination_by stream.length
decreasing_by
  rename_i _ hempty _
  have hne : stream ≠ [] := by
    rintro rfl
    exact hempty rfl
  have hpos := List.length_pos_iff.mpr hne
  simp only [List.length_drop, blockSize]
  omega

/-- `get_file_content`: a stream that could not be opened has nothing to read. -/
def getFileContent (file : Bytes) : OS Bytes := do
  let io ← OS.ifstream file
  Traced.lift (readBlocks (io.getD []) [])

/-! ## The index of a directory -/

/-- The target of the link to the parent directory. Without a separator in `path`, the iterator
`path.begin() + npos` is out of range. -/
def parentOf (path : Bytes) : Run Bytes :=
  match findLast path fileSeparator with
  | none => .error (.undefined .iteratorRange)
  -- `found > 0` fails for the position 0 alone, and holds for `npos`
  | some 0 => .ok (str "/")
  | some found => .ok (replace (path.take found) fileSeparator slash)

/-- The head of the index, with the link to the parent directory unless `file` is the root. -/
def indexHead (mgz : Mgz) (file : Bytes) : Run Bytes :=
  let path := file.drop self.root.length
  let result := mgz.format indexHeader [.s (cstr path), .s (cstr path)]
  if file ≠ self.root then do
    let parent ← parentOf path
    return result ++ mgz.format indexFile
      [.s folderImage, .s (cstr parent), .s (str ".."), .s (str "-"), .s (str "-")]
  else return result

/-- The body of the loop over the entries. A `stat` that fails leaves `status`, a local variable
without a value, as it is. -/
def addEntry (mgz : Mgz) (mem : Memory) (file result : Bytes) (entry : EntryName) : OS Bytes := do
  let localPath := entry.1
  if localPath = str "." ∨ localPath = str ".." then return result
  else
    let path := file.drop self.root.length
    let url := path ++ str "/" ++ localPath
    let sysFile := file ++ fileSeparator :: localPath
    -- the result of this `stat` is not tested
    let status := (← OS.stat sysFile).getD (mem.status sysFile)
    let modifDate := Calendar.strftime ((mem.tm sysFile).getD (Calendar.gmtime status.stMtime))
    -- `is_directory` asks for the status of the entry once more
    let (type, size) ←
      if ← isDirectory sysFile then pure (folderImage, str "-")
      else pure (fileImage, mgz.format (str "%.1fk") [.kilobytes status.stSize])
    return result ++ mgz.format indexFile
      [.s (cstr type), .s (cstr url), .s (cstr localPath), .s modifDate, .s (cstr size)]

/-- `get_directory_content`. -/
def getDirectoryContent (mgz : Mgz) (mem : Memory) (file : Bytes) : OS Bytes := do
  let result ← Traced.lift (self.indexHead mgz file)
  match ← OS.opendir file with
  | none => return []
  | some entries => do
    let result ← entries.foldlM (self.addEntry mgz mem file) result
    return result ++ indexFooter

end StaticFile

/-! ## The middleware -/

/-- `static_file::call`. The path of a request is never empty, so that `std::string(path, 1)` is
its tail. -/
def staticFile (mgz : Mgz) (mem : Memory) (self : StaticFile) (app_ : Option Http.Middleware) :
    Http.Middleware := fun env => do
  let response ← getResponse app_ env
  let request := getRequest env
  if response.code = 0 ∨ response.code = 404 then
    let filename := self.getFilename (request.path.drop 1)
    if ← StaticFile.exist filename then
      -- a directory that may not be explored leaves the response as it is
      if ← StaticFile.isDirectory filename then
        if self.allowExplore then
          let response := response.assign (str "Content-Type") (.string (str "text/html"))
          let response := { response with code := Error.ok.value }
          let content ← self.getDirectoryContent mgz mem filename
          return { response with body := content }
        else return response
      else
        let response :=
          response.assign (str "Content-Type") (.string (StaticFile.getMime mgz filename))
        let response := { response with code := Error.ok.value }
        let content ← StaticFile.getFileContent filename
        return { response with body := content }
    else return response
  else return response

end Lhs.Middleware
