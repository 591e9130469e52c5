import LhsServer.Library.Traced
import LhsServer.Runtime

/-!
# The file system

What `static_file` asks the operating system: whether a file exists (`access`), what it is
(`stat`), its bytes (`ifstream`) and its entries (`opendir`, `readdir`). A `FileSystem` holds the
answers for every C string, each independent of the others: a name can exist without being
readable. `OS` is the type of computations that ask such questions and record them. `Ifstream` is
the stream through which a file that has been opened is read.
-/

namespace Lhs

open Bytes

/-- The name of a directory entry: not empty, and without `/` and NUL. -/
def EntryName : Type := { name : Bytes // name ≠ [] ∧ slash ∉ name ∧ NUL ∉ name }

/-- The answers of a file system that does not change. -/
structure FileSystem where
  /-- whether `access(path, 0)` succeeds -/
  access : Bytes → Bool
  /-- what `stat(path, &status)` stores, unless it fails -/
  stat : Bytes → Option Stat
  /-- the bytes of the file, unless it cannot be opened -/
  ifstream : Bytes → Option Bytes
  /-- the entries in the order of `readdir`, unless the directory cannot be opened -/
  opendir : Bytes → Option (List EntryName)

/-- The file system with the given regular files and nothing else. -/
def FileSystem.ofFiles (files : List (Bytes × Bytes)) : FileSystem where
  access path := (files.lookup path).isSome
  stat path := (files.lookup path).map fun content => ⟨0o100644, content.length, 0⟩
  ifstream path := files.lookup path
  opendir _ := none

/-- A question to the operating system, with the C string it is about. -/
inductive OsCall where
  | access (path : Bytes)
  | stat (path : Bytes)
  | ifstream (path : Bytes)
  | opendir (path : Bytes)
  deriving DecidableEq, Repr

/-- The path handed over. -/
def OsCall.path : OsCall → Bytes
  | .access path => path
  | .stat path => path
  | .ifstream path => path
  | .opendir path => path

/-- Computations that question the file system. -/
abbrev OS := Traced FileSystem OsCall Fault

namespace OS

/-- `-1 != access(filename.c_str(), 0)` -/
def access (filename : Bytes) : OS Bool :=
  Traced.call (.access (cstr filename)) fun fs => fs.access (cstr filename)

/-- `stat(filename.c_str(), &status)` -/
def stat (filename : Bytes) : OS (Option Stat) :=
  Traced.call (.stat (cstr filename)) fun fs => fs.stat (cstr filename)

/-- `std::ifstream io(file.c_str(), std::ios::in | std::ios::binary)` -/
def ifstream (file : Bytes) : OS (Option Bytes) :=
  Traced.call (.ifstream (cstr file)) fun fs => fs.ifstream (cstr file)

/-- `opendir(file.c_str())` with the entries `readdir` then returns -/
def opendir (file : Bytes) : OS (Option (List EntryName)) :=
  Traced.call (.opendir (cstr file)) fun fs => fs.opendir (cstr file)

section Value

variable (filename : Bytes) (fs : FileSystem)

@[simp] theorem value_access :
    (access filename).value fs = .ok (fs.access (cstr filename)) := rfl

@[simp] theorem value_stat : (stat filename).value fs = .ok (fs.stat (cstr filename)) := rfl

@[simp] theorem value_ifstream :
    (ifstream filename).value fs = .ok (fs.ifstream (cstr filename)) := rfl

@[simp] theorem value_opendir :
    (opendir filename).value fs = .ok (fs.opendir (cstr filename)) := rfl

end Value

end OS

/-! ## Streams -/

/-- A `std::ifstream`. -/
structure Ifstream where
  /-- the bytes that have not been read -/
  rest : Bytes
  /-- whether no error flag is set -/
  good : Bool
  /-- how many bytes the last `read` has stored -/
  gcount : ℕ
  deriving DecidableEq, Repr

namespace Ifstream

/-- The stream of a file with this content, or of one that cannot be opened. -/
def new (content : Option Bytes) : Ifstream :=
  { rest := content.getD [], good := content.isSome, gcount := 0 }

/-- `read(s, n)`: at most `n` bytes are stored at the start of `s`. A stream that has fewer gets an
error flag, and one that has such a flag is not read from. -/
def read (io : Ifstream) (s : Bytes) (n : ℕ) : Ifstream × Bytes :=
  if io.good then
    let stored := io.rest.take n
    ({ rest := io.rest.drop n, good := n ≤ io.rest.length, gcount := stored.length },
      stored ++ s.drop stored.length)
  else ({ io with gcount := 0 }, s)

end Ifstream

end Lhs
