import LhsServer.Correctness.Totality
import LhsServer.Correctness.Message
import LhsServer.Server.ClientThread

/-!
# Reading a request from the socket

TCP may deliver a message in any pieces. The read loop takes a read that does not fill its buffer
for the end of the message, so that what it reads depends on the cut points.

- `readLoop_delivery_iff`: the loop reads exactly the message when every read but the last fills
  the buffer, and the last does not or the client then closes its side;
- `agree_iff`: two deliveries of a message give the same request exactly when both are such;
- `segmentation_fails`: a message that arrives in two pieces is cut after the first;
- `waits_iff`: the loop reads on behind the message exactly when every read fills the buffer.
-/

namespace Lhs.Server

open Bytes Http

/-! ## Deliveries -/

/-- The bytes of one read that is neither an error nor the end of the stream. -/
def Chunk : Type := { bytes : Bytes // bytes ≠ [] ∧ bytes.length ≤ bufferSize }

/-- The result of the read that returns a chunk. -/
def Chunk.read (c : Chunk) : ReadResult := .received c.1 c.2.2

/-- The results of the reads that return the chunks, and then the end of the stream if the client
closes its side of the connection. -/
def readsOf (chunks : List Chunk) (closed : Bool) : List ReadResult :=
  chunks.map Chunk.read ++ if closed then [.received [] (Nat.zero_le _)] else []

/-- One way in which the socket delivers the message `m`. -/
structure Delivery (m : Bytes) where
  chunks : List Chunk
  flatten : (chunks.map (·.1)).flatten = m
  /-- whether the client closes its side of the connection behind the message -/
  closed : Bool

/-- Every read but the last fills the buffer, and after the last the loop stops: because that read
is short, or at the end of the stream. -/
def Full (chunks : List Chunk) (closed : Bool) : Prop :=
  (∀ c ∈ chunks.dropLast, c.1.length = bufferSize) ∧
    (closed ∨ ∃ c, chunks.getLast? = some c ∧ c.1.length < bufferSize)

/-! ## One delivery -/

theorem full_nil (closed : Bool) : Full [] closed ↔ closed := by
  simp [Full]

/-- A read that does not fill the buffer has to be the last. -/
theorem full_cons_of_short {c : Chunk} (hc : c.1.length < bufferSize) (chunks : List Chunk)
    (closed : Bool) : Full (c :: chunks) closed ↔ chunks = [] := by
  constructor
  · rintro ⟨hfull, -⟩
    by_contra hne
    -- with a chunk behind it, the short one would not be the last
    have hmem : c ∈ (c :: chunks).dropLast := by
      rw [List.dropLast_cons_of_ne_nil hne]
      exact List.mem_cons_self
    have := hfull c hmem
    omega
  · rintro rfl
    exact ⟨by simp, Or.inr ⟨c, rfl, hc⟩⟩

/-- A read that fills the buffer says nothing about those that follow. -/
theorem full_cons_of_full {c : Chunk} (hc : c.1.length = bufferSize) (chunks : List Chunk)
    (closed : Bool) : Full (c :: chunks) closed ↔ Full chunks closed := by
  rcases eq_or_ne chunks [] with rfl | hne
  · simp [Full, hc]
  · rw [Full, Full, List.dropLast_cons_of_ne_nil hne, List.getLast?_cons_of_ne_nil hne]
    simp [hc]

theorem flatten_eq_nil_iff (chunks : List Chunk) :
    (chunks.map (·.1)).flatten = [] ↔ chunks = [] := by
  constructor
  · intro h
    rw [List.flatten_eq_nil_iff] at h
    rcases chunks with _ | ⟨c, chunks⟩
    · rfl
    · exact absurd (h c.1 (by simp)) c.2.1
  · rintro rfl
    rfl

/-- The loop reads exactly the chunks when every one but the last fills the buffer. -/
theorem readLoop_readsOf_iff (chunks : List Chunk) (closed : Bool) (buffer : Bytes) :
    readLoop (readsOf chunks closed) buffer = .done (buffer ++ (chunks.map (·.1)).flatten) ↔
      Full chunks closed := by
  induction chunks generalizing buffer with
  | nil =>
    rw [full_nil]
    cases closed <;> simp [readsOf, readLoop]
  | cons c chunks ih =>
    have hpos : c.1.length ≠ 0 := fun h => c.2.1 (List.length_eq_zero_iff.mp h)
    have hcons : readsOf (c :: chunks) closed = .received c.1 c.2.2 :: readsOf chunks closed := rfl
    rw [hcons, readLoop]
    rcases Nat.lt_or_eq_of_le c.2.2 with hshort | hfull
    -- the loop stops here, with the whole message only if nothing follows
    · rw [full_cons_of_short hshort, if_neg hpos, if_pos hshort, ← flatten_eq_nil_iff]
      simp
    -- the loop goes on with a longer buffer
    · rw [full_cons_of_full hfull, if_neg hpos, if_neg (by omega), ← ih (buffer ++ c.1)]
      simp

theorem readLoop_delivery_iff {m : Bytes} (d : Delivery m) :
    readLoop (readsOf d.chunks d.closed) [] = .done m ↔ Full d.chunks d.closed := by
  rw [← readLoop_readsOf_iff d.chunks d.closed [], List.nil_append, d.flatten]

/-! ## Two deliveries of one message -/

/-- The request parsed from what the loop has read. -/
def ReadEnd.request (mgz : Mgz) (mem : Memory) : ReadEnd → Option (Run Request)
  | .done buffer => some (Request.parse mgz mem buffer)
  | .reset => none
  | .blocked _ => none

/-- Both deliveries leave the message in the buffer, and give the same request. -/
structure Agree (mgz : Mgz) (mem : Memory) {m : Bytes} (d d' : Delivery m) : Prop where
  left : readLoop (readsOf d.chunks d.closed) [] = .done m
  right : readLoop (readsOf d'.chunks d'.closed) [] = .done m
  request : (readLoop (readsOf d.chunks d.closed) []).request mgz mem =
    (readLoop (readsOf d'.chunks d'.closed) []).request mgz mem

/-- Two deliveries of one message agree exactly when in both every read but the last fills the
buffer, and the loop stops after the last. -/
theorem agree_iff (mgz : Mgz) (mem : Memory) {m : Bytes} (d d' : Delivery m) :
    Agree mgz mem d d' ↔ Full d.chunks d.closed ∧ Full d'.chunks d'.closed := by
  constructor
  · rintro ⟨hleft, hright, -⟩
    exact ⟨(readLoop_delivery_iff d).mp hleft, (readLoop_delivery_iff d').mp hright⟩
  · rintro ⟨hd, hd'⟩
    have hleft := (readLoop_delivery_iff d).mpr hd
    have hright := (readLoop_delivery_iff d').mpr hd'
    exact ⟨hleft, hright, by rw [hleft, hright]⟩

/-- The message `GET / HTTP/1.1`, LF, LF is read in one piece, and cut when its first byte arrives
alone. -/
theorem segmentation_fails :
    ∃ d d' : Delivery (str "GET / HTTP/1.1\n\n"),
      readLoop (readsOf d.chunks d.closed) [] = .done (str "GET / HTTP/1.1\n\n") ∧
      readLoop (readsOf d'.chunks d'.closed) [] = .done (str "G") ∧
      ∀ mgz mem, ¬Agree mgz mem d d' := by
  let d : Delivery (str "GET / HTTP/1.1\n\n") :=
    { chunks := [⟨str "GET / HTTP/1.1\n\n", by decide⟩], flatten := by decide, closed := false }
  let d' : Delivery (str "GET / HTTP/1.1\n\n") :=
    { chunks := [⟨str "G", by decide⟩, ⟨str "ET / HTTP/1.1\n\n", by decide⟩]
      flatten := by decide
      closed := false }
  have hright : readLoop (readsOf d'.chunks d'.closed) [] = .done (str "G") := by decide
  refine ⟨d, d', by decide, hright, fun mgz mem hagree => ?_⟩
  -- the second delivery leaves one byte in the buffer
  have heq := hagree.right
  rw [hright] at heq
  exact absurd heq (by decide)

/-! ## The read behind the message -/

/-- The loop issues a read that waits for ever. -/
def Waits (reads : List ReadResult) : Prop := ∃ buffer, readLoop reads [] = .blocked buffer

/-- While every read fills the buffer, the loop goes on. -/
theorem exists_blocked_iff (chunks : List Chunk) (buffer : Bytes) :
    (∃ rest, readLoop (readsOf chunks false) buffer = .blocked rest) ↔
      ∀ c ∈ chunks, c.1.length = bufferSize := by
  induction chunks generalizing buffer with
  | nil => exact iff_of_true ⟨buffer, rfl⟩ (List.forall_mem_nil _)
  | cons c chunks ih =>
    have hpos : c.1.length ≠ 0 := fun h => c.2.1 (List.length_eq_zero_iff.mp h)
    have hcons : readsOf (c :: chunks) false = .received c.1 c.2.2 :: readsOf chunks false := rfl
    rw [hcons, readLoop, List.forall_mem_cons]
    rcases Nat.lt_or_eq_of_le c.2.2 with hshort | hfull
    · rw [if_neg hpos, if_pos hshort]
      simp [hshort.ne]
    · rw [if_neg hpos, if_neg (by omega), ih (buffer ++ c.1), and_iff_right hfull]

/-- A message whose length is a multiple of the size of the buffer can arrive in full reads. -/
theorem exists_full_chunks (n : ℕ) {m : Bytes} (h : m.length = bufferSize * n) :
    ∃ chunks : List Chunk, (chunks.map (·.1)).flatten = m ∧
      ∀ c ∈ chunks, c.1.length = bufferSize := by
  induction n generalizing m with
  | zero =>
    obtain rfl : m = [] := List.length_eq_zero_iff.mp h
    exact ⟨[], rfl, List.forall_mem_nil _⟩
  | succ n ih =>
    have hlength : (m.take bufferSize).length = bufferSize := by
      rw [List.length_take, h, Nat.mul_succ]
      omega
    have hrest : (m.drop bufferSize).length = bufferSize * n := by
      rw [List.length_drop, h, Nat.mul_succ]
      omega
    obtain ⟨chunks, hflatten, hfull⟩ := ih hrest
    have hne : m.take bufferSize ≠ [] := by
      intro hnil
      rw [hnil] at hlength
      cases hlength
    refine ⟨⟨m.take bufferSize, hne, hlength.le⟩ :: chunks, ?_, ?_⟩
    · show m.take bufferSize ++ (chunks.map (·.1)).flatten = m
      rw [hflatten, List.take_append_drop]
    · exact List.forall_mem_cons.mpr ⟨hlength, hfull⟩

theorem dvd_length_of_full {chunks : List Chunk} (h : ∀ c ∈ chunks, c.1.length = bufferSize) :
    bufferSize ∣ ((chunks.map (·.1)).flatten).length := by
  induction chunks with
  | nil => exact Nat.dvd_zero _
  | cons c chunks ih =>
    obtain ⟨hc, hchunks⟩ := List.forall_mem_cons.mp h
    rw [List.map_cons, List.flatten_cons, List.length_append, hc]
    exact (Nat.dvd_add_right (Nat.dvd_refl _)).mpr (ih hchunks)

/-- On a connection that stays open, the loop reads on behind a message exactly when every read
filled the buffer; and there is such a way to deliver the message exactly when its length is a
multiple of the size of the buffer. -/
theorem waits_iff (m : Bytes) :
    (∀ d : Delivery m, ¬Waits (readsOf d.chunks false) ↔
      ∃ c ∈ d.chunks, c.1.length < bufferSize) ∧
    ((∀ d : Delivery m, ¬Waits (readsOf d.chunks false)) ↔ ¬bufferSize ∣ m.length) := by
  have hwaits : ∀ chunks : List Chunk, Waits (readsOf chunks false) ↔
      ∀ c ∈ chunks, c.1.length = bufferSize := fun chunks => exists_blocked_iff chunks []
  constructor
  · intro d
    rw [hwaits]
    constructor
    · intro h
      by_contra hnone
      exact h fun c hc => c.2.2.eq_of_not_lt fun hlt => hnone ⟨c, hc, hlt⟩
    · rintro ⟨c, hc, hlt⟩ h
      exact hlt.ne (h c hc)
  · constructor
    · rintro h ⟨n, hn⟩
      obtain ⟨chunks, hflatten, hfull⟩ := exists_full_chunks n hn
      exact h ⟨chunks, hflatten, false⟩ ((hwaits chunks).mpr hfull)
    · intro h d hwaits'
      have hdvd := dvd_length_of_full ((hwaits d.chunks).mp hwaits')
      rw [d.flatten] at hdvd
      exact h hdvd

theorem ends_post : Eol.crlf.Ends (str "POST / HTTP/1.1") := ⟨by decide, nofun⟩

/-- A request with a body that makes it 1024 bytes long. -/
def fullMessage : Message :=
  .ofTexts ends_post (List.forall_mem_nil _) (List.replicate 1005 97)

/-- The message is a request, and arrives in one read; the loop then waits for more. -/
theorem waits_fails :
    fullMessage.bytes.length = bufferSize ∧
      (∃ r, Request.parse .plain .zero fullMessage.bytes = .ok r) ∧
      ∃ d : Delivery fullMessage.bytes, d.chunks.length = 1 ∧
        readLoop (readsOf d.chunks false) [] = .blocked fullMessage.bytes := by
  have hbytes : fullMessage.bytes =
      str "POST / HTTP/1.1\r\n\r\n" ++ List.replicate 1005 97 := by
    rw [fullMessage, Message.bytes_ofTexts]
    rfl
  have hlength : fullMessage.bytes.length = bufferSize := by
    rw [hbytes, List.length_append, List.length_replicate]
    rfl
  have hne : fullMessage.bytes ≠ [] := by
    intro h
    rw [h] at hlength
    cases hlength
  obtain ⟨line, hinit⟩ :=
    (Request.parseInit_ok_iff Mgz.plain_splitsPieces fullMessage.requestLine.text).mpr
      ⟨str "POST", str "/", str "HTTP/1.1", by decide, rfl⟩
  refine ⟨hlength, ⟨_, fullMessage.parse_message .plain (fun _ => ⟨NUL, rfl, by decide⟩) hinit⟩,
    { chunks := [⟨fullMessage.bytes, hne, hlength.le⟩]
      flatten := List.append_nil fullMessage.bytes
      closed := false }, rfl, ?_⟩
  show readLoop [.received fullMessage.bytes hlength.le] [] = .blocked fullMessage.bytes
  rw [readLoop, if_neg (by rw [hlength]; decide), if_neg (by rw [hlength]; decide)]
  rfl

end Lhs.Server
