import Neatworks.Bytes
import Neatworks.Event

/-!
# Buffers over TCP

`read_task` and `write_task` of `Tcp` in `net/session.rs`. What a task reads is
the bytes that arrive until the stream ends; the writes succeed. A buffer that
`read_task` hands to `on_buf` is an effect.
-/

namespace Neatworks.Net

abbrev Bytes := List UInt8

def maxBufLen : Nat := 2 ^ 20

/-! ## Writing -/

/-- What `write_task` writes for a buffer. -/
def writeBuf (buf : Bytes) : Bytes := beBytes 8 buf.length ++ buf

def writeTask (bufs : List Bytes) : Bytes := bufs.flatMap writeBuf

/-! ## Reading -/

inductive ReadError
  | unexpectedEof
  | invalidBufferLength (len : Nat)
  | onBuf (error : Error)

/-- `None` if the stream ends before. -/
def readExact (len : Nat) (stream : Bytes) : Option (Bytes × Bytes) :=
  if len ≤ stream.length then some (stream.take len, stream.drop len) else none

def readU64 (stream : Bytes) : Option (Nat × Bytes) := (readExact 8 stream).map fun (header, stream) => (beNat header, stream)

theorem readExact_append (buf rest : Bytes) : readExact buf.length (buf ++ rest) = some (buf, rest) := by
  simp [readExact]

theorem readExact_eq_some {len : Nat} {stream buf rest : Bytes} (h : readExact len stream = some (buf, rest)) :
    stream = buf ++ rest ∧ buf.length = len := by
  unfold readExact at h
  split at h
  · next hle =>
    cases h
    exact ⟨(List.take_append_drop ..).symm, by simp [hle]⟩
  · cases h

theorem readExact_eq_none {len : Nat} {stream : Bytes} (h : stream.length < len) : readExact len stream = none :=
  if_neg (Nat.not_le.mpr h)

theorem readU64_append {n : Nat} (hn : n < 256 ^ 8) (rest : Bytes) : readU64 (beBytes 8 n ++ rest) = some (n, rest) := by
  have hexact := readExact_append (beBytes 8 n) rest
  rw [beBytes_length] at hexact
  rw [readU64, hexact, Option.map_some]
  simp only [beNat_beBytes]
  rw [Nat.mod_eq_of_lt hn]

theorem readU64_eq_some {stream rest : Bytes} {len : Nat} (h : readU64 stream = some (len, rest)) :
    stream = beBytes 8 len ++ rest := by
  obtain ⟨⟨header, rest'⟩, hexact, heq⟩ := Option.map_eq_some_iff.mp h
  obtain ⟨hstream, hlen⟩ := readExact_eq_some hexact
  cases heq
  rw [hstream, ← hlen, beBytes_beNat]

section
variable {S : Type} (onBuf : S → Bytes → Except Error S)

/-- An end inside a header is an end of the stream like any other. -/
def readTask (state : S) (stream : Bytes) : Outcome Bytes ReadError S :=
  match _hheader : readU64 stream with
  | none => return state
  | some (len, rest) => do
    Outcome.assert (len ≤ maxBufLen) (.invalidBufferLength len)
    match _hbody : readExact len rest with
    | none => Outcome.throw .unexpectedEof
    | some (buf, rest') => do
      Outcome.emit buf
      let state ← Outcome.ofExcept ((onBuf state buf).mapError .onBuf)
      readTask state rest'
termination_by stream.length
decreasing_by
  rw [readU64_eq_some _hheader, (readExact_eq_some _hbody).1]
  simp
  omega

variable {onBuf} {state : S} {stream rest : Bytes}

theorem readTask_eof (h : readU64 stream = none) : readTask onBuf state stream = .ok state [] := by
  rw [readTask]
  split
  · rfl
  · next heq => rw [h] at heq; cases heq

theorem readTask_header {len : Nat} (h : readU64 stream = some (len, rest)) : readTask onBuf state stream = (do
    Outcome.assert (len ≤ maxBufLen) (.invalidBufferLength len)
    match readExact len rest with
    | none => Outcome.throw .unexpectedEof
    | some (buf, rest') => do
      Outcome.emit buf
      let state ← Outcome.ofExcept ((onBuf state buf).mapError .onBuf)
      readTask onBuf state rest') := by
  rw [readTask]
  split
  · next heq => rw [h] at heq; cases heq
  · next heq =>
    rw [h] at heq
    cases heq
    split
    · next hbody => simp only [hbody]
    · next hbody => simp only [hbody]

theorem writeTask_cons (buf : Bytes) (bufs : List Bytes) : writeTask (buf :: bufs) = writeBuf buf ++ writeTask bufs :=
  List.flatMap_cons

theorem writeBuf_length (buf : Bytes) : (writeBuf buf).length = 8 + buf.length := by simp [writeBuf]

theorem lt_of_le_maxBufLen {len : Nat} (h : len ≤ maxBufLen) : len < 256 ^ 8 := by
  unfold maxBufLen at h
  omega

theorem readTask_writeBuf {buf : Bytes} (h : buf.length ≤ maxBufLen) : readTask onBuf state (writeBuf buf ++ rest) = (do
    Outcome.emit buf
    let state ← Outcome.ofExcept ((onBuf state buf).mapError .onBuf)
    readTask onBuf state rest) := by
  have hheader : readU64 (writeBuf buf ++ rest) = some (buf.length, buf ++ rest) := by
    rw [writeBuf, List.append_assoc]
    exact readU64_append (lt_of_le_maxBufLen h) _
  rw [readTask_header hheader, readExact_append]
  simp [Outcome.assert, h]

/-- Whatever arrives, the buffers that are handed over are what it starts with. -/
theorem writeTask_effects_prefix (state : S) (stream : Bytes) :
    writeTask (readTask onBuf state stream).effects <+: stream := by
  induction hlen : stream.length using Nat.strongRecOn generalizing state stream with
  | ind n ih =>
  subst hlen
  rw [← Outcome.sat_effects (P := fun bufs => writeTask bufs <+: stream)]
  cases hheader : readU64 stream with
  | none =>
    rw [readTask_eof hheader]
    exact List.nil_prefix
  | some header =>
    obtain ⟨len, rest⟩ := header
    rw [readTask_header hheader]
    simp only [Outcome.sat_bind, Outcome.sat_assert]
    refine ⟨fun hle => ?_, fun _ => List.nil_prefix⟩
    cases hbody : readExact len rest with
    | none => exact List.nil_prefix
    | some body =>
      obtain ⟨buf, rest'⟩ := body
      obtain ⟨hrest, hbuf⟩ := readExact_eq_some hbody
      have hstream : stream = writeBuf buf ++ rest' := by
        rw [readU64_eq_some hheader, hrest, ← hbuf, writeBuf, List.append_assoc]
      have hone : writeTask [buf] <+: stream := ⟨rest', by rw [hstream]; simp [writeTask]⟩
      simp only [Outcome.sat_bind, Outcome.sat_emit, Outcome.sat_ofExcept]
      refine ⟨fun state' _ => ?_, fun _ _ => by simpa using hone⟩
      have hshorter : rest'.length < stream.length := by
        rw [hstream, List.length_append, writeBuf_length]
        omega
      have hlater := ih rest'.length hshorter state' rest' rfl
      rw [← Outcome.sat_effects (P := fun bufs => writeTask bufs <+: rest')] at hlater
      refine hlater.mono (fun _ bufs hbufs => ?_) fun bufs hbufs => ?_
      · simpa [writeTask_cons, hstream] using hbufs
      · simpa [writeTask_cons, hstream] using hbufs

/-! ## The buffers that were written -/

section
variable (f : S → Bytes → S)

/-- `on_buf` takes every buffer. -/
def taking : S → Bytes → Except Error S := fun state buf => .ok (f state buf)

theorem readTask_taking {buf : Bytes} (h : buf.length ≤ maxBufLen) :
    readTask (taking f) state (writeBuf buf ++ rest) = (do
      Outcome.emit buf
      readTask (taking f) (f state buf) rest) := by
  rw [readTask_writeBuf h]
  simp [taking, Except.mapError, Outcome.ofExcept]

theorem readTask_writeTask {bufs : List Bytes} (hbufs : ∀ buf ∈ bufs, buf.length ≤ maxBufLen) :
    readTask (taking f) state (writeTask bufs) = .ok (bufs.foldl f state) bufs := by
  induction bufs generalizing state with
  | nil => exact readTask_eof rfl
  | cons buf bufs ih =>
    obtain ⟨hbuf, hbufs⟩ := List.forall_mem_cons.mp hbufs
    rw [writeTask_cons, readTask_taking f hbuf, ih hbufs]
    rfl

theorem effects_of_short {buf : Bytes} (hbuf : buf.length ≤ maxBufLen) (h : stream <+: writeBuf buf ++ rest)
    (hshort : stream.length < (writeBuf buf).length) : (readTask onBuf state stream).effects = [] := by
  have hpart : stream <+: writeBuf buf := List.prefix_of_prefix_length_le h (List.prefix_append ..) (Nat.le_of_lt hshort)
  by_cases hlen : stream.length < 8
  · have hheader : readU64 stream = none := by rw [readU64, readExact_eq_none hlen, Option.map_none]
    rw [readTask_eof hheader]
    rfl
  · obtain ⟨body, rfl⟩ := List.prefix_of_prefix_length_le (List.prefix_append ..) hpart (by simpa using hlen)
    have hbody : body.length < buf.length := by
      rw [List.length_append, beBytes_length, writeBuf_length] at hshort
      omega
    rw [readTask_header (readU64_append (lt_of_le_maxBufLen hbuf) body), readExact_eq_none hbody]
    simp [Outcome.assert, hbuf, Outcome.throw, Outcome.effects]

theorem effects_of_prefix {bufs : List Bytes} (hbufs : ∀ buf ∈ bufs, buf.length ≤ maxBufLen) (h : stream <+: writeTask bufs) :
    ∃ k ≤ bufs.length, (readTask (taking f) state stream).effects = bufs.take k ∧
      ∀ i < bufs.length, i < k ↔ (writeTask (bufs.take (i + 1))).length ≤ stream.length := by
  induction bufs generalizing state stream with
  | nil =>
    rw [List.prefix_nil.mp h]
    exact ⟨0, Nat.le_refl _, by rw [readTask_eof rfl]; rfl, nofun⟩
  | cons buf bufs ih =>
    obtain ⟨hbuf, hbufs⟩ := List.forall_mem_cons.mp hbufs
    rw [writeTask_cons] at h
    by_cases hwhole : (writeBuf buf).length ≤ stream.length
    · obtain ⟨rest, rfl⟩ := List.prefix_of_prefix_length_le (List.prefix_append ..) h hwhole
      have hafter : readTask (taking f) state (writeBuf buf ++ rest) = _ := readTask_taking f hbuf
      obtain ⟨k, hk, heffects, hiff⟩ := ih hbufs ((List.prefix_append_right_inj _).mp h)
      refine ⟨k + 1, Nat.succ_le_succ hk, ?_, fun i hi => ?_⟩
      · rw [hafter, Outcome.effects_emit_bind, heffects, List.take_succ_cons]
      · rw [List.take_succ_cons, writeTask_cons, List.length_append, List.length_append, Nat.add_le_add_iff_left]
        cases i with
        | zero => simp [writeTask]
        | succ i => rw [Nat.add_lt_add_iff_right, hiff i (Nat.lt_of_succ_lt_succ hi)]
    · refine ⟨0, Nat.zero_le _, effects_of_short hbuf h (Nat.not_le.mp hwhole), fun i _ => ?_⟩
      rw [List.take_succ_cons, writeTask_cons, List.length_append]
      omega

end

/-- Reading is the inverse of writing, also of a stream that is cut short, and the
buffers that are handed over are what any stream starts with. -/
theorem framing (f : S → Bytes → S) (state : S) :
    (∀ bufs, (∀ buf ∈ bufs, buf.length ≤ maxBufLen) →
      readTask (taking f) state (writeTask bufs) = .ok (bufs.foldl f state) bufs ∧
        ∀ stream, stream <+: writeTask bufs → stream ≠ writeTask bufs →
          ∃ k ≤ bufs.length, (readTask (taking f) state stream).effects = bufs.take k ∧
            ∀ i < bufs.length, i < k ↔ (writeTask (bufs.take (i + 1))).length ≤ stream.length) ∧
      ∀ (onBuf : S → Bytes → Except Error S) (stream : Bytes), writeTask (readTask onBuf state stream).effects <+: stream :=
  ⟨fun _ hbufs => ⟨readTask_writeTask f hbufs, fun _ hprefix _ => effects_of_prefix f hbufs hprefix⟩,
    fun _ => writeTask_effects_prefix state⟩

/-- An empty buffer and one of two bytes, read into a list, and without the last byte. -/
theorem framing_two : readTask (taking fun bufs buf => bufs ++ [buf]) [] (writeTask [[], [1, 2]]) =
    .ok [[], [1, 2]] [[], [1, 2]] ∧
    ∃ k ≤ 2, (readTask (taking fun bufs buf => bufs ++ [buf]) [] (writeTask [[], [1, 2]]).dropLast).effects =
        List.take k [[], [1, 2]] ∧
      ∀ i < 2, i < k ↔ (writeTask (List.take (i + 1) [[], [1, 2]])).length ≤ (writeTask [[], [1, 2]]).dropLast.length :=
  have hbufs := (framing (fun bufs buf => bufs ++ [buf]) []).1 [[], [1, 2]] (by decide)
  ⟨hbufs.1, hbufs.2 _ (List.dropLast_prefix _) (by decide)⟩

end

end Neatworks.Net
