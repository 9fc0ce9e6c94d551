import Neatworks.Framing

/-!
# The preamble of a TCP stream

`Tcp::new` and `tcp_accept_session` in `net/session.rs`: the address a peer is
reached at, in the encoding of `bincode::options()`, padded to one length. The
numbers of that encoding take from one byte to nine.
-/

namespace Neatworks

/-! ## Numbers of variable length -/

def serializeVarint (n : Nat) : List UInt8 :=
  if n < 251 then [UInt8.ofNat n]
  else if n < 2 ^ 16 then 251 :: leBytes 2 n
  else if n < 2 ^ 32 then 252 :: leBytes 4 n
  else 253 :: leBytes 8 n

/-- The number in the first `w` bytes, lowest first. -/
def readLe (w : Nat) (bytes : List UInt8) : Option (Nat × List UInt8) :=
  if w ≤ bytes.length then some (leNat (bytes.take w), bytes.drop w) else none

def deserializeVarint : List UInt8 → Option (Nat × List UInt8)
  | [] => none
  | byte :: bytes =>
    if byte < 251 then some (byte.toNat, bytes)
    else if byte = 251 then readLe 2 bytes
    else if byte = 252 then readLe 4 bytes
    else if byte = 253 then readLe 8 bytes
    else none

theorem readLe_append {w n : Nat} (hn : n < 256 ^ w) (rest : List UInt8) : readLe w (leBytes w n ++ rest) = some (n, rest) := by
  simp [readLe, leNat_leBytes, Nat.mod_eq_of_lt hn]

theorem deserializeVarint_append {n : Nat} (hn : n < 2 ^ 64) (rest : List UInt8) :
    deserializeVarint (serializeVarint n ++ rest) = some (n, rest) := by
  unfold serializeVarint
  split
  · next hsmall =>
    have hlt : UInt8.ofNat n < 251 := by
      rw [UInt8.lt_iff_toNat_lt, UInt8.toNat_ofNat']
      exact Nat.lt_of_le_of_lt (Nat.mod_le ..) hsmall
    simp only [List.cons_append, List.nil_append, deserializeVarint, hlt, if_true]
    rw [UInt8.toNat_ofNat', Nat.mod_eq_of_lt (by omega)]
  · split
    · next h16 =>
      change readLe 2 (leBytes 2 n ++ rest) = _
      exact readLe_append (by omega) rest
    · split
      · next h32 =>
        change readLe 4 (leBytes 4 n ++ rest) = _
        exact readLe_append (by omega) rest
      · change readLe 8 (leBytes 8 n ++ rest) = _
        exact readLe_append (by omega) rest

theorem serializeVarint_length {n : Nat} (hn : n < 2 ^ 16) : 1 ≤ (serializeVarint n).length ∧ (serializeVarint n).length ≤ 3 := by
  unfold serializeVarint
  rw [if_pos hn]
  split <;> simp

namespace Net

/-! ## Addresses -/

abbrev Octets (n : Nat) := { octets : Bytes // octets.length = n }

inductive SocketAddr
  | v4 (ip : Octets 4) (port : UInt16)
  | v6 (ip : Octets 16) (port : UInt16) (flowinfo scopeId : UInt32)
  deriving DecidableEq

abbrev TcpPreamble := Option SocketAddr

def tcpPreambleLen : Nat := 16

def readOctets (n : Nat) (bytes : Bytes) : Option (Octets n × Bytes) :=
  if h : n ≤ bytes.length then some (⟨bytes.take n, by simp [h]⟩, bytes.drop n) else none

/-- The index of the variant, and the address as a pair. -/
def SocketAddr.serialize : SocketAddr → Bytes
  | .v4 ip port => serializeVarint 0 ++ (ip.1 ++ serializeVarint port.toNat)
  | .v6 ip port _ _ => serializeVarint 1 ++ (ip.1 ++ serializeVarint port.toNat)

def TcpPreamble.serialize : TcpPreamble → Bytes
  | none => [0]
  | some addr => 1 :: addr.serialize

def deserializePort (bytes : Bytes) : Option (UInt16 × Bytes) := do
  let (n, bytes) ← deserializeVarint bytes
  if n < 2 ^ 16 then some (UInt16.ofNat n, bytes) else none

def SocketAddr.deserialize (bytes : Bytes) : Option (SocketAddr × Bytes) := do
  let (variant, bytes) ← deserializeVarint bytes
  match variant with
  | 0 => do
    let (ip, bytes) ← readOctets 4 bytes
    let (port, bytes) ← deserializePort bytes
    return (.v4 ip port, bytes)
  | 1 => do
    let (ip, bytes) ← readOctets 16 bytes
    let (port, bytes) ← deserializePort bytes
    return (.v6 ip port 0 0, bytes)
  | _ => none

def TcpPreamble.deserialize : Bytes → Option (TcpPreamble × Bytes)
  | 0 :: bytes => some (none, bytes)
  | 1 :: bytes => (SocketAddr.deserialize bytes).map fun (addr, bytes) => (some addr, bytes)
  | _ => none

/-! ## The two ends -/

/-- `Tcp::new`. -/
def Tcp.new (addr : TcpPreamble) : Except Panic Bytes :=
  let preamble := addr.serialize
  if preamble.length < tcpPreambleLen then .ok (preamble ++ List.replicate (tcpPreambleLen - preamble.length) 0)
  else .error .assert

/-- What `tcp_accept_session` makes of a preamble; the bytes after the value are allowed. -/
def acceptPreamble (preamble : Bytes) : Option TcpPreamble := (TcpPreamble.deserialize preamble).map Prod.fst

/-! ## Round trips -/

theorem readOctets_append {n : Nat} (ip : Octets n) (rest : Bytes) : readOctets n (ip.1 ++ rest) = some (ip, rest) := by
  obtain ⟨octets, rfl⟩ := ip
  simp [readOctets]

theorem deserializePort_append (port : UInt16) (rest : Bytes) :
    deserializePort (serializeVarint port.toNat ++ rest) = some (port, rest) := by
  have hlt := port.toNat_lt
  simp [deserializePort, deserializeVarint_append (show port.toNat < 2 ^ 64 by omega), hlt]

def SocketAddr.IsV4 : SocketAddr → Prop
  | .v4 _ _ => True
  | .v6 _ _ _ _ => False

theorem SocketAddr.serialize_length (addr : SocketAddr) :
    addr.IsV4 ∧ addr.serialize.length ≤ 8 ∨ ¬addr.IsV4 ∧ 18 ≤ addr.serialize.length := by
  have hindex (n : Nat) (hn : n < 251) : (serializeVarint n).length = 1 := by simp [serializeVarint, hn]
  cases addr with
  | v4 ip port =>
    have hport := serializeVarint_length port.toNat_lt
    refine Or.inl ⟨trivial, ?_⟩
    simp only [serialize, List.length_append, hindex 0 (by decide), ip.2]
    omega
  | v6 ip port flowinfo scopeId =>
    have hport := serializeVarint_length port.toNat_lt
    refine Or.inr ⟨id, ?_⟩
    simp only [serialize, List.length_append, hindex 1 (by decide), ip.2]
    omega

theorem SocketAddr.deserialize_serialize {addr : SocketAddr} (h : addr.IsV4) (rest : Bytes) :
    SocketAddr.deserialize (addr.serialize ++ rest) = some (addr, rest) := by
  cases addr with
  | v4 ip port =>
    simp [serialize, SocketAddr.deserialize, List.append_assoc, deserializeVarint_append, readOctets_append,
      deserializePort_append]
  | v6 ip port flowinfo scopeId => exact h.elim

theorem TcpPreamble.deserialize_serialize {addr : TcpPreamble} (h : ∀ a ∈ addr, a.IsV4) (rest : Bytes) :
    TcpPreamble.deserialize (addr.serialize ++ rest) = some (addr, rest) := by
  cases addr with
  | none => rfl
  | some addr =>
    rw [serialize, List.cons_append, TcpPreamble.deserialize, SocketAddr.deserialize_serialize (h addr rfl)]
    rfl

/-- The preamble is made, has its length and is read back. -/
def PreambleRoundTrip (addr : TcpPreamble) : Prop :=
  ∃ preamble, Tcp.new addr = .ok preamble ∧ preamble.length = tcpPreambleLen ∧ acceptPreamble preamble = some addr

theorem preamble_roundTrip_iff (addr : TcpPreamble) : PreambleRoundTrip addr ↔ ∀ a ∈ addr, a.IsV4 := by
  have hlength : (∀ a ∈ addr, a.IsV4) ↔ addr.serialize.length < tcpPreambleLen := by
    cases addr with
    | none => simp [TcpPreamble.serialize, tcpPreambleLen]
    | some addr =>
      simp only [Option.mem_def, Option.some.injEq, forall_eq', TcpPreamble.serialize, List.length_cons, tcpPreambleLen]
      rcases addr.serialize_length with ⟨hv4, hle⟩ | ⟨hv4, hle⟩
      · exact iff_of_true hv4 (by omega)
      · exact iff_of_false hv4 (by omega)
  constructor
  · rintro ⟨preamble, hnew, _, _⟩
    rw [hlength]
    by_contra hlong
    simp [Tcp.new, hlong] at hnew
  · intro hv4
    have hlt := hlength.mp hv4
    refine ⟨_, if_pos hlt, ?_, ?_⟩
    · rw [List.length_append, List.length_replicate]
      omega
    · rw [acceptPreamble, TcpPreamble.deserialize_serialize hv4]
      rfl

/-- The loopback address of IPv6, and a port. -/
theorem preamble_roundTrip_fails : ¬PreambleRoundTrip (some (.v6 ⟨[0, 0, 0, 0, 0, 0, 0, 0, 0, 0, 0, 0, 0, 0, 0, 1], rfl⟩ 80 0 0)) := by
  rintro ⟨preamble, hnew, _, _⟩
  exact nomatch hnew

end Net

end Neatworks
