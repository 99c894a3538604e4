import CodingGateway.Model.Codec
import CodingGateway.Model.Config
set_option autoImplicit false

/-!
# Datagrams (`transport.c`)

A datagram is the list of its bytes.  Sending hands a datagram to `sendto` on the
socket of a path; receiving parses one datagram and attributes it to a path.
-/

namespace CodingGateway.Model

def wireMagic : UInt16 := 0xC0DE
def wireVersion : UInt8 := 0x01
def typeData : UInt8 := 0x01
def typeProbe : UInt8 := 0x02
def typeProbeEcho : UInt8 := 0x03
def wireHdrSize : ℕ := 14

/-- `struct wire_header`. -/
structure WireHeader where
  magic : UInt16
  version : UInt8
  type : UInt8
  blockId : UInt32
  shardIdx : UInt8
  k : UInt8
  n : UInt8
  reserved : UInt8
  payloadLen : UInt16
deriving DecidableEq, Repr

/-- `struct path_sock`; the address is the IPv4 address in `remote`. -/
structure PathSock where
  fd : ℤ
  remoteAddr : UInt32
  enabled : Bool

/-- `struct transport_ctx`, without the descriptor of the receive socket. -/
structure TransportCtx where
  paths : ℕ → PathSock
  pathCount : ℕ

/-! ## Sockets -/

/-- What `transport_init` meets outside the code. -/
structure SocketEnv where
  /-- `calloc`, and `socket` and `bind` for the receive socket, succeeded. -/
  receiverOpen : Bool
  /-- What `socket` returns for a path. -/
  socket : ℕ → ℤ
  /-- The address that `inet_pton` stores, if it returns 1. -/
  inetPton : List UInt8 → Option UInt32

/-- The entry of one path; the address of a zeroed entry is 0. -/
def pathSock (env : SocketEnv) (p : PathConfig) (i : ℕ) : PathSock :=
  if !p.enabled then { fd := -1, remoteAddr := 0, enabled := false }
  else if env.socket i < 0 then { fd := env.socket i, remoteAddr := 0, enabled := true }
  else
    match env.inetPton p.remoteIp with
    | some addr => { fd := env.socket i, remoteAddr := addr, enabled := true }
    | none => { fd := -1, remoteAddr := 0, enabled := true }

/-- `transport_init`. -/
def transportInit (env : SocketEnv) (cfg : GatewayConfig) : Option TransportCtx :=
  if env.receiverOpen then
    some
      { paths := fun i => if i < cfg.pathCount then pathSock env (cfg.paths i) i else ⟨0, 0, false⟩
        pathCount := cfg.pathCount }
  else none

/-! ## Byte order -/

def be16 (v : UInt16) : List UInt8 := [(v >>> 8).toUInt8, v.toUInt8]

def be32 (v : UInt32) : List UInt8 :=
  [(v >>> 24).toUInt8, (v >>> 16).toUInt8, (v >>> 8).toUInt8, v.toUInt8]

/-- The 16-bit value stored big-endian at `off`. -/
def readBe16 (buf : Bytes) (off : ℕ) : UInt16 :=
  (buf off).toUInt16 <<< 8 ||| (buf (off + 1)).toUInt16

/-- The 32-bit value stored big-endian at `off`. -/
def readBe32 (buf : Bytes) (off : ℕ) : UInt32 :=
  (buf off).toUInt32 <<< 24 ||| (buf (off + 1)).toUInt32 <<< 16 |||
    (buf (off + 2)).toUInt32 <<< 8 ||| (buf (off + 3)).toUInt32

/-! ## Sending -/

/-- The 14 header bytes as they stand in the send buffer. -/
def headerBytes (hdr : WireHeader) : List UInt8 :=
  be16 hdr.magic ++ [hdr.version, hdr.type] ++ be32 hdr.blockId ++
    [hdr.shardIdx, hdr.k, hdr.n, hdr.reserved] ++ be16 hdr.payloadLen

/-- The datagram of `transport_send_shard`. -/
def shardDatagram (blockId : UInt32) (shardIdx k n : UInt8) (s : Shard) : List UInt8 :=
  headerBytes
    { magic := wireMagic, version := wireVersion, type := typeData, blockId := blockId,
      shardIdx := shardIdx, k := k, n := n, reserved := 0, payloadLen := s.len } ++
    prefixList s.coeffs k.toNat ++ prefixList s.data s.len.toNat

/-- The datagram of `transport_send_probe` and `transport_send_probe_echo`. -/
def probeDatagram (type : UInt8) (timestampUs : UInt64) : List UInt8 :=
  headerBytes
    { magic := wireMagic, version := wireVersion, type := type, blockId := 0,
      shardIdx := 0, k := 0, n := 0, reserved := 0, payloadLen := 0 } ++
    be32 (timestampUs >>> 32).toUInt32 ++ be32 timestampUs.toUInt32

/-- `send_buf`: whether the datagram left, given that `sendto` would take all its bytes
(`accepted`).  Without an open socket `sendto` is not called. -/
def sendBuf (ctx : TransportCtx) (pathIdx : ℕ) (accepted : Bool) : Bool :=
  if !(ctx.paths pathIdx).enabled || decide ((ctx.paths pathIdx).fd < 0) then false else accepted

/-! ## Receiving -/

/-- One datagram on the receive socket: the sender's address and the bytes. -/
structure Datagram where
  sender : UInt32
  bytes : List UInt8

/-- What `transport_recv` returns, with the out-parameters it sets in that case. -/
inductive Received
  | error
  | data (hdr : WireHeader) (shard : Shard) (pathIdx : ℕ)
  | probe (timestampUs : UInt64) (pathIdx : ℕ)
  | probeEcho (timestampUs : UInt64) (pathIdx : ℕ)

/-- The header fields in host byte order. -/
def parseHeader (buf : Bytes) : WireHeader where
  magic := readBe16 buf 0
  version := buf 2
  type := buf 3
  blockId := readBe32 buf 4
  shardIdx := buf 8
  k := buf 9
  n := buf 10
  reserved := buf 11
  payloadLen := readBe16 buf 12

/-- The first enabled path whose remote address is the sender's, else path 0. -/
def matchPath (ctx : TransportCtx) (sender : UInt32) : ℕ :=
  ((List.range ctx.pathCount).find? fun i =>
    (ctx.paths i).enabled && (ctx.paths i).remoteAddr == sender).getD 0

/-- The size of the receive buffer; `recvfrom` truncates longer datagrams. -/
def recvBufSize : ℕ := wireHdrSize + maxK + maxPayload

/-- `transport_recv` on a datagram.  `shardOut` is what the caller's shard holds on entry. -/
def transportRecv (ctx : TransportCtx) (dgram : Datagram) (shardOut : Shard) : Received :=
  let bytes := dgram.bytes.take recvBufSize
  let n := bytes.length
  let buf := arrayOf bytes
  let hdr := parseHeader buf
  if n < wireHdrSize then .error
  else if hdr.magic ≠ wireMagic then .error
  else
    let pathIdx := matchPath ctx dgram.sender
    if hdr.type = typeData then
      if maxK < hdr.k.toNat then .error
      else if maxPayload < hdr.payloadLen.toNat then .error
      else if n < wireHdrSize + hdr.k.toNat + hdr.payloadLen.toNat then .error
      else
        .data hdr
          { coeffs := memcpy shardOut.coeffs (fun j => buf (wireHdrSize + j)) hdr.k.toNat
            data := memcpy shardOut.data (fun j => buf (wireHdrSize + hdr.k.toNat + j))
              hdr.payloadLen.toNat
            len := hdr.payloadLen } pathIdx
    else if hdr.type = typeProbe ∨ hdr.type = typeProbeEcho then
      if n < wireHdrSize + 8 then .error
      else
        let hi := readBe32 buf wireHdrSize
        let lo := readBe32 buf (wireHdrSize + 4)
        let ts := (hi.toUInt64 <<< 32) ||| lo.toUInt64
        if hdr.type = typeProbe then .probe ts pathIdx else .probeEcho ts pathIdx
    else .error

end CodingGateway.Model
