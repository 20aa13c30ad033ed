import CocaineNode.Core.Types
import CocaineNode.Lib.CodecWords

/-!
# The Levin Protocol

How peers frame their messages: a header of 33 bytes and a body. A message may
also be cut into fragments, each with a header of its own, so that all packets
on a link have one size.

`async_protocol_handler::handle_recv` is called with whatever has arrived. It
keeps what it cannot use yet in a buffer whose front is carved off, and it hands
every complete message to the commands handler. The handler is a parameter: it
changes a state of its own, which holds the limits of the connection and the
calls that wait for a response as well.

What is delivered is recorded, with whether it was put together from fragments.
Time is not modelled: that part of a response puts the timeout of the call that
waits for it off (`reset_timer`) is left out.

## Main definitions

* `Levin.Buffer`: `net_utils::buffer`.
* `Levin.Head`: `bucket_head2`.
-/

namespace CocaineNode

namespace Levin

open Codec (littleEndian ofLittleEndian)

/-! ## The buffer -/

/-- `net_utils::buffer`: what is in front of the offset has been used. -/
structure Buffer where
  storage : Blob
  offset : Nat
  capacity : Nat
  offset_le : offset ≤ storage.length

namespace Buffer

/-- The constructor. -/
def new (reserve : Nat) : Buffer :=
  ⟨[], 0, reserve, le_refl _⟩

def size (b : Buffer) : Nat :=
  b.storage.length - b.offset

/-- The used part is dropped. -/
def compact (b : Buffer) (capacity : Nat) : Buffer :=
  ⟨b.storage.drop b.offset, 0, capacity, Nat.zero_le _⟩

/-- The storage after room was made for `sz` bytes. -/
def makeRoom (b : Buffer) (sz : Nat) : Buffer :=
  if b.capacity - b.storage.length < sz then
    if b.size + sz ≤ b.capacity then b.compact b.capacity
    else b.compact (((b.size + sz) * 3 / 2 + 4095) / 4096 * 4096)
  else if b.size ≤ 4096 ∧ 4096 * 16 < b.offset ∧ b.capacity / 2 ≤ b.offset then
    b.compact b.capacity
  else b

/-- The bytes at the end. -/
def insert (b : Buffer) (data : Blob) : Buffer :=
  ⟨b.storage ++ data, b.offset, b.capacity,
    b.offset_le.trans (List.length_append ▸ Nat.le_add_right _ _)⟩

/-- `append`, without a value when it throws. -/
def append (b : Buffer) (data : Blob) : Option Buffer :=
  if b.storage.length < 2 ^ 64 - 1 - data.length then some ((b.makeRoom data.length).insert data)
  else none

/-- `erase`. -/
def erase (b : Buffer) (sz : Nat) : Option Buffer :=
  if h : b.offset + sz ≤ b.storage.length then
    if b.offset + sz = b.storage.length then some ⟨[], 0, b.capacity, le_refl _⟩
    else some ⟨b.storage, b.offset + sz, b.capacity, h⟩
  else none

/-- `span`. -/
def span (b : Buffer) (sz : Nat) : Option Blob :=
  if sz ≤ b.size then some ((b.storage.drop b.offset).take sz) else none

theorem offset_add_le {b : Buffer} {sz : Nat} (h : sz ≤ b.size) :
    b.offset + sz ≤ b.storage.length := by
  have hle := b.offset_le
  rw [size] at h
  omega

/-- `carve`. -/
def carve (b : Buffer) (sz : Nat) : Option (Blob × Buffer) :=
  if h : sz ≤ b.size then
    some ((b.storage.drop b.offset).take sz,
      ⟨b.storage, b.offset + sz, b.capacity, offset_add_le h⟩)
  else none

end Buffer

/-! ## Headers -/

/-- `bucket_head2`. -/
structure Head where
  signature : UInt64
  cb : UInt64
  haveToReturnData : UInt8
  command : UInt32
  returnCode : UInt32
  flags : UInt32
  protocolVersion : UInt32
  deriving DecidableEq, Repr

/-- `sizeof(bucket_head2)`. -/
def headSize : Nat := 33

/-- `LEVIN_SIGNATURE`. -/
def levinSignature : UInt64 := 0x0101010101012101

/-- `LEVIN_PACKET_REQUEST`. -/
def packetRequest : UInt32 := 1

/-- `LEVIN_PACKET_RESPONSE`. -/
def packetResponse : UInt32 := 2

/-- `LEVIN_PACKET_BEGIN`. -/
def packetBegin : UInt32 := 4

/-- `LEVIN_PACKET_END`. -/
def packetEnd : UInt32 := 8

/-- `LEVIN_PROTOCOL_VER_1`. -/
def protocolVer1 : UInt32 := 1

/-- The number in `n` bytes from a position. -/
def wordAt (bytes : Blob) (pos n : Nat) : Nat :=
  ofLittleEndian ((bytes.drop pos).take n)

/-- The header at the front of some bytes. -/
def Head.ofBytes (bytes : Blob) : Head where
  signature := UInt64.ofNat (wordAt bytes 0 8)
  cb := UInt64.ofNat (wordAt bytes 8 8)
  haveToReturnData := UInt8.ofNat (wordAt bytes 16 1)
  command := UInt32.ofNat (wordAt bytes 17 4)
  returnCode := UInt32.ofNat (wordAt bytes 21 4)
  flags := UInt32.ofNat (wordAt bytes 25 4)
  protocolVersion := UInt32.ofNat (wordAt bytes 29 4)

/-- `as_byte_span` of a header. -/
def Head.toBytes (h : Head) : Blob :=
  littleEndian 8 h.signature.toNat ++ (littleEndian 8 h.cb.toNat ++
    (littleEndian 1 h.haveToReturnData.toNat ++ (littleEndian 4 h.command.toNat ++
      (littleEndian 4 h.returnCode.toNat ++ (littleEndian 4 h.flags.toNat ++
        littleEndian 4 h.protocolVersion.toNat)))))

/-- `make_header`. -/
def makeHeader (command : UInt32) (msgSize : Nat) (flags : UInt32)
    (expectResponse : Bool) : Head where
  signature := levinSignature
  cb := UInt64.ofNat msgSize
  haveToReturnData := if expectResponse then 1 else 0
  command := command
  returnCode := 0
  flags := flags
  protocolVersion := protocolVer1

/-! ## Messages -/

/-- `message_writer::finalize_notify`, for the payload behind the place of the header. -/
def finalizeNotify (command : UInt32) (payload : Blob) : Blob :=
  (makeHeader command payload.length packetRequest false).toBytes ++ payload

/-- The rest of the fragments, each with its header, and what the last one is filled up with.
    `copySize` is the size of the fragment in front of them. -/
def fragmentLoop (noiseSize : Nat) : Nat → Blob → Nat → Blob
  | 0, _, copySize => List.replicate (noiseSize - copySize - headSize) 0
  | fuel + 1, payload, copySize =>
    if payload = [] then List.replicate (noiseSize - copySize - headSize) 0
    else
      let space := noiseSize - headSize
      let copy := payload.take space
      let rest := payload.drop space
      (makeHeader 0 space (if rest = [] then packetEnd else 0) false).toBytes ++
        (copy ++ fragmentLoop noiseSize fuel rest copy.length)

/-- `make_fragmented_notify`, for the payload behind the place of the header. -/
def makeFragmentedNotify (noiseSize : Nat) (command : UInt32) (message : Blob) : Option Blob :=
  if noiseSize < headSize * 2 then none
  else if headSize + message.length ≤ noiseSize then
    some (finalizeNotify command
      (message ++ List.replicate (noiseSize - (headSize + message.length)) 0))
  else
    let payload := finalizeNotify command message
    let space := noiseSize - headSize
    let copy := payload.take space
    some ((makeHeader 0 space packetBegin false).toBytes ++
      (copy ++ fragmentLoop noiseSize payload.length (payload.drop space) copy.length))

/-! ## The parser -/

/-- `cryptonote_connection_context::get_max_bytes`. -/
def getMaxBytes (command : UInt32) : Nat :=
  match command.toNat with
  | 1001 => 65536
  | 1002 => 65536
  | 1003 => 4096
  | 1007 => 4096
  | 2001 => 1024 * 1024 * 128
  | 2002 => 1024 * 1024 * 128
  | 2003 => 1024 * 1024 * 2
  | 2004 => 1024 * 1024 * 128
  | 2006 => 512 * 1024
  | 2007 => 1024 * 1024 * 4
  | 2008 => 1024 * 1024 * 4
  | 2009 => 1024 * 1024
  | 2010 => 1024 * 1024 * 4
  | _ => 2 ^ 64 - 1

/-- `handshake_command`. -/
def handshakeCommand : UInt32 := 1001

/-- What the parser asks of its surroundings, which have a state of their own. -/
structure Commands (ε : Type) where
  /-- `m_close_called`. -/
  closeCalled : ε → Bool
  /-- `m_max_packet_size`. -/
  maxPacketSize : ε → Nat
  /-- `m_max_packet_size = m_config.m_max_packet_size`. -/
  raiseMaxPacketSize : ε → ε
  handshakeComplete : ε → Bool
  invoke : UInt32 → Blob → ε → ε
  /-- `send_message` of the response, and whether it was sent. -/
  sendResponse : UInt32 → ε → ε × Bool
  notify : UInt32 → Blob → ε → ε
  /-- The first response handler is asked to cancel its timer and taken out if that worked. There is
      no value when there are no handlers. -/
  takeResponder : ε → Option (Bool × ε)
  /-- `handle` of that response handler. -/
  handle : UInt32 → Blob → ε → ε

inductive DeliveryKind where
  | invoke
  | notify
  | response
  deriving DecidableEq, Repr

/-- A payload that was handed over. -/
structure Delivery where
  kind : DeliveryKind
  command : UInt32
  payload : Blob
  /-- It was put together from fragments. -/
  reassembled : Bool
  deriving DecidableEq, Repr

inductive StreamState where
  | head
  | body
  deriving DecidableEq, Repr

/-- `async_protocol_handler`, without the buffer. -/
structure Parser (ε : Type) where
  fragmentBuffer : Blob
  currentHead : Head
  state : StreamState
  oponentProtocolVer : UInt32
  env : ε
  delivered : List Delivery

/-- `async_protocol_handler`. -/
structure Connection (ε : Type) where
  parser : Parser ε
  cacheInBuffer : Buffer

/-- Why a call returns `false`. -/
inductive Failure where
  /-- The connection is being closed. -/
  | closing
  /-- A size is above a limit. -/
  | size
  /-- Signature mismatch. -/
  | signature
  /-- Fragmented data too small for levin header. -/
  | fragmentTooSmall
  /-- Received levin response but have no invoke handlers. -/
  | noResponder
  /-- The response was not sent. -/
  | notSent
  /-- The buffer throws. -/
  | threw
  /-- The turns allowed to the loop were used up. -/
  | spent
  deriving DecidableEq, Repr

variable {ε : Type}

/-- What becomes of a packet. -/
inductive Processed (ε : Type) where
  | go (p : Parser ε)
  | fail (f : Failure) (p : Parser ε)

/-- A payload is handed over. -/
def Parser.deliver (p : Parser ε) (kind : DeliveryKind) (payload : Blob) (reassembled : Bool)
    (env : ε) : Parser ε :=
  { p with
    env := env
    delivered := p.delivered ++ [⟨kind, p.currentHead.command, payload, reassembled⟩] }

/-- The command is invoked and its response is sent. A handshake changes the limit in between. -/
def invokeAndRespond (cmds : Commands ε) (command : UInt32) (payload : Blob) (env : ε) : ε × Bool :=
  let env := cmds.invoke command payload env
  let env :=
    if command = handshakeCommand ∧ cmds.handshakeComplete env then cmds.raiseMaxPacketSize env
    else env
  cmds.sendResponse command env

/-- The message is for a response handler, to be invoked, or a notification. -/
def dispatch (cmds : Commands ε) (reassembled : Bool) (payload : Blob) (p : Parser ε) :
    Processed ε :=
  if p.oponentProtocolVer = protocolVer1 ∧ p.currentHead.flags &&& packetResponse ≠ 0 then
    match cmds.takeResponder p.env with
    | none => .fail .noResponder p
    | some (true, env) =>
      .go (p.deliver .response payload reassembled
        (cmds.handle p.currentHead.returnCode payload env))
    | some (false, env) => .go { p with env := env }
  else if p.currentHead.haveToReturnData ≠ 0 then
    match invokeAndRespond cmds p.currentHead.command payload p.env with
    | (env, true) => .go (p.deliver .invoke payload reassembled env)
    | (env, false) => .fail .notSent (p.deliver .invoke payload reassembled env)
  else
    .go (p.deliver .notify payload reassembled (cmds.notify p.currentHead.command payload p.env))

/-- The size in a header is within the limits. -/
def Head.Fits (h : Head) (max : Nat) : Prop :=
  h.cb.toNat ≤ min max (getMaxBytes h.command)

instance (h : Head) (max : Nat) : Decidable (h.Fits max) :=
  inferInstanceAs (Decidable (_ ≤ _))

/-- A packet is there: noise, a fragment or a message. -/
def receivePacket (cmds : Commands ε) (max : Nat) (buff : Blob) (p : Parser ε) : Processed ε :=
  if p.currentHead.flags &&& (packetRequest ||| packetResponse) = 0 then
    if p.currentHead.flags &&& (packetBegin ||| packetEnd) = packetBegin ||| packetEnd then .go p
    else
      let fragments :=
        (if p.currentHead.flags &&& packetBegin ≠ 0 then [] else p.fragmentBuffer) ++ buff
      if p.currentHead.flags &&& packetEnd = 0 then .go { p with fragmentBuffer := fragments }
      else if fragments.length < headSize then
        .fail .fragmentTooSmall { p with fragmentBuffer := fragments }
      else
        let p := { p with fragmentBuffer := [], currentHead := Head.ofBytes fragments }
        if p.currentHead.Fits max then dispatch cmds true (fragments.drop headSize) p
        else .fail .size p
  else dispatch cmds false buff p

/-- What a turn of the loop comes to. -/
inductive Turn (ε : Type) where
  | go (c : Connection ε)
  | wait
  | fail (f : Failure) (p : Parser ε)

/-- `stream_state_body`. -/
def receiveBody (cmds : Commands ε) (max : Nat) (c : Connection ε) : Turn ε :=
  if c.cacheInBuffer.size < c.parser.currentHead.cb.toNat then .wait
  else
    match c.cacheInBuffer.carve c.parser.currentHead.cb.toNat with
    | none => .fail .threw c.parser
    | some (buff, cache) =>
      match receivePacket cmds max buff { c.parser with state := .head } with
      | .go p => .go ⟨p, cache⟩
      | .fail f p => .fail f p

/-- The parser with a header that it has read. -/
def Parser.setHead (p : Parser ε) (head : Head) : Parser ε :=
  { p with currentHead := head, state := .body, oponentProtocolVer := head.protocolVersion }

/-- `stream_state_head`. -/
def receiveHead (max : Nat) (c : Connection ε) : Turn ε :=
  if c.cacheInBuffer.size < headSize then
    match c.cacheInBuffer.span 8 with
    | none => .wait
    | some bytes =>
      if UInt64.ofNat (ofLittleEndian bytes) = levinSignature then .wait
      else .fail .signature c.parser
  else
    match c.cacheInBuffer.span headSize, c.cacheInBuffer.erase headSize with
    | some bytes, some cache =>
      let head := Head.ofBytes bytes
      if head.signature = levinSignature then
        if head.Fits max then .go ⟨c.parser.setHead head, cache⟩
        else .fail .size (c.parser.setHead head)
      else .fail .signature c.parser
    | _, _ => .fail .threw c.parser

/-- One turn of the loop. -/
def turn (cmds : Commands ε) (max : Nat) (c : Connection ε) : Turn ε :=
  match c.parser.state with
  | .body => receiveBody cmds max c
  | .head => receiveHead max c

/-- How a call ends. -/
inductive Outcome (ε : Type) where
  | returned (c : Connection ε)
  | failed (f : Failure) (p : Parser ε)

/-- The loop, with a bound on its turns. -/
def loop (cmds : Commands ε) (max : Nat) : Nat → Connection ε → Outcome ε
  | 0, c => .failed .spent c.parser
  | fuel + 1, c =>
    match turn cmds max c with
    | .go c => loop cmds max fuel c
    | .wait => .returned c
    | .fail f p => .failed f p

/-- What has arrived, and what is kept, is within the maximum packet size. -/
def Connection.Takes (c : Connection ε) (max sz : Nat) : Prop :=
  c.cacheInBuffer.size ≤ max ∧ c.parser.fragmentBuffer.length ≤ max - c.cacheInBuffer.size ∧
    sz ≤ max - c.cacheInBuffer.size - c.parser.fragmentBuffer.length

instance (c : Connection ε) (max sz : Nat) : Decidable (c.Takes max sz) :=
  inferInstanceAs (Decidable (_ ∧ _ ∧ _))

/-- `m_max_packet_size`. -/
def Connection.maxPacketSize (cmds : Commands ε) (c : Connection ε) : Nat :=
  cmds.maxPacketSize c.parser.env

/-- `handle_recv`. -/
def handleRecv (cmds : Commands ε) (chunk : Blob) (c : Connection ε) : Outcome ε :=
  if cmds.closeCalled c.parser.env then .failed .closing c.parser
  else if c.Takes (c.maxPacketSize cmds) chunk.length then
    match c.cacheInBuffer.append chunk with
    | none => .failed .size c.parser
    | some cache => loop cmds (c.maxPacketSize cmds) (2 * cache.size + 2) ⟨c.parser, cache⟩
  else .failed .size c.parser

/-- What happens to a connection. -/
inductive Event (ε : Type) where
  /-- Bytes arrive. -/
  | recv (chunk : Blob)
  /-- The surroundings change. -/
  | other (change : ε → ε)

/-- The calls, up to the first that fails. -/
def run (cmds : Commands ε) : List (Event ε) → Connection ε → Outcome ε
  | [], c => .returned c
  | .other change :: rest, c =>
    run cmds rest ⟨{ c.parser with env := change c.parser.env }, c.cacheInBuffer⟩
  | .recv chunk :: rest, c =>
    match handleRecv cmds chunk c with
    | .returned c => run cmds rest c
    | .failed f p => .failed f p

/-- The calls for the chunks of a stream. -/
def feed (cmds : Commands ε) (chunks : List Blob) (c : Connection ε) : Outcome ε :=
  run cmds (chunks.map .recv) c

/-- The constructor. -/
def Connection.new (env : ε) : Connection ε where
  parser := ⟨[], ⟨0, 0, 0, 0, 0, 0, 0⟩, .head, 0, env, []⟩
  cacheInBuffer := .new (4 * 1024)

end Levin

end CocaineNode
