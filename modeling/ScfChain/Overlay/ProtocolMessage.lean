import ScfChain.Data.Bytes

/-!
# Protocol messages

Peers exchange protobuf messages, each after a header of six bytes with its size and its type (`Message`). What has been read
is kept in a buffer; `invokeProtocolMessage` handles the message at its front, if it is complete, and `onReadMessage` calls it
for as long as it consumes something.

Protobuf is the parameter `parse`: what `ParseFromZeroCopyStream` makes of all the bytes of a stream. The buffer is a sequence
of segments: `data` is any way of cutting it.
-/

namespace ScfChain.Overlay

open Data

/-- The types of messages that `invokeProtocolMessage` knows. -/
inductive MessageType
  | mtHELLO | mtMANIFESTS | mtPING | mtCLUSTER | mtGET_PEERS | mtPEERS | mtENDPOINTS | mtTRANSACTION | mtGET_LEDGER
  | mtLEDGER_DATA | mtPROPOSE_LEDGER | mtSTATUS_CHANGE | mtHAVE_SET | mtVALIDATION | mtGET_OBJECTS | mtGET_SHARD_INFO
  | mtSHARD_INFO | mtGET_PEER_SHARD_INFO | mtPEER_SHARD_INFO
  deriving DecidableEq

namespace MessageType

def code : MessageType → ℕ
  | mtHELLO => 1
  | mtMANIFESTS => 2
  | mtPING => 3
  | mtCLUSTER => 5
  | mtGET_PEERS => 12
  | mtPEERS => 13
  | mtENDPOINTS => 15
  | mtTRANSACTION => 30
  | mtGET_LEDGER => 31
  | mtLEDGER_DATA => 32
  | mtPROPOSE_LEDGER => 33
  | mtSTATUS_CHANGE => 34
  | mtHAVE_SET => 35
  | mtVALIDATION => 41
  | mtGET_OBJECTS => 42
  | mtGET_SHARD_INFO => 50
  | mtSHARD_INFO => 51
  | mtGET_PEER_SHARD_INFO => 52
  | mtPEER_SHARD_INFO => 53

/-- The cases of `switch (type)`. -/
def all : List MessageType :=
  [mtHELLO, mtMANIFESTS, mtPING, mtCLUSTER, mtGET_SHARD_INFO, mtSHARD_INFO, mtGET_PEER_SHARD_INFO, mtPEER_SHARD_INFO,
    mtGET_PEERS, mtPEERS, mtENDPOINTS, mtTRANSACTION, mtGET_LEDGER, mtLEDGER_DATA, mtPROPOSE_LEDGER, mtSTATUS_CHANGE,
    mtHAVE_SET, mtVALIDATION, mtGET_OBJECTS]

def ofCode (n : ℕ) : Option MessageType := all.find? (·.code = n)

theorem ofCode_code (type : MessageType) : ofCode type.code = some type := by
  cases type <;> rfl

theorem code_lt (type : MessageType) : type.code < 256 ^ 2 := by
  cases type <;> decide

end MessageType

/-! ## `Message` -/

def kHeaderBytes : ℕ := 6
def kMaxMessageSize : ℕ := 64 * 1024 * 1024

namespace Message

def encodeHeader (size type : ℕ) : List UInt8 := toBytes 4 size ++ toBytes 2 type

/-- `Message::size`. -/
def size (bytes : List UInt8) : ℕ := if bytes.length < kHeaderBytes then 0 else ofBytes (bytes.take 4)

/-- `Message::type`. -/
def type (bytes : List UInt8) : ℕ := if bytes.length < kHeaderBytes then 0 else ofBytes ((bytes.drop 4).take 2)

end Message

variable {M : Type} (parse : MessageType → List UInt8 → Option M)

/-- A message of a known type with its serialized form, whose size is an `int`. -/
structure Packed where
  type : MessageType
  message : M
  payload : List UInt8
  parses : parse type payload = some message
  size_lt : payload.length < 2 ^ 31

variable {parse} in
/-- The constructor of `Message`. -/
def Packed.encode (m : Packed parse) : List UInt8 := Message.encodeHeader m.payload.length m.type.code ++ m.payload

/-- The bytes of a list of messages. -/
def encodeAll (ms : List (Packed parse)) : List UInt8 := (ms.map Packed.encode).flatten

/-! ## `ZeroCopyInputStream` -/

/-- `Skip`; a stream is what `Next` returns, until it returns `false`. -/
def skip : ℕ → List (List UInt8) → List (List UInt8)
  | 0, segments => segments
  | _ + 1, [] => []
  | count + 1, segment :: segments =>
    if count + 1 < segment.length then segment.drop (count + 1) :: segments else skip (count + 1 - segment.length) segments

/-! ## Reading -/

inductive ErrorCode
  | message_size
  | invalid_argument
  deriving DecidableEq

/-- `detail::invoke`, with a handler that reports no error. -/
def invoke (type : MessageType) (buffers : List (List UInt8)) : Except ErrorCode M :=
  match parse type (skip kHeaderBytes buffers).flatten with
  | none => .error .invalid_argument
  | some m => .ok m

/-- The number of bytes consumed, and what the handler has been called with. -/
def invokeProtocolMessage (buffers : List (List UInt8)) : Except ErrorCode (ℕ × List (MessageType × M)) :=
  if buffers.flatten.length < kHeaderBytes then .ok (0, [])
  else if kMaxMessageSize < buffers.flatten.length then .error .message_size
  else if buffers.flatten.length < kHeaderBytes + Message.size buffers.flatten then .ok (0, [])
  else
    match MessageType.ofCode (Message.type buffers.flatten) with
    | some type => do
      let m ← invoke parse type buffers
      return (kHeaderBytes + Message.size buffers.flatten, [(type, m)])
    -- `onMessageUnknown`
    | none => .ok (kHeaderBytes + Message.size buffers.flatten, [])

variable (data : List UInt8 → List (List UInt8))

/-- `while (read_buffer_.size() > 0)` of `onReadMessage`, at most `n` times: what has been handled, and what is left. -/
def readLoop : ℕ → List UInt8 → Except ErrorCode (List (MessageType × M) × List UInt8)
  | 0, buffer => .ok ([], buffer)
  | n + 1, buffer =>
    if buffer = [] then .ok ([], buffer)
    else do
      let consumed ← invokeProtocolMessage parse (data buffer)
      if consumed.1 = 0 then return ([], buffer)
      else
        let rest ← readLoop n (buffer.drop consumed.1)
        return (consumed.2 ++ rest.1, rest.2)

/-- `PeerImp::onReadMessage`, for chunk after chunk. Every turn of the loop consumes something. -/
def onReadMessage (buffer : List UInt8) : List (List UInt8) → Except ErrorCode (List (MessageType × M) × List UInt8)
  | [] => .ok ([], buffer)
  | chunk :: chunks => do
    let read ← readLoop parse data (buffer ++ chunk).length (buffer ++ chunk)
    let rest ← onReadMessage read.2 chunks
    return (read.1 ++ rest.1, rest.2)

/-! ## One message -/

theorem flatten_skip (n : ℕ) (segments : List (List UInt8)) : (skip n segments).flatten = segments.flatten.drop n := by
  induction segments generalizing n with
  | nil => cases n <;> simp [skip]
  | cons segment segments ih =>
    cases n with
    | zero => simp [skip]
    | succ count =>
      rw [skip]
      split_ifs with h
      · rw [List.flatten_cons, List.flatten_cons, List.drop_append_of_le_length h.le]
      · rw [ih, List.flatten_cons, List.drop_append, List.drop_eq_nil_of_le (not_lt.mp h), List.nil_append]

variable {parse}

@[simp]
theorem Packed.length_encode (m : Packed parse) : m.encode.length = kHeaderBytes + m.payload.length := by
  simp [Packed.encode, Message.encodeHeader, kHeaderBytes]
  omega

theorem header_eq {m : Packed parse} {bytes rest : List UInt8} (h : bytes <+: m.encode ++ rest)
    (hlen : kHeaderBytes ≤ bytes.length) : Message.size bytes = m.payload.length ∧ Message.type bytes = m.type.code := by
  obtain ⟨tail, heq⟩ := h
  have htake : bytes.take 6 = toBytes 4 m.payload.length ++ toBytes 2 m.type.code :=
    calc bytes.take 6 = (bytes ++ tail).take 6 := (List.take_append_of_le_length hlen).symm
      _ = _ := by
        rw [heq, Packed.encode, Message.encodeHeader, List.append_assoc]
        exact List.take_left' (by simp)
  have htake₄ : bytes.take 4 = toBytes 4 m.payload.length :=
    calc bytes.take 4 = (bytes.take 6).take 4 := by rw [List.take_take]; rfl
      _ = _ := by
        rw [htake]
        exact List.take_left' (length_toBytes 4 _)
  have hdrop : (bytes.drop 4).take 2 = toBytes 2 m.type.code := by
    rw [List.take_drop, htake]
    exact List.drop_left' (length_toBytes 4 _)
  have hsize := m.size_lt
  constructor
  · rw [Message.size, if_neg (not_lt.mpr hlen), htake₄, ofBytes_toBytes (by omega)]
  · rw [Message.type, if_neg (not_lt.mpr hlen), hdrop, ofBytes_toBytes m.type.code_lt]

variable {data}

theorem invokeProtocolMessage_incomplete (hdata : ∀ buffer, (data buffer).flatten = buffer) {m : Packed parse}
    {buffer rest : List UInt8} (hbuffer : buffer <+: m.encode ++ rest) (hlen : buffer.length < m.encode.length)
    (hmax : buffer.length ≤ kMaxMessageSize) : invokeProtocolMessage parse (data buffer) = .ok (0, []) := by
  rw [invokeProtocolMessage, hdata]
  split_ifs with hheader hover hsize
  · rfl
  · omega
  · rfl
  · rw [(header_eq hbuffer (not_lt.mp hheader)).1, ← m.length_encode] at hsize
    exact absurd hlen hsize

/-- **A complete message is decoded from its payload and all that follows it in the buffer.** -/
theorem invokeProtocolMessage_complete (hdata : ∀ buffer, (data buffer).flatten = buffer) (m : Packed parse)
    {rest : List UInt8} (hmax : (m.encode ++ rest).length ≤ kMaxMessageSize) :
    invokeProtocolMessage parse (data (m.encode ++ rest)) =
      match parse m.type (m.payload ++ rest) with
      | none => .error .invalid_argument
      | some v => .ok (m.encode.length, [(m.type, v)]) := by
  have hlen : kHeaderBytes ≤ (m.encode ++ rest).length := by simp; omega
  obtain ⟨hsize, htype⟩ := header_eq (List.prefix_refl (m.encode ++ rest)) hlen
  have hdrop : (m.encode ++ rest).drop kHeaderBytes = m.payload ++ rest := by
    rw [Packed.encode, List.append_assoc]
    exact List.drop_left' (by simp [Message.encodeHeader, kHeaderBytes])
  rw [invokeProtocolMessage, hdata, if_neg (not_lt.mpr hlen), if_neg (not_lt.mpr hmax), hsize, htype, if_neg (by simp),
    MessageType.ofCode_code, ← m.length_encode]
  simp only [invoke, flatten_skip, hdata, hdrop]
  cases parse m.type (m.payload ++ rest) <;> rfl

end ScfChain.Overlay
