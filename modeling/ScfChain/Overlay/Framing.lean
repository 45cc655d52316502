import ScfChain.Overlay.ProtocolMessage

/-!
# Framing does depend on chunking

`onReadMessage` is meant to hand every message to the handler whatever the chunks are in which its bytes arrive. But a message
is decoded from all that the buffer holds behind its header: from the bytes of the messages that follow too, if the chunk that
completes it brings some of them.

* `received` : what has arrived with the chunk that brings a given byte.
* `onReadMessage_incomplete`, `onReadMessage_complete` : the reader goes through the messages one by one.
* `framing_iff` : when the handler receives exactly the messages.
-/

namespace ScfChain.Overlay

open Data

variable {M : Type} {parse : MessageType → List UInt8 → Option M} {data : List UInt8 → List (List UInt8)}

/-! ## The loop -/

variable {buffer rest b c : List UInt8} {m : Packed parse} {chunks : List (List UInt8)} {ms : List (Packed parse)}

theorem readLoop_eq {n n' : ℕ} (h : buffer.length ≤ n) (h' : buffer.length ≤ n') :
    readLoop parse data n buffer = readLoop parse data n' buffer := by
  induction n generalizing n' buffer with
  | zero =>
    have hnil : buffer = [] := List.length_eq_zero_iff.mp (Nat.le_zero.mp h)
    subst hnil
    cases n' <;> rfl
  | succ n ih =>
    cases n' with
    | zero =>
      have hnil : buffer = [] := List.length_eq_zero_iff.mp (Nat.le_zero.mp h')
      subst hnil
      rfl
    | succ n' =>
      rw [readLoop, readLoop]
      split_ifs with hnil
      · rfl
      · have hpos := List.length_pos_of_ne_nil hnil
        congr 1
        funext consumed
        split_ifs with hzero
        · rfl
        · have hrest : readLoop parse data n (buffer.drop consumed.1) = readLoop parse data n' (buffer.drop consumed.1) :=
            ih (by rw [List.length_drop]; omega) (by rw [List.length_drop]; omega)
          rw [hrest]

theorem readLoop_incomplete (hdata : ∀ buffer, (data buffer).flatten = buffer) (hbuffer : buffer <+: m.encode ++ rest)
    (hlen : buffer.length < m.encode.length) (hmax : buffer.length ≤ kMaxMessageSize)
    (n : ℕ) : readLoop parse data n buffer = .ok ([], buffer) := by
  cases n with
  | zero => rfl
  | succ n =>
    rw [readLoop, invokeProtocolMessage_incomplete hdata hbuffer hlen hmax]
    split <;> rfl

/-- A message that has been decoded is handed to the handler before those that follow. -/
def andThen (type : MessageType) (m : Option M) (rest : Except ErrorCode (List (MessageType × M) × List UInt8)) :
    Except ErrorCode (List (MessageType × M) × List UInt8) :=
  match m with
  | none => .error .invalid_argument
  | some m => do
    let rest ← rest
    return ((type, m) :: rest.1, rest.2)

theorem readLoop_complete (hdata : ∀ buffer, (data buffer).flatten = buffer) (m : Packed parse)
    (hmax : (m.encode ++ rest).length ≤ kMaxMessageSize) :
    readLoop parse data (m.encode ++ rest).length (m.encode ++ rest) =
      andThen m.type (parse m.type (m.payload ++ rest)) (readLoop parse data rest.length rest) := by
  have hpos : 0 < m.encode.length := by simp [kHeaderBytes]
  have hne : m.encode ++ rest ≠ [] := List.ne_nil_of_length_pos (by rw [List.length_append]; omega)
  obtain ⟨n, hn⟩ : ∃ n, (m.encode ++ rest).length = n + 1 := Nat.exists_eq_succ_of_ne_zero (by rw [List.length_append]; omega)
  rw [hn, readLoop, if_neg hne, invokeProtocolMessage_complete hdata m hmax]
  cases parse m.type (m.payload ++ rest) with
  | none => rfl
  | some v =>
    have hrest : readLoop parse data n rest = readLoop parse data rest.length rest := by
      rw [List.length_append] at hn
      exact readLoop_eq (by omega) le_rfl
    simp only [bind, Except.bind, if_neg hpos.ne', List.drop_left, hrest]
    rfl

/-! ## Chunk after chunk -/

theorem onReadMessage_incomplete (hdata : ∀ buffer, (data buffer).flatten = buffer)
    (hbuffer : buffer <+: m.encode ++ rest) (hlen : buffer.length < m.encode.length)
    (hmax : buffer.length ≤ kMaxMessageSize) (chunks : List (List UInt8)) :
    onReadMessage parse data [] (buffer :: chunks) = onReadMessage parse data buffer chunks := by
  rw [onReadMessage, List.nil_append, readLoop_incomplete hdata hbuffer hlen hmax]
  show (onReadMessage parse data buffer chunks >>= fun rest => pure ([] ++ rest.1, rest.2)) = _
  simp

theorem onReadMessage_cons (buffer chunk : List UInt8) (chunks : List (List UInt8)) :
    onReadMessage parse data buffer (chunk :: chunks) = onReadMessage parse data [] ((buffer ++ chunk) :: chunks) := by
  rw [onReadMessage, onReadMessage, List.nil_append]

theorem onReadMessage_complete (hdata : ∀ buffer, (data buffer).flatten = buffer) (m : Packed parse)
    (hmax : (m.encode ++ rest).length ≤ kMaxMessageSize) (chunks : List (List UInt8)) :
    onReadMessage parse data [] ((m.encode ++ rest) :: chunks) =
      andThen m.type (parse m.type (m.payload ++ rest)) (onReadMessage parse data [] (rest :: chunks)) := by
  rw [onReadMessage, onReadMessage, List.nil_append, List.nil_append, readLoop_complete hdata m hmax]
  cases parse m.type (m.payload ++ rest) with
  | none => rfl
  | some v =>
    cases readLoop parse data rest.length rest with
    | error e => rfl
    | ok read =>
      simp only [andThen, bind, Except.bind, pure, Except.pure]
      cases onReadMessage parse data read.2 chunks <;> rfl

/-! ## What is meant to be handled -/

/-- The messages that are complete in `bytes`, and the incomplete tail. -/
def complete : List (Packed parse) → List UInt8 → List (Packed parse) × List UInt8
  | [], bytes => ([], bytes)
  | m :: ms, bytes =>
    if bytes.length < m.encode.length then ([], bytes)
    else (m :: (complete ms (bytes.drop m.encode.length)).1, (complete ms (bytes.drop m.encode.length)).2)

/-- What has arrived with the chunk that brings the `n`-th byte. -/
def received : List (List UInt8) → ℕ → List UInt8
  | [], _ => []
  | chunk :: chunks, n => if n ≤ chunk.length then chunk else chunk ++ received chunks (n - chunk.length)

/-- At most `kMaxMessageSize` bytes are ever buffered. -/
def Buffered (parse : MessageType → List UInt8 → Option M) (data : List UInt8 → List (List UInt8))
    (chunks : List (List UInt8)) : Prop :=
  ∀ before chunk after, chunks = before ++ chunk :: after → ∀ handled buffer,
    onReadMessage parse data [] before = .ok (handled, buffer) → (buffer ++ chunk).length ≤ kMaxMessageSize

/-- Every message that is complete is decoded to itself from what is buffered behind its header when it becomes so. -/
def Decodes (ms : List (Packed parse)) (chunks : List (List UInt8)) : Prop :=
  ∀ done m rest, ms = done ++ m :: rest → (encodeAll parse (done ++ [m])).length ≤ chunks.flatten.length →
    parse m.type ((received chunks (encodeAll parse (done ++ [m])).length).drop ((encodeAll parse done).length + kHeaderBytes)) =
      some m.message

theorem encodeAll_cons (m : Packed parse) (ms : List (Packed parse)) :
    encodeAll parse (m :: ms) = m.encode ++ encodeAll parse ms := rfl

theorem received_merge {n : ℕ} (h : b.length < n) :
    received (b :: c :: chunks) n = received ((b ++ c) :: chunks) n := by
  rw [received, if_neg (not_le.mpr h), received, received, List.length_append]
  by_cases hn : n - b.length ≤ c.length
  · rw [if_pos hn, if_pos (by omega)]
  · rw [if_neg hn, if_neg (by omega), List.append_assoc, Nat.sub_add_eq]

theorem received_append (b rest : List UInt8) (chunks : List (List UInt8)) (n : ℕ) :
    received ((b ++ rest) :: chunks) (b.length + n) = b ++ received (rest :: chunks) n := by
  rw [received, received, List.length_append]
  by_cases hn : n ≤ rest.length
  · rw [if_pos hn, if_pos (by omega)]
  · rw [if_neg hn, if_neg (by omega), List.append_assoc, Nat.add_sub_add_left]

theorem length_encode_le {m' : Packed parse} {done rest : List (Packed parse)} (h : m :: ms = done ++ m' :: rest) :
    m.encode.length ≤ (encodeAll parse (done ++ [m'])).length := by
  cases done with
  | nil =>
    cases h
    simp [encodeAll]
  | cons d done =>
    cases h
    rw [List.cons_append, encodeAll_cons, List.length_append]
    omega

theorem decodes_merge
    (hlen : b.length < m.encode.length) : Decodes (m :: ms) (b :: c :: chunks) ↔ Decodes (m :: ms) ((b ++ c) :: chunks) := by
  have hflatten : (b :: c :: chunks).flatten = ((b ++ c) :: chunks).flatten := by simp
  have hreceived : ∀ done m' rest, m :: ms = done ++ m' :: rest →
      received (b :: c :: chunks) (encodeAll parse (done ++ [m'])).length =
        received ((b ++ c) :: chunks) (encodeAll parse (done ++ [m'])).length := by
    intro done m' rest heq
    exact received_merge (hlen.trans_le (length_encode_le heq))
  unfold Decodes
  rw [hflatten]
  refine forall_congr' fun done => forall_congr' fun m' => forall_congr' fun rest => forall_congr' fun heq => ?_
  rw [hreceived done m' rest heq]

theorem seen_cons (m m' : Packed parse) (done : List (Packed parse)) (rest : List UInt8) (chunks : List (List UInt8)) :
    (received ((m.encode ++ rest) :: chunks) (encodeAll parse (m :: done ++ [m'])).length).drop
        ((encodeAll parse (m :: done)).length + kHeaderBytes) =
      (received (rest :: chunks) (encodeAll parse (done ++ [m'])).length).drop ((encodeAll parse done).length + kHeaderBytes) := by
  have hend : (encodeAll parse (m :: done ++ [m'])).length = m.encode.length + (encodeAll parse (done ++ [m'])).length := by
    rw [List.cons_append, encodeAll_cons, List.length_append]
  have hstart : (encodeAll parse (m :: done)).length + kHeaderBytes =
      m.encode.length + ((encodeAll parse done).length + kHeaderBytes) := by
    rw [encodeAll_cons, List.length_append, Nat.add_assoc]
  rw [hend, hstart, received_append, ← List.drop_drop, List.drop_left]

theorem seen_nil (m : Packed parse) (rest : List UInt8) (chunks : List (List UInt8)) :
    (received ((m.encode ++ rest) :: chunks) (encodeAll parse ([] ++ [m])).length).drop
        ((encodeAll parse []).length + kHeaderBytes) = m.payload ++ rest := by
  have hend : encodeAll parse ([] ++ [m]) = m.encode := by simp [encodeAll]
  have hstart : (encodeAll parse []).length + kHeaderBytes = kHeaderBytes := Nat.zero_add _
  rw [hend, hstart, received, if_pos (by simp), Packed.encode, List.append_assoc]
  exact List.drop_left' (by simp [Message.encodeHeader, kHeaderBytes])

theorem decodes_cons : Decodes (m :: ms) ((m.encode ++ rest) :: chunks) ↔
      parse m.type (m.payload ++ rest) = some m.message ∧ Decodes ms (rest :: chunks) := by
  have hlength : ∀ done m', (encodeAll parse (m :: done ++ [m'])).length ≤ ((m.encode ++ rest) :: chunks).flatten.length ↔
      (encodeAll parse (done ++ [m'])).length ≤ (rest :: chunks).flatten.length := by
    intro done m'
    simp only [List.cons_append, encodeAll_cons, List.flatten_cons, List.length_append]
    omega
  constructor
  · intro h
    constructor
    · have hm := h [] m ms rfl (by simp [encodeAll])
      rwa [seen_nil] at hm
    · intro done m' rest' heq hlen
      have hm := h (m :: done) m' rest' (by rw [heq]; rfl) ((hlength done m').mpr hlen)
      rwa [seen_cons] at hm
  · intro h done m' rest' heq hlen
    obtain ⟨hm, h⟩ := h
    cases done with
    | nil =>
      cases heq
      rwa [seen_nil]
    | cons d done =>
      cases heq
      rw [seen_cons]
      exact h done m' rest' rfl ((hlength done m').mp hlen)

/-! ## When framing works -/

theorem Buffered.head (h : Buffered parse data (b :: chunks)) :
    b.length ≤ kMaxMessageSize := h [] b chunks rfl [] [] rfl

theorem Buffered.merge (hdata : ∀ buffer, (data buffer).flatten = buffer) (hb : b <+: m.encode ++ rest)
    (hlen : b.length < m.encode.length)
    (h : Buffered parse data (b :: c :: chunks)) : Buffered parse data ((b ++ c) :: chunks) := by
  have hread : ∀ chunks, onReadMessage parse data [] (b :: chunks) = onReadMessage parse data b chunks :=
    onReadMessage_incomplete hdata hb hlen h.head
  intro before chunk after heq handled buffer hok
  cases before with
  | nil =>
    cases heq
    cases hok
    exact h [b] c chunks rfl [] b (hread [])
  | cons d before =>
    cases heq
    rw [← onReadMessage_cons, ← hread] at hok
    exact h (b :: c :: before) chunk after rfl handled buffer hok

theorem Buffered.tail (hdata : ∀ buffer, (data buffer).flatten = buffer) {v : M}
    (hv : parse m.type (m.payload ++ rest) = some v)
    (h : Buffered parse data ((m.encode ++ rest) :: chunks)) : Buffered parse data (rest :: chunks) := by
  intro before chunk after heq handled buffer hok
  cases before with
  | nil =>
    cases heq
    cases hok
    have hle := h.head
    rw [List.length_append] at hle
    simpa using Nat.le_of_add_left_le hle
  | cons d before =>
    cases heq
    refine h ((m.encode ++ rest) :: before) chunk after rfl ((m.type, v) :: handled) buffer ?_
    rw [onReadMessage_complete hdata m h.head, hv, hok]
    rfl

theorem andThen_eq_ok {type : MessageType} {m : Option M} {v : M} {handled : List (MessageType × M)}
    {rest : Except ErrorCode (List (MessageType × M) × List UInt8)} :
    andThen type m rest = .ok ((type, v) :: handled, buffer) ↔ m = some v ∧ rest = .ok (handled, buffer) := by
  unfold andThen
  cases m with
  | none => simp
  | some m =>
    cases rest with
    | error e => simp [bind, Except.bind]
    | ok r => simp [bind, Except.bind, pure, Except.pure, Prod.ext_iff, and_assoc]

theorem onReadMessage_nil (h : chunks.flatten = []) : onReadMessage parse data [] chunks = .ok ([], []) := by
  induction chunks with
  | nil => rfl
  | cons chunk chunks ih =>
    obtain ⟨hchunk, hchunks⟩ := List.append_eq_nil_iff.mp h
    rw [onReadMessage, hchunk]
    show (onReadMessage parse data [] chunks >>= fun rest => pure ([] ++ rest.1, rest.2)) = _
    rw [ih hchunks]
    rfl

/-- What the handler is meant to receive, and what is meant to be left. -/
def expected (ms : List (Packed parse)) (bytes : List UInt8) : List (MessageType × M) × List UInt8 :=
  ((complete ms bytes).1.map fun m => (m.type, m.message), (complete ms bytes).2)

theorem expected_incomplete {bytes : List UInt8}
    (h : bytes.length < m.encode.length) : expected (m :: ms) bytes = ([], bytes) := by
  simp only [expected, complete, if_pos h, List.map_nil]

theorem expected_complete (m : Packed parse) (ms : List (Packed parse)) (bytes : List UInt8) :
    expected (m :: ms) (m.encode ++ bytes) = ((m.type, m.message) :: (expected ms bytes).1, (expected ms bytes).2) := by
  have h : ¬ (m.encode ++ bytes).length < m.encode.length := by
    rw [List.length_append]
    omega
  simp only [expected, complete, if_neg h, List.drop_left, List.map_cons]

theorem decodes_incomplete (h : chunks.flatten.length < m.encode.length) : Decodes (m :: ms) chunks := by
  intro done m' rest heq hle
  have hlong := length_encode_le heq
  omega

theorem framing_complete (hdata : ∀ buffer, (data buffer).flatten = buffer)
    (hmax : Buffered parse data ((m.encode ++ rest) :: chunks))
    (ih : Buffered parse data (rest :: chunks) →
      (onReadMessage parse data [] (rest :: chunks) = .ok (expected ms (rest :: chunks).flatten) ↔ Decodes ms (rest :: chunks))) :
    onReadMessage parse data [] ((m.encode ++ rest) :: chunks) =
        .ok (expected (m :: ms) ((m.encode ++ rest) :: chunks).flatten) ↔
      Decodes (m :: ms) ((m.encode ++ rest) :: chunks) := by
  rw [onReadMessage_complete hdata m hmax.head, List.flatten_cons, List.append_assoc, expected_complete, andThen_eq_ok,
    decodes_cons]
  exact and_congr_right fun hm => ih (hmax.tail hdata hm)

theorem framing_cons (hdata : ∀ buffer, (data buffer).flatten = buffer) (ms : List (Packed parse)) (b : List UInt8)
    (chunks : List (List UInt8)) (hbytes : (b :: chunks).flatten <+: encodeAll parse ms)
    (hmax : Buffered parse data (b :: chunks)) :
    onReadMessage parse data [] (b :: chunks) = .ok (expected ms (b :: chunks).flatten) ↔ Decodes ms (b :: chunks) := by
  -- over the messages, and for each over the chunks until it is complete
  induction ms generalizing b chunks with
  | nil =>
    have hnil := List.prefix_nil.mp hbytes
    rw [onReadMessage_nil hnil, hnil]
    refine iff_of_true rfl fun done m rest heq => ?_
    simp at heq
  | cons m ms ih =>
    induction chunks generalizing b with
    | nil =>
      have hb : b <+: m.encode ++ encodeAll parse ms := (List.prefix_append _ _).trans hbytes
      by_cases hlen : b.length < m.encode.length
      · rw [onReadMessage_incomplete hdata hb hlen hmax.head, List.flatten_singleton, expected_incomplete hlen]
        exact iff_of_true rfl (decodes_incomplete (by rwa [List.flatten_singleton]))
      · obtain ⟨rest, rfl⟩ := List.prefix_of_prefix_length_le (List.prefix_append _ _) hb (not_lt.mp hlen)
        refine framing_complete hdata hmax (ih rest [] ?_)
        simpa [encodeAll_cons] using hbytes
    | cons c chunks ihc =>
      have hb : b <+: m.encode ++ encodeAll parse ms := (List.prefix_append _ _).trans hbytes
      by_cases hlen : b.length < m.encode.length
      · have hflatten : (b :: c :: chunks).flatten = ((b ++ c) :: chunks).flatten := by simp
        rw [onReadMessage_incomplete hdata hb hlen hmax.head, onReadMessage_cons, decodes_merge hlen, hflatten]
        exact ihc (b ++ c) (hflatten ▸ hbytes) (hmax.merge hdata hb hlen)
      · obtain ⟨rest, rfl⟩ := List.prefix_of_prefix_length_le (List.prefix_append _ _) hb (not_lt.mp hlen)
        refine framing_complete hdata hmax (ih rest (c :: chunks) ?_)
        simpa [encodeAll_cons] using hbytes

/-- **Framing, exactly**: the handler receives the messages that are complete, in order and without an error, and the
incomplete tail is left, if and only if every one of them is decoded to itself from all the bytes that were buffered behind
its header when it became complete. -/
theorem framing_iff (hdata : ∀ buffer, (data buffer).flatten = buffer) (ms : List (Packed parse))
    (chunks : List (List UInt8)) (hbytes : chunks.flatten <+: encodeAll parse ms) (hmax : Buffered parse data chunks) :
    onReadMessage parse data [] chunks = .ok (expected ms chunks.flatten) ↔ Decodes ms chunks := by
  cases chunks with
  | nil =>
    cases ms with
    | nil => exact iff_of_true rfl fun done m rest heq => by simp at heq
    | cons m ms =>
      have hlen : ([] : List (List UInt8)).flatten.length < m.encode.length := by simp [kHeaderBytes]
      rw [expected_incomplete hlen]
      exact iff_of_true rfl (decodes_incomplete hlen)
  | cons b chunks => exact framing_cons hdata ms b chunks hbytes hmax

/-- The pings of `TMPing`: its field `type` is `0` or `1`. -/
def parsePing : MessageType → List UInt8 → Option UInt8
  | .mtPING, [8, 0] => some 0
  | .mtPING, [8, 1] => some 1
  | _, _ => none

/-- A ping and a pong. -/
def ping : Packed parsePing := ⟨.mtPING, 0, [8, 0], rfl, by decide⟩

@[inherit_doc ping]
def pong : Packed parsePing := ⟨.mtPING, 1, [8, 1], rfl, by decide⟩

theorem framing_iff_ping :
    onReadMessage parsePing (fun buffer => [buffer]) [] [ping.encode] = .ok ([(.mtPING, 0)], []) ∧
      Decodes [ping] [ping.encode] := by
  have hbytes : [ping.encode].flatten <+: encodeAll parsePing [ping] := List.prefix_refl _
  have hmax : Buffered parsePing (fun buffer => [buffer]) [ping.encode] := by
    intro before chunk after heq handled buffer hok
    cases before with
    | nil =>
      cases heq
      cases hok
      decide
    | cons d before => simp at heq
  have hread : onReadMessage parsePing (fun buffer => [buffer]) [] [ping.encode] = .ok ([(.mtPING, 0)], []) := rfl
  exact ⟨hread, (framing_iff (fun buffer => List.flatten_singleton) [ping] [ping.encode] hbytes hmax).mp hread⟩

set_option maxRecDepth 2048 in
/-- **Two messages in one chunk**: the first is rejected, whereas both are handled if they come in chunks of their own. -/
theorem chunk_of_two :
    onReadMessage parsePing (fun buffer => [buffer]) [] [ping.encode ++ pong.encode] = .error .invalid_argument ∧
      onReadMessage parsePing (fun buffer => [buffer]) [] [ping.encode, pong.encode] =
        .ok ([(.mtPING, 0), (.mtPING, 1)], []) := ⟨rfl, rfl⟩

end ScfChain.Overlay
