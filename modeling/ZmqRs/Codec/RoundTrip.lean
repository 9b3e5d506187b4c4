import ZmqRs.Codec.Frames

/-! Decoding undoes encoding, over the whole wire format and under every way of
cutting the bytes.  The cuts are dealt with by the laws of incremental
machines; what is left is the decoder's run over one encoded item, with
arbitrary bytes behind it. -/

namespace ZmqRs.Codec

open Lib Lib.Incremental

namespace ZmqCodec

variable [Target]

def lenBytes (n : Nat) : Bytes :=
  if 255 < n then BigEndian.encode 8 n else [UInt8.ofNat n]

section Lengths

variable {flags : UInt8} {body : Bytes}

omit [Target] in
theorem cons_lenBytes (hl : (Frame.ofFlags flags).long = decide (255 < body.length)) :
    flags :: lenBytes body.length ++ body = frameBytes flags body := by
  rw [lenBytes, frameBytes, hl]
  by_cases h : 255 < body.length <;> simp [h]

theorem frameFits_of_le {max : Nat}
    (hl : (Frame.ofFlags flags).long = decide (255 < body.length))
    (hn : body.length + max ≤ isizeMax) : FrameFits max flags body := by
  rw [FrameFits, hl]
  split
  · exact hn
  · rename_i h
    simpa using h

end Lengths

omit [Target] in
theorem encodeFrame_eq (frame : Bytes) (more : Bool) :
    ∃ flags, encodeFrame frame more = flags :: lenBytes frame.length ++ frame ∧
      Frame.ofFlags flags = ⟨false, decide (255 < frame.length), more⟩ := by
  by_cases h : 255 < frame.length
  · refine ⟨(if more then 0b0000_0001 else 0) ||| 0b0000_0010, by simp [encodeFrame, lenBytes, h], ?_⟩
    cases more <;> simp only [h] <;> decide
  · refine ⟨if more then 0b0000_0001 else 0, by simp [encodeFrame, lenBytes, h], ?_⟩
    cases more <;> simp only [h] <;> decide

theorem decodeAll_encodeFrame {frame : Bytes} {max : Nat} (more : Bool) (held : Option ZmqMessage)
    (hn : frame.length + max ≤ isizeMax) (rest : Bytes) :
    (between held max).decodeAll (encodeFrame frame more ++ rest) =
      if more then
        (between (some (bufferFrame (between held max) frame)) max).decodeAll rest
      else
        ((idle max).decodeAll rest).prepend [.message (bufferFrame (between held max) frame)] := by
  obtain ⟨flags, he, hf⟩ := encodeFrame_eq frame more
  have hl : (Frame.ofFlags flags).long = decide (255 < frame.length) := by rw [hf]
  have hfit := frameFits_of_le hl hn
  rw [he, cons_lenBytes hl, bufferFrame_between]
  cases more with
  | true => exact decodeAll_congr (decode_moreFrame held hfit (by rw [hf]) (by rw [hf]) rest)
  | false => exact decodeAll_item (decode_lastFrame held hfit (by rw [hf]) (by rw [hf]) rest)

theorem decodeAll_frames {max : Nat} (rest : Bytes) (frames : List Bytes) (k : Nat)
    (held : Option ZmqMessage) (hne : frames ≠ [])
    (hn : ∀ f ∈ frames, f.length + max ≤ isizeMax) :
    (between held max).decodeAll ((frames.zipIdx k).flatMap
        (fun x => encodeFrame x.1 (x.2 != k + frames.length - 1)) ++ rest) =
      ((idle max).decodeAll rest).prepend [.message ⟨heldFrames held ++ frames⟩] := by
  induction frames generalizing k held with
  | nil => exact absurd rfl hne
  | cons f frames ih =>
    have hf := hn f (by simp)
    cases frames with
    | nil =>
      have hmore : (k != k + ([f] : List Bytes).length - 1) = false := by simp
      simp only [List.zipIdx_cons, List.zipIdx_nil, List.flatMap_cons, List.flatMap_nil,
        List.append_nil, hmore, decodeAll_encodeFrame _ held hf rest, bufferFrame_between]
      rfl
    | cons g frames =>
      have hlast : k + (f :: g :: frames).length - 1 = k + 1 + (g :: frames).length - 1 := by
        simp
        omega
      have hmore : (k != k + 1 + (g :: frames).length - 1) = true := by
        simp
        omega
      rw [hlast, List.zipIdx_cons, List.flatMap_cons, hmore, List.append_assoc,
        decodeAll_encodeFrame _ held hf, if_pos rfl, bufferFrame_between,
        ih (k + 1) _ (by simp) (fun x hx => hn x (by simp [hx]))]
      simp [heldFrames]

theorem decodeAll_encodeMessage {m : ZmqMessage} {max : Nat} {wire : Bytes} (rest : Bytes)
    (hw : encode order (.message m) = .ok wire)
    (hn : ∀ f ∈ m.frames, f.length + max ≤ isizeMax) :
    (idle max).decodeAll (wire ++ rest) = ((idle max).decodeAll rest).prepend [.message m] := by
  simp only [encode] at hw
  split at hw
  · simp at hw
  · rename_i hlen
    have hne : m.frames ≠ [] := by
      intro h
      simp [ZmqMessage.len, h] at hlen
    obtain rfl := Except.ok.inj hw
    have := decodeAll_frames rest m.frames 0 none hne hn
    simpa [heldFrames, ZmqMessage.len] using this

omit [Target] in
theorem encodeCommand_eq (name : ZmqCommandName) (order : List (String × Bytes)) :
    ∃ flags, ZmqCommand.encode name order =
        flags :: lenBytes (ZmqCommand.encodeBody name order).length ++
          ZmqCommand.encodeBody name order ∧
      Frame.ofFlags flags =
        ⟨true, decide (255 < (ZmqCommand.encodeBody name order).length), false⟩ := by
  rw [ZmqCommand.length_encodeBody]
  by_cases h : 255 < ZmqCommand.messageLen name order
  · refine ⟨0x06, by simp [ZmqCommand.encode, lenBytes, h], ?_⟩
    simp only [h]
    decide
  · refine ⟨0x04, by simp [ZmqCommand.encode, lenBytes, h], ?_⟩
    simp only [h]
    decide

theorem decodeAll_encodeCommand {c : ZmqCommand} {max : Nat} {order : List (String × Bytes)}
    (rest : Bytes) (hi : ZmqCommand.Iterates c.properties order)
    (hp : ∀ p ∈ order, (utf8 p.1).length ≤ 255 ∧ p.2.length < 2 ^ 32)
    (hn : (ZmqCommand.encodeBody c.name order).length + max ≤ isizeMax) :
    (idle max).decodeAll (ZmqCommand.encode c.name order ++ rest) =
      ((idle max).decodeAll rest).prepend [.command c] := by
  obtain ⟨flags, he, hf⟩ := encodeCommand_eq c.name order
  have hl : (Frame.ofFlags flags).long =
      decide (255 < (ZmqCommand.encodeBody c.name order).length) := by rw [hf]
  have hparse := ZmqCommand.tryFrom_encodeBody hi (fun p h => (hp p h).1) (fun p h => (hp p h).2)
  apply decodeAll_item
  rw [he, cons_lenBytes hl, decode_commandFrame none (frameFits_of_le hl hn) (by rw [hf]), hparse]

theorem decodeAll_encodeGreeting (options : SocketOptions) (g : ZmqGreeting) (rest : Bytes) :
    (withOptions options).decodeAll (g.encode ++ rest) =
      ((idle options.readBufferMaxSize).decodeAll rest).prepend [.greeting g] := by
  apply decodeAll_item
  exact decode_eq_greeting.mpr ⟨g.encode, g, rfl, g.tryFrom_encode, rfl, rfl⟩

/-- What may follow the greeting on the wire: a message with at least one frame,
or a command together with an order in which its map is iterated, every body
within the decoder's limit. -/
def Sendable (max : Nat) : List (String × Bytes) × Message → Prop
  | (_, .greeting _) => False
  | (order, .command c) =>
    ZmqCommand.Iterates c.properties order ∧
      (∀ p ∈ order, (utf8 p.1).length ≤ 255 ∧ p.2.length < 2 ^ 32) ∧
      (ZmqCommand.encodeBody c.name order).length + max ≤ isizeMax
  | (_, .message m) => m.frames ≠ [] ∧ ∀ f ∈ m.frames, f.length + max ≤ isizeMax

def encodeAll : List (List (String × Bytes) × Message) → Res CodecError Bytes
  | [] => .ok []
  | (order, m) :: ms => do
    let wire ← encode order m
    return wire ++ (← encodeAll ms)

theorem decodeAll_encodeAll {max : Nat} (ms : List (List (String × Bytes) × Message))
    (hs : ∀ m ∈ ms, Sendable max m) :
    ∃ wire, encodeAll ms = .ok wire ∧
      (idle max).decodeAll wire = ⟨ms.map Prod.snd, none, idle max, []⟩ := by
  induction ms with
  | nil => exact ⟨[], rfl, decodeAll_wait Nat.zero_lt_one⟩
  | cons x ms ih =>
    obtain ⟨wire, hw, hd⟩ := ih (fun m hm => hs m (by simp [hm]))
    rcases x with ⟨order, m⟩
    have hm := hs (order, m) (by simp)
    cases m with
    | greeting => exact hm.elim
    | command c =>
      obtain ⟨hi, hp, hn⟩ := hm
      refine ⟨ZmqCommand.encode c.name order ++ wire, by simp [encodeAll, encode, hw]; rfl, ?_⟩
      rw [decodeAll_encodeCommand wire hi hp hn, hd]
      rfl
    | message m =>
      obtain ⟨hne, hn⟩ := hm
      have hlen : m.len ≠ 0 := by simpa [ZmqMessage.len] using hne
      obtain ⟨first, hf⟩ : ∃ first, encode order (.message m) = .ok first := by
        simp [encode, hlen]
      refine ⟨first ++ wire, by simp [encodeAll, hf, hw]; rfl, ?_⟩
      rw [decodeAll_encodeMessage wire hf hn, hd]
      rfl

/-- Decode undoes encode: a fresh decoder that is given the encoded greeting and
items in any chunks returns exactly them, and is left between two items with
nothing buffered. -/
theorem feed_encodeAll (options : SocketOptions) (g : ZmqGreeting)
    (ms : List (List (String × Bytes) × Message))
    (hs : ∀ m ∈ ms, Sendable options.readBufferMaxSize m) :
    ∃ wire, encodeAll (([], .greeting g) :: ms) = .ok wire ∧
      ∀ chunks : List Bytes, chunks.flatten = wire →
        (withOptions options).feed [] chunks =
          ⟨.greeting g :: ms.map Prod.snd, none,
            ⟨.frameHeader, 1, none, options.readBufferMaxSize⟩, []⟩ := by
  obtain ⟨wire, hw, hd⟩ := decodeAll_encodeAll ms hs
  refine ⟨g.encode ++ wire, by simp [encodeAll, encode, hw]; rfl, ?_⟩
  intro chunks hc
  have ha : (withOptions options).decodeAll ([] ++ chunks.flatten) =
      ⟨.greeting g :: ms.map Prod.snd, none, idle options.readBufferMaxSize, []⟩ := by
    rw [List.nil_append, hc, decodeAll_encodeGreeting, hd]
    rfl
  have hv : machine.Valid (withOptions options) := valid_withOptions options
  have hf := machine.feed_eq_drain (b := []) hv rfl chunks (congrArg Drained.error ha)
  exact hf.trans ha

end ZmqCodec

theorem feed_encodeAll_pull :
    letI := Target.x64
    let ready : ZmqCommand := ⟨.ready, Finmap.singleton "Socket-Type" [0x50, 0x55, 0x4c, 0x4c]⟩
    let ms : List (List (String × Bytes) × Message) :=
      [([("Socket-Type", [0x50, 0x55, 0x4c, 0x4c])], .command ready), ([], .message ⟨[[], [7]]⟩)]
    ∃ wire, ZmqCodec.encodeAll (([], .greeting .default) :: ms) = .ok wire ∧
      (ZmqCodec.withOptions .default).feed [] [wire.take 9, (wire.drop 9).take 70, wire.drop 79] =
        ⟨[.greeting .default, .command ready, .message ⟨[[], [7]]⟩], none,
          ⟨.frameHeader, 1, none, 65536⟩, []⟩ := by
  let _ := Target.x64
  intro ready ms
  obtain ⟨wire, hw, h⟩ := ZmqCodec.feed_encodeAll .default .default ms (by
    intro m hm
    rcases List.mem_cons.mp hm with rfl | hm
    · exact ⟨rfl, by decide, by decide⟩
    · obtain rfl := List.mem_singleton.mp hm
      exact ⟨by decide, by decide⟩)
  refine ⟨wire, hw, h _ ?_⟩
  have h70 : wire.drop 79 = (wire.drop 9).drop 70 := by simp
  simp only [List.flatten_cons, List.flatten_nil, List.append_nil, h70, List.take_append_drop]


end ZmqRs.Codec
