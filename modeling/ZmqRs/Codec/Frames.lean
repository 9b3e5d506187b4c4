import ZmqRs.Codec.ZmqCodec

/-! Frames on the wire, whoever wrote them: any flags, and a long length also where a
short one would do.  The decoder takes a frame exactly when it is all there and its length
is within the limit. -/

namespace ZmqRs.Codec.ZmqCodec

open Lib Lib.Incremental

variable [Target]

def between (held : Option ZmqMessage) (max : Nat) : ZmqCodec := ⟨.frameHeader, 1, held, max⟩

abbrev idle (max : Nat) : ZmqCodec := between none max

def frameBytes (flags : UInt8) (body : Bytes) : Bytes :=
  flags :: (if (Frame.ofFlags flags).long then BigEndian.encode 8 body.length
    else [UInt8.ofNat body.length]) ++ body

def FrameFits (max : Nat) (flags : UInt8) (body : Bytes) : Prop :=
  if (Frame.ofFlags flags).long then body.length + max ≤ isizeMax else body.length ≤ 255

theorem frameFits_of_short {max : Nat} {flags : UInt8} {body : Bytes}
    (hl : (Frame.ofFlags flags).long = false) (hb : body.length ≤ 255) :
    FrameFits max flags body := by
  rw [FrameFits, if_neg (by simp [hl])]
  exact hb

theorem decode_go {c c' : ZmqCodec} {src rest : Bytes} (h : c.turn src = .go c' rest) :
    c.decode src = c'.decode rest :=
  machine.next_go h

theorem decode_emit {c c' : ZmqCodec} {src rest : Bytes} {m : Message}
    (h : c.turn src = .emit m c' rest) : c.decode src = (.item m, c', rest) :=
  machine.next_emit h

theorem decode_fail {c c' : ZmqCodec} {src rest : Bytes} {e : Fault CodecError}
    (h : c.turn src = .fail e c' rest) : c.decode src = (.error e, c', rest) :=
  machine.next_fail h

theorem decode_eq_greeting {options : SocketOptions} {src rest : Bytes} {m : Message}
    {c : ZmqCodec} :
    (withOptions options).decode src = (.item m, c, rest) ↔
      ∃ b g, src = b ++ rest ∧ ZmqGreeting.tryFrom b = .ok g ∧ m = .greeting g ∧
        c = idle options.readBufferMaxSize := by
  constructor
  · intro h
    by_cases hl : src.length < 64
    · have hw : (withOptions options).turn src = .wait := if_pos hl
      rw [decode_wait hw] at h
      cases h
    have hs : (Buf.splitTo 64 src : Res CodecError _) = .ok (src.take 64, src.drop 64) :=
      Buf.splitTo_of_le (Nat.le_of_not_lt hl)
    have ht : (withOptions options).turn src = (withOptions options).onGreeting src := if_neg hl
    cases src with
    | nil => simp at hl
    | cons first src =>
      rw [onGreeting, hs] at ht
      by_cases hf : first != 0xff
      · rw [if_pos hf] at ht
        rw [decode_fail ht] at h
        cases h
      rw [if_neg hf] at ht
      cases hg : ZmqGreeting.tryFrom ((first :: src).take 64) with
      | error e =>
        simp only [hg] at ht
        rw [decode_fail ht] at h
        cases h
      | ok g =>
        simp only [hg] at ht
        rw [decode_emit ht] at h
        cases h
        exact ⟨_, g, (List.take_append_drop 64 _).symm, hg, rfl, rfl⟩
  · rintro ⟨b, g, rfl, hg, rfl, rfl⟩
    obtain ⟨hl, h0, -⟩ := ZmqGreeting.tryFrom_eq_ok.mp hg
    apply decode_emit
    have hs : (Buf.splitTo 64 (b ++ rest) : Res CodecError _) = .ok (b, rest) := by
      rw [← hl]
      exact Buf.splitTo_append _ _
    cases b with
    | nil => simp at hl
    | cons first b =>
      obtain rfl : first = 0xff := h0
      have hl' : ¬ (0xff :: b ++ rest).length < 64 := by
        rw [List.length_append]
        omega
      rw [turn]
      refine (if_neg hl').trans ?_
      rw [List.cons_append] at hs ⊢
      simp only [withOptions, onGreeting, hs, hg]
      rfl

theorem checkLen_of_le {n max : Nat} (h : n + max ≤ isizeMax) : checkLen max n = .ok n := by
  have := isizeMax_le_usizeMax
  simp only [checkLen]
  grind

theorem turn_frame (frame : Frame) (max : Nat) (held : Option ZmqMessage) (data rest : Bytes) :
    turn ⟨.frame frame, data.length, held, max⟩ (data ++ rest) =
      if frame.command then
        match ZmqCommand.tryFrom data with
        | .error e => .fail e (between held max) rest
        | .ok command => .emit (.command command) (between held max) rest
      else if frame.more then
        .go (between (some (bufferFrame (between held max) data)) max) rest
      else .emit (.message (bufferFrame (between held max) data)) (idle max) rest := by
  simp only [turn, onFrame, Buf.splitTo_append, List.length_append]
  rw [if_neg (by omega)]
  rfl

def heldFrames : Option ZmqMessage → List Bytes
  | none => []
  | some m => m.frames

omit [Target] in
@[simp] theorem bufferFrame_between (held : Option ZmqMessage) (max : Nat) (data : Bytes) :
    bufferFrame (between held max) data = ⟨heldFrames held ++ [data]⟩ := by
  cases held <;> rfl

def lenSize (flags : UInt8) : Nat := if (Frame.ofFlags flags).long then 8 else 1

def announced (max : Nat) (flags : UInt8) (len : Bytes) : Except CodecError Nat :=
  if (Frame.ofFlags flags).long then checkLen max (BigEndian.decode len)
  else .ok (BigEndian.decode len)

theorem announced_eq_ok {max n : Nat} {flags : UInt8} {len : Bytes}
    (h : announced max flags len = .ok n) : n = BigEndian.decode len := by
  rw [announced] at h
  split at h
  · simp only [checkLen] at h
    grind
  · cases h
    rfl

theorem decode_flags (held : Option ZmqMessage) (max : Nat) (flags : UInt8) (src : Bytes) :
    (between held max).decode (flags :: src) =
      decode ⟨.frameLen (Frame.ofFlags flags), lenSize flags, held, max⟩ src :=
  decode_go rfl

theorem decode_header {flags : UInt8} {len : Bytes} (held : Option ZmqMessage) (max : Nat)
    (hl : len.length = lenSize flags) (rest : Bytes) :
    (between held max).decode (flags :: (len ++ rest)) =
      match announced max flags len with
      | .error e =>
        (.error (.error e), ⟨.frameLen (Frame.ofFlags flags), lenSize flags, held, max⟩, rest)
      | .ok n => decode ⟨.frame (Frame.ofFlags flags), n, held, max⟩ rest := by
  rw [decode_flags, announced]
  by_cases hlong : (Frame.ofFlags flags).long
  · rw [if_pos hlong]
    rw [lenSize, if_pos hlong] at hl
    have hu : (Buf.getUint 8 (len ++ rest) : Res CodecError _) =
        .ok (BigEndian.decode len, rest) := by
      rw [Buf.getUint_of_le (by rw [List.length_append]; omega), ← hl, List.take_left,
        List.drop_left]
    have hle : ¬ (len ++ rest).length < lenSize flags := by
      rw [lenSize, if_pos hlong, List.length_append]
      omega
    cases hc : checkLen max (BigEndian.decode len) with
    | error e =>
      apply decode_fail
      simp only [turn, if_neg hle, onFrameLen, if_pos hlong, hu, hc]
    | ok n =>
      apply decode_go
      simp only [turn, if_neg hle, onFrameLen, if_pos hlong, hu, hc]
  · rw [if_neg hlong]
    rw [lenSize, if_neg hlong] at hl
    cases len with
    | nil => cases hl
    | cons l len =>
      obtain rfl : len = [] := by simpa using hl
      apply decode_go
      simp [turn, lenSize, onFrameLen, hlong, BigEndian.decode]

theorem decode_header_short {flags : UInt8} {src : Bytes} (held : Option ZmqMessage) (max : Nat)
    (hl : src.length < lenSize flags) :
    (between held max).decode (flags :: src) =
      (.none, ⟨.frameLen (Frame.ofFlags flags), lenSize flags, held, max⟩, src) := by
  rw [decode_flags]
  exact decode_wait (if_pos hl)

omit [Target] in
theorem frameBytes_eq {flags : UInt8} {len body : Bytes} (hl : len.length = lenSize flags)
    (hb : body.length = BigEndian.decode len) : frameBytes flags body = flags :: (len ++ body) := by
  rw [frameBytes, hb]
  by_cases hlong : (Frame.ofFlags flags).long
  · rw [lenSize, if_pos hlong] at hl
    rw [if_pos hlong, ← hl, BigEndian.encode_decode, List.cons_append]
  · rw [lenSize, if_neg hlong] at hl
    cases len with
    | nil => cases hl
    | cons l len =>
      obtain rfl : len = [] := by simpa using hl
      simp [hlong, BigEndian.decode]

theorem frameFits_of_announced {max n : Nat} {flags : UInt8} {len body : Bytes}
    (hl : len.length = lenSize flags) (hb : body.length = BigEndian.decode len)
    (h : announced max flags len = .ok n) : FrameFits max flags body := by
  obtain rfl := announced_eq_ok h
  rw [announced] at h
  rw [FrameFits]
  by_cases hlong : (Frame.ofFlags flags).long
  · rw [if_pos hlong] at h ⊢
    rw [hb]
    exact checkLen_ok h
  · rw [lenSize, if_neg hlong] at hl
    rw [if_neg hlong, hb]
    have := BigEndian.decode_lt len
    rw [hl] at this
    omega

theorem decode_frameBytes {max : Nat} {flags : UInt8} {body : Bytes} (held : Option ZmqMessage)
    (hf : FrameFits max flags body) (rest : Bytes) :
    (between held max).decode (frameBytes flags body ++ rest) =
      decode ⟨.frame (Frame.ofFlags flags), body.length, held, max⟩ (body ++ rest) := by
  have h₁ : (between held max).turn (frameBytes flags body ++ rest) =
      .go ⟨.frameLen (Frame.ofFlags flags), if (Frame.ofFlags flags).long then 8 else 1, held, max⟩
        ((if (Frame.ofFlags flags).long then BigEndian.encode 8 body.length
          else [UInt8.ofNat body.length]) ++ body ++ rest) := rfl
  rw [decode_go h₁]
  apply decode_go
  rw [FrameFits] at hf
  split at hf
  · rename_i hl
    have h64 : body.length < 256 ^ 8 := by
      rcases isizeMax_cases with h | h <;> omega
    simp [turn, onFrameLen, hl, List.append_assoc, Buf.getUint_encode 8 h64, checkLen_of_le hf]
  · rename_i hl
    have ht : (UInt8.ofNat body.length).toNat = body.length := by
      rw [UInt8.toNat_ofNat']
      omega
    simp [turn, onFrameLen, hl, ht]

section Frames

variable {max : Nat} {flags : UInt8} {body : Bytes}

theorem decode_commandFrame (held : Option ZmqMessage) (hf : FrameFits max flags body)
    (hc : (Frame.ofFlags flags).command = true) (rest : Bytes) :
    (between held max).decode (frameBytes flags body ++ rest) =
      match ZmqCommand.tryFrom body with
      | .error e => (.error e, between held max, rest)
      | .ok command => (.item (.command command), between held max, rest) := by
  have ht := turn_frame (Frame.ofFlags flags) max held body rest
  rw [if_pos hc] at ht
  rw [decode_frameBytes held hf]
  cases h : ZmqCommand.tryFrom body with
  | error e =>
    rw [h] at ht
    exact decode_fail ht
  | ok command =>
    rw [h] at ht
    exact decode_emit ht

theorem decode_moreFrame (held : Option ZmqMessage) (hf : FrameFits max flags body)
    (hc : (Frame.ofFlags flags).command = false) (hm : (Frame.ofFlags flags).more = true)
    (rest : Bytes) :
    (between held max).decode (frameBytes flags body ++ rest) =
      (between (some ⟨heldFrames held ++ [body]⟩) max).decode rest := by
  have ht := turn_frame (Frame.ofFlags flags) max held body rest
  rw [if_neg (by simp [hc]), if_pos hm, bufferFrame_between] at ht
  rw [decode_frameBytes held hf]
  exact decode_go ht

theorem decode_lastFrame (held : Option ZmqMessage) (hf : FrameFits max flags body)
    (hc : (Frame.ofFlags flags).command = false) (hm : (Frame.ofFlags flags).more = false)
    (rest : Bytes) :
    (between held max).decode (frameBytes flags body ++ rest) =
      (.item (.message ⟨heldFrames held ++ [body]⟩), idle max, rest) := by
  have ht := turn_frame (Frame.ofFlags flags) max held body rest
  rw [if_neg (by simp [hc]), if_neg (by simp [hm]), bufferFrame_between] at ht
  rw [decode_frameBytes held hf]
  exact decode_emit ht

end Frames

theorem decode_body (frame : Frame) (n max : Nat) (held : Option ZmqMessage) (src : Bytes) :
    (∃ c r, decode ⟨.frame frame, n, held, max⟩ src = (.none, c, r)) ∨
      ∃ body rest, body.length = n ∧ src = body ++ rest := by
  by_cases h : src.length < n
  · exact .inl ⟨_, _, decode_wait (if_pos h)⟩
  · refine .inr ⟨src.take n, src.drop n, ?_, (List.take_append_drop n src).symm⟩
    rw [List.length_take]
    omega

theorem decode_cases (held : Option ZmqMessage) (max : Nat) (src : Bytes) :
    (∃ c r, (between held max).decode src = (.none, c, r)) ∨
    (∃ e c r, (between held max).decode src = (.error e, c, r)) ∨
    ∃ flags body rest, FrameFits max flags body ∧ src = frameBytes flags body ++ rest := by
  cases src with
  | nil => exact .inl ⟨_, _, decode_wait rfl⟩
  | cons flags src =>
    by_cases hl : src.length < lenSize flags
    · exact .inl ⟨_, _, decode_header_short held max hl⟩
    have hlen : (src.take (lenSize flags)).length = lenSize flags := by
      rw [List.length_take]
      omega
    have hd := decode_header held max hlen (src.drop (lenSize flags))
    rw [List.take_append_drop] at hd
    rw [hd]
    cases ha : announced max flags (src.take (lenSize flags)) with
    | error e => exact .inr (.inl ⟨_, _, _, rfl⟩)
    | ok n =>
      rcases decode_body (Frame.ofFlags flags) n max held (src.drop (lenSize flags)) with
        h | ⟨body, rest, hn, hb⟩
      · exact .inl h
      · rw [announced_eq_ok ha] at hn
        refine .inr (.inr ⟨flags, body, rest, frameFits_of_announced hlen hn ha, ?_⟩)
        rw [frameBytes_eq hlen hn, List.cons_append, List.append_assoc, ← hb,
          List.take_append_drop]

def IsMore (max : Nat) (f : UInt8 × Bytes) : Prop :=
  (Frame.ofFlags f.1).command = false ∧ (Frame.ofFlags f.1).more = true ∧ FrameFits max f.1 f.2

def framesBytes (frames : List (UInt8 × Bytes)) : Bytes := frames.flatMap fun f => frameBytes f.1 f.2

def holding (held : Option ZmqMessage) : List Bytes → Option ZmqMessage
  | [] => held
  | body :: bodies => holding (some ⟨heldFrames held ++ [body]⟩) bodies

omit [Target] in
theorem heldFrames_holding (held : Option ZmqMessage) (bodies : List Bytes) :
    heldFrames (holding held bodies) = heldFrames held ++ bodies := by
  induction bodies generalizing held with
  | nil => simp [holding]
  | cons body bodies ih =>
    rw [holding, ih]
    simp [heldFrames]

theorem decode_moreFrames {max : Nat} {frames : List (UInt8 × Bytes)}
    (hf : ∀ f ∈ frames, IsMore max f) (held : Option ZmqMessage) (rest : Bytes) :
    (between held max).decode (framesBytes frames ++ rest) =
      (between (holding held (frames.map Prod.snd)) max).decode rest := by
  induction frames generalizing held with
  | nil => rfl
  | cons f frames ih =>
    obtain ⟨hc, hm, hfit⟩ := hf f (by simp)
    rw [framesBytes, List.flatMap_cons, List.append_assoc, decode_moreFrame held hfit hc hm]
    exact ih (fun g hg => hf g (by simp [hg])) _

theorem decode_eq_command {max : Nat} {held : Option ZmqMessage} {src rest : Bytes}
    {command : ZmqCommand} {c : ZmqCodec}
    (h : (between held max).decode src = (.item (.command command), c, rest)) :
    ∃ frames flags body, (∀ f ∈ frames, IsMore max f) ∧ FrameFits max flags body ∧
      (Frame.ofFlags flags).command = true ∧ ZmqCommand.tryFrom body = .ok command ∧
      src = framesBytes frames ++ (frameBytes flags body ++ rest) ∧
      c = between (holding held (frames.map Prod.snd)) max := by
  induction hn : src.length using Nat.strong_induction_on generalizing src held with
  | _ n ih =>
    rcases decode_cases held max src with ⟨_, _, hd⟩ | ⟨_, _, _, hd⟩ | ⟨flags, body, src', hf, rfl⟩
    · cases hd.symm.trans h
    · cases hd.symm.trans h
    · cases hc : (Frame.ofFlags flags).command with
      | true =>
        rw [decode_commandFrame held hf hc] at h
        split at h
        · cases h
        · rename_i command' ht
          cases h
          exact ⟨[], flags, body, by simp, hf, hc, ht, rfl, rfl⟩
      | false =>
        cases hm : (Frame.ofFlags flags).more with
        | false =>
          rw [decode_lastFrame held hf hc hm] at h
          cases h
        | true =>
          rw [decode_moreFrame held hf hc hm] at h
          have hlt : src'.length < n := by
            rw [← hn, frameBytes]
            simp
            omega
          obtain ⟨frames, flags', body', hfr, hf', hc', ht, rfl, rfl⟩ := ih _ hlt h rfl
          refine ⟨(flags, body) :: frames, flags', body', ?_, hf', hc', ht, ?_, rfl⟩
          · intro f hmem
            rcases List.mem_cons.mp hmem with rfl | hmem
            · exact ⟨hc, hm, hf⟩
            · exact hfr f hmem
          · rw [framesBytes, framesBytes, List.flatMap_cons, List.append_assoc]

end ZmqRs.Codec.ZmqCodec
