import ZmqRs.Codec.ZmqCodec
import Mathlib.Data.Vector.Defs

namespace ZmqRs.Codec

open Lib.Incremental

inductive Poll (α : Type)
  | pending
  | ready (a : α)
  deriving DecidableEq

/-- What a transport does with an offered slice of `len` bytes: in every case it
may write over all of it, and it reads at most `len` bytes. -/
inductive Answer (len : Nat)
  | pending (slice : List.Vector UInt8 len)
  | error (e : IoError) (slice : List.Vector UInt8 len)
  | ready (n : Fin (len + 1)) (slice : List.Vector UInt8 len)

/-- One `poll_read`, as a function of the size of the slice it is offered. -/
abbrev PollRead := (len : Nat) → Answer len

def PollRead.giving (b : Bytes) : PollRead := fun len =>
  .ready ⟨min len b.length, by omega⟩
    ⟨b.take len ++ List.replicate (len - b.length) 0, by simp; omega⟩

structure ZmqFramedRead [Target] where
  codec : ZmqCodec
  buffer : Bytes
  readChunkSize : Nat
  options : SocketOptions
  shortReads : Nat

namespace ZmqFramedRead

variable [Target]

def new (options : SocketOptions) : ZmqFramedRead where
  codec := .withOptions options
  buffer := []
  readChunkSize := options.readBufferInitialSize
  options := options
  shortReads := 0

def readSize (r : ZmqFramedRead) (minReadSize : Nat) : Nat :=
  min (max r.readChunkSize minReadSize) r.options.readBufferMaxSize

def grown (r : ZmqFramedRead) (readSize bytesRead : Nat) : Nat :=
  if readSize ≤ bytesRead ∧ r.readChunkSize < r.options.readBufferMaxSize then
    min (r.readChunkSize * 2) r.options.readBufferMaxSize
  else r.readChunkSize

def adapt (r : ZmqFramedRead) (readSize bytesRead : Nat) : ZmqFramedRead :=
  let chunk := r.grown readSize bytesRead
  if 0 < bytesRead ∧ bytesRead < chunk / 2 then
    if r.shortReads + 1 = r.options.readBufferShortReads then
      { r with
        readChunkSize := min
          (max (bytesRead.nextPowerOfTwo * 2) (r.options.readBufferInitialSize * 2)) chunk
        shortReads := 0 }
    else { r with readChunkSize := chunk, shortReads := r.shortReads + 1 }
  else if 0 < bytesRead then { r with readChunkSize := chunk, shortReads := 0 }
  else { r with readChunkSize := chunk }

def pollReadIntoBuffer (r : ZmqFramedRead) (minReadSize : Nat) (read : PollRead) :
    Poll (Except IoError Nat) × ZmqFramedRead :=
  let start := r.buffer.length
  let readSize := r.readSize minReadSize
  let resized := r.buffer ++ List.replicate readSize 0
  match read readSize with
  | .ready n slice =>
    let buffer := (resized.take start ++ slice.toList).take (start + n)
    (.ready (.ok n), { r with buffer := buffer }.adapt readSize n)
  | .error e slice =>
    let buffer := (resized.take start ++ slice.toList).take start
    (.ready (.error e), { r with buffer := buffer })
  | .pending slice =>
    let buffer := (resized.take start ++ slice.toList).take start
    (.pending, { r with buffer := buffer })

def delivered (r : ZmqFramedRead) (minReadSize : Nat) (read : PollRead) : Bytes :=
  match read (r.readSize minReadSize) with
  | .ready n slice => slice.toList.take n
  | _ => []

def decode (r : ZmqFramedRead) : Reply Message (Fault CodecError) × ZmqFramedRead :=
  match r.codec.decode r.buffer with
  | (reply, codec, buffer) => (reply, { r with codec := codec, buffer := buffer })

abbrev Item := Except (Fault CodecError) Message

/-- What one `poll_next` returned, the reader it left, the reads it did not make
and, for the proofs, the bytes it was given. -/
structure Polled where
  result : Poll (Option Item)
  reader : ZmqFramedRead
  reads : List PollRead
  taken : Bytes

-- `asynchronous_codec`'s `decode_eof` calls `decode`.
def atEof (r : ZmqFramedRead) : Poll (Option Item) × ZmqFramedRead :=
  if r.buffer = [] then (.ready none, r)
  else
    match r.decode with
    | (.item m, r) => (.ready (some (.ok m)), r)
    | (.error e, r) => (.ready (some (.error e)), r)
    | (.none, r) =>
      if r.buffer = [] then (.ready none, r)
      else
        (.ready (some (.error (.error (.io ⟨.unexpectedEof, "bytes remaining in stream"⟩)))), r)

/-- The loop of `poll_next`.  A transport with no reads left is never ready again. -/
def readLoop (r : ZmqFramedRead) : List PollRead → Polled
  | [] => ⟨.pending, r, [], []⟩
  | read :: reads =>
    let minReadSize := r.codec.bytesNeeded r.buffer.length
    let taken := r.delivered minReadSize read
    match r.pollReadIntoBuffer minReadSize read with
    | (.pending, r) => ⟨.pending, r, reads, taken⟩
    | (.ready (.error e), r) => ⟨.ready (some (.error (.error (.io e)))), r, reads, taken⟩
    | (.ready (.ok n), r) =>
      match r.decode with
      | (.item m, r) => ⟨.ready (some (.ok m)), r, reads, taken⟩
      | (.error e, r) => ⟨.ready (some (.error e)), r, reads, taken⟩
      | (.none, r) =>
        if n = 0 then
          let (result, r) := r.atEof
          ⟨result, r, reads, taken⟩
        else
          let p := readLoop r reads
          { p with taken := taken ++ p.taken }

def pollNext (r : ZmqFramedRead) (reads : List PollRead) : Polled :=
  match r.decode with
  | (.item m, r) => ⟨.ready (some (.ok m)), r, reads, []⟩
  | (.error e, r) => ⟨.ready (some (.error e)), r, reads, []⟩
  | (.none, r) => r.readLoop reads

structure Run where
  results : List (Poll (Option Item))
  reader : ZmqFramedRead
  reads : List PollRead
  taken : Bytes

def pollMany : Nat → ZmqFramedRead → List PollRead → Run
  | 0, r, reads => ⟨[], r, reads, []⟩
  | n + 1, r, reads =>
    let p := r.pollNext reads
    let rest := pollMany n p.reader p.reads
    ⟨p.result :: rest.results, rest.reader, rest.reads, p.taken ++ rest.taken⟩

end ZmqFramedRead

end ZmqRs.Codec
