import Mathlib.Data.List.Basic

/-! A sink that collects what it is fed in a buffer and writes the buffer to a
transport in pieces of any size, after `asynchronous_codec::FramedWrite`. -/

universe u

namespace ZmqRs.Lib

/-- `written` is what the transport has taken so far, and `flushed` what it had taken when it
was last flushed. -/
structure Sink (β : Type u) where
  buffer : List β
  written : List β
  flushed : List β

namespace Sink

variable {β : Type u} {s s' : Sink β}

def new : Sink β := ⟨[], [], []⟩

def feed (s : Sink β) (bs : List β) : Sink β := { s with buffer := s.buffer ++ bs }

def write (s : Sink β) (n : Nat) : Option (Sink β) :=
  if 0 < n ∧ n ≤ s.buffer.length then
    some { s with buffer := s.buffer.drop n, written := s.written ++ s.buffer.take n }
  else none

def flush (s : Sink β) : Option (Sink β) :=
  if s.buffer = [] then some { s with flushed := s.written } else none

def fed (s : Sink β) : List β := s.written ++ s.buffer

@[simp] theorem fed_feed (s : Sink β) (bs : List β) : (s.feed bs).fed = s.fed ++ bs := by
  simp [fed, feed]

theorem fed_write {n : Nat} (h : s.write n = some s') : s'.fed = s.fed := by
  rw [write] at h
  split at h
  · cases h
    rw [fed, List.append_assoc, List.take_append_drop, fed]
  · cases h

theorem written_write {n : Nat} (h : s.write n = some s') : s.written <+: s'.written := by
  rw [write] at h
  split at h
  · cases h
    exact List.prefix_append _ _
  · cases h

theorem written_flush (h : s.flush = some s') : s'.written = s.written := by
  rw [flush] at h
  split at h
  · cases h
    rfl
  · cases h

theorem flushed_of_flush (h : s.flush = some s') : s'.flushed = s.fed ∧ s'.fed = s.fed := by
  rw [flush] at h
  split at h
  · rename_i hb
    cases h
    exact ⟨by rw [fed, hb, List.append_nil], rfl⟩
  · cases h

theorem written_isPrefix (s : Sink β) : s.written <+: s.fed := List.prefix_append _ _

end Sink

end ZmqRs.Lib
