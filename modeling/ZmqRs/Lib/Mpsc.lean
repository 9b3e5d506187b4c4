import Mathlib.Data.List.Basic
import Mathlib.Data.Option.Basic

/-! Bounded channels with many senders, after `futures::channel::mpsc`.  The bound is kept
by the senders: a handle that has filled the buffer is parked until the receiver has made
room, and handles park one by one. -/

universe u

namespace ZmqRs.Lib

structure Mpsc (M : Type u) where
  buffer : Nat
  queue : List M
  /-- The parked flags of the handles made so far; `none` once a handle is dropped. -/
  senders : List (Option Bool)
  parked : List Nat
  closed : Bool

inductive TrySend
  | sent
  | full
  | disconnected
  deriving DecidableEq

namespace Mpsc

variable {M : Type u}

def channel (buffer : Nat) : Mpsc M := ⟨buffer, [], [some false], [], false⟩

def isParked (c : Mpsc M) (i : Nat) : Bool := (c.senders[i]?.join).getD false

def isLive (c : Mpsc M) (i : Nat) : Bool := (c.senders[i]?.join).isSome

def alive (c : Mpsc M) : Nat := c.senders.countP Option.isSome

def clone (c : Mpsc M) : Mpsc M := { c with senders := c.senders ++ [some false] }

def drop (c : Mpsc M) (i : Nat) : Mpsc M := { c with senders := c.senders.set i none }

def trySend (c : Mpsc M) (i : Nat) (m : M) : TrySend × Mpsc M :=
  if c.isParked i then (.full, c)
  else if c.closed then (.disconnected, c)
  else if c.buffer < c.queue.length + 1 then
    (.sent, { c with
      queue := c.queue ++ [m]
      senders := c.senders.modify i (Option.map fun _ => true)
      parked := c.parked ++ [i] })
  else (.sent, { c with queue := c.queue ++ [m] })

def unparkOne (c : Mpsc M) : Mpsc M :=
  match c.parked with
  | [] => c
  | i :: rest =>
    { c with senders := c.senders.modify i (Option.map fun _ => false), parked := rest }

def recv (c : Mpsc M) : Option (M × Mpsc M) :=
  match c.queue with
  | [] => none
  | m :: rest => some (m, { c with queue := rest }.unparkOne)

def close (c : Mpsc M) : Mpsc M :=
  { c with
    queue := [], senders := c.senders.map (Option.map fun _ => false), parked := [], closed := true }

theorem alive_pos {c : Mpsc M} {i : Nat} (h : c.isLive i) : 0 < c.alive := by
  rw [isLive] at h
  cases hs : c.senders[i]? with
  | none => simp [hs] at h
  | some s =>
    simp only [hs, Option.join_some] at h
    exact List.countP_pos_iff.mpr ⟨s, List.mem_of_getElem? hs, h⟩

theorem isLive_clone {c : Mpsc M} {i : Nat} (h : c.isLive i) : c.clone.isLive i := by
  have hi : i < c.senders.length := by
    by_contra hi
    simp [isLive, List.getElem?_eq_none (Nat.le_of_not_lt hi)] at h
  rwa [isLive, clone, List.getElem?_append_left hi]

theorem isLive_drop {c : Mpsc M} {i j : Nat} (hij : j ≠ i) (h : c.isLive i) :
    (c.drop j).isLive i := by
  rwa [isLive, drop, List.getElem?_set_ne hij]

theorem isSome_join_modify (l : List (Option Bool)) (i j : Nat) (b : Bool) :
    ((l.modify j (Option.map fun _ => b))[i]?.join).isSome = (l[i]?.join).isSome := by
  rw [List.getElem?_modify]
  split
  · cases hl : l[i]? with
    | none => simp
    | some s => cases s <;> simp
  · simp

theorem isLive_trySend {c : Mpsc M} (i j : Nat) (m : M) :
    (c.trySend j m).2.isLive i = c.isLive i := by
  rw [trySend]
  split_ifs
  · rfl
  · rfl
  · exact isSome_join_modify c.senders i j true
  · rfl

theorem isLive_recv {c c' : Mpsc M} {m : M} (h : c.recv = some (m, c')) (i : Nat) :
    c'.isLive i = c.isLive i := by
  rw [recv] at h
  split at h
  · cases h
  · cases h
    rw [unparkOne]
    split
    · rfl
    · exact isSome_join_modify c.senders i _ false

theorem isLive_close (c : Mpsc M) (i : Nat) : c.close.isLive i = c.isLive i := by
  simp only [isLive, close, List.getElem?_map]
  cases hs : c.senders[i]? with
  | none => simp
  | some s => cases s <;> simp

theorem length_trySend_le (c : Mpsc M) (i : Nat) (m : M) :
    (c.trySend i m).2.queue.length ≤ c.queue.length + 1 := by
  rw [trySend]
  split_ifs <;> simp

theorem length_trySend_closed {c : Mpsc M} (h : c.closed) (i : Nat) (m : M) :
    (c.trySend i m).2.queue.length = c.queue.length := by
  rw [trySend]
  split_ifs <;> rfl

theorem length_recv {c c' : Mpsc M} {m : M} (h : c.recv = some (m, c')) :
    c'.queue.length ≤ c.queue.length := by
  rw [recv] at h
  split at h
  · cases h
  · rename_i hq
    cases h
    rw [unparkOne]
    split <;> simp [hq]

theorem trySend_of_sent {c c' : Mpsc M} {i : Nat} {m : M} (h : c.trySend i m = (.sent, c')) :
    c.closed = false ∧ c'.closed = false ∧ c'.queue = c.queue ++ [m] := by
  rw [trySend] at h
  split_ifs at h with hp hc hb
  · cases h
  · cases h
  · cases h
    simpa using hc
  · cases h
    simpa using hc

theorem trySend_of_ne_sent {c c' : Mpsc M} {i : Nat} {m : M} {r : TrySend}
    (h : c.trySend i m = (r, c')) (hr : r ≠ .sent) : c' = c := by
  rw [trySend] at h
  split_ifs at h with hp hc hb
  · cases h
    rfl
  · cases h
    rfl
  · cases h
    exact absurd rfl hr
  · cases h
    exact absurd rfl hr

theorem recv_eq_some {c c' : Mpsc M} {m : M} (h : c.recv = some (m, c')) :
    c.queue = m :: c'.queue ∧ c'.closed = c.closed := by
  rw [recv] at h
  split at h
  · cases h
  · rename_i hq
    cases h
    rw [unparkOne]
    split <;> exact ⟨hq, rfl⟩

theorem recv_eq_none {c : Mpsc M} (h : c.recv = none) : c.queue = [] := by
  rw [recv] at h
  split at h
  · assumption
  · cases h

theorem alive_close (c : Mpsc M) : c.close.alive = c.alive := by
  rw [alive, close, alive, List.countP_map]
  congr 1
  funext s
  cases s <;> rfl

theorem modify_length_append (l : List (Option Bool)) (s : Option Bool)
    (f : Option Bool → Option Bool) : (l ++ [s]).modify l.length f = l ++ [f s] := by
  induction l with
  | nil => rfl
  | cons a l ih => simp [ih]

/-- A handle made for one message is never parked, so the message is taken whatever the
length of the queue. -/
theorem trySend_clone {c : Mpsc M} (h : c.closed = false) (m : M) :
    let c' := c.clone.trySend c.senders.length m
    c'.1 = .sent ∧ c'.2.closed = false ∧ c'.2.queue = c.queue ++ [m] ∧
      (c'.2.drop c.senders.length).alive = c.alive := by
  have hp : c.clone.isParked c.senders.length = false := by simp [isParked, clone]
  have hc : c.clone.closed = false := h
  intro c'
  simp only [c', trySend, hp, hc, Bool.false_eq_true, if_false]
  split_ifs
  · refine ⟨rfl, rfl, rfl, ?_⟩
    simp only [alive, drop, clone, modify_length_append]
    simp
  · refine ⟨rfl, rfl, rfl, ?_⟩
    simp [alive, drop, clone]

end Mpsc

end ZmqRs.Lib
