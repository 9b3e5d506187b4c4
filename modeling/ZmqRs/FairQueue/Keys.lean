import ZmqRs.FairQueue

/-! What a step of the fair queue does to the stream of one key, and to the consumer. -/

namespace ZmqRs.FairQueue

open Codec (Poll)

variable {S K W T E : Type} [DecidableEq K]

namespace State

def hand (st : State S K W T) (k : K) : Option (Held S) :=
  match st.consumer with
  | .polling _ _ key held _ => if key = k then some held else none
  | _ => none

def stored (st : State S K W T) (k : K) : Option (Held S) := st.inner.streams.lookup k

end State

inductive KeyStep (poll : S → E → Poll (Option T) × S) (k : K) (a : Action S K W E)
    (stored hand : Option (Held S)) : Option (Held S) → Option (Held S) → Prop
  | same (hi : ∀ s, a ≠ .insert k s) (hr : a ≠ .remove k) : KeyStep poll k a stored hand stored hand
  | insert (s : S) (ha : a = .insert k s) : KeyStep poll k a stored hand (some ⟨s, none⟩) hand
  | remove (ha : a = .remove k ∨ a = .clear) : KeyStep poll k a stored hand none hand
  | take (e : ReadyEvent K) (held : Held S) (ha : a = .pop e) (hs : stored = some held)
    (hh : hand = none) : KeyStep poll k a stored hand none (some held)
  | putBack (env : E) (held : Held S) (w : Option Nat) (ha : a = .polled env)
    (hh : hand = some held) (hp : (poll held.stream env).1 ≠ .ready none) :
    KeyStep poll k a stored hand (some ⟨(poll held.stream env).2, w⟩) none
  | ended (env : E) (held : Held S) (ha : a = .polled env) (hh : hand = some held)
    (hp : (poll held.stream env).1 = .ready none) : KeyStep poll k a stored hand stored none

variable {block : Bool} {poll : S → E → Poll (Option T) × S} {st st' : State S K W T}

theorem KeyStep.rest {a : Action S K W E} {k : K} (hi : ∀ s, a ≠ .insert k s) (hr : a ≠ .remove k)
    (hs : st'.inner.streams = st.inner.streams) (hh : st'.hand k = st.hand k) :
    KeyStep poll k a (st.stored k) (st.hand k) (st'.stored k) (st'.hand k) := by
  rw [hh, State.stored, State.stored, hs]
  exact .same hi hr

variable [Target]

theorem keyStep_insert (k' : K) (s : S) (k : K) :
    KeyStep poll k (.insert k' s : Action S K W E) (st.stored k) (st.hand k)
      ((st.inner.insert k' ⟨s, none⟩).1.streams.lookup k) (st.hand k) := by
  rw [QueueInner.insert, QueueInner.pushReady_streams]
  by_cases hk : k = k'
  · subst hk
    rw [AList.lookup_insert]
    exact .insert s rfl
  · rw [AList.lookup_insert_ne hk]
    exact .same (by simp [Ne.symm hk]) (by simp)

omit [Target] in
theorem keyStep_remove (k' k : K) :
    KeyStep poll k (.remove k' : Action S K W E) (st.stored k) (st.hand k)
      ((st.inner.remove k').streams.lookup k) (st.hand k) := by
  rw [QueueInner.remove]
  by_cases hk : k = k'
  · subst hk
    rw [AList.lookup_erase]
    exact .remove (.inl rfl)
  · rw [AList.lookup_erase_ne hk]
    exact .same (by simp) (by simp [Ne.symm hk])

omit [Target] in
theorem keyStep_putBack {env : E} {task : W} {n w : Nat} {key : K} {held : Held S}
    (hc : st.consumer = .polling task n key held w) (hp : (poll held.stream env).1 ≠ .ready none)
    (w' : Option Nat) (k : K) :
    KeyStep poll k (.polled env : Action S K W E) (st.stored k) (st.hand k)
      ((st.inner.streams.insert key ⟨(poll held.stream env).2, w'⟩).lookup k) none := by
  rw [State.hand, hc]
  by_cases hk : k = key
  · subst hk
    rw [AList.lookup_insert]
    exact .putBack env held w' rfl (if_pos rfl) hp
  · rw [AList.lookup_insert_ne hk]
    simp only [if_neg (Ne.symm hk)]
    exact .same (by simp) (by simp)

theorem keyStep {a : Action S K W E} (h : next block poll st a = some st') (k : K) :
    KeyStep poll k a (st.stored k) (st.hand k) (st'.stored k) (st'.hand k) := by
  cases stepped h with
  | insert k' s => exact keyStep_insert k' s k
  | remove k' => exact keyStep_remove k' k
  | clear hc => exact .remove (.inr rfl)
  | wake hw => exact .rest (by simp) (by simp) (by simp [QueueInner.wake]) rfl
  | @skip e task n hc hg hl =>
    have hh : st.hand k = none := by rw [State.hand, hc]
    have hs : (st.inner.streams.erase e.key).lookup k = st.stored k := by
      by_cases hk : k = e.key
      · subst hk
        exact (AList.lookup_erase _ _).trans hl.symm
      · exact AList.lookup_erase_ne hk
    change KeyStep poll k _ _ _ ((st.inner.streams.erase e.key).lookup k) none
    rw [hs, hh]
    exact .same (by simp) (by simp)
  | @take e task n held hc hg hl =>
    have hh : st.hand k = none := by rw [State.hand, hc]
    change KeyStep poll k _ _ _ ((st.inner.streams.erase e.key).lookup k)
      (if e.key = k then some held else none)
    by_cases hk : k = e.key
    · subst hk
      rw [AList.lookup_erase, if_pos rfl]
      exact .take e held rfl hl hh
    · rw [AList.lookup_erase_ne hk, if_neg (Ne.symm hk), hh]
      exact .same (by simp) (by simp)
  | @item env task n key held w t hc hp =>
    change KeyStep poll k _ _ _ (((st.inner.putBack key _).pushReady key).streams.lookup k) none
    rw [QueueInner.pushReady_streams]
    exact keyStep_putBack hc (by rw [hp]; simp) none k
  | @ended env task n key held w hc hp =>
    change KeyStep poll k _ _ _ (st.stored k) none
    rw [State.hand, hc]
    by_cases hk : key = k
    · exact .ended env held rfl (if_pos hk) hp
    · simp only [if_neg hk]
      exact .same (by simp) (by simp)
  | pending hc hp => exact keyStep_putBack hc (by rw [hp]; simp) _ k
  | pollNext _ hc | popNone hc | resume hc | exit hc | finish hc =>
    exact .rest (by simp) (by simp) rfl (by simp [State.hand, hc])

inductive ConsumerStep (block : Bool) (poll : S → E → Poll (Option T) × S) (a : Action S K W E) :
    Consumer S K W T → Consumer S K W T → Prop
  | other (c : Consumer S K W T)
    (ha : (∃ k s, a = .insert k s) ∨ (∃ k, a = .remove k) ∨ a = .clear ∨ ∃ w, a = .wake w) :
    ConsumerStep block poll a c c
  | start (last : Option (W × Poll (Option (K × T)))) (task : W) (n : Nat) (ha : a = .pollNext task) :
    ConsumerStep block poll a (.idle last) (.looping task n)
  | stale (e : ReadyEvent K) (task : W) (n : Nat) (ha : a = .pop e) :
    ConsumerStep block poll a (.looping task (n + 1)) (.looping task n)
  | take (e : ReadyEvent K) (task : W) (n : Nat) (held : Held S) (w : Nat) (ha : a = .pop e) :
    ConsumerStep block poll a (.looping task (n + 1)) (.polling task n e.key held w)
  | empty (task : W) (n : Nat) (inner : QueueInner (Held S) K W) (ha : a = .popNone) :
    ConsumerStep block poll a (.looping task (n + 1)) (.idle (some (task, noItem block inner)))
  | item (task : W) (n : Nat) (k : K) (held : Held S) (w : Nat) (env : E) (t : T)
    (ha : a = .polled env) (hp : (poll held.stream env).1 = .ready (some t)) :
    ConsumerStep block poll a (.polling task n k held w) (.idle (some (task, .ready (some (k, t)))))
  | ended (task : W) (n : Nat) (k : K) (held : Held S) (w : Nat) (env : E)
    (ha : a = .polled env) (hp : (poll held.stream env).1 = .ready none) :
    ConsumerStep block poll a (.polling task n k held w) (.ended task n k)
  | pending (task : W) (n : Nat) (k : K) (held : Held S) (w : Nat) (env : E)
    (ha : a = .polled env) (hp : (poll held.stream env).1 = .pending) :
    ConsumerStep block poll a (.polling task n k held w) (.looping task n)
  | resume (task : W) (n : Nat) (k : K) (ha : a = .resume) :
    ConsumerStep block poll a (.ended task n k) (.looping task n)
  | exit (task : W) (shouldWake : Bool) (inner : QueueInner (Held S) K W) (ha : a = .exit) :
    ConsumerStep block poll a (.looping task 0) (.returning task shouldWake (noItem block inner))
  | finish (task : W) (shouldWake : Bool) (result : Poll (Option (K × T))) (ha : a = .finish) :
    ConsumerStep block poll a (.returning task shouldWake result) (.idle (some (task, result)))

theorem consumerStep {a : Action S K W E} (h : next block poll st a = some st') :
    ConsumerStep block poll a st.consumer st'.consumer := by
  cases stepped h with
  | insert k s => exact .other _ (.inl ⟨k, s, rfl⟩)
  | remove k => exact .other _ (.inr (.inl ⟨k, rfl⟩))
  | clear hc => exact .other _ (.inr (.inr (.inl rfl)))
  | @wake w _ hw => exact .other _ (.inr (.inr (.inr ⟨w, rfl⟩)))
  | pollNext task hc =>
    rw [hc]
    exact .start _ task _ rfl
  | @skip e _ _ hc hg hl =>
    rw [hc]
    exact .stale e _ _ rfl
  | @take e _ _ _ hc hg hl =>
    rw [hc]
    exact .take e _ _ _ _ rfl
  | popNone hc he =>
    rw [hc]
    exact .empty _ _ _ rfl
  | @item env _ _ _ _ _ _ hc hp =>
    rw [hc]
    exact .item _ _ _ _ _ env _ rfl hp
  | @ended env _ _ _ _ _ hc hp =>
    rw [hc]
    exact .ended _ _ _ _ _ env rfl hp
  | @pending env _ _ _ _ _ hc hp =>
    rw [hc]
    exact .pending _ _ _ _ _ env rfl hp
  | resume hc =>
    rw [hc]
    exact .resume _ _ _ rfl
  | exit hc =>
    rw [hc]
    exact .exit _ _ _ rfl
  | finish hc =>
    rw [hc]
    exact .finish _ _ _ rfl

theorem next_polled_item {task : W} {n w : Nat} {k : K} {held : Held S} {env : E} {t : T}
    (hc : st.consumer = .polling task n k held w) (hp : (poll held.stream env).1 = .ready (some t)) :
    next block poll st (.polled env) = some { st with
      inner := (st.inner.putBack k ⟨(poll held.stream env).2, none⟩).pushReady k
      consumer := .idle (some (task, .ready (some (k, t))))
      yielded := st.yielded ++ [(k, t)] } := by
  rcases hpoll : poll held.stream env with ⟨r, s⟩
  obtain rfl : r = .ready (some t) := by rw [← hp, hpoll]
  simp only [next, hc, hpoll]

theorem yielded_next {a : Action S K W E} (h : next block poll st a = some st') :
    st'.yielded = st.yielded ∨ ∃ k held env t, a = .polled env ∧ st.hand k = some held ∧
      (poll held.stream env).1 = .ready (some t) ∧ st'.yielded = st.yielded ++ [(k, t)] := by
  cases stepped h with
  | @item env _ _ key held _ t hc hp =>
    exact .inr ⟨key, held, env, t, rfl, by simp [State.hand, hc], hp, rfl⟩
  | insert | remove | clear | wake | pollNext | skip | take | popNone | ended | pending | resume
  | exit | finish => exact .inl rfl

end ZmqRs.FairQueue
