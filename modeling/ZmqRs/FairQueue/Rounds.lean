import ZmqRs.FairQueue.Call
import ZmqRs.Lib.RoundRobin

/-! Streams that are always ready.  The events stand for the streams in the order
in which they are to be served, and a call of `poll_next` serves the first that
has an item. -/

namespace ZmqRs

open Codec (Poll)
open Lib (items serve rounds)

namespace QueueInner

variable {K W T : Type} [DecidableEq K] {q q' : QueueInner (FairQueue.Held (List T)) K W}
  {l : List (K × List T)} {k : K} {xs : List T}

structure Serves (q : QueueInner (FairQueue.Held (List T)) K W) (l : List (K × List T)) : Prop where
  ordered : q.Ordered
  keys : q.readyQueue.map ReadyEvent.key = l.map Prod.fst
  queued : ∀ k, k ∈ q.queued ↔ k ∈ l.map Prod.fst
  streams : ∀ k xs, (q.streams.lookup k).map FairQueue.Held.stream = some xs ↔ (k, xs) ∈ l

namespace Serves

theorem new : (QueueInner.new : QueueInner (FairQueue.Held (List T)) K W).Serves [] where
  ordered := ⟨List.Pairwise.nil, fun e he => by cases he⟩
  keys := rfl
  queued := by simp [QueueInner.new]
  streams := by simp [QueueInner.new]

theorem waker (h : q.Serves l) (w : Option W) : ({ q with waker := w }).Serves l where
  ordered := h.ordered.congr rfl rfl
  keys := h.keys
  queued := h.queued
  streams := h.streams

theorem push [Target] (h : q.Serves l) (hk : k ∉ l.map Prod.fst)
    (hc : q.counter + 1 < 2 ^ Target.usizeBits) (w : Option Nat) :
    ((q.putBack k ⟨xs, w⟩).pushReady k).Serves (l ++ [(k, xs)]) where
  ordered := by
    apply Ordered.pushReady
    · exact h.ordered.congr rfl rfl
    · intro e he
      rw [pushedEvent] at he
      split at he
      · cases he
      · cases he
        exact hc
  keys := by
    have hq : k ∉ q.queued := fun hm => hk ((h.queued k).mp hm)
    simp [pushReady, putBack, hq, h.keys]
  queued := by
    have hq : k ∉ q.queued := fun hm => hk ((h.queued k).mp hm)
    intro k'
    simp [pushReady, putBack, hq, h.queued, or_comm]
  streams := by
    intro k' xs'
    rw [pushReady_streams, putBack]
    by_cases heq : k' = k
    · subst heq
      have hne : (k', xs') ∉ l := fun hm => hk (List.mem_map_of_mem hm)
      simp [hne, eq_comm]
    · rw [AList.lookup_insert_ne heq, h.streams]
      simp [heq]

theorem counter_push [Target] (h : q.Serves l) (hk : k ∉ l.map Prod.fst)
    (hc : q.counter + 1 < 2 ^ Target.usizeBits) (xs : List T) (w : Option Nat) :
    ((q.putBack k ⟨xs, w⟩).pushReady k).counter = q.counter + 1 := by
  have hq : k ∉ q.queued := fun hm => hk ((h.queued k).mp hm)
  simp [pushReady, putBack, hq, Nat.mod_eq_of_lt hc]

theorem take (h : q.Serves ((k, xs) :: l)) (hn : k ∉ l.map Prod.fst) {e : ReadyEvent K}
    (hg : q.Greatest e) : e.key = k ∧ (q.take e).2.Serves l := by
  obtain ⟨e₁, es, hq, rfl, hkeys⟩ := List.map_eq_cons_iff.mp h.keys
  obtain rfl : e = e₁ := h.ordered.eq_head hq hg
  refine ⟨rfl, h.ordered.take e, ?_, ?_, ?_⟩
  · simpa [QueueInner.take, hq] using hkeys
  · intro k'
    rw [QueueInner.take, Finset.mem_erase, h.queued, List.map_cons, List.mem_cons]
    constructor
    · rintro ⟨hne, heq | hm⟩
      · exact absurd heq hne
      · exact hm
    · intro hm
      refine ⟨?_, .inr hm⟩
      rintro rfl
      exact hn hm
  · intro k' xs'
    by_cases heq : k' = e.key
    · subst heq
      have hne : (e.key, xs') ∉ l := fun hm => hn (List.mem_map_of_mem hm)
      simp [QueueInner.take, hne]
    · rw [QueueInner.take, AList.lookup_erase_ne heq, h.streams]
      simp [heq]

theorem entries_nil (h : q.Serves []) : q.streams.entries = [] := by
  cases he : q.streams.entries with
  | nil => rfl
  | cons s es =>
    have hl : q.streams.lookup s.1 = some s.2 := by
      apply AList.mem_lookup_iff.mpr
      rw [he]
      exact List.mem_cons_self
    have hm : (s.1, s.2.stream) ∈ ([] : List (K × List T)) := by
      rw [← h.streams, hl, Option.map_some]
    cases hm

end Serves

end QueueInner

namespace FairQueue

variable {K W T : Type} [DecidableEq K]

def iter (xs : List T) (_ : Unit) : Poll (Option T) × List T :=
  match xs with
  | [] => (.ready none, [])
  | x :: xs => (.ready (some x), xs)

def inserts (l : List (K × List T)) : List (Action (List T) K W Unit) :=
  l.map fun s => .insert s.1 s.2

def Action.ofConsumer {S E : Type} : Action S K W E → Bool
  | .pollNext _ => true
  | a => a.ofCall

def returned [Target] {S E : Type} (block : Bool) (poll : S → E → Poll (Option T) × S)
    (st : State S K W T) (a : Action S K W E) : Option (Poll (Option (K × T))) :=
  if a.ofCall then
    match (next block poll st a).map State.consumer with
    | some (.idle (some (_, r))) => some r
    | _ => none
  else none

def inHand : Consumer (List T) K W T → List (K × List T)
  | .polling _ _ k held _ => [(k, held.stream)]
  | .idle _ | .looping _ _ | .ended _ _ _ | .returning _ _ _ => []

def Position (l : List (K × List T)) : Consumer (List T) K W T → Prop
  | .idle _ => True
  | .looping _ n | .polling _ n _ _ _ | .ended _ n _ => n = l.length
  | .returning _ _ r => l = [] ∧ r = .ready none

structure Serving [Target] (l : List (K × List T)) (st : State (List T) K W T) : Prop where
  serves : st.inner.Serves l
  nodup : ((inHand st.consumer ++ l).map Prod.fst).Nodup
  bound : st.inner.counter + items (inHand st.consumer ++ l) < 2 ^ Target.usizeBits
  position : Position l st.consumer

variable [Target] {st st' : State (List T) K W T} {l : List (K × List T)}

theorem Serving.atConsumer {c : Consumer (List T) K W T} (h : Serving l st) (hc : st.consumer = c) :
    ((inHand c ++ l).map Prod.fst).Nodup ∧
      st.inner.counter + items (inHand c ++ l) < 2 ^ Target.usizeBits ∧ Position l c := by
  subst hc
  exact ⟨h.nodup, h.bound, h.position⟩

omit [DecidableEq K] [Target] in
theorem nodup_rotate {k : K} {xs ys : List T} (h : (((k, xs) :: l).map Prod.fst).Nodup) :
    ((l ++ [(k, ys)]).map Prod.fst).Nodup := by
  rw [List.map_append]
  exact List.nodup_append_comm.mp h

theorem Serving.insert {last : Option (W × Poll (Option (K × T)))} (h : Serving l st)
    (hidle : st.consumer = .idle last) {k : K} {xs : List T}
    (hnd : (((k, xs) :: l).map Prod.fst).Nodup)
    (hc : st.inner.counter + 1 + items (l ++ [(k, xs)]) < 2 ^ Target.usizeBits)
    (hn : next false iter st (.insert k xs) = some st') :
    Serving (l ++ [(k, xs)]) st' ∧ st'.consumer = .idle last ∧
      st'.inner.counter = st.inner.counter + 1 := by
  have hk : k ∉ l.map Prod.fst := (List.nodup_cons.mp hnd).1
  have hc' : st.inner.counter + 1 < 2 ^ Target.usizeBits := by omega
  cases hn
  have hcount := h.serves.counter_push hk hc' xs none
  refine ⟨⟨h.serves.push hk hc' none, ?_, ?_, ?_⟩, hidle, hcount⟩
  · rw [hidle]
    exact nodup_rotate hnd
  · rw [hidle]
    exact lt_of_eq_of_lt (congrArg (· + _) hcount) hc
  · rw [hidle]
    trivial

theorem Serving.inserts {last : Option (W × Poll (Option (K × T)))} (h : Serving l st)
    (hidle : st.consumer = .idle last) {r : List (K × List T)}
    (hnd : ((l ++ r).map Prod.fst).Nodup)
    (hc : st.inner.counter + r.length + items (l ++ r) < 2 ^ Target.usizeBits) :
    ∃ st', (system false iter).run st (inserts r) = some st' ∧ Serving (l ++ r) st' ∧
      st'.consumer = .idle last := by
  induction r generalizing l st with
  | nil => exact ⟨st, rfl, by simpa using h, hidle⟩
  | cons s r ih =>
    obtain ⟨k, xs⟩ := s
    have hsplit : l ++ (k, xs) :: r = (l ++ [(k, xs)]) ++ r := by simp
    have hnd' : (((k, xs) :: l).map Prod.fst).Nodup := by
      rw [hsplit, List.map_append] at hnd
      have := hnd.of_append_left
      rw [List.map_append] at this
      exact List.nodup_append_comm.mp this
    rw [hsplit] at hnd hc ⊢
    rw [List.length_cons, Lib.items_append] at hc
    obtain ⟨st₁, hn⟩ : ∃ st₁, (system false iter).next st (.insert k xs) = some st₁ := ⟨_, rfl⟩
    obtain ⟨h₁, hidle₁, hcount⟩ := h.insert hidle hnd' (by omega) hn
    obtain ⟨st', hrun, h', hidle'⟩ := ih h₁ hidle₁ hnd (by rw [hcount, Lib.items_append]; omega)
    refine ⟨st', ?_, h', hidle'⟩
    have hcons : (FairQueue.inserts ((k, xs) :: r) : List (Action (List T) K W Unit)) =
        .insert k xs :: FairQueue.inserts r := rfl
    rw [hcons, Lib.System.run_cons, hn]
    exact hrun

inductive Serving.Step (st st' : State (List T) K W T) (a : Action (List T) K W Unit)
    (xs xs' : List (K × T)) : Prop
  | none (hr : returned false iter st a = none) (h : xs' = xs)
  | item (x : K × T) (hr : returned false iter st a = some (.ready (some x))) (h : xs = x :: xs')
  | done (hr : returned false iter st a = some (.ready none)) (h : xs = []) (h' : xs' = [])

theorem returned_eq {a : Action (List T) K W Unit} (ha : a.ofCall = true)
    (hn : next false iter st a = some st') {task : W} {r : Poll (Option (K × T))}
    (hc : st'.consumer = .idle (some (task, r))) : returned false iter st a = some r := by
  rw [returned, if_pos ha, hn, Option.map_some, hc]

theorem returned_none {a : Action (List T) K W Unit} (hn : next false iter st a = some st')
    (hc : ∀ last, st'.consumer ≠ .idle last) : returned false iter st a = none := by
  rw [returned, hn, Option.map_some]
  split
  · split
    · rename_i heq
      exact absurd (Option.some.inj heq) (hc _)
    · rfl
  · rfl

theorem Serving.pop (h : Serving l st) {e : ReadyEvent K}
    (hn : next false iter st (.pop e) = some st') :
    ∃ l', Serving l' st' ∧ Step st st' (.pop e) (serve (inHand st.consumer ++ l))
      (serve (inHand st'.consumer ++ l')) := by
  -- the event is that of the first stream, which is there
  have hfirst {task : W} {n : Nat} (hc : st.consumer = .looping task (n + 1))
      (hg : st.inner.Greatest e) : ∃ xs l', l = (e.key, xs) :: l' ∧ (st.inner.take e).2.Serves l' ∧
        (st.inner.streams.lookup e.key).map Held.stream = some xs := by
    obtain ⟨hnd, -, hp⟩ := h.atConsumer hc
    cases l with
    | nil => cases hp
    | cons s l =>
      obtain ⟨k, xs⟩ := s
      obtain ⟨rfl, ht⟩ := h.serves.take (List.nodup_cons.mp hnd).1 hg
      exact ⟨xs, l, rfl, ht, (h.serves.streams e.key xs).mpr List.mem_cons_self⟩
  cases stepped hn with
  | skip hc hg hl =>
    obtain ⟨xs, l, rfl, -, hstream⟩ := hfirst hc hg
    rw [hl] at hstream
    cases hstream
  | @take _ _ _ held hc hg hl =>
    obtain ⟨xs, l, rfl, ht, hstream⟩ := hfirst hc hg
    obtain rfl : held.stream = xs := by simpa [hl] using hstream
    obtain ⟨hnd, hb, hp⟩ := h.atConsumer hc
    refine ⟨l, ⟨ht.waker _, hnd, hb, Nat.succ.inj hp⟩, .none (returned_none hn (by simp)) ?_⟩
    rw [hc, inHand, List.singleton_append, inHand, List.nil_append]

theorem Serving.polled (h : Serving l st) (hn : next false iter st (.polled ()) = some st') :
    ∃ l', Serving l' st' ∧ Step st st' (.polled ()) (serve (inHand st.consumer ++ l))
      (serve (inHand st'.consumer ++ l')) := by
  cases stepped hn with
  | @item _ task n k held w t hc hp =>
    obtain ⟨ys, pw⟩ := held
    obtain ⟨hnd, hb, -⟩ := h.atConsumer hc
    rw [inHand, List.singleton_append] at hnd hb
    rw [hc, inHand, List.singleton_append]
    cases ys with
    | nil => cases hp
    | cons y ys =>
      obtain rfl : y = t := by simpa [iter] using hp
      have hk : k ∉ l.map Prod.fst := (List.nodup_cons.mp hnd).1
      have hcount : st.inner.counter + 1 < 2 ^ Target.usizeBits := by
        simp only [items, List.length_cons] at hb
        omega
      refine ⟨l ++ [(k, ys)], ⟨h.serves.push hk hcount none, nodup_rotate hnd, ?_, trivial⟩,
        .item (k, y) (returned_eq rfl hn rfl) ?_⟩
      · have hcp := h.serves.counter_push hk hcount ys none
        simp only [items, List.length_cons] at hb
        simp only [inHand, List.nil_append, Lib.items_append, items, iter, hcp]
        omega
      · rw [inHand, List.nil_append, serve]
  | @ended _ task n k held w hc hp =>
    obtain ⟨ys, pw⟩ := held
    obtain ⟨hnd, hb, hpos⟩ := h.atConsumer hc
    rw [inHand, List.singleton_append] at hnd hb
    rw [hc, inHand, List.singleton_append]
    cases ys with
    | nil =>
      refine ⟨l, ⟨h.serves, (List.nodup_cons.mp hnd).2, ?_, hpos⟩,
        .none (returned_none hn (by simp)) ?_⟩
      · exact lt_of_le_of_lt (by simp [inHand, items]) hb
      · rw [inHand, List.nil_append, serve]
    | cons y ys => cases hp
  | @pending _ task n k held w hc hp =>
    obtain ⟨ys, pw⟩ := held
    cases ys with
    | nil => cases hp
    | cons y ys => cases hp

theorem Serving.pollNext (h : Serving l st) {task : W}
    (hn : next false iter st (.pollNext task) = some st') :
    Serving l st' ∧ Step st st' (.pollNext task) (serve (inHand st.consumer ++ l))
      (serve (inHand st'.consumer ++ l)) := by
  cases stepped hn with
  | pollNext _ hc =>
    obtain ⟨hnd, hb, -⟩ := h.atConsumer hc
    have hlen : st.inner.readyQueue.length = l.length := by
      simpa using congrArg List.length h.serves.keys
    exact ⟨⟨h.serves.waker _, hnd, hb, hlen⟩, .none rfl (by rw [hc]; rfl)⟩

theorem Serving.resume (h : Serving l st) (hn : next false iter st .resume = some st') :
    Serving l st' ∧ Step st st' .resume (serve (inHand st.consumer ++ l))
      (serve (inHand st'.consumer ++ l)) := by
  cases stepped hn with
  | resume hc =>
    obtain ⟨hnd, hb, hp⟩ := h.atConsumer hc
    exact ⟨⟨h.serves, hnd, hb, hp⟩, .none (returned_none hn (by simp)) (by rw [hc]; rfl)⟩

theorem Serving.exit (h : Serving l st) (hn : next false iter st .exit = some st') :
    Serving l st' ∧ Step st st' .exit (serve (inHand st.consumer ++ l))
      (serve (inHand st'.consumer ++ l)) := by
  cases stepped hn with
  | exit hc =>
    obtain ⟨hnd, hb, hp⟩ := h.atConsumer hc
    obtain rfl : l = [] := List.eq_nil_of_length_eq_zero hp.symm
    refine ⟨⟨h.serves.waker _, hnd, hb, rfl, ?_⟩,
      .none (returned_none hn (by simp)) (by rw [hc]; rfl)⟩
    simp [noItem, h.serves.entries_nil]

theorem Serving.finish (h : Serving l st) (hn : next false iter st .finish = some st') :
    Serving l st' ∧ Step st st' .finish (serve (inHand st.consumer ++ l))
      (serve (inHand st'.consumer ++ l)) := by
  cases stepped hn with
  | finish hc =>
    obtain ⟨hnd, hb, hp⟩ := h.atConsumer hc
    obtain ⟨rfl, rfl⟩ := hp
    refine ⟨⟨h.serves, hnd, hb, trivial⟩, .done (returned_eq rfl hn rfl) ?_ ?_⟩
    · rw [hc, inHand, List.nil_append, serve]
    · rw [inHand, List.nil_append, serve]

theorem Serving.popNone (h : Serving l st) : next false iter st .popNone = none := by
  cases hn : next false iter st (.popNone : Action (List T) K W Unit) with
  | none => rfl
  | some st' =>
    cases stepped hn with
    | popNone hc he =>
      obtain ⟨-, -, hp⟩ := h.atConsumer hc
      have hlen : st.inner.readyQueue.length = l.length := by
        simpa using congrArg List.length h.serves.keys
      rw [he, ← hp] at hlen
      cases hlen

theorem Serving.next (h : Serving l st) {a : Action (List T) K W Unit} (ha : a.ofConsumer = true)
    (hn : next false iter st a = some st') :
    ∃ l', Serving l' st' ∧ Step st st' a (serve (inHand st.consumer ++ l))
      (serve (inHand st'.consumer ++ l')) := by
  cases a with
  | insert | remove | clear | wake => cases ha
  | pollNext task => exact ⟨l, h.pollNext hn⟩
  | pop e => exact h.pop hn
  | popNone =>
    rw [h.popNone] at hn
    cases hn
  | polled env => exact h.polled hn
  | resume => exact ⟨l, h.resume hn⟩
  | exit => exact ⟨l, h.exit hn⟩
  | finish => exact ⟨l, h.finish hn⟩

def results (st : State (List T) K W T) (as : List (Action (List T) K W Unit)) :
    List (Poll (Option (K × T))) :=
  ((system false iter).steps st as).filterMap fun s => returned false iter s.1 s.2

theorem results_cons {a : Action (List T) K W Unit} (hn : next false iter st a = some st')
    (as : List (Action (List T) K W Unit)) :
    results st (a :: as) = (returned false iter st a).toList ++ results st' as := by
  rw [results, Lib.System.steps_cons (system false iter) hn]
  cases hr : returned false iter st a with
  | none => exact List.filterMap_cons_none hr
  | some r => exact List.filterMap_cons_some hr

def Accounted (xs : List (K × T)) (rs : List (Poll (Option (K × T))))
    (st : State (List T) K W T) : Prop :=
  ∃ l m, Serving l st ∧
    rs ++ (serve (inHand st.consumer ++ l)).map (fun x => .ready (some x)) =
      xs.map (fun x => .ready (some x)) ++ List.replicate m (.ready none)

theorem Accounted.next {xs : List (K × T)} {rs : List (Poll (Option (K × T)))}
    (h : Accounted xs rs st) {a : Action (List T) K W Unit} (ha : a.ofConsumer = true)
    (hn : next false iter st a = some st') :
    Accounted xs (rs ++ (returned false iter st a).toList) st' := by
  obtain ⟨l, m, hs, heq⟩ := h
  obtain ⟨l', hs', hstep⟩ := hs.next ha hn
  cases hstep with
  | none hr hxs =>
    refine ⟨l', m, hs', ?_⟩
    rw [hr, Option.toList_none, List.append_nil, hxs, heq]
  | item x hr hxs =>
    refine ⟨l', m, hs', ?_⟩
    rw [hxs] at heq
    rw [hr, Option.toList_some, List.append_assoc]
    exact heq
  | done hr hxs hxs' =>
    refine ⟨l', m + 1, hs', ?_⟩
    rw [hxs, List.map_nil, List.append_nil] at heq
    rw [hr, hxs', heq, Option.toList_some, List.map_nil, List.append_nil, List.append_assoc,
      List.replicate_succ']

theorem Accounted.run {xs : List (K × T)} (h : Accounted xs [] st)
    {as : List (Action (List T) K W Unit)} (ha : ∀ a ∈ as, a.ofConsumer = true)
    (hrun : (system false iter).run st as = some st') : Accounted xs (results st as) st' := by
  have hsteps := (system false iter).run_steps
    (P := fun l s => (∀ x ∈ l, x.2.ofConsumer = true) →
      Accounted xs (l.filterMap fun s => returned false iter s.1 s.2) s)
    (fun l s a s' hP hn hl => ?_) (s := st) (l := []) (fun _ => h) hrun
  · exact hsteps fun x hx => ha _ (Lib.System.mem_of_mem_steps _ hx)
  · rw [Lib.filterMap_append_singleton]
    exact (hP fun x hx => hl x (List.mem_append_left _ hx)).next (hl (s, a) (by simp)) hn

theorem idle_of_ofCall {a : Action (List T) K W Unit} (ha : a.ofCall = true)
    (hn : FairQueue.next false iter st a = some st')
    {last : Option (W × Poll (Option (K × T)))} (hc : st'.consumer = .idle last) :
    ∃ task r, last = some (task, r) := by
  have hstep := consumerStep hn
  rw [hc] at hstep
  generalize st.consumer = c at hstep
  cases hstep with
  | other _ ho =>
    rcases ho with ⟨k, s, rfl⟩ | ⟨k, rfl⟩ | rfl | ⟨w, rfl⟩ <;> cases ha
  | empty task => exact ⟨task, _, rfl⟩
  | item task => exact ⟨task, _, rfl⟩
  | finish task => exact ⟨task, _, rfl⟩

theorem exists_returns (hc : ∀ last, st.consumer ≠ .idle last) :
    ∃ as st', (∀ a ∈ as, a.ofCall = true) ∧ (system false iter).run st as = some st' ∧
      (∃ last, st'.consumer = .idle last) ∧ (results st as).length = 1 := by
  induction hm : st.consumer.left using Nat.strong_induction_on generalizing st with
  | h m ih =>
    obtain ⟨a, ha, hsome⟩ : ∃ a : Action (List T) K W Unit,
        a.ofCall = true ∧ (next false iter st a).isSome := progress hc ()
    obtain ⟨st₁, hn⟩ := Option.isSome_iff_exists.mp hsome
    have hlt := left_of_ofCall ha hn
    by_cases hidle : ∃ last, st₁.consumer = .idle last
    · obtain ⟨last, hlast⟩ := hidle
      obtain ⟨task, r, rfl⟩ := idle_of_ofCall ha hn hlast
      refine ⟨[a], st₁, by simpa using ha, ?_, ⟨_, hlast⟩, ?_⟩
      · simpa [Lib.System.run_cons, system] using hn
      · rw [results_cons hn, returned_eq ha hn hlast]
        rfl
    · rw [not_exists] at hidle
      obtain ⟨as, st', has, hrun, hend, hlen⟩ := ih _ (by omega) hidle rfl
      refine ⟨a :: as, st', ?_, ?_, hend, ?_⟩
      · intro a' ha'
        cases List.mem_cons.mp ha' with
        | inl h => rw [h, ha]
        | inr h => exact has a' h
      · simpa [Lib.System.run_cons, system, hn] using hrun
      · rw [results_cons hn, returned_none hn hidle]
        exact hlen

theorem exists_next_result (task : W) (st : State (List T) K W T) :
    ∃ as st', (∀ a ∈ as, a.ofConsumer = true) ∧ (system false iter).run st as = some st' ∧
      (results st as).length = 1 := by
  have hof : ∀ a : Action (List T) K W Unit, a.ofCall = true → a.ofConsumer = true := by
    intro a ha
    cases a with
    | pollNext task => rfl
    | insert | remove | clear | wake | pop | popNone | polled | resume | exit | finish => exact ha
  by_cases hidle : ∃ last, st.consumer = .idle last
  · obtain ⟨last, hlast⟩ := hidle
    obtain ⟨st₁, hn, hc⟩ : ∃ st₁, FairQueue.next false iter st (.pollNext task) = some st₁ ∧
        ∀ last, st₁.consumer ≠ .idle last := by
      simp [FairQueue.next, hlast]
    obtain ⟨as, st', has, hrun, -, hlen⟩ := exists_returns hc
    refine ⟨.pollNext task :: as, st', ?_, ?_, ?_⟩
    · intro a ha
      cases List.mem_cons.mp ha with
      | inl h => rw [h, Action.ofConsumer]
      | inr h => exact hof a (has a h)
    · simpa [Lib.System.run_cons, system, hn] using hrun
    · rw [results_cons hn]
      exact hlen
  · rw [not_exists] at hidle
    obtain ⟨as, st', has, hrun, -, hlen⟩ := exists_returns hidle
    exact ⟨as, st', fun a ha => hof a (has a ha), hrun, hlen⟩

/-- The streams of `l` are inserted and `poll_next` is called again and again.  The calls return
the items round by round, then `None`, and there is always a next one that returns. -/
theorem round_robin {l : List (K × List T)} (hk : (l.map Prod.fst).Nodup)
    (hw : l.length + items l < 2 ^ Target.usizeBits) :
    ∃ st₀, (system false iter).run (State.init : State (List T) K W T) (inserts l) = some st₀ ∧
      ∀ as st, (∀ a ∈ as, a.ofConsumer = true) → (system false iter).run st₀ as = some st →
        (∃ m, results st₀ as <+:
          (rounds l).map (fun x => .ready (some x)) ++ List.replicate m (.ready none)) ∧
        (W → ∃ as' st', (∀ a ∈ as', a.ofConsumer = true) ∧
          (system false iter).run st as' = some st' ∧ (results st as').length = 1) := by
  have hinit : Serving [] (State.init : State (List T) K W T) :=
    ⟨.new, List.nodup_nil, Nat.two_pow_pos _, trivial⟩
  obtain ⟨st₀, hrun₀, hserving, hidle⟩ := hinit.inserts rfl (r := l) hk
    (by simpa [State.init, QueueInner.new] using hw)
  rw [List.nil_append] at hserving
  refine ⟨st₀, hrun₀, ?_⟩
  intro as st ha hrun
  have hacc : Accounted (rounds l) [] st₀ := by
    refine ⟨l, 0, hserving, ?_⟩
    rw [hidle, inHand, List.nil_append, Lib.serve_eq_rounds, List.nil_append, List.replicate_zero,
      List.append_nil]
  obtain ⟨l', m, -, heq⟩ := hacc.run ha hrun
  exact ⟨⟨m, _, heq⟩, fun task => exists_next_result task st⟩

omit [Target] in
theorem round_robin_three :
    letI := Target.x64
    (∃ st₀, (system false iter).run (State.init : State (List Nat) Nat Unit Nat)
        (inserts [(1, [10, 11]), (2, []), (3, [30])]) = some st₀ ∧
      ∀ as st, (∀ a ∈ as, a.ofConsumer = true) → (system false iter).run st₀ as = some st →
        ∃ m, results st₀ as <+: [.ready (some (1, 10)), .ready (some (3, 30)),
          .ready (some (1, 11))] ++ List.replicate m (.ready none)) := by
  let _ := Target.x64
  obtain ⟨st₀, hrun, h⟩ := round_robin (W := Unit) (l := [(1, [10, 11]), (2, []), (3, [30])])
    (by decide) (by decide)
  exact ⟨st₀, hrun, fun as st ha hr => (h as st ha hr).1⟩

end FairQueue

end ZmqRs
