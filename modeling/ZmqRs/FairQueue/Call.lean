import ZmqRs.FairQueue.Keys
import ZmqRs.FairQueue.Unique
import ZmqRs.FairQueue.Wakeups
import Mathlib.Data.Finset.Max

/-! One call of `poll_next`.  Whatever other tasks push while it runs has a later
priority, so the call pops the events that were queued when it started and no
others. -/

namespace ZmqRs

open Codec (Poll)

namespace QueueInner

variable {S K W : Type} [DecidableEq K] {q q' : QueueInner S K W}

structure Ordered (q : QueueInner S K W) : Prop where
  increasing : q.readyQueue.Pairwise fun e e' => e.priority < e'.priority
  below : ∀ e ∈ q.readyQueue, e.priority < q.counter

def pushedEvent (q : QueueInner S K W) (k : K) : Option (ReadyEvent K) :=
  if k ∈ q.queued then none else some ⟨q.counter, k⟩

theorem pushReady_readyQueue [Target] (q : QueueInner S K W) (k : K) :
    (q.pushReady k).readyQueue = q.readyQueue ++ (q.pushedEvent k).toList := by
  rw [pushReady, pushedEvent]
  split <;> simp

namespace Ordered

omit [DecidableEq K] in
theorem congr (h : Ordered q) (hr : q'.readyQueue = q.readyQueue) (hc : q'.counter = q.counter) :
    Ordered q' := by
  constructor
  · rw [hr]
    exact h.increasing
  · rw [hr, hc]
    exact h.below

theorem pushReady [Target] (h : Ordered q) {k : K}
    (hw : ∀ e ∈ q.pushedEvent k, e.priority + 1 < 2 ^ Target.usizeBits) :
    Ordered (q.pushReady k) := by
  rw [pushedEvent] at hw
  rw [QueueInner.pushReady]
  split
  · exact h
  · rename_i hk
    have hc : q.counter + 1 < 2 ^ Target.usizeBits := by
      simpa [hk] using hw
    constructor
    · apply List.pairwise_append.mpr
      refine ⟨h.increasing, List.pairwise_singleton _ _, ?_⟩
      intro e he e' he'
      obtain rfl := List.mem_singleton.mp he'
      exact h.below e he
    · intro e he
      change e.priority < (q.counter + 1) % 2 ^ Target.usizeBits
      rw [Nat.mod_eq_of_lt hc]
      cases List.mem_append.mp he with
      | inl he => exact Nat.lt_succ_of_lt (h.below e he)
      | inr he =>
        obtain rfl := List.mem_singleton.mp he
        exact Nat.lt_succ_self _

theorem take (h : Ordered q) (e : ReadyEvent K) : Ordered (q.take e).2 where
  increasing := h.increasing.sublist List.erase_sublist
  below := fun e' he' => h.below e' (List.mem_of_mem_erase he')

theorem eq_head (h : Ordered q) {e e₁ : ReadyEvent K} {es : List (ReadyEvent K)}
    (hq : q.readyQueue = e₁ :: es) (hg : q.Greatest e) : e = e₁ := by
  obtain ⟨he, hle⟩ := hg
  rw [hq] at he hle
  cases List.mem_cons.mp he with
  | inl he => exact he
  | inr he =>
    have hlt : e₁.priority < e.priority := by
      have hp := h.increasing
      rw [hq, List.pairwise_cons] at hp
      exact hp.1 e he
    have hge := hle e₁ List.mem_cons_self
    omega

end Ordered

end QueueInner

namespace FairQueue

variable {S K W T E : Type} [DecidableEq K] (poll : S → E → Poll (Option T) × S)

def pushed (st : State S K W T) (a : Action S K W E) : Option (ReadyEvent K) :=
  (pushes poll st a).bind st.inner.pushedEvent

def unwrapped [Target] (st : State S K W T) (a : Action S K W E) : Bool :=
  (pushed poll st a).all fun e => decide (e.priority + 1 < 2 ^ Target.usizeBits)

def unwrappedSystem [Target] (block : Bool) (poll : S → E → Poll (Option T) × S) :
    Lib.System (State S K W T) (Action S K W E) :=
  (system block poll).guarded fun st a => unwrapped poll st a = true

inductive Turn (K : Type)
  | polled (key : K)
  | skipped (key : K)
  deriving DecidableEq

def Turn.key : Turn K → K
  | .polled k => k
  | .skipped k => k

def turn (st : State S K W T) : Action S K W E → Option (Turn K)
  | .pop e =>
    match st.inner.streams.lookup e.key with
    | none => some (.skipped e.key)
    | some _ => none
  | .polled _ =>
    match st.consumer with
    | .polling _ _ k _ _ => some (.polled k)
    | _ => none
  | _ => none

def Action.ofCall : Action S K W E → Bool
  | .pop _ | .popNone | .polled _ | .resume | .exit | .finish => true
  | _ => false

/-- The steps of other tasks that a call may meet.  `clear` needs the socket, which the caller
of `poll_next` has. -/
def Action.ofOthers : Action S K W E → Bool
  | .insert _ _ | .remove _ | .wake _ => true
  | _ => false

variable {poll} [Target] {block : Bool} {st st' : State S K W T}

inductive QueueStep (poll : S → E → Poll (Option T) × S) (st st' : State S K W T)
    (a : Action S K W E) : Prop
  | same (hp : pushes poll st a = none) (hr : st'.inner.readyQueue = st.inner.readyQueue)
    (hc : st'.inner.counter = st.inner.counter)
  | push (k : K) (hp : pushes poll st a = some k)
    (hr : st'.inner.readyQueue = (st.inner.pushReady k).readyQueue)
    (hc : st'.inner.counter = (st.inner.pushReady k).counter)
  | pop (e : ReadyEvent K) (ha : a = .pop e)
    (hr : st'.inner.readyQueue = st.inner.readyQueue.erase e)
    (hc : st'.inner.counter = st.inner.counter)
  | clear (ha : a = .clear) (hr : st'.inner.readyQueue = [])

theorem QueueStep.of_pushReady {a : Action S K W E} {k : K} (hp : pushes poll st a = some k)
    (q : QueueInner (Held S) K W) (hr : q.readyQueue = st.inner.readyQueue)
    (hq : q.queued = st.inner.queued) (hc : q.counter = st.inner.counter)
    (hr' : st'.inner.readyQueue = (q.pushReady k).readyQueue)
    (hc' : st'.inner.counter = (q.pushReady k).counter) : QueueStep poll st st' a := by
  apply QueueStep.push k hp
  · rw [hr', QueueInner.pushReady, QueueInner.pushReady, hq, hr, hc]
    split
    · exact hr
    · rfl
  · rw [hc', QueueInner.pushReady, QueueInner.pushReady, hq, hr, hc]
    split
    · exact hc
    · rfl

theorem queueStep {a : Action S K W E} (h : next block poll st a = some st') :
    QueueStep poll st st' a := by
  cases stepped h with
  | insert k s => exact .of_pushReady rfl (st.inner.putBack k ⟨s, none⟩) rfl rfl rfl rfl rfl
  | clear hc => exact .clear rfl rfl
  | wake hw => exact .of_pushReady hw st.inner rfl rfl rfl rfl rfl
  | @skip e _ _ hc hg hl => exact .pop e rfl rfl rfl
  | @take e _ _ _ hc hg hl => exact .pop e rfl rfl rfl
  | @item env _ _ k _ _ _ hc hp =>
    have hk : pushes poll st (.polled env : Action S K W E) = some k := by
      simp only [pushes, hc, hp]
    exact .of_pushReady hk (st.inner.putBack k _) rfl rfl rfl rfl rfl
  | ended hc hp => exact .same (by simp only [pushes, hc, hp]) rfl rfl
  | pending hc hp => exact .same (by simp only [pushes, hc, hp]) rfl rfl
  | remove | pollNext | popNone | resume | exit | finish => exact .same rfl rfl rfl

theorem ordered_next {a : Action S K W E} (hw : unwrapped poll st a = true)
    (ho : st.inner.Ordered) (h : next block poll st a = some st') : st'.inner.Ordered := by
  cases queueStep h with
  | same hp hr hc => exact ho.congr hr hc
  | push k hp hr hc =>
    refine QueueInner.Ordered.congr (ho.pushReady ?_) hr hc
    intro e he
    rw [unwrapped, pushed, hp, Option.bind_some, Option.mem_def.mp he] at hw
    simpa using hw
  | pop e ha hr hc => exact (ho.take e).congr hr hc
  | clear ha hr =>
    constructor
    · rw [hr]
      exact List.Pairwise.nil
    · rw [hr]
      intro e he
      cases he

theorem readyQueue_next {a : Action S K W E} (hc : a ≠ .clear) (hp : ∀ e, a ≠ .pop e)
    (h : next block poll st a = some st') :
    st'.inner.readyQueue = st.inner.readyQueue ++ (pushed poll st a).toList := by
  cases queueStep h with
  | same hk hr _ => rw [hr, pushed, hk, Option.bind_none, Option.toList_none, List.append_nil]
  | push k hk hr _ => rw [hr, QueueInner.pushReady_readyQueue, pushed, hk, Option.bind_some]
  | pop e ha _ _ => exact absurd ha (hp e)
  | clear ha _ => exact absurd ha hc

theorem Reachable.ordered (h : (unwrappedSystem block poll).Reachable st) : st.inner.Ordered := by
  have hinit : (State.init : State S K W T).inner.Ordered :=
    ⟨List.Pairwise.nil, fun e he => by cases he⟩
  exact Lib.System.Reachable.invariant_guarded (P := fun st => st.inner.Ordered) hinit
    (fun _ _ _ hw ho hn => ordered_next hw ho hn) h

def InCall (task : W) (rest : List (ReadyEvent K)) (hand : List K) : Consumer S K W T → Prop
  | .idle last =>
    hand = [] ∧ ∃ r, last = some (task, r) ∧ ((∀ x, r ≠ .ready (some x)) → rest = [])
  | .looping task' n => task' = task ∧ n = rest.length ∧ hand = []
  | .polling task' n k _ _ => task' = task ∧ n = rest.length ∧ hand = [k]
  | .ended task' n _ => task' = task ∧ n = rest.length ∧ hand = []
  | .returning task' _ _ => task' = task ∧ rest = [] ∧ hand = []

/-- A call that started with the events `queue` has ended the turns `ts`, and the events `es`
were pushed since. -/
def Call (queue : List (ReadyEvent K)) (task : W) (ts : List (Turn K)) (es : List (ReadyEvent K))
    (st : State S K W T) : Prop :=
  ∃ popped rest hand, queue = popped ++ rest ∧
    popped.map ReadyEvent.key = ts.map Turn.key ++ hand ∧
    st.inner.readyQueue = rest ++ es ∧ InCall task rest hand st.consumer

theorem Call.start {task : W} (h : next block poll st (.pollNext task) = some st') :
    Call st.inner.readyQueue task [] [] st' := by
  cases stepped h with
  | pollNext _ hc => exact ⟨[], st.inner.readyQueue, [], rfl, rfl, by simp, rfl, rfl, rfl⟩

variable {queue es : List (ReadyEvent K)} {task : W} {ts : List (Turn K)}

theorem consumer_of_others {a : Action S K W E} (ha : Action.ofOthers a = true)
    (h : next block poll st a = some st') : st'.consumer = st.consumer := by
  cases stepped h with
  | insert | remove | wake => rfl
  | clear | pollNext | skip | take | popNone | item | ended | pending | resume | exit | finish =>
    cases ha

theorem Call.others (hc : Call queue task ts es st) {a : Action S K W E}
    (ha : Action.ofOthers a = true) (h : next block poll st a = some st') :
    Call queue task ts (es ++ (pushed poll st a).toList) st' := by
  obtain ⟨popped, rest, hand, hq, hts, hr, hin⟩ := hc
  refine ⟨popped, rest, hand, hq, hts, ?_, ?_⟩
  · rw [readyQueue_next _ _ h, hr, List.append_assoc]
    · rintro rfl
      cases ha
    · rintro e rfl
      cases ha
  · rw [consumer_of_others ha h]
    exact hin

theorem Call.pop (ho : st.inner.Ordered) (hc : Call queue task ts es st) {e : ReadyEvent K}
    (h : next block poll st (.pop e) = some st') :
    Call queue task (ts ++ (turn st (.pop e : Action S K W E)).toList) es st' := by
  obtain ⟨popped, rest, hand, hq, hts, hr, hin⟩ := hc
  -- whether its stream is there or not, the event is the first of those left
  have hfirst {task' : W} {n : Nat} (hcons : st.consumer = .looping task' (n + 1))
      (hg : st.inner.Greatest e) : task' = task ∧ hand = [] ∧ ∃ rest',
        rest = e :: rest' ∧ n = rest'.length ∧ st.inner.readyQueue.erase e = rest' ++ es := by
    rw [hcons] at hin
    obtain ⟨rfl, hn, rfl⟩ := hin
    cases rest with
    | nil => cases hn
    | cons e₁ rest =>
      obtain rfl : e = e₁ := ho.eq_head hr hg
      refine ⟨rfl, rfl, rest, rfl, Nat.succ.inj hn, ?_⟩
      rw [hr, List.cons_append, List.erase_cons_head]
  cases stepped h with
  | skip hcons hg hl =>
    obtain ⟨rfl, rfl, rest', rfl, hn, hr'⟩ := hfirst hcons hg
    refine ⟨popped ++ [e], rest', [], ?_, ?_, hr', rfl, hn, rfl⟩
    · rw [hq, List.append_assoc, List.singleton_append]
    · simpa [turn, hl, Turn.key] using hts
  | take hcons hg hl =>
    obtain ⟨rfl, rfl, rest', rfl, hn, hr'⟩ := hfirst hcons hg
    refine ⟨popped ++ [e], rest', [e.key], ?_, ?_, hr', rfl, hn, rfl⟩
    · rw [hq, List.append_assoc, List.singleton_append]
    · simpa [turn, hl] using hts

theorem Call.polled (hc : Call queue task ts es st) {env : E}
    (h : next block poll st (.polled env) = some st') :
    Call queue task (ts ++ (turn st (.polled env : Action S K W E)).toList)
      (es ++ (pushed poll st (.polled env : Action S K W E)).toList) st' := by
  obtain ⟨popped, rest, hand, hq, hts, hr, hin⟩ := hc
  have hr' := readyQueue_next (by simp) (by simp) h
  rw [hr, List.append_assoc] at hr'
  have hturn {task' : W} {n : Nat} {k : K} {held : Held S} {w : Nat}
      (hcons : st.consumer = .polling task' n k held w) : task' = task ∧ n = rest.length ∧
        popped.map ReadyEvent.key =
          (ts ++ (turn st (.polled env : Action S K W E)).toList).map Turn.key ++ [] := by
    rw [hcons] at hin
    obtain ⟨rfl, rfl, rfl⟩ := hin
    simp [turn, hcons, hts, Turn.key]
  cases stepped h with
  | @item _ _ _ k _ _ t hcons hp =>
    obtain ⟨rfl, rfl, hts'⟩ := hturn hcons
    refine ⟨popped, rest, [], hq, hts', hr', rfl, _, rfl, ?_⟩
    intro hx
    exact absurd rfl (hx (k, t))
  | ended hcons hp =>
    obtain ⟨rfl, rfl, hts'⟩ := hturn hcons
    exact ⟨popped, rest, [], hq, hts', hr', rfl, rfl, rfl⟩
  | pending hcons hp =>
    obtain ⟨rfl, rfl, hts'⟩ := hturn hcons
    exact ⟨popped, rest, [], hq, hts', hr', rfl, rfl, rfl⟩

theorem Call.quiet (hc : Call queue task ts es st) {a : Action S K W E}
    (ha : a = .popNone ∨ a = .resume ∨ a = .exit ∨ a = .finish)
    (h : next block poll st a = some st') : Call queue task ts es st' := by
  obtain ⟨popped, rest, hand, hq, hts, hr, hin⟩ := hc
  cases stepped h with
  | popNone hcons he =>
    -- there is an event left as long as the call has one to pop
    rw [hcons] at hin
    obtain ⟨-, hn, -⟩ := hin
    rw [hr, List.append_eq_nil_iff] at he
    rw [he.1] at hn
    cases hn
  | resume hcons =>
    rw [hcons] at hin
    exact ⟨popped, rest, hand, hq, hts, hr, hin⟩
  | exit hcons =>
    rw [hcons] at hin
    obtain ⟨ht, hn, hh⟩ := hin
    exact ⟨popped, rest, hand, hq, hts, hr, ht, List.eq_nil_of_length_eq_zero hn.symm, hh⟩
  | finish hcons =>
    rw [hcons] at hin
    obtain ⟨rfl, hn, hh⟩ := hin
    exact ⟨popped, rest, hand, hq, hts, hr, hh, _, rfl, fun _ => hn⟩
  | insert | remove | clear | wake | pollNext | skip | take | item | ended | pending =>
    rcases ha with ha | ha | ha | ha <;> cases ha

theorem Call.next (ho : st.inner.Ordered) (hc : Call queue task ts es st) {a : Action S K W E}
    (ha : Action.ofCall a || Action.ofOthers a) (h : next block poll st a = some st') :
    Call queue task (ts ++ (turn st a).toList) (es ++ (pushed poll st a).toList) st' := by
  cases a with
  | insert k s => simpa [turn] using hc.others rfl h
  | remove k => simpa [turn] using hc.others rfl h
  | wake w => simpa [turn] using hc.others rfl h
  | clear => cases ha
  | pollNext task' => cases ha
  | pop e => simpa [pushed, pushes] using hc.pop ho h
  | polled env => exact hc.polled h
  | popNone => simpa [turn, pushed, pushes] using hc.quiet (.inl rfl) h
  | resume => simpa [turn, pushed, pushes] using hc.quiet (.inr (.inl rfl)) h
  | exit => simpa [turn, pushed, pushes] using hc.quiet (.inr (.inr (.inl rfl))) h
  | finish => simpa [turn, pushed, pushes] using hc.quiet (.inr (.inr (.inr rfl))) h

theorem Call.run (ho : st.inner.Ordered) (hc : Call queue task ts es st)
    {as : List (Action S K W E)} (ha : ∀ a ∈ as, Action.ofCall a || Action.ofOthers a)
    (h : (unwrappedSystem block poll).run st as = some st') :
    st'.inner.Ordered ∧
      Call queue task
        (ts ++ ((unwrappedSystem block poll).steps st as).filterMap fun s => turn s.1 s.2)
        (es ++ ((unwrappedSystem block poll).steps st as).filterMap fun s => pushed poll s.1 s.2)
        st' := by
  have hrun := (unwrappedSystem block poll).run_steps
    (P := fun l s => (∀ x ∈ l, Action.ofCall x.2 || Action.ofOthers x.2) → s.inner.Ordered ∧
      Call queue task (ts ++ l.filterMap fun s => turn s.1 s.2)
        (es ++ l.filterMap fun s => pushed poll s.1 s.2) s)
    (fun l s a s' hP hn hl => ?_) (s := st) (l := []) ?_ h
  · exact hrun fun x hx => ha _ (Lib.System.mem_of_mem_steps _ hx)
  · obtain ⟨hw, hn⟩ := Lib.System.next_of_guarded hn
    obtain ⟨ho, hc⟩ := hP fun x hx => hl x (List.mem_append_left _ hx)
    refine ⟨ordered_next hw ho hn, ?_⟩
    rw [Lib.filterMap_append_singleton, Lib.filterMap_append_singleton, ← List.append_assoc,
      ← List.append_assoc]
    exact hc.next ho (hl (s, a) (by simp)) hn
  · intro _
    simpa using ⟨ho, hc⟩

omit [Target] [DecidableEq K] in
theorem Call.isPrefix (hc : Call queue task ts es st) :
    ts.map Turn.key <+: queue.map ReadyEvent.key := by
  obtain ⟨popped, rest, hand, hq, hts, -, -⟩ := hc
  refine ⟨hand ++ rest.map ReadyEvent.key, ?_⟩
  rw [hq, List.map_append, hts, List.append_assoc]

omit [Target] [DecidableEq K] in
theorem Call.returned (hc : Call queue task ts es st) {last : Option (W × Poll (Option (K × T)))}
    (hlast : st.consumer = .idle last) :
    ∃ r, last = some (task, r) ∧ st.inner.readyQueue = queue.drop ts.length ++ es ∧
      ((∀ x, r ≠ .ready (some x)) → ts.map Turn.key = queue.map ReadyEvent.key) := by
  obtain ⟨popped, rest, hand, hq, hts, hr, hin⟩ := hc
  rw [hlast] at hin
  obtain ⟨rfl, r, rfl, hrest⟩ := hin
  rw [List.append_nil] at hts
  refine ⟨r, rfl, ?_, ?_⟩
  · have hlen : ts.length = popped.length := by
      simpa using (congrArg List.length hts).symm
    rw [hr, hq, hlen, List.drop_left]
  · intro hx
    rw [hq, hrest hx, List.append_nil, hts]

def Consumer.left : Consumer S K W T → Nat
  | .idle _ => 0
  | .looping _ n => 3 * n + 2
  | .polling _ n _ _ _ => 3 * n + 4
  | .ended _ n _ => 3 * n + 3
  | .returning _ _ _ => 1

theorem left_start (h : next block poll st (.pollNext task) = some st') :
    st'.consumer.left = 3 * st.inner.readyQueue.length + 2 := by
  cases stepped h with
  | pollNext _ hc => rfl

theorem left_of_ofCall {a : Action S K W E} (ha : Action.ofCall a = true)
    (h : next block poll st a = some st') : st'.consumer.left + 1 ≤ st.consumer.left := by
  have hstep := consumerStep h
  generalize st.consumer = c at hstep ⊢
  generalize st'.consumer = c' at hstep ⊢
  cases hstep with
  | other _ ho =>
    rcases ho with ⟨k, s, rfl⟩ | ⟨k, rfl⟩ | rfl | ⟨w, rfl⟩ <;> cases ha
  | start last task' n hs =>
    subst hs
    cases ha
  | stale | take | empty | item | ended | pending | resume | exit | finish =>
    simp only [Consumer.left]
    omega

theorem countP_ofCall {as : List (Action S K W E)}
    (ha : ∀ a ∈ as, Action.ofCall a || Action.ofOthers a)
    (h : (system block poll).run st as = some st') :
    as.countP Action.ofCall + st'.consumer.left ≤ st.consumer.left := by
  induction as generalizing st with
  | nil =>
    obtain rfl : st = st' := by simpa using h
    simp
  | cons a as ih =>
    rw [Lib.System.run_cons, Option.bind_eq_some_iff] at h
    obtain ⟨st₁, h₁, h₂⟩ := h
    have hle := ih (fun a' ha' => ha a' (List.mem_cons_of_mem _ ha')) h₂
    rw [List.countP_cons]
    cases hc : Action.ofCall a with
    | true =>
      have hlt := left_of_ofCall hc h₁
      simp only [if_true]
      omega
    | false =>
      have hoth : Action.ofOthers a = true := by
        simpa [hc] using ha a List.mem_cons_self
      rw [consumer_of_others hoth h₁] at hle
      simpa using hle

omit [Target] in
theorem exists_greatest {q : QueueInner S K W} (h : q.readyQueue ≠ []) : ∃ e, q.Greatest e := by
  have hne : q.readyQueue.toFinset.Nonempty := by
    rw [List.toFinset_nonempty_iff]
    exact h
  obtain ⟨e, he, hle⟩ := Finset.exists_min_image _ ReadyEvent.priority hne
  exact ⟨e, List.mem_toFinset.mp he, fun e' he' => hle e' (List.mem_toFinset.mpr he')⟩

theorem progress (hidle : ∀ last, st.consumer ≠ .idle last) (env : E) :
    ∃ a : Action S K W E, Action.ofCall a = true ∧ (next block poll st a).isSome := by
  cases hcons : st.consumer with
  | idle last => exact absurd hcons (hidle last)
  | looping task' n =>
    cases n with
    | zero => exact ⟨.exit, rfl, by simp [next, hcons]⟩
    | succ n =>
      by_cases hq : st.inner.readyQueue = []
      · exact ⟨.popNone, rfl, by simp [next, hcons, hq]⟩
      · obtain ⟨e, hg⟩ := exists_greatest hq
        refine ⟨.pop e, rfl, ?_⟩
        simp only [next, hcons, hg, if_true]
        split <;> rfl
  | polling task' n k held w =>
    refine ⟨.polled env, rfl, ?_⟩
    simp only [next, hcons]
    split <;> rfl
  | ended task' n k => exact ⟨.resume, rfl, by simp [next, hcons]⟩
  | returning task' sw r => exact ⟨.finish, rfl, by simp [next, hcons]⟩

/-- A call of `poll_next` gives the streams whose events were queued when it started at most
one turn each, in that order, and returns without an item only after the last of them.
What was pushed meanwhile is left in the queue, and the task is woken for it.  The call makes
a bounded number of steps, and until it has returned there is a step that it can make. -/
theorem poll_next_bounded_complete (hr : (unwrappedSystem block poll).Reachable st)
    (hn : (st.inner.readyQueue.map ReadyEvent.key).Nodup) {as : List (Action S K W E)}
    (ha : ∀ a ∈ as, Action.ofCall a || Action.ofOthers a)
    (h : (unwrappedSystem block poll).run st (.pollNext task :: as) = some st') :
    let call := (unwrappedSystem block poll).steps st (.pollNext task :: as)
    let turns := call.filterMap fun s => turn s.1 s.2
    let pushes := call.filterMap fun s => pushed poll s.1 s.2
    (turns.map Turn.key).Nodup ∧
      turns.map Turn.key <+: st.inner.readyQueue.map ReadyEvent.key ∧
      (∀ last, st'.consumer = .idle last → ∃ r, last = some (task, r) ∧
        st'.inner.readyQueue = st.inner.readyQueue.drop turns.length ++ pushes ∧
        ((∀ x, r ≠ .ready (some x)) →
          turns.map Turn.key = st.inner.readyQueue.map ReadyEvent.key) ∧
        (r = .pending → st'.inner.readyQueue ≠ [] → task ∈ st'.woken)) ∧
      as.countP Action.ofCall ≤ 3 * st.inner.readyQueue.length + 2 ∧
      ((∀ last, st'.consumer ≠ .idle last) → E →
        ∃ a : Action S K W E, Action.ofCall a = true ∧ (next block poll st' a).isSome) := by
  have hinv : Inv st' := by
    have hreach : (system block poll).Reachable st := hr.imp fun _ => Lib.System.run_of_guarded
    exact (system block poll).invariant_run (fun _ _ _ hi hn => inv_next block poll hi hn)
      (Reachable.inv block poll hreach) (Lib.System.run_of_guarded h)
  rw [Lib.System.run_cons, Option.bind_eq_some_iff] at h
  obtain ⟨st₁, h₁, h₂⟩ := h
  obtain ⟨hw, hnext⟩ := Lib.System.next_of_guarded h₁
  have hnext : next block poll st (.pollNext task) = some st₁ := hnext
  have hord : st₁.inner.Ordered := ordered_next hw (Reachable.ordered hr) hnext
  obtain ⟨-, hcall⟩ := Call.run hord (Call.start hnext) ha h₂
  have hstart : ∀ {β : Type} {f : State S K W T × Action S K W E → Option β},
      f (st, .pollNext task) = none →
      ((unwrappedSystem block poll).steps st (.pollNext task :: as)).filterMap f =
        ((unwrappedSystem block poll).steps st₁ as).filterMap f := by
    intro β f hf
    rw [Lib.System.steps_cons _ h₁, List.filterMap_cons_none hf]
  intro call turns pushes
  have hturns : turns = _ := hstart (f := fun s => turn s.1 s.2) rfl
  have hpushes : pushes = _ := hstart (f := fun s => pushed poll s.1 s.2) rfl
  rw [List.nil_append, List.nil_append, ← hturns, ← hpushes] at hcall
  refine ⟨hn.sublist hcall.isPrefix.sublist, hcall.isPrefix, ?_, ?_, ?_⟩
  · intro last hlast
    obtain ⟨r, rfl, hrq, hall⟩ := hcall.returned hlast
    refine ⟨r, rfl, hrq, hall, ?_⟩
    rintro rfl hne
    by_contra hw
    exact hne ((hinv.idle task hlast hw).2 trivial)
  · have hle := countP_ofCall ha (Lib.System.run_of_guarded h₂)
    rw [left_start hnext] at hle
    omega
  · exact progress

omit [Target] in
theorem poll_next_bounded_complete_self_wake :
    letI := Target.x64
    ∃ st st', (unwrappedSystem true silent).run .init [.insert 1 (), .insert 2 ()] =
        some (st : State Unit Nat Unit Unit) ∧
      (unwrappedSystem true silent).run st [.pollNext (), .pop ⟨0, 1⟩, .wake 0, .polled (),
        .pop ⟨1, 2⟩, .polled (), .exit, .finish] = some st' ∧
      st'.inner.readyQueue = [⟨2, 1⟩] ∧ () ∈ st'.woken := by
  let _ := Target.x64
  have hrun : ∃ st st', (unwrappedSystem true silent).run .init [.insert 1 (), .insert 2 ()] =
        some (st : State Unit Nat Unit Unit) ∧
      (unwrappedSystem true silent).run st [.pollNext (), .pop ⟨0, 1⟩, .wake 0, .polled (),
        .pop ⟨1, 2⟩, .polled (), .exit, .finish] = some st' ∧
      (st.inner.readyQueue.map ReadyEvent.key).Nodup ∧
      st'.consumer = .idle (some ((), .pending)) ∧ st'.inner.readyQueue = [⟨2, 1⟩] :=
    ⟨_, _, rfl, rfl, by decide, rfl, rfl⟩
  obtain ⟨st, st', h₁, h₂, hn, hidle, hq⟩ := hrun
  refine ⟨st, st', h₁, h₂, hq, ?_⟩
  obtain ⟨-, -, hret, -, -⟩ := poll_next_bounded_complete ⟨_, h₁⟩ hn (by decide) h₂
  obtain ⟨r, hr, -, -, hwoken⟩ := hret _ hidle
  obtain rfl : Poll.pending = r := by simpa using hr
  exact hwoken rfl (by simp [hq])

end FairQueue

end ZmqRs
