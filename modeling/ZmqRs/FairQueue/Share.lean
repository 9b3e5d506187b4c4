import ZmqRs.FairQueue.Call
import ZmqRs.FairQueue.Final

/-! Fair shares.  Between two turns of a stream that always has an item no other stream has
more than one, whatever the other streams do and whichever of them come and go. -/

namespace ZmqRs.FairQueue

open Codec (Poll)

variable {S K W T E : Type} [DecidableEq K]

section Defs

variable [Target] (block : Bool) (poll : S → E → Poll (Option T) × S)

/-- The runs in which the counter does not wrap and no key is pushed of which `remove` has
left an event in the ready queue. -/
def freshSystem : Lib.System (State S K W T) (Action S K W E) :=
  (unwrappedSystem block poll).guarded fun st a => pushesFresh poll st a = true

omit [Target] in
def given (st : State S K W T) : Action S K W E → Option (K × T)
  | .polled env =>
    match st.consumer with
    | .polling _ _ k held _ =>
      match (poll held.stream env).1 with
      | .ready (some t) => some (k, t)
      | _ => none
    | _ => none
  | _ => none

omit [Target] in
/-- The stream of `k` is not removed, and it has an item whenever it is polled. -/
def backlogged (k : K) (st : State S K W T) : Action S K W E → Bool
  | .clear => false
  | .remove k' => k' ≠ k
  | .polled env =>
    match st.consumer with
    | .polling _ _ k' _ _ => k' ≠ k || (given poll st (.polled env)).isSome
    | _ => true
  | _ => true

def backloggedSystem (k : K) : Lib.System (State S K W T) (Action S K W E) :=
  (freshSystem block poll).guarded fun st a => backlogged poll k st a = true

end Defs

inductive Ahead (j k : K) (st : State S K W T) : Nat → Prop
  | queued (before : List (ReadyEvent K)) (e : ReadyEvent K) (after : List (ReadyEvent K))
    (hq : st.inner.readyQueue = before ++ e :: after) (hk : e.key = k)
    (hs : (st.stored k).isSome) (hh : st.hand k = none) :
    Ahead j k st ((before.map ReadyEvent.key).count j + (st.hand j).toList.length)
  | inHand (held : Held S) (hh : st.hand k = some held) : Ahead j k st 0

variable [Target] {block : Bool} {poll : S → E → Poll (Option T) × S} {st st' : State S K W T}
  {j k : K} {n : Nat}

omit [Target] in
theorem hand_of_polling {task : W} {m w : Nat} {key : K} {held : Held S}
    (hc : st.consumer = .polling task m key held w) (i : K) :
    st.hand i = if key = i then some held else none := by
  rw [State.hand, hc]

omit [Target] in
theorem Ahead.keep (h : Ahead j k st n) {es : List (ReadyEvent K)}
    (hq : st'.inner.readyQueue = st.inner.readyQueue ++ es)
    (hs : (st.stored k).isSome → (st'.stored k).isSome) (hh : ∀ i, st'.hand i = st.hand i) :
    Ahead j k st' n := by
  cases h with
  | queued before e after hq' hk hs' hh' =>
    rw [← hh j]
    refine .queued before e (after ++ es) ?_ hk (hs hs') ((hh k).trans hh')
    rw [hq, hq', List.append_assoc, List.cons_append]
  | inHand held hh' => exact .inHand held ((hh k).trans hh')

omit [Target] in
theorem ahead_of_unique (hu : st.inner.Unique) (hk : k ∈ st.inner.readyKeys)
    (hs : (st.stored k).isSome) (hh : ∀ i, st.hand i = none) :
    ∃ n, Ahead j k st n ∧ n + [k].count j ≤ 1 := by
  obtain ⟨e, he, hkey⟩ := List.mem_map.mp hk
  obtain ⟨before, after, hq⟩ := List.append_of_mem he
  refine ⟨_, .queued before e after hq hkey hs (hh k), ?_⟩
  have hle := List.nodup_iff_count_le_one.mp hu.nodup j
  rw [QueueInner.readyKeys, hq, List.map_append, List.map_cons, hkey, List.count_append,
    ← List.singleton_append, List.count_append] at hle
  rw [hh j, Option.toList_none, List.length_nil, Nat.add_zero]
  omega

theorem Ahead.pop (h : Ahead j k st n) (ho : st.inner.Ordered) (hu : st.inner.Unique)
    {e : ReadyEvent K} (hn : next block poll st (.pop e : Action S K W E) = some st') :
    ∃ n', Ahead j k st' n' ∧
      ((turn st (.pop e : Action S K W E)).toList.map Turn.key).count j + n' ≤ n := by
  have hhand : ∀ i, st.hand i = none := by
    intro i
    cases stepped hn with
    | skip hc | take hc => rw [State.hand, hc]
  cases h with
  | inHand held hh => cases (hhand k).symm.trans hh
  | queued before e₀ after hq hk hs hh =>
    rw [hhand j]
    cases before with
    | nil =>
      cases stepped hn with
      | skip hc hg hl =>
        obtain rfl := ho.eq_head hq hg
        rw [State.stored, ← hk, hl] at hs
        cases hs
      | @take _ task m held hc hg hl =>
        obtain rfl := ho.eq_head hq hg
        refine ⟨0, .inHand held ?_, ?_⟩
        · exact if_pos hk
        · simp [turn, hl]
    | cons b before =>
      have hne : b.key ≠ k := by
        have hnd := hu.nodup
        rw [QueueInner.readyKeys, hq, List.cons_append, List.map_cons, List.nodup_cons] at hnd
        rintro rfl
        exact hnd.1 (List.mem_map.mpr ⟨e₀, by simp, hk⟩)
      have herase : st.inner.readyQueue.erase b = before ++ e₀ :: after := by
        rw [hq, List.cons_append, List.erase_cons_head]
      have hstored : ((st.inner.streams.erase b.key).lookup k).isSome := by
        rw [AList.lookup_erase_ne hne.symm]
        exact hs
      rw [List.map_cons, List.count_cons]
      cases stepped hn with
      | @skip e _ _ hc hg hl =>
        obtain rfl := ho.eq_head hq hg
        refine ⟨_, .queued before e₀ after herase hk hstored rfl, ?_⟩
        by_cases hj : e.key = j <;> simp [turn, hl, Turn.key, State.hand, hj, Nat.add_comm]
      | @take e _ _ _ hc hg hl =>
        obtain rfl := ho.eq_head hq hg
        refine ⟨_, .queued before e₀ after herase hk hstored (if_neg hne), ?_⟩
        by_cases hj : e.key = j <;> simp [turn, hl, State.hand, hj]

omit [Target] in
theorem Ahead.other (h : Ahead j k st n) {task : W} {m w : Nat} {key : K} {held : Held S}
    (hc : st.consumer = .polling task m key held w) (hne : key ≠ k) {es : List (ReadyEvent K)}
    (hr : st'.inner.readyQueue = st.inner.readyQueue ++ es)
    (hs' : st'.stored k = st.stored k) (hc' : ∀ i, st'.hand i = none) :
    ∃ n', Ahead j k st' n' ∧ [key].count j + n' ≤ n := by
  cases h with
  | inHand held hh =>
    rw [hand_of_polling hc, if_neg hne] at hh
    cases hh
  | queued before e after hq hk hs hh =>
    refine ⟨_, .queued before e (after ++ es) ?_ hk (hs' ▸ hs) (hc' k), ?_⟩
    · rw [hr, hq, List.append_assoc, List.cons_append]
    · rw [hc' j, hand_of_polling hc]
      by_cases hj : key = j <;> simp [hj, Nat.add_comm]

theorem Ahead.polled (h : Ahead j k st n) {env : E}
    (hb : backlogged poll k st (.polled env) = true) (hu' : st'.inner.Unique)
    (hn : next block poll st (.polled env) = some st') :
    ∃ n', Ahead j k st' n' ∧
      ((turn st (.polled env : Action S K W E)).toList.map Turn.key).count j + n' ≤
        n + ((given poll st (.polled env : Action S K W E)).toList.map Prod.fst).count k := by
  cases stepped hn with
  | @item _ task m key held w t hc hp =>
    simp only [turn, given, hc, hp, Option.toList_some, List.map_cons, List.map_nil, Turn.key]
    by_cases hk : key = k
    · subst hk
      -- the new event of `k` stands behind at most one of `j`
      have hkeys : key ∈ QueueInner.readyKeys
          ((st.inner.putBack key ⟨(poll held.stream env).2, none⟩).pushReady key) := by
        refine hu'.queued key ?_
        rw [QueueInner.pushReady]
        split
        · assumption
        · exact Finset.mem_insert_self ..
      have hstored : (((st.inner.putBack key ⟨(poll held.stream env).2, none⟩).pushReady
          key).streams.lookup key).isSome := by
        rw [QueueInner.pushReady_streams, QueueInner.putBack, AList.lookup_insert]
        rfl
      obtain ⟨n', h', hle⟩ := ahead_of_unique (j := j) hu' hkeys hstored fun _ => rfl
      refine ⟨n', h', ?_⟩
      rw [List.count_singleton_self]
      omega
    · refine (h.other hc hk (QueueInner.pushReady_readyQueue _ _) ?_ fun _ => rfl).imp
        fun n' h' => ⟨h'.1, Nat.le_add_right_of_le h'.2⟩
      rw [State.stored, QueueInner.pushReady_streams, QueueInner.putBack,
        AList.lookup_insert_ne (Ne.symm hk), State.stored]
  | @ended _ task m key held w hc hp =>
    have hk : key ≠ k := by simpa [backlogged, given, hc, hp] using hb
    simp only [turn, given, hc, hp, Option.toList_some, List.map_cons, List.map_nil, Turn.key]
    exact h.other hc hk (List.append_nil _).symm rfl fun _ => rfl
  | @pending _ task m key held w hc hp =>
    have hk : key ≠ k := by simpa [backlogged, given, hc, hp] using hb
    simp only [turn, given, hc, hp, Option.toList_some, List.map_cons, List.map_nil, Turn.key]
    exact h.other hc hk (List.append_nil _).symm (AList.lookup_insert_ne hk.symm) fun _ => rfl

theorem Ahead.next {a : Action S K W E} (hb : backlogged poll k st a = true)
    (ho : st.inner.Ordered) (hu : st.inner.Unique) (hu' : st'.inner.Unique)
    (hn : FairQueue.next block poll st a = some st') (h : Ahead j k st n) :
    ∃ n', Ahead j k st' n' ∧
      ((turn st a).toList.map Turn.key).count j + n' ≤
        n + ((given poll st a).toList.map Prod.fst).count k := by
  cases hstep : stepped hn with
  | skip | take =>
    exact (h.pop ho hu hn).imp fun n' h' => ⟨h'.1, Nat.le_add_right_of_le h'.2⟩
  | item | ended | pending => exact h.polled hb hu' hn
  | clear hc => cases hb
  | insert k' s =>
    refine ⟨n, h.keep (QueueInner.pushReady_readyQueue _ _) (fun hs => ?_) fun _ => rfl, ?_⟩
    · rw [State.stored, QueueInner.insert, QueueInner.pushReady_streams]
      by_cases hk : k = k'
      · subst hk
        rw [AList.lookup_insert, Option.isSome_some]
      · rw [AList.lookup_insert_ne hk]
        exact hs
    · simp [turn, given]
  | remove k' =>
    have hk : k ≠ k' := fun hk => of_decide_eq_true hb hk.symm
    refine ⟨n, h.keep (List.append_nil _).symm (fun hs => ?_) fun _ => rfl, ?_⟩
    · rw [State.stored, QueueInner.remove, AList.lookup_erase_ne hk]
      exact hs
    · simp [turn, given]
  | wake hw =>
    refine ⟨n, h.keep (QueueInner.pushReady_readyQueue _ _) (fun hs => ?_) fun _ => rfl, ?_⟩
    · rw [State.stored, QueueInner.wake, QueueInner.pushReady_streams]
      exact hs
    · simp [turn, given]
  | pollNext _ hc | popNone hc | resume hc | exit hc | finish hc =>
    refine ⟨n, h.keep (List.append_nil _).symm (fun hs => hs) fun i => ?_, ?_⟩
    · simp [State.hand, hc]
    · simp [turn, given]

theorem yielded_given {a : Action S K W E} (hn : next block poll st a = some st') :
    st'.yielded = st.yielded ++ (given poll st a).toList := by
  cases stepped hn with
  | item hc hp => simp only [given, hc, hp, Option.toList_some]
  | ended hc hp | pending hc hp => simp [given, hc, hp]
  | insert | remove | clear | wake | pollNext | skip | take | popNone | resume | exit | finish =>
    exact (List.append_nil _).symm

omit [Target] in
theorem given_sublist (a : Action S K W E) :
    ((given poll st a).toList.map Prod.fst).Sublist ((turn st a).toList.map Turn.key) := by
  cases a with
  | polled env =>
    cases hc : st.consumer with
    | polling task m key held w =>
      simp only [given, turn, hc]
      split
      · exact .refl _
      · exact List.nil_sublist _
    | idle | looping | ended | returning =>
      simp only [given, hc]
      exact List.nil_sublist _
  | _ => exact List.nil_sublist _

theorem next_of_backlogged {a : Action S K W E}
    (h : (backloggedSystem block poll k).next st a = some st') :
    backlogged poll k st a = true ∧ pushesFresh poll st a = true ∧ unwrapped poll st a = true ∧
      next block poll st a = some st' := by
  obtain ⟨hb, h⟩ := Lib.System.next_of_guarded h
  obtain ⟨hf, h⟩ := Lib.System.next_of_guarded h
  obtain ⟨hw, h⟩ := Lib.System.next_of_guarded h
  exact ⟨hb, hf, hw, h⟩

theorem Reachable.fresh (h : (freshSystem block poll).Reachable st) :
    st.inner.Ordered ∧ st.inner.Unique := by
  refine h.invariant (P := fun st => st.inner.Ordered ∧ st.inner.Unique) ?_ ?_
  · exact ⟨⟨List.Pairwise.nil, fun e he => by cases he⟩, List.nodup_nil, fun k hk => by cases hk⟩
  · intro st a st' hi hn
    obtain ⟨hf, hn⟩ := Lib.System.next_of_guarded hn
    obtain ⟨hw, hn⟩ := Lib.System.next_of_guarded hn
    exact ⟨ordered_next hw hi.1 hn, unique_next hf hi.2 hn⟩

structure Shared (poll : S → E → Poll (Option T) × S) (j k : K) (ys : List (K × T))
    (l : List (State S K W T × Action S K W E)) (st : State S K W T) : Prop where
  ordered : st.inner.Ordered
  unique : st.inner.Unique
  yielded : st.yielded = ys ++ l.filterMap fun s => given poll s.1 s.2
  turns : ((l.filterMap fun s => given poll s.1 s.2).map Prod.fst).Sublist
    ((l.filterMap fun s => turn s.1 s.2).map Turn.key)
  ahead : ∃ n, Ahead j k st n ∧
    ((l.filterMap fun s => turn s.1 s.2).map Turn.key).count j + n ≤
      ((l.filterMap fun s => given poll s.1 s.2).map Prod.fst).count k + 1

theorem Shared.next {ys : List (K × T)} {l : List (State S K W T × Action S K W E)}
    {a : Action S K W E} (h : Shared poll j k ys l st)
    (hn : (backloggedSystem block poll k).next st a = some st') :
    Shared poll j k ys (l ++ [(st, a)]) st' := by
  obtain ⟨hb, hf, hw, hn⟩ := next_of_backlogged hn
  have hu := unique_next hf h.unique hn
  refine ⟨ordered_next hw h.ordered hn, hu, ?_, ?_, ?_⟩
  · rw [Lib.filterMap_append_singleton, yielded_given hn, h.yielded, List.append_assoc]
  · rw [Lib.filterMap_append_singleton, Lib.filterMap_append_singleton, List.map_append,
      List.map_append]
    exact h.turns.append (given_sublist a)
  · obtain ⟨n, ha, hle⟩ := h.ahead
    obtain ⟨n', ha', hle'⟩ := ha.next hb h.ordered h.unique hu hn
    refine ⟨n', ha', ?_⟩
    rw [Lib.filterMap_append_singleton, Lib.filterMap_append_singleton, List.map_append,
      List.map_append, List.count_append, List.count_append]
    dsimp only
    omega

/-- From a moment at which no call of `poll_next` runs, no stream has had more than one turn
more than a stream has yielded items that is ready all the time. -/
theorem fair_share (hr : (freshSystem block poll).Reachable st)
    {last : Option (W × Poll (Option (K × T)))} (hidle : st.consumer = .idle last)
    (hk : k ∈ st.inner.readyKeys) (hs : (st.stored k).isSome) {as : List (Action S K W E)}
    (h : (backloggedSystem block poll k).run st as = some st') (j : K) :
    let turns := ((backloggedSystem block poll k).steps st as).filterMap fun s => turn s.1 s.2
    ∃ items, st'.yielded = st.yielded ++ items ∧
      (items.map Prod.fst).Sublist (turns.map Turn.key) ∧
      (turns.map Turn.key).count j ≤ (items.map Prod.fst).count k + 1 := by
  obtain ⟨ho, hu⟩ := Reachable.fresh hr
  have hstart : Shared poll j k st.yielded [] st := by
    refine ⟨ho, hu, (List.append_nil _).symm, .refl _, ?_⟩
    obtain ⟨n, ha, hle⟩ := ahead_of_unique (j := j) hu hk hs fun i => by simp [State.hand, hidle]
    exact ⟨n, ha, by simpa using Nat.le_of_add_right_le hle⟩
  have hend := (backloggedSystem block poll k).run_steps
    (P := Shared poll j k st.yielded) (fun _ _ _ _ hP hn => hP.next hn) hstart h
  rw [List.nil_append] at hend
  obtain ⟨n, -, hle⟩ := hend.ahead
  exact ⟨_, hend.yielded, hend.turns, Nat.le_of_add_right_le hle⟩

def selfWake : List (Action Unit Nat Unit (Option Nat)) :=
  [.pollNext (), .pop ⟨0, 1⟩, .polled (some 5), .pollNext (), .pop ⟨1, 2⟩, .wake 1, .polled none,
    .pop ⟨2, 1⟩, .polled (some 6)]

omit [Target] [DecidableEq K] in
theorem fair_share_self_wake :
    letI := Target.x64
    ∃ st st' : State Unit Nat Unit Nat,
      (freshSystem true Numbered.echo).run .init [.insert 1 (), .insert 2 ()] = some st ∧
      (backloggedSystem true Numbered.echo 1).run st selfWake = some st' ∧
      st'.yielded = [(1, 5), (1, 6)] ∧
      ((((backloggedSystem true Numbered.echo 1).steps st selfWake).filterMap fun s =>
        turn s.1 s.2).map Turn.key).count 2 ≤ 3 := by
  let _ := Target.x64
  have hrun : ∃ st st' : State Unit Nat Unit Nat,
      (freshSystem true Numbered.echo).run .init [.insert 1 (), .insert 2 ()] = some st ∧
      (backloggedSystem true Numbered.echo 1).run st selfWake = some st' ∧
      st.consumer = .idle none ∧ 1 ∈ st.inner.readyKeys ∧ (st.stored 1).isSome ∧
      st.yielded = [] ∧ st'.yielded = [(1, 5), (1, 6)] :=
    ⟨_, _, rfl, rfl, rfl, by decide, rfl, rfl, rfl⟩
  obtain ⟨st, st', h₁, h₂, hidle, hk, hs, hy, hy'⟩ := hrun
  obtain ⟨items, hitems, -, hle⟩ := fair_share ⟨_, h₁⟩ hidle hk hs h₂ 2
  obtain rfl : items = [(1, 5), (1, 6)] := by simpa [hy, hy'] using hitems.symm
  exact ⟨st, st', h₁, h₂, hy', hle⟩

end ZmqRs.FairQueue
