import ZmqRs.Endpoint
import ZmqRs.Lib.Transition
import Mathlib.Data.Finmap

/-! The listeners of a socket.  Each has a task that accepts connections, and the handles
that stop the tasks are kept in a map from the endpoints that the listeners were resolved to. -/

namespace ZmqRs

open Lib

namespace PathBuf

inductive Component
  | rootDir
  | curDir
  | normal (name : PathBuf)
  deriving DecidableEq

/-- Paths are compared by their components: a separator may be repeated or stand at the
end, and `.` counts at the front of a relative path only. -/
def components (path : PathBuf) : List Component :=
  match path.splitOn (.char '/') with
  | [] => []
  | first :: rest =>
    let front :=
      if first = [.char '.'] then [.curDir]
      else if first ≠ [] then [.normal first]
      else if path ≠ [] then [.rootDir]
      else []
    front ++ (rest.filter fun name => name ≠ [] ∧ name ≠ [.char '.']).map .normal

end PathBuf

namespace Endpoint

inductive Key
  | tcp (host : Host) (port : UInt16)
  | ipc (path : Option (List PathBuf.Component))
  deriving DecidableEq

def key : Endpoint → Key
  | .tcp host port => .tcp host port
  | .ipc path => .ipc (path.map PathBuf.components)

end Endpoint

namespace Binds

inductive BindError
  | endpoint (error : EndpointError)
  | network (error : IoError)
  | noSuchBind (endpoint : Endpoint)
  | socket (message : String)

structure Os where
  /-- The address of a new TCP listener. -/
  bindTcp : Text → UInt16 → Except IoError SocketAddr
  /-- The path name of a new Unix listener. -/
  bindIpc : PathBuf → Except IoError (Option PathBuf)
  /-- How the preparation of an adopted listener ends. -/
  adopt : Except IoError Unit

/-- An adopted listener, by its local address.  An unnamed listener, or one with an abstract
name, has no path name. -/
inductive Listener
  | tcp (localAddr : SocketAddr)
  | ipc (pathname : Option PathBuf)

def ofIo {α : Type} : Except IoError α → Res BindError α
  | .ok a => .ok a
  | .error e => .error (.error (.network e))

namespace Tcp

def beginAccept (os : Os) (host : Host) (port : UInt16) : Res BindError Endpoint := do
  let resolvedAddr ← ofIo (os.bindTcp host.display port)
  if resolvedAddr.port = 0 then .error .panic
  else return .tcp host resolvedAddr.port

def beginAcceptListener (os : Os) (localAddr : SocketAddr) : Res BindError Endpoint := do
  ofIo os.adopt
  return .fromTcpAddr localAddr

end Tcp

namespace Ipc

def beginAccept (os : Os) (path : PathBuf) : Res BindError Endpoint :=
  -- support for wildcard paths is still to be implemented
  if path.components = PathBuf.components [.char '*'] then .error .panic
  else do
    let resolvedAddr ← ofIo (os.bindIpc path)
    return .ipc resolvedAddr

def beginAcceptListener (os : Os) (pathname : Option PathBuf) : Res BindError Endpoint := do
  ofIo os.adopt
  return .ipc pathname

end Ipc

def beginAccept (os : Os) : Endpoint → Res BindError Endpoint
  | .tcp host port => Tcp.beginAccept os host port
  | .ipc (some path) => Ipc.beginAccept os path
  | .ipc none => .error (.error (.socket "Cannot begin accepting peers at an unnamed ipc socket"))

def beginAcceptListener (os : Os) : Listener → Res BindError Endpoint
  | .tcp localAddr => Tcp.beginAcceptListener os localAddr
  | .ipc pathname => Ipc.beginAcceptListener os pathname

/-- An accept task is `stopping` once its stop channel has fired: because the stop was sent, or
because the handle that holds the sender was dropped. -/
inductive AcceptTask
  | accepting
  | stopping
  | ended
  deriving DecidableEq

/-- Tasks are numbered as they are spawned, and the stop handle of a task is its number.
`bound` has the listeners that were bound and not yet unbound, each with the endpoint that
its bind returned. -/
structure State where
  binds : Finmap fun _ : Endpoint.Key => Nat
  tasks : List AcceptTask
  bound : List (Nat × Endpoint)

def State.insert (s : State) (endpoint : Endpoint) : State where
  binds := s.binds.insert endpoint.key s.tasks.length
  tasks :=
    (match s.binds.lookup endpoint.key with
      | some old => s.tasks.set old .stopping
      | none => s.tasks) ++ [.accepting]
  bound := s.bound ++ [(s.tasks.length, endpoint)]

def State.shutdown (s : State) (endpoint : Endpoint) (task : Nat) : State where
  binds := s.binds.erase endpoint.key
  tasks := s.tasks.set task .ended
  bound := s.bound.filter fun x => x.2.key ≠ endpoint.key

inductive BindTarget
  | endpoint (endpoint : Endpoint)
  | listener (listener : Listener)

def bindInner (os : Os) (s : State) (target : BindTarget) : Res BindError (Endpoint × State) := do
  let endpoint ←
    match target with
    | .endpoint endpoint => beginAccept os endpoint
    | .listener listener => beginAcceptListener os listener
  return (endpoint, s.insert endpoint)

def bind (os : Os) (s : State) (endpoint : Text) : Res BindError (Endpoint × State) :=
  match Endpoint.fromStr endpoint with
  | .ok endpoint => bindInner os s (.endpoint endpoint)
  | .error (.error e) => .error (.error (.endpoint e))
  | .error .panic => .error .panic

def bindListener (os : Os) (s : State) (listener : Listener) :
    Res BindError (Endpoint × State) :=
  bindInner os s (.listener listener)

def unbind (s : State) (endpoint : Endpoint) : Res BindError State :=
  match s.binds.lookup endpoint.key with
  | some task => .ok (s.shutdown endpoint task)
  | none => .error (.error (.noSuchBind endpoint))

inductive Action
  | bind (endpoint : Text) (os : Os)
  | bindListener (listener : Listener) (os : Os)
  | unbind (endpoint : Endpoint)
  | exits (task : Nat)

def next (s : State) : Action → Option State
  -- A call that fails changes nothing, and is no step.
  | .bind endpoint os => (bind os s endpoint).toOption.map Prod.snd
  | .bindListener listener os => (bindListener os s listener).toOption.map Prod.snd
  | .unbind endpoint => (unbind s endpoint).toOption
  | .exits task =>
    if s.tasks[task]? = some .stopping then some { s with tasks := s.tasks.set task .ended }
    else none

def system : System State Action where
  init := { binds := ∅, tasks := [], bound := [] }
  next := next

/-- Every listener that was bound and not yet unbound has its handle in the map and its task
is accepting, and unbinding its endpoint stops its task and no other. -/
structure Holds (s : State) : Prop where
  handle : ∀ x ∈ s.bound, s.binds.lookup x.2.key = some x.1
  accepting : ∀ x ∈ s.bound, s.tasks[x.1]? = some .accepting
  unbind : ∀ x ∈ s.bound, ∃ s', unbind s x.2 = .ok s' ∧ s'.tasks = s.tasks.set x.1 .ended

def Action.key : Action → Option Endpoint.Key
  | .bind endpoint os =>
    match Endpoint.fromStr endpoint with
    | .ok (.tcp host port) =>
      (os.bindTcp host.display port).toOption.map fun addr => .tcp host addr.port
    | .ok (.ipc (some path)) =>
      (os.bindIpc path).toOption.map fun pathname => .ipc (pathname.map PathBuf.components)
    | _ => none
  | .bindListener (.tcp localAddr) _ => some (.tcp localAddr.ip localAddr.port)
  | .bindListener (.ipc pathname) _ => some (.ipc (pathname.map PathBuf.components))
  | .unbind _ => none
  | .exits _ => none

/-- The map has no handle for the listener that the call starts. -/
def Fresh (s : State) (a : Action) : Prop := ∀ k ∈ a.key, s.binds.lookup k = none

instance (s : State) (a : Action) : Decidable (Fresh s a) :=
  inferInstanceAs (Decidable (∀ k ∈ a.key, s.binds.lookup k = none))

theorem exists_of_bind_eq_ok {ε α β : Type} {x : Res ε α} {f : α → Res ε β} {b : β}
    (h : (x >>= f) = .ok b) : ∃ a, x = .ok a ∧ f a = .ok b := by
  cases x with
  | error e => cases h
  | ok a => exact ⟨a, rfl, h⟩

theorem eq_ok_of_toOption {ε α : Type} {x : Except ε α} {a : α} (h : x.toOption = some a) :
    x = .ok a := by
  cases x with
  | error e => cases h
  | ok b =>
    cases h
    rfl

theorem ofIo_eq_ok {α : Type} {x : Except IoError α} {a : α} (h : ofIo x = .ok a) :
    x.toOption = some a := by
  cases x with
  | error e => cases h
  | ok b =>
    cases h
    rfl

theorem bindInner_endpoint {os : Os} {s : State} {requested : Endpoint} {r : Endpoint × State}
    (h : bindInner os s (.endpoint requested) = .ok r) :
    beginAccept os requested = .ok r.1 ∧ r.2 = s.insert r.1 := by
  obtain ⟨endpoint, hbegin, hr⟩ := exists_of_bind_eq_ok h
  cases hr
  exact ⟨hbegin, rfl⟩

theorem bindInner_listener {os : Os} {s : State} {listener : Listener} {r : Endpoint × State}
    (h : bindInner os s (.listener listener) = .ok r) :
    beginAcceptListener os listener = .ok r.1 ∧ r.2 = s.insert r.1 := by
  obtain ⟨endpoint, hbegin, hr⟩ := exists_of_bind_eq_ok h
  cases hr
  exact ⟨hbegin, rfl⟩

theorem key_of_beginAccept {os : Os} {text : Text} {requested endpoint : Endpoint}
    (hparse : Endpoint.fromStr text = .ok requested)
    (h : beginAccept os requested = .ok endpoint) :
    (Action.bind text os).key = some endpoint.key := by
  rw [Action.key, hparse]
  cases requested with
  | tcp host port =>
    obtain ⟨addr, haddr, h⟩ := exists_of_bind_eq_ok h
    split at h
    · cases h
    · cases h
      change (os.bindTcp host.display port).toOption.map _ = _
      rw [ofIo_eq_ok haddr]
      rfl
  | ipc path =>
    cases path with
    | none => cases h
    | some path =>
      simp only [beginAccept, Ipc.beginAccept] at h
      split at h
      · cases h
      · obtain ⟨pathname, hpathname, h⟩ := exists_of_bind_eq_ok h
        cases h
        change (os.bindIpc path).toOption.map _ = _
        rw [ofIo_eq_ok hpathname]
        rfl

theorem key_of_beginAcceptListener {os : Os} {listener : Listener} {endpoint : Endpoint}
    (h : beginAcceptListener os listener = .ok endpoint) :
    (Action.bindListener listener os).key = some endpoint.key := by
  cases listener with
  | tcp localAddr =>
    obtain ⟨_, -, h⟩ := exists_of_bind_eq_ok h
    cases h
    rfl
  | ipc pathname =>
    obtain ⟨_, -, h⟩ := exists_of_bind_eq_ok h
    cases h
    rfl

theorem next_cases {s s' : State} {a : Action} (h : next s a = some s') :
    (∃ endpoint, a.key = some endpoint.key ∧ s' = s.insert endpoint) ∨
    (∃ endpoint task, a = .unbind endpoint ∧ s.binds.lookup endpoint.key = some task ∧
      s' = s.shutdown endpoint task) ∨
    ∃ task, a = .exits task ∧ s.tasks[task]? = some .stopping ∧
      s' = { s with tasks := s.tasks.set task .ended } := by
  cases a with
  | bind text os =>
    obtain ⟨r, hr, rfl⟩ := Option.map_eq_some_iff.mp h
    have hbind := eq_ok_of_toOption hr
    rw [bind] at hbind
    split at hbind
    · rename_i requested hparse
      obtain ⟨hbegin, hs⟩ := bindInner_endpoint hbind
      exact .inl ⟨r.1, key_of_beginAccept hparse hbegin, hs⟩
    · cases hbind
    · cases hbind
  | bindListener listener os =>
    obtain ⟨r, hr, rfl⟩ := Option.map_eq_some_iff.mp h
    obtain ⟨hbegin, hs⟩ := bindInner_listener (eq_ok_of_toOption hr)
    exact .inl ⟨r.1, key_of_beginAcceptListener hbegin, hs⟩
  | unbind endpoint =>
    have hunbind := eq_ok_of_toOption h
    rw [unbind] at hunbind
    split at hunbind
    · rename_i task htask
      cases hunbind
      exact .inr (.inl ⟨endpoint, task, rfl, htask, rfl⟩)
    · cases hunbind
  | exits task =>
    rw [next] at h
    split at h
    · rename_i hstop
      cases h
      exact .inr (.inr ⟨task, rfl, hstop, rfl⟩)
    · cases h

@[simp] theorem insert_binds (s : State) (endpoint : Endpoint) :
    (s.insert endpoint).binds = s.binds.insert endpoint.key s.tasks.length := rfl

@[simp] theorem insert_bound (s : State) (endpoint : Endpoint) :
    (s.insert endpoint).bound = s.bound ++ [(s.tasks.length, endpoint)] := rfl

@[simp] theorem length_insert_tasks (s : State) (endpoint : Endpoint) :
    (s.insert endpoint).tasks.length = s.tasks.length + 1 := by
  rw [State.insert]
  cases s.binds.lookup endpoint.key <;> simp

theorem insert_tasks_new (s : State) (endpoint : Endpoint) :
    (s.insert endpoint).tasks[s.tasks.length]? = some .accepting := by
  rw [State.insert]
  cases s.binds.lookup endpoint.key <;> simp

theorem insert_tasks_of_ne (s : State) (endpoint : Endpoint) {task : Nat}
    (hlt : task < s.tasks.length) (h : s.binds.lookup endpoint.key ≠ some task) :
    (s.insert endpoint).tasks[task]? = s.tasks[task]? := by
  rw [State.insert]
  cases hold : s.binds.lookup endpoint.key with
  | none => exact List.getElem?_append_left hlt
  | some old =>
    rw [hold] at h
    have hne : old ≠ task := fun heq => h (congrArg some heq)
    have hlt' : task < (s.tasks.set old .stopping).length := by rwa [List.length_set]
    exact (List.getElem?_append_left hlt').trans (List.getElem?_set_ne hne)

@[simp] theorem shutdown_binds (s : State) (endpoint : Endpoint) (task : Nat) :
    (s.shutdown endpoint task).binds = s.binds.erase endpoint.key := rfl

@[simp] theorem shutdown_tasks (s : State) (endpoint : Endpoint) (task : Nat) :
    (s.shutdown endpoint task).tasks = s.tasks.set task .ended := rfl

theorem mem_shutdown_bound {s : State} {endpoint : Endpoint} {task : Nat} {x : Nat × Endpoint} :
    x ∈ (s.shutdown endpoint task).bound ↔ x ∈ s.bound ∧ x.2.key ≠ endpoint.key := by
  simp [State.shutdown]

theorem lookup_erase_eq_some {m : Finmap fun _ : Endpoint.Key => Nat} {k k' : Endpoint.Key}
    {task : Nat} (h : (m.erase k').lookup k = some task) : k ≠ k' ∧ m.lookup k = some task := by
  by_cases hk : k = k'
  · rw [hk, Finmap.lookup_erase] at h
    cases h
  · rw [Finmap.lookup_erase_ne hk] at h
    exact ⟨hk, h⟩

structure Owned (s : State) : Prop where
  lt : ∀ x ∈ s.bound, x.1 < s.tasks.length
  once : ∀ x ∈ s.bound, ∀ y ∈ s.bound, x.1 = y.1 → x = y
  owner : ∀ k task, s.binds.lookup k = some task → ∃ x ∈ s.bound, x.1 = task ∧ x.2.key = k
  accepting : ∀ k task, s.binds.lookup k = some task → s.tasks[task]? = some .accepting

theorem Owned.key_inj {s : State} (h : Owned s) {k k' : Endpoint.Key} {task : Nat}
    (hk : s.binds.lookup k = some task) (hk' : s.binds.lookup k' = some task) : k = k' := by
  obtain ⟨x, hx, hxt, rfl⟩ := h.owner k task hk
  obtain ⟨y, hy, hyt, rfl⟩ := h.owner k' task hk'
  rw [h.once x hx y hy (hxt.trans hyt.symm)]

theorem owned_init : Owned system.init where
  lt := by
    intro x hx
    cases hx
  once := by
    intro x hx
    cases hx
  owner := by
    intro k task hk
    cases hk
  accepting := by
    intro k task hk
    cases hk

theorem Owned.insert {s : State} (h : Owned s) (endpoint : Endpoint) :
    Owned (s.insert endpoint) where
  lt := by
    intro x hx
    rw [length_insert_tasks]
    rw [insert_bound, List.mem_append, List.mem_singleton] at hx
    cases hx with
    | inl hx => exact Nat.lt_succ_of_lt (h.lt x hx)
    | inr hx =>
      rw [hx]
      exact Nat.lt_succ_self _
  once := by
    intro x hx y hy hxy
    rw [insert_bound, List.mem_append, List.mem_singleton] at hx hy
    cases hx with
    | inl hx =>
      cases hy with
      | inl hy => exact h.once x hx y hy hxy
      | inr hy =>
        rw [hy] at hxy
        exact absurd hxy (Nat.ne_of_lt (h.lt x hx))
    | inr hx =>
      cases hy with
      | inl hy =>
        rw [hx] at hxy
        exact absurd hxy.symm (Nat.ne_of_lt (h.lt y hy))
      | inr hy => rw [hx, hy]
  owner := by
    intro k task hk
    rw [insert_binds] at hk
    rw [insert_bound]
    by_cases hkey : k = endpoint.key
    · rw [hkey, Finmap.lookup_insert] at hk
      cases hk
      exact ⟨_, List.mem_concat_self, rfl, hkey.symm⟩
    · rw [Finmap.lookup_insert_of_ne _ hkey] at hk
      obtain ⟨x, hx, htask, hxkey⟩ := h.owner k task hk
      exact ⟨x, List.mem_append_left _ hx, htask, hxkey⟩
  accepting := by
    intro k task hk
    rw [insert_binds] at hk
    by_cases hkey : k = endpoint.key
    · rw [hkey, Finmap.lookup_insert] at hk
      cases hk
      exact insert_tasks_new s endpoint
    · rw [Finmap.lookup_insert_of_ne _ hkey] at hk
      obtain ⟨x, hx, htask, -⟩ := h.owner k task hk
      have hlt : task < s.tasks.length := htask ▸ h.lt x hx
      rw [insert_tasks_of_ne s endpoint hlt (fun hold => hkey (h.key_inj hk hold))]
      exact h.accepting k task hk

theorem Owned.shutdown {s : State} (h : Owned s) {endpoint : Endpoint} {task : Nat}
    (htask : s.binds.lookup endpoint.key = some task) : Owned (s.shutdown endpoint task) where
  lt := by
    intro x hx
    rw [shutdown_tasks, List.length_set]
    exact h.lt x (mem_shutdown_bound.mp hx).1
  once := by
    intro x hx y hy
    exact h.once x (mem_shutdown_bound.mp hx).1 y (mem_shutdown_bound.mp hy).1
  owner := by
    intro k other hk
    rw [shutdown_binds] at hk
    obtain ⟨hkey, hk⟩ := lookup_erase_eq_some hk
    obtain ⟨x, hx, hother, hxkey⟩ := h.owner k other hk
    exact ⟨x, mem_shutdown_bound.mpr ⟨hx, hxkey ▸ hkey⟩, hother, hxkey⟩
  accepting := by
    intro k other hk
    rw [shutdown_binds] at hk
    obtain ⟨hkey, hk⟩ := lookup_erase_eq_some hk
    have hne : task ≠ other := fun heq => hkey (h.key_inj hk (heq ▸ htask))
    rw [shutdown_tasks, List.getElem?_set_ne hne]
    exact h.accepting k other hk

theorem Owned.exits {s : State} (h : Owned s) {task : Nat}
    (hstop : s.tasks[task]? = some .stopping) :
    Owned { s with tasks := s.tasks.set task .ended } where
  lt := by
    intro x hx
    rw [List.length_set]
    exact h.lt x hx
  once := h.once
  owner := h.owner
  accepting := by
    intro k other hk
    have hother := h.accepting k other hk
    have hne : task ≠ other := by
      intro heq
      rw [heq, hother] at hstop
      cases hstop
    rw [List.getElem?_set_ne hne]
    exact hother

theorem Owned.next {s s' : State} {a : Action} (h : Owned s) (hn : next s a = some s') :
    Owned s' := by
  rcases next_cases hn with ⟨endpoint, -, rfl⟩ | ⟨endpoint, task, -, htask, rfl⟩ |
    ⟨task, -, hstop, rfl⟩
  · exact h.insert endpoint
  · exact h.shutdown htask
  · exact h.exits hstop

theorem Owned.holds_iff {s : State} (h : Owned s) :
    Holds s ↔ ∀ x ∈ s.bound, s.binds.lookup x.2.key = some x.1 := by
  refine ⟨Holds.handle, fun hhandle => ⟨hhandle, ?_, ?_⟩⟩
  · intro x hx
    exact h.accepting _ _ (hhandle x hx)
  · intro x hx
    refine ⟨s.shutdown x.2 x.1, ?_, shutdown_tasks s x.2 x.1⟩
    rw [unbind, hhandle x hx]

theorem Owned.handles_insert_iff {s : State} (h : Owned s) (hs : Holds s) (endpoint : Endpoint) :
    (∀ x ∈ (s.insert endpoint).bound, (s.insert endpoint).binds.lookup x.2.key = some x.1) ↔
      s.binds.lookup endpoint.key = none := by
  rw [insert_bound, insert_binds]
  constructor
  · intro hall
    cases hold : s.binds.lookup endpoint.key with
    | none => rfl
    | some old =>
      obtain ⟨x, hx, hxold, hxkey⟩ := h.owner _ _ hold
      have hlookup := hall x (List.mem_append_left _ hx)
      rw [hxkey, Finmap.lookup_insert, Option.some.injEq] at hlookup
      exact absurd hlookup.symm (Nat.ne_of_lt (h.lt x hx))
  · intro hnone x hx
    rw [List.mem_append, List.mem_singleton] at hx
    cases hx with
    | inl hx =>
      have hkey : x.2.key ≠ endpoint.key := by
        intro heq
        have hx' := hs.handle x hx
        rw [heq, hnone] at hx'
        cases hx'
      rw [Finmap.lookup_insert_of_ne _ hkey]
      exact hs.handle x hx
    | inr hx =>
      rw [hx]
      exact Finmap.lookup_insert _

theorem Owned.holds_next_iff {s s' : State} {a : Action} (h : Owned s) (hs : Holds s)
    (hn : Binds.next s a = some s') : Holds s' ↔ Fresh s a := by
  rw [(h.next hn).holds_iff]
  rcases next_cases hn with ⟨endpoint, hkey, rfl⟩ | ⟨endpoint, task, rfl, htask, rfl⟩ |
    ⟨task, rfl, hstop, rfl⟩
  · rw [h.handles_insert_iff hs endpoint, Fresh, hkey]
    simp
  · refine iff_of_true ?_ ?_
    · intro x hx
      obtain ⟨hx, hxkey⟩ := mem_shutdown_bound.mp hx
      rw [shutdown_binds, Finmap.lookup_erase_ne hxkey]
      exact hs.handle x hx
    · intro k hk
      cases hk
  · refine iff_of_true hs.handle ?_
    intro k hk
    cases hk

theorem holds_init : Holds system.init :=
  owned_init.holds_iff.mpr fun x hx => by cases hx

/-- Along a run every listener that was bound and not yet unbound keeps its handle and goes on
accepting, and unbinding what a bind returned stops its listener and no other, if and only if
every bind was of a listener whose key the map did not have. -/
theorem listeners_kept_iff {as : List Action} {s : State}
    (h : system.run system.init as = some s) :
    (∀ n t, system.run system.init (as.take n) = some t → Holds t) ↔
      (system.guarded Fresh).run system.init as = some s :=
  system.forall_take_iff_guarded (fun _ _ _ => Owned.next) (fun _ _ _ => Owned.holds_next_iff)
    owned_init holds_init h

def Os.grants (addr : SocketAddr) : Os where
  bindTcp _ _ := .ok addr
  bindIpc path := .ok (some path)
  adopt := .ok ()

def threeListeners : List Action :=
  [.bind ['t', 'c', 'p', ':', '/', '/', 'l', 'o', 'c', 'a', 'l', 'h', 'o', 's', 't', ':', '0']
      (.grants (.v4 ⟨127, 0, 0, 1⟩ 5000)),
    .bindListener (.tcp (.v4 ⟨127, 0, 0, 1⟩ 6000)) (.grants (.v4 ⟨127, 0, 0, 1⟩ 6000)),
    .bindListener (.ipc none) (.grants (.v4 ⟨127, 0, 0, 1⟩ 6000)),
    .unbind (.tcp (.domain ['l', 'o', 'c', 'a', 'l', 'h', 'o', 's', 't']) 5000)]

theorem listeners_kept_iff_three :
    (system.run system.init threeListeners).map State.tasks =
        some [.ended, .accepting, .accepting] ∧
      ∀ n t, system.run system.init (threeListeners.take n) = some t → Holds t := by
  have hsome : ((system.guarded Fresh).run system.init threeListeners).isSome := by decide +kernel
  obtain ⟨s, hs⟩ := Option.isSome_iff_exists.mp hsome
  exact ⟨by decide +kernel, (listeners_kept_iff (System.run_of_guarded hs)).mpr hs⟩

/-- Two listeners with abstract names are adopted: the second takes the place of the first,
whose task then ends. -/
theorem unnamed_listener_stopped :
    ∃ s, system.run system.init
        [.bindListener (.ipc none) (.grants (.v4 ⟨127, 0, 0, 1⟩ 5000)),
          .bindListener (.ipc none) (.grants (.v4 ⟨127, 0, 0, 1⟩ 5000)), .exits 0] = some s ∧
      s.bound = [(0, .ipc none), (1, .ipc none)] ∧ s.tasks = [.ended, .accepting] ∧
      ¬ Holds s := by
  refine ⟨_, rfl, rfl, rfl, ?_⟩
  intro hholds
  cases hholds.accepting (0, .ipc none) (by decide)

end Binds

end ZmqRs
