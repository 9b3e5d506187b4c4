import ZmqRs.Basic
import ZmqRs.Lib.IpAddr
import ZmqRs.Lib.Pattern

/-! Endpoints and their texts. -/

namespace ZmqRs

open Lib

inductive EndpointError
  | parseIpAddr
  | unknownTransport (name : Text)
  | invalidSyntax (message : String)
  deriving DecidableEq

inductive Transport
  | tcp
  | ipc
  deriving DecidableEq

def Transport.asStr : Transport → Text
  | .tcp => ['t', 'c', 'p']
  | .ipc => ['i', 'p', 'c']

def Transport.fromStr (s : Text) : Res EndpointError Transport :=
  if s = ['t', 'c', 'p'] then .ok .tcp
  else if s = ['i', 'p', 'c'] then .ok .ipc
  else .error (.error (.unknownTransport s))

inductive Host
  | ipv4 (addr : Ipv4Addr)
  | ipv6 (addr : Ipv6Addr)
  | domain (name : Text)
  deriving DecidableEq

namespace Host

def display : Host → Text
  | .ipv4 addr => addr.display
  | .ipv6 addr => addr.display
  | .domain name => name

/-- The part of the text that may be an IPv6 address: from `::1` or `[::1]`. -/
def ipv6Substr (s : Text) : Res EndpointError Text :=
  if s.head? = some '[' ∧ 4 ≤ Text.len s then
    match (Text.bytes s).getLast? with
    | none => .error .panic
    | some last =>
      if last = 0x5d then
        match Text.slice 1 (Text.len s - 1) s with
        | none => .error .panic
        | some substr =>
          if Text.len substr = Text.len s - 2 then .ok substr else .error .panic
      else .ok s
  else .ok s

def tryFrom (s : Text) : Res EndpointError Host :=
  if s.isEmpty then .error (.error (.invalidSyntax "Host string should not be empty"))
  else
    match Ipv4Addr.parse s with
    | some addr => .ok (.ipv4 addr)
    | none => do
      let substr ← ipv6Substr s
      match Ipv6Addr.parse substr with
      | some addr => return .ipv6 addr
      | none => return .domain s

end Host

inductive OsChar
  | char (c : Char)
  | invalid (bytes : Bytes)
  deriving DecidableEq

abbrev PathBuf := List OsChar

namespace PathBuf

def ofText (s : Text) : PathBuf := s.map .char

def display (path : PathBuf) : Text :=
  path.map fun
    | .char c => c
    | .invalid _ => '\uFFFD'

theorem display_ofText (s : Text) : display (ofText s) = s := by
  rw [display, ofText, List.map_map]
  exact List.map_id s

end PathBuf

inductive SocketAddr
  | v4 (ip : Ipv4Addr) (port : UInt16)
  | v6 (ip : Ipv6Addr) (port : UInt16) (flowinfo scopeId : UInt32)
  deriving DecidableEq

def SocketAddr.ip : SocketAddr → Host
  | .v4 ip _ => .ipv4 ip
  | .v6 ip _ _ _ => .ipv6 ip

def SocketAddr.port : SocketAddr → UInt16
  | .v4 _ port => port
  | .v6 _ port _ _ => port

inductive Endpoint
  | tcp (host : Host) (port : UInt16)
  | ipc (path : Option PathBuf)
  deriving DecidableEq

namespace Endpoint

def fromTcpAddr (addr : SocketAddr) : Endpoint := .tcp addr.ip addr.port

def anyChar (c : Char) : Bool := c != '\n'

/-- `^([[:lower:]]+)://(.+)$` -/
def transportRegex : List (Piece Char) :=
  [.plus Char.isLower, .lit ':', .lit '/', .lit '/', .plus anyChar]

/-- `^(.+):([0-9]+)$` -/
def hostPortRegex : List (Piece Char) := [.plus anyChar, .lit ':', .plus Char.isDigit]

def okOr {α : Type} (value : Option α) (e : EndpointError) : Res EndpointError α :=
  match value with
  | some a => .ok a
  | none => .error (.error e)

def getGroup (caps : List Text) (i : Nat) : Res EndpointError Text :=
  match caps[i]? with
  | some group => .ok group
  | none => .error .panic

def parsePort (s : Text) : Option UInt16 := (Numeral.parseUint 65536 s).map UInt16.ofNat

def extractHostPort (address : Text) : Res EndpointError (Host × UInt16) := do
  let caps ← okOr (Pattern.captures hostPortRegex address)
    (.invalidSyntax "Could not parse host and port")
  let host ← getGroup caps 0
  let port ← getGroup caps 1
  let port ← okOr (parsePort port) (.invalidSyntax "Port must be a u16 but was out of range")
  let host ← Host.tryFrom host
  return (host, port)

def fromStr (s : Text) : Res EndpointError Endpoint := do
  let caps ← okOr (Pattern.captures transportRegex s) (.invalidSyntax "Could not parse transport")
  let transport ← getGroup caps 0
  let transport ← Transport.fromStr transport
  let address ← getGroup caps 1
  match transport with
  | .tcp =>
    let (host, port) ← extractHostPort address
    return .tcp host port
  | .ipc => return .ipc (some (PathBuf.ofText address))

def displayPort (port : UInt16) : Text := Nat.toDigits 10 port.toNat

def display : Endpoint → Text
  | .tcp (.ipv6 addr) port =>
    ['t', 'c', 'p', ':', '/', '/', '['] ++ Host.display (.ipv6 addr) ++ [']', ':'] ++
      displayPort port
  | .tcp host port =>
    ['t', 'c', 'p', ':', '/', '/'] ++ host.display ++ [':'] ++ displayPort port
  | .ipc (some path) => ['i', 'p', 'c', ':', '/', '/'] ++ PathBuf.display path
  | .ipc none => ['i', 'p', 'c', ':', '/', '/', '?', '?', '?', '?']

end Endpoint

namespace Host

theorem ipv6Substr_bracketed {m : Text} (h : 2 ≤ Text.len m) :
    ipv6Substr ('[' :: m ++ [']']) = .ok m := by
  have hlen : Text.len ('[' :: m ++ [']']) = Text.len m + 2 := by
    rw [List.cons_append, Text.len_cons, Text.len_append]
    change 1 + (Text.len m + 1) = _
    omega
  have hlast : (Text.bytes ('[' :: m ++ [']'])).getLast? = some 0x5d := by
    rw [Text.bytes, List.flatMap_append]
    exact List.getLast?_concat
  have hslice : Text.slice 1 (Text.len m + 1) ('[' :: m ++ [']']) = some m := by
    rw [Nat.add_comm]
    exact Text.slice_append ['['] m [']']
  rw [ipv6Substr, if_pos ⟨rfl, by omega⟩, hlast, hlen]
  simp only [if_true, Nat.add_sub_cancel, show Text.len m + 2 - 1 = Text.len m + 1 from rfl, hslice]

theorem ipv6Substr_cases (s : Text) :
    ipv6Substr s = .ok s ∨ ∃ m, s = '[' :: m ++ [']'] ∧ ipv6Substr s = .ok m := by
  by_cases hcond : s.head? = some '[' ∧ 4 ≤ Text.len s
  · obtain ⟨t, rfl⟩ := List.head?_eq_some_iff.mp hcond.1
    have hlen := hcond.2
    rw [Text.len_cons] at hlen
    change 4 ≤ 1 + Text.len t at hlen
    cases List.eq_nil_or_concat' t with
    | inl h =>
      rw [h, Text.len_nil] at hlen
      omega
    | inr h =>
      obtain ⟨m, c, rfl⟩ := h
      by_cases hlast : (Text.bytes ('[' :: (m ++ [c]))).getLast? = some 0x5d
      · have hc : c = ']' := Text.eq_of_getLast?_bytes (s := '[' :: m) (by decide) hlast
        subst hc
        rw [Text.len_append] at hlen
        change 4 ≤ 1 + (Text.len m + 1) at hlen
        exact .inr ⟨m, rfl, ipv6Substr_bracketed (by omega)⟩
      · rw [ipv6Substr, if_pos hcond]
        cases hbytes : (Text.bytes ('[' :: (m ++ [c]))).getLast? with
        | none => cases List.getLast?_eq_none_iff.mp hbytes
        | some last =>
          rw [hbytes, Option.some.injEq] at hlast
          exact .inl (if_neg hlast)
  · exact .inl (if_neg hcond)

theorem exists_ipv6Substr (s : Text) : ∃ substr, ipv6Substr s = .ok substr := by
  cases ipv6Substr_cases s with
  | inl h => exact ⟨s, h⟩
  | inr h =>
    obtain ⟨m, -, hm⟩ := h
    exact ⟨m, hm⟩

theorem tryFrom_of_ipv4 {s : Text} {addr : Ipv4Addr} (hs : s ≠ [])
    (h : Ipv4Addr.parse s = some addr) : tryFrom s = .ok (.ipv4 addr) := by
  rw [tryFrom, if_neg (by simpa using hs), h]

theorem tryFrom_of_not_ipv4 {s substr : Text} (hs : s ≠ []) (h : Ipv4Addr.parse s = none)
    (hsubstr : ipv6Substr s = .ok substr) :
    tryFrom s = .ok (((Ipv6Addr.parse substr).map .ipv6).getD (.domain s)) := by
  rw [tryFrom, if_neg (by simpa using hs), h, hsubstr]
  cases hparse : Ipv6Addr.parse substr with
  | none => simp [hparse, bind, Except.bind, pure, Except.pure]
  | some addr => simp [hparse, bind, Except.bind, pure, Except.pure]

theorem exists_tryFrom {s : Text} (hs : s ≠ []) : ∃ host, tryFrom s = .ok host := by
  cases h : Ipv4Addr.parse s with
  | some addr => exact ⟨_, tryFrom_of_ipv4 hs h⟩
  | none =>
    obtain ⟨substr, hsubstr⟩ := exists_ipv6Substr s
    exact ⟨_, tryFrom_of_not_ipv4 hs h hsubstr⟩

theorem ne_nil_of_tryFrom {s : Text} {host : Host} (h : tryFrom s = .ok host) : s ≠ [] := by
  intro hs
  rw [hs] at h
  cases h

theorem tryFrom_ne_panic (s : Text) : tryFrom s ≠ .error .panic := by
  intro h
  by_cases hs : s = []
  · rw [hs] at h
    cases h
  · obtain ⟨host, hhost⟩ := exists_tryFrom hs
    rw [hhost] at h
    cases h

theorem eq_of_tryFrom_domain {s name : Text} (h : tryFrom s = .ok (.domain name)) : name = s := by
  have hs := ne_nil_of_tryFrom h
  cases hv4 : Ipv4Addr.parse s with
  | some addr =>
    rw [tryFrom_of_ipv4 hs hv4] at h
    cases h
  | none =>
    obtain ⟨substr, hsubstr⟩ := exists_ipv6Substr s
    rw [tryFrom_of_not_ipv4 hs hv4 hsubstr] at h
    cases hv6 : Ipv6Addr.parse substr with
    | some addr =>
      rw [hv6] at h
      cases h
    | none =>
      rw [hv6] at h
      cases h
      rfl

def text : Host → Text
  | .ipv6 addr => '[' :: addr.display ++ [']']
  | host => host.display

structure Printable (host : Host) : Prop where
  ne_nil : host.text ≠ []
  newline_notMem : '\n' ∉ host.text
  reads : tryFrom host.text = .ok host

theorem printable_ipv4 (addr : Ipv4Addr) : Printable (.ipv4 addr) where
  ne_nil := addr.display_ne_nil
  newline_notMem := addr.newline_notMem_display
  reads := tryFrom_of_ipv4 addr.display_ne_nil addr.parse_display

theorem parse_bracket (s : Text) : Ipv4Addr.parse ('[' :: s) = none := by
  rw [Ipv4Addr.parse, IpAddr.parseWith, IpAddr.readIpv4Addr_eq_none
    (Numeral.stops_cons s (by decide)), ite_self]

theorem printable_ipv6 (addr : Ipv6Addr) : Printable (.ipv6 addr) where
  ne_nil := List.cons_ne_nil _ _
  newline_notMem := by
    change '\n' ∉ '[' :: addr.display ++ [']']
    simpa using addr.newline_notMem_display
  reads := by
    have hlen := Nat.le_trans addr.two_le_length_display (Text.length_le_len addr.display)
    have htry := tryFrom_of_not_ipv4 (List.cons_ne_nil _ _) (parse_bracket _)
      (ipv6Substr_bracketed hlen)
    rw [addr.parse_display] at htry
    exact htry

theorem printable_of_tryFrom {s : Text} {host : Host} (hs : '\n' ∉ s)
    (h : tryFrom s = .ok host) : host.Printable := by
  cases host with
  | ipv4 addr => exact printable_ipv4 addr
  | ipv6 addr => exact printable_ipv6 addr
  | domain name =>
    have hname := eq_of_tryFrom_domain h
    subst hname
    exact ⟨ne_nil_of_tryFrom h, hs, h⟩

end Host

namespace Endpoint

open Pattern

theorem anyChar_of_notMem {s : Text} (h : '\n' ∉ s) : ∀ c ∈ s, anyChar c = true := by
  intro c hc
  simp only [anyChar, bne_iff_ne]
  intro heq
  exact h (heq ▸ hc)

theorem matches_transportRegex {gs : List Text} {s : Text} :
    Matches transportRegex gs s ↔ ∃ name address : Text, gs = [name, address] ∧
      s = name ++ ':' :: '/' :: '/' :: address ∧ name ≠ [] ∧ (∀ c ∈ name, c.isLower = true) ∧
      address ≠ [] ∧ '\n' ∉ address := by
  constructor
  · intro h
    cases h with
    | plus hname hlower h =>
      cases h with
      | lit h =>
        cases h with
        | lit h =>
          cases h with
          | lit h =>
            cases h with
            | plus haddress hany h =>
              cases h
              exact ⟨_, _, rfl, by rw [List.append_nil], hname, hlower, haddress,
                Text.notMem_of_forall hany rfl⟩
  · rintro ⟨name, address, rfl, rfl, hname, hlower, haddress, hnewline⟩
    have hend := Matches.plus haddress (anyChar_of_notMem hnewline) .nil
    rw [List.append_nil] at hend
    exact .plus hname hlower (.lit (.lit (.lit hend)))

theorem matches_hostPortRegex {gs : List Text} {s : Text} :
    Matches hostPortRegex gs s ↔ ∃ host port : Text, gs = [host, port] ∧
      s = host ++ ':' :: port ∧ host ≠ [] ∧ '\n' ∉ host ∧
      port ≠ [] ∧ ∀ c ∈ port, c.isDigit = true := by
  constructor
  · intro h
    cases h with
    | plus hhost hany h =>
      cases h with
      | lit h =>
        cases h with
        | plus hport hdigit h =>
          cases h
          exact ⟨_, _, rfl, by rw [List.append_nil], hhost, Text.notMem_of_forall hany rfl, hport,
            hdigit⟩
  · rintro ⟨host, port, rfl, rfl, hhost, hnewline, hport, hdigit⟩
    have hend := Matches.plus hport hdigit .nil
    rw [List.append_nil] at hend
    exact .plus hhost (anyChar_of_notMem hnewline) (.lit hend)

theorem captures_transportRegex {name address : Text} (hname : name ≠ [])
    (hlower : ∀ c ∈ name, c.isLower = true) (haddress : address ≠ []) (hnewline : '\n' ∉ address) :
    captures transportRegex (name ++ ':' :: '/' :: '/' :: address) = some [name, address] := by
  apply captures_eq_some
  · exact matches_transportRegex.mpr ⟨_, _, rfl, rfl, hname, hlower, haddress, hnewline⟩
  · intro gs hgs
    obtain ⟨name', address', rfl, heq, -, hlower', -⟩ := matches_transportRegex.mp hgs
    obtain ⟨rfl, hrest⟩ := append_cons_inj_first (Text.notMem_of_forall hlower rfl)
      (Text.notMem_of_forall hlower' rfl) heq
    cases hrest
    rfl

theorem captures_hostPortRegex {host port : Text} (hhost : host ≠ []) (hnewline : '\n' ∉ host)
    (hport : port ≠ []) (hdigit : ∀ c ∈ port, c.isDigit = true) :
    captures hostPortRegex (host ++ ':' :: port) = some [host, port] := by
  apply captures_eq_some
  · exact matches_hostPortRegex.mpr ⟨_, _, rfl, rfl, hhost, hnewline, hport, hdigit⟩
  · intro gs hgs
    obtain ⟨host', port', rfl, heq, -, -, -, hdigit'⟩ := matches_hostPortRegex.mp hgs
    obtain ⟨rfl, rfl⟩ := append_cons_inj_last (Text.notMem_of_forall hdigit rfl)
      (Text.notMem_of_forall hdigit' rfl) heq
    rfl

theorem parsePort_displayPort (port : UInt16) : parsePort (displayPort port) = some port := by
  rw [parsePort, displayPort, Numeral.parseUint_toDigits port.toNat_lt, Option.map_some,
    UInt16.ofNat_toNat]

theorem displayPort_ne_nil (port : UInt16) : displayPort port ≠ [] := Nat.toDigits_ne_nil

theorem isDigit_displayPort (port : UInt16) : ∀ c ∈ displayPort port, c.isDigit = true := by
  intro c hc
  exact Nat.isDigit_of_mem_toDigits (by decide) (by decide) hc

theorem newline_notMem_displayPort (port : UInt16) : '\n' ∉ displayPort port :=
  Text.notMem_of_forall (isDigit_displayPort port) rfl

structure IsAddress (address : Text) : Prop where
  ne_nil : address ≠ []
  newline_notMem : '\n' ∉ address

theorem captures_transport {transport : Transport} {address : Text} (h : IsAddress address) :
    captures transportRegex (transport.asStr ++ ':' :: '/' :: '/' :: address) =
      some [transport.asStr, address] := by
  apply captures_transportRegex _ _ h.ne_nil h.newline_notMem
  · cases transport with
    | tcp => exact List.cons_ne_nil _ _
    | ipc => exact List.cons_ne_nil _ _
  · apply List.all_eq_true.mp
    cases transport with
    | tcp => rfl
    | ipc => rfl

theorem fromStr_tcp {address : Text} (h : IsAddress address) :
    fromStr (Transport.tcp.asStr ++ ':' :: '/' :: '/' :: address) =
      (extractHostPort address).map fun r => .tcp r.1 r.2 := by
  rw [fromStr, captures_transport h]
  change Except.bind (extractHostPort address) (fun r => .ok (tcp r.1 r.2)) = _
  cases extractHostPort address with
  | error e => rfl
  | ok r => rfl

theorem fromStr_ipc {address : Text} (h : IsAddress address) :
    fromStr (Transport.ipc.asStr ++ ':' :: '/' :: '/' :: address) =
      .ok (.ipc (some (PathBuf.ofText address))) := by
  rw [fromStr, captures_transport h]
  rfl

theorem fromStr_cases (s : Text) :
    (∃ e, fromStr s = .error (.error e)) ∨
      ∃ transport address, s = Transport.asStr transport ++ ':' :: '/' :: '/' :: address ∧
        IsAddress address := by
  cases hcaps : captures transportRegex s with
  | none =>
    refine .inl ⟨.invalidSyntax "Could not parse transport", ?_⟩
    rw [fromStr, hcaps]
    rfl
  | some gs =>
    obtain ⟨name, address, rfl, rfl, -, -, hne, hnewline⟩ :=
      matches_transportRegex.mp (.of_captures hcaps)
    by_cases htcp : name = Transport.tcp.asStr
    · exact .inr ⟨.tcp, address, by rw [htcp], hne, hnewline⟩
    · by_cases hipc : name = Transport.ipc.asStr
      · exact .inr ⟨.ipc, address, by rw [hipc], hne, hnewline⟩
      · have hname : Transport.fromStr name = .error (.error (.unknownTransport name)) := by
          exact (if_neg htcp).trans (if_neg hipc)
        refine .inl ⟨.unknownTransport name, ?_⟩
        simp only [fromStr, hcaps, okOr, getGroup, List.getElem?_cons_zero, bind, Except.bind,
          hname]

theorem extractHostPort_of_text {host port : Text} (hhost : host ≠ []) (hnewline : '\n' ∉ host)
    (hport : port ≠ []) (hdigit : ∀ c ∈ port, c.isDigit = true) :
    extractHostPort (host ++ ':' :: port) =
      (okOr (parsePort port) (.invalidSyntax "Port must be a u16 but was out of range")).bind
        fun port => (Host.tryFrom host).map fun host => (host, port) := by
  rw [extractHostPort, captures_hostPortRegex hhost hnewline hport hdigit]
  change Except.bind (okOr (parsePort port) _)
    (fun port => Except.bind (Host.tryFrom host) fun host => .ok (host, port)) = _
  congr 1

theorem extractHostPort_cases (address : Text) :
    (∃ e, extractHostPort address = .error (.error e)) ∨
      ∃ host port, extractHostPort address = .ok (host, port) ∧ Host.Printable host := by
  cases hcaps : captures hostPortRegex address with
  | none =>
    refine .inl ⟨.invalidSyntax "Could not parse host and port", ?_⟩
    rw [extractHostPort, hcaps]
    rfl
  | some gs =>
    obtain ⟨host, port, rfl, rfl, hne, hnewline, hport, hdigit⟩ :=
      matches_hostPortRegex.mp (.of_captures hcaps)
    obtain ⟨h, hhost⟩ := Host.exists_tryFrom hne
    rw [extractHostPort_of_text hne hnewline hport hdigit, hhost]
    cases parsePort port with
    | none => exact .inl ⟨_, rfl⟩
    | some p => exact .inr ⟨h, p, rfl, Host.printable_of_tryFrom hnewline hhost⟩

theorem display_tcp (host : Host) (port : UInt16) :
    display (.tcp host port) =
      Transport.tcp.asStr ++ ':' :: '/' :: '/' :: (host.text ++ ':' :: displayPort port) := by
  cases host <;> simp [display, Transport.asStr, Host.text, Host.display]

theorem display_ipc (s : Text) :
    display (.ipc (some (PathBuf.ofText s))) =
      Transport.ipc.asStr ++ ':' :: '/' :: '/' :: s := by
  simp [display, Transport.asStr, PathBuf.display_ofText]

theorem fromStr_display_tcp {host : Host} (h : host.Printable) (port : UInt16) :
    fromStr (display (.tcp host port)) = .ok (.tcp host port) := by
  have haddress : IsAddress (host.text ++ ':' :: displayPort port) := by
    constructor
    · simp
    · simpa using ⟨h.newline_notMem, newline_notMem_displayPort port⟩
  rw [display_tcp, fromStr_tcp haddress, extractHostPort_of_text h.ne_nil h.newline_notMem
    (displayPort_ne_nil port) (isDigit_displayPort port), parsePort_displayPort, h.reads]
  rfl

theorem fromStr_round_trip (s : Text) :
    (∃ e, fromStr s = .error (.error e)) ∨
      ∃ e, fromStr s = .ok e ∧ fromStr e.display = .ok e := by
  cases fromStr_cases s with
  | inl h => exact .inl h
  | inr h =>
    obtain ⟨transport, address, rfl, haddress⟩ := h
    cases transport with
    | tcp =>
      rw [fromStr_tcp haddress]
      cases extractHostPort_cases address with
      | inl h =>
        obtain ⟨e, he⟩ := h
        rw [he]
        exact .inl ⟨e, rfl⟩
      | inr h =>
        obtain ⟨host, port, hok, hhost⟩ := h
        rw [hok]
        exact .inr ⟨.tcp host port, rfl, fromStr_display_tcp hhost port⟩
    | ipc =>
      have hipc := fromStr_ipc haddress
      refine .inr ⟨_, hipc, ?_⟩
      rw [display_ipc, hipc]

theorem fromStr_display {s : Text} {e : Endpoint} (h : fromStr s = .ok e) :
    fromStr e.display = .ok e := by
  cases fromStr_round_trip s with
  | inl herror =>
    obtain ⟨e', he'⟩ := herror
    rw [he'] at h
    cases h
  | inr hok =>
    obtain ⟨e', he', hdisplay⟩ := hok
    rw [he'] at h
    cases h
    exact hdisplay

theorem fromStr_ne_panic (s : Text) : fromStr s ≠ .error .panic := by
  intro h
  cases fromStr_round_trip s with
  | inl herror =>
    obtain ⟨e, he⟩ := herror
    rw [he] at h
    cases h
  | inr hok =>
    obtain ⟨e, he, -⟩ := hok
    rw [he] at h
    cases h

theorem fromStr_display_fromTcpAddr (addr : SocketAddr) :
    fromStr (fromTcpAddr addr).display = .ok (fromTcpAddr addr) := by
  cases addr with
  | v4 ip port => exact fromStr_display_tcp (Host.printable_ipv4 ip) port
  | v6 ip port _ _ => exact fromStr_display_tcp (Host.printable_ipv6 ip) port

/-- Printing and reading an endpoint agree. -/
theorem parse_display_agree :
    (∀ s e, fromStr s = .ok e → fromStr e.display = .ok e) ∧
    (∀ addr, fromStr (fromTcpAddr addr).display = .ok (fromTcpAddr addr)) ∧
    (∀ s s' e e', fromStr s = .ok e → fromStr s' = .ok e' → e ≠ e' → e.display ≠ e'.display) ∧
    (∀ s, fromStr s ≠ .error .panic) ∧ ∀ s, Host.tryFrom s ≠ .error .panic := by
  refine ⟨fun _ _ => fromStr_display, fromStr_display_fromTcpAddr, ?_, fromStr_ne_panic,
    Host.tryFrom_ne_panic⟩
  intro s s' e e' h h' hne heq
  have he := fromStr_display h
  rw [heq, fromStr_display h'] at he
  cases he
  exact hne rfl

theorem parse_display_agree_ipv6 :
    fromStr ['t', 'c', 'p', ':', '/', '/', ':', ':', '1', ':', '0', '8', '0'] =
        .ok (.tcp (.ipv6 ⟨[0, 0, 0, 0, 0, 0, 0, 1], rfl⟩) 80) ∧
      display (.tcp (.ipv6 ⟨[0, 0, 0, 0, 0, 0, 0, 1], rfl⟩) 80) =
        ['t', 'c', 'p', ':', '/', '/', '[', ':', ':', '1', ']', ':', '8', '0'] ∧
      fromStr (display (.tcp (.ipv6 ⟨[0, 0, 0, 0, 0, 0, 0, 1], rfl⟩) 80)) =
        .ok (.tcp (.ipv6 ⟨[0, 0, 0, 0, 0, 0, 0, 1], rfl⟩) 80) := by
  have hread : fromStr ['t', 'c', 'p', ':', '/', '/', ':', ':', '1', ':', '0', '8', '0'] =
      .ok (.tcp (.ipv6 ⟨[0, 0, 0, 0, 0, 0, 0, 1], rfl⟩) 80) := by decide +kernel
  exact ⟨hread, by decide +kernel, parse_display_agree.1 _ _ hread⟩

end Endpoint

end ZmqRs
