import ZmqRs.Lib.Numeral

/-! Internet addresses and their texts.  A reader takes what it reads off the front of a
text; one that fails has read nothing. -/

namespace ZmqRs.Lib

open Numeral

structure Ipv4Addr where
  a : UInt8
  b : UInt8
  c : UInt8
  d : UInt8
  deriving DecidableEq

structure Ipv6Addr where
  segments : List UInt16
  length_segments : segments.length = 8
  deriving DecidableEq

namespace IpAddr

abbrev Reader (α : Type) := Text → Option (α × Text)

def readGivenChar (target : Char) : Reader Unit
  | [] => none
  | c :: s => if c = target then some ((), s) else none

def readSeparator {α : Type} (sep : Char) (index : Nat) (inner : Reader α) : Reader α := fun s =>
  if 0 < index then do
    let (_, s) ← readGivenChar sep s
    inner s
  else inner s

def readNumber (radix maxDigits : Nat) (allowZeroPrefix : Bool) (bound : Nat) : Reader Nat :=
  fun s =>
    let ds := (digits radix s).1
    if maxDigits < ds.length then none
    else if ds.length = 0 then none
    else if allowZeroPrefix = false ∧ s.head? = some '0' ∧ 1 < ds.length then none
    else if value radix ds < bound then some (value radix ds, (digits radix s).2)
    else none

def readOctet : Reader UInt8 := fun s =>
  (readNumber 10 3 false 256 s).map fun r => (UInt8.ofNat r.1, r.2)

def readGroup : Reader UInt16 := fun s =>
  (readNumber 16 4 true 65536 s).map fun r => (UInt16.ofNat r.1, r.2)

def readIpv4Addr : Reader Ipv4Addr := fun s => do
  let (a, s) ← readSeparator '.' 0 readOctet s
  let (b, s) ← readSeparator '.' 1 readOctet s
  let (c, s) ← readSeparator '.' 2 readOctet s
  let (d, s) ← readSeparator '.' 3 readOctet s
  return (⟨a, b, c, d⟩, s)

def fromBeBytes (hi lo : UInt8) : UInt16 := UInt16.ofNat (hi.toNat * 256 + lo.toNat)

def groups (v4 : Ipv4Addr) : List UInt16 :=
  [fromBeBytes v4.a v4.b, fromBeBytes v4.c v4.d]

/-- Up to `left` groups, where `i` have been read before, and whether the last two of
them are from a trailing IPv4 address. -/
def readGroups (i : Nat) : Nat → Text → List UInt16 × Bool × Text
  | 0, s => ([], false, s)
  | left + 1, s =>
    match if 0 < left then readSeparator ':' i readIpv4Addr s else none with
    | some (v4, s) => (groups v4, true, s)
    | none =>
      match readSeparator ':' i readGroup s with
      | some (g, s) =>
        let (gs, ipv4, s) := readGroups (i + 1) left s
        (g :: gs, ipv4, s)
      | none => ([], false, s)

theorem length_readGroups_le (i left : Nat) (s : Text) : (readGroups i left s).1.length ≤ left := by
  induction left generalizing i s with
  | zero => exact Nat.le_refl 0
  | succ left ih =>
    rw [readGroups]
    split
    · rename_i hread
      split at hread
      · simpa [groups]
      · cases hread
    · split
      · exact Nat.succ_le_succ (ih _ _)
      · exact Nat.zero_le _

def fill (head tail : List UInt16) : List UInt16 :=
  head ++ List.replicate (8 - head.length - tail.length) 0 ++ tail

theorem length_fill {head tail : List UInt16} (h : head.length + tail.length ≤ 8) :
    (fill head tail).length = 8 := by
  rw [fill, List.length_append, List.length_append, List.length_replicate]
  omega

def readIpv6Addr : Reader Ipv6Addr := fun s =>
  let head := readGroups 0 8 s
  if h : head.1.length = 8 then some (⟨head.1, h⟩, head.2.2)
  -- an IPv4 address may not stand before `::`
  else if head.2.1 then none
  else do
    let (_, s) ← readGivenChar ':' head.2.2
    let (_, s) ← readGivenChar ':' s
    let tail := readGroups 0 (8 - (head.1.length + 1)) s
    have hle : head.1.length ≤ 8 := length_readGroups_le 0 8 _
    have hle' : tail.1.length ≤ 8 - (head.1.length + 1) := length_readGroups_le 0 _ s
    return (⟨fill head.1 tail.1, length_fill (by omega)⟩, tail.2.2)

def parseWith {α : Type} (inner : Reader α) (s : Text) : Option α :=
  match inner s with
  | some (a, []) => some a
  | _ => none

def decimal (octet : UInt8) : Text := Nat.toDigits 10 octet.toNat

def hex (segment : UInt16) : Text := Nat.toDigits 16 segment.toNat

def fmtSubslice : List UInt16 → Text
  | [] => []
  | first :: tail => hex first ++ tail.flatMap fun segment => ':' :: hex segment

structure Span where
  start : Nat
  len : Nat

def zeroes (i : Nat) (longest current : Span) : List UInt16 → Span
  | [] => longest
  | segment :: rest =>
    if segment = 0 then
      let current := ⟨if current.len = 0 then i else current.start, current.len + 1⟩
      zeroes (i + 1) (if longest.len < current.len then current else longest) current rest
    else zeroes (i + 1) longest ⟨0, 0⟩ rest

end IpAddr

open IpAddr

def Ipv4Addr.parse (s : Text) : Option Ipv4Addr :=
  -- a text that is too long is not looked at
  if 15 < Text.len s then none else parseWith readIpv4Addr s

def Ipv4Addr.display (v4 : Ipv4Addr) : Text :=
  decimal v4.a ++ '.' :: decimal v4.b ++ '.' :: decimal v4.c ++ '.' :: decimal v4.d

def Ipv6Addr.parse (s : Text) : Option Ipv6Addr := parseWith readIpv6Addr s

def Ipv6Addr.toIpv4Mapped (v6 : Ipv6Addr) : Option Ipv4Addr :=
  match v6.segments with
  | [0, 0, 0, 0, 0, 0xffff, ab, cd] =>
    some ⟨UInt8.ofNat (ab.toNat / 256), UInt8.ofNat ab.toNat,
      UInt8.ofNat (cd.toNat / 256), UInt8.ofNat cd.toNat⟩
  | _ => none

def Ipv6Addr.display (v6 : Ipv6Addr) : Text :=
  match v6.toIpv4Mapped with
  | some v4 => [':', ':', 'f', 'f', 'f', 'f', ':'] ++ v4.display
  | none =>
    let span := zeroes 0 ⟨0, 0⟩ ⟨0, 0⟩ v6.segments
    if 1 < span.len then
      fmtSubslice (v6.segments.take span.start) ++ ':' :: ':' ::
        fmtSubslice (v6.segments.drop (span.start + span.len))
    else fmtSubslice v6.segments

namespace IpAddr

theorem readSeparator_zero {α : Type} (sep : Char) (inner : Reader α) (s : Text) :
    readSeparator sep 0 inner s = inner s := rfl

theorem readSeparator_cons {α : Type} (sep : Char) {index : Nat} (inner : Reader α) (s : Text)
    (h : 0 < index) : readSeparator sep index inner (sep :: s) = inner s := by
  rw [readSeparator, if_pos h, readGivenChar, if_pos rfl]
  rfl

theorem readNumber_toDigits {radix maxDigits bound : Nat} {allowZeroPrefix : Bool} {n : Nat}
    {s : Text} (hr : 1 < radix) (hr' : radix ≤ 16) (hs : Stops radix s)
    (hlen : (Nat.toDigits radix n).length ≤ maxDigits) (hn : n < bound) :
    readNumber radix maxDigits allowZeroPrefix bound (Nat.toDigits radix n ++ s) = some (n, s) := by
  obtain ⟨ds, hdigits, hval, hds⟩ := digits_toDigits n hr hr' hs
  have hpos := Nat.length_toDigits_pos (b := radix) (n := n)
  -- only zero itself starts with a zero, and it has no second digit
  have hzero : ¬ (allowZeroPrefix = false ∧
      (Nat.toDigits radix n ++ s).head? = some '0' ∧ 1 < ds.length) := by
    rintro ⟨-, hhead, hlong⟩
    rw [List.head?_append_of_ne_nil _ Nat.toDigits_ne_nil] at hhead
    cases Nat.eq_zero_or_pos n with
    | inl h =>
      rw [hds, h, Nat.toDigits_zero, List.length_singleton] at hlong
      exact absurd hlong (Nat.lt_irrefl 1)
    | inr h => exact head?_toDigits_ne_zero hr hr' h hhead
  simp only [readNumber, hdigits, hval]
  rw [if_neg (by omega), if_neg (by omega), if_neg hzero, if_pos hn]

theorem readOctet_decimal (octet : UInt8) {s : Text} (hs : Stops 10 s) :
    readOctet (decimal octet ++ s) = some (octet, s) := by
  have hlt := octet.toNat_lt
  have hlen : (Nat.toDigits 10 octet.toNat).length ≤ 3 :=
    (Nat.length_toDigits_le_iff (by decide) (by decide)).mpr (by omega)
  rw [readOctet, decimal, readNumber_toDigits (by decide) (by decide) hs hlen (by omega),
    Option.map_some, UInt8.ofNat_toNat]

theorem readGroup_hex (segment : UInt16) {s : Text} (hs : Stops 16 s) :
    readGroup (hex segment ++ s) = some (segment, s) := by
  have hlt := segment.toNat_lt
  have hlen : (Nat.toDigits 16 segment.toNat).length ≤ 4 :=
    (Nat.length_toDigits_le_iff (by decide) (by decide)).mpr (by omega)
  rw [readGroup, hex, readNumber_toDigits (by decide) (by decide) hs hlen (by omega),
    Option.map_some, UInt16.ofNat_toNat]

theorem readIpv4Addr_display (v4 : Ipv4Addr) {s : Text} (hs : Stops 10 s) :
    readIpv4Addr (v4.display ++ s) = some (v4, s) := by
  have hdot (t : Text) : Stops 10 ('.' :: t) := stops_cons t (by decide)
  simp only [Ipv4Addr.display, readIpv4Addr, List.append_assoc, List.cons_append,
    readSeparator_zero, readOctet_decimal _ (hdot _), Option.bind_eq_bind, Option.bind_some,
    readSeparator_cons _ _ _ Nat.one_pos, readSeparator_cons _ _ _ Nat.two_pos,
    readSeparator_cons _ _ _ (Nat.succ_pos 2), readOctet_decimal _ hs]
  rfl

theorem readNumber_eq_none {radix maxDigits bound : Nat} {allowZeroPrefix : Bool} {s : Text}
    (h : Stops radix s) : readNumber radix maxDigits allowZeroPrefix bound s = none := by
  simp only [readNumber, digits_of_stops h]
  rw [List.length_nil, if_neg (Nat.not_lt_zero _), if_pos rfl]

theorem readOctet_eq_none {s : Text} (h : Stops 10 s) : readOctet s = none := by
  rw [readOctet, readNumber_eq_none h, Option.map_none]

theorem readGroup_eq_none {s : Text} (h : Stops 16 s) : readGroup s = none := by
  rw [readGroup, readNumber_eq_none h, Option.map_none]

theorem readIpv4Addr_eq_none {s : Text} (h : Stops 10 s) : readIpv4Addr s = none := by
  rw [readIpv4Addr, readSeparator_zero, readOctet_eq_none h]
  rfl

theorem readSeparator_eq_none {α : Type} {sep : Char} {index : Nat} (inner : Reader α) {s : Text}
    (hi : 0 < index) (hs : s.head? ≠ some sep) : readSeparator sep index inner s = none := by
  rw [readSeparator, if_pos hi]
  cases s with
  | nil => rfl
  | cons c s =>
    rw [readGivenChar, if_neg (fun hc => hs (congrArg some hc))]
    rfl

theorem mem_of_readOctet {s rest : Text} {octet : UInt8} {c : Char}
    (h : readOctet s = some (octet, rest)) (hc : c ∈ rest) : c ∈ s := by
  obtain ⟨r, hr, heq⟩ := Option.map_eq_some_iff.mp h
  simp only [readNumber] at hr
  split_ifs at hr
  cases hr
  cases heq
  exact mem_of_mem_digits hc

theorem readIpv4Addr_of_notMem {s : Text} (h : '.' ∉ s) : readIpv4Addr s = none := by
  rw [readIpv4Addr, readSeparator_zero]
  cases hread : readOctet s with
  | none => rfl
  | some r =>
    have hhead : r.2.head? ≠ some '.' := fun hd =>
      h (mem_of_readOctet hread (List.mem_of_mem_head? hd))
    change Option.bind (readSeparator '.' 1 readOctet r.2) _ = none
    rw [readSeparator_eq_none readOctet Nat.one_pos hhead]
    rfl

def Closes (s : Text) : Prop := s = [] ∨ ∃ t : Text, s = ':' :: ':' :: t

theorem stops_colon (radix : Nat) (t : Text) : Stops radix (':' :: t) := by
  apply stops_cons
  rw [toDigit]
  rfl

theorem Closes.stops {s : Text} (h : Closes s) (radix : Nat) : Stops radix s := by
  cases h with
  | inl h =>
    rw [h]
    exact stops_nil radix
  | inr h =>
    obtain ⟨t, rfl⟩ := h
    exact stops_colon radix _

theorem Closes.readSeparator_eq_none {s : Text} (h : Closes s) {α : Type} {inner : Reader α}
    (radix : Nat) (hinner : ∀ t, Stops radix t → inner t = none) (i : Nat) :
    readSeparator ':' i inner s = none := by
  cases i with
  | zero => exact hinner s (h.stops radix)
  | succ i =>
    cases h with
    | inl h =>
      rw [h]
      rfl
    | inr h =>
      obtain ⟨t, rfl⟩ := h
      rw [readSeparator_cons _ _ _ (Nat.succ_pos i)]
      exact hinner _ (stops_colon radix t)

theorem readGroups_of_closes (i left : Nat) {s : Text} (h : Closes s) :
    readGroups i left s = ([], false, s) := by
  cases left with
  | zero => rfl
  | succ left =>
    rw [readGroups, h.readSeparator_eq_none 10 (fun _ => readIpv4Addr_eq_none) i,
      h.readSeparator_eq_none 16 (fun _ => readGroup_eq_none) i, ite_self]

section

variable {c : Char} (hc : toDigit 16 c = none)
include hc

theorem notMem_hex (segment : UInt16) : c ∉ hex segment := by
  intro h
  obtain ⟨d, hd⟩ := mem_toDigits (by decide) (by decide) h
  rw [hc] at hd
  cases hd

theorem notMem_flatMap_hex (hcolon : c ≠ ':') (gs : List UInt16) :
    c ∉ gs.flatMap fun segment => ':' :: hex segment := by
  intro h
  obtain ⟨segment, -, hmem⟩ := List.mem_flatMap.mp h
  cases List.mem_cons.mp hmem with
  | inl heq => exact hcolon heq
  | inr hhex => exact notMem_hex hc segment hhex

theorem notMem_fmtSubslice (hcolon : c ≠ ':') (gs : List UInt16) : c ∉ fmtSubslice gs := by
  cases gs with
  | nil => exact List.not_mem_nil
  | cons first tail =>
    intro h
    cases List.mem_append.mp h with
    | inl h => exact notMem_hex hc first h
    | inr h => exact notMem_flatMap_hex hc hcolon tail h

end

theorem dot_notMem_groups (g : UInt16) (gs : List UInt16) {s : Text} (hdot : '.' ∉ s) :
    '.' ∉ hex g ++ ((gs.flatMap fun segment => ':' :: hex segment) ++ s) := by
  simp only [List.mem_append, not_or]
  exact ⟨notMem_hex (by decide) g, notMem_flatMap_hex (by decide) (by decide) gs, hdot⟩

theorem readGroups_succ {i left : Nat} {g : UInt16} {gs : List UInt16} {ipv4 : Bool}
    {s t rest : Text} (hv4 : readSeparator ':' i readIpv4Addr s = none)
    (hg : readSeparator ':' i readGroup s = some (g, t))
    (ht : readGroups (i + 1) left t = (gs, ipv4, rest)) :
    readGroups i (left + 1) s = (g :: gs, ipv4, rest) := by
  simp only [readGroups, hv4, hg, ht, ite_self]

theorem stops_flatMap_hex (gs : List UInt16) {s : Text} (hs : Closes s) :
    Stops 16 ((gs.flatMap fun segment => ':' :: hex segment) ++ s) := by
  cases gs with
  | nil => exact hs.stops 16
  | cons g gs => exact stops_colon 16 _

theorem readGroups_flatMap_hex {gs : List UInt16} {i left : Nat} {s : Text} (hi : 0 < i)
    (hle : gs.length ≤ left) (hdot : '.' ∉ s) (hs : Closes s) :
    readGroups i left ((gs.flatMap fun segment => ':' :: hex segment) ++ s) = (gs, false, s) := by
  induction gs generalizing i left with
  | nil => exact readGroups_of_closes i left hs
  | cons g gs ih =>
    cases left with
    | zero => cases hle
    | succ left =>
      rw [List.flatMap_cons, List.cons_append, List.cons_append, List.append_assoc]
      apply readGroups_succ
      · rw [readSeparator_cons _ _ _ hi, readIpv4Addr_of_notMem (dot_notMem_groups g gs hdot)]
      · rw [readSeparator_cons _ _ _ hi, readGroup_hex g (stops_flatMap_hex gs hs)]
      · exact ih (Nat.succ_pos i) (Nat.le_of_succ_le_succ hle)

theorem readGroups_fmtSubslice {gs : List UInt16} {left : Nat} {s : Text}
    (hle : gs.length ≤ left) (hdot : '.' ∉ s) (hs : Closes s) :
    readGroups 0 left (fmtSubslice gs ++ s) = (gs, false, s) := by
  cases gs with
  | nil => exact readGroups_of_closes 0 left hs
  | cons g gs =>
    cases left with
    | zero => cases hle
    | succ left =>
      rw [fmtSubslice, List.append_assoc]
      apply readGroups_succ
      · rw [readSeparator_zero, readIpv4Addr_of_notMem (dot_notMem_groups g gs hdot)]
      · rw [readSeparator_zero, readGroup_hex g (stops_flatMap_hex gs hs)]
      · exact readGroups_flatMap_hex Nat.one_pos (Nat.le_of_succ_le_succ hle) hdot hs

def Span.IsRun (span : Span) (gs : List UInt16) : Prop :=
  ∃ before after : List UInt16, gs = before ++ List.replicate span.len 0 ++ after ∧
    (0 < span.len → before.length = span.start)

def Span.IsLast (span : Span) (gs : List UInt16) : Prop :=
  ∃ before : List UInt16, gs = before ++ List.replicate span.len 0 ∧
    (0 < span.len → before.length = span.start)

theorem Span.IsLast.isRun {span : Span} {gs : List UInt16} (h : span.IsLast gs) :
    span.IsRun gs := by
  obtain ⟨before, hgs, hlen⟩ := h
  exact ⟨before, [], by rw [List.append_nil, hgs], hlen⟩

theorem Span.IsRun.append {span : Span} {gs : List UInt16} (h : span.IsRun gs) (gs' : List UInt16) :
    span.IsRun (gs ++ gs') := by
  obtain ⟨before, after, hgs, hlen⟩ := h
  exact ⟨before, after ++ gs', by rw [hgs, List.append_assoc], hlen⟩

theorem Span.isLast_empty (gs : List UInt16) : Span.IsLast ⟨0, 0⟩ gs :=
  ⟨gs, by simp, fun h => absurd h (Nat.lt_irrefl 0)⟩

theorem Span.IsLast.succ {span : Span} {gs : List UInt16} (h : span.IsLast gs) :
    Span.IsLast ⟨if span.len = 0 then gs.length else span.start, span.len + 1⟩ (gs ++ [0]) := by
  obtain ⟨before, hgs, hlen⟩ := h
  refine ⟨before, ?_, fun _ => ?_⟩
  · rw [hgs, List.append_assoc, List.replicate_succ']
  · change before.length = if span.len = 0 then gs.length else span.start
    split
    · rename_i hzero
      rw [hgs, hzero, List.replicate_zero, List.append_nil]
    · exact hlen (by omega)

theorem isRun_zeroes {scanned gs : List UInt16} {longest current : Span}
    (hlongest : longest.IsRun scanned) (hcurrent : current.IsLast scanned) :
    (zeroes scanned.length longest current gs).IsRun (scanned ++ gs) := by
  induction gs generalizing scanned longest current with
  | nil => exact hlongest.append []
  | cons g gs ih =>
    have hlen : scanned.length + 1 = (scanned ++ [g]).length := by rw [List.length_append]; rfl
    have happ : scanned ++ g :: gs = (scanned ++ [g]) ++ gs := by rw [List.append_assoc]; rfl
    rw [zeroes, hlen, happ]
    split
    · rename_i hg
      subst hg
      have hnext := hcurrent.succ
      generalize (⟨_, current.len + 1⟩ : Span) = next at hnext ⊢
      apply ih _ hnext
      split
      · exact hnext.isRun
      · exact hlongest.append [0]
    · exact ih (hlongest.append [g]) (Span.isLast_empty _)

theorem parseWith_eq_some {α : Type} {inner : Reader α} {s : Text} {a : α}
    (h : inner s = some (a, [])) : parseWith inner s = some a := by
  rw [parseWith, h]

theorem readIpv6Addr_of_groups {s t : Text} {head tail : List UInt16} {ipv4 : Bool}
    (hle : head.length + tail.length < 8)
    (hhead : readGroups 0 8 s = (head, false, ':' :: ':' :: t))
    (htail : readGroups 0 (8 - (head.length + 1)) t = (tail, ipv4, [])) :
    readIpv6Addr s = some (⟨fill head tail, length_fill (Nat.le_of_lt hle)⟩, []) := by
  simp only [readIpv6Addr, hhead]
  rw [dif_neg (by omega), if_neg Bool.false_ne_true]
  simp only [readGivenChar, if_true, htail, Option.bind_eq_bind, Option.bind_some]
  rfl

theorem readIpv6Addr_fill {head tail : List UInt16} (hle : head.length + tail.length < 8) :
    readIpv6Addr (fmtSubslice head ++ ':' :: ':' :: fmtSubslice tail) =
      some (⟨fill head tail, length_fill (Nat.le_of_lt hle)⟩, []) := by
  have hdot : '.' ∉ ':' :: ':' :: fmtSubslice tail := by
    simpa using notMem_fmtSubslice (by decide) (by decide) tail
  have htail := readGroups_fmtSubslice (s := []) (show tail.length ≤ 8 - (head.length + 1) by omega)
    List.not_mem_nil (.inl rfl)
  rw [List.append_nil] at htail
  exact readIpv6Addr_of_groups hle
    (readGroups_fmtSubslice (by omega) hdot (.inr ⟨_, rfl⟩)) htail

theorem readIpv6Addr_mapped (v4 : Ipv4Addr) :
    readIpv6Addr ([':', ':', 'f', 'f', 'f', 'f', ':'] ++ v4.display) =
      some (⟨fill [] (0xffff :: groups v4), length_fill (show 0 + 3 ≤ 8 by decide)⟩, []) := by
  have hv4 : readGroups 1 6 (':' :: v4.display) = (groups v4, true, []) := by
    have hread := readIpv4Addr_display v4 (stops_nil 10)
    rw [List.append_nil] at hread
    rw [readGroups, if_pos (by decide), readSeparator_cons _ _ _ Nat.one_pos, hread]
  have htail : readGroups 0 7 (['f', 'f', 'f', 'f'] ++ ':' :: v4.display) =
      (0xffff :: groups v4, true, []) := by
    apply readGroups_succ _ _ hv4
    · exact readIpv4Addr_eq_none (stops_cons _ (by decide))
    · exact readGroup_hex 0xffff (stops_colon 16 _)
  have hle : ([] : List UInt16).length + (0xffff :: groups v4).length < 8 :=
    show 0 + 3 < 8 by decide
  exact readIpv6Addr_of_groups hle (readGroups_of_closes 0 8 (.inr ⟨_, rfl⟩)) htail

end IpAddr

theorem Ipv4Addr.mem_display {v4 : Ipv4Addr} {c : Char} (h : c ∈ v4.display) :
    c.isDigit ∨ c = '.' := by
  have hdec (octet : UInt8) (hc : c ∈ decimal octet) : c.isDigit :=
    Nat.isDigit_of_mem_toDigits (by decide) (by decide) hc
  simp only [display, List.mem_append, List.mem_cons, or_assoc] at h
  rcases h with h | h | h | h | h | h | h
  · exact .inl (hdec _ h)
  · exact .inr h
  · exact .inl (hdec _ h)
  · exact .inr h
  · exact .inl (hdec _ h)
  · exact .inr h
  · exact .inl (hdec _ h)

theorem IpAddr.length_decimal (octet : UInt8) :
    0 < (decimal octet).length ∧ (decimal octet).length ≤ 3 := by
  have hlt := octet.toNat_lt
  refine ⟨Nat.length_toDigits_pos, ?_⟩
  exact (Nat.length_toDigits_le_iff (by decide) (by decide)).mpr (by omega)

theorem Ipv4Addr.display_ne_nil (v4 : Ipv4Addr) : v4.display ≠ [] := by
  simp [display]

theorem Ipv4Addr.len_display_le (v4 : Ipv4Addr) : Text.len v4.display ≤ 15 := by
  have hascii : ∀ c ∈ v4.display, c.utf8Size = 1 := by
    intro c hc
    rw [Char.utf8Size_eq_one_iff, UInt32.le_iff_toNat_le]
    cases mem_display hc with
    | inl h =>
      simp only [Char.isDigit, Bool.and_eq_true, decide_eq_true_eq] at h
      exact Nat.le_trans (UInt32.le_iff_toNat_le.mp h.2) (by decide)
    | inr h =>
      rw [h]
      decide
  have ha := (length_decimal v4.a).2
  have hb := (length_decimal v4.b).2
  have hc := (length_decimal v4.c).2
  have hd := (length_decimal v4.d).2
  rw [Text.len_eq_length hascii, display]
  simp only [List.length_append, List.length_cons]
  omega

theorem Ipv4Addr.newline_notMem_display (v4 : Ipv4Addr) : '\n' ∉ v4.display := by
  intro h
  cases mem_display h with
  | inl h => exact absurd h (by decide)
  | inr h => exact absurd h (by decide)

theorem Ipv4Addr.parse_display (v4 : Ipv4Addr) : parse v4.display = some v4 := by
  have hread := readIpv4Addr_display v4 (stops_nil 10)
  rw [List.append_nil] at hread
  rw [parse, if_neg (Nat.not_lt.mpr v4.len_display_le), parseWith_eq_some hread]

theorem IpAddr.fromBeBytes_ofNat (ab : UInt16) :
    fromBeBytes (UInt8.ofNat (ab.toNat / 256)) (UInt8.ofNat ab.toNat) = ab := by
  have hlt := ab.toNat_lt
  have hdiv : ab.toNat / 256 % 256 * 256 + ab.toNat % 256 = ab.toNat := by omega
  rw [fromBeBytes, UInt8.toNat_ofNat', UInt8.toNat_ofNat']
  exact (congrArg UInt16.ofNat hdiv).trans (UInt16.ofNat_toNat)

theorem Ipv6Addr.segments_of_mapped {v6 : Ipv6Addr} {v4 : Ipv4Addr}
    (h : v6.toIpv4Mapped = some v4) : v6.segments = fill [] (0xffff :: groups v4) := by
  rw [toIpv4Mapped] at h
  split at h
  · rename_i ab cd hsegments
    cases h
    rw [hsegments, groups, fromBeBytes_ofNat, fromBeBytes_ofNat]
    rfl
  · cases h

theorem IpAddr.fill_of_eq {gs before after : List UInt16} {n : Nat} (hlen : gs.length = 8)
    (h : gs = before ++ List.replicate n 0 ++ after) : fill before after = gs := by
  have hn : 8 - before.length - after.length = n := by
    rw [h, List.length_append, List.length_append, List.length_replicate] at hlen
    omega
  rw [fill, hn, h]

theorem Ipv6Addr.parse_display (v6 : Ipv6Addr) : parse v6.display = some v6 := by
  apply parseWith_eq_some
  rw [display]
  split
  · rename_i v4 hv4
    rw [readIpv6Addr_mapped]
    simp only [← segments_of_mapped hv4]
  · obtain ⟨before, after, hsegments, hlen⟩ :
        (zeroes 0 ⟨0, 0⟩ ⟨0, 0⟩ v6.segments).IsRun v6.segments :=
      isRun_zeroes (Span.isLast_empty []).isRun (Span.isLast_empty [])
    have hlength := v6.length_segments
    generalize zeroes 0 ⟨0, 0⟩ ⟨0, 0⟩ v6.segments = span at hsegments hlen
    by_cases hspan : 1 < span.len
    · -- the longest run is left out
      have hbefore := hlen (by omega)
      have htake : v6.segments.take span.start = before := by
        rw [hsegments, ← hbefore, List.append_assoc, List.take_left]
      have hdrop : v6.segments.drop (span.start + span.len) = after := by
        rw [hsegments, ← hbefore]
        apply List.drop_left'
        rw [List.length_append, List.length_replicate]
      have hlt : before.length + after.length < 8 := by
        rw [hsegments, List.length_append, List.length_append, List.length_replicate] at hlength
        omega
      simp only [if_pos hspan, htake, hdrop, readIpv6Addr_fill hlt,
        fill_of_eq hlength hsegments]
    · have hread := readGroups_fmtSubslice (s := []) (Nat.le_of_eq hlength) List.not_mem_nil
        (.inl rfl)
      rw [List.append_nil] at hread
      simp only [if_neg hspan, readIpv6Addr, hread, dif_pos hlength]

theorem Ipv6Addr.newline_notMem_display (v6 : Ipv6Addr) : '\n' ∉ v6.display := by
  have hfmt (gs : List UInt16) : '\n' ∉ fmtSubslice gs :=
    notMem_fmtSubslice (by decide) (by decide) gs
  rw [display]
  split
  · rename_i v4 _
    simpa using v4.newline_notMem_display
  · dsimp only
    split
    · simp [hfmt]
    · exact hfmt _

theorem Ipv6Addr.two_le_length_display (v6 : Ipv6Addr) : 2 ≤ v6.display.length := by
  rw [display]
  split
  · simp
  · dsimp only
    split
    · simp only [List.length_append, List.length_cons]
      omega
    · have hlength := v6.length_segments
      match hsegments : v6.segments with
      | [] | [_] => simp [hsegments] at hlength
      | first :: second :: rest =>
        have hpos : 0 < (hex first).length := Nat.length_toDigits_pos
        simp only [fmtSubslice, List.flatMap_cons, List.cons_append, List.length_append,
          List.length_cons]
        omega

end ZmqRs.Lib
