/-!
# Bytes of a text

Text is encoded in UTF-8. Bytes that are no text have a longest prefix that is; a report on
them is placed right behind it.
-/

namespace Outline.Text

def charBytes (c : Char) : List UInt8 := String.utf8EncodeChar c

def bytesOf (s : List Char) : List UInt8 := s.flatMap charBytes

def continuation? (b : UInt8) : Option Nat :=
  if 0x80 ≤ b.toNat ∧ b.toNat < 0xC0 then some (b.toNat - 0x80) else none

def scalarIn? (lo n : Nat) : Option Char :=
  if lo ≤ n ∧ n.isValidChar then some (Char.ofNat n) else none

/-- Append the payload of `k` continuation bytes to a code. -/
def continuations : Nat → Nat → List UInt8 → Option (Nat × List UInt8)
  | 0, n, bs => some (n, bs)
  | _ + 1, _, [] => none
  | k + 1, n, b :: bs => (continuation? b).bind fun d => continuations k (64 * n + d) bs

theorem length_of_continuations {k n m : Nat} {bs rest : List UInt8}
    (h : continuations k n bs = some (m, rest)) : rest.length ≤ bs.length := by
  fun_induction continuations k n bs with
  | case1 => simp_all
  | case2 => simp at h
  | case3 k n b bs ih =>
    obtain ⟨d, _, hd⟩ := Option.bind_eq_some_iff.1 h
    exact Nat.le_succ_of_le (ih d hd)

/-- What a first byte announces: the least code that needs its form, the number of
continuation bytes, and its payload. -/
def lead? (b : UInt8) : Option (Nat × Nat × Nat) :=
  let n := b.toNat
  if n < 0x80 then some (0, 0, n)
  else if n < 0xC0 then none
  else if n < 0xE0 then some (0x80, 1, n - 0xC0)
  else if n < 0xF0 then some (0x800, 2, n - 0xE0)
  else if n < 0xF8 then some (0x10000, 3, n - 0xF0)
  else none

/-- The first character and the bytes behind it. Longer forms than needed are refused. -/
def decodeChar : List UInt8 → Option (Char × List UInt8)
  | [] => none
  | b :: bs =>
    (lead? b).bind fun (lo, k, payload) =>
      (continuations k payload bs).bind fun (code, rest) =>
        (scalarIn? lo code).map (·, rest)

theorem length_of_decodeChar {bs rest : List UInt8} {c : Char}
    (h : decodeChar bs = some (c, rest)) : rest.length < bs.length := by
  match bs, h with
  | b :: bs, h =>
    obtain ⟨⟨lo, k, payload⟩, _, h⟩ := Option.bind_eq_some_iff.1 h
    obtain ⟨⟨code, r⟩, hr, h⟩ := Option.bind_eq_some_iff.1 h
    obtain ⟨c', _, h⟩ := Option.map_eq_some_iff.1 h
    obtain ⟨_, rfl⟩ := Prod.mk.inj h
    exact Nat.lt_succ_of_le (length_of_continuations hr)

/-- The longest prefix that is text, and the bytes behind it. -/
def decodeBytes (bs : List UInt8) : List Char × List UInt8 :=
  match _h : decodeChar bs with
  | none => ([], bs)
  | some (c, rest) =>
    let (s, r) := decodeBytes rest
    (c :: s, r)
termination_by bs.length
decreasing_by exact length_of_decodeChar _h

def ofBytes? (bs : List UInt8) : Option String :=
  let (s, rest) := decodeBytes bs
  if rest.isEmpty then some (String.ofList s) else none

/-- The text that ends a sequence of bytes `s`, starting at byte `skip` of it; nothing if a
character spans that place. -/
def dropBytes (skip : Nat) : List Char → List Char
  | [] => []
  | c :: s =>
    if skip = 0 then c :: s
    else if c.utf8Size ≤ skip then dropBytes (skip - c.utf8Size) s
    else []

def byteLength (s : List Char) : Nat := s.foldl (fun n c => n + c.utf8Size) 0

end Outline.Text
