import Mathlib.Tactic.Common
import Outline.Encoding.Base64

/-!
# Bytes read back

Each group of characters is read back as the bytes it was made from.
-/

namespace Outline.Base64

theorem value?_pad : value? '=' = none := by decide

theorem ne_pad {c : Char} {v : Nat} (hc : value? c = some v) : c ≠ '=' := by
  rintro rfl
  rw [value?_pad] at hc
  cases hc

theorem decode_group {c₁ c₂ c₃ c₄ : Char} {v₁ v₂ v₃ v₄ : Nat} {rest : List Char}
    {bytes : List UInt8} (h₁ : value? c₁ = some v₁) (h₂ : value? c₂ = some v₂)
    (h₃ : value? c₃ = some v₃) (h₄ : value? c₄ = some v₄) (hrest : decode rest = some bytes) :
    decode (c₁ :: c₂ :: c₃ :: c₄ :: rest) =
      some (UInt8.ofNat ((((v₁ * 64 + v₂) * 64 + v₃) * 64 + v₄) / 65536) ::
        UInt8.ofNat ((((v₁ * 64 + v₂) * 64 + v₃) * 64 + v₄) / 256 % 256) ::
        UInt8.ofNat ((((v₁ * 64 + v₂) * 64 + v₃) * 64 + v₄) % 256) :: bytes) := by
  rw [decode]
  · simp [h₁, h₂, h₃, h₄, hrest]
  · intro h
    exact absurd h (ne_pad h₃)
  · intro h
    exact absurd h (ne_pad h₄)

theorem ofNat_eq {n : Nat} {a : UInt8} (h : n = a.toNat) : UInt8.ofNat n = a := by
  rw [h, UInt8.ofNat_toNat]

theorem decode_encode (bytes : List UInt8) : decode (encode bytes) = some bytes := by
  fun_induction encode bytes with
  | case1 => rfl
  | case2 a n =>
    have ha : n < 256 := a.toNat_lt
    have hlast : (n / 4 * 64 + n % 4 * 16) % 16 = 0 := by omega
    have hbyte : (n / 4 * 64 + n % 4 * 16) / 16 = a.toNat := by omega
    rw [decode]
    simp only [value?_symbol (show n / 4 < 64 by omega),
      value?_symbol (show n % 4 * 16 < 64 by omega), Option.bind_eq_bind, Option.bind_some,
      if_pos hlast, ofNat_eq hbyte]
  | case3 a b n =>
    have ha : a.toNat < 256 := a.toNat_lt
    have hb : b.toNat < 256 := b.toNat_lt
    have hn : n = a.toNat * 256 + b.toNat := rfl
    have hlast : ((n / 1024 * 64 + n / 16 % 64) * 64 + n % 16 * 4) % 4 = 0 := by omega
    have hfirst : ((n / 1024 * 64 + n / 16 % 64) * 64 + n % 16 * 4) / 1024 = a.toNat := by omega
    have hsecond : ((n / 1024 * 64 + n / 16 % 64) * 64 + n % 16 * 4) / 4 % 256 = b.toNat := by
      omega
    rw [decode]
    · simp only [value?_symbol (show n / 1024 < 64 by omega),
        value?_symbol (show n / 16 % 64 < 64 by omega),
        value?_symbol (show n % 16 * 4 < 64 by omega), Option.bind_eq_bind, Option.bind_some,
        if_pos hlast, ofNat_eq hfirst, ofNat_eq hsecond]
    · exact ne_pad (value?_symbol (by omega))
  | case4 a b c rest n ih =>
    have ha : a.toNat < 256 := a.toNat_lt
    have hb : b.toNat < 256 := b.toNat_lt
    have hc : c.toNat < 256 := c.toNat_lt
    have hn : n = (a.toNat * 256 + b.toNat) * 256 + c.toNat := rfl
    have hwhole : ((n / 262144 * 64 + n / 4096 % 64) * 64 + n / 64 % 64) * 64 + n % 64 = n := by
      omega
    rw [decode_group (value?_symbol (by omega)) (value?_symbol (by omega))
      (value?_symbol (by omega)) (value?_symbol (by omega)) ih, hwhole,
      ofNat_eq (show n / 65536 = a.toNat by omega),
      ofNat_eq (show n / 256 % 256 = b.toNat by omega), ofNat_eq (show n % 256 = c.toNat by omega)]

theorem decode_text (bytes : List UInt8) : decode (text bytes).toList = some bytes := by
  rw [text, String.toList_ofList, decode_encode]

end Outline.Base64
