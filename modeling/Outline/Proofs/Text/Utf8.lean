import Outline.Proofs.Text.Literal
import Outline.Text.Utf8

/-!
# Bytes and characters

The bytes of a text are decoded to the text, and only they are. So the decoded prefix of a sequence
of bytes is the longest one that is text.
-/

namespace Outline.Text

variable {b : UInt8} {bs rest w : List UInt8} {c : Char} {s t : List Char}

/-! ## Characters -/

/-- A byte behind the first one of a character carries six bits. -/
def trailing (d : Nat) : UInt8 := UInt8.ofNat (d + 0x80)

/-- The four forms of a character: the least code of each is the first one that the form before
has no room for. -/
inductive Encodes : Nat → List UInt8 → Prop
  | one {n : Nat} (h : n < 0x80) : Encodes n [UInt8.ofNat n]
  | two {n p d : Nat} (hp : p < 32) (hd : d < 64) (hlo : 0x80 ≤ n) (hn : n = 64 * p + d) :
      Encodes n [UInt8.ofNat (p + 0xC0), trailing d]
  | three {n p d₁ d₂ : Nat} (hp : p < 16) (h₁ : d₁ < 64) (h₂ : d₂ < 64) (hlo : 0x800 ≤ n)
      (hn : n = 64 * (64 * p + d₁) + d₂) :
      Encodes n [UInt8.ofNat (p + 0xE0), trailing d₁, trailing d₂]
  | four {n p d₁ d₂ d₃ : Nat} (hp : p < 8) (h₁ : d₁ < 64) (h₂ : d₂ < 64) (h₃ : d₃ < 64)
      (hlo : 0x10000 ≤ n) (hn : n = 64 * (64 * (64 * p + d₁) + d₂) + d₃) :
      Encodes n [UInt8.ofNat (p + 0xF0), trailing d₁, trailing d₂, trailing d₃]

theorem toNat_trailing {d : Nat} (hd : d < 64) : (trailing d).toNat = d + 0x80 := by
  rw [trailing, UInt8.toNat_ofNat']
  omega

theorem continuation?_eq_some_iff {d : Nat} :
    continuation? b = some d ↔ d < 64 ∧ b = trailing d := by
  simp only [continuation?, Option.ite_none_right_eq_some, Option.some.injEq]
  constructor
  · rintro ⟨hb, hd⟩
    refine ⟨by omega, ?_⟩
    rw [trailing, show d + 0x80 = b.toNat by omega, UInt8.ofNat_toNat]
  · rintro ⟨hd, rfl⟩
    rw [toNat_trailing hd]
    omega

theorem lead?_eq_some_iff {lo k p : Nat} :
    lead? b = some (lo, k, p) ↔
      (lo = 0 ∧ k = 0 ∧ p < 0x80 ∧ b = UInt8.ofNat p) ∨
      (lo = 0x80 ∧ k = 1 ∧ p < 32 ∧ b = UInt8.ofNat (p + 0xC0)) ∨
      (lo = 0x800 ∧ k = 2 ∧ p < 16 ∧ b = UInt8.ofNat (p + 0xE0)) ∨
      (lo = 0x10000 ∧ k = 3 ∧ p < 8 ∧ b = UInt8.ofNat (p + 0xF0)) := by
  have hb : ∀ {m : Nat}, m < 256 → (b = UInt8.ofNat m ↔ b.toNat = m) := fun hm => by
    rw [← UInt8.toNat_inj, UInt8.toNat_ofNat', Nat.mod_eq_of_lt hm]
  have hlt := b.toNat_lt
  constructor
  · intro h
    simp only [lead?] at h
    split_ifs at h <;> obtain ⟨rfl, rfl, rfl⟩ := by simpa using h
    · exact .inl ⟨rfl, rfl, by omega, (hb (by omega)).mpr rfl⟩
    · exact .inr (.inl ⟨rfl, rfl, by omega, (hb (by omega)).mpr (by omega)⟩)
    · exact .inr (.inr (.inl ⟨rfl, rfl, by omega, (hb (by omega)).mpr (by omega)⟩))
    · exact .inr (.inr (.inr ⟨rfl, rfl, by omega, (hb (by omega)).mpr (by omega)⟩))
  · have hif : ∀ {P : Prop} [Decidable P] {x y z : Option (Nat × Nat × Nat)},
        ¬ P → y = z → (if P then x else y) = z := fun hP hy => (if_neg hP).trans hy
    rintro (⟨rfl, rfl, hp, h⟩ | ⟨rfl, rfl, hp, h⟩ | ⟨rfl, rfl, hp, h⟩ | ⟨rfl, rfl, hp, h⟩) <;>
      rw [hb (by omega)] at h <;> rw [lead?, h]
    · exact if_pos hp
    · exact hif (by omega) (hif (by omega) ((if_pos (by omega)).trans (by simp)))
    · exact hif (by omega) (hif (by omega) (hif (by omega) ((if_pos (by omega)).trans (by simp))))
    · exact hif (by omega) (hif (by omega) (hif (by omega) (hif (by omega)
        ((if_pos (by omega)).trans (by simp)))))

theorem scalarIn?_eq_some_iff {lo n : Nat} : scalarIn? lo n = some c ↔ lo ≤ n ∧ c.toNat = n := by
  rw [← scalar?_eq_some_iff, scalarIn?, scalar?]
  by_cases hlo : lo ≤ n <;> simp [hlo]

theorem continuations_succ_iff {k n m : Nat} :
    continuations (k + 1) n bs = some (m, rest) ↔
      ∃ d < 64, ∃ bs', bs = trailing d :: bs' ∧
        continuations k (64 * n + d) bs' = some (m, rest) := by
  constructor
  · intro h
    cases bs with
    | nil => cases h
    | cons b bs =>
      obtain ⟨d, hbyte, hrest⟩ := Option.bind_eq_some_iff.mp h
      obtain ⟨hd, rfl⟩ := continuation?_eq_some_iff.mp hbyte
      exact ⟨d, hd, bs, rfl, hrest⟩
  · rintro ⟨d, hd, bs', rfl, h⟩
    rw [continuations, continuation?_eq_some_iff.mpr ⟨hd, rfl⟩, Option.bind_some, h]

theorem continuations_zero_iff {n m : Nat} :
    continuations 0 n bs = some (m, rest) ↔ n = m ∧ bs = rest := by
  rw [continuations, Option.some.injEq, Prod.mk.injEq]

theorem decodeChar_cons_iff :
    decodeChar (b :: bs) = some (c, rest) ↔
      ∃ lo k p, lead? b = some (lo, k, p) ∧ continuations k p bs = some (c.toNat, rest) ∧
        lo ≤ c.toNat := by
  constructor
  · intro h
    obtain ⟨⟨lo, k, p⟩, hlead, h⟩ := Option.bind_eq_some_iff.mp h
    obtain ⟨⟨n, r⟩, hn, h⟩ := Option.bind_eq_some_iff.mp h
    obtain ⟨c', hc, h⟩ := Option.map_eq_some_iff.mp h
    obtain ⟨rfl, rfl⟩ := Prod.mk.inj h
    obtain ⟨hlo, rfl⟩ := scalarIn?_eq_some_iff.mp hc
    exact ⟨lo, k, p, hlead, hn, hlo⟩
  · rintro ⟨lo, k, p, hlead, hn, hlo⟩
    simp only [decodeChar, hlead, Option.bind_some, hn, scalarIn?_eq_some_iff.mpr ⟨hlo, rfl⟩,
      Option.map_some]

theorem decodeChar_iff_encodes :
    decodeChar bs = some (c, rest) ↔ ∃ w, Encodes c.toNat w ∧ bs = w ++ rest := by
  constructor
  · intro h
    cases bs with
    | nil => cases h
    | cons b bs =>
      obtain ⟨lo, k, p, hlead, hk, hlo⟩ := decodeChar_cons_iff.mp h
      rcases lead?_eq_some_iff.mp hlead with ⟨rfl, rfl, hp, rfl⟩ | ⟨rfl, rfl, hp, rfl⟩ |
        ⟨rfl, rfl, hp, rfl⟩ | ⟨rfl, rfl, hp, rfl⟩
      · obtain ⟨rfl, rfl⟩ := continuations_zero_iff.mp hk
        exact ⟨_, .one hp, rfl⟩
      · obtain ⟨d, hd, t, rfl, h0⟩ := continuations_succ_iff.mp hk
        obtain ⟨hn, rfl⟩ := continuations_zero_iff.mp h0
        exact ⟨_, .two hp hd hlo hn.symm, rfl⟩
      · obtain ⟨d₁, h₁, t, rfl, h1⟩ := continuations_succ_iff.mp hk
        obtain ⟨d₂, h₂, u, rfl, h0⟩ := continuations_succ_iff.mp h1
        obtain ⟨hn, rfl⟩ := continuations_zero_iff.mp h0
        exact ⟨_, .three hp h₁ h₂ hlo hn.symm, rfl⟩
      · obtain ⟨d₁, h₁, t, rfl, h2⟩ := continuations_succ_iff.mp hk
        obtain ⟨d₂, h₂, u, rfl, h1⟩ := continuations_succ_iff.mp h2
        obtain ⟨d₃, h₃, v, rfl, h0⟩ := continuations_succ_iff.mp h1
        obtain ⟨hn, rfl⟩ := continuations_zero_iff.mp h0
        exact ⟨_, .four hp h₁ h₂ h₃ hlo hn.symm, rfl⟩
  · rintro ⟨w, hw, rfl⟩
    cases hw with
    | one h =>
      exact decodeChar_cons_iff.mpr ⟨0, 0, c.toNat, lead?_eq_some_iff.mpr (.inl ⟨rfl, rfl, h, rfl⟩),
        rfl, Nat.zero_le _⟩
    | two hp hd hlo hn =>
      refine decodeChar_cons_iff.mpr ⟨0x80, 1, _,
        lead?_eq_some_iff.mpr (.inr (.inl ⟨rfl, rfl, hp, rfl⟩)), ?_, hlo⟩
      exact continuations_succ_iff.mpr ⟨_, hd, _, rfl, continuations_zero_iff.mpr ⟨hn.symm, rfl⟩⟩
    | three hp h₁ h₂ hlo hn =>
      refine decodeChar_cons_iff.mpr ⟨0x800, 2, _,
        lead?_eq_some_iff.mpr (.inr (.inr (.inl ⟨rfl, rfl, hp, rfl⟩))), ?_, hlo⟩
      exact continuations_succ_iff.mpr ⟨_, h₁, _, rfl, continuations_succ_iff.mpr
        ⟨_, h₂, _, rfl, continuations_zero_iff.mpr ⟨hn.symm, rfl⟩⟩⟩
    | four hp h₁ h₂ h₃ hlo hn =>
      refine decodeChar_cons_iff.mpr ⟨0x10000, 3, _,
        lead?_eq_some_iff.mpr (.inr (.inr (.inr ⟨rfl, rfl, hp, rfl⟩))), ?_, hlo⟩
      exact continuations_succ_iff.mpr ⟨_, h₁, _, rfl, continuations_succ_iff.mpr
        ⟨_, h₂, _, rfl, continuations_succ_iff.mpr
          ⟨_, h₃, _, rfl, continuations_zero_iff.mpr ⟨hn.symm, rfl⟩⟩⟩⟩

theorem encodes_iff : Encodes c.toNat w ↔ w = charBytes c := by
  have hv : c.val.toNat = c.toNat := rfl
  have hlt : c.toNat < 0x110000 := by
    rcases c.valid with h | ⟨-, h⟩
    · exact Nat.lt_trans h (by decide)
    · exact h
  simp only [charBytes, String.utf8EncodeChar, hv]
  constructor
  · generalize c.toNat = n at *
    intro h
    cases h with
    | one h => rw [if_pos (by omega)]
    | @two p d hp hd hlo hn =>
      rw [if_neg (by omega), if_pos (by omega), show n / 64 % 32 = p by omega,
        show n % 64 = d by omega]
      rfl
    | @three p d₁ d₂ hp h₁ h₂ hlo hn =>
      rw [if_neg (by omega), if_neg (by omega), if_pos (by omega), show n / 4096 % 16 = p by omega,
        show n / 64 % 64 = d₁ by omega, show n % 64 = d₂ by omega]
      rfl
    | @four p d₁ d₂ d₃ hp h₁ h₂ h₃ hlo hn =>
      rw [if_neg (by omega), if_neg (by omega), if_neg (by omega),
        show n / 262144 % 8 = p by omega, show n / 4096 % 64 = d₁ by omega,
        show n / 64 % 64 = d₂ by omega, show n % 64 = d₃ by omega]
      rfl
  · rintro rfl
    split_ifs with h₁ h₂ h₃
    · exact .one (by omega)
    · exact .two (by omega) (by omega) (by omega) (by omega)
    · exact .three (by omega) (by omega) (by omega) (by omega) (by omega)
    · exact .four (by omega) (by omega) (by omega) (by omega) (by omega) (by omega)

theorem decodeChar_eq_some_iff : decodeChar bs = some (c, rest) ↔ bs = charBytes c ++ rest := by
  simp only [decodeChar_iff_encodes, encodes_iff, exists_eq_left]

/-! ## Texts -/


theorem bytesOf_cons (c : Char) (s : List Char) : bytesOf (c :: s) = charBytes c ++ bytesOf s := rfl

theorem bytesOf_append (s t : List Char) : bytesOf (s ++ t) = bytesOf s ++ bytesOf t :=
  List.flatMap_append

theorem length_charBytes (c : Char) : (charBytes c).length = c.utf8Size :=
  String.length_utf8EncodeChar c

theorem byteLength_eq (s : List Char) : byteLength s = (bytesOf s).length := by
  have hfrom : ∀ n, s.foldl (fun n c => n + c.utf8Size) n = n + (bytesOf s).length := by
    induction s with
    | nil => exact fun n => rfl
    | cons c s ih =>
      intro n
      rw [List.foldl_cons, ih, bytesOf_cons, List.length_append, length_charBytes, Nat.add_assoc]
  exact (hfrom 0).trans (Nat.zero_add _)

theorem decodeBytes_append (s : List Char) (rest : List UInt8) :
    decodeBytes (bytesOf s ++ rest) = (s ++ (decodeBytes rest).1, (decodeBytes rest).2) := by
  induction s with
  | nil => rfl
  | cons c s ih =>
    have hchar : decodeChar (bytesOf (c :: s) ++ rest) = some (c, bytesOf s ++ rest) := by
      rw [decodeChar_eq_some_iff, bytesOf_cons, List.append_assoc]
    rw [decodeBytes]
    split
    · rename_i h
      rw [hchar] at h
      cases h
    · rename_i h
      rw [hchar] at h
      obtain ⟨rfl, rfl⟩ := Prod.mk.inj (Option.some.inj h)
      rw [ih]
      rfl

theorem bytesOf_decodeBytes (bs : List UInt8) :
    bytesOf (decodeBytes bs).1 ++ (decodeBytes bs).2 = bs := by
  fun_induction decodeBytes bs with
  | case1 => rfl
  | case2 bs c rest h s r hrest ih =>
    rw [hrest] at ih
    rw [bytesOf_cons, List.append_assoc, ih, decodeChar_eq_some_iff.mp h]

/-- The decoded prefix is the longest one that is text. -/
theorem isPrefix_decodeBytes (h : bytesOf s <+: bs) : s <+: (decodeBytes bs).1 := by
  obtain ⟨rest, rfl⟩ := h
  rw [decodeBytes_append]
  exact List.prefix_append _ _

theorem decodeBytes_of_decodeChar (s : List Char) (h : decodeChar rest = none) :
    decodeBytes (bytesOf s ++ rest) = (s, rest) := by
  have hrest : decodeBytes rest = ([], rest) := by
    rw [decodeBytes]
    split
    · rfl
    · rename_i hsome
      rw [h] at hsome
      cases hsome
  rw [decodeBytes_append, hrest, List.append_nil]

theorem decodeBytes_bytesOf (s : List Char) : decodeBytes (bytesOf s) = (s, []) := by
  have h := decodeBytes_of_decodeChar s (show decodeChar [] = none from rfl)
  rwa [List.append_nil] at h

/-! ## Ends of texts -/

/-- A cut between two characters leaves what stands behind it. -/
theorem dropBytes_append (s t : List Char) : dropBytes (bytesOf s).length (s ++ t) = t := by
  induction s with
  | nil => cases t <;> rfl
  | cons c s ih =>
    have hpos := c.utf8Size_pos
    rw [bytesOf_cons, List.length_append, length_charBytes, List.cons_append, dropBytes,
      if_neg (by omega), if_pos (by omega), Nat.add_sub_cancel_left, ih]

/-- A cut inside a character leaves nothing. -/
theorem dropBytes_eq_nil {skip : Nat}
    (h : ∀ front back, s = front ++ back → (bytesOf front).length ≠ skip) :
    dropBytes skip s = [] := by
  induction s generalizing skip with
  | nil => rfl
  | cons c s ih =>
    rw [dropBytes, if_neg fun h0 => h [] (c :: s) rfl h0.symm]
    split
    · rename_i hle
      refine ih fun front back hs hlen => h (c :: front) back (congrArg (List.cons c) hs) ?_
      rw [bytesOf_cons, List.length_append, length_charBytes, hlen]
      omega
    · rfl

end Outline.Text
