import Mathlib.Data.Rat.Floor
import Outline.Proofs.Number.Digits
import Outline.Proofs.Text.Lines
import Outline.Value.Target

/-!
# Reading integers

A number is read as an integer type by its value alone. Whatever kind it is stored as, the read
gives the number if the type has it, and a mismatch otherwise; nothing wraps and nothing is
rounded. The text of an integer is read as the integer is.
-/

namespace Outline

namespace Decimal

/-- The number that the parts stand for. -/
def toRat (d : Decimal) : ℚ :=
  (if d.negative then -(d.mantissa : ℚ) else d.mantissa) / 10 ^ d.scale

theorem toRat_eq_intCast_iff (d : Decimal) (n : Int) :
    d.toRat = n ↔ (if d.negative then -(d.mantissa : Int) else d.mantissa) = n * 10 ^ d.scale := by
  have hpow : (10 : ℚ) ^ d.scale ≠ 0 := pow_ne_zero _ (by norm_num)
  rw [toRat, div_eq_iff hpow]
  split <;> norm_cast

/-- A decimal number is taken for an integer exactly if it is one. -/
theorem toInt?_eq_some_iff (d : Decimal) (n : Int) : d.toInt? = some n ↔ d.toRat = n := by
  have hne : (10 : Int) ^ d.scale ≠ 0 := pow_ne_zero _ (by decide)
  have hpow : Nat.pow 10 d.scale = 10 ^ d.scale := rfl
  rw [toRat_eq_intCast_iff, toInt?, hpow]
  by_cases hdvd : 10 ^ d.scale ∣ d.mantissa
  · obtain ⟨q, hq⟩ := hdvd
    have hdiv : (d.mantissa / (10 ^ d.scale : Nat) : Int) = q := by
      rw [hq]
      push_cast
      exact Int.mul_ediv_cancel_left _ hne
    have hmantissa : (d.mantissa : Int) = q * 10 ^ d.scale := by
      rw [hq]
      push_cast
      ring
    rw [if_pos (Nat.mod_eq_zero_of_dvd ⟨q, hq⟩), hdiv, hmantissa, Option.some.injEq]
    split
    · rw [← Int.neg_mul, mul_left_inj' hne]
    · rw [mul_left_inj' hne]
  · rw [if_neg fun hmod => hdvd (Nat.dvd_of_mod_eq_zero hmod)]
    simp only [reduceCtorEq, false_iff]
    intro heq
    have hdvd' : ((10 ^ d.scale : Nat) : Int) ∣ d.mantissa := by
      push_cast
      split at heq
      · exact (Int.dvd_neg).mp ⟨n, heq.trans (Int.mul_comm _ _)⟩
      · exact ⟨n, heq.trans (Int.mul_comm _ _)⟩
    exact hdvd (Int.natCast_dvd_natCast.mp hdvd')

end Decimal

namespace Value

/-- The value is a number, and that number is `n`. -/
inductive StandsFor : Value → Int → Prop
  | integer (i : Integer) : StandsFor (.integer i) i.val
  | decimal {d : Decimal} {n : Int} (h : d.toRat = n) : StandsFor (.decimal d) n

theorem toInt?_eq_some_iff {v : Value} {n : Int} : v.toInt? = some n ↔ v.StandsFor n := by
  constructor
  · intro h
    cases v with
    | integer i =>
      obtain rfl := Option.some.inj h
      exact .integer i
    | decimal d => exact .decimal ((d.toInt?_eq_some_iff n).mp h)
    | _ => cases h
  · rintro (i | h)
    · rfl
    · exact (Decimal.toInt?_eq_some_iff _ n).mpr h

end Value

namespace Target

/-- The integer types that values are read as: one for every kind of integers, and one for the
counts and indices of a 64-bit machine. -/
inductive IntegerType
  | kind (k : Integer.Kind)
  | size
  deriving DecidableEq, Repr

namespace IntegerType

def bits : IntegerType → Nat
  | kind .byte => 8
  | kind .short | kind .ushort => 16
  | kind .int | kind .uint => 32
  | kind .long | kind .ulong | size => 64

def signed : IntegerType → Bool
  | kind .short | kind .int | kind .long => true
  | _ => false

/-- The type has the number: half of its words stand for negative numbers if it has a sign, and
none otherwise. -/
def Fits (T : IntegerType) (n : Int) : Prop :=
  (if T.signed then -2 ^ (T.bits - 1) else 0) ≤ n ∧
    n < 2 ^ (if T.signed then T.bits - 1 else T.bits)

instance (T : IntegerType) (n : Int) : Decidable (T.Fits n) := inferInstanceAs (Decidable (_ ∧ _))

def target : IntegerType → Target Int
  | kind k => Target.integer k
  | size => Target.size

/-- A type has the numbers of a range around zero, and reads that range. -/
theorem exists_integers (T : IntegerType) :
    ∃ lo hi, T.target = integers T.target.name lo hi ∧ lo ≤ 0 ∧ 0 ≤ hi ∧
      ∀ n, T.Fits n ↔ lo ≤ n ∧ n ≤ hi := by
  have hsucc : ∀ {n b : Int}, n < b ↔ n ≤ b - 1 := by omega
  cases T with
  | kind k =>
    refine ⟨k.min, k.max, rfl, k.min_le_zero, k.zero_le_max, fun n => ?_⟩
    cases k <;> exact and_congr_right fun _ => hsucc
  | size => exact ⟨0, Nat.pow 2 64 - 1, rfl, by decide, by decide, fun n =>
      and_congr_right fun _ => hsucc⟩

end IntegerType

variable {T : IntegerType} {v : Value}

theorem read_eq_orMismatch (hv : ∀ s, v ≠ .string s) :
    T.target.read v = orMismatch T.target.name v (v.toInt?.filter fun n => T.Fits n) := by
  obtain ⟨lo, hi, htarget, -, -, hfits⟩ := T.exists_integers
  have hread : (integers T.target.name lo hi).read v = orMismatch T.target.name v
      (v.toInt?.filter fun n => lo ≤ n && n ≤ hi) := by
    cases v with
    | string s => exact absurd rfl (hv s)
    | _ => rfl
  rw [htarget, hread]
  simp only [hfits, Bool.decide_and]
  rfl

theorem read_of_standsFor {n : Int} (h : v.StandsFor n) :
    T.target.read v = if T.Fits n then .ok n else mismatch T.target.name v := by
  have hv : ∀ s, v ≠ .string s := by
    rintro s rfl
    cases h
  rw [read_eq_orMismatch hv, Value.toInt?_eq_some_iff.mpr h]
  by_cases hn : T.Fits n <;> simp [hn, Option.filter, orMismatch]

theorem read_of_fraction {d : Decimal} (h : Int.fract d.toRat ≠ 0) :
    T.target.read (.decimal d) = mismatch T.target.name (.decimal d) := by
  have hnone : d.toInt? = none := by
    rw [Option.eq_none_iff_forall_ne_some]
    intro n hn
    rw [Decimal.toInt?_eq_some_iff] at hn
    exact h (hn ▸ Int.fract_intCast n)
  rw [read_eq_orMismatch fun s => Value.noConfusion]
  simp [Value.toInt?, hnone, orMismatch]

theorem read_text (i : Integer) :
    T.target.read (.string i.text) =
      if T.Fits i.val then .ok i.val else mismatch T.target.name (.string i.text) := by
  obtain ⟨lo, hi, htarget, hlo, hhi, hfits⟩ := T.exists_integers
  have htrim : Text.trim i.text.toList = Number.intText i.val := by
    rw [Integer.text, String.toList_ofList, Text.trim_of_not_blank Number.isBlank_of_mem_intText]
  have hread : (integers T.target.name lo hi).read (.string i.text) =
      orMismatch T.target.name (.string i.text)
        (Integer.read 10 lo hi (Number.intText i.val)).toOption := by
    rw [← htrim]
    rfl
  rw [htarget, hread]
  have hiff : ∀ m,
      Integer.read 10 lo hi (Number.intText i.val) = .ok m ↔ m = i.val ∧ T.Fits i.val :=
    fun m => (Integer.read_intText_iff hlo hhi).trans (and_congr_right fun _ => (hfits i.val).symm)
  by_cases hn : T.Fits i.val
  · rw [if_pos hn, (hiff _).mpr ⟨rfl, hn⟩]
    rfl
  · rw [if_neg hn]
    cases hr : Integer.read 10 lo hi (Number.intText i.val) with
    | ok m => exact absurd ((hiff m).mp hr).2 hn
    | error e => rfl

/-- An integer read gives the number that is stored, if the type has it, and a mismatch otherwise;
that is so for integers of any kind, for decimal numbers of any scale, and for the text of an
integer. A decimal number with a fraction is a mismatch. -/
theorem get_integer (T : IntegerType) (f : Forest) (id : NodeId) :
    (∀ v n, f.value id = some v → v.StandsFor n →
      T.target.get f id =
        if T.Fits n then .ok n else .error (.typeMismatch T.target.name v.hint)) ∧
    (∀ d, f.value id = some (.decimal d) → Int.fract d.toRat ≠ 0 →
      T.target.get f id = .error (.typeMismatch T.target.name "decimal")) ∧
    (∀ (i : Integer) s, (Value.integer i).text? = some s → f.value id = some (.string s) →
      T.target.get f id =
        if T.Fits i.val then .ok i.val else .error (.typeMismatch T.target.name "string")) := by
  refine ⟨fun v n hv hn => ?_, fun d hv hd => ?_, fun i s hs hv => ?_⟩
  · rw [get, hv]
    exact read_of_standsFor hn
  · rw [get, hv]
    exact read_of_fraction hd
  · obtain rfl := Option.some.inj hs
    rw [get, hv]
    exact read_text i

/-- A number below zero as a type without a sign, the last byte with zeros behind the point, half a
number, and the text of the least number of its kind. -/
theorem get_integer_edges :
    let f := ((((Forest.empty.create "a" (some (.integer ⟨.short, -1, by decide⟩))).2.create "b"
      (some (.decimal ⟨false, 25500, 2, by decide, by decide⟩))).2.create "c"
      (some (.decimal ⟨true, 25, 1, by decide, by decide⟩))).2.create "d"
      (some (.string "-9223372036854775808"))).2
    (IntegerType.kind .ushort).target.get f 1 = .error (.typeMismatch "ushort" "short") ∧
      (IntegerType.kind .byte).target.get f 2 = .ok 255 ∧
      IntegerType.size.target.get f 3 = .error (.typeMismatch "usize" "decimal") ∧
      (IntegerType.kind .long).target.get f 4 = .ok (-9223372036854775808) := by
  intro f
  have hminus := (get_integer (.kind .ushort) f 1).1 _ _ rfl (.integer ⟨.short, -1, by decide⟩)
  have hbyte := (get_integer (.kind .byte) f 2).1 _ 255 rfl (.decimal (by norm_num [Decimal.toRat]))
  have hhalf := (get_integer .size f 3).2.1 _ rfl (by norm_num [Decimal.toRat, Int.fract])
  have htext := (get_integer (.kind .long) f 4).2.2 ⟨.long, -9223372036854775808, by decide⟩ _
    (by decide +kernel) rfl
  exact ⟨hminus, hbyte, hhalf, htext⟩

end Target
end Outline
