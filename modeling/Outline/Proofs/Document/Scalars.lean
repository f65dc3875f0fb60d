import Outline.Proofs.Document.Builds
import Outline.Proofs.Encoding.Base64
import Outline.Proofs.Encoding.Guid
import Outline.Proofs.Number.Decimal
import Outline.Proofs.Time.Duration

/-!
# The built-in scalars

Every built-in kind is read and written under its own tag, and the tag can stand bare. So a
scalar is read back as soon as its text is a literal of its kind. That is so for every value of
an exact kind, and so for what a literal of such a kind stands for, however it was spelled.
-/

namespace Outline.Document

open Registry

variable {r : Registry} {k : Value.Kind} {v v' : Value}

/-- The registry reads and writes the values of a kind as the built-in types do. -/
structure Knows (r : Registry) (k : Value.Kind) : Prop where
  reads : r.readers.lookup k.tag = some (scalarReader k)
  writes : r.writers.lookup (.builtin k) = some (k.tag, scalarWriter)

theorem knows_builtin (hk : k ≠ .node) (strict : Bool) : Knows { builtin with strict } k := by
  cases k with
  | node => exact absurd rfl hk
  | integer k => cases k <;> exact ⟨rfl, rfl⟩
  | _ => exact ⟨rfl, rfl⟩

theorem lookup_insert_of_ne {α β : Type} [DecidableEq α] {key key' : α} (h : key' ≠ key)
    (entry : β) (table : List (α × β)) :
    (Registry.insert key entry table).lookup key' = table.lookup key' := by
  have hkey : (key' == key) = false := beq_eq_false_iff_ne.mpr h
  have hkept : (table.filter (·.1 ≠ key)).lookup key' = table.lookup key' := by
    induction table with
    | nil => rfl
    | cons x table ih =>
      by_cases hx : x.1 = key
      · rw [List.filter_cons_of_neg (by simpa using hx), List.lookup_cons, hx, hkey]
        exact ih
      · rw [List.filter_cons_of_pos (by simpa using hx), List.lookup_cons, List.lookup_cons, ih]
  rw [Registry.insert, List.lookup_cons, hkey]
  exact hkept

theorem Knows.register (h : Knows r k) {type : Value.TypeKey} {tag : String} (write : Writer)
    (read : Reader) (htype : .builtin k ≠ type) (htag : k.tag ≠ tag) :
    Knows (r.register type tag write read) k where
  reads := (lookup_insert_of_ne htag _ _).trans h.reads
  writes := (lookup_insert_of_ne htype _ _).trans h.writes

theorem bareTag_tag (k : Value.Kind) : Token.BareTag k.tag.toList := by
  have hstart : ∀ s : List Char, s.head? ≠ some '@' → ∀ r, s ≠ '@' :: '"' :: r := by
    rintro s hs r rfl
    exact hs rfl
  cases k with
  | integer k =>
    cases k <;> exact ⟨List.all_eq_true.mp rfl, rfl, by decide, by decide, hstart _ (by decide)⟩
  | _ => exact ⟨List.all_eq_true.mp rfl, rfl, by decide, by decide, hstart _ (by decide)⟩

theorem tag_ne_empty (k : Value.Kind) : k.tag ≠ "" := by
  cases k with
  | integer k => cases k <;> decide
  | _ => decide

theorem tag_ne_string (hk : k ≠ .string) : k.tag ≠ "string" := by
  cases k with
  | string => exact absurd rfl hk
  | integer k => cases k <;> decide
  | _ => decide

theorem Knows.convertWithin (h : Knows r k) (n : Nat) (raw : String) (f : Forest) :
    r.convertWithin (n + 1) k.tag raw f = (readScalar k raw, f) := by
  rw [Registry.convertWithin, h.reads]
  rfl

theorem Knows.describeWith (h : Knows r k) (hv : v.kind? = some k) (children : NodeId → String) :
    r.describeWith children v = (k.tag, v.display) := by
  have htype : v.type = .builtin k := by
    cases v <;> simp_all [Value.type, Value.kind?]
  rw [Registry.describeWith, Registry.lookup, htype, h.writes]
  rfl

theorem convertWithin_builtin (hk : k ≠ .node) (n : Nat) (raw : String) (f : Forest) :
    builtin.convertWithin (n + 1) k.tag raw f = (readScalar k raw, f) :=
  (knows_builtin hk false).convertWithin n raw f

theorem describeWith_builtin (hv : v.kind? = some k) (hk : k ≠ .node)
    (children : NodeId → String) : builtin.describeWith children v = (k.tag, v.display) :=
  (knows_builtin hk false).describeWith hv children

/-- A scalar is read back if its text is a literal for an equal value. -/
theorem readsBack_builtin (hv : v.kind? = some k) (hk : k ≠ .node) (hs : k ≠ .string)
    (hread : readScalar k v.display = .ok v') (heq : v.equal v' = true) :
    ReadsBack builtin v v' := by
  have hdescribe := describeWith_builtin hv hk
  have hpair : pair builtin v = (k.tag, v.display) := hdescribe _
  refine ⟨⟨?_, fun children => ?_, ?_, ?_, ?_⟩, fun n f _ => ?_, heq⟩
  · rintro c rfl
    exact hk (Option.some.inj hv).symm
  · rw [hdescribe, hpair]
  · rw [hpair]
    exact tag_ne_empty k
  · rw [hpair]
    exact tag_ne_string hs
  · rw [hpair]
    exact bareTag_tag k
  · rw [hpair, convertWithin_builtin hk, hread]

/-! ## Values of literals -/

/-- What a value is once it has been written and read. -/
def reread : Value → Value
  | .decimal d => .decimal d.reread
  | v => v

/-- A decimal zero with a sign. -/
def SignedZero : Value → Prop
  | .decimal d => d.NegativeZero
  | _ => False

instance : DecidablePred SignedZero
  | .decimal d => inferInstanceAs (Decidable d.NegativeZero)
  | .string _ | .bool _ | .integer _ | .double _ | .float _ | .char _ | .bytes _ | .date _
  | .time _ | .guid _ | .expression _ | .node _ | .custom _ => isFalse id

/-- A value of a kind that has one text for each value, up to the sign of a zero. -/
def Exact (v : Value) : Prop := (∃ s, v = .string s) ∨ ReadsBack builtin v (reread v)

theorem Exact.readable (h : Exact v) : Readable builtin (fun v v' => v' = reread v) v :=
  h.imp_right fun h => h.readsTo rfl

theorem Exact.plainTag (h : Exact v) : Token.PlainTag (pair builtin v).1 :=
  h.readable.plainTag standard_builtin

theorem Exact.steady (h : Exact v) : Steady builtin v := h.readable.steady standard_builtin

theorem exact_string (s : String) : Exact (.string s) := .inl ⟨s, rfl⟩

/-- The tags of numbers that are rounded, of dates, and of expressions. -/
def inexactTags : List String := ["x", "date", "double", "float", "single"]

/-! ## Texts are literals -/

/-- A value of an exact kind is read back from its text, up to the sign of a zero. -/
theorem readScalar_display (hv : v.kind? = some k) (hk : k.tag ∉ inexactTags) (hnode : k ≠ .node)
    (htime : ∀ d, v = .time d → d.WholeTicks) : readScalar k v.display = .ok (reread v) := by
  cases v with
  | double | float | date | expression =>
    obtain rfl := Option.some.inj hv
    exact absurd (by decide) hk
  | node =>
    obtain rfl := Option.some.inj hv
    exact absurd rfl hnode
  | custom => cases hv
  | string s =>
    obtain rfl := Option.some.inj hv
    rfl
  | bool b =>
    obtain rfl := Option.some.inj hv
    cases b <;> rfl
  | integer i =>
    obtain rfl := Option.some.inj hv
    simp only [readScalar, Value.display, Value.text?, Option.getD_some, i.parse_text]
    rfl
  | decimal d =>
    obtain rfl := Option.some.inj hv
    simp only [readScalar, Value.display, Value.text?, Option.getD_some, d.parse_text]
    rfl
  | char c =>
    obtain rfl := Option.some.inj hv
    simp [readScalar, Value.display, Value.text?, reread]
  | bytes bytes =>
    obtain rfl := Option.some.inj hv
    simp only [readScalar, Value.display, Value.text?, Option.getD_some, Base64.decode_text]
    rfl
  | time d =>
    obtain rfl := Option.some.inj hv
    obtain ⟨hmin, hmax, hd⟩ := (htime d rfl).ofTicks?_toTicks
    simp only [readScalar, Value.display, Value.text?, Option.getD_some, Duration.text,
      String.toList_ofList, Integer.read_intText (k := .long) ⟨hmin, hmax⟩, refused, bind,
      Except.bind, hd]
    rfl
  | guid g =>
    obtain rfl := Option.some.inj hv
    simp only [readScalar, Value.display, Value.text?, Option.getD_some, g.parse_text]
    rfl

theorem kind?_reread (v : Value) : (reread v).kind? = v.kind? := by cases v <;> rfl

theorem equal_reread (hv : v.kind? = some k) (hk : k.tag ∉ inexactTags) :
    v.equal (reread v) = true := by
  cases v with
  | double | float =>
    obtain rfl := Option.some.inj hv
    exact absurd (by decide) hk
  | decimal d => exact d.equal_reread
  | _ => simp [Value.equal, reread]

theorem reread_eq (v : Value) : reread v = v ↔ ¬ SignedZero v := by
  cases v with
  | decimal d =>
    obtain ⟨negative, mantissa, scale, _, _⟩ := d
    cases negative <;> simp [reread, Decimal.reread, SignedZero, Decimal.NegativeZero]
  | _ => exact iff_of_true rfl id

/-- A registry that knows an exact kind reads the text that it writes for a value of that kind,
under the tag that it writes, and no forest is changed. The value that is read is equal to the
written one; only a decimal zero with a sign is read as another decimal number. -/
theorem convert_describe (hr : Knows r k) (hv : v.kind? = some k) (hk : k.tag ∉ inexactTags)
    (hnode : k ≠ .node) (htime : ∀ d, v = .time d → d.WholeTicks) (f g : Forest) :
    ∃ v', r.convert (describe r f v).1 (describe r f v).2 g = (.ok v', g) ∧
      v'.kind? = some k ∧ v.equal v' = true ∧ (v' = v ↔ ¬ SignedZero v) := by
  refine ⟨reread v, ?_, (kind?_reread v).trans hv, equal_reread hv hk, reread_eq v⟩
  rw [describe, hr.describeWith hv, Registry.convert, hr.convertWithin,
    readScalar_display hv hk hnode htime]

/-- The most negative number of ticks and a zero with a sign, for a strict registry that reads a
foreign type, too. -/
theorem convert_describe_limits :
    let r := strictBuiltin.registerType (.named "Celsius") "celsius" (·.display)
      fun raw => .ok ⟨.named "Celsius", raw⟩
    let d : Duration := ⟨-922337203685477580800, by decide⟩
    let zero : Decimal := ⟨true, 0, 2, by decide, by decide⟩
    describe r .empty (.time d) = ("time", "-9223372036854775808") ∧
      describe r .empty (.decimal zero) = ("decimal", "-0.00") ∧
      (∃ v', r.convert "time" "-9223372036854775808" .empty = (.ok v', .empty) ∧ v' = .time d) ∧
      ∃ v', r.convert "decimal" "-0.00" .empty = (.ok v', .empty) ∧
        (Value.decimal zero).equal v' = true ∧ v' ≠ .decimal zero := by
  intro r d zero
  have hknows : ∀ k : Value.Kind, k ≠ .node → k.tag ≠ "celsius" → Knows r k := fun k hnode hk =>
    (knows_builtin hnode true).register _ _ (by simp) hk
  have htime : describe r .empty (.time d) = ("time", "-9223372036854775808") := by decide +kernel
  have hdecimal : describe r .empty (.decimal zero) = ("decimal", "-0.00") := by decide +kernel
  have hwhole : ∀ d', Value.time d = .time d' → d'.WholeTicks := by
    rintro _ ⟨⟩
    exact ⟨Duration.minTicks, by decide, by decide, by decide⟩
  obtain ⟨v, hv, -, -, hsame⟩ := convert_describe (hknows .time (by decide) (by decide)) rfl
    (by decide) (by decide) hwhole .empty .empty
  obtain ⟨w, hw, -, hequal, hother⟩ := convert_describe (hknows .decimal (by decide) (by decide))
    (v := .decimal zero) rfl (by decide) (by decide) nofun .empty .empty
  rw [htime] at hv
  rw [hdecimal] at hw
  exact ⟨htime, hdecimal, ⟨v, hv, hsame.mpr (by decide)⟩, w, hw, hequal,
    hother.not.mpr (by decide)⟩

/-! ## Literals are texts -/

theorem exact_of_reads (hv : v.kind? = some k) (hk : k.tag ∉ inexactTags) (hnode : k ≠ .node)
    (htime : ∀ d, v = .time d → d.WholeTicks) : Exact v := by
  by_cases hs : k = .string
  · subst hs
    obtain ⟨s, rfl⟩ : ∃ s, v = .string s := by cases v <;> simp_all [Value.kind?]
    exact exact_string s
  · exact .inr (readsBack_builtin hv hnode hs (readScalar_display hv hk hnode htime)
      (equal_reread hv hk))

theorem exact_decimal (d : Decimal) : Exact (.decimal d) :=
  exact_of_reads (k := .decimal) rfl (by decide) (by decide) nofun

theorem readScalar_time {raw : String} (h : readScalar .time raw = .ok v) :
    ∃ t d, Integer.Kind.long.Holds t ∧ Duration.ofTicks? t = some d ∧ v = .time d := by
  simp only [readScalar] at h
  cases hread : Integer.Kind.long.read raw.toList with
  | error e =>
    rw [hread] at h
    cases h
  | ok t =>
    rw [hread] at h
    cases hd : Duration.ofTicks? t with
    | none =>
      simp only [refused, bind, Except.bind, hd] at h
      cases h
    | some d =>
      simp only [refused, bind, Except.bind, hd] at h
      cases h
      exact ⟨t, d, Integer.holds_of_read hread, hd, rfl⟩

theorem kind?_of_readScalar {raw : String} (h : readScalar k raw = .ok v) : v.kind? = some k := by
  have hmap : ∀ {α : Type} {x : Except Error α} {mk : α → Value}, x.map mk = .ok v →
      ∃ a, v = mk a := by
    intro α x mk h
    cases x with
    | error => cases h
    | ok a => exact ⟨a, (Except.ok.inj h).symm⟩
  cases k with
  | node => cases h
  | string | bool =>
    cases h
    rfl
  | integer kind =>
    cases hparse : Integer.parse kind raw.toList with
    | error e =>
      simp only [readScalar, hparse] at h
      cases h
    | ok i =>
      simp only [readScalar, hparse, refused] at h
      cases h
      exact congrArg (some ∘ Value.Kind.integer) (Integer.kind_of_parse hparse)
  | decimal | double | float | bytes | date | guid | expression =>
    obtain ⟨a, rfl⟩ := hmap h
    rfl
  | char =>
    simp only [readScalar] at h
    split at h <;> cases h
    rfl
  | time =>
    obtain ⟨t, d, -, -, rfl⟩ := readScalar_time h
    rfl

theorem exact_of_readScalar {raw : String} (hk : k.tag ∉ inexactTags)
    (h : readScalar k raw = .ok v) : Exact v := by
  have hnode : k ≠ .node := by
    rintro rfl
    cases h
  refine exact_of_reads (kind?_of_readScalar h) hk hnode fun d hd => ?_
  subst hd
  obtain rfl : Value.Kind.time = k := Option.some.inj (kind?_of_readScalar h)
  obtain ⟨t, d', ht, hd', hv⟩ := readScalar_time h
  obtain rfl := Value.time.inj hv
  exact ⟨t, ht.1, ht.2, Duration.ofTicks?_nanoseconds hd'⟩

/-! ## Values written once more -/

theorem Exact.reread (h : Exact v) : Exact (reread v) := by
  cases v with
  | decimal d => exact exact_decimal d.reread
  | _ => exact h

theorem pair_decimal (d : Decimal) : pair builtin (.decimal d) = ("decimal", d.text) :=
  describeWith_builtin (k := .decimal) rfl (by decide) _

theorem pair_reread_fst (v : Value) : (pair builtin (reread v)).1 = (pair builtin v).1 := by
  cases v with
  | decimal d => rw [reread, pair_decimal, pair_decimal]
  | _ => rfl

theorem pair_reread (v : Value) : pair builtin (reread v) = pair builtin v ↔ ¬ SignedZero v := by
  cases v with
  | decimal d =>
    rw [reread, pair_decimal, pair_decimal, Prod.mk.injEq, eq_self, true_and]
    exact d.text_reread
  | _ => exact iff_of_true rfl id

end Outline.Document
