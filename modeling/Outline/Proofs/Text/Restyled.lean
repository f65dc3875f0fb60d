import Mathlib.Tactic.Common
import Outline.Outcome
import Outline.Proofs.Text.Position
import Outline.Proofs.Text.Quote

/-!
# Texts read side by side

Two texts are read side by side when they agree but for the style of their line breaks; the
second one may go on where the first one ends, behind a line break. What a reader finds in the
first text it then finds in the second, and both are left at the same line and column.
-/

namespace Outline

namespace Text

/-! ## Styles of line breaks -/

/-- The two styles of a line break. -/
inductive LineBreak : List Char → Prop
  | feed : LineBreak ['\n']
  | pair : LineBreak ['\r', '\n']

/-- The second text has the characters of the first one, its line breaks in either style, and
then `tail`. There is a tail only behind a line break, or behind nothing at all. -/
inductive Restyles (tail : List Char) : List Char → List Char → Prop
  | nil : Restyles tail [] tail
  | lineBreak {b b' s s' : List Char} (hb : LineBreak b) (hb' : LineBreak b')
      (rest : Restyles tail s s') : Restyles tail (b ++ s) (b' ++ s')
  | char {c : Char} {s s' : List Char} (hc : c ≠ '\n')
      (lone : c = '\r' → s.head? ≠ some '\n' ∧ s'.head? ≠ some '\n')
      (stop : s = [] → tail = []) (rest : Restyles tail s s') : Restyles tail (c :: s) (c :: s')

variable {tail r r' s s' : List Char}

theorem LineBreak.exists_cons {b : List Char} (h : LineBreak b) :
    ∃ c t, b = c :: t ∧ isBreak c = true := by
  cases h
  · exact ⟨'\n', [], rfl, rfl⟩
  · exact ⟨'\r', ['\n'], rfl, rfl⟩

/-- What gives neither part of a line break a meaning gives one to plain characters only. -/
theorem isBreak_of_eq_some {α : Type} {f : Char → Option α} {c : Char} {a : α}
    (hreturn : f '\r' = none) (hfeed : f '\n' = none) (h : f c = some a) :
    isBreak c = false := by
  by_contra hb
  have hc : c = '\r' ∨ c = '\n' := by simpa [isBreak, Decidable.or_iff_not_imp_left] using hb
  rcases hc with rfl | rfl
  · rw [hreturn] at h
    cases h
  · rw [hfeed] at h
    cases h

theorem Restyles.symm (h : Restyles [] s s') : Restyles [] s' s := by
  induction h with
  | nil => exact .nil
  | lineBreak hb hb' _ ih => exact .lineBreak hb' hb ih
  | char hc lone _ _ ih => exact .char hc (fun h => (lone h).symm) (fun _ => rfl) ih

theorem Restyles.cons_inv {c : Char} (h : Restyles tail (c :: s) r') (hc : isBreak c = false) :
    ∃ s', r' = c :: s' ∧ Restyles tail s s' ∧ (s = [] → tail = []) := by
  generalize hr : c :: s = r at h
  cases h with
  | nil => cases hr
  | lineBreak hb _ _ =>
    obtain ⟨d, t, rfl, hd⟩ := hb.exists_cons
    obtain ⟨rfl, -⟩ := List.cons.inj hr
    rw [hc] at hd
    cases hd
  | char _ _ stop rest =>
    obtain ⟨rfl, rfl⟩ := List.cons.inj hr
    exact ⟨_, rfl, rest, stop⟩

theorem Restyles.lineBreak_inv {b : List Char} (hb : LineBreak b) (h : Restyles tail (b ++ s) r') :
    ∃ b' s', LineBreak b' ∧ r' = b' ++ s' ∧ Restyles tail s s' := by
  generalize hr : b ++ s = r at h
  cases h with
  | nil =>
    cases hb <;> cases hr
  | lineBreak hd hd' rest =>
    refine ⟨_, _, hd', rfl, ?_⟩
    cases hb <;> cases hd <;> cases hr
    · exact rest
    · exact rest
  | char hc lone _ rest =>
    cases hb
    · exact absurd (List.cons.inj hr).1.symm hc
    · obtain ⟨hr, ht⟩ := List.cons.inj hr
      exact absurd (by rw [← ht]; rfl) (lone hr.symm).1

theorem Restyles.lone_inv (h : Restyles tail ('\r' :: s) r') (hs : s.head? ≠ some '\n') :
    ∃ s', r' = '\r' :: s' ∧ s'.head? ≠ some '\n' ∧ Restyles tail s s' ∧ (s = [] → tail = []) := by
  generalize hr : '\r' :: s = r at h
  cases h with
  | nil => cases hr
  | lineBreak hb _ _ =>
    cases hb
    · cases hr
    · obtain ⟨-, rfl⟩ := List.cons.inj hr
      exact absurd rfl hs
  | char _ lone stop rest =>
    obtain ⟨rfl, rfl⟩ := List.cons.inj hr
    exact ⟨_, rfl, (lone rfl).2, rest, stop⟩

/-- A text goes on behind a finished line, and an unfinished one with nothing. -/
theorem restyles_append {t : List Char} (h : s = [] ∨ s.getLast? = some '\n' ∨ t = []) :
    Restyles t s (s ++ t) := by
  have hlast : ∀ {c : Char} {s : List Char},
      (c :: s = [] ∨ (c :: s).getLast? = some '\n' ∨ t = []) →
        s = [] ∨ s.getLast? = some '\n' ∨ t = [] := by
    intro c s h
    cases s with
    | nil => exact .inl rfl
    | cons d s => exact .inr (h.resolve_left (List.cons_ne_nil _ _))
  fun_induction canonicalBreaks s with
  | case1 => exact .nil
  | case2 s ih =>
    show Restyles t (['\r', '\n'] ++ s) (['\r', '\n'] ++ (s ++ t))
    exact .lineBreak .pair .pair (ih (hlast (hlast h)))
  | case3 c s hne ih =>
    by_cases hc : c = '\n'
    · subst hc
      show Restyles t (['\n'] ++ s) (['\n'] ++ (s ++ t))
      exact .lineBreak .feed .feed (ih (hlast h))
    · have hstop : s = [] → t = [] := by
        rintro rfl
        simpa [hc] using h
      refine .char hc (fun hr => ?_) hstop (ih (hlast h))
      cases s with
      | nil => simp [hstop rfl]
      | cons d s =>
        have hd : d ≠ '\n' := fun hd => hne s hr (by rw [hd])
        simpa using hd

/-! ## Two texts side by side -/

def SamePlace (source source' r r' : List Char) : Prop :=
  ∃ u u', source = u ++ r ∧ source' = u' ++ r' ∧ Position.after u = Position.after u'

/-- Two sources are left to read side by side. -/
structure Abreast (source source' tail r r' : List Char) : Prop where
  restyles : Restyles tail r r'
  place : SamePlace source source' r r'

/-- Two sources are left to read side by side, and the second one does not go on alone. -/
structure Inside (source source' tail r r' : List Char) : Prop
    extends Abreast source source' tail r r' where
  stop : r = [] → r' = []

section

variable {source source' : List Char} {b b' : List Char} {c c' : Char}

theorem after_append_lineBreak (u : List Char) (hb : LineBreak b) :
    Position.after (u ++ b) = ⟨(Position.after u).line + 1, 1⟩ := by
  cases hb <;> rw [Position.after_append] <;> rfl

theorem SamePlace.char (h : SamePlace source source' (c :: s) (c :: s')) :
    SamePlace source source' s s' := by
  obtain ⟨u, u', hu, hu', hp⟩ := h
  refine ⟨u ++ [c], u' ++ [c], by simp [hu], by simp [hu'], ?_⟩
  rw [Position.after_concat, Position.after_concat, hp]

theorem SamePlace.lineBreak (hb : LineBreak b) (hb' : LineBreak b')
    (h : SamePlace source source' (b ++ s) (b' ++ s')) : SamePlace source source' s s' := by
  obtain ⟨u, u', hu, hu', hp⟩ := h
  refine ⟨u ++ b, u' ++ b', by simp [hu], by simp [hu'], ?_⟩
  rw [after_append_lineBreak u hb, after_append_lineBreak u' hb', hp]

theorem SamePlace.after_eq (h : SamePlace source source' r r') :
    Position.after (before source r) = Position.after (before source' r') := by
  obtain ⟨u, u', rfl, rfl, hp⟩ := h
  rw [before_append, before_append, hp]

theorem abreast_self (h : Restyles tail r r') : Abreast r r' tail r r' :=
  ⟨h, [], [], rfl, rfl, rfl⟩

theorem Restyles.eq_tail (h : Restyles tail [] s') : s' = tail := by
  generalize hr : ([] : List Char) = r at h
  cases h with
  | nil => rfl
  | lineBreak hb _ _ =>
    obtain ⟨d, t, rfl, -⟩ := hb.exists_cons
    cases hr
  | char => cases hr

theorem Restyles.stop (h : Restyles tail s s') (hstop : s = [] → tail = []) : s = [] → s' = [] := by
  rintro rfl
  rw [h.eq_tail, hstop rfl]

theorem Abreast.cons (h : Abreast source source' tail (c :: s) r') (hc : isBreak c = false) :
    ∃ s', r' = c :: s' ∧ Inside source source' tail s s' := by
  obtain ⟨s', rfl, hrest, hstop⟩ := h.restyles.cons_inv hc
  exact ⟨s', rfl, ⟨hrest, h.place.char⟩, hrest.stop hstop⟩

theorem Abreast.lone (h : Abreast source source' tail ('\r' :: s) r') (hs : s.head? ≠ some '\n') :
    ∃ s', r' = '\r' :: s' ∧ s'.head? ≠ some '\n' ∧ Inside source source' tail s s' := by
  obtain ⟨s', rfl, hhead, hrest, hstop⟩ := h.restyles.lone_inv hs
  exact ⟨s', rfl, hhead, ⟨hrest, h.place.char⟩, hrest.stop hstop⟩

theorem Abreast.lineBreak (hb : LineBreak b) (h : Abreast source source' tail (b ++ s) r') :
    ∃ b' s', LineBreak b' ∧ r' = b' ++ s' ∧ Abreast source source' tail s s' := by
  obtain ⟨b', s', hb', rfl, hrest⟩ := h.restyles.lineBreak_inv hb
  exact ⟨b', s', hb', rfl, hrest, h.place.lineBreak hb hb'⟩

theorem Abreast.char (h : Abreast source source' tail (c :: s) r') (hn : c ≠ '\n')
    (hpair : c = '\r' → s.head? ≠ some '\n') : ∃ s', r' = c :: s' ∧
      (c = '\r' → s'.head? ≠ some '\n') ∧ Inside source source' tail s s' := by
  by_cases hr : c = '\r'
  · subst hr
    obtain ⟨s', rfl, hs', hin⟩ := h.lone (hpair rfl)
    exact ⟨s', rfl, fun _ => hs', hin⟩
  · obtain ⟨s', rfl, hin⟩ := h.cons (by simpa [isBreak] using ⟨hr, hn⟩)
    exact ⟨s', rfl, fun h => absurd h hr, hin⟩

/-- Two texts that are read side by side go on with the same character, or with line breaks. -/
theorem Restyles.heads (h : Restyles tail r r') : r = [] ∨
    (∃ c s s', isBreak c = false ∧ r = c :: s ∧ r' = c :: s') ∨
    ∃ c c' s s', isBreak c = true ∧ isBreak c' = true ∧ r = c :: s ∧ r' = c' :: s' := by
  cases h with
  | nil => exact .inl rfl
  | lineBreak hb hb' _ =>
    obtain ⟨d, t, rfl, hd⟩ := hb.exists_cons
    obtain ⟨d', t', rfl, hd'⟩ := hb'.exists_cons
    exact .inr (.inr ⟨d, d', _, _, hd, hd', rfl, rfl⟩)
  | @char c s s' =>
    by_cases hc : isBreak c = true
    · exact .inr (.inr ⟨c, c, s, s', hc, hc, rfl, rfl⟩)
    · exact .inr (.inl ⟨c, s, s', by simpa using hc, rfl, rfl⟩)

theorem Abreast.inside (h : Abreast source source' tail r r') (hr : r ≠ []) :
    Inside source source' tail r r' := ⟨h, fun hnil => absurd hnil hr⟩

/-- Inside a line, the two texts end together, go on with the same character, or are both at
the end of the line. -/
theorem Inside.heads (h : Inside source source' tail r r') : (r = [] ∧ r' = []) ∨
    (∃ c s s', isBreak c = false ∧ r = c :: s ∧ r' = c :: s' ∧
      Inside source source' tail s s') ∨
    ∃ c c' s s', isBreak c = true ∧ isBreak c' = true ∧ r = c :: s ∧ r' = c' :: s' := by
  rcases h.restyles.heads with hr | ⟨c, s, s', hc, rfl, rfl⟩ | hbreak
  · exact .inl ⟨hr, h.stop hr⟩
  · obtain ⟨_, heq, hin⟩ := h.toAbreast.cons hc
    obtain ⟨-, rfl⟩ := List.cons.inj heq
    exact .inr (.inl ⟨c, s, _, hc, rfl, rfl, hin⟩)
  · exact .inr (.inr hbreak)

theorem Inside.cons_inv (h : Inside source source' tail r (c :: s')) (hc : isBreak c = false) :
    ∃ s, r = c :: s ∧ Inside source source' tail s s' := by
  rcases h.heads with ⟨-, heq⟩ | ⟨d, t, t', -, rfl, heq, hin⟩ | ⟨d, d', t, t', -, hd', -, heq⟩
  · cases heq
  · obtain ⟨rfl, rfl⟩ := List.cons.inj heq
    exact ⟨t, rfl, hin⟩
  · obtain ⟨rfl, -⟩ := List.cons.inj heq
    rw [hc] at hd'
    cases hd'

theorem Inside.head?_eq (h : Inside source source' tail r r') (hc : isBreak c = false) :
    r.head? = some c ↔ r'.head? = some c := by
  have hne : ∀ d, isBreak d = true → d ≠ c := by
    rintro d hd rfl
    rw [hc] at hd
    cases hd
  rcases h.heads with ⟨rfl, rfl⟩ | ⟨d, t, t', -, rfl, rfl, -⟩ | ⟨d, d', t, t', hd, hd', rfl, rfl⟩
  · rfl
  · rfl
  · simp [hne d hd, hne d' hd']

theorem Inside.atLineEnd_eq (h : Inside source source' tail r r') : atLineEnd r = atLineEnd r' := by
  rcases h.heads with ⟨rfl, rfl⟩ | ⟨d, t, t', -, rfl, rfl, -⟩ | ⟨d, d', t, t', hd, hd', rfl, rfl⟩
  · rfl
  · rfl
  · rw [atLineEnd_cons, atLineEnd_cons, hd, hd']

theorem Inside.span {p : Char → Bool} (hp : ∀ c, isBreak c = true → p c = false)
    (h : Inside source source' tail r r') : r.takeWhile p = r'.takeWhile p ∧
      Inside source source' tail (r.dropWhile p) (r'.dropWhile p) := by
  induction r generalizing r' with
  | nil =>
    obtain rfl := h.stop rfl
    exact ⟨rfl, h⟩
  | cons c r ih =>
    rcases h.heads with ⟨hr, -⟩ | ⟨d, t, t', -, heq, rfl, hin⟩ | ⟨d, d', t, t', hd, hd', heq, rfl⟩
    · cases hr
    · obtain ⟨rfl, rfl⟩ := List.cons.inj heq
      by_cases hc : p c = true
      · simpa [List.takeWhile_cons, List.dropWhile_cons, hc] using ih hin
      · simpa [List.takeWhile_cons, List.dropWhile_cons, hc] using h
    · obtain ⟨rfl, rfl⟩ := List.cons.inj heq
      simpa [List.takeWhile_cons, List.dropWhile_cons, hp c hd, hp d' hd'] using h

/-! ## Reading side by side -/

/-- Whatever the first reading finds, the second one finds its match, and what both leave to
read matches too. -/
def Tracks {α : Type} (A : α → α → Prop) (R : List Char → List Char → Prop)
    (x x' : Except Halt (α × List Char)) : Prop :=
  ∀ a s, x = .ok (a, s) → ∃ a' s', x' = .ok (a', s') ∧ A a a' ∧ R s s'

section

variable {α β : Type} {A : α → α → Prop} {B : β → β → Prop} {R S : List Char → List Char → Prop}

theorem tracks_error {e : Halt} {x' : Except Halt (α × List Char)} : Tracks A R (.error e) x' :=
  fun _ _ h => by cases h

theorem tracks_ok {a a' : α} (ha : A a a') (hr : R r r') :
    Tracks A R (.ok (a, r)) (.ok (a', r')) := by
  intro b s h
  cases h
  exact ⟨a', r', rfl, ha, hr⟩

theorem Tracks.bind {x x' : Except Halt (α × List Char)}
    {k k' : α × List Char → Except Halt (β × List Char)} (h : Tracks A R x x')
    (hk : ∀ a a' s s', A a a' → R s s' → Tracks B S (k (a, s)) (k' (a', s'))) :
    Tracks B S (x >>= k) (x' >>= k') := by
  intro b t hb
  obtain ⟨⟨a, s⟩, hx, hb⟩ := bind_eq_ok.1 hb
  obtain ⟨a', s', hx', ha, hs⟩ := h a s hx
  rw [hx']
  exact hk a a' s s' ha hs b t hb

end

variable {x x' : Reading} {R : List Char → List Char → Prop}

theorem Tracks.prepend_lineBreak {b b' : List Char} (h : Tracks (Restyles []) R x x')
    (hb : LineBreak b) (hb' : LineBreak b') :
    Tracks (Restyles []) R (x.prepend b) (x'.prepend b') := by
  intro t s ht
  obtain ⟨v, hv, rfl⟩ := Reading.prepend_eq_ok ht
  obtain ⟨v', s', hv', hrest, hs⟩ := h v s hv
  exact ⟨b' ++ v', s', by rw [hv', Reading.prepend_ok], .lineBreak hb hb' hrest, hs⟩

theorem Tracks.prepend (h : Tracks Eq R x x') (t : List Char) :
    Tracks Eq R (x.prepend t) (x'.prepend t) := by
  intro u s hu
  obtain ⟨v, hx, rfl⟩ := Reading.prepend_eq_ok hu
  obtain ⟨_, s', hx', rfl, hs⟩ := h v s hx
  exact ⟨t ++ v, s', by rw [hx', Reading.prepend_ok], rfl, hs⟩

theorem Inside.append {w : List Char} (hw : ∀ c ∈ w, isBreak c = false)
    (h : Inside source source' tail (w ++ r) r') :
    ∃ s', r' = w ++ s' ∧ Inside source source' tail r s' := by
  induction w generalizing r' with
  | nil => exact ⟨r', rfl, h⟩
  | cons c w ih =>
    obtain ⟨s', rfl, hin⟩ := h.toAbreast.cons (hw c (by simp))
    obtain ⟨t', rfl, hrest⟩ := ih (fun d hd => hw d (by simp [hd])) hin
    exact ⟨t', rfl, hrest⟩

/-! ## Literals -/

theorem isBreak_of_ofDigitsFrom {n v : Nat} (h : Number.ofDigitsFrom 16 n s = some v) :
    ∀ c ∈ s, isBreak c = false := by
  induction s generalizing n with
  | nil => simp
  | cons c s ih =>
    rw [Number.ofDigitsFrom, Option.bind_eq_some_iff] at h
    obtain ⟨d, hd, h⟩ := h
    have hc : isBreak c = false := isBreak_of_eq_some (by decide) (by decide) hd
    simpa [hc] using ih h

theorem isBreak_of_code? {digits : List Char} {e : Char} (h : code? digits = some e) :
    digits.length = 4 ∧ ∀ c ∈ digits, isBreak c = false := by
  have hnumber : ∀ {s n}, Number.ofDigits? 16 s = some n → ∀ c ∈ s, isBreak c = false := by
    intro s n hs
    unfold Number.ofDigits? at hs
    split at hs
    · cases hs
    · exact isBreak_of_ofDigitsFrom hs
  unfold code? at h
  split at h
  · rename_i hlen
    obtain ⟨n, hn, -⟩ := Option.bind_eq_some_iff.mp h
    refine ⟨hlen, ?_⟩
    unfold hexNumber? at hn
    split at hn
    · simpa [isBreak] using hnumber hn
    · exact hnumber hn
  · cases h

theorem exists_of_readEscape {t : List Char} (h : readEscape s = .ok (t, r)) :
    ∃ w, s = w ++ r ∧ (∀ c ∈ w, isBreak c = false) ∧
      ∀ r', readEscape (w ++ r') = .ok (t, r') := by
  unfold readEscape at h
  split at h
  · cases h
  rename_i c s
  split at h
  · rename_i e he
    cases h
    have hc : isBreak c = false := isBreak_of_eq_some (by decide) (by decide) he
    exact ⟨[c], rfl, by simpa using hc, fun r' => by simp [readEscape, he]⟩
  · rename_i he
    split at h
    · rename_i hc
      subst hc
      split at h
      · cases h
        exact ⟨['r', '\\', 'n'], rfl, by simp [isBreak], fun r' => rfl⟩
      · cases h
    · split at h
      · rename_i hc
        subst hc
        split at h
        · rename_i e hcode
          cases h
          obtain ⟨hlen, hplain⟩ := isBreak_of_code? hcode
          refine ⟨'x' :: s.take 4, by simp, by simpa [isBreak] using hplain, fun r' => ?_⟩
          have htake : (s.take 4 ++ r').take 4 = s.take 4 := List.take_left' hlen
          have hdrop : (s.take 4 ++ r').drop 4 = r' := List.drop_left' hlen
          simp only [List.cons_append, readEscape, he, htake, hdrop, hcode]
          simp
        · cases h
      · cases h

theorem readQuoted_tracks {q : Char} (hq : isBreak q = false)
    (h : Abreast source source' tail r r') :
    Tracks Eq (Inside source source' tail) (readQuoted q r) (readQuoted q r') := by
  fun_induction readQuoted q r generalizing r' with
  | case1 => exact tracks_error
  | case2 s =>
    obtain ⟨s', rfl, hin⟩ := h.cons hq
    rw [readQuoted, if_pos rfl]
    exact tracks_ok rfl hin
  | case3 => exact tracks_error
  | case4 s t r he hne ih =>
    obtain ⟨w, rfl, hw, hlocal⟩ := exists_of_readEscape he
    obtain ⟨s', rfl, hin⟩ := h.cons (by decide)
    obtain ⟨t', rfl, hrest⟩ := hin.append hw
    rw [readQuoted_escape (Ne.symm hne) (hlocal t')]
    exact (ih hrest.toAbreast).prepend t
  | case5 => exact tracks_error
  | case6 c s hne hs hb ih =>
    obtain ⟨s', rfl, hin⟩ := h.cons (by simpa using hb)
    rw [readQuoted_cons hne hs (by simpa using hb)]
    exact (ih hin.toAbreast).prepend [c]

theorem readVerbatim_lineBreak {b : List Char} (hb : LineBreak b) (s : List Char) :
    readVerbatim (b ++ s) = (readVerbatim s).prepend crlf := by
  cases hb <;> rfl

/-- A verbatim literal reads alike in both texts: its line breaks become canonical. -/
theorem readVerbatim_tracks (h : Abreast source source' tail r r') :
    Tracks Eq (Inside source source' tail) (readVerbatim r) (readVerbatim r') := by
  fun_induction readVerbatim r generalizing r' with
  | case1 => exact tracks_error
  | case2 s ih =>
    obtain ⟨s', rfl, hin⟩ := h.cons rfl
    obtain ⟨t', rfl, hrest⟩ := hin.toAbreast.cons rfl
    exact (ih hrest.toAbreast).prepend ['"']
  | case3 s hne =>
    obtain ⟨s', rfl, hin⟩ := h.cons rfl
    have hhead : s'.head? ≠ some '"' := by
      rw [Ne, ← hin.head?_eq rfl, List.head?_eq_some_iff]
      rintro ⟨t, rfl⟩
      exact hne t rfl
    rw [readVerbatim_quote s' hhead]
    exact tracks_ok rfl hin
  | case4 s ih =>
    obtain ⟨b', s', hb', rfl, hrest⟩ := h.lineBreak .feed
    rw [readVerbatim_lineBreak hb']
    exact (ih hrest).prepend crlf
  | case5 s ih =>
    obtain ⟨b', s', hb', rfl, hrest⟩ := h.lineBreak .pair
    rw [readVerbatim_lineBreak hb']
    exact (ih hrest).prepend crlf
  | case6 => exact tracks_error
  | case7 c s _ hq hn _ hr ih =>
    have hb : isBreak c = false := by simpa [isBreak] using ⟨hr, hn⟩
    obtain ⟨s', rfl, hin⟩ := h.cons hb
    rw [readVerbatim_cons s' hq hb]
    exact (ih hin.toAbreast).prepend [c]

end

/-! ## Lines -/

theorem linesFrom_of_restyles {line : List Char} (h : Restyles [] s s')
    (hline : line.getLast? = some '\r' → s.head? ≠ some '\n' ∧ s'.head? ≠ some '\n') :
    linesFrom line s = linesFrom line s' := by
  have hbreak : ∀ {b t line : List Char}, LineBreak b →
      (line.getLast? = some '\r' → (b ++ t).head? ≠ some '\n') →
        linesFrom line (b ++ t) = line :: linesFrom [] t := by
    intro b t line hb hlast
    cases hb
    · have hnot : line.getLast? ≠ some '\r' := fun h => hlast h rfl
      simp [linesFrom, dropReturn, hnot]
    · simp [linesFrom, dropReturn]
  induction h generalizing line with
  | nil => rfl
  | lineBreak hb hb' _ ih =>
    rw [hbreak hb fun h => (hline h).1, hbreak hb' fun h => (hline h).2, ih (by simp)]
  | @char c s s' hc lone _ _ ih =>
    rw [linesFrom, if_neg hc, linesFrom, if_neg hc, ih]
    intro hlast
    rw [List.getLast?_concat] at hlast
    exact lone (Option.some.inj hlast)

theorem lines_of_restyles (h : Restyles [] s s') : lines s = lines s' :=
  linesFrom_of_restyles h (by simp)

end Text
end Outline
