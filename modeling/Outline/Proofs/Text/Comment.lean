import Outline.Document.Print
import Outline.Proofs.Text.Lines

/-!
# Comments that are written and read

A comment is written without its blank lines, behind slashes if one line is left and with a margin
otherwise. Reading takes the margin off again, with all asterisks that follow it: a comment comes
back as it was unless its first line begins with asterisks of its own.
-/

namespace Outline.Text

open Document (indent commentText)
open Token (readComment cleanComment)

variable {s t first : List Char} {rest ls : List (List Char)} {level : Nat}

/-- A character that is taken off from the start of a line in a block comment. -/
def isMargin (c : Char) : Bool := c == ' ' || c == '*'

/-- The two characters do not close a comment. -/
def KeepsOpen (a b : Char) : Prop := ¬ (a = '*' ∧ b = '/')

/-- The two characters may stand side by side in the text of a block comment: they do not close
it, and no line behind the first begins with a margin. -/
def Calm (a b : Char) : Prop := KeepsOpen a b ∧ (a = '\n' → isMargin b = false)

/-- What the text of a comment is like. -/
structure Kept (t : List Char) : Prop where
  trim_eq : trim t = t
  ne_nil : t ≠ []
  calm : '\n' ∈ t → t.IsChain Calm

theorem Kept.solid (h : Kept t) : Solid t := solid_of_trim h.trim_eq h.ne_nil

/-- A comment of one line with a carriage return in it. -/
def Broken (t : List Char) : Prop := '\n' ∉ t ∧ '\r' ∈ t

/-- A comment of several lines that begins with an asterisk. -/
def Starred (t : List Char) : Prop := '\n' ∈ t ∧ t.head? = some '*'

instance (t : List Char) : Decidable (Broken t) := inferInstanceAs (Decidable (_ ∧ _))

instance (t : List Char) : Decidable (Starred t) := inferInstanceAs (Decidable (_ ∧ _))

def fullLines (s : List Char) : List (List Char) :=
  ((lines s).filter fun l => !(trim l).isEmpty).map trimEnd

/-- What stands between the marks of a block comment with the given lines. -/
def inside (level : Nat) (ls : List (List Char)) : List Char :=
  crlf ++ (ls.flatMap fun l => indent level ++ [' ', '*', ' '] ++ l ++ crlf) ++
    indent level ++ [' ']

theorem commentText_eq (level : Nat) (s : List Char) :
    commentText level s = crlf ++ indent level ++
      if (fullLines s).length ≤ 1 then ['/', '/', ' '] ++ trim s
      else ['/', '*'] ++ inside level (fullLines s) ++ ['*', '/'] := by
  simp only [commentText, fullLines, List.length_map]
  split
  · rfl
  · simp [inside, List.flatMap_map]

def strip (l : List Char) : List Char := trimEnd (l.dropWhile isMargin)

theorem cleanComment_eq (raw : List Char) :
    cleanComment raw = trim (joinLines ((lines raw).map strip)) := rfl

/-- What a comment is read back as. -/
def reread (t : List Char) : List Char :=
  if '\n' ∈ t then trim (joinLines ((fullLines t).map strip)) else t

/-! ## Closing marks -/

theorem isChain_keepsOpen_of_not_mem (h : '/' ∉ s) : s.IsChain KeepsOpen := by
  induction s with
  | nil => exact .nil
  | cons c s ih =>
    simp only [List.mem_cons, not_or] at h
    refine List.isChain_cons.mpr ⟨fun d hd hclose => h.2 ?_, ih h.2⟩
    exact hclose.2 ▸ List.mem_of_mem_head? hd

theorem readComment_cons {c : Char} (h : ∀ d ∈ s.head?, KeepsOpen c d) :
    readComment (c :: s) = (readComment s).prepend [c] := by
  rw [readComment]
  intro s' hc hs
  exact h '/' (by simp [hs]) ⟨hc, rfl⟩

theorem readComment_append {w : List Char} (h : w.IsChain KeepsOpen) (r : List Char) :
    readComment (w ++ '*' :: '/' :: r) = .ok (w, r) := by
  induction w with
  | nil => rfl
  | cons c w ih =>
    obtain ⟨hnext, hchain⟩ := List.isChain_cons.mp h
    have hopen : ∀ d ∈ (w ++ '*' :: '/' :: r).head?, KeepsOpen c d := by
      cases w with
      | nil =>
        intro d hd hclose
        obtain rfl : '*' = d := by simpa using hd
        exact absurd hclose.2 (by decide)
      | cons e w => simpa using hnext
    rw [List.cons_append, readComment_cons hopen, ih hchain]
    rfl

theorem isChain_of_readComment {raw r : List Char} (h : readComment s = .ok (raw, r)) :
    raw.IsChain KeepsOpen ∧ ∀ c ∈ raw.head?, s.head? = some c := by
  induction s generalizing raw with
  | nil => cases h
  | cons c s ih =>
    by_cases hopen : ∀ d ∈ s.head?, KeepsOpen c d
    · rw [readComment_cons hopen] at h
      obtain ⟨v, hv, rfl⟩ := Reading.prepend_eq_ok h
      obtain ⟨hchain, hhead⟩ := ih hv
      exact ⟨List.isChain_cons.mpr ⟨fun d hd => hopen d (hhead d hd), hchain⟩, by simp⟩
    · simp only [KeepsOpen, not_forall, not_not] at hopen
      obtain ⟨d, hd, rfl, rfl⟩ := hopen
      obtain ⟨s', rfl⟩ := List.head?_eq_some_iff.mp hd
      cases h
      exact ⟨.nil, by simp⟩

theorem isChain_calm_of_not_mem (h : '\n' ∉ s) (hs : s.IsChain KeepsOpen) : s.IsChain Calm := by
  induction s with
  | nil => exact .nil
  | cons c s ih =>
    simp only [List.mem_cons, not_or] at h
    obtain ⟨hnext, hchain⟩ := List.isChain_cons.mp hs
    exact List.isChain_cons.mpr
      ⟨fun d hd => ⟨hnext d hd, fun hc => absurd hc (Ne.symm h.1)⟩, ih h.2 hchain⟩

theorem isChain_keepsOpen_of_calm (h : s.IsChain Calm) : s.IsChain KeepsOpen :=
  h.imp fun _ _ h => h.1

/-! ## Lines of a block comment -/

/-- The lines of a block comment: none is blank, all but the first begin without a margin, and
none closes the comment. -/
structure Block (first : List Char) (rest : List (List Char)) : Prop where
  head : ∃ c tail, first = c :: tail ∧ isBlank c = false
  rest_ne : rest ≠ []
  each : ∀ l ∈ first :: rest, '\n' ∉ l ∧ l ≠ [] ∧ trimEnd l = l
  keepsOpen : ∀ l ∈ first :: rest, l.IsChain KeepsOpen
  margin : ∀ l ∈ rest, ∀ c ∈ l.head?, isMargin c = false

/-- Behind a line feed no line begins with a margin. The induction goes from one line feed to the
next. -/
theorem margin_of_mem_lines (h : ('\n' :: s).IsChain Calm) :
    ∀ l ∈ lines s, ∀ c ∈ l.head?, isMargin c = false := by
  obtain ⟨n, hn⟩ : ∃ n, s.length = n := ⟨_, rfl⟩
  induction n using Nat.strong_induction_on generalizing s with
  | _ n ih =>
    have hnext : ∀ c ∈ s.head?, isMargin c = false := fun c hc =>
      ((List.isChain_cons.mp h).1 c hc).2 rfl
    by_cases hmem : '\n' ∈ s
    · obtain ⟨a, b, rfl, ha⟩ := List.eq_append_cons_of_mem hmem
      rw [lines_append_lineFeed b ha]
      intro l hl
      rcases List.mem_cons.mp hl with rfl | hl
      · intro c hc
        refine hnext c ?_
        obtain ⟨tail, htail⟩ := (dropReturn_isPrefix a).trans (List.prefix_append a ('\n' :: b))
        obtain ⟨l', hl'⟩ := List.head?_eq_some_iff.mp hc
        rw [← htail, hl']
        rfl
      · refine ih b.length ?_ ((List.isChain_cons.mp h).2.right_of_append) rfl l hl
        rw [← hn, List.length_append, List.length_cons]
        omega
    · cases hs : s with
      | nil => simp
      | cons c s' =>
        rw [← hs, lines_of_not_mem hmem (by simp [hs])]
        simpa using hnext

theorem mem_fullLines (s : List Char) :
    ∀ l ∈ fullLines s, l ≠ [] ∧ trimEnd l = l ∧ ∃ l' ∈ lines s, l <+: l' := by
  intro l hl
  obtain ⟨l', hl', rfl⟩ := List.mem_map.mp hl
  obtain ⟨hl', hfull⟩ := List.mem_filter.mp hl'
  refine ⟨fun hnil => ?_, trimEnd_trimEnd l', l', hl', trimEnd_isPrefix l'⟩
  have hink : ink l' = 0 := by rw [← ink_trimEnd, hnil, ink_nil]
  simp [trim_eq_nil_iff.mpr hink] at hfull

theorem sum_ink_fullLines (s : List Char) : ((fullLines s).map ink).sum = ink s := by
  rw [← sum_ink_lines, fullLines]
  induction lines s with
  | nil => rfl
  | cons l ls ih =>
    rw [List.filter_cons]
    split
    · rw [List.map_cons, List.map_cons, List.map_cons, List.sum_cons, List.sum_cons, ih,
        ink_trimEnd]
    · rename_i h
      have hink : ink l = 0 := trim_eq_nil_iff.mp (by simpa using h)
      rw [ih, List.map_cons, List.sum_cons, hink, Nat.zero_add]

theorem fullLines_append_lineFeed {a : List Char} (ha : '\n' ∉ a) (hink : ink a ≠ 0)
    (b : List Char) : fullLines (a ++ '\n' :: b) = trimEnd a :: fullLines b := by
  have hfull : (!(trim (dropReturn a)).isEmpty) = true := by
    have hne : trim (dropReturn a) ≠ [] := by rwa [ne_eq, trim_eq_nil_iff, ink_dropReturn]
    simpa using hne
  rw [fullLines, lines_append_lineFeed b ha, List.filter_cons, if_pos hfull, List.map_cons,
    trimEnd_dropReturn, fullLines]

theorem ink_cons_ne_zero {c : Char} (hc : isBlank c = false) (s : List Char) :
    ink (c :: s) ≠ 0 := by
  simp [ink, hc]

theorem exists_trimEnd_cons {c : Char} (hc : isBlank c = false) (s : List Char) :
    ∃ tail, trimEnd (c :: s) = c :: tail := by
  have hne : trimEnd (c :: s) ≠ [] := by
    intro hnil
    have hink := ink_cons_ne_zero hc s
    rw [← ink_trimEnd, hnil] at hink
    exact hink rfl
  obtain ⟨d, tail, hd⟩ := List.exists_cons_of_ne_nil hne
  obtain ⟨w, hw⟩ := trimEnd_isPrefix (c :: s)
  rw [hd, List.cons_append] at hw
  exact ⟨tail, by rw [hd, (List.cons.inj hw).1]⟩

theorem Kept.exists_split (h : Kept t) (hmem : '\n' ∈ t) :
    ∃ c a b, t = c :: a ++ '\n' :: b ∧ '\n' ∉ c :: a ∧ isBlank c = false ∧ ink b ≠ 0 := by
  obtain ⟨c, tail, ht, hc⟩ := h.solid.head
  obtain ⟨front, d, ht', hd⟩ := h.solid.last
  obtain ⟨a, b, hab, ha⟩ := List.eq_append_cons_of_mem hmem
  have hlast : d ∈ '\n' :: b := by
    have hlast : (a ++ '\n' :: b).getLast? = some d := by rw [← hab, ht']; simp
    rw [List.getLast?_append_of_ne_nil _ (by simp)] at hlast
    exact List.mem_of_getLast? hlast
  have hink : ink b ≠ 0 := by
    intro hzero
    rcases List.mem_cons.mp hlast with rfl | hlast
    · exact absurd hd (by decide)
    · have hblank := List.countP_eq_zero.mp hzero d hlast
      simp [hd] at hblank
  cases a with
  | nil =>
    obtain rfl : c = '\n' := (List.cons.inj (ht.symm.trans hab)).1
    exact absurd hc (by decide)
  | cons e a =>
    obtain rfl : c = e := (List.cons.inj (ht.symm.trans hab)).1
    exact ⟨c, a, b, hab, ha, hc, hink⟩

theorem Kept.exists_block (h : Kept t) (hmem : '\n' ∈ t) :
    ∃ first rest, fullLines t = first :: rest ∧ Block first rest ∧ first.head? = t.head? := by
  have hcalm := h.calm hmem
  have heach : ∀ l ∈ fullLines t, ('\n' ∉ l ∧ l ≠ [] ∧ trimEnd l = l) ∧ l.IsChain KeepsOpen := by
    intro l hl
    obtain ⟨hne, htrim, l', hl', hstart⟩ := mem_fullLines t l hl
    exact ⟨⟨fun hmem => not_mem_lines t l' hl' (hstart.subset hmem), hne, htrim⟩,
      List.IsChain.infix (isChain_keepsOpen_of_calm hcalm)
        (hstart.isInfix.trans (infix_of_mem_lines t l' hl'))⟩
  obtain ⟨c, a, b, rfl, ha, hc, hink⟩ := h.exists_split hmem
  obtain ⟨tail, hfirst⟩ := exists_trimEnd_cons hc a
  have hlines := fullLines_append_lineFeed ha (ink_cons_ne_zero hc a) b
  rw [hlines] at heach
  refine ⟨trimEnd (c :: a), fullLines b, hlines, ⟨⟨c, tail, hfirst, hc⟩, fun hnil => ?_,
    fun l hl => (heach l hl).1, fun l hl => (heach l hl).2, fun l hl d hd => ?_⟩, ?_⟩
  · rw [← sum_ink_fullLines, hnil] at hink
    exact hink rfl
  · obtain ⟨-, -, l', hl', w, hw⟩ := mem_fullLines b l hl
    obtain ⟨x, rfl⟩ := List.head?_eq_some_iff.mp hd
    exact margin_of_mem_lines hcalm.right_of_append l' hl' d (by rw [← hw]; rfl)
  · rw [hfirst]
    rfl

/-! ## Reading a block comment -/

theorem joinLines_concat (h : ls ≠ []) (l : List Char) :
    joinLines (ls ++ [l]) = joinLines ls ++ crlf ++ l := by
  induction ls with
  | nil => exact absurd rfl h
  | cons m ls ih =>
    cases hls : ls with
    | nil => rw [List.singleton_append, joinLines_cons _ (by simp), joinLines_singleton,
        joinLines_singleton]
    | cons n ns =>
      have hne : ls ≠ [] := by simp [hls]
      rw [← hls, List.cons_append, joinLines_cons _ (by simp), ih hne, joinLines_cons _ hne]
      simp

theorem lines_inside (h : ∀ l ∈ ls, '\n' ∉ l) :
    lines (inside level ls) =
      [] :: (ls.map fun l => indent level ++ [' ', '*', ' '] ++ l) ++ [indent level ++ [' ']] := by
  have hindent : '\n' ∉ indent level := by simp [indent]
  have hwhole : ∀ l ∈ ls.map fun l => indent level ++ [' ', '*', ' '] ++ l, '\n' ∉ l := by
    intro l hl
    obtain ⟨m, hm, rfl⟩ := List.mem_map.mp hl
    simp [hindent, h m hm]
  have hlast : lines (indent level ++ [' ']) = [indent level ++ [' ']] :=
    lines_of_not_mem (by simp [hindent]) (by simp)
  have hinside : inside level ls = [] ++ crlf ++
      ((ls.map fun l => indent level ++ [' ', '*', ' '] ++ l).flatMap (· ++ crlf) ++
        (indent level ++ [' '])) := by
    simp [inside, List.flatMap_map]
  rw [hinside, lines_append_crlf (by simp), lines_flatMap_crlf hwhole, hlast]
  rfl

/-- Reading takes off the margin that was written. -/
theorem cleanComment_inside (hne : ls ≠ []) (h : ∀ l ∈ ls, '\n' ∉ l) :
    cleanComment (inside level ls) = trim (joinLines (ls.map strip)) := by
  have hmargin : ∀ c ∈ indent level ++ [' ', '*', ' '], isMargin c = true := by
    intro c hc
    rcases List.mem_append.mp hc with hc | hc
    · rw [(List.mem_replicate.mp hc).2]
      rfl
    · simp only [List.mem_cons, List.not_mem_nil, or_false] at hc
      rcases hc with rfl | rfl | rfl <;> rfl
  have hstrip : ∀ l : List Char, strip (indent level ++ [' ', '*', ' '] ++ l) = strip l := by
    intro l
    rw [strip, List.dropWhile_append_of_pos hmargin, strip]
  have hlast : strip (indent level ++ [' ']) = [] := by
    have hall : (indent level ++ [' ']).dropWhile isMargin = [] :=
      List.dropWhile_eq_nil_iff.mpr fun c hc => hmargin c (by simp at hc ⊢; tauto)
    rw [strip, hall, trimEnd_nil]
  have hmap : ((ls.map fun l => indent level ++ [' ', '*', ' '] ++ l).map strip) =
      ls.map strip := by
    rw [List.map_map]
    exact List.map_congr_left fun l _ => hstrip l
  rw [cleanComment_eq, lines_inside h, List.map_append, List.map_cons, hmap, List.map_singleton,
    hlast, List.cons_append, joinLines_cons _ (by simp), joinLines_concat (by simpa using hne)]
  have htrim := trim_append_blank isBlank_of_mem_crlf isBlank_of_mem_crlf
    (joinLines (ls.map strip))
  simpa [strip] using htrim

theorem isChain_inside (h : ∀ l ∈ ls, l.IsChain KeepsOpen) :
    (inside level ls).IsChain KeepsOpen := by
  have hindent : '/' ∉ indent level := by simp [indent]
  have hbreak : '/' ∉ crlf := by decide
  have hbehind : ∀ {a b : List Char}, a.IsChain KeepsOpen → '/' ∉ b →
      (a ++ b).IsChain KeepsOpen := fun ha hb =>
    List.isChain_append.mpr ⟨ha, isChain_keepsOpen_of_not_mem hb, fun _ _ d hd hclose =>
      hb (hclose.2 ▸ List.mem_of_mem_head? hd)⟩
  have hfront : ∀ (a : List Char) (c : Char) {b : List Char}, (a ++ [c]).IsChain KeepsOpen →
      c ≠ '*' → b.IsChain KeepsOpen → (a ++ [c] ++ b).IsChain KeepsOpen := fun a c b ha hc hb =>
    List.isChain_append.mpr ⟨ha, hb, fun d hd _ _ hclose => by
      rw [List.getLast?_concat, Option.mem_some_iff] at hd
      exact hc (hd.trans hclose.1)⟩
  have hflat : (ls.flatMap fun l => indent level ++ [' ', '*', ' '] ++ l ++ crlf).IsChain
      KeepsOpen := by
    induction ls with
    | nil => exact .nil
    | cons l ls ih =>
      have hmargin : (indent level ++ [' ', '*'] ++ [' ']).IsChain KeepsOpen :=
        isChain_keepsOpen_of_not_mem (by simp [hindent])
      have hline := hbehind (hfront _ _ hmargin (by decide) (h l (by simp))) hbreak
      have hwhole : indent level ++ [' ', '*'] ++ [' '] ++ l ++ crlf =
          indent level ++ [' ', '*', ' '] ++ l ++ ['\r'] ++ ['\n'] := by simp [crlf]
      rw [hwhole] at hline
      have hall := hfront _ _ hline (by decide) (ih fun l hl => h l (by simp [hl]))
      simpa [crlf] using hall
  have hstart : (['\r'] ++ ['\n']).IsChain KeepsOpen := isChain_keepsOpen_of_not_mem (by decide)
  exact hbehind (hbehind (hfront _ _ hstart (by decide) hflat) hindent) (by decide)

/-! ## Coming back -/

theorem Block.map_strip (h : Block first rest) : rest.map strip = rest := by
  have hid : ∀ l ∈ rest, strip l = l := fun l hl => by
    obtain ⟨-, hne, htrim⟩ := h.each l (by simp [hl])
    obtain ⟨c, tail, rfl⟩ := List.exists_cons_of_ne_nil hne
    have hc := h.margin _ hl c rfl
    rw [strip, List.dropWhile_cons_of_neg (by simp [hc]), htrim]
  exact (List.map_congr_left hid).trans (List.map_id rest)

/-- A first line that does not begin with an asterisk comes back as it is. -/
theorem Block.strip_first (h : Block first rest) (hstar : first.head? ≠ some '*') :
    strip first = first := by
  obtain ⟨c, tail, rfl, hc⟩ := h.head
  have hmargin : isMargin c = false := by
    have hspace : c ≠ ' ' := by
      rintro rfl
      exact absurd hc (by decide)
    have hne : c ≠ '*' := fun h => hstar (by rw [h]; rfl)
    simp [isMargin, hspace, hne]
  rw [strip, List.dropWhile_cons_of_neg (by simp [hmargin]), (h.each _ (by simp)).2.2]

theorem exists_last_joinLines (hne : ls ≠ [])
    (h : ∀ l ∈ ls, ∃ front c, l = front ++ [c] ∧ isBlank c = false) :
    ∃ front c, joinLines ls = front ++ [c] ∧ isBlank c = false := by
  induction ls with
  | nil => exact absurd rfl hne
  | cons l ls ih =>
    by_cases hls : ls = []
    · subst hls
      rw [joinLines_singleton]
      exact h l (by simp)
    · obtain ⟨front, c, hjoin, hc⟩ := ih hls fun l hl => h l (by simp [hl])
      refine ⟨l ++ crlf ++ front, c, ?_, hc⟩
      rw [joinLines_cons l hls, hjoin, List.append_assoc _ front]

theorem Block.solid_joinLines (h : Block first rest) : Solid (joinLines (first :: rest)) where
  head := by
    obtain ⟨c, tail, rfl, hc⟩ := h.head
    refine ⟨c, tail ++ crlf ++ joinLines rest, ?_, hc⟩
    rw [joinLines_cons _ h.rest_ne]
    rfl
  last := by
    refine exists_last_joinLines (by simp) fun l hl => ?_
    obtain ⟨-, hne, htrim⟩ := h.each l hl
    exact exists_last_of_trimEnd htrim hne

theorem ink_ne_zero_of_trimEnd (hne : s ≠ []) (h : trimEnd s = s) : ink s ≠ 0 := by
  obtain ⟨front, c, rfl, hc⟩ := exists_last_of_trimEnd h hne
  rw [ink_append, ink_cons]
  simp [ink, hc]

theorem Block.fullLines_joinLines (h : Block first rest) :
    fullLines (joinLines (first :: rest)) = first :: rest := by
  have hlast : ∀ l ∈ (first :: rest).getLast?, l ≠ [] := fun l hl =>
    (h.each l (List.mem_of_getLast? hl)).2.1
  have hfull : ∀ l ∈ first :: rest, (!(trim l).isEmpty) = true := fun l hl => by
    have hink := ink_ne_zero_of_trimEnd (h.each l hl).2.1 (h.each l hl).2.2
    have hne : trim l ≠ [] := fun hnil => hink (trim_eq_nil_iff.mp hnil)
    simpa using hne
  rw [fullLines, lines_joinLines (fun l hl => (h.each l hl).1) hlast, List.filter_eq_self.mpr hfull]
  exact (List.map_congr_left fun l hl => (h.each l hl).2.2).trans (List.map_id _)

theorem Kept.commentText_line (h : Kept t) (hmem : '\n' ∉ t) (level : Nat) :
    commentText level t = crlf ++ (indent level ++ '/' :: '/' :: ' ' :: t) := by
  have hlines : (fullLines t).length ≤ 1 := by
    rw [fullLines, List.length_map, lines_of_not_mem hmem h.ne_nil]
    exact List.length_filter_le _ _
  rw [commentText_eq, if_pos hlines, h.trim_eq]
  simp

theorem Block.one_lt_length (h : Block first rest) : ¬ (first :: rest).length ≤ 1 := by
  have hpos := List.length_pos_iff.mpr h.rest_ne
  rw [List.length_cons]
  omega

theorem Kept.commentText_block (h : Kept t) (hmem : '\n' ∈ t) (level : Nat) :
    commentText level t =
      crlf ++ (indent level ++ '/' :: '*' :: (inside level (fullLines t) ++ ['*', '/'])) := by
  obtain ⟨first, rest, hfull, hblock, -⟩ := h.exists_block hmem
  rw [commentText_eq, hfull, if_neg hblock.one_lt_length]
  simp

/-- A comment is written in the same way when it has been read back, unless it is a block whose
first line begins with an asterisk. -/
theorem Kept.commentText_reread (h : Kept t) (hstar : ¬ Starred t) :
    commentText level (reread t) = commentText level t := by
  by_cases hmem : '\n' ∈ t
  · obtain ⟨first, rest, hfull, hblock, hhead⟩ := h.exists_block hmem
    have hreread : reread t = joinLines (first :: rest) := by
      rw [reread, if_pos hmem, hfull, List.map_cons, hblock.map_strip,
        hblock.strip_first (hhead ▸ fun hfirst => hstar ⟨hmem, hfirst⟩),
        hblock.solid_joinLines.trim_eq]
    rw [commentText_eq, commentText_eq, hreread, hblock.fullLines_joinLines, hfull]
    simp only [if_neg hblock.one_lt_length]
  · rw [reread, if_neg hmem]

/-! ## Losing asterisks -/

theorem ink_indent (level : Nat) : ink (indent level) = 0 :=
  ink_of_blank fun c hc => by
    rw [(List.mem_replicate.mp hc).2]
    rfl

theorem ink_inside (level : Nat) (ls : List (List Char)) :
    ink (inside level ls) = ls.length + (ls.map ink).sum := by
  have hmargin : ink [' ', '*', ' '] = 1 := by decide
  have hspace : ink [' '] = 0 := by decide
  have hflat : ink (ls.flatMap fun l => indent level ++ [' ', '*', ' '] ++ l ++ crlf) =
      ls.length + (ls.map ink).sum := by
    induction ls with
    | nil => rfl
    | cons l ls ih =>
      simp only [List.flatMap_cons, ink_append, ih, ink_indent, hmargin, ink_crlf, List.length_cons,
        List.map_cons, List.sum_cons]
      omega
  simp only [inside, ink_append, ink_crlf, hflat, ink_indent, hspace, Nat.zero_add, Nat.add_zero]

/-- The ink of a written comment: its own, two slashes or the two marks, and one asterisk for each
line of a block. -/
theorem ink_commentText (level : Nat) (s : List Char) :
    ink (commentText level s) =
      (if (fullLines s).length ≤ 1 then 2 else 4 + (fullLines s).length) + ink s := by
  have hslashes : ink ['/', '/', ' '] = 2 := by decide
  have hopen : ink ['/', '*'] = 2 := by decide
  have hclose : ink ['*', '/'] = 2 := by decide
  rw [commentText_eq, ink_append, ink_append, ink_crlf, ink_indent]
  split
  · rw [ink_append, hslashes, ink_trim]
    omega
  · rw [ink_append, ink_append, hopen, hclose, ink_inside, sum_ink_fullLines]
    omega

theorem strip_isInfix (l : List Char) : strip l <:+: l :=
  (trimEnd_isPrefix _).isInfix.trans (List.dropWhile_suffix _).isInfix

theorem count_joinLines_le (h : ∀ l ∈ ls, '\n' ∉ l) :
    (joinLines ls).count '\n' ≤ ls.length - 1 := by
  induction ls with
  | nil => simp
  | cons l ls ih =>
    have hl : l.count '\n' = 0 := List.count_eq_zero.mpr (h l (by simp))
    by_cases hls : ls = []
    · subst hls
      simp [hl]
    · have hle := ih fun l hl => h l (by simp [hl])
      have hbreak : crlf.count '\n' = 1 := by decide
      have hpos := List.length_pos_iff.mpr hls
      rw [joinLines_cons l hls, List.count_append, List.count_append, hl, hbreak, List.length_cons]
      omega

theorem ink_joinLines (ls : List (List Char)) : ink (joinLines ls) = (ls.map ink).sum := by
  induction ls with
  | nil => rfl
  | cons l ls ih =>
    by_cases hls : ls = []
    · subst hls
      simp
    · rw [joinLines_cons l hls, ink_append, ink_append, ink_crlf, ih, List.map_cons, List.sum_cons,
        Nat.add_zero]

/-- A comment is read back with no more lines than it had, and with ink if it had two lines. -/
theorem Block.reread_le (h : Block first rest) :
    (fullLines (trim (joinLines ((first :: rest).map strip)))).length ≤ rest.length + 1 ∧
      ink (trim (joinLines ((first :: rest).map strip))) =
        ink (strip first) + (rest.map ink).sum := by
  have hnot : ∀ l ∈ (first :: rest).map strip, '\n' ∉ l := by
    intro l hl
    obtain ⟨l', hl', rfl⟩ := List.mem_map.mp hl
    exact fun hmem => (h.each l' hl').1 ((strip_isInfix l').subset hmem)
  constructor
  · have hcount := count_joinLines_le hnot
    have hsub := (trim_isInfix (joinLines ((first :: rest).map strip))).sublist.count_le '\n'
    have hlines := length_lines_le (trim (joinLines ((first :: rest).map strip)))
    have hfull : (fullLines (trim (joinLines ((first :: rest).map strip)))).length ≤
        (lines (trim (joinLines ((first :: rest).map strip)))).length := by
      rw [fullLines, List.length_map]
      exact List.length_filter_le _ _
    rw [List.length_map, List.length_cons] at hcount
    omega
  · rw [ink_trim, ink_joinLines, List.map_cons, h.map_strip, List.map_cons, List.sum_cons]

theorem ink_strip_lt (tail : List Char) : ink (strip ('*' :: tail)) < ink ('*' :: tail) := by
  have hdrop : strip ('*' :: tail) = strip tail := by
    rw [strip, List.dropWhile_cons_of_pos (by rfl), strip]
  have hsub : ink (strip tail) ≤ ink tail := (strip_isInfix tail).sublist.countP_le
  have hone : ink ['*'] = 1 := by decide
  rw [hdrop, ink_cons, hone]
  omega

/-- A block whose first line begins with an asterisk has less ink when it has been read back. -/
theorem Kept.ink_commentText_reread_lt (h : Kept t) (hstar : Starred t) :
    ink (commentText level (reread t)) < ink (commentText level t) := by
  obtain ⟨hmem, hstar⟩ := hstar
  obtain ⟨first, rest, hfull, hblock, hhead⟩ := h.exists_block hmem
  obtain ⟨tail, rfl⟩ := List.head?_eq_some_iff.mp (hhead.trans hstar)
  obtain ⟨hlines, hink⟩ := hblock.reread_le
  have hless := ink_strip_lt tail
  have hsum := sum_ink_fullLines t
  rw [hfull, List.map_cons, List.sum_cons] at hsum
  rw [ink_commentText, ink_commentText, reread, if_pos hmem, hfull, hink, ← hsum,
    if_neg hblock.one_lt_length, List.length_cons]
  split <;> omega

theorem Kept.reread (h : Kept t) : trim (reread t) = reread t ∧ reread t ≠ [] := by
  by_cases hmem : '\n' ∈ t
  · obtain ⟨first, rest, hfull, hblock, -⟩ := h.exists_block hmem
    rw [Text.reread, if_pos hmem, hfull]
    refine ⟨trim_trim _, fun hnil => ?_⟩
    have hink := hblock.reread_le.2
    obtain ⟨l, rest', rfl⟩ := List.exists_cons_of_ne_nil hblock.rest_ne
    have hl := hblock.each l (by simp)
    have hzero : ink l = 0 := by
      rw [hnil, ink_nil, List.map_cons, List.sum_cons] at hink
      omega
    exact ink_ne_zero_of_trimEnd hl.2.1 hl.2.2 hzero
  · rw [Text.reread, if_neg hmem]
    exact ⟨h.trim_eq, h.ne_nil⟩

/-! ## Comments that were read -/

theorem head?_joinLines : ∀ c ∈ (joinLines ls).head?, c = '\r' ∨ ∃ l ∈ ls, c ∈ l.head? := by
  intro c hc
  cases ls with
  | nil => cases hc
  | cons l ls =>
    cases l with
    | nil =>
      by_cases hls : ls = []
      · subst hls
        cases hc
      · rw [joinLines_cons _ hls] at hc
        exact .inl (Option.some.inj hc).symm
    | cons d l =>
      refine .inr ⟨d :: l, by simp, ?_⟩
      by_cases hls : ls = []
      · subst hls
        rwa [joinLines_singleton] at hc
      · rw [joinLines_cons _ hls] at hc
        exact hc

theorem isChain_joinLines (h : ∀ l ∈ ls, '\n' ∉ l ∧ l.IsChain KeepsOpen ∧
    ∀ c ∈ l.head?, isMargin c = false) : (joinLines ls).IsChain Calm := by
  induction ls with
  | nil => exact .nil
  | cons l ls ih =>
    obtain ⟨hnot, hopen, -⟩ := h l (by simp)
    have hl := isChain_calm_of_not_mem hnot hopen
    by_cases hls : ls = []
    · subst hls
      rwa [joinLines_singleton]
    · rw [joinLines_cons l hls]
      have hbreak : crlf.IsChain Calm := by
        refine List.isChain_cons.mpr ⟨fun d hd => ?_, .singleton _⟩
        obtain rfl : '\n' = d := by simpa using hd
        exact ⟨fun hclose => absurd hclose.1 (by decide), fun hc => absurd hc (by decide)⟩
      have hline : (l ++ crlf).IsChain Calm := by
        refine List.isChain_append.mpr ⟨hl, hbreak, fun c _ d hd => ?_⟩
        obtain rfl : '\r' = d := by simpa [crlf] using hd
        exact ⟨fun hclose => absurd hclose.2 (by decide), fun _ => rfl⟩
      refine List.isChain_append.mpr ⟨hline, ih fun l hl => h l (by simp [hl]), ?_⟩
      intro c hc d hd
      obtain rfl : '\n' = c := by simpa [crlf] using hc
      refine ⟨fun hclose => absurd hclose.1 (by decide), fun _ => ?_⟩
      rcases head?_joinLines d hd with rfl | ⟨m, hm, hd⟩
      · rfl
      · exact (h m (by simp [hm])).2.2 d hd

theorem kept_cleanComment {raw r : List Char} (h : readComment s = .ok (raw, r))
    (hne : cleanComment raw ≠ []) : Kept (cleanComment raw) where
  trim_eq := trim_trim _
  ne_nil := hne
  calm _ := by
    have hjoin : (joinLines ((lines raw).map strip)).IsChain Calm := by
      refine isChain_joinLines fun l hl => ?_
      obtain ⟨l', hl', rfl⟩ := List.mem_map.mp hl
      have hpart := strip_isInfix l'
      refine ⟨fun hmem => not_mem_lines raw l' hl' (hpart.subset hmem),
        List.IsChain.infix (isChain_of_readComment h).1
          (hpart.trans (infix_of_mem_lines raw l' hl')), ?_⟩
      intro c hc
      obtain ⟨tail, htail⟩ := List.head?_eq_some_iff.mp hc
      obtain ⟨w, hw⟩ := trimEnd_isPrefix (l'.dropWhile isMargin)
      rw [← strip, htail, List.cons_append] at hw
      have hhead := List.head?_dropWhile_not isMargin l'
      rw [← hw] at hhead
      simpa using hhead
    exact List.IsChain.infix hjoin (trim_isInfix _)

theorem kept_of_not_mem (h : '\n' ∉ s) (hne : trim s ≠ []) : Kept (trim s) where
  trim_eq := trim_trim _
  ne_nil := hne
  calm hmem := absurd ((trim_isInfix s).subset hmem) h

end Outline.Text
