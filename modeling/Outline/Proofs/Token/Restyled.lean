import Mathlib.Data.List.Forall2
import Outline.Document.Build
import Outline.Proofs.Text.Restyled
import Outline.Proofs.Token.Line
import Outline.Proofs.Token.Position

/-!
# Texts scanned side by side

What is scanned from a text is found as well in a text with other line breaks, and in a text
that goes on behind it. The tokens have the same content and the same places. So line by line
scanning is compositional, and the style of the line breaks does not matter.
-/

namespace Outline

open Text

namespace Token

/-- Two lexemes with the same content at the same place of two sources. -/
structure Twin (source source' : List Char) (l l' : Lexeme) : Prop where
  kind : l.kind = l'.kind
  text : l.text = l'.text
  place : SamePlace source source' l.start l'.start

/-- Two lists of lexemes with the same content at the same places. -/
abbrev Twins (source source' : List Char) : List Lexeme → List Lexeme → Prop :=
  List.Forall₂ (Twin source source')

variable {source source' tail r r' s s' : List Char}

theorem Twins.map_token {ls ls' : List Lexeme} (h : Twins source source' ls ls') :
    ls.map (·.token source) = ls'.map (·.token source') := by
  induction h with
  | nil => rfl
  | @cons l l' _ _ hl _ ih =>
    have htoken : l.token source = l'.token source' := by
      rw [Lexeme.token, Lexeme.token, hl.kind, hl.text, hl.place.after_eq]
    rw [List.map_cons, List.map_cons, htoken, ih]

theorem twins_singleton {k : Kind} {t : List Char} (h : Inside source source' tail s s') :
    Twins source source' [⟨k, t, s⟩] [⟨k, t, s'⟩] := .cons ⟨rfl, rfl, h.place⟩ .nil

theorem Twins.append {ls ls' ms ms' : List Lexeme} (h : Twins source source' ls ls')
    (hm : Twins source source' ms ms') : Twins source source' (ls ++ ms) (ls' ++ ms') :=
  List.rel_append h hm

/-! ## Names and values -/

theorem tracks_closedBy {A : List Char → List Char → Prop} {p : List Char → Bool}
    {fault : SyntaxFault} {x x' : Reading}
    (hp : ∀ {s s'}, Inside source source' tail s s' → p s = p s')
    (h : Tracks A (Inside source source' tail) x x') :
    Tracks A (Inside source source' tail) (closedBy p fault x) (closedBy p fault x') := by
  intro t s hx
  obtain ⟨hx, hps⟩ := closedBy_eq_ok.1 hx
  obtain ⟨t', s', hx', ht, hs⟩ := h t s hx
  exact ⟨t', s', closedBy_eq_ok.2 ⟨hx', hp hs ▸ hps⟩, ht, hs⟩

theorem endsName_of_inside (h : Inside source source' tail r r') : endsName r = endsName r' := by
  have hcolon : (r.head? == some ':') = (r'.head? == some ':') := by
    rw [Bool.eq_iff_iff, beq_iff_eq, beq_iff_eq, h.head?_eq rfl]
  rw [endsName, endsName, h.atLineEnd_eq, hcolon]

theorem isBare_of_isBreak (c : Char) (h : isBreak c = true) : isBare c = false := by
  simp [isBare, h]

theorem quote_start (r : List Char) : (∃ s, r = '@' :: '"' :: s) ∨ (∃ s, r = '"' :: s) ∨
    (∃ s, r = '\'' :: s) ∨ Unquoted r := by
  by_cases hv : ∃ s, r = '@' :: '"' :: s
  · exact .inl hv
  by_cases hd : ∃ s, r = '"' :: s
  · exact .inr (.inl hd)
  by_cases hs : ∃ s, r = '\'' :: s
  · exact .inr (.inr (.inl hs))
  refine .inr (.inr (.inr ⟨fun h => hd ?_, fun h => hs ?_, fun s h => hv ⟨s, h⟩⟩))
  · exact List.head?_eq_some_iff.mp h
  · exact List.head?_eq_some_iff.mp h

theorem Unquoted.of_inside (h : Inside source source' tail r r') (hr : Unquoted r) :
    Unquoted r' := by
  refine ⟨?_, ?_, ?_⟩
  · rw [Ne, ← h.head?_eq rfl]
    exact hr.double
  · rw [Ne, ← h.head?_eq rfl]
    exact hr.single
  · rintro s' rfl
    obtain ⟨s, rfl, hin⟩ := h.cons_inv rfl
    obtain ⟨t, rfl, -⟩ := hin.cons_inv rfl
    exact hr.verbatim t rfl

theorem readName_tracks (h : Inside source source' tail r r') :
    Tracks Eq (Inside source source' tail) (readName r) (readName r') := by
  rcases quote_start r with ⟨s, rfl⟩ | ⟨s, rfl⟩ | ⟨s, rfl⟩ | hr
  · obtain ⟨s', rfl, hin⟩ := h.toAbreast.cons rfl
    obtain ⟨t', rfl, hrest⟩ := hin.toAbreast.cons rfl
    exact tracks_closedBy endsName_of_inside (readVerbatim_tracks hrest.toAbreast)
  · obtain ⟨s', rfl, hin⟩ := h.toAbreast.cons rfl
    exact tracks_closedBy endsName_of_inside (readQuoted_tracks rfl hin.toAbreast)
  · obtain ⟨s', rfl, hin⟩ := h.toAbreast.cons rfl
    exact tracks_closedBy endsName_of_inside (readQuoted_tracks rfl hin.toAbreast)
  · obtain ⟨htake, hdrop⟩ := h.span isBare_of_isBreak
    rw [readName_of_unquoted hr, readName_of_unquoted (hr.of_inside h)]
    exact tracks_ok htake hdrop

theorem readField_tracks (h : Inside source source' tail r r') :
    Tracks Eq (Inside source source' tail) (readField r) (readField r') := by
  have hquoted : ∀ {x x' : Reading}, Tracks Eq (Inside source source' tail) x x' →
      Tracks Eq (Inside source source' tail)
        (closedBy endsValue .textAfterValue x >>= fun read => .ok (.text read.1, read.2))
        (closedBy endsValue .textAfterValue x' >>= fun read =>
          .ok (Field.text read.1, read.2)) := by
    intro x x' hx
    refine (tracks_closedBy Inside.atLineEnd_eq hx).bind fun t t' s s' ht hs => ?_
    exact tracks_ok (congrArg Field.text ht) hs
  rcases quote_start r with ⟨s, rfl⟩ | ⟨s, rfl⟩ | ⟨s, rfl⟩ | hr
  · obtain ⟨s', rfl, hin⟩ := h.toAbreast.cons rfl
    obtain ⟨t', rfl, hrest⟩ := hin.toAbreast.cons rfl
    exact hquoted (readVerbatim_tracks hrest.toAbreast)
  · obtain ⟨s', rfl, hin⟩ := h.toAbreast.cons rfl
    exact hquoted (readQuoted_tracks rfl hin.toAbreast)
  · obtain ⟨s', rfl, hin⟩ := h.toAbreast.cons rfl
    exact hquoted (readQuoted_tracks rfl hin.toAbreast)
  · obtain ⟨htake, hdrop⟩ := h.span isBare_of_isBreak
    rw [readField_of_unquoted hr, readField_of_unquoted (hr.of_inside h), htake]
    by_cases hcolon : (r.dropWhile isBare).head? = some ':'
    · rw [if_pos hcolon, if_pos ((hdrop.head?_eq rfl).mp hcolon)]
      exact tracks_ok rfl hdrop
    · rw [if_neg hcolon, if_neg (mt (hdrop.head?_eq rfl).mpr hcolon)]
      exact tracks_ok rfl hdrop

theorem scanTypedValue_of_head? (h : r.head? ≠ some ':') : scanTypedValue r = .ok ([], r) := by
  unfold scanTypedValue
  split
  · exact absurd rfl h
  · rfl

theorem scanValue_of_head? (h : r.head? ≠ some ':') : scanValue r = .ok ([], r) := by
  unfold scanValue
  split
  · exact absurd rfl h
  · rfl

theorem scanTypedValue_tracks (h : Inside source source' tail r r') :
    Tracks (Twins source source') (Inside source source' tail) (scanTypedValue r)
      (scanTypedValue r') := by
  by_cases hcolon : r.head? = some ':'
  · obtain ⟨s, rfl⟩ := List.head?_eq_some_iff.mp hcolon
    obtain ⟨s', rfl, hin⟩ := h.toAbreast.cons rfl
    refine (readField_tracks hin).bind ?_
    rintro (_ | t) _ u u' rfl hu
    · exact tracks_error
    · exact tracks_ok ((twins_singleton h).append (twins_singleton hin)) hu
  · rw [scanTypedValue_of_head? hcolon, scanTypedValue_of_head? (mt (h.head?_eq rfl).mpr hcolon)]
    exact tracks_ok .nil h

theorem scanValue_tracks (h : Inside source source' tail r r') :
    Tracks (Twins source source') (Inside source source' tail) (scanValue r) (scanValue r') := by
  by_cases hcolon : r.head? = some ':'
  · obtain ⟨s, rfl⟩ := List.head?_eq_some_iff.mp hcolon
    obtain ⟨s', rfl, hin⟩ := h.toAbreast.cons rfl
    refine (readField_tracks hin).bind ?_
    have hhead : ∀ {k k' : Kind} {t t' : List Char},
        Twins source source' [⟨k, t, ':' :: s⟩, ⟨k', t', s⟩] [⟨k, t, ':' :: s'⟩, ⟨k', t', s'⟩] :=
      (twins_singleton h).append (twins_singleton hin)
    rintro (_ | t) _ u u' rfl hu
    · exact (scanTypedValue_tracks hu).bind fun ls ls' v v' hls hv =>
        tracks_ok (hhead.append hls) hv
    · exact tracks_ok hhead hu
  · rw [scanValue_of_head? hcolon, scanValue_of_head? (mt (h.head?_eq rfl).mpr hcolon)]
    exact tracks_ok .nil h

/-! ## Ends of lines -/

theorem exists_of_breakLine (h : breakLine r = .ok s) : ∃ b, LineBreak b ∧ r = b ++ s := by
  unfold breakLine at h
  split at h
  · cases h
    exact ⟨_, .feed, rfl⟩
  · cases h
    exact ⟨_, .pair, rfl⟩
  · cases h
  · cases h

theorem breakLine_append {b : List Char} (hb : LineBreak b) (s : List Char) :
    breakLine (b ++ s) = .ok s := by
  cases hb <;> rfl

theorem exists_breakLine (h : Abreast source source' tail r r') (hr : breakLine r = .ok s) :
    ∃ s', breakLine r' = .ok s' ∧ Abreast source source' tail s s' := by
  obtain ⟨b, hb, rfl⟩ := exists_of_breakLine hr
  obtain ⟨b', s', hb', rfl, hs⟩ := h.lineBreak hb
  exact ⟨s', breakLine_append hb' s', hs⟩

theorem isEmpty_of_inside (h : Inside source source' tail r r') : r.isEmpty = r'.isEmpty := by
  rcases h.heads with ⟨rfl, rfl⟩ | ⟨c, s, s', -, rfl, rfl, -⟩ | ⟨c, c', s, s', -, -, rfl, rfl⟩
  · rfl
  · rfl
  · rfl

theorem exists_nextLine (h : Inside source source' tail r r') (hr : nextLine r = .ok s) :
    ∃ s', nextLine r' = .ok s' ∧ Abreast source source' tail s s' := by
  unfold nextLine at hr ⊢
  rw [← isEmpty_of_inside h]
  split at hr
  · rename_i hempty
    cases hr
    obtain rfl := List.isEmpty_iff.mp hempty
    obtain rfl := h.stop rfl
    exact ⟨[], by simp, h.toAbreast⟩
  · rename_i hempty
    rw [if_neg hempty]
    exact exists_breakLine h.toAbreast hr

theorem scanLineEnd_tracks (h : Inside source source' tail r r') :
    Tracks (Twins source source') (Abreast source source' tail) (scanLineEnd r)
      (scanLineEnd r') := by
  intro ls s hr
  obtain ⟨next, hnext, hr⟩ := bind_eq_ok.1 hr
  obtain ⟨rfl, rfl⟩ := Prod.mk.inj (pure_eq_ok.1 hr)
  obtain ⟨next', hnext', hrest⟩ := exists_nextLine h hnext
  refine ⟨_, next', by rw [scanLineEnd, hnext']; rfl, ?_, hrest⟩
  rw [← isEmpty_of_inside h]
  split
  · exact .nil
  · exact twins_singleton h

theorem scanEntry_tracks (h : Inside source source' tail r r') :
    Tracks (Twins source source') (Abreast source source' tail) (scanEntry r) (scanEntry r') := by
  refine (readName_tracks h).bind ?_
  rintro name _ s s' rfl hs
  refine (scanValue_tracks hs).bind fun vs vs' t t' hvs ht => ?_
  refine (scanLineEnd_tracks ht).bind fun es es' u u' hes hu => ?_
  exact tracks_ok (Twins.append ((twins_singleton h).append hvs) hes) hu

/-! ## Comments -/

theorem readComment_cons {c : Char} (h : ¬ (c = '*' ∧ s.head? = some '/')) :
    readComment (c :: s) = (readComment s).prepend [c] := by
  rw [readComment]
  rintro t rfl rfl
  exact h ⟨rfl, rfl⟩

theorem readComment_lineBreak {b : List Char} (hb : LineBreak b) (s : List Char) :
    readComment (b ++ s) = (readComment s).prepend b := by
  cases hb with
  | feed => rfl
  | pair =>
    show ((readComment s).prepend ['\n']).prepend ['\r'] = _
    rcases readComment s with _ | ⟨t, r⟩ <;> rfl

/-- The text of a comment starts with no other character than what is read. -/
theorem head?_ne_of_readComment {c : Char} {t : List Char} (h : readComment s = .ok (t, r))
    (hc : s.head? ≠ some c) : t.head? ≠ some c := by
  unfold readComment at h
  split at h
  · cases h
  · cases h
    exact nofun
  · obtain ⟨v, -, rfl⟩ := Reading.prepend_eq_ok h
    exact hc

/-- The text of a block comment is found in both texts, its line breaks in the style of each. -/
theorem readComment_tracks (h : Abreast source source' tail r r') :
    Tracks (Restyles []) (Inside source source' tail) (readComment r) (readComment r') := by
  -- A pair is one line break, so the characters of a text are not taken one by one.
  fun_induction canonicalBreaks r generalizing r' with
  | case1 => exact tracks_error
  | case2 s ih =>
    obtain ⟨b', s', hb', rfl, hrest⟩ := h.lineBreak .pair
    show Tracks _ _ (readComment (['\r', '\n'] ++ s)) _
    rw [readComment_lineBreak .pair, readComment_lineBreak hb']
    exact (ih hrest).prepend_lineBreak .pair hb'
  | case3 c s hne ih =>
    by_cases hn : c = '\n'
    · subst hn
      obtain ⟨b', s', hb', rfl, hrest⟩ := h.lineBreak .feed
      rw [readComment_lineBreak hb']
      exact (ih hrest).prepend_lineBreak .feed hb'
    have hhead : c = '\r' → s.head? ≠ some '\n' := by
      intro hr hs
      obtain ⟨t, rfl⟩ := List.head?_eq_some_iff.mp hs
      exact hne t hr rfl
    obtain ⟨s', rfl, hhead', hin⟩ := h.char hn hhead
    by_cases hclose : c = '*' ∧ s.head? = some '/'
    · obtain ⟨rfl, hs⟩ := hclose
      obtain ⟨t, rfl⟩ := List.head?_eq_some_iff.mp hs
      obtain ⟨t', rfl, hrest⟩ := hin.toAbreast.cons rfl
      exact tracks_ok .nil hrest
    · have hclose' : ¬ (c = '*' ∧ s'.head? = some '/') := by rwa [← hin.head?_eq rfl]
      rw [readComment_cons hclose, readComment_cons hclose']
      intro t u ht
      obtain ⟨v, hv, rfl⟩ := Reading.prepend_eq_ok ht
      obtain ⟨v', u', hv', hrest, hu⟩ := ih hin.toAbreast v u hv
      refine ⟨c :: v', u', by rw [hv']; rfl, .char hn (fun hr => ⟨?_, ?_⟩) (fun _ => rfl) hrest, hu⟩
      · exact head?_ne_of_readComment hv (hhead hr)
      · exact head?_ne_of_readComment hv' (hhead' hr)

theorem isSpace_of_isBreak (c : Char) (h : isBreak c = true) : (c == ' ') = false := by
  by_contra hne
  obtain rfl : c = ' ' := by simpa using hne
  cases h

theorem closeComment_tracks {x x' : Reading}
    (h : Tracks (Restyles []) (Inside source source' tail) x x') :
    Tracks (Restyles []) (Inside source source' tail) (closeComment x) (closeComment x') := by
  rcases x with _ | ⟨t, s⟩
  · exact tracks_error
  · obtain ⟨t', s', rfl, ht, hs⟩ := h t s rfl
    exact tracks_closedBy Inside.atLineEnd_eq (tracks_ok ht (hs.span isSpace_of_isBreak).2)

theorem finishComment_tracks {indent indent' : List Lexeme} {kind : Kind} {t : List Char}
    (hindent : Twins source source' indent indent') (hs : Inside source source' tail s s')
    (hr : Inside source source' tail r r') :
    Tracks (Twins source source') (Abreast source source' tail)
      (finishComment indent kind s t r) (finishComment indent' kind s' t r') := by
  intro ls u hu
  obtain ⟨next, hnext, hu⟩ := bind_eq_ok.1 hu
  obtain ⟨rfl, rfl⟩ := Prod.mk.inj (pure_eq_ok.1 hu)
  obtain ⟨next', hnext', hrest⟩ := exists_nextLine hr hnext
  refine ⟨_, next', by rw [finishComment, hnext']; rfl, ?_, hrest⟩
  split
  · exact .nil
  · exact hindent.append ((twins_singleton hs).append (twins_singleton hr))

/-! ## Lines -/

theorem comment_start (r : List Char) : (∃ s, r = '/' :: '*' :: s) ∨ (∃ s, r = '/' :: '/' :: s) ∨
    Uncommented r := by
  by_cases hblock : ∃ s, r = '/' :: '*' :: s
  · exact .inl hblock
  by_cases hline : ∃ s, r = '/' :: '/' :: s
  · exact .inr (.inl hline)
  · exact .inr (.inr fun t => ⟨fun h => hline ⟨t, h⟩, fun h => hblock ⟨t, h⟩⟩)

theorem Uncommented.of_inside (h : Inside source source' tail r r') (hr : Uncommented r) :
    Uncommented r' := by
  have hmark : ∀ {c : Char} {t' : List Char}, isBreak c = false → r' = '/' :: c :: t' →
      ∃ t, r = '/' :: c :: t := by
    rintro c t' hc rfl
    obtain ⟨s, rfl, hin⟩ := h.cons_inv rfl
    obtain ⟨t, rfl, -⟩ := hin.cons_inv hc
    exact ⟨t, rfl⟩
  refine fun t' => ⟨fun heq => ?_, fun heq => ?_⟩
  · obtain ⟨t, ht⟩ := hmark rfl heq
    exact (hr t).1 ht
  · obtain ⟨t, ht⟩ := hmark rfl heq
    exact (hr t).2 ht

theorem scanContent_tracks {indent indent' : List Lexeme}
    (hindent : Twins source source' indent indent') (h : Inside source source' tail r r') :
    Tracks (Twins source source') (Abreast source source' tail) (scanContent indent r)
      (scanContent indent' r') := by
  rcases comment_start r with ⟨s, rfl⟩ | ⟨s, rfl⟩ | hr
  · obtain ⟨s', rfl, hin⟩ := h.toAbreast.cons rfl
    obtain ⟨t', rfl, hrest⟩ := hin.toAbreast.cons rfl
    refine (closeComment_tracks (readComment_tracks hrest.toAbreast)).bind ?_
    intro raw raw' u u' hraw hu
    have hclean : cleanComment raw = cleanComment raw' := by
      rw [cleanComment, cleanComment, lines_of_restyles hraw]
    dsimp only
    rw [hclean]
    exact finishComment_tracks hindent h hu
  · obtain ⟨s', rfl, hin⟩ := h.toAbreast.cons rfl
    obtain ⟨t', rfl, hrest⟩ := hin.toAbreast.cons rfl
    obtain ⟨htake, hdrop⟩ := hrest.span (p := (!isBreak ·)) fun c hc => by simp [hc]
    show Tracks _ _ (finishComment _ _ _ _ _) (finishComment _ _ _ _ _)
    rw [htake]
    exact finishComment_tracks hindent h hdrop
  · rw [scanContent_of_uncommented hr, scanContent_of_uncommented (hr.of_inside h)]
    exact (scanEntry_tracks h).bind fun ls ls' u u' hls hu => tracks_ok (hindent.append hls) hu

theorem scanLine_tracks (h : Inside source source' tail s s') :
    Tracks (Twins source source') (Abreast source source' tail) (scanLine s) (scanLine s') := by
  obtain ⟨htake, hbody⟩ := h.span isSpace_of_isBreak
  unfold scanLine
  dsimp only
  rw [length_sub_dropWhile, length_sub_dropWhile, htake]
  rcases hbody.heads with ⟨hr, hr'⟩ | ⟨c, t, t', hc, hr, hr', -⟩ | ⟨c, c', t, t', hc, hc', hr, hr'⟩
  · rw [hr, hr'] at hbody ⊢
    exact tracks_ok .nil hbody.toAbreast
  · rw [hr, hr'] at hbody ⊢
    simp only [hc, Bool.false_eq_true, if_false]
    split
    · exact tracks_error
    · refine scanContent_tracks ?_ hbody
      split
      · exact .nil
      · exact twins_singleton h
  · rw [hr, hr'] at hbody ⊢
    simp only [hc, hc', if_true]
    intro ls u hu
    obtain ⟨v, hv, hu⟩ := bind_eq_ok.1 hu
    obtain ⟨rfl, rfl⟩ := Prod.mk.inj (pure_eq_ok.1 hu)
    obtain ⟨v', hv', hrest⟩ := exists_breakLine hbody.toAbreast hv
    exact ⟨[], v', by rw [hv']; rfl, .nil, hrest⟩

/-- What is scanned from a text is found in the other one as well, in front of what is scanned
from its tail. -/
theorem exists_scan (h : Abreast source source' tail s s') {ls : List Lexeme}
    (hs : scan s = .ok ls) : ∃ ls', Twins source source' ls ls' ∧ scan s' = do
      let rest ← scan tail
      return ls' ++ rest := by
  fun_induction scan s generalizing s' ls with
  | case1 =>
    cases hs
    refine ⟨[], .nil, ?_⟩
    obtain rfl : s' = tail := h.restyles.eq_tail
    cases hscan : scan s' <;> rfl
  | case2 => cases hs
  | case3 c s ls₁ r hline ih =>
    obtain ⟨ls₂, hr, hs⟩ := bind_eq_ok.1 hs
    obtain rfl := pure_eq_ok.1 hs
    have hin := h.inside (List.cons_ne_nil c s)
    obtain ⟨ls₁', r', hline', htwins, hrest⟩ := scanLine_tracks hin ls₁ r hline
    obtain ⟨ls₂', htwins', hscan⟩ := ih hrest hr
    have hne : s' ≠ [] := by
      rcases hin.heads with ⟨hnil, -⟩ | ⟨d, t, t', -, -, rfl, -⟩ | ⟨d, d', t, t', -, -, -, rfl⟩
      · cases hnil
      · exact List.cons_ne_nil d t'
      · exact List.cons_ne_nil d' t'
    refine ⟨ls₁' ++ ls₂', htwins.append htwins', ?_⟩
    rw [scan_of_scanLine hne hline', hscan]
    cases scan tail with
    | error e => rfl
    | ok rest => exact congrArg Except.ok (List.append_assoc ls₁' ls₂' rest).symm

theorem tokenizeChars_eq_ok {ts : List Token} : tokenizeChars s = .ok ts ↔
    ∃ ls, scan s = .ok ls ∧ ts = ls.map (·.token s) := by
  unfold tokenizeChars
  cases scan s <;> simp [eq_comm]

/-- What is scanned from both texts are tokens with the same content and the same places. -/
theorem tokenizeChars_of_restyles (h : Restyles tail s s') {ts : List Token}
    (hs : tokenizeChars s = .ok ts) : ∃ ls', ts = ls'.map (·.token s') ∧ scan s' = do
      let rest ← scan tail
      return ls' ++ rest := by
  obtain ⟨ls, hscan, rfl⟩ := tokenizeChars_eq_ok.mp hs
  obtain ⟨ls', htwins, hscan'⟩ := exists_scan (abreast_self h) hscan
  exact ⟨ls', htwins.map_token, hscan'⟩

theorem tokenizeChars_restyled (h : Restyles [] s s') {ts : List Token}
    (hs : tokenizeChars s = .ok ts) : tokenizeChars s' = .ok ts := by
  obtain ⟨ls', rfl, hscan⟩ := tokenizeChars_of_restyles h hs
  refine tokenizeChars_eq_ok.mpr ⟨ls', ?_, rfl⟩
  rw [hscan, scan]
  exact congrArg Except.ok (List.append_nil ls')

/-! ## A text behind a finished line -/

def lower (n : Nat) (t : Token) : Token := { t with position := t.position.lower n }

theorem token_append {l : Lexeme} (h : s = [] ∨ s.getLast? = some '\n') {t : List Char}
    (hl : l.start <:+ t) : l.token (s ++ t) = (l.token t).lower (s.count '\n') := by
  obtain ⟨u, rfl⟩ := hl
  rw [Lexeme.token, ← List.append_assoc, before_append, Position.after_append_lower h u]
  rw [Lexeme.token, before_append, lower]

theorem map_token_append (h : s = [] ∨ s.getLast? = some '\n') {t : List Char} {ls : List Lexeme}
    (ht : scan t = .ok ls) :
    ls.map (·.token (s ++ t)) = (ls.map (·.token t)).map (lower (s.count '\n')) := by
  have hrow : Row t ls [] := (takes_scan t).of_ok ht
  rw [List.map_map]
  exact List.map_congr_left fun l hl => token_append h (hrow.start_suffix l hl)

end Token

/-- A text behind finished lines is tokenized as it would be alone: the tokens of the lines come
first, and its own stand so many lines further down. -/
theorem tokenize_append {s : String} {ts : List Token} (hs : tokenize s = .ok ts)
    (hend : s = "" ∨ s.toList.getLast? = some '\n') (t : String) (us : List Token) :
    tokenize (s ++ t) = .ok us ↔
      ∃ vs, tokenize t = .ok vs ∧ us = ts ++ vs.map (Token.lower (s.toList.count '\n')) := by
  have hend' : s.toList = [] ∨ s.toList.getLast? = some '\n' := by simpa using hend
  obtain ⟨ls', rfl, hscan⟩ := Token.tokenizeChars_of_restyles
    (restyles_append (t := t.toList) (hend'.imp_right .inl)) hs
  rw [tokenize, tokenize, String.toList_append, Token.tokenizeChars_eq_ok, hscan]
  constructor
  · rintro ⟨ls, hls, rfl⟩
    obtain ⟨rest, hrest, hls⟩ := bind_eq_ok.1 hls
    obtain rfl := pure_eq_ok.1 hls
    refine ⟨_, Token.tokenizeChars_eq_ok.mpr ⟨rest, hrest, rfl⟩, ?_⟩
    rw [List.map_append, Token.map_token_append hend' hrest]
  · rintro ⟨vs, hvs, rfl⟩
    obtain ⟨rest, hrest, rfl⟩ := Token.tokenizeChars_eq_ok.mp hvs
    refine ⟨ls' ++ rest, by rw [hrest]; rfl, ?_⟩
    rw [List.map_append, Token.map_token_append hend' hrest]

theorem tokenize_append_comment : tokenize ("/*a\n*/\r\n" ++ "b") =
    .ok [⟨.blockComment, "a", ⟨1, 1⟩⟩, ⟨.lineBreak, "\r\n", ⟨2, 3⟩⟩, ⟨.name, "b", ⟨3, 1⟩⟩] := by
  have hcomment : tokenize "/*a\n*/\r\n" =
      .ok [⟨.blockComment, "a", ⟨1, 1⟩⟩, ⟨.lineBreak, "\r\n", ⟨2, 3⟩⟩] := by decide +kernel
  have hname : tokenize "b" = .ok [⟨.name, "b", ⟨1, 1⟩⟩] := by decide +kernel
  exact (tokenize_append hcomment (by decide) "b" _).mpr ⟨_, hname, rfl⟩

/-! ## Styles of line breaks -/

namespace Text

/-- Each line feed is preceded by a carriage return. -/
def pairFeeds : List Char → List Char
  | '\r' :: '\n' :: s => '\r' :: '\n' :: pairFeeds s
  | '\n' :: s => '\r' :: '\n' :: pairFeeds s
  | c :: s => c :: pairFeeds s
  | [] => []

def withPairs (s : String) : String := String.ofList (pairFeeds s.toList)

theorem head?_pairFeeds (s : List Char) : (pairFeeds s).head? ≠ some '\n' := by
  unfold pairFeeds
  split
  · simp
  · simp
  · rename_i hn
    simpa using hn
  · simp

theorem restyles_pairFeeds (s : List Char) : Restyles [] s (pairFeeds s) := by
  fun_induction pairFeeds s with
  | case1 s ih =>
    show Restyles [] (['\r', '\n'] ++ s) (['\r', '\n'] ++ pairFeeds s)
    exact .lineBreak .pair .pair ih
  | case2 s ih =>
    show Restyles [] (['\n'] ++ s) (['\r', '\n'] ++ pairFeeds s)
    exact .lineBreak .feed .pair ih
  | case3 c s hne hn ih =>
    have hs : c = '\r' → s.head? ≠ some '\n' := by
      intro hr hs
      obtain ⟨t, rfl⟩ := List.head?_eq_some_iff.mp hs
      exact hne t hr rfl
    exact .char hn (fun hr => ⟨hs hr, head?_pairFeeds s⟩) (fun _ => rfl) ih
  | case4 => exact .nil

end Text

/-- The style of the line breaks makes no difference: with each line feed paired, a text has the
same tokens at the same places, and makes the same document. -/
theorem tokenize_withPairs (s : String) :
    (∀ ts, tokenize (withPairs s) = .ok ts ↔ tokenize s = .ok ts) ∧
      ∀ convert comments f, Document.parse convert comments (withPairs s) = .ok f ↔
        Document.parse convert comments s = .ok f := by
  have htokens : ∀ ts, tokenize (withPairs s) = .ok ts ↔ tokenize s = .ok ts := by
    intro ts
    have hpairs := restyles_pairFeeds s.toList
    rw [tokenize, tokenize, withPairs, String.toList_ofList]
    exact ⟨Token.tokenizeChars_restyled hpairs.symm, Token.tokenizeChars_restyled hpairs⟩
  refine ⟨htokens, fun convert comments f => ?_⟩
  unfold Document.parse Document.parseInto
  simp only [Build.bind_apply, Build.ofExcept_apply]
  cases hs : tokenize s with
  | ok ts => rw [(htokens ts).mpr hs]
  | error e =>
    cases hp : tokenize (withPairs s) with
    | ok ts => rw [(htokens ts).mp hp] at hs; cases hs
    | error e' => simp

end Outline
